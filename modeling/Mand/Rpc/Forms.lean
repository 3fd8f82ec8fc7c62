import Mand.Rpc.TextTrip
import Mand.Server.Entries

/-! # The two forms of an array

`dmconfig_set_array_cb` with a list that is one string, against the same list as a group of strings. -/
namespace Mand.Rpc
open Mand.Bytes Mand.Msg Mand.Store Mand.Notify Mand.Server Mand.Index
set_option autoImplicit false

/-! ## The forms -/

def codeNumber : AvpCode → UInt32
  | .unknown => avpUnknown
  | .array => avpArray
  | .other code => UInt32.ofNat code

/-- The payload of an AVP and nothing behind it. -/
def payloadOf (avp : Avp) : Dm2Avp := ⟨codeNumber avp.code, vpTravelping, avp.mem.take avp.size⟩

/-- The values are those of `dmconfig_avp2value`; a conversion that reads behind its payload counts as `DM_ERROR`. -/
def withWire (env : Env) (A : Talloc) (L : Libc) : Env :=
  let D : DecodeEnv := ⟨A, env.schema, fun _ _ => .error .invalidType⟩
  { env with conv := fun e avp => (dmconfigAvp2value (D.withText L) (payloadOf avp) e).getD (.error .error) }

/-- A list with commas between the entries. -/
def commaList : List (List ℕ) → List ℕ
  | [] => []
  | [s] => s
  | s :: rest => s ++ 44 :: commaList rest

/-- One `AVP_UNKNOWN` with the list. -/
def stringForm (entries : List (List ℕ)) : Avp :=
  ⟨.unknown, octets (commaList entries), (commaList entries).length⟩

def stringAvps : List (List ℕ) → Avps
  | [] => .nil
  | s :: rest => .avp avpString vpTravelping (octets s) (stringAvps rest)

/-- An `AVP_ARRAY` with an `AVP_STRING` for each entry. -/
def groupForm (entries : List (List ℕ)) : Avp :=
  ⟨.array, wire (stringAvps entries), (wire (stringAvps entries)).length⟩

/-! ## The entries of a group -/

/-- The payloads of the AVPs are the texts, under either code. -/
def Texts : List (List ℕ) → List Avp → Prop :=
  List.Forall₂ fun s avp => (avp.code = .unknown ∨ avp.code = .other avpString.toNat) ∧ avp.mem.take avp.size = octets s

theorem arrayEntries_at (entries : List (List ℕ)) (n : ℕ) (grp : Dm2AvpGrp) (h : At grp (stringAvps entries))
    (hn : entries.length < n) : ∃ avps, arrayEntries n grp = (avps, some .ok) ∧ Texts entries avps := by
  induction entries generalizing n grp with
  | nil =>
    obtain ⟨n, rfl⟩ := Nat.exists_eq_succ_of_ne_zero (Nat.ne_zero_of_lt hn)
    have hend : dmExpectGroupEnd grp = .ok := by simpa [atEnd] using h.end
    refine ⟨[], ?_, .nil⟩
    rw [arrayEntries, if_pos hend]
  | cons s rest ih =>
    obtain ⟨n, rfl⟩ := Nat.exists_eq_succ_of_ne_zero (Nat.ne_zero_of_lt hn)
    have hmore : dmExpectGroupEnd grp ≠ .ok := by
      intro hend
      have hnil := h.end_iff.mp (by simpa [atEnd] using hend)
      have hlen := congrArg List.length hnil
      rw [stringAvps, wire, List.length_append, avpBytes_length, headLen_vpTravelping] at hlen
      have := le_pad32 (12 + (octets s).length)
      simp only [List.length_nil] at hlen
      omega
    obtain ⟨off, grp', back, hexp, hrest, hdrop, -, -⟩ := dmExpectAvp_at h
    obtain ⟨avps, havps, hall⟩ := ih n grp' hrest (by simpa using hn)
    refine ⟨⟨.other avpString.toNat, grp'.data.drop off, (octets s).length⟩ :: avps, ?_, .cons ?_ hall⟩
    · rw [arrayEntries, if_neg hmore]
      simp only [hexp, havps]
      rfl
    · exact ⟨.inr rfl, by rw [hdrop, List.take_left]⟩

theorem avpEntries_group {entries : List (List ℕ)} (hfit : (wire (stringAvps entries)).length < 2 ^ 24) :
    ∃ avps, avpEntries (groupForm entries) = (avps, some .ok) ∧ Texts entries avps := by
  have hat : At (dmInitAvpgrp (wire (stringAvps entries)) (wire (stringAvps entries)).length) (stringAvps entries) :=
    ⟨[], [], by simp [dmInitAvpgrp], rfl, by simp [dmInitAvpgrp], hfit⟩
  have hlen : entries.length ≤ (wire (stringAvps entries)).length := by
    clear hat hfit
    induction entries with
    | nil => simp
    | cons s rest ih =>
      rw [stringAvps, wire, List.length_append, avpBytes_length, headLen_vpTravelping, List.length_cons]
      have := le_pad32 (12 + (octets s).length)
      omega
  obtain ⟨avps, havps, hall⟩ := arrayEntries_at entries ((wire (stringAvps entries)).length + 1) _ hat (by omega)
  refine ⟨avps, ?_, hall⟩
  simp only [avpEntries, groupForm, reduceCtorEq, if_false]
  exact havps

/-! ## The entries of a string -/

theorem idxOf_append {l m : List UInt8} {b : UInt8} (h : b ∉ l) : (l ++ b :: m).idxOf? b = some l.length := by
  induction l with
  | nil => simp [List.idxOf?_cons]
  | cons c l ih =>
    rw [List.mem_cons, not_or] at h
    have hcb : (c == b) = false := by simpa using fun hc => h.1 hc.symm
    rw [List.cons_append, List.idxOf?_cons, hcb, ih h.2]
    rfl

theorem comma_octets {l : List ℕ} (hl : CText l) : (44 : UInt8) ∈ octets l ↔ 44 ∈ l := by
  refine ⟨fun h => ?_, fun h => List.mem_map.mpr ⟨44, h, rfl⟩⟩
  obtain ⟨c, hc, h44⟩ := List.mem_map.mp h
  have hlt := (hl c hc).2
  have := congrArg UInt8.toNat h44
  simp only [UInt8.toNat_ofNat'] at this
  have hc44 : c = 44 := by
    rw [Nat.mod_eq_of_lt hlt] at this
    exact this
  rw [← hc44]
  exact hc

/-- The last of several entries is looked for behind the string: `k` commas were not taken off the length. -/
theorem stringEntries_behind (entries : List (List ℕ)) (hentries : ∀ s ∈ entries, 44 ∉ s ∧ CText s) (hne : entries ≠ [])
    (n k : ℕ) (hn : entries.length ≤ n) (hk : 2 ≤ entries.length ∨ 0 < k) :
    ∃ avps, stringEntries n (octets (commaList entries)) ((octets (commaList entries)).length + k) = (avps, none) ∧
      Texts entries.dropLast avps := by
  induction entries generalizing n k with
  | nil => exact absurd rfl hne
  | cons s rest ih =>
    obtain ⟨n, rfl⟩ := Nat.exists_eq_succ_of_ne_zero (Nat.ne_zero_of_lt hn)
    obtain ⟨hs, htext⟩ := hentries s List.mem_cons_self
    have hs : (44 : UInt8) ∉ octets s := fun h => hs ((comma_octets htext).mp h)
    cases rest with
    | nil =>
      have hk : 0 < k := by simpa using hk
      refine ⟨[], ?_, .nil⟩
      rw [commaList, stringEntries, if_neg (by omega), List.take_of_length_le (by omega), List.idxOf?_eq_none_iff.mpr hs]
      simp [hk]
    | cons t rest =>
      have hmem : octets (commaList (s :: t :: rest)) = octets s ++ 44 :: octets (commaList (t :: rest)) := by
        simp [commaList, octets]
      obtain ⟨avps, havps, hall⟩ := ih (fun x hx => hentries x (List.mem_cons_of_mem _ hx)) (List.cons_ne_nil _ _) n (k + 1)
        (by simpa using hn) (.inr (Nat.succ_pos k))
      refine ⟨⟨.unknown, octets s, (octets s).length⟩ :: avps, ?_, .cons ⟨.inl rfl, List.take_length⟩ hall⟩
      rw [hmem, stringEntries, if_neg (by simp), List.take_of_length_le (by simp), idxOf_append hs]
      have hdrop : (octets s ++ 44 :: octets (commaList (t :: rest))).drop ((octets s).length + 1) =
          octets (commaList (t :: rest)) := by
        rw [← List.drop_drop, List.drop_left]
        rfl
      have hrem : (octets s ++ 44 :: octets (commaList (t :: rest))).length + k - (octets s).length =
          (octets (commaList (t :: rest))).length + (k + 1) := by
        rw [List.length_append, List.length_cons]
        omega
      simp only [hdrop, hrem, havps, List.take_left]

theorem stringEntries_single {mem : Mem} (hne : mem ≠ []) (hcomma : (44 : UInt8) ∉ mem) (n : ℕ) :
    stringEntries (n + 1) mem mem.length = ([⟨.unknown, mem, mem.length⟩], some .ok) := by
  have hpos : mem.length ≠ 0 := fun h => hne (List.length_eq_zero_iff.mp h)
  rw [stringEntries, if_neg hpos, List.take_length, List.idxOf?_eq_none_iff.mpr hcomma]
  simp

/-- The string of a single entry is that entry. -/
theorem avpEntries_string {s : List ℕ} (hne : s ≠ []) (hcomma : 44 ∉ s) (htext : CText s) :
    avpEntries (stringForm [s]) = ([⟨.unknown, octets s, (octets s).length⟩], some .ok) := by
  have hsingle := @stringEntries_single (octets s) (by simpa [octets] using hne)
    (fun h => hcomma ((comma_octets htext).mp h)) (octets s).length
  simp only [avpEntries, stringForm, commaList, if_true, ← octets_length s, hsingle]

/-- The string of more than one entry is read past its end, once all but the last are set. -/
theorem avpEntries_behind {entries : List (List ℕ)} (hmany : 2 ≤ entries.length)
    (hentries : ∀ s ∈ entries, s ≠ [] ∧ 44 ∉ s ∧ CText s) :
    ∃ avps, avpEntries (stringForm entries) = (avps, none) ∧ Texts entries.dropLast avps := by
  have hne : entries ≠ [] := List.ne_nil_of_length_pos (by omega)
  have hlen (l : List (List ℕ)) : l.length ≤ (commaList l).length + 1 := by
    induction l with
    | nil => simp
    | cons s rest ih =>
      cases rest with
      | nil => simp [commaList]
      | cons t rest =>
        simp only [commaList, List.length_append, List.length_cons] at ih ⊢
        omega
  obtain ⟨avps, havps, hall⟩ := stringEntries_behind entries (fun s hs => (hentries s hs).2) hne
    ((commaList entries).length + 1) 0 (hlen entries) (.inl hmany)
  refine ⟨avps, ?_, hall⟩
  rw [Nat.add_zero, octets_length] at havps
  simp only [avpEntries, stringForm, if_true]
  exact havps

/-! ## One entry -/

/-- The rows of the object in a slot are the entries of a list, in order and numbered from one. -/
def HoldsEntries (st : DmStore) (a i : ℕ) (entries : List (List ℕ)) : Prop :=
  ∃ o rows, st.tree a i = some (some o) ∧ o.Lists st.row rows ∧
    rows.map (fun r => ((st.row r).inst, (st.row r).value 1)) = entries.mapIdx fun k s => (k + 1, Value.str (some s))

variable {env : Env} {A : Talloc} {L : Libc} {st st' st1 : DmStore} {e : DmElement} {a i r : Addr}

/-- Both codes stand for the text of the payload. -/
theorem withWire_str (he : e.type = .str) {avp : Avp} (hcode : avp.code = .unknown ∨ avp.code = .other avpString.toNat) :
    (withWire env A L).avp2value e avp = (strndup ⟨A, env.schema, fun _ _ => .error .invalidType⟩
      (avp.mem.take avp.size)).bind (setStringValue ⟨A, env.schema, fun _ _ => .error .invalidType⟩) := by
  have hwritable : writable e.type = true := by rw [he]; rfl
  rw [Env.avp2value, if_pos hwritable]
  rcases hcode with h | h
  · have hcode : (payloadOf avp).code = avpUnknown := by rw [payloadOf, h]; rfl
    simp only [withWire, dmconfigAvp2value, if_pos hcode, Option.getD_some, DecodeEnv.withText, dmconfigString2value, he,
      dmString2value, reduceCtorEq, or_self, if_false]
    rfl
  · have hcode : (payloadOf avp).code = avpString := by rw [payloadOf, h]; rfl
    have hother : ¬(payloadOf avp).code = avpUnknown := by rw [hcode]; decide
    simp only [withWire, dmconfigAvp2value, if_neg hother, he, whenCode, if_pos hcode, Option.getD_some]
    rfl

theorem withWire_text (he : e.type = .str) {s : List ℕ} {avp : Avp} (hne : s ≠ []) (htext : CText s)
    (havp : (avp.code = .unknown ∨ avp.code = .other avpString.toNat) ∧ avp.mem.take avp.size = octets s) :
    (withWire env A L).avp2value e avp =
      if A.grants (s.length + 1) = true then .ok (.str (some s)) else .error .oom := by
  rw [withWire_str he havp.1, havp.2, strndup, cString_octets htext, octets_toNat htext.octets, octets_length]
  by_cases hA : A.grants (s.length + 1) = true
  · rw [if_pos hA, if_pos hA]
    simp only [Except.bind, setStringValue, if_neg hne, hA, if_true]
  · rw [if_neg hA, if_neg hA]
    rfl

/-- Either form has the same values. -/
theorem texts_conv (he : e.type = .str) {entries : List (List ℕ)} {avps avps' : List Avp}
    (hentries : ∀ s ∈ entries, s ≠ [] ∧ 44 ∉ s ∧ CText s) (h : Texts entries avps) (h' : Texts entries avps') :
    List.Forall₂ (fun avp avp' => (withWire env A L).avp2value e avp = (withWire env A L).avp2value e avp') avps avps' := by
  induction h generalizing avps' with
  | nil =>
    cases h'
    exact .nil
  | @cons s avp rest avps havp hrest ih =>
    obtain ⟨avp', rest', havp', hrest', rfl⟩ := List.forall₂_cons_left_iff.mp h'
    obtain ⟨hne, -, htext⟩ := hentries s List.mem_cons_self
    refine .cons ?_ (ih (fun x hx => hentries x (List.mem_cons_of_mem _ hx)) hrest')
    rw [withWire_text he hne htext havp, withWire_text he hne htext havp']

theorem texts_error (he : e.type = .str) {entries : List (List ℕ)} {avps : List Avp}
    (hentries : ∀ s ∈ entries, s ≠ [] ∧ 44 ∉ s ∧ CText s) (h : Texts entries avps) :
    (∃ avp ∈ avps, ∃ err, (withWire env A L).avp2value e avp = .error err) ↔
      ∃ s ∈ entries, A.grants (s.length + 1) = false := by
  induction h with
  | nil => simp
  | @cons s avp rest avps havp hrest ih =>
    obtain ⟨hne, -, htext⟩ := hentries s List.mem_cons_self
    rw [List.exists_mem_cons_iff, List.exists_mem_cons_iff, ih fun x hx => hentries x (List.mem_cons_of_mem _ hx),
      withWire_text he hne htext havp]
    cases A.grants (s.length + 1) <;> simp

/-- What the only row of an object is after its value was set. -/
theorem setEntry_holds (env : Env) {avp : Avp} {o : ObjTree} {n : RowNode} {s : List ℕ}
    (hra : r ≠ a) (hnode : st.node r = some n) (hroot : n.root = some (a, i)) (hinst : n.inst = 1)
    (htree : st.tree a i = some (some o)) (hlists : o.Lists st.row [r]) (hfuel : 2 < st.fuel)
    (hconv : ∀ v, env.avp2value e avp = .ok v → v = .str (some s))
    (h : setEntry env st e r true avp = some (.ok, st')) : HoldsEntries st' a i [s] := by
  simp only [setEntry, Option.bind_eq_bind, Option.bind_eq_some_iff] at h
  obtain ⟨old, -, u, -, h⟩ := h
  cases hv : env.avp2value e avp with
  | error err =>
    rw [hv] at h
    simp only [Option.bind_eq_some_iff, Option.some.injEq, Prod.mk.injEq] at h
    obtain ⟨st1, -, hres, -⟩ := h
    cases hres
  | ok v =>
    rw [hv] at h
    simp only [if_true, Option.bind_eq_some_iff, Option.some.injEq, Prod.mk.injEq, true_and] at h
    obtain ⟨st1, hset, st2, hupd, rfl⟩ := h
    have hnode1 : st1.node r = some n := by rw [DmStore.node_setSlot hset, hnode]
    have htree1 : st1.tree a i = some (some o) := by
      obtain ⟨w, hw, hc⟩ := (tree_eq_some st a i _).mp htree
      exact (tree_eq_some st1 a i _).mpr ⟨w, by rw [DmStore.slot_setSlot hset, if_neg fun h => hra h.1.symm, hw], hc⟩
    have hinst1 (b : Addr) : (st1.row b).inst = (st.row b).inst := by
      simp only [DmStore.row, DmStore.node_setSlot hset]
    have hlists1 : o.Lists st1.row [r] := by
      obtain ⟨ix, rest, hidx, hix⟩ := hlists
      exact ⟨ix, rest, hidx, hix.congr fun b _ => hinst1 b⟩
    have hfuel1 : st1.fuel = st.fuel := by
      obtain ⟨t, ht, -, rfl⟩ := DmStore.setSlot_eq_some.mp hset
      rfl
    simp only [updateInstanceNodeIndex, hnode1, hroot, htree1, Option.bind_eq_bind, Option.bind_some,
      Option.bind_eq_some_iff] at hupd
    obtain ⟨tree', htree', hset2⟩ := hupd
    simp only [InstTree.updateAll, Option.bind_eq_bind, Option.bind_eq_some_iff, Option.some.injEq] at htree'
    obtain ⟨idx, hidx, rfl⟩ := htree'
    have hlong : [r].length + 1 < st1.fuel := by
      rw [List.length_singleton, hfuel1]
      exact hfuel
    obtain ⟨rows', hl', hcases⟩ := @ObjTree.Lists.update o { o with tree := { o.tree with idx := idx } } _ _ _ _ _ hlists1
      hlong (fun _ => rfl) (.inr hidx)
    have hrows : rows' = [r] := by
      rcases hcases with hperm | ⟨hnot, -⟩
      · exact List.perm_singleton.mp hperm
      · exact absurd (List.mem_singleton_self r) hnot
    subst hrows
    obtain ⟨w, hw2, hset3⟩ := setTree_eq_some hset2
    have hinst2 (b : Addr) : (st2.row b).inst = (st1.row b).inst := by
      simp only [DmStore.row, node_setTree hset2]
    refine ⟨_, [r], (tree_eq_some st2 a i _).mpr ⟨_, by rw [DmStore.slot_setSlot hset3, if_pos ⟨rfl, rfl⟩], rfl⟩, ?_, ?_⟩
    · obtain ⟨ix, rest, hidx, hix⟩ := hl'
      exact ⟨ix, rest, hidx, hix.congr fun b _ => hinst2 b⟩
    · have hnum : (st2.row r).inst = 1 := by
        rw [hinst2, DmStore.row, hnode1]
        exact hinst
      have hval : (st2.row r).value 1 = .str (some s) := by
        show leafValue ((st2.slot r 0).map DmValue.content) = _
        rw [DmStore.slot_setSlot hset3, if_neg fun h => hra h.1, DmStore.slot_setSlot hset, if_pos ⟨rfl, rfl⟩, hconv v hv]
        rfl
      simp [hnum, hval]

/-! ## Both forms -/

/-- A set of either form on an object whose path has a name. -/
theorem setArray_eq (env : Env) {sel : Selector} {ref : Ref} {avp : Avp} (hw : HeapWf False nowhere env.schema st)
    (href : st.getElementRef env.schema sel = some (some ref)) (hval : ref.value = .slot a i)
    (hobj : ref.elem.type = .object) (he0 : (env.schema.table ref.elem.table).elems[0]? = some e)
    (hcode : avp.code = .unknown ∨ avp.code = .array) :
    setArray env st sel ref.elem ref.value avp =
      if dmSel2name env.schema sel maxParamNameLen = none then some (.rc .errAlloc, st)
      else (delTableBySelector env.schema st sel).bind fun x =>
        setEntries env sel e (avp.code = .array) (avpEntries avp).2 1 (avpEntries avp).1 x.2 := by
  obtain ⟨v, hv, -⟩ := getElementRef_checked sel ref href
  have hisobj : isObject v.content = true := by
    have hat := getElementRef_selIds hw href (by simp [DmElement.container, hobj])
    generalize selIds sel = q at hat
    cases hat with
    | row b j t kw e r0 id tr ht hp he _ htr hrid hrow hmem => cases hval
    | slot b j t kw e stType ht hp he =>
      obtain ⟨k, hk⟩ := hw.table b t ht
      obtain ⟨t0, ht0, hvt⟩ := DmStore.slot_eq_some.mp hv
      rw [ht] at ht0
      cases ht0
      have hkp := hk.place
      rw [hp] at hkp
      cases hkp
      obtain ⟨e', he', hfit⟩ := hk.fits j v hvt
      rw [he] at he'
      cases he'
      obtain ⟨o, hc⟩ := fits_object hfit hobj
      rw [hc]
      rfl
  have hcheck : ¬(ref.elem.type ≠ .object ∨ isObject v.content = false ∨ avp.code ≠ .unknown ∧ avp.code ≠ .array) := by
    rintro (h | h | ⟨h1, h2⟩)
    · exact h hobj
    · rw [hisobj] at h
      cases h
    · exact hcode.elim h1 h2
  unfold setArray
  simp only [hv, Option.bind_eq_bind, Option.bind_some, if_neg hcheck, Option.isNone_iff_eq_none, he0]
  split_ifs with hname
  · rfl
  · cases hdel : delTableBySelector env.schema st sel with
    | none => rfl
    | some x =>
      obtain ⟨found, st1⟩ := x
      obtain ⟨rfl, -⟩ := delTableBySelector_empty hw href hval hobj hdel
      simp only [Option.bind_some, Bool.true_eq_false, if_false]
      cases (avpEntries avp).1 <;> rfl

/-- One row is added, and its value set. -/
theorem setEntries_single {env : Env} {sel : Selector} {clear : Bool} {avp : Avp} :
    setEntries env sel e clear (some .ok) 1 [avp] st = (addInstanceBySelector env.schema st sel 1).bind fun x =>
      match x.1 with
      | none => some (.rc .errAlloc, x.2)
      | some r => (x.2.node r).bind fun _ => setEntry env x.2 e r clear avp := by
  simp only [setEntries, Option.bind_eq_bind]
  cases addInstanceBySelector env.schema st sel 1 with
  | none => rfl
  | some x =>
    obtain ⟨row, st1⟩ := x
    cases row with
    | none => rfl
    | some r =>
      simp only [Option.bind_some]
      cases st1.node r with
      | none => rfl
      | some n =>
        simp only [Option.bind_some]
        cases setEntry env st1 e r clear avp with
        | none => rfl
        | some y =>
          obtain ⟨res, st2⟩ := y
          simp only [Option.bind_some]
          split_ifs with h
          · rw [h]
            rfl
          · rfl

/-- The row that is added to an array without rows. -/
theorem addInstance_only {env : Env} {sel : Selector} {ref : Ref} {st2 : DmStore} {found : Bool}
    (hw : HeapWf False nowhere env.schema st) (href : st.getElementRef env.schema sel = some (some ref))
    (hval : ref.value = .slot a i) (hobj : ref.elem.type = .object)
    (hdel : delTableBySelector env.schema st sel = some (found, st1))
    (hadd : addInstanceBySelector env.schema st1 sel 1 = some (some r, st2)) :
    HeapWf False nowhere env.schema st1 ∧ HeapWf False nowhere env.schema st2 ∧ r ≠ a ∧ 2 < st2.fuel ∧
      ∃ n o, st2.node r = some n ∧ n.root = some (a, i) ∧ n.inst = 1 ∧ st2.tree a i = some (some o) ∧
        o.Lists st2.row [r] := by
  obtain ⟨rfl, href1, _, o1, -, htree1, hlists1, -⟩ := delTableBySelector_empty hw href hval hobj hdel
  obtain ⟨hw1, -⟩ := delTableBySelector_spec hw hdel
  obtain ⟨hw2, -, hres⟩ := addInstanceBySelector_spec (P := fun _ => True) hw1 (by decide) (fun hf => hf.elim) hadd
  obtain ⟨ref', b, j, t', kw', n, href', hval', ht', hp', he', hobj', hids', hadded⟩ := hres r rfl
  rw [href1] at href'
  cases href'
  rw [hval] at hval'
  cases hval'
  obtain ⟨o, rows, o', rows', htree, htree', ho, ho', hnew, hcase⟩ := hadded.listed
  rw [htree1] at htree
  cases htree
  have hrows : rows = [] := ho.lists.unique hlists1
  subst hrows
  have hrows' : rows' = [r] := by
    rcases hcase with ⟨⟨y, hy, -⟩, -⟩ | ⟨-, hperm⟩
    · cases hy
    · exact List.perm_singleton.mp hperm
  subst hrows'
  have hinst : n.inst = 1 := by
    have hone : newId st1 o1 1 = some 1 := rfl
    rw [hone] at hnew
    exact (Option.some.inj hnew).symm
  obtain ⟨tr, htr, -⟩ := DmStore.node_eq_some.mp hadded.node
  have hlt := hw2.lt r tr htr
  have hb := lt_of_lt_of_le (hw1.lt a t' ht') hadded.fresh
  refine ⟨hw1, hw2, Nat.ne_of_gt hb, ?_, n, o', hadded.node, hadded.root, hinst, htree', ho'.lists⟩
  show 2 < st2.next + 2
  exact Nat.lt_add_of_pos_left (Nat.lt_of_le_of_lt (Nat.zero_le r) hlt)

/-- A list of one entry as a group. -/
theorem setEntries_holds {sel : Selector} {ref : Ref} {s : List ℕ} {avp : Avp} {found : Bool} {st0 : DmStore}
    (hw : HeapWf False nowhere env.schema st) (href : st.getElementRef env.schema sel = some (some ref))
    (hval : ref.value = .slot a i) (hobj : ref.elem.type = .object) (hstr : e.type = .str) (hne : s ≠ []) (htext : CText s)
    (havp : (avp.code = .unknown ∨ avp.code = .other avpString.toNat) ∧ avp.mem.take avp.size = octets s)
    (hdel : delTableBySelector env.schema st sel = some (found, st0))
    (h : setEntries (withWire env A L) sel e true (some .ok) 1 [avp] st0 = some (.ok, st')) : HoldsEntries st' a i [s] := by
  rw [setEntries_single] at h
  obtain ⟨⟨row, st2⟩, hadd, h⟩ := Option.bind_eq_some_iff.mp h
  cases row with
  | none => cases h
  | some r =>
    obtain ⟨hw1, hw2, hra, hfuel, n, o, hnode, hroot, hinst, htree, hlists⟩ := addInstance_only hw href hval hobj hdel hadd
    simp only [hnode, Option.bind_some] at h
    refine setEntry_holds (withWire env A L) hra hnode hroot hinst htree hlists hfuel ?_ h
    intro v hv
    rw [withWire_text hstr hne htext havp] at hv
    split_ifs at hv
    cases hv
    rfl

/-- An object that counts `cnt` for its rows takes fewer than `n` new ones, once these are gone. -/
def Fills (max cnt rows n : ℕ) : Prop := ∃ k < n, max ≤ countUp^[k] (countDown^[rows] cnt)

/-- Where the count is right, these are the lists that are longer than the maximum. -/
theorem fills_iff {max rows n : ℕ} (hrows : rows < 2 ^ 32) (hmax : max < 2 ^ 32) : Fills max rows rows n ↔ max < n := by
  have hdown (k : ℕ) (hk : k ≤ rows) : countDown^[k] rows = rows - k := by
    induction k with
    | zero => rfl
    | succ k ih =>
      rw [Function.iterate_succ_apply', ih (by omega)]
      unfold countDown
      omega
  have hup (k : ℕ) (hk : k < 2 ^ 32) : countUp^[k] 0 = k := by
    induction k with
    | zero => rfl
    | succ k ih =>
      rw [Function.iterate_succ_apply', ih (by omega)]
      exact Nat.mod_eq_of_lt hk
  unfold Fills
  rw [hdown rows le_rfl, Nat.sub_self]
  constructor
  · rintro ⟨k, hk, hfull⟩
    by_cases hsmall : k < 2 ^ 32
    · rw [hup k hsmall] at hfull
      omega
    · omega
  · exact fun hn => ⟨max, hn, by rw [hup max hmax]⟩

def sampleListTable : ℕ → DmTable
  | 0 => ⟨[sampleLeaf .str], [⟨true, .inst, 0⟩]⟩
  | 1 => ⟨[{ sampleLeaf .object with key := [115], flags := { sampleFlags with array := true }, max := 9 }], []⟩
  | _ => ⟨[], []⟩

/-- A data model of an array of strings. -/
def sampleListSchema : Schema where
  table := sampleListTable
  root := 1
  child_lt := by
    rintro (_ | _ | k)
    · decide
    · decide
    · exact fun e he => absurd he List.not_mem_nil
  index_head := by
    rintro (_ | _ | k)
    · decide
    · decide
    · exact fun e he => absurd he List.not_mem_nil
  set_fits := by
    rintro (_ | _ | k)
    · decide
    · decide
    · exact fun e he => absurd he List.not_mem_nil
  array_leaf := by
    rintro (_ | _ | k)
    · decide
    · decide
    · exact fun e he => absurd he List.not_mem_nil
  get_leaf := by
    rintro (_ | _ | k)
    · decide
    · decide
    · exact fun e he => absurd he List.not_mem_nil

def sampleListEnv : Env where
  schema := sampleListSchema
  conv := fun _ _ => .error .invalidType
  validate := fun _ _ _ _ _ => (1, 0)
  getHook := fun _ _ v => v
  undef := 0

def sampleListStore : DmStore where
  heap := Function.update (fun _ => none) 0 (some ⟨[],
    [⟨.inst (some ⟨InstTree.alloc [⟨true, .inst, 0⟩], none, none⟩), 0, Flags.zero, true⟩], none⟩)
  next := 1
  root := 0

def sampleListRef : Ref := ⟨1, { sampleLeaf .object with key := [115], flags := { sampleFlags with array := true }, max := 9 },
  .object, .table 0, .slot 0 0⟩

def sampleListServer : Env := withWire sampleListEnv ⟨fun _ => true, fun _ => 0⟩ sampleLibc

end Mand.Rpc
