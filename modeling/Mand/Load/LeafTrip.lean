import Mand.Load.Reload
import Mand.Load.Stack
import Mand.Notify.Walks

/-! # The element of a saved leaf

The events of an element that `serialize_element` wrote, from a state that is ready for it. One slot of the store is
written, and it holds the saved value again for the values that reload. -/
namespace Mand.Load
open Mand.Store Mand.Save Mand.Index Mand.Rpc Mand.Scan Mand.Notify Mand.Run Mand.Server
set_option autoImplicit false

/-! ## The events -/

/-- What stands in the opening tag. -/
def attributesOf (x : Element) : List (List ℕ × List ℕ) :=
  (x.notify.map fun level => (ascii "notify", level)).toList ++
    if x.escaped = true then [(ascii "encoding", ascii "escaped")] else []

/-- What the parser reports for an element, with its text in some pieces. -/
def elementEvents (x : Element) (chunks : List (List ℕ)) : List Event :=
  .start x.key (attributesOf x) :: (chunks.map .chars ++ [.stop x.key])

/-- The pieces of a text. An escaped one comes as a whole. -/
structure Cut (escaped : Bool) (text : List ℕ) (chunks : List (List ℕ)) : Prop where
  whole : chunks.flatten = text
  pieces : ∀ p ∈ chunks, p ≠ []
  one : escaped = true → chunks.length ≤ 1

/-- The notify level of the attributes. -/
def noticeOf (x : Element) : ℤ := x.notify.elim 0 (dmEnum2int notifyAttr)

theorem readAttributes_of (x : Element) :
    readAttributes (attributesOf x) ⟨0, 0, false, none⟩ = ⟨0, noticeOf x, x.escaped, none⟩ := by
  have hnotify (value : List ℕ) (atts : List (List ℕ × List ℕ)) (r : Attributes) :
      readAttributes ((ascii "notify", value) :: atts) r = readAttributes atts { r with ntfy := dmEnum2int notifyAttr value } := rfl
  have hescaped (r : Attributes) :
      readAttributes [(ascii "encoding", ascii "escaped")] r = { r with escaped := true } := by
    have hsame : sameText (ascii "escaped") (ascii "escaped") = true := by decide
    show { r with escaped := r.escaped || sameText (ascii "escaped") (ascii "escaped") } = _
    rw [hsame, Bool.or_true]
  unfold attributesOf noticeOf
  cases x.notify with
  | none =>
    cases hx : x.escaped with
    | false => rfl
    | true => exact hescaped _
  | some level =>
    rw [Option.map_some, Option.toList_some, List.singleton_append, hnotify]
    cases hx : x.escaped with
    | false => rfl
    | true => exact hescaped _

/-- The text that the pieces make. -/
theorem assembled_cut {escaped : Bool} {text : List ℕ} {chunks : List (List ℕ)} (hcut : Cut escaped text chunks)
    (hzero : ∀ c ∈ text, c ≠ 0) : assembled escaped chunks = textOf escaped text := by
  obtain ⟨rfl, hpieces, hone⟩ := hcut
  cases chunks with
  | nil => rfl
  | cons p chunks =>
    have hp := hpieces p List.mem_cons_self
    have hne : (p :: chunks).flatten ≠ [] := by simp [hp]
    rw [textOf, if_neg hne]
    cases hesc : escaped with
    | false =>
      have hall : ∀ q ∈ p :: chunks, ∀ c ∈ q, c ≠ 0 := fun q hq c hc => hzero c (List.mem_flatten_of_mem hq hc)
      rw [@assembled_pieces false id (p :: chunks) (by simp) hall (fun q hq t _ => charElement_plain (hall q hq) t)]
      simp
    | true =>
      have hnil : chunks = [] := by
        have := hone hesc
        simpa using this
      subst hnil
      simp [assembled, charElement]

/-! ## The state -/

/-- The state in use is that of a container, whose table is `b` of number `kw`. -/
structure Ready (s : Deser) (kw : ℕ) (b : Addr) : Prop where
  root : s.top.root = false
  valid : s.top.valid = true
  element : ∃ e, s.top.element = some e ∧ e.container = true ∧ e.table = kw
  value : ∃ p v, s.top.value = some p ∧ s.value p = some v ∧ v.content = .table (some b)

/-- The value with the notify level of the attributes. -/
def noticed (e : DmElement) (ntfy : ℤ) (v : DmValue) : DmValue :=
  if 0 ≤ ntfy then (setNotifySingleSlotElement e 0 ntfy.toNat v).2 else v

theorem noticed_keeps (e : DmElement) (ntfy : ℤ) (v : DmValue) :
    (noticed e ntfy v).content = v.content ∧ (v.parity = true → (noticed e ntfy v).parity = true) := by
  unfold noticed
  split_ifs
  · simp only [setNotifySingleSlotElement, if_true]
    split_ifs
    · exact ⟨rfl, fun hpar => hpar⟩
    · exact ⟨rfl, fun _ => rfl⟩
  · exact ⟨rfl, fun hpar => hpar⟩

/-- A slot that is written twice. -/
theorem setSlot_twice {st st' st'' : DmStore} {a i : ℕ} {v w : DmValue} (h : st.setSlot a i v = some st')
    (h' : st'.setSlot a i w = some st'') : st.setSlot a i w = some st'' := by
  obtain ⟨t, ht, hi, rfl⟩ := DmStore.setSlot_eq_some.mp h
  obtain ⟨t', ht', -, rfl⟩ := DmStore.setSlot_eq_some.mp h'
  rw [DmStore.put_heap_self] at ht'
  cases ht'
  refine DmStore.setSlot_eq_some.mpr ⟨t, ht, hi, ?_⟩
  simp [DmStore.put, VTable.setValue]

/-! ## One event after the other -/

section Element
variable {E : LoadEnv} {s : Deser} {kw b i : ℕ} {e : DmElement} {old : DmValue}

/-- The state of a leaf that is open. -/
def openLeaf (e : DmElement) (b i : ℕ) (escaped : Bool) (text : Option (List ℕ)) : XmlState :=
  { XmlState.zero with element := some e, value := some (.at (.slot b i)), valid := true, escaped := escaped, text := text }

theorem elementById_leaf (he : (E.schema.table kw).elems[i]? = some e) : elementById E.schema (i + 1) kw = some e := by
  rw [elementById, if_neg (Nat.succ_ne_zero i)]
  exact he

theorem enterElement_leaf (hleaf : e.container = false) (xid : ℤ) (st : DmStore) :
    enterElement E e b i xid st = some ((.slot b i, none, none), st) := by
  unfold enterElement
  split
  · next h =>
    rw [DmElement.container, h] at hleaf
    cases hleaf
  · next h =>
    rw [DmElement.container, h] at hleaf
    cases hleaf
  · rfl

theorem setNotifyAttribute_leaf {st : DmStore} (hslot : st.slot b i = some old) (ntfy : ℤ) :
    ∃ st', st.setSlot b i (noticed e ntfy old) = some st' ∧ setNotifyAttribute e (.slot b i) ntfy st = some st' := by
  obtain ⟨st', hst'⟩ := DmStore.setSlot_some hslot (noticed e ntfy old)
  refine ⟨st', hst', ?_⟩
  unfold setNotifyAttribute modifyValue
  unfold noticed at hst'
  split_ifs at hst' ⊢
  · have hvalue : st.value (.slot b i) = some old := hslot
    rw [hvalue]
    exact hst'
  · obtain ⟨t, ht, hi, rfl⟩ := DmStore.setSlot_eq_some.mp hst'
    rw [DmStore.slot_eq, ht, Option.bind_some, List.getElem?_eq_getElem hi, Option.some.injEq] at hslot
    -- nothing is written, which is the same as writing what is there
    have hsame : t.setValue i old = t := by
      rw [VTable.setValue, ← hslot, List.set_getElem_self]
    have hput : st.put b t = st := by
      unfold DmStore.put
      rw [← ht, Function.update_eq_self]
    rw [hsame, hput]

theorem startChild_leaf {parent : XmlState} {e0 : DmElement} {p : Place} {v : DmValue} {name : List ℕ} {a : Attributes}
    (helement : parent.element = some e0) (hcont : e0.container = true)
    (hname : elementIdByName E.schema name e0.table = i + 1) (herr : i + 1 ≠ dmErr)
    (he : (E.schema.table e0.table).elems[i]? = some e) (hleaf : e.container = false) (hp : parent.value = some p)
    (hv : s.value p = some v) (hb : v.content = .table (some b)) (hslot : s.store.slot b i = some old)
    (hpar : old.parity = true) :
    ∃ st, s.store.setSlot b i (noticed e a.ntfy old) = some st ∧ startChild E parent name a s =
      some { s.setTop { s.top with
        element := some e, value := some (.at (.slot b i)), valid := true, inst := none, node := none } with store := st } := by
  obtain ⟨st, hset, hnotify⟩ := @setNotifyAttribute_leaf b i e old s.store hslot a.ntfy
  have hassert : old.parityAssert = some () := by rw [DmValue.parityAssert, if_pos hpar]
  refine ⟨st, hset, ?_⟩
  simp only [startChild, helement, hcont, if_true, Option.bind_eq_bind, Option.bind_some, hname, if_neg herr,
    elementById_leaf he, hp, hv, hb, Nat.add_sub_cancel, hslot, hassert, enterElement_leaf hleaf, hnotify]

/-- The opening tag. -/
theorem startElement_leaf (hready : Ready s kw b) (he : (E.schema.table kw).elems[i]? = some e) (hleaf : e.container = false)
    {x : Element} (hname : elementIdByName E.schema x.key kw = i + 1) (herr : i + 1 ≠ dmErr)
    (hslot : s.store.slot b i = some old) (hpar : old.parity = true) :
    ∃ st, s.store.setSlot b i (noticed e (noticeOf x) old) = some st ∧
      startElement E x.key (attributesOf x) s =
        some ⟨Function.update s.stack (s.cur + 1) (openLeaf e b i x.escaped none), s.cur + 1, st, s.rootValue, s.cfgVersion⟩ := by
  obtain ⟨e0, helement, hcont, rfl⟩ := hready.element
  obtain ⟨p, v, hp, hv, hb⟩ := hready.value
  have hvalue : (s.push.withAttributes ⟨0, noticeOf x, x.escaped, none⟩).value p = some v := by
    cases p <;> exact hv
  obtain ⟨st, hset, hchild⟩ := @startChild_leaf E (s.push.withAttributes ⟨0, noticeOf x, x.escaped, none⟩) b i e old s.top e0
    p v x.key ⟨0, noticeOf x, x.escaped, none⟩ helement hcont hname herr he hleaf hp hvalue hb hslot hpar
  refine ⟨st, hset, ?_⟩
  rw [startElement, readAttributes_of, if_neg (by simp [hready.root]), if_pos hready.valid]
  refine hchild.trans ?_
  have hpush : s.push = ⟨Function.update s.stack (s.cur + 1) .zero, s.cur + 1, s.store, s.rootValue, s.cfgVersion⟩ := by
    rw [Deser.push, if_neg (by simp [hready.root])]
  rw [hpush]
  simp [Deser.withAttributes, Deser.setTop, Deser.top, openLeaf, XmlState.zero]

/-- Its text. -/
theorem run_chars (chunks : List (List ℕ)) (s : Deser) : run (handle E) s (chunks.map .chars) =
    some (s.setTop { s.top with text := chunks.foldl (charElement s.top.escaped) s.top.text }) := by
  induction chunks generalizing s with
  | nil =>
    have hsame : s.setTop s.top = s := by simp [Deser.setTop, Deser.top]
    exact congrArg some hsame.symm
  | cons chunk chunks ih =>
    show run (handle E) (charData chunk s) (chunks.map .chars) = _
    rw [ih]
    simp [charData, Deser.setTop, Deser.top]

/-- The closing tag. -/
theorem endElement_leaf {escaped : Bool} {text : Option (List ℕ)} {v w : DmValue} {res : DmResult} {st : DmStore}
    (hcur : s.cur ≠ 0) (htop : s.top = openLeaf e b i escaped text) (hslot : s.store.slot b i = some v)
    (hconv : dmString2value E.decode E.libc E.memcmp e text E.userConfig v = some (res, w))
    (hset : s.store.setSlot b i w = some st) : endElement E s = some ⟨s.stack, s.cur - 1, st, s.rootValue, s.cfgVersion⟩ := by
  have hvalue : s.value (.at (.slot b i)) = some v := hslot
  have hput : s.setValue (.at (.slot b i)) w = some { s with store := st } := by
    show (s.store.setSlot b i w).map _ = _
    rw [hset]
    rfl
  simp only [endElement, htop, openLeaf, finishValid, if_true, handleElement, XmlState.zero, Option.bind_eq_bind,
    Option.bind_some, hvalue, hconv, hput, finishRow, finishUpgrade, Option.isSome_none, Bool.false_eq_true, if_false, if_neg hcur]

/-- The events of a leaf write its slot, and the stack is as before. -/
theorem run_element {x : Element} (hready : Ready s kw b) (he : (E.schema.table kw).elems[i]? = some e)
    (hleaf : e.container = false) (hname : elementIdByName E.schema x.key kw = i + 1) (herr : i + 1 ≠ dmErr)
    (hslot : s.store.slot b i = some old) (hpar : old.parity = true) (chunks : List (List ℕ)) :
    ∃ res w st stack, dmString2value E.decode E.libc E.memcmp e (assembled x.escaped chunks) E.userConfig
        (noticed e (noticeOf x) old) = some (res, w) ∧ s.store.setSlot b i w = some st ∧ (∀ n ≤ s.cur, stack n = s.stack n) ∧
      run (handle E) s (elementEvents x chunks) = some ⟨stack, s.cur, st, s.rootValue, s.cfgVersion⟩ := by
  obtain ⟨st1, hset1, hstart⟩ := startElement_leaf hready he hleaf hname herr hslot hpar
  have hpar1 := (noticed_keeps e (noticeOf x) old).2 hpar
  obtain ⟨res, w, hconv⟩ : ∃ res w, dmString2value E.decode E.libc E.memcmp e (assembled x.escaped chunks) E.userConfig
      (noticed e (noticeOf x) old) = some (res, w) := by
    cases assembled x.escaped chunks with
    | none => exact ⟨_, _, rfl⟩
    | some text => exact ⟨_, _, if_neg (by simp [hpar1])⟩
  have hslot1 : st1.slot b i = some (noticed e (noticeOf x) old) := by
    rw [DmStore.slot_setSlot hset1, if_pos ⟨rfl, rfl⟩]
  obtain ⟨st, hset⟩ := DmStore.setSlot_some hslot1 w
  refine ⟨res, w, st, Function.update s.stack (s.cur + 1) (openLeaf e b i x.escaped (assembled x.escaped chunks)), hconv,
    setSlot_twice hset1 hset, ?_, ?_⟩
  · intro n hn
    exact Function.update_of_ne (by omega) _ _
  · show run (handle E) s ([.start x.key (attributesOf x)] ++ (chunks.map .chars ++ [.stop x.key])) = _
    have hfirst : run (handle E) s [.start x.key (attributesOf x)] =
        some ⟨Function.update s.stack (s.cur + 1) (openLeaf e b i x.escaped none), s.cur + 1, st1, s.rootValue, s.cfgVersion⟩ := by
      show (startElement E x.key (attributesOf x) s).bind some = _
      rw [hstart, Option.bind_some]
    have hlast (u : Deser) : run (handle E) u [.stop x.key] = endElement E u := Option.bind_fun_some (endElement E u)
    have htext : run (handle E) ⟨Function.update s.stack (s.cur + 1) (openLeaf e b i x.escaped none), s.cur + 1, st1,
        s.rootValue, s.cfgVersion⟩ (chunks.map .chars) =
        some ⟨Function.update s.stack (s.cur + 1) (openLeaf e b i x.escaped (assembled x.escaped chunks)), s.cur + 1, st1,
          s.rootValue, s.cfgVersion⟩ := by
      rw [run_chars]
      simp [Deser.top, Deser.setTop, openLeaf, assembled]
    rw [run_append, hfirst, Option.bind_some, run_append, htext, Option.bind_some, hlast]
    exact endElement_leaf (Nat.succ_ne_zero s.cur) (Function.update_self ..) hslot1 hconv hset

/-! ## The value -/

/-- A conversion leaves the value that the text brings. -/
theorem dmString2value_content {D : DecodeEnv} (hD : ∀ n, D.alloc.grants n = true) {L : Libc}
    {memcmp : List ℕ → List ℕ → ℤ} {str : Option (List ℕ)} {setUpdate : Bool} {v w : DmValue} {res : DmResult} {o : Value}
    (hv : v.content = .scalar o) (h : dmString2value D L memcmp e str setUpdate v = some (res, w)) :
    w.content = .scalar ((brought D L e str).getD o) ∧ w.notify = v.notify := by
  cases str with
  | none =>
    cases h
    exact ⟨hv, rfl⟩
  | some text =>
    have hleaf : leafValue (some (.scalar o)) = o := rfl
    simp only [dmString2value, hv, hleaf, putLeaf, convert_value hD] at h
    split_ifs at h <;> cases h <;> exact ⟨rfl, rfl⟩

theorem and_three (n : ℕ) : n &&& 3 = levelOf n 0 := by
  rw [levelOf, pow_zero, Nat.div_one]
  exact Nat.and_two_pow_sub_one_eq_mod n 2

/-- The notify level of a saved value is read again. -/
theorem notice_of_saved {S : Schema} {P : Texts} {v : DmValue} {x : Element} (hx : serializeElement S P e v = some x)
    (hhandled : handled e.type = true) (hlevel : levelOf v.notify 0 ≠ 3) : noticeOf x = levelOf v.notify 0 := by
  have hnotify : x.notify = if levelOf v.notify 0 = 0 then none else some (int2enum Save.notifyAttr (levelOf v.notify 0 : ℕ)) := by
    simp only [serializeElement, if_pos hhandled, Option.some.injEq, and_three] at hx
    rw [← hx]
  have hlt := levelOf_lt v.notify 0
  rw [noticeOf, hnotify]
  generalize levelOf v.notify 0 = n at hlevel hlt
  interval_cases n
  · rfl
  · decide
  · decide
  · exact absurd rfl hlevel

theorem levelOf_noticed {n : ℕ} (hvalid : notifyIsValid e n = true) (hn : n < 4) (old : DmValue) :
    levelOf (noticed e n old).notify 0 = n := by
  have hlevel : levelOf (setLevel old.notify 0 n) 0 = n := by
    rw [levelOf_setLevel, if_pos rfl, Nat.mod_eq_of_lt hn]
  rw [noticed, if_pos (Int.natCast_nonneg n), Int.toNat_natCast]
  simp only [setNotifySingleSlotElement, if_true, hlevel, hvalid, Bool.true_eq_false, if_false]

theorem handled_leaf (h : handled e.type = true) : e.container = false := by
  unfold handled at h
  unfold DmElement.container
  split at h <;> simp_all

end Element

/-! ## Samples -/

/-- Two letters for each octet. -/
def unpair : List ℕ → List ℕ
  | x :: y :: s => ((x - 65) * 16 + (y - 65)) :: unpair s
  | _ => []

def pairs (b : List ℕ) : List ℕ := b.flatMap fun o => [65 + o / 16, 65 + o % 16]

theorem unpair_pairs {b : List ℕ} (hb : Octets b) : unpair (pairs b) = b := by
  induction b with
  | nil => rfl
  | cons o b ih =>
    have ho := hb o List.mem_cons_self
    have hpair : unpair (pairs (o :: b)) = ((65 + o / 16 - 65) * 16 + (65 + o % 16 - 65)) :: unpair (pairs b) := rfl
    rw [hpair, ih fun c hc => hb c (List.mem_cons_of_mem _ hc), List.cons.injEq]
    exact ⟨by omega, rfl⟩

def tripLibc : Libc where
  gmtime := sampleLibc.gmtime
  timegm := sampleLibc.timegm
  fraction := sampleLibc.fraction
  ntop := fun _ b => pairs b
  pton := fun f s => if f = .inet then Inet.pton4 s else some (unpair s)

theorem tripLibc_readers : Readers tripLibc where
  calendar := ⟨sampleLibc_calendar.valid, sampleLibc_calendar.since, sampleLibc_calendar.until_epoch,
    sampleLibc_calendar.inverse, sampleLibc_calendar.digit⟩
  empty := sampleLibc_sound.empty
  inet := by
    intro b hlen hb
    obtain ⟨w, x, y, z, rfl⟩ : ∃ w x y z, b = [w, x, y, z] := by
      rcases b with _ | ⟨w, _ | ⟨x, _ | ⟨y, _ | ⟨z, _ | ⟨t, b⟩⟩⟩⟩⟩ <;> simp at hlen
      exact ⟨w, x, y, z, rfl⟩
    exact Inet.pton4_ntop4 (hb w (by simp)) (hb x (by simp)) (hb y (by simp)) (hb z (by simp))
  inet6 := fun b _ hb => congrArg some (unpair_pairs hb)
  inet6_plain := by
    intro b hlen hb
    obtain ⟨o, b, rfl⟩ := List.exists_cons_of_ne_nil (List.ne_nil_of_length_pos (by omega : 0 < b.length))
    refine ⟨List.cons_ne_nil _ _, fun c hc => ?_⟩
    obtain ⟨d, hd, hc⟩ := List.mem_flatMap.mp hc
    have := hb d hd
    simp only [List.mem_cons, List.not_mem_nil, or_false] at hc
    refine ⟨by omega, by omega, ?_⟩
    rw [isMarkup, decide_eq_false_iff_not]
    omega

def tripTable : ℕ → DmTable
  | 0 => ⟨[sampleLeaf .str], []⟩
  | _ => ⟨[], []⟩

def tripSchema : Schema where
  table := tripTable
  root := 0
  child_lt := by
    rintro (_ | k)
    · decide
    · exact fun e he => absurd he List.not_mem_nil
  index_head := by
    rintro (_ | k)
    · decide
    · exact fun e he => absurd he List.not_mem_nil
  set_fits := by
    rintro (_ | k)
    · decide
    · exact fun e he => absurd he List.not_mem_nil
  array_leaf := by
    rintro (_ | k)
    · decide
    · exact fun e he => absurd he List.not_mem_nil
  get_leaf := by
    rintro (_ | k)
    · decide
    · exact fun e he => absurd he List.not_mem_nil

theorem tripSchema_markupless : Markupless tripSchema where
  numbered := by
    rintro (_ | k)
    · decide
    · exact Nat.two_pow_pos 16
  keys := by
    rintro (_ | k)
    · simp [tripSchema, tripTable, sampleLeaf, Plain, isMarkup]
    · exact fun e he => absurd he List.not_mem_nil
  enums := by
    rintro (_ | k)
    · simp [tripSchema, tripTable, sampleLeaf]
    · exact fun e he => absurd he List.not_mem_nil

def tripLoad : LoadEnv := { sampleLoad with decode := { sampleDecode with schema := tripSchema }, libc := tripLibc }

def tripStore : DmStore :=
  ⟨Function.update (fun _ => none) 0 (some ⟨[], [⟨.scalar (.str none), 0, Flags.zero, true⟩], none⟩), 1, 0⟩

/-- The root is open. -/
def tripOpen : Deser := ⟨stateStk tripSchema, 1, tripStore, ⟨.table (some 0), 0, Flags.zero, true⟩, 0⟩

end Mand.Load
