import Mand.Interface.Live

/-! # What a refresh leaves alone

The answer about an interface is written to leaves of its table and below it; only the rows of addresses and
neighbors are deleted. -/
namespace Mand.Interface
open Mand.Index Mand.Store Mand.Server
set_option autoImplicit false

/-! ## The data model of interfaces -/

/-- The element with a number. -/
def field (S : Schema) (kw id : ℕ) : Option DmElement := if id = 0 then none else (S.table kw).elems[id - 1]?

/-- The numbers are those of leaves. -/
def Leaves (S : Schema) (kw : ℕ) (ids : List ℕ) : Prop :=
  ∀ id ∈ ids, ∃ e, field S kw id = some e ∧ e.container = false

/-- The number is that of an object with these leaves in its rows. -/
def RowLeaves (S : Schema) (kw id : ℕ) (ids : List ℕ) : Prop :=
  ∃ e, field S kw id = some e ∧ e.type = .object ∧ Leaves S e.table ids

/-- The number is that of a token with these leaves. -/
def TokenLeaves (S : Schema) (kw id : ℕ) (ids : List ℕ) : Prop :=
  ∃ e, field S kw id = some e ∧ e.type = .token ∧ Leaves S e.table ids

def IpFields.addressFields (F : IpFields) : List ℕ :=
  [F.addressIp, F.addressPrefixlength, F.addressOrigin] ++ F.addressStatus.toList

def IpFields.neighborFields (F : IpFields) : List ℕ :=
  [F.neighborIp, F.neighborLinklayeraddress, F.neighborOrigin] ++ F.neighborIsrouter.toList

/-- The tables of an address family. -/
def IpSchema (S : Schema) (kw : ℕ) (F : IpFields) : Prop :=
  ∃ e, field S kw F.ip = some e ∧ e.type = .token ∧ Leaves S e.table [F.forwarding, F.mtu] ∧
    RowLeaves S e.table F.address F.addressFields ∧ RowLeaves S e.table F.neighbor F.neighborFields

/-- The generated tables fit the numbers. An interface has a path of three ids, which is what the code
takes of it. -/
structure IfSchema (S : Schema) (F : IfFields) : Prop where
  depth : ∀ p, S.place p = some (F.table, false) → p.length = 3
  own : Leaves S F.table [F.lastread, F.lastchange, F.ifindex, F.adminstatus, F.operstatus, F.physaddress, F.speed]
  statistics : TokenLeaves S F.table F.statistics [F.discontinuitytime, F.inoctets, F.inunicastpkts, F.indiscards,
    F.inerrors, F.outoctets, F.outunicastpkts, F.outdiscards, F.outerrors]
  ipv4 : IpSchema S F.table F.ipv4
  ipv6 : IpSchema S F.table F.ipv6

variable {S : Schema} {F : IfFields} {st st' st'' : DmStore} {kw a i : ℕ} {p : Selector}

theorem field_eq {id : ℕ} {e : DmElement} (h : field S kw id = some e) :
    id ≠ 0 ∧ (S.table kw).elems[id - 1]? = some e := by
  unfold field at h
  split at h
  · cases h
  · rename_i hid
    exact ⟨hid, h⟩

/-! ## Writes -/

/-- What has a path of at most `n` ids stays, in a store that stays well-formed. -/
structure KeptTo (S : Schema) (n : ℕ) (st st' : DmStore) : Prop where
  wf : HeapWf False nowhere S st'
  keeps : Keeps (fun q => q.length ≤ n) st st'

theorem KeptTo.trans {n : ℕ} (h : KeptTo S n st st') (h' : KeptTo S n st' st'') : KeptTo S n st st'' :=
  ⟨h'.wf, h.keeps.trans h'.keeps⟩

theorem KeptTo.refl (n : ℕ) (hw : HeapWf False nowhere S st) : KeptTo S n st st := ⟨hw, Keeps.refl _ hw.lt⟩

theorem KeptTo.of_kept (n : ℕ) (h : Kept False S st st') : KeptTo S n st st' :=
  ⟨h.wf, h.keeps.mono fun _ _ => trivial⟩

/-- A short path still leads where it did. -/
theorem KeptTo.reached {n : ℕ} (h : KeptTo S n st st') (hr : Reached S st (.table a) kw p) (hp : p.length ≤ n) :
    Reached S st' (.table a) kw p := hr.keeps h.keeps fun _ hq => hq.length_le.trans hp

theorem leafAt_field {id : ℕ} {e : DmElement} (hr : Reached S st (.table a) kw p) (he : field S kw id = some e)
    (hleaf : e.container = false) : LeafAt S st a (id - 1) e := by
  cases hr with
  | table _ t _ ht hp => exact ⟨t, kw, ht, hp, (field_eq he).2, hleaf⟩

theorem setField_kept {id : ℕ} {ids : List ℕ} {v : Value} (hw : HeapWf False nowhere S st)
    (hr : Reached S st (.table a) kw p) (hl : Leaves S kw ids) (hid : id ∈ ids) (h : setById st a id v = some st') :
    Kept False S st st' := by
  obtain ⟨e, he, hleaf⟩ := hl id hid
  exact setById_kept hw (leafAt_field hr he hleaf) (fun hf => hf.elim) h

theorem setFields_kept {ids : List ℕ} (fields : List (ℕ × Value)) (st : DmStore) (hw : HeapWf False nowhere S st)
    (hr : Reached S st (.table a) kw p) (hl : Leaves S kw ids) (hids : ∀ x ∈ fields, x.1 ∈ ids)
    (h : setFields a fields st = some st') : Kept False S st st' := by
  induction fields generalizing st with
  | nil =>
    cases h
    exact Kept.refl hw
  | cons x fields ih =>
    simp only [setFields, Option.bind_eq_bind, Option.bind_eq_some_iff] at h
    obtain ⟨st1, h1, h⟩ := h
    have hk := setField_kept hw hr hl (hids x List.mem_cons_self) h1
    have hr1 := hr.keeps hk.keeps fun _ _ => trivial
    exact hk.trans (ih st1 hk.wf hr1 (fun y hy => hids y (List.mem_cons_of_mem _ hy)) h)

theorem setUnset_kept {id : ℕ} {ids : List ℕ} {now : ℤ} (hw : HeapWf False nowhere S st)
    (hr : Reached S st (.table a) kw p) (hl : Leaves S kw ids) (hid : id ∈ ids)
    (h : setUnset a id now st = some st') : Kept False S st st' := by
  simp only [setUnset, Option.bind_eq_bind, Option.bind_eq_some_iff] at h
  obtain ⟨n, -, h⟩ := h
  split at h
  · exact setField_kept hw hr hl hid h
  · cases h
    exact Kept.refl hw

/-- A token never lacks its table where a selector leads to it. -/
theorem addTable_eq {sel : Selector} {found : Bool} (hw : HeapWf False nowhere S st)
    (h : addTableBySelector S st sel = some (found, st')) : st' = st := by
  simp only [addTableBySelector, Option.bind_eq_bind, Option.bind_eq_some_iff] at h
  obtain ⟨r, href, h⟩ := h
  cases r with
  | none =>
    cases h
    rfl
  | some ref =>
    simp only [Option.bind_eq_some_iff] at h
    obtain ⟨v, hv, h⟩ := h
    split at h
    · rename_i htok hc
      cases hval : ref.value with
      | slot b j =>
        rw [hval] at hv
        obtain ⟨w, c, hslot, -, hwc⟩ := getElementRef_token href htok hval
        have hv : st.slot b j = some v := hv
        rw [hslot] at hv
        cases hv
        rw [hc] at hwc
        cases hwc
      | row b =>
        have hat := getElementRef_path hw href
        generalize S.path sel = q at hat
        cases hat with
        | slot _ _ _ _ _ _ _ _ _ => cases hval
        | row _ _ _ _ e _ _ _ _ _ _ hobj _ _ _ _ =>
          have htok : e.type = .token := htok
          rw [hobj] at htok
          cases htok
    · cases h
      rfl

/-! ## Rows that are written again -/

section Rows
variable {q : Selector} {k id : ℕ} {ids : List ℕ} {e : DmElement}

/-- Every beginning of a path in the schema is one. -/
theorem place_take (hq : S.place q = some (k, false)) (m : ℕ) : ∃ x, S.place (q.take m) = some x := by
  unfold Schema.place at hq ⊢
  have hsplit : q = q.take m ++ q.drop m := (List.take_append_drop m q).symm
  rw [hsplit, List.foldlM_append] at hq
  obtain ⟨x, hx, -⟩ := Option.bind_eq_some_iff.mp hq
  exact ⟨x, hx⟩

/-- A selector behind a table is read to its end. -/
theorem at_whole {ref : Ref} (hw : HeapWf False nowhere S st) (hq : S.place q = some (k, false))
    (hnz : ∀ x ∈ q ++ [id], x ≠ 0) (href : st.getElementRef S (q ++ [id]) = some (some ref)) :
    ref.At S st (q ++ [id]) := by
  obtain ⟨m, hat, -, -, hend⟩ := getElementRef_at hw href
  by_cases hm : q.length < m
  · rw [List.take_of_length_le (by simp; omega)] at hat
    exact hat
  · exfalso
    have hlt : m < (q ++ [id]).length := by simp; omega
    have htake : (q ++ [id]).take m = q.take m := List.take_append_of_le_length (by omega)
    rcases hend with hleaf | hzero
    · rw [htake] at hat
      obtain ⟨x, hx⟩ := place_take hq m
      generalize q.take m = q' at hat hx
      cases hat with
      | slot b j t kw e stType ht hp he =>
        have hleaf : e.container = false := hleaf
        rw [place_elem hp he, hleaf] at hx
        cases hx
      | row b j t kw e r id tr ht hp he hobj htr hid hrow hmem =>
        have hleaf : e.container = false := hleaf
        simp [DmElement.container, hobj] at hleaf
    · rw [List.drop_eq_getElem_cons hlt, List.headD_cons] at hzero
      exact hnz _ (List.getElem_mem hlt) hzero

theorem refreshRows_kept (hq : S.place q = some (k, false)) (hnz : ∀ x ∈ q ++ [id], x ≠ 0)
    (hlen : q.length < dmSelectorLen) (he : field S k id = some e) (hobj : e.type = .object)
    (hl : Leaves S e.table ids) (rows : List (List (ℕ × Value))) (hids : ∀ row ∈ rows, ∀ x ∈ row, x.1 ∈ ids)
    (num : ℕ) (hnum : num < 2 ^ 16) (st : DmStore) (hw : HeapWf False nowhere S st) {more : Bool}
    (h : refreshRows S (q ++ [id]) num rows st = some (more, st')) : Kept False S st st' := by
  induction rows generalizing num st with
  | nil =>
    cases h
    exact Kept.refl hw
  | cons row rest ih =>
    simp only [refreshRows, Option.bind_eq_bind, Option.bind_eq_some_iff, Prod.exists] at h
    obtain ⟨r, st1, hadd, h⟩ := h
    obtain ⟨hw1, hk1, hadded⟩ := addInstanceBySelector_spec (P := fun _ => True) hw hnum (fun hf => hf.elim) hadd
    cases r with
    | none =>
      cases h
      exact ⟨hw1, hk1⟩
    | some r =>
      simp only [Option.bind_eq_some_iff] at h
      obtain ⟨n, -, st2, h2, st3, h3, h⟩ := h
      obtain ⟨ref, b, j, t, kw, m, -, -, ht, hp, hej, hobj', hsel, hadd⟩ := hadded r rfl
      -- the row is one of the object
      have hsel' : t.id ++ [j + 1] = q ++ [id] := by
        rw [← hsel, selIds_eq_self (by simp; omega) hnz]
      obtain ⟨htq, hid⟩ := List.append_inj' hsel' rfl
      rw [htq, hq] at hp
      cases hp
      have hid : j + 1 = id := by simpa using hid
      have helem : ref.elem = e := by
        have he' := (field_eq he).2
        rw [← hid, Nat.add_sub_cancel, hej] at he'
        exact Option.some.inj he'
      obtain ⟨tr, htr, -, hptr, -⟩ := hadd.table hw1 hk1 ht (by rw [htq]; exact hq) hej hobj'
      rw [helem] at hptr
      have hk2 := setFields_kept row st1 hw1 (.table r tr e.table htr hptr) hl
        (hids row List.mem_cons_self) h2
      obtain ⟨hw3, hk3⟩ := updateInstanceNodeIndex_spec (P := fun _ => True) hk2.wf (fun _ _ _ _ _ hx => hx) h3
      have hrest := ih (fun y hy => hids y (List.mem_cons_of_mem _ hy)) ((n.inst + 1) % 2 ^ 16)
        (Nat.mod_lt _ (by decide)) st3 hw3 h
      exact Kept.trans ⟨hw1, hk1⟩ (hk2.trans (Kept.trans ⟨hw3, hk3⟩ hrest))

/-- What is not below the object stays. -/
theorem refreshObject_kept (hq : S.place q = some (k, false)) (hnz : ∀ x ∈ q, x ≠ 0)
    (hlen : q.length < dmSelectorLen) (hobj : RowLeaves S k id ids) (rows : Option (Entries (List (ℕ × Value))))
    (hids : ∀ x, rows = some x → ∀ row ∈ x.items, ∀ y ∈ row, y.1 ∈ ids) (hw : HeapWf False nowhere S st)
    {more : Bool} (h : refreshObject S (q ++ [id]) rows st = some (more, st')) : KeptTo S q.length st st' := by
  obtain ⟨e, he, hobj, hl⟩ := hobj
  have hnz' : ∀ x ∈ q ++ [id], x ≠ 0 := by
    intro x hx
    rcases List.mem_append.mp hx with hx | hx
    · exact hnz x hx
    · rw [List.mem_singleton.mp hx]
      exact (field_eq he).1
  simp only [refreshObject, Option.bind_eq_bind, Option.bind_eq_some_iff, Prod.exists] at h
  obtain ⟨found, st1, hdel, b, st2, hadd, h⟩ := h
  obtain ⟨hw1, hcases⟩ := delTableBySelector_spec hw hdel
  have hk1 : KeptTo S q.length st st1 := by
    rcases hcases with ⟨-, rfl⟩ | ⟨-, ref, q', href, hat, hd⟩
    · exact KeptTo.refl _ hw
    · refine ⟨hw1, hd.keeps.mono ?_⟩
      intro p' hp' hpre
      rw [hat.unique (at_whole hw hq hnz' href)] at hpre
      have hle := hpre.length_le
      simp only [List.length_append, List.length_singleton] at hle
      omega
  cases addTable_eq hw1 hadd
  cases rows with
  | none =>
    cases h
    exact hk1
  | some x =>
    simp only [Option.bind_eq_some_iff, Prod.exists, Option.some.injEq, Prod.mk.injEq] at h
    obtain ⟨more', st3, h3, -, rfl⟩ := h
    have hk3 := refreshRows_kept hq hnz' hlen he hobj hl x.items (hids x rfl) 1 (by decide) st1 hw1 h3
    exact hk1.trans (KeptTo.of_kept _ hk3)

end Rows

/-! ## Interfaces -/

/-- Ids up to the first zero. -/
theorem selIds_zero {q r : Selector} (hq : 0 ∉ q) (hlen : q.length < dmSelectorLen) : selIds (q ++ 0 :: r) = q := by
  have htake : (q ++ 0 :: r).take q.length = q := by simp
  rw [selIds_of_take hlen.le ?_ (by simp), htake]
  rw [htake]
  intro x hx hx0
  exact hq (hx0 ▸ hx)

/-- No id of an interface is zero when a selector through it leads to a token. -/
theorem token_nonzero {ref : Ref} {id : ℕ} (hw : HeapWf False nowhere S st) (hl : Leads S st kw a p)
    (hlen : p.length < dmSelectorLen) (href : st.getElementRef S (p ++ [id]) = some (some ref))
    (htok : ref.elem.type = .token) : 0 ∉ p := by
  intro hz
  obtain ⟨q, r, rfl, hq⟩ := List.eq_append_cons_of_mem hz
  have hat := getElementRef_selIds hw href (by simp [DmElement.container, htok])
  rw [List.append_assoc, List.cons_append, selIds_zero hq (by simp at hlen; omega)] at hat
  obtain ⟨k, hk⟩ := hl.zero rfl
  cases hat with
  | slot b j t kw e stType ht hp he =>
    rw [place_token hp he htok] at hk
    cases hk
  | row b j t kw e r id tr ht hp he hobj htr hid hrow hmem =>
    have htok : e.type = .token := htok
    rw [hobj] at htok
    cases htok

/-- The table of a token of an interface. -/
theorem tableBySelector_spec {id : ℕ} {e : DmElement} {b : Addr} (hw : HeapWf False nowhere S st)
    (hl : Leads S st kw a p) (hlen : p.length < dmSelectorLen) (he : field S kw id = some e)
    (h : tableBySelector S st (p ++ [id]) = some (some b)) :
    (∀ x ∈ p ++ [id], x ≠ 0) ∧ S.place (p ++ [id]) = some (e.table, false) ∧
      Reached S st (.table b) e.table (p ++ [id]) := by
  simp only [tableBySelector, Option.bind_eq_bind, Option.bind_eq_some_iff] at h
  obtain ⟨r, href, h⟩ := h
  cases r with
  | none => cases h
  | some ref =>
    simp only [Option.bind_eq_some_iff] at h
    obtain ⟨v, hv, u, hpar, h⟩ := h
    split at h
    · rename_i htok
      have hz := token_nonzero hw hl hlen href htok
      have hnz : ∀ x ∈ p ++ [id], x ≠ 0 := by
        intro x hx hx0
        rcases List.mem_append.mp hx with hx | hx
        · exact hz (hx0 ▸ hx)
        · rw [List.mem_singleton.mp hx] at hx0
          exact (field_eq he).1 hx0
      split at h
      · rename_i x hc
        cases h
        have hat := at_whole hw hl.place hnz href
        obtain ⟨hid, hej⟩ := field_eq he
        generalize hq : p ++ [id] = q at hat
        cases hat with
        | row b j t kw e r id tr ht hp he hobj htr hid hrow hmem =>
          have htok : e.type = .token := htok
          rw [hobj] at htok
          cases htok
        | slot c j t kw' e' stType ht hp he' =>
          obtain ⟨rfl, hid⟩ := List.append_inj' hq rfl
          have hid : id = j + 1 := by simpa using hid
          rw [hl.place] at hp
          cases hp
          rw [hid, Nat.add_sub_cancel, he'] at hej
          cases hej
          obtain ⟨t0, ht0, hvt⟩ := DmStore.slot_eq_some.mp hv
          rw [ht] at ht0
          cases ht0
          obtain ⟨k, hk⟩ := hw.table c t ht
          obtain ⟨tb, htb, hbid⟩ := (hk.slot j v hvt fun hx => hx).token b hc ((parityAssert_eq v u).mp hpar)
          have hplace := place_token hl.place he' htok
          refine ⟨by rw [← hid]; exact hnz, hplace, ?_⟩
          rw [← hbid] at hplace ⊢
          exact .table b tb _ htb hplace
      · cases h
    · cases h

theorem addressRow_fields (G : IpFields) (x : IpAddress) : ∀ y ∈ G.addressRow x, y.1 ∈ G.addressFields := by
  intro y hy
  simp only [IpFields.addressRow, IpFields.addressFields, List.mem_append, List.mem_cons, List.not_mem_nil, or_false,
    List.mem_map] at hy ⊢
  rcases hy with (rfl | rfl | rfl) | ⟨id, hid, rfl⟩ <;> simp_all

theorem neighborRow_fields (G : IpFields) (x : IpNeighbor) : ∀ y ∈ G.neighborRow x, y.1 ∈ G.neighborFields := by
  intro y hy
  simp only [IpFields.neighborRow, IpFields.neighborFields, List.mem_append, List.mem_cons, List.not_mem_nil, or_false,
    List.mem_map] at hy ⊢
  rcases hy with (rfl | rfl | rfl) | ⟨id, hid, rfl⟩ <;> simp_all

/-- The rows of mapped entries. -/
theorem entries_fields {α : Type} {f : α → List (ℕ × Value)} {ids : List ℕ} (hf : ∀ x, ∀ y ∈ f x, y.1 ∈ ids)
    (l : Option (Entries α)) (x : Entries (List (ℕ × Value))) (hx : l.map (Entries.map f) = some x) :
    ∀ row ∈ x.items, ∀ y ∈ row, y.1 ∈ ids := by
  obtain ⟨z, -, rfl⟩ := Option.map_eq_some_iff.mp hx
  intro row hrow
  obtain ⟨w, -, rfl⟩ := List.mem_map.mp hrow
  exact hf w

theorem refreshIp_kept {G : IpFields} {x : Option IpAnswer} {more : Bool} (hw : HeapWf False nowhere S st)
    (hl : Leads S st kw a p) (hlen : p.length = 3) (hG : IpSchema S kw G)
    (h : refreshIp S G p x st = some (more, st')) : KeptTo S 3 st st' := by
  obtain ⟨e, he, -, hleaves, haddr, hneigh⟩ := hG
  have hsel : p.take 3 = p := List.take_of_length_le hlen.le
  have hp : p.length < dmSelectorLen := by rw [hlen]; decide
  simp only [refreshIp, Option.bind_eq_bind, Option.bind_eq_some_iff, hsel] at h
  obtain ⟨b, htbl, h⟩ := h
  split at h
  · rename_i iftbl x
    obtain ⟨hnz, hplace, hreach⟩ := tableBySelector_spec hw hl hp he htbl
    have hq : (p ++ [G.ip]).length = 4 := by simp [hlen]
    have hlen4 : (p ++ [G.ip]).length < dmSelectorLen := by rw [hq]; decide
    simp only [Option.bind_eq_some_iff, Prod.exists] at h
    obtain ⟨st1, h1, more1, st2, h2, h⟩ := h
    have hk1 := setFields_kept _ st hw hreach hleaves (by simp) h1
    have hk2 := refreshObject_kept hplace hnz hlen4 haddr _ (entries_fields (addressRow_fields G) _) hk1.wf h2
    have hk12 : KeptTo S 3 st st2 := by
      refine KeptTo.trans (KeptTo.of_kept _ hk1) ⟨hk2.wf, hk2.keeps.mono ?_⟩
      intro q hq3
      show q.length ≤ (p ++ [G.ip]).length
      omega
    split at h
    · simp only [Option.bind_eq_some_iff, Prod.exists, Option.some.injEq, Prod.mk.injEq] at h
      obtain ⟨more2, st3, h3, -, rfl⟩ := h
      have hk3 := refreshObject_kept hplace hnz hlen4 hneigh _ (entries_fields (neighborRow_fields G) _) hk2.wf h3
      refine hk12.trans ⟨hk3.wf, hk3.keeps.mono ?_⟩
      intro q hq3
      show q.length ≤ (p ++ [G.ip]).length
      omega
    · cases h
      exact hk12
  · cases h
    exact KeptTo.refl _ hw

theorem KeptTo.leads {n : ℕ} (h : KeptTo S n st st') (hl : Leads S st kw a p) (hp : p.length ≤ n) :
    Leads S st' kw a p := hl.keeps h.keeps fun _ hq => hq.length_le.trans hp

/-- The table of the statistics. -/
theorem tableById_spec {id : ℕ} {ids : List ℕ} {b : Addr} (hw : HeapWf False nowhere S st) (hl : Leads S st kw a p)
    (hids : TokenLeaves S kw id ids) (h : tableById st a id = some b) :
    ∃ k q, Reached S st (.table b) k q ∧ Leaves S k ids := by
  obtain ⟨e, he, htok, hleaves⟩ := hids
  simp only [tableById, Option.bind_eq_bind, Option.bind_eq_some_iff] at h
  obtain ⟨v, hv, u, hpar, h⟩ := h
  split at h
  · rename_i x hc
    cases h
    exact ⟨e.table, _, (hl.enterToken hw (field_eq he).2 htok hv ((parityAssert_eq v u).mp hpar) hc).reached, hleaves⟩
  · cases h

/-- An answer is written, and what has a path of at most three ids stays. -/
theorem updateInterfaceState_kept {now : ℤ} {x : Option IfAnswer} (hF : IfSchema S F)
    (hw : HeapWf False nowhere S st) (hl : Leads S st F.table a p)
    (h : updateInterfaceState S F now a x st = some st') : KeptTo S 3 st st' := by
  have hlen := hF.depth p hl.place
  cases x with
  | none =>
    cases h
    exact KeptTo.refl _ hw
  | some x =>
    simp only [updateInterfaceState, Option.bind_eq_bind, Option.bind_eq_some_iff, Prod.exists] at h
    obtain ⟨st1, h1, st2, h2, stats, hstats, st3, h3, st4, h4, t, ht, more, st5, h5, h⟩ := h
    have hk1 := setUnset_kept hw hl.reached hF.own (by simp) h1
    have hl1 := hl.keeps hk1.keeps fun _ _ => trivial
    have hk2 := setFields_kept _ st1 hk1.wf hl1.reached hF.own (by simp) h2
    have hl2 := hl1.keeps hk2.keeps fun _ _ => trivial
    obtain ⟨k, q, hreach, hleaves⟩ := tableById_spec hk2.wf hl2 hF.statistics hstats
    have hk3 := setUnset_kept hk2.wf hreach hleaves (by simp) h3
    have hreach3 := hreach.keeps hk3.keeps fun _ _ => trivial
    have hk4 := setFields_kept _ st3 hk3.wf hreach3 hleaves (by simp) h4
    have hl4 := (hl2.keeps hk3.keeps fun _ _ => trivial).keeps hk4.keeps fun _ _ => trivial
    have hk14 : KeptTo S 3 st st4 := KeptTo.of_kept 3 (hk1.trans (hk2.trans (hk3.trans hk4)))
    obtain ⟨t', ht', hid⟩ := hl4.heap
    rw [ht] at ht'
    cases ht'
    rw [hid] at h5 h
    have hk5 := refreshIp_kept hk4.wf hl4 hlen hF.ipv4 h5
    have hl5 := hk5.leads hl4 hlen.le
    split at h
    · simp only [Option.bind_eq_some_iff, Prod.exists, Option.some.injEq] at h
      obtain ⟨more6, st6, h6, rfl⟩ := h
      exact (hk14.trans hk5).trans (refreshIp_kept hk5.wf hl5 hlen hF.ipv6 h6)
    · cases h
      exact hk14.trans hk5

theorem finishGet_kept {began : ℤ} (hF : IfSchema S F) (hw : HeapWf False nowhere S st)
    (hl : Leads S st F.table a p) (h : finishGet F began a i st = some st') : Kept False S st st' := by
  simp only [finishGet, Option.bind_eq_bind, Option.bind_eq_some_iff, Option.some.injEq] at h
  obtain ⟨st1, h1, v, -, rfl⟩ := h
  exact setField_kept hw hl.reached hF.own (by simp) h1

end Mand.Interface
