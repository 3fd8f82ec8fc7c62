import Mand.Server.Keeping
import Mand.Signal.Project
import Mand.Store.Marks

/-! # What a write leaves and reports

A value that is written to a leaf, by a set outside a configure session or by one round of a commit: what
the leaves hold afterwards, and the calls of `notify_sel` and `action_sel`. -/
namespace Mand.Signal
open Mand.Store Mand.Index Mand.Msg Mand.Server Mand.Notify Mand.Action
set_option autoImplicit false

variable {st st' : DmStore} {a i : ℕ} {e : DmElement} {v : Value} {val : DmValue} {undef : ℕ}

/-! ## What is written -/

/-- The value that a leaf gets: the setter of a netmask keeps no empty string. -/
def written (e : DmElement) (v : Value) : Value :=
  match e.set, v with
  | some (.addressNetmask _), .str s => stringValue s
  | _, v => v

/-- The mask that `update_address_netmask` prints. -/
def netmaskText (undef length : ℕ) : Value :=
  .str (some (Inet.ntop4 (Inet.ofHost (if length = 0 then undef
    else if length < 32 then (2 ^ 32 - 1) * 2 ^ (32 - length) % 2 ^ 32 else 2 ^ 32 - 1))))

/-- The length that `update_address_prefixlength` finds. -/
def prefixLength (undef : ℕ) (s : List ℕ) : Value :=
  .uint (33 - Inet.ffs (((Inet.pton4 s).map Inet.toHost).getD undef))

/-- What a setter writes besides its own slot `i` of table `a`: the number of the field and the value. -/
def derivedWrite (undef : ℕ) (st : DmStore) (a i : ℕ) (e : DmElement) (v : Value) : Option (ℕ × Value) :=
  match e.set with
  | some (.addressPrefixlength read update) =>
    match if read - 1 = i then some (.scalar v) else (st.slot a (read - 1)).map DmValue.content with
    | some (.scalar (.uint length)) => some (update, netmaskText undef length)
    | _ => none
  | some (.addressNetmask update) =>
    match v with
    | .str (some s) => some (update, prefixLength undef s)
    | _ => none
  | _ => none

/-- The field that a setter updates. -/
def SetHook.updates : SetHook → Option ℕ
  | .clockCurrentdatetime => none
  | .addressPrefixlength _ update => some update
  | .addressNetmask update => some update

/-- A setter updates another field than its own. -/
def SiblingSetters (S : Schema) : Prop :=
  ∀ (kw i : ℕ) (e : DmElement), (S.table kw).elems[i]? = some e →
    ∀ update, e.set.bind SetHook.updates = some update → update - 1 ≠ i

/-- A value that is written over `old`. -/
def overwritten (e : DmElement) (old val : DmValue) (v : Value) : DmValue :=
  if e.wholesale = true then val else { old with content := .scalar (written e v) }

/-- The slots that a write does not touch. -/
def Untouched (undef : ℕ) (st : DmStore) (a i : ℕ) (e : DmElement) (v : Value) (b j : ℕ) : Prop :=
  ¬(b = a ∧ j = i) ∧ ∀ id y, derivedWrite undef st a i e v = some (id, y) → ¬(b = a ∧ j = id - 1)

/-! ## Indexes -/

theorem tableId_setSlot {b j : ℕ} {w : DmValue} (h : st.setSlot b j w = some st') (c : Addr) :
    tableId st' c = tableId st c := by
  obtain ⟨t, ht, -, rfl⟩ := DmStore.setSlot_eq_some.mp h
  unfold tableId
  rw [DmStore.put_heap]
  by_cases hc : c = b
  · rw [if_pos hc, hc, ht]
    rfl
  · rw [if_neg hc]

/-- An index is part of an object. -/
theorem reindex_cases {id : ℕ} (h : reindex st e id a = some st') : st' = st ∨
    ∃ b j w o o', st.slot b j = some w ∧ w.content = .inst (some o) ∧
      st.setSlot b j { w with content := .inst (some o') } = some st' := by
  unfold reindex at h
  split at h
  · simp only [updateIndex, Option.bind_eq_bind, Option.bind_eq_some_iff] at h
    obtain ⟨n, -, h⟩ := h
    split at h
    · cases h
      exact .inl rfl
    · rename_i b j _
      simp only [Option.bind_eq_some_iff] at h
      obtain ⟨x, htree, o, hx, tree, -, h⟩ := h
      cases hx
      obtain ⟨w, hw, hc⟩ := (tree_eq_some st b j _).mp htree
      obtain ⟨w', hw', hset⟩ := setTree_eq_some h
      rw [hw] at hw'
      cases hw'
      exact .inr ⟨b, j, w, o, _, hw, hc, hset⟩
  · cases h
    exact .inl rfl

theorem reindex_leaf {id b j : ℕ} {w : DmValue} {x : Value} (h : reindex st e id a = some st')
    (hw : st.slot b j = some w) (hx : w.content = .scalar x) : st'.slot b j = some w := by
  rcases reindex_cases h with rfl | ⟨c, k, u, o, o', hu, hc, hset⟩
  · exact hw
  · rw [DmStore.slot_setSlot hset]
    by_cases heq : b = c ∧ j = k
    · rw [heq.1, heq.2, hu] at hw
      cases hw
      rw [hc] at hx
      cases hx
    · rw [if_neg heq]
      exact hw

theorem reindex_tableId {id : ℕ} (h : reindex st e id a = some st') (c : Addr) :
    tableId st' c = tableId st c := by
  rcases reindex_cases h with rfl | ⟨b, k, u, o, o', -, -, hset⟩
  · rfl
  · exact tableId_setSlot hset c

/-! ## Setters -/

theorem slot_of_setSlot {b j : ℕ} {w : DmValue} (h : st.setSlot b j w = some st') : ∃ old, st.slot b j = some old := by
  obtain ⟨t, ht, hj, -⟩ := DmStore.setSlot_eq_some.mp h
  exact ⟨t.values[j], DmStore.slot_eq_some.mpr ⟨t, ht, List.getElem?_eq_getElem hj⟩⟩

theorem updateAddressNetmask_eq {read update : ℕ} (h : updateAddressNetmask undef st a read update = some st') :
    ∃ length, (st.slot a (read - 1)).map DmValue.content = some (.scalar (.uint length)) ∧
      setById st a update (netmaskText undef length) = some st' := by
  simp only [updateAddressNetmask, Option.bind_eq_bind, Option.bind_eq_some_iff] at h
  obtain ⟨w, hw, _, -, h⟩ := h
  split at h
  · rename_i length hc
    exact ⟨length, by rw [hw, Option.map_some, hc], h⟩
  · cases h

theorem derivedField_updates {id : ℕ} (h : derivedField e val = some id) : e.set.bind SetHook.updates = some id := by
  unfold derivedField at h
  cases hset : e.set with
  | none =>
    rw [hset] at h
    cases h
  | some hook =>
    rw [hset] at h
    cases hook with
    | clockCurrentdatetime => cases h
    | addressPrefixlength read update => exact h
    | addressNetmask update =>
      simp only [Option.bind_some, SetHook.derived] at h
      split at h
      · exact h
      · cases h

/-- A setter has written its own slot, and then the other field. -/
structure Assigned (undef : ℕ) (st st' : DmStore) (a i : ℕ) (e : DmElement) (val : DmValue) (v : Value) :
    Prop where
  own : ∃ old, st.slot a i = some old ∧ st'.slot a i = some (overwritten e old val v)
  field : derivedField e val = (derivedWrite undef st a i e v).map Prod.fst
  derived : ∀ id y, derivedWrite undef st a i e v = some (id, y) → ∃ u, st.slot a (id - 1) = some u ∧
    st'.slot a (id - 1) = some { markUpdated u with content := .scalar y }
  other : ∀ b j, Untouched undef st a i e v b j → st'.slot b j = st.slot b j
  ids : ∀ c, tableId st' c = tableId st c

/-- The own slot alone. -/
theorem Assigned.alone {old : DmValue} (hold : st.slot a i = some old)
    (hset : st.setSlot a i (overwritten e old val v) = some st') (hfield : derivedField e val = none)
    (hnone : derivedWrite undef st a i e v = none) : Assigned undef st st' a i e val v where
  own := ⟨old, hold, by rw [DmStore.slot_setSlot hset, if_pos ⟨rfl, rfl⟩]⟩
  field := by rw [hfield, hnone]; rfl
  derived := by
    intro id y h
    rw [hnone] at h
    cases h
  other := by
    intro b j hu
    rw [DmStore.slot_setSlot hset, if_neg hu.1]
  ids := tableId_setSlot hset

/-- The own slot and another one. -/
theorem Assigned.both {old : DmValue} {st1 : DmStore} {id : ℕ} {y : Value} (hold : st.slot a i = some old)
    (hset : st.setSlot a i (overwritten e old val v) = some st1) (hby : setById st1 a id y = some st')
    (hne : id - 1 ≠ i) (hfield : derivedField e val = some id)
    (hsome : derivedWrite undef st a i e v = some (id, y)) : Assigned undef st st' a i e val v := by
  simp only [setById, Option.bind_eq_bind, Option.bind_eq_some_iff] at hby
  obtain ⟨u, hu, _, -, hby⟩ := hby
  have hu0 : st.slot a (id - 1) = some u := by
    rw [DmStore.slot_setSlot hset, if_neg fun h => hne h.2] at hu
    exact hu
  refine ⟨⟨old, hold, ?_⟩, ?_, ?_, ?_, ?_⟩
  · rw [DmStore.slot_setSlot hby, if_neg fun h => hne h.2.symm, DmStore.slot_setSlot hset, if_pos ⟨rfl, rfl⟩]
  · rw [hfield, hsome]
    rfl
  · intro id' y' h
    rw [hsome] at h
    cases h
    exact ⟨u, hu0, by rw [DmStore.slot_setSlot hby, if_pos ⟨rfl, rfl⟩]⟩
  · intro b j hu'
    rw [DmStore.slot_setSlot hby, if_neg (hu'.2 id y hsome), DmStore.slot_setSlot hset, if_neg hu'.1]
  · intro c
    rw [tableId_setSlot hby, tableId_setSlot hset]

/-- The setter of a leaf, or none. -/
theorem assign_assigned (hval : val.content = .scalar v)
    (hsib : ∀ update, e.set.bind SetHook.updates = some update → update - 1 ≠ i)
    (h : Store.assign undef st e a (.slot a i) val = some (.ok, st')) : Assigned undef st st' a i e val v := by
  unfold Store.assign at h
  cases hset : e.set with
  | none =>
    rw [hset] at h
    simp only [Option.bind_eq_bind, Option.bind_eq_some_iff, Option.some.injEq, Prod.mk.injEq] at h
    obtain ⟨old, hold, st1, h1, -, rfl⟩ := h
    refine Assigned.alone hold ?_ (by simp [derivedField, hset]) (by simp [derivedWrite, hset])
    have hw : overwritten e old val v = { old with content := val.content } := by
      simp [overwritten, DmElement.wholesale, written, hset, hval]
    rw [hw]
    exact h1
  | some hook =>
    rw [hset] at h hsib
    cases hook with
    | clockCurrentdatetime =>
      simp only [SetHook.run, Option.bind_eq_bind, Option.bind_eq_some_iff, Option.some.injEq, Prod.mk.injEq] at h
      obtain ⟨st1, h1, -, rfl⟩ := h
      obtain ⟨old, hold⟩ := slot_of_setSlot h1
      refine Assigned.alone hold ?_ (by simp [derivedField, SetHook.derived, hset]) (by simp [derivedWrite, hset])
      have hw : overwritten e old val v = val := by simp [overwritten, DmElement.wholesale, SetHook.wholesale, hset]
      rw [hw]
      exact h1
    | addressPrefixlength read update =>
      simp only [SetHook.run, Option.bind_eq_bind, Option.bind_eq_some_iff, Option.some.injEq, Prod.mk.injEq] at h
      obtain ⟨st1, h1, st2, h2, -, rfl⟩ := h
      obtain ⟨old, hold⟩ := slot_of_setSlot h1
      obtain ⟨length, hlen, h2⟩ := updateAddressNetmask_eq h2
      have hw : overwritten e old val v = val := by simp [overwritten, DmElement.wholesale, SetHook.wholesale, hset]
      refine Assigned.both hold (by rw [hw]; exact h1) h2 (hsib update rfl)
        (by simp [derivedField, SetHook.derived, hset]) ?_
      have hread : (if read - 1 = i then some (.scalar v) else (st.slot a (read - 1)).map DmValue.content) =
          some (.scalar (.uint length)) := by
        rw [DmStore.slot_setSlot h1] at hlen
        by_cases hi : read - 1 = i
        · rw [if_pos ⟨rfl, hi⟩, Option.map_some, hval] at hlen
          rw [if_pos hi, hlen]
        · rw [if_neg fun hh => hi hh.2] at hlen
          rw [if_neg hi, hlen]
      simp only [derivedWrite, hset, hread]
    | addressNetmask update =>
      simp only [SetHook.run, hval] at h
      cases v with
      | str s =>
        simp only [Option.bind_eq_bind, Option.bind_eq_some_iff, Option.some.injEq, Prod.mk.injEq] at h
        obtain ⟨old, hold, _, -, st1, h1, st2, h2, -, rfl⟩ := h
        simp only [updateAddressPrefixlength, Option.bind_eq_bind, Option.bind_eq_some_iff] at h2
        obtain ⟨text, rfl, h2⟩ := h2
        have hw : overwritten e old val (.str (some text)) =
            { old with content := .scalar (stringValue (some text)) } := by
          simp [overwritten, DmElement.wholesale, SetHook.wholesale, written, hset]
        refine Assigned.both hold (by rw [hw]; exact h1) h2 (hsib update rfl) ?_ (by simp only [derivedWrite, hset]; rfl)
        simp [derivedField, SetHook.derived, hset, hval]
      | _ => simp at h

/-- The setter of a netmask refuses what is no string. -/
theorem assign_ok {r : DmResult} (hval : val.content = .scalar v)
    (hstr : ∀ update, e.set = some (.addressNetmask update) → ∃ s, v = .str s)
    (h : Store.assign undef st e a (.slot a i) val = some (r, st')) : r = .ok := by
  unfold Store.assign at h
  cases hset : e.set with
  | none =>
    rw [hset] at h
    simp only [Option.bind_eq_bind, Option.bind_eq_some_iff, Option.some.injEq, Prod.mk.injEq] at h
    obtain ⟨old, -, st1, -, rfl, -⟩ := h
    rfl
  | some hook =>
    rw [hset] at h
    cases hook with
    | clockCurrentdatetime =>
      simp only [SetHook.run, Option.bind_eq_bind, Option.bind_eq_some_iff, Option.some.injEq, Prod.mk.injEq] at h
      obtain ⟨st1, -, rfl, -⟩ := h
      rfl
    | addressPrefixlength read update =>
      simp only [SetHook.run, Option.bind_eq_bind, Option.bind_eq_some_iff, Option.some.injEq, Prod.mk.injEq] at h
      obtain ⟨st1, -, st2, -, rfl, -⟩ := h
      rfl
    | addressNetmask update =>
      obtain ⟨s, rfl⟩ := hstr update hset
      simp only [SetHook.run, hval, Option.bind_eq_bind, Option.bind_eq_some_iff, Option.some.injEq,
        Prod.mk.injEq] at h
      obtain ⟨old, -, _, -, st1, -, st2, -, rfl, -⟩ := h
      rfl

/-! ## Writes -/

/-- What a table knows as its path, followed by the number of a slot, is the path of the slot. -/
theorem selcat_path {full : Prop} {S : Schema} {sel : Selector} {ref : Ref} (hw : HeapWf full nowhere S st)
    (href : st.getElementRef S sel = some (some ref)) (hbase : ref.base = .table a) :
    dmSelcat (tableId st a) ref.id = S.path sel := by
  obtain ⟨hlen, hnz, -⟩ := getElementRef_path_fits hw href
  have hat := getElementRef_path hw href
  generalize S.path sel = q at hat hlen hnz
  cases hat with
  | slot b j t kw e stType ht hp he =>
    cases hbase
    have hid : tableId st a = t.id := by
      rw [tableId, ht]
      rfl
    rw [List.length_append] at hlen
    rw [hid, dmSelcat, selIds_eq_self (by omega) fun x hx => hnz x (List.mem_append_left _ hx)]
  | row => cases hbase

/-- The call of `notify` in a setter, from what was there before. -/
def derivedReport (undef : ℕ) (st : DmStore) (a i : ℕ) (e : DmElement) (v : Value) : List Signal :=
  match derivedWrite undef st a i e v with
  | none => []
  | some (id, y) => (st.slot a (id - 1)).toList.map fun u =>
      .notify (-1) (dmSelcat (tableId st a) id) { markUpdated u with content := .scalar y } .change

theorem Assigned.signals (h : Assigned undef st st' a i e val v) :
    derivedSignals st' e a val = derivedReport undef st a i e v := by
  unfold derivedSignals derivedReport
  rw [h.field]
  cases hd : derivedWrite undef st a i e v with
  | none => rfl
  | some p =>
    obtain ⟨id, y⟩ := p
    obtain ⟨u, hu, hu'⟩ := h.derived id y hd
    have hval : st'.value (.slot a (id - 1)) = some { markUpdated u with content := .scalar y } := hu'
    simp only [Option.map_some, notifyAt, hval, hu, h.ids]
    rfl

/-- A write and the marks that go with it. -/
structure Wrote (undef : ℕ) (st st' : DmStore) (a i : ℕ) (e : DmElement) (v : Value) (old new : DmValue) :
    Prop where
  before : st.slot a i = some old
  after : st'.slot a i = some new
  content : new.content = .scalar (written e v)
  notify : new.notify = if e.wholesale = true then 0 else old.notify
  derived : ∀ id y, derivedWrite undef st a i e v = some (id, y) → ∃ u, st.slot a (id - 1) = some u ∧
    st'.slot a (id - 1) = some { markUpdated u with content := .scalar y }
  other : ∀ b j w x, Untouched undef st a i e v b j → st.slot b j = some w → w.content = .scalar x →
    st'.slot b j = some w

theorem written_wholesale (h : e.wholesale = true) : written e v = v := by
  unfold DmElement.wholesale at h
  unfold written
  cases hset : e.set with
  | none => rfl
  | some hook =>
    cases hook with
    | addressNetmask update =>
      rw [hset] at h
      cases h
    | _ => rfl

theorem overwritten_content {old : DmValue} (hval : val.content = .scalar v) :
    (overwritten e old val v).content = .scalar (written e v) := by
  unfold overwritten
  split
  · rw [written_wholesale ‹_›]
    exact hval
  · rfl

theorem overwritten_notify {old : DmValue} (hval : val.notify = 0) :
    (overwritten e old val v).notify = if e.wholesale = true then 0 else old.notify := by
  unfold overwritten
  split
  · exact hval
  · rfl

/-- The marks, and the index. -/
theorem Assigned.wrote {id : ℕ} {st1 st2 : DmStore} {x : DmValue} (new : DmValue) (hval : val.content = .scalar v)
    (hnotify : val.notify = 0) (hsib : ∀ update, e.set.bind SetHook.updates = some update → update - 1 ≠ i)
    (h : Assigned undef st st1 a i e val v) (hx : st1.slot a i = some x)
    (hset : ∀ b j, st2.slot b j = if b = a ∧ j = i then some new else st1.slot b j)
    (hnew : new.content = x.content ∧ new.notify = x.notify) (hre : reindex st2 e id a = some st') :
    ∃ old, Wrote undef st st' a i e v old new := by
  obtain ⟨old, hold, hown⟩ := h.own
  rw [hx] at hown
  cases hown
  have hc : new.content = .scalar (written e v) := hnew.1.trans (overwritten_content hval)
  refine ⟨old, hold, ?_, hc, hnew.2.trans (overwritten_notify hnotify), ?_, ?_⟩
  · refine reindex_leaf hre ?_ hc
    rw [hset, if_pos ⟨rfl, rfl⟩]
  · intro id' y hd
    obtain ⟨u, hu, hu'⟩ := h.derived id' y hd
    refine ⟨u, hu, reindex_leaf hre ?_ rfl⟩
    have hne : id' - 1 ≠ i := by
      apply hsib
      have hf := h.field
      rw [hd] at hf
      exact derivedField_updates hf
    rw [hset, if_neg fun hh => hne hh.2]
    exact hu'
  · intro b j w y hu hw hy
    refine reindex_leaf hre ?_ hy
    rw [hset, if_neg hu.1, h.other b j hu]
    exact hw

/-- The signals of a write. -/
def writeSignals (undef : ℕ) (slot : ℤ) (st : DmStore) (a i : ℕ) (e : DmElement) (v : Value) (sel : Selector)
    (new : DmValue) : List Signal :=
  derivedReport undef st a i e v ++ [.notify slot sel new .change] ++ [.action e.action sel .change]

/-- `dm_overwrite_any_value_by_selector` for a value of a client. -/
theorem overwriteValue_wrote {full : Prop} {S : Schema} {sel : Selector} {slot : ℤ} {ref : Ref} {sigs : List Signal}
    (hw : HeapWf full nowhere S st) (hsib : SiblingSetters S) (href : st.getElementRef S sel = some (some ref))
    (hleaf : ref.elem.container = false)
    (h : overwriteValue undef S st sel (markUpdated (newValue v)) slot = some ((.ok, st'), sigs)) :
    ∃ a i old new, ref.base = .table a ∧ ref.value = .slot a i ∧ LeafAt S st a i ref.elem ∧
      Wrote undef st st' a i ref.elem v old new ∧
      sigs = writeSignals undef slot st a i ref.elem v (S.path sel) new := by
  obtain ⟨a, i, hbase, hvalue, hla⟩ := getElementRef_leaf hw href hleaf
  obtain ⟨t, kw, ht, hp, he, -⟩ := id hla
  have hsib := hsib kw i ref.elem he
  unfold overwriteValue at h
  rw [href] at h
  simp only [Option.bind_eq_bind, Option.bind_some, hbase, hvalue, Option.bind_eq_some_iff, Prod.exists] at h
  obtain ⟨old, -, _, -, r, st1, sigs1, h1, x, hx, st2, h2, h⟩ := h
  simp only [assign, Option.bind_eq_bind, Option.bind_eq_some_iff, Option.some.injEq, Prod.mk.injEq, Prod.exists] at h1
  obtain ⟨r1, st1', hst, ⟨rfl, rfl⟩, rfl⟩ := h1
  split at h
  · simp only [Option.bind_eq_some_iff, Option.some.injEq, Prod.mk.injEq] at h
    obtain ⟨x2, hx2, st3, h3, st4, h4, ⟨rfl, rfl⟩, rfl⟩ := h
    have hx : st1'.slot a i = some x := hx
    have h2 : st1'.setSlot a i { x with parity := true } = some st2 := h2
    have hx2 : st2.slot a i = some x2 := hx2
    have h3 : st2.setSlot a i (markUpdated x2) = some st3 := h3
    rw [DmStore.slot_setSlot h2, if_pos ⟨rfl, rfl⟩] at hx2
    cases hx2
    have hassigned : Assigned undef st st1' a i ref.elem (markUpdated (newValue v)) v :=
      assign_assigned rfl hsib hst
    have hids : tableId st4 a = tableId st a := by
      rw [reindex_tableId h4, tableId_setSlot h3, tableId_setSlot h2, hassigned.ids]
    obtain ⟨old0, hwrote⟩ := hassigned.wrote (markUpdated x) rfl rfl hsib hx
      (fun b j => by
        rw [DmStore.slot_setSlot h3]
        by_cases hh : b = a ∧ j = i
        · rw [if_pos hh, if_pos hh]
          rfl
        · rw [if_neg hh, if_neg hh, DmStore.slot_setSlot h2, if_neg hh]) ⟨rfl, rfl⟩ h4
    refine ⟨a, i, old0, markUpdated x, hbase, hvalue, hla, hwrote, ?_⟩
    have hnew : st4.value (.slot a i) = some (markUpdated x) := hwrote.after
    rw [hassigned.signals, hids, selcat_path hw href hbase]
    simp only [writeSignals, notifyAt, hnew]
    rfl
  · rename_i hno
    simp only [Option.some.injEq, Prod.mk.injEq] at h
    obtain ⟨⟨rfl, -⟩, -⟩ := h
    exact absurd ⟨rfl, rfl⟩ hno

/-- One round of `cache_apply`. -/
theorem applyItem_wrote {env : Env} {slot : ℤ} {item : CacheItem} {sigs : List Signal}
    (hsib : SiblingSetters env.schema) (hitem : ItemWf env.schema st item) (hnew : item.newValue = newValue v)
    (hstr : ∀ kw update, item.elem ∈ (env.schema.table kw).elems →
      item.elem.set = some (.addressNetmask update) → ∃ s, v = .str s)
    (h : applyItem env slot st item = some (st', sigs)) :
    ∃ a i old new, item.oldValue = .slot a i ∧ LeafAt env.schema st a i item.elem ∧
      Wrote env.undef st st' a i item.elem v old new ∧
      sigs = writeSignals env.undef slot st a i item.elem v item.sb new := by
  obtain ⟨a, i, hbase, hvalue, -, hl⟩ := hitem.leaf
  unfold applyItem at h
  rw [hbase] at h
  simp only [hvalue, hnew, Option.bind_eq_bind, Option.bind_eq_some_iff, Prod.exists, assign, Option.some.injEq,
    Prod.mk.injEq] at h
  obtain ⟨r, st1, sigs1, ⟨r1, st1', hst, ⟨rfl, rfl⟩, rfl⟩, x, hx, st2, h2, st3, h3, rfl, rfl⟩ := h
  have hx : st1'.slot a i = some x := hx
  have h2 : st1'.setSlot a i (markUpdated (setPending false x)) = some st2 := h2
  cases ht : st.heap a with
  | none => exact (assign_gone ht hst hx).elim
  | some t =>
    have hla := hl t ht
    obtain ⟨t0, kw, -, -, he, -⟩ := id hla
    have hsib := hsib kw i item.elem he
    have hok := assign_ok rfl (fun update => hstr kw update (List.mem_of_getElem? he)) hst
    rw [hok] at hst
    have hassigned : Assigned env.undef st st1' a i item.elem (newValue v) v := assign_assigned rfl hsib hst
    obtain ⟨old0, hwrote⟩ := hassigned.wrote (markUpdated (setPending false x)) rfl rfl hsib hx
      (fun b j => DmStore.slot_setSlot h2) ⟨rfl, rfl⟩ h3
    refine ⟨a, i, old0, _, hvalue, hla, hwrote, ?_⟩
    have hval : st3.value (.slot a i) = some (markUpdated (setPending false x)) := hwrote.after
    rw [hassigned.signals]
    simp only [writeSignals, notifyAt, hval]
    rfl

end Mand.Signal
