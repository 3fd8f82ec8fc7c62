import Mand.Store.Heap

/-! # How a selector resolves

The successful runs of `dm_get_element_ref` as a relation with one rule for each kind of step. -/
namespace Mand.Store
open Mand.Index
set_option autoImplicit false

variable {S : Schema} {st : DmStore}

/-- `elementRef` finds `r`. -/
inductive Resolves (S : Schema) (st : DmStore) : ℕ → Selector → ℕ → Base → Option Ref → Ref → Prop
  | done (n kw : ℕ) (base : Base) (r : Ref) : Resolves S st (n + 1) [] kw base (some r) r
  | zero (n : ℕ) (sel : Selector) (kw : ℕ) (base : Base) (r : Ref) :
    Resolves S st (n + 1) (0 :: sel) kw base (some r) r
  | row (n id : ℕ) (sel : Selector) (kw : ℕ) (a i : ℕ) (ref : Ref) (t : Option ObjTree) (b c : Addr)
    (v : DmValue) (r : Ref) (hid : id ≠ 0) (htree : st.tree a i = some t)
    (hfind : st.instanceNode t id = some (some b)) (hval : st.value (.row b) = some v)
    (hpar : v.parity = true) (hc : v.content = .table (some c))
    (h : Resolves S st n sel kw (.table c) (some ⟨id, ref.elem, .inst, .object a i, .row b⟩) r) :
    Resolves S st (n + 1) (id :: sel) kw (.object a i) (some ref) r
  | token (n id : ℕ) (sel : Selector) (kw : ℕ) (a : Addr) (ref : Option Ref) (e : DmElement)
    (v : DmValue) (b : Addr) (r : Ref) (hid : id ≠ 0) (he : (S.table kw).elems[id - 1]? = some e)
    (hval : st.slot a (id - 1) = some v) (hpar : v.parity = true) (htype : e.type = .token)
    (hc : v.content = .table (some b))
    (h : Resolves S st n sel e.table (.table b)
      (some ⟨id, e, .token, .table a, .slot a (id - 1)⟩) r) :
    Resolves S st (n + 1) (id :: sel) kw (.table a) ref r
  | object (n id : ℕ) (sel : Selector) (kw : ℕ) (a : Addr) (ref : Option Ref) (e : DmElement)
    (v : DmValue) (t : Option ObjTree) (r : Ref) (hid : id ≠ 0)
    (he : (S.table kw).elems[id - 1]? = some e) (hval : st.slot a (id - 1) = some v)
    (hpar : v.parity = true) (htype : e.type = .object) (hc : v.content = .inst t)
    (h : Resolves S st n sel e.table (.object a (id - 1))
      (some ⟨id, e, .object, .table a, .slot a (id - 1)⟩) r) :
    Resolves S st (n + 1) (id :: sel) kw (.table a) ref r
  | leaf (n id : ℕ) (sel : Selector) (kw : ℕ) (a : Addr) (ref : Option Ref) (e : DmElement)
    (v : DmValue) (hid : id ≠ 0) (he : (S.table kw).elems[id - 1]? = some e)
    (hval : st.slot a (id - 1) = some v) (hpar : v.parity = true) (htoken : e.type ≠ .token)
    (hobject : e.type ≠ .object) :
    Resolves S st (n + 1) (id :: sel) kw (.table a) ref
      ⟨id, e, (ref.map Ref.stType).getD .token, .table a, .slot a (id - 1)⟩

theorem parityAssert_eq (v : DmValue) (u : Unit) : v.parityAssert = some u ↔ v.parity = true := by
  unfold DmValue.parityAssert
  by_cases h : v.parity = true
  · rw [if_pos h]
    exact ⟨fun _ => h, fun _ => rfl⟩
  · rw [if_neg h]
    exact ⟨fun hh => absurd hh (by simp), fun hh => absurd hh h⟩

theorem tree_eq_some (st : DmStore) (a i : ℕ) (t : Option ObjTree) :
    st.tree a i = some t ↔ ∃ v, st.slot a i = some v ∧ v.content = .inst t := by
  unfold DmStore.tree
  cases hv : st.slot a i with
  | none => simp
  | some v =>
    simp only [Option.bind_eq_bind, Option.bind_some]
    cases hc : v.content with
    | scalar x => simp [hc]
    | table x => simp [hc]
    | inst x => simp [hc]

theorem resolves_of_elementRef (n : ℕ) (sel : Selector) (kw : ℕ) (base : Base) (ref : Option Ref)
    (r : Ref) (h : elementRef S st n sel kw base ref = some (some r)) :
    Resolves S st n sel kw base ref r := by
  induction sel generalizing n kw base ref with
  | nil =>
    cases n with
    | zero =>
      unfold elementRef at h
      cases h
    | succ n =>
      unfold elementRef at h
      cases h
      exact .done n kw base r
  | cons id sel ih =>
    cases n with
    | zero =>
      unfold elementRef at h
      cases h
    | succ n =>
      unfold elementRef at h
      by_cases hid : id = 0
      · rw [if_pos hid] at h
        cases h
        subst hid
        exact .zero n sel kw base r
      rw [if_neg hid] at h
      cases base with
      | object a i =>
        obtain ⟨t, htree, h⟩ := Option.bind_eq_some_iff.mp h
        obtain ⟨found, hfind, h⟩ := Option.bind_eq_some_iff.mp h
        cases found with
        | none => cases h
        | some b =>
          obtain ⟨e, he, h⟩ := Option.bind_eq_some_iff.mp h
          obtain ⟨v, hval, h⟩ := Option.bind_eq_some_iff.mp h
          obtain ⟨u, hpar, h⟩ := Option.bind_eq_some_iff.mp h
          obtain ⟨ref0, rfl, rfl⟩ := Option.map_eq_some_iff.mp he
          cases hc : v.content with
          | scalar x =>
            simp only [hc] at h
            cases h
          | inst x =>
            simp only [hc] at h
            cases h
          | table x =>
            cases x with
            | none =>
              simp only [hc] at h
              cases h
            | some c =>
              simp only [hc] at h
              exact .row n id sel kw a i ref0 t b c v r hid htree hfind hval
                ((parityAssert_eq v u).mp hpar) hc (ih n kw (.table c) _ h)
      | table a =>
        obtain ⟨e, he, h⟩ := Option.bind_eq_some_iff.mp h
        obtain ⟨v, hval, h⟩ := Option.bind_eq_some_iff.mp h
        obtain ⟨u, hpar, h⟩ := Option.bind_eq_some_iff.mp h
        have hpar' := (parityAssert_eq v u).mp hpar
        by_cases htoken : e.type = .token
        · simp only [htoken] at h
          cases hc : v.content with
          | scalar x =>
            simp only [hc] at h
            cases h
          | inst x =>
            simp only [hc] at h
            cases h
          | table x =>
            cases x with
            | none =>
              simp only [hc] at h
              cases h
            | some b =>
              simp only [hc] at h
              exact .token n id sel kw a ref e v b r hid he hval hpar' htoken hc
                (ih n e.table (.table b) _ h)
        by_cases hobject : e.type = .object
        · simp only [hobject] at h
          obtain ⟨t, htree, h⟩ := Option.bind_eq_some_iff.mp h
          obtain ⟨v', hv', hc⟩ := (tree_eq_some st a (id - 1) t).mp htree
          rw [hval] at hv'
          cases hv'
          exact .object n id sel kw a ref e v t r hid he hval hpar' hobject hc
            (ih n e.table (.object a (id - 1)) _ h)
        · have hr : some (some (Ref.mk id e ((ref.map Ref.stType).getD .token) (.table a)
              (.slot a (id - 1)))) = some (some r) := by
            rw [← h]
            split
            · contradiction
            · contradiction
            · rfl
          cases hr
          exact .leaf n id sel kw a ref e v hid he hval hpar' htoken hobject

theorem elementRef_of_resolves (n : ℕ) (sel : Selector) (kw : ℕ) (base : Base) (ref : Option Ref)
    (r : Ref) (h : Resolves S st n sel kw base ref r) :
    elementRef S st n sel kw base ref = some (some r) := by
  induction h with
  | done n kw base r => rfl
  | zero n sel kw base r => rfl
  | row n id sel kw a i ref t b c v r hid htree hfind hval hpar hc _ ih =>
    unfold elementRef
    rw [if_neg hid]
    simp only [htree, Option.bind_eq_bind, Option.bind_some, hfind, Option.map_some, hval,
      (parityAssert_eq v ()).mpr hpar, hc, ih]
  | token n id sel kw a ref e v b r hid he hval hpar htype hc _ ih =>
    unfold elementRef
    rw [if_neg hid]
    simp only [Option.bind_eq_bind, Option.bind_some, he, hval, (parityAssert_eq v ()).mpr hpar,
      htype, hc, ih]
  | object n id sel kw a ref e v t r hid he hval hpar htype hc _ ih =>
    unfold elementRef
    rw [if_neg hid]
    have htree : st.tree a (id - 1) = some t := (tree_eq_some st a (id - 1) t).mpr ⟨v, hval, hc⟩
    simp only [Option.bind_eq_bind, Option.bind_some, he, hval, (parityAssert_eq v ()).mpr hpar,
      htype, htree, ih]
  | leaf n id sel kw a ref e v hid he hval hpar htoken hobject =>
    unfold elementRef
    rw [if_neg hid]
    simp only [Option.bind_eq_bind, Option.bind_some, he, hval, (parityAssert_eq v ()).mpr hpar]

theorem resolves_iff (sel : Selector) (r : Ref) :
    st.getElementRef S sel = some (some r) ↔
      Resolves S st dmSelectorLen sel S.root (.table st.root) none r :=
  ⟨resolves_of_elementRef _ _ _ _ _ _, elementRef_of_resolves _ _ _ _ _ _⟩

/-- The value of a reference is there and was checked. -/
def Ref.Checked (st : DmStore) (r : Ref) : Prop := ∃ v, st.value r.value = some v ∧ v.parity = true

/-- What holds of the references to the rows, the tokens, the objects and the leaves that the loop may
pass holds of the one that it finds. -/
theorem Resolves.passed {Q : Ref → Prop} {n : ℕ} {sel : Selector} {kw : ℕ} {base : Base} {ref : Option Ref}
    {r : Ref} (h : Resolves S st n sel kw base ref r) (href : ∀ r0, ref = some r0 → Q r0)
    (hrow : ∀ id e a i b v, st.value (.row b) = some v → v.parity = true →
      Q ⟨id, e, .inst, .object a i, .row b⟩)
    (htoken : ∀ id e a i v b, st.slot a i = some v → v.parity = true → e.type = .token →
      v.content = .table (some b) → Q ⟨id, e, .token, .table a, .slot a i⟩)
    (hother : ∀ id e stType a i v, st.slot a i = some v → v.parity = true → e.type ≠ .token →
      (e.type = .object → stType = .object) → Q ⟨id, e, stType, .table a, .slot a i⟩) : Q r := by
  induction h with
  | done n kw base r => exact href r rfl
  | zero n sel kw base r => exact href r rfl
  | row n id sel kw a i ref t b c v r hid htree hfind hval hpar hc _ ih =>
    apply ih
    intro r0 hr0
    cases hr0
    exact hrow id ref.elem a i b v hval hpar
  | token n id sel kw a ref e v b r hid he hval hpar htype hc _ ih =>
    apply ih
    intro r0 hr0
    cases hr0
    exact htoken id e a (id - 1) v b hval hpar htype hc
  | object n id sel kw a ref e v t r hid he hval hpar htype hc _ ih =>
    apply ih
    intro r0 hr0
    cases hr0
    refine hother id e .object a (id - 1) v hval hpar ?_ fun _ => rfl
    rw [htype]
    decide
  | leaf n id sel kw a ref e v hid he hval hpar htoken' hobject =>
    exact hother id e _ a (id - 1) v hval hpar htoken' fun ho => absurd ho hobject

theorem getElementRef_checked (sel : Selector) (r : Ref)
    (h : st.getElementRef S sel = some (some r)) : r.Checked st :=
  ((resolves_iff sel r).mp h).passed (fun _ hr0 => nomatch hr0) (fun _ _ _ _ _ v hv hp => ⟨v, hv, hp⟩)
    (fun _ _ _ _ v _ hv hp _ _ => ⟨v, hv, hp⟩) (fun _ _ _ _ _ v hv hp _ _ => ⟨v, hv, hp⟩)

/-- The slot of an object has the type of an object. -/
theorem getElementRef_slotType {sel : Selector} {r : Ref} {a i : ℕ} (h : st.getElementRef S sel = some (some r))
    (hslot : r.value = .slot a i) (hobj : r.elem.type = .object) : r.stType = .object := by
  have hQ : ∀ b j, r.value = .slot b j → r.elem.type = .object → r.stType = .object := by
    refine ((resolves_iff sel r).mp h).passed (Q := fun r => ∀ b j, r.value = .slot b j →
      r.elem.type = .object → r.stType = .object) (fun _ hr0 => nomatch hr0) ?_ ?_ ?_
    · intro id e a' i' b v _ _ b' j' hl
      cases hl
    · intro id e a' i' v b _ _ htoken _ b' j' _ ho
      exact absurd (htoken.symm.trans ho) (by decide)
    · intro id e stType a' i' v _ _ _ ho b' j' _ hobj
      exact ho hobj
  exact hQ a i hslot hobj

/-- A token that a selector leads to has a table. -/
theorem getElementRef_token {sel : Selector} {r : Ref} {a i : ℕ}
    (h : st.getElementRef S sel = some (some r)) (hty : r.elem.type = .token) (hval : r.value = .slot a i) :
    ∃ v b, st.slot a i = some v ∧ v.parity = true ∧ v.content = .table (some b) := by
  have hQ : r.elem.type = .token → r.value = .slot a i →
      ∃ v b, st.slot a i = some v ∧ v.parity = true ∧ v.content = .table (some b) := by
    refine ((resolves_iff sel r).mp h).passed (Q := fun r => r.elem.type = .token → r.value = .slot a i →
      ∃ v b, st.slot a i = some v ∧ v.parity = true ∧ v.content = .table (some b))
      (fun _ hr0 => nomatch hr0) ?_ ?_ ?_
    · intro id e a' i' b v _ _ _ hl
      cases hl
    · intro id e a' i' v b hv hp _ hc _ hl
      cases hl
      exact ⟨v, b, hv, hp, hc⟩
    · intro id e stType a' i' v _ _ hne _ hty _
      exact absurd hty hne
  exact hQ hty hval

/-- Ids behind a zero, or behind the sixteenth, are not read. -/
theorem elementRef_selcmp (n : ℕ) (sel sel' : Selector) (kw : ℕ) (base : Base) (ref : Option Ref)
    (h : dmSelcmp sel sel' n = 0) :
    elementRef S st n sel kw base ref = elementRef S st n sel' kw base ref := by
  induction n generalizing sel sel' kw base ref with
  | zero =>
    unfold elementRef
    rfl
  | succ n ih =>
    unfold dmSelcmp at h
    simp only at h
    by_cases hz : sel.headD 0 = 0 ∧ sel'.headD 0 = 0
    · -- Both selectors end here.
      have hend : ∀ s : Selector, s.headD 0 = 0 → elementRef S st (n + 1) s kw base ref = some ref := by
        intro s hs
        cases s with
        | nil => rfl
        | cons id s =>
          have hid : id = 0 := hs
          subst hid
          rfl
      rw [hend sel hz.1, hend sel' hz.2]
    rw [if_neg hz] at h
    by_cases h1 : sel.headD 0 < sel'.headD 0
    · rw [if_pos h1] at h
      exact absurd h (by decide)
    rw [if_neg h1] at h
    by_cases h2 : sel'.headD 0 < sel.headD 0
    · rw [if_pos h2] at h
      exact absurd h (by decide)
    rw [if_neg h2] at h
    have heq : sel.headD 0 = sel'.headD 0 := by omega
    cases sel with
    | nil =>
      exact absurd ⟨rfl, heq.symm⟩ hz
    | cons id sel =>
      cases sel' with
      | nil => exact absurd ⟨heq, rfl⟩ hz
      | cons id' sel' =>
        have hid : id = id' := heq
        subst hid
        unfold elementRef
        simp only [fun kw base ref => ih sel sel' kw base ref h]

/-! ## Selectors of the schema -/

/-- `dm_get_element_by_selector`: the type and the element that a selector has in the schema. `row`
tells that the next id is an instance number. -/
def elementBySelector (S : Schema) :
    Selector → ℕ → Bool → Option (DmType × DmElement) → Option (DmType × DmElement)
  | [], _, _, found => found
  | id :: sel, kw, row, found =>
    if id = 0 then found
    else if row = true then elementBySelector S sel kw false (found.map fun f => (.token, f.2))
    else do
      let e ← (S.table kw).elems[id - 1]?
      if e.container = true then
        elementBySelector S sel e.table (e.type = .object) (some (e.type, e))
      else some (e.type, e)

def Schema.element (S : Schema) (sel : Selector) : Option (DmType × DmElement) :=
  elementBySelector S sel S.root false none

/-- The ids of a selector that are read: up to a leaf, a zero or the sixteenth. -/
def pathFrom (S : Schema) : ℕ → Selector → ℕ → Bool → Selector
  | 0, _, _, _ => []
  | _ + 1, [], _, _ => []
  | n + 1, id :: sel, kw, row =>
    if id = 0 then []
    else if row = true then id :: pathFrom S n sel kw false
    else match (S.table kw).elems[id - 1]? with
      | none => []
      | some e =>
        if e.container = true then id :: pathFrom S n sel e.table (e.type = .object) else [id]

def Schema.path (S : Schema) (sel : Selector) : Selector := pathFrom S dmSelectorLen sel S.root false

def Base.isObject : Base → Bool
  | .object _ _ => true
  | .table _ => false

/-- The reference is to the node of a row. -/
def Ref.IsRow (st : DmStore) (r : Ref) : Prop :=
  ∃ v b, st.value r.value = some v ∧ v.content = .table (some b)

/-- A reference whose element is a `T_OBJECT` is to a row, or its selector ends at the object. -/
theorem Resolves.element {n : ℕ} {sel : Selector} {kw : ℕ} {base : Base} {ref : Option Ref} {r : Ref}
    (h : Resolves S st n sel kw base ref r) (found : Option (DmType × DmElement))
    (hfound : ∀ r0, ref = some r0 → r0.elem.type = .object →
      r0.IsRow st ∨ found = some (.object, r0.elem)) (hobj : r.elem.type = .object) :
    r.IsRow st ∨ elementBySelector S sel kw base.isObject found = some (.object, r.elem) := by
  induction h generalizing found with
  | done n kw base r => exact hfound r rfl hobj
  | zero n sel kw base r => exact hfound r rfl hobj
  | row n id sel kw a i ref t b c v r hid htree hfind hval hpar hc _ ih =>
    have h1 := ih (found.map fun f => (.token, f.2)) (by
      intro r0 hr0 _
      cases hr0
      exact Or.inl ⟨v, c, hval, hc⟩) hobj
    rw [elementBySelector, if_neg hid]
    exact h1
  | token n id sel kw a ref e v b r hid he hval hpar htype hc _ ih =>
    have h1 := ih (some (e.type, e)) (by
      intro r0 hr0 ho
      cases hr0
      have ho' : e.type = .object := ho
      rw [htype] at ho'
      cases ho') hobj
    rw [elementBySelector, if_neg hid]
    simp only [Base.isObject, he, DmElement.container, htype, Option.bind_eq_bind, Option.bind_some]
    rw [htype] at h1
    exact h1
  | object n id sel kw a ref e v t r hid he hval hpar htype hc _ ih =>
    have h1 := ih (some (e.type, e)) (by
      intro r0 hr0 _
      cases hr0
      exact Or.inr (by rw [htype])) hobj
    rw [elementBySelector, if_neg hid]
    simp only [Base.isObject, he, DmElement.container, htype, Option.bind_eq_bind, Option.bind_some]
    rw [htype] at h1
    exact h1
  | leaf n id sel kw a ref e v hid he hval hpar htoken hobject => exact absurd hobj hobject

theorem getElementRef_element (sel : Selector) (r : Ref)
    (h : st.getElementRef S sel = some (some r)) (hobj : r.elem.type = .object) :
    r.IsRow st ∨ S.element sel = some (.object, r.elem) :=
  ((resolves_iff sel r).mp h).element none (fun _ hr0 => nomatch hr0) hobj

/-- Only what an object id led to has its type. -/
theorem Resolves.objectElem {n : ℕ} {sel : Selector} {kw : ℕ} {base : Base} {ref : Option Ref} {r : Ref}
    (h : Resolves S st n sel kw base ref r)
    (href : ∀ r0, ref = some r0 → r0.stType = .object → r0.elem.type = .object ∧ base.isObject = true)
    (hty : r.stType = .object) : r.elem.type = .object := by
  induction h with
  | done n kw base r => exact (href r rfl hty).1
  | zero n sel kw base r => exact (href r rfl hty).1
  | row n id sel kw a i ref t b c v r hid htree hfind hval hpar hc _ ih =>
    apply ih _ hty
    intro r0 hr0 ho
    cases hr0
    cases ho
  | token n id sel kw a ref e v b r hid he hval hpar htype hc _ ih =>
    apply ih _ hty
    intro r0 hr0 ho
    cases hr0
    cases ho
  | object n id sel kw a ref e v t r hid he hval hpar htype hc _ ih =>
    apply ih _ hty
    intro r0 hr0 _
    cases hr0
    exact ⟨htype, rfl⟩
  | leaf n id sel kw a ref e v hid he hval hpar htoken hobject =>
    have hty : (ref.map Ref.stType).getD .token = .object := hty
    cases ref with
    | none => cases hty
    | some r0 =>
      have hbase := (href r0 rfl hty).2
      cases hbase

theorem getElementRef_objectElem {sel : Selector} {r : Ref} (h : st.getElementRef S sel = some (some r))
    (hty : r.stType = .object) : r.elem.type = .object :=
  ((resolves_iff sel r).mp h).objectElem (fun _ hr0 => nomatch hr0) hty

/-- The element of a reference to a slot is the one that the schema has for the selector. -/
theorem Resolves.element_eq {n : ℕ} {sel : Selector} {kw : ℕ} {base : Base} {ref : Option Ref} {r : Ref}
    (h : Resolves S st n sel kw base ref r) (found : Option (DmType × DmElement))
    (hfound : ∀ r0 a i, ref = some r0 → r0.value = .slot a i → found = some (r0.elem.type, r0.elem))
    {a i : ℕ} (hslot : r.value = .slot a i) :
    elementBySelector S sel kw base.isObject found = some (r.elem.type, r.elem) := by
  induction h generalizing found with
  | done n kw base r => exact hfound r a i rfl hslot
  | zero n sel kw base r => exact hfound r a i rfl hslot
  | row n id sel kw b j ref t c d v r hid htree hfind hval hpar hc _ ih =>
    have h1 := ih (found.map fun f => (.token, f.2)) (by
      intro r0 a i hr0 hv0
      cases hr0
      cases hv0) hslot
    rw [elementBySelector, if_neg hid]
    exact h1
  | token n id sel kw b ref e v c r hid he hval hpar htype hc _ ih =>
    have h1 := ih (some (e.type, e)) (by
      intro r0 a i hr0 _
      cases hr0
      rfl) hslot
    rw [elementBySelector, if_neg hid]
    simp only [Base.isObject, he, DmElement.container, htype, Option.bind_eq_bind, Option.bind_some]
    rw [htype] at h1
    exact h1
  | object n id sel kw b ref e v t r hid he hval hpar htype hc _ ih =>
    have h1 := ih (some (e.type, e)) (by
      intro r0 a i hr0 _
      cases hr0
      rfl) hslot
    rw [elementBySelector, if_neg hid]
    simp only [Base.isObject, he, DmElement.container, htype, Option.bind_eq_bind, Option.bind_some]
    rw [htype] at h1
    exact h1
  | leaf n id sel kw b ref e v hid he hval hpar htoken hobject =>
    rw [elementBySelector, if_neg hid]
    simp [Base.isObject, he, DmElement.container, htoken, hobject]

theorem getElementRef_schema {sel : Selector} {r : Ref} {a i : ℕ}
    (h : st.getElementRef S sel = some (some r)) (hslot : r.value = .slot a i) :
    S.element sel = some (r.elem.type, r.elem) :=
  ((resolves_iff sel r).mp h).element_eq none (fun _ _ _ hr0 => nomatch hr0) hslot

end Mand.Store
