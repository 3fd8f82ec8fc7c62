import Mand.Store.Heap

/-! # Reading after writing

What the reads of a store give after one of its writes. -/
namespace Mand.Store
open Mand.Index
set_option autoImplicit false

namespace DmStore

variable (st : DmStore) (a b i j : ℕ) (t : VTable) (v : DmValue) (n : RowNode)

theorem slot_eq : st.slot a i = (st.heap a).bind fun t => t.values[i]? := rfl

theorem node_eq : st.node a = (st.heap a).bind VTable.node := rfl

@[simp]
theorem put_next : (st.put a t).next = st.next := rfl

@[simp]
theorem put_root : (st.put a t).root = st.root := rfl

theorem put_heap : (st.put a t).heap b = if b = a then some t else st.heap b := by
  simp only [put, Function.update_apply]

theorem put_heap_self : (st.put a t).heap a = some t := by
  rw [put_heap, if_pos rfl]

theorem put_heap_ne (h : b ≠ a) : (st.put a t).heap b = st.heap b := by
  rw [put_heap, if_neg h]

theorem free_heap : (st.free a).heap b = if b = a then none else st.heap b := by
  simp only [free, Function.update_apply]

@[simp]
theorem free_next : (st.free a).next = st.next := rfl

@[simp]
theorem free_root : (st.free a).root = st.root := rfl

variable {st a b i j t v n}

theorem slot_eq_some : st.slot a i = some v ↔ ∃ t, st.heap a = some t ∧ t.values[i]? = some v := by
  rw [slot_eq, Option.bind_eq_some_iff]

theorem node_eq_some : st.node a = some n ↔ ∃ t, st.heap a = some t ∧ t.node = some n := by
  rw [node_eq, Option.bind_eq_some_iff]

theorem setSlot_eq_some {st' : DmStore} : st.setSlot a i v = some st' ↔
    ∃ t, st.heap a = some t ∧ i < t.values.length ∧ st' = st.put a (t.setValue i v) := by
  unfold setSlot
  rw [Option.bind_eq_bind, Option.bind_eq_some_iff]
  constructor
  · intro ⟨t, ht, h⟩
    by_cases hi : i < t.values.length
    · rw [if_pos hi] at h
      cases h
      exact ⟨t, ht, hi, rfl⟩
    · rw [if_neg hi] at h
      cases h
  · intro ⟨t, ht, hi, hst⟩
    exact ⟨t, ht, by rw [if_pos hi, hst]⟩

theorem setNode_eq_some {st' : DmStore} : st.setNode a n = some st' ↔
    ∃ t, st.heap a = some t ∧ st' = st.put a { t with node := some n } := by
  unfold setNode
  rw [Option.bind_eq_bind, Option.bind_eq_some_iff]
  constructor
  · intro ⟨t, ht, h⟩
    cases h
    exact ⟨t, ht, rfl⟩
  · intro ⟨t, ht, hst⟩
    exact ⟨t, ht, by rw [hst]⟩

theorem slot_setSlot {st' : DmStore} (h : st.setSlot a i v = some st') :
    st'.slot b j = if b = a ∧ j = i then some v else st.slot b j := by
  obtain ⟨t, ht, hi, rfl⟩ := setSlot_eq_some.mp h
  rw [slot_eq, put_heap, slot_eq]
  by_cases hb : b = a
  · rw [if_pos hb, hb, ht]
    simp only [Option.bind_some, VTable.setValue, List.getElem?_set, true_and]
    by_cases hj : j = i
    · rw [if_pos hj.symm, if_pos hj, if_pos (by omega)]
    · rw [if_neg (Ne.symm hj), if_neg hj]
  · rw [if_neg hb, if_neg fun h => hb h.1]

theorem node_setSlot {st' : DmStore} (h : st.setSlot a i v = some st') : st'.node b = st.node b := by
  obtain ⟨t, ht, hi, rfl⟩ := setSlot_eq_some.mp h
  rw [node_eq, put_heap, node_eq]
  by_cases hb : b = a
  · rw [if_pos hb, hb, ht]
    rfl
  · rw [if_neg hb]

theorem slot_setNode {st' : DmStore} (h : st.setNode a n = some st') : st'.slot b j = st.slot b j := by
  obtain ⟨t, ht, rfl⟩ := setNode_eq_some.mp h
  rw [slot_eq, put_heap, slot_eq]
  by_cases hb : b = a
  · rw [if_pos hb, hb, ht]
    rfl
  · rw [if_neg hb]

theorem node_setNode {st' : DmStore} (h : st.setNode a n = some st') :
    st'.node b = if b = a then some n else st.node b := by
  obtain ⟨t, ht, rfl⟩ := setNode_eq_some.mp h
  rw [node_eq, put_heap, node_eq]
  by_cases hb : b = a
  · rw [if_pos hb, if_pos hb]
    rfl
  · rw [if_neg hb, if_neg hb]

theorem setSlot_some (h : st.slot a i = some v) (w : DmValue) : ∃ st', st.setSlot a i w = some st' := by
  obtain ⟨t, ht, hv⟩ := slot_eq_some.mp h
  have hi : i < t.values.length := (List.getElem?_eq_some_iff.mp hv).1
  exact ⟨st.put a (t.setValue i w), setSlot_eq_some.mpr ⟨t, ht, hi, rfl⟩⟩

theorem setNode_some (h : st.node a = some n) (m : RowNode) : ∃ st', st.setNode a m = some st' := by
  obtain ⟨t, ht, -⟩ := node_eq_some.mp h
  exact ⟨st.put a { t with node := some m }, setNode_eq_some.mpr ⟨t, ht, rfl⟩⟩

/-! ## Locations -/

theorem value_setValue {st' : DmStore} {l l' : Loc} (h : st.setValue l v = some st') :
    st'.value l' = if l' = l then some v else st.value l' := by
  cases l with
  | slot a i =>
    have h' : st.setSlot a i v = some st' := h
    cases l' with
    | slot b j =>
      show st'.slot b j = _
      rw [slot_setSlot h']
      by_cases hb : b = a ∧ j = i
      · rw [if_pos hb, if_pos (by rw [hb.1, hb.2])]
      · rw [if_neg hb, if_neg (fun he => hb ⟨(Loc.slot.inj he).1, (Loc.slot.inj he).2⟩)]
        rfl
    | row b =>
      show (st'.node b).map RowNode.value = _
      rw [node_setSlot h', if_neg (fun he => nomatch he)]
      rfl
  | row a =>
    obtain ⟨m, hm, h'⟩ := Option.bind_eq_some_iff.mp h
    cases l' with
    | slot b j =>
      show st'.slot b j = _
      rw [slot_setNode h', if_neg (fun he => nomatch he)]
      rfl
    | row b =>
      show (st'.node b).map RowNode.value = _
      rw [node_setNode h']
      by_cases hb : b = a
      · rw [if_pos hb, if_pos (by rw [hb])]
        rfl
      · rw [if_neg hb, if_neg (fun he => hb (Loc.row.inj he))]
        rfl

theorem setValue_some {l : Loc} (h : st.value l = some v) (w : DmValue) :
    ∃ st', st.setValue l w = some st' := by
  cases l with
  | slot a i => exact setSlot_some h w
  | row a =>
    obtain ⟨m, hm, -⟩ := Option.map_eq_some_iff.mp h
    obtain ⟨st', hst'⟩ := setNode_some hm { m with value := w }
    exact ⟨st', Option.bind_eq_some_iff.mpr ⟨m, hm, hst'⟩⟩

end DmStore

end Mand.Store
