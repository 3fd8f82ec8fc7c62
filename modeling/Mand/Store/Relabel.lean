import Mand.Store.Access

/-! # Values written over

A function on the values of a store that leaves contents and parity alone. No lookup sees it. -/
namespace Mand.Store
open Mand.Index
set_option autoImplicit false

/-- Contents and parity stay. -/
structure Labels (f : DmValue → DmValue) : Prop where
  content : ∀ v, (f v).content = v.content
  parity : ∀ v, (f v).parity = v.parity

def relabelNode (f : DmValue → DmValue) (n : RowNode) : RowNode := { n with value := f n.value }

def relabelTable (f : DmValue → DmValue) (t : VTable) : VTable :=
  { t with values := t.values.map f, node := t.node.map (relabelNode f) }

def relabel (f : DmValue → DmValue) (st : DmStore) : DmStore :=
  { st with heap := fun a => (st.heap a).map (relabelTable f) }

variable {f : DmValue → DmValue}

/-! ## Reads and writes -/

section Access
variable (st : DmStore) (a i : ℕ) (t : VTable) (v : DmValue) (n : RowNode)

theorem relabel_heap : (relabel f st).heap a = (st.heap a).map (relabelTable f) := rfl

theorem relabel_slot : (relabel f st).slot a i = (st.slot a i).map f := by
  rw [DmStore.slot_eq, DmStore.slot_eq, relabel_heap]
  cases st.heap a with
  | none => rfl
  | some t => simp [relabelTable]

theorem relabel_node : (relabel f st).node a = (st.node a).map (relabelNode f) := by
  rw [DmStore.node_eq, DmStore.node_eq, relabel_heap]
  cases st.heap a with
  | none => rfl
  | some t => simp [relabelTable]

theorem relabel_ext {st st' : DmStore} (hheap : ∀ a, (st.heap a).map (relabelTable f) = st'.heap a)
    (hnext : st.next = st'.next) (hroot : st.root = st'.root) : relabel f st = st' := by
  have hfun : (relabel f st).heap = st'.heap := funext hheap
  calc relabel f st = ⟨(relabel f st).heap, st.next, st.root⟩ := rfl
    _ = st' := by rw [hfun, hnext, hroot]

theorem relabel_put : relabel f (st.put a t) = (relabel f st).put a (relabelTable f t) := by
  refine relabel_ext ?_ rfl rfl
  intro b
  rw [DmStore.put_heap, DmStore.put_heap]
  by_cases hb : b = a
  · rw [if_pos hb, if_pos hb]
    rfl
  · rw [if_neg hb, if_neg hb]
    rfl

theorem relabel_free : relabel f (st.free a) = (relabel f st).free a := by
  refine relabel_ext ?_ rfl rfl
  intro b
  rw [DmStore.free_heap, DmStore.free_heap]
  by_cases hb : b = a
  · rw [if_pos hb, if_pos hb]
    rfl
  · rw [if_neg hb, if_neg hb]
    rfl

theorem relabelTable_setValue : relabelTable f (t.setValue i v) = (relabelTable f t).setValue i (f v) := by
  simp [relabelTable, VTable.setValue, List.map_set]

theorem relabel_setSlot : (relabel f st).setSlot a i (f v) = (st.setSlot a i v).map (relabel f) := by
  unfold DmStore.setSlot
  rw [relabel_heap]
  cases st.heap a with
  | none => rfl
  | some t =>
    simp only [Option.map_some, Option.bind_eq_bind, Option.bind_some]
    have hlen : (relabelTable f t).values.length = t.values.length := by simp [relabelTable]
    rw [hlen]
    split
    · rw [← relabelTable_setValue, ← relabel_put]
      rfl
    · rfl

theorem relabel_setNode : (relabel f st).setNode a (relabelNode f n) = (st.setNode a n).map (relabel f) := by
  unfold DmStore.setNode
  rw [relabel_heap]
  cases st.heap a with
  | none => rfl
  | some t =>
    simp only [Option.map_some, Option.bind_eq_bind, Option.bind_some, relabel_put]
    rfl

theorem relabel_value (l : Loc) : (relabel f st).value l = (st.value l).map f := by
  cases l with
  | slot a i => exact relabel_slot st a i
  | row a =>
    show ((relabel f st).node a).map RowNode.value = ((st.node a).map RowNode.value).map f
    rw [relabel_node, Option.map_map, Option.map_map]
    rfl

theorem relabel_setValue (l : Loc) : (relabel f st).setValue l (f v) = (st.setValue l v).map (relabel f) := by
  cases l with
  | slot a i => exact relabel_setSlot st a i v
  | row a =>
    show ((relabel f st).node a).bind _ = ((st.node a).bind _).map (relabel f)
    rw [relabel_node, Option.bind_map, Option.map_bind]
    cases st.node a with
    | none => rfl
    | some n => exact relabel_setNode st a { n with value := v }

/-! ## Lookups -/

variable (hf : Labels f)
include hf

theorem relabel_row : (relabel f st).row = st.row := by
  funext r
  unfold DmStore.row
  rw [relabel_node, Option.map_map]
  simp only [relabel_slot, Option.map_map, Function.comp_def, relabelNode, hf.content]

theorem relabel_tree : (relabel f st).tree a i = st.tree a i := by
  unfold DmStore.tree
  rw [relabel_slot]
  cases st.slot a i with
  | none => rfl
  | some v => simp only [Option.map_some, Option.bind_eq_bind, Option.bind_some, hf.content]

theorem relabel_instanceNode (t : Option ObjTree) (id : ℕ) :
    (relabel f st).instanceNode t id = st.instanceNode t id := by
  cases t with
  | none => rfl
  | some t =>
    show findInstance (relabel f st).fuel (relabel f st).row t.tree 0 .inst (.int id) 0 = _
    rw [relabel_row st hf]
    rfl

theorem relabel_elementRef (S : Schema) (n : ℕ) (sel : Selector) (kw : ℕ) (base : Base) (ref : Option Ref) :
    elementRef S (relabel f st) n sel kw base ref = elementRef S st n sel kw base ref := by
  have hassert (v : DmValue) : (f v).parityAssert = v.parityAssert := by
    unfold DmValue.parityAssert
    rw [hf.parity]
  induction n generalizing sel kw base ref with
  | zero => rfl
  | succ n ih =>
    cases sel with
    | nil => rfl
    | cons id sel =>
      unfold elementRef
      by_cases hid : id = 0
      · rw [if_pos hid, if_pos hid]
      rw [if_neg hid, if_neg hid]
      cases base with
      | object a i =>
        simp only [relabel_tree _ _ _ hf, relabel_instanceNode _ hf, relabel_value, Option.bind_eq_bind, Option.bind_map, ih,
          Function.comp_def, hassert, hf.content]
      | table a =>
        simp only [relabel_slot, relabel_tree _ _ _ hf, Option.bind_eq_bind, Option.bind_map, ih, Function.comp_def, hassert,
          hf.content]

theorem relabel_getElementRef (S : Schema) (sel : Selector) :
    (relabel f st).getElementRef S sel = st.getElementRef S sel :=
  relabel_elementRef st hf S dmSelectorLen sel S.root (.table st.root) none

end Access

end Mand.Store
