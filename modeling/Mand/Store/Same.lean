import Mand.Store.Relabel
import Mand.Store.Set

/-! # The same instances

Stores that differ in notification words and flags only. New rows and the indexes of a row come out the same in both. -/
namespace Mand.Store
open Mand.Index
set_option autoImplicit false

variable {S : Schema} {st st' : DmStore} {a i r : ℕ}

/-- The value without its notification word and flags. -/
def bare (v : DmValue) : DmValue := ⟨v.content, 0, Flags.zero, v.parity⟩

theorem bare_labels : Labels bare := ⟨fun _ => rfl, fun _ => rfl⟩

theorem bare_eq {v w : DmValue} : bare v = bare w ↔ v.content = w.content ∧ v.parity = w.parity := by
  simp [bare]

theorem relabelNode_bare_eq {n m : RowNode} : relabelNode bare n = relabelNode bare m ↔
    bare n.value = bare m.value ∧ n.inst = m.inst ∧ n.idm = m.idm ∧ n.root = m.root := by
  simp [relabelNode]

/-- Stores with the same tables, rows and contents, trees with their counts and indexes included. -/
def SameInstances (st st' : DmStore) : Prop := relabel bare st = relabel bare st'

namespace SameInstances

theorem refl (st : DmStore) : SameInstances st st := rfl

variable (h : SameInstances st st')
include h

/-! ## Reads -/

theorem next : st.next = st'.next := by
  have hnext : (relabel bare st).next = (relabel bare st').next := by rw [h]
  exact hnext

theorem fuel : st.fuel = st'.fuel := congrArg (· + 2) h.next

theorem slot (a i : ℕ) : (st.slot a i).map bare = (st'.slot a i).map bare := by
  rw [← relabel_slot, ← relabel_slot, h]

theorem node (a : ℕ) : (st.node a).map (relabelNode bare) = (st'.node a).map (relabelNode bare) := by
  rw [← relabel_node, ← relabel_node, h]

theorem row : st.row = st'.row := by
  rw [← relabel_row st bare_labels, ← relabel_row st' bare_labels, h]

theorem tree (a i : ℕ) : st.tree a i = st'.tree a i := by
  rw [← relabel_tree st a i bare_labels, ← relabel_tree st' a i bare_labels, h]

theorem instanceNode (t : Option ObjTree) (id : ℕ) : st.instanceNode t id = st'.instanceNode t id := by
  rw [← relabel_instanceNode st bare_labels, ← relabel_instanceNode st' bare_labels, h]

theorem getElementRef (S : Schema) (sel : Selector) : st.getElementRef S sel = st'.getElementRef S sel := by
  rw [← relabel_getElementRef st bare_labels, ← relabel_getElementRef st' bare_labels, h]

/-! ## Writes -/

theorem put (a : Addr) (t : VTable) : SameInstances (st.put a t) (st'.put a t) := by
  show relabel bare (st.put a t) = relabel bare (st'.put a t)
  rw [relabel_put, relabel_put, h]

theorem setSlot {v w : DmValue} (hvw : bare v = bare w) (a i : ℕ) :
    (st.setSlot a i v).map (relabel bare) = (st'.setSlot a i w).map (relabel bare) := by
  rw [← relabel_setSlot, ← relabel_setSlot, h, hvw]

theorem setNode {n m : RowNode} (hnm : relabelNode bare n = relabelNode bare m) (a : ℕ) :
    (st.setNode a n).map (relabel bare) = (st'.setNode a m).map (relabel bare) := by
  rw [← relabel_setNode, ← relabel_setNode, h, hnm]

end SameInstances

/-! ## Results that go with a store -/

def bareSnd {α : Type} (x : α × DmStore) : α × DmStore := (x.1, relabel bare x.2)

section Bind
variable {α β γ δ : Type} {k : α → γ} {m : β → δ}

/-- Computations that agree go on with agreeing ones. -/
theorem bind_same {x y : Option α} {F G : α → Option β} (h : x.map k = y.map k)
    (hFG : ∀ a b, k a = k b → (F a).map m = (G b).map m) : (x.bind F).map m = (y.bind G).map m := by
  cases x with
  | none =>
    cases y with
    | none => rfl
    | some b => cases h
  | some a =>
    cases y with
    | none => cases h
    | some b => exact hFG a b (Option.some.inj h)

theorem bind_same_snd {x y : Option (α × DmStore)} {F G : α × DmStore → Option β} (h : x.map bareSnd = y.map bareSnd)
    (hFG : ∀ p s t, SameInstances s t → (F (p, s)).map m = (G (p, t)).map m) : (x.bind F).map m = (y.bind G).map m := by
  refine bind_same h ?_
  rintro ⟨p, s⟩ ⟨q, t⟩ hst
  have hpq : p = q := congrArg Prod.fst hst
  rw [hpq]
  exact hFG q s t (congrArg Prod.snd hst)

/-- Both go on with the same value. -/
theorem bind_same_value {x : Option α} {F G : α → Option β} (hFG : ∀ a, (F a).map m = (G a).map m) :
    (x.bind F).map m = (x.bind G).map m := by
  cases x with
  | none => rfl
  | some a => exact hFG a

end Bind

/-! ## New tables -/

section Alloc
variable {alloc : ℕ → Selector → DmStore → Option (Addr × DmStore)}

theorem initContent_same
    (halloc : ∀ kw id st st', SameInstances st st' → (alloc kw id st).map bareSnd = (alloc kw id st').map bareSnd)
    (h : SameInstances st st') (elems : List DmElement) (a : Addr) (id : Selector) (e : DmElement) (i : ℕ) :
    (initContent S alloc elems a id e i st).map bareSnd = (initContent S alloc elems a id e i st').map bareSnd := by
  unfold initContent
  split
  · exact bind_same_snd (halloc _ _ _ _ h) fun p s t hst => congrArg (fun x => some (_, x)) hst
  · exact congrArg (fun x => some (_, x)) h
  · exact congrArg (fun x => some (_, x)) h

theorem initValues_same
    (halloc : ∀ kw id st st', SameInstances st st' → (alloc kw id st).map bareSnd = (alloc kw id st').map bareSnd)
    (h : SameInstances st st') (elems : List DmElement) (a : Addr) (id : Selector) (es : List DmElement) (i : ℕ) :
    (initValues S alloc elems a id es i st).map bareSnd = (initValues S alloc elems a id es i st').map bareSnd := by
  induction es generalizing i st st' with
  | nil => exact congrArg (fun x => some (_, x)) h
  | cons e es ih =>
    refine bind_same_snd (initContent_same halloc h elems a id e i) fun c s t hst => ?_
    exact bind_same_snd (ih hst (i + 1)) fun vs s' t' hst' => congrArg (fun x => some (_, x)) hst'

theorem allocTable_same (n kw : ℕ) (id : Selector) (h : SameInstances st st') :
    (allocTable S n kw id st).map bareSnd = (allocTable S n kw id st').map bareSnd := by
  induction n generalizing kw id st st' with
  | zero => rfl
  | succ n ih =>
    have hskip : SameInstances { st with next := st.next + 1 } { st' with next := st'.next + 1 } := by
      have hheap := congrArg DmStore.heap h
      have hroot := congrArg DmStore.root h
      exact relabel_ext (fun a => congrFun hheap a) (congrArg (· + 1) h.next) hroot
    simp only [allocTable, h.next] at hskip ⊢
    refine bind_same_snd (initValues_same (fun kw id _ _ hst => ih kw id hst) hskip _ _ _ _ _) fun vs s t hst => ?_
    exact congrArg (fun x => some (_, x)) (hst.put st'.next ⟨id, vs, none⟩)

theorem allocInstanceNode_same (kw : ℕ) (base : Selector) (inst : ℕ) (h : SameInstances st st') :
    (allocInstanceNode S kw base inst st).map bareSnd = (allocInstanceNode S kw base inst st').map bareSnd := by
  refine bind_same_snd (allocTable_same _ _ _ h) fun a s t hst => ?_
  exact bind_same (hst.setNode rfl a) fun s' t' hst' => congrArg (fun x => some (_, x)) hst'

end Alloc

/-! ## Rows -/

theorem addCounter_same (h : SameInstances st st') (cntr : Option (Addr × ℕ)) (d : ℕ) :
    (addCounter st cntr d).map (relabel bare) = (addCounter st' cntr d).map (relabel bare) := by
  cases cntr with
  | none => exact congrArg some h
  | some x =>
    obtain ⟨b, id⟩ := x
    refine bind_same (h.slot b (id - 1)) fun v w hvw => ?_
    obtain ⟨hcontent, hparity⟩ := bare_eq.mp hvw
    simp only [DmValue.parityAssert, hparity, hcontent]
    refine bind_same_value fun _ => ?_
    split
    · refine h.setSlot ?_ b (id - 1)
      exact bare_eq.mpr ⟨rfl, rfl⟩
    · rfl

theorem setTree_same (h : SameInstances st st') (a i : ℕ) (t : ObjTree) :
    (setTree st a i t).map (relabel bare) = (setTree st' a i t).map (relabel bare) := by
  refine bind_same (h.slot a i) fun v w hvw => ?_
  refine h.setSlot ?_ a i
  exact bare_eq.mpr ⟨rfl, (bare_eq.mp hvw).2⟩

theorem insertInstance_same (h : SameInstances st st') (a i r : ℕ) :
    (insertInstance st a i r).map (relabel bare) = (insertInstance st' a i r).map (relabel bare) := by
  simp only [insertInstance, h.tree, h.fuel, h.row]
  refine bind_same_value fun x => bind_same_value fun t => bind_same_value fun tree => ?_
  refine bind_same (h.node r) fun n m hnm => ?_
  obtain ⟨hvalue, hinst, hidm, -⟩ := relabelNode_bare_eq.mp hnm
  rw [hidm]
  refine bind_same (h.setNode ?_ r) fun s1 t1 h1 => ?_
  · exact relabelNode_bare_eq.mpr ⟨hvalue, hinst, rfl, rfl⟩
  exact bind_same (setTree_same h1 a i _) fun s2 t2 h2 => addCounter_same h2 t.cntr 1

theorem freeIdLoop_same (h : SameInstances st st') (ix : Idx Addr) (n id : ℕ) (elem : Option Addr) :
    freeIdLoop st ix n id elem = freeIdLoop st' ix n id elem := by
  induction n generalizing id elem with
  | zero => cases elem <;> rfl
  | succ n ih =>
    cases elem with
    | none => rfl
    | some elem => simp only [freeIdLoop, h.fuel, h.row, ih]

theorem newId_same (h : SameInstances st st') (t : ObjTree) (id : ℕ) : newId st t id = newId st' t id := by
  simp only [newId, h.instanceNode, freeIdLoop_same h, h.fuel]

theorem ensureTree_same (h : SameInstances st st') (e : DmElement) (a i : ℕ) :
    (ensureTree S st e a i).map (relabel bare) = (ensureTree S st' e a i).map (relabel bare) := by
  simp only [ensureTree, h.tree]
  refine bind_same_value fun x => ?_
  cases x with
  | none => exact setTree_same h a i _
  | some t => exact congrArg some h

/-- `dm_add_instance`. -/
theorem addInstance_same (h : SameInstances st st') (e : DmElement) (a i : ℕ) (basesel : Selector) (id : ℕ) :
    (addInstance S st e a i basesel id).map bareSnd = (addInstance S st' e a i basesel id).map bareSnd := by
  unfold addInstance
  split
  · exact congrArg (fun x => some (_, x)) h
  rw [h.getElementRef]
  refine bind_same_value fun x => ?_
  cases x with
  | none => exact congrArg (fun x => some (_, x)) h
  | some ref =>
    refine bind_same (ensureTree_same h e a i) fun s1 t1 (h1 : SameInstances s1 t1) => ?_
    rw [h1.tree]
    refine bind_same_value fun y => bind_same_value fun t => ?_
    split
    · exact congrArg (fun x => some (_, x)) h1
    rw [newId_same h1]
    refine bind_same_value fun id' => ?_
    refine bind_same_snd (allocInstanceNode_same _ _ _ h1) fun r s2 t2 h2 => ?_
    exact bind_same (insertInstance_same h2 a i r) fun s3 t3 h3 => congrArg (fun x => some (_, x)) h3

theorem addInstanceBySelector_same (h : SameInstances st st') (sel : Selector) (id : ℕ) :
    (addInstanceBySelector S st sel id).map bareSnd = (addInstanceBySelector S st' sel id).map bareSnd := by
  unfold addInstanceBySelector
  rw [h.getElementRef]
  refine bind_same_value fun x => ?_
  cases x with
  | none => exact congrArg (fun x => some (_, x)) h
  | some ref =>
    simp only
    split
    · exact congrArg (fun x => some (_, x)) h
    cases ref.value with
    | row b => rfl
    | slot a i =>
      refine bind_same_snd (addInstance_same h ref.elem a i sel id) fun r s1 t1 h1 => ?_
      cases r with
      | none => exact congrArg (fun x => some (_, x)) h1
      | some r =>
        refine bind_same (h1.node r) fun n m hnm => ?_
        obtain ⟨hvalue, hrest⟩ := relabelNode_bare_eq.mp hnm
        have hmark {v w : DmValue} (hvw : bare v = bare w) : bare (markUpdated v) = bare (markUpdated w) :=
          bare_eq.mpr ⟨(bare_eq.mp hvw).1, rfl⟩
        refine bind_same (h1.setNode ?_ r) fun s2 t2 h2 => ?_
        · exact relabelNode_bare_eq.mpr ⟨hmark hvalue, hrest⟩
        refine bind_same (SameInstances.slot h2 a i) fun v w hvw => ?_
        refine bind_same (SameInstances.setSlot h2 ?_ a i) fun s3 t3 h3 => congrArg (fun x => some (_, x)) h3
        exact hmark hvw

theorem updateInstanceNodeIndex_same (h : SameInstances st st') (r : ℕ) :
    (updateInstanceNodeIndex st r).map (relabel bare) = (updateInstanceNodeIndex st' r).map (relabel bare) := by
  refine bind_same (h.node r) fun n m hnm => ?_
  obtain ⟨-, -, -, hroot⟩ := relabelNode_bare_eq.mp hnm
  rw [hroot]
  split
  · exact congrArg some h
  · simp only [h.tree, h.fuel, h.row]
    exact bind_same_value fun x => bind_same_value fun t => bind_same_value fun tree => setTree_same h _ _ _

end Mand.Store
