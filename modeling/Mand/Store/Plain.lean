import Mand.Store.Relabel
import Mand.Store.Set

/-! # Marks that nobody reads

`DV_UPDATE_PENDING` taken off all values. Every operation on the store commutes with that, since only
the reads of the configure session look at the flag. -/
namespace Mand.Store
open Mand.Index
set_option autoImplicit false

def plainValue (v : DmValue) : DmValue := { v with flags := { v.flags with pending := false } }

def plainNode (n : RowNode) : RowNode := { n with value := plainValue n.value }

def plainTable (t : VTable) : VTable :=
  { t with values := t.values.map plainValue, node := t.node.map plainNode }

/-- The store without marks. -/
def plain (st : DmStore) : DmStore := { st with heap := fun a => (st.heap a).map plainTable }

/-! ## Reads and writes -/

section Access
variable (st : DmStore) (a i : ℕ) (t : VTable) (v : DmValue) (n : RowNode)

@[simp]
theorem plain_next : (plain st).next = st.next := rfl

@[simp]
theorem plain_root : (plain st).root = st.root := rfl

@[simp]
theorem plain_fuel : (plain st).fuel = st.fuel := rfl

@[simp]
theorem plainValue_content : (plainValue v).content = v.content := rfl

@[simp]
theorem plainValue_parity : (plainValue v).parity = v.parity := rfl

@[simp]
theorem plainValue_parityAssert : (plainValue v).parityAssert = v.parityAssert := rfl

@[simp]
theorem plainNode_value : (plainNode n).value = plainValue n.value := rfl

@[simp]
theorem plainNode_inst : (plainNode n).inst = n.inst := rfl

@[simp]
theorem plainNode_root : (plainNode n).root = n.root := rfl

@[simp]
theorem plainNode_idm : (plainNode n).idm = n.idm := rfl

theorem plain_heap : (plain st).heap a = (st.heap a).map plainTable := rfl

/-- Taking off marks is one way to write values over. -/
theorem plainValue_labels : Labels plainValue := ⟨fun _ => rfl, fun _ => rfl⟩

@[simp]
theorem plain_slot : (plain st).slot a i = (st.slot a i).map plainValue := relabel_slot st a i

@[simp]
theorem plain_node : (plain st).node a = (st.node a).map plainNode := relabel_node st a

theorem plain_ext {st st' : DmStore} (hheap : ∀ a, (st.heap a).map plainTable = st'.heap a)
    (hnext : st.next = st'.next) (hroot : st.root = st'.root) : plain st = st' := relabel_ext hheap hnext hroot

theorem plain_put : plain (st.put a t) = (plain st).put a (plainTable t) := relabel_put st a t

theorem plain_free : plain (st.free a) = (plain st).free a := relabel_free st a

theorem plain_setSlot : (plain st).setSlot a i (plainValue v) = (st.setSlot a i v).map plain := relabel_setSlot st a i v

theorem plain_setNode : (plain st).setNode a (plainNode n) = (st.setNode a n).map plain := relabel_setNode st a n

@[simp]
theorem plain_value (l : Loc) : (plain st).value l = (st.value l).map plainValue := relabel_value st l

theorem plain_setValue (l : Loc) : (plain st).setValue l (plainValue v) = (st.setValue l v).map plain :=
  relabel_setValue st v l

@[simp]
theorem plain_row : (plain st).row = st.row := relabel_row st plainValue_labels

@[simp]
theorem plain_tree : (plain st).tree a i = st.tree a i := relabel_tree st a i plainValue_labels

@[simp]
theorem plain_instanceNode (t : Option ObjTree) (id : ℕ) :
    (plain st).instanceNode t id = st.instanceNode t id := relabel_instanceNode st plainValue_labels t id

end Access

@[simp]
theorem plain_getElementRef (S : Schema) (st : DmStore) (sel : Selector) :
    (plain st).getElementRef S sel = st.getElementRef S sel := relabel_getElementRef st plainValue_labels S sel

/-! ## Tables and rows -/

/-- A result that goes with a store. -/
def plainSnd {α : Type} (x : α × DmStore) : α × DmStore := (x.1, plain x.2)

section Bind
variable {α β γ δ : Type} {o : Option α} {g : α → Option β} {k : β → δ}

/-- Two computations that read the same go on the same way. -/
theorem bind_plain {f : α → Option δ} (h : ∀ x, o = some x → f x = (g x).map k) :
    o.bind f = (o.bind g).map k := by
  cases o with
  | none => rfl
  | some x => exact h x rfl

/-- One of them reads without marks. -/
theorem map_bind_plain {m : α → γ} {f : γ → Option δ} (h : ∀ x, o = some x → f (m x) = (g x).map k) :
    (o.map m).bind f = (o.bind g).map k := by
  cases o with
  | none => rfl
  | some x => exact h x rfl

end Bind

section Alloc
variable (S : Schema) {alloc : ℕ → Selector → DmStore → Option (Addr × DmStore)}

theorem plain_initContent (halloc : ∀ kw id st, alloc kw id (plain st) = (alloc kw id st).map plainSnd)
    (elems : List DmElement) (a : Addr) (id : Selector) (e : DmElement) (i : ℕ) (st : DmStore) :
    initContent S alloc elems a id e i (plain st) = (initContent S alloc elems a id e i st).map plainSnd := by
  unfold initContent
  split
  · rw [halloc]
    exact map_bind_plain fun _ _ => rfl
  · rfl
  · rfl

theorem plain_initValues (halloc : ∀ kw id st, alloc kw id (plain st) = (alloc kw id st).map plainSnd)
    (elems : List DmElement) (a : Addr) (id : Selector) (es : List DmElement) (i : ℕ) (st : DmStore) :
    initValues S alloc elems a id es i (plain st) =
      (initValues S alloc elems a id es i st).map fun x => (x.1.map plainValue, plain x.2) := by
  induction es generalizing i st with
  | nil => rfl
  | cons e es ih =>
    simp only [initValues, plain_initContent S halloc]
    apply map_bind_plain
    intro x _
    show (initValues S alloc elems a id es (i + 1) (plain x.2)).bind _ = _
    rw [ih]
    exact map_bind_plain fun _ _ => rfl

theorem plain_allocTable (n kw : ℕ) (id : Selector) (st : DmStore) :
    allocTable S n kw id (plain st) = (allocTable S n kw id st).map plainSnd := by
  induction n generalizing kw id st with
  | zero => rfl
  | succ n ih =>
    have hvalues := plain_initValues S ih (S.table kw).elems st.next id (S.table kw).elems 0
      { st with next := st.next + 1 }
    have hskip : plain { st with next := st.next + 1 } = { plain st with next := st.next + 1 } := rfl
    rw [hskip] at hvalues
    simp only [allocTable, plain_next, hvalues]
    apply map_bind_plain
    intro x _
    show some (st.next, (plain x.2).put st.next ⟨id, x.1.map plainValue, none⟩) =
      some (st.next, plain (x.2.put st.next ⟨id, x.1, none⟩))
    rw [plain_put]
    rfl

theorem plain_allocInstanceNode (kw : ℕ) (base : Selector) (inst : ℕ) (st : DmStore) :
    allocInstanceNode S kw base inst (plain st) = (allocInstanceNode S kw base inst st).map plainSnd := by
  simp only [allocInstanceNode, plain_allocTable]
  apply map_bind_plain
  intro x _
  have hset := plain_setNode x.2 x.1 ⟨⟨.table (some x.1), 0, Flags.zero, true⟩, inst, 0, none⟩
  show ((plain x.2).setNode x.1 (plainNode ⟨⟨.table (some x.1), 0, Flags.zero, true⟩, inst, 0, none⟩)).bind _ = _
  rw [hset]
  exact map_bind_plain fun _ _ => rfl

end Alloc

section Rows
variable (S : Schema) (st : DmStore) (a i r : ℕ)

theorem plain_addCounter (cntr : Option (Addr × ℕ)) (d : ℕ) :
    addCounter (plain st) cntr d = (addCounter st cntr d).map plain := by
  cases cntr with
  | none => rfl
  | some x =>
    obtain ⟨b, id⟩ := x
    simp only [addCounter, plain_slot]
    apply map_bind_plain
    intro v _
    apply bind_plain
    intro u _
    simp only [plainValue_content]
    split
    · exact plain_setSlot st b (id - 1) { v with content := _ }
    · rfl

theorem plain_setTree (t : ObjTree) : setTree (plain st) a i t = (setTree st a i t).map plain := by
  simp only [setTree, plain_slot]
  exact map_bind_plain fun v _ => plain_setSlot st a i { v with content := .inst (some t) }

theorem plain_insertInstance : insertInstance (plain st) a i r = (insertInstance st a i r).map plain := by
  simp only [insertInstance, plain_tree, plain_fuel, plain_row, plain_node]
  apply bind_plain
  intro x _
  apply bind_plain
  intro t _
  apply bind_plain
  intro tree _
  apply map_bind_plain
  intro n _
  simp only [plainNode_idm]
  have hset := fun m => plain_setNode st r { n with root := some (a, i), idm := m }
  have hnode : ∀ m, { plainNode n with root := some (a, i), idm := m } =
      plainNode { n with root := some (a, i), idm := m } := fun _ => rfl
  rw [hnode, hset]
  apply map_bind_plain
  intro st1 _
  simp only [plain_setTree]
  exact map_bind_plain fun st2 _ => plain_addCounter st2 t.cntr 1

theorem plain_removeInstance : removeInstance (plain st) a i r = (removeInstance st a i r).map plain := by
  simp only [removeInstance, plain_tree, plain_fuel, plain_node]
  apply bind_plain
  intro x _
  apply bind_plain
  intro t _
  apply bind_plain
  intro tree _
  apply map_bind_plain
  intro n _
  apply bind_plain
  intro idMap _
  show ((plain st).setNode r (plainNode { n with root := none })).bind _ = _
  rw [plain_setNode]
  apply map_bind_plain
  intro st1 _
  simp only [plain_setTree]
  exact map_bind_plain fun st2 _ => plain_addCounter st2 t.cntr (2 ^ 32 - 1)

theorem plain_freeIdLoop (ix : Idx Addr) (n id : ℕ) (elem : Option Addr) :
    freeIdLoop (plain st) ix n id elem = freeIdLoop st ix n id elem := by
  induction n generalizing id elem with
  | zero => cases elem <;> rfl
  | succ n ih =>
    cases elem with
    | none => rfl
    | some elem => simp only [freeIdLoop, plain_fuel, plain_row, ih]

theorem plain_newId (t : ObjTree) (id : ℕ) : newId (plain st) t id = newId st t id := by
  simp only [newId, plain_instanceNode, plain_freeIdLoop, plain_fuel]

theorem plain_ensureTree (e : DmElement) : ensureTree S (plain st) e a i = (ensureTree S st e a i).map plain := by
  simp only [ensureTree, plain_tree]
  apply bind_plain
  intro x _
  cases x with
  | none => exact plain_setTree st a i _
  | some t => rfl

/-- `dm_add_instance`. -/
theorem plain_addInstance (e : DmElement) (basesel : Selector) (id : ℕ) :
    addInstance S (plain st) e a i basesel id = (addInstance S st e a i basesel id).map plainSnd := by
  unfold addInstance
  split
  · rfl
  rw [plain_getElementRef]
  apply bind_plain
  intro x _
  cases x with
  | none => rfl
  | some ref =>
    simp only [plain_ensureTree]
    apply map_bind_plain
    intro st1 _
    simp only [plain_tree]
    apply bind_plain
    intro y _
    apply bind_plain
    intro t _
    split
    · rfl
    rw [plain_newId]
    apply bind_plain
    intro id' _
    simp only [plain_allocInstanceNode]
    apply map_bind_plain
    intro z _
    obtain ⟨r, st2⟩ := z
    simp only [plainSnd, plain_insertInstance]
    exact map_bind_plain fun _ _ => rfl

theorem plain_markUpdated (v : DmValue) : plainValue (markUpdated v) = markUpdated (plainValue v) := rfl

theorem plain_addInstanceBySelector (sel : Selector) (id : ℕ) :
    addInstanceBySelector S (plain st) sel id = (addInstanceBySelector S st sel id).map plainSnd := by
  unfold addInstanceBySelector
  rw [plain_getElementRef]
  apply bind_plain
  intro x _
  cases x with
  | none => rfl
  | some ref =>
    simp only
    split
    · rfl
    cases ref.value with
    | row b => rfl
    | slot a i =>
      simp only [plain_addInstance]
      apply map_bind_plain
      intro y _
      obtain ⟨r, st1⟩ := y
      cases r with
      | none => rfl
      | some r =>
        simp only [plainSnd, plain_node]
        apply map_bind_plain
        intro n _
        have hnode : { plainNode n with value := markUpdated (plainNode n).value } =
            plainNode { n with value := markUpdated n.value } := rfl
        rw [hnode, plain_setNode]
        apply map_bind_plain
        intro st2 _
        simp only [plain_slot]
        apply map_bind_plain
        intro v _
        rw [← plain_markUpdated, plain_setSlot]
        exact map_bind_plain fun _ _ => rfl

end Rows

/-! ## Deletions -/

section Delete
variable (S : Schema) {del : ℕ → Addr → DmStore → Option DmStore}
variable (hdel : ∀ kw a st, del kw a (plain st) = (del kw a st).map plain)

include hdel

theorem plain_delInstance (e : DmElement) (a i r : ℕ) (st : DmStore) :
    delInstance del e a i r (plain st) = (delInstance del e a i r st).map plain := by
  simp only [delInstance, plain_node]
  apply map_bind_plain
  intro n _
  apply bind_plain
  intro u _
  rw [plain_removeInstance]
  apply map_bind_plain
  intro st1 _
  simp only [plain_node]
  apply map_bind_plain
  intro n1 _
  show ((plain st1).setNode r (plainNode { n1 with value := { n1.value with
    flags := { n1.value.flags with deleted := true }, parity := true } })).bind _ = _
  rw [plain_setNode]
  apply map_bind_plain
  intro st2 _
  simp only [hdel]
  apply map_bind_plain
  intro st3 _
  rw [Option.map_some, plain_free]

omit hdel in
theorem plain_instanceRoot (st : DmStore) (a i : ℕ) : instanceRoot (plain st) a i = instanceRoot st a i := by
  simp only [instanceRoot, plain_tree]

theorem plain_delObject (e : DmElement) (a i n : ℕ) (st : DmStore) :
    delObject del e a i n (plain st) = (delObject del e a i n st).map plain := by
  induction n generalizing st with
  | zero => rfl
  | succ n ih =>
    simp only [delObject, plain_instanceRoot]
    apply bind_plain
    intro x _
    cases x with
    | none => rfl
    | some r =>
      simp only [plain_delInstance hdel]
      exact map_bind_plain fun st1 _ => ih st1

theorem plain_delContent (e : DmElement) (a i : ℕ) (c : Content) (st : DmStore) :
    delContent del e a i c (plain st) = (delContent del e a i c st).map plain := by
  unfold delContent
  split
  · simp only [hdel]
    refine map_bind_plain fun st1 _ => ?_
    rw [Option.map_some, plain_free]
  · rfl
  · rfl
  · exact plain_delObject hdel e a i st.fuel st
  · rfl
  · rfl

theorem plain_delElement (e : DmElement) (a i : ℕ) (st : DmStore) :
    delElement del e a i (plain st) = (delElement del e a i st).map plain := by
  simp only [delElement, plain_slot]
  apply map_bind_plain
  intro v _
  apply bind_plain
  intro u _
  rw [plainValue_content, plain_delContent hdel]
  apply map_bind_plain
  intro st1 _
  simp only [plain_slot]
  apply map_bind_plain
  intro v1 _
  exact plain_setSlot st1 a i { v1 with content := freeValue e.type v1.content, parity := false }

theorem plain_delElements (elems : List DmElement) (a n : ℕ) (st : DmStore) :
    delElements del elems a n (plain st) = (delElements del elems a n st).map plain := by
  induction n generalizing st with
  | zero => rfl
  | succ n ih =>
    simp only [delElements]
    apply bind_plain
    intro e _
    simp only [plain_delElement hdel]
    exact map_bind_plain fun st1 _ => ih st1

omit hdel

theorem plain_delTable (n kw : ℕ) (a : Addr) (st : DmStore) :
    delTable S n kw a (plain st) = (delTable S n kw a st).map plain := by
  induction n generalizing kw a st with
  | zero => rfl
  | succ n ih => exact plain_delElements ih (S.table kw).elems a _ st

theorem plain_delRef (ref : Ref) (st : DmStore) : delRef S ref (plain st) = (delRef S ref st).map plain := by
  have hdel := plain_delTable S (ref.elem.table + 1)
  unfold delRef
  simp only
  split
  · exact plain_delInstance hdel ref.elem _ _ _ st
  · rfl
  · exact plain_delObject hdel ref.elem _ _ st.fuel st
  · rfl
  · exact plain_delElement hdel ref.elem _ _ st
  · rfl

theorem plain_delTableBySelector (st : DmStore) (sel : Selector) :
    delTableBySelector S (plain st) sel = (delTableBySelector S st sel).map plainSnd := by
  unfold delTableBySelector
  rw [plain_getElementRef]
  apply bind_plain
  intro x _
  cases x with
  | none => rfl
  | some ref =>
    simp only [plain_delRef]
    exact map_bind_plain fun _ _ => rfl

end Delete

/-! ## Writes -/

section Write
variable (undef : ℕ) (S : Schema) (st : DmStore)

theorem plain_setById (a id : ℕ) (v : Value) : setById (plain st) a id v = (setById st a id v).map plain := by
  simp only [setById, plain_slot]
  apply map_bind_plain
  intro old _
  apply bind_plain
  intro u _
  exact plain_setSlot st a (id - 1) { markUpdated old with content := .scalar v }

theorem plain_updateAddressNetmask (a read update : ℕ) :
    updateAddressNetmask undef (plain st) a read update =
      (updateAddressNetmask undef st a read update).map plain := by
  simp only [updateAddressNetmask, plain_slot]
  apply map_bind_plain
  intro v _
  apply bind_plain
  intro u _
  rw [plainValue_content]
  split
  · exact plain_setById st a update _
  · rfl

theorem plain_updateAddressPrefixlength (a : Addr) (s : Option (List ℕ)) (update : ℕ) :
    updateAddressPrefixlength undef (plain st) a s update =
      (updateAddressPrefixlength undef st a s update).map plain := by
  unfold updateAddressPrefixlength
  exact bind_plain fun _ _ => plain_setById st a update _

/-- A setter that assigns the whole value is given one without a mark. -/
theorem plain_hook (h : SetHook) (a : Addr) (l : Loc) (val : DmValue) (hval : plainValue val = val) :
    h.run undef (plain st) a l val = (h.run undef st a l val).map plainSnd := by
  have hset := plain_setValue st val l
  rw [hval] at hset
  cases h with
  | clockCurrentdatetime =>
    simp only [SetHook.run, hset]
    exact map_bind_plain fun _ _ => rfl
  | addressPrefixlength read update =>
    simp only [SetHook.run, hset]
    apply map_bind_plain
    intro st1 _
    simp only [plain_updateAddressNetmask]
    exact map_bind_plain fun _ _ => rfl
  | addressNetmask update =>
    simp only [SetHook.run]
    split
    · next s _ =>
      rw [plain_value]
      apply map_bind_plain
      intro old _
      apply bind_plain
      intro u _
      show ((plain st).setValue l (plainValue { old with content := .scalar (stringValue s) })).bind _ = _
      rw [plain_setValue]
      apply map_bind_plain
      intro st1 _
      simp only [plain_updateAddressPrefixlength]
      exact map_bind_plain fun _ _ => rfl
    · rfl

theorem plain_updateIndex (id : ℕ) (a : Addr) : updateIndex (plain st) id a = (updateIndex st id a).map plain := by
  simp only [updateIndex, plain_node]
  apply map_bind_plain
  intro n _
  rw [plainNode_root]
  split
  · rfl
  · simp only [plain_tree, plain_fuel, plain_row]
    apply bind_plain
    intro x _
    apply bind_plain
    intro t _
    apply bind_plain
    intro tree _
    exact plain_setTree st _ _ _

theorem plain_updateInstanceNodeIndex (a : Addr) :
    updateInstanceNodeIndex (plain st) a = (updateInstanceNodeIndex st a).map plain := by
  simp only [updateInstanceNodeIndex, plain_node]
  apply map_bind_plain
  intro n _
  rw [plainNode_root]
  split
  · rfl
  · simp only [plain_tree, plain_fuel, plain_row]
    apply bind_plain
    intro x _
    apply bind_plain
    intro t _
    apply bind_plain
    intro tree _
    exact plain_setTree st _ _ _

theorem plain_reindex (e : DmElement) (id : ℕ) (a : Addr) :
    reindex (plain st) e id a = (reindex st e id a).map plain := by
  unfold reindex
  split
  · exact plain_updateIndex st id a
  · rfl

theorem plain_assign (e : DmElement) (a : Addr) (l : Loc) (val : DmValue) (hval : plainValue val = val) :
    assign undef (plain st) e a l val = (assign undef st e a l val).map plainSnd := by
  unfold assign
  split
  · exact plain_hook undef st _ a l val hval
  · rw [plain_value]
    apply map_bind_plain
    intro old _
    show ((plain st).setValue l (plainValue { old with content := val.content })).bind _ = _
    rw [plain_setValue]
    exact map_bind_plain fun _ _ => rfl

theorem plain_overwriteValue (sel : Selector) (val : DmValue) (hval : plainValue val = val) :
    overwriteValue undef S (plain st) sel val = (overwriteValue undef S st sel val).map plainSnd := by
  unfold overwriteValue
  rw [plain_getElementRef]
  apply bind_plain
  intro x _
  cases x with
  | none => rfl
  | some ref =>
    cases hb : ref.base with
    | object a i => simp only [hb, Option.map_none]
    | table a =>
      simp only [hb, plain_value]
      apply map_bind_plain
      intro old _
      apply bind_plain
      intro u _
      rw [plain_assign undef st ref.elem a ref.value val hval]
      apply map_bind_plain
      intro y _
      obtain ⟨r, st1⟩ := y
      simp only [plainSnd, plain_value]
      apply map_bind_plain
      intro v _
      show ((plain st1).setValue ref.value (plainValue { v with parity := true })).bind _ = _
      rw [plain_setValue]
      apply map_bind_plain
      intro st2 _
      by_cases hr : r = .ok ∧ val.flags.updated = true
      · simp only [if_pos hr, plain_value]
        apply map_bind_plain
        intro w _
        rw [← plain_markUpdated, plain_setValue]
        apply map_bind_plain
        intro st3 _
        simp only [plain_reindex]
        exact map_bind_plain fun _ _ => rfl
      · rw [if_neg hr]
        exact if_neg hr

end Write

end Mand.Store
