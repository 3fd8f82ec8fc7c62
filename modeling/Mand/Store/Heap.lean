import Mand.Store.Schema

/-! # The store

Value tables in memory. A table is known by its address and a row of a table by the address of its
values, which stand directly behind its node. Functions answer `none` where the program would abort
or touch memory that is not allocated. -/
namespace Mand.Store
open Mand.Index
set_option autoImplicit false

abbrev Addr := ℕ

/-- The flags of a value: `DV_NOTIFY`, `DV_UPDATE_PENDING`, `DV_UPDATED` and `DV_DELETED`. -/
structure Flags where
  notify : Bool
  pending : Bool
  updated : Bool
  deleted : Bool
  deriving DecidableEq, Repr

def Flags.zero : Flags := ⟨false, false, false, false⟩

/-- `struct dm_instance_tree`: the indexes, the counter that follows the number of rows, and the map
of the small ids in use. -/
structure ObjTree where
  tree : InstTree Addr
  cntr : Option (Addr × ℕ)
  idMap : Option (List Bool)

/-- The union of a `DM_VALUE`: a leaf, a `T_TOKEN` or a `T_OBJECT`. -/
inductive Content
  | scalar (v : Value)
  | table (a : Option Addr)
  | inst (t : Option ObjTree)

/-- `DM_VALUE`; `parity` tells whether the parity word fits the rest. -/
structure DmValue where
  content : Content
  notify : ℕ
  flags : Flags
  parity : Bool

/-- `struct dm_instance_node`. The tree in `root` is known by the slot it hangs in. -/
structure RowNode where
  value : DmValue
  inst : ℕ
  idm : ℕ
  root : Option (Addr × ℕ)

/-- `struct dm_value_table`, with the node before it if it is a row. The source keeps the first 16 ids
of `id` that are not zero. -/
structure VTable where
  id : Selector
  values : List DmValue
  node : Option RowNode

structure DmStore where
  heap : Addr → Option VTable
  next : Addr
  root : Addr

/-- Where a `DM_VALUE` stands: in a table, or in the node of a row. -/
inductive Loc
  | slot (a : Addr) (i : ℕ)
  | row (a : Addr)
  deriving DecidableEq, Repr

/-- What `st_base` points to: a table, or the `struct dm_instance` in a slot. -/
inductive Base
  | table (a : Addr)
  | object (a : Addr) (i : ℕ)
  deriving DecidableEq, Repr

/-- The value of a leaf. -/
def leafValue : Option Content → Value
  | some (.scalar v) => v
  | _ => .int 0

def VTable.setValue (t : VTable) (i : ℕ) (v : DmValue) : VTable := { t with values := t.values.set i v }

namespace DmStore

def put (st : DmStore) (a : Addr) (t : VTable) : DmStore :=
  { st with heap := Function.update st.heap a (some t) }

def free (st : DmStore) (a : Addr) : DmStore := { st with heap := Function.update st.heap a none }

def slot (st : DmStore) (a : Addr) (i : ℕ) : Option DmValue := do
  let t ← st.heap a
  t.values[i]?

def setSlot (st : DmStore) (a : Addr) (i : ℕ) (v : DmValue) : Option DmStore := do
  let t ← st.heap a
  if i < t.values.length then some (st.put a (t.setValue i v)) else none

def setNode (st : DmStore) (a : Addr) (n : RowNode) : Option DmStore := do
  let t ← st.heap a
  some (st.put a { t with node := some n })

def node (st : DmStore) (a : Addr) : Option RowNode := do
  let t ← st.heap a
  t.node

/-- The value at a location. -/
def value (st : DmStore) : Loc → Option DmValue
  | .slot a i => st.slot a i
  | .row a => (st.node a).map RowNode.value

def setValue (st : DmStore) (l : Loc) (v : DmValue) : Option DmStore :=
  match l with
  | .slot a i => st.setSlot a i v
  | .row a => do
    let n ← st.node a
    st.setNode a { n with value := v }

/-- What the indexes see of a row. -/
def row (st : DmStore) (a : Addr) : Row where
  inst := ((st.node a).map RowNode.inst).getD 0
  value := fun id => leafValue ((st.slot a (id - 1)).map DmValue.content)
  pos := a

/-- No loop over the rows of a tree runs longer. -/
def fuel (st : DmStore) : ℕ := st.next + 2

/-- `DM_INSTANCE`: the tree in a slot. -/
def tree (st : DmStore) (a : Addr) (i : ℕ) : Option (Option ObjTree) := do
  match (← st.slot a i).content with
  | .inst t => some t
  | _ => none

/-- `dm_get_instance_node_by_id`. -/
def instanceNode (st : DmStore) (t : Option ObjTree) (id : ℕ) : Option (Option Addr) :=
  match t with
  | some t => findInstance st.fuel st.row t.tree 0 .inst (.int id) 0
  | none => some none

end DmStore

/-- `DM_parity_assert`. -/
def DmValue.parityAssert (v : DmValue) : Option Unit := if v.parity = true then some () else none

/-- `struct dm_element_ref`. -/
structure Ref where
  id : ℕ
  elem : DmElement
  stType : DmType
  base : Base
  value : Loc
  deriving DecidableEq, Repr

/-- The loop of `dm_get_element_ref`, with the number of ids that are left of the sixteen. The last
argument is what the loop found so far; a leaf keeps the `st_type` of what is before it. -/
def elementRef (S : Schema) (st : DmStore) :
    ℕ → Selector → ℕ → Base → Option Ref → Option (Option Ref)
  | 0, _, _, _, _ => none
  | _ + 1, [], _, _, ref => some ref
  | n + 1, id :: sel, kw, base, ref =>
    if id = 0 then some ref
    else match base with
      | .object a i => do
        let t ← st.tree a i
        match ← st.instanceNode t id with
        | none => some none
        | some r =>
          let e ← ref.map Ref.elem
          let v ← st.value (.row r)
          v.parityAssert
          match v.content with
          | .table (some b) => elementRef S st n sel kw (.table b) (some ⟨id, e, .inst, base, .row r⟩)
          | .table none => some none
          | _ => none
      | .table a => do
        let e ← (S.table kw).elems[id - 1]?
        let v ← st.slot a (id - 1)
        v.parityAssert
        match e.type with
        | .token =>
          match v.content with
          | .table (some b) =>
            elementRef S st n sel e.table (.table b) (some ⟨id, e, .token, base, .slot a (id - 1)⟩)
          | .table none => some none
          | _ => none
        | .object => do
          let _ ← st.tree a (id - 1)
          elementRef S st n sel e.table (.object a (id - 1))
            (some ⟨id, e, .object, base, .slot a (id - 1)⟩)
        | _ => some (some ⟨id, e, (ref.map Ref.stType).getD .token, base, .slot a (id - 1)⟩)

/-- `dm_get_element_ref`. -/
def DmStore.getElementRef (S : Schema) (st : DmStore) (sel : Selector) : Option (Option Ref) :=
  elementRef S st dmSelectorLen sel S.root (.table st.root) none

end Mand.Store
