import Mand.Store.Instance
import Mand.Lib.Inet

/-! # Writing a value

The setter functions of `dm_dmconfig.c` and `dm_overwrite_value`. -/
namespace Mand.Store
open Mand.Index
set_option autoImplicit false

/-- `DM_RESULT`. -/
inductive DmResult
  | ok
  | error
  | oom
  | invalidType
  | invalidValue
  | valueNotFound
  | fileNotFound
  deriving DecidableEq, Repr

/-- The value a client sets a leaf to: memory zeroed, then the member of the union. -/
def newValue (v : Value) : DmValue := ⟨.scalar v, 0, Flags.zero, true⟩

/-- `dm_set_string_value` keeps no empty string. -/
def stringValue (s : Option (List ℕ)) : Value :=
  match s with
  | some [] => .str none
  | s => .str s

/-- `dm_set_uint_by_id` and `dm_set_string_by_id`: a leaf of a table gets new contents and is marked
as updated. -/
def setById (st : DmStore) (a : Addr) (id : ℕ) (v : Value) : Option DmStore := do
  let old ← st.slot a (id - 1)
  old.parityAssert
  st.setSlot a (id - 1) { markUpdated old with content := .scalar v }

/-- `update_address_netmask`. A shift by 32 bits is not defined; `undef` is what it gives. -/
def updateAddressNetmask (undef : ℕ) (st : DmStore) (a : Addr) (read update : ℕ) : Option DmStore := do
  let v ← st.slot a (read - 1)
  v.parityAssert
  match v.content with
  | .scalar (.uint length) =>
    let mask :=
      if length = 0 then undef
      else if length < 32 then (2 ^ 32 - 1) * 2 ^ (32 - length) % 2 ^ 32
      else 2 ^ 32 - 1
    setById st a update (.str (some (Inet.ntop4 (Inet.ofHost mask))))
  | _ => none

/-- `update_address_prefixlength`. If the text is no address, the mask stays undefined. -/
def updateAddressPrefixlength (undef : ℕ) (st : DmStore) (a : Addr) (s : Option (List ℕ))
    (update : ℕ) : Option DmStore := do
  let s ← s
  let mask := ((Inet.pton4 s).map Inet.toHost).getD undef
  setById st a update (.uint (33 - Inet.ffs mask))

/-- `fkts.value.set`: a setter writes value `val` to the slot `l` of table `a`. Those that assign the
whole `DM_VALUE` take over the flags and the notify mask of `val` too. -/
def SetHook.run (undef : ℕ) (st : DmStore) (h : SetHook) (a : Addr) (l : Loc) (val : DmValue) :
    Option (DmResult × DmStore) :=
  match h with
  | .clockCurrentdatetime => do
    let st ← st.setValue l val
    some (.ok, st)
  | .addressPrefixlength read update => do
    let st ← st.setValue l val
    let st ← updateAddressNetmask undef st a read update
    some (.ok, st)
  | .addressNetmask update =>
    match val.content with
    | .scalar (.str s) => do
      let old ← st.value l
      old.parityAssert
      let st ← st.setValue l { old with content := .scalar (stringValue s) }
      let st ← updateAddressPrefixlength undef st a s update
      some (.ok, st)
    | _ => some (.invalidType, st)

/-- `update_index` for the row whose table is at `a`. -/
def updateIndex (st : DmStore) (id : ℕ) (a : Addr) : Option DmStore := do
  let n ← st.node a
  match n.root with
  | none => some st
  | some (b, i) => do
    let t ← (← st.tree b i)
    let tree ← t.tree.updateIndex st.fuel st.row id a
    setTree st b i { t with tree := tree }

/-- `update_instance_node_index`. -/
def updateInstanceNodeIndex (st : DmStore) (a : Addr) : Option DmStore := do
  let n ← st.node a
  match n.root with
  | none => some st
  | some (b, i) => do
    let t ← (← st.tree b i)
    let tree ← t.tree.updateAll st.fuel st.row a
    setTree st b i { t with tree := tree }

/-- The index of a column that is one (`F_INDEX`). -/
def reindex (st : DmStore) (e : DmElement) (id : ℕ) (a : Addr) : Option DmStore :=
  if e.flags.index = true then updateIndex st id a else some st

/-- The setter of an element, or a copy of the union. -/
def assign (undef : ℕ) (st : DmStore) (e : DmElement) (a : Addr) (l : Loc) (val : DmValue) :
    Option (DmResult × DmStore) :=
  match e.set with
  | some h => h.run undef st a l val
  | none => do
    let old ← st.value l
    let st ← st.setValue l { old with content := val.content }
    some (.ok, st)

/-- `dm_overwrite_any_value_by_selector` with the type of the element, and `value_update_action`. -/
def overwriteValue (undef : ℕ) (S : Schema) (st : DmStore) (sel : Selector) (val : DmValue) :
    Option (DmResult × DmStore) := do
  match ← st.getElementRef S sel with
  | none => some (.valueNotFound, st)
  | some ref =>
    match ref.base with
    | .object _ _ => none
    | .table a => do
      let old ← st.value ref.value
      old.parityAssert
      let (r, st) ← assign undef st ref.elem a ref.value val
      let v ← st.value ref.value
      let st ← st.setValue ref.value { v with parity := true }
      if r = .ok ∧ val.flags.updated = true then do
        let v ← st.value ref.value
        let st ← st.setValue ref.value (markUpdated v)
        let st ← reindex st ref.elem ref.id a
        some (r, st)
      else some (r, st)

end Mand.Store
