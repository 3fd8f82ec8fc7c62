import Mand.Notify.Queue
import Mand.Save.Walk

/-! # Notify levels

The level that a slot has in a `DM_VALUE`, and the functions that set it: for one value, for all that
hangs below a selector, and for the whole store when a slot is freed. -/
namespace Mand.Notify
open Mand.Store Mand.Index Mand.Msg Mand.Server Mand.Save
set_option autoImplicit false

/-! ## One value -/

/-- `(n & ~(3 << slot * 2)) | ((level & 3) << slot * 2)`. -/
def setLevel (n slot level : ℕ) : ℕ :=
  n / 4 ^ (slot + 1) * 4 ^ (slot + 1) + level % 4 * 4 ^ slot + n % 4 ^ slot

/-- `notify_is_valid`. -/
def notifyIsValid (e : DmElement) (ntfy : ℕ) : Bool :=
  !(e.flags.acsNotify && ntfy != activeNotify) && !(e.flags.acsNoNotify && activeNotify ≤ ntfy)

/-- `set_notify_single_slot_element`. -/
def setNotifySingleSlotElement (e : DmElement) (slot ntfy : ℕ) (v : DmValue) : DmResult × DmValue :=
  let n := setLevel v.notify slot ntfy
  if slot = 0 then
    if notifyIsValid e (levelOf n 0) = false then (.invalidValue, v)
    else (.ok, { v with
      notify := n
      flags := { v.flags with notify := notifyDefault e != levelOf n 0 }
      parity := true })
  else (.ok, { v with notify := n, parity := true })

/-- `notify &= mask`. -/
def resetNotify (slot : ℕ) (v : DmValue) : DmValue := { v with notify := setLevel v.notify slot 0, parity := true }

/-- Rewrite a value where it stands. -/
def modifyValue (st : DmStore) (l : Loc) (f : DmValue → DmValue) : Option DmStore := do
  let v ← st.value l
  st.setValue l (f v)

/-! ## Walks -/

section Walk
variable (rows : Bool) (on : DmElement → DmValue → DmValue) (walk : ℕ → Addr → DmStore → Option DmStore)

/-- The node of a row, unless the walk passes over it. -/
def notifyRow (e : DmElement) (r : Addr) (st : DmStore) : Option DmStore :=
  if rows = true then modifyValue st (.row r) (on e) else some st

/-- The loop over the rows of an object. -/
def notifyRows (e : DmElement) : List Addr → DmStore → Option DmStore
  | [], st => some st
  | r :: rs, st => do
    let st ← notifyRow rows on e r st
    let n ← st.node r
    match n.value.content with
    | .table (some b) => do
      let st ← walk e.table b st
      notifyRows e rs st
    | .table none => notifyRows e rs st
    | _ => none

/-- What hangs in a slot. -/
def notifyContent (e : DmElement) (c : Content) (st : DmStore) : Option DmStore :=
  match e.type, c with
  | .token, .table (some b) => walk e.table b st
  | .token, .table none => some st
  | .token, _ => none
  | .object, .inst t => do
    let rs ← instanceRows st.fuel t
    notifyRows rows on walk e rs st
  | .object, _ => none
  | _, _ => some st

/-- What hangs in a slot, and then the slot itself. -/
def notifyElement (e : DmElement) (a : Addr) (i : ℕ) (st : DmStore) : Option DmStore := do
  let v ← st.slot a i
  let st ← notifyContent rows on walk e v.content st
  modifyValue st (.slot a i) (on e)

/-- The loop over the elements of a table from number `i` on. -/
def notifyElements (a : Addr) : List DmElement → ℕ → DmStore → Option DmStore
  | [], _, st => some st
  | e :: rest, i, st => do
    let st ← notifyElement rows on walk e a i st
    notifyElements a rest (i + 1) st

end Walk

/-- A walk through a table, with `on` for every value and with or without the nodes of the rows. The
number of a table bounds the depth below it. -/
def notifyTable (rows : Bool) (on : DmElement → DmValue → DmValue) (S : Schema) :
    ℕ → ℕ → Addr → DmStore → Option DmStore
  | 0, _, _, _ => none
  | n + 1, kw, a, st => notifyElements rows on (notifyTable rows on S n) a (S.table kw).elems 0 st

/-- `reset_notify_table`. The rows of an object are entered, their nodes are left as they are. -/
def resetNotifyTable (S : Schema) (slot kw : ℕ) (a : Addr) (st : DmStore) : Option DmStore :=
  notifyTable false (fun _ => resetNotify slot) S (kw + 1) kw a st

/-- `dm_reset_notify_slot`. -/
def dmResetNotifySlot (S : Schema) (slot : ℕ) (st : DmStore) : Option DmStore :=
  resetNotifyTable S slot S.root st.root st

/-- What `set_notify_slot_table` does with a value; the result is not looked at. -/
def setNotifySlotValue (slot ntfy : ℕ) (e : DmElement) (v : DmValue) : DmValue :=
  (setNotifySingleSlotElement e slot ntfy v).2

/-- `set_notify_slot_table`. -/
def setNotifySlotTable (S : Schema) (slot ntfy kw : ℕ) (a : Addr) (st : DmStore) : Option DmStore :=
  notifyTable true (setNotifySlotValue slot ntfy) S (kw + 1) kw a st

/-- `set_notify_slot_object`. -/
def setNotifySlotObject (S : Schema) (slot ntfy : ℕ) (e : DmElement) (t : Option ObjTree) (st : DmStore) :
    Option DmStore := do
  let rs ← instanceRows st.fuel t
  notifyRows true (setNotifySlotValue slot ntfy) (notifyTable true (setNotifySlotValue slot ntfy) S (e.table + 1))
    e rs st

/-! ## Selectors -/

/-- `dm_set_notify_by_selector`. -/
def dmSetNotifyBySelector (S : Schema) (st : DmStore) (sel : Selector) (slot value : ℕ) :
    Option (DmResult × DmStore) := do
  match ← st.getElementRef S sel with
  | none => some (.valueNotFound, st)
  | some ref =>
    if ref.elem.type = .token then some (.invalidType, st)
    else do
      let v ← st.value ref.value
      let (res, v) := setNotifySingleSlotElement ref.elem slot value v
      let st ← st.setValue ref.value v
      some (res, st)

/-- What `dm_set_notify_by_selector_recursive` does below a container. -/
def setNotifyBelow (S : Schema) (st : DmStore) (ref : Ref) (slot value : ℕ) : Option DmStore := do
  let v ← st.value ref.value
  match ref.elem.type, ref.stType, v.content with
  | .token, _, .table none => some st
  | .token, _, .table (some b) => setNotifySlotTable S slot value ref.elem.table b st
  | .object, .object, .inst t => do
    let st ← modifyValue st ref.value (setNotifySlotValue slot value ref.elem)
    setNotifySlotObject S slot value ref.elem t st
  | .object, _, .table (some b) => do
    let st ← modifyValue st ref.value (setNotifySlotValue slot value ref.elem)
    setNotifySlotTable S slot value ref.elem.table b st
  | .object, _, .table none => modifyValue st ref.value (setNotifySlotValue slot value ref.elem)
  | _, _, _ => none

/-- `dm_set_notify_by_selector_recursive`. -/
def dmSetNotifyBySelectorRecursive (S : Schema) (st : DmStore) (sel : Selector) (slot value : ℕ) :
    Option (DmResult × DmStore) := do
  match ← st.getElementRef S sel with
  | none => some (.valueNotFound, st)
  | some ref =>
    if ref.elem.container = false then some (.invalidType, st)
    else do
      let st ← setNotifyBelow S st ref slot value
      some (.ok, st)

/-! ## Requests -/

/-- The loop of `rpc_param_notify` over its paths. -/
def paramNotifyLoop (S : Schema) (slot level : ℕ) : List Selector → DmStore → Option (Rc × DmStore)
  | [], st => some (.ok, st)
  | sel :: path, st => do
    match ← dmSetNotifyBySelector S st sel slot level with
    | (.ok, st) => paramNotifyLoop S slot level path st
    | (_, st) => some (.errMisc, st)

/-- `rpc_param_notify`. `slot` is the slot of the context, zero if it has none. -/
def rpcParamNotify (S : Schema) (slot notify : ℕ) (path : List Selector) (st : DmStore) :
    Option (Rc × DmStore) :=
  if slot = 0 then some (.errRequiresNotify, st)
  else paramNotifyLoop S slot (if notify ≠ 0 then activeNotify else passiveNotify) path st

/-- `rpc_recursive_param_notify`. -/
def rpcRecursiveParamNotify (S : Schema) (slot notify : ℕ) (path : Selector) (st : DmStore) :
    Option (Rc × DmStore) :=
  if slot = 0 then some (.errRequiresNotify, st)
  else do
    match ← dmSetNotifyBySelectorRecursive S st path slot notify with
    | (.ok, st) => some (.ok, st)
    | (_, st) => some (.errMisc, st)

/-- `free_slot`. -/
def freeSlotIn (S : Schema) (n : Notifier) (slot : ℤ) (st : DmStore) : Option (Notifier × DmStore) :=
  if slot < 1 ∨ 15 < slot then some (n, st)
  else if n.slots.map.getLsbD slot.toNat = false then some (n, st)
  else do
    let st ← dmResetNotifySlot S slot.toNat st
    some (freeNotifySlot n slot, st)

end Mand.Notify
