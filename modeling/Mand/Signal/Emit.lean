import Mand.Action.Chain
import Mand.Notify.Queue
import Mand.Server.Session

/-! # What the operations of the store report

The operations of the store and the handlers above them once more, with the calls of `notify_sel` and
`action_sel` that they make on the way, in order. -/
namespace Mand.Signal
open Mand.Store Mand.Index Mand.Msg Mand.Server Mand.Notify Mand.Action
set_option autoImplicit false

/-- A call of `notify_sel` or `action_sel`; `notify` and `action` make one for a longer selector. -/
inductive Signal
  | notify (slot : ℤ) (sel : Selector) (value : DmValue) (type : NotifyType)
  | action (action : ℕ) (sel : Selector) (type : ActionType)

/-- A result, and the calls made for it. -/
abbrev Emits (α : Type) := α × List Signal

/-! ## Values -/

/-- The field that a setter writes besides its own, and for which it calls `notify` with slot -1. -/
def SetHook.derived (h : SetHook) (val : DmValue) : Option ℕ :=
  match h with
  | .clockCurrentdatetime => none
  | .addressPrefixlength _ update => some update
  | .addressNetmask update =>
    match val.content with
    | .scalar (.str _) => some update
    | _ => none

def derivedField (e : DmElement) (val : DmValue) : Option ℕ := e.set.bind fun h => SetHook.derived h val

/-- The `id` of a table. -/
def tableId (st : DmStore) (a : Addr) : Selector := ((st.heap a).map VTable.id).getD []

/-- `notify_sel` for the value at `l`. -/
def notifyAt (st : DmStore) (slot : ℤ) (sel : Selector) (l : Loc) (type : NotifyType) : List Signal :=
  (st.value l).toList.map fun v => .notify slot sel v type

/-- `__DM_NOTIFY_BY_ID` is the last thing a setter does. -/
def derivedSignals (st : DmStore) (e : DmElement) (a : Addr) (val : DmValue) : List Signal :=
  match derivedField e val with
  | none => []
  | some id => notifyAt st (-1) (dmSelcat (tableId st a) id) (.slot a (id - 1)) .change

/-- A value is assigned. -/
def assign (undef : ℕ) (st : DmStore) (e : DmElement) (a : Addr) (l : Loc) (val : DmValue) :
    Option (Emits (DmResult × DmStore)) := do
  let (r, st) ← Store.assign undef st e a l val
  some ((r, st), derivedSignals st e a val)

/-- `dm_overwrite_any_value_by_selector` and `value_update_action`. -/
def overwriteValue (undef : ℕ) (S : Schema) (st : DmStore) (sel : Selector) (val : DmValue) (slot : ℤ) :
    Option (Emits (DmResult × DmStore)) := do
  match ← st.getElementRef S sel with
  | none => some ((.valueNotFound, st), [])
  | some ref =>
    match ref.base with
    | .object _ _ => none
    | .table a => do
      let old ← st.value ref.value
      old.parityAssert
      let ((r, st), sigs) ← assign undef st ref.elem a ref.value val
      let v ← st.value ref.value
      let st ← st.setValue ref.value { v with parity := true }
      if r = .ok ∧ val.flags.updated = true then do
        let v ← st.value ref.value
        let st ← st.setValue ref.value (markUpdated v)
        let st ← reindex st ref.elem ref.id a
        let path := dmSelcat (tableId st a) ref.id
        some ((r, st), sigs ++ notifyAt st slot path ref.value .change ++ [.action ref.elem.action path .change])
      else some ((r, st), sigs)

/-- One round of `cache_apply`. -/
def applyItem (env : Env) (slot : ℤ) (st : DmStore) (item : CacheItem) : Option (Emits DmStore) :=
  match item.base with
  | .object _ _ => none
  | .table a => do
    let ((_, st), sigs) ← assign env.undef st item.elem a item.oldValue item.newValue
    let v ← st.value item.oldValue
    let st ← st.setValue item.oldValue (markUpdated (setPending false v))
    let st ← reindex st item.elem item.id a
    some (st, sigs ++ notifyAt st slot item.sb item.oldValue .change ++ [.action item.elem.action item.sb .change])

/-- `cache_apply`. -/
def cacheApply (env : Env) (slot : ℤ) (st : DmStore) : List CacheItem → Option (Emits DmStore)
  | [] => some (st, [])
  | item :: rest => do
    let (st, sigs) ← applyItem env slot st item
    let (st, sigs') ← cacheApply env slot st rest
    some (st, sigs ++ sigs')

/-! ## Rows -/

/-- The `notify` of `dm_add_instance`, which reads the object once the row is in it. -/
def addSignals (S : Schema) (st st' : DmStore) (basesel : Selector) : Option Addr → List Signal
  | none => []
  | some r =>
    match st.getElementRef S basesel, st'.node r with
    | some (some baseref), some n => notifyAt st' (-1) (dmSelcat basesel n.inst) baseref.value .add
    | _, _ => []

/-- `dm_add_instance`. -/
def addInstance (S : Schema) (st : DmStore) (e : DmElement) (a : Addr) (i : ℕ) (basesel : Selector) (id : ℕ) :
    Option (Emits (Option Addr × DmStore)) := do
  let (r, st') ← Store.addInstance S st e a i basesel id
  some ((r, st'), addSignals S st st' basesel r)

/-- `dm_add_instance_by_selector`. -/
def addInstanceBySelector (S : Schema) (st : DmStore) (sel : Selector) (id : ℕ) :
    Option (Emits (Option Addr × DmStore)) := do
  match ← st.getElementRef S sel with
  | none => some ((none, st), [])
  | some ref =>
    if ref.stType ≠ .object then some ((none, st), [])
    else match ref.value with
      | .slot a i => do
        let ((r, st), sigs) ← addInstance S st ref.elem a i sel id
        match r with
        | none => some ((none, st), sigs)
        | some r => do
          let n ← st.node r
          let st ← st.setNode r { n with value := markUpdated n.value }
          let v ← st.slot a i
          let st ← st.setSlot a i (markUpdated v)
          some ((some r, st), sigs)
      | .row _ => none

section Delete
variable (del : ℕ → Addr → DmStore → Option (Emits DmStore))

/-- `dm_del_instance`. -/
def delInstance (e : DmElement) (a : Addr) (i : ℕ) (r : Addr) (st : DmStore) : Option (Emits DmStore) := do
  let n ← st.node r
  n.value.parityAssert
  let st ← removeInstance st a i r
  let n ← st.node r
  let v := { n.value with flags := { n.value.flags with deleted := true }, parity := true }
  let st ← st.setNode r { n with value := v }
  let path := tableId st r
  let (st, sigs) ← del e.table r st
  some (st.free r, [.notify (-1) path v .del, .action e.action path .del] ++ sigs)

/-- `dm_del_object`. -/
def delObject (e : DmElement) (a : Addr) (i : ℕ) : ℕ → DmStore → Option (Emits DmStore)
  | 0, _ => none
  | n + 1, st => do
    match ← instanceRoot st a i with
    | none => some (st, [])
    | some r => do
      let (st, sigs) ← delInstance del e a i r st
      let (st, sigs') ← delObject e a i n st
      some (st, sigs ++ sigs')

def delContent (e : DmElement) (a : Addr) (i : ℕ) (c : Content) (st : DmStore) : Option (Emits DmStore) :=
  match e.type, c with
  | .token, .table (some b) => do
    let (st, sigs) ← del e.table b st
    some (st.free b, sigs)
  | .token, .table none => some (st, [])
  | .token, _ => none
  | .object, .inst (some _) => delObject del e a i st.fuel st
  | .object, _ => none
  | _, _ => some (st, [])

/-- `dm_del_element`. -/
def delElement (e : DmElement) (a : Addr) (i : ℕ) (st : DmStore) : Option (Emits DmStore) := do
  let v ← st.slot a i
  v.parityAssert
  let (st, sigs) ← delContent del e a i v.content st
  let v ← st.slot a i
  let st ← st.setSlot a i { v with content := freeValue e.type v.content, parity := false }
  some (st, sigs)

/-- The loop of `dm_del_table`. -/
def delElements (elems : List DmElement) (a : Addr) : ℕ → DmStore → Option (Emits DmStore)
  | 0, st => some (st, [])
  | i + 1, st => do
    let e ← elems[i]?
    let (st, sigs) ← delElement del e a i st
    let path := dmSelcat (tableId st a) (i + 1)
    let (st, sigs') ← delElements elems a i st
    some (st, sigs ++ [.action e.action path .del] ++ sigs')

end Delete

/-- `dm_del_table`. -/
def delTable (S : Schema) : ℕ → ℕ → Addr → DmStore → Option (Emits DmStore)
  | 0, _, _, _ => none
  | n + 1, kw, a, st => delElements (delTable S n) (S.table kw).elems a (S.table kw).elems.length st

/-- The call of `action` behind the deletion of what stands in a slot. -/
def actionDel (ref : Ref) (a : Addr) (x : Option (Emits DmStore)) : Option (Emits DmStore) := do
  let (st, sigs) ← x
  some (st, sigs ++ [.action ref.elem.action (dmSelcat (tableId st a) ref.id) .del])

/-- Delete what a selector refers to. -/
def delRef (S : Schema) (ref : Ref) (st : DmStore) : Option (Emits DmStore) :=
  let del := delTable S (ref.elem.table + 1)
  match ref.stType, ref.base, ref.value with
  | .inst, .object a i, .row r => delInstance del ref.elem a i r st
  | .inst, _, _ => none
  | .object, _, .slot a i => actionDel ref a (delObject del ref.elem a i st.fuel st)
  | .object, _, .row _ => none
  | _, _, .slot a i => actionDel ref a (delElement del ref.elem a i st)
  | _, _, .row _ => none

/-- `dm_del_table_by_selector`. -/
def delTableBySelector (S : Schema) (st : DmStore) (sel : Selector) : Option (Emits (Bool × DmStore)) := do
  match ← st.getElementRef S sel with
  | none => some ((false, st), [])
  | some ref => do
    let (st, sigs) ← delRef S ref st
    some ((true, st), sigs)

/-! ## Sets -/

/-- The loops of `dmconfig_set_array_cb`. -/
def setEntries (env : Env) (sel : Selector) (e : DmElement) (clear : Bool) (last : Option SetResult) :
    ℕ → List Avp → DmStore → Option (Emits (SetResult × DmStore))
  | _, [], st => last.map fun res => ((res, st), [])
  | id, avp :: rest, st => do
    let ((r, st), sigs) ← addInstanceBySelector env.schema st sel id
    match r with
    | none => some ((.rc .errAlloc, st), sigs)
    | some r => do
      let n ← st.node r
      let (res, st) ← setEntry env st e r clear avp
      if res = .ok then do
        let (x, sigs') ← setEntries env sel e clear last ((n.inst + 1) % 2 ^ 16) rest st
        some (x, sigs ++ sigs')
      else some ((res, st), sigs)

/-- `dmconfig_set_array_cb`. -/
def setArray (env : Env) (st : DmStore) (sel : Selector) (e : DmElement) (l : Loc) (avp : Avp) :
    Option (Emits (SetResult × DmStore)) := do
  let v ← st.value l
  if e.type ≠ .object ∨ isObject v.content = false ∨ (avp.code ≠ .unknown ∧ avp.code ≠ .array) then
    some ((.rc .errInvalidAvpType, st), [])
  else if (dmSel2name env.schema sel maxParamNameLen).isNone = true then some ((.rc .errAlloc, st), [])
  else do
    let ((found, st), sigs) ← delTableBySelector env.schema st sel
    if found = false then some ((.rc .errMisc, st), sigs)
    else do
      let (entries, last) := avpEntries avp
      match entries with
      | [] => last.map fun res => ((res, st), sigs)
      | _ :: _ => do
        let e0 ← (env.schema.table e.table).elems[0]?
        let (x, sigs') ← setEntries env sel e0 (avp.code = .array) last 1 entries st
        some (x, sigs ++ sigs')

/-- `dmconfig_set_cb`; `slot` is `ctx->notify_slot ? : -1`. -/
def setCb (env : Env) (slot : ℤ) (st : DmStore) (cache : Cache) (flags : ℕ) (sel : Selector) (ref : Ref)
    (avp : Avp) : Option (Emits (SetResult × DmStore × Cache)) :=
  if ref.elem.flags.array = true then do
    let ((r, st), sigs) ← setArray env st sel ref.elem ref.value avp
    some ((r, st, cache), sigs)
  else match env.avp2value ref.elem avp with
    | .error err => some ((.dm err, st, cache), [])
    | .ok v =>
      if configure flags = true then do
        let old ← st.value ref.value
        let st ← st.setValue ref.value (setPending true old)
        some ((.ok, st, cacheAdd cache sel ref.elem ref.base ref.value (newValue v)), [])
      else do
        let ((r, st), sigs) ← overwriteValue env.undef env.schema st sel (markUpdated (newValue v)) slot
        some ((if r = .ok then .ok else .dm r, st, cache), sigs)

/-- The loop of `rpc_db_set`. -/
def dbSet (env : Env) (slot : ℤ) (flags : ℕ) :
    List (Selector × Avp) → DmStore → Cache → Option (Emits (Rc × DmStore × Cache))
  | [], st, cache => some ((.ok, st, cache), [])
  | (sel, avp) :: rest, st, cache => do
    match ← st.getElementRef env.schema sel with
    | none => some ((.errValueNotFound, st, cache), [])
    | some ref => do
      let ((r, st, cache), sigs) ← setCb env slot st cache flags sel ref avp
      if r = .ok then do
        let (x, sigs') ← dbSet env slot flags rest st cache
        some (x, sigs ++ sigs')
      else some ((r.toRc, st, cache), sigs)

end Mand.Signal
