import Mand.Server.Cache

/-! # The server

The sessions and the database requests of `dm_dmconfig.c`. A state is the store, the update cache,
the session variables and the contexts of the connections; an event is a request or what happens to a
connection. -/
namespace Mand.Server
open Mand.Store Mand.Index Mand.Msg Mand.Bytes
set_option autoImplicit false

/-- `SOCKCONTEXT`, known by `key`. -/
structure Ctx where
  key : ℕ
  id : ℕ
  flags : ℕ
  deriving DecidableEq, Repr

structure State where
  store : DmStore
  cache : Cache
  cfgSessionId : ℕ
  sessionCounter : ℕ
  ctxs : List Ctx

/-- `CMD_FLAG_CONFIGURE`. -/
def configure (flags : ℕ) : Bool := flags.testBit 0

/-- What a set function returns: `DM_OK`, another `DM_RESULT`, or an `RC_ERR_*` code. -/
inductive SetResult
  | ok
  | dm (r : DmResult)
  | rc (r : Rc)
  deriving DecidableEq, Repr

/-! ## Sets -/

/-- The entries of an array AVP, and what ends the loop: a code, or a read outside the AVP. -/
def arrayEntries : ℕ → Dm2AvpGrp → List Avp × Option SetResult
  | 0, _ => ([], none)
  | n + 1, grp =>
    if dmExpectGroupEnd grp = .ok then ([], some .ok)
    else match dmExpectAvp grp with
      | none => ([], none)
      | some (.error rc, _) => ([], some (.rc rc))
      | some (.ok avp, grp) =>
        let (rest, last) := arrayEntries n grp
        let code := if avp.code = 1015 then AvpCode.unknown
          else if avp.code = 1035 then AvpCode.array else AvpCode.other avp.code.toNat
        (⟨code, grp.data.drop avp.off, avp.len⟩ :: rest, last)

/-- The pieces of a list that is separated by commas. The comma itself is not taken off the remaining
length, so the last piece can be looked for behind the AVP. -/
def stringEntries : ℕ → Mem → ℕ → List Avp × Option SetResult
  | 0, _, _ => ([], none)
  | n + 1, mem, rem =>
    if rem = 0 then ([], some .ok)
    else match (mem.take rem).idxOf? 44 with
      | some k =>
        let (rest, last) := stringEntries n (mem.drop (k + 1)) (rem - k)
        (⟨.unknown, mem.take k, k⟩ :: rest, last)
      | none => if mem.length < rem then ([], none) else ([⟨.unknown, mem.take rem, rem⟩], some .ok)

/-- The row of an array entry gets its value. `dmconfig_avp2value` clears it first, which
`dmconfig_string2value` does not. -/
def setEntry (env : Env) (st : DmStore) (e : DmElement) (r : Addr) (clear : Bool) (avp : Avp) :
    Option (SetResult × DmStore) := do
  let old ← st.slot r 0
  old.parityAssert
  let old := if clear = true then newValue (zeroValue e.type) else old
  match env.avp2value e avp with
  | .error err => do
    let st ← st.setSlot r 0 old
    some (.dm err, st)
  | .ok v => do
    let st ← st.setSlot r 0 (markUpdated { old with content := .scalar v })
    let st ← updateInstanceNodeIndex st r
    some (.ok, st)

/-- The loops of `dmconfig_set_array_cb` over the entries, with instance numbers from `id` on. -/
def setEntries (env : Env) (sel : Selector) (e : DmElement) (clear : Bool) (last : Option SetResult) :
    ℕ → List Avp → DmStore → Option (SetResult × DmStore)
  | _, [], st => last.map fun res => (res, st)
  | id, avp :: rest, st => do
    let (r, st) ← addInstanceBySelector env.schema st sel id
    match r with
    | none => some (.rc .errAlloc, st)
    | some r => do
      let n ← st.node r
      let (res, st) ← setEntry env st e r clear avp
      if res = .ok then setEntries env sel e clear last ((n.inst + 1) % 2 ^ 16) rest st
      else some (res, st)

/-- The entries of either form. -/
def avpEntries (avp : Avp) : List Avp × Option SetResult :=
  if avp.code = .unknown then stringEntries (avp.size + 1) avp.mem avp.size
  else arrayEntries (avp.size + 1) (dmInitAvpgrp avp.mem avp.size)

/-- Whether the value is a `T_OBJECT`. -/
def isObject : Content → Bool
  | .inst _ => true
  | _ => false

/-- `MAX_PARAM_NAME_LEN`. -/
def maxParamNameLen : ℕ := 257

/-- `dmconfig_set_array_cb`. -/
def setArray (env : Env) (st : DmStore) (sel : Selector) (e : DmElement) (l : Loc) (avp : Avp) :
    Option (SetResult × DmStore) := do
  let v ← st.value l
  if e.type ≠ .object ∨ isObject v.content = false ∨ (avp.code ≠ .unknown ∧ avp.code ≠ .array) then
    some (.rc .errInvalidAvpType, st)
  else if (dmSel2name env.schema sel maxParamNameLen).isNone = true then some (.rc .errAlloc, st)
  else do
    let (found, st) ← delTableBySelector env.schema st sel
    if found = false then some (.rc .errMisc, st)
    else do
      let (entries, last) := avpEntries avp
      match entries with
      | [] => last.map fun res => (res, st)
      | _ :: _ => do
        let e0 ← (env.schema.table e.table).elems[0]?
        setEntries env sel e0 (avp.code = .array) last 1 entries st

/-- `dmconfig_set_cb` on what the selector refers to. -/
def setCb (env : Env) (st : DmStore) (cache : Cache) (flags : ℕ) (sel : Selector) (ref : Ref)
    (avp : Avp) : Option (SetResult × DmStore × Cache) :=
  if ref.elem.flags.array = true then do
    let (r, st) ← setArray env st sel ref.elem ref.value avp
    some (r, st, cache)
  else match env.avp2value ref.elem avp with
    | .error err => some (.dm err, st, cache)
    | .ok v =>
      if configure flags = true then do
        let old ← st.value ref.value
        let st ← st.setValue ref.value (setPending true old)
        some (.ok, st, cacheAdd cache sel ref.elem ref.base ref.value (newValue v))
      else do
        let (r, st) ← overwriteValue env.undef env.schema st sel (markUpdated (newValue v))
        some (if r = .ok then .ok else .dm r, st, cache)

/-- The return code of `rpc_db_set` and `rpc_db_get` for a failed callback. -/
def SetResult.toRc : SetResult → Rc
  | .ok => .ok
  | .rc r => r
  | .dm .oom => .errAlloc
  | .dm .invalidValue => .errInvalidAvpType
  | .dm .invalidType => .errInvalidAvpType
  | .dm .valueNotFound => .errValueNotFound
  | .dm _ => .errMisc

/-- The loop of `rpc_db_set`. -/
def dbSet (env : Env) (flags : ℕ) :
    List (Selector × Avp) → DmStore → Cache → Option (Rc × DmStore × Cache)
  | [], st, cache => some (.ok, st, cache)
  | (sel, avp) :: rest, st, cache => do
    match ← st.getElementRef env.schema sel with
    | none => some (.errValueNotFound, st, cache)
    | some ref => do
      let (r, st, cache) ← setCb env st cache flags sel ref avp
      if r = .ok then dbSet env flags rest st cache else some (r.toRc, st, cache)

/-! ## Gets -/

/-- What `dm_add_avp` is given for one path. -/
structure Answer where
  elem : DmElement
  stType : DmType
  content : Content

/-- `dm_get_element_value` with `T_ANY`. -/
def elementValue (env : Env) (st : DmStore) (ref : Ref) : Option DmValue := do
  let v ← st.value ref.value
  v.parityAssert
  if ref.elem.type ≠ .counter ∧ ref.elem.flags.get = true then some (env.getHook st ref v) else some v

/-- `dm_get_value_by_selector_cb`. -/
def getValue (env : Env) (st : DmStore) (sel : Selector) : Option (Except DmResult Answer) := do
  match ← st.getElementRef env.schema sel with
  | none => some (.error .valueNotFound)
  | some ref => do
    let v ← elementValue env st ref
    some (.ok ⟨ref.elem, ref.stType, v.content⟩)

/-- `dm_cache_get_value_by_selector_cb`. -/
def cacheGetValue (env : Env) (st : DmStore) (cache : Cache) (sel : Selector) :
    Option (Except DmResult Answer) := do
  match ← st.getElementRef env.schema sel with
  | none => some (.error .valueNotFound)
  | some ref =>
    if ref.elem.type = .inst ∨ ref.elem.type = .object then some (.error .invalidType)
    else do
      let v ← st.value ref.value
      if v.flags.pending = true then
        match cacheFind cache sel with
        | none => some (.error .valueNotFound)
        | some item => do
          item.newValue.parityAssert
          some (.ok ⟨ref.elem, ref.stType, item.newValue.content⟩)
      else do
        let v ← elementValue env st ref
        some (.ok ⟨ref.elem, ref.stType, v.content⟩)

/-- The value that `rpc_db_get` of a context reads for a path. -/
def dbGet (env : Env) (s : State) (ctx : Ctx) (sel : Selector) : Option (Except DmResult Answer) :=
  if s.cfgSessionId ≠ 0 ∧ ctx.id = s.cfgSessionId then cacheGetValue env s.store s.cache sel
  else getValue env s.store sel

/-! ## Events -/

inductive Event
  /-- `accept_cb` for a new connection -/
  | accept
  | startSession (key flags : ℕ)
  | switchSession (key flags : ℕ)
  /-- `rpc_endsession`, a session timeout or an error of the connection -/
  | endSession (key : ℕ)
  | set (key : ℕ) (values : List (Selector × Avp))
  | addInstance (key : ℕ) (sel : Selector) (id : ℕ)
  | delInstance (key : ℕ) (sel : Selector)
  /-- `rpc_db_commit`, with the order in which the items come to the root of the cache -/
  | commit (key : ℕ) (order : List Selector)
  | cancel (key : ℕ)

/-- The context of a connection. -/
def State.ctx (s : State) (key : ℕ) : Option Ctx := s.ctxs.find? fun c => c.key = key

def State.setCtx (s : State) (c : Ctx) : State :=
  { s with ctxs := s.ctxs.map fun d => if d.key = c.key then c else d }

/-- `++session_counter`, which skips zero. -/
def nextCounter (n : ℕ) : ℕ := if (n + 1) % 2 ^ 32 = 0 then 1 else (n + 1) % 2 ^ 32

/-- `rpc_startsession`. -/
def startSession (s : State) (c : Ctx) (flags : ℕ) : Rc × State :=
  if c.id ≠ 0 then (.errInvalidSessionId, s)
  else if configure flags = true ∧ s.cfgSessionId ≠ 0 then (.errCannotOpenCfgSession, s)
  else
    let s := if configure flags = true then { s with cfgSessionId := s.sessionCounter } else s
    let s := s.setCtx { c with id := s.sessionCounter, flags := flags }
    (.ok, { s with sessionCounter := nextCounter s.sessionCounter })

/-- `cache_reset` on the server. -/
def State.resetCache (s : State) : Option State := do
  let st ← cacheReset s.store s.cache
  some { s with store := st, cache := [] }

/-- A context that holds the configure session gives it up, and with it what it has not committed. -/
def State.leave (s : State) (c : Ctx) : Option State :=
  if s.cfgSessionId = c.id then ({ s with cfgSessionId := 0 } : State).resetCache else some s

/-- `rpc_switchsession`. -/
def switchSession (s : State) (c : Ctx) (flags : ℕ) : Option (Rc × State) :=
  if c.id = 0 then some (.errInvalidSessionId, s)
  else if configure flags = true then
    if s.cfgSessionId ≠ 0 ∧ s.cfgSessionId ≠ c.id then some (.errCannotOpenCfgSession, s)
    else some (.ok, ({ s with cfgSessionId := c.id } : State).setCtx { c with flags := flags })
  else do
    let s ← s.leave c
    some (.ok, s.setCtx { c with flags := flags })

/-- `end_session`. -/
def endSession (s : State) (c : Ctx) : Option State := do
  let s ← s.leave c
  some { s with ctxs := s.ctxs.filter fun d => d.key ≠ c.key }

/-- `rpc_db_commit`; `order` lists the selectors of the cache. -/
def commit (env : Env) (s : State) (c : Ctx) (order : List Selector) : Option (Rc × State) :=
  if c.id ≠ s.cfgSessionId then some (.errRequiresCfgSession, s)
  else do
    let (r, cache) ← cacheValidate env s.store s.cache
    if r = 0 then some (.errMisc, { s with cache := cache })
    else if order.Perm (cache.map CacheItem.sb) then do
      let st ← cacheApply env s.store (order.filterMap (cacheFind cache))
      some (.ok, { s with store := st, cache := [] })
    else none

/-- `rpc_db_cancel`. -/
def cancel (s : State) (c : Ctx) : Option (Rc × State) :=
  if c.id ≠ s.cfgSessionId then some (.errRequiresCfgSession, s)
  else do
    let s ← s.resetCache
    some (.ok, s)

/-- `request_cb` ends the session of a request that ran out of memory. -/
def afterRequest (s : State) (key : ℕ) (rc : Rc) : Option (Rc × State) :=
  if rc = .errAlloc then do
    let c ← s.ctx key
    let s ← endSession s c
    some (rc, s)
  else some (rc, s)

/-- A fresh key for a connection. -/
def State.freshKey (s : State) : ℕ := (s.ctxs.map Ctx.key).foldr max 0 + 1

/-- One event. The code is what the client gets. -/
def step (env : Env) (s : State) : Event → Option (Rc × State)
  | .accept => some (.ok, { s with ctxs := s.ctxs ++ [⟨s.freshKey, 0, 0⟩] })
  | .startSession key flags => do
    let c ← s.ctx key
    some (startSession s c flags)
  | .switchSession key flags => do
    let c ← s.ctx key
    switchSession s c flags
  | .endSession key => do
    let c ← s.ctx key
    let s ← endSession s c
    some (.ok, s)
  | .set key values => do
    let c ← s.ctx key
    let (rc, st, cache) ← dbSet env c.flags values s.store s.cache
    afterRequest { s with store := st, cache := cache } key rc
  | .addInstance key sel id => do
    let _ ← s.ctx key
    let (r, st) ← addInstanceBySelector env.schema s.store sel (id % 2 ^ 16)
    some (if r.isSome = true then .ok else .errMisc, { s with store := st })
  | .delInstance key sel => do
    let _ ← s.ctx key
    let (found, st) ← delTableBySelector env.schema s.store sel
    some (if found = true then .ok else .errMisc, { s with store := st })
  | .commit key order => do
    let c ← s.ctx key
    commit env s c order
  | .cancel key => do
    let c ← s.ctx key
    cancel s c

/-- The state after a list of events. -/
def run (env : Env) : State → List Event → Option State
  | s, [] => some s
  | s, ev :: evs => do
    let (_, s) ← step env s ev
    run env s evs

/-- The server before the first connection. -/
def init (env : Env) : Option State := do
  let st ← DmStore.init env.schema
  some ⟨st, [], 0, 1, []⟩

/-! ## A small data model

A number, an array of numbers, rows that a counter follows, and the clock. -/

def sampleFlags : ElemFlags := ⟨true, false, false, false, false, false, false, false, false, false, false⟩

def sampleLeaf (type : DmType) : DmElement := ⟨[97], type, sampleFlags, none, none, 0, 0, [], 0, 0⟩

def sampleTable : ℕ → DmTable
  | 0 => ⟨[sampleLeaf .uint], [⟨true, .inst, 0⟩]⟩
  | 1 => ⟨[{ sampleLeaf .uint with key := [118], validate := some 0 },
      { sampleLeaf .object with key := [119], flags := { sampleFlags with array := true }, max := 9 },
      { sampleLeaf .counter with key := [110], counterRef := 4 },
      { sampleLeaf .object with key := [114], max := 9 },
      { sampleLeaf .ticks with key := [99], set := some .clockCurrentdatetime }], []⟩
  | _ => ⟨[], []⟩

def sampleSchema : Schema where
  table := sampleTable
  root := 1
  child_lt := by
    intro k
    match k with
    | 0 => decide
    | 1 => decide
    | k + 2 => exact fun e he => absurd he List.not_mem_nil
  index_head := by
    intro k
    match k with
    | 0 => decide
    | 1 => decide
    | k + 2 => exact fun e he => absurd he List.not_mem_nil
  set_fits := by
    intro k
    match k with
    | 0 => decide
    | 1 => decide
    | k + 2 => exact fun e he => absurd he List.not_mem_nil
  array_leaf := by
    intro k
    match k with
    | 0 => decide
    | 1 => decide
    | k + 2 => exact fun e he => absurd he List.not_mem_nil
  get_leaf := by
    intro k
    match k with
    | 0 => decide
    | 1 => decide
    | k + 2 => exact fun e he => absurd he List.not_mem_nil

/-- A value of a leaf is the length of the AVP; the validator rejects everything from 5 on. -/
def sampleEnv : Env where
  schema := sampleSchema
  conv := fun e avp => .ok (if e.type = .ticks then .ticks avp.size else .uint avp.size)
  validate := fun _ _ _ _ v =>
    match v.content with
    | .scalar (.uint n) => if n < 5 then (1, 0) else (0, 7)
    | _ => (1, 0)
  getHook := fun _ _ v => v
  undef := 0

def sampleAvp (n : ℕ) : Avp := ⟨.other 0, [], n⟩

def sampleStore : DmStore where
  heap := Function.update (fun _ => none) 0 (some ⟨[],
    [⟨.scalar (.uint 0), 0, Flags.zero, true⟩,
      ⟨.inst (some ⟨InstTree.alloc [⟨true, .inst, 0⟩], none, none⟩), 0, Flags.zero, true⟩,
      ⟨.scalar (.uint 0), 0, Flags.zero, true⟩,
      ⟨.inst (some ⟨InstTree.alloc [⟨true, .inst, 0⟩], some (0, 3), none⟩), 0, Flags.zero, true⟩,
      ⟨.scalar (.ticks 0), 0, Flags.zero, true⟩], none⟩)
  next := 1
  root := 0

/-- One client, who holds the configure session. -/
def sampleState : State := ⟨sampleStore, [], 1, 2, [⟨1, 1, 1⟩]⟩

theorem sampleState_reached :
    (init sampleEnv).bind (fun s => run sampleEnv s [.accept, .startSession 1 1]) = some sampleState :=
  rfl

end Mand.Server
