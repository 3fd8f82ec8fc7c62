import Mand.Server.Keeping
import Mand.Lib.Run

/-! # Reads that ask another client

The getter of an interface asks the client with the role `-state` for its state. It waits in an event loop of
its own, which handles the requests of all clients, and then writes what it was told to the table that it
was called with. The walk or the read that called it is still under way. -/
namespace Mand.Interface
open Mand.Index Mand.Store Mand.Server
set_option autoImplicit false

/-! ## Fields -/

/-- The generated numbers for `ipv4` and `ipv6`. The status of an address and whether a neighbor is a router are
only written for `ipv6`. -/
structure IpFields where
  ip : ℕ
  forwarding : ℕ
  mtu : ℕ
  address : ℕ
  addressIp : ℕ
  addressPrefixlength : ℕ
  addressOrigin : ℕ
  addressStatus : Option ℕ
  neighbor : ℕ
  neighborIp : ℕ
  neighborLinklayeraddress : ℕ
  neighborOrigin : ℕ
  neighborIsrouter : Option ℕ

/-- The generated numbers `field_ocpe__interfaces_state__interface_*`, and that of the table. -/
structure IfFields where
  table : ℕ
  lastread : ℕ
  lastchange : ℕ
  ifindex : ℕ
  adminstatus : ℕ
  operstatus : ℕ
  physaddress : ℕ
  speed : ℕ
  statistics : ℕ
  discontinuitytime : ℕ
  inoctets : ℕ
  inunicastpkts : ℕ
  indiscards : ℕ
  inerrors : ℕ
  outoctets : ℕ
  outunicastpkts : ℕ
  outdiscards : ℕ
  outerrors : ℕ
  ipv4 : IpFields
  ipv6 : IpFields

/-! ## Answers -/

structure IpAddress where
  ip : Value
  prefixLen : ℕ
  origin : ℤ
  status : ℤ

structure IpNeighbor where
  ip : Value
  lladdr : List ℕ
  origin : ℤ
  isRouter : ℤ

/-- The entries of a list that were read, and whether the list ended after them. -/
structure Entries (α : Type) where
  items : List α
  complete : Bool

/-- What an answer says about an address family. A list that cannot be read is missing, and `complete` tells
whether the group ended after the lists. -/
structure IpAnswer where
  forward : ℤ
  mtu : ℕ
  addresses : Option (Entries IpAddress)
  neighbors : Option (Entries IpNeighbor)
  complete : Bool

/-- What an answer says about an interface, as far as it can be read. -/
structure IfAnswer where
  ifIndex : ℤ
  up : Bool
  macstr : List ℕ
  speed : ℕ
  recOct : ℕ
  recPkt : ℕ
  recErr : ℕ
  recDrop : ℕ
  sndOct : ℕ
  sndPkt : ℕ
  sndErr : ℕ
  sndDrop : ℕ
  ipv4 : Option IpAnswer
  ipv6 : Option IpAnswer

/-- The fields of the row of an address. -/
def IpFields.addressRow (F : IpFields) (x : IpAddress) : List (ℕ × Value) :=
  [(F.addressIp, x.ip), (F.addressPrefixlength, .uint x.prefixLen), (F.addressOrigin, .enum x.origin)] ++
    F.addressStatus.toList.map fun id => (id, .enum x.status)

/-- The fields of the row of a neighbor. -/
def IpFields.neighborRow (F : IpFields) (x : IpNeighbor) : List (ℕ × Value) :=
  [(F.neighborIp, x.ip), (F.neighborLinklayeraddress, stringValue (some x.lladdr)),
    (F.neighborOrigin, .enum x.origin)] ++ F.neighborIsrouter.toList.map fun id => (id, .bool x.isRouter)

/-! ## `update_interface_state` -/

/-- A row of `dm_set_*_by_id`. -/
def setFields (a : Addr) : List (ℕ × Value) → DmStore → Option DmStore
  | [], st => some st
  | x :: fields, st => do
    let st ← setById st a x.1 x.2
    setFields a fields st

/-- `dm_get_ticks_by_id`. -/
def ticksById (st : DmStore) (a : Addr) (id : ℕ) : Option ℤ := do
  let v ← st.slot a (id - 1)
  v.parityAssert
  match v.content with
  | .scalar (.ticks n) => some n
  | _ => none

/-- A time that is not set yet. -/
def setUnset (a : Addr) (id : ℕ) (now : ℤ) (st : DmStore) : Option DmStore := do
  let n ← ticksById st a id
  if n = 0 then setById st a id (.ticks now) else some st

/-- `dm_get_table_by_id`. -/
def tableById (st : DmStore) (a : Addr) (id : ℕ) : Option Addr := do
  let v ← st.slot a (id - 1)
  v.parityAssert
  match v.content with
  | .table b => b
  | _ => none

/-- `dm_get_table_by_selector`. -/
def tableBySelector (S : Schema) (st : DmStore) (sel : Selector) : Option (Option Addr) := do
  match ← st.getElementRef S sel with
  | none => some none
  | some ref => do
    let v ← st.value ref.value
    v.parityAssert
    if ref.elem.type = .token then
      match v.content with
      | .table b => some b
      | _ => none
    else some none

/-- `dm_add_table_by_selector`. -/
def addTableBySelector (S : Schema) (st : DmStore) (sel : Selector) : Option (Bool × DmStore) := do
  match ← st.getElementRef S sel with
  | none => some (false, st)
  | some ref => do
    let v ← st.value ref.value
    match ref.elem.type, v.content with
    | .token, .table none => do
      let (b, st) ← allocTable S (ref.elem.table + 1) ref.elem.table sel st
      let st ← st.setValue ref.value { v with content := .table (some b), parity := true }
      some (true, st)
    | _, _ => some (false, st)

/-- The loops over the addresses and over the neighbors: one row for each entry, with numbers from `id` on. The
result tells whether the function goes on. -/
def refreshRows (S : Schema) (sel : Selector) : ℕ → List (List (ℕ × Value)) → DmStore → Option (Bool × DmStore)
  | _, [], st => some (true, st)
  | id, row :: rest, st => do
    let (r, st) ← addInstanceBySelector S st sel id
    match r with
    | none => some (false, st)
    | some r => do
      let n ← st.node r
      let st ← setFields r row st
      let st ← updateInstanceNodeIndex st r
      refreshRows S sel ((n.inst + 1) % 2 ^ 16) rest st

/-- The rows of a list are deleted and written again. -/
def refreshObject (S : Schema) (sel : Selector) (rows : Option (Entries (List (ℕ × Value)))) (st : DmStore) :
    Option (Bool × DmStore) := do
  let (_, st) ← delTableBySelector S st sel
  let (_, st) ← addTableBySelector S st sel
  match rows with
  | none => some (false, st)
  | some x => do
    let (more, st) ← refreshRows S sel 1 x.items st
    some (more && x.complete, st)

def Entries.map {α β : Type} (f : α → β) (x : Entries α) : Entries β := ⟨x.items.map f, x.complete⟩

/-- The part of an address family; `id` is the path of the interface, of which three ids are kept. -/
def refreshIp (S : Schema) (F : IpFields) (id : Selector) (x : Option IpAnswer) (st : DmStore) :
    Option (Bool × DmStore) := do
  let sel := id.take 3 ++ [F.ip]
  match ← tableBySelector S st sel, x with
  | some iftbl, some x => do
    let st ← setFields iftbl [(F.forwarding, .bool x.forward), (F.mtu, .uint x.mtu)] st
    let (more, st) ← refreshObject S (sel ++ [F.address]) (x.addresses.map (Entries.map F.addressRow)) st
    if more = true then do
      let (more, st) ← refreshObject S (sel ++ [F.neighbor]) (x.neighbors.map (Entries.map F.neighborRow)) st
      some (more && x.complete, st)
    else some (false, st)
  | _, _ => some (false, st)

/-- What `update_interface_state` writes to the table of an interface. There is no answer when the client
returned an error or when its first part cannot be read. -/
def updateInterfaceState (S : Schema) (F : IfFields) (now : ℤ) (tbl : Addr) (x : Option IfAnswer) (st : DmStore) :
    Option DmStore :=
  match x with
  | none => some st
  | some x => do
    let status : ℤ := if x.up = true then 0 else 1
    let st ← setUnset tbl F.lastchange now st
    let st ← setFields tbl [(F.ifindex, .int x.ifIndex), (F.adminstatus, .enum status),
      (F.operstatus, .enum status), (F.physaddress, stringValue (some x.macstr)), (F.speed, .uint x.speed)] st
    let stats ← tableById st tbl F.statistics
    let st ← setUnset stats F.discontinuitytime now st
    let st ← setFields stats [(F.inoctets, .uint (x.recOct % 2 ^ 32)), (F.inunicastpkts, .uint (x.recPkt % 2 ^ 32)),
      (F.indiscards, .uint (x.recDrop % 2 ^ 32)), (F.inerrors, .uint (x.recErr % 2 ^ 32)),
      (F.outoctets, .uint (x.sndOct % 2 ^ 32)), (F.outunicastpkts, .uint (x.sndPkt % 2 ^ 32)),
      (F.outdiscards, .uint (x.sndDrop % 2 ^ 32)), (F.outerrors, .uint (x.sndErr % 2 ^ 32))] st
    let t ← st.heap tbl
    let (more, st) ← refreshIp S F.ipv4 t.id x.ipv4 st
    if more = true then do
      let (_, st) ← refreshIp S F.ipv6 t.id x.ipv6 st
      some st
    else some st

/-! ## Reads under way -/

/-- The loops of a walk with what they hold. -/
inductive Frame
  /-- `dm_walk_element_cb`, or a single read, at element `i` of table `a` -/
  | element (level : ℤ) (kw : ℕ) (a : Addr) (i : ℕ)
  /-- the loop of `dm_walk_table_cb`, with element `i` next -/
  | table (level : ℤ) (kw : ℕ) (a : Addr) (i : ℕ)
  /-- the loop of `dm_walk_object_cb` over the object in slot `i` of table `a`, with the next node -/
  | rows (level : ℤ) (e : DmElement) (a : Addr) (i : ℕ) (next : Option Addr)
  /-- the same loop, inside of a node -/
  | row (level : ℤ) (e : DmElement) (a : Addr) (i : ℕ) (node : Addr)

/-- A read with its innermost loop first. If it waits for an answer, with the time at which it began to. -/
structure Read where
  frames : List Frame
  waiting : Option ℤ

/-- The server with the reads that it is in; only the first one can go on. -/
structure Busy where
  server : State
  reads : List Read

/-- Requests are handled by the event loop of the server or of a read that waits. -/
def Busy.open (s : Busy) : Bool :=
  match s.reads with
  | [] => true
  | r :: _ => r.waiting.isSome

inductive Act
  /-- a request that is none of those below -/
  | request (ev : Event)
  /-- `dm_get_value_by_selector_cb` -/
  | get (sel : Selector)
  /-- `dm_walk_by_selector_cb`; `enter` is what the callback returns -/
  | walk (sel : Selector) (level : ℤ) (enter : Bool)
  /-- the read goes on; `role` tells whether a client has the role, and `now` is the time -/
  | go (enter role : Bool) (now : ℤ)
  /-- the answer for the read that waits -/
  | answer (x : Option IfAnswer) (now : ℤ)

/-- `dm_instance_first`. -/
def firstRow (st : DmStore) (t : Option ObjTree) : Option (Option Addr) :=
  match t with
  | none => some none
  | some o => do
    let ti ← o.tree.idx.head?
    ti.idx.first st.fuel

/-- `dm_instance_next`. -/
def nextRow (st : DmStore) (a : Addr) (i : ℕ) (r : Addr) : Option (Option Addr) := do
  let o ← (← st.tree a i)
  let ti ← o.tree.idx.head?
  ti.idx.idxNext st.fuel r

/-- The element with the getter `get_ocpe__interfaces_state__interface_adminstatus`. -/
def isGetter (F : IfFields) (kw i : ℕ) (e : DmElement) : Bool :=
  kw = F.table ∧ i + 1 = F.adminstatus ∧ e.flags.get = true

/-- The switch of `dm_walk_element_cb`. -/
def enterValue (st : DmStore) (level : ℤ) (e : DmElement) (a : Addr) (i : ℕ) (v : DmValue) (enter : Bool)
    (rest : List Frame) : Option (List Frame) :=
  match e.type, v.content with
  | .token, .table (some b) =>
    some (if enter = true ∧ level - 1 ≠ 0 then .table (level - 1) e.table b 0 :: rest else rest)
  | .token, .table none => some rest
  | .token, _ => none
  | .object, .inst t =>
    if enter = true ∧ level - 1 ≠ 0 then (firstRow st t).map fun x => .rows level e a i x :: rest else some rest
  | .object, _ => none
  | _, _ => some rest

/-- The end of `__get_ocpe__interfaces_state__interface`. -/
def finishGet (F : IfFields) (began : ℤ) (a : Addr) (i : ℕ) (st : DmStore) : Option DmStore := do
  let st ← setById st a F.lastread (.ticks began)
  let _ ← st.slot a i
  some st

/-- An element is visited. Its getter may have to wait. -/
def visit (S : Schema) (F : IfFields) (enter role : Bool) (now level : ℤ) (kw : ℕ) (a : Addr) (i : ℕ)
    (rest : List Frame) (st : DmStore) : Option (Read × DmStore) := do
  let e ← (S.table kw).elems[i]?
  let v ← st.slot a i
  v.parityAssert
  if isGetter F kw i e = true then do
    let last ← ticksById st a F.lastread
    if now - last > 10 ∧ role = true then some (⟨.element level kw a i :: rest, some now⟩, st)
    else (finishGet F now a i st).map fun st => (⟨rest, none⟩, st)
  else (enterValue st level e a i v enter rest).map fun frames => (⟨frames, none⟩, st)

/-- The next node of an object. -/
def enterRow (st : DmStore) (level : ℤ) (e : DmElement) (a : Addr) (i : ℕ) (r : Addr) (enter : Bool)
    (rest : List Frame) : Option (List Frame) := do
  let n ← st.node r
  match n.value.content with
  | .table (some b) =>
    let rest := .row level e a i r :: rest
    some (if enter = true ∧ level - 2 ≠ 0 then .table (level - 2) e.table b 0 :: rest else rest)
  | _ => none

/-- One move of a read that does not wait. -/
def goOn (S : Schema) (F : IfFields) (enter role : Bool) (now : ℤ) (frames : List Frame) (st : DmStore) :
    Option (Read × DmStore) :=
  match frames with
  | [] => none
  | .element level kw a i :: rest => visit S F enter role now level kw a i rest st
  | .table level kw a i :: rest =>
    if i < (S.table kw).elems.length then
      some (⟨.element level kw a i :: .table level kw a (i + 1) :: rest, none⟩, st)
    else some (⟨rest, none⟩, st)
  | .rows level e a i (some r) :: rest =>
    (enterRow st level e a i r enter rest).map fun frames => (⟨frames, none⟩, st)
  | .rows _ _ _ _ none :: rest => some (⟨rest, none⟩, st)
  | .row level e a i r :: rest => (nextRow st a i r).map fun x => (⟨.rows level e a i x :: rest, none⟩, st)

/-- The frames that a read begins with. -/
def begin (S : Schema) (st : DmStore) (level : ℤ) (enter : Bool) (ref : Ref) : Option (List Frame) :=
  match ref.value with
  | .slot a i => do
    let t ← st.heap a
    let x ← S.place t.id
    some [.element level x.1 a i]
  | .row r => do
    let n ← st.node r
    match n.value.content with
    | .table (some b) => some (if enter = true ∧ level - 1 ≠ 0 then [.table (level - 1) ref.elem.table b 0] else [])
    | _ => none

/-- A read of a selector. -/
def Busy.push (S : Schema) (s : Busy) (sel : Selector) (level : ℤ) (enter : Bool) : Option Busy := do
  match ← s.server.store.getElementRef S sel with
  | none => some s
  | some ref => do
    let frames ← begin S s.server.store level enter ref
    some { s with reads := ⟨frames, none⟩ :: s.reads }

def Busy.setStore (s : Busy) (st : DmStore) : Busy := { s with server := { s.server with store := st } }

def act (env : Env) (F : IfFields) (s : Busy) : Act → Option Busy
  | .request ev =>
    if s.open = true then (step env s.server ev).map fun x => { s with server := x.2 } else none
  | .get sel => if s.open = true then s.push env.schema sel 1 false else none
  | .walk sel level enter => if s.open = true then s.push env.schema sel level enter else none
  | .go enter role now =>
    match s.reads with
    | ⟨[], none⟩ :: reads => some { s with reads := reads }
    | ⟨frames, none⟩ :: reads => do
      let (r, st) ← goOn env.schema F enter role now frames s.server.store
      some { s.setStore st with reads := r :: reads }
    | _ => none
  | .answer x now =>
    match s.reads with
    | ⟨.element _ _ a i :: rest, some began⟩ :: reads => do
      let st ← updateInterfaceState env.schema F now a x s.server.store
      let st ← finishGet F began a i st
      some { s.setStore st with reads := ⟨rest, none⟩ :: reads }
    | _ => none

end Mand.Interface
