import Mand.Lib.Run
import Mand.Load.Chars
import Mand.Load.Convert
import Mand.Notify.Levels
import Mand.Store.Names

/-! # Reading a document into the store

`dm_deserialize.c`: the handlers that the XML parser calls, with the stack of states. The state in use is known by its
place on the stack; the model has places behind the ten of `stateStk`, where the program would write into memory that
belongs to others. -/
namespace Mand.Load
open Mand.Store Mand.Save Mand.Index Mand.Rpc Mand.Scan Mand.Notify Mand.Run
set_option autoImplicit false

/-! ## States -/

/-- What `value` points to: `dm_value_root`, or a value of the store. -/
inductive Place
  | root
  | at (l : Loc)
  deriving DecidableEq

/-- `struct XMLstate`. The flags are `XML_VALID`, `XML_ESCAPED`, `XML_UPGRADE` and `XML_ROOT`; `base` is only printed. -/
structure XmlState where
  element : Option DmElement
  value : Option Place
  valid : Bool
  escaped : Bool
  upgrade : Bool
  root : Bool
  text : Option (List ℕ)
  inst : Option (Addr × ℕ)
  node : Option Addr

/-- After `memset`. -/
def XmlState.zero : XmlState := ⟨none, none, false, false, false, false, none, none, none⟩

/-- `element` of `dm_deserialize_store`. -/
def rootElement (S : Schema) : DmElement where
  key := []
  type := .token
  flags := ⟨false, false, false, false, false, false, false, false, false, false, false⟩
  set := none
  validate := none
  table := S.root
  max := 0
  enums := []
  counterRef := 0
  action := 0

/-- `stateStk` in the beginning. -/
def stateStk (S : Schema) : ℕ → XmlState
  | 0 => { XmlState.zero with root := true }
  | 1 => { XmlState.zero with element := some (rootElement S), value := some .root, valid := true }
  | _ => .zero

def stateStkSize : ℕ := 10

/-- What the handlers work with: the stack, the place of the state in use, the store, `dm_value_root` and the version
of the configuration. -/
structure Deser where
  stack : ℕ → XmlState
  cur : ℕ
  store : DmStore
  rootValue : DmValue
  cfgVersion : ℤ

namespace Deser

def top (s : Deser) : XmlState := s.stack s.cur

def setTop (s : Deser) (x : XmlState) : Deser := { s with stack := Function.update s.stack s.cur x }

def value (s : Deser) : Place → Option DmValue
  | .root => some s.rootValue
  | .at l => s.store.value l

def setValue (s : Deser) (p : Place) (v : DmValue) : Option Deser :=
  match p with
  | .root => some { s with rootValue := v }
  | .at l => (s.store.setValue l v).map fun st => { s with store := st }

end Deser

/-! ## The environment -/

def cfgVersion : ℤ := 1

/-- The conversions of texts, the two functions in Lua with the version of the configuration, and the flags
`DS_USERCONFIG` and `DS_VERSIONCHECK`. -/
structure LoadEnv where
  decode : DecodeEnv
  libc : Libc
  memcmp : List ℕ → List ℕ → ℤ
  preVersionCheck : ℤ → DmStore → Option (ℤ × DmStore)
  postVersionCheck : ℤ → DmStore → Option (ℤ × DmStore)
  userConfig : Bool
  versionCheck : Bool

abbrev LoadEnv.schema (E : LoadEnv) : Schema := E.decode.schema

/-- `atoi`. -/
def atoi (s : List ℕ) : ℤ := (strtol s).1.bmod (2 ^ 32)

/-- An `int` as a `dm_id`. -/
def dmId (n : ℤ) : ℕ := (n % 2 ^ 16).toNat

def notifyAttr : List (List ℕ) := [ascii "None", ascii "Passive", ascii "Active"]

/-- What an element says in its attributes. -/
structure Attributes where
  xid : ℤ
  ntfy : ℤ
  escaped : Bool
  version : Option ℤ

/-- The loop over the attributes; it ends at `instance`. -/
def readAttributes : List (List ℕ × List ℕ) → Attributes → Attributes
  | [], r => r
  | (name, value) :: atts, r =>
    if sameText (ascii "instance") name = true then { r with xid := atoi value }
    else if sameText (ascii "notify") name = true then readAttributes atts { r with ntfy := dmEnum2int notifyAttr value }
    else if sameText (ascii "encoding") name = true then
      readAttributes atts { r with escaped := r.escaped || sameText value (ascii "escaped") }
    else if sameText (ascii "version") name = true then readAttributes atts { r with version := some (atoi value) }
    else readAttributes atts r

section Handlers
variable (E : LoadEnv)

/-! ## The beginning of an element -/

/-- `(*state)++`; the new state is cleared, but not that of the root. -/
def Deser.push (s : Deser) : Deser where
  stack := if s.top.root = true then s.stack else Function.update s.stack (s.cur + 1) .zero
  cur := s.cur + 1
  store := s.store
  rootValue := s.rootValue
  cfgVersion := s.cfgVersion

def Deser.withAttributes (s : Deser) (a : Attributes) : Deser :=
  { s.setTop { s.top with escaped := s.top.escaped || a.escaped } with cfgVersion := a.version.getD s.cfgVersion }

/-- The root: `fncPreVersionCheck` if the version is another one. -/
def startRoot (s : Deser) : Option Deser :=
  if E.versionCheck = true ∧ s.cfgVersion ≠ cfgVersion then
    let s := s.setTop { s.top with upgrade := true }
    (E.preVersionCheck s.cfgVersion s.store).map fun r => { s with cfgVersion := r.1, store := r.2 }
  else some s

/-- The flag of a row and of its object. -/
def markRow (st : DmStore) (b i : ℕ) (r : Addr) : Option DmStore := do
  let v ← st.slot b i
  let st ← st.setSlot b i (markUpdated v)
  let n ← st.node r
  st.setNode r { n with value := markUpdated n.value }

/-- The row that the attribute `instance` names. -/
def namedRow (t : Option ObjTree) (xid : ℤ) (st : DmStore) : Option (Option Addr) :=
  if 0 < xid then st.instanceNode t (dmId xid) else some none

/-- A row that is not there is added to the object in slot `i` of table `b`; `dm_assert` fails if it cannot be. -/
def enterObject (kw : DmElement) (b i : ℕ) (xid : ℤ) (st : DmStore) : Option (Addr × DmStore) := do
  let t ← st.tree b i
  match ← namedRow t xid st with
  | some r => some (r, st)
  | none => do
    let tb ← st.heap b
    let (res, st) ← addInstance E.schema st kw b i (dmSelcat tb.id (i + 1)) (dmId xid)
    let r ← res
    if E.userConfig = true then (markRow st b i r).map fun st => (r, st) else some (r, st)

/-- A token without a table gets one. -/
def enterToken (kw : DmElement) (b i : ℕ) (st : DmStore) : Option DmStore := do
  let v ← st.slot b i
  match v.content with
  | .table none => do
    let tb ← st.heap b
    let (c, st) ← allocTable E.schema (kw.table + 1) kw.table (tb.id ++ [i + 1]) st
    let flags := if E.userConfig = true then { v.flags with updated := true } else v.flags
    st.setSlot b i { v with content := .table (some c), flags := flags, parity := true }
  | .table (some _) => some st
  | _ => none

/-- The value, `inst` and `node` of the new state. -/
def enterElement (kw : DmElement) (b i : ℕ) (xid : ℤ) (st : DmStore) :
    Option ((Loc × Option (Addr × ℕ) × Option Addr) × DmStore) :=
  match kw.type with
  | .object => (enterObject E kw b i xid st).map fun r => ((.row r.1, some (b, i), some r.1), r.2)
  | .token => (enterToken E kw b i st).map fun st => ((.slot b i, none, none), st)
  | _ => some ((.slot b i, none, none), st)

/-- The notify level in the attributes; an unknown one is negative. -/
def setNotifyAttribute (kw : DmElement) (l : Loc) (ntfy : ℤ) (st : DmStore) : Option DmStore :=
  if 0 ≤ ntfy then modifyValue st l fun v => (setNotifySingleSlotElement kw 0 ntfy.toNat v).2 else some st

/-- `kw`: an element that a name was found for. -/
def elementById (S : Schema) (id kw : ℕ) : Option DmElement := if id = 0 then none else (S.table kw).elems[id - 1]?

/-- The child of a valid state. Of an element that is no container the union holds no table. -/
def startChild (parent : XmlState) (name : List ℕ) (a : Attributes) (s : Deser) : Option Deser := do
  let element ← parent.element
  if element.container = true then
    let id := elementIdByName E.schema name element.table
    if id = dmErr then some s
    else do
      let kw ← elementById E.schema id element.table
      let value ← parent.value.bind s.value
      match value.content with
      | .table (some b) => do
        let v ← s.store.slot b (id - 1)
        v.parityAssert
        let (x, st) ← enterElement E kw b (id - 1) a.xid s.store
        let st ← setNotifyAttribute kw x.1 a.ntfy st
        some { s.setTop { s.top with
          element := some kw, value := some (.at x.1), valid := true, inst := x.2.1, node := x.2.2 } with store := st }
      | _ => none
  else none

/-- `startElement`. -/
def startElement (name : List ℕ) (atts : List (List ℕ × List ℕ)) (s : Deser) : Option Deser :=
  let a := readAttributes atts ⟨0, 0, false, none⟩
  let next := s.push.withAttributes a
  if s.top.root = true then startRoot E next
  else if s.top.valid = true then startChild E s.top name a next
  else some next

/-! ## Its text and its end -/

/-- `charElement` for the state in use. -/
def charData (chunk : List ℕ) (s : Deser) : Deser :=
  s.setTop { s.top with text := charElement s.top.escaped s.top.text chunk }

/-- `handleElement`. -/
def handleElement (x : XmlState) (s : Deser) : Option Deser := do
  let element ← x.element
  let p ← x.value
  let v ← s.value p
  let (_, v) ← dmString2value E.decode E.libc E.memcmp element x.text E.userConfig v
  s.setValue p v

/-- The row of an object finds its place in the indexes. -/
def finishRow (x : XmlState) (s : Deser) : Option Deser :=
  if x.inst.isSome = true then do
    let r ← x.node
    let st ← updateInstanceNodeIndex s.store r
    some { s with store := st }
  else some s

def finishValid (x : XmlState) (s : Deser) : Option Deser :=
  if x.valid = true then (handleElement E x s).bind (finishRow x) else some s

def finishUpgrade (x : XmlState) (s : Deser) : Option Deser :=
  if x.upgrade = true then
    (E.postVersionCheck s.cfgVersion s.store).map fun r => { s with cfgVersion := r.1, store := r.2 }
  else some s

/-- `endElement`. -/
def endElement (s : Deser) : Option Deser := do
  let x := s.top
  let s ← finishValid E x s
  let s ← finishUpgrade E x s
  if s.cur = 0 then none else some { s with cur := s.cur - 1 }

/-! ## Documents -/

/-- What the parser reports. -/
inductive Event
  | start (name : List ℕ) (atts : List (List ℕ × List ℕ))
  | chars (chunk : List ℕ)
  | stop (name : List ℕ)
  deriving DecidableEq

def handle (s : Deser) : Event → Option Deser
  | .start name atts => startElement E name atts s
  | .chars chunk => some (charData chunk s)
  | .stop _ => endElement E s

/-- `dm_deserialize_store` up to the first event. A store that is not there is made; `version` is left over from the
last file. -/
def deserBegin (before : Option DmStore) (version : ℤ) : Option Deser := do
  let st ← before <|> DmStore.init E.schema
  some ⟨stateStk E.schema, 0, st, ⟨.table (some st.root), 0, Flags.zero, true⟩, version⟩

end Handlers

/-- The names that are open, the last one first. -/
def opened : List (List ℕ) → List Event → Option (List (List ℕ))
  | names, [] => some names
  | names, .start n _ :: evs => opened (n :: names) evs
  | names, .chars _ :: evs => opened names evs
  | [], .stop _ :: _ => none
  | m :: names, .stop n :: evs => if m = n then opened names evs else none

/-- A well-formed document: one element with what is in it. -/
def Document (evs : List Event) : Prop :=
  ∃ name atts body, evs = .start name atts :: (body ++ [.stop name]) ∧ opened [] body = some []

/-- The number of open elements. -/
def level : ℕ → List Event → ℕ
  | d, [] => d
  | d, .start _ _ :: evs => level (d + 1) evs
  | d, .chars _ :: evs => level d evs
  | d, .stop _ :: evs => level (d - 1) evs

/-- How deep elements are nested. -/
def nesting : ℕ → List Event → ℕ
  | d, [] => d
  | d, .start _ _ :: evs => nesting (d + 1) evs
  | d, .chars _ :: evs => nesting d evs
  | d, .stop _ :: evs => max d (nesting (d - 1) evs)

end Mand.Load
