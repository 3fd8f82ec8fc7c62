import Mand.Save.Walk
import Mand.Lib.Base64

/-! # The saved document

`dm_serialize.c`. The document is a list of lines, each with its indentation; text is bytes. -/
namespace Mand.Save
open Mand.Store Mand.Index Mand.Server Mand.Decimal
set_option autoImplicit false

/-- The texts that depend on the clock and on the C library: a time stamp from ticks, ticks as real time,
and an IPv6 address. -/
structure Texts where
  ticks2str : ℤ → List ℕ
  ticks2realtime : ℤ → ℤ
  ntop6 : List ℕ → List ℕ

/-- What stands between the tags of an element: nothing, text, a CDATA section or the lines of a block. -/
inductive Body
  | empty
  | text (s : List ℕ)
  | cdata (s : List ℕ)
  | lines (l : List (List ℕ))
  deriving DecidableEq, Repr

/-- The element of a leaf, with its attributes. -/
structure Element where
  key : List ℕ
  notify : Option (List ℕ)
  escaped : Bool
  body : Body
  deriving DecidableEq, Repr

/-- An opening tag, with the number of an instance. -/
structure Tag where
  key : List ℕ
  inst : Option ℕ
  deriving DecidableEq, Repr

inductive Line
  /-- `<?xml ..?>` -/
  | decl
  | opening (tag : Tag) (version : Option ℕ)
  | closing (key : List ℕ)
  | element (x : Element)
  deriving DecidableEq, Repr

def ascii (s : String) : List ℕ := s.toList.map Char.toNat

/-! ## Text of a value -/

/-- `%d`. -/
def decimalInt (n : ℤ) : List ℕ := if n < 0 then 45 :: decimal n.natAbs else decimal n.natAbs

/-- `%03o`. -/
def octal3 (n : ℕ) : List ℕ :=
  let l := (Nat.digits 8 n).reverse.map (· + 48)
  List.replicate (3 - l.length) 48 ++ l

/-- `%02X`. -/
def hex2 (n : ℕ) : List ℕ := [n / 16, n % 16].map fun d => if d < 10 then d + 48 else d + 55

/-- A byte that is not written as it is. -/
def unprintable (c : ℕ) : Bool := 122 < c ∨ c < 32

/-- `validate_cdata` with the result so far; `none` is -1. -/
def validateCdata : List ℕ → ℕ → ℕ → Option ℕ
  | [], r, _ => some r
  | c :: rest, r, cend =>
    let r := if unprintable c = true then r ||| 2 else r
    if c = 60 ∨ c = 38 then validateCdata rest (r ||| 1) 0
    else if c = 93 then validateCdata rest r (cend + 1)
    else if c = 62 then
      if 2 < cend + 1 then none else validateCdata rest (r ||| 1) (cend + 1)
    else validateCdata rest r 0

/-- A `char` as an argument of `printf`: it is signed. -/
def charArg (c : ℕ) : ℕ := if c < 128 then c else 2 ^ 32 - 256 + c

/-- The loop of `string_escape`. -/
def stringEscape (s : List ℕ) : List ℕ :=
  s.flatMap fun c =>
    if unprintable c = true ∨ c = 60 ∨ c = 38 ∨ c = 62 then 92 :: octal3 (charArg c) else [c]

/-- The loop of `serialize_binary`. -/
def serializeBinary (b : List ℕ) : List ℕ :=
  b.flatMap fun c =>
    if c = 60 then ascii "&lt;"
    else if c = 38 then ascii "&amp;"
    else if c = 62 then ascii "&gt;"
    else if unprintable c = true then ascii "&#x" ++ hex2 c ++ ascii ";"
    else [c]

/-- The lines of 64 characters that a block of Base64 is printed in. -/
def base64Lines (b : List ℕ) : List (List ℕ) :=
  (List.range (((b.length + 3) * 4 / 3 + 63) / 64)).map fun k => (Base64.to64 b).drop (64 * k) |>.take 64

/-- `dm_int2enum`. -/
def int2enum (names : List (List ℕ)) (n : ℤ) : List ℕ :=
  if n < 0 then [] else names.getD n.toNat []

/-- `notify_attr`. -/
def notifyAttr : List (List ℕ) := [ascii "None", ascii "Passive", ascii "Active"]

/-- Whether the text is escaped, and the text. -/
def stringBody (s : List ℕ) : Bool × Body :=
  match validateCdata s 0 0 with
  | some 0 => (false, .text s)
  | some r => if r &&& 2 = 2 then (true, .text (stringEscape s)) else (false, .cdata s)
  | none => (true, .text (stringEscape s))

/-- The body of an element for the value of a leaf. -/
def elementBody (S : Schema) (P : Texts) (e : DmElement) (v : Value) : Bool × Body :=
  match e.type, v with
  | .bool, .bool n => (false, .text (if n = 0 then ascii "false" else ascii "true"))
  | .binary, .binary (some (c :: b)) => (false, .text (serializeBinary (c :: b)))
  | .base64, .binary (some (c :: b)) => (false, .lines (base64Lines (c :: b)))
  | .date, .date n => (false, .text (P.ticks2str (n * 10)))
  | .ticks, .ticks n =>
    (false, .text (if e.flags.datetime = true then P.ticks2str (P.ticks2realtime n) else decimalInt n))
  | .uint, .uint n => (false, .text (decimal n))
  | .int, .int n => (false, .text (decimalInt n))
  | .uint64, .uint64 n => (false, .text (decimal n))
  | .int64, .int64 n => (false, .text (decimalInt n))
  | .enum, .enum n => (false, .text (int2enum e.enums n))
  | .str, .str (some (c :: s)) => stringBody (c :: s)
  | .selector, .selector (some sel) =>
    match dmSel2name S sel maxParamNameLen with
    | some s => (false, .text s)
    | none => (false, .empty)
  | .ipaddr4, .ip4 b => (false, .text (Inet.ntop4 b))
  | .ipaddr6, .ip6 b => (false, .text (P.ntop6 b))
  | _, _ => (false, .empty)

/-- The types that `serialize_element` writes whatever the value is. -/
def handled : DmType → Bool
  | .bool => true
  | .binary => true
  | .base64 => true
  | .date => true
  | .ticks => true
  | .uint => true
  | .int => true
  | .uint64 => true
  | .int64 => true
  | .enum => true
  | .str => true
  | .selector => true
  | .ipaddr4 => true
  | .ipaddr6 => true
  | _ => false

/-- `serialize_element`. Of a counter only a notify attribute is written. -/
def serializeElement (S : Schema) (P : Texts) (e : DmElement) (v : DmValue) : Option Element :=
  let notify := if v.notify &&& 3 = 0 then none else some (int2enum notifyAttr (v.notify &&& 3 : ℕ))
  if handled e.type = true then
    let (escaped, body) := elementBody S P e (leafValue (some v.content))
    some ⟨e.key, notify, escaped, body⟩
  else if e.type = .counter ∧ notify.isSome = true then some ⟨e.key, notify, false, .empty⟩
  else none

/-! ## The callback -/

/-- `struct walk_data`: what was written so far, and the indentation. -/
structure WalkData where
  lines : List (ℕ × Line)
  indent : ℕ

def WalkData.put (w : WalkData) (l : Line) : WalkData := { w with lines := w.lines ++ [(w.indent, l)] }

/-- `CFG_VERSION`. -/
def cfgVersion : ℕ := 1

/-- `DM_ID_AUTO_OBJECT`: both class bits. -/
def autoObject (id : ℕ) : Bool := id &&& 0xC000 = 0xC000

/-- A tag is opened, and what follows is indented. -/
def WalkData.enter (w : WalkData) (tag : Tag) (version : Option ℕ) : WalkData :=
  { w.put (.opening tag version) with indent := w.indent + 1 }

def WalkData.leave (w : WalkData) (key : List ℕ) : WalkData :=
  WalkData.put { w with indent := w.indent - 1 } (.closing key)

/-- `serialize_walk_cb`; `sys` is `S_SYS`. -/
def serializeWalkCb (S : Schema) (P : Texts) (sys : Bool) : WalkCb WalkData := fun type id e v w =>
  if e.flags.internal = true then (true, w)
  else if v.flags.updated = false ∧ v.flags.notify = false ∧ sys = false then (false, w)
  else match type with
    | .objectInstanceStart =>
      if autoObject id = false ∧ e.flags.system = false ∨ sys = true then
        (true, w.enter ⟨e.key, some id⟩ none)
      else (false, w)
    | .tableStart =>
      if e.flags.system = false ∨ sys = true then
        (true, w.enter ⟨e.key, none⟩ (if e.flags.version = true then some cfgVersion else none))
      else (false, w)
    | .tableEnd => (true, w.leave e.key)
    | .objectInstanceEnd => (true, w.leave e.key)
    | .element =>
      if e.flags.write = true ∧ e.flags.system = false ∨ sys = true then
        match serializeElement S P e v with
        | some x => (true, w.put (.element x))
        | none => (true, w)
      else (true, w)
    | .objectStart => (true, w)
    | .objectEnd => (true, w)

def rootTag : Tag := ⟨ascii "OpenCPE", none⟩

/-- `dm_serialize_store`: the document, and the store with its flags brought up to date. Bit 2 of `flags`
is `S_SYS`. -/
def serializeStore (env : Env) (P : Texts) (st : DmStore) (flags : ℕ) :
    Option (List (ℕ × Line) × DmStore) := do
  let st ← updateFlags env.schema st
  let S := env.schema
  let w ← walkTable env (serializeWalkCb S P (flags.testBit 2)) st (S.root + 1) dmSelectorLen S.root st.root
    ⟨[(0, .decl), (0, .opening rootTag (some cfgVersion))], 1⟩
  some (w.lines ++ [(0, .closing rootTag.key)], st)

end Mand.Save
