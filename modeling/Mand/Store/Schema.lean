import Mand.Index.Tree
import Mand.Lib.Decimal

/-! # The schema

The constant tables that the generator emits for a data model. Tables refer to each other by number;
a container's table has a smaller number than the table it stands in. -/
namespace Mand.Store
open Mand.Index
set_option autoImplicit false

/-- The setter functions (`fkts.value.set`). Those of an IPv4 address name the fields of its row that
they read and update. -/
inductive SetHook
  | clockCurrentdatetime
  | addressPrefixlength (read update : ℕ)
  | addressNetmask (update : ℕ)
  deriving DecidableEq, Repr

/-- The flags of an element, less those that only say which functions it has. -/
structure ElemFlags where
  write : Bool
  get : Bool
  system : Bool
  index : Bool
  acsNotify : Bool
  acsNoNotify : Bool
  internal : Bool
  mapId : Bool
  datetime : Bool
  array : Bool
  version : Bool
  deriving DecidableEq, Repr

/-- `struct dm_element`. The key and the names of an enumeration are bytes. `set` and `validate` are
the setter (`F_SET`) and the validator, `action` is a constant of `enum dm_actions`. -/
structure DmElement where
  key : List ℕ
  type : DmType
  flags : ElemFlags
  set : Option SetHook
  validate : Option ℕ
  table : ℕ
  max : ℕ
  enums : List (List ℕ)
  counterRef : ℕ
  action : ℕ
  deriving DecidableEq, Repr

/-- `struct dm_table`. -/
structure DmTable where
  elems : List DmElement
  index : List IndexEntry
  deriving DecidableEq, Repr

/-- `T_TOKEN` or `T_OBJECT`. -/
def DmElement.container (e : DmElement) : Bool := e.type = .token ∨ e.type = .object

/-- The field that a setter updates has the type that it writes. -/
def DmElement.setFits (t : DmTable) (e : DmElement) : Bool :=
  match e.set with
  | some (.addressPrefixlength _ update) => t.elems[update - 1]?.any fun u => u.type = .str
  | some (.addressNetmask update) => t.elems[update - 1]?.any fun u => u.type = .uint
  | _ => true

/-- The tables. The first index of a table of rows is the unique one over the instance numbers, the rows
of an array (a `leaf-list`) hold a leaf, and only leaves have a get hook. -/
structure Schema where
  table : ℕ → DmTable
  root : ℕ
  child_lt : ∀ k, ∀ e ∈ (table k).elems, e.container = true → e.table < k
  index_head : ∀ k, ∀ e ∈ (table k).elems, e.type = .object →
    (table e.table).index.head? = some ⟨true, .inst, 0⟩
  set_fits : ∀ k, ∀ e ∈ (table k).elems, e.setFits (table k) = true
  array_leaf : ∀ k, ∀ e ∈ (table k).elems, e.type = .object → e.flags.array = true →
    ∀ e0 ∈ (table e.table).elems.head?, e0.container = false
  get_leaf : ∀ k, ∀ e ∈ (table k).elems, e.flags.get = true → e.container = false

/-- `dm_sel2name`: the dotted name of a selector, if it fits into `size` bytes. `row` tells that the
next id is an instance number. -/
def sel2nameFrom (S : Schema) : Selector → ℕ → Bool → Bool → ℕ → Option (List ℕ)
  | [], _, _, _, _ => some []
  | id :: sel, kw, row, first, size =>
    if id = 0 ∨ size ≤ 1 then some []
    else
      let dot := if first = true then [] else [46]
      let size := size - dot.length
      if row = true then do
        -- `snprintf` cuts the number at the end of the buffer
        let l := Decimal.decimal id
        let rest ← sel2nameFrom S sel kw false false (size - l.length)
        some (dot ++ l.take (size - 1) ++ rest)
      else do
        let e ← (S.table kw).elems[id - 1]?
        if size ≤ e.key.length then none
        else if e.container = true then do
          let rest ← sel2nameFrom S sel e.table (e.type = .object) false (size - e.key.length)
          some (dot ++ e.key ++ rest)
        else some (dot ++ e.key)

def dmSel2name (S : Schema) (sel : Selector) (size : ℕ) : Option (List ℕ) :=
  sel2nameFrom S (sel.take dmSelectorLen) S.root false true size

end Mand.Store
