import Mathlib.Data.Int.Notation
import Mathlib.Data.List.Basic
import Mathlib.Tactic.Common

/-! # Values of leaves

The element types, the value union `DM_VALUE` and `dm_compare_values`. A string or a block of bytes
is a list of bytes, a null pointer is `none`. -/
namespace Mand.Store
set_option autoImplicit false

inductive DmType
  | none
  | any
  | token
  | object
  | inst
  | pointer
  | element
  | uint
  | int
  | bool
  | str
  | binary
  | base64
  | date
  | counter
  | enum
  | selector
  | ipaddr4
  | ipaddr6
  | int64
  | uint64
  | ticks
  deriving DecidableEq, Repr

def dmSelectorLen : ℕ := 16

/-- A `dm_selector`: 16 ids, those from the first zero on are padding. -/
abbrev Selector := List ℕ

/-- The ids of a selector up to its end. -/
def selIds (sel : Selector) : Selector := (sel.take dmSelectorLen).takeWhile (· ≠ 0)

/-- `dm_selcat`. -/
def dmSelcat (sel : Selector) (id : ℕ) : Selector := selIds sel ++ [id]

/-- The members of the union that a leaf may use; of a row only its number is seen. -/
inductive Value
  | int (n : ℤ)
  | uint (n : ℕ)
  | bool (n : ℤ)
  | str (s : Option (List ℕ))
  | binary (b : Option (List ℕ))
  | date (n : ℤ)
  | enum (n : ℤ)
  | selector (s : Option Selector)
  | ip4 (b : List ℕ)
  | ip6 (b : List ℕ)
  | int64 (n : ℤ)
  | uint64 (n : ℕ)
  | ticks (n : ℤ)
  | node (inst : ℕ)
  deriving DecidableEq, Repr

/-- `INTCMP`. -/
def intcmp (a b : ℤ) : ℤ := if a < b then -1 else if b < a then 1 else 0

/-- `memcmp` of two blocks of one length, and `strcmp` of two strings: the first difference. -/
def bytecmp : List ℕ → List ℕ → ℤ
  | [], [] => 0
  | [], _ :: _ => -1
  | _ :: _, [] => 1
  | a :: as, b :: bs => if a < b then -1 else if b < a then 1 else bytecmp as bs

/-- `dm_binarycmp`. The source tests `a->len > b->len` twice, so a block and a longer one that
starts with it compare equal in this order. -/
def dmBinarycmp : Option (List ℕ) → Option (List ℕ) → ℤ
  | some a, some b =>
    let n := min a.length b.length
    let r := bytecmp (a.take n) (b.take n)
    if r ≠ 0 then r else if b.length < a.length then 1 else 0
  | none, some _ => -1
  | some _, none => 1
  | none, none => 0

/-- `dm_selcmp` for the first `len` ids. -/
def dmSelcmp (s1 s2 : Selector) : ℕ → ℤ
  | 0 => 0
  | len + 1 =>
    let a := s1.headD 0
    let b := s2.headD 0
    if a = 0 ∧ b = 0 then 0
    else if a < b then -1
    else if b < a then 1
    else dmSelcmp s1.tail s2.tail len

/-- `dm_compare_values`. `diff` is the distance of the two values in memory, which the source falls
back to for all other types. -/
def dmCompareValues (type : DmType) (diff : ℤ) (a b : Value) : ℤ :=
  match type, a, b with
  | .inst, .node x, .node y => intcmp x y
  | .uint, .uint x, .uint y => intcmp x y
  | .int, .int x, .int y => intcmp x y
  | .uint64, .uint64 x, .uint64 y => intcmp x y
  | .int64, .int64 x, .int64 y => intcmp x y
  | .bool, .bool x, .bool y => if x = y then 0 else 1
  | .str, .str (some x), .str (some y) => bytecmp x y
  | .str, .str none, .str (some _) => -1
  | .str, .str (some _), .str none => 1
  | .str, .str none, .str none => 0
  | .binary, .binary x, .binary y => dmBinarycmp x y
  | .base64, .binary x, .binary y => dmBinarycmp x y
  | .date, .date x, .date y => intcmp x y
  | .ticks, .ticks x, .ticks y => intcmp x y
  | .enum, .enum x, .enum y => intcmp x y
  | .selector, .selector (some x), .selector (some y) => dmSelcmp x y dmSelectorLen
  | .selector, .selector none, .selector (some _) => -1
  | .selector, .selector (some _), .selector none => 1
  | .selector, .selector none, .selector none => 0
  | .ipaddr4, .ip4 x, .ip4 y => bytecmp x y
  | .ipaddr6, .ip6 x, .ip6 y => bytecmp x y
  | _, _, _ => diff

end Mand.Store
