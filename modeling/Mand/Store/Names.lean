import Mand.Store.Schema

/-! # Names of parameters

`dm_name2sel`: the selector that a dotted name stands for. What stands behind the name of a leaf is not
read. -/
namespace Mand.Store
set_option autoImplicit false

/-- `DM_ERR`. -/
def dmErr : ℕ := 65535

def isdigit (c : ℕ) : Bool := 48 ≤ c ∧ c ≤ 57

/-- `strtol` of a token in base ten, as a `dm_id`. -/
def strtolId (token : List ℕ) : ℕ :=
  min ((token.takeWhile isdigit).foldl (fun n c => n * 10 + (c - 48)) 0) (2 ^ 63 - 1) % 2 ^ 16

/-- `dm_get_element_id_by_name`. -/
def elementIdByName (S : Schema) (name : List ℕ) (kw : ℕ) : ℕ :=
  match (S.table kw).elems.findIdx? (fun e => e.key = name) with
  | some i => (i + 1) % 2 ^ 16
  | none => dmErr

/-- `next_token`: an id, zero at the end of the name, and what is left of the name. -/
def nextToken (S : Schema) (s : Option (List ℕ)) (kw : ℕ) (row : Bool) : ℕ × Option (List ℕ) :=
  match s with
  | none => (0, none)
  | some text =>
    let token := text.takeWhile (· ≠ 46)
    let rest := if 46 ∈ text then some (text.dropWhile (· ≠ 46)).tail else none
    if row = true then (if isdigit (text.headD 0) = true then strtolId token else dmErr, rest)
    else (elementIdByName S token kw, rest)

/-- The loop of `dm_name2sel`, with the number of ids that are left of the sixteen. `row` tells that the
next token is an instance number. -/
def name2selFrom (S : Schema) : ℕ → Option (List ℕ) → ℕ → Bool → Option Selector
  | 0, _, _, _ => some []
  | n + 1, s, kw, row =>
    let (id, rest) := nextToken S s kw row
    if id = 0 then some []
    else if id = dmErr then none
    else if row = true then (name2selFrom S n rest kw false).map (id :: ·)
    else match (S.table kw).elems[id - 1]? with
      | none => none
      | some e =>
        if e.container = true then (name2selFrom S n rest e.table (e.type = .object)).map (id :: ·)
        else some [id]

def dmName2sel (S : Schema) (name : List ℕ) : Option Selector :=
  if name = [] then some [] else name2selFrom S dmSelectorLen (some name) S.root false

end Mand.Store
