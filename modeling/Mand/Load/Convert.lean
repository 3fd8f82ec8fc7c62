import Mand.Lib.Numeral
import Mand.Rpc.Text

/-! # A text becomes the value of a leaf

`dm_string2value` with the value that is there before: the result, the mark that the value has changed, and what is
stored. -/
namespace Mand.Load
open Mand.Store Mand.Save Mand.Index Mand.Rpc Mand.Scan Mand.Notify
set_option autoImplicit false

/-- The result, the `updated` flag and the contents of the value. -/
structure Outcome where
  res : DmResult
  updated : Bool
  value : Value
  deriving DecidableEq, Repr

/-- What a setter leaves: the new contents, or `spoilt` if there is no memory. -/
def stored (r : Except DmResult Value) (spoilt : Value) (updated : Bool) : Outcome :=
  match r with
  | .ok new => ⟨.ok, updated, new⟩
  | .error res => ⟨res, updated, spoilt⟩

/-- A branch that has a new value to compare with the old one, or an error. -/
def compared (old : Value) (r : Except DmResult Value) : Outcome :=
  match r with
  | .ok new => ⟨.ok, old ≠ new, new⟩
  | .error res => ⟨res, false, old⟩

/-- The string, the block and the selector of a value. -/
def stringOf : Value → Option (List ℕ)
  | .str s => s
  | _ => none

def blockOf : Value → Option (List ℕ)
  | .binary b => b
  | _ => none

def selectorOf : Value → Option Selector
  | .selector s => s
  | _ => none

def boolOf : Value → ℤ
  | .bool n => n
  | _ => 0

def addressOf : Value → List ℕ
  | .ip4 b => b
  | .ip6 b => b
  | _ => []

/-- The union of a leaf is written; a container is none of the types below. -/
def putLeaf (c : Content) (new : Value) : Content :=
  match c with
  | .scalar _ => .scalar new
  | c => c

section Convert
variable (D : DecodeEnv) (L : Libc) (memcmp : List ℕ → List ℕ → ℤ)

/-- `dm_set_selector_value`: a selector that is there is overwritten. -/
def overwriteSelector (old : Option Selector) (sel : Selector) : Except DmResult Value :=
  if old.isSome = true ∧ sel.headD 0 ≠ 0 then .ok (.selector (some sel)) else setSelectorValue D sel

/-- An address; of the result of `memcmp` only the low byte is kept. -/
def address (make : List ℕ → Value) (f : Family) (old : Value) (str : List ℕ) : Outcome :=
  match L.pton f str with
  | none => ⟨.invalidValue, false, old⟩
  | some b => ⟨.ok, memcmp (addressOf old) b % 256 ≠ 0, make b⟩

/-- The `switch` of `dm_string2value`. -/
def convert (e : DmElement) (str : List ℕ) (old : Value) : Outcome :=
  match e.type with
  | .str => stored (setStringValue D str) (.str none) ((stringOf old).elim true fun s => bytecmp s str ≠ 0)
  | .binary => stored (setBinaryData D (octets str)) (.binary none) false
  | .base64 =>
    if D.alloc.grants (4 + (str.length + 4) * 3 / 4) = true then
      stored (setBinaryValue D (Base64.from64 str)) (.binary none)
        (dmBinarycmp (blockOf old) (some (Base64.from64 str)) ≠ 0)
    else ⟨.oom, false, old⟩
  | .selector =>
    match if str = [] then some [] else dmName2sel D.schema str with
    | none => ⟨.invalidValue, false, old⟩
    | some sel =>
      stored (overwriteSelector D (selectorOf old) sel) old
        ((selectorOf old).elim true fun s => dmSelcmp s sel dmSelectorLen ≠ 0)
  | .bool =>
    if sameText (ascii "true") str = true then ⟨.ok, boolOf old ≠ 1, .bool 1⟩
    -- the old value as an `uint8_t`
    else if sameText (ascii "false") str = true then ⟨.ok, boolOf old % 256 ≠ 0, .bool 0⟩
    else ⟨.invalidValue, false, old⟩
  | .enum => compared old
    (if dmEnum2int e.enums str = -1 then .error .invalidValue else .ok (.enum (dmEnum2int e.enums str)))
  | .int => compared old (wholeText .invalidValue (strtol str) fun n => .int (n.bmod (2 ^ 32)))
  | .uint => compared old (wholeText .invalidValue (strtoul str) fun n => .uint (n % 2 ^ 32))
  | .int64 => compared old (wholeText .invalidValue (strtol str) .int64)
  | .uint64 => compared old (wholeText .invalidValue (strtoul str) .uint64)
  | .ipaddr4 => address L memcmp .ip4 .inet old str
  | .ipaddr6 => address L memcmp .ip6 .inet6 old str
  | .date => compared old (wholeText .invalidType (strtoul str) fun n => .date ((n : ℤ).bmod (2 ^ 64)))
  | .ticks => compared old
    (match str2ticks L str with
      | some n => .ok (.ticks n)
      | none => wholeText .invalidType (strtoul str) fun n => .ticks ((n : ℤ).bmod (2 ^ 64)))
  | _ => ⟨.invalidType, false, old⟩

/-- The setters of strings, blocks and selectors begin with `DM_parity_assert`. -/
def reachesSetter (e : DmElement) (str : List ℕ) : Bool :=
  match e.type with
  | .str => true
  | .binary => true
  | .base64 => D.alloc.grants (4 + (str.length + 4) * 3 / 4)
  | .selector => str = [] ∨ (dmName2sel D.schema str).isSome = true
  | _ => false

/-- `dm_string2value`. -/
def dmString2value (e : DmElement) (str : Option (List ℕ)) (setUpdate : Bool) (v : DmValue) : Option (DmResult × DmValue) :=
  match str with
  | none => some (.valueNotFound, v)
  | some s =>
    let out := convert D L memcmp e s (leafValue (some v.content))
    let flags := if out.res = .ok ∧ setUpdate = true ∧ out.updated = true then { v.flags with updated := true } else v.flags
    if reachesSetter D e s = true ∧ v.parity = false then none
    else some (out.res, { v with content := putLeaf v.content out.value, flags := flags, parity := true })

end Convert

variable {D : DecodeEnv} {L : Libc} {memcmp : List ℕ → List ℕ → ℤ} {e : DmElement}

/-- What came out, as of a conversion that has no old value. -/
def Outcome.result (o : Outcome) : Except DmResult Value := if o.res = .ok then .ok o.value else .error o.res

theorem compared_result (old : Value) {r : Except DmResult Value} (hr : r ≠ .error .ok) : (compared old r).result = r := by
  cases r with
  | ok new => rfl
  | error res => exact if_neg fun h => hr (congrArg _ h)

theorem stored_result (spoilt : Value) (updated : Bool) {r : Except DmResult Value} (hr : r ≠ .error .ok) :
    (stored r spoilt updated).result = r := by
  cases r with
  | ok new => rfl
  | error res => exact if_neg fun h => hr (congrArg _ h)

theorem wholeText_error {α : Type} {err : DmResult} (herr : err ≠ .ok) (r : α × List ℕ) (value : α → Value) :
    wholeText err r value ≠ .error .ok := by
  unfold wholeText
  split_ifs
  · simp
  · simpa using herr

/-- With enough memory the conversion stores what `Rpc.dmString2value` gives, whatever was there before. -/
theorem convert_result (hD : ∀ n, D.alloc.grants n = true) (str : List ℕ) (old : Value) :
    (convert D L memcmp e str old).result = Rpc.dmString2value D L e str := by
  unfold Rpc.dmString2value convert
  cases e.type
  case str => exact stored_result _ _ (by unfold setStringValue; split_ifs <;> simp)
  case binary => exact stored_result _ _ (by unfold setBinaryData; split_ifs <;> simp)
  case base64 =>
    simp only [base64Value, hD, if_true]
    exact stored_result _ _ (by unfold setBinaryValue; split_ifs <;> simp)
  case selector =>
    have hset (sel : Selector) (b : Bool) :
        (stored (overwriteSelector D (selectorOf old) sel) old b).result = setSelectorValue D sel := by
      unfold overwriteSelector setSelectorValue
      by_cases h0 : sel.headD 0 = 0
      · rw [if_neg (fun h => h.2 h0), if_pos h0]
        rfl
      · rw [if_neg h0, if_pos (hD 32), ite_self]
        rfl
    by_cases hs : str = []
    · simp only [if_pos hs]
      exact hset _ _
    · simp only [if_neg hs]
      cases dmName2sel D.schema str with
      | none => rfl
      | some sel => exact hset _ _
  case bool => split_ifs <;> rfl
  case enum => exact compared_result _ (by split_ifs <;> simp)
  case int => exact compared_result _ (wholeText_error (by simp) _ _)
  case uint => exact compared_result _ (wholeText_error (by simp) _ _)
  case int64 => exact compared_result _ (wholeText_error (by simp) _ _)
  case uint64 => exact compared_result _ (wholeText_error (by simp) _ _)
  case ipaddr4 =>
    unfold address
    cases L.pton .inet str <;> rfl
  case ipaddr6 =>
    unfold address
    cases L.pton .inet6 str <;> rfl
  case date => exact compared_result _ (wholeText_error (by simp) _ _)
  case ticks =>
    refine compared_result _ ?_
    cases str2ticks L str with
    | some n => simp
    | none => exact wholeText_error (by simp) _ _
  all_goals rfl

end Mand.Load
