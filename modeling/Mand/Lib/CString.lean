import Mand.Lib.Bytes
import Mathlib.Data.List.TakeWhile

/-! # Strings in memory

A string is what stands in an allocation from a place up to the next zero. The functions of the C library fail if they
leave the allocation. -/
namespace Mand.CString
open Mand.Bytes
set_option autoImplicit false

/-- The characters of a string. -/
abbrev Text := {t : List UInt8 // ∀ c ∈ t, c ≠ 0}

/-- The string at `i`, if it ends in the allocation. -/
def textAt (m : Mem) (i : ℕ) : Option (List UInt8) :=
  if 0 ∈ m.drop i then some ((m.drop i).takeWhile (· ≠ 0)) else none

/-- Whether the first `n` characters are the same. -/
def strncmp (a b : List UInt8) (n : ℕ) : Bool := (a ++ [0]).take n = (b ++ [0]).take n

/-- The place of a character in a string. -/
def strchr (t : List UInt8) (c : UInt8) : Option ℕ := t.idxOf? c

def memmove (m : Mem) (dst src n : ℕ) : Option Mem := do
  let bs ← peek m src n
  poke m dst bs

theorem textAt_eq {t : List UInt8} (ht : ∀ c ∈ t, c ≠ 0) (pre rest : List UInt8) :
    textAt (pre ++ (t ++ 0 :: rest)) pre.length = some t := by
  rw [textAt, List.drop_left, if_pos (by simp), List.takeWhile_append_of_pos (fun c hc => decide_eq_true (ht c hc)),
    List.takeWhile_cons_of_neg (by simp), List.append_nil]

theorem textAt_length {m t : List UInt8} {i : ℕ} (h : textAt m i = some t) : i + t.length < m.length := by
  unfold textAt at h
  split_ifs at h with hzero
  cases h
  have hle : ((m.drop i).takeWhile (· ≠ 0)).length < (m.drop i).length := by
    refine lt_of_le_of_ne (List.takeWhile_prefix _).length_le fun heq => ?_
    have hall := (List.takeWhile_prefix (fun c : UInt8 => decide (c ≠ 0))).eq_of_length heq
    rw [← hall] at hzero
    simpa using List.mem_takeWhile_imp hzero
  rw [List.length_drop] at hle
  omega

theorem strchr_append {t : List UInt8} {c : UInt8} (ht : c ∉ t) (rest : List UInt8) : strchr (t ++ c :: rest) c = some t.length := by
  unfold strchr
  induction t with
  | nil => simp [List.idxOf?_cons]
  | cons x t ih =>
    have hx : (x == c) = false := beq_false_of_ne fun h => ht (h ▸ List.mem_cons_self)
    rw [List.cons_append, List.idxOf?_cons, hx, ih fun h => ht (List.mem_cons_of_mem x h)]
    rfl

theorem strchr_eq_none {t : List UInt8} {c : UInt8} (ht : c ∉ t) : strchr t c = none := List.idxOf?_eq_none_iff.mpr ht

theorem strncmp_eq {a b : List UInt8} (h : a.length ≤ b.length) : strncmp a b a.length = true ↔ a = b.take a.length := by
  rw [strncmp, decide_eq_true_iff, List.take_left' rfl, List.take_append_of_le_length h]

theorem memmove_down (pre old mid post : List UInt8) :
    memmove (pre ++ (old ++ (mid ++ post))) pre.length (pre.length + old.length) mid.length =
      some (pre ++ (mid ++ (old ++ (mid ++ post)).drop mid.length)) := by
  have hread : peek (pre ++ (old ++ (mid ++ post))) (pre.length + old.length) mid.length = some mid :=
    peek_middle _ (pre ++ old) mid post _ _ (by simp) (by simp) rfl
  rw [memmove, hread, Option.bind_eq_bind, Option.bind_some, poke_ahead _ _ _ (by simp; omega), List.append_assoc]

end Mand.CString
