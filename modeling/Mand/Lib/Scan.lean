import Mand.Lib.Decimal
import Mathlib.Data.List.TakeWhile

/-! # Reading numbers

The numbers at the head of a text, as `strtol` and the conversions of `scanf` read them in base ten, and the texts that
`printf` writes. A text is a list of bytes without a zero. -/
namespace Mand.Scan
open Mand.Decimal
set_option autoImplicit false

def isspace (c : ℕ) : Bool := c = 32 ∨ 9 ≤ c ∧ c ≤ 13

def digit (c : ℕ) : Bool := 48 ≤ c ∧ c ≤ 57

/-- Digits are a number, and what is behind them is left. -/
def readNat (s : List ℕ) : Option (ℕ × List ℕ) :=
  if s.takeWhile digit = [] then none else some (undecimal (s.takeWhile digit), s.dropWhile digit)

/-- Space, a sign and digits; nothing if there is no digit. -/
def readInt (s : List ℕ) : Option (ℤ × List ℕ) :=
  match s.dropWhile isspace with
  | 45 :: t => (readNat t).map fun r => (-(r.1 : ℤ), r.2)
  | 43 :: t => (readNat t).map fun r => ((r.1 : ℤ), r.2)
  | t => (readNat t).map fun r => ((r.1 : ℤ), r.2)

/-- `strtol` and `strtoll`: out of range is the end of the range, no number is zero. -/
def strtol (s : List ℕ) : ℤ × List ℕ :=
  match readInt s with
  | some (n, rest) => (max (-2 ^ 63) (min n (2 ^ 63 - 1)), rest)
  | none => (0, s)

/-- `strtoul` and `strtoull`: a number with a sign is negated modulo `2 ^ 64`. -/
def strtoul (s : List ℕ) : ℕ × List ℕ :=
  match readInt s with
  | some (n, rest) => (if 2 ^ 64 ≤ n.natAbs then 2 ^ 64 - 1 else (n % 2 ^ 64).toNat, rest)
  | none => (0, s)

/-- `%d` of `scanf`: a `long` whose low half goes into an `int`. -/
def scanInt (s : List ℕ) : Option (ℤ × List ℕ) :=
  (readInt s).map fun r => ((max (-2 ^ 63) (min r.1 (2 ^ 63 - 1))).bmod (2 ^ 32), r.2)

/-- `%d` of `printf`. -/
def intText (n : ℤ) : List ℕ := if n < 0 then 45 :: decimal n.natAbs else decimal n.natAbs

/-- `%02d` of `printf` for numbers that are not negative. -/
def twoDigits (n : ℤ) : List ℕ := if n < 10 then 48 :: intText n else intText n

/-! ## What is written is read -/

/-- What stops a number. -/
def Stops (s : List ℕ) : Prop := ∀ c ∈ s.head?, digit c = false

theorem stops_nil : Stops [] := by simp [Stops]

theorem stops_cons {c : ℕ} (h : digit c = false) (s : List ℕ) : Stops (c :: s) := by
  simpa [Stops] using h

theorem readNat_append {ds rest : List ℕ} (hds : ∀ c ∈ ds, digit c = true) (hne : ds ≠ []) (hrest : Stops rest) :
    readNat (ds ++ rest) = some (undecimal ds, rest) := by
  have htake : (ds ++ rest).takeWhile digit = ds := by
    rw [List.takeWhile_append_of_pos hds]
    cases rest with
    | nil => simp
    | cons c rest =>
      have hc : digit c = false := hrest c rfl
      rw [List.takeWhile_cons_of_neg (by simp [hc]), List.append_nil]
  have hdrop : (ds ++ rest).dropWhile digit = rest := by
    rw [List.dropWhile_append_of_pos hds]
    cases rest with
    | nil => rfl
    | cons c rest =>
      have hc : digit c = false := hrest c rfl
      rw [List.dropWhile_cons_of_neg (by simp [hc])]
  rw [readNat, htake, hdrop, if_neg hne]

theorem digit_decimal {n c : ℕ} (h : c ∈ decimal n) : digit c = true := by
  have := decimal_digit h
  simpa [digit] using this

theorem decimal_cons (n : ℕ) : ∃ c ds, decimal n = c :: ds ∧ 48 ≤ c ∧ c ≤ 57 := by
  obtain ⟨c, ds, h⟩ := List.exists_cons_of_ne_nil (decimal_ne_nil n)
  exact ⟨c, ds, h, decimal_digit (by rw [h]; exact List.mem_cons_self)⟩

/-- Digits are read without a sign. -/
theorem readInt_digit {c : ℕ} (hc : 48 ≤ c ∧ c ≤ 57) (s : List ℕ) :
    readInt (c :: s) = (readNat (c :: s)).map fun r => ((r.1 : ℤ), r.2) := by
  have hspace : isspace c = false := by
    simp only [isspace, decide_eq_false_iff_not]
    omega
  unfold readInt
  rw [List.dropWhile_cons_of_neg (by simp [hspace])]
  split
  · rename_i h
    cases h
    omega
  · rename_i h
    cases h
    omega
  · rfl

theorem readInt_digits {ds rest : List ℕ} (hds : ∀ c ∈ ds, digit c = true) (hne : ds ≠ []) (hrest : Stops rest) :
    readInt (ds ++ rest) = some ((undecimal ds : ℤ), rest) := by
  obtain ⟨c, cs, rfl⟩ := List.exists_cons_of_ne_nil hne
  have hc : digit c = true := hds c List.mem_cons_self
  rw [List.cons_append, readInt_digit (by simpa [digit] using hc), ← List.cons_append, readNat_append hds hne hrest]
  rfl

theorem readInt_intText (n : ℤ) {rest : List ℕ} (hrest : Stops rest) : readInt (intText n ++ rest) = some (n, rest) := by
  have hds : ∀ c ∈ decimal n.natAbs, digit c = true := fun c hc => digit_decimal hc
  unfold intText
  by_cases hn : n < 0
  · rw [if_pos hn]
    have hread := readNat_append hds (decimal_ne_nil _) hrest
    show (readNat (decimal n.natAbs ++ rest)).map _ = _
    rw [hread, undecimal_decimal, Option.map_some, Option.some.injEq, Prod.mk.injEq]
    exact ⟨by omega, rfl⟩
  · rw [if_neg hn, readInt_digits hds (decimal_ne_nil _) hrest, undecimal_decimal, Option.some.injEq, Prod.mk.injEq]
    exact ⟨by omega, rfl⟩

theorem readInt_twoDigits {n : ℤ} (hn : 0 ≤ n) {rest : List ℕ} (hrest : Stops rest) :
    readInt (twoDigits n ++ rest) = some (n, rest) := by
  unfold twoDigits
  by_cases h10 : n < 10
  · have hds : ∀ c ∈ 48 :: decimal n.natAbs, digit c = true := by
      intro c hc
      rcases List.mem_cons.mp hc with rfl | hc
      · rfl
      · exact digit_decimal hc
    have hzero : undecimal (48 :: decimal n.natAbs) = undecimal (decimal n.natAbs) := rfl
    rw [if_pos h10, intText, if_neg (by omega), readInt_digits hds (by simp) hrest, hzero, undecimal_decimal,
      Option.some.injEq, Prod.mk.injEq]
    exact ⟨by omega, rfl⟩
  · rw [if_neg h10]
    exact readInt_intText n hrest

/-- A number that fits is read back by the conversions. -/
theorem scanInt_of_readInt {s rest : List ℕ} {n : ℤ} (h : readInt s = some (n, rest)) (hlow : -2 ^ 31 ≤ n)
    (hhigh : n < 2 ^ 31) : scanInt s = some (n, rest) := by
  rw [scanInt, h, Option.map_some, Option.some.injEq, Prod.mk.injEq]
  refine ⟨?_, rfl⟩
  have hmax : max (-2 ^ 63) (min n (2 ^ 63 - 1)) = n := by omega
  simp only [hmax]
  exact Int.bmod_eq_of_le_mul_two (by omega) (by omega)

theorem strtol_intText {n : ℤ} (hlow : -2 ^ 63 ≤ n) (hhigh : n < 2 ^ 63) : strtol (intText n) = (n, []) := by
  have h := readInt_intText n stops_nil
  rw [List.append_nil] at h
  rw [strtol, h]
  simp only [Prod.mk.injEq, and_true]
  omega

theorem strtoul_intText {n : ℤ} (hlow : -2 ^ 63 ≤ n) (hhigh : n < 2 ^ 64) : strtoul (intText n) = ((n % 2 ^ 64).toNat, []) := by
  have h := readInt_intText n stops_nil
  rw [List.append_nil] at h
  rw [strtoul, h]
  simp only [Prod.mk.injEq, and_true]
  rw [if_neg (by omega)]

theorem intText_natCast (n : ℕ) : intText n = decimal n := by
  rw [intText, if_neg (by omega), Int.natAbs_natCast]

theorem mem_intText {n : ℤ} {c : ℕ} (h : c ∈ intText n) : 0 < c ∧ c < 128 := by
  unfold intText at h
  split_ifs at h
  · rcases List.mem_cons.mp h with rfl | h
    · omega
    · have := decimal_digit h
      omega
  · have := decimal_digit h
    omega

theorem mem_twoDigits {n : ℤ} {c : ℕ} (h : c ∈ twoDigits n) : 0 < c ∧ c < 128 := by
  unfold twoDigits at h
  split_ifs at h
  · rcases List.mem_cons.mp h with rfl | h
    · omega
    · exact mem_intText h
  · exact mem_intText h

theorem length_decimal_le {n k : ℕ} (hk : 0 < k) (h : n < 10 ^ k) : (decimal n).length ≤ k := by
  by_cases hn : n = 0
  · rw [hn]
    exact hk
  · rw [decimal_of_ne hn, List.length_map, List.length_reverse]
    exact (Nat.digits_length_le_iff (by omega) n).mpr h

theorem length_intText_le {n : ℤ} {k : ℕ} (hk : 0 < k) (h : n.natAbs < 10 ^ k) : (intText n).length ≤ k + 1 := by
  have hlen := length_decimal_le hk h
  unfold intText
  split_ifs
  · simpa using hlen
  · omega

theorem length_twoDigits_le {n : ℤ} {k : ℕ} (hk : 0 < k) (h : n.natAbs < 10 ^ k) : (twoDigits n).length ≤ k + 2 := by
  have hlen := length_intText_le hk h
  unfold twoDigits
  split_ifs
  · simpa using hlen
  · omega

end Mand.Scan
