import Mathlib.Data.Nat.Digits.Lemmas

/-! # Decimal numbers as text

The bytes of a number in base ten, as `printf` writes them, and the number that a text stands for. -/
namespace Mand.Decimal
set_option autoImplicit false

def decimal (n : ℕ) : List ℕ := if n = 0 then [48] else (Nat.digits 10 n).reverse.map (· + 48)

/-- The number that a text of digits stands for. -/
def undecimal (l : List ℕ) : ℕ := l.foldl (fun n c => n * 10 + (c - 48)) 0

theorem decimal_of_ne {n : ℕ} (h : n ≠ 0) : decimal n = (Nat.digits 10 n).reverse.map (· + 48) := if_neg h

theorem decimal_digit {n c : ℕ} (h : c ∈ decimal n) : 48 ≤ c ∧ c ≤ 57 := by
  by_cases hn : n = 0
  · rw [hn] at h
    simp only [decimal, if_true, List.mem_singleton] at h
    omega
  · rw [decimal_of_ne hn] at h
    obtain ⟨d, hd, rfl⟩ := List.mem_map.mp h
    have := Nat.digits_lt_base (by omega : 1 < 10) (List.mem_reverse.mp hd)
    omega

theorem decimal_ne_nil (n : ℕ) : decimal n ≠ [] := by
  by_cases hn : n = 0
  · simp [decimal, hn]
  · rw [decimal_of_ne hn]
    simpa using Nat.digits_ne_nil_iff_ne_zero.mpr hn

theorem undecimal_decimal (n : ℕ) : undecimal (decimal n) = n := by
  by_cases hn : n = 0
  · simp [decimal, undecimal, hn]
  · rw [decimal_of_ne hn, undecimal, List.foldl_map, List.foldl_reverse]
    have hstep : (fun (x y : ℕ) => y * 10 + (x + 48 - 48)) = fun x y => x + 10 * y := by
      funext x y
      omega
    rw [hstep]
    have h := Nat.ofDigits_digits 10 n
    rw [Nat.ofDigits_eq_foldr] at h
    exact h

theorem undecimal_foldl_lt (l : List ℕ) (hl : ∀ c ∈ l, c ≤ 57) (a : ℕ) :
    l.foldl (fun n c => n * 10 + (c - 48)) a < (a + 1) * 10 ^ l.length := by
  induction l generalizing a with
  | nil => simp
  | cons c l ih =>
    have hc := hl c List.mem_cons_self
    have hstep := ih (fun c hc => hl c (List.mem_cons_of_mem _ hc)) (a * 10 + (c - 48))
    refine lt_of_lt_of_le hstep ?_
    rw [List.length_cons, pow_succ', ← mul_assoc]
    exact Nat.mul_le_mul_right _ (by omega)

theorem undecimal_lt (l : List ℕ) (hl : ∀ c ∈ l, c ≤ 57) : undecimal l < 10 ^ l.length := by
  simpa [undecimal] using undecimal_foldl_lt l hl 0

/-- A text that is cut stands for a smaller number. -/
theorem undecimal_take_lt {n k : ℕ} (hn : n ≠ 0) (hk : k < (decimal n).length) : undecimal ((decimal n).take k) < n := by
  have hlt := undecimal_lt ((decimal n).take k) fun c hc => (decimal_digit (List.mem_of_mem_take hc)).2
  rw [List.length_take, Nat.min_eq_left hk.le] at hlt
  have hlow := Nat.base_pow_length_digits_le' 8 n hn
  rw [decimal_of_ne hn, List.length_map, List.length_reverse] at hk
  have hpow : 10 ^ (k + 1) ≤ 10 ^ (Nat.digits 10 n).length := Nat.pow_le_pow_right (by omega) hk
  rw [pow_succ] at hpow
  simp only [Nat.reduceAdd] at hlow
  omega

end Mand.Decimal
