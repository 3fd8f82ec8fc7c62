import Mand.Lib.Digraph
import Mand.Yang.Chains

/-! # The transitive reduction of a matrix

`warshall` changes the matrix it reads. In the pass for `k` row `k` keeps its ones, so a pass adds the paths through
`k` and no others. -/
namespace Mand.Yang
open Relation Mand.Digraph
set_option autoImplicit false

/-- The graph of a matrix. -/
def Ones (n : ℕ) (M : Mat) (i j : ℕ) : Prop := i < n ∧ j < n ∧ M i j = 1

/-- A matrix of zeros and ones. -/
def Mat.Binary (M : Mat) : Prop := ∀ i j, M i j ≤ 1

theorem zero_binary : zero.Binary := fun _ _ => Nat.zero_le 1

theorem Mat.Binary.set {M : Mat} (hM : M.Binary) (i j : ℕ) : (M.set i j 1).Binary := by
  intro a b
  unfold Mat.set
  split
  · exact le_refl 1
  · exact hM a b

theorem Mat.set_eq_one {M : Mat} (i j a b : ℕ) : M.set i j 1 a b = 1 ↔ (a = i ∧ b = j) ∨ M a b = 1 := by
  unfold Mat.set
  split <;> simp_all

/-! ## The closure -/

theorem closeRow_apply (n k i : ℕ) (M : Mat) (a b : ℕ) :
    closeRow n k i M a b = if a = i ∧ b < n ∧ M k b = 1 then 1 else M a b := by
  induction n generalizing a b with
  | zero => simp [closeRow]
  | succ n ih =>
    have hstep : closeRow (n + 1) k i M =
        if closeRow n k i M k n = 1 then (closeRow n k i M).set i n 1 else closeRow n k i M := by
      unfold closeRow
      rw [List.range_succ, List.foldl_append]
      rfl
    have hkn : closeRow n k i M k n = M k n := by
      rw [ih, if_neg (by omega)]
    rw [hstep, hkn]
    by_cases hone : M k n = 1
    · rw [if_pos hone]
      unfold Mat.set
      by_cases hab : a = i ∧ b = n
      · rw [if_pos hab, if_pos ⟨hab.1, by omega, hab.2 ▸ hone⟩]
      · rw [if_neg hab, ih]
        refine if_congr ?_ rfl rfl
        grind
    · rw [if_neg hone, ih]
      refine if_congr ?_ rfl rfl
      grind

/-- The rows of one pass, up to a bound. -/
theorem closeVia_rows (n k m : ℕ) (M : Mat) (a b : ℕ) :
    (List.range m).foldl (fun M i => if M i k = 1 then closeRow n k i M else M) M a b =
      if a < m ∧ b < n ∧ M a k = 1 ∧ M k b = 1 then 1 else M a b := by
  induction m generalizing a b with
  | zero => simp
  | succ m ih =>
    simp only [List.range_succ, List.foldl_append, List.foldl_cons, List.foldl_nil]
    generalize (List.range m).foldl (fun M i => if M i k = 1 then closeRow n k i M else M) M = M' at ih
    have hmk : M' m k = M m k := by rw [ih, if_neg (by omega)]
    -- row k has the ones it had
    have hrow : M' k b = 1 ↔ M k b = 1 := by
      rw [ih]
      split <;> simp_all
    rw [hmk]
    by_cases hone : M m k = 1
    · rw [if_pos hone, closeRow_apply]
      simp only [hrow]
      rw [ih]
      by_cases hin : a = m ∧ b < n ∧ M k b = 1
      · rw [if_pos hin, if_pos ⟨by omega, hin.2.1, hin.1 ▸ hone, hin.2.2⟩]
      · rw [if_neg hin]
        refine if_congr ?_ rfl rfl
        grind
    · rw [if_neg hone, ih]
      refine if_congr ?_ rfl rfl
      grind

theorem closeVia_apply (n k : ℕ) (M : Mat) (a b : ℕ) :
    closeVia n k M a b = if a < n ∧ b < n ∧ M a k = 1 ∧ M k b = 1 then 1 else M a b := closeVia_rows n k n M a b

theorem closeVia_ones {n k : ℕ} (hk : k < n) (M : Mat) (i j : ℕ) :
    Ones n (closeVia n k M) i j ↔ Ones n M i j ∨ Ones n M i k ∧ Ones n M k j := by
  unfold Ones
  rw [closeVia_apply]
  split <;> grind

theorem closeVia_binary {n k : ℕ} {M : Mat} (hM : M.Binary) : (closeVia n k M).Binary := by
  intro i j
  rw [closeVia_apply]
  split
  · exact le_refl 1
  · exact hM i j

/-- The passes for the vertices below `k`. -/
theorem passes_ones {n k : ℕ} (hk : k ≤ n) (M : Mat) (i j : ℕ) :
    Ones n ((List.range k).foldl (fun M k => closeVia n k M) M) i j ↔ Via (Ones n M) k i j := by
  induction k generalizing i j with
  | zero => rfl
  | succ k ih =>
    have hlt : k < n := hk
    simp only [List.range_succ, List.foldl_append, List.foldl_cons, List.foldl_nil]
    rw [closeVia_ones hlt, ih (by omega), ih (by omega), ih (by omega)]
    rfl

theorem ones_lt {n : ℕ} {M : Mat} (i j : ℕ) (h : Ones n M i j) : i < n ∧ j < n := ⟨h.1, h.2.1⟩

/-- `warshall` is the transitive closure. -/
theorem warshall_ones (n : ℕ) (M : Mat) (i j : ℕ) : Ones n (warshall n M) i j ↔ TransGen (Ones n M) i j := by
  unfold warshall
  rw [passes_ones (le_refl n), via_iff ones_lt]

theorem warshall_binary {n : ℕ} {M : Mat} (hM : M.Binary) : (warshall n M).Binary := by
  unfold warshall
  exact List.foldlRecOn (List.range n) _ hM fun M hM k _ => closeVia_binary hM

/-! ## The reduction -/

theorem relMult_eq_one {n : ℕ} {M1 M2 : Mat} (h1 : M1.Binary) (h2 : M2.Binary) {i j : ℕ} (hi : i < n) (hj : j < n) :
    relMult n M1 M2 i j = 1 ↔ ∃ k, Ones n M1 i k ∧ Ones n M2 k j := by
  have hpos : 0 < ((List.range n).map fun k => M1 i k * M2 k j).sum ↔ ∃ k, Ones n M1 i k ∧ Ones n M2 k j := by
    rw [Nat.pos_iff_ne_zero, Ne, List.sum_eq_zero_iff_forall_eq_nat]
    constructor
    · intro h
      simp only [List.mem_map, List.mem_range] at h
      push Not at h
      obtain ⟨x, ⟨k, hk, hx⟩, hne⟩ := h
      have hne1 : M1 i k ≠ 0 := fun h0 => hne (by rw [← hx, h0, Nat.zero_mul])
      have hne2 : M2 k j ≠ 0 := fun h0 => hne (by rw [← hx, h0, Nat.mul_zero])
      have := h1 i k
      have := h2 k j
      exact ⟨k, ⟨hi, hk, by omega⟩, hk, hj, by omega⟩
    · rintro ⟨k, ⟨_, hk, hik⟩, _, _, hkj⟩ hall
      have := hall _ (List.mem_map.mpr ⟨k, List.mem_range.mpr hk, rfl⟩)
      rw [hik, hkj] at this
      omega
  unfold relMult
  rw [← hpos]
  dsimp only
  split <;> omega

theorem relMult_binary (n : ℕ) (M1 M2 : Mat) : (relMult n M1 M2).Binary := by
  intro i j
  unfold relMult
  dsimp only
  split <;> omega

/-- What is left are the edges that no longer path stands for. -/
theorem transReduct_ne_zero {n : ℕ} {M : Mat} (hM : M.Binary) {i j : ℕ} (hi : i < n) (hj : j < n) :
    transReduct n M i j ≠ 0 ↔ Reduct (Ones n M) i j := by
  have hmult := relMult_eq_one hM (warshall_binary (n := n) hM) hi hj
  simp only [warshall_ones] at hmult
  have h1 := hM i j
  have h2 := relMult_binary n M (warshall n M) i j
  unfold transReduct setSubstr Reduct
  rw [← hmult, Ones]
  constructor
  · intro h
    exact ⟨⟨hi, hj, by omega⟩, by omega⟩
  · rintro ⟨⟨_, _, hone⟩, hne⟩
    omega

end Mand.Yang
