import Mathlib.Algebra.BigOperators.Group.Finset.Basic
import Mathlib.Algebra.Order.BigOperators.Group.Finset
import Mathlib.Algebra.Order.Ring.Int
import Mathlib.Algebra.GroupWithZero.Basic
import Mathlib.Logic.Relation
import Mathlib.Tactic.Common

/-! # Closure and reduction of a relation

Relations on the numbers below `n`, as matrices of zeros and ones: the closure by pivots, the composition
and the difference. -/
namespace Mand.Closure
set_option autoImplicit false

/-- The entries of a square matrix; those from the size on are not looked at. -/
abbrev Mat := ℕ → ℕ → ℤ

/-- The relation of a matrix. -/
def Mat.Rel (M : Mat) (n i j : ℕ) : Prop := i < n ∧ j < n ∧ M i j = 1

/-- Nothing but zeros and ones. -/
def Mat.Binary (M : Mat) : Prop := ∀ i j, M i j = 0 ∨ M i j = 1

/-- Row `i` takes over the ones of row `k`. -/
def addRow (k i : ℕ) (M : Mat) : Mat :=
  if M i k = 1 then Function.update M i (fun j => if M k j = 1 then 1 else M i j) else M

/-- All rows, for one pivot. -/
def pivot (n k : ℕ) (M : Mat) : Mat := (List.range n).foldl (fun M i => addRow k i M) M

/-- All pivots. -/
def warshall (n : ℕ) (M : Mat) : Mat := (List.range n).foldl (fun M k => pivot n k M) M

/-- The composition, with sums cut to one. -/
def relMult (n : ℕ) (M1 M2 : Mat) : Mat := fun i j =>
  if 0 < ∑ k ∈ Finset.range n, M1 i k * M2 k j then 1 else ∑ k ∈ Finset.range n, M1 i k * M2 k j

/-- The difference, with negative entries cut to zero. -/
def setSubstr (M1 M2 : Mat) : Mat := fun i j => if M1 i j - M2 i j < 0 then 0 else M1 i j - M2 i j

def transReduct (n : ℕ) (M : Mat) : Mat := setSubstr M (relMult n M (warshall n M))

/-! ## The closure -/

section Warshall
variable {n k : ℕ} {M : Mat}

theorem addRow_apply (k r : ℕ) (M : Mat) (i j : ℕ) :
    addRow k r M i j = if i = r ∧ M r k = 1 ∧ M k j = 1 then 1 else M i j := by
  unfold addRow
  by_cases hk : M r k = 1
  · rw [if_pos hk]
    by_cases hi : i = r
    · subst hi
      rw [Function.update_self]
      simp [hk]
    · rw [Function.update_of_ne hi]
      simp [hi]
  · rw [if_neg hk]
    simp [hk]

/-- The rows do not disturb each other. -/
theorem rows_apply (m k : ℕ) (M : Mat) (i j : ℕ) :
    (List.range m).foldl (fun M i => addRow k i M) M i j =
      if i < m ∧ M i k = 1 ∧ M k j = 1 then 1 else M i j := by
  induction m generalizing i j with
  | zero => simp
  | succ m ih =>
    rw [List.range_succ, List.foldl_append, List.foldl_cons, List.foldl_nil, addRow_apply, ih m k, ih k j,
      ih i j]
    have hmk : (if m < m ∧ M m k = 1 ∧ M k k = 1 then 1 else M m k) = M m k := by
      rw [if_neg fun h => absurd h.1 (lt_irrefl m)]
    have hkj : (if k < m ∧ M k k = 1 ∧ M k j = 1 then 1 else M k j) = 1 ↔ M k j = 1 := by
      by_cases h : k < m ∧ M k k = 1 ∧ M k j = 1
      · rw [if_pos h]
        exact ⟨fun _ => h.2.2, fun _ => rfl⟩
      · rw [if_neg h]
    rw [hmk]
    simp only [hkj]
    by_cases him : i = m
    · subst him
      simp only [true_and, lt_irrefl, false_and, if_false, Nat.lt_succ_self]
    · have hlt : i < m + 1 ↔ i < m := by omega
      simp only [him, false_and, if_false, hlt]

theorem pivot_apply (n k : ℕ) (M : Mat) (i j : ℕ) :
    pivot n k M i j = if i < n ∧ M i k = 1 ∧ M k j = 1 then 1 else M i j := rows_apply n k M i j

/-- The rounds so far: the matrix has the given relation and steps between related numbers only, and two
steps over a pivot that was done are one step. -/
structure Rounds (R : ℕ → ℕ → Prop) (n k : ℕ) (M : Mat) : Prop where
  base : ∀ i j, R i j → M i j = 1
  sound : ∀ i j, i < n → j < n → M i j = 1 → Relation.TransGen R i j
  closed : ∀ p i j, p < k → i < n → j < n → M i p = 1 → M p j = 1 → M i j = 1

theorem Rounds.step {R : ℕ → ℕ → Prop} (h : Rounds R n k M) (hk : k < n) : Rounds R n (k + 1) (pivot n k M) := by
  have hone : ∀ i j, i < n → (pivot n k M i j = 1 ↔ M i j = 1 ∨ M i k = 1 ∧ M k j = 1) := by
    intro i j hi
    rw [pivot_apply]
    by_cases hp : i < n ∧ M i k = 1 ∧ M k j = 1
    · rw [if_pos hp]
      exact ⟨fun _ => .inr hp.2, fun _ => rfl⟩
    · rw [if_neg hp]
      exact ⟨.inl, fun ho => ho.resolve_right fun hh => hp ⟨hi, hh⟩⟩
  constructor
  · intro i j hr
    rw [pivot_apply, h.base i j hr]
    simp
  · intro i j hi hj hm
    rcases (hone i j hi).mp hm with hm | ⟨h1, h2⟩
    · exact h.sound i j hi hj hm
    · exact (h.sound i k hi hk h1).trans (h.sound k j hk hj h2)
  · intro p i j hp hi hj h1 h2
    have hpn : p < n := by omega
    rw [hone i p hi] at h1
    rw [hone p j hpn] at h2
    rw [hone i j hi]
    by_cases hpk : p = k
    · subst hpk
      have h1 : M i p = 1 := h1.elim id And.left
      have h2 : M p j = 1 := h2.elim id And.right
      exact .inr ⟨h1, h2⟩
    -- an older pivot: whichever way the two steps go, they go over the new pivot or not at all
    have hlt : p < k := by omega
    rcases h1 with h1 | ⟨h1, h1'⟩
    · rcases h2 with h2 | ⟨h2, h2'⟩
      · exact .inl (h.closed p i j hlt hi hj h1 h2)
      · exact .inr ⟨h.closed p i k hlt hi hk h1 h2, h2'⟩
    · rcases h2 with h2 | ⟨h2, h2'⟩
      · exact .inr ⟨h1, h.closed p k j hlt hk hj h1' h2⟩
      · exact .inr ⟨h1, h2'⟩

theorem rounds_warshall {R : ℕ → ℕ → Prop} (hR : ∀ i j, R i j → M i j = 1)
    (hM : ∀ i j, i < n → j < n → M i j = 1 → R i j) (m : ℕ) (hm : m ≤ n) :
    Rounds R n m ((List.range m).foldl (fun M k => pivot n k M) M) := by
  induction m with
  | zero =>
    refine ⟨hR, ?_, ?_⟩
    · intro i j hi hj h
      exact .single (hM i j hi hj h)
    · intro p i j hp
      exact absurd hp (Nat.not_lt_zero p)
  | succ m ih =>
    rw [List.range_succ, List.foldl_append]
    exact (ih (by omega)).step (by omega)

/-- The pivots give the transitive closure. -/
theorem warshall_iff (M : Mat) (n i j : ℕ) (hi : i < n) (hj : j < n) :
    warshall n M i j = 1 ↔ Relation.TransGen (M.Rel n) i j := by
  have h : Rounds (M.Rel n) n n (warshall n M) :=
    rounds_warshall (fun i j hr => hr.2.2) (fun i j hi hj hm => ⟨hi, hj, hm⟩) n (le_refl n)
  refine ⟨h.sound i j hi hj, ?_⟩
  intro hpath
  induction hpath using Relation.TransGen.head_induction_on with
  | single hr => exact h.base _ _ hr
  | head hr _ ih => exact h.closed _ _ _ hr.2.1 hr.1 hj (h.base _ _ hr) (ih hr.2.1)

theorem pivot_binary (hM : M.Binary) (k : ℕ) : (pivot n k M).Binary := by
  intro i j
  rw [pivot_apply]
  split
  · exact .inr rfl
  · exact hM i j

theorem warshall_binary (hM : M.Binary) : (warshall n M).Binary := by
  have hfold : ∀ l : List ℕ, ∀ M : Mat, M.Binary → (l.foldl (fun M k => pivot n k M) M).Binary := by
    intro l
    induction l with
    | nil => exact fun M hM => hM
    | cons k l ih => exact fun M hM => ih _ (pivot_binary hM k)
  exact hfold _ M hM

end Warshall

/-! ## The reduction -/

section Reduction
variable {n : ℕ} {M1 M2 M : Mat}

theorem relMult_binary (h1 : M1.Binary) (h2 : M2.Binary) : (relMult n M1 M2).Binary := by
  intro i j
  have hsum : 0 ≤ ∑ k ∈ Finset.range n, M1 i k * M2 k j := by
    apply Finset.sum_nonneg
    intro k _
    rcases h1 i k with h | h <;> rcases h2 k j with h' | h' <;> simp [h, h']
  unfold relMult
  split
  · exact .inr rfl
  · exact .inl (by omega)

theorem relMult_iff (h1 : M1.Binary) (h2 : M2.Binary) (i j : ℕ) :
    relMult n M1 M2 i j = 1 ↔ ∃ k < n, M1 i k = 1 ∧ M2 k j = 1 := by
  have hnonneg : ∀ k, 0 ≤ M1 i k * M2 k j := by
    intro k
    rcases h1 i k with h | h <;> rcases h2 k j with h' | h' <;> simp [h, h']
  have hpos : (0 < ∑ k ∈ Finset.range n, M1 i k * M2 k j) ↔ ∃ k < n, M1 i k = 1 ∧ M2 k j = 1 := by
    constructor
    · intro hsum
      obtain ⟨k, hk, hne⟩ := Finset.exists_ne_zero_of_sum_ne_zero (ne_of_gt hsum)
      obtain ⟨ha, hb⟩ := mul_ne_zero_iff.mp hne
      exact ⟨k, Finset.mem_range.mp hk, (h1 i k).resolve_left ha, (h2 k j).resolve_left hb⟩
    · rintro ⟨k, hk, ha, hb⟩
      apply Finset.sum_pos' (fun k _ => hnonneg k)
      exact ⟨k, Finset.mem_range.mpr hk, by rw [ha, hb]; decide⟩
  unfold relMult
  by_cases h : 0 < ∑ k ∈ Finset.range n, M1 i k * M2 k j
  · rw [if_pos h]
    exact ⟨fun _ => hpos.mp h, fun _ => rfl⟩
  · rw [if_neg h]
    constructor
    · intro he
      rw [he] at h
      exact absurd Int.one_pos h
    · intro hex
      exact absurd (hpos.mpr hex) h

theorem transReduct_binary (hM : M.Binary) : (transReduct n M).Binary := by
  intro i j
  unfold transReduct setSubstr
  rcases hM i j with h | h <;>
    rcases relMult_binary (n := n) hM (warshall_binary (n := n) hM) i j with h' | h' <;> simp [h, h']

/-- A step stays in the reduction unless it leads where two or more steps lead too. -/
theorem transReduct_iff (hM : M.Binary) (i j : ℕ) (hj : j < n) :
    transReduct n M i j = 1 ↔ M i j = 1 ∧ ¬∃ k < n, M i k = 1 ∧ Relation.TransGen (M.Rel n) k j := by
  have hw := warshall_binary (n := n) hM
  have hcomp : relMult n M (warshall n M) i j = 1 ↔
      ∃ k < n, M i k = 1 ∧ Relation.TransGen (M.Rel n) k j := by
    rw [relMult_iff hM hw]
    constructor
    · rintro ⟨k, hk, h1, h2⟩
      exact ⟨k, hk, h1, (warshall_iff M n k j hk hj).mp h2⟩
    · rintro ⟨k, hk, h1, h2⟩
      exact ⟨k, hk, h1, (warshall_iff M n k j hk hj).mpr h2⟩
  rw [← hcomp]
  unfold transReduct setSubstr
  rcases hM i j with h | h <;> rcases relMult_binary (n := n) hM hw i j with h' | h' <;> simp [h, h']

end Reduction

end Mand.Closure
