import Mand.Index.Tree
import Mathlib.Order.Nat

/-! # Which comparisons are orders

All comparisons of `dm_compare_values` order the values of their type totally, but for those of
booleans and of binary blocks. -/
namespace Mand.Index
open Mand.Groups Mand.Store
set_option autoImplicit false

theorem intcmp_preorder : PreorderOn (fun _ : ℤ => True) intcmp := by
  refine ⟨?_, ?_⟩
  · intro a b _ _
    rw [intcmp, intcmp]
    split_ifs <;> omega
  · intro a b c _ _ _ h1 h2
    rw [intcmp] at h1 h2 ⊢
    split_ifs at h1 h2 ⊢ <;> omega

theorem intcmp_eq_zero (a b : ℤ) : intcmp a b = 0 ↔ a = b := by
  unfold intcmp
  split_ifs with h1 h2
  · exact ⟨fun hh => absurd hh (by decide), fun hh => absurd h1 (by omega)⟩
  · exact ⟨fun hh => absurd hh (by decide), fun hh => absurd h2 (by omega)⟩
  · exact ⟨fun _ => by omega, fun _ => rfl⟩

theorem intcmp_lt_zero (a b : ℤ) : intcmp a b < 0 ↔ a < b := by
  unfold intcmp
  split_ifs with h1 h2
  · exact ⟨fun _ => h1, fun _ => by decide⟩
  · exact ⟨fun hh => absurd hh (by decide), fun hh => absurd hh h1⟩
  · exact ⟨fun hh => absurd hh (by decide), fun hh => absurd hh h1⟩

theorem bytecmp_swap (a b : List ℕ) : bytecmp a b < 0 ↔ 0 < bytecmp b a := by
  induction a generalizing b with
  | nil => cases b <;> simp [bytecmp]
  | cons x a ih =>
    cases b with
    | nil => simp [bytecmp]
    | cons y b =>
      have h := ih b
      rw [bytecmp, bytecmp]
      split_ifs <;> omega

theorem bytecmp_trans (a b c : List ℕ) (h1 : bytecmp a b ≤ 0) (h2 : bytecmp b c ≤ 0) :
    bytecmp a c ≤ 0 := by
  induction a generalizing b c with
  | nil => cases c <;> simp [bytecmp]
  | cons x a ih =>
    cases b with
    | nil => simp [bytecmp] at h1
    | cons y b =>
      cases c with
      | nil => simp [bytecmp] at h2
      | cons z c =>
        have h := ih b c
        rw [bytecmp] at h1 h2 ⊢
        split_ifs at h1 h2 ⊢ <;> omega

theorem bytecmp_preorder : PreorderOn (fun _ : List ℕ => True) bytecmp :=
  ⟨fun a b _ _ => bytecmp_swap a b, fun a b c _ _ _ => bytecmp_trans a b c⟩

theorem dmSelcmp_swap (n : ℕ) (a b : Selector) : dmSelcmp a b n < 0 ↔ 0 < dmSelcmp b a n := by
  induction n generalizing a b with
  | zero => simp [dmSelcmp]
  | succ n ih =>
    have h := ih a.tail b.tail
    simp only [dmSelcmp]
    split_ifs <;> omega

theorem dmSelcmp_trans (n : ℕ) (a b c : Selector) (h1 : dmSelcmp a b n ≤ 0)
    (h2 : dmSelcmp b c n ≤ 0) : dmSelcmp a c n ≤ 0 := by
  induction n generalizing a b c with
  | zero => simp [dmSelcmp]
  | succ n ih =>
    have h := ih a.tail b.tail c.tail
    simp only [dmSelcmp] at h1 h2 ⊢
    split_ifs at h1 h2 ⊢ <;> omega

theorem dmSelcmp_preorder (n : ℕ) : PreorderOn (fun _ : Selector => True) (dmSelcmp · · n) :=
  ⟨fun a b _ _ => dmSelcmp_swap n a b, fun a b c _ _ _ => dmSelcmp_trans n a b c⟩

theorem dmSelcmp_eq_symm (n : ℕ) (a b : Selector) (h : dmSelcmp a b n = 0) : dmSelcmp b a n = 0 := by
  have h1 := dmSelcmp_swap n a b
  have h2 := dmSelcmp_swap n b a
  omega

theorem dmSelcmp_eq_trans (n : ℕ) (a b c : Selector) (h1 : dmSelcmp a b n = 0)
    (h2 : dmSelcmp b c n = 0) : dmSelcmp a c n = 0 := by
  have hle := dmSelcmp_trans n a b c (by omega) (by omega)
  have hge := dmSelcmp_trans n c b a (Int.le_of_eq (dmSelcmp_eq_symm n b c h2))
    (Int.le_of_eq (dmSelcmp_eq_symm n a b h1))
  have hswap := dmSelcmp_swap n a c
  have hswap' := dmSelcmp_swap n c a
  omega

theorem dmSelcmp_self (n : ℕ) (a : Selector) : dmSelcmp a a n = 0 := by
  have h := dmSelcmp_swap n a a
  omega

/-- Selectors compare equal if they have the same ids. -/
theorem dmSelcmp_eq_zero (k : ℕ) (a b : Selector) :
    dmSelcmp a b k = 0 ↔ (a.take k).takeWhile (· ≠ 0) = (b.take k).takeWhile (· ≠ 0) := by
  induction k generalizing a b with
  | zero => simp [dmSelcmp]
  | succ k ih =>
    have htail := ih a.tail b.tail
    unfold dmSelcmp
    cases a with
    | nil =>
      cases b with
      | nil => simp
      | cons y b =>
        by_cases hy : y = 0
        · simp [hy]
        · have hpos : 0 < y := Nat.pos_of_ne_zero hy
          simp [hy, hpos]
    | cons x a =>
      cases b with
      | nil =>
        by_cases hx : x = 0
        · simp [hx]
        · have hpos : 0 < x := Nat.pos_of_ne_zero hx
          simp [hx, hpos]
      | cons y b =>
        simp only [List.headD_cons, List.tail_cons] at htail ⊢
        by_cases hx : x = 0
        · by_cases hy : y = 0
          · simp [hx, hy]
          · have hpos : 0 < y := Nat.pos_of_ne_zero hy
            simp [hx, hy, hpos]
        · have hpos : 0 < x := Nat.pos_of_ne_zero hx
          rcases lt_trichotomy x y with h | h | h
          · have hy : y ≠ 0 := by omega
            simp [hx, hy, h, h.ne]
          · simp [hx, ← h, htail]
          · by_cases hy : y = 0
            · simp [hx, hy, hpos]
            · simp [hx, hy, h, h.ne', h.not_gt]

/-- A null pointer comes first. -/
def nullFirst {α : Type} (cmp : α → α → ℤ) : Option α → Option α → ℤ
  | some a, some b => cmp a b
  | none, some _ => -1
  | some _, none => 1
  | none, none => 0

theorem nullFirst_preorder {α : Type} (cmp : α → α → ℤ)
    (h : PreorderOn (fun _ : α => True) cmp) :
    PreorderOn (fun _ : Option α => True) (nullFirst cmp) := by
  refine ⟨?_, ?_⟩
  · intro a b _ _
    cases a with
    | none => cases b <;> simp [nullFirst]
    | some a =>
      cases b with
      | none => simp [nullFirst]
      | some b => exact h.lt_iff_gt a b trivial trivial
  · intro a b c _ _ _ h1 h2
    cases a with
    | none => cases c <;> simp [nullFirst]
    | some a =>
      cases b with
      | none => simp [nullFirst] at h1
      | some b =>
        cases c with
        | none => simp [nullFirst] at h2
        | some c => exact h.le_trans a b c trivial trivial trivial h1 h2

/-- The member of the union that an element of the type uses. -/
def HasType : DmType → Value → Prop
  | .uint, v => ∃ n, v = .uint n
  | .int, v => ∃ n, v = .int n
  | .bool, v => ∃ n, v = .bool n
  | .str, v => ∃ s, v = .str s
  | .binary, v => ∃ b, v = .binary b
  | .base64, v => ∃ b, v = .binary b
  | .date, v => ∃ n, v = .date n
  | .counter, v => ∃ n, v = .uint n
  | .enum, v => ∃ n, v = .enum n
  | .selector, v => ∃ s, v = .selector s
  | .ipaddr4, v => ∃ b, v = .ip4 b
  | .ipaddr6, v => ∃ b, v = .ip6 b
  | .int64, v => ∃ n, v = .int64 n
  | .uint64, v => ∃ n, v = .uint64 n
  | .ticks, v => ∃ n, v = .ticks n
  | _, _ => False

/-- The number in a value, for the types that are compared as numbers. -/
def Value.number : Value → ℤ
  | .int n => n
  | .uint n => n
  | .date n => n
  | .enum n => n
  | .int64 n => n
  | .uint64 n => n
  | .ticks n => n
  | _ => 0

def Value.bytes : Value → Option (List ℕ)
  | .str s => s
  | .ip4 b => some b
  | .ip6 b => some b
  | _ => none

def Value.ids : Value → Option Selector
  | .selector s => s
  | _ => none

/-- A comparison that agrees with a total preorder of some part of the values. -/
theorem compareValues_preorder {α : Type} (type : DmType) (cmp : α → α → ℤ) (f : Value → α)
    (h : PreorderOn (fun _ : α => True) cmp)
    (he : ∀ d a b, HasType type a → HasType type b → dmCompareValues type d a b = cmp (f a) (f b)) :
    PreorderOn (fun k : Key => HasType type k.value)
      (fun a b => dmCompareValues type (a.pos - b.pos) a.value b.value) :=
  ((h.comap fun k : Key => f k.value).mono _ fun _ _ => trivial).congr
    fun a b ha hb => he (a.pos - b.pos) a.value b.value ha hb

/-- **Order of the columns.** The keys of a column are totally preordered unless it holds booleans or
binary blocks. -/
theorem column_preorder (e : IndexEntry) (h1 : e.type ≠ .bool) (h2 : e.type ≠ .binary)
    (h3 : e.type ≠ .base64) :
    PreorderOn (fun k => e.type = .inst ∨ HasType e.type k.value) e.cmp := by
  obtain ⟨u, type, element⟩ := e
  by_cases hi : type = .inst
  · subst hi
    exact ((intcmp_preorder.comap Key.inst).mono _ fun _ _ => trivial).congr fun a b _ _ => rfl
  · have hne : ∀ a b, IndexEntry.cmp ⟨u, type, element⟩ a b =
        dmCompareValues type (a.pos - b.pos) a.value b.value := fun a b => if_neg hi
    have hor : ∀ k : Key, type = .inst ∨ HasType type k.value → HasType type k.value :=
      fun k hk => hk.resolve_left hi
    refine (PreorderOn.mono ?_ _ hor).congr fun a b _ _ => hne a b
    cases type with
    | uint | int | date | enum | int64 | uint64 | ticks =>
      refine compareValues_preorder _ intcmp Value.number intcmp_preorder ?_
      rintro d _ _ ⟨a, rfl⟩ ⟨b, rfl⟩
      rfl
    | str | ipaddr4 | ipaddr6 =>
      refine compareValues_preorder _ (nullFirst bytecmp) Value.bytes
        (nullFirst_preorder _ bytecmp_preorder) ?_
      rintro d _ _ ⟨a, rfl⟩ ⟨b, rfl⟩
      cases a <;> cases b <;> rfl
    | selector =>
      refine compareValues_preorder _ (nullFirst (dmSelcmp · · dmSelectorLen)) Value.ids
        (nullFirst_preorder _ (dmSelcmp_preorder _)) ?_
      rintro d _ _ ⟨a, rfl⟩ ⟨b, rfl⟩
      cases a <;> cases b <;> rfl
    | counter =>
      -- Counters are compared by their place in memory.
      refine ⟨?_, ?_⟩
      · rintro ⟨ia, va, pa⟩ ⟨ib, vb, pb⟩ ⟨a, rfl⟩ ⟨b, rfl⟩
        show pa - pb < 0 ↔ 0 < pb - pa
        omega
      · rintro ⟨ia, va, pa⟩ ⟨ib, vb, pb⟩ ⟨ic, vc, pc⟩ ⟨a, rfl⟩ ⟨b, rfl⟩ ⟨c, rfl⟩ hab hbc
        have hab' : pa - pb ≤ 0 := hab
        have hbc' : pb - pc ≤ 0 := hbc
        show pa - pc ≤ 0
        omega
    | bool => exact absurd rfl h1
    | binary => exact absurd rfl h2
    | base64 => exact absurd rfl h3
    | inst => exact absurd rfl hi
    | none | any | token | object | pointer | element =>
      exact ⟨fun a b ha => absurd ha id, fun a b c ha => absurd ha id⟩

end Mand.Index
