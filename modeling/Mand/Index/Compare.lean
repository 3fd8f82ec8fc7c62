import Mand.Index.Order

/-! # When a comparison is a total order

`dm_compare_values` on the values that one column may hold. -/
namespace Mand.Index
open Mand.Groups Mand.Store
set_option autoImplicit false

/-- What is compared of a value. The ids behind the end of a selector are padding. -/
def Value.seen : Value → Value
  | .selector s => .selector (s.map selIds)
  | v => v

/-- A comparison orders the values in `s` totally, and only what is the same compares equal. -/
structure TotalOn (s : Value → Prop) (cmp : Value → Value → ℤ) : Prop extends PreorderOn s cmp where
  eq_iff : ∀ a b, s a → s b → (cmp a b = 0 ↔ Value.seen a = Value.seen b)

/-- The value that a key of this type is: that of a leaf, or the number of a row. -/
def KeyType (type : DmType) (v : Value) : Prop := HasType type v ∨ type = .inst ∧ ∃ n, v = .node n

/-- The number in a row. -/
def Value.rowNumber : Value → ℤ
  | .node n => n
  | _ => 0

def Value.block : Value → Option (List ℕ)
  | .binary b => b
  | _ => none

/-- Booleans have to be equal, and no block may start with another one. -/
def Comparable (type : DmType) (s : Value → Prop) : Prop :=
  match type with
  | .bool => ∀ a b, s a → s b → a = b
  | .binary | .base64 => ∀ x y, s (.binary (some x)) → s (.binary (some y)) → x <+: y → x = y
  | _ => True

/-! ## Equal values -/

theorem bytecmp_eq_zero (a b : List ℕ) : bytecmp a b = 0 ↔ a = b := by
  induction a generalizing b with
  | nil => cases b <;> simp [bytecmp]
  | cons x a ih =>
    cases b with
    | nil => simp [bytecmp]
    | cons y b =>
      rw [bytecmp, List.cons.injEq]
      split_ifs with h1 h2
      · simp [Nat.ne_of_lt h1]
      · simp [Nat.ne_of_gt h2]
      · rw [ih b]
        have hxy : x = y := by omega
        simp [hxy]

theorem nullFirst_eq_zero {α : Type} (cmp : α → α → ℤ) (same : α → α → Prop)
    (h : ∀ a b, cmp a b = 0 ↔ same a b) (a b : Option α) :
    nullFirst cmp a b = 0 ↔ Option.Rel same a b := by
  cases a with
  | none => cases b <;> simp [nullFirst]
  | some a =>
    cases b with
    | none => simp [nullFirst]
    | some b => rw [Option.rel_some_some]; exact h a b

/-! ## Blocks -/

/-- `memcmp` over the shorter length sees no difference exactly if one block starts with the other. -/
theorem bytecmp_common (a b : List ℕ) :
    bytecmp (a.take (min a.length b.length)) (b.take (min a.length b.length)) =
      if a <+: b ∨ b <+: a then 0 else bytecmp a b := by
  induction a generalizing b with
  | nil => simp [bytecmp]
  | cons x a ih =>
    cases b with
    | nil => simp [bytecmp]
    | cons y b =>
      have h := ih b
      have hmin : min (x :: a).length (y :: b).length = min a.length b.length + 1 := by
        simp only [List.length_cons]
        omega
      rw [hmin, List.take_succ_cons, List.take_succ_cons, bytecmp, bytecmp]
      simp only [List.cons_prefix_cons]
      rcases Nat.lt_trichotomy x y with hlt | rfl | hgt
      · rw [if_pos hlt, if_pos hlt, if_neg (by omega)]
      · simp only [Nat.lt_irrefl, if_false, true_and]
        exact h
      · rw [if_neg (by omega), if_pos hgt, if_neg (by omega), if_pos hgt, if_neg (by omega)]

/-- A block that is a proper start of another one compares equal to it. -/
theorem dmBinarycmp_start {a b : List ℕ} (h : a <+: b) : dmBinarycmp (some a) (some b) = 0 := by
  have hlen := h.length_le
  simp only [dmBinarycmp, bytecmp_common, if_pos (Or.inl h)]
  rw [if_neg (by omega), if_neg (by omega)]

/-- Blocks of which none starts with the other compare like strings. -/
theorem dmBinarycmp_eq {s : List ℕ → Prop} (hs : ∀ x y, s x → s y → x <+: y → x = y) {a b : Option (List ℕ)}
    (ha : ∀ x, a = some x → s x) (hb : ∀ y, b = some y → s y) : dmBinarycmp a b = nullFirst bytecmp a b := by
  cases a with
  | none => cases b <;> rfl
  | some x =>
    cases b with
    | none => rfl
    | some y =>
      by_cases hxy : x <+: y
      · rw [dmBinarycmp_start hxy, hs x y (ha x rfl) (hb y rfl) hxy, nullFirst, (bytecmp_eq_zero y y).mpr rfl]
      by_cases hyx : y <+: x
      · exact absurd ((hs y x (hb y rfl) (ha x rfl) hyx) ▸ List.prefix_refl y) hxy
      · have hne : bytecmp x y ≠ 0 := by
          intro h
          exact hxy (((bytecmp_eq_zero x y).mp h) ▸ List.prefix_refl x)
        simp only [dmBinarycmp, bytecmp_common, if_neg (not_or.mpr ⟨hxy, hyx⟩), nullFirst]
        rw [if_pos hne]

/-! ## The comparison -/

section Total
variable {s : Value → Prop} {diff : Value → Value → ℤ} {type : DmType}

/-- A comparison that agrees with a total preorder of some part of the values, in which only the same
values are equal. -/
theorem TotalOn.of_part {α : Type} (cmp : α → α → ℤ) (f : Value → α) (h : PreorderOn (fun _ : α => True) cmp)
    (he : ∀ a b, s a → s b → dmCompareValues type (diff a b) a b = cmp (f a) (f b))
    (h0 : ∀ a b, s a → s b → (cmp (f a) (f b) = 0 ↔ Value.seen a = Value.seen b)) :
    TotalOn s (fun a b => dmCompareValues type (diff a b) a b) := by
  refine ⟨((h.comap f).mono s fun _ _ => trivial).congr he, ?_⟩
  intro a b ha hb
  rw [he a b ha hb]
  exact h0 a b ha hb

theorem bytes_rel (a b : Option (List ℕ)) : nullFirst bytecmp a b = 0 ↔ a = b := by
  rw [nullFirst_eq_zero bytecmp (· = ·) bytecmp_eq_zero]
  cases a <;> cases b <;> simp

theorem ids_rel (a b : Option Selector) :
    nullFirst (dmSelcmp · · dmSelectorLen) a b = 0 ↔ a.map selIds = b.map selIds := by
  rw [nullFirst_eq_zero (dmSelcmp · · dmSelectorLen) (fun a b => selIds a = selIds b)
    fun a b => dmSelcmp_eq_zero dmSelectorLen a b]
  cases a <;> cases b <;> simp

end Total

/-- **Key comparison.** On the values of one type the comparison is a total order, in which only equal values
compare equal, exactly if they are no two booleans and no two blocks of which one starts with the other. -/
theorem compare_total_iff (type : DmType) (htype : type ≠ .counter) (s : Value → Prop) (hs : ∀ v, s v → KeyType type v)
    (diff : Value → Value → ℤ) :
    TotalOn s (fun a b => dmCompareValues type (diff a b) a b) ↔ Comparable type s := by
  have hleaf : type ≠ .inst → ∀ v, s v → HasType type v := by
    intro hne v hv
    exact (hs v hv).resolve_right fun h => hne h.1
  cases type with
  | uint | int | date | enum | int64 | uint64 | ticks =>
    refine iff_of_true (TotalOn.of_part intcmp Value.number intcmp_preorder ?_ ?_) trivial
    · intro a b ha hb
      obtain ⟨x, rfl⟩ := hleaf (by decide) a ha
      obtain ⟨y, rfl⟩ := hleaf (by decide) b hb
      rfl
    · intro a b ha hb
      obtain ⟨x, rfl⟩ := hleaf (by decide) a ha
      obtain ⟨y, rfl⟩ := hleaf (by decide) b hb
      simp [intcmp_eq_zero, Value.number, Value.seen, Int.natCast_inj]
  | str | ipaddr4 | ipaddr6 =>
    refine iff_of_true (TotalOn.of_part (nullFirst bytecmp) Value.bytes (nullFirst_preorder _ bytecmp_preorder)
      ?_ ?_) trivial
    · intro a b ha hb
      obtain ⟨x, rfl⟩ := hleaf (by decide) a ha
      obtain ⟨y, rfl⟩ := hleaf (by decide) b hb
      cases x <;> cases y <;> rfl
    · intro a b ha hb
      obtain ⟨x, rfl⟩ := hleaf (by decide) a ha
      obtain ⟨y, rfl⟩ := hleaf (by decide) b hb
      rw [bytes_rel]
      simp [Value.bytes, Value.seen]
  | selector =>
    refine iff_of_true (TotalOn.of_part (nullFirst (dmSelcmp · · dmSelectorLen)) Value.ids
      (nullFirst_preorder _ (dmSelcmp_preorder _)) ?_ ?_) trivial
    · intro a b ha hb
      obtain ⟨x, rfl⟩ := hleaf (by decide) a ha
      obtain ⟨y, rfl⟩ := hleaf (by decide) b hb
      cases x <;> cases y <;> rfl
    · intro a b ha hb
      obtain ⟨x, rfl⟩ := hleaf (by decide) a ha
      obtain ⟨y, rfl⟩ := hleaf (by decide) b hb
      rw [ids_rel]
      simp [Value.ids, Value.seen]
  | inst =>
    have hnode : ∀ v, s v → ∃ n, v = .node n := fun v hv => ((hs v hv).resolve_left id).2
    refine iff_of_true (TotalOn.of_part intcmp Value.rowNumber intcmp_preorder ?_ ?_) trivial
    · intro a b ha hb
      obtain ⟨x, rfl⟩ := hnode a ha
      obtain ⟨y, rfl⟩ := hnode b hb
      rfl
    · intro a b ha hb
      obtain ⟨x, rfl⟩ := hnode a ha
      obtain ⟨y, rfl⟩ := hnode b hb
      simp [intcmp_eq_zero, Value.rowNumber, Value.seen, Int.natCast_inj]
  | bool =>
    constructor
    · intro h a b ha hb
      obtain ⟨x, rfl⟩ := hleaf (by decide) a ha
      obtain ⟨y, rfl⟩ := hleaf (by decide) b hb
      -- two different ones would both be the greater one
      by_contra hne
      have hxy : x ≠ y := fun hh => hne (by rw [hh])
      have hswap := h.lt_iff_gt (.bool x) (.bool y) ha hb
      simp only [dmCompareValues, if_neg hxy, if_neg hxy.symm] at hswap
      exact absurd (hswap.mpr (by decide)) (by decide)
    · intro h
      refine ⟨⟨?_, ?_⟩, ?_⟩
      · intro a b ha hb
        obtain ⟨x, rfl⟩ := hleaf (by decide) a ha
        rw [← h _ _ ha hb]
        simp [dmCompareValues]
      · intro a b c ha _ hc _ _
        obtain ⟨x, rfl⟩ := hleaf (by decide) a ha
        rw [← h _ _ ha hc]
        simp [dmCompareValues]
      · intro a b ha hb
        obtain ⟨x, rfl⟩ := hleaf (by decide) a ha
        rw [← h _ _ ha hb]
        simp [dmCompareValues]
  | binary | base64 =>
    constructor
    · intro h x y hx hy hpre
      have hsame := (h.eq_iff (.binary (some x)) (.binary (some y)) hx hy).mp (dmBinarycmp_start hpre)
      simpa [Value.seen] using hsame
    · intro h
      refine TotalOn.of_part (nullFirst bytecmp) Value.block (nullFirst_preorder _ bytecmp_preorder) ?_ ?_
      · intro a b ha hb
        obtain ⟨x, rfl⟩ := hleaf (by decide) a ha
        obtain ⟨y, rfl⟩ := hleaf (by decide) b hb
        refine dmBinarycmp_eq (s := fun z => s (.binary (some z))) h ?_ ?_
        · rintro z rfl
          exact ha
        · rintro z rfl
          exact hb
      · intro a b ha hb
        obtain ⟨x, rfl⟩ := hleaf (by decide) a ha
        obtain ⟨y, rfl⟩ := hleaf (by decide) b hb
        rw [bytes_rel]
        simp [Value.block, Value.seen]
  | counter => exact absurd rfl htype
  | none | any | token | object | pointer | element =>
    -- there are no such keys
    have hno : ∀ v, ¬s v := fun v hv => hleaf (by decide) v hv
    exact iff_of_true ⟨⟨fun a b ha => absurd ha (hno a), fun a b c ha => absurd ha (hno a)⟩,
      fun a b ha => absurd ha (hno a)⟩ trivial

/-- Strings with and without a null pointer among them. -/
def sampleStrings (v : Value) : Prop := v = .str none ∨ v = .str (some [97]) ∨ v = .str (some [97, 98])

theorem compare_total_sample :
    TotalOn sampleStrings (fun a b => dmCompareValues .str 0 a b) ↔ Comparable .str sampleStrings := by
  refine compare_total_iff .str (by decide) sampleStrings ?_ fun _ _ => 0
  rintro v (rfl | rfl | rfl)
  · exact .inl ⟨_, rfl⟩
  · exact .inl ⟨_, rfl⟩
  · exact .inl ⟨_, rfl⟩

/-- A block and a longer one that starts with it are equal in one order and not in the other; of two
booleans each is the greater one. -/
theorem compare_not_total :
    (Value.seen (.binary (some [1])) ≠ Value.seen (.binary (some [1, 2])) ∧
      dmCompareValues .binary 0 (.binary (some [1])) (.binary (some [1, 2])) = 0 ∧
      dmCompareValues .binary 0 (.binary (some [1, 2])) (.binary (some [1])) = 1) ∧
    dmCompareValues .bool 0 (.bool 0) (.bool 1) = 1 ∧ dmCompareValues .bool 0 (.bool 1) (.bool 0) = 1 := by
  decide

end Mand.Index
