import Mand.Lib.Groups

/-! # Sets that are ordered by a comparison

What a balanced tree without equal keys holds, in ascending order. A comparison is an integer, as in C. -/
namespace Mand.Keyed
open Mand.Groups
set_option autoImplicit false

variable {E : Type} {cmp : E → E → ℤ}

/-- A total preorder on everything. -/
abbrev Comparison (cmp : E → E → ℤ) : Prop := PreorderOn (fun _ => True) cmp

/-- Add an element; one that compares equal stays. -/
def insert (cmp : E → E → ℤ) (x : E) : List E → List E
  | [] => [x]
  | y :: l =>
    if cmp x y < 0 then x :: y :: l
    else if cmp x y = 0 then y :: l
    else y :: insert cmp x l

/-- Add an element, or let it take the place of the one that compares equal. -/
def upsert (cmp : E → E → ℤ) (merge : E → E → E) (x : E) : List E → List E
  | [] => [x]
  | y :: l =>
    if cmp x y < 0 then x :: y :: l
    else if cmp x y = 0 then merge x y :: l
    else y :: upsert cmp merge x l

/-- The element that compares equal. -/
def find (cmp : E → E → ℤ) (x : E) (l : List E) : Option E := l.find? fun y => cmp x y = 0

def Ordered (cmp : E → E → ℤ) (l : List E) : Prop := l.Pairwise fun a b => cmp a b < 0

/-- Add some elements, one after the other. -/
def insertAll (cmp : E → E → ℤ) (xs l : List E) : List E := xs.foldl (fun l x => insert cmp x l) l

/-- The first comparison decides, the second one where it finds no difference. -/
theorem Comparison.lex {cmp1 cmp2 : E → E → ℤ} (h1 : Comparison cmp1) (h2 : Comparison cmp2) :
    Comparison fun a b => if cmp1 a b = 0 then cmp2 a b else cmp1 a b := by
  refine ⟨?_, ?_⟩
  · intro a b _ _
    have ha := h1.lt_iff_gt a b trivial trivial
    have hb := h1.lt_iff_gt b a trivial trivial
    have hc := h2.lt_iff_gt a b trivial trivial
    split_ifs <;> omega
  · intro a b c _ _ _ hab hbc
    have h12 := h1.le_trans a b c trivial trivial trivial
    have h22 := h2.le_trans a b c trivial trivial trivial
    have hl := h1.lt_of_lt_of_le a b c trivial trivial trivial
    have hr := h1.lt_of_le_of_lt a b c trivial trivial trivial
    split_ifs at hab hbc ⊢ <;> omega

/-! ## Insertion -/

section Insert
variable {x y : E} {l : List E}

theorem mem_of_insert (hy : y ∈ insert cmp x l) : y = x ∨ y ∈ l := by
  induction l with
  | nil => exact .inl (List.mem_singleton.mp hy)
  | cons z l ih =>
    unfold insert at hy
    split at hy
    · exact List.mem_cons.mp hy
    split at hy
    · exact .inr hy
    · rcases List.mem_cons.mp hy with rfl | hy
      · exact .inr List.mem_cons_self
      · exact (ih hy).imp_right (List.mem_cons_of_mem z)

theorem mem_insert_of_mem (hy : y ∈ l) : y ∈ insert cmp x l := by
  induction l with
  | nil => exact absurd hy List.not_mem_nil
  | cons z l ih =>
    unfold insert
    split
    · exact List.mem_cons_of_mem x hy
    split
    · exact hy
    · rcases List.mem_cons.mp hy with rfl | hy
      · exact List.mem_cons_self
      · exact List.mem_cons_of_mem z (ih hy)

/-- Afterwards there is an element that compares equal. -/
theorem exists_insert (h : Comparison cmp) (x : E) (l : List E) : ∃ y ∈ insert cmp x l, cmp x y = 0 := by
  induction l with
  | nil => exact ⟨x, List.mem_singleton.mpr rfl, h.refl x trivial⟩
  | cons z l ih =>
    unfold insert
    split
    · exact ⟨x, List.mem_cons_self, h.refl x trivial⟩
    split
    · exact ⟨z, List.mem_cons_self, ‹_›⟩
    · obtain ⟨y, hy, hc⟩ := ih
      exact ⟨y, List.mem_cons_of_mem z hy, hc⟩

theorem Ordered.insert (h : Comparison cmp) (hl : Ordered cmp l) (x : E) : Ordered cmp (insert cmp x l) := by
  induction l with
  | nil => exact List.pairwise_singleton _ _
  | cons z l ih =>
    obtain ⟨hz, hl⟩ := List.pairwise_cons.mp hl
    unfold Keyed.insert
    split
    · rename_i hxz
      refine List.pairwise_cons.mpr ⟨?_, List.pairwise_cons.mpr ⟨hz, hl⟩⟩
      intro y hy
      rcases List.mem_cons.mp hy with rfl | hy
      · exact hxz
      · exact h.lt_of_lt_of_le x z y trivial trivial trivial hxz (Int.le_of_lt (hz y hy))
    split
    · exact List.pairwise_cons.mpr ⟨hz, hl⟩
    · rename_i hlt hne
      refine List.pairwise_cons.mpr ⟨?_, ih hl⟩
      intro y hy
      rcases mem_of_insert hy with rfl | hy
      · have hs := h.lt_iff_gt z y trivial trivial
        omega
      · exact hz y hy

end Insert

section InsertAll
variable {x y : E} {xs l : List E}

theorem mem_of_insertAll (hy : y ∈ insertAll cmp xs l) : y ∈ xs ∨ y ∈ l := by
  induction xs generalizing l with
  | nil => exact .inr hy
  | cons z xs ih =>
    rcases ih hy with h | h
    · exact .inl (List.mem_cons_of_mem z h)
    · rcases mem_of_insert h with rfl | h
      · exact .inl List.mem_cons_self
      · exact .inr h

theorem mem_insertAll_of_mem (xs : List E) (hy : y ∈ l) : y ∈ insertAll cmp xs l := by
  induction xs generalizing l with
  | nil => exact hy
  | cons z xs ih => exact ih (mem_insert_of_mem hy)

theorem exists_insertAll (h : Comparison cmp) (l : List E) (hx : x ∈ xs) :
    ∃ y ∈ insertAll cmp xs l, cmp x y = 0 := by
  induction xs generalizing l with
  | nil => exact absurd hx List.not_mem_nil
  | cons z xs ih =>
    rcases List.mem_cons.mp hx with rfl | hx
    · obtain ⟨y, hy, hc⟩ := exists_insert h x l
      exact ⟨y, mem_insertAll_of_mem xs hy, hc⟩
    · exact ih (insert cmp z l) hx

theorem Ordered.insertAll (h : Comparison cmp) (hl : Ordered cmp l) (xs : List E) :
    Ordered cmp (insertAll cmp xs l) := by
  induction xs generalizing l with
  | nil => exact hl
  | cons z xs ih => exact ih (hl.insert h z)

end InsertAll

/-! ## Replacement -/

section Find
variable {x y z : E} {l : List E}

theorem find_mem (h : find cmp x l = some y) : y ∈ l := List.mem_of_find?_eq_some h

theorem find_eq (h : find cmp x l = some y) : cmp x y = 0 := by simpa using List.find?_some h

theorem find_none (h : find cmp x l = none) (hy : y ∈ l) : cmp x y ≠ 0 := by
  simpa using List.find?_eq_none.mp h y hy

/-- An ordered list has one element of a kind. -/
theorem Ordered.unique (h : Comparison cmp) (hl : Ordered cmp l) (hy : y ∈ l) (hz : z ∈ l) (hyz : cmp y z = 0) :
    y = z := by
  induction l with
  | nil => cases hy
  | cons w l ih =>
    obtain ⟨hw, hl⟩ := List.pairwise_cons.mp hl
    rcases List.mem_cons.mp hy with rfl | hy'
    · rcases List.mem_cons.mp hz with rfl | hz
      · rfl
      · have hlt := hw z hz
        omega
    · rcases List.mem_cons.mp hz with rfl | hz
      · have hlt := hw y hy'
        have heq := h.eq_symm y z trivial trivial hyz
        omega
      · exact ih hl hy' hz

theorem Ordered.find_eq_some (h : Comparison cmp) (hl : Ordered cmp l) (hy : y ∈ l) (hxy : cmp x y = 0) :
    find cmp x l = some y := by
  cases hf : find cmp x l with
  | none => exact absurd hxy (find_none hf hy)
  | some z =>
    have hzy := h.eq_trans z x y trivial trivial trivial (h.eq_symm x z trivial trivial (find_eq hf)) hxy
    rw [hl.unique h (find_mem hf) hy hzy]

/-- The one element of its kind. -/
theorem Ordered.filter_eq (h : Comparison cmp) (hl : Ordered cmp l) (hy : y ∈ l) :
    l.filter (fun z => cmp y z = 0) = [y] := by
  induction l with
  | nil => cases hy
  | cons w l ih =>
    obtain ⟨hw, hl⟩ := List.pairwise_cons.mp hl
    have hyy := h.refl y trivial
    rcases List.mem_cons.mp hy with rfl | hy'
    · rw [List.filter_cons_of_pos (by simpa using hyy)]
      congr 1
      apply List.filter_eq_nil_iff.mpr
      intro z hz
      have hlt := hw z hz
      simp only [decide_eq_true_eq]
      omega
    · have hlt := hw y hy'
      have hgt := (h.lt_iff_gt w y trivial trivial).mp hlt
      rw [List.filter_cons_of_neg (by simp only [decide_eq_true_eq]; omega)]
      exact ih hl hy'

end Find

section Upsert
variable {merge : E → E → E} {x y : E} {l : List E}

theorem upsert_none (hf : find cmp x l = none) : upsert cmp merge x l = insert cmp x l := by
  induction l with
  | nil => rfl
  | cons z l ih =>
    have hne : cmp x z ≠ 0 := find_none hf List.mem_cons_self
    have hf : find cmp x l = none := by
      rw [find, List.find?_cons_of_neg (by simpa using hne)] at hf
      exact hf
    unfold upsert insert
    rw [if_neg hne, if_neg hne, ih hf]

theorem mem_insert_self (hf : find cmp x l = none) : x ∈ insert cmp x l := by
  induction l with
  | nil => exact List.mem_singleton.mpr rfl
  | cons z l ih =>
    have hne : cmp x z ≠ 0 := find_none hf List.mem_cons_self
    have hf : find cmp x l = none := by
      rw [find, List.find?_cons_of_neg (by simpa using hne)] at hf
      exact hf
    unfold insert
    rw [if_neg hne]
    split
    · exact List.mem_cons_self
    · exact List.mem_cons_of_mem z (ih hf)

/-- What is in an ordered list afterwards. -/
theorem Ordered.mem_upsert (h : Comparison cmp) (hl : Ordered cmp l) : y ∈ upsert cmp merge x l ↔
    (find cmp x l = none ∧ y = x) ∨ (∃ z, find cmp x l = some z ∧ y = merge x z) ∨ (y ∈ l ∧ cmp x y ≠ 0) := by
  cases hf : find cmp x l with
  | none =>
    rw [upsert_none hf]
    constructor
    · intro hy
      rcases mem_of_insert hy with rfl | hy
      · exact .inl ⟨rfl, rfl⟩
      · exact .inr (.inr ⟨hy, find_none hf hy⟩)
    · rintro (⟨-, rfl⟩ | ⟨z, hz, -⟩ | ⟨hy, -⟩)
      · exact mem_insert_self hf
      · cases hz
      · exact mem_insert_of_mem hy
  | some z =>
    have hxz := find_eq hf
    have hz := find_mem hf
    clear hf
    simp only [reduceCtorEq, false_and, false_or, Option.some.injEq, exists_eq_left']
    induction l with
    | nil => cases hz
    | cons w l ih =>
      obtain ⟨hw, hl'⟩ := List.pairwise_cons.mp hl
      unfold upsert
      rcases List.mem_cons.mp hz with rfl | hz
      · -- all the others are behind it
        have hlt : ¬cmp x z < 0 := by omega
        have hrest : ∀ y ∈ l, cmp x y ≠ 0 := by
          intro y hy
          have := h.lt_of_le_of_lt x z y trivial trivial trivial (by omega) (hw y hy)
          omega
        rw [if_neg hlt, if_pos hxz, List.mem_cons, List.mem_cons]
        constructor
        · rintro (hy | hy)
          · exact .inl hy
          · exact .inr ⟨.inr hy, hrest y hy⟩
        · rintro (hy | ⟨hy | hy, hne⟩)
          · exact .inl hy
          · rw [hy] at hne
            exact absurd hxz hne
          · exact .inr hy
      · have hwx : cmp w x < 0 := by
          have hzx := h.eq_symm x z trivial trivial hxz
          exact h.lt_of_lt_of_le w z x trivial trivial trivial (hw z hz) (by omega)
        have hgt := (h.lt_iff_gt w x trivial trivial).mp hwx
        have hrest : y ∈ upsert cmp merge x l ↔ y = merge x z ∨ y ∈ l ∧ cmp x y ≠ 0 := ih hl' hz
        rw [if_neg (by omega), if_neg (by omega), List.mem_cons, List.mem_cons, hrest]
        constructor
        · rintro (hy | hy | ⟨hy, hne⟩)
          · exact .inr ⟨.inl hy, by rw [hy]; omega⟩
          · exact .inl hy
          · exact .inr ⟨.inr hy, hne⟩
        · rintro (hy | ⟨hy | hy, hne⟩)
          · exact .inr (.inl hy)
          · exact .inl hy
          · exact .inr (.inr ⟨hy, hne⟩)

theorem Ordered.upsert (h : Comparison cmp) (hm : ∀ a b c, cmp (merge a b) c = cmp b c ∧ cmp c (merge a b) = cmp c b)
    (hl : Ordered cmp l) (x : E) : Ordered cmp (upsert cmp merge x l) := by
  induction l with
  | nil => exact List.pairwise_singleton _ _
  | cons z l ih =>
    cases hf : find cmp x (z :: l) with
    | none =>
      rw [upsert_none hf]
      exact hl.insert h x
    | some w =>
      obtain ⟨hz, hl'⟩ := List.pairwise_cons.mp hl
      unfold Keyed.upsert
      split
      · -- nothing behind `z` compares equal
        have hxw := find_eq hf
        rcases List.mem_cons.mp (find_mem hf) with rfl | hw
        · omega
        · have := h.lt_of_lt_of_le x z w trivial trivial trivial ‹_› (Int.le_of_lt (hz w hw))
          omega
      split
      · refine List.pairwise_cons.mpr ⟨?_, hl'⟩
        intro y hy
        rw [(hm x z y).1]
        exact hz y hy
      · refine List.pairwise_cons.mpr ⟨?_, ih hl'⟩
        intro y hy
        have hl' : Ordered cmp l := hl'
        rcases (hl'.mem_upsert h).mp hy with ⟨-, rfl⟩ | ⟨v, hv, rfl⟩ | ⟨hy, -⟩
        · have := h.lt_iff_gt z y trivial trivial
          omega
        · rw [(hm x v z).2]
          exact hz v (find_mem hv)
        · exact hz y hy

/-- Nothing changes if the element is there already. -/
theorem Ordered.upsert_eq_iff (h : Comparison cmp)
    (hm : ∀ a b c, cmp (merge a b) c = cmp b c ∧ cmp c (merge a b) = cmp c b) (hl : Ordered cmp l) (x : E) :
    Keyed.upsert cmp merge x l = l ↔ ∃ y ∈ l, cmp x y = 0 ∧ merge x y = y := by
  constructor
  · intro heq
    cases hf : find cmp x l with
    | none =>
      have hx : x ∈ Keyed.upsert cmp merge x l := (hl.mem_upsert h).mpr (.inl ⟨hf, rfl⟩)
      rw [heq] at hx
      exact absurd (h.refl x trivial) (find_none hf hx)
    | some y =>
      have hy : merge x y ∈ Keyed.upsert cmp merge x l := (hl.mem_upsert h).mpr (.inr (.inl ⟨y, hf, rfl⟩))
      rw [heq] at hy
      refine ⟨y, find_mem hf, find_eq hf, hl.unique h hy (find_mem hf) ?_⟩
      rw [(hm x y y).1]
      exact h.refl y trivial
  · rintro ⟨y, hy, hxy, hmerge⟩
    induction l with
    | nil => cases hy
    | cons w l ih =>
      obtain ⟨hw, hl⟩ := List.pairwise_cons.mp hl
      unfold Keyed.upsert
      rcases List.mem_cons.mp hy with rfl | hy
      · rw [if_neg (by omega), if_pos hxy, hmerge]
      · have hyx := h.eq_symm x y trivial trivial hxy
        have hwx := h.lt_of_lt_of_le w y x trivial trivial trivial (hw y hy) (by omega)
        have hxw := (h.lt_iff_gt w x trivial trivial).mp hwx
        rw [if_neg (by omega), if_neg (by omega), ih hl hy]

end Upsert

end Mand.Keyed
