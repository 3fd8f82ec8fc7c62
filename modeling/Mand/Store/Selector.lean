import Mand.Index.Order
import Mathlib.Data.List.GetD
import Mathlib.Data.List.Lex
import Mathlib.Data.List.TakeWhile

/-! # Selectors in memory

`dm_selector` is an array of 16 ids. What stands behind the first zero is left from what the array held before. -/
namespace Mand.Store
set_option autoImplicit false

/-- `dm_selector`. -/
structure DmSelector where
  ids : List ℕ
  length_ids : ids.length = dmSelectorLen

/-- The ids up to the terminator. -/
def DmSelector.path (sel : DmSelector) : List ℕ := selIds sel.ids

/-! ## The functions -/

/-- The loop of `dm_selcmp` from `i` on, with `k` more rounds. -/
def selcmpLoop (s1 s2 : List ℕ) : ℕ → ℕ → ℤ
  | 0, _ => 0
  | k + 1, i =>
    if s1.getD i 0 = 0 ∧ s2.getD i 0 = 0 then 0
    else if s1.getD i 0 < s2.getD i 0 then -1
    else if s2.getD i 0 < s1.getD i 0 then 1
    else selcmpLoop s1 s2 k (i + 1)

/-- `dm_selcmp`, with its null pointers. -/
def DmSelector.dmSelcmp (s1 s2 : Option DmSelector) (len : ℕ) : ℤ :=
  match s1, s2 with
  | some s1, some s2 => selcmpLoop s1.ids s2.ids len 0
  | some _, none => 1
  | none, _ => -1

/-- What the trees that hold selectors compare by, `cache_compare` for one. -/
def DmSelector.compare (a b : DmSelector) : ℤ := dmSelcmp (some a) (some b) dmSelectorLen

def sellenLoop (sel : List ℕ) : ℕ → ℕ → ℕ
  | 0, i => i
  | k + 1, i => if sel.getD i 0 ≠ 0 then sellenLoop sel k (i + 1) else i

def DmSelector.dmSellen (sel : DmSelector) : ℕ := sellenLoop sel.ids dmSelectorLen 0

def selcatLoop (sel : List ℕ) (id : ℕ) : ℕ → ℕ → List ℕ
  | 0, _ => sel
  | k + 1, i =>
    if sel.getD i 0 = 0 then
      if i + 1 < dmSelectorLen then (sel.set i id).set (i + 1) 0 else sel.set i id
    else selcatLoop sel id k (i + 1)

theorem length_selcatLoop (sel : List ℕ) (id k i : ℕ) : (selcatLoop sel id k i).length = sel.length := by
  induction k generalizing i with
  | zero => rfl
  | succ k ih =>
    rw [selcatLoop]
    split_ifs
    · rw [List.length_set, List.length_set]
    · exact List.length_set
    · exact ih (i + 1)

/-- `dm_selcat`; a full array stays as it is. -/
def DmSelector.dmSelcat (sel : DmSelector) (id : ℕ) : DmSelector :=
  ⟨selcatLoop sel.ids id dmSelectorLen 0, (length_selcatLoop ..).trans sel.length_ids⟩

/-! ## The order of the paths -/

/-- Lexicographic order, as a comparison. -/
def lexcmp (p q : List ℕ) : ℤ := if p < q then -1 else if q < p then 1 else 0

theorem lexcmp_nil_cons (y : ℕ) (q : List ℕ) : lexcmp [] (y :: q) = -1 := if_pos (List.nil_lt_cons y q)

theorem lexcmp_cons_nil (x : ℕ) (p : List ℕ) : lexcmp (x :: p) [] = 1 := by
  rw [lexcmp, if_neg (List.not_lt_nil _), if_pos (List.nil_lt_cons x p)]

theorem lexcmp_cons (x y : ℕ) (p q : List ℕ) :
    lexcmp (x :: p) (y :: q) = if x < y then -1 else if y < x then 1 else lexcmp p q := by
  unfold lexcmp
  simp only [List.cons_lt_cons_iff]
  rcases lt_trichotomy x y with h | rfl | h
  · simp [h]
  · simp
  · simp [h, h.not_gt, h.ne']

theorem lexcmp_eq_zero {p q : List ℕ} : lexcmp p q = 0 ↔ p = q := by
  unfold lexcmp
  constructor
  · intro h
    rcases lt_trichotomy p q with hpq | hpq | hqp
    · rw [if_pos hpq] at h
      exact absurd h (by decide)
    · exact hpq
    · rw [if_neg hqp.not_gt, if_pos hqp] at h
      exact absurd h (by decide)
  · rintro rfl
    rw [if_neg (lt_irrefl p), if_neg (lt_irrefl p)]

theorem lexcmp_neg {p q : List ℕ} : lexcmp p q < 0 ↔ p < q := by
  unfold lexcmp
  split_ifs with hpq hqp <;> simp [hpq]

theorem lexcmp_pos {p q : List ℕ} : 0 < lexcmp p q ↔ q < p := by
  unfold lexcmp
  split_ifs with hpq hqp
  · simpa using hpq.le
  · simpa using hqp
  · simpa using hqp

theorem takeIds_succ (s : List ℕ) (k : ℕ) : (s.take (k + 1)).takeWhile (· ≠ 0) =
    if s.headD 0 = 0 then [] else s.headD 0 :: (s.tail.take k).takeWhile (· ≠ 0) := by
  cases s with
  | nil => simp
  | cons x s => by_cases hx : x = 0 <;> simp [hx]

/-- The ids behind the terminators do not count. -/
theorem dmSelcmp_eq_lexcmp (k : ℕ) (a b : Selector) :
    dmSelcmp a b k = lexcmp ((a.take k).takeWhile (· ≠ 0)) ((b.take k).takeWhile (· ≠ 0)) := by
  induction k generalizing a b with
  | zero => exact (lexcmp_eq_zero.mpr rfl).symm
  | succ k ih =>
    rw [dmSelcmp, takeIds_succ, takeIds_succ]
    by_cases ha : a.headD 0 = 0
    · by_cases hb : b.headD 0 = 0
      · rw [if_pos ⟨ha, hb⟩, if_pos ha, if_pos hb]
        exact (lexcmp_eq_zero.mpr rfl).symm
      · rw [if_neg (fun h => hb h.2), if_pos ha, if_neg hb, lexcmp_nil_cons, if_pos (by omega)]
    · by_cases hb : b.headD 0 = 0
      · rw [if_neg (fun h => ha h.1), if_neg ha, if_pos hb, lexcmp_cons_nil, if_neg (by omega), if_pos (by omega)]
      · rw [if_neg (fun h => ha h.1), if_neg ha, if_neg hb, lexcmp_cons, ih]

/-! ## Arrays as lists of ids -/

theorem headD_drop (s : List ℕ) (i : ℕ) : (s.drop i).headD 0 = s.getD i 0 := by
  rw [List.headD_eq_getD, List.getD_eq_getElem?_getD, List.getElem?_drop, Nat.add_zero, List.getD_eq_getElem?_getD]

theorem selcmpLoop_eq (s1 s2 : List ℕ) (k i : ℕ) : selcmpLoop s1 s2 k i = dmSelcmp (s1.drop i) (s2.drop i) k := by
  induction k generalizing i with
  | zero => rfl
  | succ k ih => rw [selcmpLoop, dmSelcmp, headD_drop, headD_drop, List.tail_drop, List.tail_drop, ih]

namespace DmSelector

theorem compare_eq (a b : DmSelector) : compare a b = lexcmp a.path b.path := by
  show selcmpLoop a.ids b.ids dmSelectorLen 0 = _
  rw [selcmpLoop_eq, List.drop_zero, List.drop_zero, dmSelcmp_eq_lexcmp]
  rfl

theorem compare_eq_zero (a b : DmSelector) : compare a b = 0 ↔ a.path = b.path := by
  rw [compare_eq, lexcmp_eq_zero]

theorem compare_swap (a b : DmSelector) : compare a b < 0 ↔ 0 < compare b a := by
  rw [compare_eq, compare_eq, lexcmp_neg, lexcmp_pos]

theorem compare_nonpos {a b : DmSelector} : compare a b ≤ 0 ↔ a.path ≤ b.path := by
  rw [← Int.not_lt, compare_eq, lexcmp_pos, not_lt]

theorem compare_of_prefix {a b : DmSelector} (h : a.path <+: b.path) (hne : a.path ≠ b.path) : compare a b < 0 := by
  rw [compare_eq, lexcmp_neg]
  exact lt_of_le_of_ne (not_lt.mp h.le) hne

/-! ## Longer paths -/

theorem path_eq (sel : DmSelector) : sel.path = sel.ids.takeWhile (· ≠ 0) := by
  rw [path, selIds, List.take_of_length_le sel.length_ids.le]

theorem path_ne_zero (sel : DmSelector) : ∀ x ∈ sel.path, x ≠ 0 := by
  intro x hx
  rw [path_eq] at hx
  simpa using List.mem_takeWhile_imp hx

/-- A path with room behind it ends at a zero. Anything may follow. -/
theorem ids_of_path {sel : DmSelector} (h : sel.path.length < dmSelectorLen) :
    ∃ stale, sel.ids = sel.path ++ 0 :: stale := by
  have hsplit := List.takeWhile_append_dropWhile (p := fun x : ℕ => decide (x ≠ 0)) (l := sel.ids)
  rw [← path_eq] at hsplit
  cases hrest : sel.ids.dropWhile (· ≠ 0) with
  | nil =>
    rw [hrest, List.append_nil] at hsplit
    rw [hsplit, sel.length_ids] at h
    exact absurd h (lt_irrefl _)
  | cons x stale =>
    have hx : x = 0 := by
      have hhead := List.head?_dropWhile_not (fun x : ℕ => decide (x ≠ 0)) sel.ids
      rw [hrest] at hhead
      simpa using hhead
    exact ⟨stale, by rw [← hx, ← hrest, hsplit]⟩

theorem path_of_ids {sel : DmSelector} {p stale : List ℕ} (hp : ∀ x ∈ p, x ≠ 0)
    (hend : stale.headD 0 = 0) (h : sel.ids = p ++ stale) : sel.path = p := by
  have hnil : stale.takeWhile (· ≠ 0) = [] := by
    cases stale with
    | nil => rfl
    | cons x stale =>
      rw [List.headD_cons] at hend
      simp [hend]
  rw [path_eq, h, List.takeWhile_append_of_pos (fun x hx => decide_eq_true (hp x hx)), hnil, List.append_nil]

end DmSelector

theorem getD_front {p : List ℕ} (hp : ∀ x ∈ p, x ≠ 0) (rest : List ℕ) {i : ℕ} (hi : i < p.length) :
    (p ++ rest).getD i 0 ≠ 0 := by
  rw [List.getD_append _ _ _ _ hi, List.getD_eq_getElem _ _ hi]
  exact hp _ (List.getElem_mem hi)

theorem getD_end (p rest : List ℕ) : (p ++ rest).getD p.length 0 = rest.headD 0 := by
  rw [List.getD_append_right _ _ _ _ le_rfl, Nat.sub_self, List.headD_eq_getD]

theorem sellenLoop_append {p : List ℕ} (hp : ∀ x ∈ p, x ≠ 0) {rest : List ℕ} (hrest : rest.headD 0 = 0) {k i : ℕ}
    (hk : i + k = (p ++ rest).length) (hi : i ≤ p.length) : sellenLoop (p ++ rest) k i = p.length := by
  induction k generalizing i with
  | zero =>
    rw [List.length_append] at hk
    rw [sellenLoop]
    omega
  | succ k ih =>
    rw [sellenLoop]
    rcases Nat.lt_or_eq_of_le hi with hlt | rfl
    · rw [if_pos (getD_front hp rest hlt)]
      exact ih (by omega) hlt
    · rw [getD_end, if_neg (not_not_intro hrest)]

/-- The id takes the place of the first zero, and a zero is put behind it if there is a place. -/
theorem selcatLoop_append {p : List ℕ} (hp : ∀ x ∈ p, x ≠ 0) (stale : List ℕ) (id : ℕ)
    (hlen : (p ++ 0 :: stale).length = dmSelectorLen) {k i : ℕ} (hi : i ≤ p.length) (hk : p.length < i + k) :
    selcatLoop (p ++ 0 :: stale) id k i = p ++ id :: stale.set 0 0 := by
  induction k generalizing i with
  | zero => omega
  | succ k ih =>
    rw [selcatLoop]
    rcases Nat.lt_or_eq_of_le hi with hlt | rfl
    · rw [if_neg (getD_front hp _ hlt)]
      exact ih hlt (by omega)
    · rw [getD_end, if_pos List.headD_cons]
      split_ifs with hroom
      · simp
      · have hstale : stale = [] := by
          rw [List.length_append, List.length_cons] at hlen
          exact List.length_eq_zero_iff.mp (by omega)
        simp [hstale]

namespace DmSelector

theorem path_dmSelcat {sel : DmSelector} {id : ℕ} (hid : id ≠ 0) (h : sel.path.length < dmSelectorLen) :
    (dmSelcat sel id).path = sel.path ++ [id] := by
  obtain ⟨stale, hids⟩ := ids_of_path h
  have hlen := sel.length_ids
  rw [hids] at hlen
  have hcat : (dmSelcat sel id).ids = sel.path ++ [id] ++ stale.set 0 0 := by
    show selcatLoop sel.ids id dmSelectorLen 0 = _
    rw [hids, selcatLoop_append sel.path_ne_zero stale id hlen (Nat.zero_le _) (by omega)]
    simp
  refine path_of_ids ?_ ?_ hcat
  · intro x hx
    rcases List.mem_append.mp hx with hx | hx
    · exact sel.path_ne_zero x hx
    · rwa [List.mem_singleton.mp hx]
  · cases stale with
    | nil => simp
    | cons y stale => simp

/-- The list version of `dm_selcat` is what happens to the path. -/
theorem path_dmSelcat_eq {sel : DmSelector} {id : ℕ} (hid : id ≠ 0) (h : sel.path.length < dmSelectorLen) :
    (dmSelcat sel id).path = Store.dmSelcat sel.ids id := path_dmSelcat hid h

/-- The path together with what follows it. -/
theorem ids_split (sel : DmSelector) : ∃ rest, sel.ids = sel.path ++ rest ∧ rest.headD 0 = 0 := by
  by_cases h : sel.path.length < dmSelectorLen
  · obtain ⟨stale, hids⟩ := ids_of_path h
    exact ⟨0 :: stale, hids, rfl⟩
  · refine ⟨[], ?_, rfl⟩
    have hsub : sel.path <+: sel.ids := path_eq sel ▸ List.takeWhile_prefix _
    rw [List.append_nil]
    exact (hsub.eq_of_length_le (by rw [sel.length_ids]; omega)).symm

theorem dmSellen_eq (sel : DmSelector) : dmSellen sel = sel.path.length := by
  obtain ⟨rest, hids, hrest⟩ := ids_split sel
  have hlen := sel.length_ids
  rw [dmSellen]
  rw [hids] at hlen ⊢
  exact sellenLoop_append sel.path_ne_zero hrest (by omega) (Nat.zero_le _)

/-- A total order of the paths in which a path stands before the longer ones, and `dm_selcat` makes a path longer by its
id, whatever stands behind the terminators. -/
theorem selector_order : (∀ a b, compare a b = 0 ↔ a.path = b.path) ∧ (∀ a b, compare a b < 0 ↔ 0 < compare b a) ∧
    (∀ a b c, compare a b ≤ 0 → compare b c ≤ 0 → compare a c ≤ 0) ∧
    (∀ a b, a.path <+: b.path → a.path ≠ b.path → compare a b < 0) ∧
    (∀ a a' b b', a.path = a'.path → b.path = b'.path → compare a b = compare a' b') ∧
    ∀ sel id, id ≠ 0 → sel.path.length < dmSelectorLen → (dmSelcat sel id).path = sel.path ++ [id] := by
  refine ⟨compare_eq_zero, compare_swap, ?_, fun a b => compare_of_prefix, ?_, fun sel id => path_dmSelcat⟩
  · intro a b c hab hbc
    rw [compare_nonpos] at hab hbc ⊢
    exact le_trans hab hbc
  · intro a a' b b' ha hb
    rw [compare_eq, compare_eq, ha, hb]

end DmSelector

end Mand.Store
