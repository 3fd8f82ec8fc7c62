import Mand.Store.Grammar

/-! # The buffer of `dm_sel2name`

Where its loop writes, and when a part of the name is lost without a null pointer. -/
namespace Mand.Store
open Mand.Decimal
set_option autoImplicit false

/-! ## The loop -/

/-- Store bytes at a position; nothing outside the buffer can be written. -/
def writeAt (s : List ℕ) (n : ℕ) (l : List ℕ) : Option (List ℕ) :=
  if n + l.length ≤ s.length then some (s.take n ++ l ++ s.drop (n + l.length)) else none

/-- `strcat`: behind the string that stands at a position. -/
def strcatAt (s : List ℕ) (n : ℕ) (l : List ℕ) : Option (List ℕ) :=
  writeAt s (n + ((s.drop n).takeWhile (· ≠ 0)).length) (l ++ [0])

/-- The loop of `dm_sel2name` on its buffer: the position, and the bytes that are left from there on. The inner `none` is
a null pointer. -/
def sel2nameLoop (S : Schema) : Selector → ℕ → Bool → Bool → List ℕ → ℕ → ℕ → Option (Option (List ℕ))
  | [], _, _, _, s, _, _ => some (some s)
  | id :: sel, kw, row, first, s, n, size =>
    if id = 0 ∨ size ≤ 1 then some (some s)
    else do
      let dot := if first = true then [] else [46]
      let s ← writeAt s n dot
      let n := n + dot.length
      let size := size - dot.length
      if row = true then do
        let l := decimal id
        let s ← writeAt s n (l.take (size - 1) ++ [0])
        sel2nameLoop S sel kw false false s (n + l.length) (size - l.length)
      else match (S.table kw).elems[id - 1]? with
        | none => some none
        | some e =>
          if size ≤ e.key.length then some none
          else do
            let s ← strcatAt s n e.key
            if e.container = true then
              sel2nameLoop S sel e.table (e.type = .object) false s (n + e.key.length) (size - e.key.length)
            else some (some s)

/-- `dm_sel2name` with the buffer that it fills. -/
def dmSel2nameBuffer (S : Schema) (sel : Selector) (size : ℕ) : Option (Option (List ℕ)) :=
  sel2nameLoop S (sel.take dmSelectorLen) S.root false true (List.replicate size 0) 0 size

theorem writeAt_zeros (pre l : List ℕ) {n k : ℕ} (hn : n = pre.length) (hl : l.length ≤ k) :
    writeAt (pre ++ List.replicate k 0) n l = some (pre ++ l ++ List.replicate (k - l.length) 0) := by
  rw [writeAt, if_pos (by simp; omega), hn, List.take_left' rfl, ← List.drop_drop, List.drop_left' rfl, List.drop_replicate]

theorem strcatAt_zeros (pre l : List ℕ) {n k : ℕ} (hn : n = pre.length) (hl : l.length < k) :
    strcatAt (pre ++ List.replicate k 0) n l = some (pre ++ l ++ List.replicate (k - l.length) 0) := by
  have hstart : ((pre ++ List.replicate k 0).drop n).takeWhile (· ≠ 0) = [] := by
    rw [hn, List.drop_left' rfl]
    cases k with
    | zero => rfl
    | succ k => simp [List.replicate_succ]
  rw [strcatAt, hstart, List.length_nil, Nat.add_zero, writeAt_zeros pre _ hn (by simp; omega)]
  have hk : k - l.length = (k - (l.length + 1)) + 1 := by omega
  rw [hk, List.replicate_succ]
  simp

theorem sel2nameLoop_full (S : Schema) (sel : Selector) (kw : ℕ) (row first : Bool) (s : List ℕ) (n : ℕ) :
    sel2nameLoop S sel kw row first s n 0 = some (some s) := by
  cases sel with
  | nil => rfl
  | cons id sel => simp [sel2nameLoop]

theorem sel2nameFrom_full_zero (S : Schema) (sel : Selector) (kw : ℕ) (row first : Bool) :
    sel2nameFrom S sel kw row first 0 = some [] := by
  cases sel with
  | nil => rfl
  | cons id sel => simp [sel2nameFrom]

/-- **The buffer.** Nothing is written outside, and what stands in the buffer is the name that `dm_sel2name` returns,
with zeros behind it. -/
theorem sel2nameLoop_eq (S : Schema) (sel : Selector) {kw size n : ℕ} {row first : Bool} (pre : List ℕ) (hn : n = pre.length)
    (hsize : 0 < size) :
    sel2nameLoop S sel kw row first (pre ++ List.replicate size 0) n size =
      some ((sel2nameFrom S sel kw row first size).map fun name =>
        pre ++ name ++ List.replicate (size - name.length) 0) := by
  induction sel generalizing kw size n row first pre with
  | nil => simp [sel2nameLoop, sel2nameFrom]
  | cons id sel ih =>
    rw [sel2nameLoop, sel2nameFrom]
    by_cases hstop : id = 0 ∨ size ≤ 1
    · simp [hstop]
    rw [if_neg hstop, if_neg hstop]
    have hdot : (if first = true then [] else [46] : List ℕ).length ≤ 1 := by
      cases first <;> simp
    generalize (if first = true then [] else [46] : List ℕ) = dot at hdot
    simp only [Option.bind_eq_bind]
    rw [writeAt_zeros pre dot hn (by omega), Option.bind_some]
    have hpos : n + dot.length = (pre ++ dot).length := by rw [List.length_append, hn]
    cases row with
    | true =>
      simp only [if_true]
      have htake := List.length_take_le (size - dot.length - 1) (decimal id)
      rw [writeAt_zeros (pre ++ dot) _ hpos (by simp; omega), Option.bind_some]
      have hzeros (k : ℕ) (l : List ℕ) (hk : l.length < k) :
          l ++ [0] ++ List.replicate (k - (l ++ [0]).length) 0 = l ++ List.replicate (k - l.length) 0 := by
        have hk' : k - l.length = (k - (l ++ [0]).length) + 1 := by
          rw [List.length_append, List.length_singleton]
          omega
        rw [hk', List.replicate_succ, List.append_assoc]
        rfl
      rw [List.append_assoc (pre ++ dot), hzeros _ _ (by omega)]
      by_cases hcut : size - dot.length ≤ (decimal id).length
      · -- the number fills the buffer
        rw [Nat.sub_eq_zero_of_le hcut, sel2nameLoop_full, sel2nameFrom_full_zero]
        have hlen : ((decimal id).take (size - dot.length - 1)).length = size - dot.length - 1 := by
          rw [List.length_take]
          omega
        simp [Nat.sub_sub]
      · have hall : (decimal id).take (size - dot.length - 1) = decimal id := List.take_of_length_le (by omega)
        rw [hall, ← List.append_assoc, ih (pre ++ dot ++ decimal id) (by simp [hn]; omega) (by omega)]
        cases sel2nameFrom S sel kw false false (size - dot.length - (decimal id).length) with
        | none => rfl
        | some rest => simp [Nat.sub_sub, Nat.add_assoc]
    | false =>
      simp only [Bool.false_eq_true, if_false]
      cases (S.table kw).elems[id - 1]? with
      | none => rfl
      | some e =>
        simp only [Option.bind_some]
        by_cases hfit : size - dot.length ≤ e.key.length
        · simp [hfit]
        rw [if_neg hfit, if_neg hfit, strcatAt_zeros (pre ++ dot) e.key hpos (by omega), Option.bind_some]
        by_cases hc : e.container = true
        · rw [if_pos hc, if_pos hc, ih (pre ++ dot ++ e.key) (by simp [hn]; omega) (by omega)]
          cases sel2nameFrom S sel e.table (e.type = .object) false (size - dot.length - e.key.length) with
          | none => rfl
          | some rest => simp [Nat.sub_sub, Nat.add_assoc]
        · rw [if_neg hc, if_neg hc]
          simp [Nat.sub_sub]

/-! ## Truncation -/

/-- With `room` bytes left behind the next dot, no part of the name is lost: whenever an id is left there is room, numbers
fit, a leaf is the end; or an id without an element or a key that does not fit makes the result null. -/
def CompleteFrom (S : Schema) : Selector → ℕ → Bool → ℕ → Prop
  | [], _, _, _ => True
  | id :: sel, kw, row, room =>
    0 < room ∧
    if row = true then (decimal id).length < room ∧ CompleteFrom S sel kw false (room - (decimal id).length - 1)
    else ∀ e, (S.table kw).elems[id - 1]? = some e → room ≤ e.key.length ∨
      if e.container = true then CompleteFrom S sel e.table (e.type = .object) (room - e.key.length - 1) else sel = []

theorem sel2nameFrom_rowStep {S : Schema} {sel : Selector} {id kw size : ℕ} (hid : 0 < id) (hsize : 1 < size) :
    sel2nameFrom S (id :: sel) kw true false size =
      (sel2nameFrom S sel kw false false (size - 1 - (decimal id).length)).map fun rest =>
        46 :: ((decimal id).take (size - 1 - 1) ++ rest) := by
  rw [sel2nameFrom, if_neg (by omega)]
  simp only [Bool.false_eq_true, if_false, if_true, List.length_singleton]
  cases sel2nameFrom S sel kw false false (size - 1 - (decimal id).length) <;> rfl

theorem sel2nameFrom_nameStep {S : Schema} {sel : Selector} {id kw size : ℕ} (hid : 0 < id) (hsize : 1 < size) :
    sel2nameFrom S (id :: sel) kw false false size =
      (S.table kw).elems[id - 1]?.bind fun e =>
        if size - 1 ≤ e.key.length then none
        else if e.container = true then
          (sel2nameFrom S sel e.table (e.type = .object) false (size - 1 - e.key.length)).map fun rest =>
            46 :: (e.key ++ rest)
        else some (46 :: e.key) := by
  rw [sel2nameFrom, if_neg (by omega)]
  simp only [Bool.false_eq_true, if_false, List.length_singleton]
  cases (S.table kw).elems[id - 1]? with
  | none => rfl
  | some e =>
    simp only [Option.bind_eq_bind, Option.bind_some]
    split_ifs
    · rfl
    · cases sel2nameFrom S sel e.table (e.type = .object) false (size - 1 - e.key.length) <;> rfl
    · rfl

/-- What is written is the name. -/
def Whole (S : Schema) (sel : Selector) (kw : ℕ) (row : Bool) (size : ℕ) : Prop :=
  ∀ r, sel2nameFrom S sel kw row false size = some r → ∃ ts, pathTokens S sel kw row = some ts ∧ r = dotted ts

theorem whole_iff {S : Schema} {sel : Selector} (hsel : ∀ id ∈ sel, 0 < id) {kw size : ℕ} {row : Bool} :
    Whole S sel kw row size ↔ CompleteFrom S sel kw row (size - 1) := by
  induction sel generalizing kw size row with
  | nil => simp [Whole, CompleteFrom, sel2nameFrom, pathTokens, dotted]
  | cons id sel ih =>
    obtain ⟨hid, hsel'⟩ := List.forall_mem_cons.mp hsel
    by_cases hsize : size ≤ 1
    · -- the buffer is full, and there is another id
      have hempty : sel2nameFrom S (id :: sel) kw row false size = some [] := by
        rw [sel2nameFrom, if_pos (.inr hsize)]
      refine ⟨fun h => ?_, fun h => absurd h.1 (by omega)⟩
      obtain ⟨ts, hts, hr⟩ := h [] hempty
      rcases pathTokens_cons hts with ⟨-, ts', -, rfl⟩ | ⟨-, e, ts', -, rfl, -⟩ <;> simp [dotted_cons] at hr
    cases row with
    | true =>
      rw [Whole, sel2nameFrom_rowStep hid (by omega), CompleteFrom]
      simp only [if_true]
      by_cases hcut : (decimal id).length < size - 1
      · have hall : (decimal id).take (size - 1 - 1) = decimal id := List.take_of_length_le (by omega)
        have ih' : Whole S sel kw false (size - 1 - (decimal id).length) ↔ _ := ih hsel'
        rw [hall, ← ih', Whole]
        simp only [pathTokens, if_true, Option.map_eq_some_iff, forall_exists_index, and_imp, forall_apply_eq_imp_iff₂]
        simp [dotted_cons, hcut]
        omega
      · -- the number is cut
        have hzero : size - 1 - (decimal id).length = 0 := by omega
        rw [hzero, sel2nameFrom_full_zero]
        refine ⟨fun h => ?_, fun h => absurd h.2.1 hcut⟩
        obtain ⟨ts, hts, hr⟩ := h _ rfl
        rcases pathTokens_cons hts with ⟨-, ts', -, rfl⟩ | ⟨hrow, -⟩
        · have hlen := congrArg List.length hr
          have htake := List.length_take_le (size - 1 - 1) (decimal id)
          simp only [dotted_cons, List.length_cons, List.length_append, List.length_nil, List.cons_append] at hlen
          omega
        · cases hrow
    | false =>
      rw [Whole, sel2nameFrom_nameStep hid (by omega), CompleteFrom]
      simp only [Bool.false_eq_true, if_false]
      cases he : (S.table kw).elems[id - 1]? with
      | none => simp; omega
      | some e =>
        simp only [Option.bind_some, Option.some.injEq, forall_eq']
        by_cases hfit : size - 1 ≤ e.key.length
        · simp [hfit]
          omega
        by_cases hc : e.container = true
        · have ih' : Whole S sel e.table (e.type = .object) (size - 1 - e.key.length) ↔ _ := ih hsel'
          rw [if_neg hfit, if_pos hc, if_pos hc, ← ih', Whole]
          simp only [pathTokens, Bool.false_eq_true, if_false, he, hc, if_true, Option.map_eq_some_iff, forall_exists_index,
            and_imp, forall_apply_eq_imp_iff₂]
          simp [dotted_cons, hfit]
          omega
        · rw [if_neg hfit, if_neg hc, if_neg hc]
          simp only [pathTokens, Bool.false_eq_true, if_false, he, hc]
          by_cases hnil : sel = []
          · simp [hnil, dotted]
            omega
          · simp [hnil, hfit]

/-- `dm_sel2name` writes inside its buffer, and leaves there the complete name with its end, or returns null. -/
def NotTruncated (S : Schema) (sel : Selector) (size : ℕ) : Prop :=
  ∃ r, dmSel2nameBuffer S sel size = some r ∧ ∀ s, r = some s →
    ∃ name, fullName S (selIds sel) = some name ∧ name.length < size ∧
      s = name ++ List.replicate (size - name.length) 0

theorem sel2nameFrom_ids (S : Schema) (sel : Selector) (kw : ℕ) (row first : Bool) (size : ℕ) :
    sel2nameFrom S sel kw row first size = sel2nameFrom S (sel.takeWhile (· ≠ 0)) kw row first size := by
  induction sel generalizing kw row first size with
  | nil => rfl
  | cons id sel ih =>
    by_cases hid : id = 0
    · simp [hid, sel2nameFrom]
    · rw [List.takeWhile_cons_of_pos (by simpa using hid), sel2nameFrom, sel2nameFrom]
      simp only [← ih]

theorem dmSel2nameBuffer_eq (S : Schema) (sel : Selector) {size : ℕ} (hsize : 0 < size) :
    dmSel2nameBuffer S sel size = some ((sel2nameFrom S (selIds sel) S.root false true size).map fun name =>
      name ++ List.replicate (size - name.length) 0) := by
  have h := @sel2nameLoop_eq S (sel.take dmSelectorLen) S.root size 0 false true [] rfl hsize
  rw [sel2nameFrom_ids, ← selIds] at h
  simpa [dmSel2nameBuffer] using h

theorem selIds_pos {sel : Selector} : ∀ id ∈ selIds sel, 0 < id := by
  intro id hid
  have := List.mem_takeWhile_imp hid
  simp only [ne_eq, decide_not, Bool.not_eq_eq_eq_not, Bool.not_true, decide_eq_false_iff_not] at this
  omega

/-- The whole name at the front of a buffer. -/
theorem whole_first_iff {S : Schema} {sel : Selector} (hsel : ∀ id ∈ sel, 0 < id) {size : ℕ} (hsize : 1 < size) :
    (∀ r, sel2nameFrom S sel S.root false true size = some r → fullName S sel = some r) ↔
      Whole S sel S.root false (size + 1) := by
  cases sel with
  | nil => simp [sel2nameFrom, Whole, fullName, pathTokens, dotted, List.intercalate]
  | cons id sel =>
    have hid := hsel id List.mem_cons_self
    rw [Whole, sel2nameFrom_first hid hsize]
    simp only [Option.map_eq_some_iff, forall_exists_index, and_imp, forall_apply_eq_imp_iff₂]
    refine forall_congr' fun r => imp_congr_right fun _ => ?_
    rw [fullName, Option.map_eq_some_iff]
    refine exists_congr fun ts => and_congr_right fun hts => ?_
    obtain ⟨t, ts', rfl⟩ : ∃ t ts', ts = t :: ts' := by
      rcases pathTokens_cons hts with ⟨-, ts', -, rfl⟩ | ⟨-, e, ts', -, rfl, -⟩ <;> exact ⟨_, _, rfl⟩
    rw [dotted_eq, List.cons.injEq]
    simp [eq_comm]

theorem pathTokens_mem {S : Schema} {P : ℕ → Prop} (hdigit : ∀ c, 48 ≤ c ∧ c ≤ 57 → P c)
    (hkeys : ∀ k, ∀ e ∈ (S.table k).elems, ∀ c ∈ e.key, P c) (sel : Selector) {kw : ℕ} {row : Bool} {ts : List (List ℕ)}
    (h : pathTokens S sel kw row = some ts) : ∀ t ∈ ts, ∀ c ∈ t, P c := by
  induction sel generalizing kw row ts with
  | nil =>
    cases h
    exact fun _ ht => absurd ht List.not_mem_nil
  | cons id sel ih =>
    rcases pathTokens_cons h with ⟨-, ts', hts, rfl⟩ | ⟨-, e, ts', he, rfl, hrest⟩
    · exact List.forall_mem_cons.mpr ⟨fun c hc => hdigit c (decimal_digit hc), ih hts⟩
    · refine List.forall_mem_cons.mpr ⟨hkeys kw e (List.mem_of_getElem? he), ?_⟩
      split_ifs at hrest
      · exact ih hrest
      · rw [hrest.2]
        exact fun _ ht => absurd ht List.not_mem_nil

theorem fullName_mem {S : Schema} {P : ℕ → Prop} (hdot : P 46) (hdigit : ∀ c, 48 ≤ c ∧ c ≤ 57 → P c)
    (hkeys : ∀ k, ∀ e ∈ (S.table k).elems, ∀ c ∈ e.key, P c) {sel : Selector} {name : List ℕ}
    (h : fullName S sel = some name) : ∀ c ∈ name, P c := by
  obtain ⟨ts, hts, rfl⟩ := Option.map_eq_some_iff.mp h
  have htokens := pathTokens_mem hdigit hkeys sel hts
  intro c hc
  cases ts with
  | nil => simp [List.intercalate] at hc
  | cons t ts =>
    have hc' : c ∈ dotted (t :: ts) := by
      rw [dotted_eq]
      exact List.mem_cons_of_mem _ hc
    obtain ⟨u, hu, hcu⟩ := List.mem_flatMap.mp hc'
    rcases List.mem_cons.mp hcu with rfl | hcu
    · exact hdot
    · exact htokens u hu c hcu

/-- Texts without zeros that are filled up with zeros to one length are equal. -/
theorem eq_of_padded {r name : List ℕ} {j k : ℕ} (hr : 0 ∉ r) (hname : 0 ∉ name)
    (h : r ++ List.replicate j 0 = name ++ List.replicate k 0) : r = name := by
  have htake (l : List ℕ) (n : ℕ) (hl : 0 ∉ l) : (l ++ List.replicate n 0).takeWhile (· ≠ 0) = l := by
    have hl' : ∀ c ∈ l, (decide (c ≠ 0)) = true := fun c hc => by
      simpa using fun h : c = 0 => hl (h ▸ hc)
    rw [List.takeWhile_append_of_pos hl']
    cases n with
    | zero => simp
    | succ n => simp [List.replicate_succ]
  rw [← htake r j hr, h, htake name k hname]

/-- The string in the buffer is the complete name. -/
theorem notTruncated_name {S : Schema} (hkeys : ∀ k, ∀ e ∈ (S.table k).elems, 0 ∉ e.key) (sel : Selector) {size : ℕ}
    (hsize : 0 < size) : NotTruncated S sel size ↔
      ∀ r, sel2nameFrom S (selIds sel) S.root false true size = some r → fullName S (selIds sel) = some r := by
  have hkeys' : ∀ k, ∀ e ∈ (S.table k).elems, ∀ c ∈ e.key, c ≠ 0 := fun k e he c hc h => hkeys k e he (h ▸ hc)
  have hdigit : ∀ c, 48 ≤ c ∧ c ≤ 57 → c ≠ 0 := fun c hc => by omega
  rw [NotTruncated, dmSel2nameBuffer_eq S sel hsize]
  simp only [Option.some.injEq, exists_eq_left', Option.map_eq_some_iff, forall_exists_index, and_imp,
    forall_apply_eq_imp_iff₂]
  refine forall_congr' fun r => imp_congr_right fun hr => ⟨?_, fun hname => ⟨r, hname, ?_, rfl⟩⟩
  · rintro ⟨name, hname, -, heq⟩
    have h1 : 0 ∉ r := fun h => sel2nameFrom_mem (by omega) hdigit hkeys' _ hr 0 h rfl
    have h2 : 0 ∉ name := fun h => fullName_mem (by omega) hdigit hkeys' hname 0 h rfl
    rw [hname, eq_of_padded h1 h2 heq]
  · have := sel2nameFrom_length _ hr
    omega

/-- **Truncation.** Nothing is lost exactly if the name is empty, or the buffer is longer than a byte and the selector
complete in it. -/
theorem notTruncated_iff (S : Schema) (hkeys : ∀ k, ∀ e ∈ (S.table k).elems, 0 ∉ e.key) (sel : Selector) (size : ℕ)
    (hsize : 0 < size) :
    NotTruncated S sel size ↔
      fullName S (selIds sel) = some [] ∨ 1 < size ∧ CompleteFrom S (selIds sel) S.root false size := by
  have hpos : ∀ id ∈ selIds sel, 0 < id := selIds_pos
  rw [notTruncated_name hkeys sel hsize]
  by_cases h1 : 1 < size
  · rw [whole_first_iff hpos h1, whole_iff hpos, Nat.add_sub_cancel]
    refine ⟨fun h => .inr ⟨h1, h⟩, fun h => ?_⟩
    rcases h with h | ⟨-, h⟩
    · obtain ⟨ts, hts, hnil⟩ := Option.map_eq_some_iff.mp h
      have hlen : (dotted ts).length ≤ 1 := by
        cases ts with
        | nil => simp [dotted]
        | cons t ts => simp [dotted_eq, hnil]
      have hwhole : Whole S (selIds sel) S.root false (size + 1) := by
        intro r hr
        rw [sel2nameFrom_full _ hpos hts (by omega)] at hr
        exact ⟨ts, hts, (Option.some.inj hr).symm⟩
      simpa using (whole_iff hpos).mp hwhole
    · exact h
  · obtain rfl : size = 1 := by omega
    have hempty : sel2nameFrom S (selIds sel) S.root false true 1 = some [] := by
      cases selIds sel <;> simp [sel2nameFrom]
    simp [hempty]

/-! ## Samples -/

theorem notTruncated_iff_row : NotTruncated samplePathSchema [1, 7] 4 ↔
    fullName samplePathSchema (selIds [1, 7]) = some [] ∨
      1 < 4 ∧ CompleteFrom samplePathSchema (selIds [1, 7]) samplePathSchema.root false 4 := by
  refine notTruncated_iff samplePathSchema ?_ [1, 7] 4 (by decide)
  rintro (_ | _ | k)
  · decide
  · decide
  · exact fun e he => absurd he List.not_mem_nil

/-- In a buffer of four bytes, `a.74` becomes `a.7`. -/
theorem number_truncated : ¬NotTruncated samplePathSchema [1, 74] 4 := by
  rintro ⟨r, hr, hwhole⟩
  have hbuffer : dmSel2nameBuffer samplePathSchema [1, 74] 4 = some (some [97, 46, 55, 0]) := by decide
  have hname : fullName samplePathSchema (selIds [1, 74]) = some [97, 46, 55, 52] := by decide
  rw [hbuffer] at hr
  obtain ⟨name, hfull, hlen, -⟩ := hwhole _ (Option.some.inj hr).symm
  rw [hname] at hfull
  cases hfull
  simp at hlen

end Mand.Store
