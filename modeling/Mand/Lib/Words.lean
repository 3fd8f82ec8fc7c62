import Mathlib.Data.List.Basic
import Mathlib.Data.List.TakeWhile

/-! # Words

A text as words with separators between them, before them and behind them, and the words joined by one separator. -/
namespace Mand.Words
set_option autoImplicit false

variable {α : Type} {sep : α → Bool}

/-- The maximal runs of elements that are no separators. -/
def words (sep : α → Bool) (l : List α) : List (List α) := (l.splitOnP sep).filter fun w => !w.isEmpty

theorem words_nil : words sep [] = [] := by
  rw [words, List.splitOnP_nil]
  rfl

theorem words_append_sep {c : α} (hc : sep c = true) (x y : List α) : words sep (x ++ c :: y) = words sep x ++ words sep y := by
  rw [words, List.splitOnP_append_cons x y hc, List.filter_append]
  rfl

theorem words_cons_sep {c : α} (hc : sep c = true) (l : List α) : words sep (c :: l) = words sep l := by
  have h := words_append_sep hc [] l
  rwa [words_nil] at h

theorem words_seps {w : List α} (hw : ∀ c ∈ w, sep c = true) (l : List α) : words sep (w ++ l) = words sep l := by
  induction w with
  | nil => rfl
  | cons c w ih =>
    rw [List.cons_append, words_cons_sep (hw c List.mem_cons_self)]
    exact ih fun d hd => hw d (List.mem_cons_of_mem c hd)

theorem words_word {e : List α} (hne : e ≠ []) (he : ∀ c ∈ e, sep c = false) : words sep e = [e] := by
  rw [words, List.splitOnP_eq_singleton he, List.filter_cons_of_pos (by simpa using hne), List.filter_nil]

/-- A run up to a separator or to the end is a word. -/
theorem words_run {e : List α} (hne : e ≠ []) (he : ∀ c ∈ e, sep c = false) {rest : List α}
    (hrest : ∀ c ∈ rest.head?, sep c = true) : words sep (e ++ rest) = e :: words sep rest := by
  cases rest with
  | nil => rw [List.append_nil, words_nil, words_word hne he]
  | cons c rest =>
    have hc : sep c = true := hrest c rfl
    rw [words_append_sep hc, words_cons_sep hc, words_word hne he, List.singleton_append]

theorem mem_splitOnP {l w : List α} (h : w ∈ l.splitOnP sep) : ∀ c ∈ w, sep c = false ∧ c ∈ l := by
  induction l generalizing w with
  | nil =>
    rw [List.splitOnP_nil, List.mem_singleton] at h
    simp [h]
  | cons x l ih =>
    have hstep : ∀ v ∈ l.splitOnP sep, ∀ c ∈ v, sep c = false ∧ c ∈ x :: l := fun v hv c hc =>
      ⟨(ih hv c hc).1, List.mem_cons_of_mem x (ih hv c hc).2⟩
    rw [List.splitOnP_cons_eq_if_modifyHead] at h
    split_ifs at h with hx
    · rcases List.mem_cons.mp h with rfl | h
      · simp
      · exact hstep w h
    · cases hl : l.splitOnP sep with
      | nil => exact absurd hl (List.splitOnP_ne_nil sep l)
      | cons v vs =>
        rw [hl] at h hstep
        rcases List.mem_cons.mp h with rfl | h
        · exact List.forall_mem_cons.mpr ⟨⟨by simpa using hx, List.mem_cons_self⟩, hstep v List.mem_cons_self⟩
        · exact hstep w (List.mem_cons_of_mem v h)

theorem mem_words {l w : List α} (h : w ∈ words sep l) : w ≠ [] ∧ ∀ c ∈ w, sep c = false := by
  obtain ⟨hw, hne⟩ := List.mem_filter.mp h
  exact ⟨by simpa using hne, fun c hc => (mem_splitOnP hw c hc).1⟩

theorem mem_of_mem_words {l w : List α} (h : w ∈ words sep l) {c : α} (hc : c ∈ w) : c ∈ l :=
  (mem_splitOnP (List.mem_filter.mp h).1 c hc).2

/-- Separators, the first word and what is behind it; without a word there is nothing. -/
theorem exists_run (sep : α → Bool) (l : List α) : ∃ w e rest, l = w ++ (e ++ rest) ∧ (∀ c ∈ w, sep c = true) ∧
    (∀ c ∈ e, sep c = false) ∧ (∀ c ∈ rest.head?, sep c = true) ∧ (e = [] → rest = []) := by
  refine ⟨l.takeWhile sep, (l.dropWhile sep).takeWhile (!sep ·), (l.dropWhile sep).dropWhile (!sep ·), ?_, ?_, ?_, ?_, ?_⟩
  · rw [List.takeWhile_append_dropWhile, List.takeWhile_append_dropWhile]
  · exact fun c hc => List.mem_takeWhile_imp hc
  · intro c hc
    simpa using List.mem_takeWhile_imp hc
  · intro c hc
    have h := List.head?_dropWhile_not (!sep ·) (l.dropWhile sep)
    rw [hc] at h
    simpa using h
  · intro he
    have h := List.head?_dropWhile_not sep l
    cases hl : l.dropWhile sep with
    | nil => rfl
    | cons c t =>
      rw [hl] at h he
      rw [List.head?_cons] at h
      simp [h] at he

theorem words_exists_run {w e rest : List α} (hw : ∀ c ∈ w, sep c = true) (he : ∀ c ∈ e, sep c = false)
    (hrest : ∀ c ∈ rest.head?, sep c = true) (hend : e = [] → rest = []) :
    words sep (w ++ (e ++ rest)) = if e = [] then [] else e :: words sep rest := by
  rw [words_seps hw]
  split_ifs with hnil
  · rw [hnil, hend hnil]
    exact words_nil
  · exact words_run hnil he hrest

/-! ## Joined words -/

theorem intercalate_cons (c : α) (w : List α) (ws : List (List α)) :
    List.intercalate [c] (w :: ws) = w ++ ws.flatMap (c :: ·) := by
  induction ws generalizing w with
  | nil => rw [List.intercalate_singleton, List.flatMap_nil, List.append_nil]
  | cons v ws ih =>
    rw [List.intercalate_cons_cons, ih, List.flatMap_cons, List.append_assoc, List.singleton_append, List.cons_append]

theorem mem_intercalate {c d : α} {ws : List (List α)} (h : d ∈ List.intercalate [c] ws) : d = c ∨ ∃ w ∈ ws, d ∈ w := by
  cases ws with
  | nil => exact absurd h List.not_mem_nil
  | cons w ws =>
    rw [intercalate_cons] at h
    rcases List.mem_append.mp h with h | h
    · exact .inr ⟨w, List.mem_cons_self, h⟩
    · obtain ⟨v, hv, h⟩ := List.mem_flatMap.mp h
      exact (List.mem_cons.mp h).imp_right fun h => ⟨v, List.mem_cons_of_mem w hv, h⟩

theorem words_flatMap {c : α} (hc : sep c = true) {ws : List (List α)} (hws : ∀ w ∈ ws, w ≠ [] ∧ ∀ d ∈ w, sep d = false) :
    words sep (ws.flatMap (c :: ·)) = ws := by
  induction ws with
  | nil => exact words_nil
  | cons w ws ih =>
    obtain ⟨hne, hw⟩ := hws w List.mem_cons_self
    rw [List.flatMap_cons, List.cons_append, words_cons_sep hc, words_run hne hw,
      ih fun v hv => hws v (List.mem_cons_of_mem w hv)]
    cases ws with
    | nil => simp
    | cons v ws => simp [hc]

theorem words_intercalate {c : α} (hc : sep c = true) {ws : List (List α)}
    (hws : ∀ w ∈ ws, w ≠ [] ∧ ∀ d ∈ w, sep d = false) : words sep (List.intercalate [c] ws) = ws := by
  cases ws with
  | nil => exact words_nil
  | cons w ws =>
    have h := words_flatMap hc hws
    rw [List.flatMap_cons, List.cons_append, words_cons_sep hc] at h
    rwa [intercalate_cons]

/-- Joining the words again changes nothing. -/
theorem words_join {c : α} (hc : sep c = true) (l : List α) :
    words sep (List.intercalate [c] (words sep l)) = words sep l := words_intercalate hc fun _ => mem_words

end Mand.Words
