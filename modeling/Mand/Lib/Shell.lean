import Mathlib

/-! # The words of a command

What a POSIX shell makes of a command line that has words and double quotes only. A character that would stand for
anything but itself makes the line fail. -/
namespace Mand.Shell
set_option autoImplicit false

/-- A character that has no meaning outside quotes. -/
def plain (c : ℕ) : Bool :=
  -- white space, quotes, ` \ $, | & ; < > ( ), and * ? [ ] # ~ = % { } !
  c ∉ [9, 10, 32, 34, 39, 96, 92, 36, 124, 38, 59, 60, 62, 40, 41, 42, 63, 91, 93, 35, 126, 61, 37, 123, 125, 33]

/-- A character that has no meaning inside double quotes. -/
def literal (c : ℕ) : Bool := c ∉ [34, 36, 96, 92]

inductive Mode
  | blank
  | bare
  | quoted
  deriving DecidableEq, Repr

/-- The words so far, and the one that is being read. -/
structure State where
  words : List (List ℕ)
  word : List ℕ
  mode : Mode
  deriving DecidableEq, Repr

def step : State → ℕ → Option State
  | ⟨ws, w, .quoted⟩, c =>
    if c = 34 then some ⟨ws, w, .bare⟩
    else if literal c = true then some ⟨ws, w ++ [c], .quoted⟩
    else none
  | ⟨ws, w, .blank⟩, c =>
    if c = 34 then some ⟨ws, w, .quoted⟩
    else if c = 32 ∨ c = 9 then some ⟨ws, w, .blank⟩
    else if plain c = true then some ⟨ws, w ++ [c], .bare⟩
    else none
  | ⟨ws, w, .bare⟩, c =>
    if c = 34 then some ⟨ws, w, .quoted⟩
    else if c = 32 ∨ c = 9 then some ⟨ws ++ [w], [], .blank⟩
    else if plain c = true then some ⟨ws, w ++ [c], .bare⟩
    else none

/-- The words at the end of the line. -/
def finish (st : State) : Option (List (List ℕ)) :=
  match st.mode with
  | .quoted => none
  | .blank => some st.words
  | .bare => some (st.words ++ [st.word])

def run (st : State) (line : List ℕ) : Option State := line.foldlM step st

def parse (line : List ℕ) : Option (List (List ℕ)) := (run ⟨[], [], .blank⟩ line).bind finish

theorem run_cons (st : State) (c : ℕ) (line : List ℕ) : run st (c :: line) = (step st c).bind (run · line) := List.foldlM_cons

theorem run_append (st : State) (line line' : List ℕ) : run st (line ++ line') = (run st line).bind (run · line') :=
  List.foldlM_append

/-! ## Words -/

theorem plain_spec {c : ℕ} (h : plain c = true) : c ≠ 34 ∧ ¬(c = 32 ∨ c = 9) := by
  simp only [plain, List.mem_cons, not_or, decide_eq_true_eq] at h
  omega

theorem run_bare {w : List ℕ} (hw : ∀ c ∈ w, plain c = true) (ws : List (List ℕ)) (v rest : List ℕ) :
    run ⟨ws, v, .bare⟩ (w ++ rest) = run ⟨ws, v ++ w, .bare⟩ rest := by
  induction w generalizing v with
  | nil => rw [List.nil_append, List.append_nil]
  | cons c w ih =>
    have hc := hw c List.mem_cons_self
    obtain ⟨hquote, hblank⟩ := plain_spec hc
    have hstep : step ⟨ws, v, .bare⟩ c = some ⟨ws, v ++ [c], .bare⟩ := by
      rw [step, if_neg hquote, if_neg hblank, if_pos hc]
    rw [List.cons_append, run_cons, hstep, Option.bind_some, ih fun d hd => hw d (List.mem_cons_of_mem c hd)]
    simp

theorem run_literal {s : List ℕ} (hs : ∀ c ∈ s, literal c = true) (ws : List (List ℕ)) (v rest : List ℕ) :
    run ⟨ws, v, .quoted⟩ (s ++ rest) = run ⟨ws, v ++ s, .quoted⟩ rest := by
  induction s generalizing v with
  | nil => rw [List.nil_append, List.append_nil]
  | cons c s ih =>
    have hc := hs c List.mem_cons_self
    have hquote : c ≠ 34 := by
      rintro rfl
      cases hc
    have hstep : step ⟨ws, v, .quoted⟩ c = some ⟨ws, v ++ [c], .quoted⟩ := by
      rw [step, if_neg hquote, if_pos hc]
    rw [List.cons_append, run_cons, hstep, Option.bind_some, ih fun d hd => hs d (List.mem_cons_of_mem c hd)]
    simp

/-- The first word of the line. -/
theorem run_word {w : List ℕ} (hw : ∀ c ∈ w, plain c = true) (hne : w ≠ []) (ws : List (List ℕ)) (rest : List ℕ) :
    run ⟨ws, [], .blank⟩ (w ++ rest) = run ⟨ws, w, .bare⟩ rest := by
  obtain ⟨c, w, rfl⟩ := List.exists_cons_of_ne_nil hne
  have hc := hw c List.mem_cons_self
  obtain ⟨hquote, hblank⟩ := plain_spec hc
  have hstep : step ⟨ws, [], .blank⟩ c = some ⟨ws, [c], .bare⟩ := by
    rw [step, if_neg hquote, if_neg hblank, if_pos hc]
    rfl
  rw [List.cons_append, run_cons, hstep, Option.bind_some, run_bare fun d hd => hw d (List.mem_cons_of_mem c hd)]
  rfl

theorem run_space (ws : List (List ℕ)) (w rest : List ℕ) :
    run ⟨ws, w, .bare⟩ (32 :: rest) = run ⟨ws ++ [w], [], .blank⟩ rest := rfl

theorem run_plain {w : List ℕ} (hw : ∀ c ∈ w, plain c = true) (hne : w ≠ []) (ws : List (List ℕ)) (rest : List ℕ) :
    run ⟨ws, [], .blank⟩ (w ++ 32 :: rest) = run ⟨ws ++ [w], [], .blank⟩ rest := by
  rw [run_word hw hne, run_space]

/-- A quoted word may be empty. -/
theorem run_quoted {s : List ℕ} (hs : ∀ c ∈ s, literal c = true) (ws : List (List ℕ)) (rest : List ℕ) :
    run ⟨ws, [], .blank⟩ (34 :: (s ++ 34 :: 32 :: rest)) = run ⟨ws ++ [s], [], .blank⟩ rest := by
  have hopen : run ⟨ws, [], .blank⟩ (34 :: (s ++ 34 :: 32 :: rest)) = run ⟨ws, [], .quoted⟩ (s ++ 34 :: 32 :: rest) := rfl
  rw [hopen, run_literal hs]
  rfl

theorem finish_last {w : List ℕ} (hw : ∀ c ∈ w, plain c = true) (hne : w ≠ []) (ws : List (List ℕ)) :
    (run ⟨ws, [], .blank⟩ w).bind finish = some (ws ++ [w]) := by
  have h := run_word hw hne ws []
  rw [List.append_nil] at h
  rw [h]
  rfl

/-! ## Lines that are cut off -/

/-- The characters of the words. -/
def State.count (st : State) : ℕ := (st.words.map List.length).sum + st.word.length

/-- Between words there is no word. -/
def State.Wf (st : State) : Prop := st.mode = .blank → st.word = []

theorem step_count {st st' : State} {c : ℕ} (hst : st.Wf) (h : step st c = some st') :
    st'.Wf ∧ st.count ≤ st'.count ∧ (plain c = true → st.count < st'.count) := by
  obtain ⟨words, word, mode⟩ := st
  cases mode with
  | blank =>
    have hnil : word = [] := hst rfl
    subst hnil
    rw [step] at h
    split_ifs at h with hquote hblank hplain
    · cases h
      exact ⟨by simp [State.Wf], le_rfl, fun hc => absurd hquote (plain_spec hc).1⟩
    · cases h
      exact ⟨by simp [State.Wf], le_rfl, fun hc => absurd hblank (plain_spec hc).2⟩
    · cases h
      simp [State.Wf, State.count]
  | bare =>
    rw [step] at h
    split_ifs at h with hquote hblank hplain
    · cases h
      exact ⟨by simp [State.Wf], le_rfl, fun hc => absurd hquote (plain_spec hc).1⟩
    · cases h
      exact ⟨by simp [State.Wf], by simp [State.count], fun hc => absurd hblank (plain_spec hc).2⟩
    · cases h
      simp only [State.Wf, State.count, List.length_append, List.length_singleton]
      exact ⟨by simp, by omega, by omega⟩
  | quoted =>
    rw [step] at h
    split_ifs at h with hquote hliteral
    · cases h
      exact ⟨by simp [State.Wf], le_rfl, fun hc => absurd hquote (plain_spec hc).1⟩
    · cases h
      simp only [State.Wf, State.count, List.length_append, List.length_singleton]
      exact ⟨by simp, by omega, by omega⟩

theorem run_count {st st' : State} {line : List ℕ} (hst : st.Wf) (h : run st line = some st') :
    st'.Wf ∧ st.count ≤ st'.count := by
  induction line generalizing st with
  | nil =>
    cases h
    exact ⟨hst, le_rfl⟩
  | cons c line ih =>
    rw [run_cons, Option.bind_eq_some_iff] at h
    obtain ⟨st1, hstep, hrun⟩ := h
    obtain ⟨hst1, hle, -⟩ := step_count hst hstep
    obtain ⟨hst', hle'⟩ := ih hst1 hrun
    exact ⟨hst', hle.trans hle'⟩

theorem finish_count {st : State} {ws : List (List ℕ)} (hst : st.Wf) (h : finish st = some ws) :
    (ws.map List.length).sum = st.count := by
  obtain ⟨words, word, mode⟩ := st
  cases mode with
  | blank =>
    have hnil : word = [] := hst rfl
    cases h
    simp [State.count, hnil]
  | bare =>
    cases h
    simp [State.count]
  | quoted => cases h

/-- A line that ends in a plain character has other words if it is cut off. -/
theorem parse_cut {line more : List ℕ} {c : ℕ} {ws : List (List ℕ)} (hc : plain c = true)
    (h : parse (line ++ (more ++ [c])) = some ws) : parse line ≠ some ws := by
  intro hcut
  obtain ⟨st1, hrun1, hfin1⟩ := Option.bind_eq_some_iff.mp hcut
  obtain ⟨st3, hrun3, hfin3⟩ := Option.bind_eq_some_iff.mp h
  rw [run_append, hrun1, Option.bind_some, run_append, Option.bind_eq_some_iff] at hrun3
  obtain ⟨st2, hrun2, hlast⟩ := hrun3
  rw [run_cons, Option.bind_eq_some_iff] at hlast
  obtain ⟨st, hstep, hend⟩ := hlast
  cases hend
  obtain ⟨hwf1, -⟩ := run_count (fun _ => rfl) hrun1
  obtain ⟨hwf2, hle⟩ := run_count hwf1 hrun2
  obtain ⟨hwf3, -, hlt⟩ := step_count hwf2 hstep
  have hcount1 := finish_count hwf1 hfin1
  have hcount3 := finish_count hwf3 hfin3
  have := hlt hc
  omega

end Mand.Shell
