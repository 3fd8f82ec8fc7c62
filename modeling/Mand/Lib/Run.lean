import Mathlib.Data.List.Infix
import Mathlib.Tactic.Common

/-! # Runs

What holds in every state of a run of a machine whose steps may fail, from what one step keeps. -/
namespace Mand.Run
set_option autoImplicit false

variable {S E : Type} (step : S → E → Option S)

/-- The state after some events. -/
def run (s : S) (evs : List E) : Option S := evs.foldlM step s

/-- `P` holds in every state on the way. -/
def Always (s0 : S) (P : S → Prop) (evs : List E) : Prop :=
  ∀ pre s, pre <+: evs → run step s0 pre = some s → P s

/-- Every step is taken in a state where it meets the condition. -/
def Each (s0 : S) (M : S → E → Prop) (evs : List E) : Prop :=
  ∀ pre ev s s', pre ++ [ev] <+: evs → run step s0 pre = some s → step s ev = some s' → M s ev

variable {step} {s t : S} {evs : List E}

theorem run_append (s : S) (evs evs' : List E) :
    run step s (evs ++ evs') = (run step s evs).bind fun t => run step t evs' := List.foldlM_append

theorem run_snoc {ev : E} : run step s (evs ++ [ev]) = some t ↔
    ∃ u, run step s evs = some u ∧ step u ev = some t := by
  rw [run_append, Option.bind_eq_some_iff]
  simp only [run, List.foldlM_cons, List.foldlM_nil, Option.bind_eq_bind, Option.pure_def, Option.bind_fun_some]

/-- What every step keeps, a run keeps. -/
theorem run_keeps {P : S → Prop} (hstep : ∀ s ev s', step s ev = some s' → P s → P s')
    (h : run step s evs = some t) (hs : P s) : P t := by
  induction evs using List.reverseRecOn generalizing t with
  | nil =>
    cases h
    exact hs
  | append_singleton evs ev ih =>
    obtain ⟨u, hu, ht⟩ := run_snoc.mp h
    exact hstep u ev t ht (ih hu)

/-- Steps that meet the condition keep `P` with the help of an invariant. -/
theorem always_of_each {s0 : S} {Inv P : S → Prop} {M : S → E → Prop} (h0 : Inv s0)
    (hinv : ∀ s ev s', step s ev = some s' → Inv s → Inv s') (hp0 : P s0)
    (hstep : ∀ s ev s', step s ev = some s' → Inv s → P s → M s ev → P s')
    (hM : Each step s0 M evs) : Always step s0 P evs := by
  intro pre
  induction pre using List.reverseRecOn with
  | nil =>
    intro s _ hr
    cases hr
    exact hp0
  | append_singleton pre ev ih =>
    intro s' hpre hr
    obtain ⟨s, hs, hev⟩ := run_snoc.mp hr
    have hp := ih s ((List.prefix_append pre [ev]).trans hpre) hs
    exact hstep s ev s' hev (run_keeps hinv hs h0) hp (hM pre ev s s' hpre hs hev)

/-- `P` holds all along exactly when the steps meet the condition, if this decides about a step. -/
theorem always_iff_each {s0 : S} {Inv P : S → Prop} {M : S → E → Prop} (h0 : Inv s0)
    (hinv : ∀ s ev s', step s ev = some s' → Inv s → Inv s') (hp0 : P s0)
    (hstep : ∀ s ev s', step s ev = some s' → Inv s → P s → (P s' ↔ M s ev)) :
    Always step s0 P evs ↔ Each step s0 M evs := by
  constructor
  · intro h pre ev s s' hpre hr hev
    have hp := h pre s ((List.prefix_append pre [ev]).trans hpre) hr
    have hp' := h (pre ++ [ev]) s' hpre (run_snoc.mpr ⟨s, hr, hev⟩)
    exact (hstep s ev s' hev (run_keeps hinv hr h0) hp).mp hp'
  · exact always_of_each h0 hinv hp0 fun s ev s' hev hi hp hm => (hstep s ev s' hev hi hp).mpr hm

theorem each_nil {M : S → E → Prop} : Each step s M [] := by
  intro pre ev u u' hpre
  exact absurd (List.prefix_nil.mp hpre) (by simp)

/-- The condition on a run, event by event. -/
theorem each_cons {M : S → E → Prop} {ev : E} (h : ∀ t, step s ev = some t → M s ev ∧ Each step t M evs) :
    Each step s M (ev :: evs) := by
  intro pre e u u' hpre hrun hstep
  cases pre with
  | nil =>
    obtain ⟨rfl, -⟩ := List.cons_prefix_cons.mp hpre
    cases hrun
    exact (h u' hstep).1
  | cons p pre =>
    obtain ⟨rfl, htail⟩ := List.cons_prefix_cons.mp hpre
    rw [run, List.foldlM_cons] at hrun
    obtain ⟨t, ht, hrun⟩ := Option.bind_eq_some_iff.mp hrun
    exact (h t ht).2 pre e u u' htail hrun hstep

/-- A condition that can be evaluated, along a run. -/
def checks (step : S → E → Option S) (m : S → E → Bool) : S → List E → Bool
  | _, [] => true
  | s, ev :: evs => m s ev && (step s ev).all fun t => checks step m t evs

theorem each_of_checks {m : S → E → Bool} (s : S) (evs : List E) (h : checks step m s evs = true) :
    Each step s (fun s ev => m s ev = true) evs := by
  induction evs generalizing s with
  | nil => exact each_nil
  | cons ev evs ih =>
    rw [checks, Bool.and_eq_true] at h
    refine each_cons ?_
    intro t ht
    rw [ht, Option.all_some] at h
    exact ⟨h.1, ih t h.2⟩

end Mand.Run
