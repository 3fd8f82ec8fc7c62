import Mathlib.Data.List.Nodup
import Mathlib.Logic.Function.Basic
import Mathlib.Tactic.Common

/-! # Writes to a function

A list of writes is applied to a function one after the other. Writes to different places may come in any
order, and of those to one place the last one counts. -/
namespace Mand.Updates
set_option autoImplicit false

variable {α β : Type} [DecidableEq α] {f : α → β} {us us' : List (α × β)} {a : α} {b : β}

def writes (f : α → β) (us : List (α × β)) : α → β := us.foldl (fun g u => Function.update g u.1 u.2) f

@[simp]
theorem writes_nil (f : α → β) : writes f [] = f := rfl

@[simp]
theorem writes_cons (f : α → β) (u : α × β) (us : List (α × β)) :
    writes f (u :: us) = writes (Function.update f u.1 u.2) us := rfl

theorem writes_of_not_mem (h : a ∉ us.map Prod.fst) : writes f us a = f a := by
  induction us generalizing f with
  | nil => rfl
  | cons u us ih =>
    rw [List.map_cons, List.mem_cons, not_or] at h
    rw [writes_cons, ih h.2, Function.update_of_ne h.1]

theorem writes_of_mem (hnd : (us.map Prod.fst).Nodup) (h : (a, b) ∈ us) : writes f us a = b := by
  induction us generalizing f with
  | nil => exact absurd h List.not_mem_nil
  | cons u us ih =>
    rw [List.map_cons, List.nodup_cons] at hnd
    rw [writes_cons]
    cases List.mem_cons.1 h with
    | inl hu =>
      subst hu
      rw [writes_of_not_mem hnd.1, Function.update_self]
    | inr hu => exact ih hnd.2 hu

/-- One write more, or another value at a place that is written already. -/
theorem writes_put (hnd : (us.map Prod.fst).Nodup) (hnd' : (us'.map Prod.fst).Nodup)
    (h : ∀ u, u ∈ us' ↔ u = (a, b) ∨ u ∈ us ∧ u.1 ≠ a) :
    writes f us' = Function.update (writes f us) a b := by
  funext x
  by_cases hx : x = a
  · subst hx
    rw [Function.update_self]
    exact writes_of_mem hnd' ((h (x, b)).2 (.inl rfl))
  rw [Function.update_of_ne hx]
  by_cases hm : x ∈ us.map Prod.fst
  · obtain ⟨u, hu, rfl⟩ := List.mem_map.1 hm
    rw [writes_of_mem hnd hu, writes_of_mem hnd' ((h u).2 (.inr ⟨hu, hx⟩))]
  · rw [writes_of_not_mem hm, writes_of_not_mem]
    intro hm'
    obtain ⟨u, hu, rfl⟩ := List.mem_map.1 hm'
    cases (h u).1 hu with
    | inl he => exact hx (congrArg Prod.fst he)
    | inr he => exact hm (List.mem_map_of_mem he.1)

theorem writes_congr (hnd : (us.map Prod.fst).Nodup) (hnd' : (us'.map Prod.fst).Nodup) (h : ∀ u, u ∈ us' ↔ u ∈ us) :
    writes f us' = writes f us := by
  funext x
  by_cases hm : x ∈ us.map Prod.fst
  · obtain ⟨u, hu, rfl⟩ := List.mem_map.1 hm
    rw [writes_of_mem hnd hu, writes_of_mem hnd' ((h u).2 hu)]
  · rw [writes_of_not_mem hm, writes_of_not_mem]
    intro hm'
    obtain ⟨u, hu, rfl⟩ := List.mem_map.1 hm'
    exact hm (List.mem_map_of_mem ((h u).1 hu))

end Mand.Updates
