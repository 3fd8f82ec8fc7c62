import Mathlib.Data.List.Lex
import Mathlib.Tactic.Common

/-! # Bracketed walks

A walk over a tree reports what it meets: a leaf once, and everything else when it is entered and when it is
left. The reports are read back with the things that are open. -/
namespace Mand.Bracket
set_option autoImplicit false

/-- A report: `α` names a thing among its siblings. -/
inductive Mark (α β : Type)
  | visit (a : α) (b : β)
  | enter (a : α) (b : β)
  | leave (a : α)

/-- Something with the names on the way to it, its own last. -/
structure Node (α β : Type) where
  steps : List α
  data : β

variable {α β : Type}

def Node.under (p : List α) (x : Node α β) : Node α β := ⟨p ++ x.steps, x.data⟩

@[simp] theorem Node.under_nil (x : Node α β) : x.under [] = x := rfl

theorem Node.under_append (p q : List α) (x : Node α β) : x.under (p ++ q) = (x.under q).under p := by
  simp [Node.under]

/-- What is open at the end and what was met, in order. There is none if something is left that is not the
last one that was entered. -/
def replay [DecidableEq α] : List α → List (Mark α β) → Option (List α × List (Node α β))
  | opened, [] => some (opened, [])
  | opened, .visit a b :: rest => (replay opened rest).map fun s => (s.1, ⟨opened ++ [a], b⟩ :: s.2)
  | opened, .enter a b :: rest => (replay (opened ++ [a]) rest).map fun s => (s.1, ⟨opened ++ [a], b⟩ :: s.2)
  | opened, .leave a :: rest => if opened.getLast? = some a then replay opened.dropLast rest else none

/-- Wherever the reports stand, they leave open what was open, and these things are met. -/
def Balanced [DecidableEq α] (l : List (Mark α β)) (nodes : List (Node α β)) : Prop :=
  ∀ opened rest, replay opened (l ++ rest) =
    (replay opened rest).map fun s => (s.1, nodes.map (Node.under opened) ++ s.2)

section Balanced
variable [DecidableEq α] {l l' : List (Mark α β)} {nodes nodes' : List (Node α β)}

theorem Balanced.nil : Balanced ([] : List (Mark α β)) [] := by
  intro opened rest
  simp

theorem Balanced.append (h : Balanced l nodes) (h' : Balanced l' nodes') : Balanced (l ++ l') (nodes ++ nodes') := by
  intro opened rest
  rw [List.append_assoc, h, h']
  simp [Option.map_map, Function.comp_def]

theorem Balanced.visit (a : α) (b : β) : Balanced [.visit a b] [⟨[a], b⟩] := by
  intro opened rest
  simp [replay, Node.under]

theorem Balanced.block (h : Balanced l nodes) (a : α) (b : β) :
    Balanced (.enter a b :: l ++ [.leave a]) (⟨[a], b⟩ :: nodes.map (Node.under [a])) := by
  intro opened rest
  have hunder : (Node.under opened ∘ Node.under [a] : Node α β → Node α β) = Node.under (opened ++ [a]) := by
    funext x
    exact (Node.under_append opened [a] x).symm
  rw [List.append_assoc, List.cons_append, replay, h]
  simp [replay, hunder, Option.map_map, Function.comp_def, Node.under]

/-- At the top nothing stays open. -/
theorem Balanced.closed (h : Balanced l nodes) : replay [] l = some ([], nodes) := by
  have h0 := h [] []
  have hid : (Node.under [] : Node α β → Node α β) = id := by
    funext x
    exact Node.under_nil x
  rw [List.append_nil] at h0
  rw [h0, hid, List.map_id]
  simp [replay]

end Balanced

/-! ## What is met -/

/-- The place of something: the keys of the names on the way to it. -/
def Node.path {K : Type} (key : α → K) (x : Node α β) : List K := x.steps.map key

theorem Node.path_under {K : Type} (key : α → K) (p : List α) (x : Node α β) :
    (x.under p).path key = p.map key ++ x.path key := by
  simp [Node.path, Node.under]

section Told
variable [DecidableEq α] {K : Type} [LT K] (key : α → K)

/-- The reports are balanced. What they meet is that of which `P` holds, in the order of the places. -/
structure Told (P : Node α β → Prop) (l : List (Mark α β)) (nodes : List (Node α β)) : Prop where
  balanced : Balanced l nodes
  sorted : nodes.Pairwise fun x y => x.path key < y.path key
  mem : ∀ x, x ∈ nodes ↔ P x

variable {key} {P Q : Node α β → Prop} {l l' : List (Mark α β)} {nodes nodes' : List (Node α β)}

theorem Told.nothing (h : ∀ x, ¬P x) : Told key P [] [] :=
  ⟨.nil, .nil, fun x => iff_of_false List.not_mem_nil (h x)⟩

theorem Told.congr (h : Told key P l nodes) (hiff : ∀ x, P x ↔ Q x) : Told key Q l nodes :=
  ⟨h.balanced, h.sorted, fun x => (h.mem x).trans (hiff x)⟩

theorem Told.append (h : Told key P l nodes) (h' : Told key Q l' nodes')
    (hlt : ∀ x y, P x → Q y → x.path key < y.path key) : Told key (fun x => P x ∨ Q x) (l ++ l') (nodes ++ nodes') where
  balanced := h.balanced.append h'.balanced
  sorted := List.pairwise_append.mpr
    ⟨h.sorted, h'.sorted, fun x hx y hy => hlt x y ((h.mem x).mp hx) ((h'.mem y).mp hy)⟩
  mem := fun x => by rw [List.mem_append, h.mem, h'.mem]

theorem Told.visit (a : α) (b : β) : Told key (fun x => x = ⟨[a], b⟩) [.visit a b] [⟨[a], b⟩] :=
  ⟨.visit a b, List.pairwise_singleton _ _, fun _ => List.mem_singleton⟩

/-- Something with parts. -/
theorem Told.block (h : Told key P l nodes) (hP : ∀ x, P x → x.steps ≠ []) (a : α) (b : β) :
    Told key (fun x => x = ⟨[a], b⟩ ∨ ∃ y, P y ∧ y.under [a] = x) (.enter a b :: l ++ [.leave a])
      (⟨[a], b⟩ :: nodes.map (Node.under [a])) where
  balanced := h.balanced.block a b
  sorted := by
    rw [List.pairwise_cons, List.pairwise_map]
    constructor
    · intro x hx
      obtain ⟨y, hy, rfl⟩ := List.mem_map.mp hx
      have hne := hP y ((h.mem y).mp hy)
      obtain ⟨c, q, hcq⟩ := List.exists_cons_of_ne_nil hne
      simp only [Node.path, Node.under, hcq, List.map_cons, List.map_nil, List.cons_append, List.nil_append]
      exact List.Lex.cons List.Lex.nil
    · refine h.sorted.imp ?_
      intro x y hxy
      rw [Node.path_under, Node.path_under]
      exact List.Lex.cons hxy
  mem := by
    intro x
    rw [List.mem_cons, List.mem_map]
    simp only [h.mem]

end Told

end Mand.Bracket
