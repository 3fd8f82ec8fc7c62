import Mathlib.Data.Finset.Card
import Mathlib.Logic.Relation

/-! # Finite acyclic graphs

Reachability over vertices below a bound, the transitive reduction, and the lengths of walks. -/
namespace Mand.Digraph
open Relation
set_option autoImplicit false

/-! ## Reachability, one vertex after the other -/

section Via
variable (R : ℕ → ℕ → Prop)

/-- A path whose inner vertices are all below `k`. -/
def Via : ℕ → ℕ → ℕ → Prop
  | 0, i, j => R i j
  | k + 1, i, j => Via k i j ∨ Via k i k ∧ Via k k j

variable {R}

theorem Via.transGen {k i j : ℕ} (h : Via R k i j) : TransGen R i j := by
  induction k generalizing i j with
  | zero => exact .single h
  | succ k ih =>
    rcases h with h | ⟨h1, h2⟩
    · exact ih h
    · exact (ih h1).trans (ih h2)

theorem Via.of_edge {i j : ℕ} (h : R i j) (k : ℕ) : Via R k i j := by
  induction k with
  | zero => exact h
  | succ k ih => exact .inl ih

/-- Paths may be joined at a vertex below the bound. -/
theorem Via.trans {k i m j : ℕ} (hm : m < k) (h1 : Via R k i m) (h2 : Via R k m j) : Via R k i j := by
  induction k generalizing i m j with
  | zero => omega
  | succ k ih =>
    by_cases hmk : m = k
    · subst hmk
      have hleft : Via R m i m := h1.elim id And.left
      have hright : Via R m m j := h2.elim id And.right
      exact .inr ⟨hleft, hright⟩
    · have hlt : m < k := by omega
      rcases h1 with h1 | ⟨h1, h1'⟩
      · rcases h2 with h2 | ⟨h2, h2'⟩
        · exact .inl (ih hlt h1 h2)
        · exact .inr ⟨ih hlt h1 h2, h2'⟩
      · rcases h2 with h2 | ⟨h2, h2'⟩
        · exact .inr ⟨h1, ih hlt h1' h2⟩
        · exact .inr ⟨h1, h2'⟩

theorem via_iff {n : ℕ} (hn : ∀ i j, R i j → i < n ∧ j < n) (i j : ℕ) : Via R n i j ↔ TransGen R i j := by
  refine ⟨Via.transGen, ?_⟩
  intro h
  induction h with
  | single h => exact .of_edge h n
  | tail _ h ih => exact ih.trans (hn _ _ h).1 (.of_edge h n)

end Via

/-! ## Transitive reduction -/

section Reduct
variable {α : Type} (R : α → α → Prop)

def Acyclic : Prop := ∀ a, ¬TransGen R a a

/-- The edges that no longer path stands for. -/
def Reduct (a b : α) : Prop := R a b ∧ ¬∃ c, R a c ∧ TransGen R c b

variable {R}

/-- A rank that goes up along the edges. -/
theorem Acyclic.of_rank (f : α → ℕ) (h : ∀ a b, R a b → f a < f b) : Acyclic R := by
  intro a hcycle
  have hup : ∀ b, TransGen R a b → f a < f b := by
    intro b hb
    induction hb with
    | single hb => exact h a _ hb
    | tail _ hbc ih => exact ih.trans (h _ _ hbc)
  exact lt_irrefl _ (hup a hcycle)

theorem edge_or_path {a b : α} (h : TransGen R a b) : R a b ∨ ∃ c, TransGen R a c ∧ TransGen R c b := by
  cases h with
  | single h => exact .inl h
  | tail h h' => exact .inr ⟨_, h, .single h'⟩

theorem reduct_mono {a b : α} (h : TransGen (Reduct R) a b) : TransGen R a b := h.lift id fun _ _ h => h.1

variable {s : Finset α}

/-- A path can be refined at each edge that is not in the reduction, and there are fewer vertices between its ends
each time. -/
theorem transGen_reduct (hR : Acyclic R) (hs : ∀ a b, R a b → a ∈ s ∧ b ∈ s) {a b : α} (h : TransGen R a b) :
    TransGen (Reduct R) a b := by
  classical
  induction hn : (s.filter fun c => TransGen R a c ∧ TransGen R c b).card using Nat.strong_induction_on generalizing a b with
  | _ n ih =>
    by_cases hmid : ∃ c, TransGen R a c ∧ TransGen R c b
    · obtain ⟨c, hac, hcb⟩ := hmid
      have hc : c ∈ s := by
        cases hcb with
        | single h => exact (hs _ _ h).1
        | tail h _ =>
          obtain ⟨d, hcd, -⟩ := TransGen.head'_iff.mp h
          exact (hs _ _ hcd).1
      have hmem : c ∈ s.filter fun x => TransGen R a x ∧ TransGen R x b := Finset.mem_filter.mpr ⟨hc, hac, hcb⟩
      have hleft : (s.filter fun x => TransGen R a x ∧ TransGen R x c).card < n := by
        rw [← hn]
        refine Finset.card_lt_card ⟨?_, fun hsub => ?_⟩
        · intro x hx
          obtain ⟨hxs, hax, hxc⟩ := Finset.mem_filter.mp hx
          exact Finset.mem_filter.mpr ⟨hxs, hax, hxc.trans hcb⟩
        · exact hR c (Finset.mem_filter.mp (hsub hmem)).2.2
      have hright : (s.filter fun x => TransGen R c x ∧ TransGen R x b).card < n := by
        rw [← hn]
        refine Finset.card_lt_card ⟨?_, fun hsub => ?_⟩
        · intro x hx
          obtain ⟨hxs, hcx, hxb⟩ := Finset.mem_filter.mp hx
          exact Finset.mem_filter.mpr ⟨hxs, hac.trans hcx, hxb⟩
        · exact hR c (Finset.mem_filter.mp (hsub hmem)).2.1
      exact (ih _ hleft hac rfl).trans (ih _ hright hcb rfl)
    · have hedge : R a b := (edge_or_path h).resolve_right hmid
      exact .single ⟨hedge, fun ⟨c, hac, hcb⟩ => hmid ⟨c, .single hac, hcb⟩⟩

theorem transGen_reduct_iff (hR : Acyclic R) (hs : ∀ a b, R a b → a ∈ s ∧ b ∈ s) (a b : α) :
    TransGen (Reduct R) a b ↔ TransGen R a b := ⟨reduct_mono, transGen_reduct hR hs⟩

/-- No edge of the reduction is a longer path of it. -/
theorem reduct_minimal {a b c : α} (hab : Reduct R a b) (hac : TransGen (Reduct R) a c) (hcb : TransGen (Reduct R) c b) :
    False := by
  obtain ⟨d, had, hdc⟩ := TransGen.head'_iff.mp hac
  refine hab.2 ⟨d, had.1, ?_⟩
  rcases reflTransGen_iff_eq_or_transGen.mp hdc with rfl | hdc
  · exact reduct_mono hcb
  · exact (reduct_mono hdc).trans (reduct_mono hcb)

end Reduct

/-! ## Walks -/

section Walk
variable {α : Type} (R : α → α → Prop)

/-- A walk of some length. -/
inductive Walk : ℕ → α → α → Prop
  | refl (a : α) : Walk 0 a a
  | head {k : ℕ} {a b c : α} (h : R a b) (w : Walk k b c) : Walk (k + 1) a c

variable {R}

theorem Walk.snoc {k : ℕ} {a b c : α} (w : Walk R k a b) (h : R b c) : Walk R (k + 1) a c := by
  induction w with
  | refl a => exact .head h (.refl c)
  | head h' _ ih => exact .head h' (ih h)

theorem Walk.zero {a b : α} (w : Walk R 0 a b) : a = b := by
  cases w
  rfl

/-- The number of vertices that can be reached goes down along a walk. -/
theorem Walk.length_lt {s : Finset α} (hR : Acyclic R) (hs : ∀ a b, R a b → a ∈ s ∧ b ∈ s) {k : ℕ} {a b : α} (ha : a ∈ s)
    (w : Walk R k a b) : k < s.card := by
  classical
  have hreach : k ≤ (s.filter (TransGen R a)).card := by
    induction w with
    | refl a => exact Nat.zero_le _
    | @head k a b c h w ih =>
      have hb := (hs a b h).2
      have hlt : (s.filter (TransGen R b)).card < (s.filter (TransGen R a)).card := by
        refine Finset.card_lt_card ⟨?_, fun hsub => ?_⟩
        · intro x hx
          obtain ⟨hxs, hbx⟩ := Finset.mem_filter.mp hx
          exact Finset.mem_filter.mpr ⟨hxs, .head h hbx⟩
        · exact hR b (Finset.mem_filter.mp (hsub (Finset.mem_filter.mpr ⟨hb, .single h⟩))).2
      have := ih hb
      omega
  refine hreach.trans_lt (Finset.card_lt_card ⟨Finset.filter_subset _ s, fun hsub => ?_⟩)
  exact hR a (Finset.mem_filter.mp (hsub ha)).2

end Walk
end Mand.Digraph
