import Mand.Store.Rows
import Mand.Store.Set
import Mathlib.Logic.Function.Basic

/-! # Leaves

What a write of one leaf does to what is seen of all values. -/
namespace Mand.Store
open Mand.Index
set_option autoImplicit false

/-- What `f` shows of the values. -/
def DmStore.seen {β : Type} (f : DmValue → β) (st : DmStore) (l : Loc) : Option β := (st.value l).map f

/-- The rows of an object are not shown. -/
def RowBlind {β : Type} (f : DmValue → β) : Prop :=
  ∀ (v : DmValue) (t t' : Option ObjTree), v.content = .inst t → f { v with content := .inst t' } = f v

def Content.leaf : Content → Option Value
  | .scalar v => some v
  | _ => none

def DmValue.leaf (v : DmValue) : Option Value := v.content.leaf

def DmValue.pending (v : DmValue) : Bool := v.flags.pending

theorem leaf_rowBlind : RowBlind DmValue.leaf := by
  intro v t t' h
  rw [DmValue.leaf, DmValue.leaf, h]
  rfl

theorem pending_rowBlind : RowBlind DmValue.pending := fun _ _ _ _ => rfl

/-- The setter of the element writes the value and nothing else. -/
def DmElement.alone (e : DmElement) : Prop := e.set = none ∨ e.set = some .clockCurrentdatetime

instance (e : DmElement) : Decidable e.alone := inferInstanceAs (Decidable (_ ∨ _))

section Writes
variable {β : Type} {f : DmValue → β} {st st' : DmStore} {l : Loc} {v : DmValue}

theorem seen_setValue (h : st.setValue l v = some st') :
    st'.seen f = Function.update (st.seen f) l (some (f v)) := by
  funext l'
  rw [DmStore.seen, DmStore.value_setValue h]
  by_cases hl : l' = l
  · rw [if_pos hl, hl, Function.update_self]
    rfl
  · rw [if_neg hl, Function.update_of_ne hl]
    rfl

/-- Writing what looks the same. -/
theorem seen_setValue_same {w : DmValue} (hv : st.value l = some v) (h : st.setValue l w = some st')
    (hf : f w = f v) : st'.seen f = st.seen f := by
  rw [seen_setValue h, hf, Function.update_eq_self_iff, DmStore.seen, hv]
  rfl

theorem seen_setTree {a i : ℕ} {t : Option ObjTree} {o : ObjTree} (hf : RowBlind f) (htree : st.tree a i = some t)
    (h : setTree st a i o = some st') : st'.seen f = st.seen f := by
  obtain ⟨v, hv, hset⟩ := setTree_eq_some h
  obtain ⟨w, hw, hc⟩ := (tree_eq_some st a i t).1 htree
  rw [hv] at hw
  cases hw
  exact seen_setValue_same (l := .slot a i) hv hset (hf v t _ hc)

theorem seen_reindex {e : DmElement} {id a : ℕ} (hf : RowBlind f) (h : reindex st e id a = some st') :
    st'.seen f = st.seen f := by
  unfold reindex at h
  split at h
  · unfold updateIndex at h
    simp only [Option.bind_eq_bind, Option.bind_eq_some_iff] at h
    obtain ⟨n, -, h⟩ := h
    split at h
    · cases h
      rfl
    · simp only [Option.bind_eq_some_iff] at h
      obtain ⟨t, htree, o, -, tree, -, h⟩ := h
      exact seen_setTree hf htree h
  · cases h
    rfl

/-- What a setter of one value leaves there. -/
theorem assign_alone {undef a : ℕ} {e : DmElement} {val : DmValue} {r : DmResult} (he : e.alone)
    (h : assign undef st e a l val = some (r, st')) :
    r = .ok ∧ ∃ w, w.content = val.content ∧ st.setValue l w = some st' := by
  unfold assign at h
  cases he with
  | inl hnone =>
    rw [hnone] at h
    simp only [Option.bind_eq_bind, Option.bind_eq_some_iff, Option.some.injEq, Prod.mk.injEq] at h
    obtain ⟨old, -, st1, hset, rfl, rfl⟩ := h
    exact ⟨rfl, { old with content := val.content }, rfl, hset⟩
  | inr hclock =>
    rw [hclock] at h
    simp only [SetHook.run, Option.bind_eq_bind, Option.bind_eq_some_iff, Option.some.injEq, Prod.mk.injEq] at h
    obtain ⟨st1, hset, rfl, rfl⟩ := h
    exact ⟨rfl, val, rfl, hset⟩

/-- A set at once changes the leaf and nothing else. -/
theorem seen_overwriteValue {undef : ℕ} {S : Schema} {sel : Selector} {ref : Ref} {val : DmValue} {r : DmResult}
    (hf : RowBlind f) (hleaf : ∀ w w' : DmValue, w.content = w'.content → f w = f w')
    (href : st.getElementRef S sel = some (some ref)) (he : ref.elem.alone)
    (h : overwriteValue undef S st sel val = some (r, st')) :
    r = .ok ∧ st'.seen f = Function.update (st.seen f) ref.value (some (f val)) := by
  simp only [overwriteValue, href, Option.bind_eq_bind, Option.bind_some] at h
  split at h
  · cases h
  simp only [Option.bind_eq_some_iff, Prod.exists] at h
  obtain ⟨old, -, u, -, r1, st1, h1, v, hv, st2, h2, h⟩ := h
  obtain ⟨rfl, w, hw, hset⟩ := assign_alone he h1
  have hs1 : st1.seen f = Function.update (st.seen f) ref.value (some (f val)) := by
    rw [seen_setValue hset, hleaf w val hw]
  have hs2 := seen_setValue_same (f := f) hv h2 (hleaf _ v rfl)
  split at h
  · simp only [Option.bind_eq_some_iff, Option.some.injEq, Prod.mk.injEq] at h
    obtain ⟨v', hv', st3, h3, st4, h4, rfl, rfl⟩ := h
    have hs3 := seen_setValue_same (f := f) hv' h3 (hleaf _ v' rfl)
    exact ⟨rfl, by rw [seen_reindex hf h4, hs3, hs2, hs1]⟩
  · cases h
    exact ⟨rfl, by rw [hs2, hs1]⟩

end Writes

end Mand.Store
