import Mathlib.Data.List.Perm.Subperm
import Mathlib.Data.Int.Notation
import Mathlib.Tactic.Common

/-! # Rows grouped by equal keys

The contents of an ordered index that may hold several rows of one key: a list of groups, ascending
by the key of their first rows. A comparison is an integer, as in C: negative, zero or positive. -/
namespace Mand.Groups
set_option autoImplicit false

variable {E : Type}

/-- The rows of one key. The first one stands for the group. -/
structure Group (E : Type) where
  head : E
  chain : List E
  deriving DecidableEq, Repr

def Group.members (g : Group E) : List E := g.head :: g.chain

def rowsOf (gs : List (Group E)) : List E := gs.flatMap Group.members

/-- Add the row `x`; `cmp e` compares the key of `x` with the key of `e`. A row of a known key is put
directly behind the first row of its group. -/
def addRow (cmp : E → ℤ) (x : E) : List (Group E) → List (Group E)
  | [] => [⟨x, []⟩]
  | g :: gs =>
    if cmp g.head < 0 then ⟨x, []⟩ :: g :: gs
    else if 0 < cmp g.head then g :: addRow cmp x gs
    else ⟨g.head, x :: g.chain⟩ :: gs

/-- A row was added: as a group of its own, or behind the head of the group that is named. -/
inductive Added (x : E) : List (Group E) → List (Group E) → Option E → Prop
  | fresh (l r : List (Group E)) : Added x (l ++ r) (l ++ ⟨x, []⟩ :: r) none
  | chained (l : List (Group E)) (g : Group E) (r : List (Group E)) :
      Added x (l ++ g :: r) (l ++ ⟨g.head, x :: g.chain⟩ :: r) (some g.head)

/-- The first row whose key compares equal. -/
def lookup (cmp : E → ℤ) (gs : List (Group E)) : Option E :=
  (gs.find? fun g => cmp g.head = 0).map Group.head

section Remove
variable [DecidableEq E]

/-- A group without the row `x`: the next row of the chain takes the place of the first one. -/
def Group.without (x : E) (g : Group E) : Option (Group E) :=
  if x = g.head then
    match g.chain with
    | [] => none
    | y :: ys => some ⟨y, ys⟩
  else some ⟨g.head, g.chain.erase x⟩

def dropRow (x : E) (gs : List (Group E)) : List (Group E) := gs.filterMap (Group.without x)

end Remove

/-! ## Order -/

/-- A comparison of the rows in `s` that orders them totally, with ties. -/
structure PreorderOn (s : E → Prop) (cmp : E → E → ℤ) : Prop where
  lt_iff_gt : ∀ a b, s a → s b → (cmp a b < 0 ↔ 0 < cmp b a)
  le_trans : ∀ a b c, s a → s b → s c → cmp a b ≤ 0 → cmp b c ≤ 0 → cmp a c ≤ 0

namespace PreorderOn
variable {s : E → Prop} {cmp : E → E → ℤ}

theorem refl (h : PreorderOn s cmp) (a : E) (ha : s a) : cmp a a = 0 := by
  have h1 := h.lt_iff_gt a a ha ha
  omega

theorem eq_symm (h : PreorderOn s cmp) (a b : E) (ha : s a) (hb : s b) (hab : cmp a b = 0) :
    cmp b a = 0 := by
  have h1 := h.lt_iff_gt a b ha hb
  have h2 := h.lt_iff_gt b a hb ha
  omega

theorem lt_of_lt_of_le (h : PreorderOn s cmp) (a b c : E) (ha : s a) (hb : s b) (hc : s c)
    (hab : cmp a b < 0) (hbc : cmp b c ≤ 0) : cmp a c < 0 := by
  have h1 := h.lt_iff_gt a b ha hb
  have h2 := h.lt_iff_gt c a hc ha
  have h3 := h.lt_iff_gt a c ha hc
  by_contra hge
  have hca : cmp c a ≤ 0 := by omega
  have hba := h.le_trans b c a hb hc ha hbc hca
  omega

theorem lt_of_le_of_lt (h : PreorderOn s cmp) (a b c : E) (ha : s a) (hb : s b) (hc : s c)
    (hab : cmp a b ≤ 0) (hbc : cmp b c < 0) : cmp a c < 0 := by
  have h1 := h.lt_iff_gt b c hb hc
  have h2 := h.lt_iff_gt c a hc ha
  have h3 := h.lt_iff_gt a c ha hc
  by_contra hge
  have hca : cmp c a ≤ 0 := by omega
  have hcb := h.le_trans c a b hc ha hb hca hab
  omega

theorem eq_trans (h : PreorderOn s cmp) (a b c : E) (ha : s a) (hb : s b) (hc : s c)
    (hab : cmp a b = 0) (hbc : cmp b c = 0) : cmp a c = 0 := by
  have h1 := h.le_trans a b c ha hb hc (Int.le_of_eq hab) (Int.le_of_eq hbc)
  have h2 := h.le_trans c b a hc hb ha (Int.le_of_eq (h.eq_symm b c hb hc hbc))
    (Int.le_of_eq (h.eq_symm a b ha hb hab))
  have h3 := h.lt_iff_gt a c ha hc
  omega

theorem mono (h : PreorderOn s cmp) (s' : E → Prop) (hs : ∀ a, s' a → s a) :
    PreorderOn s' cmp :=
  ⟨fun a b ha hb => h.lt_iff_gt a b (hs a ha) (hs b hb),
    fun a b c ha hb hc => h.le_trans a b c (hs a ha) (hs b hb) (hs c hc)⟩

theorem congr {cmp' : E → E → ℤ} (h : PreorderOn s cmp)
    (he : ∀ a b, s a → s b → cmp' a b = cmp a b) : PreorderOn s cmp' := by
  refine ⟨fun a b ha hb => ?_, fun a b c ha hb hc hab hbc => ?_⟩
  · rw [he a b ha hb, he b a hb ha]
    exact h.lt_iff_gt a b ha hb
  · rw [he a b ha hb] at hab
    rw [he b c hb hc] at hbc
    rw [he a c ha hc]
    exact h.le_trans a b c ha hb hc hab hbc

/-- A preorder of the keys is one of the rows. -/
theorem comap {K : Type} {s : K → Prop} {cmp : K → K → ℤ} (h : PreorderOn s cmp) (key : E → K) :
    PreorderOn (fun a => s (key a)) (fun a b => cmp (key a) (key b)) :=
  ⟨fun a b ha hb => h.lt_iff_gt (key a) (key b) ha hb,
    fun a b c ha hb hc => h.le_trans (key a) (key b) (key c) ha hb hc⟩

end PreorderOn

/-- The groups ascend, and the rows of a group have one key. -/
structure Ordered (cmp : E → E → ℤ) (gs : List (Group E)) : Prop where
  ascending : gs.Pairwise fun g k => cmp g.head k.head < 0
  tied : ∀ g ∈ gs, ∀ x ∈ g.chain, cmp g.head x = 0

theorem Ordered.congr {cmp cmp' : E → E → ℤ} {gs : List (Group E)} (h : Ordered cmp gs)
    (he : ∀ x ∈ gs.flatMap Group.members, ∀ y ∈ gs.flatMap Group.members, cmp' x y = cmp x y) :
    Ordered cmp' gs := by
  have hhead : ∀ g ∈ gs, g.head ∈ gs.flatMap Group.members :=
    fun g hg => List.mem_flatMap.mpr ⟨g, hg, List.mem_cons_self⟩
  refine ⟨h.ascending.imp_of_mem ?_, ?_⟩
  · intro g k hg hk hlt
    rwa [he _ (hhead g hg) _ (hhead k hk)]
  · intro g hg x hx
    rw [he _ (hhead g hg) x (List.mem_flatMap.mpr ⟨g, hg, List.mem_cons_of_mem _ hx⟩)]
    exact h.tied g hg x hx

/-- A comparison with a fixed key that turns once from positive over zero to negative. -/
def Cut (cmp : E → ℤ) (gs : List (Group E)) : Prop :=
  gs.Pairwise fun g k => 0 ≤ cmp k.head → 0 < cmp g.head

theorem head_mem_rowsOf (gs : List (Group E)) (g : Group E) (h : g ∈ gs) : g.head ∈ rowsOf gs := by
  rw [rowsOf, List.mem_flatMap]
  exact ⟨g, h, List.mem_cons_self⟩

theorem mem_rowsOf (gs : List (Group E)) (x : E) :
    x ∈ rowsOf gs ↔ ∃ g ∈ gs, x = g.head ∨ x ∈ g.chain := by
  simp only [rowsOf, List.mem_flatMap, Group.members, List.mem_cons]

/-- A key cuts a list of groups that is ordered by keys. -/
theorem Ordered.cut {K : Type} {s : K → Prop} {cmp : K → K → ℤ} (hc : PreorderOn s cmp)
    (key : E → K) (gs : List (Group E)) (h : Ordered (fun a b => cmp (key a) (key b)) gs)
    (hs : ∀ x ∈ rowsOf gs, s (key x)) (k : K) (hk : s k) : Cut (fun x => cmp k (key x)) gs := by
  refine h.ascending.imp_of_mem ?_
  intro g j hg hj hgj hle
  have hle' : 0 ≤ cmp k (key j.head) := hle
  have sg := hs _ (head_mem_rowsOf gs g hg)
  have sj := hs _ (head_mem_rowsOf gs j hj)
  have hjk : cmp (key j.head) k ≤ 0 := by
    have h1 := hc.lt_iff_gt k (key j.head) hk sj
    omega
  have hgk := hc.lt_of_lt_of_le _ _ _ sg sj hk hgj hjk
  exact (hc.lt_iff_gt _ _ sg hk).mp hgk

/-- The rows ascend, with ties inside a group. -/
theorem Ordered.sorted {s : E → Prop} {cmp : E → E → ℤ} {gs : List (Group E)} (h : Ordered cmp gs)
    (hc : PreorderOn s cmp) (hs : ∀ x ∈ rowsOf gs, s x) : (rowsOf gs).Pairwise fun x y => cmp x y ≤ 0 := by
  have hhead : ∀ g ∈ gs, ∀ x ∈ g.members, cmp g.head x = 0 := by
    intro g hg x hx
    rcases List.mem_cons.mp hx with rfl | hx
    · exact hc.refl _ (hs _ (head_mem_rowsOf gs g hg))
    · exact h.tied g hg x hx
  have hmem : ∀ g ∈ gs, ∀ x ∈ g.members, s x := fun g hg x hx => hs x (List.mem_flatMap.mpr ⟨g, hg, hx⟩)
  have heq : ∀ g ∈ gs, ∀ x ∈ g.members, cmp x g.head = 0 := fun g hg x hx =>
    hc.eq_symm _ _ (hs _ (head_mem_rowsOf gs g hg)) (hmem g hg x hx) (hhead g hg x hx)
  rw [rowsOf, List.pairwise_flatMap]
  constructor
  · intro g hg
    refine List.pairwise_of_forall_mem_list ?_
    intro x hx y hy
    exact hc.le_trans x g.head y (hmem g hg x hx) (hs _ (head_mem_rowsOf gs g hg)) (hmem g hg y hy)
      (Int.le_of_eq (heq g hg x hx)) (Int.le_of_eq (hhead g hg y hy))
  · refine h.ascending.imp_of_mem ?_
    intro g k hg hk hlt x hx y hy
    have hxk := hc.lt_of_le_of_lt x g.head k.head (hmem g hg x hx) (hs _ (head_mem_rowsOf gs g hg))
      (hs _ (head_mem_rowsOf gs k hk)) (Int.le_of_eq (heq g hg x hx)) hlt
    exact hc.le_trans x k.head y (hmem g hg x hx) (hs _ (head_mem_rowsOf gs k hk)) (hmem k hk y hy)
      (Int.le_of_lt hxk) (Int.le_of_eq (hhead k hk y hy))

/-! ## Where a row goes -/

theorem addRow_lt (cmp : E → ℤ) (x : E) (l r : List (Group E)) (g : Group E)
    (hg : cmp g.head < 0) : addRow cmp x (l ++ g :: r) = addRow cmp x l ++ g :: r := by
  induction l with
  | nil => simp [addRow, hg]
  | cons k l ih =>
    rw [List.cons_append, addRow, addRow]
    split_ifs with h1 h2
    · rfl
    · rw [ih, List.cons_append]
    · rfl

theorem addRow_gt (cmp : E → ℤ) (x : E) (l r : List (Group E)) (hl : ∀ k ∈ l, 0 < cmp k.head) :
    addRow cmp x (l ++ r) = l ++ addRow cmp x r := by
  induction l with
  | nil => rfl
  | cons k l ih =>
    have hk := hl k List.mem_cons_self
    rw [List.cons_append, addRow, if_neg (by omega), if_pos hk,
      ih (fun j hj => hl j (List.mem_cons_of_mem k hj)), List.cons_append]

theorem addRow_eq (cmp : E → ℤ) (x : E) (l r : List (Group E)) (g : Group E)
    (hl : ∀ k ∈ l, 0 < cmp k.head) (hg : cmp g.head = 0) :
    addRow cmp x (l ++ g :: r) = l ++ ⟨g.head, x :: g.chain⟩ :: r := by
  rw [addRow_gt cmp x l _ hl, addRow, if_neg (by omega), if_neg (by omega)]

theorem Added.rows {x : E} {gs gs' : List (Group E)} {dup : Option E} (h : Added x gs gs' dup) :
    (rowsOf gs').Perm (x :: rowsOf gs) := by
  cases h with
  | fresh l r =>
    simp only [rowsOf, List.flatMap_append, List.flatMap_cons]
    exact List.perm_middle
  | chained l g r =>
    simp only [rowsOf, List.flatMap_append, List.flatMap_cons, Group.members]
    refine List.Perm.trans (List.Perm.append_left _ (List.Perm.swap x g.head _)) ?_
    exact List.perm_middle

theorem rowsOf_addRow (cmp : E → ℤ) (x : E) (gs : List (Group E)) :
    (rowsOf (addRow cmp x gs)).Perm (x :: rowsOf gs) := by
  induction gs with
  | nil => exact List.Perm.refl _
  | cons g gs ih =>
    rw [addRow]
    split_ifs with h1 h2
    · exact List.Perm.refl _
    · have h3 : (g.members ++ rowsOf (addRow cmp x gs)).Perm (g.members ++ x :: rowsOf gs) :=
        List.Perm.append_left _ ih
      exact h3.trans List.perm_middle
    · exact List.Perm.swap x g.head _

/-- A row that was added as a group of its own leaves the others without chains. -/
theorem Added.chainless {x : E} {gs gs' : List (Group E)} (h : Added x gs gs' none)
    (hg : ∀ g ∈ gs, g.chain = []) : ∀ g ∈ gs', g.chain = [] := by
  cases h with
  | fresh l r =>
    intro g hm
    rcases List.mem_append.mp hm with hm | hm
    · exact hg g (List.mem_append_left _ hm)
    · rcases List.mem_cons.mp hm with rfl | hm
      · rfl
      · exact hg g (List.mem_append_right _ hm)

theorem mem_addRow (cmp : E → ℤ) (x : E) (gs : List (Group E)) (k : Group E)
    (hk : k ∈ addRow cmp x gs) :
    k ∈ gs ∨ k = ⟨x, []⟩ ∨ ∃ g ∈ gs, cmp g.head = 0 ∧ k = ⟨g.head, x :: g.chain⟩ := by
  induction gs with
  | nil =>
    rw [addRow, List.mem_singleton] at hk
    exact .inr (.inl hk)
  | cons g gs ih =>
    rw [addRow] at hk
    split_ifs at hk with h1 h2
    · rcases List.mem_cons.mp hk with hk | hk
      · exact .inr (.inl hk)
      · exact .inl hk
    · rcases List.mem_cons.mp hk with hk | hk
      · exact .inl (List.mem_cons.mpr (.inl hk))
      · rcases ih hk with h3 | h3 | ⟨j, hj, h4⟩
        · exact .inl (List.mem_cons_of_mem g h3)
        · exact .inr (.inl h3)
        · exact .inr (.inr ⟨j, List.mem_cons_of_mem g hj, h4⟩)
    · rcases List.mem_cons.mp hk with hk | hk
      · exact .inr (.inr ⟨g, List.mem_cons_self, by omega, hk⟩)
      · exact .inl (List.mem_cons_of_mem g hk)

/-- Adding a row keeps the order. -/
theorem Ordered.addRow {s : E → Prop} {cmp : E → E → ℤ} (hc : PreorderOn s cmp)
    (gs : List (Group E)) (h : Ordered cmp gs) (hs : ∀ x ∈ rowsOf gs, s x) (x : E) (hx : s x) :
    Ordered cmp (addRow (cmp x) x gs) := by
  have hhead : ∀ g ∈ gs, s g.head := fun g hg => hs _ (head_mem_rowsOf gs g hg)
  refine ⟨?_, ?_⟩
  · -- Induction along the list; the new row is below everything that follows its place.
    have hasc := h.ascending
    clear h hs
    induction gs with
    | nil => exact List.pairwise_singleton _ _
    | cons g gs ih =>
      obtain ⟨hg, hgs⟩ := List.pairwise_cons.mp hasc
      have sg := hhead g List.mem_cons_self
      have hrest : ∀ k ∈ gs, s k.head := fun k hk => hhead k (List.mem_cons_of_mem g hk)
      rw [Groups.addRow]
      split_ifs with h1 h2
      · refine List.pairwise_cons.mpr ⟨?_, hasc⟩
        intro k hk
        rcases List.mem_cons.mp hk with rfl | hk
        · exact h1
        · exact hc.lt_of_lt_of_le _ _ _ hx sg (hrest k hk) h1 (Int.le_of_lt (hg k hk))
      · refine List.pairwise_cons.mpr ⟨?_, ih hrest hgs⟩
        intro k hk
        rcases mem_addRow _ _ _ _ hk with hk | rfl | ⟨j, hj, -, rfl⟩
        · exact hg k hk
        · exact (hc.lt_iff_gt _ _ sg hx).mpr h2
        · exact hg j hj
      · exact List.pairwise_cons.mpr ⟨hg, hgs⟩
  · intro k hk y hy
    rcases mem_addRow _ _ _ _ hk with hk | rfl | ⟨g, hg, h0, rfl⟩
    · exact h.tied k hk y hy
    · exact absurd hy List.not_mem_nil
    · rcases List.mem_cons.mp hy with rfl | hy
      · exact hc.eq_symm _ _ hx (hhead g hg) h0
      · exact h.tied g hg y hy

/-! ## Where a key is -/

theorem lookup_lt (cmp : E → ℤ) (l r : List (Group E)) (hr : ∀ k ∈ r, cmp k.head < 0) :
    lookup cmp (l ++ r) = lookup cmp l := by
  have hnone : r.find? (fun g => cmp g.head = 0) = none := by
    rw [List.find?_eq_none]
    intro k hk
    have h1 := hr k hk
    simp only [decide_eq_true_eq]
    omega
  rw [lookup, List.find?_append, hnone, Option.or_none, lookup]

theorem lookup_gt (cmp : E → ℤ) (l r : List (Group E)) (hl : ∀ k ∈ l, 0 < cmp k.head) :
    lookup cmp (l ++ r) = lookup cmp r := by
  have hnone : l.find? (fun g => cmp g.head = 0) = none := by
    rw [List.find?_eq_none]
    intro k hk
    have h1 := hl k hk
    simp only [decide_eq_true_eq]
    omega
  rw [lookup, List.find?_append, hnone, Option.none_or, lookup]

theorem lookup_some (cmp : E → ℤ) (gs : List (Group E)) (e : E) (h : lookup cmp gs = some e) :
    e ∈ rowsOf gs ∧ cmp e = 0 := by
  rw [lookup, Option.map_eq_some_iff] at h
  obtain ⟨g, hg, rfl⟩ := h
  have h1 := List.find?_some hg
  exact ⟨head_mem_rowsOf gs g (List.mem_of_find?_eq_some hg), by simpa using h1⟩

theorem lookup_none (cmp : E → ℤ) (gs : List (Group E)) :
    lookup cmp gs = none ↔ ∀ g ∈ gs, cmp g.head ≠ 0 := by
  rw [lookup, Option.map_eq_none_iff, List.find?_eq_none]
  simp only [decide_eq_true_eq]

/-- Whether some row has the key shows at the heads of the groups. -/
theorem Ordered.lookup_none_iff {K : Type} {s : K → Prop} {cmp : K → K → ℤ}
    (hc : PreorderOn s cmp) (key : E → K) (gs : List (Group E))
    (h : Ordered (fun a b => cmp (key a) (key b)) gs) (hs : ∀ x ∈ rowsOf gs, s (key x)) (k : K)
    (hk : s k) :
    lookup (fun x => cmp k (key x)) gs = none ↔ ∀ x ∈ rowsOf gs, cmp k (key x) ≠ 0 := by
  rw [lookup_none]
  constructor
  · intro hne x hx h0
    obtain ⟨g, hg, rfl | hxg⟩ := (mem_rowsOf gs x).mp hx
    · exact hne g hg h0
    · have sg := hs _ (head_mem_rowsOf gs g hg)
      have htie := hc.eq_symm _ _ sg (hs x hx) (h.tied g hg x hxg)
      exact hne g hg (hc.eq_trans _ _ _ hk (hs x hx) sg h0 htie)
  · intro hne g hg
    exact hne g.head (head_mem_rowsOf gs g hg)

/-- What a cut says on the two sides of a group. -/
theorem Cut.sides (cmp : E → ℤ) (l r : List (Group E)) (g : Group E) (h : Cut cmp (l ++ g :: r)) :
    Cut cmp l ∧ Cut cmp r ∧ (0 ≤ cmp g.head → ∀ k ∈ l, 0 < cmp k.head) ∧
      (cmp g.head ≤ 0 → ∀ k ∈ r, cmp k.head < 0) := by
  obtain ⟨h1, h2, h3⟩ := List.pairwise_append.mp h
  obtain ⟨h4, h5⟩ := List.pairwise_cons.mp h2
  refine ⟨h1, h5, fun hg k hk => h3 k hk g List.mem_cons_self hg, fun hg k hk => ?_⟩
  have h6 := h4 k hk
  omega

/-! ## Taking a row out -/

section Remove
variable [DecidableEq E]

theorem without_self (x : E) (g : Group E) (h1 : x ≠ g.head) (h2 : x ∉ g.chain) :
    g.without x = some g := by
  rw [Group.without, if_neg h1, List.erase_of_not_mem h2]

theorem dropRow_self (x : E) (gs : List (Group E)) (h : x ∉ rowsOf gs) : dropRow x gs = gs := by
  have h1 : ∀ g ∈ gs, g.without x = some g := by
    intro g hg
    refine without_self x g ?_ ?_
    · rintro rfl
      exact h (head_mem_rowsOf gs g hg)
    · exact fun hx => h ((mem_rowsOf gs x).mpr ⟨g, hg, .inr hx⟩)
  rw [dropRow]
  induction gs with
  | nil => rfl
  | cons g gs ih =>
    rw [List.filterMap_cons_some (h1 g List.mem_cons_self), ih]
    · simp only [rowsOf, List.flatMap_cons, List.mem_append, not_or] at h
      exact h.2
    · exact fun k hk => h1 k (List.mem_cons_of_mem g hk)

/-- Where the row is: the groups around its own stay as they are. -/
theorem dropRow_middle (x : E) (l r : List (Group E)) (g : Group E) (hl : x ∉ rowsOf l)
    (hr : x ∉ rowsOf r) : dropRow x (l ++ g :: r) = l ++ (g.without x).toList ++ r := by
  have h1 := dropRow_self x l hl
  have h2 := dropRow_self x r hr
  simp only [dropRow] at h1 h2 ⊢
  rw [List.filterMap_append, h1, List.filterMap_cons, h2]
  cases g.without x <;> simp

/-- Taking out a row that was just added. -/
theorem Added.dropRow {x : E} {gs gs' : List (Group E)} {dup : Option E} (h : Added x gs gs' dup)
    (hx : x ∉ rowsOf gs) : dropRow x gs' = gs := by
  cases h with
  | fresh l r =>
    simp only [rowsOf, List.flatMap_append, List.mem_append, not_or] at hx
    rw [dropRow_middle x l r _ hx.1 hx.2]
    simp [Group.without]
  | chained l g r =>
    simp only [rowsOf, List.flatMap_append, List.flatMap_cons, List.mem_append, Group.members,
      List.mem_cons, not_or] at hx
    obtain ⟨hl, ⟨hg, -⟩, hr⟩ := hx
    rw [dropRow_middle x l r _ hl hr]
    simp [Group.without, hg]

theorem members_without (x : E) (g : Group E) :
    ((g.without x).toList.flatMap Group.members) = g.members.erase x := by
  rw [Group.without]
  split_ifs with h1
  · subst h1
    cases hc : g.chain <;> simp [Group.members, hc]
  · simp [Group.members, Ne.symm h1]

theorem rowsOf_dropRow (x : E) (gs : List (Group E)) (hn : (rowsOf gs).Nodup) :
    rowsOf (dropRow x gs) = (rowsOf gs).erase x := by
  induction gs with
  | nil => rfl
  | cons g gs ih =>
    have hcons : rowsOf (g :: gs) = g.members ++ rowsOf gs := rfl
    rw [hcons, List.nodup_append] at hn
    obtain ⟨-, h2, h3⟩ := hn
    have hdrop : rowsOf (dropRow x (g :: gs)) = g.members.erase x ++ rowsOf (dropRow x gs) := by
      rw [← members_without]
      simp only [dropRow, List.filterMap_cons]
      cases g.without x <;> simp [rowsOf]
    rw [hdrop, ih h2, hcons]
    by_cases hx : x ∈ g.members
    · have hnot : x ∉ rowsOf gs := fun hy => h3 x hx x hy rfl
      rw [List.erase_append_left _ hx, List.erase_of_not_mem hnot]
    · rw [List.erase_append_right _ hx, List.erase_of_not_mem hx]

/-- Taking a row out keeps the order. -/
theorem Ordered.dropRow {s : E → Prop} {cmp : E → E → ℤ} (hc : PreorderOn s cmp)
    (gs : List (Group E)) (h : Ordered cmp gs) (hs : ∀ x ∈ rowsOf gs, s x) (x : E) :
    Ordered cmp (dropRow x gs) := by
  -- A group that stays has the key it had, and only rows it had.
  have hkeep : ∀ g ∈ gs, ∀ k, g.without x = some k → cmp g.head k.head = 0 ∧
      k.head ∈ rowsOf gs ∧ ∀ y ∈ k.chain, cmp g.head y = 0 ∧ y ∈ rowsOf gs := by
    intro g hg k hk
    have hin : ∀ y ∈ g.chain, y ∈ rowsOf gs := fun y hy => (mem_rowsOf gs y).mpr ⟨g, hg, .inr hy⟩
    rw [Group.without] at hk
    split_ifs at hk with h1
    · cases hch : g.chain with
      | nil => simp [hch] at hk
      | cons y ys =>
        rw [hch] at hk hin
        cases hk
        have ht := h.tied g hg
        rw [hch] at ht
        refine ⟨ht y List.mem_cons_self, hin y List.mem_cons_self, fun z hz => ⟨?_, ?_⟩⟩
        · exact ht z (List.mem_cons_of_mem y hz)
        · exact hin z (List.mem_cons_of_mem y hz)
    · cases hk
      refine ⟨hc.refl _ (hs _ (head_mem_rowsOf gs g hg)), head_mem_rowsOf gs g hg,
        fun z hz => ⟨?_, ?_⟩⟩
      · exact h.tied g hg z (List.mem_of_mem_erase hz)
      · exact hin z (List.mem_of_mem_erase hz)
  refine ⟨?_, ?_⟩
  · rw [Groups.dropRow, List.pairwise_filterMap]
    refine h.ascending.imp_of_mem ?_
    intro g k hg hk hgk g' hg' k' hk'
    obtain ⟨e1, m1, -⟩ := hkeep g hg g' hg'
    obtain ⟨e2, m2, -⟩ := hkeep k hk k' hk'
    have sg := hs _ (head_mem_rowsOf gs g hg)
    have sk := hs _ (head_mem_rowsOf gs k hk)
    have e3 := hc.eq_symm _ _ sg (hs _ m1) e1
    have h1 := hc.lt_of_le_of_lt _ _ _ (hs _ m1) sg sk (Int.le_of_eq e3) hgk
    exact hc.lt_of_lt_of_le _ _ _ (hs _ m1) sk (hs _ m2) h1 (Int.le_of_eq e2)
  · intro k hk y hy
    obtain ⟨g, hg, hgk⟩ := List.mem_filterMap.mp hk
    obtain ⟨e1, m1, h2⟩ := hkeep g hg k hgk
    have sg := hs _ (head_mem_rowsOf gs g hg)
    have e3 := hc.eq_symm _ _ sg (hs _ m1) e1
    exact hc.eq_trans _ _ _ (hs _ m1) sg (hs _ (h2 y hy).2) e3 (h2 y hy).1

end Remove

end Mand.Groups
