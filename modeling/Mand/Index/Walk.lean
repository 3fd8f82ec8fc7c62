import Mand.Index.Remove
import Mathlib.Data.List.Induction

/-! # Lookup and traversal

`FIND` follows the order of the keys; `MINMAX` and `IDX_NEXT` visit the groups in order and every
group from its head to the end of its chain. -/
namespace Mand.Index
open Mand.Rb Mand.Groups
set_option autoImplicit false

variable {E : Type} [DecidableEq E]

omit [DecidableEq E] in
/-- `FIND` answers the head of the group whose key compares equal. -/
theorem find_rep (cmp : E → ℤ) (ix : Idx E) (t : Tree (Group E)) (par : Option E) (fuel : ℕ)
    (h : Rep ix.node par t) (hcut : Cut cmp t.toList) (hfuel : t.toList.length < fuel) :
    Idx.find cmp ix fuel (ptr t) = some (lookup cmp t.toList) := by
  induction t generalizing par fuel with
  | nil =>
    cases fuel <;> rfl
  | node c l g r ihl ihr =>
    obtain ⟨hg, -, hl, hr⟩ := h
    obtain ⟨fuel, rfl⟩ : ∃ k, fuel = k + 1 := ⟨fuel - 1, by omega⟩
    obtain ⟨hcl, hcr, hlow, hhigh⟩ := Cut.sides cmp l.toList r.toList g hcut
    simp only [Tree.toList, List.length_append, List.length_cons] at hfuel
    have hleft : (ix.node g.head).left = ptr l := by rw [hg]; rfl
    have hright : (ix.node g.head).right = ptr r := by rw [hg]; rfl
    rw [ptr, Idx.find, hleft, hright]
    rcases Int.lt_trichotomy (cmp g.head) 0 with hlt | heq | hgt
    · have hsplit : (Rb.Tree.node c l g r).toList = l.toList ++ g :: r.toList := rfl
      have hout : ∀ k ∈ g :: r.toList, cmp k.head < 0 := by
        intro k hk
        rcases List.mem_cons.mp hk with rfl | hk
        · exact hlt
        · exact hhigh (by omega) k hk
      rw [if_pos hlt, ihl (some g.head) fuel hl hcl (by omega), hsplit, lookup_lt cmp _ _ hout]
    · have hsplit : lookup cmp (Rb.Tree.node c l g r).toList = some g.head := by
        rw [Tree.toList, lookup_gt cmp _ _ (hlow (by omega))]
        simp [lookup, heq]
      rw [if_neg (by omega), if_neg (by omega), hsplit]
    · have hsplit : (Rb.Tree.node c l g r).toList = (l.toList ++ [g]) ++ r.toList := by
        simp [Tree.toList]
      have hout : ∀ k ∈ l.toList ++ [g], 0 < cmp k.head := by
        intro k hk
        rcases List.mem_append.mp hk with hk | hk
        · exact hlow (by omega) k hk
        · rw [List.mem_singleton.mp hk]
          exact hgt
      rw [if_neg (by omega), if_pos hgt, ihr (some g.head) fuel hr hcr (by omega), hsplit,
        lookup_gt cmp _ _ hout]

/-! ## The next row -/

omit [DecidableEq E] in
theorem head_rowsOf (gs : List (Group E)) : (rowsOf gs).head? = gs.head?.map Group.head := by
  cases gs <;> rfl

omit [DecidableEq E] in
theorem head_first (fuel : ℕ) (ix : Idx E) (t : Tree (Group E)) (par : Option E) (e : E)
    (h : Rep ix.node par t) (he : ptr t = some e) (hfuel : t.toList.length < fuel) :
    Idx.descendTo .left ix fuel e = t.toList.head?.map Group.head := by
  cases t with
  | nil => cases he
  | node c l g r =>
    cases he
    simp only [Tree.toList, List.length_append, List.length_cons] at hfuel
    obtain ⟨q, c', k, b, hdesc, hfill, hq⟩ := descendTo_rep .left fuel ix par c l r g h (by omega)
    have hfill' : Rb.Tree.node c l g r = fill q (Tree.branch .left c' .nil k b) := hfill
    rw [hdesc, hfill', toList_fill, before_of_left q hq]
    rfl

omit [DecidableEq E] in
/-- `MINMAX` finds the first row. -/
theorem first_focus (base : E → Node E) (fuel : ℕ) (ix : Idx E) (t : Tree (Group E))
    (h : Focus base ix [] t) (hfuel : t.toList.length < fuel) :
    Idx.first fuel ix = some (rowsOf t.toList).head? := by
  have hroot : ix.root = ptr t := h.ctx
  rw [Idx.first, hroot, head_rowsOf]
  cases ht : ptr t with
  | none =>
    cases t with
    | nil => rfl
    | node c l g r => cases ht
  | some e =>
    simp only [head_first fuel ix t _ e h.rep ht hfuel]
    cases t with
    | nil => cases ht
    | node c l g r => cases hl : l.toList <;> simp [Tree.toList, hl]

/-- Climbing out of a subtree on the right leads to the group behind it. -/
theorem climb_focus (base : E → Node E) (ix : Idx E) (path : List (Frame (Group E)))
    (t : Tree (Group E)) (e : E) (fuel : ℕ) (h : Focus base ix path t) (he : ptr t = some e)
    (hfuel : path.length < fuel) :
    Idx.climb .right ix fuel e = some ((after path).head?.map Group.head) := by
  induction path generalizing t e fuel with
  | nil =>
    obtain ⟨fuel, rfl⟩ : ∃ k, fuel = k + 1 := ⟨fuel - 1, by omega⟩
    cases t with
    | nil => cases he
    | node c l g r =>
      cases he
      have hpar : (ix.node g.head).parent = none := by rw [h.rep.1]; rfl
      simp only [Idx.climb, hpar]
      rfl
  | cons f path ih =>
    rw [List.length_cons] at hfuel
    obtain ⟨fuel, rfl⟩ : ∃ k, fuel = k + 1 := ⟨fuel - 1, by omega⟩
    have hframe := focus_frame base ix path f t h
    have hpar : (ix.node e).parent = some f.val.head := by
      cases t with
      | nil => cases he
      | node c l g r =>
        cases he
        rw [h.rep.1]
        rfl
    have hne := focus_ptr_ne base ix path f t e h he
    simp only [Idx.climb, hpar, hframe, after]
    cases hd : f.dir with
    | left => exact if_neg hne
    | right =>
      have hchild : (cell Dir.right (ptr t) (ptr f.sib) (parentOf path) f.color f.val.chain).child
          .right = some e := he
      rw [if_pos hchild]
      exact ih (f.attach t) f.val.head fuel ((focus_cons _ _ _ _ _).mp h) (ptr_branch _ _ _ _ _)
        (by omega)

/-- `TREE_NEXT` of the head of a group is the head of the next one. -/
theorem treeNext_focus (base : E → Node E) (fuel : ℕ) (ix : Idx E) (path : List (Frame (Group E)))
    (c : Color) (a b : Tree (Group E)) (g : Group E) (h : Focus base ix path (.node c a g b))
    (hfuel : (fill path (.node c a g b)).toList.length < fuel) :
    Idx.treeNext fuel ix g.head = some ((b.toList ++ after path).head?.map Group.head) := by
  have hlen := length_path_le path (.node c a g b)
  simp only [Tree.toList, List.length_append, List.length_cons] at hlen
  have hright : (ix.node g.head).child .right = ptr b := by rw [h.rep.1]; rfl
  rw [Idx.treeNext, Idx.treeStep, hright]
  cases hb : ptr b with
  | none =>
    cases b with
    | nil => exact climb_focus base ix path _ g.head fuel h rfl (by omega)
    | node cb lb gb rb => cases hb
  | some e =>
    have hfirst := head_first fuel ix b _ e h.rep.2.2.2 hb (by omega)
    simp only [Dir.flip, hfirst]
    cases b with
    | nil => cases hb
    | node cb lb gb rb => cases hl : lb.toList <;> simp [Tree.toList, hl]

omit [DecidableEq E] in
theorem chainHead_rep (ix : Idx E) (k x : E) (pre post : List E) (fuel : ℕ)
    (hk : (ix.node k).prev = none) (h : ChainRep ix.node k (pre ++ x :: post))
    (hfuel : pre.length + 1 < fuel) : Idx.chainHead ix fuel x = some k := by
  -- From the end of the chain backwards, so the induction takes the last row before `x` off.
  induction pre using List.reverseRecOn generalizing x post fuel with
  | nil =>
    obtain ⟨fuel, rfl⟩ : ∃ n, fuel = n + 2 := ⟨fuel - 2, by simp at hfuel; omega⟩
    have hx := chainRep_node ix.node k x [] post h
    simp [Idx.chainHead, hx, hk]
  | append_singleton pre y ih =>
    rw [List.length_append, List.length_singleton] at hfuel
    obtain ⟨fuel, rfl⟩ : ∃ n, fuel = n + 1 := ⟨fuel - 1, by omega⟩
    have hx := chainRep_node ix.node k x (pre ++ [y]) post h
    rw [List.append_assoc, List.singleton_append] at h
    have hrec := ih y (x :: post) fuel h (by omega)
    simp [Idx.chainHead, hx, hrec]

omit [DecidableEq E] in
theorem length_le_rowsOf (gs : List (Group E)) : gs.length ≤ (rowsOf gs).length := by
  induction gs with
  | nil => exact Nat.le_refl _
  | cons g gs ih =>
    have h1 : rowsOf (g :: gs) = g.members ++ rowsOf gs := rfl
    rw [h1, List.length_append, List.length_cons, Group.members, List.length_cons]
    omega

/-- `IDX_NEXT` inside a group, and from its last row to the next group. -/
theorem idxNext_place (base : E → Node E) (fuel : ℕ) (ix : Idx E) (path : List (Frame (Group E)))
    (c : Color) (a b : Tree (Group E)) (g : Group E) (x : E) (pre post : List E)
    (h : Focus base ix path (.node c a g b)) (hg : g.members = pre ++ x :: post)
    (hfuel : (rowsOf (fill path (.node c a g b)).toList).length < fuel) :
    Idx.idxNext fuel ix x = some (post ++ rowsOf (b.toList ++ after path)).head? := by
  obtain ⟨hk, hch, -, -⟩ := h.rep
  have hprev : (ix.node g.head).prev = none := by rw [hk, cell_prev]
  have hlen := length_le_rowsOf (fill path (.node c a g b)).toList
  have hmem : g.members.length ≤ (rowsOf (fill path (.node c a g b)).toList).length := by
    have hp := ((rows_fill path (.node c a g b)).trans (rows_perm _)).length_eq
    simp only [rows, List.length_append] at hp
    omega
  have hmem' := congrArg List.length hg
  rw [List.length_append, List.length_cons] at hmem'
  have htree := treeNext_focus base fuel ix path c a b g h (by omega)
  have hnext : (ix.node x).next = post.head? ∧ Idx.chainHead ix fuel x = some g.head := by
    cases pre with
    | nil =>
      rw [List.nil_append, Group.members, List.cons.injEq] at hg
      obtain ⟨rfl, rfl⟩ := hg
      refine ⟨by rw [hk, cell_next], ?_⟩
      obtain ⟨fuel, rfl⟩ : ∃ n, fuel = n + 1 := ⟨fuel - 1, by omega⟩
      simp [Idx.chainHead, hprev]
    | cons z pre =>
      rw [List.cons_append, Group.members, List.cons.injEq] at hg
      rw [hg.2] at hch
      rw [List.length_cons] at hmem'
      refine ⟨by rw [chainRep_node ix.node g.head x pre post hch], ?_⟩
      exact chainHead_rep ix g.head x pre post fuel hprev hch (by omega)
  rw [Idx.idxNext, hnext.1]
  cases post with
  | nil => simp [hnext.2, htree, head_rowsOf]
  | cons y post => rfl

/-- The place of a row in the tree, and the rows before and behind it. -/
theorem place_rows (base : E → Node E) (ix : Idx E) (t : Tree (Group E)) (x : E) (xs ys : List E)
    (h : Focus base ix [] t) (hrows : rowsOf t.toList = xs ++ x :: ys) :
    ∃ path c a g b pre post, t = fill path (.node c a g b) ∧ g.members = pre ++ x :: post ∧
      rowsOf (before path ++ a.toList) ++ pre = xs ∧ post ++ rowsOf (b.toList ++ after path) = ys := by
  have hn : (rowsOf t.toList).Nodup := by
    rw [← (rows_perm t).nodup_iff]
    exact (List.nodup_append.mp h.nodup).1
  have hx : x ∈ rows t := by
    rw [(rows_perm t).mem_iff, hrows]
    exact List.mem_append_right _ List.mem_cons_self
  obtain ⟨path, c, a, g, b, rfl, hg⟩ := exists_place t x hx
  obtain ⟨pre, post, hmem⟩ := List.append_of_mem hg
  -- The row occurs once, so what follows it in the list is what follows it here.
  have hsplit : rowsOf (fill path (.node c a g b)).toList =
      (rowsOf (before path ++ a.toList) ++ pre) ++ x :: (post ++ rowsOf (b.toList ++ after path)) := by
    have h1 : (fill path (.node c a g b)).toList =
        (before path ++ a.toList) ++ g :: (b.toList ++ after path) := by
      rw [toList_fill]
      simp [Tree.toList]
    rw [h1]
    simp only [rowsOf, List.flatMap_append, List.flatMap_cons, hmem, List.append_assoc,
      List.cons_append]
  rw [hrows] at hsplit hn
  have hxs : x ∉ xs := by
    intro hm
    exact (List.nodup_append.mp hn).2.2 x hm x List.mem_cons_self rfl
  have hys : x ∉ ys := (List.nodup_cons.mp (List.nodup_append.mp hn).2.1).1
  have hboth := (List.append_cons_inj_of_notMem hxs hys).mp hsplit
  exact ⟨path, c, a, g, b, pre, post, rfl, hmem, hboth.1.symm, hboth.2.2.symm⟩

/-- `IDX_NEXT` follows the order of the rows. -/
theorem idxNext_focus (base : E → Node E) (fuel : ℕ) (ix : Idx E) (t : Tree (Group E))
    (x : E) (xs ys : List E) (h : Focus base ix [] t) (hrows : rowsOf t.toList = xs ++ x :: ys)
    (hfuel : (rowsOf t.toList).length < fuel) : Idx.idxNext fuel ix x = some ys.head? := by
  obtain ⟨path, c, a, g, b, pre, post, rfl, hmem, -, hys⟩ := place_rows base ix t x xs ys h hrows
  have hnext := idxNext_place base fuel ix path c a b g x pre post
    ((focus_root _ _ _ _).mpr h) hmem hfuel
  rw [hnext, hys]

theorem walk_focus (base : E → Node E) (fuel n : ℕ) (ix : Idx E) (t : Tree (Group E))
    (xs ys : List E) (h : Focus base ix [] t) (hrows : rowsOf t.toList = xs ++ ys)
    (hfuel : (rowsOf t.toList).length < fuel) (hn : ys.length ≤ n) :
    Idx.walk fuel ix n ys.head? = some ys := by
  induction ys generalizing xs n with
  | nil => cases n <;> rfl
  | cons y ys ih =>
    rw [List.length_cons] at hn
    obtain ⟨n, rfl⟩ : ∃ k, n = k + 1 := ⟨n - 1, by omega⟩
    have hnext := idxNext_focus base fuel ix t y xs ys h hrows hfuel
    have hrest := ih n (xs ++ [y]) (by simp [hrows]) (by omega)
    simp [Idx.walk, hnext, hrest]

/-- **Enumeration.** The loop over an index visits the rows of the index in order, each once. -/
theorem walk_first (base : E → Node E) (fuel : ℕ) (ix : Idx E) (t : Tree (Group E))
    (h : Focus base ix [] t) (hfuel : (rowsOf t.toList).length < fuel) :
    ((Idx.first fuel ix).bind fun e => Idx.walk fuel ix fuel e) = some (rowsOf t.toList) := by
  have hlen := length_le_rowsOf t.toList
  rw [first_focus base fuel ix t h (by omega), Option.bind_some]
  exact walk_focus base fuel fuel ix t [] _ h rfl hfuel (by omega)

end Mand.Index
