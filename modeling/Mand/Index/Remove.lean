import Mand.Index.RemoveColor

/-! # Removal from an index

The tree and the list part of `REMOVE`. A row with two children gives its place to its successor, a
row that is the head of a group to the next row of the group; a row further down in a group only
leaves the list. -/
namespace Mand.Index
open Mand.Rb Mand.Groups
set_option autoImplicit false

variable {E : Type} [DecidableEq E]

/-! ## Taking a node with at most one child out -/

omit [DecidableEq E] in
theorem bal_zero_black {t : Tree (Group E)} (h : Bal t .black 0) : t = .nil := by
  cases h
  rfl

/-- After a node with one child `t` was spliced out of a balanced tree, the repair loop, which runs
if the node was black, balances the tree again. -/
theorem splice_repair (base : E → Node E) (fuel : ℕ) (ix : Idx E) (path : List (Frame (Group E)))
    (d : Dir) (c c' : Color) (g : Group E) (t : Tree (Group E)) (n : ℕ)
    (hfuel : path.length < fuel) (h : Focus base ix path t)
    (hb : Bal (Tree.branch d c .nil g t) c' n) (hacc : Accepts path c' n) :
    ∃ ix' t' m, (if nodeColor c = .black then Idx.removeColor fuel ix (parentOf path) (ptr t)
        else some ix) = some ix' ∧
      Focus base ix' [] t' ∧ Bal t' .black m ∧ t'.toList = (fill path t).toList := by
  have hc : c = c' := by rw [← hb.color_eq, Tree.color_branch]
  subst hc
  cases c with
  | red =>
    obtain ⟨h1, h2⟩ := bal_branch_red.mp hb
    cases h1
    obtain ⟨m, hm⟩ := (accepts_black_of_red hacc).fill h2
    exact ⟨ix, _, m, rfl, (focus_root _ _ _ _).mp h, hm, rfl⟩
  | black =>
    cases n with
    | zero => cases d <;> cases hb
    | succ n =>
      obtain ⟨c1, c2, h1, h2⟩ := bal_branch_black.mp hb
      cases h1
      rw [if_pos (show nodeColor .black = .black from rfl)]
      cases c2 with
      | black => exact removeColor_focus base fuel ix path t 0 hfuel h h2 hacc
      | red =>
        cases h2 with
        | red h3 h4 =>
          obtain ⟨k, rfl⟩ : ∃ k, fuel = k + 1 := ⟨fuel - 1, by omega⟩
          exact removeColor_red base k ix path .left _ _ _ 1 h (.black h3 h4) hacc

/-- Splicing a node out: its rows are no longer part of the tree. -/
theorem spliceOut_focus (base : E → Node E) (ix : Idx E) (path : List (Frame (Group E))) (d : Dir)
    (c : Color) (g : Group E) (t : Tree (Group E))
    (h : Focus base ix path (Tree.branch d c .nil g t)) :
    Focus ix.node (ix.spliceOut g.head (ptr t)) path t := by
  obtain ⟨hg, hch, -, ht⟩ := (rep_branch _ _ _ _ _ _ _).mp h.rep
  have hctx := h.ctx
  rw [ptr_branch] at hctx
  have hn := ((rows_branch d c .nil t g).append_right (pathRows path)).nodup_iff.mp h.nodup
  simp only [Group.members, rows, List.nil_append, List.cons_append, List.append_assoc,
    List.nodup_cons, List.mem_append, not_or] at hn
  obtain ⟨⟨-, hgt, hgp⟩, hn⟩ := hn
  have hn2 : (rows t ++ pathRows path).Nodup := (List.nodup_append.mp hn).2.1
  obtain ⟨hnt, hnp, hdis⟩ := List.nodup_append.mp hn2
  have hpar : (ix.node g.head).parent = parentOf path := by rw [hg, cell_parent]
  have hnode : ∀ x, (ix.spliceOut g.head (ptr t)).node x =
      ((ix.setParentOf (ptr t) (parentOf path)).replaceChild (parentOf path) g.head (ptr t)).node x := by
    intro x
    rw [Idx.spliceOut, hpar]
  have hout : ∀ x, x ∉ pathRows path → (ix.spliceOut g.head (ptr t)).node x =
      if ptr t = some x then { ix.node x with parent := parentOf path } else ix.node x := by
    intro x hx
    rw [hnode, replaceChild_node, if_neg (fun hp => hx (parentOf_mem path x hp)), setParentOf_node]
  refine ⟨?_, ?_, hn2, ?_⟩
  · exact rep_reparent ix.node _ _ _ t hnt (fun x hx => hout x (fun hp => hdis x hx x hp rfl)) ht
  · refine pathRep_replaceChild ix _ g.head (ptr t) path hgp hnp ?_ (fun x hx => ?_) hctx
    · rw [Idx.spliceOut, hpar, replaceChild_root, replaceChild_root, setParentOf_root]
    · have hxt : ptr t ≠ some x := fun hp => hdis x (ptr_mem t x hp) x hx rfl
      rw [hnode, replaceChild_node, replaceChild_node, setParentOf_node, if_neg hxt]
  · intro x hx hxp
    rw [hout x hxp, if_neg (fun hp => hx (ptr_mem t x hp))]

/-- `REMOVE` on a node with at most one child. -/
theorem removeOuter_focus (base : E → Node E) (fuel : ℕ) (ix : Idx E)
    (path : List (Frame (Group E))) (d : Dir) (c : Color) (g : Group E) (t : Tree (Group E)) (m : ℕ)
    (hfuel : path.length < fuel) (h : Focus base ix path (Tree.branch d c .nil g t))
    (hb : Bal (fill path (Tree.branch d c .nil g t)) .black m) :
    ∃ ix' t' m', Idx.removeOuter fuel ix g.head (ptr t) = some ix' ∧
      Focus ix.node ix' [] t' ∧ Bal t' .black m' ∧ t'.toList = (fill path t).toList := by
  have hg := focus_node base ix path d c _ _ g h
  obtain ⟨c', n, hbal, hacc⟩ := hb.accepts
  obtain ⟨ix', t', m', hrep, h', hm', hl⟩ := splice_repair ix.node fuel _ path d c c' g t n hfuel
    (spliceOut_focus base ix path d c g t h) hbal hacc
  refine ⟨ix', t', m', ?_, h', hm', hl⟩
  rw [← hrep]
  simp only [Idx.removeOuter, hg, cell_parent, cell_color]

/-! ## Descending on one side -/

omit [DecidableEq E] in
/-- The outermost row on side `d` of a subtree. -/
theorem descendTo_rep (d : Dir) (fuel : ℕ) (ix : Idx E) (par : Option E) (c : Color)
    (a b : Tree (Group E)) (g : Group E) (h : Rep ix.node par (Tree.branch d c a g b))
    (hfuel : a.toList.length < fuel) :
    ∃ q c' k b', Idx.descendTo d ix fuel g.head = some k.head ∧
      Tree.branch d c a g b = fill q (Tree.branch d c' .nil k b') ∧ ∀ f ∈ q, f.dir = d := by
  induction fuel generalizing par c a b g with
  | zero => omega
  | succ fuel ih =>
    obtain ⟨h1, -, h3, -⟩ := (rep_branch _ _ _ _ _ _ _).mp h
    cases a with
    | nil =>
      refine ⟨[], c, g, b, ?_, rfl, fun f hf => absurd hf List.not_mem_nil⟩
      simp [Idx.descendTo, h1, ptr]
    | node c2 l2 g2 r2 =>
      obtain ⟨a2, b2, hab⟩ := Tree.node_eq_branch d c2 l2 r2 g2
      have hlen : a2.toList.length < (Rb.Tree.node c2 l2 g2 r2).toList.length := by
        rw [hab]
        cases d <;> simp [Tree.branch, Tree.toList]; omega
      obtain ⟨q, c', k, b', hdesc, hfill, hq⟩ := ih (some g.head) c2 a2 b2 g2 (hab ▸ h3) (by omega)
      refine ⟨q ++ [⟨d, c, g, b⟩], c', k, b', ?_, ?_, ?_⟩
      · simp only [Idx.descendTo, h1, cell_child, ptr, hdesc]
      · rw [fill_append, ← hfill, ← hab]
        rfl
      · intro f hf
        rcases List.mem_append.mp hf with hf | hf
        · exact hq f hf
        · rw [List.mem_singleton.mp hf]

/-! ## Giving a place to another row -/

/-- The nodes after `REPLACE`, up to the link from above. -/
theorem replace_eq (ix : Idx E) (c : Color) (a b par : Option E) (old new : E)
    (ch0 : List E) (hold : ix.node old = cell .left a b par c ch0) (hne : new ≠ old) (ha : a ≠ some new)
    (hao : a ≠ some old) (hb : b ≠ some new) (hbo : b ≠ some old)
    (hprev : (ix.node new).prev = none) :
    ∃ ix' : Idx E, ix.replace old new = ix'.replaceChild par old (some new) ∧ ix'.root = ix.root ∧
      ix'.node new = ⟨a, b, par, nodeColor c, none, (ix.node new).next⟩ ∧
      ∀ x, x ≠ new → ix'.node x =
        if a = some x ∨ b = some x then { ix.node x with parent := some new } else ix.node x := by
  obtain ⟨ix1, h1⟩ : ∃ ix1, ix1 = ix.setChild new .left a := ⟨_, rfl⟩
  obtain ⟨ix2, h2⟩ : ∃ ix2, ix2 = ix1.setParentOf a (some new) := ⟨_, rfl⟩
  obtain ⟨ix3, h3⟩ : ∃ ix3, ix3 = ix2.setChild new .right b := ⟨_, rfl⟩
  obtain ⟨ix4, h4⟩ : ∃ ix4, ix4 = ix3.setParentOf b (some new) := ⟨_, rfl⟩
  obtain ⟨ix5, h5⟩ : ∃ ix5, ix5 = ix4.setColor new (nodeColor c) := ⟨_, rfl⟩
  have e2 : ∀ x, x ≠ new → ix2.node x =
      if a = some x then { ix.node x with parent := some new } else ix.node x := by
    intro x hx
    rw [h2, setParentOf_node, h1, Idx.setChild, modify_node_ne _ _ _ _ hx]
  have e4 : ∀ x, x ≠ new → ix4.node x =
      if b = some x then { ix2.node x with parent := some new } else ix2.node x := by
    intro x hx
    rw [h4, setParentOf_node, h3, Idx.setChild, modify_node_ne _ _ _ _ hx]
  have e4old : ix4.node old = ix.node old := by
    rw [e4 old (Ne.symm hne), if_neg hbo, e2 old (Ne.symm hne), if_neg hao]
  refine ⟨ix5.setParent new par, ?_, ?_, ?_, ?_⟩
  · have r1 : (ix1.node old).left = a := by
      rw [h1, Idx.setChild, modify_node_ne _ _ _ _ (Ne.symm hne), hold]
      rfl
    have r2 : (ix2.node old).right = b := by
      rw [e2 old (Ne.symm hne), if_neg hao, hold]
      rfl
    have r3 : (ix3.node old).right = b := by
      rw [h3, Idx.setChild, modify_node_ne _ _ _ _ (Ne.symm hne), r2]
    have r4 : (ix4.node old).color = nodeColor c := by rw [e4old, hold, cell_color]
    have r0 : (ix.node old).left = a := by rw [hold]; rfl
    have rp : (ix.node old).parent = par := by rw [hold, cell_parent]
    simp only [Idx.replace, rp, r0, ← h1, r1, ← h2, r2, ← h3, r3, ← h4, r4, ← h5]
  · rw [Idx.setParent, modify_root, h5, Idx.setColor, modify_root, h4, setParentOf_root, h3,
      Idx.setChild, modify_root, h2, setParentOf_root, h1, Idx.setChild, modify_root]
  · rw [Idx.setParent, modify_node_self, h5, Idx.setColor, modify_node_self, h4, setParentOf_node,
      if_neg hb, h3, Idx.setChild, modify_node_self, h2, setParentOf_node, if_neg ha, h1,
      Idx.setChild, modify_node_self]
    simp only [Node.setChild, hprev]
  · intro x hx
    rw [Idx.setParent, modify_node_ne _ _ _ _ hx, h5, Idx.setColor, modify_node_ne _ _ _ _ hx,
      e4 x hx, e2 x hx]
    split_ifs <;> simp_all

/-- `REPLACE`: a row outside the tree takes the place of a row in it, with its own chain. -/
theorem replace_focus (ix : Idx E) (path : List (Frame (Group E)))
    (c : Color) (a b : Tree (Group E)) (old new : E) (ch0 ch : List E)
    (hg : ix.node old = cell .left (ptr a) (ptr b) (parentOf path) c ch0)
    (ha : Rep ix.node (some old) a) (hb : Rep ix.node (some old) b)
    (hctx : PathRep ix (some old) path) (hoa : old ∉ rows a) (hob : old ∉ rows b)
    (hop : old ∉ pathRows path)
    (hn : (rows (.node c a ⟨new, ch⟩ b) ++ pathRows path).Nodup) (hne : new ≠ old)
    (hprev : (ix.node new).prev = none) (hnext : (ix.node new).next = ch.head?)
    (hch : ChainRep ix.node new ch) :
    Focus ix.node (ix.replace old new) path (.node c a ⟨new, ch⟩ b) := by
  have hn0 := hn
  simp only [rows, Group.members, List.cons_append, List.append_assoc, List.nodup_cons,
    List.mem_append, not_or] at hn
  obtain ⟨⟨hnc, hna, hnb, hnp⟩, hn⟩ := hn
  obtain ⟨ix', hrep, hroot, hnew, hother⟩ := replace_eq ix c (ptr a) (ptr b) (parentOf path) old new
    ch0 hg hne
    (fun hp => hna (ptr_mem a _ hp)) (fun hp => hoa (ptr_mem a _ hp))
    (fun hp => hnb (ptr_mem b _ hp)) (fun hp => hob (ptr_mem b _ hp)) hprev
  rw [hnext] at hnew
  obtain ⟨hnch, hn2, hd1⟩ := List.nodup_append.mp hn
  obtain ⟨hnra, hn3, hd2⟩ := List.nodup_append.mp hn2
  obtain ⟨hnrb, hnpr, hd3⟩ := List.nodup_append.mp hn3
  have hout : ∀ x, x ∉ pathRows path → (ix.replace old new).node x = ix'.node x := by
    intro x hx
    rw [hrep, replaceChild_node, if_neg (fun hp => hx (parentOf_mem path x hp))]
  have hkeep : ∀ x, x ≠ new → x ∉ rows a → x ∉ rows b → ix'.node x = ix.node x := by
    intro x hx hxa hxb
    rw [hother x hx, if_neg]
    rintro (hp | hp)
    · exact hxa (ptr_mem a x hp)
    · exact hxb (ptr_mem b x hp)
  refine ⟨⟨?_, ?_, ?_, ?_⟩, ?_, hn0, ?_⟩
  · rw [hout new hnp, hnew]
    rfl
  · refine chainRep_congr ix.node _ _ _ (fun x hx => ?_) hch
    have hx2 : x ∉ rows a ∧ x ∉ rows b ∧ x ∉ pathRows path := by
      refine ⟨fun hm => hd1 x hx x ?_ rfl, fun hm => hd1 x hx x ?_ rfl, fun hm => hd1 x hx x ?_ rfl⟩
      all_goals simp [hm]
    have hxn : x ≠ new := fun he => hnc (he ▸ hx)
    rw [hout x hx2.2.2, hkeep x hxn hx2.1 hx2.2.1]
  · refine rep_reparent ix.node _ _ _ a hnra (fun x hx => ?_) ha
    have hxb : x ∉ rows b := fun hm => hd2 x hx x (List.mem_append_left _ hm) rfl
    have hxp : x ∉ pathRows path := fun hm => hd2 x hx x (List.mem_append_right _ hm) rfl
    have hxn : x ≠ new := fun he => hna (he ▸ hx)
    have hpb : ptr b ≠ some x := fun hp => hxb (ptr_mem b x hp)
    rw [hout x hxp, hother x hxn]
    simp only [hpb, or_false]
  · refine rep_reparent ix.node _ _ _ b hnrb (fun x hx => ?_) hb
    have hxa : x ∉ rows a := fun hm => hd2 x hm x (List.mem_append_left _ hx) rfl
    have hxp : x ∉ pathRows path := fun hm => hd3 x hx x hm rfl
    have hxn : x ≠ new := fun he => hnb (he ▸ hx)
    have hpa : ptr a ≠ some x := fun hp => hxa (ptr_mem a x hp)
    rw [hout x hxp, hother x hxn]
    simp only [hpa, false_or]
  · refine pathRep_replaceChild ix _ old (some new) path hop hnpr ?_ (fun x hx => ?_) hctx
    · rw [hrep, replaceChild_root, replaceChild_root, hroot]
    · have hxa : x ∉ rows a := fun hm => hd2 x hm x (List.mem_append_right _ hx) rfl
      have hxb : x ∉ rows b := fun hm => hd3 x hm x hx rfl
      have hxn : x ≠ new := fun he => hnp (he ▸ hx)
      rw [hrep, replaceChild_node, replaceChild_node, hkeep x hxn hxa hxb]
  · intro x hx hxp
    simp only [rows, Group.members, List.mem_append, List.mem_cons, not_or] at hx
    rw [hout x hxp, hkeep x hx.1.1 hx.2.1 hx.2.2]

/-! ## A row with two children -/

omit [DecidableEq E] in
/-- The nodes outside the tree may be described anew. -/
theorem Focus.rebase {base base' : E → Node E} {ix : Idx E} {path : List (Frame (Group E))}
    {t : Tree (Group E)} (h : Focus base ix path t)
    (he : ∀ x, x ∉ rows t → x ∉ pathRows path → base x = base' x) : Focus base' ix path t :=
  ⟨h.rep, h.ctx, h.nodup, fun x hx hy => (h.rest x hx hy).trans (he x hx hy)⟩

omit [DecidableEq E] in
theorem rows_of_toList (t t' : Tree (Group E)) (h : t.toList = t'.toList) :
    (rows t).Perm (rows t') := by
  have h1 := rows_perm t
  rw [h] at h1
  exact h1.trans (rows_perm t').symm

omit [DecidableEq E] in
theorem pathRows_append (p q : List (Frame (Group E))) :
    pathRows (p ++ q) = pathRows p ++ pathRows q := by
  induction p with
  | nil => rfl
  | cons f p ih => simp only [List.cons_append, pathRows, ih, List.append_assoc]

/-- The parent of the hole once the successor, with group `k`, has taken the place of `old`. -/
theorem parentOf_successor (q path : List (Frame (Group E))) (d : Dir) (c : Color)
    (l : Tree (Group E)) (old : E) (k : Group E) (hq : old ∉ pathRows q) :
    (if parentOf (q ++ ⟨d, c, ⟨old, []⟩, l⟩ :: path) = some old then some k.head
      else parentOf (q ++ ⟨d, c, ⟨old, []⟩, l⟩ :: path)) =
      parentOf (q ++ ⟨d, c, k, l⟩ :: path) := by
  cases q with
  | nil => exact if_pos rfl
  | cons f q =>
    refine if_neg ?_
    intro hp
    exact hq (parentOf_mem (f :: q) old hp)

/-- `REMOVE` on a row with two children: the successor takes its place. -/
theorem removeInner_focus (base : E → Node E) (fuel : ℕ) (ix : Idx E)
    (path : List (Frame (Group E))) (c rc : Color) (l rl rr : Tree (Group E)) (old : E)
    (rg : Group E) (m : ℕ)
    (h : Focus base ix path (.node c l ⟨old, []⟩ (.node rc rl rg rr)))
    (hb : Bal (fill path (.node c l ⟨old, []⟩ (.node rc rl rg rr))) .black m)
    (hfuel : (fill path (.node c l ⟨old, []⟩ (.node rc rl rg rr))).toList.length < fuel) :
    ∃ ix' t' m' v, Idx.removeInner fuel ix old rg.head = some ix' ∧
      Focus (Function.update base old v) ix' [] t' ∧ Bal t' .black m' ∧
      t'.toList = before path ++ (l.toList ++ (Rb.Tree.node rc rl rg rr).toList) ++ after path := by
  have hlen := length_path_le path (.node c l ⟨old, []⟩ (.node rc rl rg rr))
  simp only [Tree.toList, List.length_append, List.length_cons] at hlen
  have hr := (focus_child_flip base ix path .left c l _ ⟨old, []⟩).mp h
  obtain ⟨q, cs, k, rs, hdesc, hfill, hq⟩ :=
    descendTo_rep .left fuel ix _ rc rl rr rg hr.rep (by omega)
  have hfill' : Rb.Tree.node rc rl rg rr = fill q (Tree.branch .left cs .nil k rs) := hfill
  rw [hfill'] at hr hb h
  -- The successor `k`, seen from its own place.
  obtain ⟨P, hP⟩ : ∃ P, P = q ++ ⟨Dir.right, c, ⟨old, []⟩, l⟩ :: path := ⟨_, rfl⟩
  have hs : Focus base ix P (Tree.branch .left cs .nil k rs) := by
    rw [hP]
    exact (focus_append _ _ _ _ _).mpr hr
  have hk := focus_node base ix P .left cs _ _ k hs
  have hbP : Bal (fill P (Tree.branch .left cs .nil k rs)) .black m := by
    rw [hP, fill_append]
    exact hb
  obtain ⟨c', n, hbal, hacc⟩ := hbP.accepts
  have hsplice := spliceOut_focus base ix P .left cs k rs hs
  obtain ⟨ix1, h1⟩ : ∃ ix1, ix1 = ix.spliceOut k.head (ptr rs) := ⟨_, rfl⟩
  rw [← h1] at hsplice
  -- The rows around `old`.
  have hnod := hs.nodup
  have hnP := ((rows_branch Dir.left cs .nil rs k).append_right (pathRows P)).nodup_iff.mp hnod
  simp only [rows, List.nil_append, List.append_assoc] at hnP
  obtain ⟨hnk, hnrs, hdk⟩ := List.nodup_append.mp hnP
  have hkout : ∀ x ∈ k.members, ix1.node x = ix.node x := by
    intro x hx
    refine hsplice.rest x (fun hm => ?_) (fun hm => ?_)
    · exact hdk x hx x (List.mem_append_left _ hm) rfl
    · exact hdk x hx x (List.mem_append_right _ hm) rfl
  have hflat : (k.members ++ (rows rs ++ pathRows P)).Perm
      (old :: (rows (.node c l k (fill q rs)) ++ pathRows path)) := by
    rw [List.perm_iff_count]
    intro x
    have hx := (rows_fill q rs).count_eq x
    rw [List.count_append] at hx
    simp only [hP, pathRows_append, pathRows, rows, Group.members, List.count_append,
      List.count_cons, List.count_nil]
    omega
  have hnew := hflat.nodup_iff.mp hnP
  obtain ⟨hold, hnew⟩ := List.nodup_cons.mp hnew
  simp only [rows, List.mem_append, not_or] at hold
  obtain ⟨⟨hold1, hold2, hold3⟩, hold4⟩ := hold
  have holdq : old ∉ pathRows q := by
    intro hm
    exact hold3 ((rows_fill q rs).mem_iff.mp (List.mem_append_right _ hm))
  have hne : k.head ≠ old := by
    rintro rfl
    exact hold1 List.mem_cons_self
  -- It takes the place of `old`.
  have hmid : Focus ix.node ix1 path (.node c l ⟨old, []⟩ (fill q rs)) := by
    rw [hP] at hsplice
    exact (focus_child_flip ix.node ix1 path .left c l _ ⟨old, []⟩).mpr
      ((focus_append _ _ _ _ _).mp hsplice)
  have hk1 : ix1.node k.head = cell .left none (ptr rs) (parentOf P) cs k.chain := by
    rw [hkout k.head List.mem_cons_self, hk]
    rfl
  have hchain : ChainRep ix1.node k.head k.chain :=
    chainRep_congr ix.node ix1.node _ _ (fun x hx => hkout x (List.mem_cons_of_mem _ hx))
      ((rep_branch _ _ _ _ _ _ _).mp hs.rep).2.1
  obtain ⟨hm1, -, hm2, hm3⟩ := hmid.rep
  have hrepl := replace_focus ix1 path c l (fill q rs) old k.head [] k.chain hm1 hm2 hm3 hmid.ctx
    hold2 hold3 hold4 hnew hne (by rw [hk1, cell_prev]) (by rw [hk1, cell_next]) hchain
  have hhole : Focus ix1.node (ix1.replace old k.head) (q ++ ⟨.right, c, k, l⟩ :: path) rs :=
    (focus_append _ _ _ _ _).mpr ((focus_child_flip _ _ path .left c l _ k).mp hrepl)
  have hpathlen : (q ++ ⟨.right, c, k, l⟩ :: path).length < fuel := by
    have hl2 := length_path_le P (Tree.branch .left cs .nil k rs)
    have hl3 : fill P (Tree.branch .left cs .nil k rs) =
        fill path (.node c l ⟨old, []⟩ (.node rc rl rg rr)) := by
      rw [hP, fill_append, ← hfill']
      rfl
    rw [hl3] at hl2
    have hl4 : (q ++ ⟨.right, c, k, l⟩ :: path).length = P.length := by
      rw [hP, List.length_append, List.length_append, List.length_cons, List.length_cons]
    omega
  rw [hP] at hacc
  obtain ⟨ix', t', m', hrem, h', hb', hl⟩ := splice_repair ix1.node fuel _ _ .left cs c' k rs n
    hpathlen hhole hbal (hacc.congr_payload k)
  have hl' : t'.toList = (fill path (.node c l k (fill q rs))).toList := by
    rw [hl, fill_append]
    rfl
  refine ⟨ix', t', m', ix1.node old, ?_, h'.rebase ?_, hb', ?_⟩
  · have e1 : (ix.node k.head).right = ptr rs := by rw [hk]; rfl
    have e2 : (ix.node k.head).parent = parentOf P := by rw [hk, cell_parent]
    have e3 : (ix.node k.head).color = nodeColor cs := by rw [hk, cell_color]
    have e4 : (ix1.node k.head).parent = parentOf P := by rw [hk1, cell_parent]
    have e5 := parentOf_successor q path .right c l old k holdq
    rw [← hP] at e5
    simp only [Idx.removeInner, hdesc, Option.bind_eq_bind, Option.bind_some, e1, e2, e3, ← h1, e4,
      e5]
    exact hrem
  · intro x hx _
    by_cases hxo : x = old
    · rw [hxo, Function.update_self]
    · have hx' : x ∉ k.members ++ (rows rs ++ pathRows P) := by
        rw [hflat.mem_iff, List.mem_cons, not_or]
        refine ⟨hxo, fun hm => hx ?_⟩
        rw [(rows_of_toList _ _ hl').mem_iff, ← (rows_fill path _).mem_iff]
        exact hm
      simp only [List.mem_append, not_or] at hx'
      rw [Function.update_of_ne hxo, hsplice.rest x hx'.2.1 hx'.2.2]
      refine hs.rest x ?_ hx'.2.2
      rw [mem_rows_branch]
      simp only [rows, List.not_mem_nil, false_or, not_or]
      exact ⟨hx'.1, hx'.2.1⟩
  · have hq0 := before_of_left q hq
    rw [hl', hfill', toList_fill]
    simp only [Tree.toList, toList_fill, Tree.branch, hq0, List.nil_append, List.cons_append]

/-! ## Leaving a chain -/

omit [DecidableEq E] in
theorem getLastD_mem (x p : E) (xs : List E) : (x :: xs).getLastD p ∈ x :: xs := by
  rw [List.getLastD_cons, List.getLastD_eq_getLast?]
  cases hl : xs.getLast? with
  | none => exact List.mem_cons_self
  | some v => exact List.mem_cons_of_mem x (List.mem_of_getLast? hl)

/-- A row `x` leaves the chain behind `p`: its neighbours are joined. -/
theorem chainRep_detach (h h' : E → Node E) (p x : E) (pre post : List E)
    (hn : (p :: (pre ++ x :: post)).Nodup)
    (he : ∀ y ∈ pre ++ post, h' y =
      if post.head? = some y then { h y with prev := some (pre.getLastD p) }
      else if pre.getLastD p = y then { h y with next := post.head? } else h y)
    (hr : ChainRep h p (pre ++ x :: post)) : ChainRep h' p (pre ++ post) := by
  induction pre generalizing p with
  | nil =>
    obtain ⟨-, h2⟩ := hr
    simp only [List.nil_append, List.nodup_cons, List.mem_cons, not_or] at hn
    refine chainRep_reprev h h' x p post hn.2.2 (fun y hy => ?_) h2
    have hpy : ([] : List E).getLastD p ≠ y := by
      rintro rfl
      exact hn.1.2 hy
    rw [he y hy, if_neg hpy]
    rfl
  | cons z pre ih =>
    obtain ⟨h1, h2⟩ : h z = ⟨none, none, none, .white, some p, (pre ++ x :: post).head?⟩ ∧
      ChainRep h z (pre ++ x :: post) := hr
    simp only [List.getLastD_cons] at he
    rw [List.cons_append, List.nodup_cons] at hn
    have hz : z ∉ pre ++ x :: post := (List.nodup_cons.mp hn.2).1
    simp only [List.mem_append, List.mem_cons, not_or] at hz
    show h' z = ⟨none, none, none, .white, some p, (pre ++ post).head?⟩ ∧ ChainRep h' z (pre ++ post)
    refine ⟨?_, ih z hn.2 (fun y hy => he y (List.mem_cons_of_mem z hy)) h2⟩
    have hpz : post.head? ≠ some z := fun hp => hz.2.2 (List.mem_of_head? hp)
    have hznext : (pre ++ post).head? = if pre.getLastD z = z then post.head?
        else (pre ++ x :: post).head? := by
      cases pre with
      | nil => exact (if_pos rfl).symm
      | cons w ws =>
        rw [if_neg]
        · rfl
        · intro hw
          have hmem := getLastD_mem w z ws
          rw [hw] at hmem
          exact hz.1 hmem
    rw [he z (by simp), if_neg hpz, h1, hznext]
    split_ifs <;> rfl

omit [DecidableEq E] in
/-- What the links of a row in a chain are. -/
theorem chainRep_node (h : E → Node E) (p x : E) (pre post : List E)
    (hr : ChainRep h p (pre ++ x :: post)) :
    h x = ⟨none, none, none, .white, some (pre.getLastD p), post.head?⟩ := by
  induction pre generalizing p with
  | nil => exact hr.1
  | cons z pre ih =>
    rw [List.getLastD_cons]
    exact ih z hr.2

theorem chainDetach_node (ix : Idx E) (x y : E) (p q : Option E) (hp : p ≠ some x)
    (hx : ix.node x = ⟨(ix.node x).left, (ix.node x).right, (ix.node x).parent, (ix.node x).color,
      p, q⟩) :
    (ix.chainDetach x).node y =
      if q = some y then { (if p = some y then { ix.node y with next := q } else ix.node y) with
        prev := p }
      else if p = some y then { ix.node y with next := q } else ix.node y := by
  have h1 : (ix.node x).prev = p := by rw [hx]
  have h2 : (ix.node x).next = q := by rw [hx]
  have h3 : (ix.setNextOf p q).node x = ix.node x := by rw [setNextOf_node, if_neg hp]
  rw [Idx.chainDetach]
  simp only [h1, h2, h3]
  rw [setPrevOf_node, setNextOf_node]

theorem chainDetach_root (ix : Idx E) (x : E) : (ix.chainDetach x).root = ix.root := by
  rw [Idx.chainDetach, setPrevOf_root, setNextOf_root]

/-- A row further down in its group leaves the list. -/
theorem chainDetach_focus (base : E → Node E) (ix : Idx E) (path : List (Frame (Group E)))
    (c : Color) (a b : Tree (Group E)) (k x : E) (pre post : List E)
    (h : Focus base ix path (.node c a ⟨k, pre ++ x :: post⟩ b)) :
    ((ix.chainDetach x).node x).color = .white ∧
      ∃ v, Focus (Function.update base x v) (ix.chainDetach x) path
        (.node c a ⟨k, pre ++ post⟩ b) := by
  obtain ⟨hk, hch, ha, hb⟩ := h.rep
  have hx := chainRep_node ix.node k x pre post hch
  have hnod := h.nodup
  have hflat : (rows (.node c a ⟨k, pre ++ x :: post⟩ b) ++ pathRows path).Perm
      (x :: (rows (.node c a ⟨k, pre ++ post⟩ b) ++ pathRows path)) := by
    rw [List.perm_iff_count]
    intro y
    simp only [rows, Group.members, List.count_append, List.count_cons]
    omega
  obtain ⟨hxout, hnew⟩ := List.nodup_cons.mp (hflat.nodup_iff.mp hnod)
  simp only [rows, Group.members, List.cons_append, List.append_assoc, List.nodup_cons,
    List.mem_append, List.mem_cons, not_or] at hnod hxout
  obtain ⟨⟨hk1, hk2, hk3, hk4, hk5, hk6⟩, hnod⟩ := hnod
  obtain ⟨hxk, hxpre, hxpost, hxa, hxb, hxp⟩ := hxout
  have hlast : pre.getLastD k = k ∨ pre.getLastD k ∈ pre := by
    cases pre with
    | nil => exact .inl rfl
    | cons z pre => exact .inr (getLastD_mem z k pre)
  have hlx : some (pre.getLastD k) ≠ some x := by
    intro he
    rw [Option.some.inj he] at hlast
    tauto
  have hnode := fun y => chainDetach_node ix x y (some (pre.getLastD k)) post.head? hlx (by rw [hx])
  have hmem : ∀ y, some (pre.getLastD k) = some y → y = k ∨ y ∈ pre := by
    intro y hy
    rwa [Option.some.inj hy] at hlast
  have hkeep : ∀ y, y ≠ k → y ∉ pre → y ∉ post → (ix.chainDetach x).node y = ix.node y := by
    intro y hyk hy1 hy2
    rw [hnode, if_neg (fun hp => hy2 (List.mem_of_head? hp)), if_neg]
    intro hp
    rcases hmem y hp with rfl | hp
    · exact hyk rfl
    · exact hy1 hp
  obtain ⟨hn1, hn2, hd1⟩ := List.nodup_append.mp hnod
  simp only [List.nodup_cons, List.mem_append, List.nodup_append, List.mem_cons] at hn2 hd1
  refine ⟨?_, ix.node x, ⟨⟨?_, ?_, ?_, ?_⟩, ?_, hnew, ?_⟩⟩
  · rw [hkeep x hxk hxpre hxpost, hx]
  · -- The head of the group is the neighbour when the row was the first of the chain.
    rw [hnode, if_neg (fun hp => hk3 (List.mem_of_head? hp)), hk]
    cases pre with
    | nil => exact if_pos rfl
    | cons z pre =>
      refine if_neg fun he => ?_
      have hz := getLastD_mem z k pre
      rw [Option.some.inj he] at hz
      exact hk1 hz
  · refine chainRep_detach ix.node _ k x pre post ?_ (fun y hy => ?_) hch
    · rw [List.nodup_cons, List.nodup_append, List.mem_append, List.mem_cons, List.nodup_cons]
      refine ⟨by tauto, hn1, ⟨hxpost, hn2.2.1⟩, ?_⟩
      intro u hu v hv
      refine hd1 u hu v ?_
      rcases List.mem_cons.mp hv with hv | hv
      · exact .inl hv
      · exact .inr (.inl hv)
    · rw [hnode]
      by_cases hq : post.head? = some y
      · have hyp := List.mem_of_head? hq
        have hne : some (pre.getLastD k) ≠ some y := by
          intro hp
          rcases hmem y hp with rfl | hp
          · exact hk3 hyp
          · exact hd1 y hp y (.inr (.inl hyp)) rfl
        rw [if_pos hq, if_pos hq, if_neg hne]
      · simp only [if_neg hq, Option.some.injEq]
  · refine rep_congr ix.node _ _ a (fun y hy => hkeep y ?_ ?_ ?_) ha
    · rintro rfl
      exact hk4 hy
    · exact fun hp => hd1 y hp y (.inr (.inr (.inl hy))) rfl
    · exact fun hp => hn2.2.2.2 y hp y (.inl hy) rfl
  · refine rep_congr ix.node _ _ b (fun y hy => hkeep y ?_ ?_ ?_) hb
    · rintro rfl
      exact hk5 hy
    · exact fun hp => hd1 y hp y (.inr (.inr (.inr (.inl hy)))) rfl
    · exact fun hp => hn2.2.2.2 y hp y (.inr (.inl hy)) rfl
  · refine pathRep_congr ix _ (some k) path (chainDetach_root ix x) (fun y hy => hkeep y ?_ ?_ ?_) h.ctx
    · rintro rfl
      exact hk6 hy
    · exact fun hp => hd1 y hp y (.inr (.inr (.inr (.inr hy)))) rfl
    · exact fun hp => hn2.2.2.2 y hp y (.inr (.inr hy)) rfl
  · intro y hy hyp
    simp only [rows, Group.members, List.mem_append, List.mem_cons, not_or] at hy
    rw [hkeep y hy.1.1 hy.1.2.1 hy.1.2.2]
    by_cases hyx : y = x
    · rw [hyx, Function.update_self]
    · rw [Function.update_of_ne hyx]
      refine h.rest y ?_ hyp
      simp only [rows, Group.members, List.mem_append, List.mem_cons, not_or]
      exact ⟨⟨hy.1.1, hy.1.2.1, hyx, hy.1.2.2⟩, hy.2⟩

/-- The head of a group gives its place to the next row of the group. -/
theorem replaceHead_focus (base : E → Node E) (ix : Idx E) (path : List (Frame (Group E)))
    (c : Color) (a b : Tree (Group E)) (x y : E) (ys : List E)
    (h : Focus base ix path (.node c a ⟨x, y :: ys⟩ b)) :
    ((ix.chainDetach x).node x).color ≠ .white ∧ ((ix.chainDetach x).node x).next = some y ∧
      ∃ v, Focus (Function.update base x v) ((ix.chainDetach x).replace x y) path
        (.node c a ⟨y, ys⟩ b) := by
  obtain ⟨hx, ⟨hy, hch⟩, ha, hb⟩ := h.rep
  have hflat : (rows (.node c a ⟨x, y :: ys⟩ b) ++ pathRows path).Perm
      (x :: (rows (.node c a ⟨y, ys⟩ b) ++ pathRows path)) := List.Perm.refl _
  obtain ⟨hxout, hnew⟩ := List.nodup_cons.mp (hflat.nodup_iff.mp h.nodup)
  have hnod := hnew
  simp only [rows, Group.members, List.cons_append, List.append_assoc, List.nodup_cons,
    List.mem_append, List.mem_cons, not_or] at hxout hnod
  obtain ⟨hxy, hxys, hxa, hxb, hxp⟩ := hxout
  obtain ⟨⟨hyys, hya, hyb, hyp⟩, -⟩ := hnod
  have hnode : ∀ z, (ix.chainDetach x).node z =
      if some y = some z then { ix.node z with prev := none } else ix.node z := by
    intro z
    rw [chainDetach_node ix x z none (some y) (by simp) (by rw [hx]; rfl)]
    simp
  have hkeep : ∀ z, z ≠ y → (ix.chainDetach x).node z = ix.node z := by
    intro z hz
    rw [hnode, if_neg (fun he => hz (Option.some.inj he).symm)]
  have hx1 : (ix.chainDetach x).node x = cell .left (ptr a) (ptr b) (parentOf path) c (y :: ys) := by
    rw [hkeep x hxy, hx]
  have hy1 : (ix.chainDetach x).node y = ⟨none, none, none, .white, none, ys.head?⟩ := by
    rw [hnode, if_pos rfl, hy]
  refine ⟨?_, by rw [hx1, cell_next]; rfl, ix.node x, ?_⟩
  · rw [hx1, cell_color]
    cases c <;> exact fun hc => NodeColor.noConfusion hc
  have hrepl := replace_focus (ix.chainDetach x) path c a b x y (y :: ys) ys hx1
    (rep_congr ix.node _ _ a (fun z hz => hkeep z (fun he => hya (he ▸ hz))) ha)
    (rep_congr ix.node _ _ b (fun z hz => hkeep z (fun he => hyb (he ▸ hz))) hb)
    (pathRep_congr ix _ _ path (chainDetach_root ix x)
      (fun z hz => hkeep z (fun he => hyp (he ▸ hz))) h.ctx)
    hxa hxb hxp hnew (Ne.symm hxy) (by rw [hy1]) (by rw [hy1])
    (chainRep_congr ix.node _ _ _ (fun z hz => hkeep z (fun he => hyys (he ▸ hz))) hch)
  refine hrepl.rebase fun z hz hzp => ?_
  have hzy : z ≠ y := by
    rintro rfl
    exact hz List.mem_cons_self
  rw [hkeep z hzy]
  by_cases hzx : z = x
  · rw [hzx, Function.update_self]
  · rw [Function.update_of_ne hzx]
    refine h.rest z (fun hm => ?_) hzp
    rcases List.mem_cons.mp hm with hm | hm
    · exact hzx hm
    · exact hz hm

/-! ## Removal -/

/-- The last step of `REMOVE`: the row that is out forgets its links. -/
theorem clear_focus (base : E → Node E) (ix : Idx E) (t : Tree (Group E)) (x : E) (v : Node E)
    (h : Focus (Function.update base x v) ix [] t) (hx : x ∉ rows t) (hbase : base x = Node.zero) :
    Focus base (ix.clear x) [] t := by
  refine ⟨?_, ?_, h.nodup, ?_⟩
  · refine rep_congr ix.node _ _ t (fun y hy => modify_node_ne ix x y _ ?_) h.rep
    rintro rfl
    exact hx hy
  · exact h.ctx
  · intro y hy hyp
    by_cases hyx : y = x
    · rw [hyx, Idx.clear, modify_node_self, hbase]
    · rw [Idx.clear, modify_node_ne _ _ _ _ hyx, h.rest y hy hyp, Function.update_of_ne hyx]

omit [DecidableEq E] in
/-- The place of a row. -/
theorem exists_place (t : Tree (Group E)) (x : E) (hx : x ∈ rows t) :
    ∃ path c a g b, t = fill path (.node c a g b) ∧ x ∈ g.members := by
  induction t with
  | nil => exact absurd hx List.not_mem_nil
  | node c l g r ihl ihr =>
    simp only [rows, List.mem_append] at hx
    rcases hx with hx | hx | hx
    · exact ⟨[], c, l, g, r, rfl, hx⟩
    · obtain ⟨path, c', a, k, b, hfill, hk⟩ := ihl hx
      refine ⟨path ++ [⟨.left, c, g, r⟩], c', a, k, b, ?_, hk⟩
      rw [fill_append, ← hfill]
      rfl
    · obtain ⟨path, c', a, k, b, hfill, hk⟩ := ihr hx
      refine ⟨path ++ [⟨.right, c, g, l⟩], c', a, k, b, ?_, hk⟩
      rw [fill_append, ← hfill]
      rfl

/-- The node of a row without a chain leaves the tree, with at most one child. -/
theorem removeOuter_rebase (base : E → Node E) (fuel : ℕ) (ix : Idx E)
    (path : List (Frame (Group E))) (d : Dir) (c : Color) (x : E) (t : Tree (Group E)) (m : ℕ)
    (hfuel : path.length < fuel) (h : Focus base ix path (Tree.branch d c .nil ⟨x, []⟩ t))
    (hb : Bal (fill path (Tree.branch d c .nil ⟨x, []⟩ t)) .black m) :
    ∃ ix' t' m' v, Idx.removeOuter fuel ix x (ptr t) = some ix' ∧
      Focus (Function.update base x v) ix' [] t' ∧ Bal t' .black m' ∧
      t'.toList = before path ++ t.toList ++ after path := by
  obtain ⟨ix', t', m', hrem, h', hb', hl⟩ :=
    removeOuter_focus base fuel ix path d c ⟨x, []⟩ t m hfuel h hb
  refine ⟨ix', t', m', ix.node x, hrem, h'.rebase fun y hy _ => ?_, hb', by rw [hl, toList_fill]⟩
  have hy' : y ∉ rows t ++ pathRows path := by
    rwa [(rows_of_toList _ _ hl).mem_iff, ← (rows_fill path t).mem_iff] at hy
  rw [List.mem_append, not_or] at hy'
  by_cases hyx : y = x
  · rw [hyx, Function.update_self]
  · rw [Function.update_of_ne hyx]
    refine h.rest y ?_ hy'.2
    simp only [mem_rows_branch, Group.members, List.mem_singleton, rows, List.not_mem_nil, false_or,
      not_or]
    exact ⟨hyx, hy'.1⟩

/-- The tree part of `REMOVE`. -/
theorem removeTree_focus (base : E → Node E) (fuel : ℕ) (ix : Idx E)
    (path : List (Frame (Group E))) (c : Color) (x : E) (a b : Tree (Group E)) (m : ℕ)
    (h : Focus base ix path (.node c a ⟨x, []⟩ b))
    (hb : Bal (fill path (.node c a ⟨x, []⟩ b)) .black m)
    (hfuel : (fill path (.node c a ⟨x, []⟩ b)).toList.length < fuel) :
    ∃ ix' t' m' v, Idx.removeTree fuel ix x = some ix' ∧
      Focus (Function.update base x v) ix' [] t' ∧ Bal t' .black m' ∧
      t'.toList = before path ++ (a.toList ++ b.toList) ++ after path := by
  have hlen := length_path_le path (.node c a ⟨x, []⟩ b)
  have hx : ix.node x = cell .left (ptr a) (ptr b) (parentOf path) c [] := h.rep.1
  have hleft : (ix.node x).left = ptr a := by rw [hx]; rfl
  have hright : (ix.node x).right = ptr b := by rw [hx]; rfl
  cases a with
  | nil =>
    obtain ⟨ix', t', m', v, hrem, h', hb', hl⟩ :=
      removeOuter_rebase base fuel ix path .left c x b m (by omega) h hb
    refine ⟨ix', t', m', v, ?_, h', hb', hl⟩
    simp only [Idx.removeTree, hleft, hright, ptr]
    exact hrem
  | node ca la ga ra =>
    cases b with
    | nil =>
      obtain ⟨ix', t', m', v, hrem, h', hb', hl⟩ :=
        removeOuter_rebase base fuel ix path .right c x (.node ca la ga ra) m (by omega) h hb
      refine ⟨ix', t', m', v, ?_, h', hb', ?_⟩
      · simp only [Idx.removeTree, hleft, hright, ptr]
        exact hrem
      · rw [hl]
        simp [Tree.toList]
    | node cb lb gb rb =>
      obtain ⟨ix', t', m', v, hrem, h', hb', hl⟩ :=
        removeInner_focus base fuel ix path c cb _ lb rb x gb m h hb hfuel
      refine ⟨ix', t', m', v, ?_, h', hb', hl⟩
      simp only [Idx.removeTree, hleft, hright, ptr]
      exact hrem

/-- A row in the tree: what `REMOVE` does before it forgets the links of the row. -/
theorem remove_place (base : E → Node E) (fuel : ℕ) (ix : Idx E) (path : List (Frame (Group E)))
    (c : Color) (a b : Tree (Group E)) (g : Group E) (x : E) (m : ℕ)
    (h : Focus base ix path (.node c a g b)) (hb : Bal (fill path (.node c a g b)) .black m)
    (hx : x ∈ g.members) (hfuel : (fill path (.node c a g b)).toList.length < fuel) :
    ∃ ix' t' m' v, Idx.remove fuel ix x = some (ix'.clear x) ∧
      Focus (Function.update base x v) ix' [] t' ∧ Bal t' .black m' ∧
      t'.toList = before path ++ (a.toList ++ ((g.without x).toList ++ b.toList)) ++ after path := by
  obtain ⟨k, ch⟩ := g
  obtain ⟨c', n, hbal, hacc⟩ := hb.accepts
  by_cases hxk : x = k
  · subst hxk
    cases ch with
    | nil =>
      obtain ⟨ix', t', m', v, hrem, h', hb', hl⟩ :=
        removeTree_focus base fuel ix path c x a b m h hb hfuel
      refine ⟨ix', t', m', v, ?_, h', hb', ?_⟩
      · have hx1 : ix.node x = cell .left (ptr a) (ptr b) (parentOf path) c [] := h.rep.1
        have hdet : ix.chainDetach x = ix := by
          simp [Idx.chainDetach, hx1, Idx.setNextOf, Idx.setPrevOf]
        have hcol : (ix.node x).color ≠ .white := by
          rw [hx1, cell_color]
          cases c <;> exact fun hc => NodeColor.noConfusion hc
        simp only [Idx.remove, hdet, if_neg hcol]
        simp only [hx1, cell_next, List.head?_nil, hrem, Option.bind_eq_bind, Option.bind_some]
      · rw [hl]
        simp [Group.without]
    | cons y ys =>
      obtain ⟨hcol, hnext, v, h'⟩ := replaceHead_focus base ix path c a b x y ys h
      obtain ⟨m', hm'⟩ := hacc.fill (hbal.congr_payload ⟨y, ys⟩)
      refine ⟨_, _, m', v, ?_, (focus_root _ _ _ _).mp h', hm', ?_⟩
      · simp only [Idx.remove, if_neg hcol, hnext]
      · rw [toList_fill]
        simp [Group.without, Tree.toList]
  · have hxch : x ∈ ch := (List.mem_cons.mp hx).resolve_left hxk
    obtain ⟨pre, post, rfl, hpre⟩ := List.eq_append_cons_of_mem hxch
    obtain ⟨hcol, v, h'⟩ := chainDetach_focus base ix path c a b k x pre post h
    obtain ⟨m', hm'⟩ := hacc.fill (hbal.congr_payload ⟨k, pre ++ post⟩)
    refine ⟨_, _, m', v, ?_, (focus_root _ _ _ _).mp h', hm', ?_⟩
    · simp only [Idx.remove, if_pos hcol]
    · rw [toList_fill]
      simp [Group.without, Tree.toList, hxk, List.erase_append_right _ hpre]

/-- **`REMOVE`.** The row is taken out of its group; a row that is not in the tree is left alone. -/
theorem remove_focus (fuel : ℕ) (ix : Idx E) (t : Tree (Group E)) (m : ℕ) (x : E)
    (h : Focus (fun _ => Node.zero) ix [] t) (hb : Bal t .black m)
    (hfuel : t.toList.length < fuel) :
    ∃ ix' t' m', Idx.remove fuel ix x = some ix' ∧ Focus (fun _ => Node.zero) ix' [] t' ∧
      Bal t' .black m' ∧ t'.toList = dropRow x t.toList := by
  have hn : (rowsOf t.toList).Nodup := by
    rw [← (rows_perm t).nodup_iff]
    exact (List.nodup_append.mp h.nodup).1
  by_cases hx : x ∈ rows t
  · obtain ⟨path, c, a, g, b, rfl, hg⟩ := exists_place t x hx
    obtain ⟨ix', t', m', v, hrem, h', hb', hl⟩ := remove_place _ fuel ix path c a b g x m
      ((focus_root _ _ _ _).mpr h) hb hg hfuel
    have hsplit : (fill path (.node c a g b)).toList =
        (before path ++ a.toList) ++ g :: (b.toList ++ after path) := by
      rw [toList_fill]
      simp [Tree.toList]
    have hdrop : t'.toList = dropRow x (fill path (.node c a g b)).toList := by
      rw [hsplit] at hn ⊢
      have hflat : rowsOf ((before path ++ a.toList) ++ g :: (b.toList ++ after path)) =
          rowsOf (before path ++ a.toList) ++ (g.members ++ rowsOf (b.toList ++ after path)) := by
        simp [rowsOf]
      rw [hflat] at hn
      obtain ⟨-, hn2, hd1⟩ := List.nodup_append.mp hn
      obtain ⟨-, -, hd2⟩ := List.nodup_append.mp hn2
      rw [dropRow_middle x, hl]
      · simp
      · exact fun hm => hd1 x hm x (List.mem_append_left _ hg) rfl
      · exact fun hm => hd2 x hg x hm rfl
    have hout : x ∉ rows t' := by
      rw [(rows_perm t').mem_iff, hdrop, rowsOf_dropRow x _ hn]
      exact hn.not_mem_erase
    exact ⟨_, t', m', hrem, clear_focus _ ix' t' x v h' hout rfl, hb', hdrop⟩
  · have hzero : ix.node x = Node.zero := h.rest x hx List.not_mem_nil
    have hdet : ix.chainDetach x = ix := by
      simp [Idx.chainDetach, hzero, Node.zero, Idx.setNextOf, Idx.setPrevOf]
    refine ⟨ix.clear x, t, m, ?_, ?_, hb, ?_⟩
    · simp only [Idx.remove, hdet, hzero]
      rfl
    · refine clear_focus _ ix t x Node.zero (h.rebase fun y _ _ => ?_) hx rfl
      simp [Function.update_apply]
    · rw [dropRow_self]
      rwa [← (rows_perm t).mem_iff]

end Mand.Index
