import Mand.Index.Insert

/-! # The repair loop of removal

`REMOVE_COLOR` works upwards from a place whose subtree has one black node too few on every way
down. -/
namespace Mand.Index
open Mand.Rb Mand.Groups
set_option autoImplicit false

variable {E : Type} [DecidableEq E]

/-! ## One round -/

/-- The outer child of the sibling is red: the sibling takes the place of the parent. -/
theorem outerNephew_focus (base : E → Node E) (ix : Idx E) (path : List (Frame (Group E)))
    (d : Dir) (pc sc : Color) (t x y z : Tree (Group E)) (p s u : Group E)
    (h : Focus base ix path
      (Tree.branch d pc t p (Tree.branch d sc x s (Tree.branch d .red y u z)))) :
    ∃ ix', Idx.outerNephew d ix p.head s.head = some ix' ∧ Focus base ix' path
      (Tree.branch d pc (Tree.branch d .black t p x) s (Tree.branch d .black y u z)) := by
  have hcol : (ix.node p.head).color = nodeColor pc := by
    rw [focus_node base ix path d pc _ _ p h, cell_color]
  have h1 := focus_setColor base ix _ d sc pc x _ s ((focus_child_flip _ _ _ _ _ _ _ _).mp h)
  have h2 := focus_setColor base _ path d pc .black t _ p
    ((focus_child_flip _ _ _ _ _ _ _ _).mpr h1)
  have h2s := (focus_child_flip _ _ _ _ _ _ _ _).mp h2
  have hchild := congrArg (fun n => n.child d.flip) (focus_node base _ _ d pc x _ s h2s)
  simp only [cell_child_flip, ptr_branch] at hchild
  have h3 := focus_setColor base _ _ d .red .black y z u ((focus_child_flip _ _ _ _ _ _ _ _).mp h2s)
  obtain ⟨ix', hrot, h4⟩ := rotate_focus base _ path d .black pc t x _ p s
    ((focus_child_flip _ _ _ _ _ _ _ _).mpr ((focus_child_flip _ _ _ _ _ _ _ _).mpr h3))
  refine ⟨ix', ?_, h4⟩
  have hb : NodeColor.black = nodeColor .black := rfl
  simp only [Idx.outerNephew, hcol, hb, hchild]
  exact hrot

/-- Only the inner child of the sibling is red: it becomes the sibling. -/
theorem innerNephew_focus (base : E → Node E) (ix : Idx E) (path : List (Frame (Group E)))
    (d : Dir) (pc : Color) (t x z y : Tree (Group E)) (p s k : Group E) (hy : y.color = .black)
    (h : Focus base ix path
      (Tree.branch d pc t p (Tree.branch d .black (Tree.branch d .red x k z) s y))) :
    ∃ ix', Idx.innerNephew d ix p.head s.head = some (k.head, ix') ∧ Focus base ix' path
      (Tree.branch d pc t p (Tree.branch d .black x k (Tree.branch d .red z s y))) := by
  have hsib := (focus_child_flip _ _ _ _ _ _ _ _).mp h
  have hs := focus_node base ix _ d .black _ _ s hsib
  have hblack : ix.isBlack ((ix.node s.head).child d.flip) = true := by
    rw [hs, cell_child_flip, isBlack_ptr ix.node ix.root _ y ((rep_branch _ _ _ _ _ _ _).mp hsib.rep).2.2.2,
      hy]
    rfl
  have hchild : (ix.node s.head).child d = some k.head := by rw [hs, cell_child, ptr_branch]
  have h1 := focus_setColor base ix _ d .red .black x z k ((focus_child _ _ _ _ _ _ _ _).mp hsib)
  have h2 := focus_setColor base _ _ d .black .red _ y s ((focus_child _ _ _ _ _ _ _ _).mpr h1)
  rw [← Tree.branch_flip d .red, ← Tree.branch_flip d .black x] at h2
  obtain ⟨ix', hrot, h3⟩ := rotate_focus base _ _ d.flip .red .black y z x s k h2
  rw [Tree.branch_flip d .red, Tree.branch_flip] at h3
  have h4 := (focus_child_flip _ _ _ _ _ _ _ _).mpr h3
  have hnext : (ix'.node p.head).child d.flip = some k.head := by
    rw [focus_node base ix' path d pc _ _ p h4, cell_child_flip, ptr_branch]
  refine ⟨ix', ?_, h4⟩
  have hb : NodeColor.black = nodeColor .black := rfl
  have hr : NodeColor.red = nodeColor .red := rfl
  simp only [Idx.innerNephew, hblack, if_true, hchild, Idx.setColorOf, hb, hr, hrot,
    Option.bind_eq_bind, Option.bind_some, hnext]

/-- A red outer child of the sibling: nothing to prepare. -/
theorem innerNephew_skip (base : E → Node E) (ix : Idx E) (path : List (Frame (Group E)))
    (d : Dir) (pc : Color) (t x y : Tree (Group E)) (p s : Group E) (hy : y.color = .red)
    (h : Focus base ix path (Tree.branch d pc t p (Tree.branch d .black x s y))) :
    Idx.innerNephew d ix p.head s.head = some (s.head, ix) := by
  have hsib := (focus_child_flip _ _ _ _ _ _ _ _).mp h
  have hred : ix.isBlack ((ix.node s.head).child d.flip) = false := by
    rw [focus_node base ix _ d .black _ _ s hsib, cell_child_flip,
      isBlack_ptr ix.node ix.root _ y ((rep_branch _ _ _ _ _ _ _).mp hsib.rep).2.2.2, hy]
    rfl
  simp only [Idx.innerNephew, hred, Bool.false_eq_true, if_false]

/-- A red sibling is rotated above the parent, which becomes red. -/
theorem redSibling_focus (base : E → Node E) (ix : Idx E) (path : List (Frame (Group E)))
    (d : Dir) (t x y : Tree (Group E)) (p s : Group E) (e : E) (hx : ptr x = some e)
    (h : Focus base ix path (Tree.branch d .black t p (Tree.branch d .red x s y))) :
    ∃ ix', Idx.redSibling d ix p.head s.head = some (e, ix') ∧
      Focus base ix' (⟨d, .black, s, y⟩ :: path) (Tree.branch d .red t p x) := by
  have hsib := (focus_child_flip _ _ _ _ _ _ _ _).mp h
  have hcol : (ix.node s.head).color = .red := by
    rw [focus_node base ix _ d .red _ _ s hsib, cell_color]
    rfl
  have h1 := focus_setColor base ix _ d .red .black x y s hsib
  have h2 := focus_setColor base _ path d .black .red t _ p
    ((focus_child_flip _ _ _ _ _ _ _ _).mpr h1)
  obtain ⟨ix', hrot, h3⟩ := rotate_focus base _ path d .red .black t x y p s h2
  have h4 := (focus_child _ _ _ _ _ _ _ _).mp h3
  have hnext : (ix'.node p.head).child d.flip = some e := by
    rw [focus_node base ix' _ d .red _ _ p h4, cell_child_flip, hx]
  refine ⟨ix', ?_, h4⟩
  have hb : NodeColor.black = nodeColor .black := rfl
  have hr : NodeColor.red = nodeColor .red := rfl
  simp only [Idx.redSibling, hcol, if_true, Idx.setBlackRed]
  rw [hb, hr, hrot]
  simp only [Option.bind_eq_bind, Option.bind_some, hnext]

theorem redSibling_skip (base : E → Node E) (ix : Idx E) (path : List (Frame (Group E)))
    (d : Dir) (pc : Color) (t x y : Tree (Group E)) (p s : Group E)
    (h : Focus base ix path (Tree.branch d pc t p (Tree.branch d .black x s y))) :
    Idx.redSibling d ix p.head s.head = some (s.head, ix) := by
  have hcol : (ix.node s.head).color ≠ .red := by
    rw [focus_node base ix _ d .black _ _ s ((focus_child_flip _ _ _ _ _ _ _ _).mp h), cell_color]
    exact fun hc => NodeColor.noConfusion hc
  rw [Idx.redSibling, if_neg hcol]

/-- What a round with a black sibling leads to: the sibling becomes red and the loop goes on, or the
tree is balanced. -/
theorem blackSibling_focus (base : E → Node E) (ix : Idx E) (path : List (Frame (Group E)))
    (d : Dir) (pc cx cy : Color) (t x y : Tree (Group E)) (p s : Group E) (n : ℕ)
    (h : Focus base ix path (Tree.branch d pc t p (Tree.branch d .black x s y)))
    (ht : Bal t .black n) (hx : Bal x cx n) (hy : Bal y cy n)
    (hacc : ∀ v a b, Bal a .black (n + 1) → Bal b .black (n + 1) →
      ∃ m, Bal (fill path (Tree.branch d pc a v b)) .black m) :
    ∃ ix', (Idx.blackSibling d ix p.head s.head = some (true, ix') ∧ cx = .black ∧ cy = .black ∧
        Focus base ix' path (Tree.branch d pc t p (Tree.branch d .red x s y))) ∨
      (Idx.blackSibling d ix p.head s.head = some (false, ix') ∧ ∃ t' m, Focus base ix' path t' ∧
        Bal (fill path t') .black m ∧
        t'.toList = (Tree.branch d pc t p (Tree.branch d .black x s y)).toList) := by
  have hsib := (focus_child_flip _ _ _ _ _ _ _ _).mp h
  have hs := focus_node base ix _ d .black _ _ s hsib
  obtain ⟨-, -, hrx, hry⟩ := (rep_branch _ _ _ _ _ _ _).mp hsib.rep
  have hbx : ix.isBlack ((ix.node s.head).child d) = decide (cx = .black) := by
    rw [hs, cell_child, isBlack_ptr ix.node ix.root _ x hrx, hx.color_eq]
  have hby : ix.isBlack ((ix.node s.head).child d.flip) = decide (cy = .black) := by
    rw [hs, cell_child_flip, isBlack_ptr ix.node ix.root _ y hry, hy.color_eq]
  cases cy with
  | red =>
    obtain ⟨y1, y2, u, rfl⟩ : ∃ y1 y2 u, y = Tree.branch d .red y1 u y2 := by
      cases hy with
      | red h1 h2 =>
        obtain ⟨a, b, hab⟩ := Tree.node_eq_branch d .red _ _ _
        exact ⟨a, b, _, hab⟩
    have hskip := innerNephew_skip base ix path d pc t x _ p s hy.color_eq h
    obtain ⟨ix', hout, h'⟩ := outerNephew_focus base ix path d pc .black t x y1 y2 p s u h
    obtain ⟨hy1, hy2⟩ := bal_branch_red.mp hy
    obtain ⟨m, hm⟩ := hacc s _ _ (bal_branch_black.mpr ⟨_, _, ht, hx⟩ :
      Bal (Tree.branch d .black t p x) .black (n + 1)) (bal_branch_black.mpr ⟨_, _, hy1, hy2⟩ :
      Bal (Tree.branch d .black y1 u y2) .black (n + 1))
    refine ⟨ix', .inr ⟨?_, _, m, h', hm, ?_⟩⟩
    · simp [Idx.blackSibling, hby, hskip, hout]
    · rw [toList_rotate d pc .black pc .black t x _ p s]
      exact toList_branch_congr d _ _ _ _ _ _ p rfl (toList_branch_congr d _ _ _ _ _ _ s rfl
        (toList_branch_congr d _ _ _ _ _ _ u rfl rfl))
  | black =>
    cases cx with
    | black =>
      have h' := focus_setColor base ix _ d .black .red x y s hsib
      refine ⟨_, .inl ⟨?_, rfl, rfl, (focus_child_flip _ _ _ _ _ _ _ _).mpr h'⟩⟩
      simp [Idx.blackSibling, hbx, hby, nodeColor]
    | red =>
      obtain ⟨x1, x2, k, rfl⟩ : ∃ x1 x2 k, x = Tree.branch d .red x1 k x2 := by
        cases hx with
        | red h1 h2 =>
          obtain ⟨a, b, hab⟩ := Tree.node_eq_branch d .red _ _ _
          exact ⟨a, b, _, hab⟩
      obtain ⟨hx1, hx2⟩ := bal_branch_red.mp hx
      obtain ⟨ix1, hin, h1⟩ := innerNephew_focus base ix path d pc t x1 x2 y p s k hy.color_eq h
      obtain ⟨ix', hout, h'⟩ := outerNephew_focus base ix1 path d pc .black t x1 x2 y p k s h1
      obtain ⟨m, hm⟩ := hacc k _ _ (bal_branch_black.mpr ⟨_, _, ht, hx1⟩ :
        Bal (Tree.branch d .black t p x1) .black (n + 1)) (bal_branch_black.mpr ⟨_, _, hx2, hy⟩ :
        Bal (Tree.branch d .black x2 s y) .black (n + 1))
      refine ⟨ix', .inr ⟨?_, _, m, h', hm, ?_⟩⟩
      · simp [Idx.blackSibling, hbx, hby, hin, hout]
      · rw [toList_rotate d pc .black pc .black t x1 _ p k]
        refine toList_branch_congr d _ _ _ _ _ _ p rfl ?_
        exact (toList_rotate d .black .red .black .black x1 x2 y k s).symm

/-! ## The loop -/

omit [DecidableEq E] in
theorem pathRep_root (ix : Idx E) (p : Option E) (f : Frame (Group E))
    (path : List (Frame (Group E))) (h : PathRep ix p (f :: path)) :
    ∃ y ∈ pathRows (f :: path), ix.root = some y := by
  induction path generalizing p f with
  | nil => exact ⟨f.val.head, by simp [pathRows, Group.members], h.2.2.2⟩
  | cons f2 path ih =>
    obtain ⟨y, hy, hroot⟩ := ih _ f2 h.2.2.2
    refine ⟨y, ?_, hroot⟩
    rw [pathRows, List.mem_append, List.mem_append]
    exact .inr (.inr hy)

omit [DecidableEq E] in
/-- A subtree below some node is not the whole tree. -/
theorem focus_ne_root (base : E → Node E) (ix : Idx E) (f : Frame (Group E))
    (path : List (Frame (Group E))) (t : Tree (Group E)) (h : Focus base ix (f :: path) t) :
    ptr t ≠ ix.root := by
  obtain ⟨y, hy, hroot⟩ := pathRep_root ix _ f path h.ctx
  rw [hroot]
  intro hp
  exact (List.nodup_append.mp h.nodup).2.2 y (ptr_mem t y hp) y hy rfl

/-- A red node in a place that wants one black more just becomes black. -/
theorem removeColor_red (base : E → Node E) (fuel : ℕ) (ix : Idx E)
    (path : List (Frame (Group E))) (d : Dir) (a b : Tree (Group E)) (g : Group E) (n : ℕ)
    (h : Focus base ix path (Tree.branch d .red a g b))
    (hb : Bal (Tree.branch d .black a g b) .black n) (hacc : Accepts path .black n) :
    ∃ ix' t' m, Idx.removeColor (fuel + 1) ix (parentOf path) (some g.head) = some ix' ∧
      Focus base ix' [] t' ∧ Bal t' .black m ∧
      t'.toList = (fill path (Tree.branch d .red a g b)).toList := by
  have hred : ix.isBlack (some g.head) = false := by
    have hg := focus_node base ix path d .red a b g h
    simp [Idx.isBlack, hg, nodeColor]
  obtain ⟨m, hm⟩ := hacc.fill hb
  refine ⟨_, _, m, ?_, (focus_root _ _ _ _).mp (focus_setColor base ix path d .red .black a b g h),
    hm, ?_⟩
  · simp only [Idx.removeColor, hred, Bool.false_eq_true, false_and, if_false, Idx.setColorOf]
    rfl
  · exact toList_fill_congr path _ _ (toList_branch_congr d _ _ _ _ _ _ g rfl rfl)

/-- The side of the hole as the code finds it; an empty hole has a sibling that is not empty. -/
theorem focus_side_ptr (base : E → Node E) (ix : Idx E) (path : List (Frame (Group E)))
    (f : Frame (Group E)) (t : Tree (Group E)) (h : Focus base ix (f :: path) t)
    (hsib : ptr f.sib ≠ none) :
    (if (ix.node f.val.head).left = ptr t then Dir.left else Dir.right) = f.dir := by
  cases ht : ptr t with
  | some x => exact focus_side base ix path f t x h ht
  | none =>
    rw [focus_frame base ix path f t h]
    cases hd : f.dir with
    | left => exact if_pos ht
    | right => exact if_neg hsib

omit [DecidableEq E] in
/-- A tree with a black node on every way down is a node. -/
theorem bal_succ_branch {t : Tree (Group E)} {c : Color} {n : ℕ} (d : Dir) (h : Bal t c (n + 1)) :
    ∃ a g b, t = Tree.branch d c a g b := by
  cases h with
  | red h1 h2 =>
    obtain ⟨a, b, hab⟩ := Tree.node_eq_branch d .red _ _ _
    exact ⟨a, _, b, hab⟩
  | black h1 h2 =>
    obtain ⟨a, b, hab⟩ := Tree.node_eq_branch d .black _ _ _
    exact ⟨a, _, b, hab⟩

/-- When the loop is left in the middle the root is black already. -/
theorem setColorOf_root (base : E → Node E) (ix : Idx E) (t : Tree (Group E)) (m : ℕ)
    (h : Focus base ix [] t) (hb : Bal t .black m) :
    Focus base (ix.setColorOf ix.root .black) [] t := by
  have hroot : ix.root = ptr t := h.ctx
  rw [hroot]
  cases hb with
  | nil => exact h
  | black h1 h2 => exact focus_setColor base ix [] .left .black .black _ _ _ h

/-- The end of a round: the loop goes on at the parent, as `hgo` says, or the tree is balanced. -/
theorem blackSibling_done (base : E → Node E) (fuel : ℕ) (ix : Idx E)
    (path : List (Frame (Group E))) (d : Dir) (pc cx cy : Color) (t x y : Tree (Group E))
    (p s : Group E) (n : ℕ)
    (h : Focus base ix path (Tree.branch d pc t p (Tree.branch d .black x s y)))
    (ht : Bal t .black n) (hx : Bal x cx n) (hy : Bal y cy n)
    (hacc : ∀ v a b, Bal a .black (n + 1) → Bal b .black (n + 1) →
      ∃ m, Bal (fill path (Tree.branch d pc a v b)) .black m)
    (hgo : ∀ ix1, Focus base ix1 path (Tree.branch d pc t p (Tree.branch d .red x s y)) →
      Bal x .black n → Bal y .black n →
      ∃ ix' t' m, Idx.removeColor fuel ix1 (parentOf path) (some p.head) = some ix' ∧
        Focus base ix' [] t' ∧ Bal t' .black m ∧
        t'.toList = (fill path (Tree.branch d pc t p (Tree.branch d .red x s y))).toList) :
    ∃ ix' t' m, ((Idx.blackSibling d ix p.head s.head).bind fun r =>
        if r.1 = true then Idx.removeColor fuel r.2 (r.2.node p.head).parent (some p.head)
        else some (r.2.setColorOf r.2.root .black)) = some ix' ∧
      Focus base ix' [] t' ∧ Bal t' .black m ∧
      t'.toList = (fill path (Tree.branch d pc t p (Tree.branch d .black x s y))).toList := by
  obtain ⟨ix1, ⟨hbs, rfl, rfl, h1⟩ | ⟨hbs, t', m, h1, hm, hl⟩⟩ :=
    blackSibling_focus base ix path d pc cx cy t x y p s n h ht hx hy hacc
  · have hpar : (ix1.node p.head).parent = parentOf path := by
      rw [focus_node base ix1 path d pc _ _ p h1, cell_parent]
    obtain ⟨ix', t', m, hrem, h', hm, hl⟩ := hgo ix1 h1 hx hy
    refine ⟨ix', t', m, ?_, h', hm, hl.trans ?_⟩
    · simp only [hbs, Option.bind_some, if_true, hpar, hrem]
    · exact toList_fill_congr path _ _ (toList_branch_congr d _ _ _ _ _ _ p rfl
        (toList_branch_congr d _ _ _ _ _ _ s rfl rfl))
  · have h2 := (focus_root _ _ _ _).mp h1
    refine ⟨_, _, m, ?_, setColorOf_root base ix1 _ m h2 hm, hm, toList_fill_congr path _ _ hl⟩
    simp only [hbs, Option.bind_some, Bool.false_eq_true, if_false]

/-- **The repair loop of `REMOVE`.** From a black subtree in a place that wants one black more, the
loop makes the whole tree balanced and keeps the order of the rows. -/
theorem removeColor_focus (base : E → Node E) (fuel : ℕ) (ix : Idx E)
    (path : List (Frame (Group E))) (t : Tree (Group E)) (n : ℕ) (hfuel : path.length < fuel)
    (h : Focus base ix path t) (ht : Bal t .black n) (hacc : Accepts path .black (n + 1)) :
    ∃ ix' t' m, Idx.removeColor fuel ix (parentOf path) (ptr t) = some ix' ∧
      Focus base ix' [] t' ∧ Bal t' .black m ∧ t'.toList = (fill path t).toList := by
  induction fuel generalizing ix path t n with
  | zero => omega
  | succ fuel ih =>
    have hblack : ix.isBlack (ptr t) = true := by
      rw [isBlack_ptr ix.node ix.root _ t h.rep, ht.color_eq]
      rfl
    cases path with
    | nil =>
      have hroot : ix.root = ptr t := h.ctx
      refine ⟨ix.setColorOf ix.root .black, t, n, ?_, setColorOf_root base ix t n h ht, ht, rfl⟩
      simp only [Idx.removeColor, hroot, ne_eq, not_true, and_false, if_false]
    | cons f path =>
      obtain ⟨d, pc, p, sib⟩ := f
      have hne := focus_ne_root base ix _ path t h
      have hpar : parentOf (⟨d, pc, p, sib⟩ :: path) = some p.head := rfl
      obtain ⟨sc, hsib⟩ : ∃ sc, Bal sib sc (n + 1) := by
        cases hacc with
        | red h1 h2 => exact ⟨_, h1⟩
        | black h1 h2 => exact ⟨_, h1⟩
      obtain ⟨x, s, y, rfl⟩ := bal_succ_branch d hsib
      have hside := focus_side_ptr base ix path _ t h (by simp)
      have hup := (focus_cons _ _ _ _ _).mp h
      have htmp : (ix.node p.head).child d.flip = some s.head := by
        rw [focus_node base ix path d pc _ _ p hup, cell_child_flip, ptr_branch]
      have hstep : Idx.removeColor (fuel + 1) ix (some p.head) (ptr t) =
          ((Idx.redSibling d ix p.head s.head).bind fun q =>
            Idx.blackSibling d q.2 p.head q.1).bind fun r =>
              if r.1 = true then Idx.removeColor fuel r.2 (r.2.node p.head).parent (some p.head)
              else some (r.2.setColorOf r.2.root .black) := by
        simp only [Idx.removeColor, hblack, hne, ne_eq, not_false_eq_true, and_self, if_true,
          Option.bind_eq_bind, Option.bind_some, hside, Idx.removeColorSide, htmp]
      rw [hpar, hstep]
      cases sc with
      | black =>
        obtain ⟨cx, cy, hx, hy⟩ := bal_branch_black.mp hsib
        rw [redSibling_skip base ix path d pc t x y p s hup, Option.bind_some]
        cases hacc with
        | red _ hpath =>
          obtain ⟨k, rfl⟩ : ∃ k, fuel = k + 1 := by
            refine ⟨fuel - 1, ?_⟩
            rw [List.length_cons] at hfuel
            omega
          refine blackSibling_done base (k + 1) ix path d .red cx cy t x y p s n hup ht hx hy ?_ ?_
          · exact fun v a b ha hb => hpath.fill (bal_branch_red.mpr ⟨ha, hb⟩)
          · intro ix1 h1 hx1 hy1
            exact removeColor_red base k ix1 path d t _ p (n + 1) h1
              (bal_branch_black.mpr ⟨_, _, ht, bal_branch_red.mpr ⟨hx1, hy1⟩⟩)
              (accepts_black_of_red hpath)
        | black _ hpath =>
          refine blackSibling_done base fuel ix path d .black cx cy t x y p s n hup ht hx hy ?_ ?_
          · exact fun v a b ha hb => hpath.fill (bal_branch_black.mpr ⟨_, _, ha, hb⟩)
          · intro ix1 h1 hx1 hy1
            have h2 := ih ix1 path (Tree.branch d .black t p (Tree.branch d .red x s y)) (n + 1)
              (by rw [List.length_cons] at hfuel; omega) h1
              (bal_branch_black.mpr ⟨_, _, ht, bal_branch_red.mpr ⟨hx1, hy1⟩⟩) hpath
            rwa [ptr_branch] at h2
      | red =>
        -- The parent of a red sibling is black, and so is the new sibling.
        obtain ⟨hx, hy⟩ := bal_branch_red.mp hsib
        cases hacc with
        | red hb _ =>
          have hc := hb.color_eq
          rw [Tree.color_branch] at hc
          cases hc
        | black _ hpath =>
          obtain ⟨k, rfl⟩ : ∃ k, fuel = k + 1 := by
            refine ⟨fuel - 1, ?_⟩
            rw [List.length_cons] at hfuel
            omega
          obtain ⟨x1, e, x2, rfl⟩ := bal_succ_branch d hx
          obtain ⟨c1, c2, hx1, hx2⟩ := bal_branch_black.mp hx
          obtain ⟨ix1, hred, h1⟩ := redSibling_focus base ix path d t _ y p s e.head
            (ptr_branch _ _ _ _ _) hup
          have hpath' : Accepts (⟨d, .black, s, y⟩ :: path) .red (n + 1) := .black hy hpath
          rw [hred, Option.bind_some]
          obtain ⟨ix', t', m, hrem, h', hm, hl⟩ := blackSibling_done base (k + 1) ix1 _ d .red c1 c2 t
            x1 x2 p e n h1 ht hx1 hx2
            (fun v a b ha hb => hpath'.fill (bal_branch_red.mpr ⟨ha, hb⟩))
            (fun ix2 h2 hb1 hb2 => removeColor_red base k ix2 _ d t _ p (n + 1) h2
              (bal_branch_black.mpr ⟨_, _, ht, bal_branch_red.mpr ⟨hb1, hb2⟩⟩)
              (accepts_black_of_red hpath'))
          refine ⟨ix', t', m, hrem, h', hm, hl.trans ?_⟩
          exact toList_fill_congr path _ _ (toList_rotate d .black .red .black .red t _ y p s)

end Mand.Index
