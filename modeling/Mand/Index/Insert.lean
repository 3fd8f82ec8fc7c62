import Mand.Index.Surgery

/-! # Insertion into an index

The repair loop of `INSERT` on a represented tree. The loop works upwards from a red node whose
parent may be red; everything else is balanced. -/
namespace Mand.Index
open Mand.Rb Mand.Groups
set_option autoImplicit false

variable {E : Type} [DecidableEq E]

/-! ## The root becomes black -/

theorem blackenRoot_focus (base : E → Node E) (ix : Idx E) (d : Dir) (c : Color)
    (a b : Tree (Group E)) (g : Group E) (h : Focus base ix [] (Tree.branch d c a g b)) :
    ∃ ix', ix.blackenRoot = some ix' ∧ Focus base ix' [] (Tree.branch d .black a g b) := by
  have hroot : ix.root = some g.head := by
    have h0 := h.ctx
    rwa [ptr_branch] at h0
  refine ⟨ix.setColor g.head .black, ?_, focus_setColor base ix [] d c .black a b g h⟩
  rw [Idx.blackenRoot, hroot]
  rfl

theorem blackenRoot_black (base : E → Node E) (ix : Idx E) (t : Tree (Group E)) (m : ℕ)
    (h : Focus base ix [] t) (hb : Bal t .black m) (hne : t ≠ .nil) :
    ∃ ix', ix.blackenRoot = some ix' ∧ Focus base ix' [] t := by
  cases hb with
  | nil => exact absurd rfl hne
  | black h1 h2 => exact blackenRoot_focus base ix .left .black _ _ _ h

theorem fill_ne_nil {α : Type} (path : List (Frame α)) (t : Tree α) (h : t ≠ .nil) :
    fill path t ≠ .nil := by
  induction path generalizing t with
  | nil => exact h
  | cons f path ih =>
    refine ih _ ?_
    obtain ⟨d, c, v, sib⟩ := f
    cases d <;> simp [Frame.attach, Tree.branch]

/-! ## One round -/

/-- Both final rotations end here: black parent, red grandparent, and the place of the grandparent
goes to the parent. -/
theorem insert_finish (base : E → Node E) (ix : Idx E) (path : List (Frame (Group E))) (d : Dir)
    (x y sib : Tree (Group E)) (p v : Group E)
    (h : Focus base ix path (Tree.branch d .black (Tree.branch d .red x p y) v sib)) :
    ∃ ix', Idx.rotate d.flip (ix.setBlackRed p.head v.head) v.head = some ix' ∧
      Focus base ix' path (Tree.branch d .black x p (Tree.branch d .red y v sib)) := by
  have h1 := focus_setColor base ix _ d .red .black x y p ((focus_child _ _ _ _ _ _ _ _).mp h)
  have h2 := focus_setColor base _ path d .black .red _ sib v ((focus_child _ _ _ _ _ _ _ _).mpr h1)
  rw [← Tree.branch_flip d .red, ← Tree.branch_flip d .black x] at h2
  obtain ⟨ix', hrot, h3⟩ := rotate_focus base _ path d.flip .red .black sib y x v p h2
  rw [Tree.branch_flip d .red, Tree.branch_flip] at h3
  exact ⟨ix', hrot, h3⟩

/-- A red uncle: the two red nodes become black and the grandparent red. -/
theorem insert_recolor (base : E → Node E) (ix : Idx E) (path : List (Frame (Group E)))
    (d e : Dir) (t s x y : Tree (Group E)) (p v u : Group E)
    (h : Focus base ix path
      (Tree.branch d .black (Tree.branch e .red t p s) v (Tree.branch d .red x u y))) :
    Focus base ((ix.setColorOf (some u.head) .black).setBlackRed p.head v.head) path
      (Tree.branch d .red (Tree.branch e .black t p s) v (Tree.branch d .black x u y)) := by
  have h1 := focus_setColor base ix _ d .red .black x y u
    ((focus_child_flip _ _ _ _ _ _ _ _).mp h)
  have h2 := focus_setColor base _ _ e .red .black t s p
    ((focus_child _ _ _ _ _ _ _ _).mp ((focus_child_flip _ _ _ _ _ _ _ _).mpr h1))
  exact focus_setColor base _ path d .black .red _ _ v ((focus_child _ _ _ _ _ _ _ _).mpr h2)

/-- A round in which the uncle is red: the loop goes on at the grandparent. -/
theorem insertColorSide_red (base : E → Node E) (ix : Idx E) (path : List (Frame (Group E)))
    (d e : Dir) (t s x y : Tree (Group E)) (p v u : Group E) (elm : E)
    (h : Focus base ix path
      (Tree.branch d .black (Tree.branch e .red t p s) v (Tree.branch d .red x u y))) :
    ∃ ix', Idx.insertColorSide d ix elm p.head v.head = some (v.head, ix') ∧
      Focus base ix' path
        (Tree.branch d .red (Tree.branch e .black t p s) v (Tree.branch d .black x u y)) := by
  have htmp : (ix.node v.head).child d.flip = some u.head := by
    rw [focus_node base ix path d .black _ _ v h, cell_child_flip, ptr_branch]
  have hred : ix.isRed (some u.head) = true := by
    have hu := focus_node base ix _ d .red x y u ((focus_child_flip _ _ _ _ _ _ _ _).mp h)
    simp [Idx.isRed, hu, nodeColor]
  refine ⟨_, ?_, insert_recolor base ix path d e t s x y p v u h⟩
  simp only [Idx.insertColorSide, htmp, hred, if_true]

/-- A black uncle and a red node on the outer side. -/
theorem insertColorSide_outer (base : E → Node E) (ix : Idx E) (path : List (Frame (Group E)))
    (d : Dir) (a b s sib : Tree (Group E)) (g p v : Group E) (hsib : sib.color = .black)
    (h : Focus base ix path
      (Tree.branch d .black (Tree.branch d .red (Tree.branch d .red a g b) p s) v sib)) :
    ∃ ix', Idx.insertColorSide d ix g.head p.head v.head = some (g.head, ix') ∧
      Focus base ix' path
        (Tree.branch d .black (Tree.branch d .red a g b) p (Tree.branch d .red s v sib)) := by
  have hv := focus_node base ix path d .black _ _ v h
  have hp := (focus_child _ _ _ _ _ _ _ _).mp h
  have hg := (focus_child _ _ _ _ _ _ _ _).mp hp
  have htmp : ix.isRed ((ix.node v.head).child d.flip) = false := by
    rw [hv, cell_child_flip, isRed_ptr ix.node ix.root _ sib hp.ctx.2.2.1, hsib]
    rfl
  have hside : (ix.node p.head).child d.flip ≠ some g.head := by
    rw [focus_node base ix _ d .red _ _ p hp, cell_child_flip]
    exact focus_ptr_ne base ix _ _ _ g.head hg (ptr_branch _ _ _ _ _)
  obtain ⟨ix', hrot, h'⟩ := insert_finish base ix path d _ s sib p v h
  refine ⟨ix', ?_, h'⟩
  simp only [Idx.insertColorSide, htmp, hside, if_false, Bool.false_eq_true, Option.bind_eq_bind,
    Option.bind_some, hrot]

/-- A black uncle and a red node on the inner side. -/
theorem insertColorSide_inner (base : E → Node E) (ix : Idx E) (path : List (Frame (Group E)))
    (d : Dir) (a b s sib : Tree (Group E)) (g p v : Group E) (hsib : sib.color = .black)
    (h : Focus base ix path
      (Tree.branch d .black (Tree.branch d .red s p (Tree.branch d .red a g b)) v sib)) :
    ∃ ix', Idx.insertColorSide d ix g.head p.head v.head = some (p.head, ix') ∧
      Focus base ix' path
        (Tree.branch d .black (Tree.branch d .red s p a) g (Tree.branch d .red b v sib)) := by
  have hv := focus_node base ix path d .black _ _ v h
  have hp := (focus_child _ _ _ _ _ _ _ _).mp h
  have htmp : ix.isRed ((ix.node v.head).child d.flip) = false := by
    rw [hv, cell_child_flip, isRed_ptr ix.node ix.root _ sib hp.ctx.2.2.1, hsib]
    rfl
  have hside : (ix.node p.head).child d.flip = some g.head := by
    rw [focus_node base ix _ d .red _ _ p hp, cell_child_flip, ptr_branch]
  obtain ⟨ix1, hrot1, h1⟩ := rotate_focus base ix _ d .red .red s a b p g hp
  obtain ⟨ix', hrot, h'⟩ := insert_finish base ix1 path d _ b sib g v
    ((focus_child _ _ _ _ _ _ _ _).mpr h1)
  refine ⟨ix', ?_, h'⟩
  simp only [Idx.insertColorSide, htmp, hside, if_true, Bool.false_eq_true, if_false,
    Option.bind_eq_bind, Option.bind_some, hrot1, hrot]

/-! ## The loop -/

/-- Below a black node there is nothing to repair. -/
theorem insertColor_black (base : E → Node E) (ix : Idx E) (fuel : ℕ)
    (path : List (Frame (Group E))) (d e : Dir) (a b sib : Tree (Group E)) (g v : Group E) (n : ℕ)
    (h : Focus base ix path (Tree.branch e .black (Tree.branch d .red a g b) v sib))
    (hb : Bal (fill path (Tree.branch e .black (Tree.branch d .red a g b) v sib)) .black n) :
    ∃ ix', Idx.insertColor (fuel + 1) ix g.head = some ix' ∧ Focus base ix' []
      (fill path (Tree.branch e .black (Tree.branch d .red a g b) v sib)) := by
  have hg := focus_node base ix _ d .red a b g ((focus_child _ _ _ _ _ _ _ _).mp h)
  have hv := focus_node base ix path e .black _ _ v h
  have hpar : (ix.node g.head).parent = some v.head := by
    rw [hg, cell_parent]
    rfl
  have hcol : (ix.node v.head).color ≠ .red := by
    rw [hv, cell_color]
    exact fun hc => NodeColor.noConfusion hc
  obtain ⟨ix', hroot, h'⟩ := blackenRoot_black base ix _ n ((focus_root _ _ _ _).mp h) hb
    (fill_ne_nil path _ (by cases e <;> simp [Tree.branch]))
  refine ⟨ix', ?_, h'⟩
  simp only [Idx.insertColor, hpar, hcol, if_false, hroot]

/-- **The repair loop of `INSERT`.** From a red node in a place that accepts a black one, the loop
makes the whole tree balanced and keeps the order of the rows. -/
theorem insertColor_focus (base : E → Node E) (fuel : ℕ) (ix : Idx E)
    (path : List (Frame (Group E))) (d : Dir) (a b : Tree (Group E)) (g : Group E) (n : ℕ)
    (hfuel : path.length < fuel) (h : Focus base ix path (Tree.branch d .red a g b))
    (ha : Bal a .black n) (hb : Bal b .black n) (hpath : Accepts path .black n) :
    ∃ ix' t' m, Idx.insertColor fuel ix g.head = some ix' ∧ Focus base ix' [] t' ∧
      Bal t' .black m ∧ t'.toList = (fill path (Tree.branch d .red a g b)).toList := by
  induction fuel generalizing ix path d a b g n with
  | zero => omega
  | succ fuel ih =>
    have hg := focus_node base ix path d .red a b g h
    cases hpath with
    | root =>
      have hpar : (ix.node g.head).parent = none := by
        rw [hg, cell_parent]
        rfl
      obtain ⟨ix', hroot, h'⟩ := blackenRoot_focus base ix d .red a b g h
      refine ⟨ix', _, n + 1, ?_, h', bal_branch_black.mpr ⟨_, _, ha, hb⟩,
        toList_branch_congr d .black .red a a b b g rfl rfl⟩
      simp only [Idx.insertColor, hpar, hroot]
    | @black e v sib rest _ _ c' hs hrest =>
      have hup := (focus_cons _ _ _ _ _).mp h
      obtain ⟨m, hm⟩ := hrest.fill (bal_branch_black.mpr
        ⟨_, _, bal_branch_red.mpr ⟨ha, hb⟩, hs⟩ : Bal (Tree.branch e .black _ v sib) .black _)
      obtain ⟨ix', hins, h'⟩ := insertColor_black base ix fuel rest d e a b sib g v m hup hm
      exact ⟨ix', _, m, hins, h', hm, rfl⟩
    | @red e v s rest _ hs hrest =>
      -- A red parent has a black parent of its own.
      cases hrest with
      | @black d2 w sib rest2 _ _ c' hsib hrest2 =>
        have hup := (focus_cons _ _ _ _ _).mp h
        have hup2 := (focus_cons _ _ _ _ _).mp hup
        have hv := focus_node base ix _ e .red _ s v hup
        have hpar : (ix.node g.head).parent = some v.head := by
          rw [hg, cell_parent]
          rfl
        have hcol : (ix.node v.head).color = .red := by
          rw [hv, cell_color]
          rfl
        have hgpar : (ix.node v.head).parent = some w.head := by
          rw [hv, cell_parent]
          rfl
        have hside := focus_side base ix rest2 ⟨d2, .black, w, sib⟩ _ v.head hup (ptr_branch _ _ _ _ _)
        have hstep : Idx.insertColor (fuel + 1) ix g.head =
            (Idx.insertColorSide d2 ix g.head v.head w.head).bind fun r =>
              Idx.insertColor fuel r.2 r.1 := by
          simp only [Idx.insertColor, hpar, hcol, if_true, hgpar, Option.bind_eq_bind,
            Option.bind_some, hside]
        cases c' with
        | red =>
          obtain ⟨x, y, u, rfl⟩ : ∃ x y u, sib = Tree.branch d2 .red x u y := by
            cases hsib with
            | red h1 h2 =>
              obtain ⟨x, y, hxy⟩ := Tree.node_eq_branch d2 .red _ _ _
              exact ⟨x, y, _, hxy⟩
          obtain ⟨ix1, hround, h1⟩ := insertColorSide_red base ix rest2 d2 e _ s x y v w u g.head hup2
          have hlist := toList_fill_congr rest2 _ _ (toList_branch_congr d2 .red .black _ _ _ _ w
            (toList_branch_congr e .black .red (Tree.branch d .red a g b) _ s s v rfl rfl)
            (toList_branch_congr d2 .black .red x x y y u rfl rfl))
          obtain ⟨ix', t', m, hins, h', hbal, htl⟩ := ih ix1 rest2 d2 _ _ w (n + 1)
            (by simp only [List.length_cons] at hfuel; omega) h1
            (bal_branch_black.mpr ⟨_, _, bal_branch_red.mpr ⟨ha, hb⟩, hs⟩)
            (bal_branch_black.mpr ⟨_, _, (bal_branch_red.mp hsib).1, (bal_branch_red.mp hsib).2⟩)
            hrest2
          refine ⟨ix', t', m, ?_, h', hbal, htl.trans hlist⟩
          rw [hstep, hround]
          exact hins
        | black =>
          obtain ⟨a', b', ht, hab⟩ := Tree.branch_eq_branch d d2 .red a b g
          have ha' : Bal a' .black n := by
            rcases hab with ⟨rfl, -⟩ | ⟨rfl, -⟩
            · exact ha
            · exact hb
          have hb' : Bal b' .black n := by
            rcases hab with ⟨-, rfl⟩ | ⟨-, rfl⟩
            · exact hb
            · exact ha
          obtain ⟨k, rfl⟩ : ∃ k, fuel = k + 1 := by
            refine ⟨fuel - 1, ?_⟩
            simp only [List.length_cons] at hfuel
            omega
          simp only [Frame.attach, ht] at hup2
          rcases e.eq_or_flip d2 with rfl | rfl
          · obtain ⟨ix1, hround, h1⟩ :=
              insertColorSide_outer base ix rest2 e a' b' s sib g v w hsib.color_eq hup2
            obtain ⟨m, hm⟩ := hrest2.fill (bal_branch_black.mpr ⟨_, _,
              bal_branch_red.mpr ⟨ha', hb'⟩, bal_branch_red.mpr ⟨hs, hsib⟩⟩ :
              Bal (Tree.branch e .black _ v _) .black _)
            obtain ⟨ix', hins, h'⟩ := insertColor_black base ix1 k rest2 e e a' b' _ g v m h1 hm
            refine ⟨ix', _, m, ?_, h', hm, ?_⟩
            · rw [hstep, hround]
              exact hins
            · simp only [fill, Frame.attach, ht]
              exact toList_fill_congr rest2 _ _ (toList_rotate e .black .red .black .red _ s sib v w).symm
          · rw [Tree.branch_flip] at hup2
            obtain ⟨ix1, hround, h1⟩ :=
              insertColorSide_inner base ix rest2 d2 a' b' s sib g v w hsib.color_eq hup2
            obtain ⟨m, hm⟩ := hrest2.fill (bal_branch_black.mpr ⟨_, _,
              bal_branch_red.mpr ⟨hs, ha'⟩, bal_branch_red.mpr ⟨hb', hsib⟩⟩ :
              Bal (Tree.branch d2 .black _ g _) .black _)
            obtain ⟨ix', hins, h'⟩ := insertColor_black base ix1 k rest2 d2 d2 s a' _ v g m h1 hm
            refine ⟨ix', _, m, ?_, h', hm, ?_⟩
            · rw [hstep, hround]
              exact hins
            · simp only [fill, Frame.attach, ht, Tree.branch_flip]
              refine toList_fill_congr rest2 _ _ ?_
              rw [toList_rotate d2 .black .red .black .red s a' _ v g]
              rw [toList_rotate d2 .black .red .black .red s (Tree.branch d2 .red a' g b') sib v w]
              exact toList_branch_congr d2 _ _ _ _ _ _ v rfl
                (toList_rotate d2 .red .red .red .red a' b' sib g w).symm

/-! ## The descent -/

/-- The comparison made last agrees with the side of the hole. -/
def SideOf (comp : ℤ) (path : List (Frame (Group E))) : Prop :=
  ∀ f rest, path = f :: rest → (comp < 0 ↔ f.dir = .left)

omit [DecidableEq E] in
/-- Where the descent of `INSERT` ends: at the group of the key, or at the empty place for it. -/
theorem descend_focus (base : E → Node E) (cmp : E → ℤ) (ix : Idx E) (x : E)
    (t : Tree (Group E)) (path : List (Frame (Group E))) (fuel : ℕ) (comp : ℤ)
    (h : Focus base ix path t) (hfuel : t.toList.length ≤ fuel) (hcomp : SideOf comp path) :
    (∃ inner c l g r, fill inner (.node c l g r) = t ∧
      Idx.descend cmp ix fuel (ptr t) (parentOf path) comp =
        some (some g.head, some g.head, cmp g.head) ∧
      (Cut cmp t.toList → lookup cmp t.toList = some g.head ∧
        (fill inner (.node c l ⟨g.head, x :: g.chain⟩ r)).toList = addRow cmp x t.toList)) ∨
    (∃ inner comp', fill inner .nil = t ∧ SideOf comp' (inner ++ path) ∧
      Idx.descend cmp ix fuel (ptr t) (parentOf path) comp =
        some (none, parentOf (inner ++ path), comp') ∧
      (Cut cmp t.toList → lookup cmp t.toList = none ∧
        (fill inner (Tree.branch .left .red .nil ⟨x, []⟩ .nil)).toList = addRow cmp x t.toList)) := by
  induction t generalizing path fuel comp with
  | nil =>
    refine .inr ⟨[], comp, rfl, hcomp, ?_, fun _ => ⟨rfl, rfl⟩⟩
    cases fuel <;> rfl
  | node c l g r ihl ihr =>
    have hg := focus_node base ix path .left c l r g h
    simp only [Tree.toList, List.length_append, List.length_cons] at hfuel
    obtain ⟨k, rfl⟩ : ∃ k, fuel = k + 1 := ⟨fuel - 1, by omega⟩
    have hdown : Idx.descend cmp ix (k + 1) (ptr (.node c l g r)) (parentOf path) comp =
        if cmp g.head < 0 then Idx.descend cmp ix k (ptr l) (some g.head) (cmp g.head)
        else if 0 < cmp g.head then Idx.descend cmp ix k (ptr r) (some g.head) (cmp g.head)
        else some (some g.head, some g.head, cmp g.head) := by
      simp only [ptr, Idx.descend, hg]
      rfl
    rcases Int.lt_trichotomy (cmp g.head) 0 with hlt | heq | hgt
    · have hside : SideOf (cmp g.head) (⟨.left, c, g, r⟩ :: path) := by
        intro f rest hf
        cases hf
        exact ⟨fun _ => rfl, fun _ => hlt⟩
      have hsub : Cut cmp (Rb.Tree.node c l g r).toList → Cut cmp l.toList ∧
          lookup cmp (Rb.Tree.node c l g r).toList = lookup cmp l.toList := by
        intro hcut
        obtain ⟨hcl, -, -, hgr⟩ := hcut.sides
        refine ⟨hcl, lookup_lt cmp l.toList (g :: r.toList) fun k hk => ?_⟩
        rcases List.mem_cons.mp hk with rfl | hk
        · exact hlt
        · exact hgr (by omega) k hk
      rcases ihl _ k (cmp g.head) ((focus_child _ _ _ .left _ _ _ _).mp h) (by omega) hside with
        ⟨inner, c', l', g', r', hfill, hdesc, hlist⟩ | ⟨inner, comp', hfill, hsd, hdesc, hlist⟩
      · refine .inl ⟨inner ++ [⟨.left, c, g, r⟩], c', l', g', r', ?_, ?_, fun hcut => ?_⟩
        · rw [fill_append, hfill]
          rfl
        · rw [hdown, if_pos hlt]
          exact hdesc
        · obtain ⟨hcl, hlk⟩ := hsub hcut
          refine ⟨hlk.trans (hlist hcl).1, ?_⟩
          rw [fill_append, Tree.toList, addRow_lt cmp x l.toList r.toList g hlt, ← (hlist hcl).2]
          rfl
      · refine .inr ⟨inner ++ [⟨.left, c, g, r⟩], comp', ?_, ?_, ?_, fun hcut => ?_⟩
        · rw [fill_append, hfill]
          rfl
        · rwa [List.append_assoc]
        · rw [hdown, if_pos hlt, List.append_assoc]
          exact hdesc
        · obtain ⟨hcl, hlk⟩ := hsub hcut
          refine ⟨hlk.trans (hlist hcl).1, ?_⟩
          rw [fill_append, Tree.toList, addRow_lt cmp x l.toList r.toList g hlt, ← (hlist hcl).2]
          rfl
    · refine .inl ⟨[], c, l, g, r, rfl, ?_, fun hcut => ?_⟩
      · rw [hdown, if_neg (by omega), if_neg (by omega)]
      · obtain ⟨-, -, hgl, -⟩ := hcut.sides
        refine ⟨?_, (addRow_eq cmp x l.toList r.toList g (hgl (by omega)) heq).symm⟩
        rw [Tree.toList, lookup_gt cmp l.toList _ (hgl (by omega))]
        simp [lookup, heq]
    · have hside : SideOf (cmp g.head) (⟨.right, c, g, l⟩ :: path) := by
        intro f rest hf
        cases hf
        exact ⟨fun hlt => absurd hlt (by omega), fun hd => by cases hd⟩
      have hsplit : (Rb.Tree.node c l g r).toList = (l.toList ++ [g]) ++ r.toList := by
        simp [Tree.toList]
      have hsub : Cut cmp (Rb.Tree.node c l g r).toList → Cut cmp r.toList ∧
          ∀ k ∈ l.toList ++ [g], 0 < cmp k.head := by
        intro hcut
        obtain ⟨-, hcr, hgl, -⟩ := hcut.sides
        refine ⟨hcr, fun k hk => ?_⟩
        rcases List.mem_append.mp hk with hk | hk
        · exact hgl (by omega) k hk
        · rw [List.mem_singleton.mp hk]
          exact hgt
      rcases ihr _ k (cmp g.head) ((focus_child_flip _ _ _ .left _ _ _ _).mp h) (by omega)
        hside with
        ⟨inner, c', l', g', r', hfill, hdesc, hlist⟩ | ⟨inner, comp', hfill, hsd, hdesc, hlist⟩
      · refine .inl ⟨inner ++ [⟨.right, c, g, l⟩], c', l', g', r', ?_, ?_, fun hcut => ?_⟩
        · rw [fill_append, hfill]
          rfl
        · rw [hdown, if_neg (by omega), if_pos hgt]
          exact hdesc
        · obtain ⟨hcr, hbefore⟩ := hsub hcut
          rw [hsplit, lookup_gt cmp _ _ hbefore, addRow_gt cmp x _ _ hbefore]
          refine ⟨(hlist hcr).1, ?_⟩
          rw [fill_append, ← (hlist hcr).2, List.append_assoc]
          rfl
      · refine .inr ⟨inner ++ [⟨.right, c, g, l⟩], comp', ?_, ?_, ?_, fun hcut => ?_⟩
        · rw [fill_append, hfill]
          rfl
        · rwa [List.append_assoc]
        · rw [hdown, if_neg (by omega), if_pos hgt, List.append_assoc]
          exact hdesc
        · obtain ⟨hcr, hbefore⟩ := hsub hcut
          rw [hsplit, lookup_gt cmp _ _ hbefore, addRow_gt cmp x _ _ hbefore]
          refine ⟨(hlist hcr).1, ?_⟩
          rw [fill_append, ← (hlist hcr).2, List.append_assoc]
          rfl

/-! ## `INSERT` -/

/-- **`INSERT`.** The row is added behind the head of a group, which is the answer, or as a group of
its own. If the key cuts the groups, the group is that of the key and the place is its place. -/
theorem insert_focus (fuel : ℕ) (cmp : E → ℤ) (ix : Idx E) (t : Tree (Group E)) (m : ℕ) (x : E)
    (h : Focus (fun _ => Node.zero) ix [] t) (hb : Bal t .black m) (hx : x ∉ rows t)
    (hfuel : t.toList.length < fuel) :
    ∃ ix' t' m' dup, Idx.insert fuel cmp ix x = some (dup, ix') ∧
      Focus (fun _ => Node.zero) ix' [] t' ∧ Bal t' .black m' ∧
      Added x t.toList t'.toList dup ∧
      (Cut cmp t.toList → dup = lookup cmp t.toList ∧ t'.toList = addRow cmp x t.toList) := by
  have hroot : ix.root = ptr t := h.ctx
  have hpar : parentOf ([] : List (Frame (Group E))) = none := rfl
  rcases descend_focus _ cmp ix x t [] fuel 0 h (by omega) (fun f rest hf => by cases hf) with
    ⟨inner, c, l, g, r, hfill, hdesc, hlist⟩ | ⟨inner, comp, hfill, hside, hdesc, hlist⟩
  · rw [hpar] at hdesc
    subst hfill
    have hin := (focus_root _ _ _ _).mpr h
    have hx' : x ∉ rows (Rb.Tree.node c l g r) ++ pathRows inner := by
      rwa [(rows_fill inner (Rb.Tree.node c l g r)).mem_iff]
    rw [List.mem_append, not_or] at hx'
    have hnew := chainInsert_focus _ ix inner .left c l r g x hin hx'.1 hx'.2
    obtain ⟨c', n, hbal, hacc⟩ := hb.accepts
    obtain ⟨m', hm'⟩ := hacc.fill (hbal.congr_payload ⟨g.head, x :: g.chain⟩)
    refine ⟨_, _, m', some g.head, ?_, (focus_root _ _ _ _).mp hnew, hm', ?_, fun hcut => ?_⟩
    · simp only [Idx.insert, hroot, hdesc, Option.bind_eq_bind, Option.bind_some]
    · have hadd := Added.chained (x := x) (before inner ++ l.toList) g (r.toList ++ after inner)
      simpa [toList_fill, Tree.branch, Tree.toList] using hadd
    · exact ⟨(hlist hcut).1.symm, (hlist hcut).2⟩
  · rw [hpar] at hdesc
    rw [List.append_nil] at hdesc hside
    subst hfill
    have hlen := length_path_le inner (.nil : Tree (Group E))
    have hx' : x ∉ pathRows inner := by
      have hperm := rows_fill inner (.nil : Tree (Group E))
      rwa [← hperm.mem_iff] at hx
    obtain ⟨c', n, hbal, hacc⟩ := hb.accepts
    cases hbal
    have hleaf := leafInsert_focus ix inner comp x ((focus_root _ _ _ _).mpr h) hx' hside
    obtain ⟨ix', t', m', hins, h', hb', htl⟩ := insertColor_focus _ fuel _ inner .left .nil .nil
      ⟨x, []⟩ 0 (by omega) hleaf .nil .nil hacc
    refine ⟨ix', t', m', none, ?_, h', hb', ?_, fun hcut => ?_⟩
    · simp only [Idx.insert, hroot, hdesc, Option.bind_eq_bind, Option.bind_some, hins]
    · rw [htl, toList_fill, toList_fill]
      have hadd := Added.fresh (x := x) (before inner) (after inner)
      simpa [Tree.branch, Tree.toList] using hadd
    · exact ⟨(hlist hcut).1.symm, htl.trans (hlist hcut).2⟩

end Mand.Index
