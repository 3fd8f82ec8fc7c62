import Mand.Index.Rep

/-! # Pointer surgery

What the small pointer programs do to a represented tree: recolouring, rotation, giving a place to
another row, hanging in and taking out. -/
namespace Mand.Index
open Mand.Rb Mand.Groups
set_option autoImplicit false

variable {E : Type} [DecidableEq E]

/-- The side of the hole as the code finds it, for a hole that is not empty. -/
theorem focus_side (base : E → Node E) (ix : Idx E) (path : List (Frame (Group E)))
    (f : Frame (Group E)) (t : Tree (Group E)) (x : E) (h : Focus base ix (f :: path) t)
    (hx : ptr t = some x) :
    (if (ix.node f.val.head).left = some x then Dir.left else Dir.right) = f.dir := by
  rw [focus_frame base ix path f t h]
  cases hd : f.dir with
  | left => exact if_pos hx
  | right => exact if_neg (focus_ptr_ne base ix path f t x h hx)

/-! ## Reading fields after a store -/

theorem modify_node (ix : Idx E) (e x : E) (f : Node E → Node E) :
    (ix.modify e f).node x = if x = e then f (ix.node e) else ix.node x := by
  simp only [Idx.modify, Function.update_apply]

@[simp] theorem modify_node_self (ix : Idx E) (e : E) (f : Node E → Node E) :
    (ix.modify e f).node e = f (ix.node e) := by
  rw [modify_node, if_pos rfl]

theorem modify_node_ne (ix : Idx E) (e x : E) (f : Node E → Node E) (h : x ≠ e) :
    (ix.modify e f).node x = ix.node x := by
  rw [modify_node, if_neg h]

@[simp] theorem modify_root (ix : Idx E) (e : E) (f : Node E → Node E) :
    (ix.modify e f).root = ix.root := rfl

theorem setParentOf_node (ix : Idx E) (p par : Option E) (x : E) :
    (ix.setParentOf p par).node x =
      if p = some x then { ix.node x with parent := par } else ix.node x := by
  cases p with
  | none => simp [Idx.setParentOf]
  | some e =>
    rw [Idx.setParentOf, Idx.setParent, modify_node]
    by_cases h : x = e
    · simp [h]
    · simp [h, Ne.symm h]

@[simp] theorem setParentOf_root (ix : Idx E) (p par : Option E) :
    (ix.setParentOf p par).root = ix.root := by
  cases p <;> rfl

theorem setPrevOf_node (ix : Idx E) (p q : Option E) (x : E) :
    (ix.setPrevOf p q).node x = if p = some x then { ix.node x with prev := q } else ix.node x := by
  cases p with
  | none => simp [Idx.setPrevOf]
  | some e =>
    rw [Idx.setPrevOf, Idx.setPrev, modify_node]
    by_cases h : x = e
    · simp [h]
    · simp [h, Ne.symm h]

theorem setNextOf_node (ix : Idx E) (p q : Option E) (x : E) :
    (ix.setNextOf p q).node x = if p = some x then { ix.node x with next := q } else ix.node x := by
  cases p with
  | none => simp [Idx.setNextOf]
  | some e =>
    rw [Idx.setNextOf, Idx.setNext, modify_node]
    by_cases h : x = e
    · simp [h]
    · simp [h, Ne.symm h]

@[simp] theorem setPrevOf_root (ix : Idx E) (p q : Option E) : (ix.setPrevOf p q).root = ix.root := by
  cases p <;> rfl

@[simp] theorem setNextOf_root (ix : Idx E) (p q : Option E) : (ix.setNextOf p q).root = ix.root := by
  cases p <;> rfl

theorem replaceChild_node (ix : Idx E) (par : Option E) (old : E) (new : Option E) (x : E) :
    (ix.replaceChild par old new).node x =
      if par = some x then
        (if (ix.node x).left = some old then (ix.node x).setChild .left new
          else (ix.node x).setChild .right new)
      else ix.node x := by
  cases par with
  | none => simp [Idx.replaceChild]
  | some p =>
    rw [Idx.replaceChild]
    by_cases h : x = p
    · subst h
      split_ifs <;> simp_all [Idx.setChild]
    · split_ifs <;> simp_all [Idx.setChild, modify_node_ne]

theorem replaceChild_root (ix : Idx E) (par : Option E) (old : E) (new : Option E) :
    (ix.replaceChild par old new).root = if par = none then new else ix.root := by
  cases par with
  | none => rfl
  | some p =>
    rw [Idx.replaceChild]
    split_ifs <;> simp_all [Idx.setChild]

/-! ## Redirected parents and children -/

/-- A subtree gets a new parent. -/
theorem rep_reparent (h h' : E → Node E) (par par' : Option E) (t : Tree (Group E))
    (hn : (rows t).Nodup)
    (he : ∀ x ∈ rows t, h' x = if ptr t = some x then { h x with parent := par' } else h x)
    (hr : Rep h par t) : Rep h' par' t := by
  cases t with
  | nil => trivial
  | node c l g r =>
    obtain ⟨h1, h2, h3, h4⟩ := hr
    simp only [rows, Group.members, List.cons_append, List.nodup_cons, List.mem_append,
      not_or] at hn
    have hne : ∀ x, x ∈ g.chain ∨ x ∈ rows l ∨ x ∈ rows r → h' x = h x := by
      intro x hx
      have hxg : g.head ≠ x := by
        rintro rfl
        tauto
      have hmem : x ∈ rows (.node c l g r) := by
        simp only [rows, Group.members, List.cons_append, List.mem_cons, List.mem_append]
        exact .inr hx
      rw [he x hmem, if_neg]
      simpa [ptr] using hxg
    refine ⟨?_, ?_, ?_, ?_⟩
    · rw [he g.head (by simp [rows, Group.members]), h1]
      refine (if_pos rfl).trans ?_
      exact cell_setParent _ _ _ _ _ _ _
    · exact chainRep_congr h h' _ _ (fun x hx => hne x (.inl hx)) h2
    · exact rep_congr h h' _ _ (fun x hx => hne x (.inr (.inl hx))) h3
    · exact rep_congr h h' _ _ (fun x hx => hne x (.inr (.inr hx))) h4

/-- Store a pointer in the hole of a path. -/
def setHole (ix : Idx E) (path : List (Frame (Group E))) (new : Option E) : Idx E :=
  match path with
  | [] => { ix with root := new }
  | f :: _ => ix.setChild f.val.head f.dir new

theorem pathRep_setHole (ix ix' : Idx E) (p new : Option E) (path : List (Frame (Group E)))
    (hn : (pathRows path).Nodup) (hroot : ix'.root = (setHole ix path new).root)
    (he : ∀ x ∈ pathRows path, ix'.node x = (setHole ix path new).node x)
    (hr : PathRep ix p path) : PathRep ix' new path := by
  cases path with
  | nil => exact hroot
  | cons f path =>
    obtain ⟨h1, h2, h3, h4⟩ := hr
    simp only [pathRows, Group.members, List.cons_append, List.nodup_cons, List.mem_append,
      not_or] at hn
    simp only [pathRows, Group.members, List.cons_append, List.mem_cons, List.mem_append] at he
    have hne : ∀ x, x ∈ f.val.chain ∨ x ∈ rows f.sib ∨ x ∈ pathRows path →
        ix'.node x = ix.node x := by
      intro x hx
      have hxf : x ≠ f.val.head := by
        rintro rfl
        tauto
      rw [he x (.inr hx), setHole, Idx.setChild, modify_node_ne _ _ _ _ hxf]
    refine ⟨?_, ?_, ?_, ?_⟩
    · rw [he f.val.head (.inl rfl), setHole, Idx.setChild, modify_node_self, h1, cell_setChild]
    · exact chainRep_congr _ _ _ _ (fun x hx => hne x (.inl hx)) h2
    · exact rep_congr _ _ _ _ (fun x hx => hne x (.inr (.inl hx))) h3
    · exact pathRep_congr ix ix' _ path hroot (fun x hx => hne x (.inr (.inr hx))) h4

/-- The code finds the hole by the pointer in it. -/
theorem replaceChild_eq_setHole (ix : Idx E) (old : E) (new : Option E)
    (path : List (Frame (Group E))) (hold : old ∉ pathRows path) (hr : PathRep ix (some old) path) :
    ix.replaceChild (parentOf path) old new = setHole ix path new := by
  cases path with
  | nil => rfl
  | cons f path =>
    have hsib : ptr f.sib ≠ some old := by
      intro hp
      refine hold ?_
      simp only [pathRows, List.mem_append]
      exact .inr (.inl (ptr_mem f.sib old hp))
    have hpar : parentOf (f :: path) = some f.val.head := rfl
    rw [hpar, Idx.replaceChild, hr.1, setHole]
    cases hd : f.dir with
    | left => exact if_pos rfl
    | right => exact if_neg hsib

/-- The pointer in the hole is changed where the code finds it. -/
theorem pathRep_replaceChild (ix ix' : Idx E) (old : E) (new : Option E)
    (path : List (Frame (Group E))) (hold : old ∉ pathRows path) (hn : (pathRows path).Nodup)
    (hroot : ix'.root = (ix.replaceChild (parentOf path) old new).root)
    (he : ∀ x ∈ pathRows path, ix'.node x = (ix.replaceChild (parentOf path) old new).node x)
    (hr : PathRep ix (some old) path) : PathRep ix' new path := by
  rw [replaceChild_eq_setHole ix old new path hold hr] at hroot he
  exact pathRep_setHole ix ix' (some old) new path hn hroot he hr

/-! ## Recolouring -/

theorem focus_setColor (base : E → Node E) (ix : Idx E) (path : List (Frame (Group E))) (d : Dir)
    (c c' : Color) (a b : Tree (Group E)) (g : Group E)
    (h : Focus base ix path (Tree.branch d c a g b)) :
    Focus base (ix.setColor g.head (nodeColor c')) path (Tree.branch d c' a g b) := by
  obtain ⟨h1, h2, h3, h4⟩ := (rep_branch _ _ _ _ _ _ _).mp h.rep
  have hperm : (rows (Tree.branch d c a g b)).Perm (rows (Tree.branch d c' a g b)) :=
    (rows_branch d c a b g).trans (rows_branch d c' a b g).symm
  have hn := ((rows_branch d c a b g).append_right (pathRows path)).nodup_iff.mp h.nodup
  simp only [Group.members, List.cons_append, List.append_assoc, List.nodup_cons, List.mem_append,
    not_or] at hn
  have hne : ∀ x, x ≠ g.head → (ix.setColor g.head (nodeColor c')).node x = ix.node x :=
    fun x hx => modify_node_ne ix g.head x _ hx
  have hout : ∀ x, x ∈ g.chain ∨ x ∈ rows a ∨ x ∈ rows b ∨ x ∈ pathRows path → x ≠ g.head := by
    rintro x hx rfl
    tauto
  refine ⟨?_, ?_, ?_, ?_⟩
  · rw [rep_branch]
    refine ⟨?_, ?_, ?_, ?_⟩
    · rw [Idx.setColor, modify_node_self, h1]
      exact cell_setColor _ _ _ _ _ _ _
    · exact chainRep_congr _ _ _ _ (fun x hx => hne x (hout x (.inl hx))) h2
    · exact rep_congr _ _ _ _ (fun x hx => hne x (hout x (.inr (.inl hx)))) h3
    · exact rep_congr _ _ _ _ (fun x hx => hne x (hout x (.inr (.inr (.inl hx))))) h4
  · rw [ptr_branch]
    have hctx := h.ctx
    rw [ptr_branch] at hctx
    exact pathRep_congr ix _ _ _ rfl (fun x hx => hne x (hout x (.inr (.inr (.inr hx))))) hctx
  · exact (hperm.append_right _).nodup_iff.mp h.nodup
  · intro x hx hy
    have hxg : x ≠ g.head := by
      rintro rfl
      exact hx ((mem_rows_branch _ _ _ _ _ _).mpr (.inl List.mem_cons_self))
    rw [hne x hxg]
    exact h.rest x (fun hm => hx (hperm.mem_iff.mp hm)) hy

/-! ## Rotation -/

theorem count_rows_branch (d : Dir) (c : Color) (a b : Tree (Group E)) (g : Group E) (x : E) :
    (rows (Tree.branch d c a g b)).count x =
      g.members.count x + (rows a).count x + (rows b).count x := by
  rw [(rows_branch d c a b g).count_eq, List.count_append, List.count_append, Nat.add_assoc]

theorem rows_rotate (d : Dir) (c c' : Color) (a b e : Tree (Group E)) (g k : Group E) :
    (rows (Tree.branch d c a g (Tree.branch d c' b k e))).Perm
      (rows (Tree.branch d c' (Tree.branch d c a g b) k e)) := by
  rw [List.perm_iff_count]
  intro x
  simp only [count_rows_branch]
  omega

theorem rotate_focus (base : E → Node E) (ix : Idx E) (path : List (Frame (Group E))) (d : Dir)
    (c c' : Color) (a b e : Tree (Group E)) (g k : Group E)
    (h : Focus base ix path (Tree.branch d c a g (Tree.branch d c' b k e))) :
    ∃ ix', Idx.rotate d ix g.head = some ix' ∧
      Focus base ix' path (Tree.branch d c' (Tree.branch d c a g b) k e) := by
  obtain ⟨hg, hgc, ha, htmp⟩ := (rep_branch _ _ _ _ _ _ _).mp h.rep
  obtain ⟨hk, hkc, hb, he⟩ := (rep_branch _ _ _ _ _ _ _).mp htmp
  rw [ptr_branch] at hg
  have hctx := h.ctx
  rw [ptr_branch] at hctx
  have hperm := rows_rotate d c c' a b e g k
  -- All rows involved are different.
  have hflat : (rows (Tree.branch d c a g (Tree.branch d c' b k e)) ++ pathRows path).Perm
      (g.head :: k.head :: (g.chain ++ (k.chain ++ (rows a ++ (rows b ++ (rows e ++
        pathRows path)))))) := by
    rw [List.perm_iff_count]
    intro x
    simp only [count_rows_branch, Group.members, List.count_append, List.count_cons]
    omega
  have hn := hflat.nodup_iff.mp h.nodup
  simp only [List.nodup_cons, List.mem_cons, List.mem_append, not_or] at hn
  obtain ⟨⟨hgk, hg1, hg2, hg3, hg4, hg5, hg6⟩, ⟨hk1, hk2, hk3, hk4, hk5, hk6⟩, hn⟩ := hn
  simp only [List.nodup_append, List.mem_append] at hn
  have hbg : ptr b ≠ some g.head := fun hp => hg4 (ptr_mem b _ hp)
  have hbk : ptr b ≠ some k.head := fun hp => hk4 (ptr_mem b _ hp)
  have hpg : parentOf path ≠ some g.head := fun hp => hg6 (parentOf_mem path _ hp)
  have hpk : parentOf path ≠ some k.head := fun hp => hk6 (parentOf_mem path _ hp)
  -- The stores of the rotation, one after the other.
  obtain ⟨ix1, h1⟩ : ∃ ix1, ix1 = ix.setChild g.head d.flip (ptr b) := ⟨_, rfl⟩
  obtain ⟨ix2, h2⟩ : ∃ ix2, ix2 = ix1.setParentOf (ptr b) (some g.head) := ⟨_, rfl⟩
  obtain ⟨ix3, h3⟩ : ∃ ix3, ix3 = ix2.setParent k.head (parentOf path) := ⟨_, rfl⟩
  obtain ⟨ix4, h4⟩ : ∃ ix4, ix4 = ix3.replaceChild (parentOf path) g.head (some k.head) :=
    ⟨_, rfl⟩
  obtain ⟨ix5, h5⟩ : ∃ ix5, ix5 = ix4.setChild k.head d (some g.head) := ⟨_, rfl⟩
  have e1 : ∀ x, ix1.node x =
      if x = g.head then cell d (ptr a) (ptr b) (parentOf path) c g.chain else ix.node x := by
    intro x
    rw [h1, Idx.setChild, modify_node, hg, cell_setChild_flip]
  have e2 : ∀ x, ix2.node x =
      if ptr b = some x then { ix1.node x with parent := some g.head } else ix1.node x := by
    intro x
    rw [h2, setParentOf_node]
  have e3 : ∀ x, ix3.node x =
      if x = k.head then cell d (ptr b) (ptr e) (parentOf path) c' k.chain else ix2.node x := by
    intro x
    rw [h3, Idx.setParent, modify_node, e2, if_neg hbk, e1, if_neg (Ne.symm hgk), hk,
      cell_setParent]
  have e3g : ix3.node g.head = cell d (ptr a) (ptr b) (parentOf path) c g.chain := by
    rw [e3, if_neg hgk, e2, if_neg hbg, e1, if_pos rfl]
  have hrot : Idx.rotate d ix g.head = some (ix5.setParent g.head (some k.head)) := by
    have r1 : (ix.node g.head).child d.flip = some k.head := by rw [hg, cell_child_flip]
    have r2 : (ix.node k.head).child d = ptr b := by rw [hk, cell_child]
    have r3 : (ix1.node k.head).child d = ptr b := by rw [e1, if_neg (Ne.symm hgk), r2]
    have r4 : (ix2.node g.head).parent = parentOf path := by
      rw [e2, if_neg hbg, e1, if_pos rfl, cell_parent]
    have r5 : (ix3.node g.head).parent = parentOf path := by rw [e3g, cell_parent]
    simp only [Idx.rotate, r1, Option.bind_eq_bind, Option.bind_some, r2, ← h1, r3, ← h2, r4, ← h3,
      r5, ← h4, ← h5]
  -- The nodes afterwards.
  have hother : ∀ x, x ≠ g.head → x ≠ k.head →
      (ix5.setParent g.head (some k.head)).node x =
        (ix3.replaceChild (parentOf path) g.head (some k.head)).node x := by
    intro x hxg hxk
    rw [Idx.setParent, modify_node_ne _ _ _ _ hxg, h5, Idx.setChild, modify_node_ne _ _ _ _ hxk, h4]
  have hsub : ∀ x, x ≠ g.head → x ≠ k.head → x ∉ pathRows path →
      (ix5.setParent g.head (some k.head)).node x =
        if ptr b = some x then { ix.node x with parent := some g.head } else ix.node x := by
    intro x hxg hxk hxp
    have hne : parentOf path ≠ some x := fun hp => hxp (parentOf_mem path x hp)
    rw [hother x hxg hxk, replaceChild_node, if_neg hne, e3, if_neg hxk, e2, e1, if_neg hxg]
  have hkeep : ∀ x, x ≠ g.head → x ≠ k.head → x ∉ pathRows path → x ∉ rows b →
      (ix5.setParent g.head (some k.head)).node x = ix.node x := by
    intro x hxg hxk hxp hxb
    rw [hsub x hxg hxk hxp, if_neg (fun hp => hxb (ptr_mem b x hp))]
  have hnew_k : (ix5.setParent g.head (some k.head)).node k.head =
      cell d (some g.head) (ptr e) (parentOf path) c' k.chain := by
    rw [Idx.setParent, modify_node_ne _ _ _ _ (Ne.symm hgk), h5, Idx.setChild, modify_node_self, h4,
      replaceChild_node, if_neg hpk, e3, if_pos rfl, cell_setChild]
  have hnew_g : (ix5.setParent g.head (some k.head)).node g.head =
      cell d (ptr a) (ptr b) (some k.head) c g.chain := by
    rw [Idx.setParent, modify_node_self, h5, Idx.setChild, modify_node_ne _ _ _ _ hgk, h4,
      replaceChild_node, if_neg hpg, e3g, cell_setParent]
  refine ⟨_, hrot, ?_, ?_, ?_, ?_⟩
  · rw [rep_branch, rep_branch, ptr_branch]
    refine ⟨hnew_k, ?_, ⟨hnew_g, ?_, ?_, ?_⟩, ?_⟩
    · refine chainRep_congr _ _ _ _ (fun x hx => hkeep x ?_ ?_ ?_ ?_) hkc
      all_goals grind
    · refine chainRep_congr _ _ _ _ (fun x hx => hkeep x ?_ ?_ ?_ ?_) hgc
      all_goals grind
    · refine rep_congr _ _ _ _ (fun x hx => hkeep x ?_ ?_ ?_ ?_) ha
      all_goals grind
    · refine rep_reparent _ _ _ _ b ?_ (fun x hx => hsub x ?_ ?_ ?_) hb
      all_goals grind
    · refine rep_congr _ _ _ _ (fun x hx => hkeep x ?_ ?_ ?_ ?_) he
      all_goals grind
  · rw [ptr_branch]
    refine pathRep_replaceChild ix _ g.head (some k.head) path hg6 (by grind) ?_ (fun x hx => ?_) hctx
    · rw [Idx.setParent, modify_root, h5, Idx.setChild, modify_root, h4, replaceChild_root,
        replaceChild_root, h3, Idx.setParent, modify_root, h2, setParentOf_root, h1, Idx.setChild,
        modify_root]
    · have hxg : x ≠ g.head := by grind
      have hxk : x ≠ k.head := by grind
      have hxb : ptr b ≠ some x := fun hp => by
        have := ptr_mem b x hp
        grind
      rw [hother x hxg hxk, replaceChild_node, replaceChild_node, e3, if_neg hxk, e2, if_neg hxb,
        e1, if_neg hxg]
  · exact (hperm.append_right _).nodup_iff.mp h.nodup
  · intro x hx hy
    have hx' : x ∉ rows (Tree.branch d c a g (Tree.branch d c' b k e)) :=
      fun hm => hx (hperm.mem_iff.mp hm)
    simp only [mem_rows_branch, Group.members, List.mem_cons, not_or] at hx
    rw [hkeep x hx.2.1.1.1 hx.1.1 hy hx.2.1.2.2]
    exact h.rest x hx' hy

/-! ## Hanging a row in -/

/-- A new red leaf in an empty place. -/
theorem leafInsert_focus (ix : Idx E) (path : List (Frame (Group E))) (comp : ℤ) (x : E)
    (h : Focus (fun _ => Node.zero) ix path .nil) (hx : x ∉ pathRows path)
    (hcomp : ∀ f rest, path = f :: rest → (comp < 0 ↔ f.dir = .left)) :
    Focus (fun _ => Node.zero) (ix.leafInsert (parentOf path) comp x) path
      (Tree.branch .left .red .nil ⟨x, []⟩ .nil) := by
  have hzero := h.rest x List.not_mem_nil hx
  have hn : (pathRows path).Nodup := h.nodup
  obtain ⟨ix1, h1⟩ : ∃ ix1, ix1 = ix.modify x fun n =>
      { n with parent := parentOf path, left := none, right := none, color := .red } := ⟨_, rfl⟩
  have hset : ix.leafInsert (parentOf path) comp x = setHole ix1 path (some x) := by
    cases path with
    | nil => rw [h1]; rfl
    | cons f rest =>
      have hc := hcomp f rest rfl
      rw [h1]
      simp only [Idx.leafInsert, parentOf, List.head?_cons, Option.map_some, setHole]
      cases hd : f.dir with
      | left => rw [if_pos (hc.mpr hd)]
      | right =>
        rw [if_neg]
        intro hlt
        rw [hc.mp hlt] at hd
        cases hd
  have hnode : ∀ y, y ∉ pathRows path → (setHole ix1 path (some x)).node y = ix1.node y := by
    intro y hy
    cases path with
    | nil => rfl
    | cons f rest =>
      rw [setHole, Idx.setChild, modify_node_ne]
      rintro rfl
      exact hy (parentOf_mem (f :: rest) _ rfl)
  rw [hset]
  refine ⟨?_, ?_, ?_, ?_⟩
  · refine ⟨?_, trivial, trivial, trivial⟩
    rw [hnode x hx, h1, modify_node_self, hzero]
    rfl
  · rw [ptr_branch]
    refine pathRep_setHole ix1 _ none (some x) path hn rfl (fun _ _ => rfl) ?_
    refine pathRep_congr ix ix1 none path (by rw [h1]; rfl) (fun y hy => ?_) h.ctx
    rw [h1, modify_node_ne]
    rintro rfl
    exact hx hy
  · refine List.nodup_cons.mpr ⟨hx, hn⟩
  · intro y hy hyp
    have hyx : y ≠ x := by
      rintro rfl
      exact hy (by simp [Tree.branch, rows, Group.members])
    rw [hnode y hyp, h1, modify_node_ne _ _ _ _ hyx]
    exact h.rest y List.not_mem_nil hyp

/-- The first row of a chain gets another row before it. -/
theorem chainRep_reprev (h h' : E → Node E) (p p' : E) (xs : List E) (hn : xs.Nodup)
    (he : ∀ x ∈ xs, h' x = if xs.head? = some x then { h x with prev := some p' } else h x)
    (hr : ChainRep h p xs) : ChainRep h' p' xs := by
  cases xs with
  | nil => trivial
  | cons x xs =>
    obtain ⟨h1, h2⟩ := hr
    obtain ⟨hx, -⟩ := List.nodup_cons.mp hn
    refine ⟨?_, ?_⟩
    · rw [he x List.mem_cons_self, h1]
      exact if_pos rfl
    · refine chainRep_congr h h' x xs (fun y hy => ?_) h2
      rw [he y (List.mem_cons_of_mem x hy), if_neg]
      rintro hxy
      cases hxy
      exact hx hy

/-- A row of a known key goes directly behind the head of its group. -/
theorem chainInsert_focus (base : E → Node E) (ix : Idx E) (path : List (Frame (Group E)))
    (d : Dir) (c : Color) (a b : Tree (Group E)) (g : Group E) (x : E)
    (h : Focus base ix path (Tree.branch d c a g b))
    (hx : x ∉ rows (Tree.branch d c a g b)) (hxp : x ∉ pathRows path) :
    Focus base (ix.chainInsert g.head x) path (Tree.branch d c a ⟨g.head, x :: g.chain⟩ b) := by
  obtain ⟨h1, h2, h3, h4⟩ := (rep_branch _ _ _ _ _ _ _).mp h.rep
  have hflat := ((rows_branch d c a b g).append_right (pathRows path)).nodup_iff.mp h.nodup
  simp only [mem_rows_branch, Group.members, List.mem_cons, not_or] at hx
  simp only [Group.members, List.cons_append, List.append_assoc, List.nodup_cons, List.mem_append,
    not_or, List.nodup_append] at hflat
  obtain ⟨⟨hxg, hxc⟩, hxa, hxb⟩ := hx
  have hgx : g.head ≠ x := Ne.symm hxg
  have hgc : g.chain.head? ≠ some g.head := by
    intro hh
    exact hflat.1.1 (List.mem_of_head? hh)
  have hcx : g.chain.head? ≠ some x := fun hh => hxc (List.mem_of_head? hh)
  -- The stores, one after the other.
  obtain ⟨ix3, e3⟩ : ∃ ix3, ix3 = ((ix.clear x).setPrev x (some g.head)).setNext x
      (((ix.clear x).setPrev x (some g.head)).node g.head).next := ⟨_, rfl⟩
  have hnext : (((ix.clear x).setPrev x (some g.head)).node g.head).next = g.chain.head? := by
    rw [Idx.setPrev, modify_node_ne _ _ _ _ hgx, Idx.clear, modify_node_ne _ _ _ _ hgx, h1, cell_next]
  have h3x : ix3.node x = ⟨none, none, none, .white, some g.head, g.chain.head?⟩ := by
    rw [e3, hnext]
    simp [Idx.setNext, Idx.setPrev, Idx.clear, Node.zero]
  have h3y : ∀ y, y ≠ x → ix3.node y = ix.node y := by
    intro y hy
    rw [e3, Idx.setNext, modify_node_ne _ _ _ _ hy, Idx.setPrev, modify_node_ne _ _ _ _ hy,
      Idx.clear, modify_node_ne _ _ _ _ hy]
  have hfin : ix.chainInsert g.head x =
      (ix3.setPrevOf g.chain.head? (some x)).setNext g.head (some x) := by
    have h3n : (ix3.node g.head).next = g.chain.head? := by rw [h3y _ hgx, h1, cell_next]
    simp only [Idx.chainInsert, ← e3, h3n]
  have hroot : (ix.chainInsert g.head x).root = ix.root := by
    rw [hfin, Idx.setNext, modify_root, setPrevOf_root, e3]
    rfl
  have hnode : ∀ y, y ≠ g.head → (ix.chainInsert g.head x).node y =
      if g.chain.head? = some y then { ix3.node y with prev := some x } else ix3.node y := by
    intro y hy
    rw [hfin, Idx.setNext, modify_node_ne _ _ _ _ hy, setPrevOf_node]
  have hkeep : ∀ y, y ≠ g.head → y ≠ x → y ∉ g.chain →
      (ix.chainInsert g.head x).node y = ix.node y := by
    intro y hyg hyx hyc
    rw [hnode y hyg, if_neg (fun hh => hyc (List.mem_of_head? hh)), h3y y hyx]
  refine ⟨?_, ?_, ?_, ?_⟩
  · rw [rep_branch]
    refine ⟨?_, ⟨?_, ?_⟩, ?_, ?_⟩
    · rw [hfin, Idx.setNext, modify_node_self, setPrevOf_node, if_neg hgc, h3y _ hgx, h1]
      cases d <;> rfl
    · rw [hnode x hxg, if_neg hcx, h3x]
    · refine chainRep_reprev ix.node _ g.head x g.chain (by tauto) (fun y hy => ?_) h2
      have hyg : y ≠ g.head := by
        rintro rfl
        exact hflat.1.1 hy
      have hyx : y ≠ x := by
        rintro rfl
        exact hxc hy
      rw [hnode y hyg, h3y y hyx]
    · refine rep_congr ix.node _ _ _ (fun y hy => hkeep y ?_ ?_ ?_) h3
      all_goals grind
    · refine rep_congr ix.node _ _ _ (fun y hy => hkeep y ?_ ?_ ?_) h4
      all_goals grind
  · have hctx := h.ctx
    rw [ptr_branch] at hctx ⊢
    refine pathRep_congr ix _ _ path hroot (fun y hy => hkeep y ?_ ?_ ?_) hctx
    all_goals grind
  · have hperm := (rows_branch d c a b ⟨g.head, x :: g.chain⟩).append_right (pathRows path)
    rw [hperm.nodup_iff]
    simp only [Group.members, List.cons_append, List.append_assoc, List.nodup_cons, List.mem_cons,
      List.mem_append, List.nodup_append, not_or]
    grind
  · intro y hy hyp
    simp only [mem_rows_branch, Group.members, List.mem_cons, not_or] at hy
    rw [hkeep y hy.1.1 hy.1.2.1 hy.1.2.2]
    refine h.rest y ?_ hyp
    simp only [mem_rows_branch, Group.members, List.mem_cons, not_or]
    exact ⟨⟨hy.1.1, hy.1.2.2⟩, hy.2⟩

end Mand.Index
