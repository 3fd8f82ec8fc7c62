import Mand.Index.Node
import Mand.Lib.Groups

/-! # What an index stands for

A tree of groups of rows: the head of a group is a node of the red-black tree, the others hang off
it as a list. `Focus` says that the pointers represent a tree with a marked subtree, that no row
occurs twice and that the nodes of all other rows are as in `base`. -/
namespace Mand.Index
open Mand.Rb Mand.Groups
export Mand.Groups (Group)
export Mand.Rb (Tree)
set_option autoImplicit false

variable {E : Type}

def nodeColor : Color → NodeColor
  | .black => .black
  | .red => .red

/-- The pointer to a subtree. -/
def ptr : Tree (Group E) → Option E
  | .nil => none
  | .node _ _ g _ => some g.head

/-- The pointer to the node above a hole. -/
def parentOf (path : List (Frame (Group E))) : Option E := path.head?.map fun f => f.val.head

/-- The `NODE` of a tree node with the child `a` on side `d` and `b` on the other. -/
def cell (d : Dir) (a b par : Option E) (c : Color) (chain : List E) : Node E :=
  match d with
  | .left => ⟨a, b, par, nodeColor c, none, chain.head?⟩
  | .right => ⟨b, a, par, nodeColor c, none, chain.head?⟩

/-- The rows of a list hang behind `p`, white and doubly linked. -/
def ChainRep (h : E → Node E) : E → List E → Prop
  | _, [] => True
  | p, x :: xs => h x = ⟨none, none, none, .white, some p, xs.head?⟩ ∧ ChainRep h x xs

/-- The nodes represent the tree, hanging below `par`. -/
def Rep (h : E → Node E) : Option E → Tree (Group E) → Prop
  | _, .nil => True
  | par, .node c l g r =>
    h g.head = cell .left (ptr l) (ptr r) par c g.chain ∧ ChainRep h g.head g.chain ∧
      Rep h (some g.head) l ∧ Rep h (some g.head) r

/-- The nodes represent the path, with the pointer `p` in the hole. -/
def PathRep (ix : Idx E) : Option E → List (Frame (Group E)) → Prop
  | p, [] => ix.root = p
  | p, f :: path =>
    ix.node f.val.head = cell f.dir p (ptr f.sib) (parentOf path) f.color f.val.chain ∧
      ChainRep ix.node f.val.head f.val.chain ∧ Rep ix.node (some f.val.head) f.sib ∧
      PathRep ix (some f.val.head) path

/-- The rows of a tree. -/
def rows : Tree (Group E) → List E
  | .nil => []
  | .node _ l g r => g.members ++ (rows l ++ rows r)

/-- The rows of a path. -/
def pathRows : List (Frame (Group E)) → List E
  | [] => []
  | f :: path => f.val.members ++ (rows f.sib ++ pathRows path)

structure Focus (base : E → Node E) (ix : Idx E) (path : List (Frame (Group E)))
    (t : Tree (Group E)) : Prop where
  rep : Rep ix.node (parentOf path) t
  ctx : PathRep ix (ptr t) path
  nodup : (rows t ++ pathRows path).Nodup
  rest : ∀ x, x ∉ rows t → x ∉ pathRows path → ix.node x = base x

/-! ## Sides -/

@[simp] theorem cell_child (d : Dir) (a b par : Option E) (c : Color) (ch : List E) :
    (cell d a b par c ch).child d = a := by
  cases d <;> rfl

@[simp] theorem cell_child_flip (d : Dir) (a b par : Option E) (c : Color) (ch : List E) :
    (cell d a b par c ch).child d.flip = b := by
  cases d <;> rfl

theorem cell_flip (d : Dir) (a b par : Option E) (c : Color) (ch : List E) :
    cell d.flip a b par c ch = cell d b a par c ch := by
  cases d <;> rfl

@[simp] theorem cell_setChild (d : Dir) (a b p par : Option E) (c : Color) (ch : List E) :
    (cell d a b par c ch).setChild d p = cell d p b par c ch := by
  cases d <;> rfl

@[simp] theorem cell_setChild_flip (d : Dir) (a b p par : Option E) (c : Color) (ch : List E) :
    (cell d a b par c ch).setChild d.flip p = cell d a p par c ch := by
  cases d <;> rfl

@[simp] theorem cell_parent (d : Dir) (a b par : Option E) (c : Color) (ch : List E) :
    (cell d a b par c ch).parent = par := by
  cases d <;> rfl

@[simp] theorem cell_color (d : Dir) (a b par : Option E) (c : Color) (ch : List E) :
    (cell d a b par c ch).color = nodeColor c := by
  cases d <;> rfl

@[simp] theorem cell_next (d : Dir) (a b par : Option E) (c : Color) (ch : List E) :
    (cell d a b par c ch).next = ch.head? := by
  cases d <;> rfl

@[simp] theorem cell_prev (d : Dir) (a b par : Option E) (c : Color) (ch : List E) :
    (cell d a b par c ch).prev = none := by
  cases d <;> rfl

@[simp] theorem cell_setParent (d : Dir) (a b p par : Option E) (c : Color) (ch : List E) :
    { cell d a b par c ch with parent := p } = cell d a b p c ch := by
  cases d <;> rfl

@[simp] theorem cell_setColor (d : Dir) (a b par : Option E) (c c' : Color) (ch : List E) :
    { cell d a b par c ch with color := nodeColor c' } = cell d a b par c' ch := by
  cases d <;> rfl

@[simp] theorem ptr_branch (d : Dir) (c : Color) (a b : Tree (Group E)) (g : Group E) :
    ptr (Tree.branch d c a g b) = some g.head := by
  cases d <;> rfl

theorem rep_branch (h : E → Node E) (par : Option E) (d : Dir) (c : Color)
    (a b : Tree (Group E)) (g : Group E) :
    Rep h par (Tree.branch d c a g b) ↔
      h g.head = cell d (ptr a) (ptr b) par c g.chain ∧ ChainRep h g.head g.chain ∧
        Rep h (some g.head) a ∧ Rep h (some g.head) b := by
  cases d with
  | left => exact Iff.rfl
  | right =>
    have hc : cell Dir.right (ptr a) (ptr b) par c g.chain =
        cell Dir.left (ptr b) (ptr a) par c g.chain := rfl
    simp only [Tree.branch, Rep, hc]
    tauto

theorem rows_branch (d : Dir) (c : Color) (a b : Tree (Group E)) (g : Group E) :
    (rows (Tree.branch d c a g b)).Perm (g.members ++ (rows a ++ rows b)) := by
  cases d with
  | left => exact List.Perm.refl _
  | right => exact List.Perm.append_left _ List.perm_append_comm

theorem mem_rows_branch (d : Dir) (c : Color) (a b : Tree (Group E)) (g : Group E) (x : E) :
    x ∈ rows (Tree.branch d c a g b) ↔ x ∈ g.members ∨ x ∈ rows a ∨ x ∈ rows b := by
  rw [(rows_branch d c a b g).mem_iff, List.mem_append, List.mem_append]

theorem ptr_mem (t : Tree (Group E)) (x : E) (h : ptr t = some x) : x ∈ rows t := by
  cases t with
  | nil => cases h
  | node c l g r =>
    cases h
    simp [rows, Group.members]

theorem parentOf_mem (path : List (Frame (Group E))) (x : E) (h : parentOf path = some x) :
    x ∈ pathRows path := by
  cases path with
  | nil => cases h
  | cons f path =>
    cases h
    simp [pathRows, Group.members]

theorem rows_perm (t : Tree (Group E)) : (rows t).Perm (rowsOf t.toList) := by
  induction t with
  | nil => exact List.Perm.refl _
  | node c l g r ihl ihr =>
    have h1 : rowsOf (Rb.Tree.node c l g r).toList = rowsOf l.toList ++ (g.members ++ rowsOf r.toList) := by
      simp [rowsOf, Tree.toList]
    rw [h1, rows]
    exact (List.Perm.append_left _ (ihl.append ihr)).trans (List.perm_append_comm_assoc _ _ _)

/-! ## Moving the focus -/

theorem rows_attach (f : Frame (Group E)) (path : List (Frame (Group E))) (t : Tree (Group E)) :
    (rows t ++ pathRows (f :: path)).Perm (rows (f.attach t) ++ pathRows path) := by
  have h0 := (rows_branch f.dir f.color t f.sib f.val).append_right (pathRows path)
  refine List.Perm.trans ?_ h0.symm
  simp only [pathRows, List.append_assoc]
  exact List.perm_append_comm_assoc _ _ _

theorem rows_fill (path : List (Frame (Group E))) (t : Tree (Group E)) :
    (rows t ++ pathRows path).Perm (rows (fill path t)) := by
  induction path generalizing t with
  | nil => simp [pathRows, fill]
  | cons f path ih => exact (rows_attach f path t).trans (ih (f.attach t))

theorem focus_cons (base : E → Node E) (ix : Idx E) (f : Frame (Group E))
    (path : List (Frame (Group E))) (t : Tree (Group E)) :
    Focus base ix (f :: path) t ↔ Focus base ix path (f.attach t) := by
  have hperm := rows_attach f path t
  have hrep : Rep ix.node (parentOf (f :: path)) t ∧ PathRep ix (ptr t) (f :: path) ↔
      Rep ix.node (parentOf path) (f.attach t) ∧ PathRep ix (ptr (f.attach t)) path := by
    simp only [Frame.attach, rep_branch, ptr_branch, PathRep, parentOf, List.head?_cons,
      Option.map_some]
    tauto
  have hmem : ∀ x, (x ∉ rows t ∧ x ∉ pathRows (f :: path)) ↔
      (x ∉ rows (f.attach t) ∧ x ∉ pathRows path) := by
    intro x
    rw [← not_or, ← not_or, ← List.mem_append, ← List.mem_append, hperm.mem_iff]
  constructor
  · intro h
    obtain ⟨h1, h2⟩ := hrep.mp ⟨h.rep, h.ctx⟩
    exact ⟨h1, h2, hperm.nodup_iff.mp h.nodup, fun x hx hy =>
      h.rest x ((hmem x).mpr ⟨hx, hy⟩).1 ((hmem x).mpr ⟨hx, hy⟩).2⟩
  · intro h
    obtain ⟨h1, h2⟩ := hrep.mpr ⟨h.rep, h.ctx⟩
    exact ⟨h1, h2, hperm.nodup_iff.mpr h.nodup, fun x hx hy =>
      h.rest x ((hmem x).mp ⟨hx, hy⟩).1 ((hmem x).mp ⟨hx, hy⟩).2⟩

theorem focus_append (base : E → Node E) (ix : Idx E) (p q : List (Frame (Group E)))
    (t : Tree (Group E)) : Focus base ix (p ++ q) t ↔ Focus base ix q (fill p t) := by
  induction p generalizing t with
  | nil => exact Iff.rfl
  | cons f p ih =>
    rw [List.cons_append, focus_cons, ih]
    exact Iff.rfl

/-- The child on side `d` as the focus. -/
theorem focus_child (base : E → Node E) (ix : Idx E) (path : List (Frame (Group E))) (d : Dir)
    (c : Color) (a b : Tree (Group E)) (g : Group E) :
    Focus base ix path (Tree.branch d c a g b) ↔ Focus base ix (⟨d, c, g, b⟩ :: path) a :=
  (focus_cons base ix ⟨d, c, g, b⟩ path a).symm

theorem focus_child_flip (base : E → Node E) (ix : Idx E) (path : List (Frame (Group E)))
    (d : Dir) (c : Color) (a b : Tree (Group E)) (g : Group E) :
    Focus base ix path (Tree.branch d c a g b) ↔ Focus base ix (⟨d.flip, c, g, a⟩ :: path) b := by
  rw [← Tree.branch_flip]
  exact focus_child base ix path d.flip c b a g

/-! ## Reading the surroundings of the focus -/

theorem focus_node (base : E → Node E) (ix : Idx E) (path : List (Frame (Group E))) (d : Dir)
    (c : Color) (a b : Tree (Group E)) (g : Group E)
    (h : Focus base ix path (Tree.branch d c a g b)) :
    ix.node g.head = cell d (ptr a) (ptr b) (parentOf path) c g.chain :=
  ((rep_branch _ _ _ _ _ _ _).mp h.rep).1

theorem focus_frame (base : E → Node E) (ix : Idx E) (path : List (Frame (Group E)))
    (f : Frame (Group E)) (t : Tree (Group E)) (h : Focus base ix (f :: path) t) :
    ix.node f.val.head = cell f.dir (ptr t) (ptr f.sib) (parentOf path) f.color f.val.chain :=
  h.ctx.1

/-- The subtree in the hole is not the sibling. -/
theorem focus_ptr_ne (base : E → Node E) (ix : Idx E) (path : List (Frame (Group E)))
    (f : Frame (Group E)) (t : Tree (Group E)) (x : E) (h : Focus base ix (f :: path) t)
    (hx : ptr t = some x) : ptr f.sib ≠ some x := by
  intro hs
  have hn := h.nodup
  simp only [pathRows, List.nodup_append] at hn
  exact hn.2.2 x (ptr_mem t x hx) x (by simp [ptr_mem f.sib x hs]) rfl

theorem isRed_ptr (h : E → Node E) (root par : Option E) (t : Tree (Group E)) (hr : Rep h par t) :
    Idx.isRed ⟨root, h⟩ (ptr t) = decide (t.color = .red) := by
  cases t with
  | nil => rfl
  | node c l g r =>
    have h1 : (h g.head).color = nodeColor c := by rw [hr.1, cell_color]
    cases c <;> simp [Idx.isRed, ptr, h1, Tree.color, nodeColor]

theorem isBlack_ptr (h : E → Node E) (root par : Option E) (t : Tree (Group E))
    (hr : Rep h par t) : Idx.isBlack ⟨root, h⟩ (ptr t) = decide (t.color = .black) := by
  cases t with
  | nil => rfl
  | node c l g r =>
    have h1 : (h g.head).color = nodeColor c := by rw [hr.1, cell_color]
    cases c <;> simp [Idx.isBlack, ptr, h1, Tree.color, nodeColor]

/-- A place deep in the tree, seen from the root. -/
theorem focus_root (base : E → Node E) (ix : Idx E) (path : List (Frame (Group E)))
    (t : Tree (Group E)) : Focus base ix path t ↔ Focus base ix [] (fill path t) := by
  have h := focus_append base ix path [] t
  rwa [List.append_nil] at h

/-! ## Frame rules -/

theorem chainRep_congr (h h' : E → Node E) (p : E) (xs : List E) (he : ∀ x ∈ xs, h' x = h x)
    (hr : ChainRep h p xs) : ChainRep h' p xs := by
  induction xs generalizing p with
  | nil => trivial
  | cons x xs ih =>
    obtain ⟨h1, h2⟩ := hr
    refine ⟨?_, ih x (fun y hy => he y (List.mem_cons_of_mem x hy)) h2⟩
    rw [he x List.mem_cons_self, h1]

theorem rep_congr (h h' : E → Node E) (par : Option E) (t : Tree (Group E))
    (he : ∀ x ∈ rows t, h' x = h x) (hr : Rep h par t) : Rep h' par t := by
  induction t generalizing par with
  | nil => trivial
  | node c l g r ihl ihr =>
    obtain ⟨h1, h2, h3, h4⟩ := hr
    simp only [rows, Group.members, List.mem_append, List.mem_cons] at he
    refine ⟨?_, ?_, ?_, ?_⟩
    · rw [he g.head (.inl (.inl rfl)), h1]
    · exact chainRep_congr h h' g.head g.chain (fun x hx => he x (.inl (.inr hx))) h2
    · exact ihl _ (fun x hx => he x (.inr (.inl hx))) h3
    · exact ihr _ (fun x hx => he x (.inr (.inr hx))) h4

theorem pathRep_congr (ix ix' : Idx E) (p : Option E) (path : List (Frame (Group E)))
    (hroot : ix'.root = ix.root) (he : ∀ x ∈ pathRows path, ix'.node x = ix.node x)
    (hr : PathRep ix p path) : PathRep ix' p path := by
  induction path generalizing p with
  | nil => exact hroot.trans hr
  | cons f path ih =>
    obtain ⟨h1, h2, h3, h4⟩ := hr
    simp only [pathRows, Group.members, List.mem_append, List.mem_cons] at he
    refine ⟨?_, ?_, ?_, ?_⟩
    · rw [he f.val.head (.inl (.inl rfl)), h1]
    · exact chainRep_congr _ _ _ _ (fun x hx => he x (.inl (.inr hx))) h2
    · exact rep_congr _ _ _ _ (fun x hx => he x (.inr (.inl hx))) h3
    · exact ih _ (fun x hx => he x (.inr (.inr hx))) h4

end Mand.Index
