import Mathlib.Data.List.Basic
import Mathlib.Tactic.Common

/-! # Red-black trees with a hole

Trees with a payload at every node, the path from a subtree up to the root, and the balance of
both. A side of a node is a `Dir`, so a law about one side is a law about the other. -/
namespace Mand.Rb
set_option autoImplicit false

inductive Dir
  | left
  | right
  deriving DecidableEq, Repr

def Dir.flip : Dir → Dir
  | .left => .right
  | .right => .left

@[simp] theorem Dir.flip_flip (d : Dir) : d.flip.flip = d := by
  cases d <;> rfl

theorem Dir.eq_or_flip (d e : Dir) : d = e ∨ d = e.flip := by
  cases d <;> cases e <;> simp [Dir.flip]

inductive Color
  | black
  | red
  deriving DecidableEq, Repr

inductive Tree (α : Type)
  | nil
  | node (c : Color) (l : Tree α) (v : α) (r : Tree α)
  deriving DecidableEq, Repr

variable {α : Type}

/-- A node with the subtree `a` on side `d` and `b` on the other. -/
def Tree.branch (d : Dir) (c : Color) (a : Tree α) (v : α) (b : Tree α) : Tree α :=
  match d with
  | .left => .node c a v b
  | .right => .node c b v a

theorem Tree.branch_flip (d : Dir) (c : Color) (a b : Tree α) (v : α) :
    Tree.branch d.flip c b v a = Tree.branch d c a v b := by
  cases d <;> rfl

theorem Tree.branch_eq_branch (d e : Dir) (c : Color) (a b : Tree α) (v : α) :
    ∃ a' b', Tree.branch d c a v b = Tree.branch e c a' v b' ∧
      (a' = a ∧ b' = b ∨ a' = b ∧ b' = a) := by
  rcases d.eq_or_flip e with rfl | rfl
  · exact ⟨a, b, rfl, .inl ⟨rfl, rfl⟩⟩
  · exact ⟨b, a, Tree.branch_flip e c b a v, .inr ⟨rfl, rfl⟩⟩

theorem Tree.node_eq_branch (d : Dir) (c : Color) (l r : Tree α) (v : α) :
    ∃ a b, Tree.node c l v r = Tree.branch d c a v b := by
  cases d with
  | left => exact ⟨l, r, rfl⟩
  | right => exact ⟨r, l, rfl⟩

def Tree.color : Tree α → Color
  | .nil => .black
  | .node c _ _ _ => c

/-- The payloads in order. -/
def Tree.toList : Tree α → List α
  | .nil => []
  | .node _ l v r => l.toList ++ v :: r.toList

@[simp] theorem Tree.color_branch (d : Dir) (c : Color) (a b : Tree α) (v : α) :
    (Tree.branch d c a v b).color = c := by
  cases d <;> rfl

/-! ## Paths -/

/-- A node above the hole: the hole is on side `dir`, `sib` is the other subtree. -/
structure Frame (α : Type) where
  dir : Dir
  color : Color
  val : α
  sib : Tree α

def Frame.attach (f : Frame α) (t : Tree α) : Tree α := Tree.branch f.dir f.color t f.val f.sib

/-- The tree around a hole; the innermost frame comes first. -/
def fill : List (Frame α) → Tree α → Tree α
  | [], t => t
  | f :: path, t => fill path (f.attach t)

theorem fill_append (p q : List (Frame α)) (t : Tree α) :
    fill (p ++ q) t = fill q (fill p t) := by
  induction p generalizing t with
  | nil => rfl
  | cons f p ih => exact ih (f.attach t)

/-- The payloads before the hole. -/
def before : List (Frame α) → List α
  | [] => []
  | f :: path =>
    match f.dir with
    | .left => before path
    | .right => before path ++ (f.sib.toList ++ [f.val])

/-- The payloads after the hole. -/
def after : List (Frame α) → List α
  | [] => []
  | f :: path =>
    match f.dir with
    | .left => (f.val :: f.sib.toList) ++ after path
    | .right => after path

theorem toList_fill (path : List (Frame α)) (t : Tree α) :
    (fill path t).toList = before path ++ t.toList ++ after path := by
  induction path generalizing t with
  | nil => simp [fill, before, after]
  | cons f path ih =>
    obtain ⟨d, c, v, sib⟩ := f
    rw [fill, ih]
    cases d <;> simp [Frame.attach, Tree.branch, Tree.toList, before, after]

theorem length_path_le (path : List (Frame α)) (t : Tree α) :
    path.length + t.toList.length ≤ (fill path t).toList.length := by
  induction path generalizing t with
  | nil => simp [fill]
  | cons f path ih =>
    have h1 : (f.attach t).toList.length = t.toList.length + f.sib.toList.length + 1 := by
      obtain ⟨d, c, v, sib⟩ := f
      cases d <;> simp [Frame.attach, Tree.branch, Tree.toList] <;> omega
    have h2 := ih (f.attach t)
    rw [fill, List.length_cons]
    omega

theorem before_of_left (path : List (Frame α)) (h : ∀ f ∈ path, f.dir = .left) :
    before path = [] := by
  induction path with
  | nil => rfl
  | cons f path ih =>
    rw [before, h f List.mem_cons_self]
    exact ih fun k hk => h k (List.mem_cons_of_mem f hk)

theorem after_of_right (path : List (Frame α)) (h : ∀ f ∈ path, f.dir = .right) :
    after path = [] := by
  induction path with
  | nil => rfl
  | cons f path ih =>
    rw [after, h f List.mem_cons_self]
    exact ih fun k hk => h k (List.mem_cons_of_mem f hk)

/-- A rotation keeps the order, whatever the colours become. -/
theorem toList_rotate (d : Dir) (c1 c2 c3 c4 : Color) (a b e : Tree α) (v w : α) :
    (Tree.branch d c1 (Tree.branch d c2 a v b) w e).toList =
      (Tree.branch d c3 a v (Tree.branch d c4 b w e)).toList := by
  cases d <;> simp [Tree.branch, Tree.toList]

theorem toList_fill_congr (path : List (Frame α)) (t t' : Tree α) (h : t.toList = t'.toList) :
    (fill path t).toList = (fill path t').toList := by
  rw [toList_fill, toList_fill, h]

theorem toList_branch_congr (d : Dir) (c c' : Color) (a a' b b' : Tree α) (v : α)
    (ha : a.toList = a'.toList) (hb : b.toList = b'.toList) :
    (Tree.branch d c a v b).toList = (Tree.branch d c' a' v b').toList := by
  cases d <;> simp [Tree.branch, Tree.toList, ha, hb]

/-! ## Balance -/

/-- `Bal t c n`: no red node of `t` has a red child, every way down has `n` black nodes, and the
root has colour `c`. -/
inductive Bal : Tree α → Color → ℕ → Prop
  | nil : Bal .nil .black 0
  | red {l r : Tree α} {v : α} {n : ℕ} : Bal l .black n → Bal r .black n →
      Bal (.node .red l v r) .red n
  | black {l r : Tree α} {v : α} {n : ℕ} {c c' : Color} : Bal l c n → Bal r c' n →
      Bal (.node .black l v r) .black (n + 1)

/-- `Accepts path c n`: a subtree with root colour `c` and `n` black nodes on every way down makes
the whole tree balanced, with a black root. -/
inductive Accepts : List (Frame α) → Color → ℕ → Prop
  | root {n : ℕ} : Accepts [] .black n
  | red {d : Dir} {v : α} {sib : Tree α} {path : List (Frame α)} {n : ℕ} : Bal sib .black n →
      Accepts path .red n → Accepts (⟨d, .red, v, sib⟩ :: path) .black n
  | black {d : Dir} {v : α} {sib : Tree α} {path : List (Frame α)} {n : ℕ} {c c' : Color} :
      Bal sib c' n → Accepts path .black (n + 1) → Accepts (⟨d, .black, v, sib⟩ :: path) c n

theorem bal_branch_red {d : Dir} {a b : Tree α} {v : α} {n : ℕ} :
    Bal (Tree.branch d .red a v b) .red n ↔ Bal a .black n ∧ Bal b .black n := by
  constructor
  · intro h
    cases d with
    | left => cases h with | red h1 h2 => exact ⟨h1, h2⟩
    | right => cases h with | red h1 h2 => exact ⟨h2, h1⟩
  · rintro ⟨h1, h2⟩
    cases d with
    | left => exact .red h1 h2
    | right => exact .red h2 h1

theorem bal_branch_black {d : Dir} {a b : Tree α} {v : α} {n : ℕ} :
    Bal (Tree.branch d .black a v b) .black (n + 1) ↔ ∃ c c', Bal a c n ∧ Bal b c' n := by
  constructor
  · intro h
    cases d with
    | left => cases h with | black h1 h2 => exact ⟨_, _, h1, h2⟩
    | right => cases h with | black h1 h2 => exact ⟨_, _, h2, h1⟩
  · rintro ⟨c, c', h1, h2⟩
    cases d with
    | left => exact .black h1 h2
    | right => exact .black h2 h1

theorem Bal.color_eq {t : Tree α} {c : Color} {n : ℕ} (h : Bal t c n) : t.color = c := by
  cases h <;> rfl

theorem accepts_black_of_red {path : List (Frame α)} {n : ℕ} (h : Accepts path .red n) :
    Accepts path .black n := by
  cases h with
  | black h1 h2 => exact .black h1 h2

/-- A balanced subtree in an accepting place. -/
theorem Accepts.fill {path : List (Frame α)} {t : Tree α} {c : Color} {n : ℕ}
    (hp : Accepts path c n) (ht : Bal t c n) : ∃ m, Bal (fill path t) .black m := by
  induction hp generalizing t with
  | root => exact ⟨_, ht⟩
  | red h1 h2 ih => exact ih (bal_branch_red.mpr ⟨ht, h1⟩)
  | black h1 h2 ih => exact ih (bal_branch_black.mpr ⟨_, _, ht, h1⟩)

/-- Every subtree of a balanced tree is balanced, and its place accepts it. -/
theorem Bal.accepts {path : List (Frame α)} {t : Tree α} {m : ℕ}
    (h : Bal (Mand.Rb.fill path t) .black m) : ∃ c n, Bal t c n ∧ Accepts path c n := by
  induction path generalizing t with
  | nil => exact ⟨_, _, h, .root⟩
  | cons f path ih =>
    obtain ⟨d, fc, v, sib⟩ := f
    obtain ⟨c, n, ht, hp⟩ := ih h
    simp only [Frame.attach] at ht
    cases fc with
    | red =>
      have hc : c = .red := by rw [← ht.color_eq, Tree.color_branch]
      subst hc
      obtain ⟨h1, h2⟩ := bal_branch_red.mp ht
      exact ⟨_, _, h1, .red h2 hp⟩
    | black =>
      have hc : c = .black := by rw [← ht.color_eq, Tree.color_branch]
      subst hc
      cases n with
      | zero => cases d <;> cases ht
      | succ n =>
        obtain ⟨c1, c2, h1, h2⟩ := bal_branch_black.mp ht
        exact ⟨_, _, h1, .black h2 hp⟩

/-- The balance does not depend on the payloads. -/
theorem Bal.congr_payload {c : Color} {l r : Tree α} {v : α} {c' : Color} {n : ℕ} (w : α)
    (h : Bal (.node c l v r) c' n) : Bal (.node c l w r) c' n := by
  cases h with
  | red h1 h2 => exact .red h1 h2
  | black h1 h2 => exact .black h1 h2

theorem Accepts.congr_payload {p q : List (Frame α)} {d : Dir} {fc : Color} {v : α}
    {sib : Tree α} {c : Color} {n : ℕ} (w : α) (h : Accepts (p ++ ⟨d, fc, v, sib⟩ :: q) c n) :
    Accepts (p ++ ⟨d, fc, w, sib⟩ :: q) c n := by
  induction p generalizing c n with
  | nil =>
    cases h with
    | red h1 h2 => exact .red h1 h2
    | black h1 h2 => exact .black h1 h2
  | cons f p ih =>
    cases h with
    | red h1 h2 => exact .red h1 (ih h2)
    | black h1 h2 => exact .black h1 (ih h2)

end Mand.Rb
