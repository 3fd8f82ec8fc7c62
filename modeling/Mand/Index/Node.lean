import Mand.Lib.RbTree
import Mathlib.Data.Int.Notation

/-! # One index of an instance tree

The pointer program of `dm_index.c` for one index: the `NODE` that every row carries for it and the
root pointer. Rows are any type with decidable equality; a null pointer is `none`. A function
answers `none` when it would follow a null pointer, or when a loop runs longer than its fuel. The
code for the two sides of a node differs only in `LEFT` and `RIGHT`; it is written once for a
side `d`. -/
namespace Mand.Index
open Mand.Rb
set_option autoImplicit false

inductive NodeColor
  | white
  | black
  | red
  deriving DecidableEq, Repr

/-- `NODE`. -/
structure Node (E : Type) where
  left : Option E
  right : Option E
  parent : Option E
  color : NodeColor
  prev : Option E
  next : Option E
  deriving DecidableEq, Repr

/-- A `NODE` after `memset`. -/
def Node.zero {E : Type} : Node E := ⟨none, none, none, .white, none, none⟩

variable {E : Type}

def Node.child (n : Node E) : Dir → Option E
  | .left => n.left
  | .right => n.right

def Node.setChild (n : Node E) (d : Dir) (p : Option E) : Node E :=
  match d with
  | .left => { n with left := p }
  | .right => { n with right := p }

/-- The root pointer of an index and the `NODE` of every row. -/
structure Idx (E : Type) where
  root : Option E
  node : E → Node E

def Idx.empty : Idx E := ⟨none, fun _ => Node.zero⟩

variable [DecidableEq E]

namespace Idx

/-! ## Fields -/

def modify (ix : Idx E) (e : E) (f : Node E → Node E) : Idx E :=
  { ix with node := Function.update ix.node e (f (ix.node e)) }

def setChild (ix : Idx E) (e : E) (d : Dir) (p : Option E) : Idx E :=
  ix.modify e fun n => n.setChild d p

def setParent (ix : Idx E) (e : E) (p : Option E) : Idx E :=
  ix.modify e fun n => { n with parent := p }

def setColor (ix : Idx E) (e : E) (c : NodeColor) : Idx E :=
  ix.modify e fun n => { n with color := c }

def setPrev (ix : Idx E) (e : E) (p : Option E) : Idx E :=
  ix.modify e fun n => { n with prev := p }

def setNext (ix : Idx E) (e : E) (p : Option E) : Idx E :=
  ix.modify e fun n => { n with next := p }

/-- `memset(&NODE(e), 0, sizeof(NODE))`. -/
def clear (ix : Idx E) (e : E) : Idx E := ix.modify e fun _ => Node.zero

/-- `if (p) PARENT(p) = par`. -/
def setParentOf (ix : Idx E) (p par : Option E) : Idx E :=
  match p with
  | some e => ix.setParent e par
  | none => ix

/-- `if (p) PREV(p) = q`. -/
def setPrevOf (ix : Idx E) (p q : Option E) : Idx E :=
  match p with
  | some e => ix.setPrev e q
  | none => ix

/-- `if (p) NEXT(p) = q`. -/
def setNextOf (ix : Idx E) (p q : Option E) : Idx E :=
  match p with
  | some e => ix.setNext e q
  | none => ix

/-- `if (p) COLOR(p) = c`. -/
def setColorOf (ix : Idx E) (p : Option E) (c : NodeColor) : Idx E :=
  match p with
  | some e => ix.setColor e c
  | none => ix

/-- The place of `old` below `parent`, or at the root, is given to `new`. -/
def replaceChild (ix : Idx E) (parent : Option E) (old : E) (new : Option E) : Idx E :=
  match parent with
  | some p =>
    if (ix.node p).left = some old then ix.setChild p .left new else ix.setChild p .right new
  | none => { ix with root := new }

/-- `SET_BLACKRED`. -/
def setBlackRed (ix : Idx E) (black red : E) : Idx E :=
  (ix.setColor black .black).setColor red .red

/-- `!p || COLOR(p) == BLACK`. -/
def isBlack (ix : Idx E) (p : Option E) : Bool :=
  match p with
  | some e => (ix.node e).color = .black
  | none => true

/-- `p && COLOR(p) == RED`. -/
def isRed (ix : Idx E) (p : Option E) : Bool :=
  match p with
  | some e => (ix.node e).color = .red
  | none => false

/-! ## Rotations -/

def rotate (d : Dir) (ix : Idx E) (elm : E) : Option (Idx E) := do
  let tmp ← (ix.node elm).child d.flip
  let ix := ix.setChild elm d.flip ((ix.node tmp).child d)
  let ix := ix.setParentOf ((ix.node tmp).child d) (some elm)
  let ix := ix.setParent tmp (ix.node elm).parent
  let ix := ix.replaceChild (ix.node elm).parent elm (some tmp)
  let ix := ix.setChild tmp d (some elm)
  some (ix.setParent elm (some tmp))

def rotateLeft (ix : Idx E) (elm : E) : Option (Idx E) := rotate .left ix elm

def rotateRight (ix : Idx E) (elm : E) : Option (Idx E) := rotate .right ix elm

/-! ## Insertion -/

/-- `COLOR(ROOT(head)) = BLACK`. -/
def blackenRoot (ix : Idx E) : Option (Idx E) := do
  let r ← ix.root
  some (ix.setColor r .black)

/-- One round of `INSERT_COLOR` with `parent` on side `d` of `gparent`: the next `elm`. -/
def insertColorSide (d : Dir) (ix : Idx E) (elm parent gparent : E) : Option (E × Idx E) :=
  let tmp := (ix.node gparent).child d.flip
  if ix.isRed tmp = true then
    some (gparent, (ix.setColorOf tmp .black).setBlackRed parent gparent)
  else do
    let (elm, parent, ix) ←
      if (ix.node parent).child d.flip = some elm then do
        let ix ← rotate d ix parent
        some (parent, elm, ix)
      else some (elm, parent, ix)
    let ix ← rotate d.flip (ix.setBlackRed parent gparent) gparent
    some (elm, ix)

def insertColor : ℕ → Idx E → E → Option (Idx E)
  | 0, _, _ => none
  | fuel + 1, ix, elm =>
    match (ix.node elm).parent with
    | none => ix.blackenRoot
    | some parent =>
      if (ix.node parent).color = .red then do
        let gparent ← (ix.node parent).parent
        let d := if (ix.node gparent).left = some parent then Dir.left else Dir.right
        let (elm, ix) ← insertColorSide d ix elm parent gparent
        insertColor fuel ix elm
      else ix.blackenRoot

/-- The descent of `INSERT`: the row with an equal key, if there is one, and otherwise the last row
visited with the comparison made there. -/
def descend (cmp : E → ℤ) (ix : Idx E) :
    ℕ → Option E → Option E → ℤ → Option (Option E × Option E × ℤ)
  | _, none, parent, comp => some (none, parent, comp)
  | 0, some _, _, _ => none
  | fuel + 1, some tmp, _, _ =>
    if cmp tmp < 0 then descend cmp ix fuel (ix.node tmp).left (some tmp) (cmp tmp)
    else if 0 < cmp tmp then descend cmp ix fuel (ix.node tmp).right (some tmp) (cmp tmp)
    else some (some tmp, some tmp, cmp tmp)

/-- Attach `elm` directly behind the head row `tmp` of its key. -/
def chainInsert (ix : Idx E) (tmp elm : E) : Idx E :=
  let ix := ix.clear elm
  let ix := ix.setPrev elm (some tmp)
  let ix := ix.setNext elm (ix.node tmp).next
  let ix := ix.setPrevOf (ix.node tmp).next (some elm)
  ix.setNext tmp (some elm)

/-- `SET(elm, parent)` and the link from `parent` or the root. -/
def leafInsert (ix : Idx E) (parent : Option E) (comp : ℤ) (elm : E) : Idx E :=
  let ix := ix.modify elm fun n =>
    { n with parent := parent, left := none, right := none, color := .red }
  match parent with
  | some p => if comp < 0 then ix.setChild p .left (some elm) else ix.setChild p .right (some elm)
  | none => { ix with root := some elm }

/-- `INSERT`; `cmp e` compares the key of `elm` with the key of `e`. The answer also has the row of
the same key that was found, if any. -/
def insert (fuel : ℕ) (cmp : E → ℤ) (ix : Idx E) (elm : E) : Option (Option E × Idx E) := do
  let (tmp, parent, comp) ← descend cmp ix fuel ix.root none 0
  match tmp with
  | some tmp => some (some tmp, ix.chainInsert tmp elm)
  | none => do
    let ix ← insertColor fuel (ix.leafInsert parent comp elm) elm
    some (none, ix)

/-! ## Removal -/

/-- A red sibling `tmp` of the hole is rotated away; the answer is the new sibling. -/
def redSibling (d : Dir) (ix : Idx E) (parent tmp : E) : Option (E × Idx E) :=
  if (ix.node tmp).color = .red then do
    let ix ← rotate d (ix.setBlackRed tmp parent) parent
    let tmp ← (ix.node parent).child d.flip
    some (tmp, ix)
  else some (tmp, ix)

/-- If the outer child of the sibling `tmp` is black, the inner one is rotated into its place. -/
def innerNephew (d : Dir) (ix : Idx E) (parent tmp : E) : Option (E × Idx E) :=
  if ix.isBlack ((ix.node tmp).child d.flip) = true then do
    let ix := (ix.setColorOf ((ix.node tmp).child d) .black).setColor tmp .red
    let ix ← rotate d.flip ix tmp
    let tmp ← (ix.node parent).child d.flip
    some (tmp, ix)
  else some (tmp, ix)

/-- The sibling `tmp` takes the place and the colour of `parent`. -/
def outerNephew (d : Dir) (ix : Idx E) (parent tmp : E) : Option (Idx E) :=
  let ix := (ix.setColor tmp (ix.node parent).color).setColor parent .black
  let ix := ix.setColorOf ((ix.node tmp).child d.flip) .black
  rotate d ix parent

/-- The rest of a round, with a black sibling `tmp`. The answer says whether the loop goes on at
`parent`. -/
def blackSibling (d : Dir) (ix : Idx E) (parent tmp : E) : Option (Bool × Idx E) :=
  if ix.isBlack ((ix.node tmp).child d) = true ∧ ix.isBlack ((ix.node tmp).child d.flip) = true then
    some (true, ix.setColor tmp .red)
  else do
    let (tmp, ix) ← innerNephew d ix parent tmp
    let ix ← outerNephew d ix parent tmp
    some (false, ix)

/-- One round of `REMOVE_COLOR` with the missing black on side `d` of `parent`. -/
def removeColorSide (d : Dir) (ix : Idx E) (parent : E) : Option (Bool × Idx E) := do
  let tmp ← (ix.node parent).child d.flip
  let (tmp, ix) ← redSibling d ix parent tmp
  blackSibling d ix parent tmp

def removeColor : ℕ → Idx E → Option E → Option E → Option (Idx E)
  | 0, _, _, _ => none
  | fuel + 1, ix, parent, elm =>
    if ix.isBlack elm = true ∧ elm ≠ ix.root then do
      let parent ← parent
      let d := if (ix.node parent).left = elm then Dir.left else Dir.right
      let (again, ix) ← removeColorSide d ix parent
      if again = true then removeColor fuel ix (ix.node parent).parent (some parent)
      else some (ix.setColorOf ix.root .black)
    else some (ix.setColorOf elm .black)

def replace (ix : Idx E) (old new : E) : Idx E :=
  let parent := (ix.node old).parent
  let ix := ix.setChild new .left (ix.node old).left
  let ix := ix.setParentOf (ix.node old).left (some new)
  let ix := ix.setChild new .right (ix.node old).right
  let ix := ix.setParentOf (ix.node old).right (some new)
  let ix := ix.setColor new (ix.node old).color
  let ix := ix.setParent new parent
  ix.replaceChild parent old (some new)

/-- `while ((left = LEFT(elm))) elm = left`, and the same to the right. -/
def descendTo (d : Dir) (ix : Idx E) : ℕ → E → Option E
  | 0, _ => none
  | fuel + 1, elm =>
    match (ix.node elm).child d with
    | some e => descendTo d ix fuel e
    | none => some elm

/-- The list part of `REMOVE`: detach `elm` from its neighbours. -/
def chainDetach (ix : Idx E) (elm : E) : Idx E :=
  let ix := ix.setNextOf (ix.node elm).prev (ix.node elm).next
  ix.setPrevOf (ix.node elm).next (ix.node elm).prev

/-- Give the place of `elm`, which has at most the child `child`, to that child. -/
def spliceOut (ix : Idx E) (elm : E) (child : Option E) : Idx E :=
  let parent := (ix.node elm).parent
  (ix.setParentOf child parent).replaceChild parent elm child

/-- `REMOVE` for a row with two children: its successor takes its place. -/
def removeInner (fuel : ℕ) (ix : Idx E) (old right : E) : Option (Idx E) := do
  let elm ← descendTo .left ix fuel right
  let child := (ix.node elm).right
  let parent := (ix.node elm).parent
  let color := (ix.node elm).color
  let ix := ix.spliceOut elm child
  let parent := if (ix.node elm).parent = some old then some elm else parent
  let ix := ix.replace old elm
  if color = .black then removeColor fuel ix parent child else some ix

/-- `REMOVE` for a row with at most one child. -/
def removeOuter (fuel : ℕ) (ix : Idx E) (elm : E) (child : Option E) : Option (Idx E) :=
  let parent := (ix.node elm).parent
  let color := (ix.node elm).color
  let ix := ix.spliceOut elm child
  if color = .black then removeColor fuel ix parent child else some ix

/-- The tree part of `REMOVE`. -/
def removeTree (fuel : ℕ) (ix : Idx E) (elm : E) : Option (Idx E) :=
  match (ix.node elm).left, (ix.node elm).right with
  | none, child => removeOuter fuel ix elm child
  | some child, none => removeOuter fuel ix elm (some child)
  | some _, some right => removeInner fuel ix elm right

def remove (fuel : ℕ) (ix : Idx E) (elm : E) : Option (Idx E) :=
  let ix := ix.chainDetach elm
  if (ix.node elm).color = .white then some (ix.clear elm)
  else
    match (ix.node elm).next with
    | some n => some ((ix.replace elm n).clear elm)
    | none => do
      let ix ← removeTree fuel ix elm
      some (ix.clear elm)

/-! ## Lookup and traversal -/

/-- `FIND`; `cmp e` compares the value looked for with the key of `e`. -/
def find (cmp : E → ℤ) (ix : Idx E) : ℕ → Option E → Option (Option E)
  | _, none => some none
  | 0, some _ => none
  | fuel + 1, some tmp =>
    if cmp tmp < 0 then find cmp ix fuel (ix.node tmp).left
    else if 0 < cmp tmp then find cmp ix fuel (ix.node tmp).right
    else some (some tmp)

/-- Climb while `elm` is on side `d` of its parent, then once more. -/
def climb (d : Dir) (ix : Idx E) : ℕ → E → Option (Option E)
  | 0, _ => none
  | fuel + 1, elm =>
    match (ix.node elm).parent with
    | some p => if (ix.node p).child d = some elm then climb d ix fuel p else some (some p)
    | none => some none

/-- The tree neighbour on side `d`. -/
def treeStep (d : Dir) (fuel : ℕ) (ix : Idx E) (elm : E) : Option (Option E) :=
  match (ix.node elm).child d with
  | some e => (descendTo d.flip ix fuel e).map some
  | none => climb d ix fuel elm

def treeNext (fuel : ℕ) (ix : Idx E) (elm : E) : Option (Option E) := treeStep .right fuel ix elm

def treePrev (fuel : ℕ) (ix : Idx E) (elm : E) : Option (Option E) := treeStep .left fuel ix elm

/-- `while (PREV(elm)) elm = PREV(elm)`. -/
def chainHead (ix : Idx E) : ℕ → E → Option E
  | 0, _ => none
  | fuel + 1, elm =>
    match (ix.node elm).prev with
    | some p => chainHead ix fuel p
    | none => some elm

/-- `while (NEXT(elm)) elm = NEXT(elm)`. -/
def chainTail (ix : Idx E) : ℕ → E → Option E
  | 0, _ => none
  | fuel + 1, elm =>
    match (ix.node elm).next with
    | some n => chainTail ix fuel n
    | none => some elm

def idxNext (fuel : ℕ) (ix : Idx E) (elm : E) : Option (Option E) :=
  match (ix.node elm).next with
  | some n => some (some n)
  | none => do
    let head ← ix.chainHead fuel elm
    treeNext fuel ix head

def idxPrev (fuel : ℕ) (ix : Idx E) (elm : E) : Option (Option E) :=
  match (ix.node elm).prev with
  | some p => some (some p)
  | none => do
    match ← treePrev fuel ix elm with
    | some p => (ix.chainTail fuel p).map some
    | none => some none

/-- `MINMAX` with `RB_NEGINF`. -/
def first (fuel : ℕ) (ix : Idx E) : Option (Option E) :=
  match ix.root with
  | some r => (descendTo .left ix fuel r).map some
  | none => some none

/-- `MINMAX` with `RB_INF`. -/
def last (fuel : ℕ) (ix : Idx E) : Option (Option E) :=
  match ix.root with
  | some r => do
    let m ← descendTo .right ix fuel r
    (ix.chainTail fuel m).map some
  | none => some none

/-- `for (e = FIRST; e; e = IDX_NEXT(e))`, started in the middle: the rows visited. -/
def walk (fuel : ℕ) (ix : Idx E) : ℕ → Option E → Option (List E)
  | _, none => some []
  | 0, some _ => none
  | n + 1, some e => do
    let next ← idxNext fuel ix e
    let rest ← walk fuel ix n next
    some (e :: rest)

end Idx
end Mand.Index
