import Mand.Index.Run

/-! # Traversal in both directions

`MINMAX` with `RB_INF` and `IDX_PREV` are the mirror images of `MINMAX` with `RB_NEGINF` and `IDX_NEXT`. -/
namespace Mand.Index
open Mand.Rb Mand.Groups Mand.Store
set_option autoImplicit false

variable {E : Type}

/-! ## Loops over rows -/

/-- Take rows until there is no next one. -/
def follow (next : E → Option (Option E)) : ℕ → Option E → Option (List E)
  | _, none => some []
  | 0, some _ => none
  | n + 1, some e => do
    let e' ← next e
    let rest ← follow next n e'
    some (e :: rest)

/-- A loop whose steps go along a list takes all of it. -/
theorem follow_list (next : E → Option (Option E)) (xs ys : List E) (n : ℕ) (hn : ys.length ≤ n)
    (h : ∀ pre x post, xs ++ ys = pre ++ x :: post → next x = some post.head?) :
    follow next n ys.head? = some ys := by
  induction ys generalizing xs n with
  | nil => cases n <;> rfl
  | cons y ys ih =>
    rw [List.length_cons] at hn
    obtain ⟨n, rfl⟩ : ∃ k, n = k + 1 := ⟨n - 1, by omega⟩
    have hnext := h xs y ys rfl
    have hrest := ih (xs ++ [y]) n (by omega) fun pre x post heq => h pre x post (by rw [← heq]; simp)
    simp [follow, hnext, hrest]

section Back
variable [DecidableEq E]

/-! ## The last row -/

omit [DecidableEq E] in
theorem rowsOf_getLast (gs : List (Group E)) :
    (rowsOf gs).getLast? = gs.getLast?.bind fun g => g.members.getLast? := by
  induction gs using List.reverseRecOn with
  | nil => rfl
  | append_singleton gs g ih =>
    have hrows : rowsOf (gs ++ [g]) = rowsOf gs ++ g.members := by simp [rowsOf]
    rw [hrows, List.getLast?_append, List.getLast?_concat, Option.bind_some]
    simp [Group.members, List.getLast?_cons]

omit [DecidableEq E] in
theorem chainTail_rep (ix : Idx E) (p : E) (xs : List E) (fuel : ℕ) (hp : (ix.node p).next = xs.head?)
    (h : ChainRep ix.node p xs) (hfuel : xs.length < fuel) : Idx.chainTail ix fuel p = (p :: xs).getLast? := by
  induction xs generalizing p fuel with
  | nil =>
    obtain ⟨fuel, rfl⟩ : ∃ n, fuel = n + 1 := ⟨fuel - 1, by omega⟩
    simp [Idx.chainTail, hp]
  | cons x xs ih =>
    rw [List.length_cons] at hfuel
    obtain ⟨fuel, rfl⟩ : ∃ n, fuel = n + 1 := ⟨fuel - 1, by omega⟩
    have hrec := ih x fuel (by rw [h.1]) h.2 (by omega)
    rw [List.getLast?_cons_cons, ← hrec]
    simp [Idx.chainTail, hp]

omit [DecidableEq E] in
/-- The rows of a group hang behind its head. -/
theorem rep_group (h : E → Node E) (par : Option E) (t : Tree (Group E)) (hr : Rep h par t) (k : Group E)
    (hk : k ∈ t.toList) : (h k.head).next = k.chain.head? ∧ ChainRep h k.head k.chain := by
  induction t generalizing par with
  | nil => exact absurd hk List.not_mem_nil
  | node c l g r ihl ihr =>
    obtain ⟨hg, hch, hl, hr⟩ := hr
    rw [Tree.toList, List.mem_append, List.mem_cons] at hk
    rcases hk with hk | rfl | hk
    · exact ihl _ hl hk
    · exact ⟨by rw [hg, cell_next], hch⟩
    · exact ihr _ hr hk

theorem group_tail (base : E → Node E) (fuel : ℕ) (ix : Idx E) (t : Tree (Group E)) (h : Focus base ix [] t)
    (k : Group E) (hk : k ∈ t.toList) (hfuel : (rowsOf t.toList).length < fuel) :
    Idx.chainTail ix fuel k.head = k.members.getLast? := by
  obtain ⟨hnext, hch⟩ := rep_group ix.node none t h.rep k hk
  obtain ⟨l, r, hlr⟩ := List.append_of_mem hk
  refine chainTail_rep ix k.head k.chain fuel hnext hch ?_
  rw [hlr] at hfuel
  simp only [rowsOf, List.flatMap_append, List.flatMap_cons, Group.members, List.length_append, List.length_cons] at hfuel
  omega

omit [DecidableEq E] in
theorem head_last (fuel : ℕ) (ix : Idx E) (t : Tree (Group E)) (par : Option E) (e : E)
    (h : Rep ix.node par t) (he : ptr t = some e) (hfuel : t.toList.length < fuel) :
    Idx.descendTo .right ix fuel e = t.toList.getLast?.map Group.head := by
  cases t with
  | nil => cases he
  | node c l g r =>
    cases he
    simp only [Tree.toList, List.length_append, List.length_cons] at hfuel
    obtain ⟨q, c', k, b, hdesc, hfill, hq⟩ := descendTo_rep .right fuel ix par c r l g h (by omega)
    have hfill' : Rb.Tree.node c l g r = fill q (Tree.branch .right c' .nil k b) := hfill
    rw [hdesc, hfill', toList_fill, after_of_right q hq]
    simp [Tree.branch, Tree.toList]

/-- `MINMAX` finds the last row. -/
theorem last_focus (base : E → Node E) (fuel : ℕ) (ix : Idx E) (t : Tree (Group E))
    (h : Focus base ix [] t) (hfuel : (rowsOf t.toList).length < fuel) :
    Idx.last fuel ix = some (rowsOf t.toList).getLast? := by
  have hroot : ix.root = ptr t := h.ctx
  have hlen := length_le_rowsOf t.toList
  rw [Idx.last, hroot, rowsOf_getLast]
  cases ht : ptr t with
  | none =>
    cases t with
    | nil => rfl
    | node c l g r => cases ht
  | some e =>
    simp only [head_last fuel ix t _ e h.rep ht (by omega)]
    cases hl : t.toList.getLast? with
    | none =>
      cases t with
      | nil => cases ht
      | node c l g r => simp [Tree.toList] at hl
    | some k =>
      have hk : k ∈ t.toList := List.mem_of_getLast? hl
      simp [group_tail base fuel ix t h k hk hfuel, Group.members, List.getLast?_cons]

/-! ## The row before -/

/-- Climbing out of a subtree on the left leads to the group before it. -/
theorem climb_left_focus (base : E → Node E) (ix : Idx E) (path : List (Frame (Group E)))
    (t : Tree (Group E)) (e : E) (fuel : ℕ) (h : Focus base ix path t) (he : ptr t = some e)
    (hfuel : path.length < fuel) :
    Idx.climb .left ix fuel e = some ((before path).getLast?.map Group.head) := by
  induction path generalizing t e fuel with
  | nil =>
    obtain ⟨fuel, rfl⟩ : ∃ k, fuel = k + 1 := ⟨fuel - 1, by omega⟩
    cases t with
    | nil => cases he
    | node c l g r =>
      cases he
      have hpar : (ix.node g.head).parent = none := by rw [h.rep.1]; rfl
      simp only [Idx.climb, hpar]
      rfl
  | cons f path ih =>
    rw [List.length_cons] at hfuel
    obtain ⟨fuel, rfl⟩ : ∃ k, fuel = k + 1 := ⟨fuel - 1, by omega⟩
    have hframe := focus_frame base ix path f t h
    have hpar : (ix.node e).parent = some f.val.head := by
      cases t with
      | nil => cases he
      | node c l g r =>
        cases he
        rw [h.rep.1]
        rfl
    have hne := focus_ptr_ne base ix path f t e h he
    simp only [Idx.climb, hpar, hframe, before]
    cases hd : f.dir with
    | left =>
      have hchild : (cell Dir.left (ptr t) (ptr f.sib) (parentOf path) f.color f.val.chain).child
          .left = some e := he
      rw [if_pos hchild]
      exact ih (f.attach t) f.val.head fuel ((focus_cons _ _ _ _ _).mp h) (ptr_branch _ _ _ _ _)
        (by omega)
    | right =>
      have hother : ¬(cell Dir.right (ptr t) (ptr f.sib) (parentOf path) f.color f.val.chain).child
          .left = some e := hne
      rw [if_neg hother]
      simp

/-- `TREE_PREV` of the head of a group is the head of the one before. -/
theorem treePrev_focus (base : E → Node E) (fuel : ℕ) (ix : Idx E) (path : List (Frame (Group E)))
    (c : Color) (a b : Tree (Group E)) (g : Group E) (h : Focus base ix path (.node c a g b))
    (hfuel : (fill path (.node c a g b)).toList.length < fuel) :
    Idx.treePrev fuel ix g.head = some ((before path ++ a.toList).getLast?.map Group.head) := by
  have hlen := length_path_le path (.node c a g b)
  simp only [Tree.toList, List.length_append, List.length_cons] at hlen
  have hleft : (ix.node g.head).child .left = ptr a := by rw [h.rep.1]; rfl
  rw [Idx.treePrev, Idx.treeStep, hleft]
  cases ha : ptr a with
  | none =>
    cases a with
    | nil =>
      rw [Tree.toList, List.append_nil]
      exact climb_left_focus base ix path _ g.head fuel h rfl (by omega)
    | node ca la ga ra => cases ha
  | some e =>
    have hlast := head_last fuel ix a _ e h.rep.2.2.1 ha (by omega)
    simp only [Dir.flip, hlast]
    cases a with
    | nil => cases ha
    | node ca la ga ra => simp [Tree.toList, List.getLast?_append, List.getLast?_cons]

/-- `IDX_PREV` inside a group, and from its head to the last row of the group before. -/
theorem idxPrev_place (base : E → Node E) (fuel : ℕ) (ix : Idx E) (path : List (Frame (Group E)))
    (c : Color) (a b : Tree (Group E)) (g : Group E) (x : E) (pre post : List E)
    (h : Focus base ix path (.node c a g b)) (hg : g.members = pre ++ x :: post)
    (hfuel : (rowsOf (fill path (.node c a g b)).toList).length < fuel) :
    Idx.idxPrev fuel ix x = some (rowsOf (before path ++ a.toList) ++ pre).getLast? := by
  obtain ⟨hk, hch, -, -⟩ := h.rep
  have hlen := length_le_rowsOf (fill path (.node c a g b)).toList
  cases pre with
  | nil =>
    rw [List.nil_append, Group.members, List.cons.injEq] at hg
    obtain ⟨rfl, rfl⟩ := hg
    have hprev : (ix.node g.head).prev = none := by rw [hk, cell_prev]
    have htree := treePrev_focus base fuel ix path c a b g h (by omega)
    rw [List.append_nil, rowsOf_getLast, Idx.idxPrev, hprev]
    simp only [htree, Option.bind_eq_bind, Option.bind_some]
    cases hl : (before path ++ a.toList).getLast? with
    | none => rfl
    | some k =>
      have hmem : k ∈ (fill path (.node c a g b)).toList := by
        have hin := List.mem_of_getLast? hl
        rw [toList_fill, Tree.toList, ← List.append_assoc]
        exact List.mem_append_left _ (List.mem_append_left _ hin)
      have htail := group_tail base fuel ix _ ((focus_root _ _ _ _).mp h) k hmem hfuel
      simp [htail, Group.members, List.getLast?_cons]
  | cons z pre =>
    rw [List.cons_append, Group.members, List.cons.injEq] at hg
    obtain ⟨rfl, hchain⟩ := hg
    rw [hchain] at hch
    have hx := chainRep_node ix.node g.head x pre post hch
    simp [Idx.idxPrev, hx, List.getLast?_append, List.getLast?_cons, List.getLastD_eq_getLast?]

/-- `IDX_PREV` follows the order of the rows backwards. -/
theorem idxPrev_focus (base : E → Node E) (fuel : ℕ) (ix : Idx E) (t : Tree (Group E))
    (x : E) (xs ys : List E) (h : Focus base ix [] t) (hrows : rowsOf t.toList = xs ++ x :: ys)
    (hfuel : (rowsOf t.toList).length < fuel) : Idx.idxPrev fuel ix x = some xs.getLast? := by
  obtain ⟨path, c, a, g, b, pre, post, rfl, hmem, hsplit⟩ := place_rows base ix t x xs ys h hrows
  have hprev := idxPrev_place base fuel ix path c a b g x pre post ((focus_root _ _ _ _).mpr h) hmem hfuel
  rw [hprev, hsplit.1]

end Back

/-! ## The columns of a table -/

/-- `id2idx`: the first index of a column. -/
def InstTree.id2idx (tree : InstTree E) (id : ℕ) : Option (TreeIdx E) :=
  tree.idx.find? fun ti => ti.entry.element = id

section Columns
variable [DecidableEq E] (fuel : ℕ) (tree : InstTree E) (id : ℕ)

/-- `dm_instance_first_idx`. -/
def InstTree.firstIdx : Option (Option E) :=
  match tree.id2idx id with
  | some ti => ti.idx.first fuel
  | none => some none

/-- `dm_instance_last_idx`. -/
def InstTree.lastIdx : Option (Option E) :=
  match tree.id2idx id with
  | some ti => ti.idx.last fuel
  | none => some none

/-- `dm_instance_next_idx`; it is an error to ask for a column without an index. -/
def InstTree.nextIdx (e : E) : Option (Option E) := do
  let ti ← tree.id2idx id
  ti.idx.idxNext fuel e

/-- `dm_instance_prev_idx`. -/
def InstTree.prevIdx (e : E) : Option (Option E) := do
  let ti ← tree.id2idx id
  ti.idx.idxPrev fuel e

/-- `for (e = dm_instance_first_idx(id); e; e = dm_instance_next_idx(id, e))`: the rows visited. -/
def InstTree.forward : Option (List E) := do
  let e ← tree.firstIdx fuel id
  follow (tree.nextIdx fuel id) fuel e

/-- `for (e = dm_instance_last_idx(id); e; e = dm_instance_prev_idx(id, e))`. -/
def InstTree.backward : Option (List E) := do
  let e ← tree.lastIdx fuel id
  follow (tree.prevIdx fuel id) fuel e

end Columns

/-- The node of the row is in use: it is in the tree, or in a chain. -/
def Idx.Linked (ix : Idx E) (x : E) : Prop := ix.node x ≠ Node.zero

section Traversal
variable [DecidableEq E] {fuel : ℕ} {tree : InstTree E} {id : ℕ} {ti : TreeIdx E} {t : Tree (Group E)}

omit [DecidableEq E] in
/-- A node in the tree has a colour, and one in a chain has a row before it. -/
theorem linked_of_rep (ix : Idx E) (par : Option E) (t : Tree (Group E)) (h : Rep ix.node par t) (x : E)
    (hx : x ∈ rows t) : ix.Linked x := by
  induction t generalizing par with
  | nil => exact absurd hx List.not_mem_nil
  | node c l g r ihl ihr =>
    obtain ⟨hg, hch, hl, hr⟩ := h
    simp only [rows, List.mem_append] at hx
    rcases hx with hx | hx | hx
    · intro hzero
      rcases List.mem_cons.mp hx with rfl | hx
      · rw [hg] at hzero
        have hcolor := congrArg Node.color hzero
        rw [cell_color] at hcolor
        cases c <;> cases hcolor
      · obtain ⟨pre, post, hsplit⟩ := List.append_of_mem hx
        rw [hsplit] at hch
        rw [chainRep_node ix.node g.head x pre post hch] at hzero
        have hprev := congrArg Node.prev hzero
        cases hprev
    · exact ihl _ hl hx
    · exact ihr _ hr hx

omit [DecidableEq E] in
theorem linked_iff (ix : Idx E) (h : Focus (fun _ => Node.zero) ix [] t) (x : E) :
    ix.Linked x ↔ x ∈ rowsOf t.toList := by
  rw [← (rows_perm t).mem_iff]
  constructor
  · intro hx
    by_contra hno
    exact hx (h.rest x hno List.not_mem_nil)
  · exact linked_of_rep ix none t h.rep x

theorem forward_focus (hid : tree.id2idx id = some ti) (h : Focus (fun _ => Node.zero) ti.idx [] t)
    (hfuel : (rowsOf t.toList).length < fuel) : tree.forward fuel id = some (rowsOf t.toList) := by
  have hlen := length_le_rowsOf t.toList
  have hnext : ∀ pre x post, [] ++ rowsOf t.toList = pre ++ x :: post → tree.nextIdx fuel id x = some post.head? := by
    intro pre x post hsplit
    rw [InstTree.nextIdx, hid]
    exact idxNext_focus _ fuel ti.idx t x pre post h hsplit hfuel
  rw [InstTree.forward, InstTree.firstIdx, hid]
  simp only [first_focus _ fuel ti.idx t h (by omega), Option.bind_eq_bind, Option.bind_some]
  exact follow_list _ [] _ fuel (by omega) hnext

theorem backward_focus (hid : tree.id2idx id = some ti) (h : Focus (fun _ => Node.zero) ti.idx [] t)
    (hfuel : (rowsOf t.toList).length < fuel) : tree.backward fuel id = some (rowsOf t.toList).reverse := by
  have hprev : ∀ pre x post, [] ++ (rowsOf t.toList).reverse = pre ++ x :: post →
      tree.prevIdx fuel id x = some post.head? := by
    intro pre x post hsplit
    have hsplit' : rowsOf t.toList = post.reverse ++ x :: pre.reverse := by
      have hrev := congrArg List.reverse hsplit
      simpa using hrev
    rw [InstTree.prevIdx, hid, ← List.getLast?_reverse]
    exact idxPrev_focus _ fuel ti.idx t x post.reverse pre.reverse h hsplit' hfuel
  rw [InstTree.backward, InstTree.lastIdx, hid]
  simp only [last_focus _ fuel ti.idx t h hfuel, Option.bind_eq_bind, Option.bind_some, ← List.head?_reverse]
  exact follow_list _ [] _ fuel (by rw [List.length_reverse]; omega) hprev

end Traversal

/-- **Traversal.** In every index that rows were inserted into, removed from and re-indexed in, the loop from the
first row on visits each linked row once, in the order of the keys, and the loop from the last row on visits them in
the reverse order. -/
theorem index_traversal [DecidableEq E] (entries : List IndexEntry) (K : IndexEntry → Key → Prop)
    (hK : ∀ e ∈ entries, PreorderOn (K e) e.cmp) (row : E → Row) (ops : List (Op E))
    (hops : AllSteps (Legal K entries) ⟨row, []⟩ ops) (fuel : ℕ) (hfuel : ops.length < fuel) :
    ∃ s, (Table.alloc entries row).run fuel ops = some s ∧
      ∀ id ti, s.tree.id2idx id = some ti → ∃ l : List E, l.Nodup ∧ (∀ x, x ∈ l ↔ ti.idx.Linked x) ∧
        l.Pairwise (fun x y => cmpEntry ti.entry (s.row x) (s.row y) ≤ 0) ∧
        s.tree.forward fuel id = some l ∧ s.tree.backward fuel id = some l.reverse ∧
        (ti.entry.unique = false → l.Perm (Contents.run ⟨row, []⟩ ops).live) := by
  obtain ⟨s, hrun, h⟩ := run_wf False hK ops (Table.alloc entries row) ⟨row, []⟩
    (TableWf.alloc False K entries row)
    (AllSteps.imp (fun c op hleg => ⟨hleg, fun hf => absurd hf id⟩) _ ops hops) fuel (by simpa)
  have hlen := length_live_run ⟨row, []⟩ ops
  rw [List.length_nil, Nat.zero_add] at hlen
  refine ⟨s, hrun, ?_⟩
  intro id ti hid
  have hti : ti ∈ s.tree.idx := List.mem_of_find?_eq_some hid
  obtain ⟨t, hwf, -⟩ := h.idx ti hti
  have hrows := hwf.length_rows
  refine ⟨rowsOf t.toList, hwf.nodup, fun x => (linked_iff ti.idx hwf.focus x).symm, ?_,
    forward_focus hid hwf.focus (by omega), backward_focus hid hwf.focus (by omega), hwf.all⟩
  rw [h.row]
  exact hwf.ordered.sorted
    ((hK _ (h.mem_entries ti hti)).comap fun x => ti.entry.key ((Contents.run ⟨row, []⟩ ops).row x))
    fun x hx => h.keys _ (h.mem_entries ti hti) x (hwf.mem_live x hx)

theorem index_traversal_sample :
    ∃ s, (Table.alloc sampleEntries sampleRow).run 6 sampleOps = some s ∧
      ∀ id ti, s.tree.id2idx id = some ti → ∃ l : List ℕ, l.Nodup ∧ (∀ x, x ∈ l ↔ ti.idx.Linked x) ∧
        l.Pairwise (fun x y => cmpEntry ti.entry (s.row x) (s.row y) ≤ 0) ∧
        s.tree.forward 6 id = some l ∧ s.tree.backward 6 id = some l.reverse ∧
        (ti.entry.unique = false → l.Perm (Contents.run ⟨sampleRow, []⟩ sampleOps).live) :=
  index_traversal sampleEntries (fun e k => e.type = .inst ∨ HasType e.type k.value)
    (fun e he => column_preorder e
      (by rcases List.mem_pair.mp he with rfl | rfl <;> decide)
      (by rcases List.mem_pair.mp he with rfl | rfl <;> decide)
      (by rcases List.mem_pair.mp he with rfl | rfl <;> decide))
    sampleRow sampleOps
    (by simp [AllSteps, sampleOps, Legal, sampleEntries, sampleRow, Contents.step, HasType,
      IndexEntry.key])
    6 (by decide)

/-- The column of the numbers that repeat, in both directions. -/
example : ((Table.alloc sampleEntries sampleRow).run 6 sampleOps).bind (fun s => s.tree.backward 6 1) = some [2, 3] := by
  decide

end Mand.Index
