import Mand.Index.Walk
import Mand.Store.Value
import Mathlib.Algebra.Group.Nat.Defs

/-! # The indexes of a table

An instance tree (`TREE`) has one index for every entry of its definition. Inserting and removing a
row goes through all of them, `update_index` through the first one of a column. -/
namespace Mand.Index
open Mand.Rb Mand.Groups Mand.Store
set_option autoImplicit false

/-- An entry of an `index_definition`; the only flag is `IDX_UNIQUE`. -/
structure IndexEntry where
  unique : Bool
  type : DmType
  element : ℕ
  deriving DecidableEq, Repr

/-- What the indexes read of a row: its number, its values by id and where they stand in memory. -/
structure Row where
  inst : ℕ
  value : ℕ → Value
  pos : ℤ

structure Key where
  inst : ℤ
  value : Value
  pos : ℤ

/-- The part of a row that the comparison of an entry reads. -/
def IndexEntry.key (e : IndexEntry) (r : Row) : Key :=
  if e.type = .inst then ⟨r.inst, .int 0, 0⟩ else ⟨0, r.value e.element, r.pos⟩

def IndexEntry.cmp (e : IndexEntry) (a b : Key) : ℤ :=
  if e.type = .inst then intcmp a.inst b.inst
  else dmCompareValues e.type (a.pos - b.pos) a.value b.value

def cmpEntry (e : IndexEntry) (a b : Row) : ℤ := e.cmp (e.key a) (e.key b)

/-- `DM_INT`: the `int` member of the union. -/
def dmInt : Value → ℤ
  | .int n => n
  | .uint n => n
  | .bool n => n
  | .enum n => n
  | _ => 0

/-- A value to look for, that stands at `pos`. -/
def valueKey (val : Value) (pos : ℤ) : Key := ⟨dmInt val, val, pos⟩

def cmpValue (e : IndexEntry) (val : Value) (pos : ℤ) (b : Row) : ℤ :=
  e.cmp (valueKey val pos) (e.key b)

structure TreeIdx (E : Type) where
  entry : IndexEntry
  idx : Idx E

/-- `TREE`: the row counter and the indexes. -/
structure InstTree (E : Type) where
  cnt : ℕ
  idx : List (TreeIdx E)

variable {E : Type}

/-- `dm_alloc_instance`. -/
def InstTree.alloc (entries : List IndexEntry) : InstTree E := ⟨0, entries.map fun e => ⟨e, Idx.empty⟩⟩

variable [DecidableEq E]

/-- `INSERT`, undone in a unique index that has the key already. -/
def TreeIdx.insert (fuel : ℕ) (row : E → Row) (ti : TreeIdx E) (x : E) : Option (TreeIdx E) := do
  let (dup, ix) ← ti.idx.insert fuel (fun e => cmpEntry ti.entry (row x) (row e)) x
  let ix ← if dup.isSome = true ∧ ti.entry.unique = true then ix.remove fuel x else some ix
  some { ti with idx := ix }

/-- `update_idx`. -/
def TreeIdx.update (fuel : ℕ) (row : E → Row) (ti : TreeIdx E) (x : E) : Option (TreeIdx E) := do
  let ix ← ti.idx.remove fuel x
  TreeIdx.insert fuel row { ti with idx := ix } x

/-- The part of `insert_instance` that concerns the tree; `init_indexes` clears the nodes. -/
def InstTree.insert (fuel : ℕ) (row : E → Row) (tree : InstTree E) (x : E) :
    Option (InstTree E) := do
  let idx ← tree.idx.mapM fun ti => TreeIdx.insert fuel row { ti with idx := ti.idx.clear x } x
  some ⟨(tree.cnt + 1) % 2 ^ 32, idx⟩

/-- The part of `remove_instance` that concerns the tree; `clear_indexes` clears the nodes. -/
def InstTree.remove (fuel : ℕ) (tree : InstTree E) (x : E) : Option (InstTree E) := do
  let idx ← tree.idx.mapM fun ti => do
    let ix ← ti.idx.remove fuel x
    some { ti with idx := ix.clear x }
  some ⟨(tree.cnt + (2 ^ 32 - 1)) % 2 ^ 32, idx⟩

/-- Change the first index of column `id` (`id2idx`), if there is one. -/
def atColumn (id : ℕ) (f : TreeIdx E → Option (TreeIdx E)) :
    List (TreeIdx E) → Option (List (TreeIdx E))
  | [] => some []
  | ti :: rest =>
    if ti.entry.element = id then do
      let ti ← f ti
      some (ti :: rest)
    else do
      let rest ← atColumn id f rest
      some (ti :: rest)

/-- `update_index` of a row in the tree. -/
def InstTree.updateIndex (fuel : ℕ) (row : E → Row) (tree : InstTree E) (id : ℕ) (x : E) :
    Option (InstTree E) := do
  let idx ← atColumn id (fun ti => ti.update fuel row x) tree.idx
  some { tree with idx := idx }

/-- `update_instance_node_index` of a row in the tree. -/
def InstTree.updateAll (fuel : ℕ) (row : E → Row) (tree : InstTree E) (x : E) :
    Option (InstTree E) := do
  let idx ← tree.idx.mapM fun ti => ti.update fuel row x
  some { tree with idx := idx }

/-- The loop of `find_instance` for a column without an index. It visits the tree nodes of index 0
and not the rows in their chains. -/
def scan (fuel : ℕ) (p : E → Bool) (ix : Idx E) : ℕ → Option E → Option (Option E)
  | _, none => some none
  | 0, some _ => none
  | n + 1, some e =>
    if p e = true then some (some e)
    else do
      let next ← ix.treeNext fuel e
      scan fuel p ix n next

def findInstance (fuel : ℕ) (row : E → Row) (tree : InstTree E) (id : ℕ) (type : DmType)
    (val : Value) (pos : ℤ) : Option (Option E) :=
  match tree.idx.find? fun ti => ti.entry.element = id with
  | some ti => ti.idx.find (fun e => cmpValue ti.entry val pos (row e)) fuel ti.idx.root
  | none => do
    let ti ← tree.idx.head?
    let e ← ti.idx.first fuel
    scan fuel (fun e => dmCompareValues type (pos - (row e).pos) val ((row e).value id) = 0) ti.idx
      fuel e

/-! ## Well-formed indexes -/

/-- The index represents the balanced tree `t` over the rows in `live`. In a unique index every group
is a single row, and rows may be missing. -/
structure IndexShape (e : IndexEntry) (live : List E) (ix : Idx E) (t : Tree (Group E)) : Prop where
  focus : Focus (fun _ => Node.zero) ix [] t
  balanced : ∃ m, Bal t .black m
  unique : e.unique = true → (∀ g ∈ t.toList, g.chain = []) ∧ ∀ x ∈ rowsOf t.toList, x ∈ live
  all : e.unique = false → (rowsOf t.toList).Perm live

/-- The tree is a search tree, and the rows of a group have equal keys. -/
structure IndexWf (e : IndexEntry) (row : E → Row) (live : List E) (ix : Idx E)
    (t : Tree (Group E)) : Prop extends IndexShape e live ix t where
  ordered : Ordered (fun a b => cmpEntry e (row a) (row b)) t.toList

/-! ## Any comparison -/

section Shape
variable {e : IndexEntry} {live : List E} {ix : Idx E} {t : Tree (Group E)}

omit [DecidableEq E] in
theorem IndexShape.mem_live (h : IndexShape e live ix t) (x : E) (hx : x ∈ rowsOf t.toList) :
    x ∈ live := by
  cases hu : e.unique with
  | true => exact (h.unique hu).2 x hx
  | false => exact (h.all hu).mem_iff.mp hx

omit [DecidableEq E] in
theorem IndexShape.nodup (h : IndexShape e live ix t) : (rowsOf t.toList).Nodup := by
  rw [← (rows_perm t).nodup_iff]
  exact (List.nodup_append.mp h.focus.nodup).1

omit [DecidableEq E] in
theorem IndexShape.length_rows (h : IndexShape e live ix t) :
    (rowsOf t.toList).length ≤ live.length :=
  (h.nodup.subperm fun x hx => h.mem_live x hx).length_le

omit [DecidableEq E] in
theorem IndexShape.length_le (h : IndexShape e live ix t) : t.toList.length ≤ live.length :=
  Nat.le_trans (length_le_rowsOf t.toList) h.length_rows

omit [DecidableEq E] in
theorem IndexShape.empty (e : IndexEntry) : IndexShape (E := E) e [] Idx.empty .nil :=
  ⟨⟨trivial, rfl, List.nodup_nil, fun _ _ _ => rfl⟩, ⟨0, .nil⟩,
    fun _ => ⟨fun _ hg => absurd hg List.not_mem_nil, fun _ hx => absurd hx List.not_mem_nil⟩,
    fun _ => List.Perm.refl _⟩

omit [DecidableEq E] in
theorem IndexShape.perm (h : IndexShape e live ix t) (live' : List E) (hp : live.Perm live') :
    IndexShape e live' ix t :=
  ⟨h.focus, h.balanced,
    fun hu => ⟨(h.unique hu).1, fun x hx => hp.mem_iff.mp ((h.unique hu).2 x hx)⟩,
    fun hu => (h.all hu).trans hp⟩

/-- A row that is not in the index has an empty node already. -/
theorem IndexShape.clear (h : IndexShape e live ix t) (x : E) (hx : x ∉ live) :
    IndexShape e live (ix.clear x) t := by
  have hxt : x ∉ rows t := fun hm => hx (h.mem_live x ((rows_perm t).mem_iff.mp hm))
  refine ⟨?_, h.balanced, h.unique, h.all⟩
  refine clear_focus _ ix t x Node.zero (h.focus.rebase fun y _ _ => ?_) hxt rfl
  simp [Function.update_apply]

/-- `REMOVE`: the index of the remaining rows. -/
theorem IndexShape.remove (h : IndexShape e live ix t) (hnd : live.Nodup) (x : E) (fuel : ℕ)
    (hfuel : live.length < fuel) :
    ∃ ix' t', ix.remove fuel x = some ix' ∧ IndexShape e (live.erase x) ix' t' ∧
      t'.toList = dropRow x t.toList := by
  obtain ⟨m, hm⟩ := h.balanced
  have hlen := h.length_le
  obtain ⟨ix', t', m', hrem, h', hm', hl⟩ := remove_focus fuel ix t m x h.focus hm (by omega)
  have hrows := rowsOf_dropRow x t.toList h.nodup
  refine ⟨ix', t', hrem, ⟨h', ⟨m', hm'⟩, ?_, ?_⟩, hl⟩
  · intro hu
    rw [hl]
    refine ⟨fun g hg => ?_, fun y hy => ?_⟩
    · obtain ⟨k, hk, hkg⟩ := List.mem_filterMap.mp hg
      have hch := (h.unique hu).1 k hk
      rw [Group.without, hch] at hkg
      split_ifs at hkg
      cases hkg
      rfl
    · rw [hrows] at hy
      have hy2 := (h.nodup.mem_erase_iff).mp hy
      exact (hnd.mem_erase_iff).mpr ⟨hy2.1, (h.unique hu).2 y hy2.2⟩
  · intro hu
    rw [hl, hrows]
    exact (h.all hu).erase x

/-- `INSERT`, with the check of a unique index. -/
theorem IndexShape.insert (h : IndexShape e live ix t) (row : E → Row) (x : E) (hx : x ∉ live)
    (fuel : ℕ) (hfuel : live.length + 1 < fuel) :
    ∃ ix' t' gs dup, TreeIdx.insert fuel row ⟨e, ix⟩ x = some ⟨e, ix'⟩ ∧
      IndexShape e (x :: live) ix' t' ∧ Added x t.toList gs dup ∧
      (Cut (fun y => cmpEntry e (row x) (row y)) t.toList →
        dup = lookup (fun y => cmpEntry e (row x) (row y)) t.toList ∧
        gs = addRow (fun y => cmpEntry e (row x) (row y)) x t.toList) ∧
      t'.toList = if dup.isSome = true ∧ e.unique = true then t.toList else gs := by
  obtain ⟨m, hm⟩ := h.balanced
  have hlen := h.length_le
  have hxt : x ∉ rowsOf t.toList := fun hm => hx (h.mem_live x hm)
  obtain ⟨ix1, t1, m1, dup, hins, h1, hm1, hadd, hcut⟩ := insert_focus fuel
    (fun y => cmpEntry e (row x) (row y)) ix t m x h.focus hm
    (fun hm => hxt ((rows_perm t).mem_iff.mp hm)) (by omega)
  have hperm := hadd.rows
  by_cases hdup : dup.isSome = true ∧ e.unique = true
  · -- The row is unlinked again.
    have hlen1 := hperm.length_eq
    rw [List.length_cons] at hlen1
    have hrl := h.length_rows
    have hg1 := length_le_rowsOf t1.toList
    obtain ⟨ix2, t2, m2, hrem, h2, hm2, hl2⟩ := remove_focus fuel ix1 t1 m1 x h1 hm1 (by omega)
    rw [hadd.dropRow hxt] at hl2
    refine ⟨ix2, t2, t1.toList, dup, ?_, ⟨h2, ⟨m2, hm2⟩, fun hu => ?_, fun hu => ?_⟩, hadd, hcut, ?_⟩
    · simp [TreeIdx.insert, hins, hdup, hrem]
    · rw [hl2]
      exact ⟨(h.unique hu).1, fun y hy => List.mem_cons_of_mem x ((h.unique hu).2 y hy)⟩
    · rw [hdup.2] at hu
      cases hu
    · rw [if_pos hdup, hl2]
  · refine ⟨ix1, t1, t1.toList, dup, ?_, ⟨h1, ⟨m1, hm1⟩, fun hu => ?_, fun hu => ?_⟩, hadd, hcut, ?_⟩
    · simp only [TreeIdx.insert, hins, Option.bind_eq_bind, Option.bind_some, if_neg hdup]
    · have hnone : dup = none := by
        rw [← Option.not_isSome_iff_eq_none]
        exact fun hs => hdup ⟨hs, hu⟩
      subst hnone
      refine ⟨hadd.chainless (h.unique hu).1, fun y hy => ?_⟩
      rcases List.mem_cons.mp (hperm.mem_iff.mp hy) with rfl | hy
      · exact List.mem_cons_self
      · exact List.mem_cons_of_mem x ((h.unique hu).2 y hy)
    · exact hperm.trans ((h.all hu).cons x)
    · rw [if_neg hdup]

/-- `update_idx`. -/
theorem IndexShape.update (h : IndexShape e live ix t) (hnd : live.Nodup) (row : E → Row) (x : E)
    (hx : x ∈ live) (fuel : ℕ) (hfuel : live.length + 1 < fuel) :
    ∃ ix' t', TreeIdx.update fuel row ⟨e, ix⟩ x = some ⟨e, ix'⟩ ∧ IndexShape e live ix' t' := by
  obtain ⟨ix1, t1, hrem, h1, -⟩ := h.remove hnd x fuel (by omega)
  have hlen : (live.erase x).length ≤ live.length := List.length_erase_le
  obtain ⟨ix2, t2, gs, dup, hins, h2, -⟩ := h1.insert row x hnd.not_mem_erase fuel (by omega)
  refine ⟨ix2, t2, ?_, h2.perm live (List.perm_cons_erase hx).symm⟩
  simp only [TreeIdx.update, hrem, Option.bind_eq_bind, Option.bind_some]
  exact hins

end Shape

/-! ## Comparisons that order the keys -/

section Indexes
variable {e : IndexEntry} {row : E → Row} {live : List E} {ix : Idx E} {t : Tree (Group E)}

omit [DecidableEq E] in
theorem IndexWf.empty (e : IndexEntry) (row : E → Row) : IndexWf e row [] Idx.empty .nil :=
  ⟨IndexShape.empty e, ⟨List.Pairwise.nil, fun _ hg => absurd hg List.not_mem_nil⟩⟩

omit [DecidableEq E] in
/-- Only the keys of the rows in the index matter. -/
theorem IndexWf.congr_row (h : IndexWf e row live ix t) (row' : E → Row)
    (hkey : ∀ x ∈ rowsOf t.toList, e.key (row' x) = e.key (row x)) : IndexWf e row' live ix t := by
  refine ⟨h.toIndexShape, h.ordered.congr ?_⟩
  intro x hx y hy
  rw [cmpEntry, hkey x hx, hkey y hy]
  rfl

theorem IndexWf.remove {K : Key → Prop} (hK : PreorderOn K e.cmp) (h : IndexWf e row live ix t)
    (hrow : ∀ x ∈ live, K (e.key (row x))) (hnd : live.Nodup) (x : E) (fuel : ℕ)
    (hfuel : live.length < fuel) :
    ∃ ix' t', ix.remove fuel x = some ix' ∧ IndexWf e row (live.erase x) ix' t' ∧
      t'.toList = dropRow x t.toList := by
  obtain ⟨ix', t', hrem, h', hl⟩ := h.toIndexShape.remove hnd x fuel hfuel
  refine ⟨ix', t', hrem, ⟨h', ?_⟩, hl⟩
  rw [hl]
  exact h.ordered.dropRow (hK.comap fun a => e.key (row a)) _
    (fun y hy => hrow y (h.mem_live y hy)) x

theorem IndexWf.insert {K : Key → Prop} (hK : PreorderOn K e.cmp) (h : IndexWf e row live ix t)
    (hrow : ∀ x ∈ live, K (e.key (row x))) (x : E) (hx : x ∉ live) (hxK : K (e.key (row x)))
    (fuel : ℕ) (hfuel : live.length + 1 < fuel) :
    ∃ ix' t', TreeIdx.insert fuel row ⟨e, ix⟩ x = some ⟨e, ix'⟩ ∧
      IndexWf e row (x :: live) ix' t' ∧
      t'.toList = if (lookup (fun y => cmpEntry e (row x) (row y)) t.toList).isSome = true ∧
        e.unique = true then t.toList else addRow (fun y => cmpEntry e (row x) (row y)) x t.toList := by
  have hrows : ∀ y ∈ rowsOf t.toList, K (e.key (row y)) := fun y hy => hrow y (h.mem_live y hy)
  have hcut : Cut (fun y => cmpEntry e (row x) (row y)) t.toList :=
    Ordered.cut hK (fun a => e.key (row a)) _ h.ordered hrows _ hxK
  obtain ⟨ix', t', gs, dup, hins, h', -, hkey, hl⟩ := h.toIndexShape.insert row x hx fuel hfuel
  obtain ⟨rfl, rfl⟩ := hkey hcut
  refine ⟨ix', t', hins, ⟨h', ?_⟩, hl⟩
  rw [hl]
  split_ifs
  · exact h.ordered
  · exact h.ordered.addRow (hK.comap fun a => e.key (row a)) _ hrows x hxK

omit [DecidableEq E] in
/-- Without a row of the same key, a unique index takes the row like any other. -/
theorem lookup_none_of_live (h : IndexShape e live ix t) (x : E)
    (hnew : ∀ y ∈ live, cmpEntry e (row x) (row y) ≠ 0) :
    lookup (fun y => cmpEntry e (row x) (row y)) t.toList = none := by
  rw [lookup_none]
  exact fun g hg => hnew g.head (h.mem_live _ (head_mem_rowsOf _ g hg))

/-- `update_idx` after the row `x` got the contents `r`. -/
theorem IndexWf.update {K : Key → Prop} (hK : PreorderOn K e.cmp) (h : IndexWf e row live ix t)
    (hrow : ∀ x ∈ live, K (e.key (row x))) (hnd : live.Nodup) (x : E) (hx : x ∈ live) (r : Row)
    (hr : K (e.key r)) (fuel : ℕ) (hfuel : live.length + 1 < fuel) :
    ∃ ix' t', TreeIdx.update fuel (Function.update row x r) ⟨e, ix⟩ x = some ⟨e, ix'⟩ ∧
      IndexWf e (Function.update row x r) live ix' t' ∧
      ((rowsOf t.toList).Perm live →
        (e.unique = true → ∀ y ∈ live, y ≠ x → cmpEntry e r (row y) ≠ 0) →
        (rowsOf t'.toList).Perm live) := by
  obtain ⟨ix1, t1, hrem, h1, hl1⟩ := h.remove hK hrow hnd x fuel (by omega)
  have hout : x ∉ live.erase x := hnd.not_mem_erase
  have hne : ∀ y ∈ live.erase x, Function.update row x r y = row y := by
    intro y hy
    refine Function.update_of_ne ?_ r row
    rintro rfl
    exact hout hy
  have h2 := h1.congr_row (Function.update row x r) fun y hy => by rw [hne y (h1.mem_live y hy)]
  have hlen : (live.erase x).length + 1 = live.length := by
    rw [List.length_erase_of_mem hx]
    have := List.length_pos_of_mem hx
    omega
  obtain ⟨ix2, t2, hins, h3, hl3⟩ := h2.insert hK
    (fun y hy => by rw [hne y hy]; exact hrow y (List.mem_of_mem_erase hy)) x hout
    (by rw [Function.update_self]; exact hr) fuel (by omega)
  have hback := (List.perm_cons_erase hx).symm
  refine ⟨ix2, t2, ?_, ⟨h3.toIndexShape.perm live hback, h3.ordered⟩, fun hp hnew => ?_⟩
  · simp only [TreeIdx.update, hrem, Option.bind_eq_bind, Option.bind_some]
    exact hins
  · rw [if_neg] at hl3
    · rw [hl3]
      refine (rowsOf_addRow _ x t1.toList).trans (List.Perm.trans ?_ hback)
      rw [hl1, rowsOf_dropRow x t.toList h.nodup]
      exact (hp.erase x).cons x
    · rintro ⟨hs, hu⟩
      rw [lookup_none_of_live h2.toIndexShape x] at hs
      · cases hs
      · intro y hy
        rw [Function.update_self, hne y hy]
        refine hnew hu y (List.mem_of_mem_erase hy) ?_
        rintro rfl
        exact hout hy

end Indexes

end Mand.Index
