import Mand.Index.Order

/-! # Runs over the indexes of a table

The rows of a table, their contents and the indexes over them, under any sequence of insertions,
removals and changes. The abstract state is the contents of the rows and the rows that were
inserted and not removed. -/
namespace Mand.Index
open Mand.Rb Mand.Groups Mand.Store
set_option autoImplicit false

variable {E : Type} [DecidableEq E]

/-- The indexes, the contents of the rows, and whether `row->root` is set. -/
structure Table (E : Type) where
  tree : InstTree E
  row : E → Row
  root : E → Bool

inductive Op (E : Type)
  /-- `insert_instance` -/
  | insert (x : E)
  /-- `remove_instance` -/
  | remove (x : E)
  /-- a change of the row and `update_index` for column `id` -/
  | setColumn (x : E) (id : ℕ) (r : Row)
  /-- a change of the row and `update_instance_node_index` -/
  | setRow (x : E) (r : Row)

namespace Table

omit [DecidableEq E] in
def alloc (entries : List IndexEntry) (row : E → Row) : Table E :=
  ⟨InstTree.alloc entries, row, fun _ => false⟩

def insertInstance (fuel : ℕ) (s : Table E) (x : E) : Option (Table E) := do
  let tree ← s.tree.insert fuel s.row x
  some { s with tree := tree, root := Function.update s.root x true }

def removeInstance (fuel : ℕ) (s : Table E) (x : E) : Option (Table E) := do
  let tree ← s.tree.remove fuel x
  some { s with tree := tree, root := Function.update s.root x false }

def updateIndex (fuel : ℕ) (s : Table E) (id : ℕ) (x : E) : Option (Table E) :=
  if s.root x = true then do
    let tree ← s.tree.updateIndex fuel s.row id x
    some { s with tree := tree }
  else some s

def updateInstanceNodeIndex (fuel : ℕ) (s : Table E) (x : E) : Option (Table E) :=
  if s.root x = true then do
    let tree ← s.tree.updateAll fuel s.row x
    some { s with tree := tree }
  else some s

def step (fuel : ℕ) (s : Table E) : Op E → Option (Table E)
  | .insert x => s.insertInstance fuel x
  | .remove x => s.removeInstance fuel x
  | .setColumn x id r => updateIndex fuel { s with row := Function.update s.row x r } id x
  | .setRow x r => updateInstanceNodeIndex fuel { s with row := Function.update s.row x r } x

def run (fuel : ℕ) : Table E → List (Op E) → Option (Table E)
  | s, [] => some s
  | s, op :: ops => do
    let s ← s.step fuel op
    run fuel s ops

end Table

/-- The abstract state. -/
structure Contents (E : Type) where
  row : E → Row
  live : List E

namespace Contents

def step (c : Contents E) : Op E → Contents E
  | .insert x => { c with live := x :: c.live }
  | .remove x => { c with live := c.live.erase x }
  | .setColumn x _ r => { c with row := Function.update c.row x r }
  | .setRow x r => { c with row := Function.update c.row x r }

def run : Contents E → List (Op E) → Contents E
  | c, [] => c
  | c, op :: ops => run (c.step op) ops

end Contents

/-- Every step of a run meets `P`. -/
def AllSteps (P : Contents E → Op E → Prop) : Contents E → List (Op E) → Prop
  | _, [] => True
  | c, op :: ops => P c op ∧ AllSteps P (c.step op) ops

/-- The step gives no unique index a key that another row of the table has. -/
def Distinct (entries : List IndexEntry) (c : Contents E) : Op E → Prop
  | .insert x => ∀ e ∈ entries, e.unique = true → ∀ y ∈ c.live, cmpEntry e (c.row x) (c.row y) ≠ 0
  | .remove _ => True
  | .setColumn x id r => x ∈ c.live → ∀ e ∈ entries, e.element = id → e.unique = true →
      ∀ y ∈ c.live, y ≠ x → cmpEntry e r (c.row y) ≠ 0
  | .setRow x r => x ∈ c.live → ∀ e ∈ entries, e.unique = true →
      ∀ y ∈ c.live, y ≠ x → cmpEntry e r (c.row y) ≠ 0

/-- What callers keep to: a row is inserted once and removed when it is in, the keys of inserted rows
are among those that `K` has, and a change of a row in the table is followed by a rebuild of every
index whose key it changed. -/
def Legal (K : IndexEntry → Key → Prop) (entries : List IndexEntry) (c : Contents E) : Op E → Prop
  | .insert x => x ∉ c.live ∧ ∀ e ∈ entries, K e (e.key (c.row x))
  | .remove x => x ∈ c.live
  | .setColumn x id r => x ∈ c.live → (∀ e ∈ entries, K e (e.key r)) ∧
      ∀ e ∈ entries.eraseP (fun e => e.element = id), e.key r = e.key (c.row x)
  | .setRow x r => x ∈ c.live → ∀ e ∈ entries, K e (e.key r)

/-- The indexes represent the contents. If `full` holds, no row is missing in any of them. -/
structure TableWf (full : Prop) (K : IndexEntry → Key → Prop) (entries : List IndexEntry)
    (s : Table E) (c : Contents E) : Prop where
  row : s.row = c.row
  root : ∀ x, s.root x = true ↔ x ∈ c.live
  nodup : c.live.Nodup
  keys : ∀ e ∈ entries, ∀ x ∈ c.live, K e (e.key (c.row x))
  cnt : s.tree.cnt = c.live.length % 2 ^ 32
  entries : s.tree.idx.map TreeIdx.entry = entries
  idx : ∀ ti ∈ s.tree.idx, ∃ t, IndexWf ti.entry c.row c.live ti.idx t ∧
    (full → (rowsOf t.toList).Perm c.live)

/-! ## All indexes at once -/

omit [DecidableEq E] in
theorem mapM_idx {P : TreeIdx E → Prop} (f : TreeIdx E → Option (TreeIdx E))
    (l : List (TreeIdx E))
    (h : ∀ ti ∈ l, ∃ ti', f ti = some ti' ∧ ti'.entry = ti.entry ∧ P ti') :
    ∃ l', l.mapM f = some l' ∧ l'.map TreeIdx.entry = l.map TreeIdx.entry ∧ ∀ ti ∈ l', P ti := by
  induction l with
  | nil => exact ⟨[], rfl, rfl, fun _ ht => absurd ht List.not_mem_nil⟩
  | cons ti l ih =>
    obtain ⟨ti', hf, he, hP⟩ := h ti List.mem_cons_self
    obtain ⟨l', hm, hme, hP'⟩ := ih fun tj hj => h tj (List.mem_cons_of_mem ti hj)
    refine ⟨ti' :: l', ?_, ?_, ?_⟩
    · rw [List.mapM_cons, hf, hm]
      rfl
    · rw [List.map_cons, List.map_cons, he, hme]
    · intro tj hj
      rcases List.mem_cons.mp hj with rfl | hj
      · exact hP
      · exact hP' tj hj

omit [DecidableEq E] in
theorem atColumn_idx {P : TreeIdx E → Prop} (id : ℕ) (f : TreeIdx E → Option (TreeIdx E))
    (l : List (TreeIdx E))
    (h : ∀ ti ∈ l, ti.entry.element = id →
      ∃ ti', f ti = some ti' ∧ ti'.entry = ti.entry ∧ P ti')
    (hkeep : ∀ ti ∈ l, ti.entry ∈ (l.map TreeIdx.entry).eraseP (fun e => e.element = id) → P ti) :
    ∃ l', atColumn id f l = some l' ∧ l'.map TreeIdx.entry = l.map TreeIdx.entry ∧
      ∀ ti ∈ l', P ti := by
  induction l with
  | nil => exact ⟨[], rfl, rfl, fun _ ht => absurd ht List.not_mem_nil⟩
  | cons ti l ih =>
    rw [List.map_cons] at hkeep
    by_cases hid : ti.entry.element = id
    · rw [List.eraseP_cons_of_pos (by simpa using hid)] at hkeep
      obtain ⟨ti', hf, he, hP⟩ := h ti List.mem_cons_self hid
      refine ⟨ti' :: l, ?_, ?_, ?_⟩
      · simp only [atColumn, if_pos hid, hf, Option.bind_eq_bind, Option.bind_some]
      · rw [List.map_cons, List.map_cons, he]
      · intro tj hj
        rcases List.mem_cons.mp hj with rfl | hj
        · exact hP
        · exact hkeep tj (List.mem_cons_of_mem ti hj) (List.mem_map_of_mem hj)
    · rw [List.eraseP_cons_of_neg (by simpa using hid)] at hkeep
      obtain ⟨l', hm, hme, hP'⟩ := ih (fun tj hj => h tj (List.mem_cons_of_mem ti hj))
        fun tj hj he => hkeep tj (List.mem_cons_of_mem ti hj) (List.mem_cons_of_mem _ he)
      refine ⟨ti :: l', ?_, ?_, ?_⟩
      · simp only [atColumn, if_neg hid, hm, Option.bind_eq_bind, Option.bind_some]
      · rw [List.map_cons, List.map_cons, hme]
      · intro tj hj
        rcases List.mem_cons.mp hj with rfl | hj
        · exact hkeep tj List.mem_cons_self List.mem_cons_self
        · exact hP' tj hj

/-! ## One step -/

section Step
variable {full : Prop} {K : IndexEntry → Key → Prop} {entries : List IndexEntry} {s : Table E}
  {c : Contents E}

omit [DecidableEq E] in
theorem TableWf.mem_entries (h : TableWf full K entries s c) (ti : TreeIdx E)
    (hti : ti ∈ s.tree.idx) : ti.entry ∈ entries := by
  rw [← h.entries]
  exact List.mem_map_of_mem hti

theorem insertInstance_wf (hK : ∀ e ∈ entries, PreorderOn (K e) e.cmp)
    (h : TableWf full K entries s c) (x : E) (hleg : Legal K entries c (.insert x))
    (hdist : full → Distinct entries c (.insert x)) (fuel : ℕ) (hfuel : c.live.length + 1 < fuel) :
    ∃ s', s.insertInstance fuel x = some s' ∧
      TableWf full K entries s' (c.step (.insert x)) := by
  obtain ⟨hx, hxK⟩ := hleg
  obtain ⟨l, hm, hme, hP⟩ := mapM_idx
    (P := fun ti => ∃ t, IndexWf ti.entry c.row (x :: c.live) ti.idx t ∧
      (full → (rowsOf t.toList).Perm (x :: c.live)))
    (fun ti => TreeIdx.insert fuel s.row { ti with idx := ti.idx.clear x } x) s.tree.idx (by
      intro ti hti
      have he := h.mem_entries ti hti
      obtain ⟨t, hwf, hp⟩ := h.idx ti hti
      obtain ⟨ix', t', hins, hwf', hl⟩ := (IndexWf.mk (hwf.toIndexShape.clear x hx) hwf.ordered).insert (hK _ he) (h.keys _ he) x hx
        (hxK _ he) fuel hfuel
      rw [h.row]
      refine ⟨_, hins, rfl, t', hwf', fun hf => ?_⟩
      rw [if_neg] at hl
      · rw [hl]
        exact (rowsOf_addRow _ x t.toList).trans ((hp hf).cons x)
      · rintro ⟨hs, hu⟩
        rw [lookup_none_of_live hwf.toIndexShape x (hdist hf _ he hu)] at hs
        cases hs)
  refine ⟨⟨⟨(s.tree.cnt + 1) % 2 ^ 32, l⟩, s.row, Function.update s.root x true⟩, ?_,
    ⟨h.row, fun y => ?_, ?_, ?_, ?_, hme.trans h.entries, hP⟩⟩
  · simp only [Table.insertInstance, InstTree.insert, hm, Option.bind_eq_bind, Option.bind_some]
  · simp only [Contents.step, List.mem_cons, Function.update_apply]
    by_cases hy : y = x
    · simp [hy]
    · simp [hy, h.root y]
  · exact List.nodup_cons.mpr ⟨hx, h.nodup⟩
  · intro e he y hy
    rcases List.mem_cons.mp hy with rfl | hy
    · exact hxK e he
    · exact h.keys e he y hy
  · simp only [Contents.step, List.length_cons, h.cnt]
    omega

theorem removeInstance_wf (hK : ∀ e ∈ entries, PreorderOn (K e) e.cmp)
    (h : TableWf full K entries s c) (x : E) (hx : x ∈ c.live) (fuel : ℕ)
    (hfuel : c.live.length + 1 < fuel) :
    ∃ s', s.removeInstance fuel x = some s' ∧
      TableWf full K entries s' (c.step (.remove x)) := by
  obtain ⟨l, hm, hme, hP⟩ := mapM_idx
    (P := fun ti => ∃ t, IndexWf ti.entry c.row (c.live.erase x) ti.idx t ∧
      (full → (rowsOf t.toList).Perm (c.live.erase x)))
    (fun ti => do
      let ix ← ti.idx.remove fuel x
      some { ti with idx := ix.clear x }) s.tree.idx (by
      intro ti hti
      have he := h.mem_entries ti hti
      obtain ⟨t, hwf, hp⟩ := h.idx ti hti
      obtain ⟨ix', t', hrem, hwf', hl⟩ := hwf.remove (hK _ he) (h.keys _ he) h.nodup x fuel (by omega)
      refine ⟨⟨ti.entry, ix'.clear x⟩, ?_, rfl, t',
        ⟨hwf'.toIndexShape.clear x h.nodup.not_mem_erase, hwf'.ordered⟩,
        fun hf => ?_⟩
      · simp only [hrem, Option.bind_eq_bind, Option.bind_some]
      · rw [hl, rowsOf_dropRow x _ hwf.nodup]
        exact (hp hf).erase x)
  refine ⟨⟨⟨(s.tree.cnt + (2 ^ 32 - 1)) % 2 ^ 32, l⟩, s.row, Function.update s.root x false⟩, ?_,
    ⟨h.row, fun y => ?_, h.nodup.erase x, ?_, ?_, hme.trans h.entries, hP⟩⟩
  · rw [Table.removeInstance, InstTree.remove, hm]
    rfl
  · simp only [Contents.step, h.nodup.mem_erase_iff, Function.update_apply]
    by_cases hy : y = x
    · simp [hy]
    · simp [hy, h.root y]
  · exact fun e he y hy => h.keys e he y (List.mem_of_mem_erase hy)
  · have hpos := List.length_pos_of_mem hx
    simp only [Contents.step, List.length_erase_of_mem hx, h.cnt]
    omega

/-- A change that no index sees. -/
theorem TableWf.change_keep (h : TableWf full K entries s c) (x : E) (r : Row)
    (hkey : ∀ e ∈ entries, ∀ y ∈ c.live, e.key (Function.update c.row x r y) = e.key (c.row y)) :
    TableWf full K entries { s with row := Function.update s.row x r }
      { c with row := Function.update c.row x r } := by
  refine ⟨by rw [h.row], h.root, h.nodup, ?_, h.cnt, h.entries, ?_⟩
  · intro e he y hy
    show K e (e.key (Function.update c.row x r y))
    rw [hkey e he y hy]
    exact h.keys e he y hy
  · intro ti hti
    obtain ⟨t, hwf, hp⟩ := h.idx ti hti
    exact ⟨t, hwf.congr_row _ fun y hy => hkey _ (h.mem_entries ti hti) y (hwf.mem_live y hy), hp⟩

/-- A change of a row outside the table. -/
theorem key_update_free (x : E) (hx : x ∉ c.live) (r : Row) (e : IndexEntry) (y : E)
    (hy : y ∈ c.live) : e.key (Function.update c.row x r y) = e.key (c.row y) := by
  rw [Function.update_of_ne]
  rintro rfl
  exact hx hy

theorem TableWf.change (h : TableWf full K entries s c) (x : E) (r : Row) (l : List (TreeIdx E))
    (hr : ∀ e ∈ entries, K e (e.key r))
    (hl : l.map TreeIdx.entry = s.tree.idx.map TreeIdx.entry)
    (hidx : ∀ ti ∈ l, ∃ t, IndexWf ti.entry (Function.update c.row x r) c.live ti.idx t ∧
      (full → (rowsOf t.toList).Perm c.live)) :
    TableWf full K entries ⟨{ s.tree with idx := l }, Function.update s.row x r, s.root⟩
      { c with row := Function.update c.row x r } := by
  refine ⟨by rw [h.row], h.root, h.nodup, ?_, h.cnt, hl.trans h.entries, hidx⟩
  intro e he y hy
  show K e (e.key (Function.update c.row x r y))
  by_cases hyx : y = x
  · rw [hyx, Function.update_self]
    exact hr e he
  · rw [Function.update_of_ne hyx]
    exact h.keys e he y hy

/-- One index after a change of `x` and `update_idx`. -/
theorem TableWf.update_idx (hK : ∀ e ∈ entries, PreorderOn (K e) e.cmp)
    (h : TableWf full K entries s c) (x : E) (hx : x ∈ c.live) (r : Row) (ti : TreeIdx E)
    (hti : ti ∈ s.tree.idx) (hr : K ti.entry (ti.entry.key r))
    (hdist : full → ti.entry.unique = true → ∀ y ∈ c.live, y ≠ x →
      cmpEntry ti.entry r (c.row y) ≠ 0)
    (fuel : ℕ) (hfuel : c.live.length + 1 < fuel) :
    ∃ ti', ti.update fuel (Function.update s.row x r) x = some ti' ∧ ti'.entry = ti.entry ∧
      ∃ t, IndexWf ti'.entry (Function.update c.row x r) c.live ti'.idx t ∧
        (full → (rowsOf t.toList).Perm c.live) := by
  have he := h.mem_entries ti hti
  obtain ⟨t, hwf, hp⟩ := h.idx ti hti
  obtain ⟨ix', t', hupd, hwf', hfull⟩ := hwf.update (hK _ he) (h.keys _ he) h.nodup x hx r hr fuel hfuel
  rw [h.row]
  exact ⟨⟨ti.entry, ix'⟩, hupd, rfl, t', hwf', fun hf => hfull (hp hf) (hdist hf)⟩

theorem setColumn_wf (hK : ∀ e ∈ entries, PreorderOn (K e) e.cmp)
    (h : TableWf full K entries s c) (x : E) (id : ℕ) (r : Row)
    (hleg : Legal K entries c (.setColumn x id r))
    (hdist : full → Distinct entries c (.setColumn x id r)) (fuel : ℕ)
    (hfuel : c.live.length + 1 < fuel) :
    ∃ s', s.step fuel (.setColumn x id r) = some s' ∧
      TableWf full K entries s' (c.step (.setColumn x id r)) := by
  by_cases hx : x ∈ c.live
  · obtain ⟨hr, hkeep⟩ := hleg hx
    obtain ⟨l, hm, hme, hP⟩ := atColumn_idx
      (P := fun ti => ∃ t, IndexWf ti.entry (Function.update c.row x r) c.live ti.idx t ∧
        (full → (rowsOf t.toList).Perm c.live)) id
      (fun ti => ti.update fuel (Function.update s.row x r) x) s.tree.idx
      (fun ti hti hid => h.update_idx hK x hx r ti hti (hr _ (h.mem_entries ti hti))
        (fun hf => hdist hf hx _ (h.mem_entries ti hti) hid) fuel hfuel)
      (fun ti hti he => by
        rw [h.entries] at he
        obtain ⟨t, hwf, hp⟩ := h.idx ti hti
        refine ⟨t, hwf.congr_row _ fun y hy => ?_, hp⟩
        by_cases hyx : y = x
        · rw [hyx, Function.update_self, hkeep _ he]
        · rw [Function.update_of_ne hyx])
    refine ⟨_, ?_, h.change x r l hr hme hP⟩
    have hroot : s.root x = true := (h.root x).mpr hx
    simp only [Table.step, Table.updateIndex, if_pos hroot, InstTree.updateIndex, hm,
      Option.bind_eq_bind, Option.bind_some]
  · refine ⟨_, ?_, h.change_keep x r fun e _ y hy => key_update_free x hx r e y hy⟩
    have hroot : ¬s.root x = true := fun hr => hx ((h.root x).mp hr)
    simp only [Table.step, Table.updateIndex, if_neg hroot]

theorem setRow_wf (hK : ∀ e ∈ entries, PreorderOn (K e) e.cmp)
    (h : TableWf full K entries s c) (x : E) (r : Row)
    (hleg : Legal K entries c (.setRow x r))
    (hdist : full → Distinct entries c (.setRow x r)) (fuel : ℕ)
    (hfuel : c.live.length + 1 < fuel) :
    ∃ s', s.step fuel (.setRow x r) = some s' ∧
      TableWf full K entries s' (c.step (.setRow x r)) := by
  by_cases hx : x ∈ c.live
  · have hr := hleg hx
    obtain ⟨l, hm, hme, hP⟩ := mapM_idx
      (P := fun ti => ∃ t, IndexWf ti.entry (Function.update c.row x r) c.live ti.idx t ∧
        (full → (rowsOf t.toList).Perm c.live))
      (fun ti => ti.update fuel (Function.update s.row x r) x) s.tree.idx
      (fun ti hti => h.update_idx hK x hx r ti hti (hr _ (h.mem_entries ti hti))
        (fun hf => hdist hf hx _ (h.mem_entries ti hti)) fuel hfuel)
    refine ⟨_, ?_, h.change x r l hr hme hP⟩
    have hroot : s.root x = true := (h.root x).mpr hx
    simp only [Table.step, Table.updateInstanceNodeIndex, if_pos hroot, InstTree.updateAll, hm,
      Option.bind_eq_bind, Option.bind_some]
  · refine ⟨_, ?_, h.change_keep x r fun e _ y hy => key_update_free x hx r e y hy⟩
    have hroot : ¬s.root x = true := fun hr => hx ((h.root x).mp hr)
    simp only [Table.step, Table.updateInstanceNodeIndex, if_neg hroot]

/-- One step keeps every index well formed. -/
theorem step_wf (hK : ∀ e ∈ entries, PreorderOn (K e) e.cmp) (h : TableWf full K entries s c)
    (op : Op E) (hleg : Legal K entries c op) (hdist : full → Distinct entries c op) (fuel : ℕ)
    (hfuel : c.live.length + 1 < fuel) :
    ∃ s', s.step fuel op = some s' ∧ TableWf full K entries s' (c.step op) := by
  cases op with
  | insert x => exact insertInstance_wf hK h x hleg hdist fuel hfuel
  | remove x => exact removeInstance_wf hK h x hleg fuel hfuel
  | setColumn x id r => exact setColumn_wf hK h x id r hleg hdist fuel hfuel
  | setRow x r => exact setRow_wf hK h x r hleg hdist fuel hfuel

end Step

/-! ## Whole runs -/

theorem length_live_step (c : Contents E) (op : Op E) :
    (c.step op).live.length ≤ c.live.length + 1 := by
  cases op with
  | insert x => exact Nat.le_refl _
  | remove x => exact Nat.le_succ_of_le List.length_erase_le
  | setColumn x id r => exact Nat.le_succ _
  | setRow x r => exact Nat.le_succ _

theorem run_wf (full : Prop) {K : IndexEntry → Key → Prop} {entries : List IndexEntry}
    (hK : ∀ e ∈ entries, PreorderOn (K e) e.cmp) (ops : List (Op E)) (s : Table E) (c : Contents E)
    (h : TableWf full K entries s c)
    (hops : AllSteps (fun c op => Legal K entries c op ∧ (full → Distinct entries c op)) c ops)
    (fuel : ℕ) (hfuel : c.live.length + ops.length < fuel) :
    ∃ s', s.run fuel ops = some s' ∧ TableWf full K entries s' (c.run ops) := by
  induction ops generalizing s c with
  | nil => exact ⟨s, rfl, h⟩
  | cons op ops ih =>
    obtain ⟨⟨hleg, hdist⟩, hrest⟩ := hops
    rw [List.length_cons] at hfuel
    obtain ⟨s1, hstep, h1⟩ := step_wf hK h op hleg hdist fuel (by omega)
    have hlen := length_live_step c op
    obtain ⟨s2, hrun, h2⟩ := ih s1 (c.step op) h1 hrest (by omega)
    refine ⟨s2, ?_, h2⟩
    simp only [Table.run, hstep, Option.bind_eq_bind, Option.bind_some, hrun]

omit [DecidableEq E] in
theorem TableWf.alloc (full : Prop) (K : IndexEntry → Key → Prop) (entries : List IndexEntry)
    (row : E → Row) : TableWf full K entries (Table.alloc entries row) ⟨row, []⟩ := by
  refine ⟨rfl, fun x => by simp [Table.alloc], List.nodup_nil, fun _ _ _ hx => absurd hx
    List.not_mem_nil, rfl, ?_, ?_⟩
  · simp only [Table.alloc, InstTree.alloc, List.map_map]
    exact List.map_id _
  · intro ti hti
    obtain ⟨e, -, rfl⟩ := List.mem_map.mp hti
    exact ⟨.nil, IndexWf.empty e row, fun _ => List.Perm.refl _⟩

theorem AllSteps.imp {P Q : Contents E → Op E → Prop} (h : ∀ c op, P c op → Q c op)
    (c : Contents E) (ops : List (Op E)) (hp : AllSteps P c ops) : AllSteps Q c ops := by
  induction ops generalizing c with
  | nil => trivial
  | cons op ops ih => exact ⟨h c op hp.1, ih (c.step op) hp.2⟩

/-- The loop over an index that holds all rows of the table visits each of them once. -/
theorem IndexWf.walk {e : IndexEntry} {row : E → Row} {live : List E} {ix : Idx E}
    {t : Tree (Group E)} (h : IndexWf e row live ix t) (hp : (rowsOf t.toList).Perm live)
    (fuel : ℕ) (hfuel : live.length < fuel) :
    ∃ l, ((ix.first fuel).bind fun x => ix.walk fuel fuel x) = some l ∧ l.Perm live := by
  refine ⟨rowsOf t.toList, ?_, hp⟩
  refine walk_first _ fuel ix t h.focus ?_
  rw [hp.length_eq]
  exact hfuel

theorem length_live_run (c : Contents E) (ops : List (Op E)) :
    (c.run ops).live.length ≤ c.live.length + ops.length := by
  induction ops generalizing c with
  | nil => exact Nat.le_refl _
  | cons op ops ih =>
    have h1 := length_live_step c op
    have h2 := ih (c.step op)
    rw [Contents.run, List.length_cons]
    omega

/-- **The indexes stay well formed.** After any run in which rows are inserted once, removed when
they are in and re-indexed when they change, with keys that the comparisons of the definition order
totally, every index represents a balanced search tree; the loop over an index that is not unique
visits exactly the rows inserted and not removed, each once. -/
theorem index_run_wellFormed (entries : List IndexEntry) (K : IndexEntry → Key → Prop)
    (hK : ∀ e ∈ entries, PreorderOn (K e) e.cmp) (row : E → Row) (ops : List (Op E))
    (hops : AllSteps (Legal K entries) ⟨row, []⟩ ops) (fuel : ℕ) (hfuel : ops.length < fuel) :
    ∃ s, (Table.alloc entries row).run fuel ops = some s ∧
      s.tree.idx.map TreeIdx.entry = entries ∧
      ∀ ti ∈ s.tree.idx, ∃ t, IndexWf ti.entry s.row (Contents.run ⟨row, []⟩ ops).live ti.idx t ∧
        (ti.entry.unique = false →
          ∃ l, ((ti.idx.first fuel).bind fun x => ti.idx.walk fuel fuel x) = some l ∧
            l.Perm (Contents.run ⟨row, []⟩ ops).live) := by
  obtain ⟨s, hrun, h⟩ := run_wf False hK ops (Table.alloc entries row) ⟨row, []⟩
    (TableWf.alloc False K entries row)
    (AllSteps.imp (fun c op hleg => ⟨hleg, fun hf => absurd hf id⟩) _ ops hops) fuel (by simpa)
  have hlen := length_live_run ⟨row, []⟩ ops
  rw [List.length_nil, Nat.zero_add] at hlen
  refine ⟨s, hrun, h.entries, fun ti hti => ?_⟩
  obtain ⟨t, hwf, -⟩ := h.idx ti hti
  rw [h.row]
  exact ⟨t, hwf, fun hu => hwf.walk (hwf.all hu) fuel (by omega)⟩

/-- Columns of a small table: the number of the row, and a number that may repeat. -/
def sampleEntries : List IndexEntry := [⟨true, .inst, 0⟩, ⟨false, .uint, 1⟩]

def sampleRow (n : ℕ) : Row := ⟨n, fun _ => .uint 7, n⟩

/-- Three rows of one key; the second gets another key, the first leaves. -/
def sampleOps : List (Op ℕ) :=
  [.insert 1, .insert 2, .insert 3, .setColumn 2 1 ⟨2, fun _ => .uint 9, 2⟩, .remove 1]

theorem index_run_sample :
    ∃ s, (Table.alloc sampleEntries sampleRow).run 6 sampleOps = some s ∧
      s.tree.idx.map TreeIdx.entry = sampleEntries ∧
      ∀ ti ∈ s.tree.idx,
        ∃ t, IndexWf ti.entry s.row (Contents.run ⟨sampleRow, []⟩ sampleOps).live ti.idx t ∧
        (ti.entry.unique = false →
          ∃ l, ((ti.idx.first 6).bind fun x => ti.idx.walk 6 6 x) = some l ∧
            l.Perm (Contents.run ⟨sampleRow, []⟩ sampleOps).live) :=
  index_run_wellFormed sampleEntries (fun e k => e.type = .inst ∨ HasType e.type k.value)
    (fun e he => column_preorder e
      (by rcases List.mem_pair.mp he with rfl | rfl <;> decide)
      (by rcases List.mem_pair.mp he with rfl | rfl <;> decide)
      (by rcases List.mem_pair.mp he with rfl | rfl <;> decide))
    sampleRow sampleOps
    (by simp [AllSteps, sampleOps, Legal, sampleEntries, sampleRow, Contents.step, HasType,
      IndexEntry.key])
    6 (by decide)

end Mand.Index
