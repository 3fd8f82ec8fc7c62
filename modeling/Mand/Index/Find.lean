import Mand.Index.Run

/-! # Lookups against a scan

`find_instance` on an indexed column, over runs of the operations that the store makes: a row is
inserted, a value of a row is stored and its column re-indexed if the element has `F_INDEX`
(`value_update_action`, `cache_apply`), a row is removed. -/
namespace Mand.Index
open Mand.Rb Mand.Groups Mand.Store
set_option autoImplicit false

variable {E : Type} [DecidableEq E]

inductive RowOp (E : Type)
  | insert (x : E)
  | update (x : E) (id : ℕ) (v : Value)
  | delete (x : E)

def Row.setValue (r : Row) (id : ℕ) (v : Value) : Row :=
  { r with value := Function.update r.value id v }

namespace Table

/-- `findex id` says whether the element `id` has the flag `F_INDEX`. -/
def rowStep (fuel : ℕ) (findex : ℕ → Bool) (s : Table E) : RowOp E → Option (Table E)
  | .insert x => s.insertInstance fuel x
  | .delete x => s.removeInstance fuel x
  | .update x id v =>
    let s := { s with row := Function.update s.row x ((s.row x).setValue id v) }
    if findex id = true then s.updateIndex fuel id x else some s

def rowRun (fuel : ℕ) (findex : ℕ → Bool) : Table E → List (RowOp E) → Option (Table E)
  | s, [] => some s
  | s, op :: ops => do
    let s ← s.rowStep fuel findex op
    rowRun fuel findex s ops

end Table

/-- The change of the contents that a step makes. -/
def RowOp.toOp (c : Contents E) : RowOp E → Op E
  | .insert x => .insert x
  | .delete x => .remove x
  | .update x id v => .setColumn x id ((c.row x).setValue id v)

def Contents.rowRun : Contents E → List (RowOp E) → Contents E
  | c, [] => c
  | c, op :: ops => Contents.rowRun (c.step (op.toOp c)) ops

/-- Every step of a run meets `P`. -/
def AllRowSteps (P : Contents E → RowOp E → Prop) : Contents E → List (RowOp E) → Prop
  | _, [] => True
  | c, op :: ops => P c op ∧ AllRowSteps P (c.step (op.toOp c)) ops

theorem AllRowSteps.imp {P Q : Contents E → RowOp E → Prop} (h : ∀ c op, P c op → Q c op)
    (c : Contents E) (ops : List (RowOp E)) (hp : AllRowSteps P c ops) : AllRowSteps Q c ops := by
  induction ops generalizing c with
  | nil => trivial
  | cons op ops ih => exact ⟨h c op hp.1, ih _ hp.2⟩

theorem length_live_rowRun (c : Contents E) (ops : List (RowOp E)) :
    (c.rowRun ops).live.length ≤ c.live.length + ops.length := by
  induction ops generalizing c with
  | nil => exact Nat.le_refl _
  | cons op ops ih =>
    have h1 := length_live_step c (op.toOp c)
    have h2 := ih (c.step (op.toOp c))
    rw [Contents.rowRun, List.length_cons]
    omega

/-- What callers keep to, and the keys of inserted rows are among those that `K` has. -/
def RowLegal (K : IndexEntry → Key → Prop) (entries : List IndexEntry) (c : Contents E) :
    RowOp E → Prop
  | .insert x => x ∉ c.live ∧ ∀ e ∈ entries, K e (e.key (c.row x))
  | .delete x => x ∈ c.live
  | .update x id v => x ∈ c.live → ∀ e ∈ entries, K e (e.key ((c.row x).setValue id v))

section Step
variable {full : Prop} {K : IndexEntry → Key → Prop} {entries : List IndexEntry} {s : Table E}
  {c : Contents E}

omit [DecidableEq E] in
theorem mem_eraseP_element (entries : List IndexEntry) (hd : (entries.map IndexEntry.element).Nodup)
    (id : ℕ) (e : IndexEntry) (he : e ∈ entries.eraseP (fun e => e.element = id)) :
    e.element ≠ id := by
  induction entries with
  | nil => exact absurd he List.not_mem_nil
  | cons k entries ih =>
    rw [List.map_cons, List.nodup_cons] at hd
    by_cases hk : k.element = id
    · rw [List.eraseP_cons_of_pos (by simpa using hk)] at he
      rintro rfl
      exact hd.1 (hk ▸ List.mem_map_of_mem he)
    · rw [List.eraseP_cons_of_neg (by simpa using hk)] at he
      rcases List.mem_cons.mp he with rfl | he
      · exact hk
      · exact ih hd.2 he

theorem key_setValue (e : IndexEntry) (r : Row) (id : ℕ) (v : Value)
    (h : e.type = .inst ∨ e.element ≠ id) : e.key (r.setValue id v) = e.key r := by
  rw [IndexEntry.key, IndexEntry.key]
  split_ifs with hi
  · rfl
  · have hne := h.resolve_left hi
    simp only [Row.setValue, Function.update_of_ne hne]

/-- One step keeps every index well formed and complete. -/
theorem rowStep_wf (hK : ∀ e ∈ entries, PreorderOn (K e) e.cmp)
    (hd : (entries.map IndexEntry.element).Nodup) (findex : ℕ → Bool)
    (hF : ∀ e ∈ entries, e.type ≠ .inst → findex e.element = true)
    (h : TableWf full K entries s c) (op : RowOp E) (hleg : RowLegal K entries c op)
    (hdist : full → Distinct entries c (op.toOp c)) (fuel : ℕ)
    (hfuel : c.live.length + 1 < fuel) :
    ∃ s', s.rowStep fuel findex op = some s' ∧
      TableWf full K entries s' (c.step (op.toOp c)) := by
  cases op with
  | insert x => exact insertInstance_wf hK h x hleg hdist fuel hfuel
  | delete x => exact removeInstance_wf hK h x hleg fuel hfuel
  | update x id v =>
    rw [Table.rowStep, h.row]
    by_cases hid : findex id = true
    · simp only [if_pos hid]
      have hstep := setColumn_wf hK h x id ((c.row x).setValue id v)
        (fun hx => ⟨hleg hx, fun e he =>
          key_setValue e (c.row x) id v (.inr (mem_eraseP_element entries hd id e he))⟩)
        hdist fuel hfuel
      rwa [Table.step, h.row] at hstep
    · simp only [if_neg hid]
      refine ⟨_, rfl, ?_⟩
      have hkeep := h.change_keep x ((c.row x).setValue id v) fun e he y _ => by
        by_cases hyx : y = x
        · rw [hyx, Function.update_self]
          refine key_setValue e (c.row x) id v ?_
          by_cases hi : e.type = .inst
          · exact .inl hi
          · refine .inr ?_
            rintro rfl
            exact hid (hF e he hi)
        · rw [Function.update_of_ne hyx]
      rw [h.row] at hkeep
      exact hkeep

theorem rowRun_wf (hK : ∀ e ∈ entries, PreorderOn (K e) e.cmp)
    (hd : (entries.map IndexEntry.element).Nodup) (findex : ℕ → Bool)
    (hF : ∀ e ∈ entries, e.type ≠ .inst → findex e.element = true) (ops : List (RowOp E))
    (h : TableWf full K entries s c)
    (hops : AllRowSteps (fun c op => RowLegal K entries c op ∧
      (full → Distinct entries c (op.toOp c))) c ops)
    (fuel : ℕ) (hfuel : c.live.length + ops.length < fuel) :
    ∃ s', s.rowRun fuel findex ops = some s' ∧ TableWf full K entries s' (c.rowRun ops) := by
  induction ops generalizing s c with
  | nil => exact ⟨s, rfl, h⟩
  | cons op ops ih =>
    obtain ⟨⟨hleg, hdist⟩, hrest⟩ := hops
    rw [List.length_cons] at hfuel
    obtain ⟨s1, hstep, h1⟩ := rowStep_wf hK hd findex hF h op hleg hdist fuel (by omega)
    have hlen := length_live_step c (op.toOp c)
    obtain ⟨s2, hrun, h2⟩ := ih h1 hrest (by omega)
    refine ⟨s2, ?_, h2⟩
    simp only [Table.rowRun, hstep, Option.bind_eq_bind, Option.bind_some, hrun]

end Step

/-! ## The lookup -/

omit [DecidableEq E] in
/-- In an index that misses no row, a lookup answers a row exactly if some row compares equal. -/
theorem IndexWf.find {K : Key → Prop} {e : IndexEntry} {row : E → Row} {live : List E} {ix : Idx E}
    {t : Tree (Group E)} (hK : PreorderOn K e.cmp) (h : IndexWf e row live ix t)
    (hrow : ∀ x ∈ live, K (e.key (row x))) (hp : (rowsOf t.toList).Perm live) (val : Value) (pos : ℤ)
    (hval : K (valueKey val pos)) (fuel : ℕ) (hfuel : live.length < fuel) :
    ∃ r, ix.find (fun x => cmpValue e val pos (row x)) fuel ix.root = some r ∧
      (∀ x, r = some x → x ∈ live ∧ cmpValue e val pos (row x) = 0) ∧
      (r.isSome = true ↔ ∃ x ∈ live, cmpValue e val pos (row x) = 0) := by
  have hroot : ix.root = ptr t := h.focus.ctx
  have hlen := h.length_le
  have hrows : ∀ x ∈ rowsOf t.toList, K (e.key (row x)) := fun x hx => hrow x (h.mem_live x hx)
  have hcut : Cut (fun x => cmpValue e val pos (row x)) t.toList :=
    Ordered.cut hK (fun x => e.key (row x)) _ h.ordered hrows _ hval
  have hnone := Ordered.lookup_none_iff hK (fun x => e.key (row x)) _ h.ordered hrows _ hval
  refine ⟨_, by rw [hroot]; exact find_rep _ ix t _ fuel h.focus.rep hcut (by omega), ?_, ?_⟩
  · intro x hx
    obtain ⟨hm, h0⟩ := lookup_some _ _ _ hx
    exact ⟨hp.mem_iff.mp hm, h0⟩
  · constructor
    · intro hs
      obtain ⟨x, hx⟩ := Option.isSome_iff_exists.mp hs
      obtain ⟨hm, h0⟩ := lookup_some _ _ _ hx
      exact ⟨x, hp.mem_iff.mp hm, h0⟩
    · rintro ⟨x, hx, h0⟩
      rw [← Option.ne_none_iff_isSome]
      intro hl
      exact hnone.mp hl x (hp.mem_iff.mpr hx) h0

omit [DecidableEq E] in
/-- `id2idx` finds the index of an entry when no column has two. -/
theorem find_entry (idx : List (TreeIdx E)) (hd : (idx.map fun ti => ti.entry.element).Nodup)
    (ti : TreeIdx E) (hti : ti ∈ idx) :
    idx.find? (fun tj => tj.entry.element = ti.entry.element) = some ti := by
  induction idx with
  | nil => exact absurd hti List.not_mem_nil
  | cons tj idx ih =>
    rw [List.map_cons, List.nodup_cons] at hd
    rcases List.mem_cons.mp hti with rfl | hti
    · simp
    · have hne : tj.entry.element ≠ ti.entry.element := by
        intro he
        exact hd.1 (he ▸ List.mem_map_of_mem hti)
      rw [List.find?_cons_of_neg (by simpa using hne)]
      exact ih hd.2 hti

theorem findInstance_wf {K : IndexEntry → Key → Prop} {entries : List IndexEntry} {s : Table E}
    {c : Contents E} (hK : ∀ e ∈ entries, PreorderOn (K e) e.cmp)
    (hd : (entries.map IndexEntry.element).Nodup) (h : TableWf True K entries s c)
    (e : IndexEntry) (he : e ∈ entries) (type : DmType) (val : Value) (pos : ℤ)
    (hval : K e (valueKey val pos)) (fuel : ℕ) (hfuel : c.live.length < fuel) :
    ∃ r, findInstance fuel s.row s.tree e.element type val pos = some r ∧
      (∀ x, r = some x → s.root x = true ∧ cmpValue e val pos (s.row x) = 0) ∧
      (r.isSome = true ↔ ∃ x, s.root x = true ∧ cmpValue e val pos (s.row x) = 0) := by
  have hmem := he
  rw [← h.entries] at hmem
  obtain ⟨ti, hti, rfl⟩ := List.mem_map.mp hmem
  have hd' : (s.tree.idx.map fun ti => ti.entry.element).Nodup := by
    rw [← h.entries, List.map_map] at hd
    exact hd
  obtain ⟨t, hwf, hp⟩ := h.idx ti hti
  obtain ⟨r, hfind, hsome, hiff⟩ := hwf.find (hK _ he) (h.keys _ he) (hp trivial) val pos hval fuel hfuel
  refine ⟨r, ?_, ?_, ?_⟩
  · rw [findInstance, find_entry s.tree.idx hd' ti hti, h.row]
    exact hfind
  · intro x hx
    rw [h.root, h.row]
    exact hsome x hx
  · simp only [h.root, h.row]
    exact hiff

/-- **Lookups agree with a scan** in every run in which no step gives a unique column a key that
another row has, when every indexed column has one index and the flag `F_INDEX`, and its comparison
orders the keys totally. -/
theorem find_instance_agrees (entries : List IndexEntry)
    (hd : (entries.map IndexEntry.element).Nodup) (findex : ℕ → Bool)
    (hF : ∀ e ∈ entries, e.type ≠ .inst → findex e.element = true)
    (K : IndexEntry → Key → Prop) (hK : ∀ e ∈ entries, PreorderOn (K e) e.cmp) (row : E → Row)
    (ops : List (RowOp E))
    (hops : AllRowSteps (fun c op => RowLegal K entries c op ∧ Distinct entries c (op.toOp c))
      ⟨row, []⟩ ops)
    (fuel : ℕ) (hfuel : ops.length < fuel) :
    ∃ s, (Table.alloc entries row).rowRun fuel findex ops = some s ∧
      ∀ e ∈ entries, ∀ type val pos, K e (valueKey val pos) →
        ∃ r, findInstance fuel s.row s.tree e.element type val pos = some r ∧
          (∀ x, r = some x → s.root x = true ∧ cmpValue e val pos (s.row x) = 0) ∧
          (r.isSome = true ↔ ∃ x, s.root x = true ∧ cmpValue e val pos (s.row x) = 0) := by
  obtain ⟨s, hrun, h⟩ := rowRun_wf hK hd findex hF ops (TableWf.alloc True K entries row)
    (AllRowSteps.imp (fun c op hop => ⟨hop.1, fun _ => hop.2⟩) _ ops hops) fuel (by simpa)
  refine ⟨s, hrun, fun e he type val pos hval => ?_⟩
  have hlen := length_live_rowRun ⟨row, []⟩ ops
  rw [List.length_nil, Nat.zero_add] at hlen
  exact findInstance_wf hK hd h e he type val pos hval fuel (by omega)

/-- The columns of a table with unique keys, and rows that get different ones. -/
def uniqueEntries : List IndexEntry := [⟨true, .inst, 0⟩, ⟨true, .uint, 1⟩]

def distinctOps : List (RowOp ℕ) := [.insert 1, .update 1 1 (.uint 8), .insert 2, .delete 1]

theorem find_instance_sample :
    ∃ s, (Table.alloc uniqueEntries sampleRow).rowRun 5 (fun _ => true) distinctOps = some s ∧
      ∀ e ∈ uniqueEntries, ∀ type val pos,
        e.type = .inst ∨ HasType e.type (valueKey val pos).value →
        ∃ r, findInstance 5 s.row s.tree e.element type val pos = some r ∧
          (∀ x, r = some x → s.root x = true ∧ cmpValue e val pos (s.row x) = 0) ∧
          (r.isSome = true ↔ ∃ x, s.root x = true ∧ cmpValue e val pos (s.row x) = 0) :=
  find_instance_agrees uniqueEntries (by decide) (fun _ => true) (fun _ _ _ => rfl)
    (fun e k => e.type = .inst ∨ HasType e.type k.value)
    (fun e he => column_preorder e
      (by rcases List.mem_pair.mp he with rfl | rfl <;> decide)
      (by rcases List.mem_pair.mp he with rfl | rfl <;> decide)
      (by rcases List.mem_pair.mp he with rfl | rfl <;> decide))
    sampleRow distinctOps
    (by simp [AllRowSteps, distinctOps, RowLegal, Distinct, RowOp.toOp, uniqueEntries, sampleRow,
      Contents.step, HasType, IndexEntry.key, Row.setValue, cmpEntry, IndexEntry.cmp,
      dmCompareValues, intcmp])
    5 (by decide)

/-- A unique column: two rows with the value 7, and the first one is deleted. -/
def duplicateOps : List (RowOp ℕ) := [.insert 1, .insert 2, .delete 1]

/-- The second row is in the table and has the value, but the lookup does not find it. -/
theorem find_instance_misses :
    ((Table.alloc uniqueEntries sampleRow).rowRun 4 (fun _ => true)
      duplicateOps).map (fun s => (findInstance 4 s.row s.tree 1 .uint (.uint 7) 0, s.root 2,
        cmpValue ⟨true, .uint, 1⟩ (.uint 7) 0 (s.row 2))) = some (some none, true, 0) := by
  decide

end Mand.Index
