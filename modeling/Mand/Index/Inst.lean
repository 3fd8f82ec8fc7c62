import Mand.Index.Find
import Mand.Index.Order
import Mathlib.Data.List.Nodup

/-! # The index over the instance numbers

The first index of every table is unique and ordered by the numbers of the rows. Rows of one number
are alive side by side, but only one of them is in this index. -/
namespace Mand.Index
open Mand.Rb Mand.Groups Mand.Store
set_option autoImplicit false

variable {E : Type} [DecidableEq E]

/-- The first entry of an index definition. -/
def instEntry : IndexEntry := ⟨true, .inst, 0⟩

theorem instEntry_preorder : PreorderOn (fun _ => True) instEntry.cmp :=
  (intcmp_preorder.comap Key.inst).congr fun _ _ _ _ => rfl

theorem cmpEntry_inst (r s : Row) : cmpEntry instEntry r s = intcmp r.inst s.inst := rfl

/-- The index holds `rows`, in the order of their numbers. -/
def InstIdx (row : E → Row) (rows : List E) (ix : Idx E) : Prop :=
  ∃ t, IndexWf instEntry row rows ix t ∧ rowsOf t.toList = rows

namespace InstIdx
variable {row row' : E → Row} {rows : List E} {ix : Idx E}

omit [DecidableEq E] in
theorem empty (row : E → Row) : InstIdx row [] Idx.empty := ⟨.nil, IndexWf.empty instEntry row, rfl⟩

omit [DecidableEq E] in
/-- Only the numbers of the rows in the index matter. -/
theorem congr (h : InstIdx row rows ix) (hinst : ∀ x ∈ rows, (row' x).inst = (row x).inst) :
    InstIdx row' rows ix := by
  obtain ⟨t, hwf, hrows⟩ := h
  refine ⟨t, hwf.congr_row row' fun x hx => ?_, hrows⟩
  rw [hrows] at hx
  show (⟨(row' x).inst, .int 0, 0⟩ : Key) = ⟨(row x).inst, .int 0, 0⟩
  rw [hinst x hx]

omit [DecidableEq E] in
theorem nodup (h : InstIdx row rows ix) : rows.Nodup := by
  obtain ⟨t, hwf, hrows⟩ := h
  rw [← hrows]
  exact hwf.nodup

omit [DecidableEq E] in
/-- In a list of single rows the order of the groups is that of the rows. -/
theorem ascending_rowsOf (row : E → Row) (gs : List (Group E)) (hg : ∀ g ∈ gs, g.chain = [])
    (h : gs.Pairwise fun g k => cmpEntry instEntry (row g.head) (row k.head) < 0) :
    (rowsOf gs).Pairwise fun x y => (row x).inst < (row y).inst := by
  have hmap : rowsOf gs = gs.map Group.head := by
    clear h
    induction gs with
    | nil => rfl
    | cons g gs ih =>
      have hsingle : g.members = [g.head] := by
        unfold Group.members
        rw [hg g List.mem_cons_self]
      have htail := ih fun k hk => hg k (List.mem_cons_of_mem g hk)
      show g.members ++ rowsOf gs = g.head :: gs.map Group.head
      rw [hsingle, htail]
      rfl
  rw [hmap, List.pairwise_map]
  apply h.imp
  intro g k hlt
  rw [cmpEntry_inst, intcmp_lt_zero] at hlt
  exact Int.ofNat_lt.mp hlt

omit [DecidableEq E] in
theorem sorted (h : InstIdx row rows ix) :
    rows.Pairwise fun x y => (row x).inst < (row y).inst := by
  obtain ⟨t, hwf, hrows⟩ := h
  rw [← hrows]
  exact ascending_rowsOf row t.toList (hwf.unique rfl).1 hwf.ordered.ascending

omit [DecidableEq E] in
/-- A number names one row of the index. -/
theorem inj (h : InstIdx row rows ix) (x y : E) (hx : x ∈ rows) (hy : y ∈ rows)
    (he : (row x).inst = (row y).inst) : x = y := by
  have hnd : (rows.map fun x => (row x).inst).Nodup :=
    List.pairwise_map.mpr (h.sorted.imp Nat.ne_of_lt)
  exact List.inj_on_of_nodup_map hnd hx hy he

omit [DecidableEq E] in
/-- `dm_get_instance_node_by_id`. -/
theorem find (h : InstIdx row rows ix) (id : ℕ) (fuel : ℕ) (hfuel : rows.length < fuel) :
    ∃ r, ix.find (fun e => cmpValue instEntry (.int id) 0 (row e)) fuel ix.root = some r ∧
      ∀ x, r = some x ↔ x ∈ rows ∧ (row x).inst = id := by
  have hcmp : ∀ x, cmpValue instEntry (.int id) 0 (row x) = 0 ↔ (row x).inst = id := by
    intro x
    show intcmp id (row x).inst = 0 ↔ _
    rw [intcmp_eq_zero]
    omega
  obtain ⟨t, hwf, hrows⟩ := h
  obtain ⟨r, hfind, hsome, hiff⟩ := hwf.find instEntry_preorder (fun _ _ => trivial)
    (List.Perm.of_eq hrows) (.int id) 0 trivial fuel hfuel
  refine ⟨r, hfind, fun x => ⟨fun hx => ?_, fun hx => ?_⟩⟩
  · obtain ⟨hm, h0⟩ := hsome x hx
    exact ⟨hm, (hcmp x).mp h0⟩
  · obtain ⟨y, hy⟩ := Option.isSome_iff_exists.mp (hiff.mpr ⟨x, hx.1, (hcmp x).mpr hx.2⟩)
    obtain ⟨hm, h0⟩ := hsome y hy
    rw [hy, inj ⟨t, hwf, hrows⟩ y x hm hx.1 (((hcmp y).mp h0).trans hx.2.symm)]

omit [DecidableEq E] in
theorem root_mem (h : InstIdx row rows ix) (x : E) (hx : ix.root = some x) : x ∈ rows := by
  obtain ⟨t, hwf, hrows⟩ := h
  have hroot : ix.root = ptr t := hwf.focus.ctx
  rw [← hrows]
  rw [hx] at hroot
  cases t with
  | nil => cases hroot
  | node c l g r =>
    cases hroot
    exact head_mem_rowsOf _ g (by simp [Tree.toList])

omit [DecidableEq E] in
theorem root_none (h : InstIdx row rows ix) (hx : ix.root = none) : rows = [] := by
  obtain ⟨t, hwf, hrows⟩ := h
  have hroot : ix.root = ptr t := hwf.focus.ctx
  rw [hx] at hroot
  cases t with
  | nil => exact hrows.symm
  | node c l g r => cases hroot

/-- `REMOVE`, with the node cleared. -/
theorem remove (h : InstIdx row rows ix) (x : E) (fuel : ℕ) (hfuel : rows.length < fuel) :
    ∃ ix', ix.remove fuel x = some ix' ∧ InstIdx row (rows.erase x) ix' ∧
      InstIdx row (rows.erase x) (ix'.clear x) := by
  have hnd := h.nodup
  obtain ⟨t, hwf, hrows⟩ := h
  obtain ⟨ix', t', hrem, hwf', hl⟩ := hwf.remove instEntry_preorder (fun _ _ => trivial) hnd x fuel hfuel
  have hrows' : rowsOf t'.toList = rows.erase x := by
    rw [hl, rowsOf_dropRow x _ hwf.nodup, hrows]
  exact ⟨ix', hrem, ⟨t', hwf', hrows'⟩,
    t', ⟨hwf'.toIndexShape.clear x hnd.not_mem_erase, hwf'.ordered⟩, hrows'⟩

/-- Clearing the node of a row that is not there. -/
theorem clear (h : InstIdx row rows ix) (x : E) (hx : x ∉ rows) : InstIdx row rows (ix.clear x) := by
  obtain ⟨t, hwf, hrows⟩ := h
  exact ⟨t, ⟨hwf.toIndexShape.clear x hx, hwf.ordered⟩, hrows⟩

/-- `INSERT`: a row whose number is taken stays outside. -/
theorem insert (h : InstIdx row rows ix) (x : E) (hx : x ∉ rows) (fuel : ℕ)
    (hfuel : rows.length + 1 < fuel) :
    ∃ ix' rows', TreeIdx.insert fuel row ⟨instEntry, ix⟩ x = some ⟨instEntry, ix'⟩ ∧
      InstIdx row rows' ix' ∧
      ((∃ y ∈ rows, (row y).inst = (row x).inst) ∧ rows' = rows ∨
        (∀ y ∈ rows, (row y).inst ≠ (row x).inst) ∧ rows'.Perm (x :: rows)) := by
  obtain ⟨t, hwf, hrows⟩ := h
  obtain ⟨ix', t', hins, hwf', hl⟩ := hwf.insert instEntry_preorder (fun _ _ => trivial) x hx trivial
    fuel hfuel
  have hcmp : ∀ y, cmpEntry instEntry (row x) (row y) = 0 ↔ (row y).inst = (row x).inst := by
    intro y
    rw [cmpEntry_inst, intcmp_eq_zero]
    omega
  have hself : ∀ ys, (∀ y ∈ rowsOf t'.toList, y ∈ ys) → IndexWf instEntry row ys ix' t' := by
    intro ys hys
    exact ⟨⟨hwf'.focus, hwf'.balanced, fun hu => ⟨(hwf'.unique hu).1, hys⟩, fun hu => nomatch hu⟩,
      hwf'.ordered⟩
  refine ⟨ix', rowsOf t'.toList, hins, ⟨t', hself _ (fun _ hy => hy), rfl⟩, ?_⟩
  by_cases hdup : ∃ y ∈ rows, (row y).inst = (row x).inst
  · refine Or.inl ⟨hdup, ?_⟩
    obtain ⟨y, hy, hyx⟩ := hdup
    have hsome : (lookup (fun y => cmpEntry instEntry (row x) (row y)) t.toList).isSome = true := by
      rw [← Option.ne_none_iff_isSome]
      intro hnone
      have hno := (Ordered.lookup_none_iff instEntry_preorder (fun a => instEntry.key (row a)) _
        hwf.ordered (fun _ _ => trivial) _ trivial).mp hnone
      exact hno y (by rw [hrows]; exact hy) ((hcmp y).mpr hyx)
    rw [if_pos ⟨hsome, rfl⟩] at hl
    rw [hl, hrows]
  · have hno : ∀ y ∈ rows, (row y).inst ≠ (row x).inst := fun y hy he => hdup ⟨y, hy, he⟩
    refine Or.inr ⟨hno, ?_⟩
    have hnone : lookup (fun y => cmpEntry instEntry (row x) (row y)) t.toList = none :=
      lookup_none_of_live hwf.toIndexShape x fun y hy h0 => hno y hy ((hcmp y).mp h0)
    rw [if_neg (by rw [hnone]; exact fun hh => nomatch hh.1)] at hl
    rw [hl, ← hrows]
    exact rowsOf_addRow _ x t.toList

/-- `update_idx` changes nothing, unless it finds a place for the row. -/
theorem update (h : InstIdx row rows ix) (x : E) (fuel : ℕ) (hfuel : rows.length + 1 < fuel) :
    ∃ ix' rows', TreeIdx.update fuel row ⟨instEntry, ix⟩ x = some ⟨instEntry, ix'⟩ ∧
      InstIdx row rows' ix' ∧ (rows'.Perm rows ∨ x ∉ rows ∧ rows'.Perm (x :: rows)) := by
  have hnd := h.nodup
  obtain ⟨ix1, hrem, h1, -⟩ := h.remove x fuel (by omega)
  have hlen : (rows.erase x).length ≤ rows.length := List.length_erase_le
  obtain ⟨ix2, rows', hins, h2, hcases⟩ := h1.insert x hnd.not_mem_erase fuel (by omega)
  refine ⟨ix2, rows', ?_, h2, ?_⟩
  · simp only [TreeIdx.update, hrem, Option.bind_eq_bind, Option.bind_some]
    exact hins
  by_cases hx : x ∈ rows
  · cases hcases with
    | inl hdup =>
      -- No other row has the number.
      obtain ⟨⟨y, hy, hyx⟩, -⟩ := hdup
      have hyx' := h.inj y x (List.mem_of_mem_erase hy) hx hyx
      rw [hyx'] at hy
      exact absurd hy hnd.not_mem_erase
    | inr hnew => exact Or.inl (hnew.2.trans (List.perm_cons_erase hx).symm)
  · rw [List.erase_of_not_mem hx] at hcases
    cases hcases with
    | inl hdup => exact Or.inl (List.Perm.of_eq hdup.2)
    | inr hnew => exact Or.inr ⟨hx, hnew.2⟩

theorem next (h : InstIdx row rows ix) (x : E) (xs ys : List E) (hsplit : rows = xs ++ x :: ys)
    (fuel : ℕ) (hfuel : rows.length < fuel) : ix.idxNext fuel x = some ys.head? := by
  obtain ⟨t, hwf, hrows⟩ := h
  rw [← hrows] at hfuel hsplit
  exact idxNext_focus _ fuel ix t x xs ys hwf.focus hsplit hfuel

theorem first (h : InstIdx row rows ix) (fuel : ℕ) (hfuel : rows.length < fuel) : ix.first fuel = some rows.head? := by
  obtain ⟨t, hwf, hrows⟩ := h
  have hle := length_le_rowsOf t.toList
  rw [← hrows] at hfuel ⊢
  exact first_focus _ fuel ix t hwf.focus (by omega)

theorem walk (h : InstIdx row rows ix) (fuel : ℕ) (hfuel : rows.length < fuel) :
    ((ix.first fuel).bind fun x => ix.walk fuel fuel x) = some rows := by
  obtain ⟨t, hwf, hrows⟩ := h
  rw [← hrows] at hfuel ⊢
  exact walk_first _ fuel ix t hwf.focus hfuel

end InstIdx

end Mand.Index
