import Mand.Store.Wf
import Mand.Store.Resolve
import Mathlib.Data.Finset.Card

/-! # Tables know their path

In a well-formed store the path of a table is the selector that leads to it. -/
namespace Mand.Store
open Mand.Index
set_option autoImplicit false

variable {full : Prop} {X : Addr → ℕ → Prop} {S : Schema} {st : DmStore}

/-! ## Rows of an object -/

theorem length_le_of_lt {l : List ℕ} {n : ℕ} (hnd : l.Nodup) (h : ∀ x ∈ l, x < n) : l.length ≤ n := by
  have hsub : l.toFinset ⊆ Finset.range n := by
    intro x hx
    exact Finset.mem_range.mpr (h x (List.mem_toFinset.mp hx))
  have hcard := Finset.card_le_card hsub
  rw [List.toFinset_card_of_nodup hnd, Finset.card_range] at hcard
  exact hcard

theorem ObjWf.nodup {kw a i : ℕ} {p : Selector} {o : ObjTree} {rows : List Addr}
    (h : ObjWf full S st kw p a i o rows) : rows.Nodup := by
  obtain ⟨ix, rest, _, hix⟩ := h.lists
  exact hix.nodup

theorem ObjWf.length_le {kw a i : ℕ} {p : Selector} {o : ObjTree} {rows : List Addr}
    (hlt : ∀ b t, st.heap b = some t → b < st.next) (h : ObjWf full S st kw p a i o rows) :
    rows.length ≤ st.next := by
  apply length_le_of_lt h.nodup
  intro r hr
  obtain ⟨t, n, ht, -⟩ := h.isRow r hr
  exact hlt r t ht

theorem HeapWf.lt (h : HeapWf full X S st) (b : Addr) (t : VTable) (ht : st.heap b = some t) :
    b < st.next := by
  obtain ⟨kw, hw⟩ := h.table b t ht
  exact hw.lt

/-- `dm_get_instance_node_by_id` in a well-formed object. -/
theorem instanceNode_spec {kw a i : ℕ} {p : Selector} {o : ObjTree} {rows : List Addr}
    (hlt : ∀ b t, st.heap b = some t → b < st.next) (h : ObjWf full S st kw p a i o rows) (id : ℕ) :
    ∃ r, st.instanceNode (some o) id = some r ∧
      ∀ x, r = some x ↔ x ∈ rows ∧ (st.row x).inst = id := by
  have hlen := ObjWf.length_le hlt h
  obtain ⟨ix, rest, ho, hix⟩ := h.lists
  have hfuel : rows.length < st.fuel := by
    show rows.length < st.next + 2
    exact lt_of_le_of_lt hlen (Nat.lt_add_of_pos_right (by decide))
  obtain ⟨r, hr, hiff⟩ := hix.find id st.fuel hfuel
  refine ⟨r, ?_, hiff⟩
  show findInstance st.fuel st.row o.tree 0 .inst (.int id) 0 = some r
  unfold findInstance
  rw [ho, List.find?_cons_of_pos (by rfl)]
  exact hr

/-- The tree in a slot of a well-formed store. -/
theorem HeapWf.tree (h : HeapWf full X S st) {a i : ℕ} {t : VTable} {kw : ℕ} {x : Option ObjTree}
    (ht : st.heap a = some t) (hp : S.place t.id = some (kw, false)) (hx : ¬X a i)
    (htree : st.tree a i = some x) :
    ∃ o rows, x = some o ∧ ObjWf full S st kw t.id a i o rows ∧
      ∃ e, (S.table kw).elems[i]? = some e ∧ e.type = .object := by
  obtain ⟨v, hv, hc⟩ := (tree_eq_some st a i x).mp htree
  obtain ⟨t0, ht0, hvt⟩ := DmStore.slot_eq_some.mp hv
  rw [ht] at ht0
  cases ht0
  obtain ⟨k, hw⟩ := h.table a t ht
  have hk : k = kw := by
    have := hw.place
    rw [hp] at this
    cases this
    rfl
  subst hk
  obtain ⟨e, he, hfit⟩ := hw.fits i v hvt
  rw [hc] at hfit
  obtain ⟨hobj, hsome⟩ := hfit
  obtain ⟨o, rfl⟩ := Option.isSome_iff_exists.mp hsome
  obtain ⟨rows, hrows⟩ := (hw.slot i v hvt hx).object o hc
  exact ⟨o, rows, rfl, hrows, e, he, hobj⟩

/-! ## Where a reference stands -/

/-- The reference is to the value with this path: a slot of a table, or a row of an object. -/
inductive Ref.At (S : Schema) (st : DmStore) : Ref → Selector → Prop
  | slot (a i : ℕ) (t : VTable) (kw : ℕ) (e : DmElement) (stType : DmType) (ht : st.heap a = some t)
    (hp : S.place t.id = some (kw, false)) (he : (S.table kw).elems[i]? = some e) :
    Ref.At S st ⟨i + 1, e, stType, .table a, .slot a i⟩ (t.id ++ [i + 1])
  | row (a i : ℕ) (t : VTable) (kw : ℕ) (e : DmElement) (r id : ℕ) (tr : VTable)
    (ht : st.heap a = some t) (hp : S.place t.id = some (kw, false))
    (he : (S.table kw).elems[i]? = some e) (hobj : e.type = .object) (htr : st.heap r = some tr)
    (hid : tr.id = t.id ++ [i + 1, id]) (hrow : Store.IsRow st t.id a i r)
    (hmem : ∃ o rows, st.tree a i = some (some o) ∧ o.Lists st.row rows ∧ r ∈ rows) :
    Ref.At S st ⟨id, e, .inst, .object a i, .row r⟩ (t.id ++ [i + 1, id])

/-- What a selector has led to. -/
inductive Reached (S : Schema) (st : DmStore) : Base → ℕ → Selector → Prop
  | table (a : Addr) (t : VTable) (kw : ℕ) (ht : st.heap a = some t)
    (hp : S.place t.id = some (kw, false)) : Reached S st (.table a) kw t.id
  | object (a i : ℕ) (t : VTable) (kw : ℕ) (e : DmElement) (ht : st.heap a = some t)
    (hp : S.place t.id = some (kw, false)) (he : (S.table kw).elems[i]? = some e)
    (hobj : e.type = .object) : Reached S st (.object a i) e.table (t.id ++ [i + 1])

/-- The element found last is that of the object, when an instance number comes next. -/
def RefFits (S : Schema) (st : DmStore) (base : Base) (p : Selector) (ref : Option Ref) : Prop :=
  (∀ r, ref = some r → r.At S st p) ∧
    ∀ a i r t kw, base = .object a i → ref = some r → st.heap a = some t →
      S.place t.id = some (kw, false) → (S.table kw).elems[i]? = some r.elem

/-! ## One id further -/

section Steps
variable {base : Base} {kw a i id : ℕ} {p : Selector}

/-- The row that an instance number leads to. -/
theorem Reached.enterRow {x : Option ObjTree} {b c : Addr} {v : DmValue} (h : Reached S st (.object a i) kw p)
    (hw : HeapWf full nowhere S st) (htree : st.tree a i = some x)
    (hfind : st.instanceNode x id = some (some b)) (hval : st.value (.row b) = some v)
    (hc : v.content = .table (some c)) :
    c = b ∧ Reached S st (.table b) kw (p ++ [id]) ∧ ∃ t kw0 e tb, st.heap a = some t ∧
      S.place t.id = some (kw0, false) ∧ (S.table kw0).elems[i]? = some e ∧ e.type = .object ∧
      p = t.id ++ [i + 1] ∧ st.heap b = some tb ∧ tb.id = p ++ [id] ∧ Store.IsRow st t.id a i b ∧
      ∃ o, x = some o ∧ ∃ rows, o.Lists st.row rows ∧ b ∈ rows := by
  cases h with
  | object _ _ t kw0 e ht hp he hobj =>
    obtain ⟨o, rows, rfl, ho, _⟩ := hw.tree ht hp (fun hx => hx) htree
    obtain ⟨found, hf, hiff⟩ := instanceNode_spec hw.lt ho id
    rw [hf] at hfind
    cases hfind
    obtain ⟨hmem, hinst⟩ := (hiff b).mp rfl
    have hrow := ho.isRow b hmem
    obtain ⟨tb, nd, htb, hnd, hroot, htid, hcont, hlt⟩ := hrow
    have hnode : st.node b = some nd := DmStore.node_eq_some.mpr ⟨tb, htb, hnd⟩
    have hidn : nd.inst = id := by
      rw [← hinst]
      unfold DmStore.row
      simp only [hnode, Option.map_some, Option.getD_some]
    have hcb : c = b := by
      have hval' : (st.node b).map RowNode.value = some v := hval
      rw [hnode, Option.map_some, Option.some.injEq] at hval'
      rw [← hval', hcont] at hc
      cases hc
      rfl
    have htid' : tb.id = t.id ++ [i + 1] ++ [id] := by rw [htid, hidn, List.append_assoc]; rfl
    have hplace : S.place tb.id = some (e.table, false) := by
      rw [htid']
      exact place_inst (place_object hp he hobj)
    refine ⟨hcb, ?_, t, kw0, e, tb, ht, hp, he, hobj, rfl, htb, htid', ho.isRow b hmem, o, rfl, rows,
      ho.lists, hmem⟩
    rw [← htid']
    exact .table b tb _ htb hplace

/-- The table that a token leads to. -/
theorem Reached.enterToken {e : DmElement} {v : DmValue} {b : Addr} (h : Reached S st (.table a) kw p)
    (hw : HeapWf full nowhere S st) (hid : id ≠ 0) (he : (S.table kw).elems[id - 1]? = some e)
    (hval : st.slot a (id - 1) = some v) (hpar : v.parity = true) (htype : e.type = .token)
    (hc : v.content = .table (some b)) : Reached S st (.table b) e.table (p ++ [id]) := by
  cases h with
  | table _ t _ ht hp =>
    obtain ⟨t0, ht0, hvt⟩ := DmStore.slot_eq_some.mp hval
    rw [ht] at ht0
    cases ht0
    obtain ⟨k, hk⟩ := hw.table a t ht
    obtain ⟨tb, htb, htid⟩ := (hk.slot (id - 1) v hvt fun hx => hx).token b hc hpar
    have hsucc : id - 1 + 1 = id := Nat.succ_pred_eq_of_ne_zero hid
    rw [hsucc] at htid
    have hplace : S.place tb.id = some (e.table, false) := by
      rw [htid, ← hsucc]
      exact place_token hp he htype
    rw [← htid]
    exact .table b tb _ htb hplace

/-- The object of an element. -/
theorem Reached.enterObject {e : DmElement} (h : Reached S st (.table a) kw p) (hid : id ≠ 0)
    (he : (S.table kw).elems[id - 1]? = some e) (htype : e.type = .object) :
    Reached S st (.object a (id - 1)) e.table (p ++ [id]) := by
  cases h with
  | table _ t _ ht hp =>
    have hreached : Reached S st (.object a (id - 1)) e.table (t.id ++ [id - 1 + 1]) :=
      .object a (id - 1) t kw e ht hp he htype
    rw [Nat.sub_one_add_one hid] at hreached
    exact hreached

/-- The slot of an element. -/
theorem Reached.slot {e : DmElement} (h : Reached S st (.table a) kw p) (hid : id ≠ 0)
    (he : (S.table kw).elems[id - 1]? = some e) (stType : DmType) :
    Ref.At S st ⟨id, e, stType, .table a, .slot a (id - 1)⟩ (p ++ [id]) := by
  cases h with
  | table _ t _ ht hp =>
    have hat : Ref.At S st ⟨id - 1 + 1, e, stType, .table a, .slot a (id - 1)⟩
        (t.id ++ [id - 1 + 1]) := .slot a (id - 1) t kw e stType ht hp he
    rw [Nat.sub_one_add_one hid] at hat
    exact hat

theorem RefFits.table {b : Addr} {r : Ref} (h : r.At S st p) : RefFits S st (.table b) p (some r) := by
  refine ⟨fun r0 hr0 => ?_, fun a i r0 t kw hb => nomatch hb⟩
  cases hr0
  exact h

theorem Reached.fitsObject {e : DmElement} (h : Reached S st (.table a) kw p) (hid : id ≠ 0)
    (he : (S.table kw).elems[id - 1]? = some e) : RefFits S st (.object a (id - 1)) (p ++ [id])
      (some ⟨id, e, .object, .table a, .slot a (id - 1)⟩) := by
  constructor
  · intro r0 hr0
    cases hr0
    exact h.slot hid he .object
  · intro a' i' r0 t' kw' hb hr0 ht' hp'
    cases hb
    cases hr0
    cases h with
    | table _ t _ ht hp =>
      rw [ht] at ht'
      cases ht'
      rw [hp] at hp'
      cases hp'
      exact he

theorem Reached.fitsRow {x : Option ObjTree} {b : Addr} {v : DmValue} {ref : Ref}
    (h : Reached S st (.object a i) kw p) (hw : HeapWf full nowhere S st)
    (href : RefFits S st (.object a i) p (some ref)) (htree : st.tree a i = some x)
    (hfind : st.instanceNode x id = some (some b)) (hval : st.value (.row b) = some v)
    (hc : v.content = .table (some b)) :
    RefFits S st (.table b) (p ++ [id]) (some ⟨id, ref.elem, .inst, .object a i, .row b⟩) := by
  apply RefFits.table
  obtain ⟨-, -, t, kw0, e, tb, ht, hp, he, hobj, rfl, htb, htid, hrow, o, rfl, rows, hl, hmem⟩ :=
    h.enterRow hw htree hfind hval hc
  have helem : (S.table kw0).elems[i]? = some ref.elem := href.2 a i ref t kw0 rfl rfl ht hp
  rw [he] at helem
  cases helem
  have hsplit : t.id ++ [i + 1] ++ [id] = t.id ++ [i + 1, id] := by simp
  rw [hsplit] at htid ⊢
  exact .row a i t kw0 ref.elem b id tb ht hp he hobj htb htid hrow ⟨o, rows, htree, hl, hmem⟩

theorem Ref.At.unique {r : Ref} {q : Selector} (h : r.At S st p) (h' : r.At S st q) : p = q := by
  cases h with
  | slot a i t kw e stType ht hp he =>
    cases h' with
    | slot _ _ t' kw' _ _ ht' =>
      rw [ht] at ht'
      cases ht'
      rfl
  | row a i t kw e r id tr ht hp he hobj htr hid hrow =>
    cases h' with
    | row _ _ t' kw' _ _ _ tr' ht' =>
      rw [ht] at ht'
      cases ht'
      rfl

end Steps

theorem take_nonzero {id m : ℕ} {sel : Selector} (hid : id ≠ 0) (h : ∀ x ∈ sel.take m, x ≠ 0) :
    ∀ x ∈ (id :: sel).take (m + 1), x ≠ 0 := by
  intro y hy
  rw [List.take_succ_cons, List.mem_cons] at hy
  cases hy with
  | inl hy =>
    rw [hy]
    exact hid
  | inr hy => exact h y hy

/-- A selector leads to the value with the path that it spells, up to a leaf. -/
theorem Resolves.at {n : ℕ} {sel : Selector} {kw : ℕ} {base : Base} {ref : Option Ref} {r : Ref}
    (h : Resolves S st n sel kw base ref r) (hw : HeapWf full nowhere S st) (p : Selector)
    (hbase : Reached S st base kw p) (href : RefFits S st base p ref) :
    ∃ m, r.At S st (p ++ sel.take m) ∧ m < n + 1 ∧ (∀ x ∈ sel.take m, x ≠ 0) ∧
      (r.elem.container = false ∨ (sel.drop m).headD 0 = 0) := by
  induction h generalizing p with
  | done n kw base r =>
    refine ⟨0, ?_, Nat.succ_pos _, fun x hx => absurd hx List.not_mem_nil, .inr rfl⟩
    rw [List.take_nil, List.append_nil]
    exact href.1 r rfl
  | zero n sel kw base r =>
    refine ⟨0, ?_, Nat.succ_pos _, fun x hx => absurd hx List.not_mem_nil, .inr rfl⟩
    rw [List.take_zero, List.append_nil]
    exact href.1 r rfl
  | row n id sel kw a i ref x b c v r hid htree hfind hval hpar hc _ ih =>
    obtain ⟨rfl, hb, -⟩ := hbase.enterRow hw htree hfind hval hc
    obtain ⟨m, hm, hmn, hnz, hend⟩ := ih _ hb (hbase.fitsRow hw href htree hfind hval hc)
    refine ⟨m + 1, ?_, Nat.succ_lt_succ hmn, take_nonzero hid hnz, hend⟩
    rw [List.append_assoc] at hm
    exact hm
  | token n id sel kw a ref e v b r hid he hval hpar htype hc _ ih =>
    obtain ⟨m, hm, hmn, hnz, hend⟩ := ih _ (hbase.enterToken hw hid he hval hpar htype hc)
      (.table (hbase.slot hid he .token))
    refine ⟨m + 1, ?_, Nat.succ_lt_succ hmn, take_nonzero hid hnz, hend⟩
    rw [List.append_assoc] at hm
    exact hm
  | object n id sel kw a ref e v x r hid he hval hpar htype hc _ ih =>
    obtain ⟨m, hm, hmn, hnz, hend⟩ := ih _ (hbase.enterObject hid he htype) (hbase.fitsObject hid he)
    refine ⟨m + 1, ?_, Nat.succ_lt_succ hmn, take_nonzero hid hnz, hend⟩
    rw [List.append_assoc] at hm
    exact hm
  | leaf n id sel kw a ref e v hid he hval hpar htoken hobject =>
    refine ⟨1, hbase.slot hid he _, Nat.succ_lt_succ (Nat.succ_pos _), ?_, .inl ?_⟩
    · exact take_nonzero hid fun x hx => absurd hx List.not_mem_nil
    · simp [DmElement.container, htoken, hobject]

/-- The path is what the schema reads of the selector. -/
theorem Resolves.atPath {n : ℕ} {sel : Selector} {kw : ℕ} {base : Base} {ref : Option Ref} {r : Ref}
    (h : Resolves S st n sel kw base ref r) (hw : HeapWf full nowhere S st) (p : Selector)
    (hbase : Reached S st base kw p) (href : RefFits S st base p ref) :
    r.At S st (p ++ pathFrom S n sel kw base.isObject) := by
  induction h generalizing p with
  | done n kw base r =>
    rw [pathFrom, List.append_nil]
    exact href.1 r rfl
  | zero n sel kw base r =>
    rw [pathFrom, if_pos rfl, List.append_nil]
    exact href.1 r rfl
  | row n id sel kw a i ref x b c v r hid htree hfind hval hpar hc _ ih =>
    obtain ⟨rfl, hb, -⟩ := hbase.enterRow hw htree hfind hval hc
    have h1 := ih _ hb (hbase.fitsRow hw href htree hfind hval hc)
    rw [List.append_assoc] at h1
    rw [pathFrom, if_neg hid]
    exact h1
  | token n id sel kw a ref e v b r hid he hval hpar htype hc _ ih =>
    have h1 := ih _ (hbase.enterToken hw hid he hval hpar htype hc) (.table (hbase.slot hid he .token))
    rw [List.append_assoc] at h1
    rw [pathFrom, if_neg hid]
    simpa [Base.isObject, he, DmElement.container, htype] using h1
  | object n id sel kw a ref e v x r hid he hval hpar htype hc _ ih =>
    have h1 := ih _ (hbase.enterObject hid he htype) (hbase.fitsObject hid he)
    rw [List.append_assoc] at h1
    rw [pathFrom, if_neg hid]
    simpa [Base.isObject, he, DmElement.container, htype] using h1
  | leaf n id sel kw a ref e v hid he hval hpar htoken hobject =>
    rw [pathFrom, if_neg hid]
    simpa [Base.isObject, he, DmElement.container, htoken, hobject] using hbase.slot hid he _

/-! ## From the root -/

theorem HeapWf.reachedRoot (hw : HeapWf full nowhere S st) :
    Reached S st (.table st.root) S.root [] := by
  obtain ⟨t, ht, hid⟩ := hw.root
  have hp : S.place t.id = some (S.root, false) := by
    rw [hid]
    rfl
  rw [← hid]
  exact .table st.root t S.root ht hp

theorem RefFits.none (base : Base) (p : Selector) : RefFits S st base p none :=
  ⟨fun _ h => (nomatch h), fun _ _ _ _ _ _ h => (nomatch h)⟩

theorem getElementRef_at {sel : Selector} {r : Ref} (hw : HeapWf full nowhere S st)
    (h : st.getElementRef S sel = some (some r)) :
    ∃ m, r.At S st (sel.take m) ∧ m ≤ dmSelectorLen ∧ (∀ x ∈ sel.take m, x ≠ 0) ∧
      (r.elem.container = false ∨ (sel.drop m).headD 0 = 0) := by
  obtain ⟨m, hat, hm, hnz, hend⟩ := ((resolves_iff sel r).mp h).at hw [] hw.reachedRoot (.none _ _)
  exact ⟨m, hat, Nat.le_of_lt_succ hm, hnz, hend⟩

theorem selIds_of_take {sel : Selector} {m : ℕ} (hm : m ≤ dmSelectorLen)
    (hnz : ∀ x ∈ sel.take m, x ≠ 0) (hend : (sel.drop m).headD 0 = 0) : selIds sel = sel.take m := by
  unfold selIds
  have hsplit : sel.take dmSelectorLen = sel.take m ++ (sel.drop m).take (dmSelectorLen - m) := by
    rw [← List.take_append_drop m (sel.take dmSelectorLen), List.take_take, min_eq_left hm,
      List.drop_take]
  rw [hsplit, List.takeWhile_append_of_pos]
  · cases hd : sel.drop m with
    | nil => simp
    | cons x rest =>
      rw [hd] at hend
      have hx : x = 0 := hend
      cases dmSelectorLen - m with
      | zero => simp
      | succ k => simp [hx]
  · intro x hx
    simpa using hnz x hx

/-- Ids without an end among them. -/
theorem selIds_eq_self {ids : Selector} (hlen : ids.length ≤ dmSelectorLen) (hnz : ∀ x ∈ ids, x ≠ 0) :
    selIds ids = ids := by
  have htake := List.take_of_length_le (Nat.le_refl ids.length)
  rw [selIds_of_take hlen (by rwa [htake]) (by simp), htake]

/-- The selector of a container spells its path. -/
theorem getElementRef_selIds {sel : Selector} {r : Ref} (hw : HeapWf full nowhere S st)
    (h : st.getElementRef S sel = some (some r)) (hc : r.elem.container = true) :
    r.At S st (selIds sel) := by
  obtain ⟨m, hat, hm, hnz, hend⟩ := getElementRef_at hw h
  rcases hend with hleaf | hend
  · rw [hc] at hleaf
    cases hleaf
  · rw [selIds_of_take hm hnz hend]
    exact hat

theorem getElementRef_path {sel : Selector} {r : Ref} (hw : HeapWf full nowhere S st)
    (h : st.getElementRef S sel = some (some r)) : r.At S st (S.path sel) :=
  ((resolves_iff sel r).mp h).atPath hw [] hw.reachedRoot (.none _ _)

/-- A path fits into a selector. -/
theorem getElementRef_path_fits {sel : Selector} {r : Ref} (hw : HeapWf full nowhere S st)
    (h : st.getElementRef S sel = some (some r)) :
    (S.path sel).length ≤ dmSelectorLen ∧ (∀ x ∈ S.path sel, x ≠ 0) ∧ S.path sel <+: sel := by
  obtain ⟨m, hat, hm, hnz, -⟩ := getElementRef_at hw h
  rw [(getElementRef_path hw h).unique hat]
  exact ⟨(List.length_take_le m sel).trans hm, hnz, List.take_prefix m sel⟩

end Mand.Store
