import Mand.Store.Paths

/-! # What an operation keeps

Operations on the store may write leaves and flags, add tables and rows, and delete below some paths.
What is not below such a path can still be found where it was. -/
namespace Mand.Store
open Mand.Index
set_option autoImplicit false

/-- The row is in the first index of the object. -/
def ObjTree.Has (o : ObjTree) (r : Addr) : Prop := ∃ row rows, o.Lists row rows ∧ r ∈ rows

theorem ObjTree.Lists.has {o : ObjTree} {row : Addr → Row} {rows : List Addr} {r : Addr}
    (h : o.Lists row rows) : o.Has r ↔ r ∈ rows := by
  constructor
  · intro hr
    obtain ⟨row', rows', hl, hr⟩ := hr
    rw [h.unique hl]
    exact hr
  · intro hr
    exact ⟨row, rows, h, hr⟩

/-- The kind of the contents stays, and so do the table of a token and the rows in `Q`. -/
def Content.KeptOn (Q : Addr → Prop) : Content → Content → Prop
  | .scalar _, .scalar _ => True
  | .table x, .table y => x = y
  | .inst (some o), .inst (some o') => ∀ r, Q r → o.Has r → o'.Has r
  | .inst none, .inst _ => True
  | _, _ => False

/-- What has a path in `P` is still there. -/
structure Keeps (P : Selector → Prop) (st st' : DmStore) : Prop where
  root : st'.root = st.root
  lt : ∀ b t, st.heap b = some t → b < st.next
  next : st.next ≤ st'.next
  dead : ∀ b, b < st.next → st.heap b = none → st'.heap b = none
  ids : ∀ b t t', st.heap b = some t → st'.heap b = some t' → t'.id = t.id
  table : ∀ b t, st.heap b = some t → P t.id → ∃ t', st'.heap b = some t'
  slot : ∀ b t (j : ℕ) v, st.heap b = some t → t.values[j]? = some v → P (t.id ++ [j + 1]) →
    v.parity = true → ∃ v', st'.slot b j = some v' ∧ v'.parity = true ∧
      v.content.KeptOn (fun r => ∃ tr, st.heap r = some tr ∧ P tr.id) v'.content
  node : ∀ b t n, st.heap b = some t → P t.id → t.node = some n → n.value.parity = true →
    ∃ n', st'.node b = some n' ∧ n'.value.parity = true ∧ n'.value.content = n.value.content ∧
      n'.inst = n.inst

variable {P : Selector → Prop} {st st' st'' : DmStore}

theorem Content.KeptOn.refl (Q : Addr → Prop) (c : Content) : c.KeptOn Q c := by
  cases c with
  | scalar v => trivial
  | table x => exact rfl
  | inst x =>
    cases x with
    | none => trivial
    | some o => exact fun _ _ h => h

theorem Content.KeptOn.trans {Q Q' : Addr → Prop} {c c' c'' : Content} (h : c.KeptOn Q c')
    (h' : c'.KeptOn Q' c'') (hQ : ∀ r, Q r → Q' r) : c.KeptOn Q c'' := by
  cases c with
  | scalar v =>
    cases c' with
    | scalar v' =>
      cases c'' with
      | scalar v'' => trivial
      | table x => exact h'
      | inst x => exact h'
    | table x => exact h.elim
    | inst x => exact h.elim
  | table x =>
    cases c' with
    | scalar v' => exact h.elim
    | table x' =>
      cases c'' with
      | scalar v'' => exact h'
      | table x'' => exact Eq.trans h h'
      | inst x => exact h'
    | inst x => exact h.elim
  | inst x =>
    cases x with
    | none =>
      cases c' with
      | scalar v' => exact h.elim
      | table x' => exact h.elim
      | inst x' =>
        cases c'' with
        | scalar v'' =>
          cases x' with
          | none => exact h'
          | some o => exact h'
        | table x'' =>
          cases x' with
          | none => exact h'
          | some o => exact h'
        | inst x'' => trivial
    | some o =>
      cases c' with
      | scalar v' => exact h.elim
      | table x' => exact h.elim
      | inst x' =>
        cases x' with
        | none => exact h.elim
        | some o' =>
          cases c'' with
          | scalar v'' => exact h'
          | table x'' => exact h'
          | inst x'' =>
            cases x'' with
            | none => exact h'
            | some o'' => exact fun r hq hr => h' r (hQ r hq) (h r hq hr)

theorem Keeps.refl (P : Selector → Prop) (hlt : ∀ b t, st.heap b = some t → b < st.next) :
    Keeps P st st where
  root := rfl
  lt := hlt
  next := le_refl _
  dead := fun _ _ h => h
  ids := by
    intro b t t' ht ht'
    rw [ht] at ht'
    cases ht'
    rfl
  table := fun b t ht _ => ⟨t, ht⟩
  slot := fun b t j v ht hv _ hp =>
    ⟨v, DmStore.slot_eq_some.mpr ⟨t, ht, hv⟩, hp, Content.KeptOn.refl _ _⟩
  node := fun b t n ht _ hn hp => ⟨n, DmStore.node_eq_some.mpr ⟨t, ht, hn⟩, hp, rfl, rfl⟩

theorem Keeps.trans (h : Keeps P st st') (h' : Keeps P st' st'') : Keeps P st st'' where
  root := h'.root.trans h.root
  lt := h.lt
  next := le_trans h.next h'.next
  dead := fun b hb hn => h'.dead b (lt_of_lt_of_le hb h.next) (h.dead b hb hn)
  ids := by
    intro b t t'' ht ht''
    cases ht' : st'.heap b with
    | none =>
      rw [h'.dead b (lt_of_lt_of_le (h.lt b t ht) h.next) ht'] at ht''
      cases ht''
    | some t' => rw [h'.ids b t' t'' ht' ht'', h.ids b t t' ht ht']
  table := by
    intro b t ht hp
    obtain ⟨t', ht'⟩ := h.table b t ht hp
    exact h'.table b t' ht' (by rw [h.ids b t t' ht ht']; exact hp)
  slot := by
    intro b t j v ht hv hp hpar
    obtain ⟨v', hv', hpar', hk⟩ := h.slot b t j v ht hv hp hpar
    obtain ⟨t', ht', hvt'⟩ := DmStore.slot_eq_some.mp hv'
    have hid := h.ids b t t' ht ht'
    obtain ⟨v'', hv'', hpar'', hk'⟩ := h'.slot b t' j v' ht' hvt' (by rw [hid]; exact hp) hpar'
    refine ⟨v'', hv'', hpar'', hk.trans hk' ?_⟩
    intro r hr
    obtain ⟨tr, htr, hpr⟩ := hr
    obtain ⟨tr', htr'⟩ := h.table r tr htr hpr
    exact ⟨tr', htr', by rw [h.ids r tr tr' htr htr']; exact hpr⟩
  node := by
    intro b t n ht hp hn hpar
    obtain ⟨n', hn', hpar', hc, hi⟩ := h.node b t n ht hp hn hpar
    obtain ⟨t', ht', hnt'⟩ := DmStore.node_eq_some.mp hn'
    have hid := h.ids b t t' ht ht'
    obtain ⟨n'', hn'', hpar'', hc', hi'⟩ := h'.node b t' n' ht' (by rw [hid]; exact hp) hnt' hpar'
    exact ⟨n'', hn'', hpar'', hc'.trans hc, hi'.trans hi⟩

theorem Keeps.mono {Q : Selector → Prop} (h : Keeps P st st') (hQ : ∀ p, Q p → P p) :
    Keeps Q st st' where
  root := h.root
  lt := h.lt
  next := h.next
  dead := h.dead
  ids := h.ids
  table := fun b t ht hp => h.table b t ht (hQ _ hp)
  slot := by
    intro b t j v ht hv hp hpar
    obtain ⟨v', hv', hpar', hk⟩ := h.slot b t j v ht hv (hQ _ hp) hpar
    refine ⟨v', hv', hpar', (Content.KeptOn.refl _ _).trans hk ?_⟩
    intro r hr
    obtain ⟨tr, htr, hpr⟩ := hr
    exact ⟨tr, htr, hQ _ hpr⟩
  node := fun b t n ht hp hn hpar => h.node b t n ht (hQ _ hp) hn hpar

/-! ## Single writes -/

theorem Keeps.put {a : Addr} {t t' : VTable} (hlt : ∀ b t, st.heap b = some t → b < st.next)
    (ha : st.heap a = some t) (hid : t'.id = t.id)
    (hslot : ∀ (j : ℕ) v, t.values[j]? = some v → P (t.id ++ [j + 1]) → v.parity = true →
      ∃ v', t'.values[j]? = some v' ∧ v'.parity = true ∧
        v.content.KeptOn (fun r => ∃ tr, st.heap r = some tr ∧ P tr.id) v'.content)
    (hnode : ∀ n, P t.id → t.node = some n → n.value.parity = true → ∃ n', t'.node = some n' ∧
      n'.value.parity = true ∧ n'.value.content = n.value.content ∧ n'.inst = n.inst) :
    Keeps P st (st.put a t') where
  root := rfl
  lt := hlt
  next := le_refl _
  dead := by
    intro b _ hn
    rw [DmStore.put_heap, if_neg]
    · exact hn
    · intro hba
      rw [hba, ha] at hn
      cases hn
  ids := by
    intro b tb tb' hb hb'
    rw [DmStore.put_heap] at hb'
    by_cases hba : b = a
    · rw [if_pos hba] at hb'
      cases hb'
      rw [hba, ha] at hb
      cases hb
      exact hid
    · rw [if_neg hba, hb] at hb'
      cases hb'
      rfl
  table := by
    intro b tb hb _
    rw [DmStore.put_heap]
    by_cases hba : b = a
    · exact ⟨t', if_pos hba⟩
    · exact ⟨tb, by rw [if_neg hba]; exact hb⟩
  slot := by
    intro b tb j v hb hv hp hpar
    by_cases hba : b = a
    · subst hba
      rw [ha] at hb
      cases hb
      obtain ⟨v', hv', hpar', hk⟩ := hslot j v hv hp hpar
      exact ⟨v', DmStore.slot_eq_some.mpr ⟨t', DmStore.put_heap_self _ _ _, hv'⟩, hpar', hk⟩
    · refine ⟨v, ?_, hpar, Content.KeptOn.refl _ _⟩
      rw [DmStore.slot_eq, DmStore.put_heap, if_neg hba, hb]
      exact hv
  node := by
    intro b tb n hb hp hn hpar
    by_cases hba : b = a
    · subst hba
      rw [ha] at hb
      cases hb
      obtain ⟨n', hn', hrest⟩ := hnode n hp hn hpar
      exact ⟨n', DmStore.node_eq_some.mpr ⟨t', DmStore.put_heap_self _ _ _, hn'⟩, hrest⟩
    · refine ⟨n, ?_, hpar, rfl, rfl⟩
      rw [DmStore.node_eq, DmStore.put_heap, if_neg hba, hb]
      exact hn

/-- A slot is written. -/
theorem Keeps.setSlot {a i : ℕ} {t : VTable} {v v' : DmValue}
    (hlt : ∀ b t, st.heap b = some t → b < st.next) (hst : st.setSlot a i v' = some st')
    (ha : st.heap a = some t) (hv : t.values[i]? = some v)
    (hkept : P (t.id ++ [i + 1]) → v.parity = true → v'.parity = true ∧
      v.content.KeptOn (fun r => ∃ tr, st.heap r = some tr ∧ P tr.id) v'.content) : Keeps P st st' := by
  obtain ⟨t0, ht0, hi, rfl⟩ := DmStore.setSlot_eq_some.mp hst
  rw [ha] at ht0
  cases ht0
  refine Keeps.put hlt ha rfl ?_ ?_
  · intro j w hw hp hpar
    show ∃ w', (t.values.set i v')[j]? = some w' ∧ _
    rw [List.getElem?_set]
    by_cases hij : i = j
    · subst hij
      rw [if_pos rfl, if_pos hi]
      rw [hv] at hw
      cases hw
      exact ⟨v', rfl, hkept hp hpar⟩
    · rw [if_neg hij]
      exact ⟨w, hw, hpar, Content.KeptOn.refl _ _⟩
  · intro n _ hn hpar
    exact ⟨n, hn, hpar, rfl, rfl⟩

/-- The node of a row is written. -/
theorem Keeps.setNode {a : ℕ} {n n' : RowNode} (hlt : ∀ b t, st.heap b = some t → b < st.next)
    (hst : st.setNode a n' = some st') (hn : st.node a = some n)
    (hkept : n.value.parity = true → n'.value.parity = true ∧
      n'.value.content = n.value.content ∧ n'.inst = n.inst) : Keeps P st st' := by
  obtain ⟨t, ht, rfl⟩ := DmStore.setNode_eq_some.mp hst
  obtain ⟨t0, ht0, hnt⟩ := DmStore.node_eq_some.mp hn
  rw [ht] at ht0
  cases ht0
  refine Keeps.put hlt ht rfl ?_ ?_
  · intro j w hw _ hpar
    exact ⟨w, hw, hpar, Content.KeptOn.refl _ _⟩
  · intro m _ hm hpar
    rw [hnt] at hm
    cases hm
    exact ⟨n', rfl, hkept hpar⟩

/-- A fresh table gets its node. -/
theorem Keeps.addNode {a : ℕ} {t : VTable} {n : RowNode}
    (hlt : ∀ b t, st.heap b = some t → b < st.next) (hst : st.setNode a n = some st')
    (ht : st.heap a = some t) (hnone : t.node = none) : Keeps P st st' := by
  obtain ⟨t0, ht0, rfl⟩ := DmStore.setNode_eq_some.mp hst
  rw [ht] at ht0
  cases ht0
  refine Keeps.put hlt ht rfl ?_ ?_
  · intro j w hw _ hpar
    exact ⟨w, hw, hpar, Content.KeptOn.refl _ _⟩
  · intro m _ hm
    rw [hnone] at hm
    cases hm

/-- A table is given back. -/
theorem Keeps.free {a : Addr} {t : VTable} (hlt : ∀ b t, st.heap b = some t → b < st.next)
    (ht : st.heap a = some t) (hp : ¬P t.id) (hslots : ∀ (j : ℕ), ¬P (t.id ++ [j + 1])) :
    Keeps P st (st.free a) where
  root := rfl
  lt := hlt
  next := le_refl _
  dead := by
    intro b _ hn
    rw [DmStore.free_heap]
    by_cases hba : b = a
    · exact if_pos hba
    · rw [if_neg hba]
      exact hn
  ids := by
    intro b tb tb' hb hb'
    rw [DmStore.free_heap] at hb'
    by_cases hba : b = a
    · rw [if_pos hba] at hb'
      cases hb'
    · rw [if_neg hba, hb] at hb'
      cases hb'
      rfl
  table := by
    intro b tb hb hpb
    have hba : b ≠ a := by
      intro he
      rw [he, ht] at hb
      cases hb
      exact hp hpb
    exact ⟨tb, by rw [DmStore.free_heap, if_neg hba]; exact hb⟩
  slot := by
    intro b tb j v hb hv hpb hpar
    have hba : b ≠ a := by
      intro he
      rw [he, ht] at hb
      cases hb
      exact hslots j hpb
    refine ⟨v, ?_, hpar, Content.KeptOn.refl _ _⟩
    rw [DmStore.slot_eq, DmStore.free_heap, if_neg hba, hb]
    exact hv
  node := by
    intro b tb n hb hpb hn hpar
    have hba : b ≠ a := by
      intro he
      rw [he, ht] at hb
      cases hb
      exact hp hpb
    refine ⟨n, ?_, hpar, rfl, rfl⟩
    rw [DmStore.node_eq, DmStore.free_heap, if_neg hba, hb]
    exact hn

/-! ## Selectors -/

section Selectors
variable {full : Prop} {S : Schema} {kw a i : ℕ} {p q : Selector} {base : Base}

/-- What is kept can still be reached. -/
theorem Reached.keeps (h : Reached S st base kw p) (hk : Keeps P st st') (hP : ∀ q, q <+: p → P q) :
    Reached S st' base kw p := by
  cases h with
  | table a t kw ht hp =>
    obtain ⟨t', ht'⟩ := hk.table a t ht (hP t.id (List.prefix_refl _))
    have hid := hk.ids a t t' ht ht'
    rw [← hid] at hp ⊢
    exact .table a t' kw ht' hp
  | object a i t kw e ht hp he hobj =>
    obtain ⟨t', ht'⟩ := hk.table a t ht (hP t.id (List.prefix_append _ _))
    have hid := hk.ids a t t' ht ht'
    rw [← hid] at hp ⊢
    exact .object a i t' kw e ht' hp he hobj

/-- A slot with a kept path. -/
theorem Reached.keepsSlot {v : DmValue} (h : Reached S st (.table a) kw p) (hk : Keeps P st st')
    (hv : st.slot a i = some v) (hP : P (p ++ [i + 1])) (hpar : v.parity = true) :
    ∃ v', st'.slot a i = some v' ∧ v'.parity = true ∧
      v.content.KeptOn (fun r => ∃ tr, st.heap r = some tr ∧ P tr.id) v'.content := by
  cases h with
  | table _ t _ ht hp =>
    obtain ⟨t0, ht0, hvt⟩ := DmStore.slot_eq_some.mp hv
    rw [ht] at ht0
    cases ht0
    exact hk.slot a t i v ht hvt hP hpar

/-- A row with a kept path is found in its object again. -/
theorem Reached.keepsRow {id : ℕ} {x : Option ObjTree} {b : Addr} {v : DmValue}
    (h : Reached S st (.object a i) kw p) (hk : Keeps P st st') (hw : HeapWf full nowhere S st)
    (hw' : HeapWf full nowhere S st') (htree : st.tree a i = some x)
    (hfind : st.instanceNode x id = some (some b)) (hval : st.value (.row b) = some v)
    (hc : v.content = .table (some b)) (hpar : v.parity = true) {w : DmValue}
    (hslot : st.slot a i = some w) (hwpar : w.parity = true) (hP : ∀ q, q <+: p ++ [id] → P q) :
    ∃ x' v', st'.tree a i = some x' ∧ st'.instanceNode x' id = some (some b) ∧
      st'.value (.row b) = some v' ∧ v'.parity = true ∧ v'.content = .table (some b) := by
  obtain ⟨-, -, t, kw0, e, tb, ht, hp, he, hobj, rfl, htb, htid, hrow, o, rfl, rows, hl, hmem⟩ :=
    h.enterRow hw htree hfind hval hc
  have hPb : P tb.id := by
    rw [htid]
    exact hP _ (List.prefix_refl _)
  -- the slot of the object
  obtain ⟨t0, ht0, hwt⟩ := DmStore.slot_eq_some.mp hslot
  rw [ht] at ht0
  cases ht0
  obtain ⟨w0, hw0, hwc⟩ := (tree_eq_some st a i _).mp htree
  rw [hslot] at hw0
  cases hw0
  obtain ⟨w', hw'slot, -, hkept⟩ := hk.slot a t i w ht hwt (hP _ (List.prefix_append _ _)) hwpar
  rw [hwc] at hkept
  obtain ⟨o', ho', hhas⟩ : ∃ o', w'.content = .inst (some o') ∧ o'.Has b := by
    cases hcw : w'.content with
    | scalar y =>
      rw [hcw] at hkept
      exact hkept.elim
    | table y =>
      rw [hcw] at hkept
      exact hkept.elim
    | inst y =>
      rw [hcw] at hkept
      cases y with
      | none => exact hkept.elim
      | some o' => exact ⟨o', rfl, hkept b ⟨tb, htb, hPb⟩ ⟨st.row, rows, hl, hmem⟩⟩
  have htree' : st'.tree a i = some (some o') := (tree_eq_some st' a i _).mpr ⟨w', hw'slot, ho'⟩
  -- the table and the rows afterwards
  obtain ⟨t', ht'⟩ := hk.table a t ht (hP _ (by rw [List.append_assoc]; exact List.prefix_append _ _))
  have hid' := hk.ids a t t' ht ht'
  obtain ⟨o2, rows', ho2, hobj', -⟩ := hw'.tree ht' (by rw [hid']; exact hp) (fun hx => hx) htree'
  cases ho2
  have hmem' : b ∈ rows' := hobj'.lists.has.mp hhas
  obtain ⟨tb', htb'⟩ := hk.table b tb htb hPb
  have hinst' : (st'.row b).inst = id := by
    refine (hobj'.isRow b hmem').inst htb' ?_
    rw [hk.ids b tb tb' htb htb', htid, hid', List.append_assoc]
    rfl
  obtain ⟨found, hf, hiff⟩ := instanceNode_spec hw'.lt hobj' id
  have hfound : found = some b := (hiff b).mpr ⟨hmem', hinst'⟩
  -- and the node of the row
  obtain ⟨nd, hnd, hndv⟩ := Option.map_eq_some_iff.mp hval
  obtain ⟨tb0, htb0, hndt⟩ := DmStore.node_eq_some.mp hnd
  rw [htb] at htb0
  cases htb0
  rw [← hndv] at hpar hc
  obtain ⟨nd', hnd', hpar', hcont', -⟩ := hk.node b tb nd htb hPb hndt hpar
  refine ⟨some o', nd'.value, htree', by rw [hf, hfound], ?_, hpar', by rw [hcont', hc]⟩
  show (st'.node b).map RowNode.value = _
  rw [hnd']
  rfl

/-- A selector leads to the same value while the ids before it are kept. `hobj` tells that the parity of
an object was checked before its rows are looked up. -/
theorem Resolves.keeps {n : ℕ} {sel : Selector} {ref : Option Ref} {r : Ref}
    (h : Resolves S st n sel kw base ref r) (hk : Keeps P st st') (hw : HeapWf full nowhere S st)
    (hw' : HeapWf full nowhere S st') (hbase : Reached S st base kw p) (href : RefFits S st base p ref)
    (hobj : ∀ a i, base = .object a i → ∃ w, st.slot a i = some w ∧ w.parity = true)
    (hat : r.At S st q) (hP : ∀ q', q' <+: q → P q') : Resolves S st' n sel kw base ref r := by
  have hpre : ∀ {n sel kw base ref p}, Resolves S st n sel kw base ref r → Reached S st base kw p →
      RefFits S st base p ref → p <+: q := by
    intro n sel kw base ref p h hb href
    obtain ⟨m, hm, -⟩ := h.at hw p hb href
    rw [hat.unique hm]
    exact List.prefix_append _ _
  induction h generalizing p with
  | done n kw base r => exact .done n kw base r
  | zero n sel kw base r => exact .zero n sel kw base r
  | row n id sel kw a i ref x b c v r hid htree hfind hval hpar hc hrest ih =>
    obtain ⟨rfl, hb, -⟩ := hbase.enterRow hw htree hfind hval hc
    have hfits := hbase.fitsRow hw href htree hfind hval hc
    obtain ⟨w, hslot, hwpar⟩ := hobj a i rfl
    obtain ⟨x', v', htree', hfind', hval', hpar', hc'⟩ := hbase.keepsRow hk hw hw' htree hfind hval hc
      hpar hslot hwpar fun q' hq' => hP q' (hq'.trans (hpre hrest hb hfits))
    exact .row n id sel kw a i ref x' c c v' r hid htree' hfind' hval' hpar' hc'
      (ih hb hfits (fun a i hb => nomatch hb) hat hpre)
  | token n id sel kw a ref e v b r hid he hval hpar htype hc hrest ih =>
    have hb := hbase.enterToken hw hid he hval hpar htype hc
    have hfits := RefFits.table (b := b) (hbase.slot hid he .token)
    have hPid : P (p ++ [id - 1 + 1]) := by
      rw [Nat.sub_one_add_one hid]
      exact hP _ (hpre hrest hb hfits)
    obtain ⟨v', hval', hpar', hkept⟩ := hbase.keepsSlot hk hval hPid hpar
    have hc' : v'.content = .table (some b) := by
      rw [hc] at hkept
      cases hcv : v'.content with
      | scalar y =>
        rw [hcv] at hkept
        exact hkept.elim
      | inst y =>
        rw [hcv] at hkept
        exact hkept.elim
      | table y =>
        rw [hcv] at hkept
        exact congrArg _ hkept.symm
    exact .token n id sel kw a ref e v' b r hid he hval' hpar' htype hc'
      (ih hb hfits (fun a i hb => nomatch hb) hat hpre)
  | object n id sel kw a ref e v x r hid he hval hpar htype hc hrest ih =>
    have hb := hbase.enterObject hid he htype
    have hfits := hbase.fitsObject hid he
    have hPid : P (p ++ [id - 1 + 1]) := by
      rw [Nat.sub_one_add_one hid]
      exact hP _ (hpre hrest hb hfits)
    obtain ⟨v', hval', hpar', hkept⟩ := hbase.keepsSlot hk hval hPid hpar
    obtain ⟨x', hc'⟩ : ∃ x', v'.content = .inst x' := by
      rw [hc] at hkept
      cases hcv : v'.content with
      | scalar y =>
        rw [hcv] at hkept
        cases x <;> exact hkept.elim
      | table y =>
        rw [hcv] at hkept
        cases x <;> exact hkept.elim
      | inst y => exact ⟨y, rfl⟩
    refine .object n id sel kw a ref e v' x' r hid he hval' hpar' htype hc' (ih hb hfits ?_ hat hpre)
    intro a' i' hbase'
    cases hbase'
    exact ⟨v, hval, hpar⟩
  | leaf n id sel kw a ref e v hid he hval hpar htoken hobject =>
    have hPid : P (p ++ [id - 1 + 1]) := by
      rw [Nat.sub_one_add_one hid, ← hat.unique (hbase.slot hid he _)]
      exact hP _ (List.prefix_refl _)
    obtain ⟨v', hval', hpar', -⟩ := hbase.keepsSlot hk hval hPid hpar
    exact .leaf n id sel kw a ref e v' hid he hval' hpar' htoken hobject

theorem getElementRef_keeps {sel : Selector} {r : Ref} (h : st.getElementRef S sel = some (some r))
    (hk : Keeps P st st') (hw : HeapWf full nowhere S st) (hw' : HeapWf full nowhere S st')
    (hat : r.At S st q) (hP : ∀ q', q' <+: q → P q') : st'.getElementRef S sel = some (some r) := by
  apply (resolves_iff sel r).mpr
  rw [hk.root]
  exact ((resolves_iff sel r).mp h).keeps hk hw hw' hw.reachedRoot (.none _ _)
    (fun a i hb => (nomatch hb)) hat hP

end Selectors

end Mand.Store
