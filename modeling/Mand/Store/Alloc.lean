import Mand.Store.Wf

/-! # New tables

`dm_alloc_table` makes a table and those below it. It writes no table that was there before, and nothing
but the new tables themselves points to a new table. -/
namespace Mand.Store
open Mand.Index
set_option autoImplicit false

/-- A well-formed heap, whether or not the store has its root yet. -/
structure TablesWf (full : Prop) (X : Addr → ℕ → Prop) (S : Schema) (st : DmStore) : Prop where
  table : ∀ a t, st.heap a = some t → ∃ kw, VTableWf full X S st a t kw
  inj : ∀ a i v b c j w, st.slot a i = some v → v.content = .table (some b) →
    st.slot c j = some w → w.content = .table (some b) → a = c ∧ i = j

/-- Tables were added. -/
structure Grown (st st' : DmStore) : Prop where
  root : st'.root = st.root
  next : st.next ≤ st'.next
  old : ∀ b, b < st.next → st'.heap b = st.heap b
  node : ∀ b t, st.next ≤ b → st'.heap b = some t → t.node = none
  ptr : ∀ b j v c, st.next ≤ b → st'.slot b j = some v → v.content = .table (some c) → st.next ≤ c

/-- No slot points to the table. -/
def NoPtr (st : DmStore) (b : Addr) : Prop := ∀ a i v, st.slot a i = some v → v.content ≠ .table (some b)

variable {full : Prop} {X : Addr → ℕ → Prop} {S : Schema}

theorem HeapWf.tables {st : DmStore} (h : HeapWf full X S st) : TablesWf full X S st := ⟨h.table, h.inj⟩

theorem Grown.refl (st : DmStore) : (∀ b, st.next ≤ b → st.heap b = none) → Grown st st := by
  intro hnone
  refine ⟨rfl, le_refl _, fun _ _ => rfl, ?_, ?_⟩
  · intro b t hb ht
    rw [hnone b hb] at ht
    cases ht
  · intro b j v c hb hv
    obtain ⟨t, ht, -⟩ := DmStore.slot_eq_some.mp hv
    rw [hnone b hb] at ht
    cases ht

theorem Grown.trans {st st' st'' : DmStore} (h : Grown st st') (h' : Grown st' st'') : Grown st st'' := by
  refine ⟨h'.root.trans h.root, le_trans h.next h'.next, ?_, ?_, ?_⟩
  · intro b hb
    rw [h'.old b (lt_of_lt_of_le hb h.next), h.old b hb]
  · intro b t hb ht
    by_cases hlt : b < st'.next
    · rw [h'.old b hlt] at ht
      exact h.node b t hb ht
    · exact h'.node b t (not_lt.mp hlt) ht
  · intro b j v c hb hv hc
    by_cases hlt : b < st'.next
    · rw [DmStore.slot_eq, h'.old b hlt] at hv
      exact h.ptr b j v c hb hv hc
    · exact le_trans h.next (h'.ptr b j v c (not_lt.mp hlt) hv hc)

theorem TablesWf.empty_above {st : DmStore} (h : TablesWf full X S st) (b : Addr) (hb : st.next ≤ b) :
    st.heap b = none := by
  cases ht : st.heap b with
  | none => rfl
  | some t =>
    obtain ⟨kw, hw⟩ := h.table b t ht
    exact absurd hw.lt (not_lt.mpr hb)

theorem TablesWf.noPtr {st : DmStore} (h : TablesWf full X S st) (b : Addr) (hb : st.next ≤ b) :
    NoPtr st b := by
  intro a i v hv hc
  obtain ⟨t, ht, hvt⟩ := DmStore.slot_eq_some.mp hv
  obtain ⟨kw, hw⟩ := h.table a t ht
  exact absurd (hw.ptr i v b hvt hc) (not_lt.mpr hb)

/-- What grows points to no table that nothing pointed to. -/
theorem Grown.noPtr {st st' : DmStore} (h : Grown st st') {b : Addr} (hb : b < st.next)
    (hn : NoPtr st b) : NoPtr st' b := by
  intro a i v hv hc
  by_cases ha : a < st.next
  · rw [DmStore.slot_eq, h.old a ha] at hv
    exact hn a i v hv hc
  · exact absurd hb (not_lt.mpr (h.ptr a i v b (not_lt.mp ha) hv hc))

/-- The next address may be passed over. -/
theorem TablesWf.skip {st : DmStore} (h : TablesWf full X S st) (n : ℕ) (hn : st.next ≤ n) (root : Addr) :
    TablesWf full X S ⟨st.heap, n, root⟩ := by
  refine ⟨?_, h.inj⟩
  intro a t ht
  obtain ⟨kw, hw⟩ := h.table a t ht
  refine ⟨kw, lt_of_lt_of_le hw.lt hn, hw.place, hw.len, hw.fits, ?_, ?_, hw.node, ?_⟩
  · intro i v b hv hc
    exact lt_of_lt_of_le (hw.ptr i v b hv hc) hn
  · intro i v hv hx
    have hs := hw.slot i v hv hx
    refine ⟨hs.token, ?_⟩
    intro o ho
    obtain ⟨rows, hrows⟩ := hs.object o ho
    refine ⟨rows, hrows.lists, hrows.isRow, hrows.cntr, ?_⟩
    intro hf
    obtain ⟨h1, h2, h3⟩ := hrows.account hf
    exact ⟨h1, h2, h3⟩
  · intro n' hn'
    exact (hw.home n' hn').mono hn fun b tb _ hb => ⟨tb, hb, rfl⟩

/-- A table is put at an address that was passed over. -/
theorem TablesWf.add {st : DmStore} {a kw : ℕ} {t : VTable} (h : TablesWf full X S st)
    (hfree : st.heap a = none) (hlt : a < st.next) (hnode : t.node = none)
    (hplace : S.place t.id = some (kw, false)) (hlen : t.values.length = (S.table kw).elems.length)
    (hroots : ∀ r n j, st.node r = some n → n.root ≠ some (a, j))
    (hfits : ∀ (i : ℕ) (v : DmValue), t.values[i]? = some v →
      ∃ e, (S.table kw).elems[i]? = some e ∧ Fits e v.content)
    (hptr : ∀ (i : ℕ) (v : DmValue) (b : Addr), t.values[i]? = some v → v.content = .table (some b) →
      b < st.next ∧ b ≠ a ∧ NoPtr st b ∧ ∃ tb, st.heap b = some tb ∧ tb.id = t.id ++ [i + 1])
    (hdist : ∀ (i j : ℕ) (v w : DmValue) (b : Addr), t.values[i]? = some v → t.values[j]? = some w →
      v.content = .table (some b) → w.content = .table (some b) → i = j)
    (hobj : ∀ (i : ℕ) (v : DmValue) (o : ObjTree), t.values[i]? = some v → v.content = .inst (some o) →
      o.Lists (st.put a t).row [] ∧ o.tree.cnt = 0 ∧
        o.cntr = (counterOf (S.table kw).elems (i + 1)).map fun c => (a, c + 1))
    (hcnt : ∀ (i c : ℕ), counterOf (S.table kw).elems (i + 1) = some c →
      ∃ v, t.values[c]? = some v ∧ v.content = .scalar (.uint 0)) :
    TablesWf full X S (st.put a t) := by
  have hkeep : ∀ b tb, st.heap b = some tb → (st.put a t).heap b = some tb := by
    intro b tb hb
    rw [DmStore.put_heap, if_neg]
    · exact hb
    · intro hba
      rw [hba, hfree] at hb
      cases hb
  have hnodes : ∀ r n, (st.put a t).node r = some n → st.node r = some n := by
    intro r n hn
    rw [DmStore.node_eq, DmStore.put_heap] at hn
    by_cases hra : r = a
    · rw [if_pos hra, Option.bind_some, hnode] at hn
      cases hn
    · rw [if_neg hra] at hn
      exact hn
  have hslots : ∀ b tb k i v, st.heap b = some tb → SlotWf full S st k tb.id b i v →
      SlotWf full S (st.put a t) k tb.id b i v := by
    intro b tb k i v hb hs
    constructor
    · intro c hc hp
      obtain ⟨tc, htc, hid⟩ := hs.token c hc hp
      exact ⟨tc, hkeep c tc htc, hid⟩
    · intro o ho
      obtain ⟨rows, hrows⟩ := hs.object o ho
      refine ⟨rows, hrows.transfer ?_ ?_ ?_⟩
      · intro r hr
        obtain ⟨tr, n, htr, hrest⟩ := hrows.isRow r hr
        have hk := hkeep r tr htr
        refine ⟨⟨tr, n, hk, hrest⟩, ?_⟩
        unfold DmStore.row
        simp only [DmStore.node_eq, hk, htr]
      · intro _ r n hn hnr
        exact ⟨n, hnodes r n hn, hnr⟩
      · intro _ c w _ hw'
        obtain ⟨tw, htw, hww⟩ := DmStore.slot_eq_some.mp hw'
        exact ⟨w, DmStore.slot_eq_some.mpr ⟨tw, hkeep b tw htw, hww⟩, rfl⟩
  refine ⟨?_, ?_⟩
  · intro b tb hb
    rw [DmStore.put_heap] at hb
    by_cases hba : b = a
    · rw [if_pos hba] at hb
      cases hb
      subst hba
      refine ⟨kw, hlt, hplace, hlen, hfits, fun i v c hv hc => (hptr i v c hv hc).1, ?_, ?_, ?_⟩
      · intro i v hv _
        constructor
        · intro c hc _
          obtain ⟨_, _, _, tc, htc, hid⟩ := hptr i v c hv hc
          exact ⟨tc, hkeep c tc htc, hid⟩
        · intro o ho
          obtain ⟨hl, hc0, hct⟩ := hobj i v o hv ho
          refine ⟨[], hl, fun r hr => absurd hr List.not_mem_nil, hct, fun hf => ⟨hc0, ?_, ?_⟩⟩
          · intro r n hn hnr
            exact absurd hnr (hroots r n i (hnodes r n hn))
          · intro c hc
            obtain ⟨w, hw, hwc⟩ := hcnt i c hc
            exact ⟨w, DmStore.slot_eq_some.mpr ⟨t, DmStore.put_heap_self st b t, hw⟩, hwc⟩
      · intro n hn
        rw [hnode] at hn
        cases hn
      · intro n hn
        rw [hnode] at hn
        cases hn
    · rw [if_neg hba] at hb
      obtain ⟨k, hw⟩ := h.table b tb hb
      refine ⟨k, hw.lt, hw.place, hw.len, hw.fits, hw.ptr, ?_, hw.node, ?_⟩
      · intro i v hv hx
        exact hslots b tb k i v hb (hw.slot i v hv hx)
      · intro n hn c j hr
        obtain ⟨hlt', hc⟩ := hw.home n hn c j hr
        refine ⟨hlt', ?_⟩
        intro tc htc
        rw [DmStore.put_heap, if_neg] at htc
        · exact hc tc htc
        · intro hca
          exact hroots b n j (DmStore.node_eq_some.mpr ⟨tb, hb, hn⟩) (hca ▸ hr)
  · have hcase : ∀ b i v, (st.put a t).slot b i = some v →
        (b = a ∧ t.values[i]? = some v) ∨ st.slot b i = some v := by
      intro b i v hv
      rw [DmStore.slot_eq, DmStore.put_heap] at hv
      by_cases hba : b = a
      · rw [if_pos hba, Option.bind_some] at hv
        exact .inl ⟨hba, hv⟩
      · rw [if_neg hba] at hv
        exact .inr hv
    intro b i v d c j w hv hvc hw hwc
    cases hcase b i v hv with
    | inl h1 =>
      cases hcase c j w hw with
      | inl h2 => exact ⟨h1.1.trans h2.1.symm, hdist i j v w d h1.2 h2.2 hvc hwc⟩
      | inr h2 => exact absurd hwc ((hptr i v d h1.2 hvc).2.2.1 c j w h2)
    | inr h1 =>
      cases hcase c j w hw with
      | inl h2 => exact absurd hvc ((hptr j w d h2.2 hwc).2.2.1 b i v h1)
      | inr h2 => exact h.inj b i v d c j w h1 hvc h2 hwc

/-! ## The loop over the elements -/

theorem counterOf_type {elems : List DmElement} {id c : ℕ} (h : counterOf elems id = some c) :
    ∃ e, elems[c]? = some e ∧ e.type = .counter := by
  have hp := List.find?_some h
  cases he : elems[c]? with
  | none =>
    rw [he] at hp
    cases hp
  | some e =>
    rw [he] at hp
    exact ⟨e, rfl, (by simpa using hp : _ ∧ _ ∧ _).1⟩

/-- A new object has no rows. -/
theorem allocInstance_lists {kw : ℕ} {e : DmElement} (he : e ∈ (S.table kw).elems)
    (ht : e.type = .object) (cntr : Option (Addr × ℕ)) (row : Addr → Row) :
    (allocInstance S e cntr).Lists row [] := by
  have hh := S.index_head kw e he ht
  cases hx : (S.table e.table).index with
  | nil =>
    rw [hx] at hh
    cases hh
  | cons x rest =>
    rw [hx] at hh
    cases hh
    refine ⟨Idx.empty, rest.map fun e => ⟨e, Idx.empty⟩, ?_, InstIdx.empty row⟩
    show ((S.table e.table).index.map fun e => (⟨e, Idx.empty⟩ : TreeIdx Addr)) = _
    rw [hx]
    rfl

/-- What a function that makes the table of a token has to do. -/
def AllocSpec (full : Prop) (X : Addr → ℕ → Prop) (S : Schema)
    (alloc : ℕ → Selector → DmStore → Option (Addr × DmStore)) : Prop :=
  ∀ kw id st b st', alloc kw id st = some (b, st') → TablesWf full X S st →
    S.place id = some (kw, false) → TablesWf full X S st' ∧ Grown st st' ∧ st.next ≤ b ∧ b < st'.next ∧
      NoPtr st' b ∧ ∃ t, st'.heap b = some t ∧ t.id = id

/-- What `dm_init_table` leaves in slot `i`; new tables are at `lo` or behind. -/
structure InitSlot (S : Schema) (st : DmStore) (kw a : ℕ) (id : Selector) (lo i : ℕ) (e : DmElement)
    (v : DmValue) : Prop where
  fits : Fits e v.content
  ptr : ∀ b, v.content = .table (some b) → lo ≤ b ∧ b < st.next ∧ NoPtr st b ∧
    ∃ t, st.heap b = some t ∧ t.id = id ++ [i + 1]
  obj : ∀ o, v.content = .inst (some o) →
    o = allocInstance S e ((counterOf (S.table kw).elems (i + 1)).map fun c => (a, c + 1))
  cnt : e.type = .counter → v.content = .scalar (.uint 0)
  parity : v.parity = true

theorem InitSlot.grown {st st' : DmStore} {kw a lo lo' i : ℕ} {id : Selector} {e : DmElement}
    {v : DmValue} (h : InitSlot S st kw a id lo i e v) (hg : Grown st st') (hlo : lo' ≤ lo) :
    InitSlot S st' kw a id lo' i e v := by
  refine ⟨h.fits, ?_, h.obj, h.cnt, h.parity⟩
  intro b hb
  obtain ⟨h1, h2, h3, t, ht, hid⟩ := h.ptr b hb
  exact ⟨le_trans hlo h1, lt_of_lt_of_le h2 hg.next, hg.noPtr h2 h3, t, by rw [hg.old b h2]; exact ht, hid⟩

theorem initContent_spec {alloc : ℕ → Selector → DmStore → Option (Addr × DmStore)}
    (halloc : AllocSpec full X S alloc) {kw a i : ℕ} {id : Selector} {e : DmElement} {st st' : DmStore}
    {c : Content} (h : initContent S alloc (S.table kw).elems a id e i st = some (c, st'))
    (hw : TablesWf full X S st) (hp : S.place id = some (kw, false))
    (he : (S.table kw).elems[i]? = some e) :
    TablesWf full X S st' ∧ Grown st st' ∧
      InitSlot S st' kw a id st.next i e ⟨c, notifyDefault e, Flags.zero, true⟩ := by
  have hsame : ∀ v, e.container = false → c = .scalar v → st' = st →
      (e.type = .counter → v = .uint 0) → TablesWf full X S st' ∧ Grown st st' ∧
      InitSlot S st' kw a id st.next i e ⟨c, notifyDefault e, Flags.zero, true⟩ := by
    intro v hc hv hst hcnt
    subst hv hst
    refine ⟨hw, Grown.refl _ hw.empty_above, hc, ?_, ?_, ?_, rfl⟩
    · intro b hb
      cases hb
    · intro o ho
      cases ho
    · intro ht
      rw [hcnt ht]
  by_cases ht : e.type = .token
  · simp only [initContent, ht, Option.bind_eq_bind, Option.bind_eq_some_iff, Prod.exists,
      Option.some.injEq, Prod.mk.injEq] at h
    obtain ⟨b, st1, hb, rfl, rfl⟩ := h
    obtain ⟨h1, h2, h3, h4, h5, t, htb, hid⟩ := halloc _ _ _ _ _ hb hw (place_token hp he ht)
    refine ⟨h1, h2, ht, ?_, ?_, ?_, rfl⟩
    · intro b' hb'
      cases hb'
      exact ⟨h3, h4, h5, t, htb, hid⟩
    · intro o ho
      cases ho
    · intro hcnt
      rw [ht] at hcnt
      cases hcnt
  · by_cases ho : e.type = .object
    · simp only [initContent, ho, Option.some.injEq, Prod.mk.injEq] at h
      obtain ⟨rfl, rfl⟩ := h
      refine ⟨hw, Grown.refl _ hw.empty_above, ⟨ho, rfl⟩, ?_, ?_, ?_, rfl⟩
      · intro b hb
        cases hb
      · intro o ho'
        cases ho'
        rfl
      · intro hcnt
        rw [ho] at hcnt
        cases hcnt
    · have hcont : e.container = false := by simp [DmElement.container, ht, ho]
      have hval : c = .scalar (zeroValue e.type) ∧ st' = st := by
        unfold initContent at h
        split at h
        · contradiction
        · contradiction
        · cases h
          exact ⟨rfl, rfl⟩
      refine hsame _ hcont hval.1 hval.2 ?_
      intro hcnt
      rw [hcnt]
      rfl

theorem initValues_spec {alloc : ℕ → Selector → DmStore → Option (Addr × DmStore)}
    (halloc : AllocSpec full X S alloc) {kw a : ℕ} {id : Selector} (hp : S.place id = some (kw, false))
    (es : List DmElement) (i : ℕ) (st : DmStore) (vs : List DmValue) (st' : DmStore)
    (h : initValues S alloc (S.table kw).elems a id es i st = some (vs, st'))
    (hw : TablesWf full X S st) (hes : (S.table kw).elems.drop i = es) :
    TablesWf full X S st' ∧ Grown st st' ∧ vs.length = es.length ∧
      (∀ (j : ℕ) (v : DmValue), vs[j]? = some v → ∃ e, (S.table kw).elems[i + j]? = some e ∧
        InitSlot S st' kw a id st.next (i + j) e v) ∧
      ∀ (j j' : ℕ) (v v' : DmValue) (b : Addr), vs[j]? = some v → vs[j']? = some v' →
        v.content = .table (some b) → v'.content = .table (some b) → j = j' := by
  induction es generalizing i st vs with
  | nil =>
    cases h
    exact ⟨hw, Grown.refl _ hw.empty_above, rfl, fun j v hv => by simp at hv,
      fun j j' v v' b hv => by simp at hv⟩
  | cons e es ih =>
    simp only [initValues, Option.bind_eq_bind, Option.bind_eq_some_iff, Prod.exists,
      Option.some.injEq, Prod.mk.injEq] at h
    obtain ⟨c, st1, hc, vs1, st2, hvs, rfl, rfl⟩ := h
    have he : (S.table kw).elems[i]? = some e := by
      rw [← List.head?_drop, hes]
      rfl
    have hrest : (S.table kw).elems.drop (i + 1) = es := by
      rw [← List.tail_drop, hes]
      rfl
    obtain ⟨hw1, hg1, hslot1⟩ := initContent_spec halloc hc hw hp he
    obtain ⟨hw2, hg2, hlen, hslots, hdist⟩ := ih (i + 1) st1 vs1 hvs hw1 hrest
    refine ⟨hw2, hg1.trans hg2, by rw [List.length_cons, List.length_cons, hlen], ?_, ?_⟩
    · intro j v hv
      cases j with
      | zero =>
        rw [List.getElem?_cons_zero] at hv
        cases hv
        exact ⟨e, he, hslot1.grown hg2 (le_refl _)⟩
      | succ j =>
        rw [List.getElem?_cons_succ] at hv
        obtain ⟨e', he', hs'⟩ := hslots j v hv
        have hij : i + 1 + j = i + (j + 1) := by omega
        rw [hij] at he' hs'
        exact ⟨e', he', hs'.grown (Grown.refl _ hw2.empty_above) hg1.next⟩
    · -- later tables are behind the first one
      have hfirst : ∀ (j : ℕ) (v v' : DmValue) (b : Addr),
          (⟨c, notifyDefault e, Flags.zero, true⟩ : DmValue) = v → vs1[j]? = some v' →
          v.content = .table (some b) → v'.content = .table (some b) → False := by
        intro j v v' b hv hv' hb hb'
        subst hv
        obtain ⟨_, hlt, _⟩ := hslot1.ptr b hb
        obtain ⟨e', _, hs'⟩ := hslots j v' hv'
        obtain ⟨hle, _⟩ := hs'.ptr b hb'
        exact absurd hlt (not_lt.mpr hle)
      intro j j' v v' b hv hv' hb hb'
      cases j with
      | zero =>
        rw [List.getElem?_cons_zero, Option.some.injEq] at hv
        cases j' with
        | zero => rfl
        | succ j' =>
          rw [List.getElem?_cons_succ] at hv'
          exact (hfirst j' v v' b hv hv' hb hb').elim
      | succ j =>
        rw [List.getElem?_cons_succ] at hv
        cases j' with
        | zero =>
          rw [List.getElem?_cons_zero, Option.some.injEq] at hv'
          exact (hfirst j v' v b hv' hv hb' hb).elim
        | succ j' =>
          rw [List.getElem?_cons_succ] at hv'
          rw [hdist j j' v v' b hv hv' hb hb']

/-! ## `dm_alloc_table` -/

theorem allocTable_spec (n : ℕ) : AllocSpec full X S (allocTable S n) := by
  induction n with
  | zero =>
    intro kw id st b st' h
    cases h
  | succ n ih =>
    intro kw id st b st' h hw hp
    simp only [allocTable, Option.bind_eq_bind, Option.bind_eq_some_iff, Prod.exists,
      Option.some.injEq, Prod.mk.injEq] at h
    obtain ⟨vs, st1, hvs, rfl, rfl⟩ := h
    have hw0 := hw.skip (st.next + 1) (Nat.le_succ _) st.root
    obtain ⟨hw1, hg1, hlen, hslots, hdist⟩ := initValues_spec ih hp _ 0 _ vs st1 hvs hw0 rfl
    have hnext : st.next + 1 ≤ st1.next := hg1.next
    have hlt : st.next < st1.next := hnext
    have hold : ∀ c, c < st.next → st1.heap c = st.heap c := fun c hc =>
      hg1.old c (Nat.lt_succ_of_lt hc)
    have hfree : st1.heap st.next = none := by
      rw [hg1.old st.next (Nat.lt_succ_self _)]
      exact hw.empty_above st.next (le_refl _)
    -- the slots of the new table point behind it
    have hbehind : ∀ (i : ℕ) (v : DmValue) (c : Addr), vs[i]? = some v → v.content = .table (some c) →
        st.next + 1 ≤ c ∧ c < st1.next ∧ NoPtr st1 c ∧
          ∃ t, st1.heap c = some t ∧ t.id = id ++ [i + 1] := by
      intro i v c hv hc
      obtain ⟨e, he, hs⟩ := hslots i v hv
      rw [Nat.zero_add] at hs
      exact hs.ptr c hc
    have hnoptr : NoPtr st1 st.next := hg1.noPtr (Nat.lt_succ_self _) (by
      intro a i v hv hc
      exact hw.noPtr st.next (le_refl _) a i v hv hc)
    have hadd : TablesWf full X S (st1.put st.next ⟨id, vs, none⟩) := by
      refine hw1.add hfree hlt rfl hp hlen ?_ ?_ ?_ (fun i j v w c hv hw hb hb' =>
        hdist i j v w c hv hw hb hb') ?_ ?_
      · intro r m j hm hr
        obtain ⟨t, ht, hmt⟩ := DmStore.node_eq_some.mp hm
        by_cases hrlt : r < st.next
        · rw [hold r hrlt] at ht
          obtain ⟨k, hk⟩ := hw.table r t ht
          exact absurd (hk.home m hmt st.next j hr).1 (lt_irrefl _)
        · have hrne : r ≠ st.next := by
            intro he
            rw [he, hfree] at ht
            cases ht
          have hge : st.next + 1 ≤ r := Nat.lt_of_le_of_ne (not_lt.mp hrlt) (Ne.symm hrne)
          rw [hg1.node r t hge ht] at hmt
          cases hmt
      · intro i v hv
        obtain ⟨e, he, hs⟩ := hslots i v hv
        rw [Nat.zero_add] at he hs
        exact ⟨e, he, hs.fits⟩
      · intro i v c hv hc
        obtain ⟨h1, h2, h3, h4⟩ := hbehind i v c hv hc
        exact ⟨h2, Nat.ne_of_gt h1, h3, h4⟩
      · intro i v o hv ho
        obtain ⟨e, he, hs⟩ := hslots i v hv
        rw [Nat.zero_add] at he hs
        have hfit := hs.fits
        rw [ho] at hfit
        rw [hs.obj o ho]
        exact ⟨allocInstance_lists (List.mem_of_getElem? he) hfit.1 _ _, rfl, rfl⟩
      · intro i c hc
        obtain ⟨e, he, het⟩ := counterOf_type hc
        have hclt : c < vs.length := by
          rw [hlen]
          exact (List.getElem?_eq_some_iff.mp he).1
        obtain ⟨e', he', hs⟩ := hslots c vs[c] (List.getElem?_eq_getElem hclt)
        rw [Nat.zero_add, he] at he'
        cases he'
        exact ⟨vs[c], List.getElem?_eq_getElem hclt, hs.cnt het⟩
    have hne : ∀ c, c ≠ st.next → (st1.put st.next ⟨id, vs, none⟩).heap c = st1.heap c := by
      intro c hc
      rw [DmStore.put_heap, if_neg hc]
    refine ⟨hadd, ⟨hg1.root, le_of_lt hlt, ?_, ?_, ?_⟩, le_refl _, hlt, ?_, ⟨id, vs, none⟩,
      DmStore.put_heap_self _ _ _, rfl⟩
    · intro c hc
      rw [hne c (Nat.ne_of_lt hc), hold c hc]
    · intro c t hc ht
      by_cases hce : c = st.next
      · rw [hce, DmStore.put_heap_self] at ht
        cases ht
        rfl
      · rw [hne c hce] at ht
        exact hg1.node c t (Nat.lt_of_le_of_ne hc (Ne.symm hce)) ht
    · intro c j v d hc hv hd
      by_cases hce : c = st.next
      · rw [hce, DmStore.slot_eq, DmStore.put_heap_self, Option.bind_some] at hv
        exact le_trans (Nat.le_succ _) (hbehind j v d hv hd).1
      · rw [DmStore.slot_eq, hne c hce] at hv
        exact le_trans (Nat.le_succ _)
          (hg1.ptr c j v d (Nat.lt_of_le_of_ne hc (Ne.symm hce)) hv hd)
    · intro c j v hv hd
      by_cases hce : c = st.next
      · rw [hce, DmStore.slot_eq, DmStore.put_heap_self, Option.bind_some] at hv
        exact absurd (hbehind j v st.next hv hd).1 (Nat.not_succ_le_self _)
      · rw [DmStore.slot_eq, hne c hce] at hv
        exact hnoptr c j v hv hd

end Mand.Store
