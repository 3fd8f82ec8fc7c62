import Mand.Store.Delete

/-! # Leaves in well-formed stores

A leaf that is written, by a setter or without one, leaves every table and row where it was. -/
namespace Mand.Store
open Mand.Index
set_option autoImplicit false

variable {full : Prop} {S : Schema} {st st' st'' : DmStore} {a i : ℕ} {e : DmElement}

/-- The store stays well-formed and everything in it can still be found. -/
structure Kept (full : Prop) (S : Schema) (st st' : DmStore) : Prop where
  wf : HeapWf full nowhere S st'
  keeps : Keeps (fun _ => True) st st'

theorem Kept.refl (hw : HeapWf full nowhere S st) : Kept full S st st := ⟨hw, Keeps.refl _ hw.lt⟩

theorem Kept.trans (h : Kept full S st st') (h' : Kept full S st' st'') : Kept full S st st'' :=
  ⟨h'.wf, h.keeps.trans h'.keeps⟩

/-- Slot `i` of table `a` is that of leaf `e`. -/
def LeafAt (S : Schema) (st : DmStore) (a i : ℕ) (e : DmElement) : Prop :=
  ∃ t kw, st.heap a = some t ∧ S.place t.id = some (kw, false) ∧ (S.table kw).elems[i]? = some e ∧
    e.container = false

theorem LeafAt.keeps (h : LeafAt S st a i e) (hk : Keeps (fun _ => True) st st') : LeafAt S st' a i e := by
  obtain ⟨t, kw, ht, hp, he, hleaf⟩ := h
  obtain ⟨t', ht'⟩ := hk.table a t ht trivial
  exact ⟨t', kw, ht', by rw [hk.ids a t t' ht ht']; exact hp, he, hleaf⟩

theorem LeafAt.scalar (h : LeafAt S st a i e) (hw : HeapWf full nowhere S st) {v : DmValue}
    (hv : st.slot a i = some v) : ∃ x, v.content = .scalar x := by
  obtain ⟨t, kw, ht, hp, he, hleaf⟩ := h
  obtain ⟨t0, ht0, hvt⟩ := DmStore.slot_eq_some.mp hv
  rw [ht] at ht0
  cases ht0
  obtain ⟨k, hk⟩ := hw.table a t ht
  have hkp := hk.place
  rw [hp] at hkp
  cases hkp
  obtain ⟨e', he', hfit⟩ := hk.fits i v hvt
  rw [he] at he'
  cases he'
  simp only [DmElement.container, decide_eq_false_iff_not, not_or] at hleaf
  exact fits_leaf hfit hleaf.1 hleaf.2

/-- A leaf that is no counter gets a value. -/
theorem Kept.setLeaf {v' : DmValue} {y : Value} (hw : HeapWf full nowhere S st) (hl : LeafAt S st a i e)
    (hcnt : full → e.type ≠ .counter) (h : st.setSlot a i v' = some st') (hv' : v'.content = .scalar y)
    (hpar : ∀ v, st.slot a i = some v → v.parity = true → v'.parity = true) : Kept full S st st' := by
  obtain ⟨t0, ht0, hi, -⟩ := DmStore.setSlot_eq_some.mp h
  have hv : st.slot a i = some (t0.values[i]) :=
    DmStore.slot_eq_some.mpr ⟨t0, ht0, List.getElem?_eq_getElem hi⟩
  generalize t0.values[i] = v at hv
  obtain ⟨x, hx⟩ := hl.scalar hw hv
  obtain ⟨t, kw, ht, hp, he, -⟩ := hl
  obtain ⟨t1, ht1, hvt⟩ := DmStore.slot_eq_some.mp hv
  constructor
  · refine hw.setSlot (fun _ _ hh => hh) h hv ?_ ?_ (.inl (.inr ⟨x, y, hx, hv'⟩)) ?_
    · intro e' hf
      rw [hx] at hf
      rw [hv']
      exact hf
    · intro b hb
      rw [hv'] at hb
      cases hb
    · intro hf
      refine .inr ?_
      intro t2 kw2 j ht2 hp2 hc
      rw [ht] at ht2
      cases ht2
      rw [hp] at hp2
      cases hp2
      obtain ⟨e', he', hty⟩ := counterOf_type hc
      rw [he] at he'
      cases he'
      exact absurd hty (hcnt hf)
  · refine Keeps.setSlot hw.lt h ht1 hvt ?_
    intro _ hp
    refine ⟨hpar v hv hp, ?_⟩
    rw [hx, hv']
    trivial

/-! ## Setters -/

theorem setById_kept {u : DmElement} {id : ℕ} {v : Value} (hw : HeapWf full nowhere S st)
    (hl : LeafAt S st a (id - 1) u) (hcnt : full → u.type ≠ .counter) (h : setById st a id v = some st') :
    Kept full S st st' := by
  simp only [setById, Option.bind_eq_bind, Option.bind_eq_some_iff] at h
  obtain ⟨old, -, u, -, h⟩ := h
  exact Kept.setLeaf hw hl hcnt h rfl fun _ _ _ => rfl

/-- The field that a setter updates. -/
theorem LeafAt.updated (hl : LeafAt S st a i e) (update : ℕ) (type : DmType) (htok : type ≠ .token)
    (hobj : type ≠ .object) (hfit : ∀ kw, e ∈ (S.table kw).elems →
      ((S.table kw).elems[update - 1]?.any fun u => decide (u.type = type)) = true) :
    ∃ u, LeafAt S st a (update - 1) u ∧ u.type = type := by
  obtain ⟨t, kw, ht, hp, he, -⟩ := hl
  have h1 := hfit kw (List.mem_of_getElem? he)
  cases hu : (S.table kw).elems[update - 1]? with
  | none =>
    rw [hu] at h1
    cases h1
  | some u =>
    rw [hu] at h1
    have h2 : u.type = type := by simpa using h1
    refine ⟨u, ⟨t, kw, ht, hp, hu, ?_⟩, h2⟩
    simp [DmElement.container, h2, htok, hobj]

theorem updateAddressNetmask_kept {undef read update : ℕ} (hw : HeapWf full nowhere S st)
    (hl : LeafAt S st a i e) (hset : e.set = some (.addressPrefixlength read update))
    (h : updateAddressNetmask undef st a read update = some st') : Kept full S st st' := by
  obtain ⟨u, hu, huty⟩ := hl.updated update .str (by decide) (by decide) (by
    intro kw he
    have h1 := S.set_fits kw e he
    rw [DmElement.setFits, hset] at h1
    exact h1)
  simp only [updateAddressNetmask, Option.bind_eq_bind, Option.bind_eq_some_iff] at h
  obtain ⟨v, -, x, -, h⟩ := h
  split at h
  · exact setById_kept hw hu (fun _ hc => by rw [huty] at hc; cases hc) h
  · cases h

theorem updateAddressPrefixlength_kept {undef update : ℕ} {text : Option (List ℕ)}
    (hw : HeapWf full nowhere S st) (hl : LeafAt S st a i e) (hset : e.set = some (.addressNetmask update))
    (h : updateAddressPrefixlength undef st a text update = some st') : Kept full S st st' := by
  obtain ⟨u, hu, huty⟩ := hl.updated update .uint (by decide) (by decide) (by
    intro kw he
    have h1 := S.set_fits kw e he
    rw [DmElement.setFits, hset] at h1
    exact h1)
  simp only [updateAddressPrefixlength, Option.bind_eq_bind, Option.bind_eq_some_iff] at h
  obtain ⟨text, -, h⟩ := h
  exact setById_kept hw hu (fun _ hc => by rw [huty] at hc; cases hc) h

/-- The setter of a leaf, or none. -/
theorem assign_kept {undef : ℕ} {val : DmValue} {x : Value} {r : DmResult} (hw : HeapWf full nowhere S st)
    (hl : LeafAt S st a i e) (hcnt : full → e.type ≠ .counter) (hval : val.content = .scalar x)
    (hpar : val.parity = true) (h : assign undef st e a (.slot a i) val = some (r, st')) :
    Kept full S st st' := by
  unfold assign at h
  split at h
  · rename_i hook hset
    cases hook with
    | clockCurrentdatetime =>
      simp only [SetHook.run, Option.bind_eq_bind, Option.bind_eq_some_iff, Option.some.injEq,
        Prod.mk.injEq] at h
      obtain ⟨st1, h1, -, rfl⟩ := h
      exact Kept.setLeaf hw hl hcnt h1 hval fun _ _ _ => hpar
    | addressPrefixlength read update =>
      simp only [SetHook.run, Option.bind_eq_bind, Option.bind_eq_some_iff, Option.some.injEq,
        Prod.mk.injEq] at h
      obtain ⟨st1, h1, st2, h2, -, rfl⟩ := h
      have hk1 : Kept full S st st1 := Kept.setLeaf hw hl hcnt h1 hval fun _ _ _ => hpar
      exact hk1.trans (updateAddressNetmask_kept hk1.wf (hl.keeps hk1.keeps) hset h2)
    | addressNetmask update =>
      simp only [SetHook.run] at h
      split at h
      · simp only [Option.bind_eq_bind, Option.bind_eq_some_iff, Option.some.injEq, Prod.mk.injEq] at h
        obtain ⟨old, hold, u, hp, st1, h1, st2, h2, -, rfl⟩ := h
        have hk1 : Kept full S st st1 :=
          Kept.setLeaf hw hl hcnt h1 rfl fun _ _ _ => (parityAssert_eq old u).mp hp
        exact hk1.trans (updateAddressPrefixlength_kept hk1.wf (hl.keeps hk1.keeps) hset h2)
      · cases h
        exact Kept.refl hw
  · simp only [Option.bind_eq_bind, Option.bind_eq_some_iff, Option.some.injEq, Prod.mk.injEq] at h
    obtain ⟨old, hold, st1, h1, -, rfl⟩ := h
    refine Kept.setLeaf hw hl hcnt h1 hval ?_
    intro v hv hp
    have hold : st.slot a i = some old := hold
    rw [hv] at hold
    cases hold
    exact hp

theorem updateIndex_kept {id : ℕ} (hw : HeapWf full nowhere S st) (h : updateIndex st id a = some st') :
    Kept full S st st' := by
  obtain ⟨hw', hk⟩ := updateIndex_spec hw (fun _ _ _ _ _ hx => hx) h
  exact ⟨hw', hk⟩

theorem reindex_kept {id : ℕ} (hw : HeapWf full nowhere S st) (h : reindex st e id a = some st') :
    Kept full S st st' := by
  unfold reindex at h
  split at h
  · exact updateIndex_kept hw h
  · cases h
    exact Kept.refl hw

theorem markUpdated_kept {v : DmValue} (hw : HeapWf full nowhere S st) (hl : LeafAt S st a i e)
    (hcnt : full → e.type ≠ .counter) (hv : st.slot a i = some v)
    (h : st.setSlot a i (markUpdated v) = some st') : Kept full S st st' := by
  obtain ⟨y, hy⟩ := hl.scalar hw hv
  exact Kept.setLeaf hw hl hcnt h hy fun _ _ _ => rfl

/-- The reference is to the slot of its leaf. -/
theorem getElementRef_leaf {sel : Selector} {ref : Ref} (hw : HeapWf full nowhere S st)
    (h : st.getElementRef S sel = some (some ref)) (hleaf : ref.elem.container = false) :
    ∃ a i, ref.base = .table a ∧ ref.value = .slot a i ∧ LeafAt S st a i ref.elem := by
  have hat := getElementRef_path hw h
  generalize S.path sel = q at hat
  cases hat with
  | slot a i t kw e stType ht hp he => exact ⟨a, i, rfl, rfl, t, kw, ht, hp, he, hleaf⟩
  | row a i t kw e r id tr ht hp he hobj htr hid hrow hmem =>
    have hc : e.container = true := by simp [DmElement.container, hobj]
    have hleaf : e.container = false := hleaf
    rw [hc] at hleaf
    cases hleaf

/-- `dm_overwrite_any_value_by_selector`. -/
theorem overwriteValue_kept {undef : ℕ} {sel : Selector} {val : DmValue} {x : Value} {r : DmResult}
    (hw : HeapWf full nowhere S st)
    (hleaf : ∀ ref, st.getElementRef S sel = some (some ref) →
      ref.elem.container = false ∧ (full → ref.elem.type ≠ .counter))
    (hval : val.content = .scalar x) (hpar : val.parity = true)
    (h : overwriteValue undef S st sel val = some (r, st')) : Kept full S st st' := by
  unfold overwriteValue at h
  simp only [Option.bind_eq_bind, Option.bind_eq_some_iff] at h
  obtain ⟨found, href, h⟩ := h
  cases found with
  | none =>
    cases h
    exact Kept.refl hw
  | some ref =>
    obtain ⟨hl, hcnt⟩ := hleaf ref href
    obtain ⟨a, i, hbase, hvalue, hla⟩ := getElementRef_leaf hw href hl
    dsimp only at h
    rw [hbase] at h
    simp only [hvalue, Option.bind_eq_some_iff, Prod.exists] at h
    obtain ⟨old, hold, u, hp, r1, st1, h1, v1, hv1, st2, h2, h⟩ := h
    have hk1 : Kept full S st st1 := assign_kept hw hla hcnt hval hpar h1
    have hl1 := hla.keeps hk1.keeps
    obtain ⟨y, hy⟩ := hl1.scalar hk1.wf hv1
    have hk2 : Kept full S st1 st2 := Kept.setLeaf hk1.wf hl1 hcnt h2 hy fun _ _ _ => rfl
    have hl2 := hl1.keeps hk2.keeps
    split at h
    · simp only [Option.bind_eq_some_iff, Option.some.injEq, Prod.mk.injEq] at h
      obtain ⟨v2, hv2, st3, h3, st4, h4, -, rfl⟩ := h
      have hk3 : Kept full S st2 st3 := markUpdated_kept hk2.wf hl2 hcnt hv2 h3
      exact (hk1.trans hk2).trans (hk3.trans (reindex_kept hk3.wf h4))
    · cases h
      exact hk1.trans hk2

end Mand.Store
