import Mand.Load.Deserialize
import Mand.Store.Grow

/-! # The values of states

What `value` of a state points to is of the kind of its element. Entering an element finds or makes such a value, and
what is written to one leaves the kinds of the store as they are. -/
namespace Mand.Load
open Mand.Store Mand.Index Mand.Rpc Mand.Notify
set_option autoImplicit false

/-- A value for the element: of a container it is the table of one. -/
def HoldsAt (S : Schema) (kind : Addr → ℕ) (st : DmStore) (e : DmElement) : Loc → Prop
  | .slot a i => (S.table (kind a)).elems[i]? = some e ∧ ∃ v, st.slot a i = some v ∧
      (e.container = true → ∃ b, v.content = .table (some b) ∧ (∃ t, st.heap b = some t) ∧ kind b = e.table)
  | .row r => e.container = true ∧ RowOf kind st e.table r

section Values
variable {S : Schema} {kind kind' : Addr → ℕ} {st st' : DmStore} {e : DmElement} {l : Loc}

theorem HoldsAt.frame (h : HoldsAt S kind st e l) (hf : Frame kind kind' st st') : HoldsAt S kind' st' e l := by
  cases l with
  | slot a i =>
    obtain ⟨he, v, hv, hc⟩ := h
    obtain ⟨ta, hta, -⟩ := DmStore.slot_eq_some.mp hv
    obtain ⟨v', hv', hsame⟩ := hf.slot a i v hv
    refine ⟨by rw [(hf.live a ta hta).2]; exact he, v', hv', fun hcont => ?_⟩
    obtain ⟨b, hb, ⟨t, ht⟩, hk⟩ := hc hcont
    obtain ⟨hlive, hk'⟩ := hf.live b t ht
    exact ⟨b, (hsame b hb).trans hb, hlive, hk'.trans hk⟩
  | row r => exact ⟨h.1, h.2.frame hf⟩

/-- The value of a container is a table of its kind. -/
theorem HoldsAt.table {v : DmValue} (h : HoldsAt S kind st e l) (he : e.container = true) (hv : st.value l = some v) :
    ∃ b, v.content = .table (some b) ∧ (∃ t, st.heap b = some t) ∧ kind b = e.table := by
  cases l with
  | slot a i =>
    obtain ⟨-, w, hw, hc⟩ := h
    have hv : st.slot a i = some v := hv
    rw [hw] at hv
    cases hv
    exact hc he
  | row r =>
    obtain ⟨n, hn, hc, hk⟩ := h.2
    obtain ⟨m, hm, rfl⟩ := Option.map_eq_some_iff.mp hv
    rw [hn] at hm
    cases hm
    exact ⟨r, hc, h.2.heap, hk⟩

/-- Contents that are as before, or another value of a leaf. -/
def SameKind (c c' : Content) : Prop := c' = c ∨ ∃ x y, c = .scalar x ∧ c' = .scalar y

theorem putLeaf_kind (c : Content) (x : Value) : SameKind c (putLeaf c x) := by
  cases c with
  | scalar y => exact .inr ⟨y, x, rfl, rfl⟩
  | table t => exact .inl rfl
  | inst t => exact .inl rfl

/-- The parity may be set where it is known what the value points to. -/
theorem slotShape_write {v v' : DmValue} (h : SlotShape kind st e v) (hc : SameKind v.content v'.content)
    (hptr : ∀ b, v.content = .table (some b) → (∃ t, st.heap b = some t) ∧ kind b = e.table) : SlotShape kind st e v' := by
  rcases hc with hc | hscalar
  · exact ⟨by rw [hc]; exact h.fits, fun b hb _ => hptr b (hc ▸ hb), fun o ho => h.obj o (hc ▸ ho)⟩
  · exact h.like (.inr hscalar)

theorem setValue_shape {v v' : DmValue} (hs : Shaped S kind st) (hh : HoldsAt S kind st e l) (hv : st.value l = some v)
    (hc : SameKind v.content v'.content) (h : st.setValue l v' = some st') : Shaped S kind st' ∧ Frame kind kind st st' := by
  cases l with
  | slot a i =>
    obtain ⟨he, w, hw, hcont⟩ := hh
    have hv : st.slot a i = some v := hv
    rw [hw] at hv
    cases hv
    refine hs.setSlot h hw (fun b hb => ?_) (.inr fun e' he' hshape => slotShape_write hshape hc fun b hb => ?_)
    · rcases hc with hc | ⟨x, y, hx, -⟩
      · exact hc
      · rw [hx] at hb
        cases hb
    · rw [he] at he'
      cases he'
      have hfits := hshape.fits
      rw [hb] at hfits
      have htok : e.type = .token := hfits
      obtain ⟨b', hb', hlive, hk⟩ := hcont (by simp [DmElement.container, htok])
      rw [hb] at hb'
      cases hb'
      exact ⟨hlive, hk⟩
  | row r =>
    obtain ⟨n, hn, hcn, -⟩ := hh.2
    obtain ⟨m, hm, hset⟩ := Option.bind_eq_some_iff.mp h
    obtain ⟨m', hm', rfl⟩ := Option.map_eq_some_iff.mp hv
    rw [hn] at hm hm'
    cases hm
    cases hm'
    have hsame : v'.content = n.value.content := by
      rcases hc with hc | ⟨x, y, hx, -⟩
      · exact hc
      · rw [hcn] at hx
        cases hx
    refine hs.setNode hset (fun n0 hn0 => ?_) (.inl ⟨n, hn, rfl⟩)
    rw [hn] at hn0
    cases hn0
    exact ⟨rfl, hsame⟩

theorem setNotify_content (e : DmElement) (slot ntfy : ℕ) (v : DmValue) :
    (setNotifySingleSlotElement e slot ntfy v).2.content = v.content := by
  unfold setNotifySingleSlotElement
  dsimp only
  split
  · split <;> rfl
  · rfl

theorem setNotifyAttribute_shape {ntfy : ℤ} (hs : Shaped S kind st) (hh : HoldsAt S kind st e l)
    (h : setNotifyAttribute e l ntfy st = some st') : Shaped S kind st' ∧ Frame kind kind st st' := by
  unfold setNotifyAttribute at h
  split at h
  · obtain ⟨v, hv, hset⟩ := Option.bind_eq_some_iff.mp h
    exact setValue_shape hs hh hv (.inl (setNotify_content e 0 ntfy.toNat v)) hset
  · cases h
    exact ⟨hs, Frame.refl kind st⟩

end Values

/-! ## Entering an element -/

section Enter
variable {E : LoadEnv} {kind : Addr → ℕ} {st st' : DmStore} {kw : DmElement} {b i : ℕ} {xid : ℤ}

theorem markRow_shape {r : Addr} (hs : Shaped E.schema kind st) (he : (E.schema.table (kind b)).elems[i]? = some kw)
    (hobj : kw.type = .object) (h : markRow st b i r = some st') : Shaped E.schema kind st' ∧ Frame kind kind st st' := by
  simp only [markRow, Option.bind_eq_bind, Option.bind_eq_some_iff] at h
  obtain ⟨v, hv, st1, h1, n, hn, h2⟩ := h
  have hno : ∀ c, v.content ≠ .table (some c) := by
    obtain ⟨e, he', hshape⟩ := hs.slot b i v hv
    rw [he] at he'
    cases he'
    intro c hc
    have hfits := hshape.fits
    rw [hc] at hfits
    have htok : kw.type = .token := hfits
    rw [hobj] at htok
    cases htok
  obtain ⟨hs1, hf1⟩ := hs.setSlot h1 hv (fun c hc => absurd hc (hno c))
    (.inr fun e _ hshape => slotShape_write hshape (.inl rfl) fun c hc => absurd hc (hno c))
  obtain ⟨hs2, hf2⟩ := hs1.setNode h2 (fun m hm => by rw [hn] at hm; cases hm; exact ⟨rfl, rfl⟩) (.inl ⟨n, hn, rfl⟩)
  exact ⟨hs2, hf1.trans hf2⟩

theorem enterObject_shape {r : Addr} (hs : Shaped E.schema kind st) (he : (E.schema.table (kind b)).elems[i]? = some kw)
    (hobj : kw.type = .object) (h : enterObject E kw b i xid st = some (r, st')) :
    ∃ kind', Shaped E.schema kind' st' ∧ Frame kind kind' st st' ∧ RowOf kind' st' kw.table r := by
  simp only [enterObject, Option.bind_eq_bind, Option.bind_eq_some_iff] at h
  obtain ⟨x, htree, found, hfound, h⟩ := h
  obtain ⟨o, e, rfl, he', -, -⟩ := hs.tree htree
  rw [he] at he'
  cases he'
  cases found with
  | some r' =>
    cases h
    unfold namedRow at hfound
    split at hfound
    · exact ⟨kind, hs, Frame.refl kind st, hs.find htree he hfound⟩
    · cases hfound
  | none =>
    simp only [Option.bind_eq_some_iff, Prod.exists] at h
    obtain ⟨tb, htb, res, st1, hadd, r', rfl, h⟩ := h
    obtain ⟨kind1, hs1, hf1, hrow⟩ := addInstance_shape hs htree he hadd
    split at h
    · obtain ⟨st2, hmark, hr⟩ := Option.map_eq_some_iff.mp h
      cases hr
      have he1 : (E.schema.table (kind1 b)).elems[i]? = some kw := by
        rw [(hf1.live b tb htb).2]
        exact he
      obtain ⟨hs2, hf2⟩ := markRow_shape hs1 he1 hobj hmark
      exact ⟨kind1, hs2, hf1.trans hf2, hrow.frame hf2⟩
    · cases h
      exact ⟨kind1, hs1, hf1, hrow⟩

theorem enterToken_shape {v : DmValue} (hs : Shaped E.schema kind st) (he : (E.schema.table (kind b)).elems[i]? = some kw)
    (htok : kw.type = .token) (hv : st.slot b i = some v) (hpar : v.parity = true) (h : enterToken E kw b i st = some st') :
    ∃ kind', Shaped E.schema kind' st' ∧ Frame kind kind' st st' ∧ HoldsAt E.schema kind' st' kw (.slot b i) := by
  simp only [enterToken, hv, Option.bind_eq_bind, Option.bind_some] at h
  split at h
  · next hnone =>
    simp only [Option.bind_eq_some_iff, Prod.exists] at h
    obtain ⟨tb, htb, c, st1, halloc, hset⟩ := h
    obtain ⟨kind1, hg, hs1, ⟨t, ht⟩, -, hk⟩ := allocTable_shape _ _ _ _ _ _ _ halloc hs
    have hf1 := hg.frame hs
    have hv1 : st1.slot b i = some v := by
      rw [DmStore.slot_eq, hg.old b (hs.lt b tb htb)]
      exact hv
    have he1 : (E.schema.table (kind1 b)).elems[i]? = some kw := by
      rw [(hf1.live b tb htb).2]
      exact he
    obtain ⟨hs2, hf2⟩ := hs1.setSlot hset hv1 (fun d hd => by rw [hnone] at hd; cases hd) (.inr fun e he' _ => by
      rw [he1] at he'
      cases he'
      refine ⟨htok, fun d hd _ => ?_, fun o ho => (nomatch ho)⟩
      cases hd
      exact ⟨⟨t, ht⟩, hk⟩)
    have hslot := (@DmStore.slot_setSlot st1 b b i i _ st' hset).trans (if_pos ⟨rfl, rfl⟩)
    exact ⟨kind1, hs2, hf1.trans hf2, he1, _, hslot, fun _ => ⟨c, rfl, (hf2.live c t ht).1, hk⟩⟩
  · next c hsome =>
    cases h
    obtain ⟨e, he', hshape⟩ := hs.slot b i v hv
    rw [he] at he'
    cases he'
    obtain ⟨hlive, hk⟩ := hshape.ptr c hsome hpar
    exact ⟨kind, hs, Frame.refl kind st, he, v, hv, fun _ => ⟨c, hsome, hlive, hk⟩⟩
  · cases h

/-- An element that is entered has a value for it. -/
theorem enterElement_shape {v : DmValue} {x : Loc × Option (Addr × ℕ) × Option Addr} (hs : Shaped E.schema kind st)
    (he : (E.schema.table (kind b)).elems[i]? = some kw) (hv : st.slot b i = some v) (hpar : v.parity = true)
    (h : enterElement E kw b i xid st = some (x, st')) :
    ∃ kind', Shaped E.schema kind' st' ∧ Frame kind kind' st st' ∧ HoldsAt E.schema kind' st' kw x.1 := by
  unfold enterElement at h
  split at h
  · next hobj =>
    obtain ⟨⟨r, st1⟩, hobject, hx⟩ := Option.map_eq_some_iff.mp h
    cases hx
    obtain ⟨kind1, hs1, hf1, hrow⟩ := enterObject_shape hs he hobj hobject
    exact ⟨kind1, hs1, hf1, by simp [DmElement.container, hobj], hrow⟩
  · next htok =>
    obtain ⟨st1, htoken, hx⟩ := Option.map_eq_some_iff.mp h
    cases hx
    exact enterToken_shape hs he htok hv hpar htoken
  · next hobj htok =>
    cases h
    refine ⟨kind, hs, Frame.refl kind st, he, v, hv, fun hcont => ?_⟩
    simp [DmElement.container] at hcont
    rcases hcont with hc | hc
    · exact absurd hc htok
    · exact absurd hc hobj

end Enter
end Mand.Load
