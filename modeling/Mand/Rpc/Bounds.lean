import Mand.Lib.Run
import Mand.Rpc.Skel

/-! # Reads stay inside their group

What `dm_expect_avp` does to a group whatever its bytes are, and what follows for the readers that are built
from it. -/
namespace Mand.Rpc
open Mand.Bytes Mand.Msg Mand.Store Mand.Notify
set_option autoImplicit false

variable {α β : Type} {grp grp' : Dm2AvpGrp}

/-! ## Groups -/

/-- The read position is in the group, and the size is one that a packet can have. -/
structure Valid (grp : Dm2AvpGrp) : Prop where
  pos_le : grp.pos ≤ grp.size
  size_lt : grp.size < 2 ^ 24

/-- The memory does not end right behind the group. -/
def Roomy (grp : Dm2AvpGrp) : Prop := grp.size + 8 ≤ grp.data.length

/-- The same group, read further. -/
structure Onward (grp grp' : Dm2AvpGrp) : Prop where
  data_eq : grp'.data = grp.data
  size_eq : grp'.size = grp.size
  pos_le : grp.pos ≤ grp'.pos
  le_size : grp'.pos ≤ grp.size

theorem Onward.refl (hv : Valid grp) : Onward grp grp := ⟨rfl, rfl, le_rfl, hv.pos_le⟩

theorem Onward.trans {g1 g2 g3 : Dm2AvpGrp} (h12 : Onward g1 g2) (h23 : Onward g2 g3) : Onward g1 g3 :=
  ⟨h23.data_eq.trans h12.data_eq, h23.size_eq.trans h12.size_eq, h12.pos_le.trans h23.pos_le,
    h12.size_eq ▸ h23.le_size⟩

theorem Onward.valid (h : Onward grp grp') (hv : Valid grp) : Valid grp' :=
  ⟨h.size_eq ▸ h.le_size, h.size_eq ▸ hv.size_lt⟩

theorem Onward.roomy (h : Onward grp grp') (hr : Roomy grp) : Roomy grp' := by
  unfold Roomy
  rw [h.data_eq, h.size_eq]
  exact hr

/-! ## One AVP -/

theorem eight_le_pad32 {n : ℕ} (h : 8 ≤ n) : 8 ≤ pad32 n := h.trans (le_pad32 n)

/-- An AVP lies behind the old position and in front of the new one. -/
structure Slice (grp grp' : Dm2AvpGrp) (avp : AvpRef) : Prop where
  onward : Onward grp grp'
  behind : grp.pos + 8 ≤ avp.off
  before : avp.off + avp.len ≤ grp'.pos

theorem dmExpectAvp_error {rc : Rc} (h : dmExpectAvp grp = some (.error rc, grp')) : grp' = grp ∧ rc ≠ .ok := by
  unfold dmExpectAvp at h
  split at h
  · cases h
    exact ⟨rfl, by decide⟩
  · simp only [Option.bind_eq_bind, Option.bind_eq_some_iff] at h
    obtain ⟨avpLen, -, flags, -, h⟩ := h
    split at h
    · cases h
      exact ⟨rfl, by decide⟩
    · obtain ⟨code, -, h⟩ := Option.bind_eq_some_iff.mp h
      split at h
      · obtain ⟨vendorId, -, h⟩ := Option.bind_eq_some_iff.mp h
        cases h
      · cases h

theorem dmExpectAvp_slice {avp : AvpRef} (hv : Valid grp) (h : dmExpectAvp grp = some (.ok avp, grp')) :
    Slice grp grp' avp := by
  have hpos := hv.pos_le
  have hsize := hv.size_lt
  unfold dmExpectAvp at h
  split at h
  · cases h
  simp only [Option.bind_eq_bind, Option.bind_eq_some_iff] at h
  obtain ⟨avpLen, hlen, flags, -, h⟩ := h
  obtain ⟨bytes, hbytes, rfl⟩ := Option.map_eq_some_iff.mp hlen
  have hlt : ofBe bytes < 2 ^ 24 := by
    have hb := ofBe_lt bytes
    rw [(peek_eq_some hbytes).2.2] at hb
    exact hb
  have hpad := le_pad32 (ofBe bytes)
  have hpad' := pad32_lt (ofBe bytes)
  -- the sum of two such numbers does not wrap
  have hwrap : sizeT (grp.pos + pad32 (ofBe bytes)) = grp.pos + pad32 (ofBe bytes) :=
    Nat.mod_eq_of_lt (by omega)
  rw [hwrap] at h
  split at h
  · cases h
  rename_i hguard
  rw [not_or, not_or, not_and] at hguard
  obtain ⟨h8, h12, hin⟩ := hguard
  obtain ⟨code, -, h⟩ := Option.bind_eq_some_iff.mp h
  have hon : Onward grp { grp with pos := grp.pos + pad32 (ofBe bytes) } :=
    ⟨rfl, rfl, Nat.le_add_right _ _, by simp only; omega⟩
  split at h
  · rename_i hvendor
    have h12 := h12 hvendor
    obtain ⟨vendorId, -, h⟩ := Option.bind_eq_some_iff.mp h
    cases h
    exact ⟨hon, by simp only; omega, by simp only; omega⟩
  · cases h
    exact ⟨hon, by simp only; omega, by simp only; omega⟩

/-- A header may be read behind the group, but not further. -/
theorem dmExpectAvp_returns (hv : Valid grp) (hr : Roomy grp) : ∃ x, dmExpectAvp grp = some x := by
  have hsize := hv.size_lt
  unfold Roomy at hr
  unfold dmExpectAvp
  split
  · exact ⟨_, rfl⟩
  rename_i hpos
  have hflags : ∃ f, grp.data[grp.pos + 4]? = some f := ⟨_, List.getElem?_eq_getElem (by omega)⟩
  obtain ⟨flags, hflags⟩ := hflags
  simp only [hflags, peek_some grp.data (grp.pos + 5) 3 (by omega), peek_some grp.data grp.pos 4 (by omega),
    Option.map_some, Option.bind_eq_bind,
    Option.bind_some]
  split
  · exact ⟨_, rfl⟩
  rename_i hguard
  rw [not_or, not_or, not_and] at hguard
  obtain ⟨h8, h12, hin⟩ := hguard
  split
  · rename_i hvendor
    have h12 := h12 hvendor
    have hlt : ofBe ((grp.data.drop (grp.pos + 5)).take 3) < 2 ^ 24 := by
      refine (ofBe_lt _).trans_le ?_
      exact Nat.pow_le_pow_right (by decide) (List.length_take_le 3 _)
    have hpad := le_pad32 (ofBe ((grp.data.drop (grp.pos + 5)).take 3))
    have hpad' := pad32_lt (ofBe ((grp.data.drop (grp.pos + 5)).take 3))
    rw [sizeT, Nat.mod_eq_of_lt (by omega)] at hin
    rw [peek_some grp.data (grp.pos + 8) 4 (by omega)]
    exact ⟨_, rfl⟩
  · exact ⟨_, rfl⟩

/-! ## Readers -/

/-- A reader that began in `grp` and is at `g` stays in its group, and the only way in which it does not return is
a read behind the group where the memory ends. -/
structure SafeAt (grp : Dm2AvpGrp) (x : Expect α) (g : Dm2AvpGrp) : Prop where
  onward : ∀ r g', x g = .ok (r, g') → Onward grp g'
  returns : ∀ s, x g = .error s → s = .fault ∧ ¬Roomy grp

def Safe (x : Expect α) : Prop := ∀ grp, Valid grp → SafeAt grp x grp

/-- A reader moves on when it returns `RC_OK`. -/
def Eats (x : Expect α) : Prop := ∀ grp a grp', Valid grp → x grp = .ok (.ok a, grp') → grp.pos < grp'.pos

theorem bind_apply (x : Expect α) (f : α → Expect β) (grp : Dm2AvpGrp) : (x >>= f) grp = Expect.bind x f grp := rfl

theorem bind_ok {x : Expect α} {f : α → Expect β} {r : Except Rc β} (h : (x >>= f) grp = .ok (r, grp')) :
    (∃ rc, r = .error rc ∧ x grp = .ok (.error rc, grp')) ∨ ∃ a g, x grp = .ok (.ok a, g) ∧ f a g = .ok (r, grp') := by
  rw [bind_apply, Expect.bind] at h
  split at h
  · cases h
  · rename_i rc g hx
    cases h
    exact .inl ⟨rc, rfl, hx⟩
  · rename_i a g hx
    exact .inr ⟨a, g, hx, h⟩

theorem bind_error {x : Expect α} {f : α → Expect β} {s : Stop} (h : (x >>= f) grp = .error s) :
    x grp = .error s ∨ ∃ a g, x grp = .ok (.ok a, g) ∧ f a g = .error s := by
  rw [bind_apply, Expect.bind] at h
  split at h
  · rename_i s' hx
    cases h
    exact .inl hx
  · cases h
  · rename_i a g hx
    exact .inr ⟨a, g, hx, h⟩

theorem SafeAt.bind {x : Expect α} {f : α → Expect β} {g : Dm2AvpGrp} (hx : SafeAt grp x g)
    (hf : ∀ a g', x g = .ok (.ok a, g') → SafeAt grp (f a) g') : SafeAt grp (x >>= f) g := by
  refine ⟨?_, ?_⟩
  · intro r g' h
    rcases bind_ok h with ⟨rc, -, hx'⟩ | ⟨a, g1, hx', hf'⟩
    · exact hx.onward _ _ hx'
    · exact (hf a g1 hx').onward _ _ hf'
  · intro s h
    rcases bind_error h with hx' | ⟨a, g1, hx', hf'⟩
    · exact hx.returns _ hx'
    · exact (hf a g1 hx').returns _ hf'

theorem Safe.at {x : Expect α} {g : Dm2AvpGrp} (hx : Safe x) (hv : Valid grp) (hon : Onward grp g) : SafeAt grp x g := by
  have hat := hx g (hon.valid hv)
  refine ⟨fun r g' h => hon.trans (hat.onward _ _ h), ?_⟩
  intro s h
  obtain ⟨hs, hroom⟩ := hat.returns _ h
  exact ⟨hs, fun hr => hroom (hon.roomy hr)⟩

theorem Safe.bind {x : Expect α} {f : α → Expect β} (hx : Safe x) (hf : ∀ a, Safe (f a)) : Safe (x >>= f) :=
  fun grp hv => (hx grp hv).bind fun a g h => (hf a).at hv ((hx grp hv).onward _ _ h)

theorem Safe.pure (a : α) : Safe (Pure.pure a : Expect α) := by
  intro grp hv
  refine ⟨?_, ?_⟩
  · intro r g' h
    cases h
    exact .refl hv
  · intro s h
    cases h

theorem Safe.fail (rc : Rc) : Safe (Rpc.fail rc : Expect α) := by
  intro grp hv
  refine ⟨?_, ?_⟩
  · intro r g' h
    cases h
    exact .refl hv
  · intro s h
    cases h

/-- Only the first of two reads has to move on. -/
theorem Eats.bindOn {x : Expect α} {f : α → Expect β} (hx : Eats x)
    (hf : ∀ grp a g, Valid grp → x grp = .ok (.ok a, g) → ∀ r g', f a g = .ok (r, g') → g.pos ≤ g'.pos) :
    Eats (x >>= f) := by
  intro grp b grp' hv h
  rcases bind_ok h with ⟨rc, hr, -⟩ | ⟨a, g, hx', hf'⟩
  · cases hr
  · exact (hx _ _ _ hv hx').trans_le (hf grp a g hv hx' _ _ hf')

theorem Eats.bind {x : Expect α} {f : α → Expect β} (hx : Safe x) (heats : Eats x) (hf : ∀ a, Safe (f a)) :
    Eats (x >>= f) :=
  heats.bindOn fun grp a g hv h r g' h' => (hf a g (((hx grp hv).onward _ _ h).valid hv)).onward r g' h' |>.pos_le

/-! ## The reads of the library -/

theorem call_ok {f : Dm2AvpGrp → Option (Except Rc α × Dm2AvpGrp)} {x : Except Rc α × Dm2AvpGrp}
    (h : call f grp = .ok x) : f grp = some x := by
  unfold call at h
  split at h
  · cases h
  · rename_i y hy
    cases h
    exact hy

theorem call_error {f : Dm2AvpGrp → Option (Except Rc α × Dm2AvpGrp)} {s : Stop} (h : call f grp = .error s) :
    s = .fault ∧ f grp = none := by
  unfold call at h
  split at h
  · rename_i hy
    cases h
    exact ⟨rfl, hy⟩
  · cases h

theorem dmExpectAvp_onward {r : Except Rc AvpRef} (hv : Valid grp) (h : dmExpectAvp grp = some (r, grp')) :
    Onward grp grp' := by
  cases r with
  | error rc =>
    rw [(dmExpectAvp_error h).1]
    exact .refl hv
  | ok avp => exact (dmExpectAvp_slice hv h).onward

/-- A call that ends with `dm_expect_avp` is safe. -/
theorem call_safe {f : Dm2AvpGrp → Option (Except Rc α × Dm2AvpGrp)}
    (hf : ∀ grp r grp', f grp = some (r, grp') → ∃ r', dmExpectAvp grp = some (r', grp'))
    (hnone : ∀ grp, f grp = none → dmExpectAvp grp = none) : Safe (call f) := by
  intro grp hv
  refine ⟨?_, ?_⟩
  · intro r g' h
    obtain ⟨r', hr'⟩ := hf _ _ _ (call_ok h)
    exact dmExpectAvp_onward hv hr'
  · intro s h
    obtain ⟨hs, hn⟩ := call_error h
    refine ⟨hs, fun hr => ?_⟩
    obtain ⟨x, hx⟩ := dmExpectAvp_returns hv hr
    rw [hnone _ hn] at hx
    cases hx

theorem expectAvp_safe : Safe (call dmExpectAvp) := call_safe (fun _ r _ h => ⟨r, h⟩) fun _ h => h

/-- `dm_expect_raw` reads an AVP. -/
theorem dmExpectRaw_eq {code vendorId : UInt32} {r : Except Rc AvpRef}
    (h : dmExpectRaw grp code vendorId = some (r, grp')) :
    ∃ r', dmExpectAvp grp = some (r', grp') ∧ ∀ avp, r = .ok avp → r' = .ok avp := by
  unfold dmExpectRaw at h
  obtain ⟨⟨r', g⟩, hr', h⟩ := Option.bind_eq_some_iff.mp h
  cases r' with
  | error rc =>
    cases h
    exact ⟨_, hr', fun avp ha => nomatch ha⟩
  | ok avp =>
    simp only at h
    split at h
    · cases h
      exact ⟨_, hr', fun avp ha => nomatch ha⟩
    · cases h
      exact ⟨_, hr', fun _ ha => ha⟩

theorem dmExpectRaw_none {code vendorId : UInt32} (h : dmExpectRaw grp code vendorId = none) :
    dmExpectAvp grp = none := by
  unfold dmExpectRaw at h
  cases hx : dmExpectAvp grp with
  | none => rfl
  | some x =>
    obtain ⟨r, g⟩ := x
    rw [hx, Option.bind_eq_bind, Option.bind_some] at h
    cases r with
    | error rc => cases h
    | ok avp =>
      simp only at h
      split at h <;> cases h

theorem expectRaw_safe (code vendorId : UInt32) : Safe (call fun grp => dmExpectRaw grp code vendorId) := by
  refine call_safe ?_ fun _ h => dmExpectRaw_none h
  intro grp r grp' h
  obtain ⟨r', hr', -⟩ := dmExpectRaw_eq h
  exact ⟨r', hr'⟩

/-- What `dm_expect_raw` finds is a slice of the group. -/
theorem expectRaw_slice {code vendorId : UInt32} {avp : AvpRef} (hv : Valid grp)
    (h : call (fun grp => dmExpectRaw grp code vendorId) grp = .ok (.ok avp, grp')) : Slice grp grp' avp := by
  obtain ⟨r', hr', hok⟩ := dmExpectRaw_eq (call_ok h)
  rw [hok avp rfl] at hr'
  exact dmExpectAvp_slice hv hr'

theorem Slice.moved {avp : AvpRef} (h : Slice grp grp' avp) : grp.pos < grp'.pos := by
  have h1 := h.behind
  have h2 := h.before
  omega

theorem payload_ok {avp : AvpRef} {r : Except Rc (List UInt8)} (h : payload avp grp = .ok (r, grp')) : grp' = grp := by
  unfold payload at h
  split at h
  · cases h
  · cases h
    rfl

/-- The payload of a slice is in the memory, unless this ends before the group. -/
theorem payload_at {avp : AvpRef} {g : Dm2AvpGrp} (hs : Slice grp g avp) : SafeAt grp (payload avp) g := by
  refine ⟨?_, ?_⟩
  · intro r g' h
    rw [payload_ok h]
    exact hs.onward
  · intro s h
    unfold payload at h
    split at h
    · rename_i hpeek
      cases h
      refine ⟨rfl, fun hr => ?_⟩
      have h1 := hs.before
      have h2 := hs.onward.le_size
      unfold Roomy at hr
      rw [peek_some g.data avp.off avp.len (by rw [hs.onward.data_eq]; omega)] at hpeek
      cases hpeek
    · cases h

theorem dmExpectValue_safe : Safe dmExpectValue := by
  intro grp hv
  refine (expectAvp_safe grp hv).bind fun avp g h => ?_
  have hs := dmExpectAvp_slice hv (call_ok h)
  refine (payload_at hs).bind fun data g' h' => ?_
  rw [payload_ok h']
  exact (Safe.pure _).at hv hs.onward

theorem dmExpectValue_eats : Eats dmExpectValue := by
  refine Eats.bindOn (fun grp avp g hv h => (dmExpectAvp_slice hv (call_ok h)).moved) ?_
  intro grp avp g _ _ r g' h
  rcases bind_ok h with ⟨rc, -, hp⟩ | ⟨data, g1, hp, hr⟩
  · rw [payload_ok hp]
  · cases hr
    rw [payload_ok hp]

theorem dmExpectBin_safe (code : UInt32) : Safe (dmExpectBin code) := by
  intro grp hv
  exact (expectRaw_safe code vpTravelping grp hv).bind fun avp g h => payload_at (expectRaw_slice hv h)

theorem dmExpectBin_eats (code : UInt32) : Eats (dmExpectBin code) := by
  refine Eats.bindOn (fun grp avp g hv h => (expectRaw_slice hv h).moved) ?_
  intro grp avp g _ _ r g' h
  rw [payload_ok h]

theorem dmExpectString_safe (A : Talloc) (code : UInt32) : Safe (dmExpectString A code) := by
  refine (dmExpectBin_safe code).bind fun data => ?_
  split
  · exact .pure _
  · exact .fail _

theorem dmExpectString_eats (A : Talloc) (code : UInt32) : Eats (dmExpectString A code) := by
  refine (dmExpectBin_eats code).bind (dmExpectBin_safe code) fun data => ?_
  split
  · exact .pure _
  · exact .fail _

theorem dmExpectPath_safe (A : Talloc) (S : Schema) (code : UInt32) : Safe (dmExpectPath A S code) := by
  refine (dmExpectString_safe A code).bind fun s => ?_
  split
  · exact .pure _
  · exact .fail _

theorem dmExpectPath_eats (A : Talloc) (S : Schema) (code : UInt32) : Eats (dmExpectPath A S code) := by
  refine (dmExpectString_eats A code).bind (dmExpectString_safe A code) fun s => ?_
  split
  · exact .pure _
  · exact .fail _

theorem dmExpectNumber_safe (code : UInt32) (size : ℕ) : Safe (dmExpectNumber code size) := by
  intro grp hv
  have hbin := dmExpectBin_safe code grp hv
  refine ⟨?_, ?_⟩
  · intro r g' h
    unfold dmExpectNumber at h
    split at h
    · cases h
    · rename_i rc g hx
      cases h
      exact hbin.onward _ _ hx
    · rename_i data g hx
      split at h
      · cases h
        exact hbin.onward _ _ hx
      · cases h
        exact hbin.onward _ _ hx
  · intro s h
    unfold dmExpectNumber at h
    split at h
    · rename_i s' hx
      cases h
      exact hbin.returns _ hx
    · cases h
    · split at h <;> cases h

theorem dmExpectUint8_safe (code : UInt32) : Safe (dmExpectUint8 code) :=
  (dmExpectNumber_safe code 1).bind fun _ => .pure _

theorem dmExpectUint16_safe (code : UInt32) : Safe (dmExpectUint16 code) :=
  (dmExpectNumber_safe code 2).bind fun _ => .pure _

theorem dmExpectUint32_safe (code : UInt32) : Safe (dmExpectUint32 code) :=
  (dmExpectNumber_safe code 4).bind fun _ => .pure _

theorem dmExpectInt32_safe (code : UInt32) : Safe (dmExpectInt32 code) :=
  (dmExpectNumber_safe code 4).bind fun _ => .pure _

theorem dmExpectEnd_safe : Safe dmExpectEnd := by
  intro grp hv
  refine ⟨?_, ?_⟩
  · intro r g' h
    unfold dmExpectEnd at h
    split at h <;> cases h <;> exact .refl hv
  · intro s h
    unfold dmExpectEnd at h
    split at h <;> cases h

/-! ## Groups in groups -/

/-- A nested group is a slice of the outer one. -/
structure Nested (grp obj : Dm2AvpGrp) : Prop where
  valid : Valid obj
  smaller : obj.pos = 0 ∧ obj.size + 8 ≤ grp.size - grp.pos
  roomy : Roomy grp → Roomy obj

theorem Slice.nested {avp : AvpRef} (h : Slice grp grp' avp) (hv : Valid grp) :
    Nested grp (dmInitAvpgrp (grp'.data.drop avp.off) avp.len) := by
  have h1 := h.behind
  have h2 := h.before
  have h3 := h.onward.le_size
  have h4 := hv.size_lt
  refine ⟨⟨Nat.zero_le _, ?_⟩, ⟨rfl, ?_⟩, ?_⟩
  · simp only [dmInitAvpgrp]
    omega
  · simp only [dmInitAvpgrp]
    omega
  · intro hr
    unfold Roomy at hr ⊢
    simp only [dmInitAvpgrp, List.length_drop, h.onward.data_eq]
    omega

theorem dmExpectGroup_eq {code vendorId : UInt32} {r : Except Rc Dm2AvpGrp}
    (h : dmExpectGroup grp code vendorId = some (r, grp')) : ∃ r', dmExpectRaw grp code vendorId = some (r', grp') ∧
      ∀ obj, r = .ok obj → ∃ avp, r' = .ok avp ∧ obj = dmInitAvpgrp (grp'.data.drop avp.off) avp.len := by
  unfold dmExpectGroup at h
  obtain ⟨⟨r', g⟩, hr', h⟩ := Option.bind_eq_some_iff.mp h
  cases r' with
  | error rc =>
    cases h
    exact ⟨_, hr', fun obj ho => nomatch ho⟩
  | ok avp =>
    cases h
    refine ⟨_, hr', fun obj ho => ?_⟩
    cases ho
    exact ⟨avp, rfl, rfl⟩

theorem dmExpectGroup_none {code vendorId : UInt32} (h : dmExpectGroup grp code vendorId = none) :
    dmExpectRaw grp code vendorId = none := by
  unfold dmExpectGroup at h
  cases hx : dmExpectRaw grp code vendorId with
  | none => rfl
  | some x =>
    obtain ⟨r, g⟩ := x
    rw [hx, Option.bind_eq_bind, Option.bind_some] at h
    cases r <;> cases h

theorem dmExpectObject_safe : Safe dmExpectObject := by
  refine call_safe ?_ fun _ h => dmExpectRaw_none (dmExpectGroup_none h)
  intro grp r grp' h
  obtain ⟨r1, h1, -⟩ := dmExpectGroup_eq h
  obtain ⟨r2, h2, -⟩ := dmExpectRaw_eq h1
  exact ⟨r2, h2⟩

theorem dmExpectObject_nested {obj : Dm2AvpGrp} (hv : Valid grp) (h : dmExpectObject grp = .ok (.ok obj, grp')) :
    Nested grp obj ∧ grp.pos < grp'.pos := by
  obtain ⟨r1, h1, hobj⟩ := dmExpectGroup_eq (call_ok h)
  obtain ⟨avp, rfl, rfl⟩ := hobj obj rfl
  obtain ⟨r2, h2, hok⟩ := dmExpectRaw_eq h1
  rw [hok avp rfl] at h2
  have hs := dmExpectAvp_slice hv h2
  exact ⟨hs.nested hv, hs.moved⟩

/-- Reading the inner group leaves the outer one where it is. -/
theorem inGroup_at {obj g : Dm2AvpGrp} {x : Expect α} (hn : Nested grp obj) (hon : Onward grp g)
    (hx : SafeAt obj x obj) : SafeAt grp (inGroup obj x) g := by
  refine ⟨?_, ?_⟩
  · intro r g' h
    unfold inGroup at h
    split at h
    · cases h
    · cases h
      exact hon
  · intro s h
    unfold inGroup at h
    split at h
    · rename_i s' hs
      cases h
      obtain ⟨h1, h2⟩ := hx.returns _ hs
      exact ⟨h1, fun hr => h2 (hn.roomy hr)⟩
    · cases h

theorem inGroup_ok {obj : Dm2AvpGrp} {x : Expect α} {r : Except Rc α} (h : inGroup obj x grp = .ok (r, grp')) :
    grp' = grp := by
  unfold inGroup at h
  split at h <;> cases h
  rfl

/-! ## Loops -/

/-- Every round takes a byte at least, so there are no more rounds than bytes. -/
theorem listLoop_at (A : Talloc) (width : ℕ) {item : Expect α} (stop : Dm2AvpGrp → Bool) (hsafe : Safe item)
    (heats : Eats item) (n : ℕ) (acc : List α) (g : Dm2AvpGrp) (hv : Valid grp) (hon : Onward grp g)
    (hn : g.size - g.pos < n) : SafeAt grp (listLoop A width item stop n acc) g := by
  induction n generalizing acc g with
  | zero => omega
  | succ n ih =>
    have hitem := hsafe.at hv hon
    have hnext : ∀ a g', item g = .ok (.ok a, g') → SafeAt grp (listLoop A width item stop n (acc ++ [a])) g' := by
      intro a g' h
      have hg := hitem.onward _ _ h
      refine ih (acc ++ [a]) g' hg ?_
      have hmoved := heats _ _ _ (hon.valid hv) h
      have hsize : g'.size = g.size := hg.size_eq.trans hon.size_eq.symm
      have hle : g'.pos ≤ g'.size := (hg.valid hv).pos_le
      omega
    refine ⟨?_, ?_⟩
    · intro r g' h
      unfold listLoop at h
      split at h
      · cases h
        exact hon
      · split at h
        · cases h
        · rename_i rc g1 hx
          cases h
          exact hitem.onward _ _ hx
        · rename_i a g1 hx
          split at h
          · cases h
            exact hitem.onward _ _ hx
          · exact (hnext a g1 hx).onward _ _ h
    · intro s h
      unfold listLoop at h
      split at h
      · cases h
      · split at h
        · rename_i s' hx
          cases h
          exact hitem.returns _ hx
        · cases h
        · rename_i a g1 hx
          split at h
          · cases h
          · exact (hnext a g1 hx).returns _ h

end Mand.Rpc
