import Mand.Rpc.NodeList

/-! # Malformed packets

Whatever the bytes of a packet are, the readers of the server and of `dmctrl` come to an end and stay inside. -/
namespace Mand.Rpc
open Mand.Bytes Mand.Msg Mand.Store Mand.Notify
set_option autoImplicit false

variable {grp grp' : Dm2AvpGrp}

/-! ## Skeletons -/

section Skeletons
variable (A : Talloc) (S : Schema)

theorem emptySkel_safe (inv : Invocation) : Safe (emptySkel inv) := dmExpectEnd_safe.bind fun _ => .pure _

theorem startsessionSkel_safe : Safe startsessionSkel :=
  (dmExpectUint32_safe _).bind fun _ => (dmExpectInt32_safe _).bind fun _ => dmExpectEnd_safe.bind fun _ => .pure _

theorem switchsessionSkel_safe : Safe switchsessionSkel :=
  (dmExpectUint32_safe _).bind fun _ => (dmExpectInt32_safe _).bind fun _ => dmExpectEnd_safe.bind fun _ => .pure _

theorem paramNotifySkel_safe : Safe (paramNotifySkel A S) := by
  refine (dmExpectUint8_safe _).bind fun notify => ?_
  intro grp hv
  refine (dmExpectObject_safe grp hv).bind fun obj g h => ?_
  have hon := (dmExpectObject_safe grp hv).onward _ _ h
  have hn := (dmExpectObject_nested hv h).1
  refine (dmExpectEnd_safe.at hv hon).bind fun _ g1 h1 => ?_
  have hon1 := (dmExpectEnd_safe.at hv hon).onward _ _ h1
  have hloop : SafeAt grp (fun obj' => inGroup obj (listLoop A 32 (dmExpectPath A S avpPath) (fun _ => atEnd obj')
      (obj.size + 1) []) obj') g1 := by
    refine ⟨?_, ?_⟩
    · intro r g' h'
      exact (inGroup_at hn hon1 (listLoop_at A 32 _ (dmExpectPath_safe A S avpPath) (dmExpectPath_eats A S avpPath) _
        [] obj hn.valid (.refl hn.valid) (by omega))).onward _ _ h'
    · intro s h'
      exact (inGroup_at hn hon1 (listLoop_at A 32 _ (dmExpectPath_safe A S avpPath) (dmExpectPath_eats A S avpPath) _
        [] obj hn.valid (.refl hn.valid) (by omega))).returns _ h'
  exact hloop.bind fun path g2 h2 => (Safe.pure _).at hv (hloop.onward _ _ h2)

theorem recursiveParamNotifySkel_safe : Safe (recursiveParamNotifySkel A S) :=
  (dmExpectUint8_safe _).bind fun _ => (dmExpectPath_safe A S _).bind fun _ => dmExpectEnd_safe.bind fun _ => .pure _

theorem dbAddinstanceSkel_safe : Safe (dbAddinstanceSkel A S) :=
  (dmExpectPath_safe A S _).bind fun _ => (dmExpectUint16_safe _).bind fun _ => .pure _

theorem dbDelinstanceSkel_safe : Safe (dbDelinstanceSkel A S) := (dmExpectPath_safe A S _).bind fun _ => .pure _

theorem pathValue_safe : Safe (pathValue A S) := by
  intro grp hv
  refine (dmExpectObject_safe grp hv).bind fun obj g h => ?_
  have hn := (dmExpectObject_nested hv h).1
  refine inGroup_at hn ((dmExpectObject_safe grp hv).onward _ _ h) ?_
  have hbody : Safe (do
      let path ← dmExpectPath A S avpPath
      let value ← dmExpectValue
      dmExpectEnd
      return (path, value) : Expect (Selector × Dm2Avp)) :=
    (dmExpectPath_safe A S _).bind fun _ => dmExpectValue_safe.bind fun _ => dmExpectEnd_safe.bind fun _ => .pure _
  exact hbody obj hn.valid

theorem pathValue_eats : Eats (pathValue A S) := by
  refine Eats.bindOn (fun grp obj g hv h => (dmExpectObject_nested hv h).2) ?_
  intro grp obj g _ _ r g' h
  rw [inGroup_ok h]

/-- A loop over the whole request. -/
theorem requestLoop_safe {α : Type} (width : ℕ) {item : Expect α} (hsafe : Safe item) (heats : Eats item) :
    Safe (fun obj => listLoop A width item atEnd (obj.size + 1) [] obj) := by
  intro grp hv
  have h := listLoop_at A width atEnd hsafe heats (grp.size + 1) [] grp hv (.refl hv) (by omega)
  exact ⟨h.onward, h.returns⟩

theorem dbSetSkel_safe : Safe (dbSetSkel A S) :=
  (requestLoop_safe A 56 (pathValue_safe A S) (pathValue_eats A S)).bind fun _ => .pure _

theorem dbGetSkel_safe : Safe (dbGetSkel A S) :=
  (requestLoop_safe A 32 (dmExpectPath_safe A S _) (dmExpectPath_eats A S _)).bind fun _ => .pure _

theorem dbListSkel_safe : Safe (dbListSkel A S) :=
  (dmExpectUint16_safe _).bind fun _ => (dmExpectPath_safe A S _).bind fun _ => dmExpectEnd_safe.bind fun _ => .pure _

theorem dbRetrieveEnumSkel_safe : Safe (dbRetrieveEnumSkel A S) :=
  (dmExpectPath_safe A S _).bind fun _ => dmExpectEnd_safe.bind fun _ => .pure _

theorem dbDumpSkel_safe : Safe (dbDumpSkel A) :=
  (dmExpectString_safe A _).bind fun _ => dmExpectEnd_safe.bind fun _ => .pure _

theorem dbFindinstanceSkel_safe : Safe (dbFindinstanceSkel A S) :=
  (dmExpectPath_safe A S _).bind fun _ => (dmExpectBin_safe _).bind fun _ => dmExpectValue_safe.bind fun _ =>
    dmExpectEnd_safe.bind fun _ => .pure _

theorem registerRoleSkel_safe : Safe (registerRoleSkel A) :=
  (dmExpectString_safe A _).bind fun _ => dmExpectEnd_safe.bind fun _ => .pure _

theorem firmwareDownloadSkel_safe : Safe (firmwareDownloadSkel A) :=
  (dmExpectString_safe A _).bind fun _ => (dmExpectUint8_safe _).bind fun _ => (dmExpectString_safe A _).bind fun _ =>
    (dmExpectString_safe A _).bind fun _ => (dmExpectUint32_safe _).bind fun _ => (dmExpectUint8_safe _).bind fun _ =>
      (dmExpectUint32_safe _).bind fun _ => (dmExpectUint32_safe _).bind fun _ => dmExpectEnd_safe.bind fun _ => .pure _

theorem firmwareCommitSkel_safe : Safe firmwareCommitSkel :=
  (dmExpectInt32_safe _).bind fun _ => dmExpectEnd_safe.bind fun _ => .pure _

theorem setBootOrderSkel_safe : Safe (setBootOrderSkel A) :=
  (requestLoop_safe A 8 (dmExpectString_safe A _) (dmExpectString_eats A _)).bind fun _ => .pure _

theorem Command.skel_safe (c : Command) : Safe (c.skel A S) := by
  cases c with
  | startsession => exact startsessionSkel_safe
  | switchsession => exact switchsessionSkel_safe
  | paramNotify => exact paramNotifySkel_safe A S
  | recursiveParamNotify => exact recursiveParamNotifySkel_safe A S
  | dbAddinstance => exact dbAddinstanceSkel_safe A S
  | dbDelinstance => exact dbDelinstanceSkel_safe A S
  | dbSet => exact dbSetSkel_safe A S
  | dbGet => exact dbGetSkel_safe A S
  | dbList => exact dbListSkel_safe A S
  | dbRetrieveEnums => exact dbRetrieveEnumSkel_safe A S
  | dbDump => exact dbDumpSkel_safe A
  | dbFindinstance => exact dbFindinstanceSkel_safe A S
  | registerRole => exact registerRoleSkel_safe A
  | firmwareDownload => exact firmwareDownloadSkel_safe A
  | firmwareCommit => exact firmwareCommitSkel_safe
  | setBootOrder => exact setBootOrderSkel_safe A
  | endsession | sessioninfo | cfgsessioninfo | subscribeNotify | unsubscribeNotify | getPassiveNotifications | dbSave
  | dbCommit | dbCancel | systemRestart | systemShutdown => exact emptySkel_safe _

end Skeletons

/-! ## Node lists -/

/-- The bytes are part of a group. -/
def Part (grp : Dm2AvpGrp) (data : List UInt8) : Prop :=
  ∃ off, off + data.length ≤ grp.size ∧ data = (grp.data.drop off).take data.length

theorem Part.earlier {data : List UInt8} (h : Onward grp grp') (hp : Part grp' data) : Part grp data := by
  obtain ⟨off, hin, hdata⟩ := hp
  exact ⟨off, h.size_eq ▸ hin, h.data_eq ▸ hdata⟩

theorem Slice.part {avp : AvpRef} {data : List UInt8} (h : Slice grp grp' avp)
    (hp : Part (dmInitAvpgrp (grp'.data.drop avp.off) avp.len) data) : Part grp data := by
  obtain ⟨off, hin, hdata⟩ := hp
  have h1 := h.before
  have h2 := h.onward.le_size
  simp only [dmInitAvpgrp] at hin
  refine ⟨avp.off + off, by omega, ?_⟩
  rw [← h.onward.data_eq, ← List.drop_drop]
  exact hdata

theorem dmExpectValue_part {v : Dm2Avp} (hv : Valid grp) (h : dmExpectValue grp = .ok (.ok v, grp')) :
    Part grp v.data := by
  rcases bind_ok h with ⟨rc, hr, -⟩ | ⟨avp, g, hx, h⟩
  · cases hr
  have hs := dmExpectAvp_slice hv (call_ok hx)
  rcases bind_ok h with ⟨rc, hr, -⟩ | ⟨data, g1, hp, hr⟩
  · cases hr
  cases hr
  unfold payload at hp
  split at hp
  · cases hp
  · rename_i bytes hpeek
    cases hp
    obtain ⟨-, hbytes, hlen⟩ := peek_eq_some hpeek
    have h1 := hs.before
    have h2 := hs.onward.le_size
    refine ⟨avp.off, by simp only [hlen]; omega, ?_⟩
    rw [hlen, ← hs.onward.data_eq]
    exact hbytes

/-- A call of `decode_node_list` on `grp`: it returns, it stays inside, and what it reports is in the group. -/
structure NodeSafe (grp : Dm2AvpGrp) (x : NodeResult) : Prop where
  returns : ∀ s, x = .error s → s = .fault ∧ ¬Roomy grp
  onward : ∀ rc g out, x = .ok (rc, g, out) → Onward grp g ∧ (rc = .ok → grp.pos < g.pos)
  inside : ∀ rc g out, x = .ok (rc, g, out) → ∀ rep ∈ out, Part grp rep.value.data

/-- The same for the calls below a group. -/
structure BodySafe {α : Type} (grp : Dm2AvpGrp) (out : α → List Report) (x : Except Stop α) : Prop where
  returns : ∀ s, x = .error s → s = .fault ∧ ¬Roomy grp
  inside : ∀ a, x = .ok a → ∀ rep ∈ out a, Part grp rep.value.data

theorem BodySafe.map {α β : Type} {out : α → List Report} {out' : β → List Report} {x : Except Stop α} {f : α → β}
    (h : BodySafe grp out x) (hf : ∀ a, ∀ rep ∈ out' (f a), rep ∈ out a ∨ Part grp rep.value.data) :
    BodySafe grp out' (x.map f) := by
  cases x with
  | error s =>
    refine ⟨fun s' hs => ?_, fun b hb => nomatch hb⟩
    cases hs
    exact h.returns s rfl
  | ok a =>
    refine ⟨fun s hs => (nomatch hs), fun b hb rep hrep => ?_⟩
    cases hb
    rcases hf a rep hrep with hmem | hpart
    · exact h.inside a rfl rep hmem
    · exact hpart

theorem nodeLoop_safe {node : Dm2AvpGrp → NodeResult} {n : ℕ} {g : Dm2AvpGrp}
    (hnode : ∀ g, Onward grp g → NodeSafe g (node g)) (hv : Valid grp) (hon : Onward grp g)
    (hn : g.size - g.pos < n) : BodySafe grp id (nodeLoop node n g) := by
  induction n generalizing g with
  | zero => omega
  | succ n ih =>
    have hg := hnode g hon
    unfold nodeLoop
    cases hx : node g with
    | error s =>
      refine ⟨fun s' hs => ?_, fun a ha => nomatch ha⟩
      cases hs
      obtain ⟨h1, h2⟩ := hg.returns s hx
      exact ⟨h1, fun hr => h2 (hon.roomy hr)⟩
    | ok y =>
      obtain ⟨rc, g1, out⟩ := y
      obtain ⟨hon1, hmoved⟩ := hg.onward rc g1 out hx
      have hin : ∀ rep ∈ out, Part grp rep.value.data := fun rep hrep => (hg.inside rc g1 out hx rep hrep).earlier hon
      simp only
      split
      · have hpos := hmoved ‹_›
        have hsize := hon1.size_eq
        have hle := (hon1.valid (hon.valid hv)).pos_le
        refine (ih (hon.trans hon1) (by omega)).map fun rest rep hrep => ?_
        rcases List.mem_append.mp hrep with hmem | hmem
        · exact .inr (hin rep hmem)
        · exact .inl hmem
      · refine ⟨fun s hs => (nomatch hs), fun a ha => ?_⟩
        cases ha
        exact hin

theorem arrayLoop_safe {path : List UInt8} {n : ℕ} {g : Dm2AvpGrp} (hv : Valid grp) (hon : Onward grp g)
    (hn : g.size - g.pos < n) : BodySafe grp Prod.snd (arrayLoop path n g) := by
  induction n generalizing g with
  | zero => omega
  | succ n ih =>
    have hval := dmExpectValue_safe.at hv hon
    unfold arrayLoop
    split
    · refine ⟨fun s hs => (nomatch hs), fun a ha rep hrep => ?_⟩
      cases ha
      cases hrep
    · cases hx : dmExpectValue g with
      | error s =>
        refine ⟨fun s' hs => ?_, fun a ha => nomatch ha⟩
        cases hs
        exact hval.returns s hx
      | ok y =>
        obtain ⟨r, g1⟩ := y
        have hon1 := hval.onward r g1 hx
        cases r with
        | error rc =>
          refine ⟨fun s hs => (nomatch hs), fun a ha rep hrep => ?_⟩
          cases ha
          cases hrep
        | ok value =>
          have hpos := dmExpectValue_eats _ _ _ (hon.valid hv) hx
          have hsize : g1.size = g.size := hon1.size_eq.trans hon.size_eq.symm
          have hle := (hon1.valid hv).pos_le
          refine (ih hon1 (by omega)).map fun a rep hrep => ?_
          rcases List.mem_cons.mp hrep with rfl | hmem
          · exact .inr ((dmExpectValue_part (hon.valid hv) hx).earlier hon)
          · exact .inl hmem

theorem nodeName_safe (A : Talloc) (code : UInt32) : Safe (nodeName A code) := by
  unfold nodeName
  split
  · exact dmExpectString_safe A _
  · split
    · exact (dmExpectUint16_safe _).bind fun _ => .pure _
    · exact (dmExpectString_safe A _).bind fun _ => (dmExpectUint32_safe _).bind fun _ => .pure _

theorem nodePath_safe (A : Talloc) (pre : List UInt8) (code : UInt32) : Safe (nodePath A pre code) := by
  refine (nodeName_safe A code).bind fun name => ?_
  split
  · exact .pure _
  · exact .fail _

theorem nodeBody_safe {node : List UInt8 → Dm2AvpGrp → NodeResult} {n : ℕ} {code : UInt32} {path : List UInt8}
    {g : Dm2AvpGrp} (hnode : ∀ g, Onward grp g → NodeSafe g (node path g)) (hv : Valid grp) (hon : Onward grp g)
    (hn : g.size - g.pos < n) : BodySafe grp Prod.snd (nodeBody node n code path g) := by
  have hval := dmExpectValue_safe.at hv hon
  unfold nodeBody
  split
  · cases hx : dmExpectValue g with
    | error s =>
      refine ⟨fun s' hs => ?_, fun a ha => nomatch ha⟩
      cases hs
      exact hval.returns s hx
    | ok y =>
      obtain ⟨r, g1⟩ := y
      refine ⟨fun s hs => ?_, fun a ha rep hrep => ?_⟩
      · cases r <;> cases hs
      · cases r with
        | error rc =>
          cases ha
          cases hrep
        | ok value =>
          cases ha
          rw [List.mem_singleton.mp hrep]
          exact (dmExpectValue_part (hon.valid hv) hx).earlier hon
  · split
    · exact arrayLoop_safe hv hon hn
    · exact (nodeLoop_safe hnode hv hon hn).map fun a rep hrep => .inl hrep

theorem NodeSafe.stop {s : Stop} (h : s = .fault ∧ ¬Roomy grp) : NodeSafe grp (.error s) := by
  refine ⟨fun s' hs => ?_, fun rc g out h => (nomatch h), fun rc g out h => nomatch h⟩
  cases hs
  exact h

/-- A call that reports nothing. -/
theorem NodeSafe.quiet {rc : Rc} {g : Dm2AvpGrp} (hon : Onward grp g) (hok : rc = .ok → grp.pos < g.pos) :
    NodeSafe grp (.ok (rc, g, [])) := by
  refine ⟨fun s hs => (nomatch hs), fun rc' g' out h => ?_, fun rc' g' out h rep hrep => ?_⟩
  · cases h
    exact ⟨hon, hok⟩
  · cases h
    cases hrep

/-- A call that goes into a group. -/
theorem BodySafe.node {avp : AvpRef} {g : Dm2AvpGrp} {x : Except Stop (Rc × List Report)} (hs : Slice grp g avp)
    (hn : Nested grp (dmInitAvpgrp (g.data.drop avp.off) avp.len))
    (h : BodySafe (dmInitAvpgrp (g.data.drop avp.off) avp.len) Prod.snd x) :
    NodeSafe grp (x.map fun (rc, out) => (rc, g, out)) := by
  cases x with
  | error s =>
    obtain ⟨h1, h2⟩ := h.returns s rfl
    exact .stop ⟨h1, fun hr => h2 (hn.roomy hr)⟩
  | ok y =>
    refine ⟨fun s hs => (nomatch hs), fun rc' g' out h' => ?_, fun rc' g' out h' rep hrep => ?_⟩
    · cases h'
      exact ⟨hs.onward, fun _ => hs.moved⟩
    · cases h'
      exact hs.part (h.inside y rfl rep hrep)

/-- The fuel is for the bytes that are left: a group takes eight of them from its content. -/
theorem decodeNodeList_safe (A : Talloc) {n : ℕ} (pre : List UInt8) (hv : Valid grp) (hn : grp.size - grp.pos < n) :
    NodeSafe grp (decodeNodeList A n pre grp) := by
  induction n generalizing pre grp with
  | zero => omega
  | succ n ih =>
    have havp := expectAvp_safe grp hv
    unfold decodeNodeList
    cases hx : call dmExpectAvp grp with
    | error s => exact .stop (havp.returns s hx)
    | ok y =>
      obtain ⟨r, g⟩ := y
      have hon := havp.onward r g hx
      cases r with
      | error rc => exact .quiet hon fun hrc => absurd hrc (dmExpectAvp_error (call_ok hx)).2
      | ok avp =>
        have hs := dmExpectAvp_slice hv (call_ok hx)
        have hnested := hs.nested hv
        generalize hobj : dmInitAvpgrp (g.data.drop avp.off) avp.len = obj at hnested
        have hpath := nodePath_safe A pre avp.code obj hnested.valid
        simp only
        split
        · exact .quiet hon fun _ => hs.moved
        rw [hobj]
        cases hp : nodePath A pre avp.code obj with
        | error s =>
          obtain ⟨h1, h2⟩ := hpath.returns s hp
          exact .stop ⟨h1, fun hr => h2 (hnested.roomy hr)⟩
        | ok z =>
          obtain ⟨r, container⟩ := z
          have hcon := hpath.onward r container hp
          cases r with
          | error rc => exact .quiet hon fun _ => hs.moved
          | ok path =>
            have hsmall := hnested.smaller.2
            have hsize := hcon.size_eq
            subst hobj
            refine BodySafe.node hs hnested (nodeBody_safe (fun g' hon' => ?_) hnested.valid hcon (by omega))
            exact ih path (hon'.valid hnested.valid) (by rw [hon'.size_eq]; omega)

/-! ## Chains of reads -/

/-- A group that is being read, with the payloads that were handed out. -/
structure Reading where
  grp : Dm2AvpGrp
  slices : List AvpRef

/-- Read an AVP, go into one that was read, or go back to the group around it. -/
inductive ReadOp
  | expect
  | enter (k : ℕ)
  | leave

/-- One step of a chain; the innermost group comes first. -/
def readStep : List Reading → ReadOp → Option (List Reading)
  | r :: rest, .expect =>
    match dmExpectAvp r.grp with
    | none => none
    | some (.ok avp, grp) => some (⟨grp, r.slices ++ [avp]⟩ :: rest)
    | some (.error _, grp) => some (⟨grp, r.slices⟩ :: rest)
  | r :: rest, .enter k =>
    r.slices[k]?.map fun avp => ⟨dmInitAvpgrp (r.grp.data.drop avp.off) avp.len, []⟩ :: r :: rest
  | _ :: rest, .leave => some rest
  | [], _ => none

/-- The position and the payloads are inside the group, the payloads are apart and in order, and an error moves
nothing. -/
structure Reading.Sound (r : Reading) : Prop where
  pos_le : r.grp.pos ≤ r.grp.size
  inside : ∀ avp ∈ r.slices, avp.off + avp.len ≤ r.grp.size
  apart : r.slices.Pairwise fun a b => a.off + a.len < b.off
  unmoved : ∀ rc grp', dmExpectAvp r.grp = some (.error rc, grp') → grp'.pos = r.grp.pos

/-- What a chain keeps of a group, in a memory that does not end right behind the packet or in any other. -/
structure Reading.Inv (room : Prop) (r : Reading) : Prop where
  valid : Valid r.grp
  roomy : room → Roomy r.grp
  before : ∀ avp ∈ r.slices, avp.off + avp.len ≤ r.grp.pos
  apart : r.slices.Pairwise fun a b => a.off + a.len < b.off

theorem Reading.Inv.sound {room : Prop} {r : Reading} (h : r.Inv room) : r.Sound where
  pos_le := h.valid.pos_le
  inside avp hmem := (h.before avp hmem).trans h.valid.pos_le
  apart := h.apart
  unmoved rc grp' hx := by rw [(dmExpectAvp_error hx).1]

theorem Reading.Inv.snoc {room : Prop} {r : Reading} {avp : AvpRef} (h : r.Inv room) (hs : Slice r.grp grp' avp) :
    Reading.Inv room ⟨grp', r.slices ++ [avp]⟩ := by
  have hbehind := hs.behind
  refine ⟨hs.onward.valid h.valid, fun hr => hs.onward.roomy (h.roomy hr), ?_, ?_⟩
  · intro a ha
    rcases List.mem_append.mp ha with hmem | hmem
    · exact (h.before a hmem).trans hs.onward.pos_le
    · rw [List.mem_singleton.mp hmem]
      exact hs.before
  · refine List.pairwise_append.mpr ⟨h.apart, List.pairwise_singleton _ _, ?_⟩
    intro a ha b hb
    rw [List.mem_singleton.mp hb]
    have := h.before a ha
    omega

theorem Reading.Inv.enter {room : Prop} {r : Reading} {avp : AvpRef} (h : r.Inv room) (ha : avp ∈ r.slices) :
    Reading.Inv room ⟨dmInitAvpgrp (r.grp.data.drop avp.off) avp.len, []⟩ := by
  have h1 := h.before avp ha
  have h2 := h.valid.pos_le
  have h3 := h.valid.size_lt
  refine ⟨⟨Nat.zero_le _, ?_⟩, ?_, fun a hmem => absurd hmem List.not_mem_nil, List.Pairwise.nil⟩
  · simp only [dmInitAvpgrp]
    omega
  · intro hr
    have h4 := h.roomy hr
    unfold Roomy at h4 ⊢
    simp only [dmInitAvpgrp, List.length_drop]
    omega

/-- A step of a chain. -/
theorem readStep_inv {room : Prop} {rs rs' : List Reading} {op : ReadOp} (h : readStep rs op = some rs')
    (hi : ∀ r ∈ rs, r.Inv room) : ∀ r ∈ rs', r.Inv room := by
  cases rs with
  | nil => cases op <;> cases h
  | cons r rest =>
    have hr := hi r List.mem_cons_self
    have hrest : ∀ x ∈ rest, x.Inv room := fun x hx => hi x (List.mem_cons_of_mem _ hx)
    cases op with
    | expect =>
      simp only [readStep] at h
      split at h
      · cases h
      · rename_i avp g hx
        cases h
        exact List.forall_mem_cons.mpr ⟨hr.snoc (dmExpectAvp_slice hr.valid hx), hrest⟩
      · rename_i rc g hx
        cases h
        refine List.forall_mem_cons.mpr ⟨?_, hrest⟩
        rw [(dmExpectAvp_error hx).1]
        exact hr
    | enter k =>
      obtain ⟨avp, havp, rfl⟩ := Option.map_eq_some_iff.mp h
      exact List.forall_mem_cons.mpr ⟨hr.enter (List.mem_of_getElem? havp), hi⟩
    | leave =>
      cases h
      exact hrest

/-- **Malformed packets.** For every body of a packet, whatever is in the memory behind it: every chain of reads keeps
all groups sound, and the skeletons and `decode_node_list` end inside the body. They return, unless the memory ends
less than eight bytes behind the body, where the header of an AVP is read that is not there. -/
theorem malformed_safe (A : Talloc) (S : Schema) (body behind : Mem) (hbody : sizeofDmPacket + body.length < 2 ^ 24) :
    (∀ ops rs, Run.run readStep [⟨dmInitAvpgrp (body ++ behind) body.length, []⟩] ops = some rs →
      ∀ r ∈ rs, r.Sound ∧ (8 ≤ behind.length → ∃ x, dmExpectAvp r.grp = some x)) ∧
    (∀ c : Command, SafeAt (dmInitAvpgrp (body ++ behind) body.length) (c.skel A S)
      (dmInitAvpgrp (body ++ behind) body.length)) ∧
    ∀ n pre, body.length < n → NodeSafe (dmInitAvpgrp (body ++ behind) body.length)
      (decodeNodeList A n pre (dmInitAvpgrp (body ++ behind) body.length)) := by
  have hv : Valid (dmInitAvpgrp (body ++ behind) body.length) :=
    ⟨Nat.zero_le _, (Nat.le_add_left _ _).trans_lt hbody⟩
  refine ⟨?_, fun c => c.skel_safe A S _ hv, fun n pre hn => decodeNodeList_safe A pre hv hn⟩
  intro ops rs hrun r hr
  have hstart : ∀ x ∈ [Reading.mk (dmInitAvpgrp (body ++ behind) body.length) []], x.Inv (8 ≤ behind.length) := by
    intro x hx
    rw [List.mem_singleton.mp hx]
    refine ⟨hv, fun h8 => ?_, fun a ha => absurd ha List.not_mem_nil, List.Pairwise.nil⟩
    unfold Roomy
    simp only [dmInitAvpgrp, List.length_append]
    omega
  have hinv := Run.run_keeps (P := fun rs : List Reading => ∀ r ∈ rs, r.Inv (8 ≤ behind.length))
    (fun s op s' h hs => readStep_inv h hs) hrun hstart r hr
  exact ⟨hinv.sound, fun h8 => dmExpectAvp_returns hinv.valid (hinv.roomy h8)⟩

/-- An AVP that claims to be longer than its packet. -/
theorem malformed_safe_long :
    (∀ ops rs, Run.run readStep [⟨dmInitAvpgrp ([0, 0, 3, 232, 128, 0, 1, 0] ++ List.replicate 8 7) 8, []⟩] ops = some rs →
      ∀ r ∈ rs, r.Sound ∧ (8 ≤ 8 → ∃ x, dmExpectAvp r.grp = some x)) ∧
    NodeSafe (dmInitAvpgrp ([0, 0, 3, 232, 128, 0, 1, 0] ++ List.replicate 8 7) 8)
      (decodeNodeList ⟨fun _ => true, fun _ => 0⟩ 9 [] (dmInitAvpgrp ([0, 0, 3, 232, 128, 0, 1, 0] ++ List.replicate 8 7) 8)) := by
  have h := malformed_safe ⟨fun _ => true, fun _ => 0⟩ Server.sampleSchema [0, 0, 3, 232, 128, 0, 1, 0]
    (List.replicate 8 7) (by decide)
  exact ⟨h.1, h.2.2 9 [] (by decide)⟩

end Mand.Rpc
