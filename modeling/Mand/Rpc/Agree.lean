import Mand.Msg.RoundTrip
import Mand.Rpc.Stub

/-! # Stubs against skeletons

Readers on the bytes of an AVP list. A reader that fits the list moves from one list to the rest of it and
returns what the list was made from; the skeletons are composed of such readers. -/
namespace Mand.Rpc
open Mand.Bytes Mand.Msg Mand.Store Mand.Notify
set_option autoImplicit false

variable {α β : Type}

/-! ## Positions -/

/-- The rest of the group holds these AVPs. -/
def At (grp : Dm2AvpGrp) (avps : Avps) : Prop :=
  ∃ front back, grp.data = front ++ wire avps ++ back ∧ grp.pos = front.length ∧
    grp.size = front.length + (wire avps).length ∧ grp.size < 2 ^ 24

/-- On these AVPs the reader returns `a` and leaves the rest. -/
def ReadsTo (x : Expect α) (avps rest : Avps) (a : α) : Prop :=
  ∀ grp, At grp avps → ∃ grp', x grp = .ok (.ok a, grp') ∧ At grp' rest

theorem ReadsTo.pure (a : α) (avps : Avps) : ReadsTo (Pure.pure a : Expect α) avps avps a := fun grp h => ⟨grp, rfl, h⟩

theorem ReadsTo.bind {x : Expect α} {f : α → Expect β} {l1 l2 l3 : Avps} {a : α} {b : β} (hx : ReadsTo x l1 l2 a)
    (hf : ReadsTo (f a) l2 l3 b) : ReadsTo (x >>= f) l1 l3 b := by
  intro grp h
  obtain ⟨g1, h1, hat1⟩ := hx grp h
  obtain ⟨g2, h2, hat2⟩ := hf g1 hat1
  refine ⟨g2, ?_, hat2⟩
  show Expect.bind x f grp = _
  rw [Expect.bind, h1]
  exact h2

theorem ReadsTo.map {x : Expect α} {l1 l2 : Avps} {a : α} (hx : ReadsTo x l1 l2 a) (f : α → β) :
    ReadsTo (do return f (← x)) l1 l2 (f a) := hx.bind (.pure (f a) l2)

theorem wire_group (code vendorId : UInt32) (content rest : Avps) :
    wire (.group code vendorId content rest) = wire (.avp code vendorId (wire content) rest) := by
  have hpad := pad32_of_dvd _ (Nat.dvd_add (four_dvd_headLen vendorId) (four_dvd_wire content))
  simp [wire, avpBytes, hpad]

theorem At.of_wire {grp : Dm2AvpGrp} {l1 l2 : Avps} (h : At grp l1) (hw : wire l1 = wire l2) : At grp l2 := by
  unfold At at h ⊢
  rw [← hw]
  exact h

/-- One AVP, with its payload at the front of the memory that it refers to. -/
theorem dmExpectAvp_at {grp : Dm2AvpGrp} {code vendorId : UInt32} {data : List UInt8} {rest : Avps}
    (h : At grp (.avp code vendorId data rest)) :
    ∃ off grp' back, dmExpectAvp grp = some (.ok ⟨code, vendorId, off, data.length⟩, grp') ∧ At grp' rest ∧
      grp'.data.drop off = data ++ back ∧ off ≤ grp'.data.length ∧ data.length < 2 ^ 24 := by
  obtain ⟨front, back, hdata, hpos, hsize, hmax⟩ := h
  have hw := avpBytes_length code vendorId data
  have hpad := le_pad32 (headLen vendorId + data.length)
  have hlen := hsize
  rw [wire, List.length_append, hw] at hlen
  let zeros := List.replicate (pad32 (headLen vendorId + data.length) - (headLen vendorId + data.length)) (0 : UInt8)
  have hsplit : grp.data = front ++ avpHead code vendorId (headLen vendorId + data.length) ++ data ++
      (zeros ++ wire rest ++ back) := by
    rw [hdata, wire, avpBytes]
    simp only [zeros, List.append_assoc]
  refine ⟨_, _, zeros ++ wire rest ++ back, dmExpectAvp_head grp front data (zeros ++ wire rest ++ back) code vendorId
    hsplit hpos (by omega) (by omega) (by omega), ?_, ?_, ?_, by omega⟩
  · refine ⟨front ++ avpBytes code vendorId data, back, ?_, ?_, ?_, hmax⟩
    · rw [hdata, wire]
      simp only [List.append_assoc]
    · rw [List.length_append, hw]
    · rw [List.length_append, hw]
      simp only
      omega
  · show grp.data.drop (front.length + headLen vendorId) = _
    rw [hsplit, List.append_assoc, List.drop_left' (by simp)]
  · show front.length + headLen vendorId ≤ grp.data.length
    rw [hsplit]
    simp only [List.length_append, avpHead_length]
    omega

theorem payload_of_drop {grp : Dm2AvpGrp} {code vendorId : UInt32} {off : ℕ} {data back : List UInt8}
    (h : grp.data.drop off = data ++ back) (hoff : off ≤ grp.data.length) :
    payload ⟨code, vendorId, off, data.length⟩ grp = .ok (.ok data, grp) := by
  have hle : off + data.length ≤ grp.data.length := by
    have hl := congrArg List.length h
    rw [List.length_drop, List.length_append] at hl
    omega
  rw [payload, peek_some _ _ _ hle, h, List.take_left' rfl]

/-! ## Reads of the library -/

theorem dmExpectValue_reads (avp : Dm2Avp) (rest : Avps) : ReadsTo dmExpectValue (addRaw avp rest) rest avp := by
  intro grp h
  obtain ⟨off, g, back, hexp, hat, hdrop, hoff, -⟩ := dmExpectAvp_at h
  refine ⟨g, ?_, hat⟩
  show Expect.bind (call dmExpectAvp) _ grp = _
  simp only [Expect.bind, call, hexp]
  show Expect.bind (payload _) _ g = _
  rw [Expect.bind, payload_of_drop hdrop hoff]
  rfl

theorem dmExpectRaw_at {grp : Dm2AvpGrp} {code : UInt32} {data : List UInt8} {rest : Avps}
    (h : At grp (.avp code vpTravelping data rest)) :
    ∃ off grp' back, dmExpectRaw grp code vpTravelping = some (.ok ⟨code, vpTravelping, off, data.length⟩, grp') ∧
      At grp' rest ∧ grp'.data.drop off = data ++ back ∧ off ≤ grp'.data.length ∧ data.length < 2 ^ 24 := by
  obtain ⟨off, g, back, hexp, hrest⟩ := dmExpectAvp_at h
  refine ⟨off, g, back, ?_, hrest⟩
  simp only [dmExpectRaw, hexp, Option.bind_eq_bind, Option.bind_some, ne_eq, not_true, or_self, if_false]

theorem dmExpectBin_reads (code : UInt32) (data : List UInt8) (rest : Avps) :
    ReadsTo (dmExpectBin code) (.avp code vpTravelping data rest) rest data := by
  intro grp h
  obtain ⟨off, g, back, hexp, hat, hdrop, hoff, -⟩ := dmExpectRaw_at h
  refine ⟨g, ?_, hat⟩
  show Expect.bind (call fun grp => dmExpectRaw grp code vpTravelping) _ grp = _
  simp only [Expect.bind, call, hexp]
  exact payload_of_drop hdrop hoff

theorem cString_eq (s : CString) : cString s.val = s.val := by
  refine List.takeWhile_eq_self_iff.mpr fun b hb => ?_
  have hne : b ≠ 0 := fun h0 => s.property (h0 ▸ hb)
  simpa using hne

section Strings
variable (A : Talloc) (hA : ∀ n, A.grants n = true)
include hA

theorem dmExpectString_reads (code : UInt32) (s : CString) (rest : Avps) :
    ReadsTo (dmExpectString A code) (addString code s rest) rest s.val := by
  refine (dmExpectBin_reads code s.val rest).bind ?_
  rw [cString_eq, if_pos (hA _)]
  exact .pure _ _

theorem dmExpectPath_reads (S : Schema) (path : CString) (sel : Selector) (hsel : CString.sel S path = some sel)
    (rest : Avps) : ReadsTo (dmExpectPath A S avpPath) (addString avpPath path rest) rest sel := by
  refine (dmExpectString_reads A hA avpPath path rest).bind ?_
  have hname : dmName2sel S (path.val.map UInt8.toNat) = some sel := hsel
  rw [hname]
  exact .pure _ _

end Strings

theorem dmExpectNumber_reads (code : UInt32) (w n : ℕ) (hn : n < 256 ^ w) (rest : Avps) :
    ReadsTo (dmExpectNumber code w) (.avp code vpTravelping (be w n) rest) rest n := by
  intro grp h
  obtain ⟨g, hbin, hat⟩ := dmExpectBin_reads code (be w n) rest grp h
  refine ⟨g, ?_, hat⟩
  simp only [dmExpectNumber, hbin, be_length, if_true, ofBe_be_of_lt w n hn]

theorem dmExpectUint8_reads (code : UInt32) (n : UInt8) (rest : Avps) :
    ReadsTo (dmExpectUint8 code) (addUint8 code n rest) rest n := by
  have h := (dmExpectNumber_reads code 1 n.toNat n.toNat_lt rest).map UInt8.ofNat
  rwa [UInt8.ofNat_toNat] at h

theorem dmExpectUint16_reads (code : UInt32) (n : UInt16) (rest : Avps) :
    ReadsTo (dmExpectUint16 code) (addUint16 code n rest) rest n := by
  have h := (dmExpectNumber_reads code 2 n.toNat n.toNat_lt rest).map UInt16.ofNat
  rwa [UInt16.ofNat_toNat] at h

theorem dmExpectUint32_reads (code : UInt32) (n : UInt32) (rest : Avps) :
    ReadsTo (dmExpectUint32 code) (addUint32 code n rest) rest n := by
  have h := (dmExpectNumber_reads code 4 n.toNat n.toNat_lt rest).map UInt32.ofNat
  rwa [UInt32.ofNat_toNat] at h

theorem dmExpectInt32_reads (code : UInt32) (n : Int32) (rest : Avps) :
    ReadsTo (dmExpectInt32 code) (addInt32 code n rest) rest n := by
  have h := (dmExpectNumber_reads code 4 n.toUInt32.toNat n.toUInt32.toNat_lt rest).map
    fun n => (UInt32.ofNat n).toInt32
  rw [UInt32.ofNat_toNat] at h
  exact h

theorem At.end_iff {grp : Dm2AvpGrp} {avps : Avps} (h : At grp avps) : atEnd grp = true ↔ wire avps = [] := by
  obtain ⟨front, back, -, hpos, hsize, -⟩ := h
  rw [← List.length_eq_zero_iff]
  unfold atEnd dmExpectGroupEnd
  by_cases hp : grp.pos = grp.size
  · simp only [hp, if_true, decide_true, true_iff]
    omega
  · simp only [hp, if_false, reduceCtorEq, decide_false, false_iff, Bool.false_eq_true]
    omega

theorem At.end {grp : Dm2AvpGrp} (h : At grp .nil) : atEnd grp = true := h.end_iff.mpr rfl

theorem dmExpectEnd_reads : ReadsTo dmExpectEnd .nil .nil () := by
  intro grp h
  refine ⟨grp, ?_, h⟩
  have hend : dmExpectGroupEnd grp = .ok := of_decide_eq_true h.end
  rw [dmExpectEnd, hend]

theorem dmExpectObject_at {grp : Dm2AvpGrp} {content rest : Avps} (h : At grp (addObject content rest)) :
    ∃ obj grp', dmExpectObject grp = .ok (.ok obj, grp') ∧ At obj content ∧ At grp' rest := by
  obtain ⟨off, g, back, hexp, hat, hdrop, hoff, hlt⟩ := dmExpectRaw_at (h.of_wire (wire_group _ _ content rest))
  refine ⟨dmInitAvpgrp (g.data.drop off) (wire content).length, g, ?_, ?_, hat⟩
  · simp only [dmExpectObject, call, dmExpectGroup, hexp, Option.bind_eq_bind, Option.bind_some]
  · exact ⟨[], back, by simpa [dmInitAvpgrp] using hdrop, rfl, by simp [dmInitAvpgrp], hlt⟩

/-! ## Lists -/

section Lists
variable {γ : Type} {item : Expect α} {add : γ → Avps → Avps} {img : γ → Option α}

/-- Every element takes bytes, and the reader of the loop reads it. -/
structure Listed (item : Expect α) (add : γ → Avps → Avps) (img : γ → Option α) : Prop where
  longer : ∀ c rest, (wire rest).length < (wire (add c rest)).length
  reads : ∀ c a rest, img c = some a → ReadsTo item (add c rest) rest a

theorem Listed.length_le (h : Listed item add img) (l : List γ) : l.length ≤ (wire (l.foldr add .nil)).length := by
  induction l with
  | nil => exact Nat.zero_le _
  | cons c l ih =>
    have h1 := h.longer c (l.foldr add .nil)
    rw [List.foldr_cons, List.length_cons]
    omega

/-- The loop with the right test reads the whole list. -/
theorem Listed.loop (h : Listed item add img) (A : Talloc) (hA : ∀ n, A.grants n = true) (width : ℕ) (l : List γ)
    (vals acc : List α) (hl : l ≠ []) (hvals : l.mapM img = some vals) (n : ℕ) (hn : l.length ≤ n) :
    ReadsTo (listLoop A width item atEnd n acc) (l.foldr add .nil) .nil (acc ++ vals) := by
  induction l generalizing n acc vals with
  | nil => exact absurd rfl hl
  | cons c l ih =>
    obtain ⟨n, rfl⟩ : ∃ k, n = k + 1 := ⟨n - 1, by rw [List.length_cons] at hn; omega⟩
    simp only [List.mapM_cons, Option.bind_eq_bind, Option.bind_eq_some_iff, Option.pure_def, Option.some.injEq] at hvals
    obtain ⟨a, ha, rest, hrest, rfl⟩ := hvals
    intro grp hat
    obtain ⟨g, hread, hat'⟩ := h.reads c a _ ha grp hat
    have hgrant : ¬(acc.length % 16 = 0 ∧ A.grants ((acc.length + 16) * width) = false) := by
      rw [hA]
      simp
    simp only [listLoop, if_neg hgrant, hread]
    cases l with
    | nil =>
      cases hrest
      rw [if_pos hat'.end]
      exact ⟨g, rfl, hat'⟩
    | cons c' l =>
      have hmore : ¬atEnd g = true := by
        intro hend
        have h0 := hat'.end_iff.mp hend
        have h1 := h.longer c' (l.foldr add .nil)
        rw [List.foldr_cons] at h0
        rw [h0] at h1
        exact absurd h1 (Nat.not_lt_zero _)
      rw [if_neg hmore]
      obtain ⟨g2, hloop, hat2⟩ := ih rest (acc ++ [a]) (List.cons_ne_nil _ _) hrest n (Nat.le_of_succ_le_succ hn) g hat'
      refine ⟨g2, ?_, hat2⟩
      rw [hloop, List.append_assoc]
      rfl

/-- The same with as many rounds as the group has bytes. -/
theorem Listed.fill (h : Listed item add img) (A : Talloc) (hA : ∀ n, A.grants n = true) (width : ℕ) (l : List γ)
    (vals : List α) (hl : l ≠ []) (hvals : l.mapM img = some vals) :
    ReadsTo (fun obj => listLoop A width item atEnd (obj.size + 1) [] obj) (l.foldr add .nil) .nil vals := by
  intro grp hat
  have hle : l.length ≤ grp.size + 1 := by
    have h1 := h.length_le l
    obtain ⟨front, back, -, -, hsize, -⟩ := hat
    omega
  exact h.loop A hA width l vals [] hl hvals _ hle grp hat

end Lists

theorem avp_longer (code vendorId : UInt32) (data : List UInt8) (rest : Avps) :
    (wire rest).length < (wire (.avp code vendorId data rest)).length := by
  have h8 := eight_le_headLen vendorId
  have hpad := le_pad32 (headLen vendorId + data.length)
  rw [wire, List.length_append, avpBytes_length]
  omega

theorem paths_listed (A : Talloc) (hA : ∀ n, A.grants n = true) (S : Schema) :
    Listed (dmExpectPath A S avpPath) (addString avpPath) (CString.sel S) :=
  ⟨fun _ _ => avp_longer _ _ _ _, fun c a rest h => dmExpectPath_reads A hA S c a h rest⟩

theorem strings_listed (A : Talloc) (hA : ∀ n, A.grants n = true) (code : UInt32) :
    Listed (dmExpectString A code) (addString code) (fun s => some s.val) := by
  refine ⟨fun _ _ => avp_longer _ _ _ _, fun c a rest h => ?_⟩
  cases h
  exact dmExpectString_reads A hA code c rest

theorem SetValue.avp_reads (v : SetValue) : ReadsTo dmExpectValue v.add .nil v.avp := by
  cases v with
  | raw avp plain => exact dmExpectValue_reads avp .nil
  | array items =>
    intro grp h
    exact dmExpectValue_reads ⟨avpArray, vpTravelping, wire (addItems items)⟩ .nil grp (h.of_wire (wire_group _ _ _ _))

theorem values_listed (A : Talloc) (hA : ∀ n, A.grants n = true) (S : Schema) :
    Listed (pathValue A S) addPathValue (fun v => (CString.sel S v.1).map (·, v.2.avp)) := by
  refine ⟨fun v rest => ?_, fun v a rest h => ?_⟩
  · rw [addPathValue, addObject, wire_group]
    exact avp_longer _ _ _ _
  · obtain ⟨sel, hsel, rfl⟩ := Option.map_eq_some_iff.mp h
    intro grp hat
    obtain ⟨obj, g, hobj, hin, hout⟩ := dmExpectObject_at hat
    have hbody : ReadsTo (do
        let path ← dmExpectPath A S avpPath
        let value ← dmExpectValue
        dmExpectEnd
        return (path, value)) (addString avpPath v.1 v.2.add) .nil (sel, v.2.avp) :=
      (dmExpectPath_reads A hA S v.1 sel hsel v.2.add).bind
        (v.2.avp_reads.bind (dmExpectEnd_reads.bind (.pure (sel, v.2.avp) .nil)))
    obtain ⟨g1, hread, -⟩ := hbody obj hin
    refine ⟨g, ?_, hout⟩
    show Expect.bind dmExpectObject _ grp = _
    rw [Expect.bind, hobj]
    show inGroup obj _ g = _
    rw [inGroup]
    simp only [hread]

/-! ## Arrays -/

theorem items_listed : Listed dmExpectValue addRaw some := by
  refine ⟨fun _ _ => avp_longer _ _ _ _, fun c a rest h => ?_⟩
  cases h
  exact dmExpectValue_reads c rest

theorem arrayItems_reads (items acc : List Dm2Avp) (n : ℕ) (hn : items.length < n) :
    ReadsTo (arrayItems n acc) (addItems items) .nil (acc ++ items) := by
  induction items generalizing n acc with
  | nil =>
    obtain ⟨n, rfl⟩ : ∃ k, n = k + 1 := ⟨n - 1, by omega⟩
    intro grp hat
    simp only [arrayItems, if_pos hat.end, List.append_nil]
    exact ⟨grp, rfl, hat⟩
  | cons a items ih =>
    rw [List.length_cons] at hn
    obtain ⟨n, rfl⟩ : ∃ k, n = k + 1 := ⟨n - 1, by omega⟩
    intro grp hat
    have hmore : ¬atEnd grp = true := by
      intro hend
      have h0 := hat.end_iff.mp hend
      have h1 := avp_longer a.code a.vendorId a.data (addItems items)
      rw [show wire (.avp a.code a.vendorId a.data (addItems items)) = [] from h0] at h1
      exact absurd h1 (Nat.not_lt_zero _)
    have hstep : ReadsTo (dmExpectValue >>= fun a => arrayItems n (acc ++ [a])) (addItems (a :: items)) .nil
        (acc ++ [a] ++ items) := (dmExpectValue_reads a (addItems items)).bind (ih (acc ++ [a]) n (by omega))
    obtain ⟨g, hread, hat'⟩ := hstep grp hat
    refine ⟨g, ?_, hat'⟩
    simp only [arrayItems, if_neg hmore, hread, List.append_assoc, List.singleton_append]

theorem readArray_eq (items : List Dm2Avp) (h : (wire (addItems items)).length < 2 ^ 24) :
    readArray (SetValue.array items).avp = some items := by
  have hlen : items.length ≤ (wire (addItems items)).length :=
    items_listed.length_le items
  obtain ⟨g, hread, -⟩ := arrayItems_reads items [] ((wire (addItems items)).length + 1) (by omega)
    (dmInitAvpgrp (wire (addItems items)) (wire (addItems items)).length)
    ⟨[], [], by simp [dmInitAvpgrp], rfl, by simp [dmInitAvpgrp], h⟩
  simp only [readArray, SetValue.avp, hread, List.nil_append]

/-! ## Skeletons -/

/-- What is left of a request: one path of the list that `rpc_param_notify_skel` reads, and the low bits of a
level. -/
def Request.cut : Request → Request
  | .paramNotify notify paths => .paramNotify notify.toUInt8.toUInt32 (paths.take 1)
  | .recursiveParamNotify notify path => .recursiveParamNotify notify.toUInt8.toUInt32 path
  | .dbList level path => .dbList level.toUInt32.toUInt16.toUInt32.toInt32 path
  | r => r

section Skeletons
variable (A : Talloc) (hA : ∀ n, A.grants n = true) (S : Schema)

theorem emptySkel_reads (inv : Invocation) : ReadsTo (emptySkel inv) .nil .nil inv :=
  dmExpectEnd_reads.bind (.pure inv .nil)

theorem session_reads (flags : UInt32) (timeout : Int32) (mk : UInt32 → Int32 → Invocation) :
    ReadsTo (do
      let flags ← dmExpectUint32 avpUint32
      let timeout ← dmExpectInt32 avpInt32
      dmExpectEnd
      return mk flags timeout) (addUint32 avpUint32 flags (addInt32 avpInt32 timeout .nil)) .nil (mk flags timeout) :=
  (dmExpectUint32_reads avpUint32 flags _).bind
    ((dmExpectInt32_reads avpInt32 timeout .nil).bind (dmExpectEnd_reads.bind (.pure _ .nil)))

include hA

/-- The end of the outer group is reached before the loop begins, so it ends after one round. -/
theorem paramNotifySkel_reads (notify : UInt8) (path : CString) (paths : List CString) (sel : Selector)
    (hsel : CString.sel S path = some sel) :
    ReadsTo (paramNotifySkel A S) (addUint8 avpNotifyLevel notify (addObject (addStrings avpPath (path :: paths)) .nil))
      .nil (.paramNotify notify.toUInt32 [sel]) := by
  refine (dmExpectUint8_reads avpNotifyLevel notify _).bind ?_
  intro grp hat
  obtain ⟨obj, g, hobj, hin, hout⟩ := dmExpectObject_at hat
  obtain ⟨g1, hread, -⟩ := dmExpectPath_reads A hA S path sel hsel (addStrings avpPath paths) obj hin
  have hend : dmExpectEnd g = .ok (.ok (), g) := by
    have h0 : dmExpectGroupEnd g = .ok := of_decide_eq_true hout.end
    rw [dmExpectEnd, h0]
  refine ⟨g, ?_, hout⟩
  have hloop : listLoop A 32 (dmExpectPath A S avpPath) (fun _ => atEnd g) (obj.size + 1) [] obj =
      .ok (.ok [sel], g1) := by
    have hgrant : ¬(([] : List Selector).length % 16 = 0 ∧ A.grants ((([] : List Selector).length + 16) * 32) = false) := by
      rw [hA]
      simp
    simp only [listLoop, if_neg hgrant, hread, if_pos hout.end, List.nil_append]
  show Expect.bind dmExpectObject _ grp = _
  rw [Expect.bind, hobj]
  show Expect.bind dmExpectEnd _ g = _
  rw [Expect.bind, hend]
  show Expect.bind (fun o => inGroup obj (listLoop A 32 (dmExpectPath A S avpPath) (fun _ => atEnd o) (obj.size + 1) [])
    o) _ g = _
  simp only [Expect.bind, inGroup, hloop]
  rfl

theorem recursiveParamNotifySkel_reads (notify : UInt8) (path : CString) (sel : Selector)
    (hsel : CString.sel S path = some sel) :
    ReadsTo (recursiveParamNotifySkel A S) (addUint8 avpNotifyLevel notify (addString avpPath path .nil)) .nil
      (.recursiveParamNotify notify.toUInt32 sel) :=
  (dmExpectUint8_reads avpNotifyLevel notify _).bind
    ((dmExpectPath_reads A hA S path sel hsel .nil).bind (dmExpectEnd_reads.bind (.pure _ .nil)))

theorem dbAddinstanceSkel_reads (path : CString) (id : UInt16) (sel : Selector) (hsel : CString.sel S path = some sel) :
    ReadsTo (dbAddinstanceSkel A S) (addString avpPath path (addUint16 avpUint16 id .nil)) .nil (.dbAddinstance sel id) :=
  (dmExpectPath_reads A hA S path sel hsel _).bind ((dmExpectUint16_reads avpUint16 id .nil).bind (.pure _ .nil))

theorem dbDelinstanceSkel_reads (path : CString) (sel : Selector) (hsel : CString.sel S path = some sel) :
    ReadsTo (dbDelinstanceSkel A S) (addString avpPath path .nil) .nil (.dbDelinstance sel) :=
  (dmExpectPath_reads A hA S path sel hsel .nil).bind (.pure _ .nil)

theorem dbListSkel_reads (level : UInt16) (path : CString) (sel : Selector) (hsel : CString.sel S path = some sel) :
    ReadsTo (dbListSkel A S) (addUint16 avpUint16 level (addString avpPath path .nil)) .nil
      (.dbList level.toUInt32.toInt32 sel) :=
  (dmExpectUint16_reads avpUint16 level _).bind
    ((dmExpectPath_reads A hA S path sel hsel .nil).bind (dmExpectEnd_reads.bind (.pure _ .nil)))

theorem dbRetrieveEnumSkel_reads (path : CString) (sel : Selector) (hsel : CString.sel S path = some sel) :
    ReadsTo (dbRetrieveEnumSkel A S) (addString avpPath path .nil) .nil (.dbRetrieveEnum sel) :=
  (dmExpectPath_reads A hA S path sel hsel .nil).bind (dmExpectEnd_reads.bind (.pure _ .nil))

theorem dbDumpSkel_reads (path : CString) :
    ReadsTo (dbDumpSkel A) (addString avpPath path .nil) .nil (.dbDump path.val) :=
  (dmExpectString_reads A hA avpPath path .nil).bind (dmExpectEnd_reads.bind (.pure _ .nil))

theorem dbFindinstanceSkel_reads (path name : CString) (search : Dm2Avp) (sel : Selector)
    (hsel : CString.sel S path = some sel) :
    ReadsTo (dbFindinstanceSkel A S) (addString avpPath path (addString avpPath name (addRaw search .nil))) .nil
      (.dbFindinstance sel name.val search) :=
  (dmExpectPath_reads A hA S path sel hsel _).bind ((dmExpectBin_reads avpPath name.val _).bind
    ((dmExpectValue_reads search .nil).bind (dmExpectEnd_reads.bind (.pure _ .nil))))

theorem registerRoleSkel_reads (role : CString) :
    ReadsTo (registerRoleSkel A) (addString avpString role .nil) .nil (.registerRole role.val) :=
  (dmExpectString_reads A hA avpString role .nil).bind (dmExpectEnd_reads.bind (.pure _ .nil))

theorem firmwareDownloadSkel_reads (address : CString) (credentialstype : UInt8) (credential installTarget : CString)
    (timeframe : UInt32) (retryCount : UInt8) (retryInterval retryIntervalIncrement : UInt32) :
    ReadsTo (firmwareDownloadSkel A) (Request.avps (.firmwareDownload address credentialstype credential installTarget
      timeframe retryCount retryInterval retryIntervalIncrement)) .nil (.firmwareDownload address.val credentialstype
      credential.val installTarget.val timeframe retryCount retryInterval retryIntervalIncrement) :=
  (dmExpectString_reads A hA avpString address _).bind <| (dmExpectUint8_reads avpUint8 credentialstype _).bind <|
    (dmExpectString_reads A hA avpString credential _).bind <|
    (dmExpectString_reads A hA avpString installTarget _).bind <| (dmExpectUint32_reads avpUint32 timeframe _).bind <|
    (dmExpectUint8_reads avpUint8 retryCount _).bind <| (dmExpectUint32_reads avpUint32 retryInterval _).bind <|
    (dmExpectUint32_reads avpUint32 retryIntervalIncrement .nil).bind <| dmExpectEnd_reads.bind (.pure _ .nil)

omit hA in
theorem firmwareCommitSkel_reads (jobId : Int32) :
    ReadsTo firmwareCommitSkel (addInt32 avpInt32 jobId .nil) .nil (.firmwareCommit jobId) :=
  (dmExpectInt32_reads avpInt32 jobId .nil).bind (dmExpectEnd_reads.bind (.pure _ .nil))

/-- **Every skeleton on the packet of its stub.** It calls the implementation with what is left of the
request. -/
theorem Command.skel_reads (r : Request) (hacc : r.Accepted) (inv : Invocation) (h : r.cut.invocation S = some inv) :
    ReadsTo (r.command.skel A S) r.avps .nil inv := by
  cases r with
  | startsession flags timeout =>
    cases h
    exact session_reads flags timeout _
  | switchsession flags timeout =>
    cases h
    exact session_reads flags timeout _
  | paramNotify notify paths =>
    cases paths with
    | nil => exact absurd rfl hacc
    | cons path paths =>
      obtain ⟨sels, hsels, rfl⟩ := Option.map_eq_some_iff.mp h
      simp only [List.take_succ_cons, List.take_zero, List.mapM_cons, List.mapM_nil, Option.bind_eq_bind,
        Option.bind_eq_some_iff, Option.pure_def, Option.some.injEq] at hsels
      obtain ⟨sel, hsel, _, rfl, rfl⟩ := hsels
      exact paramNotifySkel_reads A hA S notify.toUInt8 path paths sel hsel
  | recursiveParamNotify notify path =>
    obtain ⟨sel, hsel, rfl⟩ := Option.map_eq_some_iff.mp h
    exact recursiveParamNotifySkel_reads A hA S notify.toUInt8 path sel hsel
  | dbAddinstance path id =>
    obtain ⟨sel, hsel, rfl⟩ := Option.map_eq_some_iff.mp h
    exact dbAddinstanceSkel_reads A hA S path id sel hsel
  | dbDelinstance path =>
    obtain ⟨sel, hsel, rfl⟩ := Option.map_eq_some_iff.mp h
    exact dbDelinstanceSkel_reads A hA S path sel hsel
  | dbSet values =>
    obtain ⟨vals, hvals, rfl⟩ := Option.map_eq_some_iff.mp h
    exact ((values_listed A hA S).fill A hA 56 values vals hacc hvals).bind (.pure _ .nil)
  | dbGet paths =>
    obtain ⟨sels, hsels, rfl⟩ := Option.map_eq_some_iff.mp h
    exact ((paths_listed A hA S).fill A hA 32 paths sels hacc hsels).bind (.pure _ .nil)
  | dbList level path =>
    obtain ⟨sel, hsel, rfl⟩ := Option.map_eq_some_iff.mp h
    exact dbListSkel_reads A hA S level.toUInt32.toUInt16 path sel hsel
  | dbRetrieveEnum path =>
    obtain ⟨sel, hsel, rfl⟩ := Option.map_eq_some_iff.mp h
    exact dbRetrieveEnumSkel_reads A hA S path sel hsel
  | dbDump path =>
    cases h
    exact dbDumpSkel_reads A hA path
  | dbFindinstance path name search =>
    obtain ⟨sel, hsel, rfl⟩ := Option.map_eq_some_iff.mp h
    exact dbFindinstanceSkel_reads A hA S path name search sel hsel
  | registerRole role =>
    cases h
    exact registerRoleSkel_reads A hA role
  | firmwareDownload address credentialstype credential installTarget timeframe retryCount retryInterval
      retryIntervalIncrement =>
    cases h
    exact firmwareDownloadSkel_reads A hA address credentialstype credential installTarget timeframe retryCount
      retryInterval retryIntervalIncrement
  | firmwareCommit jobId =>
    cases h
    exact firmwareCommitSkel_reads jobId
  | setBootOrder bootOrder =>
    cases h
    have hvals : bootOrder.mapM (fun s : CString => some s.val) = some (bootOrder.map Subtype.val) := List.mapM_pure
    exact ((strings_listed A hA avpString).fill A hA 8 bootOrder _ hacc hvals).bind (.pure _ .nil)
  | _ =>
    cases h
    exact emptySkel_reads _

end Skeletons

/-! ## Requests -/

theorem addStrings_depth (code : UInt32) (l : List CString) : (addStrings code l).depth = 0 := by
  induction l with
  | nil => rfl
  | cons s l ih => exact ih

theorem addItems_depth (items : List Dm2Avp) : (addItems items).depth = 0 := by
  induction items with
  | nil => rfl
  | cons a items ih => exact ih

theorem SetValue.add_depth (v : SetValue) : v.add.depth ≤ 1 := by
  cases v with
  | raw avp plain => exact Nat.zero_le 1
  | array items => simp [SetValue.add, Avps.depth, addItems_depth]

theorem addPathValues_depth (values : List (CString × SetValue)) : (values.foldr addPathValue .nil).depth ≤ 2 := by
  induction values with
  | nil => exact Nat.zero_le 2
  | cons v values ih =>
    have hv := v.2.add_depth
    simp only [List.foldr_cons, addPathValue, addObject, addString, Avps.depth]
    omega

theorem Request.avps_depth (r : Request) : r.avps.depth ≤ 15 := by
  cases r with
  | paramNotify notify paths => simp [Request.avps, addUint8, addObject, Avps.depth, addStrings_depth]
  | dbSet values => exact (addPathValues_depth values).trans (by decide)
  | dbGet paths => exact (addStrings_depth avpPath paths).trans_le (by decide)
  | setBootOrder bootOrder => exact (addStrings_depth avpString bootOrder).trans_le (by decide)
  | _ => exact Nat.zero_le 15

/-- The whole packet of a request is shorter than `2 ^ 24` bytes. -/
def Request.Fits (r : Request) : Prop := sizeofDmPacket + (wire r.avps).length < 2 ^ 24

/-- The group that the server makes of the packet. -/
theorem stub_at (A : Talloc) (hA : ∀ n, A.grants n = true) (r : Request) (hfits : r.Fits) :
    ∃ req grp, stub A r = some (.ok, req) ∧ dmInitPacket req.packet = some grp ∧ At grp r.avps := by
  obtain ⟨req, n, hbuild, hpos, hpkt⟩ := buildPacket_eq A hA r.command.code cmdFlagRequest appId 0 0 r.avps r.avps_depth
  unfold Request.Fits at hfits
  have hlength : dmPacketLength req.packet = some (req.grp 0).pos := by
    have h0 := peek_middle req.packet [1] (be 3 (req.grp 0).pos) ([cmdFlagRequest] ++ be 3 r.command.code.toNat ++
      be 4 appId.toNat ++ be 4 (0 : UInt32).toNat ++ be 4 (0 : UInt32).toNat ++ wire r.avps ++
      List.replicate n 0) 1 3 (by rw [hpkt]; simp only [packetHead, List.append_assoc]) rfl (by simp)
    rw [dmPacketLength, h0, Option.map_some, ofBe_be_of_lt 3 _ (by omega)]
  have hsize : sizeT ((req.grp 0).pos + 2 ^ 64 - sizeofDmPacket) = (wire r.avps).length := by
    rw [hpos]
    unfold sizeT sizeofDmPacket at *
    omega
  have hdrop : req.packet.drop sizeofDmPacket = wire r.avps ++ List.replicate n 0 := by
    rw [hpkt, List.append_assoc, List.drop_left' (packetHead_length _ _ _ _ _ _)]
  refine ⟨req, dmInitAvpgrp (req.packet.drop sizeofDmPacket) (wire r.avps).length, hbuild, ?_, ?_⟩
  · rw [dmInitPacket, hlength, Option.bind_eq_bind, Option.bind_some, hsize]
  · exact ⟨[], List.replicate n 0, by simpa [dmInitAvpgrp] using hdrop, rfl, by simp [dmInitAvpgrp],
      by simp only [dmInitAvpgrp]; omega⟩

theorem addPathValues_array (values : List (CString × SetValue)) (v : CString × SetValue) (hv : v ∈ values)
    (items : List Dm2Avp) (h : v.2 = .array items) :
    (wire (addItems items)).length ≤ (wire (values.foldr addPathValue .nil)).length := by
  induction values with
  | nil => cases hv
  | cons w values ih =>
    rw [List.foldr_cons, addPathValue, addObject, wire, List.length_append, List.length_append]
    rcases List.mem_cons.mp hv with rfl | hmem
    · rw [h]
      simp only [addString, SetValue.add, wire, List.length_append]
      omega
    · have h0 := ih hmem
      omega

theorem Request.arraysRead (r : Request) (hfits : r.Fits) : r.ArraysRead := by
  cases r with
  | dbSet values =>
    intro v hv items h
    have hle := addPathValues_array values v hv items h
    have hlt : sizeofDmPacket + (wire (values.foldr addPathValue .nil)).length < 2 ^ 24 := hfits
    rw [h]
    exact readArray_eq items (by omega)
  | _ => trivial

/-- The requests of which nothing is cut off. -/
def Request.Faithful : Request → Prop
  | .paramNotify notify paths => notify < 256 ∧ paths.length = 1
  | .recursiveParamNotify notify _ => notify < 256
  | .dbList level _ => 0 ≤ level.toInt ∧ level.toInt < 65536
  | _ => True

theorem toUInt8_toUInt32_eq (n : UInt32) : n.toUInt8.toUInt32 = n ↔ n < 256 := by
  rw [← UInt32.toNat_inj, UInt32.lt_iff_toNat_lt]
  simp

theorem toUInt16_toInt32_eq (n : Int32) :
    n.toUInt32.toUInt16.toUInt32.toInt32 = n ↔ 0 ≤ n.toInt ∧ n.toInt < 65536 := by
  obtain ⟨u⟩ := n
  have hlt := u.toNat_lt
  have hint : (Int32.ofUInt32 u).toInt = u.toBitVec.toInt := rfl
  have hsplit : u.toBitVec.toInt = if 2 * u.toNat < 2 ^ 32 then (u.toNat : ℤ) else u.toNat - 2 ^ 32 :=
    BitVec.toInt_eq_toNat_cond _
  have heq : u.toUInt16.toUInt32 = u ↔ u.toNat < 65536 := by
    rw [← UInt32.toNat_inj]
    simp
  have hinj : Int32.ofUInt32 u.toUInt16.toUInt32 = Int32.ofUInt32 u ↔ u.toUInt16.toUInt32 = u :=
    ⟨fun h => congrArg Int32.toUInt32 h, fun h => congrArg Int32.ofUInt32 h⟩
  show Int32.ofUInt32 u.toUInt16.toUInt32 = Int32.ofUInt32 u ↔ _
  rw [hinj, heq, hint, hsplit]
  split <;> omega

theorem mapM_nil_iff {l : List α} {f : α → Option β} {l' : List β} (h : l.mapM f = some l') : l' = [] ↔ l = [] := by
  cases l with
  | nil =>
    cases h
    exact iff_of_true rfl rfl
  | cons a l =>
    simp only [List.mapM_cons, Option.bind_eq_bind, Option.bind_eq_some_iff, Option.pure_def, Option.some.injEq] at h
    obtain ⟨b, -, bs, -, rfl⟩ := h
    exact iff_of_false (List.cons_ne_nil _ _) (List.cons_ne_nil _ _)

/-- What the skeleton passes on is the whole request exactly if nothing was cut off. -/
theorem Request.cut_invocation (S : Schema) (r : Request) (hacc : r.Accepted) (h : (r.invocation S).isSome = true) :
    ∃ inv, r.cut.invocation S = some inv ∧ (r.invocation S = some inv ↔ r.Faithful) := by
  obtain ⟨inv, hinv⟩ := Option.isSome_iff_exists.mp h
  cases r with
  | paramNotify notify paths =>
    cases paths with
    | nil => exact absurd rfl hacc
    | cons path paths =>
      obtain ⟨sels, hsels, rfl⟩ := Option.map_eq_some_iff.mp hinv
      simp only [List.mapM_cons, Option.bind_eq_bind, Option.bind_eq_some_iff, Option.pure_def,
        Option.some.injEq] at hsels
      obtain ⟨sel, hsel, rest, hrest, rfl⟩ := hsels
      refine ⟨.paramNotify notify.toUInt8.toUInt32 [sel], by simp [Request.cut, Request.invocation, hsel], ?_⟩
      rw [hinv, Option.some.injEq, Invocation.paramNotify.injEq, eq_comm (a := notify), toUInt8_toUInt32_eq,
        List.cons.injEq, eq_self, true_and, mapM_nil_iff hrest]
      simp [Request.Faithful]
  | recursiveParamNotify notify path =>
    obtain ⟨sel, hsel, rfl⟩ := Option.map_eq_some_iff.mp hinv
    refine ⟨.recursiveParamNotify notify.toUInt8.toUInt32 sel, by simp [Request.cut, Request.invocation, hsel], ?_⟩
    rw [hinv, Option.some.injEq, Invocation.recursiveParamNotify.injEq, eq_comm (a := notify), toUInt8_toUInt32_eq]
    exact and_iff_left rfl
  | dbList level path =>
    obtain ⟨sel, hsel, rfl⟩ := Option.map_eq_some_iff.mp hinv
    refine ⟨.dbList level.toUInt32.toUInt16.toUInt32.toInt32 sel, by simp [Request.cut, Request.invocation, hsel], ?_⟩
    rw [hinv, Option.some.injEq, Invocation.dbList.injEq, eq_comm (a := level), toUInt16_toInt32_eq]
    exact and_iff_left rfl
  | _ => exact ⟨inv, hinv, iff_of_true hinv trivial⟩

theorem agreed_iff_cut (A : Talloc) (hA : ∀ n, A.grants n = true) (S : Schema) (r : Request) (hacc : r.Accepted)
    (inv : Invocation) (hcut : r.cut.invocation S = some inv) (hfits : r.Fits) :
    Agreed A S r ↔ r.invocation S = some inv := by
  obtain ⟨req, grp, hstub, hinit, hat⟩ := stub_at A hA r hfits
  obtain ⟨grp', hread, -⟩ := Command.skel_reads A hA S r hacc inv hcut grp hat
  constructor
  · rintro ⟨req', grp1, inv', grp2, hstub', hinit', hread', hinv', -⟩
    rw [hstub] at hstub'
    cases hstub'
    rw [hinit] at hinit'
    cases hinit'
    rw [hread] at hread'
    cases hread'
    exact hinv'
  · intro hinv
    exact ⟨req, grp, inv, grp', hstub, hinit, hread, hinv, r.arraysRead hfits⟩

/-- **Agreement.** Stub and skeleton agree on a request that fits into a packet exactly if a notification level
is below 256, a depth is below 65536 and not negative, and there is only one path to set a notification for. -/
theorem agreed_iff (A : Talloc) (hA : ∀ n, A.grants n = true) (S : Schema) (r : Request) (hacc : r.Accepted)
    (hpaths : (r.invocation S).isSome = true) (hfits : r.Fits) : Agreed A S r ↔ r.Faithful := by
  obtain ⟨inv, hcut, hiff⟩ := r.cut_invocation S hacc hpaths
  rw [← hiff]
  exact agreed_iff_cut A hA S r hacc inv hcut hfits

/-- A number and an array of two numbers. -/
def sampleSet : Request :=
  .dbSet [(⟨[118], by decide⟩, .raw ⟨avpUint32, vpTravelping, [0, 0, 0, 7]⟩ (by rintro ⟨-, h⟩; exact absurd h (by decide))),
    (⟨[119], by decide⟩, .array [⟨avpUint32, vpTravelping, [0, 0, 0, 1]⟩, ⟨avpUint32, vpTravelping, [0, 0, 0, 2]⟩])]

theorem agreed_iff_set : Agreed ⟨fun _ => true, fun _ => 0xAA⟩ Server.sampleSchema sampleSet ↔ sampleSet.Faithful :=
  agreed_iff ⟨fun _ => true, fun _ => 0xAA⟩ (fun _ => rfl) Server.sampleSchema sampleSet (List.cons_ne_nil _ _)
    (by decide) (by unfold Request.Fits; decide +kernel)

/-- Notifications for two parameters. -/
def sampleNotify : Request := .paramNotify 1 [⟨[118], by decide⟩, ⟨[110], by decide⟩]

/-- The second parameter is not passed on. -/
theorem two_paths_disagree : sampleNotify.Accepted ∧ (sampleNotify.invocation Server.sampleSchema).isSome = true ∧
    ¬Agreed ⟨fun _ => true, fun _ => 0xAA⟩ Server.sampleSchema sampleNotify := by
  refine ⟨List.cons_ne_nil _ _, by decide, ?_⟩
  rw [agreed_iff_cut _ (fun _ => rfl) _ sampleNotify (List.cons_ne_nil _ _) (.paramNotify 1 [[1]]) (by decide)
    (by unfold Request.Fits; decide +kernel)]
  decide

end Mand.Rpc
