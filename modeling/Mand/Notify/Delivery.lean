import Mand.Notify.Events
import Mand.Notify.Pending

/-! # What becomes of the items of a queue

`build_notify_events` takes an item out of its queue when it is written, and not when the message is
complete. -/
namespace Mand.Notify
open Mand.Store Mand.Msg Mand.Server Mand.Bytes
set_option autoImplicit false

/-! ## Calls in a row -/

theorem andThen_assoc (x : Call) (f g : Dm2Request → Call) :
    (x.andThen f).andThen g = x.andThen fun req => (f req).andThen g := by
  cases x with
  | none => rfl
  | some p =>
    obtain ⟨rc, req⟩ := p
    cases rc <;> rfl

theorem andThen_ok (x : Call) : (x.andThen fun req => some (.ok, req)) = x := by
  cases x with
  | none => rfl
  | some p =>
    obtain ⟨rc, req⟩ := p
    cases rc <;> rfl

theorem andThen_eq_ok {x : Call} {f : Dm2Request → Call} {req : Dm2Request} :
    x.andThen f = some (.ok, req) ↔ ∃ r, x = some (.ok, r) ∧ f r = some (.ok, req) := by
  cases x with
  | none => simp [Call.andThen]
  | some p =>
    obtain ⟨rc, r⟩ := p
    cases rc <;> simp [Call.andThen]

theorem andThen_eq_error {x : Call} {f : Dm2Request → Call} {rc : Rc} {req : Dm2Request}
    (h : x.andThen f = some (rc, req)) (hrc : rc ≠ .ok) :
    x = some (rc, req) ∨ ∃ r, x = some (.ok, r) ∧ f r = some (rc, req) := by
  cases x with
  | none => cases h
  | some p =>
    obtain ⟨rc1, r⟩ := p
    cases rc1 with
    | ok => exact .inr ⟨r, rfl, h⟩
    | _ => exact .inl h

theorem anyError_eq_ok {x : Call} {req : Dm2Request} : anyError x = some (.ok, req) ↔ x = some (.ok, req) := by
  cases x with
  | none => simp [anyError]
  | some p =>
    obtain ⟨rc, r⟩ := p
    cases rc <;> simp [anyError]

/-! ## One item -/

section Items
variable {A : Talloc} {env : EventEnv} {item : NotifyItem} {items : List NotifyItem} {req req' : Dm2Request}
  {pre : List UInt8}

def itemPath (env : EventEnv) (item : NotifyItem) : List ℕ :=
  (dmSel2name env.schema item.sb maxParamNameLen).getD []

/-- The item has a name, an element and a value that can be written. -/
def Encodable (env : EventEnv) (item : NotifyItem) : Prop :=
  (dmSel2name env.schema item.sb maxParamNameLen).isSome = true ∧ (eventBody env item (itemPath env item)).2 = none

instance : DecidablePred (Encodable env) := fun _ => inferInstanceAs (Decidable (_ ∧ _))

/-- The containers of some items. -/
def eventAvps (env : EventEnv) (items : List NotifyItem) : Avps :=
  items.foldr (fun item rest => .group avpContainer vpTravelping (eventBody env item (itemPath env item)).1 rest) .nil

theorem putAvps_cons (A : Talloc) (env : EventEnv) (item : NotifyItem) (items : List NotifyItem) (req : Dm2Request) :
    putAvps A req (eventAvps env (item :: items)) =
      (putAvps A req (eventAvps env [item])).andThen fun req => putAvps A req (eventAvps env items) := by
  simp only [eventAvps, List.foldr_cons, List.foldr_nil, putAvps, andThen_assoc, andThen_ok]

theorem wire_append (env : EventEnv) (items items' : List NotifyItem) :
    wire (eventAvps env (items ++ items')) = wire (eventAvps env items) ++ wire (eventAvps env items') := by
  induction items with
  | nil => rfl
  | cons item items ih =>
    have ih : wire (List.foldr (fun item rest => Avps.group avpContainer vpTravelping
        (eventBody env item (itemPath env item)).1 rest) .nil (items ++ items')) = _ := ih
    simp only [eventAvps, List.cons_append, List.foldr_cons, wire]
    rw [ih]
    simp only [List.append_assoc, eventAvps]

theorem addAvp_error {e : DmElement} {val : DmValue} {rc : Rc} (h : addAvp env e val = .error rc) : rc ≠ .ok := by
  rintro rfl
  unfold addAvp at h
  cases hty : e.type with
  | date =>
    simp only [hty] at h
    split at h <;> cases h
  | selector =>
    simp only [hty] at h
    split at h
    · split at h <;> cases h
    · cases h
  | ticks =>
    simp only [hty] at h
    split at h <;> cases h
  | object =>
    simp only [hty] at h
    split at h <;> cases h
  | _ =>
    simp only [hty] at h
    cases h

theorem eventBody_error {path : List ℕ} {rc : Rc} (h : (eventBody env item path).2 = some rc) : rc ≠ .ok := by
  unfold eventBody at h
  cases hty : item.type with
  | add =>
    simp only [hty] at h
    cases h
  | del =>
    simp only [hty] at h
    cases h
  | change =>
    simp only [hty] at h
    split at h
    · cases h
      decide
    · split at h
      · cases h
      · rename_i rc' herr
        cases h
        exact addAvp_error herr

/-- An item is written if it can be and its container fits. -/
theorem putEvent_eq_ok : putEvent A env item req = some (.ok, req') ↔
    Encodable env item ∧ putAvps A req (eventAvps env [item]) = some (.ok, req') := by
  unfold putEvent Encodable
  cases hname : dmSel2name env.schema item.sb maxParamNameLen with
  | none => simp
  | some path =>
    have hpath : itemPath env item = path := by
      unfold itemPath
      rw [hname]
      rfl
    simp only [Option.isSome_some, true_and, eventAvps, List.foldr_cons, List.foldr_nil, putAvps, andThen_ok, hpath]
    cases herr : (eventBody env item path).2 with
    | none => simp only [andThen_eq_ok, anyError_eq_ok, true_and]
    | some rc => simp [andThen_eq_ok, eventBody_error herr]

theorem addAvp_depth {e : DmElement} {val : DmValue} {a : Avps} (h : addAvp env e val = .ok a) : a.depth ≤ 8 := by
  have hone : ∀ {code data}, (avp code data).depth ≤ 8 := fun {_ _} => Nat.zero_le 8
  unfold addAvp at h
  cases hty : e.type with
  | date =>
    simp only [hty] at h
    split at h <;> cases h
    exact hone
  | selector =>
    simp only [hty] at h
    split at h
    · split at h <;> cases h
      exact hone
    · cases h
      exact hone
  | ticks =>
    simp only [hty] at h
    split at h <;> cases h <;> exact hone
  | object =>
    simp only [hty] at h
    split at h <;> cases h
    exact env.array_depth e val
  | none | any | inst | pointer | element =>
    simp only [hty] at h
    cases h
  | _ =>
    simp only [hty] at h
    cases h
    exact hone

theorem eventBody_depth (path : List ℕ) : (eventBody env item path).1.depth ≤ 8 := by
  unfold eventBody
  cases item.type with
  | add => exact Nat.zero_le 8
  | del => exact Nat.zero_le 8
  | change =>
    simp only
    split
    · exact Nat.zero_le 8
    · split
      · rename_i val hval
        exact (addAvp_depth hval : val.depth ≤ 8)
      · exact Nat.zero_le 8

theorem eventAvps_depth (items : List NotifyItem) : (eventAvps env items).depth ≤ 9 := by
  induction items with
  | nil => exact Nat.zero_le 9
  | cons item items ih =>
    have hbody : (eventBody env item (itemPath env item)).1.depth ≤ 8 := eventBody_depth _
    exact max_le (by omega) ih

/-- The header of another AVP without a payload fits into the block. -/
def HeaderFits (req : Dm2Request) : Prop :=
  (req.pos + dmBlockAlloc - 1) / dmBlockAlloc = (req.pos + dmBlockAlloc - 1 + 12) / dmBlockAlloc

theorem dmNewGroup_fits (A : Talloc) (code vendorId : UInt32) (h : HeaderFits req) :
    dmNewGroup A req code vendorId = dmNewGroup A.granting req code vendorId := by
  have hspace : ∀ r : Dm2Request, r.pos = req.pos →
      dmPacketEnsureSpace A r (0 + 12) = dmPacketEnsureSpace A.granting r (0 + 12) := by
    intro r hr
    unfold HeaderFits at h
    unfold dmPacketEnsureSpace
    rw [hr]
    simp only [Nat.zero_add]
    rw [if_pos h, if_pos h]
  have hpos : Dm2Request.pos { req.setGrp (req.level + 1) ⟨req.pos, req.pos⟩ with level := req.level + 1 } =
      req.pos := by simp [Dm2Request.pos, Dm2Request.setGrp]
  unfold dmNewGroup
  split
  · unfold dmPutAvp
    simp only [ne_eq, not_true_eq_false, false_and, if_false]
    exact congrArg (Call.andThen · _) (hspace _ hpos)
  · rfl

theorem dmPacketEnsureSpace_error {len : ℕ} {rc : Rc} {r : Dm2Request}
    (h : dmPacketEnsureSpace A req len = some (rc, r)) (hrc : rc ≠ .ok) : r.packet = [] := by
  unfold dmPacketEnsureSpace at h
  simp only at h
  split at h
  · cases h
    exact absurd rfl hrc
  split at h
  · obtain ⟨packet, -, h⟩ := Option.bind_eq_some_iff.mp h
    cases h
    exact absurd rfl hrc
  · cases h
    rfl

/-- Without memory for its header, a group leaves no packet behind. -/
theorem dmNewGroup_refused {code vendorId : UInt32} {r : Dm2Request}
    (h : dmNewGroup A req code vendorId = some (.errAlloc, r)) : r.packet = [] := by
  unfold dmNewGroup dmPutAvp at h
  split at h
  · simp only [ne_eq, not_true_eq_false, false_and, if_false] at h
    rcases andThen_eq_error h (by decide) with h | ⟨r', -, h⟩
    · exact dmPacketEnsureSpace_error h (by decide)
    · obtain ⟨m, -, h⟩ := Option.bind_eq_some_iff.mp h
      cases h
  · cases h

/-- What `build_notify_events` does with one item: it is written, memory is refused, or an error leaves its
container open. -/
theorem putEvent_cases (A : Talloc) (env : EventEnv) (item : NotifyItem) (h : Filled req pre) (hl : req.level = 0) :
    ∃ rc r, putEvent A env item req = some (rc, r) ∧
      (rc = .ok ∨ rc = .errAlloc ∨ (∃ front, Filled r (pre ++ front) ∧ r.level = 1) ∨
        (¬HeaderFits req ∧ r.packet = [])) := by
  unfold putEvent
  cases hname : dmSel2name env.schema item.sb maxParamNameLen with
  | none => exact ⟨.errAlloc, req, rfl, .inr (.inl rfl)⟩
  | some path =>
    simp only
    obtain ⟨r1, hnew, hfill1, hlevel1, hstart1, hbelow1⟩ :=
      dmNewGroup_filled A.granting (fun _ => rfl) req pre avpContainer vpTravelping h (by rw [hl]; decide)
    rcases dmNewGroup_short A req avpContainer vpTravelping with heq | ⟨r, hrefused⟩
    · have hlevel1 : r1.level = 1 := by omega
      rw [heq, hnew]
      simp only [anyError, Call.andThen]
      rcases putAvps_cases A (eventBody env item path).1 r1 _ hfill1
        (by rw [hlevel1]; exact Nat.lt_of_le_of_lt (Nat.add_le_add_left (eventBody_depth path) 1) (by decide)) with
        ⟨r2, hput, hfill2, hsame2⟩ | ⟨r2, hput⟩
      · rw [hput]
        simp only
        cases herr : (eventBody env item path).2 with
        | some rc =>
          rw [List.append_assoc] at hfill2
          exact ⟨rc, r2, rfl, .inr (.inr (.inl ⟨_, hfill2, hsame2.level_eq.trans hlevel1⟩))⟩
        | none =>
          have hlevel2 : r2.level = req.level + 1 := by rw [hsame2.level_eq, hlevel1, hl]
          have hstart2 : (r2.grp (req.level + 1)).start = pre.length := by
            rw [← hstart1, hl, Nat.zero_add, ← hlevel1]
            exact hsame2.start_eq
          have hpos2 : (r2.grp req.level).pos = pre.length := by
            rw [hsame2.below req.level (by omega), hbelow1 req.level (Nat.le_refl _)]
            exact h.pos_eq
          obtain ⟨r3, hfin, -⟩ := dmFinalizeGroup_filled r2 pre (wire (eventBody env item path).1) req.level
            avpContainer vpTravelping hfill2 hlevel2 hstart2 hpos2 h.aligned (four_dvd_wire _)
          exact ⟨.ok, r3, hfin, .inl rfl⟩
      · rw [hput]
        exact ⟨.errAlloc, r2, rfl, .inr (.inl rfl)⟩
    · rw [hrefused]
      refine ⟨.errMisc, r, rfl, .inr (.inr (.inr ⟨fun hfits => ?_, dmNewGroup_refused hrefused⟩))⟩
      rw [dmNewGroup_fits A _ _ hfits, hnew] at hrefused
      cases hrefused

/-! ## The loop -/

def ofLevel (level : ℕ) (queue : List NotifyItem) : List NotifyItem := queue.filter fun x => x.level = level

def notOfLevel (level : ℕ) (queue : List NotifyItem) : List NotifyItem := queue.filter fun x => x.level ≠ level

/-- All items of a level can be written, and memory for them is granted. -/
def Written (A : Talloc) (env : EventEnv) (req : Dm2Request) (items : List NotifyItem) : Prop :=
  (∀ x ∈ items, Encodable env x) ∧ ∃ r, putAvps A req (eventAvps env items) = some (.ok, r)

/-- `build_notify_events` writes all items of the level, or it stops at one of them. -/
theorem build_cases (A : Talloc) (env : EventEnv) (level : ℕ) (queue : List NotifyItem) (h : Filled req pre)
    (hl : req.level = 0) :
    (∃ req', buildNotifyEvents (putEvent A env) level queue req = some (.ok, notOfLevel level queue, req') ∧
      (∀ x ∈ ofLevel level queue, Encodable env x) ∧
      putAvps A req (eventAvps env (ofLevel level queue)) = some (.ok, req')) ∨
    ∃ q1 x q2 r rc req', queue = q1 ++ x :: q2 ∧ x.level = level ∧
      buildNotifyEvents (putEvent A env) level queue req = some (rc, notOfLevel level q1 ++ x :: q2, req') ∧
      rc ≠ .ok ∧ (∀ y ∈ ofLevel level q1, Encodable env y) ∧
      putAvps A req (eventAvps env (ofLevel level q1)) = some (.ok, r) ∧ putEvent A env x r = some (rc, req') := by
  induction queue generalizing req pre with
  | nil => exact .inl ⟨req, rfl, fun x hx => absurd hx List.not_mem_nil, rfl⟩
  | cons item queue ih =>
    unfold buildNotifyEvents
    by_cases hlevel : item.level = level
    · rw [if_neg (not_not.mpr hlevel)]
      obtain ⟨rc, r, hput, -⟩ := putEvent_cases A env item h hl
      rw [hput]
      by_cases hrc : rc = .ok
      · subst hrc
        obtain ⟨henc, hput1⟩ := putEvent_eq_ok.mp hput
        obtain ⟨hfill, hsame⟩ : Filled r (pre ++ wire (eventAvps env [item])) ∧ SameGroups req r := by
          rcases putAvps_cases A (eventAvps env [item]) req pre h
            (by rw [hl, Nat.zero_add]; exact Nat.lt_of_le_of_lt (eventAvps_depth _) (by decide)) with
            ⟨r', hput', hfill, hsame⟩ | ⟨r', hput'⟩
          · rw [hput1] at hput'
            cases hput'
            exact ⟨hfill, hsame⟩
          · rw [hput1] at hput'
            cases hput'
        have hof : ∀ l, ofLevel level (item :: l) = item :: ofLevel level l :=
          fun l => List.filter_cons_of_pos (by simpa using hlevel)
        have hnot : ∀ l, notOfLevel level (item :: l) = notOfLevel level l :=
          fun l => List.filter_cons_of_neg (by simpa using hlevel)
        have hall : ∀ {l}, (∀ y ∈ l, Encodable env y) → ∀ y ∈ item :: l, Encodable env y := by
          intro l hl y hy
          rcases List.mem_cons.mp hy with rfl | hy
          · exact henc
          · exact hl y hy
        have hputs : ∀ {l r'}, putAvps A r (eventAvps env l) = some (.ok, r') →
            putAvps A req (eventAvps env (item :: l)) = some (.ok, r') := by
          intro l r' hl
          rw [putAvps_cons, hput1]
          exact hl
        rcases ih hfill (hsame.level_eq.trans hl) with
          ⟨req', hb, he, hp⟩ | ⟨q1, x, q2, r1, rc, req', rfl, hx, hb, hrc, he, hp, hpe⟩
        · rw [hof, hnot]
          exact .inl ⟨req', hb, hall he, hputs hp⟩
        · refine .inr ⟨item :: q1, x, q2, r1, rc, req', rfl, hx, ?_, hrc, ?_, ?_, hpe⟩
          · rw [hnot]
            exact hb
          · rw [hof]
            exact hall he
          · rw [hof]
            exact hputs hp
      · refine .inr ⟨[], item, queue, req, rc, r, rfl, hlevel, ?_, hrc, fun y hy => absurd hy List.not_mem_nil,
          rfl, hput⟩
        cases rc <;> first | exact absurd rfl hrc | rfl
    · rw [if_pos hlevel]
      have hof : ∀ l, ofLevel level (item :: l) = ofLevel level l :=
        fun l => List.filter_cons_of_neg (by simpa using hlevel)
      have hnot : ∀ l, notOfLevel level (item :: l) = item :: notOfLevel level l :=
        fun l => List.filter_cons_of_pos (by simpa using hlevel)
      rcases ih h hl with ⟨req', hb, he, hp⟩ | ⟨q1, x, q2, r1, rc, req', rfl, hx, hb, hrc, he, hp, hpe⟩
      · rw [hof, hnot, hb]
        exact .inl ⟨req', rfl, he, hp⟩
      · refine .inr ⟨item :: q1, x, q2, r1, rc, req', rfl, hx, ?_, hrc, ?_, ?_, hpe⟩
        · rw [hb, hnot]
          rfl
        · rw [hof]
          exact he
        · rw [hof]
          exact hp

end Items

/-! ## Nothing is dropped -/

/-- The message is finalized, and the whole container of the item is in its counted part. -/
def Carries (env : EventEnv) (msg : Rc × Dm2Request) (item : NotifyItem) : Prop :=
  msg.1 = .ok ∧ Encodable env item ∧ ∃ front before after back,
    msg.2.packet = front ++ wire (eventAvps env (before ++ item :: after)) ++ back ∧
    (msg.2.grp 0).pos = front.length + (wire (eventAvps env (before ++ item :: after))).length

/-- Memory for the items of the level that can be written at all. -/
def Memory (A : Talloc) (env : EventEnv) (start : Call) (items : List NotifyItem) : Prop :=
  ∃ req r, start = some (.ok, req) ∧ putAvps A req (eventAvps env (items.filter (Encodable env ·))) = some (.ok, r)

/-- Items leave the queue in a message only; without a message the queue stays; and where memory is not
short, no item keeps the others from being sent. -/
structure NotDropped (A : Talloc) (env : EventEnv) (start : Call) (level : ℕ) (queue left : List NotifyItem)
    (sent : Option (Rc × Dm2Request)) : Prop where
  removed : ∀ x ∈ queue, x ∉ left → ∃ msg ∈ sent, Carries env msg x
  unbuilt : (∀ msg ∈ sent, msg.1 ≠ .ok) → left = queue
  others : Memory A env start (ofLevel level queue) → ∀ x ∈ ofLevel level queue, ¬Encodable env x →
    ∀ y ∈ ofLevel level queue, Encodable env y → ∃ msg ∈ sent, Carries env msg y

/-- There is nothing to send; or all of it can be sent; or the first item cannot, and no other item that
could is held back. -/
def Sendable (A : Talloc) (env : EventEnv) (start : Call) (granted : Bool) (items : List NotifyItem) : Prop :=
  items = [] ∨ ∀ req, start = some (.ok, req) →
    (Written A env req items ∧ granted = true) ∨
    (¬Written A env req items.head?.toList ∧ ((∀ x ∈ items, ¬Encodable env x) ∨ ¬Memory A env start items))

section Dropped
variable {A : Talloc} {env : EventEnv} {start : Call} {level : ℕ} {queue left : List NotifyItem}
  {sent : Option (Rc × Dm2Request)} {req : Dm2Request} {pre : List UInt8} {granted : Bool}

theorem putAvps_append_ok (items items' : List NotifyItem) {r : Dm2Request} :
    putAvps A req (eventAvps env (items ++ items')) = some (.ok, r) ↔
      ∃ r', putAvps A req (eventAvps env items) = some (.ok, r') ∧
        putAvps A r' (eventAvps env items') = some (.ok, r) := by
  induction items generalizing req with
  | nil => simp [eventAvps, putAvps]
  | cons item items ih =>
    rw [List.cons_append, putAvps_cons A env item (items ++ items'), putAvps_cons A env item items]
    simp only [andThen_eq_ok, ih]
    constructor
    · rintro ⟨r1, h1, r2, h2, h3⟩
      exact ⟨r2, ⟨r1, h1, h2⟩, h3⟩
    · rintro ⟨r2, ⟨r1, h1, h2⟩, h3⟩
      exact ⟨r1, h1, r2, h2, h3⟩

theorem Written.head {items : List NotifyItem} (h : Written A env req items) : Written A env req items.head?.toList := by
  cases items with
  | nil => exact h
  | cons x items =>
    obtain ⟨henc, r, hput⟩ := h
    obtain ⟨r', hput', -⟩ := (putAvps_append_ok [x] _).mp hput
    exact ⟨fun y hy => henc y (by rw [List.mem_singleton.mp hy]; exact List.mem_cons_self), r', hput'⟩

theorem mem_ofLevel {x : NotifyItem} : x ∈ ofLevel level queue ↔ x ∈ queue ∧ x.level = level := by
  simp [ofLevel, List.mem_filter]

theorem mem_notOfLevel {x : NotifyItem} : x ∈ notOfLevel level queue ↔ x ∈ queue ∧ x.level ≠ level := by
  simp [notOfLevel, List.mem_filter]

/-- All items of the level are in the message. -/
theorem notDropped_written (hw : Written A env req (ofLevel level queue)) (hstart : start = some (.ok, req))
    (hmsg : granted = true → ∃ msg, sent = some msg ∧ ∀ x ∈ ofLevel level queue, Carries env msg x)
    (hno : granted = false → sent = none) (hok : ∀ msg ∈ sent, msg.1 = .ok) :
    NotDropped A env start level queue (notOfLevel level queue) sent ↔
      Sendable A env start granted (ofLevel level queue) := by
  have hkept : ∀ x ∈ queue, x ∉ notOfLevel level queue → x ∈ ofLevel level queue := by
    intro x hx hno
    rw [mem_notOfLevel] at hno
    exact mem_ofLevel.mpr ⟨hx, by_contra fun h => hno ⟨hx, h⟩⟩
  cases granted with
  | true =>
    obtain ⟨msg, rfl, hcarry⟩ := hmsg rfl
    refine iff_of_true ⟨?_, ?_, ?_⟩ (.inr fun r hr => ?_)
    · intro x hx hl
      exact ⟨msg, rfl, hcarry x (hkept x hx hl)⟩
    · intro h
      exact absurd (hok msg rfl) (h msg rfl)
    · intro _ x hx henc
      exact absurd (hw.1 x hx) henc
    · rw [hstart] at hr
      cases hr
      exact .inl ⟨hw, rfl⟩
  | false =>
    rw [hno rfl]
    constructor
    · intro h
      have hleft := h.unbuilt fun _ hm => nomatch hm
      refine .inl (List.eq_nil_iff_forall_not_mem.mpr fun x hx => ?_)
      obtain ⟨hxq, hxl⟩ := mem_ofLevel.mp hx
      rw [← hleft, mem_notOfLevel] at hxq
      exact hxq.2 hxl
    · rintro (hnil | h)
      · have hleft : notOfLevel level queue = queue := by
          refine List.filter_eq_self.mpr fun x hx => ?_
          have hx' : x ∉ ofLevel level queue := by
            rw [hnil]
            exact List.not_mem_nil
          rw [mem_ofLevel] at hx'
          simpa using fun hl => hx' ⟨hx, hl⟩
        rw [hleft]
        refine ⟨fun x hx hl => absurd hx hl, fun _ => rfl, ?_⟩
        intro _ x hx
        rw [hnil] at hx
        cases hx
      · rcases h req hstart with ⟨-, hg⟩ | ⟨hfirst, -⟩
        · cases hg
        · exact absurd hw.head hfirst

/-- The loop stops at an item. -/
theorem notDropped_stopped (hq : QueueOrdered queue) (hstart : start = some (.ok, req)) {q1 q2 : List NotifyItem}
    {x : NotifyItem} {r : Dm2Request} (hqueue : queue = q1 ++ x :: q2) (hx : x.level = level)
    (hleft : left = notOfLevel level q1 ++ x :: q2) (hsent : ∀ msg ∈ sent, msg.1 ≠ .ok)
    (henc : ∀ y ∈ ofLevel level q1, Encodable env y)
    (hput : putAvps A req (eventAvps env (ofLevel level q1)) = some (.ok, r))
    (hstop : ∀ r', putEvent A env x r ≠ some (.ok, r')) :
    NotDropped A env start level queue left sent ↔ Sendable A env start granted (ofLevel level queue) := by
  have hof : ofLevel level queue = ofLevel level q1 ++ x :: ofLevel level q2 := by
    rw [hqueue]
    unfold ofLevel
    rw [List.filter_append, List.filter_cons_of_pos (by simpa using hx)]
  have hnone : ∀ y, ¬∃ msg ∈ sent, Carries env msg y := fun y ⟨msg, hm, hc⟩ => hsent msg hm hc.1
  have hnotw : ¬Written A env req (ofLevel level queue) := by
    rintro ⟨henc', r', hput'⟩
    rw [hof] at henc' hput'
    obtain ⟨r1, hput1, hput2⟩ := (putAvps_append_ok _ _).mp hput'
    rw [hput] at hput1
    cases hput1
    obtain ⟨r2, hput2, -⟩ := (putAvps_append_ok [x] _).mp hput2
    exact hstop r2 (putEvent_eq_ok.mpr ⟨henc' x (by simp), hput2⟩)
  cases hfront : ofLevel level q1 with
  | cons y ys =>
    -- the items in front of it are lost
    have hy : y ∈ ofLevel level q1 := by
      rw [hfront]
      exact List.mem_cons_self
    obtain ⟨hyq, hyl⟩ := mem_ofLevel.mp hy
    refine iff_of_false ?_ ?_
    · intro h
      refine hnone y (h.removed y (by rw [hqueue]; exact List.mem_append_left _ hyq) ?_)
      rw [hleft]
      intro hmem
      rcases List.mem_append.mp hmem with hmem | hmem
      · exact (mem_notOfLevel.mp hmem).2 hyl
      · rw [hqueue] at hq
        have hlt := (List.pairwise_append.mp hq).2.2 y hyq y hmem
        rw [notifyCompare_comparison.refl y trivial] at hlt
        exact absurd hlt (by decide)
    · rintro (hnil | h)
      · rw [hof, hfront] at hnil
        cases hnil
      · rcases h req hstart with ⟨hw, -⟩ | ⟨hfirst, -⟩
        · exact hnotw hw
        · refine hfirst ?_
          have hw : Written A env req (ofLevel level q1) := ⟨henc, r, hput⟩
          have hhead := hw.head
          rw [hfront] at hhead
          rw [hof, hfront]
          exact hhead
  | nil =>
    have hleft : left = queue := by
      have hq1 : notOfLevel level q1 = q1 := by
        refine List.filter_eq_self.mpr fun y hy => ?_
        have hy' : y ∉ ofLevel level q1 := by
          rw [hfront]
          exact List.not_mem_nil
        rw [mem_ofLevel] at hy'
        simpa using fun hl => hy' ⟨hy, hl⟩
      rw [hleft, hq1, hqueue]
    rw [hfront] at hput
    cases hput
    rw [hfront, List.nil_append] at hof
    have hfirst : ¬Written A env req [x] := by
      rintro ⟨henc', r', hput'⟩
      exact hstop r' (putEvent_eq_ok.mpr ⟨henc' x (List.mem_singleton.mpr rfl), hput'⟩)
    have hmem : Memory A env start (ofLevel level queue) → ¬Encodable env x := by
      rintro ⟨req', r', hs, hput'⟩ hxe
      rw [hstart] at hs
      cases hs
      rw [hof, List.filter_cons_of_pos (by simpa using hxe)] at hput'
      obtain ⟨r2, hput2, -⟩ := (putAvps_append_ok [x] _).mp hput'
      exact hfirst ⟨fun y hy => by rw [List.mem_singleton.mp hy]; exact hxe, r2, hput2⟩
    have hxin : x ∈ ofLevel level queue := by
      rw [hof]
      exact List.mem_cons_self
    constructor
    · intro h
      refine .inr fun r hr => .inr ⟨?_, ?_⟩
      · rw [hstart] at hr
        cases hr
        rw [hof]
        exact hfirst
      · by_cases hm : Memory A env start (ofLevel level queue)
        · exact .inl fun y hy hye => hnone y (h.others hm x hxin (hmem hm) y hy hye)
        · exact .inr hm
    · intro h
      rw [hleft]
      refine ⟨fun y hy hl => absurd hy hl, fun _ => rfl, ?_⟩
      intro hm _ _ _ y hy hye
      rcases h with hnil | h
      · rw [hnil] at hy
        cases hy
      · rcases h req hstart with ⟨hw, -⟩ | ⟨-, hall | hno⟩
        · exact absurd hw hnotw
        · exact absurd hye (hall y hy)
        · exact absurd hm hno

/-- A write into the front of a buffer. -/
theorem poke_front {front bs : List UInt8} {pos : ℕ} (back : List UInt8) (h : pos + bs.length ≤ front.length) :
    ∃ front', front'.length = front.length ∧ poke (front ++ back) pos bs = some (front' ++ back) := by
  refine ⟨front.take pos ++ bs ++ front.drop (pos + bs.length), ?_, ?_⟩
  · simp only [List.length_append, List.length_take, List.length_drop]
    omega
  · rw [poke, if_pos (by rw [List.length_append]; omega), List.take_append_of_le_length (by omega),
      List.drop_append_of_le_length h]
    simp only [List.append_assoc]

/-- The counted part of the packet is a front and the containers of the items. -/
structure Holds (env : EventEnv) (req : Dm2Request) (front : ℕ) (items : List NotifyItem) : Prop where
  level : req.level = 0
  pos : (req.grp 0).pos = front + (wire (eventAvps env items)).length
  packet : ∃ bytes back, bytes.length = front ∧ req.packet = bytes ++ (wire (eventAvps env items) ++ back)

theorem Holds.of_filled {bytes : List UInt8} {items : List NotifyItem}
    (h : Filled req (bytes ++ wire (eventAvps env items))) (hl : req.level = 0) :
    Holds env req bytes.length items := by
  obtain ⟨n, hn⟩ := h.zeros
  have hpos := h.pos_eq
  rw [Dm2Request.pos, hl, List.length_append] at hpos
  exact ⟨hl, hpos, bytes, List.replicate n 0, rfl, by rw [hn, List.append_assoc]⟩

theorem Holds.poke {front pos : ℕ} {items : List NotifyItem} {bs : List UInt8} (h : Holds env req front items)
    (hle : pos + bs.length ≤ front) :
    ∃ packet, Bytes.poke req.packet pos bs = some packet ∧ Holds env { req with packet := packet } front items := by
  obtain ⟨bytes, back, hlen, hpacket⟩ := h.packet
  rw [← hlen] at hle
  obtain ⟨bytes', hlen', hpoke⟩ := poke_front (wire (eventAvps env items) ++ back) hle
  rw [← hpacket] at hpoke
  exact ⟨_, hpoke, h.level, h.pos, bytes', back, hlen'.trans hlen, rfl⟩

theorem Holds.finalize {front : ℕ} {items : List NotifyItem} (h : Holds env req front items) (hfront : 4 ≤ front) :
    ∃ req', dmFinalizePacket req = some (.ok, req') ∧ Holds env req' front items := by
  have hle : 1 + (be 3 (req.grp 0).pos).length ≤ front := by
    rw [be_length]
    exact hfront
  obtain ⟨packet, hpoke, hh⟩ := h.poke hle
  refine ⟨_, ?_, hh⟩
  rw [dmFinalizePacket, if_neg (not_not.mpr h.level), hpoke]
  rfl

theorem Holds.carries {front : ℕ} {items : List NotifyItem} (h : Holds env req front items) {x : NotifyItem}
    (hx : x ∈ items) (henc : Encodable env x) : Carries env (.ok, req) x := by
  obtain ⟨bytes, back, hlen, hpacket⟩ := h.packet
  obtain ⟨before, after, rfl⟩ := List.append_of_mem hx
  refine ⟨rfl, henc, bytes, before, after, back, ?_, ?_⟩
  · rw [hpacket, List.append_assoc]
  · rw [hlen]
    exact h.pos

/-- There is no memory for the message itself. -/
theorem notDropped_refused {rc : Rc} (hstart : start = some (rc, req)) (hrc : rc ≠ .ok) :
    NotDropped A env start level queue queue none ↔ Sendable A env start granted (ofLevel level queue) := by
  refine iff_of_true ⟨fun x hx hl => absurd hx hl, fun _ => rfl, ?_⟩ (.inr ?_)
  · rintro ⟨req', r, hs, -⟩
    rw [hstart] at hs
    cases hs
    exact absurd rfl hrc
  · intro req' hs
    rw [hstart] at hs
    cases hs
    exact absurd rfl hrc

/-- The loop from a request under construction. -/
theorem build_holds (A : Talloc) (env : EventEnv) (level : ℕ) (queue : List NotifyItem) (h : Filled req pre)
    (hl : req.level = 0) :
    (∃ req', buildNotifyEvents (putEvent A env) level queue req = some (.ok, notOfLevel level queue, req') ∧
      Written A env req (ofLevel level queue) ∧ Holds env req' pre.length (ofLevel level queue)) ∨
    ∃ q1 x q2 r rc req', queue = q1 ++ x :: q2 ∧ x.level = level ∧
      buildNotifyEvents (putEvent A env) level queue req = some (rc, notOfLevel level q1 ++ x :: q2, req') ∧
      rc ≠ .ok ∧ (∀ y ∈ ofLevel level q1, Encodable env y) ∧
      putAvps A req (eventAvps env (ofLevel level q1)) = some (.ok, r) ∧ putEvent A env x r = some (rc, req') := by
  rcases build_cases A env level queue h hl with ⟨req', hb, henc, hput⟩ | hstop
  · refine .inl ⟨req', hb, ⟨henc, req', hput⟩, ?_⟩
    rcases putAvps_cases A (eventAvps env (ofLevel level queue)) req pre h
      (by rw [hl, Nat.zero_add]; exact Nat.lt_of_le_of_lt (eventAvps_depth _) (by decide)) with
      ⟨r, hput', hfill, hsame⟩ | ⟨r, hput'⟩
    · rw [hput] at hput'
      cases hput'
      exact Holds.of_filled hfill (hsame.level_eq.trans hl)
    · rw [hput] at hput'
      cases hput'
  · exact .inr hstop

/-- A message with all items is enqueued if there is memory for that. -/
theorem notDropped_enqueue {front : ℕ} {msg : Dm2Request} (hw : Written A env req (ofLevel level queue))
    (hstart : start = some (.ok, req)) (hh : Holds env msg front (ofLevel level queue)) :
    NotDropped A env start level queue (notOfLevel level queue) (enqueue granted .ok msg) ↔
      Sendable A env start granted (ofLevel level queue) := by
  refine notDropped_written hw hstart ?_ ?_ ?_
  · rintro rfl
    exact ⟨_, rfl, fun x hx => hh.carries hx (hw.1 x hx)⟩
  · rintro rfl
    rfl
  · intro m hm
    unfold enqueue at hm
    split at hm <;> cases hm
    rfl

end Dropped

/-! ## The two requests -/

/-- The request of `dmconfig_notify_cb` before the first item. -/
def activeStart (A : Talloc) : Call := dmNewPacket A cmdClientActiveNotify cmdFlagRequest appId 0 0

/-- The answer of `rpc_get_passive_notifications` before the first item. -/
def passiveStart (A : Talloc) (hopid endid : UInt32) : Call :=
  (dmNewPacket A cmdGetPassiveNotifications 0 appId hopid endid).andThen fun req =>
    dmPutAvp A req avpRc vpTravelping (some (be 4 (rcCode .ok))) 4

section Requests
variable {A : Talloc} {env : EventEnv} {granted : Bool} {queue : List NotifyItem}

/-- The property of what a request answers. -/
theorem answer_iff {B C : Type} {f : Option (B × C)} {P : B → C → Prop} {b : B} {c : C} (h : f = some (b, c)) :
    (∃ b c, f = some (b, c) ∧ P b c) ↔ P b c := by
  constructor
  · rintro ⟨b', c', hf, hp⟩
    rw [h] at hf
    cases hf
    exact hp
  · intro hp
    exact ⟨b, c, h, hp⟩

theorem activeRequest_iff (hq : QueueOrdered queue) :
    (∃ left sent, activeRequest A env granted queue = some (left, sent) ∧
      NotDropped A env (activeStart A) activeNotify queue left sent) ↔
      Sendable A env (activeStart A) granted (ofLevel activeNotify queue) := by
  rcases dmNewPacket_cases A cmdClientActiveNotify cmdFlagRequest appId 0 0 with
    ⟨req, hnew, hfill, hlevel⟩ | ⟨req, hnew⟩
  · have hstart : activeStart A = some (.ok, req) := hnew
    rcases build_holds A env activeNotify queue hfill hlevel with
      ⟨req', hb, hw, hh⟩ | ⟨q1, x, q2, r, rc, req', hqueue, hx, hb, hrc, henc, hput, hstop⟩
    · obtain ⟨msg, hfin, hh⟩ := hh.finalize (by rw [packetHead_length]; decide)
      have hreq : activeRequest A env granted queue =
          some (notOfLevel activeNotify queue, enqueue granted .ok msg) := by
        simp only [activeRequest, dmconfigNotifyCb, hnew, hb, hfin, Option.bind_eq_bind, Option.bind_some]
      rw [answer_iff hreq]
      exact notDropped_enqueue hw hstart hh
    · have hreq : activeRequest A env granted queue = some (notOfLevel activeNotify q1 ++ x :: q2, none) := by
        simp only [activeRequest, dmconfigNotifyCb, hnew, hb, Option.bind_eq_bind, Option.bind_some]
        cases rc <;> first | exact absurd rfl hrc | rfl
      rw [answer_iff hreq]
      refine notDropped_stopped hq hstart hqueue hx rfl (fun m hm => nomatch hm) henc hput ?_
      intro r' hr'
      rw [hstop] at hr'
      cases hr'
      exact hrc rfl
  · have hstart : activeStart A = some (.errAlloc, req) := hnew
    have hreq : activeRequest A env granted queue = some (queue, none) := by
      simp only [activeRequest, dmconfigNotifyCb, hnew, Option.bind_eq_bind, Option.bind_some]
      rfl
    rw [answer_iff hreq]
    exact notDropped_refused hstart (by decide)

/-- The answer with the code of the request in front. -/
theorem passiveStart_cases (A : Talloc) (hopid endid : UInt32) :
    (∃ req1 req pre, dmNewPacket A cmdGetPassiveNotifications 0 appId hopid endid = some (.ok, req1) ∧
      req1.pos = 20 ∧ dmPutAvp A req1 avpRc vpTravelping (some (be 4 (rcCode .ok))) 4 = some (.ok, req) ∧
      Filled req pre ∧ pre.length = 36 ∧ req.level = 0) ∨
    (∃ req1 req, dmNewPacket A cmdGetPassiveNotifications 0 appId hopid endid = some (.ok, req1) ∧
      dmPutAvp A req1 avpRc vpTravelping (some (be 4 (rcCode .ok))) 4 = some (.errAlloc, req)) ∨
    ∃ req, dmNewPacket A cmdGetPassiveNotifications 0 appId hopid endid = some (.errAlloc, req) := by
  rcases dmNewPacket_cases A cmdGetPassiveNotifications 0 appId hopid endid with ⟨req1, hnew, hfill, hlevel⟩ | hno
  · obtain ⟨req, hput, hfill', hsame⟩ := dmPutAvp_filled A.granting (fun _ => rfl) req1 _ avpRc vpTravelping
      (some (be 4 (rcCode .ok))) hfill
    rcases dmPutAvp_short A req1 avpRc vpTravelping (some (be 4 (rcCode .ok))) 4 with heq | ⟨r, hr⟩
    · refine .inl ⟨req1, req, _, hnew, ?_, heq.trans hput, hfill', ?_, hsame.level_eq.trans hlevel⟩
      · rw [hfill.pos_eq, packetHead_length]
        rfl
      · rw [List.length_append, packetHead_length, avpBytes_length]
        rfl
    · exact .inr (.inl ⟨req1, r, hnew, hr⟩)
  · exact .inr (.inr hno)

/-- Items that were written before an error are lost. -/
theorem front_lost {start : Call} {level : ℕ} {req r : Dm2Request} {q1 q2 : List NotifyItem} {x : NotifyItem}
    (hq : QueueOrdered (q1 ++ x :: q2)) (hx : x.level = level) (hstart : start = some (.ok, req))
    (henc : ∀ y ∈ ofLevel level q1, Encodable env y)
    (hput : putAvps A req (eventAvps env (ofLevel level q1)) = some (.ok, r))
    (hstop : ∀ r', putEvent A env x r ≠ some (.ok, r')) (hfront : ofLevel level q1 ≠ []) :
    ¬Sendable A env start granted (ofLevel level (q1 ++ x :: q2)) := by
  intro h
  have hnd := (notDropped_stopped hq hstart rfl hx rfl (fun m (hm : m ∈ none) => nomatch hm) henc hput hstop).mpr h
  obtain ⟨y, hy⟩ := List.exists_mem_of_ne_nil _ hfront
  obtain ⟨hyq, hyl⟩ := mem_ofLevel.mp hy
  have hleft := hnd.unbuilt fun m hm => nomatch hm
  have hlen := congrArg List.length hleft
  have hlt : (notOfLevel level q1).length < q1.length := by
    refine Nat.lt_of_le_of_ne (List.length_filter_le _ _) ?_
    intro heq
    have hall := List.length_filter_eq_length_iff.mp heq y hyq
    simp [hyl] at hall
  simp only [List.length_append] at hlen
  omega

theorem passiveRequest_iff (hopid endid : UInt32) (hq : QueueOrdered queue) :
    (∃ left sent, passiveRequest A env hopid endid granted queue = some (left, sent) ∧
      NotDropped A env (passiveStart A hopid endid) passiveNotify queue left sent) ↔
      Sendable A env (passiveStart A hopid endid) granted (ofLevel passiveNotify queue) := by
  rcases passiveStart_cases A hopid endid with
    ⟨req1, req, pre, hnew, hpos, hrc0, hfill, hlen, hlevel⟩ | ⟨req1, req, hnew, hrc0⟩ | ⟨req, hnew⟩
  · have hstart : passiveStart A hopid endid = some (.ok, req) := by
      rw [passiveStart, hnew]
      exact hrc0
    rcases build_holds A env passiveNotify queue hfill hlevel with
      ⟨req', hb, hw, hh⟩ | ⟨q1, x, q2, r, rc, req', rfl, hx, hb, hrc, henc, hput, hstop⟩
    · obtain ⟨packet, hpoke, hh⟩ := hh.poke (show req1.pos + 12 + (be 4 (rcCode .ok)).length ≤ pre.length by
        rw [hpos, hlen, be_length])
      obtain ⟨msg, hfin, hh⟩ := hh.finalize (by omega)
      have hreq : passiveRequest A env hopid endid granted queue =
          some (notOfLevel passiveNotify queue, enqueue granted .ok msg) := by
        simp only [passiveRequest, hnew, hrc0, hb, hpoke, hfin, Option.bind_eq_bind, Option.bind_some, reduceCtorEq,
          if_false]
      rw [answer_iff hreq]
      exact notDropped_enqueue hw hstart hh
    · have hstop' : ∀ r', putEvent A env x r ≠ some (.ok, r') := by
        intro r' hr'
        rw [hstop] at hr'
        cases hr'
        exact hrc rfl
      by_cases halloc : rc = .errAlloc
      · subst halloc
        have hreq : passiveRequest A env hopid endid granted (q1 ++ x :: q2) =
            some (notOfLevel passiveNotify q1 ++ x :: q2, none) := by
          simp only [passiveRequest, hnew, hrc0, hb, Option.bind_eq_bind, Option.bind_some, if_true]
        rw [answer_iff hreq]
        exact notDropped_stopped hq hstart rfl hx rfl (fun m hm => nomatch hm) henc hput hstop'
      -- the answer goes out although its container is open
      obtain ⟨pre', hfill', hlevel'⟩ : ∃ pre', Filled r pre' ∧ r.level = 0 := by
        rcases putAvps_cases A (eventAvps env (ofLevel passiveNotify q1)) req pre hfill
          (by rw [hlevel, Nat.zero_add]; exact Nat.lt_of_le_of_lt (eventAvps_depth _) (by decide)) with
          ⟨r2, hput2, hf2, hs2⟩ | ⟨r2, hput2⟩
        · rw [hput] at hput2
          cases hput2
          exact ⟨_, hf2, hs2.level_eq.trans hlevel⟩
        · rw [hput] at hput2
          cases hput2
      obtain ⟨rc', r', hput', hcases⟩ := putEvent_cases A env x hfill' hlevel'
      rw [hstop] at hput'
      cases hput'
      have hafter : passiveRequest A env hopid endid granted (q1 ++ x :: q2) =
          (poke req'.packet (req1.pos + 12) (be 4 (rcCode rc))).bind fun packet =>
            (dmFinalizePacket { req' with packet := packet }).bind fun p =>
              some (notOfLevel passiveNotify q1 ++ x :: q2, enqueue granted p.1 p.2) := by
        simp only [passiveRequest, hnew, hrc0, hb, Option.bind_eq_bind, Option.bind_some, halloc, if_false]
      have hopen : req'.level = 1 → ∀ packet, dmFinalizePacket { req' with packet := packet } =
          some (.errAvpMisformed, { req' with packet := packet }) := by
        intro hl packet
        rw [dmFinalizePacket, if_pos (by rw [hl]; decide)]
      have hsome : ∀ left sent, passiveRequest A env hopid endid granted (q1 ++ x :: q2) = some (left, sent) →
          left = notOfLevel passiveNotify q1 ++ x :: q2 ∧ ∀ m ∈ sent, m.1 ≠ .ok := by
        intro left sent h
        rw [hafter] at h
        obtain ⟨packet, hpoke, h⟩ := Option.bind_eq_some_iff.mp h
        rcases hcases with hok | hal | ⟨front, -, hl⟩ | ⟨-, hnil⟩
        · exact absurd hok hrc
        · exact absurd hal halloc
        · rw [hopen hl] at h
          cases h
          refine ⟨rfl, ?_⟩
          intro m hm
          unfold enqueue at hm
          split at hm <;> cases hm
          simp
        · rw [hnil] at hpoke
          simp [poke] at hpoke
      by_cases hfront : ofLevel passiveNotify q1 = []
      · rw [hfront] at hput
        cases hput
        have hpos' : req.pos = 36 := hfill.pos_eq.trans hlen
        have hfits : HeaderFits req := by
          rw [HeaderFits, hpos']
          decide
        obtain ⟨front, hf, hl⟩ : ∃ front, Filled req' (pre' ++ front) ∧ req'.level = 1 := by
          rcases hcases with hok | hal | h | ⟨hno, -⟩
          · exact absurd hok hrc
          · exact absurd hal halloc
          · exact h
          · exact absurd hfits hno
        have hlong : req1.pos + 12 + (be 4 (rcCode rc)).length ≤ (pre' ++ front).length := by
          rw [List.length_append, ← hfill'.pos_eq, hpos', hpos, be_length]
          omega
        obtain ⟨n, hn⟩ := hf.zeros
        obtain ⟨front', -, hpoke⟩ := poke_front (List.replicate n 0) hlong
        rw [← hn] at hpoke
        have hreq := hafter
        rw [hpoke, Option.bind_some, hopen hl, Option.bind_some] at hreq
        rw [answer_iff hreq]
        exact notDropped_stopped hq hstart rfl hx rfl (hsome _ _ hreq).2 henc (by rw [hfront]; rfl) hstop'
      · have hlost : ¬Sendable A env (passiveStart A hopid endid) granted (ofLevel passiveNotify (q1 ++ x :: q2)) :=
          front_lost hq hx hstart henc hput hstop' hfront
        refine iff_of_false ?_ hlost
        rintro ⟨left, sent, hreq, hnd⟩
        obtain ⟨hleft, hsent⟩ := hsome left sent hreq
        exact hlost ((notDropped_stopped hq hstart rfl hx hleft hsent henc hput hstop').mp hnd)
  · have hstart : passiveStart A hopid endid = some (.errAlloc, req) := by
      rw [passiveStart, hnew]
      exact hrc0
    have hreq : passiveRequest A env hopid endid granted queue = some (queue, none) := by
      simp only [passiveRequest, hnew, hrc0, Option.bind_eq_bind, Option.bind_some]
    rw [answer_iff hreq]
    exact notDropped_refused hstart (by decide)
  · have hstart : passiveStart A hopid endid = some (.errAlloc, req) := by
      rw [passiveStart, hnew]
      rfl
    have hreq : passiveRequest A env hopid endid granted queue = some (queue, none) := by
      simp only [passiveRequest, hnew, Option.bind_eq_bind, Option.bind_some]
    rw [answer_iff hreq]
    exact notDropped_refused hstart (by decide)

end Requests

/-- For both requests: nothing is dropped exactly if all items of the level can be sent, or the first one
cannot and holds none back that could. -/
theorem nothing_dropped_iff (A : Talloc) (env : EventEnv) (granted : Bool) (hopid endid : UInt32)
    (queue : List NotifyItem) (hq : QueueOrdered queue) :
    ((∃ left sent, activeRequest A env granted queue = some (left, sent) ∧
        NotDropped A env (activeStart A) activeNotify queue left sent) ↔
      Sendable A env (activeStart A) granted (ofLevel activeNotify queue)) ∧
    ((∃ left sent, passiveRequest A env hopid endid granted queue = some (left, sent) ∧
        NotDropped A env (passiveStart A hopid endid) passiveNotify queue left sent) ↔
      Sendable A env (passiveStart A hopid endid) granted (ofLevel passiveNotify queue)) :=
  ⟨activeRequest_iff hq, passiveRequest_iff hopid endid hq⟩

/-- With all the memory there is, items that can be written are. -/
theorem written_of_granting {A : Talloc} (hA : ∀ n, A.grants n = true) {env : EventEnv} {items : List NotifyItem}
    (henc : ∀ x ∈ items, Encodable env x) {req : Dm2Request} (hstart : activeStart A = some (.ok, req)) :
    Written A env req items := by
  obtain ⟨req', hnew, hfill, hlevel⟩ := dmNewPacket_filled A hA cmdClientActiveNotify cmdFlagRequest appId 0 0
  have heq : some (Rc.ok, req') = some (.ok, req) := hnew.symm.trans hstart
  cases heq
  obtain ⟨r, hput, -⟩ := putAvps_filled A hA (eventAvps env items) req _ hfill
    (by rw [hlevel, Nat.zero_add]; exact Nat.lt_of_le_of_lt (eventAvps_depth _) (by decide))
  exact ⟨henc, r, hput⟩

/-- A number and a date. -/
def sampleEventTable : ℕ → DmTable
  | 0 => ⟨[{ sampleLeaf .uint with key := [118] }, { sampleLeaf .date with key := [100] }], []⟩
  | _ => ⟨[], []⟩

theorem sampleEventTable_leaf (k : ℕ) : ∀ e ∈ (sampleEventTable k).elems, e.container = false ∧ e.set = none := by
  match k with
  | 0 => decide
  | k + 1 => exact fun e he => absurd he List.not_mem_nil

def sampleEventSchema : Schema where
  table := sampleEventTable
  root := 0
  child_lt := fun k e he hc => absurd hc (by rw [(sampleEventTable_leaf k e he).1]; decide)
  index_head := by
    intro k e he ho
    have hc := (sampleEventTable_leaf k e he).1
    simp [DmElement.container, ho] at hc
  set_fits := by
    intro k e he
    rw [DmElement.setFits, (sampleEventTable_leaf k e he).2]
  array_leaf := by
    intro k e he ho
    have hc := (sampleEventTable_leaf k e he).1
    simp [DmElement.container, ho] at hc
  get_leaf := fun k e he _ => (sampleEventTable_leaf k e he).1

def sampleEvents : EventEnv := ⟨sampleEventSchema, id, fun _ _ => .nil, nil_depth_le⟩

def sampleNumber : NotifyItem := ⟨2, [1], .change, sampleValue 8⟩

/-- A day in February 2036, from which on dates do not fit into 32 bits. -/
def sampleDate : NotifyItem := ⟨2, [2], .change, ⟨.scalar (.date 2085978496), 8, Flags.zero, true⟩⟩

theorem nothing_dropped_sample : ∃ left sent, activeRequest sampleTalloc sampleEvents true [sampleNumber] =
      some (left, sent) ∧
    NotDropped sampleTalloc sampleEvents (activeStart sampleTalloc) activeNotify [sampleNumber] left sent := by
  refine (nothing_dropped_iff sampleTalloc sampleEvents true 0 0 [sampleNumber] (List.pairwise_singleton _ _)).1.mpr
    (.inr fun req hreq => .inl ⟨written_of_granting (fun _ => rfl) ?_ hreq, rfl⟩)
  intro x hx
  obtain ⟨hx, -⟩ := mem_ofLevel.mp hx
  rw [List.mem_singleton.mp hx]
  decide

/-- The number is taken from the queue, but the message with it is not sent: the date cannot be written. -/
theorem number_dropped : ¬∃ left sent, activeRequest sampleTalloc sampleEvents true [sampleNumber, sampleDate] =
      some (left, sent) ∧
    NotDropped sampleTalloc sampleEvents (activeStart sampleTalloc) activeNotify [sampleNumber, sampleDate] left sent := by
  have hq : QueueOrdered [sampleNumber, sampleDate] := by
    refine List.pairwise_cons.mpr ⟨?_, List.pairwise_singleton _ _⟩
    intro x hx
    rw [List.mem_singleton.mp hx]
    show dmSelcmp [1] [2] dmSelectorLen < 0
    decide
  have hof : ofLevel activeNotify [sampleNumber, sampleDate] = [sampleNumber, sampleDate] := rfl
  rw [activeRequest_iff hq, hof]
  obtain ⟨req, hstart, -⟩ := dmNewPacket_filled sampleTalloc (fun _ => rfl) cmdClientActiveNotify cmdFlagRequest appId 0 0
  rintro (hnil | h)
  · cases hnil
  · rcases h req hstart with ⟨⟨henc, -⟩, -⟩ | ⟨hfirst, -⟩
    · exact absurd (henc sampleDate (by simp)) (by decide)
    · refine hfirst (written_of_granting (fun _ => rfl) ?_ hstart)
      intro x hx
      have hx : x = sampleNumber := by simpa using hx
      rw [hx]
      decide

end Mand.Notify
