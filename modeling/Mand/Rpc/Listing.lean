import Mand.Save.Select
import Mand.Msg.Buffer
import Mand.Rpc.Expect
import Mand.Notify.Events

/-! # List requests

`rpc_db_list`: a walk whose callback opens a group in the answer for each container and closes it when the walk
leaves the container. -/
namespace Mand.Rpc
open Mand.Bytes Mand.Msg Mand.Store Mand.Server Mand.Save Mand.Notify Mand.Bracket
set_option autoImplicit false

/-! ## The callback -/

/-- `struct list_ctx`. -/
structure ListCtx where
  req : Dm2Request
  level : ℤ
  maxLevel : ℤ

/-- Go on after a call that returned `RC_OK`; the callback returns zero after any other. -/
def ListCtx.after (ctx : ListCtx) (call : Call) (next : ListCtx → Option (Bool × ListCtx)) : Option (Bool × ListCtx) :=
  match call with
  | some (.ok, req) => next { ctx with req := req }
  | some (_, req) => some (false, { ctx with req := req })
  | none => none

def ListCtx.opened (ctx : ListCtx) : Option (Bool × ListCtx) := some (true, { ctx with level := ctx.level + 1 })

def ListCtx.closed (ctx : ListCtx) : Option (Bool × ListCtx) := some (true, { ctx with level := ctx.level - 1 })

/-- The name of an element. -/
def keyAvp (e : DmElement) (rest : Avps) : Avps := .avp avpName vpTravelping (octets e.key) rest

def typeAvp (e : DmElement) : Avps := .avp avpType vpTravelping (be 4 (avpTypeMap e.type).toNat) .nil

section Callback
variable (A : Talloc) (ev : EventEnv)

/-- A new group and what it begins with. -/
def beginGroup (req : Dm2Request) (code : UInt32) (head : Avps) : Call :=
  (dmNewGroup A req code vpTravelping).andThen fun req => putAvps A req head

/-- `dm_add_avp`, whose code the callbacks ignore. -/
def ListCtx.addValue (ctx : ListCtx) (e : DmElement) (v : DmValue) : Option ListCtx :=
  match addAvp ev e v with
  | .error _ => some ctx
  | .ok avps => (putAvps A ctx.req avps).map fun r => { ctx with req := r.2 }

def dmconfigListArrayCb (type : CbType) (e : DmElement) (v : DmValue) (ctx : ListCtx) : Option (Bool × ListCtx) :=
  match type with
  | .objectEnd =>
    if ctx.level ≠ 0 ∧ ctx.level < ctx.maxLevel then ctx.after (dmFinalizeGroup ctx.req) ListCtx.closed
    else ctx.closed
  | .objectStart => ctx.after (beginGroup A ctx.req avpArray (keyAvp e (typeAvp e))) ListCtx.opened
  | .element => (ctx.addValue A ev e v).map fun ctx => (true, ctx)
  | _ => some (true, ctx)

/-- Every element has a key. -/
def dmconfigListCb (type : CbType) (id : ℕ) (e : DmElement) (v : DmValue) (ctx : ListCtx) : Option (Bool × ListCtx) :=
  if e.flags.array = true then dmconfigListArrayCb A ev type e v ctx
  else match type with
  | .objectInstanceEnd | .objectEnd | .tableEnd =>
    if ctx.level ≠ 0 ∧ ctx.level ≤ ctx.maxLevel then ctx.after (dmFinalizeGroup ctx.req) ListCtx.closed
    else ctx.closed
  | .objectStart => ctx.after (beginGroup A ctx.req avpTable (keyAvp e .nil)) ListCtx.opened
  | .objectInstanceStart =>
    ctx.after (beginGroup A ctx.req avpInstance (.avp avpName vpTravelping (be 2 id) .nil)) ListCtx.opened
  | .tableStart => ctx.after (beginGroup A ctx.req avpObject (keyAvp e .nil)) ListCtx.opened
  | .element =>
    ctx.after (beginGroup A ctx.req avpElement (keyAvp e (typeAvp e))) fun ctx => do
      let ctx ← ctx.addValue A ev e v
      ctx.after (dmFinalizeGroup ctx.req) fun ctx => some (true, ctx)

/-- The callback for the walk. There is no context any more once a group was to be opened for which `grp` has no
entry. -/
def listWalkCb : WalkCb (Option ListCtx) := fun type id e v s =>
  match s.bind (dmconfigListCb A ev type id e v) with
  | some (r, ctx) => (r, some ctx)
  | none => (true, none)

end Callback

/-! ## The request -/

/-- `level ? level + 1 : DM_SELECTOR_LEN`. -/
def listLevel (level : ℤ) : ℤ := if level ≠ 0 then level + 1 else dmSelectorLen

/-- The walk of `rpc_db_list`. -/
def listWalk {σ : Type} (env : Env) (cb : WalkCb σ) (st : DmStore) (level : ℤ) (path : Selector) (s : σ) : Option σ :=
  if path.headD 0 ≠ 0 then walkBySelector env cb st path level s
  else walkTable env cb st (env.schema.root + 1) level env.schema.root st.root s

/-- `rpc_db_list`: the answer, unless a group was to be opened that has no entry. The walks return zero only
where a table is missing. -/
def rpcDbList (A : Talloc) (env : Env) (ev : EventEnv) (st : DmStore) (level : ℤ) (path : Selector) (answer : Dm2Request) :
    Option (Option (Rc × Dm2Request)) := do
  let s ← listWalk env (listWalkCb A ev) st (listLevel level) path (some ⟨answer, 0, listLevel level⟩)
  some (s.map fun ctx => (.ok, ctx.req))

/-! ## Groups of an answer -/

/-- The request can be written to. -/
abbrev SoundReq (req : Dm2Request) : Prop := Sound ⟨req, []⟩

section Groups
variable {A : Talloc} {req : Dm2Request}

/-- AVPs without groups leave the level alone. -/
theorem putAvps_sound (hA : ∀ n, A.grants n = true) (avps : Avps) (hflat : avps.depth = 0) (h : SoundReq req) :
    ∃ req', putAvps A req avps = some (.ok, req') ∧ SoundReq req' ∧ req'.level = req.level := by
  induction avps generalizing req with
  | nil => exact ⟨req, rfl, h, rfl⟩
  | avp code vendorId data rest ih =>
    obtain ⟨pre, hpre⟩ := h.filled
    obtain ⟨req1, hput, hfill, hsame⟩ := dmPutAvp_filled A hA req pre code vendorId (some data) hpre
    have hsound : SoundReq req1 := h.append hpre hfill hsame (fun p hp => absurd hp List.not_mem_nil)
    obtain ⟨req2, hrest, hsound2, hlevel⟩ := ih hflat hsound
    refine ⟨req2, ?_, hsound2, hlevel.trans hsame.level_eq⟩
    rw [Option.getD_some] at hput
    simp only [putAvps, hput, Call.andThen, hrest]
  | group code vendorId content rest =>
    have hdeep : max (content.depth + 1) rest.depth = 0 := hflat
    omega

theorem beginGroup_sound (hA : ∀ n, A.grants n = true) (code : UInt32) (head : Avps) (hflat : head.depth = 0)
    (h : SoundReq req) (hlevel : req.level < 15) :
    ∃ req', beginGroup A req code head = some (.ok, req') ∧ SoundReq req' ∧ req'.level = req.level + 1 := by
  obtain ⟨rc, s, hstep, -, hsound, hl, -⟩ := dmNewGroup_safe hA h code vpTravelping hlevel
  obtain ⟨pre, hpre⟩ := h.filled
  obtain ⟨req1, hnew, -⟩ := dmNewGroup_filled A hA req pre code vpTravelping hpre (Nat.succ_lt_succ hlevel)
  have hs : s = ⟨req1, []⟩ := by
    have hstep : Encoder.after ⟨req, []⟩ (dmNewGroup A req code vpTravelping) [] = some (rc, s) := hstep
    rw [hnew] at hstep
    cases hstep
    rfl
  subst hs
  obtain ⟨req2, hput, hsound2, hl2⟩ := putAvps_sound hA head hflat hsound
  refine ⟨req2, ?_, hsound2, hl2.trans hl⟩
  simp only [beginGroup, hnew, Call.andThen, hput]

theorem beginGroup_full (code : UInt32) (head : Avps) (hlevel : ¬req.level < 15) : beginGroup A req code head = none := by
  have hfull : ¬req.level + 1 < grpEntries := fun h => hlevel (Nat.lt_of_succ_lt_succ h)
  simp only [beginGroup, dmNewGroup, if_neg hfull, Call.andThen]

theorem dmFinalizeGroup_sound (h : SoundReq req) (hlevel : 0 < req.level) :
    ∃ req', dmFinalizeGroup req = some (.ok, req') ∧ SoundReq req' ∧ req'.level + 1 = req.level := by
  obtain ⟨l, hl⟩ : ∃ l, req.level = l + 1 := ⟨req.level - 1, by omega⟩
  obtain ⟨req1, hfin, hlevel1, -⟩ := dmFinalizeGroup_closes h hl
  obtain ⟨rc, s, hstep, -, hsound, -, -⟩ := @dmFinalizeGroup_safe ⟨fun _ => true, fun _ => 0⟩ _ h
  have hs : s = ⟨req1, []⟩ := by
    have hstep : Encoder.after ⟨req, []⟩ (dmFinalizeGroup req) [] = some (rc, s) := hstep
    rw [hfin] at hstep
    cases hstep
    rfl
  subst hs
  exact ⟨req1, hfin, hsound, by rw [hlevel1, hl]⟩

theorem addAvp_flat (ev : EventEnv) {e : DmElement} (hleaf : e.container = false) (v : DmValue) {avps : Avps}
    (h : addAvp ev e v = .ok avps) : avps.depth = 0 := by
  unfold addAvp at h
  dsimp only at h
  split at h
  all_goals try (cases h; rfl)
  all_goals try (simp_all [DmElement.container]; done)
  all_goals repeat' split at h
  all_goals first | (cases h; rfl) | cases h

theorem addValue_sound (hA : ∀ n, A.grants n = true) (ev : EventEnv) {e : DmElement} (hleaf : e.container = false)
    (v : DmValue) (ctx : ListCtx) (h : SoundReq ctx.req) : ∃ req', ctx.addValue A ev e v = some { ctx with req := req' } ∧
      SoundReq req' ∧ req'.level = ctx.req.level := by
  unfold ListCtx.addValue
  cases hv : addAvp ev e v with
  | error rc => exact ⟨ctx.req, rfl, h, rfl⟩
  | ok avps =>
    obtain ⟨req', hput, hsound, hlevel⟩ := putAvps_sound hA avps (addAvp_flat ev hleaf v hv) h
    refine ⟨req', ?_, hsound, hlevel⟩
    simp only [hput, Option.map_some]

end Groups

/-! ## Groups of a path -/

/-- The callback opens a group for this id. Those of an array get one together. -/
def opensGroup (s : Step) : Bool := s.kind = .object ∨ s.elem.flags.array = false

/-- The groups for the ids of a path. -/
def groupsOf (p : List Step) : ℕ := p.countP opensGroup

/-- An array behind as many groups as the walk has levels: its group is not closed. -/
def leftOpen (level : ℤ) (p : List Step) : Bool :=
  (groupsOf p : ℤ) = level ∧ ∃ s ∈ p.getLast?, s.kind = .object ∧ s.elem.flags.array = true

section Paths
variable {p : List Step} {s : Step} {level : ℤ}

theorem groupsOf_le (p : List Step) : groupsOf p ≤ p.length := List.countP_le_length

theorem groupsOf_snoc (p : List Step) (s : Step) : groupsOf (p ++ [s]) = groupsOf p + if opensGroup s = true then 1 else 0 := by
  simp [groupsOf, List.countP_append, List.countP_singleton]

theorem leftOpen_snoc : leftOpen level (p ++ [s]) = true ↔
    (groupsOf (p ++ [s]) : ℤ) = level ∧ s.kind = .object ∧ s.elem.flags.array = true := by
  simp [leftOpen]

/-- There is nothing to be met below such an array. -/
theorem leftOpen_short (h : ((p ++ [s]).length : ℤ) ≤ level) : leftOpen level p = false := by
  have hle := groupsOf_le p
  rw [List.length_append, List.length_singleton] at h
  simp only [leftOpen, decide_eq_false_iff_not, not_and]
  intro heq
  omega

end Paths

/-! ## One call -/

section Call
variable {A : Talloc} {ev : EventEnv} {x : Save.Event} {s : Step} {v : DmValue} {ctx : ListCtx}

theorem listCb_enter (hx : x.mark = .enter s v) :
    (opensGroup s = true → ∃ code head, head.depth = 0 ∧ dmconfigListCb A ev x.type x.id x.elem x.value ctx =
      ctx.after (beginGroup A ctx.req code head) ListCtx.opened) ∧
    (opensGroup s = false → dmconfigListCb A ev x.type x.id x.elem x.value ctx = some (true, ctx)) := by
  obtain ⟨type, id, e, u⟩ := x
  cases type with
  | element | tableEnd | objectEnd | objectInstanceEnd => cases hx
  | tableStart =>
    cases hx
    cases harr : e.flags.array with
    | false =>
      refine ⟨fun _ => ⟨avpObject, keyAvp e .nil, rfl, ?_⟩, fun h => ?_⟩
      · simp [dmconfigListCb, harr]
      · simp [opensGroup, harr] at h
    | true => simp [opensGroup, dmconfigListCb, dmconfigListArrayCb, harr]
  | objectStart =>
    cases hx
    refine ⟨fun _ => ?_, fun h => ?_⟩
    · cases harr : e.flags.array with
      | false => exact ⟨avpTable, keyAvp e .nil, rfl, by simp [dmconfigListCb, harr]⟩
      | true => exact ⟨avpArray, keyAvp e (typeAvp e), rfl, by simp [dmconfigListCb, dmconfigListArrayCb, harr]⟩
    · simp [opensGroup] at h
  | objectInstanceStart =>
    cases hx
    cases harr : e.flags.array with
    | false =>
      refine ⟨fun _ => ⟨avpInstance, .avp avpName vpTravelping (be 2 id) .nil, rfl, ?_⟩, fun h => ?_⟩
      · simp [dmconfigListCb, harr]
      · simp [opensGroup, harr] at h
    | true => simp [opensGroup, dmconfigListCb, dmconfigListArrayCb, harr]

theorem listCb_visit (hx : x.mark = .visit s v) :
    s.kind = .element ∧ s.elem = x.elem ∧
    (opensGroup s = true → ∃ head, head.depth = 0 ∧ dmconfigListCb A ev x.type x.id x.elem x.value ctx =
      ctx.after (beginGroup A ctx.req avpElement head) fun ctx => do
        let ctx ← ctx.addValue A ev x.elem x.value
        ctx.after (dmFinalizeGroup ctx.req) fun ctx => some (true, ctx)) ∧
    (opensGroup s = false → dmconfigListCb A ev x.type x.id x.elem x.value ctx =
      (ctx.addValue A ev x.elem x.value).map fun ctx => (true, ctx)) := by
  obtain ⟨type, id, e, u⟩ := x
  cases type with
  | element =>
    cases hx
    refine ⟨rfl, rfl, fun h => ⟨keyAvp e (typeAvp e), rfl, ?_⟩, fun h => ?_⟩
    · simp [opensGroup] at h
      simp [dmconfigListCb, h]
    · simp [opensGroup] at h
      simp [dmconfigListCb, dmconfigListArrayCb, h]
  | _ => cases hx

theorem listCb_leave (hx : x.mark = .leave s) :
    (opensGroup s = true → dmconfigListCb A ev x.type x.id x.elem x.value ctx =
      if ctx.level ≠ 0 ∧ (ctx.level < ctx.maxLevel ∨ ctx.level = ctx.maxLevel ∧ s.elem.flags.array = false) then
        ctx.after (dmFinalizeGroup ctx.req) ListCtx.closed
      else ctx.closed) ∧
    (opensGroup s = false → dmconfigListCb A ev x.type x.id x.elem x.value ctx = some (true, ctx)) := by
  obtain ⟨type, id, e, u⟩ := x
  cases type with
  | element | tableStart | objectStart | objectInstanceStart => cases hx
  | tableEnd =>
    cases hx
    cases harr : e.flags.array <;> simp [opensGroup, dmconfigListCb, dmconfigListArrayCb, harr, le_iff_lt_or_eq]
  | objectEnd =>
    cases hx
    cases harr : e.flags.array <;> simp [opensGroup, dmconfigListCb, dmconfigListArrayCb, harr, le_iff_lt_or_eq]
  | objectInstanceEnd =>
    cases hx
    cases harr : e.flags.array <;> simp [opensGroup, dmconfigListCb, dmconfigListArrayCb, harr, le_iff_lt_or_eq]

end Call

/-! ## The whole walk -/

/-- The groups fit in one listing: those of each path together with those that are left open before it. -/
def Room (level : ℤ) : ℕ → List (Bracket.Node Step DmValue) → Prop
  | _, [] => True
  | k, x :: rest => groupsOf x.steps + k ≤ 15 ∧ Room level (if leftOpen level x.steps = true then k + 1 else k) rest

/-- While these are open and `k` arrays were met whose groups are left open. -/
structure Holds (level : ℤ) (ctx : ListCtx) (opened : List Step) (k : ℕ) : Prop where
  sound : SoundReq ctx.req
  maxLevel : ctx.maxLevel = level
  level_eq : ctx.level = groupsOf opened
  groups : ctx.req.level + (if leftOpen level opened = true then 1 else 0) = groupsOf opened + k
  room : ctx.req.level ≤ 15
  depth : (opened.length : ℤ) ≤ level

section Walk
variable {A : Talloc} {ev : EventEnv} {level : ℤ} {ctx : ListCtx} {opened : List Step} {s : Step} {k : ℕ}

/-- Where something else is met, the array that is met last has been left. -/
theorem Holds.before (h : Holds level ctx opened k) (hdeep : ((opened ++ [s]).length : ℤ) ≤ level) :
    ctx.req.level = groupsOf opened + k := by
  have hgroups := h.groups
  rw [leftOpen_short hdeep] at hgroups
  simpa using hgroups

/-- Something is met. The groups on the way to it are counted, those that are left open come on top. -/
theorem Holds.fits (h : Holds level ctx opened k) (hdeep : ((opened ++ [s]).length : ℤ) ≤ level) :
    groupsOf (opened ++ [s]) + k ≤ 15 ↔ (opensGroup s = true → ctx.req.level < 15) := by
  have hgroups := h.before hdeep
  have hroom := h.room
  rw [groupsOf_snoc]
  cases hs : opensGroup s with
  | false =>
    simp only [Bool.false_eq_true, if_false, false_implies, iff_true]
    omega
  | true =>
    simp only [if_true, true_implies]
    omega

theorem Holds.enter {req' : Dm2Request} (h : Holds level ctx opened k) (hs : opensGroup s = true)
    (hdeep : ((opened ++ [s]).length : ℤ) ≤ level) (hsound : SoundReq req') (hlevel : req'.level = ctx.req.level + 1)
    (hroom : ctx.req.level < 15) :
    Holds level ⟨req', ctx.level + 1, ctx.maxLevel⟩ (opened ++ [s])
      (if leftOpen level (opened ++ [s]) = true then k + 1 else k) where
  sound := hsound
  maxLevel := h.maxLevel
  level_eq := by
    rw [groupsOf_snoc, if_pos hs, h.level_eq]
    rfl
  groups := by
    have hgroups := h.before hdeep
    rw [groupsOf_snoc, if_pos hs, hlevel]
    split_ifs <;> omega
  room := by
    rw [hlevel]
    omega
  depth := hdeep

/-- Something without a group of its own is entered. -/
theorem Holds.enter_plain (h : Holds level ctx opened k) (hs : opensGroup s = false)
    (hdeep : ((opened ++ [s]).length : ℤ) ≤ level) :
    Holds level ctx (opened ++ [s]) (if leftOpen level (opened ++ [s]) = true then k + 1 else k) := by
  have hno : leftOpen level (opened ++ [s]) = false := by
    by_contra hyes
    rw [Bool.not_eq_false, leftOpen_snoc] at hyes
    simp [opensGroup, hyes.2.1] at hs
  have hgroups := h.before hdeep
  rw [hno, if_neg Bool.false_ne_true]
  refine ⟨h.sound, h.maxLevel, ?_, ?_, h.room, hdeep⟩
  · rw [groupsOf_snoc, hs, h.level_eq]
    simp
  · rw [groupsOf_snoc, hs, hno]
    simpa using hgroups

/-- Something with a group is left. -/
theorem Holds.leave (h : Holds level ctx (opened ++ [s]) k) (hs : opensGroup s = true) :
    ∃ ctx', (if ctx.level ≠ 0 ∧ (ctx.level < ctx.maxLevel ∨ ctx.level = ctx.maxLevel ∧ s.elem.flags.array = false) then
        ctx.after (dmFinalizeGroup ctx.req) ListCtx.closed else ctx.closed) = some (true, ctx') ∧
      Holds level ctx' opened k := by
  have hdeep := h.depth
  have hlevel := h.level_eq
  have hle := groupsOf_le (opened ++ [s])
  have hgroups := h.groups
  have hroom := h.room
  have hbelow := leftOpen_short hdeep
  have hlen : (opened.length : ℤ) ≤ level := by
    rw [List.length_append, List.length_singleton] at hdeep
    omega
  rw [groupsOf_snoc, if_pos hs] at hlevel hle hgroups
  cases hcut : leftOpen level (opened ++ [s]) with
  | true =>
    obtain ⟨heq, hkind, harr⟩ := leftOpen_snoc.mp hcut
    rw [groupsOf_snoc, if_pos hs] at heq
    rw [hcut, if_pos rfl] at hgroups
    refine ⟨{ ctx with level := ctx.level - 1 }, ?_, ⟨h.sound, h.maxLevel, ?_, ?_, hroom, hlen⟩⟩
    · rw [if_neg]
      · rfl
      · rw [h.maxLevel, harr, hlevel, ← heq]
        simp
    · show ctx.level - 1 = groupsOf opened
      omega
    · show ctx.req.level + _ = _
      rw [hbelow, if_neg Bool.false_ne_true]
      omega
  | false =>
    rw [hcut, if_neg Bool.false_ne_true] at hgroups
    obtain ⟨req', hfin, hsound, hreq⟩ := dmFinalizeGroup_sound h.sound (by omega)
    refine ⟨⟨req', ctx.level - 1, ctx.maxLevel⟩, ?_, ⟨hsound, h.maxLevel, ?_, ?_, ?_, hlen⟩⟩
    · rw [if_pos]
      · simp only [ListCtx.after, hfin, ListCtx.closed]
      · refine ⟨by omega, ?_⟩
        rw [h.maxLevel]
        by_cases hlast : ctx.level = level
        · refine .inr ⟨hlast, ?_⟩
          -- an array there would be left open
          by_contra harr
          have harr : s.elem.flags.array = true := by simpa using harr
          have hkind : s.kind = .object := by simpa [opensGroup, harr] using hs
          have hyes : leftOpen level (opened ++ [s]) = true := by
            refine leftOpen_snoc.mpr ⟨?_, hkind, harr⟩
            rw [groupsOf_snoc, if_pos hs]
            omega
          rw [hcut] at hyes
          cases hyes
        · refine .inl ?_
          rw [List.length_append, List.length_singleton] at hle hdeep
          omega
    · show ctx.level - 1 = groupsOf opened
      omega
    · show req'.level + _ = _
      rw [hbelow, if_neg Bool.false_ne_true]
      omega
    · show req'.level ≤ 15
      omega

theorem Holds.leave_plain (h : Holds level ctx (opened ++ [s]) k) (hs : opensGroup s = false) :
    Holds level ctx opened k := by
  have hdeep := h.depth
  have hlevel := h.level_eq
  have hgroups := h.groups
  have hno : leftOpen level (opened ++ [s]) = false := by
    by_contra hyes
    rw [Bool.not_eq_false, leftOpen_snoc] at hyes
    simp [opensGroup, hyes.2.1] at hs
  rw [groupsOf_snoc, hs] at hlevel
  rw [hno, groupsOf_snoc, hs] at hgroups
  refine ⟨h.sound, h.maxLevel, by simpa using hlevel, ?_, h.room, ?_⟩
  · rw [leftOpen_short hdeep]
    simpa using hgroups
  · rw [List.length_append, List.length_singleton] at hdeep
    omega

/-! The calls of a walk, one by one. -/

theorem calls_none (evs : List Save.Event) : calls (listWalkCb A ev) evs none = none := by
  induction evs with
  | nil => rfl
  | cons x evs ih => exact ih

theorem listWalkCb_some {x : Save.Event} {r : Bool} {ctx' : ListCtx}
    (h : dmconfigListCb A ev x.type x.id x.elem x.value ctx = some (r, ctx')) :
    (listWalkCb A ev x.type x.id x.elem x.value (some ctx)).2 = some ctx' := by
  simp only [listWalkCb, Option.bind_some, h]

theorem listWalkCb_none {x : Save.Event} (h : dmconfigListCb A ev x.type x.id x.elem x.value ctx = none) :
    (listWalkCb A ev x.type x.id x.elem x.value (some ctx)).2 = none := by
  simp only [listWalkCb, Option.bind_some, h]

/-- A leaf: its group is opened and closed again. -/
theorem visit_step (hA : ∀ n, A.grants n = true) {x : Save.Event} {v : DmValue} (hx : x.mark = .visit s v)
    (hleaf : s.elem.container = false) (h : Holds level ctx opened k) :
    (opensGroup s = true ∧ ¬ctx.req.level < 15 ∧ dmconfigListCb A ev x.type x.id x.elem x.value ctx = none) ∨
      ((opensGroup s = true → ctx.req.level < 15) ∧ ∃ ctx', dmconfigListCb A ev x.type x.id x.elem x.value ctx = some (true, ctx') ∧
        Holds level ctx' opened k) := by
  obtain ⟨-, helem, hopen, hplain⟩ := @listCb_visit A ev x s v ctx hx
  rw [helem] at hleaf
  have hgroups := h.groups
  have hroom := h.room
  cases hs : opensGroup s with
  | false =>
    obtain ⟨req', hval, hsound, hl⟩ := addValue_sound hA ev hleaf x.value ctx h.sound
    refine .inr ⟨fun hh => (nomatch hh), { ctx with req := req' }, ?_, ⟨hsound, h.maxLevel, h.level_eq, ?_, ?_, h.depth⟩⟩
    · rw [hplain hs, hval, Option.map_some]
    · exact hl ▸ hgroups
    · exact hl ▸ hroom
  | true =>
    obtain ⟨head, hflat, hcb⟩ := hopen hs
    by_cases hlt : ctx.req.level < 15
    · obtain ⟨req1, hbegin, hsound1, hl1⟩ := beginGroup_sound hA avpElement head hflat h.sound hlt
      obtain ⟨req2, hval, hsound2, hl2⟩ := addValue_sound hA ev hleaf x.value { ctx with req := req1 } hsound1
      obtain ⟨req3, hfin, hsound3, hl3⟩ := dmFinalizeGroup_sound hsound2 (by rw [hl2]; dsimp only; omega)
      have hl : req3.level = ctx.req.level := by
        dsimp only at hl2
        omega
      refine .inr ⟨fun _ => hlt, { ctx with req := req3 }, ?_, ⟨hsound3, h.maxLevel, h.level_eq, hl ▸ hgroups, hl ▸ hroom, h.depth⟩⟩
      simp only [hcb, hbegin, ListCtx.after, hval, hfin, Option.bind_eq_bind, Option.bind_some]
    · refine .inl ⟨rfl, hlt, ?_⟩
      simp only [hcb, beginGroup_full avpElement head hlt, ListCtx.after]

/-- Something that is entered. -/
theorem enter_step (hA : ∀ n, A.grants n = true) {x : Save.Event} {v : DmValue} (hx : x.mark = .enter s v)
    (hdeep : ((opened ++ [s]).length : ℤ) ≤ level) (h : Holds level ctx opened k) :
    (opensGroup s = true ∧ ¬ctx.req.level < 15 ∧ dmconfigListCb A ev x.type x.id x.elem x.value ctx = none) ∨
      ((opensGroup s = true → ctx.req.level < 15) ∧ ∃ ctx', dmconfigListCb A ev x.type x.id x.elem x.value ctx = some (true, ctx') ∧
        Holds level ctx' (opened ++ [s]) (if leftOpen level (opened ++ [s]) = true then k + 1 else k)) := by
  obtain ⟨hopen, hplain⟩ := @listCb_enter A ev x s v ctx hx
  cases hs : opensGroup s with
  | false => exact .inr ⟨fun hh => (nomatch hh), ctx, hplain hs, h.enter_plain hs hdeep⟩
  | true =>
    obtain ⟨code, head, hflat, hcb⟩ := hopen hs
    by_cases hlt : ctx.req.level < 15
    · obtain ⟨req', hbegin, hsound, hl⟩ := beginGroup_sound hA code head hflat h.sound hlt
      refine .inr ⟨fun _ => hlt, ⟨req', ctx.level + 1, ctx.maxLevel⟩, ?_, h.enter hs hdeep hsound hl hlt⟩
      simp only [hcb, hbegin, ListCtx.after, ListCtx.opened]
    · refine .inl ⟨rfl, hlt, ?_⟩
      simp only [hcb, beginGroup_full code head hlt, ListCtx.after]

theorem leave_step {x : Save.Event} (hx : x.mark = .leave s) (h : Holds level ctx (opened ++ [s]) k) :
    ∃ ctx', dmconfigListCb A ev x.type x.id x.elem x.value ctx = some (true, ctx') ∧ Holds level ctx' opened k := by
  obtain ⟨hopen, hplain⟩ := @listCb_leave A ev x s ctx hx
  cases hs : opensGroup s with
  | false => exact ⟨ctx, hplain hs, h.leave_plain hs⟩
  | true =>
    obtain ⟨ctx', hleave, hholds⟩ := h.leave hs
    exact ⟨ctx', (hopen hs).trans hleave, hholds⟩

/-- The callback has an entry for each group exactly if there is room for what is met. -/
theorem calls_room (hA : ∀ n, A.grants n = true) (evs : List Save.Event) (nodes : List (Bracket.Node Step DmValue))
    (final : List Step) (hreplay : replay opened (evs.map Event.mark) = some (final, nodes))
    (hdeep : ∀ x ∈ nodes, (x.steps.length : ℤ) ≤ level)
    (hleaf : ∀ x ∈ nodes, ∀ s ∈ x.steps.getLast?, s.kind = .element → s.elem.container = false)
    (h : Holds level ctx opened k) :
    (calls (listWalkCb A ev) evs (some ctx)).isSome = true ↔ Room level k nodes := by
  induction evs generalizing opened k ctx nodes with
  | nil =>
    cases hreplay
    exact iff_of_true rfl trivial
  | cons x evs ih =>
    rw [calls_cons]
    rw [List.map_cons] at hreplay
    cases hx : x.mark with
    | visit s v =>
      rw [hx, replay, Option.map_eq_some_iff] at hreplay
      obtain ⟨⟨final', nodes'⟩, hreplay, heq⟩ := hreplay
      cases heq
      have hhere := hdeep _ List.mem_cons_self
      have hkind : s.kind = .element := (@listCb_visit A ev x s v ctx hx).1
      have hcont := hleaf _ List.mem_cons_self s (by simp) hkind
      have hno : leftOpen level (opened ++ [s]) = false := by
        by_contra hyes
        rw [Bool.not_eq_false, leftOpen_snoc, hkind] at hyes
        cases hyes.2.1
      have hfits := h.fits hhere
      rcases @visit_step A ev level ctx opened s k hA x v hx hcont h with ⟨hs, hfull, hcb⟩ | ⟨hok, ctx', hcb, hholds⟩
      · rw [listWalkCb_none hcb, calls_none]
        refine iff_of_false (by simp) fun hroom => hfull ?_
        exact hfits.mp hroom.1 hs
      · rw [listWalkCb_some hcb, Room, hno, if_neg Bool.false_ne_true]
        rw [ih nodes' hreplay (fun y hy => hdeep y (List.mem_cons_of_mem _ hy))
          (fun y hy => hleaf y (List.mem_cons_of_mem _ hy)) hholds]
        exact (and_iff_right (hfits.mpr hok)).symm
    | enter s v =>
      rw [hx, replay, Option.map_eq_some_iff] at hreplay
      obtain ⟨⟨final', nodes'⟩, hreplay, heq⟩ := hreplay
      cases heq
      have hhere := hdeep _ List.mem_cons_self
      have hfits := h.fits hhere
      rcases @enter_step A ev level ctx opened s k hA x v hx hhere h with ⟨hs, hfull, hcb⟩ | ⟨hok, ctx', hcb, hholds⟩
      · rw [listWalkCb_none hcb, calls_none]
        refine iff_of_false (by simp) fun hroom => hfull ?_
        exact hfits.mp hroom.1 hs
      · rw [listWalkCb_some hcb, Room]
        rw [ih nodes' hreplay (fun y hy => hdeep y (List.mem_cons_of_mem _ hy))
          (fun y hy => hleaf y (List.mem_cons_of_mem _ hy)) hholds]
        exact (and_iff_right (hfits.mpr hok)).symm
    | leave s =>
      rw [hx, replay] at hreplay
      split_ifs at hreplay with hlast
      have hopened : opened = opened.dropLast ++ [s] := (List.dropLast_append_getLast? s hlast).symm
      rw [hopened] at h
      obtain ⟨ctx', hcb, hholds⟩ := @leave_step A ev level ctx _ s k x hx h
      rw [listWalkCb_some hcb]
      exact ih nodes hreplay hdeep hleaf hholds

end Walk

/-! ## Every start is answered -/

/-- A call that returns `RC_OK` unless it faults. -/
def Fine (call : Call) : Prop := ∀ r ∈ call, r.1 = .ok

section Start
variable {A : Talloc}

theorem Fine.andThen {x : Call} {f : Dm2Request → Call} (h : Fine x) (hf : ∀ req, Fine (f req)) : Fine (x.andThen f) := by
  cases x with
  | none => exact fun r hr => nomatch hr
  | some r =>
    have hok : r.1 = .ok := h r rfl
    obtain ⟨rc, req⟩ := r
    cases hok
    exact hf req

theorem dmPutAvp_fine (hA : ∀ n, A.grants n = true) (req : Dm2Request) (code vendorId : UInt32) (data : Option Mem)
    (len : ℕ) (hdata : ¬(len ≠ 0 ∧ data = none)) : Fine (dmPutAvp A req code vendorId data len) := by
  unfold dmPutAvp
  rw [if_neg hdata]
  apply Fine.andThen
  · unfold dmPacketEnsureSpace
    dsimp only
    split_ifs with hsame hgranted
    · intro r hr
      cases hr
      rfl
    · intro r hr
      obtain ⟨m, -, hr⟩ := Option.bind_eq_some_iff.mp hr
      cases hr
      rfl
    · exact absurd (hA _) hgranted
  · intro req' r hr
    obtain ⟨m, -, hr⟩ := Option.bind_eq_some_iff.mp hr
    cases hr
    rfl

theorem beginGroup_fine (hA : ∀ n, A.grants n = true) (req : Dm2Request) (code : UInt32) (head : Avps)
    (hflat : head.depth = 0) : Fine (beginGroup A req code head) := by
  have hputs : ∀ avps : Avps, avps.depth = 0 → ∀ req, Fine (putAvps A req avps) := by
    intro avps
    induction avps with
    | nil =>
      intro _ req r hr
      cases hr
      rfl
    | avp code vendorId data rest ih =>
      intro hrest req
      exact (dmPutAvp_fine hA req code vendorId (some data) data.length (by simp)).andThen (ih hrest)
    | group code vendorId content rest =>
      intro hrest
      have hdeep : max (content.depth + 1) rest.depth = 0 := hrest
      omega
  refine Fine.andThen ?_ (hputs head hflat)
  unfold dmNewGroup
  split_ifs
  · exact dmPutAvp_fine hA _ code vpTravelping none 0 (by simp)
  · exact fun r hr => nomatch hr

theorem listWalkCb_eager (hA : ∀ n, A.grants n = true) (ev : EventEnv) : Eager (listWalkCb A ev) := by
  intro type id e v s htype
  cases s with
  | none => rfl
  | some ctx =>
    obtain ⟨s, hmark⟩ : ∃ s, (Save.Event.mk type id e v).mark = .enter s v := by
      cases type <;> first | exact ⟨_, rfl⟩ | cases htype
    obtain ⟨hopen, hplain⟩ := @listCb_enter A ev ⟨type, id, e, v⟩ s v ctx hmark
    dsimp only at hopen hplain
    simp only [listWalkCb, Option.bind_some]
    cases hs : opensGroup s with
    | false => rw [hplain hs]
    | true =>
      obtain ⟨code, head, hflat, hcb⟩ := hopen hs
      have hfine := beginGroup_fine hA ctx.req code head hflat
      rw [hcb]
      cases hbegin : beginGroup A ctx.req code head with
      | none => rfl
      | some r =>
        have hok := hfine r hbegin
        obtain ⟨rc, req⟩ := r
        cases hok
        rfl

end Start

/-! ## What fits -/

/-- A request for a listing of `path` shows these ids, from that of the element at the path on. -/
def InListing (env : Env) (st : DmStore) (level : ℤ) (path : Selector) (p : List Step) : Prop :=
  (p.length : ℤ) ≤ level ∧
    if path.headD 0 ≠ 0 then ∃ ref, st.getElementRef env.schema path = some (some ref) ∧ Beneath env st ref p
    else ∃ v, Present env st (InIndex st) env.schema.root st.root p v

/-- For everything in a listing: the groups on the way to it, and those of the arrays before it that are left open,
are not more than the 15 entries of `grp` behind that of the packet. -/
def ListFits (env : Env) (st : DmStore) (level : ℤ) (path : Selector) : Prop :=
  ∀ p, InListing env st level path p → ∀ arrays : List (List Step), arrays.Nodup →
    (∀ q ∈ arrays, InListing env st level path q ∧ leftOpen level q = true ∧ q.map Step.id < p.map Step.id) →
    groupsOf p + arrays.length ≤ 15

section Fits
variable {level : ℤ} {nodes : List (Bracket.Node Step DmValue)}

theorem room_iff (k : ℕ) : Room level k nodes ↔ ∀ pre x post, nodes = pre ++ x :: post →
    groupsOf x.steps + (k + pre.countP fun y => leftOpen level y.steps) ≤ 15 := by
  induction nodes generalizing k with
  | nil =>
    refine iff_of_true trivial ?_
    intro pre x post h
    simp at h
  | cons y nodes ih =>
    rw [Room, ih]
    have hcount : ∀ pre : List (Bracket.Node Step DmValue),
        k + (y :: pre).countP (fun z => leftOpen level z.steps) =
          (if leftOpen level y.steps = true then k + 1 else k) + pre.countP fun z => leftOpen level z.steps := by
      intro pre
      rw [List.countP_cons]
      split_ifs <;> omega
    constructor
    · rintro ⟨hy, hrest⟩ pre x post h
      cases pre with
      | nil =>
        cases h
        exact hy
      | cons z pre =>
        obtain ⟨rfl, hsplit⟩ := List.cons.inj h
        rw [hcount]
        exact hrest pre x post hsplit
    · intro h
      refine ⟨h [] y nodes rfl, ?_⟩
      intro pre x post hsplit
      rw [← hcount]
      exact h (y :: pre) x post (by rw [hsplit, List.cons_append])

/-- The same for the set of what is met. -/
theorem room_of_sorted (hsorted : nodes.Pairwise fun x y => x.path Step.id < y.path Step.id) :
    Room level 0 nodes ↔ ∀ x ∈ nodes, ∀ arrays : List (List Step), arrays.Nodup →
      (∀ q ∈ arrays, (∃ y ∈ nodes, y.steps = q) ∧ leftOpen level q = true ∧ q.map Step.id < x.path Step.id) →
      groupsOf x.steps + arrays.length ≤ 15 := by
  rw [room_iff]
  constructor
  · intro h x hx arrays hnodup harrays
    obtain ⟨pre, post, hsplit⟩ := List.append_of_mem hx
    have hroom := h pre x post hsplit
    rw [hsplit, List.pairwise_append, List.pairwise_cons] at hsorted
    obtain ⟨-, ⟨hpost, -⟩, -⟩ := hsorted
    have hsub : arrays ⊆ (pre.filter fun y => leftOpen level y.steps).map Bracket.Node.steps := by
      intro q hq
      obtain ⟨⟨y, hy, rfl⟩, hleft, hlt⟩ := harrays q hq
      have hlt : y.path Step.id < x.path Step.id := hlt
      refine List.mem_map.mpr ⟨y, List.mem_filter.mpr ⟨?_, hleft⟩, rfl⟩
      rw [hsplit, List.mem_append, List.mem_cons] at hy
      rcases hy with hy | rfl | hy
      · exact hy
      · exact absurd hlt (List.lt_irrefl _)
      · exact absurd (List.lt_trans hlt (hpost y hy)) (List.lt_irrefl _)
    have hle := (hnodup.subperm hsub).length_le
    rw [List.length_map, ← List.countP_eq_length_filter] at hle
    omega
  · intro h pre x post hsplit
    rw [hsplit, List.pairwise_append] at hsorted
    obtain ⟨hpre, -, hbefore⟩ := hsorted
    have hroom := h x (by rw [hsplit]; simp) ((pre.filter fun y => leftOpen level y.steps).map Bracket.Node.steps) ?_ ?_
    · rw [List.length_map, ← List.countP_eq_length_filter] at hroom
      omega
    · rw [List.nodup_iff_pairwise_ne, List.pairwise_map]
      refine (hpre.sublist List.filter_sublist).imp ?_
      intro y z hlt heq
      rw [Bracket.Node.path, Bracket.Node.path, heq] at hlt
      exact List.lt_irrefl _ hlt
    · intro q hq
      obtain ⟨y, hy, rfl⟩ := List.mem_map.mp hq
      obtain ⟨hy, hleft⟩ := List.mem_filter.mp hy
      refine ⟨⟨y, ?_, rfl⟩, hleft, hbefore y hy x List.mem_cons_self⟩
      rw [hsplit]
      exact List.mem_append_left _ hy

end Fits

/-! ## Every request -/

theorem Present.leaf_last {env : Env} {st : DmStore} {rowOf : Addr → ℕ → Addr → Prop} {kw a : ℕ} {p : List Step}
    {v : DmValue} (h : Present env st rowOf kw a p v) (s : Step) (hs : s ∈ p.getLast?) (hkind : s.kind = .element) :
    s.elem.container = false := by
  induction h with
  | leaf kw a i e v he hc =>
    cases hs
    exact hc
  | table =>
    cases hs
    cases hkind
  | inTable kw a i e v b p u he htype hv hb h ih =>
    obtain ⟨s0, rest, rfl, -⟩ := h.starts
    rw [List.getLast?_cons_cons] at hs
    exact ih hs
  | object =>
    cases hs
    cases hkind
  | row =>
    cases hs
    cases hkind
  | inRow kw a i e r n b p u he htype hr hn hb h ih =>
    obtain ⟨s0, rest, rfl, -⟩ := h.starts
    rw [List.getLast?_cons_cons, List.getLast?_cons_cons] at hs
    exact ih hs

theorem InListing.leaf_last {env : Env} {st : DmStore} {level : ℤ} {path : Selector} {p : List Step}
    (h : InListing env st level path p) (s : Step) (hs : s ∈ p.getLast?) (hkind : s.kind = .element) :
    s.elem.container = false := by
  obtain ⟨-, h⟩ := h
  split_ifs at h with hpath
  · obtain ⟨ref, -, h⟩ := h
    unfold Beneath at h
    split at h
    · obtain ⟨t, kw, v, -, -, h, -⟩ := h
      exact Present.leaf_last h s hs hkind
    · obtain ⟨n, -, rfl | ⟨b, q, v, -, h, rfl⟩⟩ := h
      · cases hs
        cases hkind
      · obtain ⟨s0, rest, rfl, -⟩ := h.starts
        rw [List.getLast?_cons_cons] at hs
        exact Present.leaf_last h s hs hkind
  · obtain ⟨v, h⟩ := h
    exact Present.leaf_last h s hs hkind

theorem listLevel_pos (level : UInt16) : 1 ≤ listLevel (level.toNat : ℤ) := by
  unfold listLevel dmSelectorLen
  split_ifs <;> omega

section Requests
variable {full : Prop} {A : Talloc} {env : Env} {ev : EventEnv} {st : DmStore} {level : ℤ} {path : Selector}
  {req : Dm2Request}

/-- A walk that reports what is listed. -/
theorem reports_fit (hA : ∀ n, A.grants n = true) {part : (σ : Type) → WalkCb σ → σ → Option σ}
    {P : Bracket.Node Step DmValue → Prop} (hrep : Reports part P)
    (hP : ∀ p, (∃ v, P ⟨p, v⟩) ↔ InListing env st level path p) (hlevel : 0 ≤ level) (hreq : SoundReq req)
    (h0 : req.level = 0) :
    ∃ s, part _ (listWalkCb A ev) (some ⟨req, 0, level⟩) = some s ∧ (s.isSome = true ↔ ListFits env st level path) := by
  obtain ⟨evs, nodes, hcalls, htold⟩ := hrep
  refine ⟨_, hcalls _ _ (listWalkCb_eager hA ev) _, ?_⟩
  have hlisted : ∀ p, InListing env st level path p ↔ ∃ x ∈ nodes, x.steps = p := by
    intro p
    rw [← hP]
    constructor
    · rintro ⟨v, hv⟩
      exact ⟨⟨p, v⟩, (htold.mem _).mpr hv, rfl⟩
    · rintro ⟨⟨p', v⟩, hx, rfl⟩
      exact ⟨v, (htold.mem _).mp hx⟩
  have hstart : Holds level ⟨req, 0, level⟩ [] 0 := by
    refine ⟨hreq, rfl, rfl, ?_, ?_, hlevel⟩
    · have hno : leftOpen level [] = false := by simp [leftOpen]
      rw [hno]
      exact h0
    · show req.level ≤ 15
      omega
  rw [calls_room hA evs nodes [] htold.balanced.closed ?_ ?_ hstart, room_of_sorted htold.sorted]
  · constructor
    · intro h p hp arrays hnodup harrays
      obtain ⟨x, hx, rfl⟩ := (hlisted p).mp hp
      refine h x hx arrays hnodup ?_
      intro q hq
      obtain ⟨hq, hleft, hlt⟩ := harrays q hq
      exact ⟨(hlisted q).mp hq, hleft, hlt⟩
    · intro h x hx arrays hnodup harrays
      refine h x.steps ((hlisted _).mpr ⟨x, hx, rfl⟩) arrays hnodup ?_
      intro q hq
      obtain ⟨hq, hleft, hlt⟩ := harrays q hq
      exact ⟨(hlisted q).mpr hq, hleft, hlt⟩
  · exact fun x hx => ((hlisted _).mpr ⟨x, hx, rfl⟩).1
  · exact fun x hx => ((hlisted _).mpr ⟨x, hx, rfl⟩).leaf_last

/-- `rpc_db_list` without a context that was lost, or with one. -/
theorem rpcDbList_fits (hA : ∀ n, A.grants n = true) (hw : StoreWf full env.schema st) (hpar : Intact st)
    (hlevel : 1 ≤ listLevel level) (hreq : SoundReq req) (h0 : req.level = 0) :
    rpcDbList A env ev st level path req ≠ some none ↔ ListFits env st (listLevel level) path := by
  have hdone : ∀ s, listWalk env (listWalkCb A ev) st (listLevel level) path (some ⟨req, 0, listLevel level⟩) = some s →
      (rpcDbList A env ev st level path req ≠ some none ↔ s.isSome = true) := by
    intro s hs
    cases s with
    | none => simp [rpcDbList, hs]
    | some ctx => simp [rpcDbList, hs]
  by_cases hpath : path.headD 0 ≠ 0
  · have hwalk : listWalk env (listWalkCb A ev) st (listLevel level) path (some ⟨req, 0, listLevel level⟩) =
        walkBySelector env (listWalkCb A ev) st path (listLevel level) (some ⟨req, 0, listLevel level⟩) := if_pos hpath
    have hnothing : (∀ ref, st.getElementRef env.schema path ≠ some (some ref)) → ListFits env st (listLevel level) path := by
      intro hno p hp
      obtain ⟨-, hp⟩ := hp
      rw [if_pos hpath] at hp
      obtain ⟨ref, href, -⟩ := hp
      exact absurd href (hno ref)
    cases href : st.getElementRef env.schema path with
    | none =>
      refine iff_of_true ?_ (hnothing fun ref h => ?_)
      · simp [rpcDbList, hwalk, walkBySelector, href]
      · rw [href] at h
        cases h
    | some r =>
      cases r with
      | none =>
        refine iff_of_true ?_ (hnothing fun ref h => ?_)
        · simp [rpcDbList, hwalk, walkBySelector, href]
        · rw [href] at h
          cases h
      | some ref =>
        obtain ⟨P, hrep, hP⟩ := walkRef_reports hw hpar hlevel href
        have hlisted : ∀ p, (∃ v, P ⟨p, v⟩) ↔ InListing env st (listLevel level) path p := by
          intro p
          rw [hP, InListing, if_pos hpath]
          refine and_congr_right fun _ => ?_
          constructor
          · exact fun h => ⟨ref, href, h⟩
          · rintro ⟨ref', href', h⟩
            rw [href] at href'
            cases href'
            exact h
        obtain ⟨s, hs, hfits⟩ := @reports_fit A env ev st (listLevel level) path req hA _ _ hrep hlisted (by omega) hreq h0
        rw [hdone s ?_, hfits]
        rw [hwalk]
        simp only [walkBySelector, href, Option.bind_eq_bind, Option.bind_some]
        exact hs
  · obtain ⟨t, ht, hid⟩ := hw.root
    have hp : env.schema.place t.id = some (env.schema.root, false) := by
      rw [hid]
      rfl
    have hrep := walkTable_reports hw hpar (inIndex_followed st) (env.schema.root + 1) (listLevel level) env.schema.root
      st.root t hlevel (Nat.lt_succ_self _) ht hp
    have hlisted : ∀ p, (∃ v, Shallow env st (InIndex st) (listLevel level) env.schema.root st.root ⟨p, v⟩) ↔
        InListing env st (listLevel level) path p := by
      intro p
      rw [InListing, if_neg hpath]
      constructor
      · rintro ⟨v, h, hlen⟩
        exact ⟨hlen, v, h⟩
      · rintro ⟨hlen, v, h⟩
        exact ⟨v, h, hlen⟩
    obtain ⟨s, hs, hfits⟩ := @reports_fit A env ev st (listLevel level) path req hA _ _ hrep hlisted (by omega) hreq h0
    rw [hdone s ?_, hfits]
    exact (if_neg hpath).trans hs

end Requests

/-- **Entries for groups.** For an answer in which no group is open, `rpc_db_list` opens no group that has no entry
exactly if the groups fit. The skeleton reads the level as a word of 16 bits. -/
theorem list_groups_fit_iff {full : Prop} (A : Talloc) (hA : ∀ n, A.grants n = true) (env : Env) (ev : EventEnv)
    (st : DmStore) (hw : StoreWf full env.schema st) (hpar : Intact st) (level : UInt16) (path : Selector)
    (req : Dm2Request) (hreq : SoundReq req) (h0 : req.level = 0) :
    rpcDbList A env ev st level.toNat path req ≠ some none ↔ ListFits env st (listLevel level.toNat) path :=
  rpcDbList_fits hA hw hpar (listLevel_pos level) hreq h0

def sampleListEvents : EventEnv := ⟨sampleSchema, id, fun _ _ => .nil, nil_depth_le⟩

/-- A request for a leaf. -/
theorem list_groups_fit_single : ∃ req, dmNewPacket ⟨fun _ => true, fun _ => 0⟩ 1 0 2 3 4 = some (.ok, req) ∧
    rpcDbList ⟨fun _ => true, fun _ => 0⟩ sampleEnv sampleListEvents sampleStore (1 : UInt16).toNat [1] req ≠ some none := by
  have hnew := dmNewPacket_eq ⟨fun _ => true, fun _ => 0⟩ (fun _ => rfl) 1 0 2 3 4
  obtain ⟨hsound, h0, -⟩ := dmNewPacket_sound hnew
  have hw : StoreWf False sampleSchema sampleStore := init_wf rfl
  refine ⟨_, hnew, (list_groups_fit_iff _ (fun _ => rfl) sampleEnv sampleListEvents sampleStore hw sampleStore_intact 1 [1] _
    hsound h0).mpr ?_⟩
  have hleaf : ∀ p, InListing sampleEnv sampleStore (listLevel (1 : UInt16).toNat) [1] p →
      p = [⟨1, .element, { sampleLeaf .uint with key := [118], validate := some 0 }⟩] := by
    rintro p ⟨-, hp⟩
    rw [if_pos (by decide)] at hp
    obtain ⟨ref, href, hp⟩ := hp
    have hfound : sampleStore.getElementRef sampleEnv.schema [1] =
        some (some ⟨1, { sampleLeaf .uint with key := [118], validate := some 0 }, .token, .table 0, .slot 0 0⟩) := rfl
    rw [hfound] at href
    cases href
    obtain ⟨t, kw, v, ht, hplace, h, hs⟩ := hp
    cases ht
    cases hplace
    exact ((@present_leaf sampleEnv sampleStore (InIndex sampleStore) 1 0 0 _ p v rfl rfl).mp ⟨h, hs⟩).1
  intro p hp arrays _ harrays
  have hnone : arrays = [] := by
    refine List.eq_nil_iff_forall_not_mem.mpr fun q hq => ?_
    obtain ⟨hq, hleft, -⟩ := harrays q hq
    rw [hleaf q hq] at hleft
    exact absurd hleft (by decide)
  rw [hleaf p hp, hnone]
  decide

/-! ## Arrays at the last level -/

/-- An array of numbers. -/
def sampleArray (i : ℕ) : DmElement :=
  { sampleLeaf .object with key := [97 + i], flags := { sampleFlags with array := true }, max := 9 }

def sampleHolder : DmElement := { sampleLeaf .token with key := [104], table := 1 }

/-- A table with 15 arrays. -/
def arraysTable : ℕ → DmTable
  | 0 => ⟨[sampleLeaf .uint], [⟨true, .inst, 0⟩]⟩
  | 1 => ⟨(List.range 15).map sampleArray, []⟩
  | 2 => ⟨[sampleHolder], []⟩
  | _ => ⟨[], []⟩

def arraysSchema : Schema where
  table := arraysTable
  root := 2
  child_lt := by
    intro k
    match k with
    | 0 | 1 | 2 => decide
    | k + 3 => exact fun e he => absurd he List.not_mem_nil
  index_head := by
    intro k
    match k with
    | 0 | 1 | 2 => decide
    | k + 3 => exact fun e he => absurd he List.not_mem_nil
  set_fits := by
    intro k
    match k with
    | 0 | 1 | 2 => decide
    | k + 3 => exact fun e he => absurd he List.not_mem_nil
  array_leaf := by
    intro k
    match k with
    | 0 | 1 | 2 => decide
    | k + 3 => exact fun e he => absurd he List.not_mem_nil
  get_leaf := by
    intro k
    match k with
    | 0 | 1 | 2 => decide
    | k + 3 => exact fun e he => absurd he List.not_mem_nil

def arraysEnv : Env := { sampleEnv with schema := arraysSchema }

def emptyArray : DmValue := ⟨.inst (some ⟨Index.InstTree.alloc [⟨true, .inst, 0⟩], none, none⟩), 0, Flags.zero, true⟩

def arraysStore : DmStore where
  heap := Function.update (Function.update (fun _ => none) 1 (some ⟨[1], List.replicate 15 emptyArray, none⟩)) 0
    (some ⟨[], [⟨.table (some 1), 0, Flags.zero, true⟩], none⟩)
  next := 2
  root := 0

theorem arraysStore_init : DmStore.init arraysSchema = some arraysStore := rfl

theorem arraysStore_intact : Intact arraysStore := by
  intro a i v hv
  obtain ⟨t, ht, hvt⟩ := DmStore.slot_eq_some.mp hv
  simp only [arraysStore, Function.update_apply] at ht
  split_ifs at ht with h0 h1
  · cases ht
    rw [List.mem_singleton.mp (List.mem_of_getElem? hvt)]
  · cases ht
    rw [(List.mem_replicate.mp (List.mem_of_getElem? hvt)).2]
    rfl

theorem arraysSchema_pathsFit : PathsFit arraysSchema := by
  intro p kw i e hp _
  have hlen := place_length p kw false hp
  have hroot : arraysSchema.root = 2 := rfl
  rw [hroot] at hlen
  show p.length < 16
  omega

/-- The path of an array in the listing of level 1. -/
def arrayPath (i : ℕ) : List Step := [⟨1, .table, sampleHolder⟩, ⟨i + 1, .object, sampleArray i⟩]

theorem arrayPath_listed {i : ℕ} (hi : i < 15) : InListing arraysEnv arraysStore 2 [] (arrayPath i) := by
  have he : (arraysSchema.table 1).elems[i]? = some (sampleArray i) := by
    show ((List.range 15).map sampleArray)[i]? = _
    rw [List.getElem?_map, List.getElem?_range hi]
    rfl
  have hv : arraysStore.slot 1 i = some emptyArray := by
    refine DmStore.slot_eq_some.mpr ⟨⟨[1], List.replicate 15 emptyArray, none⟩, rfl, ?_⟩
    rw [List.getElem?_replicate, if_pos hi]
  refine ⟨le_rfl, ?_⟩
  rw [if_neg (by decide)]
  exact ⟨emptyArray, .inTable 2 0 0 sampleHolder _ 1 _ _ rfl rfl rfl rfl (.object 1 1 i (sampleArray i) emptyArray he rfl hv)⟩

theorem arrayPath_open (i : ℕ) : leftOpen 2 (arrayPath i) = true := by
  simp [leftOpen, groupsOf, opensGroup, arrayPath, sampleHolder, sampleArray, sampleLeaf, sampleFlags]

/-- None of the groups of 14 arrays is closed: with the last array a group is to be opened behind the 15 entries. -/
theorem arrays_overflow : PathsFit arraysSchema ∧ DmStore.init arraysSchema = some arraysStore ∧
    ∃ req, dmNewPacket ⟨fun _ => true, fun _ => 0⟩ 1 0 2 3 4 = some (.ok, req) ∧
      rpcDbList ⟨fun _ => true, fun _ => 0⟩ arraysEnv sampleListEvents arraysStore (1 : UInt16).toNat [] req = some none := by
  have hnew := dmNewPacket_eq ⟨fun _ => true, fun _ => 0⟩ (fun _ => rfl) 1 0 2 3 4
  obtain ⟨hsound, h0, -⟩ := dmNewPacket_sound hnew
  have hw : StoreWf False arraysSchema arraysStore := init_wf arraysStore_init
  refine ⟨arraysSchema_pathsFit, arraysStore_init, _, hnew, ?_⟩
  by_contra hne
  have hfits := (@rpcDbList_fits False ⟨fun _ => true, fun _ => 0⟩ arraysEnv sampleListEvents arraysStore
    (1 : UInt16).toNat [] _ (fun _ => rfl) hw arraysStore_intact (listLevel_pos 1) hsound h0).mp hne
  have hroom := hfits (arrayPath 14) (arrayPath_listed (by decide)) ((List.range 14).map arrayPath) ?_ ?_
  · revert hroom
    rw [List.length_map, List.length_range]
    decide
  · refine List.nodup_range.map ?_
    intro i j hij
    have h : i = j ∧ sampleArray i = sampleArray j := by simpa [arrayPath] using hij
    exact h.1
  · intro q hq
    obtain ⟨i, hi, rfl⟩ := List.mem_map.mp hq
    have hi := List.mem_range.mp hi
    refine ⟨arrayPath_listed (by omega), arrayPath_open i, ?_⟩
    exact List.Lex.cons (List.Lex.rel (by dsimp only; omega))

end Mand.Rpc
