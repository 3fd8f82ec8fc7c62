import Mand.Server.Discard
import Mand.Index.Order

/-! # What a commit writes

`cache_validate` asks the validator of every item that carries no error code yet, and leaves the code
it gets in the item. A commit that is refused changes nothing but these codes. -/
namespace Mand.Server
open Mand.Store Mand.Index Mand.Msg
set_option autoImplicit false

/-- The item is asked about in a commit, and its validator rejects the value. -/
def CacheItem.rejected (env : Env) (st : DmStore) (item : CacheItem) : Bool :=
  match item.elem.validate, baseTable st item.base with
  | some h, some t =>
    item.code = 0 ∧ (env.validate h t item.id item.elem item.newValue).1 &&& 1 = 0
  | _, _ => false

/-- What a client sees of an item. -/
def CacheItem.pair (item : CacheItem) : Selector × DmValue := (item.sb, item.newValue)

theorem and_bit (r rs : ℕ) (h : rs ≤ 1) :
    r &&& rs ≤ 1 ∧ (r &&& rs = 0 ↔ r &&& 1 = 0 ∨ rs = 0) := by
  have hcases : rs = 0 ∨ rs = 1 := by omega
  cases hcases with
  | inl h0 =>
    rw [h0, Nat.and_zero]
    exact ⟨Nat.zero_le 1, ⟨fun _ => Or.inr rfl, fun _ => rfl⟩⟩
  | inr h1 =>
    rw [h1]
    exact ⟨Nat.and_le_right, ⟨Or.inl, fun hh => hh.resolve_right (by decide)⟩⟩

/-- The verdict of `cache_validate`: one item that is rejected is enough, and the items keep their
selectors and values. -/
theorem cacheValidate_spec (env : Env) (st : DmStore) (cache cache' : Cache) (r : ℕ)
    (h : cacheValidate env st cache = some (r, cache')) :
    r ≤ 1 ∧ (r = 0 ↔ ∃ item ∈ cache, item.rejected env st = true) ∧
      cache'.map CacheItem.pair = cache.map CacheItem.pair := by
  induction cache generalizing r cache' with
  | nil =>
    cases h
    refine ⟨Nat.le_refl 1, ⟨fun hh => absurd hh (by decide), ?_⟩, rfl⟩
    rintro ⟨item, hm, -⟩
    exact absurd hm List.not_mem_nil
  | cons item rest ih =>
    unfold cacheValidate at h
    -- An item that is not asked about changes nothing.
    have hskip : item.rejected env st = false →
        ((cacheValidate env st rest).bind fun p => some (p.1, item :: p.2)) = some (r, cache') →
        r ≤ 1 ∧ (r = 0 ↔ ∃ x ∈ item :: rest, x.rejected env st = true) ∧
          cache'.map CacheItem.pair = (item :: rest).map CacheItem.pair := by
      intro hrej hs
      obtain ⟨⟨rs, rest'⟩, hrest, hs⟩ := Option.bind_eq_some_iff.mp hs
      cases hs
      obtain ⟨hle, hiff, hmap⟩ := ih rest' rs hrest
      refine ⟨hle, ?_, by rw [List.map_cons, List.map_cons, hmap]⟩
      rw [hiff]
      simp only [List.mem_cons, exists_eq_or_imp, hrej, Bool.false_eq_true, false_or]
    cases hv : item.elem.validate with
    | none =>
      simp only [hv] at h
      exact hskip (by unfold CacheItem.rejected; rw [hv]) h
    | some hook =>
      simp only [hv] at h
      by_cases hcode : item.code = 0
      · rw [if_pos hcode] at h
        obtain ⟨t, ht, h⟩ := Option.bind_eq_some_iff.mp h
        obtain ⟨⟨rs, rest'⟩, hrest, h⟩ := Option.bind_eq_some_iff.mp h
        cases h
        obtain ⟨hle, hiff, hmap⟩ := ih rest' rs hrest
        obtain ⟨hle', hiff'⟩ := and_bit (env.validate hook t item.id item.elem item.newValue).1 rs hle
        refine ⟨hle', ?_, ?_⟩
        · have hrej : item.rejected env st = true ↔
              (env.validate hook t item.id item.elem item.newValue).1 &&& 1 = 0 := by
            unfold CacheItem.rejected
            simp only [hv, ht, hcode, true_and, decide_eq_true_eq]
          rw [hiff', hiff, ← hrej]
          simp only [List.mem_cons, exists_eq_or_imp]
        · rw [List.map_cons, List.map_cons, hmap]
          rfl
      · rw [if_neg hcode] at h
        refine hskip ?_ h
        unfold CacheItem.rejected
        cases baseTable st item.base with
        | none => rw [hv]
        | some t => simp only [hv, hcode, false_and, decide_false]

/-! ## The history of a session -/

/-- The requests of the session. -/
inductive Req
  | set (values : List (Selector × Avp))
  | commit (order : List Selector)

def Req.event (key : ℕ) : Req → Event
  | .set values => .set key values
  | .commit order => .commit key order

/-- The paths that `rpc_db_set` gets through to. -/
def setPaths (env : Env) (flags : ℕ) : List (Selector × Avp) → DmStore → Cache → List Selector
  | [], _, _ => []
  | (sel, avp) :: rest, st, cache =>
    match st.getElementRef env.schema sel with
    | some (some ref) =>
      match setCb env st cache flags sel ref avp with
      | some (.ok, st, cache) => sel :: setPaths env flags rest st cache
      | _ => []
    | _ => []

/-- The path is one of those in the list. -/
def onPath (paths : List Selector) (sel : Selector) : Bool :=
  paths.any fun p => dmSelcmp p sel dmSelectorLen = 0

/-- The paths whose value was rejected in a commit and that were not set since. -/
def rejections (env : Env) (s : State) (c : Ctx) (rc : Rc) (rej : List Selector) :
    Req → List Selector
  | .set values => rej.filter fun p => ¬onPath (setPaths env c.flags values s.store s.cache) p
  | .commit _ =>
    if rc = .errMisc then
      rej ++ (s.cache.filter fun item => item.rejected env s.store).map CacheItem.sb
    else rej

/-- The items that a commit writes, in order. -/
def commitItems (env : Env) (s : State) (order : List Selector) : List CacheItem :=
  match cacheValidate env s.store s.cache with
  | some (_, cache) => order.filterMap (cacheFind cache)
  | none => []

/-- A commit of a run: the state before it, the rejections so far, its order, the code and the state
after it. -/
structure Committed where
  before : State
  rej : List Selector
  order : List Selector
  rc : Rc
  after : State

/-- The commits of a run. -/
def commits (env : Env) (key : ℕ) (c : Ctx) : State → List Selector → List Req → List Committed
  | _, _, [] => []
  | s, rej, req :: reqs =>
    match step env s (req.event key) with
    | none => []
    | some (rc, s') =>
      let rest := commits env key c s' (rejections env s c rc rej req) reqs
      match req with
      | .set _ => rest
      | .commit order => ⟨s, rej, order, rc, s'⟩ :: rest

/-- A commit that succeeds writes no value that was rejected; one that fails leaves the store and the
cached values alone. -/
structure Committed.Validated (env : Env) (x : Committed) : Prop where
  written : x.rc = .ok →
    cacheApply env x.before.store (commitItems env x.before x.order) = some x.after.store ∧
      ∀ item ∈ commitItems env x.before x.order, onPath x.rej item.sb = false
  kept : x.rc ≠ .ok → x.after.store = x.before.store ∧
    x.after.cache.map CacheItem.pair = x.before.cache.map CacheItem.pair

/-- If the cache still has a value that was rejected before, the validator of an item without a code
rejects again. -/
def Committed.Asked (env : Env) (x : Committed) : Prop :=
  (∃ item ∈ x.before.cache, onPath x.rej item.sb = true) →
    ∃ item ∈ x.before.cache, item.rejected env x.before.store = true

instance (env : Env) (x : Committed) : Decidable (x.Asked env) :=
  inferInstanceAs (Decidable (_ → _))

/-! ## One commit -/

theorem onPath_congr (paths : List Selector) (a b : Selector) (h : dmSelcmp a b dmSelectorLen = 0) :
    onPath paths a = onPath paths b := by
  unfold onPath
  congr 1
  funext p
  apply decide_eq_decide.mpr
  constructor
  · exact fun hp => dmSelcmp_eq_trans _ p a b hp h
  · exact fun hp => dmSelcmp_eq_trans _ p b a hp (dmSelcmp_eq_symm _ a b h)

section Commit
variable {env : Env} {s s' : State} {key : ℕ} {c : Ctx} {order : List Selector} (rej : List Selector)

/-- The items that are written are those of the cache. -/
theorem commitItems_onPath {r : ℕ} {cache : Cache}
    (hval : cacheValidate env s.store s.cache = some (r, cache))
    (hperm : order.Perm (cache.map CacheItem.sb)) :
    (∀ item ∈ commitItems env s order, onPath rej item.sb = false) ↔
      ∀ item ∈ s.cache, onPath rej item.sb = false := by
  have hsb := cacheValidate_sb env s.store s.cache cache r hval
  have hitems : commitItems env s order = order.filterMap (cacheFind cache) := by
    unfold commitItems
    rw [hval]
  have hmem : ∀ sel, (∃ item ∈ s.cache, item.sb = sel) ↔ sel ∈ order := by
    intro sel
    rw [hperm.mem_iff, hsb, List.mem_map]
  rw [hitems]
  constructor
  · intro h x hx
    have hord : x.sb ∈ order := (hmem x.sb).mp ⟨x, hx, rfl⟩
    cases hf : cacheFind cache x.sb with
    | none =>
      -- The cache has an item with this very selector.
      obtain ⟨y, hy, hyx⟩ := List.mem_map.mp (hperm.mem_iff.mp hord)
      have hno := List.find?_eq_none.mp hf y hy
      rw [hyx] at hno
      exact absurd (dmSelcmp_self _ _) (by simpa using hno)
    | some y =>
      rw [onPath_congr rej x.sb y.sb (cacheFind_some hf).2]
      exact h y (List.mem_filterMap.mpr ⟨x.sb, hord, hf⟩)
  · intro h item hitem
    obtain ⟨sel, hsel, hf⟩ := List.mem_filterMap.mp hitem
    obtain ⟨x, hx, hxs⟩ := (hmem sel).mpr hsel
    rw [← onPath_congr rej sel item.sb (cacheFind_some hf).2, ← hxs]
    exact h x hx

theorem commit_validated_iff (hid : c.id = s.cfgSessionId) (rc : Rc)
    (hs : commit env s c order = some (rc, s')) :
    Committed.Validated env ⟨s, rej, order, rc, s'⟩ ↔ Committed.Asked env ⟨s, rej, order, rc, s'⟩ := by
  rcases commit_cases env hs with ⟨-, -, hne⟩ | ⟨hrc, -, cache, hval, hs'⟩ |
    ⟨hrc, -, r, cache, st, hval, hr, hperm, happ, hs'⟩
  · exact absurd hid hne
  · obtain ⟨-, hiff, hpairs⟩ := cacheValidate_spec env s.store s.cache cache 0 hval
    constructor
    · exact fun _ _ => hiff.mp rfl
    · intro _
      constructor
      · intro hok
        exact nomatch hrc.symm.trans hok
      · intro _
        rw [hs']
        exact ⟨rfl, hpairs⟩
  · obtain ⟨-, hiff, -⟩ := cacheValidate_spec env s.store s.cache cache r hval
    have hnone : ¬∃ item ∈ s.cache, item.rejected env s.store = true := fun hh => hr (hiff.mpr hh)
    have hstore : cacheApply env s.store (commitItems env s order) = some s'.store := by
      unfold commitItems
      rw [hval, hs']
      exact happ
    have hwritten := commitItems_onPath rej hval hperm
    constructor
    · intro hv hex
      obtain ⟨item, hitem, hon⟩ := hex
      have hoff : onPath rej item.sb = false := hwritten.mp (hv.written hrc).2 item hitem
      exact nomatch hoff.symm.trans hon
    · intro hasked
      constructor
      · intro _
        refine ⟨hstore, hwritten.mpr fun item hitem => ?_⟩
        rw [← Bool.not_eq_true]
        exact fun hon => hnone (hasked ⟨item, hitem, hon⟩)
      · exact fun hne => absurd hrc hne

/-- The session holds on to the configure session, or it is over. -/
theorem req_holds (hold : Holds s key c) (req : Req) (rc : Rc)
    (hs : step env s (req.event key) = some (rc, s')) : Holds s' key c ∨ s'.ctx key = none := by
  cases req with
  | commit order =>
    obtain ⟨c', hc', hs⟩ := Option.bind_eq_some_iff.mp hs
    rcases commit_cases env hs with ⟨-, hs', -⟩ | ⟨-, -, cache, -, hs'⟩ | ⟨-, -, r, cache, st, -, -, -, -, hs'⟩
    · rw [hs']
      exact Or.inl hold
    · rw [hs']
      exact Or.inl ⟨hold.ctx, hold.configures, hold.id_eq, hold.id_ne⟩
    · rw [hs']
      exact Or.inl ⟨hold.ctx, hold.configures, hold.id_eq, hold.id_ne⟩
  | set values =>
    obtain ⟨c', hc', hs⟩ := Option.bind_eq_some_iff.mp hs
    obtain ⟨⟨rc1, st1, cache1⟩, -, hs⟩ := Option.bind_eq_some_iff.mp hs
    unfold afterRequest at hs
    by_cases hrc : rc1 = .errAlloc
    · simp only [if_pos hrc] at hs
      obtain ⟨d, hd, hs⟩ := Option.bind_eq_some_iff.mp hs
      obtain ⟨s2, hend, hs⟩ := Option.bind_eq_some_iff.mp hs
      cases hs
      obtain ⟨s3, -, hs3⟩ := Option.bind_eq_some_iff.mp hend
      cases hs3
      refine Or.inr (List.find?_eq_none.mpr fun x hx => ?_)
      have hne := (List.mem_filter.mp hx).2
      rw [(ctx_mem hd).2] at hne
      simpa using hne
    · simp only [if_neg hrc] at hs
      cases hs
      exact Or.inl ⟨hold.ctx, hold.configures, hold.id_eq, hold.id_ne⟩

theorem commits_of_none (hs : s.ctx key = none) (reqs : List Req) : commits env key c s rej reqs = [] := by
  cases reqs with
  | nil => rfl
  | cons req reqs =>
    have hstep : step env s (req.event key) = none := by
      cases req <;> simp only [Req.event, step, hs, Option.bind_eq_bind, Option.bind_none]
    unfold commits
    rw [hstep]

/-- Each commit of a run, whatever came before it. -/
theorem commits_validated_iff (reqs : List Req) (s : State) (rej : List Selector)
    (h : Holds s key c ∨ s.ctx key = none) :
    ∀ x ∈ commits env key c s rej reqs, x.Validated env ↔ x.Asked env := by
  induction reqs generalizing s rej with
  | nil => exact fun x hx => absurd hx List.not_mem_nil
  | cons req reqs ih =>
    intro x hx
    cases h with
    | inr hnone =>
      rw [commits_of_none rej hnone] at hx
      exact absurd hx List.not_mem_nil
    | inl hold =>
      unfold commits at hx
      cases hstep : step env s (req.event key) with
      | none =>
        rw [hstep] at hx
        exact absurd hx List.not_mem_nil
      | some res =>
        obtain ⟨rc, s'⟩ := res
        have hrest := ih s' (rejections env s c rc rej req) (req_holds hold req rc hstep)
        rw [hstep] at hx
        cases req with
        | set values => exact hrest x hx
        | commit order =>
          cases List.mem_cons.mp hx with
          | inr hx => exact hrest x hx
          | inl hx =>
            obtain ⟨c', hc', hcommit⟩ := Option.bind_eq_some_iff.mp hstep
            rw [hold.ctx] at hc'
            cases hc'
            rw [hx]
            exact commit_validated_iff rej hold.id_eq rc hcommit

end Commit

/-- **When commits are validated.** For any validators and any sets and commits of the session that
holds the configure session: all commits write only values that were not rejected before, and the
failed ones change nothing, exactly if at every commit that still has a value in the cache that was
rejected before some item without a code is rejected by its validator. -/
theorem commit_validated (env : Env) (s : State) (key : ℕ) (c : Ctx) (hold : Holds s key c)
    (reqs : List Req) :
    (∀ x ∈ commits env key c s [] reqs, x.Validated env) ↔
      ∀ x ∈ commits env key c s [] reqs, x.Asked env := by
  have h : ∀ x ∈ commits env key c s [] reqs, x.Validated env ↔ x.Asked env :=
    commits_validated_iff reqs s [] (Or.inl hold)
  constructor
  · exact fun hv x hx => (h x hx).mp (hv x hx)
  · exact fun ha x hx => (h x hx).mpr (ha x hx)

/-- A value that is rejected is set again before the next commit. -/
def sampleReqs : List Req :=
  [.set [([1], sampleAvp 6)], .commit [[1]], .set [([1], sampleAvp 3)], .commit [[1]]]

theorem commit_validated_sample :
    (commits sampleEnv 1 ⟨1, 1, 1⟩ sampleState [] sampleReqs).map Committed.rc = [.errMisc, .ok] ∧
      ∀ x ∈ commits sampleEnv 1 ⟨1, 1, 1⟩ sampleState [] sampleReqs, x.Validated sampleEnv := by
  have hold : Holds sampleState 1 ⟨1, 1, 1⟩ := ⟨rfl, rfl, rfl, by decide⟩
  refine ⟨by decide +kernel, ?_⟩
  apply (commit_validated sampleEnv sampleState 1 ⟨1, 1, 1⟩ hold sampleReqs).mpr
  decide +kernel

/-- The validator rejects 6 in the first commit, and the second commit writes it. -/
theorem commit_writes_rejected :
    Holds sampleState 1 ⟨1, 1, 1⟩ ∧
      (run sampleEnv sampleState [.set 1 [([1], sampleAvp 6)], .commit 1 [[1]], .commit 1 [[1]]]).map
        (fun s => leafValue ((s.store.slot 0 0).map DmValue.content)) = some (.uint 6) ∧
      ¬∀ x ∈ commits sampleEnv 1 ⟨1, 1, 1⟩ sampleState []
        [.set [([1], sampleAvp 6)], .commit [[1]], .commit [[1]]], x.Validated sampleEnv := by
  refine ⟨⟨rfl, rfl, rfl, by decide⟩, by decide +kernel, fun hv => ?_⟩
  have hbad : ∃ x ∈ commits sampleEnv 1 ⟨1, 1, 1⟩ sampleState []
      [.set [([1], sampleAvp 6)], .commit [[1]], .commit [[1]]],
      x.rc = .ok ∧ ∃ item ∈ commitItems sampleEnv x.before x.order, onPath x.rej item.sb = true := by
    decide +kernel
  obtain ⟨x, hx, hrc, item, hitem, hon⟩ := hbad
  exact nomatch ((hv x hx).written hrc |>.2 item hitem).symm.trans hon

end Mand.Server
