import Mand.Notify.Events
import Mand.Server.Discard

/-! # Plain and cached reads

The two functions that `rpc_db_get` reads with: `dm_get_value_by_selector_cb` outside of a configure session and
`dm_cache_get_value_by_selector_cb` inside. -/
namespace Mand.Rpc
open Mand.Index Mand.Msg Mand.Store Mand.Server
set_option autoImplicit false

/-- The arguments of a callback. -/
structure GetCall where
  sel : Selector
  elem : DmElement
  stType : DmType
  value : DmValue

/-- What a read returns, a code of its own or that of the callback, and the calls that it made. -/
structure Outcome (ρ : Type) where
  result : Except DmResult ρ
  invoked : List GetCall

section Reads
variable {ρ : Type} (env : Env) (st : DmStore) (sel : Selector) (type : DmType) (cb : Option (GetCall → ρ))

/-- A code without a call. -/
def refuse (r : DmResult) : Outcome ρ := ⟨.error r, []⟩

/-- The callback is called, and its result returned. -/
def invoke (cb : GetCall → ρ) (ref : Ref) (v : DmValue) : Outcome ρ :=
  ⟨.ok (cb ⟨sel, ref.elem, ref.stType, v⟩), [⟨sel, ref.elem, ref.stType, v⟩]⟩

/-- `dm_get_element_value`. -/
def dmGetElementValue (ref : Ref) : Option DmValue := do
  let v ← st.value ref.value
  v.parityAssert
  if ref.elem.type = .counter then
    if type = .any ∨ type = .int ∨ type = .uint then some v else some (newValue (.uint 0))
  else if ref.elem.flags.get = true then some (env.getHook st ref v)
  else if type = .any ∨ ref.elem.type = type then some v
  else some (newValue (.uint 0))

def dmGetValueBySelectorCb : Option (Outcome ρ) :=
  match cb with
  | none => some (refuse .invalidValue)
  | some cb => do
    match ← st.getElementRef env.schema sel with
    | none => some (refuse .valueNotFound)
    | some ref => (dmGetElementValue env st type ref).map (invoke sel cb ref)

/-- The value of `dm_cache_get_value_by_selector_cb` for an element that it does not refuse. -/
def pendingOrStored (cache : Cache) (cb : GetCall → ρ) (ref : Ref) : Option (Outcome ρ) := do
  let v ← st.value ref.value
  if v.flags.pending = true then
    match cacheFind cache sel with
    | none => some (refuse .valueNotFound)
    | some item => do
      item.newValue.parityAssert
      some (invoke sel cb ref item.newValue)
  else (dmGetElementValue env st type ref).map (invoke sel cb ref)

def dmCacheGetValueBySelectorCb (cache : Cache) : Option (Outcome ρ) :=
  match cb with
  | none => some (refuse .invalidValue)
  | some cb => do
    match ← st.getElementRef env.schema sel with
    | none => some (refuse .valueNotFound)
    | some ref =>
      if ref.elem.type = .inst ∨ ref.elem.type = .object then some (refuse .invalidType)
      else if type ≠ .any ∧ ref.elem.type ≠ type then some (refuse .invalidType)
      else pendingOrStored env st sel type cache cb ref

end Reads

/-! ## `rpc_db_get` -/

/-- `dmconfig_get_cb`. -/
def dmconfigGetCb (ev : Notify.EventEnv) (c : GetCall) : Except Rc Avps := Notify.addAvp ev c.elem c.value

/-- The codes that the loop of `rpc_db_get` makes of those of a read. -/
def getRc : Except DmResult (Except Rc Avps) → Except Rc Avps
  | .ok r => r
  | .error .oom => .error .errAlloc
  | .error .invalidValue => .error .errInvalidAvpType
  | .error .invalidType => .error .errInvalidAvpType
  | .error .valueNotFound => .error .errValueNotFound
  | .error _ => .error .errMisc

/-- `rpc_db_get` with one of the two functions: its return code and what it appends to the answer. -/
def rpcDbGet (get : Selector → Option (Outcome (Except Rc Avps))) : List Selector → Option (Rc × List Avps)
  | [] => some (.ok, [])
  | sel :: values => do
    let o ← get sel
    match getRc o.result with
    | .error rc => some (rc, [])
    | .ok avps => (rpcDbGet get values).map fun x => (x.1, avps :: x.2)

/-- The function of a plain session. -/
def plainGet (env : Env) (ev : Notify.EventEnv) (st : DmStore) (sel : Selector) : Option (Outcome (Except Rc Avps)) :=
  dmGetValueBySelectorCb env st sel .any (some (dmconfigGetCb ev))

/-- The function of a configure session. -/
def sessionGet (env : Env) (ev : Notify.EventEnv) (st : DmStore) (cache : Cache) (sel : Selector) :
    Option (Outcome (Except Rc Avps)) := dmCacheGetValueBySelectorCb env st sel .any (some (dmconfigGetCb ev)) cache

/-! ## Agreement -/

section Agreement
variable {ρ : Type} {env : Env} {st : DmStore} {sel : Selector} {type : DmType}

/-- What the guards of the cached read let pass: no object, and no other type than the one asked for. -/
def Served (type : DmType) (ref : Ref) : Prop :=
  ref.elem.type ≠ .inst ∧ ref.elem.type ≠ .object ∧ (type = .any ∨ ref.elem.type = type)

/-- Without pending values the cached read of an element that it serves is the plain one. -/
theorem pendingOrStored_eq (hst : NoPending st) (cache : Cache) (cb : GetCall → ρ) (ref : Ref) :
    pendingOrStored env st sel type cache cb ref = (dmGetElementValue env st type ref).map (invoke sel cb ref) := by
  unfold pendingOrStored
  cases hv : st.value ref.value with
  | none =>
    rw [dmGetElementValue, hv]
    rfl
  | some v =>
    rw [Option.bind_eq_bind, Option.bind_some, if_neg (by rw [hst _ _ hv]; decide)]

theorem cached_eq (hst : NoPending st) (cache : Cache) (cb : GetCall → ρ) (ref : Ref)
    (href : st.getElementRef env.schema sel = some (some ref)) (hs : Served type ref) :
    dmCacheGetValueBySelectorCb env st sel type (some cb) cache = dmGetValueBySelectorCb env st sel type (some cb) := by
  obtain ⟨hinst, hobj, htype⟩ := hs
  have hmatch : ¬(type ≠ .any ∧ ref.elem.type ≠ type) := by
    rintro ⟨h1, h2⟩
    exact htype.elim h1 h2
  simp only [dmCacheGetValueBySelectorCb, dmGetValueBySelectorCb, href, Option.bind_eq_bind, Option.bind_some, hinst, hobj,
    or_self, if_false, if_neg hmatch, pendingOrStored_eq hst]

/-- The cached read refuses what it does not serve without a call. -/
theorem cached_refused (cache : Cache) (cb : GetCall → ρ) (ref : Ref)
    (href : st.getElementRef env.schema sel = some (some ref)) (hs : ¬Served type ref) :
    dmCacheGetValueBySelectorCb env st sel type (some cb) cache = some (refuse .invalidType) := by
  simp only [dmCacheGetValueBySelectorCb, href, Option.bind_eq_bind, Option.bind_some]
  split
  · rfl
  rename_i hobj
  rw [not_or] at hobj
  split
  · rfl
  rename_i htype
  rw [Classical.not_and_iff_not_or_not, not_not, not_not] at htype
  exact absurd ⟨hobj.1, hobj.2, htype⟩ hs

/-- The two reads agree exactly on the elements that the cached one serves. -/
theorem cached_eq_iff (hst : NoPending st) (cache : Cache) (cb : Option (GetCall → ρ)) :
    dmCacheGetValueBySelectorCb env st sel type cb cache = dmGetValueBySelectorCb env st sel type cb ↔
      cb = none ∨ ∀ ref, st.getElementRef env.schema sel = some (some ref) → Served type ref := by
  cases cb with
  | none => exact iff_of_true rfl (.inl rfl)
  | some cb =>
    cases href : st.getElementRef env.schema sel with
    | none =>
      refine iff_of_true ?_ (.inr fun ref h => nomatch h)
      simp only [dmCacheGetValueBySelectorCb, dmGetValueBySelectorCb, href, Option.bind_eq_bind, Option.bind_none]
    | some r =>
      cases r with
      | none =>
        refine iff_of_true ?_ (.inr fun ref h => nomatch h)
        simp only [dmCacheGetValueBySelectorCb, dmGetValueBySelectorCb, href, Option.bind_eq_bind, Option.bind_some]
      | some ref =>
        by_cases hs : Served type ref
        · refine iff_of_true (cached_eq hst cache cb ref href hs) (.inr fun ref' h => ?_)
          cases h
          exact hs
        · refine iff_of_false (fun heq => ?_) ?_
          · -- one of them makes a call and the other does not
            rw [cached_refused cache cb ref href hs] at heq
            simp only [dmGetValueBySelectorCb, href, Option.bind_eq_bind, Option.bind_some] at heq
            obtain ⟨v, -, hv⟩ := Option.map_eq_some_iff.mp heq.symm
            exact absurd (congrArg Outcome.invoked hv) (List.cons_ne_nil _ _)
          · rintro (h | h)
            · cases h
            · exact hs (h ref rfl)

/-- An answer of the plain read that is no array is that of the cached one. -/
theorem getRc_session (hst : NoPending st) (ev : Notify.EventEnv) (cache : Cache) (o : Outcome (Except Rc Avps))
    (hno : ∀ ref, st.getElementRef env.schema sel = some (some ref) → ref.elem.type = .object →
      ref.elem.flags.array = false) (h : plainGet env ev st sel = some o) :
    ∃ o', sessionGet env ev st cache sel = some o' ∧ getRc o'.result = getRc o.result := by
  by_cases hs : ∀ ref, st.getElementRef env.schema sel = some (some ref) → Served .any ref
  · exact ⟨o, by rw [sessionGet, (cached_eq_iff hst cache _).mpr (.inr hs)]; exact h, rfl⟩
  · obtain ⟨ref, hcond⟩ := not_forall.mp hs
    obtain ⟨href, hnot⟩ := Classical.not_imp.mp hcond
    refine ⟨_, cached_refused cache _ ref href hnot, ?_⟩
    -- the plain read ends in `dm_add_avp`, which knows no objects but arrays
    simp only [plainGet, dmGetValueBySelectorCb, href, Option.bind_eq_bind, Option.bind_some] at h
    obtain ⟨v, -, rfl⟩ := Option.map_eq_some_iff.mp h
    have htype : ref.elem.type = .inst ∨ ref.elem.type = .object := by
      by_contra hne
      rw [not_or] at hne
      exact hnot ⟨hne.1, hne.2, .inl rfl⟩
    show Except.error Rc.errInvalidAvpType = Notify.addAvp ev ref.elem v
    rcases htype with hinst | hobj
    · simp only [Notify.addAvp, hinst]
    · simp only [Notify.addAvp, hobj, hno ref href hobj, Bool.false_eq_true, if_false]

end Agreement

end Mand.Rpc
