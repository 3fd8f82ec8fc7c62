import Mand.Server.Session
import Mathlib.Data.List.Nodup

/-! # One configure session

Whatever the clients do, in any order, at most one context is in configure mode, and only then the
cache has items. -/
namespace Mand.Server
open Mand.Store Mand.Msg
set_option autoImplicit false

/-- A context in configure mode. -/
def Ctx.configures (c : Ctx) : Prop := configure c.flags = true

/-- Exclusivity as clients see it. -/
structure Exclusive (s : State) : Prop where
  unique : ∀ c ∈ s.ctxs, c.configures → ∀ d ∈ s.ctxs, d.configures → d = c
  holder : (∃ c ∈ s.ctxs, c.configures) ↔ s.cfgSessionId ≠ 0
  id_eq : ∀ c ∈ s.ctxs, s.cfgSessionId ≠ 0 → (c.configures ↔ c.id = s.cfgSessionId)
  cached : s.cache ≠ [] → ∃ c ∈ s.ctxs, c.configures

/-- The invariant behind it. Session ids are not used twice, so an id names one context; a context
without a session has the id 0. -/
structure SessionInv (s : State) : Prop where
  keys : (s.ctxs.map Ctx.key).Nodup
  counter : 0 < s.sessionCounter
  fresh : ∀ c ∈ s.ctxs, c.id < s.sessionCounter
  distinct : ∀ c ∈ s.ctxs, ∀ d ∈ s.ctxs, c.id = d.id → c.id ≠ 0 → c = d
  holder : ∀ c ∈ s.ctxs, c.configures ↔ c.id = s.cfgSessionId ∧ s.cfgSessionId ≠ 0
  live : s.cfgSessionId ≠ 0 → ∃ c ∈ s.ctxs, c.id = s.cfgSessionId
  cached : s.cache ≠ [] → s.cfgSessionId ≠ 0

theorem SessionInv.exclusive {s : State} (h : SessionInv s) : Exclusive s := by
  have hex : (∃ c ∈ s.ctxs, c.configures) ↔ s.cfgSessionId ≠ 0 := by
    constructor
    · intro ⟨c, hc, hcfg⟩
      exact ((h.holder c hc).mp hcfg).2
    · intro hne
      obtain ⟨c, hc, hid⟩ := h.live hne
      exact ⟨c, hc, (h.holder c hc).mpr ⟨hid, hne⟩⟩
  constructor
  · intro c hc hcc d hd hdd
    obtain ⟨hcid, hne⟩ := (h.holder c hc).mp hcc
    obtain ⟨hdid, -⟩ := (h.holder d hd).mp hdd
    apply h.distinct d hd c hc
    · rw [hdid, hcid]
    · rw [hdid]
      exact hne
  · exact hex
  · intro c hc hne
    rw [h.holder c hc]
    exact ⟨fun hh => hh.1, fun hid => ⟨hid, hne⟩⟩
  · intro hcache
    exact hex.mpr (h.cached hcache)

/-! ## Contexts -/

theorem ctx_mem {s : State} {key : ℕ} {c : Ctx} (h : s.ctx key = some c) : c ∈ s.ctxs ∧ c.key = key := by
  unfold State.ctx at h
  refine ⟨List.mem_of_find?_eq_some h, ?_⟩
  have hp := List.find?_some h
  simpa using hp

theorem SessionInv.key_inj {s : State} (h : SessionInv s) (c d : Ctx) (hc : c ∈ s.ctxs)
    (hd : d ∈ s.ctxs) (hk : c.key = d.key) : c = d := by
  exact List.inj_on_of_nodup_map h.keys hc hd hk

theorem mem_setCtx {s : State} {c : Ctx} (d : Ctx) (hc : ∃ b ∈ s.ctxs, b.key = c.key) :
    d ∈ (s.setCtx c).ctxs ↔ d = c ∨ (d ∈ s.ctxs ∧ d.key ≠ c.key) := by
  unfold State.setCtx
  simp only [List.mem_map]
  constructor
  · intro ⟨b, hb, hbd⟩
    by_cases hk : b.key = c.key
    · rw [if_pos hk] at hbd
      exact Or.inl hbd.symm
    · rw [if_neg hk] at hbd
      rw [← hbd]
      exact Or.inr ⟨hb, hk⟩
  · intro hd
    cases hd with
    | inl hd =>
      obtain ⟨b, hb, hk⟩ := hc
      exact ⟨b, hb, by rw [if_pos hk, hd]⟩
    | inr hd => exact ⟨d, hd.1, by rw [if_neg hd.2]⟩

theorem keys_setCtx (s : State) (c : Ctx) : (s.setCtx c).ctxs.map Ctx.key = s.ctxs.map Ctx.key := by
  unfold State.setCtx
  rw [List.map_map]
  apply List.map_congr_left
  intro d _
  show (if d.key = c.key then c else d).key = d.key
  by_cases hk : d.key = c.key
  · rw [if_pos hk, hk]
  · rw [if_neg hk]

/-! ## The steps -/

section Steps
variable {s s' : State} {c : Ctx} {flags : ℕ}

/-- The store does not matter, nor do cached items while a configure session is open. -/
theorem SessionInv.congr (h : SessionInv s) (hctxs : s'.ctxs = s.ctxs)
    (hcfg : s'.cfgSessionId = s.cfgSessionId) (hcnt : s'.sessionCounter = s.sessionCounter)
    (hcache : s'.cache ≠ [] → s'.cfgSessionId ≠ 0) : SessionInv s' := by
  constructor
  · rw [hctxs]
    exact h.keys
  · rw [hcnt]
    exact h.counter
  · rw [hctxs, hcnt]
    exact h.fresh
  · rw [hctxs]
    exact h.distinct
  · rw [hctxs, hcfg]
    exact h.holder
  · rw [hctxs, hcfg]
    exact h.live
  · exact hcache

theorem resetCache_eq (h : s.resetCache = some s') :
    s'.cache = [] ∧ s'.ctxs = s.ctxs ∧ s'.cfgSessionId = s.cfgSessionId ∧
      s'.sessionCounter = s.sessionCounter := by
  unfold State.resetCache at h
  cases hst : cacheReset s.store s.cache with
  | none =>
    rw [hst] at h
    cases h
  | some st =>
    rw [hst] at h
    cases h
    exact ⟨rfl, rfl, rfl, rfl⟩

theorem accept_inv (h : SessionInv s) :
    SessionInv { s with ctxs := s.ctxs ++ [⟨s.freshKey, 0, 0⟩] } := by
  have hfresh : ∀ c ∈ s.ctxs, c.key < s.freshKey := by
    intro c hc
    have hle : ∀ l : List ℕ, c.key ∈ l → c.key ≤ l.foldr max 0 := by
      intro l hl
      induction l with
      | nil => exact absurd hl List.not_mem_nil
      | cons a l ih =>
        rw [List.foldr_cons]
        cases List.mem_cons.mp hl with
        | inl ha => omega
        | inr ht => exact Nat.le_trans (ih ht) (Nat.le_max_right a _)
    exact Nat.lt_succ_of_le (hle _ (List.mem_map_of_mem hc))
  have hmem : ∀ d, d ∈ s.ctxs ++ [⟨s.freshKey, 0, 0⟩] ↔ d ∈ s.ctxs ∨ d = ⟨s.freshKey, 0, 0⟩ := by
    intro d
    rw [List.mem_append, List.mem_singleton]
  constructor
  · rw [List.map_append, List.nodup_append]
    refine ⟨h.keys, List.nodup_singleton _, ?_⟩
    intro k hk k' hk'
    obtain ⟨c, hc, rfl⟩ := List.mem_map.mp hk
    rw [List.map_singleton, List.mem_singleton] at hk'
    rw [hk']
    exact Nat.ne_of_lt (hfresh c hc)
  · exact h.counter
  · intro d hd
    cases (hmem d).mp hd with
    | inl hd => exact h.fresh d hd
    | inr hd =>
      rw [hd]
      exact h.counter
  · intro c hc d hd hid hne
    cases (hmem c).mp hc with
    | inl hc =>
      cases (hmem d).mp hd with
      | inl hd => exact h.distinct c hc d hd hid hne
      | inr hd =>
        rw [hd] at hid
        exact absurd hid hne
    | inr hc =>
      rw [hc] at hne
      exact absurd rfl hne
  · intro d hd
    cases (hmem d).mp hd with
    | inl hd => exact h.holder d hd
    | inr hd =>
      rw [hd]
      constructor
      · intro hcfg
        have hno : ¬configure 0 = true := by decide
        exact absurd hcfg hno
      · intro hh
        exact absurd hh.1.symm hh.2
  · intro hne
    obtain ⟨c, hc, hid⟩ := h.live hne
    exact ⟨c, (hmem c).mpr (Or.inl hc), hid⟩
  · exact h.cached

/-- A context gets an id and flags that fit the configure session. -/
theorem SessionInv.setCtx (h : SessionInv s) (hc : c ∈ s.ctxs) (c' : Ctx) (hkey : c'.key = c.key)
    (hctxs : s'.ctxs = (s.setCtx c').ctxs) (hcounter : s.sessionCounter ≤ s'.sessionCounter)
    (hlt : c'.id < s'.sessionCounter)
    (hnew : c'.id ≠ 0 → ∀ d ∈ s.ctxs, d.key ≠ c.key → d.id ≠ c'.id)
    (hholder : c'.configures ↔ c'.id = s'.cfgSessionId ∧ s'.cfgSessionId ≠ 0)
    (hothers : ∀ d ∈ s.ctxs, d.key ≠ c.key →
      ((d.id = s'.cfgSessionId ∧ s'.cfgSessionId ≠ 0) ↔
        (d.id = s.cfgSessionId ∧ s.cfgSessionId ≠ 0)))
    (hlive : s'.cfgSessionId ≠ 0 →
      c'.id = s'.cfgSessionId ∨ ∃ d ∈ s.ctxs, d.key ≠ c.key ∧ d.id = s'.cfgSessionId)
    (hcache : s'.cache ≠ [] → s'.cfgSessionId ≠ 0) : SessionInv s' := by
  have hex : ∃ b ∈ s.ctxs, b.key = c'.key := ⟨c, hc, hkey.symm⟩
  have hmem : ∀ d, d ∈ s'.ctxs ↔ d = c' ∨ (d ∈ s.ctxs ∧ d.key ≠ c.key) := by
    intro d
    rw [hctxs, mem_setCtx d hex, hkey]
  constructor
  · rw [hctxs, keys_setCtx]
    exact h.keys
  · exact Nat.lt_of_lt_of_le h.counter hcounter
  · intro d hd
    cases (hmem d).mp hd with
    | inl hd =>
      rw [hd]
      exact hlt
    | inr hd => exact Nat.lt_of_lt_of_le (h.fresh d hd.1) hcounter
  · intro x hx y hy hid hne
    cases (hmem x).mp hx with
    | inl hx =>
      cases (hmem y).mp hy with
      | inl hy => rw [hx, hy]
      | inr hy =>
        rw [hx] at hid hne
        exact absurd hid.symm (hnew hne y hy.1 hy.2)
    | inr hx =>
      cases (hmem y).mp hy with
      | inl hy =>
        rw [hy] at hid
        rw [hid] at hne
        exact absurd hid (hnew hne x hx.1 hx.2)
      | inr hy => exact h.distinct x hx.1 y hy.1 hid hne
  · intro d hd
    cases (hmem d).mp hd with
    | inl hd =>
      rw [hd]
      exact hholder
    | inr hd => rw [hothers d hd.1 hd.2, h.holder d hd.1]
  · intro hne
    cases hlive hne with
    | inl hid => exact ⟨c', (hmem c').mpr (Or.inl rfl), hid⟩
    | inr hd =>
      obtain ⟨d, hd, hk, hid⟩ := hd
      exact ⟨d, (hmem d).mpr (Or.inr ⟨hd, hk⟩), hid⟩
  · exact hcache

/-- A session started: the counter moved on. -/
def started (ev : Event) (rc : Rc) : ℕ :=
  match ev, rc with
  | .startSession _ _, .ok => 1
  | _, _ => 0

theorem startSession_inv (h : SessionInv s) (hc : c ∈ s.ctxs) (key : ℕ) (rc : Rc)
    (hs : startSession s c flags = (rc, s'))
    (hlt : s.sessionCounter + started (.startSession key flags) rc < 2 ^ 32) :
    SessionInv s' ∧ s'.sessionCounter = s.sessionCounter + started (.startSession key flags) rc := by
  unfold startSession at hs
  by_cases hid : c.id ≠ 0
  · rw [if_pos hid] at hs
    cases hs
    exact ⟨h, rfl⟩
  rw [if_neg hid] at hs
  by_cases hbusy : configure flags = true ∧ s.cfgSessionId ≠ 0
  · rw [if_pos hbusy] at hs
    cases hs
    exact ⟨h, rfl⟩
  rw [if_neg hbusy] at hs
  cases hs
  have hnext : nextCounter s.sessionCounter = s.sessionCounter + 1 := by
    have hlt' : s.sessionCounter + 1 < 2 ^ 32 := hlt
    unfold nextCounter
    rw [Nat.mod_eq_of_lt hlt', if_neg (Nat.succ_ne_zero _)]
  have hsame : (if configure flags = true then ({ s with cfgSessionId := s.sessionCounter } : State)
      else s).sessionCounter = s.sessionCounter := by
    split <;> rfl
  refine ⟨?_, (congrArg nextCounter hsame).trans hnext⟩
  have hcnt := h.counter
  have hne : s.sessionCounter ≠ 0 := Nat.pos_iff_ne_zero.mp hcnt
  have hle : s.sessionCounter ≤ nextCounter s.sessionCounter := by omega
  have hlt' : s.sessionCounter < nextCounter s.sessionCounter := by omega
  -- No context has the new id yet, so it is not the id of the configure session either.
  have hnew : ∀ d ∈ s.ctxs, d.id ≠ s.sessionCounter := fun d hd => Nat.ne_of_lt (h.fresh d hd)
  by_cases hconf : configure flags = true
  · have hfree : s.cfgSessionId = 0 := by
      by_contra hz
      exact hbusy ⟨hconf, hz⟩
    simp only [if_pos hconf]
    refine h.setCtx hc ⟨c.key, s.sessionCounter, flags⟩ rfl ?_ ?_ ?_ (fun _ d hd _ => hnew d hd)
      ?_ ?_ ?_ ?_
    · rfl
    · exact hle
    · exact hlt'
    · exact ⟨fun _ => ⟨rfl, hne⟩, fun _ => hconf⟩
    · exact fun d hd _ => ⟨fun hh => absurd hh.1 (hnew d hd), fun hh => absurd hfree hh.2⟩
    · exact fun _ => Or.inl rfl
    · exact fun _ => hne
  · simp only [if_neg hconf]
    have hcfg : s.sessionCounter ≠ s.cfgSessionId := by
      intro he
      obtain ⟨d, hd, hdid⟩ := h.live (he ▸ hne)
      exact hnew d hd (hdid.trans he.symm)
    refine h.setCtx hc ⟨c.key, s.sessionCounter, flags⟩ rfl ?_ ?_ ?_ (fun _ d hd _ => hnew d hd)
      ?_ ?_ ?_ ?_
    · rfl
    · exact hle
    · exact hlt'
    · exact ⟨fun hf => absurd hf hconf, fun hh => absurd hh.1 hcfg⟩
    · exact fun d _ _ => Iff.rfl
    · intro hz
      obtain ⟨d, hd, hdid⟩ := h.live hz
      refine Or.inr ⟨d, hd, ?_, hdid⟩
      intro hk
      rw [h.key_inj d c hd hc hk] at hdid
      exact hid (hdid ▸ hz)
    · exact h.cached

/-- A context that leaves the configure mode takes the cache with it. -/
theorem leave_cases (hs : s.leave c = some s') :
    s'.ctxs = s.ctxs ∧ s'.sessionCounter = s.sessionCounter ∧
      ((s.cfgSessionId = c.id ∧ s'.cfgSessionId = 0 ∧ s'.cache = []) ∨
        (s.cfgSessionId ≠ c.id ∧ s'.cfgSessionId = s.cfgSessionId ∧ s'.cache = s.cache)) := by
  unfold State.leave at hs
  by_cases hid : s.cfgSessionId = c.id
  · rw [if_pos hid] at hs
    obtain ⟨hcache, hctxs, hcfg, hcnt⟩ := resetCache_eq hs
    exact ⟨hctxs, hcnt, Or.inl ⟨hid, hcfg, hcache⟩⟩
  · rw [if_neg hid] at hs
    cases hs
    exact ⟨rfl, rfl, Or.inr ⟨hid, rfl, rfl⟩⟩

theorem SessionInv.other_id (h : SessionInv s) (hc : c ∈ s.ctxs) (hid : c.id ≠ 0) (d : Ctx)
    (hd : d ∈ s.ctxs) (hk : d.key ≠ c.key) : d.id ≠ c.id := by
  intro he
  have hdc := h.distinct c hc d hd he.symm hid
  exact hk (congrArg Ctx.key hdc.symm)

theorem switchSession_inv (h : SessionInv s) (hc : c ∈ s.ctxs) (rc : Rc)
    (hs : switchSession s c flags = some (rc, s')) : SessionInv s' := by
  unfold switchSession at hs
  by_cases hid : c.id = 0
  · rw [if_pos hid] at hs
    cases hs
    exact h
  rw [if_neg hid] at hs
  have hother := h.other_id hc hid
  have hlt := h.fresh c hc
  by_cases hconf : configure flags = true
  · rw [if_pos hconf] at hs
    by_cases hbusy : s.cfgSessionId ≠ 0 ∧ s.cfgSessionId ≠ c.id
    · rw [if_pos hbusy] at hs
      cases hs
      exact h
    · rw [if_neg hbusy] at hs
      cases hs
      refine h.setCtx hc ⟨c.key, c.id, flags⟩ rfl ?_ ?_ ?_ (fun _ => hother) ?_ ?_ ?_ ?_
      · rfl
      · exact Nat.le_refl _
      · exact hlt
      · exact ⟨fun _ => ⟨rfl, hid⟩, fun _ => hconf⟩
      · intro d hd hk
        constructor
        · intro hh
          exact absurd hh.1 (hother d hd hk)
        · intro hh
          exact absurd ⟨hh.2, fun he => hother d hd hk (hh.1.trans he)⟩ hbusy
      · exact fun _ => Or.inl rfl
      · exact fun _ => hid
  · rw [if_neg hconf] at hs
    obtain ⟨s1, hs1, hs2⟩ := Option.bind_eq_some_iff.mp hs
    cases hs2
    obtain ⟨hctxs, hcnt, hcases⟩ := leave_cases hs1
    have hctxs' : (s1.setCtx ⟨c.key, c.id, flags⟩).ctxs = (s.setCtx ⟨c.key, c.id, flags⟩).ctxs := by
      unfold State.setCtx
      rw [hctxs]
    refine h.setCtx hc ⟨c.key, c.id, flags⟩ rfl hctxs' (Nat.le_of_eq hcnt.symm)
      (Nat.lt_of_lt_of_eq hlt hcnt.symm) (fun _ => hother) ?_ ?_ ?_ ?_
    · refine ⟨fun hf => absurd hf hconf, ?_⟩
      intro hh
      cases hcases with
      | inl hh' => exact absurd hh'.2.1 hh.2
      | inr hh' => exact absurd (hh.1.trans hh'.2.1).symm hh'.1
    · intro d hd hk
      show (d.id = s1.cfgSessionId ∧ s1.cfgSessionId ≠ 0) ↔ _
      cases hcases with
      | inl hh' =>
        rw [hh'.2.1, hh'.1]
        exact ⟨fun hh => absurd rfl hh.2, fun hh => absurd hh.1 (hother d hd hk)⟩
      | inr hh' => rw [hh'.2.1]
    · intro hne
      refine Or.inr ?_
      show ∃ d ∈ s.ctxs, d.key ≠ c.key ∧ d.id = s1.cfgSessionId
      cases hcases with
      | inl hh' => exact absurd hh'.2.1 hne
      | inr hh' =>
        rw [hh'.2.1]
        have hz : s.cfgSessionId ≠ 0 := hh'.2.1 ▸ hne
        obtain ⟨d, hd, hdid⟩ := h.live hz
        refine ⟨d, hd, ?_, hdid⟩
        intro hk
        rw [h.key_inj d c hd hc hk] at hdid
        exact hh'.1 hdid.symm
    · intro hne
      show s1.cfgSessionId ≠ 0
      cases hcases with
      | inl hh' => exact absurd hh'.2.2 hne
      | inr hh' =>
        rw [hh'.2.1]
        exact h.cached (hh'.2.2 ▸ hne)

theorem endSession_inv (h : SessionInv s) (hc : c ∈ s.ctxs) (hs : endSession s c = some s') :
    SessionInv s' := by
  unfold endSession at hs
  obtain ⟨s1, hs1, hs2⟩ := Option.bind_eq_some_iff.mp hs
  cases hs2
  obtain ⟨hctxs, hcnt, hcases⟩ := leave_cases hs1
  have hmem : ∀ d, d ∈ s1.ctxs.filter (fun d => d.key ≠ c.key) ↔ d ∈ s.ctxs ∧ d.key ≠ c.key := by
    intro d
    rw [hctxs, List.mem_filter, decide_eq_true_iff]
  constructor
  · show ((s1.ctxs.filter fun d => d.key ≠ c.key).map Ctx.key).Nodup
    rw [hctxs]
    exact h.keys.sublist ((List.filter_sublist).map Ctx.key)
  · rw [hcnt]
    exact h.counter
  · intro d hd
    rw [hcnt]
    exact h.fresh d ((hmem d).mp hd).1
  · intro x hx y hy
    exact h.distinct x ((hmem x).mp hx).1 y ((hmem y).mp hy).1
  · intro d hd
    obtain ⟨hd, hk⟩ := (hmem d).mp hd
    rw [h.holder d hd]
    cases hcases with
    | inl hh' =>
      rw [hh'.2.1, hh'.1]
      exact ⟨fun hh => absurd hh.1 (h.other_id hc hh.2 d hd hk), fun hh => absurd rfl hh.2⟩
    | inr hh' => rw [hh'.2.1]
  · intro hne
    cases hcases with
    | inl hh' => exact absurd hh'.2.1 hne
    | inr hh' =>
      rw [hh'.2.1] at hne ⊢
      obtain ⟨d, hd, hdid⟩ := h.live hne
      refine ⟨d, (hmem d).mpr ⟨hd, ?_⟩, hdid⟩
      intro hk
      rw [h.key_inj d c hd hc hk] at hdid
      exact hh'.1 hdid.symm
  · intro hne
    cases hcases with
    | inl hh' => exact absurd hh'.2.2 hne
    | inr hh' =>
      rw [hh'.2.1]
      exact h.cached (hh'.2.2 ▸ hne)

theorem switchSession_counter {rc : Rc} (hs : switchSession s c flags = some (rc, s')) :
    s'.sessionCounter = s.sessionCounter := by
  unfold switchSession at hs
  by_cases hid : c.id = 0
  · rw [if_pos hid] at hs
    cases hs
    rfl
  rw [if_neg hid] at hs
  by_cases hconf : configure flags = true
  · rw [if_pos hconf] at hs
    split at hs
    · cases hs
      rfl
    · cases hs
      rfl
  · rw [if_neg hconf] at hs
    obtain ⟨s1, hs1, hs2⟩ := Option.bind_eq_some_iff.mp hs
    cases hs2
    exact (leave_cases hs1).2.1

theorem endSession_counter (hs : endSession s c = some s') : s'.sessionCounter = s.sessionCounter := by
  unfold endSession at hs
  obtain ⟨s1, hs1, hs2⟩ := Option.bind_eq_some_iff.mp hs
  cases hs2
  exact (leave_cases hs1).2.1

theorem afterRequest_inv (h : SessionInv s) {key : ℕ} {rc rc' : Rc}
    (hs : afterRequest s key rc = some (rc', s')) :
    SessionInv s' ∧ s'.sessionCounter = s.sessionCounter := by
  unfold afterRequest at hs
  by_cases hrc : rc = .errAlloc
  · rw [if_pos hrc] at hs
    obtain ⟨c, hc, hs⟩ := Option.bind_eq_some_iff.mp hs
    obtain ⟨s1, hs1, hs2⟩ := Option.bind_eq_some_iff.mp hs
    cases hs2
    exact ⟨endSession_inv h (ctx_mem hc).1 hs1, endSession_counter hs1⟩
  · rw [if_neg hrc] at hs
    cases hs
    exact ⟨h, rfl⟩

/-- What a commit leaves behind: the codes of the validators, or an empty cache. -/
theorem commit_cases (env : Env) {order : List Selector} {rc : Rc}
    (hs : commit env s c order = some (rc, s')) :
    (rc = .errRequiresCfgSession ∧ s' = s ∧ c.id ≠ s.cfgSessionId) ∨
    (rc = .errMisc ∧ c.id = s.cfgSessionId ∧ ∃ cache,
      cacheValidate env s.store s.cache = some (0, cache) ∧ s' = { s with cache := cache }) ∨
    (rc = .ok ∧ c.id = s.cfgSessionId ∧ ∃ r cache st,
      cacheValidate env s.store s.cache = some (r, cache) ∧ r ≠ 0 ∧
      order.Perm (cache.map CacheItem.sb) ∧
      cacheApply env s.store (order.filterMap (cacheFind cache)) = some st ∧
      s' = { s with store := st, cache := [] }) := by
  unfold commit at hs
  by_cases hid : c.id ≠ s.cfgSessionId
  · rw [if_pos hid] at hs
    cases hs
    exact Or.inl ⟨rfl, rfl, hid⟩
  rw [if_neg hid] at hs
  have hid' : c.id = s.cfgSessionId := not_not.mp hid
  obtain ⟨⟨r, cache⟩, hval, hs⟩ := Option.bind_eq_some_iff.mp hs
  by_cases hr : r = 0
  · simp only [if_pos hr] at hs
    cases hs
    rw [hr] at hval
    exact Or.inr (Or.inl ⟨rfl, hid', cache, hval, rfl⟩)
  simp only [if_neg hr] at hs
  by_cases hperm : order.Perm (cache.map CacheItem.sb)
  · rw [if_pos hperm] at hs
    obtain ⟨st, happ, hs⟩ := Option.bind_eq_some_iff.mp hs
    cases hs
    exact Or.inr (Or.inr ⟨rfl, hid', r, cache, st, hval, hr, hperm, happ, rfl⟩)
  · rw [if_neg hperm] at hs
    cases hs

theorem cacheValidate_sb (env : Env) (st : DmStore) (cache cache' : Cache) (r : ℕ)
    (h : cacheValidate env st cache = some (r, cache')) :
    cache'.map CacheItem.sb = cache.map CacheItem.sb := by
  induction cache generalizing r cache' with
  | nil =>
    cases h
    rfl
  | cons item rest ih =>
    unfold cacheValidate at h
    cases hv : item.elem.validate with
    | none =>
      simp only [hv] at h
      obtain ⟨⟨rs, rest'⟩, hrest, h⟩ := Option.bind_eq_some_iff.mp h
      cases h
      rw [List.map_cons, List.map_cons, ih rest' rs hrest]
    | some hook =>
      simp only [hv] at h
      by_cases hcode : item.code = 0
      · rw [if_pos hcode] at h
        obtain ⟨t, -, h⟩ := Option.bind_eq_some_iff.mp h
        obtain ⟨⟨rs, rest'⟩, hrest, h⟩ := Option.bind_eq_some_iff.mp h
        cases h
        rw [List.map_cons, List.map_cons, ih rest' rs hrest]
      · rw [if_neg hcode] at h
        obtain ⟨⟨rs, rest'⟩, hrest, h⟩ := Option.bind_eq_some_iff.mp h
        cases h
        rw [List.map_cons, List.map_cons, ih rest' rs hrest]

theorem commit_inv (env : Env) (h : SessionInv s) {order : List Selector} {rc : Rc}
    (hs : commit env s c order = some (rc, s')) :
    SessionInv s' ∧ s'.sessionCounter = s.sessionCounter := by
  rcases commit_cases env hs with ⟨-, rfl, -⟩ | ⟨-, -, cache, hval, rfl⟩ | ⟨-, -, r, cache, st, -, -, -, -, rfl⟩
  · exact ⟨h, rfl⟩
  · refine ⟨h.congr rfl rfl rfl ?_, rfl⟩
    intro hne
    apply h.cached
    intro hnil
    have hsb := cacheValidate_sb env s.store s.cache cache 0 hval
    rw [hnil] at hsb
    exact hne (List.map_eq_nil_iff.mp hsb)
  · exact ⟨h.congr rfl rfl rfl fun hne => absurd rfl hne, rfl⟩

theorem cancel_inv (h : SessionInv s) {rc : Rc} (hs : cancel s c = some (rc, s')) :
    SessionInv s' ∧ s'.sessionCounter = s.sessionCounter := by
  unfold cancel at hs
  by_cases hid : c.id ≠ s.cfgSessionId
  · rw [if_pos hid] at hs
    cases hs
    exact ⟨h, rfl⟩
  · rw [if_neg hid] at hs
    obtain ⟨s1, hs1, hs2⟩ := Option.bind_eq_some_iff.mp hs
    cases hs2
    obtain ⟨hcache, hctxs, hcfg, hcnt⟩ := resetCache_eq hs1
    exact ⟨h.congr hctxs hcfg hcnt fun hne => absurd hcache hne, hcnt⟩

/-- A set outside the configure mode does not touch the cache. -/
theorem setCb_cache (env : Env) (st st' : DmStore) (cache cache' : Cache) (flags : ℕ)
    (hflags : configure flags = false) (sel : Selector) (ref : Ref) (avp : Avp) (r : SetResult)
    (h : setCb env st cache flags sel ref avp = some (r, st', cache')) : cache' = cache := by
  unfold setCb at h
  by_cases harr : ref.elem.flags.array = true
  · rw [if_pos harr] at h
    obtain ⟨x, -, hx⟩ := Option.bind_eq_some_iff.mp h
    cases hx
    rfl
  · rw [if_neg harr] at h
    cases hv : env.avp2value ref.elem avp with
    | error err =>
      simp only [hv] at h
      cases h
      rfl
    | ok v =>
      simp only [hv, hflags] at h
      rw [if_neg (by decide)] at h
      obtain ⟨x, -, hx⟩ := Option.bind_eq_some_iff.mp h
      cases hx
      rfl

theorem dbSet_cache (env : Env) (flags : ℕ) (hflags : configure flags = false)
    (values : List (Selector × Avp)) (st st' : DmStore) (cache cache' : Cache) (rc : Rc)
    (h : dbSet env flags values st cache = some (rc, st', cache')) : cache' = cache := by
  induction values generalizing st cache with
  | nil =>
    cases h
    rfl
  | cons p rest ih =>
    obtain ⟨sel, avp⟩ := p
    unfold dbSet at h
    obtain ⟨ref, -, hx⟩ := Option.bind_eq_some_iff.mp h
    cases ref with
    | none =>
      cases hx
      rfl
    | some ref =>
      obtain ⟨⟨r, st1, cache1⟩, hcb, hx⟩ := Option.bind_eq_some_iff.mp hx
      have hc1 := setCb_cache env st st1 cache cache1 flags hflags sel ref avp r hcb
      by_cases hr : r = .ok
      · simp only [if_pos hr] at hx
        rw [ih st1 cache1 hx, hc1]
      · simp only [if_neg hr] at hx
        cases hx
        exact hc1

/-- One event keeps the invariant. -/
theorem step_inv (env : Env) (h : SessionInv s) (ev : Event) (rc : Rc)
    (hs : step env s ev = some (rc, s')) (hlt : s.sessionCounter + started ev rc < 2 ^ 32) :
    SessionInv s' ∧ s'.sessionCounter = s.sessionCounter + started ev rc := by
  cases ev with
  | accept =>
    cases hs
    exact ⟨accept_inv h, rfl⟩
  | startSession key flags =>
    obtain ⟨c, hc, hs⟩ := Option.bind_eq_some_iff.mp hs
    exact startSession_inv h (ctx_mem hc).1 key rc (Option.some.inj hs) hlt
  | switchSession key flags =>
    obtain ⟨c, hc, hs⟩ := Option.bind_eq_some_iff.mp hs
    exact ⟨switchSession_inv h (ctx_mem hc).1 rc hs, switchSession_counter hs⟩
  | endSession key =>
    obtain ⟨c, hc, hs⟩ := Option.bind_eq_some_iff.mp hs
    obtain ⟨s1, hs1, hs2⟩ := Option.bind_eq_some_iff.mp hs
    cases hs2
    exact ⟨endSession_inv h (ctx_mem hc).1 hs1, endSession_counter hs1⟩
  | set key values =>
    obtain ⟨c, hc, hs⟩ := Option.bind_eq_some_iff.mp hs
    obtain ⟨⟨rc1, st, cache⟩, hset, hs⟩ := Option.bind_eq_some_iff.mp hs
    obtain ⟨hmem, -⟩ := ctx_mem hc
    have h1 : SessionInv { s with store := st, cache := cache } := by
      refine h.congr ?_ ?_ ?_ ?_
      · rfl
      · rfl
      · rfl
      intro hne
      cases hcfg : configure c.flags with
      | true => exact ((h.holder c hmem).mp hcfg).2
      | false =>
        rw [dbSet_cache env c.flags hcfg values s.store st s.cache cache rc1 hset] at hne
        exact h.cached hne
    have h2 := afterRequest_inv h1 hs
    exact ⟨h2.1, h2.2⟩
  | addInstance key sel id =>
    obtain ⟨c, -, hs⟩ := Option.bind_eq_some_iff.mp hs
    obtain ⟨⟨r, st⟩, -, hs⟩ := Option.bind_eq_some_iff.mp hs
    cases hs
    exact ⟨h.congr rfl rfl rfl h.cached, rfl⟩
  | delInstance key sel =>
    obtain ⟨c, -, hs⟩ := Option.bind_eq_some_iff.mp hs
    obtain ⟨⟨found, st⟩, -, hs⟩ := Option.bind_eq_some_iff.mp hs
    cases hs
    exact ⟨h.congr rfl rfl rfl h.cached, rfl⟩
  | commit key order =>
    obtain ⟨c, -, hs⟩ := Option.bind_eq_some_iff.mp hs
    exact commit_inv env h hs
  | cancel key =>
    obtain ⟨c, -, hs⟩ := Option.bind_eq_some_iff.mp hs
    exact cancel_inv h hs

end Steps

/-! ## Runs -/

/-- The sessions that start in a run. -/
def sessionStarts (env : Env) : State → List Event → ℕ
  | _, [] => 0
  | s, ev :: evs =>
    match step env s ev with
    | some (rc, s') => started ev rc + sessionStarts env s' evs
    | none => 0

/-- The invariant holds after the first part of a run, and the counter leaves room for the second. -/
theorem run_inv_rest (env : Env) (evs evs' : List Event) (s s' : State) (h : SessionInv s)
    (hrun : run env s evs = some s')
    (hlt : s.sessionCounter + sessionStarts env s (evs ++ evs') < 2 ^ 32) :
    SessionInv s' ∧ s'.sessionCounter + sessionStarts env s' evs' < 2 ^ 32 := by
  induction evs generalizing s with
  | nil =>
    cases hrun
    exact ⟨h, hlt⟩
  | cons ev evs ih =>
    obtain ⟨⟨rc, s1⟩, hs, hrun⟩ := Option.bind_eq_some_iff.mp hrun
    have hst : sessionStarts env s (ev :: evs ++ evs') =
        started ev rc + sessionStarts env s1 (evs ++ evs') := by
      rw [List.cons_append, sessionStarts, hs]
    obtain ⟨h1, hcnt⟩ := step_inv env h ev rc hs (by omega)
    exact ih s1 h1 hrun (by omega)

theorem run_inv (env : Env) (evs : List Event) (s s' : State) (h : SessionInv s)
    (hrun : run env s evs = some s') (hlt : s.sessionCounter + sessionStarts env s evs < 2 ^ 32) :
    SessionInv s' := by
  rw [← List.append_nil evs] at hlt
  exact (run_inv_rest env evs [] s s' h hrun hlt).1

theorem init_inv (env : Env) (s : State) (h : init env = some s) :
    SessionInv s ∧ s.sessionCounter = 1 := by
  obtain ⟨st, -, h⟩ := Option.bind_eq_some_iff.mp h
  cases h
  refine ⟨⟨List.nodup_nil, Nat.one_pos, ?_, ?_, ?_, ?_, ?_⟩, rfl⟩
  · exact fun _ hc => absurd hc List.not_mem_nil
  · exact fun _ hc => absurd hc List.not_mem_nil
  · exact fun _ hc => absurd hc List.not_mem_nil
  · exact fun hne => absurd rfl hne
  · exact fun hne => absurd rfl hne

/-- **One configure session.** In every state that the server reaches, whatever the clients do and in
whatever order, as long as fewer than `2 ^ 32 - 1` sessions were started: at most one context is in
configure mode, there is one exactly if `cfg_session_id` is set, it is the one with that id, and the
cache is empty if there is none. -/
theorem configure_exclusive (env : Env) (s0 s : State) (h0 : init env = some s0) (evs : List Event)
    (hrun : run env s0 evs = some s) (hstarts : sessionStarts env s0 evs < 2 ^ 32 - 1) :
    Exclusive s := by
  obtain ⟨h, hcnt⟩ := init_inv env s0 h0
  exact (run_inv env evs s0 s h hrun (by omega)).exclusive

/-- Two clients; the second gets the configure session when the first has left it. -/
def sampleSessions : List Event :=
  [.accept, .accept, .startSession 1 1, .startSession 2 0, .set 1 [([1], sampleAvp 3)],
    .switchSession 2 1, .switchSession 1 0, .switchSession 2 1, .set 2 [([1], sampleAvp 4)]]

theorem configure_exclusive_sample :
    ∃ s0 s, init sampleEnv = some s0 ∧ run sampleEnv s0 sampleSessions = some s ∧ s.cache ≠ [] ∧
      Exclusive s := by
  have h : ((init sampleEnv).bind fun s0 => (run sampleEnv s0 sampleSessions).map fun s =>
      (s.cache.length, sessionStarts sampleEnv s0 sampleSessions)) = some (1, 2) := by decide +kernel
  obtain ⟨s0, h0, h⟩ := Option.bind_eq_some_iff.mp h
  obtain ⟨s, hrun, h⟩ := Option.map_eq_some_iff.mp h
  obtain ⟨hlen, hstarts⟩ := Prod.mk.inj h
  refine ⟨s0, s, h0, hrun, ?_, configure_exclusive sampleEnv s0 s h0 sampleSessions hrun ?_⟩
  · intro hnil
    rw [hnil] at hlen
    cases hlen
  · rw [hstarts]
    decide

end Mand.Server
