import Mand.Lib.Run
import Mand.Server.Exclusive

/-! # Roles

`rpc_register_role`: a client says that it is the agent for a role, and what is asked of the role
goes to it. Whatever the clients do, a role has one agent at most, and the agent keeps it as long as
its connection is there. -/
namespace Mand.Server
open Mand.Store Mand.Msg Mand.Run
set_option autoImplicit false

/-- The server with the field `role` of its contexts. -/
structure Registry where
  server : State
  role : ℕ → Option (List ℕ)

/-- `find_role`. -/
def Registry.findRole (s : Registry) (role : List ℕ) : Option Ctx :=
  s.server.ctxs.find? fun c => s.role c.key = some role

/-- `rpc_register_role`; `granted` tells whether `talloc_strdup` makes its copy. -/
def Registry.registerRole (s : Registry) (c : Ctx) (role : List ℕ) (granted : Bool) : Rc × Registry :=
  match s.role c.key with
  | some own => (if own = role then .ok else .errMisc, s)
  | none =>
    if (s.findRole role).isSome = true then (.errMisc, s)
    else (.ok, if granted = true then { s with role := Function.update s.role c.key (some role) } else s)

/-- A role is freed with its context, and a new context has none. -/
def Registry.follow (s : Registry) (server : State) : Registry :=
  ⟨server, fun key =>
    if (s.server.ctx key).isSome = true ∧ (server.ctx key).isSome = true then s.role key else none⟩

inductive RoleEvent
  | server (ev : Event)
  | register (key : ℕ) (role : List ℕ) (granted : Bool)

def roleStep (env : Env) (s : Registry) : RoleEvent → Option (Rc × Registry)
  | .server ev => (step env s.server ev).map fun r => (r.1, s.follow r.2)
  | .register key role granted => (s.server.ctx key).map fun c => s.registerRole c role granted

/-- The state after an event. -/
def roleNext (env : Env) (s : Registry) (ev : RoleEvent) : Option Registry := (roleStep env s ev).map Prod.snd

/-! ## Contexts -/

section Keys
variable {env : Env} {s s' : State} {c : Ctx} {key : ℕ}

theorem ctx_isSome_iff : (s.ctx key).isSome = true ↔ key ∈ s.ctxs.map Ctx.key := by
  unfold State.ctx
  rw [List.find?_isSome]
  simp [List.mem_map]

theorem endSession_ctxs (h : endSession s c = some s') : s'.ctxs = s.ctxs.filter fun d => d.key ≠ c.key := by
  simp only [endSession, Option.bind_eq_bind, Option.bind_eq_some_iff, Option.some.injEq] at h
  obtain ⟨s1, h1, rfl⟩ := h
  show (s1.ctxs.filter fun d => d.key ≠ c.key) = _
  rw [(leave_cases h1).1]

theorem endSession_keys (h : endSession s c = some s') :
    (s'.ctxs.map Ctx.key).Sublist (s.ctxs.map Ctx.key) := by
  rw [endSession_ctxs h]
  exact List.filter_sublist.map _

theorem freshKey_notMem (s : State) : s.freshKey ∉ s.ctxs.map Ctx.key := by
  have hle : ∀ l : List ℕ, ∀ n ∈ l, n ≤ l.foldr max 0 := by
    intro l
    induction l with
    | nil => exact fun n hn => absurd hn List.not_mem_nil
    | cons m l ih =>
      intro n hn
      rw [List.foldr_cons]
      cases List.mem_cons.mp hn with
      | inl h => omega
      | inr h => exact (ih n h).trans (Nat.le_max_right m _)
  intro hmem
  have := hle _ _ hmem
  unfold State.freshKey at this
  omega

/-- A step accepts a connection, or it makes none. -/
theorem step_keys {ev : Event} {rc : Rc} (h : step env s ev = some (rc, s')) :
    s'.ctxs.map Ctx.key = s.ctxs.map Ctx.key ++ [s.freshKey] ∨
      (s'.ctxs.map Ctx.key).Sublist (s.ctxs.map Ctx.key) := by
  cases ev with
  | accept =>
    cases h
    exact .inl (List.map_append ..)
  | startSession key flags =>
    obtain ⟨c, -, h⟩ := Option.bind_eq_some_iff.mp h
    rw [Option.some.injEq] at h
    unfold startSession at h
    refine .inr ?_
    split_ifs at h
    · cases h
      exact List.Sublist.refl _
    · cases h
      exact List.Sublist.refl _
    · cases h
      exact (keys_setCtx _ _).symm ▸ List.Sublist.refl _
    · cases h
      exact (keys_setCtx _ _).symm ▸ List.Sublist.refl _
  | switchSession key flags =>
    obtain ⟨c, -, h⟩ := Option.bind_eq_some_iff.mp h
    unfold switchSession at h
    refine .inr ?_
    split_ifs at h
    · cases h
      exact List.Sublist.refl _
    · cases h
      exact List.Sublist.refl _
    · cases h
      rw [keys_setCtx]
    · obtain ⟨s1, h1, h⟩ := Option.bind_eq_some_iff.mp h
      cases h
      rw [keys_setCtx, (leave_cases h1).1]
  | endSession key =>
    obtain ⟨c, -, h⟩ := Option.bind_eq_some_iff.mp h
    obtain ⟨s1, h1, h⟩ := Option.bind_eq_some_iff.mp h
    cases h
    exact .inr (endSession_keys h1)
  | set key values =>
    obtain ⟨c, -, h⟩ := Option.bind_eq_some_iff.mp h
    obtain ⟨⟨rc1, st, cache⟩, -, h⟩ := Option.bind_eq_some_iff.mp h
    dsimp only at h
    unfold afterRequest at h
    refine .inr ?_
    split_ifs at h
    · obtain ⟨d, -, h⟩ := Option.bind_eq_some_iff.mp h
      obtain ⟨s1, h1, h⟩ := Option.bind_eq_some_iff.mp h
      cases h
      have hkeys := endSession_keys h1
      exact hkeys
    · cases h
      exact List.Sublist.refl _
  | addInstance key sel id =>
    obtain ⟨c, -, h⟩ := Option.bind_eq_some_iff.mp h
    obtain ⟨⟨r, st⟩, -, h⟩ := Option.bind_eq_some_iff.mp h
    cases h
    exact .inr (List.Sublist.refl _)
  | delInstance key sel =>
    obtain ⟨c, -, h⟩ := Option.bind_eq_some_iff.mp h
    obtain ⟨⟨r, st⟩, -, h⟩ := Option.bind_eq_some_iff.mp h
    cases h
    exact .inr (List.Sublist.refl _)
  | commit key order =>
    obtain ⟨c, -, h⟩ := Option.bind_eq_some_iff.mp h
    unfold commit at h
    refine .inr ?_
    split at h
    · cases h
      exact List.Sublist.refl _
    · obtain ⟨⟨r, cache⟩, -, h⟩ := Option.bind_eq_some_iff.mp h
      dsimp only at h
      split_ifs at h
      · cases h
        exact List.Sublist.refl _
      · obtain ⟨st, -, h⟩ := Option.bind_eq_some_iff.mp h
        cases h
        exact List.Sublist.refl _
  | cancel key =>
    obtain ⟨c, -, h⟩ := Option.bind_eq_some_iff.mp h
    unfold cancel at h
    refine .inr ?_
    split at h
    · cases h
      exact List.Sublist.refl _
    · obtain ⟨s1, h1, h⟩ := Option.bind_eq_some_iff.mp h
      cases h
      rw [(resetCache_eq h1).2.1]

end Keys

/-! ## One agent for a role -/

/-- Roles belong to connections that are there, and no two of them have the same. -/
structure RolesWf (s : Registry) : Prop where
  keys : (s.server.ctxs.map Ctx.key).Nodup
  there : ∀ key role, s.role key = some role → (s.server.ctx key).isSome = true
  unique : ∀ key key' role, s.role key = some role → s.role key' = some role → key = key'

section Roles
variable {env : Env} {s s' s2 : Registry} {c : Ctx} {role : List ℕ} {granted : Bool} {rc : Rc} {key : ℕ}

/-- `find_role` finds the agent. -/
theorem RolesWf.findRole_iff (h : RolesWf s) :
    s.findRole role = some c ↔ c ∈ s.server.ctxs ∧ s.role c.key = some role := by
  constructor
  · intro hfind
    exact ⟨List.mem_of_find?_eq_some hfind, by simpa using List.find?_some hfind⟩
  · intro ⟨hc, hrole⟩
    have hsome : (s.findRole role).isSome = true := by
      unfold Registry.findRole
      rw [List.find?_isSome]
      exact ⟨c, hc, by simpa using hrole⟩
    obtain ⟨d, hd⟩ := Option.isSome_iff_exists.mp hsome
    have hdrole : s.role d.key = some role := by simpa using List.find?_some hd
    have hkey := h.unique d.key c.key role hdrole hrole
    rw [hd, List.inj_on_of_nodup_map h.keys (List.mem_of_find?_eq_some hd) hc hkey]

/-- What a registration does. -/
theorem registerRole_cases (h : s.registerRole c role granted = (rc, s')) :
    s' = s ∧ (rc = .ok → s.role c.key = some role ∨ granted = false) ∨
      rc = .ok ∧ s.role c.key = none ∧ s.findRole role = none ∧ s'.server = s.server ∧
        s'.role = Function.update s.role c.key (some role) := by
  unfold Registry.registerRole at h
  cases hown : s.role c.key with
  | some own =>
    simp only [hown, Prod.mk.injEq] at h
    obtain ⟨rfl, rfl⟩ := h
    refine .inl ⟨rfl, fun hok => .inl ?_⟩
    by_cases hsame : own = role
    · rw [hsame]
    · rw [if_neg hsame] at hok
      cases hok
  | none =>
    simp only [hown] at h
    split_ifs at h with hfound hgrant
    · cases h
      exact .inl ⟨rfl, fun hok => by cases hok⟩
    · cases h
      exact .inr ⟨rfl, rfl, by simpa using hfound, rfl, rfl⟩
    · cases h
      exact .inl ⟨rfl, fun _ => .inr (by simpa using hgrant)⟩

theorem registerRole_own {own : List ℕ} (hown : s.role c.key = some own) (hne : own ≠ role) :
    s.registerRole c role granted = (.errMisc, s) := by
  unfold Registry.registerRole
  rw [hown]
  show (if own = role then Rc.ok else Rc.errMisc, s) = _
  rw [if_neg hne]

theorem registerRole_taken {d : Ctx} (hfree : s.role c.key = none) (hfound : s.findRole role = some d) :
    s.registerRole c role granted = (.errMisc, s) := by
  unfold Registry.registerRole
  rw [hfree, hfound]
  rfl

theorem follow_role {server : State} (hrole : (s.follow server).role key = some role) :
    s.role key = some role ∧ (server.ctx key).isSome = true := by
  unfold Registry.follow at hrole
  dsimp only at hrole
  split_ifs at hrole with hkeys
  exact ⟨hrole, hkeys.2⟩

theorem follow_wf (h : RolesWf s) {ev : Event} {server : State}
    (hstep : step env s.server ev = some (rc, server)) : RolesWf (s.follow server) := by
  refine ⟨?_, fun key role hrole => (follow_role hrole).2, fun key key' role hrole hrole' =>
    h.unique key key' role (follow_role hrole).1 (follow_role hrole').1⟩
  show (server.ctxs.map Ctx.key).Nodup
  cases step_keys hstep with
  | inl hadd =>
    rw [hadd]
    refine List.nodup_append.mpr ⟨h.keys, List.nodup_singleton _, fun a ha b hb hab => ?_⟩
    rw [List.mem_singleton] at hb
    exact freshKey_notMem s.server (hb ▸ hab ▸ ha)
  | inr hsub => exact hsub.nodup h.keys

theorem registerRole_wf (h : RolesWf s) (hc : s.server.ctx key = some c)
    (hreg : s.registerRole c role granted = (rc, s')) : RolesWf s' := by
  cases registerRole_cases hreg with
  | inl hsame => exact hsame.1 ▸ h
  | inr hnew =>
    obtain ⟨-, -, hfree, hserver, hrole⟩ := hnew
    have hkey := (ctx_mem hc).2
    have hnone : ∀ k, s.role k ≠ some role := by
      intro k hk
      obtain ⟨d, hd⟩ := Option.isSome_iff_exists.mp (h.there k role hk)
      obtain ⟨hmem, hdk⟩ := ctx_mem hd
      have hfound := h.findRole_iff.mpr ⟨hmem, hdk.symm ▸ hk⟩
      rw [hfree] at hfound
      cases hfound
    refine ⟨hserver ▸ h.keys, ?_, ?_⟩
    · intro k r hk
      rw [hrole, Function.update_apply] at hk
      rw [hserver]
      split_ifs at hk with hck
      · rw [hck, hkey, hc]
        rfl
      · exact h.there k r hk
    · intro k k' r hk hk'
      rw [hrole, Function.update_apply] at hk hk'
      split_ifs at hk hk' with h1 h2 h2
      · rw [h1, h2]
      · cases hk
        exact absurd hk' (hnone k')
      · cases hk'
        exact absurd hk (hnone k)
      · exact h.unique k k' r hk hk'

theorem roleNext_wf {ev : RoleEvent} (hnext : roleNext env s ev = some s') (h : RolesWf s) : RolesWf s' := by
  obtain ⟨⟨rc, s1⟩, hstep, rfl⟩ := Option.map_eq_some_iff.mp hnext
  cases ev with
  | server ev =>
    obtain ⟨⟨rc', server⟩, hserver, heq⟩ := Option.map_eq_some_iff.mp hstep
    cases heq
    exact follow_wf h hserver
  | register key role granted =>
    obtain ⟨c, hc, heq⟩ := Option.map_eq_some_iff.mp hstep
    exact registerRole_wf h hc heq

/-- A role stays with its connection. -/
theorem roleNext_keeps {ev : RoleEvent} (h : RolesWf s) (hnext : roleNext env s ev = some s')
    (hrole : s.role key = some role) (hthere : (s'.server.ctx key).isSome = true) : s'.role key = some role := by
  obtain ⟨⟨rc, s1⟩, hstep, rfl⟩ := Option.map_eq_some_iff.mp hnext
  cases ev with
  | server ev =>
    obtain ⟨⟨rc', server⟩, -, heq⟩ := Option.map_eq_some_iff.mp hstep
    cases heq
    exact (if_pos ⟨h.there key role hrole, hthere⟩).trans hrole
  | register k r granted =>
    obtain ⟨c, -, heq⟩ := Option.map_eq_some_iff.mp hstep
    cases registerRole_cases heq with
    | inl hsame => exact hsame.1 ▸ hrole
    | inr hnew =>
      obtain ⟨-, hnone, -, -, hupd⟩ := hnew
      have hne : key ≠ c.key := by
        intro heq
        rw [← heq, hrole] at hnone
        cases hnone
      show s1.role key = some role
      rw [hupd, Function.update_of_ne hne]
      exact hrole

/-- The role is free when its agent goes. -/
theorem role_freed (h : RolesWf s) (hrole : s.role key = some role)
    (hend : roleStep env s (.server (.endSession key)) = some (rc, s')) : s'.findRole role = none := by
  obtain ⟨⟨rc', server⟩, hserver, heq⟩ := Option.map_eq_some_iff.mp hend
  cases heq
  obtain ⟨c, hc, hserver⟩ := Option.bind_eq_some_iff.mp hserver
  obtain ⟨s1, h1, hs1⟩ := Option.bind_eq_some_iff.mp hserver
  cases hs1
  rw [Registry.findRole, List.find?_eq_none]
  intro d hd hheld
  have hother : d.key ≠ key := by
    have hmem : d ∈ s.server.ctxs.filter fun d => d.key ≠ c.key := endSession_ctxs h1 ▸ hd
    rw [← (ctx_mem hc).2]
    simpa using (List.mem_filter.mp hmem).2
  exact hother (h.unique d.key key role (follow_role (of_decide_eq_true hheld)).1 hrole)

theorem run_role {evs : List RoleEvent} (h : RolesWf s) (hrole : s.role key = some role)
    (hthere : Always (roleNext env) s (fun t => (t.server.ctx key).isSome = true) evs)
    (hrun : Run.run (roleNext env) s evs = some s2) : s2.role key = some role := by
  induction evs using List.reverseRecOn generalizing s2 with
  | nil =>
    cases hrun
    exact hrole
  | append_singleton evs ev ih =>
    obtain ⟨u, hu, hnext⟩ := run_snoc.mp hrun
    have hbefore := ih (fun pre t hpre => hthere pre t (hpre.trans (List.prefix_append evs [ev]))) hu
    exact roleNext_keeps (run_keeps (fun _ _ _ hstep hw => roleNext_wf hstep hw) hu h) hnext hbefore
      (hthere _ s2 (List.prefix_refl _) hrun)

/-- **One agent for a role.** A client that was told that it has a role is the one that is found for
it as long as its connection is there, whatever it and the others do. In the meantime nobody else
gets the role, and it gets no other. When it goes, the role is free. In every state all roles that are
held have one agent. -/
theorem role_held (env : Env) (st : State) (h0 : init env = some st) (before evs : List RoleEvent) (s s' s2 : Registry)
    (key : ℕ) (role : List ℕ) (hbefore : Run.run (roleNext env) ⟨st, fun _ => none⟩ before = some s)
    (hreg : roleStep env s (.register key role true) = some (.ok, s'))
    (hrun : Run.run (roleNext env) s' evs = some s2)
    (hthere : Always (roleNext env) s' (fun t => (t.server.ctx key).isSome = true) evs) :
    (∃ c, s2.findRole role = some c ∧ c.key = key) ∧
      (∀ k r granted rc s3, k ≠ key ∧ r = role ∨ k = key ∧ r ≠ role →
        roleStep env s2 (.register k r granted) = some (rc, s3) → rc = .errMisc ∧ s3 = s2) ∧
      (∀ rc s3, roleStep env s2 (.server (.endSession key)) = some (rc, s3) → s3.findRole role = none) ∧
      ∀ r c, s2.findRole r = some c ↔ c ∈ s2.server.ctxs ∧ s2.role c.key = some r := by
  have hinit : RolesWf ⟨st, fun _ => none⟩ := by
    have hkeys := (init_inv env st h0).1.keys
    refine ⟨hkeys, ?_, ?_⟩
    · intro _ _ hrole
      cases hrole
    · intro _ _ _ hrole
      cases hrole
  have hnext : ∀ s ev s', roleNext env s ev = some s' → RolesWf s → RolesWf s' :=
    fun _ _ _ hstep hw => roleNext_wf hstep hw
  have hs := run_keeps hnext hbefore hinit
  obtain ⟨c, hc, heq⟩ := Option.map_eq_some_iff.mp hreg
  have hs' := registerRole_wf hs hc heq
  have hgot : s'.role key = some role := by
    rw [← (ctx_mem hc).2]
    cases registerRole_cases heq with
    | inl hsame =>
      obtain ⟨rfl, hown⟩ := hsame
      cases hown rfl with
      | inl hown => exact hown
      | inr hno => cases hno
    | inr hnew => rw [hnew.2.2.2.2, Function.update_self]
  have hw := run_keeps hnext hrun hs'
  have hheld := run_role hs' hgot hthere hrun
  obtain ⟨d, hd⟩ := Option.isSome_iff_exists.mp (hthere evs s2 (List.prefix_refl _) hrun)
  obtain ⟨hmem, hkey⟩ := ctx_mem hd
  have hfound := hw.findRole_iff.mpr ⟨hmem, hkey.symm ▸ hheld⟩
  refine ⟨⟨d, hfound, hkey⟩, fun k r granted rc s3 hcase hask => ?_,
    fun rc s3 hend => role_freed hw hheld hend, fun r c => hw.findRole_iff⟩
  obtain ⟨b, hb, heq⟩ := Option.map_eq_some_iff.mp hask
  have hbkey := (ctx_mem hb).2
  suffices hrefused : s2.registerRole b r granted = (.errMisc, s2) by
    have hans := heq.symm.trans hrefused
    rw [Prod.mk.injEq] at hans
    exact hans
  cases hcase with
  | inl hother =>
    obtain ⟨hne, rfl⟩ := hother
    cases hown : s2.role b.key with
    | some own =>
      refine registerRole_own hown ?_
      rintro rfl
      exact hne (hbkey ▸ hw.unique b.key key own hown hheld)
    | none => exact registerRole_taken hown hfound
  | inr hself =>
    obtain ⟨rfl, hne⟩ := hself
    exact registerRole_own (hbkey ▸ hheld) hne.symm

end Roles

/-- Two clients, of which the first asks for a role. -/
theorem role_held_two : ∃ s2 : Registry, (∃ c, s2.findRole [102] = some c ∧ c.key = 1) ∧
    ∀ rc s3, roleStep sampleEnv s2 (.register 2 [102] true) = some (rc, s3) → rc = .errMisc := by
  have h0 : init sampleEnv = some ⟨sampleStore, [], 0, 1, []⟩ := rfl
  obtain ⟨hfound, hrefused, -, -⟩ := role_held sampleEnv _ h0 [.server .accept, .server .accept]
    [.register 2 [102] true] _ _ _ 1 [102] rfl rfl rfl (fun pre t hpre hrun => by
      cases List.prefix_cons_iff.mp hpre with
      | inl hnil =>
        rw [hnil] at hrun
        cases hrun
        rfl
      | inr hcons =>
        obtain ⟨l, rfl, hl⟩ := hcons
        rw [List.prefix_nil.mp hl] at hrun
        cases hrun
        rfl)
  exact ⟨_, hfound, fun rc s3 hask => (hrefused 2 [102] true rc s3 (.inl ⟨by decide, rfl⟩) hask).1⟩

end Mand.Server
