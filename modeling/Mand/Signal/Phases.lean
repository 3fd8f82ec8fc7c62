import Mand.Action.Reach
import Mand.Notify.Pending
import Mand.Signal.System

/-! # Phases of an action

`exec_actions_pre` runs before `cache_apply` in a commit, and `exec_actions` behind it. Which nodes have
had their pre hook when their action hook runs. -/
namespace Mand.Signal
open Mand.Store Mand.Index Mand.Msg Mand.Server Mand.Notify Mand.Action
set_option autoImplicit false

variable {table : ℕ → Option DmAction} {chain chain' : List ExecNode} {sigs : List Signal} {out : List Entry}

/-! ## Nodes -/

/-- The node of one action. -/
def selNode (table : ℕ → Option DmAction) (sel : Selector) (type : ActionType) (b : ℕ) : Option ExecNode :=
  (table b).map fun act => ⟨b, truncate act.selLen sel, type⟩

/-- The nodes that `action_sel` inserts. -/
def selNodes (table : ℕ → Option DmAction) (action : ℕ) (sel : Selector) (type : ActionType) : List ExecNode :=
  if action = 0 then []
  else (action :: ((table action).map DmAction.chain).getD []).filterMap (selNode table sel type)

/-- The nodes of some calls. -/
def signalNodes (table : ℕ → Option DmAction) : Signal → List ExecNode
  | .notify _ _ _ _ => []
  | .action action sel type => selNodes table action sel type

theorem insertAction_nodes {action : ℕ} {sel : Selector} {type : ActionType}
    (h : insertAction table chain action sel type = some chain') :
    chain' = Keyed.insertAll cmpAction (selNode table sel type action).toList chain := by
  simp only [insertAction, Option.bind_eq_bind, Option.bind_eq_some_iff, Option.some.injEq] at h
  obtain ⟨act, hact, rfl⟩ := h
  rw [selNode, hact]
  rfl

theorem insertActions_nodes {sel : Selector} {type : ActionType} (bs : List ℕ)
    (h : bs.foldlM (fun chain b => insertAction table chain b sel type) chain = some chain') :
    chain' = Keyed.insertAll cmpAction (bs.filterMap (selNode table sel type)) chain := by
  induction bs generalizing chain with
  | nil =>
    cases h
    rfl
  | cons b bs ih =>
    rw [List.foldlM_cons, Option.bind_eq_bind, Option.bind_eq_some_iff] at h
    obtain ⟨chain1, h1, h⟩ := h
    rw [ih h, insertAction_nodes h1]
    cases hb : selNode table sel type b with
    | none => rw [List.filterMap_cons_none hb]; rfl
    | some n => rw [List.filterMap_cons_some hb]; rfl

theorem actionSel_nodes {action : ℕ} {sel : Selector} {type : ActionType}
    (h : actionSel table chain action sel type = some chain') :
    chain' = Keyed.insertAll cmpAction (selNodes table action sel type) chain := by
  unfold actionSel at h
  unfold selNodes
  by_cases hz : action = 0
  · rw [if_pos hz] at h ⊢
    cases h
    rfl
  · rw [if_neg hz] at h ⊢
    simp only [Option.bind_eq_bind, Option.bind_eq_some_iff] at h
    obtain ⟨chain1, h1, act, hact, h⟩ := h
    apply insertActions_nodes
    rw [List.foldlM_cons, Option.bind_eq_bind, h1, hact]
    exact h

/-- What the calls leave in the tree, and what is noted of it. -/
structure Scheduled (table : ℕ → Option DmAction) (sigs : List Signal) (chain chain' : List ExecNode)
    (out : List Entry) : Prop where
  chain_eq : chain' = Keyed.insertAll cmpAction (sigs.flatMap (signalNodes table)) chain
  noted : ∀ x, x ∈ out ↔ ∃ n, x = .scheduled n ∧ n ∈ chain' ∧ n ∉ chain

theorem Scheduled.keeps (h : Scheduled table sigs chain chain' out) {n : ExecNode} (hn : n ∈ chain) : n ∈ chain' := by
  rw [h.chain_eq]
  exact Keyed.mem_insertAll_of_mem _ hn

theorem insertAll_append (xs ys l : List ExecNode) : Keyed.insertAll cmpAction (xs ++ ys) l =
    Keyed.insertAll cmpAction ys (Keyed.insertAll cmpAction xs l) := List.foldl_append

theorem scheduleAll_spec (h : scheduleAll table sigs chain = some (chain', out)) :
    Scheduled table sigs chain chain' out := by
  induction sigs generalizing chain out with
  | nil =>
    cases h
    refine ⟨rfl, fun x => ⟨fun hx => absurd hx List.not_mem_nil, ?_⟩⟩
    rintro ⟨n, -, hn, hnot⟩
    exact absurd hn hnot
  | cons sig sigs ih =>
    cases sig with
    | notify slot sel value type =>
      have hrest := ih h
      exact ⟨hrest.chain_eq, hrest.noted⟩
    | action action sel type =>
      simp only [scheduleAll, Option.bind_eq_bind, Option.bind_eq_some_iff, Option.some.injEq, Prod.mk.injEq,
        Prod.exists] at h
      obtain ⟨chain1, h1, c, out1, h2, rfl, rfl⟩ := h
      have hrest := ih h2
      have hfirst := actionSel_nodes h1
      have hsub : ∀ n ∈ chain, n ∈ chain1 := by
        intro n hn
        rw [hfirst]
        exact Keyed.mem_insertAll_of_mem _ hn
      constructor
      · rw [hrest.chain_eq, hfirst, List.flatMap_cons, insertAll_append]
        rfl
      · intro x
        rw [List.mem_append, hrest.noted, List.mem_map]
        constructor
        · rintro (⟨n, hn, rfl⟩ | ⟨n, rfl, hn, hnot⟩)
          · have hn := List.mem_filter.mp hn
            exact ⟨n, rfl, hrest.keeps hn.1, by simpa using hn.2⟩
          · exact ⟨n, rfl, hn, fun hc => hnot (hsub n hc)⟩
        · rintro ⟨n, rfl, hn, hnot⟩
          by_cases h1 : n ∈ chain1
          · exact .inl ⟨n, List.mem_filter.mpr ⟨h1, by simpa using hnot⟩, rfl⟩
          · exact .inr ⟨n, rfl, hn, h1⟩

/-- A node that is new is one of those that were called for, and nothing in the tree was equal to it. -/
theorem Scheduled.fresh (h : Scheduled table sigs chain chain' out) (hord : Keyed.Ordered cmpAction chain)
    {n : ExecNode} (hn : n ∈ chain') (hnot : n ∉ chain) :
    n ∈ sigs.flatMap (signalNodes table) ∧ ∀ k ∈ chain, cmpAction k n ≠ 0 := by
  have hord' : Keyed.Ordered cmpAction chain' := by
    rw [h.chain_eq]
    exact hord.insertAll cmpAction_comparison _
  constructor
  · rw [h.chain_eq] at hn
    rcases Keyed.mem_of_insertAll hn with hn | hn
    · exact hn
    · exact absurd hn hnot
  · intro k hk heq
    have hkn := hord'.unique cmpAction_comparison (h.keeps hk) hn heq
    rw [hkn] at hk
    exact hnot hk

/-! ## The log -/

/-- The node whose action or post hook an entry is. -/
def Entry.hookOf : Entry → Option ExecNode
  | .called (.action n) => some n
  | .called (.post n) => some n
  | _ => none

def HasPre (table : ℕ → Option DmAction) (n : ExecNode) : Prop := (table n.action).any DmAction.pre = true

/-- The pre hook of a node has run since the node was put into the tree. -/
def Ready (log : List Entry) (n : ExecNode) : Prop :=
  ∃ a b, log = a ++ .scheduled n :: b ∧ .scheduled n ∉ b ∧ .called (.pre n) ∈ b

/-- Every node whose action or post hook runs has had its pre hook, if it has one. -/
def Phased (table : ℕ → Option DmAction) (log : List Entry) : Prop :=
  ∀ front x back n, log = front ++ x :: back → x.hookOf = some n → HasPre table n → Ready front n

theorem Phased.append_iff {log new : List Entry} : Phased table (log ++ new) ↔ Phased table log ∧
    ∀ front x back n, new = front ++ x :: back → x.hookOf = some n → HasPre table n → Ready (log ++ front) n := by
  constructor
  · intro h
    constructor
    · intro front x back n hlog hx hpre
      exact h front x (back ++ new) n (by rw [hlog, List.append_assoc, List.cons_append]) hx hpre
    · intro front x back n hnew hx hpre
      exact h (log ++ front) x back n (by rw [hnew, List.append_assoc]) hx hpre
  · rintro ⟨hold, hnew⟩ front x back n heq hx hpre
    rcases List.append_eq_append_iff.mp heq with ⟨c, rfl, hc⟩ | ⟨c, hlog, hc⟩
    · exact hnew c x back n hc hx hpre
    · cases c with
      | nil =>
        rw [List.append_nil] at hlog
        have hready := hnew [] x back n hc.symm hx hpre
        rwa [List.append_nil, hlog] at hready
      | cons y c =>
        rw [List.cons_append, List.cons.injEq] at hc
        exact hold front x c n (by rw [hlog, hc.1]) hx hpre

/-- Nothing runs a hook. -/
theorem Phased.append_silent {log new : List Entry} (h : ∀ x ∈ new, x.hookOf = none) :
    Phased table (log ++ new) ↔ Phased table log := by
  rw [Phased.append_iff]
  constructor
  · exact fun h => h.1
  · intro hlog
    refine ⟨hlog, ?_⟩
    intro front x back n hnew hx _
    rw [h x (by rw [hnew]; exact List.mem_append_right _ List.mem_cons_self)] at hx
    cases hx

/-- The last time that something happened. -/
theorem exists_last {α : Type} {x : α} (l : List α) (h : x ∈ l) : ∃ a b, l = a ++ x :: b ∧ x ∉ b := by
  induction l with
  | nil => cases h
  | cons y l ih =>
    by_cases hx : x ∈ l
    · obtain ⟨a, b, rfl, hb⟩ := ih hx
      exact ⟨y :: a, b, rfl, hb⟩
    · rcases List.mem_cons.mp h with rfl | h
      · exact ⟨[], l, rfl, hx⟩
      · exact absurd h hx

/-- A node that was in the tree when the pre hooks ran. -/
theorem ready_of_pre {log mid : List Entry} {n : ExecNode} (hlog : .scheduled n ∈ log) (hpre : .called (.pre n) ∈ mid)
    (hmid : .scheduled n ∉ mid) : Ready (log ++ mid) n := by
  obtain ⟨a, b, rfl, hb⟩ := exists_last log hlog
  refine ⟨a, b ++ mid, by rw [List.append_assoc, List.cons_append], ?_, List.mem_append_right _ hpre⟩
  intro h
  rcases List.mem_append.mp h with h | h
  · exact hb h
  · exact hmid h

/-- A node that was put into the tree after the pre hooks ran. -/
theorem not_ready_of_late {log mid : List Entry} {n : ExecNode} (hlate : .scheduled n ∈ mid)
    (hpre : .called (.pre n) ∉ mid) : ¬Ready (log ++ mid) n := by
  rintro ⟨a, b, heq, hb, hcall⟩
  rcases List.append_eq_append_iff.mp heq with ⟨c, -, hc⟩ | ⟨c, -, hc⟩
  · exact hpre (by rw [hc]; exact List.mem_append_right _ (List.mem_cons_of_mem _ hcall))
  · cases c with
    | nil =>
      rw [List.nil_append] at hc
      exact hpre (by rw [← hc]; exact List.mem_cons_of_mem _ hcall)
    | cons y c =>
      rw [List.cons_append, List.cons.injEq] at hc
      exact hb (by rw [hc.2]; exact List.mem_append_right _ hlate)

/-! ## The passes -/

section Passes
variable {host : Host} {ctxs : List Ctx} {n : ExecNode} {x : Entry}

def HasHook (table : ℕ → Option DmAction) (n : ExecNode) : Prop :=
  (table n.action).any DmAction.action = true ∨ (table n.action).any DmAction.post = true

/-- A node that needs no pre phase: it has no pre hook, or no other one. -/
def Unprepared (table : ℕ → Option DmAction) (n : ExecNode) : Prop := HasPre table n → ¬HasHook table n

theorem mem_hook {get : DmAction → Bool} {call : ExecNode → Action.Call} {c : Action.Call} :
    c ∈ hook table get call n ↔ (table n.action).any get = true ∧ c = call n := by
  unfold hook
  split
  · simp [*]
  · simp [*]

theorem mem_preEntries : x ∈ preEntries host chain ↔ ∃ n ∈ chain, HasPre host.actions n ∧ x = .called (.pre n) := by
  simp only [preEntries, execActionsPre, List.mem_map, List.mem_flatMap, mem_hook]
  constructor
  · rintro ⟨c, ⟨n, hn, hpre, rfl⟩, rfl⟩
    exact ⟨n, hn, hpre, rfl⟩
  · rintro ⟨n, hn, hpre, rfl⟩
    exact ⟨_, ⟨n, hn, hpre, rfl⟩, rfl⟩

/-- The calls of `exec_actions`. -/
theorem mem_execActions {c : Action.Call} : c ∈ execActions table chain ↔ ∃ n ∈ chain,
    (c = .action n ∧ (table n.action).any DmAction.action = true) ∨ c = .event n ∨
      (c = .post n ∧ (table n.action).any DmAction.post = true) := by
  simp only [execActions, List.mem_append, List.mem_flatMap, mem_hook, List.mem_singleton]
  constructor
  · rintro (⟨n, hn, ⟨h, rfl⟩ | rfl⟩ | ⟨n, hn, h, rfl⟩)
    · exact ⟨n, hn, .inl ⟨rfl, h⟩⟩
    · exact ⟨n, hn, .inr (.inl rfl)⟩
    · exact ⟨n, hn, .inr (.inr ⟨rfl, h⟩)⟩
  · rintro ⟨n, hn, ⟨rfl, h⟩ | rfl | ⟨rfl, h⟩⟩
    · exact .inl ⟨n, hn, .inl ⟨h, rfl⟩⟩
    · exact .inl ⟨n, hn, .inr rfl⟩
    · exact .inr ⟨n, hn, h, rfl⟩

theorem mem_eventBroadcast (hx : x ∈ eventBroadcast host ctxs n) : ∃ key req, x = .sent key (.event n req) := by
  unfold eventBroadcast at hx
  split at hx
  · cases hx
  · obtain ⟨c, -, hx⟩ := List.mem_flatMap.mp hx
    obtain ⟨req, -, rfl⟩ := List.mem_map.mp hx
    exact ⟨c.key, req, rfl⟩

theorem mem_callEntries {c : Action.Call} (hx : x ∈ callEntries host ctxs c) :
    x = .called c ∨ ∃ key p, x = .sent key p := by
  cases c with
  | event n =>
    rcases List.mem_cons.mp hx with rfl | hx
    · exact .inl rfl
    · obtain ⟨key, req, rfl⟩ := mem_eventBroadcast hx
      exact .inr ⟨key, _, rfl⟩
  | pre n => exact .inl (List.mem_singleton.mp hx)
  | action n => exact .inl (List.mem_singleton.mp hx)
  | post n => exact .inl (List.mem_singleton.mp hx)

theorem called_mem_callEntries (c : Action.Call) : .called c ∈ callEntries host ctxs c := by
  cases c <;> exact List.mem_cons_self

theorem mem_actionEntries (hx : x ∈ actionEntries host ctxs chain) :
    (∃ c ∈ execActions host.actions chain, x = .called c) ∨ ∃ key p, x = .sent key p := by
  obtain ⟨c, hc, hx⟩ := List.mem_flatMap.mp hx
  rcases mem_callEntries hx with rfl | hsent
  · exact .inl ⟨c, hc, rfl⟩
  · exact .inr hsent

/-- The hooks that `exec_actions` runs are those of its nodes. -/
theorem hookOf_actionEntries (hx : x ∈ actionEntries host ctxs chain) (hn : x.hookOf = some n) :
    n ∈ chain ∧ HasHook host.actions n := by
  rcases mem_actionEntries hx with ⟨c, hc, rfl⟩ | ⟨key, p, rfl⟩
  · obtain ⟨m, hm, ⟨rfl, h⟩ | rfl | ⟨rfl, h⟩⟩ := mem_execActions.mp hc
    · cases hn
      exact ⟨hm, .inl h⟩
    · cases hn
    · cases hn
      exact ⟨hm, .inr h⟩
  · cases hn

theorem exists_hook_entry (hn : n ∈ chain) (hhook : HasHook host.actions n) :
    ∃ x ∈ actionEntries host ctxs chain, x.hookOf = some n := by
  rcases hhook with h | h
  · exact ⟨.called (.action n), List.mem_flatMap.mpr ⟨.action n, mem_execActions.mpr ⟨n, hn, .inl ⟨rfl, h⟩⟩,
      called_mem_callEntries _⟩, rfl⟩
  · exact ⟨.called (.post n), List.mem_flatMap.mpr ⟨.post n, mem_execActions.mpr ⟨n, hn, .inr (.inr ⟨rfl, h⟩)⟩,
      called_mem_callEntries _⟩, rfl⟩

/-- Neither pass puts anything into the tree, and the second one runs no pre hook. -/
theorem actionEntries_late (hx : x ∈ actionEntries host ctxs chain) : x ≠ .scheduled n ∧ x ≠ .called (.pre n) := by
  rcases mem_actionEntries hx with ⟨c, hc, rfl⟩ | ⟨key, p, rfl⟩
  · obtain ⟨m, -, ⟨rfl, -⟩ | rfl | ⟨rfl, -⟩⟩ := mem_execActions.mp hc <;> exact ⟨nofun, nofun⟩
  · exact ⟨nofun, nofun⟩

/-- Only packets are sent. -/
def Sends (out : List Entry) : Prop := ∀ x ∈ out, ∃ key p, x = .sent key p

theorem Sends.late (h : Sends out) (hx : x ∈ out) : x.hookOf = none ∧ x ≠ .scheduled n ∧ x ≠ .called (.pre n) := by
  obtain ⟨key, p, rfl⟩ := h x hx
  exact ⟨rfl, nofun, nofun⟩

/-- What the two passes do to the log, with `sch` put into the tree between them. -/
theorem phased_exec_iff {log sch sent : List Entry} (hlog : ∀ n ∈ chain, .scheduled n ∈ log)
    (hsch : ∀ x, x ∈ sch ↔ ∃ n, x = .scheduled n ∧ n ∈ chain' ∧ n ∉ chain)
    (hsent : Sends sent) :
    Phased host.actions (log ++ (preEntries host chain ++ sch ++ (actionEntries host ctxs chain' ++ sent))) ↔
      Phased host.actions log ∧ ∀ n ∈ chain', n ∉ chain → Unprepared host.actions n := by
  have hlate : ∀ front back : List Entry, ∀ x n, actionEntries host ctxs chain' ++ sent = front ++ x :: back →
      (.scheduled n ∉ front ∧ .called (.pre n) ∉ front) ∧ x ∈ actionEntries host ctxs chain' ++ sent := by
    intro front back x n heq
    have hmem : ∀ y ∈ front, y ≠ .scheduled n ∧ y ≠ .called (.pre n) := by
      intro y hy
      have hy : y ∈ actionEntries host ctxs chain' ++ sent := by
        rw [heq]
        exact List.mem_append_left _ hy
      rcases List.mem_append.mp hy with hy | hy
      · exact actionEntries_late hy
      · exact (hsent.late hy).2
    refine ⟨⟨fun h => (hmem _ h).1 rfl, fun h => (hmem _ h).2 rfl⟩, ?_⟩
    rw [heq]
    exact List.mem_append_right _ List.mem_cons_self
  have hsilent : ∀ x ∈ preEntries host chain ++ sch, x.hookOf = none := by
    intro x hx
    rcases List.mem_append.mp hx with hx | hx
    · obtain ⟨n, -, -, rfl⟩ := mem_preEntries.mp hx
      rfl
    · obtain ⟨n, rfl, -⟩ := (hsch x).mp hx
      rfl
  rw [← List.append_assoc, Phased.append_iff, Phased.append_silent hsilent]
  refine and_congr_right fun _ => ?_
  constructor
  · intro h n hn hnew hpre hhook
    obtain ⟨x, hx, hxn⟩ : ∃ x ∈ actionEntries host ctxs chain', x.hookOf = some n := exists_hook_entry hn hhook
    obtain ⟨front, back, heq⟩ := List.append_of_mem (List.mem_append_left sent hx)
    have hready := h front x back n heq hxn hpre
    have hfront := (hlate front back x n heq).1
    rw [List.append_assoc, List.append_assoc, ← List.append_assoc log] at hready
    refine not_ready_of_late ?_ ?_ hready
    · exact List.mem_append_left _ ((hsch _).mpr ⟨n, rfl, hn, hnew⟩)
    · intro hmem
      rcases List.mem_append.mp hmem with hmem | hmem
      · obtain ⟨m, hm, -⟩ := (hsch _).mp hmem
        cases hm
      · exact hfront.2 hmem
  · intro h front x back n heq hxn hpre
    obtain ⟨hfront, hx⟩ := hlate front back x n heq
    have hrun : n ∈ chain' ∧ HasHook host.actions n := by
      rcases List.mem_append.mp hx with hx | hx
      · exact hookOf_actionEntries hx hxn
      · rw [(hsent.late (n := n) hx).1] at hxn
        cases hxn
    have hn : n ∈ chain := by
      by_contra hnew
      exact h n hrun.1 hnew hpre hrun.2
    rw [List.append_assoc]
    refine ready_of_pre (hlog n hn) ?_ ?_
    · exact List.mem_append_left _ (List.mem_append_left _ (mem_preEntries.mpr ⟨n, hn, hpre, rfl⟩))
    · intro hmem
      rcases List.mem_append.mp hmem with hmem | hmem
      · rcases List.mem_append.mp hmem with hmem | hmem
        · obtain ⟨m, -, -, hm⟩ := mem_preEntries.mp hmem
          cases hm
        · obtain ⟨m, hm, -, hnot⟩ := (hsch _).mp hmem
          cases hm
          exact hnot hn
      · exact hfront.1 hmem

end Passes

/-! ## Steps -/

section Steps
variable {host : Host} {s s' : System} {c : Ctx}

theorem flush_sends {n n' : Notifier} (h : flush host n = some (n', out)) : Sends out := by
  unfold flush at h
  split at h
  · cases h
    exact fun x hx => absurd hx List.not_mem_nil
  · simp only [Option.bind_eq_bind, Option.bind_eq_some_iff, Option.some.injEq, Prod.mk.injEq, Prod.exists] at h
    obtain ⟨n1, out1, h, -, rfl⟩ := h
    refine Run.run_keeps (P := fun y => Sends y.2) ?_ h fun x hx => absurd hx List.not_mem_nil
    rintro ⟨m, sent⟩ i ⟨m', sent'⟩ hstep hsent
    simp only [flushSlot] at hstep
    split at hstep
    · cases hstep
      exact hsent
    split at hstep
    · cases hstep
      exact hsent
    · simp only [Option.bind_eq_bind, Option.bind_eq_some_iff, Option.some.injEq, Prod.mk.injEq, Prod.exists] at hstep
      obtain ⟨key, -, queue, req, -, -, rfl⟩ := hstep
      intro x hx
      rcases List.mem_append.mp hx with hx | hx
      · exact hsent x hx
      · obtain ⟨r, -, rfl⟩ := List.mem_map.mp hx
        exact ⟨key, _, rfl⟩

theorem runActions_spec (h : runActions host s = some (s', out)) :
    s'.chain = [] ∧ ∃ sent, out = actionEntries host s.server.ctxs s.chain ++ sent ∧ Sends sent := by
  simp only [runActions, Option.bind_eq_bind, Option.bind_eq_some_iff, Option.some.injEq, Prod.mk.injEq, Prod.exists] at h
  obtain ⟨n, sent, hflush, rfl, rfl⟩ := h
  exact ⟨rfl, sent, rfl, flush_sends hflush⟩

theorem emit_spec (h : emit host s sigs = some (s', out)) : Scheduled host.actions sigs s.chain s'.chain out := by
  simp only [emit, Option.bind_eq_bind, Option.bind_eq_some_iff, Option.some.injEq, Prod.mk.injEq, Prod.exists] at h
  obtain ⟨chain, out1, hsched, rfl, rfl⟩ := h
  exact scheduleAll_spec hsched

theorem scheduled_nothing (table : ℕ → Option DmAction) (chain : List ExecNode) : Scheduled table [] chain chain [] :=
  scheduleAll_spec rfl

theorem releaseSlot_chain {key : ℕ} (h : releaseSlot host s key = some s') : s'.chain = s.chain := by
  unfold releaseSlot at h
  split at h
  · cases h
    rfl
  · simp only [Option.bind_eq_bind, Option.bind_eq_some_iff, Option.some.injEq, Prod.exists] at h
    obtain ⟨n, st, -, rfl⟩ := h
    rfl

theorem closeSession_spec (h : closeSession host s c = some (s', out)) :
    s'.chain = [] ∧ ∃ ctxs sent, out = preEntries host s.chain ++ [] ++ (actionEntries host ctxs s.chain ++ sent) ∧
      Sends sent := by
  simp only [closeSession, Option.bind_eq_bind, Option.bind_eq_some_iff, Option.some.injEq, Prod.mk.injEq,
    Prod.exists] at h
  obtain ⟨s1, hrel, server, -, s2, out2, hrun, rfl, rfl⟩ := h
  obtain ⟨hchain, sent, rfl, hsent⟩ := runActions_spec hrun
  have hsame := releaseSlot_chain hrel
  refine ⟨hchain, server.ctxs, sent, ?_, hsent⟩
  simp only [hsame, List.append_nil]

/-- The nodes that the items of a commit put into the tree after the pre hooks have run need no pre phase. -/
def Prepares (host : Host) (s : System) : SysEvent → Prop
  | .server (.commit key order) => ∀ c r cache, s.server.ctx key = some c → c.id = s.server.cfgSessionId →
      cacheValidate host.env s.server.store s.server.cache = some (r, cache) → r ≠ 0 →
      ∀ item ∈ order.filterMap (cacheFind cache), ∀ n ∈ selNodes host.actions item.elem.action item.sb .change,
        (∃ k ∈ s.chain, cmpAction k n = 0) ∨ Unprepared host.actions n
  | _ => True

/-- What a step adds to the log: what it puts into the tree, or a run of both passes over the tree. -/
inductive Outcome (host : Host) (s s' : System) (ev : SysEvent) : List Entry → Prop
  | waits (sigs : List Signal) (sch sent : List Entry) (hsched : Scheduled host.actions sigs s.chain s'.chain sch)
      (hsent : Sends sent) (hcond : Prepares host s ev) : Outcome host s s' ev (sch ++ sent)
  | runs (sigs sigs' : List Signal) (chain chain' : List ExecNode) (ctxs : List Ctx) (sch sch' sent : List Entry)
      (hfirst : Scheduled host.actions sigs s.chain chain sch) (hmid : Scheduled host.actions sigs' chain chain' sch')
      (hsent : Sends sent) (hend : s'.chain = [])
      (hcond : Prepares host s ev ↔ ∀ n ∈ chain', n ∉ chain → Unprepared host.actions n) :
      Outcome host s s' ev (sch ++ (preEntries host chain ++ sch' ++ (actionEntries host ctxs chain' ++ sent)))

theorem Outcome.silent {ev : SysEvent} {sent : List Entry} (hsent : Sends sent) (hcond : Prepares host s ev)
    (hchain : s'.chain = s.chain) : Outcome host s s' ev sent := by
  have h : Outcome host s s' ev ([] ++ sent) :=
    .waits [] [] sent (by rw [hchain]; exact scheduled_nothing _ _) hsent hcond
  exact h

theorem sends_nil : Sends [] := fun _ hx => absurd hx List.not_mem_nil

/-- Two passes over one tree. -/
theorem Outcome.closes {ev : SysEvent} {sch : List Entry} {s1 : System} (hcond : Prepares host s ev)
    (hfirst : Scheduled host.actions sigs s.chain s1.chain sch) (h : closeSession host s1 c = some (s', out)) :
    Outcome host s s' ev (sch ++ out) := by
  obtain ⟨hend, ctxs, sent, rfl, hsent⟩ := closeSession_spec h
  refine .runs sigs [] s1.chain s1.chain ctxs sch [] sent hfirst (scheduled_nothing _ _) hsent hend ?_
  exact ⟨fun _ n hn hnot => absurd hn hnot, fun _ => hcond⟩

theorem signalNodes_notifyAt (table : ℕ → Option DmAction) (st : DmStore) (slot : ℤ) (sel : Selector) (l : Loc)
    (type : NotifyType) : (notifyAt st slot sel l type).flatMap (signalNodes table) = [] := by
  unfold notifyAt
  cases st.value l <;> rfl

theorem signalNodes_derived (table : ℕ → Option DmAction) (st : DmStore) (e : DmElement) (a : Addr) (val : DmValue) :
    (derivedSignals st e a val).flatMap (signalNodes table) = [] := by
  unfold derivedSignals
  cases derivedField e val with
  | none => rfl
  | some id => exact signalNodes_notifyAt ..

/-- A round of `cache_apply` calls `action_sel` once, for its item. -/
theorem applyItem_nodes {env : Env} {slot : ℤ} {st st' : DmStore} {item : CacheItem}
    (h : applyItem env slot st item = some (st', sigs)) :
    sigs.flatMap (signalNodes table) = selNodes table item.elem.action item.sb .change := by
  unfold applyItem at h
  cases hbase : item.base with
  | object b i =>
    rw [hbase] at h
    cases h
  | table a =>
    rw [hbase] at h
    simp only [assign, Option.bind_eq_bind, Option.bind_eq_some_iff, Option.some.injEq, Prod.mk.injEq,
      Prod.exists] at h
    obtain ⟨r, st1, sigs1, ⟨r1, st1', -, -, rfl⟩, v, -, st2, -, st3, -, -, rfl⟩ := h
    rw [List.flatMap_append, List.flatMap_append, signalNodes_derived, signalNodes_notifyAt]
    exact List.append_nil _

theorem cacheApply_nodes {env : Env} {slot : ℤ} {st st' : DmStore} (items : List CacheItem)
    (h : cacheApply env slot st items = some (st', sigs)) : sigs.flatMap (signalNodes table) =
      items.flatMap fun item => selNodes table item.elem.action item.sb .change := by
  induction items generalizing st st' sigs with
  | nil =>
    cases h
    rfl
  | cons item items ih =>
    simp only [cacheApply, Option.bind_eq_bind, Option.bind_eq_some_iff, Option.some.injEq, Prod.mk.injEq,
      Prod.exists] at h
    obtain ⟨st1, sigs1, h1, st2, sigs2, h2, -, rfl⟩ := h
    rw [List.flatMap_append, applyItem_nodes h1, ih h2, List.flatMap_cons]

theorem hasPre_congr {k n : ExecNode} (h : k.action = n.action) : Unprepared table k ↔ Unprepared table n := by
  unfold Unprepared HasPre HasHook
  rw [h]

/-- The condition of a commit in terms of what comes into the tree. -/
theorem Scheduled.unprepared_iff (h : Scheduled table sigs chain chain' out) (hord : Keyed.Ordered cmpAction chain) :
    (∀ n ∈ chain', n ∉ chain → Unprepared table n) ↔ ∀ n ∈ sigs.flatMap (signalNodes table),
      (∃ k ∈ chain, cmpAction k n = 0) ∨ Unprepared table n := by
  constructor
  · intro hall n hn
    obtain ⟨k, hk, hnk⟩ := Keyed.exists_insertAll cmpAction_comparison chain hn
    rw [← h.chain_eq] at hk
    have hkn := cmpAction_comparison.eq_symm n k trivial trivial hnk
    by_cases hmem : k ∈ chain
    · exact .inl ⟨k, hmem, hkn⟩
    · exact .inr ((hasPre_congr (cmpAction_eq hkn)).mp (hall k hk hmem))
  · intro hall n hn hnot
    obtain ⟨hsig, hfresh⟩ := h.fresh hord hn hnot
    rcases hall n hsig with ⟨k, hk, heq⟩ | hu
    · exact absurd heq (hfresh k hk)
    · exact hu

theorem commitChanges_outcome {key : ℕ} {order : List Selector} (hord : Keyed.Ordered cmpAction s.chain)
    (hc : s.server.ctx key = some c) (h : commitChanges host s c order = some (s', out)) :
    Outcome host s s' (.server (.commit key order)) out := by
  unfold commitChanges at h
  split at h
  · rename_i hid
    cases h
    refine Outcome.silent sends_nil ?_ rfl
    intro c' r cache hc' hid'
    rw [hc] at hc'
    cases hc'
    exact absurd hid' hid
  · rename_i hid
    simp only [Option.bind_eq_bind, Option.bind_eq_some_iff, Prod.exists] at h
    obtain ⟨r, cache, hval, h⟩ := h
    split at h
    · rename_i hr
      cases h
      refine Outcome.silent sends_nil ?_ rfl
      intro c' r' cache' _ _ hval' hr'
      rw [hval] at hval'
      cases hval'
      exact absurd hr hr'
    · rename_i hr
      split at h
      · simp only [Option.bind_eq_some_iff, Option.some.injEq, Prod.mk.injEq, Prod.exists] at h
        obtain ⟨st, sigs, happ, s1, sch, hemit, s2, out2, hrun, rfl, rfl⟩ := h
        have hsched := emit_spec hemit
        obtain ⟨hend, sent, rfl, hsent⟩ := runActions_spec hrun
        have hout : Outcome host s s2 (.server (.commit key order))
            ([] ++ (preEntries host s.chain ++ sch ++ (actionEntries host s1.server.ctxs s1.chain ++ sent))) := by
          refine .runs [] sigs s.chain s1.chain s1.server.ctxs [] sch sent (scheduled_nothing _ _) hsched hsent hend ?_
          rw [hsched.unprepared_iff hord, cacheApply_nodes _ happ]
          simp only [List.mem_flatMap]
          constructor
          · rintro hprep n ⟨item, hitem, hn⟩
            exact hprep c r cache hc (by simpa using hid) hval hr item hitem n hn
          · intro hall c' r' cache' hc' _ hval' _ item hitem n hn
            rw [hval] at hval'
            cases hval'
            exact hall n ⟨item, hitem, hn⟩
        exact hout
      · cases h

theorem setValues_outcome {key : ℕ} {values : List (Selector × Avp)} (h : setValues host s c values = some (s', out)) :
    Outcome host s s' (.server (.set key values)) out := by
  simp only [setValues, Option.bind_eq_bind, Option.bind_eq_some_iff, Prod.exists] at h
  obtain ⟨rc, st, cache, sigs, -, s1, sch, hemit, h⟩ := h
  have hsched := emit_spec hemit
  split at h
  · simp only [Option.bind_eq_some_iff, Option.some.injEq, Prod.mk.injEq, Prod.exists] at h
    obtain ⟨s2, out2, hclose, rfl, rfl⟩ := h
    have hcond : Prepares host s (.server (.set key values)) := trivial
    exact Outcome.closes hcond hsched hclose
  · cases h
    have hout : Outcome host s s' (.server (.set key values)) (out ++ []) :=
      .waits sigs out [] hsched sends_nil trivial
    rwa [List.append_nil] at hout

/-- One step. -/
theorem sysStep_outcome {ev : SysEvent} (hord : Keyed.Ordered cmpAction s.chain)
    (h : sysStep host s ev = some (s', out)) : Outcome host s s' ev out := by
  cases ev with
  | server ev =>
    have hemits : ∀ {server sigs}, emit host { s with server := server } sigs = some (s', out) →
        Prepares host s (.server ev) → Outcome host s s' (.server ev) out := by
      intro server sigs hemit hcond
      have hsched := emit_spec hemit
      have hout : Outcome host s s' (.server ev) (out ++ []) := .waits sigs out [] hsched sends_nil hcond
      rwa [List.append_nil] at hout
    have hother : (∃ server, s' = { s with server := server } ∧ out = []) → Prepares host s (.server ev) →
        Outcome host s s' (.server ev) out := by
      rintro ⟨server, rfl, rfl⟩ hcond
      exact Outcome.silent sends_nil hcond rfl
    cases ev with
    | set key values =>
      obtain ⟨c, -, h⟩ := Option.bind_eq_some_iff.mp h
      exact setValues_outcome h
    | addInstance key sel id =>
      simp only [sysStep, serverStep, Option.bind_eq_bind, Option.bind_eq_some_iff, Prod.exists] at h
      obtain ⟨c, -, r, st, sigs, -, h⟩ := h
      exact hemits h trivial
    | delInstance key sel =>
      simp only [sysStep, serverStep, Option.bind_eq_bind, Option.bind_eq_some_iff, Prod.exists] at h
      obtain ⟨c, -, r, st, sigs, -, h⟩ := h
      exact hemits h trivial
    | commit key order =>
      obtain ⟨c, hc, h⟩ := Option.bind_eq_some_iff.mp h
      exact commitChanges_outcome hord hc h
    | endSession key =>
      obtain ⟨c, -, h⟩ := Option.bind_eq_some_iff.mp h
      have hcond : Prepares host s (.server (.endSession key)) := trivial
      have hout : Outcome host s s' (.server (.endSession key)) ([] ++ out) :=
        Outcome.closes hcond (scheduled_nothing _ _) h
      exact hout
    | accept =>
      simp only [sysStep, serverStep, Option.bind_eq_bind, Option.bind_eq_some_iff, Option.some.injEq, Prod.mk.injEq,
        Prod.exists] at h
      obtain ⟨rc, server, -, rfl, rfl⟩ := h
      exact Outcome.silent sends_nil trivial rfl
    | _ =>
      simp only [sysStep, serverStep, Option.bind_eq_bind, Option.bind_eq_some_iff, Option.some.injEq, Prod.mk.injEq,
        Prod.exists] at h
      obtain ⟨rc, server, -, rfl, rfl⟩ := h
      exact hother ⟨server, rfl, rfl⟩ trivial
  | subscribe key =>
    simp only [sysStep, Option.bind_eq_bind, Option.bind_eq_some_iff, Option.some.injEq, Prod.mk.injEq] at h
    obtain ⟨c, -, s1, hsub, rfl, rfl⟩ := h
    refine Outcome.silent sends_nil trivial ?_
    unfold subscribe at hsub
    split at hsub
    · cases hsub
      rfl
    · simp only [Option.bind_eq_bind, Option.bind_eq_some_iff, Option.some.injEq, Prod.exists] at hsub
      obtain ⟨slot, n, -, rfl⟩ := hsub
      rfl
  | unsubscribe key =>
    simp only [sysStep, Option.bind_eq_bind, Option.bind_eq_some_iff, Option.some.injEq, Prod.mk.injEq] at h
    obtain ⟨c, -, s1, hrel, rfl, rfl⟩ := h
    exact Outcome.silent sends_nil trivial (releaseSlot_chain hrel)
  | param key notify path =>
    simp only [sysStep, Option.bind_eq_bind, Option.bind_eq_some_iff, Option.some.injEq, Prod.mk.injEq, Prod.exists] at h
    obtain ⟨c, -, slot, -, rc, st, -, rfl, rfl⟩ := h
    exact Outcome.silent sends_nil trivial rfl
  | recursive key notify path =>
    simp only [sysStep, Option.bind_eq_bind, Option.bind_eq_some_iff, Option.some.injEq, Prod.mk.injEq, Prod.exists] at h
    obtain ⟨c, -, slot, -, rc, st, -, rfl, rfl⟩ := h
    exact Outcome.silent sends_nil trivial rfl
  | passive key answer =>
    simp only [sysStep, Option.bind_eq_bind, Option.bind_eq_some_iff] at h
    obtain ⟨c, -, slot, -, h⟩ := h
    split at h
    · cases h
      exact Outcome.silent sends_nil trivial rfl
    · simp only [Option.bind_eq_some_iff, Option.some.injEq, Prod.mk.injEq, Prod.exists] at h
      obtain ⟨rc, n, ans, -, rfl, rfl⟩ := h
      exact Outcome.silent sends_nil trivial rfl
  | prepare =>
    simp only [sysStep] at h
    split at h
    · simp only [Option.bind_eq_bind, Option.bind_eq_some_iff, Option.some.injEq, Prod.mk.injEq, Prod.exists] at h
      obtain ⟨n, sent, hflush, rfl, rfl⟩ := h
      exact Outcome.silent (flush_sends hflush) trivial rfl
    · cases h
      exact Outcome.silent sends_nil trivial rfl

/-! ## Runs -/

/-- The tree is ordered, and the log has what was put into it. -/
structure LogInv (x : System × List Entry) : Prop where
  ordered : Keyed.Ordered cmpAction x.1.chain
  noted : ∀ n ∈ x.1.chain, .scheduled n ∈ x.2

theorem logStep_outcome {log : List Entry} {ev : SysEvent} {x : System × List Entry} (hinv : LogInv (s, log))
    (h : logStep host (s, log) ev = some x) : ∃ out, x.2 = log ++ out ∧ Outcome host s x.1 ev out := by
  simp only [logStep, Option.bind_eq_bind, Option.bind_eq_some_iff, Option.some.injEq, Prod.exists] at h
  obtain ⟨s', out, hstep, rfl⟩ := h
  exact ⟨out, rfl, sysStep_outcome hinv.ordered hstep⟩

theorem Scheduled.noted_all (h : Scheduled table sigs chain chain' out) {log : List Entry}
    (hlog : ∀ n ∈ chain, .scheduled n ∈ log) : ∀ n ∈ chain', .scheduled n ∈ log ++ out := by
  intro n hn
  by_cases hold : n ∈ chain
  · exact List.mem_append_left _ (hlog n hold)
  · exact List.mem_append_right _ ((h.noted _).mpr ⟨n, rfl, hn, hold⟩)

theorem LogInv.step {x x' : System × List Entry} {ev : SysEvent} (h : logStep host x ev = some x') (hinv : LogInv x) :
    LogInv x' := by
  obtain ⟨s, log⟩ := x
  obtain ⟨s', log'⟩ := x'
  obtain ⟨out, hlog, hout⟩ := logStep_outcome hinv h
  have hlog : log' = log ++ out := hlog
  subst hlog
  cases hout with
  | waits sigs sch sent hsched hsent hcond =>
    constructor
    · rw [hsched.chain_eq]
      exact hinv.ordered.insertAll cmpAction_comparison _
    · intro n hn
      have hn := hsched.noted_all hinv.noted n hn
      show _ ∈ log ++ (sch ++ sent)
      rw [← List.append_assoc]
      exact List.mem_append_left _ hn
  | runs sigs sigs' chain chain' ctxs sch sch' sent hfirst hmid hsent hend hcond =>
    have hend : s'.chain = [] := hend
    constructor
    · rw [hend]
      exact List.Pairwise.nil
    · intro n hn
      rw [hend] at hn
      cases hn

theorem Phased.step_iff {x x' : System × List Entry} {ev : SysEvent} (h : logStep host x ev = some x')
    (hinv : LogInv x) (hp : Phased host.actions x.2) : Phased host.actions x'.2 ↔ Prepares host x.1 ev := by
  obtain ⟨s, log⟩ := x
  obtain ⟨s', log'⟩ := x'
  obtain ⟨out, hlog, hout⟩ := logStep_outcome hinv h
  have hlog : log' = log ++ out := hlog
  subst hlog
  have hsch : ∀ {sigs chain chain' sch}, Scheduled host.actions sigs chain chain' sch →
      ∀ x ∈ sch, x.hookOf = none := by
    intro sigs chain chain' sch hsched x hx
    obtain ⟨n, rfl, -⟩ := (hsched.noted x).mp hx
    rfl
  cases hout with
  | waits sigs sch sent hsched hsent hcond =>
    refine iff_of_true ?_ hcond
    refine (Phased.append_silent ?_).mpr hp
    intro x hx
    rcases List.mem_append.mp hx with hx | hx
    · exact hsch hsched x hx
    · obtain ⟨key, p, rfl⟩ := hsent x hx
      rfl
  | runs sigs sigs' chain chain' ctxs sch sch' sent hfirst hmid hsent hend hcond =>
    show Phased host.actions (log ++ _) ↔ _
    have hold : Phased host.actions (log ++ sch) := (Phased.append_silent (hsch hfirst)).mpr hp
    rw [← List.append_assoc, phased_exec_iff (hfirst.noted_all hinv.noted) hmid.noted hsent,
      hcond]
    exact and_iff_right hold

/-- In every run every node whose action or post hook runs has had its pre hook since it was scheduled, exactly
when the commits put nothing into the tree that needs one. -/
theorem phases_complete_iff (host : Host) (s0 : System) (h0 : System.init host = some s0) (evs : List SysEvent) :
    Run.Always (logStep host) (s0, []) (fun x => Phased host.actions x.2) evs ↔
      Run.Each (logStep host) (s0, []) (fun x ev => Prepares host x.1 ev) evs := by
  have hchain : s0.chain = [] := by
    simp only [System.init, Option.bind_eq_bind, Option.bind_eq_some_iff, Option.some.injEq] at h0
    obtain ⟨server, -, rfl⟩ := h0
    rfl
  have hinit : LogInv (s0, []) := by
    constructor
    · show Keyed.Ordered cmpAction s0.chain
      rw [hchain]
      exact List.Pairwise.nil
    · intro n hn
      have hn : n ∈ s0.chain := hn
      rw [hchain] at hn
      cases hn
  have hinv : ∀ x ev x', logStep host x ev = some x' → LogInv x → LogInv x' := fun _ _ _ hstep => LogInv.step hstep
  refine Run.always_iff_each hinit hinv ?_ fun _ _ _ hstep hinv hp => Phased.step_iff hstep hinv hp
  intro front x back n hlog
  exact absurd hlog.symm (List.append_ne_nil_of_right_ne_nil front (List.cons_ne_nil x back))

end Steps

/-! ## A small server -/

/-- A number with an action. -/
def sampleActionTable : ℕ → DmTable
  | 0 => ⟨[{ sampleLeaf .uint with key := [118], action := 1 }], []⟩
  | _ => ⟨[], []⟩

theorem sampleActionTable_leaf (k : ℕ) : ∀ e ∈ (sampleActionTable k).elems, e.container = false ∧ e.set = none := by
  match k with
  | 0 => decide
  | k + 1 => exact fun e he => absurd he List.not_mem_nil

def sampleActionSchema : Schema where
  table := sampleActionTable
  root := 0
  child_lt := fun k e he hc => absurd hc (by rw [(sampleActionTable_leaf k e he).1]; decide)
  index_head := by
    intro k e he ho
    have hc := (sampleActionTable_leaf k e he).1
    simp [DmElement.container, ho] at hc
  set_fits := by
    intro k e he
    rw [DmElement.setFits, (sampleActionTable_leaf k e he).2]
  array_leaf := by
    intro k e he ho
    have hc := (sampleActionTable_leaf k e he).1
    simp [DmElement.container, ho] at hc
  get_leaf := fun k e he _ => (sampleActionTable_leaf k e he).1

/-- The action has a pre hook and an action hook. -/
def sampleHost : Host where
  env := { sampleEnv with schema := sampleActionSchema }
  actions := fun a => if a = 1 then some ⟨-1, true, true, false, []⟩ else none
  talloc := sampleTalloc
  events := ⟨sampleActionSchema, id, fun _ _ => .nil, nil_depth_le⟩
  schema_eq := rfl

/-- A client sets the number in a configure session and commits it. -/
def sampleCommit : List SysEvent :=
  [.server .accept, .server (.startSession 1 1), .server (.set 1 [([1], sampleAvp 3)]), .server (.commit 1 [[1]])]

/-- A client sets the number without a configure session and leaves. -/
def sampleLeave : List SysEvent :=
  [.server .accept, .server (.startSession 1 0), .server (.set 1 [([1], sampleAvp 3)]), .server (.endSession 1)]

theorem phases_complete_sample : ∃ s0, System.init sampleHost = some s0 ∧
    (Run.Always (logStep sampleHost) (s0, []) (fun x => Phased sampleHost.actions x.2) sampleLeave ↔
      Run.Each (logStep sampleHost) (s0, []) (fun x ev => Prepares sampleHost x.1 ev) sampleLeave) := by
  obtain ⟨s0, h0⟩ : ∃ s0, System.init sampleHost = some s0 := ⟨_, rfl⟩
  exact ⟨s0, h0, phases_complete_iff sampleHost s0 h0 sampleLeave⟩

/-- Whether an entry is a call. -/
def Entry.isCalled (c : Action.Call) : Entry → Bool
  | .called d => c = d
  | _ => false

theorem Entry.isCalled_iff {c : Action.Call} {x : Entry} : x.isCalled c = true ↔ x = .called c := by
  cases x with
  | called d => simp [Entry.isCalled, eq_comm]
  | _ => simp [Entry.isCalled]

theorem not_phased_of_called {n : ExecNode} {log : List Entry} (hpre : HasPre table n)
    (hrun : log.any (Entry.isCalled (.action n)) = true) (hno : log.any (Entry.isCalled (.pre n)) = false) :
    ¬Phased table log := by
  intro h
  obtain ⟨x, hx, hcall⟩ := List.any_eq_true.mp hrun
  have hx' := Entry.isCalled_iff.mp hcall
  obtain ⟨front, back, heq⟩ := List.append_of_mem hx
  obtain ⟨a, b, hfront, -, hb⟩ := h front x back n heq (by rw [hx']; rfl) hpre
  have hmem : .called (.pre n) ∈ log := by
    rw [heq, hfront]
    exact List.mem_append_left _ (List.mem_append_right _ (List.mem_cons_of_mem _ hb))
  have htrue := List.any_eq_true.mpr ⟨_, hmem, Entry.isCalled_iff.mpr rfl⟩
  rw [hno] at htrue
  cases htrue

/-- The action of the committed number runs without its pre hook. -/
theorem commit_without_pre : ∃ s0 x, System.init sampleHost = some s0 ∧
    Run.run (logStep sampleHost) (s0, []) sampleCommit = some x ∧ ¬Phased sampleHost.actions x.2 := by
  obtain ⟨s0, h0⟩ : ∃ s0, System.init sampleHost = some s0 := ⟨_, rfl⟩
  have hrun : (Run.run (logStep sampleHost) (s0, []) sampleCommit).map (fun x =>
      (x.2.any (Entry.isCalled (.action ⟨1, [1], .change⟩)), x.2.any (Entry.isCalled (.pre ⟨1, [1], .change⟩)))) =
      some (true, false) := by
    cases h0
    decide +kernel
  obtain ⟨x, hx, hcalls⟩ := Option.map_eq_some_iff.mp hrun
  obtain ⟨hact, hpre⟩ := Prod.mk.inj hcalls
  have hhas : HasPre sampleHost.actions ⟨1, [1], .change⟩ := by
    unfold HasPre
    decide
  exact ⟨s0, x, h0, hx, not_phased_of_called hhas hact hpre⟩

end Mand.Signal
