import Mand.Action.Reach

/-! # The life of a schedule

`exec_chain` is allocated by the first call of `action_sel` and freed at the end of `exec_actions`. In between it
holds a node for each action, selector and type. -/
namespace Mand.Action
open Mand.Store Mand.Index
set_option autoImplicit false

/-- `exec_chain`; NULL until something is scheduled. -/
abbrev Schedule := Option (List ExecNode)

/-- `action_sel`, with the allocation of the tree. -/
def Schedule.actionSel (table : ℕ → Option DmAction) (s : Schedule) (t : Trigger) : Option Schedule :=
  if t.action = 0 then some s
  else (Action.actionSel table (s.getD []) t.action t.sel t.type).map some

/-- `clear_actions`. -/
def clearActions (_ : Schedule) : Schedule := none

/-- `exec_actions`, with what is left of the schedule. -/
def Schedule.execActions (table : ℕ → Option DmAction) (s : Schedule) : List Call × Schedule :=
  match s with
  | none => ([], none)
  | some chain => (Action.execActions table chain, clearActions s)

/-- The actions in the chains are in the table; `sel_len` is an index of a selector. -/
structure Closed (table : ℕ → Option DmAction) : Prop where
  chain : ∀ a act, table a = some act → ∀ b ∈ act.chain, (table b).isSome = true
  fits : ∀ a act, table a = some act → act.selLen < dmSelectorLen

/-- A node with the ids of its selector only. -/
def ExecNode.ids (n : ExecNode) : ExecNode := ⟨n.action, selIds n.sel, n.type⟩

/-- The call inserts this action, directly or through an entry of its chain. -/
def Inserts (table : ℕ → Option DmAction) (t : Trigger) (n : ExecNode) : Prop :=
  t.action ≠ 0 ∧ ∃ act, table t.action = some act ∧ (n.action = t.action ∨ n.action ∈ act.chain) ∧
    ∃ b, table n.action = some b ∧ n.sel = selIds (truncate b.selLen t.sel) ∧ n.type = t.type

/-- The nodes whose functions are called, in the order of the calls. -/
def actionNodes (calls : List Call) : List ExecNode :=
  calls.filterMap fun c => match c with
    | .action n => some n
    | _ => none

def postNodes (calls : List Call) : List ExecNode :=
  calls.filterMap fun c => match c with
    | .post n => some n
    | _ => none

/-! ## What is in the schedule -/

theorem cmpAction_eq_zero (m n : ExecNode) : cmpAction m n = 0 ↔ m.ids = n.ids := by
  have hsel : dmSelcmp m.sel n.sel dmSelectorLen = 0 ↔ selIds m.sel = selIds n.sel := dmSelcmp_eq_zero _ _ _
  have htype : intcmp m.type.code n.type.code = 0 ↔ m.type = n.type := by
    cases m.type <;> cases n.type <;> decide
  unfold cmpAction ExecNode.ids
  simp only [ExecNode.mk.injEq]
  split_ifs with h1 h2 h3
  · exact ⟨fun h => absurd h (by decide), fun h => absurd h.1 (Nat.ne_of_lt h1)⟩
  · exact ⟨fun h => absurd h (by decide), fun h => absurd h.1 (Nat.ne_of_gt h2)⟩
  · rw [htype]
    exact ⟨fun h => ⟨by omega, hsel.mp h3, h⟩, fun h => h.2.2⟩
  · exact ⟨fun h => absurd h h3, fun h => absurd (hsel.mpr h.2.1) h3⟩

section Chain
variable {table : ℕ → Option DmAction}

/-- The node of an action in the table. -/
def nodeOf (table : ℕ → Option DmAction) (t : Trigger) (b : ℕ) : Option ExecNode :=
  (table b).map fun act => ⟨b, truncate act.selLen t.sel, t.type⟩

/-- The nodes that a call inserts. -/
def entries (table : ℕ → Option DmAction) (t : Trigger) : List ExecNode :=
  if t.action = 0 then []
  else ((t.action :: ((table t.action).map DmAction.chain).getD [])).filterMap (nodeOf table t)

theorem insertAction_nodeOf {t : Trigger} {b : ℕ} {n : ExecNode} (h : nodeOf table t b = some n)
    (chain : List ExecNode) : insertAction table chain b t.sel t.type = some (insertNode n chain) := by
  obtain ⟨act, hact, rfl⟩ := Option.map_eq_some_iff.mp h
  simp only [insertAction, hact, Option.bind_eq_bind, Option.bind_some]

theorem insertAction_all {t : Trigger} {bs : List ℕ} (hbs : ∀ b ∈ bs, (table b).isSome = true) (chain : List ExecNode) :
    bs.foldlM (fun chain b => insertAction table chain b t.sel t.type) chain =
      some (Keyed.insertAll cmpAction (bs.filterMap (nodeOf table t)) chain) := by
  induction bs generalizing chain with
  | nil => rfl
  | cons b bs ih =>
    obtain ⟨act, hact⟩ := Option.isSome_iff_exists.mp (hbs b List.mem_cons_self)
    have hn : nodeOf table t b = some ⟨b, truncate act.selLen t.sel, t.type⟩ := by
      unfold nodeOf
      rw [hact]
      rfl
    rw [List.foldlM_cons, insertAction_nodeOf hn, List.filterMap_cons_some hn]
    exact ih (fun b hb => hbs b (List.mem_cons_of_mem _ hb)) _

theorem Schedule.actionSel_entries (hT : Closed table) (s : Schedule) (t : Trigger)
    (ht : t.action = 0 ∨ (table t.action).isSome = true) :
    ∃ s', s.actionSel table t = some s' ∧ s'.getD [] = Keyed.insertAll cmpAction (entries table t) (s.getD []) := by
  unfold Schedule.actionSel entries
  by_cases h0 : t.action = 0
  · rw [if_pos h0, if_pos h0]
    exact ⟨s, rfl, rfl⟩
  obtain ⟨act, hact⟩ := Option.isSome_iff_exists.mp (ht.resolve_left h0)
  have hall : ∀ b ∈ t.action :: act.chain, (table b).isSome = true := by
    intro b hb
    rcases List.mem_cons.mp hb with rfl | hb
    · rw [hact]
      rfl
    · exact hT.chain t.action act hact b hb
  have hfold := insertAction_all (t := t) hall (s.getD [])
  rw [List.foldlM_cons] at hfold
  obtain ⟨chain, hchain, hrest⟩ := Option.bind_eq_some_iff.mp hfold
  rw [if_neg h0, if_neg h0]
  refine ⟨some (Keyed.insertAll cmpAction ((t.action :: act.chain).filterMap (nodeOf table t)) (s.getD [])), ?_, ?_⟩
  · simp only [Action.actionSel, if_neg h0, hchain, hact, Option.bind_eq_bind, Option.bind_some]
    exact congrArg (Option.map some) hrest
  · rw [hact]
    rfl

/-- A sequence of calls. -/
theorem schedule_run (hT : Closed table) (ts : List Trigger)
    (hts : ∀ t ∈ ts, t.action = 0 ∨ (table t.action).isSome = true) (s : Schedule) :
    ∃ s', Run.run (Schedule.actionSel table) s ts = some s' ∧
      s'.getD [] = Keyed.insertAll cmpAction (ts.flatMap (entries table)) (s.getD []) := by
  induction ts generalizing s with
  | nil => exact ⟨s, rfl, rfl⟩
  | cons t ts ih =>
    obtain ⟨s1, h1, heq1⟩ := s.actionSel_entries hT t (hts t List.mem_cons_self)
    obtain ⟨s2, h2, heq2⟩ := ih (fun t ht => hts t (List.mem_cons_of_mem _ ht)) s1
    refine ⟨s2, ?_, ?_⟩
    · simp only [Run.run, List.foldlM_cons, h1]
      exact h2
    · rw [heq2, heq1, List.flatMap_cons]
      exact (List.foldl_append).symm

theorem mem_entries (hT : Closed table) (t : Trigger) (n : ExecNode) :
    n ∈ (entries table t).map ExecNode.ids ↔ Inserts table t n := by
  unfold entries Inserts
  by_cases h0 : t.action = 0
  · simp [h0]
  rw [if_neg h0, List.mem_map]
  constructor
  · rintro ⟨m, hm, rfl⟩
    obtain ⟨b, hb, hn⟩ := List.mem_filterMap.mp hm
    obtain ⟨act, hact, rfl⟩ := Option.map_eq_some_iff.mp hn
    refine ⟨h0, ?_⟩
    cases ht : table t.action with
    | none =>
      rw [ht] at hb
      rw [List.mem_singleton.mp hb, ht] at hact
      cases hact
    | some top =>
      rw [ht] at hb
      exact ⟨top, rfl, List.mem_cons.mp hb, act, hact, rfl, rfl⟩
  · rintro ⟨-, top, ht, hb, act, hact, hsel, htype⟩
    refine ⟨⟨n.action, truncate act.selLen t.sel, t.type⟩, ?_, ?_⟩
    · rw [List.mem_filterMap, ht]
      refine ⟨n.action, List.mem_cons.mpr hb, ?_⟩
      unfold nodeOf
      rw [hact]
      rfl
    · unfold ExecNode.ids
      simp only [← hsel, ← htype]

/-- Each kind of node is there once. -/
theorem ids_nodup {chain : List ExecNode} (h : Keyed.Ordered cmpAction chain) : (chain.map ExecNode.ids).Nodup := by
  refine List.pairwise_map.mpr (h.imp ?_)
  intro m n hlt heq
  have := (cmpAction_eq_zero m n).mpr heq
  omega

theorem mem_insertAll_ids (ns : List ExecNode) (n : ExecNode) :
    n ∈ (Keyed.insertAll cmpAction ns []).map ExecNode.ids ↔ n ∈ ns.map ExecNode.ids := by
  simp only [List.mem_map]
  constructor
  · rintro ⟨m, hm, rfl⟩
    exact ⟨m, (Keyed.mem_of_insertAll hm).resolve_right List.not_mem_nil, rfl⟩
  · rintro ⟨m, hm, rfl⟩
    obtain ⟨k, hk, hc⟩ := Keyed.exists_insertAll cmpAction_comparison [] hm
    exact ⟨k, hk, ((cmpAction_eq_zero m k).mp hc).symm⟩

end Chain

/-! ## What is called -/

section Calls
variable (table : ℕ → Option DmAction)

/-- The action has a function for the phase. -/
def hasHook (get : DmAction → Bool) (n : ExecNode) : Bool := (table n.action).any get

theorem execActions_split (chain : List ExecNode) : ∃ first last, execActions table chain = first ++ last ∧
    actionNodes first = chain.filter (hasHook table DmAction.action) ∧ postNodes first = [] ∧
    actionNodes last = [] ∧ postNodes last = chain.filter (hasHook table DmAction.post) := by
  refine ⟨_, _, rfl, ?_, ?_, ?_, ?_⟩ <;> induction chain with
  | nil => rfl
  | cons n chain ih =>
    rw [List.flatMap_cons]
    simp only [actionNodes, postNodes, List.filterMap_append] at ih ⊢
    rw [ih]
    by_cases h : (table n.action).any DmAction.action = true <;>
      by_cases h' : (table n.action).any DmAction.post = true <;> simp [hook, hasHook, h, h']

theorem Schedule.execActions_eq (s : Schedule) : s.execActions table = (Action.execActions table (s.getD []), none) := by
  cases s <;> rfl

end Calls

/-- Each action, cut selector and type that was inserted runs once, in the order of the actions. -/
theorem schedule_runs_once (table : ℕ → Option DmAction) (hT : Closed table) (ts : List Trigger)
    (hts : ∀ t ∈ ts, t.action = 0 ∨ (table t.action).isSome = true) :
    ∃ s, Run.run (Schedule.actionSel table) none ts = some s ∧ (s.execActions table).2 = none ∧
      ∃ nodes : List ExecNode, nodes.Nodup ∧ (∀ n, n ∈ nodes ↔ ∃ t ∈ ts, Inserts table t n) ∧
        nodes.Pairwise (fun m n => m.action ≤ n.action) ∧
        ∃ first last, (s.execActions table).1 = first ++ last ∧
          (actionNodes first).map ExecNode.ids = nodes.filter (hasHook table DmAction.action) ∧ postNodes first = [] ∧
          (postNodes last).map ExecNode.ids = nodes.filter (hasHook table DmAction.post) ∧ actionNodes last = [] := by
  obtain ⟨s, hrun, hs⟩ := schedule_run hT ts hts none
  generalize hchain : s.getD [] = chain at hs
  have hord : Keyed.Ordered cmpAction chain := by
    rw [hs]
    exact Keyed.Ordered.insertAll cmpAction_comparison List.Pairwise.nil _
  have hfilter : ∀ get, (chain.filter (hasHook table get)).map ExecNode.ids =
      (chain.map ExecNode.ids).filter (hasHook table get) := by
    intro get
    rw [List.filter_map]
    rfl
  obtain ⟨first, last, hcalls, hact, hnopost, hnoact, hpost⟩ := execActions_split table chain
  have hexec : s.execActions table = (execActions table chain, none) := by rw [Schedule.execActions_eq, hchain]
  refine ⟨s, hrun, by rw [hexec], chain.map ExecNode.ids, ids_nodup hord, ?_, ?_, first, last, by rw [hexec, hcalls], ?_, hnopost,
    ?_, hnoact⟩
  · intro n
    rw [hs]
    refine (mem_insertAll_ids _ n).trans ?_
    rw [List.map_flatMap, List.mem_flatMap]
    exact exists_congr fun t => and_congr_right fun _ => mem_entries hT t n
  · exact List.pairwise_map.mpr (hord.imp cmpAction_lt)
  · rw [hact, hfilter]
  · rw [hpost, hfilter]

/-! ## Generated tables -/

section Generated
variable {T : ActionTable} {keys : List String}

theorem generateActionTable_field {a : ℕ} {act : DmAction} (h : generateActionTable T keys a = some act) :
    ∃ x ∈ T.actions, T.enumOf x.name = a := by
  by_contra hno
  simp only [not_exists, not_and] at hno
  -- no step of the loop reaches the entry
  have hfold : ∀ (l : List ActionField) (table : ℕ → Option DmAction), (∀ x ∈ l, x ∈ T.actions) → table a = none →
      l.foldl (fun table x => Function.update table (T.enumOf x.name) (some ⟨x.selLen, x.pre, x.action, x.post,
        (makeChains keys T.chains x.name).map T.enumOf⟩)) table a = none := by
    intro l
    induction l with
    | nil => exact fun table _ h => h
    | cons x l ih =>
      intro table hl htable
      refine ih _ (fun y hy => hl y (List.mem_cons_of_mem _ hy)) ?_
      exact (Function.update_of_ne (Ne.symm (hno x (hl x List.mem_cons_self))) _ _).trans htable
  have hnone : generateActionTable T keys a = none := by
    refine hfold _ _ ?_ rfl
    intro x hx
    obtain ⟨name, -, hx⟩ := List.mem_flatMap.mp hx
    exact (List.mem_filter.mp hx).1
  rw [hnone] at h
  cases h

theorem generateActionTable_closed (hkeys : keys.Perm T.names) : Closed (generateActionTable T keys) := by
  constructor
  · intro a act hact b hb
    obtain ⟨x, hx, rfl⟩ := generateActionTable_field hact
    rw [generateActionTable_enumOf hkeys hx] at hact
    cases hact
    obtain ⟨name, hname, rfl⟩ := List.mem_map.mp hb
    obtain ⟨y, hy, rfl⟩ := List.mem_map.mp (Edge.right (makeChains_sub hkeys (List.mem_map_of_mem hx) hname))
    rw [generateActionTable_enumOf hkeys hy]
    rfl
  · intro a act hact
    obtain ⟨x, hx, rfl⟩ := generateActionTable_field hact
    rw [generateActionTable_enumOf hkeys hx] at hact
    cases hact
    exact x.sel_fits

end Generated

/-- Two rows trigger the second action, whose chain holds the third one. -/
theorem schedule_runs_once_sample : ∃ s,
    Run.run (Schedule.actionSel (generateActionTable sampleActions sampleActions.names)) none
      [⟨2, [5, 6, 7], .change⟩, ⟨2, [5, 6, 8], .change⟩] = some s ∧
    (s.execActions (generateActionTable sampleActions sampleActions.names)).2 = none ∧
    ∃ nodes : List ExecNode, nodes.Nodup ∧
      (∀ n, n ∈ nodes ↔ ∃ t ∈ ([⟨2, [5, 6, 7], .change⟩, ⟨2, [5, 6, 8], .change⟩] : List Trigger),
        Inserts (generateActionTable sampleActions sampleActions.names) t n) ∧
      nodes.Pairwise (fun m n => m.action ≤ n.action) ∧
      ∃ first last, (s.execActions (generateActionTable sampleActions sampleActions.names)).1 = first ++ last ∧
        (actionNodes first).map ExecNode.ids =
          nodes.filter (hasHook (generateActionTable sampleActions sampleActions.names) DmAction.action) ∧
        postNodes first = [] ∧
        (postNodes last).map ExecNode.ids =
          nodes.filter (hasHook (generateActionTable sampleActions sampleActions.names) DmAction.post) ∧
        actionNodes last = [] :=
  schedule_runs_once _ (generateActionTable_closed (List.Perm.refl sampleActions.names)) _ (by decide +kernel)

end Mand.Action
