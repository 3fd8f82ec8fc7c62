import Mand.Action.Chain
import Mand.Lib.Run

/-! # Which actions run, and in which order

`action_sel` follows a chain by one link only, while `make_chains` leaves out every link that a longer
path makes up for. The tree is in the order of the enumeration, which is the order of the declarations. -/
namespace Mand.Action
open Mand.Store Relation
set_option autoImplicit false

section Closed
variable {T : ActionTable} {keys : List String} {x y : ActionField}

theorem mem_inserted : y ∈ T.inserted keys x ↔
    y = x ∨ y ∈ T.actions ∧ y.name ∈ makeChains keys T.chains x.name := by
  unfold ActionTable.inserted
  rw [List.mem_cons, List.mem_flatMap]
  refine or_congr Iff.rfl ?_
  constructor
  · rintro ⟨b, hb, hy⟩
    obtain ⟨hy, hname⟩ := List.mem_filter.mp hy
    have hname : y.name = b := by simpa using hname
    exact ⟨hy, hname ▸ hb⟩
  · rintro ⟨hy, hb⟩
    exact ⟨y.name, hb, List.mem_filter.mpr ⟨hy, by simp⟩⟩

/-- The nodes of two actions differ. -/
theorem node_field (hx : x ∈ T.actions) (hy : y ∈ T.actions) {sel sel' : Selector} {type type' : ActionType}
    (h : cmpAction (T.node sel type x) (T.node sel' type' y) = 0) : x = y :=
  field_unique hx hy (enumOf_inj (List.mem_map_of_mem hx) (cmpAction_eq h))

/-- What `action_sel` adds to the actions that run. -/
theorem runs_insertAll (hkeys : keys.Perm T.names) (hx : x ∈ T.actions) (hy : y ∈ T.actions)
    (chain : List ExecNode) (sel : Selector) (type : ActionType) :
    Runs (generateActionTable T keys)
        (Keyed.insertAll cmpAction ((T.inserted keys x).map (T.node sel type)) chain) (T.node sel type y) ↔
      y = x ∨ y.name ∈ makeChains keys T.chains x.name ∨
        Runs (generateActionTable T keys) chain (T.node sel type y) := by
  rw [runs_iff, runs_iff]
  constructor
  · rintro ⟨m, hm, hc⟩
    rcases Keyed.mem_of_insertAll hm with hm | hm
    · obtain ⟨z, hz, rfl⟩ := List.mem_map.mp hm
      rcases mem_inserted.mp hz with rfl | ⟨hz, hchain⟩
      · exact .inl (node_field hx hy hc).symm
      · rw [node_field hz hy hc] at hchain
        exact .inr (.inl hchain)
    · exact .inr (.inr ⟨m, hm, hc⟩)
  · have hin : y ∈ T.inserted keys x → ∃ m ∈ Keyed.insertAll cmpAction
        ((T.inserted keys x).map (T.node sel type)) chain, cmpAction m (T.node sel type y) = 0 := by
      intro h
      obtain ⟨m, hm, hc⟩ := Keyed.exists_insertAll cmpAction_comparison chain (List.mem_map_of_mem h)
      exact ⟨m, hm, cmpAction_comparison.eq_symm _ _ trivial trivial hc⟩
    rintro (h | h | ⟨m, hm, hc⟩)
    · exact hin (mem_inserted.mpr (.inl h))
    · exact hin (mem_inserted.mpr (.inr ⟨hy, h⟩))
    · exact ⟨m, Keyed.mem_insertAll_of_mem _ hm, hc⟩

end Closed

/-- A call of `action_sel` makes all actions run that can be reached, if those that cannot be reached
but through another one are in the chain twice or are scheduled already. -/
theorem actionSel_closed_iff (T : ActionTable) (keys : List String) (hkeys : keys.Perm T.names)
    (hacyclic : T.Acyclic) (x : ActionField) (hx : x ∈ T.actions) (chain : List ExecNode) (sel : Selector)
    (type : ActionType) :
    (∃ chain', actionSel (generateActionTable T keys) chain (T.enumOf x.name) sel type = some chain' ∧
        ∀ y ∈ T.actions, ReflTransGen T.Edge x.name y.name →
          Runs (generateActionTable T keys) chain' (T.node sel type y)) ↔
      ∀ y ∈ T.actions, (∃ b, T.Edge x.name b ∧ TransGen T.Edge b y.name) →
        1 < (T.chains x.name).count y.name ∨ Runs (generateActionTable T keys) chain (T.node sel type y) := by
  have hname : ∀ {z}, z ∈ T.actions → z.name ∈ T.names := fun hz => List.mem_map_of_mem hz
  rw [actionSel_eq hkeys hx]
  constructor
  · rintro ⟨chain', hchain, hruns⟩ y hy ⟨b, hxb, hby⟩
    cases hchain
    have hpath : TransGen T.Edge x.name y.name := TransGen.head hxb hby
    have hne : y ≠ x := by
      rintro rfl
      exact hacyclic _ hpath
    rcases (runs_insertAll hkeys hx hy chain sel type).mp (hruns y hy hpath.to_reflTransGen) with h | h | h
    · exact absurd h hne
    · exact .inl (((mem_makeChains hkeys (hname hx) (hname hy)).mp h).2 ⟨b, hxb, hby⟩)
    · exact .inr h
  · intro h
    refine ⟨_, rfl, fun y hy hpath => (runs_insertAll hkeys hx hy chain sel type).mpr ?_⟩
    rcases reflTransGen_iff_eq_or_transGen.mp hpath with heq | hpath
    · exact .inl (field_unique hy hx heq)
    by_cases hlong : ∃ b, T.Edge x.name b ∧ TransGen T.Edge b y.name
    · have hedge : 1 < (T.chains x.name).count y.name → T.Edge x.name y.name := fun hc =>
        List.count_pos_iff.mp (by omega)
      rcases h y hy hlong with hc | hc
      · exact .inr (.inl ((mem_makeChains hkeys (hname hx) (hname hy)).mpr ⟨hedge hc, fun _ => hc⟩))
      · exact .inr (.inr hc)
    · -- the only path is a link
      obtain ⟨b, hxb, hby⟩ := TransGen.head'_iff.mp hpath
      rcases reflTransGen_iff_eq_or_transGen.mp hby with heq | hby
      · rw [← heq] at hxb
        exact .inr (.inl ((mem_makeChains hkeys (hname hx) (hname hy)).mpr ⟨hxb, fun hc => absurd hc hlong⟩))
      · exact absurd ⟨b, hxb, hby⟩ hlong

/-- Three actions, one after the other. -/
def sampleActions : ActionTable where
  actions := [⟨"a", -1, true, true, false, ["b"], by decide⟩, ⟨"b", 2, false, true, false, ["c"], by decide⟩,
    ⟨"c", 1, false, true, true, [], by decide⟩]
  nodup := by decide
  known := by decide

theorem sampleActions_edge {a b : String} (h : sampleActions.Edge a b) : a = "a" ∧ b = "b" ∨ a = "b" ∧ b = "c" := by
  obtain ⟨x, hx, rfl, hb⟩ := Edge.field h
  simp only [sampleActions, List.mem_cons, List.not_mem_nil, or_false] at hx
  rcases hx with rfl | rfl | rfl
  · exact .inl ⟨rfl, by simpa using hb⟩
  · exact .inr ⟨rfl, by simpa using hb⟩
  · cases hb

theorem idxOf_lt_of_path {T : ActionTable} (h : ∀ a b, T.Edge a b → T.names.idxOf a < T.names.idxOf b)
    {a b : String} (hab : TransGen T.Edge a b) : T.names.idxOf a < T.names.idxOf b := by
  induction hab with
  | single hab => exact h _ _ hab
  | tail _ hbc ih => exact ih.trans (h _ _ hbc)

theorem sampleActions_lt (a b : String) (hab : sampleActions.Edge a b) :
    sampleActions.names.idxOf a < sampleActions.names.idxOf b := by
  rcases sampleActions_edge hab with ⟨rfl, rfl⟩ | ⟨rfl, rfl⟩ <;> decide

theorem sampleActions_acyclic : sampleActions.Acyclic := by
  intro a ha
  exact absurd (idxOf_lt_of_path sampleActions_lt ha) (lt_irrefl _)

/-- The second action schedules the third one. -/
theorem actionSel_closed_sample : ∃ chain', actionSel (generateActionTable sampleActions sampleActions.names) []
      (sampleActions.enumOf "b") [5, 6, 7] .change = some chain' ∧
    ∀ y ∈ sampleActions.actions, ReflTransGen sampleActions.Edge "b" y.name →
      Runs (generateActionTable sampleActions sampleActions.names) chain' (sampleActions.node [5, 6, 7] .change y) := by
  refine (actionSel_closed_iff sampleActions sampleActions.names (List.Perm.refl _) sampleActions_acyclic
    ⟨"b", 2, false, true, false, ["c"], by decide⟩ (by decide) [] [5, 6, 7] .change).mpr ?_
  rintro y hy ⟨b, hb, hby⟩
  -- the chain of the third action is empty
  obtain ⟨c, hbc, -⟩ := TransGen.head'_iff.mp hby
  have hb : b = "c" := by rcases sampleActions_edge hb with ⟨h, -⟩ | ⟨-, h⟩ <;> simp_all
  rcases sampleActions_edge hbc with ⟨h, -⟩ | ⟨h, -⟩ <;> simp_all

/-- The first one does not. -/
theorem actionSel_not_closed : sampleActions.Acyclic ∧
    ¬∃ chain', actionSel (generateActionTable sampleActions sampleActions.names) [] (sampleActions.enumOf "a")
        [5, 6, 7] .change = some chain' ∧
      ∀ y ∈ sampleActions.actions, ReflTransGen sampleActions.Edge "a" y.name →
        Runs (generateActionTable sampleActions sampleActions.names) chain'
          (sampleActions.node [5, 6, 7] .change y) := by
  refine ⟨sampleActions_acyclic, ?_⟩
  have hx : (⟨"a", -1, true, true, false, ["b"], by decide⟩ : ActionField) ∈ sampleActions.actions := by decide
  have hy : (⟨"c", 1, false, true, true, [], by decide⟩ : ActionField) ∈ sampleActions.actions := by decide
  have hpath : ReflTransGen sampleActions.Edge "a" "c" :=
    .tail (.single (show sampleActions.Edge "a" "b" by unfold ActionTable.Edge; decide))
      (show sampleActions.Edge "b" "c" by unfold ActionTable.Edge; decide)
  rintro ⟨chain', hchain, hruns⟩
  rw [actionSel_eq (List.Perm.refl _) hx] at hchain
  cases hchain
  have hrun := hruns _ hy hpath
  rw [runs_insertAll (List.Perm.refl _) hx hy, runs_iff, mem_makeChains (List.Perm.refl _) (by decide) (by decide)] at hrun
  rcases hrun with h | ⟨h, -⟩ | ⟨m, hm, -⟩
  · exact absurd (congrArg ActionField.name h) (by decide)
  · rcases sampleActions_edge h with ⟨-, h⟩ | ⟨h, -⟩ <;> exact absurd h (by decide)
  · cases hm

/-! ## Order -/

/-- A call of `action_sel`. -/
structure Trigger where
  action : ℕ
  sel : Selector
  type : ActionType

/-- The tree after some calls of `action_sel`. -/
def triggers (table : ℕ → Option DmAction) (ts : List Trigger) : Option (List ExecNode) :=
  Run.run (fun chain t => actionSel table chain t.action t.sel t.type) [] ts

/-- The function of each node of the one action is called before those of the other. -/
def HookBefore (calls : List Call) (a b : ℕ) : Prop :=
  ∀ (i j : ℕ) (m n : ExecNode), m.action = a → n.action = b → calls[i]? = some (.action m) →
    calls[j]? = some (.action n) → i < j

section Order
variable {T : ActionTable} {keys : List String}

theorem insertAction_ordered {table : ℕ → Option DmAction} {chain chain' : List ExecNode} {action : ℕ}
    {sel : Selector} {type : ActionType} (h : insertAction table chain action sel type = some chain')
    (hord : Keyed.Ordered cmpAction chain) : Keyed.Ordered cmpAction chain' := by
  unfold insertAction at h
  obtain ⟨act, -, h⟩ := Option.bind_eq_some_iff.mp h
  cases h
  exact hord.insert cmpAction_comparison _

theorem actionSel_ordered {table : ℕ → Option DmAction} {chain chain' : List ExecNode} {action : ℕ}
    {sel : Selector} {type : ActionType} (h : actionSel table chain action sel type = some chain')
    (hord : Keyed.Ordered cmpAction chain) : Keyed.Ordered cmpAction chain' := by
  unfold actionSel at h
  split at h
  · cases h
    exact hord
  obtain ⟨chain1, h1, h⟩ := Option.bind_eq_some_iff.mp h
  obtain ⟨act, -, h⟩ := Option.bind_eq_some_iff.mp h
  exact Run.run_keeps (P := Keyed.Ordered cmpAction) (fun _ _ _ h2 hord => insertAction_ordered h2 hord) h (insertAction_ordered h1 hord)

theorem triggers_ordered {table : ℕ → Option DmAction} {ts : List Trigger} {chain : List ExecNode}
    (h : triggers table ts = some chain) : Keyed.Ordered cmpAction chain := by
  exact Run.run_keeps (P := Keyed.Ordered cmpAction) (fun _ _ _ h1 hord => actionSel_ordered h1 hord) h List.Pairwise.nil

/-- The functions are called in the order of the tree. -/
theorem execActions_ordered {table : ℕ → Option DmAction} {chain : List ExecNode}
    (hord : Keyed.Ordered cmpAction chain) :
    (execActions table chain).Pairwise fun c d => ∀ m n, c = .action m → d = .action n → cmpAction m n < 0 := by
  have hpost : ∀ c ∈ chain.flatMap (hook table DmAction.post .post), ∀ n, c ≠ Call.action n := by
    intro c hc n hn
    obtain ⟨m, -, hc⟩ := List.mem_flatMap.mp hc
    unfold hook at hc
    split at hc
    · rw [List.mem_singleton.mp hc] at hn
      cases hn
    · cases hc
  have hof : ∀ {k c m}, c ∈ hook table DmAction.action .action k ++ [Call.event k] → c = .action m → m = k := by
    intro k c m hc hm
    unfold hook at hc
    split at hc <;> simp_all
  unfold execActions
  rw [List.pairwise_append]
  refine ⟨?_, ?_, ?_⟩
  · rw [List.pairwise_flatMap]
    constructor
    · intro k _
      unfold hook
      split
      · refine List.pairwise_cons.mpr ⟨?_, List.pairwise_singleton _ _⟩
        intro d hd m n _ hn
        rw [List.mem_singleton.mp hd] at hn
        cases hn
      · exact List.pairwise_singleton _ _
    · refine hord.imp ?_
      intro k l hkl c hc d hd m n hm hn
      rw [hof hc hm, hof hd hn]
      exact hkl
  · refine List.pairwise_of_forall_mem_list ?_
    intro c hc d _ m n hm _
    exact absurd hm (hpost c hc m)
  · intro c _ d hd m n _ hn
    exact absurd hn (hpost d hd n)

theorem hook_le {table : ℕ → Option DmAction} {chain : List ExecNode} (hord : Keyed.Ordered cmpAction chain)
    {i j : ℕ} {m n : ExecNode} (hi : (execActions table chain)[i]? = some (.action m))
    (hj : (execActions table chain)[j]? = some (.action n)) (hij : i ≤ j) : m.action ≤ n.action := by
  rcases Nat.eq_or_lt_of_le hij with rfl | hij
  · rw [hi] at hj
    cases hj
    exact Nat.le_refl _
  · obtain ⟨hil, hi⟩ := List.getElem?_eq_some_iff.mp hi
    obtain ⟨hjl, hj⟩ := List.getElem?_eq_some_iff.mp hj
    have hpair : (execActions table chain).Pairwise _ := execActions_ordered hord
    exact cmpAction_lt (List.pairwise_iff_getElem.mp hpair i j hil hjl hij m n hi hj)

variable (hkeys : keys.Perm T.names)
include hkeys

/-- Only the actions with a function are seen. -/
theorem hook_field {chain : List ExecNode} {i : ℕ} {m : ExecNode} {a : String} (ha : a ∈ T.names)
    (hm : m.action = T.enumOf a)
    (hi : (execActions (generateActionTable T keys) chain)[i]? = some (.action m)) :
    ∃ x ∈ T.actions, x.name = a ∧ x.action = true := by
  obtain ⟨x, hx, rfl⟩ := List.mem_map.mp ha
  have hact := (action_mem.mp (List.mem_of_getElem? hi)).2
  rw [hm, generateActionTable_enumOf hkeys hx] at hact
  exact ⟨x, hx, rfl, hact⟩

/-- A node in the tree with a function is called. -/
theorem exists_hook {chain : List ExecNode} {x : ActionField} (hx : x ∈ T.actions) (hact : x.action = true)
    {sel : Selector} {type : ActionType}
    (h : Runs (generateActionTable T keys) chain (T.node sel type x)) : ∃ (i : ℕ) (m : ExecNode),
      m.action = T.enumOf x.name ∧ (execActions (generateActionTable T keys) chain)[i]? = some (.action m) := by
  obtain ⟨m, hm, hc⟩ := runs_iff.mp h
  have hma : m.action = T.enumOf x.name := cmpAction_eq hc
  have hmem : Call.action m ∈ execActions (generateActionTable T keys) chain := by
    refine action_mem.mpr ⟨hm, ?_⟩
    rw [hma, generateActionTable_enumOf hkeys hx]
    exact hact
  obtain ⟨i, hi⟩ := List.getElem?_of_mem hmem
  exact ⟨i, m, hma, hi⟩

end Order

/-- Reachable actions run later, if those of them that have a function are declared in this order. -/
theorem dependency_order_iff (T : ActionTable) (keys : List String) (hkeys : keys.Perm T.names)
    (hacyclic : T.Acyclic) :
    (∀ ts chain, triggers (generateActionTable T keys) ts = some chain → ∀ a ∈ T.names, ∀ b ∈ T.names,
        TransGen T.Edge a b →
          HookBefore (execActions (generateActionTable T keys) chain) (T.enumOf a) (T.enumOf b)) ↔
      ∀ x ∈ T.actions, ∀ y ∈ T.actions, x.action = true → y.action = true →
        TransGen T.Edge x.name y.name → T.names.idxOf x.name < T.names.idxOf y.name := by
  constructor
  · intro h x hx y hy hxa hya hpath
    have hts : triggers (generateActionTable T keys)
        [⟨T.enumOf y.name, [], .change⟩, ⟨T.enumOf x.name, [], .change⟩] =
        some (Keyed.insertAll cmpAction ((T.inserted keys x).map (T.node [] .change))
          (Keyed.insertAll cmpAction ((T.inserted keys y).map (T.node [] .change)) [])) := by
      simp only [triggers, Run.run, List.foldlM_cons, List.foldlM_nil, actionSel_eq hkeys hx, actionSel_eq hkeys hy,
        Option.bind_eq_bind, Option.bind_some, Option.pure_def]
    have hord := triggers_ordered hts
    obtain ⟨i, m, hm, hi⟩ := exists_hook hkeys hx hxa
      ((runs_insertAll hkeys hx hx (Keyed.insertAll cmpAction ((T.inserted keys y).map (T.node [] .change)) [])
        [] .change).mpr (.inl rfl))
    obtain ⟨j, n, hn, hj⟩ := exists_hook hkeys hy hya
      ((runs_insertAll hkeys hx hy _ [] .change).mpr (.inr (.inr
        ((runs_insertAll hkeys hy hy [] [] .change).mpr (.inl rfl)))))
    have hij := h _ _ hts _ (List.mem_map_of_mem hx) _ (List.mem_map_of_mem hy) hpath i j m n hm hn hi hj
    have hle := hook_le hord hi hj (Nat.le_of_lt hij)
    have hne : T.enumOf x.name ≠ T.enumOf y.name := by
      intro he
      rw [enumOf_inj (List.mem_map_of_mem hx) he] at hpath
      exact hacyclic _ hpath
    rw [hm, hn] at hle
    unfold ActionTable.enumOf at hle hne
    omega
  · intro h ts chain hts a ha b hb hpath i j m n hm hn hi hj
    obtain ⟨x, hx, rfl, hxa⟩ := hook_field hkeys ha hm hi
    obtain ⟨y, hy, rfl, hya⟩ := hook_field hkeys hb hn hj
    have hlt := h x hx y hy hxa hya hpath
    by_contra hij
    have hle := hook_le (triggers_ordered hts) hj hi (Nat.not_lt.mp hij)
    rw [hm, hn] at hle
    unfold ActionTable.enumOf at hle
    omega

theorem dependency_order_sample : ∃ chain,
    triggers (generateActionTable sampleActions sampleActions.names) [⟨3, [5], .add⟩, ⟨1, [6], .change⟩] = some chain ∧
      HookBefore (execActions (generateActionTable sampleActions sampleActions.names) chain) 1 3 := by
  have hpath : TransGen sampleActions.Edge "a" "c" :=
    .tail (.single (show sampleActions.Edge "a" "b" by unfold ActionTable.Edge; decide))
      (show sampleActions.Edge "b" "c" by unfold ActionTable.Edge; decide)
  have hts : triggers (generateActionTable sampleActions sampleActions.names)
      [⟨3, [5], .add⟩, ⟨1, [6], .change⟩] =
      some [⟨1, [6], .change⟩, ⟨2, [6], .change⟩, ⟨3, [5], .add⟩] := by decide +kernel
  exact ⟨_, hts, (dependency_order_iff sampleActions sampleActions.names (List.Perm.refl _)
    sampleActions_acyclic).mpr (fun x _ y _ _ _ h => idxOf_lt_of_path sampleActions_lt h) _ _ hts
    "a" (by decide) "c" (by decide) hpath⟩

/-- Two actions, the second one in front. -/
def sampleBackward : ActionTable where
  actions := [⟨"b", -1, false, true, false, [], by decide⟩, ⟨"a", -1, false, true, false, ["b"], by decide⟩]
  nodup := by decide
  known := by decide

theorem sampleBackward_edge {a b : String} (h : sampleBackward.Edge a b) : a = "a" ∧ b = "b" := by
  obtain ⟨x, hx, rfl, hb⟩ := Edge.field h
  simp only [sampleBackward, List.mem_cons, List.not_mem_nil, or_false] at hx
  rcases hx with rfl | rfl
  · cases hb
  · exact ⟨rfl, by simpa using hb⟩

theorem sampleBackward_acyclic : sampleBackward.Acyclic := by
  intro a ha
  obtain ⟨b, hab, hba⟩ := TransGen.head'_iff.mp ha
  obtain ⟨rfl, rfl⟩ := sampleBackward_edge hab
  rcases reflTransGen_iff_eq_or_transGen.mp hba with h | h
  · exact absurd h (by decide)
  · obtain ⟨c, hbc, -⟩ := TransGen.head'_iff.mp h
    exact absurd (sampleBackward_edge hbc).1 (by decide)

/-- The second action runs first, also where the first one has scheduled it. -/
theorem dependency_reversed : sampleBackward.Acyclic ∧ TransGen sampleBackward.Edge "a" "b" ∧
    ∃ chain, triggers (generateActionTable sampleBackward sampleBackward.names)
        [⟨sampleBackward.enumOf "a", [5], .change⟩] = some chain ∧
      ¬HookBefore (execActions (generateActionTable sampleBackward sampleBackward.names) chain)
        (sampleBackward.enumOf "a") (sampleBackward.enumOf "b") := by
  refine ⟨sampleBackward_acyclic, .single (by unfold ActionTable.Edge; decide),
    [⟨1, [5], .change⟩, ⟨2, [5], .change⟩], by decide +kernel, ?_⟩
  intro h
  have hlt := h 2 0 ⟨2, [5], .change⟩ ⟨1, [5], .change⟩ (by decide) (by decide) (by decide +kernel) (by decide +kernel)
  exact absurd hlt (by decide)

end Mand.Action
