import Mand.Action.Table
import Mand.Lib.Keyed
import Mand.Index.Order

/-! # Scheduled actions

`dm_action.c`: the tree of the actions that wait to be executed, as the list that `RB_FOREACH` goes
through. -/
namespace Mand.Action
open Mand.Store Mand.Closure Mand.Groups Mand.Index
set_option autoImplicit false

/-- `enum dm_action_type`. -/
inductive ActionType
  | add
  | change
  | del
  deriving DecidableEq, Repr

def ActionType.code : ActionType → ℤ
  | .add => 0
  | .change => 1
  | .del => 2

/-- `struct exec_node`. -/
structure ExecNode where
  action : ℕ
  sel : Selector
  type : ActionType
  deriving DecidableEq, Repr

/-- `cmp_action`. -/
def cmpAction (a b : ExecNode) : ℤ :=
  if a.action < b.action then -1
  else if b.action < a.action then 1
  else
    let r := dmSelcmp a.sel b.sel dmSelectorLen
    if r = 0 then intcmp a.type.code b.type.code else r

/-- `RB_INSERT`; a node that compares equal stays. -/
def insertNode (node : ExecNode) (chain : List ExecNode) : List ExecNode := Keyed.insert cmpAction node chain

/-- A selector that ends at `sel_len`. -/
def truncate (selLen : ℤ) (sel : Selector) : Selector :=
  if 0 ≤ selLen then sel.take selLen.toNat else sel

/-- `insert_action`. -/
def insertAction (table : ℕ → Option DmAction) (chain : List ExecNode) (action : ℕ) (sel : Selector)
    (type : ActionType) : Option (List ExecNode) := do
  let act ← table action
  some (insertNode ⟨action, truncate act.selLen sel, type⟩ chain)

/-- `action_sel`. -/
def actionSel (table : ℕ → Option DmAction) (chain : List ExecNode) (action : ℕ) (sel : Selector)
    (type : ActionType) : Option (List ExecNode) :=
  if action = 0 then some chain
  else do
    let chain ← insertAction table chain action sel type
    let act ← table action
    act.chain.foldlM (fun chain b => insertAction table chain b sel type) chain

/-- What the two passes over the tree call: the functions of a node and the broadcast of its event. -/
inductive Call
  | pre (n : ExecNode)
  | action (n : ExecNode)
  | event (n : ExecNode)
  | post (n : ExecNode)
  deriving DecidableEq, Repr

/-- The call of a function, if there is one. -/
def hook (table : ℕ → Option DmAction) (get : DmAction → Bool) (call : ExecNode → Call) (n : ExecNode) :
    List Call :=
  if (table n.action).any get = true then [call n] else []

/-- `exec_actions_pre`. -/
def execActionsPre (table : ℕ → Option DmAction) (chain : List ExecNode) : List Call :=
  chain.flatMap (hook table DmAction.pre .pre)

/-- `exec_actions`; afterwards the tree is empty. -/
def execActions (table : ℕ → Option DmAction) (chain : List ExecNode) : List Call :=
  chain.flatMap (fun n => hook table DmAction.action .action n ++ [.event n]) ++
    chain.flatMap (hook table DmAction.post .post)

/-- `exec_actions` runs the node, or one that compares equal. -/
def Runs (table : ℕ → Option DmAction) (chain : List ExecNode) (n : ExecNode) : Prop :=
  ∃ m, cmpAction m n = 0 ∧ Call.event m ∈ execActions table chain ∧
    ((table m.action).any DmAction.action = true → Call.action m ∈ execActions table chain)

/-! ## The order of the nodes -/

theorem cmpAction_comparison : Keyed.Comparison cmpAction := by
  have haction := intcmp_preorder.comap fun n : ExecNode => (n.action : ℤ)
  have hsel := (dmSelcmp_preorder dmSelectorLen).comap ExecNode.sel
  have htype := intcmp_preorder.comap fun n : ExecNode => n.type.code
  refine (Keyed.Comparison.lex haction (Keyed.Comparison.lex hsel htype)).congr ?_
  intro a b _ _
  simp only [cmpAction, intcmp, Nat.cast_lt]
  rcases lt_trichotomy a.action b.action with h | h | h
  · simp [h, h.not_gt]
  · simp [h]
  · simp [h, h.not_gt]

theorem cmpAction_lt {a b : ExecNode} (h : cmpAction a b < 0) : a.action ≤ b.action := by
  unfold cmpAction at h
  split_ifs at h <;> omega

theorem cmpAction_eq {a b : ExecNode} (h : cmpAction a b = 0) : a.action = b.action := by
  unfold cmpAction at h
  split_ifs at h <;> omega

theorem cmpAction_of_lt {a b : ExecNode} (h : a.action < b.action) : cmpAction a b < 0 := by
  unfold cmpAction
  rw [if_pos h]
  decide

/-! ## What the passes call -/

theorem event_mem {table : ℕ → Option DmAction} {chain : List ExecNode} {n : ExecNode} :
    Call.event n ∈ execActions table chain ↔ n ∈ chain := by
  unfold execActions hook
  simp only [List.mem_append, List.mem_flatMap]
  constructor
  · rintro (⟨m, hm, h | h⟩ | ⟨m, hm, h⟩)
    · split at h <;> simp at h
    · cases List.mem_singleton.mp h
      exact hm
    · split at h <;> simp at h
  · intro h
    exact .inl ⟨n, h, .inr (List.mem_singleton.mpr rfl)⟩

theorem action_mem {table : ℕ → Option DmAction} {chain : List ExecNode} {n : ExecNode} :
    Call.action n ∈ execActions table chain ↔ n ∈ chain ∧ (table n.action).any DmAction.action = true := by
  unfold execActions hook
  simp only [List.mem_append, List.mem_flatMap]
  constructor
  · rintro (⟨m, hm, h | h⟩ | ⟨m, hm, h⟩)
    · split at h
      · cases List.mem_singleton.mp h
        exact ⟨hm, ‹_›⟩
      · cases h
    · simp at h
    · split at h <;> simp at h
  · rintro ⟨h, hact⟩
    refine .inl ⟨n, h, .inl ?_⟩
    rw [if_pos hact]
    exact List.mem_singleton.mpr rfl

theorem runs_iff {table : ℕ → Option DmAction} {chain : List ExecNode} {n : ExecNode} :
    Runs table chain n ↔ ∃ m ∈ chain, cmpAction m n = 0 := by
  constructor
  · rintro ⟨m, hc, hev, -⟩
    exact ⟨m, event_mem.mp hev, hc⟩
  · rintro ⟨m, hm, hc⟩
    exact ⟨m, hc, event_mem.mpr hm, fun hact => action_mem.mpr ⟨hm, hact⟩⟩

/-! ## Triggers -/

section Trigger
variable {T : ActionTable} {keys : List String}

/-- The node of an action for a selector. -/
def ActionTable.node (T : ActionTable) (sel : Selector) (type : ActionType) (x : ActionField) : ExecNode :=
  ⟨T.enumOf x.name, truncate x.selLen sel, type⟩

/-- The actions that `action_sel` inserts: the action and those of its reduced chain. -/
def ActionTable.inserted (T : ActionTable) (keys : List String) (x : ActionField) : List ActionField :=
  x :: (makeChains keys T.chains x.name).flatMap fun b => T.actions.filter fun y => y.name = b

theorem filter_name {y : ActionField} (hy : y ∈ T.actions) :
    T.actions.filter (fun z => z.name = y.name) = [y] := by
  have hnd : (T.actions.filter fun z => z.name = y.name).Nodup := T.nodup.of_map.filter _
  have hall : ∀ z ∈ T.actions.filter fun z => z.name = y.name, z = y := by
    intro z hz
    obtain ⟨hz, hname⟩ := List.mem_filter.mp hz
    exact field_unique hz hy (by simpa using hname)
  have hy' : y ∈ T.actions.filter fun z => z.name = y.name := List.mem_filter.mpr ⟨hy, by simp⟩
  cases hl : T.actions.filter fun z => z.name = y.name with
  | nil =>
    rw [hl] at hy'
    cases hy'
  | cons z l =>
    rw [hl] at hnd hall
    cases l with
    | nil => rw [hall z List.mem_cons_self]
    | cons w l =>
      have hz := hall z List.mem_cons_self
      have hw := hall w (List.mem_cons_of_mem z List.mem_cons_self)
      rw [hz, hw] at hnd
      exact absurd List.mem_cons_self (List.nodup_cons.mp hnd).1

variable (hkeys : keys.Perm T.names)
include hkeys

theorem insertAction_eq {y : ActionField} (hy : y ∈ T.actions) (chain : List ExecNode) (sel : Selector)
    (type : ActionType) : insertAction (generateActionTable T keys) chain (T.enumOf y.name) sel type =
      some (insertNode (T.node sel type y) chain) := by
  unfold insertAction
  rw [generateActionTable_enumOf hkeys hy]
  rfl

/-- The loop over the chain. -/
theorem insertChain_eq (names : List String) (hnames : ∀ b ∈ names, b ∈ T.names) (chain : List ExecNode)
    (sel : Selector) (type : ActionType) :
    (names.map T.enumOf).foldlM
        (fun chain b => insertAction (generateActionTable T keys) chain b sel type) chain =
      some (Keyed.insertAll cmpAction
        ((names.flatMap fun b => T.actions.filter fun y => y.name = b).map (T.node sel type)) chain) := by
  induction names generalizing chain with
  | nil => rfl
  | cons b names ih =>
    obtain ⟨y, hy, rfl⟩ := List.mem_map.mp (hnames b List.mem_cons_self)
    rw [List.map_cons, List.foldlM_cons, insertAction_eq hkeys hy, List.flatMap_cons, filter_name hy]
    exact ih (fun b hb => hnames b (List.mem_cons_of_mem y.name hb)) _

theorem makeChains_sub {a b : String} (ha : a ∈ T.names) (h : b ∈ makeChains keys T.chains a) :
    T.Edge a b := by
  have hsub : ∀ (M : Mat) (i : ℕ) (chain : List String), (cutChain keys M i chain).Sublist chain := by
    intro M i chain
    unfold cutChain
    generalize List.range keys.length = js
    induction js generalizing chain with
    | nil => exact List.Sublist.refl _
    | cons j js ih =>
      refine (ih _).trans ?_
      dsimp only
      split
      · split
        · exact List.erase_sublist
        · exact List.Sublist.refl _
      · exact List.Sublist.refl _
  exact (hsub _ _ _).subset h

/-- One call of `action_sel`. -/
theorem actionSel_eq {x : ActionField} (hx : x ∈ T.actions) (chain : List ExecNode) (sel : Selector)
    (type : ActionType) : actionSel (generateActionTable T keys) chain (T.enumOf x.name) sel type =
      some (Keyed.insertAll cmpAction ((T.inserted keys x).map (T.node sel type)) chain) := by
  have hname : x.name ∈ T.names := List.mem_map_of_mem hx
  unfold actionSel
  rw [if_neg (by unfold ActionTable.enumOf; omega), insertAction_eq hkeys hx, generateActionTable_enumOf hkeys hx]
  exact insertChain_eq hkeys _ (fun b hb => Edge.right (makeChains_sub hkeys hname hb)) _ sel type

end Trigger

end Mand.Action
