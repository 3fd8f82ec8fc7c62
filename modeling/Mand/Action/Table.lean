import Mand.Lib.Closure
import Mathlib.Data.List.Perm.Basic
import Mathlib.Data.List.Nodup
import Mathlib.Data.List.Sort

/-! # The action table

What the YANG plugin makes of the action fields of a data model: `make_chains`, the table of
`generate_action_table` and the enumeration of `generate_action_table_header`. -/
namespace Mand.Action
open Mand.Closure
set_option autoImplicit false

/-- An `action-field`. The functions are only known by whether there is one; a chain of `NULL` has no
names. -/
structure ActionField where
  name : String
  selLen : ℤ
  pre : Bool
  action : Bool
  post : Bool
  chain : List String
  sel_fits : selLen < 16
  deriving DecidableEq, Repr

/-- The action fields in the order of the modules. Names are used as identifiers in C, and those of a
chain have to be known. -/
structure ActionTable where
  actions : List ActionField
  nodup : (actions.map ActionField.name).Nodup
  known : ∀ a ∈ actions, ∀ c ∈ a.chain, c ∈ actions.map ActionField.name

namespace ActionTable
variable (T : ActionTable)

def names : List String := T.actions.map ActionField.name

/-- The dictionary of the chains. -/
def chains (name : String) : List String :=
  ((T.actions.find? fun a => a.name = name).map ActionField.chain).getD []

/-- The graph of the chains. -/
def Edge (a b : String) : Prop := b ∈ T.chains a

def Acyclic : Prop := ∀ a, ¬Relation.TransGen T.Edge a a

end ActionTable

/-! ## Chains -/

/-- The adjacency matrix of the chains. -/
def adjMatrix (keys : List String) (chains : String → List String) : Mat := fun i j =>
  match keys[i]?, keys[j]? with
  | some a, some b => if b ∈ chains a then 1 else 0
  | _, _ => 0

/-- Names without an entry in row `i` are taken out of a chain, one occurrence of each. -/
def cutChain (keys : List String) (M : Mat) (i : ℕ) (chain : List String) : List String :=
  (List.range keys.length).foldl (fun l j =>
    match keys[j]? with
    | some b => if M i j = 0 ∧ b ∈ l then l.erase b else l
    | none => l) chain

/-- The chains of `make_chains`. `keys` are the keys of the dictionary, in whatever order. -/
def makeChains (keys : List String) (chains : String → List String) (a : String) : List String :=
  cutChain keys (transReduct keys.length (adjMatrix keys chains)) (keys.idxOf a) (chains a)

/-- `depth_first`; no path of a graph without cycles is longer than its nodes. -/
def depthFirst (keys : List String) (chains : String → List String) : ℕ → ℕ → ℕ → (ℕ → ℕ) → ℕ → ℕ
  | 0, _, _, depths => depths
  | fuel + 1, i, depth, depths =>
    let depths := if depths i < depth then Function.update depths i depth else depths
    (chains (keys.getD i "")).foldl
      (fun depths b => depthFirst keys chains fuel (keys.idxOf b) (depth + 1) depths) depths

def depths (keys : List String) (chains : String → List String) : ℕ → ℕ :=
  keys.foldl (fun depths a => depthFirst keys chains (keys.length + 1) (keys.idxOf a) 0 depths) fun _ => 0

/-- The names by their depth. -/
def actionsOrder (keys : List String) (depths : ℕ → ℕ) : List String :=
  (((List.range keys.length).map depths).dedup.insertionSort (· ≤ ·)).flatMap fun d =>
    keys.filter fun a => depths (keys.idxOf a) = d

def orderActions (actions : List ActionField) (order : List String) : List ActionField :=
  order.flatMap fun name => actions.filter fun a => a.name = name

/-! ## The generated files -/

/-- `enum dm_actions` of `generate_action_table_header`: `DM_NONE` and the actions. -/
def ActionTable.enumOf (T : ActionTable) (name : String) : ℕ := T.names.idxOf name + 1

/-- `struct dm_action`. -/
structure DmAction where
  selLen : ℤ
  pre : Bool
  action : Bool
  post : Bool
  chain : List ℕ
  deriving DecidableEq, Repr

/-- `dm_actions` of `generate_action_table`. -/
def generateActionTable (T : ActionTable) (keys : List String) : ℕ → Option DmAction :=
  let chains := makeChains keys T.chains
  (orderActions T.actions (actionsOrder keys (depths keys chains))).foldl (fun table a =>
    Function.update table (T.enumOf a.name)
      (some ⟨a.selLen, a.pre, a.action, a.post, (chains a.name).map T.enumOf⟩)) fun _ => none

/-! ## The graph -/

section Graph
variable {T : ActionTable} {a b c : String}

theorem field_unique {x y : ActionField} (hx : x ∈ T.actions) (hy : y ∈ T.actions) (h : x.name = y.name) :
    x = y := List.inj_on_of_nodup_map T.nodup hx hy h

theorem chains_of_mem {x : ActionField} (hx : x ∈ T.actions) : T.chains x.name = x.chain := by
  unfold ActionTable.chains
  cases hf : T.actions.find? fun a => a.name = x.name with
  | none =>
    have hno := List.find?_eq_none.mp hf x hx
    simp at hno
  | some y =>
    have hname : y.name = x.name := by simpa using List.find?_some hf
    rw [field_unique (List.mem_of_find?_eq_some hf) hx hname]
    rfl

theorem Edge.field (h : T.Edge a b) : ∃ x ∈ T.actions, x.name = a ∧ b ∈ x.chain := by
  unfold ActionTable.Edge ActionTable.chains at h
  cases hf : T.actions.find? fun x => x.name = a with
  | none =>
    rw [hf] at h
    cases h
  | some x =>
    rw [hf] at h
    exact ⟨x, List.mem_of_find?_eq_some hf, by simpa using List.find?_some hf, h⟩

theorem Edge.left (h : T.Edge a b) : a ∈ T.names := by
  obtain ⟨x, hx, hname, -⟩ := Edge.field h
  exact List.mem_map.mpr ⟨x, hx, hname⟩

theorem Edge.right (h : T.Edge a b) : b ∈ T.names := by
  obtain ⟨x, hx, -, hb⟩ := Edge.field h
  exact T.known x hx b hb

theorem enumOf_inj (ha : a ∈ T.names) (h : T.enumOf a = T.enumOf b) : a = b := by
  have h : T.names.idxOf a = T.names.idxOf b := Nat.succ.inj h
  exact (List.idxOf_inj ha).mp h

end Graph

/-! ## The reduced chains -/

section Reduced
variable {T : ActionTable} {keys : List String} {a b c : String}

theorem adjMatrix_binary (keys : List String) (chains : String → List String) :
    (adjMatrix keys chains).Binary := by
  intro i j
  unfold adjMatrix
  split
  · split
    · exact .inr rfl
    · exact .inl rfl
  · exact .inl rfl

theorem adjMatrix_one {chains : String → List String} {i j : ℕ} :
    adjMatrix keys chains i j = 1 ↔ ∃ a b, keys[i]? = some a ∧ keys[j]? = some b ∧ b ∈ chains a := by
  unfold adjMatrix
  constructor
  · intro h
    split at h
    · rename_i a b ha hb
      split at h
      · exact ⟨a, b, ha, hb, ‹_›⟩
      · cases h
    · cases h
  · rintro ⟨a, b, ha, hb, hmem⟩
    simp only [ha, hb, if_pos hmem]

variable (hkeys : keys.Perm T.names)
include hkeys

theorem keys_nodup : keys.Nodup := hkeys.nodup_iff.mpr T.nodup

theorem getElem?_idxOf_key (ha : a ∈ T.names) : keys[keys.idxOf a]? = some a :=
  List.getElem?_idxOf (hkeys.mem_iff.mpr ha)

/-- The relation of the matrix is the graph. -/
theorem adjMatrix_edge (ha : a ∈ T.names) (hb : b ∈ T.names) :
    (adjMatrix keys T.chains).Rel keys.length (keys.idxOf a) (keys.idxOf b) ↔ T.Edge a b := by
  have hia := getElem?_idxOf_key hkeys ha
  have hib := getElem?_idxOf_key hkeys hb
  unfold Mat.Rel
  rw [adjMatrix_one]
  constructor
  · rintro ⟨-, -, x, y, hx, hy, hmem⟩
    rw [hia] at hx
    rw [hib] at hy
    cases hx
    cases hy
    exact hmem
  · intro h
    exact ⟨List.idxOf_lt_length_of_mem (hkeys.mem_iff.mpr ha), List.idxOf_lt_length_of_mem (hkeys.mem_iff.mpr hb),
      a, b, hia, hib, h⟩

theorem adjMatrix_path (ha : a ∈ T.names) (hb : b ∈ T.names) :
    Relation.TransGen ((adjMatrix keys T.chains).Rel keys.length) (keys.idxOf a) (keys.idxOf b) ↔
      Relation.TransGen T.Edge a b := by
  constructor
  · intro h
    have hlift : Relation.TransGen T.Edge (keys.getD (keys.idxOf a) "") (keys.getD (keys.idxOf b) "") := by
      refine h.lift (fun i => keys.getD i "") ?_
      rintro i j ⟨-, -, hij⟩
      obtain ⟨x, y, hx, hy, hmem⟩ := adjMatrix_one.mp hij
      show T.Edge (keys.getD i "") (keys.getD j "")
      simp only [List.getD_eq_getElem?_getD, hx, hy, Option.getD_some]
      exact hmem
    simpa only [List.getD_eq_getElem?_getD, getElem?_idxOf_key hkeys ha, getElem?_idxOf_key hkeys hb,
      Option.getD_some] using hlift
  · intro h
    refine h.lift keys.idxOf ?_
    intro x y hxy
    exact (adjMatrix_edge hkeys (Edge.left hxy) (Edge.right hxy)).mpr hxy

/-- How often a name is left in a chain. -/
theorem count_cutChain (M : Mat) (i : ℕ) (chain : List String) (hb : b ∈ T.names) :
    (cutChain keys M i chain).count b = chain.count b - if M i (keys.idxOf b) = 0 then 1 else 0 := by
  have hib := getElem?_idxOf_key hkeys hb
  have hlt : keys.idxOf b < keys.length := List.idxOf_lt_length_of_mem (hkeys.mem_iff.mpr hb)
  have hfold : ∀ m, ((List.range m).foldl (fun l j =>
      match keys[j]? with
      | some b => if M i j = 0 ∧ b ∈ l then l.erase b else l
      | none => l) chain).count b =
      chain.count b - if keys.idxOf b < m ∧ M i (keys.idxOf b) = 0 then 1 else 0 := by
    intro m
    induction m with
    | zero => simp
    | succ m ih =>
      rw [List.range_succ, List.foldl_append, List.foldl_cons, List.foldl_nil]
      generalize (List.range m).foldl _ chain = l at ih ⊢
      by_cases hm : m = keys.idxOf b
      · -- the turn of this name
        subst hm
        have hnot : ¬(keys.idxOf b < keys.idxOf b ∧ M i (keys.idxOf b) = 0) := fun h => lt_irrefl _ h.1
        rw [if_neg hnot, Nat.sub_zero] at ih
        simp only [hib, Nat.lt_succ_self, true_and]
        by_cases hM : M i (keys.idxOf b) = 0
        · by_cases hmem : b ∈ l
          · rw [if_pos ⟨hM, hmem⟩, if_pos hM, List.count_erase_self, ih]
          · rw [if_neg fun h => hmem h.2, if_pos hM, ← ih, List.count_eq_zero_of_not_mem hmem]
        · rw [if_neg fun h => hM h.1, if_neg hM, ih, Nat.sub_zero]
      · have hiff : keys.idxOf b < m + 1 ↔ keys.idxOf b < m := by omega
        simp only [hiff]
        rw [← ih]
        cases hkm : keys[m]? with
        | none => rfl
        | some x =>
          have hne : b ≠ x := by
            intro he
            subst he
            apply hm
            obtain ⟨hlen, hget⟩ := List.getElem?_eq_some_iff.mp hkm
            rw [← hget, List.Nodup.idxOf_getElem (keys_nodup hkeys)]
          simp only
          split
          · rw [List.count_erase_of_ne hne]
          · rfl
  have h := hfold keys.length
  simp only [hlt, true_and] at h
  exact h

theorem mem_makeChains (ha : a ∈ T.names) (hb : b ∈ T.names) :
    b ∈ makeChains keys T.chains a ↔ T.Edge a b ∧
      ((∃ k, T.Edge a k ∧ Relation.TransGen T.Edge k b) → 1 < (T.chains a).count b) := by
  have hlt : ∀ {x}, x ∈ T.names → keys.idxOf x < keys.length :=
    fun hx => List.idxOf_lt_length_of_mem (hkeys.mem_iff.mpr hx)
  have hbin := adjMatrix_binary keys T.chains
  have hone : transReduct keys.length (adjMatrix keys T.chains) (keys.idxOf a) (keys.idxOf b) = 1 ↔
      T.Edge a b ∧ ¬∃ k, T.Edge a k ∧ Relation.TransGen T.Edge k b := by
    rw [transReduct_iff hbin _ _ (hlt hb)]
    have hedge : adjMatrix keys T.chains (keys.idxOf a) (keys.idxOf b) = 1 ↔ T.Edge a b := by
      rw [← adjMatrix_edge hkeys ha hb]
      exact ⟨fun h => ⟨hlt ha, hlt hb, h⟩, fun h => h.2.2⟩
    have hover : (∃ k < keys.length, adjMatrix keys T.chains (keys.idxOf a) k = 1 ∧
        Relation.TransGen ((adjMatrix keys T.chains).Rel keys.length) k (keys.idxOf b)) ↔
        ∃ k, T.Edge a k ∧ Relation.TransGen T.Edge k b := by
      constructor
      · rintro ⟨k, hk, h1, h2⟩
        obtain ⟨x, y, hx, hy, hmem⟩ := adjMatrix_one.mp h1
        have hyn : y ∈ T.names := hkeys.mem_iff.mp (List.mem_of_getElem? hy)
        have hky : k = keys.idxOf y := by
          obtain ⟨hlen, hget⟩ := List.getElem?_eq_some_iff.mp hy
          rw [← hget, List.Nodup.idxOf_getElem (keys_nodup hkeys)]
        have hxa : x = a := by
          rw [getElem?_idxOf_key hkeys ha] at hx
          exact (Option.some.inj hx).symm
        rw [hky, adjMatrix_path hkeys hyn hb] at h2
        rw [hxa] at hmem
        exact ⟨y, hmem, h2⟩
      · rintro ⟨k, h1, h2⟩
        have hk := Edge.right h1
        exact ⟨keys.idxOf k, hlt hk, ((adjMatrix_edge hkeys ha hk).mpr h1).2.2,
          (adjMatrix_path hkeys hk hb).mpr h2⟩
    rw [hedge, hover]
  unfold makeChains
  rw [← List.count_pos_iff, count_cutChain hkeys _ _ _ hb]
  have hpos : 0 < (T.chains a).count b ↔ T.Edge a b := List.count_pos_iff
  rcases transReduct_binary (n := keys.length) hbin (keys.idxOf a) (keys.idxOf b) with hz | ho
  · have hno : ¬(T.Edge a b ∧ ¬∃ k, T.Edge a k ∧ Relation.TransGen T.Edge k b) := by
      rw [← hone, hz]
      exact Int.zero_ne_one
    rw [if_pos hz]
    constructor
    · intro h
      exact ⟨hpos.mp (by omega), fun _ => by omega⟩
    · rintro ⟨he, himp⟩
      have hpath : ∃ k, T.Edge a k ∧ Relation.TransGen T.Edge k b := by
        by_contra hc
        exact hno ⟨he, hc⟩
      have := himp hpath
      omega
  · obtain ⟨he, hc⟩ := hone.mp ho
    rw [if_neg (by rw [ho]; decide), Nat.sub_zero]
    exact ⟨fun _ => ⟨he, fun hp => absurd hp hc⟩, fun _ => hpos.mpr he⟩

/-- Every action is in the order. -/
theorem mem_actionsOrder (depths : ℕ → ℕ) (ha : a ∈ T.names) : a ∈ actionsOrder keys depths := by
  have hk : a ∈ keys := hkeys.mem_iff.mpr ha
  unfold actionsOrder
  rw [List.mem_flatMap]
  refine ⟨depths (keys.idxOf a), ?_, List.mem_filter.mpr ⟨hk, by simp⟩⟩
  rw [List.mem_insertionSort, List.mem_dedup]
  exact List.mem_map.mpr ⟨keys.idxOf a, List.mem_range.mpr (List.idxOf_lt_length_of_mem hk), rfl⟩

/-- The entry of an action in the table. -/
theorem generateActionTable_enumOf {x : ActionField} (hx : x ∈ T.actions) :
    generateActionTable T keys (T.enumOf x.name) = some ⟨x.selLen, x.pre, x.action, x.post,
      (makeChains keys T.chains x.name).map T.enumOf⟩ := by
  have hname : x.name ∈ T.names := List.mem_map_of_mem hx
  -- whatever the order, the last entry for the name is that of its field
  have hfold : ∀ (l : List ActionField) (table : ℕ → Option DmAction), (∀ y ∈ l, y ∈ T.actions) →
      x ∈ l ∨ table (T.enumOf x.name) = some ⟨x.selLen, x.pre, x.action, x.post,
        (makeChains keys T.chains x.name).map T.enumOf⟩ →
      l.foldl (fun table a => Function.update table (T.enumOf a.name) (some ⟨a.selLen, a.pre, a.action, a.post,
        (makeChains keys T.chains a.name).map T.enumOf⟩)) table (T.enumOf x.name) =
        some ⟨x.selLen, x.pre, x.action, x.post, (makeChains keys T.chains x.name).map T.enumOf⟩ := by
    intro l
    induction l with
    | nil =>
      intro table _ h
      exact h.resolve_left List.not_mem_nil
    | cons y l ih =>
      intro table hl h
      have hy : y ∈ T.actions := hl y List.mem_cons_self
      refine ih _ (fun z hz => hl z (List.mem_cons_of_mem _ hz)) ?_
      by_cases hxy : x = y
      · subst hxy
        exact .inr (Function.update_self _ _ _)
      · have hne : T.enumOf x.name ≠ T.enumOf y.name := by
          intro he
          exact hxy (field_unique hx hy (enumOf_inj hname he))
        rcases h with h | h
        · exact .inl ((List.mem_cons.mp h).resolve_left hxy)
        · exact .inr ((Function.update_of_ne hne _ _).trans h)
  refine hfold _ _ ?_ (.inl ?_)
  · intro y hy
    obtain ⟨name, -, hy⟩ := List.mem_flatMap.mp hy
    exact (List.mem_filter.mp hy).1
  · exact List.mem_flatMap.mpr ⟨x.name, mem_actionsOrder hkeys _ hname, List.mem_filter.mpr ⟨hx, by simp⟩⟩

end Reduced

end Mand.Action
