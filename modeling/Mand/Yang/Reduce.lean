import Mand.Yang.Depths
import Mand.Yang.Warshall

/-! # The reduction of the chains

The chains that are left are the transitive reduction of the chains that were there, and the order of the actions
goes along them. -/
namespace Mand.Yang
open Relation Mand.Digraph Mand.Save
set_option autoImplicit false

section Reduce
variable {keys : List Name}

/-! ## The adjacency matrix -/

theorem addChain_ones {i : ℕ} {chain : List Name} (hchain : ∀ b ∈ chain, b ∈ keys) {M : Mat} (hM : M.Binary) :
    ∃ M', addChain keys i chain M = some M' ∧ M'.Binary ∧
      ∀ x y, M' x y = 1 ↔ (x = i ∧ ∃ b ∈ chain, keys.idxOf? b = some y) ∨ M x y = 1 := by
  induction chain generalizing M with
  | nil => exact ⟨M, rfl, hM, by simp⟩
  | cons b chain ih =>
    obtain ⟨j, hj⟩ := Option.isSome_iff_exists.mp (List.isSome_idxOf?.mpr (hchain b (.head chain)))
    obtain ⟨M', hrun, hbin, hones⟩ := ih (fun c hc => hchain c (.tail _ hc)) (hM.set i j)
    refine ⟨M', ?_, hbin, ?_⟩
    · unfold addChain
      rw [List.foldlM_cons, hj]
      exact hrun
    · intro x y
      rw [hones, Mat.set_eq_one]
      simp only [List.mem_cons, exists_eq_or_imp, hj, Option.some.injEq]
      grind

theorem addChains_ones (chains : Name → List Name) {names : List Name} (hnames : ∀ a ∈ names, a ∈ keys)
    (hclosed : Closed keys chains) {M : Mat} (hM : M.Binary) :
    ∃ M', names.foldlM (fun M a => (keys.idxOf? a).bind fun i => addChain keys i (chains a) M) M = some M' ∧ M'.Binary ∧
      ∀ x y, M' x y = 1 ↔ (∃ a ∈ names, keys.idxOf? a = some x ∧ ∃ b ∈ chains a, keys.idxOf? b = some y) ∨ M x y = 1 := by
  induction names generalizing M with
  | nil => exact ⟨M, rfl, hM, by simp⟩
  | cons a names ih =>
    have ha := hnames a (.head names)
    obtain ⟨i, hi⟩ := Option.isSome_iff_exists.mp (List.isSome_idxOf?.mpr ha)
    obtain ⟨M1, hrun1, hbin1, hones1⟩ := addChain_ones (i := i) (hclosed a ha) hM
    obtain ⟨M2, hrun2, hbin2, hones2⟩ := ih (fun b hb => hnames b (.tail _ hb)) hbin1
    refine ⟨M2, ?_, hbin2, ?_⟩
    · rw [List.foldlM_cons, hi]
      exact (congrArg (· >>= _) hrun1).trans hrun2
    · intro x y
      rw [hones2, hones1]
      simp only [List.mem_cons, exists_eq_or_imp, hi, Option.some.injEq]
      grind

/-- The matrix has a one for each name in a chain. -/
theorem adjacency_ones (hkeys : keys.Nodup) {chains : Name → List Name} (hclosed : Closed keys chains) :
    ∃ adj, adjacency keys chains = some adj ∧ adj.Binary ∧ Ones keys.length adj = Follows keys chains := by
  obtain ⟨adj, hrun, hbin, hones⟩ := addChains_ones chains (fun a ha => ha) hclosed zero_binary
  refine ⟨adj, hrun, hbin, ?_⟩
  funext i j
  refine propext ?_
  unfold Ones Follows
  rw [hones]
  simp only [idxOf?_iff hkeys, zero, Nat.zero_ne_one, or_false]
  constructor
  · rintro ⟨_, _, a, _, ha, b, hb, hbj⟩
    exact ⟨a, b, ha, hbj, hb⟩
  · rintro ⟨a, b, ha, hb, hmem⟩
    exact ⟨(List.getElem?_eq_some_iff.mp ha).1, (List.getElem?_eq_some_iff.mp hb).1, a, List.mem_of_getElem? ha, ha, b, hmem, hb⟩

/-! ## The chains that are left -/

/-- The loop over `j`, for some of the keys. -/
theorem pruneRow_mem (adj : Mat) (i : ℕ) {a : Name} (ha : a ∈ keys) (ps : List (Name × ℕ)) {chains : Name → List Name}
    (hnodup : ∀ x ∈ keys, (chains x).Nodup) :
    (∀ x ∈ keys, (ps.foldl (fun chains p => if adj i p.2 = 0 ∧ p.1 ∈ chains a then
        Function.update chains a ((chains a).erase p.1) else chains) chains x).Nodup) ∧
      ∀ x b, b ∈ ps.foldl (fun chains p => if adj i p.2 = 0 ∧ p.1 ∈ chains a then
          Function.update chains a ((chains a).erase p.1) else chains) chains x ↔
        b ∈ chains x ∧ (x = a → ∀ j, (b, j) ∈ ps → adj i j ≠ 0) := by
  induction ps generalizing chains with
  | nil => exact ⟨hnodup, by simp⟩
  | cons p ps ih =>
    rw [List.foldl_cons]
    by_cases hcut : adj i p.2 = 0 ∧ p.1 ∈ chains a
    · rw [if_pos hcut]
      have hnodup' : ∀ x ∈ keys, (Function.update chains a ((chains a).erase p.1) x).Nodup := by
        intro x hx
        rw [Function.update_apply]
        split
        · exact (hnodup a ha).erase p.1
        · exact hnodup x hx
      refine ⟨(ih hnodup').1, fun x b => ?_⟩
      rw [(ih hnodup').2, Function.update_apply]
      by_cases hx : x = a
      · rw [if_pos hx, (hnodup a ha).mem_erase_iff, hx]
        grind
      · rw [if_neg hx]
        simp [hx]
    · rw [if_neg hcut]
      refine ⟨(ih hnodup).1, fun x b => ?_⟩
      rw [(ih hnodup).2]
      grind

theorem pruneRows_mem (adj : Mat) {qs : List (Name × ℕ)} (hqs : ∀ q ∈ qs, q.1 ∈ keys) {chains : Name → List Name}
    (hnodup : ∀ x ∈ keys, (chains x).Nodup) (x b : Name) :
    b ∈ qs.foldl (fun chains p => pruneRow keys adj p.2 p.1 chains) chains x ↔
      b ∈ chains x ∧ ∀ i, (x, i) ∈ qs → ∀ j, (b, j) ∈ keys.zipIdx → adj i j ≠ 0 := by
  induction qs generalizing chains with
  | nil => simp
  | cons q qs ih =>
    have hrow := pruneRow_mem adj q.2 (hqs q (.head qs)) keys.zipIdx hnodup
    have hnodup' : ∀ y ∈ keys, (pruneRow keys adj q.2 q.1 chains y).Nodup := hrow.1
    have hmem : b ∈ pruneRow keys adj q.2 q.1 chains x ↔
        b ∈ chains x ∧ (x = q.1 → ∀ j, (b, j) ∈ keys.zipIdx → adj q.2 j ≠ 0) := hrow.2 x b
    rw [List.foldl_cons, ih (fun r hr => hqs r (.tail _ hr)) hnodup', hmem]
    grind

/-- A name stays where the entry is not zero. -/
theorem prune_mem (hkeys : keys.Nodup) (adj : Mat) {chains : Name → List Name} (hnodup : ∀ x ∈ keys, (chains x).Nodup)
    {i j : ℕ} {a b : Name} (ha : keys[i]? = some a) (hb : keys[j]? = some b) :
    b ∈ prune keys adj chains a ↔ b ∈ chains a ∧ adj i j ≠ 0 := by
  unfold prune
  rw [pruneRows_mem adj (fun q hq => List.mem_of_getElem? (List.mem_zipIdx_iff_getElem?.mp hq)) hnodup]
  refine and_congr_right fun _ => ?_
  simp only [List.mem_zipIdx_iff_getElem?]
  constructor
  · intro h
    exact h i ha j hb
  · intro h i' hi' j' hj'
    rwa [← idxOf_of_getElem? hkeys hi', ← idxOf_of_getElem? hkeys hj', idxOf_of_getElem? hkeys ha, idxOf_of_getElem? hkeys hb]

/-- A chain gets no names that it did not have. -/
theorem mem_of_prune (adj : Mat) {chains : Name → List Name} (hnodup : ∀ x ∈ keys, (chains x).Nodup) {a b : Name}
    (h : b ∈ prune keys adj chains a) : b ∈ chains a := by
  unfold prune at h
  rw [pruneRows_mem adj (fun q hq => List.mem_of_getElem? (List.mem_zipIdx_iff_getElem?.mp hq)) hnodup] at h
  exact h.1

/-! ## Names and indices -/

/-- An action is to follow another. -/
def Edge (keys : List Name) (chains : Name → List Name) (a b : Name) : Prop := a ∈ keys ∧ b ∈ chains a

theorem follows_edge {chains : Name → List Name} {i j : ℕ} (h : Follows keys chains i j) :
    Edge keys chains (keys.getD i []) (keys.getD j []) := by
  obtain ⟨a, b, ha, hb, hmem⟩ := h
  rw [List.getD_eq_getElem?_getD, List.getD_eq_getElem?_getD, ha, hb]
  exact ⟨List.mem_of_getElem? ha, hmem⟩

theorem edge_follows {chains : Name → List Name} (hclosed : Closed keys chains) {a b : Name} (h : Edge keys chains a b) :
    Follows keys chains (keys.idxOf a) (keys.idxOf b) :=
  ⟨a, b, getElem?_idxOf h.1, getElem?_idxOf (hclosed a h.1 b h.2), h.2⟩

theorem edge_keys {chains : Name → List Name} (hclosed : Closed keys chains) (a b : Name) (h : Edge keys chains a b) :
    a ∈ keys.toFinset ∧ b ∈ keys.toFinset :=
  ⟨List.mem_toFinset.mpr h.1, List.mem_toFinset.mpr (hclosed a h.1 b h.2)⟩

theorem transGen_follows {chains : Name → List Name} {i j : ℕ} (h : TransGen (Follows keys chains) i j) :
    TransGen (Edge keys chains) (keys.getD i []) (keys.getD j []) :=
  h.lift (fun i => keys.getD i []) fun _ _ => follows_edge

theorem follows_transGen {chains : Name → List Name} (hclosed : Closed keys chains) {a b : Name}
    (h : TransGen (Edge keys chains) a b) : TransGen (Follows keys chains) (keys.idxOf a) (keys.idxOf b) :=
  h.lift (fun a => keys.idxOf a) fun _ _ => edge_follows hclosed

theorem follows_acyclic {chains : Name → List Name} (h : Acyclic (Edge keys chains)) : Acyclic (Follows keys chains) :=
  fun _ hcycle => h _ (transGen_follows hcycle)

/-- The reduction at indices is the one at names. -/
theorem reduct_follows {chains : Name → List Name} (hclosed : Closed keys chains) {a b : Name} (ha : a ∈ keys)
    (hab : Edge keys chains a b) :
    Reduct (Follows keys chains) (keys.idxOf a) (keys.idxOf b) ↔ Reduct (Edge keys chains) a b := by
  have hname : ∀ {a : Name}, a ∈ keys → keys.getD (keys.idxOf a) [] = a := by
    intro a ha
    rw [List.getD_eq_getElem?_getD, getElem?_idxOf ha]
    rfl
  have hb := hclosed a ha b hab.2
  constructor
  · rintro ⟨_, hno⟩
    refine ⟨hab, ?_⟩
    rintro ⟨c, hac, hcb⟩
    exact hno ⟨_, edge_follows hclosed hac, follows_transGen hclosed hcb⟩
  · rintro ⟨_, hno⟩
    refine ⟨edge_follows hclosed hab, ?_⟩
    rintro ⟨k, hak, hkb⟩
    have h1 := follows_edge hak
    have h2 := transGen_follows hkb
    rw [hname ha] at h1
    rw [hname hb] at h2
    exact hno ⟨_, h1, h2⟩

/-! ## The result -/

/-- The chains that are left. -/
theorem prune_edge (hkeys : keys.Nodup) {chains : Name → List Name} (hclosed : Closed keys chains)
    (hnodup : ∀ x ∈ keys, (chains x).Nodup) {adj : Mat} (hbin : adj.Binary)
    (hones : Ones keys.length adj = Follows keys chains) :
    Edge keys (prune keys (transReduct keys.length adj) chains) = Reduct (Edge keys chains) := by
  funext a b
  refine propext ?_
  have hentry : ∀ ha : a ∈ keys, b ∈ chains a →
      (transReduct keys.length adj (keys.idxOf a) (keys.idxOf b) ≠ 0 ↔ Reduct (Edge keys chains) a b) := by
    intro ha hmem
    have hb := hclosed a ha b hmem
    rw [transReduct_ne_zero hbin (List.idxOf_lt_length_of_mem ha) (List.idxOf_lt_length_of_mem hb), hones,
      reduct_follows hclosed ha ⟨ha, hmem⟩]
  constructor
  · rintro ⟨ha, hmem⟩
    have hold := mem_of_prune _ hnodup hmem
    have hpos := getElem?_idxOf (hclosed a ha b hold)
    rw [prune_mem hkeys _ hnodup (getElem?_idxOf ha) hpos] at hmem
    exact (hentry ha hold).mp hmem.2
  · intro h
    obtain ⟨ha, hmem⟩ := h.1
    have hpos := getElem?_idxOf (hclosed a ha b hmem)
    exact ⟨ha, (prune_mem hkeys _ hnodup (getElem?_idxOf ha) hpos).mpr ⟨hmem, (hentry ha hmem).mpr h⟩⟩

/-- No walk is as long as the keys are many. -/
theorem no_long_walk {chains : Name → List Name} (hacyclic : Acyclic (Edge keys chains)) {fuel : ℕ}
    (hfuel : keys.length ≤ fuel) (i : ℕ) (hi : i < keys.length) (x : ℕ) : ¬Walk (Follows keys chains) fuel i x := by
  intro hw
  have hrange : ∀ i j, Follows keys chains i j → i ∈ Finset.range keys.length ∧ j ∈ Finset.range keys.length := by
    rintro i j ⟨a, b, ha, hb, _⟩
    exact ⟨Finset.mem_range.mpr (List.getElem?_eq_some_iff.mp ha).1, Finset.mem_range.mpr (List.getElem?_eq_some_iff.mp hb).1⟩
  have := hw.length_lt (follows_acyclic hacyclic) hrange (Finset.mem_range.mpr hi)
  rw [Finset.card_range] at this
  omega

/-- The order goes along the chains. -/
theorem order_along (hkeys : keys.Nodup) {chains : Name → List Name} (hclosed : Closed keys chains) {depths : ℕ → ℕ}
    (hdepths : ∀ i j, Follows keys chains i j → depths i < depths j) {a b : Name} (h : TransGen (Edge keys chains) a b) :
    (actionsOrder keys depths).idxOf a < (actionsOrder keys depths).idxOf b := by
  induction h with
  | single h => exact actionsOrder_lt hkeys h.1 (hclosed _ h.1 _ h.2) (hdepths _ _ (edge_follows hclosed h))
  | tail _ h ih => exact ih.trans (actionsOrder_lt hkeys h.1 (hclosed _ h.1 _ h.2) (hdepths _ _ (edge_follows hclosed h)))

theorem makeChains_reduced {fuel : ℕ} (hfuel : keys.length ≤ fuel) (text : Name → Name) (hkeys : keys.Nodup)
    (hclosed : Closed keys fun a => chainNames (text a)) (hnodup : ∀ a ∈ keys, (chainNames (text a)).Nodup)
    (hacyclic : Acyclic (Edge keys fun a => chainNames (text a))) :
    ∃ chains order, makeChains keys fuel text = some (chains, order) ∧
      (∀ a b, TransGen (Edge keys chains) a b ↔ TransGen (Edge keys fun a => chainNames (text a)) a b) ∧
      (∀ a b, Edge keys chains a b → ¬∃ c, TransGen (Edge keys chains) a c ∧ TransGen (Edge keys chains) c b) ∧
      order.Nodup ∧ (∀ a, a ∈ order ↔ a ∈ keys) ∧
      ∀ a b, TransGen (Edge keys chains) a b → order.idxOf a < order.idxOf b := by
  obtain ⟨adj, hadj, hbin, hones⟩ := adjacency_ones hkeys hclosed
  have hedge := prune_edge hkeys hclosed hnodup hbin hones
  have hclosed' : Closed keys (prune keys (transReduct keys.length adj) fun a => chainNames (text a)) :=
    fun a ha b hb => hclosed a ha b (mem_of_prune _ hnodup hb)
  have hacyclic' : Acyclic (Edge keys (prune keys (transReduct keys.length adj) fun a => chainNames (text a))) := by
    rw [hedge]
    exact fun a h => hacyclic a (reduct_mono h)
  obtain ⟨depths, hdepths, hlt⟩ := allDepths_lt hkeys hclosed' (no_long_walk hacyclic' hfuel)
  refine ⟨prune keys (transReduct keys.length adj) fun a => chainNames (text a), actionsOrder keys depths,
    ?_, ?_, ?_, actionsOrder_nodup hkeys, mem_actionsOrder depths, ?_⟩
  · unfold makeChains
    dsimp only
    rw [hadj, Option.bind_eq_bind, Option.bind_some, hdepths]
    rfl
  · intro a b
    rw [hedge]
    exact transGen_reduct_iff hacyclic (edge_keys hclosed) a b
  · intro a b
    rw [hedge]
    rintro h ⟨c, hac, hcb⟩
    exact reduct_minimal h hac hcb
  · intro a b
    exact order_along hkeys hclosed' hlt

end Reduce

theorem makeChains_reduced_three :
    ∃ chains order, makeChains sampleKeys 3 sampleText = some (chains, order) ∧ order.idxOf [97] < order.idxOf [99] := by
  have hclosed : Closed sampleKeys fun a => chainNames (sampleText a) := by
    unfold Closed
    decide
  have hacyclic : Acyclic (Edge sampleKeys fun a => chainNames (sampleText a)) := by
    refine Acyclic.of_rank (fun a => sampleKeys.idxOf a) ?_
    rintro a b ⟨ha, hb⟩
    have hup : ∀ a ∈ sampleKeys, ∀ b ∈ chainNames (sampleText a), sampleKeys.idxOf a < sampleKeys.idxOf b := by decide
    exact hup a ha b hb
  obtain ⟨chains, order, hrun, hclosure, -, -, -, hbefore⟩ :=
    makeChains_reduced (le_refl 3) sampleText (by decide) hclosed (by decide) hacyclic
  have hstep : Edge sampleKeys (fun a => chainNames (sampleText a)) [97] [99] := ⟨by decide, by decide⟩
  exact ⟨chains, order, hrun, hbefore _ _ ((hclosure _ _).mpr (.single hstep))⟩

end Mand.Yang
