import Mand.Lib.Digraph
import Mand.Yang.Chains
import Mathlib.Data.List.Nodup

/-! # Depths

`depth_first` goes along every walk, so a depth is the length of a walk and none that ends there is longer. The order
is by depths. -/
namespace Mand.Yang
open Mand.Digraph
set_option autoImplicit false

/-- The chains lead from one index to another. -/
def Follows (keys : List Name) (chains : Name → List Name) (i j : ℕ) : Prop :=
  ∃ a b, keys[i]? = some a ∧ keys[j]? = some b ∧ b ∈ chains a

/-- The names in the chains of the keys are keys. -/
def Closed (keys : List Name) (chains : Name → List Name) : Prop := ∀ a ∈ keys, ∀ b ∈ chains a, b ∈ keys

/-- The position of a key. -/
theorem idxOf?_iff {keys : List Name} (hkeys : keys.Nodup) {a : Name} {i : ℕ} :
    keys.idxOf? a = some i ↔ keys[i]? = some a := by
  rw [List.idxOf?_eq_some_iff, List.getElem?_eq_some_iff]
  refine exists_congr fun hi => ⟨And.left, fun ha => ⟨ha, ?_⟩⟩
  intro j hj hja
  have := hkeys.getElem_inj_iff.mp (hja.trans ha.symm)
  omega

theorem getElem?_idxOf {keys : List Name} {a : Name} (ha : a ∈ keys) : keys[keys.idxOf a]? = some a := by
  rw [List.getElem?_eq_getElem (List.idxOf_lt_length_of_mem ha), List.getElem_idxOf]

theorem idxOf_of_getElem? {keys : List Name} (hkeys : keys.Nodup) {a : Name} {i : ℕ} (h : keys[i]? = some a) :
    keys.idxOf a = i := by
  obtain ⟨hi, rfl⟩ := List.getElem?_eq_some_iff.mp h
  exact hkeys.idxOf_getElem i hi

/-! ## The search -/

section Search
variable {keys : List Name} {chains : Name → List Name}

/-- What a search from `i` at a depth does to the depths. -/
structure Raised (R : ℕ → ℕ → Prop) (i depth : ℕ) (depths depths' : ℕ → ℕ) : Prop where
  mono : ∀ x, depths x ≤ depths' x
  reach : ∀ k x, Walk R k i x → depth + k ≤ depths' x
  walk : ∀ x, depths' x = depths x ∨ ∃ k, Walk R k i x ∧ depths' x = depth + k

/-- The loop over the names of one chain. -/
theorem depthFirst_children {fuel i depth : ℕ}
    (hsearch : ∀ j depths, Follows keys chains i j → ∃ depths', depthFirst keys chains fuel j (depth + 1) depths = some depths' ∧
      Raised (Follows keys chains) j (depth + 1) depths depths')
    {bs : List Name} (hbs : ∀ b ∈ bs, ∃ j, keys.idxOf? b = some j ∧ Follows keys chains i j) (depths : ℕ → ℕ) :
    ∃ depths', bs.foldlM (fun depths b => (keys.idxOf? b).bind fun j => depthFirst keys chains fuel j (depth + 1) depths)
        depths = some depths' ∧
      (∀ x, depths x ≤ depths' x) ∧
      (∀ b ∈ bs, ∀ j, keys.idxOf? b = some j → ∀ k x, Walk (Follows keys chains) k j x → depth + (k + 1) ≤ depths' x) ∧
      ∀ x, depths' x = depths x ∨ ∃ k, Walk (Follows keys chains) k i x ∧ depths' x = depth + k := by
  induction bs generalizing depths with
  | nil => exact ⟨depths, rfl, fun x => le_refl _, by simp, fun x => .inl rfl⟩
  | cons b bs ih =>
    obtain ⟨j, hj, hij⟩ := hbs b (.head bs)
    obtain ⟨depths1, hrun1, hraised⟩ := hsearch j depths hij
    obtain ⟨depths2, hrun2, hmono2, hreach2, hwalk2⟩ := ih (fun b hb => hbs b (.tail _ hb)) depths1
    refine ⟨depths2, ?_, fun x => (hraised.mono x).trans (hmono2 x), ?_, ?_⟩
    · rw [List.foldlM_cons, hj]
      exact (congrArg (· >>= _) hrun1).trans hrun2
    · intro c hc j' hj' k x hw
      rcases List.mem_cons.mp hc with rfl | hc
      · obtain rfl : j = j' := by rw [hj] at hj'; exact Option.some.inj hj'
        have := hraised.reach k x hw
        have := hmono2 x
        omega
      · exact hreach2 c hc j' hj' k x hw
    · intro x
      rcases hwalk2 x with h2 | h2
      · rcases hraised.walk x with h1 | ⟨k, hw, hk⟩
        · exact .inl (h2.trans h1)
        · exact .inr ⟨k + 1, .head hij hw, by omega⟩
      · exact .inr h2

/-- The bound on the recursion is enough where no walk is as long. -/
theorem depthFirst_raised (hkeys : keys.Nodup) (hclosed : Closed keys chains) {fuel i : ℕ} (hi : i < keys.length)
    (hfuel : ∀ x, ¬Walk (Follows keys chains) fuel i x) (depth : ℕ) (depths : ℕ → ℕ) :
    ∃ depths', depthFirst keys chains fuel i depth depths = some depths' ∧
      Raised (Follows keys chains) i depth depths depths' := by
  induction fuel generalizing i depth depths with
  | zero => exact absurd (.refl i) (hfuel i)
  | succ fuel ih =>
    have hkey : keys[i]? = some keys[i] := List.getElem?_eq_getElem hi
    have hchild : ∀ b ∈ chains keys[i], ∃ j, keys.idxOf? b = some j ∧ Follows keys chains i j := by
      intro b hb
      have hpos := getElem?_idxOf (hclosed _ (List.getElem_mem hi) b hb)
      exact ⟨_, (idxOf?_iff hkeys).mpr hpos, _, b, hkey, hpos, hb⟩
    have hsearch : ∀ j depths, Follows keys chains i j →
        ∃ depths', depthFirst keys chains fuel j (depth + 1) depths = some depths' ∧
          Raised (Follows keys chains) j (depth + 1) depths depths' := by
      intro j depths hij
      obtain ⟨_, _, _, hj, _⟩ := id hij
      exact ih (List.getElem?_eq_some_iff.mp hj).1 (fun x hw => hfuel x (.head hij hw)) (depth + 1) depths
    obtain ⟨depths', hrun, hmono, hreach, hwalk⟩ := depthFirst_children hsearch hchild
      (if depths i < depth then Function.update depths i depth else depths)
    have hstart : ∀ x, depths x ≤ (if depths i < depth then Function.update depths i depth else depths) x := by
      intro x
      split
      · rw [Function.update_apply]
        split
        · next hx => rw [hx]; omega
        · exact le_refl _
      · exact le_refl _
    have hself : depth ≤ (if depths i < depth then Function.update depths i depth else depths) i := by
      split
      · simp
      · omega
    refine ⟨depths', ?_, fun x => (hstart x).trans (hmono x), ?_, ?_⟩
    · rw [depthFirst, hkey]
      exact hrun
    · intro k x hw
      cases hw with
      | refl => exact hself.trans (hmono i)
      | @head k _ j _ hij hw =>
        obtain ⟨a, b, ha, hb, hmem⟩ := hij
        obtain rfl : keys[i] = a := by rw [hkey] at ha; exact Option.some.inj ha
        exact hreach b hmem j ((idxOf?_iff hkeys).mpr hb) k x hw
    · intro x
      rcases hwalk x with h | h
      · by_cases hlt : depths i < depth
        · rw [if_pos hlt, Function.update_apply] at h
          by_cases hx : x = i
          · rw [if_pos hx] at h
            exact .inr ⟨0, hx ▸ .refl x, h⟩
          · rw [if_neg hx] at h
            exact .inl h
        · rw [if_neg hlt] at h
          exact .inl h
      · exact .inr h

/-- What the searches from some keys make of the depths. -/
structure Measured (R : ℕ → ℕ → Prop) (starts : List ℕ) (depths : ℕ → ℕ) : Prop where
  reach : ∀ i ∈ starts, ∀ k x, Walk R k i x → k ≤ depths x
  walk : ∀ x, depths x = 0 ∨ ∃ k i, i ∈ starts ∧ Walk R k i x ∧ depths x = k

theorem Measured.step {R : ℕ → ℕ → Prop} {starts : List ℕ} {i : ℕ} {depths depths' : ℕ → ℕ} (h : Measured R starts depths)
    (hr : Raised R i 0 depths depths') : Measured R (i :: starts) depths' := by
  constructor
  · intro s hs k x hw
    rcases List.mem_cons.mp hs with rfl | hs
    · have := hr.reach k x hw
      omega
    · exact (h.reach s hs k x hw).trans (hr.mono x)
  · intro x
    rcases hr.walk x with hx | ⟨k, hw, hx⟩
    · rw [hx]
      rcases h.walk x with h0 | ⟨k, s, hs, hw, hk⟩
      · exact .inl h0
      · exact .inr ⟨k, s, .tail _ hs, hw, hk⟩
    · exact .inr ⟨k, i, .head _, hw, by omega⟩

/-- The loop over the keys. -/
theorem searches_measured (hkeys : keys.Nodup) (hclosed : Closed keys chains) {fuel : ℕ}
    (hfuel : ∀ i < keys.length, ∀ x, ¬Walk (Follows keys chains) fuel i x) {names : List Name} (hnames : ∀ a ∈ names, a ∈ keys)
    {starts : List ℕ} {depths : ℕ → ℕ} (h : Measured (Follows keys chains) starts depths) :
    ∃ depths', names.foldlM (fun depths a => (keys.idxOf? a).bind fun i => depthFirst keys chains fuel i 0 depths) depths =
        some depths' ∧
      ∃ starts', Measured (Follows keys chains) starts' depths' ∧ (∀ i ∈ starts, i ∈ starts') ∧
        ∀ a ∈ names, keys.idxOf a ∈ starts' := by
  induction names generalizing starts depths with
  | nil => exact ⟨depths, rfl, starts, h, fun i hi => hi, by simp⟩
  | cons a names ih =>
    have ha := hnames a (.head names)
    have hidx := (idxOf?_iff hkeys).mpr (getElem?_idxOf ha)
    have hlt := List.idxOf_lt_length_of_mem ha
    obtain ⟨depths1, hrun1, hraised⟩ := depthFirst_raised hkeys hclosed hlt (hfuel _ hlt) 0 depths
    obtain ⟨depths2, hrun2, starts2, h2, hsub, hall⟩ := ih (fun b hb => hnames b (.tail _ hb)) (h.step hraised)
    refine ⟨depths2, ?_, starts2, h2, fun i hi => hsub i (.tail _ hi), ?_⟩
    · rw [List.foldlM_cons, hidx]
      exact (congrArg (· >>= _) hrun1).trans hrun2
    · intro b hb
      rcases List.mem_cons.mp hb with rfl | hb
      · exact hsub _ (.head _)
      · exact hall b hb

/-- Depths go up along the chains. -/
theorem allDepths_lt (hkeys : keys.Nodup) (hclosed : Closed keys chains) {fuel : ℕ}
    (hfuel : ∀ i < keys.length, ∀ x, ¬Walk (Follows keys chains) fuel i x) :
    ∃ depths, allDepths keys chains fuel = some depths ∧ ∀ i j, Follows keys chains i j → depths i < depths j := by
  have hzero : Measured (Follows keys chains) [] fun _ => 0 := ⟨by simp, fun x => .inl rfl⟩
  obtain ⟨depths, hrun, starts, hm, -, hall⟩ := searches_measured hkeys hclosed hfuel (fun a ha => ha) hzero
  refine ⟨depths, hrun, ?_⟩
  intro i j hij
  rcases hm.walk i with h0 | ⟨k, s, hs, hw, hk⟩
  · obtain ⟨a, _, ha, _⟩ := id hij
    have hi : i ∈ starts := by
      have := hall a (List.mem_of_getElem? ha)
      rwa [idxOf_of_getElem? hkeys ha] at this
    have := hm.reach i hi 1 j (.head hij (.refl j))
    omega
  · have := hm.reach s hs (k + 1) j (hw.snoc hij)
    omega

end Search

/-! ## The order -/

section Order
variable {keys : List Name} (depths : ℕ → ℕ)

theorem mem_uniqueDepths {d : ℕ} : d ∈ uniqueDepths keys depths ↔ ∃ i < keys.length, depths i = d := by
  unfold uniqueDepths
  rw [(List.perm_insertionSort _ _).mem_iff, List.mem_dedup, List.mem_map]
  simp only [List.mem_range]

theorem uniqueDepths_nodup : (uniqueDepths keys depths).Nodup :=
  (List.perm_insertionSort _ _).nodup_iff.mpr (List.nodup_dedup _)

theorem uniqueDepths_pairwise : (uniqueDepths keys depths).Pairwise (· ≤ ·) := List.pairwise_insertionSort _ _

/-- The keys at one depth. -/
theorem mem_level {d : ℕ} {a : Name} :
    a ∈ (keys.zipIdx.filter fun p => depths p.2 = d).map Prod.fst ↔ ∃ i, keys[i]? = some a ∧ depths i = d := by
  simp only [List.mem_map, List.mem_filter, decide_eq_true_eq, Prod.exists, List.mem_zipIdx_iff_getElem?]
  constructor
  · rintro ⟨b, i, ⟨hi, hd⟩, rfl⟩
    exact ⟨i, hi, hd⟩
  · rintro ⟨i, hi, hd⟩
    exact ⟨a, i, ⟨hi, hd⟩, rfl⟩

theorem mem_actionsOrder (a : Name) : a ∈ actionsOrder keys depths ↔ a ∈ keys := by
  unfold actionsOrder
  rw [List.mem_flatMap]
  simp only [mem_level, mem_uniqueDepths]
  constructor
  · rintro ⟨_, _, i, hi, _⟩
    exact List.mem_of_getElem? hi
  · intro ha
    have hlt := List.idxOf_lt_length_of_mem ha
    exact ⟨_, ⟨_, hlt, rfl⟩, _, getElem?_idxOf ha, rfl⟩

variable {depths}

theorem actionsOrder_nodup (hkeys : keys.Nodup) : (actionsOrder keys depths).Nodup := by
  unfold actionsOrder
  rw [List.nodup_flatMap]
  constructor
  · intro d _
    refine List.Nodup.sublist (List.Sublist.map Prod.fst List.filter_sublist) ?_
    rwa [List.zipIdx_map_fst]
  · refine (uniqueDepths_nodup depths).imp ?_
    intro d d' hne
    simp only [Function.onFun, List.Disjoint, mem_level]
    rintro a ⟨i, hi, rfl⟩ ⟨j, hj, rfl⟩
    rw [← idxOf_of_getElem? hkeys hi, ← idxOf_of_getElem? hkeys hj] at hne
    exact hne rfl

theorem actionsOrder_pairwise (hkeys : keys.Nodup) :
    (actionsOrder keys depths).Pairwise fun a b => depths (keys.idxOf a) ≤ depths (keys.idxOf b) := by
  have hlevel : ∀ {d : ℕ} {a : Name}, a ∈ (keys.zipIdx.filter fun p => depths p.2 = d).map Prod.fst →
      depths (keys.idxOf a) = d := by
    intro d a h
    obtain ⟨i, hi, hd⟩ := (mem_level depths).mp h
    rw [idxOf_of_getElem? hkeys hi, hd]
  unfold actionsOrder
  rw [List.pairwise_flatMap]
  constructor
  · intro d _
    refine List.pairwise_of_forall_mem_list ?_
    intro a ha b hb
    rw [hlevel ha, hlevel hb]
  · refine (uniqueDepths_pairwise depths).imp ?_
    intro d d' hle a ha b hb
    rwa [hlevel ha, hlevel hb]

/-- A key of lesser depth comes first. -/
theorem actionsOrder_lt (hkeys : keys.Nodup) {a b : Name} (ha : a ∈ keys) (hb : b ∈ keys)
    (h : depths (keys.idxOf a) < depths (keys.idxOf b)) :
    (actionsOrder keys depths).idxOf a < (actionsOrder keys depths).idxOf b := by
  have ha' := List.idxOf_lt_length_of_mem ((mem_actionsOrder depths a).mpr ha)
  have hb' := List.idxOf_lt_length_of_mem ((mem_actionsOrder depths b).mpr hb)
  by_contra hle
  rcases Nat.lt_or_eq_of_le (Nat.le_of_not_lt hle) with hlt | heq
  · have := List.pairwise_iff_getElem.mp (@actionsOrder_pairwise keys depths hkeys) _ _ hb' ha' hlt
    rw [List.getElem_idxOf, List.getElem_idxOf] at this
    omega
  · have := getElem?_idxOf ((mem_actionsOrder depths b).mpr hb)
    rw [heq, getElem?_idxOf ((mem_actionsOrder depths a).mpr ha), Option.some.injEq] at this
    rw [this] at h
    omega

end Order
end Mand.Yang
