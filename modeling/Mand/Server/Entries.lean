import Mand.Store.Same
import Mand.Server.Fresh

/-! # The entries of an array, one after the other

What ends the loop of `dmconfig_set_array_cb` before its last entry, and what its two forms have in common. -/
namespace Mand.Server
open Mand.Store Mand.Index Mand.Msg
set_option autoImplicit false

variable {S : Schema} {env : Env} {st st' st1 : DmStore} {sel : Selector} {ref : Ref} {a i r c : ℕ} {e : DmElement}

/-! ## Counts -/

theorem tree_setSlot_keep {v : DmValue} {b j : ℕ} (hv : ∃ w, st.slot b j = some w ∧ w.content = v.content)
    (h : st.setSlot b j v = some st') (a i : ℕ) : st'.tree a i = st.tree a i := by
  obtain ⟨w, hw, hc⟩ := hv
  unfold DmStore.tree
  rw [DmStore.slot_setSlot h]
  by_cases hab : a = b ∧ i = j
  · obtain ⟨rfl, rfl⟩ := hab
    rw [if_pos ⟨rfl, rfl⟩, hw]
    simp only [Option.bind_eq_bind, Option.bind_some, hc]
  · rw [if_neg hab]

theorem insertInstance_count {o : ObjTree} (htree : st.tree a i = some (some o)) (h : insertInstance st a i r = some st') :
    ∃ o', st'.tree a i = some (some o') ∧ o'.tree.cnt = countUp o.tree.cnt := by
  simp only [insertInstance, Option.bind_eq_bind, Option.bind_eq_some_iff] at h
  obtain ⟨x, hx, o0, rfl, tree', hins, n, -, st1, h1, st2, h2, h3⟩ := h
  rw [htree] at hx
  cases hx
  refine ⟨_, move_tree h1 h2 h3, ?_⟩
  simp only [InstTree.insert, Option.bind_eq_bind, Option.bind_eq_some_iff, Option.some.injEq] at hins
  obtain ⟨idx, -, rfl⟩ := hins
  rfl

/-- A row is refused if the object is full, and counted if it is not. -/
theorem addInstanceBySelector_count {id : ℕ} {x : Option Addr} {o : ObjTree} (hw : HeapWf False nowhere S st)
    (href : st.getElementRef S sel = some (some ref)) (hval : ref.value = .slot a i) (hobj : ref.elem.type = .object)
    (htree : st.tree a i = some (some o)) (h : addInstanceBySelector S st sel id = some (x, st')) :
    (x = none ∧ ref.elem.max ≤ o.tree.cnt) ∨ ∃ r, x = some r ∧ o.tree.cnt < ref.elem.max ∧
      ∃ o', st'.tree a i = some (some o') ∧ o'.tree.cnt = countUp o.tree.cnt := by
  have hty := getElementRef_slotType href hval hobj
  simp only [addInstanceBySelector, href, Option.bind_eq_bind, Option.bind_some, hty, ne_eq, not_true_eq_false, if_false,
    hval, Option.bind_eq_some_iff, Prod.exists] at h
  obtain ⟨res, st0, hadd, h⟩ := h
  by_cases hmax : ref.elem.max ≤ o.tree.cnt
  · refine .inl ⟨?_, hmax⟩
    simp only [addInstance, hobj, href, ensureTree, htree, hmax, ne_eq, not_true_eq_false, if_false, if_true,
      Option.bind_eq_bind, Option.bind_some, Option.some.injEq, Prod.mk.injEq] at hadd
    rw [← hadd.1] at h
    cases h
    rfl
  · refine .inr ?_
    simp only [addInstance, hobj, href, ensureTree, htree, hmax, ne_eq, not_true_eq_false, if_false,
      Option.bind_eq_bind, Option.bind_some, Option.bind_eq_some_iff, Option.some.injEq, Prod.mk.injEq, Prod.exists] at hadd
    obtain ⟨id', -, r, st2, halloc, st3, hins, rfl, rfl⟩ := hadd
    simp only [Option.bind_eq_some_iff, Option.some.injEq, Prod.mk.injEq] at h
    obtain ⟨n, -, st4, h4, v, hv, st5, h5, rfl, rfl⟩ := h
    obtain ⟨w, hw0, hc⟩ := (tree_eq_some st a i _).mp htree
    obtain ⟨t, ht, -⟩ := DmStore.slot_eq_some.mp hw0
    have hlt := hw.lt a t ht
    have hplace : S.place (selIds sel) = some (ref.elem.table, true) := by
      have hat := getElementRef_selIds hw href (by simp [DmElement.container, hobj])
      generalize selIds sel = q at hat
      cases hat with
      | row b j t kw e r0 id tr ht hp he _ htr hrid hrow hmem => cases hval
      | slot b j t kw e stType ht hp he => exact place_object hp he hobj
    obtain ⟨-, -, hold, -⟩ := allocInstanceNode_spec (P := fun _ => True) hw hplace halloc
    have htree2 : st2.tree a i = some (some o) := by
      refine (tree_eq_some st2 a i _).mpr ⟨w, ?_, hc⟩
      rw [DmStore.slot_eq, hold a hlt, ← DmStore.slot_eq]
      exact hw0
    obtain ⟨o', htree3, hcnt⟩ := insertInstance_count htree2 hins
    refine ⟨r, rfl, Nat.lt_of_not_le hmax, o', ?_, hcnt⟩
    have hmarked : v.content = (markUpdated v).content := rfl
    rw [tree_setSlot_keep ⟨v, hv, hmarked⟩ h5]
    unfold DmStore.tree
    rw [DmStore.slot_setNode h4]
    exact htree3

theorem updateInstanceNodeIndex_count {o : ObjTree} (htree : st.tree a i = some (some o))
    (h : updateInstanceNodeIndex st r = some st') : ∃ o', st'.tree a i = some (some o') ∧ o'.tree.cnt = o.tree.cnt := by
  simp only [updateInstanceNodeIndex, Option.bind_eq_bind, Option.bind_eq_some_iff] at h
  obtain ⟨n, -, h⟩ := h
  cases hroot : n.root with
  | none =>
    rw [hroot] at h
    cases h
    exact ⟨o, htree, rfl⟩
  | some x =>
    rw [hroot] at h
    simp only [Option.bind_eq_some_iff] at h
    obtain ⟨y, hy, o0, rfl, tree', hupd, hset⟩ := h
    simp only [InstTree.updateAll, Option.bind_eq_bind, Option.bind_eq_some_iff, Option.some.injEq] at hupd
    obtain ⟨idx, -, rfl⟩ := hupd
    obtain ⟨v, -, hslot⟩ := setTree_eq_some hset
    by_cases hx : a = x.1 ∧ i = x.2
    · obtain ⟨rfl, rfl⟩ := hx
      rw [htree] at hy
      cases hy
      refine ⟨{ o with tree := { o.tree with idx := idx } }, (tree_eq_some st' x.1 x.2 _).mpr
        ⟨{ v with content := .inst (some { o with tree := { o.tree with idx := idx } }) }, ?_, rfl⟩, rfl⟩
      rw [DmStore.slot_setSlot hslot, if_pos ⟨rfl, rfl⟩]
    · refine ⟨o, ?_, rfl⟩
      unfold DmStore.tree
      rw [DmStore.slot_setSlot hslot, if_neg hx]
      exact htree

/-! ## One entry -/

/-- An object that counts `c` rows. -/
structure Counted (S : Schema) (st : DmStore) (sel : Selector) (ref : Ref) (a i c : ℕ) : Prop where
  wf : HeapWf False nowhere S st
  found : st.getElementRef S sel = some (some ref)
  value : ref.value = .slot a i
  object : ref.elem.type = .object
  count : ∃ o, st.tree a i = some (some o) ∧ o.tree.cnt = c

theorem Counted.later {c' : ℕ} (hc : Counted S st sel ref a i c) (hk : Kept False S st st')
    (hcount : ∃ o, st'.tree a i = some (some o) ∧ o.tree.cnt = c') : Counted S st' sel ref a i c' :=
  ⟨hk.wf, getElementRef_keeps hc.found hk.keeps hc.wf hk.wf
    (getElementRef_selIds hc.wf hc.found (by simp [DmElement.container, hc.object])) fun _ _ => trivial,
    hc.value, hc.object, hcount⟩

theorem Counted.add {id : ℕ} {x : Option Addr} (hc : Counted S st sel ref a i c) (hid : id < 2 ^ 16)
    (h : addInstanceBySelector S st sel id = some (x, st')) : (x = none ∧ ref.elem.max ≤ c) ∨
      ∃ r, x = some r ∧ r ≠ a ∧ c < ref.elem.max ∧ Counted S st' sel ref a i (countUp c) := by
  obtain ⟨o, htree, rfl⟩ := hc.count
  obtain ⟨hw', hk, hres⟩ := addInstanceBySelector_spec hc.wf hid (fun hf => hf.elim) h
  rcases addInstanceBySelector_count hc.wf hc.found hc.value hc.object htree h with hfull | ⟨r, rfl, hmax, hcount⟩
  · exact .inl hfull
  · obtain ⟨_, _, _, _, _, _, -, -, -, -, -, -, -, hadded⟩ := hres r rfl
    obtain ⟨w, hw0, -⟩ := (tree_eq_some st a i _).mp htree
    obtain ⟨t, ht, -⟩ := DmStore.slot_eq_some.mp hw0
    exact .inr ⟨r, rfl, Nat.ne_of_gt (lt_of_lt_of_le (hc.wf.lt a t ht) hadded.fresh), hmax, hc.later ⟨hw', hk⟩ hcount⟩

theorem setEntry_ok_iff {clear : Bool} {avp : Avp} {res : SetResult}
    (h : setEntry env st e r clear avp = some (res, st')) : res = .ok ↔ ∀ err, env.avp2value e avp ≠ .error err := by
  simp only [setEntry, Option.bind_eq_bind, Option.bind_eq_some_iff] at h
  obtain ⟨old, -, u, -, h⟩ := h
  cases hv : env.avp2value e avp with
  | error err =>
    rw [hv] at h
    simp only [Option.bind_eq_some_iff, Option.some.injEq, Prod.mk.injEq] at h
    obtain ⟨st1, -, rfl, -⟩ := h
    exact ⟨fun hok => (by cases hok), fun hno => absurd rfl (hno err)⟩
  | ok v =>
    rw [hv] at h
    simp only [Option.bind_eq_some_iff, Option.some.injEq, Prod.mk.injEq] at h
    obtain ⟨st1, -, st2, -, rfl, -⟩ := h
    exact ⟨fun _ err hno => (by cases hno), fun _ => rfl⟩

theorem Counted.setEntry {clear : Bool} {avp : Avp} {res : SetResult} (hc : Counted env.schema st sel ref a i c)
    (hl : LeafAt env.schema st r 0 e) (hra : r ≠ a) (h : setEntry env st e r clear avp = some (res, st')) :
    Counted env.schema st' sel ref a i c := by
  refine hc.later (setEntry_kept not_false hc.wf hl h) ?_
  obtain ⟨o, htree, hcnt⟩ := hc.count
  have tree_other {v : DmValue} {st1 : DmStore} (hset : st.setSlot r 0 v = some st1) : st1.tree a i = some (some o) := by
    unfold DmStore.tree
    rw [DmStore.slot_setSlot hset, if_neg fun hx => hra hx.1.symm]
    exact htree
  simp only [Server.setEntry, Option.bind_eq_bind, Option.bind_eq_some_iff] at h
  obtain ⟨old, -, u, -, h⟩ := h
  cases hv : env.avp2value e avp with
  | error err =>
    rw [hv] at h
    simp only [Option.bind_eq_some_iff, Option.some.injEq, Prod.mk.injEq] at h
    obtain ⟨st2, hset, -, rfl⟩ := h
    exact ⟨o, tree_other hset, hcnt⟩
  | ok v =>
    rw [hv] at h
    simp only [Option.bind_eq_some_iff, Option.some.injEq, Prod.mk.injEq] at h
    obtain ⟨st2, hset, st3, hupd, -, rfl⟩ := h
    obtain ⟨o', htree', hcnt'⟩ := updateInstanceNodeIndex_count (tree_other hset) hupd
    exact ⟨o', htree', hcnt'.trans hcnt⟩

/-- Whether the value is cleared before does not matter to a new row. -/
theorem setEntry_same (hfresh : st.slot r 0 = some (freshValue e)) (h : SameInstances st st') {avp avp' : Avp}
    (hconv : env.avp2value e avp = env.avp2value e avp') :
    (setEntry env st e r true avp).map bareSnd = (setEntry env st' e r false avp').map bareSnd := by
  have hslot := h.slot r 0
  rw [hfresh] at hslot
  simp only [setEntry, hfresh, ← hconv, Option.bind_eq_bind, Option.bind_some, if_true, Bool.false_eq_true, if_false]
  cases hw : st'.slot r 0 with
  | none => simp [hw] at hslot
  | some w =>
    have hbare : bare (freshValue e) = bare w := by simpa [hw] using hslot
    obtain ⟨hcontent, hparity⟩ := bare_eq.mp hbare
    have hassert : w.parityAssert = some () := by
      unfold DmValue.parityAssert
      rw [← hparity]
      rfl
    have hfine : (freshValue e).parityAssert = some () := rfl
    simp only [hfine, hassert, Option.bind_some]
    cases env.avp2value e avp with
    | error err =>
      refine bind_same (h.setSlot ?_ r 0) fun s t hst => congrArg (fun x => some (_, x)) hst
      exact bare_eq.mpr ⟨hcontent, hparity⟩
    | ok v =>
      refine bind_same (h.setSlot ?_ r 0) fun s t hst => ?_
      · exact bare_eq.mpr ⟨rfl, rfl⟩
      · exact bind_same (updateInstanceNodeIndex_same hst r) fun s t hst => congrArg (fun x => some (_, x)) hst

/-! ## All entries -/

theorem setEntries_append {last : Option SetResult} {clear : Bool} {y : SetResult × DmStore} (more avps : List Avp) (id : ℕ)
    (st : DmStore) (h : setEntries env sel e clear none id avps st = some y) :
    setEntries env sel e clear last id (avps ++ more) st = some y := by
  induction avps generalizing id st with
  | nil => cases h
  | cons avp avps ih =>
    simp only [setEntries, List.cons_append, Option.bind_eq_bind, Option.bind_eq_some_iff, Prod.exists] at h ⊢
    obtain ⟨x, st1, hadd, h⟩ := h
    refine ⟨x, st1, hadd, ?_⟩
    cases x with
    | none => exact h
    | some r =>
      simp only [Option.bind_eq_some_iff, Prod.exists] at h ⊢
      obtain ⟨n, hn, res, st2, hset, h⟩ := h
      refine ⟨n, hn, res, st2, hset, ?_⟩
      by_cases hres : res = .ok
      · rw [if_pos hres] at h ⊢
        exact ih _ _ h
      · rw [if_neg hres] at h ⊢
        exact h

theorem setEntries_none_ok {clear : Bool} {avps : List Avp} {id : ℕ} {res : SetResult}
    (h : setEntries env sel e clear none id avps st = some (res, st')) : res ≠ .ok := by
  induction avps generalizing id st with
  | nil => cases h
  | cons avp avps ih =>
    simp only [setEntries, Option.bind_eq_bind, Option.bind_eq_some_iff, Prod.exists] at h
    obtain ⟨x, st1, -, h⟩ := h
    cases x with
    | none =>
      cases h
      exact fun hok => by cases hok
    | some r =>
      simp only [Option.bind_eq_some_iff, Prod.exists] at h
      obtain ⟨n, -, res1, st2, -, h⟩ := h
      by_cases hres : res1 = .ok
      · rw [if_pos hres] at h
        exact ih h
      · rw [if_neg hres] at h
        cases h
        exact hres

/-- The object is full before all entries are in it, or an entry has no value. -/
def Stops (env : Env) (e : DmElement) (max c : ℕ) (avps : List Avp) : Prop :=
  (∃ k < avps.length, max ≤ countUp^[k] c) ∨ ∃ avp ∈ avps, ∃ err, env.avp2value e avp = .error err

theorem stops_cons {max : ℕ} {avp : Avp} {avps : List Avp} : Stops env e max c (avp :: avps) ↔
    max ≤ c ∨ (∃ err, env.avp2value e avp = .error err) ∨ Stops env e max (countUp c) avps := by
  simp only [Stops, List.length_cons, List.exists_mem_cons_iff]
  constructor
  · rintro (⟨k, hk, hmax⟩ | h | h)
    · cases k with
      | zero => exact .inl hmax
      | succ k => exact .inr (.inr (.inl ⟨k, by omega, hmax⟩))
    · exact .inr (.inl h)
    · exact .inr (.inr (.inr h))
  · rintro (hmax | h | ⟨k, hk, hmax⟩ | h)
    · exact .inl ⟨0, by omega, hmax⟩
    · exact .inr (.inl h)
    · exact .inl ⟨k + 1, by omega, hmax⟩
    · exact .inr (.inr h)

/-- A loop that goes on past these entries comes to its end within them exactly if one of them stops it. -/
theorem setEntries_prefix_iff {last : Option SetResult} {clear : Bool} {y : SetResult × DmStore} (more avps : List Avp)
    (id c : ℕ) (st : DmStore) (hc : Counted env.schema st sel ref a i c) (ha : ArrayAt env.schema sel e) (hid : id < 2 ^ 16)
    (h : setEntries env sel e clear last id (avps ++ more) st = some y) :
    setEntries env sel e clear none id avps st = some y ↔ Stops env e ref.elem.max c avps := by
  induction avps generalizing id c st with
  | nil =>
    refine ⟨fun hnil => (nomatch hnil), ?_⟩
    rintro (⟨k, hk, -⟩ | ⟨avp, havp, -⟩)
    · exact absurd hk (Nat.not_lt_zero k)
    · cases havp
  | cons avp avps ih =>
    rw [stops_cons]
    simp only [setEntries, List.cons_append, Option.bind_eq_bind, Option.bind_eq_some_iff, Prod.exists] at h
    obtain ⟨x, st1, hadd, h⟩ := h
    simp only [setEntries, hadd, Option.bind_eq_bind, Option.bind_some]
    rcases hc.add hid hadd with ⟨rfl, hmax⟩ | ⟨r, rfl, hra, hmax, hc1⟩
    · exact ⟨fun _ => .inl hmax, fun _ => h⟩
    · simp only [Option.bind_eq_some_iff, Prod.exists] at h
      obtain ⟨n, hn, res, st2, hset, h⟩ := h
      have hc2 := hc1.setEntry (arrayRow_leaf not_false ha hid hc.wf hadd).1 hra hset
      have hiff := setEntry_ok_iff hset
      simp only [hn, hset, Option.bind_some]
      by_cases hres : res = .ok
      · rw [if_pos hres] at h ⊢
        rw [ih _ _ _ hc2 (Nat.mod_lt _ (by decide)) h]
        refine ⟨fun hs => .inr (.inr hs), ?_⟩
        rintro (hfull | ⟨err, herr⟩ | hs)
        · omega
        · exact absurd herr (hiff.mp hres err)
        · exact hs
      · rw [if_neg hres] at h ⊢
        refine ⟨fun _ => .inr (.inl ?_), fun _ => h⟩
        by_contra hno
        exact hres (hiff.mpr fun err herr => hno ⟨err, herr⟩)

/-- Entries with the same values leave the same instances, cleared or not. -/
theorem setEntries_same {last : Option SetResult} {avps avps' : List Avp} (id : ℕ) (st st' : DmStore)
    (havps : List.Forall₂ (fun avp avp' => env.avp2value e avp = env.avp2value e avp') avps avps')
    (hw : HeapWf False nowhere env.schema st) (ha : ArrayAt env.schema sel e) (hid : id < 2 ^ 16)
    (h : SameInstances st st') : (setEntries env sel e true last id avps st).map bareSnd =
      (setEntries env sel e false last id avps' st').map bareSnd := by
  induction havps generalizing id st st' with
  | nil =>
    cases last with
    | none => rfl
    | some res => exact congrArg (fun x => some (res, x)) h
  | @cons avp avp' avps avps' hconv havps ih =>
    simp only [setEntries, Option.bind_eq_bind]
    have hadds := addInstanceBySelector_same (S := env.schema) h sel id
    cases hadd : addInstanceBySelector env.schema st sel id with
    | none =>
      cases hadd' : addInstanceBySelector env.schema st' sel id with
      | none => rfl
      | some y => simp [hadd, hadd'] at hadds
    | some x =>
      cases hadd' : addInstanceBySelector env.schema st' sel id with
      | none => simp [hadd, hadd'] at hadds
      | some y =>
        obtain ⟨row, s⟩ := x
        obtain ⟨row', t⟩ := y
        obtain ⟨rfl, hst⟩ : row = row' ∧ SameInstances s t := by
          simpa [hadd, hadd', bareSnd, SameInstances] using hadds
        simp only [Option.bind_some]
        cases row with
        | none => exact congrArg (fun x => some (_, x)) hst
        | some r =>
          obtain ⟨hw1, -, -⟩ := addInstanceBySelector_spec (P := fun _ => True) hw hid (fun hf => hf.elim) hadd
          have hl := (arrayRow_leaf not_false ha hid hw hadd).1
          have hfresh := addInstanceBySelector_first hw ha hid hadd
          refine bind_same (hst.node r) fun n m hnm => ?_
          obtain ⟨-, hinst, -, -⟩ := relabelNode_bare_eq.mp hnm
          have hsets : (setEntry env s e r true avp).map bareSnd = _ := setEntry_same hfresh hst hconv
          cases hset : setEntry env s e r true avp with
          | none =>
            cases hset' : setEntry env t e r false avp' with
            | none => rfl
            | some y => simp [hset, hset'] at hsets
          | some x =>
            cases hset' : setEntry env t e r false avp' with
            | none => simp [hset, hset'] at hsets
            | some y =>
              obtain ⟨res, s2⟩ := x
              obtain ⟨res', t2⟩ := y
              obtain ⟨rfl, hst2⟩ : res = res' ∧ SameInstances s2 t2 := by
                simpa [hset, hset', bareSnd, SameInstances] using hsets
              simp only [Option.bind_some]
              by_cases hres : res = .ok
              · rw [if_pos hres, if_pos hres, hinst]
                exact ih _ _ _ (setEntry_kept not_false hw1 hl hset).wf (Nat.mod_lt _ (by decide)) hst2
              · rw [if_neg hres, if_neg hres]
                exact congrArg (fun x => some (_, x)) hst2

end Mand.Server
