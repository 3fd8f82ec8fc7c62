import Mand.Notify.Forget

/-! # A request for a subtree

`rpc_recursive_param_notify` against `rpc_param_notify` for every path of the subtree. -/
namespace Mand.Notify
open Mand.Store Mand.Index Mand.Msg Mand.Server Mand.Save
set_option autoImplicit false

variable {full : Prop} {S : Schema} {st st' : DmStore} {slot level : ℕ} {ref : Ref}

/-! ## Paths of a subtree -/

/-- What an id may lead to from here. -/
def belowBase (S : Schema) (st : DmStore) (kw : ℕ) : Base → Set Loc
  | .table a => below S st kw a
  | .object a i => {l | ∃ t rows, st.tree a i = some t ∧ instanceRows st.fuel t = some rows ∧ l ∈ belowRows S st kw rows}

/-- A selector leads to what is below the place where it starts. -/
theorem Resolves.below {n : ℕ} {sel : Selector} {kw : ℕ} {base : Base} {r0 : Option Ref} {r : Ref}
    (h : Resolves S st n sel kw base r0 r) (hw : HeapWf full nowhere S st) (p : Selector)
    (hbase : Reached S st base kw p) : r0 = some r ∨ r.value ∈ belowBase S st kw base := by
  induction h generalizing p with
  | done n kw base r => exact .inl rfl
  | zero n sel kw base r => exact .inl rfl
  | row n id sel kw a i ref x b c v r hid htree hfind hval hpar hc _ ih =>
    right
    obtain ⟨rfl, hb, t, kw0, e, tb, ht, hp, -⟩ := hbase.enterRow hw htree hfind hval hc
    obtain ⟨o, rows, rfl, hobj, -⟩ := hw.tree ht hp (fun hx => hx) htree
    obtain ⟨found, hfound, hiff⟩ := instanceNode_spec hw.lt hobj id
    rw [hfind] at hfound
    cases hfound
    have hmem : c ∈ rows := ((hiff c).mp rfl).1
    have henum := instanceRows_lists hobj.lists (ObjWf.length_lt_fuel hw hobj)
    refine ⟨some o, rows, htree, henum, c, hmem, ?_⟩
    rcases ih _ hb with hr | hr
    · cases hr
      exact .inl rfl
    · obtain ⟨m, hm, rfl⟩ := Option.map_eq_some_iff.mp hval
      exact .inr ⟨m, c, hm, hc, hr⟩
  | token n id sel kw a ref e v b r hid he hval hpar htype hc _ ih =>
    right
    rcases ih _ (hbase.enterToken hw hid he hval hpar htype hc) with hr | hr
    · cases hr
      exact .slot kw a (id - 1) e v he hval
    · exact .token kw a (id - 1) e v b _ he hval htype hc hr
  | object n id sel kw a ref e v x r hid he hval hpar htype hc _ ih =>
    right
    rcases ih _ (hbase.enterObject hid he htype) with hr | ⟨t, rows, htree, hrows, r', hr', hr⟩
    · cases hr
      exact .slot kw a (id - 1) e v he hval
    · obtain ⟨v', hv', hc'⟩ := (tree_eq_some st a (id - 1) t).mp htree
      rcases hr with hr | ⟨m, b, hm, hb, hr⟩
      · rw [hr]
        exact .row kw a (id - 1) e v' t rows r' he hv' htype hc' hrows hr'
      · exact .inRow kw a (id - 1) e v' t rows r' m b _ he hv' htype hc' hrows hr' hm hb hr
  | leaf n id sel kw a ref e v hid he hval hpar htoken hobject =>
    exact .inr (.slot kw a (id - 1) e v he hval)

/-- Where a selector goes on behind a reference to a container. -/
inductive After (S : Schema) (st : DmStore) : Ref → ℕ → Base → Prop
  | token (ref : Ref) (a i : ℕ) (v : DmValue) (b : Addr) (hval : ref.value = .slot a i) (hv : st.slot a i = some v)
    (htype : ref.elem.type = .token) (hb : v.content = .table (some b)) : After S st ref ref.elem.table (.table b)
  | object (ref : Ref) (a i : ℕ) (hval : ref.value = .slot a i) (htype : ref.elem.type = .object) :
    After S st ref ref.elem.table (.object a i)
  | row (ref : Ref) (r : Addr) (v : DmValue) (b : Addr) (hval : ref.value = .row r)
    (hv : st.value (.row r) = some v) (htype : ref.elem.type = .object) (hb : v.content = .table (some b)) :
    After S st ref ref.elem.table (.table b)

/-- What is behind a reference is below it. -/
theorem After.below {kw : ℕ} {base : Base} (h : After S st ref kw base) : belowBase S st kw base ⊆ belowRef S st ref := by
  intro l hl
  cases h with
  | token a i v b hval hv htype hb => exact .inl ⟨a, i, v, hval, hv, .inl ⟨htype, b, hb, hl⟩⟩
  | object a i hval htype =>
    obtain ⟨t, rows, htree, hrows, hl⟩ := hl
    obtain ⟨v, hv, hc⟩ := (tree_eq_some st a i t).mp htree
    exact .inl ⟨a, i, v, hval, hv, .inr ⟨htype, t, rows, hc, hrows, hl⟩⟩
  | row r v b hval hv htype hb =>
    obtain ⟨n, hn, rfl⟩ := Option.map_eq_some_iff.mp hv
    exact .inr ⟨r, n, b, hval, hn, hb, hl⟩

/-- The ids that are read of a selector, from where `n` ids are left. -/
def idsOf (n : ℕ) (sel : Selector) : Selector := (sel.take n).takeWhile (· ≠ 0)

theorem idsOf_cons {n id : ℕ} (hid : id ≠ 0) (sel : Selector) : idsOf (n + 1) (id :: sel) = id :: idsOf n sel := by
  unfold idsOf
  rw [List.take_succ_cons, List.takeWhile_cons_of_pos (by simpa using hid)]

/-- A longer selector goes on where the shorter one ends. -/
theorem Resolves.split {n : ℕ} {sel : Selector} {kw : ℕ} {base : Base} {r0 : Option Ref} {r r' : Ref}
    (h : Resolves S st n sel kw base r0 r) (hafter : ∀ r1, r0 = some r1 → After S st r1 kw base)
    (hcon : r.elem.container = true) (rest : Selector) (h' : Resolves S st n (idsOf n sel ++ rest) kw base r0 r') :
    ∃ n' kw' base', After S st r kw' base' ∧ Resolves S st n' rest kw' base' (some r) r' := by
  induction h with
  | done n kw base r => exact ⟨n + 1, kw, base, hafter r rfl, h'⟩
  | zero n sel kw base r => exact ⟨n + 1, kw, base, hafter r rfl, h'⟩
  | row n id sel kw a i ref x b c v r hid htree hfind hval hpar hc _ ih =>
    rw [idsOf_cons hid] at h'
    cases h' with
    | zero => exact absurd rfl hid
    | row _ _ _ _ _ _ _ x' b' c' v' _ _ htree' hfind' hval' _ hc' h' =>
      rw [htree] at htree'
      cases htree'
      rw [hfind] at hfind'
      cases hfind'
      rw [hval] at hval'
      cases hval'
      rw [hc] at hc'
      cases hc'
      refine ih ?_ hcon h'
      intro r1 hr1
      cases hr1
      cases hafter ref rfl with
      | object _ _ hv htype => exact .row _ b v c rfl hval htype hc
  | token n id sel kw a ref e v b r hid he hval hpar htype hc _ ih =>
    rw [idsOf_cons hid] at h'
    cases h' with
    | zero => exact absurd rfl hid
    | token _ _ _ _ _ _ e' v' b' _ _ he' hval' _ _ hc' h' =>
      rw [he] at he'
      cases he'
      rw [hval] at hval'
      cases hval'
      rw [hc] at hc'
      cases hc'
      refine ih ?_ hcon h'
      intro r1 hr1
      cases hr1
      exact .token _ a (id - 1) v b rfl hval htype hc
    | object _ _ _ _ _ _ e' _ _ _ _ he' _ _ htype' _ h' =>
      rw [he] at he'
      cases he'
      exact absurd (htype.symm.trans htype') (by decide)
    | leaf _ _ _ _ _ _ e' _ _ he' _ _ htoken _ =>
      rw [he] at he'
      cases he'
      exact absurd htype htoken
  | object n id sel kw a ref e v x r hid he hval hpar htype hc _ ih =>
    rw [idsOf_cons hid] at h'
    cases h' with
    | zero => exact absurd rfl hid
    | token _ _ _ _ _ _ e' _ _ _ _ he' _ _ htype' _ h' =>
      rw [he] at he'
      cases he'
      exact absurd (htype.symm.trans htype') (by decide)
    | object _ _ _ _ _ _ e' v' x' _ _ he' hval' _ _ hc' h' =>
      rw [he] at he'
      cases he'
      refine ih ?_ hcon h'
      intro r1 hr1
      cases hr1
      exact .object _ a (id - 1) rfl htype
    | leaf _ _ _ _ _ _ e' _ _ he' _ _ _ hobject =>
      rw [he] at he'
      cases he'
      exact absurd htype hobject
  | leaf n id sel kw a ref e v hid he hval hpar htoken hobject =>
    simp [DmElement.container, htoken, hobject] at hcon

theorem After.reached {q : Selector} {kw : ℕ} {base : Base} (h : After S st ref kw base) (hat : ref.At S st q)
    (hw : HeapWf full nowhere S st) (hpar : Intact st) : ∃ p, Reached S st base kw p := by
  cases hat with
  | slot a i t k e stType ht hp he =>
    cases h with
    | token _ _ v b hval hv htype hb =>
      cases hval
      obtain ⟨tb, htb, hpb⟩ := HeapWf.tokenAt hw hpar ht hp he htype hv hb
      exact ⟨tb.id, .table b tb e.table htb hpb⟩
    | object _ _ hval htype =>
      cases hval
      exact ⟨_, .object a i t k e ht hp he htype⟩
    | row _ _ _ hval => cases hval
  | row a i t k e r id tr ht hp he hobj htr hid hrow hmem =>
    cases h with
    | token _ _ _ _ hval => cases hval
    | object _ _ hval => cases hval
    | row _ v b hval hv htype hb =>
      cases hval
      obtain ⟨t0, n, ht0, hn, -, -, hc, -⟩ := hrow
      have hnode : st.value (.row r) = some n.value := by
        show (st.node r).map RowNode.value = _
        rw [DmStore.node_eq_some.mpr ⟨t0, ht0, hn⟩, Option.map_some]
      rw [hnode] at hv
      cases hv
      rw [hc] at hb
      cases hb
      have hpr : S.place tr.id = some (e.table, false) := by
        have hsplit : tr.id = t.id ++ [i + 1] ++ [id] := by
          rw [hid]
          simp
        rw [hsplit]
        exact place_inst (place_object hp he hobj)
      exact ⟨tr.id, .table r tr e.table htr hpr⟩

/-- `q` leads to a leaf, an object or an instance in the subtree of `p`. -/
def PathBelow (S : Schema) (st : DmStore) (p q : Selector) (r : Ref) : Prop :=
  selIds p <+: q ∧ st.getElementRef S q = some (some r) ∧ r.elem.type ≠ .token

/-- A request for the subtree comes to what such a path leads to. -/
theorem PathBelow.levelled {p q : Selector} {r : Ref} (h : PathBelow S st p q r) (hw : HeapWf full nowhere S st)
    (hpar : Intact st) (href : st.getElementRef S p = some (some ref)) (hcon : ref.elem.container = true) :
    r.value ∈ levelled S st ref := by
  obtain ⟨⟨rest, rfl⟩, hr, htype⟩ := h
  obtain ⟨n, kw, base, hafter, hrest⟩ := Resolves.split ((resolves_iff p ref).mp href) (fun _ h => nomatch h) hcon rest
    ((resolves_iff _ r).mp hr)
  obtain ⟨q, hreached⟩ := hafter.reached (getElementRef_path hw href) hw hpar
  rcases Resolves.below hrest hw q hreached with hsame | hbelow
  · cases hsame
    exact .inl ⟨rfl, htype⟩
  · exact .inr (hafter.below hbelow)

/-! ## One request for all paths, and one for each -/

/-- `rpc_param_notify` for paths that lead to something with a level. -/
theorem paramNotifyLoop_eq (level : ℕ) (hslot : slot ≠ 0) (qs : List Selector) (P : Set Loc)
    (hqs : ∀ q ∈ qs, ∃ r, st.getElementRef S q = some (some r) ∧ r.elem.type ≠ .token) :
    ∃ Q, paramNotifyLoop S slot level qs (st.mapAt P (withLevel slot level)) =
        some (.ok, st.mapAt Q (withLevel slot level)) ∧ P ⊆ Q ∧
      ∀ q ∈ qs, ∀ r, st.getElementRef S q = some (some r) → r.value ∈ Q := by
  induction qs generalizing P with
  | nil => exact ⟨P, rfl, subset_rfl, fun q hq => absurd hq List.not_mem_nil⟩
  | cons q qs ih =>
    obtain ⟨r, hr, htype⟩ := hqs q List.mem_cons_self
    have hr' := getElementRef_mapAt (P := P) (withLevel_relabels slot level) hr
    obtain ⟨Q, hQ, hsub, hall⟩ := ih (P ∪ {r.value}) fun q' hq' => hqs q' (List.mem_cons_of_mem q hq')
    refine ⟨Q, ?_, Set.subset_union_left.trans hsub, ?_⟩
    · unfold paramNotifyLoop
      rw [dmSetNotifyBySelector_eq hslot hr' htype, Option.bind_eq_bind, Option.bind_some,
        mapAt_mapAt (withLevel_idem slot level)]
      exact hQ
    · intro q' hq' r' hr'
      cases hq' with
      | head =>
        rw [hr] at hr'
        cases hr'
        exact hsub (.inr rfl)
      | tail _ hq' => exact hall q' hq' r' hr'

/-- The level of a slot at a location. -/
def levelAt (st : DmStore) (l : Loc) (slot : ℕ) : Option ℕ := (st.value l).map fun v => levelOf v.notify slot

theorem levelAt_mapAt {P : Set Loc} {l : Loc} {v : DmValue} (hv : st.value l = some v) (hl : l ∈ P) :
    levelAt (st.mapAt P (withLevel slot level)) l slot = some (level % 4) := by
  unfold levelAt
  rw [mapAt_value, hv, Option.map_some, Option.map_some, mapIn, if_pos hl, levelOf_withLevel, if_pos rfl]

/-- The levels that requests for paths leave. -/
theorem rpcParamNotify_levels {p : Selector} (hslot : slot ≠ 0) (notify : ℕ) (qs : List Selector)
    (hqs : ∀ q ∈ qs, ∃ r, PathBelow S st p q r) :
    ∃ st', rpcParamNotify S slot notify qs st = some (.ok, st') ∧ ∀ q ∈ qs, ∀ r, PathBelow S st p q r →
      levelAt st' r.value slot = some (if notify ≠ 0 then activeNotify else passiveNotify) := by
  have hqs' : ∀ q ∈ qs, ∃ r, st.getElementRef S q = some (some r) ∧ r.elem.type ≠ .token := by
    intro q hq
    obtain ⟨r, -, hr⟩ := hqs q hq
    exact ⟨r, hr⟩
  obtain ⟨Q, hQ, -, hall⟩ := paramNotifyLoop_eq (if notify ≠ 0 then activeNotify else passiveNotify) hslot qs ∅ hqs'
  rw [mapAt_empty] at hQ
  refine ⟨_, by rw [rpcParamNotify, if_neg hslot, hQ], ?_⟩
  intro q hq r hr
  obtain ⟨v, hv, -⟩ := getElementRef_checked q r hr.2.1
  rw [levelAt_mapAt hv (hall q hq r hr.2.1)]
  by_cases hn : notify ≠ 0
  · simp only [if_pos hn, activeNotify]
  · simp only [if_neg hn, passiveNotify]

/-- The request for a subtree. -/
theorem rpcRecursiveParamNotify_eq {p : Selector} (hw : HeapWf full nowhere S st) (hpar : Intact st)
    (hslot : slot ≠ 0) (notify : ℕ) (href : st.getElementRef S p = some (some ref))
    (hcon : ref.elem.container = true) :
    rpcRecursiveParamNotify S slot notify p st =
      some (.ok, st.mapAt (levelled S st ref) (withLevel slot notify)) := by
  unfold rpcRecursiveParamNotify dmSetNotifyBySelectorRecursive
  rw [if_neg hslot]
  simp only [href, Option.bind_eq_bind, Option.bind_some, hcon, Bool.true_eq_false, if_false,
    setNotifyBelow_eq hw hpar hslot href hcon]

/-- The subtree request leaves the levels that requests for paths of the subtree leave, whichever they are,
and nothing else changes. -/
def AsSingles (S : Schema) (slot notify : ℕ) (p : Selector) (ref : Ref) (st st' : DmStore) : Prop :=
  (∀ qs : List Selector, (∀ q ∈ qs, ∃ r, PathBelow S st p q r) →
    ∃ st'', rpcParamNotify S slot notify qs st = some (.ok, st'') ∧
      ∀ q ∈ qs, ∀ r, PathBelow S st p q r → levelAt st' r.value slot = levelAt st'' r.value slot) ∧
    ∀ l, l ∉ subtree S st ref → st'.value l = st.value l

/-- Both handlers agree on the levels that they translate alike. -/
theorem recursive_as_singles_iff (S : Schema) (st : DmStore) (hw : StoreWf full S st) (hpar : Intact st) (slot : ℕ)
    (hslot : 1 ≤ slot ∧ slot ≤ 15) (notify : ℕ) (p : Selector) (ref : Ref)
    (href : st.getElementRef S p = some (some ref)) (hcon : ref.elem.container = true) :
    ∃ st', rpcRecursiveParamNotify S slot notify p st = some (.ok, st') ∧
      (AsSingles S slot notify p ref st st' ↔ notify % 4 = 2 ∨ ∀ q r, ¬PathBelow S st p q r) := by
  have hslot0 : slot ≠ 0 := by omega
  have hlevel : ∀ q r, PathBelow S st p q r →
      levelAt (st.mapAt (levelled S st ref) (withLevel slot notify)) r.value slot = some (notify % 4) := by
    intro q r hr
    obtain ⟨v, hv, -⟩ := getElementRef_checked q r hr.2.1
    exact levelAt_mapAt hv (hr.levelled hw hpar href hcon)
  refine ⟨_, rpcRecursiveParamNotify_eq hw hpar hslot0 notify href hcon, ?_, ?_⟩
  · intro h
    by_cases hne : ∀ q r, ¬PathBelow S st p q r
    · exact .inr hne
    · left
      push Not at hne
      obtain ⟨q, r, hqr⟩ := hne
      have hone : ∀ q' ∈ [q], ∃ r, PathBelow S st p q' r := by
        intro q' hq'
        rw [List.mem_singleton.mp hq']
        exact ⟨r, hqr⟩
      obtain ⟨st1, hst1, hsame⟩ := h.1 [q] hone
      obtain ⟨st2, hst2, hlev⟩ := rpcParamNotify_levels hslot0 notify [q] hone
      rw [hst1] at hst2
      cases hst2
      have heq := hsame q List.mem_cons_self r hqr
      rw [hlevel q r hqr, hlev q List.mem_cons_self r hqr, Option.some.injEq] at heq
      by_cases hn : notify = 0
      · rw [hn] at heq
        cases heq
      · rw [if_pos hn] at heq
        exact heq
  · intro h
    refine ⟨?_, ?_⟩
    · intro qs hqs
      obtain ⟨st'', hst'', hlev⟩ := rpcParamNotify_levels hslot0 notify qs hqs
      refine ⟨st'', hst'', ?_⟩
      intro q hq r hr
      rcases h with hn | hnone
      · have hn0 : notify ≠ 0 := by
          intro h0
          rw [h0] at hn
          cases hn
        rw [hlevel q r hr, hlev q hq r hr, if_pos hn0, hn]
        rfl
      · exact absurd hr (hnone q r)
    · intro l hl
      rw [mapAt_value]
      cases st.value l with
      | none => rfl
      | some v => rw [Option.map_some, mapIn, if_neg fun hmem => hl (levelled_subset S st ref hmem)]

/-- The object of the rows in the small data model. -/
def sampleRowsRef : Ref := ⟨4, { sampleLeaf .object with key := [114], max := 9 }, .object, .table 0, .slot 0 3⟩

theorem recursive_as_singles_sample :
    ∃ st', rpcRecursiveParamNotify sampleSchema 3 2 [4] sampleStore = some (.ok, st') ∧
      (AsSingles sampleSchema 3 2 [4] sampleRowsRef sampleStore st' ↔
        2 % 4 = 2 ∨ ∀ q r, ¬PathBelow sampleSchema sampleStore [4] q r) := by
  have hw : StoreWf False sampleSchema sampleStore := init_wf rfl
  exact recursive_as_singles_iff sampleSchema sampleStore hw sampleStore_intact 3 (by decide) 2 [4] sampleRowsRef rfl rfl

/-- A request for passive notifications makes a subtree passive and a single path active. -/
theorem recursive_passive_differs :
    ∃ st', rpcRecursiveParamNotify sampleSchema 1 1 [4] sampleStore = some (.ok, st') ∧
      ¬AsSingles sampleSchema 1 1 [4] sampleRowsRef sampleStore st' := by
  refine ⟨_, rfl, ?_⟩
  intro h
  have hpath : PathBelow sampleSchema sampleStore [4] [4] sampleRowsRef := ⟨List.prefix_rfl, rfl, by decide⟩
  obtain ⟨st'', hst'', hsame⟩ := h.1 [[4]] fun q hq => ⟨sampleRowsRef, by rw [List.mem_singleton.mp hq]; exact hpath⟩
  cases hst''
  exact absurd (hsame [4] List.mem_cons_self sampleRowsRef hpath) (by decide)

end Mand.Notify
