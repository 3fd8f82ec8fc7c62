import Mand.Server.Keeping

/-! # The counts of an object

An object counts its rows three times: in its tree, in the first index and in a counter of the table.
The three agree as long as no number is given twice. -/
namespace Mand.Server
open Mand.Store Mand.Index Mand.Msg
set_option autoImplicit false

/-! ## The number of a new row -/

/-- `dm_get_instance_node_by_id` finds nothing. -/
def unused (st : DmStore) (o : ObjTree) (k : ℕ) : Bool :=
  match st.instanceNode (some o) k with
  | some none => true
  | _ => false

/-- One of the `n` numbers from `k` on is not used. -/
def someUnused (st : DmStore) (o : ObjTree) : ℕ → ℕ → Bool
  | 0, _ => false
  | n + 1, k => unused st o k || someUnused st o n (k + 1)

/-- The number of an add is not used; for an automatic one there is some number behind the class of `id`
that is not, or zero, where the search wraps around. -/
def numberUnused (st : DmStore) (o : ObjTree) (id : ℕ) : Bool :=
  if id &&& dmIdMask = 0 then unused st o 0 || someUnused st o (2 ^ 16 - 1 - id) (id + 1)
  else unused st o id

section Number
variable {full : Prop} {S : Schema} {st : DmStore} {kw a i : ℕ} {p : Selector} {o : ObjTree}
  {rows : List Addr}

/-- The loop of `dm_add_instance` stops at the first number that is free, or wraps around. -/
theorem freeIdLoop_free (hlt : ∀ y ∈ rows, (st.row y).inst < 2 ^ 16) (ix : Idx Addr)
    (hix : InstIdx st.row rows ix) (hfuel : rows.length < st.fuel) (id0 n id : ℕ) (x : Addr)
    (xs ys : List Addr) (hsplit : rows = xs ++ x :: ys) (hx : (st.row x).inst = id)
    (htaken : ∀ k, id0 < k → k ≤ id → ∃ y ∈ rows, (st.row y).inst = k)
    (hfree : ∃ k, (k = 0 ∨ id0 < k ∧ k < 2 ^ 16) ∧ ∀ y ∈ rows, (st.row y).inst ≠ k) (id' : ℕ)
    (h : freeIdLoop st ix n id (some x) = some id') : ∀ y ∈ rows, (st.row y).inst ≠ id' := by
  induction n generalizing id x xs ys with
  | zero =>
    unfold freeIdLoop at h
    cases h
  | succ n ih =>
    have hsorted := hix.sorted
    rw [hsplit, List.pairwise_append] at hsorted
    obtain ⟨-, hxys, hcross⟩ := hsorted
    have hidlt : id < 2 ^ 16 := by
      rw [← hx]
      exact hlt x (by rw [hsplit]; exact List.mem_append_right _ List.mem_cons_self)
    -- rows before `x` have smaller numbers
    have hbefore : ∀ y ∈ rows, y ∈ ys ∨ (st.row y).inst ≤ id := by
      intro y hy
      rw [hsplit] at hy
      rcases List.mem_append.mp hy with hy | hy
      · have := hcross y hy x List.mem_cons_self
        exact .inr (by omega)
      · rcases List.mem_cons.mp hy with rfl | hy
        · exact .inr (by omega)
        · exact .inl hy
    have hafter : ∀ y ∈ ys, id < (st.row y).inst := by
      intro y hy
      rw [← hx]
      exact (List.pairwise_cons.mp hxys).1 y hy
    unfold freeIdLoop at h
    simp only [Option.bind_eq_bind, hix.next x xs ys hsplit st.fuel hfuel, Option.bind_some] at h
    cases ys with
    | nil =>
      cases h
      by_cases hwrap : id + 1 < 2 ^ 16
      · rw [Nat.mod_eq_of_lt hwrap]
        intro y hy
        rcases hbefore y hy with hy | hle
        · cases hy
        · omega
      · -- every larger number is taken, so zero is free
        have hid : id + 1 = 2 ^ 16 := by omega
        rw [hid, Nat.mod_self]
        obtain ⟨k, hk, hkfree⟩ := hfree
        rcases hk with rfl | ⟨hk1, hk2⟩
        · exact hkfree
        · obtain ⟨y, hy, hyk⟩ := htaken k hk1 (by omega)
          exact absurd hyk (hkfree y hy)
    | cons z zs =>
      have hz := hafter z List.mem_cons_self
      have hzlt : (st.row z).inst < 2 ^ 16 :=
        hlt z (by rw [hsplit]; exact List.mem_append_right _ (List.mem_cons_of_mem _ List.mem_cons_self))
      have hmod : (id + 1) % 2 ^ 16 = id + 1 := Nat.mod_eq_of_lt (by omega)
      simp only [List.head?_cons, hmod] at h
      split at h
      · rename_i hgap
        cases h
        intro y hy
        rcases hbefore y hy with hy | hle
        · rcases List.mem_cons.mp hy with rfl | hy
          · omega
          · have := (List.pairwise_cons.mp (List.pairwise_cons.mp hxys).2).1 y hy
            omega
        · omega
      · rename_i hgap
        have hz1 : (st.row z).inst = id + 1 := by omega
        refine ih (id + 1) z (xs ++ [x]) zs (by rw [hsplit]; simp) hz1 ?_ h
        intro k hk1 hk2
        by_cases hke : k = id + 1
        · exact ⟨z, by rw [hsplit]; simp, by rw [hke]; exact hz1⟩
        · exact htaken k hk1 (by omega)

theorem unused_iff (hlt : ∀ b t, st.heap b = some t → b < st.next) (ho : ObjWf full S st kw p a i o rows)
    (k : ℕ) : unused st o k = true ↔ ∀ y ∈ rows, (st.row y).inst ≠ k := by
  obtain ⟨found, hfound, hiff⟩ := instanceNode_spec hlt ho k
  unfold unused
  rw [hfound]
  cases found with
  | none =>
    refine ⟨fun _ y hy hk => ?_, fun _ => rfl⟩
    have := (hiff y).mpr ⟨hy, hk⟩
    cases this
  | some x =>
    obtain ⟨hx, hk⟩ := (hiff x).mp rfl
    exact ⟨fun h => (nomatch h), fun h => absurd hk (h x hx)⟩

theorem someUnused_iff (n k : ℕ) :
    someUnused st o n k = true ↔ ∃ j, k ≤ j ∧ j < k + n ∧ unused st o j = true := by
  induction n generalizing k with
  | zero =>
    refine ⟨fun h => (nomatch h), ?_⟩
    rintro ⟨j, h1, h2, -⟩
    omega
  | succ n ih =>
    rw [someUnused, Bool.or_eq_true, ih]
    constructor
    · rintro (h | ⟨j, h1, h2, h⟩)
      · exact ⟨k, le_refl k, by omega, h⟩
      · exact ⟨j, by omega, by omega, h⟩
    · intro ⟨j, h1, h2, h⟩
      by_cases hjk : j = k
      · rw [hjk] at h
        exact .inl h
      · exact .inr ⟨j, by omega, by omega, h⟩

/-- The number that `dm_add_instance` picks is that of no row. -/
theorem newId_unused (hlt : ∀ b t, st.heap b = some t → b < st.next) (ho : ObjWf full S st kw p a i o rows)
    {id id' : ℕ} (hid : id < 2 ^ 16) (hfree : numberUnused st o id = true)
    (h : newId st o id = some id') : ∀ y ∈ rows, (st.row y).inst ≠ id' := by
  unfold newId at h
  unfold numberUnused at hfree
  by_cases hauto : id &&& dmIdMask = 0
  · rw [if_pos hauto] at h hfree
    simp only [Option.bind_eq_bind, Option.bind_eq_some_iff] at h
    obtain ⟨ti, hti, elem, helem, h⟩ := h
    have hsmall : id + 1 < 2 ^ 16 := by
      -- the low bits of the last number are set
      by_contra hge
      have hmax : id = 65535 := by omega
      rw [hmax] at hauto
      exact absurd hauto (by decide)
    rw [Nat.mod_eq_of_lt hsmall] at h helem
    obtain ⟨found, hfound, hiff⟩ := instanceNode_spec hlt ho (id + 1)
    rw [hfound] at helem
    cases helem
    have hex : ∃ k, (k = 0 ∨ id < k ∧ k < 2 ^ 16) ∧ ∀ y ∈ rows, (st.row y).inst ≠ k := by
      rw [Bool.or_eq_true, someUnused_iff] at hfree
      rcases hfree with h0 | ⟨j, h1, h2, hj⟩
      · exact ⟨0, .inl rfl, (unused_iff hlt ho 0).mp h0⟩
      · exact ⟨j, .inr ⟨by omega, by omega⟩, (unused_iff hlt ho j).mp hj⟩
    cases elem with
    | none =>
      unfold freeIdLoop at h
      cases h
      intro y hy hk
      have := (hiff y).mpr ⟨hy, hk⟩
      cases this
    | some x =>
      obtain ⟨hx, hxk⟩ := (hiff x).mp rfl
      obtain ⟨xs, ys, hsplit⟩ := List.append_of_mem hx
      have hlen := ObjWf.length_le hlt ho
      have hnum : ∀ y ∈ rows, (st.row y).inst < 2 ^ 16 := by
        intro y hy
        obtain ⟨t, n, ht, hn, -, hyid, -, hlt'⟩ := ho.isRow y hy
        rw [(ho.isRow y hy).inst ht hyid]
        exact hlt'
      obtain ⟨ix, rest, hidx, hix⟩ := ho.lists
      rw [hidx] at hti
      cases hti
      have hfuel : rows.length < st.fuel := by
        show rows.length < st.next + 2
        exact Nat.lt_succ_of_le (Nat.le_succ_of_le hlen)
      refine freeIdLoop_free hnum ix hix hfuel id _ (id + 1) x xs ys hsplit hxk ?_ hex id' h
      intro k hk1 hk2
      exact ⟨x, hx, by omega⟩
  · rw [if_neg hauto] at h hfree
    cases h
    exact (unused_iff hlt ho _).mp hfree

end Number

/-! ## Runs -/

/-- An add gets a number that is not used, and no array is set past the cache. -/
def countsKept (env : Env) (s : State) : Event → Bool
  | .set _ values => values.all fun x => ¬bypasses env.schema x.1 x.2 = true
  | .addInstance _ sel id =>
    match s.store.getElementRef env.schema sel with
    | some (some ⟨_, _, _, _, .slot a i⟩) =>
      match s.store.tree a i with
      | some (some o) => numberUnused s.store o (id % 2 ^ 16)
      | _ => true
    | _ => true
  | _ => true

/-- The rows of the object in slot `i` of table `a`, as its first index lists them. -/
structure Accounted (S : Schema) (st : DmStore) (a i : ℕ) (o : ObjTree) (rows : List Addr) : Prop where
  enumerated : ∃ ti ∈ o.tree.idx.head?, ((ti.idx.first st.fuel).bind fun x =>
    ti.idx.walk st.fuel st.fuel x) = some rows
  live : ∀ r, r ∈ rows ↔ ∃ n, st.node r = some n ∧ n.root = some (a, i)
  distinct : (rows.map fun r => (st.row r).inst).Nodup
  cnt : o.tree.cnt = rows.length
  counter : ∀ t kw c, st.heap a = some t → S.place t.id = some (kw, false) →
    counterOf (S.table kw).elems (i + 1) = some c →
    ∃ v, st.slot a c = some v ∧ v.content = .scalar (.uint rows.length)

section Run
variable {env : Env} {st st' : DmStore}

theorem HeapWf.accounted {S : Schema} (hw : HeapWf True nowhere S st) {a i : ℕ} {o : ObjTree}
    (htree : st.tree a i = some (some o)) : ∃ rows, Accounted S st a i o rows := by
  obtain ⟨v, hv, -⟩ := (tree_eq_some st a i _).mp htree
  obtain ⟨t, ht, -⟩ := DmStore.slot_eq_some.mp hv
  obtain ⟨kw, hk⟩ := hw.table a t ht
  obtain ⟨o0, rows, ho0, ho, -⟩ := hw.tree ht hk.place (fun hx => hx) htree
  cases ho0
  have hacc := ho.account trivial
  obtain ⟨ix, rest, hidx, hix⟩ := ho.lists
  have hfuel : rows.length < st.fuel := by
    show rows.length < st.next + 2
    exact Nat.lt_succ_of_le (Nat.le_succ_of_le (ObjWf.length_le hw.lt ho))
  refine ⟨rows, ⟨⟨instEntry, ix⟩, by rw [hidx]; exact rfl, hix.walk st.fuel hfuel⟩, ?_, ?_, hacc.cnt, ?_⟩
  · intro r
    constructor
    · intro hr
      obtain ⟨tr, n, htr, hn, hroot, -⟩ := ho.isRow r hr
      exact ⟨n, DmStore.node_eq_some.mpr ⟨tr, htr, hn⟩, hroot⟩
    · intro ⟨n, hn, hroot⟩
      exact hacc.all r n hn hroot
  · exact List.pairwise_map.mpr (hix.sorted.imp Nat.ne_of_lt)
  · intro t' kw' c ht' hp' hc
    rw [ht] at ht'
    cases ht'
    rw [hk.place] at hp'
    cases hp'
    exact hacc.value c hc

theorem countsKept_spares {s : State} {ev : Event} {P : Selector → Prop}
    (hwf : StateWf True env s.store s.cache) (h : countsKept env s ev = true)
    (hdel : ∀ key sel, ev = .delInstance key sel → ∀ q, env.schema.path sel <+: q → ¬P q) :
    Spares True P env s ev := by
  cases ev with
  | set key values =>
    intro x hx hby
    have hall : ∀ y ∈ values, ¬bypasses env.schema y.1 y.2 = true := by simpa [countsKept] using h
    exact absurd hby (hall x hx)
  | addInstance key sel id =>
    intro _ ref a i href hval o rows id' htree hl hnew
    obtain ⟨v, hv, -⟩ := (tree_eq_some s.store a i _).mp htree
    obtain ⟨t, ht, -⟩ := DmStore.slot_eq_some.mp hv
    obtain ⟨kw, hk⟩ := hwf.store.table a t ht
    obtain ⟨o0, rows0, ho0, ho, -⟩ := hwf.store.tree ht hk.place (fun hx => hx) htree
    cases ho0
    rw [hl.unique ho.lists]
    refine newId_unused hwf.store.lt ho (Nat.mod_lt _ (by decide)) ?_ hnew
    obtain ⟨rid, relem, rst, rbase, rval⟩ := ref
    cases hval
    simp only [countsKept, href, htree] at h
    exact h
  | delInstance key sel => exact hdel key sel rfl
  | _ => trivial

/-- The event deletes nothing that the path leads through. -/
def leavesPath (S : Schema) (q : Selector) : Event → Bool
  | .delInstance _ sel => ¬S.path sel <+: q
  | _ => true

theorem run_counts {P : Selector → Prop} (evs : List Event) (s s' : State)
    (hwf : StateWf True env s.store s.cache) (hc : allSteps env (countsKept env) s evs = true)
    (hdel : ∀ ev ∈ evs, ∀ key sel, ev = .delInstance key sel → ∀ q, env.schema.path sel <+: q → ¬P q)
    (hs : run env s evs = some s') :
    StateWf True env s'.store s'.cache ∧ Keeps P s.store s'.store := by
  induction evs generalizing s with
  | nil =>
    cases hs
    exact ⟨hwf, Keeps.refl P hwf.store.lt⟩
  | cons ev evs ih =>
    simp only [run, Option.bind_eq_bind, Option.bind_eq_some_iff, Prod.exists] at hs
    obtain ⟨rc, s1, h1, hs⟩ := hs
    simp only [allSteps, h1, Bool.and_eq_true] at hc
    have hsp : Spares True P env s ev :=
      countsKept_spares hwf hc.1 (hdel ev List.mem_cons_self)
    obtain ⟨hwf1, hk1⟩ := step_wf hwf hsp h1
    obtain ⟨hwf2, hk2⟩ := ih s1 hwf1 hc.2 (fun ev hev => hdel ev (List.mem_cons_of_mem _ hev)) hs
    exact ⟨hwf2, hk1.trans hk2⟩

/-- Row `r` is found with its number in the object that the selector refers to. -/
def FoundRow (S : Schema) (st : DmStore) (sel : Selector) (inst : ℕ) (r : Addr) : Prop :=
  ∃ ref a i o, st.getElementRef S sel = some (some ref) ∧ ref.value = .slot a i ∧
    st.tree a i = some (some o) ∧ st.instanceNode (some o) inst = some (some r)

/-- What was added is found while nothing on its path is deleted. -/
theorem added_found {S : Schema} {sel : Selector} {id : ℕ} {r : Addr} {n : RowNode} {st2 : DmStore}
    (hw : HeapWf True nowhere S st) (hid : id < 2 ^ 16)
    (hfree : ∀ ref a i, st.getElementRef S sel = some (some ref) → ref.value = .slot a i →
      NumberFree st a i id)
    (hadd : addInstanceBySelector S st sel id = some (some r, st2)) (hn : st2.node r = some n)
    (hw' : HeapWf True nowhere S st')
    (hk : Keeps (fun p => p <+: S.path sel ++ [n.inst]) st2 st') : FoundRow S st' sel n.inst r := by
  obtain ⟨hw2, hk2, hres⟩ := addInstanceBySelector_spec (P := fun _ => True) hw hid (fun _ => hfree) hadd
  obtain ⟨ref, a, i, t, kw, m, href, hval, ht, hp, he, hobj, hsel, hadded⟩ := hres r rfl
  have hnm := hadded.node
  rw [hn] at hnm
  cases hnm
  have hat := getElementRef_path hw href
  have hpath : S.path sel = t.id ++ [i + 1] := by
    rw [hat.unique (getElementRef_selIds hw href (by simp [DmElement.container, hobj])), hsel]
  -- right after the add
  have href2 := getElementRef_keeps href hk2 hw hw2 hat fun _ _ => trivial
  have hat2 := getElementRef_path hw2 href2
  obtain ⟨t2, ht2⟩ := hk2.table a t ht trivial
  have hid2 : t2.id = t.id := hk2.ids a t t2 ht ht2
  have hp2 : S.place t2.id = some (kw, false) := by rw [hid2, hp]
  have hreach : Reached S st2 (.object a i) ref.elem.table (t2.id ++ [i + 1]) :=
    .object a i t2 kw ref.elem ht2 hp2 he hobj
  obtain ⟨o, rows, o2, rows2, htree, htree2, ho, ho2, hnew, hcases⟩ := hadded.listed
  have hmem : r ∈ rows2 := by
    rcases hcases with ⟨⟨y, hy, hyn⟩, -⟩ | ⟨-, hperm⟩
    · exact absurd hyn (hfree ref a i href hval o rows n.inst htree ho.lists hnew y hy)
    · exact hperm.mem_iff.mpr List.mem_cons_self
  have hinst : (st2.row r).inst = n.inst := by
    unfold DmStore.row
    rw [hn]
    rfl
  obtain ⟨found, hfind, hiff⟩ := instanceNode_spec hw2.lt ho2 n.inst
  rw [(hiff r).mpr ⟨hmem, hinst⟩] at hfind
  obtain ⟨tr, k, htr, hk0, -, -, hcont, -⟩ := ho2.isRow r hmem
  have hkn := DmStore.node_eq_some.mpr ⟨tr, htr, hk0⟩
  rw [hn] at hkn
  cases hkn
  have hvalue : st2.value (.row r) = some n.value := by
    show (st2.node r).map RowNode.value = _
    rw [hn]
    rfl
  obtain ⟨w, hw2v, hwpar⟩ := getElementRef_checked sel ref href2
  rw [hval] at hw2v
  have hpre : ∀ q, q <+: t2.id ++ [i + 1] ++ [n.inst] → q <+: S.path sel ++ [n.inst] := by
    rw [hpath, hid2]
    exact fun q hq => hq
  obtain ⟨x', v', htree', hfind', -⟩ := hreach.keepsRow hk hw2 hw' htree2 hfind hvalue hcont hadded.parity
    hw2v hwpar hpre
  have href' := getElementRef_keeps href2 hk hw2 hw' hat2 fun q hq => hq.trans (List.prefix_append _ _)
  obtain ⟨o', ho'⟩ : ∃ o', x' = some o' := by
    cases x' with
    | none => cases hfind'
    | some o' => exact ⟨o', rfl⟩
  rw [ho'] at htree' hfind'
  exact ⟨ref, a, i, o', href', hval, htree', hfind'⟩

/-- The rows of every object have different numbers, its three counts agree, and a row that was added is
found until it is deleted, as long as every add gets a number that is not used. -/
theorem instance_accounting (env : Env) (s0 s : State) (h0 : init env = some s0) (evs : List Event)
    (hc : allSteps env (countsKept env) s0 evs = true) (hs : run env s0 evs = some s) :
    (∀ a i o, s.store.tree a i = some (some o) → ∃ rows, Accounted env.schema s.store a i o rows) ∧
    ∀ evs1 key sel id evs2 s1 r st2 n, evs = evs1 ++ .addInstance key sel id :: evs2 →
      run env s0 evs1 = some s1 →
      addInstanceBySelector env.schema s1.store sel (id % 2 ^ 16) = some (some r, st2) →
      st2.node r = some n →
      (∀ ev ∈ evs2, leavesPath env.schema (env.schema.path sel ++ [n.inst]) ev = true) →
      FoundRow env.schema s.store sel n.inst r := by
  have hwf0 : StateWf True env s0.store s0.cache := init_stateWf h0
  constructor
  · obtain ⟨hwf, -⟩ := run_counts (P := fun _ => False) evs s0 s hwf0 hc (fun _ _ _ _ _ _ _ hf => hf) hs
    exact fun a i o htree => HeapWf.accounted hwf.store htree
  · rintro evs1 key sel id evs2 s1 r st2 n rfl hs1 hadd hn hdel
    obtain ⟨hs2, hc1, hc2⟩ := run_split evs1 _ s0 s1 s hs1 hs hc
    obtain ⟨hwf1, -⟩ := run_counts (P := fun _ => False) evs1 s0 s1 hwf0 hc1 (fun _ _ _ _ _ _ _ hf => hf) hs1
    simp only [run, Option.bind_eq_bind, Option.bind_eq_some_iff, Prod.exists] at hs2
    obtain ⟨rc, s2, hstep, hs2⟩ := hs2
    simp only [allSteps, hstep, Bool.and_eq_true] at hc2
    have hsp : Spares True (fun _ => False) env s1 (.addInstance key sel id) :=
      countsKept_spares hwf1 hc2.1 (fun _ _ hev => (by cases hev))
    obtain ⟨hwf2, -⟩ := step_wf hwf1 hsp hstep
    have hst2 : s2.store = st2 := by
      simp only [step, hadd, Option.bind_eq_bind, Option.bind_eq_some_iff, Option.bind_some,
        Option.some.injEq, Prod.mk.injEq] at hstep
      obtain ⟨c, -, -, rfl⟩ := hstep
      rfl
    obtain ⟨hwf, hk⟩ := run_counts (P := fun p => p <+: env.schema.path sel ++ [n.inst]) evs2 s2 s hwf2
      hc2.2 (by
        rintro ev hev key' sel' rfl q hpre hq
        have hout := hdel _ hev
        simp only [leavesPath, decide_eq_true_eq] at hout
        exact hout (hpre.trans hq)) hs2
    rw [hst2] at hk
    exact added_found hwf1.store (Nat.mod_lt _ (by decide)) (hsp trivial) hadd hn hwf.store hk

end Run

/-- Rows with the numbers 1 and 7, of which the first is deleted. -/
def sampleAdds : List Event := [.accept, .startSession 1 1, .addInstance 1 [4] 0]

def sampleCounted : List Event := sampleAdds ++ [.addInstance 1 [4] 7, .delInstance 1 [4, 1]]

theorem instance_accounting_sample : ∃ s, run sampleEnv ⟨sampleStore, [], 0, 1, []⟩ sampleCounted = some s ∧
    (∀ a i o, s.store.tree a i = some (some o) → ∃ rows, Accounted sampleSchema s.store a i o rows) ∧
    FoundRow sampleSchema s.store [4] 7 2 := by
  have hc : allSteps sampleEnv (countsKept sampleEnv) ⟨sampleStore, [], 0, 1, []⟩ sampleCounted = true := by
    decide +kernel
  have hrun : (run sampleEnv ⟨sampleStore, [], 0, 1, []⟩ sampleCounted).isSome = true := by
    decide +kernel
  obtain ⟨s, hs⟩ := Option.isSome_iff_exists.mp hrun
  have hadds : ((run sampleEnv ⟨sampleStore, [], 0, 1, []⟩ sampleAdds).bind fun s1 =>
      (addInstanceBySelector sampleSchema s1.store [4] 7).bind fun x =>
        (x.2.node 2).map fun n => (x.1, n.inst)) = some (some 2, 7) := by
    decide +kernel
  simp only [Option.bind_eq_some_iff, Option.map_eq_some_iff, Prod.mk.injEq, Prod.exists] at hadds
  obtain ⟨s1, hs1, r, st2, hadd, n, hn, rfl, hinst⟩ := hadds
  obtain ⟨hacc, hfound⟩ := instance_accounting sampleEnv ⟨sampleStore, [], 0, 1, []⟩ s rfl sampleCounted hc hs
  refine ⟨s, hs, hacc, ?_⟩
  rw [← hinst]
  refine hfound sampleAdds 1 [4] 7 [.delInstance 1 [4, 1]] s1 2 st2 n rfl hs1 hadd hn ?_
  rw [hinst]
  decide

/-- A client adds the row with number 7 twice. -/
def sampleTwice : List Event :=
  [.accept, .startSession 1 1, .addInstance 1 [4] 7, .addInstance 1 [4] 7]

/-- The tree counts two rows, and its index has one. -/
theorem row_added_twice : init sampleEnv = some ⟨sampleStore, [], 0, 1, []⟩ ∧
    ∃ s o, run sampleEnv ⟨sampleStore, [], 0, 1, []⟩ sampleTwice = some s ∧
      s.store.tree 0 3 = some (some o) ∧ ¬∃ rows, Accounted sampleSchema s.store 0 3 o rows := by
  have hrun : ((run sampleEnv ⟨sampleStore, [], 0, 1, []⟩ sampleTwice).bind fun s =>
      (s.store.tree 0 3).bind fun o => o.bind fun o => o.tree.idx.head?.bind fun ti =>
        ((ti.idx.first s.store.fuel).bind fun x => ti.idx.walk s.store.fuel s.store.fuel x).map fun rows =>
          (o.tree.cnt, rows)) = some (2, [1]) := by
    decide +kernel
  simp only [Option.bind_eq_some_iff, Option.map_eq_some_iff, Prod.mk.injEq] at hrun
  obtain ⟨s, hs, x, htree, o, rfl, ti, hti, rows, hwalk, hcnt, rfl⟩ := hrun
  refine ⟨rfl, s, o, hs, htree, ?_⟩
  rintro ⟨rows, hacc⟩
  obtain ⟨ti', hti', hrows⟩ := hacc.enumerated
  rw [hti] at hti'
  cases hti'
  have hsame : some rows = some [1] := by
    rw [← hrows]
    exact Option.bind_eq_some_iff.mpr hwalk
  cases hsame
  have hone := hacc.cnt
  rw [hcnt] at hone
  exact absurd hone (by decide)

end Mand.Server
