import Mand.Store.Rows
import Mand.Store.Names
import Mathlib.Order.Bounds.Basic

/-! # Numbers of new rows

`dm_add_instance` looks for a number behind the one it is asked for when the low 14 bits of that are zero. The
search goes along the first index and counts up; it does not look at the classes of numbers. -/
namespace Mand.Store
open Mand.Index
set_option autoImplicit false

/-! ## The search -/

/-- One of the rows has the number. -/
def Taken (st : DmStore) (rows : List Addr) (k : ℕ) : Prop := ∃ y ∈ rows, (st.row y).inst = k

/-- The first number behind `id0` that is free, or zero if there is none. -/
def NextFree (st : DmStore) (rows : List Addr) (id0 id' : ℕ) : Prop :=
  (id0 < id' ∧ id' < 2 ^ 16 ∧ ¬Taken st rows id' ∧ ∀ k, id0 < k → k < id' → Taken st rows k) ∨
    id' = 0 ∧ ∀ k, id0 < k → k < 2 ^ 16 → Taken st rows k

/-- The first index of an object lists these rows. They are in memory and have numbers of 16 bits. -/
structure Indexed (st : DmStore) (a i : ℕ) (o : ObjTree) (rows : List Addr) : Prop where
  tree : st.tree a i = some (some o)
  lists : o.Lists st.row rows
  lt : ∀ r ∈ rows, r < st.next
  number : ∀ r ∈ rows, (st.row r).inst < 2 ^ 16

section Search
variable {st : DmStore} {a i : ℕ} {o : ObjTree} {rows : List Addr}

/-- The loop of `dm_add_instance`, started at a row with the number `id`. -/
theorem freeIdLoop_spec (hnum : ∀ y ∈ rows, (st.row y).inst < 2 ^ 16) (ix : Idx Addr)
    (hix : InstIdx st.row rows ix) (hfuel : rows.length < st.fuel) (id0 n id : ℕ) (x : Addr)
    (xs ys : List Addr) (hsplit : rows = xs ++ x :: ys) (hx : (st.row x).inst = id) (hid0 : id0 < id)
    (htaken : ∀ k, id0 < k → k ≤ id → Taken st rows k) (hn : ys.length < n) :
    ∃ id', freeIdLoop st ix n id (some x) = some id' ∧ NextFree st rows id0 id' := by
  induction ys generalizing id x xs n with
  | nil =>
    obtain ⟨n, rfl⟩ : ∃ k, n = k + 1 := ⟨n - 1, by simp at hn; omega⟩
    have hnext := hix.next x xs [] hsplit st.fuel hfuel
    refine ⟨(id + 1) % 2 ^ 16, ?_, ?_⟩
    · unfold freeIdLoop
      simp only [hnext, Option.bind_eq_bind, Option.bind_some, List.head?_nil]
    have hsorted := hix.sorted
    rw [hsplit, List.pairwise_append] at hsorted
    -- no row has a larger number
    have hlast : ∀ y ∈ rows, (st.row y).inst ≤ id := by
      intro y hy
      rw [hsplit, List.mem_append, List.mem_singleton] at hy
      rcases hy with hy | rfl
      · have := hsorted.2.2 y hy x List.mem_cons_self
        omega
      · omega
    have hlt : id < 2 ^ 16 := by
      rw [← hx]
      exact hnum x (by rw [hsplit]; exact List.mem_append_right _ List.mem_cons_self)
    by_cases hwrap : id + 1 < 2 ^ 16
    · rw [Nat.mod_eq_of_lt hwrap]
      refine .inl ⟨by omega, hwrap, ?_, fun k hk hk' => htaken k hk (by omega)⟩
      intro ⟨y, hy, hyk⟩
      have := hlast y hy
      omega
    · have hid : id + 1 = 2 ^ 16 := by omega
      rw [hid, Nat.mod_self]
      exact .inr ⟨rfl, fun k hk hk' => htaken k hk (by omega)⟩
  | cons z zs ih =>
    obtain ⟨n, rfl⟩ : ∃ k, n = k + 1 := ⟨n - 1, by simp at hn; omega⟩
    have hnext := hix.next x xs (z :: zs) hsplit st.fuel hfuel
    have hsorted := hix.sorted
    rw [hsplit, List.pairwise_append] at hsorted
    obtain ⟨-, hxzs, hcross⟩ := hsorted
    have hz : id < (st.row z).inst := by
      rw [← hx]
      exact (List.pairwise_cons.mp hxzs).1 z List.mem_cons_self
    have hzlt : (st.row z).inst < 2 ^ 16 :=
      hnum z (by rw [hsplit]; exact List.mem_append_right _ (List.mem_cons_of_mem _ List.mem_cons_self))
    have hmod : (id + 1) % 2 ^ 16 = id + 1 := Nat.mod_eq_of_lt (by omega)
    have hstep : freeIdLoop st ix (n + 1) id (some x) =
        if id + 1 < (st.row z).inst then some (id + 1) else freeIdLoop st ix n (id + 1) (some z) := by
      conv_lhs => unfold freeIdLoop
      simp only [hnext, Option.bind_eq_bind, Option.bind_some, List.head?_cons, hmod]
    rw [hstep]
    by_cases hgap : id + 1 < (st.row z).inst
    · rw [if_pos hgap]
      refine ⟨id + 1, rfl, .inl ⟨by omega, by omega, ?_, fun k hk hk' => htaken k hk (by omega)⟩⟩
      -- the rows up to `x` have smaller numbers, the others larger ones
      intro ⟨y, hy, hyk⟩
      rw [hsplit, List.mem_append, List.mem_cons, List.mem_cons] at hy
      rcases hy with hy | rfl | rfl | hy
      · have := hcross y hy x List.mem_cons_self
        omega
      · omega
      · omega
      · have := (List.pairwise_cons.mp (List.pairwise_cons.mp hxzs).2).1 y hy
        omega
    · rw [if_neg hgap]
      have hz1 : (st.row z).inst = id + 1 := by omega
      refine ih n (id + 1) z (xs ++ [x]) (by rw [hsplit]; simp) hz1 (by omega) ?_ (by simp at hn; omega)
      intro k hk hk'
      by_cases hke : k = id + 1
      · exact ⟨z, by rw [hsplit]; simp, by rw [hke]; exact hz1⟩
      · exact htaken k hk (by omega)

theorem Indexed.length_lt (h : Indexed st a i o rows) : rows.length < st.fuel := by
  obtain ⟨ix, rest, -, hix⟩ := h.lists
  have hle := length_le_of_lt hix.nodup h.lt
  show rows.length < st.next + 2
  omega

/-- `dm_get_instance_node_by_id`. -/
theorem Indexed.find (h : Indexed st a i o rows) (k : ℕ) :
    ∃ r, st.instanceNode (some o) k = some r ∧ ∀ x, r = some x ↔ x ∈ rows ∧ (st.row x).inst = k := by
  have hfuel := h.length_lt
  obtain ⟨ix, rest, ho, hix⟩ := h.lists
  obtain ⟨r, hr, hiff⟩ := hix.find k st.fuel hfuel
  refine ⟨r, ?_, hiff⟩
  show findInstance st.fuel st.row o.tree 0 .inst (.int k) 0 = some r
  unfold findInstance
  rw [ho, List.find?_cons_of_pos (by rfl)]
  exact hr

theorem mask_eq (id : ℕ) : id &&& dmIdMask = id % 2 ^ 14 := Nat.and_two_pow_sub_one_eq_mod id 14

/-- An automatic number. -/
theorem Indexed.newId_auto (h : Indexed st a i o rows) {id : ℕ} (hid : id < 2 ^ 16) (hauto : id &&& dmIdMask = 0) :
    ∃ id', newId st o id = some id' ∧ NextFree st rows id id' := by
  have hsmall : id + 1 < 2 ^ 16 := by
    rw [mask_eq] at hauto
    omega
  obtain ⟨found, hfound, hiff⟩ := h.find (id + 1)
  have hfuel := h.length_lt
  obtain ⟨ix, rest, ho, hix⟩ := h.lists
  have hhead : o.tree.idx.head? = some ⟨instEntry, ix⟩ := by rw [ho]; rfl
  have hnew : newId st o id = freeIdLoop st ix st.fuel (id + 1) found := by
    unfold newId
    rw [if_pos hauto]
    simp only [Option.bind_eq_bind, hhead, Option.bind_some, Nat.mod_eq_of_lt hsmall, hfound]
  rw [hnew]
  cases found with
  | none =>
    refine ⟨id + 1, by cases st.fuel <;> rfl, .inl ⟨by omega, hsmall, ?_, fun k hk hk' => absurd hk' (by omega)⟩⟩
    intro ⟨y, hy, hyk⟩
    exact nomatch (hiff y).mpr ⟨hy, hyk⟩
  | some x =>
    obtain ⟨hx, hxk⟩ := (hiff x).mp rfl
    obtain ⟨xs, ys, hsplit⟩ := List.append_of_mem hx
    refine freeIdLoop_spec h.number ix hix hfuel id st.fuel (id + 1) x xs ys hsplit hxk (by omega) ?_ ?_
    · intro k hk hk'
      exact ⟨x, hx, by omega⟩
    · rw [hsplit] at hfuel
      simp only [List.length_append, List.length_cons] at hfuel
      omega

/-- The answer of the search is the least number that is free, if some number is. -/
theorem NextFree.least {id id' : ℕ} (h : NextFree st rows id id')
    (hfree : ∃ k, id < k ∧ k < 2 ^ 16 ∧ ¬Taken st rows k) : IsLeast {k | id < k ∧ ¬Taken st rows k} id' := by
  obtain ⟨k, hk, hlt, hkfree⟩ := hfree
  rcases h with ⟨hid, -, hnot, hbelow⟩ | ⟨-, hall⟩
  · refine ⟨⟨hid, hnot⟩, ?_⟩
    intro j ⟨hj, hjfree⟩
    by_contra hlt'
    exact hjfree (hbelow j hj (by omega))
  · exact absurd (hall k hk hlt) hkfree

end Search

/-! ## The new row -/

/-- `dm_add_instance` answers NULL. -/
def AddRefused (S : Schema) (st : DmStore) (e : DmElement) (o : ObjTree) (basesel : Selector) : Prop :=
  e.type ≠ .object ∨ st.getElementRef S basesel = some none ∨ e.max ≤ o.tree.cnt

section Row
variable {S : Schema} {st st' : DmStore} {e : DmElement} {a i id : ℕ} {o : ObjTree} {basesel : Selector}
  {res : Option Addr} {rows : List Addr}

/-- What `dm_add_instance` does where the object has its tree. -/
theorem addInstance_parts (htree : st.tree a i = some (some o))
    (h : addInstance S st e a i basesel id = some (res, st')) : (res = none ∧ st' = st ∧ AddRefused S st e o basesel) ∨
    ∃ r id' st1, res = some r ∧ ¬AddRefused S st e o basesel ∧ newId st o id = some id' ∧
      allocInstanceNode S e.table basesel id' st = some (r, st1) ∧ insertInstance st1 a i r = some st' := by
  unfold addInstance at h
  by_cases hobj : e.type ≠ .object
  · rw [if_pos hobj] at h
    cases h
    exact .inl ⟨rfl, rfl, .inl hobj⟩
  rw [if_neg hobj] at h
  simp only [Option.bind_eq_bind, Option.bind_eq_some_iff] at h
  obtain ⟨ref, href, h⟩ := h
  cases ref with
  | none =>
    cases h
    exact .inl ⟨rfl, rfl, .inr (.inl href)⟩
  | some ref =>
    simp only [ensureTree, htree, Option.bind_eq_bind, Option.bind_some] at h
    by_cases hmax : e.max ≤ o.tree.cnt
    · rw [if_pos hmax] at h
      cases h
      exact .inl ⟨rfl, rfl, .inr (.inr hmax)⟩
    rw [if_neg hmax] at h
    simp only [Option.bind_eq_some_iff, Prod.exists, Option.some.injEq, Prod.mk.injEq] at h
    obtain ⟨id', hnew, r, st1, halloc, st2, hins, rfl, rfl⟩ := h
    refine .inr ⟨r, id', st1, rfl, ?_, hnew, halloc, hins⟩
    rintro (hr | hr | hr)
    · exact hobj hr
    · rw [href] at hr
      cases hr
    · exact hmax hr

theorem allocInstanceNode_node {kw inst : ℕ} {r : Addr} (h : allocInstanceNode S kw basesel inst st = some (r, st')) :
    st'.node r = some ⟨⟨.table (some r), 0, Flags.zero, true⟩, inst, 0, none⟩ := by
  simp only [allocInstanceNode, Option.bind_eq_bind, Option.bind_eq_some_iff, Prod.exists, Option.some.injEq,
    Prod.mk.injEq] at h
  obtain ⟨b, st1, -, st2, hnode, rfl, rfl⟩ := h
  rw [DmStore.node_setNode hnode, if_pos rfl]

/-- The row that an add makes has the number that was picked. -/
theorem addInstance_number {r : Addr} (htree : st.tree a i = some (some o))
    (h : addInstance S st e a i basesel id = some (some r, st')) :
    ¬AddRefused S st e o basesel ∧ ∃ id' n, newId st o id = some id' ∧ st'.node r = some n ∧
      n.root = some (a, i) ∧ n.inst = id' := by
  rcases addInstance_parts htree h with ⟨hr, -, -⟩ | ⟨r0, id', st1, hr, hno, hnew, halloc, hins⟩
  · cases hr
  cases hr
  refine ⟨hno, id', ?_⟩
  obtain ⟨o1, tree, n, st2, st3, -, -, hn, h1, h2, h3⟩ := insertInstance_parts hins
  rw [allocInstanceNode_node halloc] at hn
  cases hn
  exact ⟨_, hnew, (move_node h1 h2 h3 r).trans (if_pos rfl), rfl, rfl⟩

end Row

/-! ## A crowded object -/

def crowdLeaf (type : DmType) (max : ℕ) : DmElement :=
  ⟨[114], type, ⟨false, false, false, false, false, false, false, false, false, false, false⟩, none, none, 0, max, [],
    0, 0⟩

def crowdTable : ℕ → DmTable
  | 0 => ⟨[crowdLeaf .uint 0], [instEntry]⟩
  | 1 => ⟨[crowdLeaf .object 65535], []⟩
  | _ => ⟨[], []⟩

/-- A single object whose rows hold a number. -/
def crowdSchema : Schema where
  table := crowdTable
  root := 1
  child_lt := by
    intro k
    match k with
    | 0 => decide
    | 1 => decide
    | k + 2 => exact fun e he => absurd he List.not_mem_nil
  index_head := by
    intro k
    match k with
    | 0 => decide
    | 1 => decide
    | k + 2 => exact fun e he => absurd he List.not_mem_nil
  set_fits := by
    intro k
    match k with
    | 0 => decide
    | 1 => decide
    | k + 2 => exact fun e he => absurd he List.not_mem_nil
  array_leaf := by
    intro k
    match k with
    | 0 => decide
    | 1 => decide
    | k + 2 => exact fun e he => absurd he List.not_mem_nil
  get_leaf := by
    intro k
    match k with
    | 0 => decide
    | 1 => decide
    | k + 2 => exact fun e he => absurd he List.not_mem_nil

/-- Row `a` has the number `first + a`. -/
def crowdRow (first : ℕ) (a : ℕ) : Row := ⟨first + a, fun _ => .uint 0, a⟩

/-- The index over the rows `1, …, n`. -/
def crowdTree (first : ℕ) : ℕ → Option (InstTree ℕ)
  | 0 => some (InstTree.alloc [instEntry])
  | n + 1 => do
    let tree ← crowdTree first n
    tree.insert (n + 3) (crowdRow first) (n + 1)

/-- The rows `1, …, n` in the only object of the store. -/
def crowdStore (first n : ℕ) (tree : InstTree ℕ) : DmStore where
  heap := fun a =>
    if a = 0 then some ⟨[], [⟨.inst (some ⟨tree, none, none⟩), 0, Flags.zero, true⟩], none⟩
    else if a ≤ n then some ⟨[1, first + a], [⟨.scalar (.uint 0), 0, Flags.zero, true⟩],
      some ⟨⟨.table (some a), 0, Flags.zero, true⟩, first + a, 0, some (0, 0)⟩⟩
    else none
  next := n + 1
  root := 0

theorem crowdTree_spec (first n : ℕ) : ∃ (ix : Idx ℕ) (rows : List ℕ), crowdTree first n = some ⟨n % 2 ^ 32, [⟨instEntry, ix⟩]⟩ ∧
    InstIdx (crowdRow first) rows ix ∧ ∀ a : ℕ, a ∈ rows ↔ 1 ≤ a ∧ a ≤ n := by
  induction n with
  | zero =>
    refine ⟨Idx.empty, [], rfl, InstIdx.empty _, ?_⟩
    intro a
    simp
    omega
  | succ n ih =>
    obtain ⟨ix, rows, htree, hix, hmem⟩ := ih
    have hout : n + 1 ∉ rows := by
      rw [hmem]
      omega
    have hlen : rows.length ≤ n + 1 := length_le_of_lt hix.nodup fun x hx => by
      rw [hmem] at hx
      omega
    obtain ⟨ix', rows', hins, hix', hcases⟩ := (hix.clear (n + 1) hout).insert (n + 1) hout (n + 3) (by omega)
    refine ⟨ix', rows', ?_, hix', ?_⟩
    · simp only [crowdTree, htree, InstTree.insert, Option.bind_eq_bind, Option.bind_some, List.mapM_cons,
        List.mapM_nil, hins, Option.pure_def]
      congr 2
      omega
    · rcases hcases with ⟨⟨y, hy, hyn⟩, -⟩ | ⟨-, hperm⟩
      · -- the numbers differ
        have hy := (hmem y).mp hy
        have hyn : first + y = first + (n + 1) := hyn
        omega
      · intro a
        rw [hperm.mem_iff, List.mem_cons, hmem]
        omega

section Crowd
variable {first n : ℕ} {tree : InstTree ℕ}

theorem crowd_row {a : ℕ} (h1 : 1 ≤ a) (hn : a ≤ n) : ((crowdStore first n tree).row a).inst = first + a := by
  have hne : a ≠ 0 := by omega
  simp [DmStore.row, DmStore.node_eq, crowdStore, hne, hn]

theorem crowd_tree : (crowdStore first n tree).tree 0 0 = some (some ⟨tree, none, none⟩) := rfl

/-- What the first index of the crowded object lists. -/
theorem crowd_indexed (hn : first + n < 2 ^ 16) (h : crowdTree first n = some tree) :
    ∃ rows : List ℕ, Indexed (crowdStore first n tree) 0 0 ⟨tree, none, none⟩ rows ∧ (∀ a : ℕ, a ∈ rows ↔ 1 ≤ a ∧ a ≤ n) ∧
      tree.cnt = n := by
  obtain ⟨ix, rows, htree, hix, hmem⟩ := crowdTree_spec first n
  rw [h] at htree
  cases htree
  have hrow : ∀ a ∈ rows, ((crowdStore first n ⟨n % 2 ^ 32, [⟨instEntry, ix⟩]⟩).row a).inst = first + a := by
    intro a ha
    exact crowd_row ((hmem a).mp ha).1 ((hmem a).mp ha).2
  refine ⟨rows, ⟨crowd_tree, ⟨ix, [], rfl, hix.congr hrow⟩, ?_, ?_⟩, hmem, Nat.mod_eq_of_lt (by omega)⟩
  · intro a ha
    exact Nat.lt_succ_of_le ((hmem a).mp ha).2
  · intro a ha
    have hle := ((hmem a).mp ha).2
    rw [hrow a ha]
    exact lt_of_le_of_lt (Nat.add_le_add_left hle first) hn

theorem crowd_free (hn : first + n + 1 < 2 ^ 16) {rows : List ℕ} (hmem : ∀ a : ℕ, a ∈ rows ↔ 1 ≤ a ∧ a ≤ n) {id' : ℕ}
    (h : NextFree (crowdStore first n tree) rows first id') : id' = first + n + 1 := by
  have htaken : ∀ k, Taken (crowdStore first n tree) rows k ↔ first < k ∧ k ≤ first + n := by
    intro k
    constructor
    · intro ⟨y, hy, hyk⟩
      have hy := (hmem y).mp hy
      rw [crowd_row hy.1 hy.2] at hyk
      omega
    · intro ⟨h1, h2⟩
      refine ⟨k - first, (hmem _).mpr ⟨by omega, by omega⟩, ?_⟩
      rw [crowd_row (by omega) (by omega)]
      omega
  simp only [NextFree, htaken] at h
  rcases h with ⟨h1, h2, h3, h4⟩ | ⟨-, hall⟩
  · by_contra hne
    rcases Nat.lt_or_gt_of_ne hne with hlt | hgt
    · exact h3 ⟨h1, by omega⟩
    · have := h4 (first + n + 1) (by omega) hgt
      omega
  · have := hall (first + n + 1) (by omega) hn
    omega

theorem crowd_ref : ∃ ref, (crowdStore first n tree).getElementRef crowdSchema [1] = some (some ref) := ⟨_, rfl⟩

/-- The new row, before it is in the object. -/
def crowdAlloc (first n : ℕ) (tree : InstTree ℕ) (id' : ℕ) : DmStore :=
  ({ crowdStore first n tree with next := n + 2 } : DmStore).put (n + 1)
    ⟨[1, id'], [⟨.scalar (.uint 0), 0, Flags.zero, true⟩], some ⟨⟨.table (some (n + 1)), 0, Flags.zero, true⟩, id', 0, none⟩⟩

theorem crowd_alloc (id' : ℕ) : allocInstanceNode crowdSchema 0 [1] id' (crowdStore first n tree) =
    some (n + 1, crowdAlloc first n tree id') := by
  have hsel : dmSelcat [1] id' = [1, id'] := rfl
  have halloc : allocTable crowdSchema 1 0 [1, id'] (crowdStore first n tree) =
      some (n + 1, ({ crowdStore first n tree with next := n + 2 } : DmStore).put (n + 1)
        ⟨[1, id'], [⟨.scalar (.uint 0), 0, Flags.zero, true⟩], none⟩) := rfl
  simp only [allocInstanceNode, hsel, halloc, Option.bind_eq_bind, Option.bind_some, DmStore.setNode, DmStore.put_heap_self]
  simp [crowdAlloc, DmStore.put]

theorem crowd_insert (hn : first + n + 1 < 2 ^ 16) (h : crowdTree first n = some tree) (id' : ℕ) :
    ∃ st', insertInstance (crowdAlloc first n tree id') 0 0 (n + 1) = some st' := by
  obtain ⟨ix, rows, htree, hix, hmem⟩ := crowdTree_spec first n
  rw [h] at htree
  cases htree
  generalize hst : crowdAlloc first n ⟨n % 2 ^ 32, [⟨instEntry, ix⟩]⟩ id' = st
  have hheap : ∀ b : ℕ, b ≠ n + 1 → st.heap b = (crowdStore first n ⟨n % 2 ^ 32, [⟨instEntry, ix⟩]⟩).heap b := by
    intro b hb
    rw [← hst]
    exact DmStore.put_heap_ne _ _ _ _ hb
  have hout : n + 1 ∉ rows := by
    rw [hmem]
    omega
  have hrow : ∀ y ∈ rows, (st.row y).inst = (crowdRow first y).inst := by
    intro y hy
    obtain ⟨h1, h2⟩ := (hmem y).mp hy
    have hcrowd := @crowd_row first n ⟨n % 2 ^ 32, [⟨instEntry, ix⟩]⟩ y h1 h2
    simp only [DmStore.row, DmStore.node_eq, hheap y (by omega)] at hcrowd ⊢
    exact hcrowd
  have hlen : rows.length ≤ n + 1 := length_le_of_lt hix.nodup fun x hx => by
    have := (hmem x).mp hx
    omega
  have hfuel : st.fuel = n + 4 := by
    rw [← hst]
    rfl
  obtain ⟨ix', rows', hins, -⟩ := ((hix.congr hrow).clear (n + 1) hout).insert (n + 1) hout st.fuel (by omega)
  have hslot : st.slot 0 0 = some ⟨.inst (some ⟨⟨n % 2 ^ 32, [⟨instEntry, ix⟩]⟩, none, none⟩), 0, Flags.zero, true⟩ := by
    rw [DmStore.slot_eq, hheap 0 (by omega)]
    rfl
  have hnode : st.node (n + 1) = some ⟨⟨.table (some (n + 1)), 0, Flags.zero, true⟩, id', 0, none⟩ := by
    rw [← hst, DmStore.node_eq, crowdAlloc, DmStore.put_heap_self]
    rfl
  have htree : st.tree 0 0 = some (some ⟨⟨n % 2 ^ 32, [⟨instEntry, ix⟩]⟩, none, none⟩) :=
    (tree_eq_some st 0 0 _).mpr ⟨_, hslot, rfl⟩
  have hgrown : InstTree.insert st.fuel st.row ⟨n % 2 ^ 32, [⟨instEntry, ix⟩]⟩ (n + 1) =
      some ⟨(n % 2 ^ 32 + 1) % 2 ^ 32, [⟨instEntry, ix'⟩]⟩ := by
    simp only [InstTree.insert, List.mapM_cons, List.mapM_nil, hins, Option.bind_eq_bind, Option.bind_some,
      Option.pure_def]
  obtain ⟨st1, h1⟩ := DmStore.setNode_some hnode ⟨⟨.table (some (n + 1)), 0, Flags.zero, true⟩, id', 0, some (0, 0)⟩
  have hslot1 := hslot
  rw [← DmStore.slot_setNode h1] at hslot1
  obtain ⟨st2, h2⟩ := DmStore.setSlot_some hslot1 ⟨.inst (some ⟨⟨(n % 2 ^ 32 + 1) % 2 ^ 32, [⟨instEntry, ix'⟩]⟩, none, none⟩),
    0, Flags.zero, true⟩
  refine ⟨st2, ?_⟩
  simp only [insertInstance, htree, hgrown, hnode, Option.bind_eq_bind, Option.bind_some, Option.bind_none, Option.map_none,
    Option.getD_none, h1, setTree, hslot1, h2, addCounter]

/-- One more row. -/
theorem crowd_add (hn : first + n + 1 < 2 ^ 16) (hauto : first &&& dmIdMask = 0) (h : crowdTree first n = some tree) :
    ∃ r st', addInstance crowdSchema (crowdStore first n tree) (crowdLeaf .object 65535) 0 0 [1] first =
      some (some r, st') := by
  obtain ⟨rows, hx, -, hcnt⟩ := crowd_indexed (by omega) h
  obtain ⟨ref, href⟩ := @crowd_ref first n tree
  obtain ⟨id', hnew, -⟩ := hx.newId_auto (by omega) hauto
  obtain ⟨st', hins⟩ := crowd_insert hn h id'
  refine ⟨n + 1, st', ?_⟩
  have hobj : ¬(crowdLeaf .object 65535).type ≠ .object := by decide
  have hmax : ¬(crowdLeaf .object 65535).max ≤ tree.cnt := by
    rw [hcnt]
    show ¬65535 ≤ n
    omega
  have hkw : (crowdLeaf .object 65535).table = 0 := rfl
  simp only [addInstance, if_neg hobj, href, ensureTree, crowd_tree, Option.bind_eq_bind, Option.bind_some, if_neg hmax,
    hnew, hkw, crowd_alloc, hins]

end Crowd

/-! ## Numbers that are in use -/

/-- Some row of the object has the number. -/
def Used (st : DmStore) (a i k : ℕ) : Prop := ∃ r n, st.node r = some n ∧ n.root = some (a, i) ∧ n.inst = k

/-- The rows are the ones that the object has. -/
def Live (st : DmStore) (a i : ℕ) (rows : List Addr) : Prop :=
  ∀ r, r ∈ rows ↔ ∃ n, st.node r = some n ∧ n.root = some (a, i)

theorem taken_iff_used {st : DmStore} {a i : ℕ} {rows : List Addr} (h : Live st a i rows) (k : ℕ) :
    Taken st rows k ↔ Used st a i k := by
  constructor
  · intro ⟨y, hy, hk⟩
    obtain ⟨n, hn, hroot⟩ := (h y).mp hy
    refine ⟨y, n, hn, hroot, ?_⟩
    simpa only [DmStore.row, hn, Option.map_some, Option.getD_some] using hk
  · intro ⟨r, n, hn, hroot, hk⟩
    refine ⟨r, (h r).mpr ⟨n, hn, hroot⟩, ?_⟩
    simpa only [DmStore.row, hn, Option.map_some, Option.getD_some] using hk

theorem crowd_live {first n : ℕ} {tree : InstTree ℕ} {rows : List Addr} (hmem : ∀ a : ℕ, a ∈ rows ↔ 1 ≤ a ∧ a ≤ n) :
    Live (crowdStore first n tree) 0 0 rows := by
  intro r
  rw [hmem]
  by_cases h0 : r = 0
  · simp [DmStore.node_eq, crowdStore, h0]
  by_cases hn : r ≤ n
  · simp [DmStore.node_eq, crowdStore, h0, hn]
    exact Nat.one_le_iff_ne_zero.mpr h0
  · simp [DmStore.node_eq, crowdStore, h0, hn]

section Results
variable {S : Schema} {st st' : DmStore} {e : DmElement} {a i id : ℕ} {o : ObjTree} {basesel : Selector}
  {rows : List Addr}

/-- The number is in the class of `id`, and is neither the number of the class nor `DM_ERR`. -/
def SameClass (id k : ℕ) : Prop := k / 2 ^ 14 = id / 2 ^ 14 ∧ k % 2 ^ 14 ≠ 0 ∧ k ≠ dmErr

/-- An automatic number stays in its class exactly if the class still has one. -/
theorem addInstance_sameClass_iff (hx : Indexed st a i o rows) (hlive : Live st a i rows) (hid : id < 2 ^ 16)
    (hauto : id &&& dmIdMask = 0) {res : Option Addr} (h : addInstance S st e a i basesel id = some (res, st')) :
    (∀ r, res = some r → ∃ n, st'.node r = some n ∧ SameClass id n.inst) ↔
      AddRefused S st e o basesel ∨ ∃ k, id < k ∧ k < id + 2 ^ 14 ∧ k ≠ dmErr ∧ ¬Used st a i k := by
  have hmod : id % 2 ^ 14 = 0 := by rwa [mask_eq] at hauto
  simp only [← taken_iff_used hlive]
  cases res with
  | none =>
    rcases addInstance_parts hx.tree h with ⟨-, -, hno⟩ | ⟨r0, id', st1, hr, -⟩
    · exact ⟨fun _ => .inl hno, fun _ r hr => nomatch hr⟩
    · cases hr
  | some r =>
    obtain ⟨hno, id', n, hnew, hn, -, hinst⟩ := addInstance_number hx.tree h
    obtain ⟨id2, hnew2, hnext⟩ := hx.newId_auto hid hauto
    rw [hnew] at hnew2
    cases hnew2
    have herr : dmErr = 65535 := rfl
    constructor
    · intro hclass
      obtain ⟨n2, hn2, h1, h2, h3⟩ := hclass r rfl
      rw [hn] at hn2
      cases hn2
      rw [hinst] at h1 h2 h3
      rcases hnext with ⟨hgt, -, hfree, -⟩ | ⟨hzero, -⟩
      · exact .inr ⟨id', hgt, by omega, h3, hfree⟩
      · rw [hzero] at h2
        exact absurd (Nat.zero_mod _) h2
    · rintro (hr | ⟨k, hk, hk2, hkerr, hkfree⟩)
      · exact absurd hr hno
      intro r2 hr2
      cases hr2
      refine ⟨n, hn, ?_⟩
      obtain ⟨⟨hgt, -⟩, hmin⟩ := hnext.least ⟨k, hk, by omega, hkfree⟩
      have hle := hmin ⟨hk, hkfree⟩
      rw [hinst]
      refine ⟨by omega, by omega, ?_⟩
      rw [herr] at hkerr ⊢
      omega

theorem addInstance_sameClass_sample : ∃ res st',
    addInstance crowdSchema (crowdStore 0 0 (InstTree.alloc [instEntry])) (crowdLeaf .object 65535) 0 0 [1] 0 =
      some (res, st') ∧
    ((∀ r, res = some r → ∃ n, st'.node r = some n ∧ SameClass 0 n.inst) ↔
      AddRefused crowdSchema (crowdStore 0 0 (InstTree.alloc [instEntry])) (crowdLeaf .object 65535)
        ⟨InstTree.alloc [instEntry], none, none⟩ [1] ∨
      ∃ k, 0 < k ∧ k < 0 + 2 ^ 14 ∧ k ≠ dmErr ∧ ¬Used (crowdStore 0 0 (InstTree.alloc [instEntry])) 0 0 k) := by
  have htree : crowdTree 0 0 = some (InstTree.alloc [instEntry]) := rfl
  obtain ⟨rows, hx, hmem, -⟩ := crowd_indexed (by decide) htree
  obtain ⟨r, st', h⟩ := crowd_add (by decide) (by decide) htree
  exact ⟨some r, st', h, addInstance_sameClass_iff hx (crowd_live hmem) (by decide) (by decide) h⟩

theorem crowd_overflow {first n : ℕ} {tree : InstTree ℕ} (hn : first + n + 1 < 2 ^ 16) (hauto : first &&& dmIdMask = 0)
    (htree : crowdTree first n = some tree) : ∃ r st' m,
      addInstance crowdSchema (crowdStore first n tree) (crowdLeaf .object 65535) 0 0 [1] first = some (some r, st') ∧
      st'.node r = some m ∧ m.inst = first + n + 1 := by
  obtain ⟨rows, hx, hmem, -⟩ := crowd_indexed (by omega) htree
  obtain ⟨r, st', h⟩ := crowd_add hn hauto htree
  obtain ⟨-, id', m, hnew, hm, -, hinst⟩ := addInstance_number hx.tree h
  obtain ⟨id2, hnew2, hnext⟩ := hx.newId_auto (by omega) hauto
  rw [hnew] at hnew2
  cases hnew2
  exact ⟨r, st', m, h, hm, by rw [hinst, crowd_free hn hmem hnext]⟩

/-- All numbers from 0x8001 to 0xBFFF are in use. -/
theorem addInstance_leaves_class : ∃ tree rows, crowdTree 0x8000 0x3FFF = some tree ∧
    Indexed (crowdStore 0x8000 0x3FFF tree) 0 0 ⟨tree, none, none⟩ rows ∧ Live (crowdStore 0x8000 0x3FFF tree) 0 0 rows ∧
    0x8000 &&& dmIdMask = 0 ∧ ∃ r st' n,
      addInstance crowdSchema (crowdStore 0x8000 0x3FFF tree) (crowdLeaf .object 65535) 0 0 [1] 0x8000 =
        some (some r, st') ∧ st'.node r = some n ∧ n.inst = 0xC000 ∧ ¬SameClass 0x8000 n.inst := by
  obtain ⟨ix, rows0, htree, -⟩ := crowdTree_spec 0x8000 0x3FFF
  obtain ⟨rows, hx, hmem, -⟩ := crowd_indexed (by decide) htree
  obtain ⟨r, st', n, h, hn, hinst⟩ := crowd_overflow (by decide) (by decide) htree
  refine ⟨_, rows, htree, hx, crowd_live hmem, by decide, r, st', n, h, hn, hinst, ?_⟩
  rw [hinst]
  intro hclass
  exact absurd hclass.1 (by decide)

end Results

end Mand.Store
