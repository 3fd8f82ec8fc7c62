import Mand.Store.Alloc
import Mand.Store.Keeps
import Mand.Store.Set

/-! # Rows in well-formed stores

Rows are put into an object, taken out of it and moved in its indexes. Only the first index counts for
what a selector finds; a row whose number is taken stays outside of it. -/
namespace Mand.Store
open Mand.Index
set_option autoImplicit false

variable {full : Prop} {X : Addr → ℕ → Prop} {S : Schema}

/-! ## The first index -/

theorem mapM_cons_some {α β : Type} {f : α → Option β} {x : α} {l : List α} {l' : List β}
    (h : (x :: l).mapM f = some l') : ∃ y ys, f x = some y ∧ l' = y :: ys := by
  rw [List.mapM_cons] at h
  simp only [Option.bind_eq_bind, Option.bind_eq_some_iff, Option.pure_def, Option.some.injEq] at h
  obtain ⟨y, hy, ys, -, rfl⟩ := h
  exact ⟨y, ys, hy, rfl⟩

/-- The number of rows that a tree keeps, one row later. -/
def countUp (n : ℕ) : ℕ := (n + 1) % 2 ^ 32

def countDown (n : ℕ) : ℕ := (n + (2 ^ 32 - 1)) % 2 ^ 32

section Lists
variable {o o' : ObjTree} {row : Addr → Row} {rows : List Addr} {r : Addr} {fuel : ℕ}

theorem ObjTree.Lists.insert (h : o.Lists row rows) (hr : r ∉ rows) (hfuel : rows.length + 1 < fuel)
    (hins : o.tree.insert fuel row r = some o'.tree) :
    o'.tree.cnt = (o.tree.cnt + 1) % 2 ^ 32 ∧ ∃ rows', o'.Lists row rows' ∧
      ((∃ y ∈ rows, (row y).inst = (row r).inst) ∧ rows' = rows ∨
        (∀ y ∈ rows, (row y).inst ≠ (row r).inst) ∧ rows'.Perm (r :: rows)) := by
  obtain ⟨ix, rest, ho, hix⟩ := h
  simp only [InstTree.insert, Option.bind_eq_bind, Option.bind_eq_some_iff, Option.some.injEq] at hins
  obtain ⟨idx, hidx, htree⟩ := hins
  rw [ho] at hidx
  obtain ⟨y, ys, hy, rfl⟩ := mapM_cons_some hidx
  obtain ⟨ix', rows', hins', hix', hcases⟩ := (hix.clear r hr).insert r hr fuel hfuel
  rw [hins'] at hy
  cases hy
  rw [← htree]
  exact ⟨rfl, rows', ⟨ix', ys, by rw [← htree], hix'⟩, hcases⟩

theorem ObjTree.Lists.remove (h : o.Lists row rows) (hfuel : rows.length < fuel)
    (hrem : o.tree.remove fuel r = some o'.tree) :
    o'.tree.cnt = (o.tree.cnt + (2 ^ 32 - 1)) % 2 ^ 32 ∧ o'.Lists row (rows.erase r) := by
  obtain ⟨ix, rest, ho, hix⟩ := h
  simp only [InstTree.remove, Option.bind_eq_bind, Option.bind_eq_some_iff, Option.some.injEq] at hrem
  obtain ⟨idx, hidx, htree⟩ := hrem
  rw [ho] at hidx
  obtain ⟨y, ys, hy, rfl⟩ := mapM_cons_some hidx
  obtain ⟨ix', hrem', -, hclear⟩ := hix.remove r fuel hfuel
  simp only [hrem', Option.bind_some, Option.some.injEq] at hy
  subst hy
  rw [← htree]
  exact ⟨rfl, ix'.clear r, ys, by rw [← htree], hclear⟩

/-- A row keeps its place, or one that was left out finds it free. -/
theorem ObjTree.Lists.update {f : TreeIdx Addr → Option (TreeIdx Addr)} (h : o.Lists row rows)
    (hfuel : rows.length + 1 < fuel) (hf : ∀ ti, f ti = ti.update fuel row r)
    (hupd : (∃ id, atColumn id f o.tree.idx = some o'.tree.idx) ∨ o.tree.idx.mapM f = some o'.tree.idx) :
    ∃ rows', o'.Lists row rows' ∧ (rows'.Perm rows ∨ r ∉ rows ∧ rows'.Perm (r :: rows)) := by
  obtain ⟨ix, rest, ho, hix⟩ := h
  rw [ho] at hupd
  obtain ⟨ix', rows', hu, hix', hcases⟩ := hix.update r fuel hfuel
  have hdone : ∀ y ys, f ⟨instEntry, ix⟩ = some y → o'.tree.idx = y :: ys →
      ∃ rows', o'.Lists row rows' ∧ (rows'.Perm rows ∨ r ∉ rows ∧ rows'.Perm (r :: rows)) := by
    intro y ys hy hys
    rw [hf, hu] at hy
    cases hy
    exact ⟨rows', ⟨ix', ys, hys, hix'⟩, hcases⟩
  cases hupd with
  | inl hat =>
    obtain ⟨id, hat⟩ := hat
    rw [atColumn] at hat
    split at hat
    · simp only [Option.bind_eq_bind, Option.bind_eq_some_iff, Option.some.injEq] at hat
      obtain ⟨y, hy, hys⟩ := hat
      exact hdone y rest hy hys.symm
    · simp only [Option.bind_eq_bind, Option.bind_eq_some_iff, Option.some.injEq] at hat
      obtain ⟨ys, -, hys⟩ := hat
      exact ⟨rows, ⟨ix, ys, hys.symm, hix⟩, .inl (List.Perm.refl _)⟩
  | inr hmap =>
    obtain ⟨y, ys, hy, hys⟩ := mapM_cons_some hmap
    exact hdone y ys hy hys

end Lists

/-- The numbers of the rows are different, so there are not too many. -/
theorem ObjWf.bound {st : DmStore} {kw a i : ℕ} {p : Selector} {o : ObjTree} {rows : List Addr}
    (h : ObjWf full S st kw p a i o rows) : rows.length ≤ 2 ^ 16 := by
  obtain ⟨ix, rest, _, hix⟩ := h.lists
  have hnd : (rows.map fun x => (st.row x).inst).Nodup :=
    List.pairwise_map.mpr (hix.sorted.imp Nat.ne_of_lt)
  have hlt : ∀ x ∈ rows.map fun x => (st.row x).inst, x < 2 ^ 16 := by
    intro x hx
    obtain ⟨r, hr, rfl⟩ := List.mem_map.mp hx
    obtain ⟨t, n, ht, hn, _, hid, _, hlt⟩ := h.isRow r hr
    rw [(h.isRow r hr).inst ht hid]
    exact hlt
  have hlen := length_le_of_lt hnd hlt
  rwa [List.length_map] at hlen

/-! ## One slot at a time -/

/-- A row gets its node. -/
theorem HeapWf.addNode {st st' : DmStore} {r : Addr} {t : VTable} {n : RowNode}
    (h : HeapWf full X S st) (ht : st.heap r = some t) (hnone : t.node = none)
    (hst : st.setNode r n = some st') (hroot : n.root = none)
    (hnode : ∃ q k, S.place q = some (k, true) ∧ t.id = q ++ [n.inst]) : HeapWf full X S st' := by
  obtain ⟨t0, ht0, rfl⟩ := DmStore.setNode_eq_some.mp hst
  rw [ht] at ht0
  cases ht0
  have hother : ∀ b, b ≠ r → (st.put r { t with node := some n }).heap b = st.heap b := by
    intro b hb
    rw [DmStore.put_heap, if_neg hb]
  have hslot : ∀ b j, (st.put r { t with node := some n }).slot b j = st.slot b j := by
    intro b j
    rw [DmStore.slot_eq, DmStore.slot_eq]
    by_cases hb : b = r
    · rw [hb, DmStore.put_heap_self, ht]
      rfl
    · rw [hother b hb]
  have hids : ∀ b tb, (st.put r { t with node := some n }).heap b = some tb →
      ∃ tb', st.heap b = some tb' ∧ tb'.id = tb.id ∧ tb'.values = tb.values := by
    intro b tb hb
    by_cases hbr : b = r
    · rw [hbr, DmStore.put_heap_self] at hb
      cases hb
      exact ⟨t, hbr ▸ ht, rfl, rfl⟩
    · rw [hother b hbr] at hb
      exact ⟨tb, hb, rfl, rfl⟩
  have hrowne : ∀ q b j x, IsRow st q b j x → x ≠ r := by
    intro q b j x hx he
    obtain ⟨tx, m, htx, hm, -⟩ := hx
    rw [he, ht] at htx
    cases htx
    rw [hnone] at hm
    cases hm
  have hslots : ∀ k p b j v, SlotWf full S st k p b j v →
      SlotWf full S (st.put r { t with node := some n }) k p b j v := by
    intro k p b j v hs
    constructor
    · intro c hc hp
      obtain ⟨tc, htc, hid⟩ := hs.token c hc hp
      by_cases hcr : c = r
      · rw [hcr, ht] at htc
        cases htc
        exact ⟨{ t with node := some n }, by rw [hcr, DmStore.put_heap_self], hid⟩
      · exact ⟨tc, by rw [hother c hcr]; exact htc, hid⟩
    · intro o ho
      obtain ⟨rows, hrows⟩ := hs.object o ho
      refine ⟨rows, hrows.transfer ?_ ?_ ?_⟩
      · intro x hx
        have hxr := hrowne _ _ _ _ (hrows.isRow x hx)
        obtain ⟨tx, m, htx, hrest⟩ := hrows.isRow x hx
        refine ⟨⟨tx, m, by rw [hother x hxr]; exact htx, hrest⟩, ?_⟩
        unfold DmStore.row
        simp only [DmStore.node_eq, hother x hxr]
      · intro _ x m hm hmr
        by_cases hxr : x = r
        · rw [DmStore.node_eq, hxr, DmStore.put_heap_self, Option.bind_some] at hm
          cases hm
          rw [hroot] at hmr
          cases hmr
        · rw [DmStore.node_eq, hother x hxr] at hm
          exact ⟨m, hm, hmr⟩
      · intro _ c w _ hw
        exact ⟨w, by rw [hslot]; exact hw, rfl⟩
  refine ⟨?_, ?_, ?_⟩
  · obtain ⟨tr, htr, hid⟩ := h.root
    by_cases hrr : st.root = r
    · rw [hrr, ht] at htr
      cases htr
      exact ⟨{ t with node := some n }, by rw [DmStore.put_root, hrr, DmStore.put_heap_self], hid⟩
    · exact ⟨tr, by rw [DmStore.put_root, hother _ hrr]; exact htr, hid⟩
  · intro b tb hb
    obtain ⟨tb', htb', hid, hvals⟩ := hids b tb hb
    obtain ⟨kw, hw⟩ := h.table b tb' htb'
    have hhome : ∀ m, tb'.node = some m → Homed (st.put r { t with node := some n }) b tb' m := by
      intro m hm
      refine (hw.home m hm).mono (le_refl _) ?_
      intro c tc _ hc
      obtain ⟨tc', htc', hcid, -⟩ := hids c tc hc
      exact ⟨tc', htc', hcid⟩
    refine ⟨kw, hw.lt, by rw [← hid]; exact hw.place, by rw [← hvals]; exact hw.len, by rw [← hvals]; exact hw.fits,
      by rw [← hvals]; exact hw.ptr, ?_, ?_, ?_⟩
    · intro j v hv hx
      rw [← hvals] at hv
      rw [← hid]
      exact hslots _ _ _ _ _ (hw.slot j v hv hx)
    · intro m hm
      by_cases hbr : b = r
      · subst hbr
        rw [DmStore.put_heap_self] at hb
        cases hb
        cases hm
        exact hnode
      · rw [hother b hbr, htb'] at hb
        cases hb
        exact hw.node m hm
    · intro m hm
      by_cases hbr : b = r
      · subst hbr
        rw [DmStore.put_heap_self] at hb
        cases hb
        cases hm
        intro c j hr
        rw [hroot] at hr
        cases hr
      · rw [hother b hbr, htb'] at hb
        cases hb
        exact hhome m hm
  · intro b j v d c k w hv hvc hw hwc
    rw [hslot] at hv hw
    exact h.inj b j v d c k w hv hvc hw hwc

/-- The tree in an exempt slot is replaced. -/
theorem HeapWf.setTree {st st' : DmStore} {a i : ℕ} {o o' : ObjTree}
    (h : HeapWf full (exempt X a i) S st) (htree : st.tree a i = some (some o))
    (hst : setTree st a i o' = some st') : HeapWf full (exempt X a i) S st' := by
  obtain ⟨v, hv, hc⟩ := (tree_eq_some st a i (some o)).mp htree
  simp only [Store.setTree, hv, Option.bind_eq_bind, Option.bind_some] at hst
  refine h.setSlot (fun _ _ hx => hx) hst hv ?_ ?_ (.inr (.inr ⟨rfl, rfl⟩)) ?_
  · intro e hf
    rw [hc] at hf
    exact ⟨hf.1, rfl⟩
  · intro b hb
    cases hb
  · intro _
    refine .inr ?_
    intro t kw j ht hp hcnt
    -- the slot of an object is no counter
    obtain ⟨e, he, het⟩ := counterOf_type hcnt
    obtain ⟨t0, ht0, hvt⟩ := DmStore.slot_eq_some.mp hv
    rw [ht] at ht0
    cases ht0
    obtain ⟨k, hw⟩ := h.table a t ht
    have hk := hw.place
    rw [hp] at hk
    cases hk
    obtain ⟨e', he', hfit⟩ := hw.fits i v hvt
    rw [he] at he'
    cases he'
    rw [hc] at hfit
    rw [hfit.1] at het
    cases het

theorem counterOf_ref {elems : List DmElement} {id id' c : ℕ} (h : counterOf elems id = some c)
    (h' : counterOf elems id' = some c) : id = id' := by
  have hp := List.find?_some h
  have hp' := List.find?_some h'
  cases he : elems[c]? with
  | none =>
    rw [he] at hp
    cases hp
  | some e =>
    rw [he] at hp hp'
    have h1 : e.counterRef = id := (by simpa using hp : _ ∧ _ ∧ _).2.1
    have h2 : e.counterRef = id' := (by simpa using hp' : _ ∧ _ ∧ _).2.1
    exact h1.symm.trans h2

theorem addCounter_eq_some {st st' : DmStore} {cntr : Option (Addr × ℕ)} {d : ℕ}
    (h : addCounter st cntr d = some st') :
    (cntr = none ∧ st' = st) ∨ ∃ b id v n, cntr = some (b, id) ∧ st.slot b (id - 1) = some v ∧
      v.parity = true ∧ v.content = .scalar (.uint n) ∧
      st.setSlot b (id - 1) { v with content := .scalar (.uint ((n + d) % 2 ^ 32)) } = some st' := by
  unfold addCounter at h
  split at h
  · cases h
    exact .inl ⟨rfl, rfl⟩
  · rename_i b id
    simp only [Option.bind_eq_bind, Option.bind_eq_some_iff] at h
    obtain ⟨v, hv, u, hp, h⟩ := h
    split at h
    · rename_i n hc
      exact .inr ⟨b, id, v, n, rfl, hv, (parityAssert_eq v u).mp hp, hc, h⟩
    · cases h

/-- The counter of an exempt object is written. -/
theorem HeapWf.addCounter {st st' : DmStore} {a i d : ℕ} {cntr : Option (Addr × ℕ)}
    (h : HeapWf full (exempt X a i) S st) (hst : addCounter st cntr d = some st')
    (hcntr : full → ∀ t kw, st.heap a = some t → S.place t.id = some (kw, false) →
      cntr = (counterOf (S.table kw).elems (i + 1)).map fun c => (a, c + 1))
    (hta : ∃ t, st.heap a = some t) : HeapWf full (exempt X a i) S st' := by
  cases addCounter_eq_some hst with
  | inl hsame =>
    rw [hsame.2]
    exact h
  | inr hset =>
    obtain ⟨b, id, v, n, hc, hv, hp, hcont, hst⟩ := hset
    refine h.setSlot (fun _ _ hx => hx) hst hv ?_ ?_ (.inl (.inr ⟨_, _, hcont, rfl⟩)) ?_
    · intro e hf
      rw [hcont] at hf
      exact hf
    · intro c hcc
      cases hcc
    · intro hf
      refine .inr ?_
      intro t kw j ht hplace hcnt
      obtain ⟨ta, hta⟩ := hta
      obtain ⟨ka, hka⟩ := h.table a ta hta
      have hcr := hcntr hf ta ka hta hka.place
      rw [hc] at hcr
      obtain ⟨c, hco, hce⟩ := Option.map_eq_some_iff.mp hcr.symm
      cases hce
      rw [hta] at ht
      cases ht
      rw [hka.place] at hplace
      cases hplace
      have hji := counterOf_ref hcnt hco
      exact .inr ⟨rfl, by omega⟩

/-! ## A row enters or leaves an object -/

section Move
variable {st st1 st2 st' : DmStore} {a i r d : ℕ} {n n' : RowNode} {o o' : ObjTree}
  {cntr : Option (Addr × ℕ)} {P : Selector → Prop}

theorem node_addCounter (h : addCounter st cntr d = some st') (b : Addr) : st'.node b = st.node b := by
  cases addCounter_eq_some h with
  | inl hsame => rw [hsame.2]
  | inr hset =>
    obtain ⟨c, id, v, m, -, -, -, -, hst⟩ := hset
    exact DmStore.node_setSlot hst

theorem setTree_eq_some (h : setTree st a i o' = some st') :
    ∃ v, st.slot a i = some v ∧ st.setSlot a i { v with content := .inst (some o') } = some st' := by
  simp only [setTree, Option.bind_eq_bind, Option.bind_eq_some_iff] at h
  exact h

theorem node_setTree (h : setTree st a i o' = some st') (b : Addr) : st'.node b = st.node b := by
  obtain ⟨v, -, hst⟩ := setTree_eq_some h
  exact DmStore.node_setSlot hst

variable (h1 : st.setNode r n' = some st1) (h2 : setTree st1 a i o' = some st2)
  (h3 : addCounter st2 cntr d = some st')
include h1 h2 h3

theorem move_node (b : Addr) : st'.node b = if b = r then some n' else st.node b := by
  rw [node_addCounter h3, node_setTree h2, DmStore.node_setNode h1]

theorem move_row (hn : st.node r = some n) (hinst : n'.inst = n.inst) (b : Addr) :
    (st'.row b).inst = (st.row b).inst := by
  unfold DmStore.row
  simp only [move_node h1 h2 h3 b]
  by_cases hb : b = r
  · rw [if_pos hb, hb, hn]
    exact hinst
  · rw [if_neg hb]

/-- The slot of the object; the counter is not there. -/
theorem move_tree : st'.tree a i = some (some o') := by
  obtain ⟨v, -, hset⟩ := setTree_eq_some h2
  have hslot : st2.slot a i = some { v with content := .inst (some o') } := by
    rw [DmStore.slot_setSlot hset, if_pos ⟨rfl, rfl⟩]
  apply (tree_eq_some st' a i _).mpr
  cases addCounter_eq_some h3 with
  | inl hsame =>
    rw [hsame.2]
    exact ⟨_, hslot, rfl⟩
  | inr hcnt =>
    obtain ⟨c, id, w, m, -, hw, -, hwc, hst⟩ := hcnt
    refine ⟨{ v with content := .inst (some o') }, ?_, rfl⟩
    rw [DmStore.slot_setSlot hst, if_neg]
    · exact hslot
    · intro he
      rw [he.1, he.2, hw] at hslot
      cases hslot
      cases hwc

/-- The counter goes with the row. -/
theorem move_counter {c : ℕ} {w : DmValue} {m : ℕ} (hcntr : cntr = some (a, c + 1))
    (hw : st.slot a c = some w) (hwc : w.content = .scalar (.uint m)) :
    ∃ w', st'.slot a c = some w' ∧ w'.content = .scalar (.uint ((m + d) % 2 ^ 32)) := by
  obtain ⟨v, hv, hset⟩ := setTree_eq_some h2
  rcases addCounter_eq_some h3 with hsame | ⟨b, id, w', m', hb, hw', -, hwc', hst⟩
  · rw [hcntr] at hsame
    cases hsame.1
  · rw [hcntr] at hb
    cases hb
    have hci : c ≠ i := by
      intro he
      rw [Nat.add_sub_cancel, he, DmStore.slot_setSlot hset, if_pos ⟨rfl, rfl⟩] at hw'
      cases hw'
      cases hwc'
    rw [Nat.add_sub_cancel] at hw' hst
    rw [DmStore.slot_setSlot hset, if_neg (fun he => hci he.2), DmStore.slot_setNode h1, hw] at hw'
    cases hw'
    rw [hwc] at hwc'
    cases hwc'
    exact ⟨_, by rw [DmStore.slot_setSlot hst, if_pos ⟨rfl, rfl⟩], rfl⟩

theorem move_keeps (hlt : ∀ b t, st.heap b = some t → b < st.next) (hn : st.node r = some n)
    (hinst : n'.inst = n.inst) (hval : n'.value = n.value) (htree : st.tree a i = some (some o))
    (hkept : ∀ y, (∃ ty, st.heap y = some ty ∧ P ty.id) → o.Has y → o'.Has y) : Keeps P st st' := by
  have hk1 : Keeps P st st1 := by
    refine Keeps.setNode hlt h1 hn ?_
    intro hp
    rw [hval]
    exact ⟨hp, rfl, hinst⟩
  have hlt1 : ∀ b t, st1.heap b = some t → b < st1.next := by
    intro b t hb
    obtain ⟨t0, ht0, rfl⟩ := DmStore.setNode_eq_some.mp h1
    rw [DmStore.put_heap] at hb
    by_cases hbr : b = r
    · rw [hbr]
      exact hlt r t0 ht0
    · rw [if_neg hbr] at hb
      exact hlt b t hb
  obtain ⟨v, hv, hset⟩ := setTree_eq_some h2
  obtain ⟨t1, ht1, hvt⟩ := DmStore.slot_eq_some.mp hv
  have hvc : v.content = .inst (some o) := by
    obtain ⟨v0, hv0, hc0⟩ := (tree_eq_some st a i _).mp htree
    rw [← DmStore.slot_setNode h1, hv] at hv0
    cases hv0
    exact hc0
  have hk2 : Keeps P st1 st2 := by
    refine Keeps.setSlot hlt1 hset ht1 hvt ?_
    intro _ hp
    refine ⟨hp, ?_⟩
    rw [hvc]
    intro y hy ho
    obtain ⟨ty, hty, hPy⟩ := hy
    obtain ⟨t0, ht0, rfl⟩ := DmStore.setNode_eq_some.mp h1
    rw [DmStore.put_heap] at hty
    by_cases hyr : y = r
    · rw [if_pos hyr] at hty
      cases hty
      exact hkept y ⟨t0, hyr ▸ ht0, hPy⟩ ho
    · rw [if_neg hyr] at hty
      exact hkept y ⟨ty, hty, hPy⟩ ho
  have hlt2 : ∀ b t, st2.heap b = some t → b < st2.next := by
    intro b t hb
    obtain ⟨t0, ht0, -, rfl⟩ := DmStore.setSlot_eq_some.mp hset
    rw [DmStore.put_heap] at hb
    by_cases hbr : b = a
    · rw [hbr]
      exact hlt1 a t0 ht0
    · rw [if_neg hbr] at hb
      exact hlt1 b t hb
  refine (hk1.trans hk2).trans ?_
  rcases addCounter_eq_some h3 with hsame | ⟨b, id, w, m, -, hw, hwp, hwc, hst⟩
  · rw [hsame.2]
    exact Keeps.refl P hlt2
  · obtain ⟨tw, htw, hwt⟩ := DmStore.slot_eq_some.mp hw
    refine Keeps.setSlot hlt2 hst htw hwt ?_
    intro _ _
    exact ⟨hwp, by rw [hwc]; trivial⟩

theorem move_wf (hw : HeapWf full X S st) (hn : st.node r = some n) (hinst : n'.inst = n.inst)
    (hval : n'.value = n.value) {t : VTable} (ht : st.heap a = some t)
    (htree : st.tree a i = some (some o))
    (hroot : ∀ b j, n.root = some (b, j) → X b j ∨ b = a ∧ j = i)
    (hroot' : ∀ b j, n'.root = some (b, j) → b = a ∧ j = i)
    (hid : n'.root = some (a, i) → ∀ tr, st.heap r = some tr →
      tr.id = t.id ++ [i + 1, n.inst] ∧ n.value.content = .table (some r) ∧ n.inst < 2 ^ 16)
    (hcntr : ∀ kw, S.place t.id = some (kw, false) →
      cntr = (counterOf (S.table kw).elems (i + 1)).map fun c => (a, c + 1)) :
    HeapWf full (exempt X a i) S st' := by
  have hw1 : HeapWf full (exempt X a i) S st1 := by
    refine hw.setNode (fun _ _ hx => .inl hx) h1 hn ⟨hinst, by rw [hval]⟩ (.inr ⟨hroot, ?_⟩) ?_
    · intro b j hb
      exact .inr (hroot' b j hb)
    · intro tr htr b j hb
      obtain ⟨rfl, rfl⟩ := hroot' b j hb
      refine ⟨hw.lt b t ht, ?_⟩
      intro tb htb
      rw [ht] at htb
      cases htb
      rw [hinst, hval]
      exact hid hb tr htr
  have htree1 : st1.tree a i = some (some o) := by
    obtain ⟨v0, hv0, hc0⟩ := (tree_eq_some st a i _).mp htree
    exact (tree_eq_some st1 a i _).mpr ⟨v0, by rw [DmStore.slot_setNode h1]; exact hv0, hc0⟩
  have hw2 := hw1.setTree htree1 h2
  -- the table of the object keeps its path
  obtain ⟨t1, ht1, hid1⟩ : ∃ t1, st1.heap a = some t1 ∧ t1.id = t.id := by
    obtain ⟨t0, ht0, rfl⟩ := DmStore.setNode_eq_some.mp h1
    rw [DmStore.put_heap]
    by_cases har : a = r
    · rw [har, ht0] at ht
      cases ht
      exact ⟨_, if_pos har, rfl⟩
    · exact ⟨t, by rw [if_neg har]; exact ht, rfl⟩
  obtain ⟨v, -, hset⟩ := setTree_eq_some h2
  obtain ⟨t2, ht2, -, hst2⟩ := DmStore.setSlot_eq_some.mp hset
  rw [ht1] at ht2
  cases ht2
  have ht2 : st2.heap a = some (t1.setValue i { v with content := .inst (some o') }) := by
    rw [hst2, DmStore.put_heap_self]
  refine hw2.addCounter h3 ?_ ⟨_, ht2⟩
  intro _ tb kw htb hp
  rw [ht2] at htb
  cases htb
  have hp : S.place t1.id = some (kw, false) := hp
  rw [hid1] at hp
  exact hcntr kw hp

end Move

/-! ## In and out of an object -/

/-- `map_ffz`: the first bit of the map that is not set. -/
def ObjTree.freeBit (o : ObjTree) : Option ℕ := o.idMap.bind fun m => m.findIdx? (fun b => b = false)

section Composites
variable {st st' : DmStore} {a i r kw : ℕ} {t tr : VTable} {n : RowNode} {P : Selector → Prop}

/-- The writes of `insert_instance`. -/
theorem insertInstance_parts (h : insertInstance st a i r = some st') : ∃ o tree n st1 st2,
    st.tree a i = some (some o) ∧ o.tree.insert st.fuel st.row r = some tree ∧ st.node r = some n ∧
    st.setNode r { n with root := some (a, i), idm := (o.freeBit.map (· + 1)).getD n.idm } = some st1 ∧
    setTree st1 a i { o with
      tree := tree
      idMap := o.idMap.map fun m => (o.freeBit.map fun f => m.set f true).getD m } = some st2 ∧
    addCounter st2 o.cntr 1 = some st' := by
  unfold insertInstance at h
  simp only [Option.bind_eq_bind, Option.bind_eq_some_iff] at h
  obtain ⟨x, htree, o, rfl, tree, hins, n, hn, st1, h1, st2, h2, h3⟩ := h
  exact ⟨o, tree, n, st1, st2, htree, hins, hn, h1, h2, h3⟩

/-- The writes of `remove_instance`. -/
theorem removeInstance_parts (h : removeInstance st a i r = some st') : ∃ o tree n idMap st1 st2,
    st.tree a i = some (some o) ∧ o.tree.remove st.fuel r = some tree ∧ st.node r = some n ∧
    clearIdm o.idMap n.idm = some idMap ∧ st.setNode r { n with root := none } = some st1 ∧
    setTree st1 a i { o with tree := tree, idMap := idMap } = some st2 ∧
    addCounter st2 o.cntr (2 ^ 32 - 1) = some st' := by
  unfold removeInstance at h
  simp only [Option.bind_eq_bind, Option.bind_eq_some_iff] at h
  obtain ⟨x, htree, o, rfl, tree, hrem, n, hn, idMap, hmap, st1, h1, st2, h2, h3⟩ := h
  exact ⟨o, tree, n, idMap, st1, st2, htree, hrem, hn, hmap, h1, h2, h3⟩

/-- An object whose slot was exempt is right again. -/
theorem HeapWf.closeObject {o' : ObjTree} {rows' : List Addr} (h : HeapWf full (exempt X a i) S st')
    (ht : st'.heap a = some t) (hp : S.place t.id = some (kw, false)) (htree : st'.tree a i = some (some o'))
    (ho : ObjWf full S st' kw t.id a i o' rows') : HeapWf full X S st' := by
  refine h.close ?_
  intro b j hx' hx tb k v hb hpb hv
  rcases hx' with hX | ⟨rfl, rfl⟩
  · exact absurd hX hx
  rw [ht] at hb
  cases hb
  rw [hp] at hpb
  cases hpb
  obtain ⟨v0, hv0, hc0⟩ := (tree_eq_some st' b j _).mp htree
  obtain ⟨t0, ht0, hvt0⟩ := DmStore.slot_eq_some.mp hv0
  rw [ht] at ht0
  cases ht0
  rw [hv] at hvt0
  cases hvt0
  constructor
  · intro c hc
    rw [hc0] at hc
    cases hc
  · intro o ho'
    rw [hc0] at ho'
    cases ho'
    exact ⟨rows', ho⟩

/-- Rows other than the one that moves stay rows. -/
theorem IsRow.other {y : Addr} {p : Selector} {n' : RowNode} (h : IsRow st p a i y) (hy : y ≠ r)
    (hnode : ∀ b, st'.node b = if b = r then some n' else st.node b)
    (hids : ∀ b t t', st.heap b = some t → st'.heap b = some t' → t'.id = t.id) :
    IsRow st' p a i y := by
  obtain ⟨ty, m, hty, hm, hroot, hid, hcont, hlt⟩ := h
  have hny := hnode y
  rw [if_neg hy, DmStore.node_eq_some.mpr ⟨ty, hty, hm⟩] at hny
  obtain ⟨ty', hty', hm'⟩ := DmStore.node_eq_some.mp hny
  exact ⟨ty', m, hty', hm', hroot, by rw [hids y ty ty' hty hty']; exact hid, hcont, hlt⟩

/-- `insert_instance`. The counts need a number that is not taken. -/
theorem insertInstance_spec (hw : HeapWf full X S st) (hx : ¬X a i) (ht : st.heap a = some t)
    (hp : S.place t.id = some (kw, false)) (htr : st.heap r = some tr) (hn : tr.node = some n)
    (hroot : n.root = none) (hid : tr.id = t.id ++ [i + 1, n.inst])
    (hcont : n.value.content = .table (some r)) (hlt : n.inst < 2 ^ 16)
    (hfree : full → ∀ o rows, st.tree a i = some (some o) → ObjWf full S st kw t.id a i o rows →
      ∀ y ∈ rows, (st.row y).inst ≠ n.inst)
    (h : insertInstance st a i r = some st') :
    HeapWf full X S st' ∧ Keeps P st st' ∧
      (∃ n', st'.node r = some n' ∧ n'.value = n.value ∧ n'.inst = n.inst ∧ n'.root = some (a, i)) ∧
      ∃ o rows o' rows', st.tree a i = some (some o) ∧ st'.tree a i = some (some o') ∧
        ObjWf full S st kw t.id a i o rows ∧ ObjWf full S st' kw t.id a i o' rows' ∧
        ((∃ y ∈ rows, (st.row y).inst = n.inst) ∧ rows' = rows ∨
          (∀ y ∈ rows, (st.row y).inst ≠ n.inst) ∧ rows'.Perm (r :: rows)) := by
  obtain ⟨o, tree', n0, st1, st2, htree, hins, hn0, h1, h2, h3⟩ := insertInstance_parts h
  have hnode : st.node r = some n := DmStore.node_eq_some.mpr ⟨tr, htr, hn⟩
  rw [hnode] at hn0
  cases hn0
  obtain ⟨o0, rows, ho0, ho, -⟩ := hw.tree ht hp hx htree
  cases ho0
  have hrow : (st.row r).inst = n.inst := by
    unfold DmStore.row
    rw [hnode]
    rfl
  have hr : r ∉ rows := by
    intro hmem
    obtain ⟨t0, m, ht0, hm, hmr, -⟩ := ho.isRow r hmem
    rw [htr] at ht0
    cases ht0
    rw [hn] at hm
    cases hm
    rw [hroot] at hmr
    cases hmr
  have hlen : rows.length + 1 < st.fuel := by
    show rows.length + 1 < st.next + 2
    exact Nat.succ_lt_succ (Nat.lt_succ_of_le (ObjWf.length_le hw.lt ho))
  generalize hoo : ObjTree.mk tree' _ _ = o' at h2
  have htree'eq : o'.tree = tree' := by rw [← hoo]
  have hcntr'eq : o'.cntr = o.cntr := by rw [← hoo]
  rw [← htree'eq] at hins
  obtain ⟨hcnt, rows', hl', hcases⟩ := ho.lists.insert hr hlen hins
  rw [hrow] at hcases
  have hinc : ∀ y ∈ rows, y ∈ rows' := by
    intro y hy
    rcases hcases with ⟨-, rfl⟩ | ⟨-, hperm⟩
    · exact hy
    · exact hperm.mem_iff.mpr (List.mem_cons_of_mem r hy)
  have hkeeps : Keeps P st st' := by
    refine move_keeps h1 h2 h3 hw.lt hnode rfl rfl htree ?_
    intro y _ hy
    exact hl'.has.mpr (hinc y (ho.lists.has.mp hy))
  have hw' := move_wf h1 h2 h3 hw hnode rfl rfl ht htree
    (fun b j hb => by rw [hroot] at hb; cases hb)
    (fun b j hb => by cases hb; exact ⟨rfl, rfl⟩)
    (fun _ tr' htr' => by rw [htr] at htr'; cases htr'; exact ⟨hid, hcont, hlt⟩)
    (fun k hk => by
      rw [hp] at hk
      cases hk
      exact ho.cntr)
  have htree' := move_tree h1 h2 h3
  have hrows := move_row h1 h2 h3 hnode rfl
  have hnodes := move_node h1 h2 h3
  obtain ⟨v', hv', -⟩ := (tree_eq_some st' a i _).mp htree'
  obtain ⟨t', ht', -⟩ := DmStore.slot_eq_some.mp hv'
  have hid' : t'.id = t.id := hkeeps.ids a t t' ht ht'
  have hp' : S.place t'.id = some (kw, false) := by rw [hid', hp]
  have ho' : ObjWf full S st' kw t.id a i o' rows' := by
    refine ⟨?_, ?_, hcntr'eq.trans ho.cntr, ?_⟩
    · obtain ⟨ix, rest, hix, hl⟩ := hl'
      exact ⟨ix, rest, hix, hl.congr fun y _ => hrows y⟩
    · intro y hy
      by_cases hyr : y = r
      · subst hyr
        have hny := hnodes y
        rw [if_pos rfl] at hny
        obtain ⟨ty, hty, hm⟩ := DmStore.node_eq_some.mp hny
        exact ⟨ty, _, hty, hm, rfl, by rw [hkeeps.ids y tr ty htr hty]; exact hid, hcont, hlt⟩
      · refine (ho.isRow y ?_).other hyr hnodes hkeeps.ids
        rcases hcases with ⟨-, rfl⟩ | ⟨-, hperm⟩
        · exact hy
        · exact List.mem_of_ne_of_mem hyr (hperm.mem_iff.mp hy)
    · intro hf
      obtain ⟨hc, hall, hval⟩ := ho.account hf
      rcases hcases with ⟨⟨y, hy, hyn⟩, -⟩ | ⟨-, hperm⟩
      · exact absurd hyn (hfree hf o rows htree ho y hy)
      have hlen' : rows'.length = rows.length + 1 := hperm.length_eq
      have hsmall : (rows.length + 1) % 2 ^ 32 = rows.length + 1 := by
        have := ho.bound
        exact Nat.mod_eq_of_lt (by omega)
      refine ⟨?_, ?_, ?_⟩
      · rw [hlen', ← hsmall, ← hc]
        exact hcnt
      · intro y m hm hmr
        rw [hnodes y] at hm
        by_cases hyr : y = r
        · rw [hyr]
          exact hperm.mem_iff.mpr List.mem_cons_self
        · rw [if_neg hyr] at hm
          exact hinc y (hall y m hm hmr)
      · intro c hcc
        obtain ⟨w, hw0, hwc⟩ := hval c hcc
        have hct := ho.cntr
        rw [hcc] at hct
        obtain ⟨w', hw1, hwc1⟩ := move_counter h1 h2 h3 hct hw0 hwc
        exact ⟨w', hw1, by rw [hwc1, hsmall, hlen']⟩
  refine ⟨hw'.closeObject ht' hp' htree' (by rw [hid']; exact ho'), hkeeps, ?_, o, rows, _, rows', htree,
    htree', ho, ho', hcases⟩
  have hny := hnodes r
  rw [if_pos rfl] at hny
  exact ⟨_, hny, rfl, rfl, rfl⟩

/-- `remove_instance`. -/
theorem removeInstance_spec {o : ObjTree} {rows : List Addr} (hw : HeapWf full X S st) (hx : ¬X a i)
    (ht : st.heap a = some t) (hp : S.place t.id = some (kw, false))
    (htree : st.tree a i = some (some o)) (ho : ObjWf full S st kw t.id a i o rows) (hr : r ∈ rows)
    (htr : st.heap r = some tr) (hP : ¬P tr.id) (h : removeInstance st a i r = some st') :
    HeapWf full X S st' ∧ Keeps P st st' ∧
      (∃ n n', st.node r = some n ∧ st'.node r = some n' ∧ n'.value = n.value ∧ n'.inst = n.inst ∧
        n'.root = none) ∧
      ∃ o', st'.tree a i = some (some o') ∧ ObjWf full S st' kw t.id a i o' (rows.erase r) ∧
        o'.tree.cnt = countDown o.tree.cnt := by
  obtain ⟨o0, tree', n, idMap, st1, st2, htree0, hrem, hnode, -, h1, h2, h3⟩ := removeInstance_parts h
  rw [htree] at htree0
  cases htree0
  obtain ⟨tr0, htr0, hn⟩ := DmStore.node_eq_some.mp hnode
  rw [htr] at htr0
  cases htr0
  obtain ⟨tr0, n0, htr0, hn0, hroot, hid, hcont, hlt⟩ := ho.isRow r hr
  rw [htr] at htr0
  cases htr0
  rw [hn] at hn0
  cases hn0
  have hlen : rows.length < st.fuel := by
    show rows.length < st.next + 2
    exact Nat.lt_succ_of_le (Nat.le_succ_of_le (ObjWf.length_le hw.lt ho))
  generalize hoo : ObjTree.mk tree' _ _ = o' at h2
  have htree'eq : o'.tree = tree' := by rw [← hoo]
  have hcntr'eq : o'.cntr = o.cntr := by rw [← hoo]
  rw [← htree'eq] at hrem
  obtain ⟨hcnt, hl'⟩ := ho.lists.remove hlen hrem
  have hnd := ho.nodup
  have hkeeps : Keeps P st st' := by
    refine move_keeps h1 h2 h3 hw.lt hnode rfl rfl htree ?_
    intro y hPy hy
    refine hl'.has.mpr ((List.mem_erase_of_ne ?_).mpr (ho.lists.has.mp hy))
    intro hyr
    obtain ⟨ty, hty, hPy⟩ := hPy
    rw [hyr, htr] at hty
    cases hty
    exact hP hPy
  have hw' := move_wf h1 h2 h3 hw hnode rfl rfl ht htree
    (fun b j hb => by rw [hroot] at hb; cases hb; exact .inr ⟨rfl, rfl⟩)
    (fun b j hb => by cases hb)
    (fun hb => by cases hb)
    (fun k hk => by
      rw [hp] at hk
      cases hk
      exact ho.cntr)
  have htree' := move_tree h1 h2 h3
  have hrows := move_row h1 h2 h3 hnode rfl
  have hnodes := move_node h1 h2 h3
  obtain ⟨v', hv', -⟩ := (tree_eq_some st' a i _).mp htree'
  obtain ⟨t', ht', -⟩ := DmStore.slot_eq_some.mp hv'
  have hid' : t'.id = t.id := hkeeps.ids a t t' ht ht'
  have hp' : S.place t'.id = some (kw, false) := by rw [hid', hp]
  have ho' : ObjWf full S st' kw t.id a i o' (rows.erase r) := by
    refine ⟨?_, ?_, hcntr'eq.trans ho.cntr, ?_⟩
    · obtain ⟨ix, rest, hix, hl⟩ := hl'
      exact ⟨ix, rest, hix, hl.congr fun y _ => hrows y⟩
    · intro y hy
      obtain ⟨hyr, hy⟩ := (List.Nodup.mem_erase_iff hnd).mp hy
      exact (ho.isRow y hy).other hyr hnodes hkeeps.ids
    · intro hf
      obtain ⟨hc, hall, hval⟩ := ho.account hf
      have hpos : 0 < rows.length := List.length_pos_of_mem hr
      have hlen' : (rows.erase r).length = rows.length - 1 := List.length_erase_of_mem hr
      have hsmall : (rows.length + (2 ^ 32 - 1)) % 2 ^ 32 = rows.length - 1 := by
        have := ho.bound
        omega
      refine ⟨?_, ?_, ?_⟩
      · rw [hlen', ← hsmall, ← hc]
        exact hcnt
      · intro y m hm hmr
        rw [hnodes y] at hm
        by_cases hyr : y = r
        · rw [if_pos hyr] at hm
          cases hm
          cases hmr
        · rw [if_neg hyr] at hm
          exact (List.mem_erase_of_ne hyr).mpr (hall y m hm hmr)
      · intro c hcc
        obtain ⟨w, hw0, hwc⟩ := hval c hcc
        have hct := ho.cntr
        rw [hcc] at hct
        obtain ⟨w', hw1, hwc1⟩ := move_counter h1 h2 h3 hct hw0 hwc
        exact ⟨w', hw1, by rw [hwc1, hsmall, hlen']⟩
  refine ⟨hw'.closeObject ht' hp' htree' (by rw [hid']; exact ho'), hkeeps, ?_, _, htree', ho', hcnt⟩
  have hny := hnodes r
  rw [if_pos rfl] at hny
  exact ⟨n, _, hnode, hny, rfl, rfl, rfl⟩

/-- The number that the indexes see. -/
theorem row_inst_of_node (hst : ∀ b, st'.node b = st.node b) (b : Addr) :
    (st'.row b).inst = (st.row b).inst := by
  unfold DmStore.row
  rw [hst]

/-- A row is moved in the indexes of its object. -/
theorem relist_spec {b j : ℕ} {o o' : ObjTree} (hw : HeapWf full X S st) (hx : ¬X b j)
    (hn : st.node r = some n) (hroot : n.root = some (b, j)) (htree : st.tree b j = some (some o))
    (h : setTree st b j o' = some st')
    (hupd : (∃ id, atColumn id (fun ti => ti.update st.fuel st.row r) o.tree.idx = some o'.tree.idx) ∨
      o.tree.idx.mapM (fun ti => ti.update st.fuel st.row r) = some o'.tree.idx)
    (hcnt : o'.tree.cnt = o.tree.cnt) (hcntr : o'.cntr = o.cntr) :
    HeapWf full X S st' ∧ Keeps P st st' := by
  obtain ⟨v, hv, hset⟩ := setTree_eq_some h
  obtain ⟨tb, htb, hvt⟩ := DmStore.slot_eq_some.mp hv
  have hvc : v.content = .inst (some o) := by
    obtain ⟨v0, hv0, hc0⟩ := (tree_eq_some st b j _).mp htree
    rw [hv] at hv0
    cases hv0
    exact hc0
  obtain ⟨kw, hk⟩ := hw.table b tb htb
  obtain ⟨o0, rows, ho0, ho, -⟩ := hw.tree htb hk.place hx htree
  cases ho0
  have hlen : rows.length + 1 < st.fuel := by
    show rows.length + 1 < st.next + 2
    exact Nat.succ_lt_succ (Nat.lt_succ_of_le (ObjWf.length_le hw.lt ho))
  obtain ⟨rows', hl', hcases⟩ := ho.lists.update hlen (fun _ => rfl) hupd
  have hinc : ∀ y ∈ rows, y ∈ rows' := by
    intro y hy
    rcases hcases with hperm | ⟨-, hperm⟩
    · exact hperm.mem_iff.mpr hy
    · exact hperm.mem_iff.mpr (List.mem_cons_of_mem r hy)
  have hkeeps : Keeps P st st' := by
    refine Keeps.setSlot hw.lt hset htb hvt ?_
    intro _ hp
    refine ⟨hp, ?_⟩
    rw [hvc]
    exact fun y _ hy => hl'.has.mpr (hinc y (ho.lists.has.mp hy))
  have hw' : HeapWf full (exempt X b j) S st' :=
    (hw.weaken fun _ _ hX => .inl hX).setTree htree h
  have hnodes : ∀ y, st'.node y = st.node y := fun y => DmStore.node_setSlot hset
  have htree' : st'.tree b j = some (some o') :=
    (tree_eq_some st' b j _).mpr ⟨_, by rw [DmStore.slot_setSlot hset, if_pos ⟨rfl, rfl⟩], rfl⟩
  obtain ⟨v', hv', -⟩ := (tree_eq_some st' b j _).mp htree'
  obtain ⟨tb', htb', -⟩ := DmStore.slot_eq_some.mp hv'
  have hid' : tb'.id = tb.id := hkeeps.ids b tb tb' htb htb'
  have hisRow : ∀ y, IsRow st tb.id b j y → IsRow st' tb.id b j y := by
    intro y hy
    obtain ⟨ty, m, hty, hm, hrest, hyid, hrest'⟩ := hy
    have hny := hnodes y
    rw [DmStore.node_eq_some.mpr ⟨ty, hty, hm⟩] at hny
    obtain ⟨ty', hty', hm'⟩ := DmStore.node_eq_some.mp hny
    exact ⟨ty', m, hty', hm', hrest, by rw [hkeeps.ids y ty ty' hty hty']; exact hyid, hrest'⟩
  have hr : IsRow st tb.id b j r := by
    -- its path tells that it belongs to the object
    obtain ⟨tr, htr, hnr⟩ := DmStore.node_eq_some.mp hn
    obtain ⟨kr, hkr⟩ := hw.table r tr htr
    obtain ⟨hrid, hcont, hlt⟩ := (hkr.home n hnr b j hroot).2 tb htb
    exact ⟨tr, n, htr, hnr, hroot, hrid, hcont, hlt⟩
  suffices ho' : ObjWf full S st' kw tb.id b j o' rows' from
    ⟨hw'.closeObject htb' (by rw [hid']; exact hk.place) htree' (by rw [hid']; exact ho'), hkeeps⟩
  refine ⟨?_, ?_, hcntr.trans ho.cntr, ?_⟩
  · obtain ⟨ix, rest, hix, hl⟩ := hl'
    exact ⟨ix, rest, hix, hl.congr fun y _ => row_inst_of_node hnodes y⟩
  · intro y hy
    apply hisRow
    rcases hcases with hperm | ⟨-, hperm⟩
    · exact ho.isRow y (hperm.mem_iff.mp hy)
    · rcases List.mem_cons.mp (hperm.mem_iff.mp hy) with rfl | hy
      · exact hr
      · exact ho.isRow y hy
  · intro hf
    obtain ⟨hc, hall, hval⟩ := ho.account hf
    rcases hcases with hperm | ⟨hout, -⟩
    · refine ⟨?_, ?_, ?_⟩
      · rw [hcnt, hc, hperm.length_eq]
      · intro y m hm hmr
        rw [hnodes y] at hm
        exact hperm.mem_iff.mpr (hall y m hm hmr)
      · intro c hcc
        obtain ⟨w, hw0, hwc⟩ := hval c hcc
        have hcj : c ≠ j := by
          intro he
          rw [he, hv] at hw0
          cases hw0
          rw [hvc] at hwc
          cases hwc
        refine ⟨w, ?_, by rw [hwc, hperm.length_eq]⟩
        rw [DmStore.slot_setSlot hset, if_neg fun he => hcj he.2]
        exact hw0
    · exact absurd (hall r n hn hroot) hout

theorem updateIndex_spec {id : ℕ} (hw : HeapWf full X S st)
    (hx : ∀ n b j, st.node r = some n → n.root = some (b, j) → ¬X b j)
    (h : updateIndex st id r = some st') : HeapWf full X S st' ∧ Keeps P st st' := by
  unfold updateIndex at h
  simp only [Option.bind_eq_bind, Option.bind_eq_some_iff] at h
  obtain ⟨n, hn, h⟩ := h
  split at h
  · cases h
    exact ⟨hw, Keeps.refl P hw.lt⟩
  · rename_i b j hroot
    simp only [Option.bind_eq_some_iff] at h
    obtain ⟨x, htree, o, rfl, tree', hupd, h⟩ := h
    simp only [InstTree.updateIndex, Option.bind_eq_bind, Option.bind_eq_some_iff,
      Option.some.injEq] at hupd
    obtain ⟨idx, hupd, rfl⟩ := hupd
    exact relist_spec hw (hx n b j hn hroot) hn hroot htree h (.inl ⟨_, hupd⟩) rfl rfl

theorem updateInstanceNodeIndex_spec (hw : HeapWf full X S st)
    (hx : ∀ n b j, st.node r = some n → n.root = some (b, j) → ¬X b j)
    (h : updateInstanceNodeIndex st r = some st') : HeapWf full X S st' ∧ Keeps P st st' := by
  unfold updateInstanceNodeIndex at h
  simp only [Option.bind_eq_bind, Option.bind_eq_some_iff] at h
  obtain ⟨n, hn, h⟩ := h
  split at h
  · cases h
    exact ⟨hw, Keeps.refl P hw.lt⟩
  · rename_i b j hroot
    simp only [Option.bind_eq_some_iff] at h
    obtain ⟨x, htree, o, rfl, tree', hupd, h⟩ := h
    simp only [InstTree.updateAll, Option.bind_eq_bind, Option.bind_eq_some_iff,
      Option.some.injEq] at hupd
    obtain ⟨idx, hupd, rfl⟩ := hupd
    exact relist_spec hw (hx n b j hn hroot) hn hroot htree h (.inr hupd) rfl rfl

end Composites

end Mand.Store
