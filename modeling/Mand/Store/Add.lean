import Mand.Store.Rows

/-! # New rows

`dm_add_instance` in a well-formed store: the new row stands in its object, and everything that was
there before is still found. -/
namespace Mand.Store
open Mand.Index
set_option autoImplicit false

variable {full : Prop} {S : Schema} {st st' : DmStore} {P : Selector → Prop}

/-! ## The table of the row -/

theorem Keeps.grown (hlt : ∀ b t, st.heap b = some t → b < st.next) (hg : Grown st st') :
    Keeps P st st' where
  root := hg.root
  lt := hlt
  next := hg.next
  dead := by
    intro b hb hn
    rw [hg.old b hb]
    exact hn
  ids := by
    intro b t t' ht ht'
    rw [hg.old b (hlt b t ht), ht] at ht'
    cases ht'
    rfl
  table := by
    intro b t ht _
    exact ⟨t, by rw [hg.old b (hlt b t ht)]; exact ht⟩
  slot := by
    intro b t j v ht hv _ hp
    refine ⟨v, DmStore.slot_eq_some.mpr ⟨t, ?_, hv⟩, hp, Content.KeptOn.refl _ _⟩
    rw [hg.old b (hlt b t ht)]
    exact ht
  node := by
    intro b t n ht _ hn hp
    refine ⟨n, DmStore.node_eq_some.mpr ⟨t, ?_, hn⟩, hp, rfl, rfl⟩
    rw [hg.old b (hlt b t ht)]
    exact ht

theorem HeapWf.grown {X : Addr → ℕ → Prop} (hw : HeapWf full X S st) (hg : Grown st st')
    (ht : TablesWf full X S st') : HeapWf full X S st' := by
  refine ⟨?_, ht.table, ht.inj⟩
  obtain ⟨t, hroot, hid⟩ := hw.root
  exact ⟨t, by rw [hg.root, hg.old _ (hw.lt _ t hroot)]; exact hroot, hid⟩

/-- `dm_alloc_instance_node`. -/
theorem allocInstanceNode_spec {X : Addr → ℕ → Prop} {kw inst : ℕ} {base : Selector} {r : Addr}
    (hw : HeapWf full X S st) (hp : S.place (selIds base) = some (kw, true))
    (h : allocInstanceNode S kw base inst st = some (r, st')) :
    HeapWf full X S st' ∧ Keeps P st st' ∧ (∀ b, b < st.next → st'.heap b = st.heap b) ∧
      ∃ tr n, st'.heap r = some tr ∧ tr.node = some n ∧ n.root = none ∧ n.inst = inst ∧
        n.value = ⟨.table (some r), 0, Flags.zero, true⟩ ∧ tr.id = selIds base ++ [inst] ∧
        st.next ≤ r := by
  simp only [allocInstanceNode, Option.bind_eq_bind, Option.bind_eq_some_iff, Prod.exists,
    Option.some.injEq, Prod.mk.injEq] at h
  obtain ⟨b, st1, halloc, st2, hnode, rfl, rfl⟩ := h
  have hplace : S.place (dmSelcat base inst) = some (kw, false) := place_inst hp
  obtain ⟨htab, hg, hle, -, -, tr, htr, hid⟩ := allocTable_spec (kw + 1) kw (dmSelcat base inst) st b st1
    halloc hw.tables hplace
  have hw1 := hw.grown hg htab
  have hnone : tr.node = none := hg.node b tr hle htr
  have hw2 := hw1.addNode htr hnone hnode rfl ⟨selIds base, kw, hp, hid⟩
  have hk2 : Keeps P st1 st2 := Keeps.addNode hw1.lt hnode htr hnone
  obtain ⟨t0, ht0, hst2⟩ := DmStore.setNode_eq_some.mp hnode
  rw [htr] at ht0
  cases ht0
  refine ⟨hw2, (Keeps.grown hw.lt hg).trans hk2, ?_, ?_⟩
  · intro c hc
    rw [hst2, DmStore.put_heap, if_neg, hg.old c hc]
    intro hcb
    rw [hcb] at hc
    exact absurd hc (not_lt.mpr hle)
  · have htr2 : st2.heap b = some { tr with node := some ⟨⟨.table (some b), 0, Flags.zero, true⟩, inst, 0,
        none⟩ } := by rw [hst2, DmStore.put_heap_self]
    exact ⟨_, _, htr2, rfl, rfl, rfl, rfl, hid, hle⟩

/-! ## The number of the row -/

theorem freeIdLoop_lt (ix : Idx Addr) (n id : ℕ) (elem : Option Addr) (id' : ℕ) (hid : id < 2 ^ 16)
    (h : freeIdLoop st ix n id elem = some id') : id' < 2 ^ 16 := by
  induction n generalizing id elem with
  | zero =>
    cases elem with
    | none =>
      unfold freeIdLoop at h
      cases h
      exact hid
    | some e =>
      unfold freeIdLoop at h
      cases h
  | succ n ih =>
    cases elem with
    | none =>
      unfold freeIdLoop at h
      cases h
      exact hid
    | some e =>
      have hlt : (id + 1) % 2 ^ 16 < 2 ^ 16 := Nat.mod_lt _ (by decide)
      unfold freeIdLoop at h
      simp only [Option.bind_eq_bind, Option.bind_eq_some_iff] at h
      obtain ⟨next, -, h⟩ := h
      split at h
      · cases h
        exact hlt
      · split at h
        · cases h
          exact hlt
        · exact ih _ _ hlt h

theorem newId_lt {o : ObjTree} {id id' : ℕ} (hid : id < 2 ^ 16) (h : newId st o id = some id') :
    id' < 2 ^ 16 := by
  unfold newId at h
  split at h
  · simp only [Option.bind_eq_bind, Option.bind_eq_some_iff] at h
    obtain ⟨ti, -, elem, -, h⟩ := h
    exact freeIdLoop_lt ti.idx _ _ _ _ (Nat.mod_lt _ (by decide)) h
  · cases h
    exact hid

/-! ## The row in its object -/

/-- What an add did: row `r` with the number in `n` is new in the object of slot `i` of table `a`. -/
structure Added (full : Prop) (S : Schema) (st st' : DmStore) (kw : ℕ) (p : Selector) (a i id : ℕ)
    (r : Addr) (n : RowNode) : Prop where
  node : st'.node r = some n
  root : n.root = some (a, i)
  parity : n.value.parity = true
  fresh : st.next ≤ r
  listed : ∃ o rows o' rows', st.tree a i = some (some o) ∧ st'.tree a i = some (some o') ∧
    ObjWf full S st kw p a i o rows ∧ ObjWf full S st' kw p a i o' rows' ∧ newId st o id = some n.inst ∧
    ((∃ y ∈ rows, (st.row y).inst = n.inst) ∧ rows' = rows ∨
      (∀ y ∈ rows, (st.row y).inst ≠ n.inst) ∧ rows'.Perm (r :: rows))

/-- The number that an add would pick is that of no row. -/
def NumberFree (st : DmStore) (a i id : ℕ) : Prop :=
  ∀ o rows id', st.tree a i = some (some o) → o.Lists st.row rows → newId st o id = some id' →
    ∀ y ∈ rows, (st.row y).inst ≠ id'

section Add
variable {a i kw id : ℕ} {t : VTable} {e : DmElement} {basesel : Selector} {res : Option Addr}

theorem addInstance_spec (hw : HeapWf full nowhere S st) (ht : st.heap a = some t)
    (hp : S.place t.id = some (kw, false)) (he : (S.table kw).elems[i]? = some e)
    (hsel : selIds basesel = t.id ++ [i + 1]) (hid : id < 2 ^ 16)
    (hfree : full → NumberFree st a i id)
    (h : addInstance S st e a i basesel id = some (res, st')) :
    HeapWf full nowhere S st' ∧ Keeps P st st' ∧
      ∀ r, res = some r → ∃ n, Added full S st st' kw t.id a i id r n := by
  have hsame : some ((none : Option Addr), st) = some (res, st') → HeapWf full nowhere S st' ∧
      Keeps P st st' ∧ ∀ r, res = some r → ∃ n, Added full S st st' kw t.id a i id r n := by
    intro heq
    cases heq
    exact ⟨hw, Keeps.refl P hw.lt, fun r hr => nomatch hr⟩
  unfold addInstance at h
  by_cases hobj : e.type ≠ .object
  · rw [if_pos hobj] at h
    exact hsame h
  rw [if_neg hobj] at h
  have hobj : e.type = .object := not_not.mp hobj
  simp only [Option.bind_eq_bind, Option.bind_eq_some_iff] at h
  obtain ⟨ref, -, h⟩ := h
  cases ref with
  | none => exact hsame h
  | some ref =>
    simp only [Option.bind_eq_some_iff] at h
    obtain ⟨st0, hens, x, htree, o, rfl, h⟩ := h
    -- in a well-formed store the tree is there already
    have hst0 : st0 = st := by
      unfold ensureTree at hens
      simp only [Option.bind_eq_bind, Option.bind_eq_some_iff] at hens
      obtain ⟨y, hy, hens⟩ := hens
      obtain ⟨o1, rows, rfl, -⟩ := hw.tree ht hp (fun hx => hx) hy
      cases hens
      rfl
    subst hst0
    by_cases hmax : e.max ≤ o.tree.cnt
    · rw [if_pos hmax] at h
      exact hsame h
    rw [if_neg hmax] at h
    simp only [Option.bind_eq_some_iff, Prod.exists, Option.some.injEq, Prod.mk.injEq] at h
    obtain ⟨id', hnew, r, st1, halloc, st2, hins, rfl, rfl⟩ := h
    have hplace : S.place (selIds basesel) = some (e.table, true) := by
      rw [hsel]
      exact place_object hp he hobj
    obtain ⟨hw1, hk1, hold, tr, n, htr, hn, hroot, hinst, hval, hrid, hle⟩ :=
      allocInstanceNode_spec (P := P) hw hplace halloc
    have hta : st1.heap a = some t := by rw [hold a (hw.lt a t ht)]; exact ht
    obtain ⟨o0, rows, ho0, ho, -⟩ := hw.tree ht hp (fun hx => hx) htree
    cases ho0
    have htree1 : st1.tree a i = some (some o) := by
      obtain ⟨v, hv, hc⟩ := (tree_eq_some st0 a i _).mp htree
      refine (tree_eq_some st1 a i _).mpr ⟨v, ?_, hc⟩
      rw [DmStore.slot_eq, hta, Option.bind_some]
      rw [DmStore.slot_eq, ht, Option.bind_some] at hv
      exact hv
    have hrow1 : ∀ y ∈ rows, (st1.row y).inst = (st0.row y).inst := by
      intro y hy
      obtain ⟨ty, m, hty, -⟩ := ho.isRow y hy
      unfold DmStore.row
      simp only [DmStore.node_eq, hold y (hw.lt y ty hty)]
    have hunique : ∀ o1 rows1, st1.tree a i = some (some o1) → ObjWf full S st1 kw t.id a i o1 rows1 →
        o1 = o ∧ rows1 = rows := by
      intro o1 rows1 ho1 hrows1
      rw [htree1] at ho1
      cases ho1
      exact ⟨rfl, hrows1.lists.unique ho.lists⟩
    obtain ⟨hw2, hk2, ⟨n', hn', hval', hinst', hroot'⟩, o1, rows1, o2, rows2, ho1, ho2, hrows1, hrows2,
        hcases⟩ := insertInstance_spec (P := P) hw1 (fun hx => hx) hta hp htr hn hroot
      (by rw [hrid, hsel, hinst, List.append_assoc]; rfl) (by rw [hval])
      (by rw [hinst]; exact newId_lt hid hnew) (by
        intro hf o1 rows1 ho1 hrows1 y hy
        obtain ⟨rfl, rfl⟩ := hunique o1 rows1 ho1 hrows1
        rw [hrow1 y hy, hinst]
        exact hfree hf o1 rows1 id' htree ho.lists hnew y hy) hins
    obtain ⟨rfl, rfl⟩ := hunique o1 rows1 ho1 hrows1
    refine ⟨hw2, hk1.trans hk2, ?_⟩
    intro r0 hr0
    cases hr0
    refine ⟨n', hn', hroot', by rw [hval', hval], hle, o1, rows1, o2, rows2, htree, ho2, ho, hrows2, ?_, ?_⟩
    · rw [hinst', hinst]
      exact hnew
    · rw [hinst']
      rcases hcases with ⟨⟨y, hy, hyn⟩, hsame⟩ | ⟨hnone, hperm⟩
      · exact .inl ⟨⟨y, hy, by rw [← hrow1 y hy]; exact hyn⟩, hsame⟩
      · exact .inr ⟨fun y hy => by rw [← hrow1 y hy]; exact hnone y hy, hperm⟩

/-- Marking a row and its object changes nothing that is looked at. -/
theorem markUpdated_spec {r : Addr} {n : RowNode} {v : DmValue} {st1 : DmStore}
    (hw : HeapWf full nowhere S st) (hn : st.node r = some n) (hnp : n.value.parity = true)
    (h1 : st.setNode r { n with value := markUpdated n.value } = some st1) (hv : st1.slot a i = some v)
    (hvp : v.parity = true) (h2 : st1.setSlot a i (markUpdated v) = some st') :
    HeapWf full nowhere S st' ∧ Keeps P st st' := by
  have hw1 : HeapWf full nowhere S st1 := by
    refine hw.setNode (fun _ _ hx => hx) h1 hn ⟨rfl, rfl⟩ (.inl rfl) ?_
    intro t ht
    obtain ⟨t0, ht0, hnt⟩ := DmStore.node_eq_some.mp hn
    rw [ht] at ht0
    cases ht0
    obtain ⟨kw, hk⟩ := hw.table r t ht
    exact hk.home n hnt
  have hk1 : Keeps P st st1 := Keeps.setNode hw.lt h1 hn fun _ => ⟨rfl, rfl, rfl⟩
  have hw2 : HeapWf full nowhere S st' := hw1.setSlot (fun _ _ hx => hx) h2 hv (fun _ hf => hf)
    (fun _ hb => hb) (.inl (.inl ⟨rfl, fun _ => hvp⟩)) (fun _ => .inl rfl)
  obtain ⟨t, ht, hvt⟩ := DmStore.slot_eq_some.mp hv
  have hk2 : Keeps P st1 st' := Keeps.setSlot hw1.lt h2 ht hvt fun _ _ => ⟨rfl, Content.KeptOn.refl _ _⟩
  exact ⟨hw2, hk1.trans hk2⟩

theorem Added.mark {r : Addr} {n : RowNode} {v : DmValue} {st0 st1 : DmStore}
    (h : Added full S st st0 kw t.id a i id r n) (hw' : HeapWf full nowhere S st')
    (hk0 : Keeps (fun _ => True) st st0) (hk : Keeps P st0 st') (ht : st.heap a = some t)
    (hp : S.place t.id = some (kw, false))
    (h1 : st0.setNode r { n with value := markUpdated n.value } = some st1) (hv : st1.slot a i = some v)
    (h2 : st1.setSlot a i (markUpdated v) = some st') :
    Added full S st st' kw t.id a i id r { n with value := markUpdated n.value } := by
  refine ⟨?_, h.root, rfl, h.fresh, ?_⟩
  · rw [DmStore.node_setSlot h2, DmStore.node_setNode h1, if_pos rfl]
  obtain ⟨o, rows, o', rows', htree, htree', ho, ho', hnew, hcases⟩ := h.listed
  have htree2 : st'.tree a i = some (some o') := by
    obtain ⟨w, hw, hc⟩ := (tree_eq_some st0 a i _).mp htree'
    rw [← DmStore.slot_setNode h1, hv] at hw
    cases hw
    refine (tree_eq_some st' a i _).mpr ⟨markUpdated v, ?_, hc⟩
    rw [DmStore.slot_setSlot h2, if_pos ⟨rfl, rfl⟩]
  obtain ⟨t0, ht0⟩ := hk0.table a t ht trivial
  obtain ⟨t', ht', -, -⟩ := DmStore.setSlot_eq_some.mp h2
  obtain ⟨w, hw2, -⟩ := (tree_eq_some st' a i _).mp htree2
  obtain ⟨t2, ht2, -⟩ := DmStore.slot_eq_some.mp hw2
  have hid2 : t2.id = t.id := (hk.ids a t0 t2 ht0 ht2).trans (hk0.ids a t t0 ht ht0)
  obtain ⟨o2, rows2, ho2, hrows2, -⟩ := hw'.tree ht2 (by rw [hid2]; exact hp) (fun hx => hx) htree2
  cases ho2
  rw [hid2] at hrows2
  rw [hrows2.lists.unique ho'.lists] at hrows2
  exact ⟨o, rows, o', rows', htree, htree2, ho, hrows2, hnew, hcases⟩

/-- `dm_add_instance_by_selector`. -/
theorem addInstanceBySelector_spec {sel : Selector} (hw : HeapWf full nowhere S st) (hid : id < 2 ^ 16)
    (hfree : full → ∀ ref a i, st.getElementRef S sel = some (some ref) → ref.value = .slot a i →
      NumberFree st a i id)
    (h : addInstanceBySelector S st sel id = some (res, st')) :
    HeapWf full nowhere S st' ∧ Keeps P st st' ∧ ∀ r, res = some r → ∃ ref a i t kw n,
      st.getElementRef S sel = some (some ref) ∧ ref.value = .slot a i ∧ st.heap a = some t ∧
      S.place t.id = some (kw, false) ∧ (S.table kw).elems[i]? = some ref.elem ∧
      ref.elem.type = .object ∧ selIds sel = t.id ++ [i + 1] ∧
      Added full S st st' kw t.id a i id r n := by
  unfold addInstanceBySelector at h
  simp only [Option.bind_eq_bind, Option.bind_eq_some_iff] at h
  obtain ⟨found, href, h⟩ := h
  cases found with
  | none =>
    cases h
    exact ⟨hw, Keeps.refl P hw.lt, fun r hr => nomatch hr⟩
  | some ref =>
    dsimp only at h
    by_cases hty : ref.stType ≠ .object
    · rw [if_pos hty] at h
      cases h
      exact ⟨hw, Keeps.refl P hw.lt, fun r hr => nomatch hr⟩
    rw [if_neg hty] at h
    cases hval : ref.value with
    | row r =>
      rw [hval] at h
      cases h
    | slot a i =>
      rw [hval] at h
      simp only [Option.bind_eq_some_iff, Prod.exists] at h
      obtain ⟨res0, st0, hadd, h⟩ := h
      by_cases hobj : ref.elem.type = .object
      · have hat := getElementRef_selIds hw href (by simp [DmElement.container, hobj])
        generalize hq : selIds sel = q at hat
        cases hat with
        | row b j t kw e r0 id0 tr ht hp he _ htr hrid hrow hmem => cases hval
        | slot b j t kw e stType ht hp he =>
          obtain ⟨hba, hji⟩ := Loc.slot.inj hval
          subst hba hji
          obtain ⟨hw0, hk0, hres⟩ := addInstance_spec (P := fun _ => True) hw ht hp he hq hid
            (fun hf => hfree hf _ _ _ href rfl) hadd
          cases res0 with
          | none =>
            cases h
            exact ⟨hw0, hk0.mono fun _ _ => trivial, fun r hr => nomatch hr⟩
          | some r =>
            simp only [Option.bind_eq_some_iff, Option.some.injEq, Prod.mk.injEq] at h
            obtain ⟨n, hn, st1, h1, v, hv, st2, h2, rfl, rfl⟩ := h
            obtain ⟨n0, hadded⟩ := hres r rfl
            have hn0 := hadded.node
            rw [hn] at hn0
            cases hn0
            -- the parity of the object was checked before
            obtain ⟨w, hw1, hwp⟩ := getElementRef_checked sel _ href
            obtain ⟨tw, htw, hwt⟩ := DmStore.slot_eq_some.mp hw1
            obtain ⟨w', hw', hwp', -⟩ := hk0.slot b tw j w htw hwt trivial hwp
            rw [← DmStore.slot_setNode h1, hv] at hw'
            cases hw'
            obtain ⟨hw2, hk2⟩ := markUpdated_spec (P := P) hw0 hn hadded.parity h1 hv hwp' h2
            refine ⟨hw2, (hk0.mono fun _ _ => trivial).trans hk2, ?_⟩
            intro r0 hr0
            cases hr0
            refine ⟨_, b, j, t, kw, { n with value := markUpdated n.value }, href, rfl, ht, hp, he, hobj, rfl,
              ?_⟩
            exact hadded.mark hw2 hk0 hk2 ht hp h1 hv h2
      · -- not an object: nothing was added
        unfold addInstance at hadd
        rw [if_pos hobj] at hadd
        cases hadd
        cases h
        exact ⟨hw, Keeps.refl P hw.lt, fun r hr => nomatch hr⟩

/-- The table of a row that was added. -/
theorem Added.table {r : Addr} {n : RowNode} (h : Added full S st st' kw t.id a i id r n) (hw' : HeapWf full nowhere S st')
    (hk : Keeps (fun _ => True) st st') (ht : st.heap a = some t) (hp : S.place t.id = some (kw, false))
    (he : (S.table kw).elems[i]? = some e) (hobj : e.type = .object) :
    ∃ tr, st'.heap r = some tr ∧ tr.id = t.id ++ [i + 1, n.inst] ∧
      S.place tr.id = some (e.table, false) ∧ n.inst < 2 ^ 16 := by
  obtain ⟨tr, htr, hn⟩ := DmStore.node_eq_some.mp h.node
  obtain ⟨kr, hkr⟩ := hw'.table r tr htr
  obtain ⟨t', ht'⟩ := hk.table a t ht trivial
  obtain ⟨hid, -, hlt⟩ := (hkr.home n hn a i h.root).2 t' ht'
  rw [hk.ids a t t' ht ht'] at hid
  refine ⟨tr, htr, hid, ?_, hlt⟩
  have hsplit : tr.id = t.id ++ [i + 1] ++ [n.inst] := by rw [hid]; simp
  rw [hsplit]
  exact place_inst (place_object hp he hobj)

end Add

/-! ## The first store -/

theorem init_wf (h : DmStore.init S = some st) : HeapWf full nowhere S st := by
  simp only [DmStore.init, Option.bind_eq_bind, Option.bind_eq_some_iff, Prod.exists,
    Option.some.injEq] at h
  obtain ⟨a, st0, halloc, rfl⟩ := h
  have hempty : TablesWf full nowhere S ⟨fun _ => none, 0, 0⟩ :=
    ⟨fun _ _ ht => (nomatch ht), fun _ _ _ _ _ _ _ hv => (nomatch hv)⟩
  obtain ⟨htab, -, -, -, -, t, ht, hid⟩ := allocTable_spec (S.root + 1) S.root [] _ a st0 halloc hempty rfl
  have hw := htab.skip st0.next (le_refl _) a
  exact ⟨⟨t, ht, hid⟩, hw.table, hw.inj⟩

end Mand.Store
