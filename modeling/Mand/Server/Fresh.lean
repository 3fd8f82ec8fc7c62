import Mand.Server.Array

/-! # The rows of an array

A new row before its first value is set, and an array after its rows are gone. -/
namespace Mand.Server
open Mand.Store Mand.Index Mand.Msg
set_option autoImplicit false

variable {S : Schema} {env : Env} {st st' st1 st2 : DmStore} {a i r : Addr}

/-! ## A new row -/

/-- The value that `dm_init_table` gives a leaf. -/
def freshValue (e : DmElement) : DmValue := ⟨.scalar (zeroValue e.type), notifyDefault e, Flags.zero, true⟩

theorem allocTable_first {n kw : ℕ} {id : Selector} {e : DmElement} (he : (S.table kw).elems[0]? = some e)
    (hleaf : e.container = false) (h : allocTable S n kw id st = some (r, st')) : st'.slot r 0 = some (freshValue e) := by
  cases n with
  | zero => cases h
  | succ n =>
    simp only [allocTable, Option.bind_eq_bind, Option.bind_eq_some_iff, Prod.exists, Option.some.injEq, Prod.mk.injEq] at h
    obtain ⟨vs, st1, hvs, rfl, rfl⟩ := h
    generalize (S.table kw).elems = elems at he hvs
    cases elems with
    | nil => cases he
    | cons e' rest =>
      cases he
      simp only [initValues, Option.bind_eq_bind, Option.bind_eq_some_iff, Prod.exists, Option.some.injEq,
        Prod.mk.injEq] at hvs
      obtain ⟨c, st2, hc, vs', st3, -, rfl, -⟩ := hvs
      have hscalar : c = .scalar (zeroValue e.type) := by
        unfold initContent at hc
        cases ht : e.type <;> rw [ht] at hc <;> simp [DmElement.container, ht] at hleaf <;> cases hc <;> rfl
      rw [DmStore.slot_eq, DmStore.put_heap_self, hscalar]
      rfl

/-- The other tables keep their values when a row is put into its object. -/
theorem insertInstance_other {o : ObjTree} (htree : st.tree a i = some (some o)) (hcntr : ∀ x, o.cntr = some x → x.1 = a)
    (h : insertInstance st a i r = some st') {b : Addr} (hb : b ≠ a) (j : ℕ) : st'.slot b j = st.slot b j := by
  simp only [insertInstance, Option.bind_eq_bind, Option.bind_eq_some_iff] at h
  obtain ⟨x, hx, o', rfl, tree', -, n, -, st1, h1, st2, h2, h3⟩ := h
  rw [htree] at hx
  cases hx
  obtain ⟨v, -, hset⟩ := setTree_eq_some h2
  have hstep : st2.slot b j = st.slot b j := by
    rw [DmStore.slot_setSlot hset, if_neg fun hba => hb hba.1, DmStore.slot_setNode h1]
  rcases addCounter_eq_some h3 with ⟨-, rfl⟩ | ⟨c, id, w, m, hc, -, -, -, hcnt⟩
  · exact hstep
  · have hca : c = a := hcntr (c, id) hc
    rw [DmStore.slot_setSlot hcnt, if_neg, hstep]
    rintro ⟨hbc, -⟩
    exact hb (hbc.trans hca)

/-- The first value of a row that `dm_add_instance_by_selector` made. -/
theorem addInstanceBySelector_first {sel : Selector} {id : ℕ} {e : DmElement}
    (hw : HeapWf False nowhere env.schema st) (ha : ArrayAt env.schema sel e) (hid : id < 2 ^ 16)
    (h : addInstanceBySelector env.schema st sel id = some (some r, st')) : st'.slot r 0 = some (freshValue e) := by
  obtain ⟨-, hfresh⟩ := arrayRow_leaf (fun hf => hf) ha hid hw h
  rcases addInstanceBySelector_cases hw h with ⟨hnone, -⟩ | ⟨r', ref, a, i, kw, t, hr, had⟩
  · cases hnone
  cases hr
  obtain ⟨st0, st1, n, v, hadd, -, h1, -, h2⟩ := had.marked
  rcases addInstance_cases hw had.heap had.place hadd with ⟨hnone, -⟩ | ⟨r', o, id', st3, hr, -, htree, -, halloc, hins⟩
  · cases hnone
  cases hr
  have hne : r ≠ a := Nat.ne_of_gt (lt_of_lt_of_le (hw.lt a t had.heap) hfresh)
  have hplace : env.schema.place (selIds sel) = some (ref.elem.table, true) := by
    rw [had.ids]
    exact place_object had.place had.elem had.object
  obtain ⟨-, -, hold, -⟩ := allocInstanceNode_spec (P := fun _ => True) hw hplace halloc
  obtain ⟨o0, rows, ho0, ho, -⟩ := hw.tree had.heap had.place (fun hx => hx) htree
  cases ho0
  have htree3 : st3.tree a i = some (some o) := by
    obtain ⟨w, hv, hc⟩ := (tree_eq_some st a i _).mp htree
    refine (tree_eq_some st3 a i _).mpr ⟨w, ?_, hc⟩
    rw [DmStore.slot_eq, hold a (hw.lt a t had.heap), ← DmStore.slot_eq]
    exact hv
  have hcntr : ∀ x, o.cntr = some x → x.1 = a := by
    intro x hx
    rw [ho.cntr] at hx
    obtain ⟨c, -, rfl⟩ := Option.map_eq_some_iff.mp hx
    rfl
  -- the element of the row is the one of the array
  have hpath : env.schema.path sel = t.id ++ [i + 1] := by
    have hat := getElementRef_path hw had.found
    have hat' := getElementRef_selIds hw had.found (by simp [DmElement.container, had.object])
    rw [hat.unique hat', had.ids]
  obtain ⟨he0, hleaf⟩ := ha kw i ref.elem (by rw [hpath, List.dropLast_concat]; exact had.place)
    (by rw [hpath, List.getLast?_concat]) had.elem
  rw [DmStore.slot_setSlot h2, if_neg fun hra => hne hra.1, DmStore.slot_setNode h1,
    insertInstance_other htree3 hcntr hins hne]
  simp only [allocInstanceNode, Option.bind_eq_bind, Option.bind_eq_some_iff, Prod.exists, Option.some.injEq,
    Prod.mk.injEq] at halloc
  obtain ⟨b, st4, htable, st5, hnode, rfl, rfl⟩ := halloc
  rw [DmStore.slot_setNode hnode]
  exact allocTable_first he0 hleaf htable

/-! ## An array without rows -/

/-- `dm_del_table_by_selector` of an object leaves it where it is, without rows. -/
theorem delTableBySelector_empty {sel : Selector} {ref : Ref} {found : Bool} (hw : HeapWf False nowhere S st)
    (href : st.getElementRef S sel = some (some ref)) (hval : ref.value = .slot a i) (hobj : ref.elem.type = .object)
    (h : delTableBySelector S st sel = some (found, st')) :
    found = true ∧ st'.getElementRef S sel = some (some ref) ∧ ∃ o o', st.tree a i = some (some o) ∧
      st'.tree a i = some (some o') ∧ o'.Lists st'.row [] ∧
      ∀ rows, o.Lists st.row rows → o'.tree.cnt = countDown^[rows.length] o.tree.cnt := by
  obtain ⟨hw', -⟩ := delTableBySelector_spec hw h
  simp only [delTableBySelector, href, Option.bind_eq_bind, Option.bind_some, Option.bind_eq_some_iff, Option.some.injEq,
    Prod.mk.injEq] at h
  obtain ⟨st1, hdel, rfl, rfl⟩ := h
  refine ⟨rfl, ?_⟩
  have hty := getElementRef_slotType href hval hobj
  have hat := getElementRef_selIds hw href (by simp [DmElement.container, hobj])
  obtain ⟨v, hv, -⟩ := getElementRef_checked sel ref href
  have hkeep (q : Selector) (hq : ref.At S st q) (hk : Keeps (fun p => ∀ x, ¬q ++ [x] <+: p) st st1) :
      st1.getElementRef S sel = some (some ref) := by
    refine getElementRef_keeps href hk hw hw' hq fun q' hq' x hx => ?_
    have := (hx.trans hq').length_le
    rw [List.length_append, List.length_singleton] at this
    omega
  generalize selIds sel = q at hat
  have hkeep := hkeep q hat
  cases hat with
  | row b j t kw e r0 id tr ht hp he _ htr hrid hrow hmem => cases hval
  | slot b j t kw e stType ht hp he =>
    obtain ⟨rfl, rfl⟩ := Loc.slot.inj hval
    have hty : stType = .object := hty
    subst hty
    have hdel : delObject (delTable S (e.table + 1)) e b j st.fuel st = some st1 := hdel
    have hv : st.slot b j = some v := hv
    obtain ⟨k, hk⟩ := hw.table b t ht
    obtain ⟨t0, ht0, hvt⟩ := DmStore.slot_eq_some.mp hv
    rw [ht] at ht0
    cases ht0
    have hkp := hk.place
    rw [hp] at hkp
    cases hkp
    obtain ⟨e', he', hfit⟩ := hk.fits j v hvt
    rw [he] at he'
    cases he'
    obtain ⟨o, hc⟩ := fits_object hfit hobj
    have hP (x : ℕ) (p : Selector) (hp : t.id ++ [j + 1, x] <+: p) : ¬∀ y, ¬(t.id ++ [j + 1]) ++ [y] <+: p :=
      fun hno => hno x (by simpa using hp)
    obtain ⟨-, -, hkept, o', ho', hempty, hcnt⟩ := delObject_spec (t := t) (delTable_spec _) hp he hobj (fun hx => hx) hP _ st st1
      t v o hw ht rfl (fun _ _ _ _ _ hx => hx) hv hc hdel
    exact ⟨hkeep hkept, o, o', (tree_eq_some st b j _).mpr ⟨v, hv, hc⟩, (tree_eq_some st1 b j _).mpr ⟨_, ho', rfl⟩,
      hempty.lists, hcnt⟩

end Mand.Server
