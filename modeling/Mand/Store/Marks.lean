import Mand.Store.Delete
import Mand.Store.Write

/-! # Who takes off a mark

The mark of a pending value stays on a slot whatever is written around it. Only a setter that assigns the
whole value, and a deletion of what the slot is in, take it off. -/
namespace Mand.Store
open Mand.Index
set_option autoImplicit false

variable {full : Prop} {S : Schema} {st st' : DmStore} {a i : ℕ}

/-- The value in slot `i` of table `a` is pending. -/
def Marked (st : DmStore) (a i : ℕ) : Prop := ∃ v, st.slot a i = some v ∧ v.flags.pending = true

/-! ## Single writes -/

theorem Marked.setSlot {b j : ℕ} {w : DmValue} (h : Marked st a i) (hst : st.setSlot b j w = some st')
    (hkeep : ∀ v, st.slot b j = some v → b = a ∧ j = i → v.flags.pending = true → w.flags.pending = true) :
    Marked st' a i := by
  obtain ⟨v, hv, hp⟩ := h
  by_cases heq : a = b ∧ i = j
  · refine ⟨w, ?_, ?_⟩
    · rw [DmStore.slot_setSlot hst, if_pos heq]
    · rw [heq.1, heq.2] at hv
      exact hkeep v hv ⟨heq.1.symm, heq.2.symm⟩ hp
  · refine ⟨v, ?_, hp⟩
    rw [DmStore.slot_setSlot hst, if_neg heq]
    exact hv

/-- A write that takes over the flags. -/
theorem Marked.rewrite {b j : ℕ} {v w : DmValue} (h : Marked st a i) (hv : st.slot b j = some v)
    (hst : st.setSlot b j w = some st') (hw : w.flags.pending = v.flags.pending) : Marked st' a i := by
  refine h.setSlot hst ?_
  intro v' hv' _ hp
  rw [hv] at hv'
  cases hv'
  rw [hw]
  exact hp

theorem Marked.setNode {r : Addr} {n : RowNode} (h : Marked st a i) (hst : st.setNode r n = some st') :
    Marked st' a i := by
  obtain ⟨v, hv, hp⟩ := h
  exact ⟨v, by rw [DmStore.slot_setNode hst]; exact hv, hp⟩

theorem Marked.setTree {b j : ℕ} {o : ObjTree} (h : Marked st a i) (hst : setTree st b j o = some st') :
    Marked st' a i := by
  obtain ⟨v, hv, hst⟩ := setTree_eq_some hst
  exact h.rewrite hv hst rfl

theorem Marked.addCounter {cntr : Option (Addr × ℕ)} {d : ℕ} (h : Marked st a i)
    (hst : addCounter st cntr d = some st') : Marked st' a i := by
  cases addCounter_eq_some hst with
  | inl hsame =>
    rw [hsame.2]
    exact h
  | inr hset =>
    obtain ⟨b, id, v, n, -, hv, -, -, hst⟩ := hset
    exact h.rewrite hv hst rfl

theorem Marked.setById {b id : ℕ} {x : Value} (h : Marked st a i) (hst : setById st b id x = some st') :
    Marked st' a i := by
  simp only [Store.setById, Option.bind_eq_bind, Option.bind_eq_some_iff] at hst
  obtain ⟨old, hold, u, -, hst⟩ := hst
  exact h.rewrite hold hst rfl

/-! ## Indexes -/

theorem Marked.updateIndex {id : ℕ} {r : Addr} (h : Marked st a i) (hst : updateIndex st id r = some st') :
    Marked st' a i := by
  simp only [Store.updateIndex, Option.bind_eq_bind, Option.bind_eq_some_iff] at hst
  obtain ⟨n, -, hst⟩ := hst
  split at hst
  · cases hst
    exact h
  · simp only [Option.bind_eq_some_iff] at hst
    obtain ⟨x, -, t, -, tree, -, hst⟩ := hst
    exact h.setTree hst

theorem Marked.updateInstanceNodeIndex {r : Addr} (h : Marked st a i)
    (hst : updateInstanceNodeIndex st r = some st') : Marked st' a i := by
  simp only [Store.updateInstanceNodeIndex, Option.bind_eq_bind, Option.bind_eq_some_iff] at hst
  obtain ⟨n, -, hst⟩ := hst
  split at hst
  · cases hst
    exact h
  · simp only [Option.bind_eq_some_iff] at hst
    obtain ⟨x, -, t, -, tree, -, hst⟩ := hst
    exact h.setTree hst

theorem Marked.reindex {e : DmElement} {id : ℕ} {r : Addr} (h : Marked st a i)
    (hst : reindex st e id r = some st') : Marked st' a i := by
  unfold Store.reindex at hst
  split at hst
  · exact h.updateIndex hst
  · cases hst
    exact h

/-! ## Setters -/

/-- Setters that assign the whole `DM_VALUE`, flags included. -/
def SetHook.wholesale : SetHook → Bool
  | .clockCurrentdatetime => true
  | .addressPrefixlength _ _ => true
  | .addressNetmask _ => false

def DmElement.wholesale (e : DmElement) : Bool := e.set.any SetHook.wholesale

theorem Marked.updateAddressNetmask {undef b read update : ℕ} (h : Marked st a i)
    (hst : updateAddressNetmask undef st b read update = some st') : Marked st' a i := by
  simp only [Store.updateAddressNetmask, Option.bind_eq_bind, Option.bind_eq_some_iff] at hst
  obtain ⟨v, -, u, -, hst⟩ := hst
  split at hst
  · exact h.setById hst
  · cases hst

theorem Marked.updateAddressPrefixlength {undef b update : ℕ} {s : Option (List ℕ)} (h : Marked st a i)
    (hst : updateAddressPrefixlength undef st b s update = some st') : Marked st' a i := by
  simp only [Store.updateAddressPrefixlength, Option.bind_eq_bind, Option.bind_eq_some_iff] at hst
  obtain ⟨x, -, hst⟩ := hst
  exact h.setById hst

/-- A value is written to slot `j` of table `b`. -/
theorem Marked.assign {undef b j : ℕ} {e : DmElement} {val : DmValue} {r : DmResult} (h : Marked st a i)
    (hst : assign undef st e b (.slot b j) val = some (r, st'))
    (hw : b = a → j = i → e.wholesale = false) : Marked st' a i := by
  unfold Store.assign at hst
  split at hst
  · rename_i hook hset
    -- a setter that assigns the whole value is not the one of the marked slot
    have hother : hook.wholesale = true → ∀ v, st.slot b j = some v → b = a ∧ j = i →
        v.flags.pending = true → val.flags.pending = true := by
      intro hwhole v _ heq _
      have hno := hw heq.1 heq.2
      simp only [DmElement.wholesale, hset, Option.any_some, hwhole] at hno
      cases hno
    cases hook with
    | clockCurrentdatetime =>
      simp only [SetHook.run, Option.bind_eq_bind, Option.bind_eq_some_iff, Option.some.injEq,
        Prod.mk.injEq] at hst
      obtain ⟨st1, h1, -, rfl⟩ := hst
      exact h.setSlot h1 (hother rfl)
    | addressPrefixlength read update =>
      simp only [SetHook.run, Option.bind_eq_bind, Option.bind_eq_some_iff, Option.some.injEq,
        Prod.mk.injEq] at hst
      obtain ⟨st1, h1, st2, h2, -, rfl⟩ := hst
      exact (h.setSlot h1 (hother rfl)).updateAddressNetmask h2
    | addressNetmask update =>
      simp only [SetHook.run] at hst
      split at hst
      · simp only [Option.bind_eq_bind, Option.bind_eq_some_iff, Option.some.injEq, Prod.mk.injEq] at hst
        obtain ⟨old, hold, u, -, st1, h1, st2, h2, -, rfl⟩ := hst
        have hm1 : Marked st1 a i := h.rewrite hold h1 rfl
        exact hm1.updateAddressPrefixlength h2
      · cases hst
        exact h
  · simp only [Option.bind_eq_bind, Option.bind_eq_some_iff, Option.some.injEq, Prod.mk.injEq] at hst
    obtain ⟨old, hold, st1, h1, -, rfl⟩ := hst
    exact h.rewrite hold h1 rfl

/-- `dm_overwrite_any_value_by_selector`. -/
theorem Marked.overwriteValue {undef : ℕ} {sel : Selector} {val : DmValue} {r : DmResult}
    (h : Marked st a i) (hw : HeapWf full nowhere S st)
    (hleaf : ∀ ref, st.getElementRef S sel = some (some ref) → ref.elem.container = false ∧
      (ref.value = .slot a i → ref.elem.wholesale = false))
    (hst : overwriteValue undef S st sel val = some (r, st')) : Marked st' a i := by
  unfold Store.overwriteValue at hst
  simp only [Option.bind_eq_bind, Option.bind_eq_some_iff] at hst
  obtain ⟨found, href, hst⟩ := hst
  cases found with
  | none =>
    cases hst
    exact h
  | some ref =>
    obtain ⟨hl, hwhole⟩ := hleaf ref href
    obtain ⟨b, j, hbase, hvalue, -⟩ := getElementRef_leaf hw href hl
    dsimp only at hst
    rw [hbase] at hst
    simp only [hvalue, Option.bind_eq_some_iff, Prod.exists] at hst
    obtain ⟨old, -, u, -, r1, st1, h1, v1, hv1, st2, h2, hst⟩ := hst
    have hm1 : Marked st1 a i := h.assign h1 fun hb hj => hwhole (by rw [hvalue, hb, hj])
    have hm2 : Marked st2 a i := hm1.rewrite hv1 h2 rfl
    split at hst
    · simp only [Option.bind_eq_some_iff, Option.some.injEq, Prod.mk.injEq] at hst
      obtain ⟨v2, hv2, st3, h3, st4, h4, -, rfl⟩ := hst
      have hm3 : Marked st3 a i := hm2.rewrite hv2 h3 rfl
      exact hm3.reindex h4
    · cases hst
      exact hm2

/-! ## Rows -/

theorem Marked.insertInstance {b j : ℕ} {r : Addr} (h : Marked st a i)
    (hst : insertInstance st b j r = some st') : Marked st' a i := by
  simp only [Store.insertInstance, Option.bind_eq_bind, Option.bind_eq_some_iff] at hst
  obtain ⟨x, -, t, -, tree, -, n, -, st1, h1, st2, h2, h3⟩ := hst
  exact ((h.setNode h1).setTree h2).addCounter h3

theorem Marked.old (h : Marked st a i) (hlt : ∀ b t, st.heap b = some t → b < st.next)
    (hold : ∀ b, b < st.next → st'.heap b = st.heap b) : Marked st' a i := by
  obtain ⟨v, hv, hp⟩ := h
  obtain ⟨t, ht, hvt⟩ := DmStore.slot_eq_some.mp hv
  refine ⟨v, DmStore.slot_eq_some.mpr ⟨t, ?_, hvt⟩, hp⟩
  rw [hold a (hlt a t ht)]
  exact ht

/-- `dm_add_instance`. -/
theorem Marked.addInstance {e : DmElement} {b j kw id : ℕ} {t : VTable} {sel : Selector} {res : Option Addr}
    (h : Marked st a i) (hw : HeapWf full nowhere S st) (ht : st.heap b = some t)
    (hp : S.place t.id = some (kw, false)) (he : (S.table kw).elems[j]? = some e)
    (hsel : selIds sel = t.id ++ [j + 1]) (hst : addInstance S st e b j sel id = some (res, st')) :
    Marked st' a i := by
  unfold Store.addInstance at hst
  by_cases hobj : e.type ≠ .object
  · rw [if_pos hobj] at hst
    cases hst
    exact h
  rw [if_neg hobj] at hst
  have hobj : e.type = .object := not_not.mp hobj
  simp only [Option.bind_eq_bind, Option.bind_eq_some_iff] at hst
  obtain ⟨ref, -, hst⟩ := hst
  cases ref with
  | none =>
    cases hst
    exact h
  | some ref =>
    simp only [Option.bind_eq_some_iff] at hst
    obtain ⟨st0, hens, x, htree, o, rfl, hst⟩ := hst
    have hst0 : st0 = st := by
      unfold ensureTree at hens
      simp only [Option.bind_eq_bind, Option.bind_eq_some_iff] at hens
      obtain ⟨y, hy, hens⟩ := hens
      obtain ⟨o1, rows, rfl, -⟩ := hw.tree ht hp (fun hx => hx) hy
      cases hens
      rfl
    subst hst0
    split at hst
    · cases hst
      exact h
    simp only [Option.bind_eq_some_iff, Prod.exists, Option.some.injEq, Prod.mk.injEq] at hst
    obtain ⟨id', hnew, r, st1, halloc, st2, hins, -, rfl⟩ := hst
    have hplace : S.place (selIds sel) = some (e.table, true) := by
      rw [hsel]
      exact place_object hp he hobj
    obtain ⟨-, -, hold, -⟩ := allocInstanceNode_spec (P := fun _ => True) hw hplace halloc
    exact (h.old hw.lt hold).insertInstance hins

/-- `dm_add_instance_by_selector`. -/
theorem Marked.addInstanceBySelector {sel : Selector} {id : ℕ} {res : Option Addr} (h : Marked st a i)
    (hw : HeapWf full nowhere S st) (hst : addInstanceBySelector S st sel id = some (res, st')) :
    Marked st' a i := by
  unfold Store.addInstanceBySelector at hst
  simp only [Option.bind_eq_bind, Option.bind_eq_some_iff] at hst
  obtain ⟨found, href, hst⟩ := hst
  cases found with
  | none =>
    cases hst
    exact h
  | some ref =>
    dsimp only at hst
    split at hst
    · cases hst
      exact h
    cases hval : ref.value with
    | row r =>
      rw [hval] at hst
      cases hst
    | slot b j =>
      rw [hval] at hst
      simp only [Option.bind_eq_some_iff, Prod.exists] at hst
      obtain ⟨res0, st0, hadd, hst⟩ := hst
      have hm0 : Marked st0 a i := by
        by_cases hobj : ref.elem.type = .object
        · have hat := getElementRef_selIds hw href (by simp [DmElement.container, hobj])
          generalize hq : selIds sel = q at hat
          cases hat with
          | row b' j' t kw e r0 id0 tr ht hp he _ htr hrid hrow hmem => cases hval
          | slot b' j' t kw e stType ht hp he =>
            obtain ⟨rfl, rfl⟩ := Loc.slot.inj hval
            exact h.addInstance hw ht hp he hq hadd
        · unfold Store.addInstance at hadd
          rw [if_pos hobj] at hadd
          cases hadd
          exact h
      cases res0 with
      | none =>
        cases hst
        exact hm0
      | some r =>
        simp only [Option.bind_eq_some_iff, Option.some.injEq, Prod.mk.injEq] at hst
        obtain ⟨n, -, st1, h1, v, hv, st2, h2, -, rfl⟩ := hst
        exact (hm0.setNode h1).rewrite hv h2 rfl

end Mand.Store
