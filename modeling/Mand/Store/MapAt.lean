import Mand.Store.Resolve
import Mand.Store.Wf

/-! # Rewriting some of the values

A store whose values at some locations are rewritten by a function that leaves their contents alone. Nothing
that selectors, indexes or well-formedness look at changes. -/
namespace Mand.Store
open Mand.Index
open scoped Classical
set_option autoImplicit false

variable {full : Prop} {S : Schema} {st : DmStore} {P Q : Set Loc} {f : DmValue → DmValue}

noncomputable def mapIn (P : Set Loc) (f : DmValue → DmValue) (l : Loc) (v : DmValue) : DmValue :=
  if l ∈ P then f v else v

noncomputable def VTable.mapAt (P : Set Loc) (f : DmValue → DmValue) (a : Addr) (t : VTable) : VTable where
  id := t.id
  values := t.values.mapIdx fun i v => mapIn P f (.slot a i) v
  node := t.node.map fun n => { n with value := mapIn P f (.row a) n.value }

/-- Every value at a location in `P` is rewritten by `f`. -/
noncomputable def DmStore.mapAt (P : Set Loc) (f : DmValue → DmValue) (st : DmStore) : DmStore :=
  { st with heap := fun a => (st.heap a).map (VTable.mapAt P f a) }

/-- The function leaves the contents alone and makes the parity right. -/
structure Relabels (f : DmValue → DmValue) : Prop where
  content : ∀ v, (f v).content = v.content
  parity : ∀ v, (f v).parity = true

/-! ## Reads -/

theorem mapAt_slot (a i : ℕ) : (st.mapAt P f).slot a i = (st.slot a i).map (mapIn P f (.slot a i)) := by
  simp only [DmStore.slot_eq, DmStore.mapAt]
  cases st.heap a with
  | none => rfl
  | some t => simp [VTable.mapAt]

theorem mapAt_node (a : Addr) : (st.mapAt P f).node a =
    (st.node a).map fun n => { n with value := mapIn P f (.row a) n.value } := by
  simp only [DmStore.node_eq, DmStore.mapAt]
  cases st.heap a with
  | none => rfl
  | some t => rfl

theorem mapAt_value (l : Loc) : (st.mapAt P f).value l = (st.value l).map (mapIn P f l) := by
  cases l with
  | slot a i => exact mapAt_slot a i
  | row a =>
    show ((st.mapAt P f).node a).map RowNode.value = ((st.node a).map RowNode.value).map (mapIn P f (.row a))
    rw [mapAt_node]
    cases st.node a with
    | none => rfl
    | some n => rfl

@[simp]
theorem mapAt_fuel : (st.mapAt P f).fuel = st.fuel := rfl

theorem mapIn_content (hf : Relabels f) (l : Loc) (v : DmValue) : (mapIn P f l v).content = v.content := by
  unfold mapIn
  split
  · exact hf.content v
  · rfl

theorem mapIn_parity (hf : Relabels f) (l : Loc) {v : DmValue} (hv : v.parity = true) :
    (mapIn P f l v).parity = true := by
  unfold mapIn
  split
  · exact hf.parity v
  · exact hv

theorem mapAt_row (hf : Relabels f) : (st.mapAt P f).row = st.row := by
  funext a
  unfold DmStore.row
  congr 1
  · rw [mapAt_node]
    cases st.node a with
    | none => rfl
    | some n => rfl
  · funext id
    rw [mapAt_slot]
    cases st.slot a (id - 1) with
    | none => rfl
    | some v => simp only [Option.map_some, mapIn_content hf]

theorem mapAt_tree (hf : Relabels f) (a i : ℕ) : (st.mapAt P f).tree a i = st.tree a i := by
  unfold DmStore.tree
  rw [mapAt_slot]
  cases st.slot a i with
  | none => rfl
  | some v => simp only [Option.map_some, Option.bind_eq_bind, Option.bind_some, mapIn_content hf]

theorem mapAt_instanceNode (hf : Relabels f) (t : Option ObjTree) (id : ℕ) :
    (st.mapAt P f).instanceNode t id = st.instanceNode t id := by
  unfold DmStore.instanceNode
  rw [mapAt_row hf, mapAt_fuel]

theorem mapAt_intact (hf : Relabels f) (h : Intact st) : Intact (st.mapAt P f) := by
  intro a i v hv
  rw [mapAt_slot] at hv
  obtain ⟨w, hw, rfl⟩ := Option.map_eq_some_iff.mp hv
  exact mapIn_parity hf _ (h a i w hw)

/-! ## Writes -/

theorem RowNode.mapIn_of_notMem {l : Loc} (hl : l ∉ P) (n : RowNode) : { n with value := mapIn P f l n.value } = n := by
  cases n with
  | mk value inst idm root => simp only [mapIn, if_neg hl]

theorem VTable.mapAt_of_notMem {a : Addr} (hslot : ∀ i, Loc.slot a i ∉ P) (hrow : Loc.row a ∉ P) (t : VTable) :
    t.mapAt P f a = t := by
  have hvals : t.values.mapIdx (fun i v => mapIn P f (.slot a i) v) = t.values := by
    apply List.ext_getElem?
    intro i
    rw [List.getElem?_mapIdx]
    cases t.values[i]? with
    | none => rfl
    | some v => rw [Option.map_some, mapIn, if_neg (hslot i)]
  unfold VTable.mapAt
  simp only [hvals, RowNode.mapIn_of_notMem hrow, Option.map_id']

theorem mapAt_empty : st.mapAt ∅ f = st := by
  unfold DmStore.mapAt
  have ht : ∀ a, VTable.mapAt ∅ f a = id := by
    intro a
    funext t
    exact t.mapAt_of_notMem (fun i => Set.notMem_empty _) (Set.notMem_empty _)
  simp only [ht, Option.map_id_fun, id_eq]

/-- A table is overwritten, and it is the only one with a location in `P`. -/
theorem put_mapAt {a : Addr} {t : VTable} (ht : st.heap a = some t)
    (hP : ∀ b, b ≠ a → (∀ i, Loc.slot b i ∉ P) ∧ Loc.row b ∉ P) : st.put a (t.mapAt P f a) = st.mapAt P f := by
  unfold DmStore.put DmStore.mapAt
  congr 1
  funext b
  rw [Function.update_apply]
  by_cases hb : b = a
  · rw [if_pos hb, hb, ht, Option.map_some]
  · rw [if_neg hb]
    cases st.heap b with
    | none => rfl
    | some t => rw [Option.map_some, t.mapAt_of_notMem (hP b hb).1 (hP b hb).2]

/-- The value at one location is rewritten. -/
theorem setValue_mapAt {l : Loc} {v : DmValue} (hv : st.value l = some v) :
    st.setValue l (f v) = some (st.mapAt {l} f) := by
  cases l with
  | slot a i =>
    obtain ⟨t, ht, hvt⟩ := DmStore.slot_eq_some.mp hv
    have hi : i < t.values.length := (List.getElem?_eq_some_iff.mp hvt).1
    refine DmStore.setSlot_eq_some.mpr ⟨t, ht, hi, ?_⟩
    rw [← put_mapAt ht]
    · congr 1
      unfold VTable.mapAt VTable.setValue
      simp only [RowNode.mapIn_of_notMem (P := {Loc.slot a i}) (l := .row a) (by simp), Option.map_id']
      congr 1
      apply List.ext_getElem?
      intro j
      rw [List.getElem?_mapIdx, List.getElem?_set]
      by_cases hj : i = j
      · subst hj
        rw [if_pos rfl, if_pos hi, hvt, Option.map_some, mapIn, if_pos (Set.mem_singleton _)]
      · rw [if_neg hj]
        cases t.values[j]? with
        | none => rfl
        | some w =>
          rw [Option.map_some, mapIn, if_neg]
          intro hmem
          exact hj (Loc.slot.inj hmem).2.symm
    · intro b hb
      refine ⟨fun j hmem => hb (Loc.slot.inj hmem).1, fun hmem => nomatch hmem⟩
  | row a =>
    obtain ⟨n, hn, rfl⟩ := Option.map_eq_some_iff.mp hv
    obtain ⟨t, ht, hnt⟩ := DmStore.node_eq_some.mp hn
    refine Option.bind_eq_some_iff.mpr ⟨n, hn, DmStore.setNode_eq_some.mpr ⟨t, ht, ?_⟩⟩
    rw [← put_mapAt ht]
    · congr 1
      unfold VTable.mapAt
      rw [hnt, Option.map_some, mapIn, if_pos (Set.mem_singleton _)]
      congr 1
      apply List.ext_getElem?
      intro j
      rw [List.getElem?_mapIdx]
      cases t.values[j]? with
      | none => rfl
      | some w =>
        rw [Option.map_some, mapIn, if_neg]
        intro hmem
        exact nomatch hmem
    · intro b hb
      refine ⟨fun j hmem => (nomatch hmem), fun hmem => hb (Loc.row.inj hmem)⟩

theorem mapIn_mapIn (hidem : ∀ v, f (f v) = f v) (l : Loc) (v : DmValue) :
    mapIn Q f l (mapIn P f l v) = mapIn (P ∪ Q) f l v := by
  unfold mapIn
  by_cases hP : l ∈ P
  · rw [if_pos hP, if_pos (Set.mem_union_left Q hP), hidem, ite_self]
  · rw [if_neg hP]
    by_cases hQ : l ∈ Q
    · rw [if_pos hQ, if_pos (Set.mem_union_right P hQ)]
    · rw [if_neg hQ, if_neg fun h => (Set.mem_union l P Q).mp h |>.elim hP hQ]

/-- Two rewrites by one function are one. -/
theorem mapAt_mapAt (hidem : ∀ v, f (f v) = f v) : (st.mapAt P f).mapAt Q f = st.mapAt (P ∪ Q) f := by
  unfold DmStore.mapAt
  congr 1
  funext a
  show ((st.heap a).map (VTable.mapAt P f a)).map (VTable.mapAt Q f a) = _
  rw [Option.map_map]
  congr 1
  funext t
  show (t.mapAt P f a).mapAt Q f a = _
  unfold VTable.mapAt
  simp only [List.mapIdx_mapIdx, Option.map_map, Function.comp_def, mapIn_mapIn hidem]

/-! ## Well-formedness -/

theorem mapAt_heap {a : Addr} {t : VTable} (ht : st.heap a = some t) :
    (st.mapAt P f).heap a = some (t.mapAt P f a) := by
  show (st.heap a).map _ = _
  rw [ht, Option.map_some]

theorem mapAt_node_some {a : Addr} {n : RowNode} (h : (st.mapAt P f).node a = some n) :
    ∃ m, st.node a = some m ∧ n = { m with value := mapIn P f (.row a) m.value } := by
  rw [mapAt_node] at h
  obtain ⟨m, hm, rfl⟩ := Option.map_eq_some_iff.mp h
  exact ⟨m, hm, rfl⟩

theorem VTable.mapAt_value {a : Addr} {t : VTable} {i : ℕ} {v : DmValue}
    (h : (t.mapAt P f a).values[i]? = some v) : ∃ w, t.values[i]? = some w ∧ v = mapIn P f (.slot a i) w := by
  unfold VTable.mapAt at h
  rw [List.getElem?_mapIdx] at h
  obtain ⟨w, hw, rfl⟩ := Option.map_eq_some_iff.mp h
  exact ⟨w, hw, rfl⟩

theorem IsRow.mapAt (hf : Relabels f) {p : Selector} {a i : ℕ} {r : Addr} (h : IsRow st p a i r) :
    IsRow (st.mapAt P f) p a i r := by
  obtain ⟨t, n, ht, hn, hroot, hid, hc, hlt⟩ := h
  refine ⟨t.mapAt P f r, { n with value := mapIn P f (.row r) n.value }, mapAt_heap ht, ?_, hroot, hid, ?_, hlt⟩
  · show t.node.map _ = _
    rw [hn, Option.map_some]
  · rw [mapIn_content hf]
    exact hc

theorem ObjWf.mapAt (hf : Relabels f) {kw a i : ℕ} {p : Selector} {o : ObjTree} {rows : List Addr}
    (h : ObjWf full S st kw p a i o rows) : ObjWf full S (st.mapAt P f) kw p a i o rows := by
  refine h.transfer ?_ ?_ ?_
  · intro r hr
    exact ⟨(h.isRow r hr).mapAt hf, by rw [mapAt_row hf]⟩
  · intro _ r n hn hroot
    obtain ⟨m, hm, rfl⟩ := mapAt_node_some hn
    exact ⟨m, hm, hroot⟩
  · intro _ c v _ hv
    refine ⟨mapIn P f (.slot a c) v, ?_, mapIn_content hf _ v⟩
    rw [mapAt_slot, hv, Option.map_some]

theorem HeapWf.mapAt (hf : Relabels f) (hpar : Intact st) (hw : HeapWf full nowhere S st) :
    HeapWf full nowhere S (st.mapAt P f) := by
  refine ⟨?_, ?_, ?_⟩
  · obtain ⟨t, ht, hid⟩ := hw.root
    exact ⟨t.mapAt P f st.root, mapAt_heap ht, hid⟩
  · intro a t' ht'
    obtain ⟨t, ht, rfl⟩ := Option.map_eq_some_iff.mp ht'
    obtain ⟨kw, h⟩ := hw.table a t ht
    refine ⟨kw, h.lt, h.place, ?_, ?_, ?_, ?_, ?_, ?_⟩
    · show (t.values.mapIdx _).length = _
      rw [List.length_mapIdx]
      exact h.len
    · intro i v hv
      obtain ⟨w, hw', rfl⟩ := VTable.mapAt_value hv
      rw [mapIn_content hf]
      exact h.fits i w hw'
    · intro i v b hv hb
      obtain ⟨w, hw', rfl⟩ := VTable.mapAt_value hv
      rw [mapIn_content hf] at hb
      exact h.ptr i w b hw' hb
    · intro i v hv hx
      obtain ⟨w, hw', rfl⟩ := VTable.mapAt_value hv
      have hs := h.slot i w hw' hx
      refine ⟨?_, ?_⟩
      · intro b hb _
        rw [mapIn_content hf] at hb
        obtain ⟨tb, htb, hid⟩ := hs.token b hb (hpar a i w (DmStore.slot_eq_some.mpr ⟨t, ht, hw'⟩))
        exact ⟨tb.mapAt P f b, mapAt_heap htb, hid⟩
      · intro o ho
        rw [mapIn_content hf] at ho
        obtain ⟨rows, hrows⟩ := hs.object o ho
        exact ⟨rows, hrows.mapAt hf⟩
    · intro n hn
      obtain ⟨m, hm, rfl⟩ := Option.map_eq_some_iff.mp hn
      exact h.node m hm
    · intro n hn b j hroot
      obtain ⟨m, hm, rfl⟩ := Option.map_eq_some_iff.mp hn
      obtain ⟨hlt, hb⟩ := h.home m hm b j hroot
      refine ⟨hlt, ?_⟩
      intro tb' htb'
      obtain ⟨tb, htb, rfl⟩ := Option.map_eq_some_iff.mp htb'
      obtain ⟨hid, hc, hinst⟩ := hb tb htb
      exact ⟨hid, (mapIn_content hf _ _).trans hc, hinst⟩
  · intro a i v b c j w hv hvb hw' hwb
    rw [mapAt_slot] at hv hw'
    obtain ⟨v0, hv0, rfl⟩ := Option.map_eq_some_iff.mp hv
    obtain ⟨w0, hw0, rfl⟩ := Option.map_eq_some_iff.mp hw'
    rw [mapIn_content hf] at hvb hwb
    exact hw.inj a i v0 b c j w0 hv0 hvb hw0 hwb

/-- A selector that leads somewhere still leads there. -/
theorem Resolves.mapAt (hf : Relabels f) {n : ℕ} {sel : Selector} {kw : ℕ} {base : Base} {ref : Option Ref} {r : Ref}
    (h : Resolves S st n sel kw base ref r) : Resolves S (st.mapAt P f) n sel kw base ref r := by
  have hval : ∀ l v, st.value l = some v → (st.mapAt P f).value l = some (mapIn P f l v) := by
    intro l v hv
    rw [mapAt_value, hv, Option.map_some]
  induction h with
  | done n kw base r => exact .done n kw base r
  | zero n sel kw base r => exact .zero n sel kw base r
  | row n id sel kw a i ref t b c v r hid htree hfind hv hpar hc _ ih =>
    exact .row n id sel kw a i ref t b c (mapIn P f (.row b) v) r hid (by rw [mapAt_tree hf, htree])
      (by rw [mapAt_instanceNode hf, hfind]) (hval _ v hv) (mapIn_parity hf _ hpar)
      (by rw [mapIn_content hf, hc]) ih
  | token n id sel kw a ref e v b r hid he hv hpar htype hc _ ih =>
    exact .token n id sel kw a ref e (mapIn P f (.slot a (id - 1)) v) b r hid he (hval (.slot a (id - 1)) v hv)
      (mapIn_parity hf _ hpar) htype (by rw [mapIn_content hf, hc]) ih
  | object n id sel kw a ref e v t r hid he hv hpar htype hc _ ih =>
    exact .object n id sel kw a ref e (mapIn P f (.slot a (id - 1)) v) t r hid he (hval (.slot a (id - 1)) v hv)
      (mapIn_parity hf _ hpar) htype (by rw [mapIn_content hf, hc]) ih
  | leaf n id sel kw a ref e v hid he hv hpar htoken hobject =>
    exact .leaf n id sel kw a ref e (mapIn P f (.slot a (id - 1)) v) hid he (hval (.slot a (id - 1)) v hv)
      (mapIn_parity hf _ hpar) htoken hobject

theorem getElementRef_mapAt (hf : Relabels f) {sel : Selector} {r : Ref}
    (h : st.getElementRef S sel = some (some r)) : (st.mapAt P f).getElementRef S sel = some (some r) :=
  (resolves_iff sel r).mpr (((resolves_iff sel r).mp h).mapAt hf)

end Mand.Store
