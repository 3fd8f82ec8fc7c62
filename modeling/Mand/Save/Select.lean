import Mand.Save.Depth

/-! # Walks from a selector

What `dm_walk_by_selector_cb` reports: the element that the selector leads to, and what is below it. -/
namespace Mand.Save
open Mand.Store Mand.Index Mand.Server Mand.Bracket
set_option autoImplicit false

/-- These ids, of which the first is that of the element, lead to the element or below it. -/
def Beneath (env : Env) (st : DmStore) (ref : Ref) (p : List Step) : Prop :=
  match ref.value with
  | .slot a i => ∃ t kw v, st.heap a = some t ∧ env.schema.place t.id = some (kw, false) ∧
      Present env st (InIndex st) kw a p v ∧ Starts (· = i + 1) p
  | .row r => ∃ n, st.node r = some n ∧ (p = [⟨n.inst, .inst, ref.elem⟩] ∨
      ∃ b q v, n.value.content = .table (some b) ∧ Present env st (InIndex st) ref.elem.table b q v ∧
        p = ⟨n.inst, .inst, ref.elem⟩ :: q)

section Select
variable {full : Prop} {env : Env} {st : DmStore} {level : ℤ} {sel : Selector} {ref : Ref}

theorem place_le {S : Schema} {p : Selector} {kw : ℕ} {row : Bool} (h : S.place p = some (kw, row)) : kw ≤ S.root := by
  have hlen := place_length p kw row h
  omega

theorem inIndex_followed (st : DmStore) : Followed st (InIndex st) := fun _ _ _ _ _ => Iff.rfl

theorem element_reports (hw : HeapWf full nowhere env.schema st) (hpar : Intact st) (hlevel : 1 ≤ level)
    {a i kw : ℕ} {t : VTable} {e : DmElement} {stType : DmType} (ht : st.heap a = some t)
    (hp : env.schema.place t.id = some (kw, false)) (he : (env.schema.table kw).elems[i]? = some e)
    (hobj : e.type = .object → stType = .object) :
    ∃ P, Reports (fun _ cb => walkRef env cb st (walkTable env cb st (env.schema.root + 1)) level
        ⟨i + 1, e, stType, .table a, .slot a i⟩) P ∧
      ∀ p, (∃ v, P ⟨p, v⟩) ↔ (p.length : ℤ) ≤ level ∧ Beneath env st ⟨i + 1, e, stType, .table a, .slot a i⟩ p := by
  obtain ⟨v, hv, hfit⟩ := HeapWf.slotAt hw ht hp he
  have hbeneath : ∀ p u, Present env st (InIndex st) kw a p u → Starts (· = i + 1) p →
      Beneath env st ⟨i + 1, e, stType, .table a, .slot a i⟩ p := fun p u h hs => ⟨t, kw, u, ht, hp, h, hs⟩
  have hback : ∀ p, Beneath env st ⟨i + 1, e, stType, .table a, .slot a i⟩ p →
      ∃ u, Present env st (InIndex st) kw a p u ∧ Starts (· = i + 1) p := by
    rintro p ⟨t', kw', u, ht', hp', h, hs⟩
    rw [ht] at ht'
    cases ht'
    rw [hp] at hp'
    cases hp'
    exact ⟨u, h, hs⟩
  by_cases hc : e.container = true
  · have hspec := walkTable_reports hw hpar (inIndex_followed st) (env.schema.root + 1)
    have hkw : kw < env.schema.root + 1 + 1 := by
      have hle := place_le hp
      omega
    refine ⟨_, (container_reports hspec hw hpar (inIndex_followed st) hlevel hkw ht hp he hc hv).of_eq ?_, ?_⟩
    · intro σ cb hcb s
      unfold walkRef
      by_cases htype : e.type = .object
      · rw [if_pos htype]
        have hval : st.value (.slot a i) = some v := hv
        cases hcont : v.content with
        | scalar x =>
          rw [hcont] at hfit
          have hleaf : e.container = false := hfit
          rw [hc] at hleaf
          cases hleaf
        | table x =>
          rw [hcont] at hfit
          have htoken : e.type = .token := hfit
          rw [htype] at htoken
          cases htoken
        | inst x =>
          simp only [hval, hobj htype, walkValue, htype, hcont, Option.bind_eq_bind, Option.bind_some, reduceCtorEq,
            if_false]
      · rw [if_neg htype]
        simp only [container_value hpar he hc hv, Option.bind_eq_bind, Option.bind_some]
    · intro p
      constructor
      · rintro ⟨u, ⟨h, hlen⟩, hs⟩
        exact ⟨hlen, hbeneath p u h hs⟩
      · rintro ⟨hlen, h⟩
        obtain ⟨u, h, hs⟩ := hback p h
        exact ⟨u, ⟨h, hlen⟩, hs⟩
  · have hc : e.container = false := by simpa using hc
    have htype : e.type ≠ .object := by
      intro htype
      simp [DmElement.container, htype] at hc
    obtain ⟨u, hu, -⟩ := elementValue_some (e := e) env stType hv (hpar a i v hv)
    obtain ⟨u', hu', -⟩ := elementValue_some (e := e) env .none hv (hpar a i v hv)
    refine ⟨_, (Reports.leaf (i + 1) e u).of_eq ?_, ?_⟩
    · intro σ cb hcb s
      unfold walkRef
      rw [if_neg htype]
      simp only [hu, Option.bind_eq_bind, Option.bind_some]
      exact walkValue_leaf cb _ hc (i + 1) s
    · intro p
      have hleaf := fun p u => @present_leaf env st (InIndex st) kw a i e p u he hc
      constructor
      · rintro ⟨w, hw⟩
        cases hw
        obtain ⟨h, hs⟩ := (hleaf _ _).mpr ⟨rfl, hu'⟩
        exact ⟨hlevel, hbeneath _ _ h hs⟩
      · rintro ⟨-, h⟩
        obtain ⟨w, h⟩ := hback p h
        obtain ⟨rfl, -⟩ := (hleaf _ _).mp h
        exact ⟨u, rfl⟩

/-- `dm_walk_instance_cb`. -/
theorem instance_reports (hw : HeapWf full nowhere env.schema st) (hpar : Intact st) (hlevel : 1 ≤ level)
    {a i id r kw : ℕ} {t tr : VTable} {e : DmElement} (hp : env.schema.place t.id = some (kw, false))
    (he : (env.schema.table kw).elems[i]? = some e) (hobj : e.type = .object) (htr : st.heap r = some tr)
    (hid : tr.id = t.id ++ [i + 1, id]) (hrow : IsRow st t.id a i r) :
    ∃ P, Reports (fun _ cb => walkRef env cb st (walkTable env cb st (env.schema.root + 1)) level
        ⟨id, e, .inst, .object a i, .row r⟩) P ∧
      ∀ p, (∃ v, P ⟨p, v⟩) ↔ (p.length : ℤ) ≤ level ∧ Beneath env st ⟨id, e, .inst, .object a i, .row r⟩ p := by
  obtain ⟨tr', n, htr', hn, -, hid', hself, -⟩ := hrow
  rw [htr] at htr'
  cases htr'
  have hnode : st.node r = some n := DmStore.node_eq_some.mpr ⟨tr, htr, hn⟩
  have hinst : n.inst = id := by
    rw [hid] at hid'
    have hcancel := List.append_cancel_left hid'
    simpa using hcancel.symm
  have hpr : env.schema.place tr.id = some (e.table, false) := by
    have hsplit : tr.id = t.id ++ [i + 1] ++ [id] := by
      rw [hid]
      simp
    rw [hsplit]
    exact place_inst (place_object hp he hobj)
  have hspec := walkTable_reports hw hpar (inIndex_followed st) (env.schema.root + 1)
  refine ⟨_, ((descend_reports hspec (by omega : (0 : ℤ) ≤ level - 1) (Nat.lt_succ_of_le (place_le hpr)) htr hpr).block
    (fun x hx => hx.steps) .objectInstanceStart .objectInstanceEnd .inst id e n.value rfl rfl).of_eq ?_, ?_⟩
  · intro σ cb hcb s
    have hgo := hcb.eq .objectInstanceStart rfl id e n.value s
    have hval : st.value (.row r) = some n.value := by
      show (st.node r).map RowNode.value = some n.value
      rw [hnode]
      rfl
    generalize (cb .objectInstanceStart id e n.value s).2 = s1 at hgo ⊢
    simp only [walkRef, hobj, hval, walkInstance, hself, hgo, if_true, Option.bind_eq_bind, Option.bind_some]
    exact Option.map_eq_bind.symm
  · intro p
    constructor
    · rintro ⟨v, heq | ⟨y, hy, heq⟩⟩
      · cases heq
        exact ⟨hlevel, n, hnode, .inl (by rw [hinst])⟩
      · cases heq
        refine ⟨?_, n, hnode, .inr ⟨r, y.steps, y.data, hself, hy.1, by rw [hinst]; rfl⟩⟩
        have hlen := hy.2
        simp only [List.cons_append, List.nil_append, List.length_cons]
        omega
    · rintro ⟨hlen, n', hn', h⟩
      rw [hnode] at hn'
      cases hn'
      rw [hinst] at h
      rcases h with rfl | ⟨b, q, v, hb, h, rfl⟩
      · exact ⟨n.value, .inl rfl⟩
      · rw [hself] at hb
        cases hb
        simp only [List.length_cons, Nat.cast_add, Nat.cast_one] at hlen
        refine ⟨v, .inr ⟨⟨q, v⟩, ⟨h, ?_⟩, rfl⟩⟩
        show (q.length : ℤ) ≤ level - 1
        omega

theorem walkRef_reports (hw : HeapWf full nowhere env.schema st) (hpar : Intact st) (hlevel : 1 ≤ level)
    (href : st.getElementRef env.schema sel = some (some ref)) :
    ∃ P, Reports (fun _ cb => walkRef env cb st (walkTable env cb st (env.schema.root + 1)) level ref) P ∧
      ∀ p, (∃ v, P ⟨p, v⟩) ↔ (p.length : ℤ) ≤ level ∧ Beneath env st ref p := by
  have hat := getElementRef_path hw href
  have hslot := fun a i => @getElementRef_slotType env.schema st sel ref a i href
  generalize env.schema.path sel = q at hat
  cases hat with
  | slot a i t kw e stType ht hp he => exact element_reports hw hpar hlevel ht hp he (hslot a i rfl)
  | row a i t kw e r id tr ht hp he hobj htr hid hrow hmem =>
    exact instance_reports hw hpar hlevel hp he hobj htr hid hrow

end Select

end Mand.Save
