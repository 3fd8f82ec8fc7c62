import Mand.Interface.Refresh

/-! # Tables of the live store

A table belongs to the store if tokens and rows lead to it from the root. What leads to it stays as long as no
table on the way is deleted. -/
namespace Mand.Interface
open Mand.Index Mand.Store Mand.Server
set_option autoImplicit false

variable {S : Schema} {st st' : DmStore} {kw a i : ℕ} {p : Selector}

/-- The path leads from the root to table `a` of number `kw`. -/
inductive Leads (S : Schema) (st : DmStore) : ℕ → Addr → Selector → Prop
  | root (t : VTable) (ht : st.heap st.root = some t) (hid : t.id = []) : Leads S st S.root st.root []
  | token (kw a : ℕ) (p : Selector) (i : ℕ) (e : DmElement) (v : DmValue) (b : Addr) (t : VTable)
    (h : Leads S st kw a p) (he : (S.table kw).elems[i]? = some e) (htype : e.type = .token)
    (hv : st.slot a i = some v) (hpar : v.parity = true) (hc : v.content = .table (some b))
    (ht : st.heap b = some t) (hid : t.id = p ++ [i + 1]) : Leads S st e.table b (p ++ [i + 1])
  | row (kw a : ℕ) (p : Selector) (i : ℕ) (e : DmElement) (v : DmValue) (o : ObjTree) (r id : ℕ) (t : VTable)
    (h : Leads S st kw a p) (he : (S.table kw).elems[i]? = some e) (htype : e.type = .object)
    (hv : st.slot a i = some v) (hpar : v.parity = true) (hc : v.content = .inst (some o)) (hr : o.Has r)
    (ht : st.heap r = some t) (hid : t.id = p ++ [i + 1, id]) : Leads S st e.table r (p ++ [i + 1, id])

theorem Leads.heap (h : Leads S st kw a p) : ∃ t, st.heap a = some t ∧ t.id = p := by
  cases h with
  | root t ht hid => exact ⟨t, ht, hid⟩
  | token kw a p i e v b t h he htype hv hpar hc ht hid => exact ⟨t, ht, hid⟩
  | row kw a p i e v o r id t h he htype hv hpar hc hr ht hid => exact ⟨t, ht, hid⟩

theorem Leads.place (h : Leads S st kw a p) : S.place p = some (kw, false) := by
  induction h with
  | root t ht hid => rfl
  | token kw a p i e v b t h he htype hv hpar hc ht hid ih => exact place_token ih he htype
  | row kw a p i e v o r id t h he htype hv hpar hc hr ht hid ih =>
    have hsplit : p ++ [i + 1, id] = p ++ [i + 1] ++ [id] := by simp
    rw [hsplit]
    exact place_inst (place_object ih he htype)

theorem Leads.reached (h : Leads S st kw a p) : Reached S st (.table a) kw p := by
  obtain ⟨t, ht, hid⟩ := h.heap
  have hp := h.place
  rw [← hid] at hp ⊢
  exact .table a t kw ht hp

/-- Only the number of a row can be zero. -/
theorem Leads.zero {q r : Selector} (h : Leads S st kw a p) (hp : p = q ++ 0 :: r) :
    ∃ k, S.place q = some (k, true) := by
  induction h generalizing r with
  | root t ht hid => simp at hp
  | token kw a p i e v b t h he htype hv hpar hc ht hid ih =>
    rcases List.eq_nil_or_concat r with rfl | ⟨r', x, rfl⟩
    · have hlast := congrArg List.getLast? hp
      simp at hlast
    · rw [List.concat_eq_append, ← List.cons_append, ← List.append_assoc] at hp
      exact ih (List.append_inj' hp rfl).1
  | row kw a p i e v o r1 id t h he htype hv hpar hc hr ht hid ih =>
    have hsplit : p ++ [i + 1, id] = p ++ [i + 1] ++ [id] := by simp
    rw [hsplit] at hp
    rcases List.eq_nil_or_concat r with rfl | ⟨r', x, rfl⟩
    · rw [← (List.append_inj' hp rfl).1]
      exact ⟨e.table, place_object h.place he htype⟩
    · rw [List.concat_eq_append, ← List.cons_append, ← List.append_assoc] at hp
      have hp := (List.append_inj' hp rfl).1
      rcases List.eq_nil_or_concat r' with rfl | ⟨r', y, rfl⟩
      · have hlast := congrArg List.getLast? hp
        simp at hlast
      · rw [List.concat_eq_append, ← List.cons_append, ← List.append_assoc] at hp
        exact ih (List.append_inj' hp rfl).1

theorem kept_table {Q : Addr → Prop} {b : Addr} {c : Content} (h : (Content.table (some b)).KeptOn Q c) :
    c = .table (some b) := by
  cases c with
  | scalar x => exact h.elim
  | table x =>
    have h : some b = x := h
    rw [h]
  | inst x => exact h.elim

theorem kept_row {Q : Addr → Prop} {o : ObjTree} {r : Addr} {c : Content} (h : (Content.inst (some o)).KeptOn Q c)
    (hq : Q r) (hr : o.Has r) : ∃ o', c = .inst (some o') ∧ o'.Has r := by
  cases c with
  | scalar x => exact h.elim
  | table x => exact h.elim
  | inst x =>
    cases x with
    | none => exact h.elim
    | some o' => exact ⟨o', rfl, h r hq hr⟩

theorem Leads.keeps {P : Selector → Prop} (h : Leads S st kw a p) (hk : Keeps P st st')
    (hP : ∀ q, q <+: p → P q) : Leads S st' kw a p := by
  induction h with
  | root t ht hid =>
    obtain ⟨t', ht'⟩ := hk.table st.root t ht (by rw [hid]; exact hP [] (List.prefix_refl _))
    rw [← hk.root]
    rw [← hk.root] at ht'
    refine .root t' ht' ?_
    rw [hk.root] at ht'
    rw [hk.ids st.root t t' ht ht', hid]
  | token kw a p i e v b t h he htype hv hpar hc ht hid ih =>
    have hpre : p <+: p ++ [i + 1] := List.prefix_append _ _
    obtain ⟨v', hv', hpar', hkept⟩ := h.reached.keepsSlot hk hv (hP _ (List.prefix_refl _)) hpar
    obtain ⟨t', ht'⟩ := hk.table b t ht (by rw [hid]; exact hP _ (List.prefix_refl _))
    rw [hc] at hkept
    have hc' := kept_table hkept
    exact .token kw a p i e v' b t' (ih fun q hq => hP q (hq.trans hpre)) he htype hv' hpar' hc' ht'
      (by rw [hk.ids b t t' ht ht', hid])
  | row kw a p i e v o r id t h he htype hv hpar hc hr ht hid ih =>
    have hpre : p <+: p ++ [i + 1, id] := List.prefix_append _ _
    have hslot : p ++ [i + 1] <+: p ++ [i + 1, id] := ⟨[id], by simp⟩
    obtain ⟨v', hv', hpar', hkept⟩ := h.reached.keepsSlot hk hv (hP _ hslot) hpar
    obtain ⟨t', ht'⟩ := hk.table r t ht (by rw [hid]; exact hP _ (List.prefix_refl _))
    rw [hc] at hkept
    obtain ⟨o', ho', hr'⟩ := kept_row hkept ⟨t, ht, by rw [hid]; exact hP _ (List.prefix_refl _)⟩ hr
    exact .row kw a p i e v' o' r id t' (ih fun q hq => hP q (hq.trans hpre)) he htype hv' hpar' ho' hr' ht'
      (by rw [hk.ids r t t' ht ht', hid])

/-! ## Going down -/

section Down
variable {e : DmElement} {v : DmValue}

theorem Leads.enterToken {b : Addr} (h : Leads S st kw a p) (hw : HeapWf False nowhere S st)
    (he : (S.table kw).elems[i]? = some e) (htype : e.type = .token) (hv : st.slot a i = some v)
    (hpar : v.parity = true) (hc : v.content = .table (some b)) : Leads S st e.table b (p ++ [i + 1]) := by
  obtain ⟨t, ht, rfl⟩ := h.heap
  obtain ⟨t0, ht0, hvt⟩ := DmStore.slot_eq_some.mp hv
  rw [ht] at ht0
  cases ht0
  obtain ⟨k, hk⟩ := hw.table a t ht
  obtain ⟨tb, htb, hid⟩ := (hk.slot i v hvt fun hx => hx).token b hc hpar
  exact .token kw a t.id i e v b tb h he htype hv hpar hc htb hid

/-- The object in a slot, with its rows. -/
theorem Leads.object {o : ObjTree} (h : Leads S st kw a p) (hw : HeapWf False nowhere S st)
    (hv : st.slot a i = some v) (hc : v.content = .inst (some o)) :
    ∃ rows, ObjWf False S st kw p a i o rows := by
  obtain ⟨t, ht, rfl⟩ := h.heap
  obtain ⟨t0, ht0, hvt⟩ := DmStore.slot_eq_some.mp hv
  rw [ht] at ht0
  cases ht0
  obtain ⟨k, hk⟩ := hw.table a t ht
  have hkw := hk.place
  rw [h.place] at hkw
  cases hkw
  exact (hk.slot i v hvt fun hx => hx).object o hc

theorem Leads.enterRow {o : ObjTree} {rows : List Addr} {r : Addr} (h : Leads S st kw a p)
    (he : (S.table kw).elems[i]? = some e) (htype : e.type = .object) (hv : st.slot a i = some v)
    (hpar : v.parity = true) (hc : v.content = .inst (some o)) (ho : ObjWf False S st kw p a i o rows)
    (hr : r ∈ rows) : ∃ id, Leads S st e.table r (p ++ [i + 1, id]) := by
  obtain ⟨t, n, ht, hn, -, hid, -⟩ := ho.isRow r hr
  exact ⟨n.inst, .row kw a p i e v o r n.inst t h he htype hv hpar hc (ho.lists.has.mpr hr) ht hid⟩

end Down

/-! ## Selectors -/

/-- What a selector has led to belongs to the store. -/
def BaseLeads (S : Schema) (st : DmStore) (kw : ℕ) : Base → Prop
  | .table a => ∃ p, Leads S st kw a p
  | .object a i => ∃ kw0 e v p, Leads S st kw0 a p ∧ (S.table kw0).elems[i]? = some e ∧ e.type = .object ∧
      e.table = kw ∧ st.slot a i = some v ∧ v.parity = true

def RefLeads (S : Schema) (st : DmStore) (r : Ref) : Prop :=
  match r.value with
  | .slot a i => ∃ kw p, Leads S st kw a p ∧ (S.table kw).elems[i]? = some r.elem
  | .row b => ∃ p, Leads S st r.elem.table b p

theorem Resolves.leads {n : ℕ} {sel : Selector} {base : Base} {ref : Option Ref} {r : Ref}
    (h : Resolves S st n sel kw base ref r) (hw : HeapWf False nowhere S st) (hb : BaseLeads S st kw base)
    (hr : ∀ x, ref = some x → RefLeads S st x ∧ (base.isObject = true → x.elem.table = kw)) : RefLeads S st r := by
  induction h with
  | done n kw base r => exact (hr r rfl).1
  | zero n sel kw base r => exact (hr r rfl).1
  | row n id sel kw a i ref x b c v r hid htree hfind hval hpar hc hrest ih =>
    obtain ⟨kw0, e, w, p, hl, he, htype, rfl, hslot, hwpar⟩ := hb
    obtain ⟨t, ht, rfl⟩ := hl.heap
    obtain ⟨rfl, -, -, -, -, -, -, -, -, -, -, -, -, -, o, rfl, rows, hlist, hmem⟩ :=
      (Reached.object a i t kw0 e ht hl.place he htype).enterRow hw htree hfind hval hc
    obtain ⟨w', hw', hwc⟩ := (tree_eq_some st a i _).mp htree
    rw [hslot] at hw'
    cases hw'
    obtain ⟨rows', ho⟩ := hl.object hw hslot hwc
    rw [hlist.unique ho.lists] at hmem
    obtain ⟨id', hrow⟩ := hl.enterRow he htype hslot hwpar hwc ho hmem
    have helem : ref.elem.table = e.table := (hr ref rfl).2 rfl
    refine ih ⟨_, hrow⟩ ?_
    intro y hy
    cases hy
    refine ⟨⟨t.id ++ [i + 1, id'], ?_⟩, fun hobj => nomatch hobj⟩
    show Leads S st ref.elem.table c _
    rw [helem]
    exact hrow
  | token n id sel kw a ref e v b r hid he hval hpar htype hc hrest ih =>
    obtain ⟨p, hl⟩ := hb
    refine ih ⟨_, hl.enterToken hw he htype hval hpar hc⟩ ?_
    intro y hy
    cases hy
    exact ⟨⟨kw, p, hl, he⟩, fun hobj => nomatch hobj⟩
  | object n id sel kw a ref e v t r hid he hval hpar htype hc hrest ih =>
    obtain ⟨p, hl⟩ := hb
    refine ih ⟨kw, e, v, p, hl, he, htype, rfl, hval, hpar⟩ ?_
    intro y hy
    cases hy
    exact ⟨⟨kw, p, hl, he⟩, fun _ => rfl⟩
  | leaf n id sel kw a ref e v hid he hval hpar htoken hobject =>
    obtain ⟨p, hl⟩ := hb
    exact ⟨kw, p, hl, he⟩

theorem getElementRef_leads {sel : Selector} {r : Ref} (hw : HeapWf False nowhere S st)
    (h : st.getElementRef S sel = some (some r)) : RefLeads S st r := by
  obtain ⟨t, ht, hid⟩ := hw.root
  exact Resolves.leads ((resolves_iff sel r).mp h) hw ⟨[], .root t ht hid⟩ fun x hx => nomatch hx

end Mand.Interface
