import Mand.Save.Within

/-! # Flags go up

After `dm_update_flags` everything around a leaf that was updated is marked as updated too. -/
namespace Mand.Save
open Mand.Store Mand.Index Mand.Server
set_option autoImplicit false

variable {full : Prop} {S : Schema} {st0 st st' : DmStore}

/-! ## Values -/

theorem orFlags_updated (f g : Flags) : (orFlags f g).updated = (f.updated || g.updated) := rfl

theorem orFlags_zero (f : Flags) : orFlags f Flags.zero = f := by
  simp [orFlags, Flags.zero]

theorem orFlags_changed (f : Flags) : orFlags f (changed f) = f := by
  simp [orFlags, changed]

/-- A leaf has its own flags already. -/
theorem addFlags_changed {v : DmValue} (hpar : v.parity = true) : addFlags (changed v.flags) v = v := by
  unfold addFlags
  split
  · rfl
  · rw [orFlags_changed, ← hpar]

theorem addFlags_content (ret : Flags) (v : DmValue) : (addFlags ret v).content = v.content := by
  unfold addFlags
  split <;> rfl

theorem addFlags_updated {ret : Flags} (v : DmValue) (h : v.flags.updated = true ∨ ret.updated = true) :
    (addFlags ret v).flags.updated = true := by
  unfold addFlags
  split
  · next hz =>
    rw [hz] at h
    exact h.resolve_right Bool.false_ne_true
  · show (v.flags.updated || ret.updated) = true
    rw [Bool.or_eq_true]
    exact h

theorem addFlags_grown {ret : Flags} {v : DmValue} (hc : ∀ x, v.content ≠ .scalar x) :
    ValueGrown v (addFlags ret v) where
  content := addFlags_content ret v
  updated := fun hu => addFlags_updated v (.inl hu)
  parity := by
    intro hp
    unfold addFlags
    split
    · exact hp
    · rfl
  leaf := fun x hx => absurd hx (hc x)

/-! ## Tables, rows and elements -/

/-- What an update of a table does, seen from the store before it: nothing but flags changes, and every
updated leaf is shown. -/
def UpdSpec (S : Schema) (st0 : DmStore) (m : ℕ) (upd : ℕ → Addr → DmStore → Option (Flags × DmStore)) :
    Prop :=
  ∀ kw a t st, kw < m → st0.heap a = some t → S.place t.id = some (kw, false) → Grows st0 st →
    ∃ ret st', upd kw a st = some (ret, st') ∧ Grows st st' ∧
      ∀ p around e v, Inside S st0 kw a p around e v → v.flags.updated = true →
        ret.updated = true ∧ Shown S st' kw a p around e v

section Step
variable {upd : ℕ → Addr → DmStore → Option (Flags × DmStore)} {m kw a i : ℕ} {t : VTable} {e : DmElement}

/-- The row of a leaf is marked. -/
theorem updateFlagsRows_spec (hupd : UpdSpec S st0 m upd) (hw : HeapWf full nowhere S st0)
    (hpar : Intact st0) (hlt : e.table < m) (rows : List Addr)
    (hrows : ∀ r ∈ rows, ∃ n tr, st0.node r = some n ∧ n.value.content = .table (some r) ∧
      st0.heap r = some tr ∧ S.place tr.id = some (e.table, false)) (st : DmStore) (hg : Grows st0 st) :
    ∃ ret st', updateFlagsRows upd e rows st = some (ret, st') ∧ Grows st st' ∧
      ∀ r ∈ rows, ∀ p around e' v, Inside S st0 e.table r p around e' v → v.flags.updated = true →
        ret.updated = true ∧ Shown S st' e.table r p around e' v ∧
          ∃ n', st'.node r = some n' ∧ n'.value.flags.updated = true := by
  induction rows generalizing st with
  | nil => exact ⟨Flags.zero, st, rfl, .refl st, fun r hr => absurd hr List.not_mem_nil⟩
  | cons r rows ih =>
    obtain ⟨n, tr, hn, hc, htr, hplace⟩ := hrows r List.mem_cons_self
    obtain ⟨n1, hn1, hgn1⟩ := hg.node r n hn
    obtain ⟨ret, st1, hu, hg1, hshow⟩ := hupd e.table r tr st hlt htr hplace hg
    obtain ⟨n2, hn2, hgn2⟩ := hg1.node r n1 hn1
    have hc1 : n1.value.content = .table (some r) := hgn1.value.content.trans hc
    have hc2 : n2.value.content = .table (some r) := hgn2.value.content.trans hc1
    obtain ⟨st2, hset⟩ := DmStore.setNode_some hn2 { n2 with value := addFlags ret n2.value }
    have hgrown : NodeGrown n2 { n2 with value := addFlags ret n2.value } := by
      refine ⟨rfl, addFlags_grown ?_⟩
      intro x hx
      rw [hc2] at hx
      cases hx
    have hg2 : Grows st1 st2 := Grows.setNode hn2 hgrown hset
    obtain ⟨rest, st3, hrest, hg3, hshow3⟩ := ih (fun r' hr' => hrows r' (List.mem_cons_of_mem r hr')) st2
      ((hg.trans hg1).trans hg2)
    refine ⟨orFlags (addFlags ret n2.value).flags rest, st3, ?_, (hg1.trans hg2).trans hg3, ?_⟩
    · simp only [updateFlagsRows, hn1, hc1, hu, hn2, hset, hrest, Option.bind_eq_bind, Option.bind_some]
    · intro r' hr' p around e' v hin hup
      rw [orFlags_updated, Bool.or_eq_true]
      rcases List.mem_cons.mp hr' with rfl | hmem
      · obtain ⟨hret, hsh⟩ := hshow p around e' v hin hup
        obtain ⟨hleaf, hvpar⟩ := Inside.scalar hin hw hpar htr hplace
        have hmark := addFlags_updated n2.value (.inr hret)
        have hn3 : st2.node r' = some { n2 with value := addFlags ret n2.value } := by
          rw [DmStore.node_setNode hset, if_pos rfl]
        obtain ⟨n', hn', hgn'⟩ := hg3.node r' _ hn3
        exact ⟨.inl hmark, hsh.grows (hg2.trans hg3) hleaf hvpar, n', hn', hgn'.value.updated hmark⟩
      · obtain ⟨hret, hsh⟩ := hshow3 r' hmem p around e' v hin hup
        exact ⟨.inr hret, hsh⟩

/-- The slot of a container is marked, once what hangs in it was looked through. -/
def Marks (S : Schema) (st0 st' : DmStore) (kw a i : ℕ) (ret : Flags) : Prop :=
  ∀ p around e v, Inside S st0 kw a ((i + 1) :: p) around e v → v.flags.updated = true →
    ret.updated = true ∧ ∀ st'' w, Grows st' st'' → st''.slot a i = some w → w.flags.updated = true →
      Shown S st'' kw a ((i + 1) :: p) around e v

theorem updateFlagsContent_token (hupd : UpdSpec S st0 m upd) (hw : HeapWf full nowhere S st0)
    (hpar : Intact st0) (hlt : e.table < m) (ht : st0.heap a = some t) (hp : S.place t.id = some (kw, false))
    (he : (S.table kw).elems[i]? = some e) (htok : e.type = .token) {v : DmValue}
    (hv : st0.slot a i = some v) {x : Option Addr} (hc : v.content = .table x) (st : DmStore)
    (hg : Grows st0 st) :
    ∃ ret st', updateFlagsContent upd e v.content st = some (ret, st') ∧ Grows st st' ∧
      Marks S st0 st' kw a i ret := by
  cases x with
  | none =>
    refine ⟨Flags.zero, st, by simp only [updateFlagsContent, htok, hc], .refl st, ?_⟩
    intro p around e' v' hin
    obtain ⟨w, b, around', -, hw', -, hb, -⟩ := hin.token_cases he htok
    rw [hv] at hw'
    cases hw'
    rw [hc] at hb
    cases hb
  | some b =>
    obtain ⟨tb, htb, hpb⟩ := HeapWf.tokenAt hw hpar ht hp he htok hv hc
    obtain ⟨ret, st', hu, hg', hshow⟩ := hupd e.table b tb st hlt htb hpb hg
    refine ⟨ret, st', by simp only [updateFlagsContent, htok, hc, hu], hg', ?_⟩
    intro p around e' v' hin hup
    obtain ⟨w, b', around', rfl, hw', -, hb, h⟩ := hin.token_cases he htok
    rw [hv] at hw'
    cases hw'
    rw [hc] at hb
    cases hb
    obtain ⟨hret, hsh⟩ := hshow p around' e' v' h hup
    obtain ⟨hleaf, hvpar⟩ := Inside.scalar h hw hpar htb hpb
    refine ⟨hret, ?_⟩
    intro st'' w hg'' hw'' hup''
    obtain ⟨w0, hw0, hgw0⟩ := ((hg.trans hg').trans hg'').slot a i v hv
    rw [hw''] at hw0
    cases hw0
    exact .token kw a i e w b p around' e' v' he htok hw'' hup'' (hgw0.content.trans hc)
      (hsh.grows hg'' hleaf hvpar)

theorem updateFlagsContent_object (hupd : UpdSpec S st0 m upd) (hw : HeapWf full nowhere S st0)
    (hpar : Intact st0) (hlt : e.table < m) (ht : st0.heap a = some t) (hp : S.place t.id = some (kw, false))
    (he : (S.table kw).elems[i]? = some e) (hobj : e.type = .object) {v : DmValue}
    (hv : st0.slot a i = some v) {o : ObjTree} (hc : v.content = .inst (some o)) (st : DmStore)
    (hg : Grows st0 st) :
    ∃ ret st', updateFlagsContent upd e v.content st = some (ret, st') ∧ Grows st st' ∧
      Marks S st0 st' kw a i ret := by
  obtain ⟨rows, hat⟩ := HeapWf.rowsAt hw ht hp he hobj hv hc
  obtain ⟨ret, st', hu, hg', hshow⟩ := updateFlagsRows_spec hupd hw hpar hlt rows hat.row st hg
  refine ⟨ret, st', ?_, hg', ?_⟩
  · simp only [updateFlagsContent, hobj, hc, hg.fuel, hat.enumerated, Option.bind_eq_bind, Option.bind_some, hu]
  · intro p around e' v' hin hup
    obtain ⟨w, o', rows', r, n, b, q, around', rfl, rfl, hw', -, ho, hrows, hr, hn, -, hb, h⟩ :=
      hin.row_cases he hobj
    rw [hv] at hw'
    cases hw'
    rw [hc] at ho
    cases ho
    have hsame := hat.enumerated
    rw [hrows] at hsame
    cases hsame
    obtain ⟨n0, tr, hn0, hcr, htr, hpr⟩ := hat.row r hr
    rw [hn] at hn0
    cases hn0
    rw [hcr] at hb
    cases hb
    obtain ⟨hret, hsh, n', hn', hnup⟩ := hshow r hr q around' e' v' h hup
    obtain ⟨hleaf, hvpar⟩ := Inside.scalar h hw hpar htr hpr
    refine ⟨hret, ?_⟩
    intro st'' w hg'' hw'' hup''
    have hgall := (hg.trans hg').trans hg''
    obtain ⟨w0, hw0, hgw0⟩ := hgall.slot a i v hv
    rw [hw''] at hw0
    cases hw0
    obtain ⟨n1, hn1, hgn1⟩ := hgall.node r n hn
    obtain ⟨n2, hn2, hgn2⟩ := hg''.node r n' hn'
    rw [hn1] at hn2
    cases hn2
    rw [← hgn1.inst]
    refine .row kw a i e w o rows r n1 r q around' e' v' he hobj hw'' hup'' (hgw0.content.trans hc) ?_ hr
      hn1 (hgn2.value.updated hnup) (hgn1.value.content.trans hcr) (hsh.grows hg'' hleaf hvpar)
    rw [hgall.fuel]
    exact hrows

/-- `update_flags_element`. -/
theorem updateFlagsElement_spec (hupd : UpdSpec S st0 m upd) (hw : HeapWf full nowhere S st0)
    (hpar : Intact st0) (hkw : kw < m + 1) (ht : st0.heap a = some t) (hp : S.place t.id = some (kw, false))
    (he : (S.table kw).elems[i]? = some e) (st : DmStore) (hg : Grows st0 st) :
    ∃ ret st', updateFlagsElement upd e a i st = some (ret, st') ∧ Grows st st' ∧
      ∀ p around e' v', Inside S st0 kw a ((i + 1) :: p) around e' v' → v'.flags.updated = true →
        ret.updated = true ∧ Shown S st' kw a ((i + 1) :: p) around e' v' := by
  obtain ⟨v, hv, hfit⟩ := HeapWf.slotAt hw ht hp he
  obtain ⟨v1, hv1, hgv1⟩ := hg.slot a i v hv
  have hvpar := hpar a i v hv
  by_cases hcon : e.container = true
  · -- the slot is marked after what hangs in it
    have hlt : e.table < m := by
      have hchild := S.child_lt kw e (List.mem_of_getElem? he) hcon
      omega
    obtain ⟨ret, st1, hu, hg1, hmarks⟩ : ∃ ret st', updateFlagsContent upd e v.content st = some (ret, st') ∧
        Grows st st' ∧ Marks S st0 st' kw a i ret := by
      cases hc : v.content with
      | scalar x =>
        rw [hc] at hfit
        have hleaf : e.container = false := hfit
        rw [hcon] at hleaf
        cases hleaf
      | table x =>
        rw [hc] at hfit
        rw [← hc]
        exact updateFlagsContent_token hupd hw hpar hlt ht hp he hfit hv hc st hg
      | inst x =>
        rw [hc] at hfit
        obtain ⟨o, rfl⟩ := Option.isSome_iff_exists.mp hfit.2
        rw [← hc]
        exact updateFlagsContent_object hupd hw hpar hlt ht hp he hfit.1 hv hc st hg
    obtain ⟨v2, hv2, hgv2⟩ := hg1.slot a i v1 hv1
    obtain ⟨st2, hset⟩ := DmStore.setSlot_some hv2 (addFlags (orFlags (changed v1.flags) ret) v2)
    have hg2 : Grows st1 st2 := by
      refine Grows.setSlot hv2 (addFlags_grown ?_) hset
      intro x hx
      have hvx : v.content = .scalar x := by rw [← hgv1.content, ← hgv2.content, hx]
      rw [hvx] at hfit
      have hleaf : e.container = false := hfit
      rw [hcon] at hleaf
      cases hleaf
    refine ⟨orFlags (changed v1.flags) ret, st2, ?_, hg1.trans hg2, ?_⟩
    · simp only [updateFlagsElement, hv1, hgv1.content, hu, hv2, hset, Option.bind_eq_bind, Option.bind_some]
    · intro p around e' v' hin hup
      obtain ⟨hret, hsh⟩ := hmarks p around e' v' hin hup
      have hor : (orFlags (changed v1.flags) ret).updated = true := by
        rw [orFlags_updated, hret, Bool.or_true]
      refine ⟨hor, hsh st2 _ hg2 ?_ (addFlags_updated v2 (.inr hor))⟩
      rw [DmStore.slot_setSlot hset, if_pos ⟨rfl, rfl⟩]
  · have hcon : e.container = false := by
      cases hb : e.container with
      | false => rfl
      | true => exact absurd hb hcon
    have hleaf : ∃ x, v.content = .scalar x := by
      refine fits_leaf hfit ?_ ?_
      · intro htok
        simp [DmElement.container, htok] at hcon
      · intro hobj
        simp [DmElement.container, hobj] at hcon
    obtain ⟨x, hx⟩ := hleaf
    have hsame : v1 = v := hgv1.leaf x hx hvpar
    subst hsame
    obtain ⟨st2, hset⟩ := DmStore.setSlot_some hv1 v1
    have hself : addFlags (orFlags (changed v1.flags) Flags.zero) v1 = v1 := by
      rw [orFlags_zero, addFlags_changed hvpar]
    have hg2 : Grows st st2 := Grows.setSlot hv1 (.refl v1) hset
    refine ⟨orFlags (changed v1.flags) Flags.zero, st2, ?_, hg2, ?_⟩
    · have hcontent : updateFlagsContent upd e v1.content st = some (Flags.zero, st) := by
        unfold updateFlagsContent
        split <;> first | rfl | simp_all [DmElement.container]
      simp only [updateFlagsElement, hv1, hcontent, hself, hset, Option.bind_eq_bind, Option.bind_some]
    · intro p around e' v' hin hup
      obtain ⟨rfl, rfl, rfl, hv'⟩ := hin.leaf_cases he hcon
      rw [hv] at hv'
      cases hv'
      refine ⟨?_, .leaf kw a i e' v1 he hcon ?_⟩
      · rw [orFlags_zero]
        exact hup
      · rw [DmStore.slot_setSlot hset, if_pos ⟨rfl, rfl⟩]

/-- `update_flags_table` from number `i` on. -/
theorem updateFlagsElements_spec (hupd : UpdSpec S st0 m upd) (hw : HeapWf full nowhere S st0)
    (hpar : Intact st0) (hkw : kw < m + 1) (ht : st0.heap a = some t) (hp : S.place t.id = some (kw, false))
    (es : List DmElement) (i : ℕ) (hes : (S.table kw).elems.drop i = es) (st : DmStore) (hg : Grows st0 st) :
    ∃ ret st', updateFlagsElements upd a es i st = some (ret, st') ∧ Grows st st' ∧
      ∀ j, i ≤ j → ∀ p around e' v', Inside S st0 kw a ((j + 1) :: p) around e' v' →
        v'.flags.updated = true → ret.updated = true ∧ Shown S st' kw a ((j + 1) :: p) around e' v' := by
  induction es generalizing i st with
  | nil =>
    refine ⟨Flags.zero, st, rfl, .refl st, ?_⟩
    intro j hij p around e' v' hin
    have hlen : (S.table kw).elems.length ≤ i := List.drop_eq_nil_iff.mp hes
    obtain ⟨e, he⟩ := hin.head
    have hj := (List.getElem?_eq_some_iff.mp he).1
    omega
  | cons e es ih =>
    have he : (S.table kw).elems[i]? = some e := by
      rw [← List.head?_drop, hes]
      rfl
    have hrest : (S.table kw).elems.drop (i + 1) = es := by
      rw [← List.tail_drop, hes]
      rfl
    obtain ⟨ret, st1, hu, hg1, hshow1⟩ := updateFlagsElement_spec hupd hw hpar hkw ht hp he st hg
    obtain ⟨rets, st2, hu2, hg2, hshow2⟩ := ih (i + 1) hrest st1 (hg.trans hg1)
    refine ⟨orFlags ret rets, st2, ?_, hg1.trans hg2, ?_⟩
    · simp only [updateFlagsElements, hu, hu2, Option.bind_eq_bind, Option.bind_some]
    · intro j hij p around e' v' hin hup
      rw [orFlags_updated, Bool.or_eq_true]
      by_cases hj : j = i
      · subst hj
        obtain ⟨hret, hsh⟩ := hshow1 p around e' v' hin hup
        obtain ⟨hleaf, hvpar⟩ := Inside.scalar hin hw hpar ht hp
        exact ⟨.inl hret, hsh.grows hg2 hleaf hvpar⟩
      · obtain ⟨hret, hsh⟩ := hshow2 j (by omega) p around e' v' hin hup
        exact ⟨.inr hret, hsh⟩

end Step

theorem updateFlagsTable_spec (hw : HeapWf full nowhere S st0) (hpar : Intact st0) (n : ℕ) :
    UpdSpec S st0 n (updateFlagsTable S n) := by
  induction n with
  | zero =>
    intro kw a t st hlt
    omega
  | succ n ih =>
    intro kw a t st hlt ht hp hg
    obtain ⟨ret, st', hu, hg', hshow⟩ := updateFlagsElements_spec ih hw hpar hlt ht hp _ 0 rfl st hg
    refine ⟨ret, st', hu, hg', ?_⟩
    intro p around e v hin hup
    obtain ⟨j, q, rfl⟩ := hin.path
    exact hshow j (Nat.zero_le j) q around e v hin hup

/-- `dm_update_flags`. -/
theorem updateFlags_spec (hw : HeapWf full nowhere S st0) (hpar : Intact st0) :
    ∃ st', updateFlags S st0 = some st' ∧ Grows st0 st' ∧
      ∀ p around e v, Inside S st0 S.root st0.root p around e v → v.flags.updated = true →
        Shown S st' S.root st0.root p around e v := by
  obtain ⟨t, ht, hid⟩ := hw.root
  have hp : S.place t.id = some (S.root, false) := by
    rw [hid]
    rfl
  obtain ⟨ret, st', hu, hg, hshow⟩ := updateFlagsTable_spec hw hpar (S.root + 1) S.root st0.root t st0
    (Nat.lt_succ_self _) ht hp (.refl st0)
  refine ⟨st', ?_, hg, fun p around e v hin hup => (hshow p around e v hin hup).2⟩
  simp only [updateFlags, hu, Option.bind_eq_bind, Option.bind_some]

end Mand.Save
