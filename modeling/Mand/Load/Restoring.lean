import Mand.Load.LeafTrip
import Mand.Load.Loaded
import Mand.Save.Rendered

/-! # A store that is being restored

What a document has brought to a new store so far: every leaf holds what was written to it, or it is as it was made. -/
namespace Mand.Load
open Mand.Store Mand.Save Mand.Index Mand.Rpc Mand.Notify Mand.Run Mand.Server
set_option autoImplicit false

variable {S : Schema} {st st' st'' : DmStore} {kw a b i : ℕ} {q : Selector} {e : DmElement} {v v' : DmValue}

/-! ## Where a table stands -/

/-- Table `a` of number `kw` is reached on this path. -/
inductive Located (S : Schema) (st : DmStore) : Selector → ℕ → Addr → Prop
  | root : Located S st [] S.root st.root
  | token (q : Selector) (kw a i : ℕ) (e : DmElement) (v : DmValue) (b : Addr) (h : Located S st q kw a)
    (he : (S.table kw).elems[i]? = some e) (htype : e.type = .token) (hv : st.slot a i = some v) (hpar : v.parity = true)
    (hb : v.content = .table (some b)) : Located S st (q ++ [i + 1]) e.table b
  | row (q : Selector) (kw a i : ℕ) (e : DmElement) (v : DmValue) (o : ObjTree) (r : Addr) (n : RowNode)
    (h : Located S st q kw a) (he : (S.table kw).elems[i]? = some e) (htype : e.type = .object) (hv : st.slot a i = some v)
    (hpar : v.parity = true) (ho : v.content = .inst (some o)) (hr : o.Has r) (hn : st.node r = some n)
    (hnpar : n.value.parity = true) (hc : n.value.content = .table (some r)) : Located S st (q ++ [i + 1, n.inst]) e.table r

/-- Tokens keep their tables and objects their rows. -/
structure Lasting (st st' : DmStore) : Prop where
  root : st'.root = st.root
  table : ∀ a t, st.heap a = some t → ∃ t', st'.heap a = some t' ∧ t'.id = t.id
  token : ∀ a i v b, st.slot a i = some v → v.parity = true → v.content = .table (some b) →
    ∃ v', st'.slot a i = some v' ∧ v'.parity = true ∧ v'.content = .table (some b)
  rows : ∀ a i v o, st.slot a i = some v → v.parity = true → v.content = .inst (some o) →
    ∃ v' o', st'.slot a i = some v' ∧ v'.parity = true ∧ v'.content = .inst (some o') ∧
      ∀ r t, st.heap r = some t → o.Has r → o'.Has r
  node : ∀ r n, st.node r = some n → n.value.parity = true → ∃ n', st'.node r = some n' ∧ n'.value.parity = true ∧
    n'.value.content = n.value.content ∧ n'.inst = n.inst

theorem Lasting.refl (st : DmStore) : Lasting st st where
  root := rfl
  table := fun _ t ht => ⟨t, ht, rfl⟩
  token := fun _ _ v _ hv hpar hb => ⟨v, hv, hpar, hb⟩
  rows := fun _ _ v o hv hpar ho => ⟨v, o, hv, hpar, ho, fun _ _ _ hr => hr⟩
  node := fun _ n hn hpar => ⟨n, hn, hpar, rfl, rfl⟩

theorem Lasting.trans (h : Lasting st st') (h' : Lasting st' st'') : Lasting st st'' where
  root := h'.root.trans h.root
  table := by
    intro a t ht
    obtain ⟨t', ht', hid⟩ := h.table a t ht
    obtain ⟨t'', ht'', hid'⟩ := h'.table a t' ht'
    exact ⟨t'', ht'', hid'.trans hid⟩
  token := by
    intro a i v b hv hpar hb
    obtain ⟨v', hv', hpar', hb'⟩ := h.token a i v b hv hpar hb
    exact h'.token a i v' b hv' hpar' hb'
  rows := by
    intro a i v o hv hpar ho
    obtain ⟨v', o', hv', hpar', ho', hsub⟩ := h.rows a i v o hv hpar ho
    obtain ⟨v'', o'', hv'', hpar'', ho'', hsub'⟩ := h'.rows a i v' o' hv' hpar' ho'
    refine ⟨v'', o'', hv'', hpar'', ho'', fun r t ht hr => ?_⟩
    obtain ⟨t', ht', -⟩ := h.table r t ht
    exact hsub' r t' ht' (hsub r t ht hr)
  node := by
    intro r n hn hpar
    obtain ⟨n', hn', hpar', hc, hi⟩ := h.node r n hn hpar
    obtain ⟨n'', hn'', hpar'', hc', hi'⟩ := h'.node r n' hn' hpar'
    exact ⟨n'', hn'', hpar'', hc'.trans hc, hi'.trans hi⟩

theorem lasting_of_keeps (h : Keeps (fun _ => True) st st') : Lasting st st' where
  root := h.root
  table := by
    intro a t ht
    obtain ⟨t', ht'⟩ := h.table a t ht trivial
    exact ⟨t', ht', h.ids a t t' ht ht'⟩
  token := by
    intro a i v b hv hpar hb
    obtain ⟨t, ht, hvt⟩ := DmStore.slot_eq_some.mp hv
    obtain ⟨v', hv', hpar', hkept⟩ := h.slot a t i v ht hvt trivial hpar
    refine ⟨v', hv', hpar', ?_⟩
    rw [hb] at hkept
    cases hc : v'.content with
    | scalar x =>
      rw [hc] at hkept
      exact hkept.elim
    | table x =>
      rw [hc] at hkept
      exact congrArg _ hkept.symm
    | inst x =>
      rw [hc] at hkept
      exact hkept.elim
  rows := by
    intro a i v o hv hpar ho
    obtain ⟨t, ht, hvt⟩ := DmStore.slot_eq_some.mp hv
    obtain ⟨v', hv', hpar', hkept⟩ := h.slot a t i v ht hvt trivial hpar
    rw [ho] at hkept
    cases hc : v'.content with
    | scalar x =>
      rw [hc] at hkept
      exact hkept.elim
    | table x =>
      rw [hc] at hkept
      exact hkept.elim
    | inst x =>
      rw [hc] at hkept
      cases x with
      | none => exact hkept.elim
      | some o' => exact ⟨v', o', hv', hpar', hc, fun r tr htr hr => hkept r ⟨tr, htr, trivial⟩ hr⟩
  node := by
    intro r n hn hpar
    obtain ⟨t, ht, hnt⟩ := DmStore.node_eq_some.mp hn
    exact h.node r t n ht trivial hnt hpar

theorem Located.lasting (h : Located S st q kw a) (hk : Lasting st st') : Located S st' q kw a := by
  induction h with
  | root =>
    rw [← hk.root]
    exact .root
  | token q kw a i e v b _ he htype hv hpar hb ih =>
    obtain ⟨v', hv', hpar', hb'⟩ := hk.token a i v b hv hpar hb
    exact .token q kw a i e v' b ih he htype hv' hpar' hb'
  | row q kw a i e v o r n _ he htype hv hpar ho hr hn hnpar hc ih =>
    obtain ⟨v', o', hv', hpar', ho', hsub⟩ := hk.rows a i v o hv hpar ho
    obtain ⟨n', hn', hnpar', hc', hi⟩ := hk.node r n hn hnpar
    obtain ⟨t, ht, -⟩ := DmStore.node_eq_some.mp hn
    rw [← hi]
    exact .row q kw a i e v' o' r n' ih he htype hv' hpar' ho' (hsub r t ht hr) hn' hnpar' (hc'.trans hc)

section Wf
variable {full : Prop}

/-- The table knows the path. -/
theorem Located.table (hw : HeapWf full nowhere S st) (h : Located S st q kw a) :
    ∃ t, st.heap a = some t ∧ t.id = q ∧ S.place q = some (kw, false) := by
  induction h with
  | root =>
    obtain ⟨t, ht, hid⟩ := hw.root
    exact ⟨t, ht, hid, rfl⟩
  | token q kw a i e v b _ he htype hv hpar hb ih =>
    obtain ⟨t, ht, rfl, hp⟩ := ih
    obtain ⟨k, hk⟩ := hw.table a t ht
    obtain ⟨t0, ht0, hvt⟩ := DmStore.slot_eq_some.mp hv
    rw [ht] at ht0
    cases ht0
    obtain ⟨tb, htb, hid⟩ := (hk.slot i v hvt fun hx => hx).token b hb hpar
    exact ⟨tb, htb, hid, place_token hp he htype⟩
  | row q kw a i e v o r n _ he htype hv hpar ho hr hn hnpar hc ih =>
    obtain ⟨t, ht, rfl, hp⟩ := ih
    have htree : st.tree a i = some (some o) := (tree_eq_some st a i _).mpr ⟨v, hv, ho⟩
    obtain ⟨o', rows, ho', hrows, -⟩ := hw.tree ht hp (fun hx => hx) htree
    cases ho'
    obtain ⟨tr, n', htr, hn', -, hid, -⟩ := hrows.isRow r (hrows.lists.has.mp hr)
    have hsame := DmStore.node_eq_some.mpr ⟨tr, htr, hn'⟩
    rw [hn] at hsame
    cases hsame
    refine ⟨tr, htr, hid, ?_⟩
    have hsplit : t.id ++ [i + 1, n.inst] = t.id ++ [i + 1] ++ [n.inst] := by simp
    rw [hsplit]
    exact place_inst (place_object hp he htype)

/-- A leaf below the table is one of the store. -/
theorem Located.inside (hw : HeapWf full nowhere S st) (h : Located S st q kw a) {p : Selector} {around : List Around}
    (hin : Inside S st kw a p around e v) : ∃ around', Inside S st S.root st.root (q ++ p) around' e v := by
  induction h generalizing p around with
  | root => exact ⟨around, hin⟩
  | token q kw a i e' u b _ he htype hu hpar hb ih =>
    rw [List.append_assoc]
    exact ih (.token kw a i e' u b p around e v he htype hu trivial hb hin)
  | row q kw a i e' u o r n h he htype hu hpar ho hr hn hnpar hc ih =>
    obtain ⟨t, ht, hid, hp⟩ := h.table hw
    obtain ⟨rows, hat⟩ := HeapWf.rowsAt hw ht (hid ▸ hp) he htype hu ho
    have htree : st.tree a i = some (some o) := (tree_eq_some st a i _).mpr ⟨u, hu, ho⟩
    obtain ⟨o', rows', ho', hrows, -⟩ := hw.tree ht (hid ▸ hp) (fun hx => hx) htree
    cases ho'
    have henum := instanceRows_lists hrows.lists (ObjWf.length_lt_fuel hw hrows)
    rw [List.append_assoc]
    exact ih (.row kw a i e' u o rows' r n r p around e v he htype hu trivial ho henum (hrows.lists.has.mp hr) hn trivial hc hin)

/-- The table of a leaf. -/
theorem Located.leaf (hw : HeapWf full nowhere S st) (hpar : Intact st) (hnode : ∀ r n, st.node r = some n → n.value.parity = true)
    (h : Located S st q kw a) {p : Selector} {around : List Around} (hin : Inside S st kw a p around e v) :
    ∃ q' kw' a' i, Located S st q' kw' a' ∧ q ++ p = q' ++ [i + 1] ∧ (S.table kw').elems[i]? = some e ∧
      e.container = false ∧ st.slot a' i = some v := by
  induction hin generalizing q with
  | leaf kw a i e v he hc hv => exact ⟨q, kw, a, i, h, rfl, he, hc, hv⟩
  | token kw a i e u b p around e' v he htype hu _ hb _ ih =>
    obtain ⟨q', kw', a', j, hl, hp, hrest⟩ := ih (.token q kw a i e u b h he htype hu (hpar a i u hu) hb)
    exact ⟨q', kw', a', j, hl, by rw [← hp]; simp, hrest⟩
  | row kw a i e u o rows r n b p around e' v he htype hu _ ho hrows hr hn _ hb _ ih =>
    obtain ⟨t, ht, hid, hp⟩ := h.table hw
    have htree : st.tree a i = some (some o) := (tree_eq_some st a i _).mpr ⟨u, hu, ho⟩
    obtain ⟨o', rows', ho', hobj, -⟩ := hw.tree ht (hid ▸ hp) (fun hx => hx) htree
    cases ho'
    rw [instanceRows_lists hobj.lists (ObjWf.length_lt_fuel hw hobj)] at hrows
    cases hrows
    obtain ⟨tr, n', htr, hn', -, -, hc, -⟩ := hobj.isRow r hr
    have hsame := DmStore.node_eq_some.mpr ⟨tr, htr, hn'⟩
    rw [hn] at hsame
    cases hsame
    rw [hc] at hb
    cases hb
    obtain ⟨q', kw', a', j, hl, hq, hrest⟩ :=
      ih (.row q kw a i e u o r n h he htype hu (hpar a i u hu) ho (hobj.lists.has.mpr hr) hn (hnode r n hn) hc)
    exact ⟨q', kw', a', j, hl, by rw [← hq]; simp, hrest⟩

end Wf

/-! ## What the leaves hold -/

/-- Every leaf that is saved holds what was brought to it, or zero. -/
structure Restoring (S : Schema) (V : Addr → ℕ → Option Value) (st : DmStore) : Prop where
  intact : Intact st
  node : ∀ r n, st.node r = some n → n.inst ≠ 0 ∧ n.value.parity = true
  filled : ∀ a i v, st.slot a i = some v → v.content ≠ .table none
  known : ∀ a i x, V a i = some x → ∃ t, st.heap a = some t
  leaf : ∀ a t kw i e v, st.heap a = some t → S.place t.id = some (kw, false) → (S.table kw).elems[i]? = some e →
    handled e.type = true → st.slot a i = some v → v.content = .scalar ((V a i).getD (zeroValue e.type))

section Writes
variable {V V' : Addr → ℕ → Option Value}

/-- A slot is written. -/
theorem Restoring.setSlot (h : Restoring S V st) (hset : st.setSlot a i v' = some st') (hpar : v'.parity = true)
    (hfill : v'.content ≠ .table none) (hV : ∀ b j, ¬(b = a ∧ j = i) → V' b j = V b j)
    (hleaf : ∀ t kw e, st.heap a = some t → S.place t.id = some (kw, false) → (S.table kw).elems[i]? = some e →
      handled e.type = true → v'.content = .scalar ((V' a i).getD (zeroValue e.type))) : Restoring S V' st' := by
  have hslot : ∀ b j, st'.slot b j = if b = a ∧ j = i then some v' else st.slot b j :=
    fun b j => DmStore.slot_setSlot hset
  obtain ⟨t, ht, -, rfl⟩ := DmStore.setSlot_eq_some.mp hset
  have hheap : ∀ b tb, (st.put a (t.setValue i v')).heap b = some tb → ∃ tb', st.heap b = some tb' ∧ tb'.id = tb.id := by
    intro b tb hb
    rw [DmStore.put_heap] at hb
    split at hb
    · next hba =>
      cases hb
      exact ⟨t, by rw [hba]; exact ht, rfl⟩
    · exact ⟨tb, hb, rfl⟩
  refine ⟨?_, ?_, ?_, ?_, ?_⟩
  · intro b j w hw
    rw [hslot] at hw
    split at hw
    · cases hw
      exact hpar
    · exact h.intact b j w hw
  · intro r n hn
    rw [DmStore.node_setSlot hset] at hn
    exact h.node r n hn
  · intro b j w hw
    rw [hslot] at hw
    split at hw
    · cases hw
      exact hfill
    · exact h.filled b j w hw
  · intro b j x hx
    rw [DmStore.put_heap]
    split
    · exact ⟨_, rfl⟩
    · next hba =>
      rw [hV b j fun hbj => hba hbj.1] at hx
      exact h.known b j x hx
  · intro b tb k j e w hb hp he hh hw
    obtain ⟨tb', htb', hid⟩ := hheap b tb hb
    rw [hslot] at hw
    split at hw
    · next hbj =>
      obtain ⟨rfl, rfl⟩ := hbj
      cases hw
      exact hleaf tb' k e htb' (hid ▸ hp) he hh
    · next hbj =>
      rw [hV b j hbj]
      exact h.leaf b tb' k j e w htb' (hid ▸ hp) he hh hw

/-- A slot gets another value with the contents that it has. -/
theorem Restoring.rewrite (h : Restoring S V st) (hv : st.slot a i = some v) (hset : st.setSlot a i v' = some st')
    (hpar : v'.parity = true) (hc : v'.content = v.content) : Restoring S V st' := by
  refine h.setSlot hset hpar (hc ▸ h.filled a i v hv) (fun _ _ _ => rfl) fun t kw e ht hp he hh => ?_
  rw [hc]
  exact h.leaf a t kw i e v ht hp he hh hv

/-- What is no leaf may be written. -/
theorem Restoring.other (h : Restoring S V st) (hset : st.setSlot a i v' = some st') (hpar : v'.parity = true)
    (hfill : v'.content ≠ .table none) (hno : ∀ t kw e, st.heap a = some t → S.place t.id = some (kw, false) →
      (S.table kw).elems[i]? = some e → handled e.type = false) : Restoring S V st' := by
  refine h.setSlot hset hpar hfill (fun _ _ _ => rfl) fun t kw e ht hp he hh => ?_
  rw [hno t kw e ht hp he] at hh
  cases hh

theorem Restoring.setNode {r : Addr} {n : RowNode} (h : Restoring S V st) (hset : st.setNode r n = some st') (hn : n.inst ≠ 0)
    (hpar : n.value.parity = true) : Restoring S V st' := by
  have hslot : ∀ b j, st'.slot b j = st.slot b j := fun b j => DmStore.slot_setNode hset
  have hnode : ∀ b, st'.node b = if b = r then some n else st.node b := fun b => DmStore.node_setNode hset
  obtain ⟨t, ht, rfl⟩ := DmStore.setNode_eq_some.mp hset
  refine ⟨fun b j w hw => h.intact b j w (hslot b j ▸ hw), ?_, fun b j w hw => h.filled b j w (hslot b j ▸ hw), ?_, ?_⟩
  · intro b m hm
    rw [hnode] at hm
    split at hm
    · cases hm
      exact ⟨hn, hpar⟩
    · exact h.node b m hm
  · intro b j x hx
    rw [DmStore.put_heap]
    split
    · exact ⟨_, rfl⟩
    · exact h.known b j x hx
  · intro b tb k j e w hb hp he hh hw
    rw [hslot] at hw
    rw [DmStore.put_heap] at hb
    split at hb
    · next hbr =>
      cases hb
      exact h.leaf b t k j e w (by rw [hbr]; exact ht) hp he hh hw
    · exact h.leaf b tb k j e w hb hp he hh hw

end Writes

/-! ## New tables -/

/-- A table as `dm_init_table` leaves it. -/
def BlankTable (S : Schema) (t : VTable) : Prop :=
  ∀ (i : ℕ) v, t.values[i]? = some v → v.parity = true ∧ v.content ≠ .table none ∧
    ∀ kw e, S.place t.id = some (kw, false) → (S.table kw).elems[i]? = some e → e.container = false →
      v.content = .scalar (zeroValue e.type)

/-- Only blank tables were added. -/
def AddsBlank (S : Schema) (st st' : DmStore) : Prop :=
  ∀ b t, st'.heap b = some t → st.heap b = some t ∨ BlankTable S t

def AllocBlank (S : Schema) (alloc : ℕ → Selector → DmStore → Option (Addr × DmStore)) : Prop :=
  ∀ kw id st b st', alloc kw id st = some (b, st') → S.place id = some (kw, false) → AddsBlank S st st'

theorem AddsBlank.trans (h : AddsBlank S st st') (h' : AddsBlank S st' st'') : AddsBlank S st st'' := by
  intro b t ht
  rcases h' b t ht with ht | hb
  · exact h b t ht
  · exact .inr hb

theorem initContent_blank {alloc : ℕ → Selector → DmStore → Option (Addr × DmStore)} (halloc : AllocBlank S alloc) {c : Content}
    (he : (S.table kw).elems[i]? = some e) (hp : S.place q = some (kw, false))
    (h : initContent S alloc (S.table kw).elems a q e i st = some (c, st')) :
    AddsBlank S st st' ∧ c ≠ .table none ∧ (e.container = false → c = .scalar (zeroValue e.type)) := by
  unfold initContent at h
  split at h
  · next htype =>
    simp only [Option.bind_eq_bind, Option.bind_eq_some_iff, Prod.exists, Option.some.injEq, Prod.mk.injEq] at h
    obtain ⟨b, st1, h1, rfl, rfl⟩ := h
    refine ⟨halloc _ _ _ _ _ h1 (place_token hp he htype), by simp, fun hc => ?_⟩
    simp [DmElement.container, htype] at hc
  · next htype =>
    cases h
    refine ⟨fun b t ht => .inl ht, by simp, fun hc => ?_⟩
    simp [DmElement.container, htype] at hc
  · cases h
    exact ⟨fun b t ht => .inl ht, by simp, fun _ => rfl⟩

theorem initValues_blank {alloc : ℕ → Selector → DmStore → Option (Addr × DmStore)} (halloc : AllocBlank S alloc)
    (hp : S.place q = some (kw, false)) (es : List DmElement) (i : ℕ) (vs : List DmValue)
    (hes : (S.table kw).elems.drop i = es) (h : initValues S alloc (S.table kw).elems a q es i st = some (vs, st')) :
    AddsBlank S st st' ∧ ∀ (j : ℕ) v, vs[j]? = some v → v.parity = true ∧ v.content ≠ .table none ∧
      ∀ e, (S.table kw).elems[i + j]? = some e → e.container = false → v.content = .scalar (zeroValue e.type) := by
  induction es generalizing i st vs with
  | nil =>
    cases h
    exact ⟨fun b t ht => .inl ht, by simp⟩
  | cons e es ih =>
    have he : (S.table kw).elems[i]? = some e := by
      rw [← List.head?_drop, hes]
      rfl
    have hrest : (S.table kw).elems.drop (i + 1) = es := by
      rw [← List.tail_drop, hes]
      rfl
    simp only [initValues, Option.bind_eq_bind, Option.bind_eq_some_iff, Prod.exists, Option.some.injEq, Prod.mk.injEq] at h
    obtain ⟨c, st1, hc, vs1, st2, hvs, rfl, rfl⟩ := h
    obtain ⟨hadd, hfill, hzero⟩ := initContent_blank halloc he hp hc
    obtain ⟨hadd', hvalues⟩ := ih (i + 1) vs1 hrest hvs
    refine ⟨hadd.trans hadd', fun j v hv => ?_⟩
    cases j with
    | zero =>
      cases hv
      refine ⟨rfl, hfill, fun e' he' hcont => ?_⟩
      rw [Nat.add_zero, he] at he'
      cases he'
      exact hzero hcont
    | succ j =>
      rw [List.getElem?_cons_succ] at hv
      obtain ⟨hpar, hfill', hzero'⟩ := hvalues j v hv
      exact ⟨hpar, hfill', fun e' he' => hzero' e' (by rw [← he']; congr 1; omega)⟩

theorem allocTable_blank (n : ℕ) : AllocBlank S (allocTable S n) := by
  induction n with
  | zero =>
    intro kw id st b st' h
    cases h
  | succ n ih =>
    intro kw id st b st' h hp c t ht
    simp only [allocTable, Option.bind_eq_bind, Option.bind_eq_some_iff, Prod.exists, Option.some.injEq, Prod.mk.injEq] at h
    obtain ⟨vs, st1, hvs, rfl, rfl⟩ := h
    obtain ⟨hadd, hvalues⟩ := initValues_blank ih hp _ 0 vs rfl hvs
    rw [DmStore.put_heap] at ht
    split at ht
    · cases ht
      refine .inr fun i v hv => ?_
      obtain ⟨hpar, hfill, hzero⟩ := hvalues i v hv
      refine ⟨hpar, hfill, fun k e hk he hc => ?_⟩
      rw [hp] at hk
      cases hk
      exact hzero e (by rw [Nat.zero_add]; exact he) hc
    · exact hadd c t ht

section Grow
variable {V : Addr → ℕ → Option Value}

theorem Restoring.grown (h : Restoring S V st) (hlt : ∀ b t, st.heap b = some t → b < st.next) (hg : Grown st st')
    (hadd : AddsBlank S st st') : Restoring S V st' := by
  have hold : ∀ b t, st.heap b = some t → st'.heap b = some t := fun b t ht => (hg.old b (hlt b t ht)).trans ht
  have hslot : ∀ b j w, st'.slot b j = some w → st.slot b j = some w ∨
      ∃ t, st'.heap b = some t ∧ t.values[j]? = some w ∧ BlankTable S t := by
    intro b j w hw
    obtain ⟨t, ht, hwt⟩ := DmStore.slot_eq_some.mp hw
    rcases hadd b t ht with hb | hb
    · exact .inl (DmStore.slot_eq_some.mpr ⟨t, hb, hwt⟩)
    · exact .inr ⟨t, ht, hwt, hb⟩
  refine ⟨?_, ?_, ?_, ?_, ?_⟩
  · intro b j w hw
    rcases hslot b j w hw with hw | ⟨t, -, hwt, hb⟩
    · exact h.intact b j w hw
    · exact (hb j w hwt).1
  · intro r n hn
    obtain ⟨t, ht, hnt⟩ := DmStore.node_eq_some.mp hn
    by_cases hr : r < st.next
    · rw [hg.old r hr] at ht
      exact h.node r n (DmStore.node_eq_some.mpr ⟨t, ht, hnt⟩)
    · rw [hg.node r t (not_lt.mp hr) ht] at hnt
      cases hnt
  · intro b j w hw
    rcases hslot b j w hw with hw | ⟨t, -, hwt, hb⟩
    · exact h.filled b j w hw
    · exact (hb j w hwt).2.1
  · intro b j x hx
    obtain ⟨t, ht⟩ := h.known b j x hx
    exact ⟨t, hold b t ht⟩
  · intro b t k j e w ht hp he hh hw
    by_cases hb : st.heap b = some t
    · refine h.leaf b t k j e w hb hp he hh ?_
      rw [DmStore.slot_eq, ht] at hw
      rw [DmStore.slot_eq, hb]
      exact hw
    · -- nothing was brought to a table that is new
      have hV : V b j = none := by
        cases hx : V b j with
        | none => rfl
        | some x =>
          obtain ⟨t0, ht0⟩ := h.known b j x hx
          have := hold b t0 ht0
          rw [ht] at this
          cases this
          exact absurd ht0 hb
      have hblank := (hadd b t ht).resolve_left hb
      obtain ⟨t0, ht0, hwt⟩ := DmStore.slot_eq_some.mp hw
      rw [ht] at ht0
      cases ht0
      rw [hV]
      exact (hblank j w hwt).2.2 k e hp he (handled_leaf hh)

/-! ## Rows -/

/-- Nothing is saved of the slot. -/
def Unhandled (S : Schema) (st : DmStore) (a i : ℕ) : Prop :=
  ∀ t kw e, st.heap a = some t → S.place t.id = some (kw, false) → (S.table kw).elems[i]? = some e → handled e.type = false

theorem Unhandled.setSlot {j : ℕ} (h : Unhandled S st a i) (hset : st.setSlot b j v = some st') : Unhandled S st' a i := by
  obtain ⟨t, ht, -, rfl⟩ := DmStore.setSlot_eq_some.mp hset
  intro t' k e ht' hp he
  rw [DmStore.put_heap] at ht'
  split at ht'
  · next hab =>
    cases ht'
    exact h t k e (by rw [hab]; exact ht) hp he
  · exact h t' k e ht' hp he

theorem Unhandled.setNode {n : RowNode} (h : Unhandled S st a i) (hset : st.setNode b n = some st') : Unhandled S st' a i := by
  obtain ⟨t, ht, rfl⟩ := DmStore.setNode_eq_some.mp hset
  intro t' k e ht' hp he
  rw [DmStore.put_heap] at ht'
  split at ht'
  · next hab =>
    cases ht'
    exact h t k e (by rw [hab]; exact ht) hp he
  · exact h t' k e ht' hp he

theorem Restoring.setTree {o : ObjTree} (h : Restoring S V st) (hno : Unhandled S st a i) (hset : setTree st a i o = some st') :
    Restoring S V st' := by
  obtain ⟨v, hv, hset⟩ := setTree_eq_some hset
  exact h.other hset (h.intact a i v hv) (by simp) hno

/-- An object is no leaf. -/
theorem unhandled_object {full : Prop} {t : VTable} {x : Option ObjTree} (hw : HeapWf full nowhere S st) (ht : st.heap a = some t)
    (hp : S.place t.id = some (kw, false)) (htree : st.tree a i = some x) : Unhandled S st a i := by
  obtain ⟨o, rows, -, -, e, he, hobj⟩ := hw.tree ht hp (fun hx => hx) htree
  intro t' k e' ht' hp' he'
  rw [ht] at ht'
  cases ht'
  rw [hp] at hp'
  cases hp'
  rw [he] at he'
  cases he'
  rw [hobj]
  rfl

theorem insertInstance_restoring {full : Prop} {r : Addr} {t : VTable} (hw : HeapWf full nowhere S st) (h : Restoring S V st)
    (ht : st.heap a = some t) (hp : S.place t.id = some (kw, false)) (hins : insertInstance st a i r = some st') :
    Restoring S V st' := by
  obtain ⟨o, tree, n, st1, st2, htree, -, hn, h1, h2, h3⟩ := insertInstance_parts hins
  obtain ⟨o', rows, ho', hobj, -⟩ := hw.tree ht hp (fun hx => hx) htree
  cases ho'
  have hno1 := (unhandled_object hw ht hp htree).setNode h1
  obtain ⟨hinst, hnpar⟩ := h.node r n hn
  have hr2 := (h.setNode h1 hinst hnpar).setTree hno1 h2
  obtain ⟨v2, -, hset2⟩ := setTree_eq_some h2
  rcases addCounter_eq_some h3 with ⟨-, rfl⟩ | ⟨c, id, w, m, hcntr, hw2, hwpar, -, hset⟩
  · exact hr2
  · -- the counter is not saved
    refine hr2.other hset hwpar (by simp) ?_
    have hcounter : Unhandled S st c (id - 1) := by
      rw [hobj.cntr] at hcntr
      obtain ⟨k, hk, heq⟩ := Option.map_eq_some_iff.mp hcntr
      cases heq
      obtain ⟨e, he, htype⟩ := counterOf_type hk
      intro t' k' e' ht' hp' he'
      rw [ht] at ht'
      cases ht'
      rw [hp] at hp'
      cases hp'
      rw [Nat.add_sub_cancel, he] at he'
      cases he'
      rw [htype]
      rfl
    exact (hcounter.setNode h1).setSlot hset2

theorem newId_regular {o : ObjTree} {id : ℕ} (hid : Regular id) : newId st o id = some id := if_neg hid.1

theorem addInstance_restoring {full : Prop} {id : ℕ} {t : VTable} {basesel : Selector} {r : Addr} (hw : HeapWf full nowhere S st)
    (h : Restoring S V st) (ht : st.heap a = some t) (hp : S.place t.id = some (kw, false))
    (he : (S.table kw).elems[i]? = some e) (hobj : e.type = .object) (hsel : selIds basesel = t.id ++ [i + 1]) (hid : Regular id)
    (hadd : addInstance S st e a i basesel id = some (some r, st')) : Restoring S V st' := by
  unfold addInstance at hadd
  rw [if_neg (not_not.mpr hobj)] at hadd
  simp only [Option.bind_eq_bind, Option.bind_eq_some_iff] at hadd
  obtain ⟨ref, -, hadd⟩ := hadd
  cases ref with
  | none => cases hadd
  | some ref =>
    simp only [Option.bind_eq_some_iff] at hadd
    obtain ⟨st0, hens, x, htree, o, rfl, hadd⟩ := hadd
    have hst0 : st0 = st := by
      unfold ensureTree at hens
      simp only [Option.bind_eq_bind, Option.bind_eq_some_iff] at hens
      obtain ⟨y, hy, hens⟩ := hens
      obtain ⟨o1, rows, rfl, -⟩ := hw.tree ht hp (fun hx => hx) hy
      cases hens
      rfl
    subst hst0
    split at hadd
    · cases hadd
    · simp only [Option.bind_eq_some_iff, Prod.exists, Option.some.injEq, Prod.mk.injEq] at hadd
      obtain ⟨id', hnew, r', st1, halloc, st2, hins, rfl, rfl⟩ := hadd
      rw [newId_regular hid] at hnew
      cases hnew
      have hplace : S.place (selIds basesel) = some (e.table, true) := by
        rw [hsel]
        exact place_object hp he hobj
      obtain ⟨hw1, -, hold, -⟩ := allocInstanceNode_spec (P := fun _ => True) hw hplace halloc
      have ht1 : st1.heap a = some t := (hold a (hw.lt a t ht)).trans ht
      refine insertInstance_restoring hw1 ?_ ht1 hp hins
      simp only [allocInstanceNode, Option.bind_eq_bind, Option.bind_eq_some_iff, Prod.exists, Option.some.injEq,
        Prod.mk.injEq] at halloc
      obtain ⟨c, st2, htable, st3, hnode, rfl, rfl⟩ := halloc
      have hsub : S.place (dmSelcat basesel id) = some (e.table, false) := place_inst hplace
      obtain ⟨-, hg, -⟩ := @allocTable_spec full nowhere S (e.table + 1) _ _ _ _ _ htable hw.tables hsub
      have hne : id ≠ 0 := by
        rintro rfl
        exact hid.1 rfl
      exact (h.grown hw.lt hg (allocTable_blank _ _ _ _ _ _ htable hsub)).setNode hnode hne rfl

end Grow

/-! ## Containers that are entered -/

/-- The store is well-formed, and its leaves hold what was brought to them. -/
structure Sound (S : Schema) (V : Addr → ℕ → Option Value) (st : DmStore) : Prop where
  wf : HeapWf False nowhere S st
  leaves : Restoring S V st

theorem Located.nonzero (hnode : ∀ r n, st.node r = some n → n.inst ≠ 0 ∧ n.value.parity = true) (h : Located S st q kw a) :
    0 ∉ q := by
  induction h with
  | root => exact List.not_mem_nil
  | token q kw a i e v b _ _ _ _ _ _ ih => simp [ih]
  | row q kw a i e v o r n _ _ _ _ _ _ _ hn _ _ ih => simp [ih, Ne.symm (hnode r n hn).1]

theorem Located.hasNode {r : Addr} {m : RowNode} {o : ObjTree} {full : Prop} (hw : HeapWf full nowhere S st)
    (h : Located S st q kw a) (he : (S.table kw).elems[i]? = some e) (htype : e.type = .object) (hv : st.slot a i = some v)
    (hpar : v.parity = true) (ho : v.content = .inst (some o)) (hr : o.Has r) (hm : st.node r = some m)
    (hmpar : m.value.parity = true) :
    Located S st (q ++ [i + 1, m.inst]) e.table r ∧ m.value.content = .table (some r) := by
  obtain ⟨t, ht, rfl, hp⟩ := h.table hw
  have htree : st.tree a i = some (some o) := (tree_eq_some st a i _).mpr ⟨v, hv, ho⟩
  obtain ⟨o', rows, ho', hobj, -⟩ := hw.tree ht hp (fun hx => hx) htree
  cases ho'
  obtain ⟨tr, n, htr, hn, -, -, hc, -⟩ := hobj.isRow r (hobj.lists.has.mp hr)
  have hsame := DmStore.node_eq_some.mpr ⟨tr, htr, hn⟩
  rw [hm] at hsame
  cases hsame
  exact ⟨.row t.id kw a i e v o r m h he htype hv hpar ho hr hm hmpar hc, hc⟩

section Sound
variable {V : Addr → ℕ → Option Value}

/-- A value gets other flags, or another notify level. -/
theorem Sound.rewrite {l : Loc} (h : Sound S V st) (hv : st.value l = some v) (hc : v'.content = v.content)
    (hpar : v'.parity = true) (hset : st.setValue l v' = some st') : Sound S V st' ∧ Lasting st st' := by
  cases l with
  | slot a i =>
    have hv : st.slot a i = some v := hv
    have hset : st.setSlot a i v' = some st' := hset
    obtain ⟨t, ht, hvt⟩ := DmStore.slot_eq_some.mp hv
    have hwf : HeapWf False nowhere S st' := h.wf.setSlot (fun _ _ hx => hx) hset hv (fun _ hf => hc ▸ hf) (fun _ hb => hc ▸ hb)
      (.inl (.inl ⟨hc, fun _ => h.leaves.intact a i v hv⟩)) (fun hf => hf.elim)
    refine ⟨⟨hwf, h.leaves.rewrite hv hset hpar hc⟩, lasting_of_keeps (Keeps.setSlot h.wf.lt hset ht hvt fun _ _ => ⟨hpar, ?_⟩)⟩
    rw [hc]
    exact Content.KeptOn.refl _ _
  | row r =>
    obtain ⟨n, hn, hset⟩ := Option.bind_eq_some_iff.mp hset
    obtain ⟨m, hm, rfl⟩ := Option.map_eq_some_iff.mp hv
    rw [hn] at hm
    cases hm
    obtain ⟨t, ht, hnt⟩ := DmStore.node_eq_some.mp hn
    obtain ⟨kw, hk⟩ := h.wf.table r t ht
    refine ⟨⟨h.wf.setNode (fun _ _ hx => hx) hset hn ⟨rfl, hc⟩ (.inl rfl) ?_, h.leaves.setNode hset (h.leaves.node r n hn).1 hpar⟩,
      lasting_of_keeps (Keeps.setNode h.wf.lt hset hn fun _ => ⟨hpar, hc, rfl⟩)⟩
    intro t0 ht0 b j hr
    rw [ht] at ht0
    cases ht0
    obtain ⟨hlt, hb⟩ := hk.home n hnt b j hr
    refine ⟨hlt, fun tb htb => ?_⟩
    obtain ⟨hid, hcont, hn16⟩ := hb tb htb
    exact ⟨hid, hc.trans hcont, hn16⟩

/-- A leaf that nothing was brought to yet is written. -/
theorem Sound.setLeaf {o : Value} {y : Option Value} (h : Sound S V st) (hl : Located S st q kw a)
    (hv : st.slot a i = some v) (ho : v.content = .scalar o) (hnone : V a i = none)
    (hset : st.setSlot a i v' = some st') (hpar : v'.parity = true) (hy : v'.content = .scalar (y.getD o)) :
    Sound S (Function.update V a (Function.update (V a) i y)) st' ∧ Lasting st st' := by
  obtain ⟨t, ht, hid, hp⟩ := hl.table h.wf
  obtain ⟨t0, ht0, hvt⟩ := DmStore.slot_eq_some.mp hv
  rw [ht] at ht0
  cases ht0
  have hwf : HeapWf False nowhere S st' := by
    refine h.wf.setSlot (fun _ _ hx => hx) hset hv ?_ ?_ (.inl (.inr ⟨o, _, ho, hy⟩)) (fun hf => hf.elim)
    · intro e' hfits
      rw [ho] at hfits
      rw [hy]
      exact hfits
    · intro b hb
      rw [hy] at hb
      cases hb
  have hV : ∀ b j, ¬(b = a ∧ j = i) → Function.update V a (Function.update (V a) i y) b j = V b j := by
    intro b j hbj
    by_cases hba : b = a
    · rw [hba, Function.update_self, Function.update_of_ne fun hj => hbj ⟨hba, hj⟩]
    · rw [Function.update_of_ne hba]
  refine ⟨⟨hwf, h.leaves.setSlot hset hpar (by simp [hy]) hV ?_⟩, lasting_of_keeps (Keeps.setSlot h.wf.lt hset ht hvt ?_)⟩
  · intro t1 k e' ht1 hp1 he1 hh
    rw [ht] at ht1
    cases ht1
    have hold := h.leaves.leaf a t k i e' v ht hp1 he1 hh hv
    rw [hnone, ho, Option.getD_none, Content.scalar.injEq] at hold
    rw [Function.update_self, Function.update_self, hy, hold]
  · intro _ _
    refine ⟨hpar, ?_⟩
    rw [ho, hy]
    trivial

/-- The contents of a leaf. -/
theorem leaf_scalar {full : Prop} (hw : HeapWf full nowhere S st) (hl : Located S st q kw a)
    (he : (S.table kw).elems[i]? = some e) (hc : e.container = false) (hv : st.slot a i = some v) :
    ∃ x, v.content = .scalar x := by
  obtain ⟨t, ht, hid, hp⟩ := hl.table hw
  obtain ⟨t0, ht0, hvt⟩ := DmStore.slot_eq_some.mp hv
  rw [ht] at ht0
  cases ht0
  obtain ⟨k, hk⟩ := hw.table a t ht
  have hplace := hk.place
  rw [hid, hp] at hplace
  cases hplace
  obtain ⟨e', he', hfits⟩ := hk.fits i v hvt
  rw [he] at he'
  cases he'
  cases hvc : v.content with
  | scalar x => exact ⟨x, rfl⟩
  | table b =>
    rw [hvc] at hfits
    have htok : e.type = .token := hfits
    simp [DmElement.container, htok] at hc
  | inst o =>
    rw [hvc] at hfits
    have hobj : e.type = .object := hfits.1
    simp [DmElement.container, hobj] at hc

/-- The slot of an element. -/
theorem located_slot {full : Prop} (hw : HeapWf full nowhere S st) (hl : Located S st q kw a)
    (he : (S.table kw).elems[i]? = some e) : ∃ v, st.slot a i = some v := by
  obtain ⟨t, ht, hid, hp⟩ := hl.table hw
  obtain ⟨k, hk⟩ := hw.table a t ht
  have hplace := hk.place
  rw [hid, hp] at hplace
  cases hplace
  have hi : i < t.values.length := by
    rw [hk.len]
    exact (List.getElem?_eq_some_iff.mp he).1
  exact ⟨_, DmStore.slot_eq_some.mpr ⟨t, ht, List.getElem?_eq_getElem hi⟩⟩

theorem markRow_sound {r : Addr} (h : Sound S V st) (hmark : markRow st a i r = some st') : Sound S V st' ∧ Lasting st st' := by
  simp only [markRow, Option.bind_eq_bind, Option.bind_eq_some_iff] at hmark
  obtain ⟨v, hv, st1, h1, n, hn, h2⟩ := hmark
  have hslot : st.value (.slot a i) = some v := hv
  have hmarked : ∀ u : DmValue, (markUpdated u).content = u.content ∧ (markUpdated u).parity = true := fun _ => ⟨rfl, rfl⟩
  obtain ⟨hs1, hl1⟩ := h.rewrite hslot (hmarked v).1 (hmarked v).2 h1
  have hvalue : st1.value (.row r) = some n.value := by
    show (st1.node r).map RowNode.value = _
    rw [hn]
    rfl
  have hset : st1.setValue (.row r) (markUpdated n.value) = some st' := by
    show (st1.node r).bind _ = _
    rw [hn]
    exact h2
  obtain ⟨hs2, hl2⟩ := hs1.rewrite hvalue (hmarked n.value).1 (hmarked n.value).2 hset
  exact ⟨hs2, hl1.trans hl2⟩

theorem updateInstanceNodeIndex_sound {r : Addr} (h : Sound S V st) (hupd : updateInstanceNodeIndex st r = some st') :
    Sound S V st' ∧ Lasting st st' := by
  obtain ⟨hwf, hk⟩ := updateInstanceNodeIndex_spec (P := fun _ => True) h.wf (fun _ _ _ _ _ hx => hx) hupd
  refine ⟨⟨hwf, ?_⟩, lasting_of_keeps hk⟩
  simp only [updateInstanceNodeIndex, Option.bind_eq_bind, Option.bind_eq_some_iff] at hupd
  obtain ⟨n, -, hupd⟩ := hupd
  split at hupd
  · cases hupd
    exact h.leaves
  · next b j _ =>
    simp only [Option.bind_eq_some_iff] at hupd
    obtain ⟨x, htree, o, -, tree, -, hset⟩ := hupd
    obtain ⟨v, hv, -⟩ := (tree_eq_some st b j x).mp htree
    obtain ⟨t, ht, -⟩ := DmStore.slot_eq_some.mp hv
    obtain ⟨kw, hkw⟩ := h.wf.table b t ht
    exact h.leaves.setTree (unhandled_object h.wf ht hkw.place htree) hset

variable {E : LoadEnv} {w : DmElement}

/-- A row is added to a list that has none of its number. -/
theorem addInstance_sound {n : ℕ} {r : Addr} {t : VTable} {o : ObjTree} {rows : List Addr} (hS : PathsFit E.schema)
    (h : Sound E.schema V st) (hl : Located E.schema st q kw b) (he : (E.schema.table kw).elems[i]? = some w)
    (hobj : w.type = .object) (hn : Regular n) (ht : st.heap b = some t) (htree : st.tree b i = some (some o))
    (hrows : ObjWf False E.schema st kw t.id b i o rows) (hnone : ∀ y ∈ rows, (st.row y).inst ≠ n)
    (hadd : addInstance E.schema st w b i (dmSelcat t.id (i + 1)) n = some (some r, st')) :
    Sound E.schema V st' ∧ Lasting st st' ∧ ∃ m, Located E.schema st' (q ++ [i + 1, n]) w.table r ∧
      st'.node r = some m ∧ m.value.parity = true ∧ m.value.content = .table (some r) := by
  obtain ⟨t', ht', hid, hp⟩ := hl.table h.wf
  rw [ht] at ht'
  cases ht'
  have h0 := hl.nonzero h.leaves.node
  have hsel : selIds (dmSelcat t.id (i + 1)) = t.id ++ [i + 1] := by
    have hlen := hS t.id kw i w (hid ▸ hp) he
    have h0' : 0 ∉ t.id ++ [i + 1] := by simp [hid, h0]
    rw [dmSelcat, selIds_eq_self (le_of_lt hlen) fun y hy hy0 => h0 (hid ▸ hy0 ▸ hy)]
    exact selIds_eq_self (by rw [List.length_append, List.length_singleton]; exact hlen) fun y hy hy0 => h0' (hy0 ▸ hy)
  obtain ⟨hwf, hk, hres⟩ := addInstance_spec (P := fun _ => True) h.wf ht (hid ▸ hp) he hsel hn.2 (fun hf => hf.elim) hadd
  obtain ⟨m, hadded⟩ := hres r rfl
  have hs1 : Sound E.schema V st' := ⟨hwf, addInstance_restoring h.wf h.leaves ht (hid ▸ hp) he hobj hsel hn hadd⟩
  have hl1 := lasting_of_keeps hk
  obtain ⟨o0, rows0, o1, rows1, htree0, htree1, hobj0, hobj1, hnew, hwhere⟩ := hadded.listed
  rw [htree] at htree0
  cases htree0
  rw [newId_regular hn] at hnew
  have hinst : m.inst = n := (Option.some.inj hnew).symm
  have hperm : rows1.Perm (r :: rows0) := by
    rcases hwhere with ⟨⟨y, hy, hyn⟩, -⟩ | ⟨-, hperm⟩
    · rw [hobj0.lists.unique hrows.lists] at hy
      exact absurd (hyn.trans hinst) (hnone y hy)
    · exact hperm
  obtain ⟨v1, hv1, ho1⟩ := (tree_eq_some st' b i _).mp htree1
  obtain ⟨hrow, hc⟩ := (hl.lasting hl1).hasNode hwf he hobj hv1 (hs1.leaves.intact b i v1 hv1) ho1
    (hobj1.lists.has.mpr (hperm.mem_iff.mpr List.mem_cons_self)) hadded.node hadded.parity
  rw [hinst] at hrow
  exact ⟨hs1, hl1, m, hrow, hadded.node, hadded.parity, hc⟩

/-- The row that a tag names is found, or it is added. -/
theorem enterObject_sound {n : ℕ} {xid : ℤ} {r : Addr} (hS : PathsFit E.schema) (h : Sound E.schema V st)
    (hl : Located E.schema st q kw b) (he : (E.schema.table kw).elems[i]? = some w) (hobj : w.type = .object) (hn : Regular n)
    (hpos : 0 < xid) (hxid : dmId xid = n) (henter : enterObject E w b i xid st = some (r, st')) :
    Sound E.schema V st' ∧ Lasting st st' ∧ Located E.schema st' (q ++ [i + 1, n]) w.table r ∧
      ∃ m, st'.node r = some m ∧ m.value.content = .table (some r) := by
  obtain ⟨t, ht, hid, hp⟩ := hl.table h.wf
  have h0 := hl.nonzero h.leaves.node
  simp only [enterObject, namedRow, if_pos hpos, hxid, Option.bind_eq_bind, Option.bind_eq_some_iff] at henter
  obtain ⟨x, htree, found, hfound, henter⟩ := henter
  obtain ⟨o, rows, rfl, hrows, -⟩ := h.wf.tree ht (hid ▸ hp) (fun hx => hx) htree
  obtain ⟨found', hfind, hiff⟩ := instanceNode_spec h.wf.lt hrows n
  rw [hfind] at hfound
  cases hfound
  obtain ⟨v, hv, ho⟩ := (tree_eq_some st b i _).mp htree
  cases found with
  | some r' =>
    cases henter
    obtain ⟨hr, hnum⟩ := (hiff r).mp rfl
    obtain ⟨tr, m, htr, hm, -⟩ := hrows.isRow r hr
    have hm := DmStore.node_eq_some.mpr ⟨tr, htr, hm⟩
    obtain ⟨hrow, hc⟩ := hl.hasNode h.wf he hobj hv (h.leaves.intact b i v hv) ho (hrows.lists.has.mpr hr) hm
      (h.leaves.node r m hm).2
    have hinst : m.inst = n := by
      rw [DmStore.row, hm] at hnum
      exact hnum
    rw [hinst] at hrow
    exact ⟨h, .refl st, hrow, m, hm, hc⟩
  | none =>
    simp only [Option.bind_eq_some_iff, Prod.exists] at henter
    obtain ⟨tb, htb, res, st1, hadd, r', rfl, henter⟩ := henter
    rw [ht] at htb
    cases htb
    have hnew : ∀ y ∈ rows, (st.row y).inst ≠ n := by
      intro y hy hyn
      cases (hiff y).mpr ⟨hy, hyn⟩
    obtain ⟨hs1, hl1, m, hrow, hm, hpar, hc⟩ := addInstance_sound hS h hl he hobj hn ht htree hrows hnew hadd
    split at henter
    · obtain ⟨st2, hmark, hr⟩ := Option.map_eq_some_iff.mp henter
      cases hr
      obtain ⟨hs2, hl2⟩ := markRow_sound hs1 hmark
      obtain ⟨m2, hm2, -, hc2, -⟩ := hl2.node r m hm hpar
      exact ⟨hs2, hl1.trans hl2, hrow.lasting hl2, m2, hm2, hc2.trans hc⟩
    · cases henter
      exact ⟨hs1, hl1, hrow, m, hm, hc⟩

/-- A token has its table already. -/
theorem enterToken_sound (h : Sound E.schema V st) (hl : Located E.schema st q kw b)
    (he : (E.schema.table kw).elems[i]? = some w) (htok : w.type = .token) (henter : enterToken E w b i st = some st') :
    st' = st ∧ ∃ v c, st.slot b i = some v ∧ v.content = .table (some c) ∧ Located E.schema st (q ++ [i + 1]) w.table c := by
  simp only [enterToken, Option.bind_eq_bind, Option.bind_eq_some_iff] at henter
  obtain ⟨v, hv, henter⟩ := henter
  split at henter
  · next hnone => exact absurd hnone (h.leaves.filled b i v hv)
  · next c hc =>
    cases henter
    exact ⟨rfl, v, c, hv, hc, .token q kw b i w v c hl he htok hv (h.leaves.intact b i v hv) hc⟩
  · cases henter

/-- A new store. -/
theorem init_sound (h : DmStore.init S = some st) : Sound S (fun _ _ => none) st := by
  refine ⟨init_wf h, ?_⟩
  simp only [DmStore.init, Option.bind_eq_bind, Option.bind_eq_some_iff, Prod.exists, Option.some.injEq] at h
  obtain ⟨a, st0, halloc, rfl⟩ := h
  have hblank := allocTable_blank (S.root + 1) S.root [] _ a st0 halloc rfl
  have hempty : TablesWf False nowhere S ⟨fun _ => none, 0, 0⟩ := by
    constructor
    · intro _ _ ht
      cases ht
    · intro _ _ _ _ _ _ _ hv
      cases hv
  obtain ⟨-, hg, -⟩ := @allocTable_spec False nowhere S (S.root + 1) S.root [] _ a st0 halloc hempty rfl
  have hstart : Restoring S (fun _ _ => none) (⟨fun _ => none, 0, 0⟩ : DmStore) := by
    refine ⟨?_, ?_, ?_, ?_, ?_⟩
    · intro _ _ _ hv
      cases hv
    · intro _ _ hn
      cases hn
    · intro _ _ _ hv
      cases hv
    · intro _ _ _ hx
      cases hx
    · intro _ _ _ _ _ _ ht
      cases ht
  have hnone : ∀ b t, (⟨fun _ => none, 0, 0⟩ : DmStore).heap b = some t → b < 0 := by
    intro _ _ ht
    cases ht
  have h0 := hstart.grown hnone hg hblank
  exact ⟨h0.intact, h0.node, h0.filled, h0.known, h0.leaf⟩

end Sound

end Mand.Load
