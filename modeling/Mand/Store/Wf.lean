import Mand.Store.Access
import Mand.Store.Instance
import Mand.Index.Inst

/-! # Well-formed stores

Every table knows its path, and the path leads to its place in the schema. A token points to a table
of its own, and the first index of an object lists rows that belong to it. -/
namespace Mand.Store
open Mand.Index
set_option autoImplicit false

/-! ## Paths -/

/-- The place in the schema behind one more id: a table, and whether an instance number comes next. -/
def Schema.enter (S : Schema) (x : ℕ × Bool) (id : ℕ) : Option (ℕ × Bool) :=
  if x.2 = true then some (x.1, false)
  else do
    let e ← (S.table x.1).elems[id - 1]?
    if e.container = true then some (e.table, e.type = .object) else none

def Schema.place (S : Schema) (path : Selector) : Option (ℕ × Bool) :=
  path.foldlM S.enter (S.root, false)

section Paths
variable {S : Schema} {p q : Selector} {kw i id : ℕ} {e : DmElement}

theorem place_snoc (S : Schema) (p : Selector) (id : ℕ) :
    S.place (p ++ [id]) = (S.place p).bind fun x => S.enter x id := by
  unfold Schema.place
  rw [List.foldlM_append]
  cases p.foldlM S.enter (S.root, false) with
  | none => rfl
  | some x => simp

theorem place_inst (h : S.place p = some (kw, true)) : S.place (p ++ [id]) = some (kw, false) := by
  rw [place_snoc, h]
  rfl

theorem place_elem (h : S.place p = some (kw, false)) (he : (S.table kw).elems[i]? = some e) :
    S.place (p ++ [i + 1]) = if e.container = true then some (e.table, decide (e.type = .object))
      else none := by
  rw [place_snoc, h, Option.bind_some]
  unfold Schema.enter
  rw [if_neg Bool.false_ne_true]
  simp [he]

theorem place_token (h : S.place p = some (kw, false)) (he : (S.table kw).elems[i]? = some e)
    (ht : e.type = .token) : S.place (p ++ [i + 1]) = some (e.table, false) := by
  rw [place_elem h he]
  simp [DmElement.container, ht]

theorem place_object (h : S.place p = some (kw, false)) (he : (S.table kw).elems[i]? = some e)
    (ht : e.type = .object) : S.place (p ++ [i + 1]) = some (e.table, true) := by
  rw [place_elem h he]
  simp [DmElement.container, ht]

end Paths

/-! ## What hangs in a slot -/

/-- The contents are those of an element of this type. -/
def Fits (e : DmElement) : Content → Prop
  | .scalar _ => e.container = false
  | .table _ => e.type = .token
  | .inst t => e.type = .object ∧ t.isSome = true

/-- The first index of the tree lists these rows. -/
def ObjTree.Lists (o : ObjTree) (row : Addr → Row) (rows : List Addr) : Prop :=
  ∃ ix rest, o.tree.idx = ⟨instEntry, ix⟩ :: rest ∧ InstIdx row rows ix

/-- The list is read off the index. -/
theorem ObjTree.Lists.unique {o : ObjTree} {row row' : Addr → Row} {rows rows' : List Addr}
    (h : o.Lists row rows) (h' : o.Lists row' rows') : rows = rows' := by
  obtain ⟨ix, rest, ho, hix⟩ := h
  obtain ⟨ix', rest', ho', hix'⟩ := h'
  rw [ho] at ho'
  cases ho'
  have hw := hix.walk (rows.length + rows'.length + 1) (by omega)
  have hw' := hix'.walk (rows.length + rows'.length + 1) (by omega)
  rw [hw] at hw'
  exact Option.some.inj hw'

/-- `r` is a row of the object in slot `i` of table `a`, whose path is `p`. -/
def IsRow (st : DmStore) (p : Selector) (a i : ℕ) (r : Addr) : Prop :=
  ∃ t n, st.heap r = some t ∧ t.node = some n ∧ n.root = some (a, i) ∧ t.id = p ++ [i + 1, n.inst] ∧
    n.value.content = .table (some r) ∧ n.inst < 2 ^ 16

/-- The counts of an object agree, and no row is missing in the first index. -/
structure Account (S : Schema) (st : DmStore) (kw a i : ℕ) (o : ObjTree) (rows : List Addr) : Prop where
  cnt : o.tree.cnt = rows.length
  all : ∀ r n, st.node r = some n → n.root = some (a, i) → r ∈ rows
  value : ∀ c, counterOf (S.table kw).elems (i + 1) = some c →
    ∃ v, st.slot a c = some v ∧ v.content = .scalar (.uint rows.length)

/-- The object in slot `i` of table `a`. The counts are only kept if `full` holds. -/
structure ObjWf (full : Prop) (S : Schema) (st : DmStore) (kw : ℕ) (p : Selector) (a i : ℕ)
    (o : ObjTree) (rows : List Addr) : Prop where
  lists : o.Lists st.row rows
  isRow : ∀ r ∈ rows, IsRow st p a i r
  cntr : o.cntr = (counterOf (S.table kw).elems (i + 1)).map fun c => (a, c + 1)
  account : full → Account S st kw a i o rows

structure SlotWf (full : Prop) (S : Schema) (st : DmStore) (kw : ℕ) (p : Selector) (a i : ℕ)
    (v : DmValue) : Prop where
  token : ∀ b, v.content = .table (some b) → v.parity = true →
    ∃ t, st.heap b = some t ∧ t.id = p ++ [i + 1]
  object : ∀ o, v.content = .inst (some o) → ∃ rows, ObjWf full S st kw p a i o rows

/-- The node of table `a` has the number that its path ends with, below the object it belongs to. -/
def Homed (st : DmStore) (a : Addr) (t : VTable) (n : RowNode) : Prop :=
  ∀ b j, n.root = some (b, j) → b < st.next ∧ ∀ tb, st.heap b = some tb →
    t.id = tb.id ++ [j + 1, n.inst] ∧ n.value.content = .table (some a) ∧ n.inst < 2 ^ 16

/-- A table of number `kw`; the slots in `X` are exempt. -/
structure VTableWf (full : Prop) (X : Addr → ℕ → Prop) (S : Schema) (st : DmStore) (a : Addr)
    (t : VTable) (kw : ℕ) : Prop where
  lt : a < st.next
  place : S.place t.id = some (kw, false)
  len : t.values.length = (S.table kw).elems.length
  fits : ∀ (i : ℕ) (v : DmValue), t.values[i]? = some v → ∃ e, (S.table kw).elems[i]? = some e ∧ Fits e v.content
  ptr : ∀ (i : ℕ) (v : DmValue) (b : Addr), t.values[i]? = some v → v.content = .table (some b) → b < st.next
  slot : ∀ (i : ℕ) (v : DmValue), t.values[i]? = some v → ¬X a i → SlotWf full S st kw t.id a i v
  node : ∀ n, t.node = some n → ∃ q k, S.place q = some (k, true) ∧ t.id = q ++ [n.inst]
  home : ∀ n, t.node = some n → Homed st a t n

structure HeapWf (full : Prop) (X : Addr → ℕ → Prop) (S : Schema) (st : DmStore) : Prop where
  root : ∃ t, st.heap st.root = some t ∧ t.id = []
  table : ∀ a t, st.heap a = some t → ∃ kw, VTableWf full X S st a t kw
  inj : ∀ a i v b c j w, st.slot a i = some v → v.content = .table (some b) →
    st.slot c j = some w → w.content = .table (some b) → a = c ∧ i = j

/-- No slot is exempt. -/
def nowhere : Addr → ℕ → Prop := fun _ _ => False

/-- One more slot is exempt. -/
def exempt (X : Addr → ℕ → Prop) (a i : ℕ) : Addr → ℕ → Prop := fun b j => X b j ∨ b = a ∧ j = i

/-- The parity of every value is right. -/
def Intact (st : DmStore) : Prop := ∀ a i v, st.slot a i = some v → v.parity = true

abbrev StoreWf (full : Prop) (S : Schema) (st : DmStore) : Prop := HeapWf full nowhere S st

/-- Tables that stay keep their paths. -/
theorem Homed.mono {st st' : DmStore} {a : Addr} {t : VTable} {n : RowNode} (h : Homed st a t n)
    (hnext : st.next ≤ st'.next)
    (hheap : ∀ b tb, b < st.next → st'.heap b = some tb → ∃ tb', st.heap b = some tb' ∧ tb'.id = tb.id) :
    Homed st' a t n := by
  intro b j hr
  obtain ⟨hlt, hb⟩ := h b j hr
  refine ⟨lt_of_lt_of_le hlt hnext, ?_⟩
  intro tb htb
  obtain ⟨tb', htb', hid⟩ := hheap b tb hlt htb
  rw [← hid]
  exact hb tb' htb'

section Transfer
variable {full : Prop} {X X' : Addr → ℕ → Prop} {S : Schema} {st st' : DmStore} {kw a i : ℕ}
  {p : Selector} {o : ObjTree} {rows : List Addr}

theorem IsRow.inst {r : Addr} {t : VTable} {inst : ℕ} (h : IsRow st p a i r) (ht : st.heap r = some t)
    (hid : t.id = p ++ [i + 1, inst]) : (st.row r).inst = inst := by
  obtain ⟨t0, n, ht0, hn, -, hid0, -, -⟩ := h
  rw [ht] at ht0
  cases ht0
  have hinst : n.inst = inst := by
    rw [hid0] at hid
    have := List.append_cancel_left hid
    simpa using this
  have hnode : st.node r = some n := DmStore.node_eq_some.mpr ⟨t, ht, hn⟩
  unfold DmStore.row
  simp only [hnode, Option.map_some, Option.getD_some, hinst]

/-- An object stays well-formed if its rows keep their nodes and its counter keeps its value. -/
theorem ObjWf.transfer (h : ObjWf full S st kw p a i o rows)
    (hrow : ∀ r ∈ rows, IsRow st' p a i r ∧ (st'.row r).inst = (st.row r).inst)
    (hall : full → ∀ r n, st'.node r = some n → n.root = some (a, i) →
      ∃ m, st.node r = some m ∧ m.root = some (a, i))
    (hcnt : full → ∀ c v, counterOf (S.table kw).elems (i + 1) = some c → st.slot a c = some v →
      ∃ v', st'.slot a c = some v' ∧ v'.content = v.content) :
    ObjWf full S st' kw p a i o rows := by
  constructor
  · obtain ⟨ix, rest, ho, hix⟩ := h.lists
    exact ⟨ix, rest, ho, hix.congr fun r hr => (hrow r hr).2⟩
  · exact fun r hr => (hrow r hr).1
  · exact h.cntr
  · intro hf
    obtain ⟨hc, ha, hv⟩ := h.account hf
    refine ⟨hc, ?_, ?_⟩
    · intro r n hn hr
      obtain ⟨m, hm, hmr⟩ := hall hf r n hn hr
      exact ha r m hm hmr
    · intro c hcc
      obtain ⟨v, hs, hvc⟩ := hv c hcc
      obtain ⟨v', hs', hvc'⟩ := hcnt hf c v hcc hs
      exact ⟨v', hs', hvc'.trans hvc⟩

/-- Fewer slots are exempt once they are right. -/
theorem HeapWf.close (h : HeapWf full X' S st)
    (hslot : ∀ a i, X' a i → ¬X a i → ∀ t kw v, st.heap a = some t → S.place t.id = some (kw, false) →
      t.values[i]? = some v → SlotWf full S st kw t.id a i v) : HeapWf full X S st := by
  refine ⟨h.root, ?_, h.inj⟩
  intro a t ht
  obtain ⟨kw, hw⟩ := h.table a t ht
  refine ⟨kw, hw.lt, hw.place, hw.len, hw.fits, hw.ptr, ?_, hw.node, hw.home⟩
  intro i v hv hx
  by_cases hx' : X' a i
  · exact hslot a i hx' hx t kw v ht hw.place hv
  · exact hw.slot i v hv hx'

/-- The node of a row keeps what the first index and the selectors see of it. -/
def NodeLike (n n' : RowNode) : Prop := n'.inst = n.inst ∧ n'.value.content = n.value.content

/-- The contents of a slot stay, or a leaf gets another value. -/
def SlotLike (v v' : DmValue) : Prop :=
  v'.content = v.content ∧ (v'.parity = true → v.parity = true) ∨
    ∃ x y, v.content = .scalar x ∧ v'.content = .scalar y

/-- A table is overwritten. Slots that change otherwise are exempt afterwards, and so are the objects
that a node leaves or enters and those whose counter changes. -/
theorem HeapWf.put {t t' : VTable} (h : HeapWf full X S st) (hX : ∀ b j, X b j → X' b j)
    (ha : st.heap a = some t) (hid : t'.id = t.id) (hlen : t'.values.length = t.values.length)
    (hnode : Option.Rel NodeLike t.node t'.node)
    (hroot : ∀ n n', t.node = some n → t'.node = some n' → n'.root = n.root ∨
      (∀ b j, n.root = some (b, j) → X' b j) ∧ ∀ b j, n'.root = some (b, j) → X' b j)
    (hhome : ∀ n, t'.node = some n → Homed st a t' n)
    (hvals : ∀ (i : ℕ) (v' : DmValue), t'.values[i]? = some v' → ∃ v, t.values[i]? = some v ∧
      (∀ e, Fits e v.content → Fits e v'.content) ∧
      (∀ b, v'.content = .table (some b) → v.content = .table (some b)) ∧ (SlotLike v v' ∨ X' a i))
    (hcnt : full → ∀ kw j (c : ℕ), S.place t.id = some (kw, false) → ¬X' a j →
      counterOf (S.table kw).elems (j + 1) = some c → ∀ v, t.values[c]? = some v →
        ∃ v', t'.values[c]? = some v' ∧ v'.content = v.content) :
    HeapWf full X' S (st.put a t') := by
  -- Tables keep their paths, and rows keep their numbers.
  have hheap : ∀ b tb, st.heap b = some tb → ∃ tb', (st.put a t').heap b = some tb' ∧ tb'.id = tb.id := by
    intro b tb hb
    rw [DmStore.put_heap]
    by_cases hba : b = a
    · rw [hba, ha] at hb
      cases hb
      exact ⟨t', by rw [if_pos hba], hid⟩
    · exact ⟨tb, by rw [if_neg hba]; exact hb, rfl⟩
  have hback : ∀ b tb, (st.put a t').heap b = some tb → ∃ tb', st.heap b = some tb' ∧ tb'.id = tb.id := by
    intro b tb hb
    rw [DmStore.put_heap] at hb
    by_cases hba : b = a
    · rw [if_pos hba] at hb
      cases hb
      exact ⟨t, by rw [hba]; exact ha, hid.symm⟩
    · rw [if_neg hba] at hb
      exact ⟨tb, hb, rfl⟩
  have hinst : ∀ r, ((st.put a t').row r).inst = (st.row r).inst := by
    intro r
    unfold DmStore.row
    simp only [DmStore.node_eq, DmStore.put_heap]
    by_cases hra : r = a
    · rw [if_pos hra, hra, ha, Option.bind_some, Option.bind_some]
      cases hn : t.node with
      | none =>
        rw [hn] at hnode
        cases hn' : t'.node with
        | none => rfl
        | some n' =>
          rw [hn'] at hnode
          cases hnode
      | some n =>
        rw [hn] at hnode
        cases hn' : t'.node with
        | none =>
          rw [hn'] at hnode
          cases hnode
        | some n' =>
          rw [hn'] at hnode
          cases hnode with
          | some hlike => exact hlike.1
    · rw [if_neg hra]
  have hisRow : ∀ q b j r, ¬X' b j → IsRow st q b j r → IsRow (st.put a t') q b j r := by
    intro q b j r hx hr
    obtain ⟨tr, n, htr, hn, hnr, hnid, hnc, hlt⟩ := hr
    by_cases hra : r = a
    · rw [hra, ha] at htr
      cases htr
      rw [hn] at hnode
      cases hn' : t'.node with
      | none =>
        rw [hn'] at hnode
        cases hnode
      | some n' =>
        rw [hn'] at hnode
        cases hnode with
        | some hlike =>
          have hr' : n'.root = some (b, j) := by
            cases hroot n n' hn hn' with
            | inl hsame => rw [hsame, hnr]
            | inr hboth => exact absurd (hboth.1 b j hnr) hx
          refine ⟨t', n', by rw [DmStore.put_heap, if_pos hra], hn', hr', ?_, ?_, ?_⟩
          · rw [hid, hnid, hlike.1]
          · rw [hlike.2, hnc]
          · rw [hlike.1]
            exact hlt
    · exact ⟨tr, n, by rw [DmStore.put_heap, if_neg hra]; exact htr, hn, hnr, hnid, hnc, hlt⟩
  have hroots : ∀ b j r n, ¬X' b j → (st.put a t').node r = some n → n.root = some (b, j) →
      ∃ m, st.node r = some m ∧ m.root = some (b, j) := by
    intro b j r n hx hn hnr
    rw [DmStore.node_eq, DmStore.put_heap] at hn
    by_cases hra : r = a
    · rw [if_pos hra, Option.bind_some] at hn
      rw [hn] at hnode
      cases hm : t.node with
      | none =>
        rw [hm] at hnode
        cases hnode
      | some m =>
        refine ⟨m, DmStore.node_eq_some.mpr ⟨t, by rw [hra]; exact ha, hm⟩, ?_⟩
        cases hroot m n hm hn with
        | inl hsame => rw [← hsame, hnr]
        | inr hboth => exact absurd (hboth.2 b j hnr) hx
    · rw [if_neg hra] at hn
      exact ⟨n, hn, hnr⟩
  -- An object that is not exempt keeps its rows and its counter.
  have hobj : ∀ b tb kw j o rows, st.heap b = some tb → S.place tb.id = some (kw, false) → ¬X' b j →
      ObjWf full S st kw tb.id b j o rows → ObjWf full S (st.put a t') kw tb.id b j o rows := by
    intro b tb kw j o rows hb hplace hx ho
    refine ho.transfer (fun r hr => ⟨hisRow tb.id b j r hx (ho.isRow r hr), hinst r⟩)
      (fun _ r n hn hnr => hroots b j r n hx hn hnr) ?_
    intro hf c v hc hv
    by_cases hba : b = a
    · rw [hba] at hb hx hv ⊢
      rw [ha] at hb
      cases hb
      obtain ⟨t0, ht0, hv0⟩ := DmStore.slot_eq_some.mp hv
      rw [ha] at ht0
      cases ht0
      obtain ⟨v', hv', hvc⟩ := hcnt hf kw j c hplace hx hc v hv0
      exact ⟨v', DmStore.slot_eq_some.mpr ⟨t', DmStore.put_heap_self st a t', hv'⟩, hvc⟩
    · refine ⟨v, ?_, rfl⟩
      rw [DmStore.slot_eq, DmStore.put_heap, if_neg hba]
      exact hv
  have hslot : ∀ b tb kw j v, st.heap b = some tb → S.place tb.id = some (kw, false) → ¬X' b j →
      SlotWf full S st kw tb.id b j v → SlotWf full S (st.put a t') kw tb.id b j v := by
    intro b tb kw j v hb hplace hx hs
    constructor
    · intro c hc hp
      obtain ⟨tc, htc, hcid⟩ := hs.token c hc hp
      obtain ⟨tc', htc', hcid'⟩ := hheap c tc htc
      exact ⟨tc', htc', hcid'.trans hcid⟩
    · intro o ho
      obtain ⟨rows, hrows⟩ := hs.object o ho
      exact ⟨rows, hobj b tb kw j o rows hb hplace hx hrows⟩
  obtain ⟨troot, htroot, hrid⟩ := h.root
  refine ⟨?_, ?_, ?_⟩
  · obtain ⟨tr, htr, htrid⟩ := hheap st.root troot htroot
    exact ⟨tr, htr, htrid.trans hrid⟩
  · intro b tb hb
    rw [DmStore.put_heap] at hb
    by_cases hba : b = a
    · rw [if_pos hba] at hb
      cases hb
      rw [hba]
      obtain ⟨kw, hw⟩ := h.table a t ha
      refine ⟨kw, hw.lt, by rw [hid]; exact hw.place, hlen.trans hw.len, ?_, ?_, ?_, ?_,
        fun n hn => (hhome n hn).mono (le_refl _) fun b tb _ hb => hback b tb hb⟩
      · intro j v' hv'
        obtain ⟨v, hv, hfits, -, -⟩ := hvals j v' hv'
        obtain ⟨e, he, hef⟩ := hw.fits j v hv
        exact ⟨e, he, hfits e hef⟩
      · intro j v' c hv' hc
        obtain ⟨v, hv, -, hptr, -⟩ := hvals j v' hv'
        exact hw.ptr j v c hv (hptr c hc)
      · intro j v' hv' hx
        obtain ⟨v, hv, -, hptr, hlike⟩ := hvals j v' hv'
        have hold := hslot a t kw j v ha hw.place hx (hw.slot j v hv fun hh => hx (hX a j hh))
        rw [hid]
        cases hlike.resolve_right hx with
        | inl hsame =>
          constructor
          · intro c hc hp
            exact hold.token c (by rw [← hsame.1]; exact hc) (hsame.2 hp)
          · intro o ho
            exact hold.object o (by rw [← hsame.1]; exact ho)
        | inr hscalar =>
          obtain ⟨x, y, -, hy⟩ := hscalar
          constructor
          · intro c hc
            rw [hy] at hc
            cases hc
          · intro o ho
            rw [hy] at ho
            cases ho
      · intro n' hn'
        rw [hn'] at hnode
        cases hn : t.node with
        | none =>
          rw [hn] at hnode
          cases hnode
        | some n =>
          rw [hn] at hnode
          cases hnode with
          | some hlike =>
            obtain ⟨q, k, hq, hqid⟩ := hw.node n hn
            exact ⟨q, k, hq, by rw [hid, hqid, hlike.1]⟩
    · rw [if_neg hba] at hb
      obtain ⟨kw, hw⟩ := h.table b tb hb
      refine ⟨kw, hw.lt, hw.place, hw.len, hw.fits, hw.ptr, ?_, hw.node,
        fun n hn => (hw.home n hn).mono (le_refl _) fun b tb _ hb => hback b tb hb⟩
      intro j v hv hx
      exact hslot b tb kw j v hb hw.place hx (hw.slot j v hv fun hh => hx (hX b j hh))
  · have hptrs : ∀ b j v c, (st.put a t').slot b j = some v → v.content = .table (some c) →
        ∃ v0, st.slot b j = some v0 ∧ v0.content = .table (some c) := by
      intro b j v c hv hc
      rw [DmStore.slot_eq, DmStore.put_heap] at hv
      by_cases hba : b = a
      · rw [if_pos hba, Option.bind_some] at hv
        obtain ⟨v0, hv0, -, hptr, -⟩ := hvals j v hv
        exact ⟨v0, DmStore.slot_eq_some.mpr ⟨t, by rw [hba]; exact ha, hv0⟩, hptr c hc⟩
      · rw [if_neg hba] at hv
        exact ⟨v, hv, hc⟩
    intro b j v d c k w hv hvc hw hwc
    obtain ⟨v0, hv0, hvc0⟩ := hptrs b j v d hv hvc
    obtain ⟨w0, hw0, hwc0⟩ := hptrs c k w d hw hwc
    exact h.inj b j v0 d c k w0 hv0 hvc0 hw0 hwc0

/-- More slots may be exempt. -/
theorem HeapWf.weaken (h : HeapWf full X S st) (hX : ∀ b j, X b j → X' b j) : HeapWf full X' S st := by
  refine ⟨h.root, ?_, h.inj⟩
  intro a t ht
  obtain ⟨kw, hw⟩ := h.table a t ht
  exact ⟨kw, hw.lt, hw.place, hw.len, hw.fits, hw.ptr, fun i v hv hx => hw.slot i v hv fun hh => hx (hX a i hh),
    hw.node, hw.home⟩

/-- The slot of a table is written. -/
theorem HeapWf.setSlot {v v' : DmValue} (h : HeapWf full X S st) (hX : ∀ b j, X b j → X' b j)
    (hst : st.setSlot a i v' = some st') (hv : st.slot a i = some v)
    (hfits : ∀ e, Fits e v.content → Fits e v'.content)
    (hptr : ∀ b, v'.content = .table (some b) → v.content = .table (some b))
    (hlike : SlotLike v v' ∨ X' a i)
    (hcnt : full → v'.content = v.content ∨ ∀ t kw j, st.heap a = some t →
      S.place t.id = some (kw, false) → counterOf (S.table kw).elems (j + 1) = some i → X' a j) :
    HeapWf full X' S st' := by
  obtain ⟨t, ht, hi, rfl⟩ := DmStore.setSlot_eq_some.mp hst
  have hvt : t.values[i]? = some v := by
    obtain ⟨t0, ht0, hv0⟩ := DmStore.slot_eq_some.mp hv
    rw [ht] at ht0
    cases ht0
    exact hv0
  refine h.put hX ht rfl List.length_set ?_ (fun n n' hn hn' => .inl ?_) ?_ ?_ ?_
  · show Option.Rel NodeLike t.node t.node
    cases t.node with
    | none => exact .none
    | some n => exact .some ⟨rfl, rfl⟩
  · have hn' : t.node = some n' := hn'
    rw [hn] at hn'
    cases hn'
    rfl
  · obtain ⟨kw, hw⟩ := h.table a t ht
    intro n hn
    exact hw.home n hn
  · intro j w hw
    have hw : (t.values.set i v')[j]? = some w := hw
    rw [List.getElem?_set] at hw
    by_cases hij : i = j
    · rw [if_pos hij, if_pos hi] at hw
      cases hw
      subst hij
      exact ⟨v, hvt, hfits, hptr, hlike⟩
    · rw [if_neg hij] at hw
      exact ⟨w, hw, fun _ hf => hf, fun _ hb => hb, .inl (.inl ⟨rfl, id⟩)⟩
  · intro hf kw j c hplace hx hc w hw
    show ∃ w', (t.values.set i v')[c]? = some w' ∧ _
    rw [List.getElem?_set]
    by_cases hic : i = c
    · subst hic
      rw [if_pos rfl, if_pos hi]
      rw [hvt] at hw
      cases hw
      cases hcnt hf with
      | inl hsame => exact ⟨v', rfl, hsame⟩
      | inr hexempt => exact absurd (hexempt t kw j ht hplace hc) hx
    · rw [if_neg hic]
      exact ⟨w, hw, rfl⟩

/-- The node of a row is written. -/
theorem HeapWf.setNode {n n' : RowNode} (h : HeapWf full X S st) (hX : ∀ b j, X b j → X' b j)
    (hst : st.setNode a n' = some st') (hn : st.node a = some n) (hlike : NodeLike n n')
    (hroot : n'.root = n.root ∨
      (∀ b j, n.root = some (b, j) → X' b j) ∧ ∀ b j, n'.root = some (b, j) → X' b j)
    (hhome : ∀ t, st.heap a = some t → Homed st a t n') : HeapWf full X' S st' := by
  obtain ⟨t, ht, rfl⟩ := DmStore.setNode_eq_some.mp hst
  have hnt : t.node = some n := by
    obtain ⟨t0, ht0, hn0⟩ := DmStore.node_eq_some.mp hn
    rw [ht] at ht0
    cases ht0
    exact hn0
  refine h.put hX ht rfl rfl ?_ ?_ ?_ ?_ ?_
  · show Option.Rel NodeLike t.node (some n')
    rw [hnt]
    exact .some hlike
  · intro m m' hm hm'
    rw [hnt] at hm
    cases hm
    cases hm'
    exact hroot
  · intro m hm
    cases hm
    exact hhome t ht
  · intro j w hw
    exact ⟨w, hw, fun _ hf => hf, fun _ hb => hb, .inl (.inl ⟨rfl, id⟩)⟩
  · intro _ _ _ c _ _ _ w hw
    exact ⟨w, hw, rfl⟩

/-- A table that nothing leads to is given back. -/
theorem HeapWf.free {t : VTable} (h : HeapWf full X S st) (hr : a ≠ st.root) (ht : st.heap a = some t)
    (hnode : ∀ n, t.node = some n → n.root = none)
    (hptr : ∀ b j v, st.slot b j = some v → v.content = .table (some a) → v.parity = true → X b j) :
    HeapWf full X S (st.free a) := by
  have hheap : ∀ b tb, (st.free a).heap b = some tb → st.heap b = some tb ∧ b ≠ a := by
    intro b tb hb
    rw [DmStore.free_heap] at hb
    by_cases hba : b = a
    · rw [if_pos hba] at hb
      cases hb
    · rw [if_neg hba] at hb
      exact ⟨hb, hba⟩
  have hkeep : ∀ b, b ≠ a → (st.free a).heap b = st.heap b := by
    intro b hba
    rw [DmStore.free_heap, if_neg hba]
  have hrowne : ∀ q b j r, IsRow st q b j r → r ≠ a := by
    intro q b j r hrow hra
    obtain ⟨tr, n, htr, hn, hnr, -⟩ := hrow
    rw [hra, ht] at htr
    cases htr
    rw [hnode n hn] at hnr
    cases hnr
  refine ⟨?_, ?_, ?_⟩
  · obtain ⟨tr, htr, hid⟩ := h.root
    exact ⟨tr, by rw [DmStore.free_root, hkeep _ hr.symm]; exact htr, hid⟩
  · intro b tb hb
    obtain ⟨hb, hba⟩ := hheap b tb hb
    obtain ⟨kw, hw⟩ := h.table b tb hb
    refine ⟨kw, hw.lt, hw.place, hw.len, hw.fits, hw.ptr, ?_, hw.node,
      fun n hn => (hw.home n hn).mono (le_refl _) fun c tc _ hc => ⟨tc, (hheap c tc hc).1, rfl⟩⟩
    intro j v hv hx
    have hs := hw.slot j v hv hx
    constructor
    · intro c hc hp
      obtain ⟨tc, htc, hcid⟩ := hs.token c hc hp
      refine ⟨tc, ?_, hcid⟩
      rw [hkeep c]
      · exact htc
      · intro hca
        rw [hca] at hc
        exact hx (hptr b j v (DmStore.slot_eq_some.mpr ⟨tb, hb, hv⟩) hc hp)
    · intro o ho
      obtain ⟨rows, hrows⟩ := hs.object o ho
      refine ⟨rows, hrows.transfer ?_ ?_ ?_⟩
      · intro r hr
        have hrow := hrows.isRow r hr
        have hra := hrowne _ _ _ _ hrow
        refine ⟨?_, ?_⟩
        · obtain ⟨tr, n, htr, hrest⟩ := hrow
          exact ⟨tr, n, by rw [hkeep r hra]; exact htr, hrest⟩
        · unfold DmStore.row
          simp only [DmStore.node_eq, hkeep r hra]
      · intro _ r n hn hnr
        rw [DmStore.node_eq, DmStore.free_heap] at hn
        by_cases hra : r = a
        · rw [if_pos hra] at hn
          cases hn
        · rw [if_neg hra] at hn
          exact ⟨n, hn, hnr⟩
      · intro _ c w _ hw
        refine ⟨w, ?_, rfl⟩
        rw [DmStore.slot_eq, hkeep b hba]
        exact hw
  · intro b j v d c k w hv hvc hw hwc
    have hback : ∀ b j v, (st.free a).slot b j = some v → st.slot b j = some v := by
      intro b j v hv
      obtain ⟨tb, htb, hvb⟩ := DmStore.slot_eq_some.mp hv
      exact DmStore.slot_eq_some.mpr ⟨tb, (hheap b tb htb).1, hvb⟩
    exact h.inj b j v d c k w (hback b j v hv) hvc (hback c k w hw) hwc

end Transfer

end Mand.Store
