import Mand.Load.Containers
import Mand.Save.Document
import Mand.Server.Publish

/-! # Loaded stores

A document is read into a well-formed store: every handler leaves it well-formed, whatever the document says. The
server goes on from there as it does from an empty store. -/
namespace Mand.Load
open Mand.Store Mand.Save Mand.Index Mand.Rpc Mand.Notify Mand.Run Mand.Server
set_option autoImplicit false

variable {S : Schema} {st st' st'' : DmStore} {e : DmElement} {a i : ℕ} {v v' : DmValue}

/-! ## A table for a token -/

/-- A token that has no table gets one that nothing else points to. -/
theorem attach_wf {t tc : VTable} {c : Addr} (hw : HeapWf False nowhere S st) (ht : st.heap a = some t)
    (hv : t.values[i]? = some v) (hnone : v.content = .table none) (hc : st.heap c = some tc)
    (hid : tc.id = t.id ++ [i + 1]) (hno : NoPtr st c) (hnew : v'.content = .table (some c))
    (h : st.setSlot a i v' = some st') : HeapWf False nowhere S st' := by
  have hslot : ∀ b j, st'.slot b j = if b = a ∧ j = i then some v' else st.slot b j :=
    fun b j => DmStore.slot_setSlot h
  have hnode : ∀ b, st'.node b = st.node b := fun b => DmStore.node_setSlot h
  have hinst : ∀ b, (st'.row b).inst = (st.row b).inst := by
    intro b
    unfold DmStore.row
    simp only [hnode]
  obtain ⟨t0, ht0, -, rfl⟩ := DmStore.setSlot_eq_some.mp h
  rw [ht] at ht0
  cases ht0
  have hforth : ∀ b tb, st.heap b = some tb → ∃ tb', (st.put a (t.setValue i v')).heap b = some tb' ∧ tb'.id = tb.id := by
    intro b tb hb
    rw [DmStore.put_heap]
    by_cases hba : b = a
    · rw [hba, ht] at hb
      cases hb
      exact ⟨_, if_pos hba, rfl⟩
    · exact ⟨tb, (if_neg hba).trans hb, rfl⟩
  have hisRow : ∀ p b j r, IsRow st p b j r → IsRow (st.put a (t.setValue i v')) p b j r := by
    intro p b j r hr
    obtain ⟨tr, n, htr, hn, hroot, hrid, hcont, hlt⟩ := hr
    obtain ⟨tr', htr', hid'⟩ := hforth r tr htr
    have hn' := (hnode r).trans (DmStore.node_eq_some.mpr ⟨tr, htr, hn⟩)
    rw [DmStore.node_eq, htr'] at hn'
    exact ⟨tr', n, htr', hn', hroot, hid'.trans hrid, hcont, hlt⟩
  have hkeep : ∀ kw p b j w, SlotWf False S st kw p b j w → SlotWf False S (st.put a (t.setValue i v')) kw p b j w := by
    intro kw p b j w hs
    constructor
    · intro d hd hpar
      obtain ⟨td, htd, hdid⟩ := hs.token d hd hpar
      obtain ⟨td', htd', hdid'⟩ := hforth d td htd
      exact ⟨td', htd', hdid'.trans hdid⟩
    · intro o ho
      obtain ⟨rows, hrows⟩ := hs.object o ho
      exact ⟨rows, hrows.transfer (fun r hr => ⟨hisRow p b j r (hrows.isRow r hr), hinst r⟩)
        (fun hf => hf.elim) fun hf => hf.elim⟩
  refine ⟨?_, ?_, ?_⟩
  · obtain ⟨tr, htr, hrid⟩ := hw.root
    obtain ⟨tr', htr', hid'⟩ := hforth _ tr htr
    exact ⟨tr', htr', hid'.trans hrid⟩
  · intro b tb hb
    rw [DmStore.put_heap] at hb
    split at hb
    · next hba =>
      cases hb
      subst hba
      obtain ⟨kw, hk⟩ := hw.table b t ht
      -- the slot with the new table, and the others
      have hat : ∀ (j : ℕ) w, (t.setValue i v').values[j]? = some w → j = i ∧ w = v' ∨ t.values[j]? = some w := by
        intro j w hj
        rw [VTable.setValue, List.getElem?_set] at hj
        split at hj
        · next hij =>
          split at hj
          · exact .inl ⟨hij.symm, (Option.some.inj hj).symm⟩
          · cases hj
        · exact .inr hj
      refine ⟨kw, hk.lt, hk.place, List.length_set.trans hk.len, ?_, ?_, ?_, hk.node, ?_⟩
      · intro j w hj
        rcases hat j w hj with ⟨rfl, rfl⟩ | hold
        · obtain ⟨e, he, hfits⟩ := hk.fits j v hv
          rw [hnone] at hfits
          exact ⟨e, he, by rw [hnew]; exact hfits⟩
        · exact hk.fits j w hold
      · intro j w d hj hd
        rcases hat j w hj with ⟨rfl, rfl⟩ | hold
        · rw [hnew] at hd
          cases hd
          exact hw.lt c tc hc
        · exact hk.ptr j w d hold hd
      · intro j w hj hx
        rcases hat j w hj with ⟨rfl, rfl⟩ | hold
        · constructor
          · intro d hd _
            rw [hnew] at hd
            cases hd
            obtain ⟨tc', htc', hid'⟩ := hforth c tc hc
            exact ⟨tc', htc', hid'.trans hid⟩
          · intro o ho
            rw [hnew] at ho
            cases ho
        · exact hkeep kw _ b j w (hk.slot j w hold hx)
      · intro n hn
        refine Homed.mono (hk.home n hn) (le_refl _) fun d td _ hd => ?_
        rw [DmStore.put_heap] at hd
        split at hd
        · next hdb =>
          cases hd
          exact ⟨t, by rw [hdb]; exact ht, rfl⟩
        · exact ⟨td, hd, rfl⟩
    · obtain ⟨kw, hk⟩ := hw.table b tb hb
      refine ⟨kw, hk.lt, hk.place, hk.len, hk.fits, hk.ptr, fun j w hj hx => hkeep kw _ b j w (hk.slot j w hj hx), hk.node, ?_⟩
      intro n hn
      refine Homed.mono (hk.home n hn) (le_refl _) fun d td _ hd => ?_
      rw [DmStore.put_heap] at hd
      split at hd
      · next hdb =>
        cases hd
        exact ⟨t, by rw [hdb]; exact ht, rfl⟩
      · exact ⟨td, hd, rfl⟩
  · intro b j w d b' j' w' hw1 hd1 hw2 hd2
    rw [hslot] at hw1 hw2
    split at hw1
    · next h1 =>
      cases hw1
      rw [hnew] at hd1
      cases hd1
      split at hw2
      · next h2 => exact ⟨h1.1.trans h2.1.symm, h1.2.trans h2.2.symm⟩
      · exact absurd hd2 (hno b' j' w' hw2)
    · split at hw2
      · cases hw2
        rw [hnew] at hd2
        cases hd2
        exact absurd hd1 (hno b j w hw1)
      · exact hw.inj b j w d b' j' w' hw1 hd1 hw2 hd2

/-! ## What stays -/

/-- Tables keep their paths, and a value whose parity is right keeps it. -/
structure Later (st st' : DmStore) : Prop where
  table : ∀ a t, st.heap a = some t → ∃ t', st'.heap a = some t' ∧ t'.id = t.id
  parity : ∀ a i v, st.slot a i = some v → v.parity = true → ∃ v', st'.slot a i = some v' ∧ v'.parity = true

theorem Later.refl (st : DmStore) : Later st st := ⟨fun _ t ht => ⟨t, ht, rfl⟩, fun _ _ v hv hp => ⟨v, hv, hp⟩⟩

theorem Later.trans (h : Later st st') (h' : Later st' st'') : Later st st'' := by
  constructor
  · intro a t ht
    obtain ⟨t', ht', hid⟩ := h.table a t ht
    obtain ⟨t'', ht'', hid'⟩ := h'.table a t' ht'
    exact ⟨t'', ht'', hid'.trans hid⟩
  · intro a i v hv hp
    obtain ⟨v', hv', hp'⟩ := h.parity a i v hv hp
    exact h'.parity a i v' hv' hp'

theorem later_of_keeps (h : Keeps (fun _ => True) st st') : Later st st' := by
  constructor
  · intro a t ht
    obtain ⟨t', ht'⟩ := h.table a t ht trivial
    exact ⟨t', ht', h.ids a t t' ht ht'⟩
  · intro a i v hv hp
    obtain ⟨t, ht, hvt⟩ := DmStore.slot_eq_some.mp hv
    obtain ⟨v', hv', hp', -⟩ := h.slot a t i v ht hvt trivial hp
    exact ⟨v', hv', hp'⟩

theorem later_setSlot (hv : st.slot a i = some v) (hp : v.parity = true → v'.parity = true)
    (h : st.setSlot a i v' = some st') : Later st st' := by
  constructor
  · intro b tb hb
    obtain ⟨t, ht, -, rfl⟩ := DmStore.setSlot_eq_some.mp h
    by_cases hba : b = a
    · rw [hba, ht] at hb
      cases hb
      exact ⟨tb.setValue i v', by rw [DmStore.put_heap, if_pos hba], rfl⟩
    · exact ⟨tb, by rw [DmStore.put_heap, if_neg hba]; exact hb, rfl⟩
  · intro b j w hw hpw
    rw [DmStore.slot_setSlot h]
    split
    · next hbj =>
      obtain ⟨rfl, rfl⟩ := hbj
      rw [hv] at hw
      cases hw
      exact ⟨v', rfl, hp hpw⟩
    · exact ⟨w, hw, hpw⟩

theorem later_setNode {r : Addr} {n : RowNode} (h : st.setNode r n = some st') : Later st st' := by
  constructor
  · intro b tb hb
    obtain ⟨t, ht, rfl⟩ := DmStore.setNode_eq_some.mp h
    by_cases hbr : b = r
    · rw [hbr, ht] at hb
      cases hb
      exact ⟨{ tb with node := some n }, by rw [DmStore.put_heap, if_pos hbr], rfl⟩
    · exact ⟨tb, by rw [DmStore.put_heap, if_neg hbr]; exact hb, rfl⟩
  · intro b j w hw hpw
    exact ⟨w, by rw [DmStore.slot_setNode h]; exact hw, hpw⟩

/-! ## The value of a state -/

/-- No row has the number 0, at which a selector ends. -/
def Numbered (st : DmStore) : Prop := ∀ r n, st.node r = some n → n.inst ≠ 0

/-- What a state points to has the place of its element in the schema. -/
def PlacedAt (S : Schema) (st : DmStore) (e : DmElement) : Place → Prop
  | .root => True
  | .at (.slot a i) => ∃ t kw, st.heap a = some t ∧ S.place t.id = some (kw, false) ∧ 0 ∉ t.id ∧
      (S.table kw).elems[i]? = some e ∧ (e.container = true → ∃ v, st.slot a i = some v ∧ v.parity = true)
  | .at (.row r) => e.container = true ∧ ∃ t, st.heap r = some t ∧ S.place t.id = some (e.table, false) ∧ 0 ∉ t.id

theorem PlacedAt.later {p : Place} (h : PlacedAt S st e p) (hl : Later st st') : PlacedAt S st' e p := by
  cases p with
  | root => trivial
  | «at» l =>
    cases l with
    | slot a i =>
      obtain ⟨t, kw, ht, hp, h0, he, hpar⟩ := h
      obtain ⟨t', ht', hid⟩ := hl.table a t ht
      refine ⟨t', kw, ht', by rw [hid]; exact hp, by rw [hid]; exact h0, he, fun hc => ?_⟩
      obtain ⟨v, hv, hpv⟩ := hpar hc
      exact hl.parity a i v hv hpv
    | row r =>
      obtain ⟨hc, t, ht, hp, h0⟩ := h
      obtain ⟨t', ht', hid⟩ := hl.table r t ht
      exact ⟨hc, t', ht', by rw [hid]; exact hp, by rw [hid]; exact h0⟩

/-- A value is written, with the contents it has or another value of a leaf. -/
theorem setValue_placed {kind : Addr → ℕ} {l : Loc} (hw : HeapWf False nowhere S st) (hpl : PlacedAt S st e (.at l))
    (hh : HoldsAt S kind st e l) (hv : st.value l = some v) (hc : SameKind v.content v'.content) (hpar : v.parity = true → v'.parity = true)
    (h : st.setValue l v' = some st') : HeapWf False nowhere S st' ∧ Later st st' := by
  cases l with
  | slot a i =>
    have hv : st.slot a i = some v := hv
    have hset : st.setSlot a i v' = some st' := h
    obtain ⟨t, kw, ht, hp, -, he, hcont⟩ := hpl
    obtain ⟨t0, ht0, hvt⟩ := DmStore.slot_eq_some.mp hv
    rw [ht] at ht0
    cases ht0
    obtain ⟨kw', hk⟩ := hw.table a t ht
    have hkw : kw' = kw := by
      have hplace := hk.place
      rw [hp] at hplace
      cases hplace
      rfl
    subst hkw
    obtain ⟨e', he', hfits⟩ := hk.fits i v hvt
    rw [he] at he'
    cases he'
    refine ⟨hw.setSlot (fun _ _ hx => hx) hset hv ?_ ?_ (.inl ?_) (fun hf => hf.elim), later_setSlot hv hpar hset⟩
    · intro e hfits
      rcases hc with hc | ⟨x, y, hx, hy⟩
      · rw [hc]
        exact hfits
      · rw [hx] at hfits
        rw [hy]
        exact hfits
    · intro b hb
      rcases hc with hc | ⟨x, y, hx, hy⟩
      · rw [← hc]
        exact hb
      · rw [hy] at hb
        cases hb
    · rcases hc with hc | hscalar
      · cases hcon : e.container with
        | true =>
          obtain ⟨w, hw, hpw⟩ := hcont hcon
          rw [hv] at hw
          cases hw
          exact .inl ⟨hc, fun _ => hpw⟩
        | false =>
          -- the contents of a leaf point to no table
          have hx : ∃ x, v.content = .scalar x := by
            cases hvc : v.content with
            | scalar x => exact ⟨x, rfl⟩
            | table b =>
              rw [hvc] at hfits
              have htok : e.type = .token := hfits
              simp [DmElement.container, htok] at hcon
            | inst o =>
              rw [hvc] at hfits
              have hobj : e.type = .object := hfits.1
              simp [DmElement.container, hobj] at hcon
          obtain ⟨x, hx⟩ := hx
          exact .inr ⟨x, x, hx, by rw [hc, hx]⟩
      · exact .inr hscalar
  | row r =>
    obtain ⟨n, hn, hset⟩ := Option.bind_eq_some_iff.mp h
    obtain ⟨m, hm, rfl⟩ := Option.map_eq_some_iff.mp hv
    rw [hn] at hm
    cases hm
    obtain ⟨t, ht, hnt⟩ := DmStore.node_eq_some.mp hn
    obtain ⟨kw, hk⟩ := hw.table r t ht
    have hsame : v'.content = n.value.content := by
      rcases hc with hc | ⟨x, y, hx, -⟩
      · exact hc
      · obtain ⟨m, hm, hcont, -⟩ := hh.2
        rw [hn] at hm
        cases hm
        rw [hcont] at hx
        cases hx
    refine ⟨hw.setNode (fun _ _ hx => hx) hset hn ⟨rfl, hsame⟩ (.inl rfl) ?_, later_setNode hset⟩
    intro t0 ht0
    rw [ht] at ht0
    cases ht0
    intro b j hr
    obtain ⟨hlt, hb⟩ := hk.home n hnt b j hr
    refine ⟨hlt, fun tb htb => ?_⟩
    obtain ⟨hid, hcont, hn16⟩ := hb tb htb
    exact ⟨hid, hsame.trans hcont, hn16⟩

/-! ## Entering an element -/

section Enter
variable {E : LoadEnv} {kw : DmElement} {b k : ℕ} {xid : ℤ} {t : VTable}

theorem markRow_placed {r : Addr} (hw : HeapWf False nowhere S st) (hv : ∃ v, st.slot b i = some v ∧ v.parity = true)
    (h : markRow st b i r = some st') : HeapWf False nowhere S st' ∧ Later st st' := by
  simp only [markRow, Option.bind_eq_bind, Option.bind_eq_some_iff] at h
  obtain ⟨v, hv1, st1, h1, n, hn, h2⟩ := h
  obtain ⟨v0, hv0, hpar⟩ := hv
  rw [hv1] at hv0
  cases hv0
  have hw1 : HeapWf False nowhere S st1 := hw.setSlot (fun _ _ hx => hx) h1 hv1 (fun _ hf => hf) (fun _ hb => hb)
    (.inl (.inl ⟨rfl, fun _ => hpar⟩)) (fun hf => hf.elim)
  refine ⟨hw1.setNode (fun _ _ hx => hx) h2 hn ⟨rfl, rfl⟩ (.inl rfl) ?_, (later_setSlot hv1 (fun _ => rfl) h1).trans (later_setNode h2)⟩
  intro t ht
  obtain ⟨t0, ht0, hnt⟩ := DmStore.node_eq_some.mp hn
  rw [ht] at ht0
  cases ht0
  obtain ⟨kr, hk⟩ := hw1.table r t ht
  exact hk.home n hnt

theorem enterObject_placed {r : Addr} (hS : PathsFit E.schema) (hw : HeapWf False nowhere E.schema st) (ht : st.heap b = some t)
    (hp : E.schema.place t.id = some (k, false)) (h0 : 0 ∉ t.id) (he : (E.schema.table k).elems[i]? = some kw)
    (hobj : kw.type = .object) (hv : st.slot b i = some v) (hpar : v.parity = true)
    (h : enterObject E kw b i xid st = some (r, st')) (hnum : Numbered st') :
    HeapWf False nowhere E.schema st' ∧ Later st st' ∧ PlacedAt E.schema st' kw (.at (.row r)) := by
  have hcont : kw.container = true := by simp [DmElement.container, hobj]
  have hplace : E.schema.place (t.id ++ [i + 1]) = some (kw.table, true) := place_object hp he hobj
  have h0' : 0 ∉ t.id ++ [i + 1] := by simp [h0]
  -- the table of a row that is numbered
  have hrow : ∀ tr : VTable, ∀ n : ℕ, tr.id = t.id ++ [i + 1, n] → n ≠ 0 →
      E.schema.place tr.id = some (kw.table, false) ∧ 0 ∉ tr.id := by
    intro tr n hid hn
    have hsplit : tr.id = t.id ++ [i + 1] ++ [n] := by rw [hid]; simp
    rw [hsplit]
    exact ⟨place_inst hplace, by simp [h0, Ne.symm hn]⟩
  simp only [enterObject, Option.bind_eq_bind, Option.bind_eq_some_iff] at h
  obtain ⟨x, htree, found, hfound, h⟩ := h
  obtain ⟨o, rows, rfl, ho, -⟩ := hw.tree ht hp (fun hx => hx) htree
  cases found with
  | some r' =>
    cases h
    unfold namedRow at hfound
    split at hfound
    · obtain ⟨found, hfind, hiff⟩ := instanceNode_spec hw.lt ho (dmId xid)
      rw [hfind] at hfound
      cases hfound
      obtain ⟨tr, n, htr, hn, -, hid, -, -⟩ := ho.isRow r ((hiff r).mp rfl).1
      exact ⟨hw, Later.refl st, hcont, tr, htr, hrow tr n.inst hid (hnum r n (DmStore.node_eq_some.mpr ⟨tr, htr, hn⟩))⟩
    · cases hfound
  | none =>
    simp only [Option.bind_eq_some_iff, Prod.exists] at h
    obtain ⟨tb, htb, res, st1, hadd, r', rfl, h⟩ := h
    rw [ht] at htb
    cases htb
    have hsel : selIds (dmSelcat t.id (i + 1)) = t.id ++ [i + 1] := by
      have hlen := hS t.id k i kw hp he
      rw [dmSelcat, selIds_eq_self (le_of_lt hlen) fun y hy hy0 => h0 (hy0 ▸ hy)]
      exact selIds_eq_self (by rw [List.length_append, List.length_singleton]; exact hlen) fun y hy hy0 => h0' (hy0 ▸ hy)
    have hid16 : dmId xid < 2 ^ 16 := by
      unfold dmId
      omega
    obtain ⟨hw1, hk1, hres⟩ := addInstance_spec (P := fun _ => True) hw ht hp he hsel hid16 (fun hf => hf.elim) hadd
    obtain ⟨n, hadded⟩ := hres r' rfl
    obtain ⟨tr, htr, hid, -, -⟩ := hadded.table hw1 hk1 ht hp he hobj
    have hl1 := later_of_keeps hk1
    have hplaced : n.inst ≠ 0 → PlacedAt E.schema st1 kw (.at (.row r')) := fun hn => ⟨hcont, tr, htr, hrow tr n.inst hid hn⟩
    split at h
    · obtain ⟨st2, hmark, hr⟩ := Option.map_eq_some_iff.mp h
      cases hr
      obtain ⟨hw2, hl2⟩ := markRow_placed hw1 (hl1.parity b i v hv hpar) hmark
      refine ⟨hw2, hl1.trans hl2, (hplaced ?_).later hl2⟩
      -- the mark does not touch the number
      simp only [markRow, Option.bind_eq_bind, Option.bind_eq_some_iff] at hmark
      obtain ⟨w, -, st3, h3, m, hm, h4⟩ := hmark
      have hm1 : st3.node r = some n := (DmStore.node_setSlot h3).trans hadded.node
      rw [hm] at hm1
      cases hm1
      exact hnum r { n with value := markUpdated n.value } ((DmStore.node_setNode h4).trans (if_pos rfl))
    · cases h
      exact ⟨hw1, hl1, hplaced (hnum r n hadded.node)⟩

theorem enterToken_placed (hw : HeapWf False nowhere E.schema st) (ht : st.heap b = some t)
    (hp : E.schema.place t.id = some (k, false)) (h0 : 0 ∉ t.id) (he : (E.schema.table k).elems[i]? = some kw)
    (htok : kw.type = .token) (hv : st.slot b i = some v) (hpar : v.parity = true)
    (h : enterToken E kw b i st = some st') :
    HeapWf False nowhere E.schema st' ∧ Later st st' ∧ PlacedAt E.schema st' kw (.at (.slot b i)) := by
  have hplaced : ∀ st1 : DmStore, Later st st1 → PlacedAt E.schema st1 kw (.at (.slot b i)) := by
    intro st1 hl
    have hpl : PlacedAt E.schema st kw (.at (.slot b i)) := ⟨t, k, ht, hp, h0, he, fun _ => ⟨v, hv, hpar⟩⟩
    exact hpl.later hl
  simp only [enterToken, hv, Option.bind_eq_bind, Option.bind_some] at h
  split at h
  · next hnone =>
    simp only [Option.bind_eq_some_iff, Prod.exists] at h
    obtain ⟨tb, htb, c, st1, halloc, hset⟩ := h
    rw [ht] at htb
    cases htb
    have hspec : AllocSpec False nowhere E.schema (allocTable E.schema (kw.table + 1)) := allocTable_spec _
    obtain ⟨htab, hg, hle, -, hno, tc, htc, hid⟩ := hspec _ _ _ _ _ halloc hw.tables (place_token hp he htok)
    have hw1 := hw.grown hg htab
    have hl1 := later_of_keeps (Keeps.grown hw.lt hg)
    have ht1 : st1.heap b = some t := (hg.old b (hw.lt b t ht)).trans ht
    have hv1 : st1.slot b i = some v := by
      rw [DmStore.slot_eq, ht1, ← ht, ← DmStore.slot_eq]
      exact hv
    obtain ⟨t1, ht1', hvt⟩ := DmStore.slot_eq_some.mp hv1
    rw [ht1] at ht1'
    cases ht1'
    have hl := hl1.trans (later_setSlot hv1 (fun _ => rfl) hset)
    exact ⟨attach_wf hw1 ht1 hvt hnone htc hid hno rfl hset, hl, hplaced st' hl⟩
  · cases h
    exact ⟨hw, Later.refl st, hplaced st (Later.refl st)⟩
  · cases h

theorem enterElement_placed {x : Loc × Option (Addr × ℕ) × Option Addr} (hS : PathsFit E.schema)
    (hw : HeapWf False nowhere E.schema st) (ht : st.heap b = some t) (hp : E.schema.place t.id = some (k, false))
    (h0 : 0 ∉ t.id) (he : (E.schema.table k).elems[i]? = some kw) (hv : st.slot b i = some v) (hpar : v.parity = true)
    (h : enterElement E kw b i xid st = some (x, st')) (hnum : Numbered st') :
    HeapWf False nowhere E.schema st' ∧ Later st st' ∧ PlacedAt E.schema st' kw (.at x.1) := by
  unfold enterElement at h
  split at h
  · next hobj =>
    obtain ⟨⟨r, st1⟩, hobject, hx⟩ := Option.map_eq_some_iff.mp h
    cases hx
    exact enterObject_placed hS hw ht hp h0 he hobj hv hpar hobject hnum
  · next htok =>
    obtain ⟨st1, htoken, hx⟩ := Option.map_eq_some_iff.mp h
    cases hx
    exact enterToken_placed hw ht hp h0 he htok hv hpar htoken
  · cases h
    exact ⟨hw, Later.refl st, t, k, ht, hp, h0, he, fun _ => ⟨v, hv, hpar⟩⟩

end Enter

/-! ## The states -/

/-- The value of a valid state is in its place. -/
def Placed (S : Schema) (st : DmStore) (x : XmlState) : Prop :=
  x.valid = true → ∀ e p, x.element = some e → x.value = some p → PlacedAt S st e p

theorem Placed.later {x : XmlState} (h : Placed S st x) (hl : Later st st') : Placed S st' x :=
  fun hv e p he hp => (h hv e p he hp).later hl

/-- The store is well-formed, with the states of the open elements. -/
structure Loading (S : Schema) (s : Deser) (stack : List (Option DmElement)) : Prop where
  kinds : ∃ kind, StackOf S kind s stack
  wf : HeapWf False nowhere S s.store
  placed : ∀ j < stack.length, Placed S s.store (s.stack (s.cur - j))

variable {E : LoadEnv} {kind : Addr → ℕ} {s s' : Deser} {x : Option DmElement} {stack : List (Option DmElement)}

/-- The table of a container that is open. -/
theorem open_table {p : Place} {c : Addr} (hw : HeapWf False nowhere S s.store) (hh : Holds S kind s e p)
    (hpl : PlacedAt S s.store e p) (he : e.container = true) (hv : s.value p = some v) (hc : v.content = .table (some c)) :
    ∃ t, s.store.heap c = some t ∧ S.place t.id = some (e.table, false) ∧ 0 ∉ t.id := by
  cases p with
  | root =>
    cases hv
    rw [hh.2.2] at hc
    cases hc
    obtain ⟨t, ht, hid⟩ := hw.root
    refine ⟨t, ht, ?_, by rw [hid]; exact List.not_mem_nil⟩
    rw [hid, hh.2.1]
    rfl
  | «at» l =>
    cases l with
    | slot a i =>
      have hv : s.store.slot a i = some v := hv
      obtain ⟨t, kw, ht, hp, h0, helem, hpar⟩ := hpl
      obtain ⟨w, hw1, hpw⟩ := hpar he
      rw [hv] at hw1
      cases hw1
      obtain ⟨t0, ht0, hvt⟩ := DmStore.slot_eq_some.mp hv
      rw [ht] at ht0
      cases ht0
      obtain ⟨kw', hk⟩ := hw.table a t ht
      obtain ⟨e', he', hfits⟩ := hk.fits i v hvt
      have hplace := hk.place
      rw [hp] at hplace
      cases hplace
      rw [helem] at he'
      cases he'
      rw [hc] at hfits
      obtain ⟨tc, htc, hid⟩ := (hk.slot i v hvt (fun hx => hx)).token c hc hpw
      exact ⟨tc, htc, by rw [hid]; exact place_token hp helem hfits, by rw [hid]; simp [h0]⟩
    | row r =>
      obtain ⟨-, t, ht, hp, h0⟩ := hpl
      obtain ⟨n, hn, hcont, -⟩ := hh.2
      obtain ⟨m, hm, rfl⟩ := Option.map_eq_some_iff.mp hv
      rw [hn] at hm
      cases hm
      rw [hcont] at hc
      cases hc
      exact ⟨t, ht, hp, h0⟩

/-- What is written to the store stays below. -/
theorem Loading.write (h : Loading S s stack) (hk : ∃ kind', StackOf S kind' s' stack) (hw : HeapWf False nowhere S s'.store)
    (hl : Later s.store s'.store) (hstack : s'.stack = s.stack) (hcur : s'.cur = s.cur) : Loading S s' stack := by
  refine ⟨hk, hw, fun j hj => ?_⟩
  rw [hstack, hcur]
  exact (h.placed j hj).later hl

/-- A state that is not valid yet is put on top. -/
theorem Loading.push (h : Loading S s stack) (hne : s.top.root = false) (a : Attributes) (o : Option DmElement) :
    Loading S (s.push.withAttributes a) (o :: stack) := by
  obtain ⟨kind, hk⟩ := h.kinds
  have hnew := hk.push hne a o
  refine ⟨⟨kind, hnew⟩, h.wf, fun j hj => ?_⟩
  have hcur : (s.push.withAttributes a).cur = s.cur + 1 := rfl
  have hat : ∀ m, (s.push.withAttributes a).stack m =
      if m = s.cur + 1 then { XmlState.zero with escaped := false || a.escaped } else s.stack m := by
    intro m
    simp only [Deser.top] at hne
    simp only [Deser.push, Deser.withAttributes, Deser.setTop, Deser.top, hne, Function.update_apply]
    split <;> simp_all [XmlState.zero]
  rw [hcur, hat]
  cases j with
  | zero =>
    rw [if_pos (Nat.sub_zero _)]
    exact fun hv => absurd hv Bool.false_ne_true
  | succ j =>
    rw [List.length_cons] at hj
    rw [if_neg (by omega), Nat.add_sub_add_right]
    exact h.placed j (by omega)

theorem numbered_of_setValue {l : Loc} (h : st.setValue l v = some st') (hnum : Numbered st') : Numbered st := by
  intro r n hn
  cases l with
  | slot a i => exact hnum r n ((DmStore.node_setSlot h).trans hn)
  | row a =>
    obtain ⟨m, hm, hset⟩ := Option.bind_eq_some_iff.mp h
    have hnode := @DmStore.node_setNode st a r _ st' hset
    by_cases hra : r = a
    · rw [if_pos hra] at hnode
      rw [hra, hm] at hn
      cases hn
      exact hnum r { n with value := v } hnode
    · rw [if_neg hra] at hnode
      exact hnum r n (hnode.trans hn)

theorem numbered_of_setNotify {l : Loc} {ntfy : ℤ} (h : setNotifyAttribute e l ntfy st = some st') (hnum : Numbered st') :
    Numbered st := by
  unfold setNotifyAttribute at h
  split at h
  · obtain ⟨v, -, hset⟩ := Option.bind_eq_some_iff.mp h
    exact numbered_of_setValue hset hnum
  · cases h
    exact hnum

theorem setNotify_parity (e : DmElement) (slot ntfy : ℕ) (v : DmValue) (hp : v.parity = true) :
    (setNotifySingleSlotElement e slot ntfy v).2.parity = true := by
  unfold setNotifySingleSlotElement
  dsimp only
  split
  · split
    · exact hp
    · rfl
  · rfl

theorem setNotifyAttribute_placed {l : Loc} {ntfy : ℤ} (hw : HeapWf False nowhere S st) (hpl : PlacedAt S st e (.at l))
    (hh : HoldsAt S kind st e l) (h : setNotifyAttribute e l ntfy st = some st') : HeapWf False nowhere S st' ∧ Later st st' := by
  unfold setNotifyAttribute at h
  split at h
  · obtain ⟨v, hv, hset⟩ := Option.bind_eq_some_iff.mp h
    exact setValue_placed hw hpl hh hv (.inl (setNotify_content e 0 ntfy.toNat v)) (setNotify_parity e 0 ntfy.toNat v) hset
  · cases h
    exact ⟨hw, Later.refl st⟩

/-- The child of a state below the one in use. -/
theorem startChild_loading {parent : XmlState} {name : List ℕ} {a : Attributes} (hS : PathsFit E.schema)
    (h : Loading E.schema s (childOf E.schema x name :: stack)) (hk : StackOf E.schema kind s (childOf E.schema x name :: stack))
    (hp : Stands E.schema kind s parent x) (hpl : Placed E.schema s.store parent) (hv : parent.valid = true)
    (hroot : s.top.root = false) (hup : s.top.upgrade = false) (hstart : startChild E parent name a s = some s')
    (hnum : Numbered s'.store) : Loading E.schema s' (childOf E.schema x name :: stack) := by
  have hkinds := startChild_stack hk hp hv hroot hup hstart
  obtain ⟨e, p, rfl, he, hval, hh⟩ := hp.valid hv
  unfold startChild at hstart
  simp only [he, hval, Option.bind_eq_bind, Option.bind_some] at hstart
  split at hstart
  · next hcont =>
    split at hstart
    · cases hstart
      exact h
    · next hid =>
      simp only [Option.bind_eq_some_iff] at hstart
      obtain ⟨kw, hkw, v, hv1, hstart⟩ := hstart
      split at hstart
      · next c hc =>
        simp only [Option.bind_eq_some_iff, Option.some.injEq, Prod.exists] at hstart
        obtain ⟨child, hchild, u, hpar, l, inst, node, st1, henter, st2, hnotify, rfl⟩ := hstart
        obtain ⟨t, ht, hplace, h0⟩ := open_table h.wf hh (hpl hv e p he hval) hcont hv1 hc
        have helem : (E.schema.table e.table).elems[elementIdByName E.schema name e.table - 1]? = some kw := by
          unfold elementById at hkw
          split at hkw
          · cases hkw
          · exact hkw
        have hpar := (parityAssert_eq child u).mp hpar
        have hnum1 : Numbered st1 := numbered_of_setNotify hnotify hnum
        obtain ⟨hw1, hl1, hpl1⟩ := enterElement_placed hS h.wf ht hplace h0 helem hchild hpar henter hnum1
        obtain ⟨b, tb, hb, htb, hkind⟩ := hh.table hk.shaped hcont hv1
        rw [hc] at hb
        cases hb
        obtain ⟨kind1, -, -, hh1⟩ := enterElement_shape hk.shaped (by rw [hkind]; exact helem) hchild hpar henter
        obtain ⟨hw2, hl2⟩ := setNotifyAttribute_placed hw1 hpl1 hh1 hnotify
        refine ⟨hkinds, hw2, fun j hj => ?_⟩
        cases j with
        | zero =>
          have htop : Placed E.schema st2 { s.top with
              element := some kw, value := some (.at l), valid := true, inst := inst, node := node } := by
            intro _ e' p' he' hp'
            cases he'
            cases hp'
            exact hpl1.later hl2
          show Placed _ _ (Function.update s.stack s.cur _ (s.cur - 0))
          rw [Nat.sub_zero, Function.update_self]
          exact htop
        | succ j =>
          have hcur := hk.cur
          rw [List.length_cons] at hcur hj
          show Placed _ _ (Function.update s.stack s.cur _ (s.cur - (j + 1)))
          rw [Function.update_of_ne (by omega)]
          exact (h.placed (j + 1) (by rw [List.length_cons]; exact hj)).later (hl1.trans hl2)
      · cases hstart
  · cases hstart

theorem startElement_loading {name : List ℕ} {atts : List (List ℕ × List ℕ)} (hS : PathsFit E.schema)
    (h : Loading E.schema s (x :: stack)) (hstart : startElement E name atts s = some s') (hnum : Numbered s'.store) :
    Loading E.schema s' (childOf E.schema x name :: x :: stack) := by
  obtain ⟨kind, hk⟩ := h.kinds
  have hroot := hk.top.root
  have hpush := h.push hroot (readAttributes atts ⟨0, 0, false, none⟩) (childOf E.schema x name)
  have hkpush := hk.push hroot (readAttributes atts ⟨0, 0, false, none⟩) (childOf E.schema x name)
  have hup := hkpush.upgrade (s.cur + 1) (by rw [hk.cur, List.length_cons]; omega) (le_refl _)
  unfold startElement at hstart
  dsimp only at hstart
  rw [if_neg (by rw [hroot]; decide)] at hstart
  split at hstart
  · next hvalid =>
    exact startChild_loading hS hpush hkpush (hk.top.frame (Frame.refl kind _) rfl) (h.placed 0 (by simp)) hvalid
      hkpush.top.root hup hstart hnum
  · cases hstart
    exact hpush

/-! ## Text, and the end of an element -/

theorem charData_loading (chunk : List ℕ) (h : Loading S s (x :: stack)) : Loading S (charData chunk s) (x :: stack) := by
  obtain ⟨kind, hk⟩ := h.kinds
  refine ⟨⟨kind, charData_stack chunk hk⟩, h.wf, fun j hj => ?_⟩
  have hold := h.placed j hj
  show Placed S s.store (Function.update s.stack s.cur _ (s.cur - j))
  rw [Function.update_apply]
  split
  · next hj =>
    rw [hj] at hold
    exact hold
  · exact hold

theorem dmString2value_parity {D : DecodeEnv} {L : Libc} {memcmp : List ℕ → List ℕ → ℤ} {text : Option (List ℕ)}
    {b : Bool} {r : DmResult} (h : dmString2value D L memcmp e text b v = some (r, v')) (hp : v.parity = true) :
    v'.parity = true := by
  unfold dmString2value at h
  cases text with
  | none =>
    cases h
    exact hp
  | some str =>
    dsimp only at h
    split at h
    · cases h
    · cases h
      rfl

theorem handleElement_loading {y : XmlState} {o : Option DmElement} (h : Loading E.schema s stack)
    (hk : StackOf E.schema kind s stack) (hy : Stands E.schema kind s y o) (hpl : Placed E.schema s.store y)
    (hv : y.valid = true) (hhandle : handleElement E y s = some s') : Loading E.schema s' stack := by
  have hkinds := handleElement_stack hk hy hv hhandle
  obtain ⟨e, p, -, he, hp, hh⟩ := hy.valid hv
  simp only [handleElement, he, hp, Option.bind_eq_bind, Option.bind_some, Option.bind_eq_some_iff, Prod.exists] at hhandle
  obtain ⟨v, hval, r, v', hconv, hset⟩ := hhandle
  cases p with
  | root =>
    cases hset
    exact h.write ⟨kind, hkinds⟩ h.wf (Later.refl _) rfl rfl
  | «at» l =>
    obtain ⟨st, hst, rfl⟩ := Option.map_eq_some_iff.mp hset
    obtain ⟨hw, hl⟩ := setValue_placed h.wf (hpl hv e _ he hp) hh hval (dmString2value_kind hconv)
      (dmString2value_parity hconv) hst
    exact h.write ⟨kind, hkinds⟩ hw hl rfl rfl

theorem finishRow_loading {y : XmlState} (h : Loading S s stack) (hfinish : finishRow y s = some s') : Loading S s' stack := by
  obtain ⟨kind, hk⟩ := h.kinds
  have hkinds := finishRow_stack hk hfinish
  unfold finishRow at hfinish
  split at hfinish
  · simp only [Option.bind_eq_bind, Option.bind_eq_some_iff, Option.some.injEq] at hfinish
    obtain ⟨r, -, st, hupd, rfl⟩ := hfinish
    obtain ⟨hw, hl⟩ := updateInstanceNodeIndex_spec (P := fun _ => True) h.wf (fun _ _ _ _ _ hx => hx) hupd
    exact h.write ⟨kind, hkinds⟩ hw (later_of_keeps hl) rfl rfl
  · cases hfinish
    exact h

theorem Loading.pop (h : Loading S s (x :: stack)) : Loading S { s with cur := s.cur - 1 } stack := by
  obtain ⟨kind, hk⟩ := h.kinds
  refine ⟨⟨kind, hk.pop⟩, h.wf, fun j hj => ?_⟩
  have hold := h.placed (j + 1) (by rw [List.length_cons]; omega)
  show Placed S s.store (s.stack (s.cur - 1 - j))
  rw [Nat.sub_sub, Nat.add_comm 1 j]
  exact hold

/-- What is done with the value and the rows at the end of an element. -/
theorem finishValid_loading (h : Loading E.schema s (x :: stack)) (hfinish : finishValid E s.top s = some s') :
    Loading E.schema s' (x :: stack) := by
  obtain ⟨kind, hk⟩ := h.kinds
  unfold finishValid at hfinish
  split at hfinish
  · next hv =>
    obtain ⟨s1, h1, h2⟩ := Option.bind_eq_some_iff.mp hfinish
    exact finishRow_loading (handleElement_loading h hk hk.top (h.placed 0 (by simp)) hv h1) h2
  · cases hfinish
    exact h

theorem endElement_loading (h : Loading E.schema s (x :: stack)) (hne : stack ≠ []) (hend : endElement E s = some s') :
    Loading E.schema s' stack := by
  obtain ⟨kind, hk⟩ := h.kinds
  have hlen : 0 < stack.length := List.length_pos_of_ne_nil hne
  have hcur := hk.cur
  rw [List.length_cons] at hcur
  have hup : s.top.upgrade = false := hk.upgrade s.cur (by omega) (le_refl _)
  simp only [endElement, Option.bind_eq_bind, Option.bind_eq_some_iff] at hend
  obtain ⟨s1, h1, s2, h2, hend⟩ := hend
  unfold finishUpgrade at h2
  rw [if_neg (by rw [hup]; decide)] at h2
  cases h2
  split at hend
  · cases hend
  · cases hend
    exact (finishValid_loading h h1).pop

/-! ## A run -/

theorem always_cons {P : Deser → Prop} {ev : Event} {evs : List Event} (h : Always (handle E) s P (ev :: evs))
    (hstep : handle E s ev = some s') : P s' ∧ Always (handle E) s' P evs := by
  have hlater : Always (handle E) s' P evs := by
    intro pre t hpre hrun
    refine h (ev :: pre) t (List.cons_prefix_cons.mpr ⟨rfl, hpre⟩) ?_
    exact Option.bind_eq_some_iff.mpr ⟨s', hstep, hrun⟩
  exact ⟨hlater [] s' (List.nil_prefix) rfl, hlater⟩

/-- A part of a document with other elements around it. -/
theorem loading_run {evs : List Event} {names rest : List (List ℕ)} (hS : PathsFit E.schema) (h : Loading E.schema s stack)
    (hnames : stack.length = names.length + 1) (hopen : opened names evs = some rest)
    (hnum : Always (handle E) s (fun s => Numbered s.store) evs) (hrun : run (handle E) s evs = some s') :
    ∃ stack', Loading E.schema s' stack' ∧ stack'.length = rest.length + 1 := by
  induction evs generalizing s stack names with
  | nil =>
    cases hrun
    have hrest : names = rest := by
      cases names <;> exact Option.some.inj hopen
    exact ⟨stack, h, hrest ▸ hnames⟩
  | cons ev evs ih =>
    obtain ⟨x, stack, rfl⟩ : ∃ x xs, stack = x :: xs := List.exists_cons_of_length_pos (by omega)
    rw [List.length_cons] at hnames
    obtain ⟨s1, hstep, hrun'⟩ := Option.bind_eq_some_iff.mp hrun
    obtain ⟨hnum1, hnum'⟩ := always_cons hnum hstep
    cases ev with
    | start name atts =>
      have h1 := startElement_loading hS h hstep hnum1
      have hlen : (childOf E.schema x name :: x :: stack).length = (name :: names).length + 1 := by
        simp only [List.length_cons]
        omega
      exact ih h1 hlen hopen hnum' hrun'
    | chars chunk =>
      cases hstep
      exact ih (charData_loading chunk h) (by rw [List.length_cons]; exact hnames) hopen hnum' hrun'
    | stop name =>
      cases names with
      | nil => cases hopen
      | cons m names =>
        rw [opened] at hopen
        split at hopen
        · rw [List.length_cons] at hnames
          have hne : stack ≠ [] := List.ne_nil_of_length_pos (by omega)
          exact ih (endElement_loading h hne hstep) (by omega) hopen hnum' hrun'
        · cases hopen

/-! ## A document -/

/-- What the functions in Lua may do to a store that is being loaded. -/
structure LuaKeeps (E : LoadEnv) : Prop where
  pre : ∀ v st r, E.preVersionCheck v st = some r → HeapWf False nowhere E.schema st →
    HeapWf False nowhere E.schema r.2 ∧ r.2.root = st.root
  post : ∀ v st r, E.postVersionCheck v st = some r → HeapWf False nowhere E.schema st → HeapWf False nowhere E.schema r.2

/-- The outer element stands for the table of the root. -/
theorem startRoot_loading {version : ℤ} {name : List ℕ} {atts : List (List ℕ × List ℕ)}
    (hlua : LuaKeeps E) (hw : HeapWf False nowhere E.schema st)
    (h : startElement E name atts ⟨stateStk E.schema, 0, st, ⟨.table (some st.root), 0, Flags.zero, true⟩, version⟩ = some s) :
    Loading E.schema s [some (rootElement E.schema)] := by
  have hstack : ∀ (s : Deser), s.cur = 1 → s.top.root = false → s.top.element = some (rootElement E.schema) →
      s.top.value = some .root → s.rootValue.content = .table (some s.store.root) → HeapWf False nowhere E.schema s.store →
      Loading E.schema s [some (rootElement E.schema)] := by
    intro s hcur hroot helem hval hcont hw
    obtain ⟨kind, hkind⟩ := kinded_of_wf hw
    refine ⟨⟨kind, hkind, hcur, fun j o ho => ?_, fun k hk hle => by omega⟩, hw, fun j hj => ?_⟩
    · cases j with
      | zero =>
        cases ho
        exact ⟨hroot, fun _ => ⟨_, .root, rfl, helem, hval, rfl, rfl, hcont⟩⟩
      | succ j => cases ho
    · cases j with
      | zero =>
        intro _ e p he hp
        have hval : (s.stack (s.cur - 0)).value = some .root := hval
        rw [hval] at hp
        cases hp
        trivial
      | succ j => exact absurd hj (by simp)
  rw [startElement_root (by rfl), startRoot] at h
  split at h
  · obtain ⟨r, hr, rfl⟩ := Option.map_eq_some_iff.mp h
    obtain ⟨hwr, hroot⟩ := hlua.pre _ _ r hr hw
    exact hstack _ rfl rfl rfl rfl (congrArg (fun a => Content.table (some a)) hroot.symm) hwr
  · cases h
    exact hstack _ rfl rfl rfl rfl rfl hw

theorem endRoot_wf (hlua : LuaKeeps E) (h : Loading E.schema s (x :: stack)) (hend : endElement E s = some s') :
    HeapWf False nowhere E.schema s'.store := by
  simp only [endElement, Option.bind_eq_bind, Option.bind_eq_some_iff] at hend
  obtain ⟨s1, h1, s2, h2, hend⟩ := hend
  have hw1 := (finishValid_loading h h1).wf
  have hw2 : HeapWf False nowhere E.schema s2.store := by
    unfold finishUpgrade at h2
    split at h2
    · obtain ⟨r, hr, rfl⟩ := Option.map_eq_some_iff.mp h2
      exact hlua.post _ _ r hr hw1
    · cases h2
      exact hw1
  split at hend
  · cases hend
  · cases hend
    exact hw2

/-- The store stays well-formed while a document is read. -/
theorem load_wf {before : Option DmStore} {version : ℤ} {s0 : Deser} {evs : List Event} (hS : PathsFit E.schema)
    (hlua : LuaKeeps E) (hbefore : ∀ st, before = some st → HeapWf False nowhere E.schema st)
    (h0 : deserBegin E before version = some s0) (hdoc : Document evs)
    (hnum : Always (handle E) s0 (fun s => Numbered s.store) evs) (hrun : run (handle E) s0 evs = some s) :
    HeapWf False nowhere E.schema s.store := by
  simp only [deserBegin, Option.bind_eq_bind, Option.bind_eq_some_iff, Option.some.injEq] at h0
  obtain ⟨st, hst, rfl⟩ := h0
  have hw : HeapWf False nowhere E.schema st := by
    cases before with
    | none => exact init_wf hst
    | some st0 =>
      cases hst
      exact hbefore _ rfl
  obtain ⟨rname, ratts, body, rfl, hbody⟩ := hdoc
  obtain ⟨s1, hstart, hrun'⟩ := Option.bind_eq_some_iff.mp hrun
  obtain ⟨-, hnum'⟩ := always_cons hnum hstart
  rw [handle] at hstart
  have h1 := startRoot_loading hlua hw hstart
  obtain ⟨s2, hmid, hend⟩ := run_snoc.mp hrun'
  have hnumbody : Always (handle E) s1 (fun s => Numbered s.store) body :=
    fun pre t hpre hpr => hnum' pre t (hpre.trans (List.prefix_append body _)) hpr
  obtain ⟨stack, h2, hlen⟩ := loading_run hS h1 rfl hbody hnumbody hmid
  obtain ⟨y, ys, rfl⟩ : ∃ y ys, stack = y :: ys := List.exists_cons_of_length_pos (by omega)
  exact endRoot_wf hlua h2 hend

/-- A row with a number. -/
def rowDoc : List Event :=
  [.start [120] [], .start [114] [(Save.ascii "instance", [51])], .start [97] [], .chars [55], .stop [97], .stop [114],
    .stop [120]]

theorem rowDoc_loads : (run (handle sampleLoad) sampleBegin rowDoc).isSome = true := by decide +kernel

def rowLoaded : Deser := (run (handle sampleLoad) sampleBegin rowDoc).get rowDoc_loads

theorem rowDoc_numbered : Always (handle sampleLoad) sampleBegin (fun s => Numbered s.store) rowDoc := by
  intro pre s hpre hrun r n hn
  have hlen : pre.length ≤ 7 := hpre.length_le
  rw [List.prefix_iff_eq_take.mp hpre] at hrun
  generalize pre.length = k at hlen hrun
  interval_cases k <;> cases hrun <;> rcases r with _ | _ | r <;> cases hn <;> decide

theorem sampleLoad_keeps : LuaKeeps sampleLoad := by
  constructor
  · intro v st r hr hw
    cases hr
    exact ⟨hw, rfl⟩
  · intro v st r hr hw
    cases hr
    exact hw

/-- A client writes the leaf of the row. -/
def rowRequests : List Server.Event := [.accept, .startSession 1 0, .set 1 [([4, 3, 1], sampleAvp 2)]]

theorem rowRequests_run : (Server.run sampleEnv ⟨rowLoaded.store, [], 0, 1, []⟩ rowRequests).isSome = true := by
  decide +kernel

def rowServed : State := (Server.run sampleEnv ⟨rowLoaded.store, [], 0, 1, []⟩ rowRequests).get rowRequests_run

end Mand.Load
