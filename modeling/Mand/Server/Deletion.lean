import Mand.Server.Keeping

/-! # What a deletion leaves behind

`rpc_db_delinstance` in a store that clients have reached: what still resolves is allocated, and outside
of the path only the object that held a row and its counter change. -/
namespace Mand.Server
open Mand.Store Mand.Index Mand.Msg Mand.Bytes
set_option autoImplicit false

variable {full : Prop} {S : Schema} {st st' : DmStore}

/-! ## What resolves is there -/

/-- What hangs in the value of an element: a row has its table, a token a table, an object a tree all of
whose rows are there. -/
def Hangs (st : DmStore) (v : DmValue) : Loc → DmType → Prop
  | .row r, _ => v.content = .table (some r) ∧ (st.heap r).isSome = true
  | .slot _ _, .token => ∃ b, v.content = .table (some b) ∧ (st.heap b).isSome = true
  | .slot _ _, .object => ∃ o rows, v.content = .inst (some o) ∧ o.Lists st.row rows ∧
      ∀ r ∈ rows, (st.heap r).isSome = true
  | .slot _ _, _ => ∃ x, v.content = .scalar x

def Sound (st : DmStore) (r : Ref) : Prop :=
  ∃ v, st.value r.value = some v ∧ v.parity = true ∧ Hangs st v r.value r.elem.type

theorem hangs_leaf {v : DmValue} {a i : ℕ} {type : DmType} {x : Value} (hx : v.content = .scalar x)
    (htok : type ≠ .token) (hobj : type ≠ .object) : Hangs st v (.slot a i) type := by
  cases type <;> first | exact ⟨x, hx⟩ | contradiction

theorem getElementRef_sound {sel : Selector} {r : Ref} (hw : HeapWf full nowhere S st)
    (h : st.getElementRef S sel = some (some r)) : Sound st r := by
  obtain ⟨v, hv, hpar⟩ := getElementRef_checked sel r h
  refine ⟨v, hv, hpar, ?_⟩
  have htok := fun a i => getElementRef_token (a := a) (i := i) h
  have hat := getElementRef_path hw h
  generalize S.path sel = q at hat
  cases hat with
  | row a i t kw e r id tr ht hp he hobj htr hid hrow hmem =>
    obtain ⟨tr', n, htr', hn, -, -, hcont, -⟩ := hrow
    have hvn : v = n.value := by
      have hnode : st.node r = some n := DmStore.node_eq_some.mpr ⟨tr', htr', hn⟩
      have hv : (st.node r).map RowNode.value = some v := hv
      rw [hnode] at hv
      cases hv
      rfl
    exact ⟨by rw [hvn, hcont], by rw [htr]; rfl⟩
  | slot a i t kw e stType ht hp he =>
    have hv : st.slot a i = some v := hv
    obtain ⟨t0, ht0, hvt⟩ := DmStore.slot_eq_some.mp hv
    rw [ht] at ht0
    cases ht0
    obtain ⟨k, hk⟩ := hw.table a t ht
    have hkp := hk.place
    rw [hp] at hkp
    cases hkp
    obtain ⟨e', he', hfit⟩ := hk.fits i v hvt
    rw [he] at he'
    cases he'
    show Hangs st v (.slot a i) e.type
    by_cases htoken : e.type = .token
    · obtain ⟨w, b, hw', -, hc⟩ := htok a i htoken rfl
      rw [hv] at hw'
      cases hw'
      obtain ⟨tb, htb, -⟩ := (hk.slot i v hvt fun hx => hx).token b hc hpar
      rw [htoken]
      exact ⟨b, hc, by rw [htb]; rfl⟩
    by_cases hobj : e.type = .object
    · cases hc : v.content with
      | scalar x =>
        rw [hc] at hfit
        simp [Fits, DmElement.container, hobj] at hfit
      | table x =>
        rw [hc] at hfit
        exact absurd hfit htoken
      | inst x =>
        rw [hc] at hfit
        obtain ⟨o, rfl⟩ := Option.isSome_iff_exists.mp hfit.2
        obtain ⟨rows, ho⟩ := (hk.slot i v hvt fun hx => hx).object o hc
        rw [hobj]
        refine ⟨o, rows, hc, ho.lists, ?_⟩
        intro r hr
        obtain ⟨tr, n, htr, -⟩ := ho.isRow r hr
        rw [htr]
        rfl
    · obtain ⟨x, hx⟩ := fits_leaf hfit htoken hobj
      exact hangs_leaf hx htoken hobj

/-! ## What is outside stays -/

/-- Nothing outside of the path changed. -/
structure Outside (q : Selector) (st st' : DmStore) : Prop where
  root : st'.root = st.root
  dead : ∀ b, st.heap b = none → st'.heap b = none
  table : ∀ b t, st.heap b = some t → ¬q <+: t.id →
    ∃ t', st'.heap b = some t' ∧ t'.id = t.id ∧ t'.node = t.node
  slot : ∀ b t j v, st.heap b = some t → t.values[j]? = some v → ¬q <+: t.id ++ [j + 1] →
    st'.slot b j = some v

/-- The path is that of an object whose rows slot `j` of table `t` counts, or that of one of its rows. -/
def Counts (S : Schema) (q : Selector) (t : VTable) (j : ℕ) : Prop :=
  ∃ kw i, S.place t.id = some (kw, false) ∧ S.Follows kw i j ∧
    (q = t.id ++ [i + 1] ∨ ∃ x, q = t.id ++ [i + 1, x])

/-- Only the object of a row that is deleted, and the counter that follows an object, change outside of
the path: the object its tree, the counter its number. -/
structure Contained (S : Schema) (q : Selector) (st st' : DmStore) : Prop where
  root : st'.root = st.root
  dead : ∀ b, st.heap b = none → st'.heap b = none
  table : ∀ b t, st.heap b = some t → ¬q <+: t.id →
    ∃ t', st'.heap b = some t' ∧ t'.id = t.id ∧ t'.node = t.node
  slot : ∀ b t j v, st.heap b = some t → t.values[j]? = some v → ¬q <+: t.id ++ [j + 1] →
    st'.slot b j = some v ∨
    (∃ x, q = t.id ++ [j + 1, x]) ∧
      (∃ o', st'.slot b j = some { v with content := .inst (some o') }) ∨
    Counts S q t j ∧ ∃ v', st'.slot b j = some v' ∧ Counted v v'

theorem Contained.refl (S : Schema) (q : Selector) (st : DmStore) : Contained S q st st where
  root := rfl
  dead := fun _ h => h
  table := fun _ t ht _ => ⟨t, ht, rfl, rfl⟩
  slot := fun _ t _ _ ht hv _ => .inl (DmStore.slot_eq_some.mpr ⟨t, ht, hv⟩)

theorem Deleted.contained {q : Selector} (h : Deleted S st st' q) : Contained S q st st' := by
  obtain ⟨a, i, t, kw, ht, hp, hq, hfr⟩ := h.frame
  have hpath : q = t.id ++ [i + 1] ∨ ∃ x, q = t.id ++ [i + 1, x] := hq.imp_right And.left
  obtain ⟨t', ht', hn', hvals⟩ := hfr.table t ht
  refine ⟨hfr.root, hfr.dead, ?_, ?_⟩
  · intro b tb hb hout
    by_cases hba : b = a
    · subst hba
      rw [ht] at hb
      cases hb
      exact ⟨t', ht', hfr.ids b t t' ht ht', hn'⟩
    · exact ⟨tb, hfr.outside b tb hb hba hout, rfl, rfl⟩
  · intro b tb j v hb hv hout
    by_cases hba : b = a
    · subst hba
      rw [ht] at hb
      cases hb
      by_cases hji : j = i
      · -- the slot of the path itself, or that of the object that the row was in
        subst hji
        rcases hq with rfl | ⟨hrow, w, o', hw, hw'⟩
        · exact absurd (List.prefix_refl _) hout
        · have hwv : w = v := by
            rw [DmStore.slot_eq_some.mpr ⟨t, ht, hv⟩] at hw
            exact (Option.some.inj hw).symm
          rw [hwv] at hw'
          exact .inr (.inl ⟨hrow, o', hw'⟩)
      · rcases hvals j hji with hsame | ⟨hfol, w, w', hw, hw', hc⟩
        · exact .inl (DmStore.slot_eq_some.mpr ⟨t', ht', by rw [hsame]; exact hv⟩)
        · rw [hv] at hw
          cases hw
          exact .inr (.inr ⟨⟨kw, i, hp, hfol, hpath⟩, w', DmStore.slot_eq_some.mpr ⟨t', ht', hw'⟩, hc⟩)
    · have hb' := hfr.outside b tb hb hba fun hpre => hout (hpre.trans (List.prefix_append _ _))
      exact .inl (DmStore.slot_eq_some.mpr ⟨tb, hb', hv⟩)

/-! ## Every reachable store -/

/-- After a deletion, what still resolves is sound, and what is outside of the path stays as it was, apart
from the tree of an object that loses the row and from the counter that follows the object. -/
theorem deletion_contained (env : Env) (s0 s s' : State) (h0 : init env = some s0) (evs : List Event)
    (hs : run env s0 evs = some s) (key : ℕ) (sel : Selector) (rc : Rc)
    (hdel : step env s (.delInstance key sel) = some (rc, s')) :
    (∀ sel' r, s'.store.getElementRef env.schema sel' = some (some r) → Sound s'.store r) ∧
    Contained env.schema (env.schema.path sel) s.store s'.store ∧ s' = { s with store := s'.store } ∧
    (rc ≠ .ok → s' = s) := by
  have hwf : StateWf False env s.store s.cache := run_wf evs s0 s (init_stateWf h0) hs
  obtain ⟨hwf', -⟩ := step_wf hwf (spares_nothing env s _) hdel
  refine ⟨fun sel' r hr => getElementRef_sound hwf'.store hr, ?_⟩
  simp only [step, Option.bind_eq_bind, Option.bind_eq_some_iff, Prod.exists, Option.some.injEq,
    Prod.mk.injEq] at hdel
  obtain ⟨c, -, found, st1, hd, rfl, rfl⟩ := hdel
  obtain ⟨-, hcase⟩ := delTableBySelector_spec hwf.store hd
  rcases hcase with ⟨rfl, rfl⟩ | ⟨rfl, ref, q, href, hat, hdeleted⟩
  · exact ⟨Contained.refl _ _ _, rfl, fun _ => rfl⟩
  · rw [hat.unique (getElementRef_path hwf.store href)] at hdeleted
    exact ⟨Deleted.contained hdeleted, rfl, fun hne => absurd rfl hne⟩

/-- Two rows. -/
def sampleDeletions : List Event := [.accept, .startSession 1 0, .addInstance 1 [4] 7, .addInstance 1 [4] 9]

theorem deletion_contained_sample : ∃ s rc s', init sampleEnv = some ⟨sampleStore, [], 0, 1, []⟩ ∧
    run sampleEnv ⟨sampleStore, [], 0, 1, []⟩ sampleDeletions = some s ∧
    step sampleEnv s (.delInstance 1 [4, 7]) = some (rc, s') ∧
    s'.store.getElementRef sampleSchema [4, 9, 1] ≠ some none ∧
    (∀ sel' r, s'.store.getElementRef sampleSchema sel' = some (some r) → Sound s'.store r) ∧
    Contained sampleSchema (sampleSchema.path [4, 7]) s.store s'.store := by
  have hrun : ((run sampleEnv ⟨sampleStore, [], 0, 1, []⟩ sampleDeletions).bind fun s =>
      (step sampleEnv s (.delInstance 1 [4, 7])).bind fun x =>
        (x.2.store.getElementRef sampleSchema [4, 9, 1]).map Option.isSome) = some true := by
    decide +kernel
  simp only [Option.bind_eq_some_iff, Option.map_eq_some_iff, Prod.exists] at hrun
  obtain ⟨s, hs, rc, s', hstep, r, hr, hsome⟩ := hrun
  obtain ⟨hsound, hcont, -⟩ := deletion_contained sampleEnv ⟨sampleStore, [], 0, 1, []⟩ s s' rfl
    sampleDeletions hs 1 [4, 7] rc hstep
  refine ⟨s, rc, s', rfl, hs, hstep, ?_, hsound, hcont⟩
  rw [hr]
  rintro hnone
  cases hnone
  cases hsome

/-- Deleting row 7 changes the counter beside the object. -/
theorem deletion_counts : ∃ s rc s', init sampleEnv = some ⟨sampleStore, [], 0, 1, []⟩ ∧
    run sampleEnv ⟨sampleStore, [], 0, 1, []⟩ sampleDeletions = some s ∧
    step sampleEnv s (.delInstance 1 [4, 7]) = some (rc, s') ∧
    ¬Outside [4, 7] s.store s'.store := by
  have hrun : ((run sampleEnv ⟨sampleStore, [], 0, 1, []⟩ sampleDeletions).bind fun s =>
      (step sampleEnv s (.delInstance 1 [4, 7])).bind fun x =>
        (s.store.heap 0).bind fun t => (s.store.slot 0 2).bind fun v => (x.2.store.slot 0 2).map fun v' =>
          (t.id, leafValue (some v.content), leafValue (some v'.content))) =
      some ([], .uint 2, .uint 1) := by
    decide +kernel
  simp only [Option.bind_eq_some_iff, Option.map_eq_some_iff, Prod.exists, Prod.mk.injEq] at hrun
  obtain ⟨s, hs, rc, s', hstep, t, ht, v, hv, v', hv', hid, hval, hval'⟩ := hrun
  refine ⟨s, rc, s', rfl, hs, hstep, ?_⟩
  intro hout
  obtain ⟨t0, ht0, hvt⟩ := DmStore.slot_eq_some.mp hv
  rw [ht] at ht0
  cases ht0
  have hsame := hout.slot 0 t 2 v ht hvt (by rw [hid]; decide)
  rw [hv'] at hsame
  cases hsame
  rw [hval] at hval'
  exact absurd hval' (by decide)

end Mand.Server
