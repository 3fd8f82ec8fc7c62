import Mand.Notify.Walks
import Mand.Save.Document

/-! # Freeing a slot

What a freed slot leaves behind: the levels in the nodes of the rows. -/
namespace Mand.Notify
open Mand.Store Mand.Index Mand.Msg Mand.Server Mand.Save
set_option autoImplicit false

variable {full : Prop} {S : Schema} {st st' : DmStore} {slot level : ℕ} {sel : Selector} {ref : Ref}

/-! ## Requests rewrite levels -/

/-- What hangs below a reference. -/
def belowRef (S : Schema) (st : DmStore) (ref : Ref) : Set Loc :=
  {l | (∃ a i v, ref.value = .slot a i ∧ st.slot a i = some v ∧ l ∈ belowContent S st ref.elem v.content) ∨
    ∃ r n b, ref.value = .row r ∧ st.node r = some n ∧ n.value.content = .table (some b) ∧
      Under S st ref.elem.table b l}

/-- The subtree of a reference. -/
def subtree (S : Schema) (st : DmStore) (ref : Ref) : Set Loc := {ref.value} ∪ belowRef S st ref

/-- A token has no level of its own in a request. -/
def levelled (S : Schema) (st : DmStore) (ref : Ref) : Set Loc :=
  {l | l = ref.value ∧ ref.elem.type ≠ .token} ∪ belowRef S st ref

theorem levelled_subset (S : Schema) (st : DmStore) (ref : Ref) : levelled S st ref ⊆ subtree S st ref := by
  rintro l (⟨rfl, -⟩ | h)
  · exact .inl rfl
  · exact .inr h

theorem setNotifySlotValue_eq (level : ℕ) (hslot : slot ≠ 0) (e : DmElement) :
    setNotifySlotValue slot level e = withLevel slot level := by
  funext v
  unfold setNotifySlotValue
  rw [setNotifySingleSlotElement_eq hslot]

/-- `dm_set_notify_by_selector` for what has a level. -/
theorem dmSetNotifyBySelector_eq (hslot : slot ≠ 0) (href : st.getElementRef S sel = some (some ref))
    (htype : ref.elem.type ≠ .token) :
    dmSetNotifyBySelector S st sel slot level = some (.ok, st.mapAt {ref.value} (withLevel slot level)) := by
  obtain ⟨v, hv, -⟩ := getElementRef_checked sel ref href
  unfold dmSetNotifyBySelector
  simp only [href, Option.bind_eq_bind, Option.bind_some, if_neg htype, hv, setNotifySingleSlotElement_eq hslot]
  rw [setValue_mapAt hv, Option.bind_some]

theorem dmSetNotifyBySelector_mapAt {res : DmResult} (hslot : slot ≠ 0)
    (h : dmSetNotifyBySelector S st sel slot level = some (res, st')) :
    ∃ P, st' = st.mapAt P (withLevel slot level) := by
  have hsame : st = st.mapAt ∅ (withLevel slot level) := mapAt_empty.symm
  cases href : st.getElementRef S sel with
  | none =>
    unfold dmSetNotifyBySelector at h
    rw [href] at h
    cases h
  | some x =>
    cases x with
    | none =>
      unfold dmSetNotifyBySelector at h
      rw [href] at h
      cases h
      exact ⟨∅, hsame⟩
    | some ref =>
      by_cases htype : ref.elem.type = .token
      · unfold dmSetNotifyBySelector at h
        simp only [href, Option.bind_eq_bind, Option.bind_some, if_pos htype] at h
        cases h
        exact ⟨∅, hsame⟩
      · rw [dmSetNotifyBySelector_eq hslot href htype] at h
        cases h
        exact ⟨{ref.value}, rfl⟩

theorem paramNotifyLoop_mapAt {rc : Rc} (hslot : slot ≠ 0) (path : List Selector)
    (h : paramNotifyLoop S slot level path st = some (rc, st')) : ∃ P, st' = st.mapAt P (withLevel slot level) := by
  induction path generalizing st with
  | nil =>
    cases h
    exact ⟨∅, mapAt_empty.symm⟩
  | cons sel path ih =>
    obtain ⟨⟨res, st1⟩, h1, h⟩ := Option.bind_eq_some_iff.mp h
    obtain ⟨P, rfl⟩ := dmSetNotifyBySelector_mapAt hslot h1
    by_cases hres : res = .ok
    · subst hres
      obtain ⟨Q, rfl⟩ := ih h
      exact ⟨P ∪ Q, mapAt_mapAt (withLevel_idem slot level)⟩
    · have hend : st' = st.mapAt P (withLevel slot level) := by
        cases res <;> first | exact absurd rfl hres | (cases h; rfl)
      exact ⟨P, hend⟩

theorem walked_true (U : Set Loc) : walked true U = U := by
  ext l
  simp [walked]

/-- A walk through one table, from a store that is as it was. -/
theorem setNotifySlotTable_eq (level : ℕ) (hw : HeapWf full nowhere S st) (hpar : Intact st) (hslot : slot ≠ 0)
    {kw : ℕ} {b : Addr} {t : VTable} (ht : st.heap b = some t) (hp : S.place t.id = some (kw, false)) (P : Set Loc) :
    setNotifySlotTable S slot level kw b (st.mapAt P (withLevel slot level)) =
      some (st.mapAt (P ∪ below S st kw b) (withLevel slot level)) := by
  have hspec := notifyTable_spec true (withLevel_relabels slot level) (withLevel_idem slot level)
    (setNotifySlotValue_eq level hslot) hw hpar (kw + 1) kw b t P (Nat.lt_succ_self kw) ht hp
  rw [walked_true] at hspec
  exact hspec

section Below
variable {a i : ℕ} {t : VTable} {kw : ℕ} {e : DmElement} {stType : DmType}

theorem setNotifyBelow_token (hw : HeapWf full nowhere S st) (hpar : Intact st) (hslot : slot ≠ 0)
    (ht : st.heap a = some t) (hp : S.place t.id = some (kw, false)) (he : (S.table kw).elems[i]? = some e)
    (htok : e.type = .token) :
    setNotifyBelow S st ⟨i + 1, e, stType, .table a, .slot a i⟩ slot level =
      some (st.mapAt (levelled S st ⟨i + 1, e, stType, .table a, .slot a i⟩) (withLevel slot level)) := by
  obtain ⟨v, hv, hfit⟩ := HeapWf.slotAt hw ht hp he
  have hvalue : st.value (.slot a i) = some v := hv
  have hset : levelled S st ⟨i + 1, e, stType, .table a, .slot a i⟩ = belowContent S st e v.content := by
    ext l
    simp [levelled, belowRef, htok, hv]
  rw [hset]
  unfold setNotifyBelow
  simp only [hvalue, Option.bind_eq_bind, Option.bind_some, htok]
  cases hc : v.content with
  | scalar x =>
    rw [hc] at hfit
    have hleaf : e.container = false := hfit
    simp [DmElement.container, htok] at hleaf
  | inst x =>
    rw [hc] at hfit
    exact absurd (htok.symm.trans hfit.1) (by decide)
  | table x =>
    cases x with
    | none =>
      have hnone : belowContent S st e (.table none) = ∅ := by
        ext l
        simp [belowContent]
      rw [hnone, mapAt_empty]
    | some b =>
      obtain ⟨tb, htb, hpb⟩ := HeapWf.tokenAt hw hpar ht hp he htok hv hc
      have hsome : belowContent S st e (.table (some b)) = below S st e.table b := by
        ext l
        simp [belowContent, htok]
      have hwalk := setNotifySlotTable_eq level hw hpar hslot htb hpb ∅
      rw [mapAt_empty, Set.empty_union] at hwalk
      rw [hsome]
      exact hwalk

theorem setNotifyBelow_object (hw : HeapWf full nowhere S st) (hpar : Intact st) (hslot : slot ≠ 0)
    (ht : st.heap a = some t) (hp : S.place t.id = some (kw, false)) (he : (S.table kw).elems[i]? = some e)
    (hobj : e.type = .object) :
    setNotifyBelow S st ⟨i + 1, e, .object, .table a, .slot a i⟩ slot level =
      some (st.mapAt (levelled S st ⟨i + 1, e, .object, .table a, .slot a i⟩) (withLevel slot level)) := by
  obtain ⟨v, hv, hfit⟩ := HeapWf.slotAt hw ht hp he
  have hvalue : st.value (.slot a i) = some v := hv
  have hset : levelled S st ⟨i + 1, e, .object, .table a, .slot a i⟩ = {Loc.slot a i} ∪ belowContent S st e v.content := by
    ext l
    simp [levelled, belowRef, hobj, hv]
  obtain ⟨o, hc⟩ : ∃ o, v.content = .inst (some o) := by
    cases hc : v.content with
    | scalar x =>
      rw [hc] at hfit
      have hleaf : e.container = false := hfit
      simp [DmElement.container, hobj] at hleaf
    | table x =>
      rw [hc] at hfit
      exact absurd (hobj.symm.trans hfit) (by decide)
    | inst x =>
      rw [hc] at hfit
      obtain ⟨o, rfl⟩ := Option.isSome_iff_exists.mp hfit.2
      exact ⟨o, rfl⟩
  obtain ⟨rs, hat⟩ := HeapWf.rowsAt hw ht hp he hobj hv hc
  have hsome : belowContent S st e (.inst (some o)) = belowRows S st e.table rs := by
    ext l
    simp [belowContent, hobj, hat.enumerated]
  have hfirst := modifyValue_mapAt (P := ∅) (withLevel_idem slot level) hvalue
  rw [mapAt_empty, Set.empty_union] at hfirst
  have hchild : e.table < e.table + 1 := Nat.lt_succ_self e.table
  have hspec := notifyTable_spec true (withLevel_relabels slot level) (withLevel_idem slot level)
    (setNotifySlotValue_eq level hslot) hw hpar (e.table + 1)
  have hrows := notifyRows_spec (withLevel_relabels slot level) (withLevel_idem slot level)
    (setNotifySlotValue_eq level hslot) hspec hchild rs hat.row {Loc.slot a i}
  rw [walked_true] at hrows
  rw [hset, hc, hsome]
  unfold setNotifyBelow setNotifySlotObject
  simp only [hvalue, Option.bind_eq_bind, Option.bind_some, hobj, hc, setNotifySlotValue_eq level hslot, hfirst,
    mapAt_fuel, hat.enumerated]
  exact hrows

theorem setNotifyBelow_row (hw : HeapWf full nowhere S st) (hpar : Intact st) (hslot : slot ≠ 0) {r id : ℕ}
    {tr : VTable} (hobj : e.type = .object) (htr : st.heap r = some tr) (hp : S.place tr.id = some (e.table, false))
    {p : Selector} (hrow : Store.IsRow st p a i r) :
    setNotifyBelow S st ⟨id, e, .inst, .object a i, .row r⟩ slot level =
      some (st.mapAt (levelled S st ⟨id, e, .inst, .object a i, .row r⟩) (withLevel slot level)) := by
  obtain ⟨t0, n, ht0, hn, -, -, hc, -⟩ := hrow
  have hnode : st.node r = some n := DmStore.node_eq_some.mpr ⟨t0, ht0, hn⟩
  have hvalue : st.value (.row r) = some n.value := by
    show (st.node r).map RowNode.value = _
    rw [hnode, Option.map_some]
  have hset : levelled S st ⟨id, e, .inst, .object a i, .row r⟩ = {Loc.row r} ∪ below S st e.table r := by
    ext l
    simp [levelled, belowRef, hobj, hnode, hc, below]
  have hfirst := modifyValue_mapAt (P := ∅) (withLevel_idem slot level) hvalue
  rw [mapAt_empty, Set.empty_union] at hfirst
  rw [hset]
  unfold setNotifyBelow
  simp only [hvalue, Option.bind_eq_bind, Option.bind_some, hobj, hc, setNotifySlotValue_eq level hslot, hfirst]
  exact setNotifySlotTable_eq level hw hpar hslot htr hp {Loc.row r}

end Below

/-- `dm_set_notify_by_selector_recursive` for a container. -/
theorem setNotifyBelow_eq (hw : HeapWf full nowhere S st) (hpar : Intact st) (hslot : slot ≠ 0)
    (href : st.getElementRef S sel = some (some ref)) (hcon : ref.elem.container = true) :
    setNotifyBelow S st ref slot level = some (st.mapAt (levelled S st ref) (withLevel slot level)) := by
  have hat := getElementRef_path hw href
  have hslotType := fun a i => getElementRef_slotType (a := a) (i := i) href
  generalize S.path sel = q at hat
  cases hat with
  | slot a i t kw e stType ht hp he =>
    by_cases htok : e.type = .token
    · exact setNotifyBelow_token hw hpar hslot ht hp he htok
    · have hobj : e.type = .object := by
        simp only [DmElement.container, decide_eq_true_eq] at hcon
        exact hcon.resolve_left htok
      have hst : stType = .object := hslotType a i rfl hobj
      rw [hst]
      exact setNotifyBelow_object hw hpar hslot ht hp he hobj
  | row a i t kw e r id tr ht hp he hobj htr hid hrow hmem =>
    have hpr : S.place tr.id = some (e.table, false) := by
      have hsplit : tr.id = t.id ++ [i + 1] ++ [id] := by
        rw [hid]
        simp
      rw [hsplit]
      exact place_inst (place_object hp he hobj)
    exact setNotifyBelow_row hw hpar hslot hobj htr hpr hrow

/-! ## Runs of requests -/

/-- A request of the client that has this slot. -/
inductive NotifyCall
  | param (slot notify : ℕ) (path : List Selector)
  | recursive (slot notify : ℕ) (path : Selector)

def notifyCall (S : Schema) (st : DmStore) : NotifyCall → Option DmStore
  | .param slot notify path => (rpcParamNotify S slot notify path st).map Prod.snd
  | .recursive slot notify path => (rpcRecursiveParamNotify S slot notify path st).map Prod.snd

/-- A request only rewrites levels. -/
theorem notifyCall_mapAt (hw : HeapWf full nowhere S st) (hpar : Intact st) (c : NotifyCall)
    (h : notifyCall S st c = some st') : ∃ P slot level, st' = st.mapAt P (withLevel slot level) := by
  have hsame : ∃ P slot level, st = st.mapAt P (withLevel slot level) := ⟨∅, 0, 0, mapAt_empty.symm⟩
  cases c with
  | param slot notify path =>
    obtain ⟨⟨rc, st1⟩, hrpc, rfl⟩ := Option.map_eq_some_iff.mp h
    unfold rpcParamNotify at hrpc
    by_cases hslot : slot = 0
    · rw [if_pos hslot] at hrpc
      cases hrpc
      exact hsame
    · rw [if_neg hslot] at hrpc
      obtain ⟨P, hP⟩ := paramNotifyLoop_mapAt hslot path hrpc
      exact ⟨P, slot, _, hP⟩
  | recursive slot notify path =>
    obtain ⟨⟨rc, st1⟩, hrpc, rfl⟩ := Option.map_eq_some_iff.mp h
    unfold rpcRecursiveParamNotify at hrpc
    by_cases hslot : slot = 0
    · rw [if_pos hslot] at hrpc
      cases hrpc
      exact hsame
    rw [if_neg hslot] at hrpc
    obtain ⟨⟨res, st2⟩, hset, hrpc⟩ := Option.bind_eq_some_iff.mp hrpc
    have hst : st1 = st2 := by
      cases res <;> (cases hrpc; rfl)
    subst hst
    unfold dmSetNotifyBySelectorRecursive at hset
    obtain ⟨x, href, hset⟩ := Option.bind_eq_some_iff.mp hset
    cases x with
    | none =>
      cases hset
      exact hsame
    | some ref =>
      by_cases hcon : ref.elem.container = false
      · simp only [if_pos hcon] at hset
        cases hset
        exact hsame
      · simp only [if_neg hcon] at hset
        rw [setNotifyBelow_eq hw hpar hslot href (Bool.eq_true_of_not_eq_false hcon)] at hset
        cases hset
        exact ⟨_, slot, notify, rfl⟩

/-- Requests keep a store in order. -/
theorem notifyCalls_wf {calls : List NotifyCall} (hw : HeapWf full nowhere S st) (hpar : Intact st)
    (h : Run.run (notifyCall S) st calls = some st') : HeapWf full nowhere S st' ∧ Intact st' := by
  refine Run.run_keeps (P := fun st => HeapWf full nowhere S st ∧ Intact st) ?_ h ⟨hw, hpar⟩
  rintro st c st' hc ⟨hw, hpar⟩
  obtain ⟨P, slot, level, rfl⟩ := notifyCall_mapAt hw hpar c hc
  exact ⟨hw.mapAt (withLevel_relabels slot level) hpar, mapAt_intact (withLevel_relabels slot level) hpar⟩

/-! ## The freed slot -/

/-- The values below the root have no level for the slot any more, and all others have kept theirs. -/
def Forgets (S : Schema) (slot : ℕ) (st st' : DmStore) : Prop :=
  (∀ l v, Under S st' S.root st'.root l → st'.value l = some v → levelOf v.notify slot = 0) ∧
    ∀ l v, st.value l = some v → ∃ v', st'.value l = some v' ∧
      ∀ i, i ≠ slot → levelOf v'.notify i = levelOf v.notify i

/-- `dm_reset_notify_slot`. -/
theorem dmResetNotifySlot_eq (hw : HeapWf full nowhere S st) (hpar : Intact st) (slot : ℕ) :
    dmResetNotifySlot S slot st =
      some (st.mapAt (walked false (below S st S.root st.root)) (withLevel slot 0)) := by
  obtain ⟨t, ht, hid⟩ := hw.root
  have hp : S.place t.id = some (S.root, false) := by
    rw [hid]
    rfl
  have hon : ∀ e, (fun (_ : DmElement) => resetNotify slot) e = withLevel slot 0 := fun _ => resetNotify_eq slot
  have hspec := notifyTable_spec false (withLevel_relabels slot 0) (withLevel_idem slot 0) hon hw hpar (S.root + 1) S.root
    st.root t ∅ (Nat.lt_succ_self S.root) ht hp
  rw [mapAt_empty, Set.empty_union] at hspec
  exact hspec

theorem levelOf_withLevel (slot level : ℕ) (v : DmValue) (i : ℕ) :
    levelOf (withLevel slot level v).notify i = if i = slot then level % 4 else levelOf v.notify i :=
  levelOf_setLevel v.notify slot level i

theorem Under.of_mapAt {P : Set Loc} {f : DmValue → DmValue} (hf : Relabels f) {kw : ℕ} {a : Addr} {l : Loc}
    (h : Under S (st.mapAt P f) kw a l) : Under S st kw a l := by
  have hslot : ∀ {a i v}, (st.mapAt P f).slot a i = some v → ∃ w, st.slot a i = some w ∧ w.content = v.content := by
    intro a i v hv
    rw [mapAt_slot] at hv
    obtain ⟨w, hw, rfl⟩ := Option.map_eq_some_iff.mp hv
    exact ⟨w, hw, (mapIn_content hf _ w).symm⟩
  induction h with
  | slot kw a i e v he hv =>
    obtain ⟨w, hw, -⟩ := hslot hv
    exact .slot kw a i e w he hw
  | token kw a i e v b l he hv htype hb _ ih =>
    obtain ⟨w, hw, hc⟩ := hslot hv
    exact .token kw a i e w b l he hw htype (hc.trans hb) ih
  | row kw a i e v t rows r he hv htype ho hrows hr =>
    obtain ⟨w, hw, hc⟩ := hslot hv
    exact .row kw a i e w t rows r he hw htype (hc.trans ho) hrows hr
  | inRow kw a i e v t rows r n b l he hv htype ho hrows hr hn hb _ ih =>
    obtain ⟨w, hw, hc⟩ := hslot hv
    obtain ⟨m, hm, rfl⟩ := mapAt_node_some hn
    rw [mapIn_content hf] at hb
    exact .inRow kw a i e w t rows r m b l he hw htype (hc.trans ho) hrows hr hm hb ih

/-- The nodes of the rows below the root have no level for the slot. -/
def RowsUnmarked (S : Schema) (slot : ℕ) (st : DmStore) : Prop :=
  ∀ r n, Under S st S.root st.root (.row r) → st.node r = some n → levelOf n.value.notify slot = 0

/-- A reset forgets the slot exactly when no row is marked for it. -/
theorem resetNotify_forgets_iff (slot : ℕ) :
    Forgets S slot st (st.mapAt (walked false (below S st S.root st.root)) (withLevel slot 0)) ↔
      RowsUnmarked S slot st := by
  have hf := withLevel_relabels slot 0
  constructor
  · -- the node of a row is as it was
    intro h r n hu hn
    refine h.1 (.row r) n.value (hu.mapAt hf) ?_
    have hv : st.value (.row r) = some n.value := by
      show (st.node r).map RowNode.value = _
      rw [hn, Option.map_some]
    rw [mapAt_value, hv, Option.map_some, mapIn, if_neg]
    rintro ⟨-, hrow⟩
    simp [isNode] at hrow
  · intro h
    constructor
    · intro l v' hu' hv'
      rw [mapAt_value] at hv'
      obtain ⟨v, hv, rfl⟩ := Option.map_eq_some_iff.mp hv'
      have hu : Under S st S.root st.root l := hu'.of_mapAt hf
      cases l with
      | slot a i =>
        have hmem : Loc.slot a i ∈ walked false (below S st S.root st.root) := ⟨hu, .inr rfl⟩
        rw [mapIn, if_pos hmem, levelOf_withLevel, if_pos rfl]
      | row r =>
        obtain ⟨n, hn, rfl⟩ := Option.map_eq_some_iff.mp hv
        rw [mapIn, if_neg]
        · exact h r n hu hn
        · rintro ⟨-, hrow⟩
          simp [isNode] at hrow
    · intro l v hv
      refine ⟨_, by rw [mapAt_value, hv, Option.map_some], ?_⟩
      intro i hi
      unfold mapIn
      split
      · rw [levelOf_withLevel, if_neg hi]
      · rfl

/-- `free_slot` after any requests: the slot is forgotten exactly when no row is marked for it. -/
theorem free_slot_forgets_iff (S : Schema) (st0 st : DmStore) (hw : StoreWf full S st0) (hpar : Intact st0)
    (calls : List NotifyCall) (hcalls : Run.run (notifyCall S) st0 calls = some st) (n : Notifier) (slot : ℕ)
    (hslot : 1 ≤ slot ∧ slot ≤ 15) (halloc : n.slots.map.getLsbD slot = true) :
    ∃ n' st', freeSlotIn S n slot st = some (n', st') ∧ (Forgets S slot st st' ↔ RowsUnmarked S slot st) := by
  obtain ⟨hw, hpar⟩ := notifyCalls_wf hw hpar hcalls
  have hrange : ¬((slot : ℤ) < 1 ∨ 15 < (slot : ℤ)) := by omega
  refine ⟨freeNotifySlot n slot, _, ?_, resetNotify_forgets_iff slot⟩
  unfold freeSlotIn
  rw [if_neg hrange, Int.toNat_natCast, halloc, if_neg Bool.noConfusion, dmResetNotifySlot_eq hw hpar]
  rfl

/-- Slot 1 is taken. -/
def sampleNotifier : Notifier := ⟨⟨3, 2, fun i => if i = 1 then some 1 else none⟩, fun _ => [], false⟩

theorem free_slot_forgets_sample : ∃ st, Run.run (notifyCall sampleSchema) sampleStore
      [.param 1 1 [[1]], .recursive 1 2 [4]] = some st ∧
    ∃ n' st', freeSlotIn sampleSchema sampleNotifier 1 st = some (n', st') ∧
      (Forgets sampleSchema 1 st st' ↔ RowsUnmarked sampleSchema 1 st) := by
  obtain ⟨st, hst⟩ : ∃ st, Run.run (notifyCall sampleSchema) sampleStore
      [.param 1 1 [[1]], .recursive 1 2 [4]] = some st := ⟨_, rfl⟩
  have hw : StoreWf False sampleSchema sampleStore := init_wf rfl
  exact ⟨st, hst, free_slot_forgets_iff sampleSchema sampleStore st hw sampleStore_intact _ hst sampleNotifier 1
    (by decide) (by decide)⟩

/-- The row that is marked with its object stays marked. -/
theorem free_slot_row_marked : ∃ r st0 st n' st',
    (DmStore.init sampleSchema).bind (fun st => addInstanceBySelector sampleSchema st [4] 7) = some (some r, st0) ∧
    Run.run (notifyCall sampleSchema) st0 [.recursive 1 2 [4]] = some st ∧
    freeSlotIn sampleSchema sampleNotifier 1 st = some (n', st') ∧ ¬Forgets sampleSchema 1 st st' := by
  refine ⟨1, _, _, _, _, rfl, rfl, rfl, ?_⟩
  intro h
  have hrow := h.1 (.row 1) _ (.row 1 0 3 _ _ _ [1] 1 rfl rfl rfl rfl rfl (List.mem_singleton.mpr rfl)) rfl
  exact absurd hrow (by decide)

end Mand.Notify
