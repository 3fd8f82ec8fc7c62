import Mand.Signal.Emit
import Mand.Store.Resolve
import Mand.Store.Rows

/-! # The reports change nothing

Without the calls that they report, the operations are those of the store. -/
namespace Mand.Signal
open Mand.Store Mand.Index Mand.Msg Mand.Server Mand.Notify Mand.Action
set_option autoImplicit false

section Bind
variable {α β L : Type}

/-- One more step on both sides. -/
theorem map_fst_bind {x : Option (α × L)} {y : Option α} {f : α × L → Option (β × L)} {g : α → Option β}
    (h : x.map Prod.fst = y) (hfg : ∀ a l, x = some (a, l) → (f (a, l)).map Prod.fst = g a) :
    (x.bind f).map Prod.fst = y.bind g := by
  subst h
  cases x with
  | none => rfl
  | some p =>
    obtain ⟨a, l⟩ := p
    exact hfg a l rfl

/-- A step of the store on both sides. -/
theorem map_fst_lift {x : Option α} {f : α → Option (β × L)} {g : α → Option β}
    (hfg : ∀ a, x = some a → (f a).map Prod.fst = g a) : (x.bind f).map Prod.fst = x.bind g := by
  cases x with
  | none => rfl
  | some a => exact hfg a rfl

/-- The last step of the store, with what is reported behind it. -/
theorem map_fst_tail {x : Option α} {f : α → Option (α × L)}
    (hf : ∀ a, x = some a → (f a).map Prod.fst = some a) : (x.bind f).map Prod.fst = x := by
  cases x with
  | none => rfl
  | some a => exact hf a rfl

/-- More is reported. -/
theorem map_fst_more {x : Option (α × L)} {y : Option α} (h : x.map Prod.fst = y) (f : L → L) :
    (x.bind fun p => some (p.1, f p.2)).map Prod.fst = y := by
  subst h
  cases x with
  | none => rfl
  | some p => rfl

end Bind

/-! ## Values -/

theorem assign_store (undef : ℕ) (st : DmStore) (e : DmElement) (a : Addr) (l : Loc) (val : DmValue) :
    (assign undef st e a l val).map Prod.fst = Store.assign undef st e a l val :=
  map_fst_tail fun _ _ => rfl

theorem overwriteValue_store (undef : ℕ) (S : Schema) (st : DmStore) (sel : Selector) (val : DmValue) (slot : ℤ) :
    (overwriteValue undef S st sel val slot).map Prod.fst = Store.overwriteValue undef S st sel val := by
  unfold overwriteValue Store.overwriteValue
  refine map_fst_lift ?_
  intro x href
  cases x with
  | none => rfl
  | some ref =>
    simp only
    cases ref.base with
    | object b i => rfl
    | table a =>
      simp only
      refine map_fst_lift fun old _ => map_fst_lift fun _ _ => map_fst_bind (assign_store ..) ?_
      rintro ⟨r, st1⟩ sigs _
      refine map_fst_lift fun v _ => map_fst_lift fun st2 _ => ?_
      by_cases hok : r = .ok ∧ val.flags.updated = true
      · rw [if_pos hok, if_pos hok]
        exact map_fst_lift fun v2 _ => map_fst_lift fun st3 _ => map_fst_lift fun st4 _ => rfl
      · rw [if_neg hok, if_neg hok]
        rfl

theorem applyItem_store (env : Env) (slot : ℤ) (st : DmStore) (item : CacheItem) :
    (applyItem env slot st item).map Prod.fst = Server.applyItem env st item := by
  unfold applyItem Server.applyItem
  cases item.base with
  | object b i => rfl
  | table a =>
    simp only
    refine map_fst_bind (assign_store ..) ?_
    rintro ⟨r, st1⟩ sigs _
    exact map_fst_lift fun v _ => map_fst_lift fun st2 _ => map_fst_tail fun st3 _ => rfl

theorem cacheApply_store (env : Env) (slot : ℤ) (st : DmStore) (items : List CacheItem) :
    (cacheApply env slot st items).map Prod.fst = Server.cacheApply env st items := by
  induction items generalizing st with
  | nil => rfl
  | cons item items ih =>
    unfold cacheApply Server.cacheApply
    exact map_fst_bind (applyItem_store env slot st item) fun st1 sigs _ => map_fst_more (ih st1) (sigs ++ ·)

/-! ## Rows -/

theorem addInstance_store (S : Schema) (st : DmStore) (e : DmElement) (a i : ℕ) (basesel : Selector) (id : ℕ) :
    (addInstance S st e a i basesel id).map Prod.fst = Store.addInstance S st e a i basesel id :=
  map_fst_tail fun _ _ => rfl

theorem addInstanceBySelector_store (S : Schema) (st : DmStore) (sel : Selector) (id : ℕ) :
    (addInstanceBySelector S st sel id).map Prod.fst = Store.addInstanceBySelector S st sel id := by
  unfold addInstanceBySelector Store.addInstanceBySelector
  refine map_fst_lift ?_
  intro x _
  cases x with
  | none => rfl
  | some ref =>
    simp only
    by_cases htype : ref.stType ≠ .object
    · rw [if_pos htype, if_pos htype]
      rfl
    rw [if_neg htype, if_neg htype]
    cases ref.value with
    | row r => rfl
    | slot a i =>
      simp only
      refine map_fst_bind (addInstance_store ..) ?_
      rintro ⟨r, st1⟩ sigs _
      cases r with
      | none => rfl
      | some r =>
        exact map_fst_lift fun n _ => map_fst_lift fun st2 _ => map_fst_lift fun v _ => map_fst_lift fun st3 _ => rfl

section Delete
variable {del : ℕ → Addr → DmStore → Option (Emits DmStore)} {del' : ℕ → Addr → DmStore → Option DmStore}
  (hdel : ∀ kw a st, (del kw a st).map Prod.fst = del' kw a st)
include hdel

theorem delInstance_store (e : DmElement) (a i : ℕ) (r : Addr) (st : DmStore) :
    (delInstance del e a i r st).map Prod.fst = Store.delInstance del' e a i r st := by
  unfold delInstance Store.delInstance
  exact map_fst_lift fun n _ => map_fst_lift fun _ _ => map_fst_lift fun st1 _ => map_fst_lift fun n1 _ =>
    map_fst_lift fun st2 _ => map_fst_bind (hdel ..) fun st3 sigs _ => rfl

theorem delObject_store (e : DmElement) (a i n : ℕ) (st : DmStore) :
    (delObject del e a i n st).map Prod.fst = Store.delObject del' e a i n st := by
  induction n generalizing st with
  | zero => rfl
  | succ n ih =>
    unfold delObject Store.delObject
    refine map_fst_lift ?_
    intro x _
    cases x with
    | none => rfl
    | some r =>
      exact map_fst_bind (delInstance_store hdel e a i r st) fun st1 sigs _ => map_fst_more (ih st1) (sigs ++ ·)

theorem delContent_store (e : DmElement) (a i : ℕ) (c : Content) (st : DmStore) :
    (delContent del e a i c st).map Prod.fst = Store.delContent del' e a i c st := by
  unfold delContent Store.delContent
  cases e.type with
  | token =>
    cases c with
    | table x =>
      cases x with
      | none => rfl
      | some b => exact map_fst_bind (hdel ..) fun st1 sigs _ => rfl
    | _ => rfl
  | object =>
    cases c with
    | inst x =>
      cases x with
      | none => rfl
      | some o => exact delObject_store hdel e a i _ st
    | _ => rfl
  | _ => rfl

theorem delElement_store (e : DmElement) (a i : ℕ) (st : DmStore) :
    (delElement del e a i st).map Prod.fst = Store.delElement del' e a i st := by
  unfold delElement Store.delElement
  exact map_fst_lift fun v _ => map_fst_lift fun _ _ => map_fst_bind (delContent_store hdel e a i v.content st)
    fun st1 sigs _ => map_fst_lift fun v1 _ => map_fst_tail fun st2 _ => rfl

theorem delElements_store (elems : List DmElement) (a i : ℕ) (st : DmStore) :
    (delElements del elems a i st).map Prod.fst = Store.delElements del' elems a i st := by
  induction i generalizing st with
  | zero => rfl
  | succ i ih =>
    unfold delElements Store.delElements
    exact map_fst_lift fun e _ => map_fst_bind (delElement_store hdel e a i st) fun st1 sigs _ =>
      map_fst_more (ih st1) (sigs ++ [.action e.action (dmSelcat (tableId st1 a) (i + 1)) .del] ++ ·)

end Delete

theorem delTable_store (S : Schema) (n kw : ℕ) (a : Addr) (st : DmStore) :
    (delTable S n kw a st).map Prod.fst = Store.delTable S n kw a st := by
  induction n generalizing kw a st with
  | zero => rfl
  | succ n ih => exact delElements_store ih _ a _ st

theorem actionDel_store (ref : Ref) (a : Addr) (x : Option (Emits DmStore)) :
    (actionDel ref a x).map Prod.fst = x.map Prod.fst := by
  cases x with
  | none => rfl
  | some p => rfl

theorem delRef_store (S : Schema) (ref : Ref) (st : DmStore) :
    (delRef S ref st).map Prod.fst = Store.delRef S ref st := by
  have hdel := delTable_store S (ref.elem.table + 1)
  unfold delRef Store.delRef
  simp only
  have helem : ∀ a i, (actionDel ref a (delElement (delTable S (ref.elem.table + 1)) ref.elem a i st)).map Prod.fst =
      Store.delElement (Store.delTable S (ref.elem.table + 1)) ref.elem a i st := by
    intro a i
    rw [actionDel_store]
    exact delElement_store hdel ..
  cases ref.stType with
  | inst =>
    cases ref.base with
    | table a => rfl
    | object a i =>
      cases ref.value with
      | slot b j => rfl
      | row r => exact delInstance_store hdel ..
  | object =>
    cases ref.value with
    | row r => rfl
    | slot a i =>
      simp only
      rw [actionDel_store]
      exact delObject_store hdel ..
  | _ =>
    cases ref.value with
    | row r => rfl
    | slot a i => exact helem a i

theorem delTableBySelector_store (S : Schema) (st : DmStore) (sel : Selector) :
    (delTableBySelector S st sel).map Prod.fst = Store.delTableBySelector S st sel := by
  unfold delTableBySelector Store.delTableBySelector
  refine map_fst_lift ?_
  intro x _
  cases x with
  | none => rfl
  | some ref => exact map_fst_bind (delRef_store S ref st) fun st1 sigs _ => rfl

/-! ## Sets -/

theorem setEntries_store (env : Env) (sel : Selector) (e : DmElement) (clear : Bool) (last : Option SetResult) (id : ℕ)
    (entries : List Avp) (st : DmStore) :
    (setEntries env sel e clear last id entries st).map Prod.fst =
      Server.setEntries env sel e clear last id entries st := by
  induction entries generalizing id st with
  | nil => cases last <;> rfl
  | cons avp entries ih =>
    unfold setEntries Server.setEntries
    refine map_fst_bind (addInstanceBySelector_store ..) ?_
    rintro ⟨r, st1⟩ sigs _
    cases r with
    | none => rfl
    | some r =>
      refine map_fst_lift fun n _ => map_fst_lift ?_
      rintro ⟨res, st2⟩ _
      by_cases hres : res = .ok
      · simp only [if_pos hres]
        exact map_fst_more (ih _ st2) (sigs ++ ·)
      · simp only [if_neg hres]
        rfl

theorem setArray_store (env : Env) (st : DmStore) (sel : Selector) (e : DmElement) (l : Loc) (avp : Avp) :
    (setArray env st sel e l avp).map Prod.fst = Server.setArray env st sel e l avp := by
  unfold setArray Server.setArray
  refine map_fst_lift fun v _ => ?_
  split
  · rfl
  split
  · rfl
  refine map_fst_bind (delTableBySelector_store ..) ?_
  rintro ⟨found, st1⟩ sigs _
  by_cases hfound : found = false
  · simp only [if_pos hfound]
    rfl
  simp only [if_neg hfound]
  obtain ⟨entries, last⟩ := avpEntries avp
  cases entries with
  | nil => cases last <;> rfl
  | cons x entries =>
    exact map_fst_lift fun e0 _ => map_fst_more (setEntries_store ..) (sigs ++ ·)

theorem setCb_store (env : Env) (slot : ℤ) (st : DmStore) (cache : Cache) (flags : ℕ) (sel : Selector) (ref : Ref)
    (avp : Avp) :
    (setCb env slot st cache flags sel ref avp).map Prod.fst = Server.setCb env st cache flags sel ref avp := by
  unfold setCb Server.setCb
  split
  · exact map_fst_bind (setArray_store ..) fun x sigs _ => rfl
  cases env.avp2value ref.elem avp with
  | error err => rfl
  | ok v =>
    simp only
    split
    · exact map_fst_lift fun old _ => map_fst_lift fun st1 _ => rfl
    · exact map_fst_bind (overwriteValue_store ..) fun x sigs _ => rfl

theorem dbSet_store (env : Env) (slot : ℤ) (flags : ℕ) (values : List (Selector × Avp)) (st : DmStore) (cache : Cache) :
    (dbSet env slot flags values st cache).map Prod.fst = Server.dbSet env flags values st cache := by
  induction values generalizing st cache with
  | nil => rfl
  | cons x values ih =>
    obtain ⟨sel, avp⟩ := x
    unfold dbSet Server.dbSet
    refine map_fst_lift ?_
    intro y _
    cases y with
    | none => rfl
    | some ref =>
      refine map_fst_bind (setCb_store ..) ?_
      rintro ⟨r, st1, cache1⟩ sigs _
      by_cases hr : r = .ok
      · simp only [if_pos hr]
        exact map_fst_more (ih st1 cache1) (sigs ++ ·)
      · simp only [if_neg hr]
        rfl

end Mand.Signal
