import Mand.Server.Array
import Mand.Signal.Report

/-! # Sets that fail

`rpc_db_set` applies its pairs one after the other and stops at the first that fails; nothing takes back what
was done before. -/
namespace Mand.Signal
open Mand.Store Mand.Index Mand.Msg Mand.Server Mand.Notify Mand.Action
set_option autoImplicit false

/-! ## Calls for rows -/

/-- A call for what is added or deleted; no value has changed. -/
def rearranges : Signal → Bool
  | .notify slot _ _ type => slot = -1 ∧ type ≠ .change
  | .action _ _ type => type = .del

variable {S : Schema} {env : Env} {st st' : DmStore} {sigs : List Signal}

theorem all_append {sigs' : List Signal} (h : sigs.all rearranges = true)
    (h' : sigs'.all rearranges = true) : (sigs ++ sigs').all rearranges = true := by
  rw [List.all_append, h, h']
  rfl

theorem addSignals_rearrange (sel : Selector) (r : Option Addr) :
    (addSignals S st st' sel r).all rearranges = true := by
  unfold addSignals
  cases r with
  | none => rfl
  | some r =>
    dsimp only
    split
    · rw [notifyAt]
      cases st'.value _ <;> rfl
    · rfl

section Delete
variable {del : ℕ → Addr → DmStore → Option (Emits DmStore)}
  (hdel : ∀ kw a st st' sigs, del kw a st = some (st', sigs) → sigs.all rearranges = true)
include hdel

theorem delInstance_rearranges {e : DmElement} {a i r : ℕ} (h : delInstance del e a i r st = some (st', sigs)) :
    sigs.all rearranges = true := by
  simp only [delInstance, Option.bind_eq_bind, Option.bind_eq_some_iff, Prod.exists, Option.some.injEq,
    Prod.mk.injEq] at h
  obtain ⟨_, _, _, _, _, _, _, _, _, _, _, sigs', hd, _, rfl⟩ := h
  exact all_append rfl (hdel _ _ _ _ _ hd)

theorem delObject_rearranges {e : DmElement} {a i : ℕ} (n : ℕ) (h : delObject del e a i n st = some (st', sigs)) :
    sigs.all rearranges = true := by
  induction n generalizing st st' sigs with
  | zero => cases h
  | succ n ih =>
    simp only [delObject, Option.bind_eq_bind, Option.bind_eq_some_iff] at h
    obtain ⟨r, _, h⟩ := h
    cases r with
    | none =>
      cases h
      rfl
    | some r =>
      simp only [Option.bind_eq_some_iff, Prod.exists, Option.some.injEq, Prod.mk.injEq] at h
      obtain ⟨_, _, h1, _, _, h2, _, rfl⟩ := h
      exact all_append (delInstance_rearranges hdel h1) (ih h2)

theorem delElement_rearranges {e : DmElement} {a i : ℕ} (h : delElement del e a i st = some (st', sigs)) :
    sigs.all rearranges = true := by
  simp only [delElement, Option.bind_eq_bind, Option.bind_eq_some_iff, Prod.exists, Option.some.injEq,
    Prod.mk.injEq] at h
  obtain ⟨v, _, _, _, _, sigs', hc, _, _, _, _, _, rfl⟩ := h
  unfold delContent at hc
  split at hc
  · simp only [Option.bind_eq_bind, Option.bind_eq_some_iff, Prod.exists, Option.some.injEq, Prod.mk.injEq] at hc
    obtain ⟨_, _, hd, _, rfl⟩ := hc
    exact hdel _ _ _ _ _ hd
  · cases hc
    rfl
  · cases hc
  · exact delObject_rearranges hdel _ hc
  · cases hc
  · cases hc
    rfl

theorem delElements_rearrange {elems : List DmElement} {a : ℕ} (n : ℕ)
    (h : delElements del elems a n st = some (st', sigs)) : sigs.all rearranges = true := by
  induction n generalizing st st' sigs with
  | zero =>
    cases h
    rfl
  | succ n ih =>
    simp only [delElements, Option.bind_eq_bind, Option.bind_eq_some_iff, Prod.exists, Option.some.injEq,
      Prod.mk.injEq] at h
    obtain ⟨_, _, _, _, h1, _, _, h2, _, rfl⟩ := h
    exact all_append (all_append (delElement_rearranges hdel h1) rfl) (ih h2)

end Delete

theorem delTable_rearranges (n kw a : ℕ) (h : delTable S n kw a st = some (st', sigs)) :
    sigs.all rearranges = true := by
  induction n generalizing kw a st st' sigs with
  | zero => cases h
  | succ n ih => exact delElements_rearrange (fun kw a st st' sigs h => ih kw a h) _ h

theorem delTableBySelector_rearranges {sel : Selector} {found : Bool}
    (h : delTableBySelector S st sel = some ((found, st'), sigs)) : sigs.all rearranges = true := by
  simp only [delTableBySelector, Option.bind_eq_bind, Option.bind_eq_some_iff] at h
  obtain ⟨ref, _, h⟩ := h
  cases ref with
  | none =>
    cases h
    rfl
  | some ref =>
    have hdel : ∀ kw a st st' sigs, delTable S (ref.elem.table + 1) kw a st = some (st', sigs) →
        sigs.all rearranges = true := fun kw a st st' sigs h => delTable_rearranges _ kw a h
    have haction : ∀ {a : Addr} {x : Option (Emits DmStore)} {st1 : DmStore} {sigs' : List Signal},
        (∀ st1 sigs, x = some (st1, sigs) → sigs.all rearranges = true) →
        actionDel ref a x = some (st1, sigs') → sigs'.all rearranges = true := by
      intro a x st1 sigs' hx hact
      simp only [actionDel, Option.bind_eq_bind, Option.bind_eq_some_iff, Prod.exists, Option.some.injEq,
        Prod.mk.injEq] at hact
      obtain ⟨_, _, h1, _, rfl⟩ := hact
      exact all_append (hx _ _ h1) rfl
    simp only [Option.bind_eq_some_iff, Prod.exists, Option.some.injEq, Prod.mk.injEq] at h
    obtain ⟨st1, sigs1, h1, _, rfl⟩ := h
    unfold delRef at h1
    dsimp only at h1
    split at h1
    · exact delInstance_rearranges hdel h1
    · cases h1
    · exact haction (fun _ _ h => delObject_rearranges hdel _ h) h1
    · cases h1
    · exact haction (fun _ _ h => delElement_rearranges hdel h) h1
    · cases h1

theorem addInstanceBySelector_rearranges {sel : Selector} {id : ℕ} {r : Option Addr}
    (h : addInstanceBySelector S st sel id = some ((r, st'), sigs)) : sigs.all rearranges = true := by
  simp only [addInstanceBySelector, Option.bind_eq_bind, Option.bind_eq_some_iff] at h
  obtain ⟨ref, _, h⟩ := h
  cases ref with
  | none =>
    cases h
    rfl
  | some ref =>
    dsimp only at h
    split at h
    · cases h
      rfl
    · split at h
      · simp only [addInstance, Option.bind_eq_bind, Option.bind_eq_some_iff, Prod.exists] at h
        obtain ⟨r0, st0, sigs0, ⟨r1, st1, _, h0⟩, h⟩ := h
        simp only [Option.some.injEq, Prod.mk.injEq] at h0
        obtain ⟨⟨rfl, rfl⟩, rfl⟩ := h0
        cases r1 with
        | none =>
          cases h
          exact addSignals_rearrange sel none
        | some r1 =>
          simp only [Option.bind_eq_some_iff, Option.some.injEq, Prod.mk.injEq] at h
          obtain ⟨_, _, _, _, _, _, _, _, _, rfl⟩ := h
          exact addSignals_rearrange sel (some r1)
      · cases h

theorem setEntries_rearrange {sel : Selector} {e : DmElement} {clear : Bool} {last : Option SetResult} {res : SetResult} {id : ℕ}
    (entries : List Avp) (h : setEntries env sel e clear last id entries st = some ((res, st'), sigs)) :
    sigs.all rearranges = true := by
  induction entries generalizing id st sigs with
  | nil =>
    obtain ⟨res', -, hres⟩ := Option.map_eq_some_iff.mp h
    cases hres
    rfl
  | cons avp rest ih =>
    simp only [setEntries, Option.bind_eq_bind, Option.bind_eq_some_iff, Prod.exists] at h
    obtain ⟨r, st1, sigs1, h1, h⟩ := h
    have hadd := addInstanceBySelector_rearranges h1
    cases r with
    | none =>
      cases h
      exact hadd
    | some r =>
      simp only [Option.bind_eq_some_iff, Prod.exists] at h
      obtain ⟨n, _, res2, st2, _, h⟩ := h
      split at h
      · simp only [Option.bind_eq_some_iff, Prod.exists, Option.some.injEq, Prod.mk.injEq] at h
        obtain ⟨_, _, _, h2, ⟨rfl, rfl⟩, rfl⟩ := h
        exact all_append hadd (ih h2)
      · cases h
        exact hadd

theorem setArray_rearranges {sel : Selector} {e : DmElement} {l : Loc} {avp : Avp} {res : SetResult}
    (h : setArray env st sel e l avp = some ((res, st'), sigs)) : sigs.all rearranges = true := by
  simp only [setArray, Option.bind_eq_bind, Option.bind_eq_some_iff] at h
  obtain ⟨v, _, h⟩ := h
  split at h
  · cases h
    rfl
  split at h
  · cases h
    rfl
  simp only [Option.bind_eq_some_iff, Prod.exists] at h
  obtain ⟨found, st1, sigs1, h1, h⟩ := h
  have hdel := delTableBySelector_rearranges h1
  split at h
  · cases h
    exact hdel
  generalize (avpEntries avp).1 = entries, (avpEntries avp).2 = last at h
  cases entries with
  | nil =>
    obtain ⟨res', -, hres⟩ := Option.map_eq_some_iff.mp h
    cases hres
    exact hdel
  | cons avp' rest =>
    simp only [Option.bind_eq_some_iff, Prod.exists, Option.some.injEq, Prod.mk.injEq] at h
    obtain ⟨e0, _, _, _, sigs2, h2, ⟨rfl, rfl⟩, rfl⟩ := h
    exact all_append hdel (setEntries_rearrange _ h2)

/-! ## The pair that fails -/

theorem setValue_same {l : Loc} {v : DmValue} (h : st.value l = some v) : st.setValue l v = some st := by
  have hput : ∀ {a : Addr} {t : VTable}, st.heap a = some t → st.put a t = st := by
    intro a t ht
    rw [DmStore.put, ← ht, Function.update_eq_self]
  cases l with
  | slot a i =>
    obtain ⟨t, ht, hv⟩ := DmStore.slot_eq_some.mp (show st.slot a i = some v from h)
    obtain ⟨hi, hget⟩ := List.getElem?_eq_some_iff.mp hv
    have hsame : t.setValue i v = t := by
      rw [VTable.setValue, ← hget, List.set_getElem_self]
    refine DmStore.setSlot_eq_some.mpr ⟨t, ht, hi, ?_⟩
    rw [hsame, hput ht]
  | row r =>
    have h : (st.node r).map RowNode.value = some v := h
    obtain ⟨n, hn, rfl⟩ := Option.map_eq_some_iff.mp h
    obtain ⟨t, ht, hnt⟩ := DmStore.node_eq_some.mp hn
    have hsame : { t with node := some n } = t := by rw [← hnt]
    rw [DmStore.setValue, hn, Option.bind_eq_bind, Option.bind_some]
    refine DmStore.setNode_eq_some.mpr ⟨t, ht, ?_⟩
    rw [hsame, hput ht]

/-- Only the setter of a netmask refuses a value, before it has touched anything. -/
theorem assign_failed {undef a : ℕ} {e : DmElement} {l : Loc} {val : DmValue} {r : DmResult}
    (h : assign undef st e a l val = some ((r, st'), sigs)) (hr : r ≠ .ok) : st' = st ∧ sigs = [] := by
  simp only [assign, Store.assign, Option.bind_eq_bind, Option.bind_eq_some_iff, Prod.exists, Option.some.injEq,
    Prod.mk.injEq] at h
  obtain ⟨r', st1, h, ⟨rfl, rfl⟩, rfl⟩ := h
  cases hset : e.set with
  | none =>
    rw [hset] at h
    simp only [Option.bind_eq_some_iff, Option.some.injEq, Prod.mk.injEq] at h
    obtain ⟨_, _, _, _, rfl, _⟩ := h
    exact absurd rfl hr
  | some hook =>
    rw [hset] at h
    cases hook with
    | clockCurrentdatetime =>
      simp only [SetHook.run, Option.bind_eq_bind, Option.bind_eq_some_iff, Option.some.injEq, Prod.mk.injEq] at h
      obtain ⟨_, _, rfl, _⟩ := h
      exact absurd rfl hr
    | addressPrefixlength read update =>
      simp only [SetHook.run, Option.bind_eq_bind, Option.bind_eq_some_iff, Option.some.injEq, Prod.mk.injEq] at h
      obtain ⟨_, _, _, _, rfl, _⟩ := h
      exact absurd rfl hr
    | addressNetmask update =>
      simp only [SetHook.run] at h
      split at h
      · simp only [Option.bind_eq_bind, Option.bind_eq_some_iff, Option.some.injEq, Prod.mk.injEq] at h
        obtain ⟨_, _, _, _, _, _, _, _, rfl, _⟩ := h
        exact absurd rfl hr
      · rename_i hstr
        cases h
        refine ⟨rfl, ?_⟩
        have hnone : derivedField e val = none := by
          rw [derivedField, hset, Option.bind_some]
          unfold SetHook.derived
          dsimp only
          split
          · rename_i s hs
            exact absurd hs (hstr s)
          · rfl
        rw [derivedSignals, hnone]

theorem overwriteValue_failed {undef : ℕ} {sel : Selector} {val : DmValue} {slot : ℤ} {r : DmResult}
    (h : overwriteValue undef S st sel val slot = some ((r, st'), sigs)) (hr : r ≠ .ok) :
    st' = st ∧ sigs = [] := by
  simp only [overwriteValue, Option.bind_eq_bind, Option.bind_eq_some_iff] at h
  obtain ⟨ref, _, h⟩ := h
  cases ref with
  | none =>
    cases h
    exact ⟨rfl, rfl⟩
  | some ref =>
    dsimp only at h
    split at h
    · cases h
    · simp only [Option.bind_eq_some_iff, Prod.exists] at h
      obtain ⟨old, hold, u, hp, r1, st1, sigs1, h1, v, hv, st2, h2, h⟩ := h
      have hp : old.parity = true := (parityAssert_eq old u).mp hp
      split at h
      · rename_i hok
        simp only [Option.bind_eq_some_iff, Option.some.injEq, Prod.mk.injEq] at h
        obtain ⟨_, _, _, _, _, _, ⟨rfl, _⟩, _⟩ := h
        exact absurd hok.1 hr
      · cases h
        obtain ⟨rfl, rfl⟩ := assign_failed h1 hr
        -- the parity that is put right was right
        rw [hold] at hv
        cases hv
        have hsame : { old with parity := true } = old := by rw [← hp]
        rw [hsame, setValue_same hold] at h2
        cases h2
        exact ⟨rfl, rfl⟩

theorem setCb_failed {slot : ℤ} {cache cache' : Cache} {flags : ℕ} {sel : Selector} {ref : Ref} {avp : Avp}
    {r : SetResult} (href : st.getElementRef env.schema sel = some (some ref))
    (h : setCb env slot st cache flags sel ref avp = some ((r, st', cache'), sigs)) (hr : r ≠ .ok) :
    cache' = cache ∧ sigs.all rearranges = true ∧
      (bypasses env.schema sel avp = false → st' = st ∧ sigs = []) ∧
      (HeapWf False nowhere env.schema st → Around env.schema (selIds sel) st st') := by
  unfold setCb at h
  split at h
  · rename_i harr
    simp only [Option.bind_eq_bind, Option.bind_eq_some_iff, Prod.exists, Option.some.injEq, Prod.mk.injEq] at h
    obtain ⟨r1, st1, sigs1, h1, ⟨rfl, rfl, rfl⟩, rfl⟩ := h
    have hstore := map_fst_some (setArray_store env st sel ref.elem ref.value avp) h1
    refine ⟨rfl, setArray_rearranges h1, ?_, fun hw => setArray_around hw href harr hstore⟩
    intro hby
    unfold setArray at h1
    simp only [Option.bind_eq_bind, Option.bind_eq_some_iff] at h1
    obtain ⟨v, hv, h1⟩ := h1
    split at h1
    · cases h1
      exact ⟨rfl, rfl⟩
    rename_i hcheck
    split at h1
    · cases h1
      exact ⟨rfl, rfl⟩
    rename_i hname
    have htrue := bypasses_of_checks harr href hv hcheck hname
    rw [hby] at htrue
    cases htrue
  · split at h
    · cases h
      exact ⟨rfl, rfl, fun _ => ⟨rfl, rfl⟩, fun _ => Around.refl _ _ _⟩
    · split at h
      · simp only [Option.bind_eq_bind, Option.bind_eq_some_iff, Option.some.injEq, Prod.mk.injEq] at h
        obtain ⟨_, _, _, _, ⟨rfl, _⟩, _⟩ := h
        exact absurd rfl hr
      · simp only [Option.bind_eq_bind, Option.bind_eq_some_iff, Prod.exists, Option.some.injEq, Prod.mk.injEq] at h
        obtain ⟨r1, st1, sigs1, h1, ⟨rfl, rfl, rfl⟩, rfl⟩ := h
        have hr1 : r1 ≠ .ok := by
          intro hok
          rw [if_pos hok] at hr
          exact hr rfl
        obtain ⟨rfl, rfl⟩ := overwriteValue_failed h1 hr1
        exact ⟨rfl, rfl, fun _ => ⟨rfl, rfl⟩, fun _ => Around.refl _ _ _⟩

/-! ## The request -/

/-- A number that is there, and a path that leads nowhere. -/
def sampleFailing : List (Selector × Avp) := [([1], sampleAvp 3), ([4, 7], sampleAvp 3)]

theorem sampleStore_wf : StateWf False sampleEnv sampleStore [] :=
  ⟨init_wf rfl, fun x hx => absurd hx List.not_mem_nil⟩

end Mand.Signal
