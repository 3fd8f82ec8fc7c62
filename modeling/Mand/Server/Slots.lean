import Mathlib

/-! # Notification slots

`alloc_slot` and `free_slot` of `dm_notify.c` and the requests of `dm_dmconfig.c` that use them. A slot
number is kept in the map, in the slot table and in the context of its owner. -/
namespace Mand.Server
set_option autoImplicit false

/-- `slot_map`, `slot_cnt` and the `data` of `slots`, as the key of a context. -/
structure Slots where
  map : BitVec 16
  cnt : ℤ
  data : ℕ → Option ℕ

/-- `ffs(~slot_map) - 1`; the map is promoted to an `int`, so there is always a bit to find. -/
def firstFree (map : BitVec 16) : ℕ :=
  ((List.range 17).find? fun i => map.getLsbD i = false).getD 16

/-- `alloc_slot`. Beyond the table there is no slot to write. -/
def allocSlot (t : Slots) (data : ℕ) : Option (ℤ × Slots) :=
  if 16 ≤ t.cnt then some (-1, t)
  else
    let slot := firstFree t.map
    if 16 ≤ slot then none
    else some (slot, ⟨t.map ||| 1#16 <<< slot, t.cnt + 1, Function.update t.data slot (some data)⟩)

/-- `free_slot`. -/
def freeSlot (t : Slots) (slot : ℤ) : Slots :=
  if slot < 1 ∨ 15 < slot then t
  else if t.map.getLsbD slot.toNat = false then t
  else ⟨t.map &&& ~~~(1#16 <<< slot.toNat), t.cnt - 1, Function.update t.data slot.toNat none⟩

/-- The part of a `SOCKCONTEXT` that the slots are about. -/
structure Subscriber where
  key : ℕ
  notifySlot : ℤ
  deriving DecidableEq, Repr

structure Subscriptions where
  slots : Slots
  ctxs : List Subscriber

def Subscriptions.init : Subscriptions := ⟨⟨1, 1, fun _ => none⟩, []⟩

def Subscriptions.ctx (s : Subscriptions) (key : ℕ) : Option Subscriber :=
  s.ctxs.find? fun c => c.key = key

def Subscriptions.setCtx (s : Subscriptions) (c : Subscriber) : Subscriptions :=
  { s with ctxs := s.ctxs.map fun d => if d.key = c.key then c else d }

inductive SlotEvent
  /-- `accept_cb` for a connection whose context is at a place that no live context has -/
  | accept (key : ℕ)
  | subscribe (key : ℕ)
  | unsubscribe (key : ℕ)
  /-- `end_session`, on request, on a timeout or because the connection is lost -/
  | close (key : ℕ)
  deriving DecidableEq, Repr

/-- `rpc_subscribe_notify`. -/
def subscribeNotify (s : Subscriptions) (c : Subscriber) : Option Subscriptions :=
  if c.notifySlot ≠ 0 then some s
  else do
    let (slot, t) ← allocSlot s.slots c.key
    some ({ s with slots := t }.setCtx { c with notifySlot := slot })

/-- `rpc_unsubscribe_notify`. -/
def unsubscribeNotify (s : Subscriptions) (c : Subscriber) : Subscriptions :=
  if c.notifySlot = 0 then s else { s with slots := freeSlot s.slots c.notifySlot }

/-- What `end_session` does with the slot and the context. -/
def endSubscriber (s : Subscriptions) (c : Subscriber) : Subscriptions :=
  ⟨if c.notifySlot ≠ 0 then freeSlot s.slots c.notifySlot else s.slots,
    s.ctxs.filter fun d => d.key ≠ c.key⟩

def slotStep (s : Subscriptions) : SlotEvent → Option Subscriptions
  | .accept key =>
    if (s.ctx key).isSome = true then none else some { s with ctxs := s.ctxs ++ [⟨key, 0⟩] }
  | .subscribe key => do
    let c ← s.ctx key
    subscribeNotify s c
  | .unsubscribe key => do
    let c ← s.ctx key
    some (unsubscribeNotify s c)
  | .close key => do
    let c ← s.ctx key
    some (endSubscriber s c)

def slotRun : Subscriptions → List SlotEvent → Option Subscriptions
  | s, [] => some s
  | s, ev :: evs => do
    let s ← slotStep s ev
    slotRun s evs

/-! ## Ownership -/

/-- The context with the number of a slot is the one in the slot table. -/
def Slots.ownedBy (t : Slots) (c : Subscriber) (i : ℕ) : Prop :=
  c.notifySlot = i ∧ t.map.getLsbD i = true ∧ t.data i = some c.key

/-- Every allocated slot has one context, its owner, and every context has no slot or one it owns. -/
structure SlotsOwned (s : Subscriptions) : Prop where
  owner : ∀ i, 1 ≤ i → i ≤ 15 → s.slots.map.getLsbD i = true →
    (∃! c, c ∈ s.ctxs ∧ c.notifySlot = i) ∧
      ∀ c ∈ s.ctxs, c.notifySlot = i → s.slots.data i = some c.key
  owned : ∀ c ∈ s.ctxs, c.notifySlot = 0 ∨ ∃ i, 1 ≤ i ∧ i ≤ 15 ∧ s.slots.ownedBy c i

/-- Whether a request leaves the number of a slot behind: an unsubscribe does not clear it in the
context, and a subscribe that finds no slot stores the error. -/
def KeepsSlots (s : Subscriptions) : SlotEvent → Prop
  | .unsubscribe key => ∀ c, s.ctx key = some c → c.notifySlot = 0
  | .subscribe key => ∀ c, s.ctx key = some c → c.notifySlot = 0 → s.slots.cnt < 16
  | _ => True

def setBits (map : BitVec 16) : Finset ℕ := (Finset.range 16).filter fun i => map.getLsbD i = true

/-- What holds however the slots are used. -/
structure SlotInv (s : Subscriptions) : Prop where
  cnt : s.slots.cnt = (setBits s.slots.map).card
  zero : s.slots.map.getLsbD 0 = true
  nodup : (s.ctxs.map Subscriber.key).Nodup

/-! ## The map -/

theorem getLsbD_alloc (map : BitVec 16) (slot i : ℕ) (hs : slot < 16) :
    (map ||| 1#16 <<< slot).getLsbD i = (map.getLsbD i || decide (i = slot)) := by
  rw [BitVec.getLsbD_or, ← BitVec.twoPow_eq, BitVec.getLsbD_twoPow]
  congr 1
  by_cases h : i = slot
  · simp [h, hs]
  · simp [h, Ne.symm h]

theorem getLsbD_free (map : BitVec 16) (slot i : ℕ) :
    (map &&& ~~~(1#16 <<< slot)).getLsbD i = (map.getLsbD i && decide (i ≠ slot)) := by
  rw [BitVec.getLsbD_and, BitVec.getLsbD_not, ← BitVec.twoPow_eq, BitVec.getLsbD_twoPow]
  by_cases hi : i < 16
  · by_cases h : i = slot
    · subst h; simp [hi]
    · simp [h, hi, Ne.symm h]
  · simp [BitVec.getLsbD_of_ge map i (by omega)]

theorem setBits_alloc (map : BitVec 16) (slot : ℕ) (hs : slot < 16)
    (hf : map.getLsbD slot = false) :
    (setBits (map ||| 1#16 <<< slot)).card = (setBits map).card + 1 := by
  have h : setBits (map ||| 1#16 <<< slot) = insert slot (setBits map) := by
    ext i
    simp only [setBits, Finset.mem_filter, Finset.mem_insert, Finset.mem_range,
      getLsbD_alloc map slot i hs, Bool.or_eq_true, decide_eq_true_eq]
    constructor
    · tauto
    · intro h
      obtain h | h := h
      · exact ⟨by omega, .inr h⟩
      · exact ⟨h.1, .inl h.2⟩
  rw [h, Finset.card_insert_of_notMem]
  simp [setBits, hf]

theorem setBits_free (map : BitVec 16) (slot : ℕ) (hs : slot < 16)
    (hf : map.getLsbD slot = true) :
    (setBits (map &&& ~~~(1#16 <<< slot))).card + 1 = (setBits map).card := by
  have h : setBits (map &&& ~~~(1#16 <<< slot)) = (setBits map).erase slot := by
    ext i
    simp only [setBits, Finset.mem_filter, Finset.mem_erase, Finset.mem_range,
      getLsbD_free map slot i, Bool.and_eq_true, decide_eq_true_eq]
    tauto
  rw [h]
  exact Finset.card_erase_add_one (by simp [setBits, hf, hs])

/-- As long as the count has room there is a free bit. -/
theorem firstFree_spec (map : BitVec 16) (h : (setBits map).card < 16) :
    firstFree map < 16 ∧ map.getLsbD (firstFree map) = false := by
  have hex : ∃ i < 16, map.getLsbD i = false := by
    by_contra hc
    have hall : setBits map = Finset.range 16 := by
      apply Finset.filter_true_of_mem
      intro i hi
      by_contra hb
      exact hc ⟨i, Finset.mem_range.1 hi, by simpa using hb⟩
    rw [hall, Finset.card_range] at h
    omega
  obtain ⟨i, hi, hb⟩ := hex
  cases hf : (List.range 17).find? fun i => map.getLsbD i = false with
  | none =>
    have := List.find?_eq_none.1 hf i (List.mem_range.2 (by omega))
    simp [hb] at this
  | some j =>
    have hj : map.getLsbD j = false := by simpa using List.find?_some hf
    have hmin : j ≤ i := by
      by_contra hlt
      rw [List.find?_range_eq_some] at hf
      have := hf.2.2 i (by omega)
      simp [hb] at this
    have hj16 : firstFree map = j := by rw [firstFree, hf, Option.getD_some]
    rw [hj16]
    exact ⟨by omega, hj⟩

/-! ## Contexts -/

theorem subscriber_of_ctx {s : Subscriptions} {key : ℕ} {c : Subscriber} (h : s.ctx key = some c) :
    c ∈ s.ctxs ∧ c.key = key := by
  refine ⟨List.mem_of_find?_eq_some h, ?_⟩
  simpa using List.find?_some h

theorem subscriber_key_inj {l : List Subscriber} (hn : (l.map Subscriber.key).Nodup) {c d : Subscriber}
    (hc : c ∈ l) (hd : d ∈ l) (h : c.key = d.key) : c = d :=
  List.inj_on_of_nodup_map hn hc hd h

theorem subscriber_mem_setCtx {s : Subscriptions} {c d : Subscriber} (hc : ∃ e ∈ s.ctxs, e.key = c.key) :
    d ∈ (s.setCtx c).ctxs ↔ d = c ∨ (d ∈ s.ctxs ∧ d.key ≠ c.key) := by
  simp only [Subscriptions.setCtx, List.mem_map]
  constructor
  · intro h
    obtain ⟨e, he, hd⟩ := h
    by_cases hk : e.key = c.key
    · rw [if_pos hk] at hd
      exact .inl hd.symm
    · rw [if_neg hk] at hd
      subst hd
      exact .inr ⟨he, hk⟩
  · intro h
    obtain h | h := h
    · obtain ⟨e, he, hk⟩ := hc
      exact ⟨e, he, by rw [if_pos hk, h]⟩
    · exact ⟨d, h.1, if_neg h.2⟩

theorem subscriptions_keys_setCtx (s : Subscriptions) (c : Subscriber) :
    (s.setCtx c).ctxs.map Subscriber.key = s.ctxs.map Subscriber.key := by
  simp only [Subscriptions.setCtx, List.map_map]
  apply List.map_congr_left
  intro d _
  by_cases hk : d.key = c.key
  · simp [hk]
  · simp [hk]

/-! ## One step -/

/-- What freeing an allocated slot of the table does. -/
theorem freeSlot_of_set {t : Slots} {i : ℕ} (h1 : 1 ≤ i) (h2 : i ≤ 15) (hb : t.map.getLsbD i = true) :
    freeSlot t i =
      ⟨t.map &&& ~~~(1#16 <<< i), t.cnt - 1, Function.update t.data i none⟩ := by
  have hr : ¬((i : ℤ) < 1 ∨ 15 < (i : ℤ)) := by omega
  rw [freeSlot, if_neg hr, Int.toNat_natCast, if_neg (by rw [hb]; decide)]

/-- Freeing keeps the count, whatever the number is. -/
theorem freeSlot_cnt {t : Slots} (slot : ℤ) (hc : t.cnt = (setBits t.map).card)
    (hz : t.map.getLsbD 0 = true) :
    (freeSlot t slot).cnt = (setBits (freeSlot t slot).map).card ∧
      (freeSlot t slot).map.getLsbD 0 = true := by
  unfold freeSlot
  split
  · exact ⟨hc, hz⟩
  · rename_i hr
    split
    · exact ⟨hc, hz⟩
    · rename_i hb
      have hcard := setBits_free t.map slot.toNat (by omega) (by simpa using hb)
      refine ⟨?_, ?_⟩
      · show t.cnt - 1 = (setBits (t.map &&& ~~~(1#16 <<< slot.toNat))).card
        omega
      · show (t.map &&& ~~~(1#16 <<< slot.toNat)).getLsbD 0 = true
        rw [getLsbD_free, hz]
        simp only [Bool.true_and, decide_eq_true_eq]
        omega

/-- While the count has room, a slot of the table that was free is given out. -/
theorem allocSlot_room {t : Slots} (data : ℕ) (hc : t.cnt = (setBits t.map).card)
    (hz : t.map.getLsbD 0 = true) (hlt : t.cnt < 16) :
    ∃ i : ℕ, 1 ≤ i ∧ i ≤ 15 ∧ t.map.getLsbD i = false ∧
      allocSlot t data =
        some ((i : ℤ), ⟨t.map ||| 1#16 <<< i, t.cnt + 1, Function.update t.data i (some data)⟩) := by
  have hf := firstFree_spec t.map (by omega)
  have hne : firstFree t.map ≠ 0 := by
    intro h0
    rw [h0, hz] at hf
    exact absurd hf.2 (by decide)
  refine ⟨firstFree t.map, by omega, by omega, hf.2, ?_⟩
  rw [allocSlot, if_neg (by omega), if_neg (by omega)]

theorem SlotInv.step {s s' : Subscriptions} {ev : SlotEvent} (hi : SlotInv s)
    (h : slotStep s ev = some s') : SlotInv s' := by
  cases ev with
  | accept key =>
    simp only [slotStep] at h
    split at h
    · cases h
    · rename_i hk
      cases h
      refine ⟨hi.cnt, hi.zero, ?_⟩
      have hnot : key ∉ s.ctxs.map Subscriber.key := by
        intro hm
        obtain ⟨c, hc, rfl⟩ := List.mem_map.1 hm
        apply hk
        rw [Subscriptions.ctx, List.find?_isSome]
        exact ⟨c, hc, by simp⟩
      rw [List.map_append, List.map_singleton]
      exact List.nodup_append.2 ⟨hi.nodup, List.nodup_singleton _, by
        intro a ha b hb hab
        have hb' : b = key := List.mem_singleton.1 hb
        rw [hab, hb'] at ha
        exact hnot ha⟩
  | subscribe key =>
    simp only [slotStep, Option.bind_eq_bind, Option.bind_eq_some_iff] at h
    obtain ⟨c, hc, h⟩ := h
    unfold subscribeNotify at h
    split at h
    · cases h
      exact hi
    · by_cases hlt : s.slots.cnt < 16
      · obtain ⟨i, h1, h2, hf, ha⟩ := allocSlot_room c.key hi.cnt hi.zero hlt
        rw [ha] at h
        cases h
        refine ⟨?_, ?_, ?_⟩
        · show s.slots.cnt + 1 = _
          have := setBits_alloc s.slots.map i (by omega) hf
          rw [hi.cnt]
          exact_mod_cast this.symm
        · show (s.slots.map ||| 1#16 <<< i).getLsbD 0 = true
          rw [getLsbD_alloc _ _ _ (by omega), hi.zero, Bool.true_or]
        · rw [subscriptions_keys_setCtx]
          exact hi.nodup
      · rw [allocSlot, if_pos (by omega)] at h
        cases h
        refine ⟨hi.cnt, hi.zero, ?_⟩
        rw [subscriptions_keys_setCtx]
        exact hi.nodup
  | unsubscribe key =>
    simp only [slotStep, Option.bind_eq_bind, Option.bind_eq_some_iff] at h
    obtain ⟨c, hc, h⟩ := h
    cases h
    unfold unsubscribeNotify
    split
    · exact hi
    · have hf := freeSlot_cnt c.notifySlot hi.cnt hi.zero
      exact ⟨hf.1, hf.2, hi.nodup⟩
  | close key =>
    simp only [slotStep, Option.bind_eq_bind, Option.bind_eq_some_iff] at h
    obtain ⟨c, hc, h⟩ := h
    cases h
    have hn : ((s.ctxs.filter fun d => d.key ≠ c.key).map Subscriber.key).Nodup :=
      hi.nodup.sublist (List.filter_sublist.map _)
    unfold endSubscriber
    split
    · have hf := freeSlot_cnt c.notifySlot hi.cnt hi.zero
      exact ⟨hf.1, hf.2, hn⟩
    · exact ⟨hi.cnt, hi.zero, hn⟩

/-- A context that joins without a slot leaves ownership as it is. -/
theorem SlotsOwned.accept {s : Subscriptions} (ho : SlotsOwned s) (key : ℕ) :
    SlotsOwned { s with ctxs := s.ctxs ++ [⟨key, 0⟩] } := by
  have hmem : ∀ (c : Subscriber) (i : ℕ), 1 ≤ i → c.notifySlot = i →
      (c ∈ s.ctxs ++ [⟨key, 0⟩] ↔ c ∈ s.ctxs) := by
    intro c i h1 hc
    rw [List.mem_append, List.mem_singleton, or_iff_left]
    intro he
    rw [he] at hc
    have hz : (0 : ℤ) = i := hc
    omega
  refine ⟨?_, ?_⟩
  · intro i h1 h2 hb
    obtain ⟨⟨c, ⟨hc, hci⟩, huniq⟩, hdata⟩ := ho.owner i h1 h2 hb
    refine ⟨⟨c, ⟨List.mem_append_left _ hc, hci⟩, ?_⟩, ?_⟩
    · intro d hd
      exact huniq d ⟨(hmem d i h1 hd.2).1 hd.1, hd.2⟩
    · intro d hd hdi
      exact hdata d ((hmem d i h1 hdi).1 hd) hdi
  · intro c hc
    obtain hc | hc := List.mem_append.1 hc
    · exact ho.owned c hc
    · rw [List.mem_singleton] at hc
      rw [hc]
      exact .inl rfl

/-- The context that gets a free slot owns it, and no other context has its number. -/
theorem SlotsOwned.subscribe {s : Subscriptions} (ho : SlotsOwned s) {c : Subscriber}
    (hc : c ∈ s.ctxs) {i : ℕ} (h1 : 1 ≤ i) (h2 : i ≤ 15) (hf : s.slots.map.getLsbD i = false)
    (cnt : ℤ) (hn : (s.ctxs.map Subscriber.key).Nodup) (hz : c.notifySlot = 0) :
    SlotsOwned (Subscriptions.setCtx
      ⟨⟨s.slots.map ||| 1#16 <<< i, cnt, Function.update s.slots.data i (some c.key)⟩, s.ctxs⟩
      { c with notifySlot := i }) := by
  have hmem : ∀ d, d ∈ (Subscriptions.setCtx
      ⟨⟨s.slots.map ||| 1#16 <<< i, cnt, Function.update s.slots.data i (some c.key)⟩, s.ctxs⟩
      { c with notifySlot := i }).ctxs ↔
        d = { c with notifySlot := i } ∨ (d ∈ s.ctxs ∧ d.key ≠ c.key) :=
    fun d => subscriber_mem_setCtx ⟨c, hc, rfl⟩
  have hold : ∀ d ∈ s.ctxs, d.notifySlot ≠ i := by
    intro d hd hdi
    obtain h0 | ⟨j, _, _, hj, hb, _⟩ := ho.owned d hd
    · omega
    · rw [show j = i by omega, hf] at hb
      exact absurd hb (by decide)
  refine ⟨?_, ?_⟩
  · intro j hj1 hj2 hb
    have hb : (s.slots.map ||| 1#16 <<< i).getLsbD j = true := hb
    rw [getLsbD_alloc _ _ _ (by omega), Bool.or_eq_true, decide_eq_true_eq] at hb
    by_cases hji : j = i
    · subst hji
      refine ⟨⟨{ c with notifySlot := j }, ⟨(hmem _).2 (.inl rfl), rfl⟩, ?_⟩, ?_⟩
      · intro d hd
        obtain he | he := (hmem d).1 hd.1
        · exact he
        · exact absurd hd.2 (hold d he.1)
      · intro d hd hdj
        show Function.update s.slots.data j (some c.key) j = some d.key
        rw [Function.update_self]
        obtain he | he := (hmem d).1 hd
        · rw [he]
        · exact absurd hdj (hold d he.1)
    · obtain ⟨⟨e, ⟨he, hej⟩, huniq⟩, hdata⟩ := ho.owner j hj1 hj2 (hb.resolve_right hji)
      have hek : e.key ≠ c.key := by
        intro hk
        have := subscriber_key_inj hn he hc hk
        rw [this] at hej
        omega
      refine ⟨⟨e, ⟨(hmem e).2 (.inr ⟨he, hek⟩), hej⟩, ?_⟩, ?_⟩
      · intro d hd
        obtain h | h := (hmem d).1 hd.1
        · have hd2 := hd.2
          rw [h] at hd2
          have hij : (i : ℤ) = j := hd2
          omega
        · exact huniq d ⟨h.1, hd.2⟩
      · intro d hd hdj
        show Function.update s.slots.data i (some c.key) j = some d.key
        rw [Function.update_of_ne hji]
        obtain h | h := (hmem d).1 hd
        · rw [h] at hdj
          have hij : (i : ℤ) = j := hdj
          omega
        · exact hdata d h.1 hdj
  · intro d hd
    obtain h | h := (hmem d).1 hd
    · right
      refine ⟨i, h1, h2, by rw [h], ?_, ?_⟩
      · show (s.slots.map ||| 1#16 <<< i).getLsbD i = true
        rw [getLsbD_alloc _ _ _ (by omega), decide_eq_true rfl, Bool.or_true]
      · show Function.update s.slots.data i (some c.key) i = some d.key
        rw [Function.update_self, h]
    · obtain h0 | ⟨j, hj1, hj2, hj, hb, hdj⟩ := ho.owned d h.1
      · exact .inl h0
      · have hji : j ≠ i := by
          intro he
          rw [he] at hj
          exact hold d h.1 hj
        refine .inr ⟨j, hj1, hj2, hj, ?_, ?_⟩
        · show (s.slots.map ||| 1#16 <<< i).getLsbD j = true
          rw [getLsbD_alloc _ _ _ (by omega), hb, Bool.true_or]
        · show Function.update s.slots.data i (some c.key) j = some d.key
          rw [Function.update_of_ne hji]
          exact hdj

/-- A context that leaves takes its slot with it. -/
theorem SlotsOwned.close {s : Subscriptions} (ho : SlotsOwned s) {c : Subscriber} (hc : c ∈ s.ctxs)
    (hn : (s.ctxs.map Subscriber.key).Nodup) : SlotsOwned (endSubscriber s c) := by
  have hmem : ∀ d, d ∈ (endSubscriber s c).ctxs ↔ d ∈ s.ctxs ∧ d ≠ c := by
    intro d
    simp only [endSubscriber, List.mem_filter, decide_eq_true_eq]
    constructor
    · intro h
      exact ⟨h.1, fun he => h.2 (by rw [he])⟩
    · intro h
      exact ⟨h.1, fun hk => h.2 (subscriber_key_inj hn h.1 hc hk)⟩
  -- the slots of the others are as they were
  have hslots : ∀ j, 1 ≤ j → j ≤ 15 →
      ((endSubscriber s c).slots.map.getLsbD j = true ↔
        s.slots.map.getLsbD j = true ∧ c.notifySlot ≠ j) ∧
      (c.notifySlot ≠ j → (endSubscriber s c).slots.data j = s.slots.data j) := by
    intro j hj1 hj2
    obtain h0 | ⟨i, h1, h2, hi, hb, _⟩ := ho.owned c hc
    · have hs : (endSubscriber s c).slots = s.slots := by simp [endSubscriber, h0]
      rw [hs, h0]
      have hne : (0 : ℤ) ≠ j := by omega
      simp [hne]
    · have hs : (endSubscriber s c).slots =
          ⟨s.slots.map &&& ~~~(1#16 <<< i), s.slots.cnt - 1, Function.update s.slots.data i none⟩ := by
        have hne : c.notifySlot ≠ 0 := by omega
        simp only [endSubscriber, if_pos hne]
        rw [hi, freeSlot_of_set h1 h2 hb]
      rw [hs, hi]
      refine ⟨?_, ?_⟩
      · show (s.slots.map &&& ~~~(1#16 <<< i)).getLsbD j = true ↔ _
        rw [getLsbD_free, Bool.and_eq_true, decide_eq_true_eq]
        constructor
        · intro h
          exact ⟨h.1, fun he => h.2 (by omega)⟩
        · intro h
          exact ⟨h.1, fun he => h.2 (by rw [he])⟩
      · intro hne
        exact Function.update_of_ne (fun he => hne (by rw [he])) _ _
  refine ⟨?_, ?_⟩
  · intro j hj1 hj2 hb
    obtain ⟨hb, hcj⟩ := (hslots j hj1 hj2).1.1 hb
    obtain ⟨⟨e, ⟨he, hej⟩, huniq⟩, hdata⟩ := ho.owner j hj1 hj2 hb
    refine ⟨⟨e, ⟨(hmem e).2 ⟨he, fun h => hcj (h ▸ hej)⟩, hej⟩, ?_⟩, ?_⟩
    · intro d hd
      exact huniq d ⟨((hmem d).1 hd.1).1, hd.2⟩
    · intro d hd hdj
      rw [(hslots j hj1 hj2).2 hcj]
      exact hdata d ((hmem d).1 hd).1 hdj
  · intro d hd
    have hd := (hmem d).1 hd
    obtain h0 | ⟨j, hj1, hj2, hj, hb, hdj⟩ := ho.owned d hd.1
    · exact .inl h0
    · have hcj : c.notifySlot ≠ j := by
        intro hcj
        obtain ⟨⟨e, _, huniq⟩, _⟩ := ho.owner j hj1 hj2 hb
        exact hd.2 ((huniq d ⟨hd.1, hj⟩).trans (huniq c ⟨hc, hcj⟩).symm)
      exact .inr ⟨j, hj1, hj2, hj, (hslots j hj1 hj2).1.2 ⟨hb, hcj⟩,
        ((hslots j hj1 hj2).2 hcj).trans hdj⟩

/-- One event keeps ownership exactly when it leaves no number behind. -/
theorem slotsOwned_step_iff {s s' : Subscriptions} {ev : SlotEvent} (hi : SlotInv s)
    (ho : SlotsOwned s) (h : slotStep s ev = some s') : SlotsOwned s' ↔ KeepsSlots s ev := by
  cases ev with
  | accept key =>
    simp only [slotStep] at h
    split at h
    · cases h
    · cases h
      exact iff_of_true (ho.accept key) trivial
  | subscribe key =>
    simp only [slotStep, Option.bind_eq_bind, Option.bind_eq_some_iff] at h
    obtain ⟨c, hc, h⟩ := h
    have hmem := subscriber_of_ctx hc
    simp only [KeepsSlots, hc, Option.some.injEq, forall_eq']
    unfold subscribeNotify at h
    split at h
    · rename_i hz
      cases h
      exact iff_of_true ho fun h0 => absurd h0 hz
    · rename_i hz
      have hz : c.notifySlot = 0 := not_not.1 hz
      by_cases hlt : s.slots.cnt < 16
      · obtain ⟨i, h1, h2, hf, ha⟩ := allocSlot_room c.key hi.cnt hi.zero hlt
        rw [ha] at h
        cases h
        exact iff_of_true (ho.subscribe hmem.1 h1 h2 hf _ hi.nodup hz) fun _ => hlt
      · -- the error number is what the context has now
        rw [allocSlot, if_pos (by omega)] at h
        cases h
        refine iff_of_false (fun ho' => ?_) fun h' => hlt (h' hz)
        have hin := (subscriber_mem_setCtx (s := s) (c := { c with notifySlot := -1 })
          (d := { c with notifySlot := -1 }) ⟨c, hmem.1, rfl⟩).2 (.inl rfl)
        obtain h0 | ⟨j, _, _, hj, _⟩ := ho'.owned _ hin
        · have h0 : (-1 : ℤ) = 0 := h0
          omega
        · have hj : (-1 : ℤ) = j := hj
          omega
  | unsubscribe key =>
    simp only [slotStep, Option.bind_eq_bind, Option.bind_eq_some_iff] at h
    obtain ⟨c, hc, h⟩ := h
    cases h
    have hmem := subscriber_of_ctx hc
    simp only [KeepsSlots, hc, Option.some.injEq, forall_eq']
    unfold unsubscribeNotify
    split
    · rename_i hz
      exact iff_of_true ho hz
    · rename_i hz
      -- the context still has the number of the slot it gave back
      refine iff_of_false (fun ho' => ?_) hz
      obtain h0 | ⟨i, h1, h2, hci, hb, _⟩ := ho.owned c hmem.1
      · exact hz h0
      · rw [hci, freeSlot_of_set h1 h2 hb] at ho'
        obtain h0 | ⟨j, _, _, hj, hbj, _⟩ := ho'.owned c hmem.1
        · exact hz h0
        · have hbj : (s.slots.map &&& ~~~(1#16 <<< i)).getLsbD j = true := hbj
          rw [show j = i by omega, getLsbD_free] at hbj
          simp at hbj
  | close key =>
    simp only [slotStep, Option.bind_eq_bind, Option.bind_eq_some_iff] at h
    obtain ⟨c, hc, h⟩ := h
    cases h
    exact iff_of_true (ho.close (subscriber_of_ctx hc).1 hi.nodup) trivial

/-! ## Runs -/

theorem slotRun_append (s : Subscriptions) (evs evs' : List SlotEvent) :
    slotRun s (evs ++ evs') = (slotRun s evs).bind fun t => slotRun t evs' := by
  induction evs generalizing s with
  | nil => rfl
  | cons ev evs ih =>
    simp only [List.cons_append, slotRun, Option.bind_eq_bind, Option.bind_assoc, ih]

theorem slotInv_init : SlotInv Subscriptions.init := ⟨by decide, by decide, List.nodup_nil⟩

theorem slotsOwned_init : SlotsOwned Subscriptions.init := by
  refine ⟨?_, fun c hc => absurd hc List.not_mem_nil⟩
  intro i h1 h2 hb
  have hb : (1#16).getLsbD i = true := hb
  simp at hb
  omega

theorem slotInv_run {evs : List SlotEvent} {s : Subscriptions}
    (h : slotRun Subscriptions.init evs = some s) : SlotInv s := by
  induction evs using List.reverseRecOn generalizing s with
  | nil =>
    cases h
    exact slotInv_init
  | append_singleton evs ev ih =>
    rw [slotRun_append, Option.bind_eq_some_iff] at h
    obtain ⟨t, ht, h⟩ := h
    simp only [slotRun, Option.bind_eq_bind, Option.bind_eq_some_iff] at h
    obtain ⟨t', ht', h⟩ := h
    cases h
    exact (ih ht).step ht'

/-- A request that finds its context is always answered. -/
theorem slotRun_total {evs : List SlotEvent} {s : Subscriptions}
    (h : slotRun Subscriptions.init evs = some s) {key : ℕ} (hk : (s.ctx key).isSome = true) :
    (slotStep s (.subscribe key)).isSome = true := by
  obtain ⟨c, hc⟩ := Option.isSome_iff_exists.1 hk
  have hi := slotInv_run h
  simp only [slotStep, hc, Option.bind_eq_bind, Option.bind_some, subscribeNotify]
  split
  · rfl
  · by_cases hlt : s.slots.cnt < 16
    · obtain ⟨i, _, _, _, ha⟩ := allocSlot_room c.key hi.cnt hi.zero hlt
      rw [ha]
      rfl
    · rw [allocSlot, if_pos (by omega)]
      rfl

/-- Ownership holds in every state of a run exactly when no request of the run leaves the number of a
slot behind. -/
theorem slots_owned_iff (evs : List SlotEvent) :
    (∀ pre s, pre <+: evs → slotRun Subscriptions.init pre = some s → SlotsOwned s) ↔
      ∀ pre ev s s', pre ++ [ev] <+: evs → slotRun Subscriptions.init pre = some s →
        slotStep s ev = some s' → KeepsSlots s ev := by
  have hsnoc : ∀ pre ev s s', slotRun Subscriptions.init pre = some s → slotStep s ev = some s' →
      slotRun Subscriptions.init (pre ++ [ev]) = some s' := by
    intro pre ev s s' hr hs
    simp [slotRun_append, hr, slotRun, hs]
  constructor
  · intro h pre ev s s' hpre hr hs
    have ho := h pre s ((List.prefix_append pre [ev]).trans hpre) hr
    have ho' := h (pre ++ [ev]) s' hpre (hsnoc pre ev s s' hr hs)
    exact (slotsOwned_step_iff (slotInv_run hr) ho hs).1 ho'
  · intro h pre
    induction pre using List.reverseRecOn with
    | nil =>
      intro s _ hr
      cases hr
      exact slotsOwned_init
    | append_singleton pre ev ih =>
      intro s' hpre hr
      rw [slotRun_append, Option.bind_eq_some_iff] at hr
      obtain ⟨s, hs, hr⟩ := hr
      simp only [slotRun, Option.bind_eq_bind, Option.bind_eq_some_iff] at hr
      obtain ⟨t, ht, hr⟩ := hr
      cases hr
      have ho := ih s ((List.prefix_append pre [ev]).trans hpre) hs
      exact (slotsOwned_step_iff (slotInv_run hs) ho ht).2 (h pre ev s s' hpre hs ht)

/-- A client that unsubscribes keeps the number of the slot, which the next client gets. -/
theorem unsubscribe_keeps_number :
    ∃ s, slotRun Subscriptions.init
        [.accept 1, .subscribe 1, .unsubscribe 1, .accept 2, .subscribe 2] = some s ∧
      s.ctxs = [⟨1, 1⟩, ⟨2, 1⟩] ∧ s.slots.data 1 = some 2 ∧ ¬SlotsOwned s := by
  refine ⟨_, rfl, by decide, by decide, fun h => ?_⟩
  obtain h0 | ⟨i, _, _, hi, _, hd⟩ := h.owned ⟨1, 1⟩ (by decide)
  · exact absurd h0 (by decide)
  · have hi : (1 : ℤ) = i := hi
    rw [show i = 1 by omega] at hd
    exact absurd hd (by decide)

end Mand.Server
