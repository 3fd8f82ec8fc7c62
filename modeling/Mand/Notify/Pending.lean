import Mand.Notify.Queue

/-! # The flag of pending notifications

An item that a callback has not seen yet is found by the next `exec_pending_notifications` only if
`notify_pending` is set. `notify_sel` sets it for new items, not for items whose level rises. -/
namespace Mand.Notify
open Mand.Store Mand.Index Mand.Msg Mand.Server
set_option autoImplicit false

/-! ## Queues -/

theorem notifyCompare_comparison : Keyed.Comparison notifyCompare :=
  (Index.dmSelcmp_preorder dmSelectorLen).comap NotifyItem.sb

def QueueOrdered (queue : List NotifyItem) : Prop := Keyed.Ordered notifyCompare queue

theorem QueueOrdered.put {queue : List NotifyItem} (h : QueueOrdered queue) (item : NotifyItem) :
    QueueOrdered (putItem queue item) := by
  have hover : ∀ a b c : NotifyItem, notifyCompare (a.over b) c = notifyCompare b c ∧
      notifyCompare c (a.over b) = notifyCompare c b := fun _ _ _ => ⟨rfl, rfl⟩
  exact Keyed.Ordered.upsert notifyCompare_comparison hover h item

theorem QueueOrdered.mem_put {queue : List NotifyItem} (h : QueueOrdered queue) {item x : NotifyItem} :
    x ∈ putItem queue item ↔ (findItem queue item = none ∧ x = item) ∨
      (∃ old, findItem queue item = some old ∧ x = item.over old) ∨
      (x ∈ queue ∧ notifyCompare item x ≠ 0) :=
  Keyed.Ordered.mem_upsert notifyCompare_comparison h

/-- The items that are left are items of the queue, those of other levels among them. -/
theorem buildNotifyEvents_sublist {put : NotifyItem → Dm2Request → Call} {level : ℕ} {queue queue' : List NotifyItem}
    {req req' : Dm2Request} {rc : Rc} (h : buildNotifyEvents put level queue req = some (rc, queue', req')) :
    queue'.Sublist queue ∧ ∀ item ∈ queue, item.level ≠ level → item ∈ queue' := by
  induction queue generalizing queue' req with
  | nil =>
    cases h
    exact ⟨List.Sublist.refl _, fun _ hi _ => hi⟩
  | cons item queue ih =>
    unfold buildNotifyEvents at h
    split at h
    · obtain ⟨⟨rc1, queue1, req1⟩, h1, h⟩ := Option.bind_eq_some_iff.mp h
      cases h
      obtain ⟨hsub, hkeep⟩ := ih h1
      refine ⟨hsub.cons_cons item, ?_⟩
      intro x hx hne
      rcases List.mem_cons.mp hx with rfl | hx
      · exact List.mem_cons_self
      · exact List.mem_cons_of_mem item (hkeep x hx hne)
    · rename_i hlevel
      split at h
      · cases h
      · obtain ⟨hsub, hkeep⟩ := ih h
        refine ⟨hsub.cons item, ?_⟩
        intro x hx hne
        rcases List.mem_cons.mp hx with rfl | hx
        · exact absurd hne hlevel
        · exact hkeep x hx hne
      · cases h
        exact ⟨List.Sublist.refl _, fun _ hi _ => hi⟩

theorem dmconfigNotifyCb_sublist {A : Talloc} {put : NotifyItem → Dm2Request → Call} {queue queue' : List NotifyItem}
    {sent : Option Dm2Request} (h : dmconfigNotifyCb A put queue = some (queue', sent)) : queue'.Sublist queue := by
  unfold dmconfigNotifyCb at h
  obtain ⟨⟨rc0, req0⟩, -, h⟩ := Option.bind_eq_some_iff.mp h
  split at h
  · obtain ⟨⟨rc1, queue1, req1⟩, h1, h⟩ := Option.bind_eq_some_iff.mp h
    have hsub := (buildNotifyEvents_sublist h1).1
    split at h
    · obtain ⟨⟨rc2, req2⟩, -, h⟩ := Option.bind_eq_some_iff.mp h
      split at h <;> cases h <;> simp_all
    · cases h
      simp_all
  · cases h
    exact List.Sublist.refl _

/-- One turn of the loop of `exec_pending_notifications`. -/
theorem execSlot_spec {A : Talloc} {put : NotifyItem → Dm2Request → Call} {s s' : Notifier × List (ℕ × Dm2Request)}
    {i : ℕ} (h : execSlot A put s i = some s') :
    s'.1.slots = s.1.slots ∧ ∀ j, (s'.1.queue j).Sublist (s.1.queue j) := by
  obtain ⟨n, out⟩ := s
  have hupdate : ∀ (k : ℕ) (q : List NotifyItem), q.Sublist (n.queue k) →
      ∀ j, (Function.update n.queue k q j).Sublist (n.queue j) := by
    intro k q hq j
    by_cases hj : j = k
    · subst hj
      rw [Function.update_self]
      exact hq
    · rw [Function.update_of_ne hj]
  unfold execSlot at h
  simp only at h
  split at h
  · cases h
    exact ⟨rfl, fun _ => List.Sublist.refl _⟩
  split at h
  · cases h
    exact ⟨rfl, hupdate 0 [] (List.nil_sublist _)⟩
  · obtain ⟨key, -, h⟩ := Option.bind_eq_some_iff.mp h
    obtain ⟨⟨q, sent⟩, hcb, h⟩ := Option.bind_eq_some_iff.mp h
    cases h
    exact ⟨rfl, hupdate i q (dmconfigNotifyCb_sublist hcb)⟩

/-- What is left after `exec_pending_notifications`. -/
theorem execPending_spec {A : Talloc} {put : NotifyItem → Dm2Request → Call} {n n' : Notifier}
    {out : List (ℕ × Dm2Request)} (h : execPendingNotifications A put n = some (n', out)) :
    n'.slots = n.slots ∧ (∀ j, (n'.queue j).Sublist (n.queue j)) ∧ n'.pending = false := by
  unfold execPendingNotifications at h
  split at h
  · cases h
    exact ⟨rfl, fun _ => List.Sublist.refl _, ‹_›⟩
  · obtain ⟨⟨n1, out1⟩, hrun, h⟩ := Option.bind_eq_some_iff.mp h
    cases h
    have hkeep := Run.run_keeps (P := fun s : Notifier × List (ℕ × Dm2Request) =>
      s.1.slots = n.slots ∧ ∀ j, (s.1.queue j).Sublist (n.queue j)) ?_ hrun
      ⟨rfl, fun _ => List.Sublist.refl _⟩
    · exact ⟨hkeep.1, hkeep.2, rfl⟩
    · intro s i s' hs ⟨hslots, hsub⟩
      obtain ⟨hslots', hsub'⟩ := execSlot_spec hs
      exact ⟨hslots'.trans hslots, fun j => (hsub' j).trans (hsub j)⟩

/-! ## Runs -/

/-- What `notify_sel`, the flush, the requests and the slot functions are called with. A mask of levels
comes with every value, and what an item is written as with every flush. -/
inductive QueueEvent
  | notify (slot : ℤ) (sel : Selector) (id : ℕ) (value : DmValue) (type : NotifyType)
  | notifySel (slot : ℤ) (sel : Selector) (value : DmValue) (type : NotifyType)
  | exec (A : Talloc) (put : NotifyItem → Dm2Request → Call)
  | getPassive (slot : ℕ) (put : NotifyItem → Dm2Request → Call) (answer : Dm2Request)
  | alloc (data : ℕ)
  | free (slot : ℤ)

/-- The queues, and whether the callback of a slot has seen the item of a selector since it got its
level. -/
structure Watched where
  n : Notifier
  offered : ℕ → Selector → Bool

/-- `notify_sel` with a level that an item has not had starts over. -/
def offerSel (w : Watched) (slot : ℤ) (sel : Selector) (value : DmValue) (type : NotifyType) :
    ℕ → Selector → Bool := fun i s =>
  if served slot value.notify i = true ∧ s = selIds sel then
    let item := NotifyItem.mk (levelOf value.notify i) sel type value
    (findItem (w.n.queue i) item).any (fun old => old.level = item.level) && w.offered i s
  else w.offered i s

def queueStep (w : Watched) : QueueEvent → Option Watched
  | .notify slot sel id value type =>
    some ⟨notify w.n slot sel id value type, offerSel w slot (dmSelcat sel id) value type⟩
  | .notifySel slot sel value type => some ⟨notifySel w.n slot sel value type, offerSel w slot sel value type⟩
  | .exec A put => do
    let (n, _) ← execPendingNotifications A put w.n
    some ⟨n, fun i s => if w.n.pending = true ∧ w.n.hasCb i = true then true else w.offered i s⟩
  | .getPassive slot put answer => do
    let (_, n, _) ← getPassiveNotifications put w.n slot answer
    some { w with n := n }
  | .alloc data => do
    let (_, n) ← allocNotifySlot w.n data
    some { w with n := n }
  | .free slot => some { w with n := freeNotifySlot w.n slot }

/-- An active item of an allocated slot that its callback has not seen is pending. -/
def Covered (w : Watched) : Prop :=
  ∀ i < 16, w.n.slots.map.getLsbD i = true → ∀ item ∈ w.n.queue i, item.level = activeNotify →
    w.offered i (selIds item.sb) = false → w.n.pending = true

/-- If the level of an item rises to the active one, the flag is set, or another slot gets a new item. -/
def KeepsPendingSel (n : Notifier) (slot : ℤ) (sel : Selector) (value : DmValue) (type : NotifyType) : Prop :=
  let item := fun i => NotifyItem.mk (levelOf value.notify i) sel type value
  (∃ i < 16, n.slots.map.getLsbD i = true ∧ served slot value.notify i = true ∧
      levelOf value.notify i = activeNotify ∧
      ∃ old, findItem (n.queue i) (item i) = some old ∧ old.level ≠ activeNotify) →
    n.pending = true ∨ ∃ j < 16, served slot value.notify j = true ∧ findItem (n.queue j) (item j) = none

def KeepsPending (n : Notifier) : QueueEvent → Prop
  | .notify slot sel id value type => KeepsPendingSel n slot (dmSelcat sel id) value type
  | .notifySel slot sel value type => KeepsPendingSel n slot sel value type
  | .alloc _ => n.slots.cnt < 16 → ∀ item ∈ n.queue (firstFree n.slots.map), item.level = activeNotify →
    n.pending = true
  | _ => True

/-! ## One call of `notify_sel` -/

section Sel
variable {n : Notifier} {slot : ℤ} {sel : Selector} {value : DmValue} {type : NotifyType}

theorem served_ne_zero {i : ℕ} (h : served slot value.notify i = true) : value.notify ≠ 0 := by
  intro hz
  simp [served, levelOf, hz] at h

theorem notifySel_slots : (notifySel n slot sel value type).slots = n.slots := by
  unfold notifySel
  split <;> rfl

theorem notifySel_queue (i : ℕ) : (notifySel n slot sel value type).queue i =
    if served slot value.notify i = true then putItem (n.queue i) ⟨levelOf value.notify i, sel, type, value⟩
    else n.queue i := by
  unfold notifySel
  by_cases hz : value.notify = 0
  · rw [if_pos hz, if_neg fun h => served_ne_zero h hz]
  · rw [if_neg hz]

theorem notifySel_pending : (notifySel n slot sel value type).pending = true ↔ n.pending = true ∨
    ∃ j < 16, served slot value.notify j = true ∧
      findItem (n.queue j) ⟨levelOf value.notify j, sel, type, value⟩ = none := by
  unfold notifySel
  by_cases hz : value.notify = 0
  · rw [if_pos hz]
    constructor
    · exact .inl
    · rintro (h | ⟨j, -, hs, -⟩)
      · exact h
      · exact absurd hz (served_ne_zero hs)
  · rw [if_neg hz]
    simp only [Bool.or_eq_true, List.any_eq_true, List.mem_range, Bool.and_eq_true, Option.isNone_iff_eq_none]

theorem notify_eq {id : ℕ} : notify n slot sel id value type = notifySel n slot (dmSelcat sel id) value type := by
  unfold notify
  split
  · rename_i hz
    unfold notifySel
    rw [if_pos hz]
  · rfl

end Sel

theorem notifyCompare_selIds {a b : NotifyItem} : notifyCompare a b = 0 ↔ selIds a.sb = selIds b.sb :=
  dmSelcmp_eq_zero dmSelectorLen a.sb b.sb

/-! ## One step -/

/-- What holds however the slots are used: the queue of a slot without a callback has not been seen. -/
structure WatchInv (w : Watched) : Prop where
  ordered : ∀ i, QueueOrdered (w.n.queue i)
  cb : ∀ i < 16, w.n.hasCb i = w.n.slots.map.getLsbD i
  unseen : ∀ i < 16, w.n.hasCb i = false → ∀ item ∈ w.n.queue i, item.level = activeNotify →
    w.offered i (selIds item.sb) = false

section Step
variable {w w' : Watched} {slot : ℤ} {sel : Selector} {value : DmValue} {type : NotifyType}

/-- An item that `notify_sel` leaves in a queue: one that was there, or one with the new level that starts
over unless it had that level. -/
theorem mem_notifySel (hi : WatchInv w) {i : ℕ} {x : NotifyItem}
    (hx : x ∈ (notifySel w.n slot sel value type).queue i) :
    (x ∈ w.n.queue i ∧ offerSel w slot sel value type i (selIds x.sb) = w.offered i (selIds x.sb)) ∨
    (served slot value.notify i = true ∧ x.level = levelOf value.notify i ∧
      ((findItem (w.n.queue i) ⟨levelOf value.notify i, sel, type, value⟩ = none ∧
        offerSel w slot sel value type i (selIds x.sb) = false) ∨
      ∃ old, findItem (w.n.queue i) ⟨levelOf value.notify i, sel, type, value⟩ = some old ∧
        offerSel w slot sel value type i (selIds x.sb) =
          (decide (old.level = levelOf value.notify i) && w.offered i (selIds old.sb)))) := by
  rw [notifySel_queue] at hx
  by_cases hs : served slot value.notify i = true
  · rw [if_pos hs] at hx
    rcases (hi.ordered i).mem_put.mp hx with ⟨hf, rfl⟩ | ⟨old, hf, rfl⟩ | ⟨hx, hne⟩
    · refine .inr ⟨hs, rfl, .inl ⟨hf, ?_⟩⟩
      simp only [offerSel, hs, hf, true_and, if_true, Option.any_none, Bool.false_and]
    · have hsel : selIds old.sb = selIds sel := (notifyCompare_selIds.mp (Keyed.find_eq hf)).symm
      refine .inr ⟨hs, rfl, .inr ⟨old, hf, ?_⟩⟩
      simp only [offerSel, NotifyItem.over, hs, hf, hsel, true_and, if_true, Option.any_some]
    · have hsel : selIds x.sb ≠ selIds sel := fun h => hne (notifyCompare_selIds.mpr h.symm)
      refine .inl ⟨hx, ?_⟩
      simp only [offerSel, hsel, and_false, if_false]
  · rw [if_neg hs] at hx
    refine .inl ⟨hx, ?_⟩
    unfold offerSel
    rw [if_neg fun h => hs h.1]

theorem WatchInv.notifySel (hi : WatchInv w) :
    WatchInv ⟨notifySel w.n slot sel value type, offerSel w slot sel value type⟩ := by
  have hcb : ∀ i, (Notify.notifySel w.n slot sel value type).hasCb i = w.n.hasCb i := by
    intro i
    unfold Notifier.hasCb
    rw [notifySel_slots]
  refine ⟨?_, ?_, ?_⟩
  · intro i
    show QueueOrdered ((Notify.notifySel w.n slot sel value type).queue i)
    rw [notifySel_queue]
    split
    · exact (hi.ordered i).put _
    · exact hi.ordered i
  · intro i h16
    show (Notify.notifySel w.n slot sel value type).hasCb i = _
    rw [hcb, notifySel_slots]
    exact hi.cb i h16
  · intro i h16 hno x hx hlevel
    have hno : w.n.hasCb i = false := (hcb i).symm.trans hno
    show offerSel w slot sel value type i (selIds x.sb) = false
    rcases mem_notifySel hi hx with ⟨hx, ho⟩ | ⟨-, hl, ⟨-, ho⟩ | ⟨old, hf, ho⟩⟩
    · rw [ho]
      exact hi.unseen i h16 hno x hx hlevel
    · exact ho
    · rw [ho]
      by_cases hold : old.level = levelOf value.notify i
      · rw [hi.unseen i h16 hno old (Keyed.find_mem hf) (hold.trans (hl.symm.trans hlevel)), Bool.and_false]
      · rw [decide_eq_false hold, Bool.false_and]

theorem covered_notifySel_iff (hi : WatchInv w) (hc : Covered w) :
    Covered ⟨notifySel w.n slot sel value type, offerSel w slot sel value type⟩ ↔
      KeepsPendingSel w.n slot sel value type := by
  constructor
  · rintro h ⟨i, h16, hbit, hs, hlevel, old, hf, hold⟩
    rw [← notifySel_pending]
    have hmem : NotifyItem.over ⟨levelOf value.notify i, sel, type, value⟩ old ∈
        (notifySel w.n slot sel value type).queue i := by
      rw [notifySel_queue, if_pos hs]
      exact (hi.ordered i).mem_put.mpr (.inr (.inl ⟨old, hf, rfl⟩))
    have hsel : selIds old.sb = selIds sel := (notifyCompare_selIds.mp (Keyed.find_eq hf)).symm
    refine h i h16 (by rw [notifySel_slots]; exact hbit) _ hmem hlevel ?_
    have hne : ¬old.level = levelOf value.notify i := fun he => hold (he.trans hlevel)
    simp only [offerSel, NotifyItem.over, hs, hf, hsel, true_and, if_true, Option.any_some, hne, decide_false,
      Bool.false_and]
  · intro h i h16 hbit x hx hlevel hoff
    refine notifySel_pending.mpr ?_
    rw [notifySel_slots] at hbit
    have hoff : offerSel w slot sel value type i (selIds x.sb) = false := hoff
    rcases mem_notifySel hi hx with ⟨hx, ho⟩ | ⟨hs, hl, ⟨hf, -⟩ | ⟨old, hf, ho⟩⟩
    · rw [ho] at hoff
      exact .inl (hc i h16 hbit x hx hlevel hoff)
    · exact .inr ⟨i, h16, hs, hf⟩
    · by_cases hold : old.level = activeNotify
      · -- an item that was active and unseen before is covered already
        rw [ho, decide_eq_true (hold.trans (hlevel.symm.trans hl)), Bool.true_and] at hoff
        exact .inl (hc i h16 hbit old (Keyed.find_mem hf) hold hoff)
      · exact h ⟨i, h16, hbit, hs, hl.symm.trans hlevel, old, hf, hold⟩

theorem QueueOrdered.sublist {q q' : List NotifyItem} (h : QueueOrdered q) (hs : q'.Sublist q) : QueueOrdered q' :=
  List.Pairwise.sublist hs h

/-- Fewer items, and the same slots. -/
theorem WatchInv.fewer (hi : WatchInv w) {n : Notifier} (hslots : n.slots = w.n.slots)
    (hsub : ∀ i, (n.queue i).Sublist (w.n.queue i)) {offered : ℕ → Selector → Bool}
    (ho : ∀ i < 16, w.n.hasCb i = false → offered i = w.offered i) : WatchInv ⟨n, offered⟩ := by
  have hcb : ∀ i, n.hasCb i = w.n.hasCb i := by
    intro i
    unfold Notifier.hasCb
    rw [hslots]
  refine ⟨fun i => (hi.ordered i).sublist (hsub i), ?_, ?_⟩
  · intro i h16
    show n.hasCb i = n.slots.map.getLsbD i
    rw [hcb, hslots]
    exact hi.cb i h16
  · intro i h16 hno x hx hlevel
    have hno : w.n.hasCb i = false := (hcb i).symm.trans hno
    show offered i (selIds x.sb) = false
    rw [ho i h16 hno]
    exact hi.unseen i h16 hno x ((hsub i).subset hx) hlevel

theorem Covered.fewer (hc : Covered w) {n : Notifier} (hslots : n.slots = w.n.slots)
    (hsub : ∀ i, (n.queue i).Sublist (w.n.queue i)) (hp : n.pending = w.n.pending) : Covered { w with n := n } := by
  intro i h16 hbit x hx hlevel hoff
  show n.pending = true
  rw [hp]
  have hbit : n.slots.map.getLsbD i = true := hbit
  rw [hslots] at hbit
  exact hc i h16 hbit x ((hsub i).subset hx) hlevel hoff

/-! ## Slots -/

theorem getLsbD_firstFree {map : BitVec 16} (h : firstFree map < 16) : map.getLsbD (firstFree map) = false := by
  unfold firstFree at h ⊢
  cases hf : (List.range 17).find? fun i => map.getLsbD i = false with
  | none =>
    rw [hf] at h
    exact absurd h (by decide)
  | some i => simpa using List.find?_some hf

/-- What `alloc_slot` does: nothing, or it gives out the first free slot. -/
theorem allocNotifySlot_cases {n n' : Notifier} {data : ℕ} (h : allocNotifySlot n data = some (slot, n')) :
    (16 ≤ n.slots.cnt ∧ n' = n) ∨
      (n.slots.cnt < 16 ∧ firstFree n.slots.map < 16 ∧ n'.queue = n.queue ∧ n'.pending = n.pending ∧
        (∀ i < 16, n'.slots.map.getLsbD i = (decide (i = firstFree n.slots.map) || n.slots.map.getLsbD i)) ∧
        ∀ i, n'.hasCb i = (decide (i = firstFree n.slots.map) || n.hasCb i)) := by
  unfold allocNotifySlot at h
  obtain ⟨⟨k, t⟩, ha, h⟩ := Option.bind_eq_some_iff.mp h
  cases h
  unfold allocSlot at ha
  split at ha
  · cases ha
    exact .inl ⟨‹_›, rfl⟩
  simp only at ha
  split at ha
  · cases ha
  cases ha
  refine .inr ⟨by omega, by omega, rfl, rfl, ?_, ?_⟩
  · intro i h16
    rw [getLsbD_alloc _ _ _ (by omega), Bool.or_comm]
  · intro i
    unfold Notifier.hasCb
    by_cases hi : i = firstFree n.slots.map
    · simp [hi]
    · simp [hi]

theorem freeNotifySlot_cases (n : Notifier) (slot : ℤ) : freeNotifySlot n slot = n ∨
    ∃ k : ℕ, 1 ≤ k ∧ k ≤ 15 ∧ (slot = k) ∧ n.slots.map.getLsbD k = true ∧
      (freeNotifySlot n slot).queue = Function.update n.queue k [] ∧
      (freeNotifySlot n slot).pending = n.pending ∧
      (∀ i < 16, (freeNotifySlot n slot).slots.map.getLsbD i = (decide (i ≠ k) && n.slots.map.getLsbD i)) ∧
      ∀ i, (freeNotifySlot n slot).hasCb i = (decide (i ≠ k) && n.hasCb i) := by
  unfold freeNotifySlot
  split
  · exact .inl rfl
  split
  · exact .inl rfl
  rename_i hrange hbit
  obtain ⟨k, rfl⟩ : ∃ k : ℕ, slot = k := ⟨slot.toNat, by omega⟩
  have hbit : n.slots.map.getLsbD k = true := by simpa using hbit
  refine .inr ⟨k, by omega, by omega, rfl, hbit, rfl, rfl, ?_, ?_⟩
  · intro i h16
    rw [freeSlot_of_set (by omega) (by omega) hbit]
    simp only [getLsbD_free]
    exact Bool.and_comm _ _
  · intro i
    unfold Notifier.hasCb
    rw [freeSlot_of_set (by omega) (by omega) hbit]
    by_cases hi : i = k
    · subst hi
      have h0 : i ≠ 0 := by omega
      simp [h0]
    · simp [hi]

theorem watchInv_alloc (hi : WatchInv w) {n : Notifier} {data : ℕ} (h : allocNotifySlot w.n data = some (slot, n)) :
    WatchInv { w with n := n } := by
  rcases allocNotifySlot_cases h with ⟨-, rfl⟩ | ⟨-, -, hq, -, hmap, hcb⟩
  · exact hi
  refine ⟨fun i => ?_, ?_, ?_⟩
  · show QueueOrdered (n.queue i)
    rw [hq]
    exact hi.ordered i
  · intro i h16
    show n.hasCb i = n.slots.map.getLsbD i
    rw [hcb, hmap i h16, hi.cb i h16]
  · intro i h16 hno x hx
    have hno : n.hasCb i = false := hno
    rw [hcb, Bool.or_eq_false_iff] at hno
    have hx : x ∈ n.queue i := hx
    rw [hq] at hx
    exact hi.unseen i h16 hno.2 x hx

theorem covered_alloc_iff (hi : WatchInv w) (hc : Covered w) {n : Notifier} {data : ℕ}
    (h : allocNotifySlot w.n data = some (slot, n)) :
    Covered { w with n := n } ↔ KeepsPending w.n (.alloc data) := by
  rcases allocNotifySlot_cases h with ⟨hcnt, rfl⟩ | ⟨hcnt, h16, hq, hp, hmap, -⟩
  · exact ⟨fun _ hlt => absurd hlt (by omega), fun _ => hc⟩
  have hnew : ∀ item ∈ w.n.queue (firstFree w.n.slots.map), item.level = activeNotify →
      w.offered (firstFree w.n.slots.map) (selIds item.sb) = false := by
    refine hi.unseen _ h16 ?_
    rw [hi.cb _ h16]
    exact getLsbD_firstFree h16
  constructor
  · intro h _ item hitem hlevel
    rw [← hp]
    refine h _ h16 ?_ item (by show item ∈ n.queue _; rw [hq]; exact hitem) hlevel (hnew item hitem hlevel)
    rw [hmap _ h16, decide_eq_true rfl, Bool.true_or]
  · intro hkeep i hi16 hbit x hx hlevel hoff
    show n.pending = true
    rw [hp]
    have hbit : n.slots.map.getLsbD i = true := hbit
    have hx : x ∈ n.queue i := hx
    rw [hq] at hx
    rw [hmap i hi16] at hbit
    by_cases hk : i = firstFree w.n.slots.map
    · rw [hk] at hx
      exact hkeep hcnt x hx hlevel
    · rw [decide_eq_false hk, Bool.false_or] at hbit
      exact hc i hi16 hbit x hx hlevel hoff

theorem watchInv_free (hi : WatchInv w) (slot : ℤ) : WatchInv { w with n := freeNotifySlot w.n slot } := by
  rcases freeNotifySlot_cases w.n slot with heq | ⟨k, -, -, -, -, hq, -, hmap, hcb⟩
  · rw [heq]
    exact hi
  refine ⟨fun i => ?_, ?_, ?_⟩
  · show QueueOrdered ((freeNotifySlot w.n slot).queue i)
    rw [hq]
    by_cases hk : i = k
    · rw [hk, Function.update_self]
      exact List.Pairwise.nil
    · rw [Function.update_of_ne hk]
      exact hi.ordered i
  · intro i h16
    show (freeNotifySlot w.n slot).hasCb i = (freeNotifySlot w.n slot).slots.map.getLsbD i
    rw [hcb, hmap i h16, hi.cb i h16]
  · intro i h16 hno x hx
    have hno : (freeNotifySlot w.n slot).hasCb i = false := hno
    have hx : x ∈ (freeNotifySlot w.n slot).queue i := hx
    rw [hq] at hx
    by_cases hk : i = k
    · rw [hk, Function.update_self] at hx
      cases hx
    · rw [Function.update_of_ne hk] at hx
      rw [hcb, decide_eq_true hk, Bool.true_and] at hno
      exact hi.unseen i h16 hno x hx

theorem covered_free (hc : Covered w) (slot : ℤ) : Covered { w with n := freeNotifySlot w.n slot } := by
  rcases freeNotifySlot_cases w.n slot with heq | ⟨k, -, -, -, -, hq, hp, hmap, -⟩
  · rw [heq]
    exact hc
  intro i h16 hbit x hx hlevel hoff
  show (freeNotifySlot w.n slot).pending = true
  have hbit : (freeNotifySlot w.n slot).slots.map.getLsbD i = true := hbit
  have hx : x ∈ (freeNotifySlot w.n slot).queue i := hx
  rw [hmap i h16, Bool.and_eq_true] at hbit
  rw [hq, Function.update_of_ne (of_decide_eq_true hbit.1)] at hx
  rw [hp]
  exact hc i h16 hbit.2 x hx hlevel hoff

theorem getPassive_spec {put : NotifyItem → Dm2Request → Call} {n n' : Notifier} {k : ℕ} {answer answer' : Dm2Request}
    {rc : Rc} (h : getPassiveNotifications put n k answer = some (rc, n', answer')) :
    n'.slots = n.slots ∧ (∀ i, (n'.queue i).Sublist (n.queue i)) ∧ n'.pending = n.pending := by
  unfold getPassiveNotifications at h
  obtain ⟨⟨rc1, q, req⟩, hb, h⟩ := Option.bind_eq_some_iff.mp h
  cases h
  refine ⟨rfl, ?_, rfl⟩
  intro i
  show (Function.update n.queue k q i).Sublist _
  by_cases hk : i = k
  · rw [hk, Function.update_self]
    exact (buildNotifyEvents_sublist hb).1
  · rw [Function.update_of_ne hk]

/-- One step keeps the invariant, and it keeps the active items covered exactly when it meets the condition. -/
theorem queueStep_spec {ev : QueueEvent} (h : queueStep w ev = some w') (hi : WatchInv w) :
    WatchInv w' ∧ (Covered w → (Covered w' ↔ KeepsPending w.n ev)) := by
  cases ev with
  | notify slot sel id value type =>
    cases h
    rw [notify_eq]
    exact ⟨hi.notifySel, covered_notifySel_iff hi⟩
  | notifySel slot sel value type =>
    cases h
    exact ⟨hi.notifySel, covered_notifySel_iff hi⟩
  | exec A put =>
    obtain ⟨⟨n, out⟩, he, h⟩ := Option.bind_eq_some_iff.mp h
    cases h
    obtain ⟨hslots, hsub, hp⟩ := execPending_spec he
    refine ⟨hi.fewer hslots hsub ?_, fun hc => iff_of_true ?_ trivial⟩
    · intro i _ hno
      funext s
      rw [if_neg (by rw [hno]; simp)]
    · -- every allocated slot was offered its queue, or there was nothing pending
      intro i h16 hbit x hx hlevel hoff
      have hbit : n.slots.map.getLsbD i = true := hbit
      rw [hslots, ← hi.cb i h16] at hbit
      have hoff : (if w.n.pending = true ∧ w.n.hasCb i = true then true else w.offered i (selIds x.sb)) = false := hoff
      by_cases hpend : w.n.pending = true
      · rw [if_pos ⟨hpend, hbit⟩] at hoff
        cases hoff
      · rw [if_neg fun h => hpend h.1] at hoff
        rw [hi.cb i h16] at hbit
        exact absurd (hc i h16 hbit x ((hsub i).subset hx) hlevel hoff) hpend
  | getPassive k put answer =>
    obtain ⟨⟨rc, n, answer'⟩, hg, h⟩ := Option.bind_eq_some_iff.mp h
    cases h
    obtain ⟨hslots, hsub, hp⟩ := getPassive_spec hg
    exact ⟨hi.fewer hslots hsub fun _ _ _ => rfl, fun hc => iff_of_true (hc.fewer hslots hsub hp) trivial⟩
  | alloc data =>
    obtain ⟨⟨slot, n⟩, ha, h⟩ := Option.bind_eq_some_iff.mp h
    cases h
    exact ⟨watchInv_alloc hi ha, fun hc => covered_alloc_iff hi hc ha⟩
  | free slot =>
    cases h
    exact ⟨watchInv_free hi slot, fun hc => iff_of_true (covered_free hc slot) trivial⟩

end Step

/-! ## Whole runs -/

def Watched.init : Watched := ⟨Notifier.init, fun _ _ => false⟩

theorem watchInv_init : WatchInv Watched.init := by
  refine ⟨fun _ => List.Pairwise.nil, ?_, ?_⟩
  · decide
  · intro i _ _ item hitem
    cases hitem

theorem covered_init : Covered Watched.init := by
  intro i _ _ item hitem
  cases hitem

/-- Active items are covered in every state of a run exactly when no step of it makes an item active, or
gives out a slot with an active item, without the flag. -/
theorem pending_covers_iff (evs : List QueueEvent) :
    Run.Always queueStep Watched.init Covered evs ↔
      Run.Each queueStep Watched.init (fun w ev => KeepsPending w.n ev) evs :=
  Run.always_iff_each watchInv_init (fun _ _ _ h hi => (queueStep_spec h hi).1) covered_init
    fun _ _ _ h hi hc => (queueStep_spec h hi).2 hc

def sampleTalloc : Talloc := ⟨fun _ => true, fun _ => 0⟩

/-- A number with a mask. -/
def sampleValue (ntfy : ℕ) : DmValue := ⟨.scalar (.uint 7), ntfy, Flags.zero, true⟩

/-- A client asks for passive notifications of a leaf; after a flush it asks for active ones. -/
def sampleRise : List QueueEvent :=
  [.alloc 1, .notifySel (-1) [5] (sampleValue 4) .change, .exec sampleTalloc fun _ req => some (.ok, req),
    .notifySel (-1) [5] (sampleValue 8) .change]

set_option maxRecDepth 20000 in
/-- The item that waits in the queue becomes an active one, and no flush will see it. -/
theorem rise_not_pending : ¬Run.Always queueStep Watched.init Covered sampleRise := by
  intro h
  obtain ⟨w, hw, hq, hp, hm, ho⟩ : ∃ w, Run.run queueStep Watched.init sampleRise = some w ∧
      w.n.queue 1 = [⟨2, [5], .change, sampleValue 8⟩] ∧ w.n.pending = false ∧
      w.n.slots.map.getLsbD 1 = true ∧ w.offered 1 [5] = false := ⟨_, rfl, rfl, rfl, rfl, rfl⟩
  have hc := h sampleRise w (List.prefix_refl _) hw 1 (by decide) hm ⟨2, [5], .change, sampleValue 8⟩
    (by rw [hq]; exact List.mem_cons_self) rfl ho
  rw [hp] at hc
  cases hc

end Mand.Notify
