import Mand.Store.Access
import Mand.Store.Set

/-! # The mask of an address

`PrefixLength` and `Netmask` of an IPv4 address: each setter works the other field out. -/
namespace Mand.Store
open Mand.Inet
set_option autoImplicit false

/-- The fields in the table of an address. -/
structure AddressFields where
  prefixlength : ℕ
  netmask : ℕ
  distinct : prefixlength - 1 ≠ netmask - 1

/-- What the two fields hold. -/
structure Fields (f : AddressFields) (a : Addr) (st : DmStore) (length : ℕ) (mask : Option (List ℕ)) : Prop where
  prefixlength : ∃ v, st.slot a (f.prefixlength - 1) = some v ∧ v.content = .scalar (.uint length) ∧ v.parity = true
  netmask : ∃ v, st.slot a (f.netmask - 1) = some v ∧ v.content = .scalar (.str mask) ∧ v.parity = true

/-- A value for one of the fields. -/
inductive MaskSet
  | prefixlength (length : ℕ)
  | netmask (val : Value)

/-- `set_ocpe__interfaces__interface__ipv4__address_prefixlength` and `.._netmask`. -/
def MaskSet.run (undef : ℕ) (f : AddressFields) (a : Addr) (st : DmStore) : MaskSet → Option (DmResult × DmStore)
  | .prefixlength length => SetHook.run undef st (.addressPrefixlength f.prefixlength f.netmask) a
      (.slot a (f.prefixlength - 1)) (newValue (.uint length))
  | .netmask val => SetHook.run undef st (.addressNetmask f.prefixlength) a (.slot a (f.netmask - 1)) (newValue val)

/-- The dotted form of the mask with `length` leading bits. -/
def dottedMask (length : ℕ) : List ℕ := ntop4 (ofHost (leadingOnes length))

def MasksAgree (length : ℕ) (mask : Option (List ℕ)) : Prop := length ≤ 32 ∧ mask = some (dottedMask length)

/-- After a set the fields agree, or it was rejected and they are what they were. -/
def MaskSettled (f : AddressFields) (a : Addr) (st : DmStore) (r : DmResult × DmStore) : Prop :=
  ∃ length mask, Fields f a r.2 length mask ∧ (MasksAgree length mask ∨ r.1 ≠ .ok ∧ Fields f a st length mask)

/-- Every set of a run is settled, whatever the undefined values are. -/
def MasksSettled (f : AddressFields) (a : Addr) : DmStore → List MaskSet → Prop
  | _, [] => True
  | st, x :: sets => ∀ undef, ∃ r, x.run undef f a st = some r ∧ MaskSettled f a st r ∧ MasksSettled f a r.2 sets

/-- A length from 1 to 32, or a mask with so many leading bits as text. What is no string is rejected. -/
def MaskSet.Proper : MaskSet → Prop
  | .prefixlength length => 1 ≤ length ∧ length ≤ 32
  | .netmask (.str s) => ∃ length, 1 ≤ length ∧ length ≤ 32 ∧ s = some (dottedMask length)
  | .netmask _ => True

variable {f : AddressFields} {a : Addr} {st : DmStore} {length length' : ℕ} {mask mask' : Option (List ℕ)}

/-! ## The setters -/

theorem Fields.unique (h : Fields f a st length mask) (h' : Fields f a st length' mask') : length = length' ∧ mask = mask' := by
  obtain ⟨v, hv, hcv, -⟩ := h.prefixlength
  obtain ⟨v', hv', hcv', -⟩ := h'.prefixlength
  obtain ⟨w, hw, hcw, -⟩ := h.netmask
  obtain ⟨w', hw', hcw', -⟩ := h'.netmask
  cases hv.symm.trans hv'
  cases hw.symm.trans hw'
  cases hcv.symm.trans hcv'
  cases hcw.symm.trans hcw'
  exact ⟨rfl, rfl⟩

/-- The mask that the code works out of a length. -/
def hostMask (undef length : ℕ) : ℕ :=
  if length = 0 then undef
  else if length < 32 then (2 ^ 32 - 1) * 2 ^ (32 - length) % 2 ^ 32
  else 2 ^ 32 - 1

/-- The other setter's field. -/
theorem setById_slot {w : DmValue} {id : ℕ} (hw : st.slot a (id - 1) = some w) (hparity : w.parity = true) (v : Value) :
    ∃ st' w', setById st a id v = some st' ∧ w'.content = .scalar v ∧ w'.parity = true ∧
      ∀ j, st'.slot a j = if j = id - 1 then some w' else st.slot a j := by
  obtain ⟨st', hst⟩ := DmStore.setSlot_some hw { markUpdated w with content := .scalar v }
  refine ⟨st', { markUpdated w with content := .scalar v }, ?_, rfl, rfl, fun j => ?_⟩
  · rw [setById, hw, Option.bind_eq_bind, Option.bind_some, DmValue.parityAssert, if_pos hparity, Option.bind_eq_bind,
      Option.bind_some, hst]
  · rw [DmStore.slot_setSlot hst]
    by_cases hj : j = id - 1
    · rw [if_pos ⟨rfl, hj⟩, if_pos hj]
    · rw [if_neg fun h => hj h.2, if_neg hj]

theorem Fields.run_prefixlength (h : Fields f a st length mask) (undef n : ℕ) : ∃ st',
    (MaskSet.prefixlength n).run undef f a st = some (.ok, st') ∧
      Fields f a st' n (some (ntop4 (ofHost (hostMask undef n)))) := by
  obtain ⟨v, hv, -, -⟩ := h.prefixlength
  obtain ⟨w, hw, -, hparity⟩ := h.netmask
  obtain ⟨st1, hst1⟩ := DmStore.setSlot_some hv (newValue (.uint n))
  have hp1 : st1.slot a (f.prefixlength - 1) = some (newValue (.uint n)) := by
    rw [DmStore.slot_setSlot hst1, if_pos ⟨rfl, rfl⟩]
  have hn1 : st1.slot a (f.netmask - 1) = some w := by
    rw [DmStore.slot_setSlot hst1, if_neg fun h => f.distinct h.2.symm, hw]
  obtain ⟨st2, w2, hset, hcontent, hw2, hslot⟩ := setById_slot hn1 hparity (.str (some (ntop4 (ofHost (hostMask undef n)))))
  refine ⟨st2, ?_, ⟨newValue (.uint n), ?_, rfl, rfl⟩, w2, ?_, hcontent, hw2⟩
  · have hwrite : st.setValue (.slot a (f.prefixlength - 1)) (newValue (.uint n)) = some st1 := hst1
    rw [MaskSet.run, SetHook.run, hwrite, Option.bind_eq_bind, Option.bind_some, updateAddressNetmask, hp1,
      Option.bind_eq_bind, Option.bind_some, DmValue.parityAssert, newValue, if_pos rfl]
    exact congrArg (fun o : Option DmStore => o.bind fun st => some (DmResult.ok, st)) hset
  · rw [hslot, if_neg f.distinct, hp1]
  · rw [hslot, if_pos rfl]

/-- What `dm_set_string_value` stores. -/
def storedText (s : List ℕ) : Option (List ℕ) := if s = [] then none else some s

theorem stringValue_some (s : List ℕ) : stringValue (some s) = .str (storedText s) := by
  cases s <;> rfl

/-- The length that the code works out of a text. -/
def textLength (undef : ℕ) (s : List ℕ) : ℕ := 33 - ffs (((pton4 s).map toHost).getD undef)

theorem Fields.run_netmask (h : Fields f a st length mask) (undef : ℕ) (s : List ℕ) : ∃ st',
    (MaskSet.netmask (.str (some s))).run undef f a st = some (.ok, st') ∧ Fields f a st' (textLength undef s) (storedText s) := by
  obtain ⟨v, hv, -, hparity⟩ := h.prefixlength
  obtain ⟨w, hw, -, hwparity⟩ := h.netmask
  obtain ⟨st1, hst1⟩ := DmStore.setSlot_some hw { w with content := .scalar (stringValue (some s)) }
  have hn1 : st1.slot a (f.netmask - 1) = some { w with content := .scalar (stringValue (some s)) } := by
    rw [DmStore.slot_setSlot hst1, if_pos ⟨rfl, rfl⟩]
  have hp1 : st1.slot a (f.prefixlength - 1) = some v := by
    rw [DmStore.slot_setSlot hst1, if_neg fun h => f.distinct h.2, hv]
  obtain ⟨st2, v2, hset, hcontent, hv2, hslot⟩ := setById_slot hp1 hparity (.uint (textLength undef s))
  refine ⟨st2, ?_, ⟨v2, ?_, hcontent, hv2⟩, { w with content := .scalar (stringValue (some s)) }, ?_, ?_, hwparity⟩
  · have hread : st.value (.slot a (f.netmask - 1)) = some w := hw
    have hwrite : st.setValue (.slot a (f.netmask - 1)) { w with content := .scalar (stringValue (some s)) } = some st1 := hst1
    show (do
      let old ← st.value (.slot a (f.netmask - 1))
      old.parityAssert
      let st ← st.setValue (.slot a (f.netmask - 1)) { old with content := .scalar (stringValue (some s)) }
      let st ← updateAddressPrefixlength undef st a (some s) f.prefixlength
      some (DmResult.ok, st)) = _
    rw [hread, Option.bind_eq_bind, Option.bind_some, DmValue.parityAssert, if_pos hwparity, Option.bind_eq_bind,
      Option.bind_some, hwrite, Option.bind_eq_bind, Option.bind_some]
    exact congrArg (fun o : Option DmStore => o.bind fun st => some (DmResult.ok, st)) hset
  · rw [hslot, if_pos rfl]
  · rw [hslot, if_neg f.distinct.symm, hn1]
  · rw [stringValue_some]

/-- No string, no change. A null string is not survived. -/
theorem run_netmask_other (undef : ℕ) (val : Value) (hval : ∀ s, val ≠ .str s) :
    (MaskSet.netmask val).run undef f a st = some (.invalidType, st) := by
  cases val with
  | str s => exact absurd rfl (hval s)
  | _ => rfl

theorem run_netmask_null (h : Fields f a st length mask) (undef : ℕ) : (MaskSet.netmask (.str none)).run undef f a st = none := by
  obtain ⟨w, hw, -, hparity⟩ := h.netmask
  obtain ⟨st1, hst1⟩ := DmStore.setSlot_some hw { w with content := .scalar (stringValue none) }
  have hread : st.value (.slot a (f.netmask - 1)) = some w := hw
  have hwrite : st.setValue (.slot a (f.netmask - 1)) { w with content := .scalar (stringValue none) } = some st1 := hst1
  show (do
    let old ← st.value (.slot a (f.netmask - 1))
    old.parityAssert
    let st ← st.setValue (.slot a (f.netmask - 1)) { old with content := .scalar (stringValue none) }
    let st ← updateAddressPrefixlength undef st a none f.prefixlength
    some (DmResult.ok, st)) = _
  rw [hread, Option.bind_eq_bind, Option.bind_some, DmValue.parityAssert, if_pos hparity, Option.bind_eq_bind,
    Option.bind_some, hwrite]
  rfl

/-! ## Masks -/

theorem hostMask_eq (undef : ℕ) {n : ℕ} (hpos : 1 ≤ n) (hn : n ≤ 32) : hostMask undef n = leadingOnes n := by
  have hshift : ∀ k ≤ 32, 1 ≤ k → hostMask 0 k = leadingOnes k := by decide +kernel
  have hne : n ≠ 0 := by omega
  have hsame : hostMask undef n = hostMask 0 n := by
    rw [hostMask, hostMask, if_neg hne, if_neg hne]
  rw [hsame, hshift n hn hpos]

theorem textLength_dotted (undef : ℕ) {n : ℕ} (hpos : 1 ≤ n) (hn : n ≤ 32) : textLength undef (dottedMask n) = n := by
  rw [textLength, dottedMask, pton4_ofHost, Option.map_some, toHost_ofHost, Option.getD_some,
    Nat.mod_eq_of_lt (leadingOnes_lt n), ffs_leadingOnes n hn hpos]
  omega

theorem textLength_pos (undef : ℕ) (s : List ℕ) : 1 ≤ textLength undef s := by
  have h := ffs_le (((pton4 s).map toHost).getD undef)
  unfold textLength
  omega

theorem dottedMask_ne_nil (n : ℕ) : dottedMask n ≠ [] := by
  intro h
  have hread := pton4_ofHost (leadingOnes n)
  rw [show ntop4 (ofHost (leadingOnes n)) = [] from h] at hread
  cases hread

/-! ## Runs -/

theorem prefixlength_settled_iff (h : Fields f a st length mask) (n : ℕ) :
    (∀ undef, ∃ r, (MaskSet.prefixlength n).run undef f a st = some r ∧ MaskSettled f a st r) ↔ 1 ≤ n ∧ n ≤ 32 := by
  constructor
  · intro hall
    obtain ⟨r, hrun, length', mask', hfields, hor⟩ := hall 1
    obtain ⟨st', hrun', hfields'⟩ := h.run_prefixlength 1 n
    cases hrun.symm.trans hrun'
    obtain ⟨rfl, rfl⟩ := hfields.unique hfields'
    rcases hor with ⟨hle, hmask⟩ | ⟨hne, -⟩
    · refine ⟨Nat.pos_of_ne_zero ?_, hle⟩
      -- The undefined shift may give a mask with a last bit.
      rintro rfl
      have hmod := ntop4_inj (Option.some.inj hmask)
      exact absurd hmod (by decide)
    · exact absurd rfl hne
  · intro ⟨hpos, hn⟩ undef
    obtain ⟨st', hrun, hfields⟩ := h.run_prefixlength undef n
    exact ⟨_, hrun, _, _, hfields, .inl ⟨hn, by rw [hostMask_eq undef hpos hn, dottedMask]⟩⟩

theorem netmask_settled_iff (h : Fields f a st length mask) (s : List ℕ) :
    (∀ undef, ∃ r, (MaskSet.netmask (.str (some s))).run undef f a st = some r ∧ MaskSettled f a st r) ↔
      ∃ n, 1 ≤ n ∧ n ≤ 32 ∧ s = dottedMask n := by
  constructor
  · intro hall
    obtain ⟨r, hrun, length', mask', hfields, hor⟩ := hall 0
    obtain ⟨st', hrun', hfields'⟩ := h.run_netmask 0 s
    cases hrun.symm.trans hrun'
    obtain ⟨rfl, rfl⟩ := hfields.unique hfields'
    rcases hor with ⟨hle, hmask⟩ | ⟨hne, -⟩
    · refine ⟨_, textLength_pos 0 s, hle, ?_⟩
      unfold storedText at hmask
      split_ifs at hmask
      exact Option.some.inj hmask
    · exact absurd rfl hne
  · rintro ⟨n, hpos, hn, rfl⟩ undef
    obtain ⟨st', hrun, hfields⟩ := h.run_netmask undef (dottedMask n)
    rw [textLength_dotted undef hpos hn, storedText, if_neg (dottedMask_ne_nil n)] at hfields
    exact ⟨_, hrun, _, _, hfields, .inl ⟨hn, rfl⟩⟩

/-- One set. -/
theorem settled_iff (h : Fields f a st length mask) (x : MaskSet) :
    (∀ undef, ∃ r, x.run undef f a st = some r ∧ MaskSettled f a st r) ↔ x.Proper := by
  cases x with
  | prefixlength n => exact prefixlength_settled_iff h n
  | netmask val =>
    by_cases hval : ∃ s, val = .str s
    · obtain ⟨s, rfl⟩ := hval
      cases s with
      | none =>
        constructor
        · intro hall
          obtain ⟨r, hrun, -⟩ := hall 0
          rw [run_netmask_null h] at hrun
          cases hrun
        · rintro ⟨n, -, -, hnone⟩
          cases hnone
      | some s =>
        rw [netmask_settled_iff h s]
        simp only [MaskSet.Proper, Option.some.injEq]
    · have hother : ∀ s, val ≠ .str s := fun s hs => hval ⟨s, hs⟩
      have hproper : (MaskSet.netmask val).Proper := by
        cases val with
        | str s => exact absurd rfl (hother s)
        | _ => trivial
      refine iff_of_true (fun undef => ?_) hproper
      exact ⟨_, run_netmask_other undef val hother, length, mask, h, .inr ⟨by simp, h⟩⟩

/-- An address in a store. -/
structure AddressRow where
  fields : AddressFields
  addr : Addr
  st : DmStore
  length : ℕ
  mask : Option (List ℕ)
  holds : Fields fields addr st length mask

theorem masksSettled_iff (h : Fields f a st length mask) (sets : List MaskSet) :
    MasksSettled f a st sets ↔ ∀ x ∈ sets, x.Proper := by
  induction sets generalizing st length mask with
  | nil => simp [MasksSettled]
  | cons x sets ih =>
    rw [List.forall_mem_cons, MasksSettled]
    constructor
    · intro hall
      refine ⟨(settled_iff h x).mp fun undef => ?_, ?_⟩
      · obtain ⟨r, hrun, hsettled, -⟩ := hall undef
        exact ⟨r, hrun, hsettled⟩
      · obtain ⟨r, -, ⟨length', mask', hfields, -⟩, hrest⟩ := hall 0
        exact (ih hfields).mp hrest
    · intro ⟨hx, hsets⟩ undef
      obtain ⟨r, hrun, hsettled⟩ := (settled_iff h x).mpr hx undef
      obtain ⟨length', mask', hfields, -⟩ := id hsettled
      exact ⟨r, hrun, hsettled, (ih hfields).mpr hsets⟩

/-- The fields of an address agree after every set of a run if and only if the run has proper sets only. -/
theorem addressRow_settled_iff (row : AddressRow) (sets : List MaskSet) :
    MasksSettled row.fields row.addr row.st sets ↔ ∀ x ∈ sets, x.Proper := masksSettled_iff row.holds sets

/-- `255.255.255.0`, stored as 24 leading bits. -/
def sampleMaskStore : DmStore where
  heap := Function.update (fun _ => none) 0 (some ⟨[], [newValue (.uint 24), newValue (.str (some (dottedMask 24)))], none⟩)
  next := 1
  root := 0

def sampleAddressFields : AddressFields := ⟨1, 2, by decide⟩

theorem sampleMaskStore_fields : Fields sampleAddressFields 0 sampleMaskStore 24 (some (dottedMask 24)) :=
  ⟨⟨newValue (.uint 24), rfl, rfl, rfl⟩, newValue (.str (some (dottedMask 24))), rfl, rfl, rfl⟩

def sampleAddress : AddressRow := ⟨sampleAddressFields, 0, sampleMaskStore, 24, some (dottedMask 24), sampleMaskStore_fields⟩

/-- With a length of 33 the mask has 32 bits. -/
theorem length_33_disagrees :
    ¬MasksSettled sampleAddress.fields sampleAddress.addr sampleAddress.st [.prefixlength 33] := by
  intro h
  have hone : 1 ≤ 33 ∧ 33 ≤ 32 := (prefixlength_settled_iff sampleMaskStore_fields 33).mp fun undef => by
    obtain ⟨r, hrun, hsettled, -⟩ := h undef
    exact ⟨r, hrun, hsettled⟩
  exact absurd hone.2 (by decide)

end Mand.Store
