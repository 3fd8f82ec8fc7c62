import Mand.Msg.Encode

/-! # The bytes that `dm_expect_avp` reads

Offsets into the group, one after the other. -/
namespace Mand.Msg
open Mand.Bytes
set_option autoImplicit false

/-- `uint24to32(avp->length)` of the header at `pos`. -/
def avpLength (mem : ℕ → UInt8) (pos : ℕ) : ℕ := ofBe [mem (pos + 5), mem (pos + 6), mem (pos + 7)]

/-- `avp->flags & AVP_FLAG_VENDOR`. -/
def hasVendor (mem : ℕ → UInt8) (pos : ℕ) : Prop := mem (pos + 4) &&& avpFlagVendor ≠ 0

instance (mem : ℕ → UInt8) (pos : ℕ) : Decidable (hasVendor mem pos) := inferInstanceAs (Decidable (_ ≠ _))

/-- The offsets of the bytes that `dm_expect_avp` reads, whatever lies there. -/
def avpReads (mem : ℕ → UInt8) (size pos : ℕ) : List ℕ :=
  if size ≤ pos then []
  else [pos + 5, pos + 6, pos + 7] ++
    if avpLength mem pos < 8 then []
    else [pos + 4] ++
      if hasVendor mem pos ∧ avpLength mem pos < 12 ∨ size < sizeT (pos + pad32 (avpLength mem pos)) then []
      else [pos, pos + 1, pos + 2, pos + 3] ++
        if hasVendor mem pos then [pos + 8, pos + 9, pos + 10, pos + 11] else []

/-- The memory of a group, with zeros where there is none. -/
def Dm2AvpGrp.mem (grp : Dm2AvpGrp) (i : ℕ) : UInt8 := grp.data.getD i 0

theorem peek_eq_none {m : Mem} {pos n : ℕ} (h : m.length < pos + n) : peek m pos n = none := if_neg (by omega)

theorem peek_length (grp : Dm2AvpGrp) (h : grp.pos + 8 ≤ grp.data.length) :
    (peek grp.data (grp.pos + 5) 3).map ofBe = some (avpLength grp.mem grp.pos) := by
  have hget (i : ℕ) (hi : i < grp.data.length) : grp.mem i = grp.data[i] := by
    simp [Dm2AvpGrp.mem, List.getD_eq_getElem?_getD, hi]
  have hdrop : (grp.data.drop (grp.pos + 5)).take 3 = [grp.mem (grp.pos + 5), grp.mem (grp.pos + 6), grp.mem (grp.pos + 7)] := by
    rw [hget _ (by omega), hget _ (by omega), hget _ (by omega)]
    rw [List.drop_eq_getElem_cons (by omega), List.drop_eq_getElem_cons (by omega), List.drop_eq_getElem_cons (by omega)]
    rfl
  rw [peek_some _ _ _ (by omega), hdrop]
  rfl

theorem mem_getElem? (grp : Dm2AvpGrp) {i : ℕ} (h : i < grp.data.length) : grp.data[i]? = some (grp.mem i) := by
  simp [Dm2AvpGrp.mem, List.getD_eq_getElem?_getD, h]

/-- **Faults.** The decoder leaves the memory exactly if one of the offsets does. -/
theorem dmExpectAvp_none_iff (grp : Dm2AvpGrp) :
    dmExpectAvp grp = none ↔ ∃ o ∈ avpReads grp.mem grp.size grp.pos, grp.data.length ≤ o := by
  rw [dmExpectAvp, avpReads]
  by_cases hend : grp.size ≤ grp.pos
  · simp [hend]
  rw [if_neg hend, if_neg hend]
  by_cases hlen : grp.pos + 8 ≤ grp.data.length
  · rw [peek_length grp hlen, mem_getElem? grp (by omega)]
    simp only [Option.bind_eq_bind, Option.bind_some]
    by_cases h8 : avpLength grp.mem grp.pos < 8
    · simp [h8]
      omega
    by_cases hguard : hasVendor grp.mem grp.pos ∧ avpLength grp.mem grp.pos < 12 ∨
        grp.size < sizeT (grp.pos + pad32 (avpLength grp.mem grp.pos))
    · rw [if_pos (.inr hguard), if_neg h8, if_pos hguard]
      simp
      omega
    rw [if_neg (fun h => h.elim h8 hguard), if_neg h8, if_neg hguard, peek_some _ _ _ (by omega)]
    simp only [Option.map_some, Option.bind_some]
    by_cases hv : hasVendor grp.mem grp.pos
    · have hv' : grp.mem (grp.pos + 4) &&& avpFlagVendor ≠ 0 := hv
      rw [if_pos hv', if_pos hv]
      by_cases h12 : grp.pos + 12 ≤ grp.data.length
      · rw [peek_some _ _ _ (by omega)]
        simp
        omega
      · rw [peek_eq_none (by omega)]
        simp
        omega
    · have hv' : ¬grp.mem (grp.pos + 4) &&& avpFlagVendor ≠ 0 := hv
      rw [if_neg hv', if_neg hv]
      simp
      omega
  · rw [peek_eq_none (by omega)]
    simp only [Option.map_none, Option.bind_eq_bind, Option.bind_none, true_iff]
    exact ⟨grp.pos + 7, by simp, by omega⟩

/-- **The header.** No byte behind the group is read exactly if nothing is read, or the eight bytes of a header are left -
and those of the vendor, should the length field wrap around the address space. -/
theorem avpReads_iff (mem : ℕ → UInt8) (size pos : ℕ) (hsize : size < 2 ^ 64) :
    (∀ o ∈ avpReads mem size pos, o < size) ↔
      size ≤ pos ∨ pos + 8 ≤ size ∧ (pos + 12 ≤ size ∨ ¬hasVendor mem pos ∨ avpLength mem pos < 12 ∨
        pos + pad32 (avpLength mem pos) < 2 ^ 64) := by
  rw [avpReads]
  by_cases hend : size ≤ pos
  · simp [hend]
  rw [if_neg hend]
  by_cases h8 : avpLength mem pos < 8
  · have h12 : avpLength mem pos < 12 := by omega
    simp [h8, h12, hend]
    omega
  rw [if_neg h8]
  have hlen : avpLength mem pos < 256 ^ 3 := ofBe_lt [mem (pos + 5), mem (pos + 6), mem (pos + 7)]
  have hpad := pad32_lt (avpLength mem pos)
  have hle := le_pad32 (avpLength mem pos)
  by_cases hguard : hasVendor mem pos ∧ avpLength mem pos < 12 ∨ size < sizeT (pos + pad32 (avpLength mem pos))
  · rw [if_pos hguard]
    have hlast : ¬hasVendor mem pos ∨ avpLength mem pos < 12 ∨ pos + pad32 (avpLength mem pos) < 2 ^ 64 := by
      rcases hguard with ⟨-, h12⟩ | hover
      · exact .inr (.inl h12)
      · -- a position that wraps is small, and the group is not
        refine .inr (.inr ?_)
        unfold sizeT at hover
        omega
    rw [and_iff_left (.inr hlast)]
    simp [hend]
    omega
  · rw [if_neg hguard]
    rw [not_or, not_and, not_lt, not_lt] at hguard
    by_cases hv : hasVendor mem pos
    · have h12 := hguard.1 hv
      have hover := hguard.2
      simp only [hv, if_true, hend, false_or, not_true_eq_false, List.append_assoc, List.mem_append, List.mem_cons,
        List.not_mem_nil, or_false]
      refine ⟨fun h => ?_, fun h => ?_⟩
      · have := h (pos + 11) (by simp)
        omega
      · have hroom : pos + 12 ≤ size := by
          rcases h.2 with h | h | h
          · exact h
          · omega
          · rw [sizeT, Nat.mod_eq_of_lt h] at hover
            omega
        intro o ho
        omega
    · rw [and_iff_left (.inr (.inl hv))]
      simp [hv, hend]
      omega

/-- Four bytes are left of a group, and eight are read. -/
theorem header_past_group : ¬∀ o ∈ avpReads (fun _ => 0) 4 0, o < 4 := by
  decide

theorem avpReads_iff_header : (∀ o ∈ avpReads (fun _ => 0) 8 0, o < 8) ↔ 8 ≤ 0 ∨ 0 + 8 ≤ 8 ∧ (0 + 12 ≤ 8 ∨
    ¬hasVendor (fun _ => 0) 0 ∨ avpLength (fun _ => 0) 0 < 12 ∨ 0 + pad32 (avpLength (fun _ => 0) 0) < 2 ^ 64) :=
  avpReads_iff (fun _ => 0) 8 0 (by omega)

end Mand.Msg
