import Mand.Rpc.Value

/-! # Sizes of payloads

What `dmconfig_avp2value` reads of a payload, and the payloads that it accepts for the types of a fixed width. -/
namespace Mand.Rpc
open Mand.Bytes Mand.Msg Mand.Store Mand.Notify Mand.Server
set_option autoImplicit false

/-- The width of the wire form of a type under a code; texts, blocks and names have none. -/
def wireWidth (type : DmType) (code : UInt32) : Option ℕ :=
  if code = avpUnknown then none
  else match type with
    | .int => some 4
    | .uint => some 4
    | .int64 => some 8
    | .uint64 => some 8
    | .bool => some 1
    | .date => some 4
    | .ticks => some 8
    | .ipaddr4 => some 6
    | .ipaddr6 => some 18
    | .enum => if code = avpEnumid then some 4 else none
    | _ => none

/-- Only the payload is read, nothing is left unset, and a value of a fixed width comes from a payload of this width. -/
def StaysInside (D : DecodeEnv) (avp : Dm2Avp) (e : DmElement) : Prop :=
  ∃ r, dmconfigAvp2value D avp e = some r ∧
    ∀ v w, r = .ok v → wireWidth e.type avp.code = some w → avp.data.length = w

/-- The codes that a type of numbers is read from, with their width. -/
def numberCodes : DmType → List UInt32 × ℕ
  | .int => ([avpInt32], 4)
  | .uint => ([avpUint32], 4)
  | .int64 => ([avpInt64], 8)
  | .uint64 => ([avpUint64], 8)
  | .bool => ([avpBool], 1)
  | .date => ([avpDate], 4)
  | .ticks => ([avpAbsticks, avpRelticks], 8)
  | _ => ([], 0)

/-- The payloads that do no harm. -/
def Harmless (avp : Dm2Avp) (e : DmElement) : Prop :=
  avp.code = avpUnknown ∨
  (avp.code ∈ (numberCodes e.type).1 → avp.data.length = (numberCodes e.type).2) ∧
  (e.type = .ipaddr4 → avp.code = avpAddress → ∃ af, getUint 2 avp.data = some af ∧ af ≠ Family.inet6.iana ∧
    (af = Family.inet.iana → avp.data.length = 6)) ∧
  (e.type = .ipaddr6 → avp.code = avpAddress → ∃ af, getUint 2 avp.data = some af ∧
    (af = Family.inet.iana → 6 ≤ avp.data.length) ∧ (af = Family.inet6.iana → avp.data.length = 18)) ∧
  (e.type = .enum → avp.code = avpEnumid → ∃ n, getInt 4 avp.data = some n ∧
    (0 ≤ n → n < e.enums.length → avp.data.length = 4))

theorem getUint_some_iff {w : ℕ} {data : List UInt8} : (∃ n, getUint w data = some n) ↔ w ≤ data.length := by
  rw [getUint, peek]
  split_ifs with h
  · simp at h
    simp [h]
  · simp at h
    simp
    omega

theorem getUint_none {w : ℕ} {data : List UInt8} (h : data.length < w) : getUint w data = none := by
  cases hn : getUint w data with
  | none => rfl
  | some n =>
    have := getUint_some_iff.mp ⟨n, hn⟩
    omega

section Types

variable {D : DecodeEnv} {avp : Dm2Avp} {e : DmElement}

/-- A type of numbers: the bytes under its codes, and an error under all others. -/
theorem number_value (hu : avp.code ≠ avpUnknown) (hnum : (numberCodes e.type).1 ≠ []) : ∃ f : ℕ → Value,
    dmconfigAvp2value D avp e =
      if avp.code ∈ (numberCodes e.type).1 then (getUint (numberCodes e.type).2 avp.data).map fun n => .ok (f n)
      else some (.error .invalidType) := by
  rw [dmconfigAvp2value, if_neg hu]
  cases ht : e.type <;> rw [ht] at hnum <;> simp only [numberCodes, ne_eq, not_true_eq_false, reduceCtorEq] at hnum
  case int =>
    refine ⟨fun n => .int ((n : ℤ).bmod (256 ^ 4)), ?_⟩
    simp [whenCode, getInt, numberCodes, Function.comp_def]
  case uint =>
    refine ⟨fun n => .uint n, ?_⟩
    simp [whenCode, numberCodes]
  case int64 =>
    refine ⟨fun n => .int64 ((n : ℤ).bmod (256 ^ 8)), ?_⟩
    simp [whenCode, getInt, numberCodes, Function.comp_def]
  case uint64 =>
    refine ⟨fun n => .uint64 n, ?_⟩
    simp [whenCode, numberCodes]
  case bool =>
    refine ⟨fun n => .bool n, ?_⟩
    simp [whenCode, numberCodes]
  case date =>
    refine ⟨fun n => .date (n - timeSinceEpoch), ?_⟩
    simp [whenCode, dmGetTimeAvp, numberCodes, Function.comp_def]
  case ticks =>
    refine ⟨fun n => .ticks ((n : ℤ).bmod (256 ^ 8)), ?_⟩
    by_cases habs : avp.code = avpAbsticks
    · simp [habs, getInt, numberCodes, Function.comp_def]
    · simp [whenCode, habs, getInt, numberCodes, Function.comp_def]

theorem number_inside (hu : avp.code ≠ avpUnknown) (hnum : (numberCodes e.type).1 ≠ []) :
    StaysInside D avp e ↔ (avp.code ∈ (numberCodes e.type).1 → avp.data.length = (numberCodes e.type).2) := by
  have hwidth : wireWidth e.type avp.code = some (numberCodes e.type).2 := by
    cases ht : e.type <;> rw [ht] at hnum <;> simp [numberCodes] at hnum <;> simp [wireWidth, hu, numberCodes]
  obtain ⟨f, hf⟩ := number_value (D := D) hu hnum
  rw [StaysInside, hf, hwidth]
  by_cases hc : avp.code ∈ (numberCodes e.type).1
  · rw [if_pos hc]
    simp only [hc, true_implies]
    refine ⟨fun ⟨r, hr, hlen⟩ => ?_, fun hlen => ?_⟩
    · obtain ⟨n, -, rfl⟩ := Option.map_eq_some_iff.mp hr
      exact hlen _ _ rfl rfl
    · obtain ⟨n, hn⟩ := getUint_some_iff.mpr (le_of_eq hlen.symm)
      rw [hn]
      refine ⟨_, rfl, fun v w _ hw => ?_⟩
      rw [← Option.some.inj hw]
      exact hlen
  · rw [if_neg hc]
    simp [hc]

/-- An error, or a value of a type without a width. -/
theorem inside_of_some {r : Except DmResult Value} (h : dmconfigAvp2value D avp e = some r)
    (hw : wireWidth e.type avp.code = none ∨ ∃ c, r = .error c) : StaysInside D avp e := by
  refine ⟨r, h, fun v w hr hwidth => ?_⟩
  rcases hw with hw | ⟨c, rfl⟩
  · rw [hw] at hwidth
    cases hwidth
  · cases hr

/-- The families, and the sizes that are read without a harm. -/
theorem avpAddressOf_value (f : Family) (data : List UInt8) :
    avpAddressOf f data =
      (getUint 2 data).bind fun af =>
        if af = Family.inet.iana then
          if data.length < 6 then none
          else some (if f = .inet then .ok (((data.drop 2).take 4).map UInt8.toNat) else .error .invalidValue)
        else if af = Family.inet6.iana then
          if data.length < 18 ∨ f = .inet then none else some (.ok (((data.drop 2).take 16).map UInt8.toNat))
        else some (.error .invalidValue) := by
  rw [avpAddressOf, dmGetAddressAvp]
  cases getUint 2 data with
  | none => rfl
  | some af =>
    simp only [Option.bind_eq_bind, Option.bind_some, Family.iana, Family.size]
    by_cases h1 : af = 1
    · cases f <;> by_cases hlen : data.length < 6 <;> simp [h1, hlen]
    · by_cases h2 : af = 2
      · cases f <;> by_cases hlen : data.length < 18 <;> simp [h2, hlen]
      · simp [h1, h2]

theorem ip4_inside (hu : avp.code ≠ avpUnknown) (ht : e.type = .ipaddr4) :
    StaysInside D avp e ↔ (avp.code = avpAddress → ∃ af, getUint 2 avp.data = some af ∧ af ≠ Family.inet6.iana ∧
      (af = Family.inet.iana → avp.data.length = 6)) := by
  have hval : dmconfigAvp2value D avp e = whenCode avp avpAddress ((avpAddressOf .inet avp.data).map (·.map .ip4)) := by
    rw [dmconfigAvp2value, if_neg hu, ht]
  by_cases hc : avp.code = avpAddress
  · have hw : wireWidth e.type avp.code = some 6 := by simp [wireWidth, hu, ht]
    rw [StaysInside, hval, whenCode, if_pos hc, avpAddressOf_value, hw]
    simp only [hc, true_implies]
    cases haf : getUint 2 avp.data with
    | none => simp
    | some af =>
      have h2 := getUint_some_iff.mp ⟨af, haf⟩
      simp only [Option.bind_some, Option.some.injEq, exists_eq_left', Family.iana]
      by_cases h1 : af = 1
      · subst h1
        by_cases hlen : avp.data.length < 6
        · simp [hlen]
          omega
        · simp [hlen, Except.map]
      · by_cases h6 : af = 2
        · simp [h6]
        · simp [h1, h6, Except.map]
  · refine ⟨fun _ h => absurd h hc, fun _ => inside_of_some (r := .error .invalidType) ?_ (.inr ⟨_, rfl⟩)⟩
    rw [hval, whenCode, if_neg hc]

theorem ip6_inside (hu : avp.code ≠ avpUnknown) (ht : e.type = .ipaddr6) :
    StaysInside D avp e ↔ (avp.code = avpAddress → ∃ af, getUint 2 avp.data = some af ∧
      (af = Family.inet.iana → 6 ≤ avp.data.length) ∧ (af = Family.inet6.iana → avp.data.length = 18)) := by
  have hval : dmconfigAvp2value D avp e = whenCode avp avpAddress ((avpAddressOf .inet6 avp.data).map (·.map .ip6)) := by
    rw [dmconfigAvp2value, if_neg hu, ht]
  by_cases hc : avp.code = avpAddress
  · have hw : wireWidth e.type avp.code = some 18 := by simp [wireWidth, hu, ht]
    rw [StaysInside, hval, whenCode, if_pos hc, avpAddressOf_value, hw]
    simp only [hc, true_implies]
    cases haf : getUint 2 avp.data with
    | none => simp
    | some af =>
      simp only [Option.bind_some, Option.some.injEq, exists_eq_left', Family.iana]
      by_cases h1 : af = 1
      · by_cases hlen : avp.data.length < 6 <;> simp [h1, hlen, Except.map]
        omega
      · by_cases h6 : af = 2
        · subst h6
          by_cases hlen : avp.data.length < 18
          · simp [hlen]
            omega
          · simp [hlen, Except.map]
        · simp [h1, h6, Except.map]
  · refine ⟨fun _ h => absurd h hc, fun _ => inside_of_some (r := .error .invalidType) ?_ (.inr ⟨_, rfl⟩)⟩
    rw [hval, whenCode, if_neg hc]

theorem enum_inside (hu : avp.code ≠ avpUnknown) (ht : e.type = .enum) :
    StaysInside D avp e ↔ (avp.code = avpEnumid → ∃ n, getInt 4 avp.data = some n ∧
      (0 ≤ n → n < e.enums.length → avp.data.length = 4)) := by
  have hne : avpEnum ≠ avpEnumid := by decide
  by_cases hname : avp.code = avpEnum
  · refine ⟨fun _ h => absurd (hname.symm.trans h) hne, fun _ =>
      inside_of_some (r := avpEnumName D e avp.data) ?_ (.inl ?_)⟩
    · rw [dmconfigAvp2value, if_neg hu, ht]
      simp [hname]
    · simp [wireWidth, hu, ht, hname, hne]
  have hval : dmconfigAvp2value D avp e = whenCode avp avpEnumid ((getInt 4 avp.data).map (avpEnumNumber e)) := by
    rw [dmconfigAvp2value, if_neg hu, ht]
    simp [hname]
  by_cases hc : avp.code = avpEnumid
  · have hw : wireWidth e.type avp.code = some 4 := by simp [wireWidth, hc, ht, avpEnumid, avpUnknown]
    rw [StaysInside, hval, whenCode, if_pos hc, hw]
    simp only [hc, true_implies]
    cases getInt 4 avp.data with
    | none => simp
    | some n =>
      simp only [Option.map_some, Option.some.injEq, exists_eq_left', avpEnumNumber]
      by_cases hr : n < 0 ∨ e.enums.length ≤ n
      · rw [if_pos hr]
        simp
        omega
      · rw [if_neg hr]
        rw [not_or, not_lt, not_le] at hr
        simp [hr]
  · refine ⟨fun _ h => absurd h hc, fun _ => inside_of_some (r := .error .invalidType) ?_ (.inr ⟨_, rfl⟩)⟩
    rw [hval, whenCode, if_neg hc]

end Types

end Mand.Rpc
