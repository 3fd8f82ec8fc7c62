import Mand.Rpc.Agree
import Mand.Rpc.Bounds
import Mand.Server.Session
import Mand.Store.Spelling

/-! # Values from the wire

`dmconfig_avp2value`, which turns an AVP into the value of a leaf, against `dm_add_avp`. -/
namespace Mand.Rpc
open Mand.Bytes Mand.Msg Mand.Store Mand.Notify Mand.Server Mand.Index
set_option autoImplicit false

def avpEnumid : UInt32 := 1005

/-! ## Decoding -/

/-- What the conversion calls: memory, the data model and `dmconfig_string2value`. -/
structure DecodeEnv where
  alloc : Talloc
  schema : Schema
  string2value : DmElement → List UInt8 → Except DmResult Value

/-- `dm_get_uint8_avp`, `dm_get_uint32_avp` and `dm_get_uint64_avp`: no bytes behind the payload are known. -/
def getUint (w : ℕ) (data : List UInt8) : Option ℕ := (peek data 0 w).map ofBe

/-- `dm_get_int32_avp` and `dm_get_int64_avp`. -/
def getInt (w : ℕ) (data : List UInt8) : Option ℤ := (getUint w data).map fun n : ℕ => (n : ℤ).bmod (256 ^ w)

/-- `dm_get_time_avp`. -/
def dmGetTimeAvp (data : List UInt8) : Option ℤ := (getUint 4 data).map fun n : ℕ => (n : ℤ) - timeSinceEpoch

/-- The families of `dm_get_address_avp`, with their `IANA_` numbers and the sizes of their addresses. -/
inductive Family
  | inet
  | inet6
  deriving DecidableEq, Repr

def Family.iana : Family → ℕ
  | .inet => 1
  | .inet6 => 2

def Family.size : Family → ℕ
  | .inet => 4
  | .inet6 => 16

/-- `dm_get_address_avp` with room for `size` bytes; the result `0` is `some none`. A short address returns `1`, with
neither the family nor the address set. -/
def dmGetAddressAvp (size : ℕ) (data : List UInt8) : Option (Option (Family × List UInt8)) := do
  let af ← getUint 2 data
  let get (f : Family) : Option (Option (Family × List UInt8)) :=
    if data.length < f.size + 2 ∨ size < f.size then none else some (some (f, (data.drop 2).take f.size))
  if af = Family.inet.iana then get .inet
  else if af = Family.inet6.iana then get .inet6
  else some none

/-- `dm_enum2int`. -/
def dmEnum2int (names : List (List ℕ)) (id : List ℕ) : ℤ :=
  match names.findIdx? (· = id) with
  | some i => i
  | none => -1

section Decode

variable (D : DecodeEnv)

/-- `strndup` of the payload. -/
def strndup (data : List UInt8) : Except DmResult (List ℕ) :=
  if D.alloc.grants ((cString data).length + 1) = true then .ok ((cString data).map UInt8.toNat) else .error .oom

/-- `dm_set_string_value` of a value without a string. -/
def setStringValue (s : List ℕ) : Except DmResult Value :=
  if s = [] then .ok (.str none)
  else if D.alloc.grants (s.length + 1) = true then .ok (.str (some s)) else .error .oom

/-- `dm_set_binary_data` of a value without a block. -/
def setBinaryData (data : List UInt8) : Except DmResult Value :=
  if data = [] then .ok (.binary none)
  else if D.alloc.grants (4 + data.length) = true then .ok (.binary (some (data.map UInt8.toNat))) else .error .oom

/-- `dm_set_selector_value` of a value without a selector. -/
def setSelectorValue (sel : Selector) : Except DmResult Value :=
  if sel.headD 0 = 0 then .ok (.selector none)
  else if D.alloc.grants 32 = true then .ok (.selector (some sel)) else .error .oom

/-- The path in a payload; an empty one is no path. -/
def avpSelector (data : List UInt8) : Except DmResult Value := do
  let dum ← strndup D data
  if dum = [] then setSelectorValue D []
  else match dmName2sel D.schema dum with
    | none => .error .invalidValue
    | some sel => setSelectorValue D sel

/-- The address in a payload. -/
def avpAddressOf (f : Family) (data : List UInt8) : Option (Except DmResult (List ℕ)) :=
  (dmGetAddressAvp f.size data).map fun r =>
    match r with
    | none => .error .invalidValue
    | some (af, addr) => if af = f then .ok (addr.map UInt8.toNat) else .error .invalidValue

/-- The constant that a name in a payload stands for. -/
def avpEnumName (e : DmElement) (data : List UInt8) : Except DmResult Value := do
  let dum ← strndup D data
  if dmEnum2int e.enums dum = -1 then .error .invalidValue else .ok (.enum (dmEnum2int e.enums dum))

/-- A constant by its number. -/
def avpEnumNumber (e : DmElement) (n : ℤ) : Except DmResult Value :=
  if n < 0 ∨ e.enums.length ≤ n then .error .invalidValue else .ok (.enum n)

/-- A payload of the only code that is allowed. -/
def whenCode (avp : Dm2Avp) (code : UInt32) (r : Option (Except DmResult Value)) : Option (Except DmResult Value) :=
  if avp.code = code then r else some (.error .invalidType)

/-- `dmconfig_avp2value`; there is no result if it reads what no one has written. -/
def dmconfigAvp2value (avp : Dm2Avp) (e : DmElement) : Option (Except DmResult Value) :=
  if avp.code = avpUnknown then some (D.string2value e avp.data)
  else match e.type with
    | .str => whenCode avp avpString (some ((strndup D avp.data).bind (setStringValue D)))
    | .binary => whenCode avp avpBinary (some (setBinaryData D avp.data))
    | .base64 => whenCode avp avpBinary (some (setBinaryData D avp.data))
    | .selector => whenCode avp avpPath (some (avpSelector D avp.data))
    | .ipaddr4 => whenCode avp avpAddress ((avpAddressOf .inet avp.data).map (·.map .ip4))
    | .ipaddr6 => whenCode avp avpAddress ((avpAddressOf .inet6 avp.data).map (·.map .ip6))
    | .enum =>
      if avp.code = avpEnum then some (avpEnumName D e avp.data)
      else whenCode avp avpEnumid ((getInt 4 avp.data).map (avpEnumNumber e))
    | .int => whenCode avp avpInt32 ((getInt 4 avp.data).map fun n => .ok (.int n))
    | .uint => whenCode avp avpUint32 ((getUint 4 avp.data).map fun n => .ok (.uint n))
    | .int64 => whenCode avp avpInt64 ((getInt 8 avp.data).map fun n => .ok (.int64 n))
    | .uint64 => whenCode avp avpUint64 ((getUint 8 avp.data).map fun n => .ok (.uint64 n))
    | .bool => whenCode avp avpBool ((getUint 1 avp.data).map fun n : ℕ => .ok (.bool n))
    | .date => whenCode avp avpDate ((dmGetTimeAvp avp.data).map fun n => .ok (.date n))
    | .ticks =>
      if avp.code = avpAbsticks then (getInt 8 avp.data).map fun n => .ok (.ticks n)
      else whenCode avp avpRelticks ((getInt 8 avp.data).map fun n => .ok (.ticks n))
    | _ => some (.error .invalidType)

/-- The value in the first AVP of some bytes, as a request for an element finds it. -/
def decodeAvp (e : DmElement) (bytes : List UInt8) : Option (Except DmResult Value) :=
  match dmExpectValue (dmInitAvpgrp bytes bytes.length) with
  | .ok (.ok avp, _) => dmconfigAvp2value D avp e
  | _ => none

/-- The first AVP of some bytes. -/
def firstAvp (bytes : List UInt8) : Option Dm2Avp :=
  match dmExpectValue (dmInitAvpgrp bytes bytes.length) with
  | .ok (.ok avp, _) => some avp
  | _ => none

theorem decodeAvp_eq (e : DmElement) (bytes : List UInt8) :
    decodeAvp D e bytes = (firstAvp bytes).bind fun avp => dmconfigAvp2value D avp e := by
  unfold decodeAvp firstAvp
  split <;> rfl

end Decode

/-! ## Values of leaves -/

/-- Bytes of a C string. -/
def CText (s : List ℕ) : Prop := ∀ c ∈ s, 0 < c ∧ c < 256

/-- Bytes. -/
def Octets (l : List ℕ) : Prop := ∀ c ∈ l, c < 256

/-- The values that fit the members of the union: the ranges of the C types, and pointers as the setters leave
them, null for an empty string, block or selector. -/
def Storable : Value → Prop
  | .int n => -2 ^ 31 ≤ n ∧ n < 2 ^ 31
  | .uint n => n < 2 ^ 32
  | .bool n => -2 ^ 31 ≤ n ∧ n < 2 ^ 31
  | .str s => ∀ t, s = some t → t ≠ [] ∧ CText t ∧ t.length < 2 ^ 63
  | .binary b => ∀ t, b = some t → t ≠ [] ∧ Octets t ∧ t.length < 2 ^ 32
  | .date n => -2 ^ 63 ≤ n ∧ n < 2 ^ 63
  | .enum n => -2 ^ 31 ≤ n ∧ n < 2 ^ 31
  | .selector s => ∀ t, s = some t → t ≠ [] ∧ IdList t ∧ t.length ≤ dmSelectorLen
  | .ip4 b => b.length = 4 ∧ Octets b
  | .ip6 b => b.length = 16 ∧ Octets b
  | .int64 n => -2 ^ 63 ≤ n ∧ n < 2 ^ 63
  | .uint64 n => n < 2 ^ 64
  | .ticks n => -2 ^ 63 ≤ n ∧ n < 2 ^ 63
  | .node _ => False

/-- The texts of a schema are C strings, and its ids fit. -/
structure Printed (S : Schema) : Prop where
  numbered : S.Numbered
  keys : ∀ k, ∀ e ∈ (S.table k).elems, CText e.key
  enums : ∀ k, ∀ e ∈ (S.table k).elems, ∀ name ∈ e.enums, CText name

/-- `ticks2realtime`, with the distance of the two clocks. -/
def ticks2realtime (base t : ℤ) : ℤ := base + t

/-- The length field of an AVP has 24 bits. -/
def fitsAvp (data : List ℕ) : Prop := data.length + 12 < 2 ^ 24

/-- The values that survive the way over the wire. -/
def Returns (S : Schema) (base : ℤ) (e : DmElement) : Value → Prop
  | .bool n => 0 ≤ n ∧ n < 256
  | .date n => -timeSinceEpoch ≤ n
  | .ticks _ => e.flags.datetime = true → base = 0
  | .enum n => ∃ name, 0 ≤ n ∧ e.enums[n.toNat]? = some name ∧ name ∉ e.enums.take n.toNat ∧ fitsAvp name
  | .str s => ∀ t, s = some t → fitsAvp t
  | .binary b => ∀ t, b = some t → fitsAvp t
  | .selector s => ∀ t, s = some t → Readable S t maxParamNameLen
  | _ => True

/-! ## Numbers -/

theorem getUint_append (w n : ℕ) (rest : List UInt8) : getUint w (be w n ++ rest) = some (n % 256 ^ w) := by
  rw [getUint, peek_middle _ [] (be w n) rest 0 w (by simp) rfl (by simp), Option.map_some, ofBe_be]

theorem getUint_intBytes (w : ℕ) (n : ℤ) : getUint w (intBytes w n) = some (n % 256 ^ w).toNat := by
  have h := getUint_append w (n % 256 ^ w).toNat []
  rw [List.append_nil] at h
  rw [intBytes, h, Nat.mod_eq_of_lt]
  have hpos : (0 : ℤ) < 256 ^ w := by positivity
  have hlt := Int.emod_lt_of_pos n hpos
  have hnn := Int.emod_nonneg n hpos.ne'
  zify
  rw [Int.toNat_of_nonneg hnn]
  exact hlt

theorem getInt_intBytes (w : ℕ) (n : ℤ) : getInt w (intBytes w n) = some (n.bmod (256 ^ w)) := by
  have hpos : (0 : ℤ) < 256 ^ w := by positivity
  rw [getInt, getUint_intBytes, Option.map_some, Int.toNat_of_nonneg (Int.emod_nonneg n hpos.ne')]
  have h := Int.emod_bmod (x := n) (n := 256 ^ w)
  push_cast at h
  rw [h]

/-! ## One AVP -/

theorem headLen_vpTravelping : headLen vpTravelping = 12 := by decide

theorem wire_avp (code : UInt32) (data : List UInt8) :
    wire (avp code data) = avpHead code vpTravelping (headLen vpTravelping + data.length) ++ data ++
      List.replicate (pad32 (headLen vpTravelping + data.length) - (headLen vpTravelping + data.length)) 0 := by
  simp [avp, wire, avpBytes]

theorem firstAvp_short (code : UInt32) {data : List UInt8} (hfit : data.length + 12 < 2 ^ 24) :
    firstAvp (wire (avp code data)) = some ⟨code, vpTravelping, data⟩ := by
  have hv := headLen_vpTravelping
  have hpad := pad32_lt (headLen vpTravelping + data.length)
  have hlen : (wire (avp code data)).length = pad32 (headLen vpTravelping + data.length) := by
    simp [avp, wire, avpBytes_length]
  have hexp := dmExpectAvp_head (dmInitAvpgrp (wire (avp code data)) (wire (avp code data)).length) [] data
    (List.replicate (pad32 (headLen vpTravelping + data.length) - (headLen vpTravelping + data.length)) 0) code
    vpTravelping (by rw [dmInitAvpgrp, List.nil_append]; exact wire_avp code data) rfl (by omega)
    (by simp [dmInitAvpgrp, hlen]) (by simp only [dmInitAvpgrp, hlen]; omega)
  have hdrop : (wire (avp code data)).drop (headLen vpTravelping) = data ++
      List.replicate (pad32 (headLen vpTravelping + data.length) - (headLen vpTravelping + data.length)) 0 := by
    rw [wire_avp, List.append_assoc, List.drop_left' (by simp)]
  have hoff : headLen vpTravelping ≤ (wire (avp code data)).length := by
    have := le_pad32 (headLen vpTravelping + data.length)
    omega
  have hread : dmExpectValue (dmInitAvpgrp (wire (avp code data)) (wire (avp code data)).length) = .ok (.ok
      ⟨code, vpTravelping, data⟩, ⟨wire (avp code data), (wire (avp code data)).length,
        pad32 (headLen vpTravelping + data.length)⟩) := by
    show Expect.bind (call dmExpectAvp) _ _ = _
    simp only [Expect.bind, call, hexp, List.length_nil, Nat.zero_add]
    show Expect.bind (payload _) _ _ = _
    rw [Expect.bind, payload_of_drop hdrop hoff]
    rfl
  rw [firstAvp, hread]

theorem decodeAvp_short (D : DecodeEnv) (e : DmElement) (code : UInt32) {data : List UInt8}
    (hfit : data.length + 12 < 2 ^ 24) :
    decodeAvp D e (wire (avp code data)) = dmconfigAvp2value D ⟨code, vpTravelping, data⟩ e := by
  rw [decodeAvp_eq, firstAvp_short code hfit, Option.bind_some]

/-- The length of an AVP with a vendor, as its head has it. -/
theorem dmExpectAvp_length {grp grp' : Dm2AvpGrp} {avp : AvpRef} (h : dmExpectAvp grp = some (.ok avp, grp'))
    (hflags : grp.data[grp.pos + 4]? = some avpFlagVendor) :
    (peek grp.data (grp.pos + 5) 3).map ofBe = some (avp.len + 12) := by
  unfold dmExpectAvp at h
  split at h
  · cases h
  simp only [Option.bind_eq_bind, Option.bind_eq_some_iff] at h
  obtain ⟨avpLen, hlen, flags, hf, h⟩ := h
  rw [hflags] at hf
  have hvendor : flags &&& avpFlagVendor ≠ 0 := by
    rw [← Option.some.inj hf]
    decide
  split at h
  · cases h
  · rename_i hguard
    obtain ⟨code, -, h⟩ := Option.bind_eq_some_iff.mp h
    obtain ⟨vendorId, -, h⟩ := Option.bind_eq_some_iff.mp h
    cases h
    have h12 : ¬avpLen < 12 := fun hlt => hguard (.inr (.inl ⟨hvendor, hlt⟩))
    rw [hlen, Option.some.injEq]
    simp only
    omega

/-- The length on the wire has 24 bits. -/
theorem firstAvp_length {code : UInt32} {data : List UInt8} {a : Dm2Avp} (h : firstAvp (wire (avp code data)) = some a) :
    a.code = code ∧ a.data.length + 12 = (data.length + 12) % 2 ^ 24 := by
  unfold firstAvp at h
  split at h
  · rename_i a' g hread
    cases h
    rw [dmExpectValue] at hread
    rcases bind_ok hread with ⟨rc, hr, -⟩ | ⟨ref, g1, hexp, hread⟩
    · cases hr
    rcases bind_ok hread with ⟨rc, hr, -⟩ | ⟨bytes, g2, hpay, hread⟩
    · cases hr
    have hflags : (wire (Notify.avp code data))[4]? = some avpFlagVendor := by
      rw [wire_avp, avpHead]
      simp [vendorFlag, vpTravelping]
    have hcode : (peek (wire (Notify.avp code data)) 0 4).map ntohl = some code := by
      rw [peek_middle _ [] (be 4 code.toNat) ((wire (Notify.avp code data)).drop 4) 0 4 ?_ rfl (by simp), Option.map_some,
        ntohl_be]
      rw [wire_avp, avpHead]
      simp
    have hhead : (peek (wire (Notify.avp code data)) 5 3).map ofBe = some ((data.length + 12) % 2 ^ 24) := by
      have hsplit : wire (Notify.avp code data) = be 4 code.toNat ++ [vendorFlag vpTravelping] ++
          be 3 (headLen vpTravelping + data.length) ++ (vendorBytes vpTravelping ++ data ++ List.replicate
            (pad32 (headLen vpTravelping + data.length) - (headLen vpTravelping + data.length)) 0) := by
        rw [wire_avp, avpHead]
        simp only [List.append_assoc]
      rw [peek_middle _ _ _ _ 5 3 hsplit (by simp) (by simp), Option.map_some, ofBe_be, headLen_vpTravelping,
        Nat.add_comm 12]
      rfl
    have hlen : a.code = ref.code ∧ a.data.length = ref.len := by
      unfold payload at hpay
      split at hpay
      · cases hpay
      · rename_i bytes' hpeek
        cases hpay
        cases hread
        exact ⟨rfl, (peek_eq_some hpeek).2.2⟩
    unfold call at hexp
    split at hexp
    · cases hexp
    · rename_i x hx
      cases hexp
      have hcode' := dmExpectAvp_code hx
      have hlen' := dmExpectAvp_length hx hflags
      rw [dmInitAvpgrp, hcode] at hcode'
      rw [dmInitAvpgrp, hhead] at hlen'
      rw [hlen.1, hlen.2]
      exact ⟨(Option.some.inj hcode').symm, (Option.some.inj hlen').symm⟩
  · cases h

/-- What is read as one AVP is short. -/
theorem decodeAvp_length {D : DecodeEnv} {e : DmElement} {code : UInt32} {data : List UInt8} {v : Value}
    (h : decodeAvp D e (wire (avp code data)) = some (.ok v)) :
    ∃ avp : Dm2Avp, dmconfigAvp2value D avp e = some (.ok v) ∧ avp.code = code ∧ avp.data.length + 12 < 2 ^ 24 := by
  rw [decodeAvp_eq, Option.bind_eq_some_iff] at h
  obtain ⟨a, hfirst, hv⟩ := h
  obtain ⟨hcode, hlen⟩ := firstAvp_length hfirst
  exact ⟨a, hv, hcode, by rw [hlen]; exact Nat.mod_lt _ (by decide)⟩

/-- A payload is read back if it fits, and else something shorter is read. -/
theorem decodeAvp_iff {D : DecodeEnv} {e : DmElement} {code : UInt32} {data : List UInt8} {v : Value}
    (hlong : ∀ avp : Dm2Avp, avp.code = code → dmconfigAvp2value D avp e = some (.ok v) → data.length ≤ avp.data.length) :
    decodeAvp D e (wire (avp code data)) = some (.ok v) ↔
      data.length + 12 < 2 ^ 24 ∧ dmconfigAvp2value D ⟨code, vpTravelping, data⟩ e = some (.ok v) := by
  by_cases hfit : data.length + 12 < 2 ^ 24
  · rw [decodeAvp_short D e code hfit]
    exact ⟨fun h => ⟨hfit, h⟩, fun h => h.2⟩
  · refine ⟨fun h => ?_, fun h => absurd h.1 hfit⟩
    obtain ⟨avp, hv, hcode, hlen⟩ := decodeAvp_length h
    have := hlong avp hcode hv
    omega

/-! ## Texts -/

@[simp] theorem octets_length (l : List ℕ) : (octets l).length = l.length := by simp [octets]

theorem octets_toNat {l : List ℕ} (h : Octets l) : (octets l).map UInt8.toNat = l := by
  rw [octets, List.map_map]
  conv_rhs => rw [← List.map_id l]
  refine List.map_congr_left fun c hc => ?_
  have := h c hc
  simp [Nat.mod_eq_of_lt this]

theorem CText.octets {l : List ℕ} (h : CText l) : Octets l := fun c hc => (h c hc).2

theorem cString_octets {l : List ℕ} (h : CText l) : cString (octets l) = octets l := by
  refine List.takeWhile_eq_self_iff.mpr fun b hb => ?_
  obtain ⟨c, hc, rfl⟩ := List.mem_map.mp hb
  obtain ⟨hpos, hlt⟩ := h c hc
  simp only [ne_eq, decide_eq_true_eq]
  intro h0
  have := congrArg UInt8.toNat h0
  simp [Nat.mod_eq_of_lt hlt] at this
  omega

theorem cString_length_le (data : List UInt8) : (cString data).length ≤ data.length :=
  (List.takeWhile_prefix _).length_le

section Cases

variable {D : DecodeEnv} (hD : ∀ n, D.alloc.grants n = true) {e : DmElement}

include hD in
theorem strndup_octets {l : List ℕ} (h : CText l) : strndup D (octets l) = .ok l := by
  rw [strndup, if_pos (hD _), cString_octets h, octets_toNat h.octets]

theorem strndup_length {data : List UInt8} {s : List ℕ} (h : strndup D data = .ok s) : s.length ≤ data.length := by
  unfold strndup at h
  split at h
  · cases h
    simpa using cString_length_le data
  · cases h

include hD in
theorem str_returns (he : e.type = .str) {s : Option (List ℕ)} (hs : Storable (.str s)) :
    decodeAvp D e (wire (avp avpString (valueOctets (.str s)))) = some (.ok (.str s)) ↔ ∀ t, s = some t → fitsAvp t := by
  have hval (avp : Dm2Avp) (hc : avp.code = avpString) :
      dmconfigAvp2value D avp e = some ((strndup D avp.data).bind (setStringValue D)) := by
    simp [dmconfigAvp2value, whenCode, hc, he, avpString, avpUnknown]
  cases s with
  | none =>
    rw [decodeAvp_short D e _ (by simp [valueOctets]), hval _ rfl]
    have hdup : strndup D [] = .ok [] := strndup_octets hD fun _ h => absurd h List.not_mem_nil
    simp [valueOctets, octets, hdup, Except.bind, setStringValue]
  | some t =>
    obtain ⟨hne, htext, -⟩ := hs t rfl
    have hset : setStringValue D t = .ok (.str (some t)) := by
      rw [setStringValue, if_neg hne, if_pos (hD _)]
    rw [decodeAvp_iff, hval _ rfl]
    · simp only [valueOctets, Option.getD_some, strndup_octets hD htext, Except.bind, hset, octets_length, and_true]
      simp [fitsAvp]
    · intro avp hc hv
      rw [hval avp hc] at hv
      simp only [valueOctets, Option.getD_some, octets_length]
      cases hdup : strndup D avp.data with
      | error r => simp [hdup, Except.bind] at hv
      | ok s =>
        have hlen := strndup_length hdup
        rw [hdup] at hv
        simp only [Except.bind, setStringValue, Option.some.injEq] at hv
        split_ifs at hv
        all_goals cases hv
        exact hlen

include hD in
theorem binary_returns (he : e.type = .binary ∨ e.type = .base64) {b : Option (List ℕ)} (hb : Storable (.binary b)) :
    decodeAvp D e (wire (avp avpBinary (valueOctets (.binary b)))) = some (.ok (.binary b)) ↔
      ∀ t, b = some t → fitsAvp t := by
  have hval (avp : Dm2Avp) (hc : avp.code = avpBinary) :
      dmconfigAvp2value D avp e = some (setBinaryData D avp.data) := by
    rcases he with he | he <;> simp [dmconfigAvp2value, whenCode, hc, he, avpBinary, avpUnknown]
  cases b with
  | none =>
    rw [decodeAvp_short D e _ (by simp [valueOctets]), hval _ rfl]
    simp [valueOctets, octets, setBinaryData]
  | some t =>
    obtain ⟨hne, hoct, -⟩ := hb t rfl
    have hset : setBinaryData D (octets t) = .ok (.binary (some t)) := by
      rw [setBinaryData, if_neg (by simpa [octets] using hne), if_pos (hD _), octets_toNat hoct]
    rw [decodeAvp_iff, hval _ rfl]
    · simp only [valueOctets, Option.getD_some, hset, octets_length, and_true]
      simp [fitsAvp]
    · intro avp hc hv
      rw [hval avp hc] at hv
      simp only [setBinaryData, Option.some.injEq] at hv
      split_ifs at hv
      all_goals cases hv
      simp [valueOctets]

/-! ## Enumerations -/

theorem dmEnum2int_iff (names : List (List ℕ)) (id : List ℕ) (n : ℤ) :
    (dmEnum2int names id = n ∧ n ≠ -1) ↔ 0 ≤ n ∧ names[n.toNat]? = some id ∧ id ∉ names.take n.toNat := by
  unfold dmEnum2int
  cases hi : names.findIdx? (· = id) with
  | none =>
    have hnone := List.findIdx?_eq_none_iff.mp hi
    refine ⟨fun ⟨h, hn⟩ => absurd h.symm hn, fun ⟨_, hget, _⟩ => ?_⟩
    have := hnone id (List.mem_of_getElem? hget)
    simp at this
  | some i =>
    obtain ⟨hlt, hkey, hfirst⟩ := List.findIdx?_eq_some_iff_getElem.mp hi
    simp only [decide_eq_true_eq] at hkey hfirst
    have htake : id ∉ names.take i := by
      intro hmem
      obtain ⟨j, hj, hget⟩ := List.getElem_of_mem hmem
      rw [List.getElem_take] at hget
      rw [List.length_take] at hj
      exact hfirst j (by omega) hget
    show ((i : ℤ) = n ∧ n ≠ -1) ↔ _
    refine ⟨?_, ?_⟩
    · rintro ⟨rfl, -⟩
      exact ⟨by omega, by simp [hlt, hkey], by simpa using htake⟩
    · rintro ⟨hn, hget, hnot⟩
      obtain ⟨hlt', hget'⟩ := List.getElem?_eq_some_iff.mp hget
      have hge : ¬n.toNat < i := fun h => hfirst n.toNat h hget'
      have hle : ¬i < n.toNat := fun h => hnot (List.mem_take_iff_getElem.mpr ⟨i, by omega, hkey⟩)
      omega

theorem avpEnumName_iff (data : List UInt8) (n : ℤ) :
    avpEnumName D e data = .ok (.enum n) ↔ ∃ dum, strndup D data = .ok dum ∧ dmEnum2int e.enums dum = n ∧ n ≠ -1 := by
  unfold avpEnumName
  cases hdup : strndup D data with
  | error r => simp [bind, Except.bind]
  | ok dum =>
    simp only [bind, Except.bind, Except.ok.injEq]
    split_ifs with h1
    · simp only [false_iff]
      rintro ⟨_, rfl, hn, hne⟩
      exact hne (by rw [← hn, h1])
    · simp only [Except.ok.injEq, Value.enum.injEq]
      refine ⟨fun h => ⟨dum, rfl, h, fun hn => h1 (by rw [h, hn])⟩, ?_⟩
      rintro ⟨_, rfl, hn, -⟩
      exact hn

theorem int2enum_of_get {names : List (List ℕ)} {n : ℤ} {name : List ℕ} (hn : 0 ≤ n) (h : names[n.toNat]? = some name) :
    Save.int2enum names n = name := by
  rw [Save.int2enum, if_neg (by omega), List.getD_eq_getElem?_getD, h, Option.getD_some]

theorem int2enum_text {names : List (List ℕ)} (hnames : ∀ name ∈ names, CText name) (n : ℤ) :
    CText (Save.int2enum names n) := by
  unfold Save.int2enum
  split_ifs
  · exact fun _ h => absurd h List.not_mem_nil
  · rw [List.getD_eq_getElem?_getD]
    cases hget : names[n.toNat]? with
    | none => exact fun _ h => absurd h List.not_mem_nil
    | some name => exact hnames name (List.mem_of_getElem? hget)

include hD in
theorem enum_returns (he : e.type = .enum) (hnames : ∀ name ∈ e.enums, CText name) (n : ℤ) :
    decodeAvp D e (wire (avp avpEnum (octets (Save.int2enum e.enums n)))) = some (.ok (.enum n)) ↔
      ∃ name, 0 ≤ n ∧ e.enums[n.toNat]? = some name ∧ name ∉ e.enums.take n.toNat ∧ fitsAvp name := by
  have hval (avp : Dm2Avp) (hc : avp.code = avpEnum) :
      dmconfigAvp2value D avp e = some (avpEnumName D e avp.data) := by
    simp [dmconfigAvp2value, hc, he, avpEnum, avpUnknown]
  rw [decodeAvp_iff, hval _ rfl, Option.some.injEq, avpEnumName_iff, strndup_octets hD (int2enum_text hnames n)]
  · simp only [Except.ok.injEq, exists_eq_left', dmEnum2int_iff, octets_length]
    refine ⟨fun ⟨hfit, hn, hget, hfirst⟩ => ⟨_, hn, hget, hfirst, hfit⟩, fun ⟨name, hn, hget, hfirst, hfit⟩ => ?_⟩
    rw [int2enum_of_get hn hget]
    exact ⟨hfit, hn, hget, hfirst⟩
  · intro avp hc hv
    rw [hval avp hc, Option.some.injEq, avpEnumName_iff] at hv
    obtain ⟨dum, hdup, hn⟩ := hv
    obtain ⟨hn, hget, -⟩ := (dmEnum2int_iff _ _ _).mp hn
    rw [int2enum_of_get hn hget, octets_length]
    exact strndup_length hdup

/-! ## Selectors -/

theorem dmSel2name_text {S : Schema} (hS : Printed S) {sel : Selector} {size : ℕ} {name : List ℕ}
    (h : dmSel2name S sel size = some name) : CText name :=
  sel2nameFrom_mem (by omega) (fun c hc => by omega) (fun k e he c hc => hS.keys k e he c hc) _ h

theorem dmSel2name_length {S : Schema} {sel : Selector} {name : List ℕ}
    (h : dmSel2name S sel maxParamNameLen = some name) : name.length + 12 < 2 ^ 24 := by
  have hlen := sel2nameFrom_length _ h
  simp only [maxParamNameLen] at hlen
  omega

include hD in
/-- The path in a payload is read as the selector that was written if it is readable. -/
theorem avpSelector_iff (hS : Printed D.schema) {sel : Selector} (hsel : Storable (.selector (some sel))) {name : List ℕ}
    (hname : dmSel2name D.schema sel maxParamNameLen = some name) :
    avpSelector D (octets name) = .ok (.selector (some sel)) ↔ Readable D.schema sel maxParamNameLen := by
  obtain ⟨hne, hids, hlen⟩ := hsel sel rfl
  rw [← dmName2sel_iff hS.numbered hids hlen hne (by decide) hname]
  rw [avpSelector, strndup_octets hD (dmSel2name_text hS hname)]
  have hhead : sel.headD 0 ≠ 0 := by
    obtain ⟨id, rest, rfl⟩ := List.exists_cons_of_ne_nil hne
    have := hids id List.mem_cons_self
    simp only [List.headD_cons]
    omega
  by_cases hnil : name = []
  · have hne' : ¬([] : Selector) = sel := fun h => hne h.symm
    simp [bind, Except.bind, hnil, setSelectorValue, dmName2sel, hne']
  · simp only [bind, Except.bind, hnil, if_false]
    cases hsel' : dmName2sel D.schema name with
    | none => simp
    | some sel' =>
      simp only [setSelectorValue, hD, if_true, Option.some.injEq]
      split_ifs with h0
      · simp only [Except.ok.injEq, Value.selector.injEq, reduceCtorEq, false_iff]
        rintro rfl
        exact hhead h0
      · simp

include hD in
theorem selector_returns (hS : Printed D.schema) (he : e.type = .selector) {sel : Selector}
    (hsel : Storable (.selector (some sel))) {name : List ℕ} (hname : dmSel2name D.schema sel maxParamNameLen = some name) :
    decodeAvp D e (wire (avp avpPath (octets name))) = some (.ok (.selector (some sel))) ↔
      Readable D.schema sel maxParamNameLen := by
  have hval : dmconfigAvp2value D ⟨avpPath, vpTravelping, octets name⟩ e = some (avpSelector D (octets name)) := by
    simp [dmconfigAvp2value, whenCode, he, avpPath, avpUnknown]
  rw [decodeAvp_short D e _ (by rw [octets_length]; exact dmSel2name_length hname), hval, Option.some.injEq,
    avpSelector_iff hD hS hsel hname]

/-! ## Numbers and addresses -/

theorem intBytes_fit {w : ℕ} (hw : w ≤ 8) (n : ℤ) : (intBytes w n).length + 12 < 2 ^ 24 := by
  simp only [intBytes, be_length]
  omega

/-- A number that fits its signed type comes back. -/
theorem bmod_range {w : ℕ} {n : ℤ} (hlow : -(256 ^ w) ≤ 2 * n) (hhigh : 2 * n < 256 ^ w) : n.bmod (256 ^ w) = n := by
  refine Int.bmod_eq_of_le_mul_two ?_ ?_
  · push_cast
    omega
  · push_cast
    omega

/-- An address is read with room for one of its family. -/
theorem getAddress_octets (f : Family) {size : ℕ} (hsize : f.size ≤ size) {b : List ℕ} (hlen : b.length = f.size) :
    dmGetAddressAvp size (be 2 f.iana ++ octets b) = some (some (f, octets b)) := by
  have haf : getUint 2 (be 2 f.iana ++ octets b) = some f.iana := by
    rw [getUint_append]
    cases f <;> rfl
  have hdrop : ((be 2 f.iana ++ octets b).drop 2).take f.size = octets b := by
    rw [List.drop_left' (by simp), List.take_of_length_le (by simp [hlen])]
  have hroom : ¬((be 2 f.iana ++ octets b).length < f.size + 2 ∨ size < f.size) := by
    simp only [List.length_append, be_length, octets_length, hlen]
    omega
  rw [dmGetAddressAvp, haf]
  cases f with
  | inet => exact (if_neg hroom).trans (by rw [hdrop])
  | inet6 => exact (if_neg hroom).trans (by rw [hdrop])

theorem addressOf_octets (f : Family) {b : List ℕ} (hlen : b.length = f.size) (hb : Octets b) :
    avpAddressOf f (be 2 f.iana ++ octets b) = some (.ok b) := by
  rw [avpAddressOf, getAddress_octets f le_rfl hlen]
  simp [octets_toNat hb]

theorem address_returns (f : Family) {c : List ℕ → Value} {b : List ℕ} (hlen : b.length = f.size) (hb : Octets b)
    (hval : ∀ avp : Dm2Avp, avp.code = avpAddress → dmconfigAvp2value D avp e =
      (avpAddressOf f avp.data).map (·.map c)) :
    decodeAvp D e (wire (avp avpAddress (be 2 f.iana ++ octets b))) = some (.ok (c b)) := by
  rw [decodeAvp_short D e _ ?_, hval _ rfl, addressOf_octets f hlen hb]
  · rfl
  · simp only [List.length_append, be_length, octets_length, hlen]
    cases f <;> simp [Family.size]

/-- A leaf of a signed type. -/
theorem int_returns {w : ℕ} (hw : w ≤ 8) {code : UInt32} {c : ℤ → Value} (n : ℤ)
    (hval : ∀ avp : Dm2Avp, avp.code = code → dmconfigAvp2value D avp e = (getInt w avp.data).map fun n => .ok (c n)) :
    decodeAvp D e (wire (avp code (intBytes w n))) = some (.ok (c (n.bmod (256 ^ w)))) := by
  rw [decodeAvp_short D e _ (intBytes_fit hw n), hval _ rfl, getInt_intBytes]
  rfl

/-- A leaf of an unsigned type. -/
theorem uint_returns {w : ℕ} (hw : w ≤ 8) {code : UInt32} {c : ℕ → Value} (n : ℤ)
    (hval : ∀ avp : Dm2Avp, avp.code = code → dmconfigAvp2value D avp e = (getUint w avp.data).map fun n => .ok (c n)) :
    decodeAvp D e (wire (avp code (intBytes w n))) = some (.ok (c (n % 256 ^ w).toNat)) := by
  rw [decodeAvp_short D e _ (intBytes_fit hw n), hval _ rfl, getUint_intBytes]
  rfl

end Cases

/-! ## Get, then set -/

section GetSet

variable {D : DecodeEnv} {e : DmElement}

theorem bool_returns (he : e.type = .bool) (n : ℤ) :
    decodeAvp D e (wire (avp avpBool (intBytes 1 n))) = some (.ok (.bool n)) ↔ 0 ≤ n ∧ n < 256 := by
  have hback : decodeAvp D e (wire (avp avpBool (intBytes 1 n))) = some (.ok (.bool (n % 256 ^ 1).toNat)) :=
    uint_returns (c := fun n => .bool n) (by omega) n fun avp hc => by
      simp [dmconfigAvp2value, whenCode, hc, he, avpBool, avpUnknown]
  rw [hback]
  simp only [Option.some.injEq, Except.ok.injEq, Value.bool.injEq]
  omega

theorem date_returns (he : e.type = .date) {n : ℤ} (hn : ¬0xFFFFFFFF < n + timeSinceEpoch) :
    decodeAvp D e (wire (avp avpDate (intBytes 4 (n + timeSinceEpoch)))) = some (.ok (.date n)) ↔ -timeSinceEpoch ≤ n := by
  have hback : decodeAvp D e (wire (avp avpDate (intBytes 4 (n + timeSinceEpoch)))) =
      some (.ok (.date (((n + timeSinceEpoch) % 256 ^ 4).toNat - timeSinceEpoch))) :=
    uint_returns (c := fun k => .date (k - timeSinceEpoch)) (by omega) _ fun avp hc => by
      simp [dmconfigAvp2value, whenCode, hc, he, avpDate, avpUnknown, dmGetTimeAvp, Function.comp_def]
  rw [hback]
  simp only [Option.some.injEq, Except.ok.injEq, Value.date.injEq]
  simp only [timeSinceEpoch] at hn ⊢
  omega

theorem ticks_returns (he : e.type = .ticks) {code : UInt32} (hc : code = avpAbsticks ∨ code = avpRelticks) (n : ℤ) :
    decodeAvp D e (wire (avp code (intBytes 8 n))) = some (.ok (.ticks (n.bmod (256 ^ 8)))) :=
  int_returns (by omega) n fun avp hcode => by
    rcases hc with rfl | rfl <;>
      simp [dmconfigAvp2value, whenCode, hcode, he, avpAbsticks, avpRelticks, avpUnknown]

/-- The types whose values always come back. -/
theorem number_returns {ev : EventEnv} {val : DmValue} {v : Value} {avps : Avps} (hleaf : leafValue (some val.content) = v)
    (ht : e.type = .int ∨ e.type = .uint ∨ e.type = .int64 ∨ e.type = .uint64 ∨ e.type = .ipaddr4 ∨ e.type = .ipaddr6)
    (htype : HasType e.type v) (hv : Storable v) (henc : addAvp ev e val = .ok avps) :
    decodeAvp D e (wire avps) = some (.ok v) := by
  unfold addAvp at henc
  rw [hleaf] at henc
  rcases ht with ht | ht | ht | ht | ht | ht <;> rw [ht] at henc htype <;> simp only [Except.ok.injEq] at henc <;>
    obtain ⟨n, rfl⟩ := htype <;> rw [← henc]
  · have hback : decodeAvp D e (wire (avp avpInt32 (intBytes 4 n))) = some (.ok (.int (n.bmod (256 ^ 4)))) :=
      int_returns (by omega) n fun avp hc => by simp [dmconfigAvp2value, whenCode, hc, ht, avpInt32, avpUnknown]
    rwa [bmod_range (by simp only [Storable] at hv; omega) (by simp only [Storable] at hv; omega)] at hback
  · have hback : decodeAvp D e (wire (avp avpUint32 (intBytes 4 n))) = some (.ok (.uint ((n : ℤ) % 256 ^ 4).toNat)) :=
      uint_returns (by omega) n fun avp hc => by simp [dmconfigAvp2value, whenCode, hc, ht, avpUint32, avpUnknown]
    have hn : ((n : ℤ) % 256 ^ 4).toNat = n := by
      simp only [Storable] at hv
      omega
    rwa [hn] at hback
  · have hback : decodeAvp D e (wire (avp avpInt64 (intBytes 8 n))) = some (.ok (.int64 (n.bmod (256 ^ 8)))) :=
      int_returns (by omega) n fun avp hc => by simp [dmconfigAvp2value, whenCode, hc, ht, avpInt64, avpUnknown]
    rwa [bmod_range (by simp only [Storable] at hv; omega) (by simp only [Storable] at hv; omega)] at hback
  · have hback : decodeAvp D e (wire (avp avpUint64 (intBytes 8 n))) = some (.ok (.uint64 ((n : ℤ) % 256 ^ 8).toNat)) :=
      uint_returns (by omega) n fun avp hc => by simp [dmconfigAvp2value, whenCode, hc, ht, avpUint64, avpUnknown]
    have hn : ((n : ℤ) % 256 ^ 8).toNat = n := by
      simp only [Storable] at hv
      omega
    rwa [hn] at hback
  · exact address_returns .inet hv.1 hv.2 fun avp hc => by
      simp [dmconfigAvp2value, whenCode, hc, ht, avpAddress, avpUnknown]
  · exact address_returns .inet6 hv.1 hv.2 fun avp hc => by
      simp [dmconfigAvp2value, whenCode, hc, ht, avpAddress, avpUnknown]

end GetSet

/-- **Get, then set.** A stored value of a writable leaf that `dm_add_avp` puts on the wire is decoded as the same value
exactly if it is one of the values that return. -/
theorem get_then_set (A : Talloc) (hA : ∀ n, A.grants n = true) (ev : EventEnv)
    (text : DmElement → List UInt8 → Except DmResult Value) (base : ℤ) (hbase : -2 ^ 63 ≤ base ∧ base < 2 ^ 63)
    (hclock : ev.realtime = ticks2realtime base) (hS : Printed ev.schema) (k : ℕ) (e : DmElement)
    (he : e ∈ (ev.schema.table k).elems) (hw : writable e.type = true) (val : DmValue) (v : Value)
    (hval : val.content = .scalar v) (htype : HasType e.type v) (hv : Storable v) (avps : Avps)
    (henc : addAvp ev e val = .ok avps) :
    decodeAvp ⟨A, ev.schema, text⟩ e (wire avps) = some (.ok v) ↔ Returns ev.schema base e v := by
  have hleaf : leafValue (some val.content) = v := by
    rw [hval]
    rfl
  by_cases hnum : e.type = .int ∨ e.type = .uint ∨ e.type = .int64 ∨ e.type = .uint64 ∨ e.type = .ipaddr4 ∨
      e.type = .ipaddr6
  · rw [number_returns hleaf hnum htype hv henc]
    rcases hnum with ht | ht | ht | ht | ht | ht <;> rw [ht] at htype <;> obtain ⟨n, rfl⟩ := htype <;> simp [Returns]
  unfold addAvp at henc
  rw [hleaf] at henc
  cases ht : e.type <;> rw [ht] at henc hw htype hnum <;> simp [writable] at hw hnum <;> obtain ⟨n, rfl⟩ := htype <;>
    simp only [Except.ok.injEq] at henc
  case bool =>
    rw [← henc]
    exact bool_returns ht n
  case str =>
    rw [← henc]
    exact str_returns hA ht hv
  case binary =>
    rw [← henc]
    exact binary_returns hA (.inl ht) hv
  case base64 =>
    rw [← henc]
    exact binary_returns hA (.inr ht) hv
  case date =>
    split_ifs at henc with hn
    cases henc
    exact date_returns ht hn
  case enum =>
    rw [← henc]
    exact enum_returns hA ht (hS.enums k e he) n
  case selector =>
    cases n with
    | none =>
      cases henc
      rw [decodeAvp_short _ _ _ (by simp)]
      have hdup : strndup ⟨A, ev.schema, text⟩ [] = .ok [] := strndup_octets hA fun _ h => absurd h List.not_mem_nil
      simp [dmconfigAvp2value, whenCode, ht, avpPath, avpUnknown, avpSelector, hdup, bind, Except.bind, setSelectorValue,
        Returns]
    | some sel =>
      cases hname : dmSel2name ev.schema sel maxParamNameLen with
      | none => simp [hname] at henc
      | some name =>
        simp only [hname, Except.ok.injEq] at henc
        rw [← henc, selector_returns (D := ⟨A, ev.schema, text⟩) hA hS ht hv hname]
        simp [Returns]
  case ticks =>
    have hn : n.bmod (256 ^ 8) = n := bmod_range (by simp only [Storable] at hv; omega) (by simp only [Storable] at hv; omega)
    split_ifs at henc with hd
    · cases henc
      rw [ticks_returns ht (.inl rfl), Option.some.injEq, Except.ok.injEq, Value.ticks.injEq, hclock, ticks2realtime]
      simp only [Returns, hd, true_implies, valueNumber, Value.number]
      simp only [Storable] at hv
      rw [Int.bmod_eq_iff (by norm_num)]
      omega
    · cases henc
      rw [ticks_returns ht (.inr rfl)]
      show some (Except.ok (Value.ticks (n.bmod (256 ^ 8)))) = _ ↔ _
      rw [hn]
      simp [Returns, hd]

/-! ## Samples -/

/-- A data model of a number and a point in time. -/
def sampleLeafTable : ℕ → DmTable
  | 0 => ⟨[sampleLeaf .uint, { sampleLeaf .ticks with key := [98], flags := { sampleFlags with datetime := true } }], []⟩
  | _ => ⟨[], []⟩

def sampleLeafSchema : Schema where
  table := sampleLeafTable
  root := 0
  child_lt := by
    rintro (_ | k)
    · decide
    · exact fun e he => absurd he List.not_mem_nil
  index_head := by
    rintro (_ | k)
    · decide
    · exact fun e he => absurd he List.not_mem_nil
  set_fits := by
    rintro (_ | k)
    · decide
    · exact fun e he => absurd he List.not_mem_nil
  array_leaf := by
    rintro (_ | k)
    · decide
    · exact fun e he => absurd he List.not_mem_nil
  get_leaf := by
    rintro (_ | k)
    · decide
    · exact fun e he => absurd he List.not_mem_nil

theorem sampleLeafSchema_printed : Printed sampleLeafSchema where
  numbered := by
    rintro (_ | k)
    · decide
    · exact Nat.two_pow_pos 16
  keys := by
    rintro (_ | k)
    · simp [sampleLeafSchema, sampleLeafTable, sampleLeaf, CText]
    · exact fun e he => absurd he List.not_mem_nil
  enums := by
    rintro (_ | k)
    · simp [sampleLeafSchema, sampleLeafTable, sampleLeaf]
    · exact fun e he => absurd he List.not_mem_nil

/-- The clocks are 1700000000 seconds apart. -/
def sampleClocks : EventEnv := ⟨sampleLeafSchema, ticks2realtime 17000000000, fun _ _ => .nil, nil_depth_le⟩

def sampleDecode : DecodeEnv := ⟨⟨fun _ => true, fun _ => 0⟩, sampleLeafSchema, fun _ _ => .error .invalidType⟩

theorem get_then_set_number :
    decodeAvp sampleDecode (sampleLeaf .uint) (wire (avp avpUint32 [0, 0, 0, 7])) = some (.ok (.uint 7)) ↔
      Returns sampleLeafSchema 17000000000 (sampleLeaf .uint) (.uint 7) :=
  get_then_set ⟨fun _ => true, fun _ => 0⟩ (fun _ => rfl) sampleClocks (fun _ _ => .error .invalidType) 17000000000 (by decide)
    rfl sampleLeafSchema_printed 0 (sampleLeaf .uint) (by decide) rfl ⟨.scalar (.uint 7), 0, Flags.zero, true⟩ (.uint 7) rfl
    ⟨7, rfl⟩ (by norm_num [Storable]) _ rfl

/-- A point in time comes back as one that is 1700000000 seconds later. -/
theorem datetime_moves :
    addAvp sampleClocks { sampleLeaf .ticks with key := [98], flags := { sampleFlags with datetime := true } }
      ⟨.scalar (.ticks 5), 0, Flags.zero, true⟩ = .ok (avp avpAbsticks [0, 0, 0, 3, 0xF5, 0x47, 0x6A, 5]) ∧
    decodeAvp sampleDecode { sampleLeaf .ticks with key := [98], flags := { sampleFlags with datetime := true } }
      (wire (avp avpAbsticks [0, 0, 0, 3, 0xF5, 0x47, 0x6A, 5])) = some (.ok (.ticks 17000000005)) := by
  decide

end Mand.Rpc
