import Mand.Rpc.Text

/-! # Text forms that come back

The text that the client library prints for the AVP of a value, sent back as an `AVP_UNKNOWN`, against the value. -/
namespace Mand.Rpc
open Mand.Bytes Mand.Msg Mand.Store Mand.Notify Mand.Server Mand.Index Mand.Scan
set_option autoImplicit false

/-- The printed time is the value, and the calendar has a year for it that fits an `int`. A time that the calendar does
not have is printed like the last day of 1899. -/
def TicksReturn (L : Libc) (printed n : ℤ) : Prop :=
  printed = n ∧ (printed < 0 ∨ ∃ T, L.gmtime (printed / 10) = some T ∧ T.year + 1900 < 2 ^ 31) ∨
    0 ≤ printed ∧ L.gmtime (printed / 10) = none ∧ n = printed % 10 - 22090752000

/-- The time that goes over the wire for a value. -/
def wireTicks (base : ℤ) (e : DmElement) (n : ℤ) : ℤ :=
  if e.flags.datetime = true then (ticks2realtime base n).bmod (2 ^ 64) else n

/-- The values that survive the way as text. -/
def TextReturns (S : Schema) (L : Libc) (base : ℤ) (e : DmElement) : Value → Prop
  | .bool n => n = 0 ∨ n = 1
  | .date _ => False
  | .ticks n => TicksReturn L (wireTicks base e n) n
  | .enum n => ∃ name, 0 ≤ n ∧ e.enums[n.toNat]? = some name ∧ name ∉ e.enums.take n.toNat ∧ fitsAvp name
  | .str s => ∀ t, s = some t → fitsAvp t
  | .binary b => ∀ t, b = some t → fitsAvp (Base64.to64 t)
  | .selector s => ∀ t, s = some t → Readable S t maxParamNameLen
  | _ => True

/-- The client prints the answer and sends the text back. -/
def textTrip (D : DecodeEnv) (L : Libc) (e : DmElement) (avps : Avps) : Option (Except DmResult Value) :=
  (printAvp D.alloc L (wire avps)).bind fun text =>
    decodeAvp (D.withText L) e (wire (avp avpUnknown (octets text)))

/-! ## One way -/

section Ways

variable {D : DecodeEnv} {L : Libc} {e : DmElement} (hD : ∀ n, D.alloc.grants n = true)

include hD in
theorem newText_eq (s : List ℕ) : newText D.alloc s = .ok s := if_pos (hD _)

/-- A text goes back to the daemon. -/
theorem decodeAvp_text {text : List ℕ} (hfit : text.length + 12 < 2 ^ 24) :
    decodeAvp (D.withText L) e (wire (avp avpUnknown (octets text))) = some (dmconfigString2value D L e (octets text)) := by
  rw [decodeAvp_short _ _ _ (by rw [octets_length]; exact hfit)]
  rfl

include hD in
/-- Any text but that of a block. -/
theorem string2value_text {text : List ℕ} (htext : CText text) (he : e.type ≠ .base64 ∧ e.type ≠ .binary) :
    dmconfigString2value D L e (octets text) = dmString2value D L e text := by
  rw [dmconfigString2value, strndup_octets hD htext]
  simp only [bind, Except.bind]
  rw [if_neg]
  rintro (h | h)
  · exact he.1 h
  · exact he.2 h

/-- The text of a short AVP. -/
theorem printAvp_short {A : Talloc} {code : UInt32} {data : List UInt8} {text : List ℕ} (hfit : data.length + 12 < 2 ^ 24)
    (hprint : dmDecodeUnknownAsString A L code data = some (.ok text)) :
    printAvp A L (wire (avp code data)) = some text := by
  rw [printAvp, firstAvp_short code hfit]
  simp only [Option.bind_eq_bind, Option.bind_some, hprint]

include hD in
/-- A short text there and back. -/
theorem textTrip_short {code : UInt32} {data : List UInt8} {text : List ℕ} (hfit : data.length + 12 < 2 ^ 24)
    (hprint : dmDecodeUnknownAsString D.alloc L code data = some (.ok text)) (htext : CText text)
    (hlen : text.length + 12 < 2 ^ 24) (he : e.type ≠ .base64 ∧ e.type ≠ .binary) :
    textTrip D L e (avp code data) = some (dmString2value D L e text) := by
  rw [textTrip, printAvp_short hfit hprint, Option.bind_some, decodeAvp_text hlen, string2value_text hD htext he]

theorem cString_text (data : List UInt8) : CText ((cString data).map UInt8.toNat) := by
  intro c hc
  obtain ⟨b, hb, rfl⟩ := List.mem_map.mp hc
  have hb0 := List.mem_takeWhile_imp hb
  simp only [ne_eq, decide_eq_true_eq] at hb0
  refine ⟨Nat.pos_of_ne_zero fun h => hb0 ?_, b.toNat_lt⟩
  exact UInt8.toNat_inj.mp h


include hD in
/-- What stands on the wire as text is printed as it is. -/
theorem decodeUnknown_text {code : UInt32} (hcode : code = avpEnum ∨ code = avpPath ∨ code = avpString) (data : List UInt8) :
    dmDecodeUnknownAsString D.alloc L code data = some (.ok ((cString data).map UInt8.toNat)) := by
  rcases hcode with rfl | rfl | rfl <;>
    simp [dmDecodeUnknownAsString, newText_eq hD, avpEnum, avpPath, avpString, avpBool, avpEnumid, avpInt32, avpCounter,
      avpUint32, avpAbsticks, avpRelticks, avpInt64, avpUint64]

include hD in
theorem printAvp_text {code : UInt32} (hcode : code = avpEnum ∨ code = avpPath ∨ code = avpString) {data : List UInt8}
    {text : List ℕ} (h : printAvp D.alloc L (wire (avp code data)) = some text) :
    CText text ∧ text.length + 12 ≤ (data.length + 12) % 2 ^ 24 := by
  simp only [printAvp, Option.bind_eq_bind, Option.bind_eq_some_iff] at h
  obtain ⟨a, hfirst, r, hprint, h⟩ := h
  obtain ⟨ha, hlen⟩ := firstAvp_length hfirst
  rw [ha, decodeUnknown_text hD hcode] at hprint
  cases hprint
  cases h
  refine ⟨cString_text a.data, ?_⟩
  rw [← hlen, List.length_map]
  exact Nat.add_le_add_right (cString_length_le a.data) 12

include hD in
/-- A leaf that is text on the wire. -/
theorem textTrip_text {code : UInt32} (hcode : code = avpEnum ∨ code = avpPath ∨ code = avpString) {s : List ℕ}
    (hs : CText s) (he : e.type ≠ .base64 ∧ e.type ≠ .binary) {v : Value}
    (hlong : ∀ text, dmString2value D L e text = .ok v → s.length ≤ text.length) :
    textTrip D L e (avp code (octets s)) = some (.ok v) ↔ fitsAvp s ∧ dmString2value D L e s = .ok v := by
  by_cases hfit : fitsAvp s
  · have hdata : (octets s).length + 12 < 2 ^ 24 := by
      rw [octets_length]
      exact hfit
    have hprint := decodeUnknown_text (L := L) hD hcode (octets s)
    rw [cString_octets hs, octets_toNat hs.octets] at hprint
    rw [textTrip_short hD hdata hprint hs hfit he, Option.some.injEq]
    exact ⟨fun h => ⟨hfit, h⟩, fun h => h.2⟩
  · refine ⟨fun h => ?_, fun h => absurd h.1 hfit⟩
    simp only [textTrip, Option.bind_eq_some_iff] at h
    obtain ⟨text, hprint, h⟩ := h
    obtain ⟨htext, hlen⟩ := printAvp_text hD hcode hprint
    have hmod := Nat.mod_lt ((octets s).length + 12) (by decide : 0 < 2 ^ 24)
    rw [decodeAvp_text (by omega), string2value_text hD htext he, Option.some.injEq] at h
    have := hlong text h
    simp only [fitsAvp, not_lt] at hfit
    omega

include hD in
theorem str_textReturns (he : e.type = .str) {s : Option (List ℕ)} (hs : Storable (.str s)) :
    textTrip D L e (avp avpString (valueOctets (.str s))) = some (.ok (.str s)) ↔ ∀ t, s = some t → fitsAvp t := by
  have hval (text : List ℕ) : dmString2value D L e text = setStringValue D text := by simp [dmString2value, he]
  have htext : CText (s.getD []) := by
    cases s with
    | none => exact fun _ h => absurd h List.not_mem_nil
    | some t => exact (hs t rfl).2.1
  have hlong (text : List ℕ) (h : dmString2value D L e text = .ok (.str s)) : (s.getD []).length ≤ text.length := by
    rw [hval, setStringValue] at h
    split_ifs at h
    all_goals cases h
    · simp
    · exact le_refl _
  rw [valueOctets, textTrip_text hD (.inr (.inr rfl)) htext (by simp [he]) hlong, hval]
  cases s with
  | none => simp [setStringValue, fitsAvp]
  | some t => simp [setStringValue, (hs t rfl).1, hD]

include hD in
theorem enum_textReturns (he : e.type = .enum) (hnames : ∀ name ∈ e.enums, CText name) (n : ℤ) :
    textTrip D L e (avp avpEnum (octets (Save.int2enum e.enums n))) = some (.ok (.enum n)) ↔
      ∃ name, 0 ≤ n ∧ e.enums[n.toNat]? = some name ∧ name ∉ e.enums.take n.toNat ∧ fitsAvp name := by
  have hval (text : List ℕ) : dmString2value D L e text = .ok (.enum n) ↔ 0 ≤ n ∧ e.enums[n.toNat]? = some text ∧
      text ∉ e.enums.take n.toNat := by
    rw [← dmEnum2int_iff]
    simp only [dmString2value, he]
    split_ifs with h1
    · simp only [false_iff, reduceCtorEq]
      rintro ⟨h, hne⟩
      exact hne (by rw [← h, h1])
    · simp only [Except.ok.injEq, Value.enum.injEq]
      refine ⟨fun h => ⟨h, fun hn => h1 (by rw [h, hn])⟩, And.left⟩
  have hlong (text : List ℕ) (h : dmString2value D L e text = .ok (.enum n)) :
      (Save.int2enum e.enums n).length ≤ text.length := by
    obtain ⟨hn, hget, -⟩ := (hval text).mp h
    rw [int2enum_of_get hn hget]
  rw [textTrip_text hD (.inl rfl) (int2enum_text hnames n) (by simp [he]) hlong, hval]
  refine ⟨fun ⟨hfit, hn, hget, hfirst⟩ => ⟨_, hn, hget, hfirst, hfit⟩, fun ⟨name, hn, hget, hfirst, hfit⟩ => ?_⟩
  rw [int2enum_of_get hn hget]
  exact ⟨hfit, hn, hget, hfirst⟩

include hD in
theorem selector_textReturns (hS : Printed D.schema) (he : e.type = .selector) {sel : Selector}
    (hsel : Storable (.selector (some sel))) {name : List ℕ} (hname : dmSel2name D.schema sel maxParamNameLen = some name) :
    textTrip D L e (avp avpPath (octets name)) = some (.ok (.selector (some sel))) ↔
      Readable D.schema sel maxParamNameLen := by
  obtain ⟨hne, hids, hlen⟩ := hsel sel rfl
  have hfit : name.length + 12 < 2 ^ 24 := dmSel2name_length hname
  have htext := dmSel2name_text hS hname
  have hprint := decodeUnknown_text (L := L) hD (.inr (.inl rfl)) (octets name)
  rw [cString_octets htext, octets_toNat htext.octets] at hprint
  have hval : dmString2value D L e name = avpSelector D (octets name) := by
    rw [avpSelector, strndup_octets hD htext]
    unfold dmString2value
    rewrite [he]
    rfl
  rw [textTrip_short hD (by rw [octets_length]; exact hfit) hprint htext hfit (by simp [he]), Option.some.injEq, hval,
    avpSelector_iff hD hS hsel hname]

/-! ## Blocks -/

include hD in
theorem setBinaryValue_eq (block : List ℕ) :
    setBinaryValue D block = .ok (.binary (if block = [] then none else some block)) := by
  unfold setBinaryValue
  split_ifs with h1 h2
  · rfl
  · rfl
  · exact absurd (hD _) h2

include hD in
/-- The text of a block. -/
theorem string2value_block (he : e.type = .binary ∨ e.type = .base64) (data : List UInt8) :
    dmconfigString2value D L e data = setBinaryValue D (Base64.from64 ((cString data).map UInt8.toNat)) := by
  rw [dmconfigString2value, strndup, if_pos (hD _)]
  simp only [bind, Except.bind]
  rw [if_pos he.symm, base64Value, if_pos (hD _)]

theorem to64_text {block : List ℕ} (h : Octets block) : CText (Base64.to64 block) := fun c hc =>
  ⟨(Base64.mem_to64 block h c hc).1, by have := (Base64.mem_to64 block h c hc).2; omega⟩

theorem octets_map (data : List UInt8) : Octets (data.map UInt8.toNat) := by
  intro c hc
  obtain ⟨b, -, rfl⟩ := List.mem_map.mp hc
  exact b.toNat_lt

include hD in
/-- The text of a block goes back, whatever its length. -/
theorem decodeAvp_block (he : e.type = .binary ∨ e.type = .base64) {block : List ℕ} (hblock : Octets block) {t : List ℕ}
    (hne : t ≠ []) (h : decodeAvp (D.withText L) e (wire (avp avpUnknown (octets (Base64.to64 block)))) =
      some (.ok (.binary (some t)))) :
    fitsAvp (Base64.to64 block) ∧ t = block ∨
      2 ^ 24 ≤ (Base64.to64 block).length + 12 ∧ t.length + 12 ≤ ((Base64.to64 block).length + 12) % 2 ^ 24 := by
  by_cases hfit : fitsAvp (Base64.to64 block)
  · rw [decodeAvp_text hfit, string2value_block hD he, cString_octets (to64_text hblock),
      octets_toNat (to64_text hblock).octets, Base64.from64_to64 block hblock, setBinaryValue_eq hD] at h
    split_ifs at h
    · cases h
    · cases h
      exact .inl ⟨hfit, rfl⟩
  · rw [decodeAvp_eq, Option.bind_eq_some_iff] at h
    obtain ⟨a, hfirst, h⟩ := h
    obtain ⟨ha, hlen⟩ := firstAvp_length hfirst
    have hval : dmconfigAvp2value (D.withText L) a e = some (dmconfigString2value D L e a.data) := if_pos ha
    rw [hval, string2value_block hD he, setBinaryValue_eq hD] at h
    split_ifs at h
    · cases h
    · cases h
      refine .inr ⟨not_lt.mp hfit, ?_⟩
      rw [octets_length] at hlen
      rw [← hlen]
      have h64 := Base64.length_from64 ((cString a.data).map UInt8.toNat)
      rw [List.length_map] at h64
      have := cString_length_le a.data
      omega

include hD in
theorem binary_textReturns (he : e.type = .binary ∨ e.type = .base64) {b : Option (List ℕ)} (hb : Storable (.binary b)) :
    textTrip D L e (avp avpBinary (valueOctets (.binary b))) = some (.ok (.binary b)) ↔
      ∀ t, b = some t → fitsAvp (Base64.to64 t) := by
  have hprint (data : List UInt8) : dmDecodeUnknownAsString D.alloc L avpBinary data =
      some (.ok (Base64.to64 (data.map UInt8.toNat))) := by
    simp [dmDecodeUnknownAsString, hD, avpBinary, avpEnum, avpPath, avpString, avpBool, avpEnumid, avpInt32, avpCounter,
      avpUint32, avpAbsticks, avpRelticks, avpInt64, avpUint64]
  -- a block whose text fits
  have hback (block : List ℕ) (hoct : Octets block) (hfit : fitsAvp (Base64.to64 block)) :
      textTrip D L e (avp avpBinary (octets block)) = some (.ok (.binary (if block = [] then none else some block))) := by
    have hlen := Base64.length_to64 block
    have hdata : (octets block).length + 12 < 2 ^ 24 := by
      rw [octets_length]
      simp only [fitsAvp] at hfit
      omega
    rw [textTrip, printAvp_short hdata (hprint _), Option.bind_some, octets_toNat hoct, decodeAvp_text hfit,
      string2value_block hD he, cString_octets (to64_text hoct), octets_toNat (to64_text hoct).octets,
      Base64.from64_to64 block hoct, setBinaryValue_eq hD]
  cases b with
  | none =>
    have h := hback [] (fun _ h => absurd h List.not_mem_nil) (by simp [fitsAvp, Base64.to64])
    simpa [valueOctets] using h
  | some t =>
    obtain ⟨hne, hoct, -⟩ := hb t rfl
    show textTrip D L e (avp avpBinary (octets t)) = _ ↔ _
    refine ⟨fun h => ?_, fun hfit => ?_⟩
    · intro t' ht'
      cases ht'
      simp only [textTrip, Option.bind_eq_some_iff, printAvp, Option.bind_eq_bind] at h
      obtain ⟨text, ⟨a, hfirst, r, hr, htext⟩, h⟩ := h
      obtain ⟨ha, hlen⟩ := firstAvp_length hfirst
      rw [ha, hprint] at hr
      cases hr
      cases htext
      rw [octets_length] at hlen
      have h64 := Base64.length_to64 (a.data.map UInt8.toNat)
      rw [List.length_map] at h64
      rcases decodeAvp_block hD he (octets_map a.data) hne h with ⟨hfit, heq⟩ | ⟨hlong, hle⟩
      · rw [heq]
        exact hfit
      · -- what is read back is shorter than the block
        omega
    · have h := hback t hoct (hfit t rfl)
      rwa [if_neg hne] at h

/-! ## Numbers, times and addresses -/

theorem intText_text (n : ℤ) : CText (intText n) := fun c hc =>
  ⟨(mem_intText hc).1, by have := (mem_intText hc).2; omega⟩

theorem strftime_text (T : Tm) : CText (strftime T) := fun c hc =>
  ⟨(mem_strftime hc).1, by have := (mem_strftime hc).2; omega⟩

theorem int_fits {n : ℤ} (hlow : -2 ^ 64 < n) (hhigh : n < 2 ^ 64) : (intText n).length + 12 < 2 ^ 24 := by
  have := @length_intText_le n 20 (by omega) (by omega)
  omega

theorem tickTail_text (n : ℤ) : CText (tickTail n) := by
  intro c hc
  unfold tickTail at hc
  rcases List.mem_append.mp hc with h | h
  · split_ifs at h
    · rcases List.mem_cons.mp h with rfl | h
      · decide
      · exact intText_text _ c h
    · exact absurd h List.not_mem_nil
  · rw [List.mem_singleton.mp h]
    decide

theorem ticks2str_text (hL : L.Sound) {n : ℤ} (hlow : -2 ^ 63 ≤ n) :
    CText (dmTicks2str L n) ∧ (dmTicks2str L n).length + 12 < 2 ^ 24 := by
  by_cases hn : n < 0
  · rw [dmTicks2str, if_pos hn]
    exact ⟨intText_text n, int_fits (by omega) (by omega)⟩
  · rw [dmTicks2str_time L (by omega)]
    have hlen := length_strftime (brokenDown_valid hL (n / 10))
    have htail : (tickTail n).length ≤ 4 := by
      have := @length_intText_le (n % 10) 1 (by omega) (by omega)
      unfold tickTail
      split_ifs <;> simp only [List.length_append, List.length_cons, List.length_nil] <;> omega
    refine ⟨?_, by rw [List.length_append]; omega⟩
    intro c hc
    rcases List.mem_append.mp hc with h | h
    · exact strftime_text _ c h
    · exact tickTail_text n c h

/-- A printed time is parsed as the value exactly if the printed time returns. -/
theorem ticks2str_iff (hL : L.Sound) (he : e.type = .ticks) {p n : ℤ} (hlow : -2 ^ 63 ≤ p) (hhigh : p < 2 ^ 63) :
    dmString2value D L e (dmTicks2str L p) = .ok (.ticks n) ↔ TicksReturn L p n := by
  simp only [dmString2value, he]
  by_cases hneg : p < 0
  · have hscan : str2ticks L (intText p) = none := by
      have hread := readInt_intText p stops_nil
      rw [List.append_nil] at hread
      simp [str2ticks, scanTime, scanInt, hread, literal]
    have hmod : (((p % 2 ^ 64).toNat : ℕ) : ℤ).bmod (2 ^ 64) = p := by
      rw [Int.toNat_of_nonneg (by omega), Int.bmod_eq_iff (by norm_num)]
      omega
    rw [dmTicks2str, if_pos hneg, hscan]
    simp only [strtoul_intText hlow (by omega), wholeText, if_true, hmod, Except.ok.injEq, Value.ticks.injEq]
    unfold TicksReturn
    refine ⟨fun h => .inl ⟨h, .inl hneg⟩, fun h => ?_⟩
    rcases h with ⟨h, -⟩ | ⟨h, -⟩
    · exact h
    · omega
  · have hpos : 0 ≤ p / 10 := by omega
    rw [dmTicks2str_time L (by omega), brokenDown]
    have hwhole (T : Tm) : wholeText .invalidType (strtoul (strftime T ++ tickTail p))
        (fun k => Value.ticks ((k : ℤ).bmod (2 ^ 64))) ≠ .ok (.ticks n) := by
      rw [wholeText, if_neg (strtoul_strftime T _)]
      simp
    unfold TicksReturn
    cases hT : L.gmtime (p / 10) with
    | none =>
      simp only [Option.getD_none, str2ticks_strftime hL Tm.zero_small p, hL.empty]
      rw [if_pos (by simp [Tm.zero])]
      simp only [Except.ok.injEq, Value.ticks.injEq]
      refine ⟨fun h => .inr ⟨by omega, trivial, by omega⟩, fun h => ?_⟩
      rcases h with ⟨-, h | ⟨T, h, -⟩⟩ | ⟨-, -, h⟩
      · omega
      · cases h
      · omega
    | some T =>
      have hsmall := (hL.valid _ T hT).small (hL.since _ T hpos hT)
      simp only [Option.getD_some, str2ticks_strftime hL hsmall p, hL.inverse _ T hpos hT]
      by_cases hyear : T.year + 1900 < 2 ^ 31
      · rw [if_pos hyear]
        simp only [Except.ok.injEq, Value.ticks.injEq]
        refine ⟨fun h => .inl ⟨by omega, .inr ⟨T, rfl, hyear⟩⟩, fun h => ?_⟩
        rcases h with ⟨h, -⟩ | ⟨-, h, -⟩
        · omega
        · cases h
      · rw [if_neg hyear]
        refine ⟨fun h => absurd h (hwhole T), fun h => ?_⟩
        rcases h with ⟨-, h | ⟨T', h, h'⟩⟩ | ⟨-, h, -⟩
        · omega
        · cases h
          exact absurd h' hyear
        · cases h

include hD in
/-- A time that is printed in ticks. -/
theorem ticks_textReturns (hL : L.Sound) (he : e.type = .ticks) {code : UInt32} (hc : code = avpAbsticks ∨ code = avpRelticks)
    {m n : ℤ} : textTrip D L e (avp code (intBytes 8 m)) = some (.ok (.ticks n)) ↔
      TicksReturn L (m.bmod (2 ^ 64)) n := by
  have hlow : -2 ^ 63 ≤ m.bmod (2 ^ 64) := by
    have := @Int.le_bmod m (2 ^ 64) (by decide)
    omega
  have hhigh : m.bmod (2 ^ 64) < 2 ^ 63 := by
    have := @Int.bmod_lt m (2 ^ 64) (by decide)
    omega
  have hprint : dmDecodeUnknownAsString D.alloc L code (intBytes 8 m) = some (.ok (dmTicks2str L (m.bmod (2 ^ 64)))) := by
    have hget := getInt_intBytes 8 m
    have hpow : (256 : ℕ) ^ 8 = 2 ^ 64 := by norm_num
    rw [hpow] at hget
    rcases hc with rfl | rfl <;>
      simp [dmDecodeUnknownAsString, newText_eq hD, hget, avpAbsticks, avpRelticks, avpBool, avpEnumid, avpInt32, avpCounter,
        avpUint32]
  obtain ⟨htext, hlen⟩ := ticks2str_text hL hlow
  rw [textTrip_short hD (intBytes_fit (by omega) m) hprint htext hlen (by simp [he]), Option.some.injEq,
    ticks2str_iff hL he hlow hhigh]

include hD in
/-- No point in time that is printed is parsed. -/
theorem date_lost (hL : L.Sound) (he : e.type = .date) (m n : ℤ) :
    textTrip D L e (avp avpDate (intBytes 4 m)) ≠ some (.ok (.date n)) := by
  obtain ⟨secs, hsecs⟩ : ∃ secs, dmGetTimeAvp (intBytes 4 m) = some secs := by
    rw [dmGetTimeAvp, getUint_intBytes]
    exact ⟨_, rfl⟩
  have hprint : dmDecodeUnknownAsString D.alloc L avpDate (intBytes 4 m) = some (.ok (dmDate2str L secs)) := by
    simp [dmDecodeUnknownAsString, newText_eq hD, hsecs, avpDate, avpAddress, avpBinary, avpEnum, avpPath, avpString,
      avpBool, avpEnumid, avpInt32, avpCounter, avpUint32, avpAbsticks, avpRelticks, avpInt64, avpUint64]
  have htext : CText (dmDate2str L secs) := by
    intro c hc
    rcases List.mem_append.mp hc with h | h
    · exact strftime_text _ c h
    · rw [List.mem_singleton.mp h]
      decide
  have hlen : (dmDate2str L secs).length + 12 < 2 ^ 24 := by
    have := length_strftime (brokenDown_valid hL secs)
    rw [dmDate2str, List.length_append]
    simp only [List.length_singleton]
    omega
  rw [textTrip_short hD (intBytes_fit (by omega) m) hprint htext hlen (by simp [he])]
  have hrest : ¬(strtoul (dmDate2str L secs)).2 = [] := strtoul_strftime _ _
  simp only [dmString2value, he, wholeText]
  rw [if_neg hrest]
  simp

include hD in
theorem bool_textReturns (he : e.type = .bool) (n : ℤ) :
    textTrip D L e (avp avpBool (intBytes 1 n)) = some (.ok (.bool n)) ↔ n = 0 ∨ n = 1 := by
  have hcode (m : ℕ) (hm : (n % 256 ^ 1).toNat = m) : dmDecodeUnknownAsString D.alloc L avpBool (intBytes 1 n) =
      some (.ok (if m ≠ 0 then Save.ascii "true" else Save.ascii "false")) := by
    simp only [dmDecodeUnknownAsString, if_true, getUint_intBytes, Option.map_some, newText_eq hD, hm]
  have htrip (text : List ℕ) (m : ℤ) (hprint : dmDecodeUnknownAsString D.alloc L avpBool (intBytes 1 n) = some (.ok text))
      (htext : CText text) (hlen : text.length < 100) (hval : dmString2value D L e text = .ok (.bool m)) :
      textTrip D L e (avp avpBool (intBytes 1 n)) = some (.ok (.bool m)) := by
    rw [textTrip_short hD (intBytes_fit (by omega) n) hprint htext (by omega) (by simp [he]), hval]
  by_cases h : (n % 256 ^ 1).toNat = 0
  · rw [htrip (Save.ascii "false") 0 (hcode 0 h) (by unfold CText; decide) (by decide) (by simp only [dmString2value, he]; rfl)]
    simp only [Option.some.injEq, Except.ok.injEq, Value.bool.injEq]
    omega
  · have hprint := hcode _ rfl
    rw [if_pos h] at hprint
    rw [htrip (Save.ascii "true") 1 hprint (by unfold CText; decide) (by decide) (by simp only [dmString2value, he]; rfl)]
    simp only [Option.some.injEq, Except.ok.injEq, Value.bool.injEq]
    omega

include hD in
/-- A leaf of a signed type. -/
theorem int_textTrip {code : UInt32} {w : ℕ} (hw : w ≤ 8) {n : ℤ} (hlow : -(256 ^ w) ≤ 2 * n) (hhigh : 2 * n < 256 ^ w)
    (hlong : -2 ^ 63 ≤ n ∧ n < 2 ^ 63) (he : e.type ≠ .base64 ∧ e.type ≠ .binary) {c : ℤ → Value}
    (hprint : ∀ m, getInt w (intBytes w n) = some m →
      dmDecodeUnknownAsString D.alloc L code (intBytes w n) = some (newText D.alloc (intText m)))
    (hval : dmString2value D L e (intText n) = wholeText .invalidValue (strtol (intText n)) c) :
    textTrip D L e (avp code (intBytes w n)) = some (.ok (c n)) := by
  have hget := getInt_intBytes w n
  rw [bmod_range hlow hhigh] at hget
  have hp := hprint n hget
  rw [newText_eq hD] at hp
  rw [textTrip_short hD (intBytes_fit hw n) hp (intText_text n) (int_fits (by omega) (by omega)) he, hval,
    strtol_intText hlong.1 hlong.2]
  rfl

include hD in
/-- A leaf of an unsigned type. -/
theorem uint_textTrip {code : UInt32} {w : ℕ} (hw : w ≤ 8) {n : ℕ} (hn : n < 256 ^ w) (hlong : n < 2 ^ 64)
    (he : e.type ≠ .base64 ∧ e.type ≠ .binary) {c : ℕ → Value}
    (hprint : ∀ m, getUint w (intBytes w n) = some m →
      dmDecodeUnknownAsString D.alloc L code (intBytes w n) = some (newText D.alloc (Decimal.decimal m)))
    (hval : dmString2value D L e (Decimal.decimal n) = wholeText .invalidValue (strtoul (Decimal.decimal n)) c) :
    textTrip D L e (avp code (intBytes w n)) = some (.ok (c n)) := by
  have hget := getUint_intBytes w n
  have hmod : ((n : ℤ) % 256 ^ w).toNat = n := by
    rw [Int.emod_eq_of_lt (by omega) (by exact_mod_cast hn), Int.toNat_natCast]
  rw [hmod] at hget
  have hp := hprint n hget
  rw [newText_eq hD] at hp
  have hscan := strtoul_intText (n := n) (by omega) (by omega)
  have hn64 : ((n : ℤ) % 2 ^ 64).toNat = n := by omega
  rw [hn64, intText_natCast] at hscan
  have htext := intText_text n
  have hfit := int_fits (n := n) (by omega) (by omega)
  rw [intText_natCast] at htext hfit
  rw [textTrip_short hD (intBytes_fit hw n) hp htext hfit he, hval, hscan]
  rfl

include hD in
theorem address_textTrip (hL : L.Sound) (f : Family) {c : List ℕ → Value} {b : List ℕ} (hlen : b.length = f.size)
    (hb : Octets b) (he : e.type ≠ .base64 ∧ e.type ≠ .binary)
    (hval : ∀ text, dmString2value D L e text = (L.pton f text).elim (.error .invalidValue) fun b => .ok (c b)) :
    textTrip D L e (avp avpAddress (be 2 f.iana ++ octets b)) = some (.ok (c b)) := by
  have hsize : f.size ≤ 16 := by cases f <;> simp [Family.size]
  have hget := getAddress_octets f hsize hlen
  have hprint : dmDecodeUnknownAsString D.alloc L avpAddress (be 2 f.iana ++ octets b) = some (.ok (L.ntop f b)) := by
    simp [dmDecodeUnknownAsString, newText_eq hD, hget, octets_toNat hb, avpAddress, avpBinary, avpEnum, avpPath, avpString,
      avpBool, avpEnumid, avpInt32, avpCounter, avpUint32, avpAbsticks, avpRelticks, avpInt64, avpUint64]
  obtain ⟨htext, hshort⟩ := hL.ntop f b hlen hb
  rw [textTrip_short hD ?_ hprint htext (by omega) he, hval, hL.pton f b hlen hb]
  · rfl
  · simp only [List.length_append, be_length, octets_length, hlen]
    cases f <;> simp [Family.size]

end Ways

/-- The types that are numbers or addresses come back as text. -/
theorem number_textReturns {D : DecodeEnv} (hD : ∀ n, D.alloc.grants n = true) {L : Libc} (hL : L.Sound) {e : DmElement}
    {ev : EventEnv} {val : DmValue} {v : Value} {avps : Avps} (hleaf : leafValue (some val.content) = v)
    (ht : e.type = .int ∨ e.type = .uint ∨ e.type = .int64 ∨ e.type = .uint64 ∨ e.type = .ipaddr4 ∨ e.type = .ipaddr6)
    (htype : HasType e.type v) (hv : Storable v) (henc : addAvp ev e val = .ok avps) :
    textTrip D L e avps = some (.ok v) := by
  have hblock : e.type ≠ .base64 ∧ e.type ≠ .binary := by
    rcases ht with ht | ht | ht | ht | ht | ht <;> simp [ht]
  unfold addAvp at henc
  rw [hleaf] at henc
  rcases ht with ht | ht | ht | ht | ht | ht <;> rw [ht] at henc htype <;> simp only [Except.ok.injEq] at henc <;>
    obtain ⟨n, rfl⟩ := htype <;> rw [← henc]
  · have hback : textTrip D L e (avp avpInt32 (intBytes 4 n)) = some (.ok (.int (n.bmod (2 ^ 32)))) := int_textTrip
      (c := fun n => Value.int (n.bmod (2 ^ 32))) hD (by omega) (by simp only [Storable] at hv; omega) (by simp only [Storable] at hv; omega)
      (by simp only [Storable] at hv; omega) hblock
      (fun m hm => by simp [dmDecodeUnknownAsString, hm, avpInt32, avpBool, avpEnumid]) (by simp only [dmString2value, ht])
    have hn : n.bmod (2 ^ 32) = n := bmod_range (w := 4) (by simp only [Storable] at hv; omega)
      (by simp only [Storable] at hv; omega)
    simp only [hn] at hback
    exact hback
  · have hback : textTrip D L e (avp avpUint32 (intBytes 4 n)) = some (.ok (.uint (n % 2 ^ 32))) := uint_textTrip
      (c := fun n => Value.uint (n % 2 ^ 32)) hD (by omega) (by simp only [Storable] at hv; omega) (by simp only [Storable] at hv; omega) hblock
      (fun m hm => by simp [dmDecodeUnknownAsString, hm, avpUint32, avpInt32, avpBool, avpEnumid, avpCounter])
      (by simp only [dmString2value, ht])
    have hn : n % 2 ^ 32 = n := Nat.mod_eq_of_lt hv
    simp only [hn] at hback
    exact hback
  · simp only [Storable] at hv
    exact int_textTrip (c := Value.int64) hD (by omega) (by omega) (by omega) hv hblock
      (fun m hm => by
        simp [dmDecodeUnknownAsString, hm, avpInt64, avpUint32, avpInt32, avpBool, avpEnumid, avpCounter, avpAbsticks,
          avpRelticks]) (by simp only [dmString2value, ht])
  · simp only [Storable] at hv
    exact uint_textTrip (c := Value.uint64) hD (by omega) (by omega) hv hblock
      (fun m hm => by
        simp [dmDecodeUnknownAsString, hm, avpUint64, avpInt64, avpUint32, avpInt32, avpBool, avpEnumid, avpCounter,
          avpAbsticks, avpRelticks]) (by simp only [dmString2value, ht])
  · exact address_textTrip hD hL .inet hv.1 hv.2 hblock fun text => by simp only [dmString2value, ht]
  · exact address_textTrip hD hL .inet6 hv.1 hv.2 hblock fun text => by simp only [dmString2value, ht]

/-- **Text, there and back.** A stored value of a writable leaf that the client library prints comes back from
`dmconfig_avp2value` exactly if it is one of the values that return. -/
theorem text_there_and_back (A : Talloc) (hA : ∀ n, A.grants n = true) (L : Libc) (hL : L.Sound) (ev : EventEnv)
    (strings : DmElement → List UInt8 → Except DmResult Value) (base : ℤ) (hclock : ev.realtime = ticks2realtime base)
    (hS : Printed ev.schema) (k : ℕ) (e : DmElement) (he : e ∈ (ev.schema.table k).elems) (hw : writable e.type = true)
    (val : DmValue) (v : Value) (hval : val.content = .scalar v) (htype : HasType e.type v) (hv : Storable v) (avps : Avps)
    (henc : addAvp ev e val = .ok avps) :
    textTrip ⟨A, ev.schema, strings⟩ L e avps = some (.ok v) ↔ TextReturns ev.schema L base e v := by
  have hleaf : leafValue (some val.content) = v := by
    rw [hval]
    rfl
  by_cases hnum : e.type = .int ∨ e.type = .uint ∨ e.type = .int64 ∨ e.type = .uint64 ∨ e.type = .ipaddr4 ∨
      e.type = .ipaddr6
  · rw [number_textReturns hA hL hleaf hnum htype hv henc]
    rcases hnum with ht | ht | ht | ht | ht | ht <;> rw [ht] at htype <;> obtain ⟨n, rfl⟩ := htype <;> simp [TextReturns]
  unfold addAvp at henc
  rw [hleaf] at henc
  cases ht : e.type <;> rw [ht] at henc hw htype hnum <;> simp [writable] at hw hnum <;> obtain ⟨n, rfl⟩ := htype <;>
    simp only [Except.ok.injEq] at henc
  case bool =>
    rw [← henc]
    exact bool_textReturns hA ht n
  case str =>
    rw [← henc]
    exact str_textReturns hA ht hv
  case binary =>
    rw [← henc]
    exact binary_textReturns hA (.inl ht) hv
  case base64 =>
    rw [← henc]
    exact binary_textReturns hA (.inr ht) hv
  case date =>
    split_ifs at henc with hn
    cases henc
    simp only [TextReturns, iff_false]
    exact date_lost hA hL ht _ n
  case enum =>
    rw [← henc]
    exact enum_textReturns hA ht (hS.enums k e he) n
  case selector =>
    cases n with
    | none =>
      cases henc
      have hprint := decodeUnknown_text (D := ⟨A, ev.schema, strings⟩) (L := L) hA (.inr (.inl rfl)) []
      rw [textTrip_short hA (by simp) hprint (fun _ h => absurd h List.not_mem_nil) (by simp [cString]) (by simp [ht])]
      simp [dmString2value, ht, cString, setSelectorValue, TextReturns]
    | some sel =>
      cases hname : dmSel2name ev.schema sel maxParamNameLen with
      | none => simp [hname] at henc
      | some name =>
        simp only [hname, Except.ok.injEq] at henc
        rw [← henc, selector_textReturns (D := ⟨A, ev.schema, strings⟩) hA hS ht hv hname]
        simp [TextReturns]
  case ticks =>
    simp only [TextReturns, wireTicks]
    split_ifs at henc ⊢ with hd
    · cases henc
      rw [ticks_textReturns hA hL ht (.inl rfl), hclock]
      rfl
    · cases henc
      have hn : n.bmod (2 ^ 64) = n := bmod_range (w := 8) (by simp only [Storable] at hv; omega)
        (by simp only [Storable] at hv; omega)
      rw [ticks_textReturns hA hL ht (.inr rfl)]
      show TicksReturn L (n.bmod (2 ^ 64)) n ↔ _
      rw [hn]

/-! ## Samples -/

/-- A calendar of one second, and addresses with two characters for each octet. -/
def sampleLibc : Libc where
  gmtime := fun s => if s = 0 then some ⟨70, 0, 1, 0, 0, 0⟩ else none
  timegm := fun T => if T = ⟨70, 0, 1, 0, 0, 0⟩ then 0 else -2209075200
  fraction := fun s => (s[1]?).map fun c => (c - 48, s.drop 2)
  ntop := fun _ b => b.flatMap fun o => [48 + o / 16, 48 + o % 16]
  pton := fun f s => some ((List.range f.size).map fun i => (s.getD (2 * i) 0 - 48) * 16 + (s.getD (2 * i + 1) 0 - 48))

theorem flatMap_pairs (b : List ℕ) (i : ℕ) : (b.flatMap fun o => [48 + o / 16, 48 + o % 16]).getD (2 * i) 0 =
    (b[i]?).elim 0 (48 + · / 16) ∧
    (b.flatMap fun o => [48 + o / 16, 48 + o % 16]).getD (2 * i + 1) 0 = (b[i]?).elim 0 (48 + · % 16) := by
  induction b generalizing i with
  | nil => simp
  | cons o b ih =>
    cases i with
    | zero => simp
    | succ i =>
      have h := ih i
      simpa [List.flatMap_cons, Nat.mul_add] using h

theorem sampleLibc_sound : sampleLibc.Sound where
  valid := by
    intro s T h
    simp only [sampleLibc, Option.ite_none_right_eq_some, Option.some.injEq] at h
    rw [← h.2]
    constructor <;> norm_num
  since := by
    intro s T _ h
    simp only [sampleLibc, Option.ite_none_right_eq_some, Option.some.injEq] at h
    rw [← h.2]
  inverse := by
    intro s T _ h
    simp only [sampleLibc, Option.ite_none_right_eq_some, Option.some.injEq] at h ⊢
    rw [← h.2, if_pos rfl, h.1]
  empty := by decide
  digit := by
    intro d _ hd
    rw [decimal_one hd]
    simp [sampleLibc]
  pton := by
    intro f b hlen hb
    simp only [sampleLibc, Option.some.injEq]
    apply List.ext_getElem
    · simp [hlen]
    · intro i h1 h2
      have hi := hb _ (List.getElem_mem h2)
      rw [List.getElem_map, List.getElem_range, (flatMap_pairs b i).1, (flatMap_pairs b i).2, List.getElem?_eq_getElem h2]
      simp only [Option.elim_some]
      omega
  ntop := by
    intro f b hlen hb
    simp only [sampleLibc]
    refine ⟨?_, ?_⟩
    · intro c hc
      obtain ⟨o, ho, hc⟩ := List.mem_flatMap.mp hc
      have := hb o ho
      simp only [List.mem_cons, List.not_mem_nil, or_false] at hc
      omega
    · rw [List.length_flatMap]
      simp only [List.length_cons, List.length_nil, List.map_const', List.sum_replicate, hlen]
      cases f <;> simp [Family.size]

/-- The clocks are together. -/
def sampleClock : EventEnv := ⟨sampleLeafSchema, ticks2realtime 0, fun _ _ => .nil, nil_depth_le⟩

def sampleMoment : DmElement := { sampleLeaf .ticks with key := [98], flags := { sampleFlags with datetime := true } }

theorem text_there_and_back_moment :
    textTrip ⟨⟨fun _ => true, fun _ => 0⟩, sampleLeafSchema, fun _ _ => .error .invalidType⟩ sampleLibc sampleMoment
      (avp avpAbsticks [0, 0, 0, 0, 0, 0, 0, 5]) = some (.ok (.ticks 5)) ↔
      TextReturns sampleLeafSchema sampleLibc 0 sampleMoment (.ticks 5) :=
  text_there_and_back ⟨fun _ => true, fun _ => 0⟩ (fun _ => rfl) sampleLibc sampleLibc_sound sampleClock
    (fun _ _ => .error .invalidType) 0 rfl sampleLeafSchema_printed 0 sampleMoment (by decide) rfl
    ⟨.scalar (.ticks 5), 0, Flags.zero, true⟩ (.ticks 5) rfl ⟨5, rfl⟩ (by norm_num [Storable]) _ rfl

/-- A date is printed as a calendar date, which is no number. -/
theorem date_text_refused :
    addAvp sampleClock (sampleLeaf .date) ⟨.scalar (.date 0), 0, Flags.zero, true⟩ = .ok (avp avpDate [131, 170, 126, 128]) ∧
    textTrip ⟨⟨fun _ => true, fun _ => 0⟩, sampleLeafSchema, fun _ _ => .error .invalidType⟩ sampleLibc (sampleLeaf .date)
      (avp avpDate [131, 170, 126, 128]) ≠ some (.ok (.date 0)) :=
  ⟨rfl, date_lost (fun _ => rfl) sampleLibc_sound rfl 2208988800 0⟩

end Mand.Rpc
