import Mand.Lib.Scan
import Mand.Rpc.Value

/-! # Values as text

The string form of a value: what the client library prints for an AVP with `dm_decode_unknown_as_string`, and what
`dmconfig_string2value` makes of such a text. -/
namespace Mand.Rpc
open Mand.Bytes Mand.Msg Mand.Store Mand.Notify Mand.Server Mand.Index Mand.Scan
set_option autoImplicit false

/-! ## The C library -/

/-- `struct tm`. -/
structure Tm where
  year : ℤ
  mon : ℤ
  mday : ℤ
  hour : ℤ
  min : ℤ
  sec : ℤ
  deriving DecidableEq, Repr

def Tm.zero : Tm := ⟨0, 0, 0, 0, 0, 0⟩

/-- `gmtime_r`, `timegm`, `strtod` of the text behind the seconds as a number of ticks with what is left, and the
addresses. -/
structure Libc where
  gmtime : ℤ → Option Tm
  timegm : Tm → ℤ
  fraction : List ℕ → Option (ℕ × List ℕ)
  ntop : Family → List ℕ → List ℕ
  pton : Family → List ℕ → Option (List ℕ)

/-- The fields of a broken-down time are in range, and the year is an `int`. -/
structure Tm.Valid (T : Tm) : Prop where
  year : -2 ^ 31 ≤ T.year ∧ T.year < 2 ^ 31
  mon : 0 ≤ T.mon ∧ T.mon < 12
  mday : 0 ≤ T.mday ∧ T.mday < 32
  hour : 0 ≤ T.hour ∧ T.hour < 24
  min : 0 ≤ T.min ∧ T.min < 60
  sec : 0 ≤ T.sec ∧ T.sec < 61

/-- What the library promises. -/
structure Libc.Sound (L : Libc) : Prop where
  valid : ∀ s T, L.gmtime s = some T → T.Valid
  since : ∀ s T, 0 ≤ s → L.gmtime s = some T → 70 ≤ T.year
  inverse : ∀ s T, 0 ≤ s → L.gmtime s = some T → L.timegm T = s
  /-- The last day of 1899. -/
  empty : L.timegm Tm.zero = -2209075200
  digit : ∀ d, 0 < d → d < 10 → L.fraction (46 :: (Decimal.decimal d ++ [90])) = some (d, [90])
  pton : ∀ f b, b.length = f.size → Octets b → L.pton f (L.ntop f b) = some b
  ntop : ∀ f b, b.length = f.size → Octets b → CText (L.ntop f b) ∧ (L.ntop f b).length < 46

/-! ## Printing -/

section Print
variable (A : Talloc) (L : Libc)

/-- `strftime` with `%FT%T`. -/
def strftime (T : Tm) : List ℕ :=
  intText (T.year + 1900) ++ 45 :: (twoDigits (T.mon + 1) ++ 45 :: (twoDigits T.mday ++ 84 :: (twoDigits T.hour ++
    58 :: (twoDigits T.min ++ 58 :: twoDigits T.sec))))

/-- A time that `gmtime_r` does not have is all zero. -/
def brokenDown (secs : ℤ) : Tm := (L.gmtime secs).getD Tm.zero

/-- `dm_ticks2str`. -/
def dmTicks2str (n : ℤ) : List ℕ :=
  if n < 0 then intText n
  else strftime (brokenDown L (n / 10)) ++ ((if n % 10 ≠ 0 then 46 :: intText (n % 10) else []) ++ [90])

/-- `dm_date2str`. -/
def dmDate2str (secs : ℤ) : List ℕ := strftime (brokenDown L secs) ++ [90]

/-- A text in new memory. -/
def newText (s : List ℕ) : Except Rc (List ℕ) := if A.grants (s.length + 1) = true then .ok s else .error .errAlloc

/-- `dm_decode_unknown_as_string`; there is no result if it reads what no one has written. -/
def dmDecodeUnknownAsString (type : UInt32) (data : List UInt8) : Option (Except Rc (List ℕ)) :=
  if type = avpBool then (getUint 1 data).map fun n => newText A (if n ≠ 0 then Save.ascii "true" else Save.ascii "false")
  else if type = avpEnumid ∨ type = avpInt32 then (getInt 4 data).map fun n => newText A (intText n)
  else if type = avpCounter ∨ type = avpUint32 then (getUint 4 data).map fun n => newText A (Decimal.decimal n)
  else if type = avpAbsticks ∨ type = avpRelticks then (getInt 8 data).map fun n => newText A (dmTicks2str L n)
  else if type = avpInt64 then (getInt 8 data).map fun n => newText A (intText n)
  else if type = avpUint64 then (getUint 8 data).map fun n => newText A (Decimal.decimal n)
  else if type = avpEnum ∨ type = avpPath ∨ type = avpString then some (newText A ((cString data).map UInt8.toNat))
  else if type = avpBinary then
    if A.grants ((data.length + 3) * 4 / 3) = true then some (.ok (Base64.to64 (data.map UInt8.toNat)))
    else some (.error .errAlloc)
  else if type = avpAddress then
    (dmGetAddressAvp 16 data).map fun r =>
      match r with
      | none => .error .errMisc
      | some (f, addr) => newText A (L.ntop f (addr.map UInt8.toNat))
  else if type = avpDate then (dmGetTimeAvp data).map fun n => newText A (dmDate2str L n)
  else if type = avpType then (getUint 4 data).map fun n =>
    if n = avpTable.toNat then newText A (Save.ascii "<<table>>")
    else if n = avpObject.toNat then newText A (Save.ascii "<<object>>")
    else if n = avpInstance.toNat then newText A (Save.ascii "<<instance>>")
    else .error .errMisc
  else some (.error .errMisc)

/-- The text of the first AVP of an answer. -/
def printAvp (bytes : List UInt8) : Option (List ℕ) := do
  let avp ← firstAvp bytes
  match ← dmDecodeUnknownAsString A L avp.code avp.data with
  | .ok text => some text
  | .error _ => none

end Print

/-! ## Parsing -/

section Parse
variable (D : DecodeEnv) (L : Libc)

/-- A character that the format of `sscanf` has. -/
def literal (c : ℕ) (s : List ℕ) : Option (List ℕ) := if s.head? = some c then some s.tail else none

/-- `sscanf` with `%d-%d-%dT%d:%d:%d%31s`: the first six numbers, and the zone. -/
def scanTime (s : List ℕ) : Option (Tm × List ℕ) := do
  let (year, s) ← scanInt s
  let s ← literal 45 s
  let (mon, s) ← scanInt s
  let s ← literal 45 s
  let (mday, s) ← scanInt s
  let s ← literal 84 s
  let (hour, s) ← scanInt s
  let s ← literal 58 s
  let (min, s) ← scanInt s
  let s ← literal 58 s
  let (sec, s) ← scanInt s
  some (⟨year, mon, mday, hour, min, sec⟩, ((s.dropWhile isspace).takeWhile (fun c => isspace c = false)).take 31)

/-- The hours and minutes of a zone: `+hh:mm` or `+hhmm`. What is behind the end of the zone is no colon. -/
def zoneOffset (s : List ℕ) : ℤ × ℤ :=
  if s[3]? = some 58 then
    match scanInt s with
    | none => (0, 0)
    | some (h, s) =>
      let m := ((literal 58 s).bind scanInt).elim 0 Prod.fst
      (h, if h < 0 then -m else m)
  else
    let m := (strtol s).1.bmod (2 ^ 32)
    (m.tdiv 100, m.tmod 100)

/-- The zone is taken off, with hour and minute in range. -/
def takeZone (T : Tm) (s : List ℕ) : Tm :=
  let (h, m) := zoneOffset s
  let min := T.min - m
  let hour := T.hour - h + min.tdiv 60
  let min := min.tmod 60
  let (min, hour) := if min < 0 then (min + 60, hour - 1) else (min, hour)
  let mday := T.mday + hour.tdiv 24
  let hour := hour.tmod 24
  let (hour, mday) := if hour < 0 then (hour + 24, mday - 1) else (hour, mday)
  { T with min := min, hour := hour, mday := mday }

/-- The ticks behind the seconds. -/
def readFraction (zone : List ℕ) : Option (ℕ × List ℕ) :=
  if zone.head? = some 46 then L.fraction zone else some (0, zone)

/-- The time in ticks; without a zone it is a relative one, from year one on. -/
def timeTicks (T : Tm) (tks : ℕ) (zone : List ℕ) : Option ℤ :=
  if zone = [] then
    if T.year < 1 ∨ 1000 < T.year then none else some (L.timegm { T with year := T.year + 69 } * 10 + tks)
  else if T.year < 1900 then none
  else if zone.head? = some 43 ∨ zone.head? = some 45 then
    some (L.timegm (takeZone { T with year := T.year - 1900 } zone) * 10 + tks)
  else some (L.timegm { T with year := T.year - 1900 } * 10 + tks)

/-- `str2ticks`; nothing for `-1`. -/
def str2ticks (s : List ℕ) : Option ℤ := do
  let (T, zone) ← scanTime s
  let (tks, zone) ← readFraction L zone
  timeTicks L { T with mon := T.mon - 1 } tks zone

/-- A number that has to be the whole text. -/
def wholeText {α : Type} (err : DmResult) (r : α × List ℕ) (value : α → Value) : Except DmResult Value :=
  if r.2 = [] then .ok (value r.1) else .error err

/-- `strcasecmp` says that the texts are equal. -/
def sameText (s t : List ℕ) : Bool :=
  let lower := fun c => if 65 ≤ c ∧ c ≤ 90 then c + 32 else c
  s.map lower = t.map lower

/-- `dm_set_binary_value` of a decoded block. -/
def setBinaryValue (block : List ℕ) : Except DmResult Value :=
  if block = [] then .ok (.binary none)
  else if D.alloc.grants (4 + block.length) = true then .ok (.binary (some block)) else .error .oom

/-- A text in base64; the buffer has more room than the block needs. -/
def base64Value (size : ℕ) (str : List ℕ) : Except DmResult Value :=
  if D.alloc.grants (4 + (size + 4) * 3 / 4) = true then setBinaryValue D (Base64.from64 str) else .error .oom

/-- `dm_string2value`. -/
def dmString2value (e : DmElement) (str : List ℕ) : Except DmResult Value :=
  match e.type with
  | .str => setStringValue D str
  | .binary => setBinaryData D (octets str)
  | .base64 => base64Value D str.length str
  | .selector =>
    if str = [] then setSelectorValue D []
    else match dmName2sel D.schema str with
      | none => .error .invalidValue
      | some sel => setSelectorValue D sel
  | .bool =>
    if sameText (Save.ascii "true") str = true then .ok (.bool 1)
    else if sameText (Save.ascii "false") str = true then .ok (.bool 0)
    else .error .invalidValue
  | .enum => if dmEnum2int e.enums str = -1 then .error .invalidValue else .ok (.enum (dmEnum2int e.enums str))
  | .int => wholeText .invalidValue (strtol str) fun n => .int (n.bmod (2 ^ 32))
  | .uint => wholeText .invalidValue (strtoul str) fun n => .uint (n % 2 ^ 32)
  | .int64 => wholeText .invalidValue (strtol str) .int64
  | .uint64 => wholeText .invalidValue (strtoul str) .uint64
  | .ipaddr4 => (L.pton .inet str).elim (.error .invalidValue) fun b => .ok (.ip4 b)
  | .ipaddr6 => (L.pton .inet6 str).elim (.error .invalidValue) fun b => .ok (.ip6 b)
  | .date => wholeText .invalidType (strtoul str) fun n => .date ((n : ℤ).bmod (2 ^ 64))
  | .ticks =>
    match str2ticks L str with
    | some n => .ok (.ticks n)
    | none => wholeText .invalidType (strtoul str) fun n => .ticks ((n : ℤ).bmod (2 ^ 64))
  | _ => .error .invalidType

/-- `dmconfig_string2value`. Blocks are base64 here. The `RC_ERR_ALLOC` of a failed copy counts as `DM_OOM`. -/
def dmconfigString2value (e : DmElement) (data : List UInt8) : Except DmResult Value := do
  let dum ← strndup D data
  if e.type = .base64 ∨ e.type = .binary then base64Value D data.length dum else dmString2value D L e dum

/-- The conversion with its own strings. -/
def DecodeEnv.withText : DecodeEnv := { D with string2value := dmconfigString2value D L }

end Parse

/-! ## Times -/

/-- Fields that `%d` prints and reads alike, the year apart. -/
structure Tm.Small (T : Tm) : Prop where
  year : 0 ≤ T.year ∧ T.year < 2 ^ 31
  mon : 0 ≤ T.mon ∧ T.mon < 100
  mday : 0 ≤ T.mday ∧ T.mday < 100
  hour : 0 ≤ T.hour ∧ T.hour < 100
  min : 0 ≤ T.min ∧ T.min < 100
  sec : 0 ≤ T.sec ∧ T.sec < 100

theorem Tm.Valid.small {T : Tm} (h : T.Valid) (h70 : 70 ≤ T.year) : T.Small := by
  obtain ⟨hyear, hmon, hmday, hhour, hmin, hsec⟩ := h
  constructor <;> omega

theorem Tm.zero_valid : Tm.zero.Valid := by
  constructor <;> simp [Tm.zero]

theorem Tm.zero_small : Tm.zero.Small := by
  constructor <;> simp [Tm.zero]

theorem literal_cons (c : ℕ) (s : List ℕ) : literal c (c :: s) = some s := by simp [literal]

theorem scanInt_twoDigits {n : ℤ} (hlow : 0 ≤ n) (hhigh : n < 200) {rest : List ℕ} (hrest : Stops rest) :
    scanInt (twoDigits n ++ rest) = some (n, rest) :=
  scanInt_of_readInt (readInt_twoDigits hlow hrest) (by omega) (by omega)

theorem scanInt_year {n : ℤ} (hlow : 0 ≤ n) (hhigh : n < 2 ^ 32) {rest : List ℕ} (hrest : Stops rest) :
    scanInt (intText n ++ rest) = some (n.bmod (2 ^ 32), rest) := by
  have hmax : max (-2 ^ 63) (min n (2 ^ 63 - 1)) = n := by omega
  rw [scanInt, readInt_intText n hrest, Option.map_some]
  simp only [hmax]

/-- The characters of a zone. -/
def zoneOf (s : List ℕ) : List ℕ := ((s.dropWhile isspace).takeWhile (fun c => isspace c = false)).take 31

theorem scanTime_strftime {T : Tm} (hT : T.Small) {rest : List ℕ} (hrest : Stops rest) :
    scanTime (strftime T ++ rest) =
      some (⟨(T.year + 1900).bmod (2 ^ 32), T.mon + 1, T.mday, T.hour, T.min, T.sec⟩, zoneOf rest) := by
  obtain ⟨hyear, hmon, hmday, hhour, hmin, hsec⟩ := hT
  have hdash : ∀ s, Stops (45 :: s) := stops_cons (by decide)
  have hcolon : ∀ s, Stops (58 :: s) := stops_cons (by decide)
  simp only [strftime, List.append_assoc, List.cons_append, scanTime, Option.bind_eq_bind]
  rw [scanInt_year (by omega) (by omega) (hdash _), Option.bind_some, literal_cons, Option.bind_some,
    scanInt_twoDigits (by omega) (by omega) (hdash _), Option.bind_some, literal_cons, Option.bind_some,
    scanInt_twoDigits (by omega) (by omega) (stops_cons (by decide) _), Option.bind_some, literal_cons, Option.bind_some,
    scanInt_twoDigits (by omega) (by omega) (hcolon _), Option.bind_some, literal_cons, Option.bind_some,
    scanInt_twoDigits (by omega) (by omega) (hcolon _), Option.bind_some, literal_cons, Option.bind_some,
    scanInt_twoDigits (by omega) (by omega) hrest, Option.bind_some]
  rfl

/-- No number is all of a printed time. -/
theorem strtoul_strftime (T : Tm) (rest : List ℕ) : (strtoul (strftime T ++ rest)).2 ≠ [] := by
  obtain ⟨s, hs⟩ : ∃ s, strftime T ++ rest = intText (T.year + 1900) ++ 45 :: s := ⟨_, by
    simp only [strftime, List.append_assoc, List.cons_append]
    rfl⟩
  rw [strtoul, hs, readInt_intText _ (stops_cons (by decide) _)]
  simp

theorem brokenDown_valid {L : Libc} (hL : L.Sound) (secs : ℤ) : (brokenDown L secs).Valid := by
  unfold brokenDown
  cases hT : L.gmtime secs with
  | none => exact Tm.zero_valid
  | some T => exact hL.valid secs T hT

theorem mem_strftime {T : Tm} {c : ℕ} (h : c ∈ strftime T) : 0 < c ∧ c < 128 := by
  simp only [strftime, List.mem_append, List.mem_cons] at h
  rcases h with h | rfl | h | rfl | h | rfl | h | rfl | h | rfl | h
  · exact mem_intText h
  · omega
  · exact mem_twoDigits h
  · omega
  · exact mem_twoDigits h
  · omega
  · exact mem_twoDigits h
  · omega
  · exact mem_twoDigits h
  · omega
  · exact mem_twoDigits h

theorem length_strftime {T : Tm} (hT : T.Valid) : (strftime T).length ≤ 40 := by
  obtain ⟨hyear, hmon, hmday, hhour, hmin, hsec⟩ := hT
  have h0 := @length_intText_le (T.year + 1900) 10 (by omega) (by omega)
  have h1 := @length_twoDigits_le (T.mon + 1) 2 (by omega) (by omega)
  have h2 := @length_twoDigits_le T.mday 2 (by omega) (by omega)
  have h3 := @length_twoDigits_le T.hour 2 (by omega) (by omega)
  have h4 := @length_twoDigits_le T.min 2 (by omega) (by omega)
  have h5 := @length_twoDigits_le T.sec 2 (by omega) (by omega)
  simp only [strftime, List.length_append, List.length_cons]
  omega

/-- What is printed behind the seconds. -/
def tickTail (n : ℤ) : List ℕ := (if n % 10 ≠ 0 then 46 :: intText (n % 10) else []) ++ [90]

theorem dmTicks2str_time (L : Libc) {n : ℤ} (hn : 0 ≤ n) :
    dmTicks2str L n = strftime (brokenDown L (n / 10)) ++ tickTail n := if_neg (by omega)

/-- A digit is a tick. -/
theorem decimal_one {d : ℕ} (h : d < 10) : Decimal.decimal d = [48 + d] := by
  interval_cases d <;> simp [Decimal.decimal]

theorem stops_tickTail (n : ℤ) : Stops (tickTail n) := by
  unfold tickTail
  split_ifs
  · exact stops_cons (by decide) _
  · exact stops_cons (by decide) _

theorem zoneOf_tickTail (n : ℤ) : zoneOf (tickTail n) = tickTail n := by
  unfold tickTail
  split_ifs with h
  · have hd : (n % 10).toNat < 10 := by omega
    have htext : intText (n % 10) = [48 + (n % 10).toNat] := by
      rw [← decimal_one hd, ← intText_natCast]
      congr 1
      omega
    rw [htext]
    generalize (n % 10).toNat = d at hd
    interval_cases d <;> decide
  · decide

theorem readFraction_tickTail {L : Libc} (hL : L.Sound) (n : ℤ) : readFraction L (tickTail n) = some ((n % 10).toNat, [90]) := by
  unfold tickTail readFraction
  split_ifs with h h1 h1
  · have hd := hL.digit (n % 10).toNat (by omega) (by omega)
    have htext : intText (n % 10) = Decimal.decimal (n % 10).toNat := by
      rw [← intText_natCast]
      congr 1
      omega
    rw [htext]
    exact hd
  · exact absurd rfl h1
  · exact absurd h1 (by decide)
  · have hzero : (n % 10).toNat = 0 := by omega
    rw [hzero]
    rfl

/-- A printed time, parsed. -/
theorem str2ticks_strftime {L : Libc} (hL : L.Sound) {T : Tm} (hT : T.Small) (n : ℤ) :
    str2ticks L (strftime T ++ tickTail n) =
      if T.year + 1900 < 2 ^ 31 then some (L.timegm T * 10 + n % 10) else none := by
  have hyear := hT.year
  rw [str2ticks, scanTime_strftime hT (stops_tickTail n), zoneOf_tickTail]
  simp only [Option.bind_eq_bind, Option.bind_some, readFraction_tickTail hL]
  unfold timeTicks
  rw [if_neg (by simp)]
  have htks : (((n % 10).toNat : ℕ) : ℤ) = n % 10 := by omega
  by_cases h : T.year + 1900 < 2 ^ 31
  · have hmod : (T.year + 1900).bmod (2 ^ 32) = T.year + 1900 := Int.bmod_eq_of_le_mul_two (by omega) (by omega)
    rw [if_pos h]
    simp only [hmod, htks]
    rw [if_neg (by omega), if_neg (by simp)]
    simp only [add_sub_cancel_right]
  · have hmod : (T.year + 1900).bmod (2 ^ 32) = T.year + 1900 - 2 ^ 32 := by
      rw [Int.bmod_eq_iff (by norm_num)]
      omega
    rw [if_neg h]
    simp only [hmod]
    rw [if_pos (by omega)]

end Mand.Rpc
