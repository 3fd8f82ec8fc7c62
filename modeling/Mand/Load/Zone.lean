import Mand.Load.Clock

/-! # Time zones

What `str2ticks` makes of a time stamp with an offset behind it. -/
namespace Mand.Load
open Mand.Rpc Mand.Scan Mand.Decimal
set_option autoImplicit false

/-- An offset of hours and minutes, as `+hh:mm` or `+hhmm`. -/
structure Offset where
  negative : Bool
  colon : Bool
  hh : ℕ
  mm : ℕ
  hours : hh < 100
  minutes : mm < 100

def Offset.sign (o : Offset) : ℕ := if o.negative = true then 45 else 43

def Offset.text (o : Offset) : List ℕ :=
  o.sign :: (twoDigits o.hh ++ ((if o.colon = true then [58] else []) ++ twoDigits o.mm))

/-- The offset in minutes. -/
def Offset.value (o : Offset) : ℤ := if o.negative = true then -(60 * o.hh + o.mm : ℤ) else 60 * o.hh + o.mm

/-- `-00:mm`: the sign is on the hours alone. -/
def Offset.Unsigned (o : Offset) : Prop := o.negative = true ∧ o.colon = true ∧ o.hh = 0 ∧ o.mm ≠ 0

/-- A fraction of a second, or nothing. -/
def fractionText (ds : List ℕ) : List ℕ := if ds = [] then [] else 46 :: ds

/-- What the library promises: `strtod` reads digits behind a point up to a sign, as `tenths` of a second after `rint`, and
`timegm` normalises the day. -/
structure Normalising (L : Libc) (tenths : List ℕ → ℕ) : Prop where
  fraction : ∀ ds rest, ds ≠ [] → (∀ c ∈ ds, digit c = true) → rest.head? = some 43 ∨ rest.head? = some 45 →
    L.fraction (46 :: (ds ++ rest)) = some (tenths ds, rest)
  day : ∀ (T : Tm) (k hour min : ℤ), T.Valid → 0 ≤ hour ∧ hour < 24 → 0 ≤ min ∧ min < 60 →
    L.timegm { T with mday := T.mday + k, hour := hour, min := min } =
      L.timegm T + 86400 * k + 3600 * (hour - T.hour) + 60 * (min - T.min)

/-! ## The offset is read -/

theorem twoDigits_nat : ∀ n < 100, twoDigits (n : ℕ) = [48 + n / 10, 48 + n % 10] := by decide

theorem digits_two {n : ℕ} (hn : n < 100) : ∀ c ∈ [48 + n / 10, 48 + n % 10], digit c = true := by
  intro c hc
  simp only [List.mem_cons, List.not_mem_nil, or_false] at hc
  rw [digit, decide_eq_true_iff]
  omega

theorem undecimal_two (n : ℕ) : undecimal [48 + n / 10, 48 + n % 10] = n := by
  simp only [undecimal, List.foldl_cons, List.foldl_nil]
  omega

/-- A sign and some digits. -/
theorem readInt_sign {ds rest : List ℕ} (hds : ∀ c ∈ ds, digit c = true) (hne : ds ≠ []) (hrest : Stops rest) (b : Bool) :
    readInt ((if b = true then 45 else 43) :: (ds ++ rest)) = some (if b = true then -(undecimal ds : ℤ) else undecimal ds, rest) := by
  have hread := readNat_append hds hne hrest
  cases b with
  | true =>
    show (readNat (ds ++ rest)).map _ = _
    rw [hread]
    rfl
  | false =>
    show (readNat (ds ++ rest)).map _ = _
    rw [hread]
    rfl

theorem zoneOffset_colon {o : Offset} (hcolon : o.colon = true) (hsign : ¬o.Unsigned) :
    60 * (zoneOffset o.text).1 + (zoneOffset o.text).2 = o.value := by
  obtain ⟨neg, colon, hh, mm, hhours, hminutes⟩ := o
  subst hcolon
  have htext : Offset.text ⟨neg, true, hh, mm, hhours, hminutes⟩ =
      (if neg = true then 45 else 43) :: ([48 + hh / 10, 48 + hh % 10] ++ 58 :: [48 + mm / 10, 48 + mm % 10]) := by
    simp only [Offset.text, Offset.sign, twoDigits_nat hh hhours, twoDigits_nat mm hminutes, if_true, List.cons_append,
      List.nil_append]
  have hh' := readInt_sign (digits_two hhours) (by simp) (stops_cons (by decide) [48 + mm / 10, 48 + mm % 10] : Stops (58 :: _)) neg
  have hm' := readInt_digits (digits_two hminutes) (by simp) stops_nil
  rw [undecimal_two] at hh'
  rw [undecimal_two, List.append_nil] at hm'
  have hscan := scanInt_of_readInt hh' (by split_ifs <;> omega) (by split_ifs <;> omega)
  have hscanm := scanInt_of_readInt hm' (by omega) (by omega)
  rw [htext, zoneOffset, if_pos (by rfl), hscan]
  simp only [literal_cons, Option.bind_some, hscanm, Option.elim_some, Offset.value]
  unfold Offset.Unsigned at hsign
  simp only [not_and, not_not, true_implies] at hsign
  cases neg with
  | true =>
    have h0 := hsign rfl
    simp only [if_true]
    split_ifs <;> omega
  | false =>
    simp only [Bool.false_eq_true, if_false]
    split_ifs <;> omega

theorem zoneOffset_plain {o : Offset} (hcolon : o.colon = false) : 60 * (zoneOffset o.text).1 + (zoneOffset o.text).2 = o.value := by
  obtain ⟨neg, colon, hh, mm, hhours, hminutes⟩ := o
  subst hcolon
  have htext : Offset.text ⟨neg, false, hh, mm, hhours, hminutes⟩ =
      (if neg = true then 45 else 43) :: ([48 + hh / 10, 48 + hh % 10] ++ [48 + mm / 10, 48 + mm % 10] ++ []) := by
    simp only [Offset.text, Offset.sign, twoDigits_nat hh hhours, twoDigits_nat mm hminutes, Bool.false_eq_true, if_false,
      List.nil_append, List.append_nil]
  have hval : undecimal ([48 + hh / 10, 48 + hh % 10] ++ [48 + mm / 10, 48 + mm % 10]) = 100 * hh + mm := by
    simp only [undecimal, List.cons_append, List.nil_append, List.foldl_cons, List.foldl_nil]
    omega
  have hread := @readInt_sign ([48 + hh / 10, 48 + hh % 10] ++ [48 + mm / 10, 48 + mm % 10]) [] (by
    intro c hc
    rcases List.mem_append.mp hc with hc | hc
    · exact digits_two hhours c hc
    · exact digits_two hminutes c hc) (by simp) stops_nil neg
  rw [hval] at hread
  have hthird : ¬(Offset.text ⟨neg, false, hh, mm, hhours, hminutes⟩)[3]? = some 58 := by
    rw [htext]
    simp
    omega
  rw [zoneOffset, if_neg hthird, htext, strtol, hread]
  simp only [Offset.value]
  cases neg with
  | true =>
    simp only [if_true]
    have hmax : max (-2 ^ 63) (min (-((100 * hh + mm : ℕ) : ℤ)) (2 ^ 63 - 1)) = -((100 * hh + mm : ℕ) : ℤ) := by omega
    rw [hmax, Int.bmod_eq_of_le_mul_two (by omega) (by omega), Int.neg_tdiv, Int.neg_tmod, Int.tdiv_eq_ediv_of_nonneg (by omega),
      Int.tmod_eq_emod_of_nonneg (by omega)]
    omega
  | false =>
    simp only [Bool.false_eq_true, if_false]
    have hmax : max (-2 ^ 63) (min ((100 * hh + mm : ℕ) : ℤ) (2 ^ 63 - 1)) = ((100 * hh + mm : ℕ) : ℤ) := by omega
    rw [hmax, Int.bmod_eq_of_le_mul_two (by omega) (by omega), Int.tdiv_eq_ediv_of_nonneg (by omega),
      Int.tmod_eq_emod_of_nonneg (by omega)]
    omega

theorem zoneOffset_text {o : Offset} (hsign : ¬o.Unsigned) : 60 * (zoneOffset o.text).1 + (zoneOffset o.text).2 = o.value := by
  cases hcolon : o.colon with
  | true => exact zoneOffset_colon hcolon hsign
  | false => exact zoneOffset_plain hcolon

/-! ## The offset is taken off -/

/-- C's truncating division, put in range. -/
theorem normalise (n b : ℤ) (hb : 0 < b) :
    let q := if n.tmod b < 0 then n.tdiv b - 1 else n.tdiv b
    let r := if n.tmod b < 0 then n.tmod b + b else n.tmod b
    b * q + r = n ∧ 0 ≤ r ∧ r < b := by
  have hsum := Int.mul_tdiv_add_tmod n b
  have hhigh := Int.tmod_lt_of_pos n hb
  have hlow := Int.lt_tmod_of_pos n hb
  dsimp only
  split_ifs with hneg
  · refine ⟨?_, by omega, by omega⟩
    rw [mul_sub, mul_one]
    omega
  · exact ⟨hsum, by omega, hhigh⟩

/-- The time of day is in range again, and the same number of minutes is gone. -/
theorem takeZone_spec (T : Tm) (s : List ℕ) : ∃ k hour min, takeZone T s = { T with mday := T.mday + k, hour := hour, min := min } ∧
    (0 ≤ hour ∧ hour < 24) ∧ (0 ≤ min ∧ min < 60) ∧
    1440 * k + 60 * hour + min = 60 * T.hour + T.min - (60 * (zoneOffset s).1 + (zoneOffset s).2) := by
  unfold takeZone
  generalize zoneOffset s = z
  obtain ⟨h, m⟩ := z
  obtain ⟨hsum, hlow, hhigh⟩ := normalise (T.min - m) 60 (by norm_num)
  simp only
  by_cases hmin : (T.min - m).tmod 60 < 0
  · obtain ⟨hday, hdlow, hdhigh⟩ := normalise (T.hour - h + (T.min - m).tdiv 60 - 1) 24 (by norm_num)
    simp only [if_pos hmin] at hsum hlow hhigh ⊢
    by_cases hhour : (T.hour - h + (T.min - m).tdiv 60 - 1).tmod 24 < 0
    · simp only [if_pos hhour] at hday hdlow hdhigh ⊢
      exact ⟨_, _, _, by rw [add_sub_assoc], ⟨hdlow, hdhigh⟩, ⟨hlow, hhigh⟩, by omega⟩
    · simp only [if_neg hhour] at hday hdlow hdhigh ⊢
      exact ⟨_, _, _, rfl, ⟨hdlow, hdhigh⟩, ⟨hlow, hhigh⟩, by omega⟩
  · obtain ⟨hday, hdlow, hdhigh⟩ := normalise (T.hour - h + (T.min - m).tdiv 60) 24 (by norm_num)
    simp only [if_neg hmin] at hsum hlow hhigh ⊢
    by_cases hhour : (T.hour - h + (T.min - m).tdiv 60).tmod 24 < 0
    · simp only [if_pos hhour] at hday hdlow hdhigh ⊢
      exact ⟨_, _, _, by rw [add_sub_assoc], ⟨hdlow, hdhigh⟩, ⟨hlow, hhigh⟩, by omega⟩
    · simp only [if_neg hhour] at hday hdlow hdhigh ⊢
      exact ⟨_, _, _, rfl, ⟨hdlow, hdhigh⟩, ⟨hlow, hhigh⟩, by omega⟩

/-! ## The whole text -/

theorem zoneOf_whole {s : List ℕ} (hs : ∀ c ∈ s, isspace c = false) (hlen : s.length ≤ 31) : zoneOf s = s := by
  have htake : s.takeWhile (fun c => isspace c = false) = s := by
    rw [List.takeWhile_eq_self_iff]
    simpa using hs
  have hdrop : s.dropWhile isspace = s := by
    cases s with
    | nil => rfl
    | cons c s => exact List.dropWhile_cons_of_neg (by simp [hs c List.mem_cons_self])
  rw [zoneOf, hdrop, htake, List.take_of_length_le hlen]

theorem Offset.sign_cases (o : Offset) : o.sign = 45 ∨ o.sign = 43 := by
  unfold Offset.sign
  split_ifs
  · exact .inl rfl
  · exact .inr rfl

theorem digit_not_space {c : ℕ} (h : digit c = true) : isspace c = false := by
  simp only [digit, decide_eq_true_iff] at h
  simp only [isspace, decide_eq_false_iff_not]
  omega

theorem Offset.text_plain (o : Offset) : ∀ c ∈ o.text, isspace c = false := by
  intro c hc
  rw [Offset.text, twoDigits_nat _ o.hours, twoDigits_nat _ o.minutes] at hc
  rcases List.mem_cons.mp hc with rfl | hc
  · rcases o.sign_cases with h | h <;> rw [h] <;> rfl
  rcases List.mem_append.mp hc with hc | hc
  · exact digit_not_space (digits_two o.hours c hc)
  rcases List.mem_append.mp hc with hc | hc
  · split_ifs at hc
    · rw [List.mem_singleton.mp hc]
      rfl
    · cases hc
  · exact digit_not_space (digits_two o.minutes c hc)

theorem Offset.head (o : Offset) : o.text.head? = some 43 ∨ o.text.head? = some 45 := by
  rcases o.sign_cases with h | h
  · exact .inr (congrArg some h)
  · exact .inl (congrArg some h)

theorem fraction_plain {ds : List ℕ} (hds : ∀ c ∈ ds, digit c = true) : ∀ c ∈ fractionText ds, isspace c = false := by
  intro c hc
  unfold fractionText at hc
  split_ifs at hc
  · cases hc
  · rcases List.mem_cons.mp hc with rfl | hc
    · rfl
    · exact digit_not_space (hds c hc)

theorem stops_zone (ds : List ℕ) (o : Offset) : Stops (fractionText ds ++ o.text) := by
  unfold fractionText
  split_ifs
  · rcases o.sign_cases with h | h
    · exact stops_cons (by rw [h]; rfl) _
    · exact stops_cons (by rw [h]; rfl) _
  · exact stops_cons (by decide) _

/-- The tenths of a fraction, which may be missing. -/
def tenthsOf (tenths : List ℕ → ℕ) (ds : List ℕ) : ℕ := if ds = [] then 0 else tenths ds

theorem readFraction_zone {L : Libc} {tenths : List ℕ → ℕ} (hL : Normalising L tenths) {ds : List ℕ}
    (hds : ∀ c ∈ ds, digit c = true) (o : Offset) :
    readFraction L (fractionText ds ++ o.text) = some (tenthsOf tenths ds, o.text) := by
  unfold readFraction fractionText tenthsOf
  split_ifs with h h1 h1
  · exfalso
    rw [List.nil_append] at h1
    rcases o.head with h2 | h2 <;> rw [h2] at h1 <;> cases h1
  · rfl
  · exact hL.fraction ds o.text h hds o.head
  · exact absurd rfl h1

theorem str2ticks_zone {L : Libc} {tenths : List ℕ → ℕ} (hL : Normalising L tenths) {T : Tm} (hT : T.Valid)
    (hyear : T.year + 1900 < 2 ^ 31) {ds : List ℕ} (hds : ∀ c ∈ ds, digit c = true) {o : Offset}
    (hlen : (fractionText ds ++ o.text).length ≤ 31) :
    str2ticks L (stamp (T.year + 1900) T ++ (fractionText ds ++ o.text)) =
      timeTicks L { T with year := T.year + 1900 } (tenthsOf tenths ds) o.text := by
  obtain ⟨hlow, hmon, hmday, hhour, hmin, hsec⟩ := hT
  have hsmall : Tm.Small { T with year := 0 } := by
    constructor <;> simp only <;> omega
  have hscan := scanTime_stamp (by omega : -2 ^ 31 ≤ T.year + 1900 ∧ T.year + 1900 < 2 ^ 31) hsmall (stops_zone ds o)
  have hplain : ∀ c ∈ fractionText ds ++ o.text, isspace c = false := fun c hc =>
    (List.mem_append.mp hc).elim (fraction_plain hds c) (o.text_plain c)
  have hstamp : stamp (T.year + 1900) { T with year := 0 } = stamp (T.year + 1900) T := rfl
  rw [hstamp, zoneOf_whole hplain hlen] at hscan
  rw [str2ticks, hscan]
  simp only [Option.bind_eq_bind, Option.bind_some, readFraction_zone hL hds, add_sub_cancel_right]

/-- A local time with an offset: from 1900 on the ticks of the time as UTC less those of the offset, unless the offset
is less than an hour behind UTC and has a colon; before 1900 it is refused. Fraction and offset have 31 characters at
most. -/
theorem zone_ticks (L : Libc) (tenths : List ℕ → ℕ) (hL : Normalising L tenths) (T : Tm) (hT : T.Valid)
    (hyear : T.year + 1900 < 2 ^ 31) (ds : List ℕ) (hds : ∀ c ∈ ds, digit c = true) (o : Offset)
    (hlen : (fractionText ds ++ o.text).length ≤ 31) :
    (0 ≤ T.year → ¬o.Unsigned → str2ticks L (stamp (T.year + 1900) T ++ (fractionText ds ++ o.text)) =
      some (L.timegm T * 10 + tenthsOf tenths ds - o.value * 600)) ∧
    (T.year < 0 → str2ticks L (stamp (T.year + 1900) T ++ (fractionText ds ++ o.text)) = none) := by
  have htext : o.text ≠ [] := by simp [Offset.text]
  rw [str2ticks_zone hL hT hyear hds hlen, timeTicks, if_neg htext]
  simp only
  constructor
  · intro h1900 hsign
    obtain ⟨k, hour, min, hzone, hhour, hmin, hsum⟩ := takeZone_spec T o.text
    rw [zoneOffset_text hsign] at hsum
    have hday := hL.day T k hour min hT hhour hmin
    rw [if_neg (by omega), if_pos o.head]
    simp only [add_sub_cancel_right, hzone, hday, Option.some.injEq]
    omega
  · intro hearly
    rw [if_pos (by omega)]

/-- The sign of no hours is lost, so that the minutes are taken the other way. -/
theorem zoneOffset_unsigned {o : Offset} (h : o.Unsigned) : zoneOffset o.text = (0, (o.mm : ℤ)) := by
  obtain ⟨neg, colon, hh, mm, hhours, hminutes⟩ := o
  obtain ⟨rfl, rfl, rfl, hmm⟩ := h
  simp only at hmm ⊢
  have htext : Offset.text ⟨true, true, 0, mm, hhours, hminutes⟩ = 45 :: ([48, 48] ++ 58 :: [48 + mm / 10, 48 + mm % 10]) := by
    rw [Offset.text, twoDigits_nat mm hminutes]
    rfl
  have hread := readInt_digits (digits_two hminutes) (by simp) stops_nil
  rw [undecimal_two, List.append_nil] at hread
  have hscan := scanInt_of_readInt hread (by omega) (by omega)
  have hhour : scanInt (45 :: ([48, 48] ++ 58 :: [48 + mm / 10, 48 + mm % 10])) = some (0, 58 :: [48 + mm / 10, 48 + mm % 10]) :=
    scanInt_of_readInt (readInt_sign (by decide) (by simp) (stops_cons (by decide) _) true) (by norm_num) (by norm_num)
  rw [htext, zoneOffset, if_pos (by rfl), hhour]
  simp only [literal_cons, Option.bind_some, hscan, Option.elim_some, lt_irrefl, if_false]

/-! ## Samples -/

/-- The days before a month. -/
def monthDays (year mon : ℤ) : ℤ :=
  [0, 31, 59, 90, 120, 151, 181, 212, 243, 273, 304, 334].getD mon.toNat 0 +
    if 1 < mon ∧ year % 4 = 0 ∧ (year % 100 ≠ 0 ∨ year % 400 = 0) then 1 else 0

/-- The days before a year, from 1970 on. -/
def yearDays (year : ℤ) : ℤ := 365 * (year - 1970) + (year - 1969) / 4 - (year - 1901) / 100 + (year - 1601) / 400

/-- Digits behind a point, rounded to tenths with ties to even. -/
def roundTenths (ds : List ℕ) : ℕ :=
  let p := 10 ^ (ds.length - 1)
  let q := undecimal ds / p
  let r := undecimal ds % p
  if 2 * r < p ∨ 2 * r = p ∧ q % 2 = 0 then q else q + 1

/-- The Gregorian calendar. -/
def gregorian : Libc where
  gmtime := fun _ => none
  timegm := fun T => 86400 * (yearDays (T.year + 1900) + monthDays (T.year + 1900) T.mon + T.mday - 1) + 3600 * T.hour +
    60 * T.min + T.sec
  fraction := fun s => some (roundTenths (s.tail.takeWhile digit), s.tail.dropWhile digit)
  ntop := fun _ b => b
  pton := fun _ s => some s

example : gregorian.timegm ⟨120, 1, 29, 23, 30, 0⟩ = 1583019000 := by decide

theorem gregorian_normalising : Normalising gregorian roundTenths where
  fraction := by
    intro ds rest hne hds hrest
    have hstop : Stops rest := by
      intro c hc
      rcases hrest with h | h <;> rw [h] at hc <;> cases hc <;> rfl
    have hread := readNat_append hds hne hstop
    unfold readNat at hread
    split_ifs at hread with h0
    rw [Option.some.injEq, Prod.mk.injEq] at hread
    have htake : (ds ++ rest).takeWhile digit = ds := by
      have hsplit := List.takeWhile_append_dropWhile (p := digit) (l := ds ++ rest)
      rw [hread.2] at hsplit
      exact List.append_cancel_right hsplit
    simp only [gregorian, List.tail_cons, hread.2, htake]
  day := by
    intro T k hour min _ _ _
    simp only [gregorian]
    ring

/-- Before 1900 nothing is read. -/
theorem early_stamp_refused : ¬∀ (T : Tm) (o : Offset), T.Valid →
    str2ticks gregorian (stamp (T.year + 1900) T ++ o.text) = some (gregorian.timegm T * 10 - o.value * 600) := by
  intro h
  have hnone := h ⟨-1, 11, 31, 12, 0, 0⟩ ⟨false, true, 1, 0, by omega, by omega⟩ (by constructor <;> norm_num)
  revert hnone
  decide

theorem zone_ticks_leap :
    (0 ≤ (120 : ℤ) → ¬(⟨true, true, 1, 45, by omega, by omega⟩ : Offset).Unsigned →
      str2ticks gregorian (stamp (120 + 1900) ⟨120, 1, 29, 23, 30, 0⟩ ++
        (fractionText [53] ++ Offset.text ⟨true, true, 1, 45, by omega, by omega⟩)) =
      some (gregorian.timegm ⟨120, 1, 29, 23, 30, 0⟩ * 10 + tenthsOf roundTenths [53] -
        Offset.value ⟨true, true, 1, 45, by omega, by omega⟩ * 600)) ∧
    ((120 : ℤ) < 0 → str2ticks gregorian (stamp (120 + 1900) ⟨120, 1, 29, 23, 30, 0⟩ ++
      (fractionText [53] ++ Offset.text ⟨true, true, 1, 45, by omega, by omega⟩)) = none) :=
  zone_ticks gregorian roundTenths gregorian_normalising ⟨120, 1, 29, 23, 30, 0⟩ (by constructor <;> norm_num) (by norm_num)
    [53] (by decide) ⟨true, true, 1, 45, by omega, by omega⟩ (by decide)

end Mand.Load
