import Mand.Rpc.TextTrip

/-! # Time stamps

`ticks2str` of `dm_strings.c` against `str2ticks`. A time up to `EPOCH` is printed as one that is relative to the start
of the clock, from year one on and without a zone. -/
namespace Mand.Load
open Mand.Rpc Mand.Scan Mand.Decimal
set_option autoImplicit false

/-- `EPOCH`: the start of 2009, in ticks. -/
def epoch : ℤ := 12307680000

/-- `%04d`. -/
def fourDigits (n : ℤ) : List ℕ :=
  let ds := decimal n.natAbs
  if n < 0 then 45 :: (List.replicate (3 - ds.length) 48 ++ ds) else List.replicate (4 - ds.length) 48 ++ ds

/-- The date and the time of day, with the year apart. -/
def stamp (year : ℤ) (T : Tm) : List ℕ :=
  fourDigits year ++ 45 :: (twoDigits (T.mon + 1) ++ 45 :: (twoDigits T.mday ++ 84 :: (twoDigits T.hour ++
    58 :: (twoDigits T.min ++ 58 :: twoDigits T.sec))))

/-- The year that is printed; it is an `int`. -/
def printedYear (n : ℤ) (T : Tm) : ℤ := if epoch < n then (T.year + 1900).bmod (2 ^ 32) else T.year - 69

/-- What is printed behind the seconds. -/
def stampTail (n : ℤ) : List ℕ :=
  (if n % 10 ≠ 0 then 46 :: intText (n % 10) else []) ++ if n = 0 ∨ epoch < n then [90] else []

/-- `ticks2str`, with a buffer that is large enough. -/
def ticks2str (L : Libc) (n : ℤ) : List ℕ :=
  if n < 0 then intText n
  else stamp (printedYear n (brokenDown L (n / 10))) (brokenDown L (n / 10)) ++ stampTail n

/-! ## Reading a stamp -/

theorem undecimal_zeros (k : ℕ) (ds : List ℕ) : undecimal (List.replicate k 48 ++ ds) = undecimal ds := by
  induction k with
  | zero => rfl
  | succ k ih => exact ih

theorem digits_zeros {k n c : ℕ} (h : c ∈ List.replicate k 48 ++ decimal n) : digit c = true := by
  rcases List.mem_append.mp h with h | h
  · rw [List.eq_of_mem_replicate h]
    rfl
  · exact digit_decimal h

theorem zeros_ne_nil (k n : ℕ) : List.replicate k 48 ++ decimal n ≠ [] := by
  simp [decimal_ne_nil]

theorem readInt_fourDigits (n : ℤ) {rest : List ℕ} (hrest : Stops rest) : readInt (fourDigits n ++ rest) = some (n, rest) := by
  unfold fourDigits
  simp only
  split_ifs with hn
  · have hread := readNat_append (fun c hc => digits_zeros hc) (zeros_ne_nil (3 - (decimal n.natAbs).length) n.natAbs) hrest
    show (readNat (_ ++ rest)).map _ = _
    rw [hread, undecimal_zeros, undecimal_decimal, Option.map_some, Option.some.injEq, Prod.mk.injEq]
    exact ⟨by omega, rfl⟩
  · rw [readInt_digits (fun c hc => digits_zeros hc) (zeros_ne_nil _ _) hrest, undecimal_zeros, undecimal_decimal,
      Option.some.injEq, Prod.mk.injEq]
    exact ⟨by omega, rfl⟩

/-- What `sscanf` reads of a stamp. -/
theorem scanTime_stamp {year : ℤ} (hyear : -2 ^ 31 ≤ year ∧ year < 2 ^ 31) {T : Tm} (hT : T.Small) {rest : List ℕ}
    (hrest : Stops rest) :
    scanTime (stamp year T ++ rest) = some (⟨year, T.mon + 1, T.mday, T.hour, T.min, T.sec⟩, zoneOf rest) := by
  obtain ⟨-, hmon, hmday, hhour, hmin, hsec⟩ := hT
  have hdash : ∀ s, Stops (45 :: s) := stops_cons (by decide)
  have hcolon : ∀ s, Stops (58 :: s) := stops_cons (by decide)
  simp only [stamp, List.append_assoc, List.cons_append, scanTime, Option.bind_eq_bind]
  rw [scanInt_of_readInt (readInt_fourDigits year (hdash _)) hyear.1 hyear.2, Option.bind_some, literal_cons, Option.bind_some,
    scanInt_twoDigits (by omega) (by omega) (hdash _), Option.bind_some, literal_cons, Option.bind_some,
    scanInt_twoDigits (by omega) (by omega) (stops_cons (by decide) _), Option.bind_some, literal_cons, Option.bind_some,
    scanInt_twoDigits (by omega) (by omega) (hcolon _), Option.bind_some, literal_cons, Option.bind_some,
    scanInt_twoDigits (by omega) (by omega) (hcolon _), Option.bind_some, literal_cons, Option.bind_some,
    scanInt_twoDigits (by omega) (by omega) hrest, Option.bind_some]
  rfl

/-! ## There and back -/

/-- What the library promises: a calendar whose two directions fit, that is in 2009 at most up to `EPOCH`, and a digit
behind a point as a tenth. -/
structure Calendar (L : Libc) : Prop where
  valid : ∀ s T, L.gmtime s = some T → T.Valid
  since : ∀ s T, 0 ≤ s → L.gmtime s = some T → 70 ≤ T.year
  until_epoch : ∀ s T, s ≤ epoch / 10 → L.gmtime s = some T → T.year ≤ 109
  inverse : ∀ s T, 0 ≤ s → L.gmtime s = some T → L.timegm T = s
  digit : ∀ d, 0 < d → d < 10 → ∀ rest, rest = [] ∨ rest = [90] → L.fraction (46 :: (decimal d ++ rest)) = some (d, rest)

theorem stops_stampTail (n : ℤ) : Stops (stampTail n) := by
  unfold stampTail
  split_ifs
  · exact stops_cons (by decide) _
  · exact stops_cons (by decide) _
  · exact stops_cons (by decide) _
  · exact stops_nil

/-- The suffix of a stamp. -/
def suffix (n : ℤ) : List ℕ := if n = 0 ∨ epoch < n then [90] else []

theorem zoneOf_stampTail (n : ℤ) : zoneOf (stampTail n) = stampTail n := by
  have hd : (n % 10).toNat < 10 := by omega
  have htext : intText (n % 10) = [48 + (n % 10).toNat] := by
    rw [← decimal_one hd, ← intText_natCast]
    congr 1
    omega
  unfold stampTail
  rw [htext]
  generalize (n % 10).toNat = d at hd
  interval_cases d <;> split_ifs <;> decide

theorem readFraction_stampTail {L : Libc} (hL : Calendar L) (n : ℤ) :
    readFraction L (stampTail n) = some ((n % 10).toNat, suffix n) := by
  have hsuffix : suffix n = [] ∨ suffix n = [90] := by
    unfold suffix
    split_ifs
    · exact .inr rfl
    · exact .inl rfl
  have htail : stampTail n = (if n % 10 ≠ 0 then 46 :: intText (n % 10) else []) ++ suffix n := rfl
  rw [htail, readFraction]
  split_ifs with h h1 h1
  · have htext : intText (n % 10) = decimal (n % 10).toNat := by
      rw [← intText_natCast]
      congr 1
      omega
    rw [htext]
    exact hL.digit _ (by omega) (by omega) _ hsuffix
  · exact absurd rfl h1
  · rcases hsuffix with hs | hs <;> rw [hs] at h1 <;> cases h1
  · have hzero : (n % 10).toNat = 0 := by omega
    rw [hzero]
    rfl

theorem str2ticks_stamp {L : Libc} (hL : Calendar L) {T : Tm} (hT : T.Small) {year : ℤ} (hyear : -2 ^ 31 ≤ year ∧ year < 2 ^ 31)
    (n : ℤ) : str2ticks L (stamp year T ++ stampTail n) = timeTicks L { T with year := year } (n % 10).toNat (suffix n) := by
  rw [str2ticks, scanTime_stamp hyear hT (stops_stampTail n), zoneOf_stampTail]
  simp only [Option.bind_eq_bind, Option.bind_some, readFraction_stampTail hL, add_sub_cancel_right]

/-- A time stamp comes back if and only if it is not zero and its year is an `int`. -/
theorem ticks_return_iff (L : Libc) (hL : Calendar L) (n : ℤ) (hn : 0 ≤ n) (T : Tm) (hT : L.gmtime (n / 10) = some T) :
    str2ticks L (ticks2str L n) = some n ↔ n ≠ 0 ∧ (epoch < n → T.year + 1900 < 2 ^ 31) := by
  have hvalid := hL.valid _ T hT
  have hsince := hL.since _ T (by omega) hT
  have hback := hL.inverse _ T (by omega) hT
  have hsmall := hvalid.small hsince
  have hrange := hvalid.year
  have hbroken : brokenDown L (n / 10) = T := by rw [brokenDown, hT, Option.getD_some]
  have htks : (((n % 10).toNat : ℕ) : ℤ) = n % 10 := by omega
  have hval : L.timegm T * 10 + ((n % 10).toNat : ℕ) = n := by
    rw [hback, htks]
    omega
  rw [ticks2str, if_neg (by omega), hbroken, printedYear]
  by_cases hepoch : epoch < n
  · have hpos : n ≠ 0 := by
      unfold epoch at hepoch
      omega
    have hsuffix : suffix n = [90] := if_pos (.inr hepoch)
    rw [if_pos hepoch]
    by_cases hfit : T.year + 1900 < 2 ^ 31
    · have hmod : (T.year + 1900).bmod (2 ^ 32) = T.year + 1900 := Int.bmod_eq_of_le_mul_two (by omega) (by omega)
      rw [hmod, str2ticks_stamp hL hsmall (by omega), hsuffix, timeTicks, if_neg (by simp)]
      simp only
      rw [if_neg (by omega), if_neg (by decide)]
      simp only [add_sub_cancel_right, hval]
      exact iff_of_true trivial ⟨hpos, fun _ => hfit⟩
    · have hmod : (T.year + 1900).bmod (2 ^ 32) = T.year + 1900 - 2 ^ 32 := by
        rw [Int.bmod_eq_iff (by norm_num)]
        omega
      rw [hmod, str2ticks_stamp hL hsmall (by omega), hsuffix, timeTicks, if_neg (by simp)]
      simp only
      rw [if_pos (by omega)]
      exact iff_of_false (by simp) fun h => hfit (h.2 hepoch)
  · have huntil := hL.until_epoch _ T (by unfold epoch at hepoch ⊢; omega) hT
    rw [if_neg hepoch, str2ticks_stamp hL hsmall (by omega), timeTicks]
    by_cases h0 : n = 0
    · have hsuffix : suffix n = [90] := if_pos (.inl h0)
      rw [hsuffix, if_neg (by simp)]
      simp only
      rw [if_pos (by omega)]
      exact iff_of_false (by simp) fun h => h.1 h0
    · have hsuffix : suffix n = [] := if_neg (by rintro (h | h); exacts [h0 h, hepoch h])
      rw [hsuffix, if_pos rfl]
      simp only
      rw [if_neg (by omega)]
      simp only [sub_add_cancel, hval]
      exact iff_of_true trivial ⟨h0, fun h => absurd h hepoch⟩

/-! ## Samples -/

theorem sampleLibc_calendar : Calendar sampleLibc where
  valid := sampleLibc_sound.valid
  since := sampleLibc_sound.since
  inverse := sampleLibc_sound.inverse
  until_epoch := by
    intro s T _ h
    simp only [sampleLibc, Option.ite_none_right_eq_some, Option.some.injEq] at h
    rw [← h.2]
    norm_num
  digit := by
    intro d _ hd rest _
    rw [decimal_one hd]
    simp [sampleLibc]

/-- The time zero is printed with a zone, and no zone is read before 1900. -/
theorem ticks_zero_refused : sampleLibc.gmtime (0 / 10) = some ⟨70, 0, 1, 0, 0, 0⟩ ∧
    ticks2str sampleLibc 0 = Save.ascii "0001-01-01T00:00:00Z" ∧ str2ticks sampleLibc (ticks2str sampleLibc 0) = none :=
  ⟨rfl, by decide, by decide⟩

theorem ticks_return_five : str2ticks sampleLibc (ticks2str sampleLibc 5) = some 5 ↔
    (5 : ℤ) ≠ 0 ∧ (epoch < 5 → (70 : ℤ) + 1900 < 2 ^ 31) :=
  ticks_return_iff sampleLibc sampleLibc_calendar 5 (by norm_num) ⟨70, 0, 1, 0, 0, 0⟩ rfl

end Mand.Load
