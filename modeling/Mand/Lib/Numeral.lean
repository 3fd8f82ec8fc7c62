import Mand.Lib.Scan

/-! # Numerals

The texts that are an integer and nothing else, and what the conversions of the C library make of a whole text. -/
namespace Mand.Scan
open Mand.Decimal
set_option autoImplicit false

/-- Space, a sign and digits, with their number. -/
def Numeral (s : List ℕ) (n : ℤ) : Prop :=
  ∃ space sign ds, s = space ++ (sign ++ ds) ∧ (∀ c ∈ space, isspace c = true) ∧
    (sign = [] ∨ sign = [43] ∨ sign = [45]) ∧ ds ≠ [] ∧ (∀ c ∈ ds, digit c = true) ∧
    n = if sign = [45] then -(undecimal ds : ℤ) else undecimal ds

theorem readNat_whole (s : List ℕ) (k : ℕ) :
    readNat s = some (k, []) ↔ s ≠ [] ∧ (∀ c ∈ s, digit c = true) ∧ k = undecimal s := by
  constructor
  · intro h
    unfold readNat at h
    split_ifs at h with h0
    rw [Option.some.injEq, Prod.mk.injEq] at h
    have hs : s.takeWhile digit = s := by
      have happ := List.takeWhile_append_dropWhile (p := digit) (l := s)
      rwa [h.2, List.append_nil] at happ
    rw [hs] at h h0
    exact ⟨h0, List.takeWhile_eq_self_iff.mp hs, h.1.symm⟩
  · rintro ⟨hne, hds, rfl⟩
    have h := readNat_append hds hne stops_nil
    rwa [List.append_nil] at h

/-- The part of `readInt` behind the space. -/
def readSigned (t : List ℕ) : Option (ℤ × List ℕ) :=
  match t with
  | 45 :: t => (readNat t).map fun r => (-(r.1 : ℤ), r.2)
  | 43 :: t => (readNat t).map fun r => ((r.1 : ℤ), r.2)
  | t => (readNat t).map fun r => ((r.1 : ℤ), r.2)

theorem readInt_eq (s : List ℕ) : readInt s = readSigned (s.dropWhile isspace) := rfl

theorem readSigned_whole (t : List ℕ) (n : ℤ) : readSigned t = some (n, []) ↔
    ∃ sign ds, t = sign ++ ds ∧ (sign = [] ∨ sign = [43] ∨ sign = [45]) ∧ ds ≠ [] ∧ (∀ c ∈ ds, digit c = true) ∧
      n = if sign = [45] then -(undecimal ds : ℤ) else undecimal ds := by
  have hmap (ds : List ℕ) (f : ℕ → ℤ) : (readNat ds).map (fun r => (f r.1, r.2)) = some (n, []) ↔
      ds ≠ [] ∧ (∀ c ∈ ds, digit c = true) ∧ n = f (undecimal ds) := by
    rw [Option.map_eq_some_iff]
    constructor
    · rintro ⟨⟨k, rest⟩, hr, heq⟩
      rw [Prod.mk.injEq] at heq
      obtain ⟨rfl, rfl⟩ := heq
      obtain ⟨hne, hds, hk⟩ := (readNat_whole ds k).mp hr
      exact ⟨hne, hds, by rw [hk]⟩
    · rintro ⟨hne, hds, rfl⟩
      exact ⟨(undecimal ds, []), (readNat_whole ds _).mpr ⟨hne, hds, rfl⟩, rfl⟩
  constructor
  · intro h
    unfold readSigned at h
    split at h
    · rename_i ds
      obtain ⟨hne, hds, hn⟩ := (hmap ds fun k => -(k : ℤ)).mp h
      exact ⟨[45], ds, rfl, .inr (.inr rfl), hne, hds, hn⟩
    · rename_i ds
      obtain ⟨hne, hds, hn⟩ := (hmap ds fun k => (k : ℤ)).mp h
      exact ⟨[43], ds, rfl, .inr (.inl rfl), hne, hds, hn⟩
    · obtain ⟨hne, hds, hn⟩ := (hmap t fun k => (k : ℤ)).mp h
      exact ⟨[], t, rfl, .inl rfl, hne, hds, hn⟩
  · rintro ⟨sign, ds, rfl, hsign, hne, hds, hn⟩
    rcases hsign with rfl | rfl | rfl
    · obtain ⟨c, ds, rfl⟩ := List.exists_cons_of_ne_nil hne
      have hc : digit c = true := hds c List.mem_cons_self
      rw [List.nil_append]
      unfold readSigned
      split
      · rename_i heq
        cases heq
        exact absurd hc (by decide)
      · rename_i heq
        cases heq
        exact absurd hc (by decide)
      · exact (hmap _ fun k => (k : ℤ)).mpr ⟨hne, hds, hn⟩
    · exact (hmap ds fun k => (k : ℤ)).mpr ⟨hne, hds, hn⟩
    · exact (hmap ds fun k => -(k : ℤ)).mpr ⟨hne, hds, hn⟩

/-- A sign or a digit is not skipped. -/
theorem dropWhile_space {sign ds : List ℕ} (hsign : sign = [] ∨ sign = [43] ∨ sign = [45]) (hne : ds ≠ [])
    (hds : ∀ c ∈ ds, digit c = true) : (sign ++ ds).dropWhile isspace = sign ++ ds := by
  rcases hsign with rfl | rfl | rfl
  · obtain ⟨c, ds, rfl⟩ := List.exists_cons_of_ne_nil hne
    have hc := hds c List.mem_cons_self
    refine List.dropWhile_cons_of_neg ?_
    simp only [digit, decide_eq_true_iff] at hc
    simp only [isspace, decide_eq_true_iff]
    omega
  · rfl
  · rfl

theorem readInt_whole (s : List ℕ) (n : ℤ) : readInt s = some (n, []) ↔ Numeral s n := by
  rw [readInt_eq, readSigned_whole]
  constructor
  · rintro ⟨sign, ds, ht, hsign, hne, hds, hn⟩
    refine ⟨s.takeWhile isspace, sign, ds, ?_, fun c hc => List.mem_takeWhile_imp hc, hsign, hne, hds, hn⟩
    rw [← ht, List.takeWhile_append_dropWhile]
  · rintro ⟨space, sign, ds, rfl, hspace, hsign, hne, hds, hn⟩
    refine ⟨sign, ds, ?_, hsign, hne, hds, hn⟩
    rw [List.dropWhile_append_of_pos hspace, dropWhile_space hsign hne hds]

/-- A text is one numeral at most. -/
theorem Numeral.unique {s : List ℕ} {n m : ℤ} (hn : Numeral s n) (hm : Numeral s m) : n = m := by
  rw [← readInt_whole] at hn hm
  rw [hn] at hm
  cases hm
  rfl

theorem not_numeral_nil (n : ℤ) : ¬Numeral [] n := by
  rw [← readInt_whole]
  intro h
  cases h

/-! ## The whole text -/

/-- No number is left over only of a numeral or of the empty text. -/
theorem strtol_whole (s : List ℕ) : (strtol s).2 = [] ↔ s = [] ∨ ∃ n, Numeral s n := by
  simp only [← readInt_whole, strtol]
  cases h : readInt s with
  | none => simp
  | some r =>
    have hs : s ≠ [] := by
      rintro rfl
      cases h
    obtain ⟨n, rest⟩ := r
    simp [hs]

theorem strtoul_whole (s : List ℕ) : (strtoul s).2 = [] ↔ s = [] ∨ ∃ n, Numeral s n := by
  simp only [← readInt_whole, strtoul]
  cases h : readInt s with
  | none => simp
  | some r =>
    have hs : s ≠ [] := by
      rintro rfl
      cases h
    obtain ⟨n, rest⟩ := r
    simp [hs]

theorem strtol_numeral {s : List ℕ} {n : ℤ} (h : Numeral s n) : strtol s = (max (-2 ^ 63) (min n (2 ^ 63 - 1)), []) := by
  rw [← readInt_whole] at h
  rw [strtol, h]

theorem strtoul_numeral {s : List ℕ} {n : ℤ} (h : Numeral s n) :
    strtoul s = (if 2 ^ 64 ≤ n.natAbs then 2 ^ 64 - 1 else (n % 2 ^ 64).toNat, []) := by
  rw [← readInt_whole] at h
  rw [strtoul, h]

end Mand.Scan
