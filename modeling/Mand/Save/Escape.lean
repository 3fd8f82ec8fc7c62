import Mand.Save.Serialize
import Mathlib.Data.Nat.Bitwise

/-! # The text of a string

What stands between the tags of a string leaf: the string as it is, a CDATA section or the escaped string. -/
namespace Mand.Save
open Mand.Store Mand.Server
set_option autoImplicit false

/-- `<`, `&` and `>`. -/
def isMarkup (c : ℕ) : Bool := c = 60 ∨ c = 38 ∨ c = 62

/-- A printable character of ASCII that is not markup. -/
def Plain (c : ℕ) : Prop := 32 ≤ c ∧ c ≤ 126 ∧ isMarkup c = false

/-- `]]>` stands in the text. -/
def Closes (s : List ℕ) : Prop := [93, 93, 62] <:+: s

/-- Content that an XML parser reads as one run of characters. -/
def Body.CharData : Body → Prop
  | .empty => True
  | .text s => ∀ c ∈ s, Plain c
  | .cdata s => (∀ c ∈ s, 32 ≤ c ∧ c ≤ 126) ∧ ¬Closes s
  | .lines _ => False

/-! ## What the validator finds -/

theorem unprintable_eq_false {c : ℕ} : unprintable c = false ↔ 32 ≤ c ∧ c ≤ 122 := by
  simp only [unprintable, decide_eq_false_iff_not]
  omega

theorem or_one_bits (n : ℕ) : (n ||| 1).testBit 0 = true ∧ (n ||| 1).testBit 1 = n.testBit 1 := by
  have h : Nat.testBit 1 0 = true ∧ Nat.testBit 1 1 = false := by decide
  rw [Nat.testBit_or, Nat.testBit_or, h.1, h.2]
  simp

theorem or_two_bits (n : ℕ) : (n ||| 2).testBit 0 = n.testBit 0 ∧ (n ||| 2).testBit 1 = true := by
  have h : Nat.testBit 2 0 = false ∧ Nat.testBit 2 1 = true := by decide
  rw [Nat.testBit_or, Nat.testBit_or, h.1, h.2]
  simp

/-- What one character adds to the bits. -/
theorem validateCdata_cons {c : ℕ} {s : List ℕ} {r cend r' : ℕ} (h : validateCdata (c :: s) r cend = some r') :
    ∃ r1 k, validateCdata s r1 k = some r' ∧ r1.testBit 0 = (r.testBit 0 || isMarkup c) ∧
      r1.testBit 1 = (r.testBit 1 || unprintable c) := by
  have hr : ∃ r0 : ℕ, (if unprintable c = true then r ||| 2 else r) = r0 ∧ r0.testBit 0 = r.testBit 0 ∧
      r0.testBit 1 = (r.testBit 1 || unprintable c) := by
    refine ⟨_, rfl, ?_⟩
    split_ifs with hc
    · rw [(or_two_bits r).1, (or_two_bits r).2, hc]
      simp
    · simp [hc]
  obtain ⟨r0, hr0, h0, h1⟩ := hr
  unfold validateCdata at h
  simp only [hr0] at h
  have hone : ((r0 ||| 1).testBit 0 = true) ∧ (r0 ||| 1).testBit 1 = (r.testBit 1 || unprintable c) :=
    ⟨(or_one_bits r0).1, (or_one_bits r0).2.trans h1⟩
  split_ifs at h with hlt hbr hgt hend
  · have hm : isMarkup c = true := by
      rw [isMarkup, decide_eq_true_iff]
      omega
    exact ⟨_, _, h, by rw [hone.1, hm, Bool.or_true], hone.2⟩
  · have hm : isMarkup c = false := by
      rw [isMarkup, decide_eq_false_iff_not]
      omega
    exact ⟨_, _, h, by rw [h0, hm, Bool.or_false], h1⟩
  · have hm : isMarkup c = true := by
      rw [isMarkup, decide_eq_true_iff]
      omega
    exact ⟨_, _, h, by rw [hone.1, hm, Bool.or_true], hone.2⟩
  · have hm : isMarkup c = false := by
      rw [isMarkup, decide_eq_false_iff_not]
      omega
    exact ⟨_, _, h, by rw [h0, hm, Bool.or_false], h1⟩

/-- Bit 0 tells of markup, bit 1 of what cannot be printed. -/
theorem validateCdata_bits (s : List ℕ) (r cend r' : ℕ) (h : validateCdata s r cend = some r') :
    r'.testBit 0 = (r.testBit 0 || s.any isMarkup) ∧ r'.testBit 1 = (r.testBit 1 || s.any unprintable) := by
  induction s generalizing r cend with
  | nil =>
    cases h
    simp
  | cons c s ih =>
    obtain ⟨r1, k, h, h0, h1⟩ := validateCdata_cons h
    obtain ⟨ih0, ih1⟩ := ih r1 k h
    rw [ih0, ih1, h0, h1, List.any_cons, List.any_cons, Bool.or_assoc, Bool.or_assoc]
    exact ⟨rfl, rfl⟩

/-- The counter is at two behind two brackets, whatever it was before them. -/
theorem validateCdata_close (q : List ℕ) (r cend : ℕ) : validateCdata ([93, 93, 62] ++ q) r cend = none := by
  simp [validateCdata]

theorem validateCdata_append {t : List ℕ} (ht : ∀ r cend, validateCdata t r cend = none) (p : List ℕ) (r cend : ℕ) :
    validateCdata (p ++ t) r cend = none := by
  induction p generalizing r cend with
  | nil => exact ht r cend
  | cons c p ih =>
    by_contra hne
    obtain ⟨r', h⟩ := Option.ne_none_iff_exists'.mp hne
    rw [List.cons_append] at h
    obtain ⟨r1, k, h, -⟩ := validateCdata_cons h
    rw [ih] at h
    cases h

theorem validateCdata_open {s : List ℕ} {r cend r' : ℕ} (h : validateCdata s r cend = some r') : ¬Closes s := by
  intro ⟨p, q, hs⟩
  rw [← hs, List.append_assoc, validateCdata_append (validateCdata_close q)] at h
  cases h

/-! ## Escapes -/

theorem mem_octal3 {n c : ℕ} (h : c ∈ octal3 n) : 48 ≤ c ∧ c ≤ 55 := by
  rcases List.mem_append.mp h with h | h
  · have := List.eq_of_mem_replicate h
    omega
  · obtain ⟨d, hd, rfl⟩ := List.mem_map.mp h
    have := Nat.digits_lt_base (by omega : 1 < 8) (List.mem_reverse.mp hd)
    omega

theorem plain_of_unprintable {c : ℕ} (hc : unprintable c = false) (hm : isMarkup c = false) : Plain c := by
  obtain ⟨hlow, hhigh⟩ := unprintable_eq_false.mp hc
  exact ⟨hlow, by omega, hm⟩

theorem plain_stringEscape {s : List ℕ} {c : ℕ} (h : c ∈ stringEscape s) : Plain c := by
  obtain ⟨b, -, hc⟩ := List.mem_flatMap.mp h
  split_ifs at hc with hb
  · rcases List.mem_cons.mp hc with rfl | hc
    · exact ⟨by omega, by omega, rfl⟩
    · have hd := mem_octal3 hc
      refine ⟨by omega, by omega, ?_⟩
      rw [isMarkup, decide_eq_false_iff_not]
      omega
  · rw [List.mem_singleton.mp hc]
    refine plain_of_unprintable (by simpa using fun h => hb (.inl h)) ?_
    rw [isMarkup, decide_eq_false_iff_not]
    exact fun h => hb (.inr h)

/-! ## The four forms -/

theorem stringBody_charData (s : List ℕ) : (stringBody s).2.CharData := by
  unfold stringBody
  split
  · rename_i hr
    obtain ⟨h0, h1⟩ := validateCdata_bits s 0 0 0 hr
    simp only [Nat.zero_testBit, Bool.false_or] at h0 h1
    intro c hc
    exact plain_of_unprintable (by simpa using List.any_eq_false.mp h1.symm c hc)
      (by simpa using List.any_eq_false.mp h0.symm c hc)
  · rename_i r _ hr
    obtain ⟨-, h1⟩ := validateCdata_bits s 0 0 r hr
    simp only [Nat.zero_testBit, Bool.false_or] at h1
    by_cases h2 : r &&& 2 = 2
    · rw [if_pos h2]
      exact fun c hc => plain_stringEscape hc
    · rw [if_neg h2]
      refine ⟨?_, validateCdata_open hr⟩
      intro c hc
      have hbit : r.testBit 1 = false := by
        have hand := Nat.and_two_pow r 1
        cases hb : r.testBit 1 with
        | false => rfl
        | true =>
          rw [hb] at hand
          exact absurd hand h2
      rw [hbit] at h1
      have := unprintable_eq_false.mp (by simpa using List.any_eq_false.mp h1.symm c hc)
      omega
  · exact fun c hc => plain_stringEscape hc

/-- The content of the element of a string leaf. -/
theorem string_content_wellFormed (S : Schema) (P : Texts) (e : DmElement) (he : e.type = .str) (v : DmValue)
    (s : Option (List ℕ)) (hv : v.content = .scalar (.str s)) :
    ∃ x, serializeElement S P e v = some x ∧ x.body.CharData := by
  have hhandled : handled e.type = true := by
    rw [he]
    rfl
  unfold serializeElement
  simp only [if_pos hhandled]
  refine ⟨_, rfl, ?_⟩
  show (elementBody S P e (leafValue (some v.content))).2.CharData
  unfold elementBody
  rw [he, hv]
  cases s with
  | none => trivial
  | some s =>
    cases s with
    | nil => trivial
    | cons c s => exact stringBody_charData (c :: s)

/-- Brackets before the end of a section. -/
theorem string_content_wellFormed_brackets : ∃ x, serializeElement sampleSchema ⟨decimalInt, id, id⟩ (sampleLeaf .str)
    ⟨.scalar (.str (some [93, 93, 93, 62])), 0, Flags.zero, true⟩ = some x ∧ x.body.CharData :=
  string_content_wellFormed sampleSchema ⟨decimalInt, id, id⟩ (sampleLeaf .str) rfl
    ⟨.scalar (.str (some [93, 93, 93, 62])), 0, Flags.zero, true⟩ (some [93, 93, 93, 62]) rfl

example : stringBody [93, 93, 62] = (true, .text (ascii "]]" ++ 92 :: ascii "076")) := by decide

end Mand.Save
