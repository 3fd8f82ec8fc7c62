import Mand.Load.Chars
import Mand.Rpc.Value

/-! # Escaped strings

What `string_unescape` makes of a text that `string_escape` wrote. -/
namespace Mand.Load
open Mand.Store Mand.Save Mand.Server Mand.Rpc
set_option autoImplicit false

/-- A character that is there again: no backslash, and not negative as a `char`. -/
def Kept (c : ℕ) : Prop := c ≠ 92 ∧ c < 128

/-- The string that is read back. -/
def readBack (s : List ℕ) : List ℕ := cstr (unescapeLoop (stringEscape s) 0 0)

/-! ## One character -/

theorem octal3_ascii : ∀ c < 128, octal3 c = [48 + c / 64, 48 + c / 8 % 8, 48 + c % 8] := by decide

theorem octal3_signed : ∀ c < 256, 128 ≤ c → (octal3 (charArg c)).take 3 = [51, 55, 55] ∧
    ((octal3 (charArg c)).drop 3).length = 8 := by decide +kernel

theorem unescapeLoop_octal {c : ℕ} (hc : c < 128) (rest : List ℕ) :
    unescapeLoop (92 :: (octal3 c ++ rest)) 0 0 = c :: unescapeLoop rest 0 0 := by
  have hoct : ∀ d < 8, isOctal (48 + d) = true := by decide
  have hval : ((0 * 8 + (48 + c / 64 - 48)) % 256 * 8 + (48 + c / 8 % 8 - 48)) % 256 * 8 + (48 + c % 8 - 48) = c := by omega
  rw [unescapeLoop_backslash, octal3_ascii c hc]
  simp only [List.cons_append, List.nil_append, unescapeLoop, hoct (c / 64) (by omega), hoct (c / 8 % 8) (by omega),
    hoct (c % 8) (by omega), if_true, if_false, hval, Nat.reduceEqDiff, one_ne_zero,
    Nat.mod_eq_of_lt (by omega : c < 256)]
  rw [unescapeLoop_any rest c 0]

theorem stringEscape_cons (c : ℕ) (t : List ℕ) : stringEscape (c :: t) =
    (if unprintable c = true ∨ c = 60 ∨ c = 38 ∨ c = 62 then 92 :: octal3 (charArg c) else [c]) ++ stringEscape t :=
  List.flatMap_cons

theorem stringEscape_backslash (t : List ℕ) : stringEscape (92 :: t) = 92 :: stringEscape t := by
  rw [stringEscape_cons]
  rfl

theorem unescapeLoop_kept {c : ℕ} (hc : Kept c) (t : List ℕ) :
    unescapeLoop (stringEscape (c :: t)) 0 0 = c :: unescapeLoop (stringEscape t) 0 0 := by
  rw [stringEscape_cons]
  split_ifs with hesc
  · rw [charArg, if_pos hc.2]
    exact unescapeLoop_octal hc.2 _
  · exact unescapeLoop_plain hc.1 _ 0

theorem readBack_kept {c : ℕ} (hc : Kept c) (h0 : c ≠ 0) (t : List ℕ) : readBack (c :: t) = c :: readBack t := by
  rw [readBack, unescapeLoop_kept hc, cstr, List.takeWhile_cons_of_pos (by simpa using h0)]
  rfl

/-- Eleven digits are printed for a negative character, and three of them are read. -/
theorem readBack_negative {c : ℕ} (hlow : 128 ≤ c) (hhigh : c < 256) (t : List ℕ) :
    ∃ w, w ≠ [] ∧ (∀ d ∈ w, Kept d ∧ d ≠ 0) ∧ readBack (c :: t) = 255 :: (w ++ readBack t) := by
  obtain ⟨htake, hdrop⟩ := octal3_signed c hhigh hlow
  refine ⟨(octal3 (charArg c)).drop 3, List.ne_nil_of_length_pos (by omega), ?_, ?_⟩
  · intro d hd
    have := mem_octal3 (List.mem_of_mem_drop hd)
    exact ⟨⟨by omega, by omega⟩, by omega⟩
  · have hunp : unprintable c = true := by
      rw [unprintable, decide_eq_true_iff]
      omega
    have hdigits : octal3 (charArg c) = [51, 55, 55] ++ (octal3 (charArg c)).drop 3 := by
      rw [← htake, List.take_append_drop]
    have hnone : 92 ∉ (octal3 (charArg c)).drop 3 := by
      intro h
      have := mem_octal3 (List.mem_of_mem_drop h)
      omega
    have hnonzero : ∀ d ∈ (octal3 (charArg c)).drop 3, d ≠ 0 := by
      intro d hd
      have := mem_octal3 (List.mem_of_mem_drop hd)
      omega
    have hloop (rest : List ℕ) : unescapeLoop (92 :: ([51, 55, 55] ++ rest)) 0 0 = 255 :: unescapeLoop rest 0 0 := by
      simp [unescapeLoop, isOctal, unescapeLoop_any rest 255 0]
    rw [readBack, stringEscape_cons, if_pos (.inl hunp), hdigits, List.cons_append, List.append_assoc, hloop,
      unescapeLoop_append hnone, cstr, List.takeWhile_cons_of_pos (by simp),
      List.takeWhile_append_of_pos (by simpa using hnonzero)]
    simp [readBack, cstr]

/-! ## Escapes that the string itself seems to have -/

/-- Within an escape only a digit of the string goes on. -/
theorem unescapeLoop_inside {inC c : ℕ} (hin : inC ≠ 0) (t : List ℕ) : unescapeLoop (stringEscape t) inC c = [] ∨
    ∃ d t', t = d :: t' ∧ isOctal d = true ∧ unescapeLoop (stringEscape t) inC c =
      if inC = 3 then (c * 8 + (d - 48)) % 256 :: unescapeLoop (stringEscape t') 0 0
      else unescapeLoop (stringEscape t') (inC + 1) ((c * 8 + (d - 48)) % 256) := by
  cases t with
  | nil => exact .inl rfl
  | cons d t =>
    rw [stringEscape_cons]
    by_cases hesc : unprintable d = true ∨ d = 60 ∨ d = 38 ∨ d = 62
    · rw [if_pos hesc, List.cons_append, unescapeLoop, if_neg hin, if_neg (by decide)]
      exact .inl rfl
    · rw [if_neg hesc, List.singleton_append, unescapeLoop, if_neg hin]
      by_cases hd : isOctal d = true
      · rw [if_pos hd]
        refine .inr ⟨d, t, rfl, hd, ?_⟩
        dsimp only
        rw [unescapeLoop_any _ _ 0]
      · rw [if_neg hd]
        exact .inl rfl

theorem kept_of_octal {d : ℕ} (h : isOctal d = true) : Kept d ∧ d ≠ 0 := by
  simp only [isOctal, decide_eq_true_iff] at h
  exact ⟨⟨by omega, by omega⟩, by omega⟩

/-- A backslash is gone with what is behind it, or takes three digits for one character. -/
theorem readBack_backslash (t : List ℕ) : readBack (92 :: t) = [] ∨
    ∃ w t' b, w ≠ [] ∧ (∀ d ∈ w, Kept d ∧ d ≠ 0) ∧ t = w ++ t' ∧ readBack (92 :: t) = b :: readBack t' := by
  rw [readBack, stringEscape_backslash, unescapeLoop_backslash]
  rcases @unescapeLoop_inside 1 0 one_ne_zero t with h | ⟨d1, t1, rfl, hd1, h⟩
  · rw [h]
    exact .inl rfl
  rw [h, if_neg (by omega)]
  rcases @unescapeLoop_inside 2 ((0 * 8 + (d1 - 48)) % 256) two_ne_zero t1 with h | ⟨d2, t2, rfl, hd2, h⟩
  · rw [h]
    exact .inl rfl
  rw [h, if_neg (by omega)]
  rcases @unescapeLoop_inside 3 (((0 * 8 + (d1 - 48)) % 256 * 8 + (d2 - 48)) % 256) three_ne_zero t2 with
    h | ⟨d3, t3, rfl, hd3, h⟩
  · rw [h]
    exact .inl rfl
  rw [h, if_pos rfl]
  generalize (((0 * 8 + (d1 - 48)) % 256 * 8 + (d2 - 48)) % 256 * 8 + (d3 - 48)) % 256 = b
  by_cases hb : b = 0
  · rw [hb]
    exact .inl rfl
  · refine .inr ⟨[d1, d2, d3], t3, b, by simp, ?_, rfl, ?_⟩
    · intro d hd
      simp only [List.mem_cons, List.not_mem_nil, or_false] at hd
      rcases hd with rfl | rfl | rfl
      · exact kept_of_octal hd1
      · exact kept_of_octal hd2
      · exact kept_of_octal hd3
    · rw [cstr, List.takeWhile_cons_of_pos (by simpa using hb)]
      rfl

/-! ## What is read back -/

theorem readBack_kept_append {w : List ℕ} (hw : ∀ d ∈ w, Kept d ∧ d ≠ 0) (t : List ℕ) : readBack (w ++ t) = w ++ readBack t := by
  induction w with
  | nil => rfl
  | cons d w ih =>
    obtain ⟨hd, h0⟩ := hw d List.mem_cons_self
    rw [List.cons_append, readBack_kept hd h0, ih (fun x hx => hw x (List.mem_cons_of_mem _ hx)), List.cons_append]

/-- What is read cannot make up for characters that were added before it. -/
theorem readBack_behind {w : List ℕ} (hne : w ≠ []) (hw : ∀ d ∈ w, Kept d ∧ d ≠ 0) (t : List ℕ) : t ≠ w ++ readBack t := by
  induction hn : t.length using Nat.strong_induction_on generalizing t with
  | _ n ih =>
    intro h
    have hback := congrArg readBack h
    rw [readBack_kept_append hw] at hback
    have hlen := congrArg List.length h
    have hpos := List.length_pos_of_ne_nil hne
    rw [List.length_append] at hlen
    exact ih (readBack t).length (by omega) (readBack t) rfl hback

/-- What is read cannot be ahead of the string: each character of the string comes later than it has to. -/
theorem readBack_ahead {w : List ℕ} (hne : w ≠ []) (hw : ∀ d ∈ w, d < 128) {t : List ℕ} (ht : CText t) :
    readBack t ≠ w ++ t := by
  induction hn : t.length using Nat.strong_induction_on generalizing t w with
  | _ n ih =>
    intro h
    obtain ⟨w0, w, rfl⟩ := List.exists_cons_of_ne_nil hne
    cases t with
    | nil => cases h
    | cons c t =>
      have hc := ht c List.mem_cons_self
      have htail : CText t := fun d hd => ht d (List.mem_cons_of_mem _ hd)
      have hwtail : ∀ d ∈ w, d < 128 := fun d hd => hw d (List.mem_cons_of_mem _ hd)
      rw [List.cons_append] at h
      by_cases hkept : Kept c
      · rw [readBack_kept hkept (by omega), List.cons.injEq] at h
        refine @ih t.length (by rw [← hn]; simp) (w ++ [c]) (by simp) ?_ t htail rfl (by simpa using h.2)
        intro d hd
        rcases List.mem_append.mp hd with hd | hd
        · exact hwtail d hd
        · rw [List.mem_singleton.mp hd]
          exact hkept.2
      · by_cases hback : c = 92
        · subst hback
          rcases readBack_backslash t with h0 | ⟨v, t', b, -, hv, rfl, h0⟩
          · rw [h0] at h
            cases h
          · rw [h0, List.cons.injEq] at h
            refine @ih t'.length (by rw [← hn]; simp) (w ++ 92 :: v) (by simp) ?_ t'
              (fun d hd => htail d (List.mem_append_right _ hd)) rfl (by simpa using h.2)
            intro d hd
            rcases List.mem_append.mp hd with hd | hd
            · exact hwtail d hd
            · rcases List.mem_cons.mp hd with rfl | hd
              · omega
              · exact (hv d hd).1.2
        · have hneg : 128 ≤ c := by
            by_contra hlt
            exact hkept ⟨hback, by omega⟩
          obtain ⟨v, -, -, h0⟩ := readBack_negative hneg hc.2 t
          rw [h0, List.cons.injEq] at h
          have := hw w0 List.mem_cons_self
          omega

theorem readBack_iff {s : List ℕ} (hs : CText s) : readBack s = s ↔ ∀ c ∈ s, Kept c := by
  induction s with
  | nil => simp [readBack, stringEscape, unescapeLoop, cstr]
  | cons c t ih =>
    have hc := hs c List.mem_cons_self
    have ht : CText t := fun d hd => hs d (List.mem_cons_of_mem _ hd)
    by_cases hkept : Kept c
    · rw [readBack_kept hkept (by omega), List.cons.injEq, ih ht, List.forall_mem_cons]
      simp [hkept]
    · have hno : readBack (c :: t) ≠ c :: t := by
        intro h
        by_cases hback : c = 92
        · subst hback
          rcases readBack_backslash t with h0 | ⟨w, t', b, hne, hw, rfl, h0⟩
          · rw [h0] at h
            cases h
          · rw [h0, List.cons.injEq] at h
            exact readBack_ahead hne (fun d hd => (hw d hd).1.2) (fun d hd => ht d (List.mem_append_right _ hd)) h.2
        · have hneg : 128 ≤ c := by
            by_contra hlt
            exact hkept ⟨hback, by omega⟩
          obtain ⟨w, hne, hw, h0⟩ := readBack_negative hneg hc.2 t
          rw [h0, List.cons.injEq] at h
          exact readBack_behind hne hw t h.2.symm
      exact ⟨fun h => absurd h hno, fun h => absurd (h c List.mem_cons_self) hkept⟩

/-! ## The element of a string -/

theorem stringBody_escaped {s : List ℕ} (h : (stringBody s).1 = true) : (stringBody s).2 = .text (stringEscape s) := by
  unfold stringBody at h ⊢
  cases hr : validateCdata s 0 0 with
  | none => rfl
  | some r =>
    rw [hr] at h
    cases r with
    | zero => cases h
    | succ r =>
      by_cases h2 : (r + 1) &&& 2 = 2
      · simp only [if_pos h2]
      · simp only [if_neg h2, Bool.false_eq_true] at h

variable (S : Schema) (P : Texts) (e : DmElement)

/-- A string that is written escaped is read back if and only if it has neither a backslash nor a byte above 127. -/
theorem escaped_returns_iff (he : e.type = .str) (v : DmValue) (s : List ℕ) (hv : v.content = .scalar (.str (some s)))
    (hs : CText s) (x : Element) (hx : serializeElement S P e v = some x) (hesc : x.escaped = true) :
    ∃ text, x.body = .text text ∧ (stringUnescape [] text = s ↔ ∀ c ∈ s, c ≠ 92 ∧ c < 128) := by
  have hx' : (x.escaped, x.body) = elementBody S P e (leafValue (some v.content)) := by
    have hhandled : handled e.type = true := by
      rw [he]
      rfl
    unfold serializeElement at hx
    simp only [if_pos hhandled, Option.some.injEq] at hx
    rw [← hx]
  have hbody : elementBody S P e (leafValue (some v.content)) = if s = [] then (false, .empty) else stringBody s := by
    unfold elementBody
    rw [he, hv]
    cases s <;> rfl
  rw [hbody, hesc] at hx'
  split_ifs at hx' with hnil
  · cases hx'
  · refine ⟨stringEscape s, ?_, readBack_iff hs⟩
    have hfst : (stringBody s).1 = true := by rw [← hx']
    rw [← stringBody_escaped hfst, ← hx']

/-- The two bytes of an umlaut come back as eighteen. -/
theorem umlaut_lost : ∃ x text, serializeElement sampleSchema ⟨decimalInt, id, id⟩ (sampleLeaf .str)
    ⟨.scalar (.str (some [195, 188])), 0, Flags.zero, true⟩ = some x ∧ x.escaped = true ∧ x.body = .text text ∧
    stringUnescape [] text ≠ [195, 188] :=
  ⟨_, _, rfl, rfl, rfl, by decide +kernel⟩

theorem escaped_returns_line : ∃ text, Body.text (ascii "a\\012") = .text text ∧
    (stringUnescape [] text = [97, 10] ↔ ∀ c ∈ [97, 10], c ≠ 92 ∧ c < 128) :=
  escaped_returns_iff sampleSchema ⟨decimalInt, id, id⟩ (sampleLeaf .str) rfl
    ⟨.scalar (.str (some [97, 10])), 0, Flags.zero, true⟩ [97, 10] rfl (by simp [CText])
    ⟨[97], none, true, .text (ascii "a\\012")⟩ (by decide +kernel) rfl

end Mand.Load
