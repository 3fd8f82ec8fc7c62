import Mand.Save.Escape
import Mathlib.Data.List.TakeWhile

/-! # Character data

`string_unescape` and `charElement` of `dm_deserialize.c`: the text of an element, from the pieces in which the parser
delivers it. Bytes are numbers; a buffer is its contents up to the first zero. -/
namespace Mand.Load
set_option autoImplicit false

def isOctal (b : ℕ) : Bool := 48 ≤ b ∧ b ≤ 55

/-- The loop of `string_unescape`, with `in_c` and `c`: what it writes. An escape that is broken off or not
complete leaves nothing. -/
def unescapeLoop : List ℕ → ℕ → ℕ → List ℕ
  | [], _, _ => []
  | b :: s, inC, c =>
    if inC = 0 then
      if b = 92 then unescapeLoop s 1 0 else b :: unescapeLoop s 0 c
    else if isOctal b = true then
      let c := (c * 8 + (b - 48)) % 256
      if inC = 3 then c :: unescapeLoop s 0 c else unescapeLoop s (inC + 1) c
    else []

/-- The string that a buffer holds. -/
def cstr (s : List ℕ) : List ℕ := s.takeWhile (· ≠ 0)

/-- `string_unescape`: it writes behind the text in the buffer. -/
def stringUnescape (text s : List ℕ) : List ℕ := cstr (text ++ unescapeLoop s 0 0)

/-- `charElement`, with `XML_ESCAPED` and the text of the state. -/
def charElement (escaped : Bool) (text : Option (List ℕ)) (s : List ℕ) : Option (List ℕ) :=
  some (if escaped = true then stringUnescape (text.getD []) s else text.getD [] ++ cstr s)

/-- The text after some pieces. -/
def assembled (escaped : Bool) (chunks : List (List ℕ)) : Option (List ℕ) := chunks.foldl (charElement escaped) none

/-! ## The loop -/

theorem unescapeLoop_open (b : ℕ) (s : List ℕ) (c : ℕ) :
    unescapeLoop (b :: s) 0 c = if b = 92 then unescapeLoop s 1 0 else b :: unescapeLoop s 0 c := rfl

theorem unescapeLoop_escape {inC : ℕ} (h : inC ≠ 0) (b : ℕ) (s : List ℕ) (c : ℕ) : unescapeLoop (b :: s) inC c =
    if isOctal b = true then
      if inC = 3 then (c * 8 + (b - 48)) % 256 :: unescapeLoop s 0 ((c * 8 + (b - 48)) % 256)
      else unescapeLoop s (inC + 1) ((c * 8 + (b - 48)) % 256)
    else [] := if_neg h

theorem unescapeLoop_any (s : List ℕ) (c c' : ℕ) : unescapeLoop s 0 c = unescapeLoop s 0 c' := by
  induction s with
  | nil => rfl
  | cons b s ih => rw [unescapeLoop_open, unescapeLoop_open, ih]

theorem unescapeLoop_plain {b : ℕ} (hb : b ≠ 92) (s : List ℕ) (c : ℕ) :
    unescapeLoop (b :: s) 0 c = b :: unescapeLoop s 0 0 := by
  rw [unescapeLoop_open, if_neg hb, unescapeLoop_any s c 0]

theorem unescapeLoop_backslash (s : List ℕ) (c : ℕ) : unescapeLoop (92 :: s) 0 c = unescapeLoop s 1 0 := by
  rw [unescapeLoop_open, if_pos rfl]

/-- A text without an escape is itself. -/
theorem unescapeLoop_append {u : List ℕ} (hu : 92 ∉ u) (s : List ℕ) : unescapeLoop (u ++ s) 0 0 = u ++ unescapeLoop s 0 0 := by
  induction u with
  | nil => rfl
  | cons b u ih =>
    have hb : b ≠ 92 := fun h => hu (h ▸ List.mem_cons_self)
    rw [List.cons_append, unescapeLoop_plain hb, ih (fun h => hu (List.mem_cons_of_mem _ h)), List.cons_append]

/-- What is not a backslash. -/
def bare (s : List ℕ) : List ℕ := s.filter (· ≠ 92)

theorem bare_cons {b : ℕ} (hb : b ≠ 92) (s : List ℕ) : bare (b :: s) = b :: bare s := List.filter_cons_of_pos (by simpa using hb)

theorem bare_backslash (s : List ℕ) : bare (92 :: s) = bare s := List.filter_cons_of_neg (by simp)

theorem ne_backslash {b : ℕ} (h : isOctal b = true) : b ≠ 92 := by
  simp only [isOctal, decide_eq_true_iff] at h
  omega

/-- No more is written than there is without the backslashes. -/
theorem length_unescapeLoop_le (s : List ℕ) (inC c : ℕ) : (unescapeLoop s inC c).length ≤ (bare s).length := by
  induction s generalizing inC c with
  | nil => exact Nat.zero_le _
  | cons b s ih =>
    by_cases h0 : inC = 0
    · rw [h0, unescapeLoop_open]
      by_cases hb : b = 92
      · rw [if_pos hb, hb, bare_backslash]
        exact ih 1 0
      · rw [if_neg hb, bare_cons hb]
        simpa using ih 0 c
    · rw [unescapeLoop_escape h0]
      by_cases hoct : isOctal b = true
      · rw [if_pos hoct, bare_cons (ne_backslash hoct), List.length_cons]
        split_ifs
        · simpa using ih 0 _
        · exact (ih _ _).trans (Nat.le_succ _)
      · rw [if_neg hoct]
        exact Nat.zero_le _

/-- An escape that has begun takes more than it gives. -/
theorem length_unescapeLoop_lt {s : List ℕ} (hs : bare s ≠ []) (c : ℕ) : (unescapeLoop s 1 c).length < (bare s).length := by
  cases s with
  | nil => exact absurd rfl hs
  | cons b s =>
    rw [unescapeLoop_escape one_ne_zero]
    by_cases hoct : isOctal b = true
    · rw [if_pos hoct, bare_cons (ne_backslash hoct), List.length_cons]
      exact Nat.lt_succ_of_le (length_unescapeLoop_le s 2 _)
    · rw [if_neg hoct]
      exact List.length_pos_of_ne_nil hs

/-! ## Pieces -/

/-- Nothing but backslashes is behind the first one. -/
def NoEscape : List ℕ → Prop
  | [] => True
  | b :: s => if b = 92 then ∀ d ∈ s, d = 92 else NoEscape s

theorem noEscape_cons (b : ℕ) (s : List ℕ) : NoEscape (b :: s) = if b = 92 then ∀ d ∈ s, d = 92 else NoEscape s := rfl

theorem noEscape_of_all {s : List ℕ} (h : ∀ d ∈ s, d = 92) : NoEscape s := by
  cases s with
  | nil => trivial
  | cons b s =>
    rw [noEscape_cons, if_pos (h b List.mem_cons_self)]
    exact fun d hd => h d (List.mem_cons_of_mem _ hd)

theorem NoEscape.append {p q : List ℕ} (h : NoEscape (p ++ q)) : NoEscape p ∧ NoEscape q := by
  induction p with
  | nil => exact ⟨trivial, h⟩
  | cons b p ih =>
    rw [List.cons_append, noEscape_cons] at h
    rw [noEscape_cons]
    by_cases hb : b = 92
    · rw [if_pos hb] at h ⊢
      exact ⟨fun d hd => h d (List.mem_append_left _ hd), noEscape_of_all fun d hd => h d (List.mem_append_right _ hd)⟩
    · rw [if_neg hb] at h ⊢
      exact ih h

theorem unescapeLoop_noEscape {s : List ℕ} (h : NoEscape s) : unescapeLoop s 0 0 = bare s := by
  induction s with
  | nil => rfl
  | cons b s ih =>
    rw [noEscape_cons] at h
    by_cases hb : b = 92
    · rw [if_pos hb] at h
      have hbare : bare s = [] := List.filter_eq_nil_iff.mpr fun d hd => by simpa using h d hd
      have hlen := length_unescapeLoop_le s 1 0
      rw [hbare, List.length_nil, Nat.le_zero, List.length_eq_zero_iff] at hlen
      rw [hb, unescapeLoop_backslash, bare_backslash, hbare, hlen]
    · rw [if_neg hb] at h
      rw [unescapeLoop_plain hb, bare_cons hb, ih h]

/-- An escape makes the text shorter than its characters one by one. -/
theorem length_unescape_lt {s : List ℕ} (h : ¬NoEscape s) : (unescapeLoop s 0 0).length < (bare s).length := by
  induction s with
  | nil => exact absurd trivial h
  | cons b s ih =>
    rw [noEscape_cons] at h
    by_cases hb : b = 92
    · rw [if_pos hb] at h
      rw [hb, unescapeLoop_backslash, bare_backslash]
      refine length_unescapeLoop_lt ?_ 0
      intro hbare
      exact h fun d hd => by simpa using List.filter_eq_nil_iff.mp hbare d hd
    · rw [if_neg hb] at h
      rw [unescapeLoop_plain hb, bare_cons hb, List.length_cons, List.length_cons]
      exact Nat.succ_lt_succ (ih h)

theorem cstr_of_nonzero {s : List ℕ} (h : ∀ c ∈ s, c ≠ 0) : cstr s = s := by
  unfold cstr
  rw [List.takeWhile_eq_self_iff]
  simpa using h

theorem length_cstr_le (s : List ℕ) : (cstr s).length ≤ s.length := (List.takeWhile_prefix _).length_le

theorem bare_nonzero {s : List ℕ} (h : ∀ c ∈ s, c ≠ 0) : ∀ c ∈ bare s, c ≠ 0 := fun c hc => h c (List.mem_of_mem_filter hc)

/-- Pieces that each put `f` of themselves behind the text. -/
theorem assembled_pieces {escaped : Bool} {f : List ℕ → List ℕ} {chunks : List (List ℕ)} (hne : chunks ≠ [])
    (hf : ∀ p ∈ chunks, ∀ c ∈ f p, c ≠ 0)
    (h : ∀ p ∈ chunks, ∀ t, (∀ c ∈ t, c ≠ 0) → charElement escaped (some t) p = some (t ++ f p)) :
    assembled escaped chunks = some (chunks.map f).flatten := by
  have hrun (t : List ℕ) (ht : ∀ c ∈ t, c ≠ 0) :
      chunks.foldl (charElement escaped) (some t) = some (t ++ (chunks.map f).flatten) := by
    clear hne
    induction chunks generalizing t with
    | nil => simp
    | cons p chunks ih =>
      have hp : ∀ c ∈ t ++ f p, c ≠ 0 := fun c hc =>
        (List.mem_append.mp hc).elim (ht c) (hf p List.mem_cons_self c)
      rw [List.foldl_cons, h p List.mem_cons_self t ht,
        ih (fun q hq => hf q (List.mem_cons_of_mem _ hq)) (fun q hq => h q (List.mem_cons_of_mem _ hq)) _ hp,
        List.map_cons, List.flatten_cons, List.append_assoc]
  have h0 := hrun [] (fun c hc => absurd hc List.not_mem_nil)
  rw [List.nil_append] at h0
  rw [assembled, ← h0]
  obtain ⟨p, rest, rfl⟩ := List.exists_cons_of_ne_nil hne
  rfl

theorem charElement_plain {p : List ℕ} (hp : ∀ c ∈ p, c ≠ 0) (t : List ℕ) : charElement false (some t) p = some (t ++ p) := by
  simp only [charElement, Bool.false_eq_true, if_false, Option.getD_some, cstr_of_nonzero hp]

theorem charElement_noEscape {p : List ℕ} (hp : ∀ c ∈ p, c ≠ 0) (hq : NoEscape p) (t : List ℕ) (ht : ∀ c ∈ t, c ≠ 0) :
    charElement true (some t) p = some (t ++ bare p) := by
  have hall : ∀ c ∈ t ++ bare p, c ≠ 0 := fun c hc => (List.mem_append.mp hc).elim (ht c) (bare_nonzero hp c)
  simp only [charElement, if_true, Option.getD_some, stringUnescape, unescapeLoop_noEscape hq, cstr_of_nonzero hall]

/-- Pieces without escapes in them. -/
theorem assembled_noEscape {chunks : List (List ℕ)} (hne : chunks ≠ []) (hzero : ∀ c ∈ chunks.flatten, c ≠ 0)
    (hq : ∀ p ∈ chunks, NoEscape p) : assembled true chunks = some (bare chunks.flatten) := by
  have hpiece : ∀ p ∈ chunks, ∀ c ∈ p, c ≠ 0 := fun p hp c hc => hzero c (List.mem_flatten_of_mem hp hc)
  rw [assembled_pieces hne (fun p hp => bare_nonzero (hpiece p hp))
    (fun p hp t ht => charElement_noEscape (hpiece p hp) (hq p hp) t ht)]
  unfold bare
  rw [List.filter_flatten]

theorem NoEscape.pieces {chunks : List (List ℕ)} (h : NoEscape chunks.flatten) : ∀ p ∈ chunks, NoEscape p := by
  induction chunks with
  | nil => exact fun p hp => absurd hp List.not_mem_nil
  | cons q chunks ih =>
    rw [List.flatten_cons] at h
    intro p hp
    rcases List.mem_cons.mp hp with rfl | hp
    · exact h.append.1
    · exact ih h.append.2 p hp

theorem flatten_single (text : List ℕ) : (text.map fun c => [c]).flatten = text := by
  induction text with
  | nil => rfl
  | cons c text ih => rw [List.map_cons, List.flatten_cons, ih, List.singleton_append]

/-- One call for each character. -/
theorem assembled_single {text : List ℕ} (hne : text ≠ []) (htext : ∀ c ∈ text, c ≠ 0) :
    assembled true (text.map fun c => [c]) = some (bare text) := by
  have hflat := flatten_single text
  have h := @assembled_noEscape (text.map fun c => [c]) (by simpa using hne) (by rw [hflat]; exact htext) (by
    intro p hp
    obtain ⟨c, -, rfl⟩ := List.mem_map.mp hp
    by_cases hc : c = 92
    · rw [noEscape_cons, if_pos hc]
      exact fun d hd => absurd hd List.not_mem_nil
    · rw [noEscape_cons, if_neg hc]
      trivial)
  rw [h, hflat]

/-- The text of an element does not depend on how it is cut: always without `XML_ESCAPED`, and with it for the texts
that have no escape. -/
theorem chunks_agree_iff (escaped : Bool) (text : List ℕ) (htext : ∀ c ∈ text, c ≠ 0) :
    (∀ chunks : List (List ℕ), chunks ≠ [] → (∀ p ∈ chunks, p ≠ []) → chunks.flatten = text →
      assembled escaped chunks = assembled escaped [text]) ↔ escaped = false ∨ NoEscape text := by
  constructor
  · intro h
    by_contra hno
    rw [not_or, Bool.not_eq_false] at hno
    obtain ⟨hesc, hq⟩ := hno
    have hne : text ≠ [] := fun h0 => hq (h0 ▸ trivial)
    have hcut := h (text.map fun c => [c]) (by simpa using hne) (by simp) (flatten_single text)
    rw [hesc, assembled_single hne htext] at hcut
    have hone : assembled true [text] = some (cstr (unescapeLoop text 0 0)) := rfl
    rw [hone, Option.some.injEq] at hcut
    have hlt := length_unescape_lt hq
    have hle := length_cstr_le (unescapeLoop text 0 0)
    rw [hcut] at hlt
    omega
  · rintro h chunks hne - rfl
    have hpiece : ∀ p ∈ chunks, ∀ c ∈ p, c ≠ 0 := fun p hp c hc => htext c (List.mem_flatten_of_mem hp hc)
    cases escaped with
    | false =>
      rw [assembled_pieces hne hpiece (fun p hp t _ => charElement_plain (hpiece p hp) t),
        @assembled_pieces false id [chunks.flatten] (by simp) (by simpa using htext)
          (fun p hp t _ => by rw [List.mem_singleton.mp hp]; exact charElement_plain htext t)]
      simp
    | true =>
      have hq : NoEscape chunks.flatten := h.resolve_left Bool.true_eq_false.mp
      rw [assembled_noEscape hne htext hq.pieces, @assembled_noEscape [chunks.flatten] (by simp) (by simpa using htext)
        (fun p hp => by rw [List.mem_singleton.mp hp]; exact hq)]
      simp

/-- `\303\274`, the two bytes of an umlaut, cut within the second escape. -/
theorem cut_escape : ¬∀ (escaped : Bool) (chunks : List (List ℕ)), chunks ≠ [] →
    assembled escaped chunks = assembled escaped [chunks.flatten] := by
  intro h
  have hcut := h true [[92, 51, 48, 51, 92, 50], [55, 52]] (by simp)
  revert hcut
  decide

theorem chunks_agree_plain :
    (∀ chunks : List (List ℕ), chunks ≠ [] → (∀ p ∈ chunks, p ≠ []) → chunks.flatten = [92, 51, 48, 51] →
      assembled false chunks = assembled false [[92, 51, 48, 51]]) ↔ false = false ∨ NoEscape [92, 51, 48, 51] :=
  chunks_agree_iff false [92, 51, 48, 51] (by decide)

end Mand.Load
