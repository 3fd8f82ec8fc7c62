import Mand.Binary.Base64
import Mand.Save.Escape

/-! # Content of an element

What stands between two tags of a saved document, and what the parser makes of it. The parser is a library: it is known
by what it delivers for characters, for references and for a CDATA section. -/
namespace Mand.Load
open Mand.Save Mand.Base64 Mand.Binary
set_option autoImplicit false

/-- A piece of content: a character, an entity of XML, or a character reference with two digits. -/
inductive Piece
  | char (c : ℕ)
  | lt
  | amp
  | gt
  | ref (n : ℕ)
  deriving DecidableEq, Repr

/-- The characters below 256 that a document may have. -/
def xmlChar (n : ℕ) : Bool := n = 9 ∨ n = 10 ∨ n = 13 ∨ 32 ≤ n

/-- A character below 256 in UTF-8. -/
def utf8 (n : ℕ) : List ℕ := if n < 128 then [n] else [192 + n / 64, 128 + n % 64]

namespace Piece

def source : Piece → List ℕ
  | .char c => [c]
  | .lt => ascii "&lt;"
  | .amp => ascii "&amp;"
  | .gt => ascii "&gt;"
  | .ref n => ascii "&#x" ++ hex2 n ++ ascii ";"

/-- What it stands for, if it is allowed. -/
def chars : Piece → Option (List ℕ)
  | .char c => some [c]
  | .lt => some [60]
  | .amp => some [38]
  | .gt => some [62]
  | .ref n => if xmlChar n = true then some (utf8 n) else none

/-- A character that stands for itself, or a number of two digits. -/
def Legal : Piece → Prop
  | .char c => Plain c ∨ c = 10
  | .ref n => n < 256
  | _ => True

end Piece

/-- What some pieces stand for. -/
def delivered : List Piece → Option (List ℕ)
  | [] => some []
  | p :: ps => p.chars.bind fun s => (delivered ps).map (s ++ ·)

/-- The parser: the character data of some content, if that is well-formed. -/
structure Delivers (chars : List ℕ → Option (List ℕ)) : Prop where
  pieces : ∀ ps : List Piece, (∀ p ∈ ps, p.Legal) → chars (ps.flatMap Piece.source) = delivered ps
  cdata : ∀ s, (∀ c ∈ s, 32 ≤ c ∧ c ≤ 126) → ¬Closes s → chars (ascii "<![CDATA[" ++ s ++ ascii "]]>") = some s

/-- What stands between the tags, from the end of the one to the beginning of the other. -/
def written (indent : ℕ) : Body → List ℕ
  | .empty => []
  | .text s => s
  | .cdata s => ascii "<![CDATA[" ++ s ++ ascii "]]>"
  | .lines l => 10 :: (l.flatMap (printLine (indent + 1)) ++ List.replicate (4 * indent) 32)

/-! ## What is delivered -/

section Delivered
variable {chars : List ℕ → Option (List ℕ)}

theorem delivered_chars (s : List ℕ) : delivered (s.map .char) = some s := by
  induction s with
  | nil => rfl
  | cons c s ih => simp [delivered, ih, Piece.chars]

/-- Characters that stand for themselves. -/
theorem Delivers.plain (h : Delivers chars) {s : List ℕ} (hs : ∀ c ∈ s, Plain c ∨ c = 10) : chars s = some s := by
  have hsource : (s.map Piece.char).flatMap Piece.source = s := by
    rw [List.flatMap_map]
    simp [Piece.source]
  have hpieces := h.pieces (s.map .char) (fun p hp => by
    obtain ⟨c, hc, rfl⟩ := List.mem_map.mp hp
    exact hs c hc)
  rwa [hsource, delivered_chars] at hpieces

theorem Delivers.nil (h : Delivers chars) : chars [] = some [] := h.plain fun _ hc => absurd hc List.not_mem_nil

/-- The piece that `serialize_binary` writes for a byte. -/
def byte (c : ℕ) : Piece :=
  if c = 60 then .lt else if c = 38 then .amp else if c = 62 then .gt
  else if unprintable c = true then .ref c else .char c

theorem byte_source (c : ℕ) : (byte c).source =
    if c = 60 then ascii "&lt;" else if c = 38 then ascii "&amp;" else if c = 62 then ascii "&gt;"
    else if unprintable c = true then ascii "&#x" ++ hex2 c ++ ascii ";" else [c] := by
  unfold byte
  split_ifs <;> rfl

theorem serializeBinary_pieces (b : List ℕ) : serializeBinary b = (b.map byte).flatMap Piece.source := by
  rw [List.flatMap_map]
  exact List.flatMap_congr fun c _ => (byte_source c).symm

theorem byte_legal {c : ℕ} (hc : c < 256) : (byte c).Legal := by
  unfold byte
  split_ifs with h1 h2 h3 h4
  · trivial
  · trivial
  · trivial
  · exact hc
  · refine .inl (plain_of_unprintable (by simpa using h4) ?_)
    rw [isMarkup, decide_eq_false_iff_not]
    omega

/-- Each byte stands for the character of its number. -/
theorem byte_chars (c : ℕ) : (byte c).chars = if xmlChar c = true then some (utf8 c) else none := by
  by_cases h60 : c = 60
  · rw [h60]
    rfl
  by_cases h38 : c = 38
  · rw [h38]
    rfl
  by_cases h62 : c = 62
  · rw [h62]
    rfl
  rw [byte, if_neg h60, if_neg h38, if_neg h62]
  by_cases hunp : unprintable c = true
  · rw [if_pos hunp]
    rfl
  · obtain ⟨hlow, hhigh⟩ := unprintable_eq_false.mp (by simpa using hunp)
    have hxml : xmlChar c = true := by
      rw [xmlChar, decide_eq_true_iff]
      omega
    rw [if_neg hunp, if_pos hxml, utf8, if_pos (by omega)]
    rfl

theorem delivered_bytes (b : List ℕ) :
    delivered (b.map byte) = if ∀ c ∈ b, xmlChar c = true then some (b.flatMap utf8) else none := by
  induction b with
  | nil => rfl
  | cons c b ih =>
    rw [List.map_cons, delivered, byte_chars, ih]
    by_cases hc : xmlChar c = true
    · rw [if_pos hc, Option.bind_some]
      by_cases hb : ∀ d ∈ b, xmlChar d = true
      · have hall : ∀ d ∈ c :: b, xmlChar d = true := List.forall_mem_cons.mpr ⟨hc, hb⟩
        rw [if_pos hb, if_pos hall]
        rfl
      · have hall : ¬∀ d ∈ c :: b, xmlChar d = true := fun h => hb (List.forall_mem_cons.mp h).2
        rw [if_neg hb, if_neg hall]
        rfl
    · have hall : ¬∀ d ∈ c :: b, xmlChar d = true := fun h => hc (h c List.mem_cons_self)
      rw [if_neg hc, if_neg hall]
      rfl

/-- A block in character references; some bytes are no characters. -/
theorem Delivers.binary (h : Delivers chars) {b : List ℕ} (hb : ∀ c ∈ b, c < 256) :
    chars (serializeBinary b) = if ∀ c ∈ b, xmlChar c = true then some (b.flatMap utf8) else none := by
  rw [serializeBinary_pieces, h.pieces, delivered_bytes]
  intro p hp
  obtain ⟨c, hc, rfl⟩ := List.mem_map.mp hp
  exact byte_legal (hb c hc)

theorem length_utf8 (c : ℕ) : 1 ≤ (utf8 c).length := by
  unfold utf8
  split_ifs <;> simp

/-- Two bytes for one make the block longer. -/
theorem flatMap_utf8 (b : List ℕ) : b.length ≤ (b.flatMap utf8).length ∧ (b.flatMap utf8 = b ↔ ∀ c ∈ b, c < 128) := by
  induction b with
  | nil => simp
  | cons c b ih =>
    obtain ⟨hle, hiff⟩ := ih
    rw [List.flatMap_cons, List.length_append, List.length_cons, List.forall_mem_cons, ← hiff]
    have hlen := length_utf8 c
    refine ⟨by omega, ?_⟩
    by_cases hc : c < 128
    · rw [utf8, if_pos hc, List.singleton_append, List.cons.injEq]
      simp [hc]
    · refine iff_of_false (fun h => ?_) fun h => hc h.1
      have := congrArg List.length h
      simp only [utf8, if_neg hc, List.length_append, List.length_cons, List.length_nil] at this
      omega

theorem utf8_nonzero {c : ℕ} (hc : xmlChar c = true) : ∀ d ∈ utf8 c, d ≠ 0 := by
  simp only [xmlChar, decide_eq_true_iff] at hc
  unfold utf8
  split_ifs
  · simp
    omega
  · simp

theorem utf8_lt {c : ℕ} (hc : c < 256) : ∀ d ∈ utf8 c, d < 256 := by
  unfold utf8
  split_ifs <;> simp <;> omega

theorem plain_to64 {b : List ℕ} (hb : ∀ c ∈ b, c < 256) : ∀ c ∈ to64 b, Plain c := by
  have hplain : ∀ n < 64, Plain (basis64 n) := by
    unfold Plain
    decide
  have hpad : Plain 61 := ⟨by omega, by omega, rfl⟩
  induction b using to64.induct with
  | case1 => simp [to64]
  | case2 a =>
    have ha := hb a (by simp)
    simp only [to64, List.forall_mem_cons]
    exact ⟨hplain _ (by omega), hplain _ (by omega), hpad, hpad, by simp⟩
  | case3 a b =>
    have ha := hb a (by simp)
    have hb := hb b (by simp)
    simp only [to64, List.forall_mem_cons]
    exact ⟨hplain _ (by omega), hplain _ (by omega), hplain _ (by omega), hpad, by simp⟩
  | case4 a b c rest ih =>
    have ha := hb a (by simp)
    have hb1 := hb b (by simp)
    have hc := hb c (by simp)
    simp only [to64, List.forall_mem_cons]
    exact ⟨hplain _ (by omega), hplain _ (by omega), hplain _ (by omega), hplain _ (by omega),
      ih fun d hd => hb d (by simp [hd])⟩

/-- A block in lines has nothing but blanks around its groups of four. -/
theorem spaced_lines_written {b : List ℕ} (indent : ℕ) :
    Spaced (quads (to64 b)) (written indent (.lines (base64Lines b))) := by
  have hlen := length_to64 b
  have hlines := spaced_lines (hlen ▸ Nat.dvd_mul_right 4 _) (indent + 1) (((b.length + 3) * 4 / 3 + 63) / 64)
  rw [List.take_of_length_le (by omega)] at hlines
  have hend : Spaced [] (List.replicate (4 * indent) 32) :=
    .nil fun c hc => .inr (.inr (.inr (List.eq_of_mem_replicate hc)))
  have hboth := hlines.append hend
  rw [List.append_nil] at hboth
  have hfirst := hboth.blanks (w := [10]) (by simp [Blank])
  rw [written, base64Lines, List.flatMap_map]
  exact hfirst

theorem plain_lines_written {b : List ℕ} (hb : ∀ c ∈ b, c < 256) (indent : ℕ) :
    ∀ c ∈ written indent (.lines (base64Lines b)), Plain c ∨ c = 10 := by
  have hspace : Plain 32 := ⟨le_refl _, by omega, rfl⟩
  intro c hc
  rcases List.mem_cons.mp hc with rfl | hc
  · exact .inr rfl
  rcases List.mem_append.mp hc with hc | hc
  · obtain ⟨line, hline, hc⟩ := List.mem_flatMap.mp hc
    rcases List.mem_append.mp hc with hc | hc
    · exact .inl (List.eq_of_mem_replicate hc ▸ hspace)
    rcases List.mem_append.mp hc with hc | hc
    · obtain ⟨k, -, rfl⟩ := List.mem_map.mp hline
      exact .inl (plain_to64 hb _ (List.mem_of_mem_drop (List.mem_of_mem_take hc)))
    · exact .inr (List.mem_singleton.mp hc)
  · exact .inl (List.eq_of_mem_replicate hc ▸ hspace)

end Delivered

/-! ## A parser -/

/-- `%X` backwards. -/
def unhex (c : ℕ) : ℕ := if c < 58 then c - 48 else c - 55

/-- The pieces one by one. -/
def sampleContent : ℕ → List ℕ → Option (List ℕ)
  | _, [] => some []
  | 0, _ => none
  | n + 1, c :: s =>
    if c = 60 then none
    else if c ≠ 38 then (sampleContent n s).map ([c] ++ ·)
    else if s.take 3 = ascii "lt;" then (sampleContent n (s.drop 3)).map ([60] ++ ·)
    else if s.take 4 = ascii "amp;" then (sampleContent n (s.drop 4)).map ([38] ++ ·)
    else if s.take 3 = ascii "gt;" then (sampleContent n (s.drop 3)).map ([62] ++ ·)
    else
      let m := unhex (s.getD 2 0) * 16 + unhex (s.getD 3 0)
      if xmlChar m = true then (sampleContent n (s.drop 5)).map (utf8 m ++ ·) else none

/-- A section, or pieces. -/
def sampleChars (s : List ℕ) : Option (List ℕ) :=
  if s.take 9 = ascii "<![CDATA[" then some ((s.drop 9).take (s.length - 12)) else sampleContent s.length s

theorem unhex_digit {d : ℕ} (hd : d < 16) : unhex (if d < 10 then d + 48 else d + 55) = d := by
  unfold unhex
  split_ifs <;> omega

theorem sampleContent_piece {p : Piece} (hp : p.Legal) (n : ℕ) (rest : List ℕ) :
    sampleContent (n + 1) (p.source ++ rest) = p.chars.bind fun s => (sampleContent n rest).map (s ++ ·) := by
  cases p with
  | char c =>
    have hc : c ≠ 60 ∧ c ≠ 38 := by
      rcases hp with hc | rfl
      · have hm := hc.2.2
        rw [isMarkup, decide_eq_false_iff_not] at hm
        omega
      · omega
    rw [Piece.source, List.singleton_append, sampleContent, if_neg hc.1, if_pos hc.2]
    rfl
  | lt => rfl
  | amp => rfl
  | gt => rfl
  | ref m =>
    have hm : m < 256 := hp
    have hsource : (Piece.ref m).source ++ rest = 38 :: 35 :: 120 :: (if m / 16 < 10 then m / 16 + 48 else m / 16 + 55) ::
        (if m % 16 < 10 then m % 16 + 48 else m % 16 + 55) :: 59 :: rest := rfl
    have hother {s w : List ℕ} {k : ℕ} (hw : w.head? ≠ some 35) : ¬(35 :: s).take (k + 1) = w := fun h => hw (h ▸ rfl)
    rw [hsource, sampleContent, if_neg (by omega), if_neg (by omega), if_neg (hother (by decide)),
      if_neg (hother (by decide)), if_neg (hother (by decide))]
    simp only [List.getD_cons_succ, List.getD_cons_zero, List.drop_succ_cons, List.drop_zero,
      unhex_digit (by omega : m / 16 < 16), unhex_digit (Nat.mod_lt m (by omega) : m % 16 < 16),
      (by omega : m / 16 * 16 + m % 16 = m), Piece.chars]
    split_ifs <;> rfl

theorem sampleContent_pieces {ps : List Piece} (hps : ∀ p ∈ ps, p.Legal) (n : ℕ) (hn : ps.length ≤ n) :
    sampleContent n (ps.flatMap Piece.source) = delivered ps := by
  induction ps generalizing n with
  | nil => cases n <;> rfl
  | cons p ps ih =>
    obtain ⟨n, rfl⟩ := Nat.exists_eq_add_one_of_ne_zero (by simp at hn; omega : n ≠ 0)
    rw [List.flatMap_cons, sampleContent_piece (hps p List.mem_cons_self),
      ih (fun q hq => hps q (List.mem_cons_of_mem _ hq)) n (by simpa using hn)]
    rfl

theorem piece_source_head {p : Piece} (hp : p.Legal) : ∃ c s, p.source = c :: s ∧ c ≠ 60 := by
  cases p with
  | char c =>
    refine ⟨c, [], rfl, ?_⟩
    rcases hp with hc | rfl
    · have hm := hc.2.2
      rw [isMarkup, decide_eq_false_iff_not] at hm
      omega
    · omega
  | lt => exact ⟨38, _, rfl, by omega⟩
  | amp => exact ⟨38, _, rfl, by omega⟩
  | gt => exact ⟨38, _, rfl, by omega⟩
  | ref m => exact ⟨38, _, rfl, by omega⟩

theorem sampleChars_delivers : Delivers sampleChars where
  pieces := by
    intro ps hps
    have hsection : (ps.flatMap Piece.source).take 9 ≠ ascii "<![CDATA[" := by
      cases ps with
      | nil => decide
      | cons p ps =>
        obtain ⟨c, s, hs, hc⟩ := piece_source_head (hps p List.mem_cons_self)
        rw [List.flatMap_cons, hs, List.cons_append, List.take_succ_cons]
        intro h
        exact hc (List.cons.inj h).1
    have hlen : ps.length ≤ (ps.flatMap Piece.source).length := by
      clear hsection
      induction ps with
      | nil => simp
      | cons p ps ih =>
        obtain ⟨c, s, hs, -⟩ := piece_source_head (hps p List.mem_cons_self)
        have hrest := ih fun q hq => hps q (List.mem_cons_of_mem _ hq)
        rw [List.flatMap_cons, List.length_append, hs, List.length_cons, List.length_cons]
        omega
    rw [sampleChars, if_neg hsection, sampleContent_pieces hps _ hlen]
  cdata := by
    intro s _ _
    have h9 : (ascii "<![CDATA[").length = 9 := by decide
    have h3 : (ascii "]]>").length = 3 := by decide
    have htake : (ascii "<![CDATA[" ++ s ++ ascii "]]>").take 9 = ascii "<![CDATA[" := by
      rw [List.append_assoc]
      exact List.take_left' h9
    rw [sampleChars, if_pos htake, List.append_assoc, List.drop_left' h9]
    simp only [List.length_append, h9, h3]
    rw [List.take_left' (by omega)]

end Mand.Load
