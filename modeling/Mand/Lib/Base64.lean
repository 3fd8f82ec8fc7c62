import Mathlib.Algebra.Order.Ring.Nat
import Mathlib.Data.List.Basic

/-! # Base64

Blocks of bytes as text (RFC 4648 with padding), and back. -/
namespace Mand.Base64
set_option autoImplicit false

/-- A character of the alphabet for six bits. -/
def basis64 (n : ℕ) : ℕ :=
  if n < 26 then n + 65 else if n < 52 then n + 71 else if n < 62 then n - 4 else if n = 62 then 43 else 47

/-- Four characters for up to three bytes. -/
def to64 : List ℕ → List ℕ
  | [] => []
  | [a] => [basis64 (a / 4), basis64 (a % 4 * 16), 61, 61]
  | [a, b] => [basis64 (a / 4), basis64 (a % 4 * 16 + b / 16), basis64 (b % 16 * 4), 61]
  | a :: b :: c :: rest =>
    basis64 (a / 4) :: basis64 (a % 4 * 16 + b / 16) :: basis64 (b % 16 * 4 + c / 64) ::
      basis64 (c % 64) :: to64 rest

/-! ## Decoding -/

/-- The six bits of a character; characters outside the alphabet count as zero. -/
def getbits (c : ℕ) : ℕ :=
  if 65 ≤ c ∧ c ≤ 90 then c - 65
  else if 97 ≤ c ∧ c ≤ 122 then c - 97 + 26
  else if 48 ≤ c ∧ c ≤ 57 then c - 48 + 52
  else if c = 43 then 62
  else if c = 47 then 63
  else 0

/-- The loop of the decoder, with the number `i` of bits that wait in the low end of `bits`. After four
characters the last byte of three is still there: it goes out with the next character, or at the end. -/
def from64From : List ℕ → ℕ → ℕ → List ℕ
  | [], i, bits => if i = 0 then [] else [bits / 2 ^ (i - 2) % 256]
  | c :: rest, i, bits =>
    if i % 8 = 0 ∧ (c = 10 ∨ c = 13 ∨ c = 9 ∨ c = 32) then from64From rest i bits
    else if c = 61 then []
    else if 8 < i + 6 then (bits ||| getbits c) / 2 ^ ((i + 6) % 8) % 256 ::
      from64From rest ((i + 6) % 8) ((bits ||| getbits c) * 64 % 2 ^ 32)
    else from64From rest (i + 6) ((bits ||| getbits c) * 64 % 2 ^ 32)

def from64 (text : List ℕ) : List ℕ := from64From text 0 0

/-! ## The alphabet -/

theorem basis64_plain (n : ℕ) (h : n < 64) : 0 < basis64 n ∧ basis64 n < 128 ∧ basis64 n ≠ 61 ∧ basis64 n ≠ 10 ∧
    basis64 n ≠ 13 ∧ basis64 n ≠ 9 ∧ basis64 n ≠ 32 := by
  unfold basis64
  split_ifs <;> omega

theorem getbits_basis64 (n : ℕ) (h : n < 64) : getbits (basis64 n) = n := by
  unfold basis64 getbits
  split_ifs <;> omega

theorem mem_to64 (l : List ℕ) (hl : ∀ x ∈ l, x < 256) : ∀ c ∈ to64 l, 0 < c ∧ c < 128 := by
  have hplain : ∀ n, n < 64 → 0 < basis64 n ∧ basis64 n < 128 := fun n hn =>
    ⟨(basis64_plain n hn).1, (basis64_plain n hn).2.1⟩
  induction l using to64.induct with
  | case1 => simp [to64]
  | case2 a =>
    have ha := hl a (by simp)
    simp only [to64, List.forall_mem_cons]
    exact ⟨hplain _ (by omega), hplain _ (by omega), by omega, by omega, by simp⟩
  | case3 a b =>
    have ha := hl a (by simp)
    have hb := hl b (by simp)
    simp only [to64, List.forall_mem_cons]
    exact ⟨hplain _ (by omega), hplain _ (by omega), hplain _ (by omega), by omega, by simp⟩
  | case4 a b c rest ih =>
    have ha := hl a (by simp)
    have hb := hl b (by simp)
    have hc := hl c (by simp)
    simp only [to64, List.forall_mem_cons]
    exact ⟨hplain _ (by omega), hplain _ (by omega), hplain _ (by omega), hplain _ (by omega),
      ih fun x hx => hl x (by simp [hx])⟩

theorem length_to64 (l : List ℕ) : (to64 l).length = 4 * ((l.length + 2) / 3) := by
  induction l using to64.induct with
  | case1 => rfl
  | case2 a => simp [to64]
  | case3 a b => simp [to64]
  | case4 a b c rest ih =>
    simp only [to64, List.length_cons, ih]
    omega

/-! ## There and back -/

/-- One character of the alphabet. -/
theorem from64From_basis64 {n : ℕ} (hn : n < 64) (rest : List ℕ) (i k : ℕ) : from64From (basis64 n :: rest) i (64 * k) =
    if 8 < i + 6 then (64 * k + n) / 2 ^ ((i + 6) % 8) % 256 ::
      from64From rest ((i + 6) % 8) (64 * ((64 * k + n) % 2 ^ 26))
    else from64From rest (i + 6) (64 * ((64 * k + n) % 2 ^ 26)) := by
  obtain ⟨-, -, h61, h10, h13, h9, h32⟩ := basis64_plain n hn
  have hor : 64 * k ||| getbits (basis64 n) = 64 * k + n := by
    rw [getbits_basis64 n hn]
    exact (Nat.two_pow_add_eq_or_of_lt (i := 6) hn k).symm
  have hmod : (64 * k + n) * 64 % 2 ^ 32 = 64 * ((64 * k + n) % 2 ^ 26) := by omega
  rw [from64From, if_neg, if_neg h61, hor, hmod]
  rintro ⟨-, h | h | h | h⟩
  · exact h10 h
  · exact h13 h
  · exact h9 h
  · exact h32 h

/-- The characters that the decoder passes over. -/
def Blank (c : ℕ) : Prop := c = 10 ∨ c = 13 ∨ c = 9 ∨ c = 32

theorem from64From_blanks {w : List ℕ} (hw : ∀ c ∈ w, Blank c) (text : List ℕ) {i : ℕ} (hi : i % 8 = 0) (bits : ℕ) :
    from64From (w ++ text) i bits = from64From text i bits := by
  induction w with
  | nil => rfl
  | cons c w ih =>
    rw [List.cons_append, from64From, if_pos ⟨hi, hw c List.mem_cons_self⟩]
    exact ih fun d hd => hw d (List.mem_cons_of_mem _ hd)

/-- The decoder between two blocks: in the beginning nothing waits, later a byte does. What comes out of it for `text` is
that byte and `l`. -/
def Decodes (text l : List ℕ) : Prop := from64From text 0 0 = l ∧ ∀ k, from64From text 8 (64 * k) = k % 256 :: l

theorem Decodes.blanks {w text l : List ℕ} (hw : ∀ c ∈ w, Blank c) (h : Decodes text l) : Decodes (w ++ text) l :=
  ⟨by rw [from64From_blanks hw text rfl, h.1], fun k => by rw [from64From_blanks hw text rfl, h.2]⟩

theorem decodes_nil : Decodes [] [] := by
  refine ⟨rfl, fun k => ?_⟩
  show [64 * k / 64 % 256] = [k % 256]
  rw [Nat.mul_div_cancel_left _ (by decide)]

/-- The first character of a block: a byte that waits goes out. -/
theorem decodes_first {n : ℕ} (hn : n < 64) {rest l : List ℕ}
    (hrest : ∀ m, from64From rest 6 (64 * ((64 * m + n) % 2 ^ 26)) = l) : Decodes (basis64 n :: rest) l := by
  refine ⟨?_, fun k => ?_⟩
  · have h := from64From_basis64 hn rest 0 0
    rw [if_neg (by omega), hrest] at h
    exact h
  · rw [from64From_basis64 hn, if_pos (by omega)]
    simp only [Nat.reduceAdd, Nat.reduceMod, Nat.reducePow] at hrest ⊢
    rw [hrest]
    congr 1
    omega

/-- A last block of one byte; the decoder does not look behind the padding. -/
theorem decodes_one {a : ℕ} (ha : a < 256) (text : List ℕ) : Decodes (to64 [a] ++ text) [a] := by
  have hbyte : ∀ m, (64 * ((64 * m + a / 4) % 2 ^ 26) + a % 4 * 16) / 2 ^ 4 % 256 = a := by omega
  simp only [to64, List.cons_append]
  refine decodes_first (by omega) fun m => ?_
  rw [from64From_basis64 (by omega), if_pos (by omega), hbyte, from64From, if_neg (by omega), if_pos rfl]

theorem decodes_two {a b : ℕ} (ha : a < 256) (hb : b < 256) (text : List ℕ) : Decodes (to64 [a, b] ++ text) [a, b] := by
  have hbyte1 : ∀ m, (64 * ((64 * m + a / 4) % 2 ^ 26) + (a % 4 * 16 + b / 16)) / 2 ^ 4 % 256 = a := by omega
  have hbyte2 : ∀ m, (64 * ((64 * m + (a % 4 * 16 + b / 16)) % 2 ^ 26) + b % 16 * 4) / 2 ^ 2 % 256 = b := by omega
  simp only [to64, List.cons_append]
  refine decodes_first (by omega) fun m => ?_
  rw [from64From_basis64 (by omega), if_pos (by omega), hbyte1, from64From_basis64 (by omega), if_pos (by omega), hbyte2,
    from64From, if_neg (by omega), if_pos rfl]

/-- A full block. Its third byte waits for what follows. -/
theorem decodes_three {a b c : ℕ} (ha : a < 256) (hb : b < 256) (hc : c < 256) {text l : List ℕ} (h : Decodes text l) :
    Decodes (to64 [a, b, c] ++ text) (a :: b :: c :: l) := by
  have hbyte1 : ∀ m, (64 * ((64 * m + a / 4) % 2 ^ 26) + (a % 4 * 16 + b / 16)) / 2 ^ 4 % 256 = a := by omega
  have hbyte2 : ∀ m, (64 * ((64 * m + (a % 4 * 16 + b / 16)) % 2 ^ 26) + (b % 16 * 4 + c / 64)) / 2 ^ 2 % 256 = b := by omega
  have hbyte3 : ∀ m, (64 * ((64 * m + (b % 16 * 4 + c / 64)) % 2 ^ 26) + c % 64) % 2 ^ 26 % 256 = c := by omega
  simp only [to64, List.cons_append, List.nil_append]
  refine decodes_first (by omega) fun m => ?_
  rw [from64From_basis64 (by omega), if_pos (by omega), hbyte1, from64From_basis64 (by omega), if_pos (by omega), hbyte2,
    from64From_basis64 (by omega), if_neg (by omega), h.2, hbyte3]

/-- The groups of four characters. -/
def quads : List ℕ → List (List ℕ)
  | a :: b :: c :: d :: rest => [a, b, c, d] :: quads rest
  | [] => []
  | l => [l]

/-- Groups with blanks before, between and after them. -/
inductive Spaced : List (List ℕ) → List ℕ → Prop
  | nil {w : List ℕ} (hw : ∀ c ∈ w, Blank c) : Spaced [] w
  | cons {w g text : List ℕ} {gs : List (List ℕ)} (hw : ∀ c ∈ w, Blank c) (h : Spaced gs text) : Spaced (g :: gs) (w ++ (g ++ text))

theorem Spaced.flatten (gs : List (List ℕ)) : Spaced gs gs.flatten := by
  induction gs with
  | nil => exact .nil fun c hc => absurd hc List.not_mem_nil
  | cons g gs ih => exact @Spaced.cons [] g _ gs (fun c hc => absurd hc List.not_mem_nil) ih

theorem Spaced.blanks {gs : List (List ℕ)} {w text : List ℕ} (hw : ∀ c ∈ w, Blank c) (h : Spaced gs text) : Spaced gs (w ++ text) := by
  have hboth {w' : List ℕ} (hw' : ∀ c ∈ w', Blank c) : ∀ c ∈ w ++ w', Blank c := fun c hc =>
    (List.mem_append.mp hc).elim (hw c) (hw' c)
  cases h with
  | nil hw' => exact .nil (hboth hw')
  | cons hw' h =>
    rw [← List.append_assoc]
    exact .cons (hboth hw') h

theorem Spaced.append {gs gs' : List (List ℕ)} {text text' : List ℕ} (h : Spaced gs text) (h' : Spaced gs' text') :
    Spaced (gs ++ gs') (text ++ text') := by
  induction h with
  | nil hw => exact h'.blanks hw
  | cons hw _ ih =>
    rw [List.append_assoc, List.append_assoc]
    exact .cons hw ih

theorem flatten_quads (l : List ℕ) : (quads l).flatten = l := by
  induction l using quads.induct with
  | case1 a b c d rest ih => simp [quads, ih]
  | case2 => rfl
  | case3 l hfour hne =>
    unfold quads
    split
    · exact absurd rfl (hfour _ _ _ _ _)
    · rfl
    · simp

theorem quads_append {l : List ℕ} (hl : 4 ∣ l.length) (l' : List ℕ) : quads (l ++ l') = quads l ++ quads l' := by
  induction l using quads.induct with
  | case1 a b c d rest ih =>
    have hrest : 4 ∣ rest.length := by
      simp only [List.length_cons] at hl
      omega
    simp only [List.cons_append, quads, ih hrest]
  | case2 => rfl
  | case3 l hfour hne =>
    have hlen : l.length < 4 := by
      by_contra hge
      rcases l with _ | ⟨a, _ | ⟨b, _ | ⟨c, _ | ⟨d, rest⟩⟩⟩⟩
      · exact hne rfl
      · exact hge (by simp)
      · exact hge (by simp)
      · exact hge (by simp)
      · exact hfour a b c d rest rfl
    have hzero : l.length = 0 := by omega
    exact absurd (List.length_eq_zero_iff.mp hzero) hne

/-- Blanks between the groups change nothing. -/
theorem Spaced.decodes {l text : List ℕ} (hl : ∀ x ∈ l, x < 256) (h : Spaced (quads (to64 l)) text) : Decodes text l := by
  induction l using to64.induct generalizing text with
  | case1 =>
    cases h with
    | nil hw =>
      rw [← List.append_nil text]
      exact decodes_nil.blanks hw
  | case2 a =>
    cases h with
    | cons hw _ => exact (decodes_one (hl a (by simp)) _).blanks hw
  | case3 a b =>
    cases h with
    | cons hw _ => exact (decodes_two (hl a (by simp)) (hl b (by simp)) _).blanks hw
  | case4 a b c rest ih =>
    have hrest : ∀ x ∈ rest, x < 256 := fun x hx => hl x (by simp [hx])
    cases h with
    | cons hw h => exact (decodes_three (hl a (by simp)) (hl b (by simp)) (hl c (by simp)) (ih hrest h)).blanks hw

theorem from64_spaced {l text : List ℕ} (hl : ∀ x ∈ l, x < 256) (h : Spaced (quads (to64 l)) text) : from64 text = l :=
  (h.decodes hl).1

theorem from64_to64 (l : List ℕ) (hl : ∀ x ∈ l, x < 256) : from64 (to64 l) = l := by
  refine from64_spaced hl ?_
  have h := Spaced.flatten (quads (to64 l))
  rwa [flatten_quads] at h

/-- Six bits a character, and what waits. -/
theorem length_from64From (l : List ℕ) {i : ℕ} (hi : i ≤ 8) (bits : ℕ) :
    (from64From l i bits).length ≤ (6 * l.length + i + 7) / 8 := by
  induction l generalizing i bits with
  | nil =>
    unfold from64From
    split_ifs <;> simp only [List.length_cons, List.length_nil] <;> omega
  | cons c rest ih =>
    have hskip := ih hi bits
    unfold from64From
    split_ifs with hblank hpad hbyte
    · rw [List.length_cons]
      omega
    · exact Nat.zero_le _
    · have hnext := @ih ((i + 6) % 8) (by omega) ((bits ||| getbits c) * 64 % 2 ^ 32)
      rw [List.length_cons, List.length_cons]
      omega
    · have hnext := @ih (i + 6) (by omega) ((bits ||| getbits c) * 64 % 2 ^ 32)
      rw [List.length_cons]
      omega

/-- A block is no longer than its text. -/
theorem length_from64 (l : List ℕ) : (from64 l).length ≤ l.length := by
  have h := length_from64From l (Nat.zero_le 8) 0
  unfold from64
  omega

end Mand.Base64
