import Mand.Save.Serialize

/-! # The Base64 functions

`dm_to64` and `dm_from64` of `binary.c`, with everything that they write, their terminators too. A string is its
characters up to the terminator. -/
namespace Mand.Binary
open Mand.Base64 Mand.Save
set_option autoImplicit false

/-! ## Encoding -/

/-- `basis_64`. -/
def basisChars : List ℕ := ascii "ABCDEFGHIJKLMNOPQRSTUVWXYZabcdefghijklmnopqrstuvwxyz0123456789+/"

def output64chunk (c0 c1 c2 pads : ℕ) : List ℕ :=
  [basisChars.getD (c0 >>> 2) 0, basisChars.getD ((c0 &&& 3) <<< 4 ||| (c1 &&& 0xF0) >>> 4) 0] ++
    if pads = 2 then [61, 61]
    else if pads ≠ 0 then [basisChars.getD ((c1 &&& 0xF) <<< 2 ||| (c2 &&& 0xC0) >>> 6) 0, 61]
    else [basisChars.getD ((c1 &&& 0xF) <<< 2 ||| (c2 &&& 0xC0) >>> 6) 0, basisChars.getD (c2 &&& 0x3F) 0]

/-- What `dm_to64` writes. -/
def dmTo64 : List ℕ → List ℕ
  | [] => [0]
  | [a] => output64chunk a 0 0 2 ++ [0]
  | [a, b] => output64chunk a b 0 1 ++ [0]
  | a :: b :: c :: rest => output64chunk a b c 0 ++ dmTo64 rest

theorem basisChars_getD : ∀ n < 64, basisChars.getD n 0 = basis64 n := by decide

theorem low_two (a b : ℕ) (hb : b < 256) : (a &&& 3) <<< 4 ||| (b &&& 0xF0) >>> 4 = a % 4 * 16 + b / 16 := by
  have hlow : a &&& 3 = a % 4 := Nat.and_two_pow_sub_one_eq_mod a 2
  have hhigh : (b &&& 0xF0) >>> 4 = (b >>> 4) % 2 ^ 4 := by
    rw [Nat.shiftRight_and_distrib, ← Nat.and_two_pow_sub_one_eq_mod]
    rfl
  have hor := Nat.two_pow_add_eq_or_of_lt (i := 4) (show b / 16 < 2 ^ 4 by omega) (a % 4)
  rw [hlow, hhigh, Nat.shiftLeft_eq, Nat.shiftRight_eq_div_pow, Nat.mul_comm (_ % _)]
  simp only [Nat.reducePow] at hor ⊢
  rw [@Nat.mod_eq_of_lt (_ / _) _ (by omega), ← hor, Nat.mul_comm]

theorem low_four (b c : ℕ) (hc : c < 256) : (b &&& 0xF) <<< 2 ||| (c &&& 0xC0) >>> 6 = b % 16 * 4 + c / 64 := by
  have hlow : b &&& 0xF = b % 16 := Nat.and_two_pow_sub_one_eq_mod b 4
  have hhigh : (c &&& 0xC0) >>> 6 = (c >>> 6) % 2 ^ 2 := by
    rw [Nat.shiftRight_and_distrib, ← Nat.and_two_pow_sub_one_eq_mod]
    rfl
  have hor := Nat.two_pow_add_eq_or_of_lt (i := 2) (show c / 64 < 2 ^ 2 by omega) (b % 16)
  rw [hlow, hhigh, Nat.shiftLeft_eq, Nat.shiftRight_eq_div_pow, Nat.mul_comm (_ % _)]
  simp only [Nat.reducePow] at hor ⊢
  rw [@Nat.mod_eq_of_lt (_ / _) _ (by omega), ← hor, Nat.mul_comm]

theorem low_six (c : ℕ) : c &&& 0x3F = c % 64 := Nat.and_two_pow_sub_one_eq_mod c 6

theorem output64chunk_eq {a b c : ℕ} (ha : a < 256) (hb : b < 256) (hc : c < 256) (pads : ℕ) : output64chunk a b c pads =
    [basis64 (a / 4), basis64 (a % 4 * 16 + b / 16)] ++ if pads = 2 then [61, 61]
      else if pads ≠ 0 then [basis64 (b % 16 * 4 + c / 64), 61] else [basis64 (b % 16 * 4 + c / 64), basis64 (c % 64)] := by
  unfold output64chunk
  rw [Nat.shiftRight_eq_div_pow, low_two a b hb, low_four b c hc, low_six, basisChars_getD _ (by omega),
    basisChars_getD _ (by omega), basisChars_getD _ (by omega), basisChars_getD _ (by omega)]

theorem dmTo64_eq {l : List ℕ} (hl : ∀ x ∈ l, x < 256) : dmTo64 l = to64 l ++ [0] := by
  induction l using dmTo64.induct with
  | case1 => rfl
  | case2 a =>
    rw [dmTo64, output64chunk_eq (hl a (by simp)) (by decide) (by decide)]
    rfl
  | case3 a b =>
    rw [dmTo64, output64chunk_eq (hl a (by simp)) (hl b (by simp)) (by decide)]
    rfl
  | case4 a b c rest ih =>
    rw [dmTo64, output64chunk_eq (hl a (by simp)) (hl b (by simp)) (hl c (by simp)), ih fun x hx => hl x (by simp [hx])]
    rfl

/-! ## Decoding -/

/-- The loop of `dm_from64` and what follows it, with `len`, `i`, `bits` and what is written already. `bits` is an
`int`; of its bits only those below 14 come out. -/
def from64Loop : List ℕ → ℕ → ℕ → ℕ → List ℕ → ℕ × List ℕ
  | [], len, i, bits, output =>
    if i ≠ 0 then (len + 1, output ++ [(bits >>> (i - 2)) % 2 ^ 8, 0]) else (len, output ++ [0])
  | c :: input, len, i, bits, output =>
    if i % 8 = 0 ∧ (c = 10 ∨ c = 13 ∨ c = 9 ∨ c = 32) then from64Loop input len i bits output
    else if c = 61 then (len, output ++ [0])
    else
      let bits := bits ||| getbits c
      let i := i + 6
      if 8 < i then from64Loop input (len + 1) (i % 8) (bits <<< 6 % 2 ^ 32) (output ++ [bits >>> (i % 8) % 2 ^ 8])
      else from64Loop input len i (bits <<< 6 % 2 ^ 32) output

/-- What `dm_from64` returns and what it writes. -/
def dmFrom64 (input : List ℕ) : ℕ × List ℕ := from64Loop input 0 0 0 []

theorem from64Loop_eq (input : List ℕ) (len i bits : ℕ) (output : List ℕ) : from64Loop input len i bits output =
    (len + (from64From input i bits).length, output ++ from64From input i bits ++ [0]) := by
  induction input generalizing len i bits output with
  | nil =>
    rw [from64Loop, from64From, Nat.shiftRight_eq_div_pow]
    by_cases hi : i = 0
    · rw [if_neg (not_not_intro hi), if_pos hi]
      simp
    · rw [if_pos hi, if_neg hi]
      simp
  | cons c input ih =>
    rw [from64Loop, from64From]
    simp only [Nat.shiftRight_eq_div_pow, Nat.shiftLeft_eq]
    split_ifs
    · exact ih len i bits output
    · simp
    · rw [ih]
      simp [Nat.add_assoc, Nat.add_comm 1]
    · exact ih len (i + 6) _ output

theorem dmFrom64_eq (input : List ℕ) : dmFrom64 input = ((from64 input).length, from64 input ++ [0]) := by
  unfold dmFrom64
  rw [from64Loop_eq, Nat.zero_add, List.nil_append]
  rfl

/-! ## There and back -/

def bytes (data : List UInt8) : List ℕ := data.map UInt8.toNat

theorem bytes_lt (data : List UInt8) : ∀ x ∈ bytes data, x < 256 := by
  intro x hx
  obtain ⟨b, -, rfl⟩ := List.mem_map.mp hx
  exact b.toNat_lt

/-- The string in a buffer. -/
def cString (buffer : List ℕ) : List ℕ := buffer.takeWhile (· ≠ 0)

theorem cString_append_zero {text : List ℕ} (h : ∀ c ∈ text, c ≠ 0) (rest : List ℕ) : cString (text ++ 0 :: rest) = text := by
  unfold cString
  rw [List.takeWhile_append_of_pos (fun c hc => decide_eq_true (h c hc)), List.takeWhile_cons_of_neg (by simp),
    List.append_nil]

theorem cString_dmTo64 (data : List UInt8) : cString (dmTo64 (bytes data)) = to64 (bytes data) := by
  rw [dmTo64_eq (bytes_lt data)]
  exact cString_append_zero (fun c hc => by have := (mem_to64 _ (bytes_lt data) c hc).1; omega) []

/-- Blanks may stand around the groups of four characters. -/
theorem base64_round_trip (data : List UInt8) {text : List ℕ} (h : Spaced (quads (cString (dmTo64 (bytes data)))) text) :
    dmFrom64 text = (data.length, bytes data ++ [0]) := by
  rw [cString_dmTo64] at h
  have hback := from64_spaced (bytes_lt data) h
  rw [dmFrom64_eq, hback, bytes, List.length_map]

/-- Two bytes, with line ends and an indentation. -/
theorem base64_round_trip_two : dmFrom64 [10, 32, 89, 87, 73, 61, 10] = (2, [97, 98, 0]) := by
  have hblank : ∀ c ∈ [10, 32], Blank c := by
    simp [Blank]
  have htext : Spaced [[89, 87, 73, 61]] ([10, 32] ++ ([89, 87, 73, 61] ++ [10])) :=
    .cons hblank (.nil (by simp [Blank]))
  exact base64_round_trip [97, 98] htext

/-- A line as `serialize_element` prints it, with `XML_INDENT` for each level. -/
def printLine (indent : ℕ) (line : List ℕ) : List ℕ := List.replicate (4 * indent) 32 ++ (line ++ [10])

theorem spaced_printLine (indent : ℕ) (line : List ℕ) : Spaced (quads line) (printLine indent line) := by
  have hline := Spaced.flatten (quads line)
  rw [flatten_quads] at hline
  have hend : Spaced [] [10] := .nil (by simp [Blank])
  have hboth := hline.append hend
  rw [List.append_nil] at hboth
  exact hboth.blanks fun c hc => .inr (.inr (.inr (List.eq_of_mem_replicate hc)))

/-- The first `m` lines. -/
theorem spaced_lines {text : List ℕ} (htext : 4 ∣ text.length) (indent m : ℕ) : Spaced (quads (text.take (64 * m)))
    ((List.range m).flatMap fun k => printLine indent ((text.drop (64 * k)).take 64)) := by
  induction m with
  | zero => exact .nil (by simp)
  | succ m ih =>
    have htake : 4 ∣ (text.take (64 * m)).length := by
      rw [List.length_take]
      omega
    rw [Nat.mul_succ, List.take_add, quads_append htake, List.range_succ, List.flatMap_append, List.flatMap_singleton]
    exact ih.append (spaced_printLine indent _)

/-- The block of a saved document. -/
theorem base64Lines_round_trip (data : List UInt8) (indent : ℕ) :
    dmFrom64 ((base64Lines (bytes data)).flatMap (printLine indent)) = (data.length, bytes data ++ [0]) := by
  have hlen : (to64 (bytes data)).length = 4 * ((data.length + 2) / 3) := by
    rw [length_to64, bytes, List.length_map]
  have hbytes : (bytes data).length = data.length := List.length_map ..
  have hlines := spaced_lines (hlen ▸ Nat.dvd_mul_right 4 _) indent (((data.length + 3) * 4 / 3 + 63) / 64)
  rw [List.take_of_length_le (by omega)] at hlines
  rw [base64Lines, List.flatMap_map, hbytes, dmFrom64_eq, from64_spaced (bytes_lt data) hlines, hbytes]

/-! ## Sizes -/

/-- What the callers of `dm_to64` allocate for `len` bytes. -/
def size64 (len : ℕ) : ℕ := (len + 3) * 4 / 3

/-- What the callers of `dm_from64` allocate for a text of `len` characters. -/
def sizeFrom64 (len : ℕ) : ℕ := (len + 4) * 3 / 4

/-- The values of `i` in the loop of `serialize_element`. -/
def lineStarts (r : ℕ) : List ℕ := (List.range ((r + 63) / 64)).map (64 * ·)

theorem mem_lineStarts {r i : ℕ} : i ∈ lineStarts r ↔ i < r ∧ 64 ∣ i := by
  simp only [lineStarts, List.mem_map, List.mem_range]
  constructor
  · rintro ⟨k, hk, rfl⟩
    exact ⟨by omega, Nat.dvd_mul_right 64 k⟩
  · rintro ⟨hi, k, rfl⟩
    exact ⟨k, by omega, rfl⟩

/-- The lines of the saved document start there. -/
theorem base64Lines_eq (data : List UInt8) : base64Lines (bytes data) =
    (lineStarts (size64 data.length)).map fun i => (cString (dmTo64 (bytes data))).drop i |>.take 64 := by
  have hlen : (bytes data).length = data.length := List.length_map ..
  rw [cString_dmTo64, lineStarts, List.map_map, base64Lines, hlen]
  rfl

theorem length_dmTo64 (data : List UInt8) : (dmTo64 (bytes data)).length = 4 * ((data.length + 2) / 3) + 1 := by
  rw [dmTo64_eq (bytes_lt data), List.length_append, length_to64, bytes, List.length_map]
  rfl

theorem dmTo64_fits (data : List UInt8) : (dmTo64 (bytes data)).length ≤ size64 data.length := by
  rw [length_dmTo64, size64]
  omega

theorem dmFrom64_fits (text : List ℕ) : (dmFrom64 text).2.length ≤ sizeFrom64 text.length := by
  have h := length_from64From text (Nat.zero_le 8) 0
  rw [dmFrom64_eq, List.length_append, from64, sizeFrom64]
  simp only [List.length_cons, List.length_nil]
  omega

/-- The last line may be empty; it does not start behind the terminator. -/
theorem lineStarts_le {data : List UInt8} {i : ℕ} (hi : i ∈ lineStarts (size64 data.length)) :
    i ≤ (cString (dmTo64 (bytes data))).length := by
  obtain ⟨hlt, k, rfl⟩ := mem_lineStarts.mp hi
  rw [cString_dmTo64, length_to64, bytes, List.length_map]
  unfold size64 at hlt
  omega

/-- No call writes behind the end of what its caller allocates, whatever the text is, and every line starts inside the
string. -/
theorem base64_in_bounds : (∀ text, (dmFrom64 text).2.length ≤ sizeFrom64 text.length) ∧ ∀ data : List UInt8,
    (dmTo64 (bytes data)).length ≤ size64 data.length ∧
      ∀ i ∈ lineStarts (size64 data.length), i ≤ (cString (dmTo64 (bytes data))).length :=
  ⟨dmFrom64_fits, fun data => ⟨dmTo64_fits data, fun _ => lineStarts_le⟩⟩

end Mand.Binary
