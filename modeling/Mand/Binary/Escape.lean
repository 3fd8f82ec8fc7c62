import Mand.Save.Serialize
import Mand.Lib.Bytes

/-! # Escaped bytes

`dm_escape_string` and `dm_unescape_string` of `binary.c`. Every write and every read is checked against its allocation. -/
namespace Mand.Binary
open Mand.Bytes Mand.Save
set_option autoImplicit false

/-! ## The functions -/

/-- A new allocation. `junk` is what stands in memory that nothing was written to. -/
def malloc (junk : ℕ → UInt8) (n : ℕ) : Mem := (List.range n).map junk

def realloc (junk : ℕ → UInt8) (buf : Mem) (n : ℕ) : Mem := buf ++ (malloc junk n).drop buf.length

/-- The digits of `%03o`. -/
def octalDigits (c : UInt8) : List UInt8 := (octal3 c.toNat).map UInt8.ofNat

/-- The loop of `dm_escape_string`; `buf` is `space` bytes long. -/
def escapeLoop (junk : ℕ → UInt8) : List UInt8 → Mem → ℕ → Option Mem
  | [], buf, p => poke buf p [0]
  | c :: data, buf, p =>
    let buf := if buf.length < p + 5 then realloc junk buf (buf.length + 128) else buf
    if c ≤ 31 ∨ 127 ≤ c then do
      -- `sprintf` ends its text with a zero
      let buf ← poke buf p (92 :: octalDigits c ++ [0])
      escapeLoop junk data buf (p + (92 :: octalDigits c).length)
    else if c = 92 then do
      let buf ← poke buf p [92]
      let buf ← poke buf (p + 1) [c]
      escapeLoop junk data buf (p + 2)
    else do
      let buf ← poke buf p [c]
      escapeLoop junk data buf (p + 1)

def dmEscapeString (junk : ℕ → UInt8) (data : List UInt8) : Option Mem :=
  escapeLoop junk data (malloc junk (((data.length + 8) / 128 + 1) * 128)) 0

/-- The loop over the digits, `i` of which are left; false where it returns. -/
def octalLoop : ℕ → Mem → Mem → ℕ → Option (Bool × Mem)
  | 0, _, dst, _ => some (true, dst)
  | _ + 1, [], _, _ => none
  | i + 1, c :: str, dst, pos =>
    if c < 48 ∨ 57 < c then some (false, dst)
    else do
      let x ← dst[pos]?
      let dst ← poke dst pos [UInt8.ofNat (x.toNat + (c.toNat - 48) <<< (i * 3))]
      octalLoop i str dst pos

/-- The loop of `dm_unescape_string` and what follows it. `str` is the memory from the string on; the result is what
is returned, `*len` and the destination. -/
def unescapeLoop : Mem → Mem → ℕ → ℕ → Option (ℤ × ℕ × Mem)
  | [], _, _, _ => none
  | c :: str, dst, pos, len =>
    if c ≠ 0 ∧ pos < len then
      if c ≠ 92 then do
        let dst ← poke dst pos [c]
        unescapeLoop str dst (pos + 1) len
      else if str.head? = some 92 then do
        let dst ← poke dst pos [92]
        unescapeLoop str.tail dst (pos + 1) len
      else do
        let dst ← poke dst pos [0]
        let r ← octalLoop 3 str dst pos
        if r.1 = true then unescapeLoop (str.drop 3) r.2 (pos + 1) len else some (-1, 0, r.2)
    else do
      let dst ← poke dst pos [0]
      some (0, pos, dst)
termination_by str => str.length
decreasing_by all_goals simp only [List.length_cons, List.length_tail, List.length_drop]; omega

def dmUnescapeString (str dst : Mem) (len : ℕ) : Option (ℤ × ℕ × Mem) := unescapeLoop str dst 0 len

/-! ## One byte -/

/-- What is written for a byte. -/
def escapeByte (c : UInt8) : List UInt8 :=
  if c ≤ 31 ∨ 127 ≤ c then 92 :: octalDigits c else if c = 92 then [92, 92] else [c]

theorem octal3_byte : ∀ n < 256, octal3 n = [48 + n / 64, 48 + n / 8 % 8, 48 + n % 8] := by decide +kernel

theorem octalDigits_eq (c : UInt8) : octalDigits c =
    [UInt8.ofNat (48 + c.toNat / 64), UInt8.ofNat (48 + c.toNat / 8 % 8), UInt8.ofNat (48 + c.toNat % 8)] := by
  rw [octalDigits, octal3_byte _ c.toNat_lt]
  rfl

theorem length_octalDigits (c : UInt8) : (octalDigits c).length = 3 := by
  rw [octalDigits_eq]
  rfl

/-- A character that can be printed. -/
def Printable (c : UInt8) : Prop := 32 ≤ c ∧ c ≤ 126

instance (c : UInt8) : Decidable (Printable c) := inferInstanceAs (Decidable (_ ∧ _))

theorem printable_digit {n : ℕ} (hn : n < 8) : Printable (UInt8.ofNat (48 + n)) := by
  have hval : (UInt8.ofNat (48 + n)).toNat = 48 + n := UInt8.toNat_ofNat_of_lt' (by unfold UInt8.size; omega)
  rw [Printable, UInt8.le_iff_toNat_le, UInt8.le_iff_toNat_le, hval]
  exact ⟨by simp; omega, by simp; omega⟩

theorem printable_escapeByte (c : UInt8) : ∀ d ∈ escapeByte c, Printable d := by
  have hslash : Printable 92 := by decide
  have hc := c.toNat_lt
  unfold escapeByte
  split_ifs with hoctal hc92
  · rw [octalDigits_eq]
    simp only [List.forall_mem_cons]
    exact ⟨hslash, printable_digit (by omega), printable_digit (by omega), printable_digit (by omega), by simp⟩
  · simp only [List.forall_mem_cons]
    exact ⟨hslash, hslash, by simp⟩
  · simp only [List.forall_mem_cons]
    refine ⟨⟨?_, ?_⟩, by simp⟩ <;> simp only [UInt8.le_iff_toNat_le, UInt8.reduceToNat] at hoctal ⊢ <;> omega

theorem malloc_length (junk : ℕ → UInt8) (n : ℕ) : (malloc junk n).length = n := by
  rw [malloc, List.length_map, List.length_range]

theorem realloc_append (junk : ℕ → UInt8) (buf : Mem) (k : ℕ) : ∃ more : Mem, more.length = k ∧
    realloc junk buf (buf.length + k) = buf ++ more := by
  refine ⟨_, ?_, rfl⟩
  rw [List.length_drop, malloc_length, Nat.add_sub_cancel_left]

/-- The test for the space leaves room for an escape and the zero behind it. -/
theorem escapeLoop_cons (junk : ℕ → UInt8) (c : UInt8) (data pre post : List UInt8) (hpost : 0 < post.length) :
    ∃ post', 0 < post'.length ∧ escapeLoop junk (c :: data) (pre ++ post) pre.length =
      escapeLoop junk data (pre ++ escapeByte c ++ post') (pre ++ escapeByte c).length := by
  have hroom : ∃ post1 : List UInt8, 5 ≤ post1.length ∧
      (if (pre ++ post).length < pre.length + 5 then realloc junk (pre ++ post) ((pre ++ post).length + 128)
        else pre ++ post) = pre ++ post1 := by
    split_ifs with hshort
    · obtain ⟨more, hlen, hmore⟩ := realloc_append junk (pre ++ post) 128
      exact ⟨post ++ more, by simp; omega, by rw [hmore, List.append_assoc]⟩
    · rw [List.length_append] at hshort
      exact ⟨post, by omega, rfl⟩
  obtain ⟨post1, hlen, hbuf⟩ := hroom
  rw [escapeLoop, hbuf, escapeByte]
  split_ifs with hoctal hslash
  · have hdigits := length_octalDigits c
    refine ⟨0 :: post1.drop 5, by simp, ?_⟩
    rw [poke_ahead _ _ _ (by simp; omega)]
    simp [hdigits]
  · refine ⟨(post1.drop 1).drop 1, by simp; omega, ?_⟩
    have hsecond := poke_ahead (pre ++ [92]) (post1.drop 1) [c] (by simp; omega)
    rw [poke_ahead _ _ _ (by simp; omega)]
    simp only [List.length_append, List.length_cons, List.length_nil, Nat.zero_add] at hsecond ⊢
    rw [Option.bind_eq_bind, Option.bind_some, hsecond, hslash]
    simp
  · refine ⟨post1.drop 1, by simp; omega, ?_⟩
    rw [poke_ahead _ _ _ (by simp; omega)]
    simp

/-- The whole text, a zero and what is left of the buffer. -/
theorem escapeLoop_text (junk : ℕ → UInt8) (data pre post : List UInt8) (hpost : 0 < post.length) :
    ∃ rest, escapeLoop junk data (pre ++ post) pre.length = some (pre ++ data.flatMap escapeByte ++ 0 :: rest) := by
  induction data generalizing pre post with
  | nil =>
    refine ⟨post.drop 1, ?_⟩
    rw [escapeLoop, poke_ahead pre post [0] hpost]
    simp
  | cons c data ih =>
    obtain ⟨post', hpost', hstep⟩ := escapeLoop_cons junk c data pre post hpost
    obtain ⟨rest, hrest⟩ := ih (pre ++ escapeByte c) post' hpost'
    exact ⟨rest, by rw [hstep, hrest, List.flatMap_cons, List.append_assoc pre]⟩

theorem dmEscapeString_text (junk : ℕ → UInt8) (data : List UInt8) :
    ∃ rest, dmEscapeString junk data = some (data.flatMap escapeByte ++ 0 :: rest) := by
  have hpos : 0 < (malloc junk (((data.length + 8) / 128 + 1) * 128)).length := by
    rw [malloc_length]
    omega
  exact escapeLoop_text junk data [] _ hpos

/-! ## Reading it -/

theorem octalLoop_digit {n : ℕ} (hn : n < 8) (i : ℕ) (str pre post : List UInt8) (x : UInt8) :
    octalLoop (i + 1) (UInt8.ofNat (48 + n) :: str) (pre ++ x :: post) pre.length =
      octalLoop i str (pre ++ UInt8.ofNat (x.toNat + n <<< (i * 3)) :: post) pre.length := by
  have hval : (UInt8.ofNat (48 + n)).toNat = 48 + n := UInt8.toNat_ofNat_of_lt' (by unfold UInt8.size; omega)
  have hdigit : ¬(UInt8.ofNat (48 + n) < 48 ∨ 57 < UInt8.ofNat (48 + n)) := by
    simp only [UInt8.lt_iff_toNat_lt, hval, UInt8.reduceToNat]
    omega
  have hget : (pre ++ x :: post)[pre.length]? = some x := by simp
  rw [octalLoop, if_neg hdigit, hget, hval, Nat.add_sub_cancel_left, Option.bind_eq_bind, Option.bind_some,
    poke_ahead pre (x :: post) [_] (by simp)]
  simp

theorem octalLoop_digits (c : UInt8) (str pre post : List UInt8) :
    octalLoop 3 (octalDigits c ++ str) (pre ++ 0 :: post) pre.length = some (true, pre ++ c :: post) := by
  have hc := c.toNat_lt
  have hsum : UInt8.ofNat ((UInt8.ofNat ((UInt8.ofNat ((0 : UInt8).toNat + (c.toNat / 64) <<< (2 * 3))).toNat +
      (c.toNat / 8 % 8) <<< (1 * 3))).toNat + (c.toNat % 8) <<< (0 * 3)) = c := by
    refine UInt8.toNat_inj.mp ?_
    simp only [UInt8.toNat_ofNat', Nat.shiftLeft_eq, Nat.reduceMul, Nat.reducePow, UInt8.reduceToNat]
    omega
  rw [octalDigits_eq]
  simp only [List.cons_append, List.nil_append]
  rw [octalLoop_digit (by omega), octalLoop_digit (by omega), octalLoop_digit (by omega), hsum, octalLoop]

theorem unescapeLoop_escapeByte (c : UInt8) (str pre post : List UInt8) {len : ℕ} (hlen : pre.length < len)
    (hpost : 0 < post.length) : unescapeLoop (escapeByte c ++ str) (pre ++ post) pre.length len =
      unescapeLoop str (pre ++ [c] ++ post.drop 1) (pre ++ [c]).length len := by
  have hdigits := length_octalDigits c
  unfold escapeByte
  split_ifs with hoctal hslash
  · have hval : (UInt8.ofNat (48 + c.toNat / 64)).toNat = 48 + c.toNat / 64 :=
      UInt8.toNat_ofNat_of_lt' (by have := c.toNat_lt; unfold UInt8.size; omega)
    have hhead : (octalDigits c ++ str).head? ≠ some 92 := by
      rw [octalDigits_eq, List.cons_append, List.head?_cons, Ne, Option.some.injEq]
      intro h
      rw [h] at hval
      simp only [UInt8.reduceToNat] at hval
      have := c.toNat_lt
      omega
    rw [List.cons_append, unescapeLoop, if_pos ⟨by decide, hlen⟩, if_neg (by decide), if_neg hhead,
      poke_ahead pre post [0] hpost, List.append_assoc pre, Option.bind_eq_bind, Option.bind_some, List.singleton_append,
      octalLoop_digits, Option.bind_eq_bind, Option.bind_some, if_pos rfl]
    simp [hdigits]
  · have hhead : ([92] ++ str).head? = some 92 := rfl
    rw [List.cons_append, unescapeLoop, if_pos ⟨by decide, hlen⟩, if_neg (by decide), if_pos hhead,
      poke_ahead pre post [92] hpost, hslash]
    simp
  · have hzero : c ≠ 0 := by
      rintro rfl
      exact hoctal (.inl (by decide))
    rw [List.singleton_append, unescapeLoop, if_pos ⟨hzero, hlen⟩, if_pos hslash, poke_ahead pre post [c] hpost]
    simp

theorem unescapeLoop_text (data rest pre post : List UInt8) {len : ℕ} (hlen : pre.length + data.length ≤ len)
    (hpost : data.length < post.length) :
    unescapeLoop (data.flatMap escapeByte ++ 0 :: rest) (pre ++ post) pre.length len =
      some (0, pre.length + data.length, pre ++ data ++ 0 :: post.drop (data.length + 1)) := by
  induction data generalizing pre post with
  | nil =>
    rw [List.flatMap_nil, List.nil_append, unescapeLoop, if_neg (by simp), poke_ahead pre post [0] hpost]
    simp
  | cons c data ih =>
    rw [List.length_cons] at hlen hpost
    rw [List.flatMap_cons, List.append_assoc, unescapeLoop_escapeByte c _ _ _ (by omega) (by omega),
      ih (pre ++ [c]) (post.drop 1) (by simp; omega) (by simp; omega)]
    simp [Nat.add_assoc, Nat.add_comm 1]

theorem mem_escape {data : List UInt8} {d : UInt8} (h : d ∈ data.flatMap escapeByte) : Printable d := by
  obtain ⟨c, -, hd⟩ := List.mem_flatMap.mp h
  exact printable_escapeByte c d hd

/-- The text stands in its buffer with a zero behind it, and it is read back from there into any destination of
`limit + 1` bytes that is large enough. -/
theorem escape_round_trip (junk : ℕ → UInt8) (data : List UInt8) : ∃ text rest, (∀ c ∈ text, Printable c) ∧
    dmEscapeString junk data = some (text ++ 0 :: rest) ∧
      ∀ (limit : ℕ) (dst : Mem), data.length ≤ limit → dst.length = limit + 1 →
        dmUnescapeString (text ++ 0 :: rest) dst limit = some (0, data.length, data ++ 0 :: dst.drop (data.length + 1)) := by
  obtain ⟨rest, hrest⟩ := dmEscapeString_text junk data
  refine ⟨data.flatMap escapeByte, rest, fun c hc => mem_escape hc, hrest, ?_⟩
  intro limit dst hlimit hdst
  have h := unescapeLoop_text data rest [] dst (by simpa using hlimit) (by omega)
  rw [List.length_nil, Nat.zero_add] at h
  exact h

end Mand.Binary
