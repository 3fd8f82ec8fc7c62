import Mathlib.Data.List.Basic
import Mathlib.Tactic.Ring

/-! # Byte buffers and big-endian words

A buffer is the list of the bytes of one allocation. `poke` and `peek` fail when they leave the
allocation, so a computation that succeeds has stayed inside it. `be` and `ofBe` are the network
byte order of unsigned words of any width. -/
namespace Mand.Bytes
set_option autoImplicit false

/-- The bytes of one allocation. -/
abbrev Mem := List UInt8

/-! ## Big-endian words -/

/-- The `w` low bytes of `n`, most significant first. -/
def be : ℕ → ℕ → List UInt8
  | 0, _ => []
  | w + 1, n => UInt8.ofNat (n / 256 ^ w) :: be w n

/-- The number a byte string stands for, most significant byte first. -/
def ofBe (bs : List UInt8) : ℕ := bs.foldl (fun a b => a * 256 + b.toNat) 0

@[simp] theorem be_length (w n : ℕ) : (be w n).length = w := by
  induction w with
  | zero => rfl
  | succ w ih => simp [be, ih]

theorem ofBe_foldl (bs : List UInt8) (a : ℕ) :
    bs.foldl (fun a b => a * 256 + b.toNat) a = a * 256 ^ bs.length + ofBe bs := by
  induction bs generalizing a with
  | nil => simp [ofBe]
  | cons b bs ih =>
    have h0 : ofBe (b :: bs) = (0 * 256 + b.toNat) * 256 ^ bs.length + ofBe bs := by
      unfold ofBe
      rw [List.foldl_cons]
      exact ih (0 * 256 + b.toNat)
    rw [List.foldl_cons, ih, h0, List.length_cons, pow_succ]
    ring

theorem ofBe_cons (b : UInt8) (bs : List UInt8) :
    ofBe (b :: bs) = b.toNat * 256 ^ bs.length + ofBe bs := by
  have h := ofBe_foldl bs (0 * 256 + b.toNat)
  simpa [ofBe] using h

theorem ofBe_lt (bs : List UInt8) : ofBe bs < 256 ^ bs.length := by
  induction bs with
  | nil => decide
  | cons b bs ih =>
    have hb := b.toNat_lt
    have hmul : b.toNat * 256 ^ bs.length ≤ 255 * 256 ^ bs.length := Nat.mul_le_mul_right _ (by omega)
    rw [ofBe_cons, List.length_cons, pow_succ]
    omega

/-- Reading back a written word gives the word, reduced to its width. -/
theorem ofBe_be (w n : ℕ) : ofBe (be w n) = n % 256 ^ w := by
  induction w with
  | zero => simp [be, ofBe, Nat.mod_one]
  | succ w ih =>
    have hbyte : (UInt8.ofNat (n / 256 ^ w)).toNat = n / 256 ^ w % 256 := by simp
    have hsplit : n % (256 ^ w * 256) = n % 256 ^ w + 256 ^ w * (n / 256 ^ w % 256) :=
      Nat.mod_mul
    have hpow : 256 ^ (w + 1) = 256 ^ w * 256 := pow_succ 256 w
    rw [be, ofBe_cons, be_length, ih, hbyte, hpow, hsplit]
    ring

theorem ofBe_be_of_lt (w n : ℕ) (h : n < 256 ^ w) : ofBe (be w n) = n := by
  rw [ofBe_be, Nat.mod_eq_of_lt h]

/-! ## Reading and writing inside an allocation -/

/-- The buffer after `bs` has been written at `pos`, if the write stays inside. -/
def poke (m : Mem) (pos : ℕ) (bs : List UInt8) : Option Mem :=
  if pos + bs.length ≤ m.length then some (m.take pos ++ bs ++ m.drop (pos + bs.length)) else none

/-- The `n` bytes at `pos`, if they are inside. -/
def peek (m : Mem) (pos n : ℕ) : Option (List UInt8) :=
  if pos + n ≤ m.length then some ((m.drop pos).take n) else none

/-- A write over a known middle part of a buffer. -/
theorem poke_middle (m pre old post bs : List UInt8) (pos : ℕ) (hm : m = pre ++ old ++ post)
    (hpos : pos = pre.length) (h : bs.length = old.length) :
    poke m pos bs = some (pre ++ bs ++ post) := by
  subst hm hpos
  have hle : pre.length + bs.length ≤ (pre ++ old ++ post).length := by
    simp only [List.length_append]
    omega
  have hdrop : (pre ++ old ++ post).drop (pre.length + bs.length) = post := by
    rw [h, ← List.length_append, List.drop_left]
  have htake : (pre ++ old ++ post).take pre.length = pre := by
    rw [List.append_assoc, List.take_left]
  rw [poke, if_pos hle, hdrop, htake]

/-- A write behind a known front part. -/
theorem poke_ahead (pre rest bs : List UInt8) (h : bs.length ≤ rest.length) :
    poke (pre ++ rest) pre.length bs = some (pre ++ bs ++ rest.drop bs.length) := by
  have hsplit : pre ++ rest = pre ++ rest.take bs.length ++ rest.drop bs.length := by
    rw [List.append_assoc, List.take_append_drop]
  exact poke_middle _ pre (rest.take bs.length) _ bs _ hsplit rfl (by rw [List.length_take]; omega)

/-- A write over the zeros behind a known front part. -/
theorem poke_zeros (pre bs : List UInt8) (n pos : ℕ) (hpos : pos = pre.length)
    (h : bs.length ≤ n) :
    poke (pre ++ List.replicate n 0) pos bs =
      some (pre ++ bs ++ List.replicate (n - bs.length) 0) := by
  have hsplit : pre ++ List.replicate n (0 : UInt8) =
      pre ++ List.replicate bs.length 0 ++ List.replicate (n - bs.length) 0 := by
    rw [List.append_assoc, List.replicate_append_replicate, Nat.add_sub_cancel' h]
  exact poke_middle _ pre (List.replicate bs.length 0) _ bs pos hsplit hpos (by simp)

/-- Zeros behind a front part may be counted to the front part. -/
theorem append_zeros_split (pre : List UInt8) (n k : ℕ) (h : k ≤ n) :
    pre ++ List.replicate n (0 : UInt8) =
      (pre ++ List.replicate k 0) ++ List.replicate (n - k) 0 := by
  rw [List.append_assoc, List.replicate_append_replicate, Nat.add_sub_cancel' h]

theorem peek_eq_some {m bs : List UInt8} {pos n : ℕ} (h : peek m pos n = some bs) :
    pos + n ≤ m.length ∧ bs = (m.drop pos).take n ∧ bs.length = n := by
  unfold peek at h
  split at h
  · cases h
    refine ⟨‹_›, rfl, ?_⟩
    rw [List.length_take, List.length_drop]
    omega
  · cases h

theorem peek_some (m : Mem) (pos n : ℕ) (h : pos + n ≤ m.length) : peek m pos n = some ((m.drop pos).take n) :=
  if_pos h

theorem peek_middle (m pre mid post : List UInt8) (pos n : ℕ) (hm : m = pre ++ mid ++ post)
    (hpos : pos = pre.length) (hn : n = mid.length) : peek m pos n = some mid := by
  subst hm hpos hn
  have hle : pre.length + mid.length ≤ (pre ++ mid ++ post).length := by
    simp only [List.length_append]
    omega
  rw [peek, if_pos hle, List.append_assoc, List.drop_left, List.take_left]

theorem poke_length {m m' bs : List UInt8} {pos : ℕ} (h : poke m pos bs = some m') :
    pos + bs.length ≤ m.length ∧ m'.length = m.length := by
  unfold poke at h
  split at h
  · cases h
    refine ⟨‹_›, ?_⟩
    simp only [List.length_append, List.length_take, List.length_drop]
    omega
  · cases h

theorem poke_some (m bs : List UInt8) (pos : ℕ) (h : pos + bs.length ≤ m.length) :
    poke m pos bs = some (m.take pos ++ bs ++ m.drop (pos + bs.length)) := if_pos h

/-- A write changes nothing in front of it and behind it. -/
theorem getElem?_poke {m m' bs : List UInt8} {pos k : ℕ} (h : poke m pos bs = some m')
    (hd : k < pos ∨ pos + bs.length ≤ k) : m'[k]? = m[k]? := by
  obtain ⟨hle, -⟩ := poke_length h
  rw [poke_some m bs pos hle] at h
  cases h
  rcases hd with hd | hd
  · rw [List.append_assoc, List.getElem?_append_left (by rw [List.length_take]; omega),
      List.getElem?_take_of_lt (by omega)]
  · rw [List.getElem?_append_right (by rw [List.length_append, List.length_take]; omega), List.getElem?_drop,
      List.length_append, List.length_take]
    congr 1
    omega

theorem peek_iff {m bs : List UInt8} {pos n : ℕ} (hn : 0 < n) :
    peek m pos n = some bs ↔ bs.length = n ∧ ∀ i < n, m[pos + i]? = bs[i]? := by
  constructor
  · intro h
    obtain ⟨-, rfl, hlen⟩ := peek_eq_some h
    refine ⟨hlen, ?_⟩
    intro i hi
    rw [List.getElem?_take_of_lt hi, List.getElem?_drop]
  · intro ⟨hlen, hget⟩
    have hn1 : n - 1 < bs.length := by omega
    have hlast := (hget (n - 1) (by omega)).trans (List.getElem?_eq_getElem hn1)
    obtain ⟨hlt, -⟩ := List.getElem?_eq_some_iff.mp hlast
    rw [peek_some m pos n (by omega)]
    congr 1
    refine List.ext_getElem? fun i => ?_
    by_cases hi : i < n
    · rw [List.getElem?_take_of_lt hi, List.getElem?_drop, hget i hi]
    · rw [List.getElem?_take_eq_none (by omega), List.getElem?_eq_none (by omega)]

/-- What is read depends on these bytes only. -/
theorem peek_keep {m m' bs : List UInt8} {pos n : ℕ} (hn : 0 < n) (h : peek m pos n = some bs)
    (hkeep : ∀ k, pos ≤ k → k < pos + n → m'[k]? = m[k]?) : peek m' pos n = some bs := by
  obtain ⟨hlen, hget⟩ := (peek_iff hn).mp h
  refine (peek_iff hn).mpr ⟨hlen, ?_⟩
  intro i hi
  rw [hkeep (pos + i) (by omega) (by omega), hget i hi]

theorem peek_poke {m m' bs : List UInt8} {pos k n : ℕ} (h : poke m pos bs = some m')
    (hd : k + n ≤ pos ∨ pos + bs.length ≤ k) : peek m' k n = peek m k n := by
  obtain ⟨-, hlen⟩ := poke_length h
  have hget : (m'.drop k).take n = (m.drop k).take n := by
    refine List.ext_getElem? fun i => ?_
    by_cases hi : i < n
    · rw [List.getElem?_take_of_lt hi, List.getElem?_take_of_lt hi, List.getElem?_drop, List.getElem?_drop,
        getElem?_poke h (by omega)]
    · rw [List.getElem?_take_eq_none (by omega), List.getElem?_take_eq_none (by omega)]
  rw [peek, peek, hlen, hget]

/-- The bytes that were written. -/
theorem peek_poke_self {m m' bs : List UInt8} {pos : ℕ} (h : poke m pos bs = some m') :
    peek m' pos bs.length = some bs := by
  obtain ⟨hle, -⟩ := poke_length h
  rw [poke_some m bs pos hle] at h
  cases h
  refine peek_middle _ (m.take pos) bs (m.drop (pos + bs.length)) pos _ rfl ?_ rfl
  rw [List.length_take]
  omega

/-- A write into the part in front of the zeros. -/
theorem poke_front (pre bs : List UInt8) (n pos : ℕ) (h : pos + bs.length ≤ pre.length) :
    ∃ pre', poke (pre ++ List.replicate n 0) pos bs = some (pre' ++ List.replicate n 0) ∧
      poke pre pos bs = some pre' ∧ pre'.length = pre.length := by
  have hp := poke_some pre bs pos h
  refine ⟨_, ?_, hp, (poke_length hp).2⟩
  rw [poke_some _ bs pos (by rw [List.length_append]; omega), List.take_append_of_le_length (by omega),
    List.drop_append_of_le_length h, List.append_assoc (_ ++ bs)]

end Mand.Bytes
