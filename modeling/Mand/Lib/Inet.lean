import Mand.Lib.Decimal
import Mathlib.Data.List.Basic

/-! # Addresses as text

`inet_ntop` and `inet_pton` for IPv4. An address is four octets, text is bytes. -/
namespace Mand.Inet
open Mand.Decimal
set_option autoImplicit false

def dot : ℕ := 46

/-- `inet_ntop(AF_INET, ..)`. -/
def ntop4 (octets : List ℕ) : List ℕ := [dot].intercalate (octets.map decimal)

/-- The loop of `inet_pton(AF_INET, ..)`: the finished octets and the one that is being read. An octet
has no leading zero. -/
def pton4From : List ℕ → List ℕ → Option ℕ → Option (List ℕ)
  | [], done, cur =>
    match cur with
    | some n => if done.length = 3 then some (done ++ [n]) else none
    | none => none
  | ch :: rest, done, cur =>
    if 48 ≤ ch ∧ ch ≤ 57 then
      match cur with
      | some n =>
        if n = 0 ∨ 255 < 10 * n + (ch - 48) then none
        else pton4From rest done (some (10 * n + (ch - 48)))
      | none => pton4From rest done (some (ch - 48))
    else if ch = dot then
      match cur with
      | some n => if done.length = 3 then none else pton4From rest (done ++ [n]) none
      | none => none
    else none

def pton4 (text : List ℕ) : Option (List ℕ) := pton4From text [] none

/-- `ntohl` of an address, and back. -/
def toHost (octets : List ℕ) : ℕ := octets.foldl (fun n o => 256 * n + o) 0

def ofHost (n : ℕ) : List ℕ := [n / 2 ^ 24 % 256, n / 2 ^ 16 % 256, n / 2 ^ 8 % 256, n % 256]

/-- `ffs`: the number of the lowest bit that is set, counted from one. -/
def ffs (n : ℕ) : ℕ := (((List.range 32).find? fun i => n.testBit i).map (· + 1)).getD 0

/-- The mask whose first `k` bits are set. -/
def leadingOnes (k : ℕ) : ℕ := 2 ^ 32 - 2 ^ (32 - k)

/-! ## There and back -/

theorem decimal_byte : ∀ n < 256, decimal n = if n < 10 then [48 + n] else if n < 100 then [48 + n / 10, 48 + n % 10]
    else [48 + n / 100, 48 + n / 10 % 10, 48 + n % 10] := by decide +kernel

theorem pton4From_first {d : ℕ} (hd : d < 10) (rest done : List ℕ) :
    pton4From ((48 + d) :: rest) done none = pton4From rest done (some d) := by
  rw [pton4From, if_pos (by omega), Nat.add_sub_cancel_left]

theorem pton4From_next {d n : ℕ} (hd : d < 10) (hn : n ≠ 0) (hle : 10 * n + d ≤ 255) (rest done : List ℕ) :
    pton4From ((48 + d) :: rest) done (some n) = pton4From rest done (some (10 * n + d)) := by
  rw [pton4From, if_pos (by omega), Nat.add_sub_cancel_left]
  exact if_neg (by omega)

theorem pton4From_decimal {n : ℕ} (hn : n < 256) (rest done : List ℕ) :
    pton4From (decimal n ++ rest) done none = pton4From rest done (some n) := by
  rw [decimal_byte n hn]
  split_ifs with h10 h100
  · exact pton4From_first h10 rest done
  · have hval : 10 * (n / 10) + n % 10 = n := by omega
    rw [List.cons_append, List.singleton_append, pton4From_first (by omega), pton4From_next (by omega) (by omega) (by omega),
      hval]
  · have hval : 10 * (10 * (n / 100) + n / 10 % 10) + n % 10 = n := by omega
    rw [List.cons_append, List.cons_append, List.singleton_append, pton4From_first (by omega),
      pton4From_next (by omega) (by omega) (by omega), pton4From_next (by omega) (by omega) (by omega), hval]

theorem pton4From_dot {n : ℕ} {done : List ℕ} (h : done.length ≠ 3) (rest : List ℕ) :
    pton4From (dot :: rest) done (some n) = pton4From rest (done ++ [n]) none := by
  rw [pton4From, if_neg (by decide), if_pos rfl]
  exact if_neg h

theorem pton4_ntop4 {a b c d : ℕ} (ha : a < 256) (hb : b < 256) (hc : c < 256) (hd : d < 256) :
    pton4 (ntop4 [a, b, c, d]) = some [a, b, c, d] := by
  have htext : ntop4 [a, b, c, d] = decimal a ++ dot :: (decimal b ++ dot :: (decimal c ++ dot :: (decimal d ++ []))) := by
    simp [ntop4, List.intercalate_cons_cons]
  rw [htext, pton4, pton4From_decimal ha, pton4From_dot (by simp), pton4From_decimal hb, pton4From_dot (by simp),
    pton4From_decimal hc, pton4From_dot (by simp), pton4From_decimal hd]
  rfl

theorem pton4_ofHost (m : ℕ) : pton4 (ntop4 (ofHost m)) = some (ofHost m) :=
  pton4_ntop4 (Nat.mod_lt _ (by decide)) (Nat.mod_lt _ (by decide)) (Nat.mod_lt _ (by decide)) (Nat.mod_lt _ (by decide))

theorem toHost_ofHost (m : ℕ) : toHost (ofHost m) = m % 2 ^ 32 := by
  simp only [toHost, ofHost, List.foldl_cons, List.foldl_nil, Nat.reducePow]
  omega

/-- Two addresses have different texts. -/
theorem ntop4_inj {m n : ℕ} (h : ntop4 (ofHost m) = ntop4 (ofHost n)) : m % 2 ^ 32 = n % 2 ^ 32 := by
  have hsome := congrArg pton4 h
  rw [pton4_ofHost, pton4_ofHost, Option.some.injEq] at hsome
  rw [← toHost_ofHost, hsome, toHost_ofHost]

/-! ## Masks -/

theorem leadingOnes_lt (k : ℕ) : leadingOnes k < 2 ^ 32 := by
  have hpos := Nat.two_pow_pos (32 - k)
  unfold leadingOnes
  omega

theorem ffs_leadingOnes : ∀ k ≤ 32, 1 ≤ k → ffs (leadingOnes k) = 33 - k := by decide +kernel

theorem ffs_le (n : ℕ) : ffs n ≤ 32 := by
  unfold ffs
  cases h : (List.range 32).find? fun i => n.testBit i with
  | none => decide
  | some i =>
    have hi := List.mem_range.mp (List.mem_of_find?_eq_some h)
    exact hi

end Mand.Inet
