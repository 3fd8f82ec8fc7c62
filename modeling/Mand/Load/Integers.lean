import Mand.Load.Convert
import Mand.Rpc.TextTrip

/-! # Integer strings

What `dm_string2value` accepts for the four integer types, against the numbers that they hold. -/
namespace Mand.Load
open Mand.Store Mand.Save Mand.Index Mand.Rpc Mand.Scan Mand.Server
set_option autoImplicit false

/-- The numbers of an integer type. -/
def InRange : DmType → ℤ → Prop
  | .int, n => -2 ^ 31 ≤ n ∧ n < 2 ^ 31
  | .uint, n => 0 ≤ n ∧ n < 2 ^ 32
  | .int64, n => -2 ^ 63 ≤ n ∧ n < 2 ^ 63
  | .uint64, n => 0 ≤ n ∧ n < 2 ^ 64
  | _, _ => False

def integerOf : DmType → ℤ → Value
  | .uint, n => .uint n.toNat
  | .int64, n => .int64 n
  | .uint64, n => .uint64 n.toNat
  | _, n => .int n

/-- The text is an integer of the type. -/
def Represents (type : DmType) (s : List ℕ) (n : ℤ) : Prop := Numeral s n ∧ InRange type n

variable (D : DecodeEnv) (L : Libc) (memcmp : List ℕ → List ℕ → ℤ) (e : DmElement)

/-- The whole of an empty text or of a numeral is taken, and of no other text. -/
theorem convert_integer (he : e.type = .int ∨ e.type = .uint ∨ e.type = .int64 ∨ e.type = .uint64) (s : List ℕ) (old : Value) :
    ∃ new, ((s = [] ∨ ∃ n, Numeral s n) → convert D L memcmp e s old = ⟨.ok, old ≠ new, new⟩) ∧
      (¬(s = [] ∨ ∃ n, Numeral s n) → convert D L memcmp e s old = ⟨.invalidValue, false, old⟩) ∧
      ∀ n, Represents e.type s n → new = integerOf e.type n := by
  have hwhole {α : Type} (r : α × List ℕ) (value : α → Value) (hr : r.2 = [] ↔ s = [] ∨ ∃ n, Numeral s n)
      (hconv : convert D L memcmp e s old = compared old (wholeText .invalidValue r value))
      (hval : ∀ n, Represents e.type s n → value r.1 = integerOf e.type n) :
      ∃ new, ((s = [] ∨ ∃ n, Numeral s n) → convert D L memcmp e s old = ⟨.ok, old ≠ new, new⟩) ∧
        (¬(s = [] ∨ ∃ n, Numeral s n) → convert D L memcmp e s old = ⟨.invalidValue, false, old⟩) ∧
        ∀ n, Represents e.type s n → new = integerOf e.type n := by
    refine ⟨value r.1, ?_, ?_, hval⟩
    · intro h
      rw [hconv, wholeText, if_pos (hr.mpr h)]
      rfl
    · intro h
      rw [hconv, wholeText, if_neg (mt hr.mp h)]
      rfl
  rcases he with ht | ht | ht | ht
  · refine hwhole (strtol s) (fun n => .int (n.bmod (2 ^ 32))) (strtol_whole s) (by simp only [convert, ht]) ?_
    rw [ht]
    rintro n ⟨hn, hlow, hhigh⟩
    have hmax : max (-2 ^ 63) (min n (2 ^ 63 - 1)) = n := by omega
    rw [strtol_numeral hn]
    simp only [hmax, integerOf]
    rw [Int.bmod_eq_of_le_mul_two (by omega) (by omega)]
  · refine hwhole (strtoul s) (fun n => .uint (n % 2 ^ 32)) (strtoul_whole s) (by simp only [convert, ht]) ?_
    rw [ht]
    rintro n ⟨hn, hlow, hhigh⟩
    rw [strtoul_numeral hn, if_neg (by omega)]
    simp only [integerOf, Value.uint.injEq]
    omega
  · refine hwhole (strtol s) .int64 (strtol_whole s) (by simp only [convert, ht]) ?_
    rw [ht]
    rintro n ⟨hn, hlow, hhigh⟩
    have hmax : max (-2 ^ 63) (min n (2 ^ 63 - 1)) = n := by omega
    rw [strtol_numeral hn]
    simp only [hmax, integerOf]
  · refine hwhole (strtoul s) .uint64 (strtoul_whole s) (by simp only [convert, ht]) ?_
    rw [ht]
    rintro n ⟨hn, hlow, hhigh⟩
    rw [strtoul_numeral hn, if_neg (by omega)]
    simp only [integerOf, Value.uint64.injEq]
    omega

/-- A text is converted as it should be: accepted exactly if it is an integer of the type, which is then stored, and
else the value stays. -/
def Exact (type : DmType) (s : List ℕ) (v : DmValue) (r : DmResult × DmValue) : Prop :=
  (r.1 = .ok ↔ ∃ n, Represents type s n) ∧
    (∀ n, Represents type s n → r.2.content = .scalar (integerOf type n)) ∧
    ((¬∃ n, Represents type s n) → r.2.content = v.content)

/-- The texts that are converted as they should be: all but the empty one and integers that are out of range. -/
theorem integer_string_iff (he : e.type = .int ∨ e.type = .uint ∨ e.type = .int64 ∨ e.type = .uint64) (s : List ℕ)
    (setUpdate : Bool) (v : DmValue) (old : Value) (hv : v.content = .scalar old) :
    ∃ r, dmString2value D L memcmp e (some s) setUpdate v = some r ∧
      (Exact e.type s v r ↔ s ≠ [] ∧ ∀ n, Numeral s n → InRange e.type n) := by
  have hsetter : reachesSetter D e s = false := by
    unfold reachesSetter
    rcases he with ht | ht | ht | ht <;> rw [ht]
  have hleaf : leafValue (some (.scalar old)) = old := rfl
  obtain ⟨new, htaken, hrefused, hnew⟩ := convert_integer D L memcmp e he s old
  refine ⟨_, if_neg (by simp [hsetter]), ?_⟩
  simp only [hv, hleaf, putLeaf, Exact]
  by_cases h : s = [] ∨ ∃ n, Numeral s n
  · rw [htaken h]
    constructor
    · rintro ⟨hok, -, -⟩
      obtain ⟨m, hm, hrange⟩ := hok.mp rfl
      refine ⟨?_, fun n hn => hn.unique hm ▸ hrange⟩
      rintro rfl
      exact not_numeral_nil m hm
    · rintro ⟨hne, hall⟩
      obtain ⟨m, hm⟩ := h.resolve_left hne
      have hrep : Represents e.type s m := ⟨hm, hall m hm⟩
      refine ⟨⟨fun _ => ⟨m, hrep⟩, fun _ => rfl⟩, ?_, fun hno => absurd ⟨m, hrep⟩ hno⟩
      intro n hn
      rw [hnew n hn]
  · rw [hrefused h]
    have hno : ¬∃ n, Represents e.type s n := fun ⟨n, hn, _⟩ => h (.inr ⟨n, hn⟩)
    constructor
    · exact fun _ => ⟨fun hs => h (.inl hs), fun n hn => absurd ⟨n, hn⟩ fun hx => h (.inr hx)⟩
    · exact fun _ => ⟨⟨fun hx => (nomatch hx), fun hx => absurd hx hno⟩, fun n hn => absurd ⟨n, hn⟩ hno, fun _ => rfl⟩

def sampleDecode : DecodeEnv := ⟨⟨fun _ => true, fun _ => 0⟩, sampleSchema, fun _ _ => .error .invalidType⟩

/-- `4294967296` is accepted, as zero. -/
theorem integer_strings_accepted : ¬∀ (s : List ℕ) (r : DmResult × DmValue),
    dmString2value sampleDecode sampleLibc bytecmp (sampleLeaf .uint) (some s) true
      ⟨.scalar (.uint 7), 0, Flags.zero, true⟩ = some r →
    Exact .uint s ⟨.scalar (.uint 7), 0, Flags.zero, true⟩ r := by
  intro h
  have hbad := h (ascii "4294967296") _ rfl
  obtain ⟨n, hn, hrange⟩ := hbad.1.mp rfl
  have hread : readInt (ascii "4294967296") = some (4294967296, []) := by decide
  rw [hn.unique ((readInt_whole _ _).mp hread)] at hrange
  exact absurd hrange.2 (by norm_num)

theorem integer_string_seven : ∃ r,
    dmString2value sampleDecode sampleLibc bytecmp (sampleLeaf .int) (some (ascii " -7")) true
      ⟨.scalar (.int 0), 0, Flags.zero, true⟩ = some r ∧
    (Exact .int (ascii " -7") ⟨.scalar (.int 0), 0, Flags.zero, true⟩ r ↔
      ascii " -7" ≠ [] ∧ ∀ n, Numeral (ascii " -7") n → InRange .int n) :=
  integer_string_iff sampleDecode sampleLibc bytecmp (sampleLeaf .int) (.inl rfl) (ascii " -7") true
    ⟨.scalar (.int 0), 0, Flags.zero, true⟩ (.int 0) rfl

end Mand.Load
