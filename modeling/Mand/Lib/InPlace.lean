import Mand.Lib.Bytes

/-! # Rewriting in place

A buffer that is read at one place and written at another one, with a record of what happens. The reader is never
behind the writer, and a byte is not read after it was written. -/
namespace Mand.InPlace
open Mand.Bytes
set_option autoImplicit false

inductive Access
  | read (i : ℕ)
  | write (i : ℕ)
  deriving DecidableEq, Repr

/-- The buffer, and what was read and written so far. -/
structure Tape where
  mem : Mem
  log : List Access

def Tape.read (t : Tape) (i : ℕ) : Option (UInt8 × Tape) :=
  t.mem[i]?.map fun c => (c, ⟨t.mem, t.log ++ [.read i]⟩)

def Tape.write (t : Tape) (i : ℕ) (c : UInt8) : Option Tape :=
  (poke t.mem i [c]).map fun m => ⟨m, t.log ++ [.write i]⟩

/-- No byte is read after it was written. -/
def Fresh (log : List Access) : Prop := log.Pairwise fun a b => ∀ i, a = .write i → b ≠ .read i

theorem Fresh.read {log : List Access} (h : Fresh log) {i : ℕ} (hi : .write i ∉ log) : Fresh (log ++ [.read i]) := by
  refine List.pairwise_append.mpr ⟨h, List.pairwise_singleton _ _, ?_⟩
  intro a ha b hb j hj heq
  rw [List.mem_singleton.mp hb, Access.read.injEq] at heq
  rw [hj, ← heq] at ha
  exact hi ha

theorem Fresh.write {log : List Access} (h : Fresh log) (i : ℕ) : Fresh (log ++ [.write i]) := by
  refine List.pairwise_append.mpr ⟨h, List.pairwise_singleton _ _, ?_⟩
  intro a _ b hb j _ heq
  rw [List.mem_singleton.mp hb] at heq
  cases heq

/-- `out` was written over the front of `orig`, and the reader is at `s`. -/
structure Rewriting (orig : Mem) (out : List UInt8) (s : ℕ) (t : Tape) : Prop where
  mem : t.mem = out ++ orig.drop out.length
  le : out.length ≤ s
  fresh : Fresh t.log
  written : ∀ i, .write i ∈ t.log → i < out.length

namespace Rewriting

variable {orig : Mem} {out : List UInt8} {s : ℕ} {t : Tape}

theorem start (orig : Mem) : Rewriting orig [] 0 ⟨orig, []⟩ := ⟨rfl, Nat.le_refl 0, .nil, by simp⟩

theorem skip (h : Rewriting orig out s t) {s' : ℕ} (hs : s ≤ s') : Rewriting orig out s' t :=
  ⟨h.mem, h.le.trans hs, h.fresh, h.written⟩

theorem length (h : Rewriting orig out s t) (hs : s ≤ orig.length) : t.mem.length = orig.length := by
  have hle := h.le
  rw [h.mem, List.length_append, List.length_drop]
  omega

/-- The reader still finds what was there in the beginning. -/
theorem read (h : Rewriting orig out s t) {c : UInt8} {tail : List UInt8} (hs : orig.drop s = c :: tail) :
    ∃ t', t.read s = some (c, t') ∧ Rewriting orig out s t' := by
  have hget : t.mem[s]? = some c := by
    have hle := h.le
    have hsum : out.length + (s - out.length) = s := by omega
    rw [h.mem, List.getElem?_append_right hle, List.getElem?_drop, hsum]
    have hhead := congrArg List.head? hs
    rwa [List.head?_drop] at hhead
  refine ⟨⟨t.mem, t.log ++ [.read s]⟩, by rw [Tape.read, hget]; rfl, h.mem, h.le, h.fresh.read fun hw => ?_, ?_⟩
  · have hlt := h.written s hw
    have hle := h.le
    omega
  · intro i hi
    rcases List.mem_append.mp hi with hi | hi
    · exact h.written i hi
    · exact absurd (List.mem_singleton.mp hi) (by simp)

/-- The writer stays inside the buffer as it is behind the reader. -/
theorem write (h : Rewriting orig out s t) (c : UInt8) {s' : ℕ} (hs : out.length < s') (hs' : out.length < orig.length) :
    ∃ t', t.write out.length c = some t' ∧ Rewriting orig (out ++ [c]) s' t' := by
  have hlen : (out ++ [c]).length = out.length + 1 := List.length_append
  have hpoke := poke_ahead out (orig.drop out.length) [c] (by simp; omega)
  rw [List.drop_drop, List.length_singleton, ← hlen] at hpoke
  refine ⟨⟨_, t.log ++ [.write out.length]⟩, by rw [Tape.write, h.mem, hpoke]; rfl, rfl, by omega, h.fresh.write _, ?_⟩
  intro i hi
  rcases List.mem_append.mp hi with hi | hi
  · have hlt := h.written i hi
    omega
  · have heq := List.mem_singleton.mp hi
    rw [Access.write.injEq] at heq
    omega

/-- A string over the front of a longer one. -/
theorem finished {text n rest : List UInt8}
    (h : Rewriting (text ++ 0 :: rest) (n ++ [0]) (text.length + 1) t) :
    ∃ stale, t.mem = n ++ 0 :: (stale ++ rest) ∧ stale.length + n.length = text.length := by
  have hlen : (n ++ [0]).length = n.length + 1 := List.length_append
  have hle := h.le
  refine ⟨(text ++ [0]).drop (n.length + 1), ?_, ?_⟩
  · have hsplit : text ++ 0 :: rest = text ++ [0] ++ rest := by simp
    rw [h.mem, hlen, hsplit, List.drop_append_of_le_length (by simp; omega)]
    simp
  · rw [List.length_drop, List.length_append, List.length_singleton]
    omega

end Rewriting

end Mand.InPlace
