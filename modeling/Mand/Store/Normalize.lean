import Mand.Lib.CString
import Mand.Lib.InPlace
import Mand.Lib.Scan
import Mand.Lib.Words

/-! # Normal lists

`dm_normalize_list`, which rewrites a string in its own buffer. -/
namespace Mand.Store
open Mand.Bytes Mand.CString Mand.InPlace Mand.Words
set_option autoImplicit false

/-! ## The function -/

/-- White space of the C locale, or a comma. -/
def isSep (c : UInt8) : Bool := Scan.isspace c.toNat || c = 44

/-- skip spaces and commas -/
def skipLoop : ℕ → Tape → ℕ → Option (ℕ × Tape)
  | 0, _, _ => none
  | fuel + 1, t, s => do
    let r ← t.read s
    if r.1 ≠ 0 ∧ isSep r.1 = true then skipLoop fuel r.2 (s + 1) else some (s, r.2)

/-- find end of current entry -/
def copyLoop : ℕ → Tape → ℕ → ℕ → Option (ℕ × ℕ × Tape)
  | 0, _, _, _ => none
  | fuel + 1, t, s, p => do
    let r ← t.read s
    if r.1 ≠ 0 ∧ isSep r.1 = false then
      let r ← r.2.read s
      let t ← r.2.write p r.1
      copyLoop fuel t (s + 1) (p + 1)
    else some (s, p, r.2)

/-- The comma in front of an entry that is not the first. -/
def putComma (t : Tape) (s p : ℕ) : Option (ℕ × Tape) := do
  let r ← t.read s
  if r.1 ≠ 0 ∧ p ≠ 0 then
    let t ← r.2.write p 44
    some (p + 1, t)
  else some (p, r.2)

/-- The loop of `dm_normalize_list` and the terminator. `s` and `p` are places in the string. -/
def normalizeLoop : ℕ → Tape → ℕ → ℕ → Option Tape
  | 0, _, _, _ => none
  | fuel + 1, t, s, p => do
    let r ← t.read s
    if r.1 = 0 then r.2.write p 0
    else
      let skipped ← skipLoop t.mem.length r.2 s
      let comma ← putComma skipped.2 skipped.1 p
      let copied ← copyLoop t.mem.length comma.2 skipped.1 comma.1
      normalizeLoop fuel copied.2.2 copied.1 copied.2.1

/-- No loop has more rounds than the buffer has bytes. -/
def dmNormalizeList (m : Mem) : Option Tape := normalizeLoop m.length ⟨m, []⟩ 0 0

/-! ## The loops -/

variable {orig : Mem} {out : List UInt8} {s : ℕ} {t : Tape}

/-- Where a run of separators ends. -/
def EndsSkip (tail : List UInt8) : Prop := ∃ c rest, tail = c :: rest ∧ ¬(c ≠ 0 ∧ isSep c = true)

def EndsCopy (tail : List UInt8) : Prop := ∃ c rest, tail = c :: rest ∧ ¬(c ≠ 0 ∧ isSep c = false)

theorem drop_next {c : UInt8} {l tail : List UInt8} {s : ℕ} (h : l.drop s = c :: tail) : l.drop (s + 1) = tail := by
  rw [← List.tail_drop, h, List.tail_cons]

theorem skipLoop_run {w tail : List UInt8} (h : Rewriting orig out s t) (hw : ∀ c ∈ w, c ≠ 0 ∧ isSep c = true)
    (htail : EndsSkip tail) (hs : orig.drop s = w ++ tail) {fuel : ℕ} (hfuel : w.length < fuel) :
    ∃ t', skipLoop fuel t s = some (s + w.length, t') ∧ Rewriting orig out (s + w.length) t' := by
  induction w generalizing s t fuel with
  | nil =>
    obtain ⟨c, rest, rfl, hc⟩ := htail
    obtain ⟨fuel, rfl⟩ := Nat.exists_eq_succ_of_ne_zero (Nat.ne_zero_of_lt hfuel)
    obtain ⟨t', hread, h'⟩ := h.read hs
    exact ⟨t', by rw [skipLoop, hread, Option.bind_eq_bind, Option.bind_some, if_neg hc]; rfl, h'⟩
  | cons c w ih =>
    obtain ⟨fuel, rfl⟩ := Nat.exists_eq_succ_of_ne_zero (Nat.ne_zero_of_lt hfuel)
    obtain ⟨t1, hread, h1⟩ := h.read hs
    rw [List.length_cons] at hfuel
    obtain ⟨t', hskip, h'⟩ := ih (h1.skip (Nat.le_succ s)) (fun d hd => hw d (List.mem_cons_of_mem c hd)) (drop_next hs)
      (show w.length < fuel by omega)
    have hlen : s + (c :: w).length = s + 1 + w.length := by
      rw [List.length_cons]
      omega
    refine ⟨t', ?_, hlen ▸ h'⟩
    rw [skipLoop, hread, Option.bind_eq_bind, Option.bind_some, if_pos (hw c List.mem_cons_self), hlen, hskip]

theorem copyLoop_run {e tail : List UInt8} (h : Rewriting orig out s t) (he : ∀ c ∈ e, c ≠ 0 ∧ isSep c = false)
    (htail : EndsCopy tail) (hs : orig.drop s = e ++ tail) {fuel : ℕ} (hfuel : e.length < fuel) :
    ∃ t', copyLoop fuel t s out.length = some (s + e.length, (out ++ e).length, t') ∧
      Rewriting orig (out ++ e) (s + e.length) t' := by
  induction e generalizing s out t fuel with
  | nil =>
    obtain ⟨c, rest, rfl, hc⟩ := htail
    obtain ⟨fuel, rfl⟩ := Nat.exists_eq_succ_of_ne_zero (Nat.ne_zero_of_lt hfuel)
    obtain ⟨t', hread, h'⟩ := h.read hs
    rw [List.append_nil]
    exact ⟨t', by rw [copyLoop, hread, Option.bind_eq_bind, Option.bind_some, if_neg hc]; rfl, h'⟩
  | cons c e ih =>
    obtain ⟨fuel, rfl⟩ := Nat.exists_eq_succ_of_ne_zero (Nat.ne_zero_of_lt hfuel)
    obtain ⟨t1, hread, h1⟩ := h.read hs
    obtain ⟨t2, hread2, h2⟩ := h1.read hs
    have hin : s < orig.length := by
      have hlen := congrArg List.length hs
      rw [List.length_drop, List.cons_append, List.length_cons] at hlen
      omega
    have hle := h.le
    obtain ⟨t3, hwrite, h3⟩ := h2.write c (show out.length < s + 1 by omega) (by omega)
    rw [List.length_cons] at hfuel
    obtain ⟨t', hcopy, h'⟩ := ih h3 (fun d hd => he d (List.mem_cons_of_mem c hd)) (drop_next hs)
      (show e.length < fuel by omega)
    have hlen : s + (c :: e).length = s + 1 + e.length := by
      rw [List.length_cons]
      omega
    have hout : out ++ c :: e = out ++ [c] ++ e := by simp
    have hnext : out.length + 1 = (out ++ [c]).length := (@List.length_append _ out [c]).symm
    refine ⟨t', ?_, hlen ▸ hout ▸ h'⟩
    rw [copyLoop, hread, Option.bind_eq_bind, Option.bind_some, if_pos (he c List.mem_cons_self), hread2,
      Option.bind_eq_bind, Option.bind_some, hwrite, Option.bind_some, hlen, hout, hnext, hcopy]

/-- What is in the buffer after more entries. -/
def joined (out : List UInt8) (ws : List (List UInt8)) : List UInt8 :=
  if out = [] then List.intercalate [44] ws else out ++ ws.flatMap (44 :: ·)

theorem joined_nil (out : List UInt8) : joined out [] = out := by
  unfold joined
  split_ifs with h
  · rw [h]
    rfl
  · rw [List.flatMap_nil, List.append_nil]

theorem joined_cons {e : List UInt8} (he : e ≠ []) (out : List UInt8) (ws : List (List UInt8)) :
    joined out (e :: ws) = joined ((if out = [] then [] else out ++ [44]) ++ e) ws := by
  have hne : (if out = [] then [] else out ++ [44]) ++ e ≠ [] := fun h => he (List.append_eq_nil_iff.mp h).2
  rw [joined, joined, if_neg hne]
  split_ifs with h
  · exact intercalate_cons 44 e ws
  · simp

/-- The comma goes to a place that the reader has left. -/
theorem putComma_run (h : Rewriting orig out s t) {c : UInt8} {tail : List UInt8} (hs : orig.drop s = c :: tail) (hc : c ≠ 0)
    (hroom : out = [] ∨ out.length < s) : ∃ t', putComma t s out.length =
      some ((if out = [] then [] else out ++ [44]).length, t') ∧
        Rewriting orig (if out = [] then [] else out ++ [44]) s t' := by
  obtain ⟨t1, hread, h1⟩ := h.read hs
  rw [putComma, hread, Option.bind_eq_bind, Option.bind_some]
  by_cases hout : out = []
  · subst hout
    exact ⟨t1, by rw [if_neg (by simp), if_pos rfl], by rwa [if_pos rfl]⟩
  · have hlt : out.length < s := hroom.resolve_left hout
    have hin : s < orig.length := by
      have hlen := congrArg List.length hs
      rw [List.length_drop, List.length_cons] at hlen
      omega
    obtain ⟨t2, hwrite, h2⟩ := h1.write 44 hlt (by omega)
    have hpos : out.length ≠ 0 := fun h0 => hout (List.length_eq_zero_iff.mp h0)
    rw [if_pos ⟨hc, hpos⟩, if_neg hout, hwrite, List.length_append]
    exact ⟨t2, rfl, h2⟩

/-- At the end there is no entry for a comma. -/
theorem putComma_end (h : Rewriting orig out s t) {rest : List UInt8} (hs : orig.drop s = 0 :: rest) :
    ∃ t', putComma t s out.length = some (out.length, t') ∧ Rewriting orig out s t' := by
  obtain ⟨t', hread, h'⟩ := h.read hs
  exact ⟨t', by rw [putComma, hread, Option.bind_eq_bind, Option.bind_some, if_neg (by simp)], h'⟩

theorem drop_length {l tail : List UInt8} {i : ℕ} (h : l.drop i = tail) (hne : tail ≠ []) : i + tail.length = l.length := by
  have hpos := List.length_pos_iff.mpr hne
  rw [← h, List.length_drop] at hpos ⊢
  omega

/-- The state of the loop in front of the rest `r` of the text. -/
structure Round (orig rest : Mem) (out r : List UInt8) (s : ℕ) (t : Tape) : Prop where
  rewriting : Rewriting orig out s t
  drop : orig.drop s = r ++ 0 :: rest
  text : ∀ c ∈ r, c ≠ 0
  room : out = [] ∨ ∀ c ∈ r.head?, isSep c = true

variable {r rest : List UInt8}

theorem Round.size (h : Round orig rest out r s t) : s + r.length + rest.length + 1 = orig.length := by
  have hlen := drop_length h.drop (by simp)
  rw [List.length_append, List.length_cons] at hlen
  omega

theorem Round.last (h : Round orig rest out [] s t) (fuel : ℕ) : ∃ t', normalizeLoop (fuel + 1) t s out.length = some t' ∧
    Rewriting orig (out ++ [0]) (s + 1) t' := by
  have hsize := h.size
  have hle := h.rewriting.le
  obtain ⟨t1, hread, h1⟩ := h.rewriting.read h.drop
  obtain ⟨t2, hwrite, h2⟩ := h1.write 0 (show out.length < s + 1 by omega) (by omega)
  exact ⟨t2, by rw [normalizeLoop, hread, Option.bind_eq_bind, Option.bind_some, if_pos rfl, hwrite], h2⟩

theorem Round.first (h : Round orig rest out r s t) (hne : r ≠ []) :
    ∃ c t', c ≠ 0 ∧ t.read s = some (c, t') ∧ Rewriting orig out s t' := by
  obtain ⟨c, r', rfl⟩ := List.exists_cons_of_ne_nil hne
  obtain ⟨t', hread, h'⟩ := h.rewriting.read h.drop
  exact ⟨c, t', h.text c List.mem_cons_self, hread, h'⟩

theorem drop_add {l w tail : List UInt8} {i : ℕ} (h : l.drop i = w ++ tail) : l.drop (i + w.length) = tail := by
  rw [← List.drop_drop, h, List.drop_left]

/-- Separators only up to the end: nothing is written. -/
theorem Round.blank (h : Round orig rest out r s t) (hne : r ≠ []) (hr : ∀ c ∈ r, isSep c = true) (fuel : ℕ) :
    ∃ t', normalizeLoop (fuel + 1) t s out.length = normalizeLoop fuel t' (s + r.length) out.length ∧
      Round orig rest out [] (s + r.length) t' := by
  have hsize := h.size
  have hlen := h.rewriting.length (by omega)
  have hdrop := drop_add h.drop
  obtain ⟨c, t0, hc, hread, h0⟩ := h.first hne
  obtain ⟨t1, hskip, h1⟩ := skipLoop_run h0 (fun d hd => ⟨h.text d hd, hr d hd⟩) ⟨0, rest, rfl, by simp⟩ h.drop
    (show r.length < t.mem.length by omega)
  obtain ⟨t2, hcomma, h2⟩ := putComma_end h1 hdrop
  obtain ⟨t3, hcopy, h3⟩ := @copyLoop_run _ _ _ _ [] _ h2 (by simp) ⟨0, rest, rfl, by simp⟩ hdrop t.mem.length
    (show 0 < t.mem.length by omega)
  rw [List.append_nil, List.length_nil, Nat.add_zero] at hcopy
  rw [List.append_nil, List.length_nil, Nat.add_zero] at h3
  refine ⟨t3, ?_, h3, hdrop, by simp, .inr (by simp)⟩
  rw [normalizeLoop, hread, Option.bind_eq_bind, Option.bind_some, if_neg hc, hskip, Option.bind_eq_bind, Option.bind_some,
    hcomma, Option.bind_eq_bind, Option.bind_some, hcopy, Option.bind_some]

/-- An entry, and the separators in front of it. -/
theorem Round.entry {w e tail : List UInt8} (h : Round orig rest out (w ++ (e ++ tail)) s t) (hw : ∀ c ∈ w, isSep c = true)
    (hne : e ≠ []) (he : ∀ c ∈ e, isSep c = false) (htail : ∀ c ∈ tail.head?, isSep c = true) (fuel : ℕ) :
    ∃ t', normalizeLoop (fuel + 1) t s out.length =
      normalizeLoop fuel t' (s + w.length + e.length) ((if out = [] then [] else out ++ [44]) ++ e).length ∧
      Round orig rest ((if out = [] then [] else out ++ [44]) ++ e) tail (s + w.length + e.length) t' := by
  obtain ⟨d, e', rfl⟩ := List.exists_cons_of_ne_nil hne
  have hd : isSep d = false := he d List.mem_cons_self
  have htext : ∀ c ∈ d :: e', c ≠ 0 := fun c hc => h.text c (by simp only [List.mem_append]; exact .inr (.inl hc))
  have hsize := h.size
  have hle := h.rewriting.le
  have hlen := h.rewriting.length (by omega)
  have hdrop := h.drop
  rw [List.append_assoc] at hdrop
  have hentry := drop_add hdrop
  rw [List.append_assoc] at hentry
  have hnext := drop_add hentry
  rw [List.length_append, List.length_append] at hsize
  have hroom : out = [] ∨ out.length < s + w.length := by
    rcases h.room with hnil | hhead
    · exact .inl hnil
    · have hwne : w ≠ [] := by
        rintro rfl
        rw [hhead d rfl] at hd
        cases hd
      have hpos := List.length_pos_iff.mpr hwne
      exact .inr (by omega)
  have hstop : EndsCopy (tail ++ 0 :: rest) := by
    cases tail with
    | nil => exact ⟨0, rest, rfl, by simp⟩
    | cons c tail => exact ⟨c, tail ++ 0 :: rest, rfl, by simp [htail c rfl]⟩
  obtain ⟨c, t0, hc, hread, h0⟩ := h.first (by simp)
  obtain ⟨t1, hskip, h1⟩ := skipLoop_run h0 (fun c hc => ⟨h.text c (List.mem_append_left _ hc), hw c hc⟩)
    ⟨d, e' ++ tail ++ 0 :: rest, rfl, by simp [hd]⟩ hdrop (show w.length < t.mem.length by omega)
  obtain ⟨t2, hcomma, h2⟩ := putComma_run h1 hentry (htext d List.mem_cons_self) hroom
  obtain ⟨t3, hcopy, h3⟩ := copyLoop_run h2 (fun c hc => ⟨htext c hc, he c hc⟩) hstop hentry
    (show (d :: e').length < t.mem.length by omega)
  refine ⟨t3, ?_, h3, hnext, fun c hc => h.text c (by simp [hc]), .inr htail⟩
  rw [normalizeLoop, hread, Option.bind_eq_bind, Option.bind_some, if_neg hc, hskip, Option.bind_eq_bind, Option.bind_some,
    hcomma, Option.bind_eq_bind, Option.bind_some, hcopy, Option.bind_some]

/-- What the rounds leave. -/
theorem Round.run (h : Round orig rest out r s t) {fuel : ℕ} (hfuel : r.length < fuel) :
    ∃ t', normalizeLoop fuel t s out.length = some t' ∧
      Rewriting orig (joined out (words isSep r) ++ [0]) (s + r.length + 1) t' := by
  induction fuel generalizing out s t r with
  | zero => omega
  | succ fuel ih =>
    obtain ⟨w, e, tail, rfl, hw, he, htail, hend⟩ := exists_run isSep r
    rw [words_exists_run hw he htail hend]
    rw [List.length_append, List.length_append] at hfuel ⊢
    by_cases hne : e = []
    · subst hne
      obtain rfl := hend rfl
      rw [if_pos rfl, joined_nil]
      by_cases hnil : w = []
      · subst hnil
        exact h.last fuel
      · rw [List.append_nil, List.append_nil] at h
        have hpos := List.length_pos_iff.mpr hnil
        obtain ⟨t1, hstep, h1⟩ := h.blank hnil hw fuel
        obtain ⟨t', hrun, h'⟩ := ih h1 (by simp at hfuel ⊢; omega)
        rw [words_nil, joined_nil] at h'
        exact ⟨t', hstep.trans hrun, h'⟩
    · have hpos := List.length_pos_iff.mpr hne
      obtain ⟨t1, hstep, h1⟩ := h.entry hw hne he htail fuel
      obtain ⟨t', hrun, h'⟩ := ih h1 (by omega)
      rw [if_neg hne, joined_cons hne, ← Nat.add_assoc, ← Nat.add_assoc]
      exact ⟨t', hstep.trans hrun, h'⟩

/-! ## The whole function -/

/-- The list that the text stands for. -/
def normalList (text : List UInt8) : List UInt8 := List.intercalate [44] (words isSep text)

theorem normalList_idem (text : List UInt8) : normalList (normalList text) = normalList text := by
  have hcomma : isSep 44 = true := by decide
  rw [normalList, normalList, words_join hcomma]

theorem dmNormalizeList_run {text : List UInt8} (h : ∀ c ∈ text, c ≠ 0) (rest : List UInt8) :
    ∃ t, dmNormalizeList (text ++ 0 :: rest) = some t ∧
      Rewriting (text ++ 0 :: rest) (normalList text ++ [0]) (text.length + 1) t := by
  have hround : Round (text ++ 0 :: rest) rest [] text 0 ⟨text ++ 0 :: rest, []⟩ :=
    ⟨.start _, rfl, h, .inl rfl⟩
  obtain ⟨t, hrun, ht⟩ := hround.run (show text.length < (text ++ 0 :: rest).length by simp)
  rw [Nat.zero_add] at ht
  exact ⟨t, hrun, ht⟩

theorem normalList_ne_zero {text : List UInt8} (h : ∀ c ∈ text, c ≠ 0) : ∀ c ∈ normalList text, c ≠ 0 := by
  intro c hc
  rcases mem_intercalate hc with rfl | ⟨w, hw, hc⟩
  · decide
  · exact h c (mem_of_mem_words hw hc)

/-- The string is rewritten to its normal form, no character is read after it was overwritten, nothing is written behind
the old terminator, and the second time nothing changes. -/
theorem dmNormalizeList_spec (text : Text) (rest : List UInt8) : ∃ t, dmNormalizeList (text.1 ++ 0 :: rest) = some t ∧
    textAt t.mem 0 = some (normalList text.1) ∧ Fresh t.log ∧ (∀ i, .write i ∈ t.log → i ≤ text.1.length) ∧
    (∃ stale, t.mem = normalList text.1 ++ 0 :: (stale ++ rest) ∧ stale.length + (normalList text.1).length = text.1.length) ∧
    ∃ t', dmNormalizeList t.mem = some t' ∧ t'.mem = t.mem := by
  obtain ⟨t, hrun, ht⟩ := dmNormalizeList_run text.2 rest
  obtain ⟨stale, hmem, hlen⟩ := ht.finished
  have hzero := normalList_ne_zero text.2
  obtain ⟨t', hrun', ht'⟩ := dmNormalizeList_run hzero (stale ++ rest)
  rw [normalList_idem] at ht'
  obtain ⟨stale', hmem', hlen'⟩ := ht'.finished
  have hnil : stale' = [] := List.length_eq_zero_iff.mp (by omega)
  refine ⟨t, hrun, ?_, ht.fresh, ?_, ⟨stale, hmem, hlen⟩, t', by rw [hmem, hrun'], ?_⟩
  · rw [hmem]
    exact textAt_eq hzero [] _
  · intro i hi
    have hlt := ht.written i hi
    have hle := ht.le
    omega
  · rw [hmem, hmem', hnil, List.nil_append]

end Mand.Store
