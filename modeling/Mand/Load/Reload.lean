import Mand.Load.Clock
import Mand.Load.Containers
import Mand.Load.Content
import Mand.Load.Escape

/-! # A saved leaf is loaded

What `dm_string2value` makes of the text that `serialize_element` writes for a value. An empty element and a text that is
refused leave the value that is there. -/
namespace Mand.Load
open Mand.Store Mand.Save Mand.Index Mand.Rpc Mand.Scan Mand.Notify Mand.Decimal Mand.Base64 Mand.Run Mand.Server
set_option autoImplicit false

/-! ## What the libraries promise -/

/-- A calendar, and addresses that are read as they were printed. -/
structure Readers (L : Libc) : Prop where
  calendar : Calendar L
  /-- The last day of 1899. -/
  empty : L.timegm Tm.zero = -2209075200
  inet : ∀ b, b.length = 4 → Octets b → L.pton .inet (Inet.ntop4 b) = some b
  inet6 : ∀ b, b.length = 16 → Octets b → L.pton .inet6 (L.ntop .inet6 b) = some b
  inet6_plain : ∀ b, b.length = 16 → Octets b → L.ntop .inet6 b ≠ [] ∧ ∀ c ∈ L.ntop .inet6 b, Plain c

/-- The names of a schema have no markup. -/
structure Markupless (S : Schema) : Prop where
  numbered : S.Numbered
  keys : ∀ k, ∀ e ∈ (S.table k).elems, ∀ c ∈ e.key, Plain c
  enums : ∀ k, ∀ e ∈ (S.table k).elems, ∀ name ∈ e.enums, ∀ c ∈ name, Plain c

/-- The texts of the program, for a library and the distance of the two clocks. -/
def texts (L : Libc) (base : ℤ) : Texts := ⟨ticks2str L, ticks2realtime base, L.ntop .inet6⟩

/-! ## What comes back -/

/-- The time that is read from the stamp of a time. One that the calendar does not have is printed as the last day of
1899. -/
def stampTime (L : Libc) (p : ℤ) : Option ℤ :=
  if p < 0 then some p
  else match L.gmtime (p / 10) with
    | some T => if p = 0 ∨ epoch < p ∧ 2 ^ 31 ≤ T.year + 1900 then none else some p
    | none => if epoch < p then some (p % 10 - 22090752000) else none

/-- The values that are there after they were saved and loaded, if `old` was there before. -/
def Reloads (S : Schema) (L : Libc) (base : ℤ) (e : DmElement) (old : Value) : Value → Prop
  | .bool n => n = 0 ∨ n = 1
  | .date n => 0 ≤ n ∧ old = .date n
  | .ticks n => e.flags.datetime = true → (stampTime L (ticks2realtime base n)).elim (old = .ticks n) (· = n)
  | .enum n => if int2enum e.enums n = [] then old = .enum n else int2enum e.enums n ∉ e.enums.take n.toNat
  | .str none => old = .str none
  | .str (some s) => (stringBody s).1 = true → ∀ c ∈ s, c ≠ 92 ∧ c < 128
  | .binary none => old = .binary none
  | .binary (some b) => e.type = .binary → ∀ c ∈ b, c < 128
  | .selector none => old = .selector none
  | .selector (some sel) => (∃ name, dmSel2name S sel maxParamNameLen = some name ∧ Readable S sel maxParamNameLen) ∨
      (∀ name, dmSel2name S sel maxParamNameLen = some name → name = [] ∨ dmName2sel S name = none) ∧
        old = .selector (some sel)
  | _ => True

/-- The values whose element the parser accepts. -/
def Legible (e : DmElement) : Value → Prop
  | .binary (some b) => e.type = .binary → ∀ c ∈ b, xmlChar c = true
  | _ => True

/-! ## Reading a text -/

/-- What `charElement` makes of a text. -/
def textOf (escaped : Bool) (text : List ℕ) : Option (List ℕ) :=
  if text = [] then none else some (if escaped = true then stringUnescape [] text else text)

/-- The value that the text of an element brings, if there is one. -/
def brought (D : DecodeEnv) (L : Libc) (e : DmElement) (str : Option (List ℕ)) : Option Value :=
  str.bind fun s => (Rpc.dmString2value D L e s).toOption

section Texts
variable {D : DecodeEnv} {L : Libc} {memcmp : List ℕ → List ℕ → ℤ} {e : DmElement}

theorem compared_keeps (old : Value) (r : Except DmResult Value) : (compared old r).value = r.toOption.getD old := by
  cases r <;> rfl

theorem stored_keeps {r : Except DmResult Value} (old spoilt : Value) (updated : Bool) (hr : r.isOk = true) :
    (stored r spoilt updated).value = r.toOption.getD old := by
  cases r with
  | ok new => rfl
  | error res => cases hr

/-- A text that is refused leaves the value as it is. -/
theorem convert_value (hD : ∀ n, D.alloc.grants n = true) (str : List ℕ) (old : Value) :
    (convert D L memcmp e str old).value = (brought D L e (some str)).getD old := by
  unfold brought Rpc.dmString2value convert
  rw [Option.bind_some]
  cases e.type
  case str => exact stored_keeps _ _ _ (by unfold setStringValue; simp only [hD, if_true]; split_ifs <;> rfl)
  case binary => exact stored_keeps _ _ _ (by unfold setBinaryData; simp only [hD, if_true]; split_ifs <;> rfl)
  case base64 =>
    simp only [base64Value, hD, if_true]
    exact stored_keeps _ _ _ (by unfold setBinaryValue; simp only [hD, if_true]; split_ifs <;> rfl)
  case selector =>
    have hset (sel : Selector) (b : Bool) : (stored (overwriteSelector D (selectorOf old) sel) old b).value =
        (setSelectorValue D sel).toOption.getD old := by
      unfold overwriteSelector setSelectorValue
      by_cases h0 : sel.headD 0 = 0
      · rw [if_neg (fun h => h.2 h0), if_pos h0]
        rfl
      · rw [if_neg h0, if_pos (hD 32), ite_self]
        rfl
    by_cases hs : str = []
    · simp only [if_pos hs]
      exact hset _ _
    · simp only [if_neg hs]
      cases dmName2sel D.schema str with
      | none => rfl
      | some sel => exact hset _ _
  case bool => split_ifs <;> rfl
  case ipaddr4 =>
    unfold address
    cases L.pton .inet str <;> rfl
  case ipaddr6 =>
    unfold address
    cases L.pton .inet6 str <;> rfl
  case ticks => exact compared_keeps _ _
  case date => exact compared_keeps _ _
  case int => exact compared_keeps _ _
  case uint => exact compared_keeps _ _
  case int64 => exact compared_keeps _ _
  case uint64 => exact compared_keeps _ _
  case enum => exact compared_keeps _ _
  all_goals rfl

/-! ## One type after the other -/

/-- The value after the text was read. -/
def after (D : DecodeEnv) (L : Libc) (e : DmElement) (escaped : Bool) (text : List ℕ) (old : Value) : Value :=
  (brought D L e (textOf escaped text)).getD old

theorem textOf_plain {text : List ℕ} (hne : text ≠ []) : textOf false text = some text := if_neg hne

theorem after_empty (escaped : Bool) (old : Value) : after D L e escaped [] old = old := rfl

theorem after_plain {text : List ℕ} (hne : text ≠ []) (old : Value) :
    after D L e false text old = (Rpc.dmString2value D L e text).toOption.getD old := by
  rw [after, textOf_plain hne]
  rfl

theorem intText_ne_nil (n : ℤ) : intText n ≠ [] := by
  unfold intText
  split_ifs
  · exact List.cons_ne_nil _ _
  · exact decimal_ne_nil _

theorem reloads_bool (ht : e.type = .bool) (n : ℤ) (old : Value) :
    after D L e false (if n = 0 then ascii "false" else ascii "true") old = .bool n ↔ n = 0 ∨ n = 1 := by
  by_cases hn : n = 0
  · have hval : Rpc.dmString2value D L e (ascii "false") = .ok (.bool 0) := by
      simp only [Rpc.dmString2value, ht]
      rfl
    rw [if_pos hn, after_plain (by decide), hval, hn]
    simp [Except.toOption]
  · have hval : Rpc.dmString2value D L e (ascii "true") = .ok (.bool 1) := by
      simp only [Rpc.dmString2value, ht]
      rfl
    rw [if_neg hn, after_plain (by decide), hval]
    simp [Except.toOption, hn, eq_comm]

theorem reloads_int (ht : e.type = .int) {n : ℤ} (hn : -2 ^ 31 ≤ n ∧ n < 2 ^ 31) (old : Value) :
    after D L e false (decimalInt n) old = .int n := by
  have hmod : n.bmod (2 ^ 32) = n := Int.bmod_eq_of_le_mul_two (by omega) (by omega)
  have hval : Rpc.dmString2value D L e (intText n) = .ok (.int n) := by
    simp only [Rpc.dmString2value, ht, strtol_intText (by omega : -2 ^ 63 ≤ n) (by omega), wholeText, if_true, hmod]
  exact (after_plain (intText_ne_nil n) old).trans (by rw [hval]; rfl)

theorem reloads_int64 (ht : e.type = .int64) {n : ℤ} (hn : -2 ^ 63 ≤ n ∧ n < 2 ^ 63) (old : Value) :
    after D L e false (decimalInt n) old = .int64 n := by
  have hval : Rpc.dmString2value D L e (intText n) = .ok (.int64 n) := by
    simp only [Rpc.dmString2value, ht, strtol_intText hn.1 hn.2, wholeText, if_true]
  exact (after_plain (intText_ne_nil n) old).trans (by rw [hval]; rfl)

theorem strtoul_decimal {n : ℕ} (hn : n < 2 ^ 64) : strtoul (decimal n) = (n, []) := by
  have h := strtoul_intText (n := n) (by omega) (by omega)
  have hmod : ((n : ℤ) % 2 ^ 64).toNat = n := by omega
  rwa [hmod, intText_natCast] at h

theorem reloads_uint (ht : e.type = .uint) {n : ℕ} (hn : n < 2 ^ 32) (old : Value) :
    after D L e false (decimal n) old = .uint n := by
  have hval : Rpc.dmString2value D L e (decimal n) = .ok (.uint n) := by
    simp only [Rpc.dmString2value, ht, strtoul_decimal (by omega : n < 2 ^ 64), wholeText, if_true, Nat.mod_eq_of_lt hn]
  exact (after_plain (decimal_ne_nil n) old).trans (by rw [hval]; rfl)

theorem reloads_uint64 (ht : e.type = .uint64) {n : ℕ} (hn : n < 2 ^ 64) (old : Value) :
    after D L e false (decimal n) old = .uint64 n := by
  have hval : Rpc.dmString2value D L e (decimal n) = .ok (.uint64 n) := by
    simp only [Rpc.dmString2value, ht, strtoul_decimal hn, wholeText, if_true]
  exact (after_plain (decimal_ne_nil n) old).trans (by rw [hval]; rfl)

theorem reloads_enum (ht : e.type = .enum) {n : ℤ} (old : Value) :
    after D L e false (int2enum e.enums n) old = .enum n ↔
      if int2enum e.enums n = [] then old = .enum n else int2enum e.enums n ∉ e.enums.take n.toNat := by
  by_cases hnil : int2enum e.enums n = []
  · rw [if_pos hnil, hnil, after_empty]
  have hn : 0 ≤ n := by
    by_contra h
    exact hnil (by rw [int2enum, if_pos (by omega)])
  have hget : e.enums[n.toNat]? = some (int2enum e.enums n) := by
    rw [int2enum, if_neg (by omega), List.getD_eq_getElem?_getD] at hnil ⊢
    cases h : e.enums[n.toNat]? with
    | none =>
      rw [h] at hnil
      exact absurd rfl hnil
    | some name => rfl
  have hfound : dmEnum2int e.enums (int2enum e.enums n) ≠ -1 := by
    have hmem := List.mem_of_getElem? hget
    unfold dmEnum2int
    cases hi : e.enums.findIdx? (· = int2enum e.enums n) with
    | none =>
      have hnone := List.findIdx?_eq_none_iff.mp hi _ hmem
      simp at hnone
    | some i =>
      show (i : ℤ) ≠ -1
      omega
  rw [if_neg hnil, after_plain hnil]
  have hval : Rpc.dmString2value D L e (int2enum e.enums n) = .ok (.enum (dmEnum2int e.enums (int2enum e.enums n))) := by
    simp only [Rpc.dmString2value, ht, if_neg hfound]
  have hiff := dmEnum2int_iff e.enums (int2enum e.enums n) n
  rw [hval]
  simp only [Except.toOption, Option.getD_some, Value.enum.injEq]
  constructor
  · exact fun h => (hiff.mp ⟨h, h ▸ hfound⟩).2.2
  · exact fun h => (hiff.mpr ⟨hn, hget, h⟩).1

/-! ## Times -/

theorem strtoul_stamp (year : ℤ) (T : Tm) (rest : List ℕ) : (strtoul (stamp year T ++ rest)).2 ≠ [] := by
  obtain ⟨s, hs⟩ : ∃ s, stamp year T ++ rest = fourDigits year ++ 45 :: s := ⟨_, by
    simp only [stamp, List.append_assoc, List.cons_append]
    rfl⟩
  rw [strtoul, hs, readInt_fourDigits _ (stops_cons (by decide) _)]
  simp

theorem str2ticks_intText (n : ℤ) : str2ticks L (intText n) = none := by
  have hread := readInt_intText n stops_nil
  rw [List.append_nil] at hread
  simp [str2ticks, scanTime, scanInt, hread, literal]

theorem stamp_ne_nil (year : ℤ) (T : Tm) (rest : List ℕ) : stamp year T ++ rest ≠ [] := by
  simp [stamp]

theorem ticks2str_ne_nil (n : ℤ) : ticks2str L n ≠ [] := by
  unfold ticks2str
  split_ifs
  · exact intText_ne_nil n
  · exact stamp_ne_nil _ _ _

theorem reloads_number_ticks (ht : e.type = .ticks) {n : ℤ} (hn : -2 ^ 63 ≤ n ∧ n < 2 ^ 63) :
    Rpc.dmString2value D L e (intText n) = .ok (.ticks n) := by
  have hmod : (((n % 2 ^ 64).toNat : ℕ) : ℤ).bmod (2 ^ 64) = n := by
    rw [Int.toNat_of_nonneg (by omega), Int.bmod_eq_iff (by norm_num)]
    omega
  simp only [Rpc.dmString2value, ht, str2ticks_intText, strtoul_intText hn.1 (by omega : n < 2 ^ 64), wholeText, if_true, hmod]

/-- What is read of a printed time, with the calendar's fields for it. -/
theorem str2ticks_printed (hL : Calendar L) {T : Tm} (hT : T.Small) {p : ℤ} (huntil : p ≤ epoch → T.year ≤ 109) :
    str2ticks L (stamp (printedYear p T) T ++ stampTail p) =
      if (if epoch < p then T.year + 1900 < 2 ^ 31 else p ≠ 0 ∧ 70 ≤ T.year) then some (L.timegm T * 10 + p % 10) else none := by
  have hyear := hT.year
  have htks : (((p % 10).toNat : ℕ) : ℤ) = p % 10 := by omega
  unfold printedYear
  by_cases hepoch : epoch < p
  · have hsuffix : suffix p = [90] := if_pos (.inr hepoch)
    simp only [if_pos hepoch]
    by_cases hfit : T.year + 1900 < 2 ^ 31
    · have hmod : (T.year + 1900).bmod (2 ^ 32) = T.year + 1900 := Int.bmod_eq_of_le_mul_two (by omega) (by omega)
      rw [hmod, str2ticks_stamp hL hT (by omega), hsuffix, timeTicks, if_neg (by simp), if_pos hfit]
      simp only
      rw [if_neg (by omega), if_neg (by decide)]
      simp only [add_sub_cancel_right, htks]
    · have hmod : (T.year + 1900).bmod (2 ^ 32) = T.year + 1900 - 2 ^ 32 := by
        rw [Int.bmod_eq_iff (by norm_num)]
        omega
      rw [hmod, str2ticks_stamp hL hT (by omega), hsuffix, timeTicks, if_neg (by simp), if_neg hfit]
      simp only
      rw [if_pos (by omega)]
  · have hlate := huntil (by omega)
    simp only [if_neg hepoch]
    rw [str2ticks_stamp hL hT (by omega), timeTicks]
    by_cases h0 : p = 0
    · have hsuffix : suffix p = [90] := if_pos (.inl h0)
      have hno : ¬(p ≠ 0 ∧ 70 ≤ T.year) := fun h => h.1 h0
      rw [hsuffix, if_neg (by simp), if_neg hno]
      simp only
      rw [if_pos (by omega)]
    · have hsuffix : suffix p = [] := if_neg (by rintro (h | h); exacts [h0 h, hepoch h])
      rw [hsuffix, if_pos rfl]
      simp only
      by_cases h70 : 70 ≤ T.year
      · rw [if_neg (by omega), if_pos ⟨h0, h70⟩]
        simp only [sub_add_cancel, htks]
      · rw [if_pos (by omega), if_neg fun h => h70 h.2]

/-- A stamp is read as the time it stands for, or refused. -/
theorem str2ticks_ticks2str (hL : Readers L) {p : ℤ} (hp : 0 ≤ p) : str2ticks L (ticks2str L p) = stampTime L p := by
  rw [ticks2str, if_neg (by omega), stampTime, if_neg (by omega), brokenDown]
  cases hT : L.gmtime (p / 10) with
  | some T =>
    have hvalid := hL.calendar.valid _ T hT
    have hsince := hL.calendar.since _ T (by omega) hT
    have hback := hL.calendar.inverse _ T (by omega) hT
    have hval : L.timegm T * 10 + p % 10 = p := by
      rw [hback]
      omega
    rw [Option.getD_some, str2ticks_printed hL.calendar (hvalid.small hsince)
      (fun h => hL.calendar.until_epoch _ T (by unfold epoch at h ⊢; omega) hT), hval]
    have hfit : (if epoch < p then T.year + 1900 < 2 ^ 31 else p ≠ 0 ∧ 70 ≤ T.year) ↔
        ¬(p = 0 ∨ epoch < p ∧ 2 ^ 31 ≤ T.year + 1900) := by
      unfold epoch
      split_ifs <;> omega
    rw [if_congr hfit rfl rfl, ite_not]
  | none =>
    rw [Option.getD_none, str2ticks_printed hL.calendar Tm.zero_small (fun _ => by simp [Tm.zero]), hL.empty]
    by_cases hepoch : epoch < p
    · simp only [if_pos hepoch]
      rw [if_pos (by simp [Tm.zero])]
      congr 1
      omega
    · simp [hepoch, Tm.zero]

theorem reloads_stamp (hL : Readers L) (ht : e.type = .ticks) {p : ℤ} (hp : -2 ^ 63 ≤ p ∧ p < 2 ^ 63) (old : Value) :
    after D L e false (ticks2str L p) old = ((stampTime L p).map .ticks).getD old := by
  rw [after_plain (ticks2str_ne_nil p)]
  by_cases hneg : p < 0
  · rw [ticks2str, if_pos hneg, reloads_number_ticks ht hp, stampTime, if_pos hneg]
    rfl
  · have hwhole : (strtoul (ticks2str L p)).2 ≠ [] := by
      rw [ticks2str, if_neg hneg]
      exact strtoul_stamp _ _ _
    simp only [Rpc.dmString2value, ht, str2ticks_ticks2str hL (by omega : 0 ≤ p)]
    cases stampTime L p with
    | some m => rfl
    | none =>
      rw [wholeText, if_neg hwhole]
      rfl

/-- A date is printed in ticks and read as a number. -/
theorem reloads_date (ht : e.type = .date) {n : ℤ} (hn : -2 ^ 63 ≤ n * 10) (old : Value) :
    after D L e false (ticks2str L (n * 10)) old = .date n ↔ 0 ≤ n ∧ old = .date n := by
  rw [after_plain (ticks2str_ne_nil _)]
  simp only [Rpc.dmString2value, ht]
  by_cases hneg : n < 0
  · have hmod : (((n * 10 % 2 ^ 64).toNat : ℕ) : ℤ).bmod (2 ^ 64) = n * 10 := by
      rw [Int.toNat_of_nonneg (by omega), Int.bmod_eq_iff (by norm_num)]
      omega
    rw [ticks2str, if_pos (by omega), strtoul_intText hn (by omega), wholeText, if_pos rfl, hmod]
    simp only [Except.toOption, Option.getD_some, Value.date.injEq]
    omega
  · have hwhole : (strtoul (ticks2str L (n * 10))).2 ≠ [] := by
      rw [ticks2str, if_neg (by omega)]
      exact strtoul_stamp _ _ _
    rw [wholeText, if_neg hwhole]
    simp only [Except.toOption, Option.getD_none]
    exact ⟨fun h => ⟨by omega, h⟩, fun h => h.2⟩

/-! ## Strings, blocks and paths -/

theorem reloads_raw (hD : ∀ n, D.alloc.grants n = true) (ht : e.type = .str) {s : List ℕ} (hne : s ≠ []) (old : Value) :
    after D L e false s old = .str (some s) := by
  have hval : Rpc.dmString2value D L e s = .ok (.str (some s)) := by
    simp [Rpc.dmString2value, ht, setStringValue, hne, hD]
  rw [after_plain hne, hval]
  rfl

theorem stringEscape_ne_nil {s : List ℕ} (hne : s ≠ []) : stringEscape s ≠ [] := by
  obtain ⟨c, t, rfl⟩ := List.exists_cons_of_ne_nil hne
  rw [stringEscape_cons]
  split_ifs <;> simp

theorem reloads_escaped (hD : ∀ n, D.alloc.grants n = true) (ht : e.type = .str) {s : List ℕ} (hne : s ≠ []) (hs : CText s)
    (old : Value) : after D L e true (stringEscape s) old = .str (some s) ↔ ∀ c ∈ s, c ≠ 92 ∧ c < 128 := by
  have htext : textOf true (stringEscape s) = some (readBack s) := by
    rw [textOf, if_neg (stringEscape_ne_nil hne), if_pos rfl]
    rfl
  have hback : readBack s = s ↔ ∀ c ∈ s, c ≠ 92 ∧ c < 128 := readBack_iff hs
  rw [after, htext, brought, Option.bind_some, ← hback]
  simp only [Rpc.dmString2value, ht, setStringValue, hD, if_true]
  split_ifs with hnil
  · rw [hnil]
    simp [Except.toOption, Ne.symm hne]
  · simp [Except.toOption]

theorem reloads_block (hD : ∀ n, D.alloc.grants n = true) (ht : e.type = .base64) {b : List ℕ} (hne : b ≠ [])
    (hb : Octets b) (indent : ℕ) (old : Value) :
    after D L e false (written indent (.lines (base64Lines b))) old = .binary (some b) := by
  have hval : Rpc.dmString2value D L e (written indent (.lines (base64Lines b))) = .ok (.binary (some b)) := by
    simp only [Rpc.dmString2value, ht, base64Value, hD, if_true, from64_spaced hb (spaced_lines_written indent)]
    simp [setBinaryValue, hne, hD]
  have hwritten : written indent (.lines (base64Lines b)) ≠ [] := List.cons_ne_nil _ _
  rw [after_plain hwritten, hval]
  rfl

/-- The characters of a block are bytes again if there is one for each. -/
theorem reloads_bytes (hD : ∀ n, D.alloc.grants n = true) (ht : e.type = .binary) {b : List ℕ} (hne : b ≠ [])
    (hb : Octets b) (old : Value) : after D L e false (b.flatMap utf8) old = .binary (some b) ↔ ∀ c ∈ b, c < 128 := by
  have hoct : Octets (b.flatMap utf8) := by
    intro c hc
    obtain ⟨d, hd, hc⟩ := List.mem_flatMap.mp hc
    exact utf8_lt (hb d hd) c hc
  have hnil : b.flatMap utf8 ≠ [] := by
    have hlen := (flatMap_utf8 b).1
    have hpos := List.length_pos_of_ne_nil hne
    exact List.ne_nil_of_length_pos (by omega)
  have hval : Rpc.dmString2value D L e (b.flatMap utf8) = .ok (.binary (some (b.flatMap utf8))) := by
    have hdata : octets (b.flatMap utf8) ≠ [] := by
      rw [octets]
      simpa using hnil
    simp only [Rpc.dmString2value, ht, setBinaryData, if_neg hdata, hD, if_true, octets_toNat hoct]
  rw [after_plain hnil, hval, ← (flatMap_utf8 b).2]
  simp [Except.toOption]

theorem reloads_path (hD : ∀ n, D.alloc.grants n = true) (hS : D.schema.Numbered) (ht : e.type = .selector) {sel : Selector}
    (hsel : Storable (.selector (some sel))) {name : List ℕ} (hname : dmSel2name D.schema sel maxParamNameLen = some name)
    (old : Value) : after D L e false name old = .selector (some sel) ↔
      Readable D.schema sel maxParamNameLen ∨ (name = [] ∨ dmName2sel D.schema name = none) ∧ old = .selector (some sel) := by
  obtain ⟨hne, hids, hlen⟩ := hsel sel rfl
  have hread := dmName2sel_iff hS hids hlen hne (by decide) hname
  have hhead : sel.headD 0 ≠ 0 := by
    obtain ⟨id, rest, rfl⟩ := List.exists_cons_of_ne_nil hne
    have := hids id List.mem_cons_self
    simp only [List.headD_cons]
    omega
  rw [← hread]
  by_cases hnil : name = []
  · have hno : dmName2sel D.schema [] ≠ some sel := fun h => hne (Option.some.inj h).symm
    rw [hnil, after_empty]
    simp [hno]
  · have hval : Rpc.dmString2value D L e name = (dmName2sel D.schema name).elim (.error .invalidValue) (setSelectorValue D) := by
      simp only [Rpc.dmString2value, ht, if_neg hnil]
      cases dmName2sel D.schema name <;> rfl
    rw [after_plain hnil, hval]
    cases hsel' : dmName2sel D.schema name with
    | none => simp [Except.toOption, hnil]
    | some sel' =>
      simp only [Option.elim_some, setSelectorValue, hD, if_true, Option.some.injEq, reduceCtorEq, or_false, false_and, hnil]
      split_ifs with h0
      · simp only [Except.toOption, Option.getD_some, Value.selector.injEq, reduceCtorEq, false_iff]
        rintro rfl
        exact hhead h0
      · simp [Except.toOption]

/-! ## What the elements hold -/

theorem plain_digit {c : ℕ} (h : 48 ≤ c ∧ c ≤ 57) : Plain c := by
  refine ⟨by omega, by omega, ?_⟩
  rw [isMarkup, decide_eq_false_iff_not]
  omega

theorem plain_decimal {n c : ℕ} (h : c ∈ decimal n) : Plain c := by
  have := decimal_digit h
  exact plain_digit (by omega)

theorem plain_intText {n : ℤ} {c : ℕ} (h : c ∈ intText n) : Plain c := by
  unfold intText at h
  split_ifs at h
  · rcases List.mem_cons.mp h with rfl | h
    · exact ⟨by omega, by omega, rfl⟩
    · exact plain_decimal h
  · exact plain_decimal h

theorem plain_twoDigits {n : ℤ} {c : ℕ} (h : c ∈ twoDigits n) : Plain c := by
  unfold twoDigits at h
  split_ifs at h
  · rcases List.mem_cons.mp h with rfl | h
    · exact plain_digit (by omega)
    · exact plain_intText h
  · exact plain_intText h

theorem plain_zeros {k n c : ℕ} (h : c ∈ List.replicate k 48 ++ decimal n) : Plain c := by
  rcases List.mem_append.mp h with h | h
  · rw [List.eq_of_mem_replicate h]
    exact plain_digit (by omega)
  · exact plain_decimal h

theorem plain_fourDigits {n : ℤ} {c : ℕ} (h : c ∈ fourDigits n) : Plain c := by
  unfold fourDigits at h
  simp only at h
  split_ifs at h
  · rcases List.mem_cons.mp h with rfl | h
    · exact ⟨by omega, by omega, rfl⟩
    · exact plain_zeros h
  · exact plain_zeros h

theorem plain_stampTail {n : ℤ} {c : ℕ} (h : c ∈ stampTail n) : Plain c := by
  unfold stampTail at h
  rcases List.mem_append.mp h with h | h
  · split_ifs at h
    · rcases List.mem_cons.mp h with rfl | h
      · exact ⟨by omega, by omega, rfl⟩
      · exact plain_intText h
    · exact absurd h List.not_mem_nil
  · split_ifs at h
    · rw [List.mem_singleton.mp h]
      exact ⟨by omega, by omega, rfl⟩
    · exact absurd h List.not_mem_nil

theorem plain_ticks2str {n : ℤ} {c : ℕ} (h : c ∈ ticks2str L n) : Plain c := by
  unfold ticks2str at h
  split_ifs at h
  · exact plain_intText h
  · have hmark : ∀ d, d = 45 ∨ d = 84 ∨ d = 58 → Plain d := by
      rintro d (rfl | rfl | rfl) <;> exact ⟨by omega, by omega, rfl⟩
    simp only [stamp, List.mem_append, List.mem_cons] at h
    rcases h with (h | h | h | h | h | h | h | h | h | h | h) | h
    · exact plain_fourDigits h
    · exact hmark c (.inl h)
    · exact plain_twoDigits h
    · exact hmark c (.inl h)
    · exact plain_twoDigits h
    · exact hmark c (.inr (.inl h))
    · exact plain_twoDigits h
    · exact hmark c (.inr (.inr h))
    · exact plain_twoDigits h
    · exact hmark c (.inr (.inr h))
    · exact plain_twoDigits h
    · exact plain_stampTail h

theorem plain_int2enum {names : List (List ℕ)} (hnames : ∀ name ∈ names, ∀ c ∈ name, Plain c) {n : ℤ} {c : ℕ}
    (h : c ∈ int2enum names n) : Plain c := by
  unfold int2enum at h
  split_ifs at h
  · exact absurd h List.not_mem_nil
  · rw [List.getD_eq_getElem?_getD] at h
    cases hget : names[n.toNat]? with
    | none =>
      rw [hget] at h
      exact absurd h List.not_mem_nil
    | some name =>
      rw [hget] at h
      exact hnames name (List.mem_of_getElem? hget) c h

theorem plain_ntop4 {b : List ℕ} {c : ℕ} (h : c ∈ Inet.ntop4 b) : Plain c := by
  induction b with
  | nil => exact absurd h List.not_mem_nil
  | cons a b ih =>
    cases b with
    | nil =>
      simp only [Inet.ntop4, List.map_cons, List.map_nil, List.intercalate_singleton] at h
      exact plain_decimal h
    | cons a' b =>
      simp only [Inet.ntop4, List.map_cons, List.intercalate_cons_cons, List.mem_append, List.mem_singleton] at h ih
      rcases h with (h | rfl) | h
      · exact plain_decimal h
      · exact ⟨by decide, by decide, rfl⟩
      · exact ih h

theorem ntop4_ne_nil {b : List ℕ} (hne : b ≠ []) : Inet.ntop4 b ≠ [] := by
  cases b with
  | nil => exact absurd rfl hne
  | cons a b =>
    cases b with
    | nil => simpa [Inet.ntop4] using decimal_ne_nil a
    | cons a' b => simp [Inet.ntop4, List.intercalate_cons_cons]

/-! ## All types -/

/-- The time does not overflow on its way to the text. -/
def InClock (base : ℤ) : Value → Prop
  | .date n => -2 ^ 63 ≤ n * 10 ∧ n * 10 < 2 ^ 63
  | .ticks n => -2 ^ 63 ≤ ticks2realtime base n ∧ ticks2realtime base n < 2 ^ 63
  | _ => True

/-- The parser delivers a text that brings the value exactly under this condition. -/
def ReadsAs (chars : List ℕ → Option (List ℕ)) (D : DecodeEnv) (L : Libc) (e : DmElement) (indent : ℕ) (r : Bool × Body)
    (old u : Value) (cond : Prop) : Prop :=
  ∃ text, chars (written indent r.2) = some text ∧ (∀ c ∈ text, c ≠ 0) ∧ (after D L e r.1 text old = u ↔ cond)

section Content
variable {chars : List ℕ → Option (List ℕ)} {indent : ℕ} {old u : Value} {cond : Prop}

theorem plain_nonzero {c : ℕ} (h : Plain c) : c ≠ 0 := by
  have := h.1
  omega

theorem ReadsAs.congr {r : Bool × Body} {cond' : Prop} (h : ReadsAs chars D L e indent r old u cond) (hc : cond ↔ cond') :
    ReadsAs chars D L e indent r old u cond' := by
  obtain ⟨text, htext, hzero, hiff⟩ := h
  exact ⟨text, htext, hzero, hiff.trans hc⟩

theorem readsAs_empty (hchars : Delivers chars) (escaped : Bool) :
    ReadsAs chars D L e indent (escaped, .empty) old u (old = u) :=
  ⟨[], hchars.nil, fun _ hc => absurd hc List.not_mem_nil, Iff.rfl⟩

theorem readsAs_text (hchars : Delivers chars) {escaped : Bool} {s : List ℕ} (hs : ∀ c ∈ s, Plain c)
    (h : after D L e escaped s old = u ↔ cond) : ReadsAs chars D L e indent (escaped, .text s) old u cond :=
  ⟨s, hchars.plain fun c hc => .inl (hs c hc), fun c hc => plain_nonzero (hs c hc), h⟩

/-- A string in one of its forms. -/
theorem readsAs_str (hchars : Delivers chars) (hD : ∀ n, D.alloc.grants n = true) (ht : e.type = .str) {s : List ℕ} (hne : s ≠ [])
    (hs : CText s) : ReadsAs chars D L e indent (stringBody s) old (.str (some s))
      ((stringBody s).1 = true → ∀ c ∈ s, c ≠ 92 ∧ c < 128) := by
  have hdata := stringBody_charData s
  cases hesc : (stringBody s).1 with
  | true =>
    have hbody : stringBody s = (true, .text (stringEscape s)) := Prod.ext hesc (stringBody_escaped hesc)
    rw [hbody] at hdata ⊢
    exact readsAs_text hchars hdata (by simpa using reloads_escaped hD ht hne hs old)
  | false =>
    have hraw : after D L e false s old = .str (some s) ↔ (false = true → ∀ c ∈ s, c ≠ 92 ∧ c < 128) :=
      iff_of_true (reloads_raw hD ht hne old) fun h => absurd h Bool.false_ne_true
    have hforms : stringBody s = (false, .text s) ∨ stringBody s = (false, .cdata s) := by
      unfold stringBody at hesc ⊢
      split at hesc
      · exact .inl rfl
      · split_ifs at hesc ⊢
        exact .inr rfl
      · cases hesc
    rcases hforms with hbody | hbody <;> rw [hbody] at hdata ⊢
    · exact readsAs_text hchars hdata hraw
    · refine ⟨s, hchars.cdata s hdata.1 hdata.2, fun c hc => ?_, hraw⟩
      have := hdata.1 c hc
      omega

/-- A block of bytes: some of them make a document that is not well-formed. -/
theorem readsAs_binary (hchars : Delivers chars) (hD : ∀ n, D.alloc.grants n = true) (ht : e.type = .binary) {b : List ℕ}
    (hne : b ≠ []) (hb : Octets b) (hxml : ∀ c ∈ b, xmlChar c = true) :
    ReadsAs chars D L e indent (false, .text (serializeBinary b)) old (.binary (some b)) (∀ c ∈ b, c < 128) := by
  refine ⟨b.flatMap utf8, (hchars.binary hb).trans (if_pos hxml), ?_, reloads_bytes hD ht hne hb old⟩
  intro c hc
  obtain ⟨d, hd, hc⟩ := List.mem_flatMap.mp hc
  exact utf8_nonzero (hxml d hd) c hc

theorem readsAs_base64 (hchars : Delivers chars) (hD : ∀ n, D.alloc.grants n = true) (ht : e.type = .base64) {b : List ℕ}
    (hne : b ≠ []) (hb : Octets b) :
    ReadsAs chars D L e indent (false, .lines (base64Lines b)) old (.binary (some b)) True := by
  have hplain := plain_lines_written hb indent
  refine ⟨_, hchars.plain hplain, fun c hc => ?_, iff_true_intro (reloads_block hD ht hne hb indent old)⟩
  rcases hplain c hc with h | h
  · exact plain_nonzero h
  · omega

theorem readsAs_ticks (hchars : Delivers chars) (hL : Readers L) (ht : e.type = .ticks) {base n : ℤ}
    (hn : -2 ^ 63 ≤ n ∧ n < 2 ^ 63) (hclock : InClock base (.ticks n)) :
    ReadsAs chars D L e indent
      (false, .text (if e.flags.datetime = true then ticks2str L (ticks2realtime base n) else decimalInt n)) old (.ticks n)
      (e.flags.datetime = true → (stampTime L (ticks2realtime base n)).elim (old = .ticks n) (· = n)) := by
  by_cases hd : e.flags.datetime = true
  · rw [if_pos hd]
    refine readsAs_text hchars (fun c hc => plain_ticks2str hc) ?_
    rw [reloads_stamp hL ht hclock old]
    cases stampTime L (ticks2realtime base n) <;> simp [hd]
  · rw [if_neg hd]
    refine readsAs_text hchars (fun c hc => plain_intText hc) (iff_of_true ?_ fun h => absurd h hd)
    exact (after_plain (intText_ne_nil n) old).trans (by rw [reloads_number_ticks ht hn]; rfl)

theorem readsAs_selector (hchars : Delivers chars) (hD : ∀ n, D.alloc.grants n = true) (hS : Markupless D.schema)
    (ht : e.type = .selector) {sel : Selector} (hsel : Storable (.selector (some sel))) :
    ReadsAs chars D L e indent (match dmSel2name D.schema sel maxParamNameLen with
      | some s => (false, .text s)
      | none => (false, .empty)) old (.selector (some sel))
      ((∃ name, dmSel2name D.schema sel maxParamNameLen = some name ∧ Readable D.schema sel maxParamNameLen) ∨
        (∀ name, dmSel2name D.schema sel maxParamNameLen = some name → name = [] ∨ dmName2sel D.schema name = none) ∧
          old = .selector (some sel)) := by
  cases hname : dmSel2name D.schema sel maxParamNameLen with
  | none =>
    exact (readsAs_empty hchars false).congr (by simp)
  | some name =>
    have hplain : ∀ c ∈ name, Plain c :=
      sel2nameFrom_mem ⟨by omega, by omega, rfl⟩ (fun c hc => plain_digit hc) hS.keys _ hname
    exact readsAs_text hchars hplain (by simpa using reloads_path hD hS.numbered ht hsel hname old)

/-- What is written for a value is legible, and is then read as the value if and only if this is one that reloads. -/
theorem content_reloads (hchars : Delivers chars) (hD : ∀ n, D.alloc.grants n = true) (hL : Readers L)
    (hS : Markupless D.schema) {k : ℕ} (he : e ∈ (D.schema.table k).elems) (hhandled : handled e.type = true)
    (htype : HasType e.type u) (hu : Storable u) {base : ℤ} (hclock : InClock base u) (hlegible : Legible e u) :
    ReadsAs chars D L e indent (elementBody D.schema (texts L base) e u) old u (Reloads D.schema L base e old u) := by
  unfold elementBody
  cases ht : e.type <;> rw [ht] at htype hhandled <;> simp only [handled, Bool.false_eq_true] at hhandled <;>
    obtain ⟨n, rfl⟩ := htype
  case bool =>
    refine readsAs_text hchars (fun c hc => ?_) (reloads_bool ht n old)
    have hword : ∀ d ∈ ascii "false" ++ ascii "true", Plain d := by
      unfold Plain
      decide
    split_ifs at hc
    · exact hword c (List.mem_append_left _ hc)
    · exact hword c (List.mem_append_right _ hc)
  case int => exact readsAs_text hchars (fun c hc => plain_intText hc) (iff_true_intro (reloads_int ht hu old))
  case int64 => exact readsAs_text hchars (fun c hc => plain_intText hc) (iff_true_intro (reloads_int64 ht hu old))
  case uint => exact readsAs_text hchars (fun c hc => plain_decimal hc) (iff_true_intro (reloads_uint ht hu old))
  case uint64 => exact readsAs_text hchars (fun c hc => plain_decimal hc) (iff_true_intro (reloads_uint64 ht hu old))
  case enum => exact readsAs_text hchars (fun c hc => plain_int2enum (hS.enums k e he) hc) (reloads_enum ht old)
  case date => exact readsAs_text hchars (fun c hc => plain_ticks2str hc) (reloads_date ht hclock.1 old)
  case ticks => exact readsAs_ticks hchars hL ht hu hclock
  case ipaddr4 =>
    have hne : n ≠ [] := List.ne_nil_of_length_pos (by rw [hu.1]; omega)
    refine readsAs_text hchars (fun c hc => plain_ntop4 hc) (iff_true_intro ?_)
    rw [after_plain (ntop4_ne_nil hne)]
    simp only [Rpc.dmString2value, ht, hL.inet n hu.1 hu.2]
    rfl
  case ipaddr6 =>
    obtain ⟨hne, hplain⟩ := hL.inet6_plain n hu.1 hu.2
    refine readsAs_text hchars hplain (iff_true_intro ?_)
    rw [texts, after_plain hne]
    simp only [Rpc.dmString2value, ht, hL.inet6 n hu.1 hu.2]
    rfl
  case str =>
    cases n with
    | none => exact readsAs_empty hchars false
    | some s =>
      obtain ⟨hne, hs, -⟩ := hu s rfl
      obtain ⟨c, s, rfl⟩ := List.exists_cons_of_ne_nil hne
      exact readsAs_str hchars hD ht hne hs
  case binary =>
    cases n with
    | none => exact readsAs_empty hchars false
    | some b =>
      obtain ⟨hne, hb, -⟩ := hu b rfl
      obtain ⟨c, b, rfl⟩ := List.exists_cons_of_ne_nil hne
      exact (readsAs_binary hchars hD ht hne hb (hlegible ht)).congr (by simp [Reloads, ht])
  case base64 =>
    cases n with
    | none => exact readsAs_empty hchars false
    | some b =>
      obtain ⟨hne, hb, -⟩ := hu b rfl
      obtain ⟨c, b, rfl⟩ := List.exists_cons_of_ne_nil hne
      exact (readsAs_base64 hchars hD ht hne hb).congr (by simp [Reloads, ht])
  case selector =>
    cases n with
    | none => exact readsAs_empty hchars false
    | some sel => exact readsAs_selector hchars hD hS ht hu

/-- Bytes that are no characters of XML are the only values that the parser refuses. -/
theorem content_refused (hchars : Delivers chars) (hu : Storable u) {base : ℤ}
    (hno : ¬Legible e u) : chars (written indent (elementBody D.schema (texts L base) e u).2) = none := by
  have hbinary : ∃ b, u = .binary (some b) ∧ e.type = .binary ∧ ¬∀ c ∈ b, xmlChar c = true := by
    unfold Legible at hno
    split at hno
    · next b => exact ⟨b, rfl, Classical.not_imp.mp hno⟩
    · exact absurd trivial hno
  obtain ⟨b, rfl, ht, hbytes⟩ := hbinary
  obtain ⟨hne, hb, -⟩ := hu b rfl
  obtain ⟨c, b, rfl⟩ := List.exists_cons_of_ne_nil hne
  have hbody : elementBody D.schema (texts L base) e (.binary (some (c :: b))) = (false, .text (serializeBinary (c :: b))) := by
    unfold elementBody
    rw [ht]
  rw [hbody]
  exact (hchars.binary hb).trans (if_neg hbytes)

end Content

end Texts

end Mand.Load
