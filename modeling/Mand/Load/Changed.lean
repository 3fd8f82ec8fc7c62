import Mand.Load.Integers
import Mand.Index.Compare

/-! # What has changed

When `dm_string2value` marks a value as updated, against whether the stored value is another one. -/
namespace Mand.Load
open Mand.Store Mand.Save Mand.Index Mand.Rpc Mand.Scan Mand.Notify Mand.Server
set_option autoImplicit false

/-- A change to this text is seen. A `T_BINARY` is never marked, a block is not distinguished from a longer one that it
begins, and of an `int` only the low byte counts. -/
def Detectable (L : Libc) (memcmp : List ℕ → List ℕ → ℤ) (type : DmType) (str : List ℕ) (old : Value) : Prop :=
  match type with
  | .binary => old = .binary (if octets str = [] then none else some ((octets str).map UInt8.toNat))
  | .base64 => ∀ b, blockOf old = some b → b <+: Base64.from64 str → b = Base64.from64 str
  | .bool => sameText (ascii "true") str = true ∨ (boolOf old % 256 = 0 → boolOf old = 0)
  | .ipaddr4 => ∀ b, L.pton .inet str = some b → memcmp (addressOf old) b % 256 = 0 → addressOf old = b
  | .ipaddr6 => ∀ b, L.pton .inet6 str = some b → memcmp (addressOf old) b % 256 = 0 → addressOf old = b
  | _ => True

variable {D : DecodeEnv} {L : Libc} {memcmp : List ℕ → List ℕ → ℤ} {e : DmElement} {str : List ℕ} {old : Value}

/-! ## Comparisons -/

theorem compared_detects (r : Except DmResult Value) : (compared old r).value ≠ old → (compared old r).updated = true := by
  intro h
  cases r with
  | ok new => exact decide_eq_true (Ne.symm h)
  | error res => exact absurd rfl h

theorem name2selFrom_ids {S : Schema} {n : ℕ} {s : Option (List ℕ)} {kw : ℕ} {row : Bool} {sel : Selector}
    (h : name2selFrom S n s kw row = some sel) : 0 ∉ sel ∧ sel.length ≤ n := by
  induction n generalizing s kw row sel with
  | zero =>
    cases h
    simp
  | succ n ih =>
    have hcons {id : ℕ} {r : Option Selector} (hid : id ≠ 0) (hr : ∀ q, r = some q → 0 ∉ q ∧ q.length ≤ n)
        (hsel : r.map (id :: ·) = some sel) : 0 ∉ sel ∧ sel.length ≤ n + 1 := by
      obtain ⟨q, hq, rfl⟩ := Option.map_eq_some_iff.mp hsel
      obtain ⟨hzero, hlen⟩ := hr q hq
      refine ⟨?_, by simpa using hlen⟩
      rw [List.mem_cons, not_or]
      exact ⟨hid.symm, hzero⟩
    rw [name2selFrom] at h
    simp only at h
    split_ifs at h with h0 herr hrow
    · cases h
      simp
    · exact hcons h0 (fun q hq => ih hq) h
    · split at h
      · cases h
      · split_ifs at h
        · exact hcons h0 (fun q hq => ih hq) h
        · cases h
          simp only [List.mem_singleton, List.length_singleton]
          exact ⟨Ne.symm h0, by omega⟩

theorem dmName2sel_ids {S : Schema} {s : List ℕ} {sel : Selector} (h : dmName2sel S s = some sel) :
    0 ∉ sel ∧ sel.length ≤ dmSelectorLen := by
  unfold dmName2sel at h
  split_ifs at h
  · cases h
    simp
  · exact name2selFrom_ids h

/-- Selectors without padding compare equal only if they are. -/
theorem dmSelcmp_ids {a b : Selector} (ha : 0 ∉ a ∧ a.length ≤ dmSelectorLen) (hb : 0 ∉ b ∧ b.length ≤ dmSelectorLen)
    (h : dmSelcmp a b dmSelectorLen = 0) : a = b := by
  have hids {l : Selector} (hl : 0 ∉ l ∧ l.length ≤ dmSelectorLen) : (l.take dmSelectorLen).takeWhile (· ≠ 0) = l := by
    rw [List.take_of_length_le hl.2, List.takeWhile_eq_self_iff]
    intro id hid
    have hne : id ≠ 0 := fun h0 => hl.1 (h0 ▸ hid)
    simpa using hne
  rw [dmSelcmp_eq_zero, hids ha, hids hb] at h
  exact h

/-- Both branches of the source ask for a longer first block. -/
theorem dmBinarycmp_block (b n : List ℕ) : dmBinarycmp (some b) (some n) = 0 ↔ b <+: n := by
  refine ⟨?_, dmBinarycmp_start⟩
  intro h
  by_contra hno
  simp only [dmBinarycmp, bytecmp_common] at h
  by_cases hrev : n <+: b
  · have hzero : (if b <+: n ∨ n <+: b then 0 else bytecmp b n) = 0 := if_pos (.inr hrev)
    simp only [hzero, ne_eq, not_true, if_false] at h
    have hlen : b.length ≤ n.length := by
      by_contra hlt
      rw [if_pos (not_le.mp hlt)] at h
      cases h
    have heq := hrev.eq_of_length (le_antisymm hrev.length_le hlen)
    exact hno (heq ▸ List.prefix_refl n)
  · rw [if_neg (not_or.mpr ⟨hno, hrev⟩)] at h
    have hne : bytecmp b n ≠ 0 := fun h0 => hno (((bytecmp_eq_zero b n).mp h0) ▸ List.prefix_refl b)
    rw [if_pos hne] at h
    exact hne h

/-! ## The branches -/

theorem str_detects (htype : HasType .str old) (hold : Storable old) (he : e.type = .str)
    (hok : (convert D L memcmp e str old).res = .ok) :
    (convert D L memcmp e str old).value ≠ old → (convert D L memcmp e str old).updated = true := by
  obtain ⟨s, rfl⟩ := htype
  have hconv : convert D L memcmp e str (.str s) =
      stored (setStringValue D str) (.str none) (s.elim true fun s => bytecmp s str ≠ 0) := by simp only [convert, he, stringOf]
  rw [hconv] at hok ⊢
  cases s with
  | none =>
    intro _
    cases hr : setStringValue D str with
    | ok new => rfl
    | error res =>
      rw [hr] at hok
      cases hok
      unfold setStringValue at hr
      split_ifs at hr
      cases hr
  | some s =>
    obtain ⟨hne, -, -⟩ := hold s rfl
    unfold setStringValue at hok ⊢
    split_ifs at hok ⊢ with hnil hmem
    · intro _
      rw [hnil]
      exact decide_eq_true (mt (bytecmp_eq_zero s []).mp hne)
    · intro hdiff
      refine decide_eq_true (mt (bytecmp_eq_zero s str).mp ?_)
      rintro rfl
      exact hdiff rfl
    · cases hok

theorem binary_detects (he : e.type = .binary) (hok : (convert D L memcmp e str old).res = .ok) :
    ((convert D L memcmp e str old).value ≠ old → (convert D L memcmp e str old).updated = true) ↔
      old = .binary (if octets str = [] then none else some ((octets str).map UInt8.toNat)) := by
  have hconv : convert D L memcmp e str old = stored (setBinaryData D (octets str)) (.binary none) false := by
    simp only [convert, he]
  rw [hconv] at hok ⊢
  unfold setBinaryData at hok ⊢
  split_ifs at hok ⊢ with hnil hmem
  · simp [stored, eq_comm]
  · simp [stored, eq_comm]
  · cases hok

theorem base64_detects (htype : HasType .base64 old) (hold : Storable old) (he : e.type = .base64)
    (hok : (convert D L memcmp e str old).res = .ok) :
    ((convert D L memcmp e str old).value ≠ old → (convert D L memcmp e str old).updated = true) ↔
      ∀ b, blockOf old = some b → b <+: Base64.from64 str → b = Base64.from64 str := by
  obtain ⟨b, rfl⟩ := htype
  have hconv : convert D L memcmp e str (.binary b) =
      if D.alloc.grants (4 + (str.length + 4) * 3 / 4) = true then
        stored (setBinaryValue D (Base64.from64 str)) (.binary none) (dmBinarycmp b (some (Base64.from64 str)) ≠ 0)
      else ⟨.oom, false, .binary b⟩ := by
    unfold convert
    rw [he]
    rfl
  rw [hconv] at hok ⊢
  split_ifs at hok ⊢ with hmem
  · generalize Base64.from64 str = block at hok ⊢
    have hupdated (new : Value) : (stored (.ok new) (.binary none) (dmBinarycmp b (some block) ≠ 0)).updated = true ↔
        ∀ x, b = some x → ¬x <+: block := by
      cases b with
      | none => simp [stored, dmBinarycmp]
      | some x =>
        rw [stored, decide_eq_true_iff, ne_eq, dmBinarycmp_block]
        simp
    have hvalue : ∃ new, setBinaryValue D block = .ok new ∧ (new = .binary b ↔ (b = some block ∨ b = none ∧ block = [])) := by
      unfold setBinaryValue at hok ⊢
      split_ifs at hok ⊢ with hnil hgrant
      · refine ⟨_, rfl, ?_⟩
        rw [hnil]
        cases b with
        | none => simp
        | some x =>
          have hx := (hold x rfl).1
          simp [hx]
      · refine ⟨_, rfl, ?_⟩
        cases b with
        | none => simp [hnil]
        | some x => simp [eq_comm]
      · cases hok
    obtain ⟨new, hnew, hsame⟩ := hvalue
    rw [hnew, hupdated]
    show (new ≠ .binary b → _) ↔ _
    rw [ne_eq, hsame]
    simp only [blockOf]
    cases b with
    | none => simp
    | some x =>
      simp only [Option.some.injEq, reduceCtorEq, false_and, or_false, forall_eq']
      constructor
      · intro h hpre
        by_contra hne
        exact h hne hpre
      · exact fun h hne hpre => hne (h hpre)

theorem selector_detects (htype : HasType .selector old) (hold : Storable old) (he : e.type = .selector)
    (hok : (convert D L memcmp e str old).res = .ok) :
    (convert D L memcmp e str old).value ≠ old → (convert D L memcmp e str old).updated = true := by
  obtain ⟨s, rfl⟩ := htype
  have hconv : convert D L memcmp e str (.selector s) =
      (if str = [] then some [] else dmName2sel D.schema str).elim ⟨.invalidValue, false, .selector s⟩ fun sel =>
        stored (overwriteSelector D s sel) (.selector s) (s.elim true fun s => dmSelcmp s sel dmSelectorLen ≠ 0) := by
    unfold convert
    rw [he]
    cases (if str = [] then some [] else dmName2sel D.schema str) <;> rfl
  rw [hconv] at hok ⊢
  cases hsel : (if str = [] then some [] else dmName2sel D.schema str) with
  | none =>
    rw [hsel] at hok
    cases hok
  | some sel =>
    rw [hsel] at hok
    have hids : 0 ∉ sel ∧ sel.length ≤ dmSelectorLen := by
      split_ifs at hsel
      · cases hsel
        simp
      · exact dmName2sel_ids hsel
    intro hdiff
    rw [Option.elim_some] at hok hdiff ⊢
    cases hr : overwriteSelector D s sel with
    | error res =>
      rw [hr] at hdiff
      exact absurd rfl hdiff
    | ok new =>
      rw [hr] at hdiff
      cases s with
      | none => rfl
      | some s =>
        obtain ⟨-, hs, hlen⟩ := hold s rfl
        refine decide_eq_true fun heq => hdiff ?_
        have hzero : 0 ∉ s := fun h0 => absurd (hs 0 h0).1 (Nat.lt_irrefl 0)
        have hsame := dmSelcmp_ids ⟨hzero, hlen⟩ hids heq
        subst hsame
        have hhead : s.headD 0 ≠ 0 := by
          obtain ⟨id, rest, rfl⟩ := List.exists_cons_of_ne_nil (hold s rfl).1
          exact fun h0 => hzero (h0 ▸ List.mem_cons_self)
        rw [overwriteSelector, if_pos ⟨rfl, hhead⟩] at hr
        cases hr
        rfl

theorem bool_detects (htype : HasType .bool old) (he : e.type = .bool) (hok : (convert D L memcmp e str old).res = .ok) :
    ((convert D L memcmp e str old).value ≠ old → (convert D L memcmp e str old).updated = true) ↔
      sameText (ascii "true") str = true ∨ (boolOf old % 256 = 0 → boolOf old = 0) := by
  obtain ⟨n, rfl⟩ := htype
  have hconv : convert D L memcmp e str (.bool n) =
      if sameText (ascii "true") str = true then ⟨.ok, n ≠ 1, .bool 1⟩
      else if sameText (ascii "false") str = true then ⟨.ok, n % 256 ≠ 0, .bool 0⟩
      else ⟨.invalidValue, false, .bool n⟩ := by
    unfold convert
    rw [he]
    rfl
  rw [hconv] at hok ⊢
  simp only [boolOf]
  split_ifs at hok ⊢ with htrue hfalse
  · refine iff_of_true (fun hdiff => decide_eq_true fun h => hdiff (congrArg _ h.symm)) (.inl htrue)
  · simp only [htrue, false_or, ne_eq, Value.bool.injEq, decide_eq_true_iff, Bool.false_eq_true]
    constructor
    · intro h hmod
      by_contra hne
      exact h (Ne.symm hne) hmod
    · exact fun h hne hmod => hne (h hmod).symm

/-- `set` is the constructor for the addresses of the family. -/
theorem address_detects {set : List ℕ → Value} (f : Family) (hset : ∀ b, addressOf (set b) = b) {a : List ℕ} :
    ((address L memcmp set f (set a) str).value ≠ set a → (address L memcmp set f (set a) str).updated = true) ↔
      ∀ b, L.pton f str = some b → memcmp a b % 256 = 0 → a = b := by
  have hinj {b c : List ℕ} : set b = set c ↔ b = c := ⟨fun h => by rw [← hset b, h, hset], fun h => by rw [h]⟩
  unfold address
  cases L.pton f str with
  | none => simp
  | some b =>
    simp only [ne_eq, hinj, hset, decide_eq_true_iff, Option.some.injEq, forall_eq']
    constructor
    · intro h hmod
      by_contra hne
      exact h (Ne.symm hne) hmod
    · exact fun h hne hmod => hne (h hmod).symm

theorem convert_detects (htype : HasType e.type old) (hold : Storable old) (hok : (convert D L memcmp e str old).res = .ok) :
    ((convert D L memcmp e str old).value ≠ old → (convert D L memcmp e str old).updated = true) ↔
      Detectable L memcmp e.type str old := by
  cases he : e.type <;> rw [he] at htype
  case str => exact iff_true_intro (str_detects htype hold he hok)
  case binary => exact binary_detects he hok
  case base64 => exact base64_detects htype hold he hok
  case selector => exact iff_true_intro (selector_detects htype hold he hok)
  case bool => exact bool_detects htype he hok
  case ipaddr4 =>
    obtain ⟨a, rfl⟩ := htype
    have hconv : convert D L memcmp e str (.ip4 a) = address L memcmp .ip4 .inet (.ip4 a) str := by simp only [convert, he]
    rw [hconv]
    exact address_detects .inet fun _ => rfl
  case ipaddr6 =>
    obtain ⟨a, rfl⟩ := htype
    have hconv : convert D L memcmp e str (.ip6 a) = address L memcmp .ip6 .inet6 (.ip6 a) str := by simp only [convert, he]
    rw [hconv]
    exact address_detects .inet6 fun _ => rfl
  all_goals
    refine iff_true_intro ?_
    simp only [convert, he] at hok ⊢
    first
    | exact compared_detects _
    | cases hok

/-! ## The whole function -/

/-- A change that `dm_string2value` stores is marked exactly if the mark was there before or the change is seen. -/
theorem change_detected_iff (D : DecodeEnv) (L : Libc) (memcmp : List ℕ → List ℕ → ℤ) (e : DmElement) (str : List ℕ)
    (v v' : DmValue) (old : Value) (hv : v.content = .scalar old) (htype : HasType e.type old) (hold : Storable old)
    (h : dmString2value D L memcmp e (some str) true v = some (.ok, v')) :
    ((∀ new, v'.content = .scalar new → new ≠ old → v'.flags.updated = true) ↔
      v.flags.updated = true ∨ Detectable L memcmp e.type str old) := by
  have hleaf : leafValue (some (.scalar old)) = old := rfl
  simp only [dmString2value, hv, hleaf, putLeaf] at h
  split_ifs at h with hset hmark
  · rw [Option.some.injEq, Prod.mk.injEq] at h
    obtain ⟨hok, rfl⟩ := h
    have hdet := (convert_detects htype hold hok).mp fun _ => hmark.2.2
    simp [hdet]
  · rw [Option.some.injEq, Prod.mk.injEq] at h
    obtain ⟨hok, rfl⟩ := h
    rw [← convert_detects htype hold hok]
    have hno : (convert D L memcmp e str old).updated = false := by simpa [hok] using hmark
    rw [hno]
    cases hflag : v.flags.updated <;> simp

/-- `ab` in the place of `a`. -/
theorem longer_block_missed : ¬∀ (e : DmElement) (str : List ℕ) (v v' : DmValue) (old new : Value),
    v.content = .scalar old → HasType e.type old → Storable old →
    dmString2value sampleDecode sampleLibc bytecmp e (some str) true v = some (.ok, v') →
    v'.content = .scalar new → new ≠ old → v'.flags.updated = true := by
  intro h
  have hflag := h (sampleLeaf .base64) (ascii "YWI=") ⟨.scalar (.binary (some [97])), 0, Flags.zero, true⟩
    ⟨.scalar (.binary (some [97, 98])), 0, Flags.zero, true⟩ (.binary (some [97])) (.binary (some [97, 98])) rfl ⟨_, rfl⟩
    (by simp [Storable, Octets]) rfl rfl (by simp)
  cases hflag

theorem change_detected_seven :
    ((∀ new, Content.scalar (.int 7) = .scalar new → new ≠ .int 0 → true = true) ↔
      false = true ∨ Detectable sampleLibc bytecmp .int (ascii "7") (.int 0)) :=
  change_detected_iff sampleDecode sampleLibc bytecmp (sampleLeaf .int) (ascii "7")
    ⟨.scalar (.int 0), 0, Flags.zero, true⟩ ⟨.scalar (.int 7), 0, ⟨false, false, true, false⟩, true⟩ (.int 0) rfl ⟨_, rfl⟩
    (by norm_num [Storable]) rfl

end Mand.Load
