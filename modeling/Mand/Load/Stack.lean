import Mand.Load.Deserialize
import Mand.Load.Integers

/-! # The stack of states

The place of the state in use is the number of open elements, whatever the elements are. The stack is left when the
tenth element is open at a time. -/
namespace Mand.Load
open Mand.Store Mand.Save Mand.Run Mand.Rpc Mand.Server
set_option autoImplicit false

variable {E : LoadEnv} {s s' : Deser}

/-! ## One event -/

theorem startRoot_cur (h : startRoot E s = some s') : s'.cur = s.cur := by
  unfold startRoot at h
  split at h
  · obtain ⟨r, -, rfl⟩ := Option.map_eq_some_iff.mp h
    rfl
  · cases h
    rfl

theorem startChild_cur {parent : XmlState} {name : List ℕ} {a : Attributes} (h : startChild E parent name a s = some s') :
    s'.cur = s.cur := by
  unfold startChild at h
  simp only [Option.bind_eq_bind, Option.bind_eq_some_iff] at h
  obtain ⟨element, -, h⟩ := h
  split at h
  · split at h
    · cases h
      rfl
    · simp only [Option.bind_eq_some_iff] at h
      obtain ⟨kw, -, v, -, h⟩ := h
      split at h
      · simp only [Option.bind_eq_some_iff, Option.some.injEq] at h
        obtain ⟨_, _, _, _, _, _, _, _, rfl⟩ := h
        rfl
      · cases h
  · cases h

theorem startElement_cur {name : List ℕ} {atts : List (List ℕ × List ℕ)} (h : startElement E name atts s = some s') :
    s'.cur = s.cur + 1 := by
  unfold startElement at h
  dsimp only at h
  split at h
  · exact startRoot_cur h
  · split at h
    · exact startChild_cur h
    · cases h
      rfl

theorem setValue_cur {p : Place} {v : DmValue} (h : s.setValue p v = some s') : s'.cur = s.cur := by
  cases p with
  | root =>
    cases h
    rfl
  | «at» l =>
    obtain ⟨st, -, rfl⟩ := Option.map_eq_some_iff.mp h
    rfl

theorem finishRow_cur {x : XmlState} (h : finishRow x s = some s') : s'.cur = s.cur := by
  unfold finishRow at h
  split at h
  · simp only [Option.bind_eq_bind, Option.bind_eq_some_iff, Option.some.injEq] at h
    obtain ⟨r, -, st, -, rfl⟩ := h
    rfl
  · cases h
    rfl

theorem finishValid_cur {x : XmlState} (h : finishValid E x s = some s') : s'.cur = s.cur := by
  unfold finishValid at h
  split at h
  · obtain ⟨s1, h1, h⟩ := Option.bind_eq_some_iff.mp h
    simp only [handleElement, Option.bind_eq_bind, Option.bind_eq_some_iff] at h1
    obtain ⟨_, -, p, -, _, -, r, -, hset⟩ := h1
    exact (finishRow_cur h).trans (setValue_cur hset)
  · cases h
    rfl

theorem finishUpgrade_cur {x : XmlState} (h : finishUpgrade E x s = some s') : s'.cur = s.cur := by
  unfold finishUpgrade at h
  split at h
  · obtain ⟨r, -, rfl⟩ := Option.map_eq_some_iff.mp h
    rfl
  · cases h
    rfl

theorem endElement_cur (h : endElement E s = some s') : s'.cur + 1 = s.cur := by
  simp only [endElement, Option.bind_eq_bind, Option.bind_eq_some_iff] at h
  obtain ⟨s1, h1, s2, h2, h⟩ := h
  have hcur : s2.cur = s.cur := (finishUpgrade_cur h2).trans (finishValid_cur h1)
  split at h
  · cases h
  · cases h
    show s2.cur - 1 + 1 = s.cur
    omega

/-! ## A run -/

/-- The place is the number of open elements. -/
theorem run_cur {evs : List Event} (h : run (handle E) s evs = some s') : s'.cur = level s.cur evs := by
  induction evs generalizing s with
  | nil =>
    cases h
    rfl
  | cons ev evs ih =>
    obtain ⟨s1, h1, h⟩ := Option.bind_eq_some_iff.mp h
    rw [ih h]
    cases ev with
    | start name atts => rw [level, startElement_cur h1]
    | chars chunk =>
      cases h1
      rfl
    | stop name => rw [level, ← endElement_cur h1, Nat.add_sub_cancel]

theorem level_append (d : ℕ) (evs evs' : List Event) : level d (evs ++ evs') = level (level d evs) evs' := by
  induction evs generalizing d with
  | nil => rfl
  | cons ev evs ih =>
    cases ev with
    | start name atts => exact ih (d + 1)
    | chars chunk => exact ih d
    | stop name => exact ih (d - 1)

/-- The nesting is the largest number of elements that are open after a part of the events. -/
theorem nesting_le (d m : ℕ) (evs : List Event) : nesting d evs ≤ m ↔ ∀ pre, pre <+: evs → level d pre ≤ m := by
  induction evs generalizing d with
  | nil =>
    constructor
    · intro h pre hpre
      rw [List.prefix_nil.mp hpre]
      exact h
    · intro h
      exact h [] (List.prefix_refl [])
  | cons ev evs ih =>
    have hsplit : (∀ pre, pre <+: ev :: evs → level d pre ≤ m) ↔
        d ≤ m ∧ ∀ pre, pre <+: evs → level d (ev :: pre) ≤ m := by
      constructor
      · intro h
        exact ⟨h [] List.nil_prefix, fun pre hpre => h (ev :: pre) ((List.prefix_cons_inj ev).mpr hpre)⟩
      · rintro ⟨h0, h⟩ pre hpre
        rcases List.prefix_cons_iff.mp hpre with rfl | ⟨rest, rfl, hrest⟩
        · exact h0
        · exact h rest hrest
    rw [hsplit]
    cases ev with
    | start name atts =>
      have hge : nesting (d + 1) evs ≤ m → d ≤ m := by
        intro h
        have : d + 1 ≤ m := (ih (d + 1)).mp h [] List.nil_prefix
        omega
      exact ⟨fun h => ⟨hge h, (ih (d + 1)).mp h⟩, fun h => (ih (d + 1)).mpr h.2⟩
    | chars chunk =>
      have hge : nesting d evs ≤ m → d ≤ m := fun h => (ih d).mp h [] List.nil_prefix
      exact ⟨fun h => ⟨hge h, (ih d).mp h⟩, fun h => (ih d).mpr h.2⟩
    | stop name =>
      rw [nesting, max_le_iff]
      exact and_congr_right fun _ => ih (d - 1)

/-- Other elements may be open outside. -/
theorem level_opened {names names' : List (List ℕ)} {evs : List Event} (h : opened names evs = some names') (k : ℕ) :
    level (names.length + k) evs = names'.length + k := by
  induction evs generalizing names with
  | nil =>
    cases h
    rfl
  | cons ev evs ih =>
    cases ev with
    | start name atts =>
      have hnext := @ih (name :: names) h
      rw [List.length_cons, Nat.add_right_comm] at hnext
      exact hnext
    | chars chunk => exact ih h
    | stop name =>
      cases names with
      | nil => cases h
      | cons m names =>
        rw [opened] at h
        split at h
        · rw [level, List.length_cons, Nat.add_right_comm, Nat.add_sub_cancel]
          exact ih h
        · cases h

/-- A document closes what it opens. -/
theorem Document.level {evs : List Event} (h : Document evs) : level 0 evs = 0 := by
  obtain ⟨name, atts, body, rfl, hbody⟩ := h
  show Load.level 1 (body ++ [.stop name]) = 0
  rw [level_append, show Load.level 1 body = 1 from level_opened hbody 1]
  rfl

theorem deserBegin_cur {before : Option DmStore} {version : ℤ} (h : deserBegin E before version = some s) : s.cur = 0 := by
  simp only [deserBegin, Option.bind_eq_bind, Option.bind_eq_some_iff, Option.some.injEq] at h
  obtain ⟨st, -, rfl⟩ := h
  rfl

def sampleLoad : LoadEnv where
  decode := sampleDecode
  libc := sampleLibc
  memcmp := bytecmp
  preVersionCheck := fun v st => some (v, st)
  postVersionCheck := fun v st => some (v, st)
  userConfig := true
  versionCheck := false

/-- Elements that no table knows. -/
def unknownDoc (n : ℕ) : List Event := List.replicate n (.start [120] []) ++ List.replicate n (.stop [120])

end Mand.Load
