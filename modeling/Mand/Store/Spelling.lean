import Mand.Store.Names
import Mathlib.Data.List.TakeWhile

/-! # Names that lead back

When `dm_name2sel` reads the name that `dm_sel2name` writes for a selector, it finds the selector again exactly if the
name is not cut at the end of the buffer and every part of it is found where it was taken from. -/
namespace Mand.Store
open Mand.Decimal
set_option autoImplicit false

/-! ## Tokens -/

theorem strtolId_digits {l : List ℕ} (hl : ∀ c ∈ l, 48 ≤ c ∧ c ≤ 57) (h : undecimal l < 2 ^ 16) :
    strtolId l = undecimal l := by
  have hall : l.takeWhile isdigit = l := by
    rw [List.takeWhile_eq_self_iff]
    intro c hc
    simpa [isdigit] using hl c hc
  rw [strtolId, hall, ← undecimal, Nat.min_eq_left (by omega), Nat.mod_eq_of_lt h]

/-- What follows a token: the text behind the dot, if there is one. -/
def behindDot : List ℕ → Option (List ℕ)
  | [] => none
  | _ :: t => some t

/-- The end of a name, or a dot. -/
def Dotted (r : List ℕ) : Prop := r = [] ∨ ∃ t, r = 46 :: t

theorem takeWhile_token {tok r : List ℕ} (htok : 46 ∉ tok) (hr : Dotted r) : (tok ++ r).takeWhile (· ≠ 46) = tok := by
  have htok' : ∀ c ∈ tok, (decide (c ≠ 46)) = true := fun c hc => by
    simpa using fun h : c = 46 => htok (h ▸ hc)
  rw [List.takeWhile_append_of_pos htok']
  obtain rfl | ⟨t, rfl⟩ := hr
  · simp
  · simp

theorem rest_token {tok r : List ℕ} (htok : 46 ∉ tok) (hr : Dotted r) :
    (if 46 ∈ tok ++ r then some ((tok ++ r).dropWhile (· ≠ 46)).tail else none) = behindDot r := by
  have htok' : ∀ c ∈ tok, (decide (c ≠ 46)) = true := fun c hc => by
    simpa using fun h : c = 46 => htok (h ▸ hc)
  obtain rfl | ⟨t, rfl⟩ := hr
  · simp [htok, behindDot]
  · rw [if_pos (by simp), List.dropWhile_append_of_pos htok']
    simp [behindDot]

theorem sel2nameFrom_dotted {S : Schema} {sel : Selector} {kw size : ℕ} {row : Bool} {r : List ℕ}
    (h : sel2nameFrom S sel kw row false size = some r) : Dotted r := by
  cases sel with
  | nil => exact .inl (by simpa [sel2nameFrom] using h.symm)
  | cons id sel =>
    rw [sel2nameFrom] at h
    simp only [Bool.false_eq_true, if_false] at h
    split_ifs at h with h0 hrow
    · exact .inl (by simpa using h.symm)
    · obtain ⟨rest, -, hr⟩ := Option.bind_eq_some_iff.mp h
      exact .inr ⟨_, by simpa using hr.symm⟩
    · obtain ⟨e, -, he⟩ := Option.bind_eq_some_iff.mp h
      split_ifs at he with hsize hcont
      · obtain ⟨rest, -, hr⟩ := Option.bind_eq_some_iff.mp he
        exact .inr ⟨_, by simpa using hr.symm⟩
      · exact .inr ⟨_, by simpa using he.symm⟩

/-- A token with its dot, and what follows. The bytes of the token are digits or belong to a key. -/
theorem sel2nameFrom_cons {S : Schema} {sel : Selector} {id kw size : ℕ} {row first : Bool} {r : List ℕ}
    (h : sel2nameFrom S (id :: sel) kw row first size = some r) :
    r = [] ∨ ∃ dot tok rest size', r = dot ++ tok ++ rest ∧ (∀ c ∈ dot, c = 46) ∧
      (∀ c ∈ tok, 48 ≤ c ∧ c ≤ 57 ∨ ∃ k, ∃ e ∈ (S.table k).elems, c ∈ e.key) ∧ dot.length + tok.length < size ∧
      size' ≤ size - dot.length - tok.length ∧
      (rest = [] ∨ ∃ kw' row', sel2nameFrom S sel kw' row' false size' = some rest) := by
  have hdot : (∀ c ∈ (if first = true then [] else [46] : List ℕ), c = 46) ∧
      (if first = true then [] else [46] : List ℕ).length ≤ 1 := by
    cases first <;> simp
  rw [sel2nameFrom] at h
  simp only at h
  by_cases h0 : id = 0 ∨ size ≤ 1
  · rw [if_pos h0] at h
    exact .inl (Option.some.inj h).symm
  rw [if_neg h0] at h
  generalize hd : (if first = true then [] else [46] : List ℕ) = dot at h hdot
  refine .inr ?_
  split_ifs at h with hrow
  · obtain ⟨rest, hrest, hr⟩ := Option.bind_eq_some_iff.mp h
    have htake := List.length_take_le (size - dot.length - 1) (decimal id)
    have htake' := List.length_take_le' (size - dot.length - 1) (decimal id)
    exact ⟨dot, (decimal id).take (size - dot.length - 1), rest, _, (Option.some.inj hr).symm, hdot.1,
      fun c hc => .inl (decimal_digit (List.mem_of_mem_take hc)), by omega, by omega, .inr ⟨_, _, hrest⟩⟩
  · obtain ⟨e, he, h⟩ := Option.bind_eq_some_iff.mp h
    have hkey : ∀ c ∈ e.key, 48 ≤ c ∧ c ≤ 57 ∨ ∃ k, ∃ e ∈ (S.table k).elems, c ∈ e.key := fun c hc =>
      .inr ⟨kw, e, List.mem_of_getElem? he, hc⟩
    split_ifs at h with hfit hc
    · obtain ⟨rest, hrest, hr⟩ := Option.bind_eq_some_iff.mp h
      exact ⟨dot, e.key, rest, _, (Option.some.inj hr).symm, hdot.1, hkey, by omega, by omega, .inr ⟨_, _, hrest⟩⟩
    · exact ⟨dot, e.key, [], 0, by rw [List.append_nil]; exact (Option.some.inj h).symm, hdot.1, hkey, by omega, by omega,
        .inl rfl⟩

theorem sel2nameFrom_length {S : Schema} (sel : Selector) {kw size : ℕ} {row first : Bool} {r : List ℕ}
    (h : sel2nameFrom S sel kw row first size = some r) : r.length ≤ size - 1 := by
  induction sel generalizing kw size row first r with
  | nil =>
    rw [show r = [] by simpa [sel2nameFrom] using h.symm]
    simp
  | cons id sel ih =>
    obtain rfl | ⟨dot, tok, rest, size', rfl, -, -, hlen, hsize, hrest⟩ := sel2nameFrom_cons h
    · simp
    · have hr : rest.length ≤ size' - 1 := by
        obtain rfl | ⟨kw', row', hrest⟩ := hrest
        · simp
        · exact ih hrest
      simp only [List.length_append]
      omega

theorem sel2nameFrom_mem {S : Schema} {P : ℕ → Prop} (hdot : P 46) (hdigit : ∀ c, 48 ≤ c ∧ c ≤ 57 → P c)
    (hkeys : ∀ k, ∀ e ∈ (S.table k).elems, ∀ c ∈ e.key, P c) (sel : Selector) {kw size : ℕ} {row first : Bool}
    {r : List ℕ} (h : sel2nameFrom S sel kw row first size = some r) : ∀ c ∈ r, P c := by
  induction sel generalizing kw size row first r with
  | nil =>
    rw [show r = [] by simpa [sel2nameFrom] using h.symm]
    exact fun _ hc => absurd hc List.not_mem_nil
  | cons id sel ih =>
    obtain rfl | ⟨dot, tok, rest, size', rfl, hd, htok, -, -, hrest⟩ := sel2nameFrom_cons h
    · exact fun _ hc => absurd hc List.not_mem_nil
    · intro c hc
      rw [List.mem_append, List.mem_append] at hc
      rcases hc with (hc | hc) | hc
      · rw [hd c hc]
        exact hdot
      · rcases htok c hc with hc' | ⟨k, e, he, hc'⟩
        · exact hdigit c hc'
        · exact hkeys k e he c hc'
      · obtain rfl | ⟨kw', row', hrest⟩ := hrest
        · exact absurd hc List.not_mem_nil
        · exact ih hrest c hc

/-! ## Ids -/

/-- The ids of elements are `dm_id`s. -/
def Schema.Numbered (S : Schema) : Prop := ∀ k, (S.table k).elems.length < 2 ^ 16

/-- An id that was found by name stands for an element of this name. -/
theorem elementIdByName_key {S : Schema} (hS : S.Numbered) {name : List ℕ} {kw id : ℕ} (h : elementIdByName S name kw = id)
    (herr : id ≠ dmErr) : ∃ e, (S.table kw).elems[id - 1]? = some e ∧ e.key = name := by
  unfold elementIdByName at h
  cases hi : (S.table kw).elems.findIdx? (fun e => e.key = name) with
  | none =>
    rw [hi] at h
    exact absurd h.symm herr
  | some i =>
    rw [hi] at h
    obtain ⟨hlt, hkey, -⟩ := List.findIdx?_eq_some_iff_getElem.mp hi
    have hlen := hS kw
    have hid : id - 1 = i := by
      simp only at h
      rw [Nat.mod_eq_of_lt (by omega)] at h
      omega
    rw [hid]
    exact ⟨_, List.getElem?_eq_getElem hlt, by simpa using hkey⟩

/-! ## Selectors -/

/-- The name of a selector leads back to it, and takes less than `room` bytes. -/
def ReadableFrom (S : Schema) : Selector → ℕ → Bool → ℕ → Prop
  | [], _, _, _ => True
  | id :: sel, kw, row, room =>
    id ≠ dmErr ∧
    if row = true then (decimal id).length < room ∧ ReadableFrom S sel kw false (room - (decimal id).length - 1)
    else ∃ e, (S.table kw).elems[id - 1]? = some e ∧ 46 ∉ e.key ∧ elementIdByName S e.key kw = id ∧
      e.key.length < room ∧
      if e.container = true then ReadableFrom S sel e.table (e.type = .object) (room - e.key.length - 1) else sel = []

/-- Ids that `dm_selector` can hold in front of its end. -/
def IdList (sel : Selector) : Prop := ∀ id ∈ sel, 0 < id ∧ id < 2 ^ 16

theorem name2selFrom_none (S : Schema) (n kw : ℕ) (row : Bool) : name2selFrom S n none kw row = some [] := by
  cases n with
  | zero => rfl
  | succ n => simp [name2selFrom, nextToken]

/-- A selector begins with the id of the first token. -/
theorem name2selFrom_head {S : Schema} {n kw id : ℕ} {row : Bool} {s : Option (List ℕ)} {sel : Selector}
    (h : name2selFrom S (n + 1) s kw row = some (id :: sel)) : (nextToken S s kw row).1 = id ∧ id ≠ dmErr := by
  rw [name2selFrom] at h
  simp only at h
  split_ifs at h with h0 herr hrow
  · simp at h
  · obtain ⟨rest, -, hr⟩ := Option.map_eq_some_iff.mp h
    rw [← (List.cons.inj hr).1]
    exact ⟨rfl, herr⟩
  · split at h
    · cases h
    · split_ifs at h
      · obtain ⟨rest, -, hr⟩ := Option.map_eq_some_iff.mp h
        rw [← (List.cons.inj hr).1]
        exact ⟨rfl, herr⟩
      · rw [← (List.cons.inj (Option.some.inj h)).1]
        exact ⟨rfl, herr⟩

theorem nextToken_row {S : Schema} {tok r : List ℕ} (kw : ℕ) (htok : ∀ c ∈ tok, 48 ≤ c ∧ c ≤ 57) (hr : Dotted r)
    (hval : undecimal tok < 2 ^ 16) :
    nextToken S (some (tok ++ r)) kw true = (if tok = [] then dmErr else undecimal tok, behindDot r) := by
  have hdot : 46 ∉ tok := fun h => by
    have := htok 46 h
    omega
  have hhead : isdigit ((tok ++ r).headD 0) = true ↔ tok ≠ [] := by
    cases tok with
    | nil =>
      obtain rfl | ⟨t, rfl⟩ := hr
      · simp [isdigit]
      · simp [isdigit]
    | cons c tok => simpa [isdigit] using htok c List.mem_cons_self
  simp only [nextToken, takeWhile_token hdot hr, rest_token hdot hr, if_true, hhead, strtolId_digits htok hval, ne_eq, ite_not]

theorem nextToken_name {S : Schema} {tok r : List ℕ} (kw : ℕ) (htok : 46 ∉ tok) (hr : Dotted r) :
    nextToken S (some (tok ++ r)) kw false = (elementIdByName S tok kw, behindDot r) := by
  simp only [nextToken, takeWhile_token htok hr, rest_token htok hr, Bool.false_eq_true, if_false]

theorem name2selFrom_row {S : Schema} {n id : ℕ} {s rest : Option (List ℕ)} {kw : ℕ} {sel : Selector}
    (h : nextToken S s kw true = (id, rest)) (h0 : id ≠ 0) (herr : id ≠ dmErr) :
    name2selFrom S (n + 1) s kw true = some (id :: sel) ↔ name2selFrom S n rest kw false = some sel := by
  rw [name2selFrom, h]
  simp [h0, herr]

theorem name2selFrom_name {S : Schema} {n id : ℕ} {s rest : Option (List ℕ)} {kw : ℕ} {sel : Selector} {e : DmElement}
    (h : nextToken S s kw false = (id, rest)) (h0 : id ≠ 0) (herr : id ≠ dmErr)
    (he : (S.table kw).elems[id - 1]? = some e) :
    name2selFrom S (n + 1) s kw false = some (id :: sel) ↔
      if e.container = true then name2selFrom S n rest e.table (e.type = .object) = some sel else sel = [] := by
  rw [name2selFrom, h]
  simp only [h0, herr, if_false, Bool.false_eq_true, he]
  split_ifs with hc
  · simp
  · simp [eq_comm]

section From

variable {S : Schema} (hS : S.Numbered) {sel : Selector} {id kw size n : ℕ} {r : List ℕ}

/-- One instance number. -/
theorem name2selFrom_row_iff (hid : 0 < id ∧ id < 2 ^ 16) (hsize : 1 < size)
    (ih : ∀ r, sel2nameFrom S sel kw false false (size - 1 - (decimal id).length) = some r →
      (name2selFrom S n (behindDot r) kw false = some sel ↔
        ReadableFrom S sel kw false (size - 1 - (decimal id).length - 1)))
    (h : sel2nameFrom S (id :: sel) kw true false size = some r) :
    name2selFrom S (n + 1) (behindDot r) kw true = some (id :: sel) ↔ ReadableFrom S (id :: sel) kw true (size - 1) := by
  rw [sel2nameFrom, if_neg (by omega)] at h
  simp only [Bool.false_eq_true, if_false, if_true, List.length_singleton] at h
  obtain ⟨rest, hrest, hr⟩ := Option.bind_eq_some_iff.mp h
  have hr' : behindDot r = some ((decimal id).take (size - 1 - 1) ++ rest) := by
    rw [← Option.some.inj hr]
    simp [behindDot]
  have hdot := sel2nameFrom_dotted hrest
  have hdigits : ∀ c ∈ (decimal id).take (size - 1 - 1), 48 ≤ c ∧ c ≤ 57 := fun c hc =>
    decimal_digit (List.mem_of_mem_take hc)
  rw [hr', ReadableFrom, if_pos rfl]
  by_cases hcut : (decimal id).length < size - 1
  · -- the number is there in full
    have htake : (decimal id).take (size - 1 - 1) = decimal id := List.take_of_length_le (by omega)
    rw [htake] at hdigits ⊢
    have hval := undecimal_decimal id
    have htok := nextToken_row kw hdigits hdot (S := S) (by omega)
    rw [if_neg (decimal_ne_nil id), hval] at htok
    by_cases herr : id = dmErr
    · exact ⟨fun hsel => absurd herr (name2selFrom_head hsel).2, fun hread => absurd herr hread.1⟩
    · rw [name2selFrom_row htok (by omega) herr, ih rest hrest]
      exact ⟨fun hread => ⟨herr, hcut, hread⟩, fun hread => hread.2.2⟩
  · -- what is left of the number is another one
    have hlt := undecimal_take_lt (n := id) (k := size - 1 - 1) (by omega) (by omega)
    have htok := nextToken_row kw hdigits hdot (S := S) (by omega)
    refine ⟨fun hsel => ?_, fun hread => absurd hread.2.1 hcut⟩
    obtain ⟨hhead, herr⟩ := name2selFrom_head hsel
    rw [htok] at hhead
    simp only at hhead
    split_ifs at hhead with hnil
    · exact absurd hhead.symm herr
    · exact absurd hhead hlt.ne

theorem sel2nameFrom_name (hid : 0 < id) (hsize : 1 < size)
    (h : sel2nameFrom S (id :: sel) kw false false size = some r) :
    ∃ e rest, (S.table kw).elems[id - 1]? = some e ∧ e.key.length < size - 1 ∧ behindDot r = some (e.key ++ rest) ∧
      Dotted rest ∧ (e.container = true →
        sel2nameFrom S sel e.table (e.type = .object) false (size - 1 - e.key.length) = some rest) := by
  rw [sel2nameFrom, if_neg (by omega)] at h
  simp only [Bool.false_eq_true, if_false, List.length_singleton] at h
  obtain ⟨e, he, h⟩ := Option.bind_eq_some_iff.mp h
  split_ifs at h with hfit hc
  · obtain ⟨rest, hrest, hr⟩ := Option.bind_eq_some_iff.mp h
    refine ⟨e, rest, he, by omega, ?_, sel2nameFrom_dotted hrest, fun _ => hrest⟩
    rw [← Option.some.inj hr]
    simp [behindDot]
  · refine ⟨e, [], he, by omega, ?_, .inl rfl, fun hc' => absurd hc' hc⟩
    rw [← Option.some.inj h]
    simp [behindDot]

include hS in
/-- One name. -/
theorem name2selFrom_name_iff (hid : 0 < id ∧ id < 2 ^ 16) (hsize : 1 < size)
    (ih : ∀ (e : DmElement) r, sel2nameFrom S sel e.table (e.type = .object) false (size - 1 - e.key.length) = some r →
      (name2selFrom S n (behindDot r) e.table (e.type = .object) = some sel ↔
        ReadableFrom S sel e.table (e.type = .object) (size - 1 - e.key.length - 1)))
    (h : sel2nameFrom S (id :: sel) kw false false size = some r) :
    name2selFrom S (n + 1) (behindDot r) kw false = some (id :: sel) ↔ ReadableFrom S (id :: sel) kw false (size - 1) := by
  obtain ⟨e, rest, he, hfit, hr, hdot, hrest⟩ := sel2nameFrom_name hid.1 hsize h
  rw [hr, ReadableFrom, if_neg (by simp)]
  by_cases hkey : 46 ∈ e.key
  · -- the first token ends inside the name
    refine ⟨fun hsel => ?_, fun ⟨_, e', he', hkey', _⟩ => ?_⟩
    · obtain ⟨hhead, herr⟩ := name2selFrom_head hsel
      simp only [nextToken, Bool.false_eq_true, if_false] at hhead
      obtain ⟨e', he', hkey'⟩ := elementIdByName_key hS hhead herr
      rw [he] at he'
      rw [← Option.some.inj he'] at hkey'
      rw [hkey'] at hkey
      have := List.mem_takeWhile_imp hkey
      simp at this
    · rw [he] at he'
      rw [← Option.some.inj he'] at hkey'
      exact absurd hkey hkey'
  · have htok := nextToken_name kw hkey hdot (S := S)
    by_cases hfound : elementIdByName S e.key kw = id ∧ id ≠ dmErr
    · rw [hfound.1] at htok
      rw [name2selFrom_name htok (by omega) hfound.2 he]
      have hsel : (if e.container = true then name2selFrom S n (behindDot rest) e.table (e.type = .object) = some sel
            else sel = []) ↔
          if e.container = true then ReadableFrom S sel e.table (e.type = .object) (size - 1 - e.key.length - 1)
            else sel = [] := by
        split_ifs with hc
        · exact ih e rest (hrest hc)
        · rfl
      rw [hsel]
      refine ⟨fun hread => ⟨hfound.2, e, he, hkey, hfound.1, hfit, hread⟩, fun ⟨_, e', he', _, _, _, hread⟩ => ?_⟩
      rw [he] at he'
      rw [← Option.some.inj he'] at hread
      exact hread
    · refine ⟨fun hsel => ?_, fun ⟨herr, e', he', _, hfound', _⟩ => ?_⟩
      · obtain ⟨hhead, herr⟩ := name2selFrom_head hsel
        rw [htok] at hhead
        exact absurd ⟨hhead, herr⟩ hfound
      · rw [he] at he'
        rw [← Option.some.inj he'] at hfound'
        exact absurd ⟨hfound', herr⟩ hfound

include hS in
/-- **Reading a name back**, behind a dot. -/
theorem name2selFrom_iff (sel : Selector) (hsel : IdList sel) {n : ℕ} (hn : sel.length ≤ n) {kw size : ℕ} {row : Bool}
    {r : List ℕ} (h : sel2nameFrom S sel kw row false size = some r) :
    name2selFrom S n (behindDot r) kw row = some sel ↔ ReadableFrom S sel kw row (size - 1) := by
  induction sel generalizing n kw size row r with
  | nil =>
    have hr : r = [] := by simpa [sel2nameFrom] using h.symm
    rw [hr, behindDot, name2selFrom_none]
    simp [ReadableFrom]
  | cons id sel ih =>
    have hid := hsel id List.mem_cons_self
    have hsel' : IdList sel := fun x hx => hsel x (List.mem_cons_of_mem _ hx)
    obtain ⟨n, rfl⟩ : ∃ m, n = m + 1 := ⟨n - 1, by rw [List.length_cons] at hn; omega⟩
    rw [List.length_cons] at hn
    by_cases hsize : size ≤ 1
    · -- no room for another dot
      rw [sel2nameFrom, if_pos (.inr hsize)] at h
      rw [← Option.some.inj h, behindDot, name2selFrom_none]
      have hroom : size - 1 = 0 := by omega
      refine ⟨fun hnil => by simp at hnil, fun hread => ?_⟩
      rw [ReadableFrom, hroom] at hread
      split_ifs at hread
      · exact absurd hread.2.1 (Nat.not_lt_zero _)
      · obtain ⟨-, e, -, -, -, hlt, -⟩ := hread
        exact absurd hlt (Nat.not_lt_zero _)
    · cases row with
      | true => exact name2selFrom_row_iff hid (by omega) (fun r hr => ih hsel' (by omega) hr) h
      | false => exact name2selFrom_name_iff hS hid (by omega) (fun e r hr => ih hsel' (by omega) hr) h

/-- A name at the front, as if it stood behind a dot. -/
theorem sel2nameFrom_first (hid : 0 < id) (hsize : 1 < size) :
    sel2nameFrom S (id :: sel) kw false false (size + 1) = (sel2nameFrom S (id :: sel) kw false true size).map (46 :: ·) := by
  have h1 : ¬(id = 0 ∨ size + 1 ≤ 1) := by omega
  have h2 : ¬(id = 0 ∨ size ≤ 1) := by omega
  simp only [sel2nameFrom, h1, h2, Bool.false_eq_true, if_false, if_true, List.length_singleton, List.length_nil, Nat.add_sub_cancel, Nat.sub_zero]
  cases (S.table kw).elems[id - 1]? with
  | none => rfl
  | some e =>
    simp only [Option.bind_eq_bind, Option.bind_some]
    split_ifs with hfit hc
    · rfl
    · cases sel2nameFrom S sel e.table (e.type = .object) false (size - e.key.length) with
      | none => rfl
      | some rest => simp
    · simp

end From

/-! ## Names -/

/-- The name of a selector fits into `size` bytes and leads back to it. -/
def Readable (S : Schema) (sel : Selector) (size : ℕ) : Prop :=
  ReadableFrom S sel S.root false size ∧ ∀ id e, sel = [id] → (S.table S.root).elems[id - 1]? = some e → e.key ≠ []

/-- The empty name stands for an element without a name. -/
theorem name2selFrom_empty {S : Schema} (hS : S.Numbered) {n kw : ℕ} {id : ℕ} {sel : Selector}
    (h : name2selFrom S (n + 1) (some []) kw false = some (id :: sel)) :
    sel = [] ∧ ∃ e, (S.table kw).elems[id - 1]? = some e ∧ e.key = [] := by
  have hdot : Dotted [] := .inl rfl
  have htok : nextToken S (some []) kw false = (elementIdByName S [] kw, none) :=
    @nextToken_name S [] [] kw (by simp) hdot
  obtain ⟨hhead, herr⟩ := name2selFrom_head h
  rw [htok] at hhead
  simp only at hhead
  obtain ⟨e, he, hkey⟩ := elementIdByName_key hS hhead herr
  refine ⟨?_, e, he, hkey⟩
  have h0 : id ≠ 0 := by
    intro h0
    rw [name2selFrom, htok, hhead, h0] at h
    simp at h
  rw [hhead] at htok
  rw [name2selFrom_name htok h0 herr he, name2selFrom_none] at h
  split_ifs at h with hc
  · exact (Option.some.inj h).symm
  · exact h

/-- **Names.** The name that `dm_sel2name` writes leads `dm_name2sel` back to the selector exactly if it is readable. -/
theorem dmName2sel_iff {S : Schema} (hS : S.Numbered) {sel : Selector} (hsel : IdList sel) (hlen : sel.length ≤ dmSelectorLen)
    (hne : sel ≠ []) {size : ℕ} (hsize : 1 < size) {name : List ℕ} (h : dmSel2name S sel size = some name) :
    dmName2sel S name = some sel ↔ Readable S sel size := by
  rw [dmSel2name, List.take_of_length_le hlen] at h
  obtain ⟨id, rest, rfl⟩ := List.exists_cons_of_ne_nil hne
  have hid := hsel id List.mem_cons_self
  have hdot : sel2nameFrom S (id :: rest) S.root false false (size + 1) = some (46 :: name) := by
    rw [sel2nameFrom_first hid.1 hsize, h]
    rfl
  have hiff := name2selFrom_iff hS (id :: rest) hsel hlen hdot
  rw [behindDot, Nat.add_sub_cancel] at hiff
  rw [dmName2sel, Readable, ← hiff]
  split_ifs with hname
  · refine ⟨fun hnil => by simp at hnil, fun ⟨hread, hkey⟩ => ?_⟩
    rw [hname] at hread
    obtain ⟨hrest, e, he, hnil⟩ := name2selFrom_empty hS hread
    exact absurd hnil (hkey id e (by rw [hrest]) he)
  · refine ⟨fun hread => ⟨hread, ?_⟩, fun hread => hread.1⟩
    rintro id' e hid' he hnil
    obtain ⟨rfl, rfl⟩ := List.cons.inj hid'
    rw [sel2nameFrom, if_neg (by omega)] at h
    simp only [Bool.false_eq_true, if_false, if_true, List.length_nil, Nat.sub_zero, he, Option.bind_eq_bind, Option.bind_some,
      hnil, sel2nameFrom, List.append_nil] at h
    split_ifs at h
    · exact hname (Option.some.inj h).symm
    · exact hname (Option.some.inj h).symm

end Mand.Store
