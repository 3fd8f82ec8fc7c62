import Mand.Lib.CString
import Mand.Lib.Words

/-! # Lists in strings

The lists of `dm_store.c` that are texts with commas: `dm_add2list`, `dm_listdel` and `dm_listcontains`. -/
namespace Mand.Store
open Mand.Bytes Mand.CString Mand.Words
set_option autoImplicit false

/-! ## The functions -/

/-- `dm_add2list`. -/
def dmAdd2list (list : Option (List UInt8)) (str : List UInt8) : List UInt8 :=
  match list with
  | none => str
  | some l => l ++ 44 :: str

/-- The test for the entry at the head of `t`: `l2` is the length of that entry. -/
def entryIs (str t : List UInt8) : Bool :=
  str.length = (strchr t 44).getD t.length && strncmp str t str.length

/-- The loop of `dm_listdel` at the place `l`. `strAt` is the place of the string if it stands in the same allocation.
The result is the pointer that is returned and the memory, or nothing if a byte outside is written. -/
def listdelLoop (str : List UInt8) (strAt : Option ℕ) (m : Mem) (l : ℕ) : Option (Option ℕ × Mem) :=
  match _hread : textAt m l with
  | none => none
  | some t =>
    if t = [] then some (some l, m)
    else if entryIs str t = true then
      match strchr t 44 with
      | some i => do
        -- carve it out
        let behind ← textAt m (l + i + 1)
        let m ← memmove m l (l + i + 1) (behind.length + 1)
        some (some l, m)
      | none => do
        let m ← if strAt = some l then poke m l [0] else if l = 0 then none else poke m (l - 1) [0]
        some (some l, m)
    else
      match strchr t 44 with
      | some i => listdelLoop str strAt m (l + i + 1)
      | none => some (none, m)
termination_by m.length - l
decreasing_by
  have hlen := textAt_length _hread
  omega

def dmListdel (m : Mem) (str : List UInt8) (strAt : Option ℕ) : Option (Option ℕ × Mem) := listdelLoop str strAt m 0

/-- The loop of `dm_listcontains`. -/
def listcontainsLoop (str : List UInt8) (m : Mem) (l : ℕ) : Option Bool :=
  match _hread : textAt m l with
  | none => none
  | some t =>
    if t = [] then some false
    else if entryIs str t = true then some true
    else
      match strchr t 44 with
      | some i => listcontainsLoop str m (l + i + 1)
      | none => some false
termination_by m.length - l
decreasing_by
  have hlen := textAt_length _hread
  omega

def dmListcontains (m : Mem) (str : List UInt8) : Option Bool := listcontainsLoop str m 0

/-! ## Lists of entries -/

/-- An entry of a list. -/
def IsEntry (e : List UInt8) : Prop := e ≠ [] ∧ ∀ c ∈ e, c ≠ 44 ∧ c ≠ 0

/-- The list that a text stands for. -/
structure CommaList where
  entries : List (List UInt8)
  isEntry : ∀ e ∈ entries, IsEntry e

def CommaList.text (L : CommaList) : List UInt8 := List.intercalate [44] L.entries

/-- The list in its buffer, with `rest` behind the terminator. -/
def CommaList.mem (L : CommaList) (rest : List UInt8) : Mem := L.text ++ 0 :: rest

def CommaList.erase (L : CommaList) (str : List UInt8) : CommaList :=
  ⟨L.entries.erase str, fun e he => L.isEntry e (List.mem_of_mem_erase he)⟩

/-! ## One entry -/

/-- The entries behind the first. -/
def tailText (es : List (List UInt8)) : List UInt8 := es.flatMap (44 :: ·)

theorem strchr_entry {x : List UInt8} (hx : IsEntry x) (es : List (List UInt8)) :
    strchr (x ++ tailText es) 44 = if es = [] then none else some x.length := by
  have hcomma : (44 : UInt8) ∉ x := fun h => (hx.2 _ h).1 rfl
  cases es with
  | nil =>
    rw [if_pos rfl, tailText, List.flatMap_nil, List.append_nil]
    exact strchr_eq_none hcomma
  | cons y es => exact strchr_append hcomma _

theorem entryIs_eq {x : List UInt8} (hx : IsEntry x) (es : List (List UInt8)) (str : List UInt8) :
    entryIs str (x ++ tailText es) = decide (str = x) := by
  have hlen : (strchr (x ++ tailText es) 44).getD (x ++ tailText es).length = x.length := by
    rw [strchr_entry hx]
    cases es with
    | nil => simp [tailText]
    | cons y es => rfl
  rw [entryIs, hlen]
  by_cases hstr : str.length = x.length
  · have hle : str.length ≤ (x ++ tailText es).length := by
      rw [List.length_append]
      omega
    have hiff := strncmp_eq hle
    rw [List.take_left' hstr.symm] at hiff
    rw [decide_eq_true hstr, Bool.true_and, Bool.eq_iff_iff, hiff, decide_eq_true_iff]
  · have hne : str ≠ x := fun h => hstr (congrArg List.length h)
    rw [decide_eq_false hstr, Bool.false_and, decide_eq_false hne]

theorem entry_ne_nil {x : List UInt8} (hx : IsEntry x) (es : List (List UInt8)) : x ++ tailText es ≠ [] := by
  intro h
  exact hx.1 (List.append_eq_nil_iff.mp h).1

theorem mem_tailText {es : List (List UInt8)} (hes : ∀ e ∈ es, IsEntry e) : ∀ c ∈ tailText es, c ≠ 0 := by
  intro c hc
  obtain ⟨e, he, hc⟩ := List.mem_flatMap.mp hc
  rcases List.mem_cons.mp hc with rfl | hc
  · decide
  · exact ((hes e he).2 c hc).2

/-- The list from an entry on, with anything in front of it. -/
def fromEntry (x : List UInt8) (es : List (List UInt8)) (rest : List UInt8) : List UInt8 := x ++ tailText es ++ 0 :: rest

theorem textAt_fromEntry {x : List UInt8} {es : List (List UInt8)} (hes : ∀ e ∈ x :: es, IsEntry e) (pre rest : List UInt8) :
    textAt (pre ++ fromEntry x es rest) pre.length = some (x ++ tailText es) := by
  obtain ⟨hx, hes⟩ := List.forall_mem_cons.mp hes
  refine textAt_eq (fun c hc => ?_) pre rest
  exact (List.mem_append.mp hc).elim (fun h => (hx.2 c h).2) (mem_tailText hes c)

/-- The next entry is behind the comma. -/
theorem fromEntry_cons (pre x y : List UInt8) (es : List (List UInt8)) (rest : List UInt8) :
    pre ++ fromEntry x (y :: es) rest = (pre ++ x ++ [44]) ++ fromEntry y es rest := by
  simp [fromEntry, tailText]

theorem length_next (pre x : List UInt8) : pre.length + x.length + 1 = (pre ++ x ++ [44]).length := by
  rw [List.length_append, List.length_append]
  rfl

/-! ## `dm_listcontains` -/

theorem listcontainsLoop_eq {str m t : List UInt8} {l : ℕ} (h : textAt m l = some t) : listcontainsLoop str m l =
    if t = [] then some false else if entryIs str t = true then some true
      else match strchr t 44 with
      | some i => listcontainsLoop str m (l + i + 1)
      | none => some false := by
  rw [listcontainsLoop]
  split
  · rename_i hread
    rw [h] at hread
    cases hread
  · rename_i hread
    rw [h] at hread
    cases hread
    rfl

theorem listcontainsLoop_entries {str x : List UInt8} {es : List (List UInt8)} (hes : ∀ e ∈ x :: es, IsEntry e)
    (pre rest : List UInt8) :
    listcontainsLoop str (pre ++ fromEntry x es rest) pre.length = some (decide (str ∈ x :: es)) := by
  induction es generalizing pre x with
  | nil =>
    have hx := hes x List.mem_cons_self
    rw [listcontainsLoop_eq (textAt_fromEntry hes pre rest), if_neg (entry_ne_nil hx []), entryIs_eq hx,
      strchr_entry hx, if_pos rfl]
    by_cases hstr : str = x <;> simp [hstr]
  | cons y es ih =>
    have hx := hes x List.mem_cons_self
    rw [listcontainsLoop_eq (textAt_fromEntry hes pre rest), if_neg (entry_ne_nil hx _), entryIs_eq hx,
      strchr_entry hx, if_neg (List.cons_ne_nil y es)]
    dsimp only
    rw [length_next, fromEntry_cons, ih (fun e he => hes e (List.mem_cons_of_mem x he))]
    by_cases hstr : str = x <;> simp [hstr]

theorem CommaList.mem_eq {L : CommaList} {x : List UInt8} {es : List (List UInt8)} (h : L.entries = x :: es)
    (rest : List UInt8) : L.mem rest = fromEntry x es rest := by
  rw [CommaList.mem, CommaList.text, h, intercalate_cons]
  rfl

theorem textAt_nil {L : CommaList} (h : L.entries = []) (rest : List UInt8) : textAt (L.mem rest) 0 = some [] := by
  rw [CommaList.mem, CommaList.text, h]
  exact @textAt_eq [] (by simp) [] rest

theorem dmListcontains_eq (L : CommaList) (rest str : List UInt8) :
    dmListcontains (L.mem rest) str = some (decide (str ∈ L.entries)) := by
  rw [dmListcontains]
  cases h : L.entries with
  | nil =>
    rw [listcontainsLoop_eq (textAt_nil h rest), if_pos rfl]
    simp
  | cons x es =>
    rw [CommaList.mem_eq h]
    exact listcontainsLoop_entries (h ▸ L.isEntry) [] rest

/-! ## `dm_listdel` -/

theorem listdelLoop_eq {str m t : List UInt8} {l : ℕ} (h : textAt m l = some t) (strAt : Option ℕ) :
    listdelLoop str strAt m l =
    if t = [] then some (some l, m)
    else if entryIs str t = true then
      match strchr t 44 with
      | some i => do
        let behind ← textAt m (l + i + 1)
        let m ← memmove m l (l + i + 1) (behind.length + 1)
        some (some l, m)
      | none => do
        let m ← if strAt = some l then poke m l [0] else if l = 0 then none else poke m (l - 1) [0]
        some (some l, m)
    else
      match strchr t 44 with
      | some i => listdelLoop str strAt m (l + i + 1)
      | none => some (none, m) := by
  rw [listdelLoop]
  split
  · rename_i hread
    rw [h] at hread
    cases hread
  · rename_i hread
    rw [h] at hread
    cases hread
    rfl

/-- Other entries are passed over. -/
theorem listdelLoop_cons {str x y : List UInt8} {es : List (List UInt8)} (hes : ∀ e ∈ x :: y :: es, IsEntry e)
    (hne : str ≠ x) (pre rest : List UInt8) : listdelLoop str none (pre ++ fromEntry x (y :: es) rest) pre.length =
      listdelLoop str none ((pre ++ x ++ [44]) ++ fromEntry y es rest) (pre ++ x ++ [44]).length := by
  have hx := hes x List.mem_cons_self
  rw [listdelLoop_eq (textAt_fromEntry hes pre rest), if_neg (entry_ne_nil hx _), entryIs_eq hx, decide_eq_false hne,
    if_neg Bool.false_ne_true, strchr_entry hx, if_neg (List.cons_ne_nil y es)]
  dsimp only
  rw [length_next, fromEntry_cons]

theorem listdelLoop_none {str x : List UInt8} {es : List (List UInt8)} (hes : ∀ e ∈ x :: es, IsEntry e)
    (hstr : str ∉ x :: es) (pre rest : List UInt8) : listdelLoop str none (pre ++ fromEntry x es rest) pre.length =
      some (none, pre ++ fromEntry x es rest) := by
  induction es generalizing pre x with
  | nil =>
    have hx := hes x List.mem_cons_self
    have hne : str ≠ x := fun h => hstr (h ▸ List.mem_cons_self)
    rw [listdelLoop_eq (textAt_fromEntry hes pre rest), if_neg (entry_ne_nil hx _), entryIs_eq hx, decide_eq_false hne,
      if_neg Bool.false_ne_true, strchr_entry hx, if_pos rfl]
  | cons y es ih =>
    have hne : str ≠ x := fun h => hstr (h ▸ List.mem_cons_self)
    rw [listdelLoop_cons hes hne, ih (fun e he => hes e (List.mem_cons_of_mem x he)) (fun h => hstr (List.mem_cons_of_mem x h)),
      ← fromEntry_cons]

/-- An entry in front of others: they move to its place. -/
theorem listdelLoop_first {x y : List UInt8} {es : List (List UInt8)} (hes : ∀ e ∈ x :: y :: es, IsEntry e)
    (pre rest : List UInt8) : ∃ stale, stale.length = x.length + 1 ∧
      listdelLoop x none (pre ++ fromEntry x (y :: es) rest) pre.length =
        some (some pre.length, pre ++ fromEntry y es (stale ++ rest)) := by
  have hx := hes x List.mem_cons_self
  have hread : textAt (pre ++ fromEntry x (y :: es) rest) (pre.length + x.length + 1) = some (y ++ tailText es) := by
    rw [length_next, fromEntry_cons]
    exact textAt_fromEntry (fun e he => hes e (List.mem_cons_of_mem x he)) _ rest
  have hold : (x ++ [44]).length = x.length + 1 := List.length_append
  have hmove := memmove_down pre (x ++ [44]) (y ++ tailText es ++ [0]) rest
  rw [← List.append_assoc (x ++ [44]), List.drop_append_of_le_length (by simp; omega), hold, ← Nat.add_assoc] at hmove
  refine ⟨(x ++ [44] ++ (y ++ tailText es ++ [0])).drop (y ++ tailText es ++ [0]).length, ?_, ?_⟩
  · rw [List.length_drop, List.length_append, Nat.add_sub_cancel, hold]
  · have hmem : pre ++ fromEntry x (y :: es) rest = pre ++ (x ++ [44] ++ (y ++ tailText es ++ [0]) ++ rest) := by
      simp [fromEntry, tailText]
    rw [listdelLoop_eq (textAt_fromEntry hes pre rest), if_neg (entry_ne_nil hx _), entryIs_eq hx, decide_eq_true rfl,
      if_pos rfl, strchr_entry hx, if_neg (List.cons_ne_nil y es)]
    dsimp only
    rw [hread, Option.bind_eq_bind, Option.bind_some, hmem]
    have hlen : (y ++ tailText es ++ [0]).length = (y ++ tailText es).length + 1 := List.length_append
    rw [← hlen, hmove, Option.bind_some]
    simp [fromEntry]

/-- The last entry: the comma in front of it is overwritten. -/
theorem listdelLoop_last {x : List UInt8} (hx : IsEntry x) (pre rest : List UInt8) :
    listdelLoop x none (pre ++ [44] ++ fromEntry x [] rest) (pre ++ [44]).length =
      some (some (pre ++ [44]).length, pre ++ 0 :: (x ++ 0 :: rest)) := by
  have hes : ∀ e ∈ [x], IsEntry e := by simpa using hx
  have hpos : (pre ++ [44]).length - 1 = pre.length := by
    rw [List.length_append]
    rfl
  have hmem : pre ++ [44] ++ fromEntry x [] rest = pre ++ ([44] ++ fromEntry x [] rest) := List.append_assoc ..
  rw [listdelLoop_eq (textAt_fromEntry hes _ rest), if_neg (entry_ne_nil hx _), entryIs_eq hx, decide_eq_true rfl,
    if_pos rfl, strchr_entry hx, if_pos rfl]
  dsimp only
  rw [if_neg (by simp), if_neg (by simp), hpos, hmem, poke_ahead pre _ [0] (by simp)]
  simp [fromEntry, tailText]

/-- There is no comma in front of the only entry. -/
theorem listdelLoop_only {x : List UInt8} (hx : IsEntry x) (rest : List UInt8) :
    listdelLoop x none (fromEntry x [] rest) 0 = none := by
  have hes : ∀ e ∈ [x], IsEntry e := by simpa using hx
  have hread := textAt_fromEntry hes [] rest
  rw [List.nil_append, List.length_nil] at hread
  rw [listdelLoop_eq hread, if_neg (entry_ne_nil hx _), entryIs_eq hx, decide_eq_true rfl, if_pos rfl, strchr_entry hx,
    if_pos rfl]
  dsimp only
  rw [if_neg (by simp), if_pos rfl]
  rfl

theorem comma_fromEntry (p x : List UInt8) (es : List (List UInt8)) (rest : List UInt8) :
    p ++ [44] ++ fromEntry x es rest = p ++ tailText (x :: es) ++ 0 :: rest := by
  simp [fromEntry, tailText]

theorem length_tailText_cons (x : List UInt8) (es : List (List UInt8)) :
    (tailText (x :: es)).length = x.length + 1 + (tailText es).length := by
  rw [tailText, List.flatMap_cons, List.length_append]
  rfl

/-- Behind a comma. The text gets shorter by what `stale` holds then. -/
theorem listdelLoop_found {str x : List UInt8} {es : List (List UInt8)} (hes : ∀ e ∈ x :: es, IsEntry e)
    (hstr : str ∈ x :: es) (p rest : List UInt8) : ∃ l stale,
      stale.length + (tailText ((x :: es).erase str)).length = (tailText (x :: es)).length ∧
      listdelLoop str none (p ++ [44] ++ fromEntry x es rest) (p ++ [44]).length =
        some (l, p ++ tailText ((x :: es).erase str) ++ 0 :: (stale ++ rest)) := by
  induction es generalizing p x with
  | nil =>
    obtain rfl := List.mem_singleton.mp hstr
    refine ⟨some (p ++ [44]).length, str ++ [0], ?_, ?_⟩
    · simp [tailText]
    · rw [listdelLoop_last (hes str List.mem_cons_self)]
      simp [tailText]
  | cons y es ih =>
    have htail : ∀ e ∈ y :: es, IsEntry e := fun e he => hes e (List.mem_cons_of_mem x he)
    by_cases hne : str = x
    · subst hne
      obtain ⟨stale, hlen, hdel⟩ := listdelLoop_first hes (p ++ [44]) rest
      rw [List.erase_cons_head]
      exact ⟨_, stale, by rw [hlen, ← length_tailText_cons], by rw [hdel, comma_fromEntry]⟩
    · have hmem : str ∈ y :: es := (List.mem_cons.mp hstr).resolve_left hne
      obtain ⟨l, stale, hlen, hdel⟩ := ih htail hmem (p ++ [44] ++ x)
      rw [List.erase_cons_tail (by simpa using fun h => hne h.symm)]
      refine ⟨l, stale, ?_, ?_⟩
      · rw [length_tailText_cons, length_tailText_cons x]
        omega
      · rw [listdelLoop_cons hes hne, hdel]
        simp [tailText]

/-! ## Deleting an entry -/

/-- The first entry that is the string is gone with one comma, no byte behind the old terminator is touched, and
`dm_listcontains` finds what is left. -/
def Deletes (L : CommaList) (str rest : List UInt8) (r : Option (Option ℕ × Mem)) : Prop :=
  ∃ l stale, r = some (l, (L.erase str).mem (stale ++ rest)) ∧ stale.length + (L.erase str).text.length = L.text.length ∧
    dmListcontains ((L.erase str).mem (stale ++ rest)) str = some (decide (str ∈ L.entries.erase str))

theorem CommaList.text_eq {L : CommaList} {x : List UInt8} {es : List (List UInt8)} (h : L.entries = x :: es) :
    L.text = x ++ tailText es := by
  rw [CommaList.text, h, intercalate_cons]
  rfl

theorem deletes_of {L : CommaList} {str rest stale : List UInt8} {l : Option ℕ} {r : Option (Option ℕ × Mem)}
    (hr : r = some (l, (L.erase str).mem (stale ++ rest)))
    (hlen : stale.length + (L.erase str).text.length = L.text.length) : Deletes L str rest r :=
  ⟨l, stale, hr, hlen, dmListcontains_eq (L.erase str) (stale ++ rest) str⟩

theorem deletes_absent {L : CommaList} {str : List UInt8} (hstr : str ∉ L.entries) (rest : List UInt8) :
    Deletes L str rest (dmListdel (L.mem rest) str none) := by
  have herase : L.erase str = L := by
    rw [CommaList.erase]
    simp only [List.erase_of_not_mem hstr]
  have hsame : ∃ l, dmListdel (L.mem rest) str none = some (l, L.mem rest) := by
    cases hL : L.entries with
    | nil => exact ⟨some 0, by rw [dmListdel, listdelLoop_eq (textAt_nil hL rest), if_pos rfl]⟩
    | cons x es =>
      rw [hL] at hstr
      rw [CommaList.mem_eq hL]
      exact ⟨none, listdelLoop_none (hL ▸ L.isEntry) hstr [] rest⟩
  obtain ⟨l, hdel⟩ := hsame
  refine @deletes_of _ _ _ [] l _ ?_ ?_
  · rw [herase]
    exact hdel
  · rw [herase, List.length_nil, Nat.zero_add]

theorem deletes_first {L : CommaList} {str y : List UInt8} {es : List (List UInt8)} (hL : L.entries = str :: y :: es)
    (rest : List UInt8) : Deletes L str rest (dmListdel (L.mem rest) str none) := by
  have herase : (L.erase str).entries = y :: es := by
    show L.entries.erase str = _
    rw [hL, List.erase_cons_head]
  obtain ⟨stale, hlen, hdel⟩ := listdelLoop_first (hL ▸ L.isEntry) [] rest
  refine @deletes_of _ _ _ stale (some 0) _ ?_ ?_
  · rw [dmListdel, CommaList.mem_eq hL, CommaList.mem_eq herase]
    exact hdel
  · rw [CommaList.text_eq herase, CommaList.text_eq hL, List.length_append, List.length_append, length_tailText_cons]
    omega

theorem deletes_later {L : CommaList} {str x y : List UInt8} {es : List (List UInt8)} (hL : L.entries = x :: y :: es)
    (hx : str ≠ x) (hstr : str ∈ y :: es) (rest : List UInt8) :
    Deletes L str rest (dmListdel (L.mem rest) str none) := by
  have hes : ∀ e ∈ x :: y :: es, IsEntry e := hL ▸ L.isEntry
  have herase : (L.erase str).entries = x :: (y :: es).erase str := by
    show L.entries.erase str = _
    rw [hL, List.erase_cons_tail (by simpa using fun heq => hx heq.symm)]
  obtain ⟨l, stale, hlen, hdel⟩ := listdelLoop_found (fun e he => hes e (List.mem_cons_of_mem x he)) hstr x rest
  have hnext := listdelLoop_cons hes hx [] rest
  rw [List.nil_append] at hnext
  refine @deletes_of _ _ _ stale l _ ?_ ?_
  · rw [dmListdel, CommaList.mem_eq hL, CommaList.mem_eq herase]
    exact hnext.trans hdel
  · rw [CommaList.text_eq herase, CommaList.text_eq hL, List.length_append, List.length_append]
    omega

theorem dmListdel_deletes {L : CommaList} {str : List UInt8} (h : L.entries ≠ [str]) (rest : List UInt8) :
    Deletes L str rest (dmListdel (L.mem rest) str none) := by
  by_cases hstr : str ∈ L.entries
  · cases hL : L.entries with
    | nil =>
      rw [hL] at hstr
      exact absurd hstr List.not_mem_nil
    | cons x es =>
      rw [hL] at hstr h
      cases es with
      | nil => exact absurd (congrArg (fun e => [e]) (List.mem_singleton.mp hstr).symm) h
      | cons y es =>
        by_cases hx : str = x
        · exact deletes_first (hx ▸ hL) rest
        · exact deletes_later hL hx ((List.mem_cons.mp hstr).resolve_left hx) rest
  · exact deletes_absent hstr rest

/-- With the string as its only entry a list is not changed: a byte in front of it is. -/
theorem dmListdel_only {L : CommaList} {str : List UInt8} (h : L.entries = [str]) (rest : List UInt8) :
    dmListdel (L.mem rest) str none = none := by
  rw [CommaList.mem_eq h]
  exact listdelLoop_only (L.isEntry str (h ▸ List.mem_singleton_self str)) rest

theorem dmListdel_iff (L : CommaList) (str rest : List UInt8) :
    Deletes L str rest (dmListdel (L.mem rest) str none) ↔ L.entries ≠ [str] := by
  constructor
  · rintro ⟨l, stale, hdel, -, -⟩ h
    rw [dmListdel_only h] at hdel
    cases hdel
  · exact fun h => dmListdel_deletes h rest

theorem isEntry_a : ∀ e ∈ [[97]], IsEntry e := by simp [IsEntry]

/-- `a`. -/
def oneEntry : CommaList := ⟨[[97]], isEntry_a⟩

theorem dmListdel_oneEntry : ¬Deletes oneEntry [97] [] (dmListdel (oneEntry.mem []) [97] none) := by
  rintro ⟨l, stale, hdel, -, -⟩
  rw [dmListdel_only rfl] at hdel
  cases hdel

/-! ## Adding an entry -/

theorem dmAdd2list_text {L : CommaList} (hL : L.entries ≠ []) (str : List UInt8) :
    dmAdd2list (some L.text) str = List.intercalate [44] (L.entries ++ [str]) := by
  obtain ⟨x, es, h⟩ := List.exists_cons_of_ne_nil hL
  rw [dmAdd2list, CommaList.text_eq h, h, List.cons_append, intercalate_cons, List.flatMap_append]
  simp [tailText]

end Mand.Store
