import Mand.Store.Spelling

/-! # Paths

The grammar of dotted paths over a schema, against `dm_name2sel` and `dm_sel2name`. -/
namespace Mand.Store
open Mand.Decimal
set_option autoImplicit false

/-! ## Full names -/

/-- The keys and numbers of a selector that stands for something; nothing stands behind a leaf. -/
def pathTokens (S : Schema) : Selector → ℕ → Bool → Option (List (List ℕ))
  | [], _, _ => some []
  | id :: sel, kw, row =>
    if row = true then (pathTokens S sel kw false).map (decimal id :: ·)
    else match (S.table kw).elems[id - 1]? with
      | none => none
      | some e =>
        if e.container = true then (pathTokens S sel e.table (e.type = .object)).map (e.key :: ·)
        else if sel = [] then some [e.key] else none

/-- The complete dotted name. -/
def fullName (S : Schema) (sel : Selector) : Option (List ℕ) :=
  (pathTokens S sel S.root false).map (List.intercalate [46])

/-- Tokens behind dots. -/
def dotted (tokens : List (List ℕ)) : List ℕ := tokens.flatMap (46 :: ·)

theorem dotted_cons (t : List ℕ) (ts : List (List ℕ)) : dotted (t :: ts) = 46 :: t ++ dotted ts := by
  simp [dotted]

theorem dotted_eq (t : List ℕ) (ts : List (List ℕ)) : dotted (t :: ts) = 46 :: List.intercalate [46] (t :: ts) := by
  induction ts generalizing t with
  | nil => simp [dotted]
  | cons u ts ih =>
    rw [dotted_cons, ih, List.intercalate_cons_cons]
    simp

/-! ## Schemas and selectors -/

/-- Distinct, non-empty keys without dots, and ids apart from `DM_ERR`. -/
structure Keyed (S : Schema) : Prop where
  distinct : ∀ k, ((S.table k).elems.map DmElement.key).Nodup
  nonempty : ∀ k, ∀ e ∈ (S.table k).elems, e.key ≠ []
  dotless : ∀ k, ∀ e ∈ (S.table k).elems, 46 ∉ e.key
  count : ∀ k, (S.table k).elems.length < dmErr

/-- Child ids within their table, instance ids up to 65534, nothing after a leaf. -/
def ValidFrom (S : Schema) : Selector → ℕ → Bool → Prop
  | [], _, _ => True
  | id :: sel, kw, row =>
    0 < id ∧
    if row = true then id < dmErr ∧ ValidFrom S sel kw false
    else ∃ e, (S.table kw).elems[id - 1]? = some e ∧
      if e.container = true then ValidFrom S sel e.table (e.type = .object) else sel = []

theorem Keyed.numbered {S : Schema} (hS : Keyed S) : S.Numbered := fun k => Nat.lt_succ_of_lt (hS.count k)

/-- A key leads to its element. -/
theorem Keyed.elementIdByName {S : Schema} (hS : Keyed S) {kw id : ℕ} {e : DmElement} (hid : 0 < id)
    (he : (S.table kw).elems[id - 1]? = some e) : elementIdByName S e.key kw = id := by
  obtain ⟨hlt, hget⟩ := List.getElem?_eq_some_iff.mp he
  have hfirst : (S.table kw).elems.findIdx? (fun x => x.key = e.key) = some (id - 1) := by
    rw [List.findIdx?_eq_some_iff_getElem]
    refine ⟨hlt, by simp [hget], fun j hj => ?_⟩
    have hne := List.nodup_iff_injective_get.mp (hS.distinct kw)
    simp only [decide_eq_true_eq]
    intro hkey
    have := @hne ⟨j, by simp; omega⟩ ⟨id - 1, by simpa using hlt⟩ (by simp [hkey, hget])
    simp only [Fin.mk.injEq] at this
    omega
  have hcount := hS.count kw
  unfold dmErr at hcount
  rw [Store.elementIdByName, hfirst]
  simp only
  omega

/-- What the first id of a selector adds to its tokens. -/
theorem pathTokens_cons {S : Schema} {sel : Selector} {id kw : ℕ} {row : Bool} {ts : List (List ℕ)}
    (h : pathTokens S (id :: sel) kw row = some ts) :
    (row = true ∧ ∃ ts', pathTokens S sel kw false = some ts' ∧ ts = decimal id :: ts') ∨
    (row = false ∧ ∃ e ts', (S.table kw).elems[id - 1]? = some e ∧ ts = e.key :: ts' ∧
      if e.container = true then pathTokens S sel e.table (e.type = .object) = some ts' else sel = [] ∧ ts' = []) := by
  rw [pathTokens] at h
  cases row with
  | true =>
    obtain ⟨ts', hts, rfl⟩ := Option.map_eq_some_iff.mp h
    exact .inl ⟨rfl, ts', hts, rfl⟩
  | false =>
    simp only [Bool.false_eq_true, if_false] at h
    refine .inr ⟨rfl, ?_⟩
    cases he : (S.table kw).elems[id - 1]? with
    | none => simp [he] at h
    | some e =>
      simp only [he] at h
      split_ifs at h with hc hsel
      · obtain ⟨ts', hts, rfl⟩ := Option.map_eq_some_iff.mp h
        exact ⟨e, ts', rfl, rfl, by rw [if_pos hc]; exact hts⟩
      · cases h
        exact ⟨e, [], rfl, rfl, by rw [if_neg hc]; exact ⟨hsel, rfl⟩⟩

/-- Where there is room for the whole name, it is written. -/
theorem sel2nameFrom_full {S : Schema} (sel : Selector) (hsel : ∀ id ∈ sel, 0 < id) {kw size : ℕ} {row : Bool}
    {ts : List (List ℕ)} (hts : pathTokens S sel kw row = some ts) (hfit : (dotted ts).length < size) :
    sel2nameFrom S sel kw row false size = some (dotted ts) := by
  induction sel generalizing kw size row ts with
  | nil =>
    cases hts
    rfl
  | cons id sel ih =>
    have hid := hsel id List.mem_cons_self
    have ih' := fun {kw size row ts} => @ih (fun x hx => hsel x (List.mem_cons_of_mem _ hx)) kw size row ts
    rcases pathTokens_cons hts with ⟨rfl, ts', hts', rfl⟩ | ⟨rfl, e, ts', he, rfl, hrest⟩
    · rw [dotted_cons] at hfit ⊢
      simp only [List.cons_append, List.length_cons, List.length_append] at hfit
      have hname : sel2nameFrom S sel kw false false (size - 1 - (decimal id).length) = some (dotted ts') :=
        ih' hts' (by omega)
      have htake : (decimal id).take (size - 1 - 1) = decimal id := List.take_of_length_le (by omega)
      rw [sel2nameFrom, if_neg (by omega)]
      simp [hname, htake]
    · rw [dotted_cons] at hfit ⊢
      simp only [List.cons_append, List.length_cons, List.length_append] at hfit
      rw [sel2nameFrom, if_neg (by omega)]
      simp only [Bool.false_eq_true, if_false, he, Option.bind_eq_bind, Option.bind_some, List.length_singleton]
      rw [if_neg (by omega)]
      split_ifs at hrest ⊢ with hc
      · have hname : sel2nameFrom S sel e.table (e.type = .object) false (size - 1 - e.key.length) = some (dotted ts') :=
          ih' hrest (by omega)
        simp [hname]
      · obtain ⟨-, rfl⟩ := hrest
        simp [dotted]

theorem ValidFrom.pos {S : Schema} {sel : Selector} {kw : ℕ} {row : Bool} (h : ValidFrom S sel kw row) :
    ∀ id ∈ sel, 0 < id := by
  induction sel generalizing kw row with
  | nil => exact fun _ hid => absurd hid List.not_mem_nil
  | cons id sel ih =>
    rw [ValidFrom] at h
    obtain ⟨hid, h⟩ := h
    refine List.forall_mem_cons.mpr ⟨hid, ?_⟩
    split_ifs at h with hrow
    · exact ih h.2
    · obtain ⟨e, -, h⟩ := h
      split_ifs at h
      · exact ih h
      · rw [h]
        exact fun _ hid => absurd hid List.not_mem_nil

theorem ValidFrom.idList {S : Schema} (hS : Keyed S) {sel : Selector} {kw : ℕ} {row : Bool} (h : ValidFrom S sel kw row) :
    IdList sel := by
  induction sel generalizing kw row with
  | nil => exact fun _ hid => absurd hid List.not_mem_nil
  | cons id sel ih =>
    rw [ValidFrom] at h
    obtain ⟨hid, h⟩ := h
    unfold dmErr at h
    cases row with
    | true =>
      simp only [if_true] at h
      exact List.forall_mem_cons.mpr ⟨⟨hid, by omega⟩, ih h.2⟩
    | false =>
      simp only [Bool.false_eq_true, if_false] at h
      obtain ⟨e, he, h⟩ := h
      have hlt := (List.getElem?_eq_some_iff.mp he).1
      have hcount := hS.count kw
      unfold dmErr at hcount
      refine List.forall_mem_cons.mpr ⟨⟨hid, by omega⟩, ?_⟩
      split_ifs at h
      · exact ih h
      · rw [h]
        exact fun _ hid => absurd hid List.not_mem_nil

/-- A valid selector has a name. -/
theorem ValidFrom.tokens {S : Schema} {sel : Selector} {kw : ℕ} {row : Bool} (h : ValidFrom S sel kw row) :
    ∃ ts, pathTokens S sel kw row = some ts := by
  induction sel generalizing kw row with
  | nil => exact ⟨[], rfl⟩
  | cons id sel ih =>
    rw [ValidFrom] at h
    obtain ⟨-, h⟩ := h
    rw [pathTokens]
    cases row with
    | true =>
      obtain ⟨ts, hts⟩ := ih h.2
      exact ⟨_, by rw [hts]; rfl⟩
    | false =>
      simp only [Bool.false_eq_true, if_false] at h ⊢
      obtain ⟨e, he, h⟩ := h
      simp only [he]
      by_cases hc : e.container = true
      · rw [if_pos hc] at h
        obtain ⟨ts, hts⟩ := ih h
        exact ⟨_, by rw [if_pos hc, hts]; rfl⟩
      · rw [if_neg hc] at h
        exact ⟨_, by rw [if_neg hc, if_pos h]⟩

/-- With room for its name, a valid selector is readable. -/
theorem ValidFrom.readable {S : Schema} (hS : Keyed S) {sel : Selector} {kw room : ℕ} {row : Bool}
    (h : ValidFrom S sel kw row) {ts : List (List ℕ)} (hts : pathTokens S sel kw row = some ts)
    (hfit : (dotted ts).length ≤ room) : ReadableFrom S sel kw row room := by
  induction sel generalizing kw room row ts with
  | nil => trivial
  | cons id sel ih =>
    rw [ValidFrom] at h
    obtain ⟨hid, h⟩ := h
    rcases pathTokens_cons hts with ⟨rfl, ts', hts', rfl⟩ | ⟨rfl, e, ts', he, rfl, hrest⟩
    · rw [dotted_cons] at hfit
      simp only [List.cons_append, List.length_cons, List.length_append] at hfit
      rw [if_pos rfl] at h
      rw [ReadableFrom, if_pos rfl]
      exact ⟨h.1.ne, by omega, ih h.2 hts' (by omega)⟩
    · rw [dotted_cons] at hfit
      simp only [List.cons_append, List.length_cons, List.length_append] at hfit
      rw [if_neg (by simp)] at h
      obtain ⟨e', he', h⟩ := h
      rw [he] at he'
      cases he'
      have hmem := List.mem_of_getElem? he
      have hlt : id < dmErr := by
        have := (List.getElem?_eq_some_iff.mp he).1
        have := hS.count kw
        omega
      rw [ReadableFrom, if_neg (by simp)]
      refine ⟨hlt.ne, e, he, hS.dotless kw e hmem, hS.elementIdByName hid he, by omega, ?_⟩
      split_ifs at h hrest ⊢ with hc
      · exact ih h hrest (by omega)
      · exact h

/-- **Names round trip.** -/
theorem names_round_trip (S : Schema) (hS : Keyed S) (sel : Selector) (hlen : sel.length ≤ dmSelectorLen)
    (hsel : ValidFrom S sel S.root false) : ∃ name, fullName S sel = some name ∧
      ∀ size, name.length < size → dmSel2name S sel size = some name ∧ dmName2sel S name = some sel := by
  obtain ⟨ts, hts⟩ := hsel.tokens
  refine ⟨List.intercalate [46] ts, by rw [fullName, hts]; rfl, fun size hsize => ?_⟩
  cases sel with
  | nil =>
    cases hts
    exact ⟨rfl, rfl⟩
  | cons id sel =>
    have hpos := hsel.pos
    obtain ⟨t, ts, rfl, ht⟩ : ∃ t ts', ts = t :: ts' ∧ t ≠ [] := by
      rcases pathTokens_cons hts with ⟨hrow, -⟩ | ⟨-, e, ts', he, rfl, -⟩
      · cases hrow
      · exact ⟨_, _, rfl, hS.nonempty _ e (List.mem_of_getElem? he)⟩
    have hdot := dotted_eq t ts
    have hlen' := congrArg List.length hdot
    simp only [List.length_cons] at hlen'
    have hsize' : 1 < size := by
      have := List.length_pos_of_ne_nil ht
      rw [dotted_cons] at hlen'
      simp only [List.cons_append, List.length_cons, List.length_append] at hlen'
      omega
    have hname : dmSel2name S (id :: sel) size = some (List.intercalate [46] (t :: ts)) := by
      have hfull : sel2nameFrom S (id :: sel) S.root false false (size + 1) = some (dotted (t :: ts)) :=
        sel2nameFrom_full (id :: sel) hpos hts (by omega)
      rw [sel2nameFrom_first (hpos id List.mem_cons_self) hsize', hdot] at hfull
      obtain ⟨name, hname, heq⟩ := Option.map_eq_some_iff.mp hfull
      rw [dmSel2name, List.take_of_length_le hlen, hname, (List.cons.inj heq).2]
    refine ⟨hname, (dmName2sel_iff hS.numbered (hsel.idList hS) hlen (by simp) hsize' hname).mpr
      ⟨hsel.readable hS hts (by omega), fun _ e _ he => hS.nonempty _ e (List.mem_of_getElem? he)⟩⟩

/-! ## The path grammar -/

/-- The components of a path. -/
def components (s : List ℕ) : List (List ℕ) := if s = [] then [] else s.splitOn 46

/-- A decimal numeral between 1 and 65534. -/
def Numeral (c : List ℕ) : Prop := c ≠ [] ∧ (∀ d ∈ c, 48 ≤ d ∧ d ≤ 57) ∧ 1 ≤ undecimal c ∧ undecimal c ≤ 65534

/-- Every component names a child of the preceding container or, after an object, is a numeral. -/
def PathFrom (S : Schema) : List (List ℕ) → ℕ → Bool → Prop
  | [], _, _ => True
  | c :: cs, kw, row =>
    if row = true then Numeral c ∧ PathFrom S cs kw false
    else ∃ e ∈ (S.table kw).elems, e.key = c ∧
      if e.container = true then PathFrom S cs e.table (e.type = .object) else cs = []

def IsPath (S : Schema) (s : List ℕ) : Prop :=
  (components s).length ≤ dmSelectorLen ∧ PathFrom S (components s) S.root false

/-- The id that `next_token` gives a component. -/
def tokenId (S : Schema) (c : List ℕ) (kw : ℕ) (row : Bool) : ℕ :=
  if row = true then (if isdigit (c.headD 0) = true then strtolId c else dmErr) else elementIdByName S c kw

/-- Among the first `n` components, and before a leaf or a number that `dm_id` cannot tell from zero, there is one that
no child is named by, that begins with no digit where a number is due, or whose number is that of `DM_ERR`. -/
def Refused (S : Schema) : ℕ → List (List ℕ) → ℕ → Bool → Prop
  | 0, _, _, _ => False
  | _, [], _, _ => False
  | n + 1, c :: cs, kw, row =>
    tokenId S c kw row = dmErr ∨
    tokenId S c kw row ≠ 0 ∧
      if row = true then Refused S n cs kw false
      else ∃ e, (S.table kw).elems[tokenId S c kw row - 1]? = some e ∧ e.container = true ∧
        Refused S n cs e.table (e.type = .object)

/-! ## The reader on components -/

theorem splitOn_dotless (s : List ℕ) : ∀ c ∈ s.splitOn 46, 46 ∉ c := by
  induction s with
  | nil => simp [List.splitOn_nil]
  | cons x s ih =>
    rw [List.splitOn_cons_eq_if_modifyHead]
    split_ifs with hx
    · exact List.forall_mem_cons.mpr ⟨List.not_mem_nil, ih⟩
    · obtain ⟨c, cs, hcs⟩ := List.exists_cons_of_ne_nil (List.splitOn_ne_nil 46 s)
      rw [hcs] at ih ⊢
      rw [List.modifyHead_cons]
      obtain ⟨hc, hcs'⟩ := List.forall_mem_cons.mp ih
      refine List.forall_mem_cons.mpr ⟨fun hmem => ?_, hcs'⟩
      rcases List.mem_cons.mp hmem with h | h
      · exact hx (by simp [← h])
      · exact hc h

/-- The components that are left, as text. -/
def remaining : List (List ℕ) → Option (List ℕ)
  | [] => none
  | c :: cs => some (List.intercalate [46] (c :: cs))

theorem nextToken_remaining {S : Schema} {c : List ℕ} {cs : List (List ℕ)} (kw : ℕ) (row : Bool) (hc : 46 ∉ c) :
    nextToken S (remaining (c :: cs)) kw row = (tokenId S c kw row, remaining cs) := by
  have htext : List.intercalate [46] (c :: cs) = c ++ dotted cs := by
    have h := dotted_eq c cs
    rw [dotted_cons, List.cons_append] at h
    exact (List.cons.inj h).2.symm
  have hdot : Dotted (dotted cs) := by
    cases cs with
    | nil => exact .inl rfl
    | cons d ds => exact .inr ⟨_, dotted_cons d ds⟩
  have hrest : behindDot (dotted cs) = remaining cs := by
    cases cs with
    | nil => rfl
    | cons d ds => rw [dotted_eq, behindDot, remaining]
  have hhead : isdigit ((c ++ dotted cs).headD 0) = isdigit (c.headD 0) := by
    cases c with
    | nil =>
      cases cs with
      | nil => rfl
      | cons d ds => rw [List.nil_append, dotted_cons]; rfl
    | cons d ds => rfl
  rw [remaining, htext]
  simp only [nextToken, takeWhile_token hc hdot, rest_token hc hdot, hrest, hhead, tokenId]
  cases row with
  | true => simp only [if_true]
  | false => rfl

theorem name2selFrom_cons {S : Schema} {n : ℕ} {c : List ℕ} {cs : List (List ℕ)} {kw : ℕ} {row : Bool} (hc : 46 ∉ c) :
    name2selFrom S (n + 1) (remaining (c :: cs)) kw row =
      if tokenId S c kw row = 0 then some []
      else if tokenId S c kw row = dmErr then none
      else if row = true then (name2selFrom S n (remaining cs) kw false).map (tokenId S c kw row :: ·)
      else match (S.table kw).elems[tokenId S c kw row - 1]? with
        | none => none
        | some e =>
          if e.container = true then
            (name2selFrom S n (remaining cs) e.table (e.type = .object)).map (tokenId S c kw row :: ·)
          else some [tokenId S c kw row] := by
  rewrite [name2selFrom, nextToken_remaining kw row hc]
  rfl

/-- **Refusals.** The reader returns nothing exactly if it meets a component that it refuses. -/
theorem name2selFrom_none_iff {S : Schema} (hS : Keyed S) {n : ℕ} {cs : List (List ℕ)} (hcs : ∀ c ∈ cs, 46 ∉ c) {kw : ℕ}
    {row : Bool} : name2selFrom S n (remaining cs) kw row = none ↔ Refused S n cs kw row := by
  induction n generalizing cs kw row with
  | zero => simp [name2selFrom, Refused]
  | succ n ih =>
    cases cs with
    | nil => simp [remaining, name2selFrom_none, Refused]
    | cons c cs =>
      obtain ⟨hc, hcs'⟩ := List.forall_mem_cons.mp hcs
      rw [name2selFrom_cons hc, Refused]
      by_cases h0 : tokenId S c kw row = 0
      · simp [h0, dmErr]
      by_cases herr : tokenId S c kw row = dmErr
      · simp [h0, herr, dmErr]
      simp only [h0, herr, if_false, false_or, ne_eq, not_false_eq_true, true_and]
      cases row with
      | true => simp only [if_true, Option.map_eq_none_iff, ih hcs']
      | false =>
        simp only [Bool.false_eq_true, if_false]
        have hid : elementIdByName S c kw = tokenId S c kw false := rfl
        obtain ⟨e, he, -⟩ := elementIdByName_key hS.numbered hid herr
        simp only [he, Option.some.injEq, exists_eq_left']
        by_cases hcont : e.container = true
        · simp [hcont, ih hcs']
        · simp [hcont]

/-- A path is read in full. -/
theorem PathFrom.read {S : Schema} (hS : Keyed S) {n : ℕ} {cs : List (List ℕ)} (hcs : ∀ c ∈ cs, 46 ∉ c) {kw : ℕ} {row : Bool}
    (h : PathFrom S cs kw row) (hn : cs.length ≤ n) :
    ∃ sel, name2selFrom S n (remaining cs) kw row = some sel ∧ sel.length = cs.length := by
  induction cs generalizing n kw row with
  | nil => exact ⟨[], name2selFrom_none S n kw row, rfl⟩
  | cons c cs ih =>
    obtain ⟨hc, hcs'⟩ := List.forall_mem_cons.mp hcs
    obtain ⟨n, rfl⟩ : ∃ m, n = m + 1 := ⟨n - 1, by rw [List.length_cons] at hn; omega⟩
    rw [List.length_cons] at hn
    rw [name2selFrom_cons hc]
    rw [PathFrom] at h
    cases row with
    | true =>
      obtain ⟨⟨hne, hdigits, hlow, hhigh⟩, hrest⟩ := h
      have hval : tokenId S c kw true = undecimal c := by
        have hhead : isdigit (c.headD 0) = true := by
          obtain ⟨d, ds, rfl⟩ := List.exists_cons_of_ne_nil hne
          simpa [isdigit] using hdigits d List.mem_cons_self
        rw [tokenId, if_pos rfl, if_pos hhead, strtolId_digits hdigits (by omega)]
      obtain ⟨sel, hsel, hlen⟩ := ih hcs' hrest (Nat.le_of_succ_le_succ hn)
      have h0 : ¬undecimal c = 0 := by omega
      have herr : ¬undecimal c = dmErr := by
        unfold dmErr
        omega
      refine ⟨undecimal c :: sel, ?_, by simp [hlen]⟩
      simp [hval, h0, herr, hsel]
    | false =>
      simp only [Bool.false_eq_true, if_false] at h
      obtain ⟨e, he, rfl, hrest⟩ := h
      obtain ⟨i, hi, hget⟩ := List.getElem_of_mem he
      have he' : (S.table kw).elems[i + 1 - 1]? = some e := by
        rw [Nat.add_sub_cancel, List.getElem?_eq_getElem hi, hget]
      have hval : tokenId S e.key kw false = i + 1 := hS.elementIdByName (Nat.succ_pos i) he'
      have herr : ¬i + 1 = dmErr := by
        have := hS.count kw
        omega
      simp only [hval, herr, he', Nat.succ_ne_zero, if_false, Bool.false_eq_true]
      split_ifs at hrest ⊢ with hcont
      · obtain ⟨sel, hsel, hlen⟩ := ih hcs' hrest (Nat.le_of_succ_le_succ hn)
        exact ⟨(i + 1) :: sel, by rw [hsel]; rfl, by simp [hlen]⟩
      · exact ⟨[i + 1], rfl, by simp [hrest]⟩

theorem dmName2sel_components (S : Schema) (s : List ℕ) :
    dmName2sel S s = name2selFrom S dmSelectorLen (remaining (components s)) S.root false := by
  rw [dmName2sel, components]
  split_ifs with hs
  · rfl
  · obtain ⟨c, cs, hcs⟩ := List.exists_cons_of_ne_nil (List.splitOn_ne_nil 46 s)
    have hback : [46].intercalate (s.splitOn 46) = s := List.intercalate_splitOn 46
    rw [hcs] at hback ⊢
    rw [remaining, hback]

theorem components_dotless (s : List ℕ) : ∀ c ∈ components s, 46 ∉ c := by
  unfold components
  split_ifs
  · exact fun _ h => absurd h List.not_mem_nil
  · exact splitOn_dotless s

/-- What the reader of paths should do with a text: take the paths only, with one id for each component. -/
def ReadsPaths (S : Schema) (s : List ℕ) : Prop :=
  ((∃ sel, dmName2sel S s = some sel) ↔ IsPath S s) ∧
    ∀ sel, dmName2sel S s = some sel → sel.length = (components s).length

/-- **Accepted texts.** The reader does so exactly on the paths and on what it refuses. -/
theorem readsPaths_iff (S : Schema) (hS : Keyed S) (s : List ℕ) :
    ReadsPaths S s ↔ IsPath S s ∨ Refused S dmSelectorLen (components s) S.root false := by
  have hcs := components_dotless s
  rw [← name2selFrom_none_iff hS hcs, ReadsPaths, dmName2sel_components]
  by_cases hpath : IsPath S s
  · obtain ⟨sel, hsel, hlen⟩ := hpath.2.read hS hcs hpath.1
    simp [hpath, hsel, hlen]
  · cases hsel : name2selFrom S dmSelectorLen (remaining (components s)) S.root false with
    | none => simp [hpath]
    | some sel => simp [hpath]

/-! ## Samples -/

/-- Rows `a` with a number `v`. -/
def samplePathTable : ℕ → DmTable
  | 0 => ⟨[⟨[118], .uint, ⟨true, false, false, false, false, false, false, false, false, false, false⟩, none, none, 0, 0, [], 0,
      0⟩], [⟨true, .inst, 0⟩]⟩
  | 1 => ⟨[⟨[97], .object, ⟨true, false, false, false, false, false, false, false, false, false, false⟩, none, none, 0, 9, [],
      0, 0⟩], []⟩
  | _ => ⟨[], []⟩

def samplePathSchema : Schema where
  table := samplePathTable
  root := 1
  child_lt := by
    rintro (_ | _ | k)
    · decide
    · decide
    · exact fun e he => absurd he List.not_mem_nil
  index_head := by
    rintro (_ | _ | k)
    · decide
    · decide
    · exact fun e he => absurd he List.not_mem_nil
  set_fits := by
    rintro (_ | _ | k)
    · decide
    · decide
    · exact fun e he => absurd he List.not_mem_nil
  array_leaf := by
    rintro (_ | _ | k)
    · decide
    · decide
    · exact fun e he => absurd he List.not_mem_nil
  get_leaf := by
    rintro (_ | _ | k)
    · decide
    · decide
    · exact fun e he => absurd he List.not_mem_nil

theorem samplePathSchema_keyed : Keyed samplePathSchema where
  distinct := by
    rintro (_ | _ | k)
    · decide
    · decide
    · exact List.nodup_nil
  nonempty := by
    rintro (_ | _ | k)
    · decide
    · decide
    · exact fun e he => absurd he List.not_mem_nil
  dotless := by
    rintro (_ | _ | k)
    · decide
    · decide
    · exact fun e he => absurd he List.not_mem_nil
  count := by
    rintro (_ | _ | k)
    · decide
    · decide
    · exact Nat.zero_lt_succ _

/-- `a.7.v`. -/
theorem names_round_trip_row : ∃ name, fullName samplePathSchema [1, 7, 1] = some name ∧ ∀ size, name.length < size →
    dmSel2name samplePathSchema [1, 7, 1] size = some name ∧ dmName2sel samplePathSchema name = some [1, 7, 1] := by
  refine names_round_trip samplePathSchema samplePathSchema_keyed [1, 7, 1] (by decide) ?_
  simp [ValidFrom, samplePathSchema, samplePathTable, DmElement.container, dmErr]

theorem readsPaths_iff_row : ReadsPaths samplePathSchema [97] ↔
    IsPath samplePathSchema [97] ∨ Refused samplePathSchema dmSelectorLen (components [97]) samplePathSchema.root false :=
  readsPaths_iff samplePathSchema samplePathSchema_keyed [97]

/-- `a.7.v.x` is read as `a.7.v`. -/
theorem leaf_path_shortened : ¬ReadsPaths samplePathSchema [97, 46, 55, 46, 118, 46, 120] := by
  rintro ⟨-, hlen⟩
  have hsel : dmName2sel samplePathSchema [97, 46, 55, 46, 118, 46, 120] = some [1, 7, 1] := by decide
  have hcount : (components [97, 46, 55, 46, 118, 46, 120]).length = 4 := by decide
  have := hlen _ hsel
  rw [hcount] at this
  simp at this

end Mand.Store
