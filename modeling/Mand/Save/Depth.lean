import Mand.Save.Document
import Mand.Lib.Bracket

/-! # Walks with a level

What `dm_walk_table_cb` reports to a callback that lets it go on everywhere: everything whose path has no more
ids than the level, each container around what is in it, in the order of the paths. -/
namespace Mand.Save
open Mand.Store Mand.Index Mand.Server Mand.Bracket
set_option autoImplicit false

/-! ## Calls -/

inductive Kind
  | element
  | table
  | object
  | inst
  deriving DecidableEq, Repr

/-- An id of a path with the element it belongs to. -/
structure Step where
  id : ℕ
  kind : Kind
  elem : DmElement
  deriving DecidableEq, Repr

/-- The calls whose result the walk looks at. -/
def CbType.starts : CbType → Bool
  | .tableStart | .objectStart | .objectInstanceStart => true
  | _ => false

/-- A call of the callback. -/
structure Event where
  type : CbType
  id : ℕ
  elem : DmElement
  value : DmValue

def Event.mark (x : Event) : Mark Step DmValue :=
  match x.type with
  | .element => .visit ⟨x.id, .element, x.elem⟩ x.value
  | .tableStart => .enter ⟨x.id, .table, x.elem⟩ x.value
  | .tableEnd => .leave ⟨x.id, .table, x.elem⟩
  | .objectStart => .enter ⟨x.id, .object, x.elem⟩ x.value
  | .objectEnd => .leave ⟨x.id, .object, x.elem⟩
  | .objectInstanceStart => .enter ⟨x.id, .inst, x.elem⟩ x.value
  | .objectInstanceEnd => .leave ⟨x.id, .inst, x.elem⟩

section Calls
variable {σ : Type}

/-- The callback always returns non-zero. -/
def Steady (cb : WalkCb σ) : Prop := ∀ type id e v s, (cb type id e v s).1 = true

/-- The callback returns non-zero where the walk asks whether to go on. -/
def Eager (cb : WalkCb σ) : Prop := ∀ type id e v s, type.starts = true → (cb type id e v s).1 = true

/-- The data of the user after these calls. -/
def calls (cb : WalkCb σ) (evs : List Event) (s : σ) : σ :=
  evs.foldl (fun s x => (cb x.type x.id x.elem x.value s).2) s

@[simp] theorem calls_nil (cb : WalkCb σ) (s : σ) : calls cb [] s = s := rfl

@[simp] theorem calls_cons (cb : WalkCb σ) (x : Event) (evs : List Event) (s : σ) :
    calls cb (x :: evs) s = calls cb evs (cb x.type x.id x.elem x.value s).2 := rfl

@[simp] theorem calls_append (cb : WalkCb σ) (evs evs' : List Event) (s : σ) :
    calls cb (evs ++ evs') s = calls cb evs' (calls cb evs s) := List.foldl_append

theorem Eager.eq {cb : WalkCb σ} (h : Eager cb) (type : CbType) (htype : type.starts = true) (id : ℕ) (e : DmElement)
    (v : DmValue) (s : σ) : cb type id e v s = (true, (cb type id e v s).2) := by
  rw [← h type id e v s htype]

end Calls

/-! ## What there is to report -/

/-- Row `r` belongs to the object in slot `i` of table `a`. -/
def Belongs (st : DmStore) (a i : ℕ) (r : Addr) : Prop := ∃ n, st.node r = some n ∧ n.root = some (a, i)

/-- The first index of that object lists it. -/
def InIndex (st : DmStore) (a i : ℕ) (r : Addr) : Prop :=
  ∃ o rows, st.tree a i = some (some o) ∧ o.Lists st.row rows ∧ r ∈ rows

/-- This stands below table `a` of number `kw`: a leaf with its value, a table, an object or a row. `rowOf` tells the
rows of an object. -/
inductive Present (env : Env) (st : DmStore) (rowOf : Addr → ℕ → Addr → Prop) :
    ℕ → Addr → List Step → DmValue → Prop
  | leaf (kw a i : ℕ) (e : DmElement) (v : DmValue) (he : (env.schema.table kw).elems[i]? = some e)
    (hc : e.container = false) (hv : elementValue env st ⟨i + 1, e, .none, .table a, .slot a i⟩ = some v) :
    Present env st rowOf kw a [⟨i + 1, .element, e⟩] v
  | table (kw a i : ℕ) (e : DmElement) (v : DmValue) (b : Addr) (he : (env.schema.table kw).elems[i]? = some e)
    (htype : e.type = .token) (hv : st.slot a i = some v) (hb : v.content = .table (some b)) :
    Present env st rowOf kw a [⟨i + 1, .table, e⟩] v
  | inTable (kw a i : ℕ) (e : DmElement) (v : DmValue) (b : Addr) (p : List Step) (u : DmValue)
    (he : (env.schema.table kw).elems[i]? = some e) (htype : e.type = .token) (hv : st.slot a i = some v)
    (hb : v.content = .table (some b)) (h : Present env st rowOf e.table b p u) :
    Present env st rowOf kw a (⟨i + 1, .table, e⟩ :: p) u
  | object (kw a i : ℕ) (e : DmElement) (v : DmValue) (he : (env.schema.table kw).elems[i]? = some e)
    (htype : e.type = .object) (hv : st.slot a i = some v) :
    Present env st rowOf kw a [⟨i + 1, .object, e⟩] v
  | row (kw a i : ℕ) (e : DmElement) (r : Addr) (n : RowNode) (he : (env.schema.table kw).elems[i]? = some e)
    (htype : e.type = .object) (hr : rowOf a i r) (hn : st.node r = some n) :
    Present env st rowOf kw a [⟨i + 1, .object, e⟩, ⟨n.inst, .inst, e⟩] n.value
  | inRow (kw a i : ℕ) (e : DmElement) (r : Addr) (n : RowNode) (b : Addr) (p : List Step) (u : DmValue)
    (he : (env.schema.table kw).elems[i]? = some e) (htype : e.type = .object) (hr : rowOf a i r)
    (hn : st.node r = some n) (hb : n.value.content = .table (some b)) (h : Present env st rowOf e.table b p u) :
    Present env st rowOf kw a (⟨i + 1, .object, e⟩ :: ⟨n.inst, .inst, e⟩ :: p) u

/-- The first index of every object lists all of its rows. -/
def AllListed (st : DmStore) : Prop :=
  ∀ a i o, st.tree a i = some (some o) → ∀ r, Belongs st a i r → InIndex st a i r

/-- These are the rows that the walk goes through. -/
def Followed (st : DmStore) (rowOf : Addr → ℕ → Addr → Prop) : Prop :=
  ∀ a i o, st.tree a i = some (some o) → ∀ r, rowOf a i r ↔ InIndex st a i r

/-- The first id is one of these. -/
def Starts (q : ℕ → Prop) (p : List Step) : Prop := ∃ s rest, p = s :: rest ∧ q s.id

section Cases
variable {env : Env} {st : DmStore} {rowOf : Addr → ℕ → Addr → Prop} {kw a i : ℕ} {e : DmElement} {p : List Step}
  {v w : DmValue}

theorem Present.starts (h : Present env st rowOf kw a p v) :
    Starts (fun id => 0 < id ∧ id ≤ (env.schema.table kw).elems.length) p := by
  have hid : ∀ (i : ℕ) (e : DmElement), (env.schema.table kw).elems[i]? = some e →
      0 < i + 1 ∧ i + 1 ≤ (env.schema.table kw).elems.length :=
    fun i e he => ⟨Nat.succ_pos i, (List.getElem?_eq_some_iff.mp he).1⟩
  cases h with
  | leaf kw a i e v he => exact ⟨_, _, rfl, hid i e he⟩
  | table kw a i e v b he => exact ⟨_, _, rfl, hid i e he⟩
  | inTable kw a i e v b p u he => exact ⟨_, _, rfl, hid i e he⟩
  | object kw a i e v he => exact ⟨_, _, rfl, hid i e he⟩
  | row kw a i e r n he => exact ⟨_, _, rfl, hid i e he⟩
  | inRow kw a i e r n b p u he => exact ⟨_, _, rfl, hid i e he⟩

theorem present_leaf (he : (env.schema.table kw).elems[i]? = some e) (hc : e.container = false) :
    Present env st rowOf kw a p v ∧ Starts (· = i + 1) p ↔
      p = [⟨i + 1, .element, e⟩] ∧ elementValue env st ⟨i + 1, e, .none, .table a, .slot a i⟩ = some v := by
  constructor
  · rintro ⟨h, s, rest, rfl, hs⟩
    cases h <;> simp_all [DmElement.container]
  · rintro ⟨rfl, hv⟩
    exact ⟨.leaf kw a i e v he hc hv, _, _, rfl, rfl⟩

theorem present_table {b : Addr} (he : (env.schema.table kw).elems[i]? = some e) (htype : e.type = .token)
    (hw : st.slot a i = some w) (hb : w.content = .table (some b)) :
    Present env st rowOf kw a p v ∧ Starts (· = i + 1) p ↔
      p = [⟨i + 1, .table, e⟩] ∧ v = w ∨ ∃ q, Present env st rowOf e.table b q v ∧ p = ⟨i + 1, .table, e⟩ :: q := by
  constructor
  · rintro ⟨h, s, rest, rfl, hs⟩
    cases h <;> simp_all [DmElement.container]
  · rintro (⟨rfl, rfl⟩ | ⟨q, h, rfl⟩)
    · exact ⟨.table kw a i e v b he htype hw hb, _, _, rfl, rfl⟩
    · exact ⟨.inTable kw a i e w b q v he htype hw hb h, _, _, rfl, rfl⟩

theorem present_noTable (he : (env.schema.table kw).elems[i]? = some e) (htype : e.type = .token)
    (hw : st.slot a i = some w) (hb : w.content = .table none) : ¬(Present env st rowOf kw a p v ∧ Starts (· = i + 1) p) := by
  rintro ⟨h, s, rest, rfl, hs⟩
  cases h <;> simp_all [DmElement.container]

theorem present_object (he : (env.schema.table kw).elems[i]? = some e) (htype : e.type = .object)
    (hw : st.slot a i = some w) :
    Present env st rowOf kw a p v ∧ Starts (· = i + 1) p ↔
      p = [⟨i + 1, .object, e⟩] ∧ v = w ∨
        ∃ r n, rowOf a i r ∧ st.node r = some n ∧
          (p = [⟨i + 1, .object, e⟩, ⟨n.inst, .inst, e⟩] ∧ v = n.value ∨
            ∃ b q, n.value.content = .table (some b) ∧ Present env st rowOf e.table b q v ∧
              p = ⟨i + 1, .object, e⟩ :: ⟨n.inst, .inst, e⟩ :: q) := by
  constructor
  · rintro ⟨h, s, rest, rfl, hs⟩
    cases h with
    | leaf kw a j e' v he' hc hv => simp_all [DmElement.container]
    | table kw a j e' v b he' htype' hv hb => simp_all
    | inTable kw a j e' v' b p u he' htype' hv hb h => simp_all
    | object kw a j e' v he' htype' hv => simp_all
    | row kw a j e' r n he' htype' hr hn =>
      obtain rfl : j = i := Nat.succ.inj hs
      rw [he] at he'
      cases he'
      exact .inr ⟨r, n, hr, hn, .inl ⟨rfl, rfl⟩⟩
    | inRow kw a j e' r n b q u he' htype' hr hn hb h =>
      obtain rfl : j = i := Nat.succ.inj hs
      rw [he] at he'
      cases he'
      exact .inr ⟨r, n, hr, hn, .inr ⟨b, q, hb, h, rfl⟩⟩
  · rintro (⟨rfl, rfl⟩ | ⟨r, n, hr, hn, ⟨rfl, rfl⟩ | ⟨b, q, hb, h, rfl⟩⟩)
    · exact ⟨.object kw a i e v he htype hw, _, _, rfl, rfl⟩
    · exact ⟨.row kw a i e r n he htype hr hn, _, _, rfl, rfl⟩
    · exact ⟨.inRow kw a i e r n b q v he htype hr hn hb h, _, _, rfl, rfl⟩

end Cases

/-! ## Parts of a walk -/

/-- Part of a walk: with any callback that lets it go on it makes the same calls, and they report that of which `P`
holds. -/
def Reports (part : (σ : Type) → WalkCb σ → σ → Option σ) (P : Node Step DmValue → Prop) : Prop :=
  ∃ evs nodes, (∀ (σ : Type) (cb : WalkCb σ), Eager cb → ∀ s, part σ cb s = some (calls cb evs s)) ∧
    Told Step.id P (evs.map Event.mark) nodes

section Reports
variable {part part' : (σ : Type) → WalkCb σ → σ → Option σ} {P Q : Node Step DmValue → Prop}

theorem Reports.nothing (h : ∀ x, ¬P x) : Reports (fun _ _ s => some s) P :=
  ⟨[], [], fun _ _ _ _ => rfl, .nothing h⟩

theorem Reports.congr (h : Reports part P) (hiff : ∀ x, P x ↔ Q x) : Reports part Q := by
  obtain ⟨evs, nodes, hpart, htold⟩ := h
  exact ⟨evs, nodes, hpart, htold.congr hiff⟩

theorem Reports.of_eq (h : Reports part P) (heq : ∀ σ cb, Eager cb → ∀ s, part' σ cb s = part σ cb s) :
    Reports part' P := by
  obtain ⟨evs, nodes, hpart, htold⟩ := h
  exact ⟨evs, nodes, fun σ cb hcb s => (heq σ cb hcb s).trans (hpart σ cb hcb s), htold⟩

theorem Reports.append (h : Reports part P) (h' : Reports part' Q)
    (hlt : ∀ x y, P x → Q y → x.path Step.id < y.path Step.id) :
    Reports (fun σ cb s => (part σ cb s).bind (part' σ cb)) fun x => P x ∨ Q x := by
  obtain ⟨evs, nodes, hpart, htold⟩ := h
  obtain ⟨evs', nodes', hpart', htold'⟩ := h'
  refine ⟨evs ++ evs', nodes ++ nodes', ?_, ?_⟩
  · intro σ cb hcb s
    dsimp only
    rw [hpart σ cb hcb, Option.bind_some, hpart' σ cb hcb, calls_append]
  · rw [List.map_append]
    exact htold.append htold' hlt

theorem Reports.leaf (id : ℕ) (e : DmElement) (v : DmValue) :
    Reports (fun _ cb s => some (cb .element id e v s).2) fun x => x = ⟨[⟨id, .element, e⟩], v⟩ :=
  ⟨[⟨.element, id, e, v⟩], [⟨[⟨id, .element, e⟩], v⟩], fun _ _ _ _ => rfl, Told.visit (⟨id, .element, e⟩ : Step) v⟩

/-- What is around a part: the call before it and the call behind it. -/
theorem Reports.block (h : Reports part P) (hP : ∀ x, P x → x.steps ≠ []) (start stop : CbType) (kind : Kind) (id : ℕ)
    (e : DmElement) (v : DmValue) (hstart : (Event.mk start id e v).mark = .enter ⟨id, kind, e⟩ v)
    (hstop : (Event.mk stop id e v).mark = .leave ⟨id, kind, e⟩) :
    Reports (fun σ cb s => (part σ cb (cb start id e v s).2).map fun s => (cb stop id e v s).2)
      fun x => x = ⟨[⟨id, kind, e⟩], v⟩ ∨ ∃ y, P y ∧ y.under [⟨id, kind, e⟩] = x := by
  obtain ⟨evs, nodes, hpart, htold⟩ := h
  refine ⟨⟨start, id, e, v⟩ :: evs ++ [⟨stop, id, e, v⟩],
    ⟨[⟨id, kind, e⟩], v⟩ :: nodes.map (Node.under [⟨id, kind, e⟩]), ?_, ?_⟩
  · intro σ cb hcb s
    dsimp only
    rw [hpart σ cb hcb, calls_append]
    rfl
  · rw [List.map_append, List.map_cons, List.map_cons, List.map_nil, hstart, hstop]
    exact htold.block hP ⟨id, kind, e⟩ v

end Reports

/-! ## The walk -/

/-- What a table of a level shows: everything below it that is not deeper. -/
def Shallow (env : Env) (st : DmStore) (rowOf : Addr → ℕ → Addr → Prop) (level : ℤ) (kw : ℕ) (a : Addr) (x : Node Step DmValue) : Prop :=
  Present env st rowOf kw a x.steps x.data ∧ (x.steps.length : ℤ) ≤ level

/-- What is to be shown of the walk through tables with numbers below `m`. -/
def TableSpec (env : Env) (st : DmStore) (rowOf : Addr → ℕ → Addr → Prop) (m : ℕ) : Prop :=
  ∀ (level : ℤ) (kw : ℕ) (a : Addr) (t : VTable), 1 ≤ level → kw < m → st.heap a = some t →
    env.schema.place t.id = some (kw, false) →
    Reports (fun _ cb => walkTable env cb st m level kw a) (Shallow env st rowOf level kw a)

section Walk
variable {full : Prop} {env : Env} {st : DmStore} {rowOf : Addr → ℕ → Addr → Prop} {m kw a i b : ℕ} {t : VTable} {e : DmElement} {v : DmValue}
  {level : ℤ}

theorem Shallow.steps {x : Node Step DmValue} (h : Shallow env st rowOf level kw a x) : x.steps ≠ [] := by
  obtain ⟨s, rest, hx, -⟩ := h.1.starts
  rw [hx]
  exact List.cons_ne_nil s rest

theorem descend_reports (hspec : TableSpec env st rowOf m) (hlevel : 0 ≤ level) (hlt : kw < m) (ht : st.heap a = some t)
    (hp : env.schema.place t.id = some (kw, false)) :
    Reports (fun _ cb => descend (walkTable env cb st m) level kw a) (Shallow env st rowOf level kw a) := by
  by_cases h0 : level = 0
  · subst h0
    refine (Reports.nothing ?_).of_eq fun _ _ _ _ => rfl
    rintro ⟨steps, data⟩ ⟨h, hlen⟩
    have hne := Shallow.steps ⟨h, hlen⟩
    have hpos := List.length_pos_iff.mpr hne
    dsimp only at hlen hpos
    omega
  · refine (hspec level kw a t (by omega) hlt ht hp).of_eq ?_
    intro σ cb hcb s
    exact if_neg h0

/-- What the row at `r` shows, from the number of the row on. -/
def RowShows (env : Env) (st : DmStore) (rowOf : Addr → ℕ → Addr → Prop) (level : ℤ) (e : DmElement) (r : Addr) (x : Node Step DmValue) : Prop :=
  ∃ n, st.node r = some n ∧ (x = ⟨[⟨n.inst, .inst, e⟩], n.value⟩ ∨
    ∃ y, Shallow env st rowOf (level - 2) e.table r y ∧ y.under [⟨n.inst, .inst, e⟩] = x)

theorem RowShows.steps {r : Addr} {x : Node Step DmValue} (h : RowShows env st rowOf level e r x) :
    ∃ n rest, st.node r = some n ∧ x.steps = ⟨n.inst, .inst, e⟩ :: rest := by
  obtain ⟨n, hn, rfl | ⟨y, -, rfl⟩⟩ := h
  · exact ⟨n, [], hn, rfl⟩
  · exact ⟨n, y.steps, hn, rfl⟩

theorem row_reports {r : Addr} {n : RowNode} {tr : VTable} (hspec : TableSpec env st rowOf m) (hlevel : 2 ≤ level)
    (hlt : e.table < m) (hn : st.node r = some n) (htr : st.heap r = some tr)
    (hp : env.schema.place tr.id = some (e.table, false)) :
    Reports (fun _ cb s => (descend (walkTable env cb st m) (level - 2) e.table r
        (cb .objectInstanceStart n.inst e n.value s).2).map fun s => (cb .objectInstanceEnd n.inst e n.value s).2)
      (RowShows env st rowOf level e r) := by
  refine ((descend_reports hspec (by omega) hlt htr hp).block (fun x hx => hx.steps) .objectInstanceStart
    .objectInstanceEnd .inst n.inst e n.value rfl rfl).congr ?_
  intro x
  constructor
  · exact fun h => ⟨n, hn, h⟩
  · rintro ⟨n', hn', h⟩
    rw [hn] at hn'
    cases hn'
    exact h

/-- The loop of `dm_walk_object_cb`, along rows with growing numbers. -/
theorem walkRows_reports (hspec : TableSpec env st rowOf m) (hlevel : 2 ≤ level) (hlt : e.table < m) (rows : List Addr)
    (hrow : ∀ r ∈ rows, ∃ n tr, st.node r = some n ∧ n.value.content = .table (some r) ∧ st.heap r = some tr ∧
      env.schema.place tr.id = some (e.table, false))
    (hsorted : rows.Pairwise fun r r' => (st.row r).inst < (st.row r').inst) :
    Reports (fun _ cb => walkRows cb st (walkTable env cb st m) level e rows)
      fun x => ∃ r ∈ rows, RowShows env st rowOf level e r x := by
  induction rows with
  | nil =>
    refine (Reports.nothing ?_).of_eq fun _ _ _ _ => rfl
    rintro x ⟨r, hr, -⟩
    exact absurd hr List.not_mem_nil
  | cons r rows ih =>
    obtain ⟨n, tr, hn, hc, htr, hp⟩ := hrow r List.mem_cons_self
    obtain ⟨hfirst, hrest⟩ := List.pairwise_cons.mp hsorted
    have hrows := ih (fun r' hr' => hrow r' (List.mem_cons_of_mem r hr')) hrest
    have hinst : ∀ r' n', st.node r' = some n' → (st.row r').inst = n'.inst := by
      intro r' n' hn'
      unfold DmStore.row
      rw [hn']
      rfl
    refine (((row_reports hspec hlevel hlt hn htr hp).append hrows ?_).of_eq ?_).congr ?_
    · rintro x y hx ⟨r', hr', hy⟩
      obtain ⟨n1, rest, hn1, hx⟩ := hx.steps
      obtain ⟨n2, rest', hn2, hy⟩ := hy.steps
      have hlt := hfirst r' hr'
      rw [hinst r n1 hn1, hinst r' n2 hn2] at hlt
      simp only [Node.path, hx, hy, List.map_cons]
      exact List.Lex.rel hlt
    · intro σ cb hcb s
      have hgo := hcb.eq .objectInstanceStart rfl n.inst e n.value s
      generalize (cb .objectInstanceStart n.inst e n.value s).2 = s1 at hgo ⊢
      simp only [walkRows, hn, hc, hgo, Option.bind_eq_bind, Option.bind_some]
      rw [Option.map_eq_bind, Option.bind_assoc]
      rfl
    · intro x
      simp only [List.mem_cons, exists_eq_or_imp]

/-- `dm_walk_object_cb`. -/
theorem walkObject_reports {o : ObjTree} {rows : List Addr} (hspec : TableSpec env st rowOf m) (hlevel : 1 ≤ level)
    (hlt : e.table < m) (hat : RowsAt env.schema st e o rows)
    (hsorted : rows.Pairwise fun r r' => (st.row r).inst < (st.row r').inst) (id : ℕ) :
    Reports (fun _ cb s => walkObject cb st (walkTable env cb st m) level id e v (some o) s)
      fun x => x = ⟨[⟨id, .object, e⟩], v⟩ ∨
        ∃ y, (level ≠ 1 ∧ ∃ r ∈ rows, RowShows env st rowOf level e r y) ∧ y.under [⟨id, .object, e⟩] = x := by
  have hinner : Reports (fun _ cb => walkRows cb st (walkTable env cb st m) level e (if level - 1 = 0 then [] else rows))
      fun x => level ≠ 1 ∧ ∃ r ∈ rows, RowShows env st rowOf level e r x := by
    by_cases h1 : level = 1
    · refine (Reports.nothing fun x hx => hx.1 h1).of_eq ?_
      intro σ cb hcb s
      rw [if_pos (by omega)]
      rfl
    · rw [if_neg (by omega)]
      exact (walkRows_reports hspec (by omega) hlt rows hat.row hsorted).congr fun x => (and_iff_right h1).symm
  refine (hinner.block ?_ .objectStart .objectEnd .object id e v rfl rfl).of_eq ?_
  · rintro x ⟨-, r, -, hx⟩
    obtain ⟨n, rest, -, hx⟩ := hx.steps
    rw [hx]
    exact List.cons_ne_nil _ rest
  · intro σ cb hcb s
    have hgo := hcb.eq .objectStart rfl id e v s
    generalize (cb .objectStart id e v s).2 = s1 at hgo ⊢
    simp only [walkObject, hgo, hat.enumerated, Option.bind_eq_bind, Option.bind_some]
    split_ifs
    · exact Option.map_eq_bind.symm
    · exact Option.map_eq_bind.symm

/-- What an object shows is what stands there down to the level. -/
theorem object_shows {rows : List Addr} (hlevel : 1 ≤ level) (he : (env.schema.table kw).elems[i]? = some e)
    (htype : e.type = .object) (hv : st.slot a i = some v)
    (hrow : ∀ r, r ∈ rows ↔ rowOf a i r)
    (hself : ∀ r ∈ rows, ∀ n, st.node r = some n → n.value.content = .table (some r)) (x : Node Step DmValue) :
    (x = ⟨[⟨i + 1, .object, e⟩], v⟩ ∨
        ∃ y, (level ≠ 1 ∧ ∃ r ∈ rows, RowShows env st rowOf level e r y) ∧ y.under [⟨i + 1, .object, e⟩] = x) ↔
      Shallow env st rowOf level kw a x ∧ Starts (· = i + 1) x.steps := by
  have hiff := fun p u => @present_object env st rowOf kw a i e p u v he htype hv
  constructor
  · rintro (rfl | ⟨y, ⟨h1, r, hr, n, hn, rfl | ⟨z, hz, rfl⟩⟩, rfl⟩)
    · obtain ⟨hp, hs⟩ := (hiff _ _).mpr (.inl ⟨rfl, rfl⟩)
      exact ⟨⟨hp, hlevel⟩, hs⟩
    · have hrow := (hrow r).mp hr
      obtain ⟨hp, hs⟩ := (hiff _ _).mpr (.inr ⟨r, n, hrow, hn, .inl ⟨rfl, rfl⟩⟩)
      refine ⟨⟨hp, ?_⟩, hs⟩
      show (2 : ℤ) ≤ level
      omega
    · have hrow := (hrow r).mp hr
      obtain ⟨hp, hs⟩ := (hiff _ _).mpr (.inr ⟨r, n, hrow, hn, .inr ⟨r, z.steps, hself r hr n hn, hz.1, rfl⟩⟩)
      refine ⟨⟨hp, ?_⟩, hs⟩
      have hlen := hz.2
      simp only [Node.under, List.cons_append, List.nil_append, List.length_cons]
      omega
  · rintro ⟨⟨hp, hlen⟩, hs⟩
    obtain ⟨steps, data⟩ := x
    rcases (hiff _ _).mp ⟨hp, hs⟩ with ⟨rfl, rfl⟩ | ⟨r, n, hr, hn, ⟨rfl, rfl⟩ | ⟨b, q, hb, hq, rfl⟩⟩
    · exact .inl rfl
    · have hlen : (2 : ℤ) ≤ level := hlen
      exact .inr ⟨⟨[⟨n.inst, .inst, e⟩], n.value⟩, ⟨by omega, r, (hrow r).mpr hr, n, hn, .inl rfl⟩, rfl⟩
    · have hr := (hrow r).mpr hr
      rw [hself r hr n hn] at hb
      cases hb
      simp only [List.length_cons, Nat.cast_add, Nat.cast_one] at hlen
      refine .inr ⟨⟨⟨n.inst, .inst, e⟩ :: q, data⟩, ⟨by omega, r, hr, n, hn, .inr ⟨⟨q, data⟩, ⟨hq, ?_⟩, rfl⟩⟩, rfl⟩
      show (q.length : ℤ) ≤ level - 2
      omega

/-- The same for a table. -/
theorem table_shows (hlevel : 1 ≤ level) (he : (env.schema.table kw).elems[i]? = some e) (htype : e.type = .token)
    (hv : st.slot a i = some v) (hb : v.content = .table (some b)) (x : Node Step DmValue) :
    (x = ⟨[⟨i + 1, .table, e⟩], v⟩ ∨
        ∃ y, Shallow env st rowOf (level - 1) e.table b y ∧ y.under [⟨i + 1, .table, e⟩] = x) ↔
      Shallow env st rowOf level kw a x ∧ Starts (· = i + 1) x.steps := by
  have hiff := fun p u => @present_table env st rowOf kw a i e p u v b he htype hv hb
  constructor
  · rintro (rfl | ⟨y, hy, rfl⟩)
    · obtain ⟨hp, hs⟩ := (hiff _ _).mpr (.inl ⟨rfl, rfl⟩)
      exact ⟨⟨hp, hlevel⟩, hs⟩
    · obtain ⟨hp, hs⟩ := (hiff _ _).mpr (.inr ⟨y.steps, hy.1, rfl⟩)
      refine ⟨⟨hp, ?_⟩, hs⟩
      have hlen := hy.2
      simp only [Node.under, List.cons_append, List.nil_append, List.length_cons]
      omega
  · rintro ⟨⟨hp, hlen⟩, hs⟩
    obtain ⟨steps, data⟩ := x
    rcases (hiff _ _).mp ⟨hp, hs⟩ with ⟨rfl, rfl⟩ | ⟨q, hq, rfl⟩
    · exact .inl rfl
    · simp only [List.length_cons, Nat.cast_add, Nat.cast_one] at hlen
      refine .inr ⟨⟨q, data⟩, ⟨hq, ?_⟩, rfl⟩
      show (q.length : ℤ) ≤ level - 1
      omega

theorem leaf_shows (hlevel : 1 ≤ level) (he : (env.schema.table kw).elems[i]? = some e) (hc : e.container = false)
    (hv : elementValue env st ⟨i + 1, e, .none, .table a, .slot a i⟩ = some v) (x : Node Step DmValue) :
    x = ⟨[⟨i + 1, .element, e⟩], v⟩ ↔ Shallow env st rowOf level kw a x ∧ Starts (· = i + 1) x.steps := by
  have hiff := fun p u => @present_leaf env st rowOf kw a i e p u he hc
  constructor
  · rintro rfl
    obtain ⟨hp, hs⟩ := (hiff _ _).mpr ⟨rfl, hv⟩
    exact ⟨⟨hp, hlevel⟩, hs⟩
  · rintro ⟨⟨hp, hlen⟩, hs⟩
    obtain ⟨steps, data⟩ := x
    obtain ⟨rfl, hu⟩ := (hiff _ _).mp ⟨hp, hs⟩
    dsimp only at hu
    rw [hv] at hu
    cases hu
    rfl

theorem walkValue_leaf {σ : Type} (cb : WalkCb σ) (walk : ℤ → ℕ → Addr → σ → Option σ) (hc : e.container = false)
    (id : ℕ) (s : σ) : walkValue cb st walk level id e v s = some (cb .element id e v s).2 := by
  unfold walkValue
  split <;> simp_all [DmElement.container]

/-- The rows of an object are those that belong to it, with growing numbers. -/
theorem RowsAt.rows {o : ObjTree} {rows : List Addr} (hat : RowsAt env.schema st e o rows)
    (hw : HeapWf full nowhere env.schema st) (hrows : Followed st rowOf) (ht : st.heap a = some t)
    (hp : env.schema.place t.id = some (kw, false)) (hv : st.slot a i = some v) (ho : v.content = .inst (some o)) :
    (rows.Pairwise fun r r' => (st.row r).inst < (st.row r').inst) ∧ ∀ r, r ∈ rows ↔ rowOf a i r := by
  have htree : st.tree a i = some (some o) := (tree_eq_some st a i _).mpr ⟨v, hv, ho⟩
  obtain ⟨o0, rows0, ho0, hobj, -⟩ := hw.tree ht hp (fun hx => hx) htree
  cases ho0
  have hsame : rows = rows0 := by
    have henum := instanceRows_lists hobj.lists (ObjWf.length_lt_fuel hw hobj)
    rw [hat.enumerated] at henum
    exact Option.some.inj henum
  subst hsame
  refine ⟨?_, ?_⟩
  · obtain ⟨ix, rest, -, hix⟩ := hobj.lists
    exact hix.sorted
  · intro r
    rw [hrows a i o htree]
    refine ⟨fun hr => ⟨o, rows, htree, hobj.lists, hr⟩, ?_⟩
    rintro ⟨o', rows', htree', hlists, hr⟩
    rw [htree] at htree'
    cases htree'
    rw [hobj.lists.unique hlists]
    exact hr

/-- A table or an object in a slot. -/
theorem container_reports (hspec : TableSpec env st rowOf m) (hw : HeapWf full nowhere env.schema st) (hpar : Intact st)
    (hrows : Followed st rowOf) (hlevel : 1 ≤ level) (hkw : kw < m + 1) (ht : st.heap a = some t)
    (hp : env.schema.place t.id = some (kw, false)) (he : (env.schema.table kw).elems[i]? = some e)
    (hc : e.container = true) (hv : st.slot a i = some v) :
    Reports (fun _ cb => walkValue cb st (walkTable env cb st m) level (i + 1) e v)
      fun x => Shallow env st rowOf level kw a x ∧ Starts (· = i + 1) x.steps := by
  obtain ⟨v', hv', hfit⟩ := HeapWf.slotAt hw ht hp he
  rw [hv] at hv'
  cases hv'
  have hlt : e.table < m := by
    have hchild := env.schema.child_lt kw e (List.mem_of_getElem? he) hc
    omega
  cases hcont : v.content with
  | scalar x =>
    rw [hcont] at hfit
    have hleaf : e.container = false := hfit
    rw [hc] at hleaf
    cases hleaf
  | table x =>
    rw [hcont] at hfit
    have htype : e.type = .token := hfit
    cases x with
    | none =>
      refine (Reports.nothing fun x hx => present_noTable he htype hv hcont ⟨hx.1.1, hx.2⟩).of_eq ?_
      intro σ cb hcb s
      simp only [walkValue, htype, hcont]
    | some b =>
      obtain ⟨tb, htb, hpb⟩ := HeapWf.tokenAt hw hpar ht hp he htype hv hcont
      refine (((descend_reports hspec (by omega : (0 : ℤ) ≤ level - 1) hlt htb hpb).block (fun x hx => hx.steps)
        .tableStart .tableEnd .table (i + 1) e v rfl rfl).of_eq ?_).congr (table_shows hlevel he htype hv hcont)
      intro σ cb hcb s
      have hgo := hcb.eq .tableStart rfl (i + 1) e v s
      generalize (cb .tableStart (i + 1) e v s).2 = s1 at hgo ⊢
      simp only [walkValue, htype, hcont, hgo, Option.bind_eq_bind]
      exact Option.map_eq_bind.symm
  | inst x =>
    rw [hcont] at hfit
    obtain ⟨o, rfl⟩ := Option.isSome_iff_exists.mp hfit.2
    obtain ⟨rows, hat⟩ := HeapWf.rowsAt hw ht hp he hfit.1 hv hcont
    obtain ⟨hsorted, hrow⟩ := hat.rows hw hrows ht hp hv hcont
    refine ((walkObject_reports hspec hlevel hlt hat hsorted (i + 1)).of_eq ?_).congr
      (object_shows hlevel he hfit.1 hv hrow ?_)
    · intro σ cb hcb s
      simp only [walkValue, hfit.1, hcont]
    · intro r hr n hn
      obtain ⟨n', tr, hn', hself, -⟩ := hat.row r hr
      rw [hn] at hn'
      cases hn'
      exact hself

/-- Only leaves have a get hook. -/
theorem container_value {stType : DmType} (hpar : Intact st) (he : (env.schema.table kw).elems[i]? = some e)
    (hc : e.container = true) (hv : st.slot a i = some v) :
    elementValue env st ⟨i + 1, e, stType, .table a, .slot a i⟩ = some v := by
  obtain ⟨u, hu, hget⟩ := elementValue_some (e := e) env stType hv (hpar a i v hv)
  rw [hu, hget]
  by_contra hb
  have hleaf := env.schema.get_leaf kw e (List.mem_of_getElem? he) (by simpa using hb)
  rw [hc] at hleaf
  cases hleaf

/-- `dm_walk_element_cb`. -/
theorem walkElement_reports (hspec : TableSpec env st rowOf m) (hw : HeapWf full nowhere env.schema st) (hpar : Intact st)
    (hrows : Followed st rowOf) (hlevel : 1 ≤ level) (hkw : kw < m + 1) (ht : st.heap a = some t)
    (hp : env.schema.place t.id = some (kw, false)) (he : (env.schema.table kw).elems[i]? = some e) :
    Reports (fun _ cb s => (elementValue env st ⟨i + 1, e, .none, .table a, .slot a i⟩).bind fun v =>
        walkValue cb st (walkTable env cb st m) level (i + 1) e v s)
      fun x => Shallow env st rowOf level kw a x ∧ Starts (· = i + 1) x.steps := by
  obtain ⟨v, hv, hfit⟩ := HeapWf.slotAt hw ht hp he
  by_cases hc : e.container = true
  · refine (container_reports hspec hw hpar hrows hlevel hkw ht hp he hc hv).of_eq ?_
    intro σ cb hcb s
    rw [container_value hpar he hc hv, Option.bind_some]
  · obtain ⟨u, hu, -⟩ := elementValue_some (e := e) env .none hv (hpar a i v hv)
    have hc : e.container = false := by simpa using hc
    refine ((Reports.leaf (i + 1) e u).of_eq ?_).congr (leaf_shows hlevel he hc hu)
    intro σ cb hcb s
    rw [hu, Option.bind_some, walkValue_leaf cb _ hc]

/-- The loop of `dm_walk_table_cb` from number `i` on. -/
theorem walkElements_reports (hspec : TableSpec env st rowOf m) (hw : HeapWf full nowhere env.schema st) (hpar : Intact st)
    (hrows : Followed st rowOf) (hlevel : 1 ≤ level) (hkw : kw < m + 1) (ht : st.heap a = some t)
    (hp : env.schema.place t.id = some (kw, false)) (es : List DmElement) (i : ℕ)
    (hes : (env.schema.table kw).elems.drop i = es) :
    Reports (fun _ cb => walkElements env cb st (walkTable env cb st m) level a es i)
      fun x => Shallow env st rowOf level kw a x ∧ Starts (i < ·) x.steps := by
  induction es generalizing i with
  | nil =>
    refine (Reports.nothing ?_).of_eq fun _ _ _ _ => rfl
    rintro x ⟨⟨hx, -⟩, s, rest, hs, hlt⟩
    obtain ⟨s', rest', hs', -, hle⟩ := hx.starts
    rw [hs] at hs'
    cases hs'
    have hlen : (env.schema.table kw).elems.length ≤ i := List.drop_eq_nil_iff.mp hes
    omega
  | cons e es ih =>
    have he : (env.schema.table kw).elems[i]? = some e := by
      rw [← List.head?_drop, hes]
      rfl
    have hrest : (env.schema.table kw).elems.drop (i + 1) = es := by
      rw [← List.tail_drop, hes]
      rfl
    refine (((walkElement_reports hspec hw hpar hrows hlevel hkw ht hp he).append (ih (i + 1) hrest) ?_).of_eq ?_).congr ?_
    · rintro x y ⟨-, s, rest, hs, hx⟩ ⟨-, s', rest', hs', hy⟩
      simp only [Node.path, hs, hs', List.map_cons]
      exact List.Lex.rel (by omega)
    · intro σ cb hcb s
      simp only [walkElements, Option.bind_eq_bind, Option.bind_assoc]
    · intro x
      rw [← and_or_left]
      refine and_congr_right fun _ => ?_
      constructor
      · rintro (⟨s, rest, hs, hx⟩ | ⟨s, rest, hs, hx⟩)
        · exact ⟨s, rest, hs, by omega⟩
        · exact ⟨s, rest, hs, by omega⟩
      · rintro ⟨s, rest, hs, hx⟩
        by_cases h : s.id = i + 1
        · exact .inl ⟨s, rest, hs, h⟩
        · exact .inr ⟨s, rest, hs, by omega⟩

end Walk

/-- `dm_walk_table_cb`. -/
theorem walkTable_reports {full : Prop} {env : Env} {st : DmStore} {rowOf : Addr → ℕ → Addr → Prop}
    (hw : HeapWf full nowhere env.schema st)
    (hpar : Intact st) (hrows : Followed st rowOf) (n : ℕ) : TableSpec env st rowOf n := by
  induction n with
  | zero =>
    intro level kw a t _ hlt
    omega
  | succ n ih =>
    intro level kw a t hlevel hlt ht hp
    refine (walkElements_reports ih hw hpar hrows hlevel hlt ht hp _ 0 rfl).congr ?_
    intro x
    refine and_iff_left_of_imp fun hx => ?_
    obtain ⟨s, rest, hs, hpos, -⟩ := hx.1.starts
    exact ⟨s, rest, hs, hpos⟩

/-! ## Order of the paths -/

/-- `dm_selcmp` follows the order of the paths as lists. -/
theorem dmSelcmp_of_lt {p q : Selector} (h : p < q) (n : ℕ) : dmSelcmp p q n ≤ 0 := by
  induction n generalizing p q with
  | zero => exact le_rfl
  | succ n ih =>
    cases h with
    | @nil y ys =>
      rcases Nat.eq_zero_or_pos y with hy | hy
      · simp [dmSelcmp, hy]
      · simp [dmSelcmp, hy, hy.ne']
    | rel hlt =>
      unfold dmSelcmp
      simp only [List.headD_cons]
      split_ifs <;> omega
    | cons h =>
      have htail := ih h
      unfold dmSelcmp
      simp only [List.headD_cons, List.tail_cons, lt_irrefl, if_false]
      split_ifs <;> omega

/-- Different paths that are not cut off differ for `dm_selcmp`. -/
theorem dmSelcmp_lt {p q : Selector} (h : p < q) (hp : 0 ∉ p) (hq : 0 ∉ q) (n : ℕ) (hlen : q.length ≤ n)
    (hlen' : p.length ≤ n) : dmSelcmp p q n < 0 := by
  induction n generalizing p q with
  | zero =>
    rw [List.length_eq_zero_iff.mp (Nat.le_zero.mp hlen)] at h
    exact absurd h (List.not_lt_nil p)
  | succ n ih =>
    cases h with
    | @nil y ys =>
      have hy : y ≠ 0 := fun hy => hq (hy ▸ List.mem_cons_self)
      have hpos : 0 < y := Nat.pos_of_ne_zero hy
      simp [dmSelcmp, hy, hpos]
    | @rel x xs y ys hlt =>
      have hy : y ≠ 0 := by omega
      simp [dmSelcmp, hy, hlt]
    | @cons x xs ys h =>
      have hx : x ≠ 0 := fun hx => hp (hx ▸ List.mem_cons_self)
      have htail := ih h (fun h0 => hp (List.mem_cons_of_mem x h0)) (fun h0 => hq (List.mem_cons_of_mem x h0))
        (by simpa using hlen) (by simpa using hlen')
      simpa [dmSelcmp, hx] using htail

/-! ## From the root -/

/-- In a well-formed store an object has no other rows in its first index than those that belong to it. -/
theorem HeapWf.belongs {full : Prop} {S : Schema} {st : DmStore} {a i : ℕ} {r : Addr} (hw : HeapWf full nowhere S st)
    (h : InIndex st a i r) : Belongs st a i r := by
  obtain ⟨o, rows, htree, hlists, hr⟩ := h
  obtain ⟨v, hv, -⟩ := (tree_eq_some st a i _).mp htree
  obtain ⟨t, ht, -⟩ := DmStore.slot_eq_some.mp hv
  obtain ⟨kw, hk⟩ := hw.table a t ht
  obtain ⟨o0, rows0, ho0, hobj, -⟩ := hw.tree ht hk.place (fun hx => hx) htree
  cases ho0
  rw [hlists.unique hobj.lists] at hr
  obtain ⟨tr, n, htr, hn, hroot, -⟩ := hobj.isRow r hr
  exact ⟨n, DmStore.node_eq_some.mpr ⟨tr, htr, hn⟩, hroot⟩

theorem AllListed.followed {full : Prop} {S : Schema} {st : DmStore} (h : AllListed st)
    (hw : HeapWf full nowhere S st) : Followed st (Belongs st) :=
  fun a i o htree r => ⟨h a i o htree r, HeapWf.belongs hw⟩

/-- An object whose counts agree has all of them there. -/
theorem HeapWf.allListed {S : Schema} {st : DmStore} (hw : HeapWf True nowhere S st) : AllListed st := by
  intro a i o htree r ⟨n, hn, hroot⟩
  obtain ⟨v, hv, -⟩ := (tree_eq_some st a i _).mp htree
  obtain ⟨t, ht, -⟩ := DmStore.slot_eq_some.mp hv
  obtain ⟨kw, hk⟩ := hw.table a t ht
  obtain ⟨o0, rows, ho0, hobj, -⟩ := hw.tree ht hk.place (fun hx => hx) htree
  cases ho0
  exact ⟨o, rows, htree, hobj.lists, (hobj.account trivial).all r n hn hroot⟩

end Mand.Save
