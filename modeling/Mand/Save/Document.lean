import Mand.Save.Flags

/-! # The document of a store

What `dm_serialize_store` writes: tags that close in the order in which they were opened, and in them one
element for each leaf that is to be saved. -/
namespace Mand.Save
open Mand.Store Mand.Index Mand.Server
set_option autoImplicit false

/-! ## Nesting -/

/-- The elements of a document with the tags around them, and the tags that are still open. There is none
if a tag is closed that is not the last one that was opened. -/
def scan : List Tag → List (ℕ × Line) → Option (List Tag × List (List Tag × Element))
  | tags, [] => some (tags, [])
  | tags, (_, .decl) :: rest => scan tags rest
  | tags, (_, .opening tag _) :: rest => scan (tags ++ [tag]) rest
  | tags, (_, .closing key) :: rest =>
    if tags.getLast?.map Tag.key = some key then scan tags.dropLast rest else none
  | tags, (_, .element x) :: rest => (scan tags rest).map fun s => (s.1, (tags, x) :: s.2)

/-- An element that was written for the leaf at a path, with the tags around it. -/
structure Rec where
  path : Selector
  tags : List Tag
  element : Element

/-- The lines are balanced and hold these elements. -/
def Balanced (l : List (ℕ × Line)) (recs : List Rec) : Prop :=
  ∀ tags rest, scan tags (l ++ rest) =
    (scan tags rest).map fun s => (s.1, recs.map (fun r => (tags ++ r.tags, r.element)) ++ s.2)

theorem Balanced.nil : Balanced [] [] := by
  intro tags rest
  simp

theorem Balanced.append {l l' : List (ℕ × Line)} {recs recs' : List Rec} (h : Balanced l recs)
    (h' : Balanced l' recs') : Balanced (l ++ l') (recs ++ recs') := by
  intro tags rest
  rw [List.append_assoc, h, h']
  simp [Option.map_map, Function.comp_def]

theorem Balanced.element (indent : ℕ) (p : Selector) (x : Element) :
    Balanced [(indent, .element x)] [⟨p, [], x⟩] := by
  intro tags rest
  simp [scan]

/-- The leaf of an element stands deeper. -/
def Rec.lift (ids : Selector) (tags : List Tag) (r : Rec) : Rec := ⟨ids ++ r.path, tags ++ r.tags, r.element⟩

theorem Balanced.lift {l : List (ℕ × Line)} {recs : List Rec} (h : Balanced l recs) (ids : Selector) :
    Balanced l (recs.map (Rec.lift ids [])) := by
  intro tags rest
  rw [h]
  simp [Rec.lift, Function.comp_def]

theorem Balanced.wrap {l : List (ℕ × Line)} {recs : List Rec} (h : Balanced l recs) (ids : Selector)
    (tag : Tag) (version : Option ℕ) (n m : ℕ) :
    Balanced ((n, .opening tag version) :: l ++ [(m, .closing tag.key)]) (recs.map (Rec.lift ids [tag])) := by
  intro tags rest
  have hopen : scan tags ((n, .opening tag version) :: l ++ [(m, .closing tag.key)] ++ rest) =
      scan (tags ++ [tag]) (l ++ ((m, .closing tag.key) :: rest)) := by
    simp [scan]
  have hclose : scan (tags ++ [tag]) ((m, .closing tag.key) :: rest) = scan tags rest := by
    simp [scan]
  rw [hopen, h, hclose]
  simp [Rec.lift, Function.comp_def]

/-! ## What is saved -/

/-- The containers are saved as configuration. -/
def Clean (around : List Around) : Prop :=
  ∀ x ∈ around, x.elem.flags.system = false ∧ x.elem.flags.internal = false ∧
    ∀ n, x.inst = some n → autoObject n = false

/-- The leaf is to be saved. -/
structure Saved (e : DmElement) (v : DmValue) : Prop where
  type : handled e.type = true
  noHook : e.flags.get = false
  updated : v.flags.updated = true
  write : e.flags.write = true
  system : e.flags.system = false
  internal : e.flags.internal = false

/-- The tags of the containers; internal ones have none. -/
def tagsOf (around : List Around) : List Tag :=
  (around.filter fun x => x.elem.flags.internal = false).map fun x => ⟨x.elem.key, x.inst⟩

variable {full : Prop} {S : Schema} {P : Texts} {st0 st : DmStore}

/-- Of the leaves below table `a` whose path `sel` holds of, those that are to be saved are written, each
once; nothing else is. -/
structure Written (S : Schema) (P : Texts) (st0 st : DmStore) (kw : ℕ) (a : Addr) (level : ℤ)
    (sel : Selector → Prop) (w w' : WalkData) (recs : List Rec) : Prop where
  indent : w'.indent = w.indent
  lines : ∃ l, w'.lines = w.lines ++ l ∧ Balanced l recs
  nodup : (recs.map Rec.path).Nodup
  leaf : ∀ r ∈ recs, sel r.path ∧ ∃ around e v, Inside S st0 kw a r.path around e v ∧
    r.tags = tagsOf around ∧ r.element.key = e.key
  shown : ∀ p around e v, sel p → Shown S st kw a p around e v → (p.length : ℤ) ≤ level → Clean around →
    Saved e v → ∃ x, serializeElement S P e v = some x ∧ (⟨p, tagsOf around, x⟩ : Rec) ∈ recs

section Written
variable {kw a : ℕ} {level : ℤ} {sel sel' : Selector → Prop} {w w' w'' : WalkData} {recs recs' : List Rec}

/-- Nothing is written if nothing is to be saved. -/
theorem Written.nothing (h : ∀ p around e v, sel p → Shown S st kw a p around e v → (p.length : ℤ) ≤ level →
    Clean around → Saved e v → False) : Written S P st0 st kw a level sel w w [] where
  indent := rfl
  lines := ⟨[], by simp, .nil⟩
  nodup := List.nodup_nil
  leaf := fun r hr => absurd hr List.not_mem_nil
  shown := fun p around e v hs hsh hl hc hsv => (h p around e v hs hsh hl hc hsv).elim

theorem Written.append (h : Written S P st0 st kw a level sel w w' recs)
    (h' : Written S P st0 st kw a level sel' w' w'' recs') (hdisj : ∀ p, sel p → ¬sel' p) :
    Written S P st0 st kw a level (fun p => sel p ∨ sel' p) w w'' (recs ++ recs') where
  indent := h'.indent.trans h.indent
  lines := by
    obtain ⟨l, hl, hb⟩ := h.lines
    obtain ⟨l', hl', hb'⟩ := h'.lines
    exact ⟨l ++ l', by rw [hl', hl, List.append_assoc], hb.append hb'⟩
  nodup := by
    rw [List.map_append, List.nodup_append]
    refine ⟨h.nodup, h'.nodup, ?_⟩
    intro p hp q hq hpq
    obtain ⟨r, hr, rfl⟩ := List.mem_map.mp hp
    obtain ⟨r', hr', rfl⟩ := List.mem_map.mp hq
    have hs := (h.leaf r hr).1
    rw [hpq] at hs
    exact hdisj _ hs (h'.leaf r' hr').1
  leaf := by
    intro r hr
    rcases List.mem_append.mp hr with hr | hr
    · exact ⟨.inl (h.leaf r hr).1, (h.leaf r hr).2⟩
    · exact ⟨.inr (h'.leaf r hr).1, (h'.leaf r hr).2⟩
  shown := by
    intro p around e v hs hsh hl hc hsv
    rcases hs with hs | hs
    · obtain ⟨x, hx, hmem⟩ := h.shown p around e v hs hsh hl hc hsv
      exact ⟨x, hx, List.mem_append_left _ hmem⟩
    · obtain ⟨x, hx, hmem⟩ := h'.shown p around e v hs hsh hl hc hsv
      exact ⟨x, hx, List.mem_append_right _ hmem⟩

theorem Written.congr (h : Written S P st0 st kw a level sel w w' recs) (hiff : ∀ p, sel p ↔ sel' p) :
    Written S P st0 st kw a level sel' w w' recs where
  indent := h.indent
  lines := h.lines
  nodup := h.nodup
  leaf := fun r hr => ⟨(hiff r.path).mp (h.leaf r hr).1, (h.leaf r hr).2⟩
  shown := fun p around e v hs => h.shown p around e v ((hiff p).mpr hs)

/-- A table inside: the leaves of the table below are those behind the ids. -/
theorem Written.inside {kw' b : ℕ} {level' : ℤ} {ids : Selector} {x : Around}
    (h : Written S P st0 st kw' b level' (fun _ => True) w w' recs) {v v' : WalkData} {l : List (ℕ × Line)}
    (hindent : v'.indent = v.indent) (hlines : v'.lines = v.lines ++ l)
    (hbal : Balanced l (recs.map (Rec.lift ids (tagsOf [x]))))
    (hlevel : level = level' + ids.length)
    (hin : ∀ q around e u, Inside S st0 kw' b q around e u →
      Inside S st0 kw a (ids ++ q) (x :: around) e u)
    (hout : ∀ p around e u, ids <+: p → Shown S st kw a p around e u →
      ∃ q around', p = ids ++ q ∧ around = x :: around' ∧ Shown S st kw' b q around' e u) :
    Written S P st0 st kw a level (fun p => ids <+: p) v v' (recs.map (Rec.lift ids (tagsOf [x]))) where
  indent := hindent
  lines := ⟨l, hlines, hbal⟩
  nodup := by
    have hpaths : (recs.map (Rec.lift ids (tagsOf [x]))).map Rec.path = (recs.map Rec.path).map (ids ++ ·) := by
      simp [Rec.lift, Function.comp_def]
    rw [hpaths]
    exact h.nodup.map fun p q hpq => List.append_cancel_left hpq
  leaf := by
    intro r hr
    obtain ⟨r0, hr0, rfl⟩ := List.mem_map.mp hr
    obtain ⟨-, around, e, u, hins, htags, hkey⟩ := h.leaf r0 hr0
    refine ⟨List.prefix_append _ _, x :: around, e, u, hin _ _ _ _ hins, ?_, hkey⟩
    show tagsOf [x] ++ r0.tags = _
    rw [htags]
    unfold tagsOf
    rw [← List.map_append, ← List.filter_append]
    rfl
  shown := by
    intro p around e u hp hsh hl hc hsv
    obtain ⟨q, around', rfl, rfl, hsh'⟩ := hout p around e u hp hsh
    rw [List.length_append, hlevel] at hl
    obtain ⟨y, hy, hmem⟩ := h.shown q around' e u trivial hsh' (by push_cast at hl; omega)
      (fun z hz => hc z (List.mem_cons_of_mem x hz)) hsv
    refine ⟨y, hy, List.mem_map.mpr ⟨_, hmem, ?_⟩⟩
    unfold Rec.lift tagsOf
    rw [← List.map_append, ← List.filter_append]
    rfl

end Written

/-! ## Containers -/

/-- What the callback does at the start and at the end of a container: nothing if the container is
internal, or it refuses it, or it writes the tags. -/
inductive Opens (start stop : WalkData → Bool × WalkData) (e : DmElement) (tag : Tag) (refused : Prop) : Prop
  | internal (h : e.flags.internal = true) (hstart : ∀ w, start w = (true, w))
    (hstop : ∀ w, (stop w).2 = w) : Opens start stop e tag refused
  | refused (h : refused) (hstart : ∀ w, start w = (false, w)) : Opens start stop e tag refused
  | opened (version : Option ℕ) (h : e.flags.internal = false)
    (hstart : ∀ w, start w = (true, w.enter tag version)) (hstop : ∀ w, (stop w).2 = w.leave tag.key) :
    Opens start stop e tag refused

theorem opens_table (S : Schema) (P : Texts) (id : ℕ) (e : DmElement) (v : DmValue) :
    Opens (serializeWalkCb S P false .tableStart id e v) (serializeWalkCb S P false .tableEnd id e v) e
      ⟨e.key, none⟩ (v.flags.updated = false ∨ e.flags.system = true) := by
  cases hint : e.flags.internal with
  | true =>
    refine .internal hint (fun w => ?_) (fun w => ?_)
    · simp [serializeWalkCb, hint]
    · simp [serializeWalkCb, hint]
  | false =>
    by_cases hflag : v.flags.updated = false ∧ v.flags.notify = false
    · refine .refused (.inl hflag.1) (fun w => ?_)
      simp [serializeWalkCb, hint, hflag]
    cases hsys : e.flags.system with
    | true =>
      refine .refused (.inr rfl) (fun w => ?_)
      simp [serializeWalkCb, hint, hflag, hsys]
    | false =>
      refine .opened (if e.flags.version = true then some cfgVersion else none) hint (fun w => ?_) (fun w => ?_)
      · simp [serializeWalkCb, hint, hflag, hsys]
      · simp [serializeWalkCb, hint, hflag]

theorem opens_row (S : Schema) (P : Texts) (id : ℕ) (e : DmElement) (v : DmValue) :
    Opens (serializeWalkCb S P false .objectInstanceStart id e v)
      (serializeWalkCb S P false .objectInstanceEnd id e v) e ⟨e.key, some id⟩
      (v.flags.updated = false ∨ e.flags.system = true ∨ autoObject id = true) := by
  cases hint : e.flags.internal with
  | true =>
    refine .internal hint (fun w => ?_) (fun w => ?_)
    · simp [serializeWalkCb, hint]
    · simp [serializeWalkCb, hint]
  | false =>
    by_cases hflag : v.flags.updated = false ∧ v.flags.notify = false
    · refine .refused (.inl hflag.1) (fun w => ?_)
      simp [serializeWalkCb, hint, hflag]
    cases hsys : e.flags.system with
    | true =>
      refine .refused (.inr (.inl rfl)) (fun w => ?_)
      simp [serializeWalkCb, hint, hflag, hsys]
    | false =>
      cases hauto : autoObject id with
      | true =>
        refine .refused (.inr (.inr rfl)) (fun w => ?_)
        simp [serializeWalkCb, hint, hflag, hsys, hauto]
      | false =>
        refine .opened none hint (fun w => ?_) (fun w => ?_)
        · simp [serializeWalkCb, hint, hflag, hsys, hauto]
        · simp [serializeWalkCb, hint, hflag]

/-- A container with what the walk does inside. -/
def block (start stop : WalkData → Bool × WalkData) (child : WalkData → Option WalkData) (w : WalkData) :
    Option WalkData :=
  match start w with
  | (false, w) => some w
  | (true, w) => (child w).map fun w => (stop w).2

theorem block_written {start stop : WalkData → Bool × WalkData} {child : WalkData → Option WalkData}
    {x : Around} {refused : Prop} {kw a kw' b : ℕ} {level level' : ℤ} {ids : Selector}
    (hopens : Opens start stop x.elem ⟨x.elem.key, x.inst⟩ refused)
    (hchild : ∀ w, ∃ w' recs, child w = some w' ∧ Written S P st0 st kw' b level' (fun _ => True) w w' recs)
    (hlevel : level = level' + ids.length)
    (hin : ∀ q around e u, Inside S st0 kw' b q around e u →
      Inside S st0 kw a (ids ++ q) (x :: around) e u)
    (hout : ∀ p around e u, ids <+: p → Shown S st kw a p around e u →
      ∃ q around', p = ids ++ q ∧ around = x :: around' ∧ Shown S st kw' b q around' e u)
    (hrefused : refused → ∀ p around e u, ids <+: p → Shown S st kw a p around e u → ¬Clean around)
    (w : WalkData) : ∃ w' recs, block start stop child w = some w' ∧
      Written S P st0 st kw a level (fun p => ids <+: p) w w' recs := by
  cases hopens with
  | internal hint hstart hstop =>
    obtain ⟨w', recs, hc, hwr⟩ := hchild w
    have htags : tagsOf [x] = [] := by simp [tagsOf, hint]
    obtain ⟨l, hl, hb⟩ := hwr.lines
    refine ⟨w', _, ?_, hwr.inside (x := x) hwr.indent hl ?_ hlevel hin hout⟩
    · unfold block
      rw [hstart]
      simp [hc, hstop]
    · rw [htags]
      exact hb.lift ids
  | refused hr hstart =>
    refine ⟨w, [], ?_, Written.nothing ?_⟩
    · unfold block
      rw [hstart]
    · intro p around e u hp hsh _ hcl _
      exact hrefused hr p around e u hp hsh hcl
  | opened version hint hstart hstop =>
    obtain ⟨w', recs, hc, hwr⟩ := hchild (w.enter ⟨x.elem.key, x.inst⟩ version)
    have htags : tagsOf [x] = [⟨x.elem.key, x.inst⟩] := by simp [tagsOf, hint]
    obtain ⟨l, hl, hb⟩ := hwr.lines
    have hindent : w'.indent = w.indent + 1 := hwr.indent
    refine ⟨w'.leave x.elem.key, _, ?_, hwr.inside (x := x)
      (l := (w.indent, .opening ⟨x.elem.key, x.inst⟩ version) :: l ++ [(w.indent, .closing x.elem.key)])
      ?_ ?_ ?_ hlevel hin hout⟩
    · unfold block
      rw [hstart]
      simp [hc, hstop]
    · show w'.indent - 1 = w.indent
      omega
    · show w'.lines ++ [(w'.indent - 1, .closing x.elem.key)] = _
      rw [hl, hindent]
      simp [WalkData.enter, WalkData.put]
    · rw [htags]
      exact hb.wrap ids ⟨x.elem.key, x.inst⟩ version w.indent w.indent

/-! ## Rows, elements and tables -/

/-- What a walk through a table writes. -/
def WalkSpec (S : Schema) (P : Texts) (st0 st : DmStore) (m : ℕ)
    (walk : ℤ → ℕ → Addr → WalkData → Option WalkData) : Prop :=
  ∀ level kw a t w, 1 ≤ level → kw < m → st0.heap a = some t → S.place t.id = some (kw, false) →
    ∃ w' recs, walk level kw a w = some w' ∧ Written S P st0 st kw a level (fun _ => True) w w' recs

section Walk
variable {walk : ℤ → ℕ → Addr → WalkData → Option WalkData} {m kw a i b : ℕ} {t : VTable} {e : DmElement}
  {level : ℤ}

/-- The level may be used up, but then every leaf below is too deep. -/
theorem descend_written (hwalk : WalkSpec S P st0 st m walk) (hlevel : 0 ≤ level) (hlt : kw < m)
    (ht : st0.heap a = some t) (hp : S.place t.id = some (kw, false)) (w : WalkData) :
    ∃ w' recs, descend walk level kw a w = some w' ∧
      Written S P st0 st kw a level (fun _ => True) w w' recs := by
  unfold descend
  by_cases hz : level = 0
  · rw [if_pos hz]
    refine ⟨w, [], rfl, Written.nothing ?_⟩
    intro p around e v _ hsh hl _ _
    obtain ⟨j, q, rfl⟩ := hsh.path
    rw [List.length_cons] at hl
    omega
  · rw [if_neg hz]
    exact hwalk level kw a t w (by omega) hlt ht hp

/-- One row of an object. -/
theorem row_written (hwalk : WalkSpec S P st0 st m walk) (hg : Grows st0 st) (hlevel : 2 ≤ level)
    (hlt : e.table < m) (he : (S.table kw).elems[i]? = some e) (hobj : e.type = .object) {v : DmValue}
    {o : ObjTree} {rows : List Addr} (hv : st0.slot a i = some v) (ho : v.content = .inst (some o))
    (hat : RowsAt S st0 e o rows) {r : Addr} (hr : r ∈ rows) {n : RowNode} (hn : st0.node r = some n)
    {n' : RowNode} (hn' : st.node r = some n') (w : WalkData) :
    ∃ w' recs, block (serializeWalkCb S P false .objectInstanceStart n'.inst e n'.value)
        (serializeWalkCb S P false .objectInstanceEnd n'.inst e n'.value)
        (descend walk (level - 2) e.table r) w = some w' ∧
      Written S P st0 st kw a level (fun p => [i + 1, n.inst] <+: p) w w' recs := by
  obtain ⟨n0, tr, hn0, hcr, htr, hpr⟩ := hat.row r hr
  rw [hn] at hn0
  cases hn0
  obtain ⟨n1, hn1, hgn⟩ := hg.node r n hn
  rw [hn'] at hn1
  cases hn1
  have hpath : ∀ p around e' u, [i + 1, n.inst] <+: p → Shown S st kw a p around e' u →
      ∃ v' q around', st.slot a i = some v' ∧ v'.flags.updated = true ∧ n'.value.flags.updated = true ∧
        p = [i + 1, n.inst] ++ q ∧ around = ⟨e, some n.inst⟩ :: around' ∧
        Shown S st e.table r q around' e' u := by
    rintro p around e' u ⟨q, rfl⟩ hsh
    obtain ⟨v', o', rows', r2, n2, b, q', around', hq, har, hv', hk, ho', hrows', hr2, hn2, hnk, hb, h⟩ :=
      hsh.row_cases he hobj
    obtain ⟨hinst, hrest⟩ := List.cons.inj hq
    obtain ⟨v0, hv0, hgv⟩ := hg.slot a i v hv
    rw [hv'] at hv0
    cases hv0
    rw [hgv.content, ho] at ho'
    cases ho'
    have henum := hat.enumerated
    rw [← hg.fuel, hrows'] at henum
    cases henum
    -- another row does not have this number
    obtain ⟨n3, -, hn3, hc3, -⟩ := hat.row r2 hr2
    obtain ⟨n4, hn4, hgn4⟩ := hg.node r2 n3 hn3
    rw [hn2] at hn4
    cases hn4
    have hrr : r2 = r := hat.inj r2 r n3 n hr2 hr hn3 hn (hgn4.inst.symm.trans hinst.symm)
    subst hrr
    rw [hn2] at hn'
    cases hn'
    rw [hgn.value.content, hcr] at hb
    cases hb
    exact ⟨v', q', around', hv', hk, hnk, by rw [← hrest]; rfl, by rw [har, hinst], h⟩
  rw [hgn.inst]
  refine block_written (x := ⟨e, some n.inst⟩) (opens_row S P n.inst e n'.value)
    (descend_written hwalk (by omega) hlt htr hpr) ?_ ?_ ?_ ?_ w
  · show level = level - 2 + 2
    omega
  · intro q around e' u hin
    exact .row kw a i e v o rows r n r q around e' u he hobj hv trivial ho hat.enumerated hr hn trivial hcr hin
  · intro p around e' u hpre hsh
    obtain ⟨v', q, around', -, -, -, rfl, rfl, h⟩ := hpath p around e' u hpre hsh
    exact ⟨q, around', rfl, rfl, h⟩
  · intro hrefused p around e' u hpre hsh hcl
    obtain ⟨v', q, around', -, -, hnup, rfl, rfl, h⟩ := hpath p around e' u hpre hsh
    obtain ⟨hsys, -, hauto⟩ := hcl ⟨e, some n.inst⟩ List.mem_cons_self
    rcases hrefused with hup | hsys' | hauto'
    · rw [hnup] at hup
      cases hup
    · rw [hsys'] at hsys
      cases hsys
    · rw [hauto n.inst rfl] at hauto'
      cases hauto'

/-- The rows of a list. -/
theorem walkRows_written (hwalk : WalkSpec S P st0 st m walk) (hg : Grows st0 st) (hlevel : 2 ≤ level)
    (hlt : e.table < m) (he : (S.table kw).elems[i]? = some e) (hobj : e.type = .object) {v : DmValue}
    {o : ObjTree} {rows : List Addr} (hv : st0.slot a i = some v) (ho : v.content = .inst (some o))
    (hat : RowsAt S st0 e o rows) (l : List Addr) (hsub : ∀ r ∈ l, r ∈ rows) (hnd : l.Nodup) (w : WalkData) :
    ∃ w' recs, walkRows (serializeWalkCb S P false) st walk level e l w = some w' ∧
      Written S P st0 st kw a level (fun p => ∃ r ∈ l, ∃ n, st0.node r = some n ∧ [i + 1, n.inst] <+: p)
        w w' recs := by
  induction l generalizing w with
  | nil =>
    refine ⟨w, [], rfl, Written.nothing ?_⟩
    rintro p around e' u ⟨r, hr, -⟩
    exact absurd hr List.not_mem_nil
  | cons r l ih =>
    obtain ⟨n, tr, hn, hcr, htr, hpr⟩ := hat.row r (hsub r List.mem_cons_self)
    obtain ⟨n', hn', hgn⟩ := hg.node r n hn
    obtain ⟨w1, recs1, hb, hwr1⟩ := row_written hwalk hg hlevel hlt he hobj hv ho hat
      (hsub r List.mem_cons_self) hn hn' w
    obtain ⟨w2, recs2, hrest, hwr2⟩ := ih (fun r' hr' => hsub r' (List.mem_cons_of_mem r hr'))
      (List.nodup_cons.mp hnd).2 w1
    refine ⟨w2, recs1 ++ recs2, ?_, (hwr1.append hwr2 ?_).congr ?_⟩
    · have hcont : n'.value.content = .table (some r) := hgn.value.content.trans hcr
      unfold block at hb
      simp only [walkRows, hn', Option.bind_eq_bind, Option.bind_some, hcont]
      cases hs : serializeWalkCb S P false .objectInstanceStart n'.inst e n'.value w with
      | mk go ws =>
        rw [hs] at hb
        cases go with
        | false =>
          cases hb
          exact hrest
        | true =>
          obtain ⟨w3, hw3, rfl⟩ := Option.map_eq_some_iff.mp hb
          simp only [hw3, Option.bind_some]
          exact hrest
    · -- two rows have different numbers
      rintro p ⟨q, rfl⟩ ⟨r', hr', m', hm', ⟨q', hq'⟩⟩
      have hinst : m'.inst = n.inst := by
        simp only [List.cons_append, List.nil_append, List.cons.injEq, true_and] at hq'
        exact hq'.1
      have hrr := hat.inj r' r m' n (hsub r' (List.mem_cons_of_mem r hr')) (hsub r List.mem_cons_self) hm' hn hinst
      rw [hrr] at hr'
      exact (List.nodup_cons.mp hnd).1 hr'
    · intro p
      constructor
      · rintro (hp | ⟨r', hr', m', hm', hp⟩)
        · exact ⟨r, List.mem_cons_self, n, hn, hp⟩
        · exact ⟨r', List.mem_cons_of_mem r hr', m', hm', hp⟩
      · rintro ⟨r', hr', m', hm', hp⟩
        rcases List.mem_cons.mp hr' with rfl | hr'
        · rw [hn] at hm'
          cases hm'
          exact .inl hp
        · exact .inr ⟨r', hr', m', hm', hp⟩

/-- `dm_walk_object_cb`. -/
theorem walkObject_written (hwalk : WalkSpec S P st0 st m walk) (hg : Grows st0 st) (hlevel : 1 ≤ level)
    (hlt : e.table < m) (he : (S.table kw).elems[i]? = some e) (hobj : e.type = .object) {v v' : DmValue}
    {o : ObjTree} {rows : List Addr} (hv : st0.slot a i = some v) (ho : v.content = .inst (some o))
    (hat : RowsAt S st0 e o rows) (hv' : st.slot a i = some v') (w : WalkData) :
    ∃ w' recs, walkObject (serializeWalkCb S P false) st walk level (i + 1) e v' (some o) w = some w' ∧
      Written S P st0 st kw a level (fun p => [i + 1] <+: p) w w' recs := by
  have hcases : ∀ p around e' u, [i + 1] <+: p → Shown S st kw a p around e' u →
      v'.flags.updated = true ∧ 3 ≤ p.length ∧
        ∃ r ∈ rows, ∃ n, st0.node r = some n ∧ [i + 1, n.inst] <+: p := by
    rintro p around e' u ⟨q, rfl⟩ hsh
    obtain ⟨v0, o', rows', r, n, b, q', around', hq, -, hv0, hk, ho', hrows', hr, hn, -, -, h⟩ :=
      hsh.row_cases he hobj
    rw [hv'] at hv0
    cases hv0
    obtain ⟨v1, hv1, hgv⟩ := hg.slot a i v hv
    rw [hv'] at hv1
    cases hv1
    rw [hgv.content, ho] at ho'
    cases ho'
    have henum := hat.enumerated
    rw [← hg.fuel, hrows'] at henum
    cases henum
    obtain ⟨n0, -, hn0, -⟩ := hat.row r hr
    obtain ⟨n1, hn1, hgn⟩ := hg.node r n0 hn0
    rw [hn] at hn1
    cases hn1
    have hq : q = n.inst :: q' := hq
    obtain ⟨j, q'', rfl⟩ := h.path
    refine ⟨hk, by simp [hq], r, hr, n0, hn0, ⟨(j + 1) :: q'', ?_⟩⟩
    rw [hq, hgn.inst]
    rfl
  unfold walkObject
  cases hs : serializeWalkCb S P false .objectStart (i + 1) e v' w with
  | mk go ws =>
    have hws : ws = w ∧ (go = false → v'.flags.updated = false) := by
      unfold serializeWalkCb at hs
      by_cases hint : e.flags.internal = true
      · rw [if_pos hint] at hs
        cases hs
        exact ⟨rfl, fun hf => nomatch hf⟩
      · rw [if_neg hint] at hs
        by_cases hfl : v'.flags.updated = false ∧ v'.flags.notify = false ∧ false = false
        · rw [if_pos hfl] at hs
          cases hs
          exact ⟨rfl, fun _ => hfl.1⟩
        · rw [if_neg hfl] at hs
          cases hs
          exact ⟨rfl, fun hf => nomatch hf⟩
    obtain ⟨rfl, hgo⟩ := hws
    cases go with
    | false =>
      refine ⟨ws, [], rfl, Written.nothing ?_⟩
      intro p around e' u hp hsh _ _ _
      have hup := (hcases p around e' u hp hsh).1
      rw [hgo rfl] at hup
      cases hup
    | true =>
      have hend : ∀ w, (serializeWalkCb S P false .objectEnd (i + 1) e v' w).2 = w := by
        intro w
        unfold serializeWalkCb
        split
        · rfl
        · split <;> rfl
      by_cases hone : level - 1 = 0
      · refine ⟨ws, [], ?_, Written.nothing ?_⟩
        · simp only [if_pos hone, Option.bind_eq_bind, Option.bind_some, walkRows, hend]
        · intro p around e' u hp hsh hl _ _
          have hlen := (hcases p around e' u hp hsh).2.1
          omega
      · have htwo : 2 ≤ level := by omega
        obtain ⟨w', recs, hw', hwr⟩ := walkRows_written hwalk hg htwo hlt he hobj hv ho hat rows
          (fun _ hr => hr) hat.nodup ws
        refine ⟨w', recs, ?_, ?_⟩
        · simp only [if_neg hone, hg.fuel, hat.enumerated, Option.bind_eq_bind, Option.bind_some, hw', hend]
        · refine ⟨hwr.indent, hwr.lines, hwr.nodup, ?_, ?_⟩
          · intro r hr
            obtain ⟨⟨r', -, n, -, hp⟩, hrest⟩ := hwr.leaf r hr
            exact ⟨List.IsPrefix.trans ⟨[n.inst], rfl⟩ hp, hrest⟩
          · intro p around e' u hp hsh
            exact hwr.shown p around e' u (hcases p around e' u hp hsh).2.2 hsh

/-- A table that hangs in a slot. -/
theorem walkToken_written (hwalk : WalkSpec S P st0 st m walk) (hw : HeapWf full nowhere S st0)
    (hpar : Intact st0) (hg : Grows st0 st) (hlevel : 1 ≤ level) (hlt : e.table < m)
    (ht : st0.heap a = some t) (hp : S.place t.id = some (kw, false))
    (he : (S.table kw).elems[i]? = some e) (htok : e.type = .token) {v v' : DmValue} {x : Option Addr}
    (hv : st0.slot a i = some v) (hc : v.content = .table x) (hv' : st.slot a i = some v') (w : WalkData) :
    ∃ w' recs, walkValue (serializeWalkCb S P false) st walk level (i + 1) e v' w = some w' ∧
      Written S P st0 st kw a level (fun p => [i + 1] <+: p) w w' recs := by
  obtain ⟨v1, hv1, hgv⟩ := hg.slot a i v hv
  rw [hv'] at hv1
  cases hv1
  have hc' : v'.content = .table x := hgv.content.trans hc
  have hcases : ∀ p around e' u, [i + 1] <+: p → Shown S st kw a p around e' u →
      ∃ b q around', x = some b ∧ p = [i + 1] ++ q ∧ around = ⟨e, none⟩ :: around' ∧
        v'.flags.updated = true ∧ Shown S st e.table b q around' e' u := by
    rintro p around e' u ⟨q, rfl⟩ hsh
    obtain ⟨v0, b, around', har, hv0, hk, hb, h⟩ := hsh.token_cases he htok
    rw [hv'] at hv0
    cases hv0
    rw [hc'] at hb
    cases hb
    exact ⟨b, q, around', rfl, rfl, har, hk, h⟩
  cases x with
  | none =>
    refine ⟨w, [], by simp only [walkValue, htok, hc'], Written.nothing ?_⟩
    intro p around e' u hpre hsh _ _ _
    obtain ⟨b, q, around', hb, -⟩ := hcases p around e' u hpre hsh
    cases hb
  | some b =>
    obtain ⟨tb, htb, hpb⟩ := HeapWf.tokenAt hw hpar ht hp he htok hv hc
    have hblock : ∃ w' recs, block (serializeWalkCb S P false .tableStart (i + 1) e v')
        (serializeWalkCb S P false .tableEnd (i + 1) e v') (descend walk (level - 1) e.table b) w = some w' ∧
        Written S P st0 st kw a level (fun p => [i + 1] <+: p) w w' recs := by
      refine block_written (x := ⟨e, none⟩) (opens_table S P (i + 1) e v')
        (descend_written hwalk (by omega) hlt htb hpb) ?_ ?_ ?_ ?_ w
      · show level = level - 1 + 1
        omega
      · exact fun q around e' u hin => .token kw a i e v b q around e' u he htok hv trivial hc hin
      · intro p around e' u hpre hsh
        obtain ⟨b', q, around', hb', rfl, rfl, -, h⟩ := hcases p around e' u hpre hsh
        cases hb'
        exact ⟨q, around', rfl, rfl, h⟩
      · intro hrefused p around e' u hpre hsh hcl
        obtain ⟨b', q, around', -, rfl, rfl, hup, -⟩ := hcases p around e' u hpre hsh
        obtain ⟨hsys, -⟩ := hcl ⟨e, none⟩ List.mem_cons_self
        rcases hrefused with hup' | hsys'
        · rw [hup] at hup'
          cases hup'
        · rw [hsys] at hsys'
          cases hsys'
    obtain ⟨w', recs, hb, hwr⟩ := hblock
    refine ⟨w', recs, ?_, hwr⟩
    rw [← hb]
    simp only [walkValue, htok, hc', block]
    cases serializeWalkCb S P false .tableStart (i + 1) e v' w with
    | mk go ws =>
      cases go with
      | false => rfl
      | true =>
        show (descend walk (level - 1) e.table b ws).bind _ = (descend walk (level - 1) e.table b ws).map _
        rw [Option.map_eq_bind]
        rfl

theorem serializeElement_key {v : DmValue} {x : Element} (h : serializeElement S P e v = some x) :
    x.key = e.key := by
  simp only [serializeElement] at h
  by_cases hh : handled e.type = true
  · rw [if_pos hh] at h
    exact (congrArg Element.key (Option.some.inj h)).symm
  · rw [if_neg hh] at h
    by_cases hn : v.notify &&& 3 = 0
    · simp [hn] at h
    · simp only [if_neg hn] at h
      split at h
      · exact (congrArg Element.key (Option.some.inj h)).symm
      · cases h

/-- The element of a leaf. -/
theorem walkLeaf_written (he : (S.table kw).elems[i]? = some e) (hc : e.container = false)
    {v u : DmValue} (hv : st0.slot a i = some v) (hv' : st.slot a i = some v)
    (hu : e.flags.get = false → u = v) (w : WalkData) :
    ∃ w' recs, walkValue (serializeWalkCb S P false) st walk level (i + 1) e u w = some w' ∧
      Written S P st0 st kw a level (fun p => [i + 1] <+: p) w w' recs := by
  have hval : walkValue (serializeWalkCb S P false) st walk level (i + 1) e u w =
      some (serializeWalkCb S P false .element (i + 1) e u w).2 := by
    unfold walkValue
    split <;> first | rfl | simp_all [DmElement.container]
  -- the callback writes the element of the leaf, or nothing
  have hcb : (∃ x, serializeElement S P e u = some x ∧
      (serializeWalkCb S P false .element (i + 1) e u w).2 = w.put (.element x)) ∨
      (serializeWalkCb S P false .element (i + 1) e u w).2 = w ∧ ¬(u = v ∧ Saved e v) := by
    unfold serializeWalkCb
    by_cases hint : e.flags.internal = true
    · rw [if_pos hint]
      refine .inr ⟨rfl, fun hs => ?_⟩
      have := hs.2.internal
      rw [hint] at this
      cases this
    rw [if_neg hint]
    by_cases hfl : u.flags.updated = false ∧ u.flags.notify = false ∧ false = false
    · rw [if_pos hfl]
      refine .inr ⟨rfl, fun hs => ?_⟩
      have := hs.2.updated
      rw [← hs.1, hfl.1] at this
      cases this
    rw [if_neg hfl]
    by_cases hwr : e.flags.write = true ∧ e.flags.system = false ∨ false = true
    · simp only [if_pos hwr]
      cases hx : serializeElement S P e u with
      | some x => exact .inl ⟨x, rfl, rfl⟩
      | none =>
        refine .inr ⟨rfl, fun hs => ?_⟩
        simp only [serializeElement] at hx
        rw [if_pos hs.2.type] at hx
        cases hx
    · rw [if_neg hwr]
      exact .inr ⟨rfl, fun hs => hwr (.inl ⟨hs.2.write, hs.2.system⟩)⟩
  have hcases : ∀ p around e' y, [i + 1] <+: p → Shown S st kw a p around e' y →
      p = [i + 1] ∧ around = [] ∧ e' = e ∧ y = v := by
    rintro p around e' y ⟨q, rfl⟩ hsh
    obtain ⟨rfl, hl, he', hy⟩ := Within.leaf_cases hsh he hc
    rw [hv'] at hy
    cases hy
    exact ⟨rfl, hl, he', rfl⟩
  rcases hcb with ⟨x, hx, hput⟩ | ⟨hsame, hnot⟩
  · refine ⟨w.put (.element x), [⟨[i + 1], [], x⟩], by rw [hval, hput], ?_⟩
    refine ⟨rfl, ⟨[(w.indent, .element x)], rfl, .element _ _ _⟩, by simp, ?_, ?_⟩
    · intro r hr
      rw [List.mem_singleton] at hr
      subst hr
      exact ⟨List.prefix_refl _, [], e, v, .leaf kw a i e v he hc hv, rfl, serializeElement_key hx⟩
    · intro p around e' y hp hsh _ _ hsv
      obtain ⟨rfl, rfl, rfl, rfl⟩ := hcases p around e' y hp hsh
      rw [hu hsv.noHook] at hx
      exact ⟨x, hx, List.mem_singleton.mpr rfl⟩
  · refine ⟨w, [], by rw [hval, hsame], Written.nothing ?_⟩
    intro p around e' y hp hsh _ _ hsv
    obtain ⟨rfl, rfl, rfl, rfl⟩ := hcases p around e' y hp hsh
    exact hnot ⟨hu hsv.noHook, hsv⟩

theorem elementValue_some (env : Env) {v : DmValue} (stType : DmType) (hv : st.slot a i = some v)
    (hpar : v.parity = true) : ∃ u, elementValue env st ⟨i + 1, e, stType, .table a, .slot a i⟩ = some u ∧
      (e.flags.get = false → u = v) := by
  have hval : st.value (.slot a i) = some v := hv
  have hassert : v.parityAssert = some () := (parityAssert_eq v ()).mpr hpar
  simp only [elementValue, hval, hassert, Option.bind_eq_bind, Option.bind_some]
  by_cases hget : e.type ≠ .counter ∧ e.flags.get = true
  · rw [if_pos hget]
    refine ⟨_, rfl, ?_⟩
    intro hf
    rw [hget.2] at hf
    cases hf
  · rw [if_neg hget]
    exact ⟨v, rfl, fun _ => rfl⟩

/-- `dm_walk_element_cb`. -/
theorem walkElement_written {env : Env} (hwalk : WalkSpec env.schema P st0 st m walk)
    (hw : HeapWf full nowhere env.schema st0) (hpar : Intact st0) (hg : Grows st0 st) (hlevel : 1 ≤ level)
    (hkw : kw < m + 1) (ht : st0.heap a = some t) (hp : env.schema.place t.id = some (kw, false))
    (he : (env.schema.table kw).elems[i]? = some e) (w : WalkData) :
    ∃ u w' recs, elementValue env st ⟨i + 1, e, .none, .table a, .slot a i⟩ = some u ∧
      walkValue (serializeWalkCb env.schema P false) st walk level (i + 1) e u w = some w' ∧
      Written env.schema P st0 st kw a level (fun p => [i + 1] <+: p) w w' recs := by
  obtain ⟨v, hv, hfit⟩ := HeapWf.slotAt hw ht hp he
  obtain ⟨v', hv', hgv⟩ := hg.slot a i v hv
  have hvpar : v.parity = true := hpar a i v hv
  obtain ⟨u, hu, hget⟩ := elementValue_some (e := e) env .none hv' (hgv.parity hvpar)
  by_cases hcon : e.container = true
  · have hlt : e.table < m := by
      have hchild := env.schema.child_lt kw e (List.mem_of_getElem? he) hcon
      omega
    have hnoget : e.flags.get = false := by
      cases hb : e.flags.get with
      | false => rfl
      | true =>
        have hleaf := env.schema.get_leaf kw e (List.mem_of_getElem? he) hb
        rw [hcon] at hleaf
        cases hleaf
    have huv : u = v' := hget hnoget
    subst huv
    cases hc : v.content with
    | scalar x =>
      rw [hc] at hfit
      have hleaf : e.container = false := hfit
      rw [hcon] at hleaf
      cases hleaf
    | table x =>
      rw [hc] at hfit
      obtain ⟨w', recs, h⟩ := walkToken_written hwalk hw hpar hg hlevel hlt ht hp he hfit hv hc hv' w
      exact ⟨u, w', recs, hu, h⟩
    | inst x =>
      rw [hc] at hfit
      obtain ⟨o, rfl⟩ := Option.isSome_iff_exists.mp hfit.2
      obtain ⟨rows, hat⟩ := HeapWf.rowsAt hw ht hp he hfit.1 hv hc
      obtain ⟨w', recs, hobj, hwr⟩ := walkObject_written hwalk hg hlevel hlt he hfit.1 hv hc hat hv' w
      refine ⟨u, w', recs, hu, ?_, hwr⟩
      rw [← hobj]
      simp only [walkValue, hfit.1, hgv.content.trans hc]
  · have hcon : e.container = false := by
      cases hb : e.container with
      | false => rfl
      | true => exact absurd hb hcon
    have hleaf : ∃ x, v.content = .scalar x := by
      refine fits_leaf hfit ?_ ?_
      · intro htok
        simp [DmElement.container, htok] at hcon
      · intro hobj
        simp [DmElement.container, hobj] at hcon
    obtain ⟨x, hx⟩ := hleaf
    have hsame : v' = v := hgv.leaf x hx hvpar
    subst hsame
    obtain ⟨w', recs, h⟩ := walkLeaf_written he hcon hv hv' hget w
    exact ⟨u, w', recs, hu, h⟩

/-- `dm_walk_table_cb` from number `i` on. -/
theorem walkElements_written {env : Env} (hwalk : WalkSpec env.schema P st0 st m walk)
    (hw : HeapWf full nowhere env.schema st0) (hpar : Intact st0) (hg : Grows st0 st) (hlevel : 1 ≤ level)
    (hkw : kw < m + 1) (ht : st0.heap a = some t) (hp : env.schema.place t.id = some (kw, false))
    (es : List DmElement) (i : ℕ) (hes : (env.schema.table kw).elems.drop i = es) (w : WalkData) :
    ∃ w' recs, walkElements env (serializeWalkCb env.schema P false) st walk level a es i w = some w' ∧
      Written env.schema P st0 st kw a level (fun p => ∃ j, i ≤ j ∧ [j + 1] <+: p) w w' recs := by
  induction es generalizing i w with
  | nil =>
    refine ⟨w, [], rfl, Written.nothing ?_⟩
    rintro p around e v ⟨j, hij, ⟨q, rfl⟩⟩ hsh _ _ _
    obtain ⟨e', he'⟩ := hsh.head
    have hlen : (env.schema.table kw).elems.length ≤ i := List.drop_eq_nil_iff.mp hes
    have hj := (List.getElem?_eq_some_iff.mp he').1
    omega
  | cons e es ih =>
    have he : (env.schema.table kw).elems[i]? = some e := by
      rw [← List.head?_drop, hes]
      rfl
    have hrest : (env.schema.table kw).elems.drop (i + 1) = es := by
      rw [← List.tail_drop, hes]
      rfl
    obtain ⟨u, w1, recs1, hu, h1, hwr1⟩ := walkElement_written hwalk hw hpar hg hlevel hkw ht hp he w
    obtain ⟨w2, recs2, h2, hwr2⟩ := ih (i + 1) hrest w1
    refine ⟨w2, recs1 ++ recs2, ?_, (hwr1.append hwr2 ?_).congr ?_⟩
    · simp only [walkElements, hu, h1, h2, Option.bind_eq_bind, Option.bind_some]
    · rintro p ⟨q, rfl⟩ ⟨j, hij, ⟨q', hq'⟩⟩
      simp only [List.cons_append, List.nil_append, List.cons.injEq] at hq'
      omega
    · intro p
      constructor
      · rintro (hpre | ⟨j, hij, hpre⟩)
        · exact ⟨i, le_refl i, hpre⟩
        · exact ⟨j, by omega, hpre⟩
      · rintro ⟨j, hij, hpre⟩
        by_cases hj : j = i
        · rw [hj] at hpre
          exact .inl hpre
        · exact .inr ⟨j, by omega, hpre⟩

end Walk

theorem walkTable_written {env : Env} (hw : HeapWf full nowhere env.schema st0) (hpar : Intact st0)
    (hg : Grows st0 st) (n : ℕ) :
    WalkSpec env.schema P st0 st n (walkTable env (serializeWalkCb env.schema P false) st n) := by
  induction n with
  | zero =>
    intro level kw a t w _ hlt
    omega
  | succ n ih =>
    intro level kw a t w hlevel hlt ht hp
    obtain ⟨w', recs, h, hwr⟩ := walkElements_written ih hw hpar hg hlevel hlt ht hp _ 0 rfl w
    refine ⟨w', recs, h, hwr.indent, hwr.lines, hwr.nodup, fun r hr => ⟨trivial, (hwr.leaf r hr).2⟩, ?_⟩
    intro p around e v _ hsh
    obtain ⟨j, q, rfl⟩ := hsh.path
    exact hwr.shown _ around e v ⟨j, Nat.zero_le j, ⟨q, rfl⟩⟩ hsh

/-! ## Every store -/

/-- No path of the schema has more ids than a selector. -/
def PathsFit (S : Schema) : Prop :=
  ∀ (p : Selector) (kw i : ℕ) (e : DmElement), S.place p = some (kw, false) →
    (S.table kw).elems[i]? = some e → p.length < dmSelectorLen

/-- The path of a leaf is one of the schema. -/
theorem Within.place {keep : Flags → Prop} {kw : ℕ} {a : Addr} {p : Selector} {around : List Around}
    {e : DmElement} {v : DmValue} (h : Within keep S st kw a p around e v) (q : Selector)
    (hq : S.place q = some (kw, false)) :
    ∃ p' i kw', p = p' ++ [i + 1] ∧ S.place (q ++ p') = some (kw', false) ∧
      (S.table kw').elems[i]? = some e := by
  induction h generalizing q with
  | leaf kw a i e v he hc hv => exact ⟨[], i, kw, rfl, by simpa using hq, he⟩
  | token kw a i e w b p around e' v he htype hv hk hb _ ih =>
    obtain ⟨p', j, kw', rfl, hplace, he'⟩ := ih (q ++ [i + 1]) (place_token hq he htype)
    exact ⟨(i + 1) :: p', j, kw', rfl, by simpa using hplace, he'⟩
  | row kw a i e w o rows r n b p around e' v he htype hv hk ho hrows hr hn hnk hb _ ih =>
    obtain ⟨p', j, kw', rfl, hplace, he'⟩ := ih (q ++ [i + 1] ++ [n.inst])
      (place_inst (place_object hq he htype))
    exact ⟨(i + 1) :: n.inst :: p', j, kw', rfl, by simpa using hplace, he'⟩

/-- Each id leads to a table with a smaller number, but for those of instances. -/
theorem place_length (p : Selector) (kw : ℕ) (row : Bool) (h : S.place p = some (kw, row)) :
    p.length + row.toNat + 2 * kw ≤ 2 * S.root := by
  induction p using List.reverseRecOn generalizing kw row with
  | nil =>
    cases h
    simp
  | append_singleton p id ih =>
    rw [place_snoc] at h
    obtain ⟨⟨k, b⟩, hp, henter⟩ := Option.bind_eq_some_iff.mp h
    have hlen := ih k b hp
    unfold Schema.enter at henter
    rw [List.length_append, List.length_singleton]
    cases b with
    | true =>
      cases henter
      simp only [Bool.toNat_true, Bool.toNat_false] at hlen ⊢
      omega
    | false =>
      simp only [Bool.false_eq_true, if_false, Option.bind_eq_bind, Option.bind_eq_some_iff] at henter
      obtain ⟨e, he, henter⟩ := henter
      by_cases hc : e.container = true
      · rw [if_pos hc] at henter
        have hchild := S.child_lt k e (List.mem_of_getElem? he) hc
        cases henter
        have hrow := Bool.toNat_le (decide (e.type = .object))
        simp only [Bool.toNat_false] at hlen
        omega
      · rw [if_neg hc] at henter
        cases henter

theorem sampleSchema_pathsFit : PathsFit sampleSchema := by
  intro p kw i e hp _
  have hlen := place_length p kw false hp
  have hroot : sampleSchema.root = 1 := rfl
  rw [hroot] at hlen
  show p.length < 16
  omega

theorem sampleStore_intact : Intact sampleStore := by
  intro a i v hv
  obtain ⟨t, ht, hvt⟩ := DmStore.slot_eq_some.mp hv
  by_cases ha : a = 0
  · subst ha
    cases ht
    have hmem := List.mem_of_getElem? hvt
    simp only [List.mem_cons, List.not_mem_nil, or_false] at hmem
    rcases hmem with rfl | rfl | rfl | rfl | rfl <;> rfl
  · simp only [sampleStore] at ht
    rw [Function.update_of_ne ha] at ht
    cases ht

/-- The first leaf, once it was set. -/
def sampleSaved : DmValue := ⟨.scalar (.uint 3), 0, ⟨false, false, true, false⟩, true⟩

/-- No leaf of the small data model has a text that depends on the clock. -/
def sampleTexts : Texts := ⟨decimalInt, id, id⟩

end Mand.Save
