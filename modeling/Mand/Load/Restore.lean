import Mand.Load.Restoring

/-! # A saved store is restored

The document of a store is read into a new one. Each element comes to the leaf that it was written for, and nothing else
is changed. -/
namespace Mand.Load
open Mand.Store Mand.Save Mand.Index Mand.Rpc Mand.Scan Mand.Notify Mand.Decimal Mand.Run Mand.Server
set_option autoImplicit false

/-! ## What the parser reports -/

/-- What stands in the tag of a container. -/
def tagAttributes (tag : Tag) (version : Option ℕ) : List (List ℕ × List ℕ) :=
  (tag.inst.map fun n => (ascii "instance", decimal n)).toList ++ (version.map fun n => (ascii "version", decimal n)).toList

/-- Ends of lines and indentation, in some pieces. -/
def Blanks (gap : List (List ℕ)) : Prop := ∀ p ∈ gap, ∀ c ∈ p, c = 10 ∨ c = 32

/-- The events for some lines. -/
inductive Reported (chars : List ℕ → Option (List ℕ)) : List (ℕ × Line) → List Event → Prop
  | nil : Reported chars [] []
  | decl (n : ℕ) (l : List (ℕ × Line)) (evs : List Event) (h : Reported chars l evs) : Reported chars ((n, .decl) :: l) evs
  | opening (n : ℕ) (tag : Tag) (version : Option ℕ) (gap : List (List ℕ)) (l : List (ℕ × Line)) (evs : List Event)
    (hgap : Blanks gap) (h : Reported chars l evs) :
    Reported chars ((n, .opening tag version) :: l) (.start tag.key (tagAttributes tag version) :: (gap.map .chars ++ evs))
  | closing (n : ℕ) (key : List ℕ) (gap : List (List ℕ)) (l : List (ℕ × Line)) (evs : List Event) (hgap : Blanks gap)
    (h : Reported chars l evs) : Reported chars ((n, .closing key) :: l) (.stop key :: (gap.map .chars ++ evs))
  | element (n : ℕ) (x : Element) (text : List ℕ) (chunks gap : List (List ℕ)) (l : List (ℕ × Line)) (evs : List Event)
    (htext : chars (written n x.body) = some text) (hcut : Cut x.escaped text chunks) (hgap : Blanks gap)
    (h : Reported chars l evs) : Reported chars ((n, .element x) :: l) (elementEvents x chunks ++ (gap.map .chars ++ evs))

variable {chars : List ℕ → Option (List ℕ)} {E : LoadEnv} {s s' s'' : Deser} {kw b i : ℕ} {q : Selector} {e : DmElement}
  {V V' V'' : Addr → ℕ → Option Value} {recs recs' : List Rec} {st st' : DmStore} {l : Loc} {c : Addr}

theorem Reported.split {l l' : List (ℕ × Line)} {evs : List Event} (h : Reported chars (l ++ l') evs) :
    ∃ evs1 evs2, evs = evs1 ++ evs2 ∧ Reported chars l evs1 ∧ Reported chars l' evs2 := by
  induction l generalizing evs with
  | nil => exact ⟨[], evs, rfl, .nil, h⟩
  | cons x l ih =>
    rw [List.cons_append] at h
    cases h with
    | decl n _ evs h =>
      obtain ⟨evs1, evs2, rfl, h1, h2⟩ := ih h
      exact ⟨evs1, evs2, rfl, .decl n l evs1 h1, h2⟩
    | opening n tag version gap _ evs hgap h =>
      obtain ⟨evs1, evs2, rfl, h1, h2⟩ := ih h
      exact ⟨_, evs2, by simp, .opening n tag version gap l evs1 hgap h1, h2⟩
    | closing n key gap _ evs hgap h =>
      obtain ⟨evs1, evs2, rfl, h1, h2⟩ := ih h
      exact ⟨_, evs2, by simp, .closing n key gap l evs1 hgap h1, h2⟩
    | element n x text chunks gap _ evs htext hcut hgap h =>
      obtain ⟨evs1, evs2, rfl, h1, h2⟩ := ih h
      exact ⟨_, evs2, by simp, .element n x text chunks gap l evs1 htext hcut hgap h1, h2⟩

theorem atoi_decimal {n : ℕ} (hn : n < 2 ^ 31) : atoi (decimal n) = n := by
  have hread : strtol (decimal n) = ((n : ℤ), []) := by
    rw [← intText_natCast]
    exact strtol_intText (by omega) (by omega)
  rw [atoi, hread]
  exact Int.bmod_eq_of_le_mul_two (by omega) (by omega)

/-- The number of a row is read again. -/
theorem dmId_decimal {n : ℕ} (hn : Regular n) : 0 < atoi (decimal n) ∧ dmId (atoi (decimal n)) = n := by
  have hlt := hn.2
  have hpos : n ≠ 0 := by
    rintro rfl
    exact hn.1 rfl
  rw [atoi_decimal (by omega), dmId]
  omega

theorem readAttributes_tag (tag : Tag) (version : Option ℕ) :
    ∃ v, readAttributes (tagAttributes tag version) ⟨0, 0, false, none⟩ =
      ⟨tag.inst.elim 0 fun n => atoi (decimal n), 0, false, v⟩ := by
  unfold tagAttributes
  cases tag.inst with
  | none =>
    cases version with
    | none => exact ⟨none, rfl⟩
    | some n => exact ⟨some (atoi (decimal n)), rfl⟩
  | some n => exact ⟨none, rfl⟩

/-! ## Containers -/

/-- The value is that of a container with this table. -/
def Points (st : DmStore) (l : Loc) (c : Addr) : Prop :=
  ∃ v, st.value l = some v ∧ v.parity = true ∧ v.content = .table (some c)

theorem Points.lasting (h : Points st l c) (hl : Lasting st st') : Points st' l c := by
  obtain ⟨v, hv, hpar, hc⟩ := h
  cases l with
  | slot a i => exact hl.token a i v c hv hpar hc
  | row r =>
    obtain ⟨n, hn, rfl⟩ := Option.map_eq_some_iff.mp hv
    obtain ⟨n', hn', hpar', hc', -⟩ := hl.node r n hn hpar
    refine ⟨n'.value, ?_, hpar', hc'.trans hc⟩
    show (st'.node r).map RowNode.value = _
    rw [hn']
    rfl

theorem Sound.parity {S : Schema} (h : Sound S V st) {v : DmValue} (hv : st.value l = some v) : v.parity = true := by
  cases l with
  | slot a i => exact h.leaves.intact a i v hv
  | row r =>
    obtain ⟨n, hn, rfl⟩ := Option.map_eq_some_iff.mp hv
    exact (h.leaves.node r n hn).2

theorem setNotifyAttribute_sound {S : Schema} {ntfy : ℤ} (h : Sound S V st) (hset : setNotifyAttribute e l ntfy st = some st') :
    Sound S V st' ∧ Lasting st st' := by
  unfold setNotifyAttribute at hset
  split at hset
  · obtain ⟨v, hv, hset⟩ := Option.bind_eq_some_iff.mp hset
    exact h.rewrite hv (setNotify_content e 0 ntfy.toNat v) (setNotify_parity e 0 ntfy.toNat v (h.parity hv)) hset
  · cases hset
    exact ⟨h, .refl st⟩

/-- The container of an opening tag is entered. -/
theorem enterElement_sound {tag : Tag} {ids : Selector} {x : Loc × Option (Addr × ℕ) × Option Addr} (hS : PathsFit E.schema)
    (hs : Sound E.schema V st) (hl : Located E.schema st q kw b) (ho : Opening E.schema kw e tag ids)
    (hi : elementIdByName E.schema tag.key kw = i + 1) (hd : DistinctNames E.schema)
    (henter : enterElement E e b i (tag.inst.elim 0 fun n => atoi (decimal n)) st = some (x, st')) :
    Sound E.schema V st' ∧ Lasting st st' ∧ ∃ c, Located E.schema st' (q ++ ids) e.table c ∧ Points st' x.1 c := by
  cases ho with
  | token j e he htype =>
    have hji := (hd.id he).1
    rw [hi] at hji
    have hij := Nat.succ.inj hji
    subst hij
    simp only [enterElement, htype] at henter
    obtain ⟨st1, htoken, hx⟩ := Option.map_eq_some_iff.mp henter
    cases hx
    obtain ⟨rfl, v, c, hv, hc, hloc⟩ := enterToken_sound hs hl he htype htoken
    exact ⟨hs, .refl st', c, hloc, v, hv, hs.leaves.intact b i v hv, hc⟩
  | row j n e he htype hn =>
    have hji := (hd.id he).1
    rw [hi] at hji
    have hij := Nat.succ.inj hji
    subst hij
    simp only [enterElement, htype] at henter
    obtain ⟨⟨r, st1⟩, hobject, hx⟩ := Option.map_eq_some_iff.mp henter
    cases hx
    obtain ⟨hpos, hxid⟩ := dmId_decimal hn
    obtain ⟨hs1, hl1, hloc, m, hm, hc⟩ := enterObject_sound hS hs hl he htype hn hpos hxid hobject
    refine ⟨hs1, hl1, r, hloc, m.value, ?_, (hs1.leaves.node r m hm).2, hc⟩
    show (st1.node r).map RowNode.value = _
    rw [hm]
    rfl

/-- The state in use is that of a container of the store. -/
structure Inner (s : Deser) (l : Loc) (e : DmElement) (c : Addr) : Prop where
  root : s.top.root = false
  valid : s.top.valid = true
  upgrade : s.top.upgrade = false
  element : s.top.element = some e
  value : s.top.value = some (.at l)
  points : Points s.store l c

theorem Inner.ready (h : Inner s l e c) (he : e.container = true) : Ready s e.table c := by
  obtain ⟨v, hv, -, hc⟩ := h.points
  exact ⟨h.root, h.valid, ⟨e, h.element, he, rfl⟩, .at l, v, h.value, hv, hc⟩

/-- An opening tag. -/
theorem startElement_opening {tag : Tag} {ids : Selector} {version : Option ℕ} (hS : PathsFit E.schema) (hd : DistinctNames E.schema)
    (hready : Ready s kw b) (hs : Sound E.schema V s.store) (hl : Located E.schema s.store q kw b)
    (ho : Opening E.schema kw e tag ids) (h : startElement E tag.key (tagAttributes tag version) s = some s') :
    ∃ l c, Inner s' l e c ∧ Sound E.schema V s'.store ∧ Lasting s.store s'.store ∧ Located E.schema s'.store (q ++ ids) e.table c ∧
      s'.cur = s.cur + 1 ∧ (∀ n ≤ s.cur, s'.stack n = s.stack n) ∧ s'.rootValue = s.rootValue := by
  obtain ⟨ver, hatts⟩ := readAttributes_tag tag version
  obtain ⟨e0, helement, hcont, rfl⟩ := hready.element
  obtain ⟨p, v, hp, hv, hb⟩ := hready.value
  obtain ⟨i, he, hname, herr⟩ : ∃ i, (E.schema.table e0.table).elems[i]? = some e ∧
      elementIdByName E.schema tag.key e0.table = i + 1 ∧ i + 1 ≠ dmErr := by
    rw [ho.key]
    cases ho with
    | token i e he htype => exact ⟨i, he, hd.id he⟩
    | row i n e he htype hn => exact ⟨i, he, hd.id he⟩
  have hpush : s.push = ⟨Function.update s.stack (s.cur + 1) .zero, s.cur + 1, s.store, s.rootValue, s.cfgVersion⟩ := by
    rw [Deser.push, if_neg (by simp [hready.root])]
  rw [startElement, hatts, if_neg (by simp [hready.root]), if_pos hready.valid] at h
  have hvalue : (s.push.withAttributes ⟨tag.inst.elim 0 fun n => atoi (decimal n), 0, false, ver⟩).value p = some v := by
    cases p <;> exact hv
  simp only [startChild, helement, hcont, if_true, Option.bind_eq_bind, Option.bind_some, hname, if_neg herr,
    elementById_leaf he, hp, hvalue, hb, Nat.add_sub_cancel, Option.bind_eq_some_iff, Prod.exists, Option.some.injEq] at h
  obtain ⟨child, -, u, -, x, inst, node, st1, henter, st2, hnotify, rfl⟩ := h
  obtain ⟨hs1, hl1, c, hloc, hpts⟩ := enterElement_sound hS hs hl ho hname hd henter
  obtain ⟨hs2, hl2⟩ := setNotifyAttribute_sound hs1 hnotify
  refine ⟨x, c, ?_, hs2, hl1.trans hl2, hloc.lasting hl2, ?_, ?_, ?_⟩
  · rw [hpush]
    constructor <;> simp [Deser.withAttributes, Deser.setTop, Deser.top, XmlState.zero, hpts.lasting hl2]
  · rw [hpush]
    rfl
  · intro n hn
    have hne : n ≠ s.cur + 1 := by omega
    rw [hpush]
    simp [Deser.withAttributes, Deser.setTop, hne]
  · rw [hpush]
    rfl

/-- A closing tag. -/
theorem endElement_inner (h : Inner s l e c) (hs : Sound E.schema V s.store) (hend : endElement E s = some s') :
    s'.cur = s.cur - 1 ∧ s'.stack = s.stack ∧ s'.rootValue = s.rootValue ∧ Sound E.schema V s'.store ∧
      Lasting s.store s'.store := by
  obtain ⟨w, hw, hpar, hc⟩ := h.points
  simp only [endElement, finishValid, h.valid, if_true, finishUpgrade, h.upgrade, Bool.false_eq_true, if_false, handleElement,
    h.element, h.value, Option.bind_eq_bind, Option.bind_some, Option.bind_eq_some_iff, Prod.exists] at hend
  obtain ⟨s2, ⟨s1, ⟨v, hv, r, v', hconv, hset⟩, hfinish⟩, hend⟩ := hend
  have hvalue : s.value (.at l) = some w := hw
  rw [hvalue] at hv
  cases hv
  obtain ⟨st1, hst1, rfl⟩ := Option.map_eq_some_iff.mp hset
  -- the text of a container brings nothing
  have hsame : v'.content = w.content := by
    rcases dmString2value_kind hconv with hsame | ⟨x, y, hx, -⟩
    · exact hsame
    · rw [hc] at hx
      cases hx
  obtain ⟨hs1, hl1⟩ := hs.rewrite hw hsame (dmString2value_parity hconv hpar) hst1
  have hrow : s2.cur = s.cur ∧ s2.stack = s.stack ∧ s2.rootValue = s.rootValue ∧ Sound E.schema V s2.store ∧
      Lasting s.store s2.store := by
    unfold finishRow at hfinish
    split at hfinish
    · simp only [Option.bind_eq_bind, Option.bind_eq_some_iff, Option.some.injEq] at hfinish
      obtain ⟨r, -, st2, hupd, rfl⟩ := hfinish
      obtain ⟨hs2, hl2⟩ := updateInstanceNodeIndex_sound hs1 hupd
      exact ⟨rfl, rfl, rfl, hs2, hl1.trans hl2⟩
    · cases hfinish
      exact ⟨rfl, rfl, rfl, hs1, hl1⟩
  obtain ⟨hcur, hstack, hroot, hs2, hl2⟩ := hrow
  split at hend
  · cases hend
  · cases hend
    exact ⟨by rw [← hcur], hstack, hroot, hs2, hl2⟩

/-! ## What elements bring -/

/-- The leaf at this path has what the element brings. -/
def BroughtTo (E : LoadEnv) (chars : List ℕ → Option (List ℕ)) (V : Addr → ℕ → Option Value) (st : DmStore) (p : Selector)
    (x : Element) : Prop :=
  ∃ q kw a i e n text chunks, Located E.schema st q kw a ∧ p = q ++ [i + 1] ∧ (E.schema.table kw).elems[i]? = some e ∧
    e.container = false ∧ chars (written n x.body) = some text ∧ Cut x.escaped text chunks ∧
    V a i = brought E.decode E.libc e (assembled x.escaped chunks)

/-- Elements below path `q` were read, and the state in use is the same. -/
structure Brings (E : LoadEnv) (chars : List ℕ → Option (List ℕ)) (q : Selector) (recs : List Rec) (s s' : Deser)
    (V V' : Addr → ℕ → Option Value) : Prop where
  cur : s'.cur = s.cur
  below : ∀ n < s.cur, s'.stack n = s.stack n
  top : ∃ text, s'.top = { s.top with text := text }
  value : s'.rootValue = s.rootValue
  lasting : Lasting s.store s'.store
  sound : Sound E.schema V' s'.store
  frame : ∀ a i, V' a i ≠ V a i → ∃ t, s'.store.heap a = some t ∧ ∃ r ∈ recs, t.id ++ [i + 1] = q ++ r.path
  brought : ∀ r ∈ recs, BroughtTo E chars V' s'.store (q ++ r.path) r.element

/-- Nothing was brought to the leaves of these elements yet. -/
def Untouched (q : Selector) (recs : List Rec) (V : Addr → ℕ → Option Value) (st : DmStore) : Prop :=
  ∀ a t i, st.heap a = some t → ∀ r ∈ recs, t.id ++ [i + 1] = q ++ r.path → V a i = none

/-- The elements have different paths. -/
def Apart (recs recs' : List Rec) : Prop := ∀ r ∈ recs, ∀ r' ∈ recs', r.path ≠ r'.path

theorem Brings.refl (q : Selector) (hs : Sound E.schema V s.store) : Brings E chars q [] s s V V where
  cur := rfl
  below := fun _ _ => rfl
  top := ⟨s.top.text, rfl⟩
  value := rfl
  lasting := .refl s.store
  sound := hs
  frame := fun _ _ h => absurd rfl h
  brought := fun _ hr => absurd hr List.not_mem_nil

theorem Brings.append (h : Brings E chars q recs s s' V V') (h' : Brings E chars q recs' s' s'' V' V'')
    (hapart : Apart recs recs') : Brings E chars q (recs ++ recs') s s'' V V'' where
  cur := h'.cur.trans h.cur
  below := fun n hn => (h'.below n (h.cur ▸ hn)).trans (h.below n hn)
  top := by
    obtain ⟨text, htext⟩ := h.top
    obtain ⟨text', htext'⟩ := h'.top
    exact ⟨text', by rw [htext', htext]⟩
  value := h'.value.trans h.value
  lasting := h.lasting.trans h'.lasting
  sound := h'.sound
  frame := by
    intro a i hne
    by_cases hmid : V' a i = V a i
    · obtain ⟨t, ht, r, hr, hp⟩ := h'.frame a i fun heq => hne (heq.trans hmid)
      exact ⟨t, ht, r, List.mem_append_right _ hr, hp⟩
    · obtain ⟨t, ht, r, hr, hp⟩ := h.frame a i hmid
      obtain ⟨t', ht', hid⟩ := h'.lasting.table a t ht
      exact ⟨t', ht', r, List.mem_append_left _ hr, hid ▸ hp⟩
  brought := by
    intro r hr
    rcases List.mem_append.mp hr with hr | hr
    · obtain ⟨q0, kw, a, i, e, n, text, chunks, hl, hp, he, hc, htext, hcut, hV⟩ := h.brought r hr
      refine ⟨q0, kw, a, i, e, n, text, chunks, hl.lasting h'.lasting, hp, he, hc, htext, hcut, ?_⟩
      rw [← hV]
      by_contra hne
      -- a later element would have the same path
      obtain ⟨t, ht, r', hr', hp'⟩ := h'.frame a i hne
      obtain ⟨t0, ht0, hid, -⟩ := (hl.lasting h'.lasting).table h'.sound.wf
      rw [ht] at ht0
      cases ht0
      rw [hid, ← hp] at hp'
      exact hapart r hr r' hr' (List.append_cancel_left hp')
    · exact h'.brought r hr

theorem Untouched.brings (hu : Untouched q recs' V s.store) (hs : Sound E.schema V s.store)
    (h : Brings E chars q recs s s' V V') (hapart : Apart recs recs') : Untouched q recs' V' s'.store := by
  intro a t i ht r' hr' hp
  by_cases hV : V' a i = V a i
  · rw [hV]
    cases hx : V a i with
    | none => rfl
    | some x =>
      obtain ⟨t0, ht0⟩ := hs.leaves.known a i x hx
      obtain ⟨t1, ht1, hid⟩ := h.lasting.table a t0 ht0
      rw [ht] at ht1
      cases ht1
      rw [← hx]
      exact hu a t0 i ht0 r' hr' (hid ▸ hp)
  · obtain ⟨t1, ht1, r, hr, hp1⟩ := h.frame a i hV
    rw [ht] at ht1
    cases ht1
    rw [hp] at hp1
    exact absurd (List.append_cancel_left hp1).symm (hapart r hr r' hr')

theorem Untouched.mono (hu : Untouched q recs V st) (hsub : recs' ⊆ recs) : Untouched q recs' V st :=
  fun a t i ht r hr => hu a t i ht r (hsub hr)

/-- What is in a container is new to the store that was entered. -/
theorem Untouched.inner {ids : Selector} {tags : List Tag} (hu : Untouched q (recs.map (Rec.lift ids tags)) V st)
    (hs : Sound E.schema V st) (hl : Lasting st st') : Untouched (q ++ ids) recs V st' := by
  intro a t i ht r hr hp
  cases hx : V a i with
  | none => rfl
  | some x =>
    obtain ⟨t0, ht0⟩ := hs.leaves.known a i x hx
    obtain ⟨t1, ht1, hid⟩ := hl.table a t0 ht0
    rw [ht] at ht1
    cases ht1
    rw [← hx]
    refine hu a t0 i ht0 (r.lift ids tags) (List.mem_map_of_mem hr) ?_
    rw [← hid, hp, List.append_assoc]
    rfl

theorem Ready.brings (hready : Ready s kw b) (hs : Sound E.schema V s.store) (h : Brings E chars q recs s s' V V') :
    Ready s' kw b := by
  obtain ⟨text, htop⟩ := h.top
  obtain ⟨p, v, hp, hv, hc⟩ := hready.value
  have hvalue : ∃ v', s'.value p = some v' ∧ v'.content = .table (some b) := by
    cases p with
    | root =>
      refine ⟨v, ?_, hc⟩
      show some s'.rootValue = some v
      rw [h.value]
      exact hv
    | «at» l =>
      have hpts : Points s.store l b := ⟨v, hv, hs.parity hv, hc⟩
      obtain ⟨v', hv', -, hc'⟩ := hpts.lasting h.lasting
      exact ⟨v', hv', hc'⟩
  obtain ⟨v', hv', hc'⟩ := hvalue
  exact ⟨by rw [htop]; exact hready.root, by rw [htop]; exact hready.valid, by rw [htop]; exact hready.element,
    p, v', by rw [htop]; exact hp, hv', hc'⟩

theorem Inner.brings (hi : Inner s l e c) (h : Brings E chars q recs s s' V V') : Inner s' l e c := by
  obtain ⟨text, htop⟩ := h.top
  exact ⟨by rw [htop]; exact hi.root, by rw [htop]; exact hi.valid, by rw [htop]; exact hi.upgrade,
    by rw [htop]; exact hi.element, by rw [htop]; exact hi.value, hi.points.lasting h.lasting⟩

/-- What stands between two lines brings nothing. -/
theorem brings_gap (q : Selector) (gap : List (List ℕ)) (hs : Sound E.schema V s.store)
    (hrun : run (handle E) s (gap.map .chars) = some s') : Brings E chars q [] s s' V V := by
  rw [run_chars, Option.some.injEq] at hrun
  subst hrun
  refine ⟨rfl, fun n hn => ?_, ⟨_, Function.update_self ..⟩, rfl, .refl _, hs, fun _ _ h => absurd rfl h,
    fun _ hr => absurd hr List.not_mem_nil⟩
  exact Function.update_of_ne (Nat.ne_of_lt hn) _ _

/-- An element brings its value to its leaf. -/
theorem brings_element {x : Element} {n : ℕ} {text : List ℕ} {chunks : List (List ℕ)} (hgrant : ∀ n, E.decode.alloc.grants n = true)
    (hd : DistinctNames E.schema) (hready : Ready s kw b) (hs : Sound E.schema V s.store) (hl : Located E.schema s.store q kw b)
    (he : (E.schema.table kw).elems[i]? = some e) (hc : e.container = false) (hkey : x.key = e.key)
    (hu : Untouched q [⟨[i + 1], [], x⟩] V s.store) (htext : chars (written n x.body) = some text)
    (hcut : Cut x.escaped text chunks) (hrun : run (handle E) s (elementEvents x chunks) = some s') :
    ∃ V', Brings E chars q [⟨[i + 1], [], x⟩] s s' V V' := by
  obtain ⟨hname, herr⟩ := hd.id he
  obtain ⟨v, hv⟩ := located_slot hs.wf hl he
  obtain ⟨o, ho⟩ := leaf_scalar hs.wf hl he hc hv
  have hpar := hs.leaves.intact b i v hv
  obtain ⟨res, w, st, stack, hconv, hset, hstack, hrun'⟩ := run_element hready he hc (hkey ▸ hname) herr hv hpar chunks
  rw [hrun', Option.some.injEq] at hrun
  subst hrun
  obtain ⟨hcont, hnpar⟩ := noticed_keeps e (noticeOf x) v
  obtain ⟨hw, -⟩ := dmString2value_content hgrant (hcont.trans ho) hconv
  obtain ⟨t, ht, hid, -⟩ := hl.table hs.wf
  have hnone : V b i = none := hu b t i ht ⟨[i + 1], [], x⟩ List.mem_cons_self (by rw [hid])
  obtain ⟨hs', hl'⟩ := hs.setLeaf hl hv ho hnone hset (dmString2value_parity hconv (hnpar hpar)) hw
  refine ⟨_, rfl, fun m hm => hstack m hm.le, ⟨s.top.text, hstack s.cur (le_refl _)⟩, rfl, hl', hs', ?_, ?_⟩
  · intro a j hne
    have hslot : a = b ∧ j = i := by
      by_contra hno
      refine hne ?_
      by_cases hab : a = b
      · rw [hab, Function.update_self, Function.update_of_ne fun hj => hno ⟨hab, hj⟩]
      · rw [Function.update_of_ne hab]
    obtain ⟨rfl, rfl⟩ := hslot
    obtain ⟨t', ht', hid'⟩ := hl'.table a t ht
    exact ⟨t', ht', _, List.mem_cons_self, by rw [hid', hid]⟩
  · intro r hr
    rw [List.mem_singleton] at hr
    subst hr
    exact ⟨q, kw, b, i, e, n, text, chunks, hl.lasting hl', rfl, he, hc, htext, hcut, by rw [Function.update_self, Function.update_self]⟩

/-- The elements in a container are below it. -/
theorem Brings.container {l : Loc} {tag : Tag} {ids : Selector} {s1 s2 : Deser} (hcur : s1.cur = s.cur + 1)
    (hstack : ∀ n ≤ s.cur, s1.stack n = s.stack n) (hroot : s1.rootValue = s.rootValue) (hl1 : Lasting s.store s1.store)
    (hi : Inner s1 l e c) (h : Brings E chars (q ++ ids) recs s1 s2 V V') (hend : endElement E s2 = some s') :
    Brings E chars q (recs.map (Rec.lift ids [tag])) s s' V V' := by
  obtain ⟨hcur', hstack', hroot', hs', hl'⟩ := endElement_inner (hi.brings h) h.sound hend
  have hsame : s'.cur = s.cur := by rw [hcur', h.cur, hcur, Nat.add_sub_cancel]
  have hall : ∀ n ≤ s.cur, s'.stack n = s.stack n := fun n hn => by
    rw [hstack', h.below n (by omega), hstack n hn]
  refine ⟨hsame, fun n hn => hall n hn.le, ⟨s.top.text, ?_⟩, hroot'.trans (h.value.trans hroot),
    hl1.trans (h.lasting.trans hl'), hs', ?_, ?_⟩
  · show s'.stack s'.cur = s.stack s.cur
    rw [hsame]
    exact hall s.cur (le_refl _)
  · intro a i hne
    obtain ⟨t, ht, r, hr, hp⟩ := h.frame a i hne
    obtain ⟨t', ht', hid⟩ := hl'.table a t ht
    exact ⟨t', ht', _, List.mem_map_of_mem hr, by rw [hid, hp, List.append_assoc]; rfl⟩
  · intro r hr
    obtain ⟨r0, hr0, rfl⟩ := List.mem_map.mp hr
    obtain ⟨q0, kw, a, i, e, n, text, chunks, hl, hp, hrest⟩ := h.brought r0 hr0
    exact ⟨q0, kw, a, i, e, n, text, chunks, hl.lasting hl', by rw [← hp, List.append_assoc]; rfl, hrest⟩

theorem run_event {ev : Event} {evs : List Event} (h : run (handle E) s (ev :: evs) = some s') :
    ∃ s1, handle E s ev = some s1 ∧ run (handle E) s1 evs = some s' := Option.bind_eq_some_iff.mp h

theorem run_parts {evs evs' : List Event} (h : run (handle E) s (evs ++ evs') = some s') :
    ∃ s1, run (handle E) s evs = some s1 ∧ run (handle E) s1 evs' = some s' := by
  rw [run_append] at h
  exact Option.bind_eq_some_iff.mp h

/-- The lines of a table bring their elements to the leaves below it. -/
theorem run_rendered {l : List (ℕ × Line)} {evs : List Event} (hS : PathsFit E.schema) (hd : DistinctNames E.schema)
    (hgrant : ∀ n, E.decode.alloc.grants n = true) (h : Rendered E.schema kw l recs) (hready : Ready s kw b)
    (hs : Sound E.schema V s.store) (hl : Located E.schema s.store q kw b) (hu : Untouched q recs V s.store)
    (hnodup : (recs.map Rec.path).Nodup) (hrep : Reported chars l evs) (hrun : run (handle E) s evs = some s') :
    ∃ V', Brings E chars q recs s s' V V' := by
  induction h generalizing s s' b q V evs with
  | nil kw =>
    cases hrep
    cases hrun
    exact ⟨V, .refl q hs⟩
  | leaf kw i indent e x rest recs he hc hkey _ ih =>
    cases hrep with
    | element n x text chunks gap l evs htext hcut hgap hrep =>
      obtain ⟨s1, h1, hrun⟩ := run_parts hrun
      obtain ⟨s2, h2, hrun⟩ := run_parts hrun
      have hu1 : Untouched q [⟨[i + 1], [], x⟩] V s.store := hu.mono (List.cons_subset.mpr ⟨List.mem_cons_self, List.nil_subset _⟩)
      obtain ⟨V1, hb1⟩ := brings_element hgrant hd hready hs hl he hc hkey hu1 htext hcut h1
      have hb2 := hb1.append (brings_gap q gap hb1.sound h2) fun _ _ _ hr => absurd hr List.not_mem_nil
      rw [List.append_nil] at hb2
      rw [List.map_cons, List.nodup_cons] at hnodup
      have hapart : Apart [⟨[i + 1], [], x⟩] recs := by
        intro r hr r' hr' heq
        rw [List.mem_singleton] at hr
        subst hr
        exact hnodup.1 (List.mem_map.mpr ⟨r', hr', heq.symm⟩)
      have hu2 : Untouched q recs V s.store := hu.mono (List.subset_cons_self _ _)
      obtain ⟨V3, hb3⟩ := ih (hready.brings hs hb2) hb2.sound (hl.lasting hb2.lasting) (hu2.brings hs hb2 hapart) hnodup.2 hrep hrun
      exact ⟨V3, hb2.append hb3 hapart⟩
  | container kw n m e tag ids version inner rest recs recs' ho _ _ ihi ih =>
    cases hrep with
    | opening n tag version gap l evs hgap hrep =>
      obtain ⟨evs1, evs2, rfl, hrep1, hrep2⟩ := hrep.split
      cases hrep2 with
      | closing m key gap' l evs2 hgap' hrep2 =>
        obtain ⟨s1, h1, hrun⟩ := run_event hrun
        obtain ⟨s2, h2, hrun⟩ := run_parts hrun
        obtain ⟨s3, h3, hrun⟩ := run_parts hrun
        obtain ⟨s4, h4, hrun⟩ := run_event hrun
        obtain ⟨s5, h5, hrun⟩ := run_parts hrun
        obtain ⟨l, c, hi, hs1, hl1, hloc, hcur, hstack, hroot⟩ := startElement_opening hS hd hready hs hl ho h1
        rw [List.map_append, List.nodup_append] at hnodup
        obtain ⟨hnodup1, hnodup2, hdis⟩ := hnodup
        have hlift : (recs.map (Rec.lift ids [tag])).map Rec.path = (recs.map Rec.path).map (ids ++ ·) := by
          rw [List.map_map, List.map_map]
          rfl
        have hapart : Apart (recs.map (Rec.lift ids [tag])) recs' := fun r hr r' hr' =>
          hdis r.path (List.mem_map_of_mem hr) r'.path (List.mem_map_of_mem hr')
        have hb2 := @brings_gap chars E s1 s2 V (q ++ ids) gap hs1 h2
        have hnil : Apart [] recs := fun _ hr => absurd hr List.not_mem_nil
        have hu1 : Untouched (q ++ ids) recs V s1.store := (hu.mono (List.subset_append_left _ _)).inner hs hl1
        obtain ⟨V3, hb3⟩ := ihi ((hi.ready ho.element.2).brings hs1 hb2) hb2.sound (hloc.lasting hb2.lasting)
          (hu1.brings hs1 hb2 hnil) ((hlift ▸ hnodup1).of_map _) hrep1 h3
        have hb4 := @Brings.container chars E s s4 q e V V3 recs c l tag ids s1 s3 hcur hstack hroot hl1 hi (hb2.append hb3 hnil) h4
        have hb5 := hb4.append (brings_gap q gap' hb4.sound h5) fun _ _ _ hr => absurd hr List.not_mem_nil
        rw [List.append_nil] at hb5
        have hu2 : Untouched q recs' V s.store := hu.mono (List.subset_append_right _ _)
        obtain ⟨V6, hb6⟩ := ih (hready.brings hs hb5) hb5.sound (hl.lasting hb5.lasting) (hu2.brings hs hb5 hapart) hnodup2 hrep2 hrun
        exact ⟨V6, hb5.append hb6 hapart⟩

/-! ## The document -/

/-- The outer tag is of this version. -/
theorem startElement_outer {version : ℤ} {st : DmStore}
    (h : startElement E rootTag.key (tagAttributes rootTag (some Save.cfgVersion))
      ⟨stateStk E.schema, 0, st, ⟨.table (some st.root), 0, Flags.zero, true⟩, version⟩ = some s) :
    Ready s E.schema.root st.root ∧ s.store = st ∧ s.top.value = some .root ∧ s.top.inst = none ∧ s.top.upgrade = false := by
  have hatts : readAttributes (tagAttributes rootTag (some Save.cfgVersion)) ⟨0, 0, false, none⟩ =
      ⟨0, 0, false, some (atoi (decimal Save.cfgVersion))⟩ := rfl
  rw [startElement_root (by rfl), hatts, atoi_decimal (by decide), startRoot] at h
  split at h
  · next hcheck => exact absurd rfl hcheck.2
  · cases h
    exact ⟨⟨rfl, rfl, ⟨_, rfl, rfl, rfl⟩, .root, _, rfl, rfl, rfl⟩, rfl, rfl, rfl, rfl⟩

/-- The store is not touched at the end of the document. -/
theorem endElement_outer (hvalue : s.top.value = some .root) (hinst : s.top.inst = none) (hup : s.top.upgrade = false)
    (h : endElement E s = some s') : s'.store = s.store := by
  simp only [endElement, finishUpgrade, hup, Bool.false_eq_true, if_false, Option.bind_eq_bind, Option.bind_some,
    Option.bind_eq_some_iff] at h
  obtain ⟨s1, h1, h2⟩ := h
  have hsame : s1.store = s.store := by
    unfold finishValid at h1
    split at h1
    · obtain ⟨s3, h3, h4⟩ := Option.bind_eq_some_iff.mp h1
      simp only [handleElement, hvalue, Option.bind_eq_bind, Option.bind_some, Option.bind_eq_some_iff, Prod.exists] at h3
      obtain ⟨element, -, v, -, r, v', -, hset⟩ := h3
      cases hset
      rw [finishRow, hinst, if_neg (by simp)] at h4
      cases h4
      rfl
    · cases h1
      rfl
  split at h2
  · cases h2
  · cases h2
    exact hsame

/-- What `serialize_element` has for a leaf. -/
theorem serializeElement_body {S : Schema} {P : Texts} {v : DmValue} {u : Value} {x : Element}
    (h : serializeElement S P e v = some x) (hhandled : handled e.type = true) (hv : v.content = .scalar u) :
    x.escaped = (elementBody S P e u).1 ∧ x.body = (elementBody S P e u).2 := by
  have hleaf : leafValue (some v.content) = u := by
    rw [hv]
    rfl
  simp only [serializeElement, if_pos hhandled, Option.some.injEq, hleaf] at h
  rw [← h]
  exact ⟨rfl, rfl⟩

/-- A path has one element. -/
theorem element_of_path {S : Schema} {st0 : DmStore} {a : Addr} {full : Prop} (hw : HeapWf full nowhere S st)
    (hl : Located S st q kw a) (he : (S.table kw).elems[i]? = some e) {around : List Save.Around} {e' : DmElement} {v : DmValue}
    (hin : Inside S st0 S.root st0.root (q ++ [i + 1]) around e' v) : e' = e := by
  obtain ⟨t, -, -, hplace⟩ := hl.table hw
  obtain ⟨p, j, k, hp, hplace', he'⟩ := hin.place [] rfl
  obtain ⟨rfl, hij⟩ := List.append_inj' hp rfl
  have hi : i = j := by simpa using hij
  subst hi
  rw [List.nil_append, hplace] at hplace'
  cases hplace'
  rw [he] at he'
  exact (Option.some.inj he').symm

/-- A leaf of the store, as the load finds it. -/
theorem Sound.located {p : Selector} {around : List Save.Around} {v : DmValue} (hs : Sound E.schema V st)
    (hin : Inside E.schema st E.schema.root st.root p around e v) :
    ∃ q kw a i, Located E.schema st q kw a ∧ p = q ++ [i + 1] ∧ (E.schema.table kw).elems[i]? = some e ∧
      st.slot a i = some v := by
  obtain ⟨q, kw, a, i, hl, hp, he, -, hv⟩ := (@Located.root E.schema st).leaf hs.wf hs.leaves.intact
    (fun r n hn => (hs.leaves.node r n hn).2) hin
  exact ⟨q, kw, a, i, hl, hp, he, hv⟩

/-- What is at one path in two stores has the same element. -/
theorem Sound.element {st0 : DmStore} {p : Selector} {around around' : List Save.Around} {e' : DmElement} {v v' : DmValue}
    (hs : Sound E.schema V st) (hin : Inside E.schema st E.schema.root st.root p around e v)
    (hin' : Inside E.schema st0 E.schema.root st0.root p around' e' v') : e' = e := by
  obtain ⟨q, kw, a, i, hl, rfl, he, -⟩ := hs.located hin
  exact element_of_path hs.wf hl he hin'

/-- The document brings all its elements to the new store. -/
theorem document_brings {l : List (ℕ × Line)} {evs : List Event} {s0 : Deser} {version : ℤ} (hS : PathsFit E.schema)
    (hd : DistinctNames E.schema) (hgrant : ∀ n, E.decode.alloc.grants n = true) (hr : Rendered E.schema E.schema.root l recs)
    (hnodup : (recs.map Rec.path).Nodup)
    (hrep : Reported chars ((0, .decl) :: (0, .opening rootTag (some Save.cfgVersion)) :: (l ++ [(0, .closing rootTag.key)])) evs)
    (h0 : deserBegin E none version = some s0) (hrun : run (handle E) s0 evs = some s) :
    ∃ s1 s3 V, Brings E chars [] recs s1 s3 (fun _ _ => none) V ∧ s.store = s3.store := by
  simp only [deserBegin, Option.bind_eq_bind, Option.bind_eq_some_iff, Option.some.injEq] at h0
  obtain ⟨sti, hnew, rfl⟩ := h0
  have hinit : DmStore.init E.schema = some sti := hnew
  -- the parts of the run
  cases hrep with
  | decl _ _ _ hrep =>
    cases hrep with
    | opening _ _ _ gap _ _ hgap hrep =>
      obtain ⟨evs1, evs2, rfl, hrep1, hrep2⟩ := hrep.split
      cases hrep2 with
      | closing _ _ gap' _ _ hgap' hrep2 =>
        cases hrep2 with
        | nil =>
          obtain ⟨s1, h1, hrun⟩ := run_event hrun
          obtain ⟨s2, h2, hrun⟩ := run_parts hrun
          obtain ⟨s3, h3, hrun⟩ := run_parts hrun
          obtain ⟨s4, h4, hrun⟩ := run_event hrun
          rw [handle] at h1
          obtain ⟨hready, hstore, hvalue, hinst, hup⟩ := startElement_outer h1
          have hs := init_sound hinit
          rw [← hstore] at hs hready
          have hroot : Located E.schema s1.store [] E.schema.root s1.store.root := .root
          have hb1 := @brings_gap chars E s1 s2 _ [] gap hs h2
          have hu : Untouched [] recs (fun _ _ => none) s2.store := fun _ _ _ _ _ _ _ => rfl
          obtain ⟨V, hb2⟩ := run_rendered hS hd hgrant hr (hready.brings hs hb1) hb1.sound (hroot.lasting hb1.lasting) hu hnodup
            hrep1 h3
          have hb := hb1.append hb2 fun _ hr => absurd hr List.not_mem_nil
          rw [List.nil_append] at hb
          obtain ⟨text, htop⟩ := hb.top
          have h4store := endElement_outer (by rw [htop]; exact hvalue) (by rw [htop]; exact hinst) (by rw [htop]; exact hup) h4
          rw [List.append_nil, run_chars, Option.some.injEq] at hrun
          refine ⟨s1, s3, V, hb, ?_⟩
          rw [← hrun]
          exact h4store

/-- A leaf has the value of its element again, if the value is one that reloads. -/
theorem BroughtTo.restored {st0 : DmStore} {p : Selector} {x : Element} {around : List Save.Around} {v : DmValue} {u : Value}
    {base : ℤ} (hm : Markupless E.schema) (hL : Readers E.libc) (hchars : Delivers chars)
    (hgrant : ∀ n, E.decode.alloc.grants n = true) (hs : Sound E.schema V st) (hb : BroughtTo E chars V st p x)
    (hin : Inside E.schema st0 E.schema.root st0.root p around e v) (hsaved : Saved e v)
    (hx : serializeElement E.schema (texts E.libc base) e v = some x) (hv : v.content = .scalar u) (htype : HasType e.type u)
    (hstorable : Storable u) (hclock : InClock base u) :
    ∃ around' v', Inside E.schema st E.schema.root st.root p around' e v' ∧
      (v'.content = .scalar u ↔ Reloads E.schema E.libc base e (zeroValue e.type) u) := by
  obtain ⟨q, kw, a, i, e', n, text, chunks, hl, rfl, he, hc, htext, hcut, hV⟩ := hb
  have hsame := element_of_path hs.wf hl he hin
  subst hsame
  obtain ⟨v', hv'⟩ := located_slot hs.wf hl he
  obtain ⟨t, ht, hid, hplace⟩ := hl.table hs.wf
  have hcontent := hs.leaves.leaf a t kw i e v' ht (hid ▸ hplace) he hsaved.type hv'
  obtain ⟨around', hin'⟩ := hl.inside hs.wf (.leaf kw a i e v' he hc hv')
  refine ⟨around', v', hin', ?_⟩
  obtain ⟨hescaped, hbody⟩ := serializeElement_body hx hsaved.type hv
  have hlegible : Legible e u := by
    by_contra hno
    rw [hbody, @content_refused E.decode E.libc e chars n u hchars hstorable base hno] at htext
    cases htext
  obtain ⟨text', htext', hzero, hiff⟩ := @content_reloads E.decode E.libc e chars n (zeroValue e.type) u hchars hgrant hL hm kw
    (List.mem_of_getElem? he) hsaved.type htype hstorable base hclock hlegible
  rw [← hbody, htext] at htext'
  cases htext'
  rw [← hescaped] at hiff
  rw [hcontent, hV, assembled_cut hcut hzero, Content.scalar.injEq, ← hiff]
  rfl

/-- A leaf that is not zero has an element. -/
theorem Brings.origin {p : Selector} {around : List Save.Around} {v : DmValue}
    (hb : Brings E chars [] recs s s' (fun _ _ => none) V)
    (hin : Inside E.schema s'.store E.schema.root s'.store.root p around e v) (hh : handled e.type = true)
    (hne : v.content ≠ .scalar (zeroValue e.type)) : ∃ r ∈ recs, r.path = p := by
  obtain ⟨q, kw, a, i, hl, rfl, he, hv⟩ := hb.sound.located hin
  obtain ⟨t, ht, hid, hplace⟩ := hl.table hb.sound.wf
  have hcontent := hb.sound.leaves.leaf a t kw i e v ht (hid ▸ hplace) he hh hv
  have hbrought : V a i ≠ none := by
    intro hnone
    rw [hnone] at hcontent
    exact hne hcontent
  obtain ⟨t', ht', r, hr, hpath⟩ := hb.frame a i hbrought
  rw [ht] at ht'
  cases ht'
  rw [hid, List.nil_append] at hpath
  exact ⟨r, hr, hpath.symm⟩

def rowRead : LoadEnv := { sampleLoad with libc := tripLibc }

/-- The document of the store with one row. -/
def rowSaved : List (ℕ × Line) :=
  [(0, .decl), (0, .opening rootTag (some Save.cfgVersion)), (1, .opening ⟨[114], some 3⟩ none),
    (2, .element ⟨[97], none, false, .text [55]⟩), (1, .closing [114]), (0, .closing rootTag.key)]

def rowReported : List Event :=
  [.start rootTag.key [(ascii "version", [49])], .start [114] [(ascii "instance", [51])], .start [97] [], .chars [55],
    .stop [97], .stop [114], .stop rootTag.key]

theorem rowReported_reported : Reported sampleChars rowSaved rowReported := by
  have hblank : Blanks [] := fun _ hp => absurd hp List.not_mem_nil
  have hcut : Cut false [55] [[55]] := ⟨rfl, by simp, fun h => by cases h⟩
  have hend := @Reported.closing sampleChars 0 rootTag.key [] [] [] hblank .nil
  have hrow := Reported.closing 1 [114] [] _ _ hblank hend
  have hleaf := Reported.element 2 ⟨[97], none, false, .text [55]⟩ [55] [[55]] [] _ _ (by decide) hcut hblank hrow
  have hopen := Reported.opening 1 ⟨[114], some 3⟩ none [] _ _ hblank hleaf
  have hone : decimal 1 = [49] := by decide
  have hthree : decimal 3 = [51] := by decide
  have hall := Reported.decl 0 _ _ (Reported.opening 0 rootTag (some Save.cfgVersion) [] _ _ hblank hopen)
  simp only [tagAttributes, Save.cfgVersion, hone, hthree, rootTag, Option.map_some, Option.map_none, Option.toList_some,
    Option.toList_none, List.nil_append, List.append_nil] at hall
  exact hall

theorem sampleSchema_distinct : DistinctNames sampleSchema where
  keys := by
    rintro (_ | _ | k)
    · decide
    · decide
    · exact List.nodup_nil
  few := by
    rintro (_ | _ | k)
    · decide
    · decide
    · exact Nat.zero_lt_succ _

theorem sampleSchema_visible : Visible sampleSchema := by
  rintro (_ | _ | k)
  · decide
  · decide
  · exact fun e he => absurd he List.not_mem_nil

theorem sampleSchema_markupless : Markupless sampleSchema where
  numbered := by
    rintro (_ | _ | k)
    · decide
    · decide
    · exact Nat.two_pow_pos 16
  keys := by
    rintro (_ | _ | k)
    · simp [sampleSchema, sampleTable, sampleLeaf, Save.Plain, isMarkup]
    · simp [sampleSchema, sampleTable, sampleLeaf, Save.Plain, isMarkup]
    · exact fun e he => absurd he List.not_mem_nil
  enums := by
    rintro (_ | _ | k)
    · simp [sampleSchema, sampleTable, sampleLeaf]
    · simp [sampleSchema, sampleTable, sampleLeaf]
    · exact fun e he => absurd he List.not_mem_nil

theorem rowLoaded_wf : StoreWf False sampleSchema rowLoaded.store := by
  have hbefore : ∀ st, some sampleStore = some st → HeapWf False nowhere sampleLoad.schema st := by
    intro st hst
    cases hst
    exact @init_wf False _ _ rfl
  have hdoc : Document rowDoc :=
    ⟨[120], [], [.start [114] [(ascii "instance", [51])], .start [97] [], .chars [55], .stop [97], .stop [114]], rfl, by decide⟩
  exact load_wf sampleSchema_pathsFit sampleLoad_keeps hbefore (rfl : deserBegin sampleLoad _ 0 = some sampleBegin) hdoc
    rowDoc_numbered (Option.some_get rowDoc_loads).symm

theorem rowLoaded_intact : Intact rowLoaded.store := by
  have hall : ((List.range 2).all fun a => (rowLoaded.store.heap a).all fun t => t.values.all DmValue.parity) = true := by
    decide +kernel
  intro a i v hv
  obtain ⟨t, ht, hvt⟩ := DmStore.slot_eq_some.mp hv
  have hlt : a < 2 := rowLoaded_wf.lt a t ht
  have htable := List.all_eq_true.mp hall a (List.mem_range.mpr hlt)
  rw [ht] at htable
  exact List.all_eq_true.mp htable v (List.mem_of_getElem? hvt)

theorem rowLoaded_regular : ∀ r n, rowLoaded.store.node r = some n → Regular n.inst := by
  have hall : ((List.range 2).all fun a => (rowLoaded.store.node a).all fun n => decide (Regular n.inst)) = true := by
    decide +kernel
  intro r n hn
  obtain ⟨t, ht, -⟩ := DmStore.node_eq_some.mp hn
  have hlt : r < 2 := rowLoaded_wf.lt r t ht
  have hrow := List.all_eq_true.mp hall r (List.mem_range.mpr hlt)
  rw [hn] at hrow
  exact of_decide_eq_true hrow

theorem rowReported_loads :
    ((deserBegin rowRead none 0).bind fun s => run (handle rowRead) s rowReported).isSome = true := by decide +kernel

theorem rowSaved_document :
    (serializeStore sampleEnv (texts tripLibc 0) rowLoaded.store 1).map Prod.fst = some rowSaved := by decide +kernel

end Mand.Load
