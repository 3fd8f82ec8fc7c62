import Mand.Save.Depth
import Mand.Store.Names

/-! # The nesting of a saved document

The lines of a saved document nest like the containers of the schema. The tags around an element tell the path of its
leaf if the names of each table differ. -/
namespace Mand.Save
open Mand.Store Mand.Index Mand.Server
set_option autoImplicit false

/-- The number of a row that is taken as it is when the row is added. -/
def Regular (n : ℕ) : Prop := n &&& dmIdMask ≠ 0 ∧ n < 2 ^ 16

instance (n : ℕ) : Decidable (Regular n) := inferInstanceAs (Decidable (_ ∧ _))

/-- The tag of a container in a table of number `kw`, with the ids that lead into the container. -/
inductive Opening (S : Schema) (kw : ℕ) : DmElement → Tag → Selector → Prop
  | token (i : ℕ) (e : DmElement) (he : (S.table kw).elems[i]? = some e) (htype : e.type = .token) :
    Opening S kw e ⟨e.key, none⟩ [i + 1]
  | row (i n : ℕ) (e : DmElement) (he : (S.table kw).elems[i]? = some e) (htype : e.type = .object) (hn : Regular n) :
    Opening S kw e ⟨e.key, some n⟩ [i + 1, n]

/-- The lines for what is in a table of number `kw`, with the elements in them. -/
inductive Rendered (S : Schema) : ℕ → List (ℕ × Line) → List Rec → Prop
  | nil (kw : ℕ) : Rendered S kw [] []
  | leaf (kw i indent : ℕ) (e : DmElement) (x : Element) (rest : List (ℕ × Line)) (recs : List Rec)
    (he : (S.table kw).elems[i]? = some e) (hc : e.container = false) (hkey : x.key = e.key) (h : Rendered S kw rest recs) :
    Rendered S kw ((indent, .element x) :: rest) (⟨[i + 1], [], x⟩ :: recs)
  | container (kw n m : ℕ) (e : DmElement) (tag : Tag) (ids : Selector) (version : Option ℕ) (inner rest : List (ℕ × Line))
    (recs recs' : List Rec) (ho : Opening S kw e tag ids) (hi : Rendered S e.table inner recs) (h : Rendered S kw rest recs') :
    Rendered S kw ((n, .opening tag version) :: (inner ++ (m, .closing e.key) :: rest))
      (recs.map (Rec.lift ids [tag]) ++ recs')

section Rendered
variable {S : Schema} {kw : ℕ} {e : DmElement} {tag : Tag} {ids : Selector} {l l' : List (ℕ × Line)} {recs recs' : List Rec}

theorem Opening.key (h : Opening S kw e tag ids) : tag.key = e.key := by
  cases h <;> rfl

theorem Opening.element (h : Opening S kw e tag ids) : e ∈ (S.table kw).elems ∧ e.container = true := by
  cases h with
  | token i e he htype => exact ⟨List.mem_of_getElem? he, by simp [DmElement.container, htype]⟩
  | row i n e he htype hn => exact ⟨List.mem_of_getElem? he, by simp [DmElement.container, htype]⟩

theorem Rendered.append (h : Rendered S kw l recs) (h' : Rendered S kw l' recs') :
    Rendered S kw (l ++ l') (recs ++ recs') := by
  induction h with
  | nil kw => exact h'
  | leaf kw i indent e x rest recs he hc hkey _ ih => exact .leaf kw i indent e x _ _ he hc hkey (ih h')
  | container kw n m e tag ids version inner rest recs recs' ho hi _ _ ih =>
    rw [List.cons_append, List.append_assoc, List.append_assoc]
    exact .container kw n m e tag ids version inner _ recs _ ho hi (ih h')

/-- The tags nest. -/
theorem Rendered.balanced (h : Rendered S kw l recs) : Balanced l recs := by
  induction h with
  | nil kw => exact .nil
  | leaf kw i indent e x rest recs he hc hkey _ ih => exact (Balanced.element indent [i + 1] x).append ih
  | container kw n m e tag ids version inner rest recs recs' ho _ _ ihi ih =>
    have hboth := (ihi.wrap ids tag version n m).append ih
    rw [ho.key] at hboth
    simpa using hboth

/-! ## Paths -/

/-- The names of a table are different, and there are less of them than ids. -/
structure DistinctNames (S : Schema) : Prop where
  keys : ∀ k, ((S.table k).elems.map DmElement.key).Nodup
  few : ∀ k, (S.table k).elems.length < dmErr

/-- The containers are saved with their tags. -/
def Visible (S : Schema) : Prop := ∀ k, ∀ e ∈ (S.table k).elems, e.container = true → e.flags.internal = false

/-- The path of the leaf with this name in these tags. -/
def tagPath (S : Schema) : ℕ → List Tag → List ℕ → Selector
  | kw, [], key => [elementIdByName S key kw]
  | kw, tag :: tags, key =>
    let id := elementIdByName S tag.key kw
    id :: (tag.inst.toList ++ tagPath S (((S.table kw).elems[id - 1]?).elim 0 DmElement.table) tags key)

theorem DistinctNames.id (hS : DistinctNames S) {i : ℕ} (he : (S.table kw).elems[i]? = some e) :
    elementIdByName S e.key kw = i + 1 ∧ i + 1 ≠ dmErr := by
  obtain ⟨hi, hie⟩ := List.getElem?_eq_some_iff.mp he
  have hlen := hS.few kw
  have hlast : dmErr = 65535 := rfl
  have hfind : (S.table kw).elems.findIdx? (fun e' => e'.key = e.key) = some i := by
    rw [List.findIdx?_eq_some_iff_getElem]
    refine ⟨hi, by simp [hie], fun j hj hkey => ?_⟩
    -- an element before it has another name
    have hj' : j < (S.table kw).elems.length := hj.trans hi
    have hsame : ((S.table kw).elems.map DmElement.key)[j]? = ((S.table kw).elems.map DmElement.key)[i]? := by
      rw [List.getElem?_map, List.getElem?_map, List.getElem?_eq_getElem hj', he, Option.map_some, Option.map_some]
      simpa using hkey
    have hlt : j < ((S.table kw).elems.map DmElement.key).length := by simpa using hj'
    exact absurd ((List.getElem?_inj hlt (hS.keys kw)).mp hsame) (Nat.ne_of_lt hj)
  refine ⟨?_, by omega⟩
  rw [elementIdByName, hfind]
  exact Nat.mod_eq_of_lt (by omega)

theorem tagPath_opening (hS : DistinctNames S) (ho : Opening S kw e tag ids) (tags : List Tag) (key : List ℕ) :
    tagPath S kw (tag :: tags) key = ids ++ tagPath S e.table tags key := by
  cases ho with
  | token i e he htype => simp [tagPath, (hS.id he).1, he]
  | row i n e he htype hn => simp [tagPath, (hS.id he).1, he]

theorem Rendered.path (hS : DistinctNames S) (h : Rendered S kw l recs) :
    ∀ r ∈ recs, r.path = tagPath S kw r.tags r.element.key := by
  induction h with
  | nil kw => simp
  | leaf kw i indent e x rest recs he hc hkey _ ih =>
    refine List.forall_mem_cons.mpr ⟨?_, ih⟩
    rw [tagPath, hkey, (hS.id he).1]
  | container kw n m e tag ids version inner rest recs recs' ho _ _ ihi ih =>
    intro r hr
    rcases List.mem_append.mp hr with hr | hr
    · obtain ⟨r0, hr0, rfl⟩ := List.mem_map.mp hr
      show ids ++ r0.path = tagPath S kw (tag :: r0.tags) r0.element.key
      rw [tagPath_opening hS ho, ihi r0 hr0]
    · exact ih r hr

theorem tagsOf_cons {x : Around} {around : List Around} (h : x.elem.flags.internal = false) :
    tagsOf (x :: around) = ⟨x.elem.key, x.inst⟩ :: tagsOf around := by
  simp [tagsOf, h]

theorem Within.tagPath (hS : DistinctNames S) (hvis : Visible S) {keep : Flags → Prop} {st : DmStore} {a : Addr} {p : Selector}
    {around : List Around} {v : DmValue} (h : Within keep S st kw a p around e v) :
    p = tagPath S kw (tagsOf around) e.key := by
  induction h with
  | leaf kw a i e v he hc hv => exact (congrArg (fun id => [id]) (hS.id he).1).symm
  | token kw a i e w b p around e' v' he htype hv hk hb _ ih =>
    have hint := hvis kw e (List.mem_of_getElem? he) (by simp [DmElement.container, htype])
    rw [tagsOf_cons hint, tagPath_opening hS (.token i e he htype), ← ih]
    rfl
  | row kw a i e w o rows r n b p around e' v' he htype hv hk ho hrows hr hn hnk hb _ ih =>
    have hint := hvis kw e (List.mem_of_getElem? he) (by simp [DmElement.container, htype])
    rw [tagsOf_cons hint]
    simp [Save.tagPath, (hS.id he).1, he, ← ih]

end Rendered

/-! ## The walk -/

section Walk
variable {env : Env} {P : Texts} {st : DmStore} {kw : ℕ} {e : DmElement} {w w' : WalkData}
  {walk : ℤ → ℕ → Addr → WalkData → Option WalkData}

/-- Lines are put for some of what is in a table. -/
def Puts (S : Schema) (kw : ℕ) (w w' : WalkData) : Prop :=
  ∃ l recs, w'.lines = w.lines ++ l ∧ w'.indent = w.indent ∧ Rendered S kw l recs

theorem Puts.refl (S : Schema) (kw : ℕ) (w : WalkData) : Puts S kw w w := ⟨[], [], by simp, rfl, .nil kw⟩

theorem Puts.trans {S : Schema} {w'' : WalkData} (h : Puts S kw w w') (h' : Puts S kw w' w'') : Puts S kw w w'' := by
  obtain ⟨l, recs, hl, hi, hr⟩ := h
  obtain ⟨l', recs', hl', hi', hr'⟩ := h'
  exact ⟨l ++ l', recs ++ recs', by rw [hl', hl, List.append_assoc], hi'.trans hi, hr.append hr'⟩

/-- A container with its tags. -/
theorem Puts.container {S : Schema} {tag : Tag} {ids : Selector} {version : Option ℕ} (ho : Opening S kw e tag ids)
    (h : Puts S e.table (w.enter tag version) w') : Puts S kw w (w'.leave e.key) := by
  obtain ⟨l, recs, hl, hi, hr⟩ := h
  refine ⟨_, _, ?_, ?_, .container kw w.indent (w'.indent - 1) e tag ids version l [] recs [] ho hr (.nil kw)⟩
  · show w'.lines ++ [(w'.indent - 1, .closing e.key)] = _
    rw [hl]
    simp [WalkData.enter, WalkData.put]
  · show w'.indent - 1 = w.indent
    rw [hi]
    rfl

/-- What a walk through a table puts. -/
def Renders (S : Schema) (walk : ℤ → ℕ → Addr → WalkData → Option WalkData) : Prop :=
  ∀ level kw a w w', walk level kw a w = some w' → Puts S kw w w'

theorem descend_puts {S : Schema} {level : ℤ} {b : Addr} (hwalk : Renders S walk) (h : descend walk level kw b w = some w') :
    Puts S kw w w' := by
  unfold descend at h
  split at h
  · cases h
    exact .refl S kw w
  · exact hwalk level kw b w w' h

theorem walkRows_puts {S : Schema} {level : ℤ} {i : ℕ} (hwalk : Renders S walk) (hvis : Visible S)
    (hnum : ∀ r n, st.node r = some n → Regular n.inst) (he : (S.table kw).elems[i]? = some e) (htype : e.type = .object)
    (rows : List Addr) (h : walkRows (serializeWalkCb S P false) st walk level e rows w = some w') : Puts S kw w w' := by
  induction rows generalizing w with
  | nil =>
    cases h
    exact .refl S kw _
  | cons r rows ih =>
    simp only [walkRows, Option.bind_eq_bind, Option.bind_eq_some_iff] at h
    obtain ⟨n, hn, h⟩ := h
    cases opens_row S P n.inst e n.value with
    | internal hint _ _ =>
      have := hvis kw e (List.mem_of_getElem? he) (by simp [DmElement.container, htype])
      rw [hint] at this
      cases this
    | refused _ hstart =>
      simp only [hstart] at h
      exact ih h
    | opened version _ hstart hstop =>
      simp only [hstart] at h
      split at h
      · obtain ⟨w1, h1, h2⟩ := Option.bind_eq_some_iff.mp h
        rw [hstop] at h2
        exact ((descend_puts hwalk h1).container (.row i n.inst e he htype (hnum r n hn))).trans (ih h2)
      · cases h

/-- Nothing is put for an object itself. -/
theorem object_same {S : Schema} {type : CbType} {id : ℕ} {v : DmValue} (htype : type = .objectStart ∨ type = .objectEnd) :
    (serializeWalkCb S P false type id e v w).2 = w := by
  rcases htype with rfl | rfl <;> unfold serializeWalkCb <;> split_ifs <;> rfl

theorem walkObject_puts {S : Schema} {level : ℤ} {i : ℕ} {v : DmValue} {t : Option ObjTree} (hwalk : Renders S walk)
    (hvis : Visible S) (hnum : ∀ r n, st.node r = some n → Regular n.inst) (he : (S.table kw).elems[i]? = some e)
    (htype : e.type = .object)
    (h : walkObject (serializeWalkCb S P false) st walk level (i + 1) e v t w = some w') : Puts S kw w w' := by
  have hsame := @object_same P e w S .objectStart (i + 1) v (.inl rfl)
  unfold walkObject at h
  cases hs : serializeWalkCb S P false .objectStart (i + 1) e v w with
  | mk go w1 =>
    rw [hs] at h hsame
    cases hsame
    cases go with
    | false =>
      cases h
      exact .refl S kw _
    | true =>
      -- the rows, if the level is not used up
      have hrows : ∃ rows w2, walkRows (serializeWalkCb S P false) st walk level e rows w1 = some w2 ∧
          (serializeWalkCb S P false .objectEnd (i + 1) e v w2).2 = w' := by
        simp only [Option.bind_eq_bind] at h
        split at h
        all_goals
          obtain ⟨rows, -, h⟩ := Option.bind_eq_some_iff.mp h
          obtain ⟨w2, h2, hend⟩ := Option.bind_eq_some_iff.mp h
          exact ⟨rows, w2, h2, Option.some.inj hend⟩
      obtain ⟨rows, w2, h2, rfl⟩ := hrows
      rw [object_same (.inr rfl)]
      exact walkRows_puts hwalk hvis hnum he htype rows h2

theorem walkLeaf_puts {S : Schema} {level : ℤ} {i : ℕ} {v : DmValue} (he : (S.table kw).elems[i]? = some e)
    (hc : e.container = false) (h : walkValue (serializeWalkCb S P false) st walk level (i + 1) e v w = some w') :
    Puts S kw w w' := by
  rw [walkValue_leaf _ _ hc] at h
  cases h
  simp only [serializeWalkCb]
  split_ifs
  · exact .refl S kw w
  · exact .refl S kw w
  · cases hx : serializeElement S P e v with
    | none => exact .refl S kw w
    | some x => exact ⟨_, _, rfl, rfl, .leaf kw i w.indent e x [] [] he hc (serializeElement_key hx) (.nil kw)⟩
  · exact .refl S kw w

theorem walkValue_puts {S : Schema} {level : ℤ} {i : ℕ} {v : DmValue} (hwalk : Renders S walk) (hvis : Visible S)
    (hnum : ∀ r n, st.node r = some n → Regular n.inst) (he : (S.table kw).elems[i]? = some e)
    (h : walkValue (serializeWalkCb S P false) st walk level (i + 1) e v w = some w') : Puts S kw w w' := by
  by_cases htok : e.type = .token
  · simp only [walkValue, htok] at h
    cases hc : v.content with
    | scalar x => simp [hc] at h
    | inst t => simp [hc] at h
    | table b =>
      cases b with
      | none =>
        simp only [hc, Option.some.injEq] at h
        exact h ▸ .refl S kw w
      | some b =>
        simp only [hc] at h
        cases opens_table S P (i + 1) e v with
        | internal hint _ _ =>
          have := hvis kw e (List.mem_of_getElem? he) (by simp [DmElement.container, htok])
          rw [hint] at this
          cases this
        | refused _ hstart =>
          simp only [hstart, Option.some.injEq] at h
          exact h ▸ .refl S kw w
        | opened version _ hstart hstop =>
          simp only [hstart, Option.bind_eq_bind, Option.bind_eq_some_iff, Option.some.injEq] at h
          obtain ⟨w1, h1, rfl⟩ := h
          rw [hstop]
          exact (descend_puts hwalk h1).container (.token i e he htok)
  by_cases hobj : e.type = .object
  · simp only [walkValue, hobj] at h
    cases hc : v.content with
    | scalar x => simp [hc] at h
    | table b => simp [hc] at h
    | inst t =>
      simp only [hc] at h
      exact walkObject_puts hwalk hvis hnum he hobj h
  · exact walkLeaf_puts he (by simp [DmElement.container, htok, hobj]) h

theorem walkElements_puts {level : ℤ} {a : Addr} (hwalk : Renders env.schema walk) (hvis : Visible env.schema)
    (hnum : ∀ r n, st.node r = some n → Regular n.inst) (es : List DmElement) (i : ℕ)
    (hes : (env.schema.table kw).elems.drop i = es)
    (h : walkElements env (serializeWalkCb env.schema P false) st walk level a es i w = some w') : Puts env.schema kw w w' := by
  induction es generalizing i w with
  | nil =>
    cases h
    exact .refl _ kw _
  | cons e es ih =>
    have he : (env.schema.table kw).elems[i]? = some e := by
      rw [← List.head?_drop, hes]
      rfl
    have hrest : (env.schema.table kw).elems.drop (i + 1) = es := by
      rw [← List.tail_drop, hes]
      rfl
    simp only [walkElements, Option.bind_eq_bind, Option.bind_eq_some_iff] at h
    obtain ⟨v, -, w1, h1, h2⟩ := h
    exact (walkValue_puts hwalk hvis hnum he h1).trans (ih (i + 1) hrest h2)

theorem walkTable_puts (hvis : Visible env.schema) (hnum : ∀ r n, st.node r = some n → Regular n.inst) (n : ℕ) :
    Renders env.schema (walkTable env (serializeWalkCb env.schema P false) st n) := by
  induction n with
  | zero =>
    intro level kw a w w' h
    cases h
  | succ n ih =>
    intro level kw a w w' h
    exact walkElements_puts ih hvis hnum _ 0 rfl h

/-! ## Numbers of rows -/

/-- The rows have the numbers that they had. -/
def SameNumbers (st st' : DmStore) : Prop := ∀ r n', st'.node r = some n' → ∃ n, st.node r = some n ∧ n.inst = n'.inst

theorem SameNumbers.refl (st : DmStore) : SameNumbers st st := fun _ n hn => ⟨n, hn, rfl⟩

theorem SameNumbers.trans {st st' st'' : DmStore} (h : SameNumbers st st') (h' : SameNumbers st' st'') :
    SameNumbers st st'' := by
  intro r n'' hn''
  obtain ⟨n', hn', hi'⟩ := h' r n'' hn''
  obtain ⟨n, hn, hi⟩ := h r n' hn'
  exact ⟨n, hn, hi.trans hi'⟩

section Flags
variable {S : Schema} {upd : ℕ → Addr → DmStore → Option (Flags × DmStore)} {st st' : DmStore} {ret : Flags}

theorem updateFlagsRows_numbers (hupd : ∀ kw a st ret st', upd kw a st = some (ret, st') → SameNumbers st st') {e : DmElement}
    (rows : List Addr) (h : updateFlagsRows upd e rows st = some (ret, st')) : SameNumbers st st' := by
  induction rows generalizing st ret with
  | nil =>
    cases h
    exact .refl _
  | cons r rows ih =>
    simp only [updateFlagsRows, Option.bind_eq_bind, Option.bind_eq_some_iff] at h
    obtain ⟨n, -, h⟩ := h
    split at h
    · simp only [Option.bind_eq_some_iff, Prod.exists, Option.some.injEq, Prod.mk.injEq] at h
      obtain ⟨inner, st1, h1, m, hm, st2, h2, rest, st3, h3, -, rfl⟩ := h
      refine ((hupd _ _ _ _ _ h1).trans ?_).trans (ih h3)
      intro r' n' hn'
      rw [DmStore.node_setNode h2] at hn'
      by_cases hr : r' = r
      · rw [if_pos hr] at hn'
        cases hn'
        exact ⟨m, by rw [hr]; exact hm, rfl⟩
      · rw [if_neg hr] at hn'
        exact ⟨n', hn', rfl⟩
    · cases h

theorem updateFlagsElement_numbers (hupd : ∀ kw a st ret st', upd kw a st = some (ret, st') → SameNumbers st st') {e : DmElement}
    {a i : ℕ} (h : updateFlagsElement upd e a i st = some (ret, st')) : SameNumbers st st' := by
  simp only [updateFlagsElement, Option.bind_eq_bind, Option.bind_eq_some_iff, Prod.exists, Option.some.injEq,
    Prod.mk.injEq] at h
  obtain ⟨v, -, inner, st1, h1, w, -, st2, h2, -, rfl⟩ := h
  have hinner : SameNumbers st st1 := by
    unfold updateFlagsContent at h1
    split at h1
    · exact hupd _ _ _ _ _ h1
    · cases h1
      exact .refl _
    · cases h1
    · obtain ⟨rows, -, h1⟩ := Option.bind_eq_some_iff.mp h1
      exact updateFlagsRows_numbers hupd rows h1
    · cases h1
    · cases h1
      exact .refl _
  intro r n hn
  rw [DmStore.node_setSlot h2] at hn
  exact hinner r n hn

theorem updateFlagsTable_numbers (m : ℕ) : ∀ kw a st ret st', updateFlagsTable S m kw a st = some (ret, st') →
    SameNumbers st st' := by
  induction m with
  | zero =>
    intro kw a st ret st' h
    cases h
  | succ m ih =>
    intro kw a st ret st' h
    unfold updateFlagsTable at h
    generalize (S.table kw).elems = es at h
    generalize 0 = i at h
    induction es generalizing i st ret with
    | nil =>
      cases h
      exact .refl _
    | cons e es ihes =>
      simp only [updateFlagsElements, Option.bind_eq_bind, Option.bind_eq_some_iff, Prod.exists, Option.some.injEq,
        Prod.mk.injEq] at h
      obtain ⟨ret1, st1, h1, ret2, st2, h2, -, rfl⟩ := h
      exact (updateFlagsElement_numbers ih h1).trans (ihes _ _ _ h2)

end Flags

/-! ## The document -/

/-- What is between the first tag and the last one is in the table of the root. -/
theorem serializeStore_rendered {st' : DmStore} {flags : ℕ} {doc : List (ℕ × Line)} (hvis : Visible env.schema)
    (hnum : ∀ r n, st.node r = some n → Regular n.inst) (hsys : flags.testBit 2 = false)
    (h : serializeStore env P st flags = some (doc, st')) :
    ∃ l recs, doc = (0, .decl) :: (0, .opening rootTag (some cfgVersion)) :: (l ++ [(0, .closing rootTag.key)]) ∧
      Rendered env.schema env.schema.root l recs := by
  simp only [serializeStore, updateFlags, hsys, Option.bind_eq_bind, Option.bind_eq_some_iff, Prod.exists, Option.some.injEq,
    Prod.mk.injEq] at h
  obtain ⟨st1, ⟨ret, st2, hupd, rfl⟩, w, hwalk, rfl, rfl⟩ := h
  have hnum2 : ∀ r n, st2.node r = some n → Regular n.inst := by
    intro r n hn
    obtain ⟨m, hm, hi⟩ := updateFlagsTable_numbers _ _ _ _ _ _ hupd r n hn
    exact hi ▸ hnum r m hm
  obtain ⟨l, recs, hl, -, hr⟩ := walkTable_puts hvis hnum2 _ _ _ _ _ _ hwalk
  exact ⟨l, recs, by rw [hl]; rfl, hr⟩

/-- The elements of the document in the order of its lines: each is that of a leaf of its own, and every leaf that is to be
saved has one. -/
theorem serializeStore_recs {full : Prop} {st' : DmStore} {flags : ℕ} {doc : List (ℕ × Line)} (hw : StoreWf full env.schema st)
    (hpar : Intact st) (hfit : PathsFit env.schema) (hdist : DistinctNames env.schema) (hvis : Visible env.schema)
    (hnum : ∀ r n, st.node r = some n → Regular n.inst) (hsys : flags.testBit 2 = false)
    (h : serializeStore env P st flags = some (doc, st')) :
    ∃ l recs, doc = (0, .decl) :: (0, .opening rootTag (some cfgVersion)) :: (l ++ [(0, .closing rootTag.key)]) ∧
      Rendered env.schema env.schema.root l recs ∧ (recs.map Rec.path).Nodup ∧
      (∀ r ∈ recs, ∃ around e v, Inside env.schema st env.schema.root st.root r.path around e v) ∧
      ∀ p around e v, Inside env.schema st env.schema.root st.root p around e v → Clean around → Saved e v →
        ∃ r ∈ recs, r.path = p ∧ serializeElement env.schema P e v = some r.element := by
  obtain ⟨l, recs, rfl, hr⟩ := serializeStore_rendered hvis hnum hsys h
  obtain ⟨st1, hu, hg, hshow⟩ := updateFlags_spec hw hpar
  obtain ⟨t, ht, hid⟩ := hw.root
  have hp : env.schema.place t.id = some (env.schema.root, false) := by
    rw [hid]
    rfl
  obtain ⟨w1, recs1, hwalk, hwr⟩ := @walkTable_written full P st st1 env hw hpar hg (env.schema.root + 1) dmSelectorLen
    env.schema.root st.root t ⟨[(0, .decl), (0, .opening rootTag (some cfgVersion))], 1⟩ (by decide) (Nat.lt_succ_self _) ht hp
  obtain ⟨l1, hl1, hbal⟩ := hwr.lines
  -- both speak of the same lines
  have hl : l1 = l := by
    simp only [serializeStore, hu, hsys, hg.root, hwalk, Option.bind_eq_bind, Option.bind_some, Option.some.injEq,
      Prod.mk.injEq, hl1] at h
    have hlines := h.1
    simp only [List.cons_append, List.nil_append, List.cons.injEq, true_and] at hlines
    exact List.append_cancel_right hlines
  subst hl
  have hfound : recs1.map (fun r => (r.tags, r.element)) = recs.map fun r => (r.tags, r.element) := by
    have hone := hbal [] []
    rw [hr.balanced [] []] at hone
    simpa [scan] using hone.symm
  have hpaths : ∀ rs : List Rec, (∀ r ∈ rs, r.path = tagPath env.schema env.schema.root r.tags r.element.key) →
      rs = (rs.map fun r => (r.tags, r.element)).map fun x => ⟨tagPath env.schema env.schema.root x.1 x.2.key, x.1, x.2⟩ := by
    intro rs hrs
    rw [List.map_map]
    refine (List.map_id rs).symm.trans (List.map_congr_left fun r hr => ?_)
    show r = ⟨tagPath env.schema env.schema.root r.tags r.element.key, r.tags, r.element⟩
    rw [← hrs r hr]
  have hsame : recs1 = recs := by
    rw [hpaths recs (hr.path hdist), ← hfound]
    refine hpaths recs1 fun r hr => ?_
    obtain ⟨-, around, e, v, hin, htags, hkey⟩ := hwr.leaf r hr
    rw [htags, hkey]
    exact hin.tagPath hdist hvis
  subst hsame
  refine ⟨l1, recs1, rfl, hr, hwr.nodup, fun r hr => ?_, fun p around e v hin hclean hsaved => ?_⟩
  · obtain ⟨-, around, e, v, hin, -⟩ := hwr.leaf r hr
    exact ⟨around, e, v, hin⟩
  · obtain ⟨q, i, kw, rfl, hplace, he⟩ := hin.place [] rfl
    have hlen := hfit q kw i e hplace he
    obtain ⟨x, hx, hmem⟩ := hwr.shown _ around e v trivial (hshow _ around e v hin hsaved.updated)
      (by
        rw [List.length_append, List.length_singleton]
        omega) hclean hsaved
    exact ⟨_, hmem, rfl, hx⟩

end Walk

end Mand.Save
