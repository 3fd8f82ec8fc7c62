import Mand.Load.Enter
import Mand.Load.Stack
import Mand.Store.Add

/-! # Where names are looked up

A state that is valid stays so for what is nested in it, whatever its element is. Where no element stands in one that
leads to a leaf, each name is looked up in the table of a container. -/
namespace Mand.Load
open Mand.Store Mand.Save Mand.Run Mand.Rpc Mand.Server
set_option autoImplicit false

/-! ## Documents and schemas -/

/-- The element that a name stands for in a table. -/
def elementNamed (S : Schema) (name : List ℕ) (kw : ℕ) : Option DmElement :=
  if elementIdByName S name kw = dmErr then none else elementById S (elementIdByName S name kw) kw

/-- The element of the schema for a name that is nested in another one. -/
def childOf (S : Schema) (x : Option DmElement) (name : List ℕ) : Option DmElement :=
  x.bind fun e => if e.container = true then elementNamed S name e.table else none

/-- No element stands in one that leads to a leaf; with the elements of the schema for those that are open. -/
def noneInLeaf (S : Schema) : List (Option DmElement) → List Event → Bool
  | _, [] => true
  | [], .start _ _ :: evs => noneInLeaf S [some (rootElement S)] evs
  | x :: stack, .start name _ :: evs => x.all DmElement.container && noneInLeaf S (childOf S x name :: x :: stack) evs
  | stack, .chars _ :: evs => noneInLeaf S stack evs
  | stack, .stop _ :: evs => noneInLeaf S stack.tail evs

/-- The slots are those of a table of the schema. -/
def TableOf (S : Schema) (kw : ℕ) (t : VTable) : Prop :=
  t.values.length = (S.table kw).elems.length ∧
    ∀ (i : ℕ) (v : DmValue), t.values[i]? = some v → ∃ e, (S.table kw).elems[i]? = some e ∧ Fits e v.content

/-- The element is a container and the value its table. -/
def Searchable (S : Schema) (s : Deser) : Prop :=
  ∃ e p v b t, s.top.element = some e ∧ e.container = true ∧ s.top.value = some p ∧ s.value p = some v ∧
    v.content = .table (some b) ∧ s.store.heap b = some t ∧ TableOf S e.table t

/-- Every table has a kind. -/
def Kinded (S : Schema) (st : DmStore) : Prop := ∃ kind, Shaped S kind st

theorem kinded_of_wf {S : Schema} {full : Prop} {st : DmStore} (hw : HeapWf full nowhere S st) : Kinded S st := ⟨_, hw.shaped⟩

theorem tableOf_kind {S : Schema} {kind : Addr → ℕ} {st : DmStore} (h : Shaped S kind st) {b : Addr} {t : VTable}
    (ht : st.heap b = some t) : TableOf S (kind b) t := by
  refine ⟨h.len b t ht, fun i v hv => ?_⟩
  obtain ⟨e, he, hs⟩ := h.slot b i v (DmStore.slot_eq_some.mpr ⟨t, ht, hv⟩)
  exact ⟨e, he, hs.fits⟩

/-! ## States that stand for elements -/

section States
variable (S : Schema) (kind : Addr → ℕ)

def Holds (s : Deser) (e : DmElement) : Place → Prop
  | .root => e.container = true ∧ e.table = S.root ∧ s.rootValue.content = .table (some s.store.root)
  | .at l => HoldsAt S kind s.store e l

/-- A state other than that of the document; if it is valid, it is that of the element. -/
structure Stands (s : Deser) (x : XmlState) (o : Option DmElement) : Prop where
  root : x.root = false
  valid : x.valid = true → ∃ e p, o = some e ∧ x.element = some e ∧ x.value = some p ∧ Holds S kind s e p

/-- The states of the open elements. Only that of the root may have to check versions. -/
structure StackOf (s : Deser) (stack : List (Option DmElement)) : Prop where
  shaped : Shaped S kind s.store
  cur : s.cur = stack.length
  stands : ∀ (j : ℕ) o, stack[j]? = some o → Stands S kind s (s.stack (s.cur - j)) o
  upgrade : ∀ k, 2 ≤ k → k ≤ s.cur → (s.stack k).upgrade = false

end States

variable {S : Schema} {kind kind' : Addr → ℕ} {s s' : Deser} {x : Option DmElement} {stack : List (Option DmElement)}

/-- Another store, with the same tables. -/
theorem Holds.frame {e : DmElement} {p : Place} (h : Holds S kind s e p) (hf : Frame kind kind' s.store s'.store)
    (hroot : s'.rootValue.content = s.rootValue.content) : Holds S kind' s' e p := by
  cases p with
  | root => exact ⟨h.1, h.2.1, by rw [hroot, hf.root]; exact h.2.2⟩
  | «at» l => exact HoldsAt.frame h hf

theorem Stands.frame {y : XmlState} {o : Option DmElement} (h : Stands S kind s y o) (hf : Frame kind kind' s.store s'.store)
    (hroot : s'.rootValue.content = s.rootValue.content) : Stands S kind' s' y o := by
  refine ⟨h.root, fun hv => ?_⟩
  obtain ⟨e, p, ho, he, hp, hh⟩ := h.valid hv
  exact ⟨e, p, ho, he, hp, hh.frame hf hroot⟩

/-- A state that is not valid stands for anything. -/
theorem Stands.invalid {y : XmlState} {o : Option DmElement} (hr : y.root = false) (hv : y.valid = false) : Stands S kind s y o :=
  ⟨hr, fun h => absurd (hv.symm.trans h) (by decide)⟩

theorem StackOf.top (h : StackOf S kind s (x :: stack)) : Stands S kind s s.top x := h.stands 0 x rfl

/-- The table of a container. -/
theorem Holds.table {e : DmElement} {p : Place} {v : DmValue} (hs : Shaped S kind s.store) (h : Holds S kind s e p)
    (he : e.container = true) (hv : s.value p = some v) :
    ∃ b t, v.content = .table (some b) ∧ s.store.heap b = some t ∧ kind b = e.table := by
  cases p with
  | root =>
    cases hv
    obtain ⟨t, ht, hk⟩ := hs.root
    exact ⟨_, t, h.2.2, ht, hk.trans h.2.1.symm⟩
  | «at» l =>
    obtain ⟨b, hb, ⟨t, ht⟩, hk⟩ := HoldsAt.table h he hv
    exact ⟨b, t, hb, ht, hk⟩

theorem Holds.value {e : DmElement} {p : Place} (h : Holds S kind s e p) : ∃ v, s.value p = some v := by
  cases p with
  | root => exact ⟨_, rfl⟩
  | «at» l =>
    cases l with
    | slot a i =>
      obtain ⟨-, v, hv, -⟩ := h
      exact ⟨v, hv⟩
    | row r =>
      obtain ⟨n, hn, -⟩ := h.2
      exact ⟨n.value, Option.map_eq_some_iff.mpr ⟨n, hn, rfl⟩⟩

theorem StackOf.searchable (h : StackOf S kind s (x :: stack)) (hx : x.all DmElement.container = true) (hv : s.top.valid = true) :
    Searchable S s := by
  obtain ⟨e, p, rfl, he, hp, hh⟩ := h.top.valid hv
  obtain ⟨v, hval⟩ := hh.value
  obtain ⟨b, t, hb, ht, hk⟩ := hh.table h.shaped hx hval
  exact ⟨e, p, v, b, t, he, hx, hp, hval, hb, ht, hk ▸ tableOf_kind h.shaped ht⟩

/-! ## The beginning of an element -/

/-- The states below the new one. -/
theorem StackOf.push (h : StackOf S kind s stack) (hne : s.top.root = false) (a : Attributes) (o : Option DmElement) :
    StackOf S kind (s.push.withAttributes a) (o :: stack) := by
  have hnew : (s.push.withAttributes a).stack (s.cur + 1) = { XmlState.zero with escaped := false || a.escaped } := by
    simp only [Deser.top] at hne
    simp [Deser.push, Deser.withAttributes, Deser.setTop, Deser.top, hne, XmlState.zero]
  have hold : ∀ k, k ≠ s.cur + 1 → (s.push.withAttributes a).stack k = s.stack k := by
    intro k hk
    simp only [Deser.top] at hne
    simp [Deser.push, Deser.withAttributes, Deser.setTop, Deser.top, hne, hk]
  have hcur : (s.push.withAttributes a).cur = s.cur + 1 := rfl
  refine ⟨h.shaped, ?_, ?_, ?_⟩
  · rw [hcur, h.cur]
    rfl
  · intro j o' ho'
    rw [hcur]
    cases j with
    | zero =>
      rw [Nat.sub_zero, hnew]
      exact .invalid rfl rfl
    | succ j =>
      rw [Nat.add_sub_add_right, hold _ (by omega)]
      exact (h.stands j o' ho').frame (Frame.refl kind _) rfl
  · intro k hk hle
    by_cases hkc : k = s.cur + 1
    · rw [hkc, hnew]
      rfl
    · rw [hold k hkc]
      exact h.upgrade k hk (by rw [hcur] at hle; omega)

/-- The new state gets its element and its value. -/
theorem StackOf.enter {o : Option DmElement} {y : XmlState} {st : DmStore} (h : StackOf S kind s (o :: stack))
    (hs : Shaped S kind' st) (hf : Frame kind kind' s.store st) (hroot : y.root = false) (hup : y.upgrade = false)
    {e : DmElement} {l : Loc} (he : y.element = some e) (hl : y.value = some (.at l)) (hh : HoldsAt S kind' st e l) :
    StackOf S kind' { s.setTop y with store := st } (some e :: stack) := by
  refine ⟨hs, h.cur, ?_, ?_⟩
  · intro j o' ho'
    cases j with
    | zero =>
      cases ho'
      show Stands S kind' _ (Function.update s.stack s.cur y s.cur) (some e)
      rw [Function.update_self]
      exact ⟨hroot, fun _ => ⟨e, .at l, rfl, he, hl, hh⟩⟩
    | succ j =>
      have hcur := h.cur
      rw [List.length_cons] at hcur
      show Stands S kind' _ (Function.update s.stack s.cur y (s.cur - (j + 1))) o'
      rw [Function.update_of_ne (by omega)]
      exact (h.stands (j + 1) o' ho').frame hf rfl
  · intro k hk hle
    show (Function.update s.stack s.cur y k).upgrade = false
    by_cases hkc : k = s.cur
    · rw [hkc, Function.update_self]
      exact hup
    · rw [Function.update_of_ne hkc]
      exact h.upgrade k hk hle

section Run
variable {E : LoadEnv}

theorem startChild_stack {parent : XmlState} {name : List ℕ} {a : Attributes} (h : StackOf E.schema kind s (childOf E.schema x name :: stack))
    (hp : Stands E.schema kind s parent x) (hv : parent.valid = true) (hroot : s.top.root = false) (hup : s.top.upgrade = false)
    (hstart : startChild E parent name a s = some s') : ∃ kind', StackOf E.schema kind' s' (childOf E.schema x name :: stack) := by
  obtain ⟨e, p, rfl, he, hval, hh⟩ := hp.valid hv
  unfold startChild at hstart
  simp only [he, hval, Option.bind_eq_bind, Option.bind_some] at hstart
  split at hstart
  · next hcont =>
    split at hstart
    · cases hstart
      exact ⟨kind, h⟩
    · next hid =>
      simp only [Option.bind_eq_some_iff] at hstart
      obtain ⟨kw, hkw, v, hv, hstart⟩ := hstart
      obtain ⟨b, t, hb, ht, hk⟩ := hh.table h.shaped hcont hv
      rw [hb] at hstart
      simp only [Option.bind_eq_some_iff, Option.some.injEq, Prod.exists] at hstart
      obtain ⟨child, hchild, u, hpar, l, inst, node, st1, henter, st2, hnotify, rfl⟩ := hstart
      have helem : (E.schema.table (kind b)).elems[elementIdByName E.schema name e.table - 1]? = some kw := by
        unfold elementById at hkw
        split at hkw
        · cases hkw
        · rw [hk]
          exact hkw
      have hchildOf : childOf E.schema (some e) name = some kw := by
        simp only [childOf, Option.bind_some, hcont, if_true, elementNamed, if_neg hid, hkw]
      obtain ⟨kind1, hs1, hf1, hh1⟩ := enterElement_shape h.shaped helem hchild ((parityAssert_eq child u).mp hpar) henter
      obtain ⟨hs2, hf2⟩ := setNotifyAttribute_shape hs1 hh1 hnotify
      rw [hchildOf] at h ⊢
      have hnext : ∀ y : XmlState, y.root = false → y.upgrade = false → y.element = some kw → y.value = some (.at l) →
          StackOf E.schema kind1 { s.setTop y with store := st2 } (some kw :: stack) :=
        fun y hyr hyu hye hyv => h.enter hs2 (hf1.trans hf2) hyr hyu hye hyv (hh1.frame hf2)
      exact ⟨kind1, hnext _ hroot hup rfl rfl⟩
  · cases hstart

/-- An element starts in another one. -/
theorem startElement_stack {name : List ℕ} {atts : List (List ℕ × List ℕ)} (h : StackOf E.schema kind s (x :: stack))
    (hstart : startElement E name atts s = some s') :
    ∃ kind', StackOf E.schema kind' s' (childOf E.schema x name :: x :: stack) := by
  have hroot := h.top.root
  have hpush := h.push hroot (readAttributes atts ⟨0, 0, false, none⟩) (childOf E.schema x name)
  have hup := hpush.upgrade (s.cur + 1) (by rw [h.cur, List.length_cons]; omega) (le_refl _)
  unfold startElement at hstart
  dsimp only at hstart
  rw [if_neg (by rw [hroot]; decide)] at hstart
  split at hstart
  · next hvalid =>
    refine startChild_stack hpush ?_ hvalid hpush.top.root hup hstart
    exact h.top.frame (Frame.refl kind _) rfl
  · cases hstart
    exact ⟨kind, hpush⟩

/-! ## Text, and the end of an element -/

theorem charData_stack (chunk : List ℕ) (h : StackOf S kind s (x :: stack)) : StackOf S kind (charData chunk s) (x :: stack) := by
  have hat : ∀ k, (charData chunk s).stack k =
      if k = s.cur then { s.top with text := charElement s.top.escaped s.top.text chunk } else s.stack k := by
    intro k
    simp only [charData, Deser.setTop, Function.update_apply]
  refine ⟨h.shaped, h.cur, ?_, ?_⟩
  · intro j o ho
    have hold := h.stands j o ho
    show Stands S kind _ ((charData chunk s).stack (s.cur - j)) o
    rw [hat]
    split
    · next hj =>
      rw [hj] at hold
      exact ⟨hold.root, hold.valid⟩
    · exact ⟨hold.root, hold.valid⟩
  · intro k hk hle
    rw [hat]
    split
    · next hkc =>
      subst hkc
      exact h.upgrade s.cur hk hle
    · exact h.upgrade k hk hle

/-- Something is written to the value of a state, or the rows of an object are put in order. -/
theorem StackOf.write (h : StackOf S kind s stack) (hs : Shaped S kind s'.store) (hf : Frame kind kind s.store s'.store)
    (hroot : s'.rootValue.content = s.rootValue.content) (hstack : s'.stack = s.stack) (hcur : s'.cur = s.cur) :
    StackOf S kind s' stack := by
  refine ⟨hs, hcur.trans h.cur, fun j o ho => ?_, fun k hk hle => ?_⟩
  · rw [hstack, hcur]
    exact (h.stands j o ho).frame hf hroot
  · rw [hstack]
    exact h.upgrade k hk (hcur ▸ hle)

theorem setValue_stack {e : DmElement} {p : Place} {v v' : DmValue} (h : StackOf S kind s stack) (hh : Holds S kind s e p)
    (hv : s.value p = some v) (hc : SameKind v.content v'.content) (hset : s.setValue p v' = some s') : StackOf S kind s' stack := by
  cases p with
  | root =>
    cases hv
    cases hset
    refine h.write h.shaped (Frame.refl kind _) ?_ rfl rfl
    rcases hc with hc | ⟨y, z, hy, -⟩
    · exact hc
    · rw [hh.2.2] at hy
      cases hy
  | «at» l =>
    obtain ⟨st, hst, rfl⟩ := Option.map_eq_some_iff.mp hset
    obtain ⟨hs, hf⟩ := setValue_shape h.shaped hh hv hc hst
    exact h.write hs hf rfl rfl rfl

theorem dmString2value_kind {D : DecodeEnv} {L : Libc} {memcmp : List ℕ → List ℕ → ℤ} {e : DmElement} {text : Option (List ℕ)}
    {b : Bool} {v v' : DmValue} {r : DmResult} (h : dmString2value D L memcmp e text b v = some (r, v')) :
    SameKind v.content v'.content := by
  unfold dmString2value at h
  cases text with
  | none =>
    cases h
    exact .inl rfl
  | some str =>
    dsimp only at h
    split at h
    · cases h
    · cases h
      exact putLeaf_kind _ _

theorem handleElement_stack {y : XmlState} {o : Option DmElement} (h : StackOf E.schema kind s stack)
    (hy : Stands E.schema kind s y o) (hv : y.valid = true) (hhandle : handleElement E y s = some s') : StackOf E.schema kind s' stack := by
  obtain ⟨e, p, -, he, hp, hh⟩ := hy.valid hv
  simp only [handleElement, he, hp, Option.bind_eq_bind, Option.bind_some, Option.bind_eq_some_iff, Prod.exists] at hhandle
  obtain ⟨v, hval, r, v', hconv, hset⟩ := hhandle
  exact setValue_stack h hh hval (dmString2value_kind hconv) hset

theorem finishRow_stack {y : XmlState} (h : StackOf S kind s stack) (hfinish : finishRow y s = some s') : StackOf S kind s' stack := by
  unfold finishRow at hfinish
  split at hfinish
  · simp only [Option.bind_eq_bind, Option.bind_eq_some_iff, Option.some.injEq] at hfinish
    obtain ⟨r, -, st, hupd, rfl⟩ := hfinish
    obtain ⟨hs, hf⟩ := updateInstanceNodeIndex_shape h.shaped hupd
    exact h.write hs hf rfl rfl rfl
  · cases hfinish
    exact h

theorem StackOf.pop (h : StackOf S kind s (x :: stack)) : StackOf S kind { s with cur := s.cur - 1 } stack := by
  have hcur := h.cur
  rw [List.length_cons] at hcur
  refine ⟨h.shaped, ?_, ?_, ?_⟩
  · show s.cur - 1 = stack.length
    omega
  · intro j o ho
    have hold := h.stands (j + 1) o ho
    show Stands S kind _ (s.stack (s.cur - 1 - j)) o
    rw [Nat.sub_sub, Nat.add_comm 1 j]
    exact hold.frame (Frame.refl kind _) rfl
  · intro k hk hle
    exact h.upgrade k hk (hle.trans (Nat.sub_le _ _))

/-- An element ends that stands in another one. -/
theorem endElement_stack (h : StackOf E.schema kind s (x :: stack)) (hne : stack ≠ []) (hend : endElement E s = some s') :
    StackOf E.schema kind s' stack := by
  have hlen : 0 < stack.length := List.length_pos_of_ne_nil hne
  have hcur := h.cur
  rw [List.length_cons] at hcur
  have hup : s.top.upgrade = false := h.upgrade s.cur (by omega) (le_refl _)
  simp only [endElement, Option.bind_eq_bind, Option.bind_eq_some_iff] at hend
  obtain ⟨s1, h1, s2, h2, hend⟩ := hend
  have hs1 : StackOf E.schema kind s1 (x :: stack) := by
    unfold finishValid at h1
    split at h1
    · next hv =>
      obtain ⟨s0, h0, h1⟩ := Option.bind_eq_some_iff.mp h1
      exact finishRow_stack (handleElement_stack h h.top hv h0) h1
    · cases h1
      exact h
  unfold finishUpgrade at h2
  rw [if_neg (by rw [hup]; decide)] at h2
  cases h2
  split at hend
  · cases hend
  · cases hend
    exact hs1.pop

/-! ## A run -/

/-- Each lookup in a part of a document with other elements around it. -/
theorem lookups_searchable {evs : List Event} (h : StackOf E.schema kind s stack) {names : List (List ℕ)}
    (hnames : stack.length = names.length + 1) {rest : List (List ℕ)} (hopen : opened names evs = some rest)
    (hleaf : noneInLeaf E.schema stack evs = true) {pre : List Event} {name : List ℕ} {atts : List (List ℕ × List ℕ)}
    (hpre : pre ++ [.start name atts] <+: evs) (hrun : run (handle E) s pre = some s') (hv : s'.top.valid = true) :
    Searchable E.schema s' := by
  induction evs generalizing kind s stack names pre with
  | nil => exact absurd (List.prefix_nil.mp hpre) (by simp)
  | cons ev evs ih =>
    obtain ⟨x, stack, rfl⟩ : ∃ x xs, stack = x :: xs := List.exists_cons_of_length_pos (by omega)
    rw [List.length_cons] at hnames
    cases pre with
    | nil =>
      obtain ⟨rfl, -⟩ := List.cons_prefix_cons.mp hpre
      cases hrun
      rw [noneInLeaf, Bool.and_eq_true] at hleaf
      exact h.searchable hleaf.1 hv
    | cons ev' pre =>
      obtain ⟨rfl, hpre'⟩ := List.cons_prefix_cons.mp hpre
      obtain ⟨s1, hstep, hrun'⟩ := Option.bind_eq_some_iff.mp hrun
      cases ev' with
      | start n a =>
        rw [noneInLeaf, Bool.and_eq_true] at hleaf
        obtain ⟨kind1, h1⟩ := startElement_stack h hstep
        exact @ih kind1 s1 _ h1 (n :: names) (by simp only [List.length_cons]; omega) hopen hleaf.2 pre hpre' hrun'
      | chars chunk =>
        cases hstep
        exact ih (charData_stack chunk h) (by rw [List.length_cons]; exact hnames) hopen hleaf hpre' hrun'
      | stop n =>
        cases names with
        | nil => cases hopen
        | cons m names =>
          rw [opened] at hopen
          split at hopen
          · rw [List.length_cons] at hnames
            have hne : stack ≠ [] := List.ne_nil_of_length_pos (by omega)
            exact ih (endElement_stack h hne hstep) (by omega) hopen hleaf hpre' hrun'
          · cases hopen

/-! ## A document -/

theorem noneInLeaf_append {evs evs' : List Event} (h : noneInLeaf S stack (evs ++ evs') = true) : noneInLeaf S stack evs = true := by
  induction evs generalizing stack with
  | nil =>
    cases stack <;> rfl
  | cons ev evs ih =>
    cases ev with
    | start name atts =>
      cases stack with
      | nil => exact @ih [some (rootElement S)] h
      | cons x stack =>
        rw [List.cons_append, noneInLeaf, Bool.and_eq_true] at h
        rw [noneInLeaf, Bool.and_eq_true]
        exact ⟨h.1, ih h.2⟩
    | chars chunk =>
      rw [List.cons_append, noneInLeaf] at h
      rw [noneInLeaf]
      exact ih h
    | stop name =>
      rw [List.cons_append, noneInLeaf] at h
      rw [noneInLeaf]
      exact ih h

theorem deserBegin_kinded {before : Option DmStore} {version : ℤ} (hbefore : ∀ st, before = some st → Kinded E.schema st)
    (h0 : deserBegin E before version = some s) : ∃ st, Kinded E.schema st ∧
      s = ⟨stateStk E.schema, 0, st, ⟨.table (some st.root), 0, Flags.zero, true⟩, version⟩ := by
  simp only [deserBegin, Option.bind_eq_bind, Option.bind_eq_some_iff, Option.some.injEq] at h0
  obtain ⟨st, hst, rfl⟩ := h0
  refine ⟨st, ?_, rfl⟩
  cases before with
  | none => exact kinded_of_wf (@init_wf False _ _ hst)
  | some st0 =>
    cases hst
    exact hbefore _ rfl

theorem startElement_root {name : List ℕ} {atts : List (List ℕ × List ℕ)} (h : s.top.root = true) :
    startElement E name atts s = startRoot E (s.push.withAttributes (readAttributes atts ⟨0, 0, false, none⟩)) := if_pos h

/-- The outer element stands for the table of the root. -/
theorem startRoot_stack {st : DmStore} {version : ℤ} {name : List ℕ} {atts : List (List ℕ × List ℕ)} (hst : Kinded E.schema st)
    (hlua : ∀ v st r, E.preVersionCheck v st = some r → Kinded E.schema st → Kinded E.schema r.2 ∧ r.2.root = st.root)
    (h : startElement E name atts ⟨stateStk E.schema, 0, st, ⟨.table (some st.root), 0, Flags.zero, true⟩, version⟩ = some s) :
    ∃ kind, StackOf E.schema kind s [some (rootElement E.schema)] := by
  have hstack : ∀ (s : Deser), s.cur = 1 → s.top.root = false → s.top.element = some (rootElement E.schema) → s.top.value = some .root →
      s.rootValue.content = .table (some s.store.root) → Kinded E.schema s.store →
      ∃ kind, StackOf E.schema kind s [some (rootElement E.schema)] := by
    rintro s hcur hroot helem hval hcont ⟨kind, hkind⟩
    refine ⟨kind, hkind, hcur, fun j o ho => ?_, fun k hk hle => by omega⟩
    cases j with
    | zero =>
      cases ho
      exact ⟨hroot, fun _ => ⟨_, .root, rfl, helem, hval, rfl, rfl, hcont⟩⟩
    | succ j => cases ho
  rw [startElement_root (by rfl), startRoot] at h
  split at h
  · obtain ⟨r, hr, rfl⟩ := Option.map_eq_some_iff.mp h
    obtain ⟨hk, hroot⟩ := hlua _ _ r hr hst
    exact hstack _ rfl rfl rfl rfl (congrArg (fun a => Content.table (some a)) hroot.symm) hk
  · cases h
    exact hstack _ rfl rfl rfl rfl rfl hst

end Run

theorem sampleStore_kinded : Kinded sampleSchema sampleStore := kinded_of_wf (@init_wf False _ _ rfl)

/-- A number, with its text. -/
def numberDoc : List Event := [.start [120] [], .start [118] [], .chars [51], .stop [118], .stop [120]]

def sampleBegin : Deser := ⟨stateStk sampleSchema, 0, sampleStore, ⟨.table (some 0), 0, Flags.zero, true⟩, 0⟩

/-- An element in a number. -/
def nestedDoc : List Event := [.start [120] [], .start [118] [], .start [120] [], .stop [120], .stop [118], .stop [120]]

end Mand.Load
