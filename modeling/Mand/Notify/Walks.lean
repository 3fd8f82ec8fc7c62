import Mand.Notify.Levels
import Mand.Save.Within
import Mand.Store.MapAt

/-! # What the walks reach

The values below a table, and that a walk rewrites them and nothing else. -/
namespace Mand.Notify
open Mand.Store Mand.Index Mand.Msg Mand.Server Mand.Save
set_option autoImplicit false

variable {full : Prop} {S : Schema} {st0 st : DmStore}

/-! ## Levels -/

theorem levelOf_lt (n i : ℕ) : levelOf n i < 4 := Nat.mod_lt _ (by decide)

theorem setLevel_eq (n slot level : ℕ) :
    setLevel n slot level = n % 4 ^ slot + 4 ^ slot * (level % 4 + 4 * (n / 4 ^ (slot + 1))) := by
  unfold setLevel
  rw [pow_succ]
  ring

theorem setLevel_mod (n slot level : ℕ) : setLevel n slot level % 4 ^ slot = n % 4 ^ slot := by
  rw [setLevel_eq, Nat.add_mul_mod_self_left, Nat.mod_mod]

theorem setLevel_div (n slot level : ℕ) :
    setLevel n slot level / 4 ^ slot = level % 4 + 4 * (n / 4 ^ (slot + 1)) := by
  have hlow : n % 4 ^ slot < 4 ^ slot := Nat.mod_lt _ (by positivity)
  rw [setLevel_eq, Nat.add_mul_div_left _ _ (by positivity), Nat.div_eq_of_lt hlow, Nat.zero_add]

theorem setLevel_div_succ (n slot level : ℕ) : setLevel n slot level / 4 ^ (slot + 1) = n / 4 ^ (slot + 1) := by
  have hlevel : level % 4 < 4 := Nat.mod_lt _ (by decide)
  rw [pow_succ, ← Nat.div_div_eq_div_mul, setLevel_div, pow_succ, Nat.add_mul_div_left _ _ (by decide),
    Nat.div_eq_of_lt hlevel, Nat.zero_add]

/-- The other levels stay. -/
theorem levelOf_setLevel (n slot level i : ℕ) :
    levelOf (setLevel n slot level) i = if i = slot then level % 4 else levelOf n i := by
  unfold levelOf
  by_cases hi : i = slot
  · rw [if_pos hi, hi, setLevel_div]
    omega
  rw [if_neg hi]
  by_cases hlt : i < slot
  · have hmod : ∀ m : ℕ, m / 4 ^ i % 4 = m % 4 ^ slot / 4 ^ i % 4 := by
      intro m
      have hsplit : (4 : ℕ) ^ slot = 4 ^ i * 4 * 4 ^ (slot - i - 1) := by
        rw [← pow_succ, ← pow_add]
        congr 1
        omega
      rw [hsplit, mul_assoc, Nat.mod_mul_right_div_self, Nat.mod_mul_right_mod]
    rw [hmod, hmod n, setLevel_mod]
  · have hdiv : ∀ m : ℕ, m / 4 ^ i = m / 4 ^ (slot + 1) / 4 ^ (i - slot - 1) := by
      intro m
      rw [Nat.div_div_eq_div_mul, ← pow_add]
      congr 2
      omega
    rw [hdiv, hdiv n, setLevel_div_succ]

theorem setLevel_self (n slot level : ℕ) : setLevel (setLevel n slot level) slot level = setLevel n slot level := by
  rw [setLevel_eq (setLevel n slot level), setLevel_mod, setLevel_div_succ, ← setLevel_eq]

/-- A level is set, and the parity is made right. -/
def withLevel (slot level : ℕ) (v : DmValue) : DmValue :=
  { v with notify := setLevel v.notify slot level, parity := true }

theorem withLevel_relabels (slot level : ℕ) : Relabels (withLevel slot level) := ⟨fun _ => rfl, fun _ => rfl⟩

theorem withLevel_idem (slot level : ℕ) (v : DmValue) :
    withLevel slot level (withLevel slot level v) = withLevel slot level v := by
  unfold withLevel
  simp only [setLevel_self]

theorem resetNotify_eq (slot : ℕ) : resetNotify slot = withLevel slot 0 := rfl

/-- The slots of the clients take every level. -/
theorem setNotifySingleSlotElement_eq {slot : ℕ} (hslot : slot ≠ 0) (e : DmElement) (level : ℕ) (v : DmValue) :
    setNotifySingleSlotElement e slot level v = (.ok, withLevel slot level v) := by
  unfold setNotifySingleSlotElement
  rw [if_neg hslot]
  rfl

/-! ## The values below a table -/

/-- The value at `l` hangs below table `a` of number `kw`: in one of its slots, below a token, in the node of a
row, or below a row. -/
inductive Under (S : Schema) (st : DmStore) : ℕ → Addr → Loc → Prop
  | slot (kw a i : ℕ) (e : DmElement) (v : DmValue) (he : (S.table kw).elems[i]? = some e)
    (hv : st.slot a i = some v) : Under S st kw a (.slot a i)
  | token (kw a i : ℕ) (e : DmElement) (v : DmValue) (b : Addr) (l : Loc) (he : (S.table kw).elems[i]? = some e)
    (hv : st.slot a i = some v) (htype : e.type = .token) (hb : v.content = .table (some b))
    (h : Under S st e.table b l) : Under S st kw a l
  | row (kw a i : ℕ) (e : DmElement) (v : DmValue) (t : Option ObjTree) (rows : List Addr) (r : Addr)
    (he : (S.table kw).elems[i]? = some e) (hv : st.slot a i = some v) (htype : e.type = .object)
    (ho : v.content = .inst t) (hrows : instanceRows st.fuel t = some rows) (hr : r ∈ rows) :
    Under S st kw a (.row r)
  | inRow (kw a i : ℕ) (e : DmElement) (v : DmValue) (t : Option ObjTree) (rows : List Addr) (r : Addr)
    (n : RowNode) (b : Addr) (l : Loc) (he : (S.table kw).elems[i]? = some e) (hv : st.slot a i = some v)
    (htype : e.type = .object) (ho : v.content = .inst t) (hrows : instanceRows st.fuel t = some rows) (hr : r ∈ rows)
    (hn : st.node r = some n) (hb : n.value.content = .table (some b)) (h : Under S st e.table b l) :
    Under S st kw a l

def below (S : Schema) (st : DmStore) (kw : ℕ) (a : Addr) : Set Loc := {l | Under S st kw a l}

/-- A row: its node, and what is below it. -/
def belowRow (S : Schema) (st : DmStore) (kw : ℕ) (r : Addr) : Set Loc :=
  {l | l = .row r ∨ ∃ n b, st.node r = some n ∧ n.value.content = .table (some b) ∧ Under S st kw b l}

def belowRows (S : Schema) (st : DmStore) (kw : ℕ) (rows : List Addr) : Set Loc :=
  {l | ∃ r ∈ rows, l ∈ belowRow S st kw r}

/-- What hangs in a slot with these contents. -/
def belowContent (S : Schema) (st : DmStore) (e : DmElement) (c : Content) : Set Loc :=
  {l | (e.type = .token ∧ ∃ b, c = .table (some b) ∧ l ∈ below S st e.table b) ∨
    (e.type = .object ∧ ∃ t rows, c = .inst t ∧ instanceRows st.fuel t = some rows ∧ l ∈ belowRows S st e.table rows)}

/-- The slots from number `i` on, and what hangs in them. -/
def belowFrom (S : Schema) (st : DmStore) (kw a i : ℕ) : Set Loc :=
  {l | ∃ j e v, i ≤ j ∧ (S.table kw).elems[j]? = some e ∧ st.slot a j = some v ∧
    (l = .slot a j ∨ l ∈ belowContent S st e v.content)}

theorem below_eq (S : Schema) (st : DmStore) (kw : ℕ) (a : Addr) : below S st kw a = belowFrom S st kw a 0 := by
  ext l
  constructor
  · intro h
    cases h with
    | slot kw a i e v he hv => exact ⟨i, e, v, Nat.zero_le i, he, hv, .inl rfl⟩
    | token kw a i e v b l he hv htype hb h =>
      exact ⟨i, e, v, Nat.zero_le i, he, hv, .inr (.inl ⟨htype, b, hb, h⟩)⟩
    | row kw a i e v t rows r he hv htype ho hrows hr =>
      exact ⟨i, e, v, Nat.zero_le i, he, hv, .inr (.inr ⟨htype, t, rows, ho, hrows, r, hr, .inl rfl⟩)⟩
    | inRow kw a i e v t rows r n b l he hv htype ho hrows hr hn hb h =>
      exact ⟨i, e, v, Nat.zero_le i, he, hv, .inr (.inr ⟨htype, t, rows, ho, hrows, r, hr, .inr ⟨n, b, hn, hb, h⟩⟩)⟩
  · intro ⟨i, e, v, _, he, hv, h⟩
    rcases h with rfl | ⟨htype, b, hb, h⟩ | ⟨htype, t, rows, ho, hrows, r, hr, h⟩
    · exact .slot kw a i e v he hv
    · exact .token kw a i e v b l he hv htype hb h
    · rcases h with rfl | ⟨n, b, hn, hb, h⟩
      · exact .row kw a i e v t rows r he hv htype ho hrows hr
      · exact .inRow kw a i e v t rows r n b l he hv htype ho hrows hr hn hb h

/-- Nothing below a table moves while values are rewritten. -/
theorem Under.mapAt {P : Set Loc} {f : DmValue → DmValue} (hf : Relabels f) {kw : ℕ} {a : Addr} {l : Loc}
    (h : Under S st kw a l) : Under S (st.mapAt P f) kw a l := by
  have hslot : ∀ a i v, st.slot a i = some v → (st.mapAt P f).slot a i = some (mapIn P f (.slot a i) v) := by
    intro a i v hv
    rw [mapAt_slot, hv, Option.map_some]
  induction h with
  | slot kw a i e v he hv => exact .slot kw a i e _ he (hslot a i v hv)
  | token kw a i e v b l he hv htype hb _ ih =>
    exact .token kw a i e _ b l he (hslot a i v hv) htype (by rw [mapIn_content hf, hb]) ih
  | row kw a i e v t rows r he hv htype ho hrows hr =>
    exact .row kw a i e _ t rows r he (hslot a i v hv) htype (by rw [mapIn_content hf, ho]) hrows hr
  | inRow kw a i e v t rows r n b l he hv htype ho hrows hr hn hb _ ih =>
    refine .inRow kw a i e _ t rows r { n with value := mapIn P f (.row r) n.value } b l he (hslot a i v hv) htype
      (by rw [mapIn_content hf, ho]) hrows hr ?_ (by rw [mapIn_content hf, hb]) ih
    rw [mapAt_node, hn, Option.map_some]

def isNode : Loc → Bool
  | .slot _ _ => false
  | .row _ => true

/-- The locations that a walk rewrites: not the nodes of the rows, unless it is to. -/
def walked (rows : Bool) (U : Set Loc) : Set Loc := {l | l ∈ U ∧ (rows = true ∨ isNode l = false)}

/-! ## A walk rewrites what is below -/

section Walk
variable {rows : Bool} {on : DmElement → DmValue → DmValue} {f : DmValue → DmValue} {P : Set Loc}
  {walk : ℕ → Addr → DmStore → Option DmStore} {kw a i m : ℕ} {e : DmElement} {t : VTable}

theorem walked_union (rows : Bool) (U V : Set Loc) : walked rows (U ∪ V) = walked rows U ∪ walked rows V := by
  ext l
  simp only [walked, Set.mem_union, Set.mem_ofPred_eq, or_and_right]

theorem walked_empty (rows : Bool) : walked rows ∅ = ∅ := by
  ext l
  simp [walked]

theorem walked_slot (rows : Bool) (a i : ℕ) : walked rows {Loc.slot a i} = {Loc.slot a i} := by
  ext l
  simp only [walked, Set.mem_singleton_iff, Set.mem_ofPred_eq, and_iff_left_iff_imp]
  rintro rfl
  exact .inr rfl

/-- `walk` rewrites what is below a table of a number under `m`. -/
def WalkSpec (rows : Bool) (S : Schema) (st0 : DmStore) (f : DmValue → DmValue) (m : ℕ)
    (walk : ℕ → Addr → DmStore → Option DmStore) : Prop :=
  ∀ (kw : ℕ) (a : Addr) (t : VTable) (P : Set Loc), kw < m → st0.heap a = some t →
    S.place t.id = some (kw, false) →
      walk kw a (st0.mapAt P f) = some (st0.mapAt (P ∪ walked rows (below S st0 kw a)) f)

variable (hf : Relabels f) (hidem : ∀ v, f (f v) = f v) (hon : ∀ e, on e = f)

include hidem in
theorem modifyValue_mapAt {l : Loc} {v : DmValue} (hv : st0.value l = some v) :
    modifyValue (st0.mapAt P f) l f = some (st0.mapAt (P ∪ {l}) f) := by
  have hv' : (st0.mapAt P f).value l = some (mapIn P f l v) := by rw [mapAt_value, hv, Option.map_some]
  unfold modifyValue
  rw [hv', Option.bind_eq_bind, Option.bind_some, setValue_mapAt hv', mapAt_mapAt hidem]

include hidem hon in
theorem notifyRow_spec {r : Addr} {n : RowNode} (hn : st0.node r = some n) :
    notifyRow rows on e r (st0.mapAt P f) = some (st0.mapAt (P ∪ walked rows {Loc.row r}) f) := by
  have hv : st0.value (.row r) = some n.value := by
    show (st0.node r).map RowNode.value = _
    rw [hn, Option.map_some]
  unfold notifyRow
  by_cases hrows : rows = true
  · have hw : walked rows {Loc.row r} = {Loc.row r} := by
      ext l
      simp [walked, hrows]
    rw [if_pos hrows, hon, modifyValue_mapAt hidem hv, hw]
  · have hw : walked rows {Loc.row r} = ∅ := by
      ext l
      simp only [walked, Set.mem_singleton_iff, hrows, Set.mem_ofPred_eq, Set.mem_empty_iff_false, iff_false, not_and]
      rintro rfl
      simp [isNode]
    rw [if_neg hrows, hw, Set.union_empty]

include hf hidem hon in
/-- The loop over the rows. -/
theorem notifyRows_spec (hwalk : WalkSpec rows S st0 f m walk) (hlt : e.table < m) (rs : List Addr)
    (hrs : ∀ r ∈ rs, ∃ n tr, st0.node r = some n ∧ n.value.content = .table (some r) ∧ st0.heap r = some tr ∧
      S.place tr.id = some (e.table, false)) (P : Set Loc) :
    notifyRows rows on walk e rs (st0.mapAt P f) =
      some (st0.mapAt (P ∪ walked rows (belowRows S st0 e.table rs)) f) := by
  induction rs generalizing P with
  | nil =>
    have hnil : belowRows S st0 e.table [] = ∅ := by
      ext l
      simp [belowRows]
    rw [hnil, walked_empty, Set.union_empty]
    rfl
  | cons r rs ih =>
    obtain ⟨n, tr, hn, hc, htr, hp⟩ := hrs r List.mem_cons_self
    have hcons : belowRows S st0 e.table (r :: rs) = {Loc.row r} ∪ below S st0 e.table r ∪ belowRows S st0 e.table rs := by
      ext l
      constructor
      · intro ⟨r', hr', h⟩
        cases hr' with
        | head =>
          refine .inl ?_
          rcases h with rfl | ⟨n', b, hn', hb, h⟩
          · exact .inl rfl
          · rw [hn] at hn'
            cases hn'
            rw [hc] at hb
            cases hb
            exact .inr h
        | tail _ hr' => exact .inr ⟨r', hr', h⟩
      · rintro ((rfl | h) | ⟨r', hr', h⟩)
        · exact ⟨r, List.mem_cons_self, .inl rfl⟩
        · exact ⟨r, List.mem_cons_self, .inr ⟨n, r, hn, hc, h⟩⟩
        · exact ⟨r', List.mem_cons_of_mem r hr', h⟩
    have hnode : (st0.mapAt (P ∪ walked rows {Loc.row r}) f).node r =
        some { n with value := mapIn (P ∪ walked rows {Loc.row r}) f (.row r) n.value } := by
      rw [mapAt_node, hn, Option.map_some]
    unfold notifyRows
    simp only [notifyRow_spec hidem hon hn, hnode, Option.bind_eq_bind, Option.bind_some, mapIn_content hf, hc,
      hwalk e.table r tr _ hlt htr hp, ih (fun r' hr' => hrs r' (List.mem_cons_of_mem r hr'))]
    rw [hcons, walked_union, walked_union, Set.union_assoc, Set.union_assoc, Set.union_assoc]

include hf hidem hon in
theorem notifyContent_spec (hwalk : WalkSpec rows S st0 f m walk) (hw : HeapWf full nowhere S st0)
    (hpar : Intact st0) (hkw : kw < m + 1) (ht : st0.heap a = some t) (hp : S.place t.id = some (kw, false))
    (he : (S.table kw).elems[i]? = some e) {v : DmValue} (hv : st0.slot a i = some v) (P : Set Loc) :
    notifyContent rows on walk e v.content (st0.mapAt P f) =
      some (st0.mapAt (P ∪ walked rows (belowContent S st0 e v.content)) f) := by
  obtain ⟨v', hv', hfit⟩ := HeapWf.slotAt hw ht hp he
  rw [hv] at hv'
  cases hv'
  have hchild : e.container = true → e.table < m := by
    intro hcon
    have := S.child_lt kw e (List.mem_of_getElem? he) hcon
    omega
  cases hc : v.content with
  | scalar x =>
    rw [hc] at hfit
    have hleaf : e.container = false := hfit
    have hnone : belowContent S st0 e (.scalar x) = ∅ := by
      ext l
      simp [belowContent]
    rw [hnone, walked_empty, Set.union_empty]
    unfold notifyContent
    split <;> simp_all [DmElement.container]
  | table x =>
    rw [hc] at hfit
    have htok : e.type = .token := hfit
    cases x with
    | none =>
      have hnone : belowContent S st0 e (.table none) = ∅ := by
        ext l
        simp [belowContent]
      rw [hnone, walked_empty, Set.union_empty]
      simp only [notifyContent, htok]
    | some b =>
      obtain ⟨tb, htb, hpb⟩ := HeapWf.tokenAt hw hpar ht hp he htok hv hc
      have hsame : belowContent S st0 e (.table (some b)) = below S st0 e.table b := by
        ext l
        simp [belowContent, htok]
      rw [hsame]
      simp only [notifyContent, htok]
      exact hwalk e.table b tb P (hchild (by simp [DmElement.container, htok])) htb hpb
  | inst x =>
    rw [hc] at hfit
    have hobj : e.type = .object := hfit.1
    obtain ⟨o, rfl⟩ := Option.isSome_iff_exists.mp hfit.2
    obtain ⟨rs, hat⟩ := HeapWf.rowsAt hw ht hp he hobj hv hc
    have hsame : belowContent S st0 e (.inst (some o)) = belowRows S st0 e.table rs := by
      ext l
      simp [belowContent, hobj, hat.enumerated]
    rw [hsame]
    simp only [notifyContent, hobj, mapAt_fuel, hat.enumerated, Option.bind_eq_bind, Option.bind_some]
    exact notifyRows_spec hf hidem hon hwalk (hchild (by simp [DmElement.container, hobj])) rs hat.row P

include hf hidem hon in
theorem notifyElement_spec (hwalk : WalkSpec rows S st0 f m walk) (hw : HeapWf full nowhere S st0)
    (hpar : Intact st0) (hkw : kw < m + 1) (ht : st0.heap a = some t) (hp : S.place t.id = some (kw, false))
    (he : (S.table kw).elems[i]? = some e) {v : DmValue} (hv : st0.slot a i = some v) (P : Set Loc) :
    notifyElement rows on walk e a i (st0.mapAt P f) =
      some (st0.mapAt (P ∪ walked rows (belowContent S st0 e v.content ∪ {Loc.slot a i})) f) := by
  have hv' : (st0.mapAt P f).slot a i = some (mapIn P f (.slot a i) v) := by
    rw [mapAt_slot, hv, Option.map_some]
  unfold notifyElement
  simp only [hv', Option.bind_eq_bind, Option.bind_some, mapIn_content hf,
    notifyContent_spec hf hidem hon hwalk hw hpar hkw ht hp he hv P, hon]
  have hvalue : st0.value (.slot a i) = some v := hv
  rw [modifyValue_mapAt hidem hvalue, walked_union, walked_slot, Set.union_assoc]

include hf hidem hon in
/-- The loop over the elements from number `i` on. -/
theorem notifyElements_spec (hwalk : WalkSpec rows S st0 f m walk) (hw : HeapWf full nowhere S st0)
    (hpar : Intact st0) (hkw : kw < m + 1) (ht : st0.heap a = some t) (hp : S.place t.id = some (kw, false))
    (es : List DmElement) (i : ℕ) (hes : (S.table kw).elems.drop i = es) (P : Set Loc) :
    notifyElements rows on walk a es i (st0.mapAt P f) =
      some (st0.mapAt (P ∪ walked rows (belowFrom S st0 kw a i)) f) := by
  induction es generalizing i P with
  | nil =>
    have hnone : belowFrom S st0 kw a i = ∅ := by
      ext l
      simp only [Set.mem_empty_iff_false, iff_false]
      rintro ⟨j, e, v, hij, he, -⟩
      have hlen : (S.table kw).elems.length ≤ i := List.drop_eq_nil_iff.mp hes
      have hj := (List.getElem?_eq_some_iff.mp he).1
      omega
    rw [hnone, walked_empty, Set.union_empty]
    rfl
  | cons e es ih =>
    have he : (S.table kw).elems[i]? = some e := by
      rw [← List.head?_drop, hes]
      rfl
    have hrest : (S.table kw).elems.drop (i + 1) = es := by
      rw [← List.tail_drop, hes]
      rfl
    obtain ⟨v, hv, -⟩ := HeapWf.slotAt hw ht hp he
    have hstep : belowFrom S st0 kw a i =
        belowContent S st0 e v.content ∪ {Loc.slot a i} ∪ belowFrom S st0 kw a (i + 1) := by
      ext l
      constructor
      · intro ⟨j, e', v', hij, he', hv', h⟩
        by_cases hj : j = i
        · rw [hj, he] at he'
          cases he'
          rw [hj, hv] at hv'
          cases hv'
          rw [hj] at h
          exact .inl h.symm
        · exact .inr ⟨j, e', v', by omega, he', hv', h⟩
      · rintro (h | ⟨j, e', v', hij, h⟩)
        · exact ⟨i, e, v, le_refl i, he, hv, h.symm⟩
        · exact ⟨j, e', v', by omega, h⟩
    unfold notifyElements
    rw [notifyElement_spec hf hidem hon hwalk hw hpar hkw ht hp he hv P, Option.bind_eq_bind, Option.bind_some,
      ih (i + 1) hrest, hstep, walked_union rows _ (belowFrom S st0 kw a (i + 1)), Set.union_assoc]

variable (rows) in
include hf hidem hon in
/-- A walk through a table. -/
theorem notifyTable_spec (hw : HeapWf full nowhere S st0) (hpar : Intact st0) (n : ℕ) :
    WalkSpec rows S st0 f n (notifyTable rows on S n) := by
  induction n with
  | zero =>
    intro kw a t P hlt
    omega
  | succ n ih =>
    intro kw a t P hlt ht hp
    unfold notifyTable
    rw [notifyElements_spec hf hidem hon ih hw hpar hlt ht hp (S.table kw).elems 0 rfl P, below_eq]

end Walk

end Mand.Notify
