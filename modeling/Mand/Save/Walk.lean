import Mand.Server.Session

/-! # Walks through the store

`dm_walk_table_cb` with any callback, and `dm_update_flags`. Both go through the rows of an object in the
order of its first index. -/
namespace Mand.Save
open Mand.Store Mand.Index Mand.Server
set_option autoImplicit false

/-- The rows from `dm_instance_first` on, each with `dm_instance_next`. -/
def instanceRows (fuel : ℕ) : Option ObjTree → Option (List Addr)
  | none => some []
  | some o => do
    let ti ← o.tree.idx.head?
    let x ← ti.idx.first fuel
    ti.idx.walk fuel fuel x

/-! ## Flags -/

def orFlags (f g : Flags) : Flags :=
  ⟨f.notify || g.notify, f.pending || g.pending, f.updated || g.updated, f.deleted || g.deleted⟩

/-- `DV_UPDATED | DV_NOTIFY`. -/
def changed (f : Flags) : Flags := ⟨f.notify, false, f.updated, false⟩

/-- `flags |= ret`, unless `ret` is zero. -/
def addFlags (ret : Flags) (v : DmValue) : DmValue :=
  if ret = Flags.zero then v else { v with flags := orFlags v.flags ret, parity := true }

section UpdateFlags
variable (upd : ℕ → Addr → DmStore → Option (Flags × DmStore))

/-- The loop of `update_flags_object` over the rows. -/
def updateFlagsRows (e : DmElement) : List Addr → DmStore → Option (Flags × DmStore)
  | [], st => some (Flags.zero, st)
  | r :: rows, st => do
    let n ← st.node r
    match n.value.content with
    | .table (some b) => do
      let (ret, st) ← upd e.table b st
      let n ← st.node r
      let st ← st.setNode r { n with value := addFlags ret n.value }
      let (rest, st) ← updateFlagsRows e rows st
      some (orFlags (addFlags ret n.value).flags rest, st)
    | _ => none

/-- What hangs in a slot: the flags that it passes on. -/
def updateFlagsContent (e : DmElement) (c : Content) (st : DmStore) : Option (Flags × DmStore) :=
  match e.type, c with
  | .token, .table (some b) => upd e.table b st
  | .token, .table none => some (Flags.zero, st)
  | .token, _ => none
  | .object, .inst t => do
    let rows ← instanceRows st.fuel t
    updateFlagsRows upd e rows st
  | .object, _ => none
  | _, _ => some (Flags.zero, st)

/-- `update_flags_element`. -/
def updateFlagsElement (e : DmElement) (a : Addr) (i : ℕ) (st : DmStore) : Option (Flags × DmStore) := do
  let v ← st.slot a i
  let (inner, st) ← updateFlagsContent upd e v.content st
  let ret := orFlags (changed v.flags) inner
  let v ← st.slot a i
  let st ← st.setSlot a i (addFlags ret v)
  some (ret, st)

/-- The loop of `update_flags_table` over the elements from number `i` on. -/
def updateFlagsElements (a : Addr) : List DmElement → ℕ → DmStore → Option (Flags × DmStore)
  | [], _, st => some (Flags.zero, st)
  | e :: rest, i, st => do
    let (ret, st) ← updateFlagsElement upd e a i st
    let (rets, st) ← updateFlagsElements a rest (i + 1) st
    some (orFlags ret rets, st)

end UpdateFlags

/-- `update_flags_table`; the number of a table bounds the depth below it. -/
def updateFlagsTable (S : Schema) : ℕ → ℕ → Addr → DmStore → Option (Flags × DmStore)
  | 0, _, _, _ => none
  | n + 1, kw, a, st => updateFlagsElements (updateFlagsTable S n) a (S.table kw).elems 0 st

/-- `dm_update_flags`. -/
def updateFlags (S : Schema) (st : DmStore) : Option DmStore := do
  let (_, st) ← updateFlagsTable S (S.root + 1) S.root st.root st
  some st

/-! ## Callbacks -/

/-- `CB_type`. -/
inductive CbType
  | element
  | tableStart
  | tableEnd
  | objectStart
  | objectEnd
  | objectInstanceStart
  | objectInstanceEnd
  deriving DecidableEq, Repr

/-- `walk_cb`, with the data of the user as a state. -/
abbrev WalkCb (σ : Type) := CbType → ℕ → DmElement → DmValue → σ → Bool × σ

section Walk
variable {σ : Type} (env : Env) (cb : WalkCb σ) (st : DmStore)
variable (walk : ℤ → ℕ → Addr → σ → Option σ)

/-- Go on with a table unless the level is used up. -/
def descend (level : ℤ) (kw : ℕ) (b : Addr) (s : σ) : Option σ :=
  if level = 0 then some s else walk level kw b s

/-- The loop of `dm_walk_object_cb` over the rows. -/
def walkRows (level : ℤ) (e : DmElement) : List Addr → σ → Option σ
  | [], s => some s
  | r :: rows, s => do
    let n ← st.node r
    match cb .objectInstanceStart n.inst e n.value s with
    | (false, s) => walkRows level e rows s
    | (true, s) =>
      match n.value.content with
      | .table (some b) => do
        let s ← descend walk (level - 2) e.table b s
        walkRows level e rows (cb .objectInstanceEnd n.inst e n.value s).2
      | _ => none

/-- `dm_walk_object_cb`. -/
def walkObject (level : ℤ) (id : ℕ) (e : DmElement) (v : DmValue) (t : Option ObjTree) (s : σ) :
    Option σ :=
  match cb .objectStart id e v s with
  | (false, s) => some s
  | (true, s) => do
    let rows ← if level - 1 = 0 then some [] else instanceRows st.fuel t
    let s ← walkRows cb st walk level e rows s
    some (cb .objectEnd id e v s).2

/-- What `dm_walk_element_cb` does with the value of an element. -/
def walkValue (level : ℤ) (id : ℕ) (e : DmElement) (v : DmValue) (s : σ) : Option σ :=
  match e.type, v.content with
  | .token, .table (some b) =>
    match cb .tableStart id e v s with
    | (false, s) => some s
    | (true, s) => do
      let s ← descend walk (level - 1) e.table b s
      some (cb .tableEnd id e v s).2
  | .token, .table none => some s
  | .token, _ => none
  | .object, .inst t => walkObject cb st walk level id e v t s
  | .object, _ => none
  | _, _ => some (cb .element id e v s).2

/-- `dm_walk_instance_cb`. -/
def walkInstance (level : ℤ) (id : ℕ) (e : DmElement) (v : DmValue) (s : σ) : Option σ :=
  match cb .objectInstanceStart id e v s with
  | (false, s) => some s
  | (true, s) =>
    match v.content with
    | .table (some b) => do
      let s ← descend walk (level - 1) e.table b s
      some (cb .objectInstanceEnd id e v s).2
    | _ => none

/-- What `dm_walk_by_selector_cb` does with the element that it finds. -/
def walkRef (level : ℤ) (ref : Ref) (s : σ) : Option σ :=
  if ref.elem.type = .object then do
    let v ← st.value ref.value
    if ref.stType = .inst then walkInstance cb walk level ref.id ref.elem v s
    else match v.content with
      | .inst t => walkObject cb st walk level ref.id ref.elem v t s
      | _ => none
  else do
    let v ← elementValue env st ref
    walkValue cb st walk level ref.id ref.elem v s

/-- The loop of `dm_walk_table_cb` over the elements from number `i` on. -/
def walkElements (level : ℤ) (a : Addr) : List DmElement → ℕ → σ → Option σ
  | [], _, s => some s
  | e :: rest, i, s => do
    let v ← elementValue env st ⟨i + 1, e, .none, .table a, .slot a i⟩
    let s ← walkValue cb st walk level (i + 1) e v s
    walkElements level a rest (i + 1) s

end Walk

/-- `dm_walk_table_cb`; the number of a table bounds the depth below it. -/
def walkTable {σ : Type} (env : Env) (cb : WalkCb σ) (st : DmStore) :
    ℕ → ℤ → ℕ → Addr → σ → Option σ
  | 0, _, _, _, _ => none
  | n + 1, level, kw, a, s =>
    walkElements env cb st (walkTable env cb st n) level a (env.schema.table kw).elems 0 s

/-- `dm_walk_by_selector_cb`. Nothing is reported for a selector that leads nowhere. -/
def walkBySelector {σ : Type} (env : Env) (cb : WalkCb σ) (st : DmStore) (sel : Selector) (level : ℤ) (s : σ) :
    Option σ := do
  match ← st.getElementRef env.schema sel with
  | none => some s
  | some ref => walkRef env cb st (walkTable env cb st (env.schema.root + 1)) level ref s

end Mand.Save
