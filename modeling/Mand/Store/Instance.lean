import Mand.Store.Heap

/-! # Tables and rows come and go

Allocation of tables, `dm_add_instance` and the deletions of `dm_store.c`. Allocations succeed. -/
namespace Mand.Store
open Mand.Index
set_option autoImplicit false

/-! ## Allocation -/

/-- A value of the type after `memset`. -/
def zeroValue : DmType → Value
  | .uint => .uint 0
  | .counter => .uint 0
  | .bool => .bool 0
  | .str => .str none
  | .binary => .binary none
  | .base64 => .binary none
  | .date => .date 0
  | .enum => .enum 0
  | .selector => .selector none
  | .ipaddr4 => .ip4 [0, 0, 0, 0]
  | .ipaddr6 => .ip6 (List.replicate 16 0)
  | .int64 => .int64 0
  | .uint64 => .uint64 0
  | .ticks => .ticks 0
  | _ => .int 0

/-- `notify_default`. -/
def notifyDefault (e : DmElement) : ℕ := if e.flags.acsNotify = true then 2 else 0

/-- `map_size` words of 32 bits. -/
def mapBits (max : ℕ) : ℕ := (max + 31) / 32 * 32

/-- `dm_alloc_instance`. -/
def allocInstance (S : Schema) (e : DmElement) (cntr : Option (Addr × ℕ)) : ObjTree where
  tree := InstTree.alloc (S.table e.table).index
  cntr := cntr
  idMap :=
    if e.flags.mapId = true ∧ 0 < e.max then some (List.replicate (mapBits e.max) false) else none

/-- The last counter of a table that follows the object with this id. -/
def counterOf (elems : List DmElement) (id : ℕ) : Option ℕ :=
  (List.range elems.length).reverse.find? fun i =>
    match elems[i]? with
    | some e => e.type = .counter ∧ e.counterRef = id ∧ id ≠ 0
    | none => false

/-- What `dm_init_table` puts into slot `i`; `alloc` makes the table of a token. -/
def initContent (S : Schema) (alloc : ℕ → Selector → DmStore → Option (Addr × DmStore))
    (elems : List DmElement) (a : Addr) (id : Selector) (e : DmElement) (i : ℕ) (st : DmStore) :
    Option (Content × DmStore) :=
  match e.type with
  | .token => do
    let (b, st) ← alloc e.table (id ++ [i + 1]) st
    some (.table (some b), st)
  | .object =>
    let cntr := (counterOf elems (i + 1)).map fun c => (a, c + 1)
    some (.inst (some (allocInstance S e cntr)), st)
  | type => some (.scalar (zeroValue type), st)

/-- The loop of `dm_init_table` over the elements from number `i` on. -/
def initValues (S : Schema) (alloc : ℕ → Selector → DmStore → Option (Addr × DmStore))
    (elems : List DmElement) (a : Addr) (id : Selector) :
    List DmElement → ℕ → DmStore → Option (List DmValue × DmStore)
  | [], _, st => some ([], st)
  | e :: rest, i, st => do
    let (c, st) ← initContent S alloc elems a id e i st
    let (vs, st) ← initValues S alloc elems a id rest (i + 1) st
    some (⟨c, notifyDefault e, Flags.zero, true⟩ :: vs, st)

/-- `dm_alloc_table`; the number of a table bounds the depth below it. -/
def allocTable (S : Schema) : ℕ → ℕ → Selector → DmStore → Option (Addr × DmStore)
  | 0, _, _, _ => none
  | n + 1, kw, id, st => do
    let a := st.next
    let elems := (S.table kw).elems
    let (vs, st) ← initValues S (allocTable S n) elems a id elems 0 { st with next := a + 1 }
    some (a, st.put a ⟨id, vs, none⟩)

/-- `dm_alloc_instance_node`. -/
def allocInstanceNode (S : Schema) (kw : ℕ) (base : Selector) (inst : ℕ) (st : DmStore) :
    Option (Addr × DmStore) := do
  let (a, st) ← allocTable S (kw + 1) kw (dmSelcat base inst) st
  let st ← st.setNode a ⟨⟨.table (some a), 0, Flags.zero, true⟩, inst, 0, none⟩
  some (a, st)

/-- The store of a schema before any request. -/
def DmStore.init (S : Schema) : Option DmStore := do
  let (a, st) ← allocTable S (S.root + 1) S.root [] ⟨fun _ => none, 0, 0⟩
  some { st with root := a }

/-! ## Rows -/

/-- `dm_incr_counter_by_id` and `dm_decr_counter_by_id`: add `d` modulo `2 ^ 32`. -/
def addCounter (st : DmStore) (cntr : Option (Addr × ℕ)) (d : ℕ) : Option DmStore :=
  match cntr with
  | none => some st
  | some (a, id) => do
    let v ← st.slot a (id - 1)
    v.parityAssert
    match v.content with
    | .scalar (.uint n) => st.setSlot a (id - 1) { v with content := .scalar (.uint ((n + d) % 2 ^ 32)) }
    | _ => none

/-- Change the tree in a slot. -/
def setTree (st : DmStore) (a : Addr) (i : ℕ) (t : ObjTree) : Option DmStore := do
  let v ← st.slot a i
  st.setSlot a i { v with content := .inst (some t) }

/-- `insert_instance`: put row `r` into the tree of a slot. -/
def insertInstance (st : DmStore) (a : Addr) (i : ℕ) (r : Addr) : Option DmStore := do
  let t ← (← st.tree a i)
  let tree ← t.tree.insert st.fuel st.row r
  let n ← st.node r
  -- `map_ffz` finds the first bit that is not set
  let free := t.idMap.bind fun m => m.findIdx? (fun b => b = false)
  let idm := (free.map (· + 1)).getD n.idm
  let idMap := t.idMap.map fun m => (free.map fun f => m.set f true).getD m
  let st ← st.setNode r { n with root := some (a, i), idm := idm }
  let st ← setTree st a i { t with tree := tree, idMap := idMap }
  addCounter st t.cntr 1

/-- The bit of a row in the map is cleared; `dm_assert` looks at the word of the next one. -/
def clearIdm (idMap : Option (List Bool)) (idm : ℕ) : Option (Option (List Bool)) :=
  match idMap with
  | some m =>
    if idm = 0 then some (some m)
    else if idm / 32 < m.length / 32 then some (some (m.set (idm - 1) false))
    else none
  | none => some none

/-- `remove_instance`. -/
def removeInstance (st : DmStore) (a : Addr) (i : ℕ) (r : Addr) : Option DmStore := do
  let t ← (← st.tree a i)
  let tree ← t.tree.remove st.fuel r
  let n ← st.node r
  let idMap ← clearIdm t.idMap n.idm
  let st ← st.setNode r { n with root := none }
  let st ← setTree st a i { t with tree := tree, idMap := idMap }
  addCounter st t.cntr (2 ^ 32 - 1)

def dmIdMask : ℕ := 0x3FFF

/-- The loop of `dm_add_instance` that looks for an unused id. -/
def freeIdLoop (st : DmStore) (ix : Idx Addr) : ℕ → ℕ → Option Addr → Option ℕ
  | _, id, none => some id
  | 0, _, some _ => none
  | n + 1, id, some elem => do
    let id := (id + 1) % 2 ^ 16
    match ← ix.idxNext st.fuel elem with
    | none => some id
    | some elem => if id < (st.row elem).inst then some id else freeIdLoop st ix n id (some elem)

/-- The id that a new row gets. -/
def newId (st : DmStore) (t : ObjTree) (id : ℕ) : Option ℕ :=
  if id &&& dmIdMask = 0 then do
    let id := (id + 1) % 2 ^ 16
    let ti ← t.tree.idx.head?
    let elem ← st.instanceNode (some t) id
    freeIdLoop st ti.idx st.fuel id elem
  else some id

/-- A slot without a tree gets one. -/
def ensureTree (S : Schema) (st : DmStore) (e : DmElement) (a : Addr) (i : ℕ) : Option DmStore := do
  match ← st.tree a i with
  | none => setTree st a i (allocInstance S e none)
  | some _ => some st

/-- `dm_add_instance` in the slot of element `e`; `none` inside is the null pointer. The new row goes
with the store. -/
def addInstance (S : Schema) (st : DmStore) (e : DmElement) (a : Addr) (i : ℕ) (basesel : Selector)
    (id : ℕ) : Option (Option Addr × DmStore) :=
  if e.type ≠ .object then some (none, st)
  else do
    match ← st.getElementRef S basesel with
    | none => some (none, st)
    | some _ =>
      let st ← ensureTree S st e a i
      let t ← (← st.tree a i)
      if e.max ≤ t.tree.cnt then some (none, st)
      else
        let id ← newId st t id
        let (r, st) ← allocInstanceNode S e.table basesel id st
        let st ← insertInstance st a i r
        some (some r, st)

def markUpdated (v : DmValue) : DmValue := { v with flags := { v.flags with updated := true }, parity := true }

/-- `dm_add_instance_by_selector`: the new row. -/
def addInstanceBySelector (S : Schema) (st : DmStore) (sel : Selector) (id : ℕ) :
    Option (Option Addr × DmStore) := do
  match ← st.getElementRef S sel with
  | none => some (none, st)
  | some ref =>
    if ref.stType ≠ .object then some (none, st)
    else match ref.value with
      | .slot a i => do
        let (r, st) ← addInstance S st ref.elem a i sel id
        match r with
        | none => some (none, st)
        | some r =>
          let n ← st.node r
          let st ← st.setNode r { n with value := markUpdated n.value }
          let v ← st.slot a i
          let st ← st.setSlot a i (markUpdated v)
          some (some r, st)
      | .row _ => none

/-! ## Deletion -/

section Delete
variable (S : Schema)

/-- `dm_del_instance`; `del` empties the table of the row. -/
def delInstance (del : ℕ → Addr → DmStore → Option DmStore) (e : DmElement) (a : Addr) (i : ℕ)
    (r : Addr) (st : DmStore) : Option DmStore := do
  let n ← st.node r
  n.value.parityAssert
  let st ← removeInstance st a i r
  let n ← st.node r
  let st ← st.setNode r
    { n with value := { n.value with flags := { n.value.flags with deleted := true }, parity := true } }
  let st ← del e.table r st
  some (st.free r)

/-- `dm_instance_root`. -/
def instanceRoot (st : DmStore) (a : Addr) (i : ℕ) : Option (Option Addr) := do
  match ← st.tree a i with
  | none => some none
  | some t =>
    let ti ← t.tree.idx.head?
    some ti.idx.root

/-- `dm_del_object`. -/
def delObject (del : ℕ → Addr → DmStore → Option DmStore) (e : DmElement) (a : Addr) (i : ℕ) :
    ℕ → DmStore → Option DmStore
  | 0, _ => none
  | n + 1, st => do
    match ← instanceRoot st a i with
    | none => some st
    | some r =>
      let st ← delInstance del e a i r st
      delObject del e a i n st

/-- The leaf of an element after its memory was given back. -/
def freeValue (type : DmType) (c : Content) : Content :=
  match type with
  | .str => .scalar (.str none)
  | .binary => .scalar (.binary none)
  | .base64 => .scalar (.binary none)
  | .selector => .scalar (.selector none)
  | _ => c

/-- What hangs in slot `i`, with contents `c`, is given back. -/
def delContent (del : ℕ → Addr → DmStore → Option DmStore) (e : DmElement) (a : Addr) (i : ℕ)
    (c : Content) (st : DmStore) : Option DmStore :=
  match e.type, c with
  | .token, .table (some b) => do
    let st ← del e.table b st
    some (st.free b)
  | .token, .table none => some st
  | .token, _ => none
  | .object, .inst (some _) => delObject del e a i st.fuel st
  | .object, _ => none
  | _, _ => some st

/-- `dm_del_element` for slot `i` of a table. Afterwards the parity of the value is wrong. -/
def delElement (del : ℕ → Addr → DmStore → Option DmStore) (e : DmElement) (a : Addr) (i : ℕ)
    (st : DmStore) : Option DmStore := do
  let v ← st.slot a i
  v.parityAssert
  let st ← delContent del e a i v.content st
  let v ← st.slot a i
  st.setSlot a i { v with content := freeValue e.type v.content, parity := false }

/-- The loop of `dm_del_table` over the elements `i - 1, …, 0`. -/
def delElements (del : ℕ → Addr → DmStore → Option DmStore) (elems : List DmElement) (a : Addr) :
    ℕ → DmStore → Option DmStore
  | 0, st => some st
  | i + 1, st => do
    let e ← elems[i]?
    let st ← delElement del e a i st
    delElements del elems a i st

/-- `dm_del_table`; the number of a table bounds the depth below it. -/
def delTable : ℕ → ℕ → Addr → DmStore → Option DmStore
  | 0, _, _, _ => none
  | n + 1, kw, a, st =>
    delElements (delTable n) (S.table kw).elems a (S.table kw).elems.length st

/-- Delete what a selector refers to. -/
def delRef (ref : Ref) (st : DmStore) : Option DmStore :=
  let del := delTable S (ref.elem.table + 1)
  match ref.stType, ref.base, ref.value with
  | .inst, .object a i, .row r => delInstance del ref.elem a i r st
  -- a leaf of a row has this type too: its value is no row
  | .inst, _, _ => none
  | .object, _, .slot a i => delObject del ref.elem a i st.fuel st
  | .object, _, .row _ => none
  | _, _, .slot a i => delElement del ref.elem a i st
  | _, _, .row _ => none

/-- `dm_del_table_by_selector`: whether there was something to delete. -/
def delTableBySelector (st : DmStore) (sel : Selector) : Option (Bool × DmStore) := do
  match ← st.getElementRef S sel with
  | none => some (false, st)
  | some ref =>
    let st ← delRef S ref st
    some (true, st)

end Delete

end Mand.Store
