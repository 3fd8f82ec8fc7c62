import Mand.Store.Number
import Mand.Store.Delete
import Mand.Lib.Run

/-! # Small ids

The rows of an object with `F_MAP_ID` also have an `idm`, one more than the bit that `insert_instance` found free in
`id_map`. Rows come and go; the map follows, as long as the numbers of the rows differ and the last bit of the last
word is not needed. -/
namespace Mand.Store
open Mand.Index
set_option autoImplicit false

/-! ## Back to the number -/

/-- The loop of `dm_idm2id`. -/
def idm2idLoop (st : DmStore) (ix : Idx Addr) (idm : ℕ) : ℕ → Option Addr → Option ℕ
  | _, none => some dmErr
  | 0, some _ => none
  | k + 1, some r => do
    let n ← st.node r
    if n.idm = idm then some n.inst
    else (ix.idxNext st.fuel r).bind (idm2idLoop st ix idm k)

/-- `dm_idm2id`. -/
def dmIdm2id (st : DmStore) (a i idm : ℕ) : Option ℕ :=
  if idm = 0 then some dmErr
  else do
    match ← st.tree a i with
    | none => some dmErr
    | some t =>
      let ti ← t.tree.idx.head?
      let r ← ti.idx.first st.fuel
      idm2idLoop st ti.idx idm st.fuel r

/-- `row->idm`. -/
def DmStore.idm (st : DmStore) (r : Addr) : ℕ := ((st.node r).map RowNode.idm).getD 0

section Back
variable {st : DmStore} {a i : ℕ} {o : ObjTree} {rows : List Addr}

/-- The loop stops at the first row with the small id. -/
theorem idm2idLoop_list (idm : ℕ) (ix : Idx Addr) (hix : InstIdx st.row rows ix) (hfuel : rows.length < st.fuel)
    (hnode : ∀ y ∈ rows, ∃ n, st.node y = some n) (k : ℕ) (pre xs : List Addr) (r : Addr) (post : List Addr)
    (hsplit : rows = pre ++ (xs ++ r :: post)) (hne : ∀ y ∈ xs, st.idm y ≠ idm) (hr : st.idm r = idm)
    (hk : xs.length < k) : idm2idLoop st ix idm k (xs ++ r :: post).head? = some (st.row r).inst := by
  induction xs generalizing pre k with
  | nil =>
    obtain ⟨k, rfl⟩ : ∃ j, k = j + 1 := ⟨k - 1, by simp at hk; omega⟩
    obtain ⟨n, hn⟩ := hnode r (by rw [hsplit]; simp)
    have hidm : n.idm = idm := by
      rw [← hr]
      simp only [DmStore.idm, hn, Option.map_some, Option.getD_some]
    simp only [List.nil_append, List.head?_cons, idm2idLoop, hn, Option.bind_eq_bind, Option.bind_some, if_pos hidm,
      DmStore.row, Option.map_some, Option.getD_some]
  | cons x xs ih =>
    obtain ⟨k, rfl⟩ : ∃ j, k = j + 1 := ⟨k - 1, by simp at hk; omega⟩
    obtain ⟨n, hn⟩ := hnode x (by rw [hsplit]; simp)
    have hidm : n.idm ≠ idm := by
      have h := hne x List.mem_cons_self
      simpa only [DmStore.idm, hn, Option.map_some, Option.getD_some] using h
    have hnext := hix.next x pre (xs ++ r :: post) hsplit st.fuel hfuel
    simp only [List.cons_append, List.head?_cons, idm2idLoop, hn, Option.bind_eq_bind, Option.bind_some, if_neg hidm,
      hnext]
    exact ih k (pre ++ [x]) (by rw [hsplit]; simp) (fun y hy => hne y (List.mem_cons_of_mem x hy))
      (by simp at hk; omega)

/-- `dm_idm2id` finds the row. -/
theorem dmIdm2id_row (h : Indexed st a i o rows) (hnode : ∀ y ∈ rows, ∃ n, st.node y = some n)
    (hinj : ∀ y ∈ rows, ∀ z ∈ rows, st.idm y = st.idm z → y = z) {r : Addr} (hr : r ∈ rows) (hpos : st.idm r ≠ 0) :
    dmIdm2id st a i (st.idm r) = some (st.row r).inst := by
  have hfuel := h.length_lt
  obtain ⟨ix, rest, ho, hix⟩ := h.lists
  obtain ⟨xs, post, hsplit⟩ := List.append_of_mem hr
  have hnd := hix.nodup
  have hloop := idm2idLoop_list (st.idm r) ix hix hfuel hnode st.fuel [] xs r post hsplit ?_ rfl ?_
  · have hfirst := hix.first st.fuel hfuel
    rw [hsplit] at hfirst
    simp only [dmIdm2id, if_neg hpos, h.tree, ho, List.head?_cons, hfirst, Option.bind_eq_bind, Option.bind_some, hloop]
  · intro y hy heq
    have hmem : y ∈ rows := by
      rw [hsplit]
      exact List.mem_append_left _ hy
    rw [hsplit] at hnd
    exact (List.nodup_append.mp hnd).2.2 y hy r List.mem_cons_self (hinj y hmem r hr heq)
  · rw [hsplit, List.length_append] at hfuel
    omega

end Back

/-! ## The map -/

/-- What the map and the small ids of the rows have to do with each other. -/
structure MapWf (max : ℕ) (st : DmStore) (o : ObjTree) (rows : List Addr) : Prop where
  map : (o.idMap = none ∧ max = 0) ∨ ∃ m, o.idMap = some m ∧ m.length = mapBits max
  range : ∀ y ∈ rows, 1 ≤ st.idm y ∧ st.idm y ≤ max
  inj : ∀ y ∈ rows, ∀ z ∈ rows, st.idm y = st.idm z → y = z
  bit : ∀ k, (o.idMap.getD [])[k]? = some true ↔ ∃ y ∈ rows, st.idm y = k + 1
  word : ∀ y ∈ rows, st.idm y / 32 < mapBits max / 32

section Map
variable {max : ℕ} {st st' : DmStore} {o o' : ObjTree} {rows rows' : List Addr} {r : Addr}

/-- All bits in front of the first free one belong to rows. -/
theorem MapWf.free_le (h : MapWf max st o rows) {f : ℕ} (hf : ∀ k < f, (o.idMap.getD [])[k]? = some true) :
    f ≤ rows.length := by
  have hex : ∀ k, ∃ y, k < f → y ∈ rows ∧ st.idm y = k + 1 := by
    intro k
    by_cases hk : k < f
    · obtain ⟨y, hy, heq⟩ := (h.bit k).mp (hf k hk)
      exact ⟨y, fun _ => ⟨hy, heq⟩⟩
    · exact ⟨0, fun hlt => absurd hlt hk⟩
  choose row hrow using hex
  have hsub : (List.range f).map row ⊆ rows := by
    intro y hy
    obtain ⟨k, hk, rfl⟩ := List.mem_map.mp hy
    exact (hrow k (List.mem_range.mp hk)).1
  have hnd : ((List.range f).map row).Nodup := by
    refine List.Nodup.map_on ?_ List.nodup_range
    intro j hj k hk heq
    have h1 := (hrow j (List.mem_range.mp hj)).2
    have h2 := (hrow k (List.mem_range.mp hk)).2
    rw [heq] at h1
    omega
  have hlen := (hnd.subperm hsub).length_le
  rwa [List.length_map, List.length_range] at hlen

/-- There is a free bit for one more row. -/
theorem MapWf.freeBit (h : MapWf max st o rows) (hlt : rows.length < max) :
    ∃ m f, o.idMap = some m ∧ o.freeBit = some f ∧ f ≤ rows.length ∧ m[f]? = some false := by
  rcases h.map with ⟨-, hzero⟩ | ⟨m, hm, hlen⟩
  · omega
  have hfree := fun f => @MapWf.free_le max st o rows h f
  simp only [hm, Option.getD_some] at hfree
  cases hf : m.findIdx? fun b => b = false with
  | none =>
    -- the map is longer than the list of the rows
    have hall := List.findIdx?_eq_none_iff.mp hf
    have hle := hfree m.length (by
      intro k hk
      rw [List.getElem?_eq_getElem hk]
      have hb := hall m[k] (List.getElem_mem hk)
      simpa using hb)
    rw [hlen] at hle
    unfold mapBits at hle
    omega
  | some f =>
    obtain ⟨hlt', hbit, hbelow⟩ := List.findIdx?_eq_some_iff_getElem.mp hf
    refine ⟨m, f, hm, by rw [ObjTree.freeBit, hm]; exact hf, hfree f ?_, ?_⟩
    · intro k hk
      rw [List.getElem?_eq_getElem (hk.trans hlt')]
      have hb := hbelow k hk
      simpa using hb
    · rw [List.getElem?_eq_getElem hlt']
      simpa using hbit

/-- A row more. -/
theorem MapWf.insert (h : MapWf max st o rows) (hlt : rows.length < max)
    (hword : ¬(32 ∣ max ∧ rows.length + 1 = max)) (hperm : rows'.Perm (r :: rows))
    (hkeep : ∀ y ∈ rows, st'.idm y = st.idm y) (hr : r ∉ rows) (hidm : st'.idm r = (o.freeBit.map (· + 1)).getD 0)
    (hmap : o'.idMap = o.idMap.map fun m => (o.freeBit.map fun f => m.set f true).getD m) : MapWf max st' o' rows' := by
  obtain ⟨m, f, hm, hfree, hle, hbit⟩ := h.freeBit hlt
  obtain ⟨hflt, -⟩ := List.getElem?_eq_some_iff.mp hbit
  have hmem : ∀ y, y ∈ rows' ↔ y = r ∨ y ∈ rows := fun y => hperm.mem_iff.trans List.mem_cons
  have hlen : m.length = mapBits max := by
    rcases h.map with ⟨hnone, -⟩ | ⟨m0, hm0, hlen⟩
    · rw [hm] at hnone
      cases hnone
    · rw [hm] at hm0
      cases hm0
      exact hlen
  have hnew : ∀ y ∈ rows, st.idm y ≠ f + 1 := by
    intro y hy heq
    have hset := (h.bit f).mpr ⟨y, hy, heq⟩
    rw [hm, Option.getD_some, hbit] at hset
    cases hset
  simp only [hm, hfree, Option.map_some, Option.getD_some] at hmap hidm
  refine ⟨.inr ⟨m.set f true, hmap, by rw [List.length_set, hlen]⟩, ?_, ?_, ?_, ?_⟩
  · intro y hy
    rcases (hmem y).mp hy with rfl | hy
    · rw [hidm]
      omega
    · rw [hkeep y hy]
      exact h.range y hy
  · intro y hy z hz heq
    rcases (hmem y).mp hy with rfl | hy
    · rcases (hmem z).mp hz with rfl | hz
      · rfl
      · rw [hidm, hkeep z hz] at heq
        exact absurd heq.symm (hnew z hz)
    · rcases (hmem z).mp hz with rfl | hz
      · rw [hidm, hkeep y hy] at heq
        exact absurd heq (hnew y hy)
      · rw [hkeep y hy, hkeep z hz] at heq
        exact h.inj y hy z hz heq
  · intro k
    have hold := h.bit k
    rw [hm, Option.getD_some] at hold
    rw [hmap, Option.getD_some]
    by_cases hkf : k = f
    · subst hkf
      rw [List.getElem?_set_self hflt]
      exact ⟨fun _ => ⟨r, (hmem r).mpr (.inl rfl), hidm⟩, fun _ => rfl⟩
    · rw [List.getElem?_set_ne (Ne.symm hkf), hold]
      constructor
      · intro ⟨y, hy, heq⟩
        exact ⟨y, (hmem y).mpr (.inr hy), (hkeep y hy).trans heq⟩
      · intro ⟨y, hy, heq⟩
        rcases (hmem y).mp hy with rfl | hy
        · rw [hidm] at heq
          omega
        · exact ⟨y, hy, (hkeep y hy).symm.trans heq⟩
  · intro y hy
    rcases (hmem y).mp hy with rfl | hy
    · rw [hidm]
      unfold mapBits
      omega
    · rw [hkeep y hy]
      exact h.word y hy

/-- A row less. -/
theorem MapWf.erase (h : MapWf max st o rows) (hr : r ∈ rows) (hnd : rows.Nodup)
    (hkeep : ∀ y ∈ rows.erase r, st'.idm y = st.idm y) {m : Option (List Bool)}
    (hclear : clearIdm o.idMap (st.idm r) = some m) (hmap : o'.idMap = m) : MapWf max st' o' (rows.erase r) := by
  have hmem : ∀ y ∈ rows.erase r, y ≠ r ∧ y ∈ rows := fun y hy => (List.Nodup.mem_erase_iff hnd).mp hy
  obtain ⟨hpos, hmax⟩ := h.range r hr
  have hinj : ∀ y ∈ rows.erase r, ∀ z ∈ rows.erase r, st'.idm y = st'.idm z → y = z := by
    intro y hy z hz heq
    rw [hkeep y hy, hkeep z hz] at heq
    exact h.inj y (hmem y hy).2 z (hmem z hz).2 heq
  have hrange : ∀ y ∈ rows.erase r, 1 ≤ st'.idm y ∧ st'.idm y ≤ max := by
    intro y hy
    rw [hkeep y hy]
    exact h.range y (hmem y hy).2
  have hword : ∀ y ∈ rows.erase r, st'.idm y / 32 < mapBits max / 32 := by
    intro y hy
    rw [hkeep y hy]
    exact h.word y (hmem y hy).2
  rcases h.map with ⟨-, hzero⟩ | ⟨b, hb, hlen⟩
  · omega
  have hw := h.word r hr
  rw [hb, clearIdm, if_neg (by omega), if_pos (by rw [hlen]; exact hw)] at hclear
  cases hclear
  refine ⟨.inr ⟨_, hmap, by rw [List.length_set, hlen]⟩, hrange, hinj, ?_, hword⟩
  intro k
  have hold := h.bit k
  rw [hb, Option.getD_some] at hold
  rw [hmap, Option.getD_some]
  by_cases hk : k = st.idm r - 1
  · constructor
    · intro hset
      rw [hk, List.getElem?_set] at hset
      simp at hset
    · intro ⟨y, hy, heq⟩
      obtain ⟨hyr, hy'⟩ := hmem y hy
      rw [hkeep y hy] at heq
      exact absurd (h.inj y hy' r hr (by omega)) hyr
  · rw [List.getElem?_set_ne (Ne.symm hk), hold]
    constructor
    · intro ⟨y, hy, heq⟩
      have hy' : y ∈ rows.erase r := by
        refine (List.Nodup.mem_erase_iff hnd).mpr ⟨?_, hy⟩
        intro hyr
        rw [hyr] at heq
        omega
      exact ⟨y, hy', (hkeep y hy').trans heq⟩
    · intro ⟨y, hy, heq⟩
      exact ⟨y, (hmem y hy).2, (hkeep y hy).symm.trans heq⟩

end Map

/-! ## Rows that come and go -/

/-- The small ids of the rows of the object in slot `i` of table `a` are in range and differ, the map holds them, they
lead back to the numbers and can be given back. -/
structure SmallIds (max : ℕ) (st : DmStore) (a i : ℕ) (o : ObjTree) : Prop where
  range : ∀ r n, st.node r = some n → n.root = some (a, i) → 1 ≤ n.idm ∧ n.idm ≤ max
  inj : ∀ r n r' n', st.node r = some n → n.root = some (a, i) → st.node r' = some n' → n'.root = some (a, i) →
    n.idm = n'.idm → r = r'
  bit : ∀ k, (o.idMap.getD [])[k]? = some true ↔ ∃ r n, st.node r = some n ∧ n.root = some (a, i) ∧ n.idm = k + 1
  back : ∀ r n, st.node r = some n → n.root = some (a, i) → dmIdm2id st a i n.idm = some n.inst
  clear : ∀ r n, st.node r = some n → n.root = some (a, i) → (clearIdm o.idMap n.idm).isSome = true

/-- The object of a schema that the events are about. -/
structure MapObject (S : Schema) where
  kw : ℕ
  i : ℕ
  e : DmElement
  base : Selector
  place : S.place base = some (kw, false)
  elem : (S.table kw).elems[i]? = some e
  object : e.type = .object
  mapId : e.flags.mapId = true

/-- A row is added, with a number of 16 bits, or one of the rows is deleted. -/
inductive RowEvent
  | add (id : ℕ) (lt : id < 2 ^ 16)
  | del (r : Addr)

section Events
variable {S : Schema} (B : MapObject S) (a : Addr) (basesel : Selector)

/-- `dm_add_instance` and `dm_del_instance`. -/
def rowStep (st : DmStore) : RowEvent → Option DmStore
  | .add id _ => (addInstance S st B.e a B.i basesel id).map Prod.snd
  | .del r =>
    if (st.node r).any (fun n => n.root = some (a, B.i)) = true then
      delInstance (delTable S (B.e.table + 1)) B.e a B.i r st
    else none

/-- The number of a new row is not used: the one that is asked for, or one that the search comes to. -/
def NumberUnused (st : DmStore) (i id : ℕ) : Prop :=
  (id &&& dmIdMask ≠ 0 → ¬Used st a i id) ∧
    (id &&& dmIdMask = 0 → (∃ k, id < k ∧ k < 2 ^ 16 ∧ ¬Used st a i k) ∨ ¬Used st a i 0)

/-- An add is refused, or its number is not used and it does not set the last bit of a full last word. -/
def RowEventOk (st : DmStore) : RowEvent → Prop
  | .add id _ => ∀ o, st.tree a B.i = some (some o) → AddRefused S st B.e o basesel ∨
      NumberUnused a st B.i id ∧ ¬(32 ∣ B.e.max ∧ o.tree.cnt + 1 = B.e.max)
  | .del _ => True

/-- The store is well-formed, and so is the map of the object. -/
structure MapStore (st : DmStore) : Prop where
  wf : HeapWf True nowhere S st
  home : ∃ t, st.heap a = some t ∧ t.id = B.base
  map : ∃ o rows, st.tree a B.i = some (some o) ∧ ObjWf True S st B.kw B.base a B.i o rows ∧ MapWf B.e.max st o rows

variable {B a basesel} {st st' : DmStore}

theorem ObjWf.indexed {kw i : ℕ} {p : Selector} {o : ObjTree} {rows : List Addr}
    (hlt : ∀ b t, st.heap b = some t → b < st.next) (htree : st.tree a i = some (some o))
    (ho : ObjWf True S st kw p a i o rows) : Indexed st a i o rows ∧ Live st a i rows := by
  have hrow : ∀ r ∈ rows, ∃ t n, st.heap r = some t ∧ st.node r = some n ∧ n.root = some (a, i) ∧ n.inst < 2 ^ 16 := by
    intro r hr
    obtain ⟨t, n, ht, hn, hroot, -, -, hinst⟩ := ho.isRow r hr
    exact ⟨t, n, ht, DmStore.node_eq_some.mpr ⟨t, ht, hn⟩, hroot, hinst⟩
  refine ⟨⟨htree, ho.lists, ?_, ?_⟩, ?_⟩
  · intro r hr
    obtain ⟨t, n, ht, -⟩ := hrow r hr
    exact hlt r t ht
  · intro r hr
    obtain ⟨t, n, -, hn, -, hinst⟩ := hrow r hr
    simpa only [DmStore.row, hn, Option.map_some, Option.getD_some] using hinst
  · intro r
    constructor
    · intro hr
      obtain ⟨t, n, -, hn, hroot, -⟩ := hrow r hr
      exact ⟨n, hn, hroot⟩
    · rintro ⟨n, hn, hroot⟩
      exact (ho.account trivial).all r n hn hroot

/-- What the map says of the rows. -/
theorem MapStore.smallIds (h : MapStore B a st) : ∃ o, st.tree a B.i = some (some o) ∧ SmallIds B.e.max st a B.i o := by
  obtain ⟨o, rows, htree, ho, hmap⟩ := h.map
  obtain ⟨hindexed, hlive⟩ := ho.indexed h.wf.lt htree
  have hidm : ∀ r n, st.node r = some n → st.idm r = n.idm := by
    intro r n hn
    simp only [DmStore.idm, hn, Option.map_some, Option.getD_some]
  have hmem : ∀ r n, st.node r = some n → n.root = some (a, B.i) → r ∈ rows := fun r n hn hroot =>
    (hlive r).mpr ⟨n, hn, hroot⟩
  have hnode : ∀ y ∈ rows, ∃ n, st.node y = some n := by
    intro y hy
    obtain ⟨n, hn, -⟩ := (hlive y).mp hy
    exact ⟨n, hn⟩
  refine ⟨o, htree, ?_, ?_, ?_, ?_, ?_⟩
  · intro r n hn hroot
    rw [← hidm r n hn]
    exact hmap.range r (hmem r n hn hroot)
  · intro r n r' n' hn hroot hn' hroot' heq
    rw [← hidm r n hn, ← hidm r' n' hn'] at heq
    exact hmap.inj r (hmem r n hn hroot) r' (hmem r' n' hn' hroot') heq
  · intro k
    rw [hmap.bit k]
    constructor
    · intro ⟨y, hy, heq⟩
      obtain ⟨n, hn, hroot⟩ := (hlive y).mp hy
      exact ⟨y, n, hn, hroot, by rw [← hidm y n hn, heq]⟩
    · intro ⟨y, n, hn, hroot, heq⟩
      exact ⟨y, hmem y n hn hroot, by rw [hidm y n hn, heq]⟩
  · intro r n hn hroot
    have hr := hmem r n hn hroot
    have hpos := (hmap.range r hr).1
    have hback := dmIdm2id_row hindexed hnode hmap.inj hr (by omega)
    rw [hidm r n hn] at hback
    rw [hback]
    simp only [DmStore.row, hn, Option.map_some, Option.getD_some]
  · intro r n hn hroot
    have hr := hmem r n hn hroot
    have hword := hmap.word r hr
    have hrange := hmap.range r hr
    rw [hidm r n hn] at hword hrange
    rcases hmap.map with ⟨-, hzero⟩ | ⟨m, hm, hlen⟩
    · omega
    · rw [hm, clearIdm, if_neg (by omega), if_pos (by rw [hlen]; exact hword)]
      rfl

theorem numberFree_of_unused {i id : ℕ} {o : ObjTree} {rows : List Addr} (hx : Indexed st a i o rows)
    (hlive : Live st a i rows) (hid : id < 2 ^ 16) (h : NumberUnused a st i id) : NumberFree st a i id := by
  intro o1 rows1 id' htree hl hnew y hy heq
  have ho : o1 = o := by
    rw [hx.tree] at htree
    cases htree
    rfl
  subst ho
  rw [hl.unique hx.lists] at hy
  have htaken : Taken st rows id' := ⟨y, hy, heq⟩
  by_cases hauto : id &&& dmIdMask = 0
  · obtain ⟨id2, hnew2, hnext⟩ := hx.newId_auto hid hauto
    rw [hnew] at hnew2
    cases hnew2
    rcases hnext with ⟨-, -, hfree, -⟩ | ⟨rfl, hall⟩
    · exact hfree htaken
    · rcases h.2 hauto with ⟨k, hk, hlt, hunused⟩ | hzero
      · exact hunused ((taken_iff_used hlive k).mp (hall k hk hlt))
      · exact hzero ((taken_iff_used hlive 0).mp htaken)
  · unfold newId at hnew
    rw [if_neg hauto] at hnew
    cases hnew
    exact h.1 hauto ((taken_iff_used hlive id).mp htaken)

theorem tree_of_heap {i : ℕ} (h : st'.heap a = st.heap a) : st'.tree a i = st.tree a i := by
  unfold DmStore.tree
  simp only [DmStore.slot_eq, h]

theorem node_of_heap {b : Addr} (h : st'.heap b = st.heap b) : st'.node b = st.node b := by
  simp only [DmStore.node_eq, h]

theorem idm_of_node {b : Addr} (h : st'.node b = st.node b) : st'.idm b = st.idm b := by
  unfold DmStore.idm
  rw [h]

theorem MapStore.add (hsel : selIds basesel = B.base ++ [B.i + 1]) (h : MapStore B a st) {id : ℕ} (hid : id < 2 ^ 16)
    (hok : RowEventOk B a basesel st (.add id hid)) {res : Option Addr}
    (hadd : addInstance S st B.e a B.i basesel id = some (res, st')) : MapStore B a st' := by
  obtain ⟨o, rows, htree, ho, hmap⟩ := h.map
  rcases addInstance_parts htree hadd with ⟨-, rfl, -⟩ | ⟨r, id', st1, rfl, hno, -, halloc, hins⟩
  · exact h
  obtain ⟨hunused, hword⟩ := (hok o htree).resolve_left hno
  obtain ⟨t, ht, hbase⟩ := h.home
  obtain ⟨hindexed, hlive⟩ := ho.indexed h.wf.lt htree
  have hfree := numberFree_of_unused hindexed hlive hid hunused
  have hplace : S.place t.id = some (B.kw, false) := by rw [hbase, B.place]
  have hplaceSel : S.place (selIds basesel) = some (B.e.table, true) := by
    rw [hsel]
    exact place_object B.place B.elem B.object
  obtain ⟨hw', hk, hadded⟩ := addInstance_spec (P := fun _ => False) h.wf ht hplace B.elem (by rw [hbase, hsel]) hid
    (fun _ => hfree) hadd
  obtain ⟨n, hA⟩ := hadded r rfl
  obtain ⟨o0, rows0, o', rows', htree0, htree', ho0, ho', hnew', hcases⟩ := hA.listed
  rw [htree] at htree0
  cases htree0
  rw [hbase] at ho0 ho'
  have hrows : rows0 = rows := ho0.lists.unique ho.lists
  subst hrows
  have hperm : rows'.Perm (r :: rows0) := by
    rcases hcases with ⟨⟨y, hy, hyn⟩, -⟩ | ⟨-, hperm⟩
    · exact absurd hyn (hfree o rows0 n.inst htree ho.lists hnew' y hy)
    · exact hperm
  -- what is old is not touched by the allocation
  obtain ⟨-, -, hold, -⟩ := allocInstanceNode_spec (P := fun _ => False) h.wf hplaceSel halloc
  obtain ⟨o1, tree1, n1, st2, st3, htree1, -, hn1, h1, h2, h3⟩ := insertInstance_parts hins
  rw [tree_of_heap (hold a (h.wf.lt a t ht)), htree] at htree1
  cases htree1
  rw [allocInstanceNode_node halloc] at hn1
  cases hn1
  have htree2 := move_tree h1 h2 h3
  rw [htree'] at htree2
  have hidm : st'.idm r = (o.freeBit.map (· + 1)).getD 0 := by
    have hnode := (move_node h1 h2 h3 r).trans (if_pos rfl)
    simp only [DmStore.idm, hnode, Option.map_some, Option.getD_some]
  have hkeep : ∀ y ∈ rows0, y ≠ r ∧ st'.idm y = st.idm y := by
    intro y hy
    have hlt : y < st.next := hindexed.lt y hy
    have hne : y ≠ r := fun heq => absurd hA.fresh (Nat.not_le.mpr (heq ▸ hlt))
    refine ⟨hne, idm_of_node ?_⟩
    rw [move_node h1 h2 h3 y, if_neg hne, node_of_heap (hold y hlt)]
  have hcnt := (ho.account trivial).cnt
  have hlt : rows0.length < B.e.max := by
    by_contra hge
    exact hno (.inr (.inr (by omega)))
  refine ⟨hw', ?_, o', rows', htree', ho', ?_⟩
  · obtain ⟨v', hv', -⟩ := (tree_eq_some st' a B.i _).mp htree'
    obtain ⟨t', ht', -⟩ := DmStore.slot_eq_some.mp hv'
    exact ⟨t', ht', by rw [hk.ids a t t' ht ht', hbase]⟩
  · refine hmap.insert hlt (by rw [← hcnt]; exact hword) hperm (fun y hy => (hkeep y hy).2)
      (fun hr => (hkeep r hr).1 rfl) hidm ?_
    rw [Option.some.inj (Option.some.inj htree2)]

theorem MapStore.del (h : MapStore B a st) {r : Addr} (hdel : rowStep B a basesel st (.del r) = some st') :
    MapStore B a st' := by
  obtain ⟨o, rows, htree, ho, hmap⟩ := h.map
  obtain ⟨t, ht, hbase⟩ := h.home
  obtain ⟨hindexed, hlive⟩ := ho.indexed h.wf.lt htree
  have hplace : S.place t.id = some (B.kw, false) := by rw [hbase, B.place]
  have hnd := ho.nodup
  by_cases hguard : (st.node r).any (fun n => n.root = some (a, B.i)) = true
  · simp only [rowStep, if_pos hguard] at hdel
    obtain ⟨n, hn, hroot⟩ := (Option.any_eq_true _ _).mp hguard
    have hr : r ∈ rows := (hlive r).mpr ⟨n, hn, by simpa using hroot⟩
    rw [← hbase] at ho
    obtain ⟨tr, inst, st1, htr, hid, hrem, hw', hb, -⟩ := delInstance_below (delTable_spec (B.e.table + 1)) h.wf ht hplace
      B.elem B.object htree ho hr (fun hx => hx) (fun _ _ _ _ _ hX => hX) hdel
    obtain ⟨-, hk, -, o1, htree1, ho1, -⟩ :=
      removeInstance_spec (P := fun _ => False) h.wf (fun hx => hx) ht hplace htree ho hr htr (fun hf => hf) hrem
    obtain ⟨o0, tree', n0, idMap, st2, st3, htree0, -, hn0, hclear, h1, h2, h3⟩ := removeInstance_parts hrem
    rw [htree] at htree0
    cases htree0
    have htree2 := move_tree h1 h2 h3
    rw [htree1] at htree2
    -- the tables of the object and of the other rows are not below the path of the row
    obtain ⟨v1, hv1, -⟩ := (tree_eq_some st1 a B.i _).mp htree1
    obtain ⟨t1, ht1, -⟩ := DmStore.slot_eq_some.mp hv1
    have hid1 : t1.id = t.id := hk.ids a t t1 ht ht1
    have hout : ¬tr.id <+: t1.id := by
      intro hpre
      have hlen := hpre.length_le
      rw [hid, hid1, List.length_append] at hlen
      simp at hlen
    have hta := hb.outside a t1 ht1 hout
    have htree' : st'.tree a B.i = some (some o1) := by rw [tree_of_heap (hta.trans ht1.symm), htree1]
    have hkeep : ∀ y ∈ rows.erase r, st'.idm y = st.idm y := by
      intro y hy
      obtain ⟨hyr, hyrows⟩ := (List.Nodup.mem_erase_iff hnd).mp hy
      obtain ⟨ty, m, hty, hm, -, htyid, -⟩ := ho1.isRow y hy
      have hnode1 : st1.node y = st.node y := by rw [move_node h1 h2 h3 y, if_neg hyr]
      have hnot : ¬tr.id <+: ty.id := by
        intro hpre
        have heq := hpre.eq_of_length (by rw [hid, htyid]; simp)
        have hsame : (st.row y).inst = (st.row r).inst := by
          have h1 := (ho1.isRow y hy).inst hty (heq.symm.trans hid)
          rw [(ho.isRow r hr).inst htr hid, ← h1]
          simp only [DmStore.row, hnode1]
        obtain ⟨ix, rest, -, hix⟩ := ho.lists
        exact hyr (hix.inj y r hyrows hr hsame)
      have hheap := hb.outside y ty hty hnot
      exact idm_of_node ((node_of_heap (hheap.trans hty.symm)).trans hnode1)
    refine ⟨hw', ⟨t1, hta, hid1.trans hbase⟩, o1, rows.erase r, htree', ?_, ?_⟩
    · obtain ⟨o2, rows2, ho2, hrows2, -⟩ := hw'.tree hta (by rw [hid1]; exact hplace) (fun hx => hx) htree'
      cases ho2
      rw [hrows2.lists.unique ho1.lists, hid1, hbase] at hrows2
      exact hrows2
    · have hidm : st.idm r = n0.idm := by simp only [DmStore.idm, hn0, Option.map_some, Option.getD_some]
      rw [← hidm] at hclear
      exact hmap.erase hr hnd hkeep hclear (by rw [Option.some.inj (Option.some.inj htree2)])
  · simp only [rowStep, if_neg hguard] at hdel
    cases hdel

/-- The object has its tree and no rows yet. -/
structure FreshObject (B : MapObject S) (a : Addr) (st : DmStore) : Prop where
  wf : HeapWf True nowhere S st
  home : ∃ t, st.heap a = some t ∧ t.id = B.base
  tree : ∃ cntr, st.tree a B.i = some (some (allocInstance S B.e cntr))

theorem FreshObject.mapStore (h : FreshObject B a st) : MapStore B a st := by
  obtain ⟨t, ht, hbase⟩ := h.home
  obtain ⟨cntr, htree⟩ := h.tree
  obtain ⟨o, rows, ho, hrows, -⟩ := h.wf.tree ht (by rw [hbase, B.place]) (fun hx => hx) htree
  cases ho
  have hnil := hrows.lists.unique (allocInstance_lists (List.mem_of_getElem? B.elem) B.object cntr st.row)
  subst hnil
  rw [hbase] at hrows
  refine ⟨h.wf, ⟨t, ht, hbase⟩, _, [], htree, hrows, ?_, nofun, nofun, ?_, nofun⟩
  · by_cases hmax : 0 < B.e.max
    · exact .inr ⟨List.replicate (mapBits B.e.max) false, if_pos ⟨B.mapId, hmax⟩, List.length_replicate⟩
    · exact .inl ⟨if_neg fun hm => hmax hm.2, by omega⟩
  · intro k
    simp only [allocInstance]
    split <;> simp [List.getElem?_replicate]

/-- One event that meets the condition. -/
theorem MapStore.step (hsel : selIds basesel = B.base ++ [B.i + 1]) (ev : RowEvent)
    (h : rowStep B a basesel st ev = some st') (hst : MapStore B a st) (hok : RowEventOk B a basesel st ev) :
    MapStore B a st' := by
  cases ev with
  | add id hid =>
    obtain ⟨⟨res, st1⟩, hadd, rfl⟩ := Option.map_eq_some_iff.mp h
    exact hst.add hsel hid hok hadd
  | del r => exact hst.del h

/-- The small ids in every state of a run whose steps meet the condition. -/
theorem smallIds_run (B : MapObject S) (a : Addr) (basesel : Selector) (hsel : selIds basesel = B.base ++ [B.i + 1])
    (st : DmStore) (hfresh : FreshObject B a st) (evs : List RowEvent)
    (hok : Run.Each (rowStep B a basesel) st (RowEventOk B a basesel) evs) :
    Run.Always (rowStep B a basesel) st
      (fun st' => ∃ o, st'.tree a B.i = some (some o) ∧ SmallIds B.e.max st' a B.i o) evs := by
  intro pre st' hpre hrun
  have hwf := @Run.always_of_each _ _ (rowStep B a basesel) evs st (fun _ => True) (MapStore B a)
    (RowEventOk B a basesel) trivial (fun _ _ _ _ _ => trivial) hfresh.mapStore
    (fun st0 ev st1 h _ hst hm => hst.step hsel ev h hm) hok
  exact (hwf pre st' hpre hrun).smallIds

end Events

/-! ## A full word -/

/-- The only object of `crowdSchema` as one of 32 rows with small ids. -/
def wordLeaf : DmElement :=
  { crowdLeaf .object 32 with flags := { (crowdLeaf .object 32).flags with mapId := true } }

def wordTable : ℕ → DmTable
  | 0 => ⟨[crowdLeaf .uint 0], [instEntry]⟩
  | 1 => ⟨[wordLeaf], []⟩
  | _ => ⟨[], []⟩

def wordSchema : Schema where
  table := wordTable
  root := 1
  child_lt := by
    intro k
    match k with
    | 0 => decide
    | 1 => decide
    | k + 2 => exact fun e he => absurd he List.not_mem_nil
  index_head := by
    intro k
    match k with
    | 0 => decide
    | 1 => decide
    | k + 2 => exact fun e he => absurd he List.not_mem_nil
  set_fits := by
    intro k
    match k with
    | 0 => decide
    | 1 => decide
    | k + 2 => exact fun e he => absurd he List.not_mem_nil
  array_leaf := by
    intro k
    match k with
    | 0 => decide
    | 1 => decide
    | k + 2 => exact fun e he => absurd he List.not_mem_nil
  get_leaf := by
    intro k
    match k with
    | 0 => decide
    | 1 => decide
    | k + 2 => exact fun e he => absurd he List.not_mem_nil

def wordObject : MapObject wordSchema where
  kw := 1
  i := 0
  e := wordLeaf
  base := []
  place := rfl
  elem := rfl
  object := rfl
  mapId := rfl

/-- The map after `n` rows. -/
def wordMap (n : ℕ) : List Bool := List.replicate n true ++ List.replicate (32 - n) false

/-- The rows `1, …, n`, each with its number as its small id. -/
def wordStore (n : ℕ) (tree : InstTree ℕ) : DmStore where
  heap := fun a =>
    if a = 0 then some ⟨[], [⟨.inst (some ⟨tree, none, some (wordMap n)⟩), 0, Flags.zero, true⟩], none⟩
    else if a ≤ n then some ⟨[1, a], [⟨.scalar (.uint 0), 0, Flags.zero, true⟩],
      some ⟨⟨.table (some a), 0, Flags.zero, true⟩, a, a, some (0, 0)⟩⟩
    else none
  next := n + 1
  root := 0

theorem word_init : DmStore.init wordSchema = some (wordStore 0 (InstTree.alloc [instEntry])) := by
  have hinit : DmStore.init wordSchema = some ((⟨fun _ => none, 1, 0⟩ : DmStore).put 0
      ⟨[], [⟨.inst (some ⟨InstTree.alloc [instEntry], none, some (wordMap 0)⟩), 0, Flags.zero, true⟩], none⟩) := rfl
  rw [hinit]
  congr 1
  simp only [DmStore.put, wordStore]
  congr 1
  funext b
  by_cases hb : b = 0
  · simp [hb]
  · simp [hb]

/-- A store with `n` rows. -/
def WordState (n : ℕ) (st : DmStore) : Prop :=
  ∃ (ix : Idx ℕ) (rows : List ℕ), st = wordStore n ⟨n, [⟨instEntry, ix⟩]⟩ ∧ InstIdx (crowdRow 0) rows ix ∧
    ∀ a : ℕ, a ∈ rows ↔ 1 ≤ a ∧ a ≤ n

/-- The table of row `n`. -/
def wordRow (n idm : ℕ) (root : Option (ℕ × ℕ)) : VTable :=
  ⟨[1, n], [⟨.scalar (.uint 0), 0, Flags.zero, true⟩], some ⟨⟨.table (some n), 0, Flags.zero, true⟩, n, idm, root⟩⟩

/-- One more row, before and after its small id is set. -/
def wordAlloc (n : ℕ) (tree : InstTree ℕ) (idm : ℕ) (root : Option (ℕ × ℕ)) : DmStore :=
  ({ wordStore n tree with next := n + 2 } : DmStore).put (n + 1) (wordRow (n + 1) idm root)

section Word
variable {n : ℕ} {tree tree' : InstTree ℕ}

theorem wordStore_row {a : ℕ} (h1 : 1 ≤ a) (hn : a ≤ n) : ((wordStore n tree).row a).inst = a := by
  have hne : a ≠ 0 := by omega
  simp [DmStore.row, DmStore.node_eq, wordStore, hne, hn]

theorem wordMap_free (hn : n < 32) : (wordMap n).findIdx? (fun b => b = false) = some n := by
  have hrest : List.replicate (32 - n) false = false :: List.replicate (31 - n) false := by
    rw [← List.replicate_succ]
    congr 1
    omega
  rw [wordMap, hrest, List.findIdx?_append, List.findIdx?_eq_none_iff.mpr (by simp), List.findIdx?_cons]
  simp

theorem wordMap_set (hn : n < 32) : (wordMap n).set n true = wordMap (n + 1) := by
  have hrest : List.replicate (32 - n) false = false :: List.replicate (31 - n) false := by
    rw [← List.replicate_succ]
    congr 1
    omega
  rw [wordMap, hrest, List.set_append_right _ _ (by simp)]
  simp [wordMap, List.replicate_succ']

theorem word_alloc : allocInstanceNode wordSchema 0 [1] (n + 1) (wordStore n tree) =
    some (n + 1, wordAlloc n tree 0 none) := by
  have hsel : dmSelcat [1] (n + 1) = [1, n + 1] := rfl
  have halloc : allocTable wordSchema 1 0 [1, n + 1] (wordStore n tree) =
      some (n + 1, ({ wordStore n tree with next := n + 2 } : DmStore).put (n + 1)
        ⟨[1, n + 1], [⟨.scalar (.uint 0), 0, Flags.zero, true⟩], none⟩) := rfl
  simp only [allocInstanceNode, hsel, halloc, Option.bind_eq_bind, Option.bind_some, DmStore.setNode, DmStore.put_heap_self]
  simp [wordAlloc, wordRow, DmStore.put]

theorem word_setNode (idm : ℕ) (root : Option (ℕ × ℕ)) : (wordAlloc n tree 0 none).setNode (n + 1)
    ⟨⟨.table (some (n + 1)), 0, Flags.zero, true⟩, n + 1, idm, root⟩ = some (wordAlloc n tree idm root) := by
  simp only [DmStore.setNode, wordAlloc, DmStore.put_heap_self, wordRow, Option.bind_eq_bind, Option.bind_some]
  simp [DmStore.put]

theorem word_heap_zero (idm : ℕ) (root : Option (ℕ × ℕ)) : (wordAlloc n tree idm root).heap 0 =
    some ⟨[], [⟨.inst (some ⟨tree, none, some (wordMap n)⟩), 0, Flags.zero, true⟩], none⟩ := by
  rw [wordAlloc, DmStore.put_heap_ne _ _ _ _ (Nat.succ_ne_zero n).symm]
  rfl

theorem word_setTree : setTree (wordAlloc n tree (n + 1) (some (0, 0))) 0 0
    ⟨tree', none, some (wordMap (n + 1))⟩ = some (wordStore (n + 1) tree') := by
  have hheap := @word_heap_zero n tree (n + 1) (some (0, 0))
  have hset : setTree (wordAlloc n tree (n + 1) (some (0, 0))) 0 0 ⟨tree', none, some (wordMap (n + 1))⟩ =
      some ((wordAlloc n tree (n + 1) (some (0, 0))).put 0
        ⟨[], [⟨.inst (some ⟨tree', none, some (wordMap (n + 1))⟩), 0, Flags.zero, true⟩], none⟩) := by
    simp only [setTree, DmStore.slot_eq, hheap, Option.bind_eq_bind, Option.bind_some, List.getElem?_cons_zero,
      DmStore.setSlot, List.length_singleton, Nat.zero_lt_one, if_true, VTable.setValue, List.set_cons_zero]
  rw [hset]
  congr 1
  simp only [DmStore.put, wordAlloc, wordStore]
  congr 1
  funext b
  by_cases h0 : b = 0
  · simp [h0]
  rw [Function.update_of_ne h0]
  by_cases hb : b = n + 1
  · rw [hb, Function.update_self]
    simp [wordRow]
  · rw [Function.update_of_ne hb, if_neg h0, if_neg h0]
    have hiff : ∀ c : ℕ, c ≠ n + 1 → (c ≤ n ↔ c ≤ n + 1) := fun c hc => by omega
    simp only [hiff b hb]

/-- What the index of the store lists. -/
theorem word_indexed {ix : Idx ℕ} {rows : List ℕ} (hn : n ≤ 32) (hix : InstIdx (crowdRow 0) rows ix)
    (hmem : ∀ a : ℕ, a ∈ rows ↔ 1 ≤ a ∧ a ≤ n) : Indexed (wordStore n ⟨n, [⟨instEntry, ix⟩]⟩) 0 0
      ⟨⟨n, [⟨instEntry, ix⟩]⟩, none, some (wordMap n)⟩ rows := by
  have hrow : ∀ a ∈ rows, ((wordStore n ⟨n, [⟨instEntry, ix⟩]⟩).row a).inst = a := by
    intro a ha
    exact wordStore_row ((hmem a).mp ha).1 ((hmem a).mp ha).2
  refine ⟨rfl, ⟨ix, [], rfl, hix.congr ?_⟩, ?_, ?_⟩
  · intro a ha
    rw [hrow a ha]
    exact (Nat.zero_add a).symm
  · intro a ha
    exact Nat.lt_succ_of_le ((hmem a).mp ha).2
  · intro a ha
    have hle := ((hmem a).mp ha).2
    rw [hrow a ha]
    exact lt_of_le_of_lt (hle.trans hn) (by decide)

theorem word_newId {ix : Idx ℕ} {rows : List ℕ} (hn : n < 32) (hix : InstIdx (crowdRow 0) rows ix)
    (hmem : ∀ a : ℕ, a ∈ rows ↔ 1 ≤ a ∧ a ≤ n) : newId (wordStore n ⟨n, [⟨instEntry, ix⟩]⟩)
      ⟨⟨n, [⟨instEntry, ix⟩]⟩, none, some (wordMap n)⟩ 0 = some (n + 1) := by
  obtain ⟨id', hnew, hnext⟩ := (word_indexed (by omega) hix hmem).newId_auto (by decide : (0 : ℕ) < 2 ^ 16) rfl
  have htaken : ∀ k, Taken (wordStore n ⟨n, [⟨instEntry, ix⟩]⟩) rows k ↔ 1 ≤ k ∧ k ≤ n := by
    intro k
    constructor
    · intro ⟨y, hy, hyk⟩
      have hy := (hmem y).mp hy
      rw [wordStore_row hy.1 hy.2] at hyk
      omega
    · intro hk
      exact ⟨k, (hmem k).mpr hk, wordStore_row hk.1 hk.2⟩
  simp only [NextFree, htaken] at hnext
  rw [hnew]
  congr 1
  rcases hnext with ⟨h1, -, h3, h4⟩ | ⟨-, hall⟩
  · by_contra hne
    rcases Nat.lt_or_gt_of_ne hne with hlt | hgt
    · exact h3 ⟨h1, by omega⟩
    · have := h4 (n + 1) (by omega) hgt
      omega
  · have := hall (n + 1) (by omega) (by omega)
    omega

/-- One more row. -/
theorem WordState.add {st : DmStore} (hn : n < 32) (h : WordState n st) :
    ∃ st', addInstance wordSchema st wordLeaf 0 0 [1] 0 = some (some (n + 1), st') ∧ WordState (n + 1) st' := by
  obtain ⟨ix, rows, rfl, hix, hmem⟩ := h
  have hout : n + 1 ∉ rows := by
    rw [hmem]
    omega
  have hlen : rows.length ≤ n + 1 := length_le_of_lt hix.nodup fun x hx => by
    have := (hmem x).mp hx
    omega
  generalize htree : (⟨n, [⟨instEntry, ix⟩]⟩ : InstTree ℕ) = tree
  have hrow : ∀ y ∈ rows, ((wordAlloc n tree 0 none).row y).inst = (crowdRow 0 y).inst := by
    intro y hy
    obtain ⟨h1, h2⟩ := (hmem y).mp hy
    have hword := @wordStore_row n tree y h1 h2
    have hheap : (wordAlloc n tree 0 none).heap y = (wordStore n tree).heap y :=
      DmStore.put_heap_ne _ _ _ _ (by omega)
    simp only [DmStore.row, DmStore.node_eq, hheap] at hword ⊢
    rw [hword]
    exact (Nat.zero_add y).symm
  obtain ⟨ix', rows', hins, hix', hcases⟩ :=
    ((hix.congr hrow).clear (n + 1) hout).insert (n + 1) hout (wordAlloc n tree 0 none).fuel (by
      show rows.length + 1 < n + 2 + 2
      omega)
  have hnode : (wordAlloc n tree 0 none).node (n + 1) = some ⟨⟨.table (some (n + 1)), 0, Flags.zero, true⟩, n + 1, 0, none⟩ := by
    rw [DmStore.node_eq, wordAlloc, DmStore.put_heap_self]
    rfl
  have hself : ((wordAlloc n tree 0 none).row (n + 1)).inst = n + 1 := by
    simp only [DmStore.row, hnode, Option.map_some, Option.getD_some]
  have hperm : rows'.Perm ((n + 1) :: rows) := by
    rcases hcases with ⟨⟨y, hy, heq⟩, -⟩ | ⟨-, hperm⟩
    · rw [hrow y hy, hself] at heq
      have hle := (hmem y).mp hy
      have heq : 0 + y = n + 1 := heq
      omega
    · exact hperm
  have hgrown : InstTree.insert (wordAlloc n tree 0 none).fuel (wordAlloc n tree 0 none).row tree (n + 1) =
      some ⟨n + 1, [⟨instEntry, ix'⟩]⟩ := by
    have hcnt : (n + 1) % 2 ^ 32 = n + 1 := Nat.mod_eq_of_lt (by omega)
    simp only [← htree, InstTree.insert, List.mapM_cons, List.mapM_nil, Option.bind_eq_bind, Option.pure_def]
    rw [htree, hins]
    simp only [Option.bind_some, hcnt]
  have htree0 : (wordAlloc n tree 0 none).tree 0 0 = some (some ⟨tree, none, some (wordMap n)⟩) := by
    have hslot : (wordAlloc n tree 0 none).slot 0 0 =
        some ⟨.inst (some ⟨tree, none, some (wordMap n)⟩), 0, Flags.zero, true⟩ := by
      rw [DmStore.slot_eq, word_heap_zero]
      rfl
    exact (tree_eq_some _ 0 0 _).mpr ⟨_, hslot, rfl⟩
  have hinsert : insertInstance (wordAlloc n tree 0 none) 0 0 (n + 1) =
      some (wordStore (n + 1) ⟨n + 1, [⟨instEntry, ix'⟩]⟩) := by
    simp only [insertInstance, htree0, hgrown, hnode, wordMap_free hn, wordMap_set hn, word_setNode, word_setTree,
      addCounter, Option.bind_eq_bind, Option.bind_some, Option.map_some, Option.getD_some]
  refine ⟨_, ?_, ix', rows', rfl, hix'.congr ?_, ?_⟩
  · have hobj : ¬wordLeaf.type ≠ .object := by decide
    have hmax : ¬wordLeaf.max ≤ tree.cnt := by
      rw [← htree]
      show ¬32 ≤ n
      omega
    have hkw : wordLeaf.table = 0 := rfl
    have href : ∃ ref, (wordStore n tree).getElementRef wordSchema [1] = some (some ref) := ⟨_, rfl⟩
    obtain ⟨ref, href⟩ := href
    have htree1 : (wordStore n tree).tree 0 0 = some (some ⟨tree, none, some (wordMap n)⟩) := rfl
    have hnew := word_newId hn hix hmem
    rw [htree] at hnew
    simp only [addInstance, if_neg hobj, href, ensureTree, htree1, Option.bind_eq_bind, Option.bind_some, if_neg hmax,
      hnew, hkw, word_alloc, hinsert]
  · intro x hx
    rcases List.mem_cons.mp (hperm.mem_iff.mp hx) with rfl | hx
    · rw [hself]
      exact Nat.zero_add _
    · exact (hrow x hx).symm
  · intro a
    rw [hperm.mem_iff, List.mem_cons, hmem]
    omega

theorem WordState.init : WordState 0 (wordStore 0 (InstTree.alloc [instEntry])) := by
  refine ⟨Idx.empty, [], rfl, InstIdx.empty _, ?_⟩
  intro a
  simp
  omega

/-- Some rows, each with an automatic number. -/
theorem word_run (k : ℕ) (hk : k ≤ 32) : ∃ st, WordState k st ∧
    Run.run (rowStep wordObject 0 [1]) (wordStore 0 (InstTree.alloc [instEntry]))
      (List.replicate k (.add 0 (by decide))) = some st := by
  induction k with
  | zero => exact ⟨_, WordState.init, rfl⟩
  | succ k ih =>
    obtain ⟨st, hst, hrun⟩ := ih (by omega)
    obtain ⟨st', hadd, hst'⟩ := hst.add (by omega)
    refine ⟨st', hst', ?_⟩
    rw [List.replicate_succ']
    refine Run.run_snoc.mpr ⟨st, hrun, ?_⟩
    show (addInstance wordSchema st wordLeaf 0 0 [1] 0).map Prod.snd = some st'
    rw [hadd]
    rfl

theorem word_fresh : FreshObject wordObject 0 (wordStore 0 (InstTree.alloc [instEntry])) where
  wf := init_wf word_init
  home := ⟨_, rfl, rfl⟩
  tree := ⟨none, rfl⟩

theorem WordState.unused {st : DmStore} (h : WordState n st) (hn : n ≤ 32) : ¬Used st 0 0 33 := by
  obtain ⟨ix, rows, rfl, -⟩ := h
  intro ⟨r, m, hm, _, hinst⟩
  rw [DmStore.node_eq] at hm
  by_cases h0 : r = 0
  · simp [wordStore, h0] at hm
  by_cases hr : r ≤ n
  · simp [wordStore, h0, hr] at hm
    rw [← hm] at hinst
    have hinst : r = 33 := hinst
    exact absurd (hinst ▸ hr : (33 : ℕ) ≤ n) (by omega)
  · simp [wordStore, h0, hr] at hm

theorem word_each : Run.Each (rowStep wordObject 0 [1]) (wordStore 0 (InstTree.alloc [instEntry]))
    (RowEventOk wordObject 0 [1]) (List.replicate 31 (.add 0 (by decide))) := by
  intro pre ev s s' hpre hrun _
  obtain ⟨hlen, heq⟩ := List.prefix_replicate_iff.mp hpre
  rw [List.length_append, List.length_singleton, List.replicate_succ'] at heq
  obtain ⟨hpre', hev⟩ := List.append_inj' heq rfl
  rw [List.length_append, List.length_singleton] at hlen
  cases hev
  obtain ⟨st, hst, hst'⟩ := word_run pre.length (by omega)
  rw [hpre', hst'] at hrun
  cases hrun
  intro o ho
  refine .inr ⟨⟨fun h => absurd rfl h, fun _ => .inl ⟨33, by decide, by decide, hst.unused (by omega)⟩⟩, ?_⟩
  obtain ⟨ix, rows, rfl, -⟩ := hst
  cases ho
  intro hfull
  have hcnt : pre.length + 1 = 32 := hfull.2
  omega

theorem smallIds_sample : Run.Always (rowStep wordObject 0 [1]) (wordStore 0 (InstTree.alloc [instEntry]))
    (fun st' => ∃ o, st'.tree 0 wordObject.i = some (some o) ∧ SmallIds wordObject.e.max st' 0 wordObject.i o)
    (List.replicate 31 (.add 0 (by decide))) :=
  smallIds_run wordObject 0 [1] rfl _ word_fresh _ word_each

/-- The small id of the last of 32 rows cannot be given back. -/
theorem smallIds_full_word : FreshObject wordObject 0 (wordStore 0 (InstTree.alloc [instEntry])) ∧
    ∃ st, Run.run (rowStep wordObject 0 [1]) (wordStore 0 (InstTree.alloc [instEntry]))
      (List.replicate 32 (.add 0 (by decide))) = some st ∧
    (∃ n, st.node 32 = some n ∧ n.root = some (0, 0) ∧ n.idm = 32) ∧ rowStep wordObject 0 [1] st (.del 32) = none ∧
    ¬∃ o, st.tree 0 wordObject.i = some (some o) ∧ SmallIds wordObject.e.max st 0 wordObject.i o := by
  obtain ⟨st, ⟨ix, rows, rfl, -⟩, hrun⟩ := word_run 32 le_rfl
  have hclear : clearIdm (some (wordMap 32)) 32 = none := by decide
  refine ⟨word_fresh, _, hrun, ⟨_, rfl, rfl, rfl⟩, ?_, ?_⟩
  · cases hdel : rowStep wordObject 0 [1] (wordStore 32 ⟨32, [⟨instEntry, ix⟩]⟩) (.del 32) with
    | none => rfl
    | some st' =>
      simp only [rowStep] at hdel
      split at hdel
      · simp only [delInstance, Option.bind_eq_bind, Option.bind_eq_some_iff] at hdel
        obtain ⟨-, -, -, -, st1, hrem, -⟩ := hdel
        obtain ⟨o, -, n, idMap, -, -, ho, -, hn, hmap, -⟩ := removeInstance_parts hrem
        cases ho
        cases hn
        have hmap : clearIdm (some (wordMap 32)) 32 = some idMap := hmap
        rw [hclear] at hmap
        cases hmap
      · cases hdel
  · intro ⟨o, ho, hsmall⟩
    cases ho
    have h := hsmall.clear 32 _ rfl rfl
    rw [hclear] at h
    cases h

end Word

end Mand.Store
