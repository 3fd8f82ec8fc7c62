import Mand.Store.Set
import Mand.Msg.Packet

/-! # The update cache

`dm_cache.c`: the values that the configure session has set and not yet committed. The red-black tree
of the items is a list that is sorted by selector. -/
namespace Mand.Server
open Mand.Store Mand.Msg Mand.Bytes
set_option autoImplicit false

/-- The codes that the set functions look at. -/
inductive AvpCode
  | unknown
  | array
  | other (code : ℕ)
  deriving DecidableEq, Repr

/-- `struct dm2_avp`: `mem` is the memory from the payload on. -/
structure Avp where
  code : AvpCode
  mem : Mem
  size : ℕ
  deriving DecidableEq, Repr

/-- Functions that the requests call: the conversion of an AVP into a value of a leaf, the validators
(the result and the error code they leave), the value a get hook returns, and what undefined
operations give. -/
structure Env where
  schema : Schema
  conv : DmElement → Avp → Except DmResult Value
  validate : ℕ → VTable → ℕ → DmElement → DmValue → ℕ × ℕ
  getHook : DmStore → Ref → DmValue → DmValue
  undef : ℕ

/-- The types that `dmconfig_avp2value` and `dm_string2value` can write. -/
def writable : DmType → Bool
  | .uint => true
  | .int => true
  | .bool => true
  | .str => true
  | .binary => true
  | .base64 => true
  | .date => true
  | .enum => true
  | .selector => true
  | .ipaddr4 => true
  | .ipaddr6 => true
  | .int64 => true
  | .uint64 => true
  | .ticks => true
  | _ => false

/-- `dmconfig_avp2value`. -/
def Env.avp2value (env : Env) (e : DmElement) (avp : Avp) : Except DmResult Value :=
  if writable e.type = true then env.conv e avp else .error .invalidType

/-- `struct cache_item`. -/
structure CacheItem where
  sb : Selector
  id : ℕ
  elem : DmElement
  base : Base
  oldValue : Loc
  newValue : DmValue
  code : ℕ

abbrev Cache := List CacheItem

/-- `RB_FIND`. -/
def cacheFind (cache : Cache) (sb : Selector) : Option CacheItem :=
  cache.find? fun item => dmSelcmp sb item.sb dmSelectorLen = 0

/-- The last id of a selector. -/
def lastId (sb : Selector) : ℕ := (selIds sb).getLastD 1

/-- `RB_INSERT` of an item with a new selector. -/
def cacheInsert (item : CacheItem) : Cache → Cache
  | [] => [item]
  | x :: rest =>
    if dmSelcmp item.sb x.sb dmSelectorLen < 0 then item :: x :: rest else x :: cacheInsert item rest

/-- `cache_add`. -/
def cacheAdd (cache : Cache) (sb : Selector) (elem : DmElement) (base : Base) (oldValue : Loc)
    (newValue : DmValue) : Cache :=
  match cacheFind cache sb with
  | none => cacheInsert ⟨sb, lastId sb, elem, base, oldValue, newValue, 0⟩ cache
  | some _ =>
    cache.map fun item =>
      if dmSelcmp sb item.sb dmSelectorLen = 0 then { item with newValue := newValue, code := 0 }
      else item

def setPending (b : Bool) (v : DmValue) : DmValue :=
  { v with flags := { v.flags with pending := b }, parity := true }

/-- `cache_reset`: the flags of the old values in the store. -/
def cacheReset (st : DmStore) : Cache → Option DmStore
  | [] => some st
  | item :: rest => do
    let v ← st.value item.oldValue
    let st ← st.setValue item.oldValue (setPending false v)
    cacheReset st rest

/-- The table in front of the slot of an item. -/
def baseTable (st : DmStore) : Base → Option VTable
  | .table a => st.heap a
  | .object _ _ => none

/-- The loop of `cache_validate`: the verdict and the items with the codes that the validators left. -/
def cacheValidate (env : Env) (st : DmStore) : Cache → Option (ℕ × Cache)
  | [] => some (1, [])
  | item :: rest =>
    match item.elem.validate with
    | some h =>
      if item.code = 0 then do
        let t ← baseTable st item.base
        let (r, code) := env.validate h t item.id item.elem item.newValue
        let (rs, rest) ← cacheValidate env st rest
        some (r &&& rs, { item with code := code } :: rest)
      else do
        let (rs, rest) ← cacheValidate env st rest
        some (rs, item :: rest)
    | none => do
      let (rs, rest) ← cacheValidate env st rest
      some (rs, item :: rest)

/-- One round of `cache_apply`. -/
def applyItem (env : Env) (st : DmStore) (item : CacheItem) : Option DmStore :=
  match item.base with
  | .object _ _ => none
  | .table a => do
    let (_, st) ← assign env.undef st item.elem a item.oldValue item.newValue
    let v ← st.value item.oldValue
    let st ← st.setValue item.oldValue (markUpdated (setPending false v))
    reindex st item.elem item.id a

/-- `cache_apply` in the order in which the items come to the root of the tree. -/
def cacheApply (env : Env) (st : DmStore) : List CacheItem → Option DmStore
  | [] => some st
  | item :: rest => do
    let st ← applyItem env st item
    cacheApply env st rest

end Mand.Server
