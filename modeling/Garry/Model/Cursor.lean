import Garry.Model.Engine

/-!
# Cursors and navigation (`btree_cursor.c`, `storage_cursor.c`, `storage_navigation.c`)

A cursor remembers a leaf page and the slot after its last key. As in the descents, a result of
`none` means that a loop of the source does not end.
-/

namespace Garry

open ByteStore

/-! ## The cursor of the tree -/

/-- `garry_btree_cursor_handle`, without the copy of the current key that only
`garry_btree_cursor_peek` reads; `savedKey` is the saved key while `has_saved` is set. -/
structure BtreeCursor where
  pfx : Bytes
  exhausted : Bool
  savedKey : Option Bytes
  currentPage : Int
  currentSlot : Nat
  currentNode : BtreeNode
  nodeLoaded : Bool

/-- `prefix_match`. -/
def prefixMatch (key pfx : Bytes) : Bool := pfx.isPrefixOf key

/-- The child that `garry_btree_cursor_open` goes to. -/
def openChild (node : BtreeNode) (pfx : Bytes) : Nat :=
  if pfx ≠ [] then
    let idx := internalFind node pfx
    if idx ≥ node.entryCount then node.entryCount - 1 else idx
  else 0

/-- The loop of `garry_btree_cursor_open`. -/
def btreeCursorOpenLoop (pool : Pool) (pfx : Bytes) : Nat → Int → Option BtreeCursor
  | 0, _ => none
  | fuel + 1, page =>
    let node := loadNode pool page
    if node.kind = .leaf then some ⟨pfx, false, none, page, 0, emptyNode, false⟩
    else if node.entryCount > 0 then
      btreeCursorOpenLoop pool pfx fuel (node.child (openChild node pfx))
    else some ⟨pfx, true, none, 0, 0, emptyNode, false⟩

/-- `garry_btree_cursor_open`. -/
def btreeCursorOpen (pool : Pool) (root : Int) (pfx : Bytes) : Option BtreeCursor :=
  btreeCursorOpenLoop pool pfx pool.fuel root

/-- The loop of `garry_btree_cursor_next`: the key found, and the cursor. -/
def btreeCursorNextLoop (pool : Pool) : Nat → BtreeCursor → Option (Option Bytes × BtreeCursor)
  | 0, _ => none
  | fuel + 1, cur =>
    let node := loadNode pool cur.currentPage
    let cur := { cur with currentNode := node, nodeLoaded := true }
    match (node.keys.drop cur.currentSlot).findIdx? fun key => prefixMatch key cur.pfx with
    | some j =>
      let i := cur.currentSlot + j
      some (node.keys[i]?, { cur with currentSlot := i + 1 })
    | none =>
      if node.nextPage ≥ 0 then
        btreeCursorNextLoop pool fuel
          { cur with currentPage := node.nextPage, currentSlot := 0, nodeLoaded := false }
      else some (none, { cur with exhausted := true, nodeLoaded := false })

/-- `garry_btree_cursor_next`. A walk along the leaves visits each page at most once. -/
def btreeCursorNext (pool : Pool) (cur : BtreeCursor) : Option (Option Bytes × BtreeCursor) :=
  if cur.exhausted then some (none, cur)
  else
    match cur.savedKey with
    | some key => some (some key, { cur with savedKey := none })
    | none => btreeCursorNextLoop pool pool.fuel cur

/-! ## The cursor of the store -/

/-- `garry_storage_cursor`. -/
structure StorageCursor where
  btreeCur : BtreeCursor
  txn : Int

namespace Engine

/-- `garry_storage_cursor_open`. -/
def cursorOpen (eng : Engine) (txn : Int) (pfx : Bytes) : Option StorageCursor :=
  (btreeCursorOpen eng.pool eng.btreeRoot pfx).map fun cur => ⟨cur, txn⟩

/-- What the descriptor of an entry leads to, as `garry_storage_cursor_next` and
`garry_storage_last` look it up. -/
def entryVersion (eng : Engine) (txn : Int) (lookup : Bytes) : Option Bytes :=
  if lookup.length = 0 ∨ lookup.length > lookupBufSize then none
  else
    let cid := decodeCidFromDescriptor lookup.toBuffer
    if cid < 0 then none else eng.mvccGet txn cid

/-- The version that `garry_storage_cursor_next` finds for the entry before the current slot. -/
def cursorVersion (eng : Engine) (cur : StorageCursor) : Option Bytes :=
  if cur.btreeCur.nodeLoaded = false then none
  else if cur.btreeCur.currentSlot = 0 then none
  else
    (cur.btreeCur.currentNode.entries[cur.btreeCur.currentSlot - 1]?).bind fun e =>
      eng.entryVersion cur.txn e.2

/-- What `garry_storage_cursor_next` stores in `value`: `none` for an entry that it skips. -/
def cursorValue (lz4 : Lz4) (eng : Engine) (val : Bytes) : Option (Option Bytes) :=
  if eng.compression = compressLz4 then
    (lz4.decompress val).map fun dec => if dec.length ≤ maxRecordSize then some dec else none
  else some (some val)

/-- The loop of `garry_storage_cursor_next`: the key found with what is stored in `value`, and the
cursor. Without `withValue` the caller passes no buffer for the value. -/
def cursorNextLoop (lz4 : Lz4) (eng : Engine) (withValue : Bool) :
    Nat → StorageCursor → Option (Option (Bytes × Option Bytes) × StorageCursor)
  | 0, _ => none
  | fuel + 1, cur =>
    match btreeCursorNext eng.pool cur.btreeCur with
    | none => none
    | some (none, btreeCur) => some (none, { cur with btreeCur := btreeCur })
    | some (some key, btreeCur) =>
      let cur := { cur with btreeCur := btreeCur }
      match eng.cursorVersion cur with
      | none => cursorNextLoop lz4 eng withValue fuel cur
      | some val =>
        if withValue then
          match eng.cursorValue lz4 val with
          | none => cursorNextLoop lz4 eng withValue fuel cur
          | some value => some (some (key, value), cur)
        else some (some (key, none), cur)

/-- Each round of the loop passes an entry of a leaf page or ends. -/
def cursorFuel (eng : Engine) : Nat := maxKeysPerNode * eng.pool.fuel + 1

/-- `garry_storage_cursor_next`. -/
def cursorNext (lz4 : Lz4) (eng : Engine) (withValue : Bool) (cur : StorageCursor) :
    Option (Option (Bytes × Option Bytes) × StorageCursor) :=
  if cur.btreeCur.exhausted then some (none, cur)
  else cursorNextLoop lz4 eng withValue eng.cursorFuel cur

/-- The loop of `garry_storage_cursor_skip_prefix`: the first key without the prefix is saved. -/
def cursorSkipPrefixLoop (lz4 : Lz4) (eng : Engine) (skip : Bytes) :
    Nat → StorageCursor → Option (Bool × StorageCursor)
  | 0, _ => none
  | fuel + 1, cur =>
    match eng.cursorNext lz4 false cur with
    | none => none
    | some (none, cur) => some (false, cur)
    | some (some (key, _), cur) =>
      if prefixMatch key skip then cursorSkipPrefixLoop lz4 eng skip fuel cur
      else some (true, { cur with btreeCur := { cur.btreeCur with savedKey := some key } })

/-- `garry_storage_cursor_skip_prefix`. Each round of the loop but the last passes an entry. -/
def cursorSkipPrefix (lz4 : Lz4) (eng : Engine) (skip : Bytes) (cur : StorageCursor) :
    Option (Bool × StorageCursor) :=
  if cur.btreeCur.exhausted then some (false, cur)
  else cursorSkipPrefixLoop lz4 eng skip (eng.cursorFuel + 1) cur

/-! ## Navigation -/

/-- `garry_storage_first`. -/
def storageFirst (lz4 : Lz4) (eng : Engine) (txn : Int) : Option (Option Bytes) :=
  if eng.txnIsActive txn = false then some none
  else do
    let cur ← eng.cursorOpen txn []
    let (found, _) ← eng.cursorNext lz4 false cur
    some (found.map Prod.fst)

/-- `garry_storage_exists`. -/
def storageExists (eng : Engine) (txn : Int) (key : Bytes) : Option Bool :=
  if key.length = 0 then some false
  else if eng.txnIsActive txn = false then some false
  else
    (leafFindSearch eng.pool eng.btreeRoot key).map fun lookup =>
      match lookup with
      | none => false
      | some lookup =>
        let cid := decodeCidFromDescriptor lookup.toBuffer
        if cid < 0 then false else eng.mvccExists txn cid

/-- `garry_storage_count`. -/
def storageCount (eng : Engine) (txn : Int) : Int :=
  if eng.txnIsActive txn = false then 0 else eng.keyCount

/-- The descent of `garry_storage_last` to the last leaf; `some none` at a node without keys. -/
def lastLeafLoop (pool : Pool) : Nat → Int → Option (Option Int)
  | 0, _ => none
  | fuel + 1, page =>
    let node := loadNode pool page
    if node.kind = .leaf then some (some page)
    else if node.entryCount = 0 then some none
    else lastLeafLoop pool fuel (node.child node.entryCount)

/-- The walk of `garry_storage_last` along `prev_page`. -/
def lastKeyLoop (eng : Engine) (txn : Int) : Nat → Int → Option (Option Bytes)
  | 0, _ => none
  | fuel + 1, page =>
    if page < 0 then some none
    else
      let node := loadNode eng.pool page
      match node.entries.reverse.find? fun e => (eng.entryVersion txn e.2).isSome with
      | some (key, _) => some (some key)
      | none => lastKeyLoop eng txn fuel node.prevPage

/-- `garry_storage_last`. -/
def storageLast (eng : Engine) (txn : Int) : Option (Option Bytes) :=
  if eng.txnIsActive txn = false then some none
  else
    match lastLeafLoop eng.pool eng.pool.fuel eng.btreeRoot with
    | none => none
    | some none => some none
    | some (some page) => eng.lastKeyLoop txn (eng.pool.fuel + 1) page

/-- The loop of `garry_storage_next_key`. -/
def nextKeyLoop (lz4 : Lz4) (eng : Engine) (after : Bytes) :
    Nat → StorageCursor → Option (Option Bytes)
  | 0, _ => none
  | fuel + 1, cur =>
    match eng.cursorNext lz4 false cur with
    | none => none
    | some (none, _) => some none
    | some (some (key, _), cur) =>
      if byteCompare key after > 0 then some (some key) else nextKeyLoop lz4 eng after fuel cur

/-- `garry_storage_next_key`. -/
def storageNextKey (lz4 : Lz4) (eng : Engine) (txn : Int) (after : Bytes) :
    Option (Option Bytes) :=
  if eng.txnIsActive txn = false then some none
  else if after.length = 0 then some none
  else (eng.cursorOpen txn []).bind fun cur => eng.nextKeyLoop lz4 after eng.cursorFuel cur

/-- The loop of `garry_storage_prev_key` with the key found so far. -/
def prevKeyLoop (lz4 : Lz4) (eng : Engine) (before : Bytes) :
    Nat → Option Bytes → StorageCursor → Option (Option Bytes)
  | 0, _, _ => none
  | fuel + 1, found, cur =>
    match eng.cursorNext lz4 false cur with
    | none => none
    | some (none, _) => some found
    | some (some (key, _), cur) =>
      prevKeyLoop lz4 eng before fuel (if byteCompare key before < 0 then some key else found) cur

/-- `garry_storage_prev_key`. -/
def storagePrevKey (lz4 : Lz4) (eng : Engine) (txn : Int) (before : Bytes) :
    Option (Option Bytes) :=
  if eng.txnIsActive txn = false then some none
  else if before.length = 0 then some none
  else (eng.cursorOpen txn []).bind fun cur => eng.prevKeyLoop lz4 before eng.cursorFuel none cur

end Engine

end Garry
