import Garry.Model.SlottedPage
import Garry.Model.Pool

/-!
# Version chains (`version_chain.c`)

A chain page stores the versions of a key, the oldest first. A value above the inline capacity is
stored in a chain of overflow pages and its record holds the id of the first one.
-/

namespace Garry

open ByteStore

/-- `garry_chain_page_init`. -/
def chainPageInit (buf : PageBuffer) (pageSize : Nat) : PageBuffer := pageInit buf .chain 0 pageSize

/-- `garry_overflow_chunk_size`. -/
def overflowChunkSize (pageSize : Nat) : Nat := pageSize - pageHeaderSize - overflowPtrSize

/-- `garry_chain_inline_capacity`. -/
def chainInlineCapacity (pageSize : Nat) : Nat :=
  pageSize - pageHeaderSize - overflowPtrSize - chainEntryHeaderSize

/-- The 14 header bytes of a version record: `txid_created`, `txid_deleted`, `value_len`,
`is_tombstone` and the flags. -/
def versionHeader (txidCreated txidDeleted valueLen : Int) (isTombstone flags : UInt8) : Bytes :=
  word32 txidCreated ++ (word32 txidDeleted ++ (word32 valueLen ++ [isTombstone, flags]))

/-- `garry_chain_page_append`. -/
def chainPageAppend (buf : PageBuffer) (pageSize : Nat) (txn : Int) (value : Bytes) :
    Option PageBuffer :=
  if value.length > chainInlineCapacity pageSize then none
  else (pageInsert buf (versionHeader txn 0 value.length 0 0 ++ value)).map Prod.snd

/-- `garry_chain_page_append_tombstone`. -/
def chainPageAppendTombstone (buf : PageBuffer) (txn : Int) : Option PageBuffer :=
  (pageInsert buf (versionHeader txn 0 0 1 0)).map Prod.snd

/-- `garry_chain_page_append_overflow`. -/
def chainPageAppendOverflow (buf : PageBuffer) (txn : Int) (totalLen head : Int) :
    Option PageBuffer :=
  (pageInsert buf (versionHeader txn 0 totalLen 0 1 ++ word32 head)).map Prod.snd

/-! ## Overflow pages -/

/-- The overflow page of one chunk, the last one so far. -/
def overflowPage (buf : PageBuffer) (pageSize : Nat) (chunk : Bytes) : PageBuffer :=
  let buf := pageInit buf .overflow 0 pageSize
  writeInt32 (copyBytesIn buf (pageHeaderSize + overflowPtrSize) chunk) pageHeaderSize (-1)

/-- The store of `this_pid` in the previous page of the chain, which is then flushed. -/
def linkOverflow (pool : Pool) (prevPid thisPid : Int) : Pool :=
  if prevPid < 0 then pool
  else
    match pool.pinPage prevPid with
    | none => pool
    | some buf =>
      ((pool.setPage prevPid (writeInt32 buf pageHeaderSize thisPid)).markDirty prevPid).flushPage
        prevPid

/-- The loop of `garry_overflow_write` for the bytes still to be written: the head page and the
pool. Each round writes at least one byte, so the length is fuel enough. -/
def overflowWriteLoop : Nat → Pool → (head prevPid : Int) → Bytes → Int × Pool
  | 0, pool, head, prevPid, _ => (head, pool.flushPage prevPid)
  | fuel + 1, pool, head, prevPid, value =>
    if value = [] then (head, pool.flushPage prevPid)
    else
      let (thisPid, pool) := pool.allocate
      if thisPid < 0 then (-1, pool)
      else
        match pool.pinPage thisPid with
        | none => (-1, pool.freePage thisPid)
        | some buf =>
          let chunkCap := overflowChunkSize pool.pageSize
          let pool := linkOverflow pool prevPid thisPid
          let pool := (pool.setPage thisPid
            (overflowPage buf pool.pageSize (value.take chunkCap))).markDirty thisPid
          overflowWriteLoop fuel pool (if head = -1 then thisPid else head) thisPid
            (value.drop chunkCap)

/-- `garry_overflow_write`: the head page, or `-1`. -/
def overflowWrite (pool : Pool) (value : Bytes) : Int × Pool :=
  overflowWriteLoop value.length pool (-1) (-1) value

/-- The loop of `garry_overflow_read` with `remaining` bytes to go; each round reads at least
one. -/
def overflowReadLoop (pool : Pool) : Nat → Int → Nat → Option Bytes
  | 0, _, remaining => if remaining = 0 then some [] else none
  | fuel + 1, pid, remaining =>
    if remaining = 0 then some []
    else if pid < 0 then none
    else
      match pool.pinPage pid with
      | none => none
      | some buf =>
        let next := readInt32 buf pageHeaderSize
        let thisChunk := min (overflowChunkSize pool.pageSize) remaining
        (overflowReadLoop pool fuel next (remaining - thisChunk)).map
          (slice buf (pageHeaderSize + overflowPtrSize) thisChunk ++ ·)

/-- `garry_overflow_read`. -/
def overflowRead (pool : Pool) (head : Int) (totalLen : Nat) : Option Bytes :=
  overflowReadLoop pool totalLen head totalLen

/-- The loop of `garry_overflow_free`: `none` when it does not end. -/
def overflowFreeLoop : Nat → Pool → Int → Option Pool
  | 0, _, _ => none
  | fuel + 1, pool, pid =>
    if pid < 0 then some pool
    else
      match pool.tryPin pid with
      | none => some pool
      | some buf => overflowFreeLoop fuel (pool.freePage pid) (readInt32 buf pageHeaderSize)

/-- `garry_overflow_free`. A list of distinct pages is shorter than the fuel. -/
def overflowFree (pool : Pool) (head : Int) : Option Pool :=
  overflowFreeLoop (pool.nextPage.toNat + 1) pool head

/-! ## Reads -/

/-- The fields of a version record, with the bytes after them. -/
structure VersionRecord where
  txidCreated : Int
  txidDeleted : Int
  valueLen : Int
  isTombstone : Bool
  isOverflow : Bool
  rest : Store

/-- The fields as `garry_chain_page_find_visible` reads them. -/
def readVersion (recData : Bytes) : VersionRecord where
  txidCreated := readInt32 recData.toBuffer 0
  txidDeleted := readInt32 recData.toBuffer 4
  valueLen := readInt32 recData.toBuffer 8
  isTombstone := recData.toBuffer 12 ≠ 0
  isOverflow := (recData.toBuffer 13).toNat % 2 = 1
  rest i := recData.toBuffer (chainEntryHeaderSize + i)

/-- The test of a version against a snapshot. -/
def versionVisible (snapTxid : Int) (active : List Int) (v : VersionRecord) : Bool :=
  !(decide (v.txidCreated > snapTxid)) &&
    !(decide (v.txidDeleted ≠ 0 ∧ v.txidDeleted ≤ snapTxid)) &&
    !(active.any fun a => decide (a = v.txidCreated ∧ a ≠ snapTxid))

/-- The value of a version that is no tombstone. For a negative length `malloc` has no buffer. -/
def versionValue (pool : Pool) (v : VersionRecord) : Option Bytes :=
  if v.valueLen < 0 then none
  else if v.isOverflow then overflowRead pool (readInt32 v.rest 0) v.valueLen.toNat
  else some (slice v.rest 0 v.valueLen.toNat)

/-- The loop of `garry_chain_page_find_visible` over the records below `i`. -/
def findVisibleLoop (pool : Pool) (buf : PageBuffer) (pageSize : Nat) (snapTxid : Int)
    (active : List Int) : Nat → Option Bytes
  | 0 => none
  | i + 1 =>
    match pageGet buf i pageSize with
    | none => findVisibleLoop pool buf pageSize snapTxid active i
    | some recData =>
      if recData.length < chainEntryHeaderSize then
        findVisibleLoop pool buf pageSize snapTxid active i
      else
        let v := readVersion recData
        if versionVisible snapTxid active v then
          if v.isTombstone then none
          else (versionValue pool v).or (findVisibleLoop pool buf pageSize snapTxid active i)
        else findVisibleLoop pool buf pageSize snapTxid active i

/-- `garry_chain_page_find_visible`. -/
def chainPageFindVisible (pool : Pool) (buf : PageBuffer) (pageSize : Nat) (snapTxid : Int)
    (active : List Int) : Option Bytes :=
  findVisibleLoop pool buf pageSize snapTxid active (pageRecordCount buf).toNat

/-- The loop of `garry_chain_page_has_visible` over the records below `i`. -/
def hasVisibleLoop (buf : PageBuffer) (pageSize : Nat) (snapTxid : Int) (active : List Int) :
    Nat → Bool
  | 0 => false
  | i + 1 =>
    match pageGet buf i pageSize with
    | none => hasVisibleLoop buf pageSize snapTxid active i
    | some recData =>
      if recData.length < chainEntryHeaderSize then hasVisibleLoop buf pageSize snapTxid active i
      else
        let v := readVersion recData
        if versionVisible snapTxid active v then !v.isTombstone
        else hasVisibleLoop buf pageSize snapTxid active i

/-- `garry_chain_page_has_visible`. -/
def chainPageHasVisible (buf : PageBuffer) (pageSize : Nat) (snapTxid : Int)
    (active : List Int) : Bool :=
  hasVisibleLoop buf pageSize snapTxid active (pageRecordCount buf).toNat

/-! ## Pruning -/

/-- The rule for a version that is not the last: some active snapshot sees it and its creator is
not active. -/
def pruneVisible (active : List Int) (v : VersionRecord) : Bool :=
  active.any fun snap =>
    decide (v.txidCreated ≤ snap ∧ ¬ (v.txidDeleted ≠ 0 ∧ v.txidDeleted ≤ snap)) &&
      !(active.any fun a => decide (a = v.txidCreated))

/-- `keep[i]` of `garry_chain_page_prune` for the record at `i` of `recCount`. -/
def pruneKeeps (active : List Int) (recCount i : Nat) (recData : Bytes) : Bool :=
  if recData.length ≥ chainPruneMinLen then
    if i = recCount - 1 then true else pruneVisible active (readVersion recData)
  else true

/-- The overflow pages of the records that are not kept go back to the free list. -/
def pruneFree (pool : Pool) : List Bytes → Option Pool
  | [] => some pool
  | recData :: recs =>
    if recData.length ≥ chainEntryHeaderSize + 4 ∧ (readVersion recData).isOverflow ∧
        0 ≤ readInt32 recData.toBuffer 14 then
      (overflowFree pool (readInt32 recData.toBuffer 14)).bind fun pool => pruneFree pool recs
    else pruneFree pool recs

/-- The fresh page with the kept records; `none` when one of them does not fit. -/
def pruneInsert (buf : PageBuffer) : List Bytes → Option PageBuffer
  | [] => some buf
  | recData :: recs => (pageInsert buf recData).bind fun (_, buf) => pruneInsert buf recs

/-- `garry_chain_page_prune`: the pool and the page, `none` when an overflow chain to be freed does
not end. A record that cannot be read counts as an empty one. -/
def chainPagePrune (pool : Pool) (buf : PageBuffer) (pageSize : Nat) (active : List Int) :
    Option (Pool × PageBuffer) :=
  let recCount := (pageRecordCount buf).toNat
  if recCount ≤ 1 then some (pool, buf)
  else
    let recs := (List.range recCount).map fun i =>
      let recData := (pageGet buf i pageSize).getD []
      (recData, pruneKeeps active recCount i recData)
    (pruneFree pool ((recs.filter fun r => !r.2).map Prod.fst)).map fun pool =>
      match pruneInsert (chainPageInit (fun _ => 0) pageSize)
          ((recs.filter fun r => r.2).map Prod.fst) with
      | none => (pool, buf)
      | some tmp => (pool, fun j => if j < pageSize then tmp j else buf j)

end Garry
