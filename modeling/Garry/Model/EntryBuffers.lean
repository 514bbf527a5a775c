import Garry.Library.LocalArray
import Garry.Model.Recovery
import Garry.Model.VersionIter

/-!
# Local buffers (`version_chain.c`, `slotted_page.c`, `gc.c`)

The functions on chain pages with the stores into their local buffers: a result of `none` means that
one of the stores is past the end of the buffer.
-/

namespace Garry

open ByteStore LocalArray

/-- `GARRY_CHAIN_ENTRY_BUF_SIZE`. -/
abbrev chainEntryBufSize : Nat := maxRecordSize

/-- `GARRY_CHAIN_MAX_ACTIVE`. -/
abbrev chainMaxActive : Nat := 4

/-- A local buffer before the first store. -/
def entryBuf : Store := fun _ => 0

/-- `garry_chain_page_append` with its `entry_buf`. -/
def chainPageAppendLocal (buf : PageBuffer) (pageSize : Nat) (txn : Int) (value : Bytes) :
    Option (Option PageBuffer) :=
  if value.length > chainInlineCapacity pageSize then some none
  else
    (storeList maxRecordSize entryBuf 0 (versionHeader txn 0 value.length 0 0)).bind fun entry =>
      (storeList maxRecordSize entry chainEntryHeaderSize value).map fun entry =>
        (pageInsert buf (slice entry 0 (chainEntryHeaderSize + value.length))).map Prod.snd

/-- `garry_page_get` with its `data`, an array of `size` bytes: the length, and the array. -/
def pageGetInto (size : Nat) (data : Store) (buf : PageBuffer) (slotIdx pageSize : Nat) :
    Option (Option (Nat × Store)) :=
  if (slotIdx : Int) ≥ pageRecordCount buf then some none
  else
    let entry := readSlot buf slotIdx
    if entry.length + pageHeaderSize > pageSize then some none
    else
      (storeList size data 0 (slice buf entry.offset entry.length)).map fun data =>
        some (entry.length, data)

/-- A record in the `rec_data` of the functions below. -/
def fetchRecord (buf : PageBuffer) (slotIdx pageSize : Nat) : Option (Option Bytes) :=
  (pageGetInto chainEntryBufSize entryBuf buf slotIdx pageSize).map fun r =>
    r.map fun (rlen, recData) => slice recData 0 rlen

/-- The loop of `garry_chain_page_find_visible`. -/
def findVisibleLocal (pool : Pool) (buf : PageBuffer) (pageSize : Nat) (snapTxid : Int)
    (active : List Int) : Nat → Option (Option Bytes)
  | 0 => some none
  | i + 1 =>
    (fetchRecord buf i pageSize).bind fun r =>
      match r with
      | none => findVisibleLocal pool buf pageSize snapTxid active i
      | some recData =>
        if recData.length < chainEntryHeaderSize then
          findVisibleLocal pool buf pageSize snapTxid active i
        else
          let v := readVersion recData
          if versionVisible snapTxid active v then
            if v.isTombstone then some none
            else
              match versionValue pool v with
              | some value => some (some value)
              | none => findVisibleLocal pool buf pageSize snapTxid active i
          else findVisibleLocal pool buf pageSize snapTxid active i

/-- The loop of `garry_chain_page_has_visible`. -/
def hasVisibleLocal (buf : PageBuffer) (pageSize : Nat) (snapTxid : Int) (active : List Int) :
    Nat → Option Bool
  | 0 => some false
  | i + 1 =>
    (fetchRecord buf i pageSize).bind fun r =>
      match r with
      | none => hasVisibleLocal buf pageSize snapTxid active i
      | some recData =>
        if recData.length < chainEntryHeaderSize then
          hasVisibleLocal buf pageSize snapTxid active i
        else
          let v := readVersion recData
          if versionVisible snapTxid active v then some !v.isTombstone
          else hasVisibleLocal buf pageSize snapTxid active i

/-- The loop of `garry_chain_page_has_version` over the next `n` records from `i` on. -/
def hasVersionLocal (buf : PageBuffer) (pageSize : Nat) (txn : Int) : Nat → Nat → Option Bool
  | 0, _ => some false
  | n + 1, i =>
    (fetchRecord buf i pageSize).bind fun r =>
      match r with
      | none => hasVersionLocal buf pageSize txn n (i + 1)
      | some recData =>
        if recData.length ≥ 4 ∧ readInt32 recData.toBuffer 0 = txn then some true
        else hasVersionLocal buf pageSize txn n (i + 1)

/-- `garry_chain_page_prune`: its first loop gets every record, the others get some of them again. -/
def chainPagePruneLocal (pool : Pool) (buf : PageBuffer) (pageSize : Nat) (active : List Int) :
    Option (Option (Pool × PageBuffer)) :=
  let recCount := (pageRecordCount buf).toNat
  if recCount ≤ 1 then some (some (pool, buf))
  else
    ((List.range recCount).mapM fun i => fetchRecord buf i pageSize).map fun _ =>
      chainPagePrune pool buf pageSize active

/-- `garry_version_iter_next`. -/
def VersionIter.nextLocal (pool : Pool) (it : VersionIter) :
    Option (Option (VersionEntry × VersionIter)) :=
  if it.nextSlot < 0 then some none
  else
    (fetchRecord it.pageBuf it.nextSlot.toNat it.pageSize).map fun _ => it.next pool

/-- The snapshot of the active transactions in `garry_mvcc_gc`. -/
def Engine.gcSnapshot (eng : Engine) : Option (Nat → Int) :=
  storeList chainMaxActive (fun _ => 0) 0 eng.activeTxns

end Garry
