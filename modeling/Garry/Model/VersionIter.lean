import Garry.Model.Engine

/-!
# The versions of a key (`garry_version_iter` in `version_chain.c`)

An iterator has its own copy of the chain page; the values of overflow versions are read from the
pool when the iterator gets to them. Memory allocation succeeds.
-/

namespace Garry

open ByteStore

/-- `garry_version_iter`. -/
structure VersionIter where
  pageBuf : PageBuffer
  pageSize : Nat
  recordCount : Int
  nextSlot : Int

/-- What `garry_version_iter_next` hands out; the value of a tombstone is no buffer. -/
structure VersionEntry where
  txid : Int
  value : Option Bytes
  isTombstone : Bool
deriving DecidableEq, Repr

/-- `garry_version_iter_open`. The transaction is not looked at. -/
def Engine.versionIterOpen (eng : Engine) (key : Bytes) : Option (Option VersionIter) :=
  if key.length = 0 then some none
  else
    (leafFindSearch eng.pool eng.btreeRoot key).map fun lookup => do
      let cid := decodeCidFromDescriptor (← lookup).toBuffer
      if cid < 0 then none
      else
        let buf ← eng.pool.pinPage cid
        some {
          pageBuf := buf
          pageSize := eng.pool.pageSize
          recordCount := pageRecordCount buf
          nextSlot := pageRecordCount buf - 1 }

namespace VersionIter

/-- `garry_version_iter_next` with the pool of the call: the entry and the iterator, `none` when it
reports the end. -/
def next (pool : Pool) (it : VersionIter) : Option (VersionEntry × VersionIter) :=
  if it.nextSlot < 0 then none
  else
    (pageGet it.pageBuf it.nextSlot.toNat it.pageSize).bind fun recData =>
      if recData.length < chainEntryHeaderSize then none
      else
        let v := readVersion recData
        let it := { it with nextSlot := it.nextSlot - 1 }
        if v.isTombstone then some (⟨v.txidCreated, none, true⟩, it)
        else (versionValue pool v).map fun value => (⟨v.txidCreated, some value, false⟩, it)

/-- A call of `garry_version_iter_next` for each of the pools. -/
def drain : VersionIter → List Pool → List (Option VersionEntry)
  | _, [] => []
  | it, pool :: pools =>
    match it.next pool with
    | none => none :: drain it pools
    | some (entry, it) => some entry :: drain it pools

end VersionIter

end Garry
