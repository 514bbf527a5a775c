import Garry.Model.BufferPool
import Garry.Model.VersionChain

/-!
# Overflow chains on the slots of the pool (`version_chain.c`)

`garry_overflow_write` and `garry_overflow_read` with the pins and evictions of every page they
touch.
-/

namespace Garry.BufferPool

open ByteStore

/-- The store of `this_pid` in the previous page of the chain, which is then released and flushed. -/
def linkOverflow (pool : BufferPool) (prevPid thisPid : Int) : BufferPool :=
  if prevPid < 0 then pool
  else
    match pool.pinPage prevPid with
    | none => pool
    | some (idx, pool) =>
      let pool := pool.storePage idx (writeInt32 (pool.slot idx).page pageHeaderSize thisPid)
      ((pool.markDirty prevPid).releasePage prevPid).flushPage prevPid

/-- The chunk and the link `-1` go into the pinned page, which is then released. -/
def finishOverflow (pool : BufferPool) (idx : Nat) (thisPid : Int) (chunk : Bytes) : BufferPool :=
  let page := copyBytesIn (pool.slot idx).page (pageHeaderSize + overflowPtrSize) chunk
  let pool := pool.storePage idx (writeInt32 page pageHeaderSize (-1))
  (pool.markDirty thisPid).releasePage thisPid

/-- The loop of `garry_overflow_write` for the bytes still to be written: the head page and the
pool, with the pages the loop allocated. Each round writes at least one byte, so the length is fuel
enough. -/
def overflowWriteLoop :
    Nat → BufferPool → (head prevPid : Int) → Bytes → Int × BufferPool × List Int
  | 0, pool, head, prevPid, _ => (head, pool.flushPage prevPid, [])
  | fuel + 1, pool, head, prevPid, value =>
    if value = [] then (head, pool.flushPage prevPid, [])
    else
      let (thisPid, pool) := pool.allocate
      if thisPid < 0 then (-1, pool, [])
      else
        match pool.pinPage thisPid with
        | none => (-1, pool.freePage thisPid, [thisPid])
        | some (idx, pool) =>
          let chunkCap := overflowChunkSize pool.pageSize
          let pool := pool.storePage idx (pageInit (pool.slot idx).page .overflow 0 pool.pageSize)
          let pool := pool.linkOverflow prevPid thisPid
          let pool := pool.finishOverflow idx thisPid (value.take chunkCap)
          let (head, pool, pids) := overflowWriteLoop fuel pool (if head = -1 then thisPid else head)
            thisPid (value.drop chunkCap)
          (head, pool, thisPid :: pids)

/-- `garry_overflow_write`: the head page or `-1`, the pool, and the pages the call allocated. -/
def overflowWrite (pool : BufferPool) (value : Bytes) : Int × BufferPool × List Int :=
  pool.overflowWriteLoop value.length (-1) (-1) value

/-- The loop of `garry_overflow_read` with `remaining` bytes to go; each round reads at least
one. -/
def overflowReadLoop : Nat → BufferPool → Int → Nat → Option Bytes × BufferPool
  | 0, pool, _, remaining => (if remaining = 0 then some [] else none, pool)
  | fuel + 1, pool, pid, remaining =>
    if remaining = 0 then (some [], pool)
    else if pid < 0 then (none, pool)
    else
      match pool.pinPage pid with
      | none => (none, pool)
      | some (idx, pool) =>
        let buf := (pool.slot idx).page
        let next := readInt32 buf pageHeaderSize
        let thisChunk := min (overflowChunkSize pool.pageSize) remaining
        let (rest, pool) :=
          overflowReadLoop fuel (pool.releasePage pid) next (remaining - thisChunk)
        (rest.map (slice buf (pageHeaderSize + overflowPtrSize) thisChunk ++ ·), pool)

/-- `garry_overflow_read`. -/
def overflowRead (pool : BufferPool) (head : Int) (totalLen : Nat) : Option Bytes × BufferPool :=
  pool.overflowReadLoop totalLen head totalLen

end Garry.BufferPool
