import Garry.Model.Pool

/-!
# The slots of the buffer pool (`buffer_pool.c`)

`Pool` shows a buffer pool as the map of its pages; this is the pool itself. The parallel arrays of
the source are one list of slots, a pinned buffer is the index of its slot, and the reads and writes
of the data file succeed.
-/

namespace Garry

open ByteStore

/-- One index of the arrays `pages`, `page_ids`, `pin_counts`, `dirty`, `loaded` and
`last_access`. -/
structure Slot where
  loaded : Bool
  pageId : Int
  dirty : Bool
  pinCount : Nat
  lastAccess : Nat
  page : PageBuffer

/-- A slot of a new pool. -/
def Slot.unused : Slot where
  loaded := false
  pageId := 0
  dirty := false
  pinCount := 0
  lastAccess := 0
  page := fun _ => 0

/-- The slot is loaded with the page. -/
def Slot.holds (slot : Slot) (pid : Int) : Bool := slot.loaded && slot.pageId == pid

/-- `garry_buffer_pool`; the capacity is the number of slots. -/
structure BufferPool where
  pageSize : Nat
  slots : List Slot
  file : DataFile
  nextPage : Int
  freeListHead : Int
  accessCounter : Nat

namespace BufferPool

/-- `garry_pool_create` on the data file. -/
def create (file : DataFile) (capacity pageSize : Nat) : BufferPool where
  pageSize := pageSize
  slots := List.replicate capacity Slot.unused
  file := file
  nextPage := 0
  freeListHead := -1
  accessCounter := 0

/-- `find_slot`. -/
def findSlot (pool : BufferPool) (pid : Int) : Option Nat := pool.slots.findIdx? (·.holds pid)

/-- The second loop of `find_eviction_candidate`, from slot `i` on. -/
def leastAccessed : List Slot → Nat → Option Nat → Nat → Option Nat
  | [], _, best, _ => best
  | slot :: slots, i, best, bestAccess =>
    if slot.pinCount = 0 ∧ slot.lastAccess < bestAccess then
      leastAccessed slots (i + 1) (some i) slot.lastAccess
    else leastAccessed slots (i + 1) best bestAccess

/-- `find_eviction_candidate`. -/
def findEvictionCandidate (pool : BufferPool) : Option Nat :=
  (pool.slots.findIdx? fun slot => !slot.loaded).or
    (leastAccessed pool.slots 0 none 4294967295)

/-- The slot at an index. -/
def slot (pool : BufferPool) (idx : Nat) : Slot := pool.slots.getD idx Slot.unused

def setSlot (pool : BufferPool) (idx : Nat) (slot : Slot) : BufferPool :=
  { pool with slots := pool.slots.set idx slot }

/-- The page of a dirty slot goes to the file; a slot that is not loaded is never dirty. -/
def writeBack (pool : BufferPool) (idx : Nat) : BufferPool :=
  if (pool.slot idx).dirty then
    { pool with
      file := pool.file.writePage pool.pageSize (pool.slot idx).pageId (pool.slot idx).page }
  else pool

/-- The counter after `access_counter++`. -/
def nextAccess (pool : BufferPool) : Nat := (pool.accessCounter + 1) % 4294967296

/-- The victim's slot gets a page, clean and not pinned; its old page is written back before. -/
def refill (pool : BufferPool) (victim : Nat) (pid : Int) (page : PageBuffer) : BufferPool :=
  { (pool.writeBack victim).setSlot victim {
      loaded := true
      pageId := pid
      dirty := false
      pinCount := 0
      lastAccess := pool.nextAccess
      page := page } with
    accessCounter := pool.nextAccess }

/-- `ensure_loaded`: the slot of the page. -/
def ensureLoaded (pool : BufferPool) (pid : Int) : Option (Nat × BufferPool) :=
  match pool.findSlot pid with
  | some idx => some (idx, pool)
  | none =>
    match pool.findEvictionCandidate with
    | none => none
    | some victim =>
      some (victim, pool.refill victim pid
        ((pool.writeBack victim).file.readPage pool.pageSize pid))

/-- One more pin of a slot. -/
def pinSlot (pool : BufferPool) (idx : Nat) : BufferPool :=
  { pool.setSlot idx { pool.slot idx with
      pinCount := (pool.slot idx).pinCount + 1
      lastAccess := pool.nextAccess } with
    accessCounter := pool.nextAccess }

/-- `garry_pool_pin_page`: the slot whose buffer it returns. -/
def pinPage (pool : BufferPool) (pid : Int) : Option (Nat × BufferPool) :=
  if pid < 0 then none
  else (pool.ensureLoaded pid).map fun (idx, pool) => (idx, pool.pinSlot idx)

/-- `garry_pool_try_pin`. -/
def tryPin (pool : BufferPool) (pid : Int) : Option (Nat × BufferPool) :=
  if pid < 0 then none else (pool.findSlot pid).map fun idx => (idx, pool.pinSlot idx)

/-- `garry_pool_release_page`. -/
def releasePage (pool : BufferPool) (pid : Int) : BufferPool :=
  if pid < 0 then pool
  else
    match pool.findSlot pid with
    | none => pool
    | some idx =>
      if (pool.slot idx).pinCount > 0 then
        pool.setSlot idx { pool.slot idx with pinCount := (pool.slot idx).pinCount - 1 }
      else pool

/-- `garry_pool_mark_dirty`. -/
def markDirty (pool : BufferPool) (pid : Int) : BufferPool :=
  if pid < 0 then pool
  else
    match pool.findSlot pid with
    | none => pool
    | some idx => pool.setSlot idx { pool.slot idx with dirty := true }

/-- Stores through a pinned buffer. -/
def storePage (pool : BufferPool) (idx : Nat) (page : PageBuffer) : BufferPool :=
  pool.setSlot idx { pool.slot idx with page := page }

/-- The counter after `next_page++`: past the largest id it is negative, which `garry_pool_allocate`
refuses. -/
def succPage (pid : Int) : Int := if pid < 2147483647 then pid + 1 else -2147483648

/-- What `garry_pool_allocate` takes for the page after the head of the free list: it looks only into
a slot. -/
def nextFree (pool : BufferPool) (freePid : Int) : Int :=
  match pool.findSlot freePid with
  | some freeIdx => readInt32 (pool.slot freeIdx).page 0
  | none => -1

/-- `garry_pool_allocate`: the page id, or `-1`. -/
def allocate (pool : BufferPool) : Int × BufferPool :=
  if pool.freeListHead ≥ 0 then
    let freePid := pool.freeListHead
    let pool := { pool with freeListHead := pool.nextFree freePid }
    match pool.findEvictionCandidate with
    | none => (-1, pool)
    | some victim => (freePid, pool.refill victim freePid fun _ => 0)
  else
    match pool.findEvictionCandidate with
    | none => (-1, pool)
    | some victim =>
      if pool.nextPage < 0 then (-1, pool)
      else
        let pid := pool.nextPage
        (pid, { pool with nextPage := succPage pid }.refill victim pid fun _ => 0)

/-- The first half of `garry_pool_free_page`: a loaded page is written back and leaves its slot. -/
def dropPage (pool : BufferPool) (pid : Int) : BufferPool :=
  match pool.findSlot pid with
  | none => pool
  | some idx =>
    (pool.writeBack idx).setSlot idx { pool.slot idx with
      loaded := false
      pinCount := 0
      dirty := false }

/-- The old head of the free list goes into the first word of a page. -/
def linkFree (pool : BufferPool) (idx : Nat) : BufferPool :=
  pool.setSlot idx { pool.slot idx with
    page := writeInt32 (pool.slot idx).page 0 pool.freeListHead
    dirty := true }

/-- `garry_pool_free_page`. -/
def freePage (pool : BufferPool) (pid : Int) : BufferPool :=
  if pid < 0 then pool
  else
    let pool := pool.dropPage pid
    match pool.ensureLoaded pid with
    | some (idx, pool) => { pool.linkFree idx with freeListHead := pid }
    | none => { pool with freeListHead := pid }

/-- A dirty slot is written and is clean then. -/
def flushSlot (pool : BufferPool) (idx : Nat) : BufferPool :=
  if (pool.slot idx).loaded ∧ (pool.slot idx).dirty then
    (pool.writeBack idx).setSlot idx { pool.slot idx with dirty := false }
  else pool

/-- `garry_pool_flush_page`. -/
def flushPage (pool : BufferPool) (pid : Int) : BufferPool :=
  if pid < 0 then pool
  else
    match pool.findSlot pid with
    | none => pool
    | some idx => pool.flushSlot idx

/-- `garry_pool_flush_all`, also the writes of `garry_pool_close`. -/
def flushAll (pool : BufferPool) : BufferPool :=
  (List.range pool.slots.length).foldl flushSlot pool

/-- The pool after a clean `garry_engine_close` and `garry_engine_open`, which carry `next_page`
and `free_list_head` over in the database header. -/
def reopen (pool : BufferPool) (capacity : Nat) : BufferPool :=
  { create pool.flushAll.file capacity pool.pageSize with
    nextPage := pool.nextPage
    freeListHead := pool.freeListHead }

end BufferPool

end Garry
