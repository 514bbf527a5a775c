import Garry.Model.Config

/-!
# The buffer pool as a page map (`buffer_pool.c`, `file_io.c`)

A pool is seen through its pins: `pages` is what a pin of a page shows, `file` what has been
written to the data file. Which pins and allocations fail, and which pages are resident, depends
on the frames; here it is the environment `PoolEnv`, which may be any.
-/

namespace Garry

open ByteStore

/-- The bytes of the data file. -/
structure DataFile where
  size : Nat
  bytes : Nat → UInt8

/-- A new data file. -/
def DataFile.empty : DataFile := ⟨0, fun _ => 0⟩

/-- `garry_file_read_page`: zeros where the file ends before the page does. -/
def DataFile.readPage (f : DataFile) (pageSize : Nat) (pageNum : Int) : PageBuffer :=
  if (pageNum.toNat + 1) * pageSize ≤ f.size then fun i => f.bytes (pageNum.toNat * pageSize + i)
  else fun _ => 0

/-- `garry_file_write_page`. -/
def DataFile.writePage (f : DataFile) (pageSize : Nat) (pageNum : Int) (buf : PageBuffer) :
    DataFile where
  size := max f.size ((pageNum.toNat + 1) * pageSize)
  bytes i :=
    if pageNum.toNat * pageSize ≤ i ∧ i < (pageNum.toNat + 1) * pageSize then
      buf (i - pageNum.toNat * pageSize)
    else f.bytes i

/-- What the frames and the file decide: the pins that fail, the allocations that find no frame
and the pages that are in a frame. -/
structure PoolEnv where
  pinFails : Int → Bool
  allocFails : Int → Bool
  resident : Int → Bool

/-- Page allocation and pins succeed. -/
structure PoolEnv.Serves (env : PoolEnv) : Prop where
  pin : ∀ pid, env.pinFails pid = false
  alloc : ∀ pid, env.allocFails pid = false

/-- `garry_buffer_pool`; `dirty` lists the pages marked dirty and not written since. -/
structure Pool where
  pageSize : Nat
  pages : Int → PageBuffer
  dirty : List Int
  file : DataFile
  nextPage : Int
  freeListHead : Int
  env : PoolEnv

/-- Distinct pages below a bound are no more than the bound. -/
theorem length_le_of_nodup {l : List Int} {n : Int} (hl : l.Nodup)
    (h : ∀ q ∈ l, 0 ≤ q ∧ q < n) : (l.length : Int) ≤ max n 0 := by
  have hsub : l.toFinset ⊆ Finset.Ico 0 n := fun q hq => by
    simpa using h q (List.mem_toFinset.mp hq)
  have hcard := Finset.card_le_card hsub
  rw [List.toFinset_card_of_nodup hl, Int.card_Ico] at hcard
  omega

namespace Pool

/-- `garry_pool_create` on a data file. -/
def create (file : DataFile) (pageSize : Nat) (env : PoolEnv) : Option Pool :=
  if pageSize < minPageSize ∨ pageSize > maxPageSize then none
  else some {
    pageSize := pageSize
    pages := file.readPage pageSize
    dirty := []
    file := file
    nextPage := 0
    freeListHead := -1
    env := env }

/-- The pool at a later time, when the frames hold other pages. -/
def withEnv (pool : Pool) (env : PoolEnv) : Pool := { pool with env := env }

/-- `garry_pool_pin_page`. -/
def pinPage (pool : Pool) (pid : Int) : Option PageBuffer :=
  if pid < 0 then none else if pool.env.pinFails pid then none else some (pool.pages pid)

/-- `garry_pool_try_pin`. -/
def tryPin (pool : Pool) (pid : Int) : Option PageBuffer :=
  if pid < 0 then none else if pool.env.resident pid then some (pool.pages pid) else none

/-- The bytes of a page after stores through the pinned pointer. -/
def setPage (pool : Pool) (pid : Int) (buf : PageBuffer) : Pool :=
  { pool with pages := Function.update pool.pages pid buf }

/-- `garry_pool_mark_dirty`. -/
def markDirty (pool : Pool) (pid : Int) : Pool :=
  { pool with dirty := pid :: pool.dirty }

/-- A page handed out by `garry_pool_allocate`. -/
def handOut (pool : Pool) (pid : Int) : Pool :=
  { pool with
    pages := Function.update pool.pages pid fun _ => 0
    dirty := pool.dirty.filter (· ≠ pid) }

/-- `garry_pool_allocate`: the page id, or `-1`. -/
def allocate (pool : Pool) : Int × Pool :=
  if pool.freeListHead ≥ 0 then
    let freePid := pool.freeListHead
    let pool := { pool with
      freeListHead := if pool.env.resident freePid then readInt32 (pool.pages freePid) 0 else -1 }
    if pool.env.allocFails freePid then (-1, pool) else (freePid, pool.handOut freePid)
  else if pool.env.allocFails pool.nextPage then (-1, pool)
  else if pool.nextPage < 0 then (-1, pool)
  else
    let pid := pool.nextPage
    (pid, { pool with nextPage := pid + 1 }.handOut pid)

/-- `garry_pool_free_page`. -/
def freePage (pool : Pool) (pid : Int) : Pool :=
  if pid < 0 then pool
  else
    let pool :=
      if pool.env.pinFails pid then pool
      else (pool.setPage pid (writeInt32 (pool.pages pid) 0 pool.freeListHead)).markDirty pid
    { pool with freeListHead := pid }

/-- `garry_pool_flush_page`, also the write of an evicted page. -/
def flushPage (pool : Pool) (pid : Int) : Pool :=
  if 0 ≤ pid ∧ pid ∈ pool.dirty then
    { pool with
      file := pool.file.writePage pool.pageSize pid (pool.pages pid)
      dirty := pool.dirty.filter (· ≠ pid) }
  else pool

/-- `garry_pool_flush_all`. -/
def flushAll (pool : Pool) : Pool := pool.dirty.foldl flushPage pool

/-! ## Pins that succeed -/

/-- Page allocation and pins succeed. -/
abbrev Serves (pool : Pool) : Prop := pool.env.Serves

theorem pinPage_eq {pool : Pool} (h : pool.Serves) (hp : 0 ≤ pid) :
    pool.pinPage pid = some (pool.pages pid) := by
  rw [Pool.pinPage, if_neg (by omega), h.pin]; rfl

theorem tryPin_or (pool : Pool) (pid : Int) :
    pool.tryPin pid = none ∨ pool.tryPin pid = some (pool.pages pid) := by
  rw [tryPin]; split
  · exact .inl rfl
  split
  · exact .inr rfl
  · exact .inl rfl

@[simp] theorem setPage_pages_self {pool : Pool} : (pool.setPage pid buf).pages pid = buf := by
  simp [setPage]

theorem setPage_pages_of_ne {pool : Pool} (h : q ≠ pid) :
    (pool.setPage pid buf).pages q = pool.pages q := by simp [setPage, h]

@[simp] theorem setPage_pageSize {pool : Pool} : (pool.setPage pid buf).pageSize = pool.pageSize :=
  rfl
@[simp] theorem setPage_nextPage {pool : Pool} : (pool.setPage pid buf).nextPage = pool.nextPage :=
  rfl
@[simp] theorem setPage_freeListHead {pool : Pool} :
    (pool.setPage pid buf).freeListHead = pool.freeListHead := rfl
@[simp] theorem setPage_env {pool : Pool} : (pool.setPage pid buf).env = pool.env := rfl
@[simp] theorem markDirty_pageSize {pool : Pool} : (pool.markDirty pid).pageSize = pool.pageSize :=
  rfl
@[simp] theorem markDirty_pages {pool : Pool} : (pool.markDirty pid).pages = pool.pages := rfl
@[simp] theorem markDirty_nextPage {pool : Pool} : (pool.markDirty pid).nextPage = pool.nextPage :=
  rfl
@[simp] theorem markDirty_freeListHead {pool : Pool} :
    (pool.markDirty pid).freeListHead = pool.freeListHead := rfl
@[simp] theorem markDirty_env {pool : Pool} : (pool.markDirty pid).env = pool.env := rfl

@[simp] theorem flushPage_pages {pool : Pool} : (pool.flushPage pid).pages = pool.pages := by
  rw [flushPage]
  split <;> rfl

@[simp] theorem flushPage_pageSize {pool : Pool} :
    (pool.flushPage pid).pageSize = pool.pageSize := by
  rw [flushPage]
  split <;> rfl

@[simp] theorem flushPage_env {pool : Pool} : (pool.flushPage pid).env = pool.env := by
  rw [flushPage]
  split <;> rfl

@[simp] theorem flushPage_nextPage {pool : Pool} :
    (pool.flushPage pid).nextPage = pool.nextPage := by
  rw [flushPage]
  split <;> rfl

@[simp] theorem flushPage_freeListHead {pool : Pool} :
    (pool.flushPage pid).freeListHead = pool.freeListHead := by
  rw [flushPage]
  split <;> rfl

/-! ## Pages in use -/

/-- The free list from `head`, linked through the first word of each page. -/
def FreeList (pages : Int → PageBuffer) : Int → List Int → Prop
  | head, [] => head = -1
  | head, p :: l => head = p ∧ 0 ≤ p ∧ FreeList pages (readInt32 (pages p) 0) l

/-- The pages in `used` are allocated and no later allocation returns one of them. -/
structure Owns (pool : Pool) (used : Set Int) : Prop where
  serves : pool.Serves
  next_nonneg : 0 ≤ pool.nextPage
  range : ∀ p ∈ used, 0 ≤ p ∧ p < pool.nextPage
  free : ∃ l, FreeList pool.pages pool.freeListHead l ∧ l.Nodup ∧
    ∀ p ∈ l, p ∉ used ∧ p < pool.nextPage

theorem FreeList.congr {pages pages' : Int → PageBuffer} (h : FreeList pages head l)
    (hp : ∀ p ∈ l, pages' p = pages p) : FreeList pages' head l := by
  induction l generalizing head with
  | nil => exact h
  | cons p l ih =>
    obtain ⟨h1, h2, h3⟩ := h
    refine ⟨h1, h2, ?_⟩
    rw [hp p (by simp)]
    exact ih h3 fun q hq => hp q (by simp [hq])

/-- A change of pages in use. -/
theorem Owns.congr {pool pool' : Pool} (h : pool.Owns used) (henv : pool'.env = pool.env)
    (hnext : pool'.nextPage = pool.nextPage) (hhead : pool'.freeListHead = pool.freeListHead)
    (hp : ∀ p, p ∉ used → pool'.pages p = pool.pages p) : pool'.Owns used := by
  obtain ⟨l, h1, h2, h3⟩ := h.free
  exact {
    serves := show pool'.env.Serves from henv ▸ h.serves
    next_nonneg := hnext ▸ h.next_nonneg
    range := hnext ▸ h.range
    free := ⟨l, hhead ▸ h1.congr fun p hm => hp p (h3 p hm).1, h2, hnext ▸ h3⟩ }

theorem Owns.setPage {pool : Pool} (h : pool.Owns used) (hp : pid ∈ used) :
    (pool.setPage pid buf).Owns used :=
  h.congr rfl rfl rfl fun _ hq => setPage_pages_of_ne fun e => hq (e ▸ hp)

/-- Which pages are resident does not matter. -/
theorem Owns.withEnv {pool : Pool} {env : PoolEnv} (h : pool.Owns used) (he : env.Serves) :
    (pool.withEnv env).Owns used :=
  ⟨he, h.next_nonneg, h.range, h.free⟩

theorem Owns.markDirty {pool : Pool} (h : pool.Owns used) : (pool.markDirty pid).Owns used :=
  h.congr rfl rfl rfl fun _ _ => rfl

theorem Owns.flushPage {pool : Pool} (h : pool.Owns used) : (pool.flushPage pid).Owns used :=
  h.congr flushPage_env flushPage_nextPage flushPage_freeListHead fun _ _ => by
    rw [flushPage_pages]

theorem Owns.mono {pool : Pool} (h : pool.Owns used) (hsub : used' ⊆ used) : pool.Owns used' := by
  obtain ⟨l, h1, h2, h3⟩ := h.free
  exact { h with
    range := fun p hp => h.range p (hsub hp)
    free := ⟨l, h1, h2, fun p hp => ⟨fun hu => (h3 p hp).1 (hsub hu), (h3 p hp).2⟩⟩ }

theorem Owns.head {pool : Pool} (h : pool.Owns used) :
    -1 ≤ pool.freeListHead ∧ pool.freeListHead < max pool.nextPage 0 := by
  obtain ⟨l, h1, -, h3⟩ := h.free
  match l, h1 with
  | [], h1 =>
    have h1 : pool.freeListHead = -1 := h1
    omega
  | p :: l, h1 =>
    have := (h3 p (by simp)).2
    have h0 := h1.1
    have h2 := h1.2.1
    omega

/-- An allocation returns a page that was not in use, filled with zeros, and changes no other. -/
theorem Owns.allocate {pool : Pool} (h : pool.Owns used) :
    ∃ pid pool', pool.allocate = (pid, pool') ∧ 0 ≤ pid ∧ pid ∉ used ∧ pid < pool'.nextPage ∧
      pool'.Owns (insert pid used) ∧ pool'.pageSize = pool.pageSize ∧ pool'.env = pool.env ∧
      pool.nextPage ≤ pool'.nextPage ∧ pool'.nextPage ≤ pool.nextPage + 1 ∧
      pool'.pages = Function.update pool.pages pid fun _ => 0 := by
  obtain ⟨l, h1, h2, h3⟩ := h.free
  have hn := h.next_nonneg
  by_cases hhead : pool.freeListHead ≥ 0
  · obtain ⟨p, l, rfl⟩ : ∃ p l', l = p :: l' := by
      cases l with
      | nil =>
        have h1 : pool.freeListHead = -1 := h1
        omega
      | cons p l => exact ⟨p, l, rfl⟩
    obtain ⟨hp, hp0, h1⟩ := h1
    obtain ⟨hpl, hl⟩ := List.nodup_cons.mp h2
    have hpu := h3 p (by simp)
    refine ⟨p, { pool with
      freeListHead := if pool.env.resident p then readInt32 (pool.pages p) 0 else -1 }.handOut p,
      ?_, hp0, hpu.1, hpu.2, ?_, rfl, rfl, le_refl _, ?_, rfl⟩
    · simp only [Pool.allocate, hp, h.serves.alloc, ge_iff_le, if_pos hp0]; rfl
    · refine ⟨⟨h.serves.pin, h.serves.alloc⟩, h.next_nonneg, ?_, ?_⟩
      · rintro q (rfl | hq)
        · exact ⟨hp0, hpu.2⟩
        · exact h.range q hq
      · by_cases hres : pool.env.resident p
        · refine ⟨l, ?_, hl, fun q hq => ⟨?_, (h3 q (by simp [hq])).2⟩⟩
          · simp only [handOut, hres, if_true]
            refine h1.congr fun q hq => Function.update_of_ne ?_ _ _
            rintro rfl
            exact hpl hq
          · rintro (rfl | hu)
            · exact hpl hq
            · exact (h3 q (by simp [hq])).1 hu
        · exact ⟨[], by simp [handOut, hres, FreeList], List.nodup_nil, by simp⟩
    · show pool.nextPage ≤ pool.nextPage + 1
      omega
  · have hnext : pool.nextPage ∉ used := fun hu => absurd (h.range _ hu).2 (by omega)
    have hlt : pool.nextPage < pool.nextPage + 1 := by omega
    refine ⟨pool.nextPage, { pool with nextPage := pool.nextPage + 1 }.handOut pool.nextPage,
      ?_, hn, hnext, hlt, ?_, rfl, rfl, hlt.le, le_refl _, rfl⟩
    · simp only [Pool.allocate, if_neg hhead, h.serves.alloc, if_neg (show ¬ pool.nextPage < 0 by
        omega)]
      rfl
    · refine ⟨⟨h.serves.pin, h.serves.alloc⟩, hn.trans hlt.le, ?_, l, ?_, h2, ?_⟩
      · rintro q (rfl | hq)
        · exact ⟨hn, hlt⟩
        · exact ⟨(h.range q hq).1, (h.range q hq).2.trans hlt⟩
      · refine h1.congr fun q hq => Function.update_of_ne ?_ _ _
        have := (h3 q hq).2
        omega
      · intro q hq
        obtain ⟨hqu, hqn⟩ := h3 q hq
        refine ⟨?_, hqn.trans hlt⟩
        rintro (rfl | hu)
        · omega
        · exact hqu hu

/-- A freed page leaves the pages in use. -/
theorem Owns.freePage {pool : Pool} (h : pool.Owns used) (hp : pid ∈ used)
    (hfits : Fits32 pool.freeListHead) : (pool.freePage pid).Owns (used \ {pid}) := by
  obtain ⟨l, h1, h2, h3⟩ := h.free
  obtain ⟨h0, hlt⟩ := h.range pid hp
  have hpl : pid ∉ l := fun hm => (h3 pid hm).1 hp
  rw [Pool.freePage, if_neg (by omega), h.serves.pin]
  refine ⟨⟨h.serves.pin, h.serves.alloc⟩, h.next_nonneg, fun q hq => h.range q hq.1, pid :: l,
    ⟨rfl, h0, ?_⟩, List.nodup_cons.mpr ⟨hpl, h2⟩, fun q hq => ?_⟩
  · simp only [markDirty_pages, Bool.false_eq_true, if_false, setPage_pages_self]
    rw [readInt32_writeInt32 _ _ hfits]
    refine h1.congr fun q hq => setPage_pages_of_ne ?_
    rintro rfl
    exact hpl hq
  · rcases List.mem_cons.mp hq with rfl | hq
    · exact ⟨fun hm => hm.2 rfl, hlt⟩
    · exact ⟨fun hm => (h3 q hq).1 hm.1, (h3 q hq).2⟩

theorem freePage_pages_of_ne {pool : Pool} (h : q ≠ pid) :
    (pool.freePage pid).pages q = pool.pages q := by
  rw [freePage]
  split
  · rfl
  simp only
  split
  · rfl
  · exact setPage_pages_of_ne h

theorem freePage_pageSize {pool : Pool} : (pool.freePage pid).pageSize = pool.pageSize := by
  simp only [freePage]
  split
  · rfl
  split <;> rfl

theorem freePage_env {pool : Pool} : (pool.freePage pid).env = pool.env := by
  simp only [freePage]
  split
  · rfl
  split <;> rfl

theorem freePage_nextPage {pool : Pool} : (pool.freePage pid).nextPage = pool.nextPage := by
  simp only [freePage]
  split
  · rfl
  split <;> rfl

end Pool

end Garry
