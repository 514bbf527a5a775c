import Garry.Verify.PoolCache

/-!
# The page map behind the slots

The engine is modelled over `Pool`, a map of pages with the pages that are dirty. A call of the slots is
the call of the map, with the write of the page that it evicts before it and with other frames after
it.
-/

namespace Garry

open ByteStore

/-- A pool that is closed and opened again, with the counters of the database header. -/
def Pool.reopen (pool : Pool) : Pool :=
  { pool.flushAll with
    pages := pool.flushAll.file.readPage pool.pageSize
    dirty := [] }

namespace BufferPool

variable {bp : BufferPool} {pool : Pool}

/-- What the slots decide for the page map. -/
def frames (bp : BufferPool) : PoolEnv where
  pinFails pid := (bp.findSlot pid).isNone && bp.findEvictionCandidate.isNone
  allocFails _ := bp.findEvictionCandidate.isNone
  resident pid := (bp.findSlot pid).isSome

/-- The slot can go: what is clean there is in the file. -/
def Clean (bp : BufferPool) (i : Nat) : Prop :=
  (bp.slot i).loaded = true → (bp.slot i).dirty = false →
    ∀ k < bp.pageSize, (bp.slot i).page k = bp.file.readPage bp.pageSize (bp.slot i).pageId k

/-- The slot is loaded with the page. -/
def In (bp : BufferPool) (p : Int) (i : Nat) : Prop :=
  (bp.slot i).loaded = true ∧ (bp.slot i).pageId = p

theorem in_iff : bp.In p i ↔ Holder bp.slots p i :=
  ⟨fun h => h.2 ▸ holder_of_slot h.1, holder_slot⟩

/-- The page map shows the pages of the slots and of the file. -/
structure Same (bp : BufferPool) (pool : Pool) : Prop where
  pageSize : pool.pageSize = bp.pageSize
  nextPage : pool.nextPage = bp.nextPage
  freeListHead : pool.freeListHead = bp.freeListHead
  one : ∀ {p i j}, bp.In p i → bp.In p j → i = j
  placed : ∀ i, bp.Placed i
  nonneg : ∀ {p i}, bp.In p i → 0 ≤ p
  paged : bp.file.Paged bp.pageSize
  pagedPool : pool.file.Paged bp.pageSize
  cached : ∀ {p i}, bp.In p i → ∀ k < bp.pageSize, pool.pages p k = (bp.slot i).page k
  dirty : ∀ {p i}, bp.In p i → (p ∈ pool.dirty ↔ (bp.slot i).dirty = true)
  clean : ∀ {p}, 0 ≤ p → (∀ i, ¬ bp.In p i) → p ∉ pool.dirty
  uncached : ∀ {p}, 0 ≤ p → (∀ i, ¬ bp.In p i) → ∀ k < bp.pageSize,
    pool.pages p k = bp.file.readPage bp.pageSize p k
  file : ∀ {p}, 0 ≤ p → ∀ k < bp.pageSize,
    pool.file.readPage bp.pageSize p k = bp.file.readPage bp.pageSize p k

namespace Same

theorem oneSlot (h : Same bp pool) : bp.OneSlot :=
  fun _ _ _ hi hj => h.one (in_iff.mpr hi) (in_iff.mpr hj)

theorem findSlot_eq_some (h : Same bp pool) : bp.findSlot p = some i ↔ bp.In p i :=
  h.oneSlot.findSlot_eq_some.trans in_iff.symm

/-- Counters, pins and frames do not matter. -/
theorem congr {bp' : BufferPool} {pool' : Pool} (h : Same bp pool)
    (hslot : ∀ i, (bp'.slot i).loaded = (bp.slot i).loaded ∧ (bp'.slot i).pageId = (bp.slot i).pageId ∧
      (bp'.slot i).dirty = (bp.slot i).dirty ∧ (bp'.slot i).page = (bp.slot i).page)
    (hfile : bp'.file = bp.file) (hps : bp'.pageSize = bp.pageSize)
    (hpages : pool'.pages = pool.pages) (hdirty : pool'.dirty = pool.dirty)
    (hfile' : pool'.file = pool.file) (hps' : pool'.pageSize = pool.pageSize)
    (hnext : pool'.nextPage = bp'.nextPage) (hhead : pool'.freeListHead = bp'.freeListHead) :
    Same bp' pool' := by
  have hin (p : Int) (i : Nat) : bp'.In p i ↔ bp.In p i := by
    obtain ⟨h1, h2, -⟩ := hslot i
    rw [In, In, h1, h2]
  exact {
    pageSize := by rw [hps', hps, h.pageSize]
    nextPage := hnext
    freeListHead := hhead
    one := fun hi hj => h.one ((hin _ _).mp hi) ((hin _ _).mp hj)
    placed := by
      intro i
      obtain ⟨h1, h2, h3, -⟩ := hslot i
      rw [Placed, h1, h2, h3]
      exact h.placed i
    nonneg := fun hi => h.nonneg ((hin _ _).mp hi)
    paged := by
      rw [hfile, hps]
      exact h.paged
    pagedPool := by
      rw [hfile', hps]
      exact h.pagedPool
    cached := by
      intro p i hi k hk
      rw [hpages, (hslot i).2.2.2]
      exact h.cached ((hin p i).mp hi) k (hps ▸ hk)
    dirty := by
      intro p i hi
      rw [hdirty, (hslot i).2.2.1]
      exact h.dirty ((hin p i).mp hi)
    clean := by
      intro p hp hno
      rw [hdirty]
      exact h.clean hp fun i hi => hno i ((hin p i).mpr hi)
    uncached := by
      intro p hp hno k hk
      rw [hpages, hfile, hps]
      exact h.uncached hp (fun i hi => hno i ((hin p i).mpr hi)) k (hps ▸ hk)
    file := by
      intro p hp k hk
      rw [hfile', hfile, hps]
      exact h.file hp k (hps ▸ hk) }

/-- The write of a slot that is dirty. -/
theorem flushSlot (h : Same bp pool) (hi : (bp.slot v).loaded = true) :
    Same (bp.flushSlot v) (pool.flushPage (bp.slot v).pageId) := by
  have hv : bp.In (bp.slot v).pageId v := ⟨hi, rfl⟩
  have h0 := h.nonneg hv
  have hkeep : bp.Keeps (bp.flushSlot v) := .flushSlot
  have hin (p : Int) (i : Nat) : (bp.flushSlot v).In p i ↔ bp.In p i := by
    rw [in_iff, in_iff, flushSlot_holder]
  have hpage (i : Nat) : ((bp.flushSlot v).slot i).page = (bp.slot i).page := by
    rw [flushSlot_slot]
    split
    · next hc => rw [hc.1]
    · rfl
  by_cases hd : (bp.slot v).dirty = true
  · have hslot (i : Nat) : (bp.flushSlot v).slot i =
        if i = v then { bp.slot v with dirty := false } else bp.slot i := by
      rw [flushSlot_slot]
      simp only [hi, hd, and_true]
    have hfile : (bp.flushSlot v).file =
        bp.file.writePage bp.pageSize (bp.slot v).pageId (bp.slot v).page := by
      rw [BufferPool.flushSlot, if_pos ⟨hi, hd⟩]
      show (bp.writeBack v).file = _
      rw [writeBack, if_pos hd]
    have hmem : (bp.slot v).pageId ∈ pool.dirty := (h.dirty hv).mpr hd
    have hpool : pool.flushPage (bp.slot v).pageId = { pool with
        file := pool.file.writePage pool.pageSize (bp.slot v).pageId (pool.pages (bp.slot v).pageId)
        dirty := pool.dirty.filter (· ≠ (bp.slot v).pageId) } := by
      rw [Pool.flushPage, if_pos ⟨h0, hmem⟩]
    have hnext : (bp.flushSlot v).nextPage = bp.nextPage := by
      rw [BufferPool.flushSlot, if_pos ⟨hi, hd⟩]
      simp [setSlot]
    have hhead : (bp.flushSlot v).freeListHead = bp.freeListHead := by
      rw [BufferPool.flushSlot, if_pos ⟨hi, hd⟩]
      simp [setSlot]
    rw [hpool]
    exact {
      pageSize := by rw [hkeep.pageSize, ← h.pageSize]
      nextPage := by rw [hnext, ← h.nextPage]
      freeListHead := by rw [hhead, ← h.freeListHead]
      one := fun hi hj => h.one ((hin _ _).mp hi) ((hin _ _).mp hj)
      placed := by
        intro i hdi
        rw [hslot] at hdi ⊢
        split at hdi
        · cases hdi
        · next hne =>
          rw [if_neg hne]
          exact h.placed i hdi
      nonneg := fun hi => h.nonneg ((hin _ _).mp hi)
      paged := by
        rw [hkeep.pageSize, hfile]
        exact h.paged.writePage
      pagedPool := by
        rw [hkeep.pageSize, h.pageSize]
        exact h.pagedPool.writePage
      cached := by
        intro p i hp k hk
        rw [hpage]
        exact h.cached ((hin p i).mp hp) k (hkeep.pageSize ▸ hk)
      dirty := by
        intro p i hp
        replace hp := (hin p i).mp hp
        rw [List.mem_filter, hslot]
        by_cases hiv : i = v
        · subst hiv
          rw [if_pos rfl, ← hp.2]
          simp
        · have hne : p ≠ (bp.slot v).pageId := by
            rintro rfl
            exact hiv (h.one hp hv)
          rw [if_neg hiv, h.dirty hp]
          simp [hne]
      clean := by
        intro p hp hno hm
        exact h.clean hp (fun i hi => hno i ((hin p i).mpr hi)) (List.mem_filter.mp hm).1
      uncached := by
        intro p hp hno k hk
        rw [hkeep.pageSize] at hk ⊢
        have hno' : ∀ i, ¬ bp.In p i := fun i hi => hno i ((hin p i).mpr hi)
        have hne : p ≠ (bp.slot v).pageId := by
          rintro rfl
          exact hno' v hv
        rw [hfile, h.paged.readPage_writePage h0 hp hk, if_neg hne]
        exact h.uncached hp hno' k hk
      file := by
        intro p hp k hk
        rw [hkeep.pageSize] at hk ⊢
        rw [hfile, h.pageSize, h.pagedPool.readPage_writePage h0 hp hk,
          h.paged.readPage_writePage h0 hp hk]
        split
        · exact h.cached hv k hk
        · exact h.file hp k hk }
  · have hsame : bp.flushSlot v = bp := by rw [BufferPool.flushSlot, if_neg fun hc => hd hc.2]
    have hpool : pool.flushPage (bp.slot v).pageId = pool := by
      rw [Pool.flushPage, if_neg fun hc => hd ((h.dirty hv).mp hc.2)]
    rw [hsame, hpool]
    exact h

/-- A slot that can go is emptied. -/
theorem unload (h : Same bp pool) {bp' : BufferPool} {new : Slot}
    (hslot : ∀ i, bp'.slot i = if i = v then new else bp.slot i) (hfile : bp'.file = bp.file)
    (hps : bp'.pageSize = bp.pageSize) (hnext : bp'.nextPage = bp.nextPage)
    (hhead : bp'.freeListHead = bp.freeListHead) (hload : new.loaded = false)
    (hdirty : new.dirty = false) (hclean : (bp.slot v).dirty = false) (hc : bp.Clean v) :
    Same bp' pool := by
  have hin (p : Int) (i : Nat) : bp'.In p i ↔ i ≠ v ∧ bp.In p i := by
    rw [In, hslot]
    split
    · next hi => simp [hi, hload]
    · next hi => simp [hi, In]
  have hout {p : Int} (hno : ∀ i, ¬ bp'.In p i) (i : Nat) (hi : bp.In p i) : i = v := by
    by_contra hne
    exact hno i ((hin p i).mpr ⟨hne, hi⟩)
  exact {
    pageSize := h.pageSize.trans hps.symm
    nextPage := h.nextPage.trans hnext.symm
    freeListHead := h.freeListHead.trans hhead.symm
    one := fun hi hj => h.one ((hin _ _).mp hi).2 ((hin _ _).mp hj).2
    placed := by
      intro i hd
      rw [hslot] at hd ⊢
      split at hd
      · rw [hdirty] at hd
        cases hd
      · next hne =>
        rw [if_neg hne]
        exact h.placed i hd
    nonneg := fun hi => h.nonneg ((hin _ _).mp hi).2
    paged := by
      rw [hfile, hps]
      exact h.paged
    pagedPool := by
      rw [hps]
      exact h.pagedPool
    cached := by
      intro p i hi k hk
      obtain ⟨hne, hi⟩ := (hin p i).mp hi
      rw [hslot, if_neg hne]
      exact h.cached hi k (hps ▸ hk)
    dirty := by
      intro p i hi
      obtain ⟨hne, hi⟩ := (hin p i).mp hi
      rw [hslot, if_neg hne]
      exact h.dirty hi
    clean := by
      intro p hp hno
      by_cases hv : bp.In p v
      · rw [h.dirty hv, hclean]
        exact Bool.false_ne_true
      · refine h.clean hp fun i hi => ?_
        obtain rfl := hout hno i hi
        exact hv hi
    uncached := by
      intro p hp hno k hk
      rw [hps] at hk ⊢
      rw [hfile]
      by_cases hv : bp.In p v
      · rw [h.cached hv k hk, hc hv.1 hclean k hk, hv.2]
      · refine h.uncached hp (fun i hi => ?_) k hk
        obtain rfl := hout hno i hi
        exact hv hi
    file := by
      intro p hp k hk
      rw [hps] at hk ⊢
      rw [hfile]
      exact h.file hp k hk }

/-- A slot that is empty, or has the page already, gets the page with other bytes. -/
theorem set (h : Same bp pool) {bp' : BufferPool} {pool' : Pool} (v : Nat) (new : Slot)
    (hslot : ∀ i, bp'.slot i = if i = v then new else bp.slot i) (hfile : bp'.file = bp.file)
    (hps : bp'.pageSize = bp.pageSize) (hload : new.loaded = true) (h0 : 0 ≤ new.pageId)
    (hother : ∀ i, bp.In new.pageId i → i = v)
    (hvict : (bp.slot v).loaded = true → (bp.slot v).pageId = new.pageId)
    (hps' : pool'.pageSize = pool.pageSize) (hfile' : pool'.file = pool.file)
    (hnext : pool'.nextPage = bp'.nextPage) (hhead : pool'.freeListHead = bp'.freeListHead)
    (hpage : ∀ k < bp.pageSize, pool'.pages new.pageId k = new.page k)
    (hpages : ∀ p, p ≠ new.pageId → pool'.pages p = pool.pages p)
    (hmark : new.pageId ∈ pool'.dirty ↔ new.dirty = true)
    (hmarks : ∀ p, p ≠ new.pageId → (p ∈ pool'.dirty ↔ p ∈ pool.dirty)) : Same bp' pool' := by
  have hself : bp'.In new.pageId v := by
    rw [In, hslot, if_pos rfl]
    exact ⟨hload, rfl⟩
  have hin {p : Int} {i : Nat} (hne : p ≠ new.pageId) : bp'.In p i ↔ bp.In p i := by
    rw [In, hslot]
    split
    · next hi =>
      subst hi
      refine iff_of_false (fun hp => hne hp.2.symm) fun hp => ?_
      exact hne (hp.2.symm.trans (hvict hp.1))
    · rfl
  have hsame {i : Nat} (hi : bp'.In new.pageId i) : i = v := by
    by_contra hne
    rw [In, hslot, if_neg hne] at hi
    exact hne (hother i hi)
  have hold {p : Int} {i : Nat} (hne : p ≠ new.pageId) (hi : bp.In p i) : bp'.slot i = bp.slot i := by
    rw [hslot, if_neg]
    rintro rfl
    exact hne (hi.2.symm.trans (hvict hi.1))
  exact {
    pageSize := by rw [hps', hps, h.pageSize]
    nextPage := hnext
    freeListHead := hhead
    one := by
      intro p i j hi hj
      by_cases hne : p = new.pageId
      · subst hne
        rw [hsame hi, hsame hj]
      · exact h.one ((hin hne).mp hi) ((hin hne).mp hj)
    placed := by
      intro i hd
      rw [hslot] at hd ⊢
      split
      · exact ⟨hload, h0⟩
      · next hne =>
        rw [if_neg hne] at hd
        exact h.placed i hd
    nonneg := by
      intro p i hi
      by_cases hne : p = new.pageId
      · rw [hne]
        exact h0
      · exact h.nonneg ((hin hne).mp hi)
    paged := by
      rw [hfile, hps]
      exact h.paged
    pagedPool := by
      rw [hfile', hps]
      exact h.pagedPool
    cached := by
      intro p i hi k hk
      rw [hps] at hk
      by_cases hne : p = new.pageId
      · subst hne
        rw [hsame hi, hslot, if_pos rfl]
        exact hpage k hk
      · have hi' := (hin hne).mp hi
        rw [hpages p hne, hold hne hi']
        exact h.cached hi' k hk
    dirty := by
      intro p i hi
      by_cases hne : p = new.pageId
      · subst hne
        rw [hsame hi, hslot, if_pos rfl]
        exact hmark
      · have hi' := (hin hne).mp hi
        rw [hmarks p hne, hold hne hi']
        exact h.dirty hi'
    clean := by
      intro p hp hno
      have hne : p ≠ new.pageId := by
        rintro rfl
        exact hno v hself
      rw [hmarks p hne]
      exact h.clean hp fun i hi => hno i ((hin hne).mpr hi)
    uncached := by
      intro p hp hno k hk
      have hne : p ≠ new.pageId := by
        rintro rfl
        exact hno v hself
      rw [hps] at hk ⊢
      rw [hfile, hpages p hne]
      exact h.uncached hp (fun i hi => hno i ((hin hne).mpr hi)) k hk
    file := by
      intro p hp k hk
      rw [hps] at hk ⊢
      rw [hfile', hfile]
      exact h.file hp k hk }

end Same

/-! ## Evictions -/

/-- The write of the page that a slot holds. -/
def evict (bp : BufferPool) (pool : Pool) (v : Nat) : Pool :=
  if (bp.slot v).loaded then pool.flushPage (bp.slot v).pageId else pool

@[simp] theorem evict_pages : (bp.evict pool v).pages = pool.pages := by
  rw [evict]
  split
  · exact Pool.flushPage_pages
  · rfl

@[simp] theorem evict_pageSize : (bp.evict pool v).pageSize = pool.pageSize := by
  rw [evict]
  split
  · exact Pool.flushPage_pageSize
  · rfl

@[simp] theorem evict_nextPage : (bp.evict pool v).nextPage = pool.nextPage := by
  rw [evict]
  split
  · exact Pool.flushPage_nextPage
  · rfl

@[simp] theorem evict_freeListHead : (bp.evict pool v).freeListHead = pool.freeListHead := by
  rw [evict]
  split
  · exact Pool.flushPage_freeListHead
  · rfl

@[simp] theorem evict_env : (bp.evict pool v).env = pool.env := by
  rw [evict]
  split
  · exact Pool.flushPage_env
  · rfl

theorem evict_eq (bp : BufferPool) (pool : Pool) (v : Nat) : ∃ q, bp.evict pool v = pool.flushPage q := by
  by_cases hl : (bp.slot v).loaded = true
  · exact ⟨(bp.slot v).pageId, if_pos hl⟩
  · -- No page has a negative id, and nothing is written.
    refine ⟨-1, (if_neg hl).trans ?_⟩
    rw [Pool.flushPage, if_neg fun hc => absurd hc.1 (by decide)]

theorem candidate_lt (hv : bp.findEvictionCandidate = some v) : v < bp.slots.length := by
  obtain ⟨slot, hs, -⟩ := findEvictionCandidate_spec hv
  exact (List.getElem?_eq_some_iff.mp hs).1

/-- A page that is clean stays so. -/
theorem evict_clean (h : p ∉ pool.dirty) : p ∉ (bp.evict pool v).dirty := by
  obtain ⟨q, hq⟩ := bp.evict_eq pool v
  rw [hq, Pool.flushPage]
  split
  · exact fun hm => h (List.mem_filter.mp hm).1
  · exact h

theorem flushSlot_file (hl : (bp.slot v).loaded = true) : (bp.flushSlot v).file = (bp.writeBack v).file := by
  rw [flushSlot, writeBack]
  by_cases hd : (bp.slot v).dirty = true
  · rw [if_pos ⟨hl, hd⟩, if_pos hd]
    simp only [setSlot]
  · rw [if_neg fun hc => hd hc.2, if_neg hd]

namespace Same

/-- A slot that can go is written back and emptied. -/
theorem empty (h : Same bp pool) {bp' : BufferPool} {new : Slot} (hc : bp.Clean v)
    (hslot : ∀ i, bp'.slot i = if i = v then new else bp.slot i)
    (hfile : bp'.file = (bp.writeBack v).file) (hps : bp'.pageSize = bp.pageSize)
    (hnext : bp'.nextPage = bp.nextPage) (hhead : bp'.freeListHead = bp.freeListHead)
    (hload : new.loaded = false) (hdirty : new.dirty = false) : Same bp' (bp.evict pool v) := by
  rw [evict]
  split
  · next hl =>
    have hkeep : bp.Keeps (bp.flushSlot v) := .flushSlot
    have hfields : (bp.flushSlot v).nextPage = bp.nextPage ∧
        (bp.flushSlot v).freeListHead = bp.freeListHead := by
      rw [BufferPool.flushSlot]
      split
      · simp [setSlot]
      · exact ⟨rfl, rfl⟩
    refine (h.flushSlot hl).unload (v := v) (fun i => ?_) (hfile.trans (flushSlot_file hl).symm)
      (hps.trans hkeep.pageSize.symm) (hnext.trans hfields.1.symm) (hhead.trans hfields.2.symm) hload
      hdirty ?_ ?_
    · rw [hslot, flushSlot_slot]
      split
      · rfl
      · next hne => rw [if_neg fun hc => hne hc.1]
    · rw [flushSlot_slot]
      split
      · rfl
      · next hd => simpa [hl] using hd
    · intro _ _ k hk
      rw [hkeep.pageSize] at hk ⊢
      rw [flushSlot_file hl, flushSlot_slot]
      have hv : bp.In (bp.slot v).pageId v := ⟨hl, rfl⟩
      split
      · next hd =>
        rw [writeBack_readPage h.paged (h.placed v) (h.nonneg hv) hk, if_pos ⟨hd.2.2, rfl⟩]
      · next hd =>
        replace hd : ¬ (bp.slot v).dirty = true := by simpa [hl] using hd
        rw [writeBack, if_neg hd]
        exact hc hl (by simpa using hd) k hk
  · next hl =>
    have hd : ¬ (bp.slot v).dirty = true := fun hd => hl (h.placed v hd).1
    rw [writeBack, if_neg hd] at hfile
    exact h.unload hslot hfile hps hnext hhead hload hdirty (by simpa using hd) fun hl' => absurd hl' hl

/-- The slot that a page takes, after the write of the page that was there. -/
theorem refill (h : Same bp pool) {pool' : Pool} {page : PageBuffer} (hv : v < bp.slots.length)
    (hc : bp.Clean v) (h0 : 0 ≤ pid) (hpid : ∀ i, bp.In pid i → i = v)
    (hps : pool'.pageSize = pool.pageSize) (hfile : pool'.file = (bp.evict pool v).file)
    (hnext : pool'.nextPage = bp.nextPage) (hhead : pool'.freeListHead = bp.freeListHead)
    (hpage : ∀ k < bp.pageSize, pool'.pages pid k = page k)
    (hpages : ∀ p, p ≠ pid → pool'.pages p = pool.pages p) (hmark : pid ∉ pool'.dirty)
    (hmarks : ∀ p, p ≠ pid → (p ∈ pool'.dirty ↔ p ∈ (bp.evict pool v).dirty)) :
    Same (bp.refill v pid page) pool' := by
  have hv' : v < (bp.writeBack v).slots.length := by rwa [writeBack_slots]
  have hempty (i : Nat) : ((bp.writeBack v).setSlot v Slot.unused).slot i =
      if i = v then Slot.unused else bp.slot i := by
    rw [slot_setSlot hv', writeBack_slot]
  have hmid := h.empty hc hempty rfl (by simp [setSlot]) (by simp [setSlot]) (by simp [setSlot]) rfl rfl
  have hmidps : ((bp.writeBack v).setSlot v Slot.unused).pageSize = bp.pageSize := by simp [setSlot]
  refine hmid.set v ⟨true, pid, false, 0, bp.nextAccess, page⟩ (fun i => ?_) rfl ?_ rfl
    h0 (fun i hi => ?_) (fun hl => ?_) (hps.trans evict_pageSize.symm) hfile
    (hnext.trans refill_nextPage.symm) (hhead.trans refill_freeListHead.symm)
    (fun k hk => hpage k (hmidps ▸ hk)) (fun p hp => (hpages p hp).trans ?_) ?_ hmarks
  · rw [hempty]
    split
    · next hi =>
      subst hi
      show ((bp.writeBack i).setSlot i _).slot i = _
      rw [slot_setSlot hv', if_pos rfl]
    · next hi => exact refill_slot hv hi
  · rw [refill_pageSize, hmidps]
  · rw [In, hempty] at hi
    split at hi
    · assumption
    · exact hpid i hi
  · rw [hempty, if_pos rfl] at hl
    cases hl
  · rw [evict_pages]
  · exact iff_of_false hmark Bool.false_ne_true

/-- `ensure_loaded`. -/
theorem ensureLoaded (h : Same bp pool) (h0 : 0 ≤ pid)
    (hc : bp.findSlot pid = none → ∀ v, bp.findEvictionCandidate = some v → bp.Clean v)
    (he : bp.ensureLoaded pid = some (idx, bp')) :
    ∃ qs : List Int, Same bp' (qs.foldl Pool.flushPage pool) ∧ bp'.In pid idx := by
  rw [BufferPool.ensureLoaded] at he
  cases hf : bp.findSlot pid with
  | some i =>
    rw [hf] at he
    obtain ⟨rfl, rfl⟩ := Prod.mk.inj (Option.some.inj he)
    exact ⟨[], h, h.findSlot_eq_some.mp hf⟩
  | none =>
    rw [hf] at he
    cases hv : bp.findEvictionCandidate with
    | none =>
      rw [hv] at he
      cases he
    | some v =>
      rw [hv] at he
      obtain ⟨rfl, rfl⟩ := Prod.mk.inj (Option.some.inj he)
      have hno (i : Nat) : ¬ bp.In pid i := fun hi => findSlot_eq_none.mp hf i (in_iff.mp hi)
      have hvl := candidate_lt hv
      obtain ⟨q, hq⟩ := bp.evict_eq pool v
      refine ⟨[q], ?_, in_iff.mpr ((holder_refill hvl).mpr (if_pos rfl ▸ rfl))⟩
      rw [List.foldl_cons, List.foldl_nil, ← hq]
      refine h.refill hvl (hc hf v hv) h0 (fun i hi => absurd hi (hno i)) evict_pageSize rfl
        (evict_nextPage.trans h.nextPage) (evict_freeListHead.trans h.freeListHead) (fun k hk => ?_)
        (fun p _ => by rw [evict_pages]) (evict_clean (h.clean h0 hno)) fun p _ => Iff.rfl
      rw [evict_pages, writeBack_readPage_of_none h.paged (h.placed v) h0 hk fun hh =>
        hno v (in_iff.mpr hh)]
      exact h.uncached h0 hno k hk

end Same

/-! ## Calls on one slot -/

namespace Same

theorem lt_length (hi : bp.In pid idx) : idx < bp.slots.length := by
  by_contra hlen
  have hl := hi.1
  rw [slot_of_length_le (Nat.le_of_not_lt hlen)] at hl
  cases hl

/-- The bytes that a pin shows. -/
theorem bytes (h : Same bp pool) (hi : bp.In pid idx) :
    slice (bp.slot idx).page 0 bp.pageSize = slice (pool.pages pid) 0 pool.pageSize := by
  rw [h.pageSize, slice, slice]
  apply List.map_congr_left
  intro k hk
  rw [Nat.zero_add]
  exact (h.cached hi k (List.mem_range.mp hk)).symm

/-- Pins do not matter. -/
theorem setPins (h : Same bp pool) {bp' : BufferPool} {new : Slot} (hi : bp.In pid idx)
    (hslots : bp'.slots = bp.slots.set idx new) (hfile : bp'.file = bp.file)
    (hps : bp'.pageSize = bp.pageSize) (hnext : bp'.nextPage = bp.nextPage)
    (hhead : bp'.freeListHead = bp.freeListHead) (hload : new.loaded = (bp.slot idx).loaded)
    (hid : new.pageId = (bp.slot idx).pageId) (hdirty : new.dirty = (bp.slot idx).dirty)
    (hpage : new.page = (bp.slot idx).page) : Same bp' pool := by
  have hslot (i : Nat) : bp'.slot i = if i = idx then new else bp.slot i := by
    rw [← slot_setSlot (lt_length hi) new, BufferPool.slot, hslots]
    rfl
  refine h.congr (fun i => ?_) hfile hps rfl rfl rfl rfl (h.nextPage.trans hnext.symm)
    (h.freeListHead.trans hhead.symm)
  rw [hslot]
  split
  · next hv => exact hv ▸ ⟨hload, hid, hdirty, hpage⟩
  · exact ⟨rfl, rfl, rfl, rfl⟩

theorem pinSlot (h : Same bp pool) (hi : bp.In pid idx) : Same (bp.pinSlot idx) pool :=
  h.setPins hi rfl rfl rfl rfl rfl rfl rfl rfl rfl

theorem releasePage (h : Same bp pool) : Same (bp.releasePage pid) pool := by
  rw [BufferPool.releasePage]
  split
  · exact h
  split
  · exact h
  · next idx hf =>
    split
    · exact h.setPins (h.findSlot_eq_some.mp hf) rfl rfl rfl rfl rfl rfl rfl rfl rfl
    · exact h

/-- A pin shows the same bytes before and after it. -/
theorem pinned (h : Same bp pool) (hi : bp.In pid idx) :
    slice ((bp.pinSlot idx).slot idx).page 0 (bp.pinSlot idx).pageSize =
      slice (pool.pages pid) 0 pool.pageSize := by
  have hi' : (bp.pinSlot idx).In pid idx := by
    have hslot : (bp.pinSlot idx).slot idx =
        { bp.slot idx with pinCount := (bp.slot idx).pinCount + 1, lastAccess := bp.nextAccess } :=
      (slot_setSlot (lt_length hi) _).trans (if_pos rfl)
    rw [In, hslot]
    exact hi
  exact (h.pinSlot hi).bytes hi'

theorem markDirty (h : Same bp pool) (hi : bp.In pid idx) :
    Same (bp.markDirty pid) (pool.markDirty pid) := by
  have h0 := h.nonneg hi
  rw [BufferPool.markDirty, if_neg (Int.not_lt.mpr h0), h.findSlot_eq_some.mpr hi]
  have hslot (i : Nat) : (bp.setSlot idx { bp.slot idx with dirty := true }).slot i =
      if i = idx then { bp.slot idx with dirty := true } else bp.slot i := slot_setSlot (lt_length hi) _
  refine h.set idx { bp.slot idx with dirty := true } hslot rfl rfl hi.1
    (hi.2 ▸ h0) (fun i hi' => ?_) (fun _ => rfl) rfl rfl h.nextPage h.freeListHead (fun k hk => ?_)
    (fun _ _ => rfl) ?_ fun p hp => ?_
  · exact h.one hi' ⟨hi.1, rfl⟩
  · exact h.cached ⟨hi.1, rfl⟩ k hk
  · exact iff_of_true (hi.2 ▸ List.mem_cons_self ..) rfl
  · rw [hi.2] at hp
    exact ⟨fun hm => (List.mem_cons.mp hm).resolve_left hp, List.mem_cons_of_mem _⟩

theorem storePage (h : Same bp pool) (hi : bp.In pid idx) (page : PageBuffer) :
    Same (bp.storePage idx page) (pool.setPage pid page) ∧ (bp.storePage idx page).In pid idx := by
  have hslot (i : Nat) : (bp.storePage idx page).slot i =
      if i = idx then { bp.slot idx with page := page } else bp.slot i := slot_setSlot (lt_length hi) _
  constructor
  · refine h.set idx { bp.slot idx with page := page } hslot rfl rfl hi.1
      (hi.2 ▸ h.nonneg hi) (fun i hi' => ?_) (fun _ => rfl) rfl rfl h.nextPage h.freeListHead
      (fun k hk => ?_) (fun p hp => ?_) (h.dirty ⟨hi.1, rfl⟩) fun _ _ => Iff.rfl
    · exact h.one hi' ⟨hi.1, rfl⟩
    · simp only [hi.2, Pool.setPage_pages_self]
    · exact Pool.setPage_pages_of_ne (hi.2 ▸ hp)
  · rw [In, hslot, if_pos rfl]
    exact hi

/-! ## Calls that write -/

theorem flushPage (h : Same bp pool) (h0 : 0 ≤ pid) :
    Same (bp.flushPage pid) (pool.flushPage pid) := by
  rw [BufferPool.flushPage, if_neg (Int.not_lt.mpr h0)]
  split
  · next hf =>
    have hno (i : Nat) : ¬ bp.In pid i := fun hi => findSlot_eq_none.mp hf i (in_iff.mp hi)
    rw [Pool.flushPage, if_neg fun hc => h.clean h0 hno hc.2]
    exact h
  · next idx hf =>
    obtain ⟨hl, rfl⟩ := h.findSlot_eq_some.mp hf
    exact h.flushSlot hl

/-- The slots are written one after the other. -/
theorem flushSlots (h : Same bp pool) (is : List Nat) :
    ∃ qs : List Int, Same (is.foldl BufferPool.flushSlot bp) (qs.foldl Pool.flushPage pool) := by
  induction is generalizing bp pool with
  | nil => exact ⟨[], h⟩
  | cons i is ih =>
    by_cases hl : (bp.slot i).loaded = true
    · obtain ⟨qs, hqs⟩ := ih (h.flushSlot hl)
      exact ⟨(bp.slot i).pageId :: qs, hqs⟩
    · have hsame : bp.flushSlot i = bp := by rw [BufferPool.flushSlot, if_neg fun hc => hl hc.1]
      rw [List.foldl_cons, hsame]
      exact ih h

theorem flushAll_self (h : ∀ p ∈ pool.dirty, ¬ 0 ≤ p) : pool.flushAll = pool := by
  have hfold (l : List Int) (hl : ∀ p ∈ l, ¬ 0 ≤ p) : l.foldl Pool.flushPage pool = pool := by
    induction l with
    | nil => rfl
    | cons p l ih =>
      rw [List.foldl_cons, Pool.flushPage, if_neg fun hc => hl p (List.mem_cons_self ..) hc.1]
      exact ih fun q hq => hl q (List.mem_cons_of_mem _ hq)
  exact hfold pool.dirty h

theorem flushAll (h : Same bp pool) : ∃ qs : List Int,
    Same bp.flushAll (qs.foldl Pool.flushPage pool) ∧
      (qs.foldl Pool.flushPage pool).flushAll = qs.foldl Pool.flushPage pool := by
  obtain ⟨qs, hqs⟩ := h.flushSlots (List.range bp.slots.length)
  refine ⟨qs, hqs, flushAll_self fun p hp h0 => ?_⟩
  by_cases hin : ∃ i, bp.flushAll.In p i
  · obtain ⟨i, hi⟩ := hin
    have hd : (bp.flushAll.slot i).dirty = true := (hqs.dirty hi).mp hp
    rw [flushAll_clean h.placed] at hd
    cases hd
  · exact hqs.clean h0 (not_exists.mp hin) hp

/-- A loaded page is written back and leaves its slot. -/
theorem dropPage (h : Same bp pool) (hc : ∀ i, bp.findSlot pid = some i → bp.Clean i) :
    ∃ qs : List Int, Same (bp.dropPage pid) (qs.foldl Pool.flushPage pool) ∧
      (bp.dropPage pid).findSlot pid = none := by
  rw [BufferPool.dropPage]
  cases hf : bp.findSlot pid with
  | none => exact ⟨[], h, hf⟩
  | some i =>
    have hi := h.findSlot_eq_some.mp hf
    have hlen : i < (bp.writeBack i).slots.length := by
      rw [writeBack_slots]
      exact lt_length hi
    have hslot (j : Nat) : ((bp.writeBack i).setSlot i
        { bp.slot i with loaded := false, pinCount := 0, dirty := false }).slot j =
        if j = i then { bp.slot i with loaded := false, pinCount := 0, dirty := false }
        else bp.slot j := by
      rw [slot_setSlot hlen, writeBack_slot]
    obtain ⟨q, hq⟩ := bp.evict_eq pool i
    refine ⟨[q], ?_, findSlot_eq_none.mpr fun j hj => ?_⟩
    · rw [List.foldl_cons, List.foldl_nil, ← hq]
      exact h.empty (hc i hf) hslot rfl (by simp [setSlot]) (by simp [setSlot]) (by simp [setSlot]) rfl rfl
    · replace hj := in_iff.mpr hj
      rw [In, hslot] at hj
      split at hj
      · cases hj.1
      · next hne => exact hne (h.one hj hi)

/-- The old head of the free list goes into the page, which becomes the head. -/
theorem linkFree (h : Same bp pool) (hi : bp.In pid idx) :
    Same { bp.linkFree idx with freeListHead := pid }
      { (pool.setPage pid (writeInt32 (pool.pages pid) 0 pool.freeListHead)).markDirty pid with
        freeListHead := pid } := by
  have hslot (i : Nat) : ({ bp.linkFree idx with freeListHead := pid } : BufferPool).slot i =
      if i = idx then { bp.slot idx with
        page := writeInt32 (bp.slot idx).page 0 bp.freeListHead
        dirty := true } else bp.slot i := slot_setSlot (lt_length hi) _
  refine h.set idx { bp.slot idx with
      page := writeInt32 (bp.slot idx).page 0 bp.freeListHead
      dirty := true } hslot rfl rfl hi.1 (hi.2 ▸ h.nonneg hi) (fun i hi' => ?_) (fun _ => rfl) rfl rfl
    h.nextPage rfl (fun k hk => ?_) (fun p hp => ?_) ?_ fun p hp => ?_
  · exact h.one hi' ⟨hi.1, rfl⟩
  · show (pool.setPage pid _).pages (bp.slot idx).pageId k = _
    rw [hi.2, Pool.setPage_pages_self, h.freeListHead]
    exact blit_congr (h.cached hi k hk)
  · exact Pool.setPage_pages_of_ne (hi.2 ▸ hp)
  · exact iff_of_true (hi.2 ▸ List.mem_cons_self ..) rfl
  · rw [hi.2] at hp
    exact ⟨fun hm => (List.mem_cons.mp hm).resolve_left hp, List.mem_cons_of_mem _⟩

end Same

/-- The slot that a page has left is free. -/
theorem dropPage_room (hf : bp.findSlot pid = some i) :
    ∃ v, (bp.dropPage pid).findEvictionCandidate = some v ∧ ((bp.dropPage pid).slot v).loaded = false := by
  have hlen : i < (bp.writeBack i).slots.length := by
    obtain ⟨slot, hs, -⟩ := (findSlot_eq_some.mp hf).1
    rw [writeBack_slots]
    exact (List.getElem?_eq_some_iff.mp hs).1
  have hfree : (bp.dropPage pid).slots[i]? =
      some { bp.slot i with loaded := false, pinCount := 0, dirty := false } := by
    rw [dropPage, hf]
    simp only [setSlot]
    rw [List.getElem?_set_self hlen]
  cases hv : (bp.dropPage pid).findEvictionCandidate with
  | some v => exact ⟨v, rfl, evict_unloaded hfree rfl hv⟩
  | none =>
    rw [findEvictionCandidate, Option.or_eq_none_iff] at hv
    have hall := List.findIdx?_eq_none_iff.mp hv.1 _ (List.mem_of_getElem? hfree)
    cases hall

theorem foldl_flushPage_fields (pool : Pool) (qs : List Int) :
    (qs.foldl Pool.flushPage pool).env = pool.env ∧
      (qs.foldl Pool.flushPage pool).nextPage = pool.nextPage ∧
      (qs.foldl Pool.flushPage pool).freeListHead = pool.freeListHead := by
  induction qs generalizing pool with
  | nil => exact ⟨rfl, rfl, rfl⟩
  | cons q qs ih =>
    obtain ⟨h1, h2, h3⟩ := ih (pool.flushPage q)
    exact ⟨h1.trans Pool.flushPage_env, h2.trans Pool.flushPage_nextPage,
      h3.trans Pool.flushPage_freeListHead⟩

namespace Same

theorem freePage (h : Same bp pool) (henv : pool.env = bp.frames) (h0 : 0 ≤ pid)
    (hdrop : ∀ i, bp.findSlot pid = some i → bp.Clean i)
    (hc : bp.findSlot pid = none → ∀ v, bp.findEvictionCandidate = some v → bp.Clean v) :
    ∃ qs : List Int, Same (bp.freePage pid) ((qs.foldl Pool.flushPage pool).freePage pid) := by
  obtain ⟨qs, hs, hnone⟩ := h.dropPage hdrop
  have hno : ¬ pid < 0 := Int.not_lt.mpr h0
  simp only [BufferPool.freePage, if_neg hno]
  cases he : (bp.dropPage pid).ensureLoaded pid with
  | none =>
    have hcand : (bp.dropPage pid).findEvictionCandidate = none := by
      rw [BufferPool.ensureLoaded, hnone] at he
      cases hv : (bp.dropPage pid).findEvictionCandidate with
      | none => rfl
      | some v =>
        rw [hv] at he
        cases he
    cases hf : bp.findSlot pid with
    | some i =>
      obtain ⟨v, hv, -⟩ := dropPage_room hf
      rw [hcand] at hv
      cases hv
    | none =>
      have hsame : bp.dropPage pid = bp := by rw [BufferPool.dropPage, hf]
      refine ⟨qs, ?_⟩
      have hfails : (qs.foldl Pool.flushPage pool).env.pinFails pid = true := by
        rw [hsame] at hcand
        rw [(foldl_flushPage_fields _ _).1, henv]
        simp [frames, hf, hcand]
      rw [Pool.freePage, if_neg hno, if_pos hfails]
      exact hs.congr (fun _ => ⟨rfl, rfl, rfl, rfl⟩) rfl rfl rfl rfl rfl rfl hs.nextPage rfl
  | some r =>
    obtain ⟨idx, bp'⟩ := r
    have hclean (v : Nat) (hv : (bp.dropPage pid).findEvictionCandidate = some v) :
        (bp.dropPage pid).Clean v := by
      cases hf : bp.findSlot pid with
      | none =>
        have hsame : bp.dropPage pid = bp := by rw [BufferPool.dropPage, hf]
        rw [hsame] at hv ⊢
        exact hc hf v hv
      | some i =>
        obtain ⟨v', hv', hl⟩ := dropPage_room hf
        obtain rfl := Option.some.inj (hv.symm.trans hv')
        exact fun hl' => absurd (hl'.symm.trans hl) (by decide)
    obtain ⟨qs', hs', hi⟩ := hs.ensureLoaded h0 (fun _ => hclean) he
    have hserves : ((qs ++ qs').foldl Pool.flushPage pool).env.pinFails pid = false := by
      rw [(foldl_flushPage_fields _ _).1, henv]
      cases hf : bp.findSlot pid with
      | some i => simp [frames, hf]
      | none =>
        have hsame : bp.dropPage pid = bp := by rw [BufferPool.dropPage, hf]
        rw [hsame, BufferPool.ensureLoaded, hf] at he
        cases hv : bp.findEvictionCandidate with
        | some v => simp [frames, hv]
        | none =>
          rw [hv] at he
          cases he
    refine ⟨qs ++ qs', ?_⟩
    rw [Pool.freePage, if_neg hno, hserves, List.foldl_append]
    exact hs'.linkFree hi

/-! ## Allocation -/

/-- A page that was not in use gets the victim's slot, with zeros. -/
theorem handOut (h : Same bp pool) (hv : bp.findEvictionCandidate = some v) (hc : bp.Clean v)
    (h0 : 0 ≤ pid) (hpid : ∀ i, bp.In pid i → i = v) :
    Same (bp.refill v pid fun _ => 0) ((bp.evict pool v).handOut pid) := by
  refine h.refill (candidate_lt hv) hc h0 hpid evict_pageSize rfl (evict_nextPage.trans h.nextPage)
    (evict_freeListHead.trans h.freeListHead) (fun k _ => ?_) (fun p hp => ?_) (fun hm => ?_) fun p hp => ?_
  · simp [Pool.handOut]
  · exact (Function.update_of_ne hp ..).trans (by rw [evict_pages])
  · simpa using (List.mem_filter.mp hm).2
  · refine List.mem_filter.trans (and_iff_left ?_)
    simpa using hp

/-- The counters do not matter to an eviction. -/
theorem flushPage_counters (q n m : Int) :
    ({ pool with nextPage := n, freeListHead := m } : Pool).flushPage q =
      { pool.flushPage q with nextPage := n, freeListHead := m } := by
  simp only [Pool.flushPage]
  split <;> rfl

theorem evict_counters (n m : Int) :
    ({ bp with nextPage := n, freeListHead := m } : BufferPool).evict
      { pool with nextPage := n, freeListHead := m } v =
        { bp.evict pool v with nextPage := n, freeListHead := m } := by
  rw [evict, evict]
  show (if (bp.slot v).loaded then _ else _) = _
  split
  · exact flushPage_counters _ n m
  · rfl

theorem counters (h : Same bp pool) (n m : Int) :
    Same { bp with nextPage := n, freeListHead := m } { pool with nextPage := n, freeListHead := m } :=
  h.congr (fun _ => ⟨rfl, rfl, rfl, rfl⟩) rfl rfl rfl rfl rfl rfl rfl rfl

theorem allocated (h : Same bp pool) (hv : bp.findEvictionCandidate = some v) (hc : bp.Clean v)
    (h0 : 0 ≤ pid) (hpid : ∀ i, bp.In pid i → i = v) (n m : Int) :
    Same (({ bp with nextPage := n, freeListHead := m } : BufferPool).refill v pid fun _ => 0)
      (({ bp.evict pool v with nextPage := n, freeListHead := m } : Pool).handOut pid) := by
  have hsame := (h.counters n m).handOut (v := v) hv hc h0 hpid
  rwa [evict_counters] at hsame

/-- The page after the head of the free list. -/
theorem nextFree (h : Same bp pool) (hps : 4 ≤ bp.pageSize) (henv : pool.env = bp.frames) :
    (if pool.env.resident pid then readInt32 (pool.pages pid) 0 else -1) = bp.nextFree pid := by
  rw [BufferPool.nextFree, henv]
  cases hf : bp.findSlot pid with
  | none => simp [frames, hf]
  | some i =>
    rw [if_pos (by simp [frames, hf])]
    refine readInt32_congr fun j hj => ?_
    exact h.cached (h.findSlot_eq_some.mp hf) _ (by omega)

theorem allocate (h : Same bp pool) (hps : 4 ≤ bp.pageSize) (henv : pool.env = bp.frames)
    (hn : bp.nextPage < 2147483647) (hfresh : 0 ≤ bp.nextPage → ∀ i, ¬ bp.In bp.nextPage i)
    (hc : ∀ v, bp.findEvictionCandidate = some v →
      (∀ i, bp.findSlot bp.freeListHead = some i → i = v) ∧ bp.Clean v) :
    ∃ qs : List Int, Same bp.allocate.2 (qs.foldl Pool.flushPage pool).allocate.2 ∧
      (qs.foldl Pool.flushPage pool).allocate.1 = bp.allocate.1 := by
  have hfails (pid : Int) : pool.env.allocFails pid = bp.findEvictionCandidate.isNone := by
    rw [henv]
    rfl
  have hcases := @allocate_cases bp bp.allocate.1 bp.allocate.2 rfl
  rcases hcases with ⟨h1, hhead, hv, h2⟩ | ⟨h1, hhead, hno, h2⟩ | ⟨v, hhead, h1, hv, h2⟩ |
    ⟨v, hhead, h0, h1, hv, h2⟩
  · refine ⟨[], ?_⟩
    have hsame := h.counters bp.nextPage (bp.nextFree bp.freeListHead)
    rw [h1, h2, List.foldl_nil, Pool.allocate, h.freeListHead, if_pos hhead]
    simp only [hfails, hv, h.nextFree hps henv, h.nextPage, Option.isNone_none, if_true, and_true]
    exact hsame
  · refine ⟨[], ?_⟩
    rw [h1, h2, List.foldl_nil, Pool.allocate, h.freeListHead, if_neg (Int.not_le.mpr hhead), hfails]
    rcases hno with hv | hneg
    · simp only [hv, Option.isNone_none, if_true, and_true]
      exact h
    · simp only [h.nextPage, if_pos hneg, ite_self, and_true]
      exact h
  · obtain ⟨hother, hclean⟩ := hc v hv
    obtain ⟨q, hq⟩ := bp.evict_eq pool v
    have hsame := h.allocated hv hclean hhead
      (fun i hi => hother i (h.findSlot_eq_some.mpr hi)) bp.nextPage (bp.nextFree bp.freeListHead)
    refine ⟨[q], ?_⟩
    rw [h1, h2, List.foldl_cons, List.foldl_nil, ← hq, Pool.allocate, evict_freeListHead, evict_env,
      evict_pages, evict_nextPage, h.freeListHead, h.nextPage, if_pos hhead]
    simp only [hfails, hv, h.nextFree hps henv, Option.isNone_some, Bool.false_eq_true, if_false, and_true]
    simp only [evict_pages, evict_env] at hsame
    exact hsame
  · have hclean := (hc v hv).2
    obtain ⟨q, hq⟩ := bp.evict_eq pool v
    have hsame := h.allocated hv hclean h0 (fun i hi => absurd hi (hfresh h0 i))
      (succPage bp.nextPage) bp.freeListHead
    refine ⟨[q], ?_⟩
    rw [h1, h2, List.foldl_cons, List.foldl_nil, ← hq, Pool.allocate, evict_freeListHead, evict_env,
      evict_pages, evict_nextPage, h.freeListHead, h.nextPage, if_neg (Int.not_le.mpr hhead)]
    simp only [hfails, hv, Option.isNone_some, Bool.false_eq_true, if_false, if_neg (Int.not_lt.mpr h0),
      and_true]
    rw [succPage, if_pos hn] at hsame ⊢
    simp only [evict_pages, evict_env] at hsame
    exact hsame

/-! ## Reopening -/

/-- Nothing is cached after a close and an open, and the pages are those of the file. -/
theorem reopen (h : Same bp pool) (capacity : Nat) :
    ∃ qs : List Int, Same (bp.reopen capacity) (qs.foldl Pool.flushPage pool).reopen := by
  obtain ⟨qs, hs, hall⟩ := h.flushAll
  obtain ⟨-, hnext, hhead⟩ := foldl_flushPage_fields pool qs
  have hkeep : bp.Keeps bp.flushAll := .flushAll
  have hslot (i : Nat) : (bp.reopen capacity).slot i = Slot.unused := by
    show (List.replicate capacity Slot.unused).getD i Slot.unused = _
    rw [List.getD_eq_getElem?_getD, List.getElem?_replicate]
    split <;> rfl
  have hno (p : Int) (i : Nat) : ¬ (bp.reopen capacity).In p i := by
    rw [In, hslot]
    exact fun hi => absurd hi.1 (by decide)
  have hfile {p : Int} (hp : 0 ≤ p) (k : Nat) (hk : k < bp.pageSize) :
      (qs.foldl Pool.flushPage pool).file.readPage bp.pageSize p k =
        bp.flushAll.file.readPage bp.pageSize p k := by
    rw [← hkeep.pageSize] at hk ⊢
    exact hs.file hp k hk
  refine ⟨qs, ?_⟩
  rw [Pool.reopen, hall]
  exact {
    pageSize := hs.pageSize.trans hkeep.pageSize
    nextPage := hnext.trans h.nextPage
    freeListHead := hhead.trans h.freeListHead
    one := fun hi _ => absurd hi (hno _ _)
    placed := by
      intro i hd
      rw [hslot] at hd
      cases hd
    nonneg := fun hi => absurd hi (hno _ _)
    paged := hkeep.pageSize ▸ hs.paged
    pagedPool := hkeep.pageSize ▸ hs.pagedPool
    cached := fun hi => absurd hi (hno _ _)
    dirty := fun hi => absurd hi (hno _ _)
    clean := fun _ _ => List.not_mem_nil
    uncached := by
      intro p hp _ k hk
      rw [hs.pageSize, hkeep.pageSize]
      exact hfile hp k hk
    file := fun hp k hk => hfile hp k hk }

theorem withEnv (h : Same bp pool) (env : PoolEnv) : Same bp (pool.withEnv env) :=
  h.congr (fun _ => ⟨rfl, rfl, rfl, rfl⟩) rfl rfl rfl rfl rfl rfl h.nextPage h.freeListHead

end Same

end BufferPool

/-! ## Answered calls -/

/-- What a call gives back: the page id of an allocation, the bytes that a pin shows. -/
inductive PoolAnswer
  | done
  | id (pid : Int)
  | bytes (page : Option Bytes)

/-- The answer of the slots to a call. -/
def PoolSession.answer (s : PoolSession) : PoolOp → PoolAnswer
  | .allocate => .id s.pool.allocate.1
  | .pin pid => .bytes ((s.pool.pinPage pid).map fun (idx, bp) => slice (bp.slot idx).page 0 bp.pageSize)
  | .tryPin pid =>
    .bytes ((s.pool.tryPin pid).map fun (idx, bp) => slice (bp.slot idx).page 0 bp.pageSize)
  | .write .. | .markDirty _ | .update .. | .release _ | .flush _ | .flushAll | .free _ | .reopen _ =>
    .done

/-- The calls of a session with their answers. -/
def PoolSession.answers (s : PoolSession) : List PoolOp → List (PoolOp × PoolAnswer)
  | [] => []
  | op :: ops => (op, s.answer op) :: (s.step op).answers ops

/-- A call on the page map, and its answer. -/
def Pool.call (pool : Pool) : PoolOp → PoolAnswer × Pool
  | .allocate => (.id pool.allocate.1, pool.allocate.2)
  | .pin pid => (.bytes ((pool.pinPage pid).map fun page => slice page 0 pool.pageSize), pool)
  | .tryPin pid => (.bytes ((pool.tryPin pid).map fun page => slice page 0 pool.pageSize), pool)
  | .write pid _ page => (.done, pool.setPage pid page)
  | .markDirty pid => (.done, pool.markDirty pid)
  | .update pid _ page => (.done, (pool.setPage pid page).markDirty pid)
  | .release _ => (.done, pool)
  | .flush pid => (.done, pool.flushPage pid)
  | .flushAll => (.done, pool.flushAll)
  | .free pid => (.done, pool.freePage pid)
  | .reopen _ => (.done, pool.reopen)

/-- The page map through calls with these answers. Between the calls a page may be evicted, and the
frames may change. -/
inductive Pool.Run : Pool → List (PoolOp × PoolAnswer) → Pool → Prop
  | refl : Run pool [] pool
  | evict {pid : Int} : Run (pool.flushPage pid) calls pool' → Run pool calls pool'
  | frames {env : PoolEnv} : Run (pool.withEnv env) calls pool' → Run pool calls pool'
  | call : Run (pool.call op).2 calls pool' → Run pool ((op, (pool.call op).1) :: calls) pool'

theorem Pool.Run.evicts (qs : List Int) (hr : Run (qs.foldl Pool.flushPage pool) calls pool') :
    Run pool calls pool' := by
  induction qs generalizing pool with
  | nil => exact hr
  | cons q qs ih => exact .evict (ih hr)

namespace PoolSession
open BufferPool

variable {s : PoolSession} {pool : Pool}

/-- A slot that is refilled can go, and no page gets a second slot; a page that is marked is in
a slot; the page ids do not run out. -/
def Settled (s : PoolSession) : PoolOp → Prop
  | .allocate => s.pool.nextPage < 2147483647 ∧ ∀ v, s.pool.findEvictionCandidate = some v →
      (∀ i, s.pool.findSlot s.pool.freeListHead = some i → i = v) ∧ s.pool.Clean v
  | .pin pid => s.pool.findSlot pid = none →
      ∀ v, s.pool.findEvictionCandidate = some v → s.pool.Clean v
  | .free pid => (∀ i, s.pool.findSlot pid = some i → s.pool.Clean i) ∧
      (s.pool.findSlot pid = none → ∀ v, s.pool.findEvictionCandidate = some v → s.pool.Clean v)
  | .markDirty pid => s.pool.findSlot pid ≠ none
  | _ => True

/-- A pin of the slots is a pin of the page map. -/
theorem same_pin (h : Same s.pool pool) (henv : pool.env = s.pool.frames) (h0 : 0 ≤ pid)
    (hc : s.pool.findSlot pid = none → ∀ v, s.pool.findEvictionCandidate = some v → s.pool.Clean v) :
    ∃ qs : List Int, Same (s.step (.pin pid)).pool (qs.foldl Pool.flushPage pool) ∧
      ((qs.foldl Pool.flushPage pool).call (.pin pid)).1 = s.answer (.pin pid) := by
  have hno : ¬ pid < 0 := Int.not_lt.mpr h0
  have hfails : pool.env.pinFails pid = (s.pool.ensureLoaded pid).isNone := by
    rw [henv, BufferPool.ensureLoaded]
    show ((s.pool.findSlot pid).isNone && s.pool.findEvictionCandidate.isNone) = _
    cases s.pool.findSlot pid with
    | some i => rfl
    | none => cases s.pool.findEvictionCandidate <;> rfl
  simp only [step, answer, Pool.call, BufferPool.pinPage, Pool.pinPage, if_neg hno]
  cases he : s.pool.ensureLoaded pid with
  | none =>
    refine ⟨[], h, ?_⟩
    rw [List.foldl_nil, hfails, he]
    rfl
  | some r =>
    obtain ⟨idx, bp⟩ := r
    obtain ⟨qs, hs, hi⟩ := h.ensureLoaded h0 hc he
    refine ⟨qs, hs.pinSlot hi, ?_⟩
    rw [(foldl_flushPage_fields _ _).1, hfails, he]
    exact congrArg (fun page => PoolAnswer.bytes (some page)) (hs.pinned hi).symm

theorem same_tryPin (h : Same s.pool pool) (henv : pool.env = s.pool.frames) (h0 : 0 ≤ pid) :
    Same (s.step (.tryPin pid)).pool pool ∧
      (pool.call (.tryPin pid)).1 = s.answer (.tryPin pid) := by
  have hno : ¬ pid < 0 := Int.not_lt.mpr h0
  simp only [step, answer, Pool.call, BufferPool.tryPin, Pool.tryPin, if_neg hno, henv, frames]
  cases hf : s.pool.findSlot pid with
  | none => exact ⟨h, rfl⟩
  | some idx =>
    have hi := h.findSlot_eq_some.mp hf
    exact ⟨h.pinSlot hi, congrArg (fun page => PoolAnswer.bytes (some page)) (h.pinned hi).symm⟩

/-- A call of the slots is the call of the page map, after the evictions. -/
theorem same_step (h : Same s.pool pool) (hinv : PoolInv False s) (hps : 4 ≤ s.pool.pageSize)
    (henv : pool.env = s.pool.frames) (ha : s.Allowed op) (hs : s.Settled op) :
    ∃ qs : List Int, Same (s.step op).pool ((qs.foldl Pool.flushPage pool).call op).2 ∧
      ((qs.foldl Pool.flushPage pool).call op).1 = s.answer op := by
  have howned {pid : Int} (hp : pid ∈ s.owned) : 0 ≤ pid := (hinv.range pid (.inl hp)).1
  have hpin {pid : Int} {idx : Nat} (hp : (pid, idx) ∈ s.pins) : s.pool.In pid idx :=
    h.findSlot_eq_some.mp (hinv.handle hp).2
  cases op with
  | allocate =>
    have hfresh (h0 : 0 ≤ s.pool.nextPage) (i : Nat) : ¬ s.pool.In s.pool.nextPage i := by
      intro hi
      have hlt := (hinv.loaded (in_iff.mp hi)).2
      rw [idBound, if_neg (Int.not_lt.mpr h0)] at hlt
      exact absurd hlt (Int.lt_irrefl _)
    obtain ⟨qs, hq, hid⟩ := h.allocate hps henv hs.1 hfresh hs.2
    refine ⟨qs, ?_, congrArg PoolAnswer.id hid⟩
    simp only [step]
    split <;> exact hq
  | pin pid => exact same_pin h henv (howned ha) hs
  | tryPin pid => exact ⟨[], same_tryPin h henv (howned ha)⟩
  | write pid idx page => exact ⟨[], (h.storePage (hpin ha) page).1, rfl⟩
  | markDirty pid =>
    obtain ⟨idx, hf⟩ := Option.ne_none_iff_exists'.mp hs
    exact ⟨[], h.markDirty (h.findSlot_eq_some.mp hf), rfl⟩
  | update pid idx page =>
    obtain ⟨hq, hi⟩ := h.storePage (hpin ha) page
    exact ⟨[], hq.markDirty hi, rfl⟩
  | release pid => exact ⟨[], h.releasePage, rfl⟩
  | flush pid => exact ⟨[], h.flushPage (howned ha), rfl⟩
  | flushAll =>
    obtain ⟨qs, hq, hall⟩ := h.flushAll
    refine ⟨qs, ?_, rfl⟩
    show Same s.pool.flushAll (qs.foldl Pool.flushPage pool).flushAll
    rw [hall]
    exact hq
  | free pid =>
    obtain ⟨qs, hq⟩ := h.freePage henv (howned ha) hs.1 hs.2
    exact ⟨qs, hq, rfl⟩
  | reopen capacity =>
    obtain ⟨qs, hq⟩ := h.reopen capacity
    exact ⟨qs, hq, rfl⟩

/-- The slots of a session that settles run as the page map does. -/
theorem same_run (h : Same s.pool pool) (hinv : PoolInv False s) (hps : 4 ≤ s.pool.pageSize)
    (hl : s.Legal (fun s op => s.Allowed op ∧ s.Settled op) ops) :
    ∃ pool', pool.Run (s.answers ops) pool' ∧ Same (s.steps ops).pool pool' := by
  induction ops generalizing s pool with
  | nil => exact ⟨pool, .refl, h⟩
  | cons op ops ih =>
    obtain ⟨⟨ha, hs⟩, hl⟩ := hl
    have hkeep := s.keeps op
    obtain ⟨qs, hq, hanswer⟩ := same_step (h.withEnv s.pool.frames) hinv hps rfl ha hs
    obtain ⟨pool', hr, hsame⟩ := ih hq (hinv.step ha False.elim) (hkeep.pageSize ▸ hps) hl
    refine ⟨pool', ?_, hsame⟩
    rw [answers, ← hanswer]
    exact .frames (.evicts qs (.call hr))

theorem same_start (file : DataFile) (capacity pageSize next : Nat) (hw : file.Paged pageSize) :
    Same (PoolSession.start file capacity pageSize next).pool
      ⟨pageSize, file.readPage pageSize, [], file, next, -1, env⟩ := by
  have hslot (i : Nat) : (PoolSession.start file capacity pageSize next).pool.slot i = Slot.unused := by
    show (List.replicate capacity Slot.unused).getD i Slot.unused = _
    rw [List.getD_eq_getElem?_getD, List.getElem?_replicate]
    split <;> rfl
  have hno (p : Int) (i : Nat) : ¬ (PoolSession.start file capacity pageSize next).pool.In p i := by
    rw [In, hslot]
    exact fun hi => absurd hi.1 (by decide)
  exact {
    pageSize := rfl
    nextPage := rfl
    freeListHead := rfl
    one := fun hi _ => absurd hi (hno _ _)
    placed := by
      intro i hd
      rw [hslot] at hd
      cases hd
    nonneg := fun hi => absurd hi (hno _ _)
    paged := hw
    pagedPool := hw
    cached := fun hi => absurd hi (hno _ _)
    dirty := fun hi => absurd hi (hno _ _)
    clean := fun _ _ => List.not_mem_nil
    uncached := fun _ _ _ _ => rfl
    file := fun _ _ _ => rfl }

end PoolSession

/-- Every session on the slots that settles is a run of the page map with the same answers: the
same page ids, and the same bytes behind every pin. -/
theorem slots_refine (file : DataFile) (capacity pageSize next : Nat) (env : PoolEnv) {pool : Pool}
    (hn : next ≤ 2147483647) (hw : file.Paged pageSize)
    (hcreate : Pool.create file pageSize env = some pool)
    (hl : (PoolSession.start file capacity pageSize next).Legal
      (fun s op => s.Allowed op ∧ s.Settled op) ops) :
    ∃ pool', ({ pool with nextPage := next } : Pool).Run
        ((PoolSession.start file capacity pageSize next).answers ops) pool' ∧
      (((PoolSession.start file capacity pageSize next).steps ops).pool).Same pool' := by
  rw [Pool.create] at hcreate
  split at hcreate
  · cases hcreate
  · next hps =>
    obtain rfl := Option.some.inj hcreate
    refine PoolSession.same_run (PoolSession.same_start file capacity pageSize next hw)
      (.start file capacity pageSize hn) ?_ hl
    show 4 ≤ pageSize
    have hmin : minPageSize ≤ pageSize := Nat.le_of_not_lt fun hlt => hps (.inl hlt)
    exact Nat.le_trans (by decide) hmin

theorem slots_refine_reload : ∃ pool pool' : Pool, pool.Run
    ((PoolSession.start .empty 1 512 0).answers
      [.allocate, .pin 0, .update 0 0 fun _ => 7, .release 0, .allocate, .pin 0]) pool' ∧
      pool'.pages 0 0 = 7 := by
  have hv {s : PoolSession} {v : Nat} (h0 : s.pool.findEvictionCandidate = some 0)
      (hv : s.pool.findEvictionCandidate = some v) : v = 0 := Option.some.inj (hv.symm.trans h0)
  have hno {s : PoolSession} {i v : Nat} (h0 : s.pool.findSlot s.pool.freeListHead = none)
      (hi : s.pool.findSlot s.pool.freeListHead = some i) : i = v := by
    rw [h0] at hi
    cases hi
  have hl : (PoolSession.start .empty 1 512 0).Legal (fun s op => s.Allowed op ∧ s.Settled op)
      [.allocate, .pin 0, .update 0 0 fun _ => 7, .release 0, .allocate, .pin 0] := by
    refine ⟨⟨by decide, by decide, fun v h => ⟨fun i => hno (by decide), ?_⟩⟩,
      ⟨by decide, fun h => absurd h (by decide)⟩, ⟨by decide, trivial⟩, ⟨by decide, trivial⟩,
      ⟨by decide, by decide, fun v h => ⟨fun i => hno (by decide), ?_⟩⟩,
      ⟨by decide, fun _ v h => ?_⟩, trivial⟩
    · obtain rfl := hv (by decide) h
      exact fun hl => absurd hl (by decide)
    · obtain rfl := hv (by decide) h
      exact fun _ hd => absurd hd (by decide)
    · obtain rfl := hv (by decide) h
      exact fun _ _ _ _ => rfl
  obtain ⟨pool', hr, hsame⟩ := slots_refine .empty 1 512 0
    ⟨fun _ => false, fun _ => false, fun _ => false⟩ (by decide) .empty rfl hl
  exact ⟨_, pool', hr,
    (hsame.cached (p := 0) (i := 0) ⟨by decide, by decide⟩ 0 (by decide)).trans (by decide)⟩

end Garry
