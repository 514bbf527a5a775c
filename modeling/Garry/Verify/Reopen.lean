import Garry.Verify.EngineHistory
import Garry.Verify.TxnIds

/-!
# The page size of a reopened database

`garry_engine_open` learns the page size from a read of 64 KiB, which gives zeros when the file is
shorter; it then takes the default size.
-/

namespace Garry

open ByteStore

variable {pool : Pool} {lz4 : Lz4} {ps : Nat} {eng eng' : Engine}

/-! ## The header page -/

/-- The file holds the header page as the pool has it. -/
def HeaderStored (pool : Pool) : Prop :=
  pool.pageSize ≤ pool.file.size ∧
    ∀ i < pool.pageSize, pool.file.bytes i = pool.pages headerPage i

theorem PageStored.header (h : PageStored pool headerPage) : HeaderStored pool := by
  rw [HeaderStored]
  simpa only [PageStored, headerPage, Int.toNat_zero, Nat.zero_add, Nat.one_mul, Nat.zero_mul] using h

theorem headerStored_flushAll (hd : headerPage ∈ pool.dirty) : HeaderStored pool.flushAll :=
  (pageStored_flushAll le_rfl (.inr hd)).header

theorem pageSize_writeDbHeader (buf : PageBuffer) {header : DbHeader} (h : Fits32 header.pageSize) :
    readInt32 (writeDbHeader buf header) hdrOffPageSize = header.pageSize := by
  simp only [writeDbHeader, writeHeaderFields]
  simp (disch := decide) only [readInt32_writeInt32_of_ne]
  exact readInt32_writeInt32 _ _ h

namespace Engine

/-- One page size for the pool, the engine and the header. -/
structure HasPageSize (ps : Nat) (eng : Engine) : Prop where
  pool : eng.pool.pageSize = ps
  engine : eng.pageSize = ps
  header : eng.header.pageSize = ps

/-- The page sizes that `garry_create_db_header` admits. -/
def Admitted (ps : Nat) : Prop := minPageSize ≤ ps ∧ ps ≤ maxPageSize ∧ minPageSize ∣ ps

/-- The header can be pinned when the database is closed. -/
def ClosesClean (eng : Engine) : Prop := eng.pool.env.pinFails headerPage = false

/-- The engines of a database with pages of `ps` bytes, as long as it opens with this page size. -/
inductive Lifetime (lz4 : Lz4) (ps : Nat) : Engine → Prop
  | create {file : DataFile} {log : Bytes} {env : PoolEnv} {settings : EngineSettings} {eng : Engine} :
    settings.pageSize = ps → engineInit file log env settings = some eng → Lifetime lz4 ps eng
  | call {op : EngineOp} {eng eng' : Engine} : Lifetime lz4 ps eng → eng.step lz4 op = some eng' →
    Lifetime lz4 ps eng'
  | reopen {log : Bytes} {env : PoolEnv} {eng eng' : Engine} : Lifetime lz4 ps eng →
    eng.ClosesClean → engineOpen lz4 eng.storageClose.pool.file log env = some (true, eng') →
    eng'.HasPageSize ps → Lifetime lz4 ps eng'

theorem HasPageSize.keeps (h : eng.HasPageSize ps) (hk : eng.Keeps eng') : eng'.HasPageSize ps :=
  ⟨hk.poolPageSize.trans h.pool, hk.pageSize.trans h.engine, hk.header ▸ h.header⟩

theorem HasPageSize.step {op : EngineOp} (h : eng.HasPageSize ps)
    (hs : eng.step lz4 op = some eng') : eng'.HasPageSize ps := by
  by_cases hb : op = .begin
  · subst hb
    cases hs
    rcases begins_or eng with e | hb
    · rw [e]
      exact h
    · rw [hb.eq]
      exact ⟨h.pool, h.engine, h.header⟩
  · have hl := logs_step hb hs
    exact ⟨hl.poolPageSize.trans h.pool, hl.pageSize.trans h.engine, hl.header ▸ h.header⟩

theorem storeHeader_eq (hc : eng.pool.env.pinFails headerPage = false) :
    eng.storeHeader = { eng with
      pool := (eng.pool.setPage headerPage
        (writeDbHeader (eng.pool.pages headerPage) eng.header)).markDirty headerPage } := by
  have hpin : eng.pool.pinPage headerPage = some (eng.pool.pages headerPage) := by
    rw [Pool.pinPage, if_neg (by decide), hc]
    rfl
  rw [storeHeader, hpin]

theorem Admitted.fits (h : Admitted ps) : Fits32 ps := by
  have hle := h.2.1
  simp only [maxPageSize] at hle
  constructor <;> omega

theorem HasPageSize.storeHeader (h : eng.HasPageSize ps) : eng.storeHeader.HasPageSize ps := by
  rw [Engine.storeHeader]
  split
  · exact h
  · exact ⟨h.pool, h.engine, h.header⟩

theorem ClosesClean.storeHeader (h : eng.ClosesClean) : eng.storeHeader.ClosesClean := by
  rw [storeHeader_eq h]
  exact h

/-- A clean close leaves the page size in the header page of the file. -/
theorem engineClose_stored (h : eng.HasPageSize ps) (hadm : Admitted ps) (hc : eng.ClosesClean) :
    HeaderStored eng.engineClose.pool ∧ eng.engineClose.pool.pageSize = ps ∧
      readInt32 (eng.engineClose.pool.pages headerPage) hdrOffPageSize = ps := by
  generalize heng : ({ eng with
    header := { eng.header with
      freeListHead := eng.pool.freeListHead
      totalPages := eng.pool.nextPage
      nextTxid := eng.nextTxid } } : Engine) = eng₁
  have hc₁ : eng₁.pool.env.pinFails headerPage = false := heng ▸ hc
  have h₁ : eng₁.HasPageSize ps := heng ▸ ⟨h.pool, h.engine, h.header⟩
  rw [engineClose, heng, storeHeader_eq hc₁]
  refine ⟨headerStored_flushAll (List.mem_cons_self (l := eng₁.pool.dirty)), ?_, ?_⟩
  · exact (Pool.foldl_flushPage_pageSize ..).trans h₁.pool
  · simp only [Pool.flushAll, pages_foldl_flushPage, Pool.markDirty_pages, Pool.setPage_pages_self]
    rw [pageSize_writeDbHeader _ (h₁.header ▸ hadm.fits), h₁.header]

theorem storageClose_stored (h : eng.HasPageSize ps) (hadm : Admitted ps) (hc : eng.ClosesClean) :
    HeaderStored eng.storageClose.pool ∧ eng.storageClose.pool.pageSize = ps ∧
      readInt32 (eng.storageClose.pool.pages headerPage) hdrOffPageSize = ps := by
  apply engineClose_stored _ hadm
  · apply ClosesClean.storeHeader
    exact hc
  · apply HasPageSize.storeHeader
    exact ⟨h.pool, h.engine, h.header⟩

/-! ## Opening -/

theorem pageSize_readPage {file : DataFile} {n : Nat}
    (h : ∀ i < ps, file.bytes i = buf i) (hps : minPageSize ≤ ps) :
    (readDbHeader (file.readPage n headerPage)).pageSize =
      if n ≤ file.size then readInt32 buf hdrOffPageSize else 0 := by
  show readInt32 _ hdrOffPageSize = _
  simp only [DataFile.readPage, headerPage, Int.toNat_zero, Nat.zero_add, Nat.one_mul, Nat.zero_mul]
  split
  · apply readInt32_congr
    intro j hj
    exact h _ (by simp only [minPageSize, hdrOffPageSize] at hps ⊢; omega)
  · rfl

/-- An opened database has its page size if it is the default one or the file is long enough. -/
theorem loadEngine_pageSize {file : DataFile} (hadm : Admitted ps) (hsize : ps ≤ file.size)
    (hbytes : ∀ i < ps, file.bytes i = buf i) (hbuf : readInt32 buf hdrOffPageSize = ps)
    (hpin : env.pinFails headerPage = false) (log : Bytes) :
    ∃ eng, loadEngine file log env = some eng ∧
      (eng.HasPageSize ps ↔ ps = defaultPageSize ∨ maxPageSize ≤ file.size) := by
  obtain ⟨hmin, hmax, -⟩ := hadm
  have hread (n : Nat) : (readDbHeader (file.readPage n headerPage)).pageSize =
      if n ≤ file.size then (ps : Int) else 0 := by
    rw [pageSize_readPage hbytes hmin, hbuf]
  have hopen : openPageSize file = if maxPageSize ≤ file.size then ps else defaultPageSize := by
    rw [openPageSize, hread]
    simp only [minPageSize, maxPageSize] at hmin hmax ⊢
    split
    · rw [if_neg (by omega), Int.toNat_natCast]
    · exact if_pos (.inl (by decide))
  obtain ⟨eng, hload, hl⟩ := exists_loadEngine file log hpin
  refine ⟨eng, hload, ?_⟩
  constructor
  · intro h
    have hp := h.pool
    rw [hl.poolPageSize, hopen] at hp
    split at hp
    · next hlong => exact .inr hlong
    · exact .inl hp.symm
  · intro h
    have hp : openPageSize file = ps := by
      rw [hopen]
      split
      · rfl
      · next hshort => exact (h.resolve_right hshort).symm
    have hh : eng.header.pageSize = ps := by
      rw [hl.header, fileHeader, hread, hp, if_pos hsize]
    exact ⟨hl.poolPageSize.trans hp, by rw [hl.pageSize, ← hl.header, hh, Int.toNat_natCast], hh⟩

theorem HasPageSize.initRoot (h : eng.HasPageSize ps) : eng.initRoot.HasPageSize ps := by
  rw [Engine.initRoot]
  split
  · exact h
  simp only
  split
  · exact ⟨(storeDirty_pageSize ..).trans h.pool, h.engine, h.header⟩
  · exact h

theorem HasPageSize.initPages (h : eng.HasPageSize ps) : eng.initPages.HasPageSize ps := by
  have h₁ := h.storeHeader.initRoot
  have h₂ : ({ eng.storeHeader.initRoot with
      header := { eng.storeHeader.initRoot.header with
        freeListHead := eng.storeHeader.initRoot.pool.freeListHead
        totalPages := eng.storeHeader.initRoot.pool.nextPage } } : Engine).HasPageSize ps :=
    ⟨h₁.pool, h₁.engine, h₁.header⟩
  have h₃ := h₂.storeHeader
  exact ⟨(Pool.foldl_flushPage_pageSize ..).trans h₃.pool, h₃.engine, h₃.header⟩

/-- A new database has the page size of its settings. -/
theorem engineInit_pageSize {file : DataFile} {log : Bytes} {settings : EngineSettings}
    (hadm : Admitted ps) (hset : settings.pageSize = ps)
    (h : engineInit file log env settings = some eng) : eng.HasPageSize ps := by
  obtain ⟨pool, hpool, rfl⟩ := Option.map_eq_some_iff.mp h
  obtain ⟨hmin, hmax, n, hn⟩ := hadm
  have hp : pool.pageSize = ps := by
    rw [Pool.create, hset] at hpool
    split at hpool
    · cases hpool
    · cases hpool
      rfl
  have hheader : (createDbHeader settings).pageSize = ps := by
    simp only [minPageSize, maxPageSize] at hmin hmax hn
    rw [createDbHeader, if_pos]
    · exact hset
    · rw [hset]
      simp only [minPageSize, maxPageSize]
      omega
  apply HasPageSize.initPages
  exact ⟨hp, by rw [hset]; rfl, hheader⟩

theorem Lifetime.hasPageSize (h : Lifetime lz4 ps eng) (hadm : Admitted ps) :
    eng.HasPageSize ps := by
  induction h with
  | create hset hinit => exact engineInit_pageSize hadm hset hinit
  | call _ hs ih => exact ih.step hs
  | reopen _ _ _ hps _ => exact hps

/-- A database that was closed clean opens with its page size if and only if that is the default one
or the file has 64 KiB; the replay of the log changes nothing about it. -/
theorem storageClose_reopens (hadm : Admitted ps) (h : Lifetime lz4 ps eng) (hc : eng.ClosesClean)
    (hpin : env.pinFails headerPage = false) (log : Bytes) :
    ∃ eng₁, loadEngine eng.storageClose.pool.file log env = some eng₁ ∧
      (eng₁.HasPageSize ps ↔
        ps = defaultPageSize ∨ maxPageSize ≤ eng.storageClose.pool.file.size) ∧
      ∀ eng₂, engineOpen lz4 eng.storageClose.pool.file log env = some (true, eng₂) →
        (eng₂.HasPageSize ps ↔
          ps = defaultPageSize ∨ maxPageSize ≤ eng.storageClose.pool.file.size) := by
  obtain ⟨⟨hsize, hbytes⟩, hps, hbuf⟩ := storageClose_stored (h.hasPageSize hadm) hadm hc
  rw [hps] at hsize hbytes
  obtain ⟨eng₁, hload, hiff⟩ := loadEngine_pageSize hadm hsize hbytes hbuf hpin log
  refine ⟨eng₁, hload, hiff, fun eng₂ hopen => ?_⟩
  rw [engineOpen, hload, Option.bind_some] at hopen
  have hk := keeps_replay hopen
  rw [← hiff]
  constructor
  · intro h₂
    exact ⟨hk.poolPageSize.symm.trans h₂.pool, hk.pageSize.symm.trans h₂.engine, hk.header ▸ h₂.header⟩
  · intro h₁
    exact ⟨hk.poolPageSize.trans h₁.pool, hk.pageSize.trans h₁.engine, hk.header ▸ h₁.header⟩

/-- A new database with the default page size, closed at once. -/
theorem storageClose_reopens_default : ∃ eng eng₁ : Engine, Lifetime .stored defaultPageSize eng ∧
    loadEngine eng.storageClose.pool.file [] .roomy = some eng₁ ∧ eng₁.HasPageSize defaultPageSize := by
  have hsome : (engineInit .empty [] .roomy defaultEngineSettings).isSome = true := by
    decide +kernel
  obtain ⟨eng, heng⟩ := Option.isSome_iff_exists.mp hsome
  have hlife : Lifetime .stored defaultPageSize eng := .create rfl heng
  have hclose : eng.ClosesClean := by
    have hpin : (engineInit .empty [] .roomy defaultEngineSettings).map
        (fun eng => eng.pool.env.pinFails headerPage) = some false := by
      decide +kernel
    rw [heng] at hpin
    exact Option.some.inj hpin
  obtain ⟨eng₁, hload, hiff, -⟩ := @storageClose_reopens .stored _ eng .roomy
    ⟨by decide, by decide, 8, rfl⟩ hlife hclose rfl []
  exact ⟨eng, eng₁, hlife, hload, hiff.mpr (.inl rfl)⟩

/-- A new database with pages of 1024 bytes opens with pages of 4096 bytes. -/
theorem engineOpen_defaultSize : ∃ eng eng' : Engine, Lifetime .stored 1024 eng ∧ eng.ClosesClean ∧
    engineOpen .stored eng.storageClose.pool.file eng.storageClose.wal.bytes .roomy =
      some (true, eng') ∧ eng'.pool.pageSize = 4096 ∧ ¬ eng'.HasPageSize 1024 := by
  have hopen : (newCalls []).bind (fun eng =>
      (engineOpen .stored eng.storageClose.pool.file eng.storageClose.wal.bytes .roomy).map fun r =>
        (eng.pool.env.pinFails headerPage, r.1, r.2.pool.pageSize)) = some (false, true, 4096) := by
    decide +kernel
  obtain ⟨eng, heng, hopen⟩ := Option.bind_eq_some_iff.mp hopen
  obtain ⟨⟨ok, eng'⟩, hopen, hr⟩ := Option.map_eq_some_iff.mp hopen
  obtain ⟨hclose, hr⟩ := Prod.mk.inj hr
  obtain ⟨rfl, hps⟩ := Prod.mk.inj hr
  obtain ⟨eng₀, hinit, hcalls⟩ := Option.bind_eq_some_iff.mp heng
  rw [show eng₀ = eng from Option.some.inj hcalls] at hinit
  have hlife : Lifetime .stored 1024 eng := .create rfl hinit
  refine ⟨eng, eng', hlife, hclose, hopen, hps, ?_⟩
  intro h
  have hpool := h.pool
  rw [hps] at hpool
  cases hpool

end Engine

end Garry
