import Garry.Verify.KeyCount
import Garry.Verify.PoolCache
import Garry.Verify.Reload

/-!
# A clean close and the load after it

After a clean close the data file has the pages and the header, and an engine that is loaded from it
has the store without its transactions.
-/

namespace Garry

open ByteStore

variable {ps : Nat} {pool : Pool} {lz4 : Lz4}

namespace Engine

variable {eng eng' : Engine} {L L' : Layout}

/-! ## New databases -/

theorem Start.neat (h : Start ps eng) : Neat ps eng where
  pageSize := h.pageSize
  pool := {
    sized := by
      obtain ⟨hmin, hmax⟩ := h.size
      simp only [pageHeaderSize, maxPageSize, maxRecordSize] at hmax ⊢
      omega
    pageSize := h.poolPageSize
    serves := h.serves
    next := by
      rw [h.nextPage]
      decide
    paged := h.file ▸ DataFile.Paged.empty
    same := by
      intro p _ _ _ i _
      rw [h.file, h.pages]
      rfl
    slotted := by
      intro p _
      rw [h.pages]
      exact .zero }

theorem Neat.initRoot (h : Neat ps eng) : Neat ps eng.initRoot := by
  rw [Engine.initRoot]
  split
  · exact h
  simp only
  split
  · apply h.withPool
    exact h.pool.marks (Marks.refl.storeDirty ..) (slots_storeDirty h.pool.sized _ _ h.pool.pageSize)
  · exact h

theorem Neat.initPages (h : Neat ps eng) : Neat ps eng.initPages := by
  have h₁ := h.storeHeader.initRoot
  have h₂ : Neat ps ({ eng.storeHeader.initRoot with
      header := { eng.storeHeader.initRoot.header with
        freeListHead := eng.storeHeader.initRoot.pool.freeListHead
        totalPages := eng.storeHeader.initRoot.pool.nextPage } } : Engine) := h₁.same rfl rfl
  have h₃ := h₂.storeHeader
  exact h₃.withPool (h₃.pool.foldl_flushPage _)

theorem Created.neat (h : Created ps eng) : Neat ps eng := by
  obtain ⟨eng₀, h0, rfl⟩ := h.start
  exact h0.neat.initPages

/-! ## The header -/

/-- The header has the settings of the engine. -/
structure Filed (ps : Nat) (eng : Engine) : Prop where
  aligned : minPageSize ∣ ps
  magic : eng.header.magic = dbMagic
  pageSize : eng.header.pageSize = ps
  compression : eng.header.compression = eng.compression
  maxTxns : eng.header.maxTxns = eng.maxTxns

theorem Filed.congr (h : Filed ps eng) (hm : eng'.header.magic = eng.header.magic)
    (hp : eng'.header.pageSize = eng.header.pageSize)
    (hc : eng'.header.compression = eng.header.compression)
    (ht : eng'.header.maxTxns = eng.header.maxTxns) (hc' : eng'.compression = eng.compression)
    (ht' : eng'.maxTxns = eng.maxTxns) : Filed ps eng' :=
  ⟨h.aligned, hm.trans h.magic, hp.trans h.pageSize, (hc.trans h.compression).trans hc'.symm,
    (ht.trans h.maxTxns).trans ht'.symm⟩

theorem Filed.storeHeader (h : Filed ps eng) : Filed ps eng.storeHeader := by
  rw [Engine.storeHeader]
  split
  · exact h
  · exact h.congr rfl rfl rfl rfl rfl rfl

theorem Filed.initRoot (h : Filed ps eng) : Filed ps eng.initRoot := by
  rw [Engine.initRoot]
  split
  · exact h
  simp only
  split
  · exact h.congr rfl rfl rfl rfl rfl rfl
  · exact h

theorem Filed.initPages (h : Filed ps eng) : Filed ps eng.initPages := by
  have h₁ := h.storeHeader.initRoot
  have h₂ : Filed ps ({ eng.storeHeader.initRoot with
      header := { eng.storeHeader.initRoot.header with
        freeListHead := eng.storeHeader.initRoot.pool.freeListHead
        totalPages := eng.storeHeader.initRoot.pool.nextPage } } : Engine) :=
    h₁.congr rfl rfl rfl rfl rfl rfl
  exact h₂.storeHeader.congr rfl rfl rfl rfl rfl rfl

theorem Created.filed (h : Created ps eng) : Filed ps eng := by
  obtain ⟨settings, env, hset, -, hinit⟩ := h
  obtain ⟨pool, -, rfl⟩ := Option.map_eq_some_iff.mp hinit
  obtain ⟨-, hmagic, hps⟩ := hset.header
  apply Filed.initPages
  refine ⟨hset.aligned, hmagic, hps, ?_, ?_⟩
  all_goals
    obtain ⟨hmin, hmax⟩ := hset.size
    obtain ⟨n, hn⟩ := hset.aligned
    have hsize := hset.pageSize
    simp only [maxRecordSize, minPageSize] at hmax hn
    simp only [createDbHeader, minPageSize, maxPageSize]
    rw [if_pos (by omega)]

/-- No call changes the settings. -/
theorem step_settings {op : EngineOp} (hs : eng.step lz4 op = some eng') :
    eng'.header = eng.header ∧ eng'.compression = eng.compression ∧ eng'.maxTxns = eng.maxTxns := by
  by_cases hb : op = .begin
  · subst hb
    cases hs
    rcases begins_or eng with e | hb
    · rw [e]
      exact ⟨rfl, rfl, rfl⟩
    · rw [hb.eq]
      exact ⟨rfl, rfl, rfl⟩
  · have hl := logs_step hb hs
    exact ⟨hl.header, hl.compression, hl.maxTxns⟩

/-- The engine between two calls, with pages and a header that can be read back. -/
structure Storable (ps : Nat) (eng : Engine) (L : Layout) : Prop extends Inv ps eng L where
  neat : Neat ps eng
  filed : Filed ps eng
  words : Fits32 eng.compression ∧ Fits32 eng.maxTxns

theorem Created.storable (h : Created ps eng) (hfit : Fits32 eng.compression ∧ Fits32 eng.maxTxns) :
    Storable ps eng .new :=
  ⟨h.inv.1, h.neat, h.filed, hfit⟩

theorem Storable.of_inv (h : Storable ps eng L) {op : EngineOp} (hs : eng.step lz4 op = some eng')
    (hp : Proper lz4 eng eng' op) (hi : Inv ps eng' L') : Storable ps eng' L' := by
  obtain ⟨hh, hc, hm⟩ := step_settings hs
  refine ⟨hi, ?_, ?_, ?_⟩
  · apply h.neat.step hs
    rintro env rfl
    exact hp.2
  · exact h.filed.congr (by rw [hh]) (by rw [hh]) (by rw [hh]) (by rw [hh]) hc hm
  · rw [hc, hm]
    exact h.words

/-! ## Closing -/

/-- The header that a close stores. -/
def closeHeader (eng : Engine) : DbHeader :=
  { eng.header with
    rootPage := eng.btreeRoot
    freeListHead := eng.pool.freeListHead
    totalPages := eng.pool.nextPage
    nextTxid := eng.nextTxid }

/-- A clean close stores the header and flushes. -/
theorem storageClose_header (hc : eng.ClosesClean) : ∃ pool,
    eng.storageClose.pool = pool.flushAll ∧ HasHeader eng.pool eng.closeHeader pool := by
  obtain ⟨header₁, hheader₁⟩ : ∃ header : DbHeader, { eng.header with
    rootPage := eng.btreeRoot
    totalPages := eng.pool.nextPage
    nextTxid := eng.nextTxid } = header := ⟨_, rfl⟩
  obtain ⟨pool₁, h₁, hnext, hfree, he₁⟩ := @exists_storeHeader { eng with header := header₁ } hc
  have hheader₂ : ({ header₁ with
      freeListHead := pool₁.freeListHead
      totalPages := pool₁.nextPage
      nextTxid := eng.nextTxid } : DbHeader) = eng.closeHeader := by
    rw [hnext, hfree, ← hheader₁]
    rfl
  have hc₁ : ({ eng with header := eng.closeHeader, pool := pool₁ } : Engine).ClosesClean := by
    rw [ClosesClean, h₁.env]
    exact hc
  obtain ⟨pool₂, h₂, -, -, he₂⟩ := exists_storeHeader hc₁
  refine ⟨pool₂, ?_, h₁.trans h₂⟩
  simp only [storageClose, hheader₁, he₁, engineClose, hheader₂, he₂]

theorem Neat.withHeader (h : Neat ps eng) (header : DbHeader) :
    Neat ps { eng with header := header } := h.same rfl rfl

theorem Neat.engineClose (h : Neat ps eng) : Neat ps eng.engineClose := by
  have hs := (h.withHeader { eng.header with
    freeListHead := eng.pool.freeListHead
    totalPages := eng.pool.nextPage
    nextTxid := eng.nextTxid }).storeHeader
  exact hs.withPool (hs.pool.foldl_flushPage _)

theorem Neat.storageClose (h : Neat ps eng) : Neat ps eng.storageClose := by
  apply Neat.engineClose
  apply Neat.storeHeader
  exact h.withHeader _

/-- A flush leaves no page dirty that a pin can show. -/
theorem not_mem_dirty_foldl (hp : 0 ≤ p) {pids : List Int} (h : p ∈ pids ∨ p ∉ pool.dirty) :
    p ∉ (pids.foldl Pool.flushPage pool).dirty := by
  induction pids generalizing pool with
  | nil => exact h.resolve_left List.not_mem_nil
  | cons pid pids ih =>
    apply ih
    by_cases he : pid = p
    · subst he
      right
      intro hd
      rw [Pool.flushPage] at hd
      split at hd
      · simp at hd
      · next hno => exact hno ⟨hp, hd⟩
    · rw [mem_dirty_flushPage he]
      exact h.imp_left fun hm => (List.mem_cons.mp hm).resolve_left (Ne.symm he)

/-- After a clean close the file has the pages of the pool. -/
theorem Neat.readPage_close (h : Neat ps eng) (hp : 0 ≤ p) (hi : i < ps) :
    eng.storageClose.pool.file.readPage ps p i = eng.storageClose.pool.pages p i := by
  have ht := h.storageClose.pool
  obtain ⟨pool, he, -⟩ := storageClose_header (h.pool.serves.pin headerPage)
  rw [ht.paged.readPage]
  refine ht.same p hp (Set.notMem_empty p) ?_ i hi
  rw [he]
  exact not_mem_dirty_foldl hp (em _)

theorem Neat.close_pages (h : Neat ps eng) (hp : 0 < p) (hi : i < ps) :
    eng.storageClose.pool.file.readPage ps p i = eng.pool.pages p i := by
  obtain ⟨pool, he, hh⟩ := storageClose_header (h.pool.serves.pin headerPage)
  rw [h.readPage_close (Int.le_of_lt hp) hi, he, Pool.flushAll, pages_foldl_flushPage]
  rw [hh.pages p (Int.ne_of_gt hp)]

/-- The header in the file is the one of the engine. -/
theorem Neat.close_header (h : Neat ps eng) (hps : hdrOffChecksum + 4 ≤ ps) : ∃ buf,
    readDbHeader (eng.storageClose.pool.file.readPage ps headerPage) =
      readDbHeader (writeDbHeader buf eng.closeHeader) := by
  obtain ⟨pool, he, hh⟩ := storageClose_header (h.pool.serves.pin headerPage)
  obtain ⟨buf, hbuf⟩ := hh.header
  refine ⟨buf, readDbHeader_congr fun i hi => ?_⟩
  rw [h.readPage_close le_rfl (by omega), he, Pool.flushAll, pages_foldl_flushPage, hbuf]

/-! ## Loading -/

/-- The fields of a header that are words are read as they were written. -/
theorem readDbHeader_settings (buf : PageBuffer) {hdr : DbHeader} (hc : Fits32 hdr.compression)
    (hm : Fits32 hdr.maxTxns) (hn : Fits32 hdr.nextTxid) :
    (readDbHeader (writeDbHeader buf hdr)).compression = hdr.compression ∧
      (readDbHeader (writeDbHeader buf hdr)).maxTxns = hdr.maxTxns ∧
      (readDbHeader (writeDbHeader buf hdr)).nextTxid = hdr.nextTxid := by
  have hread {off : Nat} (hoff : off + 4 ≤ hdrOffChecksum) := readInt32_writeDbHeader buf hdr hoff
  refine ⟨?_, ?_, ?_⟩
  all_goals simp (disch := decide) only [readDbHeader, hread, writeHeaderFields,
    readInt32_writeInt32_of_ne]
  · exact readInt32_writeInt32 _ _ hc
  · exact readInt32_writeInt32 _ _ hm
  · exact readInt32_writeInt32 _ _ hn

theorem type_of_magic {buf : PageBuffer} (h : (readDbHeader buf).magic = dbMagic) :
    readInt32 buf pageHdrOffType ≠ NodeKind.chain.code := by
  simp only [readDbHeader] at h
  split at h
  · show readInt32 buf hdrOffMagic ≠ _
    rw [h]
    decide
  · cases h

theorem compression_loadEngine {file : DataFile} {log : Bytes} {env : PoolEnv}
    (h : loadEngine file log env = some eng) : eng.compression = (fileHeader file).compression := by
  simp only [loadEngine, Pool.create] at h
  split at h
  · cases h
  simp only [Option.bind_eq_bind, Option.bind_some] at h
  obtain ⟨buf, hb, h⟩ := Option.bind_eq_some_iff.mp h
  rw [Pool.pinPage, if_neg (by decide)] at hb
  split at hb
  · cases hb
  · rw [← Option.some.inj h, ← Option.some.inj hb]
    rfl

theorem Inv.fits_pages (h : Inv ps eng L) :
    Fits32 eng.btreeRoot ∧ Fits32 eng.pool.freeListHead ∧ Fits32 eng.pool.nextPage := by
  have hids := h.ids
  have hnext := h.pages.owns.next_nonneg
  simp only [HasIds, pageIdLimit, pageIdBias] at hids
  have hroot := h.pages.range (h.pages.treeOwn _ h.pages.tree.repr.mem)
  have hfree : eng.pool.freeListHead = -1 ∨
      0 ≤ eng.pool.freeListHead ∧ eng.pool.freeListHead < eng.pool.nextPage := by
    obtain ⟨l, hl, -, hr⟩ := h.pages.owns.free
    cases l with
    | nil => exact .inl hl
    | cons p l =>
      obtain ⟨he, h0, -⟩ := hl
      rw [he]
      exact .inr ⟨h0, (hr p List.mem_cons_self).2⟩
  simp only [Fits32]
  omega

/-- What a load keeps of an engine that was closed. -/
structure Resumes (eng : Engine) (log : Bytes) (eng' : Engine) : Prop where
  nextTxid : eng'.nextTxid = eng.nextTxid
  compression : eng'.compression = eng.compression
  maxTxns : eng'.maxTxns = eng.maxTxns
  txns : eng'.txns = []
  lockMgr : eng'.lockMgr = []
  wal : eng'.wal = walLogInit log
  nextPage : eng'.pool.nextPage = eng.pool.nextPage

/-- Without transactions and locks every version is committed. -/
theorem Sound.idle (h : Sound ps eng L) (htxns : eng.txns = []) (hlocks : eng.lockMgr = [])
    (hv : ∀ key, ∀ v ∈ chainOf (L.versions key), v.txid < eng.nextTxid) : Inv ps eng L :=
  ⟨h, {
    ids := by simp [store, htxns]
    nodup := by simp [store, htxns, Mvcc.State.active]
    holder := by simp [store, hlocks, lockHolder]
    versions := fun {key} {v} hm => hv key v hm
    owned := by
      intro key
      refine ⟨[], chainOf (L.versions key), rfl, by simp, fun v _ hlive => ?_⟩
      simp [Mvcc.State.Live, store, htxns] at hlive }⟩

/-- A database that was closed clean is loaded with its store, when the load finds its page size. -/
theorem Storable.load (h : Storable ps eng L) (hnext : Fits32 eng.nextTxid)
    (hsize : ps = defaultPageSize ∨ maxPageSize ≤ eng.storageClose.pool.file.size)
    (henv : env.Serves) (log : Bytes) :
    ∃ eng', loadEngine eng.storageClose.pool.file log env = some eng' ∧ Storable ps eng' L ∧
      eng.Resumes log eng' := by
  have hmin := h.pages.size
  simp only [maxRecordSize] at hmin
  have hadm : Admitted ps := by
    refine ⟨?_, ?_, h.filed.aligned⟩
    · simp only [minPageSize]
      omega
    · simp only [maxPageSize]
      omega
  obtain ⟨⟨hlong, hbytes⟩, hps, hword⟩ :=
    storageClose_stored ⟨h.pages.pageSize, h.pageSize, h.filed.pageSize⟩ hadm
      (h.neat.pool.serves.pin headerPage)
  rw [hps] at hlong hbytes
  obtain ⟨eng', hload, hiff⟩ := loadEngine_pageSize hadm hlong hbytes hword (henv.pin headerPage) log
  have hl := loaded_loadEngine hload
  have hp := hiff.mpr hsize
  have hopen : openPageSize eng.storageClose.pool.file = ps := hl.poolPageSize.symm.trans hp.pool
  obtain ⟨buf, hbuf⟩ := h.neat.close_header (by simp only [hdrOffChecksum]; omega)
  have hfile : fileHeader eng.storageClose.pool.file =
      readDbHeader (writeDbHeader buf eng.closeHeader) := by
    rw [fileHeader, hopen, hbuf]
  obtain ⟨hroot, hfree, hpage⟩ := h.fits_pages
  have hcomp : Fits32 eng.closeHeader.compression := h.filed.compression.symm ▸ h.words.1
  have hmax : Fits32 eng.closeHeader.maxTxns := h.filed.maxTxns.symm ▸ h.words.2
  obtain ⟨hc, hm, hn⟩ := readDbHeader_settings buf hcomp hmax hnext
  have hsz : Fits32 eng.closeHeader.pageSize := h.filed.pageSize.symm ▸ hadm.fits
  have hmag : eng.closeHeader.magic = dbMagic := h.filed.magic
  obtain ⟨header, hread, hmagic, -, hr, hf, ht⟩ :=
    readDbHeader_pages buf hmag hsz hroot hfree hpage
  rw [← hfile] at hc hm hn hread
  rw [hread] at hc hm hn
  have hpages : eng'.pool.pages = eng.storageClose.pool.file.readPage ps := by
    rw [hl.pages, hopen]
  have hsame : eng'.btreeRoot = eng.btreeRoot := by
    rw [hl.btreeRoot, hread]
    exact hr
  have hnextTxid : eng'.nextTxid = eng.nextTxid := by
    rw [hl.nextTxid, hread]
    exact hn
  have hcompression : eng'.compression = eng.compression := by
    rw [compression_loadEngine hload, hread]
    exact hc.trans h.filed.compression
  have hmaxTxns : eng'.maxTxns = eng.maxTxns := by
    rw [hl.maxTxns, hread]
    exact hm.trans h.filed.maxTxns
  have hreload : Reloaded ps eng.pool eng'.pool := {
    pageSize := hp.pool
    serves := by
      rw [Pool.Serves, hl.env]
      exact henv
    nextPage := by
      rw [hl.nextPage, hread]
      exact ht
    freeListHead := by
      rw [hl.freeListHead, hread]
      exact hf
    pages := by
      intro p h0 i hi
      rw [hpages, h.neat.close_pages h0 hi]
    header := by
      rw [hpages]
      apply type_of_magic
      rw [hbuf, ← hfile, hread, hmagic] }
  have hsound : Sound ps eng' L := by
    refine ⟨?_, hp.engine, ?_, ?_, ?_⟩
    · rw [hsame]
      exact h.pages.reload hreload h.neat.pool.slotted
    · rw [hl.lockMgr]
      exact ⟨List.nodup_nil, by simp⟩
    · rw [hl.txns]
      simp
    · rw [HasIds, hreload.nextPage]
      exact h.ids
  have hinv : Inv ps eng' L := by
    apply hsound.idle hl.txns hl.lockMgr
    intro key v hv
    rw [hnextTxid]
    exact h.mvcc.versions hv
  have hneat : Neat ps eng' := {
    pageSize := hp.engine
    pool := {
      sized := h.neat.pool.sized
      pageSize := hp.pool
      serves := hreload.serves
      next := hreload.nextPage.symm ▸ h.neat.pool.next
      paged := hl.file.symm ▸ h.neat.storageClose.pool.paged
      same := by
        intro p _ _ _ i hi
        rw [hl.file, hpages, h.neat.storageClose.pool.paged.readPage]
      slotted := by
        intro p h0
        apply (h.neat.pool.slotted p h0).congr h.neat.pool.sized.1
        intro i hi
        rw [hpages, h.neat.close_pages h0 hi] } }
  refine ⟨eng', hload, ⟨hinv, hneat, ?_, ?_⟩, ?_⟩
  · refine ⟨h.filed.aligned, ?_, hp.header, ?_, ?_⟩
    · rw [hl.header, hread, hmagic]
    · rw [hl.header, compression_loadEngine hload]
    · rw [hl.header, hl.maxTxns]
  · rw [hcompression, hmaxTxns]
    exact h.words
  · exact ⟨hnextTxid, hcompression, hmaxTxns, hl.txns, hl.lockMgr, hl.wal, hreload.nextPage⟩

end Engine

end Garry
