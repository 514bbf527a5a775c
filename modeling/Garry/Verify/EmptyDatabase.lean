import Garry.Verify.EngineOpen
import Garry.Verify.HeaderChecksum

/-!
# Databases without keys

Until a key is in the tree the pages stay as they were created, and the data file has them. Such a
database is the same when it is closed and opened.
-/

namespace Garry

open ByteStore

variable {lz4 : Lz4} {ps : Nat} {pool : Pool} {eng eng' : Engine}

/-! ## Flushes -/

theorem flushPage_clean (h : pool.dirty = []) (pid : Int) : pool.flushPage pid = pool := by
  rw [Pool.flushPage, h]
  exact if_neg fun hp => List.not_mem_nil hp.2

theorem foldl_flushPage_clean (h : pool.dirty = []) (pids : List Int) :
    pids.foldl Pool.flushPage pool = pool := by
  induction pids with
  | nil => rfl
  | cons pid pids ih => rw [List.foldl_cons, flushPage_clean h, ih]

theorem mem_dirty_foldl {pids : List Int} (hpids : ∀ p ∈ pids, 0 ≤ p)
    (h : p ∈ (pids.foldl Pool.flushPage pool).dirty) : p ∈ pool.dirty ∧ p ∉ pids := by
  induction pids generalizing pool with
  | nil => exact ⟨h, List.not_mem_nil⟩
  | cons pid pids ih =>
    obtain ⟨hd, hm⟩ := ih (fun p hp => hpids p (List.mem_cons_of_mem _ hp)) h
    rw [Pool.flushPage] at hd
    split at hd
    · obtain ⟨hd, hne⟩ := List.mem_filter.mp hd
      exact ⟨hd, fun hp => (List.mem_cons.mp hp).elim (by simpa using hne) hm⟩
    · next hno =>
      refine ⟨hd, fun hp => (List.mem_cons.mp hp).elim ?_ hm⟩
      rintro rfl
      exact hno ⟨hpids p List.mem_cons_self, hd⟩

/-- A flush of the pool leaves nothing dirty. -/
theorem flushAll_dirty (h : ∀ p ∈ pool.dirty, 0 ≤ p) : pool.flushAll.dirty = [] := by
  rw [List.eq_nil_iff_forall_not_mem]
  intro p hp
  obtain ⟨hd, hno⟩ := mem_dirty_foldl h hp
  exact hno hd

theorem size_foldl_flushPage {pids : List Int} {n : Nat} (hpids : ∀ p ∈ pids, p < n)
    (h : pool.file.size ≤ n * pool.pageSize) :
    (pids.foldl Pool.flushPage pool).file.size ≤ n * pool.pageSize := by
  induction pids generalizing pool with
  | nil => exact h
  | cons pid pids ih =>
    have hsize : (pool.flushPage pid).pageSize = pool.pageSize := Pool.flushPage_pageSize
    rw [List.foldl_cons, ← hsize]
    apply ih fun p hp => hpids p (List.mem_cons_of_mem _ hp)
    rw [hsize, Pool.flushPage]
    split
    · next hw =>
      have hlt := hpids pid List.mem_cons_self
      exact Nat.max_le.mpr ⟨h, Nat.mul_le_mul_right _ (by omega)⟩
    · exact h

/-! ## Databases that no key has changed -/

namespace Engine

/-- The pages are as they were created, and the data file has them. -/
structure Untouched (ps : Nat) (eng : Engine) : Prop where
  empty : EmptyPages ps eng.pool
  clean : eng.pool.dirty = []
  fileSize : eng.pool.file.size ≤ 2 * ps
  stored : PageStored eng.pool 1
  root : eng.btreeRoot = 1
  pageSize : eng.pageSize = ps
  headerPageSize : eng.header.pageSize = ps
  magic : eng.header.magic = dbMagic

theorem Created.untouched (h : Created ps eng) : Untouched ps eng ∧ eng.keyCount = 0 := by
  obtain ⟨eng₀, h0, rfl⟩ := h.start
  obtain ⟨pool, header, hpool, hmagic, hps, -, heq⟩ := h0.initPages_eq
  have hdirty {p : Int} (hp : p ∈ pool.dirty) : 0 ≤ p ∧ p < 2 := by
    rcases (hpool.dirty p).mp hp with rfl | rfl <;> decide
  have hsize : pool.flushAll.file.size ≤ 2 * pool.pageSize := by
    apply size_foldl_flushPage fun p hp => (hdirty hp).2
    rw [hpool.file]
    exact Nat.zero_le _
  rw [hpool.pageSize] at hsize
  rw [heq]
  exact ⟨{
    empty := hpool.toEmptyPages.foldl_flushPage _
    clean := flushAll_dirty fun p hp => (hdirty hp).1
    fileSize := hsize
    stored := pageStored_flushAll (by decide) (.inr ((hpool.dirty 1).mpr (.inr rfl)))
    root := h0.root
    pageSize := h0.pageSize
    headerPageSize := hps
    magic := hmagic }, h0.keyCount⟩

/-- A call on the pages leaves them. -/
theorem Untouched.congr (h : Untouched ps eng) (hpool : eng'.pool = eng.pool)
    (hroot : eng'.btreeRoot = eng.btreeRoot) (hps : eng'.pageSize = eng.pageSize)
    (hheader : eng'.header = eng.header) : Untouched ps eng' := by
  obtain ⟨h1, h2, h3, h4, h5, h6, h7, h8⟩ := h
  rw [← hpool] at h1 h2 h3 h4
  rw [← hroot] at h5
  rw [← hps] at h6
  rw [← hheader] at h7 h8
  exact ⟨h1, h2, h3, h4, h5, h6, h7, h8⟩

theorem Untouched.gcPage (h : Untouched ps eng) (hp : 0 ≤ pid) : eng.gcPage pid = some eng := by
  rw [Engine.gcPage]
  rcases eng.pool.tryPin_or pid with he | he
  · rw [he]
  · rw [he]
    exact if_neg (h.empty.quiet pid hp)

theorem Untouched.gc (h : Untouched ps eng) : eng.mvccGc = some eng := by
  rw [mvccGc]
  generalize List.range' 1 (eng.header.totalPages - 1).toNat = pids
  induction pids with
  | nil => rfl
  | cons pid pids ih =>
    rw [List.foldlM_cons, h.gcPage (Int.natCast_nonneg pid)]
    exact ih

/-- A key that is not in the tree has nothing to delete. -/
theorem storageDelete_noKey (h : eng.storageDelete txn key = some (ok, eng'))
    (hs : leafFindSearch eng.pool eng.btreeRoot key = some none) :
    ∃ locks, eng' = { eng with lockMgr := locks } := by
  rw [storageDelete] at h
  split at h
  · cases h
    exact ⟨_, rfl⟩
  split at h
  · cases h
    exact ⟨_, rfl⟩
  split at h
  · cases h
    exact ⟨_, rfl⟩
  simp only [hs] at h
  cases h
  exact ⟨_, rfl⟩

/-- A call that puts no key into the tree leaves the pages. -/
theorem Untouched.step (h : Untouched ps eng) {op : EngineOp} (hs : eng.step lz4 op = some eng')
    (hset : ∀ txn key value, op ≠ .set txn key value) (hframes : ∀ env, op = .frames env → env.Serves)
    (hempty : ∀ key, leafFindSearch eng.pool eng.btreeRoot key = some none) : Untouched ps eng' := by
  cases op with
  | begin =>
    cases hs
    rcases begins_or eng with e | hb
    · rw [e]
      exact h
    · rw [hb.eq]
      exact h.congr rfl rfl rfl rfl
  | set txn key value => exact absurd rfl (hset txn key value)
  | delete txn key =>
    obtain ⟨⟨ok, eng₁⟩, hdel, rfl⟩ := Option.map_eq_some_iff.mp hs
    obtain ⟨locks, rfl⟩ := storageDelete_noKey hdel (hempty key)
    exact h.congr rfl rfl rfl rfl
  | commit txn =>
    cases hs
    refine h.congr ?_ rfl rfl rfl
    exact foldl_flushPage_clean h.clean _
  | rollback txn =>
    cases hs
    exact h.congr rfl rfl rfl rfl
  | gc =>
    obtain rfl := Option.some.inj (h.gc.symm.trans hs)
    exact h
  | checkpoint =>
    rw [Engine.step, walCheckpoint, h.gc] at hs
    cases hs
    refine h.congr ?_ rfl rfl rfl
    exact foldl_flushPage_clean h.clean _
  | evict pid =>
    cases hs
    exact h.congr (flushPage_clean h.clean pid) rfl rfl rfl
  | frames env =>
    cases hs
    obtain ⟨⟨h1, h2, h3, h4, h5, h6, h7⟩, h8, h9, h10, h11, h12, h13, h14⟩ := h
    exact ⟨⟨h1, h2, hframes env rfl, h4, h5, h6, h7⟩, h8, h9, h10, h11, h12, h13, h14⟩

/-! ## Closing -/

/-- A pool in which the header has been stored. -/
structure HasHeader (pool : Pool) (header : DbHeader) (pool' : Pool) : Prop where
  file : pool'.file = pool.file
  pageSize : pool'.pageSize = pool.pageSize
  env : pool'.env = pool.env
  dirty : ∀ p, p ∈ pool'.dirty ↔ p = headerPage ∨ p ∈ pool.dirty
  header : ∃ buf, pool'.pages headerPage = writeDbHeader buf header
  pages : ∀ p, p ≠ headerPage → pool'.pages p = pool.pages p

theorem HasHeader.trans {pool₁ pool₂ pool₃ : Pool} {header header' : DbHeader}
    (h : HasHeader pool₁ header pool₂) (h' : HasHeader pool₂ header' pool₃) :
    HasHeader pool₁ header' pool₃ where
  file := h'.file.trans h.file
  pageSize := h'.pageSize.trans h.pageSize
  env := h'.env.trans h.env
  dirty p := by rw [h'.dirty, h.dirty, or_self_left]
  header := h'.header
  pages p hp := (h'.pages p hp).trans (h.pages p hp)

theorem exists_storeHeader (hc : eng.ClosesClean) : ∃ pool, HasHeader eng.pool eng.header pool ∧
    pool.nextPage = eng.pool.nextPage ∧ pool.freeListHead = eng.pool.freeListHead ∧
    eng.storeHeader = { eng with pool := pool } := by
  refine ⟨_, ?_, ?_, ?_, storeHeader_eq hc⟩
  rotate_left
  · rfl
  · rfl
  exact {
    file := rfl
    pageSize := rfl
    env := rfl
    dirty := by simp [Pool.markDirty, Pool.setPage]
    header := ⟨eng.pool.pages headerPage, by simp⟩
    pages := by
      intro p hp
      rw [Pool.markDirty_pages, Pool.setPage_pages_of_ne hp] }

/-- The fields of the engine that a close stores in the header. -/
structure Closes (eng : Engine) (header : DbHeader) : Prop where
  magic : header.magic = eng.header.magic
  pageSize : header.pageSize = eng.header.pageSize
  rootPage : header.rootPage = eng.btreeRoot
  freeListHead : header.freeListHead = eng.pool.freeListHead
  totalPages : header.totalPages = eng.pool.nextPage

/-- A clean close stores the header and flushes. -/
theorem storageClose_pool (hc : eng.ClosesClean) : ∃ pool header,
    eng.storageClose.pool = pool.flushAll ∧ HasHeader eng.pool header pool ∧ eng.Closes header := by
  obtain ⟨header₁, hheader₁⟩ : ∃ header : DbHeader, { eng.header with
    rootPage := eng.btreeRoot
    totalPages := eng.pool.nextPage
    nextTxid := eng.nextTxid } = header := ⟨_, rfl⟩
  obtain ⟨pool₁, h₁, hnext, hfree, he₁⟩ := @exists_storeHeader { eng with header := header₁ } hc
  obtain ⟨header₂, hheader₂⟩ : ∃ header : DbHeader, { header₁ with
    freeListHead := pool₁.freeListHead
    totalPages := pool₁.nextPage
    nextTxid := eng.nextTxid } = header := ⟨_, rfl⟩
  have hc₁ : ({ eng with header := header₂, pool := pool₁ } : Engine).ClosesClean := by
    rw [ClosesClean, h₁.env]
    exact hc
  obtain ⟨pool₂, h₂, -, -, he₂⟩ := exists_storeHeader hc₁
  refine ⟨pool₂, header₂, ?_, h₁.trans h₂, ?_⟩
  · simp only [storageClose, hheader₁, he₁, engineClose, hheader₂, he₂]
  · subst hheader₂ hheader₁
    exact ⟨rfl, rfl, rfl, hfree, hnext⟩

end Engine

/-! ## Opening -/

theorem readDbHeader_congr {buf buf' : PageBuffer}
    (h : ∀ i < hdrOffChecksum + 4, buf i = buf' i) : readDbHeader buf = readDbHeader buf' := by
  have hsum : computeHeaderChecksum buf = computeHeaderChecksum buf' :=
    computeHeaderChecksum_congr fun i hi => h i (hi.trans (by decide))
  have hword {off : Nat} (hoff : off ≤ hdrOffChecksum) : readInt32 buf off = readInt32 buf' off :=
    readInt32_congr fun j hj => h _ (by omega)
  simp only [readDbHeader, hsum]
  simp (disch := decide) only [hword]

/-- What is read of a header when not every field has 32 bits. -/
theorem readDbHeader_pages (buf : PageBuffer) {hdr : DbHeader} (hmagic : hdr.magic = dbMagic)
    (hps : Fits32 hdr.pageSize) (hroot : Fits32 hdr.rootPage) (hfree : Fits32 hdr.freeListHead)
    (htotal : Fits32 hdr.totalPages) : ∃ header, readDbHeader (writeDbHeader buf hdr) = header ∧
      header.magic = dbMagic ∧ header.pageSize = hdr.pageSize ∧ header.rootPage = hdr.rootPage ∧
      header.freeListHead = hdr.freeListHead ∧ header.totalPages = hdr.totalPages := by
  have hread {off : Nat} (hoff : off + 4 ≤ hdrOffChecksum) := readInt32_writeDbHeader buf hdr hoff
  refine ⟨_, rfl, ?_, ?_, ?_, ?_, ?_⟩
  · rw [readDbHeader, if_pos (checksum_writeDbHeader buf hdr), ← hmagic]
    simp (disch := decide) only [hread, writeHeaderFields, readInt32_writeInt32_of_ne]
    exact readInt32_writeInt32 _ _ (hmagic ▸ by decide)
  all_goals simp (disch := decide) only [readDbHeader, hread, writeHeaderFields,
    readInt32_writeInt32_of_ne]
  · exact readInt32_writeInt32 _ _ hps
  · exact readInt32_writeInt32 _ _ hroot
  · exact readInt32_writeInt32 _ _ hfree
  · exact readInt32_writeInt32 _ _ htotal

theorem HoldsNode.congr {buf buf' : PageBuffer} (h : HoldsNode ps buf node)
    (he : ∀ i < ps, buf i = buf' i) : HoldsNode ps buf' node := by
  have hfits : 32 + 4 * (nodeRecords node).length + usedBytes (nodeRecords node) ≤ ps :=
    h.records.fits
  have hword {off : Nat} (hoff : off ≤ 28) : readInt32 buf' off = readInt32 buf off :=
    readInt32_congr fun j hj => (he _ (by omega)).symm
  exact ⟨h.records.congr he, (hword (by decide)).trans h.kind, (hword (by decide)).trans h.level⟩

/-- A page that the file holds is read as it is. -/
theorem PageStored.readPage (h : PageStored pool p) (hi : i < pool.pageSize) :
    pool.file.readPage pool.pageSize p i = pool.pages p i := by
  rw [DataFile.readPage, if_pos h.1]
  exact h.2 i hi

namespace Engine

/-- A file that is closed without keys. -/
structure EmptyFile (ps : Nat) (file : DataFile) : Prop where
  size : file.size = 2 * ps
  fits : 1024 ≤ ps ∧ ps ≤ maxRecordSize
  leaf : HoldsNode ps (file.readPage ps 1) emptyNode
  header : ∃ header, readDbHeader (file.readPage ps headerPage) = header ∧
    header.magic = dbMagic ∧ header.pageSize = ps ∧ header.rootPage = 1 ∧
    header.freeListHead = -1 ∧ header.totalPages = 2

theorem Untouched.storageClose (h : Untouched ps eng) :
    EmptyFile ps eng.storageClose.pool.file := by
  obtain ⟨hmin, hmax⟩ := h.empty.size
  obtain ⟨pool, hdr, hclose, hh, hf⟩ := storageClose_pool (h.empty.serves.pin headerPage)
  have hps : pool.pageSize = ps := hh.pageSize.trans h.empty.pageSize
  have hflush : pool.flushAll.pageSize = ps := (Pool.foldl_flushPage_pageSize ..).trans hps
  have hpages : pool.flushAll.pages = pool.pages := pages_foldl_flushPage ..
  have hleaf : PageStored pool.flushAll 1 := by
    apply pageStored_flushAll (by decide)
    rw [PageStored, hh.file, hh.pageSize, hh.pages 1 (by decide)]
    exact .inl h.stored
  have hheader : PageStored pool.flushAll headerPage :=
    pageStored_flushAll le_rfl (.inr ((hh.dirty _).mpr (.inl rfl)))
  have hsize : pool.flushAll.file.size ≤ 2 * ps := by
    rw [← hps]
    apply size_foldl_flushPage
    · intro p hp
      rcases (hh.dirty p).mp hp with rfl | hp
      · decide
      · rw [h.clean] at hp
        cases hp
    · rw [hh.file, hps]
      exact h.fileSize
  rw [hclose]
  refine ⟨le_antisymm hsize ?_, h.empty.size, ?_, ?_⟩
  · rw [← hflush]
    exact hleaf.1
  · apply h.empty.leaf.congr
    intro i hi
    rw [← hflush] at hi ⊢
    rw [hleaf.readPage hi, hpages, hh.pages 1 (by decide)]
  · obtain ⟨buf, hbuf⟩ := hh.header
    have hread : readDbHeader (pool.flushAll.file.readPage ps headerPage) =
        readDbHeader (pool.pages headerPage) := by
      apply readDbHeader_congr
      intro i hi
      have hlt : i < pool.flushAll.pageSize := by
        simp only [hdrOffChecksum] at hi
        omega
      rw [← hflush, hheader.readPage hlt, hpages]
    have hmagic := hf.magic.trans h.magic
    have hsz := hf.pageSize.trans h.headerPageSize
    have hroot := hf.rootPage.trans h.root
    have hfree := hf.freeListHead.trans h.empty.freeListHead
    have htotal := hf.totalPages.trans h.empty.nextPage
    have hfit : Fits32 ps := by
      simp only [maxRecordSize] at hmax
      constructor <;> omega
    obtain ⟨header, hr, hm, hp, ho, hl, ht⟩ := readDbHeader_pages buf hmagic (hsz ▸ hfit)
      (hroot ▸ by decide) (hfree ▸ by decide) (htotal ▸ by decide)
    rw [hread, hbuf]
    exact ⟨header, hr, hm, hp.trans hsz, ho.trans hroot, hl.trans hfree, ht.trans htotal⟩

/-- Such a file is too short for the raw read of the header. -/
theorem EmptyFile.openPageSize (h : EmptyFile ps file) : openPageSize file = defaultPageSize := by
  have hshort : ¬ (headerPage.toNat + 1) * maxPageSize ≤ file.size := by
    have hsize := h.size
    have hmax := h.fits.2
    simp only [headerPage, maxPageSize, maxRecordSize] at hmax ⊢
    omega
  rw [Engine.openPageSize, DataFile.readPage, if_neg hshort]
  decide

theorem EmptyFile.loaded (h : EmptyFile defaultPageSize file) (henv : env.Serves)
    (hl : Loaded file log env eng) : Untouched defaultPageSize eng ∧ eng.keyCount = 0 ∧
      eng.txns = [] ∧ eng.lockMgr = [] := by
  obtain ⟨header, hr, hmagic, hsize, hroot, hfree, htotal⟩ := h.header
  have hopen := h.openPageSize
  have hheader : fileHeader file = header := by
    rw [fileHeader, hopen, hr]
  have hpages := hl.pages
  rw [hopen] at hpages
  have hzero (p : Int) (h2 : 2 ≤ p) : eng.pool.pages p = fun _ => 0 := by
    have hle := h.size
    rw [hpages, DataFile.readPage, if_neg]
    have := Nat.mul_le_mul_right defaultPageSize (show 3 ≤ p.toNat + 1 by omega)
    simp only [defaultPageSize] at *
    omega
  refine ⟨{
    empty := {
      size := h.fits
      pageSize := hl.poolPageSize.trans hopen
      serves := by
        rw [Pool.Serves, hl.env]
        exact henv
      nextPage := by rw [hl.nextPage, hheader, htotal]
      freeListHead := by rw [hl.freeListHead, hheader, hfree]
      leaf := by
        rw [hpages]
        exact h.leaf
      quiet := ?_ }
    clean := hl.clean
    fileSize := by
      rw [hl.file]
      exact h.size.le
    stored := ?_
    root := by rw [hl.btreeRoot, hheader, hroot]
    pageSize := by rw [hl.pageSize, hheader, hsize, Int.toNat_natCast]
    headerPageSize := by rw [hl.header, hheader, hsize]
    magic := by rw [hl.header, hheader, hmagic] }, hl.keyCount, hl.txns, hl.lockMgr⟩
  · intro p hp
    by_cases h2 : 2 ≤ p
    · rw [hzero p h2]
      decide
    rcases show p = 0 ∨ p = 1 by omega with rfl | rfl
    · intro htype
      rw [← hr, readDbHeader] at hmagic
      split at hmagic
      · rw [hpages] at htype
        exact absurd (htype.symm.trans hmagic) (by decide)
      · cases hmagic
    · rw [hpages, h.leaf.kind]
      decide
  · rw [PageStored, hl.poolPageSize, hopen, hl.file, hpages]
    have hle : (1 + 1) * defaultPageSize ≤ file.size := h.size.ge
    refine ⟨hle, fun i hi => ?_⟩
    rw [DataFile.readPage, if_pos]
    exact hle

/-! ## Recovery -/

/-- Without a committed update there is nothing to replay for a tree without keys. -/
theorem replay_noKeys {committed : List Int} {records : List Bytes}
    (hs : ∀ key, leafFindSearch eng.pool eng.btreeRoot key = some none)
    (hno : ∀ data ∈ records, recKind data = WalKind.update.code → recTxid data ∉ committed) :
    eng.replay lz4 committed records = some (true, eng) := by
  induction records with
  | nil => rfl
  | cons data records ih =>
    have hrec : eng.replayRecord lz4 committed data = some (true, eng) := by
      simp only [replayRecord, replayDelete, hs]
      split
      · rfl
      next hkind =>
      split
      · rfl
      next hmem =>
      split
      · rfl
      split
      · rfl
      next hdel =>
      have hupdate : recKind data = WalKind.update.code := by
        by_contra hne
        exact hkind ⟨hne, hdel⟩
      exact absurd (hno data List.mem_cons_self hupdate) hmem
    rw [replay, hrec]
    exact ih fun data hd => hno data (List.mem_cons_of_mem _ hd)

theorem walRecover_noKeys (hs : ∀ key, leafFindSearch eng.pool eng.btreeRoot key = some none)
    (hno : ¬ HasCommittedUpdate eng.wal.bytes) : ∃ eng', eng.walRecover lz4 = some (true, eng') ∧
      eng' = { eng with nextTxid := eng'.nextTxid, wal := eng'.wal } := by
  rw [walRecover]
  exact ⟨_, replay_noKeys hs fun data hd hkind hmem => hno (.of_mem hd hkind hmem), rfl⟩

/-- A database without keys is again one when it is closed and opened. -/
theorem Untouched.reopen (h : Untouched defaultPageSize eng) (henv : env.Serves)
    (hno : ¬ HasCommittedUpdate log) : ∃ eng',
      engineOpen lz4 eng.storageClose.pool.file log env = some (true, eng') ∧
        Untouched defaultPageSize eng' ∧ Inv defaultPageSize eng' .new ∧ eng'.keyCount = 0 := by
  obtain ⟨eng₁, hload, hl⟩ := exists_loadEngine eng.storageClose.pool.file log (henv.pin headerPage)
  obtain ⟨hu, hcount, htxns, hlocks⟩ := h.storageClose.loaded henv hl
  have hinv := hu.empty.engineInv hu.root hu.pageSize htxns hlocks
  obtain ⟨eng₂, hrec, heq⟩ := @walRecover_noKeys lz4 eng₁ (fun key => hinv.pages.search key)
    (by rw [hl.wal]; exact hno)
  refine ⟨eng₂, ?_, ?_⟩
  · rw [engineOpen, hload, Option.bind_some, hrec]
  have hu₂ : Untouched defaultPageSize eng₂ := by
    rw [heq]
    exact hu.congr rfl rfl rfl rfl
  refine ⟨hu₂, hu₂.empty.engineInv hu₂.root hu₂.pageSize ?_ ?_, ?_⟩
  · rw [heq, htxns]
  · rw [heq, hlocks]
  · rw [heq, hcount]

end Engine

end Garry
