import Garry.Verify.EngineInv

/-!
# Histories of an engine

A history starts with a new database. Every call that a program makes keeps the invariant of the
engine and acts on its multi-version store.
-/

namespace Garry

open ByteStore BPlusTree

/-! ## A new database -/

/-- A new database: the header page and an empty root leaf. -/
def Layout.new : Layout where
  own p := if p = headerPage then some .header else if p = 1 then some .tree else none
  root := ⟨0, []⟩
  foot := ⟨[(1, -1)], [1]⟩
  versions _ := []

theorem Layout.own_new {o : Owner} (h : Layout.new.own p = some o) :
    p = headerPage ∧ o = .header ∨ p = 1 ∧ o = .tree := by
  simp only [Layout.new] at h
  split at h
  · next hp => exact .inl ⟨hp, (Option.some.inj h).symm⟩
  · split at h
    · next hp => exact .inr ⟨hp, (Option.some.inj h).symm⟩
    · cases h

theorem Layout.mem_used_new : p ∈ Layout.new.used ↔ p = headerPage ∨ p = 1 := by
  simp only [used, Layout.new, Set.mem_ofPred_eq]
  by_cases h0 : p = headerPage
  · simp [h0]
  · by_cases h1 : p = 1 <;> simp [h0, h1]

namespace Engine

variable {lz4 : Lz4} {ps : Nat} {eng eng' : Engine} {L L' : Layout}

/-- The settings of a new database. -/
structure NewSettings (ps : Nat) (settings : EngineSettings) : Prop where
  pageSize : settings.pageSize = ps
  size : 1024 ≤ ps ∧ ps ≤ maxRecordSize
  aligned : minPageSize ∣ ps

/-- The engine of a new database, whose pins and allocations succeed. -/
def Created (ps : Nat) (eng : Engine) : Prop :=
  ∃ settings env, NewSettings ps settings ∧ env.Serves ∧
    engineInit .empty [] env settings = some eng

theorem NewSettings.header {settings : EngineSettings} (h : NewSettings ps settings) :
    (createDbHeader settings).rootPage = 1 ∧ (createDbHeader settings).magic = dbMagic ∧
      (createDbHeader settings).pageSize = ps := by
  have hsize := h.size
  have hps := h.pageSize
  obtain ⟨n, hn⟩ := h.aligned
  simp only [maxRecordSize, minPageSize] at hsize hn
  rw [createDbHeader, if_pos]
  · exact ⟨rfl, rfl, hps⟩
  · simp only [minPageSize, maxPageSize]
    omega

theorem magic_writeDbHeader (buf : PageBuffer) {header : DbHeader} (h : header.magic = dbMagic) :
    readInt32 (writeDbHeader buf header) pageHdrOffType ≠ NodeKind.chain.code := by
  have hw : readInt32 (writeDbHeader buf header) hdrOffMagic = dbMagic := by
    simp only [writeDbHeader, writeHeaderFields]
    rw [readInt32_writeInt32_of_ne (.inl (by decide))]
    iterate 12 rw [readInt32_writeInt32_of_ne (.inl (by decide))]
    rw [h]
    exact readInt32_writeInt32 _ _ (by decide)
  rw [hw]
  decide

/-- A header in its page. -/
theorem storeHeader_pool (h : eng.pool.Serves) : eng.storeHeader = { eng with
    pool := (eng.pool.setPage headerPage
      (writeDbHeader (eng.pool.pages headerPage) eng.header)).markDirty headerPage } := by
  rw [storeHeader, Pool.pinPage_eq h (by decide)]

/-- The header page and the root page are in use. -/
theorem owns_new {pool : Pool} (hs : pool.Serves) (hnext : pool.nextPage = 2)
    (hfree : pool.freeListHead = -1) : pool.Owns Layout.new.used where
  serves := hs
  next_nonneg := by omega
  range := by
    intro p hp
    rcases Layout.mem_used_new.mp hp with rfl | rfl
    · exact ⟨by decide, by rw [hnext]; decide⟩
    · exact ⟨by decide, by rw [hnext]; decide⟩
  free := ⟨[], hfree, List.nodup_nil, by simp⟩

theorem pageFits_new (h : 1024 ≤ ps ∧ ps ≤ maxRecordSize) : PageFits ps 14 := by
  simp only [maxRecordSize] at h
  refine ⟨?_, ?_, by decide⟩
  · omega
  · simp only [maxPageSize]
    omega

/-- The pool of a database without keys: the root is an empty leaf, and no page is a chain page. -/
structure EmptyPages (ps : Nat) (pool : Pool) : Prop where
  size : 1024 ≤ ps ∧ ps ≤ maxRecordSize
  pageSize : pool.pageSize = ps
  serves : pool.Serves
  nextPage : pool.nextPage = 2
  freeListHead : pool.freeListHead = -1
  leaf : HoldsNode ps (pool.pages 1) emptyNode
  quiet : ∀ p, 0 ≤ p → readInt32 (pool.pages p) pageHdrOffType ≠ NodeKind.chain.code

theorem nodeFits_emptyNode : NodeFits 14 emptyNode where
  shape := .inl ⟨rfl, rfl⟩
  level := by decide
  count := by decide
  entry := by simp [emptyNode]
  next := by decide
  prev := by decide
  child := by simp [emptyNode]

theorem EmptyPages.inv {pool : Pool} (h : EmptyPages ps pool) : PagesInv ps pool 1 .new := by
  have ho := owns_new h.serves h.nextPage h.freeListHead
  have h1 : (1 : Int) ∈ Layout.new.used := Layout.mem_used_new.mpr (.inr rfl)
  have hlive : Live 14 ps pool Layout.new.used := ⟨h.pageSize, pageFits_new h.size, ho⟩
  have htree := hlive.emptyTree h1
    ((hlive.loadNode h1).trans (h.leaf.load nodeFits_emptyNode (by decide)))
  exact {
    size := h.size
    tree := htree
    header := by simp [Layout.new]
    treeOwn := by simp [Layout.new]
    keyLen := by simp [Layout.new, Root.toList, toList]
    entry := by
      intro key v hv
      cases hv
    chain := by
      intro key cid hc
      rcases Layout.own_new hc with ⟨-, ho⟩ | ⟨-, ho⟩ <;> cases ho
    empty := fun _ => rfl
    nodup := fun _ => List.nodup_nil
    overflow := by
      intro key p hp
      cases hp
    quiet := fun p hp _ => .inl (h.quiet p hp)
    flat := by
      intro p key hp
      rcases Layout.own_new hp with ⟨-, ho⟩ | ⟨-, ho⟩ <;> cases ho }

theorem EmptyPages.flushPage {pool : Pool} (h : EmptyPages ps pool) (pid : Int) :
    EmptyPages ps (pool.flushPage pid) where
  size := h.size
  pageSize := Pool.flushPage_pageSize.trans h.pageSize
  serves := by
    rw [Pool.Serves, Pool.flushPage_env]
    exact h.serves
  nextPage := Pool.flushPage_nextPage.trans h.nextPage
  freeListHead := Pool.flushPage_freeListHead.trans h.freeListHead
  leaf := by
    rw [Pool.flushPage_pages]
    exact h.leaf
  quiet := by
    rw [Pool.flushPage_pages]
    exact h.quiet

theorem EmptyPages.foldl_flushPage {pool : Pool} (h : EmptyPages ps pool) (pids : List Int) :
    EmptyPages ps (pids.foldl Pool.flushPage pool) := by
  induction pids generalizing pool with
  | nil => exact h
  | cons pid pids ih => exact ih (h.flushPage pid)

/-- An engine on such a pool, without transactions. -/
theorem EmptyPages.engineInv (h : EmptyPages ps eng.pool) (hroot : eng.btreeRoot = 1)
    (hps : eng.pageSize = ps) (htxns : eng.txns = []) (hlocks : eng.lockMgr = []) :
    Inv ps eng .new := by
  refine ⟨⟨hroot ▸ h.inv, hps, ?_, ?_, ?_⟩, ?_⟩
  · rw [hlocks]
    exact ⟨List.nodup_nil, by simp⟩
  · rw [htxns]
    simp
  · show eng.pool.nextPage + 65 ≤ pageIdLimit
    rw [h.nextPage]
    decide
  · exact {
      ids := by simp [store, htxns]
      nodup := by simp [store, htxns, Mvcc.State.active]
      holder := by simp [store, hlocks, lockHolder]
      versions := by simp [store, Layout.new, chainOf]
      owned := by
        intro key
        simp only [store, hlocks, Layout.new]
        exact Mvcc.Owned.nil }

theorem loadPage_zero (ps : Nat) :
    (loadPage (fun _ => 0) ps).entryCount = 0 ∧ (loadPage (fun _ => 0) ps).kind = .internal := by
  have hcount : pageRecordCount (fun _ => 0) = 0 := by decide
  have hkind : readInt32 (fun _ => 0) 0 = 0 := by decide
  simp [loadPage, hcount, hkind, BtreeNode.entryCount, NodeKind.code]

/-- The root page of a new database holds zeros before it becomes an empty leaf. -/
theorem initRoot_pool (h : eng.pool.Serves) (hroot : eng.btreeRoot = 1)
    (hzero : eng.pool.pages 1 = fun _ => 0) :
    eng.initRoot = { eng with pool := storeDirty eng.pool 1 emptyNode } := by
  have hload : loadNode eng.pool 1 = loadPage (fun _ => 0) eng.pool.pageSize := by
    rw [loadNode_eq h (by decide), nodeAt, hzero]
  obtain ⟨hcount, hkind⟩ := loadPage_zero eng.pool.pageSize
  rw [initRoot, hroot, Pool.pinPage_eq h (by decide)]
  simp only [hload, hcount, hkind]
  rw [if_pos ⟨trivial, by decide⟩]

/-- What `garry_engine_init` does once the fields of the engine are set. -/
def initPages (eng : Engine) : Engine :=
  let eng := eng.storeHeader.initRoot
  let eng := { eng with
    header := { eng.header with
      freeListHead := eng.pool.freeListHead
      totalPages := eng.pool.nextPage } }.storeHeader
  { eng with pool := eng.pool.flushAll }

/-- Only the pages and the header are changed. -/
theorem initPages_fields (eng : Engine) :
    ∃ pool header, eng.initPages = { eng with pool := pool, header := header } := by
  have hheader (eng : Engine) : ∃ pool, eng.storeHeader = { eng with pool := pool } := by
    rw [storeHeader]
    split
    · exact ⟨_, rfl⟩
    · exact ⟨_, rfl⟩
  have hroot (eng : Engine) : ∃ pool, eng.initRoot = { eng with pool := pool } := by
    rw [initRoot]
    split
    · exact ⟨_, rfl⟩
    simp only
    split
    · exact ⟨_, rfl⟩
    · exact ⟨_, rfl⟩
  obtain ⟨pool₁, h₁⟩ := hheader eng
  obtain ⟨pool₂, h₂⟩ := hroot { eng with pool := pool₁ }
  rw [initPages, h₁, h₂]
  simp only
  obtain ⟨pool₃, h₃⟩ := hheader { eng with
    pool := pool₂
    header := { eng.header with freeListHead := pool₂.freeListHead, totalPages := pool₂.nextPage } }
  rw [h₃]
  exact ⟨_, _, rfl⟩

/-- What a new engine starts from: nothing in the file, and the settings. -/
structure Start (ps : Nat) (eng : Engine) : Prop where
  size : 1024 ≤ ps ∧ ps ≤ maxRecordSize
  poolPageSize : eng.pool.pageSize = ps
  serves : eng.pool.Serves
  nextPage : eng.pool.nextPage = 2
  freeListHead : eng.pool.freeListHead = -1
  pages : ∀ p, eng.pool.pages p = fun _ => 0
  clean : eng.pool.dirty = []
  file : eng.pool.file = .empty
  pageSize : eng.pageSize = ps
  headerPageSize : eng.header.pageSize = ps
  magic : eng.header.magic = dbMagic
  root : eng.btreeRoot = 1
  nextTxid : eng.nextTxid = 1
  txns : eng.txns = []
  lockMgr : eng.lockMgr = []
  keyCount : eng.keyCount = 0

theorem Created.start (h : Created ps eng) : ∃ eng₀, Start ps eng₀ ∧ eng = eng₀.initPages := by
  obtain ⟨settings, env, hset, he, hinit⟩ := h
  have hps := hset.size
  simp only [maxRecordSize] at hps
  have hsize : settings.pageSize.toNat = ps := by
    have := hset.pageSize
    omega
  obtain ⟨hroot, hmagic, hpageSize⟩ := hset.header
  have hzero (p : Int) : DataFile.empty.readPage ps p = fun _ => 0 := by
    rw [DataFile.readPage, if_neg]
    have : 0 < (p.toNat + 1) * ps := Nat.mul_pos (Nat.succ_pos _) (by omega)
    simp only [DataFile.empty]
    omega
  rw [engineInit, hsize, Pool.create, if_neg (by simp only [minPageSize, maxPageSize]; omega)]
    at hinit
  cases hinit
  exact ⟨_, ⟨hset.size, rfl, he, rfl, rfl, hzero, rfl, rfl, rfl, hpageSize, hmagic, hroot, rfl, rfl,
    rfl, rfl⟩, rfl⟩

/-- The pool of a new engine before it is flushed: the header page and the root page are written. -/
structure FirstPages (ps : Nat) (pool : Pool) : Prop extends EmptyPages ps pool where
  dirty : ∀ p, p ∈ pool.dirty ↔ p = headerPage ∨ p = 1
  file : pool.file = .empty

/-- The pages of a new database. -/
theorem Start.initPages_eq (h : Start ps eng) : ∃ pool header, FirstPages ps pool ∧
    header.magic = dbMagic ∧ header.pageSize = (ps : Int) ∧ header.totalPages = 2 ∧
    eng.initPages = { eng with header := header, pool := pool.flushAll } := by
  obtain ⟨buf, hbuf⟩ : ∃ buf, writeDbHeader (eng.pool.pages headerPage) eng.header = buf := ⟨_, rfl⟩
  obtain ⟨pool₁, hpool₁⟩ : ∃ pool₁, (eng.pool.setPage headerPage buf).markDirty headerPage = pool₁ :=
    ⟨_, rfl⟩
  have hserves : pool₁.Serves := hpool₁ ▸ h.serves
  have hsize : pool₁.pageSize = ps := hpool₁ ▸ h.poolPageSize
  have hzero : pool₁.pages 1 = fun _ => 0 := by
    rw [← hpool₁, Pool.markDirty_pages, Pool.setPage_pages_of_ne (by decide), h.pages]
  obtain ⟨root, hstore, hroot⟩ := storeNode_holds hserves (show (0 : Int) ≤ 1 by decide)
    nodeFits_emptyNode (hsize ▸ pageFits_new h.size)
  have hinit := @initRoot_pool { eng with pool := pool₁ } hserves h.root hzero
  simp only [storeDirty, hstore] at hinit
  obtain ⟨pool₂, hpool₂⟩ : ∃ pool₂, ((pool₁.setPage 1 root).markDirty 1).markDirty 1 = pool₂ :=
    ⟨_, rfl⟩
  rw [hpool₂] at hinit
  have hserves₂ : pool₂.Serves := hpool₂ ▸ hserves
  obtain ⟨header, hheader⟩ : ∃ header : DbHeader, { eng.header with
    freeListHead := pool₂.freeListHead, totalPages := pool₂.nextPage } = header := ⟨_, rfl⟩
  have hnext : pool₂.nextPage = 2 := by
    rw [← hpool₂, ← hpool₁]
    exact h.nextPage
  have hmagic : header.magic = dbMagic := hheader ▸ h.magic
  refine ⟨(pool₂.setPage headerPage (writeDbHeader (pool₂.pages headerPage) header)).markDirty
    headerPage, header, ?_, hmagic, hheader ▸ h.headerPageSize, hheader ▸ hnext, ?_⟩
  · have hpages (p : Int) (h0 : p ≠ headerPage) (h1 : p ≠ 1) : pool₂.pages p = fun _ => 0 := by
      rw [← hpool₂, ← hpool₁]
      simp only [Pool.markDirty_pages, Pool.setPage_pages_of_ne h0, Pool.setPage_pages_of_ne h1]
      exact h.pages p
    have hleaf : pool₂.pages 1 = root := by
      rw [← hpool₂, Pool.markDirty_pages, Pool.markDirty_pages, Pool.setPage_pages_self]
    rw [hsize] at hroot
    exact {
      size := h.size
      pageSize := by
        rw [← hpool₂]
        exact hsize
      serves := hserves₂
      nextPage := hnext
      freeListHead := by
        rw [← hpool₂, ← hpool₁]
        exact h.freeListHead
      leaf := by
        rw [Pool.markDirty_pages, Pool.setPage_pages_of_ne (by decide), hleaf]
        exact hroot
      quiet := by
        intro p _
        rw [Pool.markDirty_pages]
        by_cases h0 : p = headerPage
        · rw [h0, Pool.setPage_pages_self]
          exact magic_writeDbHeader _ hmagic
        rw [Pool.setPage_pages_of_ne h0]
        by_cases h1 : p = 1
        · rw [h1, hleaf, hroot.kind]
          decide
        · rw [hpages p h0 h1]
          decide
      dirty := by
        intro p
        rw [← hpool₂, ← hpool₁]
        simp [Pool.markDirty, Pool.setPage, h.clean]
        tauto
      file := by
        rw [← hpool₂, ← hpool₁]
        exact h.file }
  · rw [initPages, storeHeader_pool h.serves, hbuf, hpool₁, hinit]
    simp only [hheader]
    rw [storeHeader_pool hserves₂]

/-- The engine of a new database. -/
theorem Created.inv (h : Created ps eng) :
    Inv ps eng .new ∧ eng.txns = [] ∧ eng.nextTxid = 1 ∧ eng.header.totalPages = 2 := by
  obtain ⟨eng₀, h0, rfl⟩ := h.start
  obtain ⟨pool, header, hpool, -, -, ht, heq⟩ := h0.initPages_eq
  rw [heq]
  exact ⟨(hpool.toEmptyPages.foldl_flushPage _).engineInv h0.root h0.pageSize h0.txns h0.lockMgr,
    h0.txns, h0.nextTxid, ht⟩

/-! ## Calls -/

/-- What a program keeps to and what does not run out: the lengths of keys and values, the ids of
transactions and pages, and frames that serve. -/
def Proper (lz4 : Lz4) (eng eng' : Engine) (op : EngineOp) : Prop :=
  eng'.HasIds ∧
    match op with
    | .begin => Fits32 eng.nextTxid
    | .set _ key value => key.length ≤ 255 ∧ ∀ v ∈ eng.stored lz4 value, Fits32 v.length
    | .frames env => env.Serves
    | _ => True

/-- A key that is in the tree stays there with its descriptor. -/
theorem TreeStep.lookup {key key' : Bytes} (h : TreeStep ps eng eng' L L' key') (hi : Inv ps eng L)
    (hl : L.lookup key = some v) : L'.lookup key = some v := by
  cases h with
  | same _ hroot =>
    rw [Layout.lookup, hroot]
    exact hl
  | insert w hnone hroot =>
    have hne : key ≠ key' := by
      rintro rfl
      rw [hl] at hnone
      cases hnone
    have hins := (@Root.Wf.insert _ _ _ 2 maxKeysPerNode _ (by decide) (by decide) (by decide)
      hi.pages.tree.wf key' w).2
    rw [Layout.lookup, hroot, hins, SortedAssoc.lookup_insert, if_neg hne]
    exact hl

/-- The chain page of a key stays. -/
theorem TreeStep.chain {key key' : Bytes} (h : TreeStep ps eng eng' L L' key') (hi : Inv ps eng L)
    (hi' : Inv ps eng' L') (hc : L.own cid = some (.chain key)) : L'.own cid = some (.chain key) := by
  obtain ⟨-, hown⟩ := hi'.toSound.lookup (h.lookup hi (hi.pages.chain hc).1)
  have hr := hi.pages.range hc
  have hn := hi.next_le
  rwa [decodeCidFromDescriptor_encode hr.1 (by omega)] at hown

/-- What a call does to the multi-version store, with `put` for what is stored for a value. -/
def Acts (put : Bytes → Option Bytes) (s s' : Mvcc.State Bytes Bytes Bytes) : EngineOp → Prop
  | .begin => s' = s ∨ s' = s.begin
  | .set txn key value => ∃ ok, Written s s' txn key (put value) ok ∧ (ok = true → (put value).isSome)
  | .delete txn key => ∃ ok, Written s s' txn key none ok
  | .commit txn => s' = s.commit txn
  | .rollback txn => s' = s.rollback txn
  | .gc => Mvcc.Pruned s s'
  | .checkpoint => Mvcc.Pruned s s'
  | .evict _ => s' = s
  | .frames _ => s' = s

/-- Every call keeps the invariant, the pages of the log and what is in the file, acts on the store
and takes a step of the tree. -/
theorem Inv.call (h : Inv ps eng L) {op : EngineOp} (hs : eng.step lz4 op = some eng')
    (hp : Proper lz4 eng eng' op) :
    ∃ L', Inv ps eng' L' ∧ Acts (eng.stored lz4) (eng.store L) (eng'.store L') op ∧
      (∃ key, TreeStep ps eng eng' L L' key) ∧ LogKept eng.pool eng'.pool L L' ∧
      (Flushed eng.pool L → Flushed eng'.pool L') ∧
      (op ≠ .gc → op ≠ .checkpoint → VersionsKept eng.pool eng'.pool L L') := by
  obtain ⟨hids, hp⟩ := hp
  have hsame {eng' : Engine} (hr : eng'.btreeRoot = eng.btreeRoot)
      (hpages : eng'.pool.pages = eng.pool.pages)
      (hflushed : Flushed eng.pool L → Flushed eng'.pool L) :
      (∃ key, TreeStep ps eng eng' L L key) ∧ LogKept eng.pool eng'.pool L L ∧
      (Flushed eng.pool L → Flushed eng'.pool L) ∧
      (op ≠ .gc → op ≠ .checkpoint → VersionsKept eng.pool eng'.pool L L) := by
    have hlog : LogKept eng.pool eng'.pool L L := fun p ho => ⟨ho, congrFun hpages p⟩
    exact ⟨⟨[], .same hr rfl rfl fun p _ => congrFun hpages p⟩, hlog, hflushed, fun _ _ =>
      ⟨hlog, fun ho => ⟨ho, congrFun hpages _⟩, fun _ => List.prefix_refl _, hflushed⟩⟩
  cases op with
  | begin =>
    cases hs
    rcases begins_or eng with e | hb
    · rw [e]
      exact ⟨L, h, .inl rfl, hsame rfl rfl id⟩
    · obtain ⟨hi, -, hst⟩ := h.begin hb hp
      refine ⟨L, hi, .inr hst, ?_⟩
      rw [hb.eq]
      exact hsame rfl rfl id
  | set txn key value =>
    obtain ⟨⟨ok, eng₁⟩, hset, rfl⟩ := Option.map_eq_some_iff.mp hs
    obtain ⟨L', hi, hw, hok, ht, hlog⟩ := h.set hp.1 hp.2 hset hids
    refine ⟨L', hi, ⟨ok, hw, ?_⟩, ⟨key, ht⟩, hlog.versions.log, hlog.versions.flushed,
      fun _ _ => hlog.versions⟩
    rintro rfl
    cases hput : eng.stored lz4 value with
    | none =>
      rw [hput, Option.any_none, Bool.and_false] at hok
      cases hok
    | some v => rfl
  | delete txn key =>
    obtain ⟨ok, eng₁, L', hdel, hi, hw, -, ht, hlog⟩ := h.delete txn key
    rw [Engine.step, hdel] at hs
    cases hs
    exact ⟨L', hi, ⟨ok, hw⟩, ⟨key, ht⟩, hlog.log, hlog.flushed, fun _ _ => hlog⟩
  | commit txn =>
    cases hs
    obtain ⟨hi, hst⟩ := h.commit txn
    exact ⟨L, hi, hst, hsame rfl (pages_foldl_flushPage _ _) fun hf => h.pages.flushed_foldl hf _⟩
  | rollback txn =>
    cases hs
    obtain ⟨hi, hst⟩ := h.rollback txn
    exact ⟨L, hi, hst, hsame rfl rfl id⟩
  | gc =>
    obtain ⟨eng₁, L', hgc, hi, hpr, ht⟩ := h.gc
    rw [Engine.step, hgc] at hs
    cases hs
    exact ⟨L', hi, hpr, ⟨[], ht.step⟩, ht.log, ht.flushed, fun hno _ => absurd rfl hno⟩
  | checkpoint =>
    obtain ⟨lsn, eng₁, L', hgc, hi, hpr, ht⟩ := h.checkpoint
    rw [Engine.step, hgc] at hs
    cases hs
    exact ⟨L', hi, hpr, ⟨[], ht.step⟩, ht.log, ht.flushed, fun _ hno => absurd rfl hno⟩
  | evict pid =>
    cases hs
    exact ⟨L, h.evict pid, rfl, hsame rfl Pool.flushPage_pages fun hf => h.pages.flushed_foldl hf [pid]⟩
  | frames env =>
    cases hs
    exact ⟨L, h.frames hp, rfl, hsame rfl rfl fun hf => ⟨hf.paged, hf.chain, hf.overflow⟩⟩

/-! ## Runs -/

/-- A run of calls from an engine, every one with `ok`. -/
inductive Run (lz4 : Lz4) (ok : Engine → Engine → EngineOp → Prop) (eng : Engine) : Engine → Prop
  | refl : Run lz4 ok eng eng
  | step {eng' eng'' : Engine} {op : EngineOp} : Run lz4 ok eng eng' →
    eng'.step lz4 op = some eng'' → ok eng' eng'' op → Run lz4 ok eng eng''

variable {ok : Engine → Engine → EngineOp → Prop}

/-- The invariant holds after every run of proper calls. -/
theorem Run.inv (hrun : Run lz4 ok eng eng') (hok : ∀ eng eng' op, ok eng eng' op →
    Proper lz4 eng eng' op) (h : Inv ps eng L) : ∃ L', Inv ps eng' L' := by
  induction hrun with
  | refl => exact ⟨L, h⟩
  | step _ hs hp ih =>
    obtain ⟨L₁, h₁⟩ := ih
    obtain ⟨L₂, h₂, -⟩ := h₁.call hs (hok _ _ _ hp)
    exact ⟨L₂, h₂⟩

/-- The compression of a database is fixed. -/
theorem Run.compression (hrun : Run lz4 ok eng eng') : eng'.compression = eng.compression := by
  induction hrun with
  | refl => rfl
  | step _ hs _ ih =>
    rename_i eng₁ eng₂ op _ _
    rw [← ih]
    by_cases hb : op = .begin
    · subst hb
      cases hs
      rcases begins_or eng₁ with e | hb
      · rw [e]
      · rw [hb.eq]
    · exact (logs_step hb hs).compression

/-! ## Runs that can be evaluated -/

instance : Decidable eng.HasIds := inferInstanceAs (Decidable (_ ≤ _))

instance : Decidable (Fits32 v) := inferInstanceAs (Decidable (_ ∧ _))

/-- The check of `Proper`; the frames stay as they are. -/
def isProper (lz4 : Lz4) (eng eng' : Engine) (op : EngineOp) : Bool :=
  decide eng'.HasIds &&
    match op with
    | .begin => decide (Fits32 eng.nextTxid)
    | .set _ key value => decide (key.length ≤ 255 ∧ ∀ v ∈ eng.stored lz4 value, Fits32 v.length)
    | .frames _ => false
    | _ => true

theorem proper_of_isProper {op : EngineOp} (h : isProper lz4 eng eng' op = true) :
    Proper lz4 eng eng' op := by
  obtain ⟨h1, h2⟩ := Bool.and_eq_true_iff.mp h
  have h1 := of_decide_eq_true h1
  cases op with
  | begin => exact ⟨h1, of_decide_eq_true h2⟩
  | set txn key value => exact ⟨h1, of_decide_eq_true h2⟩
  | frames env => cases h2
  | delete txn key => exact ⟨h1, trivial⟩
  | commit txn => exact ⟨h1, trivial⟩
  | rollback txn => exact ⟨h1, trivial⟩
  | gc => exact ⟨h1, trivial⟩
  | checkpoint => exact ⟨h1, trivial⟩
  | evict pid => exact ⟨h1, trivial⟩

/-- The engine after proper calls. -/
def runCalls (lz4 : Lz4) (eng : Engine) : List EngineOp → Option Engine
  | [] => some eng
  | op :: ops =>
    (eng.step lz4 op).bind fun eng' =>
      if isProper lz4 eng eng' op then eng'.runCalls lz4 ops else none

theorem Run.calls {eng'' : Engine} {ops : List EngineOp} (hrun : eng.Run lz4 (Proper lz4) eng')
    (h : eng'.runCalls lz4 ops = some eng'') : eng.Run lz4 (Proper lz4) eng'' := by
  induction ops generalizing eng' with
  | nil =>
    cases h
    exact hrun
  | cons op ops ih =>
    rw [runCalls] at h
    obtain ⟨eng₁, hs, h⟩ := Option.bind_eq_some_iff.mp h
    split at h
    · next hp => exact ih (hrun.step hs (proper_of_isProper hp)) h
    · cases h

/-- A new database with pages of 1024 bytes, and calls on it. -/
def newCalls (ops : List EngineOp) : Option Engine :=
  (engineInit .empty [] .roomy { defaultEngineSettings with pageSize := 1024 }).bind fun eng =>
    eng.runCalls .stored ops

theorem created_of_engineInit
    (h : engineInit .empty [] .roomy { defaultEngineSettings with pageSize := 1024 } = some eng) :
    Created 1024 eng ∧ eng.compression ≠ compressLz4 := by
  have hset : NewSettings 1024 { defaultEngineSettings with pageSize := 1024 } :=
    ⟨rfl, by decide, ⟨2, rfl⟩⟩
  have hraw : eng.compression ≠ compressLz4 := by
    have hc : (engineInit .empty [] .roomy { defaultEngineSettings with pageSize := 1024 }).map
        Engine.compression = some defaultEngineSettings.compression := by
      decide +kernel
    rw [h] at hc
    rw [Option.some.inj hc]
    decide
  exact ⟨⟨_, .roomy, hset, ⟨fun _ => rfl, fun _ => rfl⟩, h⟩, hraw⟩

theorem run_of_newCalls {ops : List EngineOp} (h : newCalls ops = some eng') :
    ∃ eng, Created 1024 eng ∧ eng.compression ≠ compressLz4 ∧
      eng.Run .stored (Proper .stored) eng' := by
  obtain ⟨eng, heng, h⟩ := Option.bind_eq_some_iff.mp h
  obtain ⟨h0, hraw⟩ := created_of_engineInit heng
  exact ⟨eng, h0, hraw, Run.refl.calls h⟩

end Engine

end Garry
