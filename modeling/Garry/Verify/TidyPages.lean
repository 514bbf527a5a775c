import Garry.Verify.EngineHistory

/-!
# Tidy pools

A page is slotted when the page functions read nothing behind its end. Every page but the header
page stays so, and a page that is not dirty stays in the file as the pool has it.
-/

namespace Garry

open ByteStore

variable {ps : Nat} {buf buf' : PageBuffer} {pool pool' : Pool} {s s' : Set Int}

/-! ## Slotted pages -/

/-- The page has never been set up. -/
structure Blank (buf : PageBuffer) : Prop where
  count : readInt32 buf pageHdrOffCount = 0
  freeStart : readInt32 buf pageHdrOffFreeStart = 0
  freeEnd : readInt32 buf pageHdrOffFreeEnd = 0

/-- A blank page, or one that holds records. -/
def Slotted (ps : Nat) (buf : PageBuffer) : Prop := Blank buf ∨ ∃ recs, Holds ps buf recs

theorem Blank.zero : Blank fun _ => 0 := ⟨by decide, by decide, by decide⟩

theorem Holds.slotted {recs : List Bytes} (H : Holds ps buf recs) : Slotted ps buf := .inr ⟨recs, H⟩

theorem Slotted.zero : Slotted ps fun _ => 0 := .inl .zero

theorem Slotted.congr (h : Slotted ps buf) (hps : pageHeaderSize ≤ ps)
    (he : ∀ i < ps, buf i = buf' i) : Slotted ps buf' := by
  have word (o : Nat) (ho : o + 4 ≤ pageHeaderSize) : readInt32 buf' o = readInt32 buf o :=
    readInt32_congr fun j hj => (he (o + j) (by omega)).symm
  rcases h with hb | ⟨recs, H⟩
  · exact .inl ⟨(word _ (by decide)).trans hb.count, (word _ (by decide)).trans hb.freeStart,
      (word _ (by decide)).trans hb.freeEnd⟩
  · exact (H.congr he).slotted

theorem Slotted.init (hps : pageHeaderSize ≤ ps ∧ ps ≤ maxPageSize) (buf : PageBuffer)
    (kind : NodeKind) (level : Int) : Slotted ps (pageInit buf kind level ps) :=
  (pageInit_holds buf kind level hps.1 hps.2).slotted

/-- The first word of a page is no part of its directory. -/
theorem Holds.writeType {recs : List Bytes} (H : Holds ps buf recs) (v : Int) :
    Holds ps (writeInt32 buf pageHdrOffType v) recs := by
  have word (o : Nat) (ho : 4 ≤ o) :
      readInt32 (writeInt32 buf pageHdrOffType v) o = readInt32 buf o :=
    readInt32_writeInt32_of_ne (.inr ho)
  have hf : pageHeaderSize + slotSize * recs.length + usedBytes recs ≤ ps := H.fits
  refine { H with
    count := (word _ (by decide)).trans H.count
    freeStart := (word _ (by decide)).trans H.freeStart
    freeEnd := (word _ (by decide)).trans H.freeEnd
    slot := fun hi => (readSlot_writeInt32 (by decide)).trans (H.slot hi)
    record := fun {i r} hi => ?_ }
  have h2 := usedBytes_take_le recs (i + 1)
  conv_rhs => rw [← H.record hi]
  refine slice_congr fun j _ => writeInt32_of_ne (.inr ?_)
  simp only [pageHeaderSize, pageHdrOffType] at hf ⊢
  omega

theorem Slotted.writeType (h : Slotted ps buf) (v : Int) :
    Slotted ps (writeInt32 buf pageHdrOffType v) := by
  rcases h with hb | ⟨recs, H⟩
  · refine .inl ⟨?_, ?_, ?_⟩
    · exact (readInt32_writeInt32_of_ne (.inr (by decide))).trans hb.count
    · exact (readInt32_writeInt32_of_ne (.inr (by decide))).trans hb.freeStart
    · exact (readInt32_writeInt32_of_ne (.inr (by decide))).trans hb.freeEnd
  · exact (H.writeType v).slotted

theorem Holds.insert {recs : List Bytes} (H : Holds ps buf recs) (hd : data ≠ [])
    (hi : pageInsert buf data = some (i, buf')) : Holds ps buf' (recs ++ [data]) := by
  have hroom : HasRoom ps recs data.length := by
    by_contra hno
    rw [pageInsert_none H hno] at hi
    cases hi
  obtain ⟨buf₁, hi', H', -⟩ := pageInsert_some H hd hroom
  obtain ⟨-, rfl⟩ := Prod.mk.inj (Option.some.inj (hi'.symm.trans hi))
  exact H'

/-- A page that takes a record is set up. -/
theorem Slotted.insert (h : Slotted ps buf) (hd : data ≠ [])
    (hi : pageInsert buf data = some (i, buf')) : Slotted ps buf' := by
  rcases h with hb | ⟨recs, H⟩
  · rw [pageInsert] at hi
    simp only [hb.count, hb.freeStart, hb.freeEnd] at hi
    cases hi
  · exact (H.insert hd hi).slotted

theorem insertRecords_slotted {recs : List Bytes} (h : Slotted ps buf) (hd : ∀ d ∈ recs, d ≠ []) :
    Slotted ps (insertRecords buf recs).1 := by
  induction recs generalizing buf with
  | nil => exact h
  | cons data recs ih =>
    rw [insertRecords]
    split
    · exact h
    · next hi =>
      apply ih (h.insert (hd data List.mem_cons_self) hi)
      exact fun d hm => hd d (List.mem_cons_of_mem _ hm)

theorem pruneInsert_slotted {recs : List Bytes} (h : Slotted ps buf) (hd : ∀ d ∈ recs, d ≠ [])
    (hi : pruneInsert buf recs = some buf') : Slotted ps buf' := by
  induction recs generalizing buf with
  | nil =>
    cases hi
    exact h
  | cons data recs ih =>
    rw [pruneInsert] at hi
    obtain ⟨⟨i, buf₁⟩, hins, hi⟩ := Option.bind_eq_some_iff.mp hi
    exact ih (h.insert (hd data List.mem_cons_self) hins)
      (fun d hm => hd d (List.mem_cons_of_mem _ hm)) hi

/-- The page has no record. -/
def Bare (ps : Nat) (buf : PageBuffer) : Prop := Blank buf ∨ Holds ps buf []

theorem Bare.slotted (h : Bare ps buf) : Slotted ps buf := h.imp_right fun H => ⟨[], H⟩

/-- Only the header of such a page matters. -/
theorem Bare.congr (h : Bare ps buf) (he : ∀ i < pageHeaderSize, buf' i = buf i) : Bare ps buf' := by
  have word (o : Nat) (ho : o + 4 ≤ pageHeaderSize) : readInt32 buf' o = readInt32 buf o :=
    readInt32_congr fun j hj => he (o + j) (by omega)
  have hcount := word pageHdrOffCount (by decide)
  have hstart := word pageHdrOffFreeStart (by decide)
  have hend := word pageHdrOffFreeEnd (by decide)
  rcases h with hb | H
  · exact .inl ⟨hcount.trans hb.count, hstart.trans hb.freeStart, hend.trans hb.freeEnd⟩
  · exact .inr { H with
      count := hcount.trans H.count
      freeStart := hstart.trans H.freeStart
      freeEnd := hend.trans H.freeEnd
      slot := fun h => absurd (List.mem_of_getElem? h) List.not_mem_nil
      record := fun h => absurd (List.mem_of_getElem? h) List.not_mem_nil }

theorem bare_overflowPage (hps : pageHeaderSize ≤ ps ∧ ps ≤ maxPageSize) (buf : PageBuffer)
    (chunk : Bytes) : Bare ps (overflowPage buf ps chunk) := by
  refine Bare.congr (.inr (pageInit_holds buf .overflow 0 hps.1 hps.2)) fun i hi => ?_
  rw [overflowPage, writeInt32_of_ne (.inl hi), copyBytesIn, blit_of_lt]
  exact Nat.lt_add_right _ hi

/-! ## Tidy pools -/

/-- What is not dirty is in the file, but for some pages, and every page but the header is slotted. -/
structure Tidy (ps : Nat) (s : Set Int) (pool : Pool) : Prop where
  sized : pageHeaderSize ≤ ps ∧ ps ≤ maxPageSize
  pageSize : pool.pageSize = ps
  serves : pool.Serves
  next : 0 ≤ pool.nextPage
  paged : pool.file.Paged ps
  same : ∀ p, 0 ≤ p → p ∉ s → p ∉ pool.dirty → ∀ i < ps,
    pool.file.bytes (p.toNat * ps + i) = pool.pages p i
  slotted : ∀ p, 0 < p → Slotted ps (pool.pages p)

namespace Tidy

theorem mono (h : Tidy ps s pool) (hsub : s ⊆ s') : Tidy ps s' pool :=
  { h with same := fun p hp hs => h.same p hp fun hm => hs (hsub hm) }

theorem setPage (h : Tidy ps s pool) (hb : 0 < pid → Slotted ps buf) :
    Tidy ps (insert pid s) (pool.setPage pid buf) where
  sized := h.sized
  pageSize := h.pageSize
  serves := h.serves
  next := h.next
  paged := h.paged
  same p hp hs hd i hi := by
    rw [Set.mem_insert_iff, not_or] at hs
    rw [Pool.setPage_pages_of_ne hs.1]
    exact h.same p hp hs.2 hd i hi
  slotted p hp := by
    by_cases he : p = pid
    · rw [he, Pool.setPage_pages_self]
      exact hb (he ▸ hp)
    · rw [Pool.setPage_pages_of_ne he]
      exact h.slotted p hp

theorem markDirty (h : Tidy ps (insert pid s) pool) : Tidy ps s (pool.markDirty pid) where
  sized := h.sized
  pageSize := h.pageSize
  serves := h.serves
  next := h.next
  paged := h.paged
  same p hp hs hd i hi := by
    simp only [Pool.markDirty, List.mem_cons, not_or] at hd
    refine h.same p hp (fun hm => ?_) hd.2 i hi
    rcases hm with hm | hm
    · exact hd.1 hm
    · exact hs hm
  slotted := h.slotted

/-- A page is changed and marked. -/
theorem change (h : Tidy ps s pool) (hb : 0 < pid → Slotted ps buf) :
    Tidy ps s ((pool.setPage pid buf).markDirty pid) := (h.setPage hb).markDirty

/-- A page that was left out is changed. -/
theorem settle (h : Tidy ps (insert pid s) pool) (hb : 0 < pid → Slotted ps buf) :
    Tidy ps s ((pool.setPage pid buf).markDirty pid) := by
  have hs := h.setPage hb
  rw [Set.insert_idem] at hs
  exact hs.markDirty

theorem flushPage (h : Tidy ps s pool) (pid : Int) : Tidy ps s (pool.flushPage pid) where
  sized := h.sized
  pageSize := Pool.flushPage_pageSize.trans h.pageSize
  serves := by
    rw [Pool.Serves, Pool.flushPage_env]
    exact h.serves
  next := Pool.flushPage_nextPage.symm ▸ h.next
  paged := by
    rw [← h.pageSize]
    exact paged_flushPage (h.pageSize.symm ▸ h.paged) pid
  same p hp hs hd i hi := by
    by_cases he : pid = p
    · subst he
      by_cases hw : pid ∈ pool.dirty
      · have hst := (pageStored_flushPage hp hw).2 i
        rw [Pool.flushPage_pageSize, h.pageSize] at hst
        exact hst hi
      · rw [Pool.flushPage, if_neg fun hc => hw hc.2] at hd ⊢
        exact h.same pid hp hs hd i hi
    · have hbytes := @bytes_flushPage pool p pid i hp he (h.pageSize.symm ▸ hi)
      rw [h.pageSize] at hbytes
      rw [hbytes, Pool.flushPage_pages]
      exact h.same p hp hs (fun hm => hd ((mem_dirty_flushPage he).mpr hm)) i hi
  slotted p hp := by
    rw [Pool.flushPage_pages]
    exact h.slotted p hp

theorem foldl_flushPage (h : Tidy ps s pool) (pids : List Int) :
    Tidy ps s (pids.foldl Pool.flushPage pool) := by
  induction pids generalizing pool with
  | nil => exact h
  | cons pid pids ih => exact ih (h.flushPage pid)

theorem withEnv {env : PoolEnv} (h : Tidy ps s pool) (he : env.Serves) :
    Tidy ps s (pool.withEnv env) := { h with serves := he }

/-- Another head of the free list. -/
theorem withHead (h : Tidy ps s pool) (head : Int) : Tidy ps s { pool with freeListHead := head } :=
  { h with }

theorem handOut (h : Tidy ps s pool) (pid : Int) : Tidy ps (insert pid s) (pool.handOut pid) where
  sized := h.sized
  pageSize := h.pageSize
  serves := h.serves
  next := h.next
  paged := h.paged
  same p hp hs hd i hi := by
    rw [Set.mem_insert_iff, not_or] at hs
    have hpage : (pool.handOut pid).pages p = pool.pages p := Function.update_of_ne hs.1 _ _
    rw [hpage]
    refine h.same p hp hs.2 (fun hm => hd ?_) i hi
    exact List.mem_filter.mpr ⟨hm, decide_eq_true hs.1⟩
  slotted p hp := by
    by_cases he : p = pid
    · rw [he, Pool.handOut]
      simp only [Function.update_self]
      exact .zero
    · rw [Pool.handOut]
      simp only [Function.update_of_ne he]
      exact h.slotted p hp

/-- The page that is handed out holds zeros and is not dirty. -/
theorem allocate (h : Tidy ps s pool) :
    0 ≤ pool.allocate.1 ∧ Tidy ps (insert pool.allocate.1 s) pool.allocate.2 := by
  rw [Pool.allocate]
  split
  · next hhead =>
    simp only [h.serves.alloc, Bool.false_eq_true, if_false]
    exact ⟨hhead, (h.withHead _).handOut _⟩
  · simp only [h.serves.alloc, Bool.false_eq_true, if_false, if_neg (not_lt.mpr h.next)]
    have hn : Tidy ps s { pool with nextPage := pool.nextPage + 1 } :=
      { h with next := Int.le_add_one h.next }
    exact ⟨h.next, hn.handOut _⟩

theorem freePage (h : Tidy ps s pool) (pid : Int) : Tidy ps s (pool.freePage pid) := by
  rw [Pool.freePage]
  split
  · exact h
  simp only [h.serves.pin, Bool.false_eq_true, if_false]
  apply withHead
  exact h.change fun hp => (h.slotted pid hp).writeType _

end Tidy

/-! ## Insertion -/

/-- The pages that change are slotted afterwards. -/
structure Slots (ps : Nat) (pool pool' : Pool) : Prop where
  pageSize : pool.pageSize = ps → pool'.pageSize = ps
  pages : ∀ p, pool'.pages p = pool.pages p ∨ Slotted ps (pool'.pages p)

namespace Slots

theorem refl : Slots ps pool pool := ⟨id, fun _ => .inl rfl⟩

theorem trans {pool'' : Pool} (h : Slots ps pool pool') (h' : Slots ps pool' pool'') :
    Slots ps pool pool'' where
  pageSize hp := h'.pageSize (h.pageSize hp)
  pages p := by
    rcases h'.pages p with e | e
    · rw [e]
      exact h.pages p
    · exact .inr e

theorem setPage (h : Slots ps pool pool') (hb : Slotted ps buf) :
    Slots ps pool (pool'.setPage pid buf) where
  pageSize := h.pageSize
  pages p := by
    by_cases hp : p = pid
    · rw [hp, Pool.setPage_pages_self]
      exact .inr hb
    · rw [Pool.setPage_pages_of_ne hp]
      exact h.pages p

theorem markDirty (h : Slots ps pool pool') : Slots ps pool (pool'.markDirty pid) :=
  ⟨h.pageSize, h.pages⟩

end Slots

/-- A page that is not handed out stays. -/
theorem pages_allocate (pool : Pool) (p : Int) :
    pool.allocate.2.pages p = pool.pages p ∨ pool.allocate.2.pages p = fun _ => 0 := by
  have hand (pool' : Pool) (hp : pool'.pages = pool.pages) (pid : Int) :
      (pool'.handOut pid).pages p = pool.pages p ∨ (pool'.handOut pid).pages p = fun _ => 0 := by
    rw [Pool.handOut, ← hp]
    by_cases hq : p = pid
    · simp only [hq, Function.update_self]
      exact .inr trivial
    · exact .inl (Function.update_of_ne hq _ _)
  rw [Pool.allocate]
  split
  · simp only
    split
    · exact .inl rfl
    · exact hand _ rfl _
  split
  · exact .inl rfl
  split
  · exact .inl rfl
  · exact hand _ rfl _

theorem slots_allocate : Slots ps pool pool.allocate.2 where
  pageSize hp := by
    rw [Pool.allocate]
    split
    · simp only
      split <;> exact hp
    split
    · exact hp
    split <;> exact hp
  pages p := (pages_allocate pool p).imp_right fun e => by
    rw [e]
    exact .zero

section

variable (hps : pageHeaderSize ≤ ps ∧ ps ≤ maxPageSize)
include hps

theorem slots_allocateNode (kind : NodeKind) (hp : pool.pageSize = ps) :
    Slots ps pool (allocateNode kind pool).2 := by
  have ha : Slots ps pool pool.allocate.2 := slots_allocate
  rw [allocateNode]
  generalize pool.allocate = made at ha
  obtain ⟨pid, pool₁⟩ := made
  simp only at ha ⊢
  split
  · exact ha
  split
  · exact ha
  · rw [ha.pageSize hp]
    exact (ha.setPage (.init hps _ kind 0)).markDirty

theorem slots_storeNode (pid : Int) (node : BtreeNode) (hp : pool.pageSize = ps) :
    Slots ps pool (storeNode pool pid node) := by
  rw [storeNode]
  split
  · exact .refl
  · next buf _ =>
    simp only [hp]
    have hinit := Slotted.init hps buf node.clampCount.kind node.clampCount.pageLevel
    split
    · exact Slots.refl.setPage hinit
    · next hi =>
      have hmeta := hinit.insert (encodeNodeMeta_ne_nil _) hi
      have hne : ∀ d ∈ node.clampCount.entries.map (encodeEntry node.clampCount.kind), d ≠ [] := by
        intro d hd
        obtain ⟨e, -, rfl⟩ := List.mem_map.mp hd
        exact encodeEntry_ne_nil
      have hrecs := insertRecords_slotted hmeta hne
      split
      · next hw =>
        rw [hw] at hrecs
        exact (Slots.refl.setPage hrecs).markDirty
      · next hw =>
        rw [hw] at hrecs
        exact Slots.refl.setPage hrecs

theorem slots_storeDirty (pid : Int) (node : BtreeNode) (hp : pool.pageSize = ps) :
    Slots ps pool (storeDirty pool pid node) := (slots_storeNode hps pid node hp).markDirty

theorem slots_split (left right : BtreeNode) (page rightPage : Int) (hp : pool.pageSize = ps) :
    Slots ps pool (storeNode (storeNode pool rightPage right) page left) := by
  have h : Slots ps pool (storeNode pool rightPage right) := slots_storeNode hps rightPage right hp
  exact h.trans (slots_storeNode hps page left (h.pageSize hp))

theorem slots_leafSplit (page : Int) (node : BtreeNode) (key value : Bytes)
    (hp : pool.pageSize = ps) : Slots ps pool (leafSplit pool page node key value).1.pool := by
  have ha := slots_allocateNode hps .leaf hp
  rw [leafSplit]
  simp only
  rw [allocateLeaf]
  generalize allocateNode .leaf pool = made at ha
  obtain ⟨rightPage, pool₁⟩ := made
  simp only at ha ⊢
  split
  · exact ha
  · have hm : Slots ps pool (pool₁.markDirty page) := ha.markDirty
    exact hm.trans (slots_split hps _ _ _ _ (ha.pageSize hp))

theorem slots_internalSplit (page : Int) (node : BtreeNode) (idx : Nat) (key : Bytes) (child : Int)
    (hp : pool.pageSize = ps) :
    Slots ps pool (internalSplit pool page node idx key child).pool := by
  have ha := slots_allocateNode hps .internal hp
  rw [internalSplit]
  simp only
  rw [allocateInternal]
  generalize allocateNode .internal pool = made at ha
  obtain ⟨rightPage, pool₁⟩ := made
  simp only at ha ⊢
  split
  · exact ha
  · exact (ha.trans (slots_split hps _ _ _ _ (ha.pageSize hp))).markDirty.markDirty

theorem slots_btreeInsertRec {out : InsertOut} (hp : pool.pageSize = ps)
    (h : btreeInsertRec key value fuel pool page = some out) : Slots ps pool out.pool := by
  induction fuel generalizing page out with
  | zero => cases h
  | succ fuel ih =>
    rw [btreeInsertRec] at h
    simp only at h
    split at h
    · split at h
      · cases h
        exact slots_storeDirty hps page _ hp
      split at h
      · split at h
        · cases h
          exact slots_storeDirty hps page _ hp
        · cases h
          exact slots_storeDirty hps page _ hp
      · cases h
        have hs := slots_leafSplit hps page (loadNode pool page) key value hp
        exact hs.trans (slots_storeNode hps page _ (hs.pageSize hp))
    · split at h
      · cases h
      · next hout =>
        have hr := ih hout
        split at h
        · split at h
          · cases h
            exact hr.trans (slots_storeDirty hps page _ (hr.pageSize hp))
          · cases h
            exact hr.trans (slots_internalSplit hps _ _ _ _ _ (hr.pageSize hp))
        · cases h
          exact hr

theorem slots_btreeInsert (hp : pool.pageSize = ps)
    (h : btreeInsert pool root key value = some (ok, pool', root')) : Slots ps pool pool' := by
  rw [btreeInsert] at h
  simp only at h
  split at h
  · cases h
  · next out hout =>
    have hr := slots_btreeInsertRec hps hp hout
    split at h
    · split at h
      · have ha : Slots ps out.pool (allocateInternal out.pool).2 :=
          slots_allocateNode hps .internal (hr.pageSize hp)
        split at h
        · cases h
          exact hr.trans ha
        · cases h
          exact (hr.trans ha).trans (slots_storeDirty hps _ _ ((hr.trans ha).pageSize hp))
      · cases h
        exact hr
    · cases h
      exact hr

end

namespace Tidy

/-- A call that marks what it changes keeps a pool tidy when it leaves slotted pages. -/
theorem marks (h : Tidy ps s pool) (hm : Marks Set.univ pool pool') (hs : Slots ps pool pool') :
    Tidy ps s pool' where
  sized := h.sized
  pageSize := hm.pageSize.trans h.pageSize
  serves := hm.serves h.serves
  next := h.next.trans hm.next
  paged := h.pageSize ▸ hm.paged (h.pageSize.symm ▸ h.paged)
  same p hp hn hd i hi := by
    have hfile := hm.file p (Set.mem_univ p) i (h.pageSize.symm ▸ hi)
    rw [h.pageSize] at hfile
    rw [hfile, (hm.pages p (Set.mem_univ p)).resolve_right hd]
    exact h.same p hp hn (fun hw => hd (hm.dirty p (Set.mem_univ p) hw)) i hi
  slotted p hp := by
    rcases hs.pages p with e | e
    · rw [e]
      exact h.slotted p hp
    · exact e

theorem btreeInsert (h : Tidy ps s pool)
    (hi : btreeInsert pool root key value = some (ok, pool', root')) : Tidy ps s pool' :=
  h.marks (marks_btreeInsert h.serves h.next Set.univ hi) (slots_btreeInsert h.sized h.pageSize hi)

/-! ## Overflow pages -/

theorem linkOverflow (h : Tidy ps s pool) (prev p : Int)
    (hprev : prev < 0 ∨ Bare ps (pool.pages prev)) : Tidy ps s (linkOverflow pool prev p) := by
  rw [Garry.linkOverflow]
  split
  · exact h
  · next h0 =>
    rw [Pool.pinPage_eq h.serves (not_lt.mp h0)]
    have hb := hprev.resolve_left h0
    exact (h.change fun _ => (hb.congr fun i hi => writeInt32_of_ne (.inl hi)).slotted).flushPage _

theorem overflowWriteLoop (h : Tidy ps ∅ pool) (fuel : Nat) (head prev : Int) (value : Bytes)
    (hprev : prev < 0 ∨ Bare ps (pool.pages prev)) :
    Tidy ps ∅ (overflowWriteLoop fuel pool head prev value).2 := by
  induction fuel generalizing pool head prev value with
  | zero => exact h.flushPage prev
  | succ fuel ih =>
    rw [Garry.overflowWriteLoop]
    split
    · exact h.flushPage prev
    obtain ⟨h0, ha⟩ := h.allocate
    have hprev' : prev < 0 ∨ Bare ps (pool.allocate.2.pages prev) := by
      refine hprev.imp_right fun hb => ?_
      rcases pages_allocate pool prev with e | e
      · rw [e]
        exact hb
      · rw [e]
        exact .inl .zero
    generalize pool.allocate = made at h0 ha hprev'
    obtain ⟨p, pool₁⟩ := made
    simp only at h0 ha hprev' ⊢
    have hlink := ha.linkOverflow prev p hprev'
    have hbare := bare_overflowPage ha.sized (pool₁.pages p) (value.take (overflowChunkSize ps))
    rw [if_neg (not_lt.mpr h0), Pool.pinPage_eq ha.serves h0]
    simp only [ha.pageSize, hlink.pageSize]
    apply ih (hlink.settle fun _ => hbare.slotted)
    rw [Pool.markDirty_pages, Pool.setPage_pages_self]
    exact .inr hbare

/-- `garry_overflow_write`. -/
theorem overflowWrite (h : Tidy ps ∅ pool) (value : Bytes) : Tidy ps ∅ (overflowWrite pool value).2 :=
  h.overflowWriteLoop _ _ _ _ (.inl (by decide))

/-- `garry_make_update_record`. -/
theorem makeUpdateRecord (h : Tidy ps ∅ pool) (txn : Int) (key value : Bytes) :
    Tidy ps ∅ (makeUpdateRecord pool txn key value).2 := by
  have hw := h.overflowWrite value
  rw [Garry.makeUpdateRecord]
  split
  · exact h
  · generalize Garry.overflowWrite pool value = written at hw
    obtain ⟨head, pool'⟩ := written
    simp only
    split
    · exact hw
    · exact hw

/-! ## Pruning -/

theorem overflowFree (h : Tidy ps s pool) (hf : overflowFree pool head = some pool') :
    Tidy ps s pool' := by
  rw [Garry.overflowFree] at hf
  generalize pool.nextPage.toNat + 1 = fuel at hf
  induction fuel generalizing pool head with
  | zero => cases hf
  | succ fuel ih =>
    rw [overflowFreeLoop] at hf
    split at hf
    · cases hf
      exact h
    split at hf
    · cases hf
      exact h
    · exact ih (h.freePage head) hf

theorem pruneFree {recs : List Bytes} (h : Tidy ps s pool) (hf : pruneFree pool recs = some pool') :
    Tidy ps s pool' := by
  induction recs generalizing pool with
  | nil =>
    cases hf
    exact h
  | cons recData recs ih =>
    rw [Garry.pruneFree] at hf
    split at hf
    · obtain ⟨pool₁, hfree, hf⟩ := Option.bind_eq_some_iff.mp hf
      exact ih (h.overflowFree hfree) hf
    · exact ih h hf

/-- The records that a pruning keeps are records of the page. -/
theorem kept_ne_nil {recs : List Bytes} (H : Holds ps buf recs) (keeps : Nat → Bytes → Bool) :
    ∀ d ∈ (((List.range (pageRecordCount buf).toNat).map fun i =>
      ((pageGet buf i ps).getD [], keeps i ((pageGet buf i ps).getD []))).filter
        fun r => r.2).map Prod.fst, d ≠ [] := by
  intro d hd
  obtain ⟨⟨x, k⟩, hx, rfl⟩ := List.mem_map.mp hd
  obtain ⟨i, hi, he⟩ := List.mem_map.mp (List.mem_filter.mp hx).1
  rw [List.mem_range, pageRecordCount, H.count, Int.toNat_natCast] at hi
  obtain ⟨rfl, -⟩ := Prod.mk.inj he
  rw [pageGet_eq H, List.getElem?_eq_getElem hi]
  exact H.nonempty _ (List.getElem_mem hi)

/-- `garry_chain_page_prune`: the pool and the chain page, which its caller stores. -/
theorem chainPagePrune (h : Tidy ps s pool) (hb : Slotted ps buf)
    (hf : chainPagePrune pool buf ps active = some (pool', buf')) :
    Tidy ps s pool' ∧ Slotted ps buf' := by
  simp only [Garry.chainPagePrune] at hf
  split at hf
  · cases hf
    exact ⟨h, hb⟩
  · next hcount =>
    obtain ⟨pool₁, hfree, hf⟩ := Option.map_eq_some_iff.mp hf
    have hp := h.pruneFree hfree
    split at hf
    · cases hf
      exact ⟨hp, hb⟩
    · next tmp hins =>
      cases hf
      refine ⟨hp, ?_⟩
      rcases hb with hb | ⟨recs, H⟩
      · exact absurd (by rw [pageRecordCount, hb.count]; decide) hcount
      · have htmp := pruneInsert_slotted (Slotted.init h.sized (fun _ => 0) .chain 0)
          (kept_ne_nil H (pruneKeeps active (pageRecordCount buf).toNat)) hins
        exact htmp.congr h.sized.1 fun i hi => (if_pos hi).symm

end Tidy

namespace Engine

variable {lz4 : Lz4} {eng eng' : Engine}

/-! ## Calls of the engine -/

/-- The pool of an engine is tidy, and pages are set up with its page size. -/
structure Neat (ps : Nat) (eng : Engine) : Prop where
  pool : Tidy ps ∅ eng.pool
  pageSize : eng.pageSize = ps

theorem Neat.withPool (h : Neat ps eng) (hp : Tidy ps ∅ pool) : Neat ps { eng with pool := pool } :=
  ⟨hp, h.pageSize⟩

theorem Neat.same (h : Neat ps eng) (hp : eng'.pool = eng.pool) (he : eng'.pageSize = eng.pageSize) :
    Neat ps eng' :=
  ⟨hp ▸ h.pool, he.trans h.pageSize⟩

/-- A record goes to a page. -/
theorem Neat.changeChain (h : Neat ps eng) (hd : data ≠ [])
    (hi : (pageInsert (eng.pool.pages cid) data).map Prod.snd = some buf) :
    Neat ps (eng.changeChain txn cid buf) := by
  obtain ⟨⟨i, buf⟩, hins, rfl⟩ := Option.map_eq_some_iff.mp hi
  exact ⟨h.pool.change fun hc => (h.pool.slotted cid hc).insert hd hins, h.pageSize⟩

theorem Neat.mvccSet (h : Neat ps eng) (txn cid : Int) (value : Bytes) :
    Neat ps (eng.mvccSet txn cid value).2 := by
  have hw := h.pool.overflowWrite value
  rw [Engine.mvccSet]
  split
  · exact h
  · next buf hpin =>
    split
    · generalize Garry.overflowWrite eng.pool value = written at hw
      obtain ⟨head, pool⟩ := written
      simp only at hw ⊢
      split
      · exact h.withPool hw
      split
      · exact h.withPool hw
      · next hi => exact (h.withPool hw).changeChain (by simp [versionHeader]) hi
    · rw [Pool.pinPage] at hpin
      split at hpin
      · cases hpin
      split at hpin
      · cases hpin
      cases hpin
      split
      · exact h
      · next hi =>
        rw [chainPageAppend] at hi
        split at hi
        · cases hi
        · exact h.changeChain (by simp [versionHeader]) hi

theorem Neat.mvccDelete (h : Neat ps eng) (txn cid : Int) : Neat ps (eng.mvccDelete txn cid).2 := by
  rw [Engine.mvccDelete]
  split
  · exact h
  · next buf hpin =>
    rw [Pool.pinPage] at hpin
    split at hpin
    · cases hpin
    split at hpin
    · cases hpin
    cases hpin
    split
    · exact h
    · next hi => exact h.changeChain (by simp [versionHeader]) hi

theorem Neat.chainAllocate (h : Neat ps eng) : Neat ps eng.chainAllocate.2 := by
  obtain ⟨h0, ha⟩ := h.pool.allocate
  rw [Engine.chainAllocate]
  generalize eng.pool.allocate = made at h0 ha
  obtain ⟨pid, pool₁⟩ := made
  simp only at h0 ha ⊢
  rw [if_neg (not_lt.mpr h0), Pool.pinPage_eq ha.serves h0]
  refine h.withPool (ha.settle fun _ => ?_)
  rw [h.pageSize]
  exact .init h.pool.sized _ .chain 0

theorem Neat.setVersion (h : Neat ps eng) (txn cid : Int) (key value : Bytes) (newKey : Bool) :
    Neat ps (eng.setVersion lz4 txn cid key value newKey).2 := by
  have hrec := h.pool.makeUpdateRecord txn key value
  rw [Engine.setVersion]
  generalize Garry.makeUpdateRecord eng.pool txn key value = made at hrec
  obtain ⟨record, pool⟩ := made
  simp only at hrec ⊢
  have hlog : Neat ps (({ eng with pool := pool } : Engine).appendMade record) := by
    cases record with
    | none => exact h.withPool hrec
    | some record => exact (h.withPool hrec).same rfl rfl
  generalize ({ eng with pool := pool } : Engine).appendMade record = eng₁ at hlog
  split
  · exact hlog
  · next v _ =>
    have hset : Neat ps (eng₁.mvccSet txn cid v).2 := hlog.mvccSet txn cid v
    split
    · exact hset.same rfl rfl
    · exact hset

theorem Neat.set (h : Neat ps eng) (hs : eng.storageSet lz4 txn key value = some (ok, eng')) :
    Neat ps eng' := by
  rw [storageSet] at hs
  split at hs
  · cases hs
    exact h
  split at hs
  · cases hs
    exact h
  split at hs
  · cases hs
    exact h
  next lockMgr _ =>
  have hl : Neat ps { eng with lockMgr := lockMgr } := h.same rfl rfl
  simp only at hs
  split at hs
  · cases hs
  · show Neat ps (ok, eng').2
    rw [← Option.some.inj hs]
    exact hl.setVersion ..
  · have hc := hl.chainAllocate
    generalize ({ eng with lockMgr := lockMgr } : Engine).chainAllocate = made at hs hc
    obtain ⟨cid, eng₁⟩ := made
    simp only at hs hc
    split at hs
    · cases hs
      exact hc
    split at hs
    · cases hs
    · next hins =>
      have hi := hc.withPool (hc.pool.btreeInsert hins)
      split at hs
      · show Neat ps (ok, eng').2
        rw [← Option.some.inj hs]
        apply Neat.setVersion
        exact hi.same rfl rfl
      · cases hs
        exact ⟨hi.pool.freePage cid, hc.pageSize⟩

theorem Neat.delete (h : Neat ps eng) (hs : eng.storageDelete txn key = some (ok, eng')) :
    Neat ps eng' := by
  rw [storageDelete] at hs
  split at hs
  · cases hs
    exact h
  split at hs
  · cases hs
    exact h
  split at hs
  · cases hs
    exact h
  simp only at hs
  split at hs
  · cases hs
  · cases hs
    exact h.same rfl rfl
  split at hs
  · cases hs
    exact h.same rfl rfl
  · show Neat ps (ok, eng').2
    rw [← Option.some.inj hs]
    apply Neat.mvccDelete
    exact h.same rfl rfl

theorem Neat.gcPage (h : Neat ps eng) (hp : 0 < pid) (hs : eng.gcPage pid = some eng') :
    Neat ps eng' := by
  rw [Engine.gcPage] at hs
  rcases Pool.tryPin_or eng.pool pid with hpin | hpin
  · rw [hpin] at hs
    cases hs
    exact h
  · rw [hpin, h.pageSize] at hs
    simp only at hs
    split at hs
    · obtain ⟨⟨pool, buf⟩, hprune, rfl⟩ := Option.map_eq_some_iff.mp hs
      obtain ⟨ht, hb⟩ := h.pool.chainPagePrune (h.pool.slotted pid hp) hprune
      exact ⟨ht.change fun _ => hb, rfl⟩
    · cases hs
      exact h

theorem Neat.gc (h : Neat ps eng) (hs : eng.mvccGc = some eng') : Neat ps eng' := by
  rw [mvccGc] at hs
  have hpids : ∀ pid ∈ List.range' 1 (eng.header.totalPages - 1).toNat, (0 : Int) < pid := by
    intro pid hpid
    rw [List.mem_range'] at hpid
    obtain ⟨i, -, rfl⟩ := hpid
    omega
  generalize List.range' 1 (eng.header.totalPages - 1).toNat = pids at hs hpids
  induction pids generalizing eng with
  | nil =>
    cases hs
    exact h
  | cons pid pids ih =>
    rw [List.foldlM_cons] at hs
    obtain ⟨eng₁, h₁, hs⟩ := Option.bind_eq_some_iff.mp hs
    exact ih (h.gcPage (hpids pid List.mem_cons_self) h₁) hs fun p hp =>
      hpids p (List.mem_cons_of_mem _ hp)

/-- Every call keeps the pool tidy. -/
theorem Neat.step (h : Neat ps eng) {op : EngineOp} (hs : eng.step lz4 op = some eng')
    (henv : ∀ env, op = .frames env → env.Serves) : Neat ps eng' := by
  cases op with
  | begin =>
    cases hs
    rcases begins_or eng with e | hb
    · rw [e]
      exact h
    · rw [hb.eq]
      exact h.same rfl rfl
  | set txn key value =>
    obtain ⟨⟨ok, eng₁⟩, hset, rfl⟩ := Option.map_eq_some_iff.mp hs
    exact h.set hset
  | delete txn key =>
    obtain ⟨⟨ok, eng₁⟩, hdel, rfl⟩ := Option.map_eq_some_iff.mp hs
    exact h.delete hdel
  | commit txn =>
    cases hs
    exact ⟨h.pool.foldl_flushPage _, h.pageSize⟩
  | rollback txn =>
    cases hs
    exact h.same rfl rfl
  | gc => exact h.gc hs
  | checkpoint =>
    obtain ⟨r, hcp, rfl⟩ := Option.map_eq_some_iff.mp hs
    obtain ⟨eng₁, hgc, rfl⟩ := Option.map_eq_some_iff.mp hcp
    have hg := h.gc hgc
    exact ⟨hg.pool.foldl_flushPage _, hg.pageSize⟩
  | evict pid =>
    cases hs
    exact ⟨h.pool.flushPage pid, h.pageSize⟩
  | frames env =>
    cases hs
    exact ⟨h.pool.withEnv (henv env rfl), h.pageSize⟩

theorem Neat.storeHeader (h : Neat ps eng) : Neat ps eng.storeHeader := by
  rw [Engine.storeHeader]
  split
  · exact h
  · exact h.withPool (h.pool.change fun hlt => absurd hlt (lt_irrefl _))

end Engine

end Garry
