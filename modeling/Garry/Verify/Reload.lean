import Garry.Verify.EmptyDatabase
import Garry.Verify.TidyPages

/-!
# Pages that are read back

A pool that was closed clean and read back has the same bytes in its pages, and a store in slotted
pages is the store that it was.
-/

namespace Garry

open ByteStore

variable {ps : Nat} {pool pool' : Pool} {pages pages' : Int → PageBuffer} {L : Layout}

/-! ## Nodes, chains and free pages -/

/-- Slotted pages with the same bytes load as the same node. -/
theorem loadPage_congr {buf buf' : PageBuffer} (hps : pageHeaderSize ≤ ps) (hs : Slotted ps buf)
    (he : ∀ i < ps, buf i = buf' i) : loadPage buf' ps = loadPage buf ps := by
  have word (o : Nat) (ho : o + 4 ≤ pageHeaderSize) : readInt32 buf' o = readInt32 buf o :=
    readInt32_congr fun j hj => (he (o + j) (by omega)).symm
  have hcount : pageRecordCount buf' = pageRecordCount buf := word _ (by decide)
  have hget (i : Nat) : pageGet buf' i ps = pageGet buf i ps := by
    rcases hs with hb | ⟨recs, H⟩
    · have h0 : ((i : Nat) : Int) ≥ 0 := Int.natCast_nonneg i
      simp only [pageGet, hcount]
      rw [pageRecordCount, hb.count, if_pos h0, if_pos h0]
    · rw [pageGet_eq (H.congr he), pageGet_eq H]
  have hentry : loadEntry buf' ps = loadEntry buf ps := by
    funext j
    rw [loadEntry, loadEntry, hget]
  have htype : readInt32 buf' 0 = readInt32 buf 0 := word 0 (by decide)
  have hlevel : readInt32 buf' 4 = readInt32 buf 4 := word 4 (by decide)
  simp only [loadPage, hcount, hget, hentry, htype, hlevel]

/-- A subtree depends on its nodes only. -/
theorem Repr.congr_nodes {valueMax d : Nat} {t : BPlusTree.Tree Bytes Bytes d} {f : Foot}
    (h : Repr valueMax ps pages d t p f)
    (hp : ∀ q ∈ f.pages, nodeAt ps pages' q = nodeAt ps pages q) : Repr valueMax ps pages' d t p f := by
  induction d generalizing p f with
  | zero =>
    rw [Repr, hp p h.mem]
    exact h
  | succ d ih =>
    have e := hp p h.mem
    obtain ⟨h1, h2, h3, l, h4, h5, h6, rfl⟩ := h
    rw [Repr, e]
    refine ⟨h1, h2, h3, l, h4, h5, fun x hx => ih (h6 x hx) fun q hq => ?_, rfl⟩
    exact hp q (List.mem_cons_of_mem _ (Foot.mem_join.mpr ⟨x, hx, hq⟩))

/-- The pages have the same bytes. -/
def SameBytes (ps : Nat) (pages pages' : Int → PageBuffer) (p : Int) : Prop :=
  ∀ i < ps, pages p i = pages' p i

theorem SameBytes.word {p : Int} (h : SameBytes ps pages pages' p) (ho : o + 4 ≤ ps) :
    readInt32 (pages' p) o = readInt32 (pages p) o :=
  readInt32_congr fun j hj => (h (o + j) (by omega)).symm

theorem OverflowAt.reload {l : List Int} {value : Bytes} (h : OverflowAt ps pages l head value)
    (hps : pageHeaderSize + overflowPtrSize ≤ ps) (hp : ∀ p ∈ l, SameBytes ps pages pages' p) :
    OverflowAt ps pages' l head value := by
  induction l generalizing head value with
  | nil => exact h
  | cons p l ih =>
    obtain ⟨h1, h2, h3, h4, h5⟩ := h
    have hsame := hp p List.mem_cons_self
    refine ⟨h1, h2, h3, ?_, ?_⟩
    · rw [← h4]
      apply slice_congr
      intro j hj
      refine (hsame _ ?_).symm
      simp only [overflowChunkSize, pageHeaderSize, overflowPtrSize] at hj hps ⊢
      omega
    · rw [hsame.word hps]
      exact ih h5 fun q hq => hp q (List.mem_cons_of_mem _ hq)

theorem VersionAt.reload {v : StoredVersion} {recData : Bytes} (h : VersionAt ps pages v recData)
    (hps : pageHeaderSize + overflowPtrSize ≤ ps) (hp : ∀ p ∈ v.pages, SameBytes ps pages pages' p) :
    VersionAt ps pages' v recData := by
  cases h with
  | tombstone txid ht => exact .tombstone txid ht
  | inline txid value ht hl hle => exact .inline txid value ht hl hle
  | overflow txid head value l ht hl hh hlt ho =>
    exact .overflow txid head value l ht hl hh hlt (ho.reload hps hp)

theorem ChainAt.reload {vs : List StoredVersion} (h : ChainAt ps pages cid vs)
    (hps : pageHeaderSize + overflowPtrSize ≤ ps) (hc : SameBytes ps pages pages' cid)
    (hp : ∀ p ∈ overflowPages vs, SameBytes ps pages pages' p) : ChainAt ps pages' cid vs where
  kind := (hc.word (le_trans (by decide) hps)).trans h.kind
  records := by
    obtain ⟨recs, H, hr⟩ := h.records
    refine ⟨recs, H.congr hc, ?_⟩
    clear H h
    induction hr with
    | nil => exact .nil
    | cons hv _ ih =>
      refine .cons (hv.reload hps fun p hm => hp p ?_) (ih fun p hm => hp p ?_)
      · exact List.mem_append_left _ hm
      · exact List.mem_append_right _ hm

theorem Pool.FreeList.reload {l : List Int} (h : Pool.FreeList pages head l) (hps : 4 ≤ ps)
    (hp : ∀ p ∈ l, SameBytes ps pages pages' p) : Pool.FreeList pages' head l := by
  induction l generalizing head with
  | nil => exact h
  | cons p l ih =>
    obtain ⟨h1, h2, h3⟩ := h
    refine ⟨h1, h2, ?_⟩
    rw [(hp p List.mem_cons_self).word hps]
    exact ih h3 fun q hq => hp q (List.mem_cons_of_mem _ hq)

/-- A pool with the same bytes in every page but the header page, and with the same free pages. -/
structure Reloaded (ps : Nat) (pool pool' : Pool) : Prop where
  pageSize : pool'.pageSize = ps
  serves : pool'.Serves
  nextPage : pool'.nextPage = pool.nextPage
  freeListHead : pool'.freeListHead = pool.freeListHead
  pages : ∀ p, 0 < p → SameBytes ps pool.pages pool'.pages p
  header : readInt32 (pool'.pages headerPage) pageHdrOffType ≠ NodeKind.chain.code

theorem Reloaded.owns {used : Set Int} (h : Reloaded ps pool pool') (ho : pool.Owns used)
    (hps : 4 ≤ ps) (h0 : headerPage ∈ used) : pool'.Owns used where
  serves := h.serves
  next_nonneg := h.nextPage.symm ▸ ho.next_nonneg
  range := h.nextPage.symm ▸ ho.range
  free := by
    obtain ⟨l, h1, h2, h3⟩ := ho.free
    have hl : ∀ p ∈ l, 0 ≤ p := by
      clear h2 h3
      generalize pool.freeListHead = head at h1
      induction l generalizing head with
      | nil => exact fun p hp => absurd hp List.not_mem_nil
      | cons q l ih =>
        intro p hp
        rcases List.mem_cons.mp hp with rfl | hp
        · exact h1.2.1
        · exact ih _ h1.2.2 p hp
    refine ⟨l, ?_, h2, h.nextPage.symm ▸ h3⟩
    rw [h.freeListHead]
    apply h1.reload hps
    intro p hp
    apply h.pages p (lt_of_le_of_ne (hl p hp) _)
    rintro rfl
    exact (h3 _ hp).1 h0

/-- Only the header page has the id 0. -/
theorem PagesInv.pos (h : PagesInv ps pool root L) {p : Int} {o : Owner} (ho : L.own p = some o)
    (hno : o ≠ .header) : 0 < p := by
  apply lt_of_le_of_ne (h.range ho).1
  rintro rfl
  exact hno (Option.some.inj (ho.symm.trans h.header))

/-- The store in the pages of a pool is in the pages of the pool that is read back. -/
theorem PagesInv.reload (h : PagesInv ps pool root L) (hr : Reloaded ps pool pool')
    (hs : ∀ p, 0 < p → Slotted ps (pool.pages p)) : PagesInv ps pool' root L := by
  have hsize := h.size.1
  have hhead : pageHeaderSize + overflowPtrSize ≤ ps := by
    simp only [pageHeaderSize, overflowPtrSize]
    omega
  have hused : headerPage ∈ L.used := Layout.mem_used h.header
  have hpage {p : Int} {o : Owner} (ho : L.own p = some o) (hno : o ≠ .header) :
      SameBytes ps pool.pages pool'.pages p := hr.pages p (h.pos ho hno)
  have hover {p : Int} {key : Bytes} (hp : p ∈ overflowPages (L.versions key)) :
      SameBytes ps pool.pages pool'.pages p := hpage (h.overflow p hp) (by simp)
  exact { h with
    tree := { h.tree with
      live := ⟨hr.pageSize, h.live.fits, hr.owns h.owns (by omega) hused⟩
      repr := by
        apply h.tree.repr.congr_nodes
        intro p hp
        have ho := h.treeOwn p hp
        exact loadPage_congr (le_trans (by decide) hhead) (hs p (h.pos ho (by simp)))
          (hpage ho (by simp)) }
    chain := fun hc => ⟨(h.chain hc).1, (h.chain hc).2.reload hhead (hpage hc (by simp)) fun p hp =>
      hover hp⟩
    quiet := by
      intro p h0 hc
      by_cases hp : p = headerPage
      · rw [hp]
        exact .inl hr.header
      · have hsame := hr.pages p (lt_of_le_of_ne h0 (Ne.symm hp))
        rw [pageRecordCount, hsame.word (le_trans (by decide) hhead),
          hsame.word (le_trans (by decide) hhead)]
        exact h.quiet p h0 hc
    flat := by
      intro p key ho
      rw [pageRecordCount, (hpage ho (by simp)).word (le_trans (by decide) hhead)]
      exact h.flat ho }

end Garry
