import Garry.Model.BtreeModify
import Garry.Model.VersionChain

/-!
# Dirty pages and the file

A call that changes a page marks it dirty, and only a flush writes to the file. So a page that was
dirty or in the file is so after every call.
-/

namespace Garry

open ByteStore

variable {pool pool' : Pool} {used : Set Int}

/-! ## Pages in the file -/

/-- The file ends with a whole page, and there is nothing behind its end. -/
structure DataFile.Paged (f : DataFile) (pageSize : Nat) : Prop where
  whole : pageSize ∣ f.size
  zero : ∀ i, f.size ≤ i → f.bytes i = 0

theorem DataFile.Paged.empty : DataFile.empty.Paged pageSize := ⟨Nat.dvd_zero _, fun _ _ => rfl⟩

theorem DataFile.Paged.writePage {f : DataFile} (h : f.Paged pageSize) :
    (f.writePage pageSize p buf).Paged pageSize := by
  constructor
  · simp only [DataFile.writePage]
    rcases Nat.le_total f.size ((p.toNat + 1) * pageSize) with hle | hle
    · rw [Nat.max_eq_right hle]
      exact Nat.dvd_mul_left ..
    · rw [Nat.max_eq_left hle]
      exact h.whole
  · intro i hi
    simp only [DataFile.writePage] at hi ⊢
    rw [if_neg (by omega)]
    exact h.zero i (by omega)

/-- The file holds a page as the pool has it. -/
def PageStored (pool : Pool) (pid : Int) : Prop :=
  (pid.toNat + 1) * pool.pageSize ≤ pool.file.size ∧
    ∀ i < pool.pageSize, pool.file.bytes (pid.toNat * pool.pageSize + i) = pool.pages pid i

/-- The write of a page. -/
theorem pageStored_flushPage (hp : 0 ≤ pid) (hd : pid ∈ pool.dirty) :
    PageStored (pool.flushPage pid) pid := by
  rw [Pool.flushPage, if_pos ⟨hp, hd⟩]
  refine ⟨Nat.le_max_right .., fun i hi => ?_⟩
  replace hi : i < pool.pageSize := hi
  have hin : pid.toNat * pool.pageSize ≤ pid.toNat * pool.pageSize + i ∧
      pid.toNat * pool.pageSize + i < (pid.toNat + 1) * pool.pageSize := by
    rw [Nat.succ_mul]
    omega
  refine (if_pos hin).trans ?_
  rw [Nat.add_sub_cancel_left]

theorem size_flushPage (pool : Pool) (pid : Int) :
    pool.file.size ≤ (pool.flushPage pid).file.size := by
  rw [Pool.flushPage]
  split
  · exact Nat.le_max_left ..
  · exact le_rfl

/-- The other pages are apart from it. -/
theorem bytes_flushPage (hp : 0 ≤ p) (hne : pid ≠ p) (hi : i < pool.pageSize) :
    (pool.flushPage pid).file.bytes (p.toNat * pool.pageSize + i) =
      pool.file.bytes (p.toNat * pool.pageSize + i) := by
  rw [Pool.flushPage]
  split
  · next hw =>
    have hout : ¬ (pid.toNat * pool.pageSize ≤ p.toNat * pool.pageSize + i ∧
        p.toNat * pool.pageSize + i < (pid.toNat + 1) * pool.pageSize) := by
      rintro ⟨h1, h2⟩
      rcases Nat.lt_or_gt_of_ne (show pid.toNat ≠ p.toNat by omega) with hlt | hlt
      · have hle := Nat.mul_le_mul_right pool.pageSize (Nat.succ_le_of_lt hlt)
        rw [Nat.succ_eq_add_one] at hle
        omega
      · have hle := Nat.mul_le_mul_right pool.pageSize (Nat.succ_le_of_lt hlt)
        rw [Nat.succ_mul] at hle
        omega
    exact if_neg hout
  · rfl

theorem paged_flushPage (h : pool.file.Paged pool.pageSize) (pid : Int) :
    (pool.flushPage pid).file.Paged pool.pageSize := by
  rw [Pool.flushPage]
  split
  · exact h.writePage
  · exact h

theorem mem_dirty_flushPage (hne : pid ≠ p) : p ∈ (pool.flushPage pid).dirty ↔ p ∈ pool.dirty := by
  rw [Pool.flushPage]
  split
  · rw [List.mem_filter]
    exact and_iff_left (decide_eq_true fun e => hne e.symm)
  · exact Iff.rfl

theorem PageStored.flushPage (h : PageStored pool p) (hp : 0 ≤ p) (pid : Int) :
    PageStored (pool.flushPage pid) p := by
  by_cases hw : pid = p ∧ pid ∈ pool.dirty
  · obtain ⟨rfl, hd⟩ := hw
    exact pageStored_flushPage hp hd
  by_cases he : pid = p
  · rw [Pool.flushPage, if_neg fun hc => hw ⟨he, hc.2⟩]
    exact h
  · refine ⟨?_, fun i hi => ?_⟩
    · rw [Pool.flushPage_pageSize]
      exact h.1.trans (size_flushPage pool pid)
    · rw [Pool.flushPage_pageSize] at hi ⊢
      rw [bytes_flushPage hp he hi, Pool.flushPage_pages]
      exact h.2 i hi

theorem pageStored_foldl {pids : List Int} (hp : 0 ≤ p)
    (h : PageStored pool p ∨ p ∈ pids ∧ p ∈ pool.dirty) :
    PageStored (pids.foldl Pool.flushPage pool) p := by
  induction pids generalizing pool with
  | nil => exact h.resolve_right fun h => List.not_mem_nil h.1
  | cons pid pids ih =>
    rw [List.foldl_cons]
    apply ih
    rcases h with h | ⟨hm, hd⟩
    · exact .inl (h.flushPage hp pid)
    · by_cases he : pid = p
      · subst he
        exact .inl (pageStored_flushPage hp hd)
      · exact .inr ⟨(List.mem_cons.mp hm).resolve_left fun e => he e.symm,
          (mem_dirty_flushPage he).mpr hd⟩

theorem safe_foldl {pids : List Int} (hp : 0 ≤ p) (h : p ∈ pool.dirty ∨ PageStored pool p) :
    p ∈ (pids.foldl Pool.flushPage pool).dirty ∨ PageStored (pids.foldl Pool.flushPage pool) p := by
  induction pids generalizing pool with
  | nil => exact h
  | cons pid pids ih =>
    rw [List.foldl_cons]
    apply ih
    rcases h with hd | hs
    · by_cases he : pid = p
      · subst he
        exact .inr (pageStored_flushPage hp hd)
      · exact .inl ((mem_dirty_flushPage he).mpr hd)
    · exact .inr (hs.flushPage hp pid)

theorem paged_foldl (h : pool.file.Paged pool.pageSize) (pids : List Int) :
    (pids.foldl Pool.flushPage pool).file.Paged (pids.foldl Pool.flushPage pool).pageSize := by
  induction pids generalizing pool with
  | nil => exact h
  | cons pid pids ih =>
    apply ih
    rw [Pool.flushPage_pageSize]
    exact paged_flushPage h pid

/-- A page that is not written was in the file before, unless it holds what is behind the end of the
file. -/
theorem PageStored.of_flushPage (h : PageStored (pool.flushPage pid) p) (hp : 0 ≤ p) (hne : pid ≠ p)
    (hf : pool.file.Paged pool.pageSize) (hz : ∃ i < pool.pageSize, pool.pages p i ≠ 0) :
    PageStored pool p := by
  obtain ⟨-, hbytes⟩ := h
  rw [Pool.flushPage_pageSize] at hbytes
  have hsame (i : Nat) (hi : i < pool.pageSize) :
      pool.file.bytes (p.toNat * pool.pageSize + i) = pool.pages p i := by
    rw [← bytes_flushPage hp hne hi, hbytes i hi, Pool.flushPage_pages]
  refine ⟨?_, hsame⟩
  obtain ⟨i, hi, hzero⟩ := hz
  obtain ⟨n, hn⟩ := hf.whole
  rw [Nat.mul_comm] at hn
  by_contra hlt
  rw [hn] at hlt
  have hle : n ≤ p.toNat := by
    by_contra hlt'
    exact hlt (Nat.mul_le_mul_right _ (Nat.succ_le_of_lt (Nat.not_le.mp hlt')))
  apply hzero
  rw [← hsame i hi]
  apply hf.zero
  calc pool.file.size = n * pool.pageSize := hn
    _ ≤ p.toNat * pool.pageSize := Nat.mul_le_mul_right _ hle
    _ ≤ p.toNat * pool.pageSize + i := Nat.le_add_right ..

theorem PageStored.of_foldl {pids : List Int} (h : PageStored (pids.foldl Pool.flushPage pool) p)
    (hp : 0 ≤ p) (hn : p ∉ pids) (hf : pool.file.Paged pool.pageSize)
    (hz : ∃ i < pool.pageSize, pool.pages p i ≠ 0) : PageStored pool p := by
  induction pids generalizing pool with
  | nil => exact h
  | cons pid pids ih =>
    rw [List.mem_cons, not_or] at hn
    obtain ⟨hne, hn⟩ := hn
    have hmid : PageStored (pool.flushPage pid) p := by
      apply ih h hn
      · rw [Pool.flushPage_pageSize]
        exact paged_flushPage hf pid
      · rw [Pool.flushPage_pageSize, Pool.flushPage_pages]
        exact hz
    exact hmid.of_flushPage hp (fun e => hne e.symm) hf hz

/-- A flush of the pool writes a dirty page. -/
theorem pageStored_flushAll (hp : 0 ≤ p) (h : PageStored pool p ∨ p ∈ pool.dirty) :
    PageStored pool.flushAll p :=
  pageStored_foldl hp (h.imp_right fun hd => ⟨hd, hd⟩)

/-! ## Changes of pages -/

/-- The pages of a set that change are dirty then, none of them becomes clean, and the file keeps
them. -/
structure Marks (used : Set Int) (pool pool' : Pool) : Prop where
  pageSize : pool'.pageSize = pool.pageSize
  env : pool'.env = pool.env
  next : pool.nextPage ≤ pool'.nextPage
  size : pool.file.size ≤ pool'.file.size
  paged : pool.file.Paged pool.pageSize → pool'.file.Paged pool.pageSize
  file : ∀ p ∈ used, ∀ i < pool.pageSize,
    pool'.file.bytes (p.toNat * pool.pageSize + i) = pool.file.bytes (p.toNat * pool.pageSize + i)
  dirty : ∀ p ∈ used, p ∈ pool.dirty → p ∈ pool'.dirty
  pages : ∀ p ∈ used, pool'.pages p = pool.pages p ∨ p ∈ pool'.dirty

namespace Marks

theorem refl : Marks used pool pool :=
  ⟨rfl, rfl, le_rfl, le_rfl, id, fun _ _ _ _ => rfl, fun _ _ hd => hd, fun _ _ => .inl rfl⟩

theorem trans {pool'' : Pool} (h : Marks used pool pool') (h' : Marks used pool' pool'') :
    Marks used pool pool'' where
  pageSize := h'.pageSize.trans h.pageSize
  env := h'.env.trans h.env
  next := h.next.trans h'.next
  size := h.size.trans h'.size
  paged hf := by
    have hf' := h'.paged (h.pageSize.symm ▸ h.paged hf)
    rwa [h.pageSize] at hf'
  file p hp i hi := by
    have hfile := h'.file p hp i (h.pageSize.symm ▸ hi)
    rw [h.pageSize] at hfile
    exact hfile.trans (h.file p hp i hi)
  dirty p hp hd := h'.dirty p hp (h.dirty p hp hd)
  pages p hp := by
    rcases h'.pages p hp with e' | hd
    · rcases h.pages p hp with e | hd
      · exact .inl (e'.trans e)
      · exact .inr (h'.dirty p hp hd)
    · exact .inr hd

theorem mono {used' : Set Int} (h : Marks used pool pool') (hsub : used' ⊆ used) :
    Marks used' pool pool' :=
  { h with
    file := fun p hp => h.file p (hsub hp)
    dirty := fun p hp => h.dirty p (hsub hp)
    pages := fun p hp => h.pages p (hsub hp) }

/-- A page that does not change stays in the file. -/
theorem stored (h : Marks used pool pool') (hp : p ∈ used) (he : pool'.pages p = pool.pages p)
    (hs : PageStored pool p) : PageStored pool' p := by
  refine ⟨?_, fun i hi => ?_⟩
  · rw [h.pageSize]
    exact hs.1.trans h.size
  · rw [h.pageSize] at hi ⊢
    rw [h.file p hp i hi, he]
    exact hs.2 i hi

/-- A page that was dirty or in the file is so afterwards. -/
theorem safe (h : Marks used pool pool') (hp : p ∈ used) (hs : p ∈ pool.dirty ∨ PageStored pool p) :
    p ∈ pool'.dirty ∨ PageStored pool' p := by
  rcases hs with hd | hs
  · exact .inl (h.dirty p hp hd)
  · rcases h.pages p hp with he | hd
    · exact .inr (h.stored hp he hs)
    · exact .inl hd

theorem setPage (h : Marks used pool pool') (hd : pid ∈ pool'.dirty) (buf : PageBuffer) :
    Marks used pool (pool'.setPage pid buf) :=
  h.trans {
    pageSize := rfl
    env := rfl
    next := le_rfl
    size := le_rfl
    paged := id
    file := fun _ _ _ _ => rfl
    dirty := fun _ _ hd => hd
    pages := by
      intro p _
      by_cases he : p = pid
      · subst he
        exact .inr hd
      · exact .inl (Pool.setPage_pages_of_ne he) }

/-- More pages may be dirty. -/
theorem moreDirty {dirty : List Int} (h : Marks used pool pool') (hsub : pool'.dirty ⊆ dirty) :
    Marks used pool { pool' with dirty := dirty } :=
  h.trans ⟨rfl, rfl, le_rfl, le_rfl, id, fun _ _ _ _ => rfl, fun _ _ hd => hsub hd,
    fun _ _ => .inl rfl⟩

theorem markDirty (h : Marks used pool pool') (pid : Int) : Marks used pool (pool'.markDirty pid) :=
  h.moreDirty (List.subset_cons_self ..)

/-- A page is changed and marked. -/
theorem change (h : Marks used pool pool') (pid : Int) (buf : PageBuffer) :
    Marks used pool ((pool'.setPage pid buf).markDirty pid) :=
  (h.markDirty pid).setPage List.mem_cons_self buf

/-- A page outside the set is written. -/
theorem flushPage (h : Marks used pool pool') (hp : ∀ p ∈ used, 0 ≤ p ∧ p ≠ pid) :
    Marks used pool (pool'.flushPage pid) :=
  h.trans {
    pageSize := Pool.flushPage_pageSize
    env := Pool.flushPage_env
    next := Pool.flushPage_nextPage.ge
    size := size_flushPage pool' pid
    paged := fun hf => paged_flushPage hf pid
    file := fun p hm i hi => bytes_flushPage (hp p hm).1 (hp p hm).2.symm hi
    dirty := fun p hm hd => (mem_dirty_flushPage (hp p hm).2.symm).mpr hd
    pages := fun p _ => .inl (by rw [Pool.flushPage_pages]) }

theorem freePage (h : Marks used pool pool') (pid : Int) : Marks used pool (pool'.freePage pid) := by
  have hlink {pool'' : Pool} (hm : Marks used pool pool'') :
      Marks used pool { pool'' with freeListHead := pid } :=
    hm.trans ⟨rfl, rfl, le_rfl, le_rfl, id, fun _ _ _ _ => rfl, fun _ _ hd => hd, fun _ _ => .inl rfl⟩
  rw [Pool.freePage]
  split
  · exact h
  simp only
  split
  · exact hlink h
  · exact hlink (h.change pid _)

end Marks

/-! ## Allocation -/

/-- An allocation changes only the page that it hands out, and does not write. -/
theorem marks_allocate (hs : pool.Serves) (h0 : 0 ≤ pool.nextPage) :
    0 ≤ pool.allocate.1 ∧ Marks {p | p ≠ pool.allocate.1} pool pool.allocate.2 ∧
      pool.allocate.2.file = pool.file ∧
      ∀ p ∈ pool.dirty, p ≠ pool.allocate.1 → p ∈ pool.allocate.2.dirty := by
  have hand {pool₁ : Pool} (pid : Int) (hdirty : pool₁.dirty = pool.dirty)
      (hpages : pool₁.pages = pool.pages) (hfile : pool₁.file = pool.file)
      (hps : pool₁.pageSize = pool.pageSize) (henv : pool₁.env = pool.env)
      (hnext : pool.nextPage ≤ pool₁.nextPage) :
      Marks {p | p ≠ pid} pool (pool₁.handOut pid) ∧ (pool₁.handOut pid).file = pool.file ∧
        ∀ p ∈ pool.dirty, p ≠ pid → p ∈ (pool₁.handOut pid).dirty := by
    have hd (p : Int) (hp : p ∈ pool.dirty) (hne : p ≠ pid) : p ∈ (pool₁.handOut pid).dirty :=
      List.mem_filter.mpr ⟨hdirty ▸ hp, decide_eq_true hne⟩
    refine ⟨⟨hps, henv, hnext, (congrArg DataFile.size hfile).ge, fun hf => hfile.symm ▸ hf,
      fun p _ i _ => ?_,
      fun p hne hp => hd p hp hne, fun p hne => .inl ?_⟩, hfile, hd⟩
    · show pool₁.file.bytes _ = _
      rw [hfile]
    · show Function.update pool₁.pages pid _ p = _
      rw [Function.update_of_ne hne, hpages]
  rw [Pool.allocate]
  split
  · next hhead =>
    simp only [hs.alloc, Bool.false_eq_true, if_false]
    exact ⟨hhead, hand _ rfl rfl rfl rfl rfl le_rfl⟩
  · simp only [hs.alloc, Bool.false_eq_true, if_false, if_neg (not_lt.mpr h0)]
    exact ⟨h0, hand _ rfl rfl rfl rfl rfl (Int.le_add_one le_rfl)⟩

/-- A new page that is set up is dirty. -/
theorem marks_newPage (hs : pool.Serves) (h0 : 0 ≤ pool.nextPage) (used : Set Int)
    (buf : PageBuffer) :
    Marks used pool ((pool.allocate.2.setPage pool.allocate.1 buf).markDirty pool.allocate.1) := by
  obtain ⟨-, hm, hfile, hd⟩ := marks_allocate hs h0
  have hc := hm.change pool.allocate.1 buf
  exact {
    pageSize := hc.pageSize
    env := hc.env
    next := hc.next
    size := hc.size
    paged := hc.paged
    file := fun p _ i _ => congrFun (congrArg DataFile.bytes hfile) _
    dirty := by
      intro p _ hp
      by_cases he : p = pool.allocate.1
      · exact he ▸ List.mem_cons_self
      · exact List.mem_cons_of_mem _ (hd p hp he)
    pages := by
      intro p _
      by_cases he : p = pool.allocate.1
      · exact .inr (he ▸ List.mem_cons_self)
      · exact hc.pages p he }

theorem marks_allocateNode (hs : pool.Serves) (h0 : 0 ≤ pool.nextPage) (used : Set Int)
    (kind : NodeKind) :
    Marks used pool (allocateNode kind pool).2 ∧ 0 ≤ (allocateNode kind pool).1 ∧
      (allocateNode kind pool).1 ∈ (allocateNode kind pool).2.dirty := by
  obtain ⟨hp, hm, -, -⟩ := marks_allocate hs h0
  have hnew := marks_newPage hs h0 used
  have hserves : pool.allocate.2.Serves := by
    rw [Pool.Serves, hm.env]
    exact hs
  rw [allocateNode]
  generalize pool.allocate = made at hp hnew hserves
  obtain ⟨pid, pool₁⟩ := made
  simp only at hp hnew ⊢
  rw [if_neg (not_lt.mpr hp), Pool.pinPage_eq hserves hp]
  exact ⟨hnew _, hp, List.mem_cons_self⟩

/-! ## Insertion -/

theorem Marks.storeNode (h : Marks used pool pool') (hd : pid ∈ pool'.dirty) (node : BtreeNode) :
    Marks used pool (storeNode pool' pid node) := by
  rw [Garry.storeNode]
  split
  · exact h
  simp only
  split
  · exact h.setPage hd _
  split
  · exact h.change pid _
  · exact h.setPage hd _

theorem dirty_storeNode (pool : Pool) (pid : Int) (node : BtreeNode) :
    pool.dirty ⊆ (storeNode pool pid node).dirty := by
  rw [Garry.storeNode]
  split
  · exact List.Subset.refl _
  simp only
  split
  · exact List.Subset.refl _
  split
  · exact List.subset_cons_self ..
  · exact List.Subset.refl _

/-- The mark comes after the page is stored. -/
theorem Marks.storeDirty (h : Marks used pool pool') (pid : Int) (node : BtreeNode) :
    Marks used pool (storeDirty pool' pid node) := by
  rw [Garry.storeDirty, Garry.storeNode]
  split
  · exact h.markDirty pid
  simp only
  split
  · exact h.change pid _
  split
  · exact (h.change pid _).markDirty pid
  · exact h.change pid _

theorem Marks.serves (h : Marks used pool pool') (hs : pool.Serves) : pool'.Serves := by
  rw [Pool.Serves, h.env]
  exact hs

theorem marks_leafSplit (hs : pool.Serves) (h0 : 0 ≤ pool.nextPage) (used : Set Int) (page : Int)
    (node : BtreeNode) (key value : Bytes) :
    Marks used pool (leafSplit pool page node key value).1.pool ∧
      page ∈ (leafSplit pool page node key value).1.pool.dirty := by
  obtain ⟨hm, hp, hd⟩ := marks_allocateNode hs h0 used .leaf
  rw [leafSplit]
  simp only
  rw [allocateLeaf]
  generalize allocateNode .leaf pool = made at hm hp hd
  obtain ⟨right, pool₁⟩ := made
  simp only at hm hp hd ⊢
  rw [if_neg (not_lt.mpr hp)]
  have hstore := (hm.markDirty page).storeNode (List.mem_cons_of_mem page hd)
  have hpage (node' : BtreeNode) : page ∈ (storeNode (pool₁.markDirty page) right node').dirty :=
    dirty_storeNode _ _ _ List.mem_cons_self
  exact ⟨(hstore _).storeNode (hpage _) _, dirty_storeNode _ _ _ (hpage _)⟩

theorem marks_internalSplit (hs : pool.Serves) (h0 : 0 ≤ pool.nextPage) (used : Set Int)
    (page : Int) (node : BtreeNode) (idx : Nat) (key : Bytes) (child : Int) :
    Marks used pool (internalSplit pool page node idx key child).pool := by
  obtain ⟨hm, hp, hd⟩ := marks_allocateNode hs h0 used .internal
  rw [internalSplit]
  simp only
  rw [allocateInternal]
  generalize allocateNode .internal pool = made at hm hp hd
  obtain ⟨right, pool₁⟩ := made
  simp only at hm hp hd ⊢
  rw [if_neg (not_lt.mpr hp)]
  exact ((hm.storeNode hd _).storeDirty page _).moreDirty
    (List.cons_subset_cons page (List.subset_cons_self right _))

theorem marks_btreeInsertRec {out : InsertOut} (hs : pool.Serves) (h0 : 0 ≤ pool.nextPage)
    (used : Set Int) (h : btreeInsertRec key value fuel pool page = some out) :
    Marks used pool out.pool := by
  induction fuel generalizing page out with
  | zero => cases h
  | succ fuel ih =>
    rw [btreeInsertRec] at h
    simp only at h
    split at h
    · split at h
      · cases h
        exact Marks.refl.storeDirty page _
      split at h
      · split at h
        · cases h
          exact Marks.refl.storeDirty page _
        · cases h
          exact Marks.refl.storeDirty page _
      · cases h
        obtain ⟨hm, hd⟩ := marks_leafSplit hs h0 used page _ key value
        exact hm.storeNode hd _
    · split at h
      · cases h
      · next out₁ hout =>
        have hm := ih hout
        split at h
        · split at h
          · cases h
            exact hm.storeDirty page _
          · cases h
            exact hm.trans (marks_internalSplit (hm.serves hs) (h0.trans hm.next) used ..)
        · cases h
          exact hm

/-- `garry_btree_insert` marks the pages that it changes, and does not write. -/
theorem marks_btreeInsert (hs : pool.Serves) (h0 : 0 ≤ pool.nextPage) (used : Set Int)
    (h : btreeInsert pool root key value = some (ok, pool', root')) : Marks used pool pool' := by
  rw [btreeInsert] at h
  simp only at h
  split at h
  · cases h
  · next out hout =>
    have hm := marks_btreeInsertRec hs h0 used hout
    split at h
    · split at h
      · have ha : Marks used out.pool (allocateInternal out.pool).2 :=
          (marks_allocateNode (hm.serves hs) (h0.trans hm.next) used .internal).1
        split at h
        · cases h
          exact hm.trans ha
        · cases h
          exact (hm.trans ha).storeDirty _ _
      · cases h
        exact hm
    · cases h
      exact hm

/-! ## Freed pages -/

theorem marks_overflowFree (used : Set Int) (h : overflowFree pool head = some pool') :
    Marks used pool pool' := by
  rw [overflowFree] at h
  generalize pool.nextPage.toNat + 1 = fuel at h
  induction fuel generalizing pool head with
  | zero => cases h
  | succ fuel ih =>
    rw [overflowFreeLoop] at h
    split at h
    · cases h
      exact .refl
    split at h
    · cases h
      exact .refl
    · exact (Marks.refl.freePage head).trans (ih h)

theorem marks_pruneFree {recs : List Bytes} (used : Set Int) (h : pruneFree pool recs = some pool') :
    Marks used pool pool' := by
  induction recs generalizing pool with
  | nil =>
    cases h
    exact .refl
  | cons recData recs ih =>
    rw [pruneFree] at h
    split at h
    · obtain ⟨pool₁, hf, h⟩ := Option.bind_eq_some_iff.mp h
      exact (marks_overflowFree used hf).trans (ih h)
    · exact ih h

/-- `garry_chain_page_prune` does so too, but for the chain page, which its caller stores. -/
theorem marks_chainPagePrune {buf buf' : PageBuffer} (used : Set Int)
    (h : chainPagePrune pool buf ps active = some (pool', buf')) : Marks used pool pool' := by
  simp only [chainPagePrune] at h
  split at h
  · cases h
    exact .refl
  · obtain ⟨pool₁, hf, h⟩ := Option.map_eq_some_iff.mp h
    have hm := marks_pruneFree used hf
    split at h
    · cases h
      exact hm
    · cases h
      exact hm

end Garry
