import Garry.Model.DbHeader
import Garry.Verify.BtreeMap
import Garry.Verify.VersionStore

/-!
# The pages of a store

A store has a tree that maps keys to the descriptors of their chain pages, the chain pages and the
overflow pages of long values. Every page in use has one owner.
-/

namespace Garry

open ByteStore BPlusTree

variable {ps : Nat} {pool pool' : Pool}

/-! ## Tree pages do not become chain pages -/

/-- The pages that change are no chain pages afterwards. -/
structure Retyped (pool pool' : Pool) : Prop where
  pageSize : pool'.pageSize = pool.pageSize
  pages : ∀ q, pool'.pages q = pool.pages q ∨
    readInt32 (pool'.pages q) pageHdrOffType ≠ NodeKind.chain.code

theorem Retyped.refl : Retyped pool pool := ⟨rfl, fun _ => .inl rfl⟩

theorem Retyped.trans {pool'' : Pool} (h : Retyped pool pool') (h' : Retyped pool' pool'') :
    Retyped pool pool'' where
  pageSize := h'.pageSize.trans h.pageSize
  pages q := by
    rcases h'.pages q with e | e
    · rw [e]
      exact h.pages q
    · exact .inr e

theorem Retyped.setPage (h : Retyped pool pool')
    (hb : readInt32 buf pageHdrOffType ≠ NodeKind.chain.code) :
    Retyped pool (pool'.setPage pid buf) where
  pageSize := h.pageSize
  pages q := by
    by_cases hq : q = pid
    · rw [hq, Pool.setPage_pages_self]
      exact .inr hb
    · rw [Pool.setPage_pages_of_ne hq]
      exact h.pages q

theorem Retyped.markDirty (h : Retyped pool pool') : Retyped pool (pool'.markDirty pid) :=
  ⟨h.pageSize, h.pages⟩

theorem retyped_allocate : Retyped pool pool.allocate.2 := by
  have hz : readInt32 (fun _ => 0) pageHdrOffType ≠ NodeKind.chain.code := by decide
  have hand (pool : Pool) (pid : Int) (q : Int) :
      (pool.handOut pid).pages q = pool.pages q ∨
        readInt32 ((pool.handOut pid).pages q) pageHdrOffType ≠ NodeKind.chain.code := by
    by_cases hq : q = pid
    · rw [Pool.handOut, hq]
      simp only [Function.update_self]
      exact .inr hz
    · rw [Pool.handOut]
      exact .inl (Function.update_of_ne hq _ _)
  rw [Pool.allocate]
  split
  · simp only
    split
    · exact ⟨rfl, fun _ => .inl rfl⟩
    · exact ⟨rfl, hand _ _⟩
  split
  · exact .refl
  split
  · exact .refl
  · exact ⟨rfl, hand _ _⟩

theorem type_pageInit (buf : PageBuffer) {kind : NodeKind} (level : Int) (ps : Nat)
    (hk : kind ≠ .chain) :
    readInt32 (pageInit buf kind level ps) pageHdrOffType ≠ NodeKind.chain.code := by
  rw [(pageInit_word buf kind level ps).1]
  cases kind <;> first | decide | exact absurd rfl hk

theorem retyped_allocateNode {kind : NodeKind} (hk : kind ≠ .chain) :
    Retyped pool (allocateNode kind pool).2 := by
  have ha : Retyped pool pool.allocate.2 := retyped_allocate
  rw [allocateNode]
  generalize pool.allocate = made at ha
  obtain ⟨pid, pool₁⟩ := made
  simp only
  split
  · exact ha
  split
  · exact ha
  · exact (ha.setPage (type_pageInit _ _ _ hk)).markDirty

theorem insertRecords_type {recs datas : List Bytes} {buf : PageBuffer} (H : Holds ps buf recs)
    (hne : ∀ d ∈ datas, d ≠ []) :
    readInt32 (insertRecords buf datas).1 pageHdrOffType = readInt32 buf pageHdrOffType := by
  induction datas generalizing buf recs with
  | nil => rfl
  | cons data datas ih =>
    rw [insertRecords]
    by_cases hroom : HasRoom ps recs data.length
    · obtain ⟨buf₁, h1, H1, hw⟩ := pageInsert_some H (hne data (by simp)) hroom
      rw [h1]
      exact (ih H1 fun d hd => hne d (by simp [hd])).trans (hw _ (by decide))
    · rw [pageInsert_none H hroom]

/-- The page sizes whose pages can be stored. -/
def Pool.Sized (pool : Pool) : Prop := pageHeaderSize ≤ pool.pageSize ∧ pool.pageSize ≤ maxPageSize

theorem Retyped.sized (h : Retyped pool pool') (hs : pool.Sized) : pool'.Sized := by
  rw [Pool.Sized, h.pageSize]
  exact hs

theorem retyped_storeNode (hs : pool.Sized) (hk : node.kind ≠ .chain) :
    Retyped pool (storeNode pool pid node) := by
  rw [storeNode]
  split
  · exact .refl
  · next buf _ =>
    simp only
    have hinit := type_pageInit buf node.clampCount.pageLevel pool.pageSize
      (show node.clampCount.kind ≠ .chain from hk)
    have H := pageInit_holds buf node.clampCount.kind node.clampCount.pageLevel hs.1 hs.2
    generalize pageInit buf node.clampCount.kind node.clampCount.pageLevel pool.pageSize = buf₀ at *
    split
    · exact Retyped.refl.setPage hinit
    · next r buf₁ hi =>
      have hroom : HasRoom pool.pageSize [] (encodeNodeMeta node.clampCount).length := by
        by_contra hno
        rw [pageInsert_none H hno] at hi
        cases hi
      obtain ⟨buf', hi', H', hw⟩ := pageInsert_some H (encodeNodeMeta_ne_nil _) hroom
      obtain ⟨-, rfl⟩ := Prod.mk.inj (Option.some.inj (hi.symm.trans hi'))
      have hne : ∀ d ∈ node.clampCount.entries.map (encodeEntry node.clampCount.kind), d ≠ [] := by
        intro d hd
        obtain ⟨e, -, rfl⟩ := List.mem_map.mp hd
        exact encodeEntry_ne_nil
      have ht := insertRecords_type H' hne
      rw [hw _ (by decide)] at ht
      have htype := fun e => hinit (ht.symm.trans e)
      generalize insertRecords buf₁ _ = written at htype
      obtain ⟨buf₂, ok⟩ := written
      cases ok with
      | true => exact (Retyped.refl.setPage htype).markDirty
      | false => exact Retyped.refl.setPage htype

theorem retyped_storeDirty (hs : pool.Sized) (hk : node.kind ≠ .chain) :
    Retyped pool (storeDirty pool pid node) := (retyped_storeNode hs hk).markDirty

theorem decodeNodeMeta_kind (buf : Store) (elen : Int) (node : BtreeNode) :
    (decodeNodeMeta buf elen node).kind = node.kind := by
  simp only [decodeNodeMeta]
  split
  · rfl
  split <;> rfl

theorem loadNode_kind (pool : Pool) (pid : Int) : (loadNode pool pid).kind ≠ .chain := by
  rw [loadNode]
  split
  · decide
  · next buf _ =>
    have hkind : (if readInt32 buf 0 = NodeKind.leaf.code then NodeKind.leaf
        else if readInt32 buf 0 = NodeKind.overflow.code then .overflow else .internal) ≠
        .chain := by
      split
      · decide
      split <;> decide
    simp only [loadPage]
    split
    · split
      · split
        · rw [decodeNodeMeta_kind]
          exact hkind
        · exact hkind
      · exact hkind
    · exact hkind

/-! ### Insertion -/

theorem retyped_split {left right : BtreeNode} {p q : Int} (hs : pool.Sized)
    (hl : left.kind ≠ .chain) (hr : right.kind ≠ .chain) :
    Retyped pool (storeNode (storeNode pool q right) p left) := by
  have h : Retyped pool (storeNode pool q right) := retyped_storeNode hs hr
  exact h.trans (retyped_storeNode (h.sized hs) hl)

theorem retyped_leafSplit (hs : pool.Sized) (page : Int) (key value : Bytes)
    (hk : node.kind ≠ .chain) :
    Retyped pool (leafSplit pool page node key value).1.pool ∧
      (leafSplit pool page node key value).2.kind = node.kind := by
  have ha : Retyped pool (allocateLeaf pool).2 := retyped_allocateNode (by decide)
  rw [leafSplit]
  simp only
  generalize allocateLeaf pool = made at ha
  obtain ⟨rightPage, pool₁⟩ := made
  simp only at ha ⊢
  split
  · exact ⟨ha, rfl⟩
  · have hd : Retyped pool (pool₁.markDirty page) := ha.markDirty
    refine ⟨hd.trans (retyped_split (hd.sized hs) ?_ ?_), rfl⟩
    · exact hk
    · exact NodeKind.noConfusion

theorem retyped_internalSplit (hs : pool.Sized) (page : Int) (idx : Nat) (key : Bytes)
    (child : Int) (hk : node.kind ≠ .chain) :
    Retyped pool (internalSplit pool page node idx key child).pool := by
  have ha : Retyped pool (allocateInternal pool).2 := retyped_allocateNode (by decide)
  rw [internalSplit]
  simp only
  generalize allocateInternal pool = made at ha
  obtain ⟨rightPage, pool₁⟩ := made
  simp only at ha ⊢
  split
  · exact ha
  · refine (ha.trans (retyped_split (ha.sized hs) ?_ ?_)).markDirty.markDirty
    · exact hk
    · exact NodeKind.noConfusion

theorem retyped_btreeInsertRec (hs : pool.Sized)
    (h : btreeInsertRec key value fuel pool page = some out) : Retyped pool out.pool := by
  induction fuel generalizing page out with
  | zero => cases h
  | succ fuel ih =>
    have hk := loadNode_kind pool page
    rw [btreeInsertRec] at h
    generalize loadNode pool page = node at h hk
    simp only at h
    split at h
    · split at h
      · cases h
        exact retyped_storeDirty hs hk
      · split at h
        · split at h
          · next node' hi =>
            cases h
            rw [leafInsert] at hi
            split at hi
            · cases hi
            · cases hi
              exact retyped_storeDirty hs hk
          · cases h
            exact retyped_storeDirty hs hk
        · cases h
          obtain ⟨hsplit, hkind⟩ := retyped_leafSplit hs page key value hk
          exact hsplit.trans (retyped_storeNode (hsplit.sized hs) (hkind ▸ hk))
    · split at h
      · cases h
      · next sub hsub =>
        have hr := ih hsub
        split at h
        · split at h
          · cases h
            exact hr.trans (retyped_storeDirty (hr.sized hs) hk)
          · cases h
            exact hr.trans (retyped_internalSplit (hr.sized hs) _ _ _ _ hk)
        · cases h
          exact hr

/-- `garry_btree_insert` makes no chain pages. -/
theorem retyped_btreeInsert (hs : pool.Sized)
    (h : btreeInsert pool root key value = some (ok, pool', root')) : Retyped pool pool' := by
  rw [btreeInsert] at h
  simp only at h
  split at h
  · cases h
  · next out hout =>
    have hr := retyped_btreeInsertRec hs hout
    have ha : Retyped out.pool (allocateInternal out.pool).2 := retyped_allocateNode (by decide)
    split at h
    · split at h
      · generalize allocateInternal out.pool = made at ha h
        obtain ⟨newRoot, pool₁⟩ := made
        simp only at ha h
        split at h
        · cases h
          exact hr.trans ha
        · cases h
          refine (hr.trans ha).trans (retyped_storeDirty ((hr.trans ha).sized hs) ?_)
          exact NodeKind.noConfusion
      · cases h
        exact hr
    · cases h
      exact hr

/-! ## Owners -/

/-- What a page in use is for; a page of the log holds a value that no version refers to. -/
inductive Owner
  | header
  | tree
  | chain (key : Bytes)
  | overflow (key : Bytes)
  | log

/-- The owners of the pages, the tree with its pages, and the versions of every key, the oldest
first. -/
structure Layout where
  own : Int → Option Owner
  root : Root Bytes Bytes
  foot : Foot
  versions : Bytes → List StoredVersion

namespace Layout

/-- The pages in use. -/
def used (L : Layout) : Set Int := {p | L.own p ≠ none}

/-- The descriptor of a key, which holds the id of its chain page. -/
def lookup (L : Layout) (key : Bytes) : Option Bytes := SortedAssoc.lookup key L.root.toList

/-- Pages get an owner. -/
def take (L : Layout) (l : List Int) (o : Owner) : Layout :=
  { L with own := fun p => if p ∈ l then some o else L.own p }

/-- Pages lose their owner. -/
def drop (L : Layout) (l : List Int) : Layout :=
  { L with own := fun p => if p ∈ l then none else L.own p }

/-- A key has other versions. -/
def setVersions (L : Layout) (key : Bytes) (vs : List StoredVersion) : Layout :=
  { L with versions := Function.update L.versions key vs }

/-- A new key has its chain page, and its entry in the tree has changed the pages of the tree. -/
def addKey (L : Layout) (key : Bytes) (cid : Int) (f : Foot) : Layout where
  own p := if p = cid then some (.chain key) else if p ∈ f.pages then some .tree else L.own p
  root := L.root.insert 2 maxKeysPerNode key (encodeDescriptor cid false)
  foot := f
  versions := L.versions

theorem used_take (L : Layout) (l : List Int) (o : Owner) :
    (L.take l o).used = L.used ∪ {p | p ∈ l} := by
  ext p
  simp only [used, take, Set.mem_ofPred_eq, Set.mem_union]
  by_cases hp : p ∈ l <;> simp [hp]

theorem used_drop (L : Layout) (l : List Int) : (L.drop l).used = L.used \ {p | p ∈ l} := by
  ext p
  simp only [used, drop, Set.mem_ofPred_eq, Set.mem_sdiff]
  by_cases hp : p ∈ l <;> simp [hp]

theorem mem_used {L : Layout} {o : Owner} (h : L.own p = some o) : p ∈ L.used := by
  simp [used, h]

theorem own_take {L : Layout} {l : List Int} {o o' : Owner} (hl : ∀ q ∈ l, q ∉ L.used)
    (h : L.own p = some o') : (L.take l o).own p = some o' := by
  rw [take]
  simp only
  rw [if_neg fun hp => hl p hp (mem_used h), h]

theorem own_addKey_self (L : Layout) (key : Bytes) (cid : Int) (f : Foot) :
    (L.addKey key cid f).own cid = some (.chain key) := by simp [addKey]

theorem own_addKey_foot {L : Layout} {key : Bytes} {f : Foot} (hf : cid ∉ f.pages)
    (hp : p ∈ f.pages) : (L.addKey key cid f).own p = some .tree := by
  have hpc : p ≠ cid := by
    rintro rfl
    exact hf hp
  simp [addKey, hpc, hp]

/-- What is not the new chain page or a page of the tree had its owner before. -/
theorem own_of_addKey {L : Layout} {key : Bytes} {f : Foot} {o : Owner}
    (h : (L.addKey key cid f).own p = some o) (ht : o ≠ .tree) :
    (p = cid ∧ o = .chain key) ∨ L.own p = some o := by
  simp only [addKey] at h
  split at h
  · next hpc => exact .inl ⟨hpc, (Option.some.inj h).symm⟩
  split at h
  · exact absurd (Option.some.inj h).symm ht
  · exact .inr h

end Layout

/-- The pages of the log stay as they are. -/
def LogKept (pool pool' : Pool) (L L' : Layout) : Prop :=
  ∀ p, L.own p = some .log → L'.own p = some .log ∧ pool'.pages p = pool.pages p

theorem LogKept.refl {L : Layout} : LogKept pool pool L L := fun _ h => ⟨h, rfl⟩

theorem LogKept.trans {pool'' : Pool} {L L' L'' : Layout} (h : LogKept pool pool' L L')
    (h' : LogKept pool' pool'' L' L'') : LogKept pool pool'' L L'' := by
  intro p hp
  obtain ⟨hp', e⟩ := h p hp
  obtain ⟨hp'', e'⟩ := h' p hp'
  exact ⟨hp'', e'.trans e⟩

/-- Every chain page is dirty or in the file, and the overflow pages of the versions are in the
file. -/
structure Flushed (pool : Pool) (L : Layout) : Prop where
  paged : pool.file.Paged pool.pageSize
  chain : ∀ {cid key}, L.own cid = some (.chain key) → cid ∈ pool.dirty ∨ PageStored pool cid
  overflow : ∀ {p key}, p ∈ overflowPages (L.versions key) → PageStored pool p

/-- The chain pages stay, or are changed and dirty then; the overflow pages stay, or are written. -/
theorem Flushed.of_marks {L L' : Layout} {used : Set Int} (h : Flushed pool L)
    (hm : Marks used pool pool')
    (hchain : ∀ cid key, L'.own cid = some (.chain key) →
      cid ∈ pool'.dirty ∨ L.own cid = some (.chain key) ∧ cid ∈ used)
    (hover : ∀ p key, p ∈ overflowPages (L'.versions key) → PageStored pool' p ∨
      p ∈ overflowPages (L.versions key) ∧ p ∈ used ∧ pool'.pages p = pool.pages p) :
    Flushed pool' L' where
  paged := by
    rw [hm.pageSize]
    exact hm.paged h.paged
  chain ho := by
    rcases hchain _ _ ho with hd | ⟨ho, hu⟩
    · exact .inl hd
    · exact hm.safe hu (h.chain ho)
  overflow hp := by
    rcases hover _ _ hp with hs | ⟨hp, hu, he⟩
    · exact hs
    · exact hm.stored hu he (h.overflow hp)

theorem Flushed.marks {L : Layout} (h : Flushed pool L) (hm : Marks Set.univ pool pool')
    (hpages : pool'.pages = pool.pages) : Flushed pool' L :=
  h.of_marks hm (fun cid _ ho => .inr ⟨ho, Set.mem_univ cid⟩)
    fun p _ hp => .inr ⟨hp, Set.mem_univ p, congrFun hpages p⟩

/-- No version goes: the pages of the log and of long values stay as they are, and a key may get more
versions. -/
structure VersionsKept (pool pool' : Pool) (L L' : Layout) : Prop where
  log : LogKept pool pool' L L'
  overflow : ∀ {p key}, L.own p = some (.overflow key) →
    L'.own p = some (.overflow key) ∧ pool'.pages p = pool.pages p
  versions : ∀ key, L.versions key <+: L'.versions key
  flushed : Flushed pool L → Flushed pool' L'

theorem VersionsKept.refl {L : Layout} : VersionsKept pool pool L L :=
  ⟨.refl, fun h => ⟨h, rfl⟩, fun _ => List.prefix_refl _, id⟩

theorem VersionsKept.trans {pool'' : Pool} {L L' L'' : Layout} (h : VersionsKept pool pool' L L')
    (h' : VersionsKept pool' pool'' L' L'') : VersionsKept pool pool'' L L'' where
  log := h.log.trans h'.log
  overflow ho :=
    have hmid := h.overflow ho
    ⟨(h'.overflow hmid.1).1, (h'.overflow hmid.1).2.trans hmid.2⟩
  versions key := (h.versions key).trans (h'.versions key)
  flushed hf := h'.flushed (h.flushed hf)

/-- The pages of a store between two calls. -/
structure PagesInv (ps : Nat) (pool : Pool) (btreeRoot : Int) (L : Layout) : Prop where
  size : 1024 ≤ ps ∧ ps ≤ maxRecordSize
  tree : TreeAt 14 ps pool L.used btreeRoot L.root L.foot
  header : L.own headerPage = some .header
  treeOwn : ∀ p ∈ L.foot.pages, L.own p = some .tree
  keyLen : ∀ e ∈ L.root.toList, 0 < e.1.length ∧ e.1.length ≤ 255
  entry : ∀ {key v}, L.lookup key = some v →
    ∃ cid, v = encodeDescriptor cid false ∧ L.own cid = some (.chain key)
  chain : ∀ {key cid}, L.own cid = some (.chain key) →
    L.lookup key = some (encodeDescriptor cid false) ∧
      ChainAt ps pool.pages cid (L.versions key)
  empty : ∀ {key}, L.lookup key = none → L.versions key = []
  nodup : ∀ key, (overflowPages (L.versions key)).Nodup
  overflow : ∀ {key}, ∀ p ∈ overflowPages (L.versions key), L.own p = some (.overflow key)
  quiet : ∀ p, 0 ≤ p → (∀ key, L.own p ≠ some (.chain key)) →
    readInt32 (pool.pages p) pageHdrOffType ≠ NodeKind.chain.code ∨
      pageRecordCount (pool.pages p) = 0
  flat : ∀ {p key}, L.own p = some (.overflow key) → pageRecordCount (pool.pages p) = 0

namespace PagesInv

variable {L : Layout} {btreeRoot : Int}

theorem live (h : PagesInv ps pool btreeRoot L) : Live 14 ps pool L.used := h.tree.live

theorem owns (h : PagesInv ps pool btreeRoot L) : pool.Owns L.used := h.live.owns

theorem pageSize (h : PagesInv ps pool btreeRoot L) : pool.pageSize = ps := h.live.size

theorem serves (h : PagesInv ps pool btreeRoot L) : pool.Serves := h.owns.serves

theorem sized (h : PagesInv ps pool btreeRoot L) : pool.Sized := by
  obtain ⟨h1, h2⟩ := h.size
  rw [Pool.Sized, h.pageSize]
  simp only [pageHeaderSize, maxPageSize, maxRecordSize] at h2 ⊢
  omega

theorem chunk (h : PagesInv ps pool btreeRoot L) : 0 < overflowChunkSize ps := by
  have := h.size.1
  simp only [overflowChunkSize, pageHeaderSize, overflowPtrSize]
  omega

theorem range (h : PagesInv ps pool btreeRoot L) {o : Owner} (ho : L.own p = some o) :
    0 ≤ p ∧ p < pool.nextPage := h.owns.range p (Layout.mem_used ho)

/-- The chain page of a key is no overflow page. -/
theorem ne_overflow (h : PagesInv ps pool btreeRoot L) {key key' : Bytes}
    (hc : L.own cid = some (.chain key)) (hp : p ∈ overflowPages (L.versions key')) : p ≠ cid := by
  rintro rfl
  have ho := h.overflow p hp
  rw [hc] at ho
  cases ho

/-- Overflow pages belong to one key. -/
theorem disjoint (h : PagesInv ps pool btreeRoot L) {key key' : Bytes}
    (hp : p ∈ overflowPages (L.versions key)) (hp' : p ∈ overflowPages (L.versions key')) :
    key = key' := by
  have h1 := h.overflow p hp
  have h2 := h.overflow p hp'
  rw [h1] at h2
  cases h2
  rfl

/-- A key has one chain page. -/
theorem cid_unique (h : PagesInv ps pool btreeRoot L) (hn : pool.nextPage ≤ 2147483648)
    {key : Bytes} (hc : L.own cid = some (.chain key)) (hc' : L.own cid' = some (.chain key)) :
    cid = cid' := by
  have h1 := (h.chain hc).1
  rw [(h.chain hc').1] at h1
  have r := h.range hc
  have r' := h.range hc'
  have e : encodeDescriptor cid' false = encodeDescriptor cid false := Option.some.inj h1
  have e' := congrArg (fun v => decodeCidFromDescriptor v.toBuffer) e
  simp only [decodeCidFromDescriptor_encode r.1 (show cid < 4294967296 by omega),
    decodeCidFromDescriptor_encode r'.1 (show cid' < 4294967296 by omega)] at e'
  exact e'.symm

/-- `garry_leaf_find_search` finds the descriptor of the key. -/
theorem search (h : PagesInv ps pool btreeRoot L) (key : Bytes) :
    leafFindSearch pool btreeRoot key = some (L.lookup key) := h.tree.search key

/-- A change that concerns no page in use. -/
theorem congr (h : PagesInv ps pool btreeRoot L) (ho : pool'.Owns L.used)
    (hps : pool'.pageSize = pool.pageSize) (hp : ∀ p, pool'.pages p = pool.pages p) :
    PagesInv ps pool' btreeRoot L :=
  { h with
    tree := h.tree.congr ⟨hps.trans h.pageSize, h.live.fits, ho⟩ h.tree.sub fun p _ => hp p
    chain := fun hc => ⟨(h.chain hc).1, (h.chain hc).2.congr (hp _) fun p _ => hp p⟩
    quiet := fun p h0 hc => by
      rw [hp]
      exact h.quiet p h0 hc
    flat := fun ho => by
      rw [hp]
      exact h.flat ho }

theorem flushPage (h : PagesInv ps pool btreeRoot L) (pid : Int) :
    PagesInv ps (pool.flushPage pid) btreeRoot L :=
  h.congr h.owns.flushPage Pool.flushPage_pageSize fun _ => by rw [Pool.flushPage_pages]

theorem foldl_flushPage (h : PagesInv ps pool btreeRoot L) (pids : List Int) :
    PagesInv ps (pids.foldl Pool.flushPage pool) btreeRoot L := by
  induction pids generalizing pool with
  | nil => exact h
  | cons p pids ih =>
    rw [List.foldl_cons]
    exact ih (h.flushPage p)

theorem flushed_foldl (h : PagesInv ps pool btreeRoot L) (hf : Flushed pool L) (pids : List Int) :
    Flushed (pids.foldl Pool.flushPage pool) L where
  paged := paged_foldl hf.paged pids
  chain ho := safe_foldl (h.range ho).1 (hf.chain ho)
  overflow hp := pageStored_foldl (h.range (h.overflow _ hp)).1 (.inl (hf.overflow hp))

theorem withEnv {env : PoolEnv} (h : PagesInv ps pool btreeRoot L) (he : env.Serves) :
    PagesInv ps (pool.withEnv env) btreeRoot L := h.congr (h.owns.withEnv he) rfl fun _ => rfl

/-- Pages get an owner while the pages in use stay as they are. -/
theorem take (h : PagesInv ps pool btreeRoot L) {l : List Int} {o : Owner}
    (hl : ∀ p ∈ l, p ∉ L.used) (hno : ∀ key, o ≠ .chain key)
    (ho : pool'.Owns (L.used ∪ {p | p ∈ l})) (hps : pool'.pageSize = pool.pageSize)
    (hframe : ∀ p, 0 ≤ p → p ∉ l → pool'.pages p = pool.pages p)
    (hcount : ∀ p ∈ l, pageRecordCount (pool'.pages p) = 0) :
    PagesInv ps pool' btreeRoot (L.take l o) := by
  have hpage (p : Int) (o' : Owner) (hp : L.own p = some o') : pool'.pages p = pool.pages p :=
    hframe p (h.range hp).1 fun hm => hl p hm (Layout.mem_used hp)
  have hown (p : Int) (o' : Owner) (hp : L.own p = some o') : (L.take l o).own p = some o' :=
    Layout.own_take hl hp
  exact {
    size := h.size
    tree := by
      refine h.tree.congr ⟨hps.trans h.pageSize, h.live.fits, ?_⟩ ?_ fun p hp =>
        hpage p _ (h.treeOwn p hp)
      · rw [Layout.used_take]
        exact ho
      · intro p hp
        rw [Layout.used_take]
        exact .inl (h.tree.sub p hp)
    header := hown _ _ h.header
    treeOwn := fun p hp => hown _ _ (h.treeOwn p hp)
    keyLen := h.keyLen
    entry := by
      intro key v hv
      obtain ⟨cid, hd, hc⟩ := h.entry hv
      exact ⟨cid, hd, hown _ _ hc⟩
    chain := by
      intro key cid hc
      have hc' : L.own cid = some (.chain key) := by
        simp only [Layout.take] at hc
        split at hc
        · exact absurd (Option.some.inj hc) (hno key)
        · exact hc
      obtain ⟨h1, h2⟩ := h.chain hc'
      exact ⟨h1, h2.congr (hpage _ _ hc') fun p hp => hpage p _ (h.overflow p hp)⟩
    empty := h.empty
    nodup := h.nodup
    overflow := fun p hp => hown _ _ (h.overflow p hp)
    quiet := by
      intro p h0 hc
      by_cases hp : p ∈ l
      · exact .inr (hcount p hp)
      · rw [hframe p h0 hp]
        exact h.quiet p h0 fun key hk => hc key (hown _ _ hk)
    flat := by
      intro p key hp
      by_cases hm : p ∈ l
      · exact hcount p hm
      · have hp' : L.own p = some (.overflow key) := by
          simp only [Layout.take] at hp
          rwa [if_neg hm] at hp
        rw [hpage p _ hp']
        exact h.flat hp' }

/-- A long value is written to new pages. -/
theorem overflowWrite (h : PagesInv ps pool btreeRoot L) {o : Owner}
    (hno : ∀ key, o ≠ .chain key) (hids : (overflowWrite pool value).2.nextPage ≤ 2147483648) :
    ∃ l pool', Garry.overflowWrite pool value = (l.head?.getD (-1), pool') ∧
      OverflowWritten ps L.used pool pool' (-1) value l ∧
      PagesInv ps pool' btreeRoot (L.take l o) := by
  obtain ⟨l, pool', heq, hw⟩ := overflowWrite_written h.owns h.pageSize h.chunk hids
  exact ⟨l, pool', heq, hw, h.take hw.fresh hno hw.owns hw.pageSize
    (fun p h0 hp => hw.frame p hp (by omega)) hw.count⟩

/-- The versions of a key change in its chain page, and some of its overflow pages are freed. -/
theorem replace (h : PagesInv ps pool btreeRoot L) (hn : pool.nextPage ≤ 2147483648) {l : List Int}
    {vs : List StoredVersion} {key : Bytes} (hc : L.own cid = some (.chain key))
    (hl : ∀ p ∈ l, L.own p = some (.overflow key)) (ho : pool'.Owns (L.used \ {p | p ∈ l}))
    (hps : pool'.pageSize = pool.pageSize)
    (hframe : ∀ p, p ≠ cid → p ∉ l → pool'.pages p = pool.pages p)
    (hcount : ∀ p ∈ l, pageRecordCount (pool'.pages p) = pageRecordCount (pool.pages p))
    (hchain : ChainAt ps pool'.pages cid vs) (hnd : (overflowPages vs).Nodup)
    (hvs : ∀ p ∈ overflowPages vs, L.own p = some (.overflow key) ∧ p ∉ l) :
    PagesInv ps pool' btreeRoot ((L.drop l).setVersions key vs) := by
  have hown (p : Int) (o : Owner) (hp : L.own p = some o) (hne : o ≠ .overflow key) :
      (L.drop l).own p = some o := by
    rw [Layout.drop]
    simp only
    rw [if_neg, hp]
    intro hm
    rw [hl p hm] at hp
    exact hne (Option.some.inj hp).symm
  have hown' (p : Int) (o : Owner) (hp : (L.drop l).own p = some o) : L.own p = some o ∧ p ∉ l := by
    simp only [Layout.drop] at hp
    split at hp
    · cases hp
    · next hm => exact ⟨hp, hm⟩
  have hpage (p : Int) (o : Owner) (hp : L.own p = some o) (hne : o ≠ .overflow key)
      (hne' : o ≠ .chain key) : pool'.pages p = pool.pages p := by
    refine hframe p ?_ ?_
    · rintro rfl
      rw [hc] at hp
      exact hne' (Option.some.inj hp).symm
    · intro hm
      rw [hl p hm] at hp
      exact hne (Option.some.inj hp).symm
  exact {
    size := h.size
    tree := by
      refine h.tree.congr ⟨hps.trans h.pageSize, h.live.fits, ?_⟩ ?_ fun p hp =>
        hpage p _ (h.treeOwn p hp) (by simp) (by simp)
      · show pool'.Owns (L.drop l).used
        rw [Layout.used_drop]
        exact ho
      · intro p hp
        exact Layout.mem_used (L := L.drop l) (hown p _ (h.treeOwn p hp) (by simp))
    header := hown _ _ h.header (by simp)
    treeOwn := fun p hp => hown _ _ (h.treeOwn p hp) (by simp)
    keyLen := h.keyLen
    entry := by
      intro key' v hv
      obtain ⟨cid', hd, hc'⟩ := h.entry hv
      exact ⟨cid', hd, hown _ _ hc' (by simp)⟩
    chain := by
      intro key' cid' hcl
      have hc' := (hown' _ _ hcl).1
      refine ⟨(h.chain hc').1, ?_⟩
      by_cases hk : key' = key
      · subst hk
        obtain rfl := h.cid_unique hn hc hc'
        simp only [Layout.setVersions, Function.update_self]
        exact hchain
      · simp only [Layout.setVersions, Function.update_of_ne hk]
        refine (h.chain hc').2.congr (hpage _ _ hc' (by simp) ?_) fun p hp =>
          hpage p _ (h.overflow p hp) ?_ (by simp)
        · rintro ⟨⟩
          exact hk rfl
        · rintro ⟨⟩
          exact hk rfl
    empty := by
      intro key' hk'
      by_cases hk : key' = key
      · subst hk
        have := (h.chain hc).1
        rw [Layout.lookup] at hk' this
        rw [show SortedAssoc.lookup key' L.root.toList = none from hk'] at this
        cases this
      · simp only [Layout.setVersions, Function.update_of_ne hk]
        exact h.empty hk'
    nodup := by
      intro key'
      by_cases hk : key' = key
      · subst hk
        simp only [Layout.setVersions, Function.update_self]
        exact hnd
      · simp only [Layout.setVersions, Function.update_of_ne hk]
        exact h.nodup key'
    overflow := by
      intro key' p hp
      by_cases hk : key' = key
      · subst hk
        simp only [Layout.setVersions, Function.update_self] at hp
        obtain ⟨h1, h2⟩ := hvs p hp
        simp only [Layout.setVersions, Layout.drop]
        rw [if_neg h2, h1]
      · simp only [Layout.setVersions, Function.update_of_ne hk] at hp
        have hp' := h.overflow p hp
        refine hown p _ hp' ?_
        rintro ⟨⟩
        exact hk rfl
    quiet := by
      intro p h0 hno
      by_cases hm : p ∈ l
      · rw [hcount p hm]
        exact .inr (h.flat (hl p hm))
      · have hpc : p ≠ cid := by
          rintro rfl
          exact hno key (hown _ _ hc (by simp))
        rw [hframe p hpc hm]
        exact h.quiet p h0 fun key' hk => hno key' (hown _ _ hk (by simp))
    flat := by
      intro p key' hp
      obtain ⟨hp, hm⟩ := hown' _ _ hp
      have hpc : p ≠ cid := by
        rintro rfl
        rw [hc] at hp
        cases hp
      rw [hframe p hpc hm]
      exact h.flat hp }

/-- A version is appended to the chain page of its key. -/
theorem append (h : PagesInv ps pool btreeRoot L) (hn : pool.nextPage ≤ 2147483648) {key : Bytes}
    (hc : L.own cid = some (.chain key)) (hv : VersionAt ps pool.pages v recData)
    (hi : pageInsert (pool.pages cid) recData = some (i, buf)) (hnd : v.pages.Nodup)
    (hown : ∀ p ∈ v.pages, L.own p = some (.overflow key))
    (hnew : ∀ p ∈ v.pages, p ∉ overflowPages (L.versions key)) :
    PagesInv ps ((pool.setPage cid buf).markDirty cid) btreeRoot
      (L.setVersions key (L.versions key ++ [v])) := by
  have hmem (p : Int) (hp : p ∈ overflowPages (L.versions key ++ [v])) :
      L.own p = some (.overflow key) := by
    rw [overflowPages, List.flatMap_append, List.mem_append] at hp
    rcases hp with hp | hp
    · exact h.overflow p hp
    · exact hown p (by simpa using hp)
  have hchain : ChainAt ps (Function.update pool.pages cid buf) cid (L.versions key ++ [v]) := by
    refine (h.chain hc).2.insert hv hi fun p hp => ?_
    rintro rfl
    have := hmem p hp
    rw [hc] at this
    cases this
  have hdrop : L.drop [] = L := by simp [Layout.drop]
  rw [← hdrop]
  exact h.replace hn hc (by simp)
    (by simpa using (h.owns.setPage (Layout.mem_used hc)).markDirty) rfl
    (fun p hp _ => Pool.setPage_pages_of_ne hp) (by simp) hchain (by
      rw [overflowPages, List.flatMap_append, List.nodup_append]
      refine ⟨h.nodup key, by simpa using hnd, fun p hp q hq => ?_⟩
      rintro rfl
      exact hnew p (by simpa using hq) hp) fun p hp => ⟨hmem p hp, by simp⟩

/-- The chain page of a key is pruned. -/
theorem prune (h : PagesInv ps pool btreeRoot L) (hn : pool.nextPage ≤ 2147483648) {key : Bytes}
    (hc : L.own cid = some (.chain key)) (active : List Int) :
    ∃ pool' buf, chainPagePrune pool (pool.pages cid) ps active = some (pool', buf) ∧
      pool'.nextPage = pool.nextPage ∧ pool'.env = pool.env ∧
      (∀ p k, L.own p = some (.chain k) →
        p ∉ overflowPages (droppedVersions active (L.versions key)) ∧
          (p ≠ cid → pool'.pages p = pool.pages p)) ∧
      (∀ p ∈ L.foot.pages, ((pool'.setPage cid buf).markDirty cid).pages p = pool.pages p) ∧
      LogKept pool ((pool'.setPage cid buf).markDirty cid) L
        ((L.drop (overflowPages (droppedVersions active (L.versions key)))).setVersions key
          (keptVersions active (L.versions key))) ∧
      (Flushed pool L → Flushed ((pool'.setPage cid buf).markDirty cid)
        ((L.drop (overflowPages (droppedVersions active (L.versions key)))).setVersions key
          (keptVersions active (L.versions key)))) ∧
      PagesInv ps ((pool'.setPage cid buf).markDirty cid) btreeRoot
        ((L.drop (overflowPages (droppedVersions active (L.versions key)))).setVersions key
          (keptVersions active (L.versions key))) := by
  have hsub : ∀ p ∈ overflowPages (L.versions key), p ∈ L.used := fun p hp =>
    Layout.mem_used (h.overflow p hp)
  have hcid : cid ∉ overflowPages (L.versions key) := fun hp => h.ne_overflow hc hp rfl
  obtain ⟨pool', buf, heq, hfree, hchain⟩ := (h.chain hc).2.prune h.owns
    (h.nodup key) hsub hcid hn active
  have hdrop : ∀ p ∈ overflowPages (droppedVersions active (L.versions key)),
      L.own p = some (.overflow key) := by
    intro p hp
    obtain ⟨v, hv, hpv⟩ := mem_overflowPages.mp hp
    have hv' := List.dropLast_subset _ (List.mem_filter.mp hv).1
    exact h.overflow p (mem_overflowPages.mpr ⟨v, hv', hpv⟩)
  have hkept : ∀ p ∈ overflowPages (keptVersions active (L.versions key)),
      p ∈ overflowPages (L.versions key) := by
    intro p hp
    obtain ⟨v, hv, hpv⟩ := mem_overflowPages.mp hp
    exact mem_overflowPages.mpr ⟨v, (keptVersions_sublist _ _).subset hv, hpv⟩
  have hcd : cid ∉ overflowPages (droppedVersions active (L.versions key)) := by
    intro hm
    have := hdrop cid hm
    rw [hc] at this
    cases this
  have hcu : cid ∈ L.used \ {p | p ∈ overflowPages (droppedVersions active (L.versions key))} :=
    ⟨Layout.mem_used hc, hcd⟩
  have hpages (p : Int) (hp : p ≠ cid) :
      ((pool'.setPage cid buf).markDirty cid).pages p = pool'.pages p :=
    Pool.setPage_pages_of_ne hp
  -- What is neither a chain page nor an overflow page is neither changed nor freed.
  have hrest {p : Int} {o : Owner} (ho : L.own p = some o) (hno : ∀ k, o ≠ .chain k ∧ o ≠ .overflow k) :
      p ∉ overflowPages (droppedVersions active (L.versions key)) ∧
        ((pool'.setPage cid buf).markDirty cid).pages p = pool.pages p := by
    have hpc : p ≠ cid := by
      rintro rfl
      rw [hc] at ho
      exact (hno key).1 (Option.some.inj ho).symm
    have hpd : p ∉ overflowPages (droppedVersions active (L.versions key)) := by
      intro hm
      rw [hdrop p hm] at ho
      exact (hno key).2 (Option.some.inj ho).symm
    exact ⟨hpd, (hpages p hpc).trans (hfree.frame p hpd)⟩
  have hchains {p : Int} {k : Bytes} (ho : L.own p = some (.chain k)) :
      p ∉ overflowPages (droppedVersions active (L.versions key)) := by
    intro hm
    rw [hdrop p hm] at ho
    cases ho
  refine ⟨pool', buf, heq, hfree.nextPage, hfree.env,
    fun p k ho => ⟨hchains ho, fun _ => hfree.frame p (hchains ho)⟩, fun p hp => ?_, fun p hp => ?_,
    fun hf => hf.of_marks ((marks_chainPagePrune Set.univ heq).change cid buf) (fun c k hoc => ?_)
      fun p k hp => .inr ?_,
    h.replace hn hc hdrop (hfree.owns.setPage hcu).markDirty
    hfree.pageSize (fun p hp hm => (hpages p hp).trans (hfree.frame p hm)) (fun p hp => ?_) hchain
    ((h.nodup key).sublist ((keptVersions_sublist _ _).flatMap _)) fun p hp => ?_⟩
  · exact (hrest (h.treeOwn p hp) (by simp)).2
  · obtain ⟨hpd, e⟩ := hrest hp (by simp)
    exact ⟨(if_neg hpd).trans hp, e⟩
  · simp only [Layout.setVersions, Layout.drop] at hoc
    split at hoc
    · cases hoc
    · exact .inr ⟨hoc, Set.mem_univ c⟩
  · have hold : p ∈ overflowPages (L.versions k) ∧
        p ∉ overflowPages (droppedVersions active (L.versions key)) := by
      by_cases hk : k = key
      · subst hk
        simp only [Layout.setVersions, Function.update_self] at hp
        exact ⟨hkept p hp, fun hd => disjoint_dropped (h.nodup k) hd hp⟩
      · simp only [Layout.setVersions, Function.update_of_ne hk] at hp
        refine ⟨hp, fun hd => ?_⟩
        have ho := hdrop p hd
        rw [h.overflow p hp] at ho
        cases ho
        exact hk rfl
    exact ⟨hold.1, Set.mem_univ p, (hpages p (h.ne_overflow hc hold.1)).trans
      (hfree.frame p hold.2)⟩
  · rw [hpages p (by rintro rfl; exact hcd hp)]
    exact hfree.count p
  · exact ⟨h.overflow p (hkept p hp), fun hd => disjoint_dropped (h.nodup key) hd hp⟩

/-- A new key gets a chain page and an entry in the tree. -/
theorem newChain (h : PagesInv ps pool btreeRoot L) (hids : pool.nextPage + 65 ≤ pageIdLimit)
    (hpos : 0 < key.length) (hlen : key.length ≤ 255) (hnew : L.lookup key = none) :
    ∃ cid pool₁ pool₂ root' f, pool.allocate = (cid, pool₁) ∧ 0 ≤ cid ∧ pool₁.Serves ∧
      btreeInsert ((pool₁.setPage cid (chainPageInit (pool₁.pages cid) ps)).markDirty cid) btreeRoot
        key (encodeDescriptor cid false) = some (true, pool₂, root') ∧
      PagesInv ps pool₂ root' (L.addKey key cid f) ∧ pool.nextPage ≤ pool₂.nextPage ∧
      pool₂.nextPage ≤ pool.nextPage + 65 ∧ cid ∉ L.used ∧
      (∀ p ∈ f.pages, p ∈ L.foot.pages ∨ p ∉ L.used) ∧
      LeafStep key (encodeDescriptor cid false) (nodeAt ps pool.pages) (nodeAt ps pool₂.pages)
        L.foot.links f.links ∧ VersionsKept pool pool₂ L (L.addKey key cid f) := by
  obtain ⟨cid, pool₁, ha, h0, hcid, hlt, ho₁, hs₁, he₁, hn₁, hn₁', hpg₁⟩ := h.owns.allocate
  have hcu : cid ∈ insert cid L.used := Set.mem_insert ..
  have ho₂ : ((pool₁.setPage cid (chainPageInit (pool₁.pages cid) ps)).markDirty cid).Owns
      (insert cid L.used) := (ho₁.setPage hcu).markDirty
  generalize hp₂ : (pool₁.setPage cid (chainPageInit (pool₁.pages cid) ps)).markDirty cid = pool₂
    at ho₂
  have hsize₂ : pool₂.pageSize = ps := by
    rw [← hp₂, Pool.markDirty_pageSize, Pool.setPage_pageSize, hs₁, h.pageSize]
  have hmarks₂ : Marks Set.univ pool pool₂ := by
    have hm := marks_newPage h.serves h.owns.next_nonneg Set.univ (chainPageInit (pool₁.pages cid) ps)
    rw [ha] at hm
    exact hp₂ ▸ hm
  have hnext₂ : pool₂.nextPage = pool₁.nextPage := by rw [← hp₂]; rfl
  have hpage₂ (p : Int) (hp : p ≠ cid) : pool₂.pages p = pool.pages p := by
    rw [← hp₂, Pool.markDirty_pages, Pool.setPage_pages_of_ne hp, hpg₁, Function.update_of_ne hp]
  have hold (p : Int) (hp : p ∈ L.used) : p ≠ cid := fun e => hcid (e ▸ hp)
  have htree₂ : TreeAt 14 ps pool₂ (insert cid L.used) btreeRoot L.root L.foot :=
    h.tree.congr ⟨hsize₂, h.live.fits, ho₂⟩ (fun p hp => Set.mem_insert_of_mem _ (h.tree.sub p hp))
      fun p hp => hpage₂ p (hold p (h.tree.sub p hp))
  obtain ⟨pool₃, root', used', f, hins, htree₃, hg, hf, hls⟩ := btreeInsert_tree htree₂ hlen
    (encodeDescriptor_length_le cid false) (by rw [Pool.HasIds, hnext₂]; omega)
  have hmarks₃ : Marks Set.univ pool₂ pool₃ :=
    marks_btreeInsert ho₂.serves ho₂.next_nonneg Set.univ hins
  have hmarks := hmarks₂.trans hmarks₃
  have hty := retyped_btreeInsert (by
    have := h.sized
    rw [Pool.Sized, h.pageSize] at this
    rw [Pool.Sized, hsize₂]
    exact this) hins
  obtain ⟨hwf, hlist⟩ := h.tree.wf.insert (show 0 < 2 by decide) (show 2 ≤ maxKeysPerNode by decide)
    (show 2 ≤ maxKeysPerNode by decide) key (encodeDescriptor cid false)
  have hfc : cid ∉ f.pages := fun hm => (hf cid hm).elim
    (fun hm => hcid (h.tree.sub cid hm)) fun hm => hm hcu
  have hff (p : Int) (hp : p ∈ f.pages) : p ∈ L.foot.pages ∨ p ∉ L.used :=
    (hf p hp).imp_right fun hn hu => hn (Set.mem_insert_of_mem _ hu)
  have hown (p : Int) (o : Owner) (hp : L.own p = some o) :
      (L.addKey key cid f).own p = some o := by
    simp only [Layout.addKey]
    rw [if_neg (hold p (Layout.mem_used hp))]
    split
    · next hm =>
      have := (hff p hm).resolve_right fun hn => hn (Layout.mem_used hp)
      rw [← hp, h.treeOwn p this]
    · exact hp
  have hpage₃ (p : Int) (o : Owner) (hp : L.own p = some o) (hne : o ≠ .tree) :
      pool₃.pages p = pool.pages p := by
    rw [hg.frame p (Set.mem_insert_of_mem _ (Layout.mem_used hp)) ?_,
      hpage₂ p (hold p (Layout.mem_used hp))]
    intro hm
    rw [h.treeOwn p hm] at hp
    exact hne (Option.some.inj hp).symm
  have hlookup (k : Bytes) : (L.addKey key cid f).lookup k =
      if k = key then some (encodeDescriptor cid false) else L.lookup k := by
    show SortedAssoc.lookup k (L.root.insert 2 maxKeysPerNode key _).toList = _
    rw [hlist, SortedAssoc.lookup_insert]
    rfl
  have hused : (L.addKey key cid f).used ⊆ used' := by
    intro p hp
    simp only [Layout.used, Layout.addKey, Set.mem_ofPred_eq] at hp
    split at hp
    · next hpc => exact hg.sub (hpc ▸ hcu)
    split at hp
    · next hm => exact htree₃.sub p hm
    · exact hg.sub (Set.mem_insert_of_mem _ hp)
  refine ⟨cid, pool₁, pool₃, root', f, ha, h0, ho₁.serves, hp₂ ▸ hins, ?_, ?_, ?_, hcid, hff,
    hls.congr_before fun r hr => ?_, fun p hp => ⟨hown p _ hp, hpage₃ p _ hp (by simp)⟩,
    fun hp => ⟨hown _ _ hp, hpage₃ _ _ hp (by simp)⟩, fun k => List.prefix_refl _,
    fun hf => hf.of_marks hmarks (fun c k hc => ?_) fun p k hp => .inr
      ⟨hp, Set.mem_univ p, hpage₃ p _ (h.overflow p hp) (by simp)⟩⟩
  · exact {
      size := h.size
      tree := { htree₃ with
        live := ⟨htree₃.live.size, htree₃.live.fits, htree₃.live.owns.mono hused⟩
        sub := fun p hp => Layout.mem_used (Layout.own_addKey_foot hfc hp) }
      header := hown _ _ h.header
      treeOwn := fun p hp => Layout.own_addKey_foot hfc hp
      keyLen := by
        intro e he
        have he : e ∈ (L.root.insert 2 maxKeysPerNode key (encodeDescriptor cid false)).toList := he
        rw [hlist] at he
        rcases SortedAssoc.mem_insert he with rfl | he
        · exact ⟨hpos, hlen⟩
        · exact h.keyLen e he
      entry := by
        intro k v hv
        rw [hlookup] at hv
        split at hv
        · next hk =>
          cases hv
          exact ⟨cid, rfl, hk ▸ L.own_addKey_self key cid f⟩
        · obtain ⟨c, hd, hc⟩ := h.entry hv
          exact ⟨c, hd, hown _ _ hc⟩
      chain := by
        intro k c hc
        rw [hlookup]
        rcases Layout.own_of_addKey hc (by simp) with ⟨rfl, hk⟩ | hc
        · cases hk
          refine ⟨if_pos rfl, ?_⟩
          show ChainAt ps pool₃.pages c (L.versions key)
          rw [h.empty hnew]
          have hs := h.sized
          rw [Pool.Sized, h.pageSize] at hs
          refine chainAt_init (pool₁.pages c) hs.1 hs.2 ?_
          rw [hg.frame c hcu fun hm => hcid (h.tree.sub c hm), ← hp₂, Pool.markDirty_pages,
            Pool.setPage_pages_self]
        · obtain ⟨h1, h2⟩ := h.chain hc
          refine ⟨?_, h2.congr (hpage₃ _ _ hc (by simp)) fun p hp =>
            hpage₃ p _ (h.overflow p hp) (by simp)⟩
          rw [if_neg, h1]
          rintro rfl
          rw [hnew] at h1
          cases h1
      empty := by
        intro k hk
        rw [hlookup] at hk
        split at hk
        · cases hk
        · exact h.empty hk
      nodup := h.nodup
      overflow := fun p hp => hown _ _ (h.overflow p hp)
      quiet := by
        intro p hp0 hno
        have hpc : p ≠ cid := by
          rintro rfl
          exact hno key (L.own_addKey_self ..)
        rcases hty.pages p with e | e
        · rw [e, hpage₂ p hpc]
          exact h.quiet p hp0 fun k hk => hno k (hown _ _ hk)
        · exact .inl e
      flat := by
        intro p k hp
        have hp' : L.own p = some (.overflow k) :=
          (Layout.own_of_addKey hp (by simp)).resolve_left (by simp)
        rw [hpage₃ p _ hp' (by simp)]
        exact h.flat hp' }
  · have := hg.next_le
    omega
  · have := hg.le_next
    push_cast at this
    omega
  · have hrp := h.tree.sub _ (h.tree.repr.links_sub hr)
    rw [nodeAt, nodeAt, hpage₂ r.1 (hold r.1 hrp)]
  · rcases Layout.own_of_addKey hc (by simp) with ⟨rfl, -⟩ | hc
    · exact .inl (hmarks₃.dirty c (Set.mem_univ c) (hp₂ ▸ List.mem_cons_self))
    · exact .inr ⟨hc, Set.mem_univ c⟩

end PagesInv

/-! ## What stays -/

theorem nextPage_foldl_flushPage (pids : List Int) (pool : Pool) :
    (pids.foldl Pool.flushPage pool).nextPage = pool.nextPage := by
  induction pids generalizing pool with
  | nil => rfl
  | cons p pids ih =>
    rw [List.foldl_cons, ih, Pool.flushPage_nextPage]

theorem nextPage_le_allocate (pool : Pool) : pool.nextPage ≤ pool.allocate.2.nextPage := by
  rw [Pool.allocate]
  split
  · simp only
    split <;> exact le_rfl
  split
  · exact le_rfl
  split
  · exact le_rfl
  · show pool.nextPage ≤ pool.nextPage + 1
    omega

theorem nextPage_linkOverflow (pool : Pool) (prev p : Int) :
    (linkOverflow pool prev p).nextPage = pool.nextPage := by
  rw [linkOverflow]
  split
  · rfl
  split
  · rfl
  · rw [Pool.flushPage_nextPage]
    rfl

theorem nextPage_le_overflowWriteLoop (fuel : Nat) (pool : Pool) (head prev : Int)
    (value : Bytes) :
    pool.nextPage ≤ (overflowWriteLoop fuel pool head prev value).2.nextPage := by
  induction fuel generalizing pool head prev value with
  | zero =>
    rw [overflowWriteLoop, Pool.flushPage_nextPage]
  | succ fuel ih =>
    rw [overflowWriteLoop]
    split
    · rw [Pool.flushPage_nextPage]
    · have ha := nextPage_le_allocate pool
      generalize pool.allocate = made at ha
      obtain ⟨p, pool₁⟩ := made
      simp only at ha ⊢
      split
      · exact ha
      split
      · rw [Pool.freePage_nextPage]
        exact ha
      · refine le_trans ?_ (ih ..)
        rw [Pool.markDirty_nextPage, Pool.setPage_nextPage, nextPage_linkOverflow]
        exact ha

/-- A step that leaves the tree as it is; what changes besides is no chain page of another key. -/
structure Stays (pool pool' : Pool) (L L' : Layout) : Prop where
  next : pool.nextPage ≤ pool'.nextPage
  root : L'.root = L.root
  foot : L'.foot = L.foot
  pages : ∀ p ∈ L.foot.pages, pool'.pages p = pool.pages p
  chain : ∀ {cid key}, L.own cid = some (.chain key) → L'.own cid = some (.chain key)
  versions : VersionsKept pool pool' L L'

namespace Stays

variable {pool'' : Pool} {L L' L'' : Layout}

theorem refl : Stays pool pool L L := ⟨le_rfl, rfl, rfl, fun _ _ => rfl, id, .refl⟩

theorem trans (h : Stays pool pool' L L') (h' : Stays pool' pool'' L' L'') :
    Stays pool pool'' L L'' where
  next := h.next.trans h'.next
  root := h'.root.trans h.root
  foot := h'.foot.trans h.foot
  pages p hp := (h'.pages p (h.foot ▸ hp)).trans (h.pages p hp)
  chain hc := h'.chain (h.chain hc)
  versions := h.versions.trans h'.versions

theorem lookup (h : Stays pool pool' L L') (key : Bytes) : L'.lookup key = L.lookup key := by
  rw [Layout.lookup, h.root, Layout.lookup]

end Stays

/-- New pages with a long value. -/
theorem PagesInv.overflowWrite_stays {L : Layout} {o : Owner} {value : Bytes} {l : List Int}
    (h : PagesInv ps pool btreeRoot L) (hno : ∀ key, o ≠ .chain key) (hw : OverflowWritten ps L.used pool pool' (-1) value l) :
    Stays pool pool' L (L.take l o) where
  next := hw.nextPage
  root := rfl
  foot := rfl
  pages p hp := by
    have hu := h.tree.sub p hp
    refine hw.frame p (fun hm => hw.fresh p hm hu) ?_
    have := (h.owns.range p hu).1
    omega
  chain hc := Layout.own_take hw.fresh hc
  versions := {
    log := fun p hp => ⟨Layout.own_take hw.fresh hp, hw.kept (Layout.mem_used hp) (h.range hp).1⟩
    overflow := fun hp => ⟨Layout.own_take hw.fresh hp, hw.kept (Layout.mem_used hp) (h.range hp).1⟩
    versions := fun key => List.prefix_refl _
    flushed := by
      have hin {p : Int} {o' : Owner} (hp : L.own p = some o') : p ∈ L.used \ {-1} := by
        refine ⟨Layout.mem_used hp, ?_⟩
        rintro rfl
        exact absurd (h.range hp).1 (by decide)
      refine fun hf => hf.of_marks hw.marks (fun cid key hc => .inr ?_) fun p key hp => .inr ?_
      · have hc' : L.own cid = some (.chain key) := by
          simp only [Layout.take] at hc
          split at hc
          · exact absurd (Option.some.inj hc) (hno key)
          · exact hc
        exact ⟨hc', hin hc'⟩
      · have ho := h.overflow p hp
        exact ⟨hp, hin ho, hw.kept (Layout.mem_used ho) (h.range ho).1⟩ }

/-- A change of the chain page of a key. -/
theorem PagesInv.chain_stays {L L' : Layout} {key : Bytes} (h : PagesInv ps pool btreeRoot L)
    (hc : L.own cid = some (.chain key)) (hn : pool.nextPage ≤ pool'.nextPage)
    (hroot : L'.root = L.root) (hfoot : L'.foot = L.foot) (hown : L'.own = L.own)
    (hvs : ∀ k, L.versions k <+: L'.versions k)
    (hframe : ∀ p, p ≠ cid → pool'.pages p = pool.pages p)
    (hflushed : Flushed pool L → Flushed pool' L') : Stays pool pool' L L' := by
  have hrest {p : Int} {o : Owner} (ho : L.own p = some o) (hno : ∀ k, o ≠ .chain k) :
      pool'.pages p = pool.pages p := by
    apply hframe
    rintro rfl
    rw [hc] at ho
    exact hno key (Option.some.inj ho).symm
  exact {
    next := hn
    root := hroot
    foot := hfoot
    pages := fun p hp => hrest (h.treeOwn p hp) (by simp)
    chain := fun ho => hown ▸ ho
    versions := ⟨fun p hp => ⟨hown ▸ hp, hrest hp (by simp)⟩,
      fun hp => ⟨hown ▸ hp, hrest hp (by simp)⟩, hvs, hflushed⟩ }

end Garry
