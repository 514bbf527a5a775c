import Garry.Library.MvccRun
import Garry.Verify.EngineRun
import Garry.Verify.StorePages

/-!
# The engine as a multi-version store

Every call of the engine is a step of a multi-version store whose items are the keys: a
transaction locks the key it writes, its chain page holds the versions, and the list of
transactions is the snapshot of every reader.
-/

namespace Garry

open ByteStore

/-! ## Locks -/

theorem find?_filter_of_nodup {α β : Type} [DecidableEq β] {f : α → β} (p : α → Bool) {l : List α}
    (h : (l.map f).Nodup) (b : β) :
    (l.filter p).find? (fun a => f a = b) = (l.find? fun a => f a = b).filter p := by
  induction l with
  | nil => rfl
  | cons a l ih =>
    rw [List.map_cons, List.nodup_cons] at h
    rw [List.filter_cons, List.find?_cons]
    by_cases ha : f a = b
    · have hnone : (l.filter p).find? (fun a => f a = b) = none := by
        rw [List.find?_eq_none]
        intro x hx
        have hxa : f x ≠ f a := fun e => h.1 (e ▸ List.mem_map_of_mem (List.mem_filter.mp hx).1)
        rw [ha] at hxa
        simpa using hxa
      cases hp : p a with
      | true => simp [ha, hp, Option.filter]
      | false => simp [ha, hp, hnone, Option.filter]
    · cases hp : p a with
      | true => simp [ha, ih h.2]
      | false => simp [ha, ih h.2]

/-- The transaction that holds the lock of a key. -/
def lockHolder (mgr : List LockNode) (key : Bytes) : Option Int :=
  (mgr.find? fun p => p.key = key).map LockNode.txn

/-- Every key has one lock at most, an exclusive one. -/
structure Exclusive (mgr : List LockNode) : Prop where
  keys : (mgr.map LockNode.key).Nodup
  modes : ∀ p ∈ mgr, p.mode = .exclusive

theorem Exclusive.holder {mgr : List LockNode} (h : Exclusive mgr) (hp : p ∈ mgr) :
    lockHolder mgr p.key = some p.txn := by
  obtain ⟨hk, -⟩ := h
  induction mgr with
  | nil => cases hp
  | cons q mgr ih =>
    rw [List.map_cons, List.nodup_cons] at hk
    rw [lockHolder, List.find?_cons]
    rcases List.mem_cons.mp hp with rfl | hp
    · simp
    · have hq : q.key ≠ p.key := fun e => hk.1 (e ▸ List.mem_map_of_mem hp)
      simp only [hq, decide_false]
      exact ih hp hk.2

theorem Exclusive.release {mgr : List LockNode} (h : Exclusive mgr) (txn : Int) :
    Exclusive (lockRelease mgr txn) :=
  ⟨h.keys.sublist (List.filter_sublist.map _), fun p hp => h.modes p (List.mem_filter.mp hp).1⟩

theorem Exclusive.holder_release {mgr : List LockNode} (h : Exclusive mgr) (txn : Int)
    (key : Bytes) : lockHolder (lockRelease mgr txn) key =
      if lockHolder mgr key = some txn then none else lockHolder mgr key := by
  rw [lockHolder, lockRelease, find?_filter_of_nodup _ h.keys, lockHolder]
  cases mgr.find? fun p => p.key = key with
  | none => rfl
  | some p => by_cases hp : p.txn = txn <;> simp [Option.filter, hp]

theorem lockRelease_release (mgr : List LockNode) (txn : Int) :
    lockRelease (lockRelease mgr txn) txn = lockRelease mgr txn := by
  rw [lockRelease, lockRelease, List.filter_filter]
  simp

/-- A lock is granted when no other transaction holds the key, which is locked then. -/
theorem Exclusive.acquire {mgr mgr' : List LockNode} (h : Exclusive mgr)
    (ha : lockAcquire mgr txn key .exclusive = some mgr') :
    (lockHolder mgr key = none ∨ lockHolder mgr key = some txn) ∧ Exclusive mgr' ∧
      ∀ k, lockHolder mgr' k = if k = key then some txn else lockHolder mgr k := by
  rw [lockAcquire] at ha
  split at ha
  · next hheld =>
    cases ha
    obtain ⟨p, hp, hpt⟩ := List.any_eq_true.mp hheld
    obtain ⟨rfl, rfl⟩ := of_decide_eq_true hpt
    have hh := h.holder hp
    refine ⟨.inr hh, h, fun k => ?_⟩
    split
    · next hk => rw [hk, hh]
    · rfl
  · next hheld =>
    split at ha
    · cases ha
    · next hno =>
      split at ha
      · cases ha
      · cases ha
        have hnone : ∀ p ∈ mgr, p.key ≠ key := by
          rintro p hp rfl
          by_cases ht : p.txn = txn
          · exact hheld (List.any_eq_true.mpr ⟨p, hp, decide_eq_true ⟨ht, rfl⟩⟩)
          · exact hno (List.any_eq_true.mpr
              ⟨p, hp, decide_eq_true ⟨rfl, ht, .inr rfl⟩⟩)
        refine ⟨.inl ?_, ⟨?_, ?_⟩, fun k => ?_⟩
        · rw [lockHolder, Option.map_eq_none_iff, List.find?_eq_none]
          intro p hp
          simpa using hnone p hp
        · rw [List.map_cons, List.nodup_cons]
          refine ⟨fun hm => ?_, h.keys⟩
          obtain ⟨p, hp, hk⟩ := List.mem_map.mp hm
          exact hnone p hp hk
        · intro p hp
          rcases List.mem_cons.mp hp with rfl | hp
          · rfl
          · exact h.modes p hp
        · rw [lockHolder, List.find?_cons]
          by_cases hk : key = k
          · simp [hk]
          · have hk' : ¬ k = key := fun e => hk e.symm
            simp [hk, hk', lockHolder]

/-! ## The store -/

/-- What the store sees of an entry of the table of transactions. -/
def TxnInfo.mark (info : TxnInfo) : Int × Bool := (info.txid, decide (info.state = .rolledBack))

theorem map_updateTxn {β : Type} {g : TxnInfo → β} {f : TxnInfo → TxnInfo}
    (hf : ∀ info, g (f info) = g info) (txns : List TxnInfo) :
    (updateTxn f txn txns).map g = txns.map g := by
  induction txns with
  | nil => rfl
  | cons info txns ih =>
    rw [updateTxn]
    split
    · rw [List.map_cons, hf, List.map_cons]
    · rw [List.map_cons, ih, List.map_cons]

theorem mem_updateTxn {f : TxnInfo → TxnInfo} {txns : List TxnInfo}
    (h : info ∈ updateTxn f txn txns) : ∃ info' ∈ txns, info = info' ∨ info = f info' := by
  induction txns with
  | nil => cases h
  | cons info' txns ih =>
    rw [updateTxn] at h
    split at h
    · rcases List.mem_cons.mp h with rfl | h
      · exact ⟨info', by simp, .inr rfl⟩
      · exact ⟨info, by simp [h], .inl rfl⟩
    · rcases List.mem_cons.mp h with rfl | h
      · exact ⟨info, by simp, .inl rfl⟩
      · obtain ⟨x, hx, hxi⟩ := ih h
        exact ⟨x, by simp [hx], hxi⟩

namespace Engine

variable {lz4 : Lz4} {ps : Nat} {eng eng' : Engine} {L L' : Layout}

/-- The engine as a multi-version store. -/
def store (eng : Engine) (L : Layout) : Mvcc.State Bytes Bytes Bytes where
  next := eng.nextTxid
  txns := eng.txns.map TxnInfo.mark
  holder := lockHolder eng.lockMgr
  chain key := chainOf (L.versions key)

@[simp] theorem active_store : (eng.store L).active = eng.activeTxns := by
  simp [Mvcc.State.active, store, activeTxns, TxnInfo.mark]

/-- What `garry_storage_set` stores for a value. -/
def stored (lz4 : Lz4) (eng : Engine) (value : Bytes) : Option Bytes :=
  if eng.compression = compressLz4 then lz4.compress value else some value

/-- What `garry_storage_get` makes of stored bytes. -/
def shown (lz4 : Lz4) (eng : Engine) (val : Bytes) : Option Bytes :=
  if eng.compression = compressLz4 then
    (lz4.decompress val).filter fun val => val.length ≤ maxRecordSize
  else some val

theorem stored_of_raw (h : eng.compression ≠ compressLz4) (lz4 : Lz4) : eng.stored lz4 = some :=
  funext fun _ => if_neg h

theorem shown_of_raw (h : eng.compression ≠ compressLz4) (lz4 : Lz4) : eng.shown lz4 = some :=
  funext fun _ => if_neg h

/-- There are page ids left for one more key. -/
def HasIds (eng : Engine) : Prop := eng.pool.nextPage + 65 ≤ pageIdLimit

/-- The pages, the locks and the table of transactions of an engine. -/
structure Sound (ps : Nat) (eng : Engine) (L : Layout) : Prop where
  pages : PagesInv ps eng.pool eng.btreeRoot L
  pageSize : eng.pageSize = ps
  locks : Exclusive eng.lockMgr
  fits : ∀ info ∈ eng.txns, Fits32 info.txid
  ids : eng.HasIds

/-- The engine between two calls. -/
structure Inv (ps : Nat) (eng : Engine) (L : Layout) : Prop extends Sound ps eng L where
  mvcc : Mvcc.Inv id (eng.store L)

theorem Sound.next_le (h : Sound ps eng L) : eng.pool.nextPage ≤ 2147483648 := by
  have := h.ids
  rw [HasIds] at this
  simp only [pageIdLimit, pageIdBias] at this
  omega

/-- A step of the store. -/
theorem Inv.step (h : Inv ps eng L) {e : Mvcc.Event Bytes Bytes Bytes} (hs : Sound ps eng' L')
    (hstep : Mvcc.Step id (eng.store L) e (eng'.store L')) : Inv ps eng' L' :=
  ⟨hs, hstep.inv h.mvcc⟩

theorem mem_of_findTxn (h : eng.findTxn txn = some info) : info ∈ eng.txns ∧ info.txid = txn :=
  ⟨List.mem_of_find?_eq_some h, by simpa using List.find?_some h⟩

/-- `garry_txn_is_active`. -/
theorem Inv.live_iff (h : Inv ps eng L) : eng.txnIsActive txn = true ↔ (eng.store L).Live txn := by
  have hnd : (eng.txns.map TxnInfo.txid).Nodup := by
    have := h.mvcc.nodup
    rwa [active_store] at this
  rw [txnIsActive, findTxn, Mvcc.State.Live, store]
  generalize eng.txns = txns at hnd
  induction txns with
  | nil => simp
  | cons info txns ih =>
    rw [List.map_cons, List.nodup_cons] at hnd
    rw [List.find?_cons]
    by_cases ht : info.txid = txn
    · have hno : (txn, false) ∉ txns.map TxnInfo.mark := by
        intro hm
        obtain ⟨x, hx, hxe⟩ := List.mem_map.mp hm
        exact hnd.1 (ht ▸ (Prod.mk.inj hxe).1 ▸ List.mem_map_of_mem hx)
      simp only [List.map_cons, List.mem_cons, hno, or_false]
      simp [ht, TxnInfo.mark]
    · have hne : (txn, false) ≠ info.mark := fun e => ht (Prod.mk.inj e).1.symm
      simp only [List.map_cons, List.mem_cons, hne, false_or]
      simp only [ht, decide_false]
      exact ih hnd.2

/-! ## Reads -/

/-- `garry_mvcc_get` of the chain page of a key is a read of the store. -/
theorem Sound.mvccGet (h : Sound ps eng L) {key : Bytes} (hc : L.own cid = some (.chain key))
    (txn : Int) : eng.mvccGet txn cid = (eng.store L).read txn key := by
  have hps := h.pages.pageSize
  have hchain := (h.pages.chain hc).2
  have hroom := h.pages.chunk
  rw [← hps] at hchain hroom
  have hv := hchain.holdsVersions h.pages.serves hroom
  rw [Engine.mvccGet, Pool.pinPage_eq h.pages.serves (h.pages.range hc).1, Option.bind_some,
    h.pageSize, ← hps, hv.findVisible, Mvcc.State.read, active_store]
  rfl

theorem Sound.mvccExists (h : Sound ps eng L) {key : Bytes} (hc : L.own cid = some (.chain key))
    (txn : Int) : eng.mvccExists txn cid = ((eng.store L).read txn key).isSome := by
  have hps := h.pages.pageSize
  have hchain := (h.pages.chain hc).2
  have hroom := h.pages.chunk
  rw [← hps] at hchain hroom
  have hv := hchain.holdsVersions h.pages.serves hroom
  rw [Engine.mvccExists, Pool.pinPage_eq h.pages.serves (h.pages.range hc).1, Option.any_some,
    h.pageSize, ← hps, hv.hasVisible, Mvcc.State.read, active_store]
  rfl

/-- The descriptor of a key leads to its chain page. -/
theorem Sound.lookup (h : Sound ps eng L) {key v : Bytes} (hv : L.lookup key = some v) :
    0 ≤ decodeCidFromDescriptor v.toBuffer ∧
      L.own (decodeCidFromDescriptor v.toBuffer) = some (.chain key) := by
  obtain ⟨cid, rfl, hc⟩ := h.pages.entry hv
  have hr := h.pages.range hc
  have hn := h.next_le
  rw [decodeCidFromDescriptor_encode hr.1 (by omega)]
  exact ⟨hr.1, hc⟩

/-- `garry_storage_get` is a read of the store. -/
theorem Inv.storageGet (h : Inv ps eng L) (hlive : (eng.store L).Live txn) (hpos : 0 < key.length)
    (hlen : key.length ≤ maxKeySize) :
    eng.storageGet lz4 txn key = some (((eng.store L).read txn key).bind (eng.shown lz4)) := by
  have hact := h.live_iff.mpr hlive
  rw [Engine.storageGet, if_neg (by omega), if_neg (by rw [hact]; decide), h.pages.search]
  cases hl : L.lookup key with
  | none =>
    have hempty := h.pages.empty hl
    simp [Mvcc.State.read, store, hempty, chainOf, Mvcc.read, Mvcc.newest]
  | some v =>
    obtain ⟨h0, hc⟩ := h.toSound.lookup hl
    have hget := h.toSound.mvccGet hc txn
    simp only [Option.map_some, Option.bind_eq_bind, Option.bind_some]
    rw [if_neg (by omega), hget]
    rfl

/-! ## Writes -/

/-- Only the pages, the log and the modified pages of transactions change. -/
structure SameTable (eng eng' : Engine) : Prop where
  nextTxid : eng'.nextTxid = eng.nextTxid
  lockMgr : eng'.lockMgr = eng.lockMgr
  marks : eng'.txns.map TxnInfo.mark = eng.txns.map TxnInfo.mark

namespace SameTable

theorem refl : SameTable eng eng := ⟨rfl, rfl, rfl⟩

theorem trans {eng'' : Engine} (h : SameTable eng eng') (h' : SameTable eng' eng'') :
    SameTable eng eng'' :=
  ⟨h'.nextTxid.trans h.nextTxid, h'.lockMgr.trans h.lockMgr, h'.marks.trans h.marks⟩

theorem store_eq (h : SameTable eng eng') (hv : L'.versions = L.versions) :
    eng'.store L' = eng.store L := by
  rw [store, store, h.nextTxid, h.lockMgr, h.marks, hv]

theorem store_push (h : SameTable eng eng') {v : StoredVersion} {x : Option Bytes} {key : Bytes}
    (hv : L'.versions = Function.update L.versions key (L.versions key ++ [v]))
    (he : v.version = ⟨txn, x⟩) : eng'.store L' = (eng.store L).push txn key x := by
  simp only [store, Mvcc.State.push, h.nextTxid, h.lockMgr, h.marks, hv, Mvcc.State.mk.injEq,
    true_and]
  funext k
  by_cases hk : k = key
  · subst hk
    simp [chainOf_concat, he]
  · simp [Function.update_of_ne hk]

theorem fits (h : SameTable eng eng') (hf : ∀ info ∈ eng.txns, Fits32 info.txid) :
    ∀ info ∈ eng'.txns, Fits32 info.txid := by
  intro info hi
  have hm : info.mark ∈ eng.txns.map TxnInfo.mark := h.marks ▸ List.mem_map_of_mem hi
  obtain ⟨x, hx, hxe⟩ := List.mem_map.mp hm
  have e : x.txid = info.txid := (Prod.mk.inj hxe).1
  exact e ▸ hf x hx

end SameTable

theorem sameTable_changeChain (eng : Engine) (txn cid : Int) (buf : PageBuffer) :
    SameTable eng (eng.changeChain txn cid buf) := by
  refine ⟨rfl, rfl, ?_⟩
  rw [changeChain]
  apply map_updateTxn
  intro info
  rfl

/-- What a write to the chain page of a key does: with success the key has one version more. -/
structure Wrote (ps : Nat) (eng eng' : Engine) (L L' : Layout) (txn : Int) (key : Bytes)
    (x : Option Bytes) (ok : Bool) : Prop where
  sound : Sound ps eng' L'
  stays : Stays eng.pool eng'.pool L L'
  table : SameTable eng eng'
  root : eng'.btreeRoot = eng.btreeRoot
  store : eng'.store L' = if ok then (eng.store L).push txn key x else eng.store L

/-- A record goes to the chain page of a key. -/
theorem Sound.changeChain (h : Sound ps eng L) {key : Bytes} {v : StoredVersion}
    {x : Option Bytes} (hc : L.own cid = some (.chain key)) (he : v.version = ⟨txn, x⟩)
    (hv : VersionAt ps eng.pool.pages v recData)
    (hi : pageInsert (eng.pool.pages cid) recData = some (i, buf)) (hnd : v.pages.Nodup)
    (hown : ∀ p ∈ v.pages, L.own p = some (.overflow key))
    (hnew : ∀ p ∈ v.pages, p ∉ overflowPages (L.versions key))
    (hstored : ∀ p ∈ v.pages, PageStored eng.pool p) :
    ∃ L', Wrote ps eng (eng.changeChain txn cid buf) L L' txn key x true := by
  have hp := h.pages.append h.next_le hc hv hi hnd hown hnew
  have ht := sameTable_changeChain eng txn cid buf
  refine ⟨L.setVersions key (L.versions key ++ [v]), ⟨hp, h.pageSize, h.locks, ht.fits h.fits,
    h.ids⟩, ?_, ht, rfl, ht.store_push rfl he⟩
  have hmarks : Marks Set.univ eng.pool ((eng.pool.setPage cid buf).markDirty cid) :=
    Marks.refl.change cid buf
  have hpage {p : Int} {k : Bytes} (ho : L.own p = some (.overflow k)) :
      ((eng.pool.setPage cid buf).markDirty cid).pages p = eng.pool.pages p := by
    apply Pool.setPage_pages_of_ne
    rintro rfl
    rw [hc] at ho
    cases ho
  refine h.pages.chain_stays hc le_rfl rfl rfl rfl (fun k => ?_)
    (fun p hp => Pool.setPage_pages_of_ne hp) fun hf =>
      hf.of_marks hmarks (fun _ _ ho => .inr ⟨ho, Set.mem_univ _⟩) fun p k hp => ?_
  · by_cases hk : k = key
    · subst hk
      simp [Layout.setVersions]
    · simp [Layout.setVersions, Function.update_of_ne hk]
  · have hold (hp : p ∈ overflowPages (L.versions k)) : p ∈ overflowPages (L.versions k) ∧
        p ∈ Set.univ ∧ ((eng.pool.setPage cid buf).markDirty cid).pages p = eng.pool.pages p :=
      ⟨hp, Set.mem_univ p, hpage (h.pages.overflow p hp)⟩
    by_cases hk : k = key
    · subst hk
      simp only [Layout.setVersions, Function.update_self, overflowPages, List.flatMap_append,
        List.flatMap_singleton] at hp
      rcases List.mem_append.mp hp with hp | hp
      · exact .inr (hold hp)
      · exact .inl (hmarks.stored (Set.mem_univ p) (hpage (hown p hp)) (hstored p hp))
    · simp only [Layout.setVersions, Function.update_of_ne hk] at hp
      exact .inr (hold hp)

/-- `garry_mvcc_delete` on the chain page of a key. -/
theorem Sound.mvccDelete (h : Sound ps eng L) {key : Bytes} (hc : L.own cid = some (.chain key))
    (ht : Fits32 txn) : ∃ ok eng' L', eng.mvccDelete txn cid = (ok, eng') ∧
      Wrote ps eng eng' L L' txn key none ok ∧
      ok = pageRoom (eng.pool.pages cid) chainEntryHeaderSize := by
  obtain ⟨recs, H, -⟩ := (h.pages.chain hc).2.records
  have hroom : (pageInsert (eng.pool.pages cid) (versionHeader txn 0 0 1 0)).isSome =
      pageRoom (eng.pool.pages cid) chainEntryHeaderSize :=
    pageInsert_isSome H (by simp [versionHeader])
  rw [Engine.mvccDelete, Pool.pinPage_eq h.pages.serves (h.pages.range hc).1]
  simp only [chainPageAppendTombstone]
  cases hi : pageInsert (eng.pool.pages cid) (versionHeader txn 0 0 1 0) with
  | none =>
    rw [hi] at hroom
    exact ⟨false, eng, L, rfl, ⟨h, .refl, .refl, rfl, rfl⟩, hroom⟩
  | some r =>
    obtain ⟨i, buf⟩ := r
    obtain ⟨L', hw⟩ := h.changeChain (v := ⟨⟨txn, none⟩, []⟩) hc rfl (.tombstone txn ht) hi
      List.nodup_nil (by simp) (by simp) (by simp)
    rw [hi] at hroom
    exact ⟨true, _, L', rfl, hw, hroom⟩

/-- A value that is too long for the chain page goes to overflow pages. -/
theorem Sound.overflowWrite (h : Sound ps eng L) {o : Owner} (hno : ∀ key, o ≠ .chain key)
    (hids : ({ eng with pool := (Garry.overflowWrite eng.pool value).2 } : Engine).HasIds) :
    ∃ l pool', Garry.overflowWrite eng.pool value = (l.head?.getD (-1), pool') ∧
      OverflowWritten ps L.used eng.pool pool' (-1) value l ∧
      Sound ps { eng with pool := pool' } (L.take l o) ∧
      Stays eng.pool pool' L (L.take l o) := by
  have hn : (Garry.overflowWrite eng.pool value).2.nextPage ≤ 2147483648 := by
    have := hids
    simp only [HasIds, pageIdLimit, pageIdBias] at this
    omega
  obtain ⟨l, pool', heq, hw, hp⟩ := h.pages.overflowWrite hno hn
  rw [heq] at hids
  exact ⟨l, pool', heq, hw, ⟨hp, h.pageSize, h.locks, h.fits, hids⟩,
    h.pages.overflowWrite_stays hno hw⟩

/-- `garry_mvcc_set` on the chain page of a key. -/
theorem Sound.mvccSet (h : Sound ps eng L) {key : Bytes} (hc : L.own cid = some (.chain key))
    (ht : Fits32 txn) (hv : Fits32 value.length) (hids : (eng.mvccSet txn cid value).2.HasIds) :
    ∃ ok eng' L', eng.mvccSet txn cid value = (ok, eng') ∧
      Wrote ps eng eng' L L' txn key (some value) ok ∧
      ok = pageRoom (eng.pool.pages cid) (versionSize ps value) := by
  obtain ⟨recs, H, -⟩ := (h.pages.chain hc).2.records
  have hpin := Pool.pinPage_eq h.pages.serves (h.pages.range hc).1
  rw [Engine.mvccSet, hpin] at hids ⊢
  simp only at hids ⊢
  split at hids
  · next hlong =>
    rw [if_pos hlong]
    have hpool : ({ eng with pool := (Garry.overflowWrite eng.pool value).2 } : Engine).HasIds := by
      generalize Garry.overflowWrite eng.pool value = written at hids
      obtain ⟨head, pool⟩ := written
      simp only at hids
      split at hids
      · exact hids
      split at hids
      · exact hids
      · exact hids
    obtain ⟨l, pool', heq, hw, hs, hst⟩ := h.overflowWrite (o := .overflow key) (by simp) hpool
    have hkept : pool'.pages cid = eng.pool.pages cid :=
      hw.kept (Layout.mem_used hc) (h.pages.range hc).1
    have hne : value ≠ [] := by
      rintro rfl
      simp at hlong
    have hl : l ≠ [] := by
      rintro rfl
      exact hne hw.stored.2
    obtain ⟨p, l, rfl⟩ := List.exists_cons_of_ne_nil hl
    have hp0 : 0 ≤ p := hw.stored.2.1
    simp only [heq, List.head?_cons, Option.getD_some, if_neg (show ¬ p < 0 by omega)]
    have hc' : (L.take (p :: l) (.overflow key)).own cid = some (.chain key) := hst.chain hc
    have hr := hw.owns.range p (.inr (by simp))
    have hn : pool'.nextPage ≤ 2147483648 := hs.next_le
    have hver : VersionAt ps pool'.pages ⟨⟨txn, some value⟩, p :: l⟩
        (versionHeader txn 0 value.length 0 1 ++ word32 p) :=
      .overflow txn p value _ ht hv ⟨by omega, by omega⟩ (h.pageSize ▸ hlong) hw.stored
    have hroom : (pageInsert (pool'.pages cid)
        (versionHeader txn 0 value.length 0 1 ++ word32 p)).isSome =
        pageRoom (eng.pool.pages cid) (versionSize ps value) := by
      rw [hkept, versionSize, if_pos (h.pageSize ▸ hlong)]
      exact pageInsert_isSome H (by simp [versionHeader])
    simp only [chainPageAppendOverflow]
    cases hi : pageInsert (pool'.pages cid) (versionHeader txn 0 value.length 0 1 ++ word32 p) with
    | none =>
      rw [hi] at hroom
      refine ⟨false, _, _, rfl, ⟨hs, hst, ⟨rfl, rfl, rfl⟩, rfl, ?_⟩, hroom⟩
      exact SameTable.store_eq ⟨rfl, rfl, rfl⟩ rfl
    | some r =>
      rw [hi] at hroom
      obtain ⟨i, buf⟩ := r
      obtain ⟨L', hw'⟩ := hs.changeChain hc' rfl hver hi hw.nodup (fun q hq => if_pos hq)
        (fun q hq ho => hw.fresh q hq (Layout.mem_used (h.pages.overflow q ho))) hw.flushed
      have hpool : SameTable eng { eng with pool := pool' } := ⟨rfl, rfl, rfl⟩
      exact ⟨true, _, L', rfl, ⟨hw'.sound, hst.trans hw'.stays, hpool.trans hw'.table, hw'.root,
        hw'.store⟩, hroom⟩
  · next hshort =>
    rw [if_neg hshort]
    simp only [chainPageAppend, if_neg hshort]
    have hroom : (pageInsert (eng.pool.pages cid)
        (versionHeader txn 0 value.length 0 0 ++ value)).isSome =
        pageRoom (eng.pool.pages cid) (versionSize ps value) := by
      rw [versionSize, if_neg (h.pageSize ▸ hshort), ← length_versionHeader txn 0 value.length 0 0,
        ← List.length_append]
      exact pageInsert_isSome H (by simp [versionHeader])
    cases hi : pageInsert (eng.pool.pages cid) (versionHeader txn 0 value.length 0 0 ++ value) with
    | none =>
      rw [hi] at hroom
      exact ⟨false, eng, L, rfl, ⟨h, .refl, .refl, rfl, rfl⟩, hroom⟩
    | some r =>
      rw [hi] at hroom
      obtain ⟨i, buf⟩ := r
      obtain ⟨L', hw⟩ := h.changeChain (v := ⟨⟨txn, some value⟩, []⟩) hc rfl
        (.inline txn value ht hv (h.pageSize ▸ not_lt.mp hshort)) hi List.nodup_nil (by simp) (by simp)
        (by simp)
      exact ⟨true, _, L', rfl, hw, hroom⟩

theorem nextPage_le_mvccSet (txn cid : Int) (value : Bytes) :
    eng.pool.nextPage ≤ (eng.mvccSet txn cid value).2.pool.nextPage := by
  rw [Engine.mvccSet]
  split
  · exact le_rfl
  split
  · have hn := nextPage_le_overflowWriteLoop value.length eng.pool (-1) (-1) value
    rw [Garry.overflowWrite]
    generalize overflowWriteLoop value.length eng.pool (-1) (-1) value = written at hn
    obtain ⟨head, pool⟩ := written
    simp only at hn ⊢
    split
    · exact hn
    split
    · exact hn
    · exact hn
  · split
    · exact le_rfl
    · exact le_rfl

/-- The record of an update, whose value is in the record or on pages of the log. -/
structure UpdateLogged (ps : Nat) (pool : Pool) (L : Layout) (txn : Int) (key value : Bytes)
    (record : WalRecord) : Prop where
  kind : record.kind = .update
  txid : record.txid = txn
  key : record.key = key
  valueLen : record.valueLen = value.length
  value : (value.length ≤ byteArraySize ∧ record.newIsOverflow = false ∧ record.newData = value) ∨
    (byteArraySize < value.length ∧ record.newIsOverflow = true ∧
      ∃ l, OverflowAt ps pool.pages l record.newOverflowHead value ∧ ∀ p ∈ l, L.own p = some .log)

theorem UpdateLogged.kept {key value : Bytes} {record : WalRecord} {pool pool' : Pool}
    (h : UpdateLogged ps pool L txn key value record) (hk : LogKept pool pool' L L') :
    UpdateLogged ps pool' L' txn key value record := by
  refine { h with value := h.value.imp_right fun ⟨hl, ho, l, hs, hown⟩ => ?_ }
  exact ⟨hl, ho, l, hs.congr fun p hp => (hk p (hown p hp)).2, fun p hp => (hk p (hown p hp)).1⟩

/-- The log record of an update is made, and its long value goes to pages of the log. -/
theorem Sound.makeUpdateRecord (h : Sound ps eng L) (txn : Int) (key value : Bytes)
    (hids : ({ eng with pool := (makeUpdateRecord eng.pool txn key value).2 } : Engine).HasIds) :
    ∃ record pool' L', Garry.makeUpdateRecord eng.pool txn key value = (some record, pool') ∧
      Wrote ps eng (({ eng with pool := pool' } : Engine).appendMade (some record)) L L' txn key none
        false ∧
      (∀ p ∈ L.used, 0 ≤ p → pool'.pages p = eng.pool.pages p) ∧
      UpdateLogged ps pool' L' txn key value record := by
  rw [Garry.makeUpdateRecord] at hids ⊢
  split at hids
  · next hshort =>
    rw [if_pos hshort]
    exact ⟨_, _, L, rfl, ⟨⟨h.pages, h.pageSize, h.locks, h.fits, h.ids⟩, .refl, ⟨rfl, rfl, rfl⟩, rfl,
      rfl⟩, fun _ _ _ => rfl, rfl, rfl, rfl, rfl, .inl ⟨hshort, rfl, rfl⟩⟩
  · next hlong =>
    rw [if_neg hlong]
    simp only at hids ⊢
    have hpool : ({ eng with pool := (Garry.overflowWrite eng.pool value).2 } : Engine).HasIds := by
      generalize Garry.overflowWrite eng.pool value = written at hids
      obtain ⟨head, pool⟩ := written
      simp only at hids
      split at hids
      · exact hids
      · exact hids
    obtain ⟨l, pool', heq, hov, hs, hst⟩ := h.overflowWrite (o := .log) (by simp) hpool
    rw [not_le] at hlong
    obtain ⟨p, l, rfl⟩ : ∃ p l', l = p :: l' := by
      apply List.exists_cons_of_ne_nil
      rintro rfl
      rw [hov.stored.2] at hlong
      exact absurd hlong (Nat.not_lt_zero _)
    have hp0 : 0 ≤ p := hov.stored.2.1
    simp only [heq, List.head?_cons, Option.getD_some, if_neg (show ¬ p < 0 by omega)]
    exact ⟨_, _, L.take (p :: l) .log, rfl, ⟨⟨hs.pages, hs.pageSize, hs.locks, hs.fits, hs.ids⟩, hst,
      ⟨rfl, rfl, rfl⟩, rfl, rfl⟩, fun q hq h0 => hov.kept hq h0, rfl, rfl, rfl, rfl,
      .inr ⟨hlong, rfl, p :: l, hov.stored, fun q hq => if_pos hq⟩⟩

/-- Two writes in a row, the first without success. -/
theorem Wrote.trans {eng'' : Engine} {L'' : Layout} {x y : Option Bytes} {key : Bytes} {ok : Bool}
    (h : Wrote ps eng eng' L L' txn key x false) (h' : Wrote ps eng' eng'' L' L'' txn key y ok) :
    Wrote ps eng eng'' L L'' txn key y ok where
  sound := h'.sound
  stays := h.stays.trans h'.stays
  table := h.table.trans h'.table
  root := h'.root.trans h.root
  store := by
    have e : eng'.store L' = eng.store L := h.store
    rw [h'.store, e]

theorem nextPage_le_makeUpdateRecord (pool : Pool) (txn : Int) (key value : Bytes) :
    pool.nextPage ≤ (Garry.makeUpdateRecord pool txn key value).2.nextPage := by
  rw [Garry.makeUpdateRecord]
  split
  · exact le_rfl
  · have hn : pool.nextPage ≤ (Garry.overflowWrite pool value).2.nextPage :=
      nextPage_le_overflowWriteLoop value.length pool (-1) (-1) value
    generalize Garry.overflowWrite pool value = written at hn
    obtain ⟨head, pool'⟩ := written
    simp only at hn ⊢
    split
    · exact hn
    · exact hn

theorem nextPage_le_setVersion (txn cid : Int) (key value : Bytes) (newKey : Bool) :
    eng.pool.nextPage ≤ (eng.setVersion lz4 txn cid key value newKey).2.pool.nextPage := by
  have hlog := nextPage_le_makeUpdateRecord eng.pool txn key value
  rw [Engine.setVersion]
  generalize Garry.makeUpdateRecord eng.pool txn key value = made at hlog
  obtain ⟨record, pool⟩ := made
  simp only at hlog ⊢
  generalize heng : ({ eng with pool := pool } : Engine).appendMade record = eng₁
  have hpool : eng₁.pool = pool := by
    rw [← heng]
    cases record <;> rfl
  rw [← hpool] at hlog
  split
  · exact hlog
  · next v _ =>
    have hset : eng₁.pool.nextPage ≤ (eng₁.mvccSet txn cid v).2.pool.nextPage :=
      nextPage_le_mvccSet txn cid v
    split
    · exact hlog.trans hset
    · exact hlog.trans hset

/-- `setVersion` on the chain page of a key. -/
theorem Sound.setVersion (h : Sound ps eng L) {key : Bytes} (hc : L.own cid = some (.chain key))
    (ht : Fits32 txn) (hv : ∀ v ∈ eng.stored lz4 value, Fits32 v.length) (newKey : Bool)
    (hids : (eng.setVersion lz4 txn cid key value newKey).2.HasIds) :
    ∃ ok eng' L', eng.setVersion lz4 txn cid key value newKey = (ok, eng') ∧
      Wrote ps eng eng' L L' txn key (eng.stored lz4 value) ok ∧
      (ok = (eng.stored lz4 value).any fun v =>
        pageRoom (eng.pool.pages cid) (versionSize ps v)) ∧
      ∃ record, eng'.wal = (walLogAppend eng.wal record).2 ∧
        UpdateLogged ps eng'.pool L' txn key value record := by
  have hlog := h.makeUpdateRecord txn key value
  rw [Engine.setVersion] at hids ⊢
  have hn : (Garry.makeUpdateRecord eng.pool txn key value).2.nextPage + 65 ≤ pageIdLimit := by
    generalize Garry.makeUpdateRecord eng.pool txn key value = made at hids
    obtain ⟨record, pool⟩ := made
    simp only at hids ⊢
    have hpool : (({ eng with pool := pool } : Engine).appendMade record).pool = pool := by
      cases record <;> rfl
    generalize ({ eng with pool := pool } : Engine).appendMade record = eng₁ at hpool hids
    rw [← hpool]
    split at hids
    · exact hids
    · next v _ =>
      have hle : eng₁.pool.nextPage ≤ (eng₁.mvccSet txn cid v).2.pool.nextPage :=
        nextPage_le_mvccSet txn cid v
      have hset : (eng₁.mvccSet txn cid v).2.HasIds := by
        generalize eng₁.mvccSet txn cid v = done at hids
        obtain ⟨ok, eng₂⟩ := done
        cases ok <;> exact hids
      simp only [HasIds] at hset
      omega
  obtain ⟨record, pool, L₁, hmade, hw, hkept, hrec⟩ := hlog hn
  rw [hmade] at hids ⊢
  simp only at hids ⊢
  generalize heng : ({ eng with pool := pool } : Engine).appendMade (some record) = eng₁ at hw hids
  have hpool : eng₁.pool = pool := by rw [← heng]; rfl
  have hwal : eng₁.wal = (walLogAppend eng.wal record).2 := by rw [← heng]; rfl
  have hstored : (if eng₁.compression = compressLz4 then lz4.compress value else some value) =
      eng.stored lz4 value := by
    rw [← heng]
    rfl
  rw [← hpool] at hrec
  rw [hstored] at hids ⊢
  cases hval : eng.stored lz4 value with
  | none => exact ⟨false, eng₁, L₁, rfl, hw, rfl, record, hwal, hrec⟩
  | some val =>
  rw [hval] at hids
  simp only at hids ⊢
  have hset : (eng₁.mvccSet txn cid val).2.HasIds := by
    generalize eng₁.mvccSet txn cid val = done at hids
    obtain ⟨ok, eng₂⟩ := done
    cases ok <;> exact hids
  obtain ⟨ok, eng₂, L₂, heq, hw', hok⟩ := hw.sound.mvccSet (hw.stays.chain hc) ht (hv val hval) hset
  rw [hpool, hkept cid (Layout.mem_used hc) (h.pages.range hc).1] at hok
  have hw₂ := hw.trans hw'
  have hwal₂ : eng₂.wal = (walLogAppend eng.wal record).2 := by
    have hk := (keeps_mvccSet txn cid val : eng₁.Keeps (eng₁.mvccSet txn cid val).2).wal
    rw [heq] at hk
    exact hk.trans hwal
  have hrec₂ := hrec.kept hw'.stays.versions.log
  rw [heq]
  cases ok with
  | false => exact ⟨false, eng₂, L₂, rfl, hw₂, hok, record, hwal₂, hrec₂⟩
  | true =>
    have hs := hw₂.sound
    have ht := hw₂.table
    exact ⟨true, _, L₂, rfl, ⟨⟨hs.pages, hs.pageSize, hs.locks, hs.fits, hs.ids⟩, hw₂.stays,
      ⟨ht.nextTxid, ht.lockMgr, ht.marks⟩, hw₂.root, hw₂.store⟩, hok, record, hwal₂, hrec₂⟩

/-- What a call does to the tree: nothing, or it inserts a new key. -/
inductive TreeStep (ps : Nat) (eng eng' : Engine) (L L' : Layout) (key : Bytes) : Prop
  | same : eng'.btreeRoot = eng.btreeRoot → L'.root = L.root → L'.foot = L.foot →
    (∀ p ∈ L.foot.pages, eng'.pool.pages p = eng.pool.pages p) → TreeStep ps eng eng' L L' key
  | insert (v : Bytes) : L.lookup key = none →
    L'.root = L.root.insert 2 maxKeysPerNode key v →
    LeafStep key v (nodeAt ps eng.pool.pages) (nodeAt ps eng'.pool.pages) L.foot.links
      L'.foot.links → TreeStep ps eng eng' L L' key

/-- What a call that writes a key does to the store, with its result. -/
inductive Written (s s' : Mvcc.State Bytes Bytes Bytes) (txn : Int) (key : Bytes)
    (x : Option Bytes) : Bool → Prop
  | rejected : s' = s → Written s s' txn key x false
  | failed : s.Live txn → s.Free txn key → s' = s.lock txn key → Written s s' txn key x false
  | done : s.Live txn → s.Free txn key → s' = (s.lock txn key).push txn key x →
    Written s s' txn key x true

/-- A call that writes a key is a step of the store. -/
theorem Written.step {s s' : Mvcc.State Bytes Bytes Bytes} {key : Bytes} {x : Option Bytes}
    {ok : Bool} (h : Written s s' txn key x ok) : ∃ e, Mvcc.Step id s e s' := by
  cases h with
  | rejected he =>
    subst he
    exact ⟨_, .skip⟩
  | failed hl hf he =>
    subst he
    exact ⟨_, .lock hl hf⟩
  | done hl hf he =>
    subst he
    exact ⟨_, .write hl hf⟩

theorem Inv.fits_of_live (h : Inv ps eng L) (hl : (eng.store L).Live txn) : Fits32 txn := by
  obtain ⟨info, hi, he⟩ := List.mem_map.mp hl
  obtain rfl : info.txid = txn := (Prod.mk.inj he).1
  exact h.fits info hi

/-- The lock of a key is granted. -/
theorem Inv.acquire (h : Inv ps eng L) {key : Bytes} {lockMgr : List LockNode}
    (ha : lockAcquire eng.lockMgr txn key .exclusive = some lockMgr) :
    (eng.store L).Free txn key ∧ Sound ps { eng with lockMgr := lockMgr } L ∧
      ({ eng with lockMgr := lockMgr } : Engine).store L = (eng.store L).lock txn key := by
  obtain ⟨hfree, hex, hheld⟩ := h.locks.acquire ha
  refine ⟨hfree, ⟨h.pages, h.pageSize, hex, h.fits, h.ids⟩, ?_⟩
  simp only [store, Mvcc.State.lock, Mvcc.State.mk.injEq, true_and, and_true]
  funext k
  rw [hheld, Function.update_apply]

theorem Wrote.written {eng₁ : Engine} {L₁ : Layout} {key : Bytes} {x : Option Bytes} {ok : Bool}
    (h : Wrote ps eng₁ eng' L₁ L' txn key x ok) (hl : (eng.store L).Live txn)
    (hf : (eng.store L).Free txn key) (he : eng₁.store L₁ = (eng.store L).lock txn key) :
    Written (eng.store L) (eng'.store L') txn key x ok := by
  have hs := h.store
  rw [he] at hs
  cases ok with
  | true => exact .done hl hf hs
  | false => exact .failed hl hf hs

/-- The checks of a call that writes a key: the key, the transaction and the lock. -/
def accepts (eng : Engine) (txn : Int) (key : Bytes) : Bool :=
  decide (0 < key.length) && eng.txnIsActive txn &&
    (lockAcquire eng.lockMgr txn key .exclusive).isSome

/-- The chain page of a key, if the key is in the tree, takes a record of `n` bytes. -/
def roomFor (eng : Engine) (key : Bytes) (n : Nat) : Bool :=
  match leafFindSearch eng.pool eng.btreeRoot key with
  | some (some lookup) => pageRoom (eng.pool.pages (decodeCidFromDescriptor lookup.toBuffer)) n
  | _ => true

/-- A new chain page takes every version. -/
theorem Sound.roomNew (h : Sound ps eng L) {key : Bytes} (hc : L.own cid = some (.chain key))
    (hempty : L.versions key = []) (value : Bytes) :
    pageRoom (eng.pool.pages cid) (versionSize ps value) = true := by
  obtain ⟨recs, H, hr⟩ := (h.pages.chain hc).2.records
  rw [hempty] at hr
  cases hr
  rw [pageRoom_iff H, HasRoom, versionSize]
  have hsize := h.pages.size.1
  by_cases hlong : value.length > chainInlineCapacity ps
  · rw [if_pos hlong]
    simp only [List.length_nil, usedBytes_nil, maxSlots, pageHeaderSize, slotSize, overflowPtrSize,
      chainEntryHeaderSize]
    omega
  · rw [if_neg hlong]
    simp only [chainInlineCapacity, List.length_nil, usedBytes_nil, maxSlots, pageHeaderSize,
      slotSize, overflowPtrSize, chainEntryHeaderSize] at hlong ⊢
    omega

/-- What a set does to the log: its record is there unless the call was turned away. -/
structure SetLogs (ps : Nat) (eng eng' : Engine) (L L' : Layout) (txn : Int) (key value : Bytes) :
    Prop where
  versions : VersionsKept eng.pool eng'.pool L L'
  rejected : eng.accepts txn key = false → eng' = eng
  accepted : eng.accepts txn key = true → ∃ record, eng'.wal = (walLogAppend eng.wal record).2 ∧
    UpdateLogged ps eng'.pool L' txn key value record

/-- `garry_storage_set`. -/
theorem Inv.set (h : Inv ps eng L) (hkey : key.length ≤ 255)
    (hval : ∀ v ∈ eng.stored lz4 value, Fits32 v.length)
    (hs : eng.storageSet lz4 txn key value = some (ok, eng')) (hids : eng'.HasIds) :
    ∃ L', Inv ps eng' L' ∧ Written (eng.store L) (eng'.store L') txn key (eng.stored lz4 value) ok ∧
      ok = (eng.accepts txn key &&
        (eng.stored lz4 value).any fun v => eng.roomFor key (versionSize ps v)) ∧
      TreeStep ps eng eng' L L' key ∧ SetLogs ps eng eng' L L' txn key value := by
  have hskip (hno : eng.accepts txn key = false) : ∃ L', Inv ps eng L' ∧
      Written (eng.store L) (eng.store L') txn key (eng.stored lz4 value) false ∧
      false = (eng.accepts txn key &&
        (eng.stored lz4 value).any fun v => eng.roomFor key (versionSize ps v)) ∧
      TreeStep ps eng eng L L' key ∧ SetLogs ps eng eng L L' txn key value :=
    ⟨L, h, .rejected rfl, by rw [hno]; rfl, .same rfl rfl rfl fun _ _ => rfl, .refl, fun _ => rfl,
      fun hyes => absurd (hno.symm.trans hyes) (by decide)⟩
  rw [storageSet] at hs
  split at hs
  · next hlen =>
    cases hs
    apply hskip
    rw [accepts, decide_eq_false (by simp only [maxKeySize] at hlen; omega)]
    rfl
  next hlen =>
  split at hs
  · next hact =>
    cases hs
    apply hskip
    rw [accepts, hact, Bool.and_false]
    rfl
  next hact =>
  replace hact : eng.txnIsActive txn = true := by simpa using hact
  have hlive : (eng.store L).Live txn := h.live_iff.mp hact
  split at hs
  · next hlock =>
    cases hs
    apply hskip
    rw [accepts, hlock, Option.isSome_none, Bool.and_false]
  next lockMgr hlock =>
  have hacc : eng.accepts txn key = true := by
    rw [accepts, hact, hlock, decide_eq_true (by omega)]
    rfl
  obtain ⟨hfree, hsound, hstore⟩ := h.acquire hlock
  have hfit := h.fits_of_live hlive
  have hinv {eng' : Engine} {L' : Layout} (hs' : Sound ps eng' L')
      (hw : Written (eng.store L) (eng'.store L') txn key (eng.stored lz4 value) ok) :
      Inv ps eng' L' := by
    obtain ⟨e, hstep⟩ := hw.step
    exact h.step hs' hstep
  simp only at hs
  rw [hsound.pages.search] at hs
  cases hl : L.lookup key with
  | some v =>
    rw [hl] at hs
    obtain ⟨h0, hc⟩ := h.toSound.lookup hl
    simp only [Option.some.injEq] at hs
    have hids' : (Engine.setVersion lz4 { eng with lockMgr := lockMgr } txn
        (decodeCidFromDescriptor v.toBuffer) key value false).2.HasIds := by
      rw [hs]
      exact hids
    obtain ⟨ok', eng₂, L', heq, hw, hroom, hrec⟩ := hsound.setVersion hc hfit hval false hids'
    obtain ⟨rfl, rfl⟩ := Prod.mk.inj (heq.symm.trans hs)
    have hwr := hw.written hlive hfree hstore
    have hok : ok' = (eng.accepts txn key &&
        (eng.stored lz4 value).any fun v => eng.roomFor key (versionSize ps v)) := by
      rw [hacc, hroom, Bool.true_and]
      simp only [roomFor, h.pages.search, hl]
      rfl
    exact ⟨L', hinv hw.sound hwr, hwr, hok, .same hw.root hw.stays.root hw.stays.foot hw.stays.pages,
      hw.stays.versions, fun hno => absurd (hacc.symm.trans hno) (by decide), fun _ => hrec⟩
  | none =>
    rw [hl] at hs
    obtain ⟨cid, pool₁, pool₂, root', f, ha, h0, hserves, hins, hp, hn1, hn2, -, -, hls, hkept⟩ :=
      h.pages.newChain h.ids (by omega) hkey hl
    have hpin := Pool.pinPage_eq hserves h0
    simp only [chainAllocate, ha, if_neg (show ¬ cid < 0 by omega), hpin, h.pageSize, hins, if_true,
      Option.some.injEq] at hs
    generalize heng : ({
      pool := pool₂
      pageSize := ps
      compression := eng.compression
      maxTxns := eng.maxTxns
      nextTxid := eng.nextTxid
      btreeRoot := root'
      header := eng.header
      txns := eng.txns
      lockMgr := lockMgr
      wal := eng.wal
      keyCount := eng.keyCount } : Engine) = eng₂ at hs
    have hn : eng₂.pool.nextPage ≤ (eng₂.setVersion lz4 txn cid key value true).2.pool.nextPage :=
      nextPage_le_setVersion txn cid key value true
    rw [hs] at hn
    simp only at hn
    have hids₂ : eng₂.HasIds := by
      simp only [HasIds] at hids ⊢
      omega
    have hstore₂ : eng₂.store (L.addKey key cid f) = (eng.store L).lock txn key := by
      rw [← hstore, ← heng]
      rfl
    have hsound₂ : Sound ps eng₂ (L.addKey key cid f) := by
      subst heng
      exact ⟨hp, rfl, hsound.locks, h.fits, hids₂⟩
    have hids' : (eng₂.setVersion lz4 txn cid key value true).2.HasIds := by
      rw [hs]
      exact hids
    have hst : eng₂.stored lz4 value = eng.stored lz4 value := by
      rw [← heng]
      rfl
    obtain ⟨ok', eng₃, L', heq, hw, hroom, hrec⟩ := hsound₂.setVersion (L.own_addKey_self key cid f) hfit
      (hst ▸ hval) true hids'
    rw [hst] at hw hroom
    obtain ⟨rfl, rfl⟩ := Prod.mk.inj (heq.symm.trans hs)
    have hwr := hw.written hlive hfree hstore₂
    have hok : ok' = (eng.accepts txn key &&
        (eng.stored lz4 value).any fun v => eng.roomFor key (versionSize ps v)) := by
      rw [hacc, hroom, Bool.true_and]
      simp only [roomFor, h.pages.search, hl, hsound₂.roomNew (L.own_addKey_self key cid f)
        (h.pages.empty hl)]
    have hrec' : ∃ record, eng₃.wal = (walLogAppend eng.wal record).2 ∧
        UpdateLogged ps eng₃.pool L' txn key value record := by
      subst heng
      exact hrec
    have hkept' : VersionsKept eng.pool eng₃.pool L L' := by
      subst heng
      exact hkept.trans hw.stays.versions
    refine ⟨L', hinv hw.sound hwr, hwr, hok, .insert (encodeDescriptor cid false) hl hw.stays.root ?_,
      hkept', fun hno => absurd (hacc.symm.trans hno) (by decide), fun _ => hrec'⟩
    have hfoot : L'.foot = f := hw.stays.foot
    rw [hfoot]
    refine hls.congr fun r hr => ?_
    have hpages := hw.stays.pages r.1 (hp.tree.repr.links_sub hr)
    subst heng
    rw [nodeAt, nodeAt, hpages]

/-- `garry_storage_set` returns. -/
theorem Inv.set_ends (h : Inv ps eng L) (hkey : key.length ≤ 255) (txn : Int) (value : Bytes) :
    ∃ ok eng', eng.storageSet lz4 txn key value = some (ok, eng') := by
  rw [storageSet]
  split
  · exact ⟨_, _, rfl⟩
  split
  · exact ⟨_, _, rfl⟩
  split
  · exact ⟨_, _, rfl⟩
  simp only
  rw [h.pages.search]
  cases hl : L.lookup key with
  | some v => exact ⟨_, _, rfl⟩
  | none =>
    obtain ⟨cid, pool₁, pool₂, root', f, ha, h0, hserves, hins, -⟩ :=
      h.pages.newChain h.ids (by omega) hkey hl
    have hpin := Pool.pinPage_eq hserves h0
    simp only [chainAllocate, ha, if_neg (show ¬ cid < 0 by omega), hpin, h.pageSize, hins, if_true]
    exact ⟨_, _, rfl⟩

/-- `garry_storage_delete`. -/
theorem Inv.delete (h : Inv ps eng L) (txn : Int) (key : Bytes) :
    ∃ ok eng' L', eng.storageDelete txn key = some (ok, eng') ∧ Inv ps eng' L' ∧
      Written (eng.store L) (eng'.store L') txn key none ok ∧
      ok = (eng.accepts txn key && (L.lookup key).isSome &&
        eng.roomFor key chainEntryHeaderSize) ∧ TreeStep ps eng eng' L L' key ∧
      VersionsKept eng.pool eng'.pool L L' := by
  have hskip (hno : eng.accepts txn key = false) : ∃ ok eng' L', some (false, eng) = some (ok, eng') ∧
      Inv ps eng' L' ∧ Written (eng.store L) (eng'.store L') txn key none ok ∧
      ok = (eng.accepts txn key && (L.lookup key).isSome &&
        eng.roomFor key chainEntryHeaderSize) ∧ TreeStep ps eng eng' L L' key ∧
      VersionsKept eng.pool eng'.pool L L' :=
    ⟨false, eng, L, rfl, h, .rejected rfl, by rw [hno]; rfl, .same rfl rfl rfl fun _ _ => rfl, .refl⟩
  rw [storageDelete]
  split
  · next hlen =>
    apply hskip
    rw [accepts, decide_eq_false (by omega)]
    rfl
  next hlen =>
  split
  · next hact =>
    apply hskip
    rw [accepts, hact, Bool.and_false]
    rfl
  next hact =>
  replace hact : eng.txnIsActive txn = true := by simpa using hact
  have hlive : (eng.store L).Live txn := h.live_iff.mp hact
  split
  · next hlock =>
    apply hskip
    rw [accepts, hlock, Option.isSome_none, Bool.and_false]
  next lockMgr hlock =>
  have hacc : eng.accepts txn key = true := by
    rw [accepts, hact, hlock, decide_eq_true (by omega)]
    rfl
  obtain ⟨hfree, hsound, hstore⟩ := h.acquire hlock
  simp only
  rw [hsound.pages.search]
  cases hl : L.lookup key with
  | none =>
    have hwr : Written (eng.store L) (({ eng with lockMgr := lockMgr } : Engine).store L) txn key
        none false := .failed hlive hfree hstore
    obtain ⟨e, hstep⟩ := hwr.step
    exact ⟨false, _, L, rfl, h.step hsound hstep, hwr, by rw [hacc]; rfl,
      .same rfl rfl rfl fun _ _ => rfl, .refl⟩
  | some v =>
    obtain ⟨h0, hc⟩ := h.toSound.lookup hl
    simp only
    rw [if_neg (by omega)]
    have hlog : Sound ps (({ eng with lockMgr := lockMgr } : Engine).appendWal
        (makeDeleteRecord txn key)) L :=
      ⟨hsound.pages, hsound.pageSize, hsound.locks, hsound.fits, hsound.ids⟩
    obtain ⟨ok, eng', L', heq, hw, hroom⟩ := hlog.mvccDelete hc (h.fits_of_live hlive)
    have hwr := hw.written hlive hfree hstore
    obtain ⟨e, hstep⟩ := hwr.step
    have hok : ok = (eng.accepts txn key && (some v).isSome &&
        eng.roomFor key chainEntryHeaderSize) := by
      rw [hacc, hroom]
      simp only [roomFor, h.pages.search, hl]
      rfl
    rw [heq]
    exact ⟨ok, eng', L', rfl, h.step hw.sound hstep, hwr, hok,
      .same hw.root hw.stays.root hw.stays.foot hw.stays.pages, hw.stays.versions⟩

/-! ## Transactions -/

/-- `garry_storage_begin`. -/
theorem Inv.begin (h : Inv ps eng L) (hb : eng.Begins txn eng') (ht : Fits32 txn) :
    Inv ps eng' L ∧ txn = eng.nextTxid ∧ eng'.store L = (eng.store L).begin := by
  obtain ⟨-, rfl, rfl⟩ := hb.spec
  have hstore : (Engine.store { eng with
      nextTxid := eng.nextTxid + 1
      txns := eng.txns ++ [⟨eng.nextTxid, .active, []⟩] } L) = (eng.store L).begin := by
    simp [store, Mvcc.State.begin, TxnInfo.mark]
  have hsound : Sound ps { eng with
      nextTxid := eng.nextTxid + 1
      txns := eng.txns ++ [⟨eng.nextTxid, .active, []⟩] } L := by
    refine ⟨h.pages, h.pageSize, h.locks, fun info hi => ?_, h.ids⟩
    rcases List.mem_append.mp hi with hi | hi
    · exact h.fits info hi
    · obtain rfl := List.mem_singleton.mp hi
      exact ht
  refine ⟨⟨hsound, ?_⟩, rfl, hstore⟩
  rw [hstore]
  exact Mvcc.Step.begin.inv h.mvcc

/-- `garry_storage_commit`. -/
theorem Inv.commit (h : Inv ps eng L) (txn : Int) :
    Inv ps (eng.storageCommit txn) L ∧
      (eng.storageCommit txn).store L = (eng.store L).commit txn := by
  have hstore : (eng.storageCommit txn).store L = (eng.store L).commit txn := by
    simp only [store, storageCommit, mvccCommit, appendWal, Mvcc.State.commit, Mvcc.State.release,
      lockRelease_release, Mvcc.State.mk.injEq, true_and, and_true]
    refine ⟨?_, ?_⟩
    · rw [List.eraseP_map]
      rfl
    · funext k
      exact h.locks.holder_release txn k
  refine ⟨⟨⟨h.pages.foldl_flushPage _, h.pageSize, (h.locks.release txn).release txn, ?_, ?_⟩,
    ?_⟩, hstore⟩
  · exact fun info hi => h.fits info (List.mem_of_mem_eraseP hi)
  · show (List.foldl Pool.flushPage eng.pool _).nextPage + 65 ≤ pageIdLimit
    rw [nextPage_foldl_flushPage]
    exact h.ids
  · rw [hstore]
    exact Mvcc.Step.commit.inv h.mvcc

theorem marks_rollback {txns : List TxnInfo} (hn : (txns.map TxnInfo.txid).Nodup) :
    (updateTxn (fun info => { info with state := .rolledBack, modifiedPages := [] }) txn txns).map
      TxnInfo.mark = (txns.map TxnInfo.mark).map fun p => if p.1 = txn then (txn, true) else p := by
  induction txns with
  | nil => rfl
  | cons info txns ih =>
    rw [List.map_cons, List.nodup_cons] at hn
    rw [updateTxn]
    split
    · next ht =>
      have hrest : (txns.map TxnInfo.mark).map (fun p => if p.1 = txn then (txn, true) else p) =
          txns.map TxnInfo.mark := by
        rw [List.map_map]
        refine List.map_congr_left fun x hx => if_neg fun hxt => hn.1 ?_
        exact (ht.trans hxt.symm) ▸ List.mem_map_of_mem hx
      simp only [List.map_cons, hrest]
      simp [TxnInfo.mark, ht]
    · next ht =>
      rw [List.map_cons, ih hn.2, List.map_cons, List.map_cons]
      congr 1
      exact (if_neg ht).symm

/-- `garry_storage_rollback`. -/
theorem Inv.rollback (h : Inv ps eng L) (txn : Int) :
    Inv ps (eng.storageRollback txn) L ∧
      (eng.storageRollback txn).store L = (eng.store L).rollback txn := by
  have hnd := h.mvcc.nodup
  rw [active_store] at hnd
  have hstore : (eng.storageRollback txn).store L = (eng.store L).rollback txn := by
    simp only [store, storageRollback, mvccRollback, appendWal, Mvcc.State.rollback,
      Mvcc.State.release, lockRelease_release, Mvcc.State.mk.injEq, true_and, and_true]
    refine ⟨marks_rollback hnd, ?_⟩
    funext k
    exact h.locks.holder_release txn k
  refine ⟨⟨⟨h.pages, h.pageSize, (h.locks.release txn).release txn, ?_, h.ids⟩, ?_⟩, hstore⟩
  · intro info hi
    obtain ⟨info', hi', he⟩ := mem_updateTxn hi
    have := h.fits info' hi'
    rcases he with rfl | rfl
    · exact this
    · exact this
  · rw [hstore]
    exact Mvcc.Step.rollback.inv h.mvcc

/-- An eviction. -/
theorem Inv.evict (h : Inv ps eng L) (pid : Int) :
    Inv ps { eng with pool := eng.pool.flushPage pid } L := by
  refine ⟨⟨h.pages.flushPage pid, h.pageSize, h.locks, h.fits, ?_⟩, h.mvcc⟩
  simp only [HasIds, Pool.flushPage_nextPage]
  exact h.ids

/-- The frames hold other pages. -/
theorem Inv.frames {env : PoolEnv} (h : Inv ps eng L) (he : env.Serves) :
    Inv ps { eng with pool := eng.pool.withEnv env } L :=
  ⟨⟨h.pages.withEnv he, h.pageSize, h.locks, h.fits, h.ids⟩, h.mvcc⟩

/-! ## Garbage collection -/

/-- The tree and its pages stay. -/
structure SameTree (eng eng' : Engine) (L L' : Layout) : Prop where
  btreeRoot : eng'.btreeRoot = eng.btreeRoot
  root : L'.root = L.root
  foot : L'.foot = L.foot
  pages : ∀ p ∈ L.foot.pages, eng'.pool.pages p = eng.pool.pages p
  log : LogKept eng.pool eng'.pool L L'
  flushed : Flushed eng.pool L → Flushed eng'.pool L'

theorem SameTree.refl : SameTree eng eng L L := ⟨rfl, rfl, rfl, fun _ _ => rfl, .refl, id⟩

theorem SameTree.trans {eng'' : Engine} {L'' : Layout} (h : SameTree eng eng' L L')
    (h' : SameTree eng' eng'' L' L'') : SameTree eng eng'' L L'' where
  btreeRoot := h'.btreeRoot.trans h.btreeRoot
  root := h'.root.trans h.root
  foot := h'.foot.trans h.foot
  pages p hp := (h'.pages p (h.foot.symm ▸ hp)).trans (h.pages p hp)
  log := h.log.trans h'.log
  flushed hf := h'.flushed (h.flushed hf)

theorem SameTree.step {key : Bytes} (h : SameTree eng eng' L L') :
    TreeStep ps eng eng' L L' key := .same h.btreeRoot h.root h.foot h.pages

/-- The chain pages after a sweep over the pages of a set: those of the set that are in the pool are
pruned, the others are as before. -/
structure Swept (ps : Nat) (pids : Set Int) (eng eng' : Engine) (L L' : Layout) : Prop where
  env : eng'.pool.env = eng.pool.env
  activeTxns : eng'.activeTxns = eng.activeTxns
  own : ∀ {p key}, L.own p = some (.chain key) → L'.own p = some (.chain key)
  other : ∀ {p key}, L.own p = some (.chain key) → ¬ (p ∈ pids ∧ eng.pool.env.resident p) →
    eng'.pool.pages p = eng.pool.pages p
  pruned : ∀ {p key recs}, L.own p = some (.chain key) → p ∈ pids → eng.pool.env.resident p →
    Holds ps (eng.pool.pages p) recs → Holds ps (eng'.pool.pages p) (keptRecords eng.activeTxns recs)

/-- No page of the set is a chain page in the pool. -/
theorem Swept.same (hno : ∀ p ∈ pids, eng.pool.env.resident p → ∀ key, L.own p ≠ some (.chain key))
    (henv : eng'.pool.env = eng.pool.env) (hact : eng'.activeTxns = eng.activeTxns)
    (hpages : eng'.pool.pages = eng.pool.pages) : Swept ps pids eng eng' L L where
  env := henv
  activeTxns := hact
  own := id
  other _ _ := congrFun hpages _
  pruned ho hp hr := absurd ho (hno _ hp hr _)

theorem Swept.trans {pids' : Set Int} {eng'' : Engine} {L'' : Layout} (h : Swept ps pids eng eng' L L')
    (h' : Swept ps pids' eng' eng'' L' L'') (hd : Disjoint pids pids') :
    Swept ps (pids ∪ pids') eng eng'' L L'' where
  env := h'.env.trans h.env
  activeTxns := h'.activeTxns.trans h.activeTxns
  own ho := h'.own (h.own ho)
  other ho hno := by
    rw [h'.other (h.own ho) (fun hp => hno ⟨.inr hp.1, h.env ▸ hp.2⟩),
      h.other ho fun hp => hno ⟨.inl hp.1, hp.2⟩]
  pruned ho hp hr H := by
    rcases hp with hp | hp
    · rw [h'.other (h.own ho) fun hp' => Set.disjoint_left.mp hd hp hp'.1]
      exact h.pruned ho hp hr H
    · rw [← h.activeTxns]
      refine h'.pruned (h.own ho) hp (h.env ▸ hr) ?_
      rw [h.other ho fun hp' => Set.disjoint_left.mp hd hp'.1 hp]
      exact H

theorem tryPin_eq_none_iff {pool : Pool} (hp : 0 ≤ pid) :
    pool.tryPin pid = none ↔ ¬ pool.env.resident pid := by
  rw [Pool.tryPin, if_neg (by omega)]
  split
  · next hr => exact iff_of_false (Option.some_ne_none _) (not_not_intro hr)
  · next hr => exact iff_of_true rfl hr

/-- `garry_chain_page_prune` for the chain page of a key. -/
theorem Inv.pruneChain (h : Inv ps eng L) {key : Bytes} (hc : L.own pid = some (.chain key)) :
    ∃ pool' buf L', chainPagePrune eng.pool (eng.pool.pages pid) eng.pageSize eng.activeTxns =
        some (pool', buf) ∧
      Inv ps { eng with pool := (pool'.setPage pid buf).markDirty pid } L' ∧
      Mvcc.Pruned (eng.store L)
        (({ eng with pool := (pool'.setPage pid buf).markDirty pid } : Engine).store L') ∧
      SameTree eng { eng with pool := (pool'.setPage pid buf).markDirty pid } L L' ∧
      L'.versions = Function.update L.versions key
        (keptVersions eng.activeTxns (L.versions key)) ∧
      pool'.env = eng.pool.env ∧ ∀ p k, L.own p = some (.chain k) →
        L'.own p = L.own p ∧ (p ≠ pid → pool'.pages p = eng.pool.pages p) := by
  obtain ⟨pool', buf, heq, hn, henv, hchains, htree, hlog, hflushed, hp'⟩ :=
    h.pages.prune h.toSound.next_le hc eng.activeTxns
  have hpr : Mvcc.Pruned (eng.store L) (({ eng with
      pool := (pool'.setPage pid buf).markDirty pid } : Engine).store
      ((L.drop (overflowPages (droppedVersions eng.activeTxns (L.versions key)))).setVersions key
        (keptVersions eng.activeTxns (L.versions key)))) := by
    refine ⟨rfl, rfl, rfl, fun k => ?_⟩
    by_cases hk : k = key
    · subst hk
      right
      rw [active_store]
      simp [store, Layout.setVersions, chainOf_keptVersions]
    · left
      simp [store, Layout.setVersions, Layout.drop, Function.update_of_ne hk]
  refine ⟨pool', buf, _, h.pageSize ▸ heq, ⟨⟨hp', h.pageSize, h.locks, h.fits, ?_⟩, hpr.inv h.mvcc⟩,
    hpr, ⟨rfl, rfl, rfl, htree, hlog, hflushed⟩, rfl, henv, fun p k ho => ⟨if_neg (hchains p k ho).1,
      (hchains p k ho).2⟩⟩
  show pool'.nextPage + 65 ≤ pageIdLimit
  rw [hn]
  exact h.ids

/-- `garry_mvcc_gc` for one chain page. -/
theorem Inv.gcChain (h : Inv ps eng L) {key : Bytes} (hc : L.own pid = some (.chain key))
    (hres : eng.pool.env.resident pid) :
    ∃ pool' buf L', chainPagePrune eng.pool (eng.pool.pages pid) eng.pageSize eng.activeTxns =
        some (pool', buf) ∧
      Inv ps { eng with pool := (pool'.setPage pid buf).markDirty pid } L' ∧
      Mvcc.Pruned (eng.store L)
        (({ eng with pool := (pool'.setPage pid buf).markDirty pid } : Engine).store L') ∧
      SameTree eng { eng with pool := (pool'.setPage pid buf).markDirty pid } L L' ∧
      Swept ps {pid} eng { eng with pool := (pool'.setPage pid buf).markDirty pid } L L' := by
  obtain ⟨pool', buf, L', heq, hi, hpr, ht, -, henv, hchains⟩ := h.pruneChain hc
  refine ⟨pool', buf, L', heq, hi, hpr, ht, henv, rfl, ?_, ?_, ?_⟩
  · intro p k ho
    exact (hchains p k ho).1.trans ho
  · intro p k ho hno
    have hpid : p ≠ pid := by
      rintro rfl
      exact hno ⟨rfl, hres⟩
    exact (Pool.setPage_pages_of_ne hpid).trans ((hchains p k ho).2 hpid)
  · intro p k recs ho hp hr H
    obtain rfl := Set.mem_singleton_iff.mp hp
    show Holds ps (Function.update pool'.pages p buf p) _
    rw [Function.update_self]
    obtain ⟨recs', H', hrecs⟩ := (h.pages.chain ho).2.records
    obtain rfl := H'.unique H
    rw [h.pageSize] at heq
    exact H.pruned (length_le_of_forall₂ hrecs) heq

/-- `garry_mvcc_gc` for one page. -/
theorem Inv.gcPage (h : Inv ps eng L) (hp : 0 ≤ pid) :
    ∃ eng' L', eng.gcPage pid = some eng' ∧ Inv ps eng' L' ∧
      Mvcc.Pruned (eng.store L) (eng'.store L') ∧ SameTree eng eng' L L' ∧
      Swept ps {pid} eng eng' L L' := by
  rw [Engine.gcPage]
  rcases hpin : eng.pool.tryPin pid with _ | buf
  · refine ⟨eng, L, rfl, h, .refl _, .refl, .same (fun p hq hr => ?_) rfl rfl rfl⟩
    rw [Set.mem_singleton_iff.mp hq] at hr
    exact absurd hr ((tryPin_eq_none_iff hp).mp hpin)
  obtain rfl : eng.pool.pages pid = buf := by
    rcases eng.pool.tryPin_or pid with h' | h'
    · rw [hpin] at h'
      cases h'
    · exact Option.some.inj (h'.symm.trans hpin)
  simp only
  by_cases hchain : ∃ key, L.own pid = some (.chain key)
  · obtain ⟨key, hc⟩ := hchain
    have hres : eng.pool.env.resident pid := by
      by_contra hr
      rw [(tryPin_eq_none_iff hp).mpr hr] at hpin
      cases hpin
    obtain ⟨pool', buf, L', heq, hrest⟩ := h.gcChain hc hres
    rw [if_pos (h.pages.chain hc).2.kind, heq]
    exact ⟨_, L', rfl, hrest⟩
  have hno : ∀ p ∈ ({pid} : Set Int), eng.pool.env.resident p → ∀ key, L.own p ≠ some (.chain key) := by
    intro p hq _ key
    rw [Set.mem_singleton_iff.mp hq]
    exact not_exists.mp hchain key
  split
  · next hkind =>
    have hq := (h.pages.quiet pid hp (not_exists.mp hchain)).resolve_left (by simpa using hkind)
    rw [chainPagePrune, hq]
    simp only [Int.toNat_zero, Nat.zero_le, if_true, Option.map_some]
    have hset : eng.pool.setPage pid (eng.pool.pages pid) = eng.pool := by
      rw [Pool.setPage, Function.update_eq_self]
    have hpages : PagesInv ps ((eng.pool.setPage pid (eng.pool.pages pid)).markDirty pid)
        eng.btreeRoot L := by
      rw [hset]
      exact h.pages.congr h.pages.owns.markDirty rfl fun _ => rfl
    rw [hset] at hpages ⊢
    exact ⟨_, L, rfl, ⟨⟨hpages, h.pageSize, h.locks, h.fits, h.ids⟩, h.mvcc⟩,
      ⟨rfl, rfl, rfl, fun _ => .inl rfl⟩, ⟨rfl, rfl, rfl, fun _ _ => rfl, fun _ hp => ⟨hp, rfl⟩,
        fun hf => hf.marks (Marks.refl.markDirty pid) rfl⟩, .same hno rfl rfl rfl⟩
  · exact ⟨eng, L, rfl, h, .refl _, .refl, .same hno rfl rfl rfl⟩

/-- `garry_mvcc_gc` over a list of pages. -/
theorem Inv.sweep (h : Inv ps eng L) (pids : List Nat) (hnd : pids.Nodup) :
    ∃ eng' L', pids.foldlM (fun eng (pid : Nat) => eng.gcPage pid) eng = some eng' ∧
      Inv ps eng' L' ∧ Mvcc.Pruned (eng.store L) (eng'.store L') ∧ SameTree eng eng' L L' ∧
      Swept ps {p | ∃ pid ∈ pids, (pid : Int) = p} eng eng' L L' := by
  induction pids generalizing eng L with
  | nil =>
    refine ⟨eng, L, rfl, h, .refl _, .refl, .same (fun p hp => ?_) rfl rfl rfl⟩
    obtain ⟨pid, hpid, -⟩ := hp
    cases hpid
  | cons pid pids ih =>
    obtain ⟨hnot, hnd⟩ := List.nodup_cons.mp hnd
    obtain ⟨eng₁, L₁, h1, hi, hpr, ht, hs⟩ := h.gcPage (show (0 : Int) ≤ (pid : Int) by omega)
    obtain ⟨eng₂, L₂, h2, hi₂, hpr₂, ht₂, hs₂⟩ := ih hi hnd
    refine ⟨eng₂, L₂, ?_, hi₂, hpr.trans hpr₂, ht.trans ht₂, ?_⟩
    · rw [List.foldlM_cons, h1]
      exact h2
    have hdisj : Disjoint ({(pid : Int)} : Set Int) {p | ∃ pid ∈ pids, (pid : Int) = p} := by
      rw [Set.disjoint_singleton_left]
      rintro ⟨q, hq, he⟩
      exact hnot (Int.ofNat_inj.mp he ▸ hq)
    have hset : {p : Int | ∃ q ∈ pid :: pids, (q : Int) = p} =
        {(pid : Int)} ∪ {p | ∃ q ∈ pids, (q : Int) = p} := by
      ext p
      simp [eq_comm]
    rw [hset]
    exact hs.trans hs₂ hdisj

/-- `garry_mvcc_gc`. -/
theorem Inv.gc (h : Inv ps eng L) : ∃ eng' L', eng.mvccGc = some eng' ∧ Inv ps eng' L' ∧
    Mvcc.Pruned (eng.store L) (eng'.store L') ∧ SameTree eng eng' L L' := by
  obtain ⟨eng', L', hgc, hi, hpr, ht, -⟩ := h.sweep _ List.nodup_range'
  exact ⟨eng', L', hgc, hi, hpr, ht⟩

theorem pages_foldl_flushPage (pids : List Int) (pool : Pool) :
    (pids.foldl Pool.flushPage pool).pages = pool.pages := by
  induction pids generalizing pool with
  | nil => rfl
  | cons pid pids ih => rw [List.foldl_cons, ih, Pool.flushPage_pages]

/-- `garry_wal_checkpoint`. -/
theorem Inv.checkpoint (h : Inv ps eng L) : ∃ lsn eng' L', eng.walCheckpoint = some (lsn, eng') ∧
    Inv ps eng' L' ∧ Mvcc.Pruned (eng.store L) (eng'.store L') ∧ SameTree eng eng' L L' := by
  obtain ⟨eng₁, L₁, h1, hi, hpr, ht⟩ := h.gc
  rw [walCheckpoint, h1]
  refine ⟨_, _, L₁, rfl, ⟨⟨hi.pages.foldl_flushPage _, hi.pageSize, hi.locks, hi.fits, ?_⟩,
    hi.mvcc⟩, hpr, ht.btreeRoot, ht.root, ht.foot, fun p hp => ?_, fun p hp => ?_,
    fun hf => hi.pages.flushed_foldl (ht.flushed hf) _⟩
  · show (List.foldl Pool.flushPage eng₁.pool _).nextPage + 65 ≤ pageIdLimit
    rw [nextPage_foldl_flushPage]
    exact hi.ids
  · show (List.foldl Pool.flushPage eng₁.pool _).pages p = eng.pool.pages p
    rw [pages_foldl_flushPage]
    exact ht.pages p hp
  · show L₁.own p = some .log ∧ (List.foldl Pool.flushPage eng₁.pool _).pages p = eng.pool.pages p
    rw [pages_foldl_flushPage]
    exact ht.log p hp

end Engine

end Garry
