import Garry.Verify.CommitPages

/-!
# Open transactions

The records of a chain page that an open transaction has made are the last ones. Nobody else reads
them, and nobody else writes the key before the transaction has ended.
-/

namespace Mvcc

variable {V : Type*} {live : Int → Prop} {holder : Option Int} {new rest : List (Version V)}

/-- The versions above one of a live transaction are by that transaction. -/
theorem Owned.above {v : Version V} (h : Owned live holder (new ++ v :: rest)) (hlive : live v.txid) :
    ∀ w ∈ new, w.txid = v.txid := by
  induction new with
  | nil =>
    intro w hw
    cases hw
  | cons u new ih =>
    intro w hw
    rw [List.cons_append] at h
    rcases List.mem_cons.mp hw with rfl | hw
    · exact h.head_of_live (List.mem_append_right _ List.mem_cons_self) hlive
    · exact ih (h.sublist (List.sublist_cons_self _ _)) w hw

/-- Another snapshot reads what lies below the versions of an active transaction. -/
theorem read_append_of_active {snap t : Int} {active : List Int} (ht : t ∈ active) (hne : snap ≠ t)
    (h : ∀ w ∈ new, w.txid = t) : read snap active (new ++ rest) = read snap active rest := by
  apply newest_append_of_none
  intro w hw
  rw [Bool.eq_false_iff]
  intro hvis
  have hself := (visible_iff.mp hvis).2
  rw [h w hw] at hself
  exact hne (hself ht).symm

end Mvcc

namespace Garry

open ByteStore

/-- The transaction that has made a record of a chain page. -/
def recordTxid (ps : Nat) (buf : PageBuffer) (i : Nat) : Option Int :=
  (pageGet buf i ps).map fun recData => (readVersion recData).txidCreated

variable {ps : Nat} {lz4 : Lz4}

theorem HoldsVersions.recordTxid {pool : Pool} {buf : PageBuffer} {vs : List StoredVersion}
    (h : HoldsVersions pool buf vs) (i : Nat) :
    recordTxid pool.pageSize buf i = vs[i]?.map fun v => v.version.txid := by
  rw [Garry.recordTxid]
  cases hv : vs[i]? with
  | none =>
    obtain ⟨recs, H, hr⟩ := h.records
    have hnone : recs[i]? = none := by
      rw [List.getElem?_eq_none_iff] at hv ⊢
      rw [← hr.length_eq]
      exact hv
    rw [pageGet_eq H, hnone]
    rfl
  | some v =>
    obtain ⟨recData, hget, hread⟩ := h.get hv
    rw [hget, Option.map_some, Option.map_some, hread.created]

theorem chainOf_take_append (vs : List StoredVersion) (i : Nat) :
    chainOf vs = chainOf (vs.drop i) ++ chainOf (vs.take i) := by
  simp only [chainOf]
  rw [← List.reverse_append, ← List.map_append, List.take_append_drop]

/-- Another transaction asks for the lock of a key in vain. -/
theorem Exclusive.lockAcquire_eq_none {mgr : List LockNode} (h : Exclusive mgr) {key : Bytes}
    (hheld : lockHolder mgr key = some t) (hne : txn ≠ t) :
    lockAcquire mgr txn key .exclusive = none := by
  cases ha : lockAcquire mgr txn key .exclusive with
  | none => rfl
  | some mgr' =>
    obtain ⟨hfree | hown, -⟩ := h.acquire ha
    · rw [hheld] at hfree
      cases hfree
    · rw [hheld] at hown
      exact absurd (Option.some.inj hown).symm hne

namespace Engine

variable {eng eng' : Engine} {L L' : Layout} {key : Bytes}

theorem storageSet_of_locked (h : lockAcquire eng.lockMgr txn key .exclusive = none) (value : Bytes) :
    eng.storageSet lz4 txn key value = some (false, eng) := by
  rw [storageSet, h]
  simp only
  split
  · rfl
  split
  · rfl
  · rfl

theorem storageDelete_of_locked (h : lockAcquire eng.lockMgr txn key .exclusive = none) :
    eng.storageDelete txn key = some (false, eng) := by
  rw [storageDelete, h]
  simp only
  split
  · rfl
  split
  · rfl
  · rfl

/-- The records of a chain page are the versions of its key. -/
theorem Inv.chainVersions (h : Inv ps eng L) (hc : eng.keyChain key = some cid) :
    HoldsVersions eng.pool (eng.pool.pages cid) (L.versions key) := by
  have hchain := (h.pages.chain (h.own_of_keyChain hc)).2
  have hroom := h.pages.chunk
  rw [← h.pages.pageSize] at hchain hroom
  exact hchain.holdsVersions h.pages.serves hroom

/-- A version of a live transaction: its transaction holds the key, and the later versions are its
own. -/
theorem Inv.liveVersion (h : Inv ps eng L) {i : Nat} {v : StoredVersion}
    (hv : (L.versions key)[i]? = some v) (hlive : (eng.store L).Live v.version.txid) :
    lockHolder eng.lockMgr key = some v.version.txid ∧
      ∀ w ∈ chainOf ((L.versions key).drop i), w.txid = v.version.txid := by
  have howned := h.mvcc.owned key
  have hmem : v.version ∈ (eng.store L).chain key := by
    apply List.mem_reverse.mpr
    exact List.mem_map_of_mem (List.mem_of_getElem? hv)
  refine ⟨howned.not_mem hmem hlive, ?_⟩
  have hdrop : (L.versions key).drop i = v :: (L.versions key).drop (i + 1) := by
    obtain ⟨hi, rfl⟩ := List.getElem?_eq_some_iff.mp hv
    exact List.drop_eq_getElem_cons hi
  have hchain : (eng.store L).chain key =
      chainOf ((L.versions key).drop (i + 1)) ++ v.version :: chainOf ((L.versions key).take i) := by
    show chainOf (L.versions key) = _
    rw [chainOf_take_append _ i, hdrop]
    simp [chainOf]
  rw [hchain] at howned
  have habove := howned.above hlive
  intro w hw
  rw [hdrop] at hw
  simp only [chainOf, List.map_cons, List.reverse_cons, List.mem_append, List.mem_singleton] at hw
  rcases hw with hw | rfl
  · exact habove w hw
  · rfl

end Engine

open Engine in
/-- For every run: when a record of the chain page of a key is by an active transaction, then so are
the records after it. Every other transaction reads the records before it, and the sets and deletes
of the key by every other transaction are refused and change nothing. -/
theorem openRecords_last {eng₀ eng : Engine} {key : Bytes} (h0 : Created ps eng₀)
    (hrun : eng₀.Run lz4 (Proper lz4) eng) (hc : eng.keyChain key = some cid)
    (hrec : recordTxid ps (eng.pool.pages cid) i = some t) (hact : eng.txnIsActive t = true) :
    (∀ j t', i ≤ j → recordTxid ps (eng.pool.pages cid) j = some t' → t' = t) ∧
    ∀ txn, txn ≠ t →
      eng.mvccGet txn cid =
        findVisibleLoop eng.pool (eng.pool.pages cid) ps txn eng.activeTxns i ∧
      (∀ value, eng.storageSet lz4 txn key value = some (false, eng)) ∧
      eng.storageDelete txn key = some (false, eng) := by
  obtain ⟨L, hinv⟩ := hrun.inv (fun _ _ _ h => h) h0.inv.1
  have hholds := hinv.chainVersions hc
  have hps := hinv.pages.pageSize
  have htxid (j : Nat) : recordTxid ps (eng.pool.pages cid) j =
      (L.versions key)[j]?.map fun v => v.version.txid := by
    rw [← hps]
    exact hholds.recordTxid j
  rw [htxid] at hrec
  obtain ⟨v, hv, rfl⟩ := Option.map_eq_some_iff.mp hrec
  have hlive := hinv.live_iff.mp hact
  obtain ⟨hheld, hlater⟩ := hinv.liveVersion hv hlive
  refine ⟨?_, ?_⟩
  · intro j t' hij ht'
    rw [htxid] at ht'
    obtain ⟨w, hw, rfl⟩ := Option.map_eq_some_iff.mp ht'
    apply hlater
    apply List.mem_reverse.mpr
    apply List.mem_map_of_mem
    apply List.mem_of_getElem? (i := j - i)
    rw [List.getElem?_drop, Nat.add_sub_cancel' hij]
    exact hw
  · intro txn hne
    have hlock := hinv.locks.lockAcquire_eq_none hheld hne
    refine ⟨?_, storageSet_of_locked hlock, storageDelete_of_locked hlock⟩
    have hi : i ≤ (L.versions key).length := by
      obtain ⟨hi, -⟩ := List.getElem?_eq_some_iff.mp hv
      exact hi.le
    have hloop := hholds.findVisibleLoop txn eng.activeTxns hi
    rw [hps] at hloop
    rw [hloop, hinv.toSound.mvccGet (hinv.own_of_keyChain hc) txn, Mvcc.State.read, active_store]
    show Mvcc.read txn eng.activeTxns (chainOf (L.versions key)) = _
    rw [chainOf_take_append _ i]
    apply Mvcc.read_append_of_active _ hne hlater
    rw [← active_store (L := L)]
    exact hlive.active

open Engine in
/-- The set of a key that another open transaction has set. -/
theorem openRecords_last_refused : ∃ eng₀ eng : Engine, Created 1024 eng₀ ∧
    eng₀.Run .stored (Proper .stored) eng ∧ eng.txnIsActive 2 = true ∧
    eng.storageSet .stored 2 [7] [6] = some (false, eng) ∧
    eng.storageDelete 2 [7] = some (false, eng) := by
  have hcalls : (newCalls [.begin, .begin, .set 1 [7] [5]]).map (fun eng =>
      (eng.txnIsActive 1, eng.txnIsActive 2, eng.keyChain [7],
        recordTxid 1024 (eng.pool.pages 2) 0)) = some (true, true, some 2, some 1) := by
    decide +kernel
  obtain ⟨eng, heng, hc⟩ := Option.map_eq_some_iff.mp hcalls
  simp only [Prod.mk.injEq] at hc
  obtain ⟨hact, hact₂, hchain, hrec⟩ := hc
  obtain ⟨eng₀, h0, -, hrun⟩ := run_of_newCalls heng
  obtain ⟨-, hother⟩ := openRecords_last h0 hrun hchain hrec hact
  obtain ⟨-, hset, hdelete⟩ := hother 2 (by decide)
  exact ⟨eng₀, eng, h0, hrun, hact₂, hset [6], hdelete⟩

end Garry
