import Garry.Library.MvccHistory
import Garry.Verify.CleanClose
import Garry.Verify.FailedSet
import Garry.Verify.ReadCalls

/-!
# Durability

A database that is closed clean and opened again reads as it did, over any number of sessions.
Recovery repeats the whole log on pages that have all of it: an update finds its key in the tree and
does nothing, a delete puts a tombstone on what the key has by then.
-/

namespace Garry

open ByteStore

/-! ## Records -/

theorem walRecords_zeros {bytes : Bytes} (hb : walRecordSize ∣ bytes.length) (n : Nat) :
    walRecords (bytes ++ List.replicate (walRecordSize * n) 0) =
      walRecords bytes ++ List.replicate n (List.replicate walRecordSize 0) := by
  induction n with
  | zero => simp
  | succ n ih =>
    have hdvd : walRecordSize ∣ (bytes ++ List.replicate (walRecordSize * n) 0).length := by
      rw [List.length_append, List.length_replicate]
      exact Nat.dvd_add hb ⟨n, rfl⟩
    rw [Nat.mul_succ, List.replicate_add, ← List.append_assoc,
      walRecords_append hdvd List.length_replicate, ih, List.append_assoc]
    congr 1
    rw [← List.replicate_one, ← List.replicate_add]

/-- An append adds its record, behind records of zeros where there was a gap. -/
theorem WalLog.Whole.mem_append {wal : WalLog} (h : wal.Whole) {record : WalRecord}
    (hd : data ∈ walRecords (walLogAppend wal record).2.bytes) :
    data ∈ walRecords wal.bytes ∨ recTxid data = 0 ∨ data = record.encode := by
  obtain ⟨n, hn⟩ : walRecordSize ∣ wal.offset - wal.bytes.length := Nat.dvd_sub h.offset h.bytes
  rw [h.walRecords_append, padded, hn, walRecords_zeros h.bytes] at hd
  rcases List.mem_append.mp hd with hd | hd
  · rcases List.mem_append.mp hd with hd | hd
    · exact .inl hd
    · rw [(List.mem_replicate.mp hd).2]
      exact .inr (.inl (by decide +kernel))
  · exact .inr (.inr (List.mem_singleton.mp hd))

/-! ## The room of a chain page -/

/-- The bytes of the record of a version. -/
def versionLength (ps : Nat) (v : Mvcc.Version Bytes) : Nat :=
  v.value.elim chainEntryHeaderSize (versionSize ps)

theorem VersionAt.length (h : VersionAt ps pages v recData) :
    recData.length = versionLength ps v.version := by
  cases h with
  | tombstone txid _ => exact length_versionHeader ..
  | inline txid value _ _ hle =>
    rw [List.length_append, length_versionHeader]
    simp only [versionLength, Option.elim_some, versionSize, if_neg (not_lt_of_ge hle)]
  | overflow txid head value l _ _ _ hlt _ =>
    rw [List.length_append, length_versionHeader, length_word32]
    simp only [versionLength, Option.elim_some, versionSize, if_pos hlt]

/-- A chain page with these versions takes a record of `n` bytes. -/
def chainRoom (ps : Nat) (chain : List (Mvcc.Version Bytes)) (n : Nat) : Bool :=
  decide (chain.length < maxSlots ∧
    pageHeaderSize + slotSize * (chain.length + 1) + (chain.map (versionLength ps)).sum + n ≤ ps)

/-- The room depends on the versions only. -/
theorem ChainAt.room (h : ChainAt ps pages cid vs) (n : Nat) :
    pageRoom (pages cid) n = chainRoom ps (chainOf vs) n := by
  obtain ⟨recs, H, hr⟩ := h.records
  have hlen : (chainOf vs).length = recs.length := by
    rw [chainOf, List.length_reverse, List.length_map, hr.length_eq]
  have hused : ((chainOf vs).map (versionLength ps)).sum = usedBytes recs := by
    rw [chainOf, List.map_reverse, List.sum_reverse, List.map_map]
    clear h H hlen
    induction hr with
    | nil => rfl
    | cons hv _ ih => rw [List.map_cons, List.sum_cons, ih, usedBytes_cons, hv.length, Function.comp]
  rw [Bool.eq_iff_iff, pageRoom_iff H, HasRoom, chainRoom, decide_eq_true_iff, hlen, hused]

namespace Engine

variable {lz4 : Lz4} {ps : Nat} {eng eng' : Engine} {L L' : Layout}

/-! ## The log of a session -/

/-- The log tells nothing that the pages and the counter do not have: the key of every update is in
the tree, and the committed transactions are below the counter. -/
structure Logged (eng : Engine) (L : Layout) : Prop where
  whole : eng.wal.Whole
  updates : ∀ data ∈ walRecords eng.wal.bytes, recKind data = WalKind.update.code →
    recTxid data ≠ 0 → ∀ key, recKey data = some key → L.lookup key ≠ none
  commits : ∀ txid ∈ walCommits eng.wal.bytes, 0 < txid ∧ txid < eng.nextTxid
  next : 0 < eng.nextTxid ∧ eng.nextTxid ≤ 2147483648

/-- A call that is no set writes no update. -/
theorem step_wal {op : EngineOp} (hs : eng.step lz4 op = some eng')
    (hset : ∀ txn key value, op ≠ .set txn key value) : eng'.wal = eng.wal ∨
      (∃ record, record.kind ≠ .update ∧ eng'.wal = (walLogAppend eng.wal record).2) ∨
      eng'.wal.bytes = [] := by
  cases op with
  | begin =>
    cases hs
    exact .inl (storageBegin_aside eng).1
  | set txn key value => exact absurd rfl (hset txn key value)
  | delete txn key =>
    obtain ⟨⟨ok, eng₁⟩, hdel, rfl⟩ := Option.map_eq_some_iff.mp hs
    rw [storageDelete] at hdel
    split at hdel
    · cases hdel
      exact .inl rfl
    split at hdel
    · cases hdel
      exact .inl rfl
    split at hdel
    · cases hdel
      exact .inl rfl
    simp only at hdel
    split at hdel
    · cases hdel
    · cases hdel
      exact .inl rfl
    split at hdel
    · cases hdel
      exact .inl rfl
    · have he := congrArg Prod.snd (Option.some.inj hdel)
      refine .inr (.inl ⟨makeDeleteRecord txn key, (fun hk => by cases hk), ?_⟩)
      show eng₁.wal = _
      rw [← show _ = eng₁ from he]
      exact (keeps_mvccDelete ..).wal
  | commit txn =>
    cases hs
    exact .inr (.inl ⟨makeCommitRecord txn, (fun hk => by cases hk), rfl⟩)
  | rollback txn =>
    cases hs
    exact .inr (.inl ⟨makeAbortRecord txn, (fun hk => by cases hk), rfl⟩)
  | gc => exact .inl (keeps_mvccGc hs).wal
  | checkpoint =>
    obtain ⟨r, hcp, rfl⟩ := Option.map_eq_some_iff.mp hs
    obtain ⟨eng₁, hgc, rfl⟩ := Option.map_eq_some_iff.mp hcp
    exact .inr (.inr rfl)
  | evict pid =>
    cases hs
    exact .inl rfl
  | frames env =>
    cases hs
    exact .inl rfl

/-- A set that passes the checks leaves its key in the tree, also when it fails later. -/
theorem Inv.set_known (h : Inv ps eng L) (hkey : key.length ≤ 255)
    (hval : ∀ v ∈ eng.stored lz4 value, Fits32 v.length)
    (hs : eng.storageSet lz4 txn key value = some (ok, eng')) (hids : eng'.HasIds)
    (hacc : eng.accepts txn key = true) (hi : Inv ps eng' L')
    (ht : TreeStep ps eng eng' L L' key) : L'.lookup key ≠ none := by
  intro hnone
  cases hl : L.lookup key with
  | some v =>
    rw [ht.lookup h hl] at hnone
    cases hnone
  | none =>
    obtain ⟨h12, h3⟩ := Bool.and_eq_true_iff.mp hacc
    obtain ⟨h1, hact⟩ := Bool.and_eq_true_iff.mp h12
    have hpos : 0 < key.length := of_decide_eq_true h1
    obtain ⟨lockMgr, hlock⟩ := Option.isSome_iff_exists.mp h3
    have hfit := h.fits_of_live (h.live_iff.mp hact)
    obtain ⟨-, hsound, -⟩ := h.acquire hlock
    obtain ⟨cid, pool₁, pool₂, root', f, ha, h0, hserves, hins, hp, hn1, hn2, -⟩ :=
      h.pages.newChain h.ids hpos hkey hl
    have hpin := Pool.pinPage_eq hserves h0
    rw [storageSet, if_neg (by simp only [maxKeySize]; omega), if_neg (by rw [hact]; decide),
      hlock] at hs
    simp only [hsound.pages.search, hl, chainAllocate, ha, if_neg (show ¬ cid < 0 by omega), hpin,
      h.pageSize, hins, if_true, Option.some.injEq] at hs
    generalize heng : ({
      pool := pool₂
      pageSize := ps
      compression := eng.compression
      maxTxns := eng.maxTxns
      nextTxid := eng.nextTxid
      btreeRoot := root'
      header := eng.header
      txns := eng.txns
      lockMgr := lockMgr
      wal := eng.wal
      keyCount := eng.keyCount } : Engine) = eng₂ at hs
    have hn : eng₂.pool.nextPage ≤ (eng₂.setVersion lz4 txn cid key value true).2.pool.nextPage :=
      nextPage_le_setVersion txn cid key value true
    rw [hs] at hn
    simp only at hn
    have hids₁ : eng₂.HasIds := by
      simp only [HasIds] at hids ⊢
      omega
    have hsound₂ : Sound ps eng₂ (L.addKey key cid f) := by
      subst heng
      exact ⟨hp, rfl, hsound.locks, h.fits, hids₁⟩
    have hval₂ : ∀ v ∈ eng₂.stored lz4 value, Fits32 v.length := by
      subst heng
      exact hval
    have hids₂ : (eng₂.setVersion lz4 txn cid key value true).2.HasIds := by
      rw [hs]
      exact hids
    obtain ⟨ok', eng₃, L₃, heq, hw, -⟩ :=
      hsound₂.setVersion (L.own_addKey_self key cid f) hfit hval₂ true hids₂
    obtain ⟨rfl, rfl⟩ := Prod.mk.inj (heq.symm.trans hs)
    -- Both layouts are of the same pages, and a search of these finds the key.
    have hchain := hw.sound.pages.chain (hw.stays.chain (L.own_addKey_self key cid f))
    have hsearch := hi.pages.search key
    rw [hw.sound.pages.search, hchain.1, hnone] at hsearch
    cases hsearch

/-- A program commits the transactions that it was given. -/
def CommitsOwn (eng : Engine) (op : EngineOp) : Prop :=
  ∀ txn, op = .commit txn → 0 < txn ∧ txn < eng.nextTxid

theorem Created.wal (h : Created ps eng) : eng.wal = walLogInit [] := by
  obtain ⟨settings, env, -, -, hinit⟩ := h
  obtain ⟨pool, -, rfl⟩ := Option.map_eq_some_iff.mp hinit
  exact initPages_wal _

theorem Created.logged (h : Created ps eng) : Logged eng .new := by
  obtain ⟨-, -, hnext, -⟩ := h.inv
  refine ⟨?_, ?_, ?_, ?_⟩
  · rw [h.wal]
    exact ⟨⟨0, rfl⟩, ⟨0, rfl⟩, le_rfl⟩
  · rw [h.wal]
    simp [walLogInit, walRecords]
  · rw [h.wal]
    simp [walLogInit, walCommits, walRecords]
  · rw [hnext]
    decide

/-- What a call adds to the log has its key in the tree, if it is an update. -/
theorem Inv.logs (h : Inv ps eng L) {op : EngineOp} (hs : eng.step lz4 op = some eng')
    (hp : Proper lz4 eng eng' op) : ∃ L', Inv ps eng' L' ∧
      (∀ key, L.lookup key ≠ none → L'.lookup key ≠ none) ∧
      (eng'.wal = eng.wal ∨ (∃ record, (record.kind = .update →
        record.key.length ≤ byteArraySize ∧ L'.lookup record.key ≠ none) ∧
          eng'.wal = (walLogAppend eng.wal record).2) ∨ eng'.wal.bytes = []) := by
  have grows {L' : Layout} {key : Bytes} (ht : TreeStep ps eng eng' L L' key) (key' : Bytes)
      (hk : L.lookup key' ≠ none) : L'.lookup key' ≠ none := by
    obtain ⟨v, hv⟩ := Option.ne_none_iff_exists'.mp hk
    rw [ht.lookup h hv]
    exact Option.some_ne_none v
  by_cases hop : ∃ txn key value, op = .set txn key value
  · obtain ⟨txn, key, value, rfl⟩ := hop
    obtain ⟨hids, hlen, hval⟩ := hp
    obtain ⟨⟨ok, eng₁⟩, hset, rfl⟩ := Option.map_eq_some_iff.mp hs
    obtain ⟨L', hi', -, -, ht, hlog⟩ := h.set hlen hval hset hids
    refine ⟨L', hi', grows ht, ?_⟩
    cases hacc : eng.accepts txn key with
    | false =>
      rw [hlog.rejected hacc]
      exact .inl rfl
    | true =>
      obtain ⟨record, hwal, hrec⟩ := hlog.accepted hacc
      refine .inr (.inl ⟨record, fun _ => ?_, hwal⟩)
      rw [hrec.key]
      refine ⟨?_, h.set_known hlen hval hset hids hacc hi' ht⟩
      simp only [byteArraySize]
      omega
  · have hset : ∀ txn key value, op ≠ .set txn key value := fun txn key value he =>
      hop ⟨txn, key, value, he⟩
    obtain ⟨L', hi', -, ⟨key, ht⟩, -⟩ := h.call hs hp
    refine ⟨L', hi', grows ht, ?_⟩
    rcases step_wal hs hset with hw | ⟨record, hk, hw⟩ | hw
    · exact .inl hw
    · exact .inr (.inl ⟨record, fun he => absurd he hk, hw⟩)
    · exact .inr (.inr hw)

/-- What a call does to the counter and to the commit records. -/
theorem Logged.counts (h : Logged eng L) {op : EngineOp} (hs : eng.step lz4 op = some eng')
    (hp : Proper lz4 eng eng' op) (hown : eng.CommitsOwn op) : eng'.wal.Whole ∧
      (∀ txid ∈ walCommits eng'.wal.bytes, 0 < txid ∧ txid < eng'.nextTxid) ∧
      0 < eng'.nextTxid ∧ eng'.nextTxid ≤ 2147483648 := by
  obtain ⟨hpos, hle⟩ := h.next
  by_cases hb : op = .begin
  · subst hb
    cases hs
    have hwal := (storageBegin_aside eng).1
    have hfit : Fits32 eng.nextTxid := hp.2
    have hnext : eng.nextTxid ≤ eng.storageBegin.2.nextTxid ∧
        eng.storageBegin.2.nextTxid ≤ 2147483648 := by
      rcases begins_or eng with e | hb
      · rw [e]
        exact ⟨le_rfl, hle⟩
      · rw [hb.eq]
        simp only [Fits32] at hfit
        simp only
        omega
    rw [hwal]
    refine ⟨h.whole, fun txid hm => ?_, hpos.trans_le hnext.1, hnext.2⟩
    exact ⟨(h.commits txid hm).1, (h.commits txid hm).2.trans_le hnext.1⟩
  · have hl := logs_step hb hs
    rw [hl.nextTxid]
    refine ⟨hl.wal.whole h.whole, fun txid hm => ?_, hpos, hle⟩
    rcases hl.wal.commits h.whole txid hm with hm | ⟨txn, rfl, heq⟩
    · exact h.commits txid hm
    · obtain ⟨h0, hlt⟩ := hown txn rfl
      rw [heq ⟨by omega, by omega⟩]
      exact ⟨h0, hlt⟩

/-- Every call keeps what the log tells. -/
theorem Logged.call (h : Logged eng L) (hi : Inv ps eng L) {op : EngineOp}
    (hs : eng.step lz4 op = some eng') (hp : Proper lz4 eng eng' op) (hown : eng.CommitsOwn op) :
    ∃ L', Inv ps eng' L' ∧ Logged eng' L' := by
  obtain ⟨L', hi', hgrows, hlog⟩ := hi.logs hs hp
  obtain ⟨hwhole, hcommits, hnext⟩ := h.counts hs hp hown
  refine ⟨L', hi', hwhole, ?_, hcommits, hnext⟩
  intro data hd hk ht key hkey
  rcases hlog with hw | ⟨record, hrec, hw⟩ | hw
  · rw [hw] at hd
    exact hgrows key (h.updates data hd hk ht key hkey)
  · rw [hw] at hd
    rcases h.whole.mem_append hd with hd | h0 | rfl
    · exact hgrows key (h.updates data hd hk ht key hkey)
    · exact absurd h0 ht
    · rw [recKind_encode] at hk
      have hupdate : record.kind = .update := by
        cases hkind : record.kind with
        | update => rfl
        | _ =>
          rw [hkind] at hk
          cases hk
      obtain ⟨hlen, hl⟩ := hrec hupdate
      rw [record.recKey_encode hlen] at hkey
      rw [← Option.some.inj hkey]
      exact hl
  · rw [hw] at hd
    cases hd

/-! ## Recovery -/

/-- What recovery leaves as it is. -/
structure Recovered (ps : Nat) (eng eng' : Engine) (L L' : Layout) : Prop where
  storable : Storable ps eng' L'
  keeps : eng.Keeps eng'
  lockMgr : eng'.lockMgr = []
  root : L'.root = L.root
  next : eng'.pool.nextPage = eng.pool.nextPage

theorem Recovered.refl (h : Storable ps eng L) (hlocks : eng.lockMgr = []) :
    Recovered ps eng eng L L := ⟨h, .refl, hlocks, rfl, rfl⟩

theorem Recovered.trans {eng'' : Engine} {L'' : Layout} (h : Recovered ps eng eng' L L')
    (h' : Recovered ps eng' eng'' L' L'') : Recovered ps eng eng'' L L'' :=
  ⟨h'.storable, h.keeps.trans h'.keeps, h'.lockMgr, h'.root.trans h.root, h'.next.trans h.next⟩

/-- A key that is in the tree has its chain page there already. -/
theorem Storable.replayUpdate (h : Storable ps eng L) (hl : L.lookup key ≠ none) :
    eng.replayUpdate lz4 txid key val = some (true, eng) := by
  obtain ⟨v, hv⟩ := Option.ne_none_iff_exists'.mp hl
  obtain ⟨cid, rfl, hc⟩ := h.pages.entry hv
  have hr := h.pages.range hc
  have hn := h.next_le
  have hat := Bytes.toBuffer_standsAt (encodeDescriptor cid false)
  have hcid := decodeDescriptor_encodeDescriptor ⟨by omega, by omega⟩ hat le_rfl
  rw [Engine.replayUpdate, h.pages.search, hv]
  simp only [hcid]
  rw [if_neg (by omega)]

theorem Keeps.idle (h : eng.Keeps eng') (ht : eng.txns = []) : eng'.txns = [] := by
  have ha := h.activeTxns
  simp only [Engine.activeTxns, ht, List.map_nil, List.map_eq_nil_iff] at ha
  exact ha

theorem Storable.of_keeps (h : Storable ps eng L) (hk : eng.Keeps eng') (hi : Inv ps eng' L')
    (hn : Neat ps eng') : Storable ps eng' L' where
  toInv := hi
  neat := hn
  filed := by
    have hh := hk.header
    exact h.filed.congr (by rw [hh]) (by rw [hh]) (by rw [hh]) (by rw [hh]) hk.compression hk.maxTxns
  words := by
    rw [hk.compression, hk.maxTxns]
    exact h.words

theorem nextPage_mvccDelete (eng : Engine) (txid cid : Int) :
    (eng.mvccDelete txid cid).2.pool.nextPage = eng.pool.nextPage := by
  rw [Engine.mvccDelete]
  split
  · rfl
  · split
    · rfl
    · rfl

theorem Sound.roomFor_eq (h : Sound ps eng L) {key v : Bytes} (hl : L.lookup key = some v) (n : Nat) :
    eng.roomFor key n = chainRoom ps ((eng.store L).chain key) n := by
  simp only [roomFor, h.pages.search, hl]
  exact (h.pages.chain (h.lookup hl).2).2.room n

theorem Sound.roomFor_congr (h : Sound ps eng L) (h' : Sound ps eng' L') {key : Bytes}
    (hl : L'.lookup key = L.lookup key)
    (hc : (eng'.store L').chain key = (eng.store L).chain key) (n : Nat) :
    eng'.roomFor key n = eng.roomFor key n := by
  cases hv : L.lookup key with
  | none => simp only [roomFor, h.pages.search, h'.pages.search, hl, hv]
  | some v => rw [h.roomFor_eq hv, h'.roomFor_eq (hl.trans hv), hc]

/-- Deletes are repeated: a deleted key is absent afterwards if its chain page took the tombstone;
what is committed under the other keys stays. -/
structure Repeats (eng eng' : Engine) (L L' : Layout) (deleted : Bytes → Prop) : Prop where
  absent : ∀ key, deleted key → eng.roomFor key chainEntryHeaderSize = true →
    (eng'.store L').committed key = none
  stays : ∀ key, ¬ (deleted key ∧ eng.roomFor key chainEntryHeaderSize = true) →
    (eng'.store L').committed key = (eng.store L).committed key ∧
      eng'.roomFor key chainEntryHeaderSize = eng.roomFor key chainEntryHeaderSize

theorem Repeats.nothing {deleted : Bytes → Prop} (hno : ∀ key, ¬ deleted key) :
    Repeats eng eng L L deleted :=
  ⟨fun key hd => absurd hd (hno key), fun _ _ => ⟨rfl, rfl⟩⟩

/-- A key that an earlier delete has hidden stays absent. -/
theorem Repeats.trans {eng'' : Engine} {L'' : Layout} {d d' d'' : Bytes → Prop}
    (h : Repeats eng eng' L L' d) (h' : Repeats eng' eng'' L' L'' d')
    (hd : ∀ key, d'' key ↔ d key ∨ d' key) : Repeats eng eng'' L L'' d'' := by
  refine ⟨fun key hkey hroom => ?_, fun key hno => ?_⟩
  · by_cases hlost : d' key ∧ eng'.roomFor key chainEntryHeaderSize = true
    · exact h'.absent key hlost.1 hlost.2
    · obtain ⟨hsame, -⟩ := h'.stays key hlost
      rw [hsame]
      by_cases hfirst : d key
      · exact h.absent key hfirst hroom
      · have hsecond := ((hd key).mp hkey).resolve_left hfirst
        rw [(h.stays key fun hl => hfirst hl.1).2] at hlost
        exact absurd ⟨hsecond, hroom⟩ hlost
  · obtain ⟨hsame, hroom⟩ := h.stays key fun hl => hno ⟨(hd key).mpr (.inl hl.1), hl.2⟩
    obtain ⟨hsame', hroom'⟩ := h'.stays key fun hl =>
      hno ⟨(hd key).mpr (.inr hl.1), hroom ▸ hl.2⟩
    exact ⟨hsame'.trans hsame, hroom'.trans hroom⟩

/-- A tombstone of a committed transaction goes on top of the versions of the key. -/
theorem Storable.replayDelete (h : Storable ps eng L) (htxns : eng.txns = [])
    (hlocks : eng.lockMgr = []) (hfit : Fits32 txid) (hlt : txid < eng.nextTxid) (key : Bytes) :
    ∃ eng' L', eng.replayDelete txid key = some (true, eng') ∧ Recovered ps eng eng' L L' ∧
      Repeats eng eng' L L' (· = key) := by
  rw [Engine.replayDelete, h.pages.search]
  cases hl : L.lookup key with
  | none =>
    refine ⟨eng, L, rfl, .refl h hlocks, ?_, fun _ _ => ⟨rfl, rfl⟩⟩
    intro k hk _
    simp [hk, Mvcc.State.committed, store, h.pages.empty hl, chainOf, Mvcc.newest]
  | some v =>
    obtain ⟨cid, rfl, hc⟩ := h.pages.entry hl
    have hr := h.pages.range hc
    have hn := h.next_le
    have hat := Bytes.toBuffer_standsAt (encodeDescriptor cid false)
    have hcid := decodeDescriptor_encodeDescriptor ⟨by omega, by omega⟩ hat le_rfl
    obtain ⟨ok, eng', L', heq, hw, hok⟩ := h.toSound.mvccDelete hc hfit
    have hk : eng.Keeps (eng.mvccDelete txid cid).2 := keeps_mvccDelete txid cid
    have hneat := h.neat.mvccDelete txid cid
    have hnext := eng.nextPage_mvccDelete txid cid
    rw [heq] at hk hneat hnext
    have htxns' : eng'.txns = [] := hk.idle htxns
    have hlocks' : eng'.lockMgr = [] := hw.table.lockMgr.trans hlocks
    have hroom : eng.roomFor key chainEntryHeaderSize = ok := by
      simp only [roomFor, h.pages.search, hl,
        decodeCidFromDescriptor_encode hr.1 (show cid < 4294967296 by omega), hok]
    -- With the tombstone the key has one version more, of a transaction below the counter.
    have hchain (k : Bytes) : k = key ∧ ok = true ∧
          chainOf (L'.versions k) = ⟨txid, none⟩ :: chainOf (L.versions k) ∨
        (k ≠ key ∨ ok = false) ∧ chainOf (L'.versions k) = chainOf (L.versions k) := by
      have hst : (eng'.store L').chain k = _ := congrArg (fun s => s.chain k) hw.store
      cases ok with
      | false => exact .inr ⟨.inr rfl, hst⟩
      | true =>
        by_cases he : k = key
        · subst he
          refine .inl ⟨rfl, rfl, hst.trans ?_⟩
          simp [Mvcc.State.push, store]
        · refine .inr ⟨.inl he, hst.trans ?_⟩
          simp [Mvcc.State.push, store, Function.update_of_ne he]
    have hactive : (eng'.store L').active = (eng.store L).active := by
      rw [active_store, active_store, hk.activeTxns]
    refine ⟨eng', L', ?_, ⟨h.of_keeps hk ?_ hneat, hk, hlocks', hw.stays.root, hnext⟩, ?_, ?_⟩
    · simp only [Option.map_some, hcid, heq]
    · apply hw.sound.idle htxns' hlocks'
      intro k v hv
      rw [hk.nextTxid]
      rcases hchain k with ⟨-, -, he⟩ | ⟨-, he⟩
      · rw [he] at hv
        rcases List.mem_cons.mp hv with rfl | hv
        · exact hlt
        · exact h.mvcc.versions hv
      · rw [he] at hv
        exact h.mvcc.versions hv
    · intro k he hr
      rw [he, hroom] at hr
      rcases hchain k with ⟨-, -, hv⟩ | ⟨hno, -⟩
      · rw [Mvcc.State.committed, hactive]
        refine (congrArg _ hv).trans ?_
        apply Mvcc.newest_cons_of_pos
        simp [active_store, activeTxns, htxns]
      · exact (hno.elim (absurd he) fun hf => absurd hr (by rw [hf]; decide))
    · intro k hno
      rcases hchain k with ⟨rfl, hdone, -⟩ | ⟨hne, hv⟩
      · exact absurd ⟨rfl, hroom.trans hdone⟩ hno
      · constructor
        · rw [Mvcc.State.committed, Mvcc.State.committed, hactive]
          exact congrArg _ hv
        · exact h.toSound.roomFor_congr hw.sound (by rw [Layout.lookup, Layout.lookup, hw.stays.root])
            hv _

/-- A committed transaction has deleted the key in these records. -/
def DeletedIn (committed : List Int) (records : List Bytes) (key : Bytes) : Prop :=
  ∃ data ∈ records, recKind data = WalKind.delete.code ∧ recTxid data ∈ committed ∧
    recKey data = some key

theorem deletedIn_cons {committed : List Int} {data : Bytes} {records : List Bytes} (key : Bytes) :
    DeletedIn committed (data :: records) key ↔
      DeletedIn committed [data] key ∨ DeletedIn committed records key := by
  simp [DeletedIn]

/-- One record is replayed. -/
theorem Storable.replayRecord (h : Storable ps eng L) (htxns : eng.txns = [])
    (hlocks : eng.lockMgr = []) {committed : List Int} {data : Bytes}
    (hc : ∀ txid ∈ committed, txid < eng.nextTxid)
    (hup : recKind data = WalKind.update.code → recTxid data ∈ committed →
      ∀ key, recKey data = some key → L.lookup key ≠ none) :
    ∃ eng' L', eng.replayRecord lz4 committed data = some (true, eng') ∧
      Recovered ps eng eng' L L' ∧ Repeats eng eng' L L' (DeletedIn committed [data]) := by
  have hdel (key : Bytes) : DeletedIn committed [data] key ↔
      recKind data = WalKind.delete.code ∧ recTxid data ∈ committed ∧ recKey data = some key := by
    simp [DeletedIn]
  have hstay (hno : ∀ key, ¬ DeletedIn committed [data] key) :
      ∃ eng' L', some (true, eng) = some (true, eng') ∧ Recovered ps eng eng' L L' ∧
        Repeats eng eng' L L' (DeletedIn committed [data]) :=
    ⟨eng, L, rfl, .refl h hlocks, .nothing hno⟩
  simp only [Engine.replayRecord]
  split
  · next hkind => exact hstay fun key hd => hkind.2 ((hdel key).mp hd).1
  next hkind =>
  split
  · next hmem => exact hstay fun key hd => hmem ((hdel key).mp hd).2.1
  next hmem =>
  rw [not_not] at hmem
  have hlt := hc _ hmem
  split
  · next hnone =>
    apply hstay
    intro key hd
    rw [hnone] at hdel
    cases ((hdel key).mp hd).2.2
  next key hkey =>
  split
  · next hkd =>
    obtain ⟨eng', L', heq, hr, hrep⟩ := h.replayDelete htxns hlocks (fits32_getWord ..) hlt key
    have hiff (k : Bytes) : DeletedIn committed [data] k ↔ k = key := by
      rw [hdel, hkey, Option.some.injEq]
      exact ⟨fun hd => hd.2.2.symm, fun he => ⟨hkd, hmem, he.symm⟩⟩
    refine ⟨eng', L', heq, hr, fun k hd => hrep.absent k ((hiff k).mp hd), fun k hno => ?_⟩
    rw [hiff] at hno
    exact hrep.stays k hno
  next hkd =>
  have hno (key : Bytes) : ¬ DeletedIn committed [data] key := fun hd => hkd ((hdel key).mp hd).1
  have hupdate : recKind data = WalKind.update.code := by
    by_contra hne
    exact hkind ⟨hne, hkd⟩
  split
  · exact hstay hno
  · rw [h.replayUpdate (hup hupdate hmem key hkey)]
    exact hstay hno

/-- The records of the log are replayed. -/
theorem Storable.replay (h : Storable ps eng L) (htxns : eng.txns = []) (hlocks : eng.lockMgr = [])
    {committed : List Int} {records : List Bytes}
    (hc : ∀ txid ∈ committed, txid < eng.nextTxid)
    (hup : ∀ data ∈ records, recKind data = WalKind.update.code → recTxid data ∈ committed →
      ∀ key, recKey data = some key → L.lookup key ≠ none) :
    ∃ eng' L', eng.replay lz4 committed records = some (true, eng') ∧
      Recovered ps eng eng' L L' ∧ Repeats eng eng' L L' (DeletedIn committed records) := by
  induction records generalizing eng L with
  | nil => exact ⟨eng, L, rfl, .refl h hlocks, .nothing fun key => by simp [DeletedIn]⟩
  | cons data records ih =>
    obtain ⟨eng₁, L₁, h₁, hr₁, hrep₁⟩ := h.replayRecord htxns hlocks hc (hup data List.mem_cons_self)
    have hlookup : L₁.lookup = L.lookup := by
      funext key
      rw [Layout.lookup, Layout.lookup, hr₁.root]
    have hup' : ∀ data ∈ records, recKind data = WalKind.update.code → recTxid data ∈ committed →
        ∀ key, recKey data = some key → L₁.lookup key ≠ none := by
      intro data hd
      rw [hlookup]
      exact hup data (List.mem_cons_of_mem _ hd)
    have hc' : ∀ txid ∈ committed, txid < eng₁.nextTxid := hr₁.keeps.nextTxid ▸ hc
    obtain ⟨eng₂, L₂, h₂, hr₂, hrep₂⟩ :=
      ih hr₁.storable (hr₁.keeps.idle htxns) hr₁.lockMgr hc' hup'
    refine ⟨eng₂, L₂, ?_, hr₁.trans hr₂, hrep₁.trans hrep₂ deletedIn_cons⟩
    rw [Engine.replay, h₁]
    exact h₂

/-- What recovery makes of a loaded engine whose log tells nothing new. -/
theorem Storable.walRecover (lz4 : Lz4) (h : Storable ps eng L) (htxns : eng.txns = [])
    (hlocks : eng.lockMgr = [])
    (hc : ∀ txid ∈ walCommits eng.wal.bytes, txid < eng.nextTxid)
    (hup : ∀ data ∈ walRecords eng.wal.bytes, recKind data = WalKind.update.code →
      recTxid data ∈ walCommits eng.wal.bytes → ∀ key, recKey data = some key →
        L.lookup key ≠ none) :
    ∃ eng' L', eng.walRecover lz4 = some (true, eng') ∧
      Recovered ps { eng with wal := eng.wal.atEnd } eng' L L' ∧
      Repeats { eng with wal := eng.wal.atEnd } eng' L L'
        (DeletedIn (walCommits eng.wal.bytes) (walRecords eng.wal.bytes)) := by
  have hnext : (walCommits eng.wal.bytes).foldl
      (fun next txid => if txid + 1 > next then txid + 1 else next) eng.nextTxid = eng.nextTxid := by
    apply eq_of_forall_lt_iff
    intro c
    rw [lt_foldl_next]
    refine or_iff_left_of_imp ?_
    rintro ⟨c', hm, hle⟩
    exact hle.trans_lt (hc c' hm)
  have hcollect : eng.collectCommits (walRecords eng.wal.bytes) = (walCommits eng.wal.bytes, eng) := by
    show (walCommits eng.wal.bytes, { eng with nextTxid := ((walCommits eng.wal.bytes).foldl
      (fun next txid => if txid + 1 > next then txid + 1 else next) eng.nextTxid) }) = _
    rw [hnext]
  have hend : Storable ps { eng with wal := eng.wal.atEnd } L :=
    ⟨⟨⟨h.pages, h.pageSize, h.locks, h.fits, h.ids⟩, h.mvcc⟩, h.neat.same rfl rfl,
      h.filed.congr rfl rfl rfl rfl rfl rfl, h.words⟩
  simp only [Engine.walRecover, hcollect]
  exact hend.replay htxns hlocks hc hup

/-! ## Sessions -/

/-- What a close forgets: the open transactions, those that were rolled back, and the locks. -/
def forgotten (eng : Engine) : Engine := { eng with txns := [], lockMgr := [] }

/-- The log has a delete of the key by a committed transaction. -/
def DeleteLogged (eng : Engine) (key : Bytes) : Prop :=
  DeletedIn (walCommits eng.wal.bytes) (walRecords eng.wal.bytes) key

/-- Recovery repeats a delete of the key: it is in the log, and the chain page takes a tombstone. -/
def Lost (eng : Engine) (key : Bytes) : Prop :=
  eng.DeleteLogged key ∧ eng.roomFor key chainEntryHeaderSize = true

/-- The database opens with its page size, and its counter is a word. -/
structure Reopens (ps : Nat) (eng : Engine) : Prop where
  next : Fits32 eng.nextTxid
  size : ps = defaultPageSize ∨ maxPageSize ≤ eng.storageClose.pool.file.size

/-- The engines of a database through its sessions: it is created, called, closed clean and opened. -/
inductive Sessions (lz4 : Lz4) (ps : Nat) : Engine → Prop
  | create {eng : Engine} : Created ps eng → Fits32 eng.compression ∧ Fits32 eng.maxTxns →
    Sessions lz4 ps eng
  | call {op : EngineOp} {eng eng' : Engine} : Sessions lz4 ps eng → eng.step lz4 op = some eng' →
    Proper lz4 eng eng' op → eng.CommitsOwn op → Sessions lz4 ps eng'
  | reopen {env : PoolEnv} {eng eng' : Engine} : Sessions lz4 ps eng → eng.Reopens ps → env.Serves →
    engineOpen lz4 eng.storageClose.pool.file eng.storageClose.wal.bytes env = some (true, eng') →
    Sessions lz4 ps eng'

/-- Between two calls of a session. -/
structure Standing (ps : Nat) (eng : Engine) (L : Layout) : Prop extends Storable ps eng L where
  logged : Logged eng L

/-- The database is opened again. -/
theorem Standing.reopen (lz4 : Lz4) (h : Standing ps eng L) (hre : eng.Reopens ps) {env : PoolEnv}
    (henv : env.Serves) : ∃ eng' L',
      engineOpen lz4 eng.storageClose.pool.file eng.storageClose.wal.bytes env = some (true, eng') ∧
      Standing ps eng' L' ∧ L'.root = L.root ∧ eng'.txns = [] ∧ eng'.nextTxid = eng.nextTxid ∧
      eng'.compression = eng.compression ∧ eng'.maxTxns = eng.maxTxns ∧
      Repeats eng.forgotten eng' L L' eng.DeleteLogged := by
  rw [storageClose_wal]
  obtain ⟨eng₁, hload, hs, hr⟩ := h.toStorable.load hre.next hre.size henv eng.wal.bytes
  have hbytes : eng₁.wal.bytes = eng.wal.bytes := by
    rw [hr.wal]
    rfl
  have hc : ∀ txid ∈ walCommits eng₁.wal.bytes, txid < eng₁.nextTxid := by
    rw [hbytes, hr.nextTxid]
    exact fun txid hm => (h.logged.commits txid hm).2
  have hup : ∀ data ∈ walRecords eng₁.wal.bytes, recKind data = WalKind.update.code →
      recTxid data ∈ walCommits eng₁.wal.bytes → ∀ key, recKey data = some key →
        L.lookup key ≠ none := by
    rw [hbytes]
    exact fun data hd hk hm =>
      h.logged.updates data hd hk (Int.ne_of_gt (h.logged.commits _ hm).1)
  obtain ⟨eng', L', hrec, hdone, hrep⟩ := hs.walRecover lz4 hr.txns hr.lockMgr hc hup
  have hk := hdone.keeps
  have hlookup : L'.lookup = L.lookup := by
    funext key
    rw [Layout.lookup, Layout.lookup, hdone.root]
  have hwal : eng'.wal = (walLogInit eng.wal.bytes).atEnd := by
    rw [hk.wal, hr.wal]
  have hbytes' : eng'.wal.bytes = eng.wal.bytes := by
    rw [hwal]
    rfl
  have hlog : Logged eng' L' := by
    refine ⟨?_, ?_, ?_, ?_⟩
    · rw [hwal]
      exact ⟨h.logged.whole.bytes, h.logged.whole.bytes, le_rfl⟩
    · rw [hbytes', hlookup]
      exact h.logged.updates
    · rw [hbytes', hk.nextTxid, hr.nextTxid]
      exact h.logged.commits
    · rw [hk.nextTxid, hr.nextTxid]
      exact h.logged.next
  refine ⟨eng', L', ?_, ⟨hdone.storable, hlog⟩, hdone.root, hk.idle hr.txns,
    hk.nextTxid.trans hr.nextTxid, hk.compression.trans hr.compression, hk.maxTxns.trans hr.maxTxns,
    ?_⟩
  · rw [engineOpen, hload]
    exact hrec
  · rw [hbytes] at hrep
    have hload : Repeats eng.forgotten { eng₁ with wal := eng₁.wal.atEnd } L L fun _ => False := by
      refine ⟨fun _ hf => hf.elim, fun key _ => ⟨?_, ?_⟩⟩
      · rw [Mvcc.State.committed, Mvcc.State.committed, active_store, active_store]
        simp only [activeTxns, hr.txns]
        rfl
      · show eng₁.roomFor key chainEntryHeaderSize = eng.roomFor key chainEntryHeaderSize
        exact h.toSound.roomFor_congr hs.toSound rfl rfl _
    exact hload.trans hrep fun key => (or_iff_right not_false).symm

theorem Sessions.standing {eng : Engine} (h : Sessions lz4 ps eng) : ∃ L, Standing ps eng L := by
  induction h with
  | create h0 hw => exact ⟨.new, h0.storable hw, h0.logged⟩
  | call _ hs hp hown ih =>
    obtain ⟨L, h⟩ := ih
    obtain ⟨L', hi, hlog⟩ := h.logged.call h.toInv hs hp hown
    exact ⟨L', h.toStorable.of_inv hs hp hi, hlog⟩
  | @reopen _ _ _ _ hre henv hopen ih =>
    obtain ⟨L, h⟩ := ih
    obtain ⟨eng', L', hopen', hs, -⟩ := h.reopen lz4 hre henv
    rw [hopen'] at hopen
    cases hopen
    exact ⟨L', hs⟩

theorem Inv.forgotten (h : Inv ps eng L) : Inv ps eng.forgotten L := by
  have hs : Sound ps eng.forgotten L :=
    ⟨h.pages, h.pageSize, ⟨List.nodup_nil, by simp [Engine.forgotten]⟩,
      by simp [Engine.forgotten], h.ids⟩
  apply hs.idle rfl rfl
  intro key v hv
  exact h.mvcc.versions hv

/-- A transaction that begins reads what is committed. -/
theorem Inv.begun (h : Inv ps eng L) (hb : eng.Begins txn eng') (hf : Fits32 txn) :
    Inv ps eng' L ∧ eng'.txnIsActive txn = true ∧
      ∀ key, (eng'.store L).read txn key = (eng.store L).committed key := by
  obtain ⟨hi, rfl, hst⟩ := h.begin hb hf
  refine ⟨hi, ?_, fun key => ?_⟩
  · rw [hi.live_iff, hst]
    exact Mvcc.State.live_begin.mpr (.inr rfl)
  · rw [hst]
    exact h.mvcc.read_begin key

/-- No key of the tree is empty. -/
theorem Inv.lookup_nil (h : Inv ps eng L) (hpos : key.length = 0) : L.lookup key = none := by
  by_contra hne
  obtain ⟨v, hv⟩ := Option.ne_none_iff_exists'.mp hne
  have hlen := (h.pages.keyLen _ (SortedAssoc.mem_of_lookup hv)).1
  simp only at hlen
  omega

/-- `garry_storage_exists` for every key. -/
theorem Inv.storageExists_key (h : Inv ps eng L) (hact : eng.txnIsActive txn = true) (key : Bytes) :
    eng.storageExists txn key = some ((eng.store L).read txn key).isSome := by
  by_cases hpos : key.length = 0
  · have hempty := h.pages.empty (h.lookup_nil hpos)
    rw [Engine.storageExists, if_pos hpos]
    simp [Mvcc.State.read, store, hempty, chainOf, Mvcc.read, Mvcc.newest]
  · exact h.storageExists hact (Nat.pos_of_ne_zero hpos)

/-- The calls on a key that the transaction does not see. -/
theorem Inv.reads_none (h : Inv ps eng L) (hact : eng.txnIsActive txn = true)
    (hnone : (eng.store L).read txn key = none) : eng.storageGet lz4 txn key = some none ∧
      eng.storageExists txn key = some false ∧ eng.storageData txn key = some .notFound := by
  refine ⟨?_, ?_, ?_⟩
  · rw [h.storageGet_key lz4 hact, hnone]
    simp
  · rw [h.storageExists_key hact, hnone]
    rfl
  · by_cases hpos : key.length = 0
    · rw [Engine.storageData, if_pos hpos]
    · rw [h.storageData txn (Nat.pos_of_ne_zero hpos), hnone]
      rfl

end Engine

/-- Calls that are no commits. -/
theorem Engine.Sessions.calls {lz4 : Lz4} {ps : Nat} {eng eng' : Engine} {ops : List EngineOp}
    (h : Sessions lz4 ps eng) (hops : ∀ op ∈ ops, ∀ txn, op ≠ .commit txn)
    (hr : eng.runCalls lz4 ops = some eng') : Sessions lz4 ps eng' := by
  induction ops generalizing eng with
  | nil =>
    cases hr
    exact h
  | cons op ops ih =>
    rw [runCalls] at hr
    obtain ⟨eng₁, hs, hr⟩ := Option.bind_eq_some_iff.mp hr
    split at hr
    · next hp =>
      have hcall := h.call hs (proper_of_isProper hp) fun txn he =>
        absurd he (hops op List.mem_cons_self txn)
      exact ih hcall (fun op hm => hops op (List.mem_cons_of_mem _ hm)) hr
    · cases hr

theorem Engine.sessions_newDefault {eng : Engine} (h : newDefault = some eng) :
    Sessions .stored defaultPageSize eng := by
  have hwords : newDefault.map (fun eng => decide (Fits32 eng.compression ∧ Fits32 eng.maxTxns)) =
      some true := by
    decide +kernel
  rw [h] at hwords
  exact .create (created_newDefault h) (of_decide_eq_true (Option.some.inj hwords))

instance (eng : Engine) (key : Bytes) : Decidable (eng.DeleteLogged key) :=
  inferInstanceAs (Decidable (∃ data ∈ walRecords eng.wal.bytes, _ ∧ _ ∧ _))

instance (eng : Engine) (key : Bytes) : Decidable (eng.Lost key) :=
  inferInstanceAs (Decidable (eng.DeleteLogged key ∧ _))

/-- A transaction sets two keys, deletes the second one and sets it again. -/
def setAgain : Option Engine :=
  Engine.newDefault.bind fun eng => eng.runCalls .stored
    [.begin, .set 1 [107] [1], .set 1 [108] [1], .delete 1 [108], .set 1 [108] [2]]

open Engine in
theorem setAgain_committed : setAgain.bind (fun eng =>
    (eng.runCalls .stored [.commit 1]).map fun eng₁ =>
      decide (eng.nextTxid = 2 ∧ eng₁.nextTxid = 2 ∧ 0 < eng₁.maxTxns ∧ ¬ eng₁.Lost [107] ∧
        eng₁.Lost [108] ∧
        eng₁.forgotten.storageBegin.2.storageGet .stored 2 [107] = some (some [1]) ∧
        eng₁.forgotten.storageBegin.2.storageGet .stored 2 [108] = some (some [2]))) = some true := by
  decide +kernel

end Garry
