import Garry.Verify.Durability
import Garry.Verify.TornLog

/-!
# What recovery makes of a log

A database that was closed clean is opened with some other log: the process stopped before it wrote
a page, or the data file is an older copy. Key by key the replay is a small machine. The first
committed update brings a key into the tree, later updates of it do nothing, and a delete hides the
value that the key has.
-/

namespace Garry

open ByteStore

/-! ## The replay of one key -/

/-- A key in the replay: it is not in the tree, or it has a committed value, or none, and its chain
page takes a tombstone or not. -/
inductive KeyState
  | absent
  | present (value : Option Bytes) (room : Bool)
deriving DecidableEq

namespace KeyState

def value : KeyState → Option Bytes
  | absent => none
  | present value _ => value

/-- A record of the key by a committed transaction. -/
def step (s : KeyState) (record : WalRecord) : KeyState :=
  match record.kind, s with
  | .update, absent => present (some record.newData) true
  | .delete, present _ true => present none true
  | _, s => s

/-- The records of a log. -/
def replay (committed : List Int) (key : Bytes) (s : KeyState) (records : List WalRecord) :
    KeyState :=
  (records.filter fun record => decide (record.txid ∈ committed ∧ record.key = key)).foldl step s

theorem replay_cons (committed : List Int) (key : Bytes) (s : KeyState) (record : WalRecord)
    (records : List WalRecord) : s.replay committed key (record :: records) =
      (s.replay committed key [record]).replay committed key records := by
  rw [replay, replay, replay, ← List.singleton_append, List.filter_append, List.foldl_append]

theorem replay_other {committed : List Int} {key : Bytes} {record : WalRecord}
    (h : ¬ (record.txid ∈ committed ∧ record.key = key)) (s : KeyState) :
    s.replay committed key [record] = s := by
  rw [replay, List.filter_cons_of_neg (by simpa using h)]
  rfl

theorem replay_one {committed : List Int} {key : Bytes} {record : WalRecord}
    (h : record.txid ∈ committed ∧ record.key = key) (s : KeyState) :
    s.replay committed key [record] = s.step record := by
  rw [replay, List.filter_cons_of_pos (by simpa using h)]
  rfl

end KeyState

/-- The transactions with a commit record. -/
def commitIds (records : List WalRecord) : List Int :=
  (records.filter fun record => decide (record.kind = .commit)).map WalRecord.txid

/-- A record as the calls write it, with a value that needs no overflow pages. -/
structure WalRecord.Plain (record : WalRecord) : Prop where
  txid : 0 < record.txid ∧ record.txid < 2147483647
  key : record.key.length ≤ 255
  update : record.kind = .update → 0 < record.key.length ∧ record.newData.length ≤ byteArraySize ∧
    record.valueLen = record.newData.length ∧ record.newIsOverflow = false

theorem WalRecord.Plain.fits {record : WalRecord} (h : record.Plain) : Fits32 record.txid :=
  ⟨by have := h.txid; omega, by have := h.txid; omega⟩

theorem WalRecord.Plain.recKey {record : WalRecord} (h : record.Plain) :
    Engine.recKey record.encode = some record.key :=
  record.recKey_encode (h.key.trans (by decide))

/-- A short update holds its key and value. -/
theorem WalRecord.Plain.holds {record : WalRecord} (h : record.Plain) (hk : record.kind = .update) :
    (LogEntry.set record.txid record.key record.newData).In record.encode := by
  obtain ⟨-, hlen, hval, hover⟩ := h.update hk
  have hfit : Fits32 record.newData.length := by
    simp only [byteArraySize] at hlen
    exact ⟨by omega, by omega⟩
  refine in_update hk h.fits (h.key.trans (by decide)) hval hfit ?_
  rw [if_pos hlen]
  exact ⟨hover, rfl⟩

theorem walCommits_walBytes {records : List WalRecord} (h : ∀ r ∈ records, r.Plain) :
    walCommits (walBytes records) = commitIds records := by
  have hkind : ∀ r ∈ records, decide (recKind r.encode = WalKind.commit.code) =
      decide (r.kind = .commit) := by
    intro r _
    rw [recKind_encode]
    cases r.kind <;> rfl
  rw [walCommits, walRecords_walBytes, commitIds, List.filter_map, List.map_map,
    ← List.filter_congr hkind]
  exact List.map_congr_left fun r hm => recTxid_encode (h r (List.mem_of_mem_filter hm)).fits

namespace Engine

variable {lz4 : Lz4} {ps : Nat} {eng eng' : Engine} {L L' : Layout}

/-! ## A key that is not in the tree -/

theorem nextPage_mvccSet (h : value.length ≤ chainInlineCapacity eng.pageSize) (txn cid : Int) :
    (eng.mvccSet txn cid value).2.pool.nextPage = eng.pool.nextPage := by
  rw [Engine.mvccSet]
  split
  · rfl
  · rw [if_neg (Nat.not_lt.mpr h)]
    split
    · rfl
    · rfl

theorem committed_idle (htxns : eng.txns = []) (key : Bytes) :
    (eng.store L).committed key = ((eng.store L).chain key).head?.bind Mvcc.Version.value := by
  have hactive : (eng.store L).active = [] := by simp [activeTxns, htxns]
  rw [Mvcc.State.committed, hactive]
  cases (eng.store L).chain key with
  | nil => rfl
  | cons v chain => exact Mvcc.newest_cons_of_pos (by simp)

/-- A key that recovery has brought into the tree, before its value is stored. -/
structure Brought (ps : Nat) (eng eng' : Engine) (L L' : Layout) (cid : Int) (key : Bytes) :
    Prop where
  sound : Sound ps eng' L'
  neat : Neat ps eng'
  keeps : eng.Keeps eng'
  lockMgr : eng'.lockMgr = eng.lockMgr
  own : L'.own cid = some (.chain key)
  room : ∀ value, pageRoom (eng'.pool.pages cid) (versionSize ps value) = true
  store : eng'.store L' = eng.store L
  lookup : ∀ k, L'.lookup k = if k = key then some (encodeDescriptor cid false) else L.lookup k
  next : eng'.pool.nextPage ≤ eng.pool.nextPage + 65

theorem Storable.bring (h : Storable ps eng L) {key : Bytes} (hkey : 0 < key.length ∧ key.length ≤ 255)
    (hids : eng.pool.nextPage + 130 ≤ pageIdLimit) (hl : L.lookup key = none)
    (hraw : eng.compression ≠ compressLz4) (txid : Int) (val : Bytes) : ∃ cid eng' L',
      Brought ps eng eng' L L' cid key ∧
      eng.replayUpdate lz4 txid key val = some (eng'.mvccSet txid cid val) := by
  obtain ⟨cid, pool₁, pool₂, root', f, ha, h0, hserves, hins, hp, -, hn, -⟩ :=
    h.pages.newChain h.ids hkey.1 hkey.2 hl
  have hpin := Pool.pinPage_eq hserves h0
  have hc : eng.chainAllocate = (cid, { eng with
      pool := (pool₁.setPage cid (chainPageInit (pool₁.pages cid) ps)).markDirty cid }) := by
    simp only [chainAllocate, ha, if_neg (show ¬ cid < 0 by omega), hpin, h.pageSize]
  refine ⟨cid, { eng with pool := pool₂, btreeRoot := root' }, L.addKey key cid f, ?_, ?_⟩
  · have hsound : Sound ps { eng with pool := pool₂, btreeRoot := root' } (L.addKey key cid f) := by
      refine ⟨hp, h.pageSize, h.locks, h.fits, ?_⟩
      simp only [HasIds]
      omega
    have hown := L.own_addKey_self key cid f
    refine ⟨hsound, ?_, keeps_tree (hp.pageSize.trans h.pages.pageSize.symm), rfl, hown,
      hsound.roomNew hown (h.pages.empty hl), rfl, fun k => ?_, hn⟩
    · have hca := h.neat.chainAllocate
      rw [hc] at hca
      exact (hca.withPool (hca.pool.btreeInsert hins)).same rfl rfl
    · have hlist := (@BPlusTree.Root.Wf.insert _ _ _ 2 maxKeysPerNode _ (by decide) (by decide)
        (by decide) h.pages.tree.wf key (encodeDescriptor cid false)).2
      show SortedAssoc.lookup k (L.root.insert 2 maxKeysPerNode key _).toList = _
      rw [hlist, SortedAssoc.lookup_insert]
      rfl
  · rw [Engine.replayUpdate, h.pages.search, hl]
    simp only [hc, if_neg (show ¬ cid < 0 by omega), hins, if_neg hraw]

/-- The value goes to a chain page of its own, and the key into the tree. -/
theorem Storable.replayNew (h : Storable ps eng L) (htxns : eng.txns = []) (hlocks : eng.lockMgr = [])
    (hraw : eng.compression ≠ compressLz4) (hfit : Fits32 txid) (hlt : txid < eng.nextTxid)
    {key val : Bytes} (hkey : 0 < key.length ∧ key.length ≤ 255)
    (hval : val.length ≤ byteArraySize) (hids : eng.pool.nextPage + 130 ≤ pageIdLimit)
    (hl : L.lookup key = none) : ∃ eng' L', eng.replayUpdate lz4 txid key val = some (true, eng') ∧
      Storable ps eng' L' ∧ eng.Keeps eng' ∧ eng'.lockMgr = [] ∧
      eng'.pool.nextPage ≤ eng.pool.nextPage + 65 ∧ L'.lookup key ≠ none ∧
      (eng'.store L').chain key = [⟨txid, some val⟩] ∧
      ∀ k, k ≠ key → L'.lookup k = L.lookup k ∧
        (eng'.store L').chain k = (eng.store L).chain k := by
  obtain ⟨cid, eng₂, L₂, hb, hrep⟩ := h.bring hkey hids hl hraw txid val
  have hshort : val.length ≤ chainInlineCapacity eng₂.pageSize := by
    have hmin := h.pages.size.1
    rw [hb.sound.pageSize]
    simp only [byteArraySize] at hval
    simp only [chainInlineCapacity, pageHeaderSize, overflowPtrSize, chainEntryHeaderSize]
    omega
  have hfitv : Fits32 val.length := by
    simp only [byteArraySize] at hval
    exact ⟨by omega, by omega⟩
  have hnext := nextPage_mvccSet hshort txid cid
  have hn := hb.next
  have hids₂ : (eng₂.mvccSet txid cid val).2.HasIds := by
    simp only [HasIds, hnext]
    omega
  obtain ⟨ok, eng₃, L₃, heq, hw, hok⟩ := hb.sound.mvccSet hb.own hfit hfitv hids₂
  rw [hb.room] at hok
  subst hok
  have hset : eng₂.Keeps (eng₂.mvccSet txid cid val).2 := keeps_mvccSet txid cid val
  have hneat : Neat ps (eng₂.mvccSet txid cid val).2 := hb.neat.mvccSet txid cid val
  rw [heq] at hset hneat hnext
  have hk := hb.keeps.trans hset
  have hlocks' : eng₃.lockMgr = [] := hw.table.lockMgr.trans (hb.lockMgr.trans hlocks)
  have hlookup (k : Bytes) : L₃.lookup k =
      if k = key then some (encodeDescriptor cid false) else L.lookup k := by
    rw [← hb.lookup, Layout.lookup, Layout.lookup, hw.stays.root]
  have hchain (k : Bytes) : (eng₃.store L₃).chain k =
      if k = key then [⟨txid, some val⟩] else (eng.store L).chain k := by
    have hst := congrArg (fun s => s.chain k) hw.store
    simp only [if_true, hb.store, Mvcc.State.push, Function.update_apply] at hst
    rw [hst]
    simp [store, h.pages.empty hl, chainOf]
  refine ⟨eng₃, L₃, hrep.trans (congrArg some heq), h.of_keeps hk ?_ hneat, hk, hlocks', ?_, ?_, ?_,
    fun k hne => ⟨?_, ?_⟩⟩
  · apply hw.sound.idle (hk.idle htxns) hlocks'
    intro k v hv
    have hv' : v ∈ (eng₃.store L₃).chain k := hv
    rw [hk.nextTxid]
    rw [hchain] at hv'
    split at hv'
    · rw [List.mem_singleton.mp hv']
      exact hlt
    · exact h.mvcc.versions hv'
  · simp only at hnext
    omega
  · rw [hlookup, if_pos rfl]
    simp
  · rw [hchain, if_pos rfl]
  · rw [hlookup, if_neg hne]
  · rw [hchain, if_neg hne]

/-! ## The log -/

/-- The key is in the engine as the machine has it. A key without a value may have room or not. -/
inductive Shows (eng : Engine) (L : Layout) (key : Bytes) : KeyState → Prop
  | absent : L.lookup key = none → Shows eng L key .absent
  | present {value : Option Bytes} {room : Bool} : L.lookup key ≠ none →
    (eng.store L).committed key = value →
    value = none ∨ eng.roomFor key chainEntryHeaderSize = room →
    Shows eng L key (.present value room)

theorem Shows.value_eq (h : eng.Shows L key s) (hi : PagesInv ps eng.pool eng.btreeRoot L) :
    (eng.store L).committed key = s.value := by
  cases h with
  | absent hl => simp [Mvcc.State.committed, store, hi.empty hl, chainOf, Mvcc.newest, KeyState.value]
  | present _ hv _ => exact hv

theorem Shows.same (h : eng.Shows L key s) (hl : L'.lookup key = L.lookup key)
    (hc : (eng'.store L').committed key = (eng.store L).committed key)
    (hr : eng'.roomFor key chainEntryHeaderSize = eng.roomFor key chainEntryHeaderSize) :
    eng'.Shows L' key s := by
  cases h with
  | absent h => exact .absent (hl.trans h)
  | present h hv hroom => exact .present (hl ▸ h) (hc.trans hv) (hr ▸ hroom)

/-- A delete of the key. -/
theorem Shows.delete (h : eng.Shows L key s) (hl : L'.lookup key = L.lookup key)
    {record : WalRecord} (hk : record.kind = .delete) {deleted : Bytes → Prop}
    (hrep : Repeats eng eng' L L' deleted) (hd : deleted key) : eng'.Shows L' key (s.step record) := by
  cases h with
  | absent h =>
    simp only [KeyState.step, hk]
    exact .absent (hl.trans h)
  | @present value room h hv hroom =>
    by_cases hyes : eng.roomFor key chainEntryHeaderSize = true
    · have hnone := hrep.absent key hd hyes
      cases room with
      | true =>
        simp only [KeyState.step, hk]
        exact .present (hl ▸ h) hnone (.inl rfl)
      | false =>
        simp only [KeyState.step, hk]
        rcases hroom with rfl | hno
        · exact .present (hl ▸ h) hnone (.inl rfl)
        · rw [hyes] at hno
          cases hno
    · obtain ⟨hc, hr⟩ := hrep.stays key fun hlost => hyes hlost.2
      cases room with
      | true =>
        simp only [KeyState.step, hk]
        have hnone := hroom.resolve_right hyes
        exact .present (hl ▸ h) (hc.trans (hv.trans hnone)) (.inl rfl)
      | false =>
        simp only [KeyState.step, hk]
        exact .present (hl ▸ h) (hc.trans hv) (hr ▸ hroom)

/-- A record that brings no key into the tree and is no delete does nothing. -/
theorem Shows.skip (h : eng.Shows L key s) {record : WalRecord} (hk : record.kind ≠ .delete)
    (hnew : record.kind = .update → L.lookup key ≠ none) : s.step record = s := by
  cases h with
  | absent hl =>
    cases hkind : record.kind with
    | update => exact absurd hl (hnew hkind)
    | delete => exact absurd hkind hk
    | _ => simp only [KeyState.step, hkind]
  | present _ _ _ =>
    cases hkind : record.kind with
    | delete => exact absurd hkind hk
    | _ => simp only [KeyState.step, hkind]

/-- What the replay of records keeps, with so many page ids. -/
structure Replayed (ps : Nat) (eng eng' : Engine) (L' : Layout) (n : Nat) : Prop where
  storable : Storable ps eng' L'
  keeps : eng.Keeps eng'
  lockMgr : eng'.lockMgr = []
  next : eng'.pool.nextPage ≤ eng.pool.nextPage + 65 * n

/-- One record is a step of the machine of every key. -/
theorem Storable.replayPlain (lz4 : Lz4) (h : Storable ps eng L) (htxns : eng.txns = [])
    (hlocks : eng.lockMgr = []) (hraw : eng.compression ≠ compressLz4) {committed : List Int}
    (hc : ∀ txid ∈ committed, txid < eng.nextTxid) {record : WalRecord} (hp : record.Plain)
    (hids : eng.pool.nextPage + 130 ≤ pageIdLimit) :
    ∃ eng' L', eng.replayRecord lz4 committed record.encode = some (true, eng') ∧
      Replayed ps eng eng' L' 1 ∧
      ∀ key s, eng.Shows L key s → eng'.Shows L' key (s.replay committed key [record]) := by
  by_cases hnew : record.kind = .update ∧ record.txid ∈ committed ∧ L.lookup record.key = none
  · obtain ⟨hk, hm, hl⟩ := hnew
    obtain ⟨hpos, hlen, -⟩ := hp.update hk
    have hin := hp.holds hk
    obtain ⟨eng', L', heq, hs, hkeeps, hlocks', hn, hl', hown, hother⟩ := h.replayNew htxns hlocks hraw
      hp.fits (hc _ hm) ⟨hpos, hp.key⟩ hlen hids hl
    refine ⟨eng', L', ?_, ⟨hs, hkeeps, hlocks', by omega⟩, fun key s hshow => ?_⟩
    · rw [replayRecord_update hin hm (hin.recValue hlen _)]
      exact heq
    · by_cases hkey : record.key = key
      · subst hkey
        rw [KeyState.replay_one ⟨hm, rfl⟩]
        cases hshow with
        | present hne _ _ => exact absurd hl hne
        | absent _ =>
          simp only [KeyState.step, hk]
          refine .present hl' ?_ (.inr ?_)
          · rw [committed_idle (hkeeps.idle htxns), hown]
            rfl
          · obtain ⟨v, hv⟩ := Option.ne_none_iff_exists'.mp hl'
            rw [hs.toSound.roomFor_eq hv, hown, chainRoom, decide_eq_true_iff]
            have hmin := h.pages.size.1
            simp only [byteArraySize] at hlen
            have hsize : versionLength ps ⟨record.txid, some record.newData⟩ ≤ 270 := by
              simp only [versionLength, Option.elim_some, versionSize, chainEntryHeaderSize,
                overflowPtrSize]
              split <;> omega
            simp only [List.map_cons, List.map_nil, List.sum_cons, List.sum_nil, List.length_cons,
              List.length_nil, maxSlots, pageHeaderSize, slotSize, chainEntryHeaderSize]
            omega
      · rw [KeyState.replay_other fun hr => hkey hr.2]
        obtain ⟨hlook, hchain⟩ := hother key fun e => hkey e.symm
        refine hshow.same hlook ?_ (h.toSound.roomFor_congr hs.toSound hlook hchain _)
        rw [committed_idle (hkeeps.idle htxns), committed_idle htxns, hchain]
  · have hup : recKind record.encode = WalKind.update.code → recTxid record.encode ∈ committed →
        ∀ key, recKey record.encode = some key → L.lookup key ≠ none := by
      intro hk hm key hkey hl
      rw [recTxid_encode hp.fits] at hm
      rw [hp.recKey] at hkey
      cases hkey
      refine hnew ⟨?_, hm, hl⟩
      rw [recKind_encode] at hk
      cases hkind : record.kind with
      | update => rfl
      | _ =>
        rw [hkind] at hk
        cases hk
    obtain ⟨eng', L', heq, hr, hrep⟩ := h.replayRecord htxns hlocks hc hup
    have hlook (key : Bytes) : L'.lookup key = L.lookup key := by
      rw [Layout.lookup, Layout.lookup, hr.root]
    have hdel (key : Bytes) : DeletedIn committed [record.encode] key ↔
        record.kind = .delete ∧ record.txid ∈ committed ∧ record.key = key := by
      simp only [DeletedIn, List.mem_singleton, exists_eq_left, recKind_encode,
        recTxid_encode hp.fits, hp.recKey, Option.some.injEq]
      cases record.kind <;> simp [WalKind.code]
    refine ⟨eng', L', heq, ⟨hr.storable, hr.keeps, hr.lockMgr, by have := hr.next; omega⟩,
      fun key s hshow => ?_⟩
    by_cases hd : record.kind = .delete ∧ record.txid ∈ committed ∧ record.key = key
    · rw [KeyState.replay_one hd.2]
      exact hshow.delete (hlook key) hd.1 hrep ((hdel key).mpr hd)
    · obtain ⟨hcom, hroom⟩ := hrep.stays key fun hlost => hd ((hdel key).mp hlost.1)
      have hs : s.replay committed key [record] = s := by
        by_cases hmine : record.txid ∈ committed ∧ record.key = key
        · rw [KeyState.replay_one hmine]
          obtain ⟨hm, rfl⟩ := hmine
          exact hshow.skip (fun hk => hd ⟨hk, hm, rfl⟩) fun hk hl => hnew ⟨hk, hm, hl⟩
        · exact KeyState.replay_other hmine s
      rw [hs]
      exact hshow.same (hlook key) hcom hroom

/-- The records of a log are a run of the machine of every key. -/
theorem Storable.replayLog (lz4 : Lz4) (h : Storable ps eng L) (htxns : eng.txns = [])
    (hlocks : eng.lockMgr = []) (hraw : eng.compression ≠ compressLz4) {committed : List Int}
    (hc : ∀ txid ∈ committed, txid < eng.nextTxid) {records : List WalRecord}
    (hp : ∀ r ∈ records, r.Plain)
    (hids : eng.pool.nextPage + 65 * (records.length + 1 : Nat) ≤ pageIdLimit) :
    ∃ eng' L', eng.replay lz4 committed (records.map WalRecord.encode) = some (true, eng') ∧
      Replayed ps eng eng' L' records.length ∧
      ∀ key s, eng.Shows L key s → eng'.Shows L' key (s.replay committed key records) := by
  induction records generalizing eng L with
  | nil => exact ⟨eng, L, rfl, ⟨h, .refl, hlocks, by simp⟩, fun key s hs => hs⟩
  | cons record records ih =>
    rw [List.length_cons] at hids
    obtain ⟨eng₁, L₁, h₁, hr₁, hshow₁⟩ := h.replayPlain lz4 htxns hlocks hraw hc
      (hp record List.mem_cons_self) (by omega)
    have hn₁ := hr₁.next
    obtain ⟨eng₂, L₂, h₂, hr₂, hshow₂⟩ := ih hr₁.storable (hr₁.keeps.idle htxns) hr₁.lockMgr
      (hr₁.keeps.compression ▸ hraw) (hr₁.keeps.nextTxid ▸ hc)
      (fun r hr => hp r (List.mem_cons_of_mem _ hr)) (by omega)
    have hn₂ := hr₂.next
    refine ⟨eng₂, L₂, ?_, ⟨hr₂.storable, hr₁.keeps.trans hr₂.keeps, hr₂.lockMgr, ?_⟩,
      fun key s hs => ?_⟩
    · rw [List.map_cons, Engine.replay, h₁]
      exact h₂
    · rw [List.length_cons]
      omega
    · rw [KeyState.replay_cons]
      exact hshow₂ key _ (hshow₁ key s hs)

/-- The key as a transaction finds it. -/
def keyState (lz4 : Lz4) (eng : Engine) (txn : Int) (key : Bytes) : KeyState :=
  match leafFindSearch eng.pool eng.btreeRoot key with
  | some (some _) =>
    .present (eng.storageGet lz4 txn key).join (eng.roomFor key chainEntryHeaderSize)
  | _ => .absent

theorem Inv.shows (lz4 : Lz4) (h : Inv ps eng L) (hact : eng.txnIsActive txn = true)
    (hraw : eng.compression ≠ compressLz4) (hs : Sound ps eng' L)
    (hc : (eng'.store L).committed key = (eng.store L).read txn key) :
    eng'.Shows L key (keyState lz4 eng txn key) := by
  rw [keyState, h.pages.search]
  cases hl : L.lookup key with
  | none => exact .absent hl
  | some v =>
    have hlen := (h.pages.keyLen _ (SortedAssoc.mem_of_lookup hl)).1
    have hshown : eng.shown lz4 = some := shown_of_raw hraw lz4
    refine .present (by simp [hl]) ?_ (.inr (h.toSound.roomFor_congr hs rfl rfl _))
    rw [hc, h.storageGet_key lz4 hact, if_neg (Nat.ne_of_gt hlen), hshown, Option.bind_fun_some]
    rfl

end Engine

/-- A transaction sets one key twice, and another one that it deletes again. -/
def twoKeyLog : List WalRecord :=
  let set (key value : Bytes) : WalRecord := {
    kind := .update
    txid := 1
    key := key
    valueLen := value.length
    newData := value
    newIsOverflow := false
    newOverflowHead := 0 }
  [set [107] [1], set [108] [2], set [107] [3], makeDeleteRecord 1 [108], makeCommitRecord 1]

end Garry
