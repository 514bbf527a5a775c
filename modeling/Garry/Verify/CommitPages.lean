import Garry.Verify.ChainRoom
import Garry.Verify.GcSweep

/-!
# The pages of a commit

A transaction records the chain pages that it appends to, sixteen of them, and its commit writes these
to the file. Overflow pages are written at once.
-/

namespace Garry

open ByteStore

/-! ## Overflow pages of a chain page -/

/-- The pages of which `garry_overflow_read` reads `remaining` bytes. -/
def overflowChain (pool : Pool) : Nat → Int → Nat → List Int
  | 0, _, _ => []
  | fuel + 1, pid, remaining =>
    if remaining = 0 ∨ pid < 0 then []
    else
      pid :: overflowChain pool fuel (readInt32 (pool.pages pid) pageHeaderSize)
        (remaining - min (overflowChunkSize pool.pageSize) remaining)

/-- The overflow pages of the value of a version. -/
def valuePages (pool : Pool) (v : VersionRecord) : List Int :=
  if v.isOverflow then overflowChain pool v.valueLen.toNat (readInt32 v.rest 0) v.valueLen.toNat
  else []

/-- The overflow pages of the values on a chain page. -/
def chainOverflow (pool : Pool) (cid : Int) : List Int :=
  (List.range (pageRecordCount (pool.pages cid)).toNat).flatMap fun i =>
    match pageGet (pool.pages cid) i pool.pageSize with
    | none => []
    | some recData => valuePages pool (readVersion recData)

variable {ps : Nat} {pool pool' : Pool}

theorem OverflowAt.chain {l : List Int} {value : Bytes}
    (h : OverflowAt pool.pageSize pool.pages l head value)
    (hc : 0 < overflowChunkSize pool.pageSize) (hf : value.length ≤ fuel) :
    overflowChain pool fuel head value.length = l := by
  induction fuel generalizing l head value with
  | zero =>
    obtain rfl : value = [] := List.eq_nil_of_length_eq_zero (Nat.le_zero.mp hf)
    cases l with
    | nil => rfl
    | cons p l => exact absurd rfl h.2.2.1
  | succ fuel ih =>
    rw [overflowChain]
    cases l with
    | nil => rw [if_pos (.inl (by rw [h.2]; rfl))]
    | cons p l =>
      obtain ⟨rfl, h0, hne, -, hrest⟩ := h
      have hpos : 0 < value.length := List.length_pos_iff.mpr hne
      have hlen : (value.drop (overflowChunkSize pool.pageSize)).length =
          value.length - min (overflowChunkSize pool.pageSize) value.length := by
        rw [List.length_drop]
        omega
      have hr := ih hrest (by omega)
      rw [if_neg (by omega), ← hlen, hr]

theorem VersionAt.valuePages {v : StoredVersion} {recData : Bytes}
    (h : VersionAt pool.pageSize pool.pages v recData) (hc : 0 < overflowChunkSize pool.pageSize) :
    valuePages pool (readVersion recData) = v.pages := by
  have h0 : Fits32 0 := by decide
  cases h with
  | tombstone txid ht =>
    have hr := readVersion_header ht h0 h0 1 0 []
    rw [List.append_nil] at hr
    rw [hr]
    rfl
  | inline txid value ht hl hle =>
    rw [readVersion_header ht h0 hl 0 0 value]
    rfl
  | overflow txid head value l ht hl hh hlt ho =>
    have hhead : readInt32 (Bytes.toBuffer (word32 head)) 0 = head := by
      have := readInt32_toBuffer [] [] hh
      simpa using this
    rw [readVersion_header ht h0 hl 0 1 (word32 head), Garry.valuePages]
    simp only [hhead, Int.toNat_natCast]
    exact (if_pos rfl).trans (ho.chain hc le_rfl)

/-- The overflow pages of a chain page are those of the versions that it holds. -/
theorem ChainAt.chainOverflow {vs : List StoredVersion}
    (h : ChainAt pool.pageSize pool.pages cid vs) (hc : 0 < overflowChunkSize pool.pageSize) :
    chainOverflow pool cid = overflowPages vs := by
  obtain ⟨recs, H, hr⟩ := h.records
  have hlist : (List.range recs.length).flatMap (fun i =>
      match recs[i]? with
      | none => []
      | some recData => Garry.valuePages pool (readVersion recData)) = overflowPages vs := by
    clear H h
    induction hr with
    | nil => rfl
    | @cons v recData vs recs hv _ ih =>
      rw [List.length_cons, List.range_succ_eq_map, List.flatMap_cons, List.flatMap_map]
      simp only [List.getElem?_cons_zero, List.getElem?_cons_succ]
      rw [ih, hv.valuePages hc]
      rfl
  rw [Garry.chainOverflow, pageRecordCount, H.count, Int.toNat_natCast, ← hlist]
  simp only [pageGet_eq H]

/-! ## The table of transactions -/

/-- The entry with one chain page more, if there is room. -/
def TxnInfo.remember (cid : Int) (info : TxnInfo) : TxnInfo :=
  { info with
    modifiedPages :=
      if info.modifiedPages.length < maxModifiedPages then info.modifiedPages ++ [cid]
      else info.modifiedPages }

theorem find?_updateTxn {f : TxnInfo → TxnInfo} (hf : ∀ info, (f info).txid = info.txid)
    (txns : List TxnInfo) (t txn : Int) :
    (updateTxn f t txns).find? (fun info => info.txid = txn) =
      if t = txn then (txns.find? fun info => info.txid = txn).map f
      else txns.find? fun info => info.txid = txn := by
  induction txns with
  | nil =>
    split
    · rfl
    · rfl
  | cons info txns ih =>
    rw [updateTxn, List.find?_cons]
    by_cases hinfo : info.txid = t
    · subst hinfo
      rw [if_pos rfl, List.find?_cons, hf]
      by_cases htxn : info.txid = txn
      · simp only [htxn, decide_true, if_true, Option.map_some]
      · simp only [htxn, decide_false, if_false]
    · rw [if_neg hinfo, List.find?_cons, ih]
      by_cases htxn : info.txid = txn
      · have hne : ¬ t = txn := fun e => hinfo (htxn.trans e.symm)
        simp only [htxn, decide_true, if_neg hne]
      · simp only [htxn, decide_false]

namespace Engine

variable {lz4 : Lz4} {eng eng' eng₀ : Engine} {L L' : Layout}

/-- The chain pages that the entry of a transaction records. -/
def modified (eng : Engine) (txn : Int) : List Int :=
  (eng.findTxn txn).elim [] TxnInfo.modifiedPages

theorem mvccDelete_txns {ok : Bool} (h : eng.mvccDelete txn cid = (ok, eng')) :
    eng'.txns = if ok then updateTxn (TxnInfo.remember cid) txn eng.txns else eng.txns := by
  rw [mvccDelete] at h
  split at h
  · cases h
    rfl
  split at h
  · cases h
    rfl
  · cases h
    rfl

theorem mvccSet_txns {ok : Bool} (h : eng.mvccSet txn cid value = (ok, eng')) :
    eng'.txns = if ok then updateTxn (TxnInfo.remember cid) txn eng.txns else eng.txns := by
  rw [mvccSet] at h
  split at h
  · cases h
    rfl
  split at h
  · simp only at h
    split at h
    · cases h
      rfl
    split at h
    · cases h
      rfl
    · cases h
      rfl
  · split at h
    · cases h
      rfl
    · cases h
      rfl

theorem setVersion_txns {ok newKey : Bool} {key value : Bytes}
    (h : eng.setVersion lz4 txn cid key value newKey = (ok, eng')) :
    eng'.txns = if ok then updateTxn (TxnInfo.remember cid) txn eng.txns else eng.txns := by
  rw [setVersion] at h
  generalize makeUpdateRecord eng.pool txn key value = made at h
  obtain ⟨record, pool⟩ := made
  simp only at h
  have htxns : (({ eng with pool := pool } : Engine).appendMade record).txns = eng.txns := by
    cases record <;> rfl
  generalize ({ eng with pool := pool } : Engine).appendMade record = eng₁ at h htxns
  split at h
  · cases h
    exact htxns
  · next v _ =>
    have hset (ok₁ : Bool) (eng₂ : Engine) (hset : eng₁.mvccSet txn cid v = (ok₁, eng₂)) := mvccSet_txns hset
    generalize eng₁.mvccSet txn cid v = done at h hset
    obtain ⟨ok₁, eng₂⟩ := done
    have htxns₂ := hset ok₁ eng₂ rfl
    rw [htxns] at htxns₂
    cases ok₁ with
    | true =>
      cases h
      exact htxns₂
    | false =>
      cases h
      exact htxns₂

/-- The chain page of a key is found through the tree. -/
theorem Sound.keyChain_of_own (h : Sound ps eng L) {key : Bytes} (hpos : 0 < key.length)
    (hc : L.own cid = some (.chain key)) : eng.keyChain key = some cid := by
  have hr := h.pages.range hc
  have hn := h.next_le
  rw [keyChain, if_neg (Nat.ne_of_gt hpos), h.pages.search, (h.pages.chain hc).1]
  simp only [Option.join_some, Option.map_some]
  rw [decodeCidFromDescriptor_encode hr.1 (by omega), Option.filter_some,
    if_pos (decide_eq_true hr.1)]

/-- What a call that writes a key does to the table: with success the entry of the transaction records
the chain page of the key. -/
structure Records (eng eng' : Engine) (txn : Int) (key : Bytes) (ok : Bool) : Prop where
  failed : ok = false → eng'.txns = eng.txns
  done : ok = true → eng.txnIsActive txn = true ∧ ∃ cid, eng'.keyChain key = some cid ∧
    eng'.txns = updateTxn (TxnInfo.remember cid) txn eng.txns

theorem Records.rejected {key : Bytes} : Records eng eng txn key false :=
  ⟨fun _ => rfl, fun hok => absurd hok Bool.false_ne_true⟩

/-- A version on the chain page of the key. -/
theorem Sound.records {key : Bytes} {ok : Bool} (h : Sound ps eng' L') (hpos : 0 < key.length)
    (hact : eng.txnIsActive txn = true) (hc : L'.own cid = some (.chain key))
    (htxns : eng'.txns =
      if ok then updateTxn (TxnInfo.remember cid) txn eng.txns else eng.txns) :
    Records eng eng' txn key ok where
  failed hok := by
    rw [htxns, hok]
    rfl
  done hok := by
    refine ⟨hact, cid, h.keyChain_of_own hpos hc, ?_⟩
    rw [htxns, hok]
    rfl

theorem Inv.set_records (h : Inv ps eng L) {key value : Bytes} {ok : Bool}
    (hkey : key.length ≤ 255) (hval : ∀ v ∈ eng.stored lz4 value, Fits32 v.length)
    (hs : eng.storageSet lz4 txn key value = some (ok, eng')) (hids : eng'.HasIds) :
    Records eng eng' txn key ok := by
  rw [storageSet] at hs
  split at hs
  · cases hs
    exact .rejected
  next hlen =>
  split at hs
  · cases hs
    exact .rejected
  next hact =>
  replace hact : eng.txnIsActive txn = true := by simpa using hact
  split at hs
  · cases hs
    exact .rejected
  next lockMgr hlock =>
  obtain ⟨-, hsound, -⟩ := h.acquire hlock
  have hfit := h.fits_of_live (h.live_iff.mp hact)
  have hdone {eng₁ : Engine} {L₁ : Layout} {cid : Int} {newKey : Bool} (h₁ : Sound ps eng₁ L₁)
      (htxns : eng₁.txns = eng.txns) (hst : eng₁.stored lz4 value = eng.stored lz4 value)
      (hc : L₁.own cid = some (.chain key))
      (hset : eng₁.setVersion lz4 txn cid key value newKey = (ok, eng')) :
      Records eng eng' txn key ok := by
    obtain ⟨ok', eng₂, L₂, heq, hw, -⟩ := h₁.setVersion hc hfit (hst ▸ hval) newKey (by rwa [hset])
    cases heq.symm.trans hset
    have hafter := setVersion_txns heq
    rw [htxns] at hafter
    exact hw.sound.records (by omega) hact (hw.stays.chain hc) hafter
  simp only at hs
  rw [hsound.pages.search] at hs
  cases hl : L.lookup key with
  | some v =>
    rw [hl] at hs
    exact hdone hsound rfl rfl (h.toSound.lookup hl).2 (Option.some.inj hs)
  | none =>
    rw [hl] at hs
    obtain ⟨cid, pool₁, pool₂, root', f, ha, h0, hserves, hins, hp, -⟩ :=
      h.pages.newChain h.ids (by omega) hkey hl
    have hpin := Pool.pinPage_eq hserves h0
    simp only [chainAllocate, ha, if_neg (show ¬ cid < 0 by omega), hpin, h.pageSize, hins, if_true,
      Option.some.injEq] at hs
    generalize heng : ({
      pool := pool₂
      pageSize := ps
      compression := eng.compression
      maxTxns := eng.maxTxns
      nextTxid := eng.nextTxid
      btreeRoot := root'
      header := eng.header
      txns := eng.txns
      lockMgr := lockMgr
      wal := eng.wal
      keyCount := eng.keyCount } : Engine) = eng₂ at hs
    have hn : eng₂.pool.nextPage ≤ (eng₂.setVersion lz4 txn cid key value true).2.pool.nextPage :=
      nextPage_le_setVersion txn cid key value true
    rw [hs] at hn
    have hids₂ : eng₂.HasIds := le_trans (Int.add_le_add_right hn 65) hids
    have hsound₂ : Sound ps eng₂ (L.addKey key cid f) := by
      subst heng
      exact ⟨hp, rfl, hsound.locks, h.fits, hids₂⟩
    have htxns : eng₂.txns = eng.txns := by rw [← heng]
    have hst : eng₂.stored lz4 value = eng.stored lz4 value := by
      rw [← heng]
      rfl
    exact hdone hsound₂ htxns hst (L.own_addKey_self key cid f) hs

theorem Inv.delete_records (h : Inv ps eng L) {key : Bytes} {ok : Bool}
    (hs : eng.storageDelete txn key = some (ok, eng')) : Records eng eng' txn key ok := by
  rw [storageDelete] at hs
  split at hs
  · cases hs
    exact .rejected
  next hlen =>
  split at hs
  · cases hs
    exact .rejected
  next hact =>
  replace hact : eng.txnIsActive txn = true := by simpa using hact
  split at hs
  · cases hs
    exact .rejected
  next lockMgr hlock =>
  obtain ⟨-, hsound, -⟩ := h.acquire hlock
  have hfit := h.fits_of_live (h.live_iff.mp hact)
  simp only at hs
  rw [hsound.pages.search] at hs
  cases hl : L.lookup key with
  | none =>
    rw [hl] at hs
    cases hs
    exact ⟨fun _ => rfl, fun hok => absurd hok Bool.false_ne_true⟩
  | some v =>
    rw [hl] at hs
    obtain ⟨h0, hc⟩ := h.toSound.lookup hl
    simp only [if_neg (not_lt.mpr h0), Option.some.injEq] at hs
    have hlogged : Sound ps (Engine.appendWal { eng with lockMgr := lockMgr } (makeDeleteRecord txn key)) L :=
      ⟨hsound.pages, hsound.pageSize, hsound.locks, hsound.fits, hsound.ids⟩
    obtain ⟨ok', eng₂, L₂, heq, hw, -⟩ := hlogged.mvccDelete hc hfit
    cases heq.symm.trans hs
    have hafter := mvccDelete_txns heq
    exact hw.sound.records (Nat.pos_of_ne_zero hlen) hact (hw.stays.chain hc) hafter

/-! ## The pages that a transaction has appended to -/

/-- The chain pages that a transaction has appended to since it began, after one more call. -/
def chainsAfter (lz4 : Lz4) (txn : Int) (eng eng' : Engine) (chains : List Int) :
    EngineOp → List Int
  | .set t key value =>
    if t = txn ∧ (eng.storageSet lz4 t key value).map Prod.fst = some true then
      chains ++ (eng'.keyChain key).toList
    else chains
  | .delete t key =>
    if t = txn ∧ (eng.storageDelete t key).map Prod.fst = some true then
      chains ++ (eng'.keyChain key).toList
    else chains
  | .commit t => if t = txn then [] else chains
  | .rollback t => if t = txn then [] else chains
  | _ => chains

/-- A run of proper calls, with the chain pages that a transaction has appended to. -/
inductive Appends (lz4 : Lz4) (txn : Int) (eng₀ : Engine) : Engine → List Int → Prop
  | refl : Appends lz4 txn eng₀ eng₀ []
  | step {eng eng' : Engine} {op : EngineOp} {chains : List Int} :
    Appends lz4 txn eng₀ eng chains → eng.step lz4 op = some eng' → Proper lz4 eng eng' op →
    Appends lz4 txn eng₀ eng' (eng.chainsAfter lz4 txn eng' chains op)

variable {chains : List Int}

/-- The entry of a transaction has the first of the pages. -/
theorem take_concat (chains : List Int) (n : Nat) (cid : Int) :
    (if (chains.take n).length < n then chains.take n ++ [cid] else chains.take n) =
      (chains ++ [cid]).take n := by
  rw [List.length_take]
  by_cases hlt : chains.length < n
  · rw [if_pos (by omega), List.take_of_length_le hlt.le, List.take_of_length_le]
    rw [List.length_append]
    exact hlt
  · rw [if_neg (by omega), List.take_append_of_le_length (not_lt.mp hlt)]

theorem Records.modified {key : Bytes} {ok : Bool} (h : Records eng eng' t key ok)
    (hrec : eng.modified txn = chains.take maxModifiedPages) :
    eng'.modified txn = (if t = txn ∧ ok = true then chains ++ (eng'.keyChain key).toList
      else chains).take maxModifiedPages := by
  cases ok with
  | false =>
    rw [if_neg (fun hc => Bool.false_ne_true hc.2), ← hrec, Engine.modified, findTxn, h.failed rfl]
    rfl
  | true =>
    obtain ⟨hact, cid, hcid, htxns⟩ := h.done rfl
    have hfind := find?_updateTxn (f := TxnInfo.remember cid) (fun _ => rfl) eng.txns t txn
    rw [← htxns] at hfind
    by_cases ht : t = txn
    · subst ht
      obtain ⟨info, hinfo, -⟩ := Option.any_eq_true _ _ |>.mp hact
      rw [if_pos rfl, show eng.txns.find? _ = some info from hinfo] at hfind
      rw [Engine.modified, hinfo] at hrec
      rw [Engine.modified, show eng'.findTxn t = _ from hfind, if_pos ⟨rfl, rfl⟩, hcid,
        Option.toList_some, ← take_concat, ← hrec]
      rfl
    · rw [if_neg ht] at hfind
      rw [if_neg (fun hc => ht hc.1), ← hrec, Engine.modified, show eng'.findTxn txn = _ from hfind]
      rfl

/-! ## The record of a transaction -/

theorem modified_begin (eng : Engine) (txn : Int) :
    eng.storageBegin.2.modified txn = eng.modified txn := by
  rcases begins_or eng with e | hb
  · rw [e]
  · rw [hb.eq, Engine.modified, Engine.modified, findTxn, findTxn, List.find?_append]
    cases eng.txns.find? fun info => info.txid = txn with
    | some info => rfl
    | none =>
      rw [Option.none_or, List.find?_cons]
      cases decide (eng.nextTxid = txn) with
      | true => rfl
      | false => rfl

theorem find?_eraseP {txns : List TxnInfo} (hnd : (txns.map TxnInfo.txid).Nodup) (t txn : Int) :
    (txns.eraseP fun info => info.txid = t).find? (fun info => info.txid = txn) =
      if t = txn then none else txns.find? fun info => info.txid = txn := by
  induction txns with
  | nil => simp
  | cons info txns ih =>
    rw [List.map_cons, List.nodup_cons] at hnd
    have hrest := ih hnd.2
    by_cases hinfo : info.txid = t
    · subst hinfo
      rw [List.eraseP_cons, decide_eq_true rfl, cond_true]
      split
      · next he =>
        apply List.find?_eq_none.mpr
        intro x hx hxt
        apply hnd.1
        rw [he, ← of_decide_eq_true hxt]
        exact List.mem_map_of_mem hx
      · next hne => rw [List.find?_cons, decide_eq_false hne]
    · rw [List.eraseP_cons, decide_eq_false hinfo, cond_false, List.find?_cons,
        List.find?_cons, hrest]
      by_cases he : info.txid = txn
      · have hne : ¬ t = txn := fun e => hinfo (he.trans e.symm)
        simp only [he, decide_true, if_neg hne]
      · simp only [he, decide_false]

theorem Inv.modified_commit (h : Inv ps eng L) (t txn : Int) :
    (eng.storageCommit t).modified txn = if t = txn then [] else eng.modified txn := by
  have hnd := h.mvcc.nodup
  rw [active_store] at hnd
  have hfind : (eng.storageCommit t).findTxn txn = if t = txn then none else eng.findTxn txn :=
    find?_eraseP hnd t txn
  rw [Engine.modified, hfind, Engine.modified]
  by_cases ht : t = txn
  · rw [if_pos ht, if_pos ht]
    rfl
  · rw [if_neg ht, if_neg ht]

theorem modified_rollback (eng : Engine) (t txn : Int) :
    (eng.storageRollback t).modified txn = if t = txn then [] else eng.modified txn := by
  have hfind : (eng.storageRollback t).findTxn txn =
      if t = txn then
        (eng.findTxn txn).map fun info => { info with state := .rolledBack, modifiedPages := [] }
      else eng.findTxn txn :=
    find?_updateTxn (f := fun info => { info with state := .rolledBack, modifiedPages := [] })
      (fun _ => rfl) eng.txns t txn
  rw [Engine.modified, hfind, Engine.modified]
  by_cases ht : t = txn
  · rw [if_pos ht, if_pos ht]
    cases eng.findTxn txn with
    | none => rfl
    | some info => rfl
  · rw [if_neg ht, if_neg ht]

/-- The pages of values are in the file or dirty, and the entry of the transaction has the first of
the chain pages that it has appended to. -/
structure Tracks (ps : Nat) (eng : Engine) (L : Layout) (txn : Int) (chains : List Int) : Prop
    extends Inv ps eng L where
  flushed : Flushed eng.pool L
  recorded : eng.modified txn = chains.take maxModifiedPages
  owned : ∀ cid ∈ chains, ∃ key, L.own cid = some (.chain key)

theorem Layout.flushed_new {pool : Pool} (h : pool.file.Paged pool.pageSize) :
    Flushed pool Layout.new where
  paged := h
  chain ho := by
    rcases Layout.own_new ho with ⟨-, ho⟩ | ⟨-, ho⟩
    · cases ho
    · cases ho
  overflow hp := by cases hp

theorem Created.tracks (h : Created ps eng) (txn : Int) : Tracks ps eng .new txn [] := by
  obtain ⟨hi, ht, -⟩ := h.inv
  refine ⟨hi, Layout.flushed_new ?_, ?_, by simp⟩
  · obtain ⟨eng₀, h0, rfl⟩ := h.start
    obtain ⟨pool, header, hpool, -, -, -, heq⟩ := h0.initPages_eq
    rw [heq]
    exact paged_foldl (hpool.file ▸ .empty) _
  · rw [Engine.modified, findTxn, ht]
    rfl

/-- A call that writes a key. -/
theorem Tracks.write {key : Bytes} {ok : Bool} (h : Tracks ps eng L txn chains) (hi : Inv ps eng' L')
    (hflushed : Flushed eng'.pool L')
    (howned : ∀ cid ∈ chains, ∃ key, L'.own cid = some (.chain key))
    (hr : Records eng eng' t key ok) :
    Tracks ps eng' L' txn
      (if t = txn ∧ ok = true then chains ++ (eng'.keyChain key).toList else chains) := by
  refine ⟨hi, hflushed, hr.modified h.recorded, ?_⟩
  split
  · intro cid hc
    rcases List.mem_append.mp hc with hc | hc
    · exact howned cid hc
    · exact ⟨key, hi.own_of_keyChain (Option.mem_toList.mp hc)⟩
  · exact howned

/-- What a call does to the record of a transaction. -/
theorem Tracks.step {op : EngineOp} (h : Tracks ps eng L txn chains)
    (hs : eng.step lz4 op = some eng') (hp : Proper lz4 eng eng' op) :
    ∃ L', Tracks ps eng' L' txn (eng.chainsAfter lz4 txn eng' chains op) := by
  obtain ⟨L', hi, -, ⟨_, ht⟩, -, hflushed, -⟩ := h.call hs hp
  have hflushed := hflushed h.flushed
  have howned (cid : Int) (hc : cid ∈ chains) : ∃ key, L'.own cid = some (.chain key) := by
    obtain ⟨key, ho⟩ := h.owned cid hc
    exact ⟨key, ht.chain h.toInv hi ho⟩
  have hsame (hm : eng'.modified txn = eng.modified txn) : Tracks ps eng' L' txn chains :=
    ⟨hi, hflushed, hm.trans h.recorded, howned⟩
  have hends {t : Int} (hm : eng'.modified txn = if t = txn then [] else eng.modified txn) :
      Tracks ps eng' L' txn (if t = txn then [] else chains) := by
    by_cases ht : t = txn
    · rw [if_pos ht] at hm ⊢
      exact ⟨hi, hflushed, hm, by simp⟩
    · rw [if_neg ht] at hm ⊢
      exact hsame hm
  refine ⟨L', ?_⟩
  cases op with
  | begin =>
    cases hs
    exact hsame (modified_begin eng txn)
  | set t key value =>
    obtain ⟨⟨ok, eng₁⟩, hset, rfl⟩ := Option.map_eq_some_iff.mp hs
    have hw := h.write hi hflushed howned (h.set_records hp.2.1 hp.2.2 hset hp.1)
    rw [chainsAfter, hset]
    simpa only [Option.map_some, Option.some.injEq] using hw
  | delete t key =>
    obtain ⟨⟨ok, eng₁⟩, hdel, rfl⟩ := Option.map_eq_some_iff.mp hs
    have hw := h.write hi hflushed howned (h.delete_records hdel)
    rw [chainsAfter, hdel]
    simpa only [Option.map_some, Option.some.injEq] using hw
  | commit t =>
    cases hs
    exact hends (h.modified_commit t txn)
  | rollback t =>
    cases hs
    exact hends (modified_rollback eng t txn)
  | gc =>
    apply hsame
    rw [mvccGc_eq hs]
    rfl
  | checkpoint =>
    obtain ⟨r, hr, rfl⟩ := Option.map_eq_some_iff.mp hs
    obtain ⟨eng₁, hgc, rfl⟩ := Option.map_eq_some_iff.mp hr
    apply hsame
    rw [mvccGc_eq hgc]
    rfl
  | evict pid =>
    cases hs
    exact hsame rfl
  | frames env =>
    cases hs
    exact hsame rfl

theorem Appends.tracks (h0 : Created ps eng₀) (h : Appends lz4 txn eng₀ eng chains) :
    ∃ L, Tracks ps eng L txn chains := by
  induction h with
  | refl => exact ⟨.new, h0.tracks txn⟩
  | step _ hs hp ih =>
    obtain ⟨L, hL⟩ := ih
    exact hL.step hs hp

/-- The pages that a transaction appends to in proper calls. -/
def appendCalls (lz4 : Lz4) (txn : Int) (eng : Engine) (chains : List Int) :
    List EngineOp → Option (Engine × List Int)
  | [] => some (eng, chains)
  | op :: ops =>
    (eng.step lz4 op).bind fun eng' =>
      if isProper lz4 eng eng' op then
        eng'.appendCalls lz4 txn (eng.chainsAfter lz4 txn eng' chains op) ops
      else none

theorem Appends.calls {ops : List EngineOp} {chains' : List Int}
    (hrun : Appends lz4 txn eng₀ eng chains)
    (h : eng.appendCalls lz4 txn chains ops = some (eng', chains')) :
    Appends lz4 txn eng₀ eng' chains' := by
  induction ops generalizing eng chains with
  | nil =>
    cases h
    exact hrun
  | cons op ops ih =>
    rw [appendCalls] at h
    obtain ⟨eng₁, hs, h⟩ := Option.bind_eq_some_iff.mp h
    split at h
    · next hp => exact ih (hrun.step hs (proper_of_isProper hp)) h
    · cases h

/-- A new database with pages of 1024 bytes, and the pages that a transaction appends to. -/
def newAppends (txn : Int) (ops : List EngineOp) : Option (Engine × List Int) :=
  (engineInit .empty [] .roomy { defaultEngineSettings with pageSize := 1024 }).bind fun eng =>
    eng.appendCalls .stored txn [] ops

theorem appends_of_newAppends {ops : List EngineOp}
    (h : newAppends txn ops = some (eng, chains)) :
    ∃ eng₀, Created 1024 eng₀ ∧ Appends .stored txn eng₀ eng chains := by
  obtain ⟨eng₀, heng, h⟩ := Option.bind_eq_some_iff.mp h
  exact ⟨eng₀, (created_of_engineInit heng).1, Appends.refl.calls h⟩

/-! ## The commit -/

/-- The pages that a commit writes. -/
theorem Tracks.mvccCommit_pool (h : Tracks ps eng L txn chains) :
    (eng.mvccCommit txn).pool = (chains.take maxModifiedPages).foldl Pool.flushPage eng.pool := by
  have hm := h.recorded
  rw [Engine.modified] at hm
  rw [mvccCommit]
  simp only
  split
  · next info hinfo =>
    rw [hinfo] at hm
    rw [show info.modifiedPages = _ from hm, List.take_take, Nat.min_self]
  · next hnone =>
    rw [hnone] at hm
    rw [← hm]
    rfl

/-- A chain page that the commit does not write was in the file before. -/
theorem Inv.stored_of_foldl (h : Inv ps eng L) {key : Bytes} (hf : Flushed eng.pool L)
    (hc : L.own cid = some (.chain key)) {pids : List Int} (hn : cid ∉ pids)
    (hs : PageStored (pids.foldl Pool.flushPage eng.pool) cid) : PageStored eng.pool cid := by
  apply hs.of_foldl (h.pages.range hc).1 hn hf.paged
  have hkind := (h.pages.chain hc).2.kind
  by_contra hzero
  push Not at hzero
  have hz : readInt32 (eng.pool.pages cid) pageHdrOffType = readInt32 (fun _ => 0) pageHdrOffType := by
    apply readInt32_congr
    intro j hj
    apply hzero
    rw [h.pages.pageSize]
    have hsize := h.pages.size.1
    simp only [pageHdrOffType]
    omega
  rw [hkind] at hz
  exact absurd hz (by decide)

/-- After a commit every chain page that the transaction has appended to is in the file, with the
overflow pages of its values, if and only if each of them is one of the first sixteen that were
recorded or was in the file before. -/
theorem mvccCommit_stored (h0 : Created ps eng₀) (hrun : Appends lz4 txn eng₀ eng chains) :
    (∀ cid ∈ chains, PageStored (eng.mvccCommit txn).pool cid ∧
      ∀ p ∈ chainOverflow (eng.mvccCommit txn).pool cid, PageStored (eng.mvccCommit txn).pool p) ↔
    ∀ cid ∈ chains, cid ∈ chains.take maxModifiedPages ∨ PageStored eng.pool cid := by
  obtain ⟨L, h⟩ := hrun.tracks h0
  rw [h.mvccCommit_pool]
  generalize chains.take maxModifiedPages = pids
  constructor
  · intro hs cid hc
    obtain ⟨key, ho⟩ := h.owned cid hc
    by_cases hm : cid ∈ pids
    · exact .inl hm
    · exact .inr (h.stored_of_foldl h.flushed ho hm (hs cid hc).1)
  · intro hs cid hc
    obtain ⟨key, ho⟩ := h.owned cid hc
    have hpages := h.pages.foldl_flushPage pids
    have hflushed := h.pages.flushed_foldl h.flushed pids
    constructor
    · apply pageStored_foldl (h.pages.range ho).1
      rcases h.flushed.chain ho with hd | hst
      · exact (hs cid hc).symm.imp_right fun hm => ⟨hm, hd⟩
      · exact .inl hst
    · intro p hp
      have hat := (hpages.chain ho).2
      rw [← hpages.pageSize] at hat
      rw [hat.chainOverflow (hpages.pageSize ▸ hpages.chunk)] at hp
      exact hflushed.overflow hp

/-- The page of a first value. -/
theorem mvccCommit_stored_first : ∃ eng : Engine, ∃ cid : Int,
    newAppends 1 [.begin, .set 1 [1] [7]] = some (eng, [cid]) ∧
    PageStored (eng.mvccCommit 1).pool cid := by
  have hcalls : (newAppends 1 [.begin, .set 1 [1] [7]]).map Prod.snd = some [2] := by
    decide +kernel
  obtain ⟨⟨eng, chains⟩, heng, rfl⟩ := Option.map_eq_some_iff.mp hcalls
  obtain ⟨eng₀, h0, hrun⟩ := appends_of_newAppends heng
  refine ⟨eng, 2, heng, ?_⟩
  exact ((mvccCommit_stored h0 hrun).mpr (fun cid hc => .inl hc) 2 List.mem_cons_self).1

/-! ## Tombstones -/

/-- The page takes `n` more tombstones. -/
def TakesTombstones (ps : Nat) (buf : PageBuffer) (n : Nat) : Prop :=
  ∃ recs, Holds ps buf recs ∧ recs.length + n ≤ maxSlots ∧
    pageHeaderSize + slotSize * recs.length + usedBytes recs +
      (slotSize + chainEntryHeaderSize) * n ≤ ps

theorem takesTombstones_insert {buf : PageBuffer} {n : Nat} (h : TakesTombstones ps buf (n + 1))
    (txn : Int) : ∃ buf', chainPageAppendTombstone buf txn = some buf' ∧
      TakesTombstones ps buf' n := by
  obtain ⟨recs, H, hslots, hroom⟩ := h
  have hlen : (versionHeader txn 0 0 1 0).length = chainEntryHeaderSize := length_versionHeader ..
  have hfit : HasRoom ps recs (versionHeader txn 0 0 1 0).length := by
    rw [hlen]
    simp only [HasRoom, slotSize, chainEntryHeaderSize] at hroom ⊢
    omega
  obtain ⟨buf', hi, H', -⟩ := pageInsert_some H (by simp [versionHeader]) hfit
  refine ⟨buf', by rw [chainPageAppendTombstone, hi]; rfl, recs ++ [versionHeader txn 0 0 1 0], H', ?_⟩
  rw [usedBytes_append, usedBytes_cons, usedBytes_nil, hlen, List.length_append, List.length_singleton]
  simp only [slotSize, chainEntryHeaderSize] at hroom ⊢
  omega

/-- No other transaction is at work. -/
structure Alone (ps : Nat) (eng : Engine) (L : Layout) (txn : Int) : Prop extends Inv ps eng L where
  active : eng.txnIsActive txn = true
  free : ∀ p ∈ eng.lockMgr, p.txn = txn

/-- A deletion that puts a tombstone on a chain page: the file and the other pages stay. -/
structure Buries (eng eng' : Engine) (cid : Int) : Prop where
  keyChain : ∀ {key c}, eng.keyChain key = some c → eng'.keyChain key = some c
  file : eng'.pool.file = eng.pool.file
  pages : ∀ p, p ≠ cid → eng'.pool.pages p = eng.pool.pages p

theorem Buries.refl : Buries eng eng cid := ⟨id, rfl, fun _ _ => rfl⟩

theorem Buries.trans {eng'' : Engine} (h : Buries eng eng' cid) (h' : Buries eng' eng'' cid) :
    Buries eng eng'' cid where
  keyChain hc := h'.keyChain (h.keyChain hc)
  file := h'.file.trans h.file
  pages p hp := (h'.pages p hp).trans (h.pages p hp)

theorem lockAcquire_txn {mgr mgr' : List LockNode} {key : Bytes}
    (h : lockAcquire mgr txn key mode = some mgr') (hm : ∀ p ∈ mgr, p.txn = txn) :
    ∀ p ∈ mgr', p.txn = txn := by
  rw [lockAcquire] at h
  split at h
  · cases h
    exact hm
  split at h
  · cases h
  split at h
  · cases h
  · cases h
    intro p hp
    rcases List.mem_cons.mp hp with rfl | hp
    · rfl
    · exact hm p hp

theorem mvccDelete_done {buf buf' : PageBuffer} (hpin : eng.pool.pinPage cid = some buf)
    (hbuf : chainPageAppendTombstone buf txn = some buf') :
    eng.mvccDelete txn cid = (true, eng.changeChain txn cid buf') := by
  rw [mvccDelete, hpin]
  simp only [hbuf]

/-- A deletion with room for its tombstone. -/
theorem Alone.delete {key : Bytes} {n : Nat} (h : Alone ps eng L txn)
    (hlen : key.length ≤ maxKeySize) (hc : eng.keyChain key = some cid)
    (hroom : TakesTombstones ps (eng.pool.pages cid) (n + 1)) :
    ∃ eng' L', eng.storageDelete txn key = some (true, eng') ∧ Alone ps eng' L' txn ∧
      Buries eng eng' cid ∧ TakesTombstones ps (eng'.pool.pages cid) n := by
  obtain ⟨lockMgr, hlock⟩ := Option.isSome_iff_exists.mp
    (lockAcquire_isSome (fun p hp _ => h.free p hp) hlen .exclusive)
  obtain ⟨buf, hbuf, hleft⟩ := takesTombstones_insert hroom txn
  have hown := h.own_of_keyChain hc
  have hpin := Pool.pinPage_eq h.pages.serves (h.pages.range hown).1
  have hdel := (storageDelete_chain h.active hlock hc).trans
    (congrArg some (mvccDelete_done hpin hbuf))
  obtain ⟨ok, eng', L', hdel', hi, -, -, ht, -⟩ := h.toInv.delete txn key
  obtain ⟨rfl, rfl⟩ := Prod.mk.inj (Option.some.inj (hdel.symm.trans hdel'))
  refine ⟨_, L', hdel, ⟨hi, ?_, lockAcquire_txn hlock h.free⟩, ⟨?_, rfl, ?_⟩, ?_⟩
  · have hactive := h.active
    rw [txnIsActive, findTxn] at hactive
    have hfind := find?_updateTxn (f := TxnInfo.remember cid) (fun _ => rfl) eng.txns txn txn
    rw [if_pos rfl] at hfind
    show (((updateTxn (TxnInfo.remember cid) txn eng.txns).find? _).any _) = true
    rw [hfind, Option.any_map]
    exact hactive
  · intro k c hk
    have hkown := h.own_of_keyChain hk
    have hpos : 0 < k.length := by
      rw [keyChain] at hk
      split at hk
      · cases hk
      · omega
    exact hi.toSound.keyChain_of_own hpos (ht.chain h.toInv hi hkown)
  · intro p hp
    exact Pool.setPage_pages_of_ne hp
  · show TakesTombstones ps ((eng.pool.setPage cid buf).pages cid) n
    rw [Pool.setPage_pages_self]
    exact hleft

/-- Deletions of one key, again and again. -/
theorem Appends.deletes {key : Bytes} {n : Nat} (hrun : Appends lz4 txn eng₀ eng chains)
    (h : Alone ps eng L txn) (hlen : key.length ≤ maxKeySize) (hc : eng.keyChain key = some cid)
    (hroom : TakesTombstones ps (eng.pool.pages cid) n) :
    ∃ eng' L', Appends lz4 txn eng₀ eng' (chains ++ List.replicate n cid) ∧
      Alone ps eng' L' txn ∧ Buries eng eng' cid := by
  induction n generalizing eng L chains with
  | zero =>
    refine ⟨eng, L, ?_, h, .refl⟩
    rw [List.replicate_zero, List.append_nil]
    exact hrun
  | succ n ih =>
    obtain ⟨eng₁, L₁, hdel, h₁, hb, hleft⟩ := h.delete hlen hc hroom
    have hnext : Appends lz4 txn eng₀ eng₁ (chains ++ [cid]) := by
      have hs : eng.step lz4 (.delete txn key) = some eng₁ := by
        rw [Engine.step, hdel]
        rfl
      have hstep := hrun.step hs ⟨h₁.ids, trivial⟩
      rw [chainsAfter, hdel, if_pos ⟨rfl, rfl⟩, hb.keyChain hc] at hstep
      exact hstep
    obtain ⟨eng₂, L₂, hrun₂, h₂, hb₂⟩ := ih hnext h₁ (hb.keyChain hc) hleft
    refine ⟨eng₂, L₂, ?_, h₂, hb.trans hb₂⟩
    rw [List.replicate_succ]
    simpa using hrun₂

theorem size_foldl_le {pool : Pool} {pids : List Int} (h : pool.file.size ≤ n)
    (hp : ∀ p ∈ pids, (p.toNat + 1) * pool.pageSize ≤ n) :
    (pids.foldl Pool.flushPage pool).file.size ≤ n := by
  induction pids generalizing pool with
  | nil => exact h
  | cons pid pids ih =>
    apply ih
    · rw [Pool.flushPage]
      split
      · exact Nat.max_le.mpr ⟨h, hp pid List.mem_cons_self⟩
      · exact h
    · intro p hm
      rw [Pool.flushPage_pageSize]
      exact hp p (List.mem_cons_of_mem _ hm)

/-- A page behind the pages that a commit writes and behind the end of the file. -/
theorem Tracks.not_stored {n : Nat} (h : Tracks ps eng L txn chains) (hsize : eng.pool.file.size ≤ n)
    (hpages : ∀ p ∈ chains.take maxModifiedPages, (p.toNat + 1) * ps ≤ n)
    (hc : n < (cid.toNat + 1) * ps) : ¬ PageStored (eng.mvccCommit txn).pool cid := by
  rintro ⟨hstored, -⟩
  have hps := h.pages.pageSize
  rw [h.mvccCommit_pool, Pool.foldl_flushPage_pageSize, hps] at hstored
  have hle := size_foldl_le hsize (hps.symm ▸ hpages)
  omega

/-- Two keys whose values were rolled back. -/
theorem rolledBack_pages : (newAppends 2 [.begin, .set 1 [1] [], .set 1 [2] [], .rollback 1,
    .begin]).map (fun r => ((r.2, r.1.txnIsActive 2, r.1.lockMgr.isEmpty),
      (r.1.keyChain [1], r.1.keyChain [2], r.1.pool.file.size),
      [2, 3].map fun p => pageRecordCount (r.1.pool.pages p),
      [2, 3].map fun p => readInt32 (r.1.pool.pages p) pageHdrOffFreeEnd)) =
    some (([], true, true), (some 2, some 3, 2048), [1, 1], [1010, 1010]) := by
  decide +kernel

/-- A page with one record without a value has room for forty tombstones. -/
theorem Inv.takesTombstones (h : Inv 1024 eng L) {key : Bytes} {n : Nat}
    (hc : eng.keyChain key = some cid) (hcount : pageRecordCount (eng.pool.pages cid) = 1)
    (hend : readInt32 (eng.pool.pages cid) pageHdrOffFreeEnd = 1010) (hn : n ≤ 40) :
    TakesTombstones 1024 (eng.pool.pages cid) n := by
  obtain ⟨recs, H, -⟩ := (h.pages.chain (h.own_of_keyChain hc)).2.records
  have hlen := H.count
  have hused := H.freeEnd
  have hfit := H.fits
  rw [pageRecordCount] at hcount
  rw [hcount] at hlen
  rw [hend] at hused
  refine ⟨recs, H, ?_, ?_⟩
  · simp only [maxSlots]
    omega
  · simp only [RecordsFit, pageHeaderSize, slotSize, chainEntryHeaderSize] at hfit ⊢
    omega

/-- After sixteen deletions of one key the chain page of another key that is deleted is not written by
the commit. -/
theorem mvccCommit_lost : ∃ eng₀ eng : Engine, Created 1024 eng₀ ∧
    Appends .stored 2 eng₀ eng (List.replicate 16 2 ++ [3]) ∧
    ¬ PageStored (eng.mvccCommit 2).pool 3 := by
  obtain ⟨⟨eng, chains⟩, heng, hfacts⟩ := Option.map_eq_some_iff.mp rolledBack_pages
  simp only [Prod.mk.injEq, List.map_cons, List.map_nil, List.cons.injEq, and_true] at hfacts
  obtain ⟨⟨rfl, hact, hlocks⟩, ⟨h2, h3, hsize⟩, ⟨hcount2, hcount3⟩, hend2, hend3⟩ := hfacts
  obtain ⟨eng₀, h0, hrun⟩ := appends_of_newAppends heng
  obtain ⟨L, h⟩ := hrun.tracks h0
  have halone : Alone 1024 eng L 2 := ⟨h.toInv, hact, by simp [List.isEmpty_iff.mp hlocks]⟩
  obtain ⟨eng₁, L₁, hrun₁, halone₁, hb₁⟩ := hrun.deletes halone (by decide) h2
    (h.takesTombstones h2 hcount2 hend2 (show 16 ≤ 40 by decide))
  have hroom : TakesTombstones 1024 (eng₁.pool.pages 3) 1 := by
    rw [hb₁.pages 3 (by decide)]
    exact h.takesTombstones h3 hcount3 hend3 (by decide)
  obtain ⟨eng₂, L₂, hrun₂, -, hb₂⟩ := hrun₁.deletes halone₁ (by decide) (hb₁.keyChain h3) hroom
  replace hrun₂ : Appends .stored 2 eng₀ eng₂ (List.replicate 16 2 ++ [3]) := hrun₂
  refine ⟨eng₀, eng₂, h0, hrun₂, ?_⟩
  obtain ⟨L₂', htracks⟩ := hrun₂.tracks h0
  apply htracks.not_stored (n := 3072)
  · rw [hb₂.file, hb₁.file, hsize]
    decide
  · decide
  · decide

end Engine

end Garry
