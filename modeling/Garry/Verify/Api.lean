import Garry.Model.Api
import Garry.Verify.EngineHistory

/-!
# Calls of the library

`garry_get_str` hands its capacity down to a copy that does not look at it, and `garry_delete`
asks the tree where `garry_get` asks the versions.
-/

namespace Garry

open ByteStore LocalArray

namespace Engine

variable {lz4 : Lz4} {eng eng' : Engine} {found : Option Bytes} {key : Bytes} {value buf : Store}

/-! ## `garry_get_str` -/

/-- The array holds the first bytes of the value and a NUL behind them. -/
def HoldsString (buf : Store) (val : Bytes) (n : Nat) : Prop :=
  slice buf 0 n = val.take n ∧ buf n = 0

/-- The NUL is stored after the value, or over its last byte. -/
theorem holdsString_store {val : Bytes} {a b : Store} {size : Nat}
    (hs : storeList size a 0 val = some b) (hn : n ≤ val.length)
    (hb : LocalArray.store size b n 0 = some buf) : HoldsString buf val n := by
  rw [LocalArray.store] at hb
  split at hb
  · obtain rfl := Option.some.inj hb
    refine ⟨?_, Function.update_self ..⟩
    apply List.ext_getElem?
    intro i
    by_cases hi : i < n
    · have hv := storeList_of_mem hs (List.getElem?_eq_getElem (show i < val.length by omega))
      have hget : (slice (Function.update b n 0) 0 n)[i]? = some (Function.update b n 0 (0 + i)) := by
        simp [slice, hi]
      rw [hget, List.getElem?_take_of_lt hi, Function.update_of_ne (by omega), hv,
        List.getElem?_eq_getElem (by omega)]
    · rw [List.getElem?_eq_none (by simpa using hi),
        List.getElem?_eq_none (by rw [List.length_take]; omega)]
  · cases hb

/-- `garry_get_str` when `garry_storage_get` finds a value. -/
theorem garryGetStr_found {val : Bytes} {size : Nat} (hsize : 0 < size)
    (hkey : key.length ≤ maxKeySize) (hg : eng.storageGet lz4 txn key = some (some val)) :
    eng.garryGetStr lz4 txn key value size = some ((storeList size value 0 val).bind fun b =>
      (LocalArray.store size b (min val.length (size - 1)) 0).map fun buf => (.ok, buf)) := by
  have hmin : (if (val.length : Int) ≥ size then (size : Int) - 1 else val.length).toNat =
      min val.length (size - 1) := by
    split <;> omega
  rw [garryGetStr, if_neg (by omega), if_neg (by omega), garryGet, storageGetInto, hg]
  simp only [Option.map_some, Int.toNat_natCast]
  cases storeList size value 0 val with
  | none => rfl
  | some b =>
    simp only [Option.map_some, Option.bind_some, if_true, hmin]

theorem garryGetStr_notFound {size : Nat} (hsize : 0 < size)
    (hg : eng.storageGet lz4 txn key = some none) :
    ∃ rc, rc ≠ .ok ∧ eng.garryGetStr lz4 txn key value size = some (some (rc, value)) := by
  rw [garryGetStr, if_neg (by omega)]
  split
  · exact ⟨.bufferTooSmall, nofun, rfl⟩
  · rw [garryGet, storageGetInto, hg]
    by_cases ht : eng.txnIsActive txn = false
    · refine ⟨.invalidArg, nofun, ?_⟩
      simp [ht]
    · refine ⟨.notFound, nofun, ?_⟩
      simp [ht]

theorem key_le_of_found {val : Bytes} (hg : eng.storageGet lz4 txn key = some (some val)) :
    key.length ≤ maxKeySize := by
  rw [storageGet] at hg
  split at hg
  · cases hg
  · omega

end Engine

open Engine in
/-- For every value that `garry_storage_get` finds, whatever the compression, and every capacity:
`garry_get_str` stores within the array of its caller and leaves there a prefix of the value with a
NUL behind it exactly when the value is not longer than the array. -/
theorem garryGetStr_inBounds {lz4 : Lz4} {eng : Engine} {found : Option Bytes} {key : Bytes}
    {value : Store} {size : Nat} {r : Option (Status × Store)} (hsize : 0 < size)
    (hg : eng.storageGet lz4 txn key = some found)
    (hr : eng.garryGetStr lz4 txn key value size = some r) :
    (r.isSome ∧ ∀ buf, r = some (.ok, buf) →
      ∃ val ∈ found, HoldsString buf val (min val.length (size - 1))) ↔
    ∀ val ∈ found, val.length ≤ size := by
  cases found with
  | none =>
    obtain ⟨rc, hrc, he⟩ := garryGetStr_notFound hsize hg
    obtain rfl := Option.some.inj (he.symm.trans hr)
    refine iff_of_true ⟨rfl, fun buf hb => ?_⟩ fun val hv => by cases hv
    exact absurd (Prod.mk.inj (Option.some.inj hb)).1 hrc
  | some val =>
    rw [garryGetStr_found hsize (key_le_of_found hg) hg] at hr
    obtain rfl := Option.some.inj hr
    have hiff : (storeList size value 0 val).isSome ↔ val = [] ∨ val.length ≤ size := by
      rw [isSome_storeList, Nat.zero_add]
    cases hs : storeList size value 0 val with
    | none =>
      rw [hs] at hiff
      have hlong : ¬ val.length ≤ size := fun hle => absurd (hiff.mpr (.inr hle)) Bool.false_ne_true
      refine iff_of_false (fun h => absurd h.1 Bool.false_ne_true) fun h => ?_
      exact hlong (h val rfl)
    | some b =>
      rw [hs] at hiff
      have hle : val.length ≤ size := by
        rcases hiff.mp rfl with hnil | hle
        · rw [hnil]
          exact Nat.zero_le _
        · exact hle
      have hlast : LocalArray.store size b (min val.length (size - 1)) 0 = some _ := if_pos (by omega)
      rw [Option.bind_some, hlast]
      refine iff_of_true ⟨rfl, fun buf hb => ⟨val, rfl, ?_⟩⟩ fun v hv => ?_
      · obtain ⟨-, rfl⟩ := Prod.mk.inj (Option.some.inj hb)
        exact holdsString_store hs (Nat.min_le_left ..) hlast
      · obtain rfl := Option.some.inj hv
        exact hle

/-- A database with the value `[1, 2, 3]`. -/
def threeBytes : Option Engine := Engine.newCalls [.begin, .set 1 [107] [1, 2, 3]]

theorem threeBytes_get : threeBytes.map (fun eng =>
    (eng.storageGet .stored 1 [107],
      (eng.garryGetStr .stored 1 [107] (fun _ => 9) 3).isSome)) =
    some (some (some [1, 2, 3]), true) := by
  decide +kernel

open Engine in
/-- An array of three bytes takes the first two and the NUL. -/
theorem garryGetStr_inBounds_three : ∃ eng buf, threeBytes = some eng ∧
    eng.garryGetStr .stored 1 [107] (fun _ => 9) 3 = some (some (.ok, buf)) ∧
    HoldsString buf [1, 2, 3] 2 := by
  obtain ⟨eng, heng, hf⟩ := Option.map_eq_some_iff.mp threeBytes_get
  obtain ⟨hg, hr⟩ := Prod.mk.inj hf
  obtain ⟨r, hr⟩ := Option.isSome_iff_exists.mp hr
  have hbounds := (garryGetStr_inBounds (by decide) hg hr).mpr fun val hv => by
    obtain rfl := Option.some.inj hv
    exact Nat.le_refl 3
  have hfound : eng.garryGetStr .stored 1 [107] (fun _ => 9) 3 = _ :=
    garryGetStr_found (Nat.succ_pos 2) (by decide) hg
  obtain ⟨buf, hbuf⟩ : ∃ buf, r = some (.ok, buf) := by
    rw [Option.some.inj (hr.symm.trans hfound)] at hbounds ⊢
    obtain ⟨rb, hrb⟩ := Option.isSome_iff_exists.mp hbounds.1
    obtain ⟨b, hb, hrb'⟩ := Option.bind_eq_some_iff.mp hrb
    obtain ⟨buf, -, rfl⟩ := Option.map_eq_some_iff.mp hrb'
    exact ⟨buf, hrb⟩
  obtain ⟨val, hv, hs⟩ := hbounds.2 buf hbuf
  obtain rfl := Option.some.inj hv
  rw [hbuf] at hr
  exact ⟨eng, buf, heng, hr, hs⟩

/-- In an array of two bytes the copy of `[1, 2, 3]` goes past the end. -/
theorem garryGetStr_pastEnd :
    (threeBytes.bind fun eng => eng.garryGetStr .stored 1 [107] (fun _ => 9) 2) = some none := by
  obtain ⟨eng, heng, hf⟩ := Option.map_eq_some_iff.mp threeBytes_get
  obtain ⟨hg, -⟩ := Prod.mk.inj hf
  rw [heng, Option.bind_some]
  exact Engine.garryGetStr_found (by decide) (by decide) hg

/-! ## `garry_delete` -/

namespace Engine

variable {eng eng' : Engine} {key : Bytes}

/-- The chain page of a key, if the tree has the key. -/
def keyChain (eng : Engine) (key : Bytes) : Option Int :=
  if key.length = 0 then none
  else
    ((leafFindSearch eng.pool eng.btreeRoot key).join.map fun lookup =>
      decodeCidFromDescriptor lookup.toBuffer).filter fun cid => 0 ≤ cid

/-- The chain page can be pinned and has the room for a tombstone. -/
def takesTombstone (eng : Engine) (cid : Int) : Bool :=
  (eng.pool.pinPage cid).any fun buf =>
    pageRoom buf chainEntryHeaderSize &&
      decide (pageHeaderSize + chainEntryHeaderSize ≤ readInt32 buf pageHdrOffFreeEnd)

/-- `garry_delete` reports what `garry_get` has found, and changes nothing when it reports that the
key is not there. -/
structure Reports (found : Option Bytes) (eng eng' : Engine) (status : Status) : Prop where
  ok : status = .ok ↔ found.isSome
  notFound : status = .notFound ↔ found = none
  kept : status = .notFound → eng'.pool = eng.pool ∧ eng'.wal = eng.wal

/-- What an insertion asks of the header of the page. -/
theorem pageInsert_isSome_iff {buf : PageBuffer} {data : Bytes} (hd : data ≠ []) :
    (pageInsert buf data).isSome ↔ pageRoom buf data.length = true ∧
      (pageHeaderSize + data.length : Int) ≤ readInt32 buf pageHdrOffFreeEnd := by
  have hpos := List.length_pos_of_ne_nil hd
  rw [pageInsert, pageRoom, decide_eq_true_iff, pageRecordCount]
  simp only [pageHeaderSize, slotSize, maxSlots]
  split
  · simp
    omega
  split
  · simp
    omega
  split
  · simp
    omega
  split
  · simp
    omega
  split
  · simp
    omega
  · simp
    omega

theorem mvccDelete_fst (eng : Engine) (txn cid : Int) :
    (eng.mvccDelete txn cid).1 = eng.takesTombstone cid := by
  rw [mvccDelete, takesTombstone]
  cases eng.pool.pinPage cid with
  | none => rfl
  | some buf =>
    have hlen : (versionHeader txn 0 0 1 0).length = chainEntryHeaderSize := by
      simp [versionHeader]
    have hne : versionHeader txn 0 0 1 0 ≠ [] := by
      simp [versionHeader]
    have hins : (pageInsert buf (versionHeader txn 0 0 1 0)).isSome ↔ _ :=
      pageInsert_isSome_iff hne
    rw [hlen, ← decide_eq_true_iff (p := _ ≤ _), ← Bool.and_eq_true] at hins
    rw [Option.any_some, ← Bool.eq_iff_iff.mpr hins]
    simp only [chainPageAppendTombstone]
    cases pageInsert buf (versionHeader txn 0 0 1 0) <;> rfl

theorem mvccDelete_wal (eng : Engine) (txn cid : Int) : (eng.mvccDelete txn cid).2.wal = eng.wal := by
  rw [mvccDelete]
  split
  · rfl
  · split <;> rfl

/-- The deletion of a key with a chain page is logged before the chain page is changed. -/
theorem storageDelete_chain {lockMgr : List LockNode} (hact : eng.txnIsActive txn = true)
    (hlock : lockAcquire eng.lockMgr txn key .exclusive = some lockMgr)
    (hcid : eng.keyChain key = some cid) :
    eng.storageDelete txn key = some ((({ eng with lockMgr := lockMgr } : Engine).appendWal
      (makeDeleteRecord txn key)).mvccDelete txn cid) := by
  rw [keyChain] at hcid
  split at hcid
  · cases hcid
  next hlen =>
  obtain ⟨hcid, hpos⟩ := Option.filter_eq_some_iff.mp hcid
  obtain ⟨lookup, hsearch, rfl⟩ := Option.map_eq_some_iff.mp hcid
  rw [storageDelete, if_neg hlen, hact, if_neg (by decide), hlock]
  simp only [Option.join_eq_some_iff.mp hsearch]
  rw [if_neg (Int.not_lt.mpr (of_decide_eq_true hpos))]

/-- A key with a chain page: the deletion answers by the room on the page. -/
theorem garryDelete_chain (hact : eng.txnIsActive txn = true)
    (hlock : (lockAcquire eng.lockMgr txn key .exclusive).isSome)
    (hcid : eng.keyChain key = some cid) (hd : eng.garryDelete txn key = some (status, eng')) :
    status = (if eng.takesTombstone cid then .ok else .notFound) ∧ eng'.wal ≠ eng.wal := by
  obtain ⟨lockMgr, hlock⟩ := Option.isSome_iff_exists.mp hlock
  obtain ⟨r, hdel, he⟩ := Option.map_eq_some_iff.mp hd
  cases he
  rw [storageDelete_chain hact hlock hcid] at hdel
  rw [← Option.some.inj hdel, mvccDelete_fst, mvccDelete_wal]
  refine ⟨rfl, fun hwal => ?_⟩
  have hlsn : eng.wal.lastLsn + 1 = eng.wal.lastLsn := congrArg WalLog.lastLsn hwal
  omega

/-- A key without a chain page is not deleted. -/
theorem garryDelete_noChain (hact : eng.txnIsActive txn = true)
    (hlock : (lockAcquire eng.lockMgr txn key .exclusive).isSome)
    (hno : eng.keyChain key = none) (hd : eng.garryDelete txn key = some (status, eng')) :
    status = .notFound ∧ eng'.pool = eng.pool ∧ eng'.wal = eng.wal := by
  obtain ⟨lockMgr, hlock⟩ := Option.isSome_iff_exists.mp hlock
  rw [garryDelete, storageDelete] at hd
  split at hd
  · obtain ⟨rfl, rfl⟩ := Prod.mk.inj (Option.some.inj hd)
    exact ⟨rfl, rfl, rfl⟩
  next hlen =>
  rw [hact, if_neg (by decide), hlock] at hd
  rw [keyChain, if_neg hlen] at hno
  cases hs : leafFindSearch eng.pool eng.btreeRoot key with
  | none =>
    simp only [hs] at hd
    cases hd
  | some lookup? =>
    simp only [hs] at hd
    rw [hs] at hno
    cases lookup? with
    | none =>
      obtain ⟨rfl, rfl⟩ := Prod.mk.inj (Option.some.inj hd)
      exact ⟨rfl, rfl, rfl⟩
    | some lookup =>
      have hneg : decodeCidFromDescriptor lookup.toBuffer < 0 := by
        simpa using hno
      simp only [if_pos hneg] at hd
      obtain ⟨rfl, rfl⟩ := Prod.mk.inj (Option.some.inj hd)
      exact ⟨rfl, rfl, rfl⟩

theorem storageGet_noChain {lz4 : Lz4} {found : Option Bytes} (hno : eng.keyChain key = none)
    (hg : eng.storageGet lz4 txn key = some found) : found = none := by
  rw [storageGet] at hg
  split at hg
  · exact (Option.some.inj hg).symm
  next hlen =>
  split at hg
  · exact (Option.some.inj hg).symm
  rw [keyChain, if_neg (by omega)] at hno
  obtain ⟨lookup?, hs, rfl⟩ := Option.map_eq_some_iff.mp hg
  rw [hs] at hno
  cases lookup? with
  | none => rfl
  | some lookup =>
    have hneg : decodeCidFromDescriptor lookup.toBuffer < 0 := by
      simpa using hno
    exact if_pos hneg

end Engine

open Engine in
/-- For every state, key and active transaction that can have the lock: `garry_delete` reports what
`garry_get` finds, with nothing changed for a key that is not found, exactly when a key that the tree
has is visible and its chain page takes a tombstone. -/
theorem garryDelete_reports {lz4 : Lz4} {eng eng' : Engine} {key : Bytes} {found : Option Bytes}
    {status : Status} (hact : eng.txnIsActive txn = true)
    (hlock : (lockAcquire eng.lockMgr txn key .exclusive).isSome)
    (hg : eng.storageGet lz4 txn key = some found)
    (hd : eng.garryDelete txn key = some (status, eng')) :
    Reports found eng eng' status ↔
      ∀ cid ∈ eng.keyChain key, found.isSome ∧ eng.takesTombstone cid := by
  cases hc : eng.keyChain key with
  | none =>
    obtain ⟨rfl, hkept⟩ := garryDelete_noChain hact hlock hc hd
    obtain rfl := storageGet_noChain hc hg
    refine iff_of_true ⟨?_, ?_, fun _ => hkept⟩ nofun
    · exact iff_of_false nofun Bool.false_ne_true
    · exact iff_of_true rfl rfl
  | some cid =>
    obtain ⟨hstatus, hwal⟩ := garryDelete_chain hact hlock hc hd
    constructor
    · intro h _ hmem
      obtain rfl := Option.some.inj hmem
      cases ht : eng.takesTombstone cid with
      | false =>
        rw [if_neg (ht ▸ Bool.false_ne_true)] at hstatus
        exact absurd (h.kept hstatus).2 hwal
      | true =>
        rw [if_pos ht] at hstatus
        exact ⟨h.ok.mp hstatus, rfl⟩
    · intro h
      obtain ⟨hfound, htakes⟩ := h cid rfl
      rw [if_pos htakes] at hstatus
      subst hstatus
      refine ⟨iff_of_true rfl hfound, iff_of_false nofun ?_, nofun⟩
      exact Option.isSome_iff_ne_none.mp hfound

theorem threeBytes_delete : threeBytes.map (fun eng =>
    (eng.txnIsActive 1, (lockAcquire eng.lockMgr 1 [107] .exclusive).isSome,
      eng.keyChain [107], eng.takesTombstone 2, (eng.garryDelete 1 [107]).map Prod.fst)) =
    some (true, true, some 2, true, some .ok) := by
  decide +kernel

open Engine in
/-- The value is there, and `garry_delete` says so. -/
theorem garryDelete_reports_three : ∃ eng eng', threeBytes = some eng ∧
    eng.garryDelete 1 [107] = some (.ok, eng') ∧ Reports (some [1, 2, 3]) eng eng' .ok := by
  obtain ⟨eng, heng, hf⟩ := Option.map_eq_some_iff.mp threeBytes_get
  obtain ⟨eng₁, heng₁, hf₁⟩ := Option.map_eq_some_iff.mp threeBytes_delete
  obtain rfl := Option.some.inj (heng.symm.trans heng₁)
  simp only [Prod.mk.injEq] at hf hf₁
  obtain ⟨hact, hlock, hcid, htakes, hd⟩ := hf₁
  obtain ⟨⟨status, eng'⟩, hd, rfl⟩ := Option.map_eq_some_iff.mp hd
  refine ⟨eng, eng', heng, hd, (garryDelete_reports hact hlock hf.1 hd).mpr fun cid hmem => ?_⟩
  obtain rfl := Option.some.inj (hcid.symm.trans hmem)
  exact ⟨rfl, htakes⟩

/-- A database whose only key is deleted. -/
def deletedOnce : Option Engine :=
  Engine.newCalls [.begin, .set 1 [107] [1, 2, 3], .delete 1 [107]]

set_option synthInstance.maxSize 256 in
theorem deletedOnce_delete : deletedOnce.map (fun eng =>
    (eng.txnIsActive 1, (lockAcquire eng.lockMgr 1 [107] .exclusive).isSome,
      eng.storageGet .stored 1 [107], (eng.garryDelete 1 [107]).map Prod.fst)) =
    some (true, true, some none, some .ok) := by
  decide +kernel

open Engine in
/-- The second deletion of a key answers `GARRY_OK`, and `garry_get` finds nothing. -/
theorem garryDelete_again : ∃ eng₀ eng eng', Created 1024 eng₀ ∧
    eng₀.Run .stored (Proper .stored) eng ∧ eng.txnIsActive 1 = true ∧
    (lockAcquire eng.lockMgr 1 [107] .exclusive).isSome ∧ eng.storageGet .stored 1 [107] = some none ∧
    eng.garryDelete 1 [107] = some (.ok, eng') ∧ ¬ Reports none eng eng' .ok := by
  obtain ⟨eng, heng, hf⟩ := Option.map_eq_some_iff.mp deletedOnce_delete
  simp only [Prod.mk.injEq] at hf
  obtain ⟨hact, hlock, hg, hd⟩ := hf
  obtain ⟨⟨status, eng'⟩, hd, rfl⟩ := Option.map_eq_some_iff.mp hd
  obtain ⟨eng₀, hnew, -, hsteps⟩ := run_of_newCalls heng
  exact ⟨eng₀, eng, eng', hnew, hsteps, hact, hlock, hg, hd, fun h =>
    absurd (h.ok.mp rfl) Bool.false_ne_true⟩

end Garry
