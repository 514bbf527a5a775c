import Garry.Model.Cursor
import Garry.Verify.EngineHistory

/-!
# Room for versions

All versions of a key are on one chain page. A write of a key succeeds as long as that page has
room for one more record.
-/

namespace Garry

open ByteStore

/-- The lock of a key that no other transaction holds is granted. -/
theorem lockAcquire_isSome {mgr : List LockNode} (h : ∀ p ∈ mgr, p.key = key → p.txn = txn)
    (hlen : key.length ≤ maxKeySize) (mode : LockMode) :
    (lockAcquire mgr txn key mode).isSome = true := by
  rw [lockAcquire]
  split
  · rfl
  rw [if_neg, if_neg (not_lt.mpr hlen)]
  · rfl
  · intro hc
    obtain ⟨p, hp, hpc⟩ := List.any_eq_true.mp hc
    obtain ⟨hk, ht, -⟩ := of_decide_eq_true hpc
    exact ht (h p hp hk)

namespace Engine

variable {lz4 : Lz4} {ps : Nat} {eng₀ eng : Engine}

/-- What a record compresses to has a length that fits an `int`. -/
def Lengths (lz4 : Lz4) : Prop :=
  ∀ value c, value.length ≤ maxRecordSize → lz4.compress value = some c → Fits32 c.length

theorem fits_stored (hlz4 : Lengths lz4) (hval : value.length ≤ maxRecordSize) :
    ∀ v ∈ eng.stored lz4 value, Fits32 v.length := by
  intro v hv
  rw [stored] at hv
  split at hv
  · exact hlz4 value v hval hv
  · cases hv
    simp only [maxRecordSize] at hval
    constructor <;> omega

/-- A set of a key that no other transaction has locked succeeds if and only if the value can be
stored and the chain page of the key, unless the key is new, has room for it; a delete of a key of
the tree, if and only if its chain page has room for a tombstone. -/
theorem storageSet_succeeds (h0 : Created ps eng₀) (hrun : eng₀.Run lz4 (Proper lz4) eng)
    (hlz4 : Lengths lz4) (hact : eng.txnIsActive txn = true) (hpos : 1 ≤ key.length)
    (hlen : key.length ≤ 255) (hval : value.length ≤ maxRecordSize)
    (hlock : ∀ p ∈ eng.lockMgr, p.key = key → p.txn = txn)
    (hids : ∀ ok eng', eng.storageSet lz4 txn key value = some (ok, eng') → eng'.HasIds) :
    ((∃ eng', eng.storageSet lz4 txn key value = some (true, eng')) ↔
      ∃ v ∈ eng.stored lz4 value, eng.roomFor key (versionSize ps v) = true) ∧
    ((∃ lookup, leafFindSearch eng.pool eng.btreeRoot key = some (some lookup)) →
      ((∃ eng', eng.storageDelete txn key = some (true, eng')) ↔
        eng.roomFor key chainEntryHeaderSize = true)) := by
  obtain ⟨L, hinv⟩ := hrun.inv (fun _ _ _ h => h) h0.inv.1
  have hacc : eng.accepts txn key = true := by
    rw [accepts, hact, lockAcquire_isSome hlock (by simp only [maxKeySize]; omega),
      decide_eq_true (show 0 < key.length from hpos)]
    rfl
  constructor
  · obtain ⟨ok, eng', hset⟩ := hinv.set_ends hlen txn value
    obtain ⟨-, -, -, hok, -⟩ := hinv.set hlen (fits_stored hlz4 hval) hset (hids ok eng' hset)
    rw [hacc, Bool.true_and] at hok
    have hany : ok = true ↔ ∃ v ∈ eng.stored lz4 value, eng.roomFor key (versionSize ps v) = true := by
      rw [hok]
      exact Option.any_eq_true ..
    rw [hset, ← hany]
    simp
  · rintro ⟨lookup, hfind⟩
    obtain ⟨ok, eng', -, hdel, -, -, hok, -⟩ := hinv.delete txn key
    rw [hinv.pages.search, Option.some.injEq] at hfind
    rw [hacc, hfind, Option.isSome_some, Bool.true_and, Bool.true_and] at hok
    rw [hdel, ← hok]
    simp

/-- The first value of a key. -/
theorem storageSet_succeeds_first : ∃ eng eng' : Engine, newCalls [.begin] = some eng ∧
    eng.storageSet .stored 1 [107] [118] = some (true, eng') := by
  have hcalls : (newCalls [.begin]).map (fun eng =>
      (eng.txnIsActive 1, eng.lockMgr.isEmpty, eng.roomFor [107] (versionSize 1024 [118]))) =
      some (true, true, true) := by
    decide +kernel
  have hset : ((newCalls [.begin]).bind fun eng => (eng.storageSet .stored 1 [107] [118]).map
      fun r => decide r.2.HasIds) = some true := by
    decide +kernel
  obtain ⟨eng, heng, hcalls⟩ := Option.map_eq_some_iff.mp hcalls
  obtain ⟨hact, hcalls⟩ := Prod.mk.inj hcalls
  obtain ⟨hlock, hroom⟩ := Prod.mk.inj hcalls
  obtain ⟨eng₀, h0, hraw, hrun⟩ := run_of_newCalls heng
  rw [heng, Option.bind_some] at hset
  have hids (ok : Bool) (eng' : Engine)
      (h : eng.storageSet .stored 1 [107] [118] = some (ok, eng')) : eng'.HasIds := by
    rw [h, Option.map_some, Option.some.injEq] at hset
    exact of_decide_eq_true hset
  have hraw : eng.compression ≠ compressLz4 := hrun.compression ▸ hraw
  have hlz4 : Lengths .stored := by
    intro value c hlen h
    cases h
    simp only [maxRecordSize] at hlen
    constructor <;> omega
  have hstored : [118] ∈ eng.stored .stored [118] := by
    rw [stored_of_raw hraw]
    rfl
  obtain ⟨eng', h⟩ := (storageSet_succeeds h0 hrun hlz4 hact (by decide) (by decide)
    (by decide) (by simp [List.isEmpty_iff.mp hlock]) hids).1.mpr ⟨[118], hstored, hroom⟩
  exact ⟨eng, eng', heng, h⟩

/-- A second long value does not fit the page of the first one. -/
theorem storageSet_full : ∃ eng₀ eng : Engine, Created 1024 eng₀ ∧
    eng₀.Run .stored (Proper .stored) eng ∧ eng.txnIsActive 1 = true ∧
    (∀ p ∈ eng.lockMgr, p.key = [107] → p.txn = 1) ∧
    eng.storageExists 1 [107] = some true ∧
    ¬ ∃ eng', eng.storageSet .stored 1 [107] (List.replicate 500 0) = some (true, eng') := by
  have hcalls : (newCalls [.begin, .set 1 [107] (List.replicate 500 0)]).map (fun eng =>
      (eng.txnIsActive 1, eng.lockMgr.all fun p => p.txn = 1,
        eng.storageExists 1 [107])) =
      some (true, true, some true) := by
    decide +kernel
  have hset : ((newCalls [.begin, .set 1 [107] (List.replicate 500 0)]).bind fun eng =>
      (eng.storageSet .stored 1 [107] (List.replicate 500 0)).map Prod.fst) = some false := by
    decide +kernel
  obtain ⟨eng, heng, hcalls⟩ := Option.map_eq_some_iff.mp hcalls
  obtain ⟨hact, hcalls⟩ := Prod.mk.inj hcalls
  obtain ⟨hlock, hexists⟩ := Prod.mk.inj hcalls
  obtain ⟨eng₀, h0, -, hrun⟩ := run_of_newCalls heng
  rw [heng, Option.bind_some] at hset
  refine ⟨eng₀, eng, h0, hrun, hact, ?_, hexists, ?_⟩
  · intro p hp _
    exact of_decide_eq_true (List.all_eq_true.mp hlock p hp)
  · rintro ⟨eng', h⟩
    rw [h] at hset
    cases hset

end Engine

end Garry
