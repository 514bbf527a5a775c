import Garry.Model.VersionIter
import Garry.Verify.Isolation

/-!
# The history of a key

Without garbage collection the chain page of a key has one record for every successful write of the
key. An iterator over the page hands out these writes, the last one first, whatever is written after
it was opened.
-/

namespace Garry

open ByteStore

/-- The entry of a write by a transaction. -/
def VersionEntry.of (v : Mvcc.Version Bytes) : VersionEntry := ⟨v.txid, v.value, v.value.isNone⟩

/-! ## Draining an iterator -/

section
variable {pool pool' : Pool} {buf : PageBuffer} {vs : List StoredVersion} {n : Nat}

theorem ReadsAs.tombstone_value {recData : Bytes} {v : Mvcc.Version Bytes}
    (h : ReadsAs pool recData v) (it : VersionIter) :
    (if (readVersion recData).isTombstone then
        some (⟨(readVersion recData).txidCreated, none, true⟩, it)
      else (versionValue pool (readVersion recData)).map fun value =>
        (⟨(readVersion recData).txidCreated, some value, false⟩, it)) =
      some (VersionEntry.of v, it) := by
  rw [h.tombstone, h.created, VersionEntry.of]
  cases hv : v.value with
  | none => rfl
  | some x =>
    rw [h.value x hv]
    rfl

/-- One step hands out the version in the slot. -/
theorem HoldsVersions.iterNext (h : HoldsVersions pool buf vs) {it : VersionIter}
    (hbuf : it.pageBuf = buf) (hps : it.pageSize = pool.pageSize) (hslot : it.nextSlot = n)
    {v : StoredVersion} (hv : vs[n]? = some v) :
    it.next pool = some (.of v.version, { it with nextSlot := (n : Int) - 1 }) := by
  obtain ⟨recData, hget, hr⟩ := h.get hv
  rw [VersionIter.next, hslot, if_neg (not_lt_of_ge (Int.natCast_nonneg n)), Int.toNat_natCast,
    hbuf, hps, hget, Option.bind_some, if_neg (not_lt_of_ge hr.length)]
  exact hr.tombstone_value _

theorem VersionIter.next_end {it : VersionIter} (h : it.nextSlot < 0) : it.next pool = none :=
  if_pos h

theorem VersionIter.drain_end {it : VersionIter} (h : it.nextSlot < 0) (pools : List Pool) :
    it.drain pools = List.replicate pools.length none := by
  induction pools with
  | nil => rfl
  | cons pool pools ih =>
    rw [VersionIter.drain, VersionIter.next_end h, List.length_cons, List.replicate_succ, ← ih]

/-- A drain hands out the first `n` versions, the newest first, and then reports the end. -/
theorem drain_eq {it : VersionIter} {pools : List Pool} (hslot : it.nextSlot = (n : Int) - 1)
    (hn : n ≤ vs.length)
    (h : ∀ pool ∈ pools, HoldsVersions pool it.pageBuf vs ∧ it.pageSize = pool.pageSize) :
    it.drain pools = ((chainOf (vs.take n)).map (fun v => some (VersionEntry.of v)) ++
      List.replicate pools.length none).take pools.length := by
  induction pools generalizing n it with
  | nil => rfl
  | cons pool pools ih =>
    cases n with
    | zero =>
      rw [it.drain_end (by rw [hslot]; decide)]
      simp [chainOf]
    | succ n =>
      obtain ⟨hpool, hps⟩ := h pool (by simp)
      have hv : vs[n]? = some vs[n] := List.getElem?_eq_getElem hn
      have hslot' : it.nextSlot = n := by
        rw [hslot]
        push_cast
        omega
      rw [VersionIter.drain, hpool.iterNext rfl hps hslot' hv]
      simp only
      rw [@ih n { it with nextSlot := (n : Int) - 1 } rfl (Nat.le_of_succ_le hn)
          fun pool hm => h pool (List.mem_cons_of_mem _ hm), chainOf_take_succ hv, List.map_cons, List.cons_append, List.length_cons,
        List.take_succ_cons, List.replicate_succ']
      congr 1
      rw [← List.append_assoc]
      refine (List.take_append_of_le_length ?_).symm
      simp

end

namespace Engine

variable {lz4 : Lz4} {ps : Nat} {eng₀ eng eng' : Engine} {L L' : Layout} {calls : Calls}

/-! ## Runs without garbage collection -/

/-- Proper calls that are no garbage collection. -/
def NoPrune (lz4 : Lz4) (_ : Calls) (eng eng' : Engine) (op : EngineOp) (_ : Bool) : Prop :=
  Proper lz4 eng eng' op ∧ op ≠ .gc ∧ op ≠ .checkpoint

theorem Plain.noPrune {op : EngineOp} (h : Plain lz4 calls eng eng' op done) :
    NoPrune lz4 calls eng eng' op done := by
  refine ⟨h.1, ?_, ?_⟩
  · rintro rfl
    exact h.2
  · rintro rfl
    exact h.2

/-- The versions that successful calls have written for a key, the last one first. -/
def writesOf (key : Bytes) (calls : Calls) : List (Mvcc.Version Bytes) :=
  calls.reverse.flatMap fun c => (c.1.event some c.2).written key

theorem Quiet.written {e : Mvcc.Event Bytes Bytes Bytes} (h : Quiet e) (key : Bytes) :
    e.written key = [] := by
  rcases h with ⟨t, rfl⟩ | ⟨t, k, rfl⟩ | rfl
  · rfl
  · rfl
  · rfl

/-- Every key has the versions that it had, under what the calls have stored since. -/
theorem Trace.stores (hrun : Trace lz4 (NoPrune lz4) eng eng' calls) (h : Inv ps eng L) :
    ∃ L', Inv ps eng' L' ∧ VersionsKept eng.pool eng'.pool L L' ∧
      ∀ key, chainOf (L'.versions key) =
        (calls.reverse.flatMap fun c => (c.1.event (eng.stored lz4) c.2).written key) ++
          chainOf (L.versions key) := by
  induction hrun with
  | refl => exact ⟨L, h, .refl, fun key => rfl⟩
  | call hrun hc hok ih =>
    rename_i eng₁ eng₂ calls op done
    obtain ⟨L₁, hi, hkept, hchain⟩ := ih
    have hcomp := (hrun.mono fun _ _ _ _ _ hp => hp.1).run.compression
    obtain ⟨L₂, hi₂, hmoves, hkept₂⟩ := hi.called hc hok.1
    refine ⟨L₂, hi₂, hkept.trans (hkept₂ hok.2.1 hok.2.2), fun key => ?_⟩
    have hstored : eng₁.stored lz4 = eng.stored lz4 := by
      funext value
      rw [stored, stored, hcomp]
    rw [hstored] at hmoves
    rw [List.reverse_concat, List.flatMap_cons, List.append_assoc, ← hchain key]
    cases hmoves with
    | step e hs he =>
      have hnew : chainOf (L₂.versions key) = e.written key ++ chainOf (L₁.versions key) :=
        hs.chain key
      rcases he with rfl | ⟨hskip, hq⟩
      · exact hnew
      · rw [hskip, hnew, hq.written key]
        rfl
    | prune hop hp =>
      rcases hop with rfl | rfl
      · exact absurd rfl hok.2.1
      · exact absurd rfl hok.2.2

/-- Without compression these are the versions written. -/
theorem Trace.writes (hrun : Trace lz4 (NoPrune lz4) eng eng' calls) (h : Inv ps eng L)
    (hraw : eng.compression ≠ compressLz4) :
    ∃ L', Inv ps eng' L' ∧ VersionsKept eng.pool eng'.pool L L' ∧
      ∀ key, chainOf (L'.versions key) = writesOf key calls ++ chainOf (L.versions key) := by
  obtain ⟨L', hi, hkept, hchain⟩ := hrun.stores h
  rw [stored_of_raw hraw] at hchain
  exact ⟨L', hi, hkept, hchain⟩

/-! ## The iterator -/

/-- The key's chain page still has the versions, and they can be read from the later pool. -/
theorem Inv.holdsLater (h : Inv ps eng L) (h' : Inv ps eng' L')
    (hk : VersionsKept eng.pool eng'.pool L L') {key : Bytes} (hc : L.own cid = some (.chain key)) :
    HoldsVersions eng'.pool (eng.pool.pages cid) (L.versions key) := by
  obtain ⟨recs, H, hr⟩ := (h.pages.chain hc).2.records
  rw [← h'.pages.pageSize] at H hr
  refine ⟨h'.pages.serves, h'.pages.pageSize ▸ h'.pages.chunk, recs, H, ?_⟩
  refine List.forall₂_iff_get.mpr ⟨hr.length_eq, fun i h1 h2 => ?_⟩
  refine (hr.get h1 h2).congr fun p hp => ?_
  have hm : p ∈ overflowPages (L.versions key) := mem_overflowPages.mpr ⟨_, List.get_mem .., hp⟩
  exact (hk.overflow (h.pages.overflow p hm)).2

/-- An iterator is opened on a key that has versions. -/
theorem Inv.versionIterOpen (h : Inv ps eng L) {key : Bytes} (hne : L.versions key ≠ []) :
    ∃ cid, L.own cid = some (.chain key) ∧ eng.versionIterOpen key = some (some {
      pageBuf := eng.pool.pages cid
      pageSize := eng.pool.pageSize
      recordCount := pageRecordCount (eng.pool.pages cid)
      nextSlot := pageRecordCount (eng.pool.pages cid) - 1 }) := by
  cases hl : L.lookup key with
  | none => exact absurd (h.pages.empty hl) hne
  | some v =>
    obtain ⟨h0, hc⟩ := h.toSound.lookup hl
    refine ⟨_, hc, ?_⟩
    have hlen := (h.pages.keyLen _ (SortedAssoc.mem_of_lookup hl)).1
    rw [Engine.versionIterOpen, if_neg (Nat.pos_iff_ne_zero.mp hlen), h.pages.search, hl]
    simp only [Option.map_some, Option.bind_eq_bind, Option.bind_some]
    rw [if_neg (not_lt_of_ge h0), Pool.pinPage_eq h.pages.serves h0]
    rfl

/-- Later states, each reached from the one before without garbage collection. -/
inductive Later (lz4 : Lz4) : Engine → List Engine → Prop
  | nil {eng : Engine} : Later lz4 eng []
  | cons {eng eng' : Engine} {engs : List Engine} {calls : Calls} : Trace lz4 (NoPrune lz4) eng eng' calls → Later lz4 eng' engs →
    Later lz4 eng (eng' :: engs)

theorem Later.kept {engs : List Engine} (hl : Later lz4 eng engs) (h : Inv ps eng L)
    (hraw : eng.compression ≠ compressLz4) :
    ∀ eng' ∈ engs, ∃ L', Inv ps eng' L' ∧ VersionsKept eng.pool eng'.pool L L' := by
  induction hl generalizing L with
  | nil => simp
  | cons hrun hl ih =>
    obtain ⟨L₁, hi, hkept, -⟩ := hrun.writes h hraw
    have hraw₁ := (hrun.mono fun _ _ _ _ _ hp => hp.1).run.compression ▸ hraw
    intro eng' hm
    rcases List.mem_cons.mp hm with rfl | hm
    · exact ⟨L₁, hi, hkept⟩
    · obtain ⟨L', hi', hkept'⟩ := ih hi hraw₁ eng' hm
      exact ⟨L', hi', hkept.trans hkept'⟩

end Engine

section

open Engine

variable {lz4 : Lz4} {ps : Nat} {eng₀ eng : Engine} {calls : Calls}

/-- An iterator on a key that has been written hands out one entry for every successful write, the
last one first, and then reports the end. What is written after it was opened does not matter. -/
theorem versionIter_history (h0 : Created ps eng₀) (hraw : eng₀.compression ≠ compressLz4)
    (hrun : eng₀.Trace lz4 (NoPrune lz4) eng calls) {key : Bytes} (hw : writesOf key calls ≠ []) :
    ∃ it, eng.versionIterOpen key = some (some it) ∧ ∀ engs, Later lz4 eng engs →
      it.drain (engs.map Engine.pool) =
        ((writesOf key calls).map (fun v => some (VersionEntry.of v)) ++
          List.replicate engs.length none).take engs.length := by
  obtain ⟨L, h, -, hchain⟩ := hrun.writes h0.inv.1 hraw
  have hraw₁ := (hrun.mono fun _ _ _ _ _ hp => hp.1).run.compression ▸ hraw
  have hwrites : chainOf (L.versions key) = writesOf key calls := by
    rw [hchain key]
    exact List.append_nil _
  have hne : L.versions key ≠ [] := by
    intro e
    rw [e] at hwrites
    exact hw hwrites.symm
  obtain ⟨cid, hc, hopen⟩ := h.versionIterOpen hne
  refine ⟨_, hopen, fun engs hl => ?_⟩
  have hcount : pageRecordCount (eng.pool.pages cid) = (L.versions key).length := by
    obtain ⟨recs, H, hr⟩ := (h.pages.chain hc).2.records
    rw [pageRecordCount, H.count, hr.length_eq]
  have hholds : ∀ pool ∈ engs.map Engine.pool,
      HoldsVersions pool (eng.pool.pages cid) (L.versions key) ∧ eng.pool.pageSize = pool.pageSize := by
    intro pool hm
    obtain ⟨eng', he, rfl⟩ := List.mem_map.mp hm
    obtain ⟨L', hi', hkept⟩ := hl.kept h hraw₁ eng' he
    exact ⟨h.holdsLater hi' hkept hc, h.pages.pageSize.trans hi'.pages.pageSize.symm⟩
  rw [drain_eq (by rw [hcount]) le_rfl hholds, List.take_length, hwrites, List.length_map]

/-- A value and a tombstone, with another set after the iterator was opened. -/
theorem versionIter_history_two : ∃ (eng eng' : Engine) (it : VersionIter),
    eng.versionIterOpen [7] = some (some it) ∧
    (∃ calls, eng.Trace .stored (NoPrune .stored) eng' calls) ∧
    it.drain [eng'.pool, eng'.pool, eng'.pool] = [some ⟨1, none, true⟩, some ⟨1, some [5], false⟩, none]
    := by
  have hcalls : (newTrace (isPlain .stored) [.begin, .set 1 [7] [5], .delete 1 [7], .commit 1]).bind
      (fun c => (c.1.runTrace .stored (isPlain .stored) [] [.begin, .set 2 [7] [6]]).map fun _ =>
        writesOf [7] c.2) = some [⟨1, none⟩, ⟨1, some [5]⟩] := by
    decide +kernel
  obtain ⟨⟨eng, calls⟩, heng, hd⟩ := Option.bind_eq_some_iff.mp hcalls
  obtain ⟨⟨eng', calls'⟩, heng', hw⟩ := Option.map_eq_some_iff.mp hd
  obtain ⟨eng₀, h0, hraw, hrun⟩ := trace_of_newTrace plain_of_isPlain heng
  have hlater : eng.Trace .stored (NoPrune .stored) eng' calls' :=
    (Trace.refl.runs plain_of_isPlain heng').mono fun _ _ _ _ _ => Plain.noPrune
  have hne : writesOf [7] calls ≠ [] := by
    rw [hw]
    decide
  obtain ⟨it, hopen, hdrain⟩ :=
    versionIter_history h0 hraw (hrun.mono fun _ _ _ _ _ => Plain.noPrune) hne
  refine ⟨eng, eng', it, hopen, ⟨calls', hlater⟩, ?_⟩
  rw [hw] at hdrain
  exact hdrain [eng', eng', eng'] (.cons hlater (.cons .refl (.cons .refl .nil)))

/-- The longest key that `garry_storage_set` takes. -/
def longKey : Bytes := List.replicate maxKeySize 7

/-- A begin or a set. -/
def isWrite : EngineOp → Bool
  | .begin => true
  | .set _ _ _ => true
  | _ => false

theorem ne_prune_of_isWrite (_ : Calls) (_ _ : Engine) (op : EngineOp) (_ : Bool)
    (h : isWrite op = true) : op ≠ .gc ∧ op ≠ .checkpoint := by
  constructor
  · rintro rfl
    cases h
  · rintro rfl
    cases h

/-- A key of 256 bytes is set, and there is no history. -/
theorem versionIterOpen_longKey : ∃ (eng₀ eng : Engine) (calls : Calls),
    Created 1024 eng₀ ∧ eng₀.compression ≠ compressLz4 ∧
    eng₀.Trace .stored (fun _ _ _ op _ => op ≠ .gc ∧ op ≠ .checkpoint) eng calls ∧
    writesOf longKey calls = [⟨1, some [5]⟩] ∧ eng.versionIterOpen longKey = some none := by
  have hcalls : (newTrace (fun _ _ op => isWrite op) [.begin, .set 1 longKey [5]]).map
      (fun c => (writesOf longKey c.2, (c.1.versionIterOpen longKey).map Option.isNone)) =
      some ([⟨1, some [5]⟩], some true) := by
    decide +kernel
  obtain ⟨⟨eng, calls⟩, heng, hr⟩ := Option.map_eq_some_iff.mp hcalls
  obtain ⟨hw, hopen⟩ := by simpa only [Prod.mk.injEq] using hr
  obtain ⟨it, hit, hnone⟩ := Option.map_eq_some_iff.mp hopen
  rw [Option.isNone_iff_eq_none.mp hnone] at hit
  obtain ⟨eng₀, h0, hraw, hrun⟩ := trace_of_newTrace ne_prune_of_isWrite heng
  exact ⟨eng₀, eng, calls, h0, hraw, hrun, hw, hit⟩

end

end Garry
