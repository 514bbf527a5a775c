import Garry.Library.MvccLater
import Garry.Verify.GcSweep
import Garry.Verify.VersionHistory

/-!
# Transactions that begin after a pruning

`garry_chain_page_prune` looks at the transactions that are active; the ones that begin later read
the same when the newest version is committed, and else only if the rule has kept a version with the
committed value.
-/

namespace Garry

open ByteStore BPlusTree

namespace Engine

variable {lz4 : Lz4} {ps : Nat} {eng eng' eng'' : Engine} {L L' : Layout} {put : Bytes → Option Bytes}
  {s s' : Mvcc.State Bytes Bytes Bytes}

/-! ## The table of transactions -/

/-- A transaction can begin. -/
abbrev HasPlace (eng : Engine) : Prop :=
  (eng.store .new).HasPlace eng.maxTxns (eng.maxTxns * 64)

theorem hasPlace_iff : eng.HasPlace ↔
    ((eng.txns.countP fun info => info.state ≠ .rolledBack : Nat) : Int) < eng.maxTxns ∧
      (eng.txns.length : Int) < eng.maxTxns * 64 := by
  have hcount : (eng.store .new).liveCount = eng.txns.countP fun info => info.state ≠ .rolledBack := by
    rw [Mvcc.State.liveCount, store, List.countP_map]
    apply List.countP_congr
    intro info _
    simp [TxnInfo.mark]
  have hlen : (eng.store .new).txns.length = eng.txns.length := List.length_map ..
  constructor
  · rintro ⟨h1, h2⟩
    exact ⟨hcount ▸ h1, hlen ▸ h2⟩
  · rintro ⟨h1, h2⟩
    exact ⟨hcount ▸ h1, hlen ▸ h2⟩

theorem storageBegin_place (h : eng.HasPlace) : eng.Begins eng.nextTxid eng.storageBegin.2 := by
  obtain ⟨h1, h2⟩ := hasPlace_iff.mp h
  rw [storageBegin, Begins, mvccBegin]
  simp only
  rw [if_neg (not_le.mpr h1), if_neg (not_le.mpr h2)]
  exact ⟨rfl, rfl⟩

theorem storageBegin_noPlace (h : ¬ eng.HasPlace) : eng.storageBegin.2 = eng := by
  rw [storageBegin, mvccBegin]
  simp only
  split
  · rfl
  next h1 =>
  split
  · rfl
  next h2 => exact absurd (hasPlace_iff.mpr ⟨not_le.mp h1, not_le.mp h2⟩) h

/-- A write is a step of the store that begins and commits nothing. -/
theorem Written.move {x : Option Bytes} {key : Bytes} (h : Written s s' txn key x ok) :
    ∃ e, Mvcc.Move id s e s' ∧ ∀ t, e ≠ .begin t ∧ e ≠ .commit t := by
  cases h with
  | rejected he => exact ⟨.skip, .of_eq .skip he, fun t => ⟨nofun, nofun⟩⟩
  | failed hl hf he => exact ⟨.lock txn key, .of_eq (.lock hl hf) he, fun t => ⟨nofun, nofun⟩⟩
  | done hl hf he => exact ⟨.write txn key x, .of_eq (.write hl hf) he, fun t => ⟨nofun, nofun⟩⟩

/-- Every call but a begin is a step of the store that begins no transaction. -/
theorem Acts.move {op : EngineOp} (h : Acts put s s' op) (hop : op ≠ .begin) :
    ∃ e, Mvcc.Move id s e s' ∧ (∀ t, e ≠ .begin t) ∧ ∀ t, e = .commit t → op = .commit t := by
  have hquiet {e : Mvcc.Event Bytes Bytes Bytes} (hm : Mvcc.Move id s e s')
      (he : ∀ t, e ≠ .begin t ∧ e ≠ .commit t) :
      ∃ e, Mvcc.Move id s e s' ∧ (∀ t, e ≠ .begin t) ∧ ∀ t, e = .commit t → op = .commit t :=
    ⟨e, hm, fun t => (he t).1, fun t ht => absurd ht (he t).2⟩
  cases op with
  | begin => exact absurd rfl hop
  | set txn key value =>
    obtain ⟨ok, hw, -⟩ := h
    obtain ⟨e, hm, he⟩ := hw.move
    exact hquiet hm he
  | delete txn key =>
    obtain ⟨ok, hw⟩ := h
    obtain ⟨e, hm, he⟩ := hw.move
    exact hquiet hm he
  | commit txn =>
    refine ⟨.commit txn, .of_eq .commit h, nofun, fun t ht => ?_⟩
    cases ht
    rfl
  | rollback txn =>
    exact hquiet (.of_eq .rollback h) fun t => ⟨nofun, nofun⟩
  | gc => exact hquiet (.prune h) fun t => ⟨nofun, nofun⟩
  | checkpoint => exact hquiet (.prune h) fun t => ⟨nofun, nofun⟩
  | evict pid => exact hquiet (.of_eq .skip h) fun t => ⟨nofun, nofun⟩
  | frames env => exact hquiet (.of_eq .skip h) fun t => ⟨nofun, nofun⟩

/-- The table after a call that is no begin. -/
def txnsAfter (txns : List (Int × Bool)) : EngineOp → List (Int × Bool)
  | .commit txn => txns.eraseP fun p => p.1 == txn
  | .rollback txn => txns.map fun p => if p.1 = txn then (txn, true) else p
  | _ => txns

theorem Written.table {x : Option Bytes} {key : Bytes} (h : Written s s' txn key x ok) :
    s'.next = s.next ∧ s'.txns = s.txns := by
  cases h with
  | rejected he => exact he ▸ ⟨rfl, rfl⟩
  | failed hl hf he => exact he ▸ ⟨rfl, rfl⟩
  | done hl hf he => exact he ▸ ⟨rfl, rfl⟩

theorem Acts.table {op : EngineOp} (h : Acts put s s' op) (hop : op ≠ .begin) :
    s'.next = s.next ∧ s'.txns = txnsAfter s.txns op := by
  cases op with
  | begin => exact absurd rfl hop
  | set txn key value =>
    obtain ⟨ok, hw, -⟩ := h
    exact hw.table
  | delete txn key =>
    obtain ⟨ok, hw⟩ := h
    exact hw.table
  | commit txn => exact (show s' = s.commit txn from h) ▸ ⟨rfl, rfl⟩
  | rollback txn => exact (show s' = s.rollback txn from h) ▸ ⟨rfl, rfl⟩
  | gc => exact ⟨Mvcc.Pruned.next h, Mvcc.Pruned.txns h⟩
  | checkpoint => exact ⟨Mvcc.Pruned.next h, Mvcc.Pruned.txns h⟩
  | evict pid => exact (show s' = s from h) ▸ ⟨rfl, rfl⟩
  | frames env => exact (show s' = s from h) ▸ ⟨rfl, rfl⟩

/-- Two engines with the same table of transactions. -/
structure SameTxns (eng eng' : Engine) : Prop where
  maxTxns : eng'.maxTxns = eng.maxTxns
  compression : eng'.compression = eng.compression
  next : eng'.nextTxid = eng.nextTxid
  txns : eng'.txns.map TxnInfo.mark = eng.txns.map TxnInfo.mark

theorem SameTxns.hasPlace_iff (h : SameTxns eng eng') : eng'.HasPlace ↔ eng.HasPlace := by
  have hstore : (eng'.store .new).txns = (eng.store .new).txns := h.txns
  constructor
  · rintro ⟨h1, h2⟩
    rw [Mvcc.State.liveCount, hstore, h.maxTxns] at h1
    rw [hstore, h.maxTxns] at h2
    exact ⟨h1, h2⟩
  · rintro ⟨h1, h2⟩
    constructor
    · rw [Mvcc.State.liveCount, hstore, h.maxTxns]
      exact h1
    · rw [hstore, h.maxTxns]
      exact h2

theorem SameTxns.begin (h : SameTxns eng eng') :
    SameTxns eng.storageBegin.2 eng'.storageBegin.2 := by
  by_cases hp : eng.HasPlace
  · rw [(storageBegin_place hp).eq, (storageBegin_place (h.hasPlace_iff.mpr hp)).eq]
    exact {
      maxTxns := h.maxTxns
      compression := h.compression
      next := congrArg (· + 1) h.next
      txns := by
        simp only [List.map_append, List.map_cons, List.map_nil, h.txns, h.next] }
  · rw [storageBegin_noPlace hp, storageBegin_noPlace (h.hasPlace_iff.not.mpr hp)]
    exact h

/-- The same call keeps the tables the same. -/
theorem SameTxns.step {eng₁ eng₁' : Engine} (h : SameTxns eng eng') (hi : Inv ps eng L)
    (hi' : Inv ps eng' L') {op : EngineOp} (hs : eng.step lz4 op = some eng₁)
    (hs' : eng'.step lz4 op = some eng₁') (hp : Proper lz4 eng eng₁ op)
    (hp' : Proper lz4 eng' eng₁' op) : SameTxns eng₁ eng₁' := by
  by_cases hop : op = .begin
  · subst hop
    cases hs
    cases hs'
    exact h.begin
  obtain ⟨L₁, -, hact, -⟩ := hi.call hs hp
  obtain ⟨L₁', -, hact', -⟩ := hi'.call hs' hp'
  obtain ⟨hn, ht⟩ := hact.table hop
  obtain ⟨hn', ht'⟩ := hact'.table hop
  have hl := logs_step hop hs
  have hl' := logs_step hop hs'
  exact {
    maxTxns := by rw [hl'.maxTxns, hl.maxTxns, h.maxTxns]
    compression := by rw [hl'.compression, hl.compression, h.compression]
    next := hn'.trans (h.next.trans hn.symm)
    txns := ht'.trans ((congrArg (txnsAfter · op) h.txns).trans ht.symm) }

/-! ## Runs -/

theorem Trace.concat {ok : Calls → Engine → Engine → EngineOp → Bool → Prop} {calls : Calls}
    {op : EngineOp} {done : Bool} (h : eng.Trace lz4 ok eng'' (calls ++ [(op, done)])) :
    ∃ eng', eng.Trace lz4 ok eng' calls ∧ eng'.call lz4 op = some (done, eng'') ∧
      ok calls eng' eng'' op done := by
  generalize hc : calls ++ [(op, done)] = calls' at h
  cases h with
  | refl => exact absurd hc (by simp)
  | call hrun hcall hok =>
    obtain ⟨rfl, he⟩ := List.append_inj' hc rfl
    cases he
    exact ⟨_, hrun, hcall, hok⟩

theorem Trace.nil {ok : Calls → Engine → Engine → EngineOp → Bool → Prop}
    (h : eng.Trace lz4 ok eng' []) : eng' = eng := by
  generalize hc : ([] : Calls) = calls at h
  cases h with
  | refl => rfl
  | call => exact absurd hc (by simp)

theorem Plain.properCall {calls : Calls} {op : EngineOp} {done : Bool}
    (h : Plain lz4 calls eng eng' op done) : ProperCall lz4 calls eng eng' op done := h.1

theorem Trace.inv {calls : Calls} (hrun : eng.Trace lz4 (Plain lz4) eng' calls) (h : Inv ps eng L) :
    ∃ L', Inv ps eng' L' :=
  (hrun.mono fun _ _ _ _ _ hp => hp.properCall).run.inv (fun _ _ _ hp => hp) h

/-- The same calls with the same results keep the tables the same. -/
theorem SameTxns.trace {calls : Calls} {eng₁ eng₁' : Engine} (h : SameTxns eng eng')
    (hi : Inv ps eng L) (hi' : Inv ps eng' L') (hrun : eng.Trace lz4 (Plain lz4) eng₁ calls)
    (hrun' : eng'.Trace lz4 (Plain lz4) eng₁' calls) : SameTxns eng₁ eng₁' := by
  induction hrun generalizing eng₁' with
  | refl =>
    rw [hrun'.nil]
    exact h
  | call hrun hc hok ih =>
    obtain ⟨eng₂', hrun', hc', hok'⟩ := hrun'.concat
    obtain ⟨L₂, hi₂⟩ := hrun.inv hi
    obtain ⟨L₂', hi₂'⟩ := hrun'.inv hi'
    exact (ih hrun').step hi₂ hi₂' (call_step hc) (call_step hc') hok.1 hok'.1

/-- What the table of a later state tells. -/
theorem Trace.since {calls : Calls} (hrun : eng.Trace lz4 (Plain lz4) eng' calls) (h : Inv ps eng L) :
    eng'.maxTxns = eng.maxTxns ∧ ∃ L', Inv ps eng' L' ∧
      Mvcc.Since (eng.maxTxns * 64) (eng.store L) (eng'.store L') := by
  induction hrun with
  | refl => exact ⟨rfl, L, h, .refl⟩
  | @call eng₁ eng₂ calls op done hrun hc hok ih =>
    obtain ⟨hmax, L₁, hi, hsince⟩ := ih
    have hs := call_step hc
    by_cases hop : op = .begin
    · subst hop
      cases hs
      by_cases hp : eng₁.HasPlace
      · have hb := storageBegin_place hp
        obtain ⟨hi', -, hstore⟩ := hi.begin hb hok.1.2
        refine ⟨hb.maxTxns.2.trans hmax, L₁, hi', ?_⟩
        rw [hstore]
        refine hsince.move h.mvcc hi.mvcc (.step .begin) nofun fun t _ => ?_
        rw [← hmax]
        exact hp.all
      · rw [storageBegin_noPlace hp]
        exact ⟨hmax, L₁, hi, hsince⟩
    · obtain ⟨L₂, hi₂, hact, -⟩ := hi.call hs hok.1
      obtain ⟨e, hm, hbegin, hcommit⟩ := hact.move hop
      refine ⟨(logs_step hop hs).maxTxns.trans hmax, L₂, hi₂, ?_⟩
      refine hsince.move h.mvcc hi.mvcc hm ?_ fun t he => absurd he (hbegin t)
      intro t he
      obtain rfl := hcommit t he
      exact hi.live_iff.mp hok.2

/-- The table of a run never has more transactions than places. -/
theorem Run.bounded {eng₀ : Engine} (hrun : eng₀.Run lz4 (Proper lz4) eng) (h : Inv ps eng₀ L)
    (h0 : eng₀.txns = []) : ∃ L', Inv ps eng L' ∧
      (eng.store L').Bounded eng.maxTxns (eng.maxTxns * 64) := by
  induction hrun with
  | refl =>
    refine ⟨L, h, .inl ?_⟩
    show eng₀.txns.map _ = []
    rw [h0]
    rfl
  | @step eng₁ eng₂ op hrun hs hp ih =>
    obtain ⟨L₁, hi, hb⟩ := ih
    by_cases hop : op = .begin
    · subst hop
      cases hs
      by_cases hp' : eng₁.HasPlace
      · have hbegin := storageBegin_place hp'
        obtain ⟨hi', -, hstore⟩ := hi.begin hbegin hp.2
        refine ⟨L₁, hi', ?_⟩
        rw [hstore, hbegin.maxTxns.2]
        have hm : Mvcc.Move id (eng₁.store L₁) (.begin eng₁.nextTxid) _ := .step .begin
        exact hb.move hm fun t _ => ⟨hp'.live, hp'.all⟩
      · rw [storageBegin_noPlace hp']
        exact ⟨L₁, hi, hb⟩
    · obtain ⟨L₂, hi₂, hact, -⟩ := hi.call hs hp
      obtain ⟨e, hm, hbegin, -⟩ := hact.move hop
      refine ⟨L₂, hi₂, ?_⟩
      rw [(logs_step hop hs).maxTxns]
      exact hb.move hm fun t he => absurd he (hbegin t)

/-- The chain page of a key stays. -/
theorem Trace.chainPage {calls : Calls} {key : Bytes} (hrun : eng.Trace lz4 (Plain lz4) eng' calls)
    (h : Inv ps eng L) (h' : Inv ps eng' L') (hc : L.own cid = some (.chain key)) :
    L'.own cid = some (.chain key) := by
  have hsearch : leafFindSearch eng'.pool eng'.btreeRoot key =
      some (some (encodeDescriptor cid false)) := by
    clear h'
    induction hrun with
    | refl => rw [h.pages.search, (h.pages.chain hc).1]
    | call hrun hcall hok ih =>
      obtain ⟨L₁, h₁⟩ := hrun.inv h
      obtain ⟨L₂, h₂, -, ⟨key', ht⟩, -⟩ := h₁.call (call_step hcall) hok.1
      rw [h₁.pages.search] at ih
      rw [h₂.pages.search, ht.lookup h₁ (Option.some.inj ih)]
  rw [h'.pages.search] at hsearch
  obtain ⟨-, hown⟩ := h'.toSound.lookup (Option.some.inj hsearch)
  have hr := h.pages.range hc
  have hn := h.next_le
  rwa [decodeCidFromDescriptor_encode hr.1 (by omega)] at hown

/-! ## Calls that make room for a reader -/

theorem proper_of_inv {op : EngineOp} (h : Inv ps eng' L)
    (hop : op = .begin ∧ Fits32 eng.nextTxid ∨ (∃ txn, op = .commit txn) ∨ ∃ txn, op = .rollback txn) :
    Proper lz4 eng eng' op := by
  refine ⟨h.ids, ?_⟩
  rcases hop with ⟨rfl, hfits⟩ | ⟨txn, rfl⟩ | ⟨txn, rfl⟩
  · exact hfits
  · trivial
  · trivial

theorem Trace.begin {calls : Calls} (hrun : eng.Trace lz4 (Plain lz4) eng' calls) (h : Inv ps eng' L)
    (hplace : eng'.HasPlace) (hfits : Fits32 eng'.nextTxid) : ∃ eng'',
      eng.Trace lz4 (Plain lz4) eng'' (calls ++ [(.begin, true)]) ∧ Inv ps eng'' L ∧
        eng''.store L = (eng'.store L).begin := by
  obtain ⟨hi, -, hs⟩ := h.begin (storageBegin_place hplace) hfits
  exact ⟨_, hrun.call rfl ⟨proper_of_inv hi (.inl ⟨rfl, hfits⟩), trivial⟩, hi, hs⟩

theorem Trace.commit {calls : Calls} (hrun : eng.Trace lz4 (Plain lz4) eng' calls) (h : Inv ps eng' L)
    (hlive : eng'.txnIsActive txn = true) : ∃ eng'',
      eng.Trace lz4 (Plain lz4) eng'' (calls ++ [(.commit txn, true)]) ∧ Inv ps eng'' L ∧
        eng''.store L = (eng'.store L).commit txn ∧ eng''.maxTxns = eng'.maxTxns := by
  obtain ⟨hi, hs⟩ := h.commit txn
  exact ⟨_, hrun.call rfl ⟨proper_of_inv hi (.inr (.inl ⟨_, rfl⟩)), hlive⟩, hi, hs, rfl⟩

theorem Trace.rollback {calls : Calls} (hrun : eng.Trace lz4 (Plain lz4) eng' calls)
    (h : Inv ps eng' L) (hlive : eng'.txnIsActive txn = true) : ∃ eng'',
      eng.Trace lz4 (Plain lz4) eng'' (calls ++ [(.rollback txn, true)]) ∧ Inv ps eng'' L ∧
        eng''.store L = (eng'.store L).rollback txn ∧ eng''.maxTxns = eng'.maxTxns := by
  obtain ⟨hi, hs⟩ := h.rollback txn
  exact ⟨_, hrun.call rfl ⟨proper_of_inv hi (.inr (.inr ⟨_, rfl⟩)), hlive⟩, hi, hs, rfl⟩

/-- After the calls a transaction has begun, and of those that were active all but `t` still are. -/
def ReaderAfter (lz4 : Lz4) (ps : Nat) (eng : Engine) (L : Layout) (t : Int) (calls : Calls) : Prop :=
  ∃ eng', eng.Trace lz4 (Plain lz4) eng' calls ∧ Inv ps eng' L ∧
    (eng'.store L).chain = (eng.store L).chain ∧ eng'.txnIsActive eng.nextTxid = true ∧
    ∀ x < eng.nextTxid, x ∈ eng'.activeTxns ↔ x ∈ eng.activeTxns ∧ x ≠ t

/-- A begin after calls that leave the chains. -/
theorem Trace.reader {calls : Calls} (hrun : eng.Trace lz4 (Plain lz4) eng' calls) (h : Inv ps eng' L)
    (hplace : eng'.HasPlace) (hfits : Fits32 eng.nextTxid) (hnext : eng'.nextTxid = eng.nextTxid)
    (hchain : (eng'.store L).chain = (eng.store L).chain)
    (hactive : ∀ x < eng.nextTxid, x ∈ eng'.activeTxns ↔ x ∈ eng.activeTxns ∧ x ≠ t) :
    ReaderAfter lz4 ps eng L t (calls ++ [(.begin, true)]) := by
  obtain ⟨eng₁, hrun₁, hi, hs⟩ := hrun.begin h hplace (hnext ▸ hfits)
  refine ⟨eng₁, hrun₁, hi, ?_, ?_, fun x hx => ?_⟩
  · rw [hs, ← hchain]
    rfl
  · rw [hi.live_iff, hs, Mvcc.State.live_begin]
    exact .inr hnext.symm
  · rw [← hactive x hx, ← active_store (L := L), hs, Mvcc.State.active_begin, List.mem_append,
      List.mem_singleton, active_store]
    refine or_iff_left ?_
    show x ≠ eng'.nextTxid
    omega

theorem Inv.readerBegin (h : Inv ps eng L) (hplace : eng.HasPlace) (hfits : Fits32 eng.nextTxid)
    (ht : t ∉ eng.activeTxns) : ReaderAfter lz4 ps eng L t [(.begin, true)] := by
  refine Trace.reader .refl h hplace hfits rfl rfl fun x _ => ?_
  refine (and_iff_left_of_imp ?_).symm
  rintro hx rfl
  exact ht hx

theorem Inv.readerCommit (h : Inv ps eng L)
    (hb : (eng.store L).Bounded eng.maxTxns (eng.maxTxns * 64)) (hfits : Fits32 eng.nextTxid)
    (ht : eng.txnIsActive t = true) :
    ReaderAfter lz4 ps eng L t [(.commit t, true), (.begin, true)] := by
  obtain ⟨eng₁, hrun, hi, hs, hmax⟩ := (Trace.refl : Trace lz4 (Plain lz4) eng eng []).commit h ht
  have hplace := h.mvcc.hasPlace_commit (h.live_iff.mp ht) hb
  rw [← hs, ← hmax] at hplace
  refine hrun.reader hi ⟨hplace.live, hplace.all⟩ hfits ?_ ?_ fun x _ => ?_
  · exact congrArg Mvcc.State.next hs
  · rw [hs]
    rfl
  · rw [← active_store (L := L), hs, h.mvcc.mem_active_commit, active_store]

theorem Inv.readerRollback (h : Inv ps eng L)
    (hb : (eng.store L).Bounded eng.maxTxns (eng.maxTxns * 64)) (hfits : Fits32 eng.nextTxid)
    (hu : eng.txnIsActive u = true) (hall : (eng.txns.length : Int) < eng.maxTxns * 64)
    (ht : t ∉ eng.activeTxns) :
    ReaderAfter lz4 ps eng L t [(.rollback u, true), (.begin, true)] := by
  obtain ⟨eng₁, hrun, hi, hs, hmax⟩ := (Trace.refl : Trace lz4 (Plain lz4) eng eng []).rollback h hu
  have hlen : (eng.store L).txns.length = eng.txns.length := List.length_map ..
  have hplace := h.mvcc.hasPlace_rollback (h.live_iff.mp hu) hb (hlen ▸ hall)
  rw [← hs, ← hmax] at hplace
  refine hrun.reader hi ⟨hplace.live, hplace.all⟩ hfits ?_ ?_ fun x _ => ?_
  · exact congrArg Mvcc.State.next hs
  · rw [hs]
    rfl
  · rw [← active_store (L := L), hs, Mvcc.State.active_rollback, active_store]
    refine (and_iff_left_of_imp ?_).symm
    rintro hx rfl
    exact ht hx

/-- A transaction that begins later can find `t` ended: it is active, or it is not and the table has a
place. -/
def CanEnd (eng : Engine) (t : Int) : Prop :=
  eng.txnIsActive t = true ∨
    t ∉ eng.activeTxns ∧ (eng.txns.length : Int) < eng.maxTxns * 64

theorem Inv.canEnd (h : Inv ps eng L) :
    (eng.store L).CanEnd (eng.maxTxns * 64) = eng.CanEnd := by
  funext t
  have hlen : (eng.store L).txns.length = eng.txns.length := List.length_map ..
  rw [Mvcc.State.CanEnd, CanEnd, h.live_iff, active_store, hlen]

/-- Some transaction is active when none can begin although the table is not full. -/
theorem exists_active (hall : (eng.txns.length : Int) < eng.maxTxns * 64) (hno : ¬ eng.HasPlace) :
    ∃ u, (eng.store L).Live u := by
  have hcount : 0 < (eng.store L).liveCount := by
    by_contra hzero
    refine hno ⟨?_, ?_⟩
    · show ((eng.store L).liveCount : Int) < _
      omega
    · show (((eng.txns.map TxnInfo.mark).length : Nat) : Int) < _
      rw [List.length_map]
      exact hall
  obtain ⟨⟨u, b⟩, hmem, hb⟩ := List.countP_pos_iff.mp hcount
  obtain rfl : b = false := by simpa using hb
  exact ⟨u, hmem⟩

/-- `garry_chain_page_prune` of a page with the engine's list of active transactions. -/
def prunePage (eng : Engine) (cid : Int) : Option Engine :=
  (chainPagePrune eng.pool (eng.pool.pages cid) eng.pageSize eng.activeTxns).map fun r =>
    { eng with pool := (r.1.setPage cid r.2).markDirty cid }

/-- Transactions that begin after the pruning of a page read from it what they would have read
without the pruning, whatever calls are made. -/
def PruneHidden (lz4 : Lz4) (eng pruned : Engine) (cid : Int) : Prop :=
  ∀ calls eng₁ eng₂ txn, eng.Trace lz4 (Plain lz4) eng₁ calls →
    pruned.Trace lz4 (Plain lz4) eng₂ calls → eng.nextTxid ≤ txn → eng₁.txnIsActive txn = true →
    eng₂.mvccGet txn cid = eng₁.mvccGet txn cid

theorem PruneHidden.of_safe {pruned : Engine} {key : Bytes} (h : Inv ps eng L)
    (h' : Inv ps pruned L') (hsame : SameTxns eng pruned) (hc : L.own cid = some (.chain key))
    (hc' : L'.own cid = some (.chain key))
    (hchain : (pruned.store L').chain key =
      Mvcc.prune eng.activeTxns ((eng.store L).chain key))
    (hsafe : Mvcc.PruneSafe eng.CanEnd eng.activeTxns ((eng.store L).chain key)) :
    PruneHidden lz4 eng pruned cid := by
  intro calls eng₁ eng₂ txn hrun hrun' hn hactive
  obtain ⟨-, _, -, hsince⟩ := hrun.since h
  have hnoPrune {eng eng' : Engine} (hrun : eng.Trace lz4 (Plain lz4) eng' calls) :
      eng.Trace lz4 (NoPrune lz4) eng' calls := hrun.mono fun _ _ _ _ _ hp => hp.noPrune
  obtain ⟨L₁, h₁, -, hnew₁⟩ := (hnoPrune hrun).stores h
  obtain ⟨L₂, h₂, -, hnew₂⟩ := (hnoPrune hrun').stores h'
  have hstored : pruned.stored lz4 = eng.stored lz4 := by
    funext value
    rw [stored, stored, hsame.compression]
  rw [hstored] at hnew₂
  have hlater : Mvcc.Since (eng.maxTxns * 64) (eng.store L) (eng₁.store L₁) :=
    hsince.same rfl rfl
  rw [h₁.toSound.mvccGet (hrun.chainPage h h₁ hc), h₂.toSound.mvccGet (hrun'.chainPage h' h₂ hc')]
  apply hlater.read_eq h.mvcc h₁.mvcc (hsame.trace h h' hrun hrun').txns (hnew₁ key)
  · rw [active_store, ← hchain]
    exact hnew₂ key
  · rw [h.canEnd, active_store]
    exact hsafe
  · exact (h₁.live_iff.mp hactive).active
  · exact hn

/-- What a reader of the pruned chain gets differs from what it would have read. -/
theorem not_pruneHidden {pruned : Engine} {key : Bytes} {calls : Calls} (h : Inv ps eng L)
    (hc : L.own cid = some (.chain key)) (hc' : L'.own cid = some (.chain key))
    (h' : Inv ps pruned L')
    (hsame : SameTxns eng pruned)
    (hchain : (pruned.store L').chain key =
      Mvcc.prune eng.activeTxns ((eng.store L).chain key))
    (hread : ∀ active', (∀ x, x < eng.nextTxid → (x ∈ active' ↔ x ∈ eng.activeTxns ∧ x ≠ t)) →
      Mvcc.read eng.nextTxid active' (Mvcc.prune eng.activeTxns ((eng.store L).chain key)) ≠
        Mvcc.read eng.nextTxid active' ((eng.store L).chain key))
    (hreader : ReaderAfter lz4 ps eng L t calls) (hreader' : ReaderAfter lz4 ps pruned L' t calls) :
    ¬ PruneHidden lz4 eng pruned cid := by
  intro hhidden
  obtain ⟨eng₁, hrun, h₁, hchain₁, hact, hold⟩ := hreader
  obtain ⟨eng₂, hrun', h₂, hchain₂, -, -⟩ := hreader'
  have hget := hhidden calls eng₁ eng₂ eng.nextTxid hrun hrun' le_rfl hact
  rw [h₁.toSound.mvccGet hc, h₂.toSound.mvccGet hc', Mvcc.State.read, Mvcc.State.read, hchain₁,
    hchain₂, hchain] at hget
  have hactive : (eng₂.store L').active = (eng₁.store L).active := by
    rw [Mvcc.State.active, Mvcc.State.active]
    exact congrArg _ (hsame.trace h h' hrun hrun').txns
  rw [hactive] at hget
  refine hread _ (fun x hx => ?_) hget
  rw [active_store]
  exact hold x hx

end Engine

/-- Transaction 2 commits a value, and transaction 1, which is older, overwrites it. -/
def overwritten : Option Engine := Engine.newCalls
  [.begin, .begin, .set 2 [107] [1], .commit 2, .set 1 [107] [2]]

/-- The state in which the next transaction has begun, when its id is 3. -/
def thirdBegun (eng : Engine) : Option Engine :=
  if eng.nextTxid = 3 ∧ eng.storageBegin.2.HasIds then some eng.storageBegin.2 else none

open Engine in
theorem trace_of_thirdBegun {eng eng' : Engine} (h : thirdBegun eng = some eng') :
    eng.nextTxid = 3 ∧ eng.Trace .stored (Plain .stored) eng' [(.begin, true)] := by
  rw [thirdBegun] at h
  split at h
  · next hids =>
    obtain rfl := Option.some.inj h
    have hfits : Fits32 eng.nextTxid := by
      rw [hids.1]
      decide
    exact ⟨hids.1, Trace.refl.call rfl ⟨⟨hids.2, hfits⟩, trivial⟩⟩
  · cases h

theorem overwritten_reads : (overwritten.bind fun eng => (eng.prunePage 2).bind fun pruned =>
    (thirdBegun eng).bind fun eng₁ => (thirdBegun pruned).map fun eng₂ =>
      (eng.keyChain [107], eng₁.txnIsActive 3, eng₁.mvccGet 3 2, eng₂.mvccGet 3 2)) =
    some (some 2, true, some [1], none) := by
  decide +kernel

end Garry
