import Garry.Verify.EngineRun
import Garry.Model.EntryBuffers

/-!
# The table of transactions

A history lists the calls of a session, the latest one first. The table holds the active
transactions and the ones that were rolled back, and `garry_mvcc_begin` has a limit for each.
-/

namespace Garry

/-- A call that changes the table of transactions; a begin with the id that it returns. -/
inductive TxnEvent
  | begin (txn : Int)
  | commit (txn : Int)
  | rollback (txn : Int)

/-- The transactions begun and neither committed nor rolled back. -/
def begunTxns : List TxnEvent → List Int
  | [] => []
  | .begin txn :: h => if txn = -1 then begunTxns h else begunTxns h ++ [txn]
  | .commit txn :: h => (begunTxns h).filter (· ≠ txn)
  | .rollback txn :: h => (begunTxns h).filter (· ≠ txn)

/-- The transactions rolled back while they were active, and not committed since. -/
def deadTxns : List TxnEvent → List Int
  | [] => []
  | .begin _ :: h => deadTxns h
  | .commit txn :: h => (deadTxns h).filter (· ≠ txn)
  | .rollback txn :: h => if txn ∈ begunTxns h then txn :: deadTxns h else deadTxns h

namespace Engine

/-- The histories of an engine, with the engine afterwards. -/
inductive TxnRun (eng₀ : Engine) : List TxnEvent → Engine → Prop
  | nil : TxnRun eng₀ [] eng₀
  | begin {h : List TxnEvent} {eng eng' : Engine} {txn : Int} : TxnRun eng₀ h eng →
    eng.mvccBegin = (txn, eng') → TxnRun eng₀ (.begin txn :: h) eng'
  | commit {h : List TxnEvent} {eng : Engine} {txn : Int} : TxnRun eng₀ h eng →
    TxnRun eng₀ (.commit txn :: h) (eng.mvccCommit txn)
  | rollback {h : List TxnEvent} {eng : Engine} {txn : Int} : TxnRun eng₀ h eng →
    TxnRun eng₀ (.rollback txn :: h) (eng.mvccRollback txn)

variable {eng₀ eng : Engine} {h : List TxnEvent}

/-- The ids of the entries that are rolled back, or of the others. -/
def tableIds (dead : Bool) (txns : List TxnInfo) : List Int :=
  (txns.filter fun info => decide (info.state = .rolledBack) = dead).map TxnInfo.txid

/-- The table after a history. -/
structure Table (eng₀ : Engine) (h : List TxnEvent) (eng : Engine) : Prop where
  maxTxns : eng.maxTxns = eng₀.maxTxns
  next : 0 ≤ eng.nextTxid
  nodup : eng.activeTxns.Nodup
  ids : ∀ txn ∈ eng.activeTxns, 0 ≤ txn ∧ txn < eng.nextTxid
  begun : (tableIds false eng.txns).Perm (begunTxns h)
  dead : (tableIds true eng.txns).Perm (deadTxns h)

theorem eraseP_eq_filter {txns : List TxnInfo} (hn : (txns.map TxnInfo.txid).Nodup) (txn : Int) :
    (txns.eraseP fun info => info.txid = txn) = txns.filter fun info => decide (info.txid ≠ txn) := by
  induction txns with
  | nil => rfl
  | cons info txns ih =>
    rw [List.map_cons, List.nodup_cons] at hn
    rw [List.eraseP_cons, List.filter_cons]
    by_cases ht : info.txid = txn
    · have hrest : (txns.filter fun info => decide (info.txid ≠ txn)) = txns := by
        rw [List.filter_eq_self]
        intro x hx
        have hxt : x.txid ≠ txn := fun e => hn.1 (ht.trans e.symm ▸ List.mem_map_of_mem hx)
        simpa using hxt
      rw [hrest]
      simp [ht]
    · rw [ih hn.2]
      simp [ht]

theorem tableIds_commit {txns : List TxnInfo} (hn : (txns.map TxnInfo.txid).Nodup) (dead : Bool)
    (txn : Int) : tableIds dead (txns.eraseP fun info => info.txid = txn) =
      (tableIds dead txns).filter (· ≠ txn) := by
  rw [tableIds, tableIds, eraseP_eq_filter hn, List.filter_map, List.filter_filter,
    List.filter_filter]
  congr 2
  funext info
  exact Bool.and_comm _ _

theorem tableIds_cons (dead : Bool) (info : TxnInfo) (txns : List TxnInfo) :
    tableIds dead (info :: txns) = if decide (info.state = .rolledBack) = dead then
      info.txid :: tableIds dead txns else tableIds dead txns := by
  rw [tableIds, List.filter_cons]
  by_cases hd : decide (info.state = .rolledBack) = dead
  · simp only [hd, decide_true, if_true, List.map_cons]
    rfl
  · simp only [hd, decide_false, Bool.false_eq_true, if_false]
    rfl

/-- A rollback moves the id, when it is that of an active transaction. -/
theorem tableIds_rollback {txns : List TxnInfo} (hn : (txns.map TxnInfo.txid).Nodup) (txn : Int)
    {f : TxnInfo → TxnInfo} (hf : ∀ info, (f info).txid = info.txid ∧ (f info).state = .rolledBack) :
    (tableIds false (updateTxn f txn txns) = (tableIds false txns).filter (· ≠ txn)) ∧
      (tableIds true (updateTxn f txn txns)).Perm
        (if txn ∈ tableIds false txns then txn :: tableIds true txns else tableIds true txns) := by
  induction txns with
  | nil => exact ⟨rfl, .refl _⟩
  | cons info txns ih =>
    rw [List.map_cons, List.nodup_cons] at hn
    have hout (dead : Bool) : info.txid ∉ tableIds dead txns :=
      fun hm => hn.1 ((List.filter_sublist.map _).subset hm)
    obtain ⟨hfi, hfs⟩ := hf info
    rw [updateTxn]
    by_cases ht : info.txid = txn
    · subst ht
      have hkeep : (tableIds false txns).filter (· ≠ info.txid) = tableIds false txns := by
        rw [List.filter_eq_self]
        intro t hm
        have hne : t ≠ info.txid := fun e => hout false (e ▸ hm)
        simpa using hne
      rw [if_pos rfl, tableIds_cons, tableIds_cons, tableIds_cons, tableIds_cons, hfs, hfi]
      by_cases hs : info.state = .rolledBack
      · simpa [hs, hout false] using hkeep.symm
      · simpa [hs] using hkeep.symm
    · rw [if_neg ht]
      obtain ⟨h1, h2⟩ := ih hn.2
      have hne : ¬ txn = info.txid := fun e => ht e.symm
      rw [tableIds_cons, tableIds_cons, tableIds_cons, tableIds_cons, h1]
      by_cases hs : info.state = .rolledBack
      · refine ⟨by simp [hs], ?_⟩
        simp only [hs, decide_true, Bool.true_eq_false, if_false, if_true]
        by_cases hm : txn ∈ tableIds false txns
        · rw [if_pos hm] at h2 ⊢
          exact (h2.cons _).trans (.swap _ _ _)
        · rw [if_neg hm] at h2 ⊢
          exact h2.cons _
      · refine ⟨by simp [hs, ht], ?_⟩
        simpa [hs, hne] using h2

theorem TxnRun.table (hrun : TxnRun eng₀ h eng) (h0 : eng₀.txns = []) (hn : 0 ≤ eng₀.nextTxid) :
    Table eng₀ h eng := by
  induction hrun with
  | nil =>
    exact {
      maxTxns := rfl
      next := hn
      nodup := by simp [activeTxns, h0]
      ids := by simp [activeTxns, h0]
      begun := by simp [tableIds, h0, begunTxns]
      dead := by simp [tableIds, h0, deadTxns] }
  | @begin h eng txn eng' _ hb ih =>
    have hn := ih.next
    rcases eng.mvccBegin_cases with e | ⟨-, e⟩
    · rw [e] at hb
      obtain ⟨rfl, rfl⟩ := Prod.mk.inj hb
      exact ⟨ih.maxTxns, hn, ih.nodup, ih.ids, ih.begun, ih.dead⟩
    · rw [e] at hb
      obtain ⟨rfl, rfl⟩ := Prod.mk.inj hb
      refine ⟨ih.maxTxns, by simp only; omega, ?_, ?_, ?_, ?_⟩
      · simp only [activeTxns, List.map_append, List.map_cons, List.map_nil]
        refine List.Nodup.append ih.nodup (List.nodup_singleton _) ?_
        intro t ht hm
        have := (ih.ids t ht).2
        obtain rfl := List.mem_singleton.mp hm
        omega
      · intro t ht
        simp only [activeTxns, List.map_append, List.map_cons, List.map_nil, List.mem_append,
          List.mem_singleton] at ht ⊢
        rcases ht with ht | rfl
        · have := ih.ids t ht
          omega
        · omega
      · rw [begunTxns, if_neg (by omega)]
        simp only [tableIds, List.filter_append, List.map_append]
        exact ih.begun.append_right _
      · simp only [tableIds, List.filter_append, List.map_append, deadTxns]
        simpa [tableIds] using ih.dead
  | @commit h eng txn _ ih =>
    refine ⟨ih.maxTxns, ih.next, ?_, ?_, ?_, ?_⟩
    · exact ih.nodup.sublist (List.eraseP_sublist.map _)
    · exact fun t ht => ih.ids t ((List.eraseP_sublist.map _).subset ht)
    · simp only [mvccCommit]
      rw [tableIds_commit ih.nodup]
      exact ih.begun.filter _
    · simp only [mvccCommit]
      rw [tableIds_commit ih.nodup]
      exact ih.dead.filter _
  | @rollback h eng txn _ ih =>
    obtain ⟨h1, h2⟩ := tableIds_rollback ih.nodup txn
      (f := fun info => { info with state := .rolledBack, modifiedPages := [] })
      fun _ => ⟨rfl, rfl⟩
    have hact : (eng.mvccRollback txn).activeTxns = eng.activeTxns :=
      map_txid_updateTxn (f := fun info => { info with state := .rolledBack, modifiedPages := [] })
        (fun _ => rfl) _
    refine ⟨ih.maxTxns, ih.next, hact ▸ ih.nodup, fun t ht => ih.ids t (hact ▸ ht), ?_, ?_⟩
    · simp only [mvccRollback]
      rw [h1]
      exact ih.begun.filter _
    · rw [deadTxns]
      refine h2.trans ?_
      simp only [ih.begun.mem_iff]
      split
      · exact ih.dead.cons _
      · exact ih.dead

/-- The table holds the active transactions and the dead ones. -/
theorem Table.lengths (ht : Table eng₀ h eng) :
    (eng.txns.countP fun info => info.state ≠ .rolledBack) = (begunTxns h).length ∧
      eng.txns.length = (begunTxns h).length + (deadTxns h).length := by
  have h1 := ht.begun.length_eq
  have h2 := ht.dead.length_eq
  rw [tableIds, List.length_map, ← List.countP_eq_length_filter] at h1 h2
  have h3 := List.length_eq_countP_add_countP (fun info : TxnInfo => decide (info.state = .rolledBack))
    (l := eng.txns)
  rw [← h1, h3, ← h2]
  constructor
  · refine List.countP_congr fun info _ => ?_
    simp
  · rw [Nat.add_comm]
    congr 1
    · refine List.countP_congr fun info _ => ?_
      simp
    · refine List.countP_congr fun info _ => ?_
      simp

/-- `garry_mvcc_begin` succeeds exactly when fewer than `max_txns` transactions are active and the
table has a free entry. -/
theorem Table.begin_iff (ht : Table eng₀ h eng) :
    eng.mvccBegin.1 ≠ -1 ↔ ((begunTxns h).length : Int) < eng₀.maxTxns ∧
      ((begunTxns h).length + (deadTxns h).length : Int) < eng₀.maxTxns * 64 := by
  obtain ⟨h1, h2⟩ := ht.lengths
  have hnext := ht.next
  rw [← ht.maxTxns, mvccBegin]
  simp only
  rw [h1, h2]
  split
  · constructor
    · intro hf
      exact absurd rfl hf
    · rintro ⟨hlt, -⟩
      omega
  split
  · constructor
    · intro hf
      exact absurd rfl hf
    · rintro ⟨-, hlt⟩
      push_cast at *
      omega
  · constructor
    · intro _
      push_cast at *
      omega
    · intro _
      simp only
      omega

/-- Transactions that begin and are rolled back one after the other fill the table. -/
theorem exists_dead (h0 : eng₀.txns = []) (hn : 0 ≤ eng₀.nextTxid) (n : Nat)
    (hle : (n : Int) ≤ eng₀.maxTxns * 64) :
    ∃ h eng, TxnRun eng₀ h eng ∧ begunTxns h = [] ∧ (deadTxns h).length = n := by
  induction n with
  | zero => exact ⟨[], eng₀, .nil, rfl, rfl⟩
  | succ n ih =>
    obtain ⟨h, eng, hrun, hb, hd⟩ := ih (by omega)
    have hbegin := (hrun.table h0 hn).begin_iff.mpr (by
      rw [hb, hd]
      push_cast at *
      simp only [List.length_nil]
      omega)
    obtain ⟨txn, eng', hres⟩ : ∃ txn eng', eng.mvccBegin = (txn, eng') := ⟨_, _, rfl⟩
    rw [hres] at hbegin
    have hb₁ : begunTxns (.begin txn :: h) = [txn] := by
      rw [begunTxns, if_neg hbegin, hb]
      rfl
    have hrun₁ : TxnRun eng₀ (.rollback txn :: .begin txn :: h) (eng'.mvccRollback txn) :=
      (hrun.begin hres).rollback
    refine ⟨_, _, hrun₁, ?_, ?_⟩
    · rw [begunTxns, hb₁]
      simp
    · rw [deadTxns, hb₁, if_pos (by simp), deadTxns, List.length_cons, hd]

end Engine

/-- The transactions begun and not committed since, whether they are active or rolled back. -/
def openTxns (h : List TxnEvent) : Nat := (begunTxns h).length + (deadTxns h).length

/-- No begin succeeds while `chainMaxActive` transactions or more are open. -/
def FewOpen : List TxnEvent → Prop
  | [] => True
  | .begin txn :: h => (txn ≠ -1 → openTxns h < chainMaxActive) ∧ FewOpen h
  | .commit _ :: h | .rollback _ :: h => FewOpen h

variable {h h' : List TxnEvent}

theorem openTxns_begin (txn : Int) (h : List TxnEvent) :
    openTxns (.begin txn :: h) = if txn = -1 then openTxns h else openTxns h + 1 := by
  rw [openTxns, openTxns, begunTxns, deadTxns]
  split
  · rfl
  · rw [List.length_append, List.length_singleton]
    omega

theorem openTxns_commit (txn : Int) (h : List TxnEvent) :
    openTxns (.commit txn :: h) ≤ openTxns h :=
  Nat.add_le_add (List.length_filter_le ..) (List.length_filter_le ..)

/-- A rollback leaves the transaction in the table. -/
theorem openTxns_rollback (txn : Int) (h : List TxnEvent) :
    openTxns (.rollback txn :: h) ≤ openTxns h := by
  rw [openTxns, openTxns, begunTxns, deadTxns]
  split
  · next hm =>
    have hlt : ((begunTxns h).filter (· ≠ txn)).length < (begunTxns h).length := by
      apply List.length_filter_lt_length_iff_exists.mpr
      exact ⟨txn, hm, by simp⟩
    rw [List.length_cons]
    omega
  · exact Nat.add_le_add_right (List.length_filter_le ..) _

theorem FewOpen.openTxns_le (hfew : FewOpen h) : openTxns h ≤ chainMaxActive := by
  induction h with
  | nil => exact Nat.zero_le _
  | cons e h ih =>
    cases e with
    | begin txn =>
      rw [openTxns_begin]
      split
      · exact ih hfew.2
      · next hne => exact hfew.1 hne
    | commit txn => exact (openTxns_commit txn h).trans (ih hfew)
    | rollback txn => exact (openTxns_rollback txn h).trans (ih hfew)

theorem FewOpen.suffix (hfew : FewOpen h) (hs : h' <:+ h) : FewOpen h' := by
  induction h with
  | nil =>
    obtain rfl := List.suffix_nil.mp hs
    trivial
  | cons e h ih =>
    rcases List.suffix_cons_iff.mp hs with rfl | hs'
    · exact hfew
    · cases e with
      | begin txn => exact ih hfew.2 hs'
      | commit txn => exact ih hfew hs'
      | rollback txn => exact ih hfew hs'

/-- A history that keeps the array large enough never begins a transaction too many. -/
theorem fewOpen_of_le (hle : ∀ h', h' <:+ h → openTxns h' ≤ chainMaxActive) : FewOpen h := by
  induction h with
  | nil => trivial
  | cons e h ih =>
    have hrest : FewOpen h := ih fun h' hs => hle h' (hs.trans (List.suffix_cons ..))
    cases e with
    | begin txn =>
      refine ⟨fun hne => ?_, hrest⟩
      have := hle _ (List.suffix_refl _)
      rwa [openTxns_begin, if_neg hne] at this
    | commit txn => exact hrest
    | rollback txn => exact hrest

namespace Engine

variable {eng₀ eng : Engine} {h : List TxnEvent}

/-- The snapshot fits its array exactly when few transactions are open. -/
theorem Table.gcSnapshot_iff (ht : Table eng₀ h eng) :
    eng.gcSnapshot.isSome ↔ openTxns h ≤ chainMaxActive := by
  rw [gcSnapshot, LocalArray.isSome_storeList, activeTxns, List.length_map, ht.lengths.2, openTxns,
    Nat.zero_add]
  constructor
  · rintro (hnil | hle)
    · have hlen := congrArg List.length hnil
      rw [List.length_map, ht.lengths.2] at hlen
      rw [hlen]
      exact Nat.zero_le _
    · exact hle
  · exact .inr

/-- The engine after an earlier part of the history. -/
theorem TxnRun.suffix (hrun : TxnRun eng₀ h eng) (hs : h' <:+ h) : ∃ eng', TxnRun eng₀ h' eng' := by
  induction hrun with
  | nil =>
    obtain rfl := List.suffix_nil.mp hs
    exact ⟨_, .nil⟩
  | begin hrun hb ih =>
    rcases List.suffix_cons_iff.mp hs with rfl | hs
    · exact ⟨_, hrun.begin hb⟩
    · exact ih hs
  | commit hrun ih =>
    rcases List.suffix_cons_iff.mp hs with rfl | hs
    · exact ⟨_, hrun.commit⟩
    · exact ih hs
  | rollback hrun ih =>
    rcases List.suffix_cons_iff.mp hs with rfl | hs
    · exact ⟨_, hrun.rollback⟩
    · exact ih hs

end Engine

open Engine in
/-- In every history, whatever `max_txns` is, the snapshot of the garbage collection fits its array
after each call exactly when every begin that succeeds finds fewer than four transactions that are
active or rolled back. -/
theorem gcSnapshot_inBounds {eng₀ eng : Engine} {h : List TxnEvent} (h0 : eng₀.txns = [])
    (hn : 0 ≤ eng₀.nextTxid) (hrun : TxnRun eng₀ h eng) :
    (∀ h' eng', h' <:+ h → TxnRun eng₀ h' eng' → eng'.gcSnapshot.isSome) ↔ FewOpen h := by
  constructor
  · intro hall
    apply fewOpen_of_le
    intro h' hs
    obtain ⟨eng', hrun'⟩ := hrun.suffix hs
    exact (hrun'.table h0 hn).gcSnapshot_iff.mp (hall h' eng' hs hrun')
  · intro hfew h' eng' hs hrun'
    exact (hrun'.table h0 hn).gcSnapshot_iff.mpr (FewOpen.suffix hfew hs).openTxns_le

open Engine in
/-- The first transaction of a new database leaves room for the snapshot. -/
theorem gcSnapshot_inBounds_first : ∃ eng₀, engineInit .empty [] .roomy defaultEngineSettings =
    some eng₀ ∧ eng₀.mvccBegin.2.gcSnapshot.isSome := by
  have hinit : (engineInit .empty [] .roomy defaultEngineSettings).map (fun eng =>
      (eng.txns, eng.nextTxid)) = some ([], 1) := by decide +kernel
  obtain ⟨eng₀, heng, hf⟩ := Option.map_eq_some_iff.mp hinit
  obtain ⟨h0, hn⟩ := Prod.mk.inj hf
  have hrun : TxnRun eng₀ [.begin eng₀.mvccBegin.1] eng₀.mvccBegin.2 := .begin .nil rfl
  exact ⟨eng₀, heng, (gcSnapshot_inBounds h0 (by omega) hrun).mpr ⟨fun _ => by decide, trivial⟩ _ _
    (List.suffix_refl _) hrun⟩

open Engine in
/-- Five transactions of a new database are rolled back one after the other. -/
theorem gcSnapshot_pastEnd : ∃ eng₀ h eng, engineInit .empty [] .roomy defaultEngineSettings =
    some eng₀ ∧ TxnRun eng₀ h eng ∧ begunTxns h = [] ∧ (deadTxns h).length = 5 ∧
      eng.gcSnapshot = none := by
  have hinit : (engineInit .empty [] .roomy defaultEngineSettings).map (fun eng =>
      (eng.txns, eng.nextTxid, eng.maxTxns)) = some ([], 1, 4) := by decide +kernel
  obtain ⟨eng₀, heng, hf⟩ := Option.map_eq_some_iff.mp hinit
  obtain ⟨h0, hf⟩ := Prod.mk.inj hf
  obtain ⟨hn, hm⟩ := Prod.mk.inj hf
  obtain ⟨h, eng, hrun, hb, hd⟩ := exists_dead h0 (by omega) 5 (by omega)
  refine ⟨eng₀, h, eng, heng, hrun, hb, hd, ?_⟩
  rw [← Option.not_isSome_iff_eq_none, (hrun.table h0 (by omega)).gcSnapshot_iff, openTxns, hb, hd]
  decide

end Garry
