import Garry.Library.MvccHistory
import Garry.Verify.CursorScan
import Garry.Verify.FailedSet

/-!
# What transactions see of each other

Histories of calls with their results. A transaction reads its own writes; a transaction that begins
reads what the commits before it have built; what it reads later changes only by its own writes and
by the commits of older transactions.
-/

namespace Garry

open ByteStore

/-! ## Calls with their results -/

/-- What a call does to the store, with `put` for what is stored for a value. -/
def EngineOp.event (put : Bytes → Option Bytes) (done : Bool) :
    EngineOp → Mvcc.Event Bytes Bytes Bytes
  | .set txn key value => if done then .write txn key (put value) else .skip
  | .delete txn key => if done then .write txn key none else .skip
  | .commit txn => .commit txn
  | .rollback txn => .rollback txn
  | _ => .skip

namespace Engine

variable {lz4 : Lz4} {ps : Nat} {eng eng' : Engine} {L L' : Layout} {put : Bytes → Option Bytes}

/-- A call, and whether it reports success. -/
def call (lz4 : Lz4) (eng : Engine) : EngineOp → Option (Bool × Engine)
  | .set txn key value => eng.storageSet lz4 txn key value
  | .delete txn key => eng.storageDelete txn key
  | op => (eng.step lz4 op).map fun eng => (true, eng)

theorem call_step {op : EngineOp} (h : eng.call lz4 op = some (done, eng')) :
    eng.step lz4 op = some eng' := by
  have hother {op : EngineOp}
      (h : ((eng.step lz4 op).map fun eng => (true, eng)) = some (done, eng')) :
      eng.step lz4 op = some eng' := by
    obtain ⟨eng₁, hs, he⟩ := Option.map_eq_some_iff.mp h
    cases he
    exact hs
  cases op with
  | set txn key value => exact Option.map_eq_some_iff.mpr ⟨_, h, rfl⟩
  | delete txn key => exact Option.map_eq_some_iff.mpr ⟨_, h, rfl⟩
  | begin => exact hother h
  | commit txn => exact hother h
  | rollback txn => exact hother h
  | gc => exact hother h
  | checkpoint => exact hother h
  | evict pid => exact hother h
  | frames env => exact hother h

/-- An event that writes nothing and ends nothing. -/
def Quiet (e : Mvcc.Event Bytes Bytes Bytes) : Prop :=
  (∃ t, e = .begin t) ∨ (∃ t k, e = .lock t k) ∨ e = .skip

theorem Written.event {s s' : Mvcc.State Bytes Bytes Bytes} {key : Bytes} {x : Option Bytes}
    (h : Written s s' txn key x ok) : ∃ e, Mvcc.Step id s e s' ∧
      (ok = true ∧ e = .write txn key x ∨ ok = false ∧ Quiet e) := by
  cases h with
  | rejected he =>
    subst he
    exact ⟨.skip, .skip, .inr ⟨rfl, .inr (.inr rfl)⟩⟩
  | failed hl hf he =>
    subst he
    exact ⟨_, .lock hl hf, .inr ⟨rfl, .inr (.inl ⟨_, _, rfl⟩)⟩⟩
  | done hl hf he =>
    subst he
    exact ⟨_, .write hl hf, .inl ⟨rfl, rfl⟩⟩

/-- Which key a call writes does not depend on what is stored. -/
theorem event_write {put : Bytes → Option Bytes} {op : EngineOp} {x : Option Bytes}
    (h : op.event put done = .write txn key x) (put' : Bytes → Option Bytes) :
    ∃ x', op.event put' done = .write txn key x' := by
  cases op with
  | set t k value =>
    cases done with
    | false => cases h
    | true =>
      cases h
      exact ⟨_, rfl⟩
  | delete t k =>
    cases done with
    | false => cases h
    | true =>
      cases h
      exact ⟨_, rfl⟩
  | begin => cases h
  | commit t => cases h
  | rollback t => cases h
  | gc => cases h
  | checkpoint => cases h
  | evict pid => cases h
  | frames env => cases h

theorem eq_commit_of_event {put : Bytes → Option Bytes} {op : EngineOp}
    (h : op.event put done = .commit txn) :
    op = .commit txn := by
  cases op with
  | commit txn =>
    cases h
    rfl
  | set txn key value => cases done <;> cases h
  | delete txn key => cases done <;> cases h
  | begin => cases h
  | rollback txn => cases h
  | gc => cases h
  | checkpoint => cases h
  | evict pid => cases h
  | frames env => cases h

/-- A call is the step of the store that its result tells, or a pruning. -/
inductive Moves (put : Bytes → Option Bytes) (eng eng' : Engine) (L L' : Layout) (op : EngineOp)
    (done : Bool) : Prop
  | step (e : Mvcc.Event Bytes Bytes Bytes) : Mvcc.Step id (eng.store L) e (eng'.store L') →
    (e = op.event put done ∨ op.event put done = .skip ∧ Quiet e) → Moves put eng eng' L L' op done
  | prune : op = .gc ∨ op = .checkpoint → Mvcc.Pruned (eng.store L) (eng'.store L') →
    Moves put eng eng' L L' op done

theorem Moves.of_eq {op : EngineOp} {e : Mvcc.Event Bytes Bytes Bytes}
    {s' : Mvcc.State Bytes Bytes Bytes} (hs : Mvcc.Step id (eng.store L) e s')
    (hs' : eng'.store L' = s') (he : e = op.event put done ∨ op.event put done = .skip ∧ Quiet e) :
    Moves put eng eng' L L' op done := by
  subst hs'
  exact .step e hs he

theorem Moves.move {op : EngineOp} (h : Moves put eng eng' L L' op done) :
    ∃ e, Mvcc.Move id (eng.store L) e (eng'.store L') ∧
      (e = op.event put done ∨ op.event put done = .skip ∧ Quiet e) := by
  cases h with
  | step e hs he => exact ⟨e, .step hs, he⟩
  | prune hop hp =>
    refine ⟨.skip, .prune hp, .inl ?_⟩
    rcases hop with rfl | rfl
    · rfl
    · rfl

theorem Inv.called (h : Inv ps eng L) {op : EngineOp}
    (hc : eng.call lz4 op = some (done, eng')) (hp : Proper lz4 eng eng' op) :
    ∃ L', Inv ps eng' L' ∧ Moves (eng.stored lz4) eng eng' L L' op done ∧
      (op ≠ .gc → op ≠ .checkpoint → VersionsKept eng.pool eng'.pool L L') := by
  cases op with
  | set txn key value =>
    obtain ⟨L', hi, hw, -, -, hlogs⟩ := h.set hp.2.1 hp.2.2 hc hp.1
    obtain ⟨e, hs, ⟨rfl, rfl⟩ | ⟨rfl, hq⟩⟩ := hw.event
    · exact ⟨L', hi, .step _ hs (.inl rfl), fun _ _ => hlogs.versions⟩
    · exact ⟨L', hi, .step e hs (.inr ⟨rfl, hq⟩), fun _ _ => hlogs.versions⟩
  | delete txn key =>
    obtain ⟨ok, eng₁, L', hdel, hi, hw, -, -, hkept⟩ := h.delete txn key
    obtain ⟨rfl, rfl⟩ := Prod.mk.inj (Option.some.inj (hdel.symm.trans hc))
    obtain ⟨e, hs, ⟨rfl, rfl⟩ | ⟨rfl, hq⟩⟩ := hw.event
    · exact ⟨L', hi, .step _ hs (.inl rfl), fun _ _ => hkept⟩
    · exact ⟨L', hi, .step e hs (.inr ⟨rfl, hq⟩), fun _ _ => hkept⟩
  | begin =>
    obtain ⟨L', hi, hact, -, -, -, hkept⟩ := h.call (call_step hc) hp
    rcases hact with he | he
    · exact ⟨L', hi, .of_eq .skip he (.inl rfl), hkept⟩
    · exact ⟨L', hi, .of_eq .begin he (.inr ⟨rfl, .inl ⟨_, rfl⟩⟩), hkept⟩
  | commit txn =>
    obtain ⟨L', hi, he, -, -, -, hkept⟩ := h.call (call_step hc) hp
    exact ⟨L', hi, .of_eq .commit he (.inl rfl), hkept⟩
  | rollback txn =>
    obtain ⟨L', hi, he, -, -, -, hkept⟩ := h.call (call_step hc) hp
    exact ⟨L', hi, .of_eq .rollback he (.inl rfl), hkept⟩
  | gc =>
    obtain ⟨L', hi, hact, -, -, -, hkept⟩ := h.call (call_step hc) hp
    exact ⟨L', hi, .prune (.inl rfl) hact, hkept⟩
  | checkpoint =>
    obtain ⟨L', hi, hact, -, -, -, hkept⟩ := h.call (call_step hc) hp
    exact ⟨L', hi, .prune (.inr rfl) hact, hkept⟩
  | evict pid =>
    obtain ⟨L', hi, he, -, -, -, hkept⟩ := h.call (call_step hc) hp
    exact ⟨L', hi, .of_eq .skip he (.inl rfl), hkept⟩
  | frames env =>
    obtain ⟨L', hi, he, -, -, -, hkept⟩ := h.call (call_step hc) hp
    exact ⟨L', hi, .of_eq .skip he (.inl rfl), hkept⟩

/-- The calls made so far, with their results. -/
abbrev Calls := List (EngineOp × Bool)

/-- The histories of calls from an engine, every one with `ok`. -/
inductive Trace (lz4 : Lz4) (ok : Calls → Engine → Engine → EngineOp → Bool → Prop)
    (eng : Engine) : Engine → Calls → Prop
  | refl : Trace lz4 ok eng eng []
  | call {eng' eng'' : Engine} {calls : Calls} {op : EngineOp} {done : Bool} :
    Trace lz4 ok eng eng' calls → eng'.call lz4 op = some (done, eng'') →
    ok calls eng' eng'' op done → Trace lz4 ok eng eng'' (calls ++ [(op, done)])

/-- Proper calls. -/
def ProperCall (lz4 : Lz4) (_ : Calls) (eng eng' : Engine) (op : EngineOp) (_ : Bool) : Prop :=
  Proper lz4 eng eng' op

variable {ok ok' : Calls → Engine → Engine → EngineOp → Bool → Prop} {calls : Calls}

theorem Trace.mono (h : Trace lz4 ok eng eng' calls)
    (hok : ∀ calls eng eng' op done, ok calls eng eng' op done → ok' calls eng eng' op done) :
    Trace lz4 ok' eng eng' calls := by
  induction h with
  | refl => exact .refl
  | call _ hc hp ih => exact ih.call hc (hok _ _ _ _ _ hp)

theorem Trace.run (h : Trace lz4 (ProperCall lz4) eng eng' calls) :
    eng.Run lz4 (Proper lz4) eng' := by
  induction h with
  | refl => exact .refl
  | call _ hc hp ih => exact ih.step (call_step hc) hp

/-! ## Own writes -/

/-- Proper calls, none of which writes one of the keys for the transaction. -/
def Unwritten (lz4 : Lz4) (txn : Int) (keys : Set Bytes) (_ : Calls) (eng eng' : Engine)
    (op : EngineOp) (done : Bool) : Prop :=
  Proper lz4 eng eng' op ∧ ∀ key ∈ keys, ∀ x, op.event some done ≠ .write txn key x

theorem Unwritten.ne_write {keys : Set Bytes} {before : Calls} {op : EngineOp}
    (h : Unwritten lz4 txn keys before eng eng' op done) {key : Bytes} (hkey : key ∈ keys)
    (x : Option Bytes) : op.event put done ≠ .write txn key x := by
  intro he
  obtain ⟨x', he'⟩ := event_write he some
  exact h.2 key hkey x' he'

theorem Quiet.ne_write {e : Mvcc.Event Bytes Bytes Bytes} (h : Quiet e) (txn : Int) (key : Bytes)
    (x : Option Bytes) : e ≠ .write txn key x := by
  rintro rfl
  rcases h with ⟨t, h⟩ | ⟨t, k, h⟩ | h <;> cases h

theorem Quiet.ne_commit {e : Mvcc.Event Bytes Bytes Bytes} (h : Quiet e) (txn : Int) :
    e ≠ .commit txn := by
  rintro rfl
  rcases h with ⟨t, h⟩ | ⟨t, k, h⟩ | h <;> cases h

/-- The newest version of a key, while its transaction is live and does not write the key. -/
theorem Trace.head {v : Mvcc.Version Bytes} {key : Bytes}
    (hrun : Trace lz4 (Unwritten lz4 v.txid {key}) eng eng' calls) (h : Inv ps eng L)
    (ht : v.txid < (eng.store L).next)
    (hv : ((eng.store L).chain key).head? = some v) :
    ∃ L', Inv ps eng' L' ∧ v.txid < (eng'.store L').next ∧
      ((eng'.store L').Live v.txid → ((eng'.store L').chain key).head? = some v) := by
  induction hrun with
  | refl => exact ⟨L, h, ht, fun _ => hv⟩
  | call hrun hc hok ih =>
    obtain ⟨L₁, hi, hlt, hhead⟩ := ih
    obtain ⟨L₂, hi₂, hmoves, -⟩ := hi.called hc hok.1
    obtain ⟨e, hm, he⟩ := hmoves.move
    refine ⟨L₂, hi₂, hlt.trans_le hm.next_le, fun hl => ?_⟩
    have hl₁ := hm.live hi.mvcc hl hlt
    refine hm.head hi.mvcc hl₁ (hhead hl₁) fun x => ?_
    rcases he with rfl | ⟨-, hq⟩
    · exact hok.ne_write rfl x
    · exact hq.ne_write _ _ _

/-- A successful write puts a version on top that the transaction reads until it writes again. -/
theorem Inv.ownWrite (h : Inv ps eng L) (hraw : eng.compression ≠ compressLz4) {op : EngineOp}
    {key : Bytes} {x : Option Bytes} {eng₁ eng₂ : Engine} (hop : op.event some true = .write txn key x)
    (hc : eng.call lz4 op = some (true, eng₁)) (hp : Proper lz4 eng eng₁ op)
    (hrun : Trace lz4 (Unwritten lz4 txn {key}) eng₁ eng₂ calls)
    (hact : eng₂.txnIsActive txn = true) (hpos : 0 < key.length) (hlen : key.length ≤ maxKeySize) :
    eng₂.storageGet lz4 txn key = some x := by
  obtain ⟨L₁, hi, hmoves, -⟩ := h.called hc hp
  rw [stored_of_raw hraw] at hmoves
  obtain ⟨e, hm, he⟩ := hmoves.move
  obtain rfl : e = .write txn key x := by
    rcases he with rfl | ⟨hs, -⟩
    · exact hop
    · rw [hop] at hs
      cases hs
  have hraw₁ : eng₁.compression ≠ compressLz4 := by
    rwa [← (Run.refl.step (call_step hc) hp : eng.Run lz4 (Proper lz4) eng₁).compression] at hraw
  obtain ⟨hhead, hlive⟩ : ((eng₁.store L₁).chain key).head? = some ⟨txn, x⟩ ∧
      (eng₁.store L₁).Live txn := by
    cases hm with
    | step hs =>
      generalize eng₁.store L₁ = s' at hs
      cases hs with
      | write hl hf => exact ⟨Mvcc.State.head_push .., hl⟩
  obtain ⟨L₂, hi₂, -, hend⟩ := Trace.head (v := ⟨txn, x⟩) hrun hi (hi.mvcc.live_lt hlive) hhead
  have hlive₂ := hi₂.live_iff.mp hact
  have hraw₂ := (hrun.mono fun _ _ _ _ _ hp => hp.1).run.compression ▸ hraw₁
  have hread := Mvcc.State.read_head (hend hlive₂)
  rw [hi₂.storageGet hlive₂ hpos hlen, shown_of_raw hraw₂, Option.bind_fun_some]
  exact congrArg some hread

/-! ## Reads of a transaction that begins -/

/-- The map that the commits have built, and the writes of the open transactions. -/
def history (calls : Calls) : Mvcc.History Bytes Bytes :=
  calls.foldl (fun h c => h.after (c.1.event some c.2)) .new

/-- Proper calls without garbage collection, and only active transactions end. -/
def Plain (lz4 : Lz4) (_ : Calls) (eng eng' : Engine) (op : EngineOp) (_ : Bool) : Prop :=
  Proper lz4 eng eng' op ∧
    match op with
    | .commit txn => eng.txnIsActive txn = true
    | .rollback txn => eng.txnIsActive txn = true
    | .gc => False
    | .checkpoint => False
    | _ => True

theorem Quiet.after {e : Mvcc.Event Bytes Bytes Bytes} (h : Quiet e)
    (hist : Mvcc.History Bytes Bytes) : hist.after e = hist := by
  rcases h with ⟨t, rfl⟩ | ⟨t, k, rfl⟩ | rfl
  · rfl
  · rfl
  · rfl

theorem history_concat (calls : Calls) (op : EngineOp) (done : Bool) :
    history (calls ++ [(op, done)]) = (history calls).after (op.event some done) :=
  List.foldl_concat ..

/-- The store of a history of calls. -/
theorem Trace.history (hrun : Trace lz4 (Plain lz4) eng eng' calls) (h : Inv ps eng L)
    (hraw : eng.compression ≠ compressLz4) (hnew : Mvcc.History.new.Of (eng.store L)) :
    ∃ L', Inv ps eng' L' ∧ (Engine.history calls).Of (eng'.store L') := by
  induction hrun with
  | refl => exact ⟨L, h, hnew⟩
  | call hrun hc hok ih =>
    rename_i eng₁ eng₂ calls op done
    obtain ⟨L₁, hi, hof⟩ := ih
    have hraw₁ := (hrun.mono fun _ _ _ _ _ hp => hp.1).run.compression ▸ hraw
    obtain ⟨L₂, hi₂, hmoves, -⟩ := hi.called hc hok.1
    rw [stored_of_raw hraw₁] at hmoves
    refine ⟨L₂, hi₂, ?_⟩
    rw [history_concat]
    cases hmoves with
    | step e hs he =>
      have hlive : ∀ t, e = .commit t → (eng₁.store L₁).Live t := by
        rintro t rfl
        rcases he with he | ⟨-, hq⟩
        · obtain rfl := eq_commit_of_event he.symm
          exact hi.live_iff.mp hok.2
        · exact absurd rfl (hq.ne_commit t)
      have hafter := hof.step hi.mvcc hs hlive
      rcases he with rfl | ⟨hskip, hq⟩
      · exact hafter
      · rw [hskip]
        rw [hq.after] at hafter
        exact hafter
    | prune hop hp =>
      rcases hop with rfl | rfl
      · exact hok.2.elim
      · exact hok.2.elim

/-- A new database has no history. -/
theorem Created.history (h : Created ps eng) : Mvcc.History.new.Of (eng.store .new) := by
  have htxns : (eng.store .new).txns = [] := by
    rw [store, h.inv.2.1]
    rfl
  refine ⟨fun i => rfl, fun t hl => ?_, fun t _ => rfl⟩
  rw [Mvcc.State.Live, htxns] at hl
  cases hl

theorem Begins.compression (hb : eng.Begins txn eng') : eng'.compression = eng.compression := by
  rw [hb.eq]

theorem Inv.begin_live (h : Inv ps eng L) (hb : eng.Begins txn eng') (ht : Fits32 txn) :
    (eng'.store L).Live txn := by
  obtain ⟨-, rfl, hs⟩ := h.begin hb ht
  rw [hs]
  exact Mvcc.State.live_begin.mpr (.inr rfl)

/-- The transaction that begins reads the map. -/
theorem Inv.beginRead (h : Inv ps eng L) (hraw : eng.compression ≠ compressLz4)
    (hb : eng.Begins txn eng') (ht : Fits32 txn) {hist : Mvcc.History Bytes Bytes}
    (hof : hist.Of (eng.store L)) {key : Bytes} (hpos : 0 < key.length)
    (hlen : key.length ≤ maxKeySize) : eng'.storageGet lz4 txn key = some (hist.map key) := by
  have hlive := h.begin_live hb ht
  obtain ⟨hi, rfl, hs⟩ := h.begin hb ht
  have hraw' : eng'.compression ≠ compressLz4 := hb.compression ▸ hraw
  rw [hi.storageGet hlive hpos hlen, shown_of_raw hraw', Option.bind_fun_some, hs]
  have hread := h.mvcc.read_begin key
  rw [hof.map, ← hread]
  rfl

/-! ## Snapshots -/

/-- The transaction has written the key. -/
def HasWritten (calls : Calls) (txn : Int) (key : Bytes) : Prop :=
  ∃ c ∈ calls, ∃ x, c.1.event some c.2 = .write txn key x

/-- Proper calls that do not write the keys for the transaction, nor commit an older transaction
that is open and has written one of them. -/
def Undisturbed (lz4 : Lz4) (txn : Int) (keys : Set Bytes) (before : Calls) (calls : Calls)
    (eng eng' : Engine) (op : EngineOp) (done : Bool) : Prop :=
  Unwritten lz4 txn keys calls eng eng' op done ∧
    ∀ u, op = .commit u → u < txn → (eng.findTxn u).isSome = true →
      ∀ key ∈ keys, ¬ HasWritten (before ++ calls) u key

/-- Every version is by a transaction that has written the key. -/
def AllWritten (calls : Calls) (s : Mvcc.State Bytes Bytes Bytes) : Prop :=
  ∀ key, ∀ v ∈ s.chain key, HasWritten calls v.txid key

theorem HasWritten.concat {c : EngineOp × Bool} (h : HasWritten calls txn key) :
    HasWritten (calls ++ [c]) txn key := by
  obtain ⟨c', hc, hx⟩ := h
  exact ⟨c', List.mem_append_left _ hc, hx⟩

theorem Moves.allWritten {op : EngineOp} (hm : Moves put eng eng' L L' op done)
    (h : AllWritten calls (eng.store L)) : AllWritten (calls ++ [(op, done)]) (eng'.store L') := by
  cases hm with
  | step e hs he =>
    generalize eng'.store L' = s' at hs
    intro key v hv
    cases hs with
    | begin => exact (h key v hv).concat
    | lock => exact (h key v hv).concat
    | @write t i x hl hf =>
      by_cases hk : key = i
      · subst hk
        simp only [Mvcc.State.push, Function.update_self] at hv
        rcases List.mem_cons.mp hv with rfl | hv
        · refine ⟨(op, done), List.mem_append_right _ (List.mem_singleton_self _), ?_⟩
          rcases he with he | ⟨-, hq⟩
          · exact event_write he.symm some
          · exact absurd rfl (hq.ne_write t key x)
        · exact (h key v hv).concat
      · simp only [Mvcc.State.push, Function.update_of_ne hk] at hv
        exact (h key v hv).concat
    | commit => exact (h key v hv).concat
    | rollback => exact (h key v hv).concat
    | skip => exact (h key v hv).concat
  | prune _ hp => exact fun key v hv => (h key v ((hp.sublist key).subset hv)).concat

theorem Trace.allWritten (hrun : Trace lz4 (ProperCall lz4) eng eng' calls) (h : Inv ps eng L)
    (hnew : AllWritten [] (eng.store L)) :
    ∃ L', Inv ps eng' L' ∧ AllWritten calls (eng'.store L') := by
  induction hrun with
  | refl => exact ⟨L, h, hnew⟩
  | call hrun hc hok ih =>
    obtain ⟨L₁, hi, hall⟩ := ih
    obtain ⟨L₂, hi₂, hm, -⟩ := hi.called hc hok
    exact ⟨L₂, hi₂, hm.allWritten hall⟩

/-- What a transaction reads on the keys stays. -/
theorem Trace.reads {keys : Set Bytes} {before : Calls}
    (hrun : Trace lz4 (Undisturbed lz4 txn keys before) eng eng' calls) (h : Inv ps eng L)
    (hl : (eng.store L).Live txn)
    (hall : AllWritten before (eng.store L)) :
    ∃ L', Inv ps eng' L' ∧ AllWritten (before ++ calls) (eng'.store L') ∧
      txn < (eng'.store L').next ∧
      ((eng'.store L').Live txn →
        ∀ key ∈ keys, (eng'.store L').read txn key = (eng.store L).read txn key) := by
  induction hrun with
  | refl =>
    rw [List.append_nil]
    exact ⟨L, h, hall, h.mvcc.live_lt hl, fun _ _ _ => rfl⟩
  | call hrun hc hok ih =>
    rename_i eng₁ eng₂ calls op done
    obtain ⟨L₁, hi, hall₁, hlt, hreads⟩ := ih
    obtain ⟨L₂, hi₂, hm, -⟩ := hi.called hc hok.1.1
    have hall₂ := hm.allWritten hall₁
    rw [List.append_assoc] at hall₂
    obtain ⟨e, hmove, he⟩ := hm.move
    refine ⟨L₂, hi₂, hall₂, hlt.trans_le hmove.next_le, fun hl₂ key hkey => ?_⟩
    have hl₁ := hmove.live hi.mvcc hl₂ hlt
    rw [← hreads hl₁ key hkey]
    refine hmove.read hi.mvcc hl₁ hl₂ (fun x => ?_) fun u hu hact hut v hv hvu => ?_
    · rcases he with rfl | ⟨-, hq⟩
      · exact hok.1.ne_write hkey x
      · exact hq.ne_write _ _ _
    · have hop : op = .commit u := by
        rcases he with rfl | ⟨-, hq⟩
        · exact eq_commit_of_event hu
        · exact absurd hu (hq.ne_commit u)
      have hfind : (eng₁.findTxn u).isSome = true := by
        rw [active_store] at hact
        obtain ⟨info, hinfo, hid⟩ := List.mem_map.mp hact
        rw [findTxn, List.find?_isSome]
        exact ⟨info, hinfo, decide_eq_true hid⟩
      exact hok.2 u hop hut hfind key hkey (hvu ▸ hall₁ key v hv)

theorem allWritten_new (eng : Engine) : AllWritten [] (eng.store .new) := by
  intro key v hv
  cases hv

/-! ## Scans with or without compression -/

/-- What a scan returns for the entries. -/
def scanned (lz4 : Lz4) (eng : Engine) (txn : Int) (es : List (Bytes × Bytes)) :
    List (Bytes × Option Bytes) :=
  (eng.hits txn es).filterMap fun e => (eng.cursorValue lz4 e.2).map fun v => (e.1, v)

variable {es : List (Bytes × Bytes)}

theorem scanned_cons_of_none {e : Bytes × Bytes} (h : eng.entryVersion txn e.2 = none) :
    eng.scanned lz4 txn (e :: es) = eng.scanned lz4 txn es := by
  rw [scanned, hits_cons_of_none h]
  rfl

theorem scanned_cons_of_some {e : Bytes × Bytes} {val : Bytes}
    (h : eng.entryVersion txn e.2 = some val) :
    eng.scanned lz4 txn (e :: es) =
      ((eng.cursorValue lz4 val).map fun v => (e.1, v)).toList ++ eng.scanned lz4 txn es := by
  rw [scanned, hits_cons_of_some h, List.filterMap_cons]
  cases eng.cursorValue lz4 val <;> rfl

/-- What `garry_storage_cursor_next` does to a cursor before the entries `es`. -/
inductive Steps (lz4 : Lz4) (eng : Engine) (txn : Int) (pfx : Bytes) (es : List (Bytes × Bytes)) :
    Option (Bytes × Option Bytes) → StorageCursor → Prop
  | none {cur : StorageCursor} : eng.scanned lz4 txn (withPrefix pfx es) = [] →
    cur.btreeCur.exhausted = true → Steps lz4 eng txn pfx es none cur
  | some {cur : StorageCursor} (e : Bytes × Option Bytes) (es' : List (Bytes × Bytes)) :
    eng.scanned lz4 txn (withPrefix pfx es) = e :: eng.scanned lz4 txn (withPrefix pfx es') →
    es'.length < es.length → Stands eng.pool pfx cur.btreeCur es' → cur.txn = txn →
    Steps lz4 eng txn pfx es (some e) cur

theorem Steps.of_eq {es' : List (Bytes × Bytes)} {found : Option (Bytes × Option Bytes)}
    {cur : StorageCursor} (h : Steps lz4 eng txn pfx es' found cur)
    (he : eng.scanned lz4 txn (withPrefix pfx es) = eng.scanned lz4 txn (withPrefix pfx es'))
    (hlt : es'.length < es.length) : Steps lz4 eng txn pfx es found cur := by
  cases h with
  | none h1 h2 => exact .none (he.trans h1) h2
  | some e es'' h1 h2 h3 h4 => exact .some e es'' (he.trans h1) (h2.trans hlt) h3 h4

theorem cursorNextLoop_steps {cur : StorageCursor} (h : Stands eng.pool pfx cur.btreeCur es)
    (hfuel : es.length < fuel) :
    ∃ found cur', cursorNextLoop lz4 eng true fuel cur = some (found, cur') ∧
      Steps lz4 eng cur.txn pfx es found cur' := by
  induction fuel generalizing cur es with
  | zero => omega
  | succ fuel ih =>
    obtain ⟨found, btreeCur, heq, hadv⟩ := h.next
    rw [cursorNextLoop, heq]
    cases hadv with
    | none h1 h2 => exact ⟨none, _, rfl, .none (by rw [h1]; rfl) h2⟩
    | some e es' h1 h2 h3 h4 =>
      simp only
      rw [cursorVersion_of_passed h4]
      obtain ⟨found, cur', heq', hsteps⟩ := @ih _ ⟨btreeCur, cur.txn⟩ h3 (by omega)
      cases hv : eng.entryVersion cur.txn e.2 with
      | none =>
        refine ⟨found, cur', heq', hsteps.of_eq ?_ h2⟩
        rw [h1]
        exact scanned_cons_of_none hv
      | some val =>
        have hhit : eng.scanned lz4 cur.txn (e :: withPrefix pfx es') = _ := scanned_cons_of_some hv
        simp only [if_true]
        cases hval : eng.cursorValue lz4 val with
        | none =>
          refine ⟨found, cur', heq', hsteps.of_eq ?_ h2⟩
          rw [h1, hhit, hval]
          rfl
        | some value =>
          refine ⟨_, _, rfl, .some (e.1, value) es' ?_ h2 h3 rfl⟩
          rw [h1, hhit, hval]
          rfl

theorem scans_scanned (lz4 : Lz4) {cur : StorageCursor} (h : Stands eng.pool pfx cur.btreeCur es) :
    eng.Scans lz4 cur (eng.scanned lz4 cur.txn (withPrefix pfx es)) := by
  have hnext {cur : StorageCursor} {es : List (Bytes × Bytes)}
      (h : Stands eng.pool pfx cur.btreeCur es) :
      ∃ found cur', eng.cursorNext lz4 true cur = some (found, cur') ∧
        Steps lz4 eng cur.txn pfx es found cur' := by
    rw [cursorNext]
    split
    · next he =>
      cases h with
      | exhausted => exact ⟨none, cur, rfl, .none rfl he⟩
      | leaf x l he' =>
        rw [he'] at he
        cases he
    · exact cursorNextLoop_steps h h.length_lt
  generalize hn : es.length = n
  induction n using Nat.strongRecOn generalizing cur es with
  | ind n ih =>
    obtain ⟨found, cur', heq, hsteps⟩ := hnext h
    cases hsteps with
    | none h1 h2 =>
      rw [h1]
      exact .done heq h2
    | some e es' h1 h2 h3 h4 =>
      rw [h1]
      have hrest := ih es'.length (hn ▸ h2) h3 rfl
      rw [h4] at hrest
      exact .next heq hrest

/-- The descriptor that the tree holds for a key leads to what the transaction reads. -/
theorem Inv.entryVersion (h : Inv ps eng L) (txn : Int) (key : Bytes) :
    (SortedAssoc.lookup key L.root.toList).bind (eng.entryVersion txn) =
      (eng.store L).read txn key := by
  have hl : SortedAssoc.lookup key L.root.toList = L.lookup key := rfl
  rw [hl]
  cases hl : L.lookup key with
  | none =>
    have hempty := h.pages.empty hl
    simp [Mvcc.State.read, store, hempty, chainOf, Mvcc.read, Mvcc.newest]
  | some v =>
    obtain ⟨h0, hc⟩ := h.toSound.lookup hl
    obtain ⟨cid, hv, -⟩ := h.pages.entry hl
    have hlen : ¬ (v.length = 0 ∨ v.length > lookupBufSize) := by
      rw [hv, not_or]
      exact ⟨fun e => encodeDescriptor_ne_nil (List.eq_nil_of_length_eq_zero e),
        not_lt.mpr ((encodeDescriptor_length_le cid false).trans (by decide))⟩
    rw [Option.bind_some, Engine.entryVersion, if_neg hlen]
    simp only
    rw [if_neg (by omega), h.toSound.mvccGet hc txn]

theorem Inv.mem_hits (h : Inv ps eng L) {e : Bytes × Bytes} :
    e ∈ eng.hits txn (withPrefix pfx L.root.toList) ↔
      pfx <+: e.1 ∧ (eng.store L).read txn e.1 = some e.2 := by
  rw [← h.entryVersion, hits, List.mem_filterMap, Option.bind_eq_some_iff]
  constructor
  · rintro ⟨x, hx, he⟩
    obtain ⟨val, hval, rfl⟩ := Option.map_eq_some_iff.mp he
    obtain ⟨hx, hp⟩ := List.mem_filter.mp hx
    exact ⟨prefixMatch_iff.mp hp, x.2, h.pages.tree.wf.sorted.lookup_of_mem hx, hval⟩
  · rintro ⟨hp, v, hl, hv⟩
    refine ⟨(e.1, v), List.mem_filter.mpr ⟨SortedAssoc.mem_of_lookup hl, prefixMatch_iff.mpr hp⟩, ?_⟩
    rw [hv]
    rfl

theorem Inv.sorted_hits (h : Inv ps eng L) (txn : Int) (pfx : Bytes) :
    (eng.hits txn (withPrefix pfx L.root.toList)).Pairwise fun a b => a.1 < b.1 := by
  have hs : (withPrefix pfx L.root.toList).Pairwise fun a b => a.1 < b.1 :=
    h.pages.tree.wf.sorted.sublist List.filter_sublist
  rw [hits, List.pairwise_filterMap]
  refine hs.imp fun hab x hx y hy => ?_
  obtain ⟨u, -, rfl⟩ := Option.map_eq_some_iff.mp hx
  obtain ⟨v, -, rfl⟩ := Option.map_eq_some_iff.mp hy
  exact hab

theorem Inv.scans (h : Inv ps eng L) (lz4 : Lz4) (txn : Int) (pfx : Bytes) :
    ∃ cur, eng.cursorOpen txn pfx = some cur ∧
      eng.Scans lz4 cur (eng.scanned lz4 txn (withPrefix pfx L.root.toList)) := by
  obtain ⟨cur, es, hopen, hst, hes⟩ := h.pages.tree.readable.open pfx
  refine ⟨⟨cur, txn⟩, ?_, ?_⟩
  · rw [Engine.cursorOpen, hopen]
    rfl
  · rw [← hes]
    have hst' : Stands eng.pool pfx (⟨cur, txn⟩ : StorageCursor).btreeCur es := hst
    exact scans_scanned lz4 hst'

/-- Two scans by a transaction that reads the same on every key. -/
theorem Inv.sameScan (h : Inv ps eng L) (h' : Inv ps eng' L')
    (hc : eng'.compression = eng.compression)
    (hread : ∀ key, (eng'.store L').read txn key = (eng.store L).read txn key) (pfx : Bytes) :
    ∃ found cur cur', eng.cursorOpen txn pfx = some cur ∧ eng.Scans lz4 cur found ∧
      eng'.cursorOpen txn pfx = some cur' ∧ eng'.Scans lz4 cur' found := by
  have hhits : eng'.hits txn (withPrefix pfx L'.root.toList) =
      eng.hits txn (withPrefix pfx L.root.toList) := by
    apply SortedAssoc.Sorted.ext (h'.sorted_hits txn pfx) (h.sorted_hits txn pfx)
    intro e
    rw [h.mem_hits, h'.mem_hits, hread]
  obtain ⟨cur, hopen, hscan⟩ := h.scans lz4 txn pfx
  obtain ⟨cur', hopen', hscan'⟩ := h'.scans lz4 txn pfx
  have hvalue : eng'.cursorValue lz4 = eng.cursorValue lz4 := by
    funext val
    rw [cursorValue, cursorValue, hc]
  rw [scanned, hhits, hvalue] at hscan'
  exact ⟨_, cur, cur', hopen, hscan, hopen', hscan'⟩

/-- The reads of the transaction stay, and so do its scans if all keys are left alone. -/
theorem Trace.snapshot {keys : Set Bytes} {before : Calls}
    (hrun : Trace lz4 (Undisturbed lz4 txn keys before) eng eng' calls) (h : Inv ps eng L)
    (hall : AllWritten before (eng.store L))
    (hact : eng.txnIsActive txn = true) (hact' : eng'.txnIsActive txn = true) :
    (∀ key ∈ keys, eng'.storageGet lz4 txn key = eng.storageGet lz4 txn key) ∧
      (keys = Set.univ → ∀ pfx, ∃ found cur cur',
        eng.cursorOpen txn pfx = some cur ∧ eng.Scans lz4 cur found ∧
          eng'.cursorOpen txn pfx = some cur' ∧ eng'.Scans lz4 cur' found) := by
  obtain ⟨L', hi, -, -, hreads⟩ := hrun.reads h (h.live_iff.mp hact) hall
  replace hreads := hreads (hi.live_iff.mp hact')
  have hc : eng'.compression = eng.compression :=
    (hrun.mono fun _ _ _ _ _ hp => hp.1.1).run.compression
  refine ⟨fun key hkey => ?_, fun hkeys pfx => ?_⟩
  · have hshown : eng'.shown lz4 = eng.shown lz4 := by
      funext val
      rw [shown, shown, hc]
    rw [hi.storageGet_eq, h.storageGet_eq, hact, hact', hreads key hkey, hshown]
  · subst hkeys
    exact h.sameScan hi hc (fun key => hreads key trivial) pfx

/-! ## Histories that can be evaluated -/

/-- The engine after calls that pass a check, and the calls with their results. -/
def runTrace (lz4 : Lz4) (check : Engine → Engine → EngineOp → Bool) (eng : Engine) (calls : Calls) :
    List EngineOp → Option (Engine × Calls)
  | [] => some (eng, calls)
  | op :: ops =>
    (eng.call lz4 op).bind fun (done, eng') =>
      if check eng eng' op then eng'.runTrace lz4 check (calls ++ [(op, done)]) ops else none

theorem Trace.runs {check : Engine → Engine → EngineOp → Bool} {eng'' : Engine}
    {calls' : Calls} {ops : List EngineOp} (hrun : eng.Trace lz4 ok eng' calls)
    (hcheck : ∀ calls eng eng' op done, check eng eng' op = true → ok calls eng eng' op done)
    (h : eng'.runTrace lz4 check calls ops = some (eng'', calls')) :
    eng.Trace lz4 ok eng'' calls' := by
  induction ops generalizing eng' calls with
  | nil =>
    cases h
    exact hrun
  | cons op ops ih =>
    obtain ⟨⟨done, eng₁⟩, hc, h⟩ := Option.bind_eq_some_iff.mp h
    simp only at h
    split at h
    · next hp => exact ih (hrun.call hc (hcheck _ _ _ _ _ hp)) h
    · cases h

/-- Calls on a new database with pages of 1024 bytes. -/
def newTrace (check : Engine → Engine → EngineOp → Bool) (ops : List EngineOp) :
    Option (Engine × Calls) :=
  (engineInit .empty [] .roomy { defaultEngineSettings with pageSize := 1024 }).bind fun eng =>
    eng.runTrace .stored check [] ops

theorem trace_of_newTrace {check : Engine → Engine → EngineOp → Bool} {ops : List EngineOp}
    (hcheck : ∀ calls eng eng' op done, check eng eng' op = true → ok calls eng eng' op done)
    (h : newTrace check ops = some (eng', calls)) :
    ∃ eng, Created 1024 eng ∧ eng.compression ≠ compressLz4 ∧ eng.Trace .stored ok eng' calls := by
  obtain ⟨eng, heng, h⟩ := Option.bind_eq_some_iff.mp h
  obtain ⟨h0, hraw⟩ := created_of_engineInit heng
  exact ⟨eng, h0, hraw, Trace.refl.runs hcheck h⟩

/-- The check of `Plain`. -/
def isPlain (lz4 : Lz4) (eng eng' : Engine) (op : EngineOp) : Bool :=
  isProper lz4 eng eng' op &&
    match op with
    | .commit txn => eng.txnIsActive txn
    | .rollback txn => eng.txnIsActive txn
    | .gc => false
    | .checkpoint => false
    | _ => true

/-- Calls that write nothing for the transaction. -/
def isReadOnly (txn : Int) : EngineOp → Bool
  | .set u _ _ => decide (u ≠ txn)
  | .delete u _ => decide (u ≠ txn)
  | _ => true

/-- Calls that later transactions make. -/
def isLater (lz4 : Lz4) (txn : Int) (eng eng' : Engine) (op : EngineOp) : Bool :=
  isProper lz4 eng eng' op &&
    match op with
    | .set u _ _ => decide (txn < u)
    | .delete u _ => decide (txn < u)
    | .commit u => decide (txn < u)
    | _ => true

theorem plain_of_isPlain (calls : Calls) (eng eng' : Engine) (op : EngineOp) (done : Bool)
    (h : isPlain lz4 eng eng' op = true) : Plain lz4 calls eng eng' op done := by
  obtain ⟨h1, h2⟩ := Bool.and_eq_true_iff.mp h
  refine ⟨proper_of_isProper h1, ?_⟩
  cases op with
  | commit txn => exact h2
  | rollback txn => exact h2
  | gc => cases h2
  | checkpoint => cases h2
  | begin => trivial
  | set txn key value => trivial
  | delete txn key => trivial
  | evict pid => trivial
  | frames env => trivial

/-- Later transactions do not disturb. -/
theorem undisturbed_of_isLater (keys : Set Bytes) (before calls : Calls) (eng eng' : Engine)
    (op : EngineOp) (done : Bool) (h : isLater lz4 txn eng eng' op = true) :
    Undisturbed lz4 txn keys before calls eng eng' op done := by
  obtain ⟨h1, h2⟩ := Bool.and_eq_true_iff.mp h
  refine ⟨⟨proper_of_isProper h1, fun key _ x he => ?_⟩, fun u hop hlt => ?_⟩
  · cases op with
    | set u key value =>
      have hlt : txn < u := of_decide_eq_true h2
      cases done with
      | false => cases he
      | true =>
        cases he
        exact absurd hlt (lt_irrefl _)
    | delete u key =>
      have hlt : txn < u := of_decide_eq_true h2
      cases done with
      | false => cases he
      | true =>
        cases he
        exact absurd hlt (lt_irrefl _)
    | begin => cases he
    | commit u => cases he
    | rollback u => cases he
    | gc => cases he
    | checkpoint => cases he
    | evict pid => cases he
    | frames env => cases he
  · subst hop
    exact absurd hlt (of_decide_eq_true h2 : txn < u).asymm

end Engine

/-! ## Results -/

section

open Engine

variable {lz4 : Lz4} {ps : Nat} {eng₀ eng eng' : Engine} {calls : Calls}

/-- A transaction that begins reads what the commits before it have built, and it goes on to read
that for the keys that it does not write, as long as no older transaction commits that has written
them. -/
theorem storageBegin_committedMap (h0 : Created ps eng₀) (hraw : eng₀.compression ≠ compressLz4)
    (hrun : eng₀.Trace lz4 (Plain lz4) eng calls) (hb : eng.Begins txn eng') (ht : Fits32 txn) :
    (∀ key : Bytes, 1 ≤ key.length → key.length ≤ 255 →
      eng'.storageGet lz4 txn key = some ((history calls).map key)) ∧
    ∀ keys eng'' calls', eng'.Trace lz4 (Undisturbed lz4 txn keys calls) eng'' calls' →
      eng''.txnIsActive txn = true → ∀ key ∈ keys, 1 ≤ key.length → key.length ≤ 255 →
        eng''.storageGet lz4 txn key = some ((history calls).map key) := by
  have hrun' : eng₀.Trace lz4 (ProperCall lz4) eng calls := hrun.mono fun _ _ _ _ _ h => h.1
  obtain ⟨L, h, hof⟩ := hrun.history h0.inv.1 hraw h0.history
  have hraw₁ : eng.compression ≠ compressLz4 := hrun'.run.compression ▸ hraw
  have hread : ∀ key : Bytes, 1 ≤ key.length → key.length ≤ 255 →
      eng'.storageGet lz4 txn key = some ((history calls).map key) := fun key hpos hlen =>
    h.beginRead hraw₁ hb ht hof hpos (hlen.trans (by decide))
  refine ⟨hread, fun keys eng'' calls' htrace hact key hkey hpos hlen => ?_⟩
  obtain ⟨L₂, h₂, hall⟩ := hrun'.allWritten h0.inv.1 (allWritten_new eng₀)
  have hlive := h₂.begin_live hb ht
  obtain ⟨hi, -, hs⟩ := h₂.begin hb ht
  have hall' : AllWritten calls (eng'.store L₂) := by
    rw [hs]
    exact hall
  have hstays := htrace.snapshot hi hall' (hi.live_iff.mpr hlive) hact
  rw [hstays.1 key hkey]
  exact hread key hpos hlen

/-- A later transaction sets the key and commits in between. -/
theorem storageBegin_committedMap_two : ∃ (eng₀ eng eng' eng'' : Engine) (calls : Calls),
    Created 1024 eng₀ ∧ eng₀.Trace .stored (Plain .stored) eng calls ∧ eng.Begins 2 eng' ∧
    (history calls).map [7] = some [5] ∧
    eng'.storageGet .stored 2 [7] = some (some [5]) ∧
    eng''.storageGet .stored 3 [7] = some (some [6]) ∧
    eng''.storageGet .stored 2 [7] = some (some [5]) := by
  have hcalls : (newTrace (isPlain .stored) [.begin, .set 1 [7] [5], .commit 1]).bind (fun c =>
      (c.1.mvccBegin.2.runTrace .stored (isLater .stored 2) []
        [.begin, .set 3 [7] [6]]).map fun d =>
          (decide (c.1.mvccBegin.1 = 2 ∧ c.1.mvccBegin.2.txns = c.1.txns ++ [⟨2, .active, []⟩]),
            (history c.2).map [7], d.1.storageGet .stored 3 [7], d.1.txnIsActive 2)) =
      some (true, some [5], some (some [6]), true) := by
    decide +kernel
  obtain ⟨⟨eng, calls⟩, heng, hd⟩ := Option.bind_eq_some_iff.mp hcalls
  obtain ⟨⟨eng'', calls'⟩, heng'', hr⟩ := Option.map_eq_some_iff.mp hd
  obtain ⟨hb, hmap, hget, hact⟩ := by simpa only [Prod.mk.injEq] using hr
  obtain ⟨h1, h2⟩ := of_decide_eq_true hb
  obtain ⟨eng₀, h0, hraw, hrun⟩ := trace_of_newTrace plain_of_isPlain heng
  have hbegins : eng.Begins 2 eng.mvccBegin.2 := ⟨Prod.ext h1 rfl, h2⟩
  have hlater : eng.mvccBegin.2.Trace .stored (Undisturbed .stored 2 {[7]} calls) eng'' calls' :=
    Trace.refl.runs (undisturbed_of_isLater {[7]} calls) heng''
  obtain ⟨hread, hstays⟩ := storageBegin_committedMap h0 hraw hrun hbegins
    ⟨by decide, by decide⟩
  refine ⟨eng₀, eng, _, eng'', calls, h0, hrun, hbegins, hmap, ?_, hget, ?_⟩
  · rw [← hmap]
    exact hread [7] (by decide) (by decide)
  · rw [← hmap]
    exact hstays {[7]} eng'' calls' hlater hact [7] rfl (by decide) (by decide)

/-- Transactions 1, 2 and 3 begin; 1 sets the key and commits, then 3 does. Transaction 2, which has
written nothing, reads neither what was committed when it began nor what is committed now. -/
theorem storageGet_neitherMap : ∃ (eng₀ eng eng₁ eng' : Engine) (calls calls' : Calls),
    Created 1024 eng₀ ∧ eng₀.Trace .stored (Plain .stored) eng calls ∧ eng.Begins 2 eng₁ ∧
    eng₁.Trace .stored (Plain .stored) eng' calls' ∧
    (∀ c ∈ calls', isReadOnly 2 c.1 = true) ∧
    (history calls).map [7] = none ∧ (history (calls ++ (.begin, true) :: calls')).map [7] = some [6] ∧
    eng'.storageGet .stored 2 [7] = some (some [5]) := by
  have hcalls : (newTrace (isPlain .stored) [.begin]).bind (fun c =>
      (c.1.mvccBegin.2.runTrace .stored (isPlain .stored) []
        [.begin, .set 1 [7] [5], .commit 1, .set 3 [7] [6], .commit 3]).map fun d =>
          (decide (c.1.mvccBegin.1 = 2 ∧ c.1.mvccBegin.2.txns = c.1.txns ++ [⟨2, .active, []⟩]) &&
              (d.2.all fun e => isReadOnly 2 e.1) && decide ((history c.2).map [7] = none),
            (history (c.2 ++ (.begin, true) :: d.2)).map [7], d.1.storageGet .stored 2 [7])) =
      some (true, some [6], some (some [5])) := by
    decide +kernel
  obtain ⟨⟨eng, calls⟩, heng, hd⟩ := Option.bind_eq_some_iff.mp hcalls
  obtain ⟨⟨eng', calls'⟩, heng', hr⟩ := Option.map_eq_some_iff.mp hd
  obtain ⟨hb, hmap', hget⟩ := by simpa only [Prod.mk.injEq] using hr
  obtain ⟨hb, hmap⟩ := Bool.and_eq_true_iff.mp hb
  obtain ⟨hb, hown⟩ := Bool.and_eq_true_iff.mp hb
  obtain ⟨h1, h2⟩ := of_decide_eq_true hb
  obtain ⟨eng₀, h0, hraw, hrun⟩ := trace_of_newTrace plain_of_isPlain heng
  refine ⟨eng₀, eng, _, eng', calls, calls', h0, hrun, ⟨Prod.ext h1 rfl, h2⟩,
    Trace.refl.runs plain_of_isPlain heng', List.all_eq_true.mp hown,
    of_decide_eq_true hmap, hmap', hget⟩

/-- Snapshots: what a transaction reads of keys that it does not write, and what it scans, stays the
same as long as no older transaction commits that is open and has written one of them. -/
theorem storageGet_snapshot (h0 : Created ps eng₀) (hrun : eng₀.Trace lz4 (ProperCall lz4) eng calls)
    (hact : eng.txnIsActive txn = true) {keys : Set Bytes} {eng' : Engine} {calls' : Calls}
    (htrace : eng.Trace lz4 (Undisturbed lz4 txn keys calls) eng' calls')
    (hact' : eng'.txnIsActive txn = true) :
    (∀ key ∈ keys, eng'.storageGet lz4 txn key = eng.storageGet lz4 txn key) ∧
      (keys = Set.univ → ∀ pfx, ∃ found cur cur',
        eng.cursorOpen txn pfx = some cur ∧ eng.Scans lz4 cur found ∧
          eng'.cursorOpen txn pfx = some cur' ∧ eng'.Scans lz4 cur' found) := by
  obtain ⟨L, h, hall⟩ := hrun.allWritten h0.inv.1 (allWritten_new eng₀)
  exact htrace.snapshot h hall hact hact'

/-- A later transaction overwrites the key and commits in between. -/
theorem storageGet_snapshot_later : ∃ (eng₀ eng eng' : Engine) (calls calls' : Calls),
    Created 1024 eng₀ ∧ eng₀.Trace .stored (ProperCall .stored) eng calls ∧
    eng.Trace .stored (Undisturbed .stored 2 Set.univ calls) eng' calls' ∧
    eng'.storageGet .stored 4 [7] = some (some [6]) ∧ eng.storageGet .stored 2 [7] = some (some [5]) ∧
    eng'.storageGet .stored 2 [7] = some (some [5]) ∧
    ∃ found cur cur', eng.cursorOpen 2 [] = some cur ∧ eng.Scans .stored cur found ∧
      eng'.cursorOpen 2 [] = some cur' ∧ eng'.Scans .stored cur' found := by
  have hcalls : (newTrace (isPlain .stored) [.begin, .set 1 [7] [5], .commit 1, .begin]).bind
      (fun c => (c.1.runTrace .stored (isLater .stored 2) []
        [.begin, .set 3 [7] [6], .commit 3, .begin]).map fun d =>
          (c.1.txnIsActive 2 && d.1.txnIsActive 2, c.1.storageGet .stored 2 [7],
            d.1.storageGet .stored 4 [7])) = some (true, some (some [5]), some (some [6])) := by
    decide +kernel
  obtain ⟨⟨eng, calls⟩, heng, hd⟩ := Option.bind_eq_some_iff.mp hcalls
  obtain ⟨⟨eng', calls'⟩, heng', hr⟩ := Option.map_eq_some_iff.mp hd
  obtain ⟨hact, hget, hnew⟩ := by simpa only [Prod.mk.injEq] using hr
  obtain ⟨hact, hact'⟩ := Bool.and_eq_true_iff.mp hact
  obtain ⟨eng₀, h0, -, hrun⟩ := trace_of_newTrace plain_of_isPlain heng
  have hproper : eng₀.Trace .stored (ProperCall .stored) eng calls :=
    hrun.mono fun _ _ _ _ _ h => h.1
  have hlater : eng.Trace .stored (Undisturbed .stored 2 Set.univ calls) eng' calls' :=
    Trace.refl.runs (undisturbed_of_isLater Set.univ calls) heng'
  obtain ⟨hreads, hscans⟩ := storageGet_snapshot h0 hproper hact hlater hact'
  exact ⟨eng₀, eng, eng', calls, calls', h0, hproper, hlater, hnew, hget,
    (hreads [7] trivial).trans hget, hscans rfl []⟩

/-- Transactions 1 and 2 begin; 1 sets the key. Transaction 2 reads nothing, and when 1 has committed
it reads the value. -/
theorem storageGet_changes : ∃ (eng₀ eng eng' : Engine) (calls : Calls),
    Created 1024 eng₀ ∧ eng₀.Trace .stored (ProperCall .stored) eng calls ∧
    eng.txnIsActive 2 = true ∧ eng.call .stored (.commit 1) = some (true, eng') ∧
    eng.storageGet .stored 2 [7] = some none ∧ eng'.storageGet .stored 2 [7] = some (some [5]) := by
  have hcalls : (newTrace (isPlain .stored) [.begin, .begin, .set 1 [7] [5]]).bind
      (fun c => (c.1.call .stored (.commit 1)).map fun d =>
          (d.1 && c.1.txnIsActive 2, c.1.storageGet .stored 2 [7], d.2.storageGet .stored 2 [7])) =
      some (true, some none, some (some [5])) := by
    decide +kernel
  obtain ⟨⟨eng, calls⟩, heng, hd⟩ := Option.bind_eq_some_iff.mp hcalls
  obtain ⟨⟨done, eng'⟩, hc, hr⟩ := Option.map_eq_some_iff.mp hd
  obtain ⟨hdone, hget, hget'⟩ := by simpa only [Prod.mk.injEq] using hr
  obtain ⟨hdone, hact⟩ := Bool.and_eq_true_iff.mp hdone
  have hdone : done = true := hdone
  subst hdone
  obtain ⟨eng₀, h0, -, hrun⟩ := trace_of_newTrace plain_of_isPlain heng
  exact ⟨eng₀, eng, eng', calls, h0, hrun.mono fun _ _ _ _ _ h => h.1, hact, hc, hget, hget'⟩

end

end Garry
