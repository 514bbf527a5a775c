import Garry.Library.Serial
import Garry.Verify.PruneLater

/-!
# Serial orders of transactions

The accesses of the transactions of a session, with their results, form a schedule. Nothing
validates what a transaction has read, so that it need not be serializable; it is when the
dependencies between the transactions that commit have no cycle.
-/

namespace Garry

open ByteStore

/-- An access in the schedule, with `put` for what is stored for a value. -/
def EngineOp.access (put : Bytes → Option Bytes) (done : Bool) (op : EngineOp) :
    Serial.Event Bytes Bytes (Option Bytes) :=
  .ofStore (op.event put done)

variable {lz4 : Lz4} {ps : Nat} {eng₀ eng eng' : Engine} {L : Layout}
  {es : Serial.Schedule Bytes Bytes (Option Bytes)}

namespace Engine

/-- The sessions from an engine, with the schedule of their accesses; all gets are of active
transactions. -/
inductive Accesses (lz4 : Lz4) (eng : Engine) :
    Engine → Serial.Schedule Bytes Bytes (Option Bytes) → Prop
  | refl : Accesses lz4 eng eng []
  | call {eng' eng'' : Engine} {es : Serial.Schedule Bytes Bytes (Option Bytes)} {op : EngineOp}
      {done : Bool} : Accesses lz4 eng eng' es → eng'.call lz4 op = some (done, eng'') →
    Plain lz4 [] eng' eng'' op done →
    Accesses lz4 eng eng'' (es ++ [op.access (eng.stored lz4) done])
  | get {eng' : Engine} {es : Serial.Schedule Bytes Bytes (Option Bytes)} {txn : Int} {key : Bytes}
      {value : Option Bytes} : Accesses lz4 eng eng' es → eng'.txnIsActive txn = true →
    eng'.storageGet lz4 txn key = some value → Accesses lz4 eng eng' (es ++ [.get txn key value])

/-- What a get returns for a stored value. -/
def view (lz4 : Lz4) (eng : Engine) (value : Option Bytes) : Option Bytes :=
  value.bind (eng.shown lz4)

/-- A get of a live transaction, for keys of any length. -/
theorem Inv.get (h : Inv ps eng L) (hlive : (eng.store L).Live txn) (key : Bytes) :
    eng.storageGet lz4 txn key = some (((eng.store L).read txn key).bind (eng.shown lz4)) := by
  by_cases hlen : 0 < key.length ∧ key.length ≤ maxKeySize
  · exact h.storageGet hlive hlen.1 hlen.2
  · have hnil : L.versions key = [] := by
      refine h.pages.empty ?_
      cases hl : L.lookup key with
      | none => rfl
      | some v =>
        have hkey : 0 < key.length ∧ key.length ≤ 255 :=
          h.pages.keyLen _ (SortedAssoc.mem_of_lookup hl)
        simp only [maxKeySize] at hlen
        omega
    have hread : (eng.store L).read txn key = none := by
      rw [Mvcc.State.read]
      show Mvcc.read txn _ (chainOf (L.versions key)) = none
      rw [hnil]
      rfl
    rw [Engine.storageGet, if_pos (by omega), hread]
    rfl

theorem shown_congr (h : eng'.compression = eng.compression) :
    eng'.shown lz4 = eng.shown lz4 := by
  funext value
  rw [shown, shown, h]

theorem stored_congr (h : eng'.compression = eng.compression) :
    eng'.stored lz4 = eng.stored lz4 := by
  funext value
  rw [stored, stored, h]

theorem Quiet.ofStore {e : Mvcc.Event Bytes Bytes Bytes} (h : Quiet e) :
    (.ofStore e : Serial.Event Bytes Bytes (Option Bytes)) = .other := by
  rcases h with ⟨t, rfl⟩ | ⟨t, k, rfl⟩ | rfl
  · rfl
  · rfl
  · rfl

/-- The schedule of a session. -/
theorem Accesses.of (hrun : Accesses lz4 eng eng' es) (h : Inv ps eng L)
    (h0 : Serial.Of ([] : Serial.Schedule Bytes Bytes (Option Bytes)) (eng.store L)) :
    ∃ L', Inv ps eng' L' ∧ eng'.compression = eng.compression ∧ Serial.Of es (eng'.store L') ∧
      Serial.WellFormed es ∧ Serial.ReadsCommitted (eng.view lz4) es := by
  induction hrun with
  | refl => exact ⟨L, h, rfl, h0, .nil, .nil⟩
  | get hrun hact hget ih =>
    obtain ⟨L₁, hi, hcomp, hof, hwf, hreads⟩ := ih
    have hlive := hi.live_iff.mp hact
    refine ⟨L₁, hi, hcomp, hof.quiet (fun i => rfl) rfl, hwf.concat ?_, hreads.concat ?_⟩
    · rintro t ht ⟨⟩
      exact (hof.ended _ ht).1 hlive.active
    · rintro t key r ⟨⟩
      rw [← hof.read hi.mvcc hlive, view, ← shown_congr hcomp]
      exact Option.some.inj ((hi.get hlive _).symm.trans hget)
  | call hrun hc hok ih =>
    rename_i eng₁ eng₂ es op done
    obtain ⟨L₁, hi, hcomp, hof, hwf, hreads⟩ := ih
    obtain ⟨L₂, hi₂, hmoves, -⟩ := hi.called hc hok.1
    have hcomp₂ := (Run.refl.step (call_step hc) hok.1 : eng₁.Run lz4 (Proper lz4) eng₂).compression
    rw [stored_congr hcomp] at hmoves
    have hnext : ∃ e, Mvcc.Step id (eng₁.store L₁) e (eng₂.store L₂) ∧
        (∀ t, e = .commit t → (eng₁.store L₁).Live t) ∧
        (.ofStore e : Serial.Event Bytes Bytes (Option Bytes)) =
          op.access (eng.stored lz4) done := by
      cases hmoves with
      | step e hs he =>
        refine ⟨e, hs, ?_, ?_⟩
        · rintro t rfl
          rcases he with he | ⟨-, hq⟩
          · obtain rfl := eq_commit_of_event he.symm
            exact hi.live_iff.mp hok.2
          · exact absurd rfl (hq.ne_commit t)
        · rcases he with rfl | ⟨hskip, hq⟩
          · rfl
          · rw [EngineOp.access, hskip]
            exact hq.ofStore
      | prune hop hp =>
        rcases hop with rfl | rfl
        · exact hok.2.elim
        · exact hok.2.elim
    obtain ⟨e, hs, hc, he⟩ := hnext
    rw [← he]
    refine ⟨L₂, hi₂, hcomp₂.trans hcomp, hof.step hi.mvcc hs hc,
      hwf.concat fun t ht => hof.owner_ne hs hc ht, hreads.concat fun t key r hget => ?_⟩
    cases e <;> cases hget

/-- The schedule of a session on a new database. -/
theorem of_new (eng : Engine) :
    Serial.Of ([] : Serial.Schedule Bytes Bytes (Option Bytes)) (eng.store .new) := by
  refine ⟨fun i => rfl, fun i => rfl, fun t ht => ?_⟩
  cases ht

/-- The calls of a history as accesses. -/
theorem Accesses.trace {calls : Calls} (h : Accesses lz4 eng₀ eng es)
    (hrun : eng.Trace lz4 (Plain lz4) eng' calls) :
    Accesses lz4 eng₀ eng' (es ++ calls.map fun c => c.1.access (eng₀.stored lz4) c.2) := by
  induction hrun with
  | refl => simpa using h
  | call hrun hc hok ih =>
    rw [List.map_append, ← List.append_assoc]
    exact ih.call hc hok

end Engine

/-- The schedule of two transactions that both read the key and then both write it. -/
def lostUpdate : Serial.Schedule Bytes Bytes (Option Bytes) :=
  [.other, .other, .get 1 [7] none, .get 2 [7] none, .put 1 [7] (some [5]), .commit 1,
    .put 2 [7] (some [6]), .commit 2]

theorem not_serializable_lostUpdate : ¬ Serial.Serializable (fun x => x) lostUpdate := by
  rintro ⟨order, hperm, hrun⟩
  obtain ⟨a, b, rfl⟩ := List.length_eq_two.mp hperm.length_eq
  have hmem {c : Int} (hc : c ∈ [a, b]) : c = 1 ∨ c = 2 := by
    have h12 : c ∈ [1, 2] := hperm.subset hc
    simpa using h12
  have hne : a ≠ b := by
    have hnodup : [a, b].Nodup := hperm.nodup_iff.mpr (by decide)
    simpa using hnodup
  rcases hmem List.mem_cons_self with rfl | rfl
  · obtain rfl := (hmem (List.mem_cons_of_mem _ List.mem_cons_self)).resolve_left hne.symm
    cases hrun
  · obtain rfl := (hmem (List.mem_cons_of_mem _ List.mem_cons_self)).resolve_right hne.symm
    cases hrun

end Garry
