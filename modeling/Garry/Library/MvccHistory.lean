import Garry.Library.MvccRun

/-!
# What transactions see

The reads of a multi-version store along a run. A transaction sees its own newest write of an item,
which stays the newest version while the transaction is live. What others do changes its reads only
when an older transaction commits. A transaction that begins sees the writes of the committed
transactions in the order of their commits.
-/

set_option linter.unusedSectionVars false

namespace Mvcc

variable {I K V : Type*} [DecidableEq I] [DecidableEq K]

/-- A step of the store, or a pruning. -/
inductive Move (keyOf : I → K) (s : State I K V) : Event I K V → State I K V → Prop
  | step {e : Event I K V} {s' : State I K V} : Step keyOf s e s' → Move keyOf s e s'
  | prune {s' : State I K V} : Pruned s s' → Move keyOf s .skip s'

variable {keyOf : I → K} {s s' : State I K V} {t u : Int} {e : Event I K V} {i : I}

theorem Move.of_eq {s'' : State I K V} (hs : Step keyOf s e s'') (he : s' = s'') :
    Move keyOf s e s' := by
  subst he
  exact .step hs

theorem Move.inv (hm : Move keyOf s e s') (h : Inv keyOf s) : Inv keyOf s' := by
  cases hm with
  | step hs => exact hs.inv h
  | prune hp => exact hp.inv h

/-- A transaction that is not live does not become live, but for the one that begins. -/
theorem Move.live (hm : Move keyOf s e s') (h : Inv keyOf s) (hl : s'.Live t) (ht : t < s.next) :
    s.Live t := by
  cases hm with
  | step hs =>
    cases hs with
    | begin => exact (State.live_begin.mp hl).resolve_right (by omega)
    | lock => exact hl
    | write => exact hl
    | commit => exact (h.live_commit.mp hl).1
    | rollback => exact (State.live_rollback.mp hl).1
    | skip => exact hl
  | prune hp => exact hp.live.mp hl

theorem Move.next_le (hm : Move keyOf s e s') : s.next ≤ s'.next := by
  cases hm with
  | step hs =>
    cases hs with
    | begin => exact (Int.lt_add_one_of_le le_rfl).le
    | lock => exact le_rfl
    | write => exact le_rfl
    | commit => exact le_rfl
    | rollback => exact le_rfl
    | skip => exact le_rfl
  | prune hp => exact hp.next.ge

theorem Inv.live_lt (h : Inv keyOf s) (hl : s.Live t) : t < s.next := h.lt_next hl.active

/-! ## Own writes -/

/-- The newest version of an item stays while its creator is live and does not write again. -/
theorem Move.head {v : Version V} (hm : Move keyOf s e s') (h : Inv keyOf s) (hl : s.Live v.txid)
    (hv : (s.chain i).head? = some v) (hw : ∀ x, e ≠ .write v.txid i x) :
    (s'.chain i).head? = some v := by
  cases hm with
  | step hs =>
    cases hs with
    | begin => exact hv
    | lock => exact hv
    | @write t j x hlt hf =>
      by_cases hi : i = j
      · subst hi
        have hh := (h.owned i).not_mem (List.mem_of_head? hv) hl
        have ht : v.txid = t := by
          rcases hf with hf | hf
          · rw [hh] at hf
            cases hf
          · exact Option.some.inj (hh.symm.trans hf)
        exact absurd (ht ▸ rfl) (hw x)
      · simp only [State.push, Function.update_of_ne hi]
        exact hv
    | commit => exact hv
    | rollback => exact hv
    | skip => exact hv
  | prune hp =>
    rcases hp.chain i with e | e
    · rw [e]
      exact hv
    · rw [e]
      cases hc : s.chain i with
      | nil =>
        rw [hc] at hv
        cases hv
      | cons w rest =>
        rw [hc] at hv
        exact hv

/-- A transaction reads the value of the newest version that it wrote. -/
theorem State.read_head {v : Version V} (hv : (s.chain i).head? = some v) :
    s.read v.txid i = v.value := by
  obtain ⟨rest, hc⟩ := List.head?_eq_some_iff.mp hv
  rw [State.read, hc]
  exact read_cons_of_pos (visible_iff.mpr ⟨le_rfl, fun _ => rfl⟩)

theorem State.head_push (t : Int) (i : I) (x : Option V) :
    ((s.push t i x).chain i).head? = some ⟨t, x⟩ := by
  simp [State.push]

/-! ## Snapshots -/

/-- A version that is by no transaction which has ended in between is visible as before. -/
theorem visible_congr {v : Version V} {snap : Int} {active active' : List Int}
    (h : v.txid ≤ snap → (v.txid ∈ active' ↔ v.txid ∈ active)) :
    visible snap active' v = visible snap active v := by
  rw [visible, visible, decide_eq_decide]
  constructor
  · rintro ⟨hle, hm⟩
    exact ⟨hle, fun ha => hm ((h hle).mpr ha)⟩
  · rintro ⟨hle, hm⟩
    exact ⟨hle, fun ha => hm ((h hle).mp ha)⟩

/-- What a live transaction reads changes only by its own writes and by the commit of an older
transaction that has written the item. -/
theorem Move.read (hm : Move keyOf s e s') (h : Inv keyOf s) (hl : s.Live t) (hl' : s'.Live t)
    (hw : ∀ x, e ≠ .write t i x)
    (hc : ∀ u, e = .commit u → u ∈ s.active → u < t → ∀ v ∈ s.chain i, v.txid ≠ u) :
    s'.read t i = s.read t i := by
  cases hm with
  | step hs =>
    cases hs with
    | begin =>
      refine newest_congr fun v hv => visible_congr fun _ => ?_
      rw [State.active_begin, List.mem_append, List.mem_singleton]
      have hlt := h.versions hv
      exact or_iff_left (by omega)
    | lock => rfl
    | @write u j x hlu hf =>
      by_cases hi : i = j
      · subst hi
        have hne : u ≠ t := fun e => hw x (e ▸ rfl)
        have hinv : visible t s.active ⟨u, x⟩ = false := by
          rw [visible]
          exact decide_eq_false fun hv => hne (hv.2 hlu.active)
        have hchain : ((s.lock u (keyOf i)).push u i x).chain i = ⟨u, x⟩ :: s.chain i := by
          simp [State.push, State.lock]
        show Mvcc.read t s.active (((s.lock u (keyOf i)).push u i x).chain i) = _
        rw [hchain, read_cons_of_neg hinv]
        rfl
      · have hchain : ((s.lock u (keyOf j)).push u j x).chain i = s.chain i := by
          simp [State.push, State.lock, Function.update_of_ne hi]
        show Mvcc.read t s.active (((s.lock u (keyOf j)).push u j x).chain i) = _
        rw [hchain]
        rfl
    | @commit u =>
      refine newest_congr fun v hv => visible_congr fun hle => ?_
      rw [h.mem_active_commit]
      refine and_iff_left_of_imp fun hm => ?_
      rintro rfl
      have hne : v.txid ≠ t := fun e => (h.live_commit.mp hl').2 e.symm
      exact hc _ rfl hm (lt_of_le_of_ne hle hne) v hv rfl
    | rollback =>
      rw [State.read, State.read, State.active_rollback]
      rfl
    | skip => rfl
  | prune hp => exact hp.read h hl i

/-! ## Committed values -/

namespace State

/-- The value of the newest version whose creator is not active. -/
def committed (s : State I K V) (i : I) : Option V :=
  newest (fun v => decide (v.txid ∉ s.active)) (s.chain i)

/-- What a transaction wrote last to an item, with its versions as the record of it. -/
def written (s : State I K V) (t : Int) (i : I) : Option (Option V) :=
  ((s.chain i).find? fun v => decide (v.txid = t)).map Version.value

end State

/-- A transaction that begins reads the committed values. -/
theorem Inv.read_begin (h : Inv keyOf s) (i : I) : s.begin.read s.next i = s.committed i := by
  show Mvcc.read s.next s.begin.active (s.chain i) = _
  rw [State.committed, read_of_lt (fun v hv => h.versions hv) le_rfl]
  refine newest_congr fun v hv => decide_eq_decide.mpr (not_congr ?_)
  have hlt := h.versions hv
  rw [State.active_begin, List.mem_append, List.mem_singleton]
  exact or_iff_left (by omega)

/-- A commit puts what the transaction wrote last over the committed values. -/
theorem Inv.committed_commit (h : Inv keyOf s) (hl : s.Live t) (i : I) :
    (s.commit t).committed i = (s.written t i).getD (s.committed i) := by
  have hactive {v : Version V} (hne : v.txid ≠ t) :
      decide (v.txid ∉ (s.commit t).active) = decide (v.txid ∉ s.active) := by
    rw [decide_eq_decide, h.mem_active_commit]
    exact not_congr (and_iff_left hne)
  show newest _ (s.chain i) = _
  by_cases hex : ∃ v ∈ s.chain i, v.txid = t
  · obtain ⟨v, hv, rfl⟩ := hex
    cases hc : s.chain i with
    | nil =>
      rw [hc] at hv
      cases hv
    | cons w rest =>
      have ho := h.owned i
      rw [hc] at ho hv
      have hw : w.txid = v.txid := by
        rcases List.mem_cons.mp hv with rfl | hv
        · rfl
        · exact ho.head_of_live hv hl
      rw [State.written, hc, List.find?_cons, decide_eq_true hw, newest_cons_of_pos]
      · rfl
      · rw [hw]
        exact decide_eq_true fun hm => (h.mem_active_commit.mp hm).2 rfl
  · have hne : ∀ v ∈ s.chain i, v.txid ≠ t := fun v hv e => hex ⟨v, hv, e⟩
    have hnone : (s.chain i).find? (fun v => decide (v.txid = t)) = none :=
      List.find?_eq_none.mpr fun v hv => by simpa using hne v hv
    rw [State.written, hnone, State.committed]
    exact newest_congr fun v hv => hactive (hne v hv)

/-! ## The map that the commits build -/

/-- The committed values as a map, and the writes of the open transactions in their order. -/
structure History (I V : Type*) where
  map : I → Option V
  pending : Int → List (I × Option V)

/-- The writes, one after the other. -/
def applyWrites (m : I → Option V) (ws : List (I × Option V)) : I → Option V :=
  ws.foldl (fun m w => Function.update m w.1 w.2) m

/-- The last of the writes of an item. -/
def lastWrite (ws : List (I × Option V)) (i : I) : Option (Option V) :=
  (ws.reverse.find? fun w => decide (w.1 = i)).map Prod.snd

theorem lastWrite_concat (ws : List (I × Option V)) (j i : I) (x : Option V) :
    lastWrite (ws ++ [(j, x)]) i = if j = i then some x else lastWrite ws i := by
  rw [lastWrite, List.reverse_concat, List.find?_cons]
  split
  · next hj =>
    rw [if_pos (of_decide_eq_true hj)]
    rfl
  · next hj =>
    rw [if_neg (of_decide_eq_false hj)]
    rfl

theorem applyWrites_apply (m : I → Option V) (ws : List (I × Option V)) (i : I) :
    applyWrites m ws i = (lastWrite ws i).getD (m i) := by
  induction ws using List.reverseRecOn with
  | nil => rfl
  | append_singleton ws w ih =>
    rw [applyWrites, List.foldl_concat, lastWrite_concat]
    by_cases hi : w.1 = i
    · subst hi
      rw [if_pos rfl, Function.update_self]
      rfl
    · rw [if_neg hi, Function.update_of_ne (Ne.symm hi)]
      exact ih

namespace History

variable {h : History I V}

/-- The history of a new store. -/
def new : History I V := ⟨fun _ => none, fun _ => []⟩

/-- The writes of a transaction take effect when it commits. -/
def after (h : History I V) : Event I K V → History I V
  | .write t i x => { h with pending := Function.update h.pending t (h.pending t ++ [(i, x)]) }
  | .commit t => ⟨applyWrites h.map (h.pending t), Function.update h.pending t []⟩
  | .rollback t => { h with pending := Function.update h.pending t [] }
  | _ => h

/-- The history of a store. -/
structure Of (h : History I V) (s : State I K V) : Prop where
  map : ∀ i, h.map i = s.committed i
  pending : ∀ t, s.Live t → ∀ i, lastWrite (h.pending t) i = s.written t i
  idle : ∀ t, ¬ s.Live t → h.pending t = []

/-- A transaction that ends without a commit. -/
theorem Of.dropped (hf : h.Of s) (hc : s'.chain = s.chain) (ha : s'.active = s.active)
    (hl : ∀ u, s'.Live u ↔ s.Live u ∧ u ≠ t) :
    ({ h with pending := Function.update h.pending t [] } : History I V).Of s' where
  map i := by
    rw [State.committed, hc, ha]
    exact hf.map i
  pending u hu i := by
    obtain ⟨hu, hne⟩ := (hl u).mp hu
    simp only [Function.update_of_ne hne, State.written, hc]
    exact hf.pending u hu i
  idle u hu := by
    by_cases hut : u = t
    · subst hut
      exact Function.update_self ..
    · simp only [Function.update_of_ne hut]
      exact hf.idle u fun hlu => hu ((hl u).mpr ⟨hlu, hut⟩)

/-- A step of the store is a step of its history, when only live transactions commit. -/
theorem Of.step (hf : h.Of s) (hi : Inv keyOf s) (hs : Step keyOf s e s')
    (hc : ∀ t, e = .commit t → s.Live t) : (h.after e).Of s' := by
  cases hs with
  | begin =>
    refine ⟨fun i => ?_, fun t hl i => ?_, fun t hl => ?_⟩
    · refine (hf.map i).trans (newest_congr fun v hv => ?_)
      have hlt := hi.versions hv
      rw [decide_eq_decide, State.active_begin, List.mem_append, List.mem_singleton]
      exact not_congr (or_iff_left (by omega)).symm
    · rcases State.live_begin.mp hl with hl | rfl
      · exact hf.pending t hl i
      · have hidle : h.pending s.next = [] :=
          hf.idle _ fun hl => absurd (hi.live_lt hl) (lt_irrefl _)
        have hnone : (s.chain i).find? (fun v => decide (v.txid = s.next)) = none :=
          List.find?_eq_none.mpr fun v hv => by simpa using (hi.versions hv).ne
        show lastWrite (h.pending s.next) i = ((s.chain i).find? _).map _
        rw [hidle, hnone]
        rfl
    · exact hf.idle t fun hlt => hl (State.live_begin.mpr (.inl hlt))
  | lock => exact ⟨hf.map, hf.pending, hf.idle⟩
  | @write t i x hl hfree =>
    have hself : ((s.lock t (keyOf i)).push t i x).chain i = ⟨t, x⟩ :: s.chain i := by
      simp [State.push, State.lock]
    have hother {j : I} (hj : j ≠ i) :
        ((s.lock t (keyOf i)).push t i x).chain j = s.chain j := by
      simp [State.push, State.lock, Function.update_of_ne hj]
    refine ⟨fun j => ?_, fun u hu j => ?_, fun u hu => ?_⟩
    · rw [after, hf.map, State.committed, State.committed]
      by_cases hj : j = i
      · subst hj
        rw [hself]
        exact (newest_cons_of_neg (by simpa using hl.active)).symm
      · rw [hother hj]
        rfl
    · have hold := hf.pending u hu j
      rw [State.written] at hold ⊢
      by_cases hut : u = t
      · subst hut
        simp only [after, Function.update_self, lastWrite_concat]
        by_cases hj : i = j
        · subst hj
          rw [if_pos rfl, hself, List.find?_cons, decide_eq_true rfl]
          rfl
        · rw [if_neg hj, hother (Ne.symm hj)]
          exact hold
      · simp only [after, Function.update_of_ne hut]
        by_cases hj : j = i
        · subst hj
          rw [hself, List.find?_cons, decide_eq_false (Ne.symm hut)]
          exact hold
        · rw [hother hj]
          exact hold
    · have hut : u ≠ t := fun e => hu (e ▸ hl)
      simp only [after, Function.update_of_ne hut]
      exact hf.idle u hu
  | @commit t =>
    have hl := hc t rfl
    refine ⟨fun i => ?_, fun u hu i => ?_, fun u hu => ?_⟩
    · show applyWrites h.map (h.pending t) i = _
      rw [applyWrites_apply, hi.committed_commit hl, hf.pending t hl, hf.map]
    · obtain ⟨hu, hne⟩ := hi.live_commit.mp hu
      simp only [after, Function.update_of_ne hne]
      exact hf.pending u hu i
    · by_cases hut : u = t
      · subst hut
        exact Function.update_self ..
      · simp only [after, Function.update_of_ne hut]
        exact hf.idle u fun hlu => hu (hi.live_commit.mpr ⟨hlu, hut⟩)
  | rollback => exact hf.dropped rfl State.active_rollback fun u => State.live_rollback
  | skip => exact hf

end History

end Mvcc
