import Garry.Library.Mvcc

/-!
# Runs of a multi-version store

Items `I` are guarded by keys `K`: a transaction writes an item while it holds the key, and gives
its keys up when it ends. A transaction that was rolled back stays on the list of active ones, so
that its versions stay invisible.
-/

set_option linter.unusedSectionVars false

namespace Mvcc

variable {I K V : Type*}

/-- The ids handed out so far, the active transactions with a mark on those that were rolled
back, the holder of each key and the versions of each item. -/
structure State (I K V : Type*) where
  next : Int
  txns : List (Int × Bool)
  holder : K → Option Int
  chain : I → List (Version V)

/-- What happens to a store; `skip` is any call that changes nothing here. -/
inductive Event (I K V : Type*)
  | begin (t : Int)
  | lock (t : Int) (k : K)
  | write (t : Int) (i : I) (x : Option V)
  | commit (t : Int)
  | rollback (t : Int)
  | skip

namespace State

def active (s : State I K V) : List Int := s.txns.map Prod.fst

/-- Active and not rolled back. -/
def Live (s : State I K V) (t : Int) : Prop := (t, false) ∈ s.txns

/-- The answer to a read of the item by the transaction. -/
def read (s : State I K V) (t : Int) (i : I) : Option V := Mvcc.read t s.active (s.chain i)

def begin (s : State I K V) : State I K V :=
  { s with next := s.next + 1, txns := s.txns ++ [(s.next, false)] }

def release [DecidableEq K] (s : State I K V) (t : Int) : State I K V :=
  { s with holder := fun k => if s.holder k = some t then none else s.holder k }

def commit [DecidableEq K] (s : State I K V) (t : Int) : State I K V :=
  { s.release t with txns := s.txns.eraseP fun p => p.1 == t }

def rollback [DecidableEq K] (s : State I K V) (t : Int) : State I K V :=
  { s.release t with txns := s.txns.map fun p => if p.1 = t then (t, true) else p }

def lock [DecidableEq K] (s : State I K V) (t : Int) (k : K) : State I K V :=
  { s with holder := Function.update s.holder k (some t) }

def push [DecidableEq I] (s : State I K V) (t : Int) (i : I) (x : Option V) : State I K V :=
  { s with chain := Function.update s.chain i (⟨t, x⟩ :: s.chain i) }

/-- No other transaction holds the key. -/
def Free (s : State I K V) (t : Int) (k : K) : Prop := s.holder k = none ∨ s.holder k = some t

end State

variable [DecidableEq I] [DecidableEq K] (keyOf : I → K)

/-- The steps of a store. -/
inductive Step : State I K V → Event I K V → State I K V → Prop
  | begin : Step s (.begin s.next) s.begin
  | lock : s.Live t → s.Free t k → Step s (.lock t k) (s.lock t k)
  | write : s.Live t → s.Free t (keyOf i) →
      Step s (.write t i x) ((s.lock t (keyOf i)).push t i x)
  | commit : Step s (.commit t) (s.commit t)
  | rollback : Step s (.rollback t) (s.rollback t)
  | skip : Step s .skip s

/-- Ids are handed out once; a key is held by a live transaction, whose versions are the newest
ones of the items that the key guards. -/
structure Inv (s : State I K V) : Prop where
  ids : ∀ p ∈ s.txns, p.1 < s.next
  nodup : s.active.Nodup
  holder : ∀ {k t}, s.holder k = some t → s.Live t
  versions : ∀ {i v}, v ∈ s.chain i → v.txid < s.next
  owned : ∀ i, Owned s.Live (s.holder (keyOf i)) (s.chain i)

variable {keyOf} {s s' : State I K V} {t u : Int} {e : Event I K V}

theorem State.Live.active (h : s.Live t) : t ∈ s.active := List.mem_map.mpr ⟨_, h, rfl⟩

theorem Inv.lt_next (h : Inv keyOf s) (ht : t ∈ s.active) : t < s.next := by
  obtain ⟨p, hp, rfl⟩ := List.mem_map.mp ht
  exact h.ids p hp

/-! ## What the operations do to the transactions -/

@[simp] theorem State.active_begin : s.begin.active = s.active ++ [s.next] := by
  simp [State.active, State.begin]

@[simp] theorem State.live_begin : s.begin.Live t ↔ s.Live t ∨ t = s.next := by
  simp [State.Live, State.begin]

theorem State.active_commit : (s.commit t).active = s.active.erase t := by
  simp only [State.active, State.commit]
  induction s.txns with
  | nil => rfl
  | cons p l ih =>
    rw [List.map_cons, List.eraseP_cons, List.erase_cons]
    by_cases h : p.1 = t
    · simp [h]
    · have hb : (p.1 == t) = false := beq_eq_false_iff_ne.mpr h
      simp [hb, ih]

theorem Inv.mem_active_commit (h : Inv keyOf s) :
    u ∈ (s.commit t).active ↔ u ∈ s.active ∧ u ≠ t := by
  rw [State.active_commit, h.nodup.mem_erase_iff, and_comm]

@[simp] theorem State.active_rollback : (s.rollback t).active = s.active := by
  simp only [State.active, State.rollback, List.map_map]
  refine List.map_congr_left fun p _ => ?_
  by_cases h : p.1 = t <;> simp [h]

theorem Inv.live_commit (h : Inv keyOf s) : (s.commit t).Live u ↔ s.Live u ∧ u ≠ t := by
  constructor
  · intro hu
    exact ⟨List.mem_of_mem_eraseP hu, (h.mem_active_commit.mp (State.Live.active hu)).2⟩
  · rintro ⟨hu, hne⟩
    exact (List.mem_eraseP_of_neg (by simpa using hne)).mpr hu

@[simp] theorem State.live_rollback : (s.rollback t).Live u ↔ s.Live u ∧ u ≠ t := by
  simp only [State.Live, State.rollback, List.mem_map]
  constructor
  · rintro ⟨p, hp, heq⟩
    by_cases h : p.1 = t
    · simp [h] at heq
    · rw [if_neg h] at heq
      exact ⟨heq ▸ hp, fun e => h (by rw [heq]; exact e)⟩
  · rintro ⟨hu, hne⟩
    exact ⟨_, hu, if_neg hne⟩

/-- The version of the item that an event writes. -/
def Event.written (i : I) : Event I K V → List (Version V)
  | .write t j x => if j = i then [⟨t, x⟩] else []
  | _ => []

/-- A chain grows by what is written. -/
theorem Step.chain (h : Step keyOf s e s') (i : I) : s'.chain i = e.written i ++ s.chain i := by
  cases h with
  | begin => rfl
  | lock hl hf => rfl
  | @write t j x hl hf =>
    by_cases hj : j = i
    · subst hj
      simp [State.push, State.lock, Event.written]
    · simp [State.push, State.lock, Event.written, hj, Function.update_of_ne (Ne.symm hj)]
  | commit => rfl
  | rollback => rfl
  | skip => rfl

/-! ## The invariant -/

/-- A transaction ends: its keys are free again and it is no longer live. -/
theorem Inv.released (h : Inv keyOf s) (hlive : ∀ u, s'.Live u ↔ s.Live u ∧ u ≠ t) (i : I)
    (hh : s'.holder = (s.release t).holder) :
    Owned s'.Live (s'.holder (keyOf i)) (s.chain i) := by
  have ho : Owned s'.Live (s.holder (keyOf i)) (s.chain i) :=
    (h.owned i).mono fun v _ hv => ((hlive _).mp hv).1
  rw [hh]
  simp only [State.release]
  split
  · next hk =>
    rw [hk] at ho
    exact ho.release fun hl => ((hlive t).mp hl).2 rfl
  · exact ho

theorem Inv.locked (h : Inv keyOf s) (hl : s.Live t) (hf : s.Free t k) :
    Inv keyOf (s.lock t k) where
  ids := h.ids
  nodup := h.nodup
  holder := by
    intro k' t' hh
    by_cases hk : k' = k
    · subst hk
      simp only [State.lock, Function.update_self, Option.some.injEq] at hh
      exact hh ▸ hl
    · simp only [State.lock, Function.update_of_ne hk] at hh
      exact h.holder hh
  versions := h.versions
  owned i := by
    by_cases hk : keyOf i = k
    · subst hk
      simp only [State.lock, Function.update_self]
      exact (h.owned i).lock hf
    · simp only [State.lock, Function.update_of_ne hk]
      exact h.owned i

theorem Inv.ended (h : Inv keyOf s) (hlive : ∀ u, s'.Live u ↔ s.Live u ∧ u ≠ t)
    (hids : ∀ p ∈ s'.txns, p.1 < s.next) (hn : s'.active.Nodup) (hnext : s'.next = s.next)
    (hh : s'.holder = (s.release t).holder) (hc : s'.chain = s.chain) : Inv keyOf s' where
  ids := hnext ▸ hids
  nodup := hn
  holder := by
    intro k u hk
    rw [hh] at hk
    simp only [State.release] at hk
    split at hk
    · cases hk
    · next hne =>
      refine (hlive u).mpr ⟨h.holder hk, ?_⟩
      rintro rfl
      exact hne hk
  versions := by
    rw [hnext, hc]
    exact h.versions
  owned i := by
    rw [hc]
    exact h.released hlive i hh

theorem Step.inv (hs : Step keyOf s e s') (h : Inv keyOf s) : Inv keyOf s' := by
  cases hs with
  | begin =>
    exact {
      ids := by
        intro p hp
        rcases List.mem_append.mp hp with hp | hp
        · have := h.ids p hp
          simp only [State.begin]
          omega
        · obtain rfl := List.mem_singleton.mp hp
          simp [State.begin]
      nodup := by
        rw [State.active_begin, List.nodup_append]
        refine ⟨h.nodup, List.nodup_singleton _, fun a ha b hb => ?_⟩
        obtain rfl := List.mem_singleton.mp hb
        have := h.lt_next ha
        omega
      holder := fun hk => State.live_begin.mpr (.inl (h.holder hk))
      versions := by
        intro i v hv
        have := h.versions hv
        simp only [State.begin]
        omega
      owned := by
        intro i
        refine (h.owned i).mono fun v hv hl => ?_
        rcases State.live_begin.mp hl with hl | hl
        · exact hl
        · have := h.versions hv
          omega }
  | lock hl hf => exact h.locked hl hf
  | @write t i x hl hf =>
    have h1 := h.locked hl hf
    exact { h1 with
      versions := by
        intro j v hv
        by_cases hj : j = i
        · subst hj
          simp only [State.push, Function.update_self] at hv
          rcases List.mem_cons.mp hv with rfl | hv
          · exact h.lt_next hl.active
          · exact h1.versions hv
        · simp only [State.push, Function.update_of_ne hj] at hv
          exact h1.versions hv
      owned := by
        intro j
        have hj' := h1.owned j
        by_cases hj : j = i
        · subst hj
          simp only [State.push, Function.update_self]
          simp only [State.lock, Function.update_self] at hj' ⊢
          exact hj'.write x
        · simp only [State.push, Function.update_of_ne hj]
          exact hj' }
  | @commit t =>
    refine h.ended (fun u => h.live_commit) (fun p hp => h.ids p (List.mem_of_mem_eraseP hp)) ?_
      rfl rfl rfl
    rw [State.active_commit]
    exact h.nodup.erase t
  | @rollback t =>
    refine h.ended (fun u => State.live_rollback) (fun p hp => ?_) ?_ rfl rfl rfl
    · have hm : p.1 ∈ (s.rollback t).active := List.mem_map.mpr ⟨p, hp, rfl⟩
      rw [State.active_rollback] at hm
      exact h.lt_next hm
    · rw [State.active_rollback]
      exact h.nodup
  | skip => exact h

/-! ## Pruning in a run -/

/-- Some items have been pruned with the list of active transactions. -/
structure Pruned (s s' : State I K V) : Prop where
  next : s'.next = s.next
  txns : s'.txns = s.txns
  holder : s'.holder = s.holder
  chain : ∀ i, s'.chain i = s.chain i ∨ s'.chain i = prune s.active (s.chain i)

namespace Pruned

theorem refl (s : State I K V) : Pruned s s := ⟨rfl, rfl, rfl, fun _ => .inl rfl⟩

theorem active (h : Pruned s s') : s'.active = s.active := by
  rw [State.active, State.active, h.txns]

theorem trans {s'' : State I K V} (h : Pruned s s') (h' : Pruned s' s'') : Pruned s s'' where
  next := h'.next.trans h.next
  txns := h'.txns.trans h.txns
  holder := h'.holder.trans h.holder
  chain i := by
    rcases h.chain i with e | e
    · rw [← e, ← h.active]
      exact h'.chain i
    · have h₂ := h'.chain i
      rw [h.active, e, prune_prune] at h₂
      exact .inr (h₂.elim id id)

theorem sublist (h : Pruned s s') (i : I) : (s'.chain i).Sublist (s.chain i) := by
  rcases h.chain i with e | e
  · rw [e]
  · rw [e]
    exact prune_sublist _ _

theorem live (h : Pruned s s') : s'.Live t ↔ s.Live t := by
  rw [State.Live, State.Live, h.txns]

/-- Pruning keeps the invariant. -/
theorem inv (hp : Pruned s s') (h : Inv keyOf s) : Inv keyOf s' where
  ids := by
    rw [hp.txns, hp.next]
    exact h.ids
  nodup := by
    rw [hp.active]
    exact h.nodup
  holder hk := by
    rw [hp.holder] at hk
    exact hp.live.mpr (h.holder hk)
  versions := by
    intro i v hv
    rw [hp.next]
    exact h.versions ((hp.sublist i).subset hv)
  owned i := by
    rw [hp.holder]
    exact ((h.owned i).sublist (hp.sublist i)).mono fun _ _ hl => hp.live.mp hl

/-- Pruning does not change what a live transaction reads. -/
theorem read (hp : Pruned s s') (h : Inv keyOf s) (hl : s.Live t) (i : I) :
    s'.read t i = s.read t i := by
  rw [State.read, State.read, hp.active]
  rcases hp.chain i with e | e
  · rw [e]
  · rw [e]
    exact (h.owned i).read_prune hl.active hl

end Pruned

end Mvcc
