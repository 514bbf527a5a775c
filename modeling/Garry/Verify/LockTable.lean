import Garry.Model.Engine

/-!
# Locks

A history lists the calls to a lock manager, the latest one first, with what they report. An
exclusive lock excludes the other transactions unless it was granted to a holder of a shared one:
the list of locks keeps the shared mode then.
-/

namespace Garry

/-- A call to the lock manager. -/
inductive LockCall
  | acquire (txn : Int) (key : Bytes) (mode : LockMode)
  | release (txn : Int)

/-- The histories of a lock manager, with the locks afterwards. A request may be refused without a
conflict when there is no memory for the lock. -/
inductive LockRun : List (LockCall × Bool) → List LockNode → Prop
  | nil : LockRun [] []
  | granted : LockRun h mgr → lockAcquire mgr txn key mode = some mgr' →
    LockRun ((.acquire txn key mode, true) :: h) mgr'
  | refused : LockRun h mgr → LockRun ((.acquire txn key mode, false) :: h) mgr
  | release : LockRun h mgr → LockRun ((.release txn, true) :: h) (lockRelease mgr txn)

/-- An exclusive lock on the key was granted to the transaction, which has not been released
since. -/
def ExclusiveSince (txn : Int) (key : Bytes) : List (LockCall × Bool) → Prop
  | [] => False
  | (.acquire t k mode, ok) :: h =>
    (t = txn ∧ k = key ∧ mode = .exclusive ∧ ok = true) ∨ ExclusiveSince txn key h
  | (.release t, _) :: h => t ≠ txn ∧ ExclusiveSince txn key h

/-- Exclusive locks exclude the other transactions, and locks of two transactions are shared. -/
structure Excludes (h : List (LockCall × Bool)) (mgr : List LockNode) : Prop where
  held : ∀ txn key, ExclusiveSince txn key h → ∀ p ∈ mgr, p.key = key → p.txn = txn
  refused : ∀ txn key, ExclusiveSince txn key h → ∀ txn' mode, txn' ≠ txn →
    lockAcquire mgr txn' key mode = none
  shared : ∀ p ∈ mgr, ∀ q ∈ mgr, p.key = q.key → p.txn ≠ q.txn → p.mode = .shared ∧ q.mode = .shared

/-- No exclusive lock is granted to a transaction that holds a shared one on the key. -/
def NoUpgrade (h : List (LockCall × Bool)) : Prop :=
  ∀ txn key h' mgr, (LockCall.acquire txn key .exclusive, true) :: h' <:+ h → LockRun h' mgr →
    ∀ p ∈ mgr, p.txn = txn → p.key = key → p.mode = .exclusive

variable {h : List (LockCall × Bool)} {mgr mgr' : List LockNode}

/-! ## One request -/

theorem lockHeld_iff : lockHeld mgr txn key = true ↔ ∃ p ∈ mgr, p.txn = txn ∧ p.key = key := by
  simp [lockHeld]

theorem hasConflict_iff : hasConflict mgr txn key mode = true ↔
    ∃ p ∈ mgr, p.key = key ∧ p.txn ≠ txn ∧ (p.mode = .exclusive ∨ mode = .exclusive) := by
  simp [hasConflict]

/-- A granted request: the transaction held the key already, or it gets a lock that conflicts with
no other. -/
theorem lockAcquire_some (h : lockAcquire mgr txn key mode = some mgr') :
    (∃ p ∈ mgr, p.txn = txn ∧ p.key = key) ∧ mgr' = mgr ∨
      (∀ p ∈ mgr, ¬ (p.txn = txn ∧ p.key = key)) ∧
      (∀ p ∈ mgr, p.key = key → p.mode = .shared ∧ mode = .shared) ∧
      key.length ≤ maxKeySize ∧ mgr' = ⟨key, txn, mode⟩ :: mgr := by
  rw [lockAcquire] at h
  split at h
  · next hheld =>
    cases h
    exact .inl ⟨lockHeld_iff.mp hheld, rfl⟩
  next hheld =>
  split at h
  · cases h
  next hconf =>
  split at h
  · cases h
  next hlen =>
  cases h
  have hno (p : LockNode) (hp : p ∈ mgr) : ¬ (p.txn = txn ∧ p.key = key) := fun hpk =>
    hheld (lockHeld_iff.mpr ⟨p, hp, hpk⟩)
  refine .inr ⟨hno, fun p hp hk => ?_, by omega, rfl⟩
  have hc : ¬ (p.mode = .exclusive ∨ mode = .exclusive) := fun hm =>
    hconf (hasConflict_iff.mpr ⟨p, hp, hk, fun ht => hno p hp ⟨ht, hk⟩, hm⟩)
  cases hpm : p.mode with
  | exclusive => exact absurd (.inl hpm) hc
  | shared =>
    cases mode with
    | exclusive => exact absurd (.inr rfl) hc
    | shared => exact ⟨rfl, rfl⟩

/-! ## The list of locks -/

/-- The locks after any history. -/
structure LockTable (mgr : List LockNode) : Prop where
  single : ∀ p ∈ mgr, ∀ q ∈ mgr, p.key = q.key → p.txn = q.txn → p = q
  shared : ∀ p ∈ mgr, ∀ q ∈ mgr, p.key = q.key → p.txn ≠ q.txn → p.mode = .shared ∧ q.mode = .shared
  length : ∀ p ∈ mgr, p.key.length ≤ maxKeySize

theorem LockTable.acquire (h : LockTable mgr) (ha : lockAcquire mgr txn key mode = some mgr') :
    LockTable mgr' := by
  rcases lockAcquire_some ha with ⟨-, rfl⟩ | ⟨hno, hsh, hlen, rfl⟩
  · exact h
  refine ⟨?_, ?_, ?_⟩
  · intro p hp q hq hk ht
    rcases List.mem_cons.mp hp with rfl | hp
    · rcases List.mem_cons.mp hq with rfl | hq
      · rfl
      · exact absurd ⟨ht.symm, hk.symm⟩ (hno q hq)
    · rcases List.mem_cons.mp hq with rfl | hq
      · exact absurd ⟨ht, hk⟩ (hno p hp)
      · exact h.single p hp q hq hk ht
  · intro p hp q hq hk ht
    rcases List.mem_cons.mp hp with rfl | hp
    · rcases List.mem_cons.mp hq with rfl | hq
      · exact absurd rfl ht
      · exact (hsh q hq hk.symm).symm
    · rcases List.mem_cons.mp hq with rfl | hq
      · exact hsh p hp hk
      · exact h.shared p hp q hq hk ht
  · intro p hp
    rcases List.mem_cons.mp hp with rfl | hp
    · exact hlen
    · exact h.length p hp

theorem LockTable.release (h : LockTable mgr) (txn : Int) : LockTable (lockRelease mgr txn) where
  single p hp q hq := h.single p (List.mem_filter.mp hp).1 q (List.mem_filter.mp hq).1
  shared p hp q hq := h.shared p (List.mem_filter.mp hp).1 q (List.mem_filter.mp hq).1
  length p hp := h.length p (List.mem_filter.mp hp).1

theorem LockRun.table (hrun : LockRun h mgr) : LockTable mgr := by
  induction hrun with
  | nil => exact ⟨by simp, by simp, by simp⟩
  | granted _ ha ih => exact ih.acquire ha
  | refused _ ih => exact ih
  | release _ ih => exact ih.release _

/-- The history determines the locks. -/
theorem LockRun.unique (hrun : LockRun h mgr) (hrun' : LockRun h mgr') : mgr = mgr' := by
  induction hrun generalizing mgr' with
  | nil =>
    cases hrun'
    rfl
  | granted _ ha ih =>
    cases hrun' with
    | granted hrun' ha' =>
      obtain rfl := ih hrun'
      exact Option.some.inj (ha.symm.trans ha')
  | refused _ ih =>
    cases hrun' with
    | refused hrun' => exact ih hrun'
  | release _ ih =>
    cases hrun' with
    | release hrun' => rw [ih hrun']

theorem LockRun.of_suffix (hrun : LockRun h mgr) (hs : h' <:+ h) : ∃ mgr', LockRun h' mgr' := by
  induction hrun generalizing h' with
  | nil =>
    obtain rfl := List.suffix_nil.mp hs
    exact ⟨[], .nil⟩
  | granted hrun ha ih =>
    rcases List.suffix_cons_iff.mp hs with rfl | hs
    · exact ⟨_, hrun.granted ha⟩
    · exact ih hs
  | refused hrun ih =>
    rcases List.suffix_cons_iff.mp hs with rfl | hs
    · exact ⟨_, hrun.refused⟩
    · exact ih hs
  | release hrun ih =>
    rcases List.suffix_cons_iff.mp hs with rfl | hs
    · exact ⟨_, hrun.release⟩
    · exact ih hs

/-! ## Exclusion -/

/-- Without upgrades an exclusive lock that was granted is in the list. -/
theorem LockRun.exclusive (hrun : LockRun h mgr) (hno : NoUpgrade h)
    (hex : ExclusiveSince txn key h) : ∃ p ∈ mgr, p.txn = txn ∧ p.key = key ∧ p.mode = .exclusive := by
  induction hrun with
  | nil => exact hex.elim
  | @granted h mgr t k mode mgr' hrun ha ih =>
    have hno' : NoUpgrade h := fun txn key h' mgr hs =>
      hno txn key h' mgr (hs.trans (List.suffix_cons _ _))
    rcases hex with ⟨rfl, rfl, rfl, -⟩ | hex
    · rcases lockAcquire_some ha with ⟨⟨p, hp, ht, hk⟩, he⟩ | ⟨-, -, -, he⟩
      · exact ⟨p, he ▸ hp, ht, hk, hno t k h mgr (List.suffix_refl _) hrun p hp ht hk⟩
      · exact ⟨⟨k, t, .exclusive⟩, by simp [he], rfl, rfl, rfl⟩
    · obtain ⟨p, hp, hpk⟩ := ih hno' hex
      rcases lockAcquire_some ha with ⟨-, rfl⟩ | ⟨-, -, -, rfl⟩
      · exact ⟨p, hp, hpk⟩
      · exact ⟨p, by simp [hp], hpk⟩
  | refused hrun ih =>
    rcases hex with ⟨-, -, -, hf⟩ | hex
    · cases hf
    · exact ih (fun txn key h' mgr hs => hno txn key h' mgr (hs.trans (List.suffix_cons _ _))) hex
  | release hrun ih =>
    obtain ⟨ht, hex⟩ := hex
    obtain ⟨p, hp, hpt, hpk⟩ := ih (fun txn key h' mgr hs =>
      hno txn key h' mgr (hs.trans (List.suffix_cons _ _))) hex
    exact ⟨p, List.mem_filter.mpr ⟨hp, by simpa [hpt] using ht.symm⟩, hpt, hpk⟩

theorem LockRun.excludes (hrun : LockRun h mgr) (hno : NoUpgrade h) : Excludes h mgr := by
  have htable := hrun.table
  have hheld : ∀ txn key, ExclusiveSince txn key h → ∀ p ∈ mgr, p.key = key → p.txn = txn := by
    intro txn key hex p hp hk
    obtain ⟨q, hq, hqt, hqk, hqm⟩ := hrun.exclusive hno hex
    by_contra hne
    have := (htable.shared p hp q hq (hk.trans hqk.symm) (hqt ▸ hne)).2
    rw [hqm] at this
    cases this
  refine ⟨hheld, fun txn key hex txn' mode hne => ?_, htable.shared⟩
  obtain ⟨q, hq, hqt, hqk, hqm⟩ := hrun.exclusive hno hex
  cases ha : lockAcquire mgr txn' key mode with
  | none => rfl
  | some mgr' =>
    rcases lockAcquire_some ha with ⟨⟨p, hp, hpt, hpk⟩, -⟩ | ⟨-, hsh, -⟩
    · exact absurd (hpt.symm.trans (hheld txn key hex p hp hpk)) hne
    · have := (hsh q hq hqk).1
      rw [hqm] at this
      cases this

/-- After an upgrade a shared lock is granted to any other transaction. -/
theorem not_excludes_of_upgrade (hrun : LockRun h mgr) (hp : p ∈ mgr) (hm : p.mode = .shared)
    (ha : lockAcquire mgr p.txn p.key .exclusive = some mgr') :
    ¬ Excludes ((.acquire p.txn p.key .exclusive, true) :: h) mgr' := by
  intro hex
  have htable := hrun.table
  rcases lockAcquire_some ha with ⟨-, rfl⟩ | ⟨hno, -⟩
  swap
  · exact hno p hp ⟨rfl, rfl⟩
  have hsince : ExclusiveSince p.txn p.key ((.acquire p.txn p.key .exclusive, true) :: h) :=
    .inl ⟨rfl, rfl, rfl, rfl⟩
  have hnone := hex.refused _ _ hsince (p.txn + 1) .shared (by omega)
  have hheld : lockHeld mgr' (p.txn + 1) p.key = false := by
    rw [Bool.eq_false_iff]
    intro hh
    obtain ⟨q, hq, hqt, hqk⟩ := lockHeld_iff.mp hh
    have := hex.held _ _ hsince q hq hqk
    omega
  have hconf : hasConflict mgr' (p.txn + 1) p.key .shared = false := by
    rw [Bool.eq_false_iff]
    intro hc
    obtain ⟨q, hq, hqk, -, hqm⟩ := hasConflict_iff.mp hc
    have hqt := hex.held _ _ hsince q hq hqk
    rw [htable.single q hq p hp hqk hqt, hm] at hqm
    rcases hqm with hqm | hqm <;> cases hqm
  rw [lockAcquire, hheld, if_neg (by decide), hconf, if_neg (by decide),
    if_neg (not_lt.mpr (htable.length p hp))] at hnone
  cases hnone

/-- Exclusion holds after every call of a history exactly when no exclusive lock is granted to a
transaction that holds a shared one on the key. -/
theorem lockAcquire_excludes (hrun : LockRun h mgr) :
    (∀ h' mgr', h' <:+ h → LockRun h' mgr' → Excludes h' mgr') ↔ NoUpgrade h := by
  constructor
  · intro hall txn key h' mgr' hs hrun' p hp ht hk
    obtain ⟨mgr₁, hrun₁⟩ := hrun.of_suffix hs
    have hex := hall _ _ hs hrun₁
    cases hrun₁ with
    | granted hrun₂ ha =>
      obtain rfl := hrun'.unique hrun₂
      subst ht
      subst hk
      cases hm : p.mode with
      | exclusive => rfl
      | shared => exact absurd hex (not_excludes_of_upgrade hrun' hp hm ha)
  · intro hno h' mgr' hs hrun'
    exact hrun'.excludes fun txn key h'' mgr'' hs' => hno txn key h'' mgr'' (hs'.trans hs)

/-- An exclusive lock on a key that another transaction holds. -/
theorem lockAcquire_upgrades : ∃ h mgr, LockRun h mgr ∧ ¬ Excludes h mgr ∧
    ExclusiveSince 1 [107] h ∧ ⟨[107], 2, .shared⟩ ∈ mgr := by
  have h1 : LockRun [(.acquire 1 [107] .shared, true)] [⟨[107], 1, .shared⟩] :=
    .granted .nil (by decide)
  have h2 : LockRun [(.acquire 2 [107] .shared, true), (.acquire 1 [107] .shared, true)]
      [⟨[107], 2, .shared⟩, ⟨[107], 1, .shared⟩] := h1.granted (by decide)
  have h3 : LockRun [(.acquire 1 [107] .exclusive, true), (.acquire 2 [107] .shared, true),
      (.acquire 1 [107] .shared, true)] [⟨[107], 2, .shared⟩, ⟨[107], 1, .shared⟩] :=
    h2.granted (by decide)
  refine ⟨_, _, h3, fun hex => ?_, .inl ⟨rfl, rfl, rfl, rfl⟩, by simp⟩
  have := hex.held 1 [107] (.inl ⟨rfl, rfl, rfl, rfl⟩) ⟨[107], 2, .shared⟩ (by simp) rfl
  cases this

/-- A transaction that asks for the mode that it needs at once. -/
theorem lockAcquire_excludes_single : Excludes [(.acquire 1 [107] .exclusive, true)]
    [⟨[107], 1, .exclusive⟩] := by
  have hrun : LockRun [(.acquire 1 [107] .exclusive, true)] [⟨[107], 1, .exclusive⟩] :=
    .granted .nil (by decide)
  refine (lockAcquire_excludes hrun).mpr ?_ _ _ (List.suffix_refl _) hrun
  intro txn key h' mgr hs hrun' p hp
  obtain rfl : h' = [] := by
    have := hs.length_le
    simpa using this
  cases hrun'
  cases hp

end Garry
