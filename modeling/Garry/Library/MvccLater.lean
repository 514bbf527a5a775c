import Garry.Library.MvccHistory

/-!
# What a later state still tells about an earlier one

The table of transactions has `cap` places; those of transactions that were rolled back are not
given back. The transactions that are open at one time end later, or stay.
-/

set_option linter.unusedSectionVars false

namespace Mvcc

variable {I K V : Type*} [DecidableEq I] [DecidableEq K] {keyOf : I → K} {s s' s'' : State I K V}
  {t u limit cap : Int} {e : Event I K V} {i : I} {new : List (Version V)}

/-! ## The places in the table -/

/-- How many transactions are live. -/
def State.liveCount (s : State I K V) : Nat := s.txns.countP fun p => !p.2

/-- Another transaction can begin. -/
structure State.HasPlace (limit cap : Int) (s : State I K V) : Prop where
  live : (s.liveCount : Int) < limit
  all : (s.txns.length : Int) < cap

/-- The table has no more transactions than it has places. -/
def State.Bounded (limit cap : Int) (s : State I K V) : Prop :=
  s.txns = [] ∨ (s.liveCount : Int) ≤ limit ∧ (s.txns.length : Int) ≤ cap

/-- The entries of a table are those of the others and the one of a live transaction. -/
theorem Inv.perm_cons (h : Inv keyOf s) (hl : s.Live t) :
    s.txns.Perm ((t, false) :: s.txns.erase (t, false)) ∧
      ∀ p ∈ s.txns.erase (t, false), p.1 ≠ t := by
  have hperm := List.perm_cons_erase hl
  refine ⟨hperm, fun p hp he => ?_⟩
  have hnd := (hperm.map Prod.fst).nodup_iff.mp h.nodup
  rw [List.map_cons, List.nodup_cons] at hnd
  exact hnd.1 (List.mem_map.mpr ⟨p, hp, he⟩)

theorem Inv.txns_commit (h : Inv keyOf s) (hl : s.Live t) :
    (s.commit t).txns = s.txns.erase (t, false) := by
  have hnd := h.nodup
  rw [State.active] at hnd
  rw [State.Live] at hl
  show (s.txns.eraseP fun p => p.1 == t) = _
  generalize s.txns = txns at hnd hl ⊢
  induction txns with
  | nil => rfl
  | cons p l ih =>
    obtain ⟨hnot, hnd⟩ := List.nodup_cons.mp hnd
    rw [List.eraseP_cons, List.erase_cons]
    rcases List.mem_cons.mp hl with rfl | hm
    · simp
    · have hne : p.1 ≠ t := by
        rintro rfl
        exact hnot (List.mem_map.mpr ⟨_, hm, rfl⟩)
      have hne' : p ≠ (t, false) := fun he => hne (congrArg Prod.fst he)
      rw [beq_eq_false_iff_ne.mpr hne, beq_eq_false_iff_ne.mpr hne', ih hnd hm]
      rfl

/-- A live transaction that commits leaves its place. -/
theorem Inv.hasPlace_commit (h : Inv keyOf s) (hl : s.Live t) (hb : s.Bounded limit cap) :
    (s.commit t).HasPlace limit cap := by
  obtain ⟨hperm, -⟩ := h.perm_cons hl
  have hcount := hperm.countP_eq fun p => !p.2
  have hlen := hperm.length_eq
  rw [List.countP_cons_of_pos rfl] at hcount
  rw [List.length_cons] at hlen
  rcases hb with hnil | ⟨h1, h2⟩
  · rw [State.Live, hnil] at hl
    cases hl
  rw [State.liveCount] at h1
  constructor
  · rw [State.liveCount, h.txns_commit hl]
    omega
  · rw [h.txns_commit hl]
    omega

/-- A live transaction that is rolled back leaves its place among the live ones. -/
theorem Inv.hasPlace_rollback (h : Inv keyOf s) (hl : s.Live t) (hb : s.Bounded limit cap)
    (hcap : (s.txns.length : Int) < cap) : (s.rollback t).HasPlace limit cap := by
  obtain ⟨hperm, hne⟩ := h.perm_cons hl
  have hcount := hperm.countP_eq fun p => !p.2
  rw [List.countP_cons_of_pos rfl] at hcount
  have hroll : (s.rollback t).txns.Perm ((t, true) :: s.txns.erase (t, false)) := by
    have hm := hperm.map fun p : Int × Bool => if p.1 = t then (t, true) else p
    rw [List.map_cons, if_pos rfl, List.map_congr_left fun p hp => if_neg (hne p hp),
      List.map_id'] at hm
    exact hm
  rcases hb with hnil | ⟨h1, -⟩
  · rw [State.Live, hnil] at hl
    cases hl
  rw [State.liveCount] at h1
  constructor
  · rw [State.liveCount, hroll.countP_eq, List.countP_cons_of_neg (by simp)]
    omega
  · show ((s.txns.map _).length : Int) < cap
    rw [List.length_map]
    exact hcap

theorem State.Bounded.move (h : s.Bounded limit cap) (hm : Move keyOf s e s')
    (hplace : ∀ t, e = .begin t → s.HasPlace limit cap) : s'.Bounded limit cap := by
  cases hm with
  | step hs =>
    cases hs with
    | begin =>
      obtain ⟨h1, h2⟩ := hplace _ rfl
      right
      simp only [State.liveCount, State.begin, List.countP_append, List.length_append] at h1 ⊢
      simp
      omega
    | lock => exact h
    | write => exact h
    | commit =>
      rcases h with h | ⟨h1, h2⟩
      · left
        show (s.txns.eraseP _) = []
        rw [h]
        rfl
      · right
        rename_i t
        have hsub : (s.commit t).txns.Sublist s.txns := List.eraseP_sublist
        have hc := hsub.countP_le (p := fun p => !p.2)
        have hl := hsub.length_le
        rw [State.liveCount] at h1 ⊢
        omega
    | rollback =>
      rcases h with h | ⟨h1, h2⟩
      · left
        show s.txns.map _ = []
        rw [h]
        rfl
      · right
        rename_i t
        have hc : (s.rollback t).liveCount ≤ s.liveCount := by
          simp only [State.liveCount, State.rollback, List.countP_map]
          apply List.countP_mono_left
          intro p _ hp
          simp only [Function.comp_apply] at hp
          split at hp
          · cases hp
          · exact hp
        have hl : (s.rollback t).txns.length = s.txns.length := List.length_map ..
        omega
    | skip => exact h
  | prune hp =>
    rw [State.Bounded, State.liveCount, hp.txns]
    exact h

/-! ## Transactions that end -/

/-- A transaction that begins later can find this one ended: it is live, or it has ended before and
there is a place in the table. -/
def State.CanEnd (cap : Int) (s : State I K V) (t : Int) : Prop :=
  s.Live t ∨ t ∉ s.active ∧ (s.txns.length : Int) < cap

/-- What the table of a later state `s'` tells about that of `s`. -/
structure Since (cap : Int) (s s' : State I K V) : Prop where
  next : s.next ≤ s'.next
  old : ∀ t ∈ s'.active, t ∈ s.active ∨ s.next ≤ t
  ended : ∀ t ∈ s.active, t ∉ s'.active → s.Live t
  live : ∀ t, s'.Live t → t < s.next → s.Live t
  full : cap ≤ s.txns.length → (∀ t ∈ s.active, t ∈ s'.active) → s'.next = s.next

namespace Since

theorem refl : Since cap s s where
  next := le_rfl
  old _ ht := .inl ht
  ended _ ht hno := absurd ht hno
  live _ ht _ := ht
  full _ _ := rfl

/-- A step that leaves the table. -/
theorem same (h : Since cap s s') (hnext : s''.next = s'.next) (htxns : s''.txns = s'.txns) :
    Since cap s s'' := by
  have hactive : s''.active = s'.active := by rw [State.active, State.active, htxns]
  exact {
    next := hnext ▸ h.next
    old := hactive ▸ h.old
    ended := hactive ▸ h.ended
    live := by
      intro t ht
      rw [State.Live, htxns] at ht
      exact h.live t ht
    full := by
      rw [hactive, hnext]
      exact h.full }

/-- A step; only live transactions are committed, and none begins without a place. -/
theorem move (h : Since cap s s') (hi : Inv keyOf s) (hi' : Inv keyOf s') (hm : Move keyOf s' e s'')
    (hend : ∀ t, e = .commit t → s'.Live t)
    (hplace : ∀ t, e = .begin t → (s'.txns.length : Int) < cap) : Since cap s s'' := by
  cases hm with
  | step hs =>
    cases hs with
    | begin =>
      have hnext := h.next
      have hfull : cap ≤ s.txns.length → ¬ ∀ t ∈ s.active, t ∈ s'.begin.active := by
        intro hcap hall
        -- Everything that was in the full table is still there.
        have hsub : s.active ⊆ s'.active := by
          intro t ht
          have hm := hall t ht
          rw [State.active_begin] at hm
          refine (List.mem_append.mp hm).resolve_right fun he => ?_
          have := hi.lt_next ht
          rw [List.mem_singleton.mp he] at this
          omega
        have hle := (hi.nodup.subperm hsub).length_le
        rw [State.active, State.active, List.length_map, List.length_map] at hle
        have := hplace _ rfl
        omega
      exact {
        next := by
          show s.next ≤ s'.next + 1
          omega
        old := by
          intro t ht
          rw [State.active_begin] at ht
          rcases List.mem_append.mp ht with ht | ht
          · exact h.old t ht
          · rw [List.mem_singleton.mp ht]
            exact .inr hnext
        ended := by
          intro t ht hno
          rw [State.active_begin] at hno
          exact h.ended t ht fun hm => hno (List.mem_append_left _ hm)
        live := by
          intro t ht hlt
          refine h.live t ((State.live_begin.mp ht).resolve_right ?_) hlt
          rintro rfl
          omega
        full := fun hcap hall => absurd hall (hfull hcap) }
    | lock => exact h.same rfl rfl
    | write => exact h.same rfl rfl
    | commit =>
      rename_i u
      have hmem (t : Int) : t ∈ (s'.commit u).active ↔ t ∈ s'.active ∧ t ≠ u :=
        hi'.mem_active_commit
      exact {
        next := h.next
        old := fun t ht => h.old t ((hmem t).mp ht).1
        ended := by
          intro t ht hno
          by_cases he : t = u
          · subst he
            exact h.live t (hend t rfl) (hi.lt_next ht)
          · exact h.ended t ht fun hm => hno ((hmem t).mpr ⟨hm, he⟩)
        live := fun t ht => h.live t (hi'.live_commit.mp ht).1
        full := fun hcap hall => h.full hcap fun t ht => ((hmem t).mp (hall t ht)).1 }
    | rollback =>
      rename_i u
      exact {
        next := h.next
        old := by
          rw [State.active_rollback]
          exact h.old
        ended := by
          rw [State.active_rollback]
          exact h.ended
        live := by
          intro t ht
          exact h.live t (State.live_rollback.mp ht).1
        full := by
          rw [State.active_rollback]
          exact h.full }
    | skip => exact h
  | prune hp => exact h.same hp.next hp.txns

/-- After a safe pruning a transaction that begins later reads the same, in the states with the
pruning and without it. -/
theorem read_eq (h : Since cap s s') (hi : Inv keyOf s) (hi' : Inv keyOf s')
    (htxns : s''.txns = s'.txns) (hchain : s'.chain i = new ++ s.chain i)
    (hpruned : s''.chain i = new ++ prune s.active (s.chain i))
    (hsafe : PruneSafe (s.CanEnd cap) s.active (s.chain i)) (ht : t ∈ s'.active) (hn : s.next ≤ t) :
    s''.read t i = s'.read t i := by
  have hactive : s''.active = s'.active := by rw [State.active, State.active, htxns]
  rw [State.read, State.read, hactive, hchain, hpruned]
  apply hsafe.read_eq (fun v hv => hi.versions hv) hn h.old
  intro u hu
  by_cases hold : u ∈ s.active
  · exact .inl (.inl (h.ended u hold hu))
  by_cases hcap : (s.txns.length : Int) < cap
  · exact .inl (.inr ⟨hold, hcap⟩)
  -- The table was full, and now `t` has a place.
  have hlt := hi'.lt_next ht
  have hgone : ¬ ∀ u ∈ s.active, u ∈ s'.active := by
    intro hall
    have := h.full (not_lt.mp hcap) hall
    omega
  push Not at hgone
  obtain ⟨w, hw, hw'⟩ := hgone
  exact .inr ⟨hold, w, .inl (h.ended w hw hw'), hw'⟩

end Since

end Mvcc
