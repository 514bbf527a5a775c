import Mathlib

/-!
# Multi-version chains

The versions of an item, newest first, each with the id of the transaction that wrote it. A
snapshot reads the newest version that was created up to its own id by a transaction which is no
longer active, or by itself. `prune` drops old versions by looking at the active snapshots.
-/

namespace Mvcc

/-- A version of an item: its creator and its value, `none` for a tombstone. -/
@[ext] structure Version (V : Type*) where
  txid : Int
  value : Option V
deriving DecidableEq

variable {V : Type*} {p q : Version V → Bool} {chain rest new : List (Version V)}
  {active active' : List Int} {snap next : Int}

/-- The snapshot `snap` sees the version while the transactions in `active` are open. -/
def visible (snap : Int) (active : List Int) (v : Version V) : Bool :=
  decide (v.txid ≤ snap ∧ (v.txid ∈ active → v.txid = snap))

/-- The value of the newest version that passes a test. -/
def newest (p : Version V → Bool) (chain : List (Version V)) : Option V :=
  (chain.find? p).bind Version.value

/-- What a snapshot reads. -/
def read (snap : Int) (active : List Int) (chain : List (Version V)) : Option V :=
  newest (visible snap active) chain

theorem visible_iff {v : Version V} :
    visible snap active v = true ↔ v.txid ≤ snap ∧ (v.txid ∈ active → v.txid = snap) :=
  decide_eq_true_iff

theorem find?_congr_mem {α : Type*} {p q : α → Bool} {l : List α} (h : ∀ x ∈ l, p x = q x) :
    l.find? p = l.find? q := by
  induction l with
  | nil => rfl
  | cons a l ih =>
    rw [List.find?_cons, List.find?_cons, h a (by simp), ih fun x hx => h x (by simp [hx])]

/-- A narrower test finds the same element when that passes it. -/
theorem find?_of_imp {α : Type*} {p q : α → Bool} {l : List α} {a : α}
    (h : ∀ x ∈ l, q x = true → p x = true)
    (hp : l.find? p = some a) (hq : q a = true) : l.find? q = some a := by
  induction l with
  | nil => cases hp
  | cons b l ih =>
    rw [List.find?_cons] at hp ⊢
    cases hb : p b with
    | true =>
      rw [hb] at hp
      obtain rfl : b = a := Option.some.inj hp
      rw [hq]
    | false =>
      rw [hb] at hp
      have hqb : q b = false := by
        by_contra hne
        have := h b (by simp) (by simpa using hne)
        rw [hb] at this
        cases this
      rw [hqb]
      exact ih (fun x hx => h x (by simp [hx])) hp

theorem newest_congr (h : ∀ v ∈ chain, p v = q v) : newest p chain = newest q chain := by
  rw [newest, newest, find?_congr_mem h]

theorem newest_cons_of_pos {v : Version V} (h : p v = true) : newest p (v :: rest) = v.value := by
  simp [newest, h]

theorem newest_cons_of_neg {v : Version V} (h : p v = false) :
    newest p (v :: rest) = newest p rest := by simp [newest, h]

theorem read_cons_of_pos {v : Version V} (h : visible snap active v = true) :
    read snap active (v :: rest) = v.value := newest_cons_of_pos h

theorem read_cons_of_neg {v : Version V} (h : visible snap active v = false) :
    read snap active (v :: rest) = read snap active rest := newest_cons_of_neg h

theorem newest_append : newest p (new ++ chain) =
    if new.any p then newest p new else newest p chain := by
  rw [newest, newest, newest, List.find?_append]
  cases h : new.find? p with
  | none =>
    have hany : new.any p = false := by
      rw [List.any_eq_false]
      intro x hx
      simpa using List.find?_eq_none.mp h x hx
    simp [hany]
  | some v =>
    have hany : new.any p = true :=
      List.any_eq_true.mpr ⟨v, List.mem_of_find?_eq_some h, List.find?_some h⟩
    simp [hany]

theorem newest_append_of_none (h : ∀ v ∈ new, p v = false) :
    newest p (new ++ chain) = newest p chain := by
  rw [newest_append, if_neg]
  simpa using h

/-- The first version found does not change when only versions are dropped that fail the test. -/
theorem newest_filter (h : ∀ v ∈ chain, p v = true → q v = true) :
    newest p (chain.filter q) = newest p chain := by
  rw [newest, newest, List.find?_filter]
  congr 1
  refine find?_congr_mem fun v hv => ?_
  cases hp : p v with
  | false => simp
  | true => simp [h v hv hp]

theorem newest_filter_self (p : Version V → Bool) :
    newest (fun _ => true) (chain.filter p) = newest p chain := by
  rw [newest, newest, List.find?_filter]
  simp

/-! ## Pruning -/

/-- The rule for all versions but the newest: some active snapshot has reached the version and
its creator is not active. -/
def pruneKeeps (active : List Int) (v : Version V) : Bool :=
  decide (∃ snap ∈ active, v.txid ≤ snap ∧ v.txid ∉ active)

theorem pruneKeeps_iff {v : Version V} :
    pruneKeeps active v = true ↔ v.txid ∉ active ∧ ∃ snap ∈ active, v.txid ≤ snap := by
  simp only [pruneKeeps, decide_eq_true_eq]
  constructor
  · rintro ⟨snap, hm, hle, hn⟩
    exact ⟨hn, snap, hm, hle⟩
  · rintro ⟨hn, snap, hm, hle⟩
    exact ⟨snap, hm, hle, hn⟩

/-- The chain without the versions that are neither the newest nor kept. -/
def prune (active : List Int) : List (Version V) → List (Version V)
  | [] => []
  | v :: rest => v :: rest.filter (pruneKeeps active)

theorem prune_sublist (active : List Int) (chain : List (Version V)) :
    (prune active chain).Sublist chain := by
  cases chain with
  | nil => exact .slnil
  | cons v rest => exact List.filter_sublist.cons_cons v

theorem prune_prune (active : List Int) (chain : List (Version V)) :
    prune active (prune active chain) = prune active chain := by
  cases chain with
  | nil => rfl
  | cons v rest => simp [prune, List.filter_filter]

/-- The newest versions are those of the transaction that holds the item, if any does, and no
other version is by a live transaction. -/
def Owned (live : Int → Prop) (holder : Option Int) (chain : List (Version V)) : Prop :=
  ∃ own rest, chain = own ++ rest ∧ (∀ v ∈ own, holder = some v.txid) ∧ ∀ v ∈ rest, ¬ live v.txid

namespace Owned

variable {live live' : Int → Prop} {holder : Option Int}

theorem nil : Owned live holder ([] : List (Version V)) := ⟨[], [], rfl, by simp, by simp⟩

/-- A transaction takes the item when no other one has it. -/
theorem lock (h : Owned live holder chain) (hh : holder = none ∨ holder = some t) :
    Owned live (some t) chain := by
  obtain ⟨own, rest, rfl, ho, hr⟩ := h
  refine ⟨own, rest, rfl, fun v hv => ?_, hr⟩
  rcases hh with hh | hh
  · rw [hh] at ho
    cases ho v hv
  · rw [← hh]
    exact ho v hv

theorem write (h : Owned live (some t) chain) (x : Option V) :
    Owned live (some t) (⟨t, x⟩ :: chain) := by
  obtain ⟨own, rest, rfl, ho, hr⟩ := h
  refine ⟨⟨t, x⟩ :: own, rest, rfl, ?_, hr⟩
  intro v hv
  rcases List.mem_cons.mp hv with rfl | hv
  · rfl
  · exact ho v hv

/-- Transactions become live that have written nothing here, others stop being live. -/
theorem mono (h : Owned live holder chain)
    (hlive : ∀ v ∈ chain, live' v.txid → live v.txid) : Owned live' holder chain := by
  obtain ⟨own, rest, rfl, ho, hr⟩ := h
  exact ⟨own, rest, rfl, ho, fun v hv hl => hr v hv (hlive v (by simp [hv]) hl)⟩

/-- The holder gives the item up and is no longer live. -/
theorem release (h : Owned live (some t) chain) (ht : ¬ live t) : Owned live none chain := by
  obtain ⟨own, rest, rfl, ho, hr⟩ := h
  refine ⟨[], own ++ rest, rfl, by simp, fun v hv => ?_⟩
  rcases List.mem_append.mp hv with hv | hv
  · have := Option.some.inj (ho v hv)
    rwa [← this]
  · exact hr v hv

theorem sublist (h : Owned live holder chain) (hs : chain'.Sublist chain) :
    Owned live holder chain' := by
  obtain ⟨own, rest, rfl, ho, hr⟩ := h
  obtain ⟨own', rest', rfl, h1, h2⟩ := List.sublist_append_iff.mp hs
  exact ⟨own', rest', rfl, fun v hv => ho v (h1.subset hv), fun v hv => hr v (h2.subset hv)⟩

/-- A version of a live transaction lies below versions of that transaction only. -/
theorem head_of_live {v w : Version V} (h : Owned live holder (v :: rest)) (hw : w ∈ rest)
    (hlive : live w.txid) : v.txid = w.txid := by
  obtain ⟨own, rest', e, ho, hr⟩ := h
  cases own with
  | nil =>
    rw [List.nil_append] at e
    exact absurd hlive (hr w (e ▸ List.mem_cons_of_mem v hw))
  | cons u own =>
    rw [List.cons_append, List.cons.injEq] at e
    obtain ⟨rfl, rfl⟩ := e
    rcases List.mem_append.mp hw with hw | hw
    · have h1 := ho v (by simp)
      have h2 := ho w (by simp [hw])
      rw [h1] at h2
      exact Option.some.inj h2
    · exact absurd hlive (hr w hw)

/-- A live transaction with another holder has no version here. -/
theorem not_mem (h : Owned live holder chain) {v : Version V} (hv : v ∈ chain)
    (hlive : live v.txid) : holder = some v.txid := by
  obtain ⟨own, rest, rfl, ho, hr⟩ := h
  rcases List.mem_append.mp hv with hv | hv
  · exact ho v hv
  · exact absurd hlive (hr v hv)

/-- Pruning does not change what a live snapshot reads. -/
theorem read_prune (h : Owned live holder chain) (hact : snap ∈ active) (hlive : live snap) :
    read snap active (prune active chain) = read snap active chain := by
  cases chain with
  | nil => rfl
  | cons v rest =>
    rw [read, read, prune]
    cases hv : visible snap active v with
    | true => rw [newest_cons_of_pos hv, newest_cons_of_pos hv]
    | false =>
      rw [newest_cons_of_neg hv, newest_cons_of_neg hv]
      refine newest_filter fun w hw hvis => ?_
      obtain ⟨hle, hself⟩ := visible_iff.mp hvis
      refine pruneKeeps_iff.mpr ⟨fun hm => ?_, snap, hact, hle⟩
      -- A version of the snapshot itself lies below its own newest one, which it sees.
      have hw' : w.txid = snap := hself hm
      have hvw := h.head_of_live hw (hw' ▸ hlive)
      have : visible snap active v = true := visible_iff.mpr ⟨by omega, fun _ => by omega⟩
      rw [hv] at this
      cases this

end Owned

/-! ## Readers that begin after a pruning -/

/-- The newest version is by a transaction that is not active. Or else the newest of the older
versions that is committed once one of the transactions in `ends` has ended has the value of the
newest one that the rule keeps. -/
def PruneSafe (ends : Int → Prop) (active : List Int) : List (Version V) → Prop
  | [] => True
  | v :: rest => v.txid ∈ active → ∀ t, ends t → t ≠ v.txid →
      newest (fun w => decide (w.txid ∉ active ∨ w.txid = t)) rest =
        newest (pruneKeeps active) rest

/-- A snapshot newer than the versions sees those whose creators have ended. -/
theorem visible_of_lt {v : Version V} (hv : v.txid < next) (hn : next ≤ snap) :
    visible snap active v = decide (v.txid ∉ active) := by
  rw [visible, decide_eq_decide]
  constructor
  · rintro ⟨-, h⟩ hm
    have := h hm
    omega
  · intro h
    exact ⟨by omega, fun hm => absurd hm h⟩

theorem read_of_lt (hlt : ∀ v ∈ chain, v.txid < next) (hn : next ≤ snap) :
    read snap active chain = newest (fun v => decide (v.txid ∉ active)) chain :=
  newest_congr fun v hv => visible_of_lt (hlt v hv) hn

/-- What is kept below the newest version is committed. -/
theorem newest_filter_pruneKeeps (hact : ∀ v ∈ rest, v.txid ∈ active' → v.txid ∈ active) :
    newest (fun v => decide (v.txid ∉ active')) (rest.filter (pruneKeeps active)) =
      newest (pruneKeeps active) rest := by
  rw [← newest_filter_self (pruneKeeps active)]
  refine newest_congr fun v hv => decide_eq_true fun hm => ?_
  obtain ⟨hv, hk⟩ := List.mem_filter.mp hv
  exact (pruneKeeps_iff.mp hk).1 (hact v hv hm)

/-- The newest version that is committed later was committed before, or its creator has ended. -/
theorem find?_of_ended {t : Int} {w : Version V} (hact : ∀ u ∈ rest, u.txid ∈ active' → u.txid ∈ active)
    (ht : t ∉ active') (hw : w.txid ∉ active ∨ w.txid = t)
    (hf : rest.find? (fun u => decide (u.txid ∉ active')) = some w) :
    rest.find? (fun u => decide (u.txid ∉ active ∨ u.txid = t)) = some w := by
  refine find?_of_imp (fun u hu hq => ?_) hf (decide_eq_true hw)
  refine decide_eq_true fun hm => ?_
  rcases of_decide_eq_true hq with hua | heq
  · exact hua (hact u hu hm)
  · exact ht (heq ▸ hm)

/-- After a safe pruning a snapshot that begins later reads the same, whatever versions have been
added. When no transaction in `ends` is open that had ended before, one of them has ended since. -/
theorem PruneSafe.read_eq {ends : Int → Prop} (h : PruneSafe ends active chain)
    (hlt : ∀ v ∈ chain, v.txid < next) (hn : next ≤ snap)
    (hact : ∀ t ∈ active', t ∈ active ∨ next ≤ t)
    (hends : ∀ t, t ∉ active' → ends t ∨ t ∉ active ∧ ∃ u, ends u ∧ u ∉ active') :
    read snap active' (new ++ prune active chain) = read snap active' (new ++ chain) := by
  have hcore : read snap active' (prune active chain) = read snap active' chain := by
    rw [read_of_lt hlt hn, read_of_lt (fun v hv => hlt v ((prune_sublist _ _).subset hv)) hn]
    cases chain with
    | nil => rfl
    | cons v rest =>
      have hact' : ∀ w ∈ v :: rest, w.txid ∈ active' → w.txid ∈ active := by
        intro w hw hm
        refine (hact _ hm).resolve_right fun hge => ?_
        have := hlt w hw
        omega
      rw [prune]
      by_cases hv : v.txid ∈ active'
      · have hva := hact' v (by simp) hv
        have hrest : ∀ w ∈ rest, w.txid ∈ active' → w.txid ∈ active := fun w hw =>
          hact' w (by simp [hw])
        rw [newest_cons_of_neg (by simpa using hv), newest_cons_of_neg (by simpa using hv),
          newest_filter_pruneKeeps hrest]
        cases hf : rest.find? fun w => decide (w.txid ∉ active') with
        | none =>
          have hnone : ∀ w ∈ rest, w.txid ∈ active' := by
            simpa using List.find?_eq_none.mp hf
          have hk : rest.find? (pruneKeeps active) = none := by
            exact List.find?_eq_none.mpr fun w hw hkeep =>
              (pruneKeeps_iff.mp hkeep).1 (hrest w hw (hnone w hw))
          rw [newest, newest, hf, hk]
        | some w =>
          have hw : w.txid ∉ active' := by simpa using List.find?_some hf
          -- The creator of the version found has ended in between, or some other one has.
          obtain ⟨t, ht, ht', hwt⟩ : ∃ t, ends t ∧ t ∉ active' ∧ (w.txid ∉ active ∨ w.txid = t) := by
            rcases hends _ hw with he | ⟨hn, u, hu, hu'⟩
            · exact ⟨_, he, hw, .inr rfl⟩
            · exact ⟨u, hu, hu', .inl hn⟩
          rw [← h hva t ht fun e => ht' (e ▸ hv), newest, newest, hf, find?_of_ended hrest ht' hwt hf]
      · rw [newest_cons_of_pos (by simpa using hv), newest_cons_of_pos (by simpa using hv)]
  rw [read, read, newest_append, newest_append]
  split
  · rfl
  · exact hcore

/-- After an unsafe pruning a snapshot that begins later reads something else when one of the
transactions in `ends` has ended. -/
theorem exists_read_ne {ends : Int → Prop} (h : ¬ PruneSafe ends active chain)
    (hlt : ∀ v ∈ chain, v.txid < next) (hn : next ≤ snap) :
    ∃ t, ends t ∧ (∃ v ∈ chain, v.txid ∈ active) ∧
      ∀ active', (∀ x, x < next → (x ∈ active' ↔ x ∈ active ∧ x ≠ t)) →
        read snap active' (prune active chain) ≠ read snap active' chain := by
  cases chain with
  | nil => exact absurd trivial h
  | cons v rest =>
    simp only [PruneSafe] at h
    push Not at h
    obtain ⟨hv, t, he, ht, hne⟩ := h
    refine ⟨t, he, ⟨v, by simp, hv⟩, fun active' hact heq => hne ?_⟩
    have hlt' : ∀ w ∈ rest, w.txid < next := fun w hw => hlt w (by simp [hw])
    have hv' : v.txid ∈ active' := (hact _ (hlt v (by simp))).mpr ⟨hv, ht.symm⟩
    rw [read_of_lt hlt hn, read_of_lt (fun v hv => hlt v ((prune_sublist _ _).subset hv)) hn, prune,
      newest_cons_of_neg (by simpa using hv'), newest_cons_of_neg (by simpa using hv')] at heq
    rw [← newest_filter_pruneKeeps fun w hw hm => ((hact _ (hlt' w hw)).mp hm).1, heq]
    refine newest_congr fun w hw => ?_
    rw [decide_eq_decide, hact _ (hlt' w hw)]
    tauto

end Mvcc
