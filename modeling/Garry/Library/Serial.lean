import Garry.Library.MvccHistory
import Mathlib.Order.Extension.Linear

/-!
# Serial orders

A schedule is serializable when the transactions that commit, run one after another, read what they
read in the schedule and leave the same values. When every read is of the last version committed by
a transaction up to the reader's own id, an order that respects the dependencies will do.
-/

set_option linter.unusedSectionVars false

namespace Serial

open Mvcc

variable {I V R : Type*} [DecidableEq I]

/-- What happens in a schedule: a transaction reads an item with a result, writes one, or commits. -/
inductive Event (I V R : Type*)
  | get (t : Int) (i : I) (r : R)
  | put (t : Int) (i : I) (x : Option V)
  | commit (t : Int)
  | other
  deriving DecidableEq

namespace Event

/-- The transaction that an event belongs to. -/
def owner : Event I V R → Option Int
  | get t _ _ => some t
  | put t _ _ => some t
  | commit t => some t
  | other => none

/-- The transaction that commits. -/
def committed : Event I V R → Option Int
  | commit t => some t
  | _ => none

/-- The version that is written to an item. -/
def version (i : I) : Event I V R → Option (Version V)
  | put t j x => if j = i then some ⟨t, x⟩ else none
  | _ => none

end Event

abbrev Schedule (I V R : Type*) := List (Event I V R)

variable {es pre post : Schedule I V R} {e : Event I V R} {t u w : Int} {i : I} {r : R}

/-- The transactions that commit, in this order. -/
def commits (es : Schedule I V R) : List Int := es.filterMap Event.committed

/-- The versions written to an item, the newest first. -/
def puts (es : Schedule I V R) (i : I) : List (Version V) :=
  (es.filterMap (Event.version i)).reverse

/-- Those by one transaction. -/
def written (es : Schedule I V R) (t : Int) (i : I) : List (Version V) :=
  (puts es i).filter fun v => v.txid = t

def Wrote (es : Schedule I V R) (t : Int) (i : I) : Prop := written es t i ≠ []

instance : Decidable (Wrote es t i) :=
  decidable_of_iff (¬ (written es t i).isEmpty) (not_congr List.isEmpty_iff)

/-- The last transaction that committed a write of the item, among some. -/
def lastWriter (es : Schedule I V R) (i : I) (p : Int → Prop) [DecidablePred p] : Option Int :=
  (commits es).reverse.find? fun u => p u ∧ Wrote es u i

/-- The value that a transaction wrote last to the item. -/
def valueOf (es : Schedule I V R) (i : I) (w : Option Int) : Option V :=
  w.bind fun u => (written es u i).head?.bind Version.value

/-- The values after all commits. -/
def committedMap (es : Schedule I V R) (i : I) : Option V :=
  valueOf es i (lastWriter es i fun _ => True)

/-- The values that a transaction sees over some others. -/
def sees (es : Schedule I V R) (t : Int) (m : I → Option V) (i : I) : Option V :=
  ((written es t i).head?.map Version.value).getD (m i)

/-! ## Serial runs -/

/-- What a transaction does. -/
def program (es : Schedule I V R) (t : Int) : Schedule I V R := es.filter fun e => e.owner = some t

/-- An event of a transaction that runs alone; `none` when it reads something else. -/
def alone [DecidableEq R] (view : Option V → R) (m : I → Option V) :
    Event I V R → Option (I → Option V)
  | .get _ i r => if view (m i) = r then some m else none
  | .put _ i x => some (Function.update m i x)
  | _ => some m

/-- Transactions that run one after the other. -/
def runSerial [DecidableEq R] (view : Option V → R) (es : Schedule I V R) (order : List Int) :
    Option (I → Option V) :=
  order.foldlM (fun m t => (program es t).foldlM (alone view) m) fun _ => none

/-- Some order of the transactions that commit gives their results and the same values. -/
def Serializable [DecidableEq R] (view : Option V → R) (es : Schedule I V R) : Prop :=
  ∃ order : List Int, order.Perm (commits es) ∧ runSerial view es order = some (committedMap es)

/-! ## Dependencies -/

/-- The transaction reads the item, which it has not written, from the one that committed it last up
to the reader's own id. -/
def ReadsFrom (es : Schedule I V R) (t : Int) (i : I) (src : Option Int) : Prop :=
  ∃ pre r post, es = pre ++ .get t i r :: post ∧ ¬ Wrote pre t i ∧
    lastWriter pre i (· ≤ t) = src

/-- One commits before the other. -/
def Before (es : Schedule I V R) (t u : Int) : Prop := [t, u].Sublist (commits es)

/-- In a serial order the first of two committed transactions has to come before the second. -/
inductive Dep (es : Schedule I V R) (t u : Int) : Prop
  | read (i : I) : ReadsFrom es u i (some t) → Dep es t u
  | write (i : I) : Wrote es t i → Wrote es u i → Before es t u → Dep es t u
  | overwrite (i : I) (src : Option Int) : ReadsFrom es t i src → Wrote es u i →
    (∀ w ∈ src, Before es w u) → Dep es t u

/-- A dependency between different transactions that commit. -/
def Depends (es : Schedule I V R) (t u : Int) : Prop :=
  t ≠ u ∧ t ∈ commits es ∧ u ∈ commits es ∧ Dep es t u

/-- No transaction depends on itself through others. -/
def Acyclic (es : Schedule I V R) : Prop := ∀ t, ¬ Relation.TransGen (Depends es) t t

/-- One transaction alone has no dependencies. -/
theorem acyclic_of_single (h : commits es = [t]) : Acyclic es := by
  intro u hu
  obtain ⟨w, ⟨hne, hu, hw, -⟩, -⟩ := Relation.TransGen.head'_iff.mp hu
  rw [h] at hu hw
  exact hne ((List.mem_singleton.mp hu).trans (List.mem_singleton.mp hw).symm)

/-! ## Orders -/

/-- A list can be ordered along a relation without cycles. -/
theorem exists_order {α : Type*} {r : α → α → Prop} (hr : ∀ a, ¬ Relation.TransGen r a a)
    (l : List α) : ∃ order : List α, order.Perm l ∧ order.Pairwise fun a b => ¬ r b a := by
  classical
  have hpart : IsPartialOrder α (Relation.ReflTransGen r) := by
    refine { refl := fun a => .refl, trans := fun a b c => .trans, antisymm := fun a b hab hba => ?_ }
    rcases Relation.reflTransGen_iff_eq_or_transGen.mp hab with he | hab
    · exact he.symm
    · exact absurd (hab.trans_left hba) (hr a)
  obtain ⟨s, hs, hle⟩ := extend_partialOrder (Relation.ReflTransGen r)
  refine ⟨l.insertionSort s, l.perm_insertionSort s, ?_⟩
  refine (l.pairwise_insertionSort s).imp fun {a b} hab hba => ?_
  obtain rfl : a = b := hs.antisymm a b hab (hle _ _ (.single hba))
  exact hr a (.single hba)

/-! ## The last of a list -/

section
variable {l : List Int} {p : Int → Bool}

theorem sublist_or_sublist (ht : t ∈ l) (hu : u ∈ l) (hne : t ≠ u) :
    [t, u].Sublist l ∨ [u, t].Sublist l := by
  obtain ⟨a, b, rfl⟩ := List.append_of_mem ht
  rcases List.mem_append.mp hu with hu | hu
  · right
    exact (List.singleton_sublist.mpr hu).append (List.singleton_sublist.mpr (by simp))
  · left
    have hub : u ∈ b := (List.mem_cons.mp hu).resolve_left hne.symm
    exact (List.Sublist.cons_cons t (List.singleton_sublist.mpr hub)).trans
      (List.sublist_append_right a _)

theorem not_sublist_swap (hl : l.Nodup) (h : [t, u].Sublist l) : ¬ [u, t].Sublist l := by
  intro h'
  induction l with
  | nil => cases h
  | cons a l ih =>
    obtain ⟨ha, hl⟩ := List.nodup_cons.mp hl
    cases h with
    | cons _ h =>
      cases h' with
      | cons _ h' => exact ih hl h h'
      | cons_cons _ _ => exact ha (h.subset (by simp))
    | cons_cons _ h =>
      cases h' with
      | cons _ h' => exact ha (h'.subset (by simp))
      | cons_cons _ h' => exact ha (h'.subset (by simp))

/-- The others of which something holds come before the last one. -/
theorem sublist_of_last (h : l.reverse.find? p = some t) (hw : w ∈ l) (hp : p w = true)
    (hne : w ≠ t) : [w, t].Sublist l := by
  obtain ⟨-, as, bs, heq, has⟩ := List.find?_eq_some_iff_append.mp h
  obtain rfl : l = bs.reverse ++ t :: as.reverse := by simpa using congrArg List.reverse heq
  have hwb : w ∈ bs.reverse := by
    rcases List.mem_append.mp hw with hw | hw
    · exact hw
    · have hwa := List.mem_reverse.mp ((List.mem_cons.mp hw).resolve_left hne)
      exact absurd hp (by simpa using has w hwa)
  exact (List.singleton_sublist.mpr hwb).append (List.singleton_sublist.mpr (by simp))

theorem last_eq (hl : l.Nodup) (ht : t ∈ l) (hp : p t = true)
    (h : ∀ w ∈ l, p w = true → w ≠ t → [w, t].Sublist l) : l.reverse.find? p = some t := by
  cases hf : l.reverse.find? p with
  | none => exact absurd hp (List.find?_eq_none.mp hf t (List.mem_reverse.mpr ht))
  | some w =>
    by_contra hne
    have hwt : w ≠ t := fun he => hne (congrArg some he)
    have hw := List.mem_reverse.mp (List.mem_of_find?_eq_some hf)
    exact not_sublist_swap hl (h w hw (List.find?_some hf) hwt) (sublist_of_last hf ht hp hwt.symm)

end

/-! ## Events -/

theorem commits_append : commits (pre ++ post) = commits pre ++ commits post :=
  List.filterMap_append

theorem commits_of_committed (h : e.committed = none) : commits (es ++ [e]) = commits es := by
  rw [commits_append, commits, commits, List.filterMap_cons_none h]
  exact List.append_nil _

theorem puts_append (i : I) : puts (pre ++ post) i = puts post i ++ puts pre i := by
  rw [puts, List.filterMap_append, List.reverse_append]
  rfl

theorem written_append (t : Int) (i : I) :
    written (pre ++ post) t i = written post t i ++ written pre t i := by
  rw [written, puts_append, List.filter_append]
  rfl

/-- An event that writes nothing. -/
theorem puts_of_version (h : ∀ i, e.version i = none) (i : I) : puts (es ++ [e]) i = puts es i := by
  rw [puts_append, puts, List.filterMap_cons_none (h i)]
  rfl

theorem written_of_version (h : ∀ i, e.version i = none) (t : Int) (i : I) :
    written (es ++ [e]) t i = written es t i := by
  rw [written, puts_of_version h]
  rfl

theorem program_append (t : Int) : program (pre ++ post) t = program pre t ++ program post t :=
  List.filter_append ..

/-- Nothing is done by a transaction that has committed. -/
def WellFormed (es : Schedule I V R) : Prop :=
  es.Pairwise fun e e' => ∀ t, e.committed = some t → e'.owner ≠ some t

theorem owner_of_committed (h : e.committed = some t) : e.owner = some t := by
  cases e with
  | commit u => exact h
  | get u j r => cases h
  | put u j x => cases h
  | other => cases h

theorem owner_of_version {v : Version V} (h : e.version i = some v) : e.owner = some v.txid := by
  cases e with
  | put u j x =>
    rw [Event.version] at h
    split at h
    · cases h
      rfl
    · cases h
  | get u j r => cases h
  | commit u => cases h
  | other => cases h

theorem mem_commits : t ∈ commits es ↔ ∃ e ∈ es, e.committed = some t := List.mem_filterMap

theorem mem_puts {v : Version V} : v ∈ puts es i ↔ ∃ e ∈ es, e.version i = some v := by
  rw [puts, List.mem_reverse, List.mem_filterMap]

namespace WellFormed

theorem concat (h : WellFormed es) (he : ∀ t ∈ commits es, e.owner ≠ some t) :
    WellFormed (es ++ [e]) := by
  refine List.pairwise_append.mpr ⟨h, List.pairwise_singleton .., fun e₁ he₁ e₂ he₂ t ht => ?_⟩
  rw [List.mem_singleton.mp he₂]
  exact he t (mem_commits.mpr ⟨e₁, he₁, ht⟩)

/-- A transaction that has committed does nothing more. -/
theorem owner_ne (h : WellFormed (pre ++ post)) (ht : t ∈ commits pre) (he : e ∈ post) :
    e.owner ≠ some t := by
  obtain ⟨e₁, he₁, ht⟩ := mem_commits.mp ht
  exact (List.pairwise_append.mp h).2.2 e₁ he₁ e he t ht

theorem nodup (h : WellFormed es) : (commits es).Nodup := by
  refine List.Pairwise.filterMap _ (fun e e' hee t ht u hu => ?_) h
  rintro rfl
  exact hee t ht (owner_of_committed hu)

/-- What it has written stays. -/
theorem written_eq (h : WellFormed (pre ++ post)) (ht : t ∈ commits pre) (i : I) :
    written (pre ++ post) t i = written pre t i := by
  have hnil : written post t i = [] := by
    refine List.filter_eq_nil_iff.mpr fun v hv => ?_
    obtain ⟨e, he, hv⟩ := mem_puts.mp hv
    have hne := h.owner_ne ht he
    rw [owner_of_version hv] at hne
    simpa using hne
  rw [written_append, hnil]
  rfl

end WellFormed

theorem lastWriter_some {p : Int → Prop} [DecidablePred p] (h : lastWriter es i p = some t) :
    t ∈ commits es ∧ p t ∧ Wrote es t i :=
  ⟨List.mem_reverse.mp (List.mem_of_find?_eq_some h), by simpa using List.find?_some h⟩

theorem WellFormed.valueOf_lastWriter {p : Int → Prop} [DecidablePred p]
    (h : WellFormed (pre ++ post)) :
    valueOf (pre ++ post) i (lastWriter pre i p) = valueOf pre i (lastWriter pre i p) := by
  cases hl : lastWriter pre i p with
  | none => rfl
  | some s =>
    rw [valueOf, valueOf, Option.bind_some, Option.bind_some, h.written_eq (lastWriter_some hl).1]

/-! ## Running a transaction alone -/

theorem sees_of_version (h : ∀ i, e.version i = none) (t : Int) (m : I → Option V) :
    sees (es ++ [e]) t m = sees es t m := by
  funext i
  rw [sees, written_of_version h]
  rfl

theorem sees_put_self (t : Int) (j : I) (x : Option V) (m : I → Option V) :
    sees (es ++ [.put t j x]) t m = Function.update (sees es t m) j x := by
  funext i
  rw [sees, written_append, Function.update_apply]
  by_cases hi : j = i
  · subst hi
    simp [written, puts, Event.version]
  · simp [written, puts, Event.version, hi, Ne.symm hi, sees]

theorem sees_put_of_ne (hne : u ≠ t) (j : I) (x : Option V) (m : I → Option V) :
    sees (es ++ [.put u j x]) t m = sees es t m := by
  funext i
  rw [sees, written_append]
  by_cases hi : j = i
  · simp [written, puts, Event.version, hi, hne, sees]
  · simp [written, puts, Event.version, hi, sees]

variable [DecidableEq R] {view : Option V → R}

/-- A transaction that reads the right values leaves what it sees. -/
theorem program_alone {m : I → Option V}
    (h : ∀ pre i r post, es = pre ++ .get t i r :: post → view (sees pre t m i) = r) :
    (program es t).foldlM (alone view) m = some (sees es t m) := by
  induction es using List.reverseRecOn with
  | nil => rfl
  | append_singleton es e ih =>
    have ih := ih fun pre i r post heq =>
      h pre i r (post ++ [e]) (by rw [heq, List.append_assoc, List.cons_append])
    rw [program_append, List.foldlM_append, ih]
    cases e with
    | get u j r =>
      rw [sees_of_version fun i => rfl]
      by_cases hu : u = t
      · subst hu
        have hr := h es j r [] rfl
        simp [program, Event.owner, alone, hr]
      · simp [program, Event.owner, hu]
    | put u j x =>
      by_cases hu : u = t
      · subst hu
        rw [sees_put_self]
        simp [program, Event.owner, alone]
      · rw [sees_put_of_ne hu]
        simp [program, Event.owner, hu]
    | commit u =>
      rw [sees_of_version fun i => rfl]
      by_cases hu : u = t
      · simp [program, Event.owner, alone, hu]
      · simp [program, Event.owner, hu]
    | other =>
      rw [sees_of_version fun i => rfl]
      simp [program, Event.owner]

/-! ## Serial orders -/

/-- The last of some transactions that wrote the item. -/
def lastOf (es : Schedule I V R) (i : I) (l : List Int) : Option Int :=
  l.reverse.find? fun u => Wrote es u i

theorem sees_valueOf (t : Int) (l : List Int) :
    sees es t (fun i => valueOf es i (lastOf es i l)) =
      fun i => valueOf es i (lastOf es i (l ++ [t])) := by
  funext i
  rw [sees, lastOf, lastOf, List.reverse_concat, List.find?_cons]
  cases hw : written es t i with
  | nil =>
    have hno : decide (Wrote es t i) = false := decide_eq_false fun h => h hw
    rw [hno]
    rfl
  | cons v rest =>
    have hyes : decide (Wrote es t i) = true := decide_eq_true fun h => by simp [hw] at h
    rw [hyes]
    simp [valueOf, hw]

/-- Every read is of the last version committed by a transaction up to the reader's own id, under
what the reader has written. -/
def ReadsCommitted (view : Option V → R) (es : Schedule I V R) : Prop :=
  ∀ pre t i r post, es = pre ++ .get t i r :: post →
    view (sees pre t (fun i => valueOf pre i (lastWriter pre i (· ≤ t))) i) = r

theorem ReadsCommitted.nil : ReadsCommitted view ([] : Schedule I V R) := by
  intro pre t i r post h
  cases pre <;> cases h

theorem ReadsCommitted.concat (h : ReadsCommitted view es) (he : ∀ t i r, e = .get t i r →
    view (sees es t (fun i => valueOf es i (lastWriter es i (· ≤ t))) i) = r) :
    ReadsCommitted view (es ++ [e]) := by
  intro pre t i r post heq
  rcases List.eq_nil_or_concat post with rfl | ⟨post, e', rfl⟩
  · obtain ⟨rfl, hget⟩ := List.append_inj' heq rfl
    exact he t i r (List.cons.inj hget).1
  · rw [List.concat_eq_append, ← List.cons_append, ← List.append_assoc] at heq
    exact h pre t i r post (List.append_inj' heq rfl).1

/-- The source of a read is the last writer before the reader, in an order along the
dependencies. -/
theorem ReadsFrom.source {order a b : List Int} {src : Option Int} (hw : WellFormed es)
    (hperm : order.Perm (commits es)) (horder : order.Pairwise fun t u => ¬ Depends es u t)
    (heq : order = a ++ t :: b) (h : ReadsFrom es t i src) : lastOf es i a = src := by
  subst heq
  have hnodup : (a ++ t :: b).Nodup := hperm.nodup_iff.mpr hw.nodup
  obtain ⟨ha, -, hta⟩ := List.nodup_append.mp hnodup
  obtain ⟨hpa, hpb, hpt⟩ := List.pairwise_append.mp horder
  have hmem {w : Int} (hwa : w ∈ a) : w ∈ commits es := hperm.subset (by simp [hwa])
  have ht : t ∈ commits es := hperm.subset (by simp)
  have hne {w : Int} (hwa : w ∈ a) : t ≠ w := (hta w hwa t (by simp)).symm
  -- who overwrites what was read comes after the reader
  have hover {w : Int} (hwa : w ∈ a) (hwrote : Wrote es w i) (hb : ∀ s ∈ src, Before es s w) :
      False :=
    hpt w hwa t (by simp) ⟨hne hwa, ht, hmem hwa, .overwrite i src h hwrote hb⟩
  cases src with
  | none =>
    refine List.find?_eq_none.mpr fun w hwa hwrote => ?_
    exact hover (List.mem_reverse.mp hwa) (of_decide_eq_true hwrote) (by simp)
  | some s =>
    have hread := Dep.read i h
    obtain ⟨pre, r, post, hes, -, hlast⟩ := h
    have hsp : s ∈ commits pre := (lastWriter_some hlast).1
    have hst : s ≠ t := by
      rintro rfl
      rw [hes] at hw
      exact hw.owner_ne hsp (List.mem_cons_self ..) rfl
    have hsc : s ∈ commits es := by
      rw [hes, commits_append]
      exact List.mem_append_left _ hsp
    have hwrote : Wrote es s i := by
      have hws := (lastWriter_some hlast).2.2
      rw [hes] at hw ⊢
      rwa [Wrote, hw.written_eq hsp]
    have hsa : s ∈ a := by
      rcases List.mem_append.mp (hperm.symm.subset hsc) with hs | hs
      · exact hs
      · have hsb := (List.mem_cons.mp hs).resolve_left hst
        exact absurd ⟨hst, hsc, ht, hread⟩ ((List.pairwise_cons.mp hpb).1 s hsb)
    refine last_eq ha hsa (decide_eq_true hwrote) fun w hwa hww hws => ?_
    refine (sublist_or_sublist hwa hsa hws).resolve_right fun hsub => ?_
    have hww := of_decide_eq_true hww
    rcases sublist_or_sublist (hmem hwa) hsc hws with hb | hb
    · exact hpa.forall_sublist hsub ⟨hws, hmem hwa, hsc, .write i hww hwrote hb⟩
    · refine hover hwa hww fun s' hs' => ?_
      obtain rfl := Option.some.inj hs'
      exact hb

/-- In such an order the last writer is the one that committed last. -/
theorem lastOf_order {order : List Int} (hw : WellFormed es) (hperm : order.Perm (commits es))
    (horder : order.Pairwise fun t u => ¬ Depends es u t) (i : I) :
    lastOf es i order = lastOf es i (commits es) := by
  cases hl : lastOf es i (commits es) with
  | none =>
    refine List.find?_eq_none.mpr fun w hwo => ?_
    exact List.find?_eq_none.mp hl w (by simpa using hperm.subset (List.mem_reverse.mp hwo))
  | some s =>
    have hs := List.mem_reverse.mp (List.mem_of_find?_eq_some hl)
    have hwrote := List.find?_some hl
    refine last_eq (hperm.nodup_iff.mpr hw.nodup) (hperm.symm.subset hs) hwrote
      fun w hwo hww hws => ?_
    refine (sublist_or_sublist hwo (hperm.symm.subset hs) hws).resolve_right fun hsub => ?_
    have hb := sublist_of_last hl (hperm.subset hwo) hww hws
    exact horder.forall_sublist hsub ⟨hws, hperm.subset hwo, hs,
      .write i (of_decide_eq_true hww) (of_decide_eq_true hwrote) hb⟩

/-- Transactions in such an order read what they read in the schedule. -/
theorem runSerial_order {order a b : List Int} (hw : WellFormed es) (hr : ReadsCommitted view es)
    (hperm : order.Perm (commits es)) (horder : order.Pairwise fun t u => ¬ Depends es u t)
    (heq : order = a ++ b) :
    runSerial view es a = some fun i => valueOf es i (lastOf es i a) := by
  induction a using List.reverseRecOn generalizing b with
  | nil => rfl
  | append_singleton a t ih =>
    rw [List.append_assoc] at heq
    rw [runSerial, List.foldlM_append, ← runSerial, ih heq, ← sees_valueOf]
    refine (bind_pure _).trans (program_alone fun pre i r post hes => ?_)
    rw [← hr pre t i r post hes, sees, sees]
    cases hwt : written pre t i with
    | cons v rest => rfl
    | nil =>
      have hfrom : ReadsFrom es t i (lastWriter pre i (· ≤ t)) :=
        ⟨pre, r, post, hes, fun hno => hno hwt, rfl⟩
      rw [hfrom.source hw hperm horder heq]
      rw [hes] at hw ⊢
      rw [hw.valueOf_lastWriter]

/-- Transactions whose dependencies have no cycle are serializable. -/
theorem Acyclic.serializable (h : Acyclic es) (hw : WellFormed es) (hr : ReadsCommitted view es) :
    Serializable view es := by
  obtain ⟨order, hperm, horder⟩ := exists_order h (commits es)
  refine ⟨order, hperm, ?_⟩
  rw [runSerial_order hw hr hperm horder (List.append_nil order).symm]
  refine congrArg some (funext fun i => congrArg (valueOf es i) ?_)
  rw [lastOf_order hw hperm horder]
  simp [lastOf, lastWriter]

/-! ## The schedule of a store -/

/-- A step of a store in its schedule. -/
def Event.ofStore {K : Type*} : Mvcc.Event I K V → Event I V R
  | .write t i x => .put t i x
  | .commit t => .commit t
  | _ => .other

section
variable {K : Type*} [DecidableEq K] {keyOf : I → K} {s s' : State I K V} {e' : Mvcc.Event I K V}

/-- The schedule from the new store: nothing is pruned, and the versions of the transactions that
have committed lie in the order of the commits, the last one on top. -/
structure Of (es : Schedule I V R) (s : State I K V) : Prop where
  chain : ∀ i, s.chain i = puts es i
  committed : ∀ i, (puts es i).filter (fun v => v.txid ∉ s.active) =
    (commits es).reverse.flatMap fun t => written es t i
  ended : ∀ t ∈ commits es, t ∉ s.active ∧ t < s.next

theorem mem_written {v : Version V} : v ∈ written es t i ↔ v ∈ puts es i ∧ v.txid = t := by
  rw [written, List.mem_filter, decide_eq_true_iff]

/-- The newest version is by the transaction when it is live and has written the item. -/
theorem Of.head {v : Version V} {rest : List (Version V)} (h : Of es s) (hi : Inv keyOf s)
    (hl : s.Live t) (hw : written es t i = v :: rest) : (s.chain i).head? = some v := by
  have hv := mem_written.mp (hw ▸ List.mem_cons_self)
  have ho := hi.owned i
  rw [h.chain] at ho ⊢
  cases hc : puts es i with
  | nil =>
    rw [hc] at hv
    cases hv.1
  | cons w below =>
    have hwt : w.txid = t := by
      rw [hc] at ho hv
      rcases List.mem_cons.mp hv.1 with rfl | hb
      · exact hv.2
      · exact (ho.head_of_live hb (hv.2 ▸ hl)).trans hv.2
    rw [written, hc, List.filter_cons_of_pos (by simpa using hwt)] at hw
    exact congrArg some (List.cons.inj hw).1

theorem newest_written (p : Int → Prop) [DecidablePred p] (l : List Int) :
    newest (fun v => p v.txid) (l.flatMap fun t => written es t i) =
      valueOf es i (l.find? fun t => p t ∧ Wrote es t i) := by
  induction l with
  | nil => rfl
  | cons t l ih =>
    rw [List.flatMap_cons, List.find?_cons]
    cases hw : written es t i with
    | nil =>
      have hno : decide (p t ∧ Wrote es t i) = false := decide_eq_false fun h => h.2 hw
      rw [hno]
      exact ih
    | cons v rest =>
      have htxid {u : Version V} (hu : u ∈ v :: rest) : u.txid = t := (mem_written.mp (hw ▸ hu)).2
      by_cases hp : p t
      · have hyes : decide (p t ∧ Wrote es t i) = true :=
          decide_eq_true ⟨hp, fun hnil => by simp [hw] at hnil⟩
        rw [hyes, List.cons_append, newest_cons_of_pos (by simpa [htxid] using hp)]
        simp [valueOf, hw]
      · have hno : decide (p t ∧ Wrote es t i) = false := decide_eq_false fun h => hp h.1
        rw [hno, newest_append_of_none fun u hu => decide_eq_false (by rwa [htxid hu])]
        exact ih

/-- The newest version that passes a test, among those that are not by an active transaction. -/
theorem Of.newest_ended (h : Of es s) (p : Int → Prop) [DecidablePred p] (i : I) :
    newest (fun v => v.txid ∉ s.active ∧ p v.txid) (s.chain i) =
      valueOf es i (lastWriter es i p) := by
  rw [h.chain, lastWriter, ← newest_written, ← h.committed, newest, newest, List.find?_filter]
  simp

/-- A live transaction reads the last version committed by a transaction up to its own id, under
what it has written. -/
theorem Of.read (h : Of es s) (hi : Inv keyOf s) (hl : s.Live t) :
    s.read t i = sees es t (fun i => valueOf es i (lastWriter es i (· ≤ t))) i := by
  rw [sees]
  cases hw : written es t i with
  | cons v rest =>
    have ht : v.txid = t := (mem_written.mp (hw ▸ List.mem_cons_self)).2
    rw [← ht]
    exact State.read_head (h.head hi hl hw)
  | nil =>
    refine Eq.trans ?_ (h.newest_ended (· ≤ t) i)
    refine newest_congr fun v hv => decide_eq_decide.mpr ?_
    have hne : v.txid ≠ t := fun he => by
      have hm := mem_written.mpr ⟨h.chain i ▸ hv, he⟩
      rw [hw] at hm
      cases hm
    rw [and_comm]
    exact and_congr_left fun _ => ⟨fun hv ha => hne (hv ha), fun hno ha => absurd ha hno⟩

theorem Of.committed_eq (h : Of es s) : s.committed i = committedMap es i := by
  refine Eq.trans ?_ (h.newest_ended (fun _ => True) i)
  refine newest_congr fun v _ => decide_eq_decide.mpr ?_
  exact (and_iff_left trivial).symm

/-- An event that neither writes nor commits. -/
theorem Of.quiet (h : Of es s) (hv : ∀ i, e.version i = none) (hc : e.committed = none) :
    Of (es ++ [e]) s where
  chain i := (h.chain i).trans (puts_of_version hv i).symm
  committed i := by
    rw [commits_of_committed hc, puts_of_version hv, h.committed]
    simp only [written_of_version hv]
  ended t ht := by
    rw [commits_of_committed hc] at ht
    exact h.ended t ht

/-- A commit puts the versions of the transaction on top of those that are not by an active one. -/
theorem Of.filter_commit (h : Of es s) (hi : Inv keyOf s) (hl : s.Live t) (i : I) :
    (puts es i).filter (fun v => v.txid ∉ (s.commit t).active) =
      written es t i ++ (puts es i).filter fun v => v.txid ∉ s.active := by
  have hsame {l : List (Version V)} (hne : ∀ v ∈ l, v.txid ≠ t) :
      l.filter (fun v => v.txid ∉ (s.commit t).active) =
        l.filter fun v => v.txid ∉ s.active := by
    refine List.filter_congr fun v hv => decide_eq_decide.mpr ?_
    rw [hi.mem_active_commit]
    exact not_congr (and_iff_left (hne v hv))
  have hnil {l : List (Version V)} (hne : ∀ v ∈ l, v.txid ≠ t) :
      l.filter (fun v => v.txid = t) = [] := by
    refine List.filter_eq_nil_iff.mpr fun v hv => ?_
    simpa using hne v hv
  have ho := hi.owned i
  rw [h.chain] at ho
  by_cases hh : s.holder (keyOf i) = some t
  · obtain ⟨own, rest, hc, hown, hrest⟩ := ho
    have ht {v : Version V} (hv : v ∈ own) : v.txid = t :=
      (Option.some.inj (hh.symm.trans (hown v hv))).symm
    have hne : ∀ v ∈ rest, v.txid ≠ t := fun v hv he => hrest v hv (he ▸ hl)
    have h1 : own.filter (fun v => v.txid ∉ (s.commit t).active) = own := by
      refine List.filter_eq_self.mpr fun v hv => decide_eq_true fun ha => ?_
      exact (hi.mem_active_commit.mp ha).2 (ht hv)
    have h2 : own.filter (fun v => v.txid = t) = own :=
      List.filter_eq_self.mpr fun v hv => decide_eq_true (ht hv)
    have h3 : own.filter (fun v => v.txid ∉ s.active) = [] := by
      refine List.filter_eq_nil_iff.mpr fun v hv => ?_
      simpa [ht hv] using hl.active
    rw [written, hc, List.filter_append, List.filter_append, List.filter_append, h1, h2, h3,
      hsame hne, hnil hne]
    simp
  · have hne : ∀ v ∈ puts es i, v.txid ≠ t := by
      rintro v hv rfl
      exact hh (ho.not_mem hv hl)
    rw [written, hsame hne, hnil hne, List.nil_append]

theorem written_put (u t : Int) (i j : I) (x : Option V) (hne : t ≠ u) :
    written (es ++ [.put t j x]) u i = written es u i := by
  rw [written_append]
  by_cases hi : j = i
  · simp [written, puts, Event.version, hi, hne]
  · simp [written, puts, Event.version, hi]

/-- A step of the store, when only live transactions commit. -/
theorem Of.step (h : Of es s) (hi : Inv keyOf s) (hs : Step keyOf s e' s')
    (hc : ∀ t, e' = .commit t → s.Live t) : Of (es ++ [.ofStore e']) s' := by
  cases hs with
  | begin =>
    have hq := h.quiet (e := .other) (fun i => rfl) rfl
    refine ⟨hq.chain, fun i => ?_, fun t ht => ?_⟩
    · refine Eq.trans (List.filter_congr fun v hv => decide_eq_decide.mpr ?_) (hq.committed i)
      have hlt := hi.versions (show v ∈ s.chain i from hq.chain i ▸ hv)
      rw [State.active_begin, List.mem_append, List.mem_singleton]
      exact not_congr (or_iff_left (by omega))
    · obtain ⟨hact, hlt⟩ := hq.ended t ht
      rw [State.active_begin, List.mem_append, List.mem_singleton]
      refine ⟨fun hm => ?_, hlt.trans (lt_add_one _)⟩
      exact hm.elim hact hlt.ne
  | lock =>
    have hq := h.quiet (e := .other) (fun i => rfl) rfl
    exact ⟨hq.chain, hq.committed, hq.ended⟩
  | @write t i x hl hf =>
    have hcomm : commits (es ++ [.ofStore (.write t i x : Mvcc.Event I K V)]) = commits es :=
      commits_of_committed rfl
    have hputs (j : I) : puts (es ++ [.ofStore (.write t i x : Mvcc.Event I K V)]) j =
        if i = j then ⟨t, x⟩ :: puts es j else puts es j := by
      rw [puts_append]
      by_cases hj : i = j
      · simp [puts, Event.ofStore, Event.version, hj]
      · simp [puts, Event.ofStore, Event.version, hj]
    refine ⟨fun j => ?_, fun j => ?_, fun u hu => h.ended u (hcomm ▸ hu)⟩
    · rw [hputs]
      split
      · next hj =>
        subst hj
        rw [← h.chain]
        exact Function.update_self ..
      · next hj =>
        rw [← h.chain]
        exact Function.update_of_ne (Ne.symm hj) ..
    · rw [hcomm, hputs]
      have hactive : t ∈ s.active := hl.active
      have hkept : (commits es).reverse.flatMap (fun u => written (es ++ [.put t i x]) u j) =
          (commits es).reverse.flatMap fun u => written es u j := by
        refine List.flatMap_congr fun u hu => written_put u t j i x ?_
        rintro rfl
        exact (h.ended _ (List.mem_reverse.mp hu)).1 hactive
      refine Eq.trans ?_ ((h.committed j).trans hkept.symm)
      show List.filter (fun v : Version V => v.txid ∉ s.active) _ = _
      split
      · exact List.filter_cons_of_neg (by simpa using hactive)
      · rfl
  | @commit t =>
    have hl := hc t rfl
    have hv (i : I) : Event.version i (.commit t : Event I V R) = none := rfl
    have hcomm : commits (es ++ [.commit t]) = commits es ++ [t] := commits_append
    refine ⟨fun i => (h.chain i).trans (puts_of_version hv i).symm, fun i => ?_, fun u hu => ?_⟩
    · simp only [Event.ofStore, hcomm, puts_of_version hv, written_of_version hv]
      rw [h.filter_commit hi hl, h.committed, List.reverse_concat, List.flatMap_cons]
    · simp only [Event.ofStore, hcomm] at hu
      rw [hi.mem_active_commit]
      rcases List.mem_append.mp hu with hu | hu
      · exact ⟨fun ha => (h.ended u hu).1 ha.1, (h.ended u hu).2⟩
      · rw [List.mem_singleton.mp hu]
        exact ⟨fun ha => ha.2 rfl, hi.live_lt hl⟩
  | rollback =>
    have hq := h.quiet (e := .other) (fun i => rfl) rfl
    refine ⟨hq.chain, fun i => ?_, fun t ht => ?_⟩
    · rw [State.active_rollback]
      exact hq.committed i
    · rw [State.active_rollback]
      exact hq.ended t ht
  | skip => exact h.quiet (fun i => rfl) rfl

/-- The owner of a step is live, so it has not committed. -/
theorem Of.owner_ne (h : Of es s) (hs : Step keyOf s e' s') (hc : ∀ t, e' = .commit t → s.Live t)
    (ht : t ∈ commits es) : (Event.ofStore e' : Event I V R).owner ≠ some t := by
  have hnot {u : Int} (hl : s.Live u) : some u ≠ some t := by
    rintro ⟨⟩
    exact (h.ended t ht).1 hl.active
  have hother : (Event.other : Event I V R).owner ≠ some t := fun h => by cases h
  cases hs with
  | write hl hf => exact hnot hl
  | commit => exact hnot (hc _ rfl)
  | begin => exact hother
  | lock => exact hother
  | rollback => exact hother
  | skip => exact hother

end

end Serial
