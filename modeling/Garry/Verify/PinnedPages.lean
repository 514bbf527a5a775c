import Garry.Verify.SteadyPool

/-!
# Outstanding pins of the buffer pool

Callers release the pins they have, pin and free pages that were handed out to them, and free no
page that is pinned. Until its release a pin then keeps its slot.
-/

namespace Garry

namespace BufferPool

variable {pool pool' : BufferPool} {slot : Slot}

/-- Slot `i` is in use by a caller. -/
def Busy (pool : BufferPool) (i : Nat) : Prop :=
  (pool.slot i).loaded = true ∧ 0 < (pool.slot i).pinCount

theorem Busy.congr (h : pool.Busy i) (he : pool'.slot i = pool.slot i) : pool'.Busy i := by
  rw [Busy, he]
  exact h

theorem Busy.ne_victim (h : pool.Busy i) (hv : pool.findEvictionCandidate = some v) : i ≠ v := by
  rintro rfl
  obtain ⟨slot, hs, hfree⟩ := findEvictionCandidate_spec hv
  rw [Busy, slot_eq hs] at h
  rcases hfree with hl | hc
  · exact absurd (h.1.symm.trans hl) (by simp)
  · exact absurd h.2 (by simp [hc])

theorem Busy.refill (h : pool.Busy i) (hv : pool.findEvictionCandidate = some v) :
    (pool.refill v pid page).slot i = pool.slot i := by
  obtain ⟨slot, hs, -⟩ := findEvictionCandidate_spec hv
  exact refill_slot (List.getElem?_eq_some_iff.mp hs).1 (h.ne_victim hv)

theorem Busy.ensureLoaded (h : pool.Busy i) (he : pool.ensureLoaded pid = some (idx, pool')) :
    pool'.slot i = pool.slot i := by
  rw [BufferPool.ensureLoaded] at he
  split at he
  · obtain ⟨-, rfl⟩ := Prod.mk.inj (Option.some.inj he)
    rfl
  · split at he
    · cases he
    · next hv =>
      obtain ⟨-, rfl⟩ := Prod.mk.inj (Option.some.inj he)
      exact h.refill hv

theorem ensureLoaded_holds (he : pool.ensureLoaded pid = some (idx, pool')) :
    (pool'.slot idx).pageId = pid := by
  rw [ensureLoaded] at he
  split at he
  · next hf =>
    obtain ⟨rfl, rfl⟩ := Prod.mk.inj (Option.some.inj he)
    exact (holder_slot (findSlot_eq_some.mp hf).1).2
  · split at he
    · cases he
    · next hv =>
      obtain ⟨rfl, rfl⟩ := Prod.mk.inj (Option.some.inj he)
      obtain ⟨slot, hs, -⟩ := findEvictionCandidate_spec hv
      have hl := (List.getElem?_eq_some_iff.mp hs).1
      exact (holder_slot ((holder_refill hl).mpr (by simp))).2

theorem Busy.allocate (h : pool.Busy i) (he : pool.allocate = (pid, pool')) :
    pool'.slot i = pool.slot i := by
  rcases allocate_cases he with ⟨-, -, -, rfl⟩ | ⟨-, -, -, rfl⟩ | ⟨v, -, -, hv, rfl⟩ |
    ⟨v, -, -, -, hv, rfl⟩
  · rfl
  · rfl
  · have hfree : ({ pool with freeListHead := pool.nextFree pool.freeListHead } : BufferPool).Busy i := h
    exact hfree.refill hv
  · have hnext : ({ pool with nextPage := succPage pool.nextPage } : BufferPool).Busy i := h
    exact hnext.refill hv

theorem setSlot_of_ne (hi : i ≠ v) : (pool.setSlot v slot).slot i = pool.slot i := by
  rcases slot_set v i slot with ⟨he, -⟩ | he
  · exact absurd he hi
  · exact he

theorem dropPage_slot (hp : (pool.slot i).pageId ≠ pid) : (pool.dropPage pid).slot i = pool.slot i := by
  rw [dropPage]
  split
  · rfl
  · next j hf =>
    rw [setSlot_of_ne, writeBack_slot]
    rintro rfl
    exact hp (holder_slot (findSlot_eq_some.mp hf).1).2

/-- Freeing another page. -/
theorem Busy.freePage (h : pool.Busy i) (hp : (pool.slot i).pageId ≠ pid) :
    (pool.freePage pid).slot i = pool.slot i := by
  have hd : (pool.dropPage pid).slot i = pool.slot i := dropPage_slot hp
  rw [BufferPool.freePage]
  split
  · rfl
  · simp only
    cases he : (pool.dropPage pid).ensureLoaded pid with
    | none => exact hd
    | some r =>
      obtain ⟨j, pool₁⟩ := r
      have hs : pool₁.slot i = pool.slot i := ((h.congr hd).ensureLoaded he).trans hd
      have hj : i ≠ j := by
        rintro rfl
        exact hp (hs ▸ ensureLoaded_holds he)
      exact (setSlot_of_ne hj).trans hs

/-! ## What a slot shows -/

theorem pinSlot_page (i : Nat) : ((pool.pinSlot idx).slot i).page = (pool.slot i).page := by
  apply slot_set_field Slot.page
  rfl

theorem Busy.pinPage_page (h : pool.Busy i) (he : pool.pinPage pid = some (idx, pool')) :
    (pool'.slot i).page = (pool.slot i).page := by
  rw [BufferPool.pinPage] at he
  split at he
  · cases he
  · obtain ⟨⟨j, pool₁⟩, hload, he⟩ := Option.map_eq_some_iff.mp he
    obtain ⟨-, rfl⟩ := Prod.mk.inj he
    rw [pinSlot_page, h.ensureLoaded hload]

theorem tryPin_page (he : pool.tryPin pid = some (idx, pool')) :
    (pool'.slot i).page = (pool.slot i).page := by
  rw [tryPin] at he
  split at he
  · cases he
  · obtain ⟨j, -, he⟩ := Option.map_eq_some_iff.mp he
    obtain ⟨-, rfl⟩ := Prod.mk.inj he
    exact pinSlot_page i

theorem releasePage_page (i : Nat) : ((pool.releasePage pid).slot i).page = (pool.slot i).page := by
  rw [releasePage]
  split
  · rfl
  split
  · rfl
  split
  · exact slot_set_field Slot.page (by rfl) i
  · rfl

theorem markDirty_page (i : Nat) : ((pool.markDirty pid).slot i).page = (pool.slot i).page := by
  rw [markDirty]
  split
  · rfl
  split
  · rfl
  · exact slot_set_field Slot.page (by rfl) i

theorem flushSlot_page (i : Nat) : ((pool.flushSlot j).slot i).page = (pool.slot i).page := by
  rw [flushSlot_slot]
  split
  · next h => rw [h.1]
  · rfl

theorem flushPage_page (i : Nat) : ((pool.flushPage pid).slot i).page = (pool.slot i).page := by
  rw [flushPage]
  split
  · rfl
  split
  · rfl
  · exact flushSlot_page i

theorem flushSlots_page (is : List Nat) (i : Nat) :
    ((is.foldl flushSlot pool).slot i).page = (pool.slot i).page := by
  induction is generalizing pool with
  | nil => rfl
  | cons j is ih => exact ih.trans (flushSlot_page i)

end BufferPool

namespace PoolSession

open BufferPool

variable {s s' : PoolSession} {op : PoolOp} {full : Prop}

/-- Releases match pins, a page that is pinned or freed was handed out and not freed since, and no
page is freed while it is pinned. -/
def Disciplined (s : PoolSession) : PoolOp → Prop
  | .allocate | .markDirty _ | .flush _ | .flushAll => True
  | .pin pid | .tryPin pid => pid ∈ s.owned
  | .write pid idx _ | .update pid idx _ => (pid, idx) ∈ s.pins
  | .release pid => pid ∈ s.pins.map Prod.fst
  | .free pid => pid ∈ s.owned ∧ pid ∉ s.pins.map Prod.fst
  | .reopen _ => False

/-- The same, when any page that is not free may be pinned, and any page that is not pinned be
freed. -/
def Undisciplined (s : PoolSession) : PoolOp → Prop
  | .allocate | .markDirty _ | .flush _ | .flushAll => True
  | .pin pid | .tryPin pid => pid ∉ s.freed
  | .write pid idx _ | .update pid idx _ => (pid, idx) ∈ s.pins
  | .release pid => pid ∈ s.pins.map Prod.fst
  | .free pid => pid ∉ s.pins.map Prod.fst
  | .reopen _ => False

instance instDecidableDisciplined : (op : PoolOp) → Decidable (s.Disciplined op)
  | .allocate | .markDirty _ | .flush _ | .flushAll => inferInstanceAs (Decidable True)
  | .pin pid | .tryPin pid => inferInstanceAs (Decidable (pid ∈ s.owned))
  | .write pid idx _ | .update pid idx _ => inferInstanceAs (Decidable ((pid, idx) ∈ s.pins))
  | .release pid => inferInstanceAs (Decidable (pid ∈ s.pins.map Prod.fst))
  | .free pid => inferInstanceAs (Decidable (pid ∈ s.owned ∧ pid ∉ s.pins.map Prod.fst))
  | .reopen _ => inferInstanceAs (Decidable False)

instance instDecidableUndisciplined : (op : PoolOp) → Decidable (s.Undisciplined op)
  | .allocate | .markDirty _ | .flush _ | .flushAll => inferInstanceAs (Decidable True)
  | .pin pid | .tryPin pid => inferInstanceAs (Decidable (pid ∉ s.freed))
  | .write pid idx _ | .update pid idx _ => inferInstanceAs (Decidable ((pid, idx) ∈ s.pins))
  | .release pid => inferInstanceAs (Decidable (pid ∈ s.pins.map Prod.fst))
  | .free pid => inferInstanceAs (Decidable (pid ∉ s.pins.map Prod.fst))
  | .reopen _ => inferInstanceAs (Decidable False)

/-- What callers rely on while page `pid` is pinned in slot `idx`. -/
structure Holds (s : PoolSession) (pid : Int) (idx : Nat) : Prop where
  loaded : (s.pool.slot idx).loaded = true
  pageId : (s.pool.slot idx).pageId = pid
  pinCount : (s.pool.slot idx).pinCount = (s.pins.map Prod.fst).count pid
  pinPage : ∃ pool, s.pool.pinPage pid = some (idx, pool)
  tryPin : ∃ pool, s.pool.tryPin pid = some (idx, pool)

/-- A disciplined call that leaves a pin outstanding. -/
def Keeping (pin : Int × Nat) (s : PoolSession) (op : PoolOp) : Prop :=
  s.Disciplined op ∧ pin ∈ (s.step op).pins

instance instDecidableKeeping (pin : Int × Nat) (op : PoolOp) : Decidable (s.Keeping pin op) :=
  inferInstanceAs (Decidable (_ ∧ _))

/-- The bytes in a pinned buffer after a call: they change by a store through the pin. -/
def stored (pin : Int × Nat) (page : PageBuffer) : PoolOp → PageBuffer
  | .write pid idx new | .update pid idx new => if (pid, idx) = pin then new else page
  | _ => page

theorem Disciplined.step (h : PoolInv full s) (hd : s.Disciplined op)
    (hk : full → s.KeepsFree op) : PoolInv full (s.step op) := by
  cases op with
  | markDirty pid => exact h.markDirty
  | flush pid => exact h.flushPage
  | free pid => exact h.freePage hd.1
  | reopen capacity => exact hd.elim
  | _ => exact h.step hd hk

theorem Disciplined.run (h : PoolInv False s) (hr : s.Run Disciplined s') : PoolInv False s' := by
  induction hr with
  | refl => exact h
  | step _ hd ih => exact hd.step ih False.elim

/-- All pins of a page are in one slot. -/
theorem count_pins (h : PoolInv full s) (hp : (pid, idx) ∈ s.pins) :
    (s.pins.map Prod.fst).count pid = s.pins.count (pid, idx) := by
  rw [List.count, List.countP_map, List.count]
  apply List.countP_congr
  intro pin hm
  simp only [Function.comp, beq_iff_eq]
  constructor
  · rintro rfl
    have he := (h.handle hm).2.symm.trans (h.handle hp).2
    exact Prod.ext rfl (Option.some.inj he)
  · rintro rfl
    rfl

theorem busy (h : PoolInv full s) (hp : (pid, idx) ∈ s.pins) : s.pool.Busy idx := by
  obtain ⟨slot, hs, hl, -, hpos⟩ := h.pin_slot hp
  rw [Busy, slot_eq hs]
  exact ⟨hl, hpos⟩

theorem Holds.of_mem (h : PoolInv full s) (hp : (pid, idx) ∈ s.pins) : s.Holds pid idx := by
  have h0 : ¬ pid < 0 := by
    have := (h.range pid (.inl (h.handle hp).1)).1
    omega
  obtain ⟨hl, hid⟩ := holder_slot (h.holder hp)
  obtain ⟨slot, hs, -⟩ := h.holder hp
  refine ⟨hl, hid, ?_, ?_, ?_⟩
  · rw [slot_eq hs] at hid ⊢
    rw [count_pins h hp, h.pinCount hs, hid]
  · rw [BufferPool.pinPage, if_neg h0, ensureLoaded, (h.handle hp).2]
    exact ⟨_, rfl⟩
  · rw [BufferPool.tryPin, if_neg h0, (h.handle hp).2]
    exact ⟨_, rfl⟩

theorem pinned_page {r : Option (Nat × BufferPool)}
    (hr : ∀ j pool, r = some (j, pool) → (pool.slot i).page = (s.pool.slot i).page) :
    ((s.pinned pid r).pool.slot i).page = (s.pool.slot i).page := by
  cases r with
  | none => rfl
  | some r =>
    obtain ⟨j, pool⟩ := r
    exact hr j pool rfl

/-- A store through a pin of slot `j`, seen in slot `idx`. -/
theorem storePage_page (h : PoolInv full s) (hp : (pid, idx) ∈ s.pins) (hq : (q, j) ∈ s.pins)
    (new : PageBuffer) : ((s.pool.storePage j new).slot idx).page =
      if (q, j) = (pid, idx) then new else (s.pool.slot idx).page := by
  obtain ⟨hl, hid⟩ := holder_slot (h.holder hp)
  obtain ⟨slot, hs, -⟩ := h.holder hq
  have hj : j < s.pool.slots.length := (List.getElem?_eq_some_iff.mp hs).1
  rw [storePage, slot_setSlot hj]
  split
  · next he =>
    subst he
    obtain rfl : q = pid := (holder_slot (h.holder hq)).2.symm.trans hid
    rw [if_pos rfl]
  · next he => rw [if_neg fun e => he (Prod.mk.inj e).2.symm]

/-- A call changes the bytes of a pinned slot by a store through a pin of the page. -/
theorem Keeping.page (h : PoolInv full s) (hp : (pid, idx) ∈ s.pins) (hk : s.Keeping (pid, idx) op) :
    ((s.step op).pool.slot idx).page = stored (pid, idx) (s.pool.slot idx).page op := by
  have hb := busy h hp
  cases op with
  | allocate =>
    cases he : s.pool.allocate with
    | mk q pool =>
      simp only [step, he, stored]
      split <;> exact congrArg Slot.page (hb.allocate he)
  | pin q => exact pinned_page fun _ _ he => hb.pinPage_page he
  | tryPin q => exact pinned_page fun _ _ he => tryPin_page he
  | write q j new => exact storePage_page h hp hk.1 new
  | markDirty q => exact markDirty_page idx
  | update q j new => exact (markDirty_page idx).trans (storePage_page h hp hk.1 new)
  | release q => exact releasePage_page idx
  | flush q => exact flushPage_page idx
  | flushAll => exact flushSlots_page _ idx
  | free q =>
    refine congrArg Slot.page (hb.freePage ?_)
    rintro rfl
    rw [(holder_slot (h.holder hp)).2] at hk
    exact hk.1.2 (List.mem_map.mpr ⟨_, hp, rfl⟩)
  | reopen capacity => exact hk.1.elim

theorem Keeping.steps (h : PoolInv False s) (hp : (pid, idx) ∈ s.pins)
    (hl : s.Legal (Keeping (pid, idx)) ops) :
    (s.steps ops).Holds pid idx ∧
      ((s.steps ops).pool.slot idx).page = ops.foldl (stored (pid, idx)) (s.pool.slot idx).page := by
  induction ops generalizing s with
  | nil => exact ⟨.of_mem h hp, rfl⟩
  | cons op ops ih =>
    obtain ⟨hk, hl⟩ := hl
    have := ih (hk.1.step h False.elim) hk.2 hl
    rwa [hk.page h hp] at this

/-- No slot can be evicted when each one is pinned. -/
theorem no_candidate_of_pinned (h : PoolInv full s)
    (hall : ∀ slot ∈ s.pool.slots, 0 < slot.pinCount) : s.pool.findEvictionCandidate = none := by
  apply no_candidate
  rw [Finset.eq_empty_iff_forall_notMem]
  intro i hi
  rw [mem_evictable h] at hi
  obtain ⟨slot, hs⟩ : ∃ slot, s.pool.slots[i]? = some slot := ⟨_, List.getElem?_eq_getElem hi.1⟩
  have hpos := hall slot (List.mem_of_getElem? hs)
  rw [h.pinCount hs] at hpos
  exact hi.2 (List.mem_map.mpr ⟨_, List.count_pos_iff.mp hpos, rfl⟩)

end PoolSession

open BufferPool PoolSession

/-- In every session of disciplined callers, a pin keeps its slot, loaded with its page, until it is
released: its bytes change by stores through the pins of the page, further pins return the same slot,
and the slot counts the pins of the page; when each slot is pinned, no page can be handed out or
loaded, and no slot changes. -/
theorem pinnedPages_stable (file : DataFile) (capacity pageSize next : Nat)
    (hn : next ≤ 2147483647)
    (hr : (PoolSession.start file capacity pageSize next).Run Disciplined s) :
    (∀ pid idx, (pid, idx) ∈ s.pins → s.Holds pid idx ∧
      ∀ ops, s.Legal (Keeping (pid, idx)) ops → (s.steps ops).Holds pid idx ∧
        ((s.steps ops).pool.slot idx).page =
          ops.foldl (stored (pid, idx)) (s.pool.slot idx).page) ∧
    ((∀ slot ∈ s.pool.slots, 0 < slot.pinCount) →
      s.pool.allocate.1 = -1 ∧ s.pool.allocate.2.slots = s.pool.slots ∧
        ∀ pid, s.pool.findSlot pid = none →
          s.pool.pinPage pid = none ∧ s.pool.tryPin pid = none) := by
  have h : PoolInv False s := Disciplined.run (.start file capacity pageSize hn) hr
  refine ⟨fun pid idx hp => ⟨.of_mem h hp, fun ops hl => Keeping.steps h hp hl⟩, fun hall => ?_⟩
  have hno : s.pool.findEvictionCandidate = none := no_candidate_of_pinned h hall
  have hslots : s.pool.allocate.1 = -1 ∧ s.pool.allocate.2.slots = s.pool.slots := by
    rcases allocate_cases (Prod.mk.eta (p := s.pool.allocate)).symm with ⟨he, -, -, hs⟩ | ⟨he, -, -, hs⟩ |
      ⟨v, -, -, hv, -⟩ | ⟨v, -, -, -, hv, -⟩
    · exact ⟨he, by rw [hs]⟩
    · exact ⟨he, by rw [hs]⟩
    · cases hno.symm.trans hv
    · cases hno.symm.trans hv
  refine ⟨hslots.1, hslots.2, fun pid hf => ?_⟩
  rw [BufferPool.pinPage, BufferPool.tryPin, ensureLoaded, hf, hno]
  constructor <;> split <;> rfl

/-- With one slot: the page in it is pinned twice, written and released once. -/
theorem pinnedPages_stable_one :
    let s := (PoolSession.start .empty 1 512 0).steps [.allocate, .pin 0]
    (0, 0) ∈ s.pins ∧ s.Holds 0 0 ∧ (s.steps [.tryPin 0, .update 0 0 fun _ => 7, .release 0]).Holds 0 0 ∧
      s.pool.allocate.1 = -1 ∧ s.pool.pinPage 1 = none :=
  have hs := pinnedPages_stable (s := (PoolSession.start .empty 1 512 0).steps [.allocate, .pin 0])
    .empty 1 512 0 (by decide) (PoolSession.Run.refl.steps (by decide))
  ⟨by decide, (hs.1 0 0 (by decide)).1, ((hs.1 0 0 (by decide)).2 _ (by decide)).1,
    (hs.2 (by decide)).1, ((hs.2 (by decide)).2.2 1 (by decide)).1⟩

/-- A page pinned before it was handed out, and a page freed twice, get a second slot before the one
of their pin. -/
theorem pinnedPages_moved :
    (∃ s, (PoolSession.start .empty 2 512 0).Run Undisciplined s ∧ (1, 1) ∈ s.pins ∧
      s.pool.findSlot 1 = some 0) ∧
    ∃ s, (PoolSession.start .empty 2 512 0).Run Undisciplined s ∧ (0, 1) ∈ s.pins ∧
      s.pool.findSlot 0 = some 0 :=
  ⟨⟨(PoolSession.start .empty 2 512 0).steps [.pin 0, .pin 1, .release 0, .allocate, .allocate],
    PoolSession.Run.refl.steps (by decide), by decide, by decide⟩,
   ⟨(PoolSession.start .empty 2 512 0).steps [.allocate, .allocate, .allocate, .pin 2, .free 0,
      .free 0, .allocate, .pin 0, .release 2, .allocate],
    PoolSession.Run.refl.steps (by decide), by decide, by decide⟩⟩

end Garry
