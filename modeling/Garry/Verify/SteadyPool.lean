import Garry.Verify.PoolCache

/-!
# Sessions of the buffer pool under cache pressure

Which slots can be evicted depends on the pins alone. A session is steady when every other slot can
go: the calls keep it so, and a call that needs a slot gets one as long as there is one to evict.
-/

namespace Garry

open ByteStore

namespace BufferPool

variable {pool pool' : BufferPool}

/-! ## Slots that can be evicted -/

/-- The slots that are not loaded or not pinned. -/
def evictable (pool : BufferPool) : Finset Nat :=
  (Finset.range pool.slots.length).filter fun i =>
    (pool.slot i).loaded = false ∨ (pool.slot i).pinCount = 0

theorem mem_evictable : i ∈ pool.evictable ↔
    i < pool.slots.length ∧ ((pool.slot i).loaded = false ∨ (pool.slot i).pinCount = 0) := by
  simp [evictable]

theorem leastAccessed_isSome {slots : List Slot} {best : Option Nat}
    (h : best.isSome ∨ ∃ slot ∈ slots, slot.pinCount = 0 ∧ slot.lastAccess < acc) :
    (leastAccessed slots i best acc).isSome := by
  induction slots generalizing i best acc with
  | nil =>
    rcases h with h | ⟨slot, hs, -⟩
    · exact h
    · cases hs
  | cons slot slots ih =>
    rw [leastAccessed]
    split
    · exact ih (.inl rfl)
    · next hn =>
      rcases h with h | ⟨slot', hs, h⟩
      · exact ih (.inl h)
      · rcases List.mem_cons.mp hs with rfl | hs
        · exact absurd h hn
        · exact ih (.inr ⟨slot', hs, h⟩)

/-- Some slot is evicted, as long as one can be. -/
theorem exists_candidate (hr : ∀ i, (pool.slot i).lastAccess < 4294967295)
    (h : pool.evictable.Nonempty) : ∃ v, pool.findEvictionCandidate = some v ∧ v ∈ pool.evictable := by
  obtain ⟨i, hi⟩ := h
  obtain ⟨hlen, hi⟩ := mem_evictable.mp hi
  have hslot : pool.slots[i]? = some (pool.slot i) := by
    rw [slot, List.getD_eq_getElem?_getD, List.getElem?_eq_getElem hlen]
    rfl
  obtain ⟨v, hv⟩ : ∃ v, pool.findEvictionCandidate = some v := by
    apply Option.isSome_iff_exists.mp
    rw [findEvictionCandidate, Option.isSome_or, Bool.or_eq_true]
    rcases hi with hi | hi
    · left
      rw [List.findIdx?_isSome, List.any_eq_true]
      exact ⟨_, List.mem_of_getElem? hslot, by simpa using hi⟩
    · right
      exact leastAccessed_isSome (.inr ⟨_, List.mem_of_getElem? hslot, hi, hr i⟩)
  obtain ⟨slot, hs, hfree⟩ := findEvictionCandidate_spec hv
  refine ⟨v, hv, mem_evictable.mpr ⟨(List.getElem?_eq_some_iff.mp hs).1, ?_⟩⟩
  rw [slot_eq hs]
  exact hfree

theorem candidate_mem (hv : pool.findEvictionCandidate = some v) : v ∈ pool.evictable := by
  obtain ⟨slot, hs, hfree⟩ := findEvictionCandidate_spec hv
  refine mem_evictable.mpr ⟨(List.getElem?_eq_some_iff.mp hs).1, ?_⟩
  rw [slot_eq hs]
  exact hfree

theorem no_candidate (h : pool.evictable = ∅) : pool.findEvictionCandidate = none := by
  cases hv : pool.findEvictionCandidate with
  | none => rfl
  | some v =>
    have := candidate_mem hv
    rw [h] at this
    cases this

/-! ## The counter of the accesses -/

/-- No access has a number past the counter, which has room for `ticks` more. -/
structure Clock (ticks : Nat) (pool : BufferPool) : Prop where
  last : ∀ i, (pool.slot i).lastAccess ≤ pool.accessCounter
  room : pool.accessCounter + ticks < 4294967295

theorem Clock.recent (h : Clock ticks pool) (i : Nat) : (pool.slot i).lastAccess < 4294967295 := by
  have := h.last i
  have := h.room
  omega

theorem Clock.mono (h : Clock ticks pool) (hle : n ≤ ticks) : Clock n pool := by
  refine ⟨h.last, ?_⟩
  have := h.room
  omega

theorem slot_set (v i : Nat) (new : Slot) :
    i = v ∧ (pool.setSlot v new).slot i = new ∨ (pool.setSlot v new).slot i = pool.slot i := by
  simp only [slot, setSlot, List.getD_eq_getElem?_getD, List.getElem?_set]
  split
  · next he =>
    split
    · exact .inl ⟨he.symm, rfl⟩
    · right
      rw [List.getElem?_eq_none (by omega)]
  · exact .inr rfl

/-- What a new slot has of the old one it also has at its index. -/
theorem slot_set_field {α : Type} (f : Slot → α) {new : Slot} (hf : f new = f (pool.slot v))
    (i : Nat) : f ((pool.setSlot v new).slot i) = f (pool.slot i) := by
  rcases slot_set v i new with ⟨rfl, he⟩ | he
  · rw [he, hf]
  · rw [he]

/-- What the calls leave as it is, but for `ticks` accesses. -/
structure Ticks (ticks : Nat) (pool pool' : BufferPool) : Prop where
  capacity : pool'.slots.length = pool.slots.length
  pageSize : pool'.pageSize = pool.pageSize
  nextPage : pool'.nextPage = pool.nextPage
  freeListHead : pool'.freeListHead = pool.freeListHead
  clock : ∀ n, Clock (n + ticks) pool → Clock n pool'

namespace Ticks

theorem refl : Ticks ticks pool pool :=
  ⟨rfl, rfl, rfl, rfl, fun _ h => h.mono (Nat.le_add_right ..)⟩

theorem trans {a b : Nat} {pool'' : BufferPool} (h : Ticks a pool pool')
    (h' : Ticks b pool' pool'') : Ticks (b + a) pool pool'' where
  capacity := h'.capacity.trans h.capacity
  pageSize := h'.pageSize.trans h.pageSize
  nextPage := h'.nextPage.trans h.nextPage
  freeListHead := h'.freeListHead.trans h.freeListHead
  clock n hc := h'.clock n (h.clock _ (by rwa [Nat.add_assoc]))

theorem writeBack : Ticks 0 pool (pool.writeBack v) := by
  rw [BufferPool.writeBack]
  split
  · exact ⟨rfl, rfl, rfl, rfl, fun _ h => ⟨h.last, h.room⟩⟩
  · exact refl

/-- A change of a slot that is no access. -/
theorem setSlot {new : Slot} (hl : new.lastAccess = (pool.slot v).lastAccess) :
    Ticks 0 pool (pool.setSlot v new) where
  capacity := List.length_set
  pageSize := rfl
  nextPage := rfl
  freeListHead := rfl
  clock n h := by
    refine ⟨fun i => ?_, h.room⟩
    show ((pool.setSlot v new).slot i).lastAccess ≤ _
    rw [slot_set_field Slot.lastAccess hl]
    exact h.last i

/-- An access of a slot. -/
theorem access {new : Slot} (hl : new.lastAccess = pool.nextAccess) :
    Ticks 1 pool { pool.setSlot v new with accessCounter := pool.nextAccess } where
  capacity := List.length_set
  pageSize := rfl
  nextPage := rfl
  freeListHead := rfl
  clock n h := by
    have hroom := h.room
    have hnext : pool.nextAccess = pool.accessCounter + 1 := Nat.mod_eq_of_lt (by omega)
    refine ⟨fun i => ?_, by simp only [hnext]; omega⟩
    show ((pool.setSlot v new).slot i).lastAccess ≤ pool.nextAccess
    rcases slot_set v i new with ⟨-, he⟩ | he
    · rw [he, hl]
    · have := h.last i
      rw [he]
      omega

theorem pinSlot : Ticks 1 pool (pool.pinSlot idx) := access rfl

theorem refill : Ticks 1 pool (pool.refill v pid page) := by
  have hnext : (pool.writeBack v).nextAccess = pool.nextAccess := by
    rw [BufferPool.writeBack]
    split <;> rfl
  have ha : Ticks 1 (pool.writeBack v) { (pool.writeBack v).setSlot v
      ⟨true, pid, false, 0, pool.nextAccess, page⟩ with
      accessCounter := (pool.writeBack v).nextAccess } := access hnext.symm
  rw [hnext] at ha
  exact writeBack.trans ha

theorem ensureLoaded (he : pool.ensureLoaded pid = some (idx, pool')) : Ticks 1 pool pool' := by
  rw [BufferPool.ensureLoaded] at he
  split at he
  · obtain ⟨-, rfl⟩ := Prod.mk.inj (Option.some.inj he)
    exact refl
  · split at he
    · cases he
    · obtain ⟨-, rfl⟩ := Prod.mk.inj (Option.some.inj he)
      exact refill

theorem pinPage (he : pool.pinPage pid = some (idx, pool')) : Ticks 2 pool pool' := by
  rw [BufferPool.pinPage] at he
  split at he
  · cases he
  · obtain ⟨⟨i, pool₁⟩, hload, h⟩ := Option.map_eq_some_iff.mp he
    obtain ⟨-, rfl⟩ := Prod.mk.inj h
    exact (ensureLoaded hload).trans pinSlot

theorem storePage : Ticks 0 pool (pool.storePage idx page) := setSlot rfl

theorem markDirty : Ticks 0 pool (pool.markDirty pid) := by
  rw [BufferPool.markDirty]
  split
  · exact refl
  split
  · exact refl
  · exact setSlot rfl

theorem releasePage : Ticks 0 pool (pool.releasePage pid) := by
  rw [BufferPool.releasePage]
  split
  · exact refl
  split
  · exact refl
  split
  · exact setSlot rfl
  · exact refl

theorem flushPage : Ticks 0 pool (pool.flushPage pid) := by
  rw [BufferPool.flushPage]
  split
  · exact refl
  split
  · exact refl
  rw [BufferPool.flushSlot]
  split
  · refine writeBack.trans (setSlot ?_)
    rw [writeBack_slot]
  · exact refl

end Ticks

/-! ## Page ids -/

/-- The pages that can be allocated when the head of the free list is not cached: the head and the
new ids. -/
def idsLeft (pool : BufferPool) : Nat :=
  (if 0 ≤ pool.freeListHead then 1 else 0) +
    if pool.nextPage < 0 then 0 else (2147483648 - pool.nextPage).toNat

/-! ## Pools without pins -/

/-- The pool once the pins are gone. -/
def unpinned (pool : BufferPool) : BufferPool :=
  { pool with slots := pool.slots.map fun slot => { slot with pinCount := 0 } }

theorem unpinned_slot (i : Nat) : pool.unpinned.slot i = { pool.slot i with pinCount := 0 } := by
  simp only [slot, unpinned, List.getD_eq_getElem?_getD, List.getElem?_map]
  cases pool.slots[i]? <;> rfl

theorem unpinned_holder : Holder pool.unpinned.slots p i ↔ Holder pool.slots p i := by
  have hiff (q : BufferPool) : Holder q.slots p i ↔
      (q.slot i).loaded = true ∧ (q.slot i).pageId = p :=
    ⟨holder_slot, fun hh => hh.2 ▸ holder_of_slot hh.1⟩
  rw [hiff, hiff, unpinned_slot]

theorem unpinned_evictable (h : pool.evictable.Nonempty) : pool.unpinned.evictable.Nonempty := by
  obtain ⟨i, hi⟩ := h
  refine ⟨i, mem_evictable.mpr ⟨?_, .inr ?_⟩⟩
  · rw [unpinned, List.length_map]
    exact (mem_evictable.mp hi).1
  · rw [unpinned_slot]

theorem Clock.unpinned (h : Clock n pool) : Clock n pool.unpinned := by
  refine ⟨fun i => ?_, h.room⟩
  rw [unpinned_slot]
  exact h.last i

end BufferPool

/-! ## Sessions whose slots can go -/

namespace PoolSession

open BufferPool

variable {s s' : PoolSession} {busy : Set Nat} {full : Prop} {pool' : BufferPool}

/-- A slot can be evicted when no pin refers to it. -/
theorem mem_evictable (h : PoolInv full s) :
    i ∈ s.pool.evictable ↔ i < s.pool.slots.length ∧ i ∉ s.pins.map Prod.snd := by
  rw [BufferPool.mem_evictable]
  refine and_congr_right fun hi => ?_
  have hslot : s.pool.slots[i]? = some (s.pool.slot i) := by
    rw [BufferPool.slot, List.getD_eq_getElem?_getD, List.getElem?_eq_getElem hi]
    rfl
  rw [h.pinCount hslot, List.count_eq_zero]
  constructor
  · intro hfree hm
    obtain ⟨⟨pid, idx⟩, hp, rfl⟩ := List.mem_map.mp hm
    obtain ⟨hl, hid⟩ := holder_slot (h.holder hp)
    rcases hfree with hf | hf
    · rw [hl] at hf
      cases hf
    · exact hf (hid ▸ hp)
  · intro hm
    exact .inr fun hp => hm (List.mem_map.mpr ⟨_, hp, rfl⟩)

theorem evictable_congr (h : PoolInv full s) (h' : PoolInv full s') (hpins : s'.pins = s.pins)
    (hlen : s'.pool.slots.length = s.pool.slots.length) :
    s'.pool.evictable = s.pool.evictable := by
  ext i
  rw [mem_evictable h, mem_evictable h', hpins, hlen]

/-- A slot that changes becomes dirty or keeps what is compared with the file. -/
theorem Saved.setSlot (h : s.Saved i) {new : Slot} (howned : s'.owned = s.owned)
    (hslots : s'.pool.slots = s.pool.slots.set v new) (hps : s'.pool.pageSize = s.pool.pageSize)
    (hfile : s'.pool.file = s.pool.file)
    (hnew : i = v → new.dirty = true ∨ new.loaded = (s.pool.slot v).loaded ∧
      new.pageId = (s.pool.slot v).pageId ∧ new.page = (s.pool.slot v).page ∧
      new.dirty = (s.pool.slot v).dirty) : s'.Saved i := by
  have he : s'.pool.slot i = (s.pool.setSlot v new).slot i := by
    rw [BufferPool.slot, BufferPool.slot, hslots]
    rfl
  intro hl ho hd k hk
  rw [he] at hl ho hd ⊢
  rw [hps] at hk ⊢
  rw [hfile]
  rcases slot_set v i new with ⟨hi, hs⟩ | hs
  · rw [hs] at hl ho hd ⊢
    rcases hnew hi with hnew | ⟨h1, h2, h3, h4⟩
    · rw [hnew] at hd
      cases hd
    · rw [h2, howned] at ho
      rw [h2, h3]
      subst hi
      exact h (h1 ▸ hl) ho (h4 ▸ hd) k hk
  · rw [hs] at hl ho hd ⊢
    rw [howned] at ho
    exact h hl ho hd k hk

/-- The pages in use show what they should, and every slot but the ones in `busy`, which are pinned,
can go. -/
structure Steady (busy : Set Nat) (s : PoolSession) : Prop where
  inv : PoolInv False s
  coherent : s.Coherent
  paged : s.pool.file.Paged s.pool.pageSize
  saved : ∀ i ∉ busy, s.Saved i
  held : ∀ i ∈ busy, ∃ pid, (pid, i) ∈ s.pins

namespace Steady

theorem victim (h : Steady busy s) (hv : s.pool.findEvictionCandidate = some v) : v ∉ busy := by
  intro hb
  obtain ⟨pid, hp⟩ := h.held v hb
  exact (h.inv.victim_unpinned hv).2 pid hp

theorem keeps (h : Steady busy s) (hk : s.pool.Keeps pool') : pool'.file.Paged pool'.pageSize := by
  rw [hk.pageSize]
  exact hk.paged h.paged

/-- The contents of a page matter up to the page size. -/
theorem agree (h : Steady busy s) {c : Int → PageBuffer}
    (hc : ∀ p ∈ s.owned, ∀ k < s.pool.pageSize, c p k = s.contents p k) :
    Steady busy { s with contents := c } where
  inv := { h.inv with }
  coherent := ⟨h.coherent.unique, fun p hp k hk => (h.coherent.view p hp k hk).trans (hc p hp k hk).symm⟩
  paged := h.paged
  saved := h.saved
  held := h.held

/-- Another slot than the one that is refilled stays saved. -/
theorem saved_refill (h : Steady busy s) (hv : s.pool.findEvictionCandidate = some v)
    (hi : i ∉ busy) (hne : i ≠ v) {pool : BufferPool} (hslots : pool.slots = s.pool.slots)
    (hfile : pool.file = s.pool.file) (hps : pool.pageSize = s.pool.pageSize)
    (hpool : s'.pool = pool.refill v pid page)
    (howned : (s.pool.slot i).pageId ∈ s'.owned → (s.pool.slot i).loaded = true →
      (s.pool.slot i).pageId ∈ s.owned) : s'.Saved i := by
  have hvl := (h.inv.victim_unpinned hv).1
  have hslot (j : Nat) : pool.slot j = s.pool.slot j := by rw [BufferPool.slot, hslots]; rfl
  have he : s'.pool.slot i = s.pool.slot i := by
    rw [hpool, refill_slot (hslots ▸ hvl) hne, hslot]
  intro hl ho hd k hk
  rw [he] at hl ho hd ⊢
  have ho := howned ho hl
  have hps' : s'.pool.pageSize = s.pool.pageSize := by rw [hpool, refill_pageSize, hps]
  rw [hps'] at hk ⊢
  rw [h.saved i hi hl ho hd k hk, hpool, refill_file]
  have hplaced : pool.Placed v := by
    rw [Placed, hslot]
    exact h.inv.placed v
  have hno : ¬ Holder pool.slots (s.pool.slot i).pageId v := by
    rw [hslots]
    exact fun hh => hne (h.coherent.unique _ i v (holder_of_slot hl) hh)
  rw [← hps] at hk ⊢
  rw [writeBack_readPage_of_none (hfile ▸ hps ▸ h.paged) hplaced (h.inv.range _ (.inl ho)).1 hk hno,
    hfile]

/-- A page that is loaded is as in the file, the others stay saved. -/
theorem saved_ensureLoaded (h : Steady busy s) (he : s.pool.ensureLoaded pid = some (idx, pool'))
    (hi : i ∉ busy) : ({ s with pool := pool' } : PoolSession).Saved i := by
  rw [BufferPool.ensureLoaded] at he
  split at he
  · obtain ⟨-, rfl⟩ := Prod.mk.inj (Option.some.inj he)
    exact h.saved i hi
  · split at he
    · cases he
    · next hf v hv =>
      obtain ⟨rfl, rfl⟩ := Prod.mk.inj (Option.some.inj he)
      by_cases hiv : i = v
      · subst hiv
        have hslot : (s.pool.refill i pid
            ((s.pool.writeBack i).file.readPage s.pool.pageSize pid)).slot i =
            ⟨true, pid, false, 0, s.pool.nextAccess,
              (s.pool.writeBack i).file.readPage s.pool.pageSize pid⟩ := by
          apply slot_eq
          rw [refill_slots, List.getElem?_set_self (h.inv.victim_unpinned hv).1]
        intro _ _ _ k _
        rw [hslot, refill_pageSize]
        rfl
      · exact h.saved_refill hv hi hiv rfl rfl rfl rfl fun ho _ => ho

theorem pin (h : Steady busy s) (hp : pid ∈ s.owned) (he : s.pool.pinPage pid = some (idx, pool')) :
    Steady busy { s with pool := pool', pins := (pid, idx) :: s.pins } := by
  have hstep : s.step (.pin pid) = { s with pool := pool', pins := (pid, idx) :: s.pins } := by
    simp only [step, he]
    rfl
  have hc : (s.step (.pin pid)).Coherent :=
    (h.coherent.pinPage_iff h.inv h.paged hp).mpr fun _ v hv => h.saved v (h.victim hv)
  have hinv : PoolInv False (s.step (.pin pid)) := h.inv.pinPage hp
  have hkeep := s.keeps (.pin pid)
  rw [hstep] at hc hinv hkeep
  refine ⟨hinv, hc, h.keeps hkeep, fun i hi => ?_, fun i hi => ?_⟩
  · rw [BufferPool.pinPage, if_neg (by have := (h.inv.range pid (.inl hp)).1; omega)] at he
    obtain ⟨⟨j, pool₁⟩, hload, hpin⟩ := Option.map_eq_some_iff.mp he
    obtain ⟨rfl, rfl⟩ := Prod.mk.inj hpin
    refine (h.saved_ensureLoaded hload hi).setSlot rfl rfl rfl rfl fun hij => .inr ?_
    exact ⟨rfl, rfl, rfl, rfl⟩
  · obtain ⟨p, hp⟩ := h.held i hi
    exact ⟨p, List.mem_cons_of_mem _ hp⟩

/-- Stores through the buffer of a slot in `busy`. -/
theorem store (h : Steady busy s) (hp : (pid, idx) ∈ s.pins) (hb : idx ∈ busy) (page : PageBuffer) :
    Steady busy { s with
      pool := s.pool.storePage idx page
      contents := Function.update s.contents pid page } where
  inv := { h.inv.storePage hp page with }
  coherent := h.coherent.storePage h.inv hp page
  paged := h.paged
  saved i hi := (h.saved i hi).setSlot rfl rfl rfl rfl fun he => absurd (he ▸ hb) hi
  held := h.held

/-- Stores and the mark of the page; the slot can go then. -/
theorem update (h : Steady busy s) (hp : (pid, idx) ∈ s.pins) (page : PageBuffer) :
    Steady (busy \ {idx}) { s with
      pool := (s.pool.storePage idx page).markDirty pid
      contents := Function.update s.contents pid page } := by
  have hinv : PoolInv False { s with pool := s.pool.storePage idx page } := h.inv.storePage hp page
  have hf : (s.pool.storePage idx page).findSlot pid = some idx := (hinv.handle hp).2
  have h0 : ¬ pid < 0 := by
    have := (h.inv.range pid (.inl (h.inv.handle hp).1)).1
    omega
  have hlen : idx < s.pool.slots.length := by
    obtain ⟨slot, hs, -⟩ := h.inv.holder hp
    exact (List.getElem?_eq_some_iff.mp hs).1
  have hslots : ((s.pool.storePage idx page).markDirty pid).slots =
      s.pool.slots.set idx { s.pool.slot idx with page := page, dirty := true } := by
    have hslot : (s.pool.storePage idx page).slot idx = { s.pool.slot idx with page := page } := by
      rw [BufferPool.storePage, slot_setSlot hlen, if_pos rfl]
    rw [BufferPool.markDirty, if_neg h0, hf]
    simp only [hslot]
    exact List.set_set ..
  have hfile : ((s.pool.storePage idx page).markDirty pid).file = s.pool.file := by
    rw [BufferPool.markDirty, if_neg h0, hf]
    rfl
  refine ⟨{ hinv.markDirty with }, (h.coherent.storePage h.inv hp page).markDirty, ?_, fun i hi => ?_,
    fun i hi => h.held i hi.1⟩
  · exact h.keeps (s.keeps (.update pid idx page))
  · by_cases hb : i ∈ busy
    · obtain rfl : i = idx := by
        by_contra hne
        exact hi ⟨hb, hne⟩
      have hdirty : (((s.pool.storePage i page).markDirty pid).slot i).dirty = true := by
        rw [BufferPool.slot, hslots, List.getD_eq_getElem?_getD, List.getElem?_set_self hlen]
        rfl
      intro _ _ hd
      rw [hdirty] at hd
      cases hd
    · have hk : (s.pool.storePage idx page).Keeps ((s.pool.storePage idx page).markDirty pid) :=
        .markDirty
      exact (h.saved i hb).setSlot rfl hslots hk.pageSize hfile fun _ => .inl rfl

theorem release (h : Steady busy s) (hp : (pid, idx) ∈ s.pins) (hb : idx ∉ busy) :
    Steady busy { s with
      pool := s.pool.releasePage pid
      pins := s.pins.erase (pid, idx) } := by
  have hf := (h.inv.handle hp).2
  have hc : (s.step (.release pid)).Coherent := h.coherent.releasePage
  refine ⟨h.inv.releasePage hp, ⟨hc.unique, hc.view⟩, h.keeps .releasePage, fun i hi => ?_,
    fun i hi => ?_⟩
  · rw [BufferPool.releasePage]
    split
    · exact h.saved i hi
    rw [hf]
    simp only
    split
    · refine (h.saved i hi).setSlot rfl rfl rfl rfl fun _ => .inr ?_
      exact ⟨rfl, rfl, rfl, rfl⟩
    · exact h.saved i hi
  · obtain ⟨p, hm⟩ := h.held i hi
    refine ⟨p, (List.mem_erase_of_ne fun he => hb ?_).mpr hm⟩
    exact (Prod.mk.inj he).2 ▸ hi

theorem flush (h : Steady busy s) (pid : Int) : Steady busy { s with pool := s.pool.flushPage pid } := by
  refine ⟨h.inv.flushPage, ?_, h.keeps .flushPage, fun i hi => ?_, h.held⟩
  · rw [BufferPool.flushPage]
    split
    · exact h.coherent
    split
    · exact h.coherent
    · exact h.coherent.flushSlot h.inv h.paged _
  · rw [BufferPool.flushPage]
    split
    · exact h.saved i hi
    split
    · exact h.saved i hi
    · next j hj =>
      have hkeep : s.pool.Keeps (s.pool.flushSlot j) := .flushSlot
      intro hl ho hd k hk
      rw [hkeep.pageSize] at hk ⊢
      by_cases hj : (s.pool.slot j).loaded = true ∧ (s.pool.slot j).dirty = true
      · have hfile : (s.pool.flushSlot j).file = (s.pool.writeBack j).file := by
          rw [flushSlot, if_pos hj]
          rfl
        have he : (s.pool.flushSlot j).slot i =
            if i = j then { s.pool.slot j with dirty := false } else s.pool.slot i := by
          simp only [flushSlot_slot, hj, and_true]
        simp only [he] at hl ho hd ⊢
        rw [hfile]
        split at hl
        · next hij =>
          rw [if_pos hij] at ho ⊢
          rw [writeBack_readPage h.paged (h.inv.placed j) (h.inv.range _ (.inl ho)).1 hk,
            if_pos ⟨hj.2, rfl⟩]
        · next hij =>
          rw [if_neg hij] at ho hd ⊢
          rw [writeBack_readPage_of_none h.paged (h.inv.placed j) (h.inv.range _ (.inl ho)).1 hk
            fun hh => hij (h.coherent.unique _ i j (holder_of_slot hl) hh)]
          exact h.saved i hi hl ho hd k hk
      · have he : s.pool.flushSlot j = s.pool := by rw [flushSlot, if_neg hj]
        simp only [he] at hl ho hd ⊢
        exact h.saved i hi hl ho hd k hk

/-- The page that is allocated and pinned. -/
structure Granted (busy : Set Nat) (s : PoolSession) (pid : Int) (v : Nat) (pool' : BufferPool) :
    Prop where
  id : 0 ≤ pid ∧ pid < 2147483648
  fresh : pid ∉ s.owned
  victim : v ∈ s.pool.evictable
  free : v ∉ busy
  slot : pool'.findSlot pid = some v
  steady : Steady (insert v busy) {
    pool := pool'.pinSlot v
    owned := insert pid s.owned
    freed := s.freed.erase pid
    pins := (pid, v) :: s.pins
    contents := Function.update s.contents pid fun _ => 0 }
  capacity : pool'.slots.length = s.pool.slots.length
  pageSize : pool'.pageSize = s.pool.pageSize
  head : pool'.freeListHead = -1
  ids : pool'.idsLeft + 1 = s.pool.idsLeft
  clock : ∀ n, Clock (n + 1) s.pool → Clock n pool'

theorem granted (h : Steady busy s) (hv : s.pool.findEvictionCandidate = some v)
    {pool : BufferPool} (hslots : pool.slots = s.pool.slots) (hfile : pool.file = s.pool.file)
    (hps : pool.pageSize = s.pool.pageSize) (hcount : pool.accessCounter = s.pool.accessCounter)
    (hno : ∀ i, ¬ Holder s.pool.slots pid i) (hid : 0 ≤ pid ∧ pid < 2147483648)
    (he : s.pool.allocate = (pid, pool.refill v pid fun _ => 0)) (hhead : pool.freeListHead = -1)
    (hids : pool.idsLeft + 1 = s.pool.idsLeft) :
    Granted busy s pid v (pool.refill v pid fun _ => 0) := by
  have hneg : ¬ pid < 0 := by omega
  have hinv := h.inv.allocate (c := Function.update s.contents pid fun _ => 0) False.elim he
  rw [if_neg hneg] at hinv
  obtain ⟨hfresh, hinv⟩ := hinv
  have hsv := h.saved v (h.victim hv)
  have hc := (h.coherent.handOut_iff h.inv h.paged hv hslots hfile hps
    (fun i hi => absurd hi (hno i)) hfresh).mpr hsv
  have hvl : v < pool.slots.length := hslots ▸ (h.inv.victim_unpinned hv).1
  have hf : (pool.refill v pid fun _ => 0).findSlot pid = some v := by
    apply hc.unique.findSlot_eq_some.mpr
    exact (holder_refill hvl).mpr (by rw [if_pos rfl])
  have hkeep : s.pool.Keeps (pool.refill v pid fun _ => 0) := .allocate he
  have ht : Ticks 1 pool (pool.refill v pid fun _ => 0) := .refill
  refine ⟨hid, hfresh, candidate_mem hv, h.victim hv, hf, ⟨?_, ?_, ?_, fun i hi => ?_, fun i hi => ?_⟩, ?_, ?_, ?_, ?_,
    fun n hn => ht.clock n ?_⟩
  · exact hinv.pinSlot (Finset.mem_insert_self ..) hf
  · exact (Coherent.pinSlot_iff hf).mpr hc
  · exact h.keeps (hkeep.trans (.of_file rfl rfl))
  · obtain ⟨hiv, hi⟩ := not_or.mp hi
    have hs : ({ s with
        pool := pool.refill v pid fun _ => 0
        owned := insert pid s.owned
        freed := s.freed.erase pid
        contents := Function.update s.contents pid fun _ => 0 } : PoolSession).Saved i := by
      refine h.saved_refill hv hi hiv hslots hfile hps rfl fun ho hl => ?_
      refine (Finset.mem_insert.mp ho).resolve_left fun he => hno i ?_
      exact he ▸ holder_of_slot hl
    refine hs.setSlot rfl rfl rfl rfl fun _ => .inr ?_
    exact ⟨rfl, rfl, rfl, rfl⟩
  · rcases Set.mem_insert_iff.mp hi with rfl | hi
    · exact ⟨pid, List.mem_cons_self ..⟩
    · obtain ⟨p, hp⟩ := h.held i hi
      exact ⟨p, List.mem_cons_of_mem _ hp⟩
  · rw [ht.capacity, hslots]
  · rw [ht.pageSize, hps]
  · rw [ht.freeListHead, hhead]
  · rw [← hids, idsLeft, idsLeft, ht.freeListHead, ht.nextPage]
  · refine ⟨fun i => ?_, hcount ▸ hn.room⟩
    have := hn.last i
    rwa [BufferPool.slot, hslots, hcount]

/-- `garry_pool_allocate` grants a page as long as a slot can be evicted and there is an id. -/
theorem allocate (h : Steady busy s)
    (hfree : 0 ≤ s.pool.freeListHead → s.pool.findSlot s.pool.freeListHead = none)
    (hclock : Clock 0 s.pool) (he : s.pool.evictable.Nonempty) (hids : 0 < s.pool.idsLeft) :
    ∃ pid v pool', s.pool.allocate = (pid, pool') ∧ Granted busy s pid v pool' := by
  obtain ⟨v, hv, -⟩ := exists_candidate hclock.recent he
  cases ha : s.pool.allocate with
  | mk pid pool' =>
    rcases allocate_cases ha with ⟨-, -, hn, -⟩ | ⟨-, hhead, hn, -⟩ | ⟨v', hhead, rfl, hv', rfl⟩ |
      ⟨v', hhead, hn, rfl, hv', rfl⟩
    · rw [hv] at hn
      cases hn
    · rcases hn with hn | hn
      · rw [hv] at hn
        cases hn
      · rw [idsLeft, if_neg (by omega), if_pos hn] at hids
        exact absurd hids (lt_irrefl _)
    · have hno := findSlot_eq_none.mp (hfree hhead)
      have hnext : s.pool.nextFree s.pool.freeListHead = -1 := by
        rw [nextFree, hfree hhead]
      have hr := h.inv.range_lt (.inr (h.inv.nextFree hhead).1)
      refine ⟨_, v', _, rfl, h.granted hv' rfl rfl rfl rfl hno hr ha hnext ?_⟩
      simp only [idsLeft, hnext, if_pos hhead]
      rw [if_neg (by decide)]
      omega
    · have hno (i : Nat) : ¬ Holder s.pool.slots s.pool.nextPage i := by
        intro hi
        have := (h.inv.loaded hi).2
        rw [idBound, if_neg (by omega)] at this
        omega
      have hids' := h.inv.ids
      have hhead' : s.pool.freeListHead = -1 := by
        obtain ⟨l, -, hl, hh, -⟩ := h.inv.list
        cases l with
        | nil => exact hh
        | cons q l =>
          have := (h.inv.range q (.inr (hl q (List.mem_cons_self ..)))).1
          rw [List.headD_cons] at hh
          omega
      refine ⟨_, v', _, rfl, h.granted hv' rfl rfl rfl rfl hno ⟨hn, by omega⟩ ha hhead' ?_⟩
      simp only [idsLeft, if_neg (show ¬ 0 ≤ s.pool.freeListHead by omega),
        if_neg (show ¬ s.pool.nextPage < 0 by omega), succPage]
      split
      · rw [if_neg (by omega)]
        omega
      · rw [if_pos (by decide)]
        omega

/-- A page without other pins is not pinned in a slot that is in `busy`. -/
theorem pin_free (h : Steady busy s) (hp : pid ∈ s.owned) (hno : ∀ i, (pid, i) ∉ s.pins)
    (he : s.pool.pinPage pid = some (idx, pool')) : idx ∉ busy := by
  have h1 := h.pin hp he
  intro hb
  obtain ⟨p, hp'⟩ := h.held idx hb
  have e1 := (holder_slot (h1.inv.holder (List.mem_cons_self ..))).2
  have e2 := (holder_slot (h1.inv.holder (List.mem_cons_of_mem _ hp'))).2
  exact hno idx (e1.symm.trans e2 ▸ hp')

/-- A page is pinned when a slot can be evicted for it. -/
theorem exists_pin (h : Steady busy s) (hp : pid ∈ s.owned) (hclock : Clock 0 s.pool)
    (he : s.pool.evictable.Nonempty) : ∃ idx pool', s.pool.pinPage pid = some (idx, pool') := by
  have h0 := (h.inv.range pid (.inl hp)).1
  rw [BufferPool.pinPage, if_neg (by omega), ensureLoaded]
  cases hf : s.pool.findSlot pid with
  | some idx => exact ⟨_, _, rfl⟩
  | none =>
    obtain ⟨v, hv, -⟩ := exists_candidate hclock.recent he
    simp only [hv]
    exact ⟨_, _, rfl⟩

/-- The bytes of a pinned page. -/
theorem page_eq (h : Steady busy s) (hp : (pid, idx) ∈ s.pins) (hk : k < s.pool.pageSize) :
    (s.pool.slot idx).page k = s.contents pid k := by
  rw [← h.coherent.view pid (h.inv.handle hp).1 k hk,
    h.coherent.unique.view_of_holder (h.inv.holder hp)]

end Steady

theorem links_unpinned (h : Links s.pool.slots l) : Links s.pool.unpinned.slots l := by
  induction l with
  | nil => trivial
  | cons p l ih =>
    refine ⟨fun i slot hs hh => ?_, ih h.2⟩
    rw [unpinned, List.getElem?_map] at hs
    obtain ⟨old, hold, rfl⟩ := Option.map_eq_some_iff.mp hs
    exact h.1 i old hold hh

/-- The session of the pages `l` after the pins are gone. -/
theorem Steady.unpin (h : Steady busy s) {l : Finset Int}
    (hl : ∀ p ∈ l, p ∈ s.owned ∧ ∀ i, (p, i) ∉ s.pins) :
    Steady ∅ { s with pool := s.pool.unpinned, owned := l, pins := [] } := by
  have hu : s.pool.unpinned.OneSlot := h.coherent.unique.congr fun _ _ => unpinned_holder
  refine ⟨?_, ⟨hu, fun p hp k hk => ?_⟩, h.paged, fun i _ => ?_, fun i hi => absurd hi (Set.notMem_empty i)⟩
  · exact {
      ids := h.inv.ids
      range := fun p hp => h.inv.range p (hp.imp_left fun hp => (hl p hp).1)
      loaded := fun hi => h.inv.loaded (unpinned_holder.mp hi)
      disjoint := fun p hp => h.inv.disjoint p (hl p hp).1
      clean := by
        intro i slot hs hf
        rw [unpinned, List.getElem?_map] at hs
        obtain ⟨old, hold, rfl⟩ := Option.map_eq_some_iff.mp hs
        have hd : old.dirty = false := h.inv.clean hold hf
        exact hd
      pinCount := by
        intro i slot hs
        rw [unpinned, List.getElem?_map] at hs
        obtain ⟨old, -, rfl⟩ := Option.map_eq_some_iff.mp hs
        rfl
      handle := fun hp => absurd hp List.not_mem_nil
      one := fun _ hi hj => hu _ _ _ hi hj
      two := fun hi hj _ => .inl (hu _ _ _ hi hj)
      list := by
        obtain ⟨l, h1, h2, h3, h4, h5⟩ := h.inv.list
        exact ⟨l, h1, h2, h3, links_unpinned h4, h5⟩ }
  · rw [← h.coherent.view p (hl p hp).1 k hk]
    refine view_congr h.coherent.unique (fun _ _ => unpinned_holder) (fun i _ => ?_) fun _ => rfl
    rw [unpinned_slot]
  · intro hld ho hd k hk
    simp only [unpinned_slot] at hld ho hd ⊢
    have hb : i ∉ busy := by
      intro hb
      obtain ⟨p, hp⟩ := h.held i hb
      refine (hl _ ho).2 i ?_
      rwa [(holder_slot (h.inv.holder hp)).2]
    exact h.saved i hb hld (hl _ ho).1 hd k hk

/-- The session of the callers' pinned pages. -/
theorem steady_pinned (h : PoolInv full s) (hu : s.pool.OneSlot)
    (hw : s.pool.file.Paged s.pool.pageSize) :
    Steady {i | ∃ p, (p, i) ∈ s.pins}
      { s with owned := (s.pins.map Prod.fst).toFinset, contents := s.pool.view } := by
  have hmem {p : Int} (hp : p ∈ (s.pins.map Prod.fst).toFinset) : ∃ i, (p, i) ∈ s.pins := by
    obtain ⟨⟨q, i⟩, hq, rfl⟩ := List.mem_map.mp (List.mem_toFinset.mp hp)
    exact ⟨i, hq⟩
  have howned {p : Int} (hp : p ∈ (s.pins.map Prod.fst).toFinset) : p ∈ s.owned := by
    obtain ⟨i, hi⟩ := hmem hp
    exact (h.handle hi).1
  refine ⟨?_, ⟨hu, fun _ _ _ _ => rfl⟩, hw, fun i hi => ?_, fun i hi => hi⟩
  · exact {
      ids := h.ids
      range := fun p hp => h.range p (hp.imp_left howned)
      loaded := h.loaded
      disjoint := fun p hp => h.disjoint p (howned hp)
      clean := h.clean
      pinCount := h.pinCount
      handle := fun hp => ⟨List.mem_toFinset.mpr (List.mem_map.mpr ⟨_, hp, rfl⟩), (h.handle hp).2⟩
      one := fun _ hi hj => hu _ _ _ hi hj
      two := h.two
      list := by
        obtain ⟨l, h1, h2, h3, h4, -⟩ := h.list
        exact ⟨l, h1, h2, h3, h4, False.elim⟩ }
  · intro hld ho _ k _
    obtain ⟨j, hj⟩ := hmem ho
    obtain rfl := hu _ i j (holder_of_slot hld) (h.holder hj)
    exact absurd ⟨_, hj⟩ hi

end PoolSession

theorem start_slot (file : DataFile) (capacity pageSize next i : Nat) :
    (PoolSession.start file capacity pageSize next).pool.slot i = Slot.unused := by
  simp only [PoolSession.start, BufferPool.create, BufferPool.slot, List.getD_eq_getElem?_getD,
    List.getElem?_replicate]
  split <;> rfl

end Garry
