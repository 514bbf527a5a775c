import Garry.Model.BufferPool

/-!
# Sessions of the buffer pool

A session is a run of pool calls by callers that use the pages they own: it follows which pages are
handed out, which ones were freed, the outstanding pins with the slots they returned, and the bytes
that each page should show.
-/

namespace Garry

open ByteStore

namespace BufferPool

variable {pool : BufferPool}

/-! ## Slots -/

/-- Slot `i` holds page `p`. -/
def Holder (slots : List Slot) (p : Int) (i : Nat) : Prop :=
  ∃ slot, slots[i]? = some slot ∧ slot.holds p = true

theorem holder_at {slots : List Slot} {slot : Slot} (hs : slots[i]? = some slot) :
    Holder slots p i ↔ slot.holds p = true := by
  constructor
  · rintro ⟨slot', hs', hh⟩
    rw [hs] at hs'
    exact Option.some.inj hs' ▸ hh
  · intro hh
    exact ⟨slot, hs, hh⟩

theorem slot_eq {slot : Slot} (h : pool.slots[i]? = some slot) : pool.slot i = slot := by
  rw [BufferPool.slot, List.getD_eq_getElem?_getD, h]; rfl

theorem Slot.holds_iff {slot : Slot} : slot.holds p = true ↔ slot.loaded = true ∧ slot.pageId = p := by
  simp [Slot.holds]

theorem findSlot_eq_some :
    pool.findSlot p = some i ↔ Holder pool.slots p i ∧ ∀ j < i, ¬ Holder pool.slots p j := by
  rw [findSlot, List.findIdx?_eq_some_iff_getElem]
  constructor
  · rintro ⟨hi, hp, hlt⟩
    refine ⟨⟨_, List.getElem?_eq_getElem hi, hp⟩, ?_⟩
    rintro j hj ⟨slot, hs, hh⟩
    have hjl : j < pool.slots.length := hj.trans hi
    rw [List.getElem?_eq_getElem hjl] at hs
    have := hlt j hj
    rw [Option.some.inj hs, hh] at this
    exact this rfl
  · rintro ⟨⟨slot, hs, hh⟩, hlt⟩
    obtain ⟨hi, hs⟩ := List.getElem?_eq_some_iff.mp hs
    refine ⟨hi, hs ▸ hh, fun j hj hp => ?_⟩
    exact hlt j hj ⟨_, List.getElem?_eq_getElem (hj.trans hi), hp⟩

theorem findSlot_eq_none : pool.findSlot p = none ↔ ∀ i, ¬ Holder pool.slots p i := by
  rw [findSlot, List.findIdx?_eq_none_iff]
  constructor
  · rintro h i ⟨slot, hs, hh⟩
    have := h slot (List.mem_of_getElem? hs)
    rw [hh] at this
    cases this
  · intro h slot hs
    obtain ⟨i, hi⟩ := List.mem_iff_getElem?.mp hs
    by_contra hh
    exact h i ⟨slot, hi, by simpa using hh⟩

theorem holder_set {slots : List Slot} {new : Slot} (hv : v < slots.length) :
    Holder (slots.set v new) p i ↔ if i = v then new.holds p = true else Holder slots p i := by
  simp only [Holder, List.getElem?_set]
  by_cases h : v = i
  · subst h
    simp [hv]
  · have h' : ¬ i = v := fun e => h e.symm
    simp [h, h']

theorem leastAccessed_spec {slots : List Slot} {best : Option Nat}
    (h : leastAccessed slots i best acc = some v) :
    best = some v ∨ ∃ j slot, v = i + j ∧ slots[j]? = some slot ∧ slot.pinCount = 0 := by
  induction slots generalizing i best acc with
  | nil => exact .inl h
  | cons slot slots ih =>
    rw [leastAccessed] at h
    split at h
    · next hs =>
      rcases ih h with hb | ⟨j, slot', rfl, hj, hp⟩
      · exact .inr ⟨0, slot, (Option.some.inj hb).symm, rfl, hs.1⟩
      · exact .inr ⟨j + 1, slot', by omega, hj, hp⟩
    · rcases ih h with hb | ⟨j, slot', rfl, hj, hp⟩
      · exact .inl hb
      · exact .inr ⟨j + 1, slot', by omega, hj, hp⟩

/-- The victim is a slot that is not loaded or not pinned. -/
theorem findEvictionCandidate_spec (h : pool.findEvictionCandidate = some v) :
    ∃ slot, pool.slots[v]? = some slot ∧ (slot.loaded = false ∨ slot.pinCount = 0) := by
  rw [findEvictionCandidate, Option.or_eq_some_iff] at h
  rcases h with h | ⟨-, h⟩
  · obtain ⟨hi, hp, -⟩ := List.findIdx?_eq_some_iff_getElem.mp h
    exact ⟨_, List.getElem?_eq_getElem hi, .inl (by simpa using hp)⟩
  · rcases leastAccessed_spec h with hb | ⟨j, slot, rfl, hj, hp⟩
    · cases hb
    · rw [Nat.zero_add]
      exact ⟨slot, hj, .inr hp⟩

@[simp] theorem writeBack_slots : (pool.writeBack i).slots = pool.slots := by
  rw [writeBack]; split <;> rfl

@[simp] theorem writeBack_nextPage : (pool.writeBack i).nextPage = pool.nextPage := by
  rw [writeBack]; split <;> rfl

@[simp] theorem writeBack_freeListHead : (pool.writeBack i).freeListHead = pool.freeListHead := by
  rw [writeBack]; split <;> rfl

theorem refill_slots : (pool.refill v pid page).slots =
    pool.slots.set v ⟨true, pid, false, 0, pool.nextAccess, page⟩ := by
  simp [refill, setSlot]

@[simp] theorem refill_nextPage : (pool.refill v pid page).nextPage = pool.nextPage := by
  simp [refill, setSlot]

@[simp] theorem refill_freeListHead : (pool.refill v pid page).freeListHead = pool.freeListHead := by
  simp [refill, setSlot]

@[simp] theorem writeBack_slot : (pool.writeBack i).slot j = pool.slot j := by
  rw [slot, slot, writeBack_slots]

/-- The ways of `garry_pool_allocate`. -/
theorem allocate_cases (he : pool.allocate = (pid, pool')) :
    (pid = -1 ∧ 0 ≤ pool.freeListHead ∧ pool.findEvictionCandidate = none ∧
      pool' = { pool with freeListHead := pool.nextFree pool.freeListHead }) ∨
    (pid = -1 ∧ pool.freeListHead < 0 ∧
      (pool.findEvictionCandidate = none ∨ pool.nextPage < 0) ∧ pool' = pool) ∨
    (∃ v, 0 ≤ pool.freeListHead ∧ pid = pool.freeListHead ∧ pool.findEvictionCandidate = some v ∧
      pool' = { pool with freeListHead := pool.nextFree pool.freeListHead }.refill v
        pool.freeListHead fun _ => 0) ∨
    ∃ v, pool.freeListHead < 0 ∧ 0 ≤ pool.nextPage ∧ pid = pool.nextPage ∧
      pool.findEvictionCandidate = some v ∧
      pool' = { pool with nextPage := succPage pool.nextPage }.refill v pool.nextPage fun _ => 0 := by
  rw [allocate] at he
  split at he
  · next hhead =>
    simp only at he
    split at he
    · next hv =>
      obtain ⟨rfl, rfl⟩ := Prod.mk.inj he
      exact .inl ⟨rfl, hhead, hv, rfl⟩
    · next v hv =>
      obtain ⟨rfl, rfl⟩ := Prod.mk.inj he
      exact .inr (.inr (.inl ⟨v, hhead, rfl, hv, rfl⟩))
  · next hhead =>
    split at he
    · next hv =>
      obtain ⟨rfl, rfl⟩ := Prod.mk.inj he
      exact .inr (.inl ⟨rfl, by omega, .inl hv, rfl⟩)
    · next v hv =>
      split at he
      · next hn =>
        obtain ⟨rfl, rfl⟩ := Prod.mk.inj he
        exact .inr (.inl ⟨rfl, by omega, .inr hn, rfl⟩)
      · next hn =>
        obtain ⟨rfl, rfl⟩ := Prod.mk.inj he
        exact .inr (.inr (.inr ⟨v, by omega, by omega, rfl, hv, rfl⟩))

end BufferPool

/-! ## Sessions -/

/-- A pool with the pages handed out and not freed since, the pages freed and not handed out
since, the outstanding pins (page and slot) and the bytes that each page should show. -/
structure PoolSession where
  pool : BufferPool
  owned : Finset Int
  freed : Finset Int
  pins : List (Int × Nat)
  contents : Int → PageBuffer

/-- The calls of a session. `write` stores through the buffer a pin returned, `update` also marks
the page dirty. -/
inductive PoolOp
  | allocate
  | pin (pid : Int)
  | tryPin (pid : Int)
  | write (pid : Int) (idx : Nat) (page : PageBuffer)
  | markDirty (pid : Int)
  | update (pid : Int) (idx : Nat) (page : PageBuffer)
  | release (pid : Int)
  | flush (pid : Int)
  | flushAll
  | free (pid : Int)
  | reopen (capacity : Nat)

namespace PoolSession

variable {s : PoolSession} {op : PoolOp}

/-- Callers use pages they own, write to buffers they have pinned and release pins they have. -/
def Allowed (s : PoolSession) : PoolOp → Prop
  | .allocate => True
  | .pin pid => pid ∈ s.owned
  | .tryPin pid => pid ∈ s.owned
  | .write pid idx _ => (pid, idx) ∈ s.pins
  | .markDirty pid => pid ∈ s.owned
  | .update pid idx _ => (pid, idx) ∈ s.pins
  | .release pid => pid ∈ s.pins.map Prod.fst
  | .flush pid => pid ∈ s.owned
  | .flushAll => True
  | .free pid => pid ∈ s.owned
  | .reopen _ => True

/-- An allocation that takes from the free list finds a slot for the page, and the head of the list is
cached unless it is the only free page. -/
def KeepsFree (s : PoolSession) : PoolOp → Prop
  | .allocate => 0 ≤ s.pool.freeListHead →
      s.pool.findEvictionCandidate ≠ none ∧
        (s.pool.findSlot s.pool.freeListHead ≠ none ∨ s.freed = {s.pool.freeListHead})
  | _ => True

instance instDecidableAllowed : (op : PoolOp) → Decidable (s.Allowed op)
  | .allocate | .flushAll | .reopen _ => inferInstanceAs (Decidable True)
  | .pin pid | .tryPin pid | .markDirty pid | .flush pid | .free pid =>
    inferInstanceAs (Decidable (pid ∈ s.owned))
  | .write pid idx _ | .update pid idx _ => inferInstanceAs (Decidable ((pid, idx) ∈ s.pins))
  | .release pid => inferInstanceAs (Decidable (pid ∈ s.pins.map Prod.fst))

instance instDecidableKeepsFree : (op : PoolOp) → Decidable (s.KeepsFree op)
  | .allocate => inferInstanceAs (Decidable (0 ≤ s.pool.freeListHead → _ ∧ (_ ∨ _)))
  | .pin _ | .tryPin _ | .write .. | .markDirty _ | .update .. | .release _ | .flush _ | .flushAll
  | .free _ | .reopen _ => inferInstanceAs (Decidable True)

/-- A pin was granted, or none was. -/
def pinned (s : PoolSession) (pid : Int) : Option (Nat × BufferPool) → PoolSession
  | none => s
  | some (idx, pool) => { s with pool := pool, pins := (pid, idx) :: s.pins }

/-- The session after a call. A pin that is released is one of the slot the page is found in; the
pins of a page that is freed are void. -/
def step (s : PoolSession) : PoolOp → PoolSession
  | .allocate =>
    let (pid, pool) := s.pool.allocate
    if pid < 0 then { s with pool := pool }
    else
      { s with
        pool := pool
        owned := insert pid s.owned
        freed := s.freed.erase pid
        contents := Function.update s.contents pid fun _ => 0 }
  | .pin pid => s.pinned pid (s.pool.pinPage pid)
  | .tryPin pid => s.pinned pid (s.pool.tryPin pid)
  | .write pid idx page =>
    { s with
      pool := s.pool.storePage idx page
      contents := Function.update s.contents pid page }
  | .markDirty pid => { s with pool := s.pool.markDirty pid }
  | .update pid idx page =>
    { s with
      pool := (s.pool.storePage idx page).markDirty pid
      contents := Function.update s.contents pid page }
  | .release pid =>
    { s with
      pool := s.pool.releasePage pid
      pins :=
        match s.pool.findSlot pid with
        | some idx => s.pins.erase (pid, idx)
        | none => s.pins }
  | .flush pid => { s with pool := s.pool.flushPage pid }
  | .flushAll => { s with pool := s.pool.flushAll }
  | .free pid =>
    { s with
      pool := s.pool.freePage pid
      owned := s.owned.erase pid
      freed := insert pid s.freed
      pins := s.pins.filter fun p => p.1 ≠ pid }
  | .reopen capacity => { s with pool := s.pool.reopen capacity, pins := [] }

/-- The sessions that `s` can become by calls that satisfy `P` when they are made. -/
inductive Run (P : PoolSession → PoolOp → Prop) (s : PoolSession) : PoolSession → Prop
  | refl : Run P s s
  | step {s' : PoolSession} {op : PoolOp} : Run P s s' → P s' op → Run P s (s'.step op)

/-- The session after a list of calls. -/
def steps (s : PoolSession) (ops : List PoolOp) : PoolSession := ops.foldl step s

/-- Each call of the list satisfies `P` when it is made. -/
def Legal (P : PoolSession → PoolOp → Prop) (s : PoolSession) : List PoolOp → Prop
  | [] => True
  | op :: ops => P s op ∧ Legal P (s.step op) ops

instance instDecidableLegal (P : PoolSession → PoolOp → Prop) [∀ s op, Decidable (P s op)] :
    (s : PoolSession) → (ops : List PoolOp) → Decidable (Legal P s ops)
  | _, [] => inferInstanceAs (Decidable True)
  | s, op :: ops =>
    have := instDecidableLegal P (s.step op) ops
    inferInstanceAs (Decidable (_ ∧ _))

theorem Run.steps {P : PoolSession → PoolOp → Prop} (hr : Run P s s') (hl : Legal P s' ops) :
    Run P s (s'.steps ops) := by
  induction ops generalizing s' with
  | nil => exact hr
  | cons op ops ih => exact ih (hr.step hl.1) hl.2

/-- The session on a pool of the given capacity, which has handed out the pages below `next` and
has no free ones (`garry_pool_create` with 0, `garry_engine_init` with 2). -/
def start (file : DataFile) (capacity pageSize next : Nat) : PoolSession where
  pool := { BufferPool.create file capacity pageSize with nextPage := next }
  owned := ((List.range next).map Int.ofNat).toFinset
  freed := ∅
  pins := []
  contents := file.readPage pageSize

end PoolSession

/-! ## The invariant -/

/-- The first word of each listed page, where it is cached, is the next page of the list. -/
def Links (slots : List Slot) : List Int → Prop
  | [] => True
  | p :: l =>
    (∀ (i : Nat) (slot : Slot), slots[i]? = some slot → slot.holds p = true →
      readInt32 slot.page 0 = l.headD (-1)) ∧ Links slots l

/-- The ids that have been handed out are below this bound. -/
def idBound (nextPage : Int) : Int := if nextPage < 0 then 2147483648 else nextPage

open BufferPool in
/-- The pages in use, the free ones and the loaded ones are below `next_page`, the first two are
apart; pins refer to the slot their page is found in; a page has at most two slots, and at most one
while it is not in use; the free list runs through freed pages, through all of them when `full`. -/
structure PoolInv (full : Prop) (s : PoolSession) : Prop where
  ids : -2147483648 ≤ s.pool.nextPage ∧ s.pool.nextPage ≤ 2147483647
  range : ∀ p, p ∈ s.owned ∨ p ∈ s.freed → 0 ≤ p ∧ p < idBound s.pool.nextPage
  loaded : ∀ {p i}, Holder s.pool.slots p i → 0 ≤ p ∧ p < idBound s.pool.nextPage
  disjoint : ∀ p ∈ s.owned, p ∉ s.freed
  clean : ∀ {i : Nat} {slot : Slot}, s.pool.slots[i]? = some slot → slot.loaded = false → slot.dirty = false
  pinCount : ∀ {i : Nat} {slot : Slot}, s.pool.slots[i]? = some slot →
    slot.pinCount = s.pins.count (slot.pageId, i)
  handle : ∀ {pid idx}, (pid, idx) ∈ s.pins → pid ∈ s.owned ∧ s.pool.findSlot pid = some idx
  one : ∀ {p i j}, p ∉ s.owned → Holder s.pool.slots p i → Holder s.pool.slots p j → i = j
  two : ∀ {p i j k}, Holder s.pool.slots p i → Holder s.pool.slots p j →
    Holder s.pool.slots p k → i = j ∨ j = k ∨ i = k
  list : ∃ l, l.Nodup ∧ (∀ p ∈ l, p ∈ s.freed) ∧ s.pool.freeListHead = l.headD (-1) ∧
    Links s.pool.slots l ∧ (full → ∀ p ∈ s.freed, p ∈ l)

open BufferPool

variable {s : PoolSession} {slots : List Slot} {l : List Int} {full : Prop}

theorem Links.set (h : Links slots l) {new : Slot}
    (hn : ∀ p ∈ l, new.holds p = true → ∃ old, slots[v]? = some old ∧ old.holds p = true ∧
      readInt32 new.page 0 = readInt32 old.page 0) : Links (slots.set v new) l := by
  induction l with
  | nil => trivial
  | cons p l ih =>
    refine ⟨fun i slot hs hh => ?_, ih h.2 fun q hq => hn q (by simp [hq])⟩
    rw [List.getElem?_set] at hs
    split at hs
    · split at hs
      · obtain rfl := Option.some.inj hs
        obtain ⟨old, ho, hoh, hw⟩ := hn p (by simp) hh
        rw [hw]
        exact h.1 v old ho hoh
      · cases hs
    · exact h.1 i slot hs hh

theorem Links.mono {slots' : List Slot} (h : Links slots l)
    (hs : ∀ (i : Nat) (slot : Slot), slots'[i]? = some slot → slot.loaded = true → slots[i]? = some slot) :
    Links slots' l := by
  induction l with
  | nil => trivial
  | cons p l ih =>
    refine ⟨fun i slot hi hh => h.1 i slot (hs i slot hi (Slot.holds_iff.mp hh).1) hh, ih h.2⟩

namespace PoolInv

/-- A slot with a pin is loaded with the page of the pin. -/
theorem holder (h : PoolInv full s) (hp : (pid, idx) ∈ s.pins) : Holder s.pool.slots pid idx :=
  (findSlot_eq_some.mp (h.handle hp).2).1

theorem pin_slot (h : PoolInv full s) (hp : (pid, idx) ∈ s.pins) :
    ∃ slot, s.pool.slots[idx]? = some slot ∧ slot.loaded = true ∧ slot.pageId = pid ∧
      0 < slot.pinCount := by
  obtain ⟨slot, hs, hh⟩ := h.holder hp
  obtain ⟨hl, rfl⟩ := Slot.holds_iff.mp hh
  refine ⟨slot, hs, hl, rfl, ?_⟩
  rw [h.pinCount hs]
  exact List.count_pos_iff.mpr hp

/-- A victim has no pin. -/
theorem victim_unpinned (h : PoolInv full s) (hv : s.pool.findEvictionCandidate = some v) :
    v < s.pool.slots.length ∧ ∀ pid, (pid, v) ∉ s.pins := by
  obtain ⟨slot, hs, hfree⟩ := findEvictionCandidate_spec hv
  refine ⟨(List.getElem?_eq_some_iff.mp hs).1, fun pid hp => ?_⟩
  obtain ⟨slot', hs', hl, -, hpos⟩ := h.pin_slot hp
  rw [hs] at hs'
  obtain rfl := Option.some.inj hs'
  rcases hfree with hf | hf
  · rw [hl] at hf
    cases hf
  · omega

/-- A change of one slot that keeps its page, by pins, marks or stores. -/
theorem setSlot (h : PoolInv full s) {s' : PoolSession} {old : Slot} (new : Slot)
    (hold : s.pool.slots[v]? = some old) (hslots : s'.pool.slots = s.pool.slots.set v new)
    (howned : s'.owned = s.owned) (hfreed : s'.freed = s.freed)
    (hnext : s'.pool.nextPage = s.pool.nextPage)
    (hhead : s'.pool.freeListHead = s.pool.freeListHead)
    (hload : new.loaded = old.loaded) (hid : new.pageId = old.pageId)
    (hclean : new.loaded = false → new.dirty = false)
    (hpins : ∀ p i, (p, i) ≠ (old.pageId, v) → s'.pins.count (p, i) = s.pins.count (p, i))
    (hcount : new.pinCount = s'.pins.count (old.pageId, v))
    (hnew : (old.pageId, v) ∈ s'.pins →
      old.pageId ∈ s.owned ∧ s.pool.findSlot old.pageId = some v)
    (hword : old.pageId ∈ s.freed → readInt32 new.page 0 = readInt32 old.page 0) :
    PoolInv full s' := by
  have hv := (List.getElem?_eq_some_iff.mp hold).1
  have hholds (p : Int) : new.holds p = old.holds p := by rw [Slot.holds, Slot.holds, hload, hid]
  have hHolder (p : Int) (i : Nat) : Holder s'.pool.slots p i ↔ Holder s.pool.slots p i := by
    rw [hslots, holder_set hv]
    split
    · next e =>
      subst e
      rw [hholds]
      constructor
      · exact fun hh => ⟨old, hold, hh⟩
      · rintro ⟨slot, hs, hh⟩
        rw [hold] at hs
        exact Option.some.inj hs ▸ hh
    · rfl
  have hfind (p : Int) (i : Nat) : s'.pool.findSlot p = some i ↔ s.pool.findSlot p = some i := by
    simp only [findSlot_eq_some, hHolder]
  obtain ⟨l, hl1, hl2, hl3, hl4, hl5⟩ := h.list
  exact {
    ids := hnext ▸ h.ids
    range := by rw [howned, hfreed, hnext]; exact h.range
    loaded := by
      intro p i hi
      rw [hnext]
      exact h.loaded ((hHolder p i).mp hi)
    disjoint := by rw [howned, hfreed]; exact h.disjoint
    clean := by
      intro i slot hs hf
      rw [hslots, List.getElem?_set] at hs
      split at hs
      · obtain rfl := Option.some.inj hs
        exact hclean hf
      · exact h.clean hs hf
    pinCount := by
      intro i slot hs
      rw [hslots, List.getElem?_set] at hs
      split at hs
      · next e =>
        subst e
        obtain rfl := Option.some.inj hs
        rw [hid]
        exact hcount
      · next e =>
        rw [hpins _ _ fun he => e (Prod.mk.inj he).2.symm]
        exact h.pinCount hs
    handle := by
      intro p i hp
      rw [howned, hfind]
      by_cases he : (p, i) = (old.pageId, v)
      · obtain ⟨rfl, rfl⟩ := Prod.mk.inj he
        exact hnew hp
      · have hp' : (p, i) ∈ s.pins := by
          rw [← List.count_pos_iff, ← hpins p i he]
          exact List.count_pos_iff.mpr hp
        exact h.handle hp'
    one := by
      intro p i j hp hi hj
      rw [howned] at hp
      exact h.one hp ((hHolder p i).mp hi) ((hHolder p j).mp hj)
    two := by
      intro p i j k hi hj hk
      exact h.two ((hHolder p i).mp hi) ((hHolder p j).mp hj) ((hHolder p k).mp hk)
    list := by
      refine ⟨l, hl1, hfreed ▸ hl2, hhead.trans hl3, ?_, hfreed ▸ hl5⟩
      rw [hslots]
      refine hl4.set fun p hp hh => ⟨old, hold, ?_, ?_⟩
      · rw [← hholds]
        exact hh
      · rw [hholds] at hh
        exact hword ((Slot.holds_iff.mp hh).2 ▸ hl2 p hp) }

/-- A page without a slot gets the slot of a victim. -/
theorem refill (h : PoolInv full s) {s' : PoolSession} {new : Slot}
    (hv : s.pool.findEvictionCandidate = some v)
    (hslots : s'.pool.slots = s.pool.slots.set v new) (hnew : new.loaded = true)
    (hpin : new.pinCount = 0) (hpins : s'.pins = s.pins)
    (hrange : ∀ p, p ∈ s'.owned ∨ p ∈ s'.freed → 0 ≤ p ∧ p < idBound s'.pool.nextPage)
    (hnext : -2147483648 ≤ s'.pool.nextPage ∧ s'.pool.nextPage ≤ 2147483647)
    (hbound : idBound s.pool.nextPage ≤ idBound s'.pool.nextPage)
    (hid : 0 ≤ new.pageId ∧ new.pageId < idBound s'.pool.nextPage)
    (hdis : ∀ p ∈ s'.owned, p ∉ s'.freed)
    (howned : ∀ p, p ∈ s'.owned ↔ p ∈ s.owned ∨ p = new.pageId ∧ p ∈ s'.owned)
    (hone : (∀ i, ¬ Holder s.pool.slots new.pageId i) ∨
      new.pageId ∈ s'.owned ∧ new.pageId ∉ s.owned)
    (hlist : ∃ l, l.Nodup ∧ (∀ p ∈ l, p ∈ s'.freed) ∧ s'.pool.freeListHead = l.headD (-1) ∧
      Links s.pool.slots l ∧ new.pageId ∉ l ∧ (full → ∀ p ∈ s'.freed, p ∈ l)) :
    PoolInv full s' := by
  obtain ⟨hvl, hnopin⟩ := h.victim_unpinned hv
  have hholds (p : Int) : new.holds p = true ↔ new.pageId = p := by
    rw [Slot.holds_iff]
    simp [hnew]
  have hHolder (p : Int) (i : Nat) : Holder s'.pool.slots p i ↔
      if i = v then new.pageId = p else Holder s.pool.slots p i := by
    rw [hslots, holder_set hvl]
    simp only [hholds]
  have hnopin' (i : Nat) : (new.pageId, i) ∉ s.pins := by
    intro hp
    rcases hone with hno | ⟨-, hno⟩
    · exact hno i (h.holder hp)
    · exact hno (h.handle hp).1
  exact {
    ids := hnext
    range := hrange
    loaded := by
      intro p i hi
      rw [hHolder] at hi
      split at hi
      · exact hi ▸ hid
      · have := h.loaded hi
        omega
    disjoint := hdis
    clean := by
      intro i slot hs hf
      rw [hslots, List.getElem?_set] at hs
      split at hs
      · obtain rfl := Option.some.inj hs
        rw [hnew] at hf
        cases hf
      · exact h.clean hs hf
    pinCount := by
      intro i slot hs
      rw [hpins]
      rw [hslots, List.getElem?_set] at hs
      split at hs
      · next e =>
        subst e
        obtain rfl := Option.some.inj hs
        rw [hpin]
        exact (List.count_eq_zero.mpr (hnopin' v)).symm
      · exact h.pinCount hs
    handle := by
      intro p i hp
      rw [hpins] at hp
      obtain ⟨ho, hf⟩ := h.handle hp
      refine ⟨(howned p).mpr (.inl ho), ?_⟩
      obtain ⟨hh, hlow⟩ := findSlot_eq_some.mp hf
      have hne : new.pageId ≠ p := fun e => hnopin' i (e ▸ hp)
      have hiv : i ≠ v := fun e => hnopin p (e ▸ hp)
      refine findSlot_eq_some.mpr ⟨?_, fun j hj hh' => ?_⟩
      · rw [hHolder, if_neg hiv]
        exact hh
      · rw [hHolder] at hh'
        split at hh'
        · exact hne hh'
        · exact hlow j hj hh'
    one := by
      intro p i j hp hi hj
      rw [hHolder] at hi hj
      by_cases hpn : new.pageId = p
      · subst hpn
        rcases hone with hno | ⟨hmem, -⟩
        · split at hi
          · split at hj
            · omega
            · exact absurd hj (hno j)
          · exact absurd hi (hno i)
        · exact absurd hmem hp
      · have hp' : p ∉ s.owned := fun ho => hp ((howned p).mpr (.inl ho))
        split at hi
        · exact absurd hi hpn
        split at hj
        · exact absurd hj hpn
        exact h.one hp' hi hj
    two := by
      intro p i j k hi hj hk
      rw [hHolder] at hi hj hk
      by_cases hpn : new.pageId = p
      · subst hpn
        have hold : ∀ {a b}, Holder s.pool.slots new.pageId a → Holder s.pool.slots new.pageId b →
            a = b := by
          intro a b ha hb
          rcases hone with hno | ⟨-, hno⟩
          · exact absurd ha (hno a)
          · exact h.one hno ha hb
        split at hi
        · split at hj
          · omega
          split at hk
          · omega
          exact .inr (.inl (hold hj hk))
        split at hj
        · split at hk
          · omega
          exact .inr (.inr (hold hi hk))
        exact .inl (hold hi hj)
      · split at hi
        · exact absurd hi hpn
        split at hj
        · exact absurd hj hpn
        split at hk
        · exact absurd hk hpn
        exact h.two hi hj hk
    list := by
      obtain ⟨l, hl1, hl2, hl3, hl4, hl5, hl6⟩ := hlist
      refine ⟨l, hl1, hl2, hl3, ?_, hl6⟩
      rw [hslots]
      refine hl4.set fun p hp hh => ?_
      exact absurd ((hholds p).mp hh ▸ hp) hl5 }

/-- `ensure_loaded` for a page that is not free. -/
theorem ensureLoaded (h : PoolInv full s) (hr : 0 ≤ pid ∧ pid < idBound s.pool.nextPage)
    (hp : pid ∉ s.freed) (he : s.pool.ensureLoaded pid = some (idx, pool')) :
    PoolInv full { s with pool := pool' } ∧ pool'.findSlot pid = some idx ∧
      pool'.nextPage = s.pool.nextPage ∧ pool'.freeListHead = s.pool.freeListHead := by
  rw [BufferPool.ensureLoaded] at he
  split at he
  · next i hf =>
    obtain ⟨rfl, rfl⟩ := Prod.mk.inj (Option.some.inj he)
    exact ⟨h, hf, rfl, rfl⟩
  · next hf =>
    split at he
    · cases he
    · next v hv =>
      obtain ⟨rfl, rfl⟩ := Prod.mk.inj (Option.some.inj he)
      have hno := findSlot_eq_none.mp hf
      have hvl := (h.victim_unpinned hv).1
      refine ⟨?_, ?_, by simp, by simp⟩
      · refine h.refill hv refill_slots rfl rfl rfl ?_ ?_ ?_ ?_ h.disjoint (fun p => ?_) (.inl hno) ?_
        · simpa using h.range
        · simpa using h.ids
        · simp
        · simpa using hr
        · constructor
          · exact .inl
          · rintro (ho | ⟨-, ho⟩) <;> exact ho
        · obtain ⟨l, h1, h2, h3, h4, h5⟩ := h.list
          exact ⟨l, h1, h2, by simpa using h3, h4, fun hm => hp (h2 _ hm), h5⟩
      · refine findSlot_eq_some.mpr ⟨?_, fun j hj hh => ?_⟩
        · rw [refill_slots, holder_set hvl, if_pos rfl]
          simp [Slot.holds]
        · rw [refill_slots, holder_set hvl, if_neg (by omega)] at hh
          exact hno j hh

theorem pinSlot (h : PoolInv full s) (hp : pid ∈ s.owned) (hf : s.pool.findSlot pid = some idx) :
    PoolInv full { s with pool := s.pool.pinSlot idx, pins := (pid, idx) :: s.pins } := by
  obtain ⟨slot, hs, hh⟩ := (findSlot_eq_some.mp hf).1
  obtain ⟨hl, rfl⟩ := Slot.holds_iff.mp hh
  have he := slot_eq hs
  have hc : slot.loaded = false → slot.dirty = false := h.clean hs
  refine h.setSlot ({ slot with
      pinCount := slot.pinCount + 1
      lastAccess := s.pool.nextAccess }) hs ?_ rfl rfl rfl rfl rfl rfl ?_ ?_ ?_ ?_ ?_
  · simp [BufferPool.pinSlot, BufferPool.setSlot, he]
  · exact hc
  · intro p i hne
    exact List.count_cons_of_ne (fun e => hne e.symm)
  · rw [List.count_cons_self, h.pinCount hs]
  · exact fun _ => ⟨hp, hf⟩
  · exact fun _ => rfl

theorem pinned (h : PoolInv full s) (hp : pid ∈ s.owned)
    (hr : ∀ idx pool', r = some (idx, pool') → ∃ pool₁, PoolInv full { s with pool := pool₁ } ∧
      pool₁.findSlot pid = some idx ∧ pool' = pool₁.pinSlot idx) : PoolInv full (s.pinned pid r) := by
  cases r with
  | none => exact h
  | some r =>
    obtain ⟨idx, pool'⟩ := r
    obtain ⟨pool₁, h1, hf, rfl⟩ := hr idx pool' rfl
    exact h1.pinSlot hp hf

theorem pinPage (h : PoolInv full s) (hp : pid ∈ s.owned) :
    PoolInv full (s.pinned pid (s.pool.pinPage pid)) := by
  refine h.pinned hp fun idx pool' hr => ?_
  have h0 := (h.range pid (.inl hp)).1
  rw [BufferPool.pinPage, if_neg (by omega)] at hr
  obtain ⟨⟨idx', pool₁⟩, he, hr⟩ := Option.map_eq_some_iff.mp hr
  obtain ⟨rfl, rfl⟩ := Prod.mk.inj hr
  obtain ⟨h1, hf, -⟩ := h.ensureLoaded (h.range pid (.inl hp)) (h.disjoint pid hp) he
  exact ⟨pool₁, h1, hf, rfl⟩

theorem tryPin (h : PoolInv full s) (hp : pid ∈ s.owned) :
    PoolInv full (s.pinned pid (s.pool.tryPin pid)) := by
  refine h.pinned hp fun idx pool' hr => ?_
  have h0 := (h.range pid (.inl hp)).1
  rw [BufferPool.tryPin, if_neg (by omega)] at hr
  obtain ⟨idx', hf, hr⟩ := Option.map_eq_some_iff.mp hr
  obtain ⟨rfl, rfl⟩ := Prod.mk.inj hr
  exact ⟨s.pool, h, hf, rfl⟩

/-- A change of the dirty flag or, on a page in use, of the bytes. -/
theorem touch (h : PoolInv full s) {s' : PoolSession} {old : Slot} (new : Slot)
    (hold : s.pool.slots[v]? = some old) (hslots : s'.pool.slots = s.pool.slots.set v new)
    (howned : s'.owned = s.owned) (hfreed : s'.freed = s.freed) (hpins : s'.pins = s.pins)
    (hnext : s'.pool.nextPage = s.pool.nextPage)
    (hhead : s'.pool.freeListHead = s.pool.freeListHead)
    (hload : new.loaded = old.loaded) (hid : new.pageId = old.pageId)
    (hcount : new.pinCount = old.pinCount) (hclean : new.loaded = false → new.dirty = false)
    (hword : old.pageId ∈ s.freed → readInt32 new.page 0 = readInt32 old.page 0) :
    PoolInv full s' := by
  refine h.setSlot new hold hslots howned hfreed hnext hhead hload hid hclean ?_ ?_ ?_ hword
  · intro p i _
    rw [hpins]
  · rw [hcount, hpins]
    exact h.pinCount hold
  · intro hm
    rw [hpins] at hm
    exact h.handle hm

theorem markDirty (h : PoolInv full s) : PoolInv full { s with pool := s.pool.markDirty p } := by
  rw [BufferPool.markDirty]
  split
  · exact h
  split
  · exact h
  · next idx hf =>
    obtain ⟨slot, hs, hh⟩ := (findSlot_eq_some.mp hf).1
    have hl := (Slot.holds_iff.mp hh).1
    refine h.touch ({ slot with dirty := true }) hs ?_ rfl rfl rfl rfl rfl rfl rfl rfl ?_
      fun _ => rfl
    · simp [BufferPool.setSlot, slot_eq hs]
    · intro hfalse
      rw [hl] at hfalse
      cases hfalse

theorem storePage (h : PoolInv full s) (hp : (pid, idx) ∈ s.pins) (page : PageBuffer) :
    PoolInv full { s with pool := s.pool.storePage idx page } := by
  obtain ⟨slot, hs, hl, rfl, -⟩ := h.pin_slot hp
  have hc : slot.loaded = false → slot.dirty = false := h.clean hs
  refine h.touch ({ slot with page := page }) hs ?_ rfl rfl rfl rfl rfl rfl rfl rfl ?_ ?_
  · simp [BufferPool.storePage, BufferPool.setSlot, slot_eq hs]
  · exact hc
  · exact fun hm => absurd hm (h.disjoint _ (h.handle hp).1)

theorem flushSlot (h : PoolInv full s) (idx : Nat) : PoolInv full { s with pool := s.pool.flushSlot idx } := by
  rw [BufferPool.flushSlot]
  split
  · next hd =>
    cases hs : s.pool.slots[idx]? with
    | none =>
      rw [BufferPool.slot, List.getD_eq_getElem?_getD, hs] at hd
      cases hd.1
    | some slot =>
      refine h.touch ({ slot with dirty := false }) hs ?_ rfl rfl rfl ?_ ?_ rfl rfl rfl
        (fun _ => rfl) fun _ => rfl
      · simp [BufferPool.setSlot, slot_eq hs]
      · simp [BufferPool.setSlot]
      · simp [BufferPool.setSlot]
  · exact h

theorem flushPage (h : PoolInv full s) : PoolInv full { s with pool := s.pool.flushPage pid } := by
  rw [BufferPool.flushPage]
  split
  · exact h
  split
  · exact h
  · exact h.flushSlot _

theorem flushAll (h : PoolInv full s) : PoolInv full { s with pool := s.pool.flushAll } := by
  rw [BufferPool.flushAll]
  generalize List.range s.pool.slots.length = is
  induction is generalizing s with
  | nil => exact h
  | cons i is ih => exact ih (s := { s with pool := s.pool.flushSlot i }) (h.flushSlot i)

theorem releasePage (h : PoolInv full s) (hp : (pid, idx) ∈ s.pins) :
    PoolInv full { s with pool := s.pool.releasePage pid, pins := s.pins.erase (pid, idx) } := by
  obtain ⟨slot, hs, hl, rfl, hpos⟩ := h.pin_slot hp
  have hf := (h.handle hp).2
  have h0 : ¬ slot.pageId < 0 := by
    have := (h.range _ (.inl (h.handle hp).1)).1
    omega
  have hc : slot.loaded = false → slot.dirty = false := h.clean hs
  refine h.setSlot ({ slot with pinCount := slot.pinCount - 1 }) hs ?_ rfl rfl ?_ ?_ rfl rfl
    ?_ ?_ ?_ ?_ fun _ => rfl
  · simp [BufferPool.releasePage, h0, hf, slot_eq hs, hpos, BufferPool.setSlot]
  · simp [BufferPool.releasePage, h0, hf, slot_eq hs, hpos, BufferPool.setSlot]
  · simp [BufferPool.releasePage, h0, hf, slot_eq hs, hpos, BufferPool.setSlot]
  · exact hc
  · intro p i hne
    exact List.count_erase_of_ne hne
  · rw [List.count_erase_self, ← h.pinCount hs]
  · intro hm
    exact h.handle (List.mem_of_mem_erase hm)

/-- The pages of the free list after its head, as `garry_pool_allocate` finds them: none when the head
is not cached. -/
theorem nextFree (h : PoolInv full s) (hhead : 0 ≤ s.pool.freeListHead) :
    s.pool.freeListHead ∈ s.freed ∧ ∃ l, l.Nodup ∧ (∀ q ∈ l, q ∈ s.freed.erase s.pool.freeListHead) ∧
      s.pool.nextFree s.pool.freeListHead = l.headD (-1) ∧ Links s.pool.slots l ∧
      (full → s.KeepsFree .allocate → ∀ q ∈ s.freed.erase s.pool.freeListHead, q ∈ l) := by
  obtain ⟨l, hl1, hl2, hl3, hl4, hl5⟩ := h.list
  cases l with
  | nil =>
    rw [hl3] at hhead
    exact absurd hhead (by decide)
  | cons p l =>
    obtain ⟨hpl, hl1⟩ := List.nodup_cons.mp hl1
    have hp : s.pool.freeListHead = p := hl3
    refine ⟨hp ▸ hl2 p (by simp), ?_⟩
    cases hf : s.pool.findSlot p with
    | none =>
      refine ⟨[], List.nodup_nil, by simp, by rw [BufferPool.nextFree, hp, hf]; rfl, trivial, ?_⟩
      intro _ hk q hq
      rcases (hk hhead).2 with hc | hc
      · exact absurd (hp ▸ hf) hc
      · rw [hc, Finset.erase_singleton] at hq
        exact absurd hq (Finset.notMem_empty q)
    | some i =>
      obtain ⟨slot, hs, hh⟩ := (findSlot_eq_some.mp hf).1
      refine ⟨l, hl1, fun q hq => ?_, ?_, hl4.2, fun hfull _ q hq => ?_⟩
      · refine Finset.mem_erase.mpr ⟨?_, hl2 q (by simp [hq])⟩
        rintro rfl
        exact hpl (hp ▸ hq)
      · rw [BufferPool.nextFree, hp, hf]
        simp only [slot_eq hs]
        exact hl4.1 i slot hs hh
      · obtain ⟨hne, hqf⟩ := Finset.mem_erase.mp hq
        rcases List.mem_cons.mp (hl5 hfull q hqf) with rfl | hql
        · exact absurd hp.symm hne
        · exact hql

theorem nextFree_ne (h : PoolInv full s) (hhead : 0 ≤ s.pool.freeListHead) :
    s.pool.nextFree s.pool.freeListHead ≠ s.pool.freeListHead := by
  obtain ⟨-, l, -, hl, hnext, -⟩ := h.nextFree hhead
  rw [hnext]
  cases l with
  | nil => exact fun he => absurd (he ▸ hhead) (by decide)
  | cons q l => exact (Finset.mem_erase.mp (hl q (by simp))).1

/-- When all free pages are listed and there is one, the list has a head. -/
theorem head_nonneg (h : PoolInv True s) (hp : p ∈ s.freed) : 0 ≤ s.pool.freeListHead := by
  obtain ⟨l, -, hl, hhead, -, hfull⟩ := h.list
  rw [hhead]
  cases l with
  | nil => exact absurd (hfull trivial p hp) List.not_mem_nil
  | cons q l => exact (h.range q (.inr (hl q (by simp)))).1

/-- A page that is not in use, the head of the free list or the next new one, gets the victim's slot
and is in use. -/
theorem handOut (h : PoolInv full s) {pool : BufferPool}
    (hv : s.pool.findEvictionCandidate = some v) (hslots : pool.slots = s.pool.slots)
    (hp : 0 ≤ pid ∧ pid < idBound pool.nextPage) (hpo : pid ∉ s.owned)
    (hnext : -2147483648 ≤ pool.nextPage ∧ pool.nextPage ≤ 2147483647)
    (hbound : idBound s.pool.nextPage ≤ idBound pool.nextPage)
    (hlist : ∃ l, l.Nodup ∧ (∀ q ∈ l, q ∈ s.freed.erase pid) ∧ pool.freeListHead = l.headD (-1) ∧
      Links s.pool.slots l ∧ (full → ∀ q ∈ s.freed.erase pid, q ∈ l)) :
    PoolInv full { s with
      pool := pool.refill v pid fun _ => 0
      owned := insert pid s.owned
      freed := s.freed.erase pid
      contents := c } := by
  have hslots' : (pool.refill v pid fun _ => 0).slots =
      s.pool.slots.set v ⟨true, pid, false, 0, pool.nextAccess, fun _ => 0⟩ := by
    rw [refill_slots, hslots]
  refine h.refill hv hslots' rfl rfl rfl ?_ ?_ ?_ ?_ ?_ ?_ (.inr ⟨?_, hpo⟩) ?_
  · intro q hq
    rw [refill_nextPage]
    rcases hq with hq | hq
    · rcases Finset.mem_insert.mp hq with rfl | hq
      · exact hp
      · have := h.range q (.inl hq)
        omega
    · have := h.range q (.inr (Finset.mem_erase.mp hq).2)
      omega
  · rw [refill_nextPage]
    exact hnext
  · rw [refill_nextPage]
    exact hbound
  · rw [refill_nextPage]
    exact hp
  · intro q hq hqf
    obtain ⟨hne, hqf⟩ := Finset.mem_erase.mp hqf
    rcases Finset.mem_insert.mp hq with rfl | hq
    · exact hne rfl
    · exact h.disjoint q hq hqf
  · intro q
    rw [Finset.mem_insert]
    tauto
  · exact Finset.mem_insert_self ..
  · obtain ⟨l, h1, h2, h3, h4, h5⟩ := hlist
    refine ⟨l, h1, h2, ?_, h4, fun hm => (Finset.mem_erase.mp (h2 pid hm)).1 rfl, h5⟩
    rw [refill_freeListHead]
    exact h3

/-- No page has the id that is given out next. -/
theorem ne_nextPage (h : PoolInv full s) (hn : 0 ≤ s.pool.nextPage)
    (hq : q ∈ s.owned ∨ q ∈ s.freed) : q ≠ s.pool.nextPage := by
  have := h.range q hq
  rw [idBound, if_neg (by omega)] at this
  omega

/-- `garry_pool_allocate`: it returns a free page or the next new one, and the session goes on with
that page in use. -/
theorem allocate (h : PoolInv full s) (hk : full → s.KeepsFree .allocate)
    (he : s.pool.allocate = (pid, pool')) :
    if pid < 0 then PoolInv full { s with pool := pool' }
    else pid ∉ s.owned ∧ PoolInv full { s with
      pool := pool'
      owned := insert pid s.owned
      freed := s.freed.erase pid
      contents := c } := by
  rcases allocate_cases he with ⟨rfl, hhead, hv, rfl⟩ | ⟨rfl, -, -, rfl⟩ |
    ⟨v, hhead, rfl, hv, rfl⟩ | ⟨v, hhead, hn, rfl, hv, rfl⟩
  · rw [if_pos (by decide)]
    obtain ⟨-, l, h1, h2, h3, h4, h5⟩ := h.nextFree hhead
    exact { h with
      list := by
        refine ⟨l, h1, fun q hq => (Finset.mem_erase.mp (h2 q hq)).2, h3, h4, fun hfull => ?_⟩
        exact absurd hv (hk hfull hhead).1 }
  · rw [if_pos (by decide)]
    exact h
  · rw [if_neg (by omega)]
    obtain ⟨hf, l, h1, h2, h3, h4, h5⟩ := h.nextFree hhead
    have hpo : s.pool.freeListHead ∉ s.owned := fun ho => h.disjoint _ ho hf
    refine ⟨hpo, h.handOut hv rfl (h.range _ (.inr hf)) hpo h.ids le_rfl ?_⟩
    exact ⟨l, h1, h2, h3, h4, fun hfull => h5 hfull (hk hfull)⟩
  · rw [if_neg (by omega)]
    have hpo : s.pool.nextPage ∉ s.owned := fun ho => h.ne_nextPage hn (.inl ho) rfl
    have hpf : s.pool.nextPage ∉ s.freed := fun hf => h.ne_nextPage hn (.inr hf) rfl
    have hids := h.ids
    refine ⟨hpo, h.handOut hv rfl ?_ hpo ?_ ?_ ?_⟩
    · refine ⟨hn, ?_⟩
      simp only [idBound, succPage]
      grind
    · simp only [succPage]
      split <;> omega
    · simp only [idBound, succPage]
      grind
    · obtain ⟨l, hl1, hl2, hl3, hl4, hl5⟩ := h.list
      rw [Finset.erase_eq_of_notMem hpf]
      exact ⟨l, hl1, hl2, hl3, hl4, hl5⟩

/-- A page leaves the pages in use and its first slot. -/
theorem dropPage (h : PoolInv full s) (hp : pid ∈ s.owned) :
    PoolInv full { s with
      pool := s.pool.dropPage pid
      owned := s.owned.erase pid
      pins := s.pins.filter fun p => p.1 ≠ pid } ∧
    (s.pool.dropPage pid).nextPage = s.pool.nextPage ∧
      (s.pool.dropPage pid).freeListHead = s.pool.freeListHead := by
  have hcount (p : Int) (i : Nat) (hne : p ≠ pid) :
      (s.pins.filter fun p => p.1 ≠ pid).count (p, i) = s.pins.count (p, i) :=
    List.count_filter (by simpa using hne)
  have hgone (i : Nat) : (s.pins.filter fun p => p.1 ≠ pid).count (pid, i) = 0 :=
    List.count_eq_zero.mpr fun hm => by simpa using (List.mem_filter.mp hm).2
  have hrange : ∀ p, p ∈ s.owned.erase pid ∨ p ∈ s.freed →
      0 ≤ p ∧ p < idBound s.pool.nextPage :=
    fun p hp => h.range p (hp.imp_left fun h => (Finset.mem_erase.mp h).2)
  have hdis : ∀ p ∈ s.owned.erase pid, p ∉ s.freed :=
    fun p hp => h.disjoint p (Finset.mem_erase.mp hp).2
  rw [BufferPool.dropPage]
  split
  · next hf =>
    have hno := findSlot_eq_none.mp hf
    refine ⟨?_, rfl, rfl⟩
    exact {
      ids := h.ids
      range := hrange
      loaded := h.loaded
      disjoint := hdis
      clean := h.clean
      pinCount := by
        intro i slot hs
        by_cases hne : slot.pageId = pid
        · rw [hne, hgone, h.pinCount hs, hne]
          exact List.count_eq_zero.mpr fun hm => hno i (h.holder hm)
        · rw [hcount _ _ hne]
          exact h.pinCount hs
      handle := by
        intro p i hm
        obtain ⟨hm, hne⟩ := List.mem_filter.mp hm
        obtain ⟨ho, hf⟩ := h.handle hm
        exact ⟨Finset.mem_erase.mpr ⟨by simpa using hne, ho⟩, hf⟩
      one := by
        intro p i j hp hi hj
        by_cases hne : p = pid
        · subst hne
          exact absurd hi (hno i)
        · exact h.one (fun ho => hp (Finset.mem_erase.mpr ⟨hne, ho⟩)) hi hj
      two := h.two
      list := h.list }
  · next idx hf =>
    obtain ⟨⟨slot, hs, hh⟩, hlow⟩ := findSlot_eq_some.mp hf
    have hidx := (List.getElem?_eq_some_iff.mp hs).1
    obtain ⟨hl, rfl⟩ := Slot.holds_iff.mp hh
    have hslots : ((s.pool.writeBack idx).setSlot idx { s.pool.slot idx with
          loaded := false, pinCount := 0, dirty := false }).slots =
        s.pool.slots.set idx { slot with loaded := false, pinCount := 0, dirty := false } := by
      simp [BufferPool.setSlot, slot_eq hs]
    have hnext : ((s.pool.writeBack idx).setSlot idx { s.pool.slot idx with
        loaded := false, pinCount := 0, dirty := false }).nextPage = s.pool.nextPage := by
      simp [BufferPool.setSlot]
    have hhead : ((s.pool.writeBack idx).setSlot idx { s.pool.slot idx with
        loaded := false, pinCount := 0, dirty := false }).freeListHead = s.pool.freeListHead := by
      simp [BufferPool.setSlot]
    refine ⟨?_, hnext, hhead⟩
    generalize (s.pool.writeBack idx).setSlot idx { s.pool.slot idx with
      loaded := false, pinCount := 0, dirty := false } = pool' at hslots hnext hhead ⊢
    have hHolder (p : Int) (i : Nat) : Holder pool'.slots p i ↔
        i ≠ idx ∧ Holder s.pool.slots p i := by
      rw [hslots, holder_set hidx]
      split
      · next hi => simp [Slot.holds, hi]
      · next hi => simp [hi]
    exact {
      ids := hnext ▸ h.ids
      range := hnext ▸ hrange
      loaded := by
        intro p i hi
        rw [hnext]
        exact h.loaded ((hHolder p i).mp hi).2
      disjoint := hdis
      clean := by
        intro i sl hi hf'
        rw [hslots, List.getElem?_set] at hi
        split at hi
        · obtain rfl := Option.some.inj hi
          rfl
        · exact h.clean hi hf'
      pinCount := by
        intro i sl hi
        rw [hslots, List.getElem?_set] at hi
        split at hi
        · obtain rfl := Option.some.inj hi
          exact (hgone i).symm
        · next hne =>
          by_cases hpid : sl.pageId = slot.pageId
          · rw [hpid, hgone, h.pinCount hi, hpid]
            refine List.count_eq_zero.mpr fun hm => hne ?_
            have := (h.handle hm).2
            rw [hf] at this
            exact Option.some.inj this
          · rw [hcount _ _ hpid]
            exact h.pinCount hi
      handle := by
        intro p i hm
        obtain ⟨hm, hne⟩ := List.mem_filter.mp hm
        have hne : p ≠ slot.pageId := by simpa using hne
        obtain ⟨ho, hfp⟩ := h.handle hm
        obtain ⟨hhp, hlowp⟩ := findSlot_eq_some.mp hfp
        refine ⟨Finset.mem_erase.mpr ⟨hne, ho⟩, findSlot_eq_some.mpr ⟨?_, fun j hj hh' => ?_⟩⟩
        · refine (hHolder p i).mpr ⟨?_, hhp⟩
          rintro rfl
          obtain ⟨sl, hsl, hhl⟩ := hhp
          rw [hs] at hsl
          obtain rfl := Option.some.inj hsl
          exact hne (Slot.holds_iff.mp hhl).2.symm
        · exact hlowp j hj ((hHolder p j).mp hh').2
      one := by
        intro p i j hp' hi hj
        obtain ⟨hii, hi⟩ := (hHolder p i).mp hi
        obtain ⟨hjj, hj⟩ := (hHolder p j).mp hj
        by_cases hne : p = slot.pageId
        · -- One of at most two slots of the page has gone.
          subst hne
          rcases h.two hi hj ⟨slot, hs, hh⟩ with e | e | e
          · exact e
          · exact absurd e hjj
          · exact absurd e hii
        · exact h.one (fun ho => hp' (Finset.mem_erase.mpr ⟨hne, ho⟩)) hi hj
      two := by
        intro p i j k hi hj hk
        exact h.two ((hHolder p i).mp hi).2 ((hHolder p j).mp hj).2 ((hHolder p k).mp hk).2
      list := by
        obtain ⟨l, h1, h2, h3, h4, h5⟩ := h.list
        refine ⟨l, h1, h2, hhead.trans h3, ?_, h5⟩
        rw [hslots]
        refine h4.set fun p _ hp' => ?_
        simp [Slot.holds] at hp' }

theorem range_lt (h : PoolInv full s) (hp : p ∈ s.owned ∨ p ∈ s.freed) :
    0 ≤ p ∧ p < 2147483648 := by
  have hr := h.range p hp
  have hids := h.ids
  rw [idBound] at hr
  split at hr <;> omega

/-- The head of the free list fits its field. -/
theorem head_fits (h : PoolInv full s) : Fits32 s.pool.freeListHead := by
  obtain ⟨l, -, hl, hhead, -⟩ := h.list
  rw [hhead]
  cases l with
  | nil => exact ⟨by decide, by decide⟩
  | cons p l =>
    have := h.range_lt (.inr (hl p (by simp)))
    exact ⟨by simp only [List.headD_cons]; omega, by simp only [List.headD_cons]; omega⟩

/-- A page that is no longer in use becomes the head of the free list, with the old head in its
first word where it is cached. -/
theorem pushFree (h : PoolInv full s) (hr : 0 ≤ pid ∧ pid < idBound s.pool.nextPage) (ho : pid ∉ s.owned)
    (hf : pid ∉ s.freed)
    (hword : ∀ (i : Nat) (slot : Slot), s.pool.slots[i]? = some slot → slot.holds pid = true →
      readInt32 slot.page 0 = s.pool.freeListHead) :
    PoolInv full { s with
      pool := { s.pool with freeListHead := pid }
      freed := insert pid s.freed } := by
  obtain ⟨l, hl1, hl2, hl3, hl4, hl5⟩ := h.list
  exact { h with
    range := by
      intro p hp
      rcases hp with hp | hp
      · exact h.range p (.inl hp)
      · rcases Finset.mem_insert.mp hp with rfl | hp
        · exact hr
        · exact h.range p (.inr hp)
    disjoint := by
      intro p hp hpf
      rcases Finset.mem_insert.mp hpf with rfl | hpf
      · exact ho hp
      · exact h.disjoint p hp hpf
    list := by
      refine ⟨pid :: l, List.nodup_cons.mpr ⟨fun hm => hf (hl2 pid hm), hl1⟩, ?_, rfl,
        ⟨?_, hl4⟩, ?_⟩
      · intro p hp
        rcases List.mem_cons.mp hp with rfl | hp
        · exact Finset.mem_insert_self ..
        · exact Finset.mem_insert_of_mem (hl2 p hp)
      · intro i slot hs hh
        rw [hword i slot hs hh]
        exact hl3
      · intro hfull p hp
        rcases Finset.mem_insert.mp hp with rfl | hp
        · exact List.mem_cons_self ..
        · exact List.mem_cons_of_mem _ (hl5 hfull p hp) }

/-- `garry_pool_free_page` on a page in use puts it at the head of the free list. -/
theorem freePage (h : PoolInv full s) (hp : pid ∈ s.owned) :
    PoolInv full { s with
      pool := s.pool.freePage pid
      owned := s.owned.erase pid
      freed := insert pid s.freed
      pins := s.pins.filter fun p => p.1 ≠ pid } := by
  have hr := h.range pid (.inl hp)
  have hpf := h.disjoint pid hp
  have hpo : pid ∉ s.owned.erase pid := fun hm => (Finset.mem_erase.mp hm).1 rfl
  obtain ⟨h1, hn1, hh1⟩ := h.dropPage hp
  rw [BufferPool.freePage, if_neg (by omega)]
  simp only
  cases he : (s.pool.dropPage pid).ensureLoaded pid with
  | none =>
    refine h1.pushFree (hn1 ▸ hr) hpo hpf fun i slot hs hh => ?_
    -- A page in a slot is found.
    rw [BufferPool.ensureLoaded] at he
    split at he
    · cases he
    · next hf => exact absurd ⟨slot, hs, hh⟩ (findSlot_eq_none.mp hf i)
  | some r =>
    obtain ⟨idx, pool⟩ := r
    obtain ⟨h2, hf, hn2, hh2⟩ := h1.ensureLoaded (hn1 ▸ hr) hpf he
    obtain ⟨slot, hs, hh⟩ := (findSlot_eq_some.mp hf).1
    obtain ⟨hl, hid⟩ := Slot.holds_iff.mp hh
    have hidx := (List.getElem?_eq_some_iff.mp hs).1
    have hslots : (pool.linkFree idx).slots = pool.slots.set idx { slot with
        page := writeInt32 slot.page 0 pool.freeListHead, dirty := true } := by
      simp [BufferPool.linkFree, BufferPool.setSlot, slot_eq hs]
    have hfits : Fits32 pool.freeListHead := by
      rw [hh2, hh1]
      exact h.head_fits
    have h3 : PoolInv full { s with
        pool := pool.linkFree idx
        owned := s.owned.erase pid
        pins := s.pins.filter fun p => p.1 ≠ pid } := by
      refine h2.touch _ hs hslots rfl rfl rfl rfl rfl rfl rfl rfl ?_ ?_
      · intro hfalse
        rw [hl] at hfalse
        cases hfalse
      · intro hm
        rw [hid] at hm
        exact absurd hm hpf
    refine h3.pushFree ?_ hpo hpf fun i sl hi hh' => ?_
    · show 0 ≤ pid ∧ pid < idBound pool.nextPage
      rw [hn2, hn1]
      exact hr
    · have hi : (pool.linkFree idx).slots[i]? = some sl := hi
      rw [hslots, List.getElem?_set] at hi
      split at hi
      · obtain rfl := Option.some.inj hi
        exact readInt32_writeInt32 _ _ hfits
      · next hne => exact absurd (h2.one hpo ⟨slot, hs, hh⟩ ⟨sl, hi, hh'⟩) hne

theorem reopen (h : PoolInv full s) (capacity : Nat) :
    PoolInv full { s with pool := s.pool.reopen capacity, pins := [] } := by
  have hunused {i : Nat} {slot : Slot} (hs : (s.pool.reopen capacity).slots[i]? = some slot) :
      slot = Slot.unused := by
    simp only [BufferPool.reopen, BufferPool.create] at hs
    exact List.eq_of_mem_replicate (List.mem_of_getElem? hs)
  have hno (p : Int) (i : Nat) : ¬ Holder (s.pool.reopen capacity).slots p i := by
    rintro ⟨slot, hs, hh⟩
    rw [hunused hs] at hh
    cases hh
  obtain ⟨l, h1, h2, h3, h4, h5⟩ := h.list
  exact { h with
    loaded := fun hi => absurd hi (hno _ _)
    clean := by
      intro i slot hs _
      rw [hunused hs]
      rfl
    pinCount := by
      intro i slot hs
      rw [hunused hs]
      rfl
    handle := by
      intro p i hm
      cases hm
    one := fun _ hi _ => absurd hi (hno _ _)
    two := fun hi _ _ => absurd hi (hno _ _)
    list := by
      refine ⟨l, h1, h2, h3, h4.mono fun i slot hs hl => ?_, h5⟩
      rw [hunused hs] at hl
      cases hl }

end PoolInv

/-! ## Runs -/

/-- A call keeps the invariant. -/
theorem PoolInv.step (h : PoolInv full s) (ha : s.Allowed op) (hk : full → s.KeepsFree op) :
    PoolInv full (s.step op) := by
  cases op with
  | allocate =>
    cases he : s.pool.allocate with
    | mk pid pool =>
      have := h.allocate (c := Function.update s.contents pid fun _ => 0) hk he
      simp only [PoolSession.step, he]
      split at this
      · next hneg =>
        rw [if_pos hneg]
        exact this
      · next hneg =>
        rw [if_neg hneg]
        exact this.2
  | pin pid => exact h.pinPage ha
  | tryPin pid => exact h.tryPin ha
  | write pid idx page => exact { h.storePage ha page with }
  | markDirty pid => exact h.markDirty
  | update pid idx page =>
    have hm := (h.storePage ha page).markDirty (p := pid)
    exact { hm with }
  | release pid =>
    obtain ⟨⟨pid, idx⟩, hp, rfl⟩ := List.mem_map.mp ha
    have := h.releasePage hp
    simp only [PoolSession.step, (h.handle hp).2]
    exact this
  | flush pid => exact h.flushPage
  | flushAll => exact h.flushAll
  | free pid => exact h.freePage ha
  | reopen capacity => exact h.reopen capacity

theorem PoolInv.run {P : PoolSession → PoolOp → Prop} (h : PoolInv full s)
    (hP : ∀ s op, P s op → s.Allowed op ∧ (full → s.KeepsFree op)) (hr : s.Run P s') : PoolInv full s' := by
  induction hr with
  | refl => exact h
  | step _ ha ih => exact ih.step (hP _ _ ha).1 (hP _ _ ha).2

theorem PoolInv.start (file : DataFile) (capacity pageSize : Nat) (hn : next ≤ 2147483647) :
    PoolInv full (PoolSession.start file capacity pageSize next) := by
  have hunused {i : Nat} {slot : Slot}
      (hs : (PoolSession.start file capacity pageSize next).pool.slots[i]? = some slot) :
      slot = Slot.unused := by
    simp only [PoolSession.start, BufferPool.create] at hs
    exact List.eq_of_mem_replicate (List.mem_of_getElem? hs)
  have hno (p : Int) (i : Nat) :
      ¬ Holder (PoolSession.start file capacity pageSize next).pool.slots p i := by
    rintro ⟨slot, hs, hh⟩
    rw [hunused hs] at hh
    cases hh
  exact {
    ids := by
      show -2147483648 ≤ (next : Int) ∧ (next : Int) ≤ 2147483647
      omega
    loaded := fun hi => absurd hi (hno _ _)
    range := by
      intro p hp
      show 0 ≤ p ∧ p < idBound next
      rw [idBound, if_neg (by omega)]
      simp only [PoolSession.start, List.mem_toFinset, List.mem_map, List.mem_range,
        Finset.notMem_empty, or_false] at hp
      obtain ⟨n, hn, rfl⟩ := hp
      simp only [Int.ofNat_eq_natCast]
      omega
    disjoint := fun p _ => Finset.notMem_empty p
    clean := by
      intro i slot hs _
      rw [hunused hs]
      rfl
    pinCount := by
      intro i slot hs
      rw [hunused hs]
      rfl
    handle := by
      intro p i hm
      cases hm
    one := fun _ hi _ => absurd hi (hno _ _)
    two := fun hi _ _ => absurd hi (hno _ _)
    list := ⟨[], List.nodup_nil, by simp, rfl, trivial, fun _ p hp => absurd hp (Finset.notMem_empty p)⟩ }

/-- In every session of the pool, on any file, with any capacity, evictions and reopenings, an
allocation returns a page that is not in use. -/
theorem poolAllocate_fresh (file : DataFile) (capacity pageSize next : Nat)
    (hn : next ≤ 2147483647)
    (hr : (PoolSession.start file capacity pageSize next).Run PoolSession.Allowed s)
    (he : s.pool.allocate = (pid, pool')) (h0 : 0 ≤ pid) :
    pid ∉ s.owned := by
  have h : PoolInv False s :=
    (PoolInv.start file capacity pageSize hn).run (fun _ _ ha => ⟨ha, False.elim⟩) hr
  have := h.allocate (c := s.contents) False.elim he
  rw [if_neg (by omega)] at this
  exact this.1

theorem poolAllocate_fresh_reuse :
    0 ∉ ((PoolSession.start .empty 2 512 0).steps [.allocate, .free 0]).owned :=
  poolAllocate_fresh (s := (PoolSession.start .empty 2 512 0).steps [.allocate, .free 0])
    .empty 2 512 0 (by decide) (PoolSession.Run.refl.steps (by decide))
    (Prod.ext (by decide) rfl) (by decide)

/-- Where every allocation keeps the free list, one takes a free page as long as there is any, and
one that fails changes nothing; the condition is the one under which an allocation keeps the list:
it changes nothing when it fails, and pages that remain free are listed. -/
theorem poolAllocate_reuses (file : DataFile) (capacity pageSize next : Nat)
    (hn : next ≤ 2147483647)
    (hr : (PoolSession.start file capacity pageSize next).Run
      (fun s op => s.Allowed op ∧ s.KeepsFree op) s)
    (he : s.pool.allocate = (pid, pool')) :
    (s.KeepsFree .allocate →
      (s.freed.Nonempty → pid ∈ s.freed ∧ pool'.nextPage = s.pool.nextPage) ∧
        (pid = -1 → pool' = s.pool)) ∧
    (s.KeepsFree .allocate ↔
      (pid = -1 → pool' = s.pool) ∧ ((s.freed.erase pid).Nonempty → 0 ≤ pool'.freeListHead)) := by
  have h : PoolInv True s :=
    (PoolInv.start file capacity pageSize hn).run (fun _ _ ha => ⟨ha.1, fun _ => ha.2⟩) hr
  have hempty (hhead : s.pool.freeListHead < 0) : ¬ s.freed.Nonempty := by
    rintro ⟨p, hp⟩
    have := h.head_nonneg hp
    omega
  rcases allocate_cases he with ⟨rfl, hhead, hv, rfl⟩ | ⟨rfl, hhead, -, rfl⟩ |
    ⟨v, hhead, rfl, hv, rfl⟩ | ⟨v, hhead, hn, rfl, hv, rfl⟩
  · have hno : ¬ s.KeepsFree .allocate := fun hk => (hk hhead).1 hv
    refine ⟨fun hk => absurd hk hno, fun hk => absurd hk hno, fun hs => ?_⟩
    -- The head of the list has moved.
    exact absurd (congrArg BufferPool.freeListHead (hs.1 rfl)) (h.nextFree_ne hhead)
  · have hk : s.KeepsFree .allocate := fun h0 => by omega
    refine ⟨fun _ => ⟨fun hf => absurd hf (hempty hhead), fun _ => rfl⟩, fun _ => ⟨fun _ => rfl, ?_⟩,
      fun _ => hk⟩
    rintro ⟨p, hp⟩
    exact absurd ⟨p, (Finset.mem_erase.mp hp).2⟩ (hempty hhead)
  · obtain ⟨hf, l, -, hl, hnext, -, hfull⟩ := h.nextFree hhead
    refine ⟨fun _ => ⟨fun _ => ⟨hf, refill_nextPage⟩, fun hneg => by omega⟩, fun hk => ?_, fun hs => ?_⟩
    · refine ⟨fun hneg => by omega, ?_⟩
      rintro ⟨p, hp⟩
      rw [refill_freeListHead]
      show 0 ≤ s.pool.nextFree s.pool.freeListHead
      rw [hnext]
      cases l with
      | nil => exact absurd (hfull trivial hk p hp) List.not_mem_nil
      | cons q l => exact (h.range q (.inr (Finset.mem_erase.mp (hl q (by simp))).2)).1
    · intro _
      refine ⟨by rw [hv]; exact Option.some_ne_none v, ?_⟩
      by_contra hc
      obtain ⟨hnone, hne⟩ := not_or.mp hc
      have hnone : s.pool.findSlot s.pool.freeListHead = none := not_not.mp hnone
      -- Another page is free, and the list ends.
      have hmore : (s.freed.erase s.pool.freeListHead).Nonempty := by
        rw [Finset.nonempty_iff_ne_empty]
        exact fun he => (Finset.erase_eq_empty_iff _ _ |>.mp he).elim
          (fun he => absurd hf (he ▸ Finset.notMem_empty _)) hne
      have hlast : s.pool.nextFree s.pool.freeListHead = -1 := by
        rw [BufferPool.nextFree, hnone]
      have := hs.2 hmore
      rw [refill_freeListHead] at this
      have : 0 ≤ s.pool.nextFree s.pool.freeListHead := this
      omega
  · have hk : s.KeepsFree .allocate := fun h0 => by omega
    refine ⟨fun _ => ⟨fun hf => absurd hf (hempty hhead), fun hneg => by omega⟩,
      fun _ => ⟨fun hneg => by omega, ?_⟩, fun _ => hk⟩
    rintro ⟨p, hp⟩
    exact absurd ⟨p, (Finset.mem_erase.mp hp).2⟩ (hempty hhead)

theorem poolAllocate_reuses_one :
    0 ∈ ((PoolSession.start .empty 2 512 0).steps [.allocate, .free 0]).freed ∧
      ((PoolSession.start .empty 2 512 0).steps [.allocate, .free 0]).pool.allocate.2.nextPage = 1 :=
  ((poolAllocate_reuses (s := (PoolSession.start .empty 2 512 0).steps [.allocate, .free 0])
    .empty 2 512 0 (by decide) (PoolSession.Run.refl.steps (by decide))
    (Prod.ext (by decide) rfl)).1 (by decide)).1 ⟨0, by decide⟩

/-- With one slot, three pages freed and two of them handed out again, the first one is lost. -/
theorem poolAllocate_loses_free : ∃ s : PoolSession,
    (PoolSession.start .empty 1 512 0).Run PoolSession.Allowed s ∧ 0 ∈ s.freed ∧
      s.pool.allocate.1 ∉ s.freed ∧ s.pool.allocate.2.nextPage = s.pool.nextPage + 1 :=
  ⟨(PoolSession.start .empty 1 512 0).steps
      [.allocate, .allocate, .allocate, .free 0, .free 1, .free 2, .allocate, .allocate],
    PoolSession.Run.refl.steps (by decide), by decide, by decide, by decide⟩

end Garry
