import Mathlib.Tactic.Common

/-!
# Parsers with panics

A parser takes a position of its input and comes to a value and the position behind it, to an error, or
to a panic. `Reads` says which inputs a parser takes, by a grammar, and on which it panics, and is built
up along the parser.
-/

namespace Parsing

/-- What a run comes to. -/
inductive Outcome (ε α : Type) where
  | ok (a : α)
  | err (e : ε)
  | panic

variable {ε α β γ σ : Type}

/-- The run goes on with the value. -/
def Outcome.bind : Outcome ε α → (α → Outcome ε γ) → Outcome ε γ
  | .ok a, q => q a
  | .err e, _ => .err e
  | .panic, _ => .panic

instance : Monad (Outcome ε) where
  pure := .ok
  bind := .bind

theorem Outcome.bind_eq_ok {r : Outcome ε α} {q : α → Outcome ε γ} {c : γ} :
    r.bind q = .ok c ↔ ∃ a, r = .ok a ∧ q a = .ok c := by
  constructor
  · intro h
    cases r with
    | ok a => exact ⟨a, rfl, h⟩
    | err e => cases h
    | panic => cases h
  · rintro ⟨a, rfl, h⟩
    exact h

theorem Outcome.bind_eq_panic {r : Outcome ε α} {q : α → Outcome ε γ} :
    r.bind q = .panic ↔ r = .panic ∨ ∃ a, r = .ok a ∧ q a = .panic := by
  constructor
  · intro h
    cases r with
    | ok a => exact .inr ⟨a, rfl, h⟩
    | err e => cases h
    | panic => exact .inl rfl
  · rintro (rfl | ⟨a, rfl, h⟩)
    · rfl
    · exact h

/-! ## Grammars -/

/-- Which values are written by which elements. -/
abbrev Grammar (β α : Type) := α → List β → Prop

/-- At which positions, before which elements, a parser panics. -/
abbrev Fault (β : Type) := Nat → List β → Prop

/-- One part behind the other, which may depend on it. -/
def Grammar.seq (g : Grammar β α) (g' : α → Grammar β γ) : Grammar β γ :=
  fun b bs => ∃ a xs ys, bs = xs ++ ys ∧ g a xs ∧ g' a b ys

def Fault.seq (g : Grammar β α) (f : Fault β) (f' : α → Fault β) : Fault β :=
  fun c rest => f c rest ∨ ∃ a xs ys, rest = xs ++ ys ∧ g a xs ∧ f' a (c + xs.length) ys

/-- A number of parts, each of which takes the state that the one before has left. -/
def Grammar.iter (g : σ → Grammar β σ) : Nat → σ → Grammar β σ
  | 0, s => fun s' bs => s' = s ∧ bs = []
  | k + 1, s => (g s).seq (Grammar.iter g k)

def Fault.iter (g : σ → Grammar β σ) (f : σ → Fault β) : Nat → σ → Fault β
  | 0, _ => fun _ _ => False
  | k + 1, s => Fault.seq (g s) (f s) (Fault.iter g f k)

/-- The loop over a number of rounds. -/
def forRange (step : σ → Nat → Outcome ε (σ × Nat)) : Nat → σ → Nat → Outcome ε (σ × Nat)
  | 0, s, c => .ok (s, c)
  | k + 1, s, c => (step s c).bind fun r => forRange step k r.1 r.2

/-! ## Specifications -/

/-- From every position with at most `n` elements behind it, the parser takes what the grammar describes
and nothing else, and panics in the fault and nowhere else. -/
structure Reads (n : Nat) (data : List β) (p : Nat → Outcome ε (α × Nat)) (g : Grammar β α)
    (f : Fault β) : Prop where
  ok : ∀ pre bs rest a, data = pre ++ (bs ++ rest) → (bs ++ rest).length ≤ n → g a bs →
    p pre.length = .ok (a, (pre ++ bs).length)
  panic : ∀ pre rest, data = pre ++ rest → rest.length ≤ n → f pre.length rest →
    p pre.length = .panic
  of_ok : ∀ pre rest a c, data = pre ++ rest → rest.length ≤ n → p pre.length = .ok (a, c) →
    ∃ bs behind, rest = bs ++ behind ∧ g a bs ∧ c = (pre ++ bs).length
  of_panic : ∀ pre rest, data = pre ++ rest → rest.length ≤ n → p pre.length = .panic →
    f pre.length rest

namespace Reads

variable {n m k : Nat} {data : List β} {p p' : Nat → Outcome ε (α × Nat)} {g g' : Grammar β α}
  {f f' : Fault β}

theorem pure (a : α) : Reads n data (fun c => (.ok (a, c) : Outcome ε (α × Nat)))
    (fun b bs => b = a ∧ bs = []) fun _ _ => False where
  ok pre bs rest b _ _ h := by
    obtain ⟨rfl, rfl⟩ := h
    rw [List.append_nil]
  panic _ _ _ _ h := h.elim
  of_ok pre rest b c _ _ h := by
    cases h
    exact ⟨[], rest, rfl, ⟨rfl, rfl⟩, by rw [List.append_nil]⟩
  of_panic _ _ _ _ h := by cases h

theorem fail (e : ε) : Reads n data (fun _ => (.err e : Outcome ε (α × Nat))) (fun _ _ => False)
    fun _ _ => False where
  ok _ _ _ _ _ _ h := h.elim
  panic _ _ _ _ h := h.elim
  of_ok _ _ _ _ _ _ h := by cases h
  of_panic _ _ _ _ h := by cases h

/-- A grammar or a fault may be put in other words, which need to agree on the input only. -/
theorem congr (h : Reads n data p g f)
    (hg : ∀ a bs, bs.length ≤ data.length → (g' a bs ↔ g a bs))
    (hf : ∀ c rest, c + rest.length = data.length → (f' c rest ↔ f c rest)) :
    Reads n data p g' f' where
  ok pre bs rest a hd hn ha := by
    have hlen : bs.length ≤ data.length := by
      rw [hd, List.length_append, List.length_append]
      omega
    exact h.ok pre bs rest a hd hn ((hg a bs hlen).mp ha)
  panic pre rest hd hn hr := by
    have hlen : pre.length + rest.length = data.length := by
      rw [hd, List.length_append]
    exact h.panic pre rest hd hn ((hf _ rest hlen).mp hr)
  of_ok pre rest a c hd hn hp := by
    obtain ⟨bs, behind, hr, ha, hc⟩ := h.of_ok pre rest a c hd hn hp
    have hlen : bs.length ≤ data.length := by
      rw [hd, hr, List.length_append, List.length_append]
      omega
    exact ⟨bs, behind, hr, (hg a bs hlen).mpr ha, hc⟩
  of_panic pre rest hd hn hp := by
    have hlen : pre.length + rest.length = data.length := by
      rw [hd, List.length_append]
    exact (hf _ rest hlen).mpr (h.of_panic pre rest hd hn hp)

theorem mono (h : Reads m data p g f) (hle : n ≤ m) : Reads n data p g f where
  ok pre bs rest a hd hn := h.ok pre bs rest a hd (Nat.le_trans hn hle)
  panic pre rest hd hn := h.panic pre rest hd (Nat.le_trans hn hle)
  of_ok pre rest a c hd hn := h.of_ok pre rest a c hd (Nat.le_trans hn hle)
  of_panic pre rest hd hn := h.of_panic pre rest hd (Nat.le_trans hn hle)

theorem ite {c : Prop} [Decidable c] (h : c → Reads n data p g f)
    (h' : ¬ c → Reads n data p' g' f') :
    Reads n data (if c then p else p') (if c then g else g') (if c then f else f') := by
  split
  · next hc => exact h hc
  · next hc => exact h' hc

theorem bind {q : α → Nat → Outcome ε (γ × Nat)} {g' : α → Grammar β γ} {f' : α → Fault β}
    (h : Reads n data p g f) (h' : ∀ a, Reads n data (q a) (g' a) (f' a)) :
    Reads n data (fun c => (p c).bind fun r => q r.1 r.2) (g.seq g') (Fault.seq g f f') where
  ok pre bs rest b hd hn hb := by
    obtain ⟨a, xs, ys, rfl, ha, hb⟩ := hb
    rw [List.append_assoc] at hd hn
    have hy : (ys ++ rest).length ≤ n := by
      rw [List.length_append] at hn
      omega
    rw [h.ok pre xs (ys ++ rest) a hd hn ha]
    have hq := (h' a).ok (pre ++ xs) ys rest b (by rw [List.append_assoc, hd]) hy hb
    rw [List.append_assoc] at hq
    exact hq
  panic pre rest hd hn hr := by
    rw [Outcome.bind_eq_panic]
    rcases hr with hr | ⟨a, xs, ys, rfl, ha, hr⟩
    · exact .inl (h.panic pre rest hd hn hr)
    · refine .inr ⟨_, h.ok pre xs ys a hd hn ha, ?_⟩
      have hy : ys.length ≤ n := by
        rw [List.length_append] at hn
        omega
      exact (h' a).panic (pre ++ xs) ys (by rw [List.append_assoc, hd]) hy
        (by rw [List.length_append]; exact hr)
  of_ok pre rest b c hd hn hp := by
    obtain ⟨⟨a, c'⟩, hpa, hq⟩ := Outcome.bind_eq_ok.mp hp
    obtain ⟨xs, ys, rfl, ha, rfl⟩ := h.of_ok pre rest a c' hd hn hpa
    have hy : ys.length ≤ n := by
      rw [List.length_append] at hn
      omega
    obtain ⟨bs, behind, rfl, hb, rfl⟩ :=
      (h' a).of_ok (pre ++ xs) ys b c (by rw [List.append_assoc, hd]) hy hq
    refine ⟨xs ++ bs, behind, (List.append_assoc ..).symm, ⟨a, xs, bs, rfl, ha, hb⟩, ?_⟩
    rw [List.append_assoc]
  of_panic pre rest hd hn hp := by
    rcases Outcome.bind_eq_panic.mp hp with hp | ⟨⟨a, c'⟩, hpa, hq⟩
    · exact .inl (h.of_panic pre rest hd hn hp)
    · obtain ⟨xs, ys, rfl, ha, rfl⟩ := h.of_ok pre rest a c' hd hn hpa
      have hy : ys.length ≤ n := by
        rw [List.length_append] at hn
        omega
      have hf := (h' a).of_panic (pre ++ xs) ys (by rw [List.append_assoc, hd]) hy hq
      rw [List.length_append] at hf
      exact .inr ⟨a, xs, ys, rfl, ha, hf⟩

theorem forRange {step : σ → Nat → Outcome ε (σ × Nat)} {g : σ → Grammar β σ} {f : σ → Fault β}
    (h : ∀ s, Reads n data (step s) (g s) (f s)) (k : Nat) (s : σ) :
    Reads n data (Parsing.forRange step k s) (Grammar.iter g k s) (Fault.iter g f k s) := by
  induction k generalizing s with
  | zero => exact pure s
  | succ k ih => exact (h s).bind ih

/-- A parser that takes one element first has one element less to go. -/
theorem head {q : β → Nat → Outcome ε (α × Nat)} {g : β → Grammar β α} {f : β → Fault β} {e : ε}
    (hnone : ∀ c, data[c]? = none → p c = .err e)
    (hsome : ∀ c b, data[c]? = some b → p c = q b (c + 1))
    (h : ∀ b, Reads n data (q b) (g b) (f b)) :
    Reads (n + 1) data p (fun a bs => ∃ b tail, bs = b :: tail ∧ g b a tail)
      fun c rest => ∃ b tail, rest = b :: tail ∧ f b (c + 1) tail := by
  -- the rest of the input, seen from behind its first element
  have hcons {pre rest : List β} {b : β} (hd : data = pre ++ b :: rest) :
      data = (pre ++ [b]) ++ rest ∧ p pre.length = q b (pre ++ [b]).length ∧
        (pre ++ [b]).length = pre.length + 1 := by
    have hlen : (pre ++ [b]).length = pre.length + 1 := by
      rw [List.length_append, List.length_singleton]
    refine ⟨by rw [hd, List.append_assoc, List.singleton_append], ?_, hlen⟩
    rw [hlen]
    apply hsome
    rw [hd, List.getElem?_append_right (Nat.le_refl _), Nat.sub_self, List.getElem?_cons_zero]
  have hnil {pre : List β} (hd : data = pre ++ []) : p pre.length = .err e := by
    apply hnone
    rw [hd, List.append_nil, List.getElem?_eq_none (Nat.le_refl _)]
  constructor
  · intro pre bs rest a hd hn ha
    obtain ⟨b, tail, rfl, ha⟩ := ha
    obtain ⟨hd, hp, -⟩ := hcons hd
    have hq := (h b).ok (pre ++ [b]) tail rest a hd (Nat.le_of_succ_le_succ hn) ha
    rw [List.append_assoc, List.singleton_append] at hq
    rw [hp, hq]
  · intro pre rest hd hn hr
    obtain ⟨b, tail, rfl, hr⟩ := hr
    obtain ⟨hd, hp, hlen⟩ := hcons hd
    rw [hp]
    exact (h b).panic (pre ++ [b]) tail hd (Nat.le_of_succ_le_succ hn) (by rw [hlen]; exact hr)
  · intro pre rest a c hd hn hok
    cases rest with
    | nil =>
      rw [hnil hd] at hok
      cases hok
    | cons b tail =>
      obtain ⟨hd, hp, -⟩ := hcons hd
      rw [hp] at hok
      obtain ⟨bs, behind, rfl, ha, rfl⟩ :=
        (h b).of_ok (pre ++ [b]) tail a c hd (Nat.le_of_succ_le_succ hn) hok
      refine ⟨b :: bs, behind, rfl, ⟨b, bs, rfl, ha⟩, ?_⟩
      rw [List.append_assoc, List.singleton_append]
  · intro pre rest hd hn hpanic
    cases rest with
    | nil =>
      rw [hnil hd] at hpanic
      cases hpanic
    | cons b tail =>
      obtain ⟨hd, hp, hlen⟩ := hcons hd
      rw [hp] at hpanic
      have hf := (h b).of_panic (pre ++ [b]) tail hd (Nat.le_of_succ_le_succ hn) hpanic
      rw [hlen] at hf
      exact ⟨b, tail, rfl, hf⟩

end Reads

/-- A parser that runs from the start of the input and takes all of it. -/
theorem Reads.whole_ok {n : Nat} {data : List β} {p : Nat → Outcome ε (α × Nat)} {g : Grammar β α}
    {f : Fault β} (h : Reads n data p g f) (hn : data.length ≤ n) (a : α) :
    p 0 = .ok (a, data.length) ↔ g a data := by
  constructor
  · intro hp
    obtain ⟨bs, behind, hd, ha, hc⟩ := h.of_ok [] data a data.length rfl hn hp
    have hnil : behind = [] := by
      apply List.length_eq_zero_iff.mp
      have hlen := congrArg List.length hd
      rw [List.length_append] at hlen
      rw [List.nil_append] at hc
      omega
    rw [hnil, List.append_nil] at hd
    rw [hd]
    exact ha
  · intro ha
    exact h.ok [] data [] a (List.append_nil data).symm
      (by rw [List.append_nil]; exact hn) ha

theorem Reads.whole_panic {n : Nat} {data : List β} {p : Nat → Outcome ε (α × Nat)}
    {g : Grammar β α} {f : Fault β} (h : Reads n data p g f) (hn : data.length ≤ n) :
    p 0 = .panic ↔ f 0 data :=
  ⟨h.of_panic [] data rfl hn, h.panic [] data rfl hn⟩

/-! ## Two parsers -/

/-- From a position on, the two parsers do the same, and do not go back. -/
structure Agrees (lo : Nat) (p p' : Nat → Outcome ε (α × Nat)) : Prop where
  eq : ∀ c, lo ≤ c → p c = p' c
  forward : ∀ c a c', lo ≤ c → p c = .ok (a, c') → c ≤ c'

namespace Agrees

variable {lo : Nat} {p p' : Nat → Outcome ε (α × Nat)}

theorem refl (h : ∀ c a c', p c = .ok (a, c') → c ≤ c') : Agrees lo p p where
  eq _ _ := rfl
  forward c a c' _ := h c a c'

theorem pure (a : α) : Agrees lo (fun c => (.ok (a, c) : Outcome ε (α × Nat))) fun c => .ok (a, c) := by
  apply refl
  intro c b c' h
  cases h
  exact Nat.le_refl c

theorem ite {q q' : Nat → Outcome ε (α × Nat)} {c : Prop} [Decidable c] (h : Agrees lo p p')
    (h' : Agrees lo q q') : Agrees lo (if c then p else q) (if c then p' else q') := by
  split
  · exact h
  · exact h'

theorem bind {q q' : α → Nat → Outcome ε (γ × Nat)} (h : Agrees lo p p')
    (h' : ∀ a, Agrees lo (q a) (q' a)) :
    Agrees lo (fun c => (p c).bind fun r => q r.1 r.2) fun c => (p' c).bind fun r => q' r.1 r.2 where
  eq c hc := by
    rw [← h.eq c hc]
    cases hp : p c with
    | ok r => exact (h' r.1).eq r.2 (Nat.le_trans hc (h.forward c r.1 r.2 hc hp))
    | err e => rfl
    | panic => rfl
  forward c b c' hc hok := by
    obtain ⟨⟨a, m⟩, hp, hq⟩ := Outcome.bind_eq_ok.mp hok
    have hm := h.forward c a m hc hp
    exact Nat.le_trans hm ((h' a).forward m b c' (Nat.le_trans hc hm) hq)

theorem forRange {step step' : σ → Nat → Outcome ε (σ × Nat)}
    (h : ∀ s, Agrees lo (step s) (step' s)) (k : Nat) (s : σ) :
    Agrees lo (Parsing.forRange step k s) (Parsing.forRange step' k s) := by
  induction k generalizing s with
  | zero => exact pure s
  | succ k ih => exact (h s).bind ih

end Agrees

end Parsing
