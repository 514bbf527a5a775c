import Mathlib.Data.Nat.ModEq
import Mathlib.Data.Nat.Bitwise
import Mathlib.Data.Nat.Prime.Basic

/-!
# Hashes that xor and multiply

A round xors a number into the state and multiplies by an odd number. The lowest bits of the state
are never lost: two states that differ there differ after every round, so that a change of one input
shows in the lowest bits of the hash.
-/

namespace XorHash

variable {prime modulus k h h' b b' : Nat}

/-- One round. -/
def step (prime modulus h b : Nat) : Nat := (h ^^^ b) * prime % modulus

theorem xor_modEq_iff : h ^^^ b ≡ h' ^^^ b' [MOD 2 ^ k] ↔
    (h % 2 ^ k) ^^^ (b % 2 ^ k) = (h' % 2 ^ k) ^^^ (b' % 2 ^ k) := by
  rw [Nat.ModEq, Nat.xor_mod_two_pow, Nat.xor_mod_two_pow]

/-- A round keeps apart what is apart before the product. -/
theorem step_modEq_iff (hm : 2 ^ k ∣ modulus) (hp : Odd prime) :
    step prime modulus h b ≡ step prime modulus h' b' [MOD 2 ^ k] ↔
      h ^^^ b ≡ h' ^^^ b' [MOD 2 ^ k] := by
  have hmod (n : Nat) : n % modulus ≡ n [MOD 2 ^ k] := (Nat.mod_modEq n modulus).of_dvd hm
  have hcop : (2 ^ k).gcd prime = 1 := (Nat.coprime_two_left.mpr hp).pow_left k
  constructor
  · intro he
    apply Nat.ModEq.cancel_right_of_coprime hcop
    exact (hmod _).symm.trans (he.trans (hmod _))
  · intro he
    exact (hmod _).trans ((he.mul_right prime).trans (hmod _).symm)

/-- Rounds with the same inputs. -/
theorem foldl_modEq_iff (hm : 2 ^ k ∣ modulus) (hp : Odd prime) (l : List Nat) :
    l.foldl (step prime modulus) h ≡ l.foldl (step prime modulus) h' [MOD 2 ^ k] ↔
      h ≡ h' [MOD 2 ^ k] := by
  induction l generalizing h h' with
  | nil => exact Iff.rfl
  | cons b l ih =>
    rw [List.foldl_cons, List.foldl_cons, ih, step_modEq_iff hm hp, xor_modEq_iff]
    exact Nat.xor_left_inj

/-- A change of one input shows in the lowest bits. -/
theorem foldl_change (hm : 2 ^ k ∣ modulus) (hp : Odd prime) (hb : b < 2 ^ k) (hb' : b' < 2 ^ k)
    (pre post : List Nat)
    (he : (pre ++ b :: post).foldl (step prime modulus) h ≡
      (pre ++ b' :: post).foldl (step prime modulus) h [MOD 2 ^ k]) : b = b' := by
  rw [List.foldl_append, List.foldl_append, List.foldl_cons, List.foldl_cons,
    foldl_modEq_iff hm hp, step_modEq_iff hm hp, xor_modEq_iff, Nat.mod_eq_of_lt hb,
    Nat.mod_eq_of_lt hb'] at he
  exact Nat.xor_right_injective he

end XorHash
