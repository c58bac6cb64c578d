/-
  Subject:   Binary long division on natural numbers, in the two forms programs write it.

  * `alignedSteps`: the divisor starts shifted to the left and moves down, one bit a step;
  * `runningSteps`: the divisor stays and the remainder moves up, one bit a step;
  * `alignedSteps_eq`, `runningSteps_eq`: both give the quotient and the remainder.
-/
import Mathlib.Algebra.Order.Ring.Nat
import Mathlib.Tactic.Ring

namespace Trustme.Lib

/-- `n` steps of division by `d`, from the bit `n - 1` down; the quotient is collected in `q`. -/
def alignedSteps (d : Nat) : Nat → Nat → Nat → Nat × Nat
  | 0, q, r => (q, r)
  | n + 1, q, r =>
    if d * 2 ^ n ≤ r then alignedSteps d n (q + 2 ^ n) (r - d * 2 ^ n) else alignedSteps d n q r

theorem alignedSteps_eq {d : Nat} (hd : 0 < d) : ∀ (n q r : Nat), r < d * 2 ^ n →
    alignedSteps d n q r = (q + r / d, r % d)
  | 0, q, r, h => by
    have hr : r < d := by simpa using h
    simp [alignedSteps, Nat.div_eq_of_lt hr, Nat.mod_eq_of_lt hr]
  | n + 1, q, r, h => by
    have h2 : d * 2 ^ (n + 1) = d * 2 ^ n + d * 2 ^ n := by ring
    unfold alignedSteps
    split
    · next hle =>
        rw [alignedSteps_eq hd n _ _ (by omega)]
        obtain ⟨s, rfl⟩ := Nat.exists_eq_add_of_le hle
        rw [Nat.add_sub_cancel_left, Nat.add_comm (d * 2 ^ n), Nat.add_mul_div_left _ _ hd,
          Nat.add_mul_mod_self_left, Nat.add_assoc, Nat.add_comm (2 ^ n)]
    · exact alignedSteps_eq hd n _ _ (by omega)

/-- `n` steps of division by `d`, the remainder doubled after each of them. -/
def runningSteps (d : Nat) : Nat → Nat → Nat → Nat × Nat
  | 0, q, r => (q, r)
  | n + 1, q, r =>
    if d ≤ r then runningSteps d n (2 * q + 1) (2 * (r - d)) else runningSteps d n (2 * q) (2 * r)

/-- The divisor counts twice: the remainder has been doubled once more than the quotient. -/
theorem runningSteps_eq {d : Nat} (hd : 0 < d) : ∀ (n q r : Nat), r < 2 * d →
    runningSteps d n q r = (q * 2 ^ n + r * 2 ^ n / (2 * d), r * 2 ^ n % (2 * d))
  | 0, q, r, h => by
    simp [runningSteps, Nat.div_eq_of_lt h, Nat.mod_eq_of_lt h]
  | n + 1, q, r, h => by
    unfold runningSteps
    split
    · next hle =>
        rw [runningSteps_eq hd n _ _ (by omega)]
        obtain ⟨s, rfl⟩ := Nat.exists_eq_add_of_le hle
        have e : (d + s) * 2 ^ (n + 1) = 2 * s * 2 ^ n + 2 * d * 2 ^ n := by ring
        rw [Nat.add_sub_cancel_left, e, Nat.add_mul_div_left _ _ (by omega),
          Nat.add_mul_mod_self_left]
        congr 1
        ring
    · rw [runningSteps_eq hd n _ _ (by omega), pow_succ]
      congr 2 <;> ring_nf

end Trustme.Lib
