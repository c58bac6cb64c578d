/-
  Subject:   `BigUint`, the unbounded numbers of float128.cpp, in limbs of 64 bits.

  * `BigUint`: the limbs, without a zero at the upper end;
  * `multiplyAddSmall`, `divideSmall`, `shiftLeft`, `shiftRightSticky`, `bitLength`, `topBits`:
    the operations, limb by limb as the code runs through them;
  * `multiplyAddSmall_toNat`, ..., `topBits_eq` -- what they make of the number.

  `none` is a failed BUG_ASSERT or an access outside the limbs.
-/
import Trustme.Lib.Limbs
import Trustme.Numeric.Float128

namespace Trustme.Numeric

open Lib (value limbAt Trimmed trim)

/-- `struct BigUint`. -/
structure BigUint where
  limbs : List (BitVec 64)
  trimmed : Trimmed limbs

namespace BigUint

/-! ## 1. As the code computes it -/

/-- What every operation ends with: `trim`. -/
def ofLimbs (limbs : List (BitVec 64)) : BigUint := ⟨trim limbs, Lib.trimmed_trim limbs⟩

/-- `BigUint()`. -/
def empty : BigUint := ⟨[], nofun⟩

/-- `fromU128`. -/
def fromU128 (v : BitVec 128) : BigUint :=
  if hv : v = 0 then empty
  else if hhi : v >>> 64 = 0 then ⟨[v.setWidth 64], fun h => hv (by
    have hlo : v.setWidth 64 = 0 := by simpa using h
    have h1 := congrArg BitVec.toNat hlo
    have h2 := congrArg BitVec.toNat hhi
    rw [BitVec.toNat_setWidth] at h1
    rw [BitVec.toNat_ushiftRight, Nat.shiftRight_eq_div_pow] at h2
    apply BitVec.eq_of_toNat_eq
    simp only [BitVec.ofNat_eq_ofNat, BitVec.toNat_ofNat] at h1 h2 ⊢
    omega)⟩
  else ⟨[v.setWidth 64, (v >>> 64).setWidth 64], fun h => hhi (by
    have hlo : (v >>> 64).setWidth 64 = (0 : BitVec 64) := by simpa using h
    have hlt := v.isLt
    have h1 := congrArg BitVec.toNat hlo
    rw [BitVec.toNat_setWidth, BitVec.toNat_ushiftRight, Nat.shiftRight_eq_div_pow] at h1
    apply BitVec.eq_of_toNat_eq
    rw [BitVec.toNat_ushiftRight, Nat.shiftRight_eq_div_pow]
    simp only [BitVec.ofNat_eq_ofNat, BitVec.toNat_ofNat] at h1 ⊢
    omega)⟩

/-- `isZero`. -/
def isZero (v : BigUint) : Bool := v.limbs.isEmpty

/-- The loop of `multiplyAddSmall`, from the lowest limb: the new limbs and the carry. -/
def multiplyLoop (factor : BitVec 64) :
    List (BitVec 64) → BitVec 128 → List (BitVec 64) × BitVec 128
  | [], carry => ([], carry)
  | limb :: limbs, carry =>
    let v := limb.setWidth 128 * factor.setWidth 128 + carry
    let (rest, carry) := multiplyLoop factor limbs (v >>> 64)
    (v.setWidth 64 :: rest, carry)

/-- The limbs of the carry; 128 bits are two of them. -/
def pushCarry : Nat → BitVec 128 → List (BitVec 64)
  | 0, _ => []
  | n + 1, carry => if carry = 0 then [] else carry.setWidth 64 :: pushCarry n (carry >>> 64)

/-- `multiplyAddSmall`. -/
def multiplyAddSmall (v : BigUint) (factor addend : BitVec 64) : BigUint :=
  let (limbs, carry) := multiplyLoop factor v.limbs (addend.setWidth 128)
  ofLimbs (limbs ++ pushCarry 2 carry)

/-- The loop of `divideSmall`, from the highest limb: the new limbs and the remainder. -/
def divideLoop (divisor : BitVec 64) : List (BitVec 64) → List (BitVec 64) × BitVec 128
  | [] => ([], 0)
  | limb :: limbs =>
    let (rest, remainder) := divideLoop divisor limbs
    let cur := remainder <<< 64 ||| limb.setWidth 128
    ((cur / divisor.setWidth 128).setWidth 64 :: rest, cur % divisor.setWidth 128)

/-- `divideSmall`: the quotient and the remainder. -/
def divideSmall (v : BigUint) (divisor : BitVec 64) : Option (BigUint × BitVec 64) :=
  if divisor = 0 then none
  else
    let (limbs, remainder) := divideLoop divisor v.limbs
    some (ofLimbs limbs, remainder.setWidth 64)

/-- `resize`. -/
def resize (limbs : List (BitVec 64)) (size : Nat) : List (BitVec 64) :=
  (limbs ++ List.replicate (size - limbs.length) 0).take size

/-- The loop of `shiftLeft` moves the limb `i`, in place. -/
def moveLimb (whole rest i : Nat) (limbs : List (BitVec 64)) : List (BitVec 64) :=
  let limb := limbAt limbs i
  let limbs :=
    if rest ≠ 0 then
      let limbs :=
        limbs.set (i + whole + 1) (limbAt limbs (i + whole + 1) ||| limb >>> (64 - rest))
      limbs.set (i + whole) (limb <<< rest)
    else limbs.set (i + whole) limb
  if i < whole then limbs.set i 0 else limbs

/-- The loop, with `n` limbs left to move, the highest first. -/
def shiftLeftLoop (whole rest : Nat) : Nat → List (BitVec 64) → List (BitVec 64)
  | 0, limbs => limbs
  | i + 1, limbs => shiftLeftLoop whole rest i (moveLimb whole rest i limbs)

/-- The loop that clears the lowest limbs, with `n` of them to go. -/
def clearLoop : Nat → Nat → List (BitVec 64) → List (BitVec 64)
  | 0, _, limbs => limbs
  | n + 1, i, limbs => clearLoop n (i + 1) (limbs.set i 0)

/-- `shiftLeft`. -/
def shiftLeft (v : BigUint) (bits : Nat) : BigUint :=
  if v.isZero ∨ bits = 0 then v
  else
    let whole := bits / 64
    let rest := bits % 64
    let oldSize := v.limbs.length
    let limbs := resize v.limbs (oldSize + whole + if rest ≠ 0 then 1 else 0)
    let limbs := shiftLeftLoop whole rest oldSize limbs
    ofLimbs (clearLoop (min whole oldSize) 0 limbs)

/-- The loop of `shiftRightSticky`, in place, with `n` limbs to go from the limb `i` on. -/
def shiftRightLoop (whole rest : Nat) : Nat → Nat → List (BitVec 64) → List (BitVec 64)
  | 0, _, limbs => limbs
  | n + 1, i, limbs =>
    let v := limbAt limbs (i + whole) >>> rest
    let v :=
      if rest ≠ 0 ∧ i + whole + 1 < limbs.length then
        v ||| limbAt limbs (i + whole + 1) <<< (64 - rest)
      else v
    shiftRightLoop whole rest n (i + 1) (limbs.set i v)

/-- `shiftRightSticky`: the shifted number and the sticky bit. -/
def shiftRightSticky (v : BigUint) (bits : Nat) (sticky : Bool) : Option (BigUint × Bool) :=
  let whole := bits / 64
  let rest := bits % 64
  if v.limbs.length < whole ∨ (rest ≠ 0 ∧ v.limbs.length = whole) then none
  else
    let sticky := sticky || (v.limbs.take whole).any (· != 0)
    let sticky :=
      if rest ≠ 0 then sticky || (limbAt v.limbs whole &&& (1#64 <<< rest - 1)) != 0 else sticky
    let newSize := v.limbs.length - whole
    some (ofLimbs (resize (shiftRightLoop whole rest newSize 0 v.limbs) newSize), sticky)

/-- `bitLength`. -/
def bitLength (v : BigUint) : Nat :=
  match v.limbs.getLast? with
  | none => 0
  | some top => v.limbs.length * 64 - Float128.builtinClzll top

/-- `topBits`: the leading bits and the sticky bit. -/
def topBits (v : BigUint) (bits : Nat) (sticky : Bool) : Option (BitVec 128 × Bool) := do
  if bits > 128 then none
  else
    let length := v.bitLength
    let (copy, sticky) ←
      if length > bits then v.shiftRightSticky (length - bits) sticky else some (v, sticky)
    return (copy.limbs.foldr (fun limb top => top <<< 64 ||| limb.setWidth 128) 0, sticky)

/-! ## 2. Numbers -/

/-- The number. -/
def toNat (v : BigUint) : Nat := value v.limbs

theorem ofLimbs_toNat (limbs : List (BitVec 64)) : (ofLimbs limbs).toNat = value limbs :=
  Lib.value_trim limbs

theorem isZero_iff (v : BigUint) : v.isZero = true ↔ v.toNat = 0 := by
  unfold isZero toNat
  rw [List.isEmpty_iff, v.trimmed.eq_nil_iff]

theorem toNat_setWidth_mul (x y : BitVec 64) {z : BitVec 128} (hz : z.toNat < 2 ^ 64) :
    (x.setWidth 128 * y.setWidth 128 + z).toNat = x.toNat * y.toNat + z.toNat := by
  have hx := x.isLt
  have hy := y.isLt
  have hle : x.toNat * y.toNat ≤ (2 ^ 64 - 1) * (2 ^ 64 - 1) := Nat.mul_le_mul (by omega) (by omega)
  have hwide (t : BitVec 64) : (t.setWidth 128 : BitVec 128).toNat = t.toNat := by
    rw [BitVec.toNat_setWidth]
    exact Nat.mod_eq_of_lt (by have := t.isLt; omega)
  rw [BitVec.toNat_add, BitVec.toNat_mul, hwide, hwide]
  omega

theorem fromU128_toNat (v : BitVec 128) : (fromU128 v).toNat = v.toNat := by
  have hv := v.isLt
  unfold fromU128
  split_ifs with h1 h2
  · rw [h1]
    rfl
  · have h := congrArg BitVec.toNat h2
    rw [BitVec.toNat_ushiftRight, Nat.shiftRight_eq_div_pow] at h
    simp only [BitVec.ofNat_eq_ofNat, BitVec.toNat_ofNat] at h
    simp only [toNat, value, BitVec.toNat_setWidth]
    omega
  · simp only [toNat, value, BitVec.toNat_setWidth, BitVec.toNat_ushiftRight,
      Nat.shiftRight_eq_div_pow]
    omega

/-! ## 3. Products and quotients -/

theorem multiplyLoop_value (factor : BitVec 64) (limbs : List (BitVec 64)) (carry : BitVec 128)
    (hc : carry.toNat < 2 ^ 64) :
    (multiplyLoop factor limbs carry).1.length = limbs.length ∧
    (multiplyLoop factor limbs carry).2.toNat < 2 ^ 64 ∧
    value (multiplyLoop factor limbs carry).1 +
        2 ^ (64 * limbs.length) * (multiplyLoop factor limbs carry).2.toNat =
      value limbs * factor.toNat + carry.toNat := by
  induction limbs generalizing carry with
  | nil => exact ⟨rfl, hc, by simp [multiplyLoop, value]⟩
  | cons limb limbs ih =>
    have hl := limb.isLt
    have hf := factor.isLt
    have hle : limb.toNat * factor.toNat ≤ (2 ^ 64 - 1) * (2 ^ 64 - 1) :=
      Nat.mul_le_mul (by omega) (by omega)
    have hv := toNat_setWidth_mul limb factor hc
    unfold multiplyLoop
    dsimp only
    generalize limb.setWidth 128 * factor.setWidth 128 + carry = v at hv
    have hhigh : (v >>> 64).toNat = v.toNat / 2 ^ 64 := by
      rw [BitVec.toNat_ushiftRight, Nat.shiftRight_eq_div_pow]
    obtain ⟨h1, h2, h3⟩ := ih (v >>> 64) (by omega)
    refine ⟨congrArg (· + 1) h1, h2, ?_⟩
    rw [hhigh] at h3
    have hpow : 2 ^ (64 * (limbs.length + 1)) = 2 ^ 64 * 2 ^ (64 * limbs.length) := by
      rw [← pow_add]
      congr 1
      ring
    have hlow : (v.setWidth 64 : BitVec 64).toNat = v.toNat % 2 ^ 64 := BitVec.toNat_setWidth ..
    have hdm := Nat.div_add_mod v.toNat (2 ^ 64)
    rw [value, value, hlow, List.length_cons, hpow, Nat.mul_assoc]
    calc v.toNat % 2 ^ 64 + 2 ^ 64 * value (multiplyLoop factor limbs (v >>> 64)).1 +
          2 ^ 64 * (2 ^ (64 * limbs.length) * (multiplyLoop factor limbs (v >>> 64)).2.toNat)
        = v.toNat % 2 ^ 64 + 2 ^ 64 * (value (multiplyLoop factor limbs (v >>> 64)).1 +
          2 ^ (64 * limbs.length) * (multiplyLoop factor limbs (v >>> 64)).2.toNat) := by ring
      _ = v.toNat + 2 ^ 64 * (value limbs * factor.toNat) := by rw [h3]; omega
      _ = (limb.toNat + 2 ^ 64 * value limbs) * factor.toNat + carry.toNat := by rw [hv]; ring

theorem pushCarry_value {carry : BitVec 128} (hc : carry.toNat < 2 ^ 64) :
    value (pushCarry 2 carry) = carry.toNat := by
  have hhigh : carry >>> 64 = 0 := by
    apply BitVec.eq_of_toNat_eq
    rw [BitVec.toNat_ushiftRight, Nat.shiftRight_eq_div_pow, Nat.div_eq_of_lt hc]
    rfl
  unfold pushCarry
  split_ifs with h
  · rw [h]
    rfl
  · rw [hhigh, value, BitVec.toNat_setWidth, Nat.mod_eq_of_lt hc]
    rfl

theorem multiplyAddSmall_toNat (v : BigUint) (factor addend : BitVec 64) :
    (v.multiplyAddSmall factor addend).toNat = v.toNat * factor.toNat + addend.toNat := by
  have hadd : (addend.setWidth 128 : BitVec 128).toNat = addend.toNat := by
    rw [BitVec.toNat_setWidth]
    exact Nat.mod_eq_of_lt (by have := addend.isLt; omega)
  obtain ⟨h1, h2, h3⟩ := multiplyLoop_value factor v.limbs (addend.setWidth 128)
    (by rw [hadd]; exact addend.isLt)
  unfold multiplyAddSmall
  dsimp only
  rw [ofLimbs_toNat, Lib.value_append, pushCarry_value h2, h1, h3, hadd]
  rfl

theorem divideLoop_value {divisor : BitVec 64} (hd : 0 < divisor.toNat) (limbs : List (BitVec 64)) :
    value (divideLoop divisor limbs).1 = value limbs / divisor.toNat ∧
    (divideLoop divisor limbs).2.toNat = value limbs % divisor.toNat := by
  induction limbs with
  | nil => simp [divideLoop, value]
  | cons limb limbs ih =>
    have hl := limb.isLt
    have hdlt := divisor.isLt
    unfold divideLoop
    dsimp only
    obtain ⟨hq, hr⟩ := ih
    generalize divideLoop divisor limbs = done at hq hr
    have hrlt : done.2.toNat < divisor.toNat := hr ▸ Nat.mod_lt _ hd
    have hwide (t : BitVec 64) : (t.setWidth 128 : BitVec 128).toNat = t.toNat := by
      rw [BitVec.toNat_setWidth]
      exact Nat.mod_eq_of_lt (by have := t.isLt; omega)
    have hcur : (done.2 <<< 64 ||| limb.setWidth 128).toNat = done.2.toNat * 2 ^ 64 +
      limb.toNat := by
      have hshift : (done.2 <<< 64).toNat = 2 ^ 64 * done.2.toNat := by
        rw [BitVec.toNat_shiftLeft, Nat.shiftLeft_eq, Nat.mul_comm]
        exact Nat.mod_eq_of_lt (by omega)
      rw [BitVec.toNat_or, hshift, hwide, ← Nat.two_pow_add_eq_or_of_lt hl, Nat.mul_comm]
    have hn : limb.toNat + 2 ^ 64 * value limbs = done.2.toNat * 2 ^ 64 + limb.toNat +
        divisor.toNat * (2 ^ 64 * (value limbs / divisor.toNat)) := by
      have hdm := Nat.div_add_mod (value limbs) divisor.toNat
      rw [← hr] at hdm
      calc limb.toNat + 2 ^ 64 * value limbs
          = limb.toNat + 2 ^ 64 * (divisor.toNat * (value limbs / divisor.toNat) +
          done.2.toNat) := by
            rw [hdm]
        _ = _ := by ring
    -- the quotient of the two limbs fits one, since the remainder is below the divisor
    have hfit : (done.2.toNat * 2 ^ 64 + limb.toNat) / divisor.toNat < 2 ^ 64 := by
      rw [Nat.div_lt_iff_lt_mul hd]
      calc done.2.toNat * 2 ^ 64 + limb.toNat < (done.2.toNat + 1) * 2 ^ 64 := by omega
        _ ≤ divisor.toNat * 2 ^ 64 := Nat.mul_le_mul_right _ hrlt
        _ = 2 ^ 64 * divisor.toNat := Nat.mul_comm ..
    have hlow : ((done.2 <<< 64 ||| limb.setWidth 128) / divisor.setWidth 128 : BitVec 128).toNat =
        (done.2.toNat * 2 ^ 64 + limb.toNat) / divisor.toNat := by
      rw [BitVec.toNat_udiv, hcur, hwide]
    constructor
    · rw [value, value, hq, hn, Nat.add_mul_div_left _ _ hd, BitVec.toNat_setWidth, hlow,
        Nat.mod_eq_of_lt hfit]
    · rw [value, hn, Nat.add_mul_mod_self_left, BitVec.toNat_umod, hcur, hwide]

/-- A quotient and a remainder. -/
theorem divideSmall_eq (v : BigUint) {divisor : BitVec 64} (hd : 0 < divisor.toNat) :
    ∃ q r, v.divideSmall divisor = some (q, r) ∧ q.toNat = v.toNat / divisor.toNat ∧
      r.toNat = v.toNat % divisor.toNat := by
  obtain ⟨hq, hr⟩ := divideLoop_value hd v.limbs
  have hne : divisor ≠ 0 := fun h => by
    rw [h] at hd
    exact absurd hd (lt_irrefl 0)
  unfold divideSmall
  rw [if_neg hne]
  refine ⟨_, _, rfl, by rw [ofLimbs_toNat, hq]; rfl, ?_⟩
  have hlt := Nat.mod_lt (value v.limbs) hd
  have hdlt := divisor.isLt
  rw [BitVec.toNat_setWidth, hr]
  exact Nat.mod_eq_of_lt (by omega)

/-! ## 4. Shifts -/

theorem limbAt_resize (limbs : List (BitVec 64)) (size p : Nat) :
    limbAt (resize limbs size) p = if p < size then limbAt limbs p else 0 := by
  unfold resize limbAt
  rw [List.getD_eq_getElem?_getD, List.getD_eq_getElem?_getD, List.getElem?_take]
  split_ifs with h
  · rw [List.getElem?_append]
    split_ifs with hp
    · rfl
    · rw [List.getElem?_eq_none (not_lt.mp hp), List.getElem?_replicate]
      split_ifs <;> rfl
  · rfl

theorem resize_length (limbs : List (BitVec 64)) (size : Nat) :
    (resize limbs size).length = size := by
  unfold resize
  simp
  omega

/-- A limb of the shifted number. -/
def shiftedLimb (limbs : List (BitVec 64)) (rest : Nat) : Nat → BitVec 64
  | 0 => limbAt limbs 0 <<< rest
  | p + 1 => limbAt limbs (p + 1) <<< rest ||| limbAt limbs p >>> (64 - rest)

/-- Where the loop of `shiftLeft` stands with `k` limbs left: they are as they were, and above
    them everything is in its place but the bits that the highest of them sends up. -/
structure Moved (limbs : List (BitVec 64)) (whole rest k : Nat) (now : List (BitVec 64)) :
    Prop where
  length : now.length = limbs.length + whole + if rest ≠ 0 then 1 else 0
  left : ∀ p < k, limbAt now p = limbAt limbs p
  cleared : ∀ p, k ≤ p → p < whole → limbAt now p = 0
  next : limbAt now (whole + k) = limbAt limbs k <<< rest
  placed : ∀ p, k < p → limbAt now (whole + p) = shiftedLimb limbs rest p

theorem moved_start (limbs : List (BitVec 64)) (whole rest : Nat) :
    Moved limbs whole rest limbs.length
      (resize limbs (limbs.length + whole + if rest ≠ 0 then 1 else 0)) := by
  have hat (p : Nat) : limbAt (resize limbs (limbs.length + whole + if rest ≠ 0 then 1 else 0)) p =
      limbAt limbs p := by
    rw [limbAt_resize]
    refine ite_eq_left_iff.mpr fun hp => (Lib.limbAt_of_le ?_).symm
    omega
  refine ⟨resize_length _ _, fun p _ => hat p, fun p hp _ => ?_, ?_, fun p hp => ?_⟩
  · rw [hat, Lib.limbAt_of_le hp]
  · rw [hat, Lib.limbAt_of_le (by omega), Lib.limbAt_of_le (Nat.le_refl _)]
    simp
  · obtain ⟨p, rfl⟩ : ∃ q, p = q + 1 := ⟨p - 1, by omega⟩
    rw [hat, shiftedLimb, Lib.limbAt_of_le (by omega),
      Lib.limbAt_of_le (show limbs.length ≤ p + 1 by omega),
      Lib.limbAt_of_le (show limbs.length ≤ p by omega)]
    simp

section Move

variable {limbs now : List (BitVec 64)} {whole rest k : Nat}

theorem Moved.step (h : Moved limbs whole rest (k + 1) now) (hk : k < limbs.length) :
    Moved limbs whole rest k (moveLimb whole rest k now) := by
  have hlen := h.length
  have hleft := h.left k (Nat.lt_succ_self k)
  have hnext := h.next
  obtain ⟨moved, hmoved, hmlen, hat⟩ : ∃ moved, moveLimb whole rest k now =
      (if k < whole then moved.set k 0 else moved) ∧ moved.length = now.length ∧
      ∀ p, limbAt moved p = if p = k + whole then limbAt limbs k <<< rest
        else if p = k + whole + 1 then shiftedLimb limbs rest (k + 1) else limbAt now p := by
    unfold moveLimb
    rw [hleft]
    by_cases hrest : rest = 0
    · have hplace : limbAt now (k + whole + 1) = shiftedLimb limbs rest (k + 1) := by
        rw [show k + whole + 1 = whole + (k + 1) by omega, hnext, shiftedLimb, hrest,
          BitVec.ushiftRight_eq_zero (by decide), BitVec.or_zero]
      refine ⟨_, if_congr Iff.rfl rfl rfl, by simp [hrest], fun p => ?_⟩
      rw [if_neg (not_not.mpr hrest), Lib.limbAt_set _ (by omega), hrest, BitVec.shiftLeft_zero]
      rw [hrest] at hplace
      split_ifs with h1 h2
      · rfl
      · rw [h2, hplace]
      · rfl
    · have hplace : limbAt now (k + whole + 1) ||| limbAt limbs k >>> (64 - rest) =
          shiftedLimb limbs rest (k + 1) := by
        rw [show k + whole + 1 = whole + (k + 1) by omega, hnext, shiftedLimb]
      rw [if_pos hrest] at hlen
      refine ⟨_, if_congr Iff.rfl rfl rfl, by simp [hrest], fun p => ?_⟩
      rw [if_pos hrest]
      dsimp only
      rw [Lib.limbAt_set _ (by rw [List.length_set]; omega), Lib.limbAt_set _ (by omega), hplace]
  have hfinal (p : Nat) : limbAt (moveLimb whole rest k now) p =
      if k < whole ∧ p = k then 0 else limbAt moved p := by
    rw [hmoved]
    by_cases hc : k < whole
    · rw [if_pos hc, Lib.limbAt_set _ (by omega)]
      simp only [hc, true_and]
    · rw [if_neg hc, if_neg fun hand => hc hand.1]
  have hflen : (moveLimb whole rest k now).length = now.length := by
    rw [hmoved, ← hmlen]
    split
    · exact List.length_set
    · rfl
  refine ⟨hflen.trans hlen, fun p hp => ?_, fun p hp hp' => ?_, ?_, fun p hp => ?_⟩
  · rw [hfinal, if_neg (by omega), hat, if_neg (by omega), if_neg (by omega), h.left p (by omega)]
  · rw [hfinal]
    split_ifs with hc
    · rfl
    · rw [hat, if_neg (by omega), if_neg (by omega), h.cleared p (by omega) hp']
  · rw [hfinal, if_neg (by omega), hat, if_pos (Nat.add_comm ..)]
  · rw [hfinal, if_neg (by omega), hat, if_neg (by omega)]
    by_cases hc : p = k + 1
    · rw [if_pos (by omega), hc]
    · rw [if_neg (by omega), h.placed p (by omega)]

theorem shiftLeftLoop_moved (h : Moved limbs whole rest k now) (hk : k ≤ limbs.length) :
    Moved limbs whole rest 0 (shiftLeftLoop whole rest k now) := by
  induction k generalizing now with
  | zero => exact h
  | succ k ih => exact ih (h.step hk) (Nat.le_of_lt hk)

/-- The limbs that the last loop clears are zero already. -/
theorem clearLoop_at (n i : Nat) (now : List (BitVec 64)) (p : Nat) (hn : i + n ≤ now.length) :
    limbAt (clearLoop n i now) p = if i ≤ p ∧ p < i + n then 0 else limbAt now p := by
  induction n generalizing i now with
  | zero => rw [clearLoop, if_neg (by omega)]
  | succ n ih =>
    rw [clearLoop, ih _ _ (by rw [List.length_set]; omega), Lib.limbAt_set _ (by omega)]
    split_ifs <;> first | rfl | omega

end Move

variable {rest i : Nat}

/-- A bit of a limb of the shifted number. -/
theorem shiftedLimb_bit (limbs : List (BitVec 64)) (hrest : rest < 64) (p : Nat)
    (hi : i < 64) : (shiftedLimb limbs rest p).getLsbD i =
      (decide (rest ≤ 64 * p + i) && (value limbs).testBit (64 * p + i - rest)) := by
  have hup (q : Nat) : (limbAt limbs q <<< rest).getLsbD i =
      (decide (rest ≤ i) && (limbAt limbs q).getLsbD (i - rest)) := by
    rw [BitVec.getLsbD_shiftLeft, decide_eq_true hi, Bool.true_and]
    congr 1
    rw [← decide_not]
    exact decide_eq_decide.mpr not_lt
  cases p with
  | zero =>
    rw [shiftedLimb, hup, Nat.mul_zero, Nat.zero_add]
    by_cases hc : rest ≤ i
    · rw [← Lib.testBit_value limbs 0 (by omega), Nat.mul_zero, Nat.zero_add]
    · rw [decide_eq_false hc, Bool.false_and, Bool.false_and]
  | succ p =>
    rw [shiftedLimb, BitVec.getLsbD_or, hup, BitVec.getLsbD_ushiftRight,
      decide_eq_true (show rest ≤ 64 * (p + 1) + i by omega), Bool.true_and]
    by_cases hc : rest ≤ i
    · have hnone : (limbAt limbs p).getLsbD (64 - rest + i) = false :=
        BitVec.getLsbD_of_ge _ _ (by omega)
      rw [hnone, decide_eq_true hc, Bool.or_false, Bool.true_and,
        ← Lib.testBit_value limbs (p + 1) (by omega)]
      congr 1
      omega
    · rw [decide_eq_false hc, Bool.false_and, Bool.false_or,
        ← Lib.testBit_value limbs p (by omega)]
      congr 1
      omega

theorem shiftLeft_toNat (v : BigUint) (bits : Nat) :
    (v.shiftLeft bits).toNat = v.toNat * 2 ^ bits := by
  unfold shiftLeft
  split_ifs with h0
  · rcases h0 with h0 | h0
    · rw [(isZero_iff v).mp h0, Nat.zero_mul]
    · rw [h0, pow_zero, Nat.mul_one]
  obtain ⟨hlen, -, hcleared, hnext, hplaced⟩ :=
    shiftLeftLoop_moved (moved_start v.limbs (bits / 64) (bits % 64)) (Nat.le_refl _)
  dsimp only
  generalize shiftLeftLoop (bits / 64) (bits % 64) v.limbs.length
    (resize v.limbs (v.limbs.length + bits / 64 + if bits % 64 ≠ 0 then 1 else 0)) = moved at *
  rw [ofLimbs_toNat]
  refine Lib.value_eq_of_bits (by decide) fun p i hi => ?_
  rw [clearLoop_at _ _ _ _ (by omega), ← Nat.shiftLeft_eq, Nat.testBit_shiftLeft]
  by_cases hp : p < bits / 64
  · have hzero : (if 0 ≤ p ∧ p < 0 + min (bits / 64) v.limbs.length then 0 else limbAt moved p) =
        (0 : BitVec 64) := by
      split_ifs
      · rfl
      · exact hcleared p (Nat.zero_le p) hp
    rw [hzero, decide_eq_false (by omega)]
    simp
  · obtain ⟨q, rfl⟩ := Nat.exists_eq_add_of_le (not_lt.mp hp)
    have hshifted : limbAt moved (bits / 64 + q) = shiftedLimb v.limbs (bits % 64) q := by
      rcases Nat.eq_zero_or_pos q with rfl | hq
      · exact hnext
      · exact hplaced q hq
    rw [if_neg (by omega), hshifted, shiftedLimb_bit _ (Nat.mod_lt _ (by decide)) _ hi]
    have hsub : 64 * (bits / 64 + q) + i - bits = 64 * q + i - bits % 64 := by omega
    rw [hsub]
    congr 1
    exact decide_eq_decide.mpr (by omega)

/-- The digits under a mask of a limb. -/
theorem toNat_and_low (limb : BitVec 64) (hrest : rest < 64) :
    (limb &&& (1#64 <<< rest - 1)).toNat = limb.toNat % 2 ^ rest := by
  have hp := Nat.two_pow_pos rest
  have hlt : 2 ^ rest < 2 ^ 64 := Nat.pow_lt_pow_right (by decide) hrest
  have hone : (1#64 <<< rest).toNat = 2 ^ rest := by
    rw [BitVec.toNat_shiftLeft, Nat.shiftLeft_eq, BitVec.toNat_ofNat, Nat.one_mod, Nat.one_mul]
    exact Nat.mod_eq_of_lt hlt
  have hsub : (1#64 <<< rest - 1).toNat = 2 ^ rest - 1 := by
    rw [BitVec.toNat_sub, hone]
    simp only [BitVec.ofNat_eq_ofNat, BitVec.toNat_ofNat]
    omega
  rw [BitVec.toNat_and, hsub, Nat.and_two_pow_sub_one_eq_mod]

/-- A limb of the number shifted to the right. -/
def loweredLimb (limbs : List (BitVec 64)) (whole rest p : Nat) : BitVec 64 :=
  limbAt limbs (p + whole) >>> rest |||
    if rest = 0 then 0 else limbAt limbs (p + whole + 1) <<< (64 - rest)

/-- The limbs below `i` are in their places, the others as they were. -/
structure Lowered (limbs : List (BitVec 64)) (whole rest i : Nat) (now : List (BitVec 64)) :
    Prop where
  length : now.length = limbs.length
  placed : ∀ p < i, limbAt now p = loweredLimb limbs whole rest p
  left : ∀ p, i ≤ p → limbAt now p = limbAt limbs p

theorem shiftRightLoop_lowered {limbs now : List (BitVec 64)} {whole n : Nat}
    (h : Lowered limbs whole rest i now) (hn : i + n ≤ limbs.length) :
    Lowered limbs whole rest (i + n) (shiftRightLoop whole rest n i now) := by
  induction n generalizing i now with
  | zero => exact h
  | succ n ih =>
    have hlen := h.length
    rw [show i + (n + 1) = i + 1 + n by omega]
    refine ih ⟨by rw [List.length_set, hlen], fun p hp => ?_, fun p hp => ?_⟩ (by omega)
    · rw [Lib.limbAt_set _ (by omega)]
      split_ifs with hc hin
      · rw [hc, h.left _ (by omega), h.left _ (by omega), loweredLimb, if_neg hin.1]
      · -- above the upper end there are only zeros
        rw [hc, h.left _ (by omega), loweredLimb]
        rcases not_and_or.mp hin with hz | htop
        · rw [if_pos (not_not.mp hz), BitVec.ofNat_eq_ofNat, BitVec.or_zero]
        · rw [Lib.limbAt_of_le (show limbs.length ≤ i + whole + 1 by omega)]
          split_ifs <;> simp
      · exact h.placed p (by omega)
    · rw [Lib.limbAt_set _ (by omega), if_neg (by omega), h.left p (by omega)]

/-- A bit of a limb of the number shifted to the right. -/
theorem loweredLimb_bit (limbs : List (BitVec 64)) (whole : Nat) (hrest : rest < 64) (p : Nat)
    (hi : i < 64) : (loweredLimb limbs whole rest p).getLsbD i =
      (value limbs).testBit (64 * whole + rest + (64 * p + i)) := by
  unfold loweredLimb
  rw [BitVec.getLsbD_or, BitVec.getLsbD_ushiftRight]
  by_cases hc : rest + i < 64
  · have hnone : (if rest = 0 then 0 else limbAt limbs (p + whole + 1) <<< (64 - rest) :
        BitVec 64).getLsbD i = false := by
      split_ifs
      · exact BitVec.getLsbD_zero
      · rw [BitVec.getLsbD_shiftLeft, decide_eq_true (show i < 64 - rest by omega)]
        simp
    rw [hnone, Bool.or_false, ← Lib.testBit_value limbs (p + whole) hc]
    congr 1
    ring
  · rw [if_neg (by omega), BitVec.getLsbD_of_ge _ _ (not_lt.mp hc), Bool.false_or,
      BitVec.getLsbD_shiftLeft, decide_eq_true hi, decide_eq_false (by omega), Bool.not_false,
      Bool.true_and, Bool.true_and, ← Lib.testBit_value limbs (p + whole + 1) (by omega)]
    congr 1
    omega

/-- What the sticky bit collects: the digits that the shift drops. -/
theorem dropped_iff (limbs : List (BitVec 64)) {whole : Nat} (hwhole : whole ≤ limbs.length)
    (hrest : rest < 64) : value limbs % 2 ^ (64 * whole + rest) ≠ 0 ↔
      (limbs.take whole).any (· != 0) = true ∨ (limbAt limbs whole).toNat % 2 ^ rest ≠ 0 := by
  have hlimb : limbAt (limbs.drop whole) 0 = limbAt limbs whole := by
    unfold limbAt
    rw [List.getD_eq_getElem?_getD, List.getD_eq_getElem?_getD, List.getElem?_drop, Nat.add_zero]
  have hp := Nat.two_pow_pos (64 * whole)
  rw [pow_add, Nat.mod_mul, Lib.value_mod, Lib.value_div _ hwhole, Lib.value_mod_low _ hrest.le,
    hlimb, ne_eq, Nat.add_eq_zero_iff, not_and_or, Lib.value_eq_zero_iff, Nat.mul_eq_zero,
    or_iff_right hp.ne']
  refine or_congr_left ?_
  rw [List.any_eq_true]
  push Not
  simp only [bne_iff_ne]

theorem shiftRightSticky_eq (v : BigUint) {bits : Nat} (hbits : bits ≤ 64 * v.limbs.length)
    (sticky : Bool) : ∃ r, v.shiftRightSticky bits sticky =
        some (r, sticky || decide (v.toNat % 2 ^ bits ≠ 0)) ∧ r.toNat = v.toNat / 2 ^ bits := by
  have hrest : bits % 64 < 64 := Nat.mod_lt _ (by decide)
  have hsplit : 64 * (bits / 64) + bits % 64 = bits := Nat.div_add_mod bits 64
  have hdropped := dropped_iff v.limbs (show bits / 64 ≤ v.limbs.length by omega) hrest
  rw [hsplit] at hdropped
  have hstart : Lowered v.limbs (bits / 64) (bits % 64) 0 v.limbs :=
    ⟨rfl, fun p hp => absurd hp (Nat.not_lt_zero p), fun _ _ => rfl⟩
  obtain ⟨hlen, hplaced, -⟩ :=
    shiftRightLoop_lowered hstart (show 0 + (v.limbs.length - bits / 64) ≤ v.limbs.length by omega)
  unfold shiftRightSticky
  dsimp only
  rw [if_neg (by omega)]
  refine ⟨_, congrArg (fun b => some (_, b)) ?_, ?_⟩
  · have hmask : ((limbAt v.limbs (bits / 64) &&& (1#64 <<< (bits % 64) - 1)) != 0) =
        decide ((limbAt v.limbs (bits / 64)).toNat % 2 ^ (bits % 64) ≠ 0) := by
      rw [Bool.eq_iff_iff, bne_iff_ne, decide_eq_true_iff, ne_eq, BitVec.toNat_eq,
        toNat_and_low _ hrest]
      rfl
    have hall : decide (v.toNat % 2 ^ bits ≠ 0) = ((v.limbs.take (bits / 64)).any (· != 0) ||
        decide ((limbAt v.limbs (bits / 64)).toNat % 2 ^ (bits % 64) ≠ 0)) := by
      rw [Bool.eq_iff_iff, decide_eq_true_iff, Bool.or_eq_true, decide_eq_true_iff]
      exact hdropped
    rw [hmask, hall]
    split_ifs with hz
    · rw [Bool.or_assoc]
    · rw [not_not.mp hz, pow_zero, Nat.mod_one]
      simp
  · rw [ofLimbs_toNat]
    refine Lib.value_eq_of_bits (by decide) fun p i hi => ?_
    rw [Nat.testBit_div_two_pow, limbAt_resize, Nat.add_comm _ bits]
    have hbit := loweredLimb_bit v.limbs (bits / 64) hrest p hi
    rw [hsplit] at hbit
    rw [show v.toNat = value v.limbs from rfl, ← hbit]
    split_ifs with hp
    · rw [hplaced p (by omega)]
    · unfold loweredLimb
      rw [Lib.limbAt_of_le (show v.limbs.length ≤ p + bits / 64 by omega),
        Lib.limbAt_of_le (show v.limbs.length ≤ p + bits / 64 + 1 by omega)]
      split_ifs <;> simp

/-! ## 5. Bits -/

theorem toNat_lt (v : BigUint) : v.toNat < 2 ^ (64 * v.limbs.length) := Lib.value_lt v.limbs

theorem bitLength_eq (v : BigUint) :
    v.bitLength = if v.toNat = 0 then 0 else v.toNat.log2 + 1 := by
  unfold bitLength
  by_cases hz : v.toNat = 0
  · have hnil : v.limbs = [] := v.trimmed.eq_nil_iff.mpr hz
    rw [if_pos hz, hnil]
    rfl
  · obtain ⟨low, top, hlimbs, htop⟩ := v.trimmed.exists_top (mt v.trimmed.eq_nil_iff.mp hz)
    have htop0 : top.toNat ≠ 0 := fun h => htop (BitVec.eq_of_toNat_eq h)
    have hlow := Lib.value_lt low
    have hlog1 := Nat.log2_self_le htop0
    have hlog2 := Nat.lt_log2_self (n := top.toNat)
    have hlt : top.toNat.log2 < 64 := (Nat.log2_lt htop0).mpr top.isLt
    have hvalue : v.toNat = value low + 2 ^ (64 * low.length) * top.toNat := by
      rw [toNat, hlimbs, Lib.value_append]
      simp [value]
    have hlog : v.toNat.log2 = 64 * low.length + top.toNat.log2 := by
      rw [Nat.log2_eq_iff hz, hvalue, pow_add, Nat.add_assoc, pow_add]
      constructor
      · exact (Nat.mul_le_mul_left _ hlog1).trans (Nat.le_add_left _ _)
      · calc value low + 2 ^ (64 * low.length) * top.toNat
            < 2 ^ (64 * low.length) + 2 ^ (64 * low.length) * top.toNat := by omega
          _ = 2 ^ (64 * low.length) * (top.toNat + 1) := by ring
          _ ≤ _ := Nat.mul_le_mul_left _ hlog2
    rw [if_neg hz, hlog, hlimbs, List.getLast?_append_of_ne_nil _ (List.cons_ne_nil _ _)]
    simp only [List.getLast?_singleton, List.length_append, List.length_singleton,
      Float128.builtinClzll]
    omega

/-- The limbs put together from the highest on, in 128 bits. -/
theorem foldr_toNat (limbs : List (BitVec 64)) :
    (limbs.foldr (fun limb (top : BitVec 128) => top <<< 64 ||| limb.setWidth 128) 0).toNat =
      value limbs % 2 ^ 128 := by
  induction limbs with
  | nil => rfl
  | cons limb limbs ih =>
    have hl := limb.isLt
    rw [List.foldr_cons]
    generalize limbs.foldr (fun limb (top : BitVec 128) => top <<< 64 ||| limb.setWidth 128) 0 =
      top at ih
    have hshift : (top <<< 64).toNat = 2 ^ 64 * (top.toNat % 2 ^ 64) := by
      rw [BitVec.toNat_shiftLeft, Nat.shiftLeft_eq]
      omega
    have hlimb : (limb.setWidth 128 : BitVec 128).toNat = limb.toNat := by
      rw [BitVec.toNat_setWidth]
      omega
    rw [BitVec.toNat_or, hshift, hlimb, ← Nat.two_pow_add_eq_or_of_lt hl, ih, value]
    omega

/-- The leading bits, all of them where there are not as many. -/
theorem topBits_eq (v : BigUint) {bits : Nat} (hbits : bits ≤ 128) (sticky : Bool) :
    ∃ top, v.topBits bits sticky =
        some (top, sticky || decide (v.toNat % 2 ^ (v.bitLength - bits) ≠ 0)) ∧
      top.toNat = v.toNat / 2 ^ (v.bitLength - bits) := by
  have hlen := v.bitLength_eq
  have hlt := v.toNat_lt
  have hpow : 2 ^ bits ≤ 2 ^ 128 := Nat.pow_le_pow_right (by decide) hbits
  -- what is left has at most `bits` digits
  have hshort : v.toNat / 2 ^ (v.bitLength - bits) < 2 ^ bits := by
    rw [Nat.div_lt_iff_lt_mul (Nat.two_pow_pos _), ← pow_add]
    by_cases hz : v.toNat = 0
    · rw [hz]
      exact Nat.two_pow_pos _
    · rw [if_neg hz] at hlen
      exact Nat.lt_log2_self.trans_le (Nat.pow_le_pow_right (by decide) (by omega))
  unfold topBits
  rw [if_neg (not_lt.mpr hbits)]
  by_cases hc : v.bitLength > bits
  · have hroom : v.bitLength - bits ≤ 64 * v.limbs.length := by
      by_cases hz : v.toNat = 0
      · rw [if_pos hz] at hlen
        omega
      · rw [if_neg hz] at hlen
        have := (Nat.log2_lt hz).mpr hlt
        omega
    obtain ⟨r, hr, hval⟩ := v.shiftRightSticky_eq hroom sticky
    dsimp only
    rw [if_pos hc, hr]
    simp only [Option.bind_eq_bind, Option.bind_some, Option.pure_def]
    refine ⟨_, rfl, ?_⟩
    rw [foldr_toNat, show value r.limbs = r.toNat from rfl, hval, Nat.mod_eq_of_lt (by omega)]
  · rw [show v.bitLength - bits = 0 by omega, pow_zero, Nat.div_one] at hshort ⊢
    dsimp only
    rw [if_neg hc, Nat.mod_one]
    simp only [Option.bind_eq_bind, Option.bind_some, Option.pure_def, ne_eq, not_true_eq_false,
      decide_false, Bool.or_false]
    refine ⟨_, rfl, ?_⟩
    rw [foldr_toNat, show value v.limbs = v.toNat from rfl, Nat.mod_eq_of_lt (by omega)]

end BigUint

end Trustme.Numeric
