/-
  Subject:   `decimalDigits`, the digits that a `Float128` is printed with.

  * `toDecimal`: the digits of a `BigUint`, in chunks of 19;
  * `digitsAt`: a number in units of a power of ten, rounded by the digit below it;
  * `decimalDigits`: the exponent is estimated and put right by how many digits come out;
  * `digitsAt_eq`: the digits are those of the number in these units, to nearest, ties to even;
  * `estimate_near`: the estimate is at most one away from the exponent;
  * **`decimalDigits_eq_iff`** -- when the digits are the significant ones.

  `none` is a failed BUG_ASSERT, an access outside the limbs or an `int` that overflows.
-/
import Trustme.Lib.Numerals
import Trustme.Lib.SignificantDigits
import Trustme.Numeric.Float128Decimal
import Trustme.Numeric.U128Text

namespace Trustme.Numeric

open Lib (digitString places Told inUnits significant)

/-! ## 1. As the code computes it -/

namespace BigUint

/-- The digits of a chunk, the lowest first; the leading zeros of the last one are left out. -/
def chunkDigits (more : Bool) : Nat → BitVec 64 → List Char
  | 0, _ => []
  | n + 1, chunk =>
    if more || chunk != 0 then digitText (chunk % 10) :: chunkDigits more n (chunk / 10) else []

/-- The loop of `toDecimal`; the fuel is for as many rounds as there are bits. -/
def toDecimalLoop : Nat → BigUint → List Char → Option (List Char)
  | 0, copy, reversed => if copy.isZero then some reversed else none
  | fuel + 1, copy, reversed =>
    if copy.isZero then some reversed
    else do
      let (copy, chunk) ← copy.divideSmall 10000000000000000000
      toDecimalLoop fuel copy (reversed ++ chunkDigits (!copy.isZero) 19 chunk)

/-- `toDecimal`. -/
def toDecimal (v : BigUint) : Option (List Char) :=
  if v.isZero then some ['0'] else (toDecimalLoop v.bitLength v []).map List.reverse

end BigUint

namespace Float128

/-- The loop that adds one to the last digit, from there on to the front. -/
def increment : List Char → List Char
  | [] => ['1']
  | c :: wide => if c ≠ '9' then Char.ofNat (c.toNat + 1) :: wide else '0' :: increment wide

/-- `digitsAt` takes the last digit off and rounds by it. -/
def roundDigits (wide : List Char) (sticky : Bool) : Option (List Char) := do
  let extra ← wide.getLast?
  let wide := wide.dropLast.dropWhile (· == '0')
  let roundUp :=
    if extra > '5' then true
    else if extra < '5' then false
    else if sticky then true
    else match wide.getLast? with
      | none => false
      | some c => (c.toNat - '0'.toNat) % 2 != 0
  return if roundUp then (increment wide.reverse).reverse else wide

/-- The number that `digitsAt` takes its digits from, and the sticky bit. -/
def scaledWork (significand : BitVec 128) (exponent2 scale10 : Int) : Option (BigUint × Bool) := do
  let work := BigUint.fromU128 significand
  let work := if scale10 > 0 then multiplyPow5 work scale10.toNat else work
  let shift2 := exponent2 + scale10
  let work := if shift2 > 0 then work.shiftLeft shift2.toNat else work
  let (work, sticky) ←
    if scale10 < 0 then dividePow5Sticky work (-scale10).toNat false else some (work, false)
  if shift2 < 0 then work.shiftRightSticky (-shift2).toNat sticky else some (work, sticky)

/-- `digitsAt`. -/
def digitsAt (value : Unpacked) (lowestExponent10 : Int) : Option (List Char) := do
  if value.kind ≠ .finite then none
  else
    let scale10 := -lowestExponent10 + 1
    let exponent2 := value.exponent - significandBits
    let (work, sticky) ← scaledWork value.significand exponent2 scale10
    roundDigits (← work.toDecimal) sticky

/-- A size as an `int`. -/
def intOfSize (n : Nat) : Int := (n : Int).bmod (2 ^ 32)

/-- The result of an `int` operation. -/
def checkedInt (n : Int) : Option Int := if -2 ^ 31 ≤ n ∧ n < 2 ^ 31 then some n else none

/-- The loop of `decimalDigits`, with so many attempts left. -/
def decimalDigitsLoop (value : Unpacked) (digitCount : Int) : Nat → Int → Option (List Char × Int)
  | 0, _ => none
  | attempts + 1, estimate => do
      let digits ← digitsAt value (estimate - digitCount + 1)
      if intOfSize digits.length ≠ digitCount then
        let change ← checkedInt (intOfSize digits.length - digitCount)
        decimalDigitsLoop value digitCount attempts (← checkedInt (estimate + change))
      else return (digits, estimate)

/-- The first estimate of the decimal exponent. -/
def estimate (exponent : Int) : Int := (exponent * 30103).tdiv 100000

/-- `decimalDigits`: the digits and the decimal exponent. -/
def decimalDigits (value : Unpacked) (digitCount : Int) : Option (List Char × Int) :=
  if digitCount ≥ 1 then decimalDigitsLoop value digitCount 4 (estimate value.exponent) else none

/-! ## 2. Digits -/

theorem digitChar_increment {d : Nat} (h : d < 9) :
    Char.ofNat (d.digitChar.toNat + 1) = (d + 1).digitChar := by
  interval_cases d <;> rfl

theorem increment_digitString (n : Nat) :
    increment (digitString n).reverse = (digitString (n + 1)).reverse := by
  induction n using Nat.strong_induction_on with
  | _ n ih =>
    rcases Nat.eq_zero_or_pos n with rfl | hn
    · rfl
    have hmod := Nat.mod_lt n (show 0 < 10 by decide)
    rw [Lib.digitString_pos hn.ne', Lib.digitString_pos (Nat.succ_ne_zero n), List.reverse_append,
      List.reverse_append, List.reverse_singleton, List.reverse_singleton, List.singleton_append,
      List.singleton_append, increment]
    by_cases hd : n % 10 = 9
    · rw [if_neg (by rw [hd]; decide), ih (n / 10) (by omega), show (n + 1) % 10 = 0 by omega,
        show (n + 1) / 10 = n / 10 + 1 by omega]
      rfl
    · rw [if_pos (by rw [ne_eq, Nat.digitChar_eq_nine]; exact hd), digitChar_increment (by omega),
        show (n + 1) % 10 = n % 10 + 1 by omega, show (n + 1) / 10 = n / 10 by omega]

end Float128

namespace BigUint

theorem digitText_mod (chunk : BitVec 64) :
    digitText (chunk % 10) = (chunk.toNat % 10).digitChar := by
  have hmod : (chunk % 10).toNat = chunk.toNat % 10 := BitVec.toNat_umod
  rw [digitText_eq (by rw [hmod]; omega), hmod]

theorem chunkDigits_more (n : Nat) (chunk : BitVec 64) :
    chunkDigits true n chunk = (places n chunk.toNat).reverse := by
  induction n generalizing chunk with
  | zero => rfl
  | succ n ih =>
    have hdiv : (chunk / 10).toNat = chunk.toNat / 10 := BitVec.toNat_udiv
    rw [chunkDigits, Bool.true_or, if_pos rfl, digitText_mod, ih, hdiv, places, List.reverse_append]
    rfl

theorem chunkDigits_last {n : Nat} {chunk : BitVec 64} (h : chunk.toNat < 10 ^ n) :
    chunkDigits false n chunk = (digitString chunk.toNat).reverse := by
  induction n generalizing chunk with
  | zero =>
    rw [pow_zero, Nat.lt_one_iff] at h
    rw [h]
    rfl
  | succ n ih =>
    have hdiv : (chunk / 10).toNat = chunk.toNat / 10 := BitVec.toNat_udiv
    rw [pow_succ] at h
    rw [chunkDigits, Bool.false_or]
    by_cases hz : chunk = 0
    · rw [hz]
      rfl
    · have hne : chunk.toNat ≠ 0 := fun h0 => hz (BitVec.eq_of_toNat_eq h0)
      rw [if_pos (bne_iff_ne.mpr hz), digitText_mod, ih (by omega), hdiv, Lib.digitString_pos hne,
        List.reverse_append]
      rfl

theorem toDecimalLoop_eq (fuel : Nat) {v : BigUint} (reversed : List Char)
    (h : v.toNat < 2 ^ fuel) :
    toDecimalLoop fuel v reversed = some (reversed ++ (digitString v.toNat).reverse) := by
  induction fuel generalizing v reversed with
  | zero =>
    have hz : v.toNat = 0 := by omega
    rw [toDecimalLoop, if_pos (v.isZero_iff.mpr hz), hz]
    simp [Lib.digitString_zero]
  | succ fuel ih =>
    rw [toDecimalLoop]
    by_cases hz : v.toNat = 0
    · rw [if_pos (v.isZero_iff.mpr hz), hz]
      simp [Lib.digitString_zero]
    rw [if_neg (mt v.isZero_iff.mp hz)]
    obtain ⟨q, r, hdiv, hq, hr⟩ := 
      v.divideSmall_eq (show 0 < (10000000000000000000 : BitVec 64).toNat by decide)
    have hten : (10000000000000000000 : BitVec 64).toNat = 10 ^ 19 := rfl
    rw [hten] at hq hr
    rw [hdiv]
    simp only [Option.bind_eq_bind, Option.bind_some]
    rw [pow_succ] at h
    rw [ih _ (by omega), List.append_assoc]
    congr 2
    by_cases hq0 : q.toNat = 0
    · have hv : v.toNat % 10 ^ 19 = v.toNat := Nat.mod_eq_of_lt (by omega)
      rw [q.isZero_iff.mpr hq0, Bool.not_true, chunkDigits_last (by omega), hr, hv, hq0]
      exact List.append_nil _
    · have hmore : (!q.isZero) = true := by
        rw [Bool.not_eq_true']
        exact Bool.eq_false_iff.mpr (mt q.isZero_iff.mp hq0)
      rw [hq] at hq0
      rw [hmore, chunkDigits_more, hr, Lib.places_mod, hq, Lib.digitString_append hq0,
        List.reverse_append]

theorem toDecimal_eq {v : BigUint} (h : v.toNat ≠ 0) :
    v.toDecimal = some (digitString v.toNat) := by
  have hlen := v.bitLength_eq
  rw [if_neg h] at hlen
  unfold toDecimal
  rw [if_neg (mt v.isZero_iff.mp h), toDecimalLoop_eq _ _ (by rw [hlen]; exact Nat.lt_log2_self)]
  simp

end BigUint

namespace Float128

/-- How `digitsAt` rounds. -/
theorem roundDigits_eq {w : Nat} (hw : w ≠ 0) (sticky : Bool) :
    roundDigits (digitString w) sticky = some (digitString (w / 10 +
      if 5 < w % 10 ∨ (w % 10 = 5 ∧ (sticky = true ∨ w / 10 % 2 = 1)) then 1 else 0)) := by
  have hmod := Nat.mod_lt w (show 0 < 10 by decide)
  have habove : (w % 10).digitChar > '5' ↔ 5 < w % 10 := by
    generalize w % 10 = d at hmod
    interval_cases d <;> decide
  have hbelow : (w % 10).digitChar < '5' ↔ w % 10 < 5 := by
    generalize w % 10 = d at hmod
    interval_cases d <;> decide
  have hodd : (match (digitString (w / 10)).getLast? with
      | none => false
      | some c => (c.toNat - '0'.toNat) % 2 != 0) = decide (w / 10 % 2 = 1) := by
    rcases Nat.eq_zero_or_pos (w / 10) with hz | hpos
    · rw [hz]
      rfl
    · have hlt := Nat.mod_lt (w / 10) (show 0 < 10 by decide)
      rw [Lib.digitString_pos hpos.ne', List.getLast?_concat]
      dsimp only
      rw [Nat.toNat_digitChar_of_lt_ten hlt, Bool.eq_iff_iff, bne_iff_ne, decide_eq_true_iff]
      show (48 + w / 10 % 10 - 48) % 2 ≠ 0 ↔ _
      omega
  unfold roundDigits
  rw [Lib.digitString_pos hw, List.getLast?_concat, List.dropLast_concat]
  simp only [Option.bind_eq_bind, Option.bind_some, Lib.dropWhile_digitString, hodd, habove, hbelow]
  have hup : (if 5 < w % 10 then true else if w % 10 < 5 then false
      else if sticky = true then true else decide (w / 10 % 2 = 1)) = true ↔
      5 < w % 10 ∨ (w % 10 = 5 ∧ (sticky = true ∨ w / 10 % 2 = 1)) := by
    split_ifs with h1 h2 h3
    · simp [h1]
    · simp only [false_iff]
      omega
    · exact iff_of_true rfl (.inr ⟨by omega, .inl h3⟩)
    · have hfive : w % 10 = 5 := by omega
      simp [h3, hfive]
  simp only [hup]
  split_ifs
  · rw [increment_digitString, List.reverse_reverse]
    rfl
  · rfl

/-! ## 3. The digits in units of a power of ten -/

/-- What the digits and the sticky bit tell about the nearest tenth. -/
theorem told_tenth {y : ℚ} {w : Nat} {sticky : Bool} (h : Told y w 0 sticky) :
    Lib.halfEven (y / 10) = (w / 10 +
      if 5 < w % 10 ∨ (w % 10 = 5 ∧ (sticky = true ∨ w / 10 % 2 = 1)) then 1 else 0 : Nat) := by
  have hw : ((w / 10 : Nat) : ℚ) * 10 + ((w % 10 : Nat) : ℚ) = w := by
    rw [mul_comm]
    exact_mod_cast Nat.div_add_mod w 10
  have hmod := Nat.mod_lt w (show 0 < 10 by decide)
  have hlo : (w : ℚ) ≤ y := by simpa using h.le
  have hhi : y < w + 1 := by simpa using h.lt
  generalize w / 10 = n at hw ⊢
  generalize w % 10 = d at hw hmod ⊢
  have hd : (d : ℚ) + 1 ≤ 10 := by exact_mod_cast hmod
  have hd0 : (0 : ℚ) ≤ d := Nat.cast_nonneg d
  have hfloor : ⌊y / 10⌋ = (n : ℤ) := by
    rw [Int.floor_eq_iff, Int.cast_natCast]
    constructor <;> linarith
  unfold Lib.halfEven
  rw [hfloor, Int.cast_natCast]
  rcases lt_trichotomy d 5 with hc | rfl | hc
  · have hd5 : (d : ℚ) + 1 ≤ 5 := by exact_mod_cast hc
    rw [if_pos (by linarith), if_neg (by omega), Nat.add_zero]
  · push_cast at hw
    rw [if_neg (by linarith)]
    cases sticky
    · have hy : y = w := by simpa [Told] using h
      rw [if_neg (by linarith)]
      by_cases hodd : n % 2 = 1
      · rw [if_neg (by rw [Int.even_iff]; omega), if_pos (.inr ⟨rfl, .inr hodd⟩)]
        push_cast
        rfl
      · rw [if_pos (by rw [Int.even_iff]; omega), if_neg fun hc => hc.elim (absurd · (lt_irrefl 5))
          fun hc => hc.2.elim Bool.noConfusion hodd, Nat.add_zero]
    · have hlt : (w : ℚ) < y := by simpa [Told] using h.1
      rw [if_pos (by linarith), if_pos (.inr ⟨rfl, .inl rfl⟩)]
      push_cast
      rfl
  · have hd6 : (6 : ℚ) ≤ d := by exact_mod_cast hc
    rw [if_neg (by linarith), if_pos (by linarith), if_pos (.inl hc)]
    push_cast
    rfl

/-- The last step of the scaling; what is left is not zero. -/
theorem lowered_told {y : ℚ} (hy : 1 ≤ y) {work : BigUint} {sticky : Bool} {shift2 : Int}
    (h : Told y work.toNat (min shift2 0) sticky) : ∃ w sticky',
      (if shift2 < 0 then work.shiftRightSticky (-shift2).toNat sticky else some (work, sticky)) =
        some (w, sticky') ∧ w.toNat ≠ 0 ∧ Told y w.toNat 0 sticky' := by
  have hlt := h.lt
  by_cases hs : shift2 < 0
  · obtain ⟨n, rfl⟩ : ∃ n : ℕ, shift2 = -(n : ℤ) := ⟨(-shift2).toNat, by omega⟩
    rw [min_eq_left hs.le] at h hlt
    have hlow : 2 ^ n ≤ work.toNat := by
      have hpos := Lib.two_zpow_pos (K := ℚ) n
      rw [zpow_neg, zpow_natCast, ← div_eq_mul_inv, lt_div_iff₀ (by positivity)] at hlt
      have hlt' : (2 : ℚ) ^ n < work.toNat + 1 := by
        nlinarith [pow_pos (show (0 : ℚ) < 2 by norm_num) n]
      exact Nat.lt_succ_iff.mp (by exact_mod_cast hlt')
    have hroom : n ≤ 64 * work.limbs.length :=
      ((Nat.pow_lt_pow_iff_right (by decide)).mp (hlow.trans_lt work.toNat_lt)).le
    obtain ⟨w, hw, hwv⟩ := work.shiftRightSticky_eq hroom sticky
    rw [if_pos hs, show (- -(n : ℤ)).toNat = n by omega]
    refine ⟨w, _, hw, ?_, ?_⟩
    · rw [hwv]
      exact (Nat.div_pos hlow (Nat.two_pow_pos n)).ne'
    · have hright := h.shiftRight n
      rwa [neg_add_cancel, ← hwv] at hright
  · rw [min_eq_right (not_lt.mp hs)] at h hlt
    rw [if_neg hs]
    refine ⟨work, sticky, rfl, fun h0 => ?_, h⟩
    rw [h0, Nat.cast_zero, zero_add, one_mul, zpow_zero] at hlt
    linarith

/-- The scaled number is told by its digits and the sticky bit. -/
theorem scaledWork_told {s : BitVec 128} {e k : Int} (hy : (1 : ℚ) ≤ s.toNat * 2 ^ e * 10 ^ k) :
    ∃ w sticky, scaledWork s e k = some (w, sticky) ∧ w.toNat ≠ 0 ∧
      Told (s.toNat * 2 ^ e * 10 ^ k : ℚ) w.toNat 0 sticky := by
  have hraise (work : BigUint) :
      (if e + k > 0 then work.shiftLeft (e + k).toNat else work).toNat =
        work.toNat * 2 ^ (e + k).toNat := by
    split_ifs with h
    · exact work.shiftLeft_toNat _
    · rw [show (e + k).toNat = 0 by omega, pow_zero, Nat.mul_one]
  -- the two shifts together
  have hshift : (2 : ℚ) ^ (e + k) = 2 ^ (e + k).toNat * 2 ^ min (e + k) 0 := by
    rw [← zpow_natCast, ← Lib.two_zpow_add]
    congr 1
    omega
  have hten (j : ℤ) : (10 : ℚ) ^ j = 5 ^ j * 2 ^ j := by rw [← mul_zpow]; norm_num
  unfold scaledWork
  dsimp only
  by_cases hk : k < 0
  · obtain ⟨j, rfl⟩ : ∃ j : ℕ, k = -(j : ℤ) := ⟨(-k).toNat, by omega⟩
    rw [if_pos hk, if_neg (show ¬ -(j : ℤ) > 0 by omega), show (- -(j : ℤ)).toNat = j by omega]
    obtain ⟨q, hq, hqv⟩ := dividePow5Sticky_eq (if e + -(j : ℤ) > 0 then
      (BigUint.fromU128 s).shiftLeft (e + -(j : ℤ)).toNat else BigUint.fromU128 s) j false
    rw [hraise, BigUint.fromU128_toNat] at hq hqv
    have htold := Lib.told_div (K := ℚ) (s.toNat * 2 ^ (e + -(j : ℤ)).toNat)
      (Nat.pow_pos (n := j) (show 0 < 5 by decide)) (min (e + -(j : ℤ)) 0)
    rw [← hqv] at htold
    have hvalue : (s.toNat * 2 ^ e * 10 ^ (-(j : ℤ)) : ℚ) =
        ((s.toNat * 2 ^ (e + -(j : ℤ)).toNat : ℕ) : ℚ) / ((5 ^ j : ℕ) : ℚ) *
          2 ^ min (e + -(j : ℤ)) 0 := by
      push_cast
      rw [hten, zpow_neg, zpow_natCast, mul_comm ((5 : ℚ) ^ j)⁻¹, ← mul_assoc,
        mul_assoc _ ((2 : ℚ) ^ e),
        ← Lib.two_zpow_add, hshift]
      ring
    rw [← hvalue] at htold
    rw [hq]
    exact lowered_told hy htold
  · obtain ⟨j, rfl⟩ := Int.eq_ofNat_of_zero_le (not_lt.mp hk)
    rw [if_neg hk]
    have hmul : (if (j : ℤ) > 0 then multiplyPow5 (BigUint.fromU128 s) (j : ℤ).toNat
        else BigUint.fromU128 s).toNat = s.toNat * 5 ^ j := by
      split_ifs with h
      · rw [multiplyPow5_toNat, BigUint.fromU128_toNat, Int.toNat_natCast]
      · rw [BigUint.fromU128_toNat, show j = 0 by omega, pow_zero, Nat.mul_one]
    simp only [Option.bind_eq_bind, Option.bind_some]
    refine lowered_told hy ?_
    show _ = _
    rw [hraise, hmul, hten, zpow_natCast, mul_assoc, mul_left_comm ((2 : ℚ) ^ e),
      ← Lib.two_zpow_add,
      hshift]
    push_cast
    ring

/-- **The digits of a number in units of a power of ten**, to nearest, ties to even. -/
theorem digitsAt_eq {f : Float128} {u : Unpacked} (h : Parts f u) {lowest : Int}
    (hlow : (10 : ℚ) ^ (lowest - 1) ≤ f.magnitude) :
    digitsAt u lowest = some (digitString (inUnits f.magnitude lowest).toNat) := by
  have hscaled : (u.significand.toNat * 2 ^ (u.exponent - 112) * 10 ^ (-lowest + 1) : ℚ) =
      f.magnitude / 10 ^ (lowest - 1) := by
    rw [← h.magnitude, show -lowest + 1 = -(lowest - 1) by ring, zpow_neg, div_eq_mul_inv]
  have hone : (1 : ℚ) ≤ u.significand.toNat * 2 ^ (u.exponent - 112) * 10 ^ (-lowest + 1) := by
    rw [hscaled]
    exact (one_le_div (Lib.ten_zpow_pos _)).mpr hlow
  obtain ⟨w, sticky, hwork, hw, htold⟩ := scaledWork_told hone
  have htenth : f.magnitude / 10 ^ (lowest - 1) / 10 = f.magnitude / 10 ^ lowest := by
    rw [div_div, ← zpow_add_one₀ (by norm_num), sub_add_cancel]
  have hround := told_tenth htold
  rw [hscaled, htenth] at hround
  unfold digitsAt significandBits
  rw [if_neg (not_not.mpr h.kind)]
  simp only [Nat.cast_ofNat, hwork, Option.bind_eq_bind, Option.bind_some, BigUint.toDecimal_eq hw]
  rw [roundDigits_eq hw, inUnits, hround, Int.toNat_natCast]

/-! ## 4. The estimate -/

theorem ten_pow_le_two_pow {i j : Nat} (h : 196 * i ≤ 59 * j) : 10 ^ i ≤ 2 ^ j := by
  have hbase : 10 ^ 59 ≤ 2 ^ 196 := by decide
  refine (Nat.pow_le_pow_iff_left (show 59 ≠ 0 by decide)).mp ?_
  calc (10 ^ i) ^ 59 = (10 ^ 59) ^ i := by rw [← pow_mul, ← pow_mul, Nat.mul_comm]
    _ ≤ (2 ^ 196) ^ i := Nat.pow_le_pow_left hbase i
    _ = 2 ^ (196 * i) := (pow_mul ..).symm
    _ ≤ 2 ^ (j * 59) := Nat.pow_le_pow_right (by decide) (by omega)
    _ = (2 ^ j) ^ 59 := pow_mul ..

theorem two_pow_le_ten_pow {i j : Nat} (h : 4004 * i ≤ 13301 * j) : 2 ^ i ≤ 10 ^ j := by
  have hbase : 2 ^ 13301 ≤ 10 ^ 4004 := by decide +kernel
  refine (Nat.pow_le_pow_iff_left (show 4004 ≠ 0 by decide)).mp ?_
  calc (2 ^ i) ^ 4004 = 2 ^ (4004 * i) := by rw [← pow_mul, Nat.mul_comm]
    _ ≤ 2 ^ (13301 * j) := Nat.pow_le_pow_right (by decide) h
    _ = (2 ^ 13301) ^ j := pow_mul ..
    _ ≤ (10 ^ 4004) ^ j := Nat.pow_le_pow_left hbase j
    _ = (10 ^ j) ^ 4004 := by rw [← pow_mul, ← pow_mul, Nat.mul_comm]

theorem ten_zpow_le_two_zpow {i j : ℤ} (hpos : 0 ≤ j → 196 * i ≤ 59 * j)
    (hneg : j < 0 → 13301 * i ≤ 4004 * j) : (10 : ℚ) ^ i ≤ 2 ^ j := by
  rcases le_or_gt 0 j with hj | hj
  · obtain ⟨b, rfl⟩ := Int.eq_ofNat_of_zero_le hj
    rcases le_or_gt 0 i with hi | hi
    · obtain ⟨a, rfl⟩ := Int.eq_ofNat_of_zero_le hi
      have := ten_pow_le_two_pow (i := a) (j := b) (by have := hpos hj; omega)
      rw [zpow_natCast, zpow_natCast]
      exact_mod_cast this
    · exact (zpow_le_one_of_nonpos₀ (by norm_num) hi.le).trans (one_le_zpow₀ (by norm_num) hj)
  · have hneg := hneg hj
    obtain ⟨b, rfl⟩ : ∃ b : ℕ, j = -(b : ℤ) := ⟨(-j).toNat, by omega⟩
    obtain ⟨a, rfl⟩ : ∃ a : ℕ, i = -(a : ℤ) := ⟨(-i).toNat, by omega⟩
    have := two_pow_le_ten_pow (i := b) (j := a) (by omega)
    rw [zpow_neg, zpow_neg, zpow_natCast, zpow_natCast]
    exact inv_anti₀ (by positivity) (by exact_mod_cast this)

theorem two_zpow_le_ten_zpow {i j : ℤ} (hpos : 0 ≤ i → 4004 * i ≤ 13301 * j)
    (hneg : i < 0 → 59 * i ≤ 196 * j) : (2 : ℚ) ^ i ≤ 10 ^ j := by
  rcases le_or_gt 0 i with hi | hi
  · have hpos := hpos hi
    obtain ⟨a, rfl⟩ := Int.eq_ofNat_of_zero_le hi
    obtain ⟨b, rfl⟩ := Int.eq_ofNat_of_zero_le (show 0 ≤ j by omega)
    have := two_pow_le_ten_pow (i := a) (j := b) (by omega)
    rw [zpow_natCast, zpow_natCast]
    exact_mod_cast this
  · rcases le_or_gt 0 j with hj | hj
    · exact (zpow_le_one_of_nonpos₀ (by norm_num) hi.le).trans (one_le_zpow₀ (by norm_num) hj)
    · obtain ⟨a, rfl⟩ : ∃ a : ℕ, i = -(a : ℤ) := ⟨(-i).toNat, by omega⟩
      obtain ⟨b, rfl⟩ : ∃ b : ℕ, j = -(b : ℤ) := ⟨(-j).toNat, by omega⟩
      have := ten_pow_le_two_pow (i := b) (j := a) (by have := hneg hi; omega)
      rw [zpow_neg, zpow_neg, zpow_natCast, zpow_natCast]
      exact inv_anti₀ (by positivity) (by exact_mod_cast this)

/-- A number lies between two powers of two. -/
theorem Parts.magnitude_mem {f : Float128} {u : Unpacked} (h : Parts f u) :
    (2 : ℚ) ^ u.exponent ≤ f.magnitude ∧ f.magnitude < 2 ^ (u.exponent + 1) := by
  have hpos := Lib.two_zpow_pos (K := ℚ) (u.exponent - 112)
  have hlo : (2 : ℚ) ^ 112 ≤ u.significand.toNat := by exact_mod_cast h.le_significand
  have hhi : (u.significand.toNat : ℚ) < 2 ^ 113 := by exact_mod_cast h.significand_lt
  have hsplit (n : Nat) : (2 : ℚ) ^ (u.exponent - 112 + n) = 2 ^ n * 2 ^ (u.exponent - 112) := by
    rw [Lib.two_zpow_add_nat, mul_comm]
  rw [h.magnitude]
  constructor
  · rw [show u.exponent = u.exponent - 112 + (112 : ℕ) by push_cast; ring, hsplit,
      show u.exponent - 112 + (112 : ℕ) - 112 = u.exponent - 112 by push_cast; ring]
    exact mul_le_mul_of_nonneg_right hlo hpos.le
  · rw [show u.exponent + 1 = u.exponent - 112 + (113 : ℕ) by push_cast; ring, hsplit]
    exact mul_lt_mul_of_pos_right hhi hpos

theorem estimate_nonneg {e : Int} (h : 0 ≤ e) : estimate e = e * 30103 / 100000 :=
  Int.tdiv_eq_ediv_of_nonneg (by omega)

/-- Below 1 the estimate is rounded up. -/
theorem estimate_neg {e : Int} (h : e < 0) : estimate e = -(-e * 30103 / 100000) := by
  have hneg : e * 30103 = -(-e * 30103) := by ring
  unfold estimate
  rw [hneg, Int.neg_tdiv, Int.tdiv_eq_ediv_of_nonneg (by omega)]

/-- **The estimate is at most one away from the exponent.** -/
theorem estimate_near {f : Float128} {u : Unpacked} (h : Parts f u) :
    estimate u.exponent - 1 ≤ Int.log 10 f.magnitude ∧
      Int.log 10 f.magnitude ≤ estimate u.exponent + 1 := by
  obtain ⟨hlo, hhi⟩ := h.magnitude_mem
  have h1 := h.le_exponent
  have h2 := h.exponent_le
  have hpos := h.magnitude_pos
  have hest1 (h : 0 ≤ u.exponent) := estimate_nonneg h
  have hest2 (h : u.exponent < 0) := estimate_neg h
  have hbelow : (10 : ℚ) ^ (estimate u.exponent - 1) ≤ f.magnitude :=
    (ten_zpow_le_two_zpow (fun hj => by have := hest1 hj; omega)
      fun hj => by have := hest2 hj; omega).trans hlo
  have habove : f.magnitude < (10 : ℚ) ^ (estimate u.exponent + 2) :=
    hhi.trans_le (two_zpow_le_ten_zpow (fun hi => by omega) fun hi => by omega)
  have hlog1 := (Int.zpow_le_iff_le_log (b := 10) (by decide) hpos).mp (by exact_mod_cast hbelow)
  have hlog2 := (Int.lt_zpow_iff_log_lt (b := 10) (by decide) hpos).mp (by exact_mod_cast habove)
  omega

/-! ## 5. The attempts -/

theorem estimate_cases {f : Float128} {u : Unpacked} (h : Parts f u) :
    estimate u.exponent = Int.log 10 f.magnitude ∨
      estimate u.exponent = Int.log 10 f.magnitude + 1 ∨
      estimate u.exponent = Int.log 10 f.magnitude - 1 := by
  obtain ⟨hlo, hhi⟩ := estimate_near h
  omega

theorem digits_length {n : ℤ} {k : ℕ} (hlo : 10 ^ k ≤ 10 * n) (hhi : n < 10 ^ k) :
    (digitString n.toNat).length = k := by
  have hpos : (0 : ℤ) < 10 ^ k := by positivity
  have hn : ((n.toNat : ℕ) : ℤ) = n := Int.toNat_of_nonneg (by omega)
  refine Lib.digitString_length ?_ ?_
  · exact_mod_cast (show ((n.toNat : ℕ) : ℤ) < 10 ^ k by omega)
  · exact_mod_cast (show (10 : ℤ) ^ k ≤ 10 * (n.toNat : ℕ) by omega)

theorem digits_length_pow (k : ℕ) : (digitString ((10 : ℤ) ^ k).toNat).length = k + 1 :=
  digits_length (pow_succ' (10 : ℤ) k).le (pow_lt_pow_right₀ (by norm_num) (Nat.lt_succ_self k))

theorem intOfSize_eq {n : Nat} (h : n < 2 ^ 31) : intOfSize n = n := by
  unfold intOfSize
  rw [Int.bmod_eq_of_le] <;> omega

theorem checkedInt_eq {n : Int} (hlo : -2 ^ 31 ≤ n) (hhi : n < 2 ^ 31) : checkedInt n = some n :=
  if_pos ⟨hlo, hhi⟩

section Attempts

variable {value : Unpacked} {d : Nat} {e lowest : Int} {digits : List Char}
  (hlow : e - d + 1 = lowest) (hdigits : digitsAt value lowest = some digits)

include hlow hdigits

/-- As many digits as there should be end the loop. -/
theorem loop_accept (attempts : Nat) (hd : d < 2 ^ 31) (hlen : digits.length = d) :
    decimalDigitsLoop value d (attempts + 1) e = some (digits, e) := by
  rw [decimalDigitsLoop, hlow, hdigits, Option.bind_eq_bind, Option.bind_some]
  rw [intOfSize_eq (hlen ▸ hd), hlen, if_neg (not_not.mpr rfl)]
  rfl

/-- Too few or too many digits put the estimate right. -/
theorem loop_retry (attempts : Nat) (hsize : digits.length < 2 ^ 31) {t : Int}
    (ht : t = e + (digits.length - d)) (hne : t ≠ e) (hd : d < 2 ^ 31) (hlo : -2 ^ 31 ≤ t)
    (hhi : t < 2 ^ 31) :
    decimalDigitsLoop value d (attempts + 1) e = decimalDigitsLoop value d attempts t := by
  rw [decimalDigitsLoop, hlow, hdigits, Option.bind_eq_bind, Option.bind_some]
  rw [intOfSize_eq hsize, if_pos (by omega), checkedInt_eq (by omega) (by omega),
    Option.bind_eq_bind,
    Option.bind_some, ← ht, checkedInt_eq hlo hhi]
  rfl

/-- A text of `2 ^ 31` digits has no size as an `int`. -/
theorem loop_overflow (attempts : Nat) (hsize : digits.length = 2 ^ 31) (hd : d = 2 ^ 31 - 1) :
    decimalDigitsLoop value d (attempts + 1) e = none := by
  have hint : intOfSize digits.length = -2 ^ 31 := by
    rw [hsize]
    rfl
  rw [decimalDigitsLoop, hlow, hdigits, Option.bind_eq_bind, Option.bind_some]
  rw [hint, if_pos (by omega), checkedInt, if_neg (by omega)]
  rfl

end Attempts

section Exponents

variable {f : Float128} {u : Unpacked} (h : Parts f u)

include h

theorem Parts.log_mem : -4967 ≤ Int.log 10 f.magnitude ∧ Int.log 10 f.magnitude ≤ 4933 := by
  have hest := estimate_near h
  have h1 := h.le_exponent
  have h2 := h.exponent_le
  have hest1 (h : 0 ≤ u.exponent) := estimate_nonneg h
  have hest2 (h : u.exponent < 0) := estimate_neg h
  omega

/-- Units far below the last digit of the number do not round it. -/
theorem Parts.inUnits_lt {l : ℤ} {b : ℕ} (hl : l ≤ -16606) (hx : f.magnitude < (10 : ℚ) ^ (l + b)) :
    inUnits f.magnitude l < 10 ^ b := by
  obtain ⟨n, rfl⟩ : ∃ n : ℕ, l = -(n : ℤ) := ⟨(-l).toNat, by omega⟩
  have hexp := h.le_exponent
  obtain ⟨m, hm⟩ : ∃ m : ℕ, u.exponent - 112 + n = m := ⟨(u.exponent - 112 + n).toNat, by omega⟩
  have hvalue : f.magnitude = ((u.significand.toNat * 5 ^ n * 2 ^ m : ℕ) : ℤ) * 10 ^
    (-(n : ℤ)) := by
    have htwo : (2 : ℚ) ^ (u.exponent - 112) = 2 ^ m * (2 ^ n)⁻¹ := by
      rw [show u.exponent - 112 = (m : ℤ) + -(n : ℤ) by
        omega, Lib.two_zpow_add, zpow_neg, zpow_natCast,
        zpow_natCast]
    have hten : (10 : ℚ) ^ n = 2 ^ n * 5 ^ n := by rw [← mul_pow]; norm_num
    rw [h.magnitude, htwo, zpow_neg, zpow_natCast, hten]
    push_cast
    field_simp
  rw [Lib.inUnits_of_eq hvalue]
  rw [hvalue, Lib.ten_zpow_add_nat] at hx
  exact_mod_cast lt_of_mul_lt_mul_right hx (Lib.ten_zpow_pos _).le

theorem Parts.digitsAt_eq (d : ℕ) {e : ℤ} (he : e ≤ Int.log 10 f.magnitude + 1) :
    digitsAt u (e - d) = some (digitString (inUnits f.magnitude (e - d)).toNat) :=
  Float128.digitsAt_eq h
    ((zpow_le_zpow_right₀ (by norm_num) (by omega)).trans (Lib.log_le h.magnitude_pos))

variable {d : ℕ}

/-- One digit less is enough where it is rounded up to a power of ten. -/
theorem loop_above (hd : d + 1 < 2 ^ 31) (attempts : ℕ)
    (hup : inUnits f.magnitude (Int.log 10 f.magnitude + 1 - d) = 10 ^ d) :
    decimalDigitsLoop u (d + 1 : ℕ) (attempts + 1) (Int.log 10 f.magnitude + 1) =
      some (digitString (10 ^ d), Int.log 10 f.magnitude + 1) := by
  have hdigits := h.digitsAt_eq d (Int.le_refl (Int.log 10 f.magnitude + 1))
  rw [hup] at hdigits
  have hcast : ((10 : ℤ) ^ d).toNat = 10 ^ d := by
    rw [show (10 : ℤ) ^ d = ((10 ^ d : ℕ) : ℤ) by push_cast; rfl, Int.toNat_natCast]
  rw [loop_accept (by push_cast; ring) hdigits attempts hd (digits_length_pow d), hcast]

omit h in
theorem lt_log_units (d : ℕ) :
    f.magnitude < (10 : ℚ) ^ (Int.log 10 f.magnitude - d + (d + 1 : ℕ)) := by
  rw [show Int.log 10 f.magnitude - d + (d + 1 : ℕ) = Int.log 10 f.magnitude + 1 by push_cast; ring]
  exact Lib.lt_log

/-- From the exponent itself on the loop finds the digits, in one round or in two. -/
theorem loop_at (hd : d + 1 < 2 ^ 31) (attempts : ℕ) :
    decimalDigitsLoop u (d + 1 : ℕ) (attempts + 2) (Int.log 10 f.magnitude) =
      some (digitString (significant (d + 1) f.magnitude).1,
        (significant (d + 1) f.magnitude).2) := by
  have hlog := h.log_mem
  obtain ⟨hlo, hhi⟩ := Lib.inUnits_log h.magnitude_pos d
  have hdigits := h.digitsAt_eq d (e := Int.log 10 f.magnitude) (by omega)
  have hunit : Int.log 10 f.magnitude - (d + 1 : ℕ) + 1 = Int.log 10 f.magnitude - d := by
    push_cast
    ring
  unfold significant
  rw [hunit]
  dsimp only
  split_ifs with hc
  · -- the digits carry into one more, and are taken again with the next exponent
    have hup := Lib.inUnits_carry (lt_log_units d) hc
    rw [sub_add_eq_add_sub] at hup
    have hfew : d + 2 < 2 ^ 31 := by
      by_contra hmany
      exact (h.inUnits_lt (by omega) (lt_log_units d)).ne hc
    have hlen := digits_length_pow (d + 1)
    rw [hc] at hdigits
    rw [loop_retry hunit hdigits (attempts + 1) (t := Int.log 10 f.magnitude + 1) (by omega)
      (by omega)
      (by omega) hd (by omega) (by omega), loop_above h hd attempts hup, Nat.add_sub_cancel]
  · have hlen := digits_length (k := d + 1) (by rw [pow_succ']; omega) (lt_of_le_of_ne hhi hc)
    exact loop_accept hunit hdigits (attempts + 1) hd hlen

/-- The loop from an estimate that is one too low: it needs room for one digit more. -/
theorem loop_below (hd : d + 2 < 2 ^ 31) (attempts : ℕ) :
    decimalDigitsLoop u (d + 1 : ℕ) (attempts + 3) (Int.log 10 f.magnitude - 1) =
      some (digitString (significant (d + 1) f.magnitude).1,
        (significant (d + 1) f.magnitude).2) := by
  have hlog := h.log_mem
  obtain ⟨hlo, hhi⟩ := Lib.inUnits_log h.magnitude_pos (d + 1)
  have hdigits := h.digitsAt_eq (d + 1) (e := Int.log 10 f.magnitude) (by omega)
  have hunit : Int.log 10 f.magnitude - 1 - (d + 1 : ℕ) + 1 =
    Int.log 10 f.magnitude - (d + 1 : ℕ) := by
    ring
  by_cases hc : inUnits f.magnitude (Int.log 10 f.magnitude - (d + 1 : ℕ)) = 10 ^ (d + 1 + 1)
  · have hup := Lib.inUnits_carry (lt_log_units (d + 1)) hc
    have hlow : Int.log 10 f.magnitude - (d + 1 : ℕ) + 1 = Int.log 10 f.magnitude - d := by
      push_cast
      ring
    rw [hlow] at hup
    have hup2 := Lib.inUnits_carry (lt_log_units d) hup
    rw [sub_add_eq_add_sub] at hup2
    have hfew : d + 3 < 2 ^ 31 := by
      by_contra hmany
      exact (h.inUnits_lt (by omega) (lt_log_units (d + 1))).ne hc
    have hlen := digits_length_pow (d + 1 + 1)
    rw [hc] at hdigits
    rw [loop_retry hunit hdigits (attempts + 2) (t := Int.log 10 f.magnitude + 1) (by omega)
      (by omega)
      (by omega) (by omega) (by omega) (by omega), loop_above h (by omega) (attempts + 1) hup2]
    unfold significant
    rw [hlow]
    dsimp only
    rw [if_pos hup, Nat.add_sub_cancel]
  · have hlen := digits_length (k := d + 2) (by rw [pow_succ']; omega) (lt_of_le_of_ne hhi hc)
    rw [loop_retry hunit hdigits (attempts + 2) (t := Int.log 10 f.magnitude) (by omega) (by omega)
      (by omega) (by omega) (by omega) (by omega)]
    exact loop_at h (by omega) attempts

/-- With one digit less there is one digit less, or the next power of ten. -/
theorem above_length (hc : inUnits f.magnitude (Int.log 10 f.magnitude + 1 - d) ≠ 10 ^ d) :
    (digitString (inUnits f.magnitude (Int.log 10 f.magnitude + 1 - d)).toNat).length = d := by
  have hlow := Lib.log_le h.magnitude_pos
  have hhi := Lib.inUnits_le (x := f.magnitude) (l := Int.log 10 f.magnitude + 1 - d) (b := d)
    (by rw [sub_add_cancel]; exact Lib.lt_log)
  rcases Nat.eq_zero_or_pos d with rfl | hpos
  · have hnonneg : 0 ≤ inUnits f.magnitude (Int.log 10 f.magnitude + 1 - (0 : ℕ)) :=
      Lib.le_halfEven (by
        rw [Int.cast_zero]
        exact div_nonneg h.magnitude_pos.le (Lib.ten_zpow_pos _).le)
    rw [pow_zero] at hhi hc
    rw [show inUnits f.magnitude (Int.log 10 f.magnitude + 1 - (0 : ℕ)) = 0 by omega]
    rfl
  · obtain ⟨c, rfl⟩ : ∃ c, d = c + 1 := ⟨d - 1, by omega⟩
    refine digits_length ?_ (lt_of_le_of_ne hhi hc)
    have hlo := Lib.le_inUnits (x := f.magnitude)
      (l := Int.log 10 f.magnitude + 1 - (c + 1 : ℕ)) (b := c)
      (by rw [show Int.log 10 f.magnitude + 1 - (c + 1 : ℕ) + c = Int.log 10 f.magnitude by
        push_cast; ring]; exact hlow)
    rw [pow_succ']
    omega

/-- Otherwise it tells that the estimate is one too high. -/
theorem loop_above_retry (hd : d + 1 < 2 ^ 31) (attempts : ℕ)
    (hup : inUnits f.magnitude (Int.log 10 f.magnitude + 1 - d) ≠ 10 ^ d) :
    decimalDigitsLoop u (d + 1 : ℕ) (attempts + 3) (Int.log 10 f.magnitude + 1) =
      some (digitString (significant (d + 1) f.magnitude).1,
        (significant (d + 1) f.magnitude).2) := by
  have hlog := h.log_mem
  have hdigits := h.digitsAt_eq d (Int.le_refl (Int.log 10 f.magnitude + 1))
  have hlen := above_length h hup
  rw [loop_retry (by push_cast; ring) hdigits (attempts + 2) (t := Int.log 10 f.magnitude)
    (by omega)
    (by omega) (by omega) hd (by omega) (by omega), loop_at h hd attempts]

/-- The estimate is one too high, and the number is so near below a power of ten that it is rounded
    up to it with one digit less, but not with all of them. -/
def RoundsUpEarly (d : ℕ) (exponent : Int) (x : ℚ) : Prop :=
  estimate exponent = Int.log 10 x + 1 ∧
  (10 : ℚ) ^ (Int.log 10 x - d + 1) / 2 < 10 ^ (Int.log 10 x + 1) - x ∧
  ((10 : ℚ) ^ (Int.log 10 x + 1) - x < 10 ^ (Int.log 10 x - d + 2) / 2 ∨
    (d ≠ 1 ∧ (10 : ℚ) ^ (Int.log 10 x + 1) - x = 10 ^ (Int.log 10 x - d + 2) / 2))

omit h in
theorem roundsUpEarly_iff (d : ℕ) (exponent : Int) :
    RoundsUpEarly (d + 1) exponent f.magnitude ↔ estimate exponent = Int.log 10 f.magnitude + 1 ∧
      inUnits f.magnitude (Int.log 10 f.magnitude - d) ≠ 10 ^ (d + 1) ∧
      inUnits f.magnitude (Int.log 10 f.magnitude + 1 - d) = 10 ^ d := by
  have hone : Int.log 10 f.magnitude - (d + 1 : ℕ) + 1 = Int.log 10 f.magnitude - d := by
    push_cast
    ring
  have htwo : Int.log 10 f.magnitude - (d + 1 : ℕ) + 2 = Int.log 10 f.magnitude + 1 - d := by
    push_cast
    ring
  have htop : Int.log 10 f.magnitude - d + (d + 1 : ℕ) = Int.log 10 f.magnitude + 1 := by
    push_cast
    ring
  have htop' : Int.log 10 f.magnitude + 1 - d + d = Int.log 10 f.magnitude + 1 := by ring
  have hlow := Lib.inUnits_eq_pow_iff (b := d + 1) (Nat.succ_ne_zero d) (lt_log_units (f := f) d)
  rw [htop] at hlow
  have hup : inUnits f.magnitude (Int.log 10 f.magnitude + 1 - d) = 10 ^ d ↔
      (10 : ℚ) ^ (Int.log 10 f.magnitude + 1) - f.magnitude <
          10 ^ (Int.log 10 f.magnitude + 1 - d) / 2 ∨
        (d + 1 ≠ 1 ∧ (10 : ℚ) ^ (Int.log 10 f.magnitude + 1) - f.magnitude =
          10 ^ (Int.log 10 f.magnitude + 1 - d) / 2) := by
    rcases Nat.eq_zero_or_pos d with rfl | hpos
    · rw [Nat.cast_zero, sub_zero, pow_zero, Lib.inUnits_eq_one_iff Lib.lt_log]
      simp
    · rw [Lib.inUnits_eq_pow_iff hpos.ne' (by rw [htop']; exact Lib.lt_log), htop', le_iff_lt_or_eq]
      simp [hpos.ne']
  have hnot := hlow.not
  rw [not_le] at hnot
  unfold RoundsUpEarly
  rw [hone, htwo, hup]
  exact and_congr_right fun _ => and_congr_left fun _ => hnot.symm

/-- **When the digits are the significant ones**: unless the estimate is one too high just below a
    power of ten, or the text is too long for an `int`. -/
theorem decimalDigits_eq_iff (hd : 1 ≤ d) (hlt : d < 2 ^ 31) :
    decimalDigits u d =
        some (digitString (significant d f.magnitude).1, (significant d f.magnitude).2) ↔
      ¬ RoundsUpEarly d u.exponent f.magnitude ∧
        ¬ (d = 2 ^ 31 - 1 ∧ estimate u.exponent + 1 = Int.log 10 f.magnitude) := by
  obtain ⟨d, rfl⟩ : ∃ c, d = c + 1 := ⟨d - 1, by omega⟩
  have hlog := h.log_mem
  have hunit : Int.log 10 f.magnitude - (d + 1 : ℕ) + 1 = Int.log 10 f.magnitude - d := by
    push_cast
    ring
  rw [roundsUpEarly_iff]
  unfold decimalDigits
  rw [if_pos (by omega)]
  obtain heq | heq | heq := estimate_cases h
  · rw [heq, loop_at h hlt 2]
    exact iff_of_true rfl ⟨fun hc => by omega, fun hc => by omega⟩
  · rw [heq]
    by_cases hup : inUnits f.magnitude (Int.log 10 f.magnitude + 1 - d) = 10 ^ d
    · rw [loop_above h hlt 3 hup]
      unfold significant
      rw [hunit]
      dsimp only
      split_ifs with hc
      · exact iff_of_true rfl ⟨fun hearly => hearly.2.1 hc, fun hmany => by omega⟩
      · refine iff_of_false (fun heq => ?_) fun hgood => hgood.1 ⟨rfl, hc, hup⟩
        have hexp := congrArg Prod.snd (Option.some.inj heq)
        dsimp only at hexp
        omega
    · rw [loop_above_retry h hlt 1 hup]
      exact iff_of_true rfl ⟨fun hearly => hup hearly.2.2, fun hmany => by omega⟩
  · rw [heq]
    by_cases hmany : d + 2 < 2 ^ 31
    · rw [loop_below h hmany 1]
      exact iff_of_true rfl ⟨fun hc => by omega, fun hc => by omega⟩
    · have hdigits := h.digitsAt_eq (d + 1) (e := Int.log 10 f.magnitude) (by omega)
      have hlo := (Lib.inUnits_log h.magnitude_pos (d + 1)).1
      have hhi := h.inUnits_lt (by omega) (lt_log_units (f := f) (d + 1))
      have hlen := digits_length (k := d + 2) (by rw [pow_succ']; omega) hhi
      rw [loop_overflow (by push_cast; ring) hdigits 3 (by omega) (by omega)]
      exact iff_of_false nofun fun hgood => hgood.2 ⟨by omega, by omega⟩

/-- **No number of as many digits is nearer** than the one that is found. -/
theorem decimalDigits_nearest {d : ℕ} (hd : 1 ≤ d) (hlt : d < 2 ^ 31 - 1)
    (hearly : ¬ RoundsUpEarly d u.exponent f.magnitude) :
    ∃ n e, decimalDigits u d = some (digitString n, e) ∧ 10 ^ (d - 1) ≤ n ∧ n < 10 ^ d ∧
      ∀ m j : ℤ, |m| < 10 ^ d →
        |n * (10 : ℚ) ^ (e - d + 1) - f.magnitude| ≤ |m * 10 ^ j - f.magnitude| := by
  have hdigits := (decimalDigits_eq_iff h hd (by omega)).mpr ⟨hearly, fun hmany => by omega⟩
  obtain ⟨d, rfl⟩ : ∃ c, d = c + 1 := ⟨d - 1, by omega⟩
  obtain ⟨-, hlo, hhi⟩ := Lib.significant_value h.magnitude_pos d
  refine ⟨_, _, hdigits, hlo, hhi, fun m j hm => ?_⟩
  have hnear := Lib.significant_nearest h.magnitude_pos d (j := j) hm
  rwa [show ((significant (d + 1) f.magnitude).2 - (d + 1 : ℕ) + 1 : ℤ) =
    (significant (d + 1) f.magnitude).2 - d by push_cast; ring]

end Exponents

end Float128

end Trustme.Numeric
