/-
  Subject:   `Float128::parseDecimal`, the rounding of a decimal literal.

  * `multiplyPow5`, `dividePow5Sticky`: powers of five in steps of `5 ^ 27`;
  * `parseDecimal`: the digits, the exponent, the two cut-offs, and the scaling;
  * `DecimalText`: a literal by its parts, its characters and its number;
  * `readDigits_digits`, `readExponent_text`: the parts are read back;
  * `scaleDecimal_told`: what the scaling leaves tells the leading 114 digits of the number;
  * **`parseDecimal_rounds`** -- every literal of less than `10 ^ 8` digits is rounded to nearest,
    ties to even.

  `none` is a failed BUG_ASSERT. Counts and exponents stay far inside `i64`, they are integers
  here.
-/
import Mathlib.Data.Fintype.Basic
import Mathlib.Tactic.FinCases
import Trustme.Numeric.BigUint
import Trustme.Numeric.Float128Rounding

namespace Trustme.Numeric.Float128

open Lib (Told)

/-! ## 1. As the code computes it -/

def fivePow27 : BitVec 64 := 7450580596923828125

/-- The factor of fewer than 27 fives. -/
def smallPow5 : Nat → BitVec 64
  | 0 => 1
  | n + 1 => smallPow5 n * 5

def multiplyPow5Loop : Nat → BigUint → BigUint
  | 0, v => v
  | n + 1, v => multiplyPow5Loop n (v.multiplyAddSmall fivePow27 0)

/-- `multiplyPow5`; its loop runs once for 27 fives. -/
def multiplyPow5 (v : BigUint) (power : Nat) : BigUint :=
  let v := multiplyPow5Loop (power / 27) v
  let factor := smallPow5 (power % 27)
  if factor ≠ 1 then v.multiplyAddSmall factor 0 else v

def dividePow5Loop : Nat → BigUint → Bool → Option (BigUint × Bool)
  | 0, v, sticky => some (v, sticky)
  | n + 1, v, sticky => do
      let (v, remainder) ← v.divideSmall fivePow27
      dividePow5Loop n v (sticky || remainder != 0)

/-- `dividePow5Sticky`: the quotient and the sticky bit. -/
def dividePow5Sticky (v : BigUint) (power : Nat) (sticky : Bool) : Option (BigUint × Bool) := do
  let (v, sticky) ← dividePow5Loop (power / 27) v sticky
  let factor := smallPow5 (power % 27)
  if factor ≠ 1 then
    let (v, remainder) ← v.divideSmall factor
    return (v, sticky || remainder != 0)
  else return (v, sticky)

/-- What the two loops over digits count. -/
structure Reading where
  digits : BigUint
  fractionDigits : Int
  significantDigits : Int

def isDigit (c : Char) : Bool := '0' ≤ c && c ≤ '9'

/-- A loop over digits; after the point each of them is one of the fraction (`step` is 1). -/
def readDigits (step : Int) : Reading → List Char → Reading × List Char
  | r, [] => (r, [])
  | r, c :: cursor =>
    if isDigit c then
      let digits := r.digits.multiplyAddSmall 10 (BitVec.ofNat 64 (c.toNat - '0'.toNat))
      readDigits step ⟨digits, r.fractionDigits + step,
        if digits.isZero then r.significantDigits else r.significantDigits + 1⟩ cursor
    else (r, c :: cursor)

/-- The point, and the digits after it. -/
def readFraction (r : Reading) : List Char → Reading × List Char
  | '.' :: cursor => readDigits 1 r cursor
  | cursor => (r, cursor)

/-- The loop over the digits of the exponent, which is cut at `10 ^ 9`. -/
def readExponentDigits : Int → List Char → Int × List Char
  | e, [] => (e, [])
  | e, c :: cursor =>
    if isDigit c then
      let e := e * 10 + (c.toNat - '0'.toNat : Nat)
      readExponentDigits (if e > 1000000000 then 1000000000 else e) cursor
    else (e, c :: cursor)

/-- The sign of the exponent: whether it is a minus. -/
def readSign : List Char → Bool × List Char
  | '+' :: cursor => (false, cursor)
  | '-' :: cursor => (true, cursor)
  | cursor => (false, cursor)

/-- The exponent, 0 where there is none. -/
def readExponent : List Char → Option (Int × List Char)
  | [] => some (0, [])
  | c :: cursor =>
    if c = 'e' ∨ c = 'E' then
      let (negative, cursor) := readSign cursor
      if (cursor.head?.map isDigit).getD false then
        let (e, cursor) := readExponentDigits 0 cursor
        some (if negative then -e else e, cursor)
      else none
    else some (0, c :: cursor)

/-- The digits times their power of ten, up to a power of two, and the sticky bit. -/
def scaleDecimal (digits : BigUint) (exponent10 : Int) : Option (BigUint × Nat × Bool) := do
  if exponent10 ≥ 0 then
    return ((multiplyPow5 digits exponent10.toNat).shiftLeft exponent10.toNat, 0, false)
  else
    let power := (-exponent10).toNat
    let need := 116 + (power * 3322 + 999) / 1000 + 1
    let scaledUp := if need > digits.bitLength then need - digits.bitLength else 0
    let (digits, sticky) ← dividePow5Sticky (digits.shiftLeft scaledUp) power false
    let (digits, sticky) ← digits.shiftRightSticky power sticky
    return (digits, scaledUp, sticky)

/-- The encoding of a number of digits other than zero. -/
def packDecimal (digits : BigUint) (significantDigits exponent10 : Int) : Option Float128 := do
  let topWeight := significantDigits + exponent10
  if topWeight > 4940 then return infinity false
  if topWeight < -4975 then return packZero false
  let (digits, scaledUp, sticky) ← scaleDecimal digits exponent10
  let length := digits.bitLength
  let (significand, sticky) ← digits.topBits 114 sticky
  let exponent2 : Int := (if length < 114 then 114 else length : Nat) - 1 - scaledUp
  roundPack false exponent2 significand sticky

/-- `parseDecimal`. -/
def parseDecimal (text : List Char) : Option Float128 := do
  if ¬ (text.head?.map fun c => c == '.' || isDigit c).getD false then none
  else
    let (r, cursor) := readDigits 0 ⟨.empty, 0, 0⟩ text
    let (r, cursor) := readFraction r cursor
    let (explicitExponent, cursor) ← readExponent cursor
    if cursor ≠ [] then none
    else if r.digits.isZero then return packZero false
    else packDecimal r.digits r.significantDigits (-r.fractionDigits + explicitExponent)

/-! ## 2. Powers of five -/

variable {n s : Nat}

theorem smallPow5_toNat (hn : n < 27) : (smallPow5 n).toNat = 5 ^ n := by
  induction n with
  | zero => rfl
  | succ n ih =>
    have hlt : 5 ^ (n + 1) < 2 ^ 64 :=
      (Nat.pow_le_pow_right (by decide) (show n + 1 ≤ 26 by omega)).trans_lt (by decide)
    rw [pow_succ] at hlt
    rw [smallPow5, BitVec.toNat_mul, ih (by omega), pow_succ]
    exact Nat.mod_eq_of_lt hlt

theorem smallPow5_pos (hn : n < 27) : 0 < (smallPow5 n).toNat := by
  rw [smallPow5_toNat hn]
  exact Nat.pow_pos (by decide)

/-- A factor of 1 is not multiplied. -/
theorem smallPow5_eq_one (hn : n < 27) (h : smallPow5 n = 1) : 5 ^ n = 1 := by
  rw [← smallPow5_toNat hn, h]
  rfl

theorem multiplyPow5_toNat (v : BigUint) (power : Nat) :
    (multiplyPow5 v power).toNat = v.toNat * 5 ^ power := by
  have hzero : (0 : BitVec 64).toNat = 0 := rfl
  have hloop (n : Nat) (u : BigUint) : (multiplyPow5Loop n u).toNat = u.toNat * (5 ^ 27) ^ n := by
    induction n generalizing u with
    | zero => rw [multiplyPow5Loop, pow_zero, Nat.mul_one]
    | succ n ih =>
      have hfive : fivePow27.toNat = 5 ^ 27 := rfl
      rw [multiplyPow5Loop, ih, BigUint.multiplyAddSmall_toNat, hfive, hzero, Nat.add_zero,
        pow_succ' (5 ^ 27) n, Nat.mul_assoc]
  have hlt := Nat.mod_lt power (show 0 < 27 by decide)
  have hsplit : 5 ^ power = (5 ^ 27) ^ (power / 27) * 5 ^ (power % 27) := by
    rw [← pow_mul, ← pow_add, Nat.div_add_mod]
  unfold multiplyPow5
  dsimp only
  split_ifs with h
  · rw [BigUint.multiplyAddSmall_toNat, hloop, smallPow5_toNat hlt, hsplit, hzero, Nat.add_zero,
      Nat.mul_assoc]
  · rw [hloop, hsplit, smallPow5_eq_one hlt (not_not.mp h), Nat.mul_one]

/-- The sticky bit of two divisions is that of the division by the product. -/
theorem dropped_mul (n a b : Nat) (sticky : Bool) :
    ((sticky || decide (n % a ≠ 0)) || decide (n / a % b ≠ 0)) =
      (sticky || decide (n % (a * b) ≠ 0)) := by
  have h : n % (a * b) ≠ 0 ↔ n % a ≠ 0 ∨ n / a % b ≠ 0 := by
    rw [Nat.mod_mul, ne_eq, Nat.add_eq_zero_iff, not_and_or, Nat.mul_eq_zero]
    rcases Nat.eq_zero_or_pos a with rfl | ha
    · simp
    · simp [ha.ne']
  rw [Bool.or_assoc]
  congr 1
  rw [Bool.eq_iff_iff, Bool.or_eq_true, decide_eq_true_iff, decide_eq_true_iff, decide_eq_true_iff]
  exact h.symm

theorem bne_zero_eq (r : BitVec 64) : (r != 0) = decide (r.toNat ≠ 0) := by
  rw [Bool.eq_iff_iff, bne_iff_ne, decide_eq_true_iff, ne_eq, BitVec.toNat_eq]
  rfl

theorem dividePow5Loop_eq (n : Nat) (v : BigUint) (sticky : Bool) :
    ∃ r, dividePow5Loop n v sticky = some (r, sticky || decide (v.toNat % (5 ^ 27) ^ n ≠ 0)) ∧
      r.toNat = v.toNat / (5 ^ 27) ^ n := by
  induction n generalizing v sticky with
  | zero => exact ⟨v, by simp [dividePow5Loop, Nat.mod_one], by rw [pow_zero, Nat.div_one]⟩
  | succ n ih =>
    have hfive : fivePow27.toNat = 5 ^ 27 := rfl
    obtain ⟨q, r, hdiv, hq, hr⟩ := v.divideSmall_eq (show 0 < fivePow27.toNat by decide)
    rw [hfive] at hq hr
    obtain ⟨t, ht, htv⟩ := ih q (sticky || r != 0)
    unfold dividePow5Loop
    rw [hdiv]
    simp only [Option.bind_eq_bind, Option.bind_some]
    refine ⟨t, ?_, ?_⟩
    · rw [ht, bne_zero_eq, hr, hq, dropped_mul, ← pow_succ']
    · rw [htv, hq, Nat.div_div_eq_div_mul, ← pow_succ']

theorem dividePow5Sticky_eq (v : BigUint) (power : Nat) (sticky : Bool) :
    ∃ r, dividePow5Sticky v power sticky = some (r, sticky || decide (v.toNat % 5 ^ power ≠ 0)) ∧
      r.toNat = v.toNat / 5 ^ power := by
  have hlt := Nat.mod_lt power (show 0 < 27 by decide)
  have hsplit : 5 ^ power = (5 ^ 27) ^ (power / 27) * 5 ^ (power % 27) := by
    rw [← pow_mul, ← pow_add, Nat.div_add_mod]
  obtain ⟨u, hu, huv⟩ := dividePow5Loop_eq (power / 27) v sticky
  unfold dividePow5Sticky
  rw [hu]
  simp only [Option.bind_eq_bind, Option.bind_some]
  rw [hsplit]
  by_cases h : smallPow5 (power % 27) = 1
  · rw [if_neg (not_not.mpr h), smallPow5_eq_one hlt h, Nat.mul_one]
    exact ⟨u, rfl, huv⟩
  · obtain ⟨q, r, hdiv, hq, hr⟩ := u.divideSmall_eq (smallPow5_pos hlt)
    rw [smallPow5_toNat hlt] at hq hr
    rw [if_pos h, hdiv]
    refine ⟨q, ?_, by rw [hq, huv, Nat.div_div_eq_div_mul]⟩
    rw [Option.bind_some, bne_zero_eq, hr, huv, dropped_mul]
    rfl

/-! ## 3. Literals -/

/-- The number of the digits of `n` and of a list, the highest first. -/
def numeralFrom (n : Nat) (digits : List (Fin 10)) : Nat :=
  digits.foldl (fun (n : Nat) (d : Fin 10) => 10 * n + d.val) n

def numeral (digits : List (Fin 10)) : Nat := numeralFrom 0 digits

def digitChar (d : Fin 10) : Char := Char.ofNat (48 + d)

/-- The exponent of a literal; it has a digit. -/
structure ExponentText where
  upper : Bool
  sign : Option Bool
  digits : List (Fin 10)
  digits_ne : digits ≠ []

/-- A decimal literal: digits, perhaps a point and more of them, perhaps an exponent. -/
structure DecimalText where
  whole : List (Fin 10)
  fraction : Option (List (Fin 10))
  exponent : Option ExponentText

namespace ExponentText

def signText (e : ExponentText) : List Char :=
  match e.sign with
  | none => []
  | some negative => [if negative then '-' else '+']

def text (e : ExponentText) : List Char :=
  (if e.upper then 'E' else 'e') :: (e.signText ++ e.digits.map digitChar)

def exponent (e : ExponentText) : Int :=
  if e.sign = some true then -numeral e.digits else numeral e.digits

end ExponentText

namespace DecimalText

/-- The digits before the exponent. -/
def digits (t : DecimalText) : List (Fin 10) := t.whole ++ t.fraction.getD []

/-- The exponent that is written, or none. -/
def explicit (t : DecimalText) : Int := (t.exponent.map ExponentText.exponent).getD 0

def text (t : DecimalText) : List Char :=
  t.whole.map digitChar ++ (t.fraction.map fun digits => '.' :: digits.map digitChar).getD [] ++
    (t.exponent.map ExponentText.text).getD []

/-- The number that the literal stands for. -/
def number (t : DecimalText) : ℚ :=
  numeral t.digits * 10 ^ (t.explicit - (t.fraction.getD []).length)

/-- How many digit characters there are. -/
def digitCount (t : DecimalText) : Nat :=
  t.digits.length + (t.exponent.map fun e => e.digits.length).getD 0

end DecimalText

/-! ## 4. Digits that are read -/

theorem digitChar_toNat (d : Fin 10) : (digitChar d).toNat = 48 + d := by
  revert d
  decide

theorem isDigit_digitChar (d : Fin 10) : isDigit (digitChar d) = true := by
  revert d
  decide

/-- What the loops have counted of a number of digits. -/
structure Counted (r : Reading) (n : Nat) (fractionDigits : Int) (significant : Nat) : Prop where
  digits : r.digits.toNat = n
  fraction : r.fractionDigits = fractionDigits
  count : r.significantDigits = significant
  lt : n < 10 ^ significant
  zero : n = 0 → significant = 0
  le : n ≠ 0 → 10 ^ significant ≤ 10 * n

theorem counted_start : Counted ⟨.empty, 0, 0⟩ 0 0 0 :=
  ⟨rfl, rfl, rfl, Nat.one_pos, fun _ => rfl, fun h => absurd rfl h⟩

/-- A text that does not go on with a digit. -/
def Stops (cursor : List Char) : Prop := ∀ c ∈ cursor.head?, isDigit c = false

theorem numeralFrom_append (n : Nat) (digits more : List (Fin 10)) :
    numeralFrom n (digits ++ more) = numeralFrom (numeralFrom n digits) more := List.foldl_append

theorem readDigits_digits (step : Int) {cursor : List Char} (hstop : Stops cursor)
    (digits : List (Fin 10)) {r : Reading} {f : Int} (h : Counted r n f s) :
    ∃ r' s', readDigits step r (digits.map digitChar ++ cursor) = (r', cursor) ∧
      Counted r' (numeralFrom n digits) (f + step * digits.length) s' := by
  induction digits generalizing r n s f with
  | nil =>
    refine ⟨r, s, ?_, by simpa [numeralFrom] using h⟩
    cases cursor with
    | nil => rfl
    | cons c cursor => simp [readDigits, hstop c rfl]
  | cons d digits ih =>
    have hfactor : (BitVec.ofNat 64 ((digitChar d).toNat - '0'.toNat)).toNat = d := by
      rw [digitChar_toNat]
      revert d
      decide
    have hdigits : (r.digits.multiplyAddSmall 10
        (BitVec.ofNat 64 ((digitChar d).toNat - '0'.toNat))).toNat = 10 * n + d.val := by
      rw [BigUint.multiplyAddSmall_toNat, hfactor, h.digits, Nat.mul_comm]
      rfl
    rw [List.map_cons, List.cons_append, readDigits, if_pos (isDigit_digitChar d)]
    dsimp only
    generalize r.digits.multiplyAddSmall 10 (BitVec.ofNat 64 ((digitChar d).toNat - '0'.toNat)) =
      next at hdigits
    have hlen : f + step * (d :: digits).length = f + step + step * digits.length := by
      rw [List.length_cons]
      push_cast
      ring
    have hd := d.isLt
    rw [numeralFrom, List.foldl_cons, hlen]
    by_cases hz : 10 * n + d.val = 0
    · have hzero : next.isZero = true := (BigUint.isZero_iff next).mpr (hdigits.trans hz)
      rw [if_pos hzero]
      exact ih (s := s) ⟨hdigits, by rw [h.fraction], h.count,
        by rw [hz]; exact Nat.pow_pos (by decide), fun _ => h.zero (by omega),
        fun hc => absurd hz hc⟩
    · have hnonzero : ¬ next.isZero = true := fun hc =>
        hz (hdigits.symm.trans ((BigUint.isZero_iff next).mp hc))
      have hlt := h.lt
      have hpow : 10 ^ (s + 1) = 10 * 10 ^ s := by rw [pow_succ, Nat.mul_comm]
      rw [if_neg hnonzero]
      refine ih (s := s + 1)
        ⟨hdigits, by rw [h.fraction], by rw [h.count]; push_cast; rfl, by omega,
        fun hc => absurd hc hz, fun _ => ?_⟩
      by_cases hn : n = 0
      · rw [h.zero hn, hn]
        omega
      · have := h.le hn
        omega

/-- The largest exponent that the code keeps. -/
def cut (n : Nat) : Int := min n 1000000000

theorem readExponentDigits_digits (digits : List (Fin 10)) (n : Nat) :
    readExponentDigits (cut n) (digits.map digitChar) = (cut (numeralFrom n digits), []) := by
  induction digits generalizing n with
  | nil => rfl
  | cons d digits ih =>
    have hdigit : (digitChar d).toNat - '0'.toNat = d.val := by
      rw [digitChar_toNat]
      exact Nat.add_sub_cancel_left ..
    have hnext :
      (if cut n * 10 + ((digitChar d).toNat - '0'.toNat : Nat) > 1000000000 then 1000000000
        else cut n * 10 + ((digitChar d).toNat - '0'.toNat : Nat)) = cut (10 * n + d.val) := by
      have hd := d.isLt
      rw [hdigit]
      unfold cut
      split_ifs <;> omega
    rw [List.map_cons, readExponentDigits, if_pos (isDigit_digitChar d)]
    dsimp only
    rw [hnext, ih]
    rfl

/-- The exponent of a literal, cut. -/
def DecimalText.cutExponent (t : DecimalText) : Int :=
  (t.exponent.map fun e => if e.sign = some true then -cut (numeral e.digits)
    else cut (numeral e.digits)).getD 0

/-- A digit is no sign. -/
theorem readSign_text (e : ExponentText) :
    readSign (e.signText ++ e.digits.map digitChar) =
      (decide (e.sign = some true), e.digits.map digitChar) := by
  obtain ⟨upper, sign, digits, hne⟩ := e
  obtain ⟨d, digits, rfl⟩ := List.exists_cons_of_ne_nil hne
  unfold ExponentText.signText
  rcases sign with _ | _ | _
  · fin_cases d <;> rfl
  · rfl
  · rfl

theorem readExponent_text (t : DecimalText) :
    readExponent ((t.exponent.map ExponentText.text).getD []) = some (t.cutExponent, []) := by
  unfold DecimalText.cutExponent
  cases t.exponent with
  | none => rfl
  | some e =>
    have hletter : (if e.upper then 'E' else 'e') = 'e' ∨ (if e.upper then 'E' else 'e') = 'E' := by
      cases e.upper <;> simp
    have hhead : ((e.digits.map digitChar).head?.map isDigit).getD false = true := by
      obtain ⟨d, digits, hd⟩ := List.exists_cons_of_ne_nil e.digits_ne
      rw [hd]
      exact isDigit_digitChar d
    have hread : readExponentDigits 0 (e.digits.map digitChar) = (cut (numeral e.digits), []) :=
      readExponentDigits_digits e.digits 0
    show readExponent ((if e.upper then 'E' else 'e') :: _) = _
    rw [readExponent, if_pos hletter, readSign_text]
    dsimp only
    rw [if_pos hhead, hread]
    simp

/-! ## 5. The scaling -/

theorem ten_zpow_pos (e : ℤ) : (0 : ℚ) < 10 ^ e := zpow_pos (by norm_num) e

/-- The bits that are put under a quotient by `10 ^ power`: 3.322 for each digit are enough. -/
theorem ten_pow_le (power : Nat) : 10 ^ power ≤ 2 ^ ((power * 3322 + 999) / 1000) := by
  have hbase : 10 ^ 205 ≤ (2 ^ 227) ^ 3 := by decide
  have hle : (10 ^ power) ^ 205 ≤ (2 ^ ((power * 3322 + 999) / 1000)) ^ 205 := by
    calc (10 ^ power) ^ 205 = (10 ^ 205) ^ power := by rw [← pow_mul, ← pow_mul, Nat.mul_comm]
      _ ≤ ((2 ^ 227) ^ 3) ^ power := Nat.pow_le_pow_left hbase power
      _ = 2 ^ (227 * 3 * power) := by rw [← pow_mul, ← pow_mul, Nat.mul_assoc]
      _ ≤ 2 ^ ((power * 3322 + 999) / 1000 * 205) := Nat.pow_le_pow_right (by decide) (by omega)
      _ = _ := pow_mul ..
  exact (Nat.pow_le_pow_iff_left (by decide)).mp hle

/-- The digits that are left tell the number, scaled up, and there are enough of them. -/
theorem scaleDecimal_told {digits : BigUint} (hd : digits.toNat ≠ 0) (exponent10 : Int) :
    ∃ v k sticky, scaleDecimal digits exponent10 = some (v, k, sticky) ∧ v.toNat ≠ 0 ∧
      Told (digits.toNat * 10 ^ exponent10 * 2 ^ k : ℚ) v.toNat 0 sticky ∧
      (sticky = true → 2 ^ 114 ≤ v.toNat) := by
  unfold scaleDecimal
  by_cases he : exponent10 ≥ 0
  · obtain ⟨e, rfl⟩ := Int.eq_ofNat_of_zero_le he
    have hval : ((multiplyPow5 digits e).shiftLeft e).toNat = digits.toNat * 10 ^ e := by
      rw [BigUint.shiftLeft_toNat, multiplyPow5_toNat, Nat.mul_assoc, ← Nat.mul_pow]
    rw [if_pos he]
    refine ⟨_, _, _, rfl, ?_, ?_, fun h => absurd h Bool.false_ne_true⟩
    · rw [Int.toNat_natCast, hval]
      exact Nat.mul_ne_zero hd (pow_ne_zero _ (by decide))
    · show _ = _
      rw [Int.toNat_natCast, hval]
      push_cast
      simp
  · obtain ⟨power, hpower⟩ : ∃ power : ℕ, exponent10 = -(power : ℤ) :=
      ⟨(-exponent10).toNat, by omega⟩
    have hlen := digits.bitLength_eq
    rw [if_neg hd] at hlen
    rw [if_neg he, show (-exponent10).toNat = power by omega]
    dsimp only
    obtain ⟨k, hk, hkeq⟩ : ∃ k, 116 + (power * 3322 + 999) / 1000 + 1 ≤ digits.bitLength + k ∧
        (if 116 + (power * 3322 + 999) / 1000 + 1 > digits.bitLength then
          116 + (power * 3322 + 999) / 1000 + 1 - digits.bitLength else 0) = k := by
      refine ⟨_, ?_, rfl⟩
      split <;> omega
    rw [hkeq]
    obtain ⟨q, hq, hqv⟩ := dividePow5Sticky_eq (digits.shiftLeft k) power false
    rw [BigUint.shiftLeft_toNat] at hq hqv
    -- the shifted digits have 116 bits more than the divisor
    have hlow : 2 ^ 116 * 10 ^ power ≤ digits.toNat * 2 ^ k := by
      calc 2 ^ 116 * 10 ^ power ≤ 2 ^ 116 * 2 ^ ((power * 3322 + 999) / 1000) :=
            Nat.mul_le_mul_left _ (ten_pow_le power)
        _ = 2 ^ (116 + (power * 3322 + 999) / 1000) := (pow_add ..).symm
        _ ≤ 2 ^ (digits.toNat.log2 + k) := Nat.pow_le_pow_right (by decide) (by omega)
        _ = 2 ^ digits.toNat.log2 * 2 ^ k := pow_add ..
        _ ≤ _ := Nat.mul_le_mul_right _ (Nat.log2_self_le hd)
    have hten : 10 ^ power = 5 ^ power * 2 ^ power := by rw [← Nat.mul_pow]
    have hqlow : 2 ^ power ≤ q.toNat := by
      rw [hqv, Nat.le_div_iff_mul_le (Nat.pow_pos (by decide)), Nat.mul_comm, ← hten]
      exact (Nat.le_mul_of_pos_left _ (Nat.two_pow_pos 116)).trans hlow
    have hroom : power ≤ 64 * q.limbs.length :=
      ((Nat.pow_lt_pow_iff_right (by decide)).mp (hqlow.trans_lt q.toNat_lt)).le
    obtain ⟨v, hv, hvv⟩ := q.shiftRightSticky_eq hroom
      (false || decide (digits.toNat * 2 ^ k % 5 ^ power ≠ 0))
    rw [hqv, Nat.div_div_eq_div_mul, ← hten] at hvv
    have hvlow : 2 ^ 116 ≤ v.toNat := by
      rw [hvv, Nat.le_div_iff_mul_le (Nat.pow_pos (by decide))]
      exact hlow
    rw [hq]
    simp only [Option.bind_eq_bind, Option.bind_some]
    rw [hv]
    refine ⟨v, k, _, rfl, by omega, ?_, fun _ => by omega⟩
    have htold := Lib.told_div (K := ℚ) (digits.toNat * 2 ^ k)
      (Nat.pow_pos (show 0 < 10 by decide) (n := power)) 0
    rw [← hvv] at htold
    have hnumber : (digits.toNat * 10 ^ exponent10 * 2 ^ k : ℚ) =
        ((digits.toNat * 2 ^ k : ℕ) : ℚ) / ((10 ^ power : ℕ) : ℚ) * 2 ^ (0 : ℤ) := by
      rw [hpower, zpow_neg, zpow_natCast]
      push_cast
      ring
    rw [hnumber, hqv, dropped_mul, ← hten, Bool.false_or]
    exact htold

/-! ## 6. The encoding -/

/-- The digits and the sticky bit, scaled. -/
theorem Told.scale {y : ℚ} {m : Nat} {e : ℤ} {sticky : Bool} (h : Told y m e sticky) (j : ℤ) :
    Told (y * 2 ^ j) m (e + j) sticky := by
  have hj := Lib.two_zpow_pos (K := ℚ) j
  unfold Told at h ⊢
  rw [Lib.two_zpow_add]
  split_ifs at h ⊢
  · rw [← mul_assoc, ← mul_assoc]
    exact ⟨mul_lt_mul_of_pos_right h.1 hj, mul_lt_mul_of_pos_right h.2 hj⟩
  · rw [h, mul_assoc]

/-- Above the first cut-off every number overflows. -/
theorem large_rounds {x : ℚ} (hx : (10 : ℚ) ^ (4940 : ℤ) ≤ x) : RoundsTo x (infinity false) := by
  have hbase : (2 : ℚ) ^ 73 ≤ 10 ^ 22 := by norm_num
  have hrest : (2 : ℚ) ^ 32 ≤ 10 ^ 12 := by norm_num
  have hlimit : overflowLimit ≤ x := by
    calc overflowLimit ≤ (2 : ℚ) ^ 16384 := sub_le_self _ (by positivity)
      _ = ((2 : ℚ) ^ 73) ^ 224 * 2 ^ 32 := by rw [← pow_mul, ← pow_add]
      _ ≤ (10 ^ 22) ^ 224 * 10 ^ 12 := by gcongr
      _ = (10 : ℚ) ^ (4940 : ℤ) := by rw [← pow_mul, ← pow_add]; rfl
      _ ≤ x := hx
  have hpos : 0 < x := (ten_zpow_pos 4940).trans_le hx
  have habs : |x| = x := abs_of_pos hpos
  refine ⟨fun _ => ?_, fun h => absurd hlimit (not_le.mpr (habs ▸ h))⟩
  rw [decide_eq_false (not_lt.mpr hpos.le)]

/-- Below the second cut-off every number is less than half the smallest one. -/
theorem small_rounds {x : ℚ} (hpos : 0 < x) (hx : x < (10 : ℚ) ^ (-4976 : ℤ)) :
    RoundsTo x (packZero false) := by
  have hbase : (2 : ℚ) ^ 73 ≤ 10 ^ 22 := by norm_num
  have hrest : (2 : ℚ) ^ 70 ≤ 10 ^ 26 := by norm_num
  have hpow : (2 : ℚ) ^ 16495 ≤ 10 ^ 4976 := by
    calc (2 : ℚ) ^ 16495 = ((2 : ℚ) ^ 73) ^ 225 * 2 ^ 70 := by rw [← pow_mul, ← pow_add]
      _ ≤ (10 ^ 22) ^ 225 * 10 ^ 26 := by gcongr
      _ = 10 ^ 4976 := by rw [← pow_mul, ← pow_add]
  have hhalf : x < (2 : ℚ) ^ (-16495 : ℤ) := by
    refine hx.trans_le ?_
    rw [zpow_neg, zpow_neg]
    exact inv_anti₀ (zpow_pos (by norm_num) _) (by exact_mod_cast hpow)
  have hunit := Lib.two_zpow_pos (K := ℚ) (-16494)
  have hquotient : x / 2 ^ (-16494 : ℤ) < 1 / 2 := by
    have hone : (2 : ℚ) ^ (-1 : ℤ) = 1 / 2 := by rw [zpow_neg_one, one_div]
    rw [div_lt_iff₀ hunit, ← hone, ← Lib.two_zpow_add]
    exact hhalf
  have hnonneg : 0 ≤ x / 2 ^ (-16494 : ℤ) := div_nonneg hpos.le hunit.le
  have hfloor : ⌊x / 2 ^ (-16494 : ℤ)⌋ = 0 := Int.floor_eq_zero_iff.mpr ⟨hnonneg, by linarith⟩
  have heven : Lib.halfEven (x / 2 ^ (-16494 : ℤ)) = 0 := by
    unfold Lib.halfEven
    rw [hfloor, if_pos (by rw [Int.cast_zero, sub_zero]; exact hquotient)]
  have hone : x < 1 := hhalf.trans_le (zpow_le_one_of_nonpos₀ (by norm_num) (by norm_num))
  have hlim : x < overflowLimit := by
    refine hone.trans_le ?_
    rw [overflowLimit_eq]
    exact one_le_mul_of_one_le_of_one_le (by norm_num) (one_le_zpow₀ (by norm_num) (by norm_num))
  obtain ⟨h1, h2, h3, h4⟩ := packZero_fields false
  show RoundsTo (if false then -x else x) _
  refine roundsTo_of_rounded hpos ⟨Int.le_refl _, ?_, .inl rfl⟩ hlim h1 h2 ?_
    fun _ => by rw [h4]
  · exact hhalf.trans_le (zpow_le_zpow_right₀ (by norm_num) (by norm_num))
  · rw [h3, Lib.rounded, heven, Int.cast_zero, zero_mul]

/-- The leading 114 digits of a scaled number are rounded. -/
theorem roundTop_rounds {x : ℚ} (hx : 0 < x) {v : BigUint} (hv : v.toNat ≠ 0) {k : Nat}
    {sticky : Bool}
    (h : Told (x * 2 ^ k : ℚ) v.toNat 0 sticky) (hs : sticky = true → 2 ^ 114 ≤ v.toNat) :
    ∃ r, (do
      let (significand, sticky) ← v.topBits 114 sticky
      let exponent2 : Int := (if v.bitLength < 114 then 114 else v.bitLength : Nat) - 1 - k
      roundPack false exponent2 significand sticky) = some r ∧ RoundsTo x r := by
  obtain ⟨top, htop, htopv⟩ := v.topBits_eq (show 114 ≤ 128 by decide) sticky
  have hlen := v.bitLength_eq
  rw [if_neg hv] at hlen
  have hlow := Nat.log2_self_le hv
  rw [htop]
  simp only [Option.bind_eq_bind, Option.bind_some]
  refine roundPack_rounds hx false (.inl ⟨?_, fun hst => ?_⟩)
  · have htold := Told.scale (h.shiftRight (v.bitLength - 114)) (-k)
    have hback : (x * 2 ^ k * 2 ^ (-(k : ℤ)) : ℚ) = x := by
      rw [zpow_neg, zpow_natCast, mul_assoc, mul_inv_cancel₀ (by positivity), mul_one]
    rw [hback, ← htopv] at htold
    unfold Rounding.Tells
    convert htold using 1
    dsimp only
    split <;> omega
  · -- digits are dropped of a number of more than 114, a scaled one has so many
    dsimp only
    rw [htopv, Nat.le_div_iff_mul_le (Nat.two_pow_pos _), ← pow_add]
    have hmany : 113 ≤ v.toNat.log2 := by
      rcases Nat.lt_or_ge v.toNat.log2 113 with hfew | hmany
      · have hbits : v.bitLength - 114 = 0 := by omega
        rw [hbits, pow_zero, Nat.mod_one, decide_eq_false (not_not.mpr rfl), Bool.or_false] at hst
        have hlog := (Nat.le_log2 hv).mpr (hs hst)
        omega
      · exact hmany
    exact (Nat.pow_le_pow_right (by decide) (by omega)).trans hlow

/-- A number of digits other than zero is rounded; an exponent that is cut is beyond the
    cut-offs. -/
theorem packDecimal_rounds {digits : BigUint} (hd : digits.toNat ≠ 0) (hlt : digits.toNat < 10 ^ s)
    (hle : 10 ^ s ≤ 10 * digits.toNat) {e e' : Int}
    (he : e = e' ∨ (e' ≤ e ∧ 4940 < s + e') ∨ (e ≤ e' ∧ s + e' < -4975)) :
    ∃ r, packDecimal digits s e' = some r ∧ RoundsTo (digits.toNat * 10 ^ e : ℚ) r := by
  have hten (i : ℤ) : (0 : ℚ) < 10 ^ i := ten_zpow_pos i
  have hpos : (0 : ℚ) < digits.toNat * 10 ^ e :=
    mul_pos (by exact_mod_cast Nat.pos_of_ne_zero hd) (hten e)
  unfold packDecimal
  dsimp only
  by_cases h1 : (s : Int) + e' > 4940
  · rw [if_pos h1]
    refine ⟨_, rfl, large_rounds ?_⟩
    have hlow : (10 : ℚ) ^ (s : ℤ) ≤ 10 * digits.toNat := by exact_mod_cast hle
    calc (10 : ℚ) ^ (4940 : ℤ) ≤ 10 ^ (s + e - 1 : ℤ) :=
          zpow_le_zpow_right₀ (by norm_num) (by omega)
      _ = 10 ^ (s : ℤ) * 10 ^ e / 10 := by
          rw [zpow_sub_one₀ (by norm_num), zpow_add₀ (by norm_num), div_eq_mul_inv]
      _ ≤ 10 * digits.toNat * 10 ^ e / 10 := by
          have := hten e
          gcongr
      _ = digits.toNat * 10 ^ e := by ring
  rw [if_neg h1]
  by_cases h2 : (s : Int) + e' < -4975
  · rw [if_pos h2]
    refine ⟨_, rfl, small_rounds hpos ?_⟩
    have hhigh : (digits.toNat : ℚ) < 10 ^ (s : ℤ) := by exact_mod_cast hlt
    calc (digits.toNat * 10 ^ e : ℚ) < 10 ^ (s : ℤ) * 10 ^ e :=
      mul_lt_mul_of_pos_right hhigh (hten e)
      _ = 10 ^ (s + e : ℤ) := (zpow_add₀ (by norm_num) ..).symm
      _ ≤ 10 ^ (-4976 : ℤ) := zpow_le_zpow_right₀ (by norm_num) (by omega)
  rw [if_neg h2]
  obtain rfl : e = e' := by omega
  obtain ⟨v, k, sticky, hscale, hv, htold, hs⟩ := scaleDecimal_told hd e
  rw [hscale]
  exact roundTop_rounds hpos hv htold hs

/-! ## 7. Whole literals -/

theorem numeralFrom_lt (h : n < 10 ^ s) (digits : List (Fin 10)) :
    numeralFrom n digits < 10 ^ (s + digits.length) := by
  induction digits generalizing n s with
  | nil => exact h
  | cons d digits ih =>
    have hd := d.isLt
    have hpow : 10 ^ (s + 1) = 10 * 10 ^ s := by rw [pow_succ, Nat.mul_comm]
    rw [List.length_cons, show s + (digits.length + 1) = s + 1 + digits.length by omega]
    exact ih (show 10 * n + d.val < 10 ^ (s + 1) by omega)

/-- There are not more significant digits than digits. -/
theorem Counted.le_length {r : Reading} {f : Int} {digits : List (Fin 10)}
    (h : Counted r (numeral digits) f s) (hne : numeral digits ≠ 0) : s ≤ digits.length := by
  have hlt : numeral digits < 10 ^ digits.length := by
    simpa [numeral] using numeralFrom_lt (n := 0) (s := 0) Nat.one_pos digits
  have hpow : 10 ^ s < 10 ^ (digits.length + 1) := by
    rw [pow_succ]
    have := h.le hne
    omega
  have := (Nat.pow_lt_pow_iff_right (by decide)).mp hpow
  omega

theorem stops_exponent (t : DecimalText) : Stops ((t.exponent.map ExponentText.text).getD []) := by
  cases t.exponent with
  | none => exact fun c hc => absurd hc (by simp)
  | some e =>
    intro c hc
    obtain rfl : (if e.upper then 'E' else 'e') = c := Option.some.inj hc
    cases e.upper <;> rfl

/-- The digits of a literal are read, and the exponent is left. -/
theorem readDigits_text (t : DecimalText) : ∃ r r' cursor s,
    readDigits 0 ⟨.empty, 0, 0⟩ t.text = (r, cursor) ∧
      readFraction r cursor = (r', (t.exponent.map ExponentText.text).getD []) ∧
      Counted r' (numeral t.digits) (t.fraction.getD []).length s := by
  have hstop := stops_exponent t
  unfold DecimalText.text DecimalText.digits
  rw [List.append_assoc]
  cases hf : t.fraction with
  | none =>
    obtain ⟨r, s, hread, hr⟩ := readDigits_digits 0 hstop t.whole counted_start
    refine ⟨r, r, _, s, hread, ?_, by simpa [numeral] using hr⟩
    cases t.exponent with
    | none => rfl
    | some e =>
      obtain ⟨upper, sign, digits, hne⟩ := e
      cases upper <;> rfl
  | some fraction =>
    have hpoint : Stops ('.' :: (fraction.map digitChar ++
        (t.exponent.map ExponentText.text).getD [])) := by
      intro c hc
      obtain rfl : '.' = c := Option.some.inj hc
      rfl
    obtain ⟨r, s, hread, hr⟩ := readDigits_digits 0 hpoint t.whole counted_start
    obtain ⟨r', s', hread', hr'⟩ := readDigits_digits 1 hstop fraction hr
    refine ⟨r, r', _, s', hread, hread', ?_⟩
    rw [Option.getD_some, numeral, numeralFrom_append]
    simpa using hr'

theorem starts (t : DecimalText) (h : t.digits ≠ []) :
    (t.text.head?.map fun c => c == '.' || isDigit c).getD false = true := by
  unfold DecimalText.digits at h
  unfold DecimalText.text
  cases hw : t.whole with
  | cons d whole => simp [isDigit_digitChar]
  | nil =>
    cases hf : t.fraction with
    | none => simp [hw, hf] at h
    | some fraction => rfl

/-- An exponent that is cut is beyond the cut-offs, as the digits are fewer than `10 ^ 8`. -/
theorem cutExponent_eq_or (t : DecimalText) (hcount : t.digitCount < 10 ^ 8)
    (hs : s ≤ t.digits.length) :
    t.explicit - (t.fraction.getD []).length = -(t.fraction.getD []).length + t.cutExponent ∨
      (-(t.fraction.getD []).length + t.cutExponent ≤ t.explicit - (t.fraction.getD []).length ∧
        (4940 : Int) < s + (-(t.fraction.getD []).length + t.cutExponent)) ∨
      (t.explicit - (t.fraction.getD []).length ≤ -(t.fraction.getD []).length + t.cutExponent ∧
        s + (-(t.fraction.getD []).length + t.cutExponent) < (-4975 : Int)) := by
  have hlen : t.digits.length = t.whole.length + (t.fraction.getD []).length := List.length_append
  unfold DecimalText.digitCount at hcount
  unfold DecimalText.cutExponent DecimalText.explicit
  cases t.exponent with
  | none => exact .inl (by simp)
  | some e =>
    simp only [Option.map_some, Option.getD_some, ExponentText.exponent, cut] at hcount ⊢
    split_ifs <;> omega

/-- **A decimal literal of less than `10 ^ 8` digits is rounded to nearest, ties to even.** -/
theorem parseDecimal_rounds (t : DecimalText) (hdigits : t.digits ≠ [])
    (hcount : t.digitCount < 10 ^ 8) : ∃ r, parseDecimal t.text = some r ∧
      (t.number = 0 → r = packZero false) ∧ (t.number ≠ 0 → RoundsTo t.number r) := by
  obtain ⟨r, r', cursor, s, hread, hread', hr⟩ := readDigits_text t
  have hten : (10 : ℚ) ^ (t.explicit - (t.fraction.getD []).length) ≠ 0 := (ten_zpow_pos _).ne'
  have hzero : t.number = 0 ↔ numeral t.digits = 0 := by
    unfold DecimalText.number
    rw [mul_eq_zero, or_iff_left hten, Nat.cast_eq_zero]
  unfold parseDecimal
  rw [if_neg (not_not.mpr (starts t hdigits)), hread]
  dsimp only
  rw [hread']
  dsimp only
  rw [readExponent_text, Option.bind_eq_bind, Option.bind_some]
  dsimp only
  rw [if_neg (not_not.mpr rfl)]
  by_cases hn : numeral t.digits = 0
  · rw [if_pos ((BigUint.isZero_iff _).mpr (hr.digits.trans hn))]
    exact ⟨_, rfl, fun _ => rfl, fun h => absurd (hzero.mpr hn) h⟩
  · rw [if_neg fun h => hn (hr.digits.symm.trans ((BigUint.isZero_iff _).mp h)),
      hr.fraction, hr.count]
    obtain ⟨f, hpack, hround⟩ := packDecimal_rounds (s := s)
      (show r'.digits.toNat ≠ 0 from hr.digits.trans_ne hn) (hr.digits.trans_lt hr.lt)
        (hr.digits ▸ hr.le hn)
      (cutExponent_eq_or t hcount (hr.le_length hn))
    rw [hr.digits] at hround
    exact ⟨f, hpack, fun h => absurd (hzero.mp h) hn, fun _ => hround⟩

/-- `.5E-2` -/
def halfPercent : DecimalText := ⟨[], some [5], some ⟨true, some true, [2], by decide⟩⟩

theorem parseDecimal_rounds_halfPercent : halfPercent.text = ".5E-2".toList ∧
    ∃ r, parseDecimal halfPercent.text = some r ∧
      (halfPercent.number = 0 → r = packZero false) ∧
      (halfPercent.number ≠ 0 → RoundsTo halfPercent.number r) :=
  ⟨by decide, parseDecimal_rounds halfPercent (by decide) (by decide)⟩

end Trustme.Numeric.Float128
