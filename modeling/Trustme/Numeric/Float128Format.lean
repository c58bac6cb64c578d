/-
  Subject:   `formatDefault`, the text of a `Float128` in the notation of `%g`.

  * `formatDefault`: the significant digits without trailing zeros, in fixed or scientific
    notation;
  * `formatDefault_general`: from the right digits it makes the text of `%g`;
  * `Prints`: the digits and the text are the right ones;
  * **`prints_iff`** -- when they are: the estimate of the exponent decides it.
-/
import Trustme.Numeric.Float128Digits

namespace Trustme.Numeric.Float128

open Lib (digitString places pointed positional exponentText general significant)

/-! ## 1. As the code computes it -/

/-- The loop that drops zeros from the end, which comes first; one digit stays. -/
def dropZeros : List Char → List Char
  | [] => []
  | c :: digits => if digits ≠ [] ∧ c = '0' then dropZeros digits else c :: digits

/-- `appendExponent`. -/
def appendExponent (decimalExponent : Int) : List Char :=
  let digits := Nat.toDigits 10 decimalExponent.natAbs
  'e' :: (if decimalExponent < 0 then '-' else '+') ::
    (if digits.length < 2 then '0' :: digits else digits)

/-- `formatDefault`. -/
def formatDefault (value : Unpacked) (precision : Int) : Option (List Char) := do
  let significant := if precision < 1 then 1 else precision
  let out := if value.negative then ['-'] else []
  if value.kind = .zero then return out ++ ['0']
  let (digits, decimalExponent) ← decimalDigits value significant
  let digits := (dropZeros digits.reverse).reverse
  if decimalExponent < -4 ∨ decimalExponent ≥ significant then
    return out ++ digits.take 1 ++ (if digits.length > 1 then '.' :: digits.drop 1 else []) ++
      appendExponent decimalExponent
  else if decimalExponent < 0 then
    return out ++ ['0', '.'] ++ List.replicate (-decimalExponent - 1).toNat '0' ++ digits
  else if decimalExponent.toNat + 1 ≥ digits.length then
    return out ++ digits ++ List.replicate (decimalExponent.toNat + 1 - digits.length) '0'
  else
    return out ++ digits.take (decimalExponent.toNat + 1) ++
      '.' :: digits.drop (decimalExponent.toNat + 1)

/-! ## 2. The text -/

theorem toDigits_length_lt_two (n : Nat) : (Nat.toDigits 10 n).length < 2 ↔ n < 10 := by
  by_cases h : n < 10
  · rw [Nat.toDigits_of_lt_base h, List.length_singleton]
    exact iff_of_true (by decide) h
  · rw [Nat.toDigits_of_base_le (by decide) (by omega), List.length_append, List.length_singleton]
    have hpos : 0 < (Nat.toDigits 10 (n / 10)).length :=
      List.length_pos_iff.mpr Nat.toDigits_ne_nil
    omega

theorem appendExponent_eq (e : Int) : appendExponent e = exponentText e := by
  unfold appendExponent exponentText
  simp only [toDigits_length_lt_two]

/-- Digits that begin with another one than zero lose all zeros at the end. -/
theorem dropZeros_eq {c : Char} (hc : c ≠ '0') (digits : List Char) :
    dropZeros (digits ++ [c]) = (digits ++ [c]).dropWhile (· == '0') := by
  induction digits with
  | nil =>
    rw [List.nil_append, dropZeros, if_neg fun h => h.1 rfl]
    exact (List.dropWhile_cons_of_neg (by simpa using hc)).symm
  | cons d digits ih =>
    rw [List.cons_append, dropZeros]
    by_cases hd : d = '0'
    · rw [if_pos ⟨by simp, hd⟩, ih, List.dropWhile_cons_of_pos (by simpa using hd)]
    · rw [if_neg fun h => hd h.2, List.dropWhile_cons_of_neg (by simpa using hd)]

section Text

variable {d n : ℕ} (hlo : 10 ^ d ≤ n) (hhi : n < 10 ^ (d + 1))

include hlo hhi

theorem digitString_places : digitString n = places (d + 1) n :=
  Lib.digitString_eq_places hhi (by rw [pow_succ']; omega)

/-- The digits without the zeros at the end; there is at least one. -/
theorem digits_rdropWhile : (dropZeros (digitString n).reverse).reverse =
      (digitString n).rdropWhile (· == '0') ∧ (digitString n).rdropWhile (· == '0') ≠ [] := by
  have hhead := Lib.digitString_head n
  have hlen : (digitString n).length = d + 1 := by
    rw [digitString_places hlo hhi, Lib.places_length]
  obtain ⟨c, cs, hcs⟩ := List.exists_cons_of_length_eq_add_one hlen
  rw [hcs] at hhead ⊢
  have hc : c ≠ '0' := fun h => hhead (by rw [h]; rfl)
  refine ⟨?_, fun hnil => ?_⟩
  · rw [List.reverse_cons, dropZeros_eq hc, ← List.reverse_cons]
    rfl
  · have hall := List.rdropWhile_eq_nil_iff.mp hnil c List.mem_cons_self
    exact hc (by simpa using hall)

/-- The digits before and after a point. -/
theorem digits_split {f : ℕ} (hf : f ≤ d) :
    Nat.toDigits 10 (n / 10 ^ f) = (digitString n).take (d + 1 - f) ∧
      places f n = (digitString n).drop (d + 1 - f) := by
  obtain ⟨k, rfl⟩ : ∃ k, d = k + f := ⟨d - f, by omega⟩
  have hpow : 0 < 10 ^ f := Nat.pow_pos (by decide)
  have hquot1 : 10 ^ k ≤ n / 10 ^ f := by
    rw [Nat.le_div_iff_mul_le hpow, ← pow_add]
    exact hlo
  have hquot2 : n / 10 ^ f < 10 ^ (k + 1) := by
    rw [Nat.div_lt_iff_lt_mul hpow, ← pow_add, show k + 1 + f = k + f + 1 by omega]
    exact hhi
  have hlen : (places (k + 1) (n / 10 ^ f)).length = k + 1 := Lib.places_length ..
  rw [digitString_places hlo hhi, show k + f + 1 = k + 1 + f by omega, Nat.add_sub_cancel,
    Lib.places_add, Lib.toDigits_eq_places hquot2 (by rw [pow_succ']; omega)]
  exact ⟨(List.take_left' hlen).symm, (List.drop_left' hlen).symm⟩

/-- Fixed notation, by the digits that stay. -/
theorem positional_eq {f : ℕ} (hf : f ≤ d) : positional n f = (digitString n).take (d + 1 - f) ++
    pointed (((digitString n).rdropWhile (· == '0')).drop (d + 1 - f)) := by
  obtain ⟨htake, hdrop⟩ := digits_split hlo hhi hf
  rw [positional, htake, hdrop, Lib.rdropWhile_drop]

/-- Below 1 there are zeros before the digits. -/
theorem positional_small (k : ℕ) : positional n (d + 1 + k) =
    '0' :: '.' :: (List.replicate k '0' ++ (digitString n).rdropWhile (· == '0')) := by
  obtain ⟨-, hne⟩ := digits_rdropWhile hlo hhi
  have hquot : n / 10 ^ (d + 1) = 0 := Nat.div_eq_of_lt hhi
  have hzero : n / 10 ^ (d + 1 + k) = 0 := by
    rw [pow_add, ← Nat.div_div_eq_div_mul, hquot, Nat.zero_div]
  have hplaces : places (d + 1 + k) n = List.replicate k '0' ++ digitString n := by
    rw [Nat.add_comm, Lib.places_add, hquot, Lib.places_zero, digitString_places hlo hhi]
  rw [positional, hzero, hplaces, Lib.rdropWhile_append_of_not _ hne, pointed,
    if_neg (by simp [hne])]
  rfl

/-- **From the right digits it makes the text of `%g`.** -/
theorem formatDefault_general {value : Unpacked} {e : Int} (hkind : value.kind = .finite)
    (hdigits : decimalDigits value (d + 1 : ℕ) = some (digitString n, e)) :
    formatDefault value (d + 1 : ℕ) =
      some ((if value.negative then ['-'] else []) ++ general (d + 1) n e) := by
  obtain ⟨hdrop, hne⟩ := digits_rdropWhile hlo hhi
  have hlen : (digitString n).length = d + 1 := by
    rw [digitString_places hlo hhi, Lib.places_length]
  have hcore := (List.rdropWhile_prefix (· == '0') (digitString n)).length_le
  have hpos : 0 < ((digitString n).rdropWhile (· == '0')).length := List.length_pos_iff.mpr hne
  unfold formatDefault
  rw [if_neg (show ¬ ((d + 1 : ℕ) : Int) < 1 by omega)]
  simp only [hkind, hdigits, reduceCtorEq, if_false, Option.bind_eq_bind, Option.bind_some,
    Option.pure_def, hdrop, appendExponent_eq]
  unfold general
  generalize hcoreEq : (digitString n).rdropWhile (· == '0') = core at *
  by_cases hsci : e < -4 ∨ e ≥ (d + 1 : ℕ)
  · -- one digit before the point
    rw [if_pos hsci, if_neg (show ¬ (-4 ≤ e ∧ e < (d + 1 : ℕ)) by omega), Nat.add_sub_cancel,
      positional_eq hlo hhi (Nat.le_refl d), show d + 1 - d = 1 by omega, hcoreEq]
    have htake := Lib.take_rdropWhile (· == '0') (l := digitString n) (k := 1)
      (by rw [hcoreEq]; omega)
    rw [hcoreEq] at htake
    rw [← htake]
    unfold pointed
    by_cases hone : core.length > 1
    · have hrest : core.drop 1 ≠ [] := by
        rw [ne_eq, List.drop_eq_nil_iff]
        omega
      rw [if_pos hone, if_neg hrest]
      simp
    · have hrest : core.drop 1 = [] := List.drop_eq_nil_of_le (by omega)
      rw [if_neg hone, if_pos hrest]
      simp
  rw [if_neg hsci, if_pos (show -4 ≤ e ∧ e < (d + 1 : ℕ) by omega)]
  by_cases hneg : e < 0
  · -- zeros before the digits
    obtain ⟨k, hk⟩ : ∃ k : ℕ, (((d + 1 : ℕ) : Int) - 1 - e).toNat = d + 1 + k ∧
        (-e - 1).toNat = k := ⟨(-e - 1).toNat, by omega, rfl⟩
    rw [if_pos hneg, hk.1, hk.2, positional_small hlo hhi, hcoreEq]
    simp
  · -- the point stands after the digit of weight 1
    obtain ⟨k, rfl⟩ := Int.eq_ofNat_of_zero_le (not_lt.mp hneg)
    have hk : k ≤ d := by omega
    rw [if_neg hneg, show (((d + 1 : ℕ) : Int) - 1 - k).toNat = d - k by omega,
      positional_eq hlo hhi (Nat.sub_le d k), show d + 1 - (d - k) = k + 1 by omega, hcoreEq,
      Int.toNat_natCast]
    unfold pointed
    by_cases hlong : k + 1 ≥ core.length
    · have htake := Lib.take_of_rdropWhile_le (l := digitString n) (z := '0') (k := k + 1)
        (by rw [hcoreEq]; exact hlong) (by omega)
      rw [hcoreEq] at htake
      rw [if_pos hlong, if_pos (List.drop_eq_nil_of_le hlong), htake]
      simp
    · have htake := Lib.take_rdropWhile (· == '0') (l := digitString n) (k := k + 1)
        (by rw [hcoreEq]; omega)
      rw [hcoreEq] at htake
      have hrest : core.drop (k + 1) ≠ [] := by
        rw [ne_eq, List.drop_eq_nil_iff]
        omega
      rw [if_neg hlong, if_neg hrest, ← htake]
      simp

end Text

/-! ## 3. When it is right -/

/-- As many digits as there should be are found, they and the exponent are the significant ones of
    the number, and the text is that of `%g`. -/
def Prints (f : Float128) (precision : ℕ) : Prop :=
  ∃ u digits e, unpack f = some u ∧ decimalDigits u precision = some (digits, e) ∧
    digits.length = precision ∧ digits = digitString (significant precision f.magnitude).1 ∧
    e = (significant precision f.magnitude).2 ∧
    formatDefault u precision = some ((if f.sign then ['-'] else []) ++
      general precision (significant precision f.magnitude).1 (significant precision f.magnitude).2)

theorem Parts.exponent_eq {f : Float128} {u : Unpacked} (h : Parts f u) :
    u.exponent = Int.log 2 f.magnitude := by
  obtain ⟨hlo, hhi⟩ := h.magnitude_mem
  have hpos := h.magnitude_pos
  have h1 := (Int.zpow_le_iff_le_log (b := 2) (x := u.exponent) (by decide) hpos).mp
    (by exact_mod_cast hlo)
  have h2 := (Int.lt_zpow_iff_log_lt (b := 2) (x := u.exponent + 1) (by decide) hpos).mp
    (by exact_mod_cast hhi)
  omega

/-- **The text is right unless the estimate of the exponent is one too high** just below a power of
    ten, or one too low for a text of `2 ^ 31` digits. -/
theorem prints_iff {f : Float128} (hf : f.IsFinite) (hz : ¬ f.IsZero) {precision : ℕ}
    (hp : 1 ≤ precision) (hlt : precision < 2 ^ 31) : Prints f precision ↔
      ¬ RoundsUpEarly precision (Int.log 2 f.magnitude) f.magnitude ∧
        ¬ (precision = 2 ^ 31 - 1 ∧
          estimate (Int.log 2 f.magnitude) + 1 = Int.log 10 f.magnitude) := by
  obtain ⟨u, hu, h⟩ : ∃ u, unpack f = some u ∧ Parts f u :=
    (unpack_finite hf).resolve_left fun hc => hz hc.1
  rw [← h.exponent_eq, ← decimalDigits_eq_iff h hp hlt]
  constructor
  · rintro ⟨u', digits, e, hu', hdigits, -, rfl, rfl, -⟩
    obtain rfl : u = u' := Option.some.inj (hu.symm.trans hu')
    exact hdigits
  · intro hdigits
    obtain ⟨d, rfl⟩ : ∃ d, precision = d + 1 := ⟨precision - 1, by omega⟩
    obtain ⟨-, hlo, hhi⟩ := Lib.significant_value h.magnitude_pos d
    refine ⟨u, _, _, hu, hdigits, ?_, rfl, rfl, ?_⟩
    · rw [digitString_places hlo hhi, Lib.places_length]
    · rw [formatDefault_general hlo hhi h.kind hdigits, h.negative]

/-- The number nearest to 0.96, which is printed as 1 where two digits are asked for. -/
def ninetySix : Float128 := ⟨0x3FFEEB851EB851EB, 0x851EB851EB851EB8⟩

theorem ninetySix_significant : significant 2 ninetySix.magnitude = (96, -1) := by
  have hbiased : ninetySix.biased = 16382 := by decide
  have hfraction : ninetySix.fraction = 4776913109852041418248056622882488 := by decide
  have hvalue : ninetySix.magnitude = 9969209968386869046778552952102584 / 2 ^ 113 := by
    rw [magnitude, hbiased, hfraction, if_neg (by decide)]
    norm_num
  have hlog : Int.log 10 ninetySix.magnitude = -1 := by
    rw [hvalue]
    exact Lib.log_eq (by norm_num) (by norm_num) (by norm_num)
  have hfloor : ⌊ninetySix.magnitude / 10 ^ (-2 : ℤ)⌋ = 95 := by
    rw [hvalue, Int.floor_eq_iff]
    norm_num
  have hunits : Lib.inUnits ninetySix.magnitude (-1 - (2 : ℕ) + 1) = 96 := by
    rw [show (-1 - (2 : ℕ) + 1 : ℤ) = -2 by norm_num, Lib.inUnits, Lib.halfEven, hfloor, hvalue,
      if_neg (by norm_num), if_pos (by norm_num)]
    rfl
  unfold significant
  rw [hlog, hunits]
  rfl

theorem not_prints_ninetySix : ninetySix.IsFinite ∧ ¬ ninetySix.IsZero ∧
    ((unpack ninetySix).bind fun u => formatDefault u 2) = some ['1'] ∧
    general 2 (significant 2 ninetySix.magnitude).1 (significant 2 ninetySix.magnitude).2 =
      ['0', '.', '9', '6'] ∧ ¬ Prints ninetySix 2 := by
  have hdigits : ((unpack ninetySix).bind fun u => decimalDigits u 2) = some (['1', '0'], 0) := by
    decide +kernel
  refine ⟨show ninetySix.biased ≠ 0x7FFF by decide, fun h => absurd h.1 (by decide),
    by decide +kernel, by rw [ninetySix_significant]; decide, ?_⟩
  rintro ⟨u, digits, e, hu, hd, -, -, he, -⟩
  rw [hu, Option.bind_some] at hdigits
  have hpair := congrArg Prod.snd (Option.some.inj (hd.symm.trans hdigits))
  rw [ninetySix_significant] at he
  dsimp only at hpair he
  omega

/-- 1.5 -/
def threeHalves : Float128 := ⟨0x3FFF800000000000, 0⟩

theorem prints_iff_threeHalves : Prints threeHalves 3 ↔
    ¬ RoundsUpEarly 3 (Int.log 2 threeHalves.magnitude) threeHalves.magnitude ∧
      ¬ (3 = 2 ^ 31 - 1 ∧
        estimate (Int.log 2 threeHalves.magnitude) + 1 = Int.log 10 threeHalves.magnitude) :=
  prints_iff (show threeHalves.biased ≠ 0x7FFF by decide) (fun h => absurd h.1 (by decide))
    (by decide) (by decide)

theorem decimalDigits_nearest_threeHalves : ∃ u, unpack threeHalves = some u ∧ ∃ n e,
    decimalDigits u 3 = some (digitString n, e) ∧ 10 ^ 2 ≤ n ∧ n < 10 ^ 3 ∧ ∀ m j : ℤ,
      |m| < 10 ^ 3 → |n * (10 : ℚ) ^ (e - (3 : ℕ) + 1) - threeHalves.magnitude| ≤
        |m * 10 ^ j - threeHalves.magnitude| := by
  obtain ⟨u, hu, h⟩ : ∃ u, unpack threeHalves = some u ∧ Parts threeHalves u :=
    (unpack_finite (show threeHalves.biased ≠ 0x7FFF by decide)).resolve_left
      fun hc => absurd hc.1.1 (by decide)
  have hbiased : threeHalves.biased = 16383 := by decide
  have hfraction : threeHalves.fraction = 2 ^ 111 := by decide
  have hvalue : threeHalves.magnitude = 3 / 2 := by
    rw [magnitude, hbiased, hfraction, if_neg (by decide)]
    norm_num
  have hlog : Int.log 10 threeHalves.magnitude = 0 := by
    rw [hvalue]
    exact Lib.log_eq (by norm_num) (by norm_num) (by norm_num)
  have hearly : ¬ RoundsUpEarly 3 u.exponent threeHalves.magnitude := by
    rintro ⟨-, -, hnear | ⟨-, hnear⟩⟩ <;> rw [hlog, hvalue] at hnear <;> norm_num at hnear
  exact ⟨u, hu, decimalDigits_nearest h (by decide) (by decide) hearly⟩

end Trustme.Numeric.Float128
