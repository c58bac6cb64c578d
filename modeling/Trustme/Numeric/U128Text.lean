/-
  Subject:   The decimal text of a `U128`, as `U128::fmt` and the printer of 64-bit numbers
             write it.

  * `formatU64Base10`: the digits of a limb, lowest first, turned round at the end;
  * `fmt`: a small number through that printer, any other through `div128O` by ten;
  * `fmt_eq`: the text is the numeral, and neither buffer overflows;
  * **`u128_exact`** -- division, the three operations and the text, for all numbers.
-/
import Mathlib.Tactic.IntervalCases
import Trustme.Lib.Printers
import Trustme.Numeric.U128

namespace Trustme.Numeric

/-! ## 1. The printer of 64-bit numbers -/

/-- `'0' + digit`. -/
def digitText (digit : BitVec 64) : Char := Char.ofNat ('0'.toNat + digit.toNat)

/-- The loop of `formatU64Base10`; no result where the buffer has no room left. -/
def formatU64Digits : Nat → BitVec 64 → Option (List Char)
  | 0, _ => none
  | room + 1, v =>
    if v / 10 = 0 then some [digitText (v % 10)]
    else (formatU64Digits room (v / 10)).map (digitText (v % 10) :: ·)

def formatU64Base10 (room : Nat) (v : BitVec 64) : Option (List Char) :=
  (formatU64Digits room v).map List.reverse

theorem digitText_eq {d : BitVec 64} (h : d.toNat < 10) : digitText d = d.toNat.digitChar := by
  unfold digitText
  generalize d.toNat = n at h ⊢
  interval_cases n <;> rfl

theorem formatU64Base10_eq {room : Nat} {v : BitVec 64} (h : v.toNat < 10 ^ room) (hr : 0 < room) :
    formatU64Base10 room v = some (Nat.toDigits 10 v.toNat) := by
  induction room generalizing v with
  | zero => omega
  | succ room ih =>
    have hmod : (v % 10).toNat = v.toNat % 10 := BitVec.toNat_umod
    have hdiv : (v / 10).toNat = v.toNat / 10 := BitVec.toNat_udiv
    have hdigit : digitText (v % 10) = (v.toNat % 10).digitChar := by
      rw [digitText_eq (by omega), hmod]
    have hzero : v / 10 = 0 ↔ v.toNat < 10 := by
      rw [BitVec.toNat_eq, hdiv]
      show v.toNat / 10 = 0 ↔ _
      omega
    unfold formatU64Base10 formatU64Digits
    rw [hdigit]
    by_cases hv : v.toNat < 10
    · rw [if_pos (hzero.mpr hv), Nat.toDigits_of_lt_base hv, Nat.mod_eq_of_lt hv]
      rfl
    · rw [if_neg (mt hzero.mp hv), Nat.toDigits_of_base_le (by decide) (by omega), ← hdiv]
      have hroom : 0 < room := by
        by_contra h0
        rw [show room = 0 by omega] at h
        omega
      have ih := ih (v := v / 10) (by rw [hdiv]; rw [pow_succ] at h; omega) hroom
      obtain ⟨ds, hds, hrev⟩ := Option.map_eq_some_iff.mp ih
      rw [hds, Option.map_some, Option.map_some, List.reverse_cons, hrev]

namespace U128

/-! ## 2. The text of a number -/

/-- The loop of `fmt`: the digits go into the buffer lowest first and are written from its end. -/
def fmtDigits : Nat → U128 → List Char → Option (List Char)
  | room, value, written =>
    if cmp128 value ⟨0, 0⟩ = 0 then some written
    else match room with
      | 0 => none
      | room + 1 =>
        fmtDigits room (div value ⟨10, 0⟩) (digitText (mod value ⟨10, 0⟩).lo :: written)

def fmt (v : U128) : Option (List Char) :=
  if v.hi = 0 then formatU64Base10 24 v.lo else fmtDigits 40 v []

theorem fmtDigits_eq {room : Nat} {value : U128} (written : List Char)
    (h : value.toNat < 10 ^ room) (hv : 0 < value.toNat) :
    fmtDigits room value written = some (Nat.toDigits 10 value.toNat ++ written) := by
  induction room generalizing value written with
  | zero => omega
  | succ room ih =>
    have hten : (U128.mk 10 0).toNat = 10 := rfl
    have hdiv := div_toNat value (b := ⟨10, 0⟩) (by decide)
    have hmod := mod_toNat value (b := ⟨10, 0⟩) (by decide)
    rw [hten] at hdiv hmod
    have hlo : (mod value ⟨10, 0⟩).lo.toNat = value.toNat % 10 := by
      have hm : (mod value ⟨10, 0⟩).toNat < 10 := by omega
      have := (mod value ⟨10, 0⟩).lo.isLt
      rw [← hmod]
      unfold toNat at hm ⊢
      omega
    have hdigit : digitText (mod value ⟨10, 0⟩).lo = (value.toNat % 10).digitChar := by
      rw [digitText_eq (by omega), hlo]
    unfold fmtDigits
    rw [if_neg (by rw [cmp128_zero]; omega), hdigit]
    dsimp only
    by_cases hsmall : value.toNat < 10
    · have hz : cmp128 (div value ⟨10, 0⟩) ⟨0, 0⟩ = 0 := by
        rw [cmp128_zero, hdiv]
        omega
      unfold fmtDigits
      rw [if_pos hz, Nat.toDigits_of_lt_base hsmall, Nat.mod_eq_of_lt hsmall]
      rfl
    · rw [pow_succ] at h
      have htext : Nat.toDigits 10 value.toNat =
          Nat.toDigits 10 (value.toNat / 10) ++ [(value.toNat % 10).digitChar] :=
        Nat.toDigits_of_base_le (by decide) (by omega)
      rw [ih _ (by omega) (by omega), hdiv, htext, List.append_assoc]
      rfl

/-- The text is the decimal numeral. -/
theorem fmt_eq (v : U128) : fmt v = some (Nat.toDigits 10 v.toNat) := by
  have hlt := v.toNat_lt
  have hlo := v.lo.isLt
  unfold fmt
  split
  · next h =>
      have hv : v.lo.toNat = v.toNat := by
        unfold toNat
        rw [h]
        simp
      rw [formatU64Base10_eq (by omega) (by decide), hv]
  · next h =>
      have hhi : v.hi.toNat ≠ 0 := fun h0 => h (BitVec.eq_of_toNat_eq h0)
      have hpos : 0 < v.toNat := by
        unfold toNat
        omega
      rw [fmtDigits_eq [] (by omega) hpos, List.append_nil]

end U128

/-! ## 3. All operations together -/

/-- **The operations are exact**: division leaves what it has to, the others reduce modulo
    `2 ^ 128`, and the text is the numeral without leading zeros. -/
theorem u128_exact (a b : U128) :
    (b.toNat ≠ 0 → ∃ q r, U128.div128O a b = some (q, r) ∧
      a.toNat = q.toNat * b.toNat + r.toNat ∧ r.toNat < b.toNat) ∧
    (U128.mul128O a b).1.toNat = a.toNat * b.toNat % 2 ^ 128 ∧
    (U128.add128O a b).1.toNat = (a.toNat + b.toNat) % 2 ^ 128 ∧
    ((U128.sub128O a b).1.toNat : Int) = ((a.toNat : Int) - b.toNat) % 2 ^ 128 ∧
    U128.fmt a = some (Nat.toDigits 10 a.toNat) ∧
    (a.toNat ≠ 0 → (Nat.toDigits 10 a.toNat).head? ≠ some '0') := by
  refine ⟨fun hb => ?_, U128.mul128O_toNat a b, U128.add128O_toNat a b, ?_, U128.fmt_eq a,
    fun ha => Lib.Printer.head_toDigits_ne_zero ha⟩
  · have hpos : 0 < b.toNat := Nat.pos_of_ne_zero hb
    obtain ⟨q, r, h, hq, hr⟩ := U128.div128O_eq a hpos
    refine ⟨q, r, h, ?_, by rw [hr]; exact Nat.mod_lt _ hpos⟩
    rw [hq, hr]
    exact (Nat.div_add_mod' _ _).symm
  · have ha := a.toNat_lt
    have hb := b.toNat_lt
    rw [U128.sub128O_toNat_mod]
    omega

end Trustme.Numeric
