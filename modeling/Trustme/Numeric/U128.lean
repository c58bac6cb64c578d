/-
  Subject:   `U128`, an unsigned 128-bit number in two limbs, and its operations as
             int128.cpp computes them.

  * `toBits`: the number as one bit vector; every operation below is told by it;
  * `add128O`, `sub128O`, `cmp128`, `shl`, `shr`: limb by limb;
  * `mul128O`: shift and add, ended early where no bit of the multiplier is left;
  * `div128O`: shift and subtract: `mul128O_toNat`, `div128O_eq` say what they return.
-/
import Mathlib.Data.Nat.Bitwise
import Trustme.Lib.LongDivision

namespace Trustme.Numeric

/-- `class U128`. -/
structure U128 where
  lo : BitVec 64
  hi : BitVec 64
  deriving DecidableEq, Repr

namespace U128

/-! ## 1. The number that the limbs stand for -/

/-- The two limbs side by side. -/
def toBits (a : U128) : BitVec 128 := a.hi ++ a.lo

def toNat (a : U128) : Nat := a.hi.toNat * 2 ^ 64 + a.lo.toNat

theorem toNat_lt (a : U128) : a.toNat < 2 ^ 128 := by
  have hh := a.hi.isLt
  have hl := a.lo.isLt
  unfold toNat
  omega

theorem toNat_toBits (a : U128) : a.toBits.toNat = a.toNat := by
  unfold toBits toNat
  rw [BitVec.toNat_append, ← Nat.shiftLeft_add_eq_or_of_lt a.lo.isLt, Nat.shiftLeft_eq]

variable {a b : U128}

theorem toNat_injective (h : a.toNat = b.toNat) : a = b := by
  obtain ⟨alo, ahi⟩ := a
  obtain ⟨blo, bhi⟩ := b
  have hl := alo.isLt
  have hl' := blo.isLt
  unfold toNat at h
  simp only at h
  rw [U128.mk.injEq, BitVec.toNat_eq, BitVec.toNat_eq]
  omega

theorem getLsbD_toBits (a : U128) (i : Nat) :
    a.toBits.getLsbD i = if i < 64 then a.lo.getLsbD i else a.hi.getLsbD (i - 64) :=
  BitVec.getLsbD_append

theorem msb_toBits (a : U128) : a.toBits.msb = a.hi.msb := by
  rw [BitVec.msb_eq_getLsbD_last, BitVec.msb_eq_getLsbD_last]
  exact getLsbD_toBits a 127

@[simp] theorem toNat_ofLo (x : BitVec 64) : (U128.mk x 0).toNat = x.toNat := by
  simp [toNat]

/-! ## 2. Addition, subtraction, comparison -/

/-- `add128O`: the sum and whether it overflows. -/
def add128O (a b : U128) : U128 × Bool :=
  let lo := a.lo + b.lo
  let hi := a.hi + b.hi + (if lo < a.lo then 1 else 0)
  (⟨lo, hi⟩, hi < a.hi)

/-- `sub128O`: the difference and whether it borrows. -/
def sub128O (a b : U128) : U128 × Bool :=
  let lo := a.lo - b.lo
  let hi := a.hi - b.hi - (if lo > a.lo then 1 else 0)
  (⟨lo, hi⟩, hi > a.hi)

/-- `cmp128`. -/
def cmp128 (a b : U128) : Int :=
  if a.hi ≠ b.hi then if a.hi < b.hi then -1 else 1
  else if a.lo ≠ b.lo then if a.lo < b.lo then -1 else 1
  else 0

theorem add128O_toNat (a b : U128) : (add128O a b).1.toNat = (a.toNat + b.toNat) % 2 ^ 128 := by
  have h1 := a.hi.isLt
  have h2 := a.lo.isLt
  have h3 := b.hi.isLt
  have h4 := b.lo.isLt
  unfold add128O toNat
  by_cases h : a.lo + b.lo < a.lo
  · simp only [if_pos h]
    rw [BitVec.lt_def, BitVec.toNat_add] at h
    simp only [BitVec.toNat_add, BitVec.ofNat_eq_ofNat, BitVec.toNat_ofNat]
    omega
  · simp only [if_neg h]
    rw [BitVec.lt_def, BitVec.toNat_add] at h
    simp only [BitVec.toNat_add, BitVec.ofNat_eq_ofNat, BitVec.toNat_ofNat]
    omega

theorem sub128O_toNat_mod (a b : U128) :
    (sub128O a b).1.toNat = (a.toNat + 2 ^ 128 - b.toNat) % 2 ^ 128 := by
  have h1 := a.hi.isLt
  have h2 := a.lo.isLt
  have h3 := b.hi.isLt
  have h4 := b.lo.isLt
  unfold sub128O toNat
  by_cases hlt : a.lo < a.lo - b.lo
  · simp only [gt_iff_lt, if_pos hlt]
    rw [BitVec.lt_def, BitVec.toNat_sub] at hlt
    simp only [BitVec.toNat_sub, BitVec.ofNat_eq_ofNat, BitVec.toNat_ofNat]
    omega
  · simp only [gt_iff_lt, if_neg hlt]
    rw [BitVec.lt_def, BitVec.toNat_sub] at hlt
    simp only [BitVec.toNat_sub, BitVec.ofNat_eq_ofNat, BitVec.toNat_ofNat]
    omega

theorem sub128O_toNat (h : b.toNat ≤ a.toNat) :
    (sub128O a b).1.toNat = a.toNat - b.toNat := by
  have ha := a.toNat_lt
  rw [sub128O_toNat_mod]
  omega

theorem cmp128_neg (a b : U128) : cmp128 a b < 0 ↔ a.toNat < b.toNat := by
  have h1 := a.lo.isLt
  have h2 := b.lo.isLt
  unfold cmp128 toNat
  simp only [ne_eq, BitVec.toNat_eq, BitVec.lt_def]
  split_ifs <;> omega

theorem cmp128_nonneg (a b : U128) : cmp128 a b ≥ 0 ↔ b.toNat ≤ a.toNat := by
  have h := cmp128_neg a b
  omega

theorem cmp128_zero (v : U128) : cmp128 v ⟨0, 0⟩ = 0 ↔ v.toNat = 0 := by
  have hlt := v.lo.isLt
  unfold cmp128 toNat
  simp only [ne_eq, BitVec.toNat_eq, BitVec.lt_def, BitVec.ofNat_eq_ofNat, BitVec.toNat_ofNat]
  split_ifs <;> omega

/-! ## 3. Shifts -/

/-- `operator<<`. -/
def shl (a : U128) (bits : Nat) : U128 :=
  if bits = 0 then a
  else if bits ≥ 128 then ⟨0, 0⟩
  else if bits ≥ 64 then ⟨0, a.lo <<< (bits - 64)⟩
  else ⟨a.lo <<< bits, a.hi <<< bits ||| a.lo >>> (64 - bits)⟩

/-- `operator>>`. -/
def shr (a : U128) (bits : Nat) : U128 :=
  if bits = 0 then a
  else if bits ≥ 128 then ⟨0, 0⟩
  else if bits ≥ 64 then ⟨a.hi >>> (bits - 64), 0⟩
  else ⟨a.lo >>> bits ||| a.hi <<< (64 - bits), a.hi >>> bits⟩

theorem toBits_shl (a : U128) (bits : Nat) : (a.shl bits).toBits = a.toBits <<< bits := by
  apply BitVec.eq_of_getLsbD_eq
  intro i hi
  unfold shl
  split_ifs <;> simp only [getLsbD_toBits, BitVec.getLsbD_shiftLeft, BitVec.getLsbD_or,
    BitVec.getLsbD_ushiftRight, BitVec.ofNat_eq_ofNat, BitVec.getLsbD_zero]
  · grind
  · grind
  · rw [show i - 64 - (bits - 64) = i - bits by omega]
    grind
  · grind

theorem toBits_shr (a : U128) (bits : Nat) : (a.shr bits).toBits = a.toBits >>> bits := by
  apply BitVec.eq_of_getLsbD_eq
  intro i hi
  unfold shr
  split_ifs <;> simp only [getLsbD_toBits, BitVec.getLsbD_shiftLeft, BitVec.getLsbD_or,
    BitVec.getLsbD_ushiftRight, BitVec.ofNat_eq_ofNat, BitVec.getLsbD_zero] <;> grind

theorem shl_toNat (a : U128) (bits : Nat) : (a.shl bits).toNat = a.toNat * 2 ^ bits % 2 ^ 128 := by
  rw [← toNat_toBits, toBits_shl, BitVec.toNat_shiftLeft, toNat_toBits, Nat.shiftLeft_eq]

theorem shr_toNat (a : U128) (bits : Nat) : (a.shr bits).toNat = a.toNat / 2 ^ bits := by
  rw [← toNat_toBits, toBits_shr, BitVec.toNat_ushiftRight, toNat_toBits, Nat.shiftRight_eq_div_pow]

/-- The loops move a number to the left by one bit with these two assignments. -/
def twice (b : U128) : U128 := ⟨b.lo <<< 1, b.hi <<< 1 ||| b.lo >>> 63⟩

/-- And to the right. -/
def half (b : U128) : U128 := ⟨b.lo >>> 1 ||| b.hi <<< 63, b.hi >>> 1⟩

theorem twice_toNat (b : U128) : b.twice.toNat = b.toNat * 2 % 2 ^ 128 := shl_toNat b 1

theorem half_toNat (b : U128) : b.half.toNat = b.toNat / 2 := shr_toNat b 1

/-! ## 4. Multiplication -/

/-- The loop of `mul128O` from `i = 128 - n` on: the result and the overflow flag. -/
def mulFrom (a : U128) : Nat → U128 → U128 → Bool → U128 × Bool
  | 0, _, o, of => (o, of)
  | n + 1, b, o, of =>
    let i := 127 - n
    let m := 1#64 <<< (i % 64)
    if a.hi = 0 ∧ a.lo < m then (o, of)
    else if i ≥ 64 ∧ a.hi < m then (o, of)
    else if m &&& (if i ≥ 64 then a.hi else a.lo) ≠ 0 then
      mulFrom a n b.twice (add128O o b).1 (of || (add128O o b).2)
    else mulFrom a n b.twice o of

def mul128O (a b : U128) : U128 × Bool := mulFrom a 128 b ⟨0, 0⟩ false

/-- The mask of one bit, as a number. -/
theorem toNat_bit {i : Nat} (hi : i < 64) : (1#64 <<< i).toNat = 2 ^ i := by
  rw [BitVec.toNat_shiftLeft, Nat.shiftLeft_eq, BitVec.toNat_ofNat, Nat.one_mod, Nat.one_mul]
  exact Nat.mod_eq_of_lt (Nat.pow_lt_pow_right (by decide) hi)

theorem bit_and_ne_zero {i : Nat} (hi : i < 64) (x : BitVec 64) :
    1#64 <<< i &&& x ≠ 0 ↔ x.getLsbD i = true := by
  constructor
  · intro h
    by_contra hx
    refine h (BitVec.eq_of_getLsbD_eq fun j hj => ?_)
    by_cases hij : j = i
    · subst hij
      simp [hx]
    · simp only [BitVec.getLsbD_and, BitVec.getLsbD_shiftLeft, BitVec.ofNat_eq_ofNat,
        BitVec.getLsbD_one, BitVec.getLsbD_zero]
      grind
  · intro hx h
    have hb := congrArg (·.getLsbD i) h
    simp only [BitVec.getLsbD_and, hx, BitVec.getLsbD_shiftLeft] at hb
    simp [hi] at hb

/-- Nothing is left of the multiplier when the loop stops early. -/
theorem div_eq_zero_of_stop {i : Nat} (hi : i < 128)
    (h : (a.hi = 0 ∧ a.lo < 1#64 <<< (i % 64)) ∨
      (i ≥ 64 ∧ a.hi < 1#64 <<< (i % 64))) : a.toNat / 2 ^ i = 0 := by
  apply Nat.div_eq_of_lt
  have hm := toNat_bit (Nat.mod_lt i (by decide : 64 > 0))
  unfold toNat
  obtain ⟨h0, hlt⟩ | ⟨h64, hlt⟩ := h
  · rw [BitVec.lt_def, hm] at hlt
    have hle : 2 ^ (i % 64) ≤ 2 ^ i := Nat.pow_le_pow_right (by decide) (Nat.mod_le _ _)
    rw [h0]
    simp
    omega
  · rw [BitVec.lt_def, hm, show i % 64 = i - 64 by omega] at hlt
    have hp : 2 ^ i = 2 ^ (i - 64) * 2 ^ 64 := by rw [← pow_add]; congr 1; omega
    have hl := a.lo.isLt
    omega

/-- The bit that an iteration looks at. -/
theorem bit_iff (a : U128) {i : Nat} (hi : i < 128) :
    1#64 <<< (i % 64) &&& (if i ≥ 64 then a.hi else a.lo) ≠ 0 ↔
      a.toNat / 2 ^ i % 2 = 1 := by
  rw [bit_and_ne_zero (Nat.mod_lt i (by decide)), ← decide_eq_true_iff (p := _ = 1),
    ← Nat.testBit_eq_decide_div_mod_eq, ← toNat_toBits, BitVec.testBit_toNat, getLsbD_toBits]
  by_cases h : i < 64
  · rw [if_neg (by omega), if_pos h, Nat.mod_eq_of_lt h]
  · rw [if_pos (by omega), if_neg h, show i % 64 = i - 64 by omega]

theorem mulFrom_toNat (a : U128) : ∀ (n : Nat) (b o : U128) (of : Bool), n ≤ 128 →
    (mulFrom a n b o of).1.toNat = (o.toNat + a.toNat / 2 ^ (128 - n) * b.toNat) % 2 ^ 128
  | 0, b, o, of, _ => by
    have h0 : a.toNat / 2 ^ 128 = 0 := Nat.div_eq_of_lt a.toNat_lt
    rw [mulFrom, Nat.sub_zero, h0, Nat.zero_mul, Nat.add_zero, Nat.mod_eq_of_lt o.toNat_lt]
  | n + 1, b, o, of, hn => by
    have hi : 127 - n < 128 := by omega
    have he : 128 - (n + 1) = 127 - n := by omega
    have hs : a.toNat / 2 ^ (127 - n) =
        2 * (a.toNat / 2 ^ (128 - n)) + a.toNat / 2 ^ (127 - n) % 2 := by
      rw [show 128 - n = 127 - n + 1 by omega, pow_succ, ← Nat.div_div_eq_div_mul]
      omega
    have ho : (o.toNat + 0 * b.toNat) % 2 ^ 128 = o.toNat := by
      rw [Nat.zero_mul, Nat.add_zero, Nat.mod_eq_of_lt o.toNat_lt]
    unfold mulFrom
    simp only [he]
    split
    · next h1 => rw [div_eq_zero_of_stop hi (.inl h1), ho]
    split
    · next h2 => rw [div_eq_zero_of_stop hi (.inr h2), ho]
    have hb := bit_iff a hi
    have ih := fun b o of => mulFrom_toNat a n b o of (by omega)
    generalize a.toNat / 2 ^ (128 - n) = rest at hs ih
    by_cases h3 : a.toNat / 2 ^ (127 - n) % 2 = 1
    · rw [if_pos (hb.mpr h3), ih, add128O_toNat, twice_toNat, hs, h3, Nat.mod_add_mod, Nat.add_mod,
        Nat.mul_mod_mod, ← Nat.add_mod]
      exact congrArg (· % 2 ^ 128) (by ring)
    · have h0 : a.toNat / 2 ^ (127 - n) % 2 = 0 := by omega
      rw [if_neg (mt hb.mp h3), ih, twice_toNat, hs, h0, Nat.add_mod, Nat.mul_mod_mod,
        ← Nat.add_mod]
      exact congrArg (· % 2 ^ 128) (by ring)

theorem mul128O_toNat (a b : U128) :
    (mul128O a b).1.toNat = a.toNat * b.toNat % 2 ^ 128 := by
  unfold mul128O
  rw [mulFrom_toNat a 128 b _ false (Nat.le_refl _)]
  simp [toNat]

/-! ## 5. Division -/

/-- The loop that moves the divisor under the dividend; `n` is `128 - shift`. -/
def alignFrom (aDiv2 : U128) : Nat → Nat → U128 → Nat × U128
  | 0, shift, b => (shift, b)
  | n + 1, shift, b =>
    if cmp128 aDiv2 b ≥ 0 then alignFrom aDiv2 n (shift + 1) b.twice else (shift, b)

/-- The loop that subtracts the divisor where it fits: the quotient and what is left. -/
def subtractFrom : Nat → U128 → U128 → U128 → U128 → U128 × U128
  | 0, a, _, _, q => (q, a)
  | n + 1, a, b, mask, q =>
    if cmp128 a b ≥ 0 then subtractFrom n (sub128O a b).1 b.half mask.half (add128O q mask).1
    else subtractFrom n a b.half mask.half q

/-- `div128O`: the quotient and the remainder, or the failure that it reports. -/
def div128O (a b : U128) : Option (U128 × U128) :=
  if a.hi = 0 ∧ b.hi = 0 then some (⟨a.lo / b.lo, 0⟩, ⟨a.lo % b.lo, 0⟩)
  else if cmp128 a b < 0 then some (⟨0, 0⟩, a)
  else
    let (shift, b) := alignFrom a.half 128 0 b
    if shift = 128 then none
    else
      let mask : U128 := ⟨if shift ≥ 64 then 0 else 1#64 <<< shift,
        if shift < 64 then 0 else 1#64 <<< (shift - 64)⟩
      some (subtractFrom (shift + 1) a b mask ⟨0, 0⟩)

/-- The divisor ends as the largest of its shifts that is not above the dividend. -/
theorem alignFrom_spec {b₀ : U128} (hb : 0 < b₀.toNat) {n shift : Nat} (hs : shift + n = 128)
    (he : b.toNat = b₀.toNat * 2 ^ shift) (hle : b.toNat ≤ a.toNat) :
    (alignFrom a.half n shift b).1 < 128 ∧
      (alignFrom a.half n shift b).2.toNat = b₀.toNat * 2 ^ (alignFrom a.half n shift b).1 ∧
      a.toNat < b₀.toNat * 2 ^ ((alignFrom a.half n shift b).1 + 1) := by
  have hlt := a.toNat_lt
  induction n generalizing shift b with
  | zero =>
    -- 128 shifts of a number above 0 do not fit
    have h1 : 2 ^ shift ≤ b₀.toNat * 2 ^ shift := Nat.le_mul_of_pos_left _ hb
    rw [show shift = 128 by omega] at h1 he
    omega
  | succ n ih =>
    unfold alignFrom
    have h2 : b₀.toNat * 2 ^ (shift + 1) = b.toNat * 2 := by rw [he, pow_succ, Nat.mul_assoc]
    split
    · next hc =>
        rw [cmp128_nonneg, half_toNat] at hc
        have h3 : b.twice.toNat = b.toNat * 2 := by
          rw [twice_toNat]
          exact Nat.mod_eq_of_lt (by omega)
        exact ih (by omega) (by rw [h3, h2]) (by omega)
    · next hc =>
        rw [cmp128_nonneg, half_toNat] at hc
        exact ⟨by omega, he, by rw [h2]; omega⟩

/-- The second loop does the steps of the division of the library. -/
theorem subtractFrom_toNat {d n : Nat} {mask q : U128} (hb : 1 ≤ n → b.toNat = d * 2 ^ (n - 1))
    (hm : 1 ≤ n → mask.toNat = 2 ^ (n - 1)) (hq : q.toNat + 2 ^ n ≤ 2 ^ 128) :
    ((subtractFrom n a b mask q).1.toNat, (subtractFrom n a b mask q).2.toNat) =
      Lib.alignedSteps d n q.toNat a.toNat := by
  induction n generalizing a b mask q with
  | zero => rfl
  | succ n ih =>
    have hb := hb (by omega)
    have hm := hm (by omega)
    rw [Nat.add_sub_cancel] at hb hm
    have hb' : 1 ≤ n → b.half.toNat = d * 2 ^ (n - 1) := by
      intro hn
      obtain ⟨m, rfl⟩ : ∃ m, n = m + 1 := ⟨n - 1, by omega⟩
      rw [half_toNat, hb, pow_succ, ← Nat.mul_assoc, Nat.mul_div_cancel _ (by decide),
        Nat.add_sub_cancel]
    have hm' : 1 ≤ n → mask.half.toNat = 2 ^ (n - 1) := by
      intro hn
      obtain ⟨m, rfl⟩ : ∃ m, n = m + 1 := ⟨n - 1, by omega⟩
      rw [half_toNat, hm, pow_succ, Nat.mul_div_cancel _ (by decide), Nat.add_sub_cancel]
    have hp := Nat.two_pow_pos n
    rw [pow_succ] at hq
    have hcmp : cmp128 a b ≥ 0 ↔ d * 2 ^ n ≤ a.toNat := by rw [cmp128_nonneg, hb]
    unfold subtractFrom Lib.alignedSteps
    by_cases hc : d * 2 ^ n ≤ a.toNat
    · have hsum : (add128O q mask).1.toNat = q.toNat + 2 ^ n := by
        rw [add128O_toNat, hm]
        exact Nat.mod_eq_of_lt (by omega)
      rw [if_pos hc, if_pos (hcmp.mpr hc), ih hb' hm' (by omega), hsum,
        sub128O_toNat (by rwa [hb]), hb]
    · rw [if_neg hc, if_neg (mt hcmp.mp hc), ih hb' hm' (by omega)]

/-- The first mask. -/
theorem mask_toNat {shift : Nat} (h : shift < 128) :
    (U128.mk (if shift ≥ 64 then 0 else 1#64 <<< shift)
      (if shift < 64 then 0 else 1#64 <<< (shift - 64))).toNat = 2 ^ shift := by
  unfold toNat
  by_cases h64 : shift < 64
  · rw [if_neg (by omega), if_pos h64]
    simp [toNat_bit h64]
  · rw [if_pos (by omega), if_neg h64]
    rw [toNat_bit (show shift - 64 < 64 by omega), ← pow_add, Nat.sub_add_cancel (by omega)]
    rfl

/-- `div128O` does not fail on a divisor other than zero, and divides. -/
theorem div128O_eq (a : U128) (hb : 0 < b.toNat) : ∃ q r, div128O a b = some (q, r) ∧
    q.toNat = a.toNat / b.toNat ∧ r.toNat = a.toNat % b.toNat := by
  unfold div128O
  split_ifs with h1 h2
  · refine ⟨_, _, rfl, ?_, ?_⟩ <;> simp [toNat, h1.1, h1.2]
  · rw [cmp128_neg] at h2
    exact ⟨_, _, rfl, (Nat.div_eq_of_lt h2).symm, (Nat.mod_eq_of_lt h2).symm⟩
  · rw [cmp128_neg] at h2
    obtain ⟨hs, hshift, hlt⟩ := alignFrom_spec hb (Nat.zero_add 128)
      (Nat.mul_one _).symm (Nat.le_of_not_lt h2)
    generalize alignFrom a.half 128 0 b = res at hs hshift hlt
    obtain ⟨shift, b'⟩ := res
    have hpow : (2 : Nat) ^ (shift + 1) ≤ 2 ^ 128 := Nat.pow_le_pow_right (by decide) hs
    have hsteps := subtractFrom_toNat (a := a) (q := ⟨0, 0⟩) (fun _ => hshift)
      (fun _ => mask_toNat hs) (by simpa [toNat] using hpow)
    rw [Lib.alignedSteps_eq hb _ _ _ hlt, Prod.mk.injEq] at hsteps
    exact ⟨_, _, if_neg (Nat.ne_of_lt hs), hsteps.1.trans (Nat.zero_add _), hsteps.2⟩

/-! ## 6. The operators -/

/-- `operator+`. -/
def add (a b : U128) : U128 := (add128O a b).1

/-- `operator*`. -/
def mul (a b : U128) : U128 := (mul128O a b).1

/-- `operator/`: the result starts as 0 and a failure leaves it so. -/
def div (a b : U128) : U128 := ((div128O a b).map Prod.fst).getD ⟨0, 0⟩

/-- `operator%`. -/
def mod (a b : U128) : U128 := ((div128O a b).map Prod.snd).getD ⟨0, 0⟩

theorem div_toNat (a : U128) (hb : 0 < b.toNat) :
    (div a b).toNat = a.toNat / b.toNat := by
  obtain ⟨q, r, h, hq, -⟩ := div128O_eq a hb
  rw [div, h]
  exact hq

theorem mod_toNat (a : U128) (hb : 0 < b.toNat) :
    (mod a b).toNat = a.toNat % b.toNat := by
  obtain ⟨q, r, h, -, hr⟩ := div128O_eq a hb
  rw [mod, h]
  exact hr

end U128

end Trustme.Numeric
