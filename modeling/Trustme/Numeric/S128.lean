/-
  Subject:   `S128`, a signed 128-bit number over `U128`, and which of its operations are those
             of two's complement.

  * `toInt`: the signed number that the limbs stand for;
  * `uAbs`: the absolute value, with the special case for a zero low limb under a high limb of
    ones, which is the number `-2^64` and not the smallest one;
  * `sar`, `cmp128s`: right for all numbers: `sar_toInt`, `cmp128s_eq`;
  * `signed_exact`: `*`, `/`, `%` and `uAbs` are right exactly where the special case does no
    harm.
-/
import Mathlib.Data.Int.ModEq
import Trustme.Numeric.U128

namespace Trustme.Numeric

/-- `class S128`. -/
structure S128 where
  inner : U128
  deriving DecidableEq, Repr

namespace S128

/-- The number in two's complement. -/
def toInt (a : S128) : Int := a.inner.toBits.toInt

/-- `S128(i64)`. -/
def ofI64 (v : BitVec 64) : S128 := ⟨v, if v.slt 0 then BitVec.allOnes 64 else 0⟩

/-! ## 1. Sign, negation, order -/

/-- `cmp128s`. -/
def cmp128s (a b : U128) : Int :=
  if a.hi ≠ b.hi then if a.hi.slt b.hi then -1 else 1
  else if a.lo ≠ b.lo then if a.lo < b.lo then -1 else 1
  else 0

def lt (a b : S128) : Bool := cmp128s a.inner b.inner < 0

def le (a b : S128) : Bool := cmp128s a.inner b.inner ≤ 0

def gt (a b : S128) : Bool := cmp128s a.inner b.inner > 0

def ge (a b : S128) : Bool := cmp128s a.inner b.inner ≥ 0

def eq (a b : S128) : Bool := cmp128s a.inner b.inner == 0

def ne (a b : S128) : Bool := cmp128s a.inner b.inner != 0

/-- `S128::ord`. -/
def ord (a b : S128) : Ordering :=
  let c := cmp128s a.inner b.inner
  if c = 0 then .eq else if c < 0 then .lt else .gt

/-- `isNeg`. -/
def isNeg (a : S128) : Bool := (a.inner.shr 127).lo != 0

/-- `operator-()`. -/
def neg (a : S128) : S128 := ⟨U128.add ⟨~~~a.inner.lo, ~~~a.inner.hi⟩ (ofI64 1).inner⟩

/-- `operator>>`. -/
def sar (a : S128) (bits : Nat) : S128 :=
  if bits = 0 then a
  else if bits ≥ 128 then if a.lt (ofI64 0) then ofI64 (-1) else ofI64 0
  else if bits ≥ 64 then
    ⟨a.inner.hi.sshiftRight (bits - 64), if a.lt (ofI64 0) then BitVec.allOnes 64 else 0⟩
  else
    ⟨a.inner.lo >>> bits ||| a.inner.hi <<< (64 - bits), a.inner.hi.sshiftRight bits⟩

theorem toInt_eq (a : S128) :
    a.toInt = if a.inner.toNat < 2 ^ 127 then (a.inner.toNat : Int) else a.inner.toNat - 2
      ^ 128 := by
  rw [toInt, BitVec.toInt_eq_toNat_cond, U128.toNat_toBits]
  split_ifs <;> omega

theorem toInt_mod (a : S128) : a.toInt = (a.inner.toNat : Int).bmod (2 ^ 128) := by
  rw [toInt, BitVec.toInt_eq_toNat_bmod, U128.toNat_toBits]

theorem toInt_hi (a : S128) :
    a.toInt = a.inner.hi.toInt * 2 ^ 64 + a.inner.lo.toNat := by
  have hl := a.inner.lo.isLt
  have hh := a.inner.hi.isLt
  rw [toInt_eq, BitVec.toInt_eq_toNat_cond]
  unfold U128.toNat
  split_ifs <;> omega

theorem toInt_bounds (a : S128) : -2 ^ 127 ≤ a.toInt ∧ a.toInt < 2 ^ 127 := by
  have h := a.inner.toNat_lt
  rw [toInt_eq]
  split_ifs <;> omega

theorem cmp128s_eq (a b : S128) :
    (a.toInt < b.toInt ∧ cmp128s a.inner b.inner = -1) ∨
    (a.toInt = b.toInt ∧ cmp128s a.inner b.inner = 0) ∨
    (b.toInt < a.toInt ∧ cmp128s a.inner b.inner = 1) := by
  have h1 := a.inner.lo.isLt
  have h2 := b.inner.lo.isLt
  rw [toInt_hi, toInt_hi]
  unfold cmp128s
  by_cases hh : a.inner.hi = b.inner.hi
  · by_cases hl : a.inner.lo = b.inner.lo
    · simp [hh, hl]
    · rw [if_neg (by simpa using hh), if_pos hl, hh]
      rw [BitVec.toNat_eq] at hl
      simp only [BitVec.lt_def]
      split_ifs <;> omega
  · have hne : a.inner.hi.toInt ≠ b.inner.hi.toInt := fun h => hh (BitVec.eq_of_toInt_eq h)
    rw [if_pos hh, BitVec.slt_eq_decide]
    split_ifs with h <;> simp only [decide_eq_true_eq] at h <;> omega

theorem lt_iff (a b : S128) : a.lt b = true ↔ a.toInt < b.toInt := by
  have h := cmp128s_eq a b
  simp only [lt, decide_eq_true_eq]
  omega

theorem le_iff (a b : S128) : a.le b = true ↔ a.toInt ≤ b.toInt := by
  have h := cmp128s_eq a b
  simp only [le, decide_eq_true_eq]
  omega

theorem gt_iff (a b : S128) : a.gt b = true ↔ a.toInt > b.toInt := by
  have h := cmp128s_eq a b
  simp only [gt, decide_eq_true_eq]
  omega

theorem ge_iff (a b : S128) : a.ge b = true ↔ a.toInt ≥ b.toInt := by
  have h := cmp128s_eq a b
  simp only [ge, decide_eq_true_eq]
  omega

theorem eq_iff (a b : S128) : a.eq b = true ↔ a.toInt = b.toInt := by
  have h := cmp128s_eq a b
  simp only [eq, beq_iff_eq]
  omega

theorem ne_iff (a b : S128) : a.ne b = true ↔ a.toInt ≠ b.toInt := by
  have h := cmp128s_eq a b
  simp only [ne, bne_iff_ne]
  omega

theorem ord_eq (a b : S128) : a.ord b = compare a.toInt b.toInt := by
  unfold ord
  obtain ⟨h, hc⟩ | ⟨h, hc⟩ | ⟨h, hc⟩ := cmp128s_eq a b
  · rw [hc, compare_lt_iff_lt.mpr h]
    rfl
  · rw [hc, compare_eq_iff_eq.mpr h]
    rfl
  · rw [hc, compare_gt_iff_gt.mpr h]
    rfl

theorem isNeg_iff (a : S128) : a.isNeg = true ↔ a.toInt < 0 := by
  have h := a.inner.toNat_lt
  have hs := U128.shr_toNat a.inner 127
  have hlo : (a.inner.shr 127).lo = 0 ↔ (a.inner.shr 127).toNat = 0 := by
    have hl := (a.inner.shr 127).lo.isLt
    have hb : (a.inner.shr 127).toNat < 2 := by omega
    unfold U128.toNat at hb ⊢
    rw [BitVec.toNat_eq]
    simp only [BitVec.ofNat_eq_ofNat, BitVec.toNat_ofNat]
    omega
  unfold isNeg
  rw [bne_iff_ne, ne_eq, hlo, toInt_eq]
  split_ifs <;> omega

theorem ofI64_toInt (v : BitVec 64) : (ofI64 v).toInt = v.toInt := by
  have hv := v.isLt
  have hc := BitVec.toInt_eq_toNat_cond v
  rw [toInt_hi]
  unfold ofI64
  rw [BitVec.slt_eq_decide, BitVec.ofNat_eq_ofNat, BitVec.toInt_zero]
  by_cases h : v.toInt < 0
  · rw [if_pos (decide_eq_true h), BitVec.toInt_allOnes, if_pos (by decide)]
    show -1 * 2 ^ 64 + (v.toNat : Int) = v.toInt
    split_ifs at hc <;> omega
  · rw [if_neg (by simpa using h), BitVec.toInt_zero]
    show 0 * 2 ^ 64 + (v.toNat : Int) = v.toInt
    split_ifs at hc <;> omega

theorem neg_toNat (a : S128) : (neg a).inner.toNat = (2 ^ 128 - a.inner.toNat) % 2 ^ 128 := by
  have hh := a.inner.hi.isLt
  have hl := a.inner.lo.isLt
  have h1 : (ofI64 1).inner.toNat = 1 := by decide
  unfold neg U128.add
  rw [U128.add128O_toNat, h1]
  unfold U128.toNat
  simp only [BitVec.toNat_not]
  exact congrArg (· % 2 ^ 128) (by omega)

/-! ## 2. The shift -/

theorem lt_zero_iff (a : S128) : a.lt (ofI64 0) = true ↔ a.inner.toBits.msb = true := by
  rw [lt_iff, ofI64_toInt, BitVec.msb_eq_toInt, decide_eq_true_eq]
  rfl

theorem toBits_sar (a : S128) (bits : Nat) :
    (a.sar bits).inner.toBits = a.inner.toBits.sshiftRight bits := by
  apply BitVec.eq_of_getLsbD_eq
  intro i hi
  have h0 : (ofI64 0).inner = ⟨0, 0⟩ := by decide
  have h1 : (ofI64 (-1)).inner = ⟨BitVec.allOnes 64, BitVec.allOnes 64⟩ := by decide
  have hm := U128.msb_toBits a.inner
  unfold sar
  by_cases hn : a.lt (ofI64 0) = true
  · have hmsb := (lt_zero_iff a).mp hn
    split_ifs <;> simp only [h1, U128.getLsbD_toBits, BitVec.getLsbD_shiftLeft,
      BitVec.getLsbD_or, BitVec.getLsbD_ushiftRight, BitVec.getLsbD_sshiftRight,
      BitVec.getLsbD_allOnes, hmsb, ← hm] <;> grind
  · have hmsb := eq_false_of_ne_true (mt (lt_zero_iff a).mpr hn)
    split_ifs with hz
    · rw [hz, BitVec.sshiftRight_zero]
    · rw [h0]
      simp only [U128.getLsbD_toBits, BitVec.getLsbD_sshiftRight, BitVec.ofNat_eq_ofNat,
        BitVec.getLsbD_zero, hmsb]
      grind
    all_goals
      simp only [U128.getLsbD_toBits, BitVec.getLsbD_shiftLeft, BitVec.getLsbD_or,
        BitVec.getLsbD_ushiftRight, BitVec.getLsbD_sshiftRight, BitVec.ofNat_eq_ofNat,
        BitVec.getLsbD_zero, hmsb, ← hm]
      grind

theorem sar_toInt (a : S128) (bits : Nat) : (a.sar bits).toInt = a.toInt / 2 ^ bits := by
  rw [toInt, toBits_sar, BitVec.toInt_sshiftRight, Int.shiftRight_eq_div_pow]
  norm_cast

/-! ## 3. Sign and magnitude -/

def signed (negative : Bool) (n : Nat) : Int := if negative then -(n : Int) else n

@[simp] theorem signed_false (n : Nat) : signed false n = n := rfl

@[simp] theorem signed_true (n : Nat) : signed true n = -n := rfl

theorem eq_signed (x : Int) : x = signed (decide (x < 0)) x.natAbs := by
  unfold signed
  by_cases h : x < 0
  · rw [if_pos (decide_eq_true h)]
    omega
  · rw [if_neg (by simpa using h)]
    omega

theorem mul_signed (p q : Bool) (m n : Nat) :
    signed p m * signed q n = signed (p != q) (m * n) := by
  cases p <;> cases q <;> simp

theorem tdiv_signed (p q : Bool) (m n : Nat) :
    (signed p m).tdiv (signed q n) = signed (p != q) (m / n) := by
  cases p <;> cases q <;> simp

theorem tmod_signed (p q : Bool) (m n : Nat) :
    (signed p m).tmod (signed q n) = signed p (m % n) := by
  have h : (m : Int).tmod n = ((m % n : Nat) : Int) := rfl
  cases p <;> cases q <;> simp [h]

theorem signed_bmod_iff (p : Bool) (m n : Nat) :
    (signed p m).bmod (2 ^ 128) = (signed p n).bmod (2 ^ 128) ↔ m % 2 ^ 128 = n % 2 ^ 128 := by
  have h (x y : Int) : x.bmod (2 ^ 128) = y.bmod (2 ^ 128) ↔ x % 2 ^ 128 = y % 2 ^ 128 := by
    rw [Int.bmod_def, Int.bmod_def]
    norm_num
    split_ifs <;> omega
  rw [h]
  cases p <;> simp only [signed_false, signed_true] <;> omega

theorem bmod_signed (p : Bool) {n : Nat} (h : n < 2 ^ 127) :
    (signed p n).bmod (2 ^ 128) = signed p n := by
  have hn : ((2 ^ 128 : Nat) : Int) = 2 ^ 128 := by norm_cast
  apply Int.bmod_eq_of_le <;> rw [hn] <;> cases p <;> simp only [signed_false,
    signed_true] <;> omega

/-! ## 4. Products and quotients -/

/-- `uAbs`. -/
def uAbs (a : S128) : U128 :=
  if a.inner.hi = BitVec.allOnes 64 ∧ a.inner.lo = 0 then a.inner
  else if a.isNeg then (neg a).inner else a.inner

/-- An unsigned result with the sign that the operators put on it. -/
def withSign (retNeg : Bool) (rvU : U128) : S128 := if retNeg then neg ⟨rvU⟩ else ⟨rvU⟩

/-- `operator*`. -/
def mul (a b : S128) : S128 := withSign (a.isNeg != b.isNeg) (U128.mul a.uAbs b.uAbs)

/-- `operator/`. -/
def div (a b : S128) : S128 := withSign (a.isNeg != b.isNeg) (U128.div a.uAbs b.uAbs)

/-- `operator%`. -/
def mod (a b : S128) : S128 := withSign a.isNeg (U128.mod a.uAbs b.uAbs)

/-- The number that `uAbs` takes for the smallest one. -/
def Mistaken (a : S128) : Prop := a.toInt = -2 ^ 64

theorem mistaken_iff (a : S128) :
    a.Mistaken ↔ a.inner.hi = BitVec.allOnes 64 ∧ a.inner.lo = 0 := by
  have hl := a.inner.lo.isLt
  have hh := a.inner.hi.isLt
  unfold Mistaken
  rw [toInt_eq, BitVec.toNat_eq, BitVec.toNat_eq, BitVec.toNat_allOnes, BitVec.ofNat_eq_ofNat,
    BitVec.toNat_ofNat]
  unfold U128.toNat
  split_ifs <;> omega

theorem uAbs_toNat (a : S128) :
    a.uAbs.toNat = if a.toInt = -2 ^ 64 then 2 ^ 128 - 2 ^ 64 else a.toInt.natAbs := by
  have h := a.inner.toNat_lt
  have hm := mistaken_iff a
  have hneg := isNeg_iff a
  have he := toInt_eq a
  unfold uAbs
  unfold Mistaken at hm
  by_cases h1 : a.inner.hi = BitVec.allOnes 64 ∧ a.inner.lo = 0
  · rw [if_pos h1, if_pos (hm.mpr h1)]
    rw [hm.mpr h1] at he
    split_ifs at he <;> omega
  · rw [if_neg h1, if_neg (mt hm.mp h1)]
    by_cases h2 : a.isNeg = true
    · have := hneg.mp h2
      rw [if_pos h2, neg_toNat]
      split_ifs at he <;> omega
    · have := mt hneg.mpr h2
      rw [if_neg h2]
      split_ifs at he <;> omega

theorem withSign_toInt (retNeg : Bool) (rvU : U128) :
    (withSign retNeg rvU).toInt = (signed retNeg rvU.toNat).bmod (2 ^ 128) := by
  have h := rvU.toNat_lt
  unfold withSign
  cases retNeg
  · exact toInt_mod _
  · rw [if_pos rfl, toInt_mod, neg_toNat, signed_true]
    have e : (((2 ^ 128 - rvU.toNat) % 2 ^ 128 : Nat) : Int) =
        (-(rvU.toNat : Int) + 2 ^ 128) % 2 ^ 128 := by
      omega
    rw [e, show (2 : Int) ^ 128 = ((2 ^ 128 : Nat) : Int) by norm_cast, Int.emod_bmod,
      Int.add_bmod_right]

theorem isNeg_eq (a : S128) : a.isNeg = decide (a.toInt < 0) := by
  rw [Bool.eq_iff_iff, isNeg_iff, decide_eq_true_iff]

/-! ## 5. Where they are those of two's complement -/

theorem mul_exact (a b : S128) : (mul a b).toInt = (a.toInt * b.toInt).bmod (2 ^ 128) ↔
    a.uAbs.toNat * b.uAbs.toNat % 2 ^ 128 = a.toInt.natAbs * b.toInt.natAbs % 2 ^ 128 := by
  conv_lhs => rw [eq_signed a.toInt, eq_signed b.toInt, mul_signed]
  unfold mul
  rw [withSign_toInt, isNeg_eq, isNeg_eq, signed_bmod_iff, U128.mul, U128.mul128O_toNat,
    Nat.mod_mod]

variable {b : S128}

theorem uAbs_pos (hb : b.toInt ≠ 0) : 0 < b.uAbs.toNat := by
  rw [uAbs_toNat]
  split_ifs <;> omega

theorem div_exact (a : S128) (hb : b.toInt ≠ 0) :
    (div a b).toInt = (a.toInt.tdiv b.toInt).bmod (2 ^ 128) ↔
      a.uAbs.toNat / b.uAbs.toNat = a.toInt.natAbs / b.toInt.natAbs := by
  have ha := a.toInt_bounds
  have h1 : a.uAbs.toNat / b.uAbs.toNat < 2 ^ 128 :=
    Nat.lt_of_le_of_lt (Nat.div_le_self _ _) a.uAbs.toNat_lt
  have h2 : a.toInt.natAbs / b.toInt.natAbs < 2 ^ 128 :=
    Nat.lt_of_le_of_lt (Nat.div_le_self _ _) (by omega)
  conv_lhs => rw [eq_signed a.toInt, eq_signed b.toInt, tdiv_signed]
  unfold div
  rw [withSign_toInt, isNeg_eq, isNeg_eq, signed_bmod_iff, U128.div_toNat _ (uAbs_pos hb),
    Nat.mod_eq_of_lt h1, Nat.mod_eq_of_lt h2]

theorem mod_exact (a : S128) (hb : b.toInt ≠ 0) :
    (mod a b).toInt = (a.toInt.tmod b.toInt).bmod (2 ^ 128) ↔
      a.uAbs.toNat % b.uAbs.toNat = a.toInt.natAbs % b.toInt.natAbs := by
  have hb' := b.toInt_bounds
  have h1 : a.uAbs.toNat % b.uAbs.toNat < 2 ^ 128 :=
    Nat.lt_of_lt_of_le (Nat.mod_lt _ (uAbs_pos hb)) (Nat.le_of_lt b.uAbs.toNat_lt)
  have h2 : a.toInt.natAbs % b.toInt.natAbs < 2 ^ 128 :=
    Nat.lt_of_lt_of_le (Nat.mod_lt _ (by omega)) (by omega)
  conv_lhs => rw [eq_signed a.toInt, eq_signed b.toInt, tmod_signed]
  unfold mod
  rw [withSign_toInt, isNeg_eq, signed_bmod_iff, U128.mod_toNat _ (uAbs_pos hb),
    Nat.mod_eq_of_lt h1, Nat.mod_eq_of_lt h2]

/-- The remainder never wraps. -/
theorem tmod_bmod (a : S128) (hb : b.toInt ≠ 0) :
    (a.toInt.tmod b.toInt).bmod (2 ^ 128) = a.toInt.tmod b.toInt := by
  have hb' := b.toInt_bounds
  have h : a.toInt.natAbs % b.toInt.natAbs < b.toInt.natAbs := Nat.mod_lt _ (by omega)
  rw [eq_signed a.toInt, eq_signed b.toInt, tmod_signed]
  exact bmod_signed _ (by omega)

theorem mul_of_mistaken (n : Nat) :
    (2 ^ 128 - 2 ^ 64) * n % 2 ^ 128 = 2 ^ 64 * n % 2 ^ 128 ↔ 2 ^ 63 ∣ n := by
  omega

/-- The false absolute value is too large for every quotient. -/
theorem div_of_mistaken {n : Nat} (h0 : 0 < n) (h : n ≤ 2 ^ 127) :
    (2 ^ 128 - 2 ^ 64) / n ≠ 2 ^ 64 / n := by
  have h1 : (2 ^ 64 + n) / n ≤ (2 ^ 128 - 2 ^ 64) / n := Nat.div_le_div_right (by omega)
  rw [Nat.add_div_right _ h0] at h1
  omega

theorem mod_of_mistaken (n : Nat) :
    (2 ^ 128 - 2 ^ 64) % n = 2 ^ 64 % n ↔ n ∣ 2 ^ 128 - 2 ^ 65 := by
  have h : (2 : Nat) ^ 64 ≤ 2 ^ 128 - 2 ^ 64 := by decide
  rw [eq_comm, show (2 : Nat) ^ 128 - 2 ^ 65 = 2 ^ 128 - 2 ^ 64 - 2 ^ 64 by decide]
  exact Nat.modEq_iff_dvd' h

/-- The absolute value that the operators compute with. -/
theorem uAbs_cases (a : S128) : (a.Mistaken ∧ a.toInt = -2 ^ 64 ∧ a.uAbs.toNat = 2 ^ 128 - 2 ^ 64) ∨
    (¬ a.Mistaken ∧ a.toInt ≠ -2 ^ 64 ∧ a.uAbs.toNat = a.toInt.natAbs) := by
  unfold Mistaken
  rw [uAbs_toNat]
  by_cases h : a.toInt = -2 ^ 64
  · exact .inl ⟨h, h, if_pos h⟩
  · exact .inr ⟨h, h, if_neg h⟩

theorem mul_conditions (a b : S128) :
    a.uAbs.toNat * b.uAbs.toNat % 2 ^ 128 = a.toInt.natAbs * b.toInt.natAbs % 2 ^ 128 ↔
      (a.Mistaken → 2 ^ 63 ∣ b.toInt) ∧ (b.Mistaken → 2 ^ 63 ∣ a.toInt) := by
  obtain ⟨hm, ha, hu⟩ | ⟨hm, ha, hu⟩ := uAbs_cases a <;>
    obtain ⟨hm', hb, hu'⟩ | ⟨hm', hb, hu'⟩ := uAbs_cases b <;> rw [hu, hu']
  · simp only [hm, hm', ha, hb, forall_const]
    decide
  · have h := mul_of_mistaken b.toInt.natAbs
    simp only [hm, hm', ha, forall_const, false_implies, and_true]
    rw [show (-2 ^ 64 : Int).natAbs = 2 ^ 64 by decide, h]
    omega
  · have h := mul_of_mistaken a.toInt.natAbs
    simp only [hm, hm', hb, forall_const, false_implies, true_and]
    rw [show (-2 ^ 64 : Int).natAbs = 2 ^ 64 by decide, Nat.mul_comm,
      Nat.mul_comm a.toInt.natAbs, h]
    omega
  · simp [hm, hm']

theorem div_conditions (a : S128) (h0 : b.toInt ≠ 0) :
    a.uAbs.toNat / b.uAbs.toNat = a.toInt.natAbs / b.toInt.natAbs ↔
      (a.Mistaken ∨ b.Mistaken → a.toInt = b.toInt ∨ a.toInt.natAbs < 2 ^ 64) := by
  have hla := a.toInt_bounds
  have hlb := b.toInt_bounds
  obtain ⟨hm, ha, hu⟩ | ⟨hm, ha, hu⟩ := uAbs_cases a <;>
    obtain ⟨hm', hb, hu'⟩ | ⟨hm', hb, hu'⟩ := uAbs_cases b <;> rw [hu, hu']
  · simp only [ha, hb, true_or, implies_true, iff_true]
    decide
  · have h := div_of_mistaken (n := b.toInt.natAbs) (by omega) (by omega)
    simp only [hm, ha, true_or, forall_const]
    rw [show (-2 ^ 64 : Int).natAbs = 2 ^ 64 by decide]
    simp only [h, false_iff]
    omega
  · simp only [hm', hb, or_true, forall_const]
    rw [show (-2 ^ 64 : Int).natAbs = 2 ^ 64 by decide, Nat.div_eq_of_lt (by omega)]
    omega
  · simp [hm, hm']

theorem mod_conditions (a b : S128) :
    a.uAbs.toNat % b.uAbs.toNat = a.toInt.natAbs % b.toInt.natAbs ↔
      (a.Mistaken → b.toInt ∣ 2 ^ 128 - 2 ^ 65) ∧
        (b.Mistaken → a.Mistaken ∨ a.toInt.natAbs < 2 ^ 64) := by
  have hla := a.toInt_bounds
  obtain ⟨hm, ha, hu⟩ | ⟨hm, ha, hu⟩ := uAbs_cases a <;>
    obtain ⟨hm', hb, hu'⟩ | ⟨hm', hb, hu'⟩ := uAbs_cases b <;> rw [hu, hu']
  · simp only [hm, ha, hb, true_or, implies_true, forall_const, and_true]
    decide
  · have h := mod_of_mistaken b.toInt.natAbs
    simp only [hm, hm', ha, forall_const, false_implies, and_true]
    rw [show (-2 ^ 64 : Int).natAbs = 2 ^ 64 by decide, h,
      show (2 : Nat) ^ 128 - 2 ^ 65 = ((2 : Int) ^ 128 - 2 ^ 65).natAbs by decide,
      Int.natAbs_dvd_natAbs]
  · simp only [hm, hm', hb, forall_const, false_implies, true_and, false_or]
    rw [show (-2 ^ 64 : Int).natAbs = 2 ^ 64 by decide, Nat.mod_eq_of_lt (by omega)]
    constructor
    · intro h
      rw [h]
      exact Nat.mod_lt _ (by decide)
    · exact fun h => (Nat.mod_eq_of_lt h).symm
  · simp [hm, hm']

/-- **The operations of `S128`**: the shift and the order are right, the others are so exactly
    under the conditions on `-2^64`. -/
theorem signed_exact (a b : S128) (n : Nat) :
    ((mul a b).toInt = (a.toInt * b.toInt).bmod (2 ^ 128) ↔
      (a.Mistaken → 2 ^ 63 ∣ b.toInt) ∧ (b.Mistaken → 2 ^ 63 ∣ a.toInt)) ∧
    (b.toInt ≠ 0 → ((div a b).toInt = (a.toInt.tdiv b.toInt).bmod (2 ^ 128) ↔
      (a.Mistaken ∨ b.Mistaken → a.toInt = b.toInt ∨ a.toInt.natAbs < 2 ^ 64))) ∧
    (b.toInt ≠ 0 → ((mod a b).toInt = a.toInt.tmod b.toInt ↔
      (a.Mistaken → b.toInt ∣ 2 ^ 128 - 2 ^ 65) ∧
        (b.Mistaken → a.Mistaken ∨ a.toInt.natAbs < 2 ^ 64))) ∧
    (a.uAbs.toNat = a.toInt.natAbs ↔ ¬ a.Mistaken) ∧
    (sar a n).toInt = a.toInt / 2 ^ n ∧
    a.ord b = compare a.toInt b.toInt ∧
    (a.lt b = true ↔ a.toInt < b.toInt) ∧ (a.le b = true ↔ a.toInt ≤ b.toInt) ∧
    (a.gt b = true ↔ a.toInt > b.toInt) ∧ (a.ge b = true ↔ a.toInt ≥ b.toInt) ∧
    (a.eq b = true ↔ a.toInt = b.toInt) ∧ (a.ne b = true ↔ a.toInt ≠ b.toInt) := by
  have ha := a.toInt_bounds
  have hb := b.toInt_bounds
  refine ⟨?_, fun h0 => ?_, fun h0 => ?_, ?_, sar_toInt a n, ord_eq a b, lt_iff a b, le_iff a b,
    gt_iff a b, ge_iff a b, eq_iff a b, ne_iff a b⟩
  · rw [mul_exact, mul_conditions]
  · rw [div_exact a h0, div_conditions a h0]
  · rw [← tmod_bmod a h0, mod_exact a h0, mod_conditions]
  · obtain ⟨hm, h, hu⟩ | ⟨hm, h, hu⟩ := uAbs_cases a <;> rw [hu] <;>
      simp only [hm, not_true, not_false_iff, iff_false]
    omega

theorem signed_exact_odd : (div (ofI64 (-7)) (ofI64 2)).toInt = -3 ∧
    (mod (ofI64 (-7)) (ofI64 2)).toInt = -1 ∧ (sar (ofI64 (-7)) 1).toInt = -4 := by
  have h := signed_exact (ofI64 (-7)) (ofI64 2) 1
  have ha : (ofI64 (-7)).toInt = -7 := by decide
  have hb : (ofI64 2).toInt = 2 := by decide
  have hm : ¬ (ofI64 (-7)).Mistaken := by
    unfold Mistaken
    rw [ha]
    decide
  have hm' : ¬ (ofI64 2).Mistaken := by
    unfold Mistaken
    rw [hb]
    decide
  rw [ha, hb] at h
  refine ⟨((h.2.1 (by decide)).mpr fun hc => absurd hc (by tauto)).trans (by decide), ?_, ?_⟩
  · exact ((h.2.2.1 (by decide)).mpr ⟨fun hc => absurd hc hm, fun hc => absurd hc hm'⟩).trans
      (by decide)
  · exact h.2.2.2.2.1.trans (by decide)

/-- The number under the special case, divided and multiplied by five. -/
theorem mistaken_wrong : ∃ a b : S128, b.toInt ≠ 0 ∧ a.uAbs.toNat ≠ a.toInt.natAbs ∧
    (mul a b).toInt ≠ (a.toInt * b.toInt).bmod (2 ^ 128) ∧
    (div a b).toInt ≠ (a.toInt.tdiv b.toInt).bmod (2 ^ 128) ∧
    (mod a b).toInt ≠ a.toInt.tmod b.toInt :=
  ⟨⟨0, BitVec.allOnes 64⟩, ofI64 5, by decide +kernel⟩

end S128

end Trustme.Numeric
