import Mathlib.Algebra.Order.Floor.Semifield
import TensorAccel.Framework.FixedPoint
import TensorAccel.Framework.NdArray

/-! # Requantization (`sched/mnist/quantize.py`)

    `quantize_multiplier` splits a real multiplier in a 31-bit integer `M0` and
    a binary exponent `shift`; `apply_requant` rescales an int32 accumulator
    by them in int64.  The multiplier is a rational here. -/

open FixedPoint

namespace Quantize

/-! ## quantize_multiplier -/

/-- The variables `m` and `shift` of the normalisation loops.  The multiplier
    given to `quantize_multiplier` is `m * 2 ** shift` throughout. -/
structure Scaled (m₀ : ℚ) where
  m : ℚ
  shift : ℤ
  pos : 0 < m
  value : m * 2 ^ shift = m₀

namespace Scaled

variable {m₀ : ℚ}

def start (h : 0 < m₀) : Scaled m₀ where
  m := m₀
  shift := 0
  pos := h
  value := by simp

/-- `m /= 2.0; shift += 1` -/
def halve (x : Scaled m₀) : Scaled m₀ where
  m := x.m / 2
  shift := x.shift + 1
  pos := half_pos x.pos
  value := by
    have hvalue := x.value
    rw [zpow_add_one₀ two_ne_zero]
    linarith

/-- `m *= 2.0; shift -= 1` -/
def double (x : Scaled m₀) : Scaled m₀ where
  m := x.m * 2
  shift := x.shift - 1
  pos := mul_pos x.pos two_pos
  value := by
    have hvalue := x.value
    rw [zpow_sub_one₀ two_ne_zero]
    linarith

@[simp] theorem halve_m (x : Scaled m₀) : x.halve.m = x.m / 2 := rfl
@[simp] theorem double_m (x : Scaled m₀) : x.double.m = x.m * 2 := rfl

theorem halve_decreases {x : Scaled m₀} (h : 1 ≤ x.m) : ⌊x.halve.m⌋₊ < ⌊x.m⌋₊ := by
  have hone : 1 ≤ ⌊x.m⌋₊ := Nat.le_floor (by exact_mod_cast h)
  have hhalf : ⌊x.halve.m⌋₊ = ⌊x.m⌋₊ / 2 := by
    simpa using Nat.floor_div_ofNat x.m 2
  omega

theorem double_decreases {x : Scaled m₀} (h : x.m < 1 / 2) : ⌊1 / x.double.m⌋₊ < ⌊1 / x.m⌋₊ := by
  have hbig : (1 : ℚ) ≤ 1 / x.m := by
    rw [le_div_iff₀ x.pos]
    linarith
  have hone : 1 ≤ ⌊1 / x.m⌋₊ := Nat.le_floor (by exact_mod_cast hbig)
  have hhalf : ⌊1 / x.double.m⌋₊ = ⌊1 / x.m⌋₊ / 2 := by
    rw [double_m, ← div_div]
    simpa using Nat.floor_div_ofNat (1 / x.m) 2
  omega

/-- `while m >= 1.0` -/
def halving (x : Scaled m₀) : Scaled m₀ :=
  if 1 ≤ x.m then halving x.halve else x
termination_by ⌊x.m⌋₊
decreasing_by exact halve_decreases ‹_›

/-- `while m < 0.5` -/
def doubling (x : Scaled m₀) : Scaled m₀ :=
  if x.m < 1 / 2 then doubling x.double else x
termination_by ⌊1 / x.m⌋₊
decreasing_by exact double_decreases ‹_›

theorem halving_lt (x : Scaled m₀) : x.halving.m < 1 := by
  induction x using halving.induct with
  | case1 x h ih =>
    rw [halving, if_pos h]
    exact ih
  | case2 x h =>
    rw [halving, if_neg h]
    exact not_le.mp h

theorem doubling_ge (x : Scaled m₀) : 1 / 2 ≤ x.doubling.m := by
  induction x using doubling.induct with
  | case1 x h ih =>
    rw [doubling, if_pos h]
    exact ih
  | case2 x h =>
    rw [doubling, if_neg h]
    exact not_lt.mp h

/-- The second loop keeps what the first has reached. -/
theorem doubling_lt (x : Scaled m₀) (hx : x.m < 1) : x.doubling.m < 1 := by
  induction x using doubling.induct with
  | case1 x h ih =>
    rw [doubling, if_pos h]
    apply ih
    rw [double_m]
    linarith
  | case2 x h =>
    rw [doubling, if_neg h]
    exact hx

/-- `int(round(m * (1 << 31)))` -/
def q (x : Scaled m₀) : ℤ := roundHalfEven (x.m * 2 ^ 31)

theorem q_bounds (x : Scaled m₀) (hge : 1 / 2 ≤ x.m) (hlt : x.m < 1) : 2 ^ 30 ≤ x.q ∧ x.q ≤ 2 ^ 31 := by
  constructor
  · apply le_roundHalfEven
    push_cast
    linarith
  · apply roundHalfEven_le
    push_cast
    linarith

theorem q_error (x : Scaled m₀) : |(x.q : ℚ) * 2 ^ (x.shift - 31) - m₀| ≤ 2 ^ (x.shift - 32) := by
  have hpos : (0 : ℚ) < 2 ^ (x.shift - 31) := zpow_pos two_pos _
  have hvalue : x.m * 2 ^ 31 * 2 ^ (x.shift - 31) = m₀ := by
    have hexp : (2 : ℚ) ^ 31 * 2 ^ (x.shift - 31) = 2 ^ x.shift := by
      rw [← zpow_natCast, ← zpow_add₀ two_ne_zero]
      norm_num
    rw [mul_assoc, hexp, x.value]
  have hulp : (2 : ℚ) ^ (x.shift - 32) = 1 / 2 * 2 ^ (x.shift - 31) := by
    rw [show x.shift - 32 = x.shift - 31 - 1 by ring, zpow_sub_one₀ two_ne_zero]
    ring
  have herr : (x.q : ℚ) * 2 ^ (x.shift - 31) - m₀ =
      (x.q - x.m * 2 ^ 31) * 2 ^ (x.shift - 31) := by
    rw [sub_mul, hvalue]
  rw [herr, hulp, abs_mul, abs_of_pos hpos]
  exact mul_le_mul_of_nonneg_right (abs_roundHalfEven_sub_le _) hpos.le

end Scaled

def quantizeMultiplier (m : ℚ) : ℤ × ℤ :=
  if h : 0 < m then
    let x := (Scaled.start h).halving.doubling
    if x.q = 2 ^ 31 then (x.q / 2, x.shift + 1) else (x.q, x.shift)
  else (0, 0)

/-- `M0` and `shift` represent the multiplier `m`. -/
structure Represents (M0 shift : ℤ) (m : ℚ) : Prop where
  lower : 2 ^ 30 ≤ M0
  upper : M0 < 2 ^ 31
  error : |(M0 : ℚ) * 2 ^ (shift - 31) - m| ≤ 2 ^ (shift - 32)

theorem quantizeMultiplier_represents {m : ℚ} (hm : 0 < m) :
    Represents (quantizeMultiplier m).1 (quantizeMultiplier m).2 m := by
  rw [quantizeMultiplier, dif_pos hm]
  generalize hx : (Scaled.start hm).halving = x
  have hlt : x.m < 1 := hx ▸ Scaled.halving_lt _
  have hbounds := x.doubling.q_bounds x.doubling_ge (x.doubling_lt hlt)
  have herror := x.doubling.q_error
  by_cases hq : x.doubling.q = 2 ^ 31
  · -- rounded up to `2 ^ 31`: one more halving is exact
    simp only [if_pos hq]
    rw [hq] at herror ⊢
    refine ⟨by norm_num, by norm_num, ?_⟩
    have hscale : ((2 ^ 31 / 2 : ℤ) : ℚ) * 2 ^ (x.doubling.shift + 1 - 31) =
        ((2 ^ 31 : ℤ) : ℚ) * 2 ^ (x.doubling.shift - 31) := by
      rw [show x.doubling.shift + 1 - 31 = x.doubling.shift - 31 + 1 by ring,
        zpow_add_one₀ two_ne_zero]
      norm_num
      ring
    rw [hscale]
    exact herror.trans (zpow_le_zpow_right₀ one_le_two (by omega))
  · simp only [if_neg hq]
    exact ⟨hbounds.1, lt_of_le_of_ne hbounds.2 hq, herror⟩

/-! ## apply_requant -/

/-- `np.int64(v)`, which raises on what does not fit. -/
def int64 (v : ℤ) : Option (BitVec 64) := if Fits 64 v then some (BitVec.ofInt 64 v) else none

/-- `half rs` is the rounding term `(1 << (rs - 1)) if rs > 0 else 0`, a Python
    integer that numpy takes as an int64. -/
def applyRequant (acc : NdArray (BitVec 32)) (M0 shift : ℤ) : Option (NdArray (BitVec 64)) := do
  let acc64 := acc.map (BitVec.signExtend 64)
  let M0 ← int64 M0
  let prod := acc64.map (· * M0)
  let rs := 31 - shift
  if 0 ≤ rs then
    let roundVal ← int64 (half rs.toNat)
    some (prod.map fun p => (p + roundVal).sshiftRight rs.toNat)
  else some (prod.map fun p : BitVec 64 => p <<< (-rs).toNat)

/-- What `apply_requant` does to one accumulator when `0 <= rs`. -/
def requant (M0 shift : ℤ) (acc : BitVec 32) : BitVec 64 :=
  (acc.signExtend 64 * BitVec.ofInt 64 M0 +
    BitVec.ofInt 64 (half (31 - shift).toNat)).sshiftRight (31 - shift).toNat

theorem fits_half {shift : ℤ} (hlo : -32 ≤ shift) : Fits 64 (half (31 - shift).toNat) := by
  have hnonneg := half_nonneg (31 - shift).toNat
  have hhalf : half (31 - shift).toNat ≤ 2 ^ 62 := half_le (by omega)
  constructor <;> norm_num at * <;> omega

theorem applyRequant_eq_map (acc : NdArray (BitVec 32)) {M0 shift : ℤ} (hM0 : Fits 64 M0) (hlo : -32 ≤ shift)
    (hhi : shift ≤ 31) : applyRequant acc M0 shift = some (acc.map (requant M0 shift)) := by
  have hrs : 0 ≤ 31 - shift := by omega
  simp only [applyRequant, int64, if_pos hM0, if_pos (fits_half hlo), if_pos hrs, NdArray.map,
    List.map_map, Option.bind_eq_bind, Option.bind_some]
  rfl

theorem shape_applyRequant {acc : NdArray (BitVec 32)} {M0 shift : ℤ} {out : NdArray (BitVec 64)}
    (h : applyRequant acc M0 shift = some out) : out.shape = acc.shape := by
  obtain ⟨m, -, hrest⟩ := Option.bind_eq_some_iff.mp h
  by_cases hrs : 0 ≤ 31 - shift
  · rw [if_pos hrs] at hrest
    obtain ⟨r, -, hout⟩ := Option.bind_eq_some_iff.mp hrest
    obtain rfl := Option.some.inj hout
    rfl
  · rw [if_neg hrs] at hrest
    obtain rfl := Option.some.inj hrest
    rfl

/-- Every intermediate of `apply_requant`, taken over the integers, is an int64. -/
structure NoOverflow (acc : BitVec 32) (M0 shift : ℤ) : Prop where
  multiplier : Fits 64 M0
  prod : Fits 64 (acc.toInt * M0)
  roundVal : Fits 64 (half (31 - shift).toNat)
  sum : Fits 64 (acc.toInt * M0 + half (31 - shift).toNat)

/-- The product of int64s is the one over the integers. -/
theorem NoOverflow.toInt_prod {acc : BitVec 32} {M0 shift : ℤ} (h : NoOverflow acc M0 shift) :
    (acc.signExtend 64 * BitVec.ofInt 64 M0).toInt = acc.toInt * M0 := by
  have hext : (acc.signExtend 64).toInt = acc.toInt := BitVec.toInt_signExtend_of_le (by decide)
  have hval := toInt_ofInt_of_fits (by decide) h.multiplier
  have hprod := h.prod
  rw [← hext, ← hval] at hprod
  rw [toInt_mul_of_fits (by decide) hprod, hext, hval]

/-- An int32 times a 31-bit number stays within a quarter of the int64 range. -/
theorem abs_prod_le (acc : BitVec 32) {M0 : ℤ} (h0 : 0 ≤ M0) (h : M0 < 2 ^ 31) :
    |acc.toInt * M0| ≤ 2 ^ 62 - 2 ^ 31 := by
  have hacc : |acc.toInt| ≤ 2 ^ 31 := by
    have hlo := BitVec.le_toInt acc
    have hhi := @BitVec.toInt_lt 32 acc
    rw [abs_le]
    omega
  calc |acc.toInt * M0| = |acc.toInt| * M0 := by rw [abs_mul, abs_of_nonneg h0]
    _ ≤ 2 ^ 31 * (2 ^ 31 - 1) := mul_le_mul hacc (by omega) h0 (by norm_num)
    _ = 2 ^ 62 - 2 ^ 31 := by norm_num

section Range

variable (acc : BitVec 32) {M0 shift : ℤ} (h0 : 0 ≤ M0) (h : M0 < 2 ^ 31) (hlo : -32 ≤ shift)

include h0 h hlo in
theorem noOverflow : NoOverflow acc M0 shift := by
  have hprod := abs_le.mp (abs_prod_le acc h0 h)
  have hnonneg := half_nonneg (31 - shift).toNat
  have hhalf : half (31 - shift).toNat ≤ 2 ^ 62 := half_le (by omega)
  refine ⟨⟨?_, ?_⟩, ⟨?_, ?_⟩, fits_half hlo, ⟨?_, ?_⟩⟩ <;> norm_num at * <;> omega

include h0 h hlo in
/-- The int64 computation is the one over the integers. -/
theorem toInt_requant : (requant M0 shift acc).toInt = roundShift (acc.toInt * M0) (31 - shift).toNat := by
  have hover := noOverflow acc h0 h hlo
  have hmul := hover.toInt_prod
  have hval := toInt_ofInt_of_fits (by decide) hover.roundVal
  have hadd : (acc.signExtend 64 * BitVec.ofInt 64 M0 +
      BitVec.ofInt 64 (half (31 - shift).toNat)).toInt =
        acc.toInt * M0 + half (31 - shift).toNat := by
    have hsum := hover.sum
    rw [← hmul, ← hval] at hsum
    rw [toInt_add_of_fits (by decide) hsum, hmul, hval]
  rw [requant, toInt_sshiftRight_eq_div, hadd, roundShift]

end Range

theorem requant_mono {M0 shift : ℤ} (h0 : 0 ≤ M0) (h : M0 < 2 ^ 31) (hlo : -32 ≤ shift) {a b : BitVec 32}
    (hab : a.toInt ≤ b.toInt) : (requant M0 shift a).toInt ≤ (requant M0 shift b).toInt := by
  rw [toInt_requant a h0 h hlo, toInt_requant b h0 h hlo]
  exact roundShift_mono (mul_le_mul_of_nonneg_right hab h0) _

/-- Half a unit from the rounding of the product, the rest from the rounding
    of the multiplier. -/
theorem requant_error {M0 shift : ℤ} {m : ℚ} (hrep : Represents M0 shift m) (hhi : shift ≤ 31) (acc : ℤ) :
    |(roundShift (acc * M0) (31 - shift).toNat : ℚ) - acc * m| ≤ 1 / 2 + |(acc : ℚ)| * 2 ^ (shift - 32) := by
  have hround := abs_roundShift_sub_le (acc * M0) (31 - shift).toNat
  have hscale : ((acc * M0 : ℤ) : ℚ) / 2 ^ (31 - shift).toNat = acc * (M0 * 2 ^ (shift - 31)) := by
    have hexp : ((31 - shift).toNat : ℤ) = -(shift - 31) := by omega
    rw [← zpow_natCast, hexp, zpow_neg, div_inv_eq_mul]
    push_cast
    ring
  rw [hscale] at hround
  calc |(roundShift (acc * M0) (31 - shift).toNat : ℚ) - acc * m|
      ≤ |(roundShift (acc * M0) (31 - shift).toNat : ℚ) - acc * (M0 * 2 ^ (shift - 31))| +
          |acc * (M0 * 2 ^ (shift - 31)) - acc * m| := abs_sub_le _ _ _
    _ ≤ 1 / 2 + |(acc : ℚ)| * 2 ^ (shift - 32) := by
        apply add_le_add hround
        rw [← mul_sub, abs_mul]
        exact mul_le_mul_of_nonneg_left hrep.error (abs_nonneg _)

/-- The loops end, for every positive multiplier, in an `M0` of exactly 31 bits
    within half a unit of its last place.  While the exponent is in range,
    rescaling by the pair is one function of the accumulator, computed without
    overflow, monotone, and close to the real product. -/
theorem quantize_then_requant {m : ℚ} (hm : 0 < m) {M0 shift : ℤ}
    (hq : quantizeMultiplier m = (M0, shift)) :
    Represents M0 shift m ∧
    (-32 ≤ shift → shift ≤ 31 → ∃ f : BitVec 32 → BitVec 64,
      (∀ acc : NdArray (BitVec 32), applyRequant acc M0 shift = some (acc.map f)) ∧
      (∀ acc : BitVec 32, NoOverflow acc M0 shift ∧
        |((f acc).toInt : ℚ) - acc.toInt * m| ≤ 1 / 2 + |(acc.toInt : ℚ)| * 2 ^ (shift - 32)) ∧
      (∀ a b : BitVec 32, a.toInt ≤ b.toInt → (f a).toInt ≤ (f b).toInt)) := by
  have hrep := quantizeMultiplier_represents hm
  rw [hq] at hrep
  have h0 : 0 ≤ M0 := le_trans (by norm_num) hrep.lower
  refine ⟨hrep, fun hlo hhi => ⟨requant M0 shift, ?_, fun acc => ⟨?_, ?_⟩, ?_⟩⟩
  · intro acc
    exact applyRequant_eq_map acc (noOverflow 0 h0 hrep.upper hlo).multiplier hlo hhi
  · exact noOverflow acc h0 hrep.upper hlo
  · rw [toInt_requant acc h0 hrep.upper hlo]
    exact requant_error hrep hhi acc.toInt
  · intro a b hab
    exact requant_mono h0 hrep.upper hlo hab

/-- `m = 3`: two halvings, `M0 = 3 * 2 ** 29`. -/
theorem quantize_then_requant_three :
    quantizeMultiplier 3 = (1610612736, 2) ∧ Represents 1610612736 2 3 ∧
      ∃ f : BitVec 32 → BitVec 64, ∀ acc : NdArray (BitVec 32), applyRequant acc 1610612736 2 = some (acc.map f) := by
  have hq : quantizeMultiplier 3 = (1610612736, 2) := by
    have hloops : (Scaled.start (show (0 : ℚ) < 3 by norm_num)).halving.doubling =
        (Scaled.start (show (0 : ℚ) < 3 by norm_num)).halve.halve := by
      rw [Scaled.halving, if_pos (by norm_num [Scaled.start]), Scaled.halving,
        if_pos (by norm_num [Scaled.start]), Scaled.halving, if_neg (by norm_num [Scaled.start]),
        Scaled.doubling, if_neg (by norm_num [Scaled.start])]
    rw [quantizeMultiplier, dif_pos (by norm_num)]
    simp only [hloops]
    norm_num [Scaled.start, Scaled.halve, Scaled.q, roundHalfEven]
  obtain ⟨hrep, hrange⟩ := quantize_then_requant (by norm_num) hq
  obtain ⟨f, hf, -⟩ := hrange (by norm_num) (by norm_num)
  exact ⟨hq, hrep, f, hf⟩

end Quantize
