import Mathlib.Data.Rat.Floor
import Mathlib.Tactic.Linarith
import Mathlib.Tactic.FieldSimp
import Mathlib.Tactic.Ring

/-! # Fixed-point rounding

    A rational rounded to an integer with ties to even, an integer scaled
    down by a power of two with a rounding term, and signed words whose
    arithmetic does not wrap. -/

namespace FixedPoint

/-! ## Ties to even -/

def roundHalfEven (q : ℚ) : ℤ :=
  if q - ⌊q⌋ < 1 / 2 then ⌊q⌋
  else if 1 / 2 < q - ⌊q⌋ then ⌊q⌋ + 1
  else if ⌊q⌋ % 2 = 0 then ⌊q⌋ else ⌊q⌋ + 1

/-- The two integers that rounding chooses between. -/
theorem roundHalfEven_cases (q : ℚ) :
    roundHalfEven q = ⌊q⌋ ∧ q - ⌊q⌋ ≤ 1 / 2 ∨ roundHalfEven q = ⌊q⌋ + 1 ∧ 1 / 2 ≤ q - ⌊q⌋ := by
  unfold roundHalfEven
  by_cases hlt : q - ⌊q⌋ < 1 / 2
  · left
    rw [if_pos hlt]
    exact ⟨rfl, hlt.le⟩
  rw [if_neg hlt]
  have hle : 1 / 2 ≤ q - ⌊q⌋ := not_lt.mp hlt
  by_cases hgt : 1 / 2 < q - ⌊q⌋
  · right
    rw [if_pos hgt]
    exact ⟨rfl, hle⟩
  rw [if_neg hgt]
  by_cases heven : ⌊q⌋ % 2 = 0
  · left
    rw [if_pos heven]
    exact ⟨rfl, not_lt.mp hgt⟩
  · right
    rw [if_neg heven]
    exact ⟨rfl, hle⟩

theorem abs_roundHalfEven_sub_le (q : ℚ) : |(roundHalfEven q : ℚ) - q| ≤ 1 / 2 := by
  have hfloor := Int.floor_le q
  have hnext := Int.lt_floor_add_one q
  rcases roundHalfEven_cases q with ⟨h, hle⟩ | ⟨h, hle⟩
  · rw [h, abs_le]
    constructor <;> linarith
  · rw [h, abs_le]
    push_cast
    constructor <;> linarith

/-- An integer bound survives the rounding. -/
theorem le_roundHalfEven {n : ℤ} {q : ℚ} (h : (n : ℚ) ≤ q) : n ≤ roundHalfEven q := by
  have hfloor : n ≤ ⌊q⌋ := Int.le_floor.mpr h
  rcases roundHalfEven_cases q with ⟨hr, _⟩ | ⟨hr, _⟩ <;> omega

theorem roundHalfEven_le {n : ℤ} {q : ℚ} (h : q ≤ n) : roundHalfEven q ≤ n := by
  have hfloor := Int.floor_le q
  rcases roundHalfEven_cases q with ⟨hr, _⟩ | ⟨hr, hle⟩
  · rw [hr]
    exact_mod_cast hfloor.trans h
  · -- the floor is strictly below `q`, hence below `n`
    have hlt : (⌊q⌋ : ℚ) < n := by linarith
    have hlt' : ⌊q⌋ < n := by exact_mod_cast hlt
    omega

/-! ## Scaling by a power of two -/

/-- Rounding term of a shift by `s`. -/
def half (s : ℕ) : ℤ := if 0 < s then 2 ^ (s - 1) else 0

def roundShift (x : ℤ) (s : ℕ) : ℤ := (x + half s) / 2 ^ s

@[simp] theorem half_zero : half 0 = 0 := rfl

theorem half_succ (s : ℕ) : half (s + 1) = 2 ^ s := by simp [half]

theorem half_nonneg (s : ℕ) : 0 ≤ half s := by
  unfold half
  split <;> positivity

theorem half_le {s b : ℕ} (h : s ≤ b + 1) : half s ≤ 2 ^ b := by
  unfold half
  split
  · exact pow_le_pow_right₀ (by norm_num) (by omega)
  · positivity

theorem roundShift_mono {x y : ℤ} (h : x ≤ y) (s : ℕ) : roundShift x s ≤ roundShift y s :=
  Int.ediv_le_ediv (by positivity) (by omega)

theorem abs_roundShift_sub_le (x : ℤ) (s : ℕ) : |(roundShift x s : ℚ) - x / 2 ^ s| ≤ 1 / 2 := by
  cases s with
  | zero => simp [roundShift]
  | succ s =>
    have hdiv : x + 2 ^ s = 2 ^ (s + 1) * roundShift x (s + 1) + (x + 2 ^ s) % 2 ^ (s + 1) := by
      rw [roundShift, half_succ, Int.mul_ediv_add_emod]
    have hnonneg : 0 ≤ (x + 2 ^ s) % 2 ^ (s + 1) := Int.emod_nonneg _ (by positivity)
    have hlt : (x + 2 ^ s) % 2 ^ (s + 1) < 2 ^ (s + 1) := Int.emod_lt_of_pos _ (by positivity)
    generalize (x + 2 ^ s) % 2 ^ (s + 1) = e at hdiv hnonneg hlt
    -- the remainder `e` less the rounding term is the error, in units of `2 ^ (s + 1)`
    have hpos : (0 : ℚ) < 2 ^ (s + 1) := by positivity
    have herr : (roundShift x (s + 1) : ℚ) - x / 2 ^ (s + 1) = (2 ^ s - e) / 2 ^ (s + 1) := by
      have hcast : (x : ℚ) + 2 ^ s = 2 ^ (s + 1) * roundShift x (s + 1) + e := by exact_mod_cast hdiv
      field_simp
      linarith
    have hnonneg' : (0 : ℚ) ≤ e := by exact_mod_cast hnonneg
    have hlt' : (e : ℚ) < 2 ^ (s + 1) := by exact_mod_cast hlt
    rw [herr, abs_div, abs_of_pos hpos, div_le_iff₀ hpos, abs_le]
    rw [pow_succ] at hlt' ⊢
    constructor <;> linarith

/-! ## Signed words -/

/-- `x` is a signed number of `w` bits. -/
def Fits (w : ℕ) (x : ℤ) : Prop := -2 ^ (w - 1) ≤ x ∧ x < 2 ^ (w - 1)

instance (w : ℕ) (x : ℤ) : Decidable (Fits w x) := inferInstanceAs (Decidable (_ ∧ _))

variable {w : ℕ}

theorem toInt_ofInt_of_fits (hw : 0 < w) {x : ℤ} (h : Fits w x) : (BitVec.ofInt w x).toInt = x :=
  BitVec.toInt_ofInt_eq_self hw h.1 h.2

theorem bmod_of_fits (hw : 0 < w) {x : ℤ} (h : Fits w x) : x.bmod (2 ^ w) = x := by
  rw [← BitVec.toInt_ofInt, toInt_ofInt_of_fits hw h]

theorem toInt_mul_of_fits (hw : 0 < w) {x y : BitVec w} (h : Fits w (x.toInt * y.toInt)) :
    (x * y).toInt = x.toInt * y.toInt := by
  rw [BitVec.toInt_mul, bmod_of_fits hw h]

theorem toInt_add_of_fits (hw : 0 < w) {x y : BitVec w} (h : Fits w (x.toInt + y.toInt)) :
    (x + y).toInt = x.toInt + y.toInt := by
  rw [BitVec.toInt_add, bmod_of_fits hw h]

/-- Words extended to `v` bits are multiplied modulo `2 ^ v`. -/
theorem signExtend_mul_signExtend (v : ℕ) {w' : ℕ} (x : BitVec w) (y : BitVec w') :
    x.signExtend v * y.signExtend v = BitVec.ofInt v (x.toInt * y.toInt) := by
  rw [BitVec.ofInt_mul]
  rfl

/-- `x` brought between `lo` and `hi`. -/
def clip (lo hi : ℤ) (x : BitVec w) : BitVec w :=
  if x.toInt < lo then BitVec.ofInt w lo else if hi < x.toInt then BitVec.ofInt w hi else x

theorem one_shiftLeft (w n : ℕ) : 1#w <<< n = BitVec.ofInt w (2 ^ n) := by
  apply BitVec.eq_of_toNat_eq
  rw [show (2 : ℤ) ^ n = ((2 ^ n : ℕ) : ℤ) by norm_cast, BitVec.ofInt_natCast, BitVec.toNat_shiftLeft,
    BitVec.toNat_ofNat, BitVec.toNat_ofNat, Nat.shiftLeft_eq, Nat.mod_mul_mod, Nat.one_mul]

/-- The arithmetic shift of a word is a floor division. -/
theorem toInt_sshiftRight_eq_div (x : BitVec w) (s : ℕ) : (x.sshiftRight s).toInt = x.toInt / 2 ^ s := by
  rw [BitVec.toInt_sshiftRight, Int.shiftRight_eq_div_pow]
  norm_cast

end FixedPoint
