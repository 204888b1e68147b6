import Mathlib.Algebra.BigOperators.Group.Finset.Basic
import Mathlib.Algebra.BigOperators.Intervals
import Mathlib.Tactic.Ring

/-! # Tiled sums

    A sum of `K` terms taken in tiles of `T`, the last one padded with zeros,
    and a schedule that visits blocks of `n` tiles one block after another. -/

namespace Tiling

variable {M : Type _} [AddCommMonoid M]

/-! ## Padding -/

theorem sum_tiles (f : ℕ → M) (T n : ℕ) :
    ∑ t ∈ Finset.range n, ∑ j ∈ Finset.range T, f (t * T + j) = ∑ k ∈ Finset.range (n * T), f k := by
  induction n with
  | zero => simp
  | succ n ih => rw [Finset.sum_range_succ, ih, Nat.succ_mul, Finset.sum_range_add]

/-- Terms past `K` are zero. -/
theorem sum_padded (f : ℕ → M) {K n : ℕ} (h : K ≤ n) :
    ∑ k ∈ Finset.range n, (if k < K then f k else 0) = ∑ k ∈ Finset.range K, f k := by
  obtain ⟨d, rfl⟩ := Nat.exists_eq_add_of_le h
  rw [Finset.sum_range_add]
  have hbelow : ∑ k ∈ Finset.range K, (if k < K then f k else 0) = ∑ k ∈ Finset.range K, f k := by
    apply Finset.sum_congr rfl
    intro k hk
    rw [if_pos (Finset.mem_range.mp hk)]
  have hpad : ∑ k ∈ Finset.range d, (if K + k < K then f (K + k) else 0) = 0 := by
    apply Finset.sum_eq_zero
    intro k _
    rw [if_neg (by omega)]
  rw [hbelow, hpad, add_zero]

theorem sum_padded_tiles (f : ℕ → M) {K T n : ℕ} (h : K ≤ n * T) :
    ∑ t ∈ Finset.range n, ∑ j ∈ Finset.range T, (if t * T + j < K then f (t * T + j) else 0) =
      ∑ k ∈ Finset.range K, f k := by
  rw [sum_tiles (fun k => if k < K then f k else 0), sum_padded f h]

/-! ## Blocks -/

/-- Tiles of block `b` among the first `t` tiles of the schedule. -/
def tilesOf (n b t : ℕ) : ℕ := min n (t - b * n)

@[simp] theorem tilesOf_zero (n b : ℕ) : tilesOf n b 0 = 0 := by simp [tilesOf]

/-- Tile `t` belongs to block `t / n`, where it is number `t % n`. -/
theorem tilesOf_div {n : ℕ} (hn : 0 < n) (t : ℕ) : tilesOf n (t / n) t = t % n := by
  unfold tilesOf
  have hmod := Nat.mod_lt t hn
  have hdiv := Nat.div_add_mod' t n
  omega

theorem tilesOf_succ {n : ℕ} (hn : 0 < n) (b t : ℕ) :
    tilesOf n b (t + 1) = tilesOf n b t + if t / n = b then 1 else 0 := by
  unfold tilesOf
  have hmod := Nat.mod_lt t hn
  have hdiv := Nat.div_add_mod' t n
  rcases lt_trichotomy (t / n) b with h | h | h
  · -- the block has not begun
    have hle : (t / n + 1) * n ≤ b * n := Nat.mul_le_mul_right n h
    rw [Nat.succ_mul] at hle
    rw [if_neg (by omega)]
    omega
  · subst h
    rw [if_pos rfl]
    omega
  · -- the block is complete
    have hle : (b + 1) * n ≤ t / n * n := Nat.mul_le_mul_right n h
    rw [Nat.succ_mul] at hle
    rw [if_neg (by omega)]
    omega

theorem tilesOf_all {n b c : ℕ} (h : b < c) : tilesOf n b (c * n) = n := by
  unfold tilesOf
  have hle : (b + 1) * n ≤ c * n := Nat.mul_le_mul_right n h
  rw [Nat.succ_mul] at hle
  omega

end Tiling
