import TensorAccel.Driver.CoprocDriver
import TensorAccel.Framework.Tiling

/-! # Tiles

    What the loops of the driver over `C` leave in it, and what a product row
    over packed operands adds up to.  A tile row is the partial dot product
    over four values of `k`; the padding contributes zeros. -/

open StreamCtrl Span Tiling Finset

namespace CoprocDriver

namespace Problem

variable (p : Problem)

/-! ## Schedule -/

theorem le_nKt_tiles : p.K ≤ p.nKt * 4 := by
  unfold nKt
  omega

theorem div_lt_nNt {n : ℕ} (h : n < p.N) : n / 4 < p.nNt := by
  unfold nNt
  omega

theorem nKt_pos {i : ℕ} (h : i < p.total) : 0 < p.nKt := by
  rcases Nat.eq_zero_or_pos p.nKt with hz | hpos
  · simp [total, hz] at h
  · exact hpos

theorem mc_le (m0 : ℕ) : p.mc m0 ≤ 1024 := by
  unfold mc
  split <;> omega

/-- The rows of a chunk. -/
theorem lt_mc {m m0 : ℕ} (hm : m < p.M) (hle : m0 ≤ m) (hlt : m < m0 + 1024) : m - m0 < p.mc m0 := by
  unfold mc
  split <;> omega

/-! ## Loops over `C` -/

theorem zeroRows_row (C : ℕ → BitVec 32) {m0 m n : ℕ} (hn : n < p.N) (hle : m0 ≤ m)
    (hlt : m - m0 < p.mc m0) : p.zeroRows m0 C (m * p.N + n) = 0 := by
  apply forLoop_hit (F := fun _ => 0) C hn
  · intro f
    apply forLoop_hit (F := fun _ => 0) f hlt
    · intro g
      rw [Nat.add_sub_cancel' hle, Function.update_self]
    · intro j _ hne g
      apply Function.update_of_ne
      rw [Ne, flat_inj hn hn]
      omega
  · -- another column
    intro c hc hne f
    apply forLoop_keep
    intro j _ g
    apply Function.update_of_ne
    rw [Ne, flat_inj hn hc]
    omega

theorem zeroRows_above (C : ℕ → BitVec 32) {m0 m n : ℕ} (hn : n < p.N) (h : m < m0) :
    p.zeroRows m0 C (m * p.N + n) = C (m * p.N + n) := by
  apply forLoop_keep
  intro c hc f
  apply forLoop_keep
  intro j _ g
  apply Function.update_of_ne
  rw [Ne, flat_inj hn hc]
  omega

/-- Entries of column block `nt` grow by the entry of the result tile. -/
theorem accumulate_block (ct : ℕ → BitVec 32) (C : ℕ → BitVec 32) {m0 m n : ℕ} (hn : n < p.N)
    (hle : m0 ≤ m) (hlt : m - m0 < p.mc m0) :
    p.accumulate m0 (n / 4) ct C (m * p.N + n) =
      C (m * p.N + n) + ct ((m - m0) * 4 + n % 4) := by
  have hcol : n / 4 * 4 + n % 4 = n := Nat.div_add_mod' n 4
  apply forLoop_hit (F := fun x => x + ct ((m - m0) * 4 + n % 4)) C hlt
  · intro f
    apply forLoop_hit (F := fun x => x + ct ((m - m0) * 4 + n % 4)) f (Nat.mod_lt n (by decide))
    · intro g
      simp only [hcol, hn, if_true, Nat.add_sub_cancel' hle, Function.update_self]
    · intro j hj hne g
      apply update_if_of_ne
      intro hin
      rw [Ne, flat_inj hn hin]
      omega
  · -- another row
    intro i _ hne f
    apply forLoop_keep
    intro j _ g
    apply update_if_of_ne
    intro hin
    rw [Ne, flat_inj hn hin]
    omega

theorem accumulate_keep (ct : ℕ → BitVec 32) (C : ℕ → BitVec 32) {m0 m n nt : ℕ} (hn : n < p.N)
    (h : n / 4 ≠ nt ∨ m < m0) :
    p.accumulate m0 nt ct C (m * p.N + n) = C (m * p.N + n) := by
  apply forLoop_keep
  intro i _ f
  apply forLoop_keep
  intro j hj g
  apply update_if_of_ne
  intro hin
  rw [Ne, flat_inj hn hin]
  omega

/-! ## Products -/

/-- The products that entry `(m, n)` of `A @ W` adds up. -/
def term (m n k : ℕ) : ℤ := (p.a (m * p.K + k)).toInt * (p.w (k * p.N + n)).toInt

/-- Their sum over the first `t` tiles of `K`. -/
def partialDot (m n t : ℕ) : ℤ :=
  ∑ kt ∈ range t, ∑ j ∈ range 4, if kt * 4 + j < p.K then p.term m n (kt * 4 + j) else 0

@[simp] theorem partialDot_zero (m n : ℕ) : p.partialDot m n 0 = 0 := by simp [partialDot]

/-- All tiles together give the entry of the product. -/
theorem partialDot_all (m n : ℕ) : p.partialDot m n p.nKt = ∑ k ∈ range p.K, p.term m n k :=
  sum_padded_tiles (p.term m n) p.le_nKt_tiles

/-- Row `k` of the result of tile `i`. -/
def tileRow (m0 i k : ℕ) : Lanes32 4 :=
  productRow (fun r c => p.packWtile (i % p.nKt) (i / p.nKt) r c)
    (fun j => p.packAtile m0 (i % p.nKt) k j)

/-- A tile row adds the next tile to the partial dot products of its columns. -/
theorem partialDot_succ {m0 m n i : ℕ} (hm : m < p.M) (hn : n < p.N) (hle : m0 ≤ m)
    (hnt : i / p.nKt = n / 4) :
    BitVec.ofInt 32 (p.partialDot m n (i % p.nKt + 1)) =
      BitVec.ofInt 32 (p.partialDot m n (i % p.nKt)) + p.tileRow m0 i (m - m0) (Fin.ofNat 4 (n % 4)) := by
  have hcol : n / 4 * 4 + n % 4 = n := Nat.div_add_mod' n 4
  have hlane : (Fin.ofNat 4 (n % 4) : Fin 4).val = n % 4 := by simp
  unfold partialDot
  rw [sum_range_succ, BitVec.ofInt_add]
  congr 1
  unfold tileRow productRow
  dsimp only
  rw [hlane, ← Fin.sum_univ_eq_sum_range
    (fun j => if i % p.nKt * 4 + j < p.K then p.term m n (i % p.nKt * 4 + j) else 0) 4]
  congr 1
  apply Finset.sum_congr rfl
  intro j _
  -- both operands of a padded term are zero
  unfold packAtile packWtile term
  simp only [hnt, hcol, Nat.add_sub_cancel' hle]
  by_cases hk : i % p.nKt * 4 + j.val < p.K
  · simp [hk, hm, hn]
  · simp [hk]

end Problem

end CoprocDriver
