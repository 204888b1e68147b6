import Mathlib.Algebra.BigOperators.Fin
import Mathlib.Algebra.Order.BigOperators.Group.Finset
import Mathlib.Tactic.Ring

/-! # Prefix sums over `Fin N`

    The value a chain of `N` adders has accumulated after its first `q`
    stages, for any commutative monoid. -/

namespace PrefixSum

variable {N : ℕ} {M : Type _} [AddCommMonoid M]

/-- `f 0 + ... + f (q - 1)`. -/
def sumBelow (f : Fin N → M) (q : ℕ) : M := ∑ r : Fin N, if r.val < q then f r else 0

@[simp] theorem sumBelow_zero (f : Fin N → M) : sumBelow f 0 = 0 := by
  simp [sumBelow]

theorem sumBelow_succ (f : Fin N → M) (q : Fin N) :
    sumBelow f (q.val + 1) = sumBelow f q.val + f q := by
  have hsplit : ∀ r : Fin N, (if r.val < q.val + 1 then f r else 0) =
      (if r.val < q.val then f r else 0) + (if r = q then f r else 0) := by
    intro r
    rcases lt_trichotomy r.val q.val with h | h | h
    · have hne : r ≠ q := fun he => by omega
      simp [h, hne, Nat.lt_succ_of_lt h]
    · simp [Fin.ext h]
    · have hne : r ≠ q := fun he => by omega
      simp [hne, show ¬ r.val < q.val by omega, show ¬ r.val < q.val + 1 by omega]
  rw [sumBelow, sumBelow, Finset.sum_congr rfl (fun r _ => hsplit r), Finset.sum_add_distrib]
  simp

theorem sumBelow_all (f : Fin N → M) : sumBelow f N = ∑ r, f r := by
  simp [sumBelow]

theorem sumBelow_congr {f g : Fin N → M} {q : ℕ} (h : ∀ r : Fin N, r.val < q → f r = g r) :
    sumBelow f q = sumBelow g q := by
  apply Finset.sum_congr rfl
  intro r _
  by_cases hr : r.val < q <;> simp [hr, h]

/-- A sum of integers of size at most `B` stays within `q * B`. -/
theorem sumBelow_bounds {N : ℕ} {f : Fin N → ℤ} {B : ℤ} (h : ∀ r, |f r| ≤ B) (q : ℕ) (hq : q ≤ N) :
    |sumBelow f q| ≤ q * B := by
  induction q with
  | zero => simp
  | succ q ih =>
    have hprev := ih (by omega)
    have hterm := h ⟨q, hq⟩
    have hsum : sumBelow f (q + 1) = sumBelow f q + f ⟨q, hq⟩ := sumBelow_succ f ⟨q, hq⟩
    rw [hsum]
    calc |sumBelow f q + f ⟨q, hq⟩| ≤ |sumBelow f q| + |f ⟨q, hq⟩| := abs_add_le _ _
      _ ≤ q * B + B := add_le_add hprev hterm
      _ = ((q + 1 : ℕ) : ℤ) * B := by push_cast; ring

end PrefixSum
