import Mathlib.Tactic.Common
import Mathlib.Data.Nat.Notation

/-! # Delay lines

    A chain of `d` registers that is shifted by one sample per enabled cycle.
    `Hist l h lo j` says that after the samples `h 0, ..., h (j - 1)` the line
    holds the latest of them, the ones before sample `lo` left open: what a
    line held before it was first enabled is never mentioned. -/

namespace DelayLine

variable {α : Type _} {d : ℕ}

/-- The registers of a delay line of depth `d`, latest sample first. -/
abbrev Line (α : Type _) (d : ℕ) := Fin d → α

/-- The registers after a shift that takes in `x`. -/
def push (x : α) (l : Line α d) : Line α d
  | ⟨0, _⟩ => x
  | ⟨i + 1, h⟩ => l ⟨i, Nat.lt_of_succ_lt h⟩

/-- The output of the line: the last register, or the input itself at depth 0. -/
def out (x : α) : {d : ℕ} → Line α d → α
  | 0, _ => x
  | d + 1, l => l ⟨d, Nat.lt_succ_self d⟩

/-- After `j` samples of `h`, every register filled since sample `lo` is known. -/
def Hist (l : Line α d) (h : ℕ → α) (lo j : ℕ) : Prop :=
  ∀ k, lo + k.val < j → l k = h (j - 1 - k.val)

theorem hist_zero (l : Line α d) (h : ℕ → α) (lo : ℕ) : Hist l h lo 0 :=
  fun _ hk => absurd hk (by omega)

theorem Hist.push {l : Line α d} {h : ℕ → α} {lo j : ℕ} {x : α} (hl : Hist l h lo j)
    (hx : lo ≤ j → x = h j) : Hist (push x l) h lo (j + 1) := by
  rintro ⟨k, hk⟩ hlt
  cases k with
  | zero => exact hx (Nat.lt_succ_iff.mp hlt)
  | succ k =>
    have hprev := hl ⟨k, Nat.lt_of_succ_lt hk⟩ (by simp only at hlt ⊢; omega)
    have hindex : j + 1 - 1 - (k + 1) = j - 1 - k := by omega
    rw [hindex]
    exact hprev

/-- A line of depth `d` delays by `d` samples. -/
theorem Hist.out_eq {l : Line α d} {h : ℕ → α} {lo j : ℕ} {x : α} (hl : Hist l h lo j)
    (hx : x = h j) (hj : lo + d ≤ j) : out x l = h (j - d) := by
  cases d with
  | zero => exact hx
  | succ d =>
    have hlast := hl ⟨d, Nat.lt_succ_self d⟩ (by simp only; omega)
    have hindex : j - 1 - d = j - (d + 1) := by omega
    rw [← hindex]
    exact hlast

end DelayLine
