import Mathlib.Data.BitVec

/-! # Shift registers with feedback

    A register is shifted to the left by a bit in every cycle, and a function of
    its bits comes in on the right.  If that function is high when only the top
    bit is, the register never becomes zero, and then no bit of it stays low for
    longer than it is wide. -/

namespace Lfsr

variable {w : ℕ}

/-- `{x[w-1:0], f x}` -/
def shift (f : BitVec (w + 1) → Bool) (x : BitVec (w + 1)) : BitVec (w + 1) :=
  (x.extractLsb' 0 w).concat (f x)

section shift
variable {f : BitVec (w + 1) → Bool} {x : BitVec (w + 1)} {k : ℕ}

theorem getLsbD_shift_zero : (shift f x).getLsbD 0 = f x := by
  simp [shift]

theorem getLsbD_shift_succ (hk : k < w) : (shift f x).getLsbD (k + 1) = x.getLsbD k := by
  simp [shift, hk]

theorem exists_bit (hx : x ≠ 0) : ∃ k ≤ w, x.getLsbD k = true := by
  by_contra hlow
  apply hx
  apply BitVec.eq_of_getLsbD_eq
  intro k hk
  have hbit : ¬ x.getLsbD k = true := fun hb => hlow ⟨k, by omega, hb⟩
  simpa using hbit

/-- The bit that is shifted out comes back in. -/
theorem shift_ne_zero (hf : f (BitVec.twoPow (w + 1) w) = true) (hx : x ≠ 0) : shift f x ≠ 0 := by
  intro hzero
  have hbit : ∀ k < w, x.getLsbD k = false := by
    intro k hk
    rw [← getLsbD_shift_succ (f := f) hk, hzero]
    simp
  obtain ⟨k, hk, hhigh⟩ := exists_bit hx
  have hkw : k = w := by
    by_contra hne
    rw [hbit k (by omega)] at hhigh
    cases hhigh
  have htop : x = BitVec.twoPow (w + 1) w := by
    apply BitVec.eq_of_getLsbD_eq
    intro j hj
    rw [BitVec.getLsbD_twoPow]
    by_cases hjw : j = w
    · simp [hjw, ← hkw, hhigh]
    · rw [hbit j (by omega)]
      simp [Ne.symm hjw]
  have hin := getLsbD_shift_zero (f := f) (x := x)
  rw [hzero, htop, hf] at hin
  simp at hin

end shift

/-! ## Runs -/

section runs
variable {f : BitVec (w + 1) → Bool} {q : ℕ → BitVec (w + 1)} {s u k n : ℕ}

theorem run_ne_zero (hf : f (BitVec.twoPow (w + 1) w) = true)
    (hq : ∀ u, s ≤ u → q (u + 1) = shift f (q u)) (hs : q s ≠ 0) (hsu : s ≤ u) : q u ≠ 0 := by
  induction u, hsu using Nat.le_induction with
  | base => exact hs
  | succ u hsu ih =>
    rw [hq u hsu]
    exact shift_ne_zero hf ih

/-- A bit travels to the left. -/
theorem getLsbD_run (hq : ∀ u, s ≤ u → q (u + 1) = shift f (q u)) (hsu : s ≤ u) (hk : k + n ≤ w) :
    (q (u + n)).getLsbD (k + n) = (q u).getLsbD k := by
  induction n with
  | zero => rfl
  | succ n ih =>
    rw [← Nat.add_assoc, ← Nat.add_assoc, hq (u + n) (by omega), getLsbD_shift_succ (by omega),
      ih (by omega)]

/-- **Every bit is high again and again**: among `w + 1` cycles there is one. -/
theorem bit_recurs (hf : f (BitVec.twoPow (w + 1) w) = true)
    (hq : ∀ u, s ≤ u → q (u + 1) = shift f (q u)) (hs : q s ≠ 0) (hk : k ≤ w) (hsu : s ≤ u) :
    ∃ v, u ≤ v ∧ v ≤ u + w ∧ (q v).getLsbD k = true := by
  -- some bit is high when bit `k` of cycle `u` is about to be shifted out
  have hmid : s ≤ u + (w - k) := by omega
  obtain ⟨j, hj, hhigh⟩ := exists_bit (run_ne_zero hf hq hs hmid)
  rcases Nat.le_total j k with hjk | hkj
  · refine ⟨u + (w - k) + (k - j), by omega, by omega, ?_⟩
    have hmove := getLsbD_run (n := k - j) hq hmid (show j + (k - j) ≤ w by omega)
    rw [hhigh] at hmove
    rwa [Nat.add_sub_cancel' hjk] at hmove
  · refine ⟨u + (w - k) - (j - k), by omega, by omega, ?_⟩
    have hmove := getLsbD_run (u := u + (w - k) - (j - k)) (n := j - k) hq (by omega)
      (show k + (j - k) ≤ w by omega)
    rw [Nat.sub_add_cancel (by omega), Nat.add_sub_cancel' hkj, hhigh] at hmove
    exact hmove.symm

end runs

end Lfsr
