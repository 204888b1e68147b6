import TensorAccel.Framework.Clocked

/-! # Budgets

    A bound on the time to an event, as a number read off the state that pays for
    every cycle that passes.  A machine that waits for a signal keeps the number
    until the signal comes, and then pays for the whole wait at once. -/

namespace Clocked

variable {s : ℕ}

/-- If from every cycle on the budget pays for the time to some later cycle, the event
comes before it is used up. -/
theorem budget_reaches (μ : ℕ → ℕ) {fin : ℕ → Prop}
    (hpay : ∀ u, s ≤ u → (∀ w, s ≤ w → w ≤ u → ¬ fin w) →
      ∃ v, u < v ∧ v - u ≤ μ u ∧ (fin v ∨ μ v + (v - u) ≤ μ u)) :
    ∃ t, s ≤ t ∧ t ≤ s + μ s ∧ fin t := by
  by_contra hnever
  have hlow : ∀ t, s ≤ t → t ≤ s + μ s → ¬ fin t := fun t hst hts hfin => hnever ⟨t, hst, hts, hfin⟩
  -- by induction on what is left of the budget
  have hrun : ∀ n u, μ u = n → s ≤ u → u + μ u ≤ s + μ s → False := by
    intro n
    induction n using Nat.strong_induction_on with
    | _ n ih =>
      intro u hn hsu hle
      obtain ⟨v, huv, hvu, hnext⟩ := hpay u hsu fun w hw hwu => hlow w hw (by omega)
      rcases hnext with hfin | hpaid
      · exact hlow v (by omega) (by omega) hfin
      · exact ih (μ v) (by omega) v rfl (by omega) (by omega)
  exact hrun (μ s) s rfl le_rfl le_rfl

/-- A wait for a signal that comes within `K` cycles, paid for when it comes. -/
theorem budget_waits (μ : ℕ → ℕ) (P : ℕ → Prop) (gate : ℕ → Bool) {K : ℕ} (hs : P s)
    (hkeep : ∀ u, s ≤ u → P u → gate u = false → P (u + 1) ∧ μ (u + 1) = μ u)
    (hgo : ∀ u, s ≤ u → P u → gate u = true → μ (u + 1) + K ≤ μ u)
    (hgate : ∃ v, s ≤ v ∧ v < s + K ∧ gate v = true) :
    ∃ v, s < v ∧ v - s ≤ μ s ∧ μ v + (v - s) ≤ μ s := by
  -- the wait as far as cycle `u`, or else it is over
  have hwait : ∀ n, (∃ v, s < v ∧ v ≤ s + n ∧ μ v + K ≤ μ s) ∨ (P (s + n) ∧ μ (s + n) = μ s) := by
    intro n
    induction n with
    | zero => exact .inr ⟨hs, rfl⟩
    | succ n ih =>
      rcases ih with ⟨v, hsv, hvn, hv⟩ | ⟨hP, hμ⟩
      · exact .inl ⟨v, hsv, by omega, hv⟩
      · cases hg : gate (s + n) with
        | false =>
          obtain ⟨hP', hμ'⟩ := hkeep (s + n) (by omega) hP hg
          exact .inr ⟨hP', hμ'.trans hμ⟩
        | true =>
          refine .inl ⟨s + n + 1, by omega, by omega, ?_⟩
          rw [← hμ]
          exact hgo (s + n) (by omega) hP hg
  obtain ⟨u, hsu, huK, hg⟩ := hgate
  obtain ⟨n, rfl⟩ := Nat.exists_eq_add_of_le hsu
  rcases hwait n with ⟨v, hsv, hvn, hv⟩ | ⟨hP, hμ⟩
  · exact ⟨v, hsv, by omega, by omega⟩
  · have hgone := hgo (s + n) hsu hP hg
    exact ⟨s + n + 1, by omega, by omega, by omega⟩

end Clocked
