import Mathlib.Data.Nat.Notation
import Mathlib.Tactic.Common

/-! # Loops that may fail

    A loop over a list whose body is partial is `foldlM` in `Option`, or `mapM` when
    each element gives one result. -/

namespace Folds

variable {σ τ α β γ : Type _}

/-- Two loops over one list in lockstep: `R k` relates their states after `k` elements, and
the first returns where the second does. -/
theorem foldlM_sim {f : σ → α → Option σ} {g : τ → α → Option τ} {R : ℕ → σ → τ → Prop} {l : List α} {n : ℕ}
    {s : σ} {t t' : τ}
    (hstep : ∀ k s t t' a, a ∈ l → k < n + l.length → R k s t → g t a = some t' → ∃ s', f s a = some s' ∧ R (k + 1) s' t')
    (h : R n s t) (hg : l.foldlM g t = some t') : ∃ s', l.foldlM f s = some s' ∧ R (n + l.length) s' t' := by
  induction l generalizing n s t with
  | nil =>
    obtain rfl : t = t' := Option.some.inj hg
    exact ⟨s, rfl, h⟩
  | cons a l ih =>
    rw [List.foldlM_cons] at hg
    obtain ⟨t₁, hga, hg⟩ := Option.bind_eq_some_iff.mp hg
    rw [List.length_cons] at hstep
    obtain ⟨s₁, hfa, h₁⟩ := hstep n s t t₁ a List.mem_cons_self (by omega) h hga
    obtain ⟨s', hf, h'⟩ := ih (fun k s t t' x hx hk => hstep k s t t' x (List.mem_cons_of_mem a hx) (by omega)) h₁ hg
    refine ⟨s', ?_, ?_⟩
    · rw [List.foldlM_cons, hfa]
      exact hf
    · rw [List.length_cons, Nat.add_comm l.length, ← Nat.add_assoc]
      exact h'

/-- Values that went through `g` come back through `f`. -/
theorem mapM_some {f : β → Option γ} {g : α → β} {h : α → γ} {l : List α}
    (hf : ∀ x ∈ l, f (g x) = some (h x)) : (l.map g).mapM f = some (l.map h) := by
  induction l with
  | nil => rfl
  | cons x l ih =>
    rw [List.map_cons, List.mapM_cons, hf x List.mem_cons_self, ih fun y hy => hf y (List.mem_cons_of_mem x hy)]
    rfl

end Folds
