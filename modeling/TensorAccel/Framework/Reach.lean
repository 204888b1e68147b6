import Mathlib.Data.Nat.Notation
import Mathlib.Data.Option.Basic

/-! # Action systems

    A system takes one action at a time; an action that is not enabled yields
    `none`.  Reachability is relative to a guard `ok` on the steps taken, so
    that "in every run" and "in every run whose steps all meet `ok`" are the
    same notion.  Nothing here depends on a particular system. -/

namespace ActionSystem

variable {Act S : Type _}

/-- The states reached from `init` by steps that meet `ok`. -/
inductive Reach (step : Act → S → Option S) (ok : Act → S → Bool) (init : S → Prop) : S → Prop
  | start {s : S} (h : init s) : Reach step ok init s
  | next {a : Act} {s s' : S} (h : Reach step ok init s) (hok : ok a s = true)
      (hstep : step a s = some s') : Reach step ok init s'

/-- The guard that lets every step pass. -/
def always (_ : Act) (_ : S) : Bool := true

variable {step : Act → S → Option S} {ok : Act → S → Bool} {init : S → Prop} {s s' : S}

/-- **Invariance**: what holds initially and is kept by every step that meets
the guard holds of every state reached. -/
theorem Reach.invariant {I : S → Prop} (h : Reach step ok init s) (hinit : ∀ s, init s → I s)
    (hkeep : ∀ a s s', I s → ok a s = true → step a s = some s' → I s') : I s := by
  induction h with
  | start h => exact hinit _ h
  | next _ hok hstep ih => exact hkeep _ _ _ ih hok hstep

/-- **Progress**: if from every state reached where `P` fails some step lowers the measure,
a state with `P` is reached. -/
theorem Reach.progress {P : S → Prop} (h : Reach step ok init s) (μ : S → ℕ)
    (hlower : ∀ u, Reach step ok init u →
      P u ∨ ∃ a u', ok a u = true ∧ step a u = some u' ∧ μ u' < μ u) :
    ∃ u, Reach step ok init u ∧ P u := by
  induction hμ : μ s using Nat.strongRecOn generalizing s with
  | ind n ih =>
    rcases hlower s h with hP | ⟨a, u, hok, hstep, hlt⟩
    · exact ⟨s, h, hP⟩
    · exact ih (μ u) (hμ ▸ hlt) (h.next hok hstep) rfl

/-- Take the listed actions in order, as long as each is enabled and meets `ok`. -/
def exec (step : Act → S → Option S) (ok : Act → S → Bool) : List Act → S → Option S
  | [], s => some s
  | a :: as, s => if ok a s then (step a s).bind (exec step ok as) else none

theorem Reach.exec {as : List Act} (h : Reach step ok init s)
    (hexec : exec step ok as s = some s') : Reach step ok init s' := by
  induction as generalizing s with
  | nil =>
    obtain rfl := Option.some.inj hexec
    exact h
  | cons a as ih =>
    unfold ActionSystem.exec at hexec
    split at hexec
    · next hok =>
      obtain ⟨u, hstep, hrest⟩ := Option.bind_eq_some_iff.mp hexec
      exact ih (h.next hok hstep) hrest
    · cases hexec

/-- Take the actions that `turn` names until it names none, at most `n` of them. -/
def drive (step : Act → S → Option S) (turn : S → Option Act) : ℕ → S → Option S
  | 0, s => if (turn s).isNone then some s else none
  | n + 1, s =>
    match turn s with
    | none => some s
    | some a => (step a s).bind (drive step turn n)

/-- Where every action that `turn` names is enabled, meets the guard and lowers the measure,
as many actions as the measure says are enough. -/
theorem Reach.drive {turn : S → Option Act} (h : Reach step ok init s) (μ : S → ℕ)
    (hturn : ∀ u a, Reach step ok init u → turn u = some a →
      ok a u = true ∧ ∃ u', step a u = some u' ∧ μ u' < μ u) {n : ℕ} (hn : μ s ≤ n) :
    ∃ u, drive step turn n s = some u ∧ Reach step ok init u ∧ turn u = none := by
  induction n generalizing s with
  | zero =>
    cases hs : turn s with
    | none => exact ⟨s, by simp [ActionSystem.drive, hs], h, hs⟩
    | some a =>
      obtain ⟨-, u', -, hlt⟩ := hturn s a h hs
      exact absurd (Nat.lt_of_lt_of_le hlt hn) (Nat.not_lt_zero _)
  | succ n ih =>
    cases hs : turn s with
    | none => exact ⟨s, by simp [ActionSystem.drive, hs], h, hs⟩
    | some a =>
      obtain ⟨hok, u', hstep, hlt⟩ := hturn s a h hs
      obtain ⟨u, hdrive, hreach, hend⟩ := ih (h.next hok hstep) (Nat.le_of_lt_succ (Nat.lt_of_lt_of_le hlt hn))
      refine ⟨u, ?_, hreach, hend⟩
      simp only [ActionSystem.drive, hs, hstep, Option.bind_some]
      exact hdrive

end ActionSystem
