import Mathlib.Logic.Function.Basic
import Mathlib.Tactic.Common

/-! # Counted loops over memory

    A memory is a function from locations.  The lemmas say what a counted loop
    leaves at one location when at most one iteration touches it; a span of
    consecutive stores is such a loop.  Words are stored as little-endian
    bytes. -/

namespace Span

variable {σ L β : Type _}

/-! ## Loops -/

/-- `for (k = 0; k < n; k++) body(k)`. -/
def forLoop (body : ℕ → σ → σ) : ℕ → σ → σ
  | 0, s => s
  | n + 1, s => body n (forLoop body n s)

theorem forLoop_add (body : ℕ → σ → σ) (m n : ℕ) (s : σ) :
    forLoop body (m + n) s = forLoop (fun k => body (m + k)) n (forLoop body m s) := by
  induction n with
  | zero => rfl
  | succ n ih => rw [← Nat.add_assoc, forLoop, ih, forLoop]

/-- Two nested loops over the rows and columns of a row-major array. -/
theorem forLoop_nest (body : ℕ → σ → σ) (m n : ℕ) (s : σ) :
    forLoop (fun i => forLoop (fun j => body (i * n + j)) n) m s = forLoop body (m * n) s := by
  induction m with
  | zero => rw [Nat.zero_mul]; rfl
  | succ m ih => rw [forLoop, ih, Nat.succ_mul, forLoop_add]

section loops
variable {body : ℕ → (L → β) → L → β} {n k : ℕ} {l : L}

/-- No iteration touches `l`. -/
theorem forLoop_keep (mem : L → β) (h : ∀ j < n, ∀ f, body j f l = f l) :
    forLoop body n mem l = mem l := by
  induction n with
  | zero => rfl
  | succ n ih =>
    unfold forLoop
    rw [h n (Nat.lt_succ_self n)]
    exact ih fun j hj => h j (Nat.lt_succ_of_lt hj)

/-- Iteration `k` applies `F` at `l`, and no other iteration touches it. -/
theorem forLoop_hit {F : β → β} (mem : L → β) (hk : k < n) (hthis : ∀ f, body k f l = F (f l))
    (hother : ∀ j < n, j ≠ k → ∀ f, body j f l = f l) : forLoop body n mem l = F (mem l) := by
  induction n with
  | zero => exact absurd hk (Nat.not_lt_zero k)
  | succ n ih =>
    unfold forLoop
    rcases Nat.lt_succ_iff_lt_or_eq.mp hk with hlt | rfl
    · rw [hother n (Nat.lt_succ_self n) (by omega)]
      exact ih hlt fun j hj => hother j (Nat.lt_succ_of_lt hj)
    · -- the earlier iterations leave `l` as it was
      rw [hthis, forLoop_keep mem fun j hj => hother j (Nat.lt_succ_of_lt hj) (by omega)]

/-- A guarded store leaves the other locations alone. -/
theorem update_if_of_ne [DecidableEq L] {P : Prop} [Decidable P] {i : L} {v : β} (f : L → β)
    (h : P → l ≠ i) : (if P then Function.update f i v else f) l = f l := by
  by_cases hP : P
  · rw [if_pos hP, Function.update_of_ne (h hP)]
  · rw [if_neg hP]

end loops

/-! ## Spans -/

section spans
variable [DecidableEq L] {loc : ℕ → L} {f : ℕ → β} {n k : ℕ} {l : L}

/-- Store `f 0, ..., f (n - 1)` at `loc 0, ..., loc (n - 1)`. -/
def writeSpan (loc : ℕ → L) (f : ℕ → β) (n : ℕ) : (L → β) → L → β :=
  forLoop (fun k mem => Function.update mem (loc k) (f k)) n

theorem writeSpan_frame (mem : L → β) (h : ∀ k < n, loc k ≠ l) :
    writeSpan loc f n mem l = mem l := by
  apply forLoop_keep
  intro k hk g
  exact Function.update_of_ne (h k hk).symm _ _

theorem writeSpan_read (mem : L → β) (hinj : ∀ j < n, loc j = loc k → j = k) (hk : k < n) :
    writeSpan loc f n mem (loc k) = f k := by
  apply forLoop_hit (F := fun _ => f k) mem hk
  · intro g
    exact Function.update_self _ _ _
  · intro j hj hne g
    exact Function.update_of_ne (fun heq => hne (hinj j hj heq.symm)) _ _

end spans

/-! ## Little-endian words -/

/-- The word stored as bytes `b 0, b 1, b 2, b 3`. -/
def word32 (b : ℕ → BitVec 8) : BitVec 32 := b 3 ++ b 2 ++ b 1 ++ b 0

def byteOf (w : BitVec 32) (k : ℕ) : BitVec 8 := w.extractLsb' (8 * k) 8

theorem word32_byteOf (w : BitVec 32) : word32 (byteOf w) = w := by
  apply BitVec.eq_of_getLsbD_eq
  intro k hk
  unfold word32 byteOf
  simp only [BitVec.getLsbD_append, BitVec.getLsbD_extractLsb']
  -- the byte that holds bit `k`
  have hbyte : k < 8 ∨ (8 ≤ k ∧ k < 16) ∨ (16 ≤ k ∧ k < 24) ∨ 24 ≤ k := by omega
  rcases hbyte with h | ⟨h, h'⟩ | ⟨h, h'⟩ | h
  · simp [h]
  · simp [show ¬ k < 8 by omega, show k - 8 < 8 by omega, show 8 + (k - 8) = k by omega]
  · simp [show ¬ k < 8 by omega, show ¬ k - 8 < 8 by omega, show k - 8 - 8 < 8 by omega,
      show 16 + (k - 8 - 8) = k by omega]
  · simp [show ¬ k < 8 by omega, show ¬ k - 8 < 8 by omega, show ¬ k - 8 - 8 < 8 by omega,
      show 24 + (k - 8 - 8 - 8) = k by omega, show k - 8 - 8 - 8 < 8 by omega]

/-! ## Row-major arrays -/

/-- Indices of a row-major array of `N` columns name one row and one column. -/
theorem flat_inj {N r c r' c' : ℕ} (hc : c < N) (hc' : c' < N) :
    r * N + c = r' * N + c' ↔ r = r' ∧ c = c' := by
  constructor
  · intro h
    have hN : 0 < N := by omega
    have hrow : ∀ r c, c < N → (r * N + c) / N = r := by
      intro r c hc
      rw [Nat.add_comm, Nat.add_mul_div_right _ _ hN, Nat.div_eq_of_lt hc, Nat.zero_add]
    have hr : r = r' := by rw [← hrow r c hc, h, hrow r' c' hc']
    subst hr
    exact ⟨rfl, Nat.add_left_cancel h⟩
  · rintro ⟨rfl, rfl⟩
    rfl

end Span
