import TensorAccel.Array.SystolicArray
import TensorAccel.Framework.Bus

/-! # The array behind its C++ boundary

    Translation of `rtl/top.sv` as Verilator presents it, and of the schedule
    that both harnesses drive it with: a reset, a weight load, and then row `k`
    of the activations in lane `r` at tick `k + r`.  Whatever the array did
    before, column `c` shows the product row `k` after tick `k + c + N - 1`. -/

open Clocked SystolicArray

namespace Sim

variable {N : ℕ}

/-! ## `top` -/

/-- The ports of `Vtop` that a harness sets, and the registers behind them. -/
structure Vtop (N : ℕ) where
  rst : Bool
  weightLoad : Bool
  weightInFlat : Bus
  actInFlat : Bus
  array : Grid N

namespace Vtop

/-- The unpacked ports of `u_array`. -/
def ports (t : Vtop N) : ArrayIn N where
  rst := t.rst
  weightLoad := t.weightLoad
  weightIn i j := t.weightInFlat.slice ((i.val * N + j.val) * 8) 8
  actIn i := t.actInFlat.slice (i.val * 8) 8

/-- `eval` with the clock low, then high. -/
def tick (t : Vtop N) : Vtop N := { t with array := step t.ports t.array }

def psumWord (t : Vtop N) (c : ℕ) : BitVec 32 :=
  if h : c < N then psumOut t.array ⟨c, h⟩ else 0

/-- `psum_out_flat`, an integer for one or two columns. -/
def psumOutFlat (t : Vtop N) : Bus :=
  if N ≤ 1 then .int (t.psumWord 0)
  else if N = 2 then .int (t.psumWord 1 ++ t.psumWord 0)
  else .wide t.psumWord

/-- `psum_out_flat[c*32 +: 32]` is `psum_out[c]`. -/
theorem bit_psumOutFlat (t : Vtop N) (c : Fin N) {k : ℕ} (hk : k < 32) :
    t.psumOutFlat.bit (c.val * 32 + k) = (psumOut t.array c).getLsbD k := by
  have hword : t.psumWord c.val = psumOut t.array c := by rw [psumWord, dif_pos c.isLt]
  have hc := c.isLt
  rw [← hword]
  unfold psumOutFlat
  split_ifs with h1 h2
  · rw [show c.val = 0 by omega, Nat.zero_mul, Nat.zero_add]
    rfl
  · have hcase : c.val = 0 ∨ c.val = 1 := by omega
    rcases hcase with h0 | h0
    · rw [h0, Nat.zero_mul, Nat.zero_add, Bus.bit, BitVec.getLsbD_append]
      simp [hk]
    · rw [h0, Bus.bit, BitVec.getLsbD_append]
      simp
  · rw [Bus.bit, show (c.val * 32 + k) / 32 = c.val by omega, show (c.val * 32 + k) % 32 = k by omega]

theorem psumOutFlat_fits (t : Vtop N) : t.psumOutFlat.Fits (N * 4) := by
  unfold psumOutFlat
  split_ifs with h1 h2
  · show N * 4 * 8 ≤ 32
    omega
  · show N * 4 * 8 ≤ 64
    omega
  · trivial

end Vtop

/-! ## The schedule -/

/-- A product `a @ w` of `M` rows; of `w` rows and columns below `N` are used,
of `a` rows below `M` and lanes below `N`. -/
structure Job where
  M : ℕ
  w : ℕ → ℕ → BitVec 8
  a : ℕ → ℕ → BitVec 8

namespace Job

/-- What lane `r` is fed in streaming tick `j`. -/
def feed (job : Job) (j r : ℕ) : BitVec 8 :=
  let m : ℤ := j - r
  if 0 ≤ m ∧ m < job.M then job.a m.toNat r else 0

/-- Entry `(k, c)` of the product, modulo `2 ^ 32`. -/
def dot (job : Job) (N k c : ℕ) : BitVec 32 :=
  BitVec.ofInt 32 (∑ r ∈ Finset.range N, (job.a k r).toInt * (job.w r c).toInt)

/-- Row `k` reaches lane `r` at tick `k + r`. -/
theorem feed_skew (job : Job) {k : ℕ} (hk : k < job.M) (r : ℕ) : job.feed (k + r) r = job.a k r := by
  have hrow : ((k + r : ℕ) : ℤ) - (r : ℕ) = k := by
    push_cast
    ring
  simp only [feed, hrow]
  rw [if_pos ⟨Int.natCast_nonneg k, by exact_mod_cast hk⟩, Int.toNat_natCast]

end Job

/-- The inputs of a harness that runs this job from cycle 0 on. -/
structure Scheduled (job : Job) (i : ℕ → ArrayIn N) : Prop where
  reset : (i 0).rst = true
  loadRst : (i 1).rst = false
  loadEn : (i 1).weightLoad = true
  load : ∀ r c : Fin N, (i 1).weightIn r c = job.w r c
  streamRst : ∀ j, (i (j + 2)).rst = false
  streamEn : ∀ j, (i (j + 2)).weightLoad = false
  stream : ∀ j (r : Fin N), (i (j + 2)).actIn r = job.feed j r

section schedule
variable {job : Job} {i : ℕ → ArrayIn N}

theorem Scheduled.reset_last (h : Scheduled job i) {t : ℕ} (ht : 0 < t) : IsLast (rstOf i) 0 t := by
  refine ⟨ht, h.reset, ?_⟩
  intro u _ hu
  obtain rfl | ⟨j, rfl⟩ : u = 1 ∨ ∃ j, u = j + 2 := by
    rcases Nat.lt_or_ge 1 u with hlt | hle
    · exact .inr ⟨u - 2, by omega⟩
    · exact .inl (by omega)
  · exact h.loadRst
  · exact h.streamRst j

/-- The weights stay loaded. -/
theorem Scheduled.weightAt_eq (h : Scheduled job i) (r c : Fin N) (j : ℕ) :
    weightAt i r c (j + 2) = job.w r c := by
  induction j with
  | zero =>
    rw [weightAt, loaded_succ_load h.loadRst h.loadEn]
    exact h.load r c
  | succ j ih =>
    have hkeep : weightAt i r c (j + 2 + 1) = weightAt i r c (j + 2) :=
      loaded_succ_keep (h.streamRst j) (h.streamEn j)
    exact hkeep.trans ih

/-- **The schedule law**: product row `k` stands in column `c` after streaming
tick `k + c + N - 1`, which is cycle `k + c + N + 1` of the run. -/
theorem Scheduled.psumOut_eq (h : Scheduled job i) (p : Grid N) {k : ℕ} (hk : k < job.M) (c : Fin N) :
    psumOut (run step p i (k + c.val + N + 2)) c = job.dot N k c.val := by
  have hsum := SystolicArray.psumOut_eq p i (h.reset_last (t := k + c.val + N + 2) (by omega)) c
  rw [hsum, Job.dot, Finset.sum_range]
  congr 1
  apply Finset.sum_congr rfl
  intro r _
  have hr := r.isLt
  -- lane `r` got the row `r` ticks late, and met its weight `c` ticks after that
  have hact : k + c.val + N + 2 - (N - r.val) - c.val = k + r.val + 2 := by omega
  have hweight : k + c.val + N + 2 - (N - r.val) = k + c.val + r.val + 2 := by omega
  rw [psumTerm, if_pos (by omega), hact, hweight, h.stream, h.weightAt_eq, job.feed_skew hk]

end schedule

/-! ## Harnesses -/

/-- `v n` is what a harness has set before its tick `n`: it resets the array,
loads the weights and then streams. -/
structure Harness (job : Job) (v : ℕ → Vtop N) : Prop where
  linked : ∀ n, (v (n + 1)).array = (v n).tick.array
  reset : (v 0).rst = true
  load : (v 1).rst = false ∧ (v 1).weightLoad = true
  weights : ∀ r c : Fin N, (v 1).weightInFlat.slice ((r.val * N + c.val) * 8) 8 = job.w r c
  stream : ∀ j, (v (j + 2)).rst = false ∧ (v (j + 2)).weightLoad = false
  acts : ∀ j (r : Fin N), (v (j + 2)).actInFlat.slice (r.val * 8) 8 = job.feed j r

section harness
variable {job : Job} {v : ℕ → Vtop N}

theorem Harness.scheduled (h : Harness job v) : Scheduled job fun n => (v n).ports where
  reset := h.reset
  loadRst := h.load.1
  loadEn := h.load.2
  load := h.weights
  streamRst j := (h.stream j).1
  streamEn j := (h.stream j).2
  stream := h.acts

theorem Harness.array_eq (h : Harness job v) (n : ℕ) :
    (v n).array = run step (v 0).array (fun n => (v n).ports) n := by
  induction n with
  | zero => rfl
  | succ n ih =>
    rw [h.linked, run_succ, ← ih]
    rfl

/-- What the array shows after streaming tick `k + c + N - 1`. -/
theorem Harness.psumOut_eq (h : Harness job v) {k : ℕ} (hk : k < job.M) (c : Fin N) {j : ℕ}
    (hj : j + 1 = k + c.val + N) : psumOut (v (j + 2)).tick.array c = job.dot N k c.val := by
  have hcycle : j + 2 + 1 = k + c.val + N + 2 := by omega
  rw [← h.linked, h.array_eq, hcycle]
  exact h.scheduled.psumOut_eq (v 0).array hk c

end harness

end Sim
