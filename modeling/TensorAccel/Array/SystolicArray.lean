import Mathlib.Algebra.Order.Ring.Abs
import Mathlib.Data.BitVec
import Mathlib.Tactic.Ring
import Mathlib.Tactic.Linarith
import TensorAccel.Framework.Clocked
import TensorAccel.Framework.PrefixSum

/-! # The weight-stationary systolic array

    Translation of `rtl/pe.sv` and `rtl/systolic_array.sv`.  Activations move
    one column to the right per cycle, partial sums one row down per cycle, and
    every PE multiplies by the weight it holds.

    The main fact is the closed form of a wavefront: from a cycle `z` in which
    all registers are zero, and as long as no reset occurs, the partial sum
    below row `q` of column `c` is a sum over the rows above it, each term
    taken at its own entry cycle and its own multiply cycle. -/

open Clocked PrefixSum

namespace SystolicArray

/-! ## The processing element -/

/-- `act_in * weight`, both sign-extended to the 32 bits of `psum_in`. -/
def mac (act weight : BitVec 8) : BitVec 32 := act.signExtend 32 * weight.signExtend 32

@[simp] theorem mac_zero_left (w : BitVec 8) : mac 0#8 w = 0#32 := by
  simp [mac]

theorem mac_eq (a w : BitVec 8) : mac a w = BitVec.ofInt 32 (a.toInt * w.toInt) := by
  rw [BitVec.ofInt_mul]; rfl

/-- Registers of one `pe`. -/
structure Pe where
  weight : BitVec 8
  actOut : BitVec 8
  psumOut : BitVec 32
  deriving DecidableEq, Repr

/-- Input ports of one `pe`. -/
structure PeIn where
  rst : Bool
  weightLoad : Bool
  weightIn : BitVec 8
  actIn : BitVec 8
  psumIn : BitVec 32

/-- One clock edge of `pe`. -/
def Pe.step (i : PeIn) (s : Pe) : Pe where
  weight := if i.rst then 0 else if i.weightLoad then i.weightIn else s.weight
  actOut := if i.rst then 0 else i.actIn
  psumOut := if i.rst then 0 else i.psumIn + mac i.actIn s.weight

/-! ## The array -/

variable {N : ℕ}

/-- Input ports of `systolic_array`. -/
structure ArrayIn (N : ℕ) where
  rst : Bool
  weightLoad : Bool
  weightIn : Fin N → Fin N → BitVec 8
  actIn : Fin N → BitVec 8

/-- The `N × N` grid of `pe` instances, row first. -/
abbrev Grid (N : ℕ) := Fin N → Fin N → Pe

/-- `a_in` of column `c`: the row's input port, or the left neighbour. -/
def aIn (actIn : Fin N → BitVec 8) (s : Grid N) (r : Fin N) : Fin N → BitVec 8
  | ⟨0, _⟩ => actIn r
  | ⟨c + 1, h⟩ => (s r ⟨c, Nat.lt_of_succ_lt h⟩).actOut

theorem aIn_succ (actIn : Fin N → BitVec 8) (s : Grid N) (r : Fin N) {c : ℕ} (h : c + 1 < N) :
    aIn actIn s r ⟨c + 1, h⟩ = (s r ⟨c, Nat.lt_of_succ_lt h⟩).actOut := rfl

/-- `psum_wire[q][c]`, the partial sum that leaves the first `q` rows. -/
def psumWire (s : Grid N) (c : Fin N) : (q : ℕ) → q ≤ N → BitVec 32
  | 0, _ => 0
  | q + 1, h => (s ⟨q, h⟩ c).psumOut

/-- One clock edge of `systolic_array`. -/
def step (i : ArrayIn N) (s : Grid N) : Grid N := fun r c =>
  Pe.step { rst := i.rst, weightLoad := i.weightLoad, weightIn := i.weightIn r c,
            actIn := aIn i.actIn s r c, psumIn := psumWire s c r.val r.isLt.le } (s r c)

/-- The output port `psum_out`. -/
def psumOut (s : Grid N) (c : Fin N) : BitVec 32 := psumWire s c N le_rfl

/-- All registers cleared: what a reset cycle leaves behind. -/
def cleared : Grid N := fun _ _ => ⟨0, 0, 0⟩

theorem step_rst {i : ArrayIn N} (h : i.rst = true) (s : Grid N) : step i s = cleared := by
  funext r c
  simp [step, Pe.step, cleared, h]

theorem psumWire_cleared (c : Fin N) (q : ℕ) (h : q ≤ N) : psumWire cleared c q h = 0 := by
  cases q <;> rfl

/-! ## The weight registers -/

/-- The reset input as a signal. -/
def rstOf (i : ℕ → ArrayIn N) : ℕ → Bool := fun s => (i s).rst

/-- `weight_in[r][c]` at the latest `weight_load` before `s` that comes after
the last reset, 0 if there is none. -/
def weightAt (i : ℕ → ArrayIn N) (r c : Fin N) : ℕ → BitVec 8 :=
  loaded (rstOf i) (fun u => (i u).weightLoad) (fun u => (i u).weightIn r c) 0

/-- From a reset on, the weight register holds `weightAt`. -/
theorem weight_run (p : Grid N) (i : ℕ → ArrayIn N) {L : ℕ} (hL : (i L).rst = true) (r c : Fin N) :
    ∀ s, L < s → (run step p i s r c).weight = weightAt i r c s := by
  have hL' : rstOf i L = true := hL
  exact loaded_eq (fun _ => rfl) hL'

/-! ## The wavefront

    `z` is a cycle in which all registers are zero and after which no reset
    occurs up to `t`.  Both lemmas are inductions over the cycle; the grid
    coordinate is general, because a PE reads its neighbours. -/

section wavefront
variable {p : Grid N} {i : ℕ → ArrayIn N} {z t : ℕ}

/-- Column `c` sees the row's activation `c` cycles late. -/
theorem aIn_wave (hz : run step p i z = cleared) (hq : Quiet (rstOf i) z t) :
    ∀ u, z ≤ u → u ≤ t → ∀ r c : Fin N,
      aIn (i u).actIn (run step p i u) r c = if z + c.val ≤ u then (i (u - c.val)).actIn r else 0 := by
  intro u hu
  induction u, hu using Nat.le_induction with
  | base =>
    intro _ r ⟨c, hc⟩
    cases c with
    | zero => simp [aIn]
    | succ c => simp [aIn, hz, cleared]
  | succ u hzu ih =>
    intro hut r ⟨c, hc⟩
    cases c with
    | zero => simp [aIn, show z ≤ u + 1 by omega]
    | succ c =>
      have hrst : (i u).rst = false := hq.at hzu (by omega)
      -- the flop to the left holds what its own column saw one cycle earlier
      have hleft := ih (by omega) r ⟨c, by omega⟩
      have hreg : aIn (i (u + 1)).actIn (run step p i (u + 1)) r ⟨c + 1, hc⟩ =
          aIn (i u).actIn (run step p i u) r ⟨c, by omega⟩ := by
        simp [aIn_succ, run_succ, step, Pe.step, hrst]
      have hcond : z + (c + 1) ≤ u + 1 ↔ z + c ≤ u := by omega
      simp only [hreg, hleft, hcond, Nat.add_sub_add_right]

/-- The contribution of row `r` to the partial sum that leaves row `q - 1` of
column `c` in cycle `u`. -/
def waveTerm (p : Grid N) (i : ℕ → ArrayIn N) (z u q : ℕ) (c r : Fin N) : BitVec 32 :=
  if z + (q - r.val) + c.val ≤ u then
    mac ((i (u - (q - r.val) - c.val)).actIn r) (run step p i (u - (q - r.val)) r c).weight
  else 0

/-- A term moves down one row per cycle. -/
theorem waveTerm_succ {u q : ℕ} {c r : Fin N} (h : r.val < q) :
    waveTerm p i z (u + 1) (q + 1) c r = waveTerm p i z u q c r := by
  have hdist : q + 1 - r.val = (q - r.val) + 1 := by omega
  have hcond : z + ((q - r.val) + 1) + c.val ≤ u + 1 ↔ z + (q - r.val) + c.val ≤ u := by omega
  simp only [waveTerm, hdist, hcond, Nat.add_sub_add_right]

/-- A term enters in the row that multiplies it. -/
theorem waveTerm_entry {u : ℕ} {q c : Fin N} :
    waveTerm p i z (u + 1) (q.val + 1) c q =
      mac (if z + c.val ≤ u then (i (u - c.val)).actIn q else 0) (run step p i u q c).weight := by
  have hcond : z + 1 + c.val ≤ u + 1 ↔ z + c.val ≤ u := by omega
  simp only [waveTerm, Nat.add_sub_cancel_left, hcond, Nat.add_sub_cancel]
  split <;> simp

theorem psum_wave (hz : run step p i z = cleared) (hq : Quiet (rstOf i) z t) :
    ∀ u, z ≤ u → u ≤ t → ∀ (c : Fin N) (q : ℕ) (h : q ≤ N),
      psumWire (run step p i u) c q h = sumBelow (waveTerm p i z u q c) q := by
  intro u hu
  induction u, hu using Nat.le_induction with
  | base =>
    intro _ c q h
    -- after the reset no wave has started yet
    have hzero : sumBelow (waveTerm p i z z q c) q = sumBelow (fun _ : Fin N => 0) q := by
      apply sumBelow_congr
      intro r hr
      rw [waveTerm, if_neg (by omega)]
    rw [hz, psumWire_cleared, hzero]
    simp [sumBelow]
  | succ u hzu ih =>
    intro hut c q h
    cases q with
    | zero => simp [psumWire]
    | succ q =>
      have hrst : (i u).rst = false := hq.at hzu (by omega)
      have hact := aIn_wave hz hq u hzu (by omega) ⟨q, h⟩ c
      have habove := ih (by omega) c q (by omega)
      have hstep : psumWire (run step p i (u + 1)) c (q + 1) h =
          psumWire (run step p i u) c q (by omega) +
            mac (aIn (i u).actIn (run step p i u) ⟨q, h⟩ c) (run step p i u ⟨q, h⟩ c).weight := by
        simp [psumWire, run_succ, step, Pe.step, hrst]
      -- the terms from above move down, the row's own product is the new one
      rw [hstep, habove, hact, sumBelow_succ (waveTerm p i z (u + 1) (q + 1) c) ⟨q, h⟩,
        waveTerm_entry (q := ⟨q, h⟩)]
      congr 1
      exact (sumBelow_congr fun r hr => waveTerm_succ hr).symm

end wavefront

/-! ## The closed form of `psum_out` -/

/-- The product of row `r` in `psum_out[c]` of cycle `t`, as an integer.  Its
activation entered the row `(N - r) + c` cycles ago and met the weight `N - r`
cycles ago; it counts only if it entered after the last reset `L`. -/
def psumTerm (i : ℕ → ArrayIn N) (L t : ℕ) (c r : Fin N) : ℤ :=
  if L + (N - r.val) + c.val < t then
    ((i (t - (N - r.val) - c.val)).actIn r).toInt * (weightAt i r c (t - (N - r.val))).toInt
  else 0

theorem toInt_mul_abs_le (a w : BitVec 8) : |a.toInt * w.toInt| ≤ 16384 := by
  have ha := BitVec.le_toInt a
  have ha' := BitVec.toInt_lt (x := a)
  have hw := BitVec.le_toInt w
  have hw' := BitVec.toInt_lt (x := w)
  norm_num at ha ha' hw hw'
  rw [abs_mul]
  have h₁ : |a.toInt| ≤ 128 := abs_le.mpr ⟨by omega, by omega⟩
  have h₂ : |w.toInt| ≤ 128 := abs_le.mpr ⟨by omega, by omega⟩
  calc |a.toInt| * |w.toInt| ≤ 128 * 128 := mul_le_mul h₁ h₂ (abs_nonneg _) (by norm_num)
    _ = 16384 := by norm_num

theorem psumTerm_abs_le (i : ℕ → ArrayIn N) (L t : ℕ) (c r : Fin N) :
    |psumTerm i L t c r| ≤ 16384 := by
  unfold psumTerm
  split
  · exact toInt_mul_abs_le _ _
  · simp

/-- Up to 131071 rows no prefix of the sum leaves the int32 range. -/
theorem psumTerm_range (hN : N ≤ 131071) (i : ℕ → ArrayIn N) (L t : ℕ) (c : Fin N) (q : ℕ)
    (hq : q ≤ N) : -2 ^ 31 ≤ sumBelow (psumTerm i L t c) q ∧ sumBelow (psumTerm i L t c) q < 2 ^ 31 := by
  have hb := abs_le.mp (sumBelow_bounds (psumTerm_abs_le i L t c) q hq)
  have hq' : (q : ℤ) ≤ 131071 := by exact_mod_cast hq.trans hN
  constructor <;> linarith [hb.1, hb.2]

theorem psumOut_eq (p : Grid N) (i : ℕ → ArrayIn N) {L t : ℕ} (hL : IsLast (rstOf i) L t)
    (c : Fin N) :
    psumOut (run step p i t) c = BitVec.ofInt 32 (∑ r, psumTerm i L t c r) := by
  have hz : run step p i (L + 1) = cleared := by rw [run_succ, step_rst hL.high]
  have hterm : ∀ r, waveTerm p i (L + 1) t N c r = ((psumTerm i L t c r : ℤ) : BitVec 32) := by
    intro r
    have hcond : L + 1 + (N - r.val) + c.val ≤ t ↔ L + (N - r.val) + c.val < t := by omega
    unfold waveTerm psumTerm
    rw [if_congr hcond rfl rfl]
    split
    · rw [weight_run p i hL.high r c _ (by omega), mac_eq]; rfl
    · simp
  rw [psumOut, psum_wave hz hL.quiet t hL.lt le_rfl c N le_rfl, sumBelow_all,
    Finset.sum_congr rfl (fun r _ => hterm r), ← Int.cast_sum]
  rfl

/-- **Closed form of the array.**  For every power-on state and every input
trace: after the last reset `L` before `t`, `psum_out[c]` is the sum of the
products whose activation entered after `L`, modulo `2 ^ 32`; the weight in a
product is the one the register held when it multiplied.  Up to 131071 rows no
prefix of the sum leaves the int32 range, so `psum_out` is the exact sum. -/
theorem systolic_array_closed_form (p : Grid N) (i : ℕ → ArrayIn N) {L t : ℕ}
    (hL : IsLast (rstOf i) L t) (c : Fin N) :
    psumOut (run step p i t) c = BitVec.ofInt 32 (∑ r, psumTerm i L t c r) ∧
    (∀ r s, L < s → (run step p i s r c).weight = weightAt i r c s) ∧
    (N ≤ 131071 →
      (∀ q ≤ N, -2 ^ 31 ≤ sumBelow (psumTerm i L t c) q ∧ sumBelow (psumTerm i L t c) q < 2 ^ 31) ∧
      (psumOut (run step p i t) c).toInt = ∑ r, psumTerm i L t c r) := by
  have hsum := psumOut_eq p i hL c
  refine ⟨hsum, fun r s hs => weight_run p i hL.high r c s hs, ?_⟩
  intro hN
  have hrange := psumTerm_range hN i L t c
  refine ⟨hrange, ?_⟩
  have hall := hrange N le_rfl
  rw [sumBelow_all] at hall
  rw [hsum]
  exact BitVec.toInt_ofInt_eq_self (by norm_num) hall.1 hall.2

/-- A 2 × 2 run: reset in cycle 0, weights `[[2, 3], [4, 5]]` loaded in cycle 1,
row 0 gets 7 in cycle 2 and row 1 gets 6 in cycle 3. -/
def demoTrace (t : ℕ) : ArrayIn 2 where
  rst := t == 0
  weightLoad := t == 1
  weightIn := fun r c => BitVec.ofNat 8 (2 + 2 * r.val + c.val)
  actIn := fun r => if t == 2 + r.val then BitVec.ofNat 8 (7 - r.val) else 0

theorem systolic_array_closed_form_demo :
    psumOut (run step (fun _ _ => ⟨9, 9, 9⟩) demoTrace 4) 0 =
      BitVec.ofInt 32 (∑ r, psumTerm demoTrace 0 4 0 r) ∧
    (psumOut (run step (fun _ _ => ⟨9, 9, 9⟩) demoTrace 4) 0).toInt = 7 * 2 + 6 * 4 := by
  have hL : IsLast (rstOf demoTrace) 0 4 := ⟨by decide, rfl, by decide⟩
  have h := systolic_array_closed_form (fun _ _ => ⟨9, 9, 9⟩) demoTrace hL 0
  exact ⟨h.1, (h.2.2 (by decide)).2.trans (by decide)⟩

end SystolicArray
