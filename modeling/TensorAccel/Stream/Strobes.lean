import TensorAccel.Stream.StreamCtrl

/-! # Strobes of a command

    The reads and writes of a command of any size are counted.  `total_cycles`
    is a 32-bit sum: at `2 ^ 32` it gives one read too many, and past that the
    command ends before its first row is written. -/

open Clocked

namespace StreamCtrl

namespace Ctrl

variable {N A : ℕ}

/-! ## Strobes by stage -/

section strobes
variable {s : Ctrl N A} {T n j : ℕ}

theorem one_le_skew (hN : 0 < N) : 1 ≤ (skew N).toNat := by
  rw [skew, BitVec.toNat_ofNat]
  -- an odd number stays odd modulo `2 ^ 32`
  omega

/-- While the weights are loaded every other cycle reads a row. -/
theorem Stage.rdEn_load (h : Stage T n s) (hn : n < 2 * N + 2) :
    s.rdEn = decide (n % 2 = 1 ∧ n < 2 * N) := by
  cases h with
  | loadAddr l hl hn' hst hli =>
    simp only [rdEn, hst]
    simp; omega
  | loadData l hl hn' hst hli =>
    simp only [rdEn, hst]
    simp; omega
  | loadPulse hn' hst =>
    simp only [rdEn, hst]
    simp; omega
  | prefetch hn' hst => omega
  | stream j hj hn' hst hcyc => omega
  | done hn' hst => omega

theorem Stage.rdEn_prefetch (h : Stage T (2 * N + 2) s) : s.rdEn = true := by
  cases h with
  | prefetch hn' hst => simp only [rdEn, hst]
  | _ => omega

theorem Stage.stream_cycle (h : Stage T (2 * N + 3 + j) s) (hj : j < T) :
    s.state = .stream ∧ s.cyc.toNat = j := by
  cases h with
  | stream j' hj' hn' hst hcyc =>
    obtain rfl : j = j' := by omega
    exact ⟨hst, hcyc⟩
  | _ => omega

theorem Stage.done_cycle (h : Stage T (2 * N + 3 + T) s) : s.state = .done := by
  cases h with
  | done hn' hst => exact hst
  | _ => omega

/-- In the last cycle that `cyc` can count to, `cyc + 1` is 0. -/
theorem Stage.rdEn_stream (h : Stage T (2 * N + 3 + j) s) (hj : j < T) :
    s.rdEn = decide ((j + 1) % 2 ^ 32 < s.mRowsR.toNat) := by
  obtain ⟨hst, hcyc⟩ := h.stream_cycle hj
  simp only [rdEn, hst, BitVec.ofNat_eq_ofNat, BitVec.lt_def, BitVec.toNat_add, BitVec.toNat_ofNat,
    hcyc]

theorem Stage.wrEn_load (h : Stage T n s) (hn : n < 2 * N + 3) : s.wrEn = false := by
  cases h with
  | stream j hj hn' hst hcyc => omega
  | done hn' hst => omega
  | loadAddr _ _ _ hst _ => simp only [wrEn, hst]
  | loadData _ _ _ hst _ => simp only [wrEn, hst]
  | loadPulse _ hst => simp only [wrEn, hst]
  | prefetch _ hst => simp only [wrEn, hst]

theorem Stage.wrEn_stream (h : Stage T (2 * N + 3 + j) s) (hj : j < T) :
    s.wrEn = decide ((skew N).toNat ≤ j ∧ j < (skew N).toNat + s.mRowsR.toNat) := by
  obtain ⟨hst, hcyc⟩ := h.stream_cycle hj
  have hskew := (skew N).isLt
  have hcycLt := s.cyc.isLt
  rw [Bool.eq_iff_iff]
  simp only [wrEn, hst, Bool.and_eq_true, decide_eq_true_eq, BitVec.le_def, BitVec.lt_def,
    BitVec.toNat_sub, hcyc]
  omega

end strobes

/-! ## Counting -/

/-- A command was accepted in cycle `t`; no reset until `n` cycles later. -/
structure Accepted (s₀ : Ctrl N A) (inp : ℕ → CtrlIn N A) (t n : ℕ) : Prop where
  idle : (run step s₀ inp t).busy = false
  start : (inp t).start = true
  quiet : Quiet (fun u => (inp u).rst) t (t + n)

/-- From the start pulse until the done pulse is registered. -/
def commandCycles (N : ℕ) (mRows : BitVec 32) : ℕ := 2 * N + 4 + streamCycles N mRows

section counting
variable {s₀ : Ctrl N A} {inp : ℕ → CtrlIn N A} {t n j : ℕ} {m : BitVec 32}

theorem Accepted.mono {k : ℕ} (h : Accepted s₀ inp t n) (hk : k ≤ n) : Accepted s₀ inp t k :=
  ⟨h.idle, h.start, h.quiet.mono le_rfl (by omega)⟩

/-- The stage `n` cycles after the start. -/
theorem Accepted.stage (hN : 0 < N) (hlanes : N ≤ 2 ^ A) (h : Accepted s₀ inp t n)
    (hm : (inp t).cmd.mRows = m) (hpos : 0 < n) (hn : n ≤ 2 * N + 3 + streamCycles N m) :
    Stage (streamCycles N m) n (run step s₀ inp (t + n)) ∧
      (run step s₀ inp (t + n)).mRowsR = m ∧ (run step s₀ inp (t + n)).done = false := by
  induction n, hpos using Nat.le_induction with
  | base =>
    have hr := h.quiet.at le_rfl (by omega)
    have hstart := running_start (s := run step s₀ inp t) hN hr h.idle h.start
    rw [run_succ]
    refine ⟨.loadAddr 0 hN rfl ?_ ?_, hstart.mRowsR.trans hm, hstart.undone⟩
    · rw [step_start hr (state_of_idle h.idle) h.start]
    · rw [step_start hr (state_of_idle h.idle) h.start]
      rfl
  | succ n hpos ih =>
    obtain ⟨hstage, hrows, -⟩ := ih (h.mono (Nat.le_succ n)) (by omega)
    have hr := h.quiet.at (show t ≤ t + n by omega) (by omega)
    have hstate := hstage.state_ne (by omega)
    obtain ⟨-, -, -, hkeep, hdone⟩ := step_keeps (i := inp (t + n)) hr hstate.1 hstate.2
    rw [← Nat.add_assoc, run_succ]
    exact ⟨hstage.step hN hlanes (by rw [hrows]) hr (by omega), hkeep.trans hrows, hdone⟩

/-- The signal `p` of the controller, over a run. -/
def strobe (p : Ctrl N A → Bool) (s₀ : Ctrl N A) (inp : ℕ → CtrlIn N A) (u : ℕ) : Bool :=
  p (run step s₀ inp u)

theorem countIn_next (p : ℕ → Bool) (t n : ℕ) :
    countIn p t (t + (n + 1)) = countIn p t (t + n) + (p (t + n)).toNat := by
  rw [← Nat.add_assoc, countIn_succ p (Nat.le_add_right t n)]

/-- `N` reads while the weights are loaded. -/
theorem reads_load (hN : 0 < N) (hlanes : N ≤ 2 ^ A) (h : Accepted s₀ inp t n)
    (hm : (inp t).cmd.mRows = m) (hn : n ≤ 2 * N + 2) :
    countIn (strobe rdEn s₀ inp) t (t + n) = min (n / 2) N := by
  induction n with
  | zero => simp
  | succ n ih =>
    rw [countIn_next, ih (h.mono (Nat.le_succ n)) (by omega)]
    rcases Nat.eq_zero_or_pos n with rfl | hpos
    · simp [strobe, (no_strobe h.idle).1]
    · have hstage := (h.mono (Nat.le_succ n)).stage hN hlanes hm hpos (by omega)
      rw [strobe, hstage.1.rdEn_load (by omega)]
      by_cases hread : n % 2 = 1 ∧ n < 2 * N
      · simp only [hread, and_self, decide_true, Bool.toNat_true]
        omega
      · simp only [hread, decide_false, Bool.toNat_false]
        omega

/-- The prefetch reads the first row, and a streaming cycle the next one. -/
theorem reads_stream (hN : 0 < N) (hlanes : N ≤ 2 ^ A) (h : Accepted s₀ inp t (2 * N + 3 + j))
    (hm : (inp t).cmd.mRows = m) (hpos : 0 < m.toNat) (hj : j ≤ streamCycles N m) :
    countIn (strobe rdEn s₀ inp) t (t + (2 * N + 3 + j)) =
      N + min (j + 1) m.toNat + if j = 2 ^ 32 then 1 else 0 := by
  induction j with
  | zero =>
    have h' := h.mono (show 2 * N + 2 ≤ 2 * N + 3 + 0 by omega)
    have hstage := h'.stage hN hlanes hm (by omega) (by omega)
    rw [show 2 * N + 3 + 0 = 2 * N + 2 + 1 by omega, countIn_next, reads_load hN hlanes h' hm le_rfl,
      strobe, hstage.1.rdEn_prefetch]
    rw [if_neg (by decide), Bool.toNat_true]
    omega
  | succ j ih =>
    have h' := h.mono (show 2 * N + 3 + j ≤ 2 * N + 3 + (j + 1) by omega)
    have hstage := h'.stage hN hlanes hm (by omega) (by omega)
    rw [← Nat.add_assoc (2 * N + 3), countIn_next, ih h' (by omega), strobe, hstage.1.rdEn_stream (by omega),
      hstage.2.1]
    have hlast : j < 2 ^ 32 := lt_of_lt_of_le hj (BitVec.isLt _)
    have hm32 := m.isLt
    by_cases hread : (j + 1) % 2 ^ 32 < m.toNat
    · simp only [hread, decide_true, Bool.toNat_true]
      split_ifs <;> omega
    · simp only [hread, decide_false, Bool.toNat_false]
      split_ifs <;> omega

/-- Rows are written from the cycle on in which the first one leaves the array. -/
theorem writes_stream (hN : 0 < N) (hlanes : N ≤ 2 ^ A) (h : Accepted s₀ inp t (2 * N + 3 + j))
    (hm : (inp t).cmd.mRows = m) (hj : j ≤ streamCycles N m) :
    countIn (strobe wrEn s₀ inp) t (t + (2 * N + 3 + j)) = min (j - (skew N).toNat) m.toNat := by
  induction j with
  | zero =>
    have hquiet : Quiet (strobe wrEn s₀ inp) t (t + (2 * N + 3 + 0)) := by
      intro u hu htu
      obtain ⟨n, rfl⟩ : ∃ n, u = t + n := ⟨u - t, by omega⟩
      rcases Nat.eq_zero_or_pos n with rfl | hpos
      · exact (no_strobe h.idle).2
      · have hstage := (h.mono (show n ≤ 2 * N + 3 + 0 by omega)).stage hN hlanes hm hpos (by omega)
        exact hstage.1.wrEn_load (by omega)
    rw [countIn_quiet le_rfl (by omega) hquiet]
    simp
  | succ j ih =>
    have h' := h.mono (show 2 * N + 3 + j ≤ 2 * N + 3 + (j + 1) by omega)
    have hstage := h'.stage hN hlanes hm (by omega) (by omega)
    rw [← Nat.add_assoc (2 * N + 3), countIn_next, ih h' (by omega), strobe, hstage.1.wrEn_stream (by omega),
      hstage.2.1]
    by_cases hwrite : (skew N).toNat ≤ j ∧ j < (skew N).toNat + m.toNat
    · simp only [hwrite, and_self, decide_true, Bool.toNat_true]
      omega
    · simp only [hwrite, decide_false, Bool.toNat_false]
      omega

/-- **The strobes of a command.**  It raises `done` after a number of cycles
that `streamCycles` gives; until then it has read `N + m_rows` words and written
`m_rows` rows exactly if `total_cycles` does not overflow. -/
theorem command_strobes (hN : 0 < N) (hlanes : N ≤ 2 ^ A) (hm : (inp t).cmd.mRows = m)
    (hpos : 0 < m.toNat) (h : Accepted s₀ inp t (commandCycles N m)) :
    strobe done s₀ inp (t + commandCycles N m) = true ∧
      Quiet (strobe done s₀ inp) (t + 1) (t + commandCycles N m) ∧
      ((countIn (strobe rdEn s₀ inp) t (t + commandCycles N m) = N + m.toNat ∧
          countIn (strobe wrEn s₀ inp) t (t + commandCycles N m) = m.toNat) ↔
        m.toNat + (skew N).toNat < 2 ^ 32) := by
  have hlen : commandCycles N m = 2 * N + 3 + streamCycles N m + 1 := by
    unfold commandCycles
    omega
  rw [hlen] at h ⊢
  have hend := h.mono (Nat.le_succ _)
  have hstage := (hend.stage hN hlanes hm (by omega) le_rfl).1.done_cycle
  have hr := h.quiet.at (show t ≤ t + (2 * N + 3 + streamCycles N m) by omega) (by omega)
  refine ⟨?_, ?_, ?_⟩
  · rw [strobe, ← Nat.add_assoc, run_succ, step_done hr hstage]
  · intro u hu htu
    obtain ⟨n, rfl⟩ : ∃ n, u = t + n := ⟨u - t, by omega⟩
    exact ((h.mono (by omega)).stage hN hlanes hm (by omega) (by omega)).2.2
  · -- the cycle of `S_DONE` strobes neither port
    have hreads := reads_stream hN hlanes hend hm hpos le_rfl
    have hwrites := writes_stream hN hlanes hend hm le_rfl
    have hlow : strobe rdEn s₀ inp (t + (2 * N + 3 + streamCycles N m)) = false ∧
        strobe wrEn s₀ inp (t + (2 * N + 3 + streamCycles N m)) = false :=
      ⟨by simp only [strobe, rdEn, hstage], by simp only [strobe, wrEn, hstage]⟩
    rw [countIn_next, countIn_next, hreads, hwrites, hlow.1, hlow.2]
    have hskew := one_le_skew hN
    have hskew32 := (skew N).isLt
    have hm32 := m.isLt
    -- the sum, or what is left of it in 32 bits
    have hT : streamCycles N m = (m.toNat + (skew N).toNat + (2 ^ 32 - 1)) % 2 ^ 32 + 1 := by
      unfold streamCycles
      simp only [BitVec.ofNat_eq_ofNat, BitVec.toNat_sub, BitVec.toNat_add, BitVec.toNat_ofNat]
      omega
    simp only [Bool.toNat_false, Nat.add_zero]
    by_cases hsum : m.toNat + (skew N).toNat < 2 ^ 32
    · have hall : streamCycles N m = m.toNat + (skew N).toNat := by omega
      rw [if_neg (by omega), hall]
      omega
    · by_cases hfull : streamCycles N m = 2 ^ 32
      · rw [if_pos hfull, hfull]
        omega
      · have hshort : streamCycles N m < (skew N).toNat := by omega
        omega

end counting

/-- A start pulse in cycle 0. -/
def demoStart (N A : ℕ) (m : BitVec 32) (u : ℕ) : CtrlIn N A :=
  ⟨false, u == 0, ⟨0, 0, 0, m⟩, fun _ => 0, fun _ => 0⟩

theorem demo_accepted (N A : ℕ) (m : BitVec 32) (n : ℕ) :
    Accepted (Core.zero N A).ctrl (demoStart N A m) 0 n :=
  ⟨rfl, rfl, fun _ _ _ => rfl⟩

/-- Three rows through a 2 by 2 array. -/
theorem command_strobes_demo :
    countIn (strobe rdEn (Core.zero 2 4).ctrl (demoStart 2 4 3)) 0 14 = 5 ∧
      countIn (strobe wrEn (Core.zero 2 4).ctrl (demoStart 2 4 3)) 0 14 = 3 := by
  have h := command_strobes (t := 0) (m := 3) (by decide) (by decide) rfl (by decide)
    (demo_accepted 2 4 3 (commandCycles 2 3))
  exact h.2.2.mpr (by decide)

/-- **A row count that overflows `total_cycles`**: with two lanes and
`2 ^ 32 - 1` rows the command streams for two cycles and writes nothing. -/
theorem overflow_writes_nothing :
    Accepted (Core.zero 2 4).ctrl (demoStart 2 4 0xFFFFFFFF) 0 10 ∧
      strobe done (Core.zero 2 4).ctrl (demoStart 2 4 0xFFFFFFFF) 10 = true ∧
      Quiet (strobe done (Core.zero 2 4).ctrl (demoStart 2 4 0xFFFFFFFF)) 1 10 ∧
      countIn (strobe wrEn (Core.zero 2 4).ctrl (demoStart 2 4 0xFFFFFFFF)) 0 10 = 0 := by
  refine ⟨demo_accepted 2 4 0xFFFFFFFF 10, ?_, ?_, ?_⟩ <;> decide +kernel

end Ctrl

end StreamCtrl
