import TensorAccel.Array.SystolicArray
import TensorAccel.Framework.DelayLine

/-! # The stream controller

    Translation of `rtl/stream_ctrl.sv`, and of its wiring to
    `systolic_array` that `stream_top` and the AXI tops share (`Core`).

    A command of `m` rows takes `4N + m + 3` cycles from the cycle of its start
    pulse to the cycle of its done pulse.  `Phase` is the position of the state
    machine `n` cycles after the start; `Data` is what the weight buffer, the
    weight registers and the pipeline hold there.  Both are inductive: one step
    lemma each carries them through a whole command, whatever memory feeds the
    read port, as long as a strobe is answered in the next cycle. -/

open Clocked PrefixSum SystolicArray DelayLine

namespace StreamCtrl

/-! ## Model -/

/-- A word of the weight / activation memory: `N` int8 lanes, lane `j` at bits
`j*8 +: 8`. -/
abbrev Lanes8 (N : ℕ) := Fin N → BitVec 8

/-- A result word: `N` int32 lanes, lane `c` at bits `c*32 +: 32`. -/
abbrev Lanes32 (N : ℕ) := Fin N → BitVec 32

inductive CtrlState
  | idle | loadAddr | loadData | loadPulse | prefetch | stream | done
  deriving DecidableEq, Repr

/-- The parameters of a command, the ports `w_base`, `a_base`, `c_base` and `m_rows`. -/
structure Cmd (A : ℕ) where
  wBase : BitVec A
  aBase : BitVec A
  cBase : BitVec A
  mRows : BitVec 32
  deriving DecidableEq, Repr

/-- Registers of `stream_ctrl`. -/
structure Ctrl (N A : ℕ) where
  state : CtrlState
  li : BitVec A
  cyc : BitVec 32
  done : Bool
  wBaseR : BitVec A
  aBaseR : BitVec A
  cBaseR : BitVec A
  mRowsR : BitVec 32
  weightBuf : Fin N → Lanes8 N
  /-- `g_row_skew[r].sk`: `r` stages. -/
  rowSk : (r : Fin N) → Line (BitVec 8) r.val
  /-- `g_col_deskew[c].sk`: `N - 1 - c` stages. -/
  colSk : (c : Fin N) → Line (BitVec 32) (N - 1 - c.val)

/-- Input ports of `stream_ctrl`. -/
structure CtrlIn (N A : ℕ) where
  rst : Bool
  start : Bool
  cmd : Cmd A
  rdData : Lanes8 N
  psumOut : Lanes32 N

variable {N A : ℕ}

namespace Ctrl

/-- `2*N - 1`, in the 32-bit context in which the source uses it. -/
def skew (N : ℕ) : BitVec 32 := BitVec.ofNat 32 (2 * N - 1)

def totalCycles (s : Ctrl N A) : BitVec 32 := s.mRowsR + skew N

def busy (s : Ctrl N A) : Bool := s.state != .idle

def weightLoad (s : Ctrl N A) : Bool := s.state == .loadPulse

def rdEn (s : Ctrl N A) : Bool :=
  match s.state with
  | .loadAddr => true
  | .prefetch => true
  -- the word of the next streaming cycle; `S_PREFETCH` strobed for cycle 0
  | .stream => s.cyc + 1 < s.mRowsR
  | _ => false

def rdAddr (s : Ctrl N A) : BitVec A :=
  match s.state with
  | .loadAddr => s.wBaseR + s.li
  | .prefetch => s.aBaseR
  | .stream => s.aBaseR + (s.cyc + 1).setWidth A
  | _ => 0

def wrEn (s : Ctrl N A) : Bool :=
  match s.state with
  | .stream => skew N ≤ s.cyc && s.cyc - skew N < s.mRowsR
  | _ => false

def wrAddr (s : Ctrl N A) : BitVec A :=
  if s.wrEn then s.cBaseR + (s.cyc - skew N).setWidth A else 0

def pushValid (s : Ctrl N A) : Bool := s.state == .stream && s.cyc < s.mRowsR

def actPush (s : Ctrl N A) (rdData : Lanes8 N) : Lanes8 N :=
  fun r => if s.pushValid then rdData r else 0

/-- `act_skewed`, the activations handed to the array. -/
def actIn (s : Ctrl N A) (rdData : Lanes8 N) : Lanes8 N :=
  fun r => out (s.actPush rdData r) (s.rowSk r)

/-- `psum_aligned`. -/
def wrData (s : Ctrl N A) (psum : Lanes32 N) : Lanes32 N :=
  fun c => out (psum c) (s.colSk c)

/-- The main state machine; the delay lines shift only in `S_STREAM`. -/
def fsm (i : CtrlIn N A) (s : Ctrl N A) : Ctrl N A :=
  match s.state with
  | .idle =>
    if i.start then
      { s with wBaseR := i.cmd.wBase, aBaseR := i.cmd.aBase, cBaseR := i.cmd.cBase,
               mRowsR := i.cmd.mRows, li := 0, state := .loadAddr }
    else s
  | .loadAddr => { s with state := .loadData }
  | .loadData =>
    -- `rd_data` answers the strobe of the `S_LOAD_ADDR` cycle before
    let buf : Fin N → Lanes8 N := fun r => if r.val = s.li.toNat then i.rdData else s.weightBuf r
    if s.li = BitVec.ofNat A (N - 1) then { s with weightBuf := buf, state := .loadPulse }
    else { s with weightBuf := buf, li := s.li + 1, state := .loadAddr }
  | .loadPulse => { s with state := .prefetch }
  | .prefetch => { s with cyc := 0, state := .stream }
  | .stream =>
    if s.cyc = s.totalCycles - 1 then { s with state := .done } else { s with cyc := s.cyc + 1 }
  | .done => { s with done := true, state := .idle }

/-- One clock edge of `stream_ctrl`.  The reset leaves the latched parameters
and the weight buffer alone. -/
def step (i : CtrlIn N A) (s : Ctrl N A) : Ctrl N A :=
  if i.rst then
    { s with state := .idle, li := 0, cyc := 0, done := false,
             rowSk := fun _ _ => 0, colSk := fun _ _ => 0 }
  else
    let sk := if s.state = .stream then
        { s with rowSk := fun r => push (s.actPush i.rdData r) (s.rowSk r),
                 colSk := fun c => push (i.psumOut c) (s.colSk c) }
      else s
    -- `done <= 0` comes first in the source, and `S_DONE` overrides it
    fsm i { sk with done := false }

/-! ## One equation per state -/

section equations
variable {i : CtrlIn N A} {s : Ctrl N A}

theorem state_of_idle (h : s.busy = false) : s.state = .idle := by
  simpa [busy] using h

/-- An idle controller uses neither memory port. -/
theorem no_strobe (h : s.busy = false) : s.rdEn = false ∧ s.wrEn = false := by
  have hidle := state_of_idle h
  exact ⟨by simp [rdEn, hidle], by simp [wrEn, hidle]⟩

theorem step_rst (h : i.rst = true) :
    (step i s).state = .idle ∧ (step i s).done = false := by
  simp [step, h]

theorem step_idle (h : i.rst = false) (hs : s.state = .idle) (hst : i.start = false) :
    step i s = { s with done := false } := by
  simp [step, fsm, h, hs, hst]

theorem step_start (h : i.rst = false) (hs : s.state = .idle) (hst : i.start = true) :
    step i s = { s with wBaseR := i.cmd.wBase, aBaseR := i.cmd.aBase, cBaseR := i.cmd.cBase,
                        mRowsR := i.cmd.mRows, li := 0, state := .loadAddr, done := false } := by
  simp [step, fsm, h, hs, hst]

theorem step_loadAddr (h : i.rst = false) (hs : s.state = .loadAddr) :
    step i s = { s with state := .loadData, done := false } := by
  simp [step, fsm, h, hs]

/-- The weight buffer after row `li` was stored. -/
def storeRow (s : Ctrl N A) (rd : Lanes8 N) : Fin N → Lanes8 N :=
  fun r => if r.val = s.li.toNat then rd else s.weightBuf r

theorem step_loadData_last (h : i.rst = false) (hs : s.state = .loadData)
    (hl : s.li = BitVec.ofNat A (N - 1)) :
    step i s = { s with weightBuf := s.storeRow i.rdData, state := .loadPulse, done := false } := by
  simp only [step, h, hs, fsm, Bool.false_eq_true, if_false, reduceCtorEq]
  exact if_pos hl

theorem step_loadData_next (h : i.rst = false) (hs : s.state = .loadData)
    (hl : s.li ≠ BitVec.ofNat A (N - 1)) :
    step i s = { s with weightBuf := s.storeRow i.rdData, li := s.li + 1, state := .loadAddr,
                        done := false } := by
  simp only [step, h, hs, fsm, Bool.false_eq_true, if_false, reduceCtorEq]
  exact if_neg hl

theorem step_loadPulse (h : i.rst = false) (hs : s.state = .loadPulse) :
    step i s = { s with state := .prefetch, done := false } := by
  simp [step, fsm, h, hs]

theorem step_prefetch (h : i.rst = false) (hs : s.state = .prefetch) :
    step i s = { s with cyc := 0, state := .stream, done := false } := by
  simp [step, fsm, h, hs]

/-- The registers after both groups of delay lines were shifted. -/
def shifted (i : CtrlIn N A) (s : Ctrl N A) : Ctrl N A :=
  { s with rowSk := fun r => push (s.actPush i.rdData r) (s.rowSk r),
           colSk := fun c => push (i.psumOut c) (s.colSk c), done := false }

theorem step_stream_last (h : i.rst = false) (hs : s.state = .stream)
    (hl : s.cyc = s.totalCycles - 1) : step i s = { s.shifted i with state := .done } := by
  simp only [step, h, hs, fsm, Bool.false_eq_true, if_false, if_true]
  exact (if_pos hl).trans rfl

theorem step_stream_next (h : i.rst = false) (hs : s.state = .stream)
    (hl : s.cyc ≠ s.totalCycles - 1) : step i s = { s.shifted i with cyc := s.cyc + 1 } := by
  simp only [step, h, hs, fsm, Bool.false_eq_true, if_false, if_true]
  exact (if_neg hl).trans (by simp [shifted, hs])

/-- The delay lines shift in every streaming cycle, the last one included. -/
theorem step_stream_lines (h : i.rst = false) (hs : s.state = .stream) :
    (step i s).rowSk = (fun r => push (s.actPush i.rdData r) (s.rowSk r)) ∧
      (step i s).colSk = fun c => push (i.psumOut c) (s.colSk c) := by
  by_cases hl : s.cyc = s.totalCycles - 1
  · rw [step_stream_last h hs hl]
    exact ⟨rfl, rfl⟩
  · rw [step_stream_next h hs hl]
    exact ⟨rfl, rfl⟩

theorem step_done (h : i.rst = false) (hs : s.state = .done) :
    step i s = { s with done := true, state := .idle } := by
  simp [step, fsm, h, hs]

/-- The done pulse falls in an idle cycle. -/
theorem idle_of_done (h : i.rst = false) (hdone : (step i s).done = true) :
    (step i s).busy = false := by
  cases hs : s.state with
  | idle =>
    cases hst : i.start with
    | true => rw [step_start h hs hst] at hdone; cases hdone
    | false => rw [step_idle h hs hst] at hdone; cases hdone
  | loadAddr => rw [step_loadAddr h hs] at hdone; cases hdone
  | loadData =>
    by_cases hl : s.li = BitVec.ofNat A (N - 1)
    · rw [step_loadData_last h hs hl] at hdone; cases hdone
    · rw [step_loadData_next h hs hl] at hdone; cases hdone
  | loadPulse => rw [step_loadPulse h hs] at hdone; cases hdone
  | prefetch => rw [step_prefetch h hs] at hdone; cases hdone
  | stream =>
    by_cases hl : s.cyc = s.totalCycles - 1
    · rw [step_stream_last h hs hl] at hdone; cases hdone
    · rw [step_stream_next h hs hl] at hdone; cases hdone
  | done =>
    rw [step_done h hs]
    rfl

/-- Between the start and the last cycle of a command the latched parameters
stay, and no done pulse is raised. -/
theorem step_keeps (h : i.rst = false) (hidle : s.state ≠ .idle) (hlast : s.state ≠ .done) :
    (step i s).wBaseR = s.wBaseR ∧ (step i s).aBaseR = s.aBaseR ∧ (step i s).cBaseR = s.cBaseR ∧
      (step i s).mRowsR = s.mRowsR ∧ (step i s).done = false := by
  cases hs : s.state with
  | idle => exact absurd hs hidle
  | loadAddr => simp [step_loadAddr h hs]
  | loadData =>
    by_cases hl : s.li = BitVec.ofNat A (N - 1)
    · simp [step_loadData_last h hs hl]
    · simp [step_loadData_next h hs hl]
  | loadPulse => simp [step_loadPulse h hs]
  | prefetch => simp [step_prefetch h hs]
  | stream =>
    by_cases hl : s.cyc = s.totalCycles - 1
    · simp [step_stream_last h hs hl, shifted]
    · simp [step_stream_next h hs hl, shifted]
  | done => exact absurd hs hlast

theorem fsm_congr {i' : CtrlIn N A} (hs : s.state ≠ .idle) (hrd : i.rdData = i'.rdData) :
    fsm i s = fsm i' s := by
  unfold fsm
  rw [hrd]
  split
  · next hidle => exact absurd hidle hs
  all_goals rfl

/-- Outside `S_IDLE` the command port is not looked at. -/
theorem step_congr {i' : CtrlIn N A} (hs : s.state ≠ .idle) (hr : i.rst = i'.rst)
    (hrd : i.rdData = i'.rdData) (hp : i.psumOut = i'.psumOut) : step i s = step i' s := by
  simp only [step, hr, hrd, hp]
  refine if_congr Iff.rfl rfl (fsm_congr ?_ hrd)
  by_cases hst : s.state = .stream
  · simp [hst]
  · simpa [hst] using hs

end equations

/-! ## The course of a command -/

/-- Cycles of a command in `S_STREAM`: `cyc` counts from 0 to the 32-bit value
of `total_cycles - 1`. -/
def streamCycles (N : ℕ) (mRows : BitVec 32) : ℕ := (mRows + skew N - 1).toNat + 1

/-- `n` cycles after the start pulse of a command that streams for `T` cycles
the state machine stands here. -/
inductive Stage (T n : ℕ) (s : Ctrl N A) : Prop
  | loadAddr (l : ℕ) (hl : l < N) (hn : n = 2 * l + 1) (hst : s.state = .loadAddr)
      (hli : s.li.toNat = l)
  | loadData (l : ℕ) (hl : l < N) (hn : n = 2 * l + 2) (hst : s.state = .loadData)
      (hli : s.li.toNat = l)
  | loadPulse (hn : n = 2 * N + 1) (hst : s.state = .loadPulse)
  | prefetch (hn : n = 2 * N + 2) (hst : s.state = .prefetch)
  | stream (j : ℕ) (hj : j < T) (hn : n = 2 * N + 3 + j) (hst : s.state = .stream)
      (hcyc : s.cyc.toNat = j)
  | done (hn : n = 2 * N + 3 + T) (hst : s.state = .done)

/-- One cycle of a running command, whatever its parameters. -/
theorem Stage.step {i : CtrlIn N A} {s : Ctrl N A} {n T : ℕ} (hN : 0 < N) (hlanes : N ≤ 2 ^ A)
    (hT : streamCycles N s.mRowsR = T) (hr : i.rst = false) (h : Stage T n s)
    (hn : n < 2 * N + 3 + T) : Stage T (n + 1) (step i s) := by
  cases h with
  | loadAddr l hl hn' hst hli =>
    rw [step_loadAddr hr hst]
    exact .loadData l hl (by omega) rfl hli
  | loadData l hl hn' hst hli =>
    have hlast : s.li = BitVec.ofNat A (N - 1) ↔ l = N - 1 := by
      rw [← BitVec.toNat_inj, BitVec.toNat_ofNat, hli, Nat.mod_eq_of_lt (by omega)]
    by_cases hl' : l = N - 1
    · rw [step_loadData_last hr hst (hlast.mpr hl')]
      exact .loadPulse (by omega) rfl
    · rw [step_loadData_next hr hst (fun he => hl' (hlast.mp he))]
      refine .loadAddr (l + 1) (by omega) (by omega) rfl ?_
      -- `li` does not wrap: it is below `N - 1`, which has a value in `ADDR_W` bits
      have hone : 1 % 2 ^ A = 1 := Nat.mod_eq_of_lt (by omega)
      simp only [BitVec.ofNat_eq_ofNat, BitVec.toNat_add, hli, BitVec.toNat_ofNat, hone]
      exact Nat.mod_eq_of_lt (by omega)
  | loadPulse hn' hst =>
    rw [step_loadPulse hr hst]
    exact .prefetch (by omega) rfl
  | prefetch hn' hst =>
    rw [step_prefetch hr hst]
    refine .stream 0 ?_ (by omega) rfl rfl
    rw [← hT]
    exact Nat.succ_pos _
  | stream j hj hn' hst hcyc =>
    -- the stop test recognises the last of the `T` cycles
    have hlast : s.cyc = s.totalCycles - 1 ↔ j + 1 = T := by
      rw [← BitVec.toNat_inj, hcyc, ← hT]
      unfold streamCycles totalCycles
      omega
    by_cases hl : j + 1 = T
    · rw [step_stream_last hr hst (hlast.mpr hl)]
      exact .done (by omega) rfl
    · rw [step_stream_next hr hst (fun he => hl (hlast.mp he))]
      refine .stream (j + 1) (by omega) (by omega) hst ?_
      -- nor does `cyc`: the last cycle number is a 32-bit value
      have hbound : T ≤ 2 ^ 32 := by
        rw [← hT]
        exact BitVec.isLt _
      simp only [BitVec.ofNat_eq_ofNat, BitVec.toNat_add, hcyc, BitVec.toNat_ofNat]
      omega
  -- the cycle of `S_DONE` is the last one, excluded by `hn`
  | done hn' hst => omega

theorem Stage.state_ne {s : Ctrl N A} {n T : ℕ} (h : Stage T n s) (hn : n < 2 * N + 3 + T) :
    s.state ≠ .idle ∧ s.state ≠ .done := by
  cases h with
  | done hn' _ => omega
  | loadAddr _ _ _ hst _ => simp [hst]
  | loadData _ _ _ hst _ => simp [hst]
  | loadPulse _ hst => simp [hst]
  | prefetch _ hst => simp [hst]
  | stream _ _ _ hst _ => simp [hst]

/-- `n` cycles after the start pulse of a command of `m` rows the state machine
stands here. -/
inductive Phase (m n : ℕ) (s : Ctrl N A) : Prop
  | loadAddr (l : ℕ) (hl : l < N) (hn : n = 2 * l + 1) (hst : s.state = .loadAddr)
      (hli : s.li.toNat = l)
  | loadData (l : ℕ) (hl : l < N) (hn : n = 2 * l + 2) (hst : s.state = .loadData)
      (hli : s.li.toNat = l)
  | loadPulse (hn : n = 2 * N + 1) (hst : s.state = .loadPulse)
  | prefetch (hn : n = 2 * N + 2) (hst : s.state = .prefetch)
  | stream (j : ℕ) (hj : j + 1 < m + 2 * N) (hn : n = 2 * N + 3 + j) (hst : s.state = .stream)
      (hcyc : s.cyc.toNat = j)
  | done (hn : n = 4 * N + m + 2) (hst : s.state = .done)

/-- What the parameters and the row count must satisfy for the 32-bit and
`ADDR_W`-bit counters to reach their bounds. -/
structure Fits (N A m : ℕ) : Prop where
  pos : 0 < N
  lanes : N ≤ 2 ^ A
  rows : m + (2 * N - 1) ≤ 2 ^ 32

section course
variable {i : CtrlIn N A} {s : Ctrl N A} {m n : ℕ}

theorem Phase.busy (h : Phase m n s) : s.busy = true := by
  cases h <;> simp_all [Ctrl.busy]

/-- The last streaming cycle is the one the stop test recognises, also when the
32-bit sum `total_cycles` wraps to 0. -/
theorem last_cycle_iff (hf : Fits N A m) (hm : s.mRowsR.toNat = m) {j : ℕ} (hj : j + 1 < m + 2 * N)
    (hcyc : s.cyc.toNat = j) : s.cyc = s.totalCycles - 1 ↔ j + 2 = m + 2 * N := by
  have hpos := hf.pos
  have hrows := hf.rows
  rw [← BitVec.toNat_inj]
  simp only [totalCycles, skew, BitVec.ofNat_eq_ofNat, BitVec.toNat_sub, BitVec.toNat_add,
    BitVec.toNat_ofNat, hm, hcyc]
  omega

/-- The sum that fits, or wraps to 0, gives a streaming cycle for each row and
each stage of the skew. -/
theorem streamCycles_eq (hf : Fits N A m) (hm : s.mRowsR.toNat = m) :
    streamCycles N s.mRowsR = m + (2 * N - 1) := by
  have hpos := hf.pos
  have hrows := hf.rows
  unfold streamCycles skew
  simp only [BitVec.ofNat_eq_ofNat, BitVec.toNat_sub, BitVec.toNat_add, BitVec.toNat_ofNat, hm]
  omega

/-- A phase is a stage of a command that streams that long. -/
theorem phase_iff_stage (hN : 0 < N) : Phase m n s ↔ Stage (m + (2 * N - 1)) n s := by
  constructor
  · intro h
    cases h with
    | loadAddr l hl hn hst hli => exact .loadAddr l hl hn hst hli
    | loadData l hl hn hst hli => exact .loadData l hl hn hst hli
    | loadPulse hn hst => exact .loadPulse hn hst
    | prefetch hn hst => exact .prefetch hn hst
    | stream j hj hn hst hcyc => exact .stream j (by omega) hn hst hcyc
    | done hn hst => exact .done (by omega) hst
  · intro h
    cases h with
    | loadAddr l hl hn hst hli => exact .loadAddr l hl hn hst hli
    | loadData l hl hn hst hli => exact .loadData l hl hn hst hli
    | loadPulse hn hst => exact .loadPulse hn hst
    | prefetch hn hst => exact .prefetch hn hst
    | stream j hj hn hst hcyc => exact .stream j (by omega) hn hst hcyc
    | done hn hst => exact .done (by omega) hst

/-- One cycle of a running command. -/
theorem Phase.step (hf : Fits N A m) (hm : s.mRowsR.toNat = m) (hr : i.rst = false)
    (h : Phase m n s) (hn : n < 4 * N + m + 2) : Phase m (n + 1) (step i s) := by
  have hpos := hf.pos
  rw [phase_iff_stage hpos] at *
  exact h.step hpos hf.lanes (streamCycles_eq hf hm) hr (by omega)

/-- The port writes row `k` exactly `4N + 2 + k` cycles after the start pulse. -/
theorem Phase.wrEn_iff (hf : Fits N A m) (hm : s.mRowsR.toNat = m) (h : Phase m n s) :
    s.wrEn = true ↔ 4 * N + 2 ≤ n ∧ n < 4 * N + 2 + m := by
  have hpos := hf.pos
  have hrows := hf.rows
  cases h with
  -- row `k` leaves in streaming cycle `k + 2N - 1`
  | stream j hj hn hst hcyc =>
    have hskew : (skew N).toNat = 2 * N - 1 := by
      rw [skew, BitVec.toNat_ofNat]; omega
    simp only [wrEn, hst, Bool.and_eq_true, decide_eq_true_eq, BitVec.le_def, BitVec.lt_def,
      BitVec.toNat_sub, hskew, hcyc, hm]
    omega
  | loadAddr l hl hn hst _ => simp only [wrEn, hst]; simp; omega
  | loadData l hl hn hst _ => simp only [wrEn, hst]; simp; omega
  | loadPulse hn hst => simp only [wrEn, hst]; simp; omega
  | prefetch hn hst => simp only [wrEn, hst]; simp; omega
  | done hn hst => simp only [wrEn, hst]; simp; omega

/-- Command `c` was started `n` cycles ago and still runs. -/
structure Running (c : Cmd A) (n : ℕ) (s : Ctrl N A) : Prop where
  phase : Phase c.mRows.toNat n s
  wBaseR : s.wBaseR = c.wBase
  aBaseR : s.aBaseR = c.aBase
  cBaseR : s.cBaseR = c.cBase
  mRowsR : s.mRowsR = c.mRows
  undone : s.done = false

variable {c : Cmd A}

theorem Running.rows (h : Running c n s) : s.mRowsR.toNat = c.mRows.toNat := by rw [h.mRowsR]

/-- An accepted start pulse. -/
theorem running_start (hN : 0 < N) (hr : i.rst = false) (hidle : s.busy = false)
    (hst : i.start = true) : Running i.cmd 1 (Ctrl.step i s) := by
  rw [step_start hr (state_of_idle hidle) hst]
  exact ⟨.loadAddr 0 hN rfl rfl rfl, rfl, rfl, rfl, rfl, rfl⟩

/-- Until it returns to idle the state machine raises no done pulse and keeps
the parameters it latched. -/
theorem Running.step (hf : Fits N A c.mRows.toNat) (hr : i.rst = false) (h : Running c n s)
    (hn : n < 4 * N + c.mRows.toNat + 2) : Running c (n + 1) (Ctrl.step i s) := by
  have hstate := ((phase_iff_stage hf.pos).mp h.phase).state_ne (by have := hf.pos; omega)
  have hkeep := step_keeps (i := i) hr hstate.1 hstate.2
  obtain ⟨hw, ha, hc, hm, hd⟩ := hkeep
  exact ⟨h.phase.step hf h.rows hr hn, hw.trans h.wBaseR, ha.trans h.aBaseR, hc.trans h.cBaseR,
    hm.trans h.mRowsR, hd⟩

/-- In the last cycle of a command only the state and `done` change. -/
theorem Running.last (hN : 0 < N) (hr : i.rst = false)
    (h : Running c (4 * N + c.mRows.toNat + 2) s) :
    Ctrl.step i s = { s with done := true, state := .idle } := by
  cases h.phase with
  | done _ hst => exact step_done hr hst
  | _ => omega

end course

end Ctrl

/-- `stream_ctrl` wired to `systolic_array`. -/
structure Core (N A : ℕ) where
  ctrl : Ctrl N A
  array : Grid N

/-- What the surroundings drive: the command port and the read data. -/
structure CoreIn (N A : ℕ) where
  rst : Bool
  start : Bool
  cmd : Cmd A
  rdData : Lanes8 N

namespace Core

def wrData (s : Core N A) : Lanes32 N := s.ctrl.wrData (psumOut s.array)

/-- The ports of `u_ctrl`. -/
def ctrlIn (i : CoreIn N A) (s : Core N A) : CtrlIn N A where
  rst := i.rst
  start := i.start
  cmd := i.cmd
  rdData := i.rdData
  psumOut := psumOut s.array

def step (i : CoreIn N A) (s : Core N A) : Core N A where
  ctrl := Ctrl.step (ctrlIn i s) s.ctrl
  array := SystolicArray.step { rst := i.rst, weightLoad := s.ctrl.weightLoad,
                                weightIn := s.ctrl.weightBuf,
                                actIn := s.ctrl.actIn i.rdData } s.array

/-- All registers zero. -/
def zero (N A : ℕ) : Core N A where
  ctrl :=
    { state := .idle, li := 0, cyc := 0, done := false, wBaseR := 0, aBaseR := 0, cBaseR := 0, mRowsR := 0,
      weightBuf := fun _ _ => 0, rowSk := fun _ _ => 0, colSk := fun _ _ => 0 }
  array := fun _ _ => ⟨0, 0, 0⟩

end Core

end StreamCtrl
