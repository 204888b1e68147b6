import TensorAccel.Stream.Pipeline

/-! # The stream top

    Translation of `rtl/sim_ram.sv` and `rtl/stream_top.sv`, and the abstract
    meaning of a command (`Cmd.exec`): it stores its product rows in the result
    RAM and changes nothing else. -/

open Clocked SystolicArray

namespace StreamCtrl

open Ctrl (Fits Phase Running)

variable {N A : ℕ}

/-! ## Commands -/

namespace Cmd

/-- Weight row `i` of a command. -/
def weight (mem : BitVec A → Lanes8 N) (c : Cmd A) (i : Fin N) : Lanes8 N :=
  mem (c.wBase + BitVec.ofNat A i.val)

/-- Activation row `k` of a command. -/
def act (mem : BitVec A → Lanes8 N) (c : Cmd A) (k : ℕ) : Lanes8 N :=
  mem (c.aBase + BitVec.ofNat A k)

/-- The result rows of a command with their addresses, in order. -/
def writes (mem : BitVec A → Lanes8 N) (c : Cmd A) : List (BitVec A × Lanes32 N) :=
  (List.range c.mRows.toNat).map fun k =>
    (c.cBase + BitVec.ofNat A k, productRow (c.weight mem) (c.act mem k))

end Cmd

/-- The result RAM after a sequence of writes. -/
def store (ram : BitVec A → Lanes32 N) (ws : List (BitVec A × Lanes32 N)) : BitVec A → Lanes32 N :=
  ws.foldl (fun ram w => Function.update ram w.1 w.2) ram

/-- The effect of a command on the result RAM. -/
def Cmd.exec (mem : BitVec A → Lanes8 N) (c : Cmd A) (ram : BitVec A → Lanes32 N) :
    BitVec A → Lanes32 N :=
  store ram (c.writes mem)

/-- The words a command reads, in the order of its read strobes. -/
def Cmd.words (mem : BitVec A → Lanes8 N) (c : Cmd A) (j : ℕ) : Lanes8 N :=
  if j < N then mem (c.wBase + BitVec.ofNat A j) else mem (c.aBase + BitVec.ofNat A (j - N))

theorem Cmd.resultRow_words (mem : BitVec A → Lanes8 N) (c : Cmd A) (k : ℕ) :
    resultRow (c.words mem) k = productRow (c.weight mem) (c.act mem k) := by
  have hweight : (fun i : Fin N => c.words mem i.val) = c.weight mem := by
    funext i
    simp [words, weight, i.isLt]
  rw [resultRow, hweight]
  simp [words, act]

theorem Cmd.writes_length (mem : BitVec A → Lanes8 N) (c : Cmd A) :
    (c.writes mem).length = c.mRows.toNat := by
  simp [writes]

/-! ## Model -/

/-- Contents and output register of a `sim_ram`. -/
structure SimRam (A : ℕ) (Word : Type) where
  mem : BitVec A → Word
  rdData : Word

/-- One clock edge of `sim_ram`: the read sees the word before the write. -/
def SimRam.step {Word : Type} (addr : BitVec A) (we re : Bool) (wrData : Word)
    (s : SimRam A Word) : SimRam A Word where
  mem := if we then Function.update s.mem addr wrData else s.mem
  rdData := if re then s.mem addr else s.rdData

/-- Registers and memories of `stream_top`. -/
structure StreamTop (N A : ℕ) where
  core : Core N A
  ramAw : SimRam A (Lanes8 N)
  ramC : SimRam A (Lanes32 N)

/-- The command port of `stream_top`, and the contents of `u_ram_aw`: no port
writes them, a test bench sets them through its back door. -/
structure TopIn (N A : ℕ) where
  rst : Bool
  start : Bool
  cmd : Cmd A
  awMem : BitVec A → Lanes8 N

namespace StreamTop

/-- The inputs of `u_ctrl` and `u_array`. -/
def coreIn (i : TopIn N A) (s : StreamTop N A) : CoreIn N A where
  rst := i.rst
  start := i.start
  cmd := i.cmd
  rdData := s.ramAw.rdData

/-- One clock edge of `stream_top`. -/
def step (i : TopIn N A) (s : StreamTop N A) : StreamTop N A where
  core := Core.step (coreIn i s) s.core
  ramAw := SimRam.step s.core.ctrl.rdAddr false s.core.ctrl.rdEn (fun _ => 0)
    { s.ramAw with mem := i.awMem }
  ramC := SimRam.step s.core.ctrl.wrAddr s.core.ctrl.wrEn false s.core.wrData s.ramC

def busy (s : StreamTop N A) : Bool := s.core.ctrl.busy

def done (s : StreamTop N A) : Bool := s.core.ctrl.done

/-- What the result port writes in a cycle. -/
def wrEvent (s : StreamTop N A) : Option (BitVec A × Lanes32 N) :=
  if s.core.ctrl.wrEn then some (s.core.ctrl.wrAddr, s.core.wrData) else none

theorem step_ramC (i : TopIn N A) (s : StreamTop N A) :
    (step i s).ramC.mem = store s.ramC.mem s.wrEvent.toList := by
  cases h : s.core.ctrl.wrEn <;> simp [step, SimRam.step, wrEvent, store, h]

theorem wrEvent_idle {s : StreamTop N A} (h : s.busy = false) : s.wrEvent = none := by
  simp [wrEvent, (Ctrl.no_strobe h).2]

/-! ## The course of a command -/

/-- The state `n` cycles after the start pulse of command `c`, for `1 ≤ n`;
`ram₀` is the result RAM at the start. -/
structure Course (mem : BitVec A → Lanes8 N) (c : Cmd A) (ram₀ : BitVec A → Lanes32 N) (n : ℕ)
    (s : StreamTop N A) : Prop where
  running : Running c n s.core.ctrl
  data : Data (c.words mem) c.mRows.toNat s.core s.ramAw.rdData
  ramC : s.ramC.mem = store ram₀ ((c.writes mem).take (n - (4 * N + 2)))

section course
variable {mem : BitVec A → Lanes8 N} {c : Cmd A} {ram₀ : BitVec A → Lanes32 N} {n : ℕ}
  {s : StreamTop N A} {i : TopIn N A}

/-- `u_ram_aw` answers a strobe with the word the command asks for. -/
theorem Course.feed (h : Course mem c ram₀ n s) (hmem : i.awMem = mem)
    (hen : s.core.ctrl.rdEn = true) (hidx : readsBefore N c.mRows.toNat n < N + c.mRows.toNat) :
    (step i s).ramAw.rdData = c.words mem (readsBefore N c.mRows.toNat n) := by
  have hread : (step i s).ramAw.rdData = mem s.core.ctrl.rdAddr := by
    simp [step, SimRam.step, hen, hmem]
  rw [hread]
  cases h.running.phase with
  | loadAddr l hl hn hst hli =>
    have hl' : readsBefore N c.mRows.toNat n = l := by rw [hn, readsBefore_load hl]
    rw [hl', Cmd.words, if_pos hl, Ctrl.rdAddr, hst]
    simp only [h.running.wBaseR, ← hli, BitVec.ofNat_toNat, BitVec.setWidth_eq]
  | prefetch hn hst =>
    have hl' : readsBefore N c.mRows.toNat n = N := by rw [hn, readsBefore_prefetch]
    rw [hl', Cmd.words, if_neg (lt_irrefl N), Ctrl.rdAddr, hst]
    simp [h.running.aBaseR]
  | stream j hj hn hst hcyc =>
    -- the word asked for is one of the command, so cycle `j + 1` still has a row
    have hjm : j + 1 < c.mRows.toNat := by
      rw [hn, readsBefore, if_neg (by omega)] at hidx
      omega
    have hl' : readsBefore N c.mRows.toNat n = N + (j + 1) := by rw [hn, readsBefore_stream N hjm]
    have hmlt := c.mRows.isLt
    have hwidth : (s.core.ctrl.cyc + 1).setWidth A = BitVec.ofNat A (j + 1) := by
      apply BitVec.eq_of_toNat_eq
      simp [hcyc, Nat.mod_eq_of_lt (show j + 1 < 4294967296 by omega)]
    rw [hl', Cmd.words, if_neg (by omega), Ctrl.rdAddr, hst, Nat.add_sub_cancel_left]
    simp only [h.running.aBaseR, hwidth]
  | loadData _ _ _ hst _ => simp [Ctrl.rdEn, hst] at hen
  | loadPulse _ hst => simp [Ctrl.rdEn, hst] at hen
  | done _ hst => simp [Ctrl.rdEn, hst] at hen

/-- The result port in each cycle of a command. -/
theorem Course.event (hf : Fits N A c.mRows.toNat) (h : Course mem c ram₀ n s) :
    s.wrEvent = if 4 * N + 2 ≤ n then (c.writes mem)[n - (4 * N + 2)]? else none := by
  have hen := h.running.phase.wrEn_iff hf h.running.rows
  by_cases hwr : s.core.ctrl.wrEn = true
  · obtain ⟨hlo, hhi⟩ := hen.mp hwr
    have hk : n - (4 * N + 2) < c.mRows.toNat := by omega
    have hdata := h.data.wrData hf h.running.phase hk (by omega)
    have haddr : s.core.ctrl.wrAddr = c.cBase + BitVec.ofNat A (n - (4 * N + 2)) := by
      rw [Ctrl.wrAddr, if_pos hwr, h.running.cBaseR]
      congr 1
      cases h.running.phase with
      | stream j hj hn hst hcyc =>
        have hpos := hf.pos
        have hrows := hf.rows
        apply BitVec.eq_of_toNat_eq
        -- the row number is `cyc` less the skew, and the skew has passed
        have hsub : (s.core.ctrl.cyc - Ctrl.skew N).toNat = n - (4 * N + 2) := by
          simp only [Ctrl.skew, BitVec.toNat_sub, BitVec.toNat_ofNat, hcyc]
          omega
        rw [BitVec.toNat_setWidth, hsub, BitVec.toNat_ofNat]
      | loadAddr _ _ _ hst _ => simp [Ctrl.wrEn, hst] at hwr
      | loadData _ _ _ hst _ => simp [Ctrl.wrEn, hst] at hwr
      | loadPulse _ hst => simp [Ctrl.wrEn, hst] at hwr
      | prefetch _ hst => simp [Ctrl.wrEn, hst] at hwr
      | done _ hst => simp [Ctrl.wrEn, hst] at hwr
    rw [if_pos hlo, wrEvent, if_pos hwr, haddr, hdata, Cmd.resultRow_words]
    simp [Cmd.writes, hk]
  · have hoff : ¬ (4 * N + 2 ≤ n ∧ n < 4 * N + 2 + c.mRows.toNat) := mt hen.mpr hwr
    rw [wrEvent, if_neg hwr]
    split
    · exact (List.getElem?_eq_none (by rw [Cmd.writes_length]; omega)).symm
    · rfl

/-- The start pulse. -/
theorem course_start (hr : i.rst = false) (hidle : s.busy = false) (hst : i.start = true)
    (hN : 0 < N) : Course mem i.cmd s.ramC.mem 1 (step i s) := by
  have hidle' := Ctrl.state_of_idle hidle
  have hctrl : (step i s).core.ctrl = _ :=
    Ctrl.step_start (i := Core.ctrlIn (coreIn i s) s.core) hr hidle' hst
  have hnone := wrEvent_idle hidle
  refine ⟨Ctrl.running_start (i := Core.ctrlIn (coreIn i s) s.core) hN hr hidle hst, ?_, ?_⟩
  · simp only [Data, hctrl]
    intro r hlt
    simp at hlt
  · rw [step_ramC, hnone]
    simp [store]

/-- One cycle of a running command. -/
theorem Course.step (hf : Fits N A c.mRows.toNat) (hr : i.rst = false) (hmem : i.awMem = mem)
    (h : Course mem c ram₀ n s) (hn : n < 4 * N + c.mRows.toNat + 2) :
    Course mem c ram₀ (n + 1) (step i s) := by
  refine ⟨h.running.step hf hr hn, ?_, ?_⟩
  · exact h.data.step hf h.running.rows hr h.running.phase hn (fun hen hidx => h.feed hmem hen hidx)
  · rw [step_ramC, h.event hf, h.ramC]
    by_cases hlo : 4 * N + 2 ≤ n
    · rw [if_pos hlo, show n + 1 - (4 * N + 2) = n - (4 * N + 2) + 1 by omega, List.take_add_one,
        store, store, store, List.foldl_append]
    · rw [if_neg hlo, show n + 1 - (4 * N + 2) = 0 by omega, show n - (4 * N + 2) = 0 by omega]
      rfl

/-- The cycle in which the command returns to idle. -/
theorem Course.last (hf : Fits N A c.mRows.toNat) (hr : i.rst = false)
    (h : Course mem c ram₀ (4 * N + c.mRows.toNat + 2) s) :
    (StreamTop.step i s).busy = false ∧ (StreamTop.step i s).done = true ∧
      (StreamTop.step i s).ramC.mem = c.exec mem ram₀ := by
  have hctrl : (StreamTop.step i s).core.ctrl = _ :=
    h.running.last (i := Core.ctrlIn (coreIn i s) s.core) hf.pos hr
  refine ⟨by simp [busy, Ctrl.busy, hctrl], by simp [done, hctrl], ?_⟩
  have hlen := Cmd.writes_length mem c
  rw [step_ramC, h.event hf, if_pos (by omega), h.ramC,
    List.getElem?_eq_none (by omega), List.take_of_length_le (by omega)]
  rfl

end course

/-! ## Runs -/

/-- Cycles from the start pulse of a command to its done pulse. -/
def latency (N : ℕ) (c : Cmd A) : ℕ := 4 * N + c.mRows.toNat + 3

section runs
variable {p : StreamTop N A} {i : ℕ → TopIn N A} {s : ℕ}

/-- A start pulse in a cycle in which `busy` is low. -/
def Accepts (p : StreamTop N A) (i : ℕ → TopIn N A) (s : ℕ) : Prop :=
  (i s).start = true ∧ (run step p i s).busy = false

theorem running_run (hN : 0 < N) (hf : Fits N A (i s).cmd.mRows.toNat)
    (hrun : ∀ t, s ≤ t → (i t).rst = false) (hs : Accepts p i s) :
    ∀ n, 1 ≤ n → n ≤ 4 * N + (i s).cmd.mRows.toNat + 2 →
      Running (i s).cmd n (run step p i (s + n)).core.ctrl := by
  intro n hn
  induction n, hn using Nat.le_induction with
  | base =>
    intro _
    exact Ctrl.running_start (i := Core.ctrlIn (coreIn (i s) (run step p i s)) (run step p i s).core)
      hN (hrun s le_rfl) hs.2 hs.1
  | succ n _ ih =>
    intro hle
    exact (ih (by omega)).step (i := Core.ctrlIn (coreIn (i (s + n)) (run step p i (s + n)))
      (run step p i (s + n)).core) hf (hrun (s + n) (by omega)) (by omega)

theorem done_run (hN : 0 < N) (hf : Fits N A (i s).cmd.mRows.toNat)
    (hrun : ∀ t, s ≤ t → (i t).rst = false) (hs : Accepts p i s) :
    (run step p i (s + latency N (i s).cmd)).busy = false ∧
      (run step p i (s + latency N (i s).cmd)).done = true := by
  have hlast := running_run hN hf hrun hs _ (by omega) le_rfl
  have hctrl : (run step p i (s + latency N (i s).cmd)).core.ctrl = _ :=
    hlast.last (i := Core.ctrlIn (coreIn _ _) _) hN (hrun _ (Nat.le_add_right s _))
  exact ⟨by simp [busy, Ctrl.busy, hctrl], by simp [done, hctrl]⟩

/-- Between the start and the done pulse `busy` is high and `done` is low. -/
theorem busy_run (hN : 0 < N) (hf : Fits N A (i s).cmd.mRows.toNat)
    (hrun : ∀ t, s ≤ t → (i t).rst = false) (hs : Accepts p i s) {t : ℕ} (hst : s < t)
    (htl : t < s + latency N (i s).cmd) :
    (run step p i t).busy = true ∧ (run step p i t).done = false := by
  have hrunning := running_run hN hf hrun hs (t - s) (by omega) (by rw [latency] at htl; omega)
  rw [show s + (t - s) = t by omega] at hrunning
  exact ⟨hrunning.phase.busy, hrunning.undone⟩

theorem course_run {mem : BitVec A → Lanes8 N} (hN : 0 < N) (hf : Fits N A (i s).cmd.mRows.toNat)
    (hrun : ∀ t, s ≤ t → (i t).rst = false) (hs : Accepts p i s)
    (hmem : ∀ t, s < t → t < s + latency N (i s).cmd → (i t).awMem = mem) :
    ∀ n, 1 ≤ n → n ≤ 4 * N + (i s).cmd.mRows.toNat + 2 →
      Course mem (i s).cmd (run step p i s).ramC.mem n (run step p i (s + n)) := by
  intro n hn
  induction n, hn using Nat.le_induction with
  | base => exact fun _ => course_start (hrun s le_rfl) hs.2 hs.1 hN
  | succ n _ ih =>
    intro hle
    exact (ih (by omega)).step hf (hrun (s + n) (by omega))
      (hmem (s + n) (by omega) (by rw [latency]; omega)) (by omega)

/-- The events of the result port since the start of a command. -/
theorem events_run {mem : BitVec A → Lanes8 N} (hN : 0 < N) (hf : Fits N A (i s).cmd.mRows.toNat)
    (hrun : ∀ t, s ≤ t → (i t).rst = false) (hs : Accepts p i s)
    (hmem : ∀ t, s < t → t < s + latency N (i s).cmd → (i t).awMem = mem) :
    ∀ n, 1 ≤ n → n ≤ latency N (i s).cmd →
      eventsIn (fun t => (run step p i t).wrEvent) s (s + n) =
        ((i s).cmd.writes mem).take (n - (4 * N + 2)) := by
  intro n hn
  induction n, hn using Nat.le_induction with
  | base =>
    intro _
    have hnone := wrEvent_idle hs.2
    rw [eventsIn_succ _ le_rfl, hnone, show 1 - (4 * N + 2) = 0 by omega]
    simp
  | succ n hn ih =>
    intro hle
    have hcourse := course_run hN hf hrun hs hmem n hn (by rw [latency] at hle; omega)
    rw [← Nat.add_assoc, eventsIn_succ _ (Nat.le_add_right s n), ih (by omega), hcourse.event hf]
    by_cases hlo : 4 * N + 2 ≤ n
    · rw [if_pos hlo, show n + 1 - (4 * N + 2) = n - (4 * N + 2) + 1 by omega, List.take_add_one]
    · rw [if_neg hlo, show n + 1 - (4 * N + 2) = 0 by omega, show n - (4 * N + 2) = 0 by omega]
      rfl

/-- From an accepted start to the done pulse the result port writes the rows of
the command, and the result RAM changes by exactly these. -/
theorem command_run {mem : BitVec A → Lanes8 N} (hN : 0 < N) (hf : Fits N A (i s).cmd.mRows.toNat)
    (hrun : ∀ t, s ≤ t → (i t).rst = false) (hs : Accepts p i s)
    (hmem : ∀ t, s < t → t < s + latency N (i s).cmd → (i t).awMem = mem) :
    eventsIn (fun t => (run step p i t).wrEvent) s (s + latency N (i s).cmd) = (i s).cmd.writes mem ∧
    (run step p i (s + latency N (i s).cmd)).ramC.mem =
      (i s).cmd.exec mem (run step p i s).ramC.mem := by
  constructor
  · rw [events_run hN hf hrun hs hmem _ (by rw [latency]; omega) le_rfl, List.take_of_length_le]
    rw [Cmd.writes_length, latency]
    omega
  · have hcourse := course_run hN hf hrun hs hmem _ (by omega) le_rfl
    exact (hcourse.last hf (hrun _ (Nat.le_add_right s _))).2.2

/-- While no command runs the result port is silent. -/
theorem idle_silent {s : StreamTop N A} (i : TopIn N A) (h : s.busy = false) :
    s.wrEvent = none ∧ (step i s).ramC.mem = s.ramC.mem := by
  have hnone := wrEvent_idle h
  refine ⟨hnone, ?_⟩
  rw [step_ramC, hnone]
  rfl

theorem busy_after_reset {s : StreamTop N A} {i : TopIn N A} (hr : i.rst = true) :
    (step i s).busy = false ∧ (step i s).done = false := by
  have h := Ctrl.step_rst (i := Core.ctrlIn (coreIn i s) s.core) (s := s.core.ctrl) hr
  exact ⟨by simp [busy, Ctrl.busy, step, Core.step, h.1], h.2⟩

/-- An idle cycle without a start pulse. -/
theorem stays_idle {s : StreamTop N A} {i : TopIn N A} (hr : i.rst = false) (h : s.busy = false)
    (hst : i.start = false) : (step i s).busy = false ∧ (step i s).done = false := by
  have hidle := Ctrl.state_of_idle h
  have hctrl : (step i s).core.ctrl = _ :=
    Ctrl.step_idle (i := Core.ctrlIn (coreIn i s) s.core) hr hidle hst
  simp [busy, done, Ctrl.busy, hctrl, hidle]

/-- While a command runs the command port is not looked at. -/
theorem busy_ignores_start {s : StreamTop N A} (h : s.busy = true) (i : TopIn N A)
    (start : Bool) (cmd : Cmd A) :
    step { i with start := start, cmd := cmd } s = step i s := by
  have hne : s.core.ctrl.state ≠ .idle := by simpa [busy, Ctrl.busy] using h
  have hctrl : Ctrl.step (Core.ctrlIn (coreIn { i with start := start, cmd := cmd } s) s.core)
      s.core.ctrl = Ctrl.step (Core.ctrlIn (coreIn i s) s.core) s.core.ctrl :=
    Ctrl.step_congr hne rfl rfl rfl
  simp only [step, Core.step, hctrl]
  rfl

/-- A cycle in which `busy` is high lies inside an accepted command. -/
theorem busy_inside {r : ℕ} (hN : 0 < N) (hr : (i r).rst = true)
    (hrun : ∀ t, r < t → (i t).rst = false)
    (hf : ∀ t, r < t → Accepts p i t → Fits N A (i t).cmd.mRows.toNat) :
    ∀ t, r < t → (run step p i t).busy = true →
      ∃ s, r < s ∧ s < t ∧ t < s + latency N (i s).cmd ∧ Accepts p i s := by
  intro t ht
  induction t, ht using Nat.le_induction with
  | base =>
    intro hbusy
    rw [run_succ, (busy_after_reset hr).1] at hbusy
    cases hbusy
  | succ t ht ih =>
    intro hbusy
    by_cases hb : (run step p i t).busy = true
    · obtain ⟨s, hrs, hst, htl, hacc⟩ := ih hb
      refine ⟨s, hrs, by omega, ?_, hacc⟩
      by_contra hge
      -- otherwise the cycle is the one of the done pulse, in which `busy` is low
      have hdone := done_run hN (hf s hrs hacc) (fun u hu => hrun u (by omega)) hacc
      rw [show s + latency N (i s).cmd = t + 1 by omega, hbusy] at hdone
      exact absurd hdone.1 (by simp)
    · have hb' : (run step p i t).busy = false := by simpa using hb
      refine ⟨t, ht, Nat.lt_succ_self t, by rw [latency]; omega, ?_, hb'⟩
      by_contra hst
      have hidle := (stays_idle (hrun t ht) hb' (Bool.eq_false_iff.mpr hst)).1
      rw [run_succ, hidle] at hbusy
      cases hbusy

end runs

/-- **Correctness of the stream top.**  After a reset, for any sequence of
commands and idle gaps: a command accepted in cycle `s` pulses `done` exactly
`4N + m + 3` cycles later and is busy until then; in between the result port
writes the product rows `0, ..., m - 1` once each and in order, so that the
result RAM is the one before with the command executed.  Outside commands the
port is silent, and a start pulse while `busy` is ignored. -/
theorem stream_top_executes (hN : 0 < N) (hA : N ≤ 2 ^ A) (p : StreamTop N A) (i : ℕ → TopIn N A)
    {r : ℕ} (hr : (i r).rst = true) (hrun : ∀ t, r < t → (i t).rst = false)
    (hrows : ∀ t, r < t → Accepts p i t → (i t).cmd.mRows.toNat + (2 * N - 1) ≤ 2 ^ 32) :
    (∀ s, r < s → Accepts p i s →
      (∀ t, s < t → t < s + latency N (i s).cmd →
        (run step p i t).busy = true ∧ (run step p i t).done = false) ∧
      (run step p i (s + latency N (i s).cmd)).busy = false ∧
      (run step p i (s + latency N (i s).cmd)).done = true ∧
      ∀ mem, (∀ t, s < t → t < s + latency N (i s).cmd → (i t).awMem = mem) →
        eventsIn (fun t => (run step p i t).wrEvent) s (s + latency N (i s).cmd) =
          (i s).cmd.writes mem ∧
        (run step p i (s + latency N (i s).cmd)).ramC.mem =
          (i s).cmd.exec mem (run step p i s).ramC.mem) ∧
    (∀ t, r < t → (run step p i t).busy = true →
      ∃ s, r < s ∧ s < t ∧ t < s + latency N (i s).cmd ∧ Accepts p i s) ∧
    (∀ t, r < t → (run step p i t).busy = false →
      (run step p i t).wrEvent = none ∧
        (run step p i (t + 1)).ramC.mem = (run step p i t).ramC.mem) ∧
    (∀ t, (run step p i t).busy = true → ∀ start cmd,
      step { i t with start := start, cmd := cmd } (run step p i t) = run step p i (t + 1)) := by
  have hf : ∀ t, r < t → Accepts p i t → Fits N A (i t).cmd.mRows.toNat :=
    fun t ht hacc => ⟨hN, hA, hrows t ht hacc⟩
  refine ⟨?_, busy_inside hN hr hrun hf, fun t _ hb => idle_silent (i t) hb,
    fun t hb start cmd => busy_ignores_start hb (i t) start cmd⟩
  intro s hrs hacc
  have hrun' : ∀ t, s ≤ t → (i t).rst = false := fun t ht => hrun t (by omega)
  have hdone := done_run hN (hf s hrs hacc) hrun' hacc
  exact ⟨fun t hst htl => busy_run hN (hf s hrs hacc) hrun' hacc hst htl, hdone.1, hdone.2,
    fun mem hmem => command_run hN (hf s hrs hacc) hrun' hacc hmem⟩

/-- All registers and memories zero. -/
def zeroTop (N A : ℕ) : StreamTop N A := ⟨Core.zero N A, ⟨fun _ _ => 0, fun _ => 0⟩, ⟨fun _ _ => 0, fun _ => 0⟩⟩

/-- A reset, a command of two rows and one of three; word `a` of the operand RAM is
`[a, a + 2]`. -/
def demoInputs (t : ℕ) : TopIn 2 4 where
  rst := t == 0
  start := t == 1 || t == 20
  cmd := if t < 20 then ⟨0, 2, 8, 2⟩ else ⟨0, 4, 12, 3⟩
  awMem := fun a c => BitVec.ofNat 8 (a.toNat + 2 * c)

/-- The commands are done in cycles 14 and 34; the last rows are `[3, 5]` and `[6, 8]`
times `[[0, 2], [1, 3]]`. -/
theorem stream_top_executes_demo :
    (run step (zeroTop 2 4) demoInputs 14).done = true ∧
      (run step (zeroTop 2 4) demoInputs 14).ramC.mem 9 1 = 3 * 2 + 5 * 3 ∧
      (run step (zeroTop 2 4) demoInputs 34).done = true ∧
      (run step (zeroTop 2 4) demoInputs 34).ramC.mem 14 1 = 6 * 2 + 8 * 3 := by
  have hrun : ∀ t, 0 < t → (demoInputs t).rst = false := by
    intro t ht
    simp [demoInputs]
    omega
  have hrows : ∀ t, (demoInputs t).cmd.mRows.toNat + (2 * 2 - 1) ≤ 2 ^ 32 := by
    intro t
    simp only [demoInputs]
    split <;> decide
  have hmain := (stream_top_executes (N := 2) (A := 4) (by decide) (by decide) (zeroTop 2 4) demoInputs rfl hrun
    fun t _ _ => hrows t).1
  obtain ⟨-, -, hdone, hmem⟩ := hmain 1 (by decide) ⟨rfl, (busy_after_reset rfl).1⟩
  obtain ⟨-, -, hdone', hmem'⟩ := hmain 20 (by decide) ⟨rfl, by decide +kernel⟩
  have hexec := (hmem _ fun _ _ _ => rfl).2
  have hexec' := (hmem' _ fun _ _ _ => rfl).2
  rw [show 1 + latency 2 (demoInputs 1).cmd = 14 from rfl] at hexec hdone
  rw [show 20 + latency 2 (demoInputs 20).cmd = 34 from rfl] at hexec' hdone'
  refine ⟨hdone, ?_, hdone', ?_⟩
  · rw [hexec]
    decide
  · rw [hexec']
    decide

end StreamTop

end StreamCtrl
