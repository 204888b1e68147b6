import TensorAccel.Axi.Latency
import TensorAccel.Mmio.CoprocAxiTop
import TensorAccel.Mmio.CoprocMmioTop

/-! # The coprocessor on its two memories

    Translation of `rtl/mmio/coproc_axi_sim_top.sv`: `coproc_axi_top` with one
    `axi4_sim_ram` behind each AXI port.  Past the command queue it is wired like
    `stream_axi_top`, and a run of it is a run of that top with the commands that
    the queue starts.

    For a host that touches the memories only while `STATUS` shows idle, a command
    takes effect in the cycle in which its `CMD` write is accepted. -/

open Clocked StreamCtrl CmdQueueRegs StreamAxi

namespace CoprocAxi

variable {N : ℕ}

/-! ## Model -/

/-- The parameters of `u_dut`, and `RD_DEPTH` and `WR_DEPTH`. -/
structure SimParams (N : ℕ) extends Params N where
  rdDepth : ℕ
  wrDepth : ℕ

/-- Input ports of `coproc_axi_sim_top`, and what the test bench does to the memories
through its back door before the clock edge. -/
structure SimIn (N : ℕ) where
  rst : Bool
  dmemAddr : BitVec 64
  dmemWdata : BitVec 64
  dmemWen : Bool
  dmemFunct3 : BitVec 3
  stalls : Stalls
  backdoor : Mems N → Mems N

/-- Registers of `coproc_axi_sim_top`. -/
structure AxiSimTop (N : ℕ) where
  uDut : AxiTop N 32
  uRamRd : Axi4SimRam.SimRam (N * 8) 32 4
  uRamWr : Axi4SimRam.SimRam (N * 32) 32 4
  rdBeatCount : BitVec 32
  wrBeatCount : BitVec 32

/-- The parameters that `stream_axi_top` has, too. -/
def SimParams.sizes (P : SimParams N) : Sizes := ⟨P.depths, P.rdDepth, P.wrDepth⟩

namespace AxiSimTop

/-- What both memories hold in a cycle. -/
def mems (s : AxiSimTop N) : Mems N := (s.uRamRd.mem, s.uRamWr.mem)

def rdIn (i : SimIn N) (s : AxiSimTop N) : Axi4SimRam.RamIn (N * 8) 32 4 :=
  rdPort i.rst i.stalls s.uDut.bridge.dma

def wrIn (i : SimIn N) (s : AxiSimTop N) : Axi4SimRam.RamIn (N * 32) 32 4 :=
  wrPort i.rst i.stalls s.uDut.bridge.dma

/-- The ports of `u_dut`. -/
def dutIn (i : SimIn N) (s : AxiSimTop N) : AxiIn N 32 where
  rst := i.rst
  dmemAddr := i.dmemAddr
  dmemWdata := i.dmemWdata
  dmemWen := i.dmemWen
  dmemFunct3 := i.dmemFunct3
  arready := s.uRamRd.rd.arready (Axi4SimRam.gates (s.rdIn i) s.uRamRd.lfsr)
  rdata := unpack 8 s.uRamRd.rd.rdata
  rlast := s.uRamRd.rd.rlast
  rvalid := s.uRamRd.rd.rvalid
  awready := s.uRamWr.wr.awready (Axi4SimRam.gates (s.wrIn i) s.uRamWr.lfsr)
  wready := s.uRamWr.wr.wready (Axi4SimRam.gates (s.wrIn i) s.uRamWr.lfsr)
  bvalid := s.uRamWr.wr.bvalid

/-- A beat on the read port. -/
def rdBeat (i : SimIn N) (s : AxiSimTop N) : Bool :=
  s.uDut.bridge.dma.rd.push (AxiTop.dmaIn (s.dutIn i) s.uDut)

/-- A beat on the write port. -/
def wrBeat (i : SimIn N) (s : AxiSimTop N) : Bool :=
  s.uDut.bridge.dma.wr.sent (AxiTop.dmaIn (s.dutIn i) s.uDut)

/-- One clock edge of `coproc_axi_sim_top`. -/
def step (P : SimParams N) (i : SimIn N) (s : AxiSimTop N) : AxiSimTop N where
  uDut := AxiTop.step P.toParams (s.dutIn i) s.uDut
  uRamRd := { s.uRamRd with mem := (i.backdoor s.mems).1 }.step P.rdDepth (s.rdIn i)
  uRamWr := { s.uRamWr with mem := (i.backdoor s.mems).2 }.step P.wrDepth (s.wrIn i)
  rdBeatCount := if i.rst then 0 else if s.rdBeat i then s.rdBeatCount + 1 else s.rdBeatCount
  wrBeatCount := if i.rst then 0 else if s.wrBeat i then s.wrBeatCount + 1 else s.wrBeatCount

/-- The ports of `u_regs` in `u_dut`. -/
def regsIn (i : SimIn N) (s : AxiSimTop N) : RegsIn := AxiTop.regsIn (s.dutIn i) s.uDut

/-- `dmem_rdata` -/
def dmemRdata (P : SimParams N) (i : SimIn N) (s : AxiSimTop N) : BitVec 64 :=
  s.uDut.regs.dmemRdata N P.baseAddr (s.regsIn i)

def irq (s : AxiSimTop N) : Bool := s.uDut.regs.irq

/-- `STATUS` shows an empty queue and a datapath that is not busy. -/
def idle (s : AxiSimTop N) : Bool :=
  s.uDut.regs.fifoEmpty &&
    !(s.uDut.bridge.dma.busy || s.uDut.regs.start || s.uDut.bridge.dma.done)

/-- A poller that sees the idle bits of `STATUS` sees `idle`. -/
theorem idle_iff {P : SimParams N} {i : SimIn N} {s : AxiSimTop N} (halign : P.baseAddr.setWidth 6 = 0)
    (haddr : i.dmemAddr = P.baseAddr + 0x28) (hhit : (s.regsIn i).regHit P.baseAddr = true)
    (hload : i.dmemWen = false) :
    CoprocMmio.coprocWaitDone (s.dmemRdata P i) = s.idle := by
  have hoff : (s.regsIn i).off = offStatus := by
    rw [RegsIn.off, regsIn, AxiTop.regsIn, dutIn, haddr, BitVec.setWidth_add _ _ (by decide), halign]
    rfl
  have hwen : (s.regsIn i).dmemWen = false := hload
  have hdata : s.dmemRdata P i = (s.uDut.regs.status (s.regsIn i)).setWidth 64 := by
    rw [dmemRdata, Regs.dmemRdata, hhit, hwen]
    simp [hoff, offStatus, offW, offA, offC, offM]
  obtain ⟨hbit0, hbit2, -⟩ := Regs.status_fields (s.regsIn i) s.uDut.regs
  rw [Bool.eq_iff_iff, hdata, CoprocMmio.coprocWaitDone_iff, BitVec.getLsbD_eq_getElem (show 2 < 32 by decide),
    BitVec.getLsbD_eq_getElem (show 0 < 32 by decide), hbit2, hbit0, idle, Regs.statusBusy]
  simp [regsIn, AxiTop.regsIn]

/-! ## The two views of a run -/

/-- The registers in cycle `t`. -/
abbrev sim (P : SimParams N) (p : AxiSimTop N) (i : ℕ → SimIn N) (t : ℕ) : AxiSimTop N :=
  run (step P) p i t

/-- Everything behind the queue. -/
def streamTop (s : AxiSimTop N) : Top N 32 where
  bridge := s.uDut.bridge
  uRamRd := s.uRamRd
  uRamWr := s.uRamWr
  rdBeatCount := s.rdBeatCount
  wrBeatCount := s.wrBeatCount

/-- What the queue drives it with. -/
def streamIn (i : SimIn N) (s : AxiSimTop N) : StreamAxi.TopIn N 32 where
  rst := i.rst
  start := s.uDut.regs.start
  cmd := cmdWires s.uDut.regs.cmd
  stalls := i.stalls
  backdoor := i.backdoor

def dutTrace (P : SimParams N) (p : AxiSimTop N) (i : ℕ → SimIn N) (t : ℕ) : AxiIn N 32 :=
  (sim P p i t).dutIn (i t)

def streamTrace (P : SimParams N) (p : AxiSimTop N) (i : ℕ → SimIn N) (t : ℕ) : StreamAxi.TopIn N 32 :=
  (sim P p i t).streamIn (i t)

/-- The command of a `CMD` write that is accepted in this cycle. -/
def enqEvent (P : SimParams N) (i : SimIn N) (s : AxiSimTop N) : Option (Cmd 32) :=
  Regs.enqEvent P.baseAddr (s.regsIn i) s.uDut.regs

/-- The commands accepted in cycles `s, ..., t - 1`. -/
def accepted (P : SimParams N) (p : AxiSimTop N) (i : ℕ → SimIn N) (s t : ℕ) : List (Cmd 32) :=
  eventsIn (fun u => enqEvent P (i u) (sim P p i u)) s t

/-- A run after a reset, in which commands have a row at least. -/
structure Commanded (P : SimParams N) (p : AxiSimTop N) (i : ℕ → SimIn N) (r t : ℕ) : Prop where
  rst : (i r).rst = true
  run : ∀ u, r < u → u < t → (i u).rst = false
  rows : ∀ c ∈ accepted P p i (r + 1) t, 1 ≤ c.mRows.toNat

/-- Its commands stay in the address space, and the host touches the memories only while
`STATUS` shows idle. -/
structure Session (P : SimParams N) (p : AxiSimTop N) (i : ℕ → SimIn N) (r t : ℕ) : Prop
    extends Commanded P p i r t where
  space : ∀ c ∈ accepted P p i (r + 1) t, InSpace N c
  polled : ∀ u, r < u → u < t → (sim P p i u).idle = false → ∀ m, (i u).backdoor m = m

section runs
variable {P : SimParams N} {p : AxiSimTop N} {i : ℕ → SimIn N} {r s t u : ℕ}

theorem run_dut (t : ℕ) :
    (sim P p i t).uDut = Clocked.run (AxiTop.step P.toParams) p.uDut (dutTrace P p i) t := by
  induction t with
  | zero => rfl
  | succ t ih =>
    rw [run_succ, ← ih]
    rfl

theorem run_stream (t : ℕ) :
    (sim P p i t).streamTop = top P.sizes p.streamTop (streamTrace P p i) t := by
  induction t with
  | zero => rfl
  | succ t ih =>
    rw [top, run_succ, ← top, ← ih]
    rfl

/-- The bases of the queue fit the port of the bridge. -/
theorem cmdWires_eq (c : Cmd 32) : cmdWires c = c := by
  simp [cmdWires]

theorem accepted_eq (s t : ℕ) :
    accepted P p i s t = AxiTop.accepted P.toParams p.uDut (dutTrace P p i) s t := by
  simp only [AxiTop.accepted, AxiTop.regsTrace, ← run_dut]
  rfl

theorem dmaTrace_eq :
    StreamAxi.dmaTrace P.sizes p.streamTop (streamTrace P p i) =
      AxiTop.dmaTrace P.toParams p.uDut (dutTrace P p i) := by
  funext t
  rw [StreamAxi.dmaTrace, AxiTop.dmaTrace, ← run_stream, ← run_dut]
  rfl

/-- What the queue started has begun. -/
theorem started_eq (hr : (i r).rst = true) (hrun : ∀ u, r < u → u < t → (i u).rst = false) :
    StreamAxi.accepted P.sizes p.streamTop (streamTrace P p i) (r + 1) t =
      AxiTop.started P.toParams p.uDut (dutTrace P p i) (r + 1) t := by
  have hbegun := AxiTop.begun_eq (P := P.toParams) (p := p.uDut) (i := dutTrace P p i) hr hrun
  have hid : (cmdWires : Cmd 32 → Cmd 32) = id := funext cmdWires_eq
  rw [hid, List.map_id] at hbegun
  rw [← hbegun, StreamAxi.accepted, dmaTrace_eq]
  rfl

theorem Commanded.mono (h : Commanded P p i r t) (hru : r < u) (hut : u ≤ t) : Commanded P p i r u where
  rst := h.rst
  run v hv hvu := h.run v hv (by omega)
  rows c hc := h.rows c ((eventsIn_initial _ hru hut).subset hc)

theorem Session.mono (h : Session P p i r t) (hru : r < u) (hut : u ≤ t) : Session P p i r u where
  toCommanded := h.toCommanded.mono hru hut
  space c hc := h.space c ((eventsIn_initial _ hru hut).subset hc)
  polled v hv hvu := h.polled v hv (by omega)

/-- A command that is started was accepted. -/
theorem Commanded.accepted (h : Commanded P p i r t) (hru : r < u) (hut : u < t)
    (hstart : (sim P p i u).uDut.regs.start = true) :
    (sim P p i u).uDut.regs.cmd ∈ AxiSimTop.accepted P p i (r + 1) t := by
  rw [run_dut] at hstart
  have hmem := AxiTop.started_accepted (P := P.toParams) (p := p.uDut) (i := dutTrace P p i) h.rst h.run hru hut
    hstart
  rw [← accepted_eq, ← run_dut] at hmem
  exact hmem

/-- The queue drives the rest as it expects. -/
theorem Commanded.driven (h : Commanded P p i r t) :
    Driven P.sizes p.streamTop (streamTrace P p i) r t where
  rst := h.rst
  run := h.run
  rows u hru hut hstart _ := h.rows _ (h.accepted hru hut hstart)
  held u hru hut hbusy := by
    rw [← run_stream] at hbusy
    have hbusy' : (sim P p i (u + 1)).uDut.bridge.dma.busy = true := hbusy
    rw [run_dut] at hbusy'
    have hheld := AxiTop.cmd_held (P := P.toParams) (p := p.uDut) (i := dutTrace P p i) h.rst hru
      (fun v hv hvu => h.run v hv (by omega)) hbusy'
    rw [← run_dut, ← run_dut] at hheld
    exact congrArg (fun c => (cmdWires c : Cmd 32).mRows) hheld

/-- A start pulse finds the bridge free. -/
theorem Commanded.start_free (h : Commanded P p i r t) (hrt : r < t)
    (hstart : (sim P p i t).uDut.regs.start = true) : (sim P p i t).uDut.bridge.dma.busy = false := by
  rw [run_dut] at hstart ⊢
  exact AxiTop.start_free h.rst hrt h.run hstart

theorem Session.quiesced (h : Session P p i r t) :
    Quiesced P.sizes p.streamTop (streamTrace P p i) r t := by
  intro u hru hut hbusy
  rw [← run_stream] at hbusy
  have hbusy' : (sim P p i u).uDut.bridge.dma.busy = true := hbusy
  exact h.polled u hru hut (by simp [idle, hbusy'])

/-! ## Order -/

/-- A command on the memories. -/
def execCmd (P : SimParams N) (m : Mems N) (c : Cmd 32) : Mems N := (m.1, execWords P.sizes m.1 m.2 c)

/-- Accepted commands that did not reach the bridge yet. -/
def pending (s : AxiSimTop N) : List (Cmd 32) := (Regs.startEvent s.uDut.regs).toList ++ s.uDut.regs.queue

/-- What the host makes of the memories in cycle `u`: first through the back door, and
then with the command that it has accepted. -/
def hostEffect (P : SimParams N) (p : AxiSimTop N) (i : ℕ → SimIn N) (u : ℕ) (m : Mems N) : Mems N :=
  (enqEvent P (i u) (sim P p i u)).toList.foldl (execCmd P) ((i u).backdoor m)

def hostEffects (P : SimParams N) (p : AxiSimTop N) (i : ℕ → SimIn N) (s t : ℕ) (m : Mems N) : Mems N :=
  foldIn (hostEffect P p i) s t m

/-- When `STATUS` shows idle nothing is under way. -/
theorem idle_rest {s : AxiSimTop N} (h : s.idle = true) :
    s.pending = [] ∧ s.uDut.bridge.dma.busy = false ∧ s.uDut.bridge.dma.done = false := by
  simp only [idle, Bool.and_eq_true, Bool.not_eq_true', Bool.or_eq_false_iff] at h
  obtain ⟨hempty, ⟨hbusy, hstart⟩, hdone⟩ := h
  refine ⟨?_, hbusy, hdone⟩
  rw [pending, Regs.startEvent, hstart, Regs.fifoEmpty_iff.mp hempty]
  rfl

theorem not_start_of_pending {s : AxiSimTop N} (h : s.pending = []) : s.uDut.regs.start = false ∧ s.uDut.regs.queue = [] := by
  obtain ⟨hstart, hqueue⟩ := List.append_eq_nil_iff.mp h
  refine ⟨?_, hqueue⟩
  unfold Regs.startEvent at hstart
  by_contra hhigh
  simp [hhigh] at hstart

/-- What waits and what is started, after a clock edge. -/
theorem pending_next {i : SimIn N} {s : AxiSimTop N} (hvalid : Regs.Valid s.uDut.regs) (hrst : i.rst = false) :
    (step P i s).pending = s.uDut.regs.queue ++ (enqEvent P i s).toList :=
  (@Regs.queue_step 32 P.baseAddr (s.regsIn i) _ hrst hvalid).2.symm

/-- The queue is one. -/
theorem Commanded.valid (h : Commanded P p i r t) (hrt : r < t) : Regs.Valid (sim P p i t).uDut.regs := by
  have hquiet : Quiet (fun u => (AxiTop.regsTrace P.toParams p.uDut (dutTrace P p i) u).rst) (r + 1) t :=
    fun u hut hu => h.run u hu hut
  rw [run_dut, AxiTop.run_regs]
  exact Regs.valid_run P.baseAddr h.rst hrt hquiet

/-- In a cycle the queue gives a command to the bridge, and takes one in. -/
theorem pending_step (h : Commanded P p i r (t + 1)) (hrt : r < t) :
    (sim P p i (t + 1)).pending = (sim P p i t).uDut.regs.queue ++ (enqEvent P (i t) (sim P p i t)).toList :=
  pending_next ((h.mono hrt (Nat.le_succ t)).valid hrt) (h.run t hrt (Nat.lt_succ_self t))

/-- A start pulse is a command. -/
theorem effect_eq (h : Commanded P p i r t) (hrt : r < t) (m : Mems N) :
    effect P.sizes p.streamTop (streamTrace P p i) t m =
      (Regs.startEvent (sim P p i t).uDut.regs).toList.foldl (execCmd P) ((i t).backdoor m) := by
  rw [effect, ← run_stream]
  cases hs : (sim P p i t).uDut.regs.start with
  | false => simp [streamTrace, streamIn, Regs.startEvent, hs]
  | true =>
    have hfree := h.start_free hrt hs
    simp [streamTrace, streamIn, streamTop, Regs.startEvent, hs, hfree, execCmd, cmdWires_eq]

/-- The commands that wait are all that the two orders differ in. -/
theorem hostEffects_eq (h : Session P p i r t) (hrt : r < t) (m : Mems N) :
    hostEffects P p i (r + 1) t m =
      (sim P p i t).pending.foldl (execCmd P)
        (effects P.sizes p.streamTop (streamTrace P p i) (r + 1) t m) := by
  induction t, hrt using Nat.le_induction with
  | base =>
    have hreset := Regs.valid_reset (i := (sim P p i r).regsIn (i r)) P.baseAddr (sim P p i r).uDut.regs h.rst
    have hempty : (sim P p i (r + 1)).pending = [] := by
      have hqueue : (sim P p i (r + 1)).uDut.regs.queue = [] := hreset.2.1
      have hstart : (sim P p i (r + 1)).uDut.regs.start = false := hreset.2.2
      rw [pending, hqueue, Regs.startEvent, hstart]
      rfl
    rw [hempty]
    simp [hostEffects, effects]
  | succ t hrt ih =>
    have hprev := h.mono hrt (Nat.le_succ t)
    have hih := ih hprev
    rw [hostEffects, effects] at hih
    rw [hostEffects, effects, foldIn_succ _ hrt, foldIn_succ _ hrt, pending_step h.toCommanded hrt, hostEffect, hih,
      effect_eq hprev.toCommanded hrt, List.foldl_append, pending, List.foldl_append]
    -- the host and a command that waits do not touch the memories in the same cycle
    cases hidle : (sim P p i t).idle with
    | true =>
      obtain ⟨hnone, -, -⟩ := idle_rest hidle
      obtain ⟨hstart, hqueue⟩ := List.append_eq_nil_iff.mp hnone
      rw [hstart, hqueue]
      rfl
    | false =>
      have hquiet := h.polled t hrt (Nat.lt_succ_self t) hidle
      rw [hquiet, hquiet]

/-- When `STATUS` shows idle all accepted commands were started. -/
theorem started_idle (h : Commanded P p i r t) (hrt : r < t) (hidle : (sim P p i t).idle = true) :
    StreamAxi.accepted P.sizes p.streamTop (streamTrace P p i) (r + 1) t = accepted P p i (r + 1) t := by
  obtain ⟨hnone, -, -⟩ := idle_rest hidle
  obtain ⟨hstart, hqueue⟩ := List.append_eq_nil_iff.mp hnone
  have hbal := AxiTop.accepted_eq (P := P.toParams) (p := p.uDut) (i := dutTrace P p i) h.rst hrt h.run
  rw [AxiTop.started, eventsIn_succ _ hrt, ← run_dut, hstart, hqueue, List.append_nil, List.append_nil] at hbal
  rw [started_eq h.rst h.run, accepted_eq, hbal, AxiTop.started]

/-- Then the host and the bridge agree on the memories. -/
theorem mems_idle (hpow : ∃ e, N = 2 ^ e) (h : Session P p i r t) (hrt : r < t)
    (hidle : (sim P p i t).idle = true) :
    (sim P p i t).mems = hostEffects P p i (r + 1) t (sim P p i (r + 1)).mems := by
  obtain ⟨hnone, hfree, -⟩ := idle_rest hidle
  have hlow : (top P.sizes p.streamTop (streamTrace P p i) t).bridge.dma.busy = false := by
    rw [← run_stream]
    exact hfree
  have hmems := mems_free hpow P.lanes_lt (Nat.le_of_eq (Nat.add_comm P.maxRows N)) h.driven h.quiesced
    (by rw [started_idle h.toCommanded hrt hidle]; exact h.space) hrt hlow
  rw [← run_stream, ← run_stream] at hmems
  rw [hostEffects_eq h hrt, hnone]
  exact hmems

/-- Then the counters show the beats of the accepted commands, and there were as many done
pulses. -/
theorem counts_idle (hN : 0 < N) (h : Commanded P p i r t) (hrt : r < t) (hidle : (sim P p i t).idle = true) :
    countIn (fun u => (top P.sizes p.streamTop (streamTrace P p i) u).bridge.dma.done) (r + 1) (t + 1) =
        (accepted P p i (r + 1) t).length ∧
      (sim P p i t).rdBeatCount =
        BitVec.ofNat 32 ((accepted P p i (r + 1) t).map fun c => N + c.mRows.toNat).sum ∧
      (sim P p i t).wrBeatCount = BitVec.ofNat 32 ((accepted P p i (r + 1) t).map fun c => c.mRows.toNat).sum := by
  obtain ⟨-, hfree, -⟩ := idle_rest hidle
  have hlow : (top P.sizes p.streamTop (streamTrace P p i) t).bridge.dma.busy = false := by
    rw [← run_stream]
    exact hfree
  obtain ⟨hpulses, hreads, hwrites⟩ := counts_free hN P.lanes_lt (Nat.le_of_eq (Nat.add_comm P.maxRows N))
    h.driven hrt hlow
  rw [started_idle h hrt hidle] at hpulses hreads hwrites
  rw [← run_stream] at hreads hwrites
  exact ⟨hpulses, hreads, hwrites⟩

end runs

/-- **A command takes effect where its `CMD` write is accepted.**  In every run after a
reset whose commands have a row at least and stay in the address space, whose host touches
the memories only while `STATUS` shows idle, and however the memories stall: in a cycle in
which `STATUS` shows idle the memories are as if each command had been carried out in the
cycle of its acceptance, between what the host did to them before and after.
`done_count` is the number of accepted commands, and the counters show their beats. -/
theorem axi_sim_top_linearizes (P : SimParams N) (hpow : ∃ e, N = 2 ^ e) (p : AxiSimTop N) (i : ℕ → SimIn N)
    {r : ℕ} (t : ℕ) (hrt : r < t) (h : Session P p i r t) (hidle : (sim P p i t).idle = true) :
    (sim P p i t).mems = hostEffects P p i (r + 1) t (sim P p i (r + 1)).mems ∧
      (sim P p i t).uDut.regs.doneCount = BitVec.ofNat 16 (accepted P p i (r + 1) t).length ∧
      (sim P p i t).rdBeatCount =
        BitVec.ofNat 32 ((accepted P p i (r + 1) t).map fun c => N + c.mRows.toNat).sum ∧
      (sim P p i t).wrBeatCount =
        BitVec.ofNat 32 ((accepted P p i (r + 1) t).map fun c => c.mRows.toNat).sum := by
  have hpos : 0 < N := by
    obtain ⟨e, rfl⟩ := hpow
    exact Nat.two_pow_pos e
  obtain ⟨-, -, hdone⟩ := idle_rest hidle
  obtain ⟨hpulses, hreads, hwrites⟩ := counts_idle hpos h.toCommanded hrt hidle
  simp only [← run_stream] at hpulses
  refine ⟨mems_idle hpow h hrt hidle, ?_, hreads, hwrites⟩
  have hquiet : Quiet (fun u => (AxiTop.regsTrace P.toParams p.uDut (dutTrace P p i) u).rst) (r + 1) t :=
    fun u hut hu => h.run u hu hut
  have hcount := Regs.doneCount_run (p := p.uDut.regs) P.baseAddr h.rst hrt hquiet
  rw [← AxiTop.run_regs, ← run_dut] at hcount
  have hlast : (sim P p i t).streamTop.bridge.dma.done = false := hdone
  rw [hcount, ← hpulses, countIn_succ _ hrt, hlast]
  simp only [AxiTop.regsTrace, ← run_dut]
  rfl

/-! ## A run -/

/-- `MAX_ROWS` of 4, and two memories of 64 words. -/
def demoSim : SimParams 1 where
  toParams := AxiTop.demoParams
  rdDepth := 64
  wrDepth := 64

/-- A 1 x 1 instance; word `a` of the read memory is `a + 1`. -/
def demoTop : AxiSimTop 1 where
  uDut := ⟨AxiTop.demoTop.regs, DmaBridge.zeroSys 1 32⟩
  uRamRd := ⟨fun a => BitVec.ofNat 8 (a + 1), 0, ⟨.idle, 0, 0, 0, 0, 0, 0, 0, false, false⟩, ⟨.idle, 0, 0, 0, 0, 0, 0, false⟩⟩
  uRamWr := ⟨fun _ => 0, 0, ⟨.idle, 0, 0, 0, 0, 0, 0, 0, false, false⟩, ⟨.idle, 0, 0, 0, 0, 0, 0, false⟩⟩
  rdBeatCount := 0
  wrBeatCount := 0

/-- The stores of two commands of one row, one a cycle: from word 16 to word 16, then from
word 24 to word 17. -/
def demoStore : ℕ → BitVec 64 × BitVec 64
  | 1 => (0x10000018, 1)
  | 2 => (0x10000008, 16)
  | 3 => (0x10000010, 64)
  | 4 => (0x10000020, 1)
  | 5 => (0x10000008, 24)
  | 6 => (0x10000010, 68)
  | 7 => (0x10000020, 1)
  | _ => (0x10000028, 0)

/-- A reset and the stores, and a host that puts 5 into word 16 before the first command.
Every handshake may be stalled. -/
def demoIn (t : ℕ) : SimIn 1 where
  rst := t == 0
  dmemAddr := (demoStore t).1
  dmemWdata := (demoStore t).2
  dmemWen := 1 ≤ t && t ≤ 7
  dmemFunct3 := f3D
  stalls := ⟨0xF, 0xF, 0, 5⟩
  backdoor m := if t = 2 then (Function.update m.1 16 5, m.2) else m

/-- In cycle 100 the results 1 * 5 and 1 * 25 are in memory. -/
theorem axi_sim_top_linearizes_demo :
    (sim demoSim demoTop demoIn 100).uRamWr.mem 16 = 5 ∧ (sim demoSim demoTop demoIn 100).uRamWr.mem 17 = 25 ∧
      (sim demoSim demoTop demoIn 100).rdBeatCount = 4 := by
  have haccepted : accepted demoSim demoTop demoIn 1 100 = [⟨0, 16, 64, 1⟩, ⟨0, 24, 68, 1⟩] := by
    decide +kernel
  have hnone : ∀ u < 100, 8 ≤ u → enqEvent demoSim (demoIn u) (sim demoSim demoTop demoIn u) = none := by
    decide +kernel
  have hbusy : ∀ u < 3, 0 < u → (sim demoSim demoTop demoIn u).idle = true := by decide +kernel
  have hsession : Session demoSim demoTop demoIn 0 100 := by
    refine ⟨⟨rfl, ?_, ?_⟩, ?_, ?_⟩
    · intro u hu _
      simp only [demoIn, beq_eq_false_iff_ne]
      omega
    · rw [haccepted]
      decide
    · rw [haccepted]
      decide
    · intro u hu _ hidle m
      have hne : u ≠ 2 := by
        rintro rfl
        simp [hbusy 2] at hidle
      simp [demoIn, hne]
  obtain ⟨hmems, -, hreads, -⟩ := axi_sim_top_linearizes demoSim ⟨0, rfl⟩ demoTop demoIn 100 (by decide) hsession
    (by decide +kernel)
  rw [haccepted] at hreads
  -- behind the last `CMD` write nothing happens
  rw [hostEffects, foldIn_quiet (show 1 ≤ 8 by decide) (by decide) fun v hv hvt x => by
    rw [hostEffect, hnone v hvt hv, demoIn]
    simp [show v ≠ 2 by omega]] at hmems
  have hwr := congrArg Prod.snd hmems
  unfold mems at hwr
  dsimp only at hwr
  rw [hreads, hwr]
  exact ⟨by decide +kernel, by decide +kernel, by decide⟩

end AxiSimTop

end CoprocAxi
