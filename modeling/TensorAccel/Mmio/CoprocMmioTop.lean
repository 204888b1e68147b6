import TensorAccel.Mmio.CmdQueueRegs
import TensorAccel.Stream.StreamTop

/-! # The memory-mapped coprocessor

    Translation of `rtl/mmio/coproc_mmio_top.sv` (the command queue in front of
    the stream top) and of the exit test of `coproc_wait` in
    `sw/coproc_mmio.h`.

    Abstractly the coprocessor executes the accepted commands one after
    another.  A cycle in which the datapath is not busy is a point between two
    commands; `executed_run` says that at every such point exactly the commands
    started so far were executed and have raised their done pulse. -/

open Clocked StreamCtrl CmdQueueRegs

namespace CoprocMmio

variable {N A : ℕ}

/-! ## Model -/

/-- Registers and memories of `coproc_mmio_top`. -/
structure MmioTop (N A : ℕ) where
  regs : Regs A
  stream : StreamTop N A

/-- The dmem port, and the contents of the operand RAM. -/
structure MmioIn (N A : ℕ) where
  rst : Bool
  dmemAddr : BitVec 64
  dmemWdata : BitVec 64
  dmemWen : Bool
  dmemFunct3 : BitVec 3
  awMem : BitVec A → Lanes8 N

namespace MmioTop

/-- The ports of `u_regs`. -/
def regsIn (i : MmioIn N A) (s : MmioTop N A) : RegsIn where
  rst := i.rst
  dmemAddr := i.dmemAddr
  dmemWdata := i.dmemWdata
  dmemWen := i.dmemWen
  dmemFunct3 := i.dmemFunct3
  busy := s.stream.busy
  done := s.stream.done

/-- The ports of `u_stream`. -/
def topIn (i : MmioIn N A) (s : MmioTop N A) : TopIn N A where
  rst := i.rst
  start := s.regs.start
  cmd := s.regs.cmd
  awMem := i.awMem

/-- One clock edge of `coproc_mmio_top`. -/
def step (base : BitVec 64) (i : MmioIn N A) (s : MmioTop N A) : MmioTop N A where
  regs := Regs.step base (regsIn i s) s.regs
  stream := StreamTop.step (topIn i s) s.stream

def dmemRdata (base : BitVec 64) (i : MmioIn N A) (s : MmioTop N A) : BitVec 64 :=
  s.regs.dmemRdata N base (regsIn i s)

end MmioTop

def statusBusyMask : BitVec 64 := 0x1
def statusQemptyMask : BitVec 64 := 0x4

/-- The value of `STATUS` with which `coproc_wait` returns. -/
def coprocWaitDone (status : BitVec 64) : Bool :=
  !(status &&& statusQemptyMask == 0 || status &&& statusBusyMask != 0)

theorem coprocWaitDone_iff (status : BitVec 32) :
    coprocWaitDone (status.setWidth 64) = true ↔ status.getLsbD 2 = true ∧ status.getLsbD 0 = false := by
  have hq : statusQemptyMask = BitVec.twoPow 64 2 := by decide
  have hb : statusBusyMask = BitVec.twoPow 64 0 := by decide
  have hq0 : ¬ BitVec.twoPow 64 2 = 0#64 := by decide
  have hb0 : ¬ BitVec.twoPow 64 0 = 0#64 := by decide
  rw [coprocWaitDone, hq, hb, BitVec.and_twoPow, BitVec.and_twoPow,
    BitVec.getLsbD_eq_getElem (show 2 < 32 by decide), BitVec.getLsbD_eq_getElem (show 0 < 32 by decide)]
  cases h2 : status[2] <;> cases h0 : status[0] <;> simp [h0, h2, hq0, hb0]

/-! ## The two halves of a run -/

namespace MmioTop

variable {base : BitVec 64} {p : MmioTop N A} {i : ℕ → MmioIn N A} {r t : ℕ}

/-- What the datapath is driven with in a run of the whole. -/
def streamTrace (base : BitVec 64) (p : MmioTop N A) (i : ℕ → MmioIn N A) (t : ℕ) : TopIn N A :=
  topIn (i t) (run (step base) p i t)

/-- What the register block is driven with in a run of the whole. -/
def regsTrace (base : BitVec 64) (p : MmioTop N A) (i : ℕ → MmioIn N A) (t : ℕ) : RegsIn :=
  regsIn (i t) (run (step base) p i t)

theorem run_stream (t : ℕ) : (run (step base) p i t).stream =
    run StreamTop.step p.stream (streamTrace base p i) t := by
  induction t with
  | zero => rfl
  | succ t ih => rw [run_succ, run_succ, ← ih]; rfl

theorem run_regs (t : ℕ) : (run (step base) p i t).regs =
    run (Regs.step base) p.regs (regsTrace base p i) t := by
  induction t with
  | zero => rfl
  | succ t ih => rw [run_succ, run_succ, ← ih]; rfl

/-! ## Accepted, started and completed commands -/

/-- The commands accepted in cycles `s, ..., t - 1`. -/
def accepted (base : BitVec 64) (p : MmioTop N A) (i : ℕ → MmioIn N A) (s t : ℕ) : List (Cmd A) :=
  eventsIn (fun u => Regs.enqEvent base (regsTrace base p i u) (run (step base) p i u).regs) s t

/-- The commands started in cycles `s, ..., t - 1`. -/
def started (base : BitVec 64) (p : MmioTop N A) (i : ℕ → MmioIn N A) (s t : ℕ) : List (Cmd A) :=
  eventsIn (fun u => Regs.startEvent (run (step base) p i u).regs) s t

/-- The number of done pulses in cycles `s, ..., t - 1`. -/
def donePulses (base : BitVec 64) (p : MmioTop N A) (i : ℕ → MmioIn N A) (s t : ℕ) : ℕ :=
  countIn (fun u => (run (step base) p i u).stream.done) s t

/-- The result RAM after a list of commands. -/
def execAll (mem : BitVec A → Lanes8 N) (cs : List (Cmd A)) (ram : BitVec A → Lanes32 N) :
    BitVec A → Lanes32 N :=
  cs.foldl (fun ram c => c.exec mem ram) ram

section runs
variable {base : BitVec 64} {p : MmioTop N A} {i : ℕ → MmioIn N A} {r t : ℕ}

theorem accepted_eq (hr : (i r).rst = true) (hrun : ∀ t, r < t → (i t).rst = false) (ht : r < t) :
    accepted base p i (r + 1) t =
      started base p i (r + 1) (t + 1) ++ (run (step base) p i t).regs.queue := by
  have hbal := Regs.enq_eq_start_queue (p := p.regs) (i := regsTrace base p i) base hr ht
    (fun u _ hu => hrun u hu)
  simp only [← run_regs] at hbal
  exact hbal

/-- Started commands were accepted. -/
theorem started_accepted (hr : (i r).rst = true) (hrun : ∀ t, r < t → (i t).rst = false)
    (ht : r < t) (hstart : (run (step base) p i t).regs.start = true) :
    (run (step base) p i t).regs.cmd ∈ accepted base p i (r + 1) t := by
  rw [accepted_eq hr hrun ht]
  apply List.mem_append_left
  rw [started, mem_eventsIn]
  exact ⟨t, ht, Nat.lt_succ_self t, by simp [Regs.startEvent, hstart]⟩

/-- `busy` of the stream top rises only after a start pulse. -/
theorem busy_rises (hrun : ∀ t, r < t → (i t).rst = false) (ht : r < t)
    (hbusy : (run (step base) p i (t + 1)).stream.busy = true) :
    (run (step base) p i t).stream.busy = true ∨ (run (step base) p i t).regs.start = true := by
  by_contra hnone
  rw [not_or, Bool.not_eq_true, Bool.not_eq_true] at hnone
  have hidle := (StreamTop.stays_idle (i := topIn (i t) (run (step base) p i t)) (hrun t ht)
    hnone.1 hnone.2).1
  exact absurd (hbusy.symm.trans hidle) (by simp)

theorem start_free (hr : (i r).rst = true) (hrun : ∀ t, r < t → (i t).rst = false) (ht : r < t)
    (hstart : (run (step base) p i t).regs.start = true) :
    (run (step base) p i t).stream.busy = false := by
  refine Regs.start_free (p := p.regs) (i := regsTrace base p i) base hr hrun ?_ ht
    (by rw [← run_regs]; exact hstart)
  intro u hu hbusy
  rw [← run_regs]
  exact busy_rises hrun hu hbusy

/-- `done_count` counts the done pulses, one cycle late. -/
theorem doneCount_run (hr : (i r).rst = true) (hrun : ∀ t, r < t → (i t).rst = false)
    (ht : r < t) : (run (step base) p i t).regs.doneCount =
      BitVec.ofNat 16 (donePulses base p i (r + 1) t) := by
  induction t, ht using Nat.le_induction with
  | base => simp [run_succ, step, Regs.step, regsIn, hr, donePulses]
  | succ t ht ih =>
    have hstep : (run (step base) p i (t + 1)).regs.doneCount =
        if (run (step base) p i t).stream.done then (run (step base) p i t).regs.doneCount + 1
        else (run (step base) p i t).regs.doneCount := by
      simp [run_succ, step, Regs.step, regsIn, hrun t ht]
    rw [hstep, ih, donePulses, donePulses, countIn_succ _ ht]
    cases (run (step base) p i t).stream.done <;> simp [BitVec.ofNat_add]

/-! ## Execution -/

/-- Every command started before cycle `t` was executed, and has raised its
done pulse by then. -/
structure Executed (base : BitVec 64) (p : MmioTop N A) (i : ℕ → MmioIn N A)
    (mem : BitVec A → Lanes8 N) (r t : ℕ) : Prop where
  pulses : donePulses base p i (r + 1) (t + 1) = (started base p i (r + 1) t).length
  ramC : (run (step base) p i t).stream.ramC.mem =
    execAll mem (started base p i (r + 1) t) (run (step base) p i (r + 1)).stream.ramC.mem

theorem executed_reset {mem : BitVec A → Lanes8 N} (hr : (i r).rst = true) :
    Executed base p i mem r (r + 1) where
  pulses := by
    have hdone : (run (step base) p i (r + 1)).stream.done = false :=
      (StreamTop.busy_after_reset (i := topIn (i r) (run (step base) p i r)) hr).2
    rw [donePulses, started, countIn_succ _ le_rfl, hdone]
    simp
  ramC := by simp [started, execAll]

/-- A cycle without a command changes nothing. -/
theorem Executed.idle {mem : BitVec A → Lanes8 N} (h : Executed base p i mem r t)
    (hrun : ∀ t, r < t → (i t).rst = false) (ht : r < t)
    (hfree : (run (step base) p i t).stream.busy = false)
    (hstart : (run (step base) p i t).regs.start = false) : Executed base p i mem r (t + 1) := by
  have hdone : (run (step base) p i (t + 1)).stream.done = false :=
    (StreamTop.stays_idle (i := topIn (i t) (run (step base) p i t)) (hrun t ht) hfree hstart).2
  have hram : (run (step base) p i (t + 1)).stream.ramC.mem =
      (run (step base) p i t).stream.ramC.mem := (StreamTop.idle_silent _ hfree).2
  have hnone : started base p i (r + 1) (t + 1) = started base p i (r + 1) t := by
    rw [started, eventsIn_succ _ ht, Regs.startEvent, hstart]
    simp [started]
  constructor
  · rw [hnone, ← h.pulses, donePulses, countIn_succ _ (by omega), hdone]
    rfl
  · rw [hnone, hram, h.ramC]

/-- A command accepted by the datapath in cycle `s`, up to its done pulse. -/
theorem Executed.command {mem : BitVec A → Lanes8 N} {s : ℕ} (h : Executed base p i mem r s)
    (hN : 0 < N) (hr : (i r).rst = true) (hrun : ∀ t, r < t → (i t).rst = false)
    (hmem : ∀ t, r < t → (i t).awMem = mem) (hs : r < s)
    (hacc : StreamTop.Accepts p.stream (streamTrace base p i) s)
    (hf : Ctrl.Fits N A (streamTrace base p i s).cmd.mRows.toNat) :
    Executed base p i mem r (s + StreamTop.latency N (streamTrace base p i s).cmd) := by
  set τ := streamTrace base p i with hτ
  have hrun' : ∀ t, s ≤ t → (τ t).rst = false := fun t ht => hrun t (by omega)
  have hbusy : ∀ t, s < t → t < s + StreamTop.latency N (τ s).cmd →
      (run (step base) p i t).stream.busy = true ∧ (run (step base) p i t).stream.done = false := by
    intro t hst htl
    rw [run_stream]
    exact StreamTop.busy_run hN hf hrun' hacc hst htl
  obtain ⟨e, he⟩ : ∃ e, s + StreamTop.latency N (τ s).cmd = e + 1 :=
    ⟨s + (4 * N + (τ s).cmd.mRows.toNat + 2), by rw [StreamTop.latency]; omega⟩
  have hse : s < e := by rw [StreamTop.latency] at he; omega
  -- `e` is the last cycle of the command, and `e + 1` the one of its done pulse
  have hdone : (run (step base) p i (e + 1)).stream.done = true := by
    rw [run_stream, ← he]
    exact (StreamTop.done_run hN hf hrun' hacc).2
  have hram : (run (step base) p i (e + 1)).stream.ramC.mem =
      (τ s).cmd.exec mem (run (step base) p i s).stream.ramC.mem := by
    rw [run_stream, run_stream, ← he]
    exact (StreamTop.command_run hN hf hrun' hacc fun t hst _ => hmem t (by omega)).2
  -- the start pulse in cycle `s` is the only one before the done pulse
  have hquiet : eventsIn (fun u => Regs.startEvent (run (step base) p i u).regs) (s + 1) (e + 1) =
      [] := by
    refine eventsIn_eq_nil fun u hsu hue => ?_
    rw [Regs.startEvent, if_neg]
    intro hstart
    have hfree := start_free hr hrun (show r < u by omega) hstart
    rw [(hbusy u hsu (by omega)).1] at hfree
    cases hfree
  have hstarted : started base p i (r + 1) (e + 1) = started base p i (r + 1) s ++ [(τ s).cmd] := by
    have hstart : (run (step base) p i s).regs.start = true := hacc.1
    rw [started, eventsIn_split _ (show r + 1 ≤ s + 1 by omega) (by omega), hquiet,
      eventsIn_succ _ (by omega), Regs.startEvent, if_pos hstart]
    simp [started, hτ, streamTrace, topIn]
  rw [he]
  constructor
  · have hlow : Quiet (fun u => (run (step base) p i u).stream.done) (s + 1) (e + 1) :=
      fun u hu hsu => (hbusy u hsu (by omega)).2
    rw [donePulses, countIn_succ _ (by omega), countIn_quiet (by omega) (by omega) hlow, hdone,
      hstarted, List.length_append, ← h.pulses]
    rfl
  · rw [hstarted, hram, h.ramC, execAll, execAll, List.foldl_append]
    rfl

/-- Holds at every cycle in which the datapath is free. -/
theorem executed_run {mem : BitVec A → Lanes8 N} (hN : 0 < N) (hA : N ≤ 2 ^ A)
    (hr : (i r).rst = true) (hrun : ∀ t, r < t → (i t).rst = false)
    (hmem : ∀ t, r < t → (i t).awMem = mem)
    (hrows : ∀ t, ∀ c ∈ accepted base p i (r + 1) t, c.mRows.toNat + (2 * N - 1) ≤ 2 ^ 32)
    (t : ℕ) (ht : r < t) (hfree : (run (step base) p i t).stream.busy = false) :
    Executed base p i mem r t := by
  have hf : ∀ s, r < s → StreamTop.Accepts p.stream (streamTrace base p i) s →
      Ctrl.Fits N A (streamTrace base p i s).cmd.mRows.toNat := fun s hrs hacc =>
    ⟨hN, hA, hrows s _ (started_accepted hr hrun hrs hacc.1)⟩
  have hfirst : (run (step base) p i (r + 1)).stream.busy = false :=
    (StreamTop.busy_after_reset (i := topIn (i r) (run (step base) p i r)) hr).1
  refine free_induction (fun u => (run (step base) p i u).stream.busy) hfirst (executed_reset hr)
    (fun u hru hb hb' hprev => ?_) (fun s u hrs hsu hb hbusy hb' hprev => ?_) t ht hfree
  · -- a start pulse would make the next cycle busy
    refine hprev.idle hrun hru hb ?_
    by_contra hstart
    rw [Bool.not_eq_false] at hstart
    have hacc : StreamTop.Accepts p.stream (streamTrace base p i) u :=
      ⟨hstart, by rw [← run_stream]; exact hb⟩
    have hin := StreamTop.busy_run hN (hf u hru hacc) (fun v hv => hrun v (by omega)) hacc
      (t := u + 1) (by omega) (by rw [StreamTop.latency]; omega)
    rw [← run_stream, hb'] at hin
    exact absurd hin.1 (by simp)
  · have hstart : (run (step base) p i s).regs.start = true := by
      rcases busy_rises hrun hrs (hbusy (s + 1) (Nat.lt_succ_self s) hsu) with hbusy' | hstart
      · exact absurd (hbusy'.symm.trans hb) (by simp)
      · exact hstart
    have hacc : StreamTop.Accepts p.stream (streamTrace base p i) s :=
      ⟨hstart, by rw [← run_stream]; exact hb⟩
    have hrun' : ∀ v, s ≤ v → (streamTrace base p i v).rst = false := fun v hv => hrun v (by omega)
    -- the command ends where `busy` falls
    have hend : s + StreamTop.latency N (streamTrace base p i s).cmd = u + 1 := by
      rcases Nat.lt_trichotomy (s + StreamTop.latency N (streamTrace base p i s).cmd) (u + 1) with
        hlt | heq | hgt
      · have hover := (StreamTop.done_run hN (hf s hrs hacc) hrun' hacc).1
        rw [← run_stream, hbusy _ (by rw [StreamTop.latency]; omega) (by omega)] at hover
        cases hover
      · exact heq
      · have hin := (StreamTop.busy_run hN (hf s hrs hacc) hrun' hacc (t := u + 1) (by omega) hgt).1
        rw [← run_stream, hb'] at hin
        cases hin
    rw [← hend]
    exact hprev.command hN hr hrun hmem hrs hacc (hf s hrs hacc)

end runs

/-! ## What a poller sees -/

/-- All registers and memories zero. -/
def demoTop : MmioTop 2 4 where
  regs :=
    { fifoMem := fun _ => ⟨0, 0, 0, 0⟩, fifoWp := 0, fifoRp := 0, fifoCnt := 0, start := false,
      cmd := ⟨0, 0, 0, 0⟩, held := ⟨0, 0, 0, 0⟩, irqEn := false, irqPending := false,
      doneCount := 0 }
  stream := StreamTop.zeroTop 2 4

/-- The stores of two commands, one a cycle: 2 rows from word 2 to word 8, then 3 rows
from word 4 to word 12. -/
def demoStore : ℕ → BitVec 64 × BitVec 64
  | 1 => (0x10000008, 2)
  | 2 => (0x10000010, 8)
  | 3 => (0x10000018, 2)
  | 4 => (0x10000020, 1)
  | 5 => (0x10000008, 4)
  | 6 => (0x10000010, 12)
  | 7 => (0x10000018, 3)
  | 8 => (0x10000020, 1)
  | _ => (0x10000028, 0)

/-- A reset, the stores, then loads of `STATUS`. -/
def demoStores (t : ℕ) : MmioIn 2 4 where
  rst := t == 0
  dmemAddr := (demoStore t).1
  dmemWdata := (demoStore t).2
  dmemWen := 1 ≤ t && t ≤ 8
  dmemFunct3 := f3D
  awMem := fun a c => BitVec.ofNat 8 (a.toNat + 2 * c)

end MmioTop

end CoprocMmio
