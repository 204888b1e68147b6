import TensorAccel.Framework.BurstPort
import TensorAccel.Framework.Ring
import TensorAccel.Stream.StreamCtrl
import Mathlib.Data.Nat.Log

/-! # The AXI bridge

    Translation of `rtl/axi/axi4_dma_bridge.sv`, wired to `systolic_array` as
    in `rtl/axi/stream_axi_top.sv`.  The three `always_ff` blocks of the source
    are `RdEngine.step`, `WrEngine.step` and the last three fields of
    `Dma.step`.

    The subordinates are the environment: `Bus` is a monitor of the two ports
    and `Legal` says what an AXI subordinate may do in a cycle. -/

open Clocked Ring Burst StreamCtrl

namespace DmaBridge

variable {N A : ℕ}

/-! ## Model -/

/-- The parameters `RD_FIFO_DEPTH` and `WR_FIFO_DEPTH`, both of type `int`. -/
structure Depths where
  rd : ℕ
  wr : ℕ
  rd_pos : 0 < rd
  wr_pos : 0 < wr
  rd_lt : rd < 2 ^ 31
  wr_lt : wr < 2 ^ 31

/-- Input ports of `axi4_dma_bridge`. -/
structure DmaIn (N A : ℕ) where
  rst : Bool
  start : Bool
  /-- `w_base`, `a_base`, `c_base` (byte addresses) and `m_rows`. -/
  cmd : Cmd A
  arready : Bool
  rdata : Lanes8 N
  rlast : Bool
  rvalid : Bool
  awready : Bool
  wready : Bool
  bvalid : Bool

/-- One of the two circular FIFOs, `rfifo` and `wfifo`, with its `_count`,
`_wptr` and `_rptr`. -/
structure Fifo (Word : Type) where
  mem : ℕ → Word
  count : BitVec 32
  wptr : ℕ
  rptr : ℕ

namespace Fifo

variable {Word : Type}

/-- The word that a pop takes out. -/
def head (f : Fifo Word) : Word := f.mem f.rptr

def reset (f : Fifo Word) : Fifo Word := { f with count := 0, wptr := 0, rptr := 0 }

/-- One clock edge.  Nothing is checked: a pop of an empty FIFO and a push into
a full one move the pointers and the count all the same. -/
def step (D : ℕ) (push pop : Bool) (x : Word) (f : Fifo Word) : Fifo Word where
  mem := if push then Function.update f.mem f.wptr x else f.mem
  wptr := if push then next D f.wptr else f.wptr
  rptr := if pop then next D f.rptr else f.rptr
  -- a pop and a push in one cycle leave the count alone
  count :=
    match pop, push with
    | true, false => f.count - 1
    | false, true => f.count + 1
    | _, _ => f.count

/-- The FIFO represents the queue `q`. -/
def Represents (D : ℕ) (f : Fifo Word) (q : List Word) : Prop :=
  Holds D f.mem f.wptr f.rptr f.count.toNat q

section represents
variable {D : ℕ} {f : Fifo Word} {q : List Word}

theorem Represents.length (h : Represents D f q) : q.length = f.count.toNat := Holds.length h

theorem Represents.head {x : Word} (h : Represents D f (x :: q)) : f.head = x := Holds.head h

/-- The word behind the head. -/
theorem Represents.second {x y : Word} (h : Represents D f (x :: y :: q)) :
    f.mem (next D f.rptr) = y := by
  have hcnt : f.count.toNat = q.length + 1 + 1 := by
    rw [← h.length]
    simp
  rw [Represents, hcnt] at h
  rw [next_eq h.rp_lt]
  exact h.pop.head

theorem represents_reset (hD : 0 < D) (f : Fifo Word) : Represents D f.reset [] :=
  Holds.empty hD

/-- A pop takes the head off, a push appends. -/
theorem Represents.step (hD : D < 2 ^ 31) (h : Represents D f q) (push pop : Bool) (x : Word)
    (hpop : pop = true → q ≠ []) (hpush : push = true → q.length < D) :
    Represents D (f.step D push pop x)
      ((if pop then q.tail else q) ++ if push then [x] else []) := by
  have hcap := h.cap
  have hwp : next D f.wptr = (f.wptr + 1) % D := next_eq h.wp_lt
  have hrp : next D f.rptr = (f.rptr + 1) % D := next_eq h.rp_lt
  cases pop with
  | false =>
    cases push with
    | false => simpa [Fifo.step] using h
    | true =>
      have hroom := hpush rfl
      rw [h.length] at hroom
      have hcnt : (f.count + 1).toNat = f.count.toNat + 1 := by
        rw [BitVec.toNat_add]
        exact Nat.mod_eq_of_lt (by simp; omega)
      have hnext := Holds.push h hroom x
      rw [← hwp, ← hcnt] at hnext
      simpa [Fifo.step, Represents] using hnext
  | true =>
    obtain ⟨y, q, rfl⟩ := List.exists_cons_of_ne_nil (hpop rfl)
    have hcnt : f.count.toNat = q.length + 1 := by rw [← h.length, List.length_cons]
    have hsub : (f.count - 1).toNat = q.length := by
      simp [BitVec.toNat_sub]
      omega
    have hrest := h
    rw [Represents, hcnt] at hrest
    have hpopped := hrest.pop
    cases push with
    | false =>
      rw [← hrp, ← hsub] at hpopped
      simpa [Fifo.step, Represents] using hpopped
    | true =>
      -- the pop comes first, so that the push finds room in a full FIFO too
      have hnext := hpopped.push (by have := hpush rfl; simp at this; omega) x
      rw [← hrp, ← hwp, ← hcnt] at hnext
      simpa [Fifo.step, Represents] using hnext

/-- The count follows the pushes and pops as long as it does not wrap. -/
theorem count_step {push pop : Bool} (x : Word) (hpop : pop = true → 0 < f.count.toNat)
    (hpush : push = true → f.count.toNat < 2 ^ 31) :
    (f.step D push pop x).count.toNat + pop.toNat = f.count.toNat + push.toNat := by
  cases pop with
  | false =>
    cases push with
    | false => simp [Fifo.step]
    | true =>
      have := hpush rfl
      simp [Fifo.step]
      omega
  | true =>
    have := hpop rfl
    cases push with
    | false =>
      simp [Fifo.step, BitVec.toNat_sub]
      omega
    | true => simp [Fifo.step]

end represents

end Fifo

inductive RState
  | idle | issue | burst
  deriving DecidableEq, Repr

/-- Registers of the read engine. -/
structure RdEngine (N A : ℕ) where
  rf : Fifo (Lanes8 N)
  ctrlRdData : Lanes8 N
  wBaseLat : BitVec A
  aBaseLat : BitVec A
  cBaseLat : BitVec A
  rdTotal : BitVec 32
  rdIssued : BitVec 32
  rstate : RState
  araddr : BitVec A
  arlen : BitVec 8
  arvalid : Bool
  rready : Bool

/-- `RBYTES`: bytes per read beat. -/
def rbytes (N : ℕ) : ℕ := N

/-- `WBYTES`: bytes per write beat. -/
def wbytes (N : ℕ) : ℕ := N * 4

/-- `arsize`, the low bits of `RSIZE`. -/
def arsize (N : ℕ) : BitVec 3 := BitVec.ofNat 3 (Nat.clog 2 (rbytes N))

/-- `awsize`, the low bits of `WSIZE`. -/
def awsize (N : ℕ) : BitVec 3 := BitVec.ofNat 3 (Nat.clog 2 (wbytes N))

/-- For the bus widths that AXI has, a beat advances the address by the size
that its request announces. -/
theorem beat_sizes {k : ℕ} (hk : k < 6) :
    2 ^ (arsize (2 ^ k)).toNat = rbytes (2 ^ k) ∧ 2 ^ (awsize (2 ^ k)).toNat = wbytes (2 ^ k) := by
  have hw : wbytes (2 ^ k) = 2 ^ (k + 2) := by
    unfold wbytes
    rw [Nat.pow_add]
  unfold arsize awsize
  rw [hw]
  unfold rbytes
  rw [Nat.clog_pow 2 k (by decide), Nat.clog_pow 2 (k + 2) (by decide), BitVec.toNat_ofNat,
    BitVec.toNat_ofNat, Nat.mod_eq_of_lt (by omega), Nat.mod_eq_of_lt (by omega)]
  exact ⟨rfl, rfl⟩

namespace RdEngine

def rdNextAddr (s : RdEngine N A) (issued : BitVec 32) : BitVec A :=
  if issued < BitVec.ofNat 32 N then s.wBaseLat + BitVec.ofNat A (issued.toNat * rbytes N)
  else s.aBaseLat + BitVec.ofNat A ((issued.toNat - N) * rbytes N)

def rdRemaining (s : RdEngine N A) (issued : BitVec 32) : BitVec 32 :=
  if issued < BitVec.ofNat 32 N then BitVec.ofNat 32 N - issued else s.rdTotal - issued

def nextBurstLen (D : ℕ) (s : RdEngine N A) : BitVec 8 :=
  let rem := s.rdRemaining s.rdIssued
  let rfRoom := BitVec.ofNat 32 D - s.rf.count
  let room8 : BitVec 32 := if 16 < rfRoom then 16 else rfRoom
  if rem < room8 then rem.setWidth 8 else room8.setWidth 8

/-- A read beat is accepted, and pushed into the FIFO. -/
def push (i : DmaIn N A) (s : RdEngine N A) : Bool := i.rvalid && s.rready

/-- The burst whose address is accepted. -/
def arAccepted (i : DmaIn N A) (s : RdEngine N A) : Option (Req A) :=
  if s.arvalid && i.arready then some ⟨s.araddr, s.arlen.toNat + 1⟩ else none

theorem push_eq_false {i : DmaIn N A} {s : RdEngine N A} (h : s.rready = false) : s.push i = false := by
  rw [push, h, Bool.and_false]

theorem arAccepted_eq_none {i : DmaIn N A} {s : RdEngine N A} (h : s.arvalid = false) :
    s.arAccepted i = none := by
  rw [arAccepted, h]
  rfl

/-- One clock edge; `accept` is `start && !busy`, `rdEn` the strobe of `u_ctrl`. -/
def step (D : ℕ) (i : DmaIn N A) (accept rdEn : Bool) (s : RdEngine N A) : RdEngine N A :=
  if i.rst then
    { s with rstate := .idle, rdIssued := 0, rdTotal := 0, rf := s.rf.reset, arvalid := false,
             rready := false }
  else
    let s' := { s with
      arvalid := s.arvalid && !i.arready
      ctrlRdData := if rdEn then s.rf.head else s.ctrlRdData
      rf := s.rf.step D (s.push i) rdEn i.rdata
      rready := false }
    match s.rstate with
    | .idle =>
      if accept then
        { s' with wBaseLat := i.cmd.wBase, aBaseLat := i.cmd.aBase, cBaseLat := i.cmd.cBase,
                  rdTotal := BitVec.ofNat 32 N + i.cmd.mRows, rdIssued := 0, rstate := .issue }
      else s'
    | .issue =>
      -- no burst is issued ahead: the next one waits for the last beat of this one
      if s.rdTotal ≤ s.rdIssued then { s' with rstate := .idle }
      else if s.nextBurstLen D != 0 && !s.arvalid then
        { s' with araddr := s.rdNextAddr s.rdIssued, arlen := s.nextBurstLen D - 1,
                  arvalid := true, rstate := .burst }
      else s'
    | .burst =>
      -- the end of a burst is taken from `rlast`, no beat is counted
      if s.push i then
        if i.rlast then { s' with rdIssued := s.rdIssued + 1, rstate := .issue }
        else { s' with rdIssued := s.rdIssued + 1, rready := true }
      else { s' with rready := true }

theorem step_rf (D : ℕ) {i : DmaIn N A} (accept rdEn : Bool) (s : RdEngine N A) (hr : i.rst = false) :
    (s.step D i accept rdEn).rf = s.rf.step D (s.push i) rdEn i.rdata := by
  unfold step
  rw [hr]
  cases s.rstate with
  | idle =>
    simp only [Bool.false_eq_true, if_false]
    split <;> rfl
  | issue =>
    simp only [Bool.false_eq_true, if_false]
    split
    · rfl
    · split <;> rfl
  | burst =>
    simp only [Bool.false_eq_true, if_false]
    split
    · split <;> rfl
    · rfl

/-- `rd_all_buffered`. -/
def allBuffered (s : RdEngine N A) : Bool :=
  s.rdTotal != 0 && s.rdIssued == s.rdTotal && s.rstate == .idle && s.rf.count == s.rdTotal

end RdEngine

inductive WState
  | idle | aw | data | bresp
  deriving DecidableEq, Repr

/-- Registers of the write engine. -/
structure WrEngine (N A : ℕ) where
  wf : Fifo (Lanes32 N)
  wrTotal : BitVec 32
  wrIssued : BitVec 32
  wrAcked : BitVec 32
  wstate : WState
  wBurstLen : BitVec 8
  wBeatCnt : BitVec 8
  awaddr : BitVec A
  awlen : BitVec 8
  awvalid : Bool
  wdata : Lanes32 N
  wlast : Bool
  wvalid : Bool

namespace WrEngine

/-- The remaining rows are looked at modulo 256. -/
def nextWburstLen (s : WrEngine N A) : BitVec 8 :=
  let rem := s.wrTotal - s.wrIssued
  let len : BitVec 8 := if s.wf.count < 16 then s.wf.count.setWidth 8 else 16
  if rem.setWidth 8 < len then rem.setWidth 8 else len

/-- `wstrb`: all byte lanes. -/
def wstrb (N : ℕ) : BitVec (N * 4) := BitVec.allOnes (N * 4)

/-- A write beat is accepted, and popped from the FIFO. -/
def sent (i : DmaIn N A) (s : WrEngine N A) : Bool := s.wvalid && i.wready

/-- The burst whose address is accepted. -/
def awAccepted (i : DmaIn N A) (s : WrEngine N A) : Option (Req A) :=
  if s.awvalid && i.awready then some ⟨s.awaddr, s.awlen.toNat + 1⟩ else none

theorem sent_eq_false {i : DmaIn N A} {s : WrEngine N A} (h : s.wvalid = false) : s.sent i = false := by
  rw [sent, h, Bool.false_and]

theorem awAccepted_eq_none {i : DmaIn N A} {s : WrEngine N A} (h : s.awvalid = false) :
    s.awAccepted i = none := by
  rw [awAccepted, h]
  rfl

/-- One clock edge; `accept` is `rstate == R_IDLE && start && !busy`, `wrEn` and
`wrData` come from `u_ctrl`.  The state machine wins over `accept`. -/
def step (D : ℕ) (i : DmaIn N A) (accept : Bool) (cBaseLat : BitVec A) (wrEn : Bool)
    (wrData : Lanes32 N) (s : WrEngine N A) : WrEngine N A :=
  if i.rst then
    { s with wstate := .idle, wf := s.wf.reset, wrTotal := 0, wrIssued := 0, wrAcked := 0,
             awvalid := false, wvalid := false, wlast := false }
  else
    let s' := { s with
      wf := s.wf.step D wrEn (s.sent i) wrData
      wrTotal := if accept then i.cmd.mRows else s.wrTotal
      wrIssued := if accept then 0 else s.wrIssued
      wrAcked := if accept then 0 else s.wrAcked }
    match s.wstate with
    | .idle =>
      if s.wrIssued < s.wrTotal && s.nextWburstLen != 0 then
        { s' with awaddr := cBaseLat + BitVec.ofNat A (s.wrIssued.toNat * wbytes N),
                  awlen := s.nextWburstLen - 1, awvalid := true, wBurstLen := s.nextWburstLen,
                  wBeatCnt := 0, wstate := .aw }
      else s'
    | .aw =>
      if s.awvalid && i.awready then
        { s' with awvalid := false, wvalid := true, wdata := s.wf.head,
                  wlast := s.wBurstLen == 1, wstate := .data }
      else s'
    | .data =>
      -- `wlast` is computed a beat ahead, while `w_beat_cnt` lags a beat behind
      if s.sent i then
        if s.wlast then
          { s' with wBeatCnt := s.wBeatCnt + 1, wvalid := false, wlast := false,
                    wrIssued := s.wrIssued + s.wBurstLen.setWidth 32, wstate := .bresp }
        else
          { s' with wBeatCnt := s.wBeatCnt + 1, wdata := s.wf.mem (next D s.wf.rptr),
                    wlast := s.wBeatCnt.setWidth 32 + 2 == s.wBurstLen.setWidth 32 }
      else s'
    | .bresp =>
      if i.bvalid then
        { s' with wrAcked := s.wrAcked + s.wBurstLen.setWidth 32, wstate := .idle }
      else s'

end WrEngine

inductive BState
  | idle | prefetch | run | drain
  deriving DecidableEq, Repr

/-- All registers, those of `u_ctrl` and of the array included. -/
structure Dma (N A : ℕ) where
  core : Core N 32
  rd : RdEngine N A
  wr : WrEngine N A
  bstate : BState
  ctrlStart : Bool
  done : Bool

namespace Dma

def busy (s : Dma N A) : Bool := s.bstate != .idle

/-- The start pulse is looked at. -/
def accept (i : DmaIn N A) (s : Dma N A) : Bool := i.start && !s.busy

/-- The ports of `u_ctrl`: its bases are tied to 0 and its `m_rows` is the input
port, not a latched copy. -/
def coreIn (i : DmaIn N A) (s : Dma N A) : CoreIn N 32 where
  rst := i.rst
  start := s.ctrlStart
  cmd := ⟨0, 0, 0, i.cmd.mRows⟩
  rdData := s.rd.ctrlRdData

def step (d : Depths) (i : DmaIn N A) (s : Dma N A) : Dma N A where
  core := Core.step (coreIn i s) s.core
  rd := s.rd.step d.rd i (accept i s) s.core.ctrl.rdEn
  wr := s.wr.step d.wr i (s.rd.rstate == .idle && accept i s) s.rd.cBaseLat s.core.ctrl.wrEn
    s.core.wrData
  bstate :=
    if i.rst then .idle
    else match s.bstate with
      | .idle => if i.start then .prefetch else .idle
      | .prefetch => if s.rd.allBuffered then .run else .prefetch
      | .run => if s.core.ctrl.done then .drain else .run
      | .drain => if s.wr.wrTotal ≤ s.wr.wrAcked then .idle else .drain
  -- both pulses are registered: they come in the cycle after the one that decides
  ctrlStart := !i.rst && s.bstate == .prefetch && s.rd.allBuffered
  done := !i.rst && s.bstate == .drain && s.wr.wrTotal ≤ s.wr.wrAcked

end Dma

/-! ## The bus -/

/-- A monitor of both ports; `bDue` counts the written bursts without response. -/
structure Bus (A : ℕ) where
  rd : Port A
  wr : Port A
  bDue : ℕ

/-- The bridge and the monitor. -/
structure Sys (N A : ℕ) where
  dma : Dma N A
  bus : Bus A

namespace Sys

/-- One clock edge; `bready` is constantly high. -/
def step (d : Depths) (i : DmaIn N A) (s : Sys N A) : Sys N A where
  dma := s.dma.step d i
  bus :=
    if i.rst then ⟨Port.idle, Port.idle, 0⟩
    else
      { rd := s.bus.rd.step (s.dma.rd.arAccepted i) (s.dma.rd.push i)
        wr := s.bus.wr.step (s.dma.wr.awAccepted i) (s.dma.wr.sent i)
        bDue := s.bus.bDue - i.bvalid.toNat + (s.dma.wr.sent i && s.dma.wr.wlast).toNat }

/-- What the subordinates may drive: read data only for a pending burst, with
`RLAST` exactly on its last beat, and a response only for a written burst.
Stalls are free. -/
structure Legal (i : DmaIn N A) (s : Sys N A) : Prop where
  rvalid : i.rvalid = true → s.bus.rd.pending ≠ [] ∧ i.rlast = s.bus.rd.lastBeat
  bvalid : i.bvalid = true → 0 < s.bus.bDue

instance (i : DmaIn N A) (s : Sys N A) : Decidable (Legal i s) :=
  decidable_of_iff
    ((i.rvalid = true → s.bus.rd.pending.isEmpty = false ∧ i.rlast = s.bus.rd.lastBeat) ∧
      (i.bvalid = true → 0 < s.bus.bDue))
    ⟨fun h => ⟨fun hv => ⟨by simpa using (h.1 hv).1, (h.1 hv).2⟩, h.2⟩,
      fun h => ⟨fun hv => ⟨by simpa using (h.rvalid hv).1, (h.rvalid hv).2⟩, h.bvalid⟩⟩

/-- An accepted read beat: the address it answers, and its data. -/
def rBeat (i : DmaIn N A) (s : Sys N A) : Option (Option (BitVec A) × Lanes8 N) :=
  if s.dma.rd.push i then some (s.bus.rd.beatAddr (rbytes N), i.rdata) else none

/-- An accepted write beat: its address, data and strobes. -/
def wBeat (i : DmaIn N A) (s : Sys N A) : Option (Option (BitVec A) × Lanes32 N × BitVec (N * 4)) :=
  if s.dma.wr.sent i then
    some (s.bus.wr.beatAddr (wbytes N), s.dma.wr.wdata, WrEngine.wstrb N)
  else none

end Sys

end DmaBridge
