import TensorAccel.Driver.Port
import TensorAccel.Framework.Reach
import TensorAccel.Framework.Span
import TensorAccel.Stream.Pipeline

/-! # The driver

    Translation of `sw/coproc_driver.h`, run against the command queue and a
    datapath that stores the rows of a result one at a time.  Every access of
    the driver to the device is one action of its own; the datapath acts at any
    point between two of them.

    `COPROC_TILE` and `COPROC_QDEPTH` are 4, and `COPROC_MAX_ROWS` is 1024. -/

open StreamCtrl CmdQueueRegs Span

namespace CoprocDriver

variable {L : Type _} {A : ℕ}

/-! ## Arguments -/

/-- `C = A @ W`: the operands of `coproc_matmul_tiled`, row-major. -/
structure Problem where
  M : ℕ
  K : ℕ
  N : ℕ
  a : ℕ → BitVec 8
  w : ℕ → BitVec 8

namespace Problem

def nKt (p : Problem) : ℕ := (p.K + 4 - 1) / 4

def nNt (p : Problem) : ℕ := (p.N + 4 - 1) / 4

def total (p : Problem) : ℕ := p.nNt * p.nKt

/-- Rows of the chunk that begins at row `m0`. -/
def mc (p : Problem) (m0 : ℕ) : ℕ := if p.M - m0 > 1024 then 1024 else p.M - m0

/-- `coproc_pack_wtile`, entry `out[i][j]`. -/
def packWtile (p : Problem) (kt nt i j : ℕ) : BitVec 8 :=
  let r := kt * 4 + i
  let c := nt * 4 + j
  if r < p.K ∧ c < p.N then p.w (r * p.N + c) else 0

/-- `coproc_pack_atile`, entry `out[m * 4 + j]`. -/
def packAtile (p : Problem) (m0 kt m j : ℕ) : BitVec 8 :=
  let r := m0 + m
  let c := kt * 4 + j
  if r < p.M ∧ c < p.K then p.a (r * p.K + c) else 0

/-- The `k`-th byte that tile `i` of the schedule puts at `w_base`. -/
def wByte (p : Problem) (i k : ℕ) : BitVec 8 :=
  p.packWtile (i % p.nKt) (i / p.nKt) (k / 4) (k % 4)

/-- The `k`-th byte that tile `i` of the schedule puts at `a_base`. -/
def aByte (p : Problem) (m0 i k : ℕ) : BitVec 8 :=
  p.packAtile m0 (i % p.nKt) (k / 4) (k % 4)

/-- The loops that clear the rows of a chunk in `C`. -/
def zeroRows (p : Problem) (m0 : ℕ) : (ℕ → BitVec 32) → ℕ → BitVec 32 :=
  forLoop (fun c => forLoop (fun m C => Function.update C ((m0 + m) * p.N + c) 0) (p.mc m0)) p.N

/-- The loops that add a result tile to column block `nt` of a chunk. -/
def accumulate (p : Problem) (m0 nt : ℕ) (ct : ℕ → BitVec 32) :
    (ℕ → BitVec 32) → ℕ → BitVec 32 :=
  forLoop (fun m => forLoop (fun j C =>
    let col := nt * 4 + j
    if col < p.N then
      Function.update C ((m0 + m) * p.N + col) (C ((m0 + m) * p.N + col) + ct (m * 4 + j))
    else C) 4) (p.mc m0)

end Problem

/-! ## Buffers -/

/-- The regions of a queue slot. -/
inductive Part where
  | w | a | c
  deriving DecidableEq, Repr

/-- Bytes that `coproc_buffers` asks for. -/
def Part.size : Part → ℕ
  | .w => 16
  | .a => 1024 * 4
  | .c => 1024 * 4 * 4

/-- `coproc_buffers`, with the memories its byte addresses point into: the
device reads through `rd` and writes through `wr`, which may be two RAMs or one. -/
structure Layout (L : Type _) where
  rd : ℕ → L
  wr : ℕ → L
  wBase : Fin 4 → ℕ
  aBase : Fin 4 → ℕ
  cBase : Fin 4 → ℕ

namespace Layout

def base (b : Layout L) : Part → Fin 4 → ℕ
  | .w => b.wBase
  | .a => b.aBase
  | .c => b.cBase

/-- Byte `k` of a region. -/
def loc (b : Layout L) : Part → Fin 4 → ℕ → L
  | .w, s, k => b.rd (b.wBase s + k)
  | .a, s, k => b.rd (b.aBase s + k)
  | .c, s, k => b.wr (b.cBase s + k)

end Layout

/-- Buffers the driver may be given: every region lies in the address space of
the device's ports, and no byte belongs to two regions. -/
structure Buffers (L : Type _) (A : ℕ) extends Layout L where
  port_width : A ≤ 64
  fits : ∀ q s, toLayout.base q s + q.size ≤ 2 ^ A
  apart : ∀ {q s k r t l}, k < q.size → l < r.size → toLayout.loc q s k = toLayout.loc r t l →
    q = r ∧ s = t ∧ k = l

/-- The queue slot of tile `i`. -/
def slot (i : ℕ) : Fin 4 := Fin.ofNat 4 i

/-- The lane that byte `n` of a result row belongs to. -/
def laneOf (n : ℕ) : Fin 4 := Fin.ofNat 4 (n / 4)

/-! ## Datapath -/

section datapath

/-- Weight row `i` of a command, in byte-addressed memory. -/
def weightAt (b : Layout L) (mem : L → BitVec 8) (c : Cmd A) (i : Fin 4) : Lanes8 4 :=
  fun j => mem (b.rd (c.wBase.toNat + (4 * i + j)))

/-- Activation row `k` of a command, in byte-addressed memory. -/
def actAt (b : Layout L) (mem : L → BitVec 8) (c : Cmd A) (k : ℕ) : Lanes8 4 :=
  fun j => mem (b.rd (c.aBase.toNat + (4 * k + j)))

/-- Store product row `k` of a command at `c_base`. -/
def storeResult [DecidableEq L] (b : Layout L) (c : Cmd A) (k : ℕ) (mem : L → BitVec 8) :
    L → BitVec 8 :=
  writeSpan (fun n => b.wr (c.cBase.toNat + (16 * k + n)))
    (fun n => byteOf (productRow (weightAt b mem c) (actAt b mem c k) (laneOf n))
      (n % 4)) 16 mem

end datapath

/-! ## System -/

/-- The holding registers, in the order of `coproc_issue_tile`. -/
inductive Reg where
  | w | a | c | m
  deriving DecidableEq, Repr

/-- Control points of `coproc_matmul_tiled`, with the functions it calls inlined. -/
inductive Pc where
  /-- Enable the interrupt and clear a stale one. -/
  | clear
  /-- The `m0` loop head, the loops that clear `C` and the first `STATUS` read. -/
  | chunk
  /-- The two `while` conditions. -/
  | loop
  | packW
  | packA
  | hold (r : Reg)
  | cmd
  /-- `wait_irq`. -/
  | wait
  | rw1c
  | status
  /-- Copy a result and accumulate it. -/
  | copy
  | ret
  deriving DecidableEq, Repr

structure Sys (L : Type _) (A : ℕ) where
  pc : Pc
  m0 : ℕ
  issued : ℕ
  collected : ℕ
  base : BitVec 32
  C : ℕ → BitVec 32
  port : Port A
  /-- The command of the datapath, and how many of its rows it has stored. -/
  running : Option (Cmd A × ℕ)
  mem : L → BitVec 8
  /-- Completions since the `STATUS` read of the chunk; no step reads it. -/
  done : ℕ

inductive Act where
  | driver | start | store | complete
  deriving DecidableEq, Repr

/-- The driver starts against an idle device. -/
structure Init (s : Sys L A) : Prop where
  pc : s.pc = .clear
  m0 : s.m0 = 0
  issued : s.issued = 0
  collected : s.collected = 0
  done : s.done = 0
  waiting : s.port.waiting = []
  running : s.running = none

def Reg.off : Reg → BitVec 6
  | .w => offW
  | .a => offA
  | .c => offC
  | .m => offM

/-- The holding registers after a store of `v`. -/
def Reg.set (v : BitVec 64) (c : Cmd A) : Reg → Cmd A
  | .w => { c with wBase := v.setWidth A }
  | .a => { c with aBase := v.setWidth A }
  | .c => { c with cBase := v.setWidth A }
  | .m => { c with mRows := v.setWidth 32 }

@[simp] theorem regWrite_off (d : Port A) (v : BitVec 64) (r : Reg) :
    d.regWrite r.off v = { d with held := r.set v d.held } := by
  unfold Port.regWrite
  cases r <;> simp [Reg.off, Reg.set, offW, offA, offC, offM]

def Reg.next : Reg → Pc
  | .w => .hold .a
  | .a => .hold .c
  | .c => .hold .m
  | .m => .cmd

/-- What a driver stores to a holding register for the command of a slot. -/
def slotValue (b : Layout L) (t : Fin 4) (rows : ℕ) : Reg → BitVec 64
  | .w => BitVec.ofNat 64 (b.wBase t)
  | .a => BitVec.ofNat 64 (b.aBase t)
  | .c => BitVec.ofNat 64 (b.cBase t)
  | .m => BitVec.ofNat 64 rows

/-- What `coproc_issue_tile` stores to a holding register. -/
def regValue (p : Problem) (b : Layout L) (m0 i : ℕ) : Reg → BitVec 64 :=
  slotValue b (slot i) (p.mc m0)

/-- `ct_buf` after the copy of result slot `s`. -/
def ctBuf (b : Layout L) (mem : L → BitVec 8) (s : Fin 4) (n : ℕ) : BitVec 32 :=
  word32 fun k => mem (b.wr (b.cBase s + (4 * n + k)))

namespace Sys

/-- The loop condition of `coproc_wait_retired`, false once enough commands
seem to have retired. -/
def notRetired (s : Sys L A) : Bool :=
  s.port.doneField - s.base < BitVec.ofNat 32 (s.collected + 1)

variable [DecidableEq L]

/-- One step of the driver, unless it is blocked or has returned. -/
def driver (p : Problem) (b : Layout L) (s : Sys L A) : Option (Sys L A) :=
  match s.pc with
  | .clear => some { s with port := s.port.regWrite offIrq 3, pc := .chunk }
  | .chunk =>
    -- the loops over `C` touch no device, so they share a step with the `STATUS` read
    if s.m0 < p.M then
      some { s with C := p.zeroRows s.m0 s.C, base := s.port.doneField, issued := 0,
                    collected := 0, done := 0, pc := .loop }
    else some { s with pc := .ret }
  | .loop =>
    if s.collected < p.total then
      -- the inner `while`: a queue slot is free, by the driver's own count
      if s.issued < p.total ∧ s.issued - s.collected < 4 then some { s with pc := .packW }
      else some { s with pc := .wait }
    else some { s with m0 := s.m0 + 1024, pc := .chunk }
  | .packW =>
    some { s with mem := writeSpan (fun k => b.rd (b.wBase (slot s.issued) + k))
                           (p.wByte s.issued) 16 s.mem
                  pc := .packA }
  | .packA =>
    some { s with mem := writeSpan (fun k => b.rd (b.aBase (slot s.issued) + k))
                           (p.aByte s.m0 s.issued) (p.mc s.m0 * 4) s.mem
                  pc := .hold .w }
  | .hold r =>
    some { s with port := s.port.regWrite r.off (regValue p b s.m0 s.issued r), pc := r.next }
  | .cmd => some { s with port := s.port.regWrite offCmd 1, issued := s.issued + 1, pc := .loop }
  -- `wait_irq` returns once the interrupt line is high
  | .wait => if s.port.irq then some { s with pc := .rw1c } else none
  | .rw1c => some { s with port := s.port.regWrite offIrq 3, pc := .status }
  | .status => if s.notRetired then some { s with pc := .wait } else some { s with pc := .copy }
  | .copy =>
    some { s with C := p.accumulate s.m0 (s.collected / p.nKt)
                         (ctBuf b s.mem (slot s.collected)) s.C
                  collected := s.collected + 1
                  pc := .loop }
  | .ret => none

/-- One action of the driver or the datapath. -/
def step (p : Problem) (b : Layout L) (a : Act) (s : Sys L A) : Option (Sys L A) :=
  match a with
  | .driver => s.driver p b
  | .start =>
    -- the pop of the queue and the start pulse that follows it
    match s.running, s.port.waiting with
    | none, c :: _ => some { s with running := some (c, 0), port := s.port.pop }
    | _, _ => none
  | .store =>
    match s.running with
    | some (c, k) =>
      if k < c.mRows.toNat then
        some { s with mem := storeResult b c k s.mem, running := some (c, k + 1) }
      else none
    | none => none
  | .complete =>
    match s.running with
    | some (c, k) =>
      if k = c.mRows.toNat then
        some { s with running := none, port := s.port.retire, done := s.done + 1 }
      else none
    | none => none

end Sys

/-- Commands queued or running, oldest first. -/
def Sys.outstanding (s : Sys L A) : List (Cmd A) :=
  (s.running.map Prod.fst).toList ++ s.port.waiting

/-! ## What a step can do -/

section moves
variable [DecidableEq L] {p : Problem} {b : Layout L} {s s' : Sys L A}

/-- The steps from `s`, with their guards. -/
inductive Move (p : Problem) (b : Layout L) (s : Sys L A) : Act → Sys L A → Prop
  | clear (hpc : s.pc = .clear) :
      Move p b s .driver { s with port := s.port.regWrite offIrq 3, pc := .chunk }
  | chunk (hpc : s.pc = .chunk) (hm : s.m0 < p.M) :
      Move p b s .driver { s with C := p.zeroRows s.m0 s.C, base := s.port.doneField, issued := 0,
                                  collected := 0, done := 0, pc := .loop }
  | finish (hpc : s.pc = .chunk) (hm : ¬ s.m0 < p.M) : Move p b s .driver { s with pc := .ret }
  | issue (hpc : s.pc = .loop) (hc : s.collected < p.total)
      (hi : s.issued < p.total ∧ s.issued - s.collected < 4) :
      Move p b s .driver { s with pc := .packW }
  | await (hpc : s.pc = .loop) (hc : s.collected < p.total)
      (hi : ¬ (s.issued < p.total ∧ s.issued - s.collected < 4)) :
      Move p b s .driver { s with pc := .wait }
  | nextChunk (hpc : s.pc = .loop) (hc : ¬ s.collected < p.total) :
      Move p b s .driver { s with m0 := s.m0 + 1024, pc := .chunk }
  | packW (hpc : s.pc = .packW) :
      Move p b s .driver
        { s with mem := writeSpan (fun k => b.rd (b.wBase (slot s.issued) + k))
                          (p.wByte s.issued) 16 s.mem
                 pc := .packA }
  | packA (hpc : s.pc = .packA) :
      Move p b s .driver
        { s with mem := writeSpan (fun k => b.rd (b.aBase (slot s.issued) + k))
                          (p.aByte s.m0 s.issued) (p.mc s.m0 * 4) s.mem
                 pc := .hold .w }
  | hold (r : Reg) (hpc : s.pc = .hold r) :
      Move p b s .driver
        { s with port := s.port.regWrite r.off (regValue p b s.m0 s.issued r), pc := r.next }
  | cmd (hpc : s.pc = .cmd) :
      Move p b s .driver
        { s with port := s.port.regWrite offCmd 1, issued := s.issued + 1, pc := .loop }
  | wake (hpc : s.pc = .wait) (hirq : s.port.irq = true) :
      Move p b s .driver { s with pc := .rw1c }
  | rw1c (hpc : s.pc = .rw1c) :
      Move p b s .driver { s with port := s.port.regWrite offIrq 3, pc := .status }
  | retry (hpc : s.pc = .status) (hnot : s.notRetired = true) :
      Move p b s .driver { s with pc := .wait }
  | retired (hpc : s.pc = .status) (hnot : s.notRetired = false) :
      Move p b s .driver { s with pc := .copy }
  | copy (hpc : s.pc = .copy) :
      Move p b s .driver
        { s with C := p.accumulate s.m0 (s.collected / p.nKt)
                        (ctBuf b s.mem (slot s.collected)) s.C
                 collected := s.collected + 1
                 pc := .loop }
  | start (c : Cmd A) (q : List (Cmd A)) (hrun : s.running = none)
      (hwait : s.port.waiting = c :: q) :
      Move p b s .start { s with running := some (c, 0), port := s.port.pop }
  | store (c : Cmd A) (k : ℕ) (hrun : s.running = some (c, k)) (hk : k < c.mRows.toNat) :
      Move p b s .store { s with mem := storeResult b c k s.mem, running := some (c, k + 1) }
  | complete (c : Cmd A) (hrun : s.running = some (c, c.mRows.toNat)) :
      Move p b s .complete { s with running := none, port := s.port.retire, done := s.done + 1 }

theorem move_of_driver (h : s.driver p b = some s') : Move p b s .driver s' := by
  unfold Sys.driver at h
  cases hpc : s.pc with
  | clear => rw [hpc] at h; obtain rfl := Option.some.inj h; exact .clear hpc
  | chunk =>
    simp only [hpc] at h
    split at h
    · next hm => obtain rfl := Option.some.inj h; exact .chunk hpc hm
    · next hm => obtain rfl := Option.some.inj h; exact .finish hpc hm
  | loop =>
    simp only [hpc] at h
    split at h
    · next hc =>
      split at h
      · next hi => obtain rfl := Option.some.inj h; exact .issue hpc hc hi
      · next hi => obtain rfl := Option.some.inj h; exact .await hpc hc hi
    · next hc => obtain rfl := Option.some.inj h; exact .nextChunk hpc hc
  | packW => rw [hpc] at h; obtain rfl := Option.some.inj h; exact .packW hpc
  | packA => rw [hpc] at h; obtain rfl := Option.some.inj h; exact .packA hpc
  | hold r => rw [hpc] at h; obtain rfl := Option.some.inj h; exact .hold r hpc
  | cmd => rw [hpc] at h; obtain rfl := Option.some.inj h; exact .cmd hpc
  | wait =>
    simp only [hpc] at h
    split at h
    · next hirq => obtain rfl := Option.some.inj h; exact .wake hpc hirq
    · cases h
  | rw1c => rw [hpc] at h; obtain rfl := Option.some.inj h; exact .rw1c hpc
  | status =>
    simp only [hpc] at h
    split at h
    · next hnot => obtain rfl := Option.some.inj h; exact .retry hpc hnot
    · next hnot =>
      obtain rfl := Option.some.inj h
      exact .retired hpc (Bool.eq_false_of_not_eq_true hnot)
  | copy => rw [hpc] at h; obtain rfl := Option.some.inj h; exact .copy hpc
  | ret => rw [hpc] at h; cases h

theorem move_of_step {a : Act} (h : s.step p b a = some s') : Move p b s a s' := by
  cases a with
  | driver => exact move_of_driver h
  | start =>
    dsimp only [Sys.step] at h
    split at h
    · next c q hrun hwait => obtain rfl := Option.some.inj h; exact .start c q hrun hwait
    · cases h
  | store =>
    dsimp only [Sys.step] at h
    split at h
    · next c k hrun =>
      split at h
      · next hk => obtain rfl := Option.some.inj h; exact .store c k hrun hk
      · cases h
    · cases h
  | complete =>
    dsimp only [Sys.step] at h
    split at h
    · next c k hrun =>
      split at h
      · next hk =>
        subst hk
        obtain rfl := Option.some.inj h
        exact .complete c hrun
      · cases h
    · cases h

end moves

end CoprocDriver
