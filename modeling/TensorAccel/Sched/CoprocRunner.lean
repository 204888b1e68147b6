import TensorAccel.Driver.CoprocDriver
import TensorAccel.Framework.WordMemory
import TensorAccel.Mmio.HostView
import TensorAccel.Sched.LineProtocol

/-! # The process that runs the circuit

    Translation of `sched/coproc_runner.cpp`: a loop that reads a request, acts on
    the pins and memories of the verilated `coproc_axi_sim_top`, and prints a reply.

    An access to a word behind the end of a memory is `none`, and so is a line that
    gets no reply. -/

open Clocked StreamCtrl CmdQueueRegs StreamAxi CoprocAxi WordMemory

namespace CoprocRunner

/-! ## Host memory -/

/-- The loop of `mem_write` on words of `b` bytes, with `done` of `nBytes` bytes copied. -/
def memWriteFrom {w b : ℕ} (nBytes : ℕ) (data : ℕ → BitVec 8) (word : ℕ) (off : Fin b) (done : ℕ)
    (mem : ℕ → BitVec w) : ℕ → BitVec w :=
  if done < nBytes then
    let chunk := min (b - off) (nBytes - done)
    memWriteFrom nBytes data (word + 1) ⟨0, off.pos⟩ (done + chunk)
      (Function.update mem word (setBytes off (fun k => data (done + k)) chunk (mem word)))
  else mem
termination_by nBytes - done
decreasing_by
  have := off.isLt
  omega

/-- `mem_write` -/
def memWrite {w : ℕ} (b : ℕ) [NeZero b] (byteAddr nBytes : ℕ) (data : ℕ → BitVec 8) (mem : ℕ → BitVec w) :
    ℕ → BitVec w :=
  memWriteFrom nBytes data (byteAddr / b) (Fin.ofNat b byteAddr) 0 mem

/-- The loop of `mem_read`. -/
def memReadFrom {w b : ℕ} (nBytes : ℕ) (word : ℕ) (off : Fin b) (done : ℕ) (mem : ℕ → BitVec w) :
    List (BitVec 8) :=
  if done < nBytes then
    let chunk := min (b - off) (nBytes - done)
    (List.range chunk).map (fun k => byte (mem word) (off + k)) ++
      memReadFrom nBytes (word + 1) ⟨0, off.pos⟩ (done + chunk) mem
  else []
termination_by nBytes - done
decreasing_by
  have := off.isLt
  omega

/-- `mem_read` -/
def memRead {w : ℕ} (b : ℕ) [NeZero b] (byteAddr nBytes : ℕ) (mem : ℕ → BitVec w) : List (BitVec 8) :=
  memReadFrom nBytes (byteAddr / b) (Fin.ofNat b byteAddr) 0 mem

section loops
variable {w b nBytes word done a : ℕ} {data : ℕ → BitVec 8} {off : Fin b} {mem : ℕ → BitVec w}

theorem bytes_memWriteFrom (hw : 8 * b ≤ w) :
    bytes b (memWriteFrom nBytes data word off done mem) a =
      if word * b + off ≤ a ∧ a + done < word * b + off + nBytes then data (a + done - (word * b + off))
      else bytes b mem a := by
  induction word, off, done, mem using memWriteFrom.induct nBytes data with
  | case1 word off done mem hlt chunk ih =>
    have hoff := off.isLt
    have hchunk : chunk = min (b - off) (nBytes - done) := rfl
    rw [memWriteFrom, if_pos hlt]
    dsimp only
    rw [ih, bytes_update hw (by omega) (by omega), Nat.succ_mul]
    by_cases hnow : word * b + off ≤ a ∧ a < word * b + off + chunk
    · rw [if_neg (by simp only; omega), if_pos hnow, if_pos (by omega)]
      congr 1
      omega
    · rw [if_neg hnow]
      -- the last chunk may end inside the word
      rcases Nat.le_total (b - off) (nBytes - done) with hfull | hlast
      · have hend : word * b + b + 0 = word * b + off + chunk := by omega
        rw [hend]
        refine if_congr (by omega) ?_ rfl
        congr 1
        omega
      · rw [if_neg (by simp only; omega), if_neg (by omega)]
  | case2 word off done mem hge =>
    rw [memWriteFrom, if_neg hge, if_neg (by omega)]

theorem memReadFrom_eq :
    memReadFrom nBytes word off done mem =
      (List.range (nBytes - done)).map fun k => bytes b mem (word * b + off + k) := by
  induction word, off, done using memReadFrom.induct nBytes with
  | case1 word off done hlt chunk ih =>
    have hoff := off.isLt
    have hchunk : chunk = min (b - off) (nBytes - done) := rfl
    have hthis : ∀ k < chunk, byte (mem word) (off + k) = bytes b mem (word * b + off + k) := by
      intro k hk
      have hdiv : (word * b + off + k) / b = word := by
        rw [Nat.div_eq_iff (by omega)]
        omega
      have hmod : (word * b + off + k) % b = off + k := by
        have hsplit := Nat.div_add_mod' (word * b + off + k) b
        rw [hdiv] at hsplit
        omega
      rw [bytes, hdiv, hmod]
    have hlen : nBytes - done = chunk + (nBytes - (done + chunk)) := by omega
    have hstep : memReadFrom nBytes word off done mem = (List.range chunk).map (fun k => byte (mem word) (off + k)) ++
        memReadFrom nBytes (word + 1) ⟨0, off.pos⟩ (done + chunk) mem := by
      rw [memReadFrom, if_pos hlt]
    rw [hstep, ih, hlen, List.range_add, List.map_append, List.map_map]
    congr 1
    · exact List.map_congr_left fun k hk => hthis k (List.mem_range.mp hk)
    · refine List.map_congr_left fun k hk => ?_
      have hk := List.mem_range.mp hk
      have hnext : (word + 1) * b + 0 + k = word * b + off + (chunk + k) := by
        rw [Nat.succ_mul]
        omega
      simp only [Function.comp, hnext]
  | case2 word off done hge =>
    rw [memReadFrom, if_neg hge, Nat.sub_eq_zero_of_le (by omega)]
    rfl

variable [NeZero b] {addr : ℕ}

theorem addr_split (addr : ℕ) : addr / b * b + (Fin.ofNat b addr : Fin b) = addr := Nat.div_add_mod' addr b

/-- `mem_write` replaces the bytes of its range. -/
theorem bytes_memWrite (hw : 8 * b ≤ w) : bytes b (memWrite b addr nBytes data mem) a =
    if addr ≤ a ∧ a < addr + nBytes then data (a - addr) else bytes b mem a := by
  rw [memWrite, bytes_memWriteFrom hw, addr_split]
  rfl

/-- `mem_read` returns them. -/
theorem memRead_eq : memRead b addr nBytes mem = (List.range nBytes).map fun k => bytes b mem (addr + k) := by
  rw [memRead, memReadFrom_eq, addr_split]
  rfl

end loops

/-- `RD_WBYTES` and `WR_WBYTES`. -/
def wbytes : Region → ℕ
  | .rd => 4
  | .wr => 16

instance (which : Region) : NeZero (wbytes which) := ⟨by cases which <;> decide⟩

/-- `RD_DEPTH` and `WR_DEPTH`. -/
def depth : Region → ℕ
  | .rd => 65536
  | .wr => 65536

/-- An access to `n` bytes stays in the memory. -/
def InMemory (which : Region) (addr : BitVec 32) (n : ℕ) : Prop :=
  n = 0 ∨ addr.toNat + n ≤ depth which * wbytes which

instance (which : Region) (addr : BitVec 32) (n : ℕ) : Decidable (InMemory which addr n) :=
  inferInstanceAs (Decidable (_ ∨ _))

/-- `MEMW` on the two memories. -/
def writeHost (which : Region) (addr : BitVec 32) (data : List (BitVec 8)) (m : Mems 4) : Mems 4 :=
  match which with
  | .rd => (memWrite (wbytes .rd) addr.toNat data.length (fun k => data.getD k 0) m.1, m.2)
  | .wr => (m.1, memWrite (wbytes .wr) addr.toNat data.length (fun k => data.getD k 0) m.2)

/-- `MEMR` -/
def readHost (which : Region) (addr : BitVec 32) (n : ℕ) (m : Mems 4) : List (BitVec 8) :=
  match which with
  | .rd => memRead (wbytes .rd) addr.toNat n m.1
  | .wr => memRead (wbytes .wr) addr.toNat n m.2

/-! ## The server -/

theorem rows_pos : 0 < 1024 := by decide

theorem rows_lt : 1024 + 4 < 2 ^ 31 := by decide

/-- The circuit is built with its defaults; the base address is that of `coproc_axi_top`. -/
def params : SimParams 4 where
  maxRows := 1024
  baseAddr := 0x10000000
  rows_pos := rows_pos
  rows_lt := rows_lt
  rdDepth := depth .rd
  wrDepth := depth .wr

/-- The verilated circuit, its input pins, and `g_cyc`. -/
structure Server where
  top : AxiSimTop 4
  rst : Bool
  dmemAddr : BitVec 64
  dmemWdata : BitVec 64
  dmemWen : Bool
  dmemFunct3 : BitVec 3
  stalls : Stalls
  gCyc : BitVec 64

namespace Server

/-- The pins in front of a clock edge. -/
def pins (s : Server) : SimIn 4 where
  rst := s.rst
  dmemAddr := s.dmemAddr
  dmemWdata := s.dmemWdata
  dmemWen := s.dmemWen
  dmemFunct3 := s.dmemFunct3
  stalls := s.stalls
  backdoor := id

def tick (s : Server) : Server := { s with top := s.top.step params s.pins, gCyc := s.gCyc + 1 }

/-- The pins of a store. -/
def storing (addr val : BitVec 64) (s : Server) : Server :=
  { s with dmemAddr := addr, dmemWdata := val, dmemWen := true, dmemFunct3 := f3D }

/-- The pins of a load. -/
def loading (addr : BitVec 64) (s : Server) : Server :=
  { s with dmemAddr := addr, dmemWen := false, dmemFunct3 := f3D }

@[simp] theorem loading_top (addr : BitVec 64) (s : Server) : (s.loading addr).top = s.top := rfl

def regw (addr val : BitVec 64) (s : Server) : Server := { (s.storing addr val).tick with dmemWen := false }

/-- `regr` takes no clock edge. -/
def regr (addr : BitVec 64) (s : Server) : BitVec 64 × Server :=
  let s := s.loading addr
  (s.top.dmemRdata params s.pins, s)

/-- The bytes of a `MEMW` line go to a memory. -/
def memw (which : Region) (addr : BitVec 32) (data : List (BitVec 8)) (s : Server) : Server :=
  { s with top := s.top.poke (writeHost which addr data) }

/-- What `main` does before its loop. -/
def start (s : Server) : Server :=
  let s := { s with rst := true, dmemWen := false, stalls := ⟨0, 0, 0xACE1, 0xBEEF⟩ }
  let s := s.tick.tick
  let s := { s with rst := false }
  { s.tick with gCyc := 0 }

/-- One request. -/
def serve (q : Request) (s : Server) : Option (Reply × Server) :=
  match q with
  | .regw addr val => some (.ok, s.regw addr val)
  | .regr addr =>
    let (v, s) := s.regr addr
    some (.word v, s)
  | .memw which addr data =>
    if InMemory which addr data.length then some (.ok, s.memw which addr data) else none
  | .memr which addr n =>
    if InMemory which addr n then some (.data (readHost which addr n s.top.mems), s) else none
  | .tick n => some (.ok, tick^[n] s)
  | .irq => some (.flag s.top.irq, s)
  | .cyc => some (.cycles s.gCyc, s)
  | .beats => some (.beats s.top.rdBeatCount s.top.wrBeatCount, s)
  | .stall rdMask wrMask =>
    some (.ok, { s with stalls := { s.stalls with rdStallMask := rdMask, wrStallMask := wrMask } })

/-- One round of the loop: a line in, a line out. -/
def serveLine (line : List Char) (s : Server) : Option (List Char × Server) := do
  let q ← parse line
  let (r, s) ← s.serve q
  some (r.line ++ ['\n'], s)

end Server

/-! ## What the client relies on -/

/-- Between two requests the client takes the memories for `m`, after the commands `cs` of
at most `R` rows. -/
structure Sees (R : ℕ) (s : Server) (m : Mems 4) (cs : List (Cmd 32)) : Prop where
  shows : AxiSimTop.Shows params R s.top m cs
  rst : s.rst = false
  dmemWen : s.dmemWen = false

section sees
variable {R n : ℕ} {s : Server} {m : Mems 4} {cs : List (Cmd 32)}

theorem four_pow : ∃ e, 4 = 2 ^ e := ⟨2, rfl⟩

theorem waits_pins (hrst : s.rst = false) (hwen : s.dmemWen = false) : AxiSimTop.Waits s.pins :=
  ⟨hrst, hwen, fun _ => rfl⟩

/-- The pins do not move during `TICK`. -/
theorem tick_iterate (n : ℕ) (s : Server) : Server.tick^[n] s =
    { s with top := run (AxiSimTop.step params) s.top (fun _ => s.pins) n, gCyc := s.gCyc + BitVec.ofNat 64 n } := by
  induction n with
  | zero => simp [run]
  | succ n ih =>
    rw [Function.iterate_succ_apply', ih, Server.tick, run_succ]
    simp only [Server.pins, Server.mk.injEq, true_and]
    rw [BitVec.add_assoc, BitVec.ofNat_add]
    rfl

theorem Sees.tick (h : Sees R s m cs) (n : ℕ) : Sees R (Server.tick^[n] s) m cs := by
  rw [tick_iterate]
  exact ⟨h.shows.wait (fun _ => waits_pins h.rst h.dmemWen) n, h.rst, h.dmemWen⟩

/-- `TICK` is long enough for what is owed. -/
theorem Sees.rest (h : Sees R s m cs) (hR : R ≤ 255) (hn : s.top.owed R < n) :
    (Server.tick^[n] s).top.idle = true := by
  rw [tick_iterate]
  exact h.shows.rest (by decide) (hR.trans (by decide)) hR (fun _ => waits_pins h.rst h.dmemWen) hn

/-- The server begins its loop at rest. -/
theorem start_sees (R : ℕ) (s : Server) :
    ∃ m, Sees R s.start m [] ∧ s.start.top.idle = true ∧ s.start.gCyc = 0 := by
  let s₀ : Server := { s with rst := true, dmemWen := false, stalls := ⟨0, 0, 0xACE1, 0xBEEF⟩ }
  let s₁ : Server := { s₀.tick.tick with rst := false }
  have hshows : AxiSimTop.Shows params R s₁.top s₁.top.mems [] := .reset params R s₀.tick.top rfl
  have hidle : s₁.top.idle = true := AxiSimTop.idle_reset rfl
  have hsees : Sees R s₁ s₁.top.mems [] := ⟨hshows, rfl, rfl⟩
  have hnext := hsees.tick 1
  have hidle' : s₁.tick.top.idle = true :=
    AxiSimTop.idle_step hshows.valid rfl hidle (AxiSimTop.enqEvent_load params s₁.top rfl)
  exact ⟨_, ⟨hnext.shows, rfl, rfl⟩, hidle', rfl⟩

/-- A load changes nothing. -/
theorem Sees.load (h : Sees R s m cs) (addr : BitVec 64) : Sees R (s.loading addr) m cs := ⟨h.shows, h.rst, rfl⟩

/-- `MEMW` while `STATUS` shows idle. -/
theorem Sees.write (h : Sees R s m cs) (hidle : s.top.idle = true) (which : Region) (addr : BitVec 32)
    (data : List (BitVec 8)) :
    Sees R (s.memw which addr data) (writeHost which addr data m) cs :=
  ⟨h.shows.poke fun hbusy => absurd (hbusy.symm.trans hidle) (by simp), h.rst, h.dmemWen⟩

/-- `MEMR` then returns what the client takes the memories for. -/
theorem Sees.mems (h : Sees R s m cs) (hidle : s.top.idle = true) : s.top.mems = m :=
  (h.shows.at_idle four_pow hidle).1

end sees

/-! ## Registers -/

/-- The address of a register. -/
def regAddr (off : BitVec 6) : BitVec 64 := 0x10000000 + off.setWidth 64

theorem regAddr_toNat (off : BitVec 6) : (regAddr off).toNat = 0x10000000 + off.toNat := by
  have hoff := off.isLt
  rw [regAddr, BitVec.toNat_add, BitVec.toNat_setWidth]
  simp only [BitVec.reduceToNat]
  omega

theorem inRange_regAddr (i : RegsIn) (off : BitVec 6) (haddr : i.dmemAddr = regAddr off) :
    i.inRange params.baseAddr = true ∧ i.off = off := by
  have hoff := off.isLt
  have hbase : params.baseAddr.toNat = 0x10000000 := rfl
  have hend : (params.baseAddr + 0x40).toNat = 0x10000040 := rfl
  constructor
  · rw [RegsIn.inRange, haddr, Bool.and_eq_true, decide_eq_true_eq, decide_eq_true_eq, BitVec.le_def,
      BitVec.lt_def, regAddr_toNat, hbase, hend]
    omega
  · apply BitVec.eq_of_toNat_eq
    rw [RegsIn.off, haddr, BitVec.toNat_setWidth, regAddr_toNat]
    omega

section registers
variable {R : ℕ} {s : Server} {m : Mems 4} {cs : List (Cmd 32)} {off : BitVec 6} {v : BitVec 64}

theorem wrHit_storing (s : Server) (off : BitVec 6) (v : BitVec 64) :
    (s.top.regsIn (s.storing (regAddr off) v).pins).wrHit params.baseAddr = true ∧
      (s.top.regsIn (s.storing (regAddr off) v).pins).off = off := by
  obtain ⟨hrange, hoff⟩ := inRange_regAddr (s.top.regsIn (s.storing (regAddr off) v).pins) off rfl
  refine ⟨?_, hoff⟩
  rw [RegsIn.wrHit, RegsIn.regHit, hrange]
  rfl

/-- The poller of `run_tile` sees whether the device is idle. -/
theorem regr_status (s : Server) : CoprocMmio.coprocWaitDone (s.regr (regAddr offStatus)).1 = s.top.idle := by
  obtain ⟨hrange, -⟩ := inRange_regAddr (s.top.regsIn (s.loading (regAddr offStatus)).pins) offStatus rfl
  have haddr : (s.loading (regAddr offStatus)).pins.dmemAddr = params.baseAddr + 0x28 := by
    show regAddr offStatus = 0x10000028
    decide
  have hhit : (s.top.regsIn (s.loading (regAddr offStatus)).pins).regHit params.baseAddr = true := by
    rw [RegsIn.regHit, hrange]
    rfl
  exact AxiSimTop.idle_iff (by decide) haddr hhit rfl

/-- A store to a holding register. -/
theorem Sees.hold (h : Sees R s m cs) (hidle : s.top.idle = true) (r : CoprocDriver.Reg) (v : BitVec 64) :
    Sees R (s.regw (regAddr r.off) v) m cs ∧ (s.regw (regAddr r.off) v).top.idle = true ∧
      (s.regw (regAddr r.off) v).top.uDut.regs.held = r.set v s.top.uDut.regs.held := by
  obtain ⟨hhit, hoff⟩ := wrHit_storing s r.off v
  have hnone : AxiSimTop.enqEvent params (s.storing (regAddr r.off) v).pins s.top = none := by
    rw [AxiSimTop.enqEvent, Regs.enqEvent, Regs.enqueue, hoff]
    cases r <;> simp [CoprocDriver.Reg.off, offW, offA, offC, offM, offCmd]
  have hshows := h.shows.step (i := (s.storing (regAddr r.off) v).pins) h.rst (fun _ => rfl) (by rw [hnone]; simp)
  rw [hnone, Option.toList_none, List.append_nil] at hshows
  refine ⟨⟨hshows, h.rst, rfl⟩, AxiSimTop.idle_step h.shows.valid h.rst hidle hnone, ?_⟩
  have hheld := AxiSimTop.held_step (P := params) (i := (s.storing (regAddr r.off) v).pins) (s := s.top) h.rst
  refine hheld.trans ?_
  rw [Regs.heldNext, hhit, hoff, if_pos rfl]
  cases r <;> rfl

/-- An idle queue has room. -/
theorem enqEvent_cmd (hidle : s.top.idle = true) :
    AxiSimTop.enqEvent params (s.storing (regAddr offCmd) 1).pins s.top = some s.top.uDut.regs.held := by
  obtain ⟨hhit, hoff⟩ := wrHit_storing s offCmd 1
  have hempty : s.top.uDut.regs.fifoEmpty = true := by
    simp only [AxiSimTop.idle, Bool.and_eq_true] at hidle
    exact hidle.1
  have hcnt : s.top.uDut.regs.fifoCnt = 0 := by simpa [Regs.fifoEmpty] using hempty
  have hbit : (s.top.regsIn (s.storing (regAddr offCmd) 1).pins).dmemWdata.getLsbD 0 = true := by
    show (1 : BitVec 64).getLsbD 0 = true
    decide
  rw [AxiSimTop.enqEvent, Regs.enqEvent, Regs.enqueue, hhit, hoff, hbit, Regs.fifoFull, hcnt]
  rfl

/-- The `CMD` write. -/
theorem Sees.command (h : Sees R s m cs) (hidle : s.top.idle = true) (hfits : AxiSimTop.Fits 4 R s.top.uDut.regs.held) :
    Sees R (s.regw (regAddr offCmd) 1) (AxiSimTop.execCmd params m s.top.uDut.regs.held)
        (cs ++ [s.top.uDut.regs.held]) ∧
      (s.regw (regAddr offCmd) 1).top.owed R ≤ AxiSimTop.commandBound 4 R + 2 := by
  have henq := enqEvent_cmd hidle
  have hshows := h.shows.step (i := (s.storing (regAddr offCmd) 1).pins) h.rst (fun _ => rfl) (by
    rw [henq]
    rintro c hc
    obtain rfl := Option.some.inj hc
    exact hfits)
  rw [henq] at hshows
  exact ⟨⟨hshows, h.rst, rfl⟩, AxiSimTop.owed_step R h.shows.valid h.rst hidle⟩

/-- A `CMD` write of 256 or more rows. -/
theorem Sees.long (h : Sees R s m cs) (hidle : s.top.idle = true)
    (hlong : 256 ≤ s.top.uDut.regs.held.mRows.toNat) :
    AxiSimTop.NeverIdle params (s.regw (regAddr offCmd) 1).top :=
  h.shows.never_idle hidle h.rst (enqEvent_cmd hidle) hlong

end registers

end CoprocRunner
