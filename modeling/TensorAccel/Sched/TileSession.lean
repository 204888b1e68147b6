import TensorAccel.Sched.BackendRuns
import TensorAccel.Sched.HostBytes

/-! # `CoprocBackend` on the circuit

    Translation of `sched/coproc_backend.py` with its process at the other end of the
    pipes: `_send` puts a line into `serveLine` and takes the answer.  What the driver
    sees of the device is the text that the process prints.

    `while True` takes `fuel` polls; a call that would go on polling ends in
    `Stop.polling`, and `Stop.fault` stands for a request that is not answered. -/

open StreamCtrl CmdQueueRegs StreamAxi CoprocAxi Span NdArray CoprocDriver CoprocRunner

namespace CoprocBackend

/-! ## Model -/

/-- Why a call did not return. -/
inductive Stop where
  | fault
  | polling
  deriving DecidableEq, Repr

/-- The process, and the attributes of the object. -/
structure Session where
  server : Server
  nCommands : ℕ
  totalCycles : ℤ
  lastCycles : ℤ

def coprocBase : BitVec 64 := 0x10000000

def regWBase : BitVec 64 := coprocBase + 0x00
def regABase : BitVec 64 := coprocBase + 0x08
def regCBase : BitVec 64 := coprocBase + 0x10
def regMRows : BitVec 64 := coprocBase + 0x18
def regCmd : BitVec 64 := coprocBase + 0x20
def regStatus : BitVec 64 := coprocBase + 0x28

namespace Session

/-- `_send` -/
def send (q : Request) (b : Session) : Except Stop (List Char × Session) :=
  match b.server.serveLine (q.line ++ ['\n']) with
  | some (line, server) => .ok (strip line, { b with server := server })
  | none => .error .fault

/-- The value of an answer. -/
def answer {α : Type} (v : Option α) : Except Stop α :=
  match v with
  | some x => .ok x
  | none => .error .fault

/-- `_regw` -/
def regw (addr val : BitVec 64) (b : Session) : Except Stop Session := do
  let (_, b) ← b.send (.regw addr val)
  .ok b

/-- `_regr` -/
def regr (addr : BitVec 64) (b : Session) : Except Stop (ℕ × Session) := do
  let (w, b) ← b.send (.regr addr)
  let v ← answer (toInt 16 w)
  .ok (v, b)

/-- `_memw` -/
def memw (region : Region) (addr : ℕ) (data : List (BitVec 8)) (b : Session) : Except Stop Session := do
  let (_, b) ← b.send (.memw region (BitVec.ofNat 32 addr) data)
  .ok b

/-- `_memr` -/
def memr (region : Region) (addr n : ℕ) (b : Session) : Except Stop (List (BitVec 8) × Session) := do
  let (w, b) ← b.send (.memr region (BitVec.ofNat 32 addr) n)
  let data ← answer (fromHex w)
  .ok (data, b)

/-- `_tick` -/
def tick (n : ℕ) (b : Session) : Except Stop Session := do
  let (_, b) ← b.send (.tick n)
  .ok b

/-- `_cyc` -/
def cyc (b : Session) : Except Stop (ℕ × Session) := do
  let (w, b) ← b.send .cyc
  let n ← answer (toInt 10 w)
  .ok (n, b)

def beats (b : Session) : Except Stop ((ℕ × ℕ) × Session) := do
  let (w, b) ← b.send .beats
  let n ← answer (toPair w)
  .ok (n, b)

/-- `__init__`, for a process that has just been started. -/
def new (stall : Bool) (server : Server) : Except Stop Session := do
  let b : Session := ⟨server.start, 0, 0, 0⟩
  if stall then
    let (_, b) ← b.send (.stall 0xF 0xF)
    .ok b
  else .ok b

/-! ### `run_tile` -/

/-- `At[row0:row0 + rows].tobytes()` -/
def aData (c : Call) (row0 rows : ℕ) : List (BitVec 8) := (c.At.data.drop (row0 * 4)).take (rows * 4)

/-- The body of the loop that issues the commands of a batch. -/
def issue (c : Call) (b : Session) (x : (ℕ × ℕ) × ℕ) : Except Stop Session := do
  let ((row0, rows), slot) := x
  let b ← b.memw .rd (wBase slot) c.Wt.data
  let b ← b.memw .rd (aBase slot) (aData c row0 rows)
  let b ← b.regw regWBase (BitVec.ofNat 64 (wBase slot))
  let b ← b.regw regABase (BitVec.ofNat 64 (aBase slot))
  let b ← b.regw regCBase (BitVec.ofNat 64 (cBase slot))
  let b ← b.regw regMRows (BitVec.ofNat 64 rows)
  let b ← b.regw regCmd 1
  .ok { b with nCommands := b.nCommands + 1 }

/-- `poll_batch` -/
@[irreducible] def pollBatch : ℕ := 65536

/-- `coproc_wait()`, which polls every `batch` cycles. -/
def poll (batch : ℕ) : ℕ → Session → Except Stop Session
  | 0, _ => .error .polling
  | fuel + 1, b => do
    let b ← b.tick batch
    let (status, b) ← b.regr regStatus
    if status &&& 4 ≠ 0 ∧ ¬ status &&& 1 ≠ 0 then .ok b else poll batch fuel b

/-- The body of the loop that reads the results of a batch. -/
def collect (c : Call) (s : Session × NdArray (BitVec 32)) (x : (ℕ × ℕ) × ℕ) :
    Except Stop (Session × NdArray (BitVec 32)) :=
  let ((row0, rows), slot) := x
  if rows = 0 then .ok s
  else do
    let (raw, b) ← s.1.memr .wr (cBase slot) (rows * 16)
    .ok (b, setRows c.M row0 rows (fun n => word32 fun k => raw.getD (4 * n + k) 0) s.2)

/-- The loop over the batches, for the chunks that are left. -/
def runBatches (fuel : ℕ) (c : Call) : List (ℕ × ℕ) → Session × NdArray (BitVec 32) →
    Except Stop (Session × NdArray (BitVec 32))
  | [], s => .ok s
  | chunk :: chunks, s => do
    let batch := (chunk :: chunks).take 4
    let b ← batch.zipIdx.foldlM (issue c) s.1
    let b ← poll pollBatch fuel b
    let s ← batch.zipIdx.foldlM (collect c) (b, s.2)
    runBatches fuel c ((chunk :: chunks).drop 4) s
termination_by chunks => chunks.length
decreasing_by
  simp only [List.length_drop, List.length_cons]
  omega

def runTile (fuel : ℕ) (c : Call) (b : Session) : Except Stop (NdArray (BitVec 32) × Session) := do
  let (cycStart, b) ← b.cyc
  let (b, Ct) ← runBatches fuel c (chunksOf c.M) (b, ofFn₂ c.M 4 fun _ _ => 0)
  let (cycEnd, b) ← b.cyc
  let cycles : ℤ := (cycEnd : ℤ) - cycStart
  .ok (Ct, { b with lastCycles := cycles, totalCycles := b.totalCycles + cycles })

/-! ## Requests -/

/-- A request that the process answers with `OK`. -/
def act (f : Server → Server) (b : Session) : Session := { b with server := f b.server }

@[simp] theorem ok_bind {α β : Type} (x : α) (f : α → Except Stop β) : (Except.ok x >>= f) = f x := rfl

theorem pure_ok {α : Type} (x : α) : (pure x : Except Stop α) = .ok x := rfl

@[simp] theorem answer_some {α : Type} (x : α) : answer (some x) = .ok x := rfl

section requests
variable {b : Session} {t n : ℕ}

/-- The client gets the reply to the request that it made. -/
theorem send_eq (q : Request) {r : Reply} {s : Server} (hshort : q.Short) (hserve : b.server.serve q = some (r, s)) :
    b.send q = .ok (strip (r.line ++ ['\n']), { b with server := s }) := by
  rw [send, Server.serveLine, parse_line q hshort]
  simp only [Option.bind_eq_bind, Option.bind_some, hserve]

theorem regw_eq (addr val : BitVec 64) (b : Session) : b.regw addr val = .ok (b.act (Server.regw addr val)) := by
  rw [regw, send_eq (.regw addr val) trivial rfl]
  rfl

theorem tick_eq (hn : n < 2 ^ 31) (b : Session) : b.tick n = .ok (b.act Server.tick^[n]) := by
  rw [tick, send_eq (.tick n) hn rfl]
  rfl

theorem regr_eq (addr : BitVec 64) (b : Session) :
    b.regr addr = .ok ((b.server.regr addr).1.toNat, b.act fun s => (s.regr addr).2) := by
  rw [regr, send_eq (.regr addr) trivial rfl]
  simp only [ok_bind, toInt_word, answer_some]
  rfl

theorem cyc_eq (b : Session) : b.cyc = .ok (b.server.gCyc.toNat, b) := by
  rw [cyc, send_eq .cyc trivial rfl]
  simp only [ok_bind, toInt_cycles, answer_some]

theorem beats_eq (b : Session) :
    b.beats = .ok ((b.server.top.rdBeatCount.toNat, b.server.top.wrBeatCount.toNat), b) := by
  rw [beats, send_eq .beats trivial rfl]
  simp only [ok_bind, toPair_beats, answer_some]

theorem memw_eq {region : Region} {addr : ℕ} {data : List (BitVec 8)} (hlen : data.length < 2 ^ 18)
    (hin : InMemory region (BitVec.ofNat 32 addr) data.length) (b : Session) :
    b.memw region addr data = .ok (b.act (Server.memw region (BitVec.ofNat 32 addr) data)) := by
  rw [memw, send_eq (.memw region (BitVec.ofNat 32 addr) data) hlen (if_pos hin)]
  rfl

theorem memr_eq {region : Region} {addr : ℕ} (hn : n < 2 ^ 31) (hin : InMemory region (BitVec.ofNat 32 addr) n)
    (b : Session) :
    b.memr region addr n = .ok (readHost region (BitVec.ofNat 32 addr) n b.server.top.mems, b) := by
  rw [memr, send_eq (.memr region (BitVec.ofNat 32 addr) n) hn (if_pos hin)]
  simp only [ok_bind, fromHex_data, answer_some]

end requests

/-! ## One command -/

theorem regWBase_eq : regWBase = regAddr Reg.w.off := by decide
theorem regABase_eq : regABase = regAddr Reg.a.off := by decide
theorem regCBase_eq : regCBase = regAddr Reg.c.off := by decide
theorem regMRows_eq : regMRows = regAddr Reg.m.off := by decide
theorem regCmd_eq : regCmd = regAddr offCmd := by decide
theorem regStatus_eq : regStatus = regAddr offStatus := by decide

section command
variable {c : Call} {b : Session} {row0 rows t : ℕ} {m : Mems 4} {cs : List (Cmd 32)}

theorem length_wData (c : Call) : c.Wt.data.length = 16 := by
  rw [c.Wt.size, c.wt_shape]
  rfl

theorem length_aData_le : (aData c row0 rows).length ≤ rows * 4 := by
  rw [aData, List.length_take]
  exact Nat.min_le_left _ _

theorem length_aData (hrows : row0 + rows ≤ c.M) : (aData c row0 rows).length = rows * 4 := by
  have hsize : c.At.data.length = c.M * 4 := by
    rw [c.At.size, c.at_shape]
    simp
  rw [aData, List.length_take, List.length_drop, hsize]
  omega

theorem getD_aData {k : ℕ} (hk : k < rows * 4) : (aData c row0 rows).getD k 0 = c.aBytes row0 k := by
  rw [aData, Call.aBytes, List.getD_eq_getElem?_getD, List.getElem?_take, if_pos hk, List.getElem?_drop,
    List.getD_eq_getElem?_getD]

theorem toNat_ofNat32 {n : ℕ} (h : n < 2 ^ 32) : (BitVec.ofNat 32 n).toNat = n := by
  rw [BitVec.toNat_ofNat]
  exact Nat.mod_eq_of_lt h

/-- The server after the five stores for a command of slot `t`. -/
def stores (rows t : ℕ) (s : Server) : Server :=
  ((((s.regw (regAddr Reg.w.off) (BitVec.ofNat 64 (wBase t))).regw (regAddr Reg.a.off) (BitVec.ofNat 64 (aBase t))).regw
    (regAddr Reg.c.off) (BitVec.ofNat 64 (cBase t))).regw (regAddr Reg.m.off) (BitVec.ofNat 64 rows))

/-- The server with the operands of a command in slot `t`. -/
def operands (c : Call) (row0 rows t : ℕ) (s : Server) : Server :=
  (s.memw .rd (BitVec.ofNat 32 (wBase t)) c.Wt.data).memw .rd (BitVec.ofNat 32 (aBase t)) (aData c row0 rows)

/-- The server after the command of slot `t` was issued. -/
def issued (c : Call) (row0 rows t : ℕ) (s : Server) : Server :=
  (stores rows t (operands c row0 rows t s)).regw (regAddr offCmd) 1

/-- No request to issue a command is refused. -/
theorem issue_eq (ht : t < 4) (hrows : rows ≤ 1024) (b : Session) : issue c b ((row0, rows), t) =
    .ok { b.act (issued c row0 rows t) with nCommands := b.nCommands + 1 } := by
  have hlen := length_wData c
  have hlen' : (aData c row0 rows).length ≤ rows * 4 := length_aData_le
  have hw : InMemory .rd (BitVec.ofNat 32 (wBase t)) c.Wt.data.length := by
    refine .inr ?_
    rw [toNat_ofNat32 (by rw [wBase]; omega), hlen, wBase, depth, wbytes]
    omega
  have ha : InMemory .rd (BitVec.ofNat 32 (aBase t)) (aData c row0 rows).length := by
    refine .inr ?_
    rw [toNat_ofNat32 (by rw [aBase, wBase]; omega), aBase, wBase, depth, wbytes]
    omega
  rw [issue, memw_eq (by omega) hw, ok_bind, memw_eq (by omega) ha, ok_bind, regw_eq, ok_bind, regw_eq, ok_bind,
    regw_eq, ok_bind, regw_eq, ok_bind, regw_eq, ok_bind, regWBase_eq, regABase_eq, regCBase_eq, regMRows_eq,
    regCmd_eq]
  simp only [act, issued, stores, operands]

/-- The operands lie in the slot. -/
theorem sees_operands {R : ℕ} {s : Server} (h : Sees R s m cs) (hidle : s.top.idle = true) (ht : t < 4)
    (hrows : rows ≤ 1024) (hin : row0 + rows ≤ c.M) : ∃ m', Sees R (operands c row0 rows t s) m' cs ∧
      (operands c row0 rows t s).top.idle = true ∧
      Operands hostBuffers (slot t) rows c.wBytes (c.aBytes row0) (hostBytes m') := by
  have hw : (BitVec.ofNat 32 (wBase t)).toNat = hostBuffers.wBase (slot t) := by
    rw [wBase_slot ht, toNat_ofNat32 (by rw [wBase]; omega)]
  have ha : (BitVec.ofNat 32 (aBase t)).toNat = hostBuffers.aBase (slot t) := by
    rw [aBase_slot ht, toNat_ofNat32 (by rw [aBase, wBase]; omega)]
  refine ⟨_, (h.write hidle .rd _ _).write hidle .rd _ _, hidle, ?_⟩
  rw [hostBytes_write, hostBytes_write, length_wData, length_aData hin, hw, ha]
  constructor
  · intro k hk
    -- the activations are stored in another region
    have hsame := sameExcept_writeSpan (b := hostBuffers) (q := .a) (t := slot t) (g := fun j => j) (n := rows * 4)
      (fun j => (aData c row0 rows).getD j 0)
      (writeSpan (hostBuffers.loc .w (slot t)) (fun j => c.Wt.data.getD j 0) 16 (hostBytes m))
      fun j hj => hj.trans_le (rows_fit hrows)
    refine (hsame .w (slot t) k hk (.inl (by decide))).trans ?_
    exact writeSpan_region (b := hostBuffers) (q := .w) _ _ le_rfl hk
  · intro k hk
    rw [← getD_aData hk]
    exact writeSpan_region (b := hostBuffers) (q := .a) (t := slot t) (fun j => (aData c row0 rows).getD j 0) _
      (rows_fit hrows) hk

/-- The holding registers have the command of the slot. -/
theorem sees_stores {R : ℕ} {s : Server} (h : Sees R s m cs) (hidle : s.top.idle = true) (ht : t < 4) (rows : ℕ) :
    Sees R (stores rows t s) m cs ∧ (stores rows t s).top.idle = true ∧
      (stores rows t s).top.uDut.regs.held = slotCmd hostLayout 32 (slot t) rows := by
  obtain ⟨hw, hidlew, hheldw⟩ := h.hold hidle .w (BitVec.ofNat 64 (wBase t))
  obtain ⟨ha, hidlea, hhelda⟩ := hw.hold hidlew .a (BitVec.ofNat 64 (aBase t))
  obtain ⟨hc, hidlec, hheldc⟩ := ha.hold hidlea .c (BitVec.ofNat 64 (cBase t))
  obtain ⟨hm, hidlem, hheldm⟩ := hc.hold hidlec .m (BitVec.ofNat 64 rows)
  refine ⟨hm, hidlem, hheldm.trans ?_⟩
  rw [hheldc, hhelda, hheldw]
  have hcut : ∀ n, (BitVec.ofNat 64 n).setWidth 32 = BitVec.ofNat 32 n := fun n =>
    BitVec.setWidth_ofNat_of_le (by decide) n
  simp only [Reg.set, slotCmd, hostLayout, hcut, slot_val ht]

/-- A command of at most 255 rows is accepted, and the client expects its product. -/
theorem sees_issued {s : Server} (h : Sees 255 s m cs) (hidle : s.top.idle = true) (ht : t < 4) (hpos : 1 ≤ rows)
    (hrows : rows ≤ 255) (hin : row0 + rows ≤ c.M) :
    ∃ m', Sees 255 (issued c row0 rows t s) m' (cs ++ [slotCmd hostLayout 32 (slot t) rows]) ∧
      (issued c row0 rows t s).top.owed 255 ≤ AxiSimTop.commandBound 4 255 + 2 ∧
      Rows hostBuffers (slot t) rows (slotRow c.wBytes (c.aBytes row0)) (hostBytes m') := by
  have hlow : rows ≤ 1024 := by omega
  obtain ⟨m₁, hops, hidle₁, hoperands⟩ := sees_operands h hidle ht hlow hin
  obtain ⟨hstores, hidle₂, hheld⟩ := sees_stores hops hidle₁ ht rows
  obtain ⟨hsees, howed⟩ := hstores.command hidle₂ (by rw [hheld]; exact fits_slot (slot t) hpos hrows)
  rw [hheld] at hsees
  refine ⟨_, hsees, howed, ?_⟩
  rw [hostBytes_execCmd (aligned_slot (slot t) hlow), toNat_slotRows _ _ _ hlow]
  exact rows_exec hoperands hlow

/-- A longer one is accepted, too. -/
theorem lost_issued {R : ℕ} {s : Server} (h : Sees R s m cs) (hidle : s.top.idle = true) (ht : t < 4)
    (hlong : 256 ≤ rows) (hrows : rows ≤ 1024) (hin : row0 + rows ≤ c.M) :
    AxiSimTop.NeverIdle params (issued c row0 rows t s).top := by
  obtain ⟨m₁, hops, hidle₁, -⟩ := sees_operands h hidle ht hrows hin
  obtain ⟨hstores, hidle₂, hheld⟩ := sees_stores hops hidle₁ ht rows
  refine hstores.long hidle₂ ?_
  rw [hheld, toNat_slotRows _ _ _ hrows]
  exact hlong

end command

/-! ## The poll loop -/

section polling
variable {b : Session} {R batch : ℕ} {s : Server} {m : Mems 4} {cs : List (Cmd 32)}

/-- The server after one round of the loop. -/
def polled (batch : ℕ) (s : Server) : Server := (Server.tick^[batch] s).loading (regAddr offStatus)

theorem pollBatch_eq : pollBatch = 65536 := by
  rw [pollBatch]

/-- The test of the loop on the integer that was read. -/
theorem status_test (v : BitVec 64) :
    (v.toNat &&& 4 ≠ 0 ∧ ¬ v.toNat &&& 1 ≠ 0) ↔ CoprocMmio.coprocWaitDone v = true := by
  have hzero : ∀ mask : BitVec 64, (v &&& mask == 0) = decide (v.toNat &&& mask.toNat = 0) := by
    intro mask
    rw [Bool.eq_iff_iff, beq_iff_eq, decide_eq_true_eq, ← BitVec.toNat_inj, BitVec.toNat_and]
    rfl
  have hq := hzero CoprocMmio.statusQemptyMask
  have hb := hzero CoprocMmio.statusBusyMask
  rw [CoprocMmio.coprocWaitDone, bne, hq, hb]
  have h4 : CoprocMmio.statusQemptyMask.toNat = 4 := rfl
  have h1 : CoprocMmio.statusBusyMask.toNat = 1 := rfl
  simp [h4, h1]

theorem poll_succ (hbatch : batch < 2 ^ 31) (fuel : ℕ) (b : Session) : poll batch (fuel + 1) b =
    if (polled batch b.server).top.idle then .ok (b.act (polled batch)) else poll batch fuel (b.act (polled batch)) := by
  have hstatus : CoprocMmio.coprocWaitDone ((b.act Server.tick^[batch]).server.regr (regAddr offStatus)).1 =
      (polled batch b.server).top.idle := by
    rw [regr_status, polled, Server.loading_top]
    rfl
  rw [poll, tick_eq hbatch, ok_bind, regStatus_eq, regr_eq, ok_bind]
  dsimp only
  by_cases hidle : (polled batch b.server).top.idle = true
  · rw [if_pos hidle, if_pos ((status_test _).mpr (hstatus.trans hidle))]
    rfl
  · rw [if_neg hidle, if_neg fun h => hidle (hstatus.symm.trans ((status_test _).mp h))]
    rfl

theorem sees_polled (h : Sees R s m cs) (batch : ℕ) : Sees R (polled batch s) m cs := (h.tick batch).load _

/-- 65536 cycles are enough for a command of 255 rows. -/
theorem idle_polled (h : Sees 255 s m cs) (howed : s.top.owed 255 ≤ AxiSimTop.commandBound 4 255 + 2)
    (hbatch : 34206 < batch) : (polled batch s).top.idle = true := by
  have hbound : AxiSimTop.commandBound 4 255 = 34204 := rfl
  rw [polled, Server.loading_top]
  exact h.rest le_rfl (by omega)

/-- `STATUS` will never show idle again. -/
structure Lost (s : Server) : Prop where
  never : AxiSimTop.NeverIdle params s.top
  rst : s.rst = false

theorem Lost.tick (h : Lost s) (n : ℕ) : Lost (Server.tick^[n] s) := by
  induction n with
  | zero => exact h
  | succ n ih =>
    rw [Function.iterate_succ_apply']
    exact ⟨ih.never.step ih.rst, ih.rst⟩

theorem Lost.load (h : Lost s) (addr : BitVec 64) : Lost (s.loading addr) := ⟨h.never, h.rst⟩

theorem Lost.memw (h : Lost s) (which : Region) (addr : BitVec 32) (data : List (BitVec 8)) :
    Lost (s.memw which addr data) := ⟨h.never.poke _, h.rst⟩

theorem Lost.regw (h : Lost s) (addr val : BitVec 64) : Lost (s.regw addr val) :=
  ⟨h.never.step h.rst, h.rst⟩

theorem Lost.issued (h : Lost s) (c : Call) (row0 rows t : ℕ) : Lost (Session.issued c row0 rows t s) :=
  (((((((h.memw _ _ _).memw _ _ _).regw _ _).regw _ _).regw _ _).regw _ _).regw _ _)

theorem Lost.poll (h : Lost b.server) (hbatch : batch < 2 ^ 31) (fuel : ℕ) :
    poll batch fuel b = .error .polling := by
  induction fuel generalizing b with
  | zero => rfl
  | succ fuel ih =>
    have hnext : Lost (polled batch b.server) := (h.tick batch).load _
    rw [poll_succ hbatch, hnext.never.now]
    exact ih hnext

theorem gCyc_polled (batch : ℕ) (s : Server) : (polled batch s).gCyc = s.gCyc + BitVec.ofNat 64 batch := by
  have hload : (polled batch s).gCyc = (Server.tick^[batch] s).gCyc := rfl
  rw [hload, tick_iterate]

theorem gCyc_issued (c : Call) (row0 rows t : ℕ) (s : Server) : (issued c row0 rows t s).gCyc = s.gCyc + 5 := by
  have hfive : (issued c row0 rows t s).gCyc = s.gCyc + 1 + 1 + 1 + 1 + 1 := rfl
  rw [hfive]
  simp only [BitVec.add_assoc]
  rfl

end polling

/-! ## A call -/

section call
variable {c : Call} {b : Session} {row0 rows t fuel : ℕ} {m : Mems 4} {cs : List (Cmd 32)}

/-- The rows of a slot are read back as entries of the product. -/
theorem collect_eq (ht : t < 4) (hpos : rows ≠ 0) (hrows : rows ≤ 1024) (hmems : b.server.top.mems = m)
    (hres : Rows hostBuffers (slot t) rows (slotRow c.wBytes (c.aBytes row0)) (hostBytes m))
    (Ct : NdArray (BitVec 32)) :
    ∃ raw : ℕ → BitVec 32, collect c (b, Ct) ((row0, rows), t) = .ok (b, setRows c.M row0 rows raw Ct) ∧
      ∀ r < rows, ∀ j < 4, raw (r * 4 + j) = c.entry (row0 + r) j := by
  have haddr : (BitVec.ofNat 32 (cBase t)).toNat = cBase t := toNat_ofNat32 (by rw [cBase]; omega)
  have hin : InMemory .wr (BitVec.ofNat 32 (cBase t)) (rows * 16) := by
    refine .inr ?_
    rw [haddr, cBase, depth, wbytes]
    omega
  rw [collect, if_neg hpos, memr_eq (by omega) hin, ok_bind, hmems, readHost_wr, haddr]
  refine ⟨_, rfl, ?_⟩
  intro r hr j hj
  have hbyte : ∀ k < 4, ((List.range (rows * 16)).map fun k => hostBytes m (.inr (cBase t + k))).getD
      (4 * (r * 4 + j) + k) 0 = hostBytes m (.inr (cBase t + (4 * (r * 4 + j) + k))) := by
    intro k hk
    rw [List.getD_eq_getElem?_getD, List.getElem?_map, List.getElem?_range (by omega)]
    rfl
  have hword := Rows.ctBuf (b := hostBuffers) hres hr hj
  rw [← c.slotRow_eq row0 r hj, ← hword, ctBuf, word32, word32, hbyte 0 (by decide), hbyte 1 (by decide),
    hbyte 2 (by decide), hbyte 3 (by decide)]
  simp only [hostBuffers, hostLayout, slot_val ht]

/-- The rows of one chunk that covers them all are the product. -/
theorem setRows_all {raw : ℕ → BitVec 32} (hraw : ∀ r < c.M, ∀ j < 4, raw (r * 4 + j) = c.entry (0 + r) j)
    (Ct : NdArray (BitVec 32)) :
    Tiler.NumpyBackend.runTile () c.Wt c.At = some (setRows c.M 0 c.M raw Ct, ()) := by
  obtain ⟨C, hprod, hshape, hentry⟩ := Tiler.product32_eq c.at_shape c.wt_shape
  have heq : C = setRows c.M 0 c.M raw Ct := by
    refine ext₂ hshape rfl fun r hr j hj => ?_
    have hin : 0 ≤ r ∧ r < 0 + c.M := ⟨Nat.zero_le r, by omega⟩
    rw [hentry r hr j hj, setRows, get_ofFn₂ _ hr hj, if_pos hin, Nat.sub_zero, hraw r hr j hj, Nat.zero_add]
    rfl
  simp [Tiler.NumpyBackend, hprod, heq]

theorem chunksOf_short (hpos : 1 ≤ c.M) (hM : c.M ≤ 1024) : chunksOf c.M = [(0, c.M)] := by
  have hone : max 1 ((c.M + 1023) / 1024) = 1 := by omega
  have hall : chunkAt c.M 0 = (0, c.M) := by
    rw [chunkAt, Nat.zero_mul, Nat.sub_zero, Nat.min_eq_right hM]
  rw [chunksOf_eq, hone, List.range_one, List.map_singleton, hall]

/-- Between two calls: the device is idle, after the commands `cs`. -/
structure Ready (b : Session) (cs : List (Cmd 32)) : Prop where
  sees : ∃ m, Sees 255 b.server m cs
  idle : b.server.top.idle = true

/-- The server after a call of one chunk. -/
def called (c : Call) (s : Server) : Server := polled pollBatch (issued c 0 c.M 0 s)

theorem gCyc_called (c : Call) (s : Server) : (called c s).gCyc = s.gCyc + 65541 := by
  rw [called, gCyc_polled, gCyc_issued, pollBatch_eq, BitVec.add_assoc]
  rfl

/-- The session after a call of one chunk, but for the cycle counts. -/
def served (c : Call) (b : Session) : Session := { b.act (called c) with nCommands := b.nCommands + 1 }

/-- The only batch of a short call: one command, one poll and one result. -/
theorem runBatches_one {Ct : NdArray (BitVec 32)} (hM : c.M ≤ 1024) (hidle : (called c b.server).top.idle = true) :
    runBatches (fuel + 1) c [(0, c.M)] (b, Ct) = collect c (served c b, Ct) ((0, c.M), 0) := by
  have hpoll : poll pollBatch (fuel + 1) { b.act (issued c 0 c.M 0) with nCommands := b.nCommands + 1 } =
      .ok (served c b) := by
    rw [poll_succ (by rw [pollBatch_eq]; decide)]
    exact if_pos hidle
  have hbatch : [(0, c.M)].take 4 = [(0, c.M)] := rfl
  have hslot : [(0, c.M)].zipIdx = [((0, c.M), 0)] := rfl
  have hrest : [(0, c.M)].drop 4 = [] := rfl
  rw [runBatches]
  simp only [hbatch, hslot, hrest, List.foldlM_cons, List.foldlM_nil, issue_eq (by decide : 0 < 4) hM, ok_bind]
  rw [pure_ok, ok_bind, hpoll, ok_bind]
  cases collect c (served c b, Ct) ((0, c.M), 0) with
  | ok s => rw [ok_bind, pure_ok, ok_bind, runBatches]
  | error e => rfl

/-- **A call of at most 255 rows** returns the product after one poll. -/
theorem Ready.runTile (h : Ready b cs) (hpos : 1 ≤ c.M) (hM : c.M ≤ 255)
    (hcyc : b.server.gCyc.toNat + 65541 < 2 ^ 64) (fuel : ℕ) :
    ∃ Ct b', Session.runTile (fuel + 1) c b = .ok (Ct, b') ∧
      Tiler.NumpyBackend.runTile () c.Wt c.At = some (Ct, ()) ∧
      Ready b' (cs ++ [slotCmd hostLayout 32 (slot 0) c.M]) ∧
      b'.server.gCyc.toNat = b.server.gCyc.toNat + 65541 ∧
      b'.nCommands = b.nCommands + 1 ∧ b'.lastCycles = 65541 ∧ b'.totalCycles = b.totalCycles + 65541 := by
  obtain ⟨m, hsees⟩ := h.sees
  obtain ⟨m', hissued, howed, hres⟩ :=
    sees_issued hsees h.idle (show 0 < 4 by decide) hpos hM (show 0 + c.M ≤ c.M by omega)
  have hpolled : Sees 255 (called c b.server) m' _ := sees_polled hissued pollBatch
  have hidle : (called c b.server).top.idle = true :=
    idle_polled hissued howed (by rw [pollBatch_eq]; decide)
  obtain ⟨raw, hcollect, hraw⟩ := collect_eq (b := served c b) (t := 0) (by decide) (by omega) (by omega)
    (hpolled.mems hidle) hres (ofFn₂ c.M 4 fun _ _ => 0)
  have hend : (served c b).server.gCyc.toNat = b.server.gCyc.toNat + 65541 := by
    have hadd : (served c b).server.gCyc = b.server.gCyc + 65541 := gCyc_called c b.server
    rw [hadd, BitVec.toNat_add]
    exact Nat.mod_eq_of_lt hcyc
  have hcycles : ((b.server.gCyc.toNat + 65541 : ℕ) : ℤ) - b.server.gCyc.toNat = 65541 := by
    push_cast
    ring
  refine ⟨_, { served c b with lastCycles := 65541, totalCycles := b.totalCycles + 65541 }, ?_,
    setRows_all hraw (ofFn₂ c.M 4 fun _ _ => 0), ⟨⟨m', hpolled⟩, hidle⟩, hend, rfl, rfl, rfl⟩
  rw [Session.runTile, cyc_eq, ok_bind]
  dsimp only
  rw [chunksOf_short hpos (by omega), runBatches_one (by omega) hidle, hcollect, ok_bind]
  dsimp only
  rw [cyc_eq, ok_bind, hend, hcycles]
  rfl

/-- Nor does the device accept fewer commands later. -/
theorem foldlM_issue_lost (h : Lost b.server) {l : List ((ℕ × ℕ) × ℕ)} (hl : ∀ x ∈ l, x.2 < 4 ∧ x.1.2 ≤ 1024) :
    ∃ b', l.foldlM (issue c) b = .ok b' ∧ Lost b'.server := by
  induction l generalizing b with
  | nil => exact ⟨b, rfl, h⟩
  | cons x l ih =>
    obtain ⟨⟨row0, rows⟩, t⟩ := x
    obtain ⟨ht, hrows⟩ := hl _ List.mem_cons_self
    rw [List.foldlM_cons, issue_eq ht hrows, ok_bind]
    exact ih (h.issued c row0 rows t) fun x hx => hl x (List.mem_cons_of_mem _ hx)

/-- The first chunk of a longer call has at least 256 rows. -/
theorem chunksOf_long (hlong : 256 ≤ c.M) :
    ∃ rows rest, chunksOf c.M = (0, rows) :: rest ∧ 256 ≤ rows ∧ rows ≤ 1024 ∧ rows ≤ c.M ∧
      ∀ x ∈ rest, x.2 ≤ 1024 := by
  obtain ⟨k, hk⟩ : ∃ k, max 1 ((c.M + 1023) / 1024) = k + 1 := ⟨max 1 ((c.M + 1023) / 1024) - 1, by omega⟩
  have hfirst : chunkAt c.M 0 = (0, min 1024 c.M) := by
    rw [chunkAt, Nat.zero_mul, Nat.sub_zero]
  rw [chunksOf_eq, hk, List.range_succ_eq_map, List.map_cons, hfirst]
  refine ⟨_, _, rfl, by omega, by omega, by omega, ?_⟩
  intro x hx
  obtain ⟨t, -, rfl⟩ := List.mem_map.mp hx
  exact chunkAt_le c.M t

/-- **A call of 256 rows or more** polls for ever. -/
theorem Ready.lost (h : Ready b cs) (hlong : 256 ≤ c.M) (fuel : ℕ) :
    Session.runTile fuel c b = .error .polling := by
  obtain ⟨m, hsees⟩ := h.sees
  obtain ⟨rows, rest, hchunks, hmany, hrows, hin, hrest⟩ := chunksOf_long hlong
  let first : Session := { b.act (issued c 0 rows 0) with nCommands := b.nCommands + 1 }
  have hnever : AxiSimTop.NeverIdle params first.server.top :=
    lost_issued hsees h.idle (by decide) hmany hrows (by omega)
  have hlost : Lost first.server := ⟨hnever, hsees.rst⟩
  obtain ⟨b', hissue, hlost'⟩ := foldlM_issue_lost (c := c) hlost (l := (rest.take 3).zipIdx 1) (by
    rintro ⟨x, t⟩ hx
    obtain ⟨-, ht, -⟩ := List.mem_zipIdx hx
    have hlen := List.length_take_le 3 rest
    have hmem : x ∈ rest.take 3 := List.fst_mem_of_mem_zipIdx hx
    exact ⟨by omega, hrest x (List.mem_of_mem_take hmem)⟩)
  have hbatch : ((0, rows) :: rest).take 4 = (0, rows) :: rest.take 3 := rfl
  rw [Session.runTile, cyc_eq, ok_bind]
  dsimp only
  rw [hchunks, runBatches]
  simp only [hbatch, List.zipIdx_cons, List.foldlM_cons, issue_eq (by decide : 0 < 4) hrows, ok_bind, Nat.zero_add]
  rw [hissue, ok_bind, hlost'.poll (by rw [pollBatch_eq]; decide)]
  rfl

end call

/-! ## A session -/

section session
variable {b : Session} {cs : List (Cmd 32)}

/-- The device is at rest when the object has been made. -/
theorem new_ready (stall : Bool) (server : Server) : ∃ b, new stall server = .ok b ∧ Ready b [] ∧
    b.server.gCyc.toNat = 0 ∧ b.nCommands = 0 ∧ b.totalCycles = 0 := by
  obtain ⟨m, hsees, hidle, hcyc⟩ := start_sees 255 server
  have hzero : server.start.gCyc.toNat = 0 := by
    rw [hcyc]
    rfl
  cases stall with
  | false => exact ⟨_, rfl, ⟨⟨m, hsees⟩, hidle⟩, hzero, rfl, rfl⟩
  | true =>
    have hsend := send_eq (b := ⟨server.start, 0, 0, 0⟩) (.stall 0xF 0xF) trivial rfl
    rw [new, if_pos rfl, hsend]
    exact ⟨_, rfl, ⟨⟨m, ⟨hsees.shows, hsees.rst, hsees.dmemWen⟩⟩, hidle⟩, hzero, rfl, rfl⟩

/-- What `beats` returns is counted modulo `2 ^ 32`. -/
theorem Ready.beats (h : Ready b cs) : b.beats =
    .ok (((cs.map fun c => 4 + c.mRows.toNat).sum % 2 ^ 32, (cs.map fun c => c.mRows.toNat).sum % 2 ^ 32), b) := by
  obtain ⟨m, hsees⟩ := h.sees
  obtain ⟨-, hreads, hwrites⟩ := hsees.shows.at_idle four_pow h.idle
  rw [beats_eq, hreads, hwrites, BitVec.toNat_ofNat, BitVec.toNat_ofNat]

/-- Calls one after another, with what they return. -/
def runTiles (fuel : ℕ) : List Call → Session → Except Stop (List (NdArray (BitVec 32)) × Session)
  | [], b => .ok ([], b)
  | c :: calls, b => do
    let (Ct, b) ← b.runTile fuel c
    let (Cts, b) ← runTiles fuel calls b
    .ok (Ct :: Cts, b)

/-- The commands of calls that are short. -/
def shortCmds (calls : List Call) : List (Cmd 32) := calls.map fun c => slotCmd hostLayout 32 (slot 0) c.M

theorem mRows_shortCmds {calls : List Call} (hshort : ∀ c ∈ calls, c.M ≤ 255) :
    (shortCmds calls).map (fun c => c.mRows.toNat) = calls.map Call.M := by
  rw [shortCmds, List.map_map]
  refine List.map_congr_left fun c hc => ?_
  have hc := hshort c hc
  exact toNat_slotRows _ _ _ (by omega)

theorem cycles_left {n k : ℕ} (h : n + 65541 * (k + 1) < 2 ^ 64) :
    n + 65541 < 2 ^ 64 ∧ n + 65541 + 65541 * k < 2 ^ 64 := by
  omega

theorem runTiles_ready {calls : List Call} (h : Ready b cs) (hshort : ∀ c ∈ calls, 1 ≤ c.M ∧ c.M ≤ 255)
    (hcyc : b.server.gCyc.toNat + 65541 * calls.length < 2 ^ 64) (fuel : ℕ) :
    ∃ Cts b', runTiles (fuel + 1) calls b = .ok (Cts, b') ∧
      List.Forall₂ (fun c Ct => Tiler.NumpyBackend.runTile () c.Wt c.At = some (Ct, ())) calls Cts ∧
      Ready b' (cs ++ shortCmds calls) ∧ b'.nCommands = b.nCommands + calls.length ∧
      b'.totalCycles = b.totalCycles + 65541 * calls.length := by
  induction calls generalizing b cs with
  | nil => exact ⟨[], b, rfl, .nil, by simpa [shortCmds] using h, by simp, by simp⟩
  | cons c calls ih =>
    obtain ⟨hfirst, hrest⟩ := cycles_left hcyc
    obtain ⟨hpos, hM⟩ := hshort c List.mem_cons_self
    obtain ⟨Ct, b₁, hrun, hprod, hready, hcyc₁, hn₁, -, htotal₁⟩ := h.runTile hpos hM hfirst fuel
    obtain ⟨Cts, b₂, hrest, hprods, hready₂, hn₂, htotal₂⟩ :=
      ih hready (fun d hd => hshort d (List.mem_cons_of_mem c hd)) (hcyc₁.symm ▸ hrest)
    refine ⟨Ct :: Cts, b₂, ?_, .cons hprod hprods, ?_, ?_, ?_⟩
    · rw [runTiles, hrun, ok_bind]
      dsimp only
      rw [hrest]
      rfl
    · have hcmds : cs ++ shortCmds (c :: calls) = cs ++ [slotCmd hostLayout 32 (slot 0) c.M] ++ shortCmds calls := by
        rw [List.append_assoc]
        rfl
      rw [hcmds]
      exact hready₂
    · rw [hn₂, hn₁, List.length_cons]
      omega
    · rw [htotal₂, htotal₁, List.length_cons]
      push_cast
      ring

/-- **The scheduler's driver over its process**, from any state of the verilated circuit,
with stalls or without: a session of calls with 1 to 255 rows returns the product of
each, one command and 65541 cycles a call, and the beats of the commands.  The next
call with 256 rows or more never returns. -/
theorem run_tile_session (stall : Bool) (server : Server) (calls : List Call)
    (hshort : ∀ c ∈ calls, 1 ≤ c.M ∧ c.M ≤ 255) (hcyc : 65541 * calls.length < 2 ^ 64) (fuel : ℕ) :
    ∃ Cts b, (new stall server).bind (runTiles (fuel + 1) calls) = .ok (Cts, b) ∧
      List.Forall₂ (fun c Ct => Tiler.NumpyBackend.runTile () c.Wt c.At = some (Ct, ())) calls Cts ∧
      b.nCommands = calls.length ∧ b.totalCycles = 65541 * calls.length ∧
      b.beats = .ok (((calls.map fun c => 4 + c.M).sum % 2 ^ 32, (calls.map Call.M).sum % 2 ^ 32), b) ∧
      ∀ c : Call, 256 ≤ c.M → ∀ polls, b.runTile polls c = .error .polling := by
  obtain ⟨b₀, hnew, hready₀, hcyc₀, hn₀, htotal₀⟩ := new_ready stall server
  obtain ⟨Cts, b, hrun, hprods, hready, hn, htotal⟩ := runTiles_ready hready₀ hshort (by omega) fuel
  have hrows := mRows_shortCmds fun c hc => (hshort c hc).2
  have hreads : (shortCmds calls).map (fun c => 4 + c.mRows.toNat) = calls.map fun c => 4 + c.M := by
    have hadd := congrArg (List.map (4 + ·)) hrows
    rw [List.map_map, List.map_map] at hadd
    exact hadd
  refine ⟨Cts, b, ?_, hprods, ?_, ?_, ?_, fun c hc polls => hready.lost hc polls⟩
  · rw [hnew]
    exact hrun
  · rw [hn, hn₀, Nat.zero_add]
  · rw [htotal, htotal₀, zero_add]
  · rw [hready.beats, List.nil_append, hreads, hrows]

/-- A verilated circuit that was never reset. -/
def demoServer : Server where
  top :=
    ⟨⟨AxiTop.demoTop.regs, DmaBridge.zeroSys 4 32⟩,
      ⟨fun _ => 7, 0, ⟨.idle, 0, 0, 0, 0, 0, 0, 0, false, false⟩, ⟨.idle, 0, 0, 0, 0, 0, 0, false⟩⟩,
      ⟨fun _ => 9, 0, ⟨.idle, 0, 0, 0, 0, 0, 0, 0, false, false⟩, ⟨.idle, 0, 0, 0, 0, 0, 0, false⟩⟩, 11, 12⟩
  rst := false
  dmemAddr := 0
  dmemWdata := 0
  dmemWen := true
  dmemFunct3 := 0
  stalls := ⟨0, 0, 0, 0⟩
  gCyc := 13

/-- Ones only. -/
def onesCall (M : ℕ) : Call where
  M := M
  Wt := ofFn₂ 4 4 fun _ _ => 1
  At := ofFn₂ M 4 fun _ _ => 1
  wt_shape := rfl
  at_shape := rfl

/-- Calls of 2 and of 255 rows with random stalls, then one of 256 rows. -/
theorem run_tile_session_demo :
    ∃ Cts b, (new true demoServer).bind (runTiles 1 [onesCall 2, onesCall 255]) = .ok (Cts, b) ∧
      (Cts.map NdArray.data).head? = some (List.replicate 8 4) ∧ b.nCommands = 2 ∧ b.totalCycles = 131082 ∧
      b.beats = .ok ((265, 257), b) ∧ b.runTile 1000 (onesCall 256) = .error .polling := by
  have hshort : ∀ c ∈ [onesCall 2, onesCall 255], 1 ≤ c.M ∧ c.M ≤ 255 := by
    intro c hc
    rcases List.mem_pair.mp hc with rfl | rfl <;> simp [onesCall]
  obtain ⟨Cts, b, hrun, hprods, hn, htotal, hbeats, hlost⟩ :=
    run_tile_session true demoServer [onesCall 2, onesCall 255] hshort (by decide) 0
  refine ⟨Cts, b, hrun, ?_, hn, htotal, hbeats, hlost (onesCall 256) le_rfl 1000⟩
  have hvalue : (Tiler.NumpyBackend.runTile () (onesCall 2).Wt (onesCall 2).At).map (fun v => v.1.data) =
      some (List.replicate 8 4) := by decide +kernel
  cases hprods with
  | cons hfirst _ =>
    rw [hfirst] at hvalue
    exact hvalue

end session

end Session

end CoprocBackend
