import TensorAccel.Driver.Regions
import TensorAccel.Sched.Tiler

/-! # The scheduler's driver (`sched/coproc_backend.py`)

    `CoprocBackend.run_tile` cuts the rows of a tile into chunks, issues up to
    four commands at a time, each on a slot of host memory of its own, and polls
    `STATUS` until the device is idle before it reads their results back.  A call
    follows a call; the device acts at any point between two requests to the
    server.

    `TILE` and `QUEUE_DEPTH` are 4 and `MAX_ROWS` is 1024.  Words of the two RAMs
    are 4 and 16 bytes, and both are addressed by bytes.  The counters of cycles
    and beats are left out. -/

open StreamCtrl CmdQueueRegs Span NdArray CoprocDriver

namespace CoprocBackend

/-! ## Calls -/

/-- The arguments of `run_tile`, int8 arrays. -/
structure Call where
  M : ℕ
  Wt : NdArray (BitVec 8)
  At : NdArray (BitVec 8)
  wt_shape : Wt.shape = [4, 4]
  at_shape : At.shape = [M, 4]

/-- `Wt.tobytes()` -/
def Call.wBytes (c : Call) (k : ℕ) : BitVec 8 := c.Wt.data.getD k 0

/-- `At[row0:row0 + rows].tobytes()` -/
def Call.aBytes (c : Call) (row0 k : ℕ) : BitVec 8 := c.At.data.getD (row0 * 4 + k) 0

/-- The `while m0 < M` loop. -/
def chunksFrom (M m0 : ℕ) : List (ℕ × ℕ) :=
  if m0 < M then (m0, min 1024 (M - m0)) :: chunksFrom M (m0 + 1024) else []
termination_by M - m0
decreasing_by omega

/-- First row and number of rows of every chunk. -/
def chunksOf (M : ℕ) : List (ℕ × ℕ) :=
  let chunks := chunksFrom M 0
  if chunks.isEmpty then [(0, 0)] else chunks

/-- Chunk `t` in closed form. -/
def chunkAt (M t : ℕ) : ℕ × ℕ := (t * 1024, min 1024 (M - t * 1024))

theorem chunksFrom_eq (M m0 : ℕ) :
    chunksFrom M m0 = (List.range ((M - m0 + 1023) / 1024)).map fun t =>
      (m0 + t * 1024, min 1024 (M - (m0 + t * 1024))) := by
  induction m0 using chunksFrom.induct (M := M) with
  | case1 m0 hlt ih =>
    have hcount : (M - m0 + 1023) / 1024 = (M - (m0 + 1024) + 1023) / 1024 + 1 := by omega
    rw [chunksFrom, if_pos hlt, ih, hcount, List.range_succ_eq_map, List.map_cons, List.map_map]
    simp only [Nat.zero_mul, Nat.add_zero, List.cons.injEq, true_and]
    refine List.map_congr_left fun t _ => ?_
    have hrow : m0 + 1024 + t * 1024 = m0 + (t + 1) * 1024 := by omega
    rw [hrow]
    rfl
  | case2 m0 hge =>
    have hcount : (M - m0 + 1023) / 1024 = 0 := by omega
    rw [chunksFrom, if_neg hge, hcount]
    rfl

theorem chunksOf_eq (M : ℕ) :
    chunksOf M = (List.range (max 1 ((M + 1023) / 1024))).map (chunkAt M) := by
  have hfrom : chunksFrom M 0 = (List.range ((M + 1023) / 1024)).map (chunkAt M) := by
    rw [chunksFrom_eq]
    simp only [Nat.sub_zero, Nat.zero_add]
    rfl
  rw [chunksOf, hfrom]
  rcases Nat.eq_zero_or_pos M with rfl | hM
  · rfl
  · have hpos : 1 ≤ (M + 1023) / 1024 := by omega
    rw [Nat.max_eq_right hpos, if_neg]
    simp
    omega

/-- **The chunks cover the rows**: one after another, each row once. -/
theorem chunks_cover (M : ℕ) :
    (chunksOf M).flatMap (fun c => List.range' c.1 c.2) = List.range M := by
  have hprefix : ∀ n, ((List.range n).map (chunkAt M)).flatMap (fun c => List.range' c.1 c.2) =
      List.range (min M (n * 1024)) := by
    intro n
    induction n with
    | zero => simp
    | succ n ih =>
      rw [List.range_succ, List.map_append, List.flatMap_append, ih]
      simp only [List.map_cons, List.map_nil, List.flatMap_cons, List.flatMap_nil, List.append_nil,
        chunkAt]
      rcases Nat.le_total M (n * 1024) with hle | hle
      · have hnext : min M ((n + 1) * 1024) = M := by omega
        rw [Nat.sub_eq_zero_of_le hle, Nat.min_eq_left hle, hnext]
        simp
      · rw [Nat.min_eq_right hle, List.range_eq_range', List.range_eq_range']
        have happend := List.range'_append_1 (s := 0) (m := n * 1024) (n := min 1024 (M - n * 1024))
        rw [Nat.zero_add] at happend
        rw [happend]
        congr 1
        omega
  rw [chunksOf_eq, hprefix, Nat.min_eq_left (by omega)]

theorem chunkAt_le (M t : ℕ) : (chunkAt M t).2 ≤ 1024 := Nat.min_le_left _ _

/-- The rows of chunk `t`. -/
theorem lt_chunkAt {M t r : ℕ} (hr : r < M) (hlt : r < t * 1024 + 1024) :
    r < t * 1024 + (chunkAt M t).2 := by
  have hrows : (chunkAt M t).2 = min 1024 (M - t * 1024) := rfl
  rcases Nat.le_total 1024 (M - t * 1024) with hle | hle
  · rw [hrows, Nat.min_eq_left hle]
    exact hlt
  · rw [hrows, Nat.min_eq_right hle]
    omega

theorem chunkAt_empty {M t : ℕ} (h : (chunkAt M t).2 = 0) : M ≤ t * 1024 := by
  by_contra hlt
  have hrow := lt_chunkAt (M := M) (t := t) (r := t * 1024) (by omega) (by omega)
  omega

/-! ## Host memory -/

/-- `slot * RD_SLOT_WORDS * RD_WORD_BYTES` -/
def wBase (slot : ℕ) : ℕ := slot * (4 + 1024) * 4

/-- `w_base + TILE * RD_WORD_BYTES` -/
def aBase (slot : ℕ) : ℕ := wBase slot + 4 * 4

/-- `slot * WR_SLOT_WORDS * WR_WORD_BYTES` -/
def cBase (slot : ℕ) : ℕ := slot * 1024 * 16

/-- The slots of the host memory; `u_ram_rd` is on the left and `u_ram_wr` on the right. -/
def hostLayout : Layout (ℕ ⊕ ℕ) where
  rd := .inl
  wr := .inr
  wBase t := wBase t
  aBase t := aBase t
  cBase t := cBase t

/-- A holding register has room for an address of the RAMs. -/
theorem word_width : 32 ≤ 64 := by decide

/-- The regions of the slots lie apart in the two RAMs. -/
def hostBuffers : Buffers (ℕ ⊕ ℕ) 32 where
  toLayout := hostLayout
  port_width := word_width
  fits q t := by
    have ht := t.isLt
    cases q <;>
      simp only [Layout.base, hostLayout, Part.size, wBase, aBase, cBase] <;> omega
  apart {q t k r u l} hk hl heq := by
    have ht := t.isLt
    have hu := u.isLt
    cases q <;> cases r <;>
      simp only [Layout.loc, hostLayout, Part.size, wBase, aBase, cBase, Sum.inl.injEq, Sum.inr.injEq,
        reduceCtorEq, Fin.ext_iff, true_and, false_and] at * <;> omega

/-! ## System -/

/-- Control points of `run_tile`, and the one between two calls. -/
inductive Pc where
  | call
  /-- `while i < len(chunks)` -/
  | batch
  /-- The head of the loop that issues the commands of a batch. -/
  | enum
  | packW
  | packA
  | hold (r : Reg)
  | cmd
  | poll
  /-- The loop that reads the results back. -/
  | copy
  deriving DecidableEq, Repr

structure Sys where
  pc : Pc
  /-- The calls to come. -/
  todo : List Call
  call : Call
  chunks : List (ℕ × ℕ)
  i : ℕ
  slot : ℕ
  Ct : NdArray (BitVec 32)
  nCommands : ℕ
  /-- The calls that returned, with their values. -/
  returned : List (Call × NdArray (BitVec 32))
  port : Port 32
  /-- The command of the datapath, and how many of its rows it has stored. -/
  running : Option (Cmd 32 × ℕ)
  mem : ℕ ⊕ ℕ → BitVec 8
  /-- Completions since the batch began; no step reads it. -/
  done : ℕ

inductive Act where
  | host
  /-- A poll that finds the device not idle, for whatever reason. -/
  | busy
  | start | store | complete
  deriving DecidableEq, Repr

/-- The calls begin on an idle device. -/
structure Init (calls : List Call) (s : Sys) : Prop where
  pc : s.pc = .call
  todo : s.todo = calls
  nCommands : s.nCommands = 0
  returned : s.returned = []
  waiting : s.port.waiting = []
  running : s.running = none
  done : s.done = 0

def nextHold : Reg → Pc
  | .w => .hold .a
  | .a => .hold .c
  | .c => .hold .m
  | .m => .cmd

/-- What `run_tile` stores to a holding register. -/
def regValue (slot rows : ℕ) : Reg → BitVec 64
  | .w => BitVec.ofNat 64 (wBase slot)
  | .a => BitVec.ofNat 64 (aBase slot)
  | .c => BitVec.ofNat 64 (cBase slot)
  | .m => BitVec.ofNat 64 rows

/-- `Ct[row0:row0 + rows] = raw` -/
def setRows (M row0 rows : ℕ) (raw : ℕ → BitVec 32) (Ct : NdArray (BitVec 32)) : NdArray (BitVec 32) :=
  ofFn₂ M 4 fun r j => if row0 ≤ r ∧ r < row0 + rows then raw ((r - row0) * 4 + j) else Ct.get [r, j]

namespace Sys

/-- `chunks[i:i + QUEUE_DEPTH]` -/
def batch (s : Sys) : List (ℕ × ℕ) := (s.chunks.drop s.i).take 4

/-- The chunk that slot `t` of the batch is for. -/
def chunk (s : Sys) (t : ℕ) : ℕ × ℕ := s.batch.getD t (0, 0)

/-- `STATUS` has its queue-empty bit set and its busy bit clear. -/
def idle (s : Sys) : Bool := s.port.waiting.isEmpty && s.running.isNone

/-- One request of the host to the server, with the Python up to the next one. -/
def host (s : Sys) : Option Sys :=
  match s.pc with
  | .call =>
    match s.todo with
    | [] => none
    | c :: rest => some { s with todo := rest, call := c, chunks := chunksOf c.M, i := 0,
                                 Ct := ofFn₂ c.M 4 fun _ _ => 0, pc := .batch }
  | .batch =>
    if s.i < s.chunks.length then some { s with slot := 0, pc := .enum }
    else some { s with returned := s.returned ++ [(s.call, s.Ct)], pc := .call }
  | .enum => if s.slot < s.batch.length then some { s with pc := .packW } else some { s with pc := .poll }
  | .packW =>
    some { s with mem := writeSpan (fun k => .inl (wBase s.slot + k)) s.call.wBytes 16 s.mem
                  pc := .packA }
  | .packA =>
    some { s with mem := writeSpan (fun k => .inl (aBase s.slot + k))
                           (s.call.aBytes (s.chunk s.slot).1) ((s.chunk s.slot).2 * 4) s.mem
                  pc := .hold .w }
  | .hold r =>
    some { s with port := s.port.regWrite r.off (regValue s.slot (s.chunk s.slot).2 r), pc := nextHold r }
  | .cmd =>
    some { s with port := s.port.regWrite offCmd 1, nCommands := s.nCommands + 1, slot := s.slot + 1,
                  pc := .enum }
  | .poll => if s.idle then some { s with slot := 0, pc := .copy } else some s
  | .copy =>
    if s.slot < s.batch.length then
      -- a chunk without rows is not read back
      if (s.chunk s.slot).2 = 0 then some { s with slot := s.slot + 1, pc := .copy }
      else
        some { s with Ct := setRows s.call.M (s.chunk s.slot).1 (s.chunk s.slot).2
                              (ctBuf hostLayout s.mem (CoprocDriver.slot s.slot)) s.Ct
                      slot := s.slot + 1, pc := .copy }
    else some { s with i := s.i + s.batch.length, done := 0, pc := .batch }

/-- One action of the host or the device. -/
def step (a : Act) (s : Sys) : Option Sys :=
  match a with
  | .host => s.host
  | .busy => if s.pc = .poll then some s else none
  | .start =>
    match s.running, s.port.waiting with
    | none, c :: _ => some { s with running := some (c, 0), port := s.port.pop }
    | _, _ => none
  | .store =>
    match s.running with
    | some (c, k) =>
      if k < c.mRows.toNat then
        some { s with mem := storeResult hostLayout c k s.mem, running := some (c, k + 1) }
      else none
    | none => none
  | .complete =>
    match s.running with
    | some (c, k) =>
      if k = c.mRows.toNat then
        some { s with running := none, port := s.port.retire, done := s.done + 1 }
      else none
    | none => none

/-- Commands queued or running, oldest first. -/
def outstanding (s : Sys) : List (Cmd 32) := (s.running.map Prod.fst).toList ++ s.port.waiting

end Sys

/-! ## What a step can do -/

/-- The steps from `s`, with their guards. -/
inductive Move (s : Sys) : Act → Sys → Prop
  | call (c : Call) (rest : List Call) (hpc : s.pc = .call) (htodo : s.todo = c :: rest) :
      Move s .host { s with todo := rest, call := c, chunks := chunksOf c.M, i := 0,
                            Ct := ofFn₂ c.M 4 fun _ _ => 0, pc := .batch }
  | batch (hpc : s.pc = .batch) (hi : s.i < s.chunks.length) :
      Move s .host { s with slot := 0, pc := .enum }
  | ret (hpc : s.pc = .batch) (hi : ¬ s.i < s.chunks.length) :
      Move s .host { s with returned := s.returned ++ [(s.call, s.Ct)], pc := .call }
  | issue (hpc : s.pc = .enum) (hslot : s.slot < s.batch.length) : Move s .host { s with pc := .packW }
  | issued (hpc : s.pc = .enum) (hslot : ¬ s.slot < s.batch.length) : Move s .host { s with pc := .poll }
  | packW (hpc : s.pc = .packW) :
      Move s .host
        { s with mem := writeSpan (fun k => .inl (wBase s.slot + k)) s.call.wBytes 16 s.mem
                 pc := .packA }
  | packA (hpc : s.pc = .packA) :
      Move s .host
        { s with mem := writeSpan (fun k => .inl (aBase s.slot + k))
                          (s.call.aBytes (s.chunk s.slot).1) ((s.chunk s.slot).2 * 4) s.mem
                 pc := .hold .w }
  | hold (r : Reg) (hpc : s.pc = .hold r) :
      Move s .host
        { s with port := s.port.regWrite r.off (regValue s.slot (s.chunk s.slot).2 r), pc := nextHold r }
  | cmd (hpc : s.pc = .cmd) :
      Move s .host
        { s with port := s.port.regWrite offCmd 1, nCommands := s.nCommands + 1, slot := s.slot + 1,
                 pc := .enum }
  | poll (hpc : s.pc = .poll) (hidle : s.idle = true) : Move s .host { s with slot := 0, pc := .copy }
  | again (hpc : s.pc = .poll) (hidle : s.idle = false) : Move s .host s
  | skip (hpc : s.pc = .copy) (hslot : s.slot < s.batch.length) (hrows : (s.chunk s.slot).2 = 0) :
      Move s .host { s with slot := s.slot + 1, pc := .copy }
  | copy (hpc : s.pc = .copy) (hslot : s.slot < s.batch.length) (hrows : (s.chunk s.slot).2 ≠ 0) :
      Move s .host
        { s with Ct := setRows s.call.M (s.chunk s.slot).1 (s.chunk s.slot).2
                         (ctBuf hostLayout s.mem (CoprocDriver.slot s.slot)) s.Ct
                 slot := s.slot + 1, pc := .copy }
  | next (hpc : s.pc = .copy) (hslot : ¬ s.slot < s.batch.length) :
      Move s .host { s with i := s.i + s.batch.length, done := 0, pc := .batch }
  | busy (hpc : s.pc = .poll) : Move s .busy s
  | start (c : Cmd 32) (q : List (Cmd 32)) (hrun : s.running = none) (hwait : s.port.waiting = c :: q) :
      Move s .start { s with running := some (c, 0), port := s.port.pop }
  | store (c : Cmd 32) (k : ℕ) (hrun : s.running = some (c, k)) (hk : k < c.mRows.toNat) :
      Move s .store { s with mem := storeResult hostLayout c k s.mem, running := some (c, k + 1) }
  | complete (c : Cmd 32) (hrun : s.running = some (c, c.mRows.toNat)) :
      Move s .complete { s with running := none, port := s.port.retire, done := s.done + 1 }

section moves
variable {s s' : Sys}

theorem move_of_host (h : s.host = some s') : Move s .host s' := by
  unfold Sys.host at h
  cases hpc : s.pc with
  | call =>
    simp only [hpc] at h
    split at h
    · cases h
    · next c rest htodo => obtain rfl := Option.some.inj h; exact .call c rest hpc htodo
  | batch =>
    simp only [hpc] at h
    split at h
    · next hi => obtain rfl := Option.some.inj h; exact .batch hpc hi
    · next hi => obtain rfl := Option.some.inj h; exact .ret hpc hi
  | enum =>
    simp only [hpc] at h
    split at h
    · next hslot => obtain rfl := Option.some.inj h; exact .issue hpc hslot
    · next hslot => obtain rfl := Option.some.inj h; exact .issued hpc hslot
  | packW => rw [hpc] at h; obtain rfl := Option.some.inj h; exact .packW hpc
  | packA => rw [hpc] at h; obtain rfl := Option.some.inj h; exact .packA hpc
  | hold r => rw [hpc] at h; obtain rfl := Option.some.inj h; exact .hold r hpc
  | cmd => rw [hpc] at h; obtain rfl := Option.some.inj h; exact .cmd hpc
  | poll =>
    simp only [hpc] at h
    split at h
    · next hidle => obtain rfl := Option.some.inj h; exact .poll hpc hidle
    · next hidle =>
      obtain rfl := Option.some.inj h
      exact .again hpc (Bool.eq_false_of_not_eq_true hidle)
  | copy =>
    simp only [hpc] at h
    split at h
    · next hslot =>
      split at h
      · next hrows => obtain rfl := Option.some.inj h; exact .skip hpc hslot hrows
      · next hrows => obtain rfl := Option.some.inj h; exact .copy hpc hslot hrows
    · next hslot => obtain rfl := Option.some.inj h; exact .next hpc hslot

theorem move_of_step {a : Act} (h : s.step a = some s') : Move s a s' := by
  cases a with
  | host => exact move_of_host h
  | busy =>
    dsimp only [Sys.step] at h
    split at h
    · next hpc => obtain rfl := Option.some.inj h; exact .busy hpc
    · cases h
  | start =>
    dsimp only [Sys.step] at h
    split at h
    · next c q hrun hwait => obtain rfl := Option.some.inj h; exact .start c q hrun hwait
    · cases h
  | store =>
    dsimp only [Sys.step] at h
    split at h
    · next c k hrun =>
      split at h
      · next hk => obtain rfl := Option.some.inj h; exact .store c k hrun hk
      · cases h
    · cases h
  | complete =>
    dsimp only [Sys.step] at h
    split at h
    · next c k hrun =>
      split at h
      · next hk =>
        subst hk
        obtain rfl := Option.some.inj h
        exact .complete c hrun
      · cases h
    · cases h

end moves

/-! ## Batches -/

section batches
variable {s : Sys} {t : ℕ}

theorem length_batch_le (s : Sys) : s.batch.length ≤ 4 := by
  simp [Sys.batch]

theorem length_batch (s : Sys) : s.batch.length = min 4 (s.chunks.length - s.i) := by
  simp [Sys.batch]

theorem chunk_eq (h : s.chunks = chunksOf s.call.M) (ht : t < s.batch.length) :
    s.i + t < s.chunks.length ∧ s.chunk t = chunkAt s.call.M (s.i + t) := by
  rw [length_batch] at ht
  have hlt : s.i + t < s.chunks.length := by omega
  refine ⟨hlt, ?_⟩
  have hget : s.batch[t]? = s.chunks[s.i + t]? := by
    rw [Sys.batch, List.getElem?_take, if_pos (by omega), List.getElem?_drop]
  rw [Sys.chunk, List.getD_eq_getElem?_getD, hget]
  rw [h, chunksOf_eq] at hlt ⊢
  rw [List.length_map, List.length_range] at hlt
  simp [hlt]

theorem chunk_rows_le (h : s.chunks = chunksOf s.call.M) (ht : t < s.batch.length) :
    (s.chunk t).2 ≤ 1024 := by
  rw [(chunk_eq h ht).2]
  exact chunkAt_le _ _

end batches

end CoprocBackend
