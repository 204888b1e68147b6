import TensorAccel.Sched.RunTile

/-! # Calls of the backend

    The rows that were read back are those of the product (`Product`), so that a
    call returns what `NumpyBackend` returns.  Every step but a poll that finds
    the device busy brings the calls closer to their end, and until all of them
    have returned there is such a step. -/

open StreamCtrl CmdQueueRegs ActionSystem Span NdArray CoprocDriver Tiler Finset

namespace CoprocBackend

variable {s s' : Sys} {calls : List Call}

/-! ## Rows of the product -/

/-- Entry `(r, j)` of `At @ Wt`. -/
def Call.entry (c : Call) (r j : ℕ) : BitVec 32 :=
  BitVec.ofInt 32 (∑ l ∈ range 4, (c.At.get [r, l]).toInt * (c.Wt.get [l, j]).toInt)

/-- A row of the product, from the bytes of its operands. -/
theorem Call.slotRow_eq (c : Call) (row0 k : ℕ) {j : ℕ} (hj : j < 4) :
    slotRow c.wBytes (c.aBytes row0) k (Fin.ofNat 4 j) = c.entry (row0 + k) j := by
  have hlane : (Fin.ofNat 4 j : Fin 4).val = j := Nat.mod_eq_of_lt hj
  unfold slotRow productRow Call.entry
  rw [← Fin.sum_univ_eq_sum_range (fun l => (c.At.get [row0 + k, l]).toInt * (c.Wt.get [l, j]).toInt) 4]
  congr 1
  refine Finset.sum_congr rfl fun l _ => ?_
  have ha : c.aBytes row0 (4 * k + l) = c.At.get [row0 + k, l.val] := by
    rw [← getD_data_matrix c.at_shape, Call.aBytes]
    congr 1
    omega
  have hw : c.wBytes (4 * l + (Fin.ofNat 4 j : Fin 4).val) = c.Wt.get [l.val, j] := by
    rw [← getD_data_matrix c.wt_shape, Call.wBytes, hlane, Nat.mul_comm]
  dsimp only
  rw [ha, hw]

/-- The rows of a chunk, as the device computes them. -/
theorem rowOf_eq (s : Sys) (t k : ℕ) {j : ℕ} (hj : j < 4) :
    s.rowOf t k (Fin.ofNat 4 j) = s.call.entry ((s.chunk t).1 + k) j :=
  s.call.slotRow_eq (s.chunk t).1 k hj

/-- Slots of the batch that were read back. -/
def Sys.copied (s : Sys) : ℕ := if s.pc = .copy then s.slot else 0

structure Product (s : Sys) : Prop where
  shape : s.pc ≠ .call → s.Ct.shape = [s.call.M, 4]
  rows : s.pc ≠ .call → ∀ r < s.call.M, r < (s.i + s.copied) * 1024 → ∀ j < 4,
    s.Ct.get [r, j] = s.call.entry r j
  returned : ∀ x ∈ s.returned, NumpyBackend.runTile () x.1.Wt x.1.At = some (x.2, ())

theorem product_init (h : Init calls s) : Product s := by
  refine ⟨fun hpc => absurd h.pc hpc, fun hpc => absurd h.pc hpc, ?_⟩
  intro x hx
  rw [h.returned] at hx
  cases hx

/-- A step that reads nothing back. -/
theorem Product.goto (h : Product s) (hcall : s.pc ≠ .call) {pc : Pc} {slot nCommands done : ℕ} {port : Port 32}
    {running : Option (Cmd 32 × ℕ)} {mem : ℕ ⊕ ℕ → BitVec 8}
    (hcopied : Sys.copied { s with pc := pc, slot := slot } ≤ s.copied) :
    Product { s with pc := pc, slot := slot, nCommands := nCommands, done := done, port := port,
                     running := running, mem := mem } := by
  refine ⟨fun _ => h.shape hcall, fun _ r hr hlt j hj => h.rows hcall r hr ?_ j hj, h.returned⟩
  have hle : Sys.copied { s with pc := pc, slot := slot, nCommands := nCommands, done := done, port := port,
                                 running := running, mem := mem } ≤ s.copied := hcopied
  exact hlt.trans_le (Nat.mul_le_mul_right 1024 (Nat.add_le_add_left hle s.i))

/-- The device does not touch the result. -/
theorem Product.device (h : Product s) {port : Port 32} {running : Option (Cmd 32 × ℕ)}
    {mem : ℕ ⊕ ℕ → BitVec 8} {done : ℕ} :
    Product { s with port := port, running := running, mem := mem, done := done } :=
  ⟨h.shape, h.rows, h.returned⟩

/-- All chunks were read back when a call returns. -/
theorem Product.complete (h : Product s) (hslots : Slots s) (hpc : s.pc = .batch)
    (hi : ¬ s.i < s.chunks.length) : NumpyBackend.runTile () s.call.Wt s.call.At = some (s.Ct, ()) := by
  have hcall : s.pc ≠ .call := by simp [hpc]
  obtain ⟨C, hprod, hshape, hentry⟩ := product32_eq s.call.at_shape s.call.wt_shape
  -- the loop ends when the chunks are used up, 1024 rows each
  have hall : s.call.M ≤ s.i * 1024 := by
    rw [hslots.chunks hcall, chunksOf_eq, List.length_map, List.length_range] at hi
    omega
  have heq : C = s.Ct := by
    refine ext₂ hshape (h.shape hcall) fun r hr j hj => ?_
    rw [hentry r hr j hj, h.rows hcall r hr (by rw [Nat.add_mul]; omega) j hj]
    rfl
  simp [NumpyBackend, hprod, heq]

/-- A chunk is read back. -/
theorem Product.copy (h : Product s) (hslots : Slots s) (hpc : s.pc = .copy)
    (hslot : s.slot < s.batch.length) :
    Product { s with Ct := setRows s.call.M (s.chunk s.slot).1 (s.chunk s.slot).2
                             (ctBuf hostLayout s.mem (slot s.slot)) s.Ct
                     slot := s.slot + 1, pc := .copy } := by
  have hcall : s.pc ≠ .call := by simp [hpc]
  have hplaced := hslots.placed
  simp only [Sys.Placed, hpc] at hplaced
  have hstored := hslots.results s.slot (by omega)
  have hchunk := (chunk_eq (hslots.chunks hcall) hslot).2
  refine ⟨fun _ => rfl, ?_, h.returned⟩
  intro _ r hr hlt j hj
  dsimp only at hr hlt ⊢
  rw [setRows, get_ofFn₂ _ hr hj]
  by_cases hin : (s.chunk s.slot).1 ≤ r ∧ r < (s.chunk s.slot).1 + (s.chunk s.slot).2
  · have hword : ctBuf hostLayout s.mem (slot s.slot) ((r - (s.chunk s.slot).1) * 4 + j) =
        s.rowOf s.slot (r - (s.chunk s.slot).1) (Fin.ofNat 4 j) :=
      Rows.ctBuf (b := hostBuffers) hstored (by omega) hj
    rw [if_pos hin, hword, rowOf_eq s s.slot _ hj, Nat.add_sub_cancel' hin.1]
  · -- a row of an earlier chunk
    rw [if_neg hin]
    refine h.rows hcall r hr ?_ j hj
    simp only [Sys.copied, hpc, if_true] at hlt ⊢
    by_contra hge
    have hfirst : (s.chunk s.slot).1 = (s.i + s.slot) * 1024 := by rw [hchunk, chunkAt]
    have hrow := lt_chunkAt (t := s.i + s.slot) hr (by omega)
    rw [← hchunk] at hrow
    omega

theorem Product.host_step (h : Product s) (hslots : Slots s) (hmove : Move s .host s') : Product s' := by
  have hplaced := hslots.placed
  cases hmove with
  | call c rest hpc htodo =>
    refine ⟨fun _ => rfl, ?_, h.returned⟩
    intro _ r hr hlt
    simp [Sys.copied] at hlt
  | batch hpc hi => exact h.goto (by simp [hpc]) (by simp [Sys.copied])
  | ret hpc hi =>
    refine ⟨fun hne => absurd rfl hne, fun hne => absurd rfl hne, ?_⟩
    intro x hx
    rcases List.mem_append.mp hx with hold | hnew
    · exact h.returned x hold
    · rw [List.mem_singleton.mp hnew]
      exact h.complete hslots hpc hi
  | issue hpc hslot => exact h.goto (by simp [hpc]) (by simp [Sys.copied])
  | issued hpc hslot => exact h.goto (by simp [hpc]) (by simp [Sys.copied])
  | packW hpc => exact h.goto (by simp [hpc]) (by simp [Sys.copied])
  | packA hpc => exact h.goto (by simp [hpc]) (by simp [Sys.copied])
  | hold r hpc => exact h.goto (by simp [hpc]) (by cases r <;> simp [Sys.copied, nextHold])
  | cmd hpc => exact h.goto (by simp [hpc]) (by simp [Sys.copied])
  | poll hpc hidle => exact h.goto (by simp [hpc]) (by simp [Sys.copied])
  | again hpc hidle => exact h
  | skip hpc hslot hrows =>
    have hcall : s.pc ≠ .call := by simp [hpc]
    have hchunk := (chunk_eq (hslots.chunks hcall) hslot).2
    refine ⟨fun _ => h.shape hcall, fun _ r hr hlt j hj => h.rows hcall r hr ?_ j hj, h.returned⟩
    -- an empty chunk lies behind the last row
    rw [hchunk] at hrows
    rw [Sys.copied, if_pos hpc]
    exact hr.trans_le (chunkAt_empty hrows)
  | copy hpc hslot hrows => exact h.copy hslots hpc hslot
  | next hpc hslot =>
    have hcall : s.pc ≠ .call := by simp [hpc]
    refine ⟨fun _ => h.shape hcall, fun _ r hr hlt j hj => h.rows hcall r hr ?_ j hj, h.returned⟩
    -- every slot of the batch was read back
    have hend : s.i + s.batch.length ≤ s.i + s.copied := by
      rw [Sys.copied, if_pos hpc]
      omega
    exact Nat.lt_of_lt_of_le hlt (Nat.mul_le_mul_right 1024 hend)

theorem Product.step {a : Act} (h : Product s) (hslots : Slots s) (hstep : s.step a = some s') :
    Product s' := by
  cases a with
  | host => exact h.host_step hslots (move_of_host hstep)
  | busy =>
    cases move_of_step hstep with
    | busy hpc => exact h
  | start =>
    cases move_of_step hstep with
    | start c q hrun hwait => exact h.device
  | store =>
    cases move_of_step hstep with
    | store c k hrun hk => exact h.device
  | complete =>
    cases move_of_step hstep with
    | complete c hrun => exact h.device

/-! ## Order of the calls -/

/-- The calls that returned, the one that runs, and those to come. -/
def Sys.log (s : Sys) : List Call :=
  s.returned.map Prod.fst ++ (if s.pc = .call then [] else [s.call]) ++ s.todo

theorem log_step {a : Act} (hstep : s.step a = some s') : s'.log = s.log := by
  cases move_of_step hstep with
  | call c rest hpc htodo => simp [Sys.log, hpc, htodo]
  | ret hpc hi => simp [Sys.log, hpc]
  | hold r hpc => cases r <;> simp [Sys.log, hpc, nextHold]
  | busy hpc => rfl
  | again hpc hidle => rfl
  | start c q hrun hwait => rfl
  | store c k hrun hk => rfl
  | complete c hrun => rfl
  | batch hpc => simp [Sys.log, hpc]
  | issue hpc => simp [Sys.log, hpc]
  | issued hpc => simp [Sys.log, hpc]
  | packW hpc => simp [Sys.log, hpc]
  | packA hpc => simp [Sys.log, hpc]
  | cmd hpc => simp [Sys.log, hpc]
  | poll hpc => simp [Sys.log, hpc]
  | skip hpc => simp [Sys.log, hpc]
  | copy hpc => simp [Sys.log, hpc]
  | next hpc => simp [Sys.log, hpc]

/-- The invariants of a run. -/
theorem invariants_reach {ok : Act → Sys → Bool} (h : Reach Sys.step ok (Init calls) s) :
    Slots s ∧ Product s ∧ s.log = calls := by
  apply h.invariant (I := fun s => Slots s ∧ Product s ∧ s.log = calls)
  · intro s hinit
    refine ⟨slots_init hinit, product_init hinit, ?_⟩
    simp [Sys.log, hinit.pc, hinit.todo, hinit.returned]
  · rintro a s s' ⟨hslots, hproduct, hlog⟩ _ hstep
    exact ⟨hslots.step hstep, hproduct.step hslots hstep, (log_step hstep).trans hlog⟩

/-! ## Safety of the slots -/

/-- The memory that a step may change: operands of the slot that is filled, or rows
of the slot that runs. -/
theorem Slots.mem_step {a : Act} (h : Slots s) (hstep : s.step a = some s') :
    s'.mem = s.mem ∨
    (∃ q, q ≠ .c ∧ s.issued < 4 ∧ SameExcept hostBuffers q (slot s.issued) s.mem s'.mem) ∨
    (s.done < s.issued ∧ SameExcept hostBuffers .c (slot s.done) s.mem s'.mem) := by
  have hfour := length_batch_le s
  have hplaced := h.placed
  cases move_of_step hstep with
  | packW hpc =>
    have hissued : s.issued = s.slot := by simp [Sys.issued, hpc]
    simp only [Sys.Placed, hpc] at hplaced
    rw [hissued]
    exact .inr (.inl ⟨.w, by decide, by omega, sameExcept_packW s (by omega)⟩)
  | packA hpc =>
    have hissued : s.issued = s.slot := by simp [Sys.issued, hpc]
    simp only [Sys.Placed, hpc] at hplaced
    rw [hissued]
    exact .inr (.inl ⟨.a, by decide, by omega, sameExcept_packA s (by omega)
      (chunk_rows_le (h.chunks (by simp [hpc])) hplaced.2)⟩)
  | store c k hrun hk =>
    obtain ⟨hlt, rfl, -⟩ := h.running hrun
    have hle : (s.chunk s.done).2 ≤ 1024 := h.rows_le hlt
    have hrows : (s.cmdOf s.done).mRows.toNat = (s.chunk s.done).2 := toNat_slotRows hostLayout 32 _ hle
    rw [hrows] at hk
    exact .inr (.inr ⟨hlt, (h.operands s.done le_rfl hlt).storeResult_sameExcept hle hk⟩)
  | _ => exact .inl rfl

/-- No step changes an operand of a command in flight. -/
theorem Slots.operand_kept {a : Act} (h : Slots s) (hstep : s.step a = some s') {t : ℕ} {q : Part}
    {l : ℕ ⊕ ℕ} (hlow : s.done ≤ t) (hhigh : t < s.issued) (hq : q ≠ .c)
    (hl : Within hostLayout q (s.cmdOf t) l) : s'.mem l = s.mem l := by
  obtain ⟨k, hk, rfl⟩ := within_slot (b := hostBuffers) (h.rows_le hhigh) hl
  rcases h.mem_step hstep with hmem | ⟨r, -, hfour, hsame⟩ | ⟨-, hsame⟩
  · rw [hmem]
  · exact hsame q (slot t) k hk (.inr (slots_differ (by omega) hfour (by omega)))
  · exact hsame q (slot t) k hk (.inl hq)

/-- No step changes a result that is complete, until the batch is over. -/
theorem Slots.result_kept {a : Act} (h : Slots s) (hstep : s.step a = some s') {t : ℕ} {l : ℕ ⊕ ℕ}
    (ht : t < s.done) (hl : Within hostLayout .c (s.cmdOf t) l) : s'.mem l = s.mem l := by
  have hle := h.le
  have hissued := h.issued_le
  have hfour := length_batch_le s
  obtain ⟨k, hk, rfl⟩ := within_slot (b := hostBuffers) (h.rows_le (by omega)) hl
  rcases h.mem_step hstep with hmem | ⟨r, hr, -, hsame⟩ | ⟨hrun, hsame⟩
  · rw [hmem]
  · exact hsame .c (slot t) k hk (.inl (Ne.symm hr))
  · exact hsame .c (slot t) k hk (.inr (slots_differ (by omega) (by omega) (by omega)))

theorem Slots.getElem_outstanding (h : Slots s) {j : ℕ} (hj : j < s.outstanding.length) :
    s.done + j < s.issued ∧ s.outstanding[j] = s.cmdOf (s.done + j) := by
  have hlen := congrArg List.length h.queue
  rw [List.length_map, List.length_range'] at hlen
  refine ⟨by omega, ?_⟩
  simp [h.queue]

/-- Regions of commands in flight do not overlap. -/
theorem Slots.apart (h : Slots s) {j k : ℕ} {q r : Part} {l : ℕ ⊕ ℕ} (hj : j < s.outstanding.length)
    (hk : k < s.outstanding.length) (hl : Within hostLayout q s.outstanding[j] l)
    (hl' : Within hostLayout r s.outstanding[k] l) : j = k ∧ q = r := by
  have hissued := h.issued_le
  have hfour := length_batch_le s
  obtain ⟨hj', hcj⟩ := h.getElem_outstanding hj
  obtain ⟨hk', hck⟩ := h.getElem_outstanding hk
  rw [hcj] at hl
  rw [hck] at hl'
  obtain ⟨m, hm, heq⟩ := within_slot (b := hostBuffers) (h.rows_le hj') hl
  obtain ⟨n, hn, heq'⟩ := within_slot (b := hostBuffers) (h.rows_le hk') hl'
  obtain ⟨hqr, hslots, -⟩ := hostBuffers.apart hm hn (heq.symm.trans heq')
  refine ⟨?_, hqr⟩
  by_contra hne
  exact slots_differ (show s.done + j < 4 by omega) (show s.done + k < 4 by omega) (by omega) hslots

/-! ## Progress -/

/-- Steps of the host until the batches of a call are over, at control point `pc`
with `n` chunks left, of which `len` are in the batch. -/
def rank (n len slot : ℕ) : Pc → ℕ
  | .call => 0
  | .batch => 400 * n + 1
  | .enum => 400 * (n - 1) + 200 + 10 * (len - slot) + 9
  | .packW => 400 * (n - 1) + 200 + 10 * (len - slot) + 8
  | .packA => 400 * (n - 1) + 200 + 10 * (len - slot) + 7
  | .hold .w => 400 * (n - 1) + 200 + 10 * (len - slot) + 6
  | .hold .a => 400 * (n - 1) + 200 + 10 * (len - slot) + 5
  | .hold .c => 400 * (n - 1) + 200 + 10 * (len - slot) + 4
  | .hold .m => 400 * (n - 1) + 200 + 10 * (len - slot) + 3
  | .cmd => 400 * (n - 1) + 200 + 10 * (len - slot) + 2
  | .poll => 400 * (n - 1) + 150
  | .copy => 400 * (n - 1) + 100 + (len - slot)

namespace Sys

/-- A bound on the steps of the host to come. -/
def hostWork (s : Sys) : ℕ :=
  (s.todo.map fun c => 400 * (chunksOf c.M).length + 2).sum +
    rank (s.chunks.length - s.i) s.batch.length s.slot s.pc

/-- The same for the device. -/
def deviceWork (s : Sys) : ℕ := datapathWork s.running s.port.waiting

/-- A step of the host may cost as much as a command of `MAX_ROWS` rows. -/
def work (s : Sys) : ℕ := 2000 * s.hostWork + s.deviceWork

end Sys

/-- A step of the host that issues no command. -/
theorem work_lt_of_host (hhost : s'.hostWork < s.hostWork) (hdevice : s'.deviceWork = s.deviceWork) :
    s'.work < s.work := by
  unfold Sys.work
  omega

/-- A step of the device. -/
theorem work_lt_of_device (hhost : s'.hostWork = s.hostWork) (hdevice : s'.deviceWork < s.deviceWork) :
    s'.work < s.work := by
  unfold Sys.work
  omega

/-- A command is worth less than the step that issues it. -/
theorem Slots.work_cmd (h : Slots s) (hpc : s.pc = .cmd) :
    Sys.work { s with port := s.port.regWrite offCmd 1, nCommands := s.nCommands + 1,
                      slot := s.slot + 1, pc := .enum } < s.work := by
  have hplaced := h.placed
  have hissuing := h.issuing
  simp only [Sys.Placed, hpc] at hplaced
  simp only [Sys.Issuing, hpc] at hissuing
  have hle : (s.chunk s.slot).2 ≤ 1024 := chunk_rows_le (h.chunks (by simp [hpc])) hplaced.2
  have hrows : s.port.held.mRows.toNat = (s.chunk s.slot).2 := by
    rw [hissuing.2]
    exact toNat_slotRows hostLayout 32 _ hle
  have hhost : Sys.hostWork { s with port := s.port.regWrite offCmd 1, nCommands := s.nCommands + 1,
                                     slot := s.slot + 1, pc := .enum } + 1 ≤ s.hostWork := by
    simp only [Sys.hostWork, Sys.batch, rank, hpc]
    have hslot : s.slot < (List.take 4 (List.drop s.i s.chunks)).length := hplaced.2
    omega
  have hdevice : Sys.deviceWork { s with port := s.port.regWrite offCmd 1, nCommands := s.nCommands + 1,
                                         slot := s.slot + 1, pc := .enum } ≤ s.deviceWork + 1026 := by
    rw [Port.regWrite_cmd _ (h.room hpc)]
    simp only [Sys.deviceWork, datapathWork_enqueue, hrows]
    omega
  unfold Sys.work at *
  omega

/-- **Progress**: only a poll can leave the calls as far from their end as they were. -/
theorem Slots.work_step {a : Act} (h : Slots s) (hstep : s.step a = some s') :
    (s.pc = .poll ∧ s' = s) ∨ s'.work < s.work := by
  have hlen := length_batch s
  have hplaced := h.placed
  cases move_of_step hstep with
  | busy hpc => exact .inl ⟨hpc, rfl⟩
  | again hpc hidle => exact .inl ⟨hpc, rfl⟩
  | cmd hpc => exact .inr (h.work_cmd hpc)
  | start c q hrun hwait =>
    refine .inr (work_lt_of_device rfl ?_)
    simp only [Sys.deviceWork, hrun, hwait, Port.pop, List.tail_cons]
    exact datapathWork_start
  | store c k hrun hk =>
    refine .inr (work_lt_of_device rfl ?_)
    rw [Sys.deviceWork, Sys.deviceWork, hrun]
    exact datapathWork_store hk
  | complete c hrun =>
    refine .inr (work_lt_of_device rfl ?_)
    rw [Sys.deviceWork, Sys.deviceWork, hrun]
    exact datapathWork_complete
  | call c rest hpc htodo =>
    refine .inr (work_lt_of_host ?_ rfl)
    simp only [Sys.hostWork, rank, hpc, htodo, List.map_cons, List.sum_cons, Nat.sub_zero]
    omega
  | hold r hpc =>
    refine .inr (work_lt_of_host ?_ ?_)
    · cases r <;> simp only [Sys.hostWork, Sys.batch, rank, hpc, nextHold] <;> omega
    · rw [regWrite_off]
      rfl
  | batch hpc hi =>
    refine .inr (work_lt_of_host ?_ rfl)
    simp only [Sys.hostWork, Sys.batch, rank, hpc] at hlen ⊢
    omega
  | skip hpc hslot hrows =>
    refine .inr (work_lt_of_host ?_ rfl)
    simp only [Sys.hostWork, Sys.batch, rank, hpc] at hslot ⊢
    omega
  | copy hpc hslot hrows =>
    refine .inr (work_lt_of_host ?_ rfl)
    simp only [Sys.hostWork, Sys.batch, rank, hpc] at hslot ⊢
    omega
  | next hpc hslot =>
    refine .inr (work_lt_of_host ?_ rfl)
    simp only [Sys.Placed, hpc] at hplaced
    simp only [Sys.hostWork, Sys.batch, rank, hpc] at hlen hslot hplaced ⊢
    omega
  | _ hpc =>
    refine .inr (work_lt_of_host ?_ rfl)
    simp only [Sys.Placed, hpc] at hplaced
    simp only [Sys.hostWork, Sys.batch, rank, hpc] at hlen hplaced ⊢
    omega

/-- The host has a request to make until the calls have returned. -/
theorem host_isSome (h : ¬ (s.pc = .call ∧ s.todo = [])) : s.host.isSome = true := by
  unfold Sys.host
  cases hpc : s.pc with
  | call =>
    cases htodo : s.todo with
    | nil => exact absurd ⟨hpc, htodo⟩ h
    | cons c rest => rfl
  | batch =>
    simp only
    split <;> rfl
  | enum =>
    simp only
    split <;> rfl
  | poll =>
    simp only
    split <;> rfl
  | copy =>
    simp only
    split
    · split <;> rfl
    · rfl
  | _ => rfl

/-- A busy device has a command to work on. -/
theorem Slots.device_step (h : Slots s) (hbusy : s.idle = false) :
    ∃ a s', s.step a = some s' ∧ s'.running ≠ s.running := by
  cases hrun : s.running with
  | none =>
    obtain ⟨c, q, hwait⟩ : ∃ c q, s.port.waiting = c :: q := by
      apply List.exists_cons_of_ne_nil
      intro hnil
      simp [Sys.idle, hrun, hnil] at hbusy
    refine ⟨.start, { s with running := some (c, 0), port := s.port.pop }, ?_, by simp⟩
    simp [Sys.step, hrun, hwait]
  | some x =>
    obtain ⟨c, k⟩ := x
    obtain ⟨hlt, rfl, -⟩ := h.running hrun
    have hrows : (s.cmdOf s.done).mRows.toNat = (s.chunk s.done).2 :=
      toNat_slotRows hostLayout 32 _ (h.rows_le hlt)
    rcases Nat.lt_or_eq_of_le (h.stored _ _ hrun).1 with hk | hk
    · refine ⟨.store, { s with mem := storeResult hostLayout (s.cmdOf s.done) k s.mem,
                               running := some (s.cmdOf s.done, k + 1) }, ?_, by simp⟩
      simp [Sys.step, hrun, hrows, hk]
    · refine ⟨.complete, { s with running := none, port := s.port.retire, done := s.done + 1 }, ?_,
        by simp⟩
      simp [Sys.step, hrun, hrows, hk]

/-- Until all calls have returned there is a step that brings them closer to their end. -/
theorem Slots.enabled (h : Slots s) :
    (s.pc = .call ∧ s.todo = []) ∨ ∃ a s', s.step a = some s' ∧ s'.work < s.work := by
  by_cases hend : s.pc = .call ∧ s.todo = []
  · exact .inl hend
  right
  cases hidle : s.idle with
  | false =>
    obtain ⟨a, s', hstep, hne⟩ := h.device_step hidle
    exact ⟨a, s', hstep, (h.work_step hstep).resolve_left fun hp => hne (by rw [hp.2])⟩
  | true =>
    obtain ⟨s', hhost⟩ := Option.isSome_iff_exists.mp (host_isSome hend)
    refine ⟨.host, s', hhost, (h.work_step (a := .host) hhost).resolve_left fun hp => ?_⟩
    -- a poll of an idle device goes on
    have hpc := congrArg (Option.map Sys.pc) hhost
    simp [Sys.host, hp.1, hp.2, hidle] at hpc

/-! ## The backend -/

/-- **`CoprocBackend.run_tile` returns what `NumpyBackend.run_tile` does**, in every
run of a sequence of calls.  The chunks of a call cover its rows once, no command is
dropped, regions of commands in flight do not overlap, and no step changes an operand
of such a command or a result that was not read back.  The calls return in order, and
until all have returned there is a step that brings them closer to their end; a poll is
the only step that does not. -/
theorem run_tile_correct (calls : List Call) {s : Sys} (h : Reach Sys.step always (Init calls) s) :
    (s.pc ≠ .call → s.chunks = chunksOf s.call.M ∧
      s.chunks.flatMap (fun c => List.range' c.1 c.2) = List.range s.call.M ∧
      ∀ c ∈ s.chunks, c.2 ≤ 1024) ∧
    (s.pc = .cmd → (s.port.regWrite offCmd 1).waiting = s.port.waiting ++ [s.port.held]) ∧
    (∀ j k (hj : j < s.outstanding.length) (hk : k < s.outstanding.length) q r l,
      Within hostLayout q s.outstanding[j] l → Within hostLayout r s.outstanding[k] l → j = k ∧ q = r) ∧
    (∀ a s', s.step a = some s' →
      (∀ c ∈ s.outstanding, ∀ q l, q ≠ .c → Within hostLayout q c l → s'.mem l = s.mem l) ∧
      ∀ t < s.done, ∀ l, Within hostLayout .c (s.cmdOf t) l → s'.mem l = s.mem l) ∧
    (s.pc = .copy → s.done = s.batch.length) ∧
    (s.log = calls ∧
      ∀ x ∈ s.returned, NumpyBackend.runTile () x.1.Wt x.1.At = some (x.2, ())) ∧
    ((s.pc = .call ∧ s.todo = []) ∨ ∃ a s', s.step a = some s' ∧ s'.work < s.work) ∧
    ∀ a s', s.step a = some s' → (s.pc = .poll ∧ s' = s) ∨ s'.work < s.work := by
  obtain ⟨hslots, hproduct, hlog⟩ := invariants_reach h
  refine ⟨?_, ?_, ?_, ?_, ?_, ⟨hlog, hproduct.returned⟩,
    hslots.enabled, ?_⟩
  · intro hpc
    have hchunks := hslots.chunks hpc
    refine ⟨hchunks, ?_, ?_⟩
    · rw [hchunks]
      exact chunks_cover s.call.M
    · intro c hc
      rw [hchunks, chunksOf_eq] at hc
      obtain ⟨t, -, rfl⟩ := List.mem_map.mp hc
      exact chunkAt_le s.call.M t
  · intro hpc
    rw [Port.regWrite_cmd _ (hslots.room hpc)]
  · intro j k hj hk q r l hl hl'
    exact hslots.apart hj hk hl hl'
  · intro a s' hstep
    refine ⟨?_, fun t ht l hl => hslots.result_kept hstep ht hl⟩
    intro c hc q l hq hl
    obtain ⟨j, hj, rfl⟩ := List.mem_iff_getElem.mp hc
    obtain ⟨hlt, hcmd⟩ := hslots.getElem_outstanding hj
    rw [hcmd] at hl
    exact hslots.operand_kept hstep (Nat.le_add_right _ _) hlt hq hl
  · intro hpc
    have hplaced := hslots.placed
    simp only [Sys.Placed, hpc] at hplaced
    exact hplaced.2.2
  · intro a s' hstep
    exact hslots.work_step hstep

/-- A call of five chunks: one more than there are slots. -/
def demoCall : Call where
  M := 4097
  Wt := ofFn₂ 4 4 fun r c => BitVec.ofNat 8 (4 * r + c)
  At := ofFn₂ 4097 4 fun m c => BitVec.ofInt 8 (m - c)
  wt_shape := rfl
  at_shape := rfl

/-- An idle device, before that call and then the same again. -/
def demoStart : Sys where
  pc := .call
  todo := [demoCall, demoCall]
  call := demoCall
  chunks := []
  i := 0
  slot := 0
  Ct := ofFn₂ 0 0 fun _ _ => 0
  nCommands := 0
  returned := []
  port := ⟨⟨0, 0, 0, 0⟩, [], false, false, 0⟩
  running := none
  mem _ := 0
  done := 0

/-- Both calls return.  Their fifth chunk is row 4096, which holds 0, -1, -2 and -3. -/
theorem run_tile_correct_demo :
    chunksOf 4097 = [(0, 1024), (1024, 1024), (2048, 1024), (3072, 1024), (4096, 1)] ∧
    ∃ s, Reach Sys.step always (Init [demoCall, demoCall]) s ∧
      s.returned.map Prod.fst = [demoCall, demoCall] ∧
      ∀ x ∈ s.returned, x.2.get [4096, 0] = -(4 + 2 * 8 + 3 * 12) := by
  refine ⟨by rw [chunksOf_eq]; decide, ?_⟩
  have hinit : Init [demoCall, demoCall] demoStart := ⟨rfl, rfl, rfl, rfl, rfl, rfl, rfl⟩
  obtain ⟨s, hreach, hpc, htodo⟩ := (Reach.start hinit).progress Sys.work fun u hu => by
    obtain ⟨-, -, -, -, -, -, hmore, -⟩ := run_tile_correct [demoCall, demoCall] hu
    exact hmore.imp_right fun ⟨a, u', hstep, hlt⟩ => ⟨a, u', rfl, hstep, hlt⟩
  obtain ⟨-, -, -, -, -, ⟨hlog, hreturned⟩, -⟩ := run_tile_correct [demoCall, demoCall] hreach
  have hfst : s.returned.map Prod.fst = [demoCall, demoCall] := by
    rw [← hlog, Sys.log, if_pos hpc, htodo, List.append_nil, List.append_nil]
  refine ⟨s, hreach, hfst, ?_⟩
  intro x hx
  have hcall : x.1 = demoCall := by
    have hmem := List.mem_map_of_mem (f := Prod.fst) hx
    rw [hfst] at hmem
    simpa using hmem
  have hprod := numpy_runTile.mp (hreturned x hx)
  rw [hcall] at hprod
  obtain ⟨C, hC, -, hentry⟩ := product32_eq demoCall.at_shape demoCall.wt_shape
  obtain rfl := Option.some.inj (hC.symm.trans hprod)
  rw [hentry 4096 (by decide) 0 (by decide)]
  have hrow : ∀ l ∈ range 4, demoCall.At.get [4096, l] = BitVec.ofInt 8 (4096 - l) := by
    intro l hl
    rw [demoCall, get_ofFn₂ _ (by decide) (mem_range.mp hl), Nat.cast_ofNat]
  rw [Finset.sum_congr rfl fun l hl => by rw [hrow l hl]]
  decide

end CoprocBackend
