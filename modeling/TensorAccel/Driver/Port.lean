import TensorAccel.Mmio.CmdQueueRegs

/-! # The command queue as software sees it

    `Port` is what the registers of `cmd_queue_regs` mean to a program: the
    holding registers, the commands that wait, the interrupt bits and the done
    count.  A clock cycle of the register block is at most one store, at most
    one pop and at most one completion, in this order (`ofRegs_step`). -/

open StreamCtrl CmdQueueRegs Clocked

namespace CoprocDriver

variable {A : ℕ}

/-! ## Port -/

structure Port (A : ℕ) where
  held : Cmd A
  /-- Accepted commands that have not been started, oldest first. -/
  waiting : List (Cmd A)
  irqEn : Bool
  irqPending : Bool
  doneCount : BitVec 16

namespace Port

/-- A store to the register at offset `off`. -/
def regWrite (off : BitVec 6) (v : BitVec 64) (d : Port A) : Port A :=
  if off = offW then { d with held := { d.held with wBase := v.setWidth A } }
  else if off = offA then { d with held := { d.held with aBase := v.setWidth A } }
  else if off = offC then { d with held := { d.held with cBase := v.setWidth A } }
  else if off = offM then { d with held := { d.held with mRows := v.setWidth 32 } }
  else if off = offCmd then
    -- a full queue drops the command
    if v.getLsbD 0 && decide (d.waiting.length < 4) then
      { d with waiting := d.waiting ++ [d.held] }
    else d
  else if off = offIrq then
    { d with irqEn := v.getLsbD 0, irqPending := d.irqPending && !v.getLsbD 1 }
  else d

/-- The oldest command leaves the queue for the datapath. -/
def pop (d : Port A) : Port A := { d with waiting := d.waiting.tail }

/-- The datapath reports a completion. -/
def retire (d : Port A) : Port A :=
  { d with irqPending := true, doneCount := d.doneCount + 1 }

def irq (d : Port A) : Bool := d.irqPending && d.irqEn

/-- `(status >> COPROC_STATUS_DONE_COUNT_SHIFT) & COPROC_STATUS_DONE_COUNT_MASK`. -/
def doneField (d : Port A) : BitVec 32 := d.doneCount.setWidth 32

/-- `reg_write(COPROC_REG_IRQ, 0x3)`. -/
@[simp] theorem regWrite_irq (d : Port A) :
    d.regWrite offIrq 3 = { d with irqEn := true, irqPending := false } := by
  unfold regWrite
  simp [offIrq, offW, offA, offC, offM, offCmd]

/-- `reg_write(COPROC_REG_CMD, 1)`. -/
theorem regWrite_cmd (d : Port A) (h : d.waiting.length < 4) :
    d.regWrite offCmd 1 = { d with waiting := d.waiting ++ [d.held] } := by
  unfold regWrite
  simp [offW, offA, offC, offM, offCmd, h]

/-! ## Refinement -/

/-- The port that the registers of `cmd_queue_regs` stand for. -/
def ofRegs (s : Regs A) : Port A :=
  ⟨s.held, s.queue, s.irqEn, s.irqPending, s.doneCount⟩

section refinement
variable {base : BitVec 64} {i : RegsIn} {s : Regs A}

/-- The port after the store of a cycle, if there is one. -/
def afterStore (base : BitVec 64) (i : RegsIn) (d : Port A) : Port A :=
  if i.wrHit base then d.regWrite i.off i.dmemWdata else d

theorem afterStore_held (base : BitVec 64) (i : RegsIn) (d : Port A) :
    (d.afterStore base i).held = Regs.heldNext base i d.held := by
  unfold afterStore Regs.heldNext regWrite
  split
  · -- only the four holding registers change `held`
    split <;> [rfl; split] <;> [rfl; split] <;> [rfl; split] <;> [rfl; split]
    · split <;> rfl
    · split <;> rfl
  · rfl

theorem afterStore_irqEn (base : BitVec 64) (i : RegsIn) (d : Port A) :
    (d.afterStore base i).irqEn =
      if i.wrHit base && i.off == offIrq then i.dmemWdata.getLsbD 0 else d.irqEn := by
  unfold afterStore regWrite
  cases hhit : i.wrHit base with
  | false => simp
  | true =>
    by_cases hirq : i.off = offIrq
    · simp [hirq, offIrq, offW, offA, offC, offM, offCmd]
    · simp only [hirq, if_true, if_false, Bool.true_and, beq_iff_eq]
      repeat' split
      all_goals rfl

theorem afterStore_irqPending (base : BitVec 64) (i : RegsIn) (d : Port A) :
    (d.afterStore base i).irqPending =
      if i.wrHit base && i.off == offIrq && i.dmemWdata.getLsbD 1 then false
      else d.irqPending := by
  unfold afterStore regWrite
  cases hhit : i.wrHit base with
  | false => simp
  | true =>
    by_cases hirq : i.off = offIrq
    · cases i.dmemWdata.getLsbD 1 <;> simp [hirq, offIrq, offW, offA, offC, offM, offCmd]
    · simp only [hirq, if_true, if_false, Bool.true_and, Bool.false_and, Bool.false_eq_true,
        beq_false_of_ne (a := i.off) hirq]
      repeat' split
      all_goals rfl

theorem afterStore_doneCount (base : BitVec 64) (i : RegsIn) (d : Port A) :
    (d.afterStore base i).doneCount = d.doneCount := by
  unfold afterStore regWrite
  repeat' split
  all_goals rfl

/-- The store appends exactly the command that the queue accepts. -/
theorem afterStore_waiting (base : BitVec 64) (i : RegsIn) (h : s.Valid) :
    ((ofRegs s).afterStore base i).waiting = s.queue ++ (s.enqEvent base i).toList := by
  -- the full flag of the registers is the room test of the port
  have hfull : s.fifoFull = decide (¬ s.queue.length < 4) := by
    rw [h.length, Bool.eq_iff_iff, Regs.fifoFull, beq_iff_eq, decide_eq_true_eq,
      ← BitVec.toNat_inj]
    have hcap := h.cap
    show s.fifoCnt.toNat = 4 ↔ _
    omega
  unfold afterStore Regs.enqEvent Regs.enqueue
  rw [hfull]
  cases hhit : i.wrHit base with
  | false => simp [ofRegs]
  | true =>
    unfold regWrite
    by_cases hcmd : i.off = offCmd
    · by_cases hroom : s.queue.length < 4
      · cases i.dmemWdata.getLsbD 0 <;>
          simp [hcmd, hroom, ofRegs, offW, offA, offC, offM, offCmd]
      · simp [hcmd, hroom, ofRegs, offW, offA, offC, offM, offCmd]
    · simp only [hcmd, if_true, if_false, Bool.true_and, Bool.false_and, Bool.false_eq_true,
        beq_false_of_ne (a := i.off) hcmd, Option.toList_none, List.append_nil]
      repeat' split
      all_goals rfl

/-- **A cycle of the register block** is a store, then a pop, then a
completion, each only if it happens in that cycle. -/
theorem ofRegs_step (hr : i.rst = false) (h : s.Valid) :
    ofRegs (Regs.step base i s) =
      (fun d => if i.done then d.retire else d)
        ((fun d => if s.pop i then d.pop else d) ((ofRegs s).afterStore base i)) := by
  -- field by field: the store comes first, then the pop and the completion
  have hqueue : (Regs.step base i s).queue =
      if s.pop i then (s.queue ++ (s.enqEvent base i).toList).tail
      else s.queue ++ (s.enqEvent base i).toList := by
    rw [(Regs.queue_step hr h).2]
    cases hpop : s.pop i <;> simp [Regs.startEvent, Regs.step, hr, hpop]
  rw [← afterStore_waiting base i h] at hqueue
  have hheld : (Regs.step base i s).held = ((ofRegs s).afterStore base i).held := by
    rw [afterStore_held]
    simp [Regs.step, hr, ofRegs]
  have hen : (Regs.step base i s).irqEn = ((ofRegs s).afterStore base i).irqEn := by
    rw [afterStore_irqEn]
    simp [Regs.step, hr, ofRegs]
  have hpending : (Regs.step base i s).irqPending =
      if i.done then true else ((ofRegs s).afterStore base i).irqPending := by
    rw [afterStore_irqPending]
    simp [Regs.step, hr, ofRegs, Regs.irqPendingNext]
  have hcount : (Regs.step base i s).doneCount =
      if i.done then ((ofRegs s).afterStore base i).doneCount + 1
      else ((ofRegs s).afterStore base i).doneCount := by
    rw [afterStore_doneCount]
    simp [Regs.step, hr, ofRegs]
  unfold ofRegs at *
  rw [hqueue, hheld, hen, hpending, hcount]
  cases i.done <;> cases s.pop i <;> rfl

/-- The done count that software extracts from a load of `STATUS`. -/
theorem doneField_ofRegs (i : RegsIn) (s : Regs A) :
    ((((s.status i).setWidth 64) >>> 16) &&& 0xFFFF).setWidth 32 = (ofRegs s).doneField := by
  unfold doneField ofRegs
  rw [← (Regs.status_fields i s).2.2]
  apply BitVec.eq_of_getLsbD_eq
  intro k hk
  have hmask : (0xFFFF : BitVec 64).getLsbD k = decide (k < 16) := by
    have hbits : ∀ j < 32, (0xFFFF : BitVec 64).getLsbD j = decide (j < 16) := by decide
    exact hbits k hk
  rw [BitVec.getLsbD_setWidth, BitVec.getLsbD_and, hmask, BitVec.getLsbD_setWidth,
    BitVec.getLsbD_extractLsb']
  by_cases hlow : k < 16
  · simp [hk, hlow, show 16 + k < 64 by omega]
  · simp [hlow]

end refinement

end Port

end CoprocDriver
