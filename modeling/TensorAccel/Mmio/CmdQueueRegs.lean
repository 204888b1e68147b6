import TensorAccel.Framework.Ring
import TensorAccel.Stream.StreamCtrl

/-! # The command queue

    Translation of `rtl/mmio/cmd_queue_regs.sv`: a register block on a plain
    load / store port, with a queue of four commands in front of a datapath.

    The datapath is any circuit whose `busy` rises only in the cycle after a
    start pulse.  The queue is a `Ring` of four slots; in every cycle it gives
    up exactly the command that the next cycle presents with `start`. -/

open Clocked Ring StreamCtrl

namespace CmdQueueRegs

variable {A : ℕ}

/-! ## Model -/

/-- Input ports: the dmem port of the core, and the datapath's status. -/
structure RegsIn where
  rst : Bool
  dmemAddr : BitVec 64
  dmemWdata : BitVec 64
  dmemWen : Bool
  dmemFunct3 : BitVec 3
  busy : Bool
  done : Bool

/-- Registers of `cmd_queue_regs`. -/
structure Regs (A : ℕ) where
  fifoMem : BitVec 2 → Cmd A
  fifoWp : BitVec 2
  fifoRp : BitVec 2
  fifoCnt : BitVec 3
  start : Bool
  /-- The outputs `w_base`, `a_base`, `c_base` and `m_rows`. -/
  cmd : Cmd A
  /-- The holding registers `r_w_base`, `r_a_base`, `r_c_base` and `r_m_rows`. -/
  held : Cmd A
  irqEn : Bool
  irqPending : Bool
  doneCount : BitVec 16

def f3W : BitVec 3 := 0b010
def f3D : BitVec 3 := 0b011

def offW : BitVec 6 := 0x00
def offA : BitVec 6 := 0x08
def offC : BitVec 6 := 0x10
def offM : BitVec 6 := 0x18
def offCmd : BitVec 6 := 0x20
def offStatus : BitVec 6 := 0x28
def offIrq : BitVec 6 := 0x30
def offId : BitVec 6 := 0x38

namespace RegsIn

def accessOk (i : RegsIn) : Bool := i.dmemFunct3 == f3D || i.dmemFunct3 == f3W

/-- The block is 64 bytes long; its end wraps with the address space. -/
def inRange (base : BitVec 64) (i : RegsIn) : Bool :=
  base ≤ i.dmemAddr && i.dmemAddr < base + 0x40

def off (i : RegsIn) : BitVec 6 := i.dmemAddr.setWidth 6

def regHit (base : BitVec 64) (i : RegsIn) : Bool := i.inRange base && i.accessOk

def wrHit (base : BitVec 64) (i : RegsIn) : Bool := i.regHit base && i.dmemWen

end RegsIn

namespace Regs

def fifoEmpty (s : Regs A) : Bool := s.fifoCnt == 0

def fifoFull (s : Regs A) : Bool := s.fifoCnt == 4

def enqueue (base : BitVec 64) (i : RegsIn) (s : Regs A) : Bool :=
  i.wrHit base && i.off == offCmd && i.dmemWdata.getLsbD 0 && !s.fifoFull

def pop (i : RegsIn) (s : Regs A) : Bool := !i.busy && !s.fifoEmpty && !s.start

/-- The holding registers after a store. -/
def heldNext (base : BitVec 64) (i : RegsIn) (held : Cmd A) : Cmd A :=
  if i.wrHit base then
    if i.off = offW then { held with wBase := i.dmemWdata.setWidth A }
    else if i.off = offA then { held with aBase := i.dmemWdata.setWidth A }
    else if i.off = offC then { held with cBase := i.dmemWdata.setWidth A }
    else if i.off = offM then { held with mRows := i.dmemWdata.setWidth 32 }
    else held
  else held

/-- `IRQ_PENDING`: a completion wins over a clearing store of the same cycle. -/
def irqPendingNext (base : BitVec 64) (i : RegsIn) (pending : Bool) : Bool :=
  if i.done then true
  else if i.wrHit base && i.off == offIrq && i.dmemWdata.getLsbD 1 then false
  else pending

/-- One clock edge of `cmd_queue_regs`. -/
def step (base : BitVec 64) (i : RegsIn) (s : Regs A) : Regs A :=
  if i.rst then
    { s with fifoWp := 0, fifoRp := 0, fifoCnt := 0, start := false, cmd := ⟨0, 0, 0, 0⟩,
             held := ⟨0, 0, 0, 0⟩, irqEn := false, irqPending := false, doneCount := 0 }
  else
    let enq := s.enqueue base i
    -- both decisions look at the count before the edge
    let pop := s.pop i
    { fifoMem := if enq then Function.update s.fifoMem s.fifoWp s.held else s.fifoMem
      fifoWp := if enq then s.fifoWp + 1 else s.fifoWp
      fifoRp := if pop then s.fifoRp + 1 else s.fifoRp
      fifoCnt :=
        match enq, pop with
        | true, false => s.fifoCnt + 1
        | false, true => s.fifoCnt - 1
        | _, _ => s.fifoCnt
      -- a registered copy of `pop`, which it blocks in the next cycle
      start := pop
      cmd := if pop then s.fifoMem s.fifoRp else s.cmd
      held := heldNext base i s.held
      irqEn := if i.wrHit base && i.off == offIrq then i.dmemWdata.getLsbD 0 else s.irqEn
      irqPending := irqPendingNext base i s.irqPending
      doneCount := if i.done then s.doneCount + 1 else s.doneCount }

def irq (s : Regs A) : Bool := s.irqPending && s.irqEn

/-- `STATUS` bit 0: `start` and `done` cover the cycles in which `busy` and
`done_count` lag behind. -/
def statusBusy (i : RegsIn) (s : Regs A) : Bool := i.busy || s.start || i.done

def status (i : RegsIn) (s : Regs A) : BitVec 32 :=
  s.doneCount ++ (0 : BitVec 8) ++ ((0 : BitVec 1) ++ s.fifoCnt) ++ (0 : BitVec 1) ++
    BitVec.ofBool s.fifoEmpty ++ BitVec.ofBool s.fifoFull ++ BitVec.ofBool (s.statusBusy i)

def idVal (N : ℕ) : BitVec 32 := 0x7E4A5A00 ||| BitVec.ofNat 32 N

/-- `dmem_rdata`. -/
def dmemRdata (N : ℕ) (base : BitVec 64) (i : RegsIn) (s : Regs A) : BitVec 64 :=
  if i.regHit base && !i.dmemWen then
    if i.off = offW then s.held.wBase.setWidth 64
    else if i.off = offA then s.held.aBase.setWidth 64
    else if i.off = offC then s.held.cBase.setWidth 64
    else if i.off = offM then s.held.mRows.setWidth 64
    else if i.off = offStatus then (s.status i).setWidth 64
    else if i.off = offIrq then
      (0 : BitVec 62) ++ BitVec.ofBool s.irqPending ++ BitVec.ofBool s.irqEn
    else if i.off = offId then (idVal N).setWidth 64
    else 0
  else 0

/-- The fields of `STATUS` that a poller tests. -/
theorem status_fields (i : RegsIn) (s : Regs A) :
    (s.status i)[0] = s.statusBusy i ∧ (s.status i)[2] = s.fifoEmpty ∧
      (s.status i).extractLsb' 16 16 = s.doneCount := by
  refine ⟨?_, ?_, ?_⟩
  · rw [← BitVec.getLsbD_eq_getElem, status]
    simp only [BitVec.getLsbD_append]
    simp
  · rw [← BitVec.getLsbD_eq_getElem, status]
    simp only [BitVec.getLsbD_append]
    simp
  · apply BitVec.eq_of_getLsbD_eq
    intro k hk
    rw [BitVec.getLsbD_extractLsb', status]
    simp only [BitVec.getLsbD_append, hk]
    -- 16 bits lie below the count: 3 flags, a zero, the 4-bit level and a zero byte
    simp [show ¬ (16 + k < 1) by omega, show ¬ (12 + k < 4) by omega,
      show ¬ (12 + k - 4 < 8) by omega, show 12 + k - 4 - 8 = k by omega]

/-! ## The queue -/

/-- The slots of the queue, numbered by naturals. -/
def slots (s : Regs A) (k : ℕ) : Cmd A := s.fifoMem (BitVec.ofNat 2 k)

/-- The commands that wait, oldest first. -/
def queue (s : Regs A) : List (Cmd A) := contents 4 s.slots s.fifoRp.toNat s.fifoCnt.toNat

/-- The holding registers at an accepted `CMD` write. -/
def enqEvent (base : BitVec 64) (i : RegsIn) (s : Regs A) : Option (Cmd A) :=
  if s.enqueue base i then some s.held else none

/-- The command presented with a start pulse. -/
def startEvent (s : Regs A) : Option (Cmd A) := if s.start then some s.cmd else none

/-- The pointers and the count describe a queue. -/
def Valid (s : Regs A) : Prop :=
  Holds 4 s.slots s.fifoWp.toNat s.fifoRp.toNat s.fifoCnt.toNat s.queue

section queue
variable {base : BitVec 64} {i : RegsIn} {s : Regs A}

theorem Valid.length (h : Valid s) : s.queue.length = s.fifoCnt.toNat := Holds.length h

theorem Valid.wp (h : Valid s) : s.fifoWp = s.fifoRp + s.fifoCnt.setWidth 2 := by
  apply BitVec.eq_of_toNat_eq
  rw [h.wp_eq, BitVec.toNat_add, BitVec.toNat_setWidth, Nat.add_mod_mod]

theorem fifoEmpty_iff : s.fifoEmpty = true ↔ s.queue = [] := by
  have hlen : s.queue.length = s.fifoCnt.toNat := contents_length _ _ _ _
  rw [← List.length_eq_zero_iff, hlen, fifoEmpty, beq_iff_eq, ← BitVec.toNat_inj]
  rfl

/-- An accepted write found a free slot. -/
theorem enqueue_room (h : Valid s) (henq : s.enqueue base i = true) : s.fifoCnt.toNat < 4 := by
  have hne : s.fifoCnt ≠ 4 := by
    simp only [enqueue, fifoFull, Bool.and_eq_true, Bool.not_eq_true', beq_eq_false_iff_ne] at henq
    exact henq.2
  have hne' : s.fifoCnt.toNat ≠ 4 := fun heq => hne (BitVec.eq_of_toNat_eq heq)
  have hle := h.cap
  omega

theorem pop_nonempty (hpop : s.pop i = true) : 0 < s.fifoCnt.toNat := by
  have hne : s.fifoCnt ≠ 0 := by
    simp only [pop, fifoEmpty, Bool.and_eq_true, Bool.not_eq_true', beq_eq_false_iff_ne] at hpop
    exact hpop.1.2
  exact Nat.pos_of_ne_zero fun heq => hne (BitVec.eq_of_toNat_eq heq)

/-- After a reset the queue is empty. -/
theorem valid_reset (base : BitVec 64) (s : Regs A) (hr : i.rst = true) :
    Valid (step base i s) ∧ (step base i s).queue = [] ∧ (step base i s).start = false := by
  have hqueue : (step base i s).queue = [] := by simp [queue, step, hr]
  refine ⟨?_, hqueue, by simp [step, hr]⟩
  rw [Valid, hqueue]
  have hempty : Holds 4 (step base i s).slots 0 0 0 [] := Holds.empty (by decide)
  simpa [step, hr] using hempty

/-- The pop of a cycle, on the ring. -/
theorem pop_holds (i : RegsIn) (h : Valid s) :
    ∃ q, Holds 4 s.slots s.fifoWp.toNat (if s.pop i then s.fifoRp + 1 else s.fifoRp).toNat
        (s.fifoCnt.toNat - (s.pop i).toNat) q ∧
      s.queue = (if s.pop i then [s.fifoMem s.fifoRp] else []) ++ q := by
  cases hpop : s.pop i with
  | false => exact ⟨s.queue, h, rfl⟩
  | true =>
    have hcnt : s.fifoCnt.toNat = s.fifoCnt.toNat - 1 + 1 := by
      have := pop_nonempty hpop
      omega
    -- the command in the slot of the read pointer is the oldest one
    obtain ⟨c, q, hq⟩ := h.exists_head (pop_nonempty hpop)
    have hholds := h
    rw [Valid, hq] at hholds
    refine ⟨q, ?_, ?_⟩
    · rw [hcnt] at hholds
      simpa using hholds.pop
    · have hhead := hholds.head
      simp only [slots, BitVec.ofNat_toNat, BitVec.setWidth_eq] at hhead
      rw [hq, if_pos rfl, hhead]
      rfl

/-- A write to the slot of the write pointer, on the ring. -/
theorem push_holds {rp cnt : ℕ} {q : List (Cmd A)} (c : Cmd A)
    (h : Holds 4 s.slots s.fifoWp.toNat rp cnt q) (hroom : cnt < 4) :
    Holds 4 (fun k => Function.update s.fifoMem s.fifoWp c (BitVec.ofNat 2 k))
      (s.fifoWp + 1).toNat rp (cnt + 1) (q ++ [c]) := by
  have hpush := h.push hroom c
  refine ⟨hpush.rp_lt, hpush.cap, ?_, ?_⟩
  · simpa using hpush.wp_eq
  · rw [← hpush.words]
    -- on slot numbers below 4 the two numberings of the slots agree
    refine List.map_congr_left fun k _ => ?_
    have hlt : (rp + k) % 4 < 4 := Nat.mod_lt _ (by decide)
    by_cases hslot : (rp + k) % 4 = s.fifoWp.toNat
    · simp [hslot]
    · have hne : BitVec.ofNat 2 ((rp + k) % 4) ≠ s.fifoWp := by
        intro heq
        apply hslot
        rw [← heq, BitVec.toNat_ofNat, Nat.mod_eq_of_lt hlt]
      simp only [Function.update_of_ne hslot, Function.update_of_ne hne, slots]

/-- The count after a cycle. -/
theorem fifoCnt_step (base : BitVec 64) (hr : i.rst = false) (h : Valid s) :
    (step base i s).fifoCnt.toNat =
      s.fifoCnt.toNat - (s.pop i).toNat + (s.enqueue base i).toNat := by
  cases henq : s.enqueue base i with
  | false =>
    cases hpop : s.pop i with
    | false => simp [step, hr, henq, hpop]
    | true =>
      have := pop_nonempty hpop
      simp [step, hr, henq, hpop, BitVec.toNat_sub]
      omega
  | true =>
    have hroom := enqueue_room h henq
    cases hpop : s.pop i with
    | false =>
      simp [step, hr, henq, hpop]
      omega
    | true =>
      have := pop_nonempty hpop
      simp [step, hr, henq, hpop]
      omega

/-- In one cycle the queue takes in an accepted command at its end and gives up
the command that the next cycle starts. -/
theorem queue_step (hr : i.rst = false) (h : Valid s) :
    Valid (step base i s) ∧
      s.queue ++ (enqEvent base i s).toList =
        (startEvent (step base i s)).toList ++ (step base i s).queue := by
  obtain ⟨q, hholds, hq⟩ := pop_holds i h
  have hcnt := fifoCnt_step base hr h
  have hstart : (startEvent (step base i s)).toList =
      if s.pop i then [s.fifoMem s.fifoRp] else [] := by
    cases hpop : s.pop i <;> simp [startEvent, step, hr, hpop]
  have hnext : Holds 4 (step base i s).slots (step base i s).fifoWp.toNat
      (step base i s).fifoRp.toNat (step base i s).fifoCnt.toNat
      (q ++ (enqEvent base i s).toList) := by
    rw [hcnt]
    cases henq : s.enqueue base i with
    | false =>
      have hslots : (step base i s).slots = s.slots := by
        funext k
        simp [slots, step, hr, henq]
      rw [hslots]
      simpa [step, hr, henq, enqEvent] using hholds
    | true =>
      -- the write pointer is behind the last command held
      have hslots : (step base i s).slots =
          fun k => Function.update s.fifoMem s.fifoWp s.held (BitVec.ofNat 2 k) := by
        funext k
        simp [slots, step, hr, henq]
      have hroom := enqueue_room h henq
      have hpush := push_holds s.held hholds (by omega)
      rw [hslots]
      simpa [step, hr, henq, enqEvent] using hpush
  have hqueue : (step base i s).queue = q ++ (enqEvent base i s).toList := hnext.words
  constructor
  · rw [Valid, hqueue]
    exact hnext
  · rw [hqueue, hstart, hq, List.append_assoc]

/-- A `CMD` write while the queue is full is the same as no store. -/
theorem full_write_ignored (hfull : s.fifoFull = true) (hoff : i.off = offCmd) :
    step base i s = step base { i with dmemWen := false } s := by
  have henq : ∀ j : RegsIn, s.enqueue base j = false := by
    intro j
    simp [enqueue, hfull]
  have hheld : heldNext base i s.held = s.held := by
    simp [heldNext, hoff, offCmd, offW, offA, offC, offM]
  have hirq : (i.off == offIrq) = false := by rw [hoff]; rfl
  simp only [step, henq, hheld, hirq]
  simp [heldNext, irqPendingNext, RegsIn.wrHit, pop, hirq]

/-- `start` comes one cycle after a cycle in which the datapath was free. -/
theorem start_of_pop (hr : i.rst = false) (h : (step base i s).start = true) :
    i.busy = false ∧ s.start = false := by
  have hpop : s.pop i = true := by simpa [step, hr] using h
  simp only [pop, Bool.and_eq_true, Bool.not_eq_true'] at hpop
  exact ⟨hpop.1.1, hpop.2⟩

end queue

/-! ## Runs -/

section runs
variable {base : BitVec 64} {p : Regs A} {i : ℕ → RegsIn} {r t : ℕ}

theorem valid_run (base : BitVec 64) (hr : (i r).rst = true) (ht : r < t)
    (hquiet : Quiet (fun u => (i u).rst) (r + 1) t) : Valid (run (step base) p i t) := by
  induction t, ht using Nat.le_induction with
  | base => exact (valid_reset base _ hr).1
  | succ t ht ih =>
    exact (queue_step (hquiet.at ht (Nat.lt_succ_self t))
      (ih (hquiet.mono le_rfl (Nat.le_succ t)))).1

/-- Accepted commands are started in order, and those not started yet wait. -/
theorem enq_eq_start_queue (base : BitVec 64) (hr : (i r).rst = true) (ht : r < t)
    (hquiet : Quiet (fun u => (i u).rst) (r + 1) t) :
    eventsIn (fun u => enqEvent base (i u) (run (step base) p i u)) (r + 1) t =
      eventsIn (fun u => startEvent (run (step base) p i u)) (r + 1) (t + 1) ++
        (run (step base) p i t).queue := by
  have hreset := valid_reset base (run (step base) p i r) hr
  refine eventsIn_balance (fun u => (run (step base) p i u).queue) ht ?_ hreset.2.1 ?_
  · have hstart : (run (step base) p i (r + 1)).start = false := hreset.2.2
    simp [startEvent, hstart]
  · intro u hu hut
    exact (queue_step (hquiet.at hu hut)
      (valid_run base hr hu (hquiet.mono le_rfl (by omega)))).2

/-- `done_count` counts the done pulses, one cycle late. -/
theorem doneCount_run (base : BitVec 64) (hr : (i r).rst = true) (ht : r < t)
    (hquiet : Quiet (fun u => (i u).rst) (r + 1) t) : (run (step base) p i t).doneCount =
      BitVec.ofNat 16 (countIn (fun u => (i u).done) (r + 1) t) := by
  induction t, ht using Nat.le_induction with
  | base => simp [run_succ, step, hr]
  | succ t ht ih =>
    have hrst : (i t).rst = false := hquiet.at ht (Nat.lt_succ_self t)
    have hstep : (run (step base) p i (t + 1)).doneCount =
        if (i t).done then (run (step base) p i t).doneCount + 1
        else (run (step base) p i t).doneCount := by
      simp [run_succ, step, hrst]
    rw [hstep, ih (hquiet.mono le_rfl (Nat.le_succ t)), countIn_succ _ ht]
    cases (i t).done <;> simp [BitVec.ofNat_add]

/-- No start pulse falls in a busy cycle of a datapath that is idle unless started. -/
theorem start_free (base : BitVec 64) (hr : (i r).rst = true) (hrun : ∀ t, r < t → (i t).rst = false)
    (hrise : ∀ t, r < t → (i (t + 1)).busy = true →
      (i t).busy = true ∨ (run (step base) p i t).start = true) (ht : r < t)
    (hstart : (run (step base) p i t).start = true) : (i t).busy = false := by
  obtain ⟨u, rfl⟩ : ∃ u, t = u + 1 := ⟨t - 1, by omega⟩
  rcases Nat.lt_succ_iff_lt_or_eq.mp ht with hlt | rfl
  · -- the pop was decided one cycle earlier, when the datapath was free
    have hfree := start_of_pop (hrun u hlt) hstart
    by_contra hbusy
    rcases hrise u hlt (Bool.eq_true_of_not_eq_false hbusy) with hbusy' | hstart'
    · exact absurd (hbusy'.symm.trans hfree.1) (by simp)
    · exact absurd (hstart'.symm.trans hfree.2) (by simp)
  · have hidle := (valid_reset base (run (step base) p i r) hr).2.2
    exact absurd (hstart.symm.trans hidle) (by simp)

/-- **The queue hands on every accepted command once and in order.**  The
datapath is arbitrary but for `hrise`: its `busy` rises only in the cycle after
a start pulse. -/
theorem queue_in_order (base : BitVec 64) (p : Regs A) (i : ℕ → RegsIn) {r : ℕ}
    (hr : (i r).rst = true) (hrun : ∀ t, r < t → (i t).rst = false)
    (hrise : ∀ t, r < t → (i (t + 1)).busy = true →
      (i t).busy = true ∨ (run (step base) p i t).start = true) (t : ℕ) (ht : r < t) :
    (eventsIn (fun u => enqEvent base (i u) (run (step base) p i u)) (r + 1) t =
      eventsIn (fun u => startEvent (run (step base) p i u)) (r + 1) (t + 1) ++
        (run (step base) p i t).queue ∧
      (run (step base) p i t).queue.length = (run (step base) p i t).fifoCnt.toNat) ∧
    ((run (step base) p i t).fifoFull = true → ∀ j : RegsIn, j.off = offCmd →
      step base j (run (step base) p i t) =
        step base { j with dmemWen := false } (run (step base) p i t)) ∧
    ((run (step base) p i t).start = true →
      (i t).busy = false ∧ (run (step base) p i (t + 1)).start = false) ∧
    (run (step base) p i t).fifoCnt.toNat ≤ 4 ∧
    (run (step base) p i t).fifoWp =
      (run (step base) p i t).fifoRp + (run (step base) p i t).fifoCnt.setWidth 2 := by
  have hquiet : Quiet (fun u => (i u).rst) (r + 1) t := fun u _ hu => hrun u hu
  have hvalid := valid_run (p := p) base hr ht hquiet
  refine ⟨⟨enq_eq_start_queue base hr ht hquiet, hvalid.length⟩,
    fun hfull j hoff => full_write_ignored hfull hoff, fun hstart => ⟨?_, ?_⟩, hvalid.cap, hvalid.wp⟩
  · exact start_free base hr hrun hrise ht hstart
  · by_contra hagain
    have hfree := start_of_pop (hrun t ht) (Bool.eq_true_of_not_eq_false hagain)
    rw [hstart] at hfree
    exact absurd hfree.2 (by simp)

/-- All registers zero. -/
def demoRegs : Regs 16 where
  fifoMem := fun _ => ⟨0, 0, 0, 0⟩
  fifoWp := 0
  fifoRp := 0
  fifoCnt := 0
  start := false
  cmd := ⟨0, 0, 0, 0⟩
  held := ⟨0, 0, 0, 0⟩
  irqEn := false
  irqPending := false
  doneCount := 0

/-- A reset, a store of 3 to `M_ROWS`, a `CMD` write, and a datapath that is
busy in the two cycles after the start pulse. -/
def demoStores (t : ℕ) : RegsIn where
  rst := t == 0
  dmemAddr := if t = 1 then 0x10000018 else 0x10000020
  dmemWdata := if t = 1 then 3 else 1
  dmemWen := t == 1 || t == 2
  dmemFunct3 := f3D
  busy := t == 5 || t == 6
  done := false

/-- The command written in cycle 2 starts in cycle 4. -/
theorem queue_in_order_demo :
    eventsIn (fun u => startEvent (run (step 0x10000000) demoRegs demoStores u)) 1 5 =
      [⟨0, 0, 0, 3⟩] := by
  have hrun : ∀ t, 0 < t → (demoStores t).rst = false := by
    intro t ht
    simp [demoStores]
    omega
  have hrise : ∀ t, 0 < t → (demoStores (t + 1)).busy = true → (demoStores t).busy = true ∨
      (run (step 0x10000000) demoRegs demoStores t).start = true := by
    intro t _ hbusy
    have ht : t = 4 ∨ t = 5 := by simpa [demoStores] using hbusy
    rcases ht with rfl | rfl
    · exact .inr (by decide)
    · exact .inl rfl
  have hmain := (queue_in_order 0x10000000 demoRegs demoStores rfl hrun hrise 4 (by decide)).1.1
  have hqueue : (run (step 0x10000000) demoRegs demoStores 4).queue = [] := by decide
  rw [hqueue, List.append_nil] at hmain
  rw [← hmain]
  decide

end runs

end Regs

end CmdQueueRegs
