import TensorAccel.Driver.CoprocDriver
import TensorAccel.Driver.WaitRetired

/-! # Interrupts and completions

    The driver takes one interrupt for every result it collects.  An interrupt
    it has taken and not used up yet, or that still pends, is its credit; it
    never collects more results than there are completions (`Counting`).
    Completions that fall on a pending interrupt earn no credit, so the driver
    can run out of interrupts; if none does, credit and completions balance
    (`Balanced`). -/

open StreamCtrl CmdQueueRegs ActionSystem

namespace CoprocDriver

variable {L : Type _} {A : ℕ} {p : Problem} {b : Layout L} {s s' : Sys L A}

/-! ## Invariants -/

/-- Interrupts that the driver may still use for the results of this chunk. -/
def Sys.credit (s : Sys L A) : ℕ :=
  match s.pc with
  | .clear => 0
  | .status => 1 + s.port.irqPending.toNat
  | .copy => 1 + s.port.irqPending.toNat
  | _ => s.port.irqPending.toNat

/-- Inside the `while` loop of a chunk. -/
def Pc.inLoop : Pc → Bool
  | .clear | .chunk | .ret => false
  | _ => true

/-- What the loop conditions leave true at a control point. -/
def Sys.Paced (p : Problem) (s : Sys L A) : Prop :=
  match s.pc with
  | .clear => s.issued = s.collected
  | .chunk => s.issued = s.collected
  | .ret => s.issued = s.collected
  | .loop => s.issued ≤ p.total ∧ s.issued ≤ s.collected + 4
  | .packW => s.issued < p.total ∧ s.issued < s.collected + 4
  | .packA => s.issued < p.total ∧ s.issued < s.collected + 4
  | .hold _ => s.issued < p.total ∧ s.issued < s.collected + 4
  | .cmd => s.issued < p.total ∧ s.issued < s.collected + 4
  | .rw1c => s.collected < s.issued ∧ s.issued ≤ p.total ∧ s.issued ≤ s.collected + 4 ∧
      s.port.irqPending = true
  | _ => s.collected < s.issued ∧ s.issued ≤ p.total ∧ s.issued ≤ s.collected + 4

/-- Every command issued is outstanding or done, and every result collected,
and every credit, has a completion of its own. -/
structure Counting (p : Problem) (s : Sys L A) : Prop where
  issued : s.outstanding.length + s.done = s.issued
  collected : s.collected + s.credit ≤ s.done
  paced : s.Paced p
  base : s.pc.inLoop = true →
    s.base = (s.port.doneCount - BitVec.ofNat 16 s.done).setWidth 32

theorem counting_init (h : Init s) : Counting p s := by
  constructor
  · simp [Sys.outstanding, h.waiting, h.running, h.done, h.issued]
  · simp [Sys.credit, h.pc, h.collected, h.done]
  · simp [Sys.Paced, h.pc, h.issued, h.collected]
  · simp [h.pc, Pc.inLoop]

/-- While a tile is being issued its slot is free. -/
theorem Counting.issue_window (h : Counting p s)
    (hpc : s.pc = .packW ∨ s.pc = .packA ∨ (∃ r, s.pc = .hold r) ∨ s.pc = .cmd) :
    s.issued < p.total ∧ s.issued < s.collected + 4 := by
  have hpaced := h.paced
  unfold Sys.Paced at hpaced
  rcases hpc with hpc | hpc | ⟨r, hpc⟩ | hpc <;> simpa only [hpc] using hpaced

/-- While the driver waits a result is still to come. -/
theorem Counting.wait_window (h : Counting p s) (hpc : s.pc = .wait ∨ s.pc = .status) :
    s.collected < s.issued ∧ s.issued ≤ p.total ∧ s.issued ≤ s.collected + 4 := by
  have hpaced := h.paced
  unfold Sys.Paced at hpaced
  rcases hpc with hpc | hpc <;> simpa only [hpc] using hpaced

/-- The queue has room for a command that is being issued. -/
theorem Counting.room (h : Counting p s) (hpc : s.pc = .cmd) : s.port.waiting.length < 4 := by
  have hwindow := h.issue_window (.inr (.inr (.inr hpc)))
  have hissued := h.issued
  have hcollected := h.collected
  rw [Sys.outstanding, List.length_append] at hissued
  omega

/-- With nothing left to collect, nothing is outstanding. -/
theorem Counting.drained (h : Counting p s) (heq : s.issued = s.collected) :
    s.outstanding = [] ∧ s.done = s.issued := by
  have hissued := h.issued
  have hcollected := h.collected
  rw [← List.length_eq_zero_iff]
  omega

/-- Completions keep every control point's facts. -/
theorem Paced.complete {r : Option (Cmd A × ℕ)} {d : ℕ} (h : s.Paced p) :
    Sys.Paced p { s with running := r, port := s.port.retire, done := d } := by
  unfold Sys.Paced at *
  cases hpc : s.pc <;> simp_all [Port.retire]

section steps
variable [DecidableEq L]

theorem Counting.driver_step (h : Counting p s) (hmove : Move p b s .driver s') :
    Counting p s' := by
  have hroom := h.room
  obtain ⟨hissued, hcollected, hpaced, hbase⟩ := h
  cases hmove with
  | clear hpc =>
    simp only [Sys.credit, Sys.Paced, hpc, Port.regWrite_irq, Sys.outstanding] at *
    exact ⟨hissued, hcollected, hpaced, by simp [Pc.inLoop]⟩
  | chunk hpc hm =>
    simp only [Sys.credit, Sys.Paced, hpc, Sys.outstanding] at *
    -- no completion is left over from the previous chunk, so no interrupt is
    refine ⟨?_, ?_, ?_, ?_⟩
    · dsimp only [Sys.outstanding]; omega
    · dsimp only [Sys.credit]; omega
    · dsimp only [Sys.Paced]; omega
    · intro _
      simp [Port.doneField]
  | finish hpc hm =>
    simp only [Sys.credit, Sys.Paced, hpc, Sys.outstanding] at *
    exact ⟨hissued, hcollected, hpaced, by simp [Pc.inLoop]⟩
  | issue hpc hc hi =>
    simp only [Sys.credit, Sys.Paced, hpc, Sys.outstanding] at *
    refine ⟨hissued, hcollected, ?_, fun _ => hbase rfl⟩
    dsimp only [Sys.Paced]
    omega
  | await hpc hc hi =>
    simp only [Sys.credit, Sys.Paced, hpc, Sys.outstanding] at *
    refine ⟨hissued, hcollected, ?_, fun _ => hbase rfl⟩
    dsimp only [Sys.Paced]
    omega
  | nextChunk hpc hc =>
    simp only [Sys.credit, Sys.Paced, hpc, Sys.outstanding] at *
    refine ⟨hissued, hcollected, ?_, by simp [Pc.inLoop]⟩
    dsimp only [Sys.Paced]
    omega
  | packW hpc =>
    simp only [Sys.credit, Sys.Paced, hpc, Sys.outstanding] at *
    exact ⟨hissued, hcollected, hpaced, fun _ => hbase rfl⟩
  | packA hpc =>
    simp only [Sys.credit, Sys.Paced, hpc, Sys.outstanding] at *
    exact ⟨hissued, hcollected, hpaced, fun _ => hbase rfl⟩
  | hold r hpc =>
    simp only [Sys.credit, Sys.Paced, hpc, Sys.outstanding, regWrite_off] at *
    cases r <;> exact ⟨hissued, hcollected, hpaced, fun _ => hbase rfl⟩
  | cmd hpc =>
    -- the queue is never full here, so the store does append the command
    rw [Port.regWrite_cmd _ (hroom hpc)]
    simp only [Sys.credit, Sys.Paced, hpc, Sys.outstanding, List.length_append] at *
    refine ⟨?_, hcollected, ?_, fun _ => hbase rfl⟩
    · simp only [Sys.outstanding, List.length_append, List.length_singleton]
      omega
    · dsimp only [Sys.Paced]
      omega
  | wake hpc hirq =>
    have hpending : s.port.irqPending = true := by
      simp only [Port.irq, Bool.and_eq_true] at hirq
      exact hirq.1
    simp only [Sys.credit, Sys.Paced, hpc, Sys.outstanding] at *
    exact ⟨hissued, hcollected, ⟨hpaced.1, hpaced.2.1, hpaced.2.2, hpending⟩, fun _ => hbase rfl⟩
  | rw1c hpc =>
    simp only [Sys.credit, Sys.Paced, hpc, Sys.outstanding, Port.regWrite_irq] at *
    -- the pending interrupt becomes the one that has been taken
    rw [hpaced.2.2.2] at hcollected
    exact ⟨hissued, hcollected, ⟨hpaced.1, hpaced.2.1, hpaced.2.2.1⟩, fun _ => hbase rfl⟩
  | retry hpc hnot =>
    simp only [Sys.credit, Sys.Paced, hpc, Sys.outstanding] at *
    refine ⟨hissued, ?_, hpaced, fun _ => hbase rfl⟩
    dsimp only [Sys.credit]
    omega
  | retired hpc hnot =>
    simp only [Sys.credit, Sys.Paced, hpc, Sys.outstanding] at *
    exact ⟨hissued, hcollected, hpaced, fun _ => hbase rfl⟩
  | copy hpc =>
    simp only [Sys.credit, Sys.Paced, hpc, Sys.outstanding] at *
    refine ⟨hissued, ?_, ?_, fun _ => hbase rfl⟩
    · dsimp only [Sys.credit]
      omega
    · dsimp only [Sys.Paced]
      omega

theorem Counting.device_step {a : Act} (h : Counting p s) (hmove : Move p b s a s')
    (ha : a ≠ .driver) : Counting p s' := by
  obtain ⟨hissued, hcollected, hpaced, hbase⟩ := h
  cases hmove with
  | start c q hrun hwait =>
    refine ⟨?_, hcollected, hpaced, hbase⟩
    simp only [Sys.outstanding, hrun, hwait, Port.pop] at *
    simpa using hissued
  | store c k hrun hk =>
    refine ⟨?_, hcollected, hpaced, hbase⟩
    simpa only [Sys.outstanding, hrun, Option.map_some] using hissued
  | complete c hrun =>
    refine ⟨?_, ?_, Paced.complete hpaced, ?_⟩
    · simp only [Sys.outstanding, hrun] at *
      simp [Port.retire] at *
      omega
    · -- the completion pays for the credit it may earn
      have hcredit : Sys.credit { s with running := none, port := s.port.retire, done := s.done + 1 }
          ≤ s.credit + 1 := by
        unfold Sys.credit
        cases s.pc <;> simp [Port.retire]
      dsimp only
      omega
    · intro hloop
      rw [hbase hloop]
      have hshift : s.port.doneCount - BitVec.ofNat 16 s.done =
          s.port.doneCount + 1 - BitVec.ofNat 16 (s.done + 1) := by
        rw [BitVec.ofNat_add]
        bv_omega
      exact congrArg (BitVec.setWidth 32) hshift
  | _ => exact absurd rfl ha

theorem Counting.step {a : Act} (h : Counting p s) (hstep : s.step p b a = some s') :
    Counting p s' := by
  have hmove := move_of_step hstep
  by_cases ha : a = .driver
  · subst ha
    exact h.driver_step hmove
  · exact h.device_step hmove ha

end steps

/-! ## The retirement test -/

/-- The test compares a 16-bit count with `base`.  In a chunk of fewer than
`2 ^ 16` tiles it never misses a completion. -/
theorem Counting.test_passes (h : Counting p s) (hpc : s.pc = .status)
    (hsmall : p.total < 2 ^ 16) : s.notRetired = false := by
  have hwindow := h.wait_window (.inr hpc)
  have hwant : s.collected + 1 ≤ s.done := by
    have := h.collected
    simp only [Sys.credit, hpc] at this
    omega
  have hdone : s.done < 2 ^ 16 := by
    have := h.issued
    omega
  -- the read at the head of the chunk was made `done` completions ago
  have hbase := h.base (by rw [hpc]; rfl)
  have hwant32 : (BitVec.ofNat 32 (s.collected + 1)).toNat = s.collected + 1 := by
    rw [BitVec.toNat_ofNat]
    exact Nat.mod_eq_of_lt (by omega)
  have hsafe : WaitRetired.SafeRead s.base.toNat (BitVec.ofNat 32 (s.collected + 1)).toNat s.done :=
    WaitRetired.safeRead_of_retired (WaitRetired.doneCount_toNat hbase).1 hdone
      (hwant32.trans_le hwant)
  show s.port.fewerThan s.base (BitVec.ofNat 32 (s.collected + 1)) = false
  exact ((WaitRetired.fewerThan_iff hbase).mpr hsafe).mpr (hwant32.trans_le hwant)

/-- When a multiple of `2 ^ 16` commands have completed, the test sees none. -/
theorem Counting.test_wraps (h : Counting p s) (hpc : s.pc = .status)
    (hdone : s.done % 2 ^ 16 = 0) (hwant : (s.collected + 1) % 2 ^ 32 ≠ 0) :
    s.notRetired = true := by
  have hzero : BitVec.ofNat 16 s.done = 0#16 := by
    apply BitVec.eq_of_toNat_eq
    rw [BitVec.toNat_ofNat, hdone]
    rfl
  unfold Sys.notRetired Port.doneField
  rw [h.base (by rw [hpc]; rfl), hzero, BitVec.sub_zero, BitVec.sub_self, decide_eq_true_iff,
    BitVec.lt_def, BitVec.toNat_ofNat]
  exact Nat.pos_of_ne_zero hwant

/-! ## Deadlock -/

/-- The driver waits for an interrupt that does not pend, and every command it
has issued has completed. -/
def Sys.Deadlocked (s : Sys L A) : Prop :=
  s.pc = .wait ∧ s.port.irqPending = false ∧ s.outstanding = []

instance (s : Sys L A) : Decidable s.Deadlocked :=
  inferInstanceAs (Decidable (s.pc = .wait ∧ s.port.irqPending = false ∧ s.outstanding = []))

/-- Steps that lose no interrupt: a command completes only while no interrupt
pends, and a `STATUS` read that follows enough completions passes the test. -/
def Clean (a : Act) (s : Sys L A) : Bool :=
  match a with
  | .complete => !s.port.irqPending
  | .driver => !(s.pc == .status && decide (s.collected + 1 ≤ s.done) && s.notRetired)
  | _ => true

/-- Every completion is a result collected or an interrupt still to be used. -/
def Sys.Balanced (s : Sys L A) : Prop := s.collected + s.credit = s.done

section steps
variable [DecidableEq L]

theorem Balanced.step {a : Act} (hcount : Counting p s) (h : s.Balanced) (hok : Clean a s = true)
    (hstep : s.step p b a = some s') : s'.Balanced := by
  have hroom := hcount.room
  obtain ⟨hissued, hcollected, hpaced, -⟩ := hcount
  unfold Sys.Balanced at *
  cases move_of_step hstep with
  | clear hpc =>
    simp only [Sys.credit, hpc, Port.regWrite_irq] at *
    exact h
  | chunk hpc hm =>
    simp only [Sys.credit, Sys.Paced, hpc] at *
    omega
  | hold r hpc =>
    simp only [Sys.credit, hpc, regWrite_off] at *
    cases r <;> exact h
  | cmd hpc =>
    rw [Port.regWrite_cmd _ (hroom hpc)]
    simp only [Sys.credit, hpc] at *
    exact h
  | rw1c hpc =>
    simp only [Sys.credit, Sys.Paced, hpc, Port.regWrite_irq] at *
    rw [hpaced.2.2.2] at h
    exact h
  | retry hpc hnot =>
    -- the interrupt was taken for a completion, so the test may not fail
    simp only [Sys.credit, hpc, Clean, hnot] at *
    simp at hok
    omega
  | copy hpc =>
    simp only [Sys.credit, hpc] at *
    omega
  | start c q hrun hwait => exact h
  | store c k hrun hk => exact h
  | complete c hrun =>
    have hpending : s.port.irqPending = false := by simpa [Clean] using hok
    have hrunning : 0 < s.outstanding.length := by simp [Sys.outstanding, hrun]
    have hbusy : s.done < s.issued := by omega
    have hcredit : Sys.credit { s with running := none, port := s.port.retire, done := s.done + 1 } =
        s.credit + 1 := by
      unfold Sys.credit Sys.Paced at *
      cases hpc : s.pc <;> simp_all [Port.retire]
    dsimp only
    omega
  | finish hpc hm => simp only [Sys.credit, hpc] at *; exact h
  | issue hpc hc hi => simp only [Sys.credit, hpc] at *; exact h
  | await hpc hc hi => simp only [Sys.credit, hpc] at *; exact h
  | nextChunk hpc hc => simp only [Sys.credit, hpc] at *; exact h
  | packW hpc => simp only [Sys.credit, hpc] at *; exact h
  | packA hpc => simp only [Sys.credit, hpc] at *; exact h
  | wake hpc hirq => simp only [Sys.credit, hpc] at *; exact h
  | retired hpc hnot => simp only [Sys.credit, hpc] at *; exact h

end steps

theorem balanced_reach [DecidableEq L] (h : Reach (Sys.step p b) Clean Init s) :
    Counting p s ∧ s.Balanced := by
  apply h.invariant (I := fun s => Counting p s ∧ s.Balanced)
  · intro s hinit
    refine ⟨counting_init hinit, ?_⟩
    simp [Sys.Balanced, Sys.credit, hinit.pc, hinit.collected, hinit.done]
  · rintro a s s' ⟨hcount, hbal⟩ hok hstep
    exact ⟨hcount.step hstep, Balanced.step hcount hbal hok hstep⟩

/-- While the driver waits for an interrupt that does not pend, a command is on its way. -/
theorem Balanced.awaited (h : s.Balanced) (hcount : Counting p s) (hpc : s.pc = .wait)
    (hpending : s.port.irqPending = false) : s.outstanding ≠ [] := by
  intro hout
  have hwindow := hcount.wait_window (.inl hpc)
  have hissued := hcount.issued
  rw [hout, List.length_nil] at hissued
  -- all issued tiles are done, none but the collected ones by the balance
  simp only [Sys.Balanced, Sys.credit, hpc, hpending, Bool.toNat_false] at h
  omega

/-- **Deadlock freedom of clean runs.**  In a run that loses no interrupt the
driver never waits for one with all its commands completed. -/
theorem clean_run_no_deadlock [DecidableEq L] (p : Problem) (b : Layout L) {s : Sys L A}
    (h : Reach (Sys.step p b) Clean Init s) : ¬ s.Deadlocked := by
  obtain ⟨hcount, hbal⟩ := balanced_reach h
  rintro ⟨hpc, hpending, hout⟩
  exact Balanced.awaited hbal hcount hpc hpending hout

/-- The scratch layout of `tb_fullstack`: two RAMs, slots of the largest tile. -/
def demoBuffers : Buffers (ℕ ⊕ ℕ) 32 where
  rd := .inl
  wr := .inr
  wBase s := s * 4096
  aBase s := 4 * 4096 + s * 4096
  cBase s := s * 16384
  port_width := by decide
  fits := by
    intro q s
    have hs := s.isLt
    cases q <;> simp only [Layout.base, Part.size] <;> omega
  apart := by
    intro q s k r t l hk hl h
    have hs := s.isLt
    have ht := t.isLt
    cases q <;> cases r <;>
      simp only [Layout.loc, Part.size, Sum.inl.injEq, Sum.inr.injEq, reduceCtorEq] at h hk hl <;>
      refine ⟨by first | rfl | omega, ?_⟩ <;> rw [Fin.ext_iff] <;> omega

/-- One row and two tiles. -/
def demoProblem : Problem where
  M := 1
  K := 8
  N := 4
  a := fun k => BitVec.ofNat 8 k
  w := fun k => BitVec.ofNat 8 k

/-- After a reset. -/
def demoStart : Sys (ℕ ⊕ ℕ) 32 where
  pc := .clear
  m0 := 0
  issued := 0
  collected := 0
  base := 0
  C := fun _ => 0
  port := ⟨⟨0, 0, 0, 0⟩, [], false, false, 0⟩
  running := none
  mem := fun _ => 0
  done := 0

theorem demoStart_init : Init demoStart := by
  constructor <;> rfl

/-- The driver issues both tiles and turns to `wait_irq`. -/
def demoIssue : List Act := List.replicate 19 .driver

/-- The datapath runs the oldest command to its end. -/
def demoRetire : List Act := [.start, .store, .complete]

/-- From `wait_irq` on: take the interrupt and collect one result. -/
def demoCollect : List Act := List.replicate 4 .driver

/-- The first tile is collected before the second completes. -/
theorem clean_run_no_deadlock_demo :
    ∃ s : Sys (ℕ ⊕ ℕ) 32, Reach (Sys.step demoProblem demoBuffers.toLayout) Clean Init s ∧
      s.collected = 1 ∧ s.pc = .wait ∧ ¬ s.Deadlocked := by
  have hrun : ((exec (Sys.step demoProblem demoBuffers.toLayout) Clean
      (demoIssue ++ demoRetire ++ demoCollect ++ demoRetire ++ [.driver]) demoStart).map
        fun s => (s.collected, s.pc)) = some (1, .wait) := by decide +kernel
  obtain ⟨s, hexec, hs⟩ := Option.map_eq_some_iff.mp hrun
  have hreach := (Reach.start demoStart_init).exec hexec
  exact ⟨s, hreach, congrArg Prod.fst hs, congrArg Prod.snd hs,
    clean_run_no_deadlock demoProblem demoBuffers.toLayout hreach⟩

/-- **Two completions before the first `wait_irq`** set one interrupt.  The
driver collects the first result and waits for ever for the second. -/
theorem coalesced_irq_deadlock :
    ∃ s : Sys (ℕ ⊕ ℕ) 32, Reach (Sys.step demoProblem demoBuffers.toLayout) always Init s ∧
      s.Deadlocked := by
  have hrun : ((exec (Sys.step demoProblem demoBuffers.toLayout) always
      (demoIssue ++ demoRetire ++ demoRetire ++ demoCollect ++ [.driver]) demoStart).map
        fun s => decide s.Deadlocked) = some true := by decide +kernel
  obtain ⟨s, hexec, hs⟩ := Option.map_eq_some_iff.mp hrun
  exact ⟨s, (Reach.start demoStart_init).exec hexec, of_decide_eq_true hs⟩

end CoprocDriver
