import TensorAccel.Driver.Port
import TensorAccel.Framework.Reach

/-! # Waiting for completions

    Translation of `coproc_wait_retired`, run against a device that completes
    commands at any point between two of its accesses.

    The loop condition subtracts two 16-bit counts in 32 bits.  The difference
    is the number of completions only while the counter has not wrapped past
    `base`; `SafeRead` is what the test needs of a read after that. -/

open CmdQueueRegs ActionSystem

namespace CoprocDriver

variable {A : ℕ} {base want : BitVec 32}

/-! ## The call -/

/-- `(uint32_t)(dc - base) < want`, with `dc` read from this port. -/
def Port.fewerThan (d : Port A) (base want : BitVec 32) : Bool := d.doneField - base < want

/-- Control points of `coproc_wait_retired`. -/
inductive WaitPc where
  /-- `wait_irq`. -/
  | wait
  | rw1c
  | status
  | ret
  deriving DecidableEq, Repr

inductive WaitAct where
  | driver | complete
  deriving DecidableEq, Repr

structure WaitRetired (A : ℕ) where
  pc : WaitPc
  port : Port A
  dc : BitVec 32
  /-- Completions since `base` was sampled; no step reads it. -/
  done : ℕ
  /-- `done` at the last `STATUS` read of the call; no step reads it. -/
  seen : Option ℕ

namespace WaitRetired

variable {s s' : WaitRetired A}

def step (base want : BitVec 32) (a : WaitAct) (s : WaitRetired A) : Option (WaitRetired A) :=
  match a with
  | .complete => some { s with port := s.port.retire, done := s.done + 1 }
  | .driver =>
    match s.pc with
    | .wait => if s.port.irq then some { s with pc := .rw1c } else none
    | .rw1c => some { s with port := s.port.regWrite offIrq 3, pc := .status }
    | .status =>
      some { s with dc := s.port.doneField, seen := some s.done,
                    pc := if s.port.fewerThan base want then .wait else .ret }
    | .ret => none

/-- A call made some completions after `base` was sampled from `STATUS`. -/
structure Init (base : BitVec 32) (s : WaitRetired A) : Prop where
  pc : s.pc = .wait
  seen : s.seen = none
  sampled : base = (s.port.doneCount - BitVec.ofNat 16 s.done).setWidth 32

/-- The steps from `s`, with their guards. -/
inductive Move (base want : BitVec 32) (s : WaitRetired A) : WaitAct → WaitRetired A → Prop
  | complete : Move base want s .complete { s with port := s.port.retire, done := s.done + 1 }
  | wake (hpc : s.pc = .wait) (hirq : s.port.irq = true) :
      Move base want s .driver { s with pc := .rw1c }
  | rw1c (hpc : s.pc = .rw1c) :
      Move base want s .driver
        { s with port := { s.port with irqEn := true, irqPending := false }, pc := .status }
  | read (hpc : s.pc = .status) :
      Move base want s .driver
        { s with dc := s.port.doneField, seen := some s.done,
                 pc := if s.port.fewerThan base want then .wait else .ret }

theorem move_of_step {a : WaitAct} (h : step base want a s = some s') : Move base want s a s' := by
  unfold step at h
  split at h
  · obtain rfl := Option.some.inj h
    exact .complete
  · split at h
    · next hpc =>
      split at h
      · next hirq =>
        obtain rfl := Option.some.inj h
        exact .wake hpc hirq
      · cases h
    · next hpc =>
      rw [Port.regWrite_irq] at h
      obtain rfl := Option.some.inj h
      exact .rw1c hpc
    · next hpc =>
      obtain rfl := Option.some.inj h
      exact .read hpc
    · cases h

/-- The contract: a `STATUS` read ends the call if and only if at least `want`
commands had completed, and only a read ends it. -/
def Honoured (want : BitVec 32) (s : WaitRetired A) : Prop :=
  match s.seen with
  | none => s.pc ≠ .ret
  | some n => n ≤ s.done ∧ (s.pc = .ret ↔ want.toNat ≤ n)

/-! ## The test -/

/-- `n` completions after `base` was sampled the counter has wrapped
`(base + n) / 2 ^ 16` times.  With the counter at or past `base` the difference
is short by the wraps; below `base` it has borrowed from bit 32 as well.  The
read is safe if `want` does not lie between the difference and `n`. -/
def SafeRead (base want n : ℕ) : Prop :=
  let lost := 2 ^ 16 * ((base + n) / 2 ^ 16)
  if lost ≤ n then want + lost ≤ n ∨ n < want
  else want ≤ n ∧ want + lost ≤ 2 ^ 32 + n ∨ n < want ∧ 2 ^ 32 + n < want + lost

instance (base want n : ℕ) : Decidable (SafeRead base want n) := by
  unfold SafeRead
  infer_instance

/-- Until the counter wraps every read is safe. -/
theorem safeRead_of_no_wrap {base want n : ℕ} (h : base + n < 2 ^ 16) : SafeRead base want n := by
  have hzero : (base + n) / 2 ^ 16 = 0 := Nat.div_eq_of_lt h
  unfold SafeRead
  rw [hzero]
  simp only [Nat.mul_zero, Nat.zero_le, if_true, Nat.add_zero]
  exact Nat.lt_or_ge n want |>.symm

/-- Below `2 ^ 16` completions a read that comes late enough is safe. -/
theorem safeRead_of_retired {base want n : ℕ} (hbase : base < 2 ^ 16) (hn : n < 2 ^ 16)
    (h : want ≤ n) : SafeRead base want n := by
  have hdiv := Nat.div_add_mod (base + n) (2 ^ 16)
  unfold SafeRead
  dsimp only
  split <;> omega

/-- The counter in terms of the sample. -/
theorem doneCount_toNat {d : Port A} {n : ℕ}
    (h : base = (d.doneCount - BitVec.ofNat 16 n).setWidth 32) :
    base.toNat < 2 ^ 16 ∧ d.doneCount.toNat = (base.toNat + n) % 2 ^ 16 := by
  have hcount := d.doneCount.isLt
  have hbase : base.toNat = (d.doneCount - BitVec.ofNat 16 n).toNat := by
    rw [h, BitVec.toNat_setWidth]
    exact Nat.mod_eq_of_lt (by omega)
  rw [BitVec.toNat_sub, BitVec.toNat_ofNat] at hbase
  omega

/-- What the loop compares with `want`. -/
theorem doneField_sub_base {d : Port A} {n : ℕ}
    (h : base = (d.doneCount - BitVec.ofNat 16 n).setWidth 32) :
    (d.doneField - base).toNat =
      if 2 ^ 16 * ((base.toNat + n) / 2 ^ 16) ≤ n then n - 2 ^ 16 * ((base.toNat + n) / 2 ^ 16)
      else 2 ^ 32 + n - 2 ^ 16 * ((base.toNat + n) / 2 ^ 16) := by
  obtain ⟨hbase, hcount⟩ := doneCount_toNat h
  have hfield : d.doneField.toNat = (base.toNat + n) % 2 ^ 16 := by
    rw [Port.doneField, BitVec.toNat_setWidth, hcount]
    omega
  rw [BitVec.toNat_sub, hfield]
  have hdiv := Nat.div_add_mod (base.toNat + n) (2 ^ 16)
  split <;> omega

/-- **The test is right at a read** exactly if the read is safe. -/
theorem fewerThan_iff {d : Port A} {n : ℕ}
    (h : base = (d.doneCount - BitVec.ofNat 16 n).setWidth 32) :
    (d.fewerThan base want = false ↔ want.toNat ≤ n) ↔ SafeRead base.toNat want.toNat n := by
  have hsub := doneField_sub_base h
  have hwant := want.isLt
  have hbase := (doneCount_toNat h).1
  have hdiv := Nat.div_mul_le_self (base.toNat + n) (2 ^ 16)
  unfold Port.fewerThan SafeRead
  rw [decide_eq_false_iff_not, BitVec.lt_def, hsub]
  dsimp only
  split <;> omega

/-! ## Runs -/

/-- The steps of a call whose `STATUS` reads are all safe. -/
def SafeReads (base want : BitVec 32) (a : WaitAct) (s : WaitRetired A) : Bool :=
  match a with
  | .driver => !(s.pc == .status) || decide (SafeRead base.toNat want.toNat s.done)
  | .complete => true

/-- The counter is `done` completions past the sample, and reads have been
made only of counts that are past. -/
structure Sampled (base : BitVec 32) (s : WaitRetired A) : Prop where
  sampled : base = (s.port.doneCount - BitVec.ofNat 16 s.done).setWidth 32
  seen : ∀ n, s.seen = some n → n ≤ s.done

theorem sampled_init (h : Init base s) : Sampled base s := by
  constructor
  · exact h.sampled
  · intro n hn
    rw [h.seen] at hn
    cases hn

theorem Sampled.step {a : WaitAct} (h : Sampled base s)
    (hstep : WaitRetired.step base want a s = some s') : Sampled base s' := by
  obtain ⟨hsampled, hseen⟩ := h
  cases move_of_step hstep with
  | complete =>
    -- the counter and the number of completions move together
    constructor
    · rw [hsampled]
      have hshift : s.port.doneCount - BitVec.ofNat 16 s.done =
          s.port.doneCount + 1 - BitVec.ofNat 16 (s.done + 1) := by
        rw [BitVec.ofNat_add]
        bv_omega
      exact congrArg (BitVec.setWidth 32) hshift
    · intro n hn
      exact Nat.le_succ_of_le (hseen n hn)
  | wake hpc hirq => exact ⟨hsampled, hseen⟩
  | rw1c hpc => exact ⟨hsampled, hseen⟩
  | read hpc =>
    constructor
    · exact hsampled
    · intro n hn
      exact (Option.some.inj hn).symm.le

/-- **A read honours the contract** exactly if it is safe. -/
theorem honoured_read_iff (h : Sampled base s) (hpc : s.pc = .status)
    (hstep : step base want .driver s = some s') :
    s'.Honoured want ↔ SafeRead base.toNat want.toNat s.done := by
  rw [← fewerThan_iff h.sampled]
  cases move_of_step hstep with
  | read hpc =>
    unfold Honoured
    cases s.port.fewerThan base want <;> simp
  | wake hother hirq => rw [hpc] at hother; cases hother
  | rw1c hother => rw [hpc] at hother; cases hother

theorem Honoured.step {a : WaitAct} (hs : Sampled base s) (h : s.Honoured want)
    (hok : SafeReads base want a s = true) (hstep : WaitRetired.step base want a s = some s') :
    s'.Honoured want := by
  have hmove := move_of_step hstep
  cases hmove with
  | read hpc =>
    rw [honoured_read_iff hs hpc hstep]
    simpa [SafeReads, hpc] using hok
  | complete =>
    -- completions after a read do not change what it saw
    unfold Honoured at *
    cases hseen : s.seen with
    | none => simpa only [hseen] using h
    | some n =>
      simp only [hseen] at h ⊢
      exact ⟨Nat.le_succ_of_le h.1, h.2⟩
  | wake hpc hirq =>
    unfold Honoured at *
    rw [hpc] at h
    cases hseen : s.seen with
    | none => simp
    | some n => simpa [hseen] using h
  | rw1c hpc =>
    unfold Honoured at *
    rw [hpc] at h
    cases hseen : s.seen with
    | none => simp
    | some n => simpa [hseen] using h

/-- **The contract of `coproc_wait_retired`.**  In a run whose reads are all
safe the call returns only after `want` completions, and its first read after
them is its last. -/
theorem coproc_wait_retired_contract (base want : BitVec 32) {s : WaitRetired A}
    (h : Reach (step base want) (SafeReads base want) (Init base) s) : s.Honoured want := by
  have hinv : Sampled base s ∧ s.Honoured want := by
    apply h.invariant (I := fun s => Sampled base s ∧ s.Honoured want)
    · intro s hinit
      refine ⟨sampled_init hinit, ?_⟩
      unfold Honoured
      simp [hinit.seen, hinit.pc]
    · rintro a s s' ⟨hs, hhon⟩ hok hstep
      exact ⟨hs.step hstep, hhon.step hs hok hstep⟩
  exact hinv.2

/-- A call made right after `base` was sampled. -/
def demoCall (base : BitVec 16) : WaitRetired 32 where
  pc := .wait
  port := ⟨⟨0, 0, 0, 0⟩, [], true, false, base⟩
  dc := 0
  done := 0
  seen := none

theorem demoCall_init (base : BitVec 16) : Init (base.setWidth 32) (demoCall base) := by
  constructor
  · rfl
  · rfl
  · simp [demoCall]

/-- A completion, the interrupt it sets, and the read. -/
def demoRound : List WaitAct := [.complete, .driver, .driver, .driver]

/-- Two rounds from a count of 7 end a call for two completions. -/
theorem coproc_wait_retired_contract_demo :
    ∃ s : WaitRetired 32, Reach (step 7 2) (SafeReads 7 2) (Init 7) s ∧
      s.pc = .ret ∧ s.seen = some 2 ∧ s.Honoured 2 := by
  have hrun : ((exec (step 7 2) (SafeReads 7 2) (demoRound ++ demoRound) (demoCall 7)).map
      fun s => (s.pc, s.seen)) = some (.ret, some 2) := by decide +kernel
  obtain ⟨s, hexec, hs⟩ := Option.map_eq_some_iff.mp hrun
  have hreach := (Reach.start (demoCall_init 7)).exec hexec
  exact ⟨s, hreach, congrArg Prod.fst hs, congrArg Prod.snd hs,
    coproc_wait_retired_contract 7 2 hreach⟩

/-- **The counter wraps past `base`** at the first of two completions, and the
call returns after it. -/
theorem wrapped_read_returns_early :
    ∃ s : WaitRetired 32, Reach (step 65535 2) always (Init 65535) s ∧
      s.pc = .ret ∧ s.done = 1 ∧ ¬ s.Honoured 2 := by
  have hrun : ((exec (step 65535 2) always demoRound (demoCall 65535)).map
      fun s => (s.pc, s.done, s.seen)) = some (.ret, 1, some 1) := by decide +kernel
  obtain ⟨s, hexec, hs⟩ := Option.map_eq_some_iff.mp hrun
  have hreach := (Reach.start (demoCall_init 65535)).exec hexec
  simp only [Prod.mk.injEq] at hs
  obtain ⟨hpc, hdone, hseen⟩ := hs
  refine ⟨s, hreach, hpc, hdone, ?_⟩
  simp [Honoured, hseen, hpc]

end WaitRetired

end CoprocDriver
