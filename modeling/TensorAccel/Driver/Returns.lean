import TensorAccel.Driver.Matmul

/-! # A device that does not get ahead

    Where the device works only while the driver is blocked, an interrupt falls on
    no other, so that a call of `coproc_matmul_tiled` returns (`returns`).  Every
    step of such a run lowers the work that is left: steps of the driver, by the
    tiles to issue and to collect, and below them steps of the datapath. -/

open StreamCtrl CmdQueueRegs ActionSystem Span

namespace CoprocDriver

variable {L : Type _} {A : ℕ} {p : Problem} {b : Buffers L A} {s s' : Sys L A}

/-! ## Turns -/

/-- What the device does next, if it has a command. -/
def Sys.deviceAct (s : Sys L A) : Act :=
  match s.running with
  | none => .start
  | some (c, k) => if k < c.mRows.toNat then .store else .complete

/-- Whose turn it is: the device's only while the driver is blocked. -/
def Sys.turn (s : Sys L A) : Option Act :=
  match s.pc with
  | .ret => none
  | .wait => if s.port.irq then some .driver else some s.deviceAct
  | _ => some .driver

theorem deviceAct_ne (s : Sys L A) : s.deviceAct ≠ .driver := by
  unfold Sys.deviceAct
  split
  · simp
  · split <;> simp

/-- The ways a turn can go. -/
theorem turn_cases (s : Sys L A) :
    (s.pc = .ret ∧ s.turn = none) ∨
      (s.pc = .wait ∧ s.port.irq = false ∧ s.turn = some s.deviceAct) ∨
      (s.pc ≠ .ret ∧ (s.pc = .wait → s.port.irq = true) ∧ s.turn = some .driver) := by
  unfold Sys.turn
  cases hpc : s.pc with
  | ret => exact .inl ⟨rfl, rfl⟩
  | wait =>
    cases hirq : s.port.irq with
    | true => exact .inr (.inr ⟨by decide, fun _ => rfl, rfl⟩)
    | false => exact .inr (.inl ⟨rfl, rfl, rfl⟩)
  | _ => exact .inr (.inr ⟨by simp, by simp, rfl⟩)

section steps
variable [DecidableEq L]

theorem driver_enabled (hret : s.pc ≠ .ret) (hwait : s.pc = .wait → s.port.irq = true) :
    ∃ s', s.step p b.toLayout .driver = some s' := by
  show ∃ s', s.driver p b.toLayout = some s'
  unfold Sys.driver
  cases hpc : s.pc with
  | ret => exact absurd hpc hret
  | wait =>
    rw [hwait hpc]
    exact ⟨_, rfl⟩
  | chunk =>
    simp only
    split <;> exact ⟨_, rfl⟩
  | loop =>
    simp only
    split
    · split <;> exact ⟨_, rfl⟩
    · exact ⟨_, rfl⟩
  | status =>
    simp only
    split <;> exact ⟨_, rfl⟩
  | _ => exact ⟨_, rfl⟩

end steps

/-! ## Work -/

/-- Chunks from row `m0` on. -/
def Problem.chunksFrom (p : Problem) (m0 : ℕ) : ℕ := (p.M - m0 + 1023) / 1024

/-- Steps to the next head of the inner loop, or past it, with 9 for each tile to issue and
6 for each tile to collect. -/
def Pc.stage : Pc → ℕ
  | .loop => 9
  | .packW => 7
  | .packA => 6
  | .hold .w => 5
  | .hold .a => 4
  | .hold .c => 3
  | .hold .m => 2
  | .cmd => 1
  | .wait => 7
  | .rw1c => 6
  | .status => 5
  | .copy => 4
  | _ => 0

/-- A bound on the steps of the driver to come. -/
def Sys.driverWork (p : Problem) (s : Sys L A) : ℕ :=
  match s.pc with
  | .clear => p.chunksFrom s.m0 * (15 * p.total + 9) + 2
  | .chunk => p.chunksFrom s.m0 * (15 * p.total + 9) + 1
  | .ret => 0
  | pc => p.chunksFrom (s.m0 + 1024) * (15 * p.total + 9) + 9 * (p.total - s.issued) +
      6 * (p.total - s.collected) + pc.stage

/-- A step of the driver may cost as much as a command of `COPROC_MAX_ROWS` rows. -/
def Sys.work (p : Problem) (s : Sys L A) : ℕ :=
  2000 * s.driverWork p + datapathWork s.running s.port.waiting

theorem chunksFrom_succ {m0 : ℕ} (h : m0 < p.M) : p.chunksFrom m0 = p.chunksFrom (m0 + 1024) + 1 := by
  unfold Problem.chunksFrom
  omega

section steps
variable [DecidableEq L]

theorem driverWork_step (hcount : Counting p s) (hsmall : p.total < 2 ^ 16)
    (hmove : Move p b.toLayout s .driver s') : s'.driverWork p < s.driverWork p := by
  have hpaced := hcount.paced
  unfold Sys.Paced at hpaced
  cases hmove with
  | chunk hpc hm =>
    simp only [Sys.driverWork, Pc.stage, hpc, chunksFrom_succ hm, Nat.add_mul]
    omega
  | nextChunk hpc hc =>
    simp only [Sys.driverWork, Pc.stage, hpc]
    omega
  | hold r hpc =>
    cases r <;> simp only [Sys.driverWork, Pc.stage, Reg.next, hpc] <;> omega
  | cmd hpc =>
    simp only [hpc] at hpaced
    simp only [Sys.driverWork, Pc.stage, hpc]
    omega
  | retry hpc hnot =>
    -- in so few tiles the test sees every completion
    rw [hcount.test_passes hpc hsmall] at hnot
    cases hnot
  | copy hpc =>
    simp only [hpc] at hpaced
    simp only [Sys.driverWork, Pc.stage, hpc]
    omega
  | _ hpc =>
    simp only [Sys.driverWork, Pc.stage, hpc]
    omega

/-- A step of the driver puts at most one command into the queue. -/
theorem datapathWork_driver (hcount : Counting p s) (hslots : Slots p b s)
    (hmove : Move p b.toLayout s .driver s') :
    datapathWork s'.running s'.port.waiting ≤ datapathWork s.running s.port.waiting + 1026 := by
  cases hmove with
  | clear hpc =>
    rw [Port.regWrite_irq]
    exact Nat.le_add_right _ _
  | rw1c hpc =>
    rw [Port.regWrite_irq]
    exact Nat.le_add_right _ _
  | hold r hpc =>
    rw [regWrite_off]
    exact Nat.le_add_right _ _
  | cmd hpc =>
    have hissuing := hslots.issuing
    simp only [Sys.Issuing, hpc] at hissuing
    have hmc := p.mc_le s.m0
    rw [Port.regWrite_cmd _ (hcount.room hpc), datapathWork_enqueue, hissuing.2, toNat_mRows]
    show datapathWork s.running s.port.waiting + (2 + p.mc s.m0) ≤ _
    omega
  | _ => exact Nat.le_add_right _ _

theorem work_driver (hcount : Counting p s) (hslots : Slots p b s) (hsmall : p.total < 2 ^ 16)
    (hmove : Move p b.toLayout s .driver s') : s'.work p < s.work p := by
  have hdriver := driverWork_step hcount hsmall hmove
  have hdatapath := datapathWork_driver hcount hslots hmove
  unfold Sys.work
  omega

/-- With a command in flight the device has a step, and it brings the end closer. -/
theorem work_device (hcount : Counting p s) (hslots : Slots p b s) (hout : s.outstanding ≠ []) :
    ∃ s', s.step p b.toLayout s.deviceAct = some s' ∧ s'.work p < s.work p := by
  cases hrun : s.running with
  | none =>
    obtain ⟨c, q, hwait⟩ : ∃ c q, s.port.waiting = c :: q := by
      apply List.exists_cons_of_ne_nil
      simpa [Sys.outstanding, hrun] using hout
    refine ⟨{ s with running := some (c, 0), port := s.port.pop }, by simp [Sys.step, Sys.deviceAct, hrun, hwait], ?_⟩
    rw [Sys.work, Sys.work, hrun, hwait]
    simp only [Port.pop, hwait, List.tail_cons]
    exact Nat.add_lt_add_left datapathWork_start _
  | some x =>
    obtain ⟨c, k⟩ := x
    obtain ⟨-, rfl, -⟩ := hslots.running hcount hrun
    have hrows := toNat_mRows p b s.m0 s.done
    rcases Nat.lt_or_eq_of_le (hslots.stored _ _ hrun).1 with hk | rfl
    · refine ⟨_, by simp only [Sys.step, Sys.deviceAct, hrun, hrows, if_pos hk]; rfl, ?_⟩
      rw [Sys.work, Sys.work, hrun]
      exact Nat.add_lt_add_left (datapathWork_store (by rw [hrows]; exact hk)) _
    · refine ⟨_, by simp only [Sys.step, Sys.deviceAct, hrun, hrows, if_neg (lt_irrefl _), if_pos]; rfl, ?_⟩
      rw [Sys.work, Sys.work, hrun]
      exact Nat.add_lt_add_left datapathWork_complete _

/-! ## Runs -/

/-- Behind its first store the driver keeps the interrupt enabled. -/
theorem irqEn_step (hcount : Counting p s) (h : s.pc ≠ .clear → s.port.irqEn = true) {a : Act}
    (hstep : s.step p b.toLayout a = some s') : s'.pc ≠ .clear → s'.port.irqEn = true := by
  cases move_of_step hstep with
  | clear hpc =>
    rw [Port.regWrite_irq]
    exact fun _ => rfl
  | rw1c hpc =>
    rw [Port.regWrite_irq]
    exact fun _ => rfl
  | hold r hpc =>
    rw [regWrite_off]
    exact fun _ => h (by simp [hpc])
  | cmd hpc =>
    rw [Port.regWrite_cmd _ (hcount.room hpc)]
    exact fun _ => h (by simp [hpc])
  | start c q hrun hwait => exact h
  | store c k hrun hk => exact h
  | complete c hrun => exact h
  | _ hpc => exact fun _ => h (by simp [hpc])

theorem irqEn_reach {ok : Act → Sys L A → Bool} (h : Reach (Sys.step p b.toLayout) ok Init s) :
    s.pc ≠ .clear → s.port.irqEn = true := by
  have hinv : Counting p s ∧ (s.pc ≠ .clear → s.port.irqEn = true) := by
    apply h.invariant (I := fun s => Counting p s ∧ (s.pc ≠ .clear → s.port.irqEn = true))
    · intro s hinit
      exact ⟨counting_init hinit, fun hpc => absurd hinit.pc hpc⟩
    · rintro a s s' ⟨hcount, hirq⟩ _ hstep
      exact ⟨hcount.step hstep, irqEn_step hcount hirq hstep⟩
  exact hinv.2

/-- A turn is one of a clean run, and it brings the end closer. -/
theorem turn_works (hsmall : p.total < 2 ^ 16) (h : Reach (Sys.step p b.toLayout) Clean Init s) {a : Act}
    (hturn : s.turn = some a) :
    Clean a s = true ∧ ∃ s', s.step p b.toLayout a = some s' ∧ s'.work p < s.work p := by
  obtain ⟨hcount, hslots, -⟩ := invariants_reach h
  rcases turn_cases s with ⟨-, hnone⟩ | ⟨hpc, hlow, hdevice⟩ | ⟨hret, hwait, hdriver⟩
  · rw [hnone] at hturn
    cases hturn
  · obtain rfl := Option.some.inj (hdevice.symm.trans hturn)
    have hen := irqEn_reach h (by simp [hpc])
    have hpending : s.port.irqPending = false := by simpa [Port.irq, hen] using hlow
    have hout := Balanced.awaited (balanced_reach h).2 hcount hpc hpending
    refine ⟨?_, work_device hcount hslots hout⟩
    cases hact : s.deviceAct with
    | driver => exact absurd hact (deviceAct_ne s)
    | complete => simp [Clean, hpending]
    | _ => rfl
  · obtain rfl := Option.some.inj (hdriver.symm.trans hturn)
    obtain ⟨s', hstep⟩ := driver_enabled (p := p) (b := b) hret hwait
    refine ⟨?_, s', hstep, work_driver hcount hslots hsmall (move_of_step hstep)⟩
    by_cases hpc : s.pc = .status
    · simp [Clean, hcount.test_passes hpc hsmall]
    · simp [Clean, hpc]

/-- **A call returns** within the steps that its work allows, if a chunk has fewer than
`2 ^ 16` tiles. -/
theorem returns (hsmall : p.total < 2 ^ 16) (h : Init s) :
    ∃ u, drive (Sys.step p b.toLayout) Sys.turn (s.work p) s = some u ∧
      Reach (Sys.step p b.toLayout) Clean Init u ∧ u.pc = .ret := by
  have hstart : Reach (Sys.step p b.toLayout) Clean Init s := .start h
  obtain ⟨u, hdrive, hreach, hend⟩ := hstart.drive (fun s => s.work p)
    (fun _ _ hu hturn => turn_works hsmall hu hturn) (Nat.le_refl (s.work p))
  refine ⟨u, hdrive, hreach, ?_⟩
  rcases turn_cases u with ⟨hret, -⟩ | ⟨-, -, hsome⟩ | ⟨-, -, hsome⟩
  · exact hret
  · rw [hsome] at hend
    cases hend
  · rw [hsome] at hend
    cases hend

end steps

/-! ## A call -/

/-- The device between two calls, with the memories that its buffers lie in. -/
structure Idle (L : Type _) (A : ℕ) where
  port : Port A
  mem : L → BitVec 8
  waiting : port.waiting = []

/-- The begin of a call. -/
def Idle.call (d : Idle L A) : Sys L A where
  pc := .clear
  m0 := 0
  issued := 0
  collected := 0
  base := 0
  C := fun _ => 0
  port := d.port
  running := none
  mem := d.mem
  done := 0

theorem Idle.call_init (d : Idle L A) : Init d.call := by
  constructor <;> first | rfl | exact d.waiting

variable [DecidableEq L]

/-- `coproc_matmul_tiled` against such a device: the matrix, and the device behind the call. -/
def coprocMatmulTiled (b : Buffers L A) (d : Idle L A) (p : Problem) : Option ((ℕ → BitVec 32) × Idle L A) := do
  let u ← drive (Sys.step p b.toLayout) Sys.turn (d.call.work p) d.call
  if h : u.port.waiting = [] then some (u.C, ⟨u.port, u.mem, h⟩) else none

theorem coprocMatmulTiled_returns (b : Buffers L A) (d : Idle L A) (hsmall : p.total < 2 ^ 16) :
    ∃ (u : Sys L A) (d' : Idle L A), coprocMatmulTiled b d p = some (u.C, d') ∧
      Reach (Sys.step p b.toLayout) Clean Init u ∧ u.pc = .ret := by
  obtain ⟨u, hdrive, hreach, hret⟩ := returns (b := b) hsmall d.call_init
  obtain ⟨hcount, -⟩ := invariants_reach hreach
  have hpaced := hcount.paced
  simp only [Sys.Paced, hret] at hpaced
  have hwaiting : u.port.waiting = [] := (List.append_eq_nil_iff.mp (hcount.drained hpaced).1).2
  refine ⟨u, ⟨u.port, u.mem, hwaiting⟩, ?_, hreach, hret⟩
  rw [coprocMatmulTiled, hdrive, Option.bind_eq_bind, Option.bind_some, dif_pos hwaiting]

end CoprocDriver
