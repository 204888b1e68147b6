import TensorAccel.Driver.Slots

/-! # The tiled product

    After `collected` results the entries of the current chunk are partial dot
    products over the tiles of their column block that have been collected, and
    the chunks before it are complete (`Matrix`).  With the slot invariant this
    gives the partial correctness of `coproc_matmul_tiled`. -/

open StreamCtrl CmdQueueRegs ActionSystem Span Tiling Finset

namespace CoprocDriver

variable {L : Type _} {A : ℕ} {p : Problem} {b : Buffers L A} {s s' : Sys L A}

/-! ## Entries of `C` -/

structure Matrix (p : Problem) (s : Sys L A) : Prop where
  rowsDone : ∀ m n, m < p.M → n < p.N → m < s.m0 →
    s.C (m * p.N + n) = BitVec.ofInt 32 (p.partialDot m n p.nKt)
  rowsNow : s.pc.inLoop = true → ∀ m n, m < p.M → n < p.N → s.m0 ≤ m → m < s.m0 + 1024 →
    s.C (m * p.N + n) = BitVec.ofInt 32 (p.partialDot m n (tilesOf p.nKt (n / 4) s.collected))
  returned : s.pc = .ret → p.M ≤ s.m0

theorem matrix_init (h : Init s) : Matrix p s := by
  constructor
  · intro m n _ _ hlt
    rw [h.m0] at hlt
    exact absurd hlt (Nat.not_lt_zero m)
  · simp [h.pc, Pc.inLoop]
  · simp [h.pc]

/-- On return `C` is the product. -/
theorem Matrix.product (h : Matrix p s) (hret : s.pc = .ret) {m n : ℕ} (hm : m < p.M) (hn : n < p.N) :
    s.C (m * p.N + n) =
      BitVec.ofInt 32 (∑ k ∈ range p.K, (p.a (m * p.K + k)).toInt * (p.w (k * p.N + n)).toInt) := by
  rw [h.rowsDone m n hm hn (hm.trans_le (h.returned hret)), p.partialDot_all]
  rfl

/-- A step within the loop that leaves `C` and the counts alone. -/
theorem Matrix.within (h : Matrix p s) (hpc : s.pc.inLoop = true) {pc : Pc} {port : Port A}
    {mem : L → BitVec 8} {issued : ℕ} (hret : pc ≠ .ret) :
    Matrix p { s with pc := pc, port := port, mem := mem, issued := issued } :=
  ⟨h.rowsDone, fun _ => h.rowsNow hpc, fun heq => absurd heq hret⟩

/-- A result tile is added to its column block. -/
theorem Matrix.copy (h : Matrix p s) (hcount : Counting p s) (hslots : Slots p b s)
    (hpc : s.pc = .copy) :
    Matrix p { s with C := p.accumulate s.m0 (s.collected / p.nKt)
                             (ctBuf b.toLayout s.mem (slot s.collected)) s.C
                      collected := s.collected + 1
                      pc := .loop } := by
  have hpaced := hcount.paced
  have hcollected := hcount.collected
  simp only [Sys.Paced, Sys.credit, hpc] at hpaced hcollected
  have hpos : 0 < p.nKt := p.nKt_pos (i := s.collected) (by omega)
  have hstored := hslots.results s.collected le_rfl (by omega)
  constructor
  · intro m n hm hn hlt
    rw [← h.rowsDone m n hm hn hlt]
    exact p.accumulate_keep _ _ hn (.inr hlt)
  · intro _ m n hm hn hle hlt
    dsimp only at hle hlt ⊢
    have hrow := h.rowsNow (by rw [hpc]; rfl) m n hm hn hle hlt
    have hin := p.lt_mc hm hle hlt
    rw [tilesOf_succ hpos]
    by_cases hblock : s.collected / p.nKt = n / 4
    · -- the column block of this tile
      rw [hblock, p.accumulate_block _ _ hn hle hin, hrow, if_pos rfl, ← hblock, tilesOf_div hpos,
        p.partialDot_succ hm hn hle hblock, ctBuf_stored hstored hin (Nat.mod_lt n (by decide))]
    · rw [p.accumulate_keep _ _ hn (.inl (Ne.symm hblock)), hrow, if_neg hblock, Nat.add_zero]
  · intro heq
    cases heq

section steps
variable [DecidableEq L]

theorem Matrix.driver_step (h : Matrix p s) (hcount : Counting p s) (hslots : Slots p b s)
    (hmove : Move p b.toLayout s .driver s') : Matrix p s' := by
  cases hmove with
  | clear hpc => exact ⟨h.rowsDone, by simp [Pc.inLoop], by simp⟩
  | chunk hpc hm =>
    constructor
    · intro m n hm hn hlt
      rw [← h.rowsDone m n hm hn hlt]
      exact p.zeroRows_above _ hn hlt
    · intro _ m n hm hn hle hlt
      dsimp only at hle hlt ⊢
      rw [p.zeroRows_row _ hn hle (p.lt_mc hm hle hlt), tilesOf_zero, p.partialDot_zero]
      rfl
    · intro heq
      cases heq
  | finish hpc hm => exact ⟨h.rowsDone, by simp [Pc.inLoop], fun _ => Nat.le_of_not_lt hm⟩
  | nextChunk hpc hc =>
    -- every tile of the chunk has been collected
    have hpaced := hcount.paced
    have hwindow := hcount.window
    simp only [Sys.Paced, hpc] at hpaced
    have hall : s.collected = p.nNt * p.nKt := by
      have : p.total = p.nNt * p.nKt := rfl
      omega
    refine ⟨?_, by simp [Pc.inLoop], by simp⟩
    intro m n hm hn hlt
    dsimp only at hlt ⊢
    by_cases hold : m < s.m0
    · exact h.rowsDone m n hm hn hold
    · rw [h.rowsNow (by rw [hpc]; rfl) m n hm hn (by omega) hlt, hall, tilesOf_all (p.div_lt_nNt hn)]
  | issue hpc hc hi => exact h.within (by rw [hpc]; rfl) (by decide)
  | await hpc hc hi => exact h.within (by rw [hpc]; rfl) (by decide)
  | packW hpc => exact h.within (by rw [hpc]; rfl) (by decide)
  | packA hpc => exact h.within (by rw [hpc]; rfl) (by decide)
  | hold r hpc => exact h.within (by rw [hpc]; rfl) (by cases r <;> decide)
  | cmd hpc => exact h.within (by rw [hpc]; rfl) (by decide)
  | wake hpc hirq => exact h.within (by rw [hpc]; rfl) (by decide)
  | rw1c hpc => exact h.within (by rw [hpc]; rfl) (by decide)
  | retry hpc hnot => exact h.within (by rw [hpc]; rfl) (by decide)
  | retired hpc hnot => exact h.within (by rw [hpc]; rfl) (by decide)
  | copy hpc => exact h.copy hcount hslots hpc

theorem Matrix.step {a : Act} (h : Matrix p s) (hcount : Counting p s) (hslots : Slots p b s)
    (hstep : s.step p b.toLayout a = some s') : Matrix p s' := by
  cases a with
  | driver => exact h.driver_step hcount hslots (move_of_step hstep)
  | start =>
    cases move_of_step hstep with
    | start c q hrun hwait => exact ⟨h.rowsDone, h.rowsNow, h.returned⟩
  | store =>
    cases move_of_step hstep with
    | store c k hrun hk => exact ⟨h.rowsDone, h.rowsNow, h.returned⟩
  | complete =>
    cases move_of_step hstep with
    | complete c hrun => exact ⟨h.rowsDone, h.rowsNow, h.returned⟩

/-- The three invariants of a run. -/
theorem invariants_reach {ok : Act → Sys L A → Bool}
    (h : Reach (Sys.step p b.toLayout) ok Init s) :
    Counting p s ∧ Slots p b s ∧ Matrix p s := by
  apply h.invariant (I := fun s => Counting p s ∧ Slots p b s ∧ Matrix p s)
  · intro s hinit
    exact ⟨counting_init hinit, slots_init hinit, matrix_init hinit⟩
  · rintro a s s' ⟨hcount, hslots, hmatrix⟩ _ hstep
    exact ⟨hcount.step hstep, hslots.step hcount hstep, hmatrix.step hcount hslots hstep⟩

end steps

/-! ## Safety of the slots -/

/-- Location `l` holds an operand of command `c`. -/
def ReadsAt (b : Layout L) (c : Cmd A) (l : L) : Prop :=
  (∃ k < 16, l = b.rd (c.wBase.toNat + k)) ∨ ∃ k < c.mRows.toNat * 4, l = b.rd (c.aBase.toNat + k)

theorem Slots.mem_outstanding (h : Slots p b s) {c : Cmd A} (hc : c ∈ s.outstanding) :
    ∃ i, s.done ≤ i ∧ i < s.issued ∧ c = cmdOf p b s.m0 i := by
  rw [h.queue, List.mem_map] at hc
  obtain ⟨i, hi, rfl⟩ := hc
  rw [List.mem_range'_1] at hi
  exact ⟨i, hi.1, by omega, rfl⟩

/-- The slot being filled is not the slot of a command queued or running. -/
theorem Slots.pack_free (h : Slots p b s) (hcount : Counting p s)
    (hpc : s.pc = .packW ∨ s.pc = .packA) {c : Cmd A} (hc : c ∈ s.outstanding) :
    c.wBase ≠ BitVec.ofNat A (b.wBase (slot s.issued)) ∧
      c.aBase ≠ BitVec.ofNat A (b.aBase (slot s.issued)) := by
  have hwindow := hcount.window
  have hissue := hcount.issue_window (hpc.imp_right Or.inl)
  obtain ⟨i, hlow, hhigh, rfl⟩ := h.mem_outstanding hc
  have hne : slot i ≠ slot s.issued := slot_ne hhigh (by omega)
  exact ⟨base_ne b .w hne, base_ne b .a hne⟩

/-- The slot being read is not the slot of a command queued or running. -/
theorem Slots.copy_free (h : Slots p b s) (hcount : Counting p s) (hlt : s.collected < s.done)
    {c : Cmd A} (hc : c ∈ s.outstanding) :
    c.cBase ≠ BitVec.ofNat A (b.cBase (slot s.collected)) := by
  have hwindow := hcount.window
  obtain ⟨i, hlow, hhigh, rfl⟩ := h.mem_outstanding hc
  exact base_ne b .c (slot_ne (by omega) (by omega)).symm

/-- An operand byte of an outstanding command, as a byte of its slot. -/
theorem Slots.readsAt (h : Slots p b s) {c : Cmd A} (hc : c ∈ s.outstanding) {l : L}
    (hl : ReadsAt b.toLayout c l) :
    ∃ i q k, s.done ≤ i ∧ i < s.issued ∧ q ≠ .c ∧ k < Part.size q ∧ l = b.loc q (slot i) k := by
  obtain ⟨i, hlow, hhigh, rfl⟩ := h.mem_outstanding hc
  obtain ⟨q, hq, hwithin⟩ : ∃ q, q ≠ .c ∧ Within b.toLayout q (cmdOf p b s.m0 i) l := by
    rcases hl with hw | ha
    · exact ⟨.w, by decide, hw⟩
    · exact ⟨.a, by decide, ha⟩
  obtain ⟨k, hk, rfl⟩ := within_slot (p.mc_le s.m0) hwithin
  exact ⟨i, q, k, hlow, hhigh, hq, hk, rfl⟩

section steps
variable [DecidableEq L]

/-- No step changes an operand of a command queued or running. -/
theorem Slots.operand_kept (h : Slots p b s) (hcount : Counting p s) {a : Act}
    (hstep : s.step p b.toLayout a = some s') {c : Cmd A} (hc : c ∈ s.outstanding) {l : L}
    (hl : ReadsAt b.toLayout c l) : s'.mem l = s.mem l := by
  have hmc := p.mc_le s.m0
  have hwindow := hcount.window
  obtain ⟨i, q, k, hlow, hhigh, hq, hk, rfl⟩ := h.readsAt hc hl
  cases move_of_step hstep with
  | packW hpc =>
    have hissue := hcount.issue_window (.inl hpc)
    have hsame := sameExcept_writeSpan (b := b) (q := .w) (t := slot s.issued) (g := fun k => k)
      (n := 16) (p.wByte s.issued) s.mem fun j hj => hj
    exact hsame q (slot i) k hk (.inr (slot_ne hhigh (by omega)))
  | packA hpc =>
    have hissue := hcount.issue_window (.inr (.inl hpc))
    have hsame := sameExcept_writeSpan (b := b) (q := .a) (t := slot s.issued) (g := fun k => k)
      (n := p.mc s.m0 * 4) (p.aByte s.m0 s.issued) s.mem
      fun j hj => by simp only [Part.size]; omega
    exact hsame q (slot i) k hk (.inr (slot_ne hhigh (by omega)))
  | store c' k' hrun hk' =>
    obtain ⟨hlt, rfl, -⟩ := h.running hcount hrun
    rw [toNat_mRows] at hk'
    exact storeResult_sameExcept (h.operands s.done le_rfl hlt) hk' q (slot i) k hk (.inl hq)
  | _ => rfl

/-- **Partial correctness of `coproc_matmul_tiled`**, in every interleaving
with the device: no command is dropped; a slot is filled only while no command
queued or running uses it, and no step changes an operand of such a command; a
result is copied after its command has completed, before its slot is used again,
and is the product of its tile; and on return `C` is `A @ W` modulo `2 ^ 32`. -/
theorem coproc_matmul_tiled_correct (p : Problem) (b : Buffers L A) {s : Sys L A}
    (h : Reach (Sys.step p b.toLayout) always Init s) :
    (s.pc = .cmd → (s.port.regWrite offCmd 1).waiting = s.port.waiting ++ [s.port.held]) ∧
    ((s.pc = .packW ∨ s.pc = .packA → ∀ c ∈ s.outstanding,
        c.wBase ≠ BitVec.ofNat A (b.wBase (slot s.issued)) ∧
          c.aBase ≠ BitVec.ofNat A (b.aBase (slot s.issued))) ∧
      ∀ a s', s.step p b.toLayout a = some s' → ∀ c ∈ s.outstanding, ∀ l,
        ReadsAt b.toLayout c l → s'.mem l = s.mem l) ∧
    (s.pc = .copy →
      s.collected < s.done ∧
      s.outstanding = (List.range' s.done (s.issued - s.done)).map (cmdOf p b s.m0) ∧
      (∀ c ∈ s.outstanding, c.cBase ≠ BitVec.ofNat A (b.cBase (slot s.collected))) ∧
      ∀ k < p.mc s.m0, ∀ j < 4, ctBuf b.toLayout s.mem (slot s.collected) (k * 4 + j) =
        p.tileRow s.m0 s.collected k (Fin.ofNat 4 j)) ∧
    (s.pc = .ret → ∀ m < p.M, ∀ n < p.N, s.C (m * p.N + n) =
      BitVec.ofInt 32 (∑ k ∈ range p.K, (p.a (m * p.K + k)).toInt * (p.w (k * p.N + n)).toInt)) := by
  obtain ⟨hcount, hslots, hmatrix⟩ := invariants_reach h
  refine ⟨?_, ⟨?_, ?_⟩, ?_, ?_⟩
  · intro hpc
    rw [Port.regWrite_cmd _ (hcount.room hpc)]
  · intro hpc c hc
    exact hslots.pack_free hcount hpc hc
  · intro a s' hstep c hc l hl
    exact hslots.operand_kept hcount hstep hc hl
  · intro hpc
    -- the interrupt taken for this result vouches for its completion
    have hcollected := hcount.collected
    simp only [Sys.credit, hpc] at hcollected
    have hlt : s.collected < s.done := by omega
    refine ⟨hlt, hslots.queue, fun c hc => hslots.copy_free hcount hlt hc, ?_⟩
    intro k hk j hj
    exact ctBuf_stored (hslots.results s.collected le_rfl hlt) hk hj
  · intro hpc m hm n hn
    exact hmatrix.product hpc hm hn

end steps

/-- The two tiles of `demoProblem`: the driver returns with
`C[0][2] = sum_k k * (4 * k + 2)`. -/
theorem coproc_matmul_tiled_correct_demo :
    ∃ s : Sys (ℕ ⊕ ℕ) 32, Reach (Sys.step demoProblem demoBuffers.toLayout) always Init s ∧
      s.pc = .ret ∧ s.C 2 = 616 := by
  have hrun : ((exec (Sys.step demoProblem demoBuffers.toLayout) always
      (demoIssue ++ demoRetire ++ demoCollect ++ [.driver] ++ demoRetire ++ demoCollect ++
        List.replicate 2 .driver) demoStart).map fun s => s.pc) = some .ret := by decide +kernel
  obtain ⟨s, hexec, hpc⟩ := Option.map_eq_some_iff.mp hrun
  have hreach := (Reach.start demoStart_init).exec hexec
  have hmain := (coproc_matmul_tiled_correct demoProblem demoBuffers hreach).2.2.2 hpc 0 (by decide)
    2 (by decide)
  refine ⟨s, hreach, hpc, ?_⟩
  rw [show (0 * demoProblem.N + 2) = 2 from rfl] at hmain
  rw [hmain]
  decide

end CoprocDriver
