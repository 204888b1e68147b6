import TensorAccel.Driver.Counting
import TensorAccel.Driver.Regions
import TensorAccel.Driver.Tiles

/-! # Queue slots

    The commands outstanding are those of the tiles `done, ..., issued - 1`,
    their operands lie packed in their slots, and the results of the tiles
    `collected, ..., done - 1` lie in theirs (`Slots`).  All these tiles are
    among four consecutive ones, so no two of them share a slot. -/

open StreamCtrl CmdQueueRegs ActionSystem Span

namespace CoprocDriver

variable {L : Type _} {A : ℕ} {p : Problem} {b : Buffers L A} {s s' : Sys L A}

/-! ## Windows of four tiles -/

/-- Tiles not collected yet are at most four. -/
theorem Counting.window (h : Counting p s) :
    s.collected ≤ s.done ∧ s.done ≤ s.issued ∧ s.issued ≤ s.collected + 4 := by
  obtain ⟨hissued, hcollected, hpaced, -⟩ := h
  refine ⟨by omega, by omega, ?_⟩
  unfold Sys.Paced at hpaced
  cases hpc : s.pc <;> simp only [hpc] at hpaced <;> omega

/-! ## Slot contents -/

/-- The command of tile `i` of the chunk at row `m0`. -/
def cmdOf (p : Problem) (b : Buffers L A) (m0 i : ℕ) : Cmd A :=
  slotCmd b.toLayout A (slot i) (p.mc m0)

/-- The operands of tile `i` lie in its slot. -/
def Packed (p : Problem) (b : Buffers L A) (m0 i : ℕ) (mem : L → BitVec 8) : Prop :=
  Operands b (slot i) (p.mc m0) (p.wByte i) (p.aByte m0 i) mem

/-- The first `r` result rows of tile `i` lie in its slot. -/
def Stored (p : Problem) (b : Buffers L A) (m0 i r : ℕ) (mem : L → BitVec 8) : Prop :=
  Rows b (slot i) r (p.tileRow m0 i) mem

section contents
variable {m0 i r : ℕ} {mem mem' : L → BitVec 8} {q : Part} {t : Fin 4}

theorem toNat_mRows (p : Problem) (b : Buffers L A) (m0 i : ℕ) :
    (cmdOf p b m0 i).mRows.toNat = p.mc m0 :=
  toNat_slotRows b.toLayout A (slot i) (p.mc_le m0)

theorem Packed.frame (h : Packed p b m0 i mem) (hsame : SameExcept b q t mem mem')
    (hne : q = .c ∨ slot i ≠ t) : Packed p b m0 i mem' :=
  Operands.frame h (p.mc_le m0) hsame hne

theorem Stored.frame (h : Stored p b m0 i r mem) (hr : r ≤ p.mc m0)
    (hsame : SameExcept b q t mem mem') (hne : q ≠ .c ∨ slot i ≠ t) : Stored p b m0 i r mem' :=
  Rows.frame h (hr.trans (p.mc_le m0)) hsame hne

/-! ## The datapath at work -/

/-- The bytes of a packed tile make its rows. -/
theorem slotRow_packed (p : Problem) (m0 i k : ℕ) :
    slotRow (p.wByte i) (p.aByte m0 i) k = p.tileRow m0 i k := by
  unfold slotRow Problem.tileRow Problem.wByte Problem.aByte
  congr 1
  · funext r c
    have hc := c.isLt
    rw [show (4 * r.val + c.val) / 4 = r by omega, show (4 * r.val + c.val) % 4 = c by omega]
  · funext j
    have hj := j.isLt
    rw [show (4 * k + j.val) / 4 = k by omega, show (4 * k + j.val) % 4 = j by omega]

section store
variable [DecidableEq L]

theorem storeResult_sameExcept (h : Packed p b m0 i mem) {k : ℕ} (hk : k < p.mc m0) :
    SameExcept b .c (slot i) mem (storeResult b.toLayout (cmdOf p b m0 i) k mem) :=
  Operands.storeResult_sameExcept h (p.mc_le m0) hk

/-- Storing the next row. -/
theorem Stored.next (h : Packed p b m0 i mem) {k : ℕ} (hk : k < p.mc m0)
    (hstored : Stored p b m0 i k mem) :
    Stored p b m0 i (k + 1) (storeResult b.toLayout (cmdOf p b m0 i) k mem) := by
  have hrows := Rows.congr hstored
    fun k _ => (slotRow_packed p m0 i k).symm
  have hnext := Rows.next h (p.mc_le m0) hk hrows
  exact hnext.congr fun k _ => slotRow_packed p m0 i k

end store

/-- `ct_buf` holds the rows that the datapath stored. -/
theorem ctBuf_stored (h : Stored p b m0 i (p.mc m0) mem) {k j : ℕ} (hk : k < p.mc m0) (hj : j < 4) :
    ctBuf b.toLayout mem (slot i) (k * 4 + j) = p.tileRow m0 i k (Fin.ofNat 4 j) :=
  Rows.ctBuf h hk hj

end contents

/-! ## Invariant -/

/-- How far `coproc_issue_tile` has got. -/
def Sys.Issuing (p : Problem) (b : Buffers L A) (s : Sys L A) : Prop :=
  match s.pc with
  | .packA => ∀ k < 16, s.mem (b.loc .w (slot s.issued) k) = p.wByte s.issued k
  | .hold r => Packed p b s.m0 s.issued s.mem ∧ HeldUpTo (cmdOf p b s.m0 s.issued) s.port.held r
  | .cmd => Packed p b s.m0 s.issued s.mem ∧ s.port.held = cmdOf p b s.m0 s.issued
  | _ => True

structure Slots (p : Problem) (b : Buffers L A) (s : Sys L A) : Prop where
  queue : s.outstanding =
    (List.range' s.done (s.issued - s.done)).map (cmdOf p b s.m0)
  operands : ∀ i, s.done ≤ i → i < s.issued → Packed p b s.m0 i s.mem
  results : ∀ i, s.collected ≤ i → i < s.done → Stored p b s.m0 i (p.mc s.m0) s.mem
  stored : ∀ c k, s.running = some (c, k) → k ≤ p.mc s.m0 ∧ Stored p b s.m0 s.done k s.mem
  issuing : s.Issuing p b

theorem slots_init (h : Init s) : Slots p b s := by
  constructor
  · simp [Sys.outstanding, h.waiting, h.running, h.issued, h.done]
  · intro i _ hi
    rw [h.issued] at hi
    exact absurd hi (Nat.not_lt_zero i)
  · intro i _ hi
    rw [h.done] at hi
    exact absurd hi (Nat.not_lt_zero i)
  · intro c k hrun
    rw [h.running] at hrun
    cases hrun
  · simp [Sys.Issuing, h.pc]

/-- The running command is that of tile `done`. -/
theorem Slots.running (h : Slots p b s) (hcount : Counting p s) {c : Cmd A} {k : ℕ}
    (hrun : s.running = some (c, k)) :
    s.done < s.issued ∧ c = cmdOf p b s.m0 s.done ∧
      s.port.waiting = (List.range' (s.done + 1) (s.issued - (s.done + 1))).map (cmdOf p b s.m0) := by
  have hissued := hcount.issued
  have hqueue := h.queue
  simp only [Sys.outstanding, hrun, Option.map_some, Option.toList_some, List.singleton_append,
    List.length_cons] at hissued hqueue
  have hlt : s.done < s.issued := by omega
  rw [show s.issued - s.done = s.issued - (s.done + 1) + 1 by omega, List.range'_succ,
    List.map_cons] at hqueue
  exact ⟨hlt, (List.cons.inj hqueue).1, (List.cons.inj hqueue).2⟩

/-- With every result collected there is nothing to hold of any slot. -/
theorem slots_drained (hout : s.outstanding = []) (hdone : s.done = s.issued)
    (hcollected : s.done ≤ s.collected) (hpc : s.Issuing p b) : Slots p b s := by
  refine ⟨?_, fun i h1 h2 => by omega, fun i h1 h2 => by omega, ?_, hpc⟩
  · rw [hout, hdone, Nat.sub_self]
    rfl
  · intro c k hrun
    simp [Sys.outstanding, hrun] at hout

/-- A step that changes no memory, no queue and no count. -/
theorem Slots.goto (h : Slots p b s) {pc : Pc} (hpc : Sys.Issuing p b { s with pc := pc }) :
    Slots p b { s with pc := pc } :=
  ⟨h.queue, h.operands, h.results, h.stored, hpc⟩

/-- The driver writes operands into the slot of the tile it is issuing. -/
theorem Slots.pack (h : Slots p b s) (hcount : Counting p s) {q : Part} {mem : L → BitVec 8}
    {pc : Pc} (hq : q ≠ .c) (hsame : SameExcept b q (slot s.issued) s.mem mem)
    (hnear : s.issued < s.collected + 4) (hpc : Sys.Issuing p b { s with mem := mem, pc := pc }) :
    Slots p b { s with mem := mem, pc := pc } := by
  have hwindow := hcount.window
  constructor
  · exact h.queue
  · intro i h1 h2
    dsimp only at h1 h2
    -- an outstanding tile is less than four before the one that is being issued
    exact (h.operands i h1 h2).frame hsame (.inr (slot_ne h2 (by omega)))
  · intro i h1 h2
    exact (h.results i h1 h2).frame le_rfl hsame (.inl hq)
  · intro c k hrun
    obtain ⟨hk, hstored⟩ := h.stored c k hrun
    exact ⟨hk, hstored.frame hk hsame (.inl hq)⟩
  · exact hpc

/-- The command that is issued takes the next place in the queue. -/
theorem Slots.enqueue (h : Slots p b s) (hcount : Counting p s) {port : Port A}
    (hpacked : Packed p b s.m0 s.issued s.mem)
    (hport : port.waiting = s.port.waiting ++ [cmdOf p b s.m0 s.issued]) :
    Slots p b { s with port := port, issued := s.issued + 1, pc := .loop } := by
  have hwindow := hcount.window
  refine ⟨?_, ?_, h.results, h.stored, trivial⟩
  · have hqueue := h.queue
    simp only [Sys.outstanding] at hqueue ⊢
    rw [hport, ← List.append_assoc, hqueue, show s.issued + 1 - s.done = s.issued - s.done + 1 by omega,
      List.range'_1_concat, List.map_append, show s.done + (s.issued - s.done) = s.issued by omega]
    rfl
  · intro i h1 h2
    dsimp only at h1 h2
    rcases Nat.lt_succ_iff_lt_or_eq.mp h2 with hlt | rfl
    · exact h.operands i h1 hlt
    · exact hpacked

/-- The datapath takes the oldest command. -/
theorem Slots.start (h : Slots p b s) {c : Cmd A} {q : List (Cmd A)} (hrun : s.running = none)
    (hwait : s.port.waiting = c :: q) :
    Slots p b { s with running := some (c, 0), port := s.port.pop } := by
  refine ⟨?_, h.operands, h.results, ?_, ?_⟩
  · rw [← h.queue]
    simp [Sys.outstanding, hrun, hwait, Port.pop]
  · intro c' k hc
    obtain ⟨rfl, rfl⟩ := Prod.mk.inj (Option.some.inj hc)
    exact ⟨Nat.zero_le _, fun k hk => absurd hk (Nat.not_lt_zero k)⟩
  · have := h.issuing
    unfold Sys.Issuing at *
    cases hpc : s.pc <;> simp only [hpc, Port.pop] at this ⊢ <;> exact this

/-- The running command completes: its result slot is full. -/
theorem Slots.complete (h : Slots p b s) (hcount : Counting p s) {c : Cmd A}
    (hrun : s.running = some (c, c.mRows.toNat)) :
    Slots p b { s with running := none, port := s.port.retire, done := s.done + 1 } := by
  obtain ⟨hlt, rfl, hwait⟩ := h.running hcount hrun
  have hstored := (h.stored _ _ hrun).2
  rw [toNat_mRows] at hstored
  constructor
  · exact hwait
  · intro i h1 h2
    dsimp only at h1
    exact h.operands i (by omega) h2
  · intro i h1 h2
    rcases Nat.lt_succ_iff_lt_or_eq.mp h2 with hlt | rfl
    · exact h.results i h1 hlt
    · exact hstored
  · intro c k hc
    cases hc
  · have := h.issuing
    unfold Sys.Issuing at *
    cases hpc : s.pc <;> simp only [hpc, Port.retire] at this ⊢ <;> exact this

section steps
variable [DecidableEq L]

/-- The datapath stores a result row. -/
theorem Slots.store (h : Slots p b s) (hcount : Counting p s) {c : Cmd A} {k : ℕ}
    (hrun : s.running = some (c, k)) (hk : k < c.mRows.toNat) :
    Slots p b { s with mem := storeResult b.toLayout c k s.mem, running := some (c, k + 1) } := by
  have hwindow := hcount.window
  obtain ⟨hlt, rfl, hwait⟩ := h.running hcount hrun
  rw [toNat_mRows] at hk
  have hpacked := h.operands s.done le_rfl hlt
  have hsame := storeResult_sameExcept hpacked hk
  constructor
  · rw [← h.queue]
    simp [Sys.outstanding, hrun]
  · intro i h1 h2
    exact (h.operands i h1 h2).frame hsame (.inl rfl)
  · intro i h1 h2
    dsimp only at h1 h2
    -- a result not collected yet is less than four before the running tile
    exact (h.results i h1 h2).frame le_rfl hsame (.inr (slot_ne h2 (by omega)))
  · intro c' k' hc
    obtain ⟨rfl, rfl⟩ := Prod.mk.inj (Option.some.inj hc)
    exact ⟨hk, (h.stored _ _ hrun).2.next hpacked hk⟩
  · -- results do not disturb the operands of the tile that is being issued
    have hissuing := h.issuing
    unfold Sys.Issuing at *
    cases hpc : s.pc <;> simp only [hpc] at hissuing ⊢
    · intro j hj
      rw [hsame .w (slot s.issued) j hj (.inl (by decide)), hissuing j hj]
    · exact ⟨hissuing.1.frame hsame (.inl rfl), hissuing.2⟩
    · exact ⟨hissuing.1.frame hsame (.inl rfl), hissuing.2⟩

theorem Slots.driver_step (h : Slots p b s) (hcount : Counting p s)
    (hmove : Move p b.toLayout s .driver s') : Slots p b s' := by
  have hmc := p.mc_le s.m0
  have hwindow := hcount.window
  have hpaced := hcount.paced
  have hissuing := h.issuing
  cases hmove with
  | clear hpc =>
    rw [Port.regWrite_irq]
    exact ⟨h.queue, h.operands, h.results, h.stored, trivial⟩
  | chunk hpc hm =>
    simp only [Sys.Paced, hpc] at hpaced
    -- the counts are set back to zero with nothing outstanding
    have hdrained := hcount.drained hpaced
    exact slots_drained hdrained.1 rfl le_rfl trivial
  | finish hpc hm => exact h.goto trivial
  | issue hpc hc hi => exact h.goto trivial
  | await hpc hc hi => exact h.goto trivial
  | nextChunk hpc hc =>
    simp only [Sys.Paced, hpc] at hpaced
    have hdrained := hcount.drained (by omega)
    exact slots_drained hdrained.1 hdrained.2 (by dsimp only; omega) trivial
  | packW hpc =>
    simp only [Sys.Paced, hpc] at hpaced
    apply h.pack hcount (q := .w) (by decide) _ hpaced.2
    · intro k hk
      exact writeSpan_region (q := .w) _ _ le_rfl hk
    · exact sameExcept_writeSpan (q := .w) (g := fun k => k) _ _ fun j hj => hj
  | packA hpc =>
    simp only [Sys.Paced, hpc] at hpaced
    simp only [Sys.Issuing, hpc] at hissuing
    have hsize : p.mc s.m0 * 4 ≤ Part.size .a := by
      simp only [Part.size]
      omega
    have hsame : SameExcept b .a (slot s.issued) s.mem
        (writeSpan (fun k => b.rd (b.aBase (slot s.issued) + k)) (p.aByte s.m0 s.issued)
          (p.mc s.m0 * 4) s.mem) :=
      sameExcept_writeSpan (q := .a) (g := fun k => k) _ _ fun j hj => hj.trans_le hsize
    apply h.pack hcount (q := .a) (by decide) hsame hpaced.2
    refine ⟨⟨?_, ?_⟩, trivial⟩
    · intro k hk
      rw [← hissuing k hk]
      exact hsame .w (slot s.issued) k hk (.inl (by decide))
    · intro k hk
      exact writeSpan_region (q := .a) _ _ hsize hk
  | hold r hpc =>
    simp only [Sys.Issuing, hpc] at hissuing
    rw [regWrite_off]
    have hnext := hissuing.2.store
    refine ⟨h.queue, h.operands, h.results, h.stored, ?_⟩
    cases r <;> exact ⟨hissuing.1, hnext⟩
  | cmd hpc =>
    simp only [Sys.Issuing, hpc] at hissuing
    rw [Port.regWrite_cmd _ (hcount.room hpc)]
    exact h.enqueue hcount hissuing.1 (by rw [hissuing.2])
  | wake hpc hirq => exact h.goto trivial
  | rw1c hpc =>
    rw [Port.regWrite_irq]
    exact ⟨h.queue, h.operands, h.results, h.stored, trivial⟩
  | retry hpc hnot => exact h.goto trivial
  | retired hpc hnot => exact h.goto trivial
  | copy hpc =>
    refine ⟨h.queue, h.operands, ?_, h.stored, trivial⟩
    intro i h1 h2
    dsimp only at h1
    exact h.results i (by omega) h2

theorem Slots.step {a : Act} (h : Slots p b s) (hcount : Counting p s)
    (hstep : s.step p b.toLayout a = some s') : Slots p b s' := by
  cases a with
  | driver => exact h.driver_step hcount (move_of_step hstep)
  | start =>
    cases move_of_step hstep with
    | start c q hrun hwait => exact h.start hrun hwait
  | store =>
    cases move_of_step hstep with
    | store c k hrun hk => exact h.store hcount hrun hk
  | complete =>
    cases move_of_step hstep with
    | complete c hrun => exact h.complete hcount hrun

end steps

end CoprocDriver
