import TensorAccel.Framework.Reach
import TensorAccel.Sched.CoprocBackend

/-! # Batches in flight

    The commands outstanding are those of the slots `done, ..., issued - 1` of
    the batch.  Their operands lie in their slots, and the results of the slots
    before `done` lie in theirs until the batch is over (`Slots`).  Nothing is
    outstanding between two batches, so that slots may be used again. -/

open StreamCtrl CmdQueueRegs Span NdArray CoprocDriver

namespace CoprocBackend

variable {s s' : Sys}

/-! ## Slots of a batch -/

namespace Sys

/-- Commands of the batch that were issued. -/
def issued (s : Sys) : ℕ :=
  match s.pc with
  | .call | .batch => 0
  | .poll | .copy => s.batch.length
  | _ => s.slot

/-- The command of slot `t`. -/
def cmdOf (s : Sys) (t : ℕ) : Cmd 32 := slotCmd hostLayout 32 (CoprocDriver.slot t) (s.chunk t).2

/-- The operands of slot `t` lie in it. -/
def Packed (s : Sys) (t : ℕ) (mem : ℕ ⊕ ℕ → BitVec 8) : Prop :=
  Operands hostBuffers (CoprocDriver.slot t) (s.chunk t).2 s.call.wBytes (s.call.aBytes (s.chunk t).1) mem

/-- Row `k` of the result of slot `t`. -/
def rowOf (s : Sys) (t k : ℕ) : Lanes32 4 := slotRow s.call.wBytes (s.call.aBytes (s.chunk t).1) k

/-- The first `r` result rows of slot `t` lie in it. -/
def Stored (s : Sys) (t r : ℕ) (mem : ℕ ⊕ ℕ → BitVec 8) : Prop :=
  Rows hostBuffers (CoprocDriver.slot t) r (s.rowOf t) mem

/-- Where the loops over the slots are. -/
def Placed (s : Sys) : Prop :=
  match s.pc with
  | .call | .batch => True
  | .enum => s.i < s.chunks.length ∧ s.slot ≤ s.batch.length
  | .poll => s.i < s.chunks.length
  | .copy => s.i < s.chunks.length ∧ s.slot ≤ s.batch.length ∧ s.done = s.batch.length
  | _ => s.i < s.chunks.length ∧ s.slot < s.batch.length

/-- How far the command of the current slot has got. -/
def Issuing (s : Sys) : Prop :=
  match s.pc with
  | .packA => ∀ k < 16, s.mem (hostBuffers.loc .w (CoprocDriver.slot s.slot) k) = s.call.wBytes k
  | .hold r => s.Packed s.slot s.mem ∧ HeldUpTo (s.cmdOf s.slot) s.port.held r
  | .cmd => s.Packed s.slot s.mem ∧ s.port.held = s.cmdOf s.slot
  | _ => True

end Sys

structure Slots (s : Sys) : Prop where
  chunks : s.pc ≠ .call → s.chunks = chunksOf s.call.M
  placed : s.Placed
  le : s.done ≤ s.issued
  queue : s.outstanding = (List.range' s.done (s.issued - s.done)).map s.cmdOf
  operands : ∀ t, s.done ≤ t → t < s.issued → s.Packed t s.mem
  results : ∀ t < s.done, s.Stored t (s.chunk t).2 s.mem
  stored : ∀ c k, s.running = some (c, k) → k ≤ (s.chunk s.done).2 ∧ s.Stored s.done k s.mem
  issuing : s.Issuing

/-- With nothing outstanding there is nothing to hold of any slot. -/
theorem slots_empty (hchunks : s.pc ≠ .call → s.chunks = chunksOf s.call.M) (hplaced : s.Placed)
    (hdone : s.done = 0) (hissued : s.issued = 0) (hout : s.outstanding = []) (hissuing : s.Issuing) :
    Slots s := by
  refine ⟨hchunks, hplaced, by omega, ?_, fun t _ ht => by omega, fun t ht => by omega, ?_, hissuing⟩
  · rw [hout, hissued, Nat.zero_sub]
    rfl
  · intro c k hrun
    simp [Sys.outstanding, hrun] at hout

theorem slots_init {calls : List Call} (h : Init calls s) : Slots s := by
  apply slots_empty
  · intro hpc
    exact absurd h.pc hpc
  · simp [Sys.Placed, h.pc]
  · exact h.done
  · simp [Sys.issued, h.pc]
  · simp [Sys.outstanding, h.waiting, h.running]
  · simp [Sys.Issuing, h.pc]

theorem slot_val {t : ℕ} (h : t < 4) : (slot t).val = t := by
  rw [slot, Fin.val_ofNat]
  exact Nat.mod_eq_of_lt h

theorem slots_differ {t u : ℕ} (ht : t < 4) (hu : u < 4) (hne : t ≠ u) : slot t ≠ slot u := by
  intro heq
  apply hne
  rw [← slot_val ht, heq, slot_val hu]

theorem wBase_slot {t : ℕ} (h : t < 4) : hostBuffers.wBase (slot t) = wBase t := congrArg wBase (slot_val h)

theorem aBase_slot {t : ℕ} (h : t < 4) : hostBuffers.aBase (slot t) = aBase t := congrArg aBase (slot_val h)

theorem rows_fit {rows : ℕ} (h : rows ≤ 1024) : rows * 4 ≤ Part.size .a := by
  simp only [Part.size]
  omega

/-- The weights go to the weight region of the current slot. -/
theorem sameExcept_packW (s : Sys) (hslot : s.slot < 4) :
    SameExcept hostBuffers .w (slot s.slot) s.mem
      (writeSpan (fun k => .inl (wBase s.slot + k)) s.call.wBytes 16 s.mem) := by
  rw [← wBase_slot hslot]
  exact sameExcept_writeSpan (b := hostBuffers) (q := .w) (g := fun k => k) _ _ fun j hj => hj

/-- The activations go to its activation region. -/
theorem sameExcept_packA (s : Sys) (hslot : s.slot < 4) (hrows : (s.chunk s.slot).2 ≤ 1024) :
    SameExcept hostBuffers .a (slot s.slot) s.mem
      (writeSpan (fun k => .inl (aBase s.slot + k)) (s.call.aBytes (s.chunk s.slot).1)
        ((s.chunk s.slot).2 * 4) s.mem) := by
  rw [← aBase_slot hslot]
  exact sameExcept_writeSpan (b := hostBuffers) (q := .a) (g := fun k => k) _ _
    fun j hj => hj.trans_le (rows_fit hrows)

/-! ## Facts of a batch -/

section facts

theorem Slots.issued_le (h : Slots s) : s.issued ≤ s.batch.length := by
  have hplaced := h.placed
  unfold Sys.Placed at hplaced
  unfold Sys.issued
  cases hpc : s.pc <;> simp only [hpc] at hplaced ⊢ <;> omega

theorem Slots.active (h : Slots s) {t : ℕ} (ht : t < s.issued) : s.chunks = chunksOf s.call.M := by
  apply h.chunks
  intro hpc
  simp [Sys.issued, hpc] at ht

/-- Chunks of a batch have at most `MAX_ROWS` rows. -/
theorem Slots.rows_le (h : Slots s) {t : ℕ} (ht : t < s.issued) : (s.chunk t).2 ≤ 1024 :=
  chunk_rows_le (h.active ht) (ht.trans_le h.issued_le)

/-- The running command is that of slot `done`. -/
theorem Slots.running (h : Slots s) {c : Cmd 32} {k : ℕ} (hrun : s.running = some (c, k)) :
    s.done < s.issued ∧ c = s.cmdOf s.done ∧
      s.port.waiting = (List.range' (s.done + 1) (s.issued - (s.done + 1))).map s.cmdOf := by
  have hqueue := h.queue
  simp only [Sys.outstanding, hrun, Option.map_some, Option.toList_some, List.singleton_append] at hqueue
  have hlt : s.done < s.issued := by
    by_contra hge
    rw [Nat.sub_eq_zero_of_le (Nat.le_of_not_lt hge)] at hqueue
    cases hqueue
  rw [show s.issued - s.done = s.issued - (s.done + 1) + 1 by omega, List.range'_succ,
    List.map_cons] at hqueue
  exact ⟨hlt, (List.cons.inj hqueue).1, (List.cons.inj hqueue).2⟩

/-- An idle device has finished the batch. -/
theorem Slots.drained (h : Slots s) (hout : s.outstanding = []) : s.done = s.issued := by
  have hlen := congrArg List.length h.queue
  rw [hout, List.length_map, List.length_range'] at hlen
  have hle := h.le
  simp only [List.length_nil] at hlen
  omega

/-- Between two batches nothing is in flight. -/
theorem Slots.between (h : Slots s) (hissued : s.issued = 0) : s.done = 0 ∧ s.outstanding = [] := by
  have hle := h.le
  refine ⟨by omega, ?_⟩
  rw [h.queue, hissued, Nat.zero_sub]
  rfl

theorem outstanding_of_idle (h : s.idle = true) : s.outstanding = [] := by
  simp only [Sys.idle, Bool.and_eq_true, List.isEmpty_iff, Option.isNone_iff_eq_none] at h
  simp [Sys.outstanding, h.1, h.2]

/-- There is room in the queue for the command of the current slot. -/
theorem Slots.room (h : Slots s) (hpc : s.pc = .cmd) : s.port.waiting.length < 4 := by
  have hplaced := h.placed
  have hqueue := congrArg List.length h.queue
  have hfour := length_batch_le s
  simp only [Sys.Placed, hpc] at hplaced
  simp only [Sys.outstanding, Sys.issued, hpc, List.length_append, List.length_map,
    List.length_range'] at hqueue
  omega

end facts

/-! ## Steps -/

/-- A step of the host that changes no memory, no queue and no slot. -/
theorem Slots.goto (h : Slots s) {port : Port 32} {pc : Pc} (hcall : s.pc ≠ .call)
    (hwait : port.waiting = s.port.waiting)
    (hissued : Sys.issued { s with port := port, pc := pc } = s.issued)
    (hplaced : Sys.Placed { s with port := port, pc := pc })
    (hissuing : Sys.Issuing { s with port := port, pc := pc }) : Slots { s with port := port, pc := pc } := by
  have hout : Sys.outstanding { s with port := port, pc := pc } = s.outstanding := by
    simp only [Sys.outstanding, hwait]
  refine ⟨fun _ => h.chunks hcall, hplaced, ?_, ?_, ?_, h.results, h.stored, hissuing⟩
  · rw [hissued]
    exact h.le
  · rw [hissued, hout]
    exact h.queue
  · rw [hissued]
    exact h.operands

/-- A step of the loop that reads the results back. -/
theorem Slots.collect (h : Slots s) {slot : ℕ} {Ct : NdArray (BitVec 32)} (hcall : s.pc ≠ .call)
    (hissued : s.issued = s.batch.length)
    (hplaced : s.i < s.chunks.length ∧ slot ≤ s.batch.length ∧ s.done = s.batch.length) :
    Slots { s with Ct := Ct, slot := slot, pc := .copy } := by
  have hle := h.le
  have hqueue := h.queue
  have hoperands := h.operands
  rw [hissued] at hle hqueue hoperands
  exact ⟨fun _ => h.chunks hcall, hplaced, hle, hqueue, hoperands, h.results, h.stored, trivial⟩

/-- The host writes operands into the slot of the command it is about to issue. -/
theorem Slots.pack (h : Slots s) {q : Part} {mem : ℕ ⊕ ℕ → BitVec 8} {pc : Pc} (hcall : s.pc ≠ .call)
    (hq : q ≠ .c) (hsame : SameExcept hostBuffers q (slot s.slot) s.mem mem)
    (hnow : s.issued = s.slot) (hslot : s.slot < s.batch.length)
    (hissued : Sys.issued { s with mem := mem, pc := pc } = s.slot)
    (hplaced : Sys.Placed { s with mem := mem, pc := pc })
    (hissuing : Sys.Issuing { s with mem := mem, pc := pc }) : Slots { s with mem := mem, pc := pc } := by
  have hfour := length_batch_le s
  have hle := h.le
  refine ⟨fun _ => h.chunks hcall, hplaced, ?_, ?_, ?_, ?_, ?_, hissuing⟩
  · rw [hissued, ← hnow]
    exact h.le
  · rw [hissued, ← hnow]
    exact h.queue
  · rw [hissued, ← hnow]
    intro t h1 h2
    exact (h.operands t h1 h2).frame (h.rows_le h2) hsame
      (.inr (slots_differ (by omega) (by omega) (by omega)))
  · intro t ht
    exact (h.results t ht).frame (h.rows_le (by dsimp only at ht; omega)) hsame (.inl hq)
  · intro c k hrun
    obtain ⟨hk, hstored⟩ := h.stored c k hrun
    exact ⟨hk, hstored.frame (hk.trans (h.rows_le (h.running hrun).1)) hsame (.inl hq)⟩

/-- The weights of the tile go into the slot. -/
theorem Slots.packW (h : Slots s) (hpc : s.pc = .packW) :
    Slots { s with mem := writeSpan (fun k => .inl (wBase s.slot + k)) s.call.wBytes 16 s.mem
                   pc := .packA } := by
  have hlen := length_batch_le s
  have hplaced := h.placed
  simp only [Sys.Placed, hpc] at hplaced
  have hfour : s.slot < 4 := by omega
  refine h.pack (q := .w) (by simp [hpc]) (by decide) (sameExcept_packW s hfour) (by simp [Sys.issued, hpc])
    hplaced.2 rfl hplaced ?_
  intro k hk
  rw [← wBase_slot hfour]
  exact writeSpan_region (b := hostBuffers) (q := .w) _ _ le_rfl hk

/-- The activations of the chunk go behind them. -/
theorem Slots.packA (h : Slots s) (hpc : s.pc = .packA) :
    Slots { s with mem := writeSpan (fun k => .inl (aBase s.slot + k))
                            (s.call.aBytes (s.chunk s.slot).1) ((s.chunk s.slot).2 * 4) s.mem
                   pc := .hold .w } := by
  have hlen := length_batch_le s
  have hplaced := h.placed
  have hissuing := h.issuing
  simp only [Sys.Placed, hpc] at hplaced
  simp only [Sys.Issuing, hpc] at hissuing
  have hrows : (s.chunk s.slot).2 ≤ 1024 := chunk_rows_le (h.chunks (by simp [hpc])) hplaced.2
  have hfour : s.slot < 4 := by omega
  have hsame := sameExcept_packA s hfour hrows
  refine h.pack (q := .a) (by simp [hpc]) (by decide) hsame (by simp [Sys.issued, hpc]) hplaced.2 rfl
    hplaced ⟨⟨?_, ?_⟩, trivial⟩
  · -- the weights are out of reach of these stores
    intro k hk
    rw [← hissuing k hk]
    exact hsame .w (slot s.slot) k hk (.inl (by decide))
  · intro k hk
    rw [← aBase_slot hfour]
    exact writeSpan_region (b := hostBuffers) (q := .a) _ _ (rows_fit hrows) hk

/-- A holding register takes its value for the current slot. -/
theorem Slots.hold (h : Slots s) {r : Reg} (hpc : s.pc = .hold r) :
    Slots { s with port := s.port.regWrite r.off (regValue s.slot (s.chunk s.slot).2 r)
                   pc := nextHold r } := by
  have hlen := length_batch_le s
  have hplaced := h.placed
  have hissuing := h.issuing
  simp only [Sys.Placed, hpc] at hplaced
  simp only [Sys.Issuing, hpc] at hissuing
  have hvalue : regValue s.slot (s.chunk s.slot).2 r =
      slotValue hostLayout (slot s.slot) (s.chunk s.slot).2 r := by
    cases r <;> simp only [regValue, slotValue, hostLayout, slot_val (show s.slot < 4 by omega)]
  have hnext := HeldUpTo.store (b := hostBuffers) hissuing.2
  rw [regWrite_off, hvalue]
  cases r
  all_goals
    refine h.goto (by simp [hpc]) rfl ?_ hplaced ⟨hissuing.1, hnext⟩
    simp only [Sys.issued, hpc, nextHold]

/-- The command joins those outstanding. -/
theorem Slots.enqueue (h : Slots s) (hpc : s.pc = .cmd) :
    Slots { s with port := s.port.regWrite offCmd 1, nCommands := s.nCommands + 1,
                   slot := s.slot + 1, pc := .enum } := by
  have hplaced := h.placed
  have hissuing := h.issuing
  have hle := h.le
  have hissued : s.issued = s.slot := by simp [Sys.issued, hpc]
  simp only [Sys.Placed, hpc] at hplaced
  simp only [Sys.Issuing, hpc] at hissuing
  rw [Port.regWrite_cmd _ (h.room hpc)]
  refine ⟨fun _ => h.chunks (by simp [hpc]), ⟨hplaced.1, hplaced.2⟩, ?_, ?_, ?_, h.results, h.stored,
    trivial⟩
  · dsimp only [Sys.issued]
    omega
  · have hqueue := h.queue
    rw [hissued] at hqueue hle
    simp only [Sys.outstanding, Sys.issued] at hqueue ⊢
    rw [← List.append_assoc, hqueue, show s.slot + 1 - s.done = s.slot - s.done + 1 by omega,
      List.range'_1_concat, List.map_append, show s.done + (s.slot - s.done) = s.slot by omega,
      hissuing.2]
    rfl
  · intro t h1 h2
    dsimp only [Sys.issued] at h1 h2
    rcases Nat.lt_succ_iff_lt_or_eq.mp h2 with hlt | rfl
    · exact h.operands t h1 (by omega)
    · exact hissuing.1

/-- The datapath takes the oldest command. -/
theorem Slots.start (h : Slots s) {c : Cmd 32} {q : List (Cmd 32)} (hrun : s.running = none)
    (hwait : s.port.waiting = c :: q) :
    Slots { s with running := some (c, 0), port := s.port.pop } := by
  refine ⟨h.chunks, h.placed, h.le, ?_, h.operands, h.results, ?_, ?_⟩
  · show _ = (List.range' s.done (s.issued - s.done)).map s.cmdOf
    rw [← h.queue]
    simp [Sys.outstanding, hrun, hwait, Port.pop]
  · intro c' k hc
    obtain ⟨rfl, rfl⟩ := Prod.mk.inj (Option.some.inj hc)
    exact ⟨Nat.zero_le _, fun k hk => absurd hk (Nat.not_lt_zero k)⟩
  · have hissuing := h.issuing
    unfold Sys.Issuing at *
    cases hpc : s.pc <;> simp only [hpc, Port.pop] at hissuing ⊢ <;> exact hissuing

/-- The running command completes: its result slot is full. -/
theorem Slots.complete (h : Slots s) {c : Cmd 32} (hrun : s.running = some (c, c.mRows.toNat)) :
    Slots { s with running := none, port := s.port.retire, done := s.done + 1 } := by
  obtain ⟨hlt, rfl, hwait⟩ := h.running hrun
  have hstored := (h.stored _ _ hrun).2
  have hrows : (s.cmdOf s.done).mRows.toNat = (s.chunk s.done).2 :=
    toNat_slotRows hostLayout 32 _ (h.rows_le hlt)
  rw [hrows] at hstored
  refine ⟨h.chunks, ?_, hlt, hwait, fun t h1 h2 => h.operands t (by dsimp only at h1; omega) h2, ?_, ?_, ?_⟩
  · have hplaced := h.placed
    have hle := h.issued_le
    unfold Sys.Placed at *
    cases hpc : s.pc <;> simp only [hpc] at hplaced ⊢ <;> first | exact hplaced | omega
  · intro t ht
    rcases Nat.lt_succ_iff_lt_or_eq.mp ht with hlt' | rfl
    · exact h.results t hlt'
    · exact hstored
  · intro c k hc
    cases hc
  · have hissuing := h.issuing
    unfold Sys.Issuing at *
    cases hpc : s.pc <;> simp only [hpc, Port.retire] at hissuing ⊢ <;> exact hissuing

/-- The datapath stores a result row. -/
theorem Slots.store (h : Slots s) {c : Cmd 32} {k : ℕ} (hrun : s.running = some (c, k))
    (hk : k < c.mRows.toNat) :
    Slots { s with mem := storeResult hostLayout c k s.mem, running := some (c, k + 1) } := by
  have hfour := length_batch_le s
  have hissued := h.issued_le
  obtain ⟨hlt, rfl, hwait⟩ := h.running hrun
  have hle : (s.chunk s.done).2 ≤ 1024 := h.rows_le hlt
  have hrows : (s.cmdOf s.done).mRows.toNat = (s.chunk s.done).2 := toNat_slotRows hostLayout 32 _ hle
  rw [hrows] at hk
  have hpacked := h.operands s.done le_rfl hlt
  -- only the result region of slot `done` changes
  have hsame : SameExcept hostBuffers .c (slot s.done) s.mem
      (storeResult hostLayout (s.cmdOf s.done) k s.mem) := hpacked.storeResult_sameExcept hle hk
  refine ⟨h.chunks, h.placed, h.le, ?_, ?_, ?_, ?_, ?_⟩
  · rw [Sys.outstanding, Option.map_some, Option.toList_some, hwait]
    have hqueue := h.queue
    rw [Sys.outstanding, hrun, Option.map_some, Option.toList_some, hwait] at hqueue
    exact hqueue
  · intro t h1 h2
    exact (h.operands t h1 h2).frame (h.rows_le h2) hsame (.inl rfl)
  · intro t ht
    dsimp only at ht
    exact (h.results t ht).frame (h.rows_le (by omega)) hsame
      (.inr (slots_differ (by omega) (by omega) (by omega)))
  · intro c' k' hc
    obtain ⟨rfl, rfl⟩ := Prod.mk.inj (Option.some.inj hc)
    exact ⟨hk, Rows.next hpacked hle hk (h.stored _ _ hrun).2⟩
  · -- results do not disturb the operands of the command that is being issued
    have hissuing := h.issuing
    have hplaced := h.placed
    unfold Sys.Issuing Sys.Placed at *
    cases hpc : s.pc <;> simp only [hpc] at hissuing hplaced ⊢
    · intro j hj
      rw [hsame .w (slot s.slot) j hj (.inl (by decide)), hissuing j hj]
    all_goals
      have hcur : (s.chunk s.slot).2 ≤ 1024 := chunk_rows_le (h.chunks (by simp [hpc])) hplaced.2
      exact ⟨hissuing.1.frame hcur hsame (.inl rfl), hissuing.2⟩

theorem Slots.host_step (h : Slots s) (hmove : Move s .host s') : Slots s' := by
  have hplaced := h.placed
  cases hmove with
  | call c rest hpc htodo =>
    obtain ⟨hdone, hout⟩ := h.between (by simp [Sys.issued, hpc])
    exact slots_empty (fun _ => rfl) trivial hdone rfl hout trivial
  | batch hpc hi =>
    obtain ⟨hdone, hout⟩ := h.between (by simp [Sys.issued, hpc])
    exact slots_empty (fun _ => h.chunks (by simp [hpc])) ⟨hi, Nat.zero_le _⟩ hdone rfl hout trivial
  | ret hpc hi =>
    obtain ⟨hdone, hout⟩ := h.between (by simp [Sys.issued, hpc])
    exact slots_empty (fun hne => absurd rfl hne) trivial hdone rfl hout trivial
  | issue hpc hslot =>
    simp only [Sys.Placed, hpc] at hplaced
    exact h.goto (by simp [hpc]) rfl (by simp [Sys.issued, hpc]) ⟨hplaced.1, hslot⟩ trivial
  | issued hpc hslot =>
    simp only [Sys.Placed, hpc] at hplaced
    refine h.goto (by simp [hpc]) rfl ?_ hplaced.1 trivial
    -- `enum` ends with the last slot of the batch
    have hall : s.slot = s.batch.length := by omega
    simp only [Sys.issued, hpc, hall]
    rfl
  | packW hpc => exact h.packW hpc
  | packA hpc => exact h.packA hpc
  | hold r hpc => exact h.hold hpc
  | cmd hpc => exact h.enqueue hpc
  | poll hpc hidle =>
    simp only [Sys.Placed, hpc] at hplaced
    have hissued : s.issued = s.batch.length := by simp [Sys.issued, hpc]
    have hdone := h.drained (outstanding_of_idle hidle)
    exact h.collect (by simp [hpc]) hissued ⟨hplaced, Nat.zero_le _, hdone.trans hissued⟩
  | again hpc hidle => exact h
  | skip hpc hslot hrows =>
    simp only [Sys.Placed, hpc] at hplaced
    exact h.collect (by simp [hpc]) (by simp [Sys.issued, hpc]) ⟨hplaced.1, hslot, hplaced.2.2⟩
  | copy hpc hslot hrows =>
    simp only [Sys.Placed, hpc] at hplaced
    exact h.collect (by simp [hpc]) (by simp [Sys.issued, hpc]) ⟨hplaced.1, hslot, hplaced.2.2⟩
  | next hpc hslot =>
    simp only [Sys.Placed, hpc] at hplaced
    have hissued : s.issued = s.batch.length := by simp [Sys.issued, hpc]
    -- the copies began with the device idle
    have hout : s.outstanding = [] := by
      rw [h.queue, hissued, hplaced.2.2, Nat.sub_self]
      rfl
    exact slots_empty (fun _ => h.chunks (by simp [hpc])) trivial rfl rfl hout trivial

theorem Slots.step {a : Act} (h : Slots s) (hstep : s.step a = some s') : Slots s' := by
  cases a with
  | host => exact h.host_step (move_of_host hstep)
  | busy =>
    cases move_of_step hstep with
    | busy hpc => exact h
  | start =>
    cases move_of_step hstep with
    | start c q hrun hwait => exact h.start hrun hwait
  | store =>
    cases move_of_step hstep with
    | store c k hrun hk => exact h.store hrun hk
  | complete =>
    cases move_of_step hstep with
    | complete c hrun => exact h.complete hrun

end CoprocBackend
