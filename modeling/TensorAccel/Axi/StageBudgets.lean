import TensorAccel.Axi.RamMemory

/-! # What a wait costs

    Two numbers read off the registers pay for the cycles in which a command
    fetches its words and drains its rows.  Every stage of the two engines lowers
    its number by one for a step of its own, and by 32 when the gate opens that it
    has waited for: 66 cycles for a word and 66 for a row, in bursts of one beat
    at worst. -/

open Clocked Burst StreamCtrl DmaBridge

namespace StreamAxi

variable {N A : ℕ}

/-! ## Stalls end -/

/-- Among 32 cycles there is one in which a gate is open. -/
theorem gate_within {DW ID r u k b : ℕ} {q : ℕ → BitVec 32} {j : ℕ → Axi4SimRam.RamIn DW A ID}
    (hq : ∀ u, q (u + 1) = Axi4SimRam.lfsrStep (j u) (q u)) (hr : (j r).rst = true)
    (hrun : ∀ u, r < u → (j u).rst = false) (hb : b ≤ 31) (hru : r < u) :
    ∃ v, u ≤ v ∧ v < u + 32 ∧ Axi4SimRam.gate (j v) (q v) k b = true := by
  have hseed : q (r + 1) ≠ 0 := by
    rw [hq r, Axi4SimRam.lfsrStep, if_pos hr]
    split
    · decide
    · next hne => exact hne
  have hshift : ∀ v, r + 1 ≤ v → q (v + 1) = Lfsr.shift Axi4SimRam.feedback (q v) := by
    intro v hv
    rw [hq v, Axi4SimRam.lfsrStep, hrun v hv]
    rfl
  obtain ⟨v, huv, hvu, hbit⟩ := Lfsr.bit_recurs (by decide) hshift hseed hb hru
  exact ⟨v, huv, by omega, by rw [Axi4SimRam.gate, hbit, Bool.or_true]⟩

/-! ## The master is ready -/

/-- While a read burst is pending the bridge takes its beats. -/
def Ready (s : Top N A) : Prop := s.bridge.bus.rd.pending ≠ [] → s.bridge.dma.rd.rready = true

section ready
variable {z : Sizes} {c : Cmd A} {i : TopIn N A} {s : Top N A}

theorem ready_step (hl : Linked s) (hports : Ports z.depths c s.bridge) (hr : i.rst = false) :
    Ready (s.step z i) := by
  have hrst : (s.dmaIn i).rst = false := hr
  have hbus : (s.step z i).bridge.bus.rd =
      s.bridge.bus.rd.step (s.bridge.dma.rd.arAccepted (s.dmaIn i)) (s.bridge.dma.rd.push (s.dmaIn i)) := by
    simp [Top.step, Sys.step, hrst]
  have hlegal := hl.legal i
  rw [Ready, hbus]
  intro hpending
  -- a burst is pending in the next cycle only if the engine is in `R_BURST` now
  have hburst : s.bridge.dma.rd.rstate = .burst := by
    cases hports.reading with
    | rest _ hrr hv hp =>
      rw [RdEngine.push_eq_false hrr, RdEngine.arAccepted_eq_none hv, Port.step_quiet, hp] at hpending
      exact absurd rfl hpending
    | ar hst => exact hst
    | data _ _ _ hst => exact hst
  have hacc : s.bridge.dma.accept (s.dmaIn i) = false := by
    simp [Dma.accept, hports.busy_of_fetching (by rw [hburst]; simp)]
  have hrd : (s.step z i).bridge.dma.rd =
      s.bridge.dma.rd.step z.depths.rd (s.dmaIn i) false s.bridge.dma.core.ctrl.rdEn := by
    simp [Top.step, Sys.step, Dma.step, hacc]
  rw [hrd]
  cases hpush : s.bridge.dma.rd.push (s.dmaIn i) with
  | false =>
    rw [RdEngine.step_burst_wait hrst hburst hpush]
  | true =>
    have hvalid : (s.dmaIn i).rvalid = true := by
      rw [RdEngine.push, Bool.and_eq_true] at hpush
      exact hpush.1
    obtain ⟨hbusy, hflag⟩ := hlegal.rvalid hvalid
    cases hports.reading with
    | rest hst => exact absurd hburst hst
    | ar _ _ hp =>
      rw [hp] at hbusy
      exact absurd rfl hbusy
    | data b k n _ hv hp =>
      rw [hp, Port.serving_lastBeat] at hflag
      by_cases hover : k + 1 = b.len
      · rw [hpush, RdEngine.arAccepted_eq_none hv, hp, Port.serving_last hover] at hpending
        exact absurd rfl hpending
      · rw [RdEngine.step_beat_next hrst hburst hpush (by simp [hflag, hover])]

theorem ready_reset (s : Top N A) (hr : i.rst = true) : Ready (s.step z i) := by
  have hbus : (s.step z i).bridge.bus.rd = Port.idle := by simp [Top.step, Sys.step, Top.dmaIn, hr]
  rw [Ready, hbus]
  intro hpending
  exact absurd rfl hpending

end ready

/-! ## Fetching -/

/-- The read engine of a command whose words are fetched, `n` of them so far. -/
structure FetchView (z : Sizes) (c : Cmd A) (s : Top N A) (n : ℕ) : Prop where
  busy : ∀ j, s.bridge.dma.accept j = false
  quiet : s.bridge.dma.core.ctrl.rdEn = false
  total : s.bridge.dma.rd.rdTotal.toNat = N + c.mRows.toNat
  issued : s.bridge.dma.rd.rdIssued.toNat = n
  count : s.bridge.dma.rd.rf.count.toNat = n
  within : n ≤ N + c.mRows.toNat
  room : N + c.mRows.toNat ≤ z.depths.rd
  fetching : Fetching z.depths.rd c n s.bridge.dma.rd s.bridge.bus.rd

/-- The cycles that the words still to be fetched take at most. -/
def fetchBudget (s : Top N A) : ℕ :=
  let left := s.bridge.dma.rd.rdTotal.toNat - s.bridge.dma.rd.rdIssued.toNat
  match s.bridge.dma.rd.rstate with
  | .idle => 1
  | .issue => 66 * left + 2
  | .burst =>
    if s.bridge.dma.rd.arvalid then 66 * left + 1
    else if s.uRamRd.rd.rvalid then 66 * left - 63 else 66 * left - 31

/-- What the read engine waits for. -/
inductive FetchStage (c : Cmd A) (n : ℕ) (s : Top N A) : Prop
  | through (hst : s.bridge.dma.rd.rstate = .idle)
  | issue (hst : s.bridge.dma.rd.rstate = .issue) (hv : s.bridge.dma.rd.arvalid = false)
  | ar (hst : s.bridge.dma.rd.rstate = .burst) (hv : s.bridge.dma.rd.arvalid = true)
      (hs : s.uRamRd.rd.arState = .idle) (hrv : s.uRamRd.rd.rvalid = false) (hn : n < N + c.mRows.toNat)
  | load (hst : s.bridge.dma.rd.rstate = .burst) (hv : s.bridge.dma.rd.arvalid = false)
      (hs : s.uRamRd.rd.arState = .burst) (hrv : s.uRamRd.rd.rvalid = false) (hn : n < N + c.mRows.toNat)
  | beat (hst : s.bridge.dma.rd.rstate = .burst) (hv : s.bridge.dma.rd.arvalid = false)
      (hrv : s.uRamRd.rd.rvalid = true) (hrr : s.bridge.dma.rd.rready = true) (hn : n < N + c.mRows.toNat)
      (hmore : s.uRamRd.rd.rlast = false → n + 1 < N + c.mRows.toNat)

section fetch
variable {z : Sizes} {c : Cmd A} {i : TopIn N A} {s : Top N A} {n : ℕ} {l : ReadLog N A} {w : WriteLog N A}

theorem fetchView (h : Course z.depths c l w .fetch s.bridge) : FetchView z c s l.length := by
  have htotal := h.rdTotal
  have hacc := h.read.accept
  cases h.read with
  | fetch hb hc hpre =>
    have hwithin := hpre.within
    rw [htotal] at hwithin
    exact ⟨hacc, (Ctrl.no_strobe hc.busy).1, htotal, hpre.issued, hpre.count, by omega, h.sized.rd,
      hpre.fetching⟩

theorem FetchView.engine (h : FetchView z c s n) (i : TopIn N A) : (s.step z i).bridge.dma.rd =
    s.bridge.dma.rd.step z.depths.rd (s.dmaIn i) false false := by
  simp [Top.step, Sys.step, Dma.step, h.busy, h.quiet]

/-- The memory is where the read engine expects it. -/
theorem FetchView.stage (h : FetchView z c s n) (hl : Linked s) (hready : Ready s) : FetchStage c n s := by
  have htotal := h.total
  cases h.fetching with
  | rest hst hrr hv hp =>
    cases hs : s.bridge.dma.rd.rstate with
    | idle => exact .through hs
    | issue => exact .issue hs hv
    | burst => exact absurd hs hst
  | ar hst hv hp hb =>
    have hmore := hb.more
    have hwithin := hb.within
    cases hl.rd with
    | rest hs hrv => exact .ar hst hv hs hrv (by omega)
    | fetch b k hp' => simp [hp, Port.idle, Port.serving] at hp'
    | offer b k hp' => simp [hp, Port.idle, Port.serving] at hp'
  | data b k hst hv hp hb =>
    have hmore := hb.more
    have hwithin := hb.within
    have hpending : s.bridge.bus.rd.pending ≠ [] := by
      rw [hp]
      exact List.cons_ne_nil _ _
    cases hl.rd with
    | rest _ _ hp' => simp [hp, Port.idle, Port.serving] at hp'
    | fetch _ _ _ hs hrv => exact .load hst hv hs hrv (by omega)
    | offer b' k' hp' hrv _ hlast =>
      obtain ⟨rfl, rfl⟩ : b = b' ∧ k = k' := by
        rw [hp] at hp'
        simpa [Port.serving] using hp'
      refine .beat hst hv hrv (hready hpending) (by omega) fun hno => ?_
      rw [hlast, beq_eq_false_iff_ne] at hno
      omega

/-- The engine comes to rest when all words were asked for. -/
theorem over_of_idle {D : ℕ} {j : DmaIn N A} {e : RdEngine N A} (hr : j.rst = false) (hst : e.rstate ≠ .idle)
    (hidle : (e.step D j false false).rstate = .idle) :
    (e.step D j false false).rdTotal ≤ (e.step D j false false).rdIssued := by
  cases hs : e.rstate with
  | idle => exact absurd hs hst
  | issue =>
    by_cases hover : e.rdTotal ≤ e.rdIssued
    · rw [RdEngine.step_issue_over hr hs hover]
      exact hover
    · exfalso
      revert hidle
      unfold RdEngine.step
      rw [hr, hs]
      simp only [Bool.false_eq_true, if_false, if_neg hover]
      split <;> simp
  | burst =>
    exfalso
    revert hidle
    unfold RdEngine.step
    rw [hr, hs]
    simp only [Bool.false_eq_true, if_false]
    split
    · split <;> simp
    · simp

/-! Each stage pays for the cycles that it takes. -/

theorem fetchBudget_issue (h : FetchView z c s n) (hst : s.bridge.dma.rd.rstate = .issue) :
    fetchBudget s = 66 * (N + c.mRows.toNat - n) + 2 := by
  simp only [fetchBudget, hst, h.total, h.issued]

theorem fetchBudget_ar (h : FetchView z c s n) (hst : s.bridge.dma.rd.rstate = .burst)
    (hv : s.bridge.dma.rd.arvalid = true) : fetchBudget s = 66 * (N + c.mRows.toNat - n) + 1 := by
  simp only [fetchBudget, hst, hv, h.total, h.issued, if_true]

theorem fetchBudget_load (h : FetchView z c s n) (hst : s.bridge.dma.rd.rstate = .burst)
    (hv : s.bridge.dma.rd.arvalid = false) (hrv : s.uRamRd.rd.rvalid = false) :
    fetchBudget s = 66 * (N + c.mRows.toNat - n) - 31 := by
  simp only [fetchBudget, hst, hv, hrv, h.total, h.issued, Bool.false_eq_true, if_false]

theorem fetchBudget_beat (h : FetchView z c s n) (hst : s.bridge.dma.rd.rstate = .burst)
    (hv : s.bridge.dma.rd.arvalid = false) (hrv : s.uRamRd.rd.rvalid = true) :
    fetchBudget s = 66 * (N + c.mRows.toNat - n) - 63 := by
  simp only [fetchBudget, hst, hv, hrv, h.total, h.issued, Bool.false_eq_true, if_false, if_true]

section pays
variable {n' : ℕ}

/-- A burst is issued, or the engine is through. -/
theorem issue_pays (hN' : N < 2 ^ 31) (h : FetchView z c s n) (h' : FetchView z c (s.step z i) n')
    (hr : i.rst = false) (hst : s.bridge.dma.rd.rstate = .issue) (hv : s.bridge.dma.rd.arvalid = false) :
    fetchBudget (s.step z i) + 1 ≤ fetchBudget s := by
  have hrst : (s.dmaIn i).rst = false := hr
  have hrd := h.engine i
  rw [fetchBudget_issue h hst]
  by_cases hover : s.bridge.dma.rd.rdTotal ≤ s.bridge.dma.rd.rdIssued
  · rw [RdEngine.step_issue_over hrst hst hover] at hrd
    simp only [fetchBudget, hrd]
    omega
  · have hmore : n < s.bridge.dma.rd.rdTotal.toNat := by
      rw [BitVec.le_def, h.issued] at hover
      omega
    have hdepth := z.depths.rd_lt
    have hroom := h.room
    have htotal := h.total
    -- the FIFO has room for every word of the command
    have hlen : s.bridge.dma.rd.nextBurstLen z.depths.rd ≠ 0 := by
      have hmin := nextBurstLen_toNat z.depths.rd s.bridge.dma.rd
      have hrem := rdRemaining_toNat hN' h.issued hmore
      have hfree : (BitVec.ofNat 32 z.depths.rd - s.bridge.dma.rd.rf.count).toNat = z.depths.rd - n := by
        have hword := toNat_ofNat_int hdepth
        rw [BitVec.toNat_sub_of_le, hword, h.count]
        rw [BitVec.le_def, hword, h.count]
        omega
      intro hzero
      have hnone : (s.bridge.dma.rd.nextBurstLen z.depths.rd).toNat = 0 := by
        rw [hzero]
        rfl
      rw [hnone, hfree] at hmin
      split at hrem
      · omega
      · omega
    rw [RdEngine.step_issue hrst hst hv hover hlen] at hrd
    have hsame : n' = n := by
      rw [← h'.issued, hrd]
      exact h.issued
    rw [fetchBudget_ar h' (by rw [hrd]) (by rw [hrd]), hsame]

/-- In `R_BURST` without a beat only the address channel moves. -/
theorem burst_quiet (h : FetchView z c s n) (h' : FetchView z c (s.step z i) n') (hr : i.rst = false)
    (hst : s.bridge.dma.rd.rstate = .burst) (hrv : s.uRamRd.rd.rvalid = false) :
    (s.step z i).bridge.dma.rd.rstate = .burst ∧
      (s.step z i).bridge.dma.rd.arvalid =
        (s.bridge.dma.rd.arvalid && !s.uRamRd.rd.arready (s.rdGates i)) ∧
      n' = n := by
  have hpush : s.bridge.dma.rd.push (s.dmaIn i) = false := by simp [RdEngine.push, Top.dmaIn, hrv]
  have hrd := h.engine i
  rw [RdEngine.step_burst_wait (i := s.dmaIn i) hr hst hpush] at hrd
  refine ⟨?_, ?_, ?_⟩
  · rw [hrd]
    exact hst
  · rw [hrd]
    rfl
  · rw [← h'.issued, hrd]
    exact h.issued

/-- The address waits for its gate. -/
theorem ar_waits (h : FetchView z c s n) (h' : FetchView z c (s.step z i) n') (hr : i.rst = false)
    (hst : s.bridge.dma.rd.rstate = .burst) (hv : s.bridge.dma.rd.arvalid = true)
    (hrv : s.uRamRd.rd.rvalid = false) (hg : (s.rdGates i).ar = false) :
    (s.step z i).bridge.dma.rd.rstate = .burst ∧ (s.step z i).bridge.dma.rd.arvalid = true ∧
      fetchBudget (s.step z i) = fetchBudget s := by
  obtain ⟨hst', hv', rfl⟩ := burst_quiet h h' hr hst hrv
  rw [hv, Axi4SimRam.ReadChannel.arready, hg, Bool.and_false] at hv'
  exact ⟨hst', hv', by rw [fetchBudget_ar h hst hv, fetchBudget_ar h' hst' hv']⟩

/-- The memory takes the address. -/
theorem ar_pays (h : FetchView z c s n) (h' : FetchView z c (s.step z i) n') (hr : i.rst = false)
    (hst : s.bridge.dma.rd.rstate = .burst) (hv : s.bridge.dma.rd.arvalid = true)
    (hs : s.uRamRd.rd.arState = .idle) (hrv : s.uRamRd.rd.rvalid = false) (hn : n < N + c.mRows.toNat)
    (hg : (s.rdGates i).ar = true) : fetchBudget (s.step z i) + 32 ≤ fetchBudget s := by
  have hready : s.uRamRd.rd.arready (s.rdGates i) = true := by
    simp [Axi4SimRam.ReadChannel.arready, hs, hg]
  obtain ⟨hst', hv', rfl⟩ := burst_quiet h h' hr hst hrv
  rw [hready, Bool.not_true, Bool.and_false] at hv'
  have hacc : s.uRamRd.rd.arAccepted (s.rdGates i) (s.rdIn i) =
      some ⟨0, s.bridge.dma.rd.araddr, s.bridge.dma.rd.arlen⟩ := by
    simp [Axi4SimRam.ReadChannel.arAccepted, Top.rdIn, rdPort, hr, hv, hready]
  have hram : (s.step z i).uRamRd.rd =
      s.uRamRd.rd.step (s.rdGates i) (i.backdoor s.mems).1 (s.rdIn i) := rfl
  rw [(Axi4SimRam.ReadChannel.step_accept (i := s.rdIn i) hr hacc).2] at hram
  rw [fetchBudget_ar h hst hv, fetchBudget_load h' hst' hv' (by simp [hram, hrv])]
  omega

/-- The memory loads the next beat when its gate opens. -/
theorem load_next (hr : i.rst = false) (hs : s.uRamRd.rd.arState = .burst) (hrv : s.uRamRd.rd.rvalid = false) :
    (s.step z i).uRamRd.rd.rvalid = (s.rdGates i).r := by
  have hload : s.uRamRd.rd.load (s.rdGates i) (s.rdIn i) = (s.rdGates i).r := by
    simp [Axi4SimRam.ReadChannel.load, hs, hrv]
  have hram : (s.step z i).uRamRd.rd =
      s.uRamRd.rd.step (s.rdGates i) (i.backdoor s.mems).1 (s.rdIn i) := rfl
  cases hg : (s.rdGates i).r with
  | false =>
    rw [Axi4SimRam.ReadChannel.step_burst_wait (i := s.rdIn i) hr hs (hload.trans hg)] at hram
    simp [hram, hrv]
  | true =>
    rw [Axi4SimRam.ReadChannel.step_load (i := s.rdIn i) hr hs (hload.trans hg)] at hram
    rw [hram]

theorem load_waits (h : FetchView z c s n) (h' : FetchView z c (s.step z i) n') (hr : i.rst = false)
    (hst : s.bridge.dma.rd.rstate = .burst) (hv : s.bridge.dma.rd.arvalid = false)
    (hs : s.uRamRd.rd.arState = .burst) (hrv : s.uRamRd.rd.rvalid = false) (hg : (s.rdGates i).r = false) :
    (s.step z i).bridge.dma.rd.rstate = .burst ∧ (s.step z i).bridge.dma.rd.arvalid = false ∧
      (s.step z i).uRamRd.rd.rvalid = false ∧ fetchBudget (s.step z i) = fetchBudget s := by
  obtain ⟨hst', hv', rfl⟩ := burst_quiet h h' hr hst hrv
  rw [hv, Bool.false_and] at hv'
  have hrv' := (load_next (z := z) hr hs hrv).trans hg
  exact ⟨hst', hv', hrv', by rw [fetchBudget_load h hst hv hrv, fetchBudget_load h' hst' hv' hrv']⟩

theorem load_pays (h : FetchView z c s n) (h' : FetchView z c (s.step z i) n') (hr : i.rst = false)
    (hst : s.bridge.dma.rd.rstate = .burst) (hv : s.bridge.dma.rd.arvalid = false)
    (hs : s.uRamRd.rd.arState = .burst) (hrv : s.uRamRd.rd.rvalid = false) (hn : n < N + c.mRows.toNat)
    (hg : (s.rdGates i).r = true) : fetchBudget (s.step z i) + 32 ≤ fetchBudget s := by
  obtain ⟨hst', hv', rfl⟩ := burst_quiet h h' hr hst hrv
  rw [hv, Bool.false_and] at hv'
  have hrv' := (load_next (z := z) hr hs hrv).trans hg
  rw [fetchBudget_load h hst hv hrv, fetchBudget_beat h' hst' hv' hrv']
  omega

/-- A beat is taken at once. -/
theorem beat_pays (h : FetchView z c s n) (h' : FetchView z c (s.step z i) n') (hr : i.rst = false)
    (hst : s.bridge.dma.rd.rstate = .burst) (hv : s.bridge.dma.rd.arvalid = false)
    (hrv : s.uRamRd.rd.rvalid = true) (hrr : s.bridge.dma.rd.rready = true) (hn : n < N + c.mRows.toNat)
    (hmore : s.uRamRd.rd.rlast = false → n + 1 < N + c.mRows.toNat) :
    fetchBudget (s.step z i) + 1 ≤ fetchBudget s := by
  have hrst : (s.dmaIn i).rst = false := hr
  have hpush : s.bridge.dma.rd.push (s.dmaIn i) = true := by simp [RdEngine.push, Top.dmaIn, hrv, hrr]
  have hrd := h.engine i
  have hsucc : (s.bridge.dma.rd.rdIssued + 1).toNat = n + 1 := by
    have htotal := s.bridge.dma.rd.rdTotal.isLt
    rw [h.total] at htotal
    rw [BitVec.toNat_add, h.issued]
    exact Nat.mod_eq_of_lt (by simp; omega)
  rw [fetchBudget_beat h hst hv hrv]
  cases hlast : s.uRamRd.rd.rlast with
  | true =>
    rw [RdEngine.step_beat_last hrst hst hpush hlast] at hrd
    have hnext : n' = n + 1 := by
      rw [← h'.issued, hrd]
      exact hsucc
    rw [fetchBudget_issue h' (by rw [hrd]), hnext]
    omega
  | false =>
    have hlt := hmore hlast
    rw [RdEngine.step_beat_next hrst hst hpush hlast] at hrd
    have hnext : n' = n + 1 := by
      rw [← h'.issued, hrd]
      exact hsucc
    have hst' : (s.step z i).bridge.dma.rd.rstate = .burst := by
      rw [hrd]
      exact hst
    have hv' : (s.step z i).bridge.dma.rd.arvalid = false := by simp [hrd, RdEngine.tick, hv]
    cases hrv' : (s.step z i).uRamRd.rd.rvalid with
    | true =>
      rw [fetchBudget_beat h' hst' hv' hrv', hnext]
      omega
    | false =>
      rw [fetchBudget_load h' hst' hv' hrv', hnext]
      omega

end pays

end fetch

/-! ## Draining -/

/-- The write engine of a command that was computed, `n` rows of which were sent. -/
structure DrainView (c : Cmd A) (s : Top N A) (n : ℕ) : Prop where
  busy : ∀ j, s.bridge.dma.accept j = false
  total : s.bridge.dma.wr.wrTotal = c.mRows
  sent : sentRows s.bridge.dma.wr s.bridge.bus.wr = n
  count : s.bridge.dma.wr.wf.count.toNat = c.mRows.toNat - n
  within : n ≤ c.mRows.toNat
  writing : ∃ rows, rows.length = c.mRows.toNat ∧
    Writing c rows n s.bridge.dma.wr s.bridge.bus.wr s.bridge.bus.bDue

/-- The cycles that the rows still to be stored take at most. -/
def drainBudget (s : Top N A) : ℕ :=
  let left := s.bridge.dma.wr.wrTotal.toNat - sentRows s.bridge.dma.wr s.bridge.bus.wr
  match s.bridge.dma.wr.wstate with
  | .idle => 66 * left + 1
  | .aw => 66 * left
  | .data => 66 * left - 32
  | .bresp => 66 * left + 2

/-- What the write engine waits for. -/
inductive DrainStage (c : Cmd A) (n : ℕ) (s : Top N A) : Prop
  | idle (hst : s.bridge.dma.wr.wstate = .idle) (hi : s.bridge.dma.wr.wrIssued.toNat = n)
      (ha : s.bridge.dma.wr.wrAcked.toNat = n)
  | aw (hst : s.bridge.dma.wr.wstate = .aw) (hv : s.bridge.dma.wr.awvalid = true)
      (hs : s.uRamWr.wr.awState = .idle) (hn : n < c.mRows.toNat)
  | data (hst : s.bridge.dma.wr.wstate = .data) (hv : s.bridge.dma.wr.wvalid = true)
      (hs : s.uRamWr.wr.awState = .data) (hn : n < c.mRows.toNat)
      (hmore : s.bridge.dma.wr.wlast = false → n + 1 < c.mRows.toNat)
  | bresp (hst : s.bridge.dma.wr.wstate = .bresp) (hb : s.uRamWr.wr.bvalid = true)

section drain
variable {z : Sizes} {c : Cmd A} {i : TopIn N A} {s : Top N A} {n n' : ℕ} {l : ReadLog N A} {w : WriteLog N A}

/-- The rows sent are those that the monitor saw. -/
theorem sentRows_eq {rows : List (Lanes32 N)} {e : WrEngine N A} {q : Port A} {due : ℕ}
    (h : Writing c rows n e q due) : sentRows e q = n := by
  cases h with
  | idle _ _ _ hp _ hi => rw [sentRows, hp, hi]; rfl
  | aw _ _ _ hp _ hi => rw [sentRows, hp, hi]; rfl
  | data b k _ _ _ hp _ hi =>
    rw [sentRows, hp]
    exact hi
  | bresp _ _ _ hp _ hi => rw [sentRows, hp, hi]; rfl

theorem drainView (h : Course z.depths c l w .drain s.bridge) : DrainView c s w.length := by
  have hlen : (rowsAt c l .drain).length = c.mRows.toNat := resultRows_length c l
  have hcount := h.write.count
  have hwithin := h.write.sent_le
  rw [hlen] at hcount hwithin
  exact ⟨h.read.accept, h.write.total, sentRows_eq h.write.writing, hcount, hwithin, _, hlen, h.write.writing⟩

theorem DrainView.stage (h : DrainView c s n) (hl : Linked s) : DrainStage c n s := by
  obtain ⟨rows, hlen, hwriting⟩ := h.writing
  cases hwriting with
  | idle hst _ _ _ _ hi ha => exact .idle hst hi ha
  | aw hst hv _ hp hb _ _ hbeats _ _ _ hroom =>
    cases hl.wr with
    | rest hs => exact .aw hst hv hs (by omega)
    | data b k hp' => simp [hp, Port.idle, Port.serving] at hp'
    | resp _ _ _ hb' => omega
  | data b k hst _ hv hp _ _ _ hk _ _ _ _ hroom _ hlast =>
    cases hl.wr with
    | rest _ _ hp' => simp [hp, Port.idle, Port.serving] at hp'
    | data b' k' _ hs =>
      refine .data hst hv hs (by omega) fun hno => ?_
      rw [hlast, beq_eq_false_iff_ne] at hno
      omega
    | resp _ _ hp' => simp [hp, Port.idle, Port.serving] at hp'
  | bresp hst _ _ _ hb =>
    cases hl.wr with
    | rest _ _ _ hb' => omega
    | data _ _ _ _ _ hb' => omega
    | resp _ hv => exact .bresp hst hv

theorem DrainView.engine (h : DrainView c s n) (i : TopIn N A) : (s.step z i).bridge.dma.wr =
    s.bridge.dma.wr.step z.depths.wr (s.dmaIn i) false s.bridge.dma.rd.cBaseLat
      s.bridge.dma.core.ctrl.wrEn s.bridge.dma.core.wrData :=
  Sys.step_wr (h.busy _)

theorem drainBudget_eq (h : DrainView c s n) : drainBudget s =
    match s.bridge.dma.wr.wstate with
    | .idle => 66 * (c.mRows.toNat - n) + 1
    | .aw => 66 * (c.mRows.toNat - n)
    | .data => 66 * (c.mRows.toNat - n) - 32
    | .bresp => 66 * (c.mRows.toNat - n) + 2 := by
  rw [drainBudget, h.total, h.sent]

/-- A burst is issued as long as there are rows. -/
theorem idle_pays (h : DrainView c s n) (h' : DrainView c (s.step z i) n) (hr : i.rst = false)
    (hst : s.bridge.dma.wr.wstate = .idle) (hi : s.bridge.dma.wr.wrIssued.toNat = n) (hn : n < c.mRows.toNat)
    (hbyte : c.mRows.toNat ≤ 255) : drainBudget (s.step z i) + 1 ≤ drainBudget s := by
  have hlt : s.bridge.dma.wr.wrIssued < s.bridge.dma.wr.wrTotal := by
    rw [BitVec.lt_def, hi, h.total]
    exact hn
  -- the rows that are left fit into the 8 bits they are cut to
  have hlen : s.bridge.dma.wr.nextWburstLen ≠ 0 := by
    have hmin := nextWburstLen_toNat s.bridge.dma.wr
    have hrem : (s.bridge.dma.wr.wrTotal - s.bridge.dma.wr.wrIssued).toNat = c.mRows.toNat - n := by
      rw [BitVec.toNat_sub_of_le (BitVec.le_def.mpr (Nat.le_of_lt hlt)), h.total, hi]
    intro hzero
    have hnone : s.bridge.dma.wr.nextWburstLen.toNat = 0 := by
      rw [hzero]
      rfl
    rw [hnone, hrem, h.count] at hmin
    omega
  have hwr := h.engine (z := z) i
  rw [WrEngine.step_issue (i := s.dmaIn i) hr hst hlt hlen] at hwr
  have hst' : (s.step z i).bridge.dma.wr.wstate = .aw := by rw [hwr]
  rw [drainBudget_eq h, drainBudget_eq h', hst, hst']

theorem aw_waits (h : DrainView c s n) (h' : DrainView c (s.step z i) n) (hr : i.rst = false)
    (hst : s.bridge.dma.wr.wstate = .aw) (hg : (s.wrGates i).aw = false) :
    (s.step z i).bridge.dma.wr.wstate = .aw ∧ drainBudget (s.step z i) = drainBudget s := by
  have hready : (s.dmaIn i).awready = false := by simp [Top.dmaIn, Axi4SimRam.WriteChannel.awready, hg]
  have hwr := h.engine (z := z) i
  rw [WrEngine.step_aw_wait (i := s.dmaIn i) hr hst hready] at hwr
  have hst' : (s.step z i).bridge.dma.wr.wstate = .aw := by
    rw [hwr]
    exact hst
  exact ⟨hst', by rw [drainBudget_eq h, drainBudget_eq h', hst, hst']⟩

theorem aw_pays (h : DrainView c s n) (h' : DrainView c (s.step z i) n) (hr : i.rst = false)
    (hst : s.bridge.dma.wr.wstate = .aw) (hv : s.bridge.dma.wr.awvalid = true)
    (hs : s.uRamWr.wr.awState = .idle) (hn : n < c.mRows.toNat) (hg : (s.wrGates i).aw = true) :
    drainBudget (s.step z i) + 32 ≤ drainBudget s := by
  have hready : (s.dmaIn i).awready = true := by simp [Top.dmaIn, Axi4SimRam.WriteChannel.awready, hs, hg]
  have hwr := h.engine (z := z) i
  rw [WrEngine.step_aw_accepted (i := s.dmaIn i) hr hst hv hready] at hwr
  have hst' : (s.step z i).bridge.dma.wr.wstate = .data := by rw [hwr]
  rw [drainBudget_eq h, drainBudget_eq h', hst, hst']
  show 66 * (c.mRows.toNat - n) - 32 + 32 ≤ 66 * (c.mRows.toNat - n)
  omega

theorem data_waits (h : DrainView c s n) (h' : DrainView c (s.step z i) n) (hr : i.rst = false)
    (hst : s.bridge.dma.wr.wstate = .data) (hsent : s.bridge.dma.wr.sent (s.dmaIn i) = false) :
    (s.step z i).bridge.dma.wr.wstate = .data ∧ drainBudget (s.step z i) = drainBudget s := by
  have hwr := h.engine (z := z) i
  rw [WrEngine.step_data_wait (i := s.dmaIn i) hr hst hsent] at hwr
  have hst' : (s.step z i).bridge.dma.wr.wstate = .data := by
    rw [hwr]
    exact hst
  exact ⟨hst', by rw [drainBudget_eq h, drainBudget_eq h', hst, hst']⟩

theorem data_pays (h : DrainView c s n) (h' : DrainView c (s.step z i) (n + 1)) (hr : i.rst = false)
    (hst : s.bridge.dma.wr.wstate = .data) (hn : n < c.mRows.toNat)
    (hmore : s.bridge.dma.wr.wlast = false → n + 1 < c.mRows.toNat)
    (hsent : s.bridge.dma.wr.sent (s.dmaIn i) = true) : drainBudget (s.step z i) + 32 ≤ drainBudget s := by
  have hwr := h.engine (z := z) i
  rw [drainBudget_eq h, drainBudget_eq h', hst]
  cases hlast : s.bridge.dma.wr.wlast with
  | true =>
    rw [WrEngine.step_data_last (i := s.dmaIn i) hr hst hsent hlast] at hwr
    have hst' : (s.step z i).bridge.dma.wr.wstate = .bresp := by rw [hwr]
    rw [hst']
    show 66 * (c.mRows.toNat - (n + 1)) + 2 + 32 ≤ 66 * (c.mRows.toNat - n) - 32
    omega
  | false =>
    have hlt := hmore hlast
    rw [WrEngine.step_data_next (i := s.dmaIn i) hr hst hsent hlast] at hwr
    have hst' : (s.step z i).bridge.dma.wr.wstate = .data := by
      rw [hwr]
      exact hst
    rw [hst']
    show 66 * (c.mRows.toNat - (n + 1)) - 32 + 32 ≤ 66 * (c.mRows.toNat - n) - 32
    omega

theorem bresp_pays (h : DrainView c s n) (h' : DrainView c (s.step z i) n) (hr : i.rst = false)
    (hst : s.bridge.dma.wr.wstate = .bresp) (hb : s.uRamWr.wr.bvalid = true) :
    drainBudget (s.step z i) + 1 ≤ drainBudget s := by
  have hwr := h.engine (z := z) i
  rw [WrEngine.step_bresp (i := s.dmaIn i) hr hst hb] at hwr
  have hst' : (s.step z i).bridge.dma.wr.wstate = .idle := by rw [hwr]
  rw [drainBudget_eq h, drainBudget_eq h', hst, hst']

end drain

end StreamAxi
