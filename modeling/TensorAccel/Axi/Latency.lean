import TensorAccel.Axi.StageBudgets
import TensorAccel.Framework.Budget

/-! # How long a command takes

    The shift registers of the memories let every handshake through at least once
    in 32 cycles, whatever the stall masks are.  So the budgets of the two engines
    are enough for every wait, and a command ends in a number of cycles linear in
    its rows. -/

open Clocked Burst StreamCtrl DmaBridge

namespace StreamAxi

variable {N A : ℕ}

/-! ## A command in a run -/

/-- In cycle `t` command `c` is at `pos`, and its row count is on the port. -/
structure Working (z : Sizes) (p : Top N A) (i : ℕ → TopIn N A) (c : Cmd A) (pos : Pos) (t : ℕ) : Prop where
  course : ∃ l w, Course z.depths c l w pos (top z p i t).bridge
  port : (i t).cmd.mRows = c.mRows

/-- In cycle `t` words of command `c` are fetched. -/
structure Fetches (z : Sizes) (p : Top N A) (i : ℕ → TopIn N A) (c : Cmd A) (t : ℕ) : Prop where
  working : Working z p i c .fetch t
  through : (top z p i t).bridge.dma.rd.rstate = .idle →
    (top z p i t).bridge.dma.rd.rdTotal ≤ (top z p i t).bridge.dma.rd.rdIssued

section run
variable {z : Sizes} {p : Top N A} {i : ℕ → TopIn N A} {c : Cmd A} {r s t : ℕ} {pos pos' : Pos}

theorem Working.next (hN : 0 < N) (hN' : N < 2 ^ 31) (hdrv : ∀ t, r < t → Driven z p i r t) (hrt : r < t)
    (h : Working z p i c pos t)
    (hnext : pos.next (dmaTrace z p i t) (top z p i t).bridge.dma = some pos') :
    Working z p i c pos' (t + 1) := by
  obtain ⟨l, w, hcourse⟩ := h.course
  have hnow := hdrv (t + 2) (by omega)
  have hlinked := linked_run (z := z) (p := p) hN' hnow.rst hrt fun u hu hut => hnow.run u hu (by omega)
  have hstep := hcourse.step hN (hnow.run t hrt (by omega)) (hlinked.legal (i t)) h.port hnext
  exact ⟨⟨_, _, hstep⟩, (hnow.held t hrt (by omega) hstep.busy).trans h.port⟩

/-- The view of the read engine. -/
theorem Fetches.view (h : Fetches z p i c t) : ∃ n, FetchView z c (top z p i t) n := by
  obtain ⟨l, w, hcourse⟩ := h.working.course
  exact ⟨l.length, fetchView hcourse⟩

/-- The engine goes on until it is through. -/
theorem Fetches.step (hN : 0 < N) (hN' : N < 2 ^ 31) (hdrv : ∀ t, r < t → Driven z p i r t) (hrt : r < t)
    (h : Fetches z p i c t) (hst : (top z p i t).bridge.dma.rd.rstate ≠ .idle) : Fetches z p i c (t + 1) := by
  have hall : (top z p i t).bridge.dma.rd.allBuffered = false := by simp [RdEngine.allBuffered, hst]
  refine ⟨h.working.next hN hN' hdrv hrt (by rw [Pos.next, hall]; rfl), ?_⟩
  obtain ⟨n, hview⟩ := h.view
  have hrd : (top z p i (t + 1)).bridge.dma.rd = _ := hview.engine (i t)
  rw [hrd]
  exact over_of_idle ((hdrv (t + 1) (by omega)).run t hrt (Nat.lt_succ_self t)) hst

/-- When the engine is through, `u_ctrl` is launched. -/
theorem Fetches.launch (hN : 0 < N) (hN' : N < 2 ^ 31) (hdrv : ∀ t, r < t → Driven z p i r t) (hrt : r < t)
    (h : Fetches z p i c t) (hst : (top z p i t).bridge.dma.rd.rstate = .idle) :
    Working z p i c .launch (t + 1) := by
  obtain ⟨n, hview⟩ := h.view
  have hover := h.through hst
  have htotal := hview.total
  have hwithin := hview.within
  rw [BitVec.le_def, hview.issued] at hover
  have hissued : (top z p i t).bridge.dma.rd.rdIssued = (top z p i t).bridge.dma.rd.rdTotal := by
    apply BitVec.eq_of_toNat_eq
    rw [hview.issued]
    omega
  have hcount : (top z p i t).bridge.dma.rd.rf.count = (top z p i t).bridge.dma.rd.rdTotal := by
    apply BitVec.eq_of_toNat_eq
    rw [hview.count]
    omega
  have hsome : (top z p i t).bridge.dma.rd.rdTotal ≠ 0 := by
    intro hzero
    rw [hzero] at htotal
    exact absurd htotal (by simp; omega)
  have hall : (top z p i t).bridge.dma.rd.allBuffered = true := by
    simp only [RdEngine.allBuffered, hissued, hcount, hst, beq_self_eq_true, Bool.and_true]
    exact bne_iff_ne.mpr hsome
  exact h.working.next hN hN' hdrv hrt (by rw [Pos.next, hall]; rfl)

/-- The gate of a memory opens within 32 cycles. -/
theorem rd_gate {k b : ℕ} (hdrv : ∀ t, r < t → Driven z p i r t) (hb : b ≤ 31) (hrt : r < t) :
    ∃ v, t ≤ v ∧ v < t + 32 ∧
      Axi4SimRam.gate ((top z p i v).rdIn (i v)) (top z p i v).uRamRd.lfsr k b = true := by
  refine gate_within (q := fun u => (top z p i u).uRamRd.lfsr) (fun u => rfl) ?_ ?_ hb hrt
  · exact (hdrv t hrt).rst
  · exact fun u hu => (hdrv (u + 1) (by omega)).run u hu (Nat.lt_succ_self u)

theorem wr_gate {k b : ℕ} (hdrv : ∀ t, r < t → Driven z p i r t) (hb : b ≤ 31) (hrt : r < t) :
    ∃ v, t ≤ v ∧ v < t + 32 ∧
      Axi4SimRam.gate ((top z p i v).wrIn (i v)) (top z p i v).uRamWr.lfsr k b = true := by
  refine gate_within (q := fun u => (top z p i u).uRamWr.lfsr) (fun u => rfl) ?_ ?_ hb hrt
  · exact (hdrv t hrt).rst
  · exact fun u hu => (hdrv (u + 1) (by omega)).run u hu (Nat.lt_succ_self u)

/-- Holds in every cycle after a reset. -/
theorem ready_run (hN' : N < 2 ^ 31) (hdrv : ∀ t, r < t → Driven z p i r t) (hrt : r < t) :
    Ready (top z p i t) := by
  obtain ⟨u, rfl⟩ : ∃ u, t = u + 1 := ⟨t - 1, by omega⟩
  rcases Nat.lt_succ_iff_lt_or_eq.mp hrt with hru | rfl
  · have hnow := hdrv (u + 1) (by omega)
    obtain ⟨c, hports⟩ := ports_top (z := z) (p := p) hN' hnow.rst hru fun v hv hvu => hnow.run v hv (by omega)
    exact ready_step (linked_run hN' hnow.rst hru fun v hv hvu => hnow.run v hv (by omega)) hports
      (hnow.run u hru (Nat.lt_succ_self u))
  · exact ready_reset _ (hdrv (r + 1) (Nat.lt_succ_self r)).rst

/-- The stage of a cycle of fetching. -/
theorem Fetches.stage (hN' : N < 2 ^ 31) (hdrv : ∀ t, r < t → Driven z p i r t) (hrt : r < t)
    (h : Fetches z p i c t) : ∃ n, FetchView z c (top z p i t) n ∧ FetchStage c n (top z p i t) := by
  obtain ⟨n, hview⟩ := h.view
  have hnow := hdrv t hrt
  exact ⟨n, hview, hview.stage (linked_run hN' hnow.rst hrt hnow.run) (ready_run hN' hdrv hrt)⟩

/-- An address is on the bus. -/
def AtAr (z : Sizes) (p : Top N A) (i : ℕ → TopIn N A) (c : Cmd A) (t : ℕ) : Prop :=
  Fetches z p i c t ∧ (top z p i t).bridge.dma.rd.rstate = .burst ∧
    (top z p i t).bridge.dma.rd.arvalid = true

/-- A beat is due. -/
def AtLoad (z : Sizes) (p : Top N A) (i : ℕ → TopIn N A) (c : Cmd A) (t : ℕ) : Prop :=
  Fetches z p i c t ∧ (top z p i t).bridge.dma.rd.rstate = .burst ∧
    (top z p i t).bridge.dma.rd.arvalid = false ∧ (top z p i t).uRamRd.rd.rvalid = false

theorem AtAr.stage (hN' : N < 2 ^ 31) (hdrv : ∀ t, r < t → Driven z p i r t) (hrt : r < t)
    (h : AtAr z p i c t) : ∃ n, FetchView z c (top z p i t) n ∧ n < N + c.mRows.toNat ∧
      (top z p i t).uRamRd.rd.arState = .idle ∧ (top z p i t).uRamRd.rd.rvalid = false := by
  obtain ⟨hfetch, hst, hv⟩ := h
  obtain ⟨n, hview, hstage⟩ := hfetch.stage hN' hdrv hrt
  refine ⟨n, hview, ?_⟩
  cases hstage with
  | ar _ _ hs hrv hn => exact ⟨hn, hs, hrv⟩
  | through hst' => simp [hst] at hst'
  | issue hst' => simp [hst] at hst'
  | load _ hv' => simp [hv] at hv'
  | beat _ hv' => simp [hv] at hv'

theorem AtLoad.stage (hN' : N < 2 ^ 31) (hdrv : ∀ t, r < t → Driven z p i r t) (hrt : r < t)
    (h : AtLoad z p i c t) : ∃ n, FetchView z c (top z p i t) n ∧ n < N + c.mRows.toNat ∧
      (top z p i t).uRamRd.rd.arState = .burst := by
  obtain ⟨hfetch, hst, hv, hrv⟩ := h
  obtain ⟨n, hview, hstage⟩ := hfetch.stage hN' hdrv hrt
  refine ⟨n, hview, ?_⟩
  cases hstage with
  | load _ _ hs _ hn => exact ⟨hn, hs⟩
  | through hst' => simp [hst] at hst'
  | issue hst' => simp [hst] at hst'
  | ar _ hv' => simp [hv] at hv'
  | beat _ _ hrv' => simp [hrv] at hrv'

/-- The gate of the address channel opens in time. -/
theorem ar_wait (hN : 0 < N) (hN' : N < 2 ^ 31) (hdrv : ∀ t, r < t → Driven z p i r t) (hrt : r < t)
    (h : AtAr z p i c t) : ∃ v, t < v ∧ v - t ≤ fetchBudget (top z p i t) ∧
      fetchBudget (top z p i v) + (v - t) ≤ fetchBudget (top z p i t) := by
  refine budget_waits (fun u => fetchBudget (top z p i u)) (AtAr z p i c)
    (fun u => ((top z p i u).rdGates (i u)).ar) h ?_ ?_ (rd_gate hdrv (by decide) hrt)
  · intro u htu hu hg
    obtain ⟨n, hview, -, -, hrv⟩ := hu.stage hN' hdrv (by omega)
    have hrst := (hdrv (u + 1) (by omega)).run u (by omega) (Nat.lt_succ_self u)
    have hnext := hu.1.step hN hN' hdrv (by omega) (by rw [hu.2.1]; simp)
    obtain ⟨n', hview'⟩ := hnext.view
    obtain ⟨hst', hv', hsame⟩ := ar_waits hview hview' hrst hu.2.1 hu.2.2 hrv hg
    exact ⟨⟨hnext, hst', hv'⟩, hsame⟩
  · intro u htu hu hg
    obtain ⟨n, hview, hn, hs, hrv⟩ := hu.stage hN' hdrv (by omega)
    have hrst := (hdrv (u + 1) (by omega)).run u (by omega) (Nat.lt_succ_self u)
    obtain ⟨n', hview'⟩ := (hu.1.step hN hN' hdrv (by omega) (by rw [hu.2.1]; simp)).view
    exact ar_pays hview hview' hrst hu.2.1 hu.2.2 hs hrv hn hg

/-- The gate of the data channel opens in time. -/
theorem load_wait (hN : 0 < N) (hN' : N < 2 ^ 31) (hdrv : ∀ t, r < t → Driven z p i r t) (hrt : r < t)
    (h : AtLoad z p i c t) : ∃ v, t < v ∧ v - t ≤ fetchBudget (top z p i t) ∧
      fetchBudget (top z p i v) + (v - t) ≤ fetchBudget (top z p i t) := by
  refine budget_waits (fun u => fetchBudget (top z p i u)) (AtLoad z p i c)
    (fun u => ((top z p i u).rdGates (i u)).r) h ?_ ?_ (rd_gate hdrv (by decide) hrt)
  · intro u htu hu hg
    obtain ⟨n, hview, -, hs⟩ := hu.stage hN' hdrv (by omega)
    have hrst := (hdrv (u + 1) (by omega)).run u (by omega) (Nat.lt_succ_self u)
    have hnext := hu.1.step hN hN' hdrv (by omega) (by rw [hu.2.1]; simp)
    obtain ⟨n', hview'⟩ := hnext.view
    obtain ⟨hst', hv', hrv', hsame⟩ := load_waits hview hview' hrst hu.2.1 hu.2.2.1 hs hu.2.2.2 hg
    exact ⟨⟨hnext, hst', hv', hrv'⟩, hsame⟩
  · intro u htu hu hg
    obtain ⟨n, hview, hn, hs⟩ := hu.stage hN' hdrv (by omega)
    have hrst := (hdrv (u + 1) (by omega)).run u (by omega) (Nat.lt_succ_self u)
    obtain ⟨n', hview'⟩ := (hu.1.step hN hN' hdrv (by omega) (by rw [hu.2.1]; simp)).view
    exact load_pays hview hview' hrst hu.2.1 hu.2.2.1 hs hu.2.2.2 hn hg

/-- The budget of a cycle of fetching pays for the time to another one, or to the launch. -/
theorem fetch_pays (hN : 0 < N) (hN' : N < 2 ^ 31) (hdrv : ∀ t, r < t → Driven z p i r t) (hrt : r < t)
    (h : Fetches z p i c t) : ∃ v, t < v ∧ v - t ≤ fetchBudget (top z p i t) ∧
      (Working z p i c .launch v ∨ fetchBudget (top z p i v) + (v - t) ≤ fetchBudget (top z p i t)) := by
  obtain ⟨n, hview, hstage⟩ := h.stage hN' hdrv hrt
  have hrst := (hdrv (t + 1) (by omega)).run t hrt (Nat.lt_succ_self t)
  cases hstage with
  | through hst =>
    refine ⟨t + 1, Nat.lt_succ_self t, ?_, .inl (h.launch hN hN' hdrv hrt hst)⟩
    simp only [fetchBudget, hst]
    omega
  | issue hst hv =>
    obtain ⟨n', hview'⟩ := (h.step hN hN' hdrv hrt (by rw [hst]; simp)).view
    have hpay : fetchBudget (top z p i (t + 1)) + 1 ≤ fetchBudget (top z p i t) :=
      issue_pays hN' hview hview' hrst hst hv
    exact ⟨t + 1, Nat.lt_succ_self t, by omega, .inr (by omega)⟩
  | ar hst hv =>
    obtain ⟨v, htv, hle, hpaid⟩ := ar_wait hN hN' hdrv hrt ⟨h, hst, hv⟩
    exact ⟨v, htv, hle, .inr hpaid⟩
  | load hst hv _ hrv =>
    obtain ⟨v, htv, hle, hpaid⟩ := load_wait hN hN' hdrv hrt ⟨h, hst, hv, hrv⟩
    exact ⟨v, htv, hle, .inr hpaid⟩
  | beat hst hv hrv hrr hn hmore =>
    obtain ⟨n', hview'⟩ := (h.step hN hN' hdrv hrt (by rw [hst]; simp)).view
    have hpay : fetchBudget (top z p i (t + 1)) + 1 ≤ fetchBudget (top z p i t) :=
      beat_pays hview hview' hrst hst hv hrv hrr hn hmore
    exact ⟨t + 1, Nat.lt_succ_self t, by omega, .inr (by omega)⟩

/-- Fetching ends. -/
theorem fetch_ends (hN : 0 < N) (hN' : N < 2 ^ 31) (hdrv : ∀ t, r < t → Driven z p i r t) (hrt : r < t)
    (h : Fetches z p i c t) :
    ∃ v, t ≤ v ∧ v ≤ t + fetchBudget (top z p i t) ∧ Working z p i c .launch v := by
  refine budget_reaches (fun u => fetchBudget (top z p i u)) fun u htu hnever => ?_
  -- as long as nothing is launched words are fetched
  have hfetch : Fetches z p i c u := by
    induction u, htu using Nat.le_induction with
    | base => exact h
    | succ u htu ih =>
      have hprev := ih fun w hw hwu => hnever w hw (by omega)
      refine hprev.step hN hN' hdrv (by omega) fun hst => ?_
      exact hnever (u + 1) (by omega) le_rfl (hprev.launch hN hN' hdrv (by omega) hst)
  exact fetch_pays hN hN' hdrv (by omega) hfetch

/-- `u_ctrl` takes the same time for every command of `m` rows. -/
theorem run_ends (hN : 0 < N) (hN' : N < 2 ^ 31) (hdrv : ∀ t, r < t → Driven z p i r t) (hrt : r < t)
    (h : Working z p i c .launch t) : Working z p i c .drain (t + (4 * N + c.mRows.toNat + 4)) := by
  have hctrl : ∀ k, k + 1 ≤ 4 * N + c.mRows.toNat + 3 → Working z p i c (.ctrl c.mRows (k + 1)) (t + (k + 1)) := by
    intro k hk
    induction k with
    | zero => exact h.next hN hN' hdrv hrt (by rw [Pos.next, dmaTrace, Top.dmaIn, h.port])
    | succ k ih =>
      have hprev := ih (by omega)
      exact hprev.next hN hN' hdrv (Nat.lt_add_right _ hrt) (by rw [Pos.next, if_neg (by omega)])
  exact (hctrl (4 * N + c.mRows.toNat + 2) le_rfl).next hN hN' hdrv (Nat.lt_add_right _ hrt)
    (by rw [Pos.next, if_pos rfl])

theorem Working.drainView (h : Working z p i c .drain t) : ∃ n, DrainView c (top z p i t) n := by
  obtain ⟨l, w, hcourse⟩ := h.course
  exact ⟨w.length, StreamAxi.drainView hcourse⟩

/-- A drain goes on until all rows are acknowledged. -/
theorem drain_step (hN : 0 < N) (hN' : N < 2 ^ 31) (hdrv : ∀ t, r < t → Driven z p i r t) (hrt : r < t)
    (h : Working z p i c .drain t)
    (hmore : ¬ (top z p i t).bridge.dma.wr.wrTotal ≤ (top z p i t).bridge.dma.wr.wrAcked) :
    Working z p i c .drain (t + 1) ∧ ∀ n, DrainView c (top z p i t) n →
      DrainView c (top z p i (t + 1)) (n + ((top z p i t).bridge.dma.wr.sent (dmaTrace z p i t)).toNat) := by
  have hnext : Pos.drain.next (dmaTrace z p i t) (top z p i t).bridge.dma = some .drain := by
    rw [Pos.next, if_neg hmore]
  refine ⟨h.next hN hN' hdrv hrt hnext, fun n hview => ?_⟩
  obtain ⟨l, w, hcourse⟩ := h.course
  have hnow := hdrv (t + 1) (by omega)
  have hlinked := linked_run (z := z) (p := p) hN' hnow.rst hrt fun u hu hut => hnow.run u hu (by omega)
  have hstep := hcourse.step hN (hnow.run t hrt (Nat.lt_succ_self t)) (hlinked.legal (i t)) h.port hnext
  obtain rfl : w.length = n := (StreamAxi.drainView hcourse).sent.symm.trans hview.sent
  have hlen : (w ++ ((top z p i t).bridge.wBeat ((top z p i t).dmaIn (i t))).toList).length =
      w.length + ((top z p i t).bridge.dma.wr.sent (dmaTrace z p i t)).toNat := by
    rw [List.length_append, wBeat_toList, dmaTrace]
    split
    · next hsent => simp [hsent]
    · next hsent => simp [hsent]
  have hview' : DrainView c (top z p i (t + 1)) _ := StreamAxi.drainView hstep
  rw [hlen] at hview'
  exact hview'

/-- The last cycle of a command. -/
theorem drain_last (hN' : N < 2 ^ 31) (hdrv : ∀ t, r < t → Driven z p i r t) (hrt : r < t)
    (h : Working z p i c .drain t)
    (hover : (top z p i t).bridge.dma.wr.wrTotal ≤ (top z p i t).bridge.dma.wr.wrAcked) :
    (top z p i (t + 1)).bridge.dma.busy = false := by
  obtain ⟨l, w, hcourse⟩ := h.course
  have hnow := hdrv (t + 1) (by omega)
  have hlinked := linked_run (z := z) (p := p) hN' hnow.rst hrt fun u hu hut => hnow.run u hu (by omega)
  have hnone : Pos.drain.next (dmaTrace z p i t) (top z p i t).bridge.dma = none := by
    rw [Pos.next, if_pos hover]
  exact (hcourse.last (hnow.run t hrt (Nat.lt_succ_self t)) (hlinked.legal (i t)) hnone).1.free

/-- Rows that are not sent are not acknowledged. -/
theorem unacked (hdrv : ∀ t, r < t → Driven z p i r t) (hN' : N < 2 ^ 31) (hrt : r < t)
    (hst : (top z p i t).bridge.dma.wr.wstate ≠ .idle) :
    ¬ (top z p i t).bridge.dma.wr.wrTotal ≤ (top z p i t).bridge.dma.wr.wrAcked := by
  intro hover
  have hnow := hdrv t hrt
  obtain ⟨c, hports⟩ := ports_top (z := z) (p := p) hN' hnow.rst hrt hnow.run
  exact hst (hports.sending.over hover).1

theorem Working.stage (hN' : N < 2 ^ 31) (hdrv : ∀ t, r < t → Driven z p i r t) (hrt : r < t)
    (h : Working z p i c .drain t) : ∃ n, DrainView c (top z p i t) n ∧ DrainStage c n (top z p i t) := by
  obtain ⟨n, hview⟩ := h.drainView
  have hnow := hdrv t hrt
  exact ⟨n, hview, hview.stage (linked_run hN' hnow.rst hrt hnow.run)⟩

/-- A write address, or a row, is on the bus. -/
def AtWrite (z : Sizes) (p : Top N A) (i : ℕ → TopIn N A) (c : Cmd A) (st : WState) (t : ℕ) : Prop :=
  Working z p i c .drain t ∧ (top z p i t).bridge.dma.wr.wstate = st

/-- The gate of the address channel opens in time. -/
theorem aw_wait (hN : 0 < N) (hN' : N < 2 ^ 31) (hdrv : ∀ t, r < t → Driven z p i r t) (hrt : r < t)
    (h : AtWrite z p i c .aw t) : ∃ v, t < v ∧ v - t ≤ drainBudget (top z p i t) ∧
      drainBudget (top z p i v) + (v - t) ≤ drainBudget (top z p i t) := by
  have hone : ∀ u, t ≤ u → AtWrite z p i c .aw u → ∃ n, DrainView c (top z p i u) n ∧
      DrainView c (top z p i (u + 1)) n ∧ n < c.mRows.toNat ∧ Working z p i c .drain (u + 1) ∧
      (top z p i u).bridge.dma.wr.awvalid = true ∧ (top z p i u).uRamWr.wr.awState = .idle := by
    intro u htu hu
    obtain ⟨n, hview, hstage⟩ := hu.1.stage hN' hdrv (by omega)
    obtain ⟨hnext, hviews⟩ := drain_step hN hN' hdrv (by omega) hu.1
      (unacked hdrv hN' (by omega) (by rw [hu.2]; simp))
    have hview' := hviews n hview
    cases hstage with
    | aw _ hv hs hn =>
      have hready : (top z p i u).uRamWr.wr.wready ((top z p i u).wrGates (i u)) = false := by
        simp [Axi4SimRam.WriteChannel.wready, hs]
      have hsent : (top z p i u).bridge.dma.wr.sent (dmaTrace z p i u) = false := by
        simp [WrEngine.sent, dmaTrace, Top.dmaIn, hready]
      rw [hsent] at hview'
      exact ⟨n, hview, hview', hn, hnext, hv, hs⟩
    | idle hst => simp [hu.2] at hst
    | data hst => simp [hu.2] at hst
    | bresp hst => simp [hu.2] at hst
  refine budget_waits (fun u => drainBudget (top z p i u)) (AtWrite z p i c .aw)
    (fun u => ((top z p i u).wrGates (i u)).aw) h ?_ ?_ (wr_gate hdrv (by decide) hrt)
  · intro u htu hu hg
    obtain ⟨n, hview, hview', -, hnext, -, -⟩ := hone u htu hu
    have hrst := (hdrv (u + 1) (by omega)).run u (by omega) (Nat.lt_succ_self u)
    obtain ⟨hst', hsame⟩ := aw_waits hview hview' hrst hu.2 hg
    exact ⟨⟨hnext, hst'⟩, hsame⟩
  · intro u htu hu hg
    obtain ⟨n, hview, hview', hn, -, hv, hs⟩ := hone u htu hu
    have hrst := (hdrv (u + 1) (by omega)).run u (by omega) (Nat.lt_succ_self u)
    exact aw_pays hview hview' hrst hu.2 hv hs hn hg

/-- The gate of the data channel opens in time. -/
theorem data_wait (hN : 0 < N) (hN' : N < 2 ^ 31) (hdrv : ∀ t, r < t → Driven z p i r t) (hrt : r < t)
    (h : AtWrite z p i c .data t) : ∃ v, t < v ∧ v - t ≤ drainBudget (top z p i t) ∧
      drainBudget (top z p i v) + (v - t) ≤ drainBudget (top z p i t) := by
  have hone : ∀ u, t ≤ u → AtWrite z p i c .data u → ∃ n, DrainView c (top z p i u) n ∧
      DrainView c (top z p i (u + 1)) (n + ((top z p i u).wrGates (i u)).w.toNat) ∧ n < c.mRows.toNat ∧
      ((top z p i u).bridge.dma.wr.wlast = false → n + 1 < c.mRows.toNat) ∧
      Working z p i c .drain (u + 1) ∧
      (top z p i u).bridge.dma.wr.sent (dmaTrace z p i u) = ((top z p i u).wrGates (i u)).w := by
    intro u htu hu
    obtain ⟨n, hview, hstage⟩ := hu.1.stage hN' hdrv (by omega)
    obtain ⟨hnext, hviews⟩ := drain_step hN hN' hdrv (by omega) hu.1
      (unacked hdrv hN' (by omega) (by rw [hu.2]; simp))
    have hview' := hviews n hview
    cases hstage with
    | data _ hv hs hn hmore =>
      have hready : (top z p i u).uRamWr.wr.wready ((top z p i u).wrGates (i u)) =
          ((top z p i u).wrGates (i u)).w := by
        simp [Axi4SimRam.WriteChannel.wready, hs]
      have hsent : (top z p i u).bridge.dma.wr.sent (dmaTrace z p i u) = ((top z p i u).wrGates (i u)).w := by
        rw [WrEngine.sent, hv, Bool.true_and]
        exact hready
      rw [hsent] at hview'
      exact ⟨n, hview, hview', hn, hmore, hnext, hsent⟩
    | idle hst => simp [hu.2] at hst
    | aw hst => simp [hu.2] at hst
    | bresp hst => simp [hu.2] at hst
  refine budget_waits (fun u => drainBudget (top z p i u)) (AtWrite z p i c .data)
    (fun u => ((top z p i u).wrGates (i u)).w) h ?_ ?_ (wr_gate hdrv (by decide) hrt)
  · intro u htu hu hg
    obtain ⟨n, hview, hview', -, -, hnext, hsent⟩ := hone u htu hu
    have hrst := (hdrv (u + 1) (by omega)).run u (by omega) (Nat.lt_succ_self u)
    rw [hg] at hview'
    obtain ⟨hst', hsame⟩ := data_waits hview hview' hrst hu.2 (hsent.trans hg)
    exact ⟨⟨hnext, hst'⟩, hsame⟩
  · intro u htu hu hg
    obtain ⟨n, hview, hview', hn, hmore, -, hsent⟩ := hone u htu hu
    have hrst := (hdrv (u + 1) (by omega)).run u (by omega) (Nat.lt_succ_self u)
    rw [hg] at hview'
    exact data_pays hview hview' hrst hu.2 hn hmore (hsent.trans hg)

/-- The budget of a cycle of draining pays for the time to another one, or to the end. -/
theorem drain_pays (hN : 0 < N) (hN' : N < 2 ^ 31) (hdrv : ∀ t, r < t → Driven z p i r t) (hrt : r < t)
    (hbyte : c.mRows.toNat ≤ 255) (h : Working z p i c .drain t) :
    ∃ v, t < v ∧ v - t ≤ drainBudget (top z p i t) ∧
      ((top z p i v).bridge.dma.busy = false ∨
        drainBudget (top z p i v) + (v - t) ≤ drainBudget (top z p i t)) := by
  obtain ⟨n, hview, hstage⟩ := h.stage hN' hdrv hrt
  have hrst := (hdrv (t + 1) (by omega)).run t hrt (Nat.lt_succ_self t)
  cases hstage with
  | idle hst hi ha =>
    have htotal := hview.total
    by_cases hover : (top z p i t).bridge.dma.wr.wrTotal ≤ (top z p i t).bridge.dma.wr.wrAcked
    · refine ⟨t + 1, Nat.lt_succ_self t, ?_, .inl (drain_last hN' hdrv hrt h hover)⟩
      simp only [drainBudget, hst]
      omega
    · have hsent : (top z p i t).bridge.dma.wr.sent (dmaTrace z p i t) = false := by
        obtain ⟨c', hports⟩ := ports_top (z := z) (p := p) hN' (hdrv t hrt).rst hrt (hdrv t hrt).run
        exact WrEngine.sent_eq_false (hports.sending.rest hst).2.1
      have hview' := (drain_step hN hN' hdrv hrt h hover).2 n hview
      rw [hsent] at hview'
      rw [BitVec.le_def, ha, htotal] at hover
      have hpay : drainBudget (top z p i (t + 1)) + 1 ≤ drainBudget (top z p i t) :=
        idle_pays hview hview' hrst hst hi (by omega) hbyte
      exact ⟨t + 1, Nat.lt_succ_self t, by omega, .inr (by omega)⟩
  | aw hst =>
    obtain ⟨v, htv, hle, hpaid⟩ := aw_wait hN hN' hdrv hrt ⟨h, hst⟩
    exact ⟨v, htv, hle, .inr hpaid⟩
  | data hst =>
    obtain ⟨v, htv, hle, hpaid⟩ := data_wait hN hN' hdrv hrt ⟨h, hst⟩
    exact ⟨v, htv, hle, .inr hpaid⟩
  | bresp hst hb =>
    have hnot := unacked hdrv hN' hrt (by rw [hst]; simp)
    have hsent : (top z p i t).bridge.dma.wr.sent (dmaTrace z p i t) = false := by
      obtain ⟨rows, -, hwriting⟩ := hview.writing
      cases hwriting with
      | bresp _ _ hw => exact WrEngine.sent_eq_false hw
      | idle hst' => simp [hst] at hst'
      | aw hst' => simp [hst] at hst'
      | data _ _ hst' => simp [hst] at hst'
    have hview' := (drain_step hN hN' hdrv hrt h hnot).2 n hview
    rw [hsent] at hview'
    have hpay : drainBudget (top z p i (t + 1)) + 1 ≤ drainBudget (top z p i t) :=
      bresp_pays hview hview' hrst hst hb
    exact ⟨t + 1, Nat.lt_succ_self t, by omega, .inr (by omega)⟩

/-- Draining ends. -/
theorem drain_ends (hN : 0 < N) (hN' : N < 2 ^ 31) (hdrv : ∀ t, r < t → Driven z p i r t) (hrt : r < t)
    (hbyte : c.mRows.toNat ≤ 255) (h : Working z p i c .drain t) :
    ∃ v, t ≤ v ∧ v ≤ t + drainBudget (top z p i t) ∧ (top z p i v).bridge.dma.busy = false := by
  refine budget_reaches (fun u => drainBudget (top z p i u)) fun u htu hnever => ?_
  have hdrain : Working z p i c .drain u := by
    induction u, htu using Nat.le_induction with
    | base => exact h
    | succ u htu ih =>
      have hprev := ih fun w hw hwu => hnever w hw (by omega)
      refine (drain_step hN hN' hdrv (by omega) hprev fun hover => ?_).1
      exact hnever (u + 1) (by omega) le_rfl (drain_last hN' hdrv (by omega) hprev hover)
  exact drain_pays hN hN' hdrv (by omega) hbyte hdrain

theorem drainBudget_le (h : Working z p i c .drain t) :
    drainBudget (top z p i t) ≤ 66 * c.mRows.toNat + 2 := by
  obtain ⟨n, hview⟩ := h.drainView
  rw [drainBudget_eq hview]
  split <;> omega

/-- An accepted start begins to fetch. -/
theorem fetches_start (hN : 0 < N) (hN' : N < 2 ^ 31) (hdepths : z.depths.rd ≤ N + z.depths.wr)
    (hdrv : ∀ t, r < t → Driven z p i r t) (hrt : r < t) (hstart : (i t).start = true)
    (hfree : (top z p i t).bridge.dma.busy = false) (hfit : N + (i t).cmd.mRows.toNat ≤ z.depths.rd) :
    Fetches z p i (i t).cmd (t + 1) ∧
      fetchBudget (top z p i (t + 1)) = 66 * (N + (i t).cmd.mRows.toNat) + 2 := by
  have hnow := (hdrv t hrt).bridge hN'
  have hlow := hfree
  rw [run_bridge] at hlow
  -- the commands before this one fitted, so that both sides rest
  have hrest : Rest z.depths (top z p i t).bridge := by
    rw [run_bridge]
    rcases rest_or_course hN hnow.rst hrt hnow.run hnow.legal
      (fun u hru hut hacc => hnow.sized hN hN' hdepths hlow hru hut hacc) hnow.held with
      ⟨hrest, -⟩ | ⟨s, -, hst, -, -, hbusy⟩
    · exact hrest
    · have hhigh := hbusy t hst (Nat.lt_succ_self t)
      rw [hlow] at hhigh
      cases hhigh
  have hrows := (hdrv (t + 1) (by omega)).rows t hrt (Nat.lt_succ_self t) hstart hfree
  have hsized : Sized N z.depths (i t).cmd := ⟨hrows, hfit, by omega⟩
  have hrst := (hdrv (t + 1) (by omega)).run t hrt (Nat.lt_succ_self t)
  have hlinked := linked_run (z := z) (p := p) hN' hnow.rst hrt fun u hu hut => (hdrv t hrt).run u hu hut
  obtain ⟨-, -, -, -, hgo⟩ := hrest.step (i := dmaTrace z p i t) hrst (hlinked.legal (i t))
  have hcourse : Course z.depths (i t).cmd [] [] .fetch (top z p i (t + 1)).bridge := hgo hstart hsized
  have hport := (hdrv (t + 2) (by omega)).held t hrt (by omega) hcourse.busy
  have hissue : (top z p i (t + 1)).bridge.dma.rd.rstate = .issue := by
    have hacc : (top z p i t).bridge.dma.accept (dmaTrace z p i t) = true := by
      simp [Dma.accept, hfree, dmaTrace, Top.dmaIn, hstart]
    have hrd : (top z p i (t + 1)).bridge.dma.rd = (top z p i t).bridge.dma.rd.step z.depths.rd
        (dmaTrace z p i t) true (top z p i t).bridge.dma.core.ctrl.rdEn := by
      rw [← hacc]
      rfl
    rw [hrd, RdEngine.step_accept hrst hrest.read.rest]
  have hview := fetchView hcourse
  refine ⟨⟨⟨⟨_, _, hcourse⟩, hport⟩, fun hidle => ?_⟩, ?_⟩
  · rw [hissue] at hidle
    cases hidle
  · rw [fetchBudget_issue hview hissue]
    rfl

/-- A command that fits ends. -/
theorem command_ends {a : ℕ} (hN : 0 < N) (hN' : N < 2 ^ 31) (hdepths : z.depths.rd ≤ N + z.depths.wr)
    (hdrv : ∀ t, r < t → Driven z p i r t) (hra : r < a) (hstart : (i a).start = true)
    (hfree : (top z p i a).bridge.dma.busy = false)
    (hfit : N + (i a).cmd.mRows.toNat ≤ z.depths.rd) (hbyte : (i a).cmd.mRows.toNat ≤ 255) :
    ∃ e, a < e ∧ e ≤ a + (133 * (i a).cmd.mRows.toNat + 70 * N + 9) ∧
      (top z p i e).bridge.dma.busy = false := by
  obtain ⟨hfetch, hbudget⟩ := fetches_start hN hN' hdepths hdrv hra hstart hfree hfit
  obtain ⟨v, hav, hva, hlaunch⟩ := fetch_ends hN hN' hdrv (by omega) hfetch
  have hdrain := run_ends hN hN' hdrv (by omega) hlaunch
  have hleft := drainBudget_le hdrain
  obtain ⟨e, hve, hev, hlow⟩ := drain_ends hN hN' hdrv (Nat.lt_add_right _ (by omega)) hbyte hdrain
  exact ⟨e, by omega, by omega, hlow⟩

end run

/-- **`stream_axi_top` ends every command** that fits the FIFOs and has at most 255 rows,
in every run whose commands have a row at least and keep their row count on the port, and
however the memories stall: `busy` stays high for at most 133 cycles per row and 70 per
lane, and falls together with the done pulse. -/
theorem stream_axi_top_terminates (z : Sizes) (hN : 0 < N) (hN' : N < 2 ^ 31)
    (hdepths : z.depths.rd ≤ N + z.depths.wr) (p : Top N A) (i : ℕ → TopIn N A) {r a : ℕ} (hra : r < a)
    (h : ∀ t, r < t → Driven z p i r t) (hstart : (i a).start = true)
    (hfree : (top z p i a).bridge.dma.busy = false)
    (hfit : N + (i a).cmd.mRows.toNat ≤ z.depths.rd) (hbyte : (i a).cmd.mRows.toNat ≤ 255) :
    ∃ t, a < t ∧ t ≤ a + (133 * (i a).cmd.mRows.toNat + 70 * N + 9) ∧
      (∀ u, a < u → u < t → (top z p i u).bridge.dma.busy = true) ∧
      (top z p i t).bridge.dma.busy = false ∧ (top z p i t).bridge.dma.done = true := by
  obtain ⟨e, hae, hle, hlow⟩ := command_ends hN hN' hdepths h hra hstart hfree hfit hbyte
  -- the first free cycle is the one of the done pulse
  rw [run_bridge] at hlow
  obtain ⟨t, hat, hte, hbusy, hend⟩ := first_free hae hlow
  have hhigh : ∀ u, a < u → u < t → (top z p i u).bridge.dma.busy = true := by
    intro u hau hut
    rw [run_bridge]
    exact hbusy u hau hut
  rw [← run_bridge] at hend
  refine ⟨t, hat, by omega, hhigh, hend, ?_⟩
  obtain ⟨u, rfl⟩ : ∃ u, t = u + 1 := ⟨t - 1, by omega⟩
  have hrst := (h (u + 1) (by omega)).run u (by omega) (Nat.lt_succ_self u)
  have hlast : (top z p i u).bridge.dma.busy = true := by
    apply hhigh u _ (Nat.lt_succ_self u)
    rcases Nat.lt_succ_iff_lt_or_eq.mp hat with hau | rfl
    · exact hau
    · have hrise := busy_after_accept (d := z.depths) (p := p.bridge) (i := dmaTrace z p i) hrst
        ⟨hstart, by rw [← run_bridge]; exact hfree⟩
      rw [← run_bridge, hend] at hrise
      cases hrise
  exact done_of_end (j := dmaTrace z p i u) hrst hlast hend

/-- The command of two rows is over after 345 cycles at the latest. -/
theorem stream_axi_top_terminates_demo : ∃ t, 1 < t ∧ t ≤ 346 ∧
    (top demoSizes demoTop demoIn t).bridge.dma.done = true := by
  obtain ⟨t, hat, hta, -, -, hdone⟩ := stream_axi_top_terminates demoSizes (by decide) (by decide)
    (by decide) demoTop demoIn (show 0 < 1 by decide) (fun t _ => demoIn_driven t) rfl
    (by decide +kernel) (by decide) (by decide)
  exact ⟨t, hat, hta, hdone⟩

end StreamAxi
