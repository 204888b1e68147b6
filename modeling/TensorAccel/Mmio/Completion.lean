import TensorAccel.Mmio.CoprocAxiSimTop

/-! # Every command completes

    At most four commands wait and one is started or runs, so that an accepted
    command is at most the fifth one to end.  The budget counts those in front of
    it, whatever is accepted behind it. -/

open Clocked StreamCtrl CmdQueueRegs StreamAxi

namespace CoprocAxi

namespace AxiSimTop

variable {N : ℕ}

/-- Cycles from the start of a command of at most `R` rows to its end. -/
def commandBound (N R : ℕ) : ℕ := 133 * R + 70 * N + 9

/-- A run in which all commands fit and have at most `R` rows. -/
structure Bounded (P : SimParams N) (p : AxiSimTop N) (i : ℕ → SimIn N) (r R : ℕ) : Prop where
  commanded : ∀ t, r < t → Commanded P p i r t
  rows : ∀ t, ∀ c ∈ accepted P p i (r + 1) t, c.mRows.toNat ≤ R
  fit : R ≤ P.maxRows
  byte : R ≤ 255

/-- Commands started up to and including cycle `t`. -/
def startCount (P : SimParams N) (p : AxiSimTop N) (i : ℕ → SimIn N) (r t : ℕ) : ℕ :=
  (AxiTop.started P.toParams p.uDut (dutTrace P p i) (r + 1) (t + 1)).length

/-- What is to be paid in cycle `t` until `n` commands have ended. -/
def endBudget (P : SimParams N) (p : AxiSimTop N) (i : ℕ → SimIn N) (r R n t : ℕ) : ℕ :=
  (n - startCount P p i r t) * (commandBound N R + 2) +
    if (sim P p i t).uDut.regs.start then commandBound N R + 1
    else if (sim P p i t).uDut.bridge.dma.busy then commandBound N R else 0

section runs
variable {P : SimParams N} {p : AxiSimTop N} {i : ℕ → SimIn N} {r s t u R n : ℕ}

theorem startCount_succ (hrt : r ≤ t) : startCount P p i r (t + 1) =
    startCount P p i r t + (sim P p i (t + 1)).uDut.regs.start.toNat := by
  rw [startCount, AxiTop.started, eventsIn_succ _ (Nat.succ_le_succ hrt), List.length_append, ← run_dut,
    Regs.startEvent]
  cases (sim P p i (t + 1)).uDut.regs.start <;> rfl

/-- Accepted commands were started or wait. -/
theorem length_accepted (h : Commanded P p i r t) (hrt : r < t) : (accepted P p i (r + 1) t).length =
    startCount P p i r t + (sim P p i t).uDut.regs.queue.length := by
  have hbal := AxiTop.accepted_eq (P := P.toParams) (p := p.uDut) (i := dutTrace P p i) h.rst hrt h.run
  rw [accepted_eq, hbal, List.length_append, ← run_dut, startCount]

/-- No start pulse follows a cycle in which the bridge is busy or started. -/
theorem start_low (h : Commanded P p i r (t + 1)) (hrt : r < t)
    (hhigh : (sim P p i t).uDut.bridge.dma.busy = true ∨ (sim P p i t).uDut.regs.start = true) :
    (sim P p i (t + 1)).uDut.regs.start = false := by
  have hrst := h.run t hrt (Nat.lt_succ_self t)
  by_contra hstart
  obtain ⟨hfree, hlow⟩ := @Regs.start_of_pop 32 P.baseAddr ((sim P p i t).regsIn (i t)) _ hrst
    (Bool.eq_true_of_not_eq_false hstart)
  have hfree' : (sim P p i t).uDut.bridge.dma.busy = false := hfree
  simp [hfree', hlow] at hhigh

/-- The queue does not wait for anything but the bridge. -/
theorem start_next {i : SimIn N} {s : AxiSimTop N} (hrst : i.rst = false)
    (hfree : s.uDut.bridge.dma.busy = false) (hlow : s.uDut.regs.start = false)
    (hwait : s.uDut.regs.queue ≠ []) : (step P i s).uDut.regs.start = true := by
  have hempty : s.uDut.regs.fifoEmpty = false := by
    by_contra hempty
    exact hwait (Regs.fifoEmpty_iff.mp (Bool.eq_true_of_not_eq_false hempty))
  have hreset : (s.regsIn i).rst = false := hrst
  have hbusy : (s.regsIn i).busy = false := hfree
  have hpop : s.uDut.regs.pop (s.regsIn i) = true := by
    simp [Regs.pop, hbusy, hempty, hlow]
  have hstep : (step P i s).uDut.regs = Regs.step P.baseAddr (s.regsIn i) s.uDut.regs := rfl
  rw [hstep, Regs.step, if_neg (by simp [hreset])]
  exact hpop

/-- The cycle after a start pulse is busy. -/
theorem busy_next (h : Commanded P p i r (t + 1)) (hrt : r < t)
    (hstart : (sim P p i t).uDut.regs.start = true) : (sim P p i (t + 1)).uDut.bridge.dma.busy = true := by
  have hfree := (h.mono hrt (Nat.le_succ t)).start_free hrt hstart
  rw [run_dut, AxiTop.run_bridge] at hfree ⊢
  refine DmaBridge.busy_after_accept (h.run t hrt (Nat.lt_succ_self t)) ⟨?_, hfree⟩
  rw [run_dut] at hstart
  exact hstart

/-- A command that runs ends in time, and no other one is started before. -/
theorem busy_ends (hN : 0 < N) (h : Bounded P p i r R) (hrt : r < t)
    (hbusy : (sim P p i t).uDut.bridge.dma.busy = true) :
    ∃ e, t < e ∧ e ≤ t + commandBound N R ∧ (sim P p i e).uDut.bridge.dma.busy = false ∧
      (sim P p i e).uDut.regs.start = false ∧ startCount P p i r e = startCount P p i r t := by
  have hnow := h.commanded t hrt
  have hdepths : P.sizes.depths.rd ≤ N + P.sizes.depths.wr := Nat.le_of_eq (Nat.add_comm P.maxRows N)
  -- the command was started in a cycle `a` before
  obtain ⟨c, -, hcmd⟩ := DmaBridge.ports_run (d := P.sizes.depths) (p := p.streamTop.bridge)
    (i := StreamAxi.dmaTrace P.sizes p.streamTop (streamTrace P p i)) P.lanes_lt hnow.rst hrt hnow.run
    (legal_run P.lanes_lt hnow.rst hnow.run)
  rw [← StreamAxi.run_bridge, ← run_stream] at hcmd
  obtain ⟨a, hra, hat, hacc, hbetween, -⟩ := hcmd hbusy
  have hstart : (sim P p i a).uDut.regs.start = true := hacc.1
  have hfree : (top P.sizes p.streamTop (streamTrace P p i) a).bridge.dma.busy = false := by
    rw [StreamAxi.run_bridge]
    exact hacc.2
  have hmem := hnow.accepted hra hat hstart
  have hrows := h.rows t _ hmem
  have hsame : ((streamTrace P p i a).cmd).mRows = (sim P p i a).uDut.regs.cmd.mRows := rfl
  have hfit := h.fit
  have hbyte := h.byte
  have hrd : P.sizes.depths.rd = P.maxRows + N := rfl
  obtain ⟨e, hae, hle, hend⟩ := command_ends (a := a) hN P.lanes_lt hdepths (fun t ht => (h.commanded t ht).driven)
    hra hstart hfree (by rw [hsame, hrd]; omega) (by rw [hsame]; omega)
  rw [hsame] at hle
  rw [StreamAxi.run_bridge] at hend
  have hte : t < e := by
    by_contra hge
    have hhigh := hbetween e hae (by omega)
    rw [hend] at hhigh
    simp at hhigh
  -- up to the first free cycle the queue waits
  obtain ⟨f, htf, hfe, hhigh, hlow⟩ := DmaBridge.first_free hte hend
  rw [← StreamAxi.run_bridge, ← run_stream] at hlow
  have hquiet : ∀ v, t ≤ v → v < f → (sim P p i (v + 1)).uDut.regs.start = false := by
    intro v htv hvf
    refine start_low (h.commanded (v + 1) (by omega)) (by omega) (.inl ?_)
    rcases Nat.eq_or_lt_of_le htv with rfl | hlt
    · exact hbusy
    · have hb := hhigh v hlt hvf
      rw [← StreamAxi.run_bridge, ← run_stream] at hb
      exact hb
  have hcount : ∀ v, t ≤ v → v ≤ f → startCount P p i r v = startCount P p i r t := by
    intro v htv
    induction v, htv using Nat.le_induction with
    | base => exact fun _ => rfl
    | succ v htv ih =>
      intro hvf
      rw [startCount_succ (by omega), hquiet v htv (by omega), ih (by omega)]
      rfl
  obtain ⟨v, rfl⟩ : ∃ v, f = v + 1 := ⟨f - 1, by omega⟩
  refine ⟨v + 1, htf, ?_, hlow, hquiet v (by omega) (Nat.lt_succ_self v), hcount _ htf.le le_rfl⟩
  unfold commandBound
  omega

/-- The budget pays for the time to the end of `n` accepted commands. -/
theorem ends_pay (hN : 0 < N) (h : Bounded P p i r R) (hrt : r < t) (hn : n ≤ (accepted P p i (r + 1) t).length) :
    ∃ e, t ≤ e ∧ e ≤ t + endBudget P p i r R n t ∧ n ≤ startCount P p i r e ∧
      (sim P p i e).uDut.regs.start = false ∧ (sim P p i e).uDut.bridge.dma.busy = false := by
  refine budget_reaches (endBudget P p i r R n) fun u htu hnever => ?_
  have hru : r < u := by omega
  have hnow := h.commanded (u + 1) (by omega)
  cases hstart : (sim P p i u).uDut.regs.start with
  | true =>
    have hlow := start_low hnow hru (.inr hstart)
    have hhigh := busy_next hnow hru hstart
    have hcount : startCount P p i r (u + 1) = startCount P p i r u := by
      rw [startCount_succ hru.le, hlow]
      rfl
    refine ⟨u + 1, Nat.lt_succ_self u, ?_, .inr ?_⟩
    all_goals
      simp only [endBudget, hstart, hlow, hhigh, hcount, if_true, Bool.false_eq_true, if_false]
      omega
  | false =>
    cases hbusy : (sim P p i u).uDut.bridge.dma.busy with
    | true =>
      obtain ⟨e, hue, hle, hfree, hlow, hcount⟩ := busy_ends hN h hru hbusy
      refine ⟨e, hue, ?_, .inr ?_⟩
      all_goals
        simp only [endBudget, hstart, hbusy, hfree, hlow, hcount, if_true, Bool.false_eq_true, if_false]
        omega
    | false =>
      -- otherwise one of the `n` commands waits
      have hmore : startCount P p i r u < n := by
        by_contra hover
        exact hnever u htu le_rfl ⟨by omega, hstart, hbusy⟩
      have hwait : (sim P p i u).uDut.regs.queue ≠ [] := by
        intro hempty
        have hlen := length_accepted (h.commanded u hru) hru
        have hmono : (accepted P p i (r + 1) t).length ≤ (accepted P p i (r + 1) u).length :=
          (eventsIn_initial _ hrt htu).length_le
        rw [hempty, List.length_nil] at hlen
        omega
      have hnext : (sim P p i (u + 1)).uDut.regs.start = true :=
        start_next (hnow.run u hru (Nat.lt_succ_self u)) hbusy hstart hwait
      have hcount : startCount P p i r (u + 1) = startCount P p i r u + 1 := by
        rw [startCount_succ hru.le, hnext]
        rfl
      obtain ⟨k, hk⟩ : ∃ k, n = startCount P p i r u + k + 1 := ⟨n - startCount P p i r u - 1, by omega⟩
      have hleft : n - startCount P p i r u = k + 1 := by omega
      have hleft' : n - (startCount P p i r u + 1) = k := by omega
      refine ⟨u + 1, Nat.lt_succ_self u, ?_, .inr ?_⟩
      all_goals
        simp only [endBudget, hstart, hbusy, hnext, hcount, hleft, hleft', if_true, Bool.false_eq_true, if_false,
          Nat.succ_mul]
        omega

/-- Four wait at most. -/
theorem endBudget_le (h : Bounded P p i r R) (hrt : r < t) (hn : n ≤ (accepted P p i (r + 1) t).length) :
    endBudget P p i r R n t ≤ 5 * (commandBound N R + 2) := by
  have hnow := h.commanded t hrt
  have hlen := length_accepted hnow hrt
  have hcap : (sim P p i t).uDut.regs.queue.length ≤ 4 := (hnow.valid hrt).length.trans_le (hnow.valid hrt).cap
  have hleft : n - startCount P p i r t ≤ 4 := by omega
  have hmul := Nat.mul_le_mul_right (commandBound N R + 2) hleft
  unfold endBudget
  split
  · omega
  · split
    · omega
    · omega

/-- A bridge that is not started stays at rest. -/
theorem rest_next {i : SimIn N} {s : AxiSimTop N} (hrst : i.rst = false) (hfree : s.uDut.bridge.dma.busy = false)
    (hlow : s.uDut.regs.start = false) :
    (step P i s).uDut.bridge.dma.busy = false ∧ (step P i s).uDut.bridge.dma.done = false := by
  have hb : s.uDut.bridge.dma.bstate = .idle := by
    simpa [DmaBridge.Dma.busy] using hfree
  have hr : (AxiTop.dmaIn (s.dutIn i) s.uDut).rst = false := hrst
  have hs : (AxiTop.dmaIn (s.dutIn i) s.uDut).start = false := hlow
  have hstep : (step P i s).uDut.bridge.dma =
      s.uDut.bridge.dma.step P.depths (AxiTop.dmaIn (s.dutIn i) s.uDut) := rfl
  rw [hstep]
  constructor
  · simp [DmaBridge.Dma.step, DmaBridge.Dma.busy, hr, hb, hs]
  · simp [DmaBridge.Dma.step, hr, hb]

/-- Without a new command rest becomes idle, and stays so. -/
theorem idle_next (h : Commanded P p i r (t + 1)) (hrt : r < t)
    (hfree : (sim P p i t).uDut.bridge.dma.busy = false) (hlow : (sim P p i t).uDut.regs.start = false)
    (hqueue : (sim P p i t).uDut.regs.queue = []) (hnone : enqEvent P (i t) (sim P p i t) = none) :
    (sim P p i (t + 1)).idle = true := by
  have hpending := pending_step h hrt
  rw [hqueue, hnone] at hpending
  obtain ⟨hlow', hempty⟩ := not_start_of_pending hpending
  obtain ⟨hfree', hdone'⟩ := rest_next (P := P) (h.run t hrt (Nat.lt_succ_self t)) hfree hlow
  have hsim : sim P p i (t + 1) = step P (i t) (sim P p i t) := rfl
  rw [idle, Regs.fifoEmpty_iff.mpr hempty, hlow', hsim, hfree', hdone']
  rfl

/-- When no command is accepted any more, `STATUS` stays idle once it is. -/
theorem idle_stays (h : ∀ t, r < t → Commanded P p i r t) (hrt : r < t) (hidle : (sim P p i t).idle = true)
    (hnone : ∀ v, t ≤ v → enqEvent P (i v) (sim P p i v) = none) (htu : t ≤ u) :
    (sim P p i u).idle = true := by
  induction u, htu using Nat.le_induction with
  | base => exact hidle
  | succ u htu ih =>
    obtain ⟨hpending, hfree, -⟩ := idle_rest ih
    obtain ⟨hlow, hqueue⟩ := not_start_of_pending hpending
    exact idle_next (h (u + 1) (by omega)) (by omega) hfree hlow hqueue (hnone u htu)

/-- The commands accepted before `t` have all ended in cycle `e`. -/
structure Ended (P : SimParams N) (p : AxiSimTop N) (i : ℕ → SimIn N) (r t e : ℕ) : Prop where
  later : t ≤ e
  all : (accepted P p i (r + 1) t).length ≤ startCount P p i r e
  start : (sim P p i e).uDut.regs.start = false
  busy : (sim P p i e).uDut.bridge.dma.busy = false

theorem ended_in_time (hN : 0 < N) (h : Bounded P p i r R) (hrt : r < t) :
    ∃ e, e ≤ t + 5 * (commandBound N R + 2) ∧ Ended P p i r t e := by
  obtain ⟨e, hte, hle, hn, hlow, hfree⟩ := ends_pay hN h hrt le_rfl
  have hbudget := endBudget_le h hrt le_rfl
  exact ⟨e, by omega, hte, hn, hlow, hfree⟩

/-- If no command follows, `STATUS` is idle from then on. -/
theorem Ended.idle {e : ℕ} (hend : Ended P p i r t e) (h : ∀ t, r < t → Commanded P p i r t) (hrt : r < t)
    (hnone : ∀ v, t ≤ v → enqEvent P (i v) (sim P p i v) = none) (heu : e < u) :
    (sim P p i u).idle = true := by
  have hte := hend.later
  have hall := hend.all
  have hsame : accepted P p i (r + 1) e = accepted P p i (r + 1) t := by
    rw [accepted, eventsIn_split _ hrt hte, eventsIn_eq_nil fun v hv _ => hnone v hv, List.append_nil]
    rfl
  have hlen := length_accepted (h e (by omega)) (by omega)
  rw [hsame] at hlen
  have hqueue : (sim P p i e).uDut.regs.queue = [] := List.length_eq_zero_iff.mp (by omega)
  have hnext := idle_next (h (e + 1) (by omega)) (by omega) hend.busy hend.start hqueue (hnone e hte)
  exact idle_stays h (by omega) hnext (fun v hv => hnone v (by omega)) heu

end runs

/-- **Every accepted command completes**, however the memories stall and whatever is
accepted behind it: for commands of 1 to `R` rows, `R ≤ 255`, that fit the FIFOs, all
that were accepted before cycle `t` have had their done pulse `5 * (133 * R + 70 * N + 11)`
cycles later.  If none is accepted any more, `STATUS` then shows idle for good. -/
theorem axi_sim_top_completes (P : SimParams N) (hN : 0 < N) (p : AxiSimTop N) (i : ℕ → SimIn N) {r R : ℕ}
    (h : Bounded P p i r R) (t : ℕ) (hrt : r < t) :
    ∃ e, t ≤ e ∧ e ≤ t + 5 * (133 * R + 70 * N + 11) ∧
      (accepted P p i (r + 1) t).length ≤
        countIn (fun u => (sim P p i u).uDut.bridge.dma.done) (r + 1) (e + 1) ∧
      ((∀ v, t ≤ v → enqEvent P (i v) (sim P p i v) = none) → ∀ u, e < u → (sim P p i u).idle = true) := by
  obtain ⟨e, hle, hend⟩ := ended_in_time hN h hrt
  have hte := hend.later
  have hre : r < e := by omega
  have hnow := h.commanded e hre
  refine ⟨e, hte, hle, ?_, fun hnone u heu => hend.idle h.commanded hrt hnone heu⟩
  have hfree : (top P.sizes p.streamTop (streamTrace P p i) e).bridge.dma.busy = false := by
    rw [← run_stream]
    exact hend.busy
  have hpulses := (counts_free hN P.lanes_lt (Nat.le_of_eq (Nat.add_comm P.maxRows N)) hnow.driven hre hfree).1
  rw [started_eq hnow.rst hnow.run] at hpulses
  simp only [← run_stream] at hpulses
  have hcount : startCount P p i r e =
      (AxiTop.started P.toParams p.uDut (dutTrace P p i) (r + 1) e).length := by
    rw [startCount, AxiTop.started, eventsIn_succ _ hre, ← run_dut, Regs.startEvent, hend.start]
    simp [AxiTop.started]
  have hall := hend.all
  rw [hcount, ← hpulses] at hall
  exact hall

/-- A session of two commands: both complete within 1070 cycles. -/
theorem axi_sim_top_completes_demo : ∃ e, 8 ≤ e ∧ e ≤ 1078 ∧
    2 ≤ countIn (fun u => (sim demoSim demoTop demoIn u).uDut.bridge.dma.done) 1 (e + 1) := by
  have hrun : ∀ u, 0 < u → (demoIn u).rst = false := by
    intro u hu
    simp only [demoIn, beq_eq_false_iff_ne]
    omega
  have hfirst : accepted demoSim demoTop demoIn 1 8 = [⟨0, 16, 64, 1⟩, ⟨0, 24, 68, 1⟩] := by decide +kernel
  -- there is no store after cycle 7
  have hlate : ∀ u, 8 ≤ u → enqEvent demoSim (demoIn u) (sim demoSim demoTop demoIn u) = none := by
    intro u hu
    have hwen : (demoIn u).dmemWen = false := by
      simp [demoIn]
      omega
    simp [enqEvent, Regs.enqEvent, Regs.enqueue, RegsIn.wrHit, regsIn, AxiTop.regsIn, dutIn, hwen]
  have haccepted : ∀ t, accepted demoSim demoTop demoIn 1 t <+: [⟨0, 16, 64, 1⟩, ⟨0, 24, 68, 1⟩] := by
    intro t
    rw [← hfirst]
    rcases Nat.le_total t 8 with hle | hle
    · rcases Nat.eq_zero_or_pos t with rfl | hpos
      · exact List.nil_prefix
      · exact eventsIn_initial _ hpos hle
    · rw [accepted, eventsIn_split _ (by decide) hle, eventsIn_eq_nil fun v hv _ => hlate v hv, List.append_nil]
      exact List.prefix_rfl
  have hone : ∀ t, ∀ c ∈ accepted demoSim demoTop demoIn 1 t, c.mRows.toNat = 1 := by
    intro t c hc
    have hboth : ∀ c ∈ [(⟨0, 16, 64, 1⟩ : Cmd 32), ⟨0, 24, 68, 1⟩], c.mRows.toNat = 1 := by decide
    exact hboth c ((haccepted t).subset hc)
  have hbounded : Bounded demoSim demoTop demoIn 0 1 :=
    ⟨fun t _ => ⟨rfl, fun u hu _ => hrun u hu, fun c hc => (hone t c hc).ge⟩, fun t c hc => (hone t c hc).le,
      by decide, by decide⟩
  obtain ⟨e, hle, hte, hall, -⟩ := axi_sim_top_completes demoSim (by decide) demoTop demoIn hbounded 8 (by decide)
  rw [hfirst] at hall
  exact ⟨e, hle, hte, hall⟩

end AxiSimTop

end CoprocAxi
