import TensorAccel.Axi.FifoBalance

/-! # The command port of the bridge

    Two runs that accept the same command in the same state, with different
    values on the command port afterwards.  The bridge has latched the bases and
    the row count, but it passes the row count on the port to `u_ctrl`, which
    samples it when `ctrl_start` is high. -/

open Clocked Burst StreamCtrl

namespace DmaBridge

variable {N A : ℕ}

/-- The same reset and subordinates; `start` and the command may differ. -/
def SameBus (i j : DmaIn N A) : Prop := j = { i with start := j.start, cmd := j.cmd }

section step
variable {i : DmaIn N A} {st : Bool} {c : Cmd A}

/-- Nothing is latched without an accepted start. -/
theorem RdEngine.step_ignores (D : ℕ) (rdEn : Bool) (s : RdEngine N A) :
    s.step D { i with start := st, cmd := c } false rdEn = s.step D i false rdEn := by
  unfold RdEngine.step
  simp only [Bool.false_eq_true, if_false]
  rfl

theorem WrEngine.step_ignores (D : ℕ) (cBaseLat : BitVec A) (wrEn : Bool) (wrData : Lanes32 N) (s : WrEngine N A) :
    s.step D { i with start := st, cmd := c } false cBaseLat wrEn wrData = s.step D i false cBaseLat wrEn wrData := by
  unfold WrEngine.step
  simp only [Bool.false_eq_true, if_false]
  rfl

/-- `u_ctrl` looks at its command with `start` high only. -/
theorem ctrl_ignores {k l : CoreIn N A} (hr : k.rst = l.rst) (hst : k.start = l.start) (hd : k.rdData = l.rdData)
    (hcmd : k.start = true → k.cmd = l.cmd) (s : Core N A) : Core.step k s = Core.step l s := by
  cases hk : k.start with
  | true =>
    have hkl : k = l := by
      rcases k with ⟨_, _, _, _⟩
      rcases l with ⟨_, _, _, _⟩
      simp only [CoreIn.mk.injEq] at *
      exact ⟨hr, hst, hcmd hk, hd⟩
    rw [hkl]
  | false =>
    have hl : l.start = false := hst ▸ hk
    have hctrl : Ctrl.step (Core.ctrlIn k s) s.ctrl = Ctrl.step (Core.ctrlIn l s) s.ctrl := by
      by_cases hidle : s.ctrl.state = .idle
      · simp [Ctrl.step, Ctrl.fsm, Core.ctrlIn, hidle, hk, hl, hr]
      · exact Ctrl.step_congr hidle hr hd rfl
    simp only [Core.step, hctrl, hr, hd]

/-- A busy bridge depends on the command port in the launch cycle only, and
there on the row count only. -/
theorem Sys.step_ignores (d : Depths) {s : Sys N A} (hbusy : s.dma.busy = true)
    (hrows : s.dma.ctrlStart = true → c.mRows = i.cmd.mRows) :
    s.step d { i with start := st, cmd := c } = s.step d i := by
  have hno : ∀ k : DmaIn N A, Dma.accept k s.dma = false := by
    intro k
    rw [Dma.accept, hbusy, Bool.not_true, Bool.and_false]
  have hcore : Core.step (Dma.coreIn { i with start := st, cmd := c } s.dma) s.dma.core =
      Core.step (Dma.coreIn i s.dma) s.dma.core := by
    refine ctrl_ignores ?_ ?_ ?_ ?_ s.dma.core
    · rfl
    · rfl
    · rfl
    · intro hlaunch
      simp only [Dma.coreIn, hrows hlaunch]
  have hstate : s.dma.bstate ≠ .idle := by simpa [Dma.busy] using hbusy
  have hdma : s.dma.step d { i with start := st, cmd := c } = s.dma.step d i := by
    unfold Dma.step
    rw [hcore, hno, hno, Bool.and_false, RdEngine.step_ignores, WrEngine.step_ignores]
    congr 1
    cases hb : s.dma.bstate with
    | idle => exact absurd hb hstate
    | _ => rfl
  simp only [Sys.step, hdma]
  rfl

end step

/-- **A command is the values sampled at its start, up to the row count**: two
runs in the same state that take the same start in cycle `s` issue the same
AXI transactions, write the same data and are done in the same cycle, whatever
is on the command port afterwards, as long as they present the same row count
in the cycle in which `ctrl_start` is high. -/
theorem command_sampled (d : Depths) {p q : Sys N A} {i j : ℕ → DmaIn N A} {s t : ℕ}
    (hmeet : run (Sys.step d) p i s = run (Sys.step d) q j s) (hcmd : i s = j s)
    (hbus : ∀ u, s < u → u < t → SameBus (i u) (j u))
    (hbusy : ∀ u, s < u → u < t → (run (Sys.step d) p i u).dma.busy = true)
    (hrows : ∀ u, s < u → u < t → (run (Sys.step d) p i u).dma.ctrlStart = true →
      (j u).cmd.mRows = (i u).cmd.mRows) :
    (∀ u, s ≤ u → u ≤ t → run (Sys.step d) p i u = run (Sys.step d) q j u) ∧
    eventsIn (fun u => (run (Sys.step d) p i u).dma.rd.arAccepted (i u)) s t =
      eventsIn (fun u => (run (Sys.step d) q j u).dma.rd.arAccepted (j u)) s t ∧
    eventsIn (fun u => (run (Sys.step d) p i u).dma.wr.awAccepted (i u)) s t =
      eventsIn (fun u => (run (Sys.step d) q j u).dma.wr.awAccepted (j u)) s t ∧
    eventsIn (fun u => (run (Sys.step d) p i u).wBeat (i u)) s t =
      eventsIn (fun u => (run (Sys.step d) q j u).wBeat (j u)) s t := by
  have hstates : ∀ u, s ≤ u → u ≤ t → run (Sys.step d) p i u = run (Sys.step d) q j u := by
    intro u hsu hut
    apply run_agree hsu hmeet
    intro v hsv hvu hv
    rw [← hv]
    rcases Nat.eq_or_lt_of_le hsv with rfl | hsv
    · rw [hcmd]
    · rw [hbus v hsv (by omega)]
      exact (Sys.step_ignores d (hbusy v hsv (by omega)) (hrows v hsv (by omega))).symm
  -- the outputs are registers, and the handshakes depend on the subordinates
  have hsame : ∀ u, s ≤ u → u < t → run (Sys.step d) p i u = run (Sys.step d) q j u ∧ SameBus (i u) (j u) := by
    intro u hsu hut
    refine ⟨hstates u hsu hut.le, ?_⟩
    rcases Nat.eq_or_lt_of_le hsu with rfl | hsu
    · rw [hcmd]
      rfl
    · exact hbus u hsu hut
  refine ⟨hstates, ?_, ?_, ?_⟩
  all_goals
    apply eventsIn_congr
    intro u hsu hut
    obtain ⟨hrun, hbusu⟩ := hsame u hsu hut
    rw [hrun, hbusu]
    rfl

/-- `demoIn 1` with a response in cycle 20 and, after the start, another command on
the port. -/
def portIn (c : Cmd 8) (t : ℕ) : DmaIn 1 8 := { demoIn 1 t with cmd := if t ≤ 1 then ⟨0, 16, 64, 1⟩ else c }

/-- Other bases on the port, the same row count. -/
theorem command_sampled_demo :
    (run (Sys.step demoDepths) demoSys (portIn ⟨0, 16, 64, 1⟩) 22).dma.done = true ∧
      run (Sys.step demoDepths) demoSys (portIn ⟨0, 16, 64, 1⟩) 22 =
        run (Sys.step demoDepths) demoSys (portIn ⟨7, 8, 9, 1⟩) 22 := by
  have hmeet : run (Sys.step demoDepths) demoSys (portIn ⟨0, 16, 64, 1⟩) 1 =
      run (Sys.step demoDepths) demoSys (portIn ⟨7, 8, 9, 1⟩) 1 := rfl
  have hbusy : ∀ u < 22, 1 < u →
      (run (Sys.step demoDepths) demoSys (portIn ⟨0, 16, 64, 1⟩) u).dma.busy = true := by decide +kernel
  have hrows : ∀ u, 1 < u → (portIn ⟨7, 8, 9, 1⟩ u).cmd.mRows = (portIn ⟨0, 16, 64, 1⟩ u).cmd.mRows := by
    intro u hu
    simp only [portIn, if_neg (not_le.mpr hu)]
  have hmain := command_sampled demoDepths hmeet rfl (fun _ _ _ => rfl) (fun u hu hut => hbusy u hut hu)
    fun u hu _ _ => hrows u hu
  exact ⟨by decide +kernel, hmain.1 22 (by decide) le_rfl⟩

/-- Eight rows on the port instead of the one that was sampled: the done pulse
of cycle 22 does not come. -/
theorem row_count_not_sampled :
    let i := portIn ⟨0, 16, 64, 1⟩
    let j := portIn ⟨0, 16, 64, 8⟩
    run (Sys.step demoDepths) demoSys i 1 = run (Sys.step demoDepths) demoSys j 1 ∧ i 1 = j 1 ∧
      (run (Sys.step demoDepths) demoSys i 1).dma.accept (i 1) = true ∧ (∀ u, SameBus (i u) (j u)) ∧
      (∀ u < 22, 0 < u → (run (Sys.step demoDepths) demoSys i u).Legal (i u) ∧
        (run (Sys.step demoDepths) demoSys j u).Legal (j u)) ∧
      (run (Sys.step demoDepths) demoSys i 22).dma.done = true ∧
      (run (Sys.step demoDepths) demoSys j 22).dma.done = false :=
  ⟨rfl, rfl, by decide +kernel, fun _ => rfl, by decide +kernel, by decide +kernel, by decide +kernel⟩

end DmaBridge
