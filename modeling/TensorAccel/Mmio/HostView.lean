import TensorAccel.Axi.RowLimit
import TensorAccel.Mmio.Completion

/-! # What the host may rely on

    A state of `coproc_axi_sim_top` shows the host two memories and a list of
    commands: those that it has accepted since the reset, each carried out where it
    was accepted.  Every clock edge keeps the relation (`Shows.step`), and so does
    the back door while `STATUS` shows idle (`Shows.poke`).  The memories really
    hold what is shown in every such cycle (`Shows.at_idle`), which is at most
    `owed` cycles away (`Shows.rest`). -/

open Clocked StreamCtrl CmdQueueRegs StreamAxi

namespace CoprocAxi

namespace AxiSimTop

variable {N : ℕ}

/-! ## The back door -/

/-- The memories are changed while the clock stands still. -/
def poke (f : Mems N → Mems N) (s : AxiSimTop N) : AxiSimTop N :=
  { s with uRamRd := { s.uRamRd with mem := (f s.mems).1 }
           uRamWr := { s.uRamWr with mem := (f s.mems).2 } }

section poke
variable {P : SimParams N} {i : SimIn N} {j : ℕ → SimIn N} {s : AxiSimTop N} {f g : Mems N → Mems N} {n : ℕ}

@[simp] theorem poke_mems : (s.poke f).mems = f s.mems := rfl

@[simp] theorem poke_idle : (s.poke f).idle = s.idle := rfl

@[simp] theorem poke_uDut : (s.poke f).uDut = s.uDut := rfl

/-- `j` with `f` in front of its first cycle. -/
def poked (f : Mems N → Mems N) (j : ℕ → SimIn N) (u : ℕ) : SimIn N :=
  if u = 0 then { j u with backdoor := fun m => (j u).backdoor (f m) } else j u

/-- The next clock edge finds the change as one of its own. -/
theorem run_poke : run (step P) (s.poke f) j (n + 1) = run (step P) s (poked f j) (n + 1) := by
  induction n with
  | zero => rfl
  | succ n ih =>
    have hsame : poked f j (n + 1) = j (n + 1) := if_neg (Nat.succ_ne_zero n)
    rw [run_succ, ih, run_succ _ s (poked f j) (n + 1), hsame]

theorem poked_rst (h : ∀ u, (j u).rst = false) (u : ℕ) : (poked f j u).rst = false := by
  unfold poked
  split
  · exact h u
  · exact h u

theorem poked_dmemWen (h : ∀ u, (j u).dmemWen = false) (u : ℕ) : (poked f j u).dmemWen = false := by
  unfold poked
  split
  · exact h u
  · exact h u

end poke

/-! ## Steps that accept no command -/

section rest
variable {P : SimParams N} {i : SimIn N} {s : AxiSimTop N}

/-- Only a store can be accepted. -/
theorem enqEvent_load (P : SimParams N) (s : AxiSimTop N) (h : i.dmemWen = false) : enqEvent P i s = none := by
  have hwen : (s.regsIn i).dmemWen = false := h
  simp [enqEvent, Regs.enqEvent, Regs.enqueue, RegsIn.wrHit, hwen]

/-- `STATUS` stays idle in a cycle that accepts nothing. -/
theorem idle_step (hvalid : Regs.Valid s.uDut.regs) (hrst : i.rst = false) (hidle : s.idle = true)
    (hnone : enqEvent P i s = none) : (step P i s).idle = true := by
  obtain ⟨hpending, hfree, -⟩ := idle_rest hidle
  obtain ⟨hlow, hqueue⟩ := not_start_of_pending hpending
  have hnext := pending_next (P := P) hvalid hrst
  rw [hqueue, hnone] at hnext
  obtain ⟨hlow', hqueue'⟩ := not_start_of_pending hnext
  obtain ⟨hfree', hdone'⟩ := rest_next (P := P) hrst hfree hlow
  rw [idle, Regs.fifoEmpty_iff.mpr hqueue', hlow', hfree', hdone']
  rfl

/-- A store takes its value into a holding register. -/
theorem held_step (hrst : i.rst = false) :
    (step P i s).uDut.regs.held = Regs.heldNext P.baseAddr (s.regsIn i) s.uDut.regs.held := by
  have hreset : (s.regsIn i).rst = false := hrst
  have hstep : (step P i s).uDut.regs = Regs.step P.baseAddr (s.regsIn i) s.uDut.regs := rfl
  rw [hstep, Regs.step, if_neg (by simp [hreset])]

/-- A reset leaves nothing to do. -/
theorem idle_reset (hrst : i.rst = true) : (step P i s).idle = true := by
  have hregs : (s.regsIn i).rst = true := hrst
  have hdma : (AxiTop.dmaIn (s.dutIn i) s.uDut).rst = true := hrst
  have hstep : (step P i s).uDut.regs = Regs.step P.baseAddr (s.regsIn i) s.uDut.regs := rfl
  have hbridge : (step P i s).uDut.bridge.dma =
      s.uDut.bridge.dma.step P.depths (AxiTop.dmaIn (s.dutIn i) s.uDut) := rfl
  rw [idle, hstep, hbridge]
  simp [Regs.step, Regs.fifoEmpty, DmaBridge.Dma.step, DmaBridge.Dma.busy, hregs, hdma]

/-- Cycles to the end of all commands that were accepted. -/
def owed (R : ℕ) (s : AxiSimTop N) : ℕ :=
  s.uDut.regs.queue.length * (commandBound N R + 2) +
    if s.uDut.regs.start then commandBound N R + 1
    else if s.uDut.bridge.dma.busy then commandBound N R else 0

/-- One command accepted at rest is owed once. -/
theorem owed_step (R : ℕ) (hvalid : Regs.Valid s.uDut.regs) (hrst : i.rst = false) (hidle : s.idle = true) :
    (step P i s).owed R ≤ commandBound N R + 2 := by
  obtain ⟨hpending, hfree, -⟩ := idle_rest hidle
  obtain ⟨hlow, hqueue⟩ := not_start_of_pending hpending
  have hnext := congrArg List.length (pending_next (P := P) hvalid hrst)
  have hone : (enqEvent P i s).toList.length ≤ 1 := by
    cases enqEvent P i s <;> simp
  rw [hqueue, pending, List.nil_append, List.length_append] at hnext
  rw [owed, (rest_next (P := P) hrst hfree hlow).1]
  cases hstart : (step P i s).uDut.regs.start with
  | true =>
    have hstarted : (Regs.startEvent (step P i s).uDut.regs).toList.length = 1 := by
      simp [Regs.startEvent, hstart]
    have hempty : (step P i s).uDut.regs.queue.length = 0 := by omega
    rw [hempty]
    simp
  | false =>
    have hshort : (step P i s).uDut.regs.queue.length ≤ 1 := by omega
    have hmul := Nat.mul_le_mul_right (commandBound N R + 2) hshort
    simpa using hmul

end rest

/-! ## The relation -/

/-- `s` is reached by a session of commands of at most `R` rows.  `cs` are the accepted
ones, and `m` is what the host takes the memories for. -/
inductive Shows (P : SimParams N) (R : ℕ) : AxiSimTop N → Mems N → List (Cmd 32) → Prop
  | intro {p : AxiSimTop N} {i : ℕ → SimIn N} {r t : ℕ} {f : Mems N → Mems N} (hrt : r < t)
      (session : Session P p i r t) (rows : ∀ c ∈ accepted P p i (r + 1) t, c.mRows.toNat ≤ R)
      (polled : (sim P p i t).idle = false → ∀ m, f m = m) :
      Shows P R ((sim P p i t).poke f) (f (hostEffects P p i (r + 1) t (sim P p i (r + 1)).mems))
        (accepted P p i (r + 1) t)

/-- What the host may ask for. -/
structure Fits (N R : ℕ) (c : Cmd 32) : Prop where
  pos : 1 ≤ c.mRows.toNat
  le : c.mRows.toNat ≤ R
  space : InSpace N c

section shows
variable {P : SimParams N} {R r t n : ℕ} {p s : AxiSimTop N} {i j : ℕ → SimIn N} {m : Mems N} {cs : List (Cmd 32)}

theorem sim_splice (h : n ≤ t) : sim P p (splice t i j) n = sim P p i n := run_splice_le _ _ _ _ h

theorem sim_splice_succ : sim P p (splice t i j) (t + 1) = step P (j 0) (sim P p i t) := run_splice _ _ _ _ t 1

theorem accepted_splice : accepted P p (splice t i j) (r + 1) t = accepted P p i (r + 1) t := by
  refine eventsIn_congr fun u _ hut => ?_
  rw [splice_lt hut, sim_splice hut.le]

theorem accepted_splice_succ (hrt : r < t) : accepted P p (splice t i j) (r + 1) (t + 1) =
    accepted P p i (r + 1) t ++ (enqEvent P (j 0) (sim P p i t)).toList := by
  have hlast : splice t i j t = j 0 := splice_add i j t 0
  rw [accepted, eventsIn_succ _ hrt, ← accepted, accepted_splice, hlast, sim_splice le_rfl]

theorem hostEffects_splice_succ (hrt : r < t) (m : Mems N) :
    hostEffects P p (splice t i j) (r + 1) (t + 1) m =
      (enqEvent P (j 0) (sim P p i t)).toList.foldl (execCmd P)
        ((j 0).backdoor (hostEffects P p i (r + 1) t m)) := by
  have hlast : splice t i j t = j 0 := splice_add i j t 0
  have hbefore : foldIn (hostEffect P p (splice t i j)) (r + 1) t m = hostEffects P p i (r + 1) t m := by
    refine foldIn_congr hrt (fun u _ hut => ?_) m
    funext x
    rw [hostEffect, hostEffect, splice_lt hut, sim_splice hut.le]
  rw [hostEffects, foldIn_succ _ hrt, hbefore, hostEffect, hlast, sim_splice le_rfl]

/-- A run that goes on without a reset, and accepts commands with a row at least. -/
theorem Commanded.splice (h : Commanded P p i r t) (hrt : r < t) (hrst : ∀ u, (j u).rst = false)
    (hrows : ∀ c ∈ AxiSimTop.accepted P p (Clocked.splice t i j) (r + 1) (t + n),
      c ∈ AxiSimTop.accepted P p i (r + 1) t ∨ 1 ≤ c.mRows.toNat) :
    Commanded P p (Clocked.splice t i j) r (t + n) where
  rst := by
    rw [splice_lt hrt]
    exact h.rst
  run u hru _ := by
    unfold Clocked.splice
    split
    · next hut => exact h.run u hru hut
    · exact hrst _
  rows c hc := (hrows c hc).elim (h.rows c) id

/-- A session goes on with a cycle that accepts a command that fits, or none. -/
theorem Session.splice (h : Session P p i r t) (hrt : r < t) (hrst : ∀ u, (j u).rst = false)
    (hfits : ∀ c ∈ enqEvent P (j 0) (sim P p i t), Fits N R c)
    (hpolled : (sim P p i t).idle = false → ∀ m, (j 0).backdoor m = m) :
    Session P p (Clocked.splice t i j) r (t + 1) := by
  have hnew : ∀ c ∈ AxiSimTop.accepted P p (Clocked.splice t i j) (r + 1) (t + 1),
      c ∈ AxiSimTop.accepted P p i (r + 1) t ∨ Fits N R c := by
    intro c hc
    rw [accepted_splice_succ hrt, List.mem_append] at hc
    exact hc.imp id fun hc => hfits c (Option.mem_toList.mp hc)
  refine ⟨h.toCommanded.splice hrt hrst fun c hc => (hnew c hc).imp id Fits.pos,
    fun c hc => (hnew c hc).elim (h.space c) Fits.space, fun u hru hut hbusy => ?_⟩
  rw [sim_splice (by omega)] at hbusy
  rcases Nat.lt_succ_iff_lt_or_eq.mp hut with hlt | rfl
  · rw [splice_lt hlt]
    exact h.polled u hru hlt hbusy
  · have hlast : Clocked.splice u i j u = j 0 := splice_add i j u 0
    rw [hlast]
    exact hpolled hbusy

/-- A reset shows what the memories hold. -/
theorem Shows.reset (P : SimParams N) (R : ℕ) (s : AxiSimTop N) {i : SimIn N} (hrst : i.rst = true) :
    Shows P R (step P i s) (step P i s).mems [] := by
  have hnone : accepted P s (fun _ => i) (0 + 1) 1 = [] := eventsIn_self _ _
  have hsession : Session P s (fun _ => i) 0 1 := by
    refine ⟨⟨hrst, fun u hu hut => by omega, ?_⟩, ?_, fun u hu hut => by omega⟩
    · rw [hnone]
      simp
    · rw [hnone]
      simp
  have hshows : Shows P R (sim P s (fun _ => i) 1) (hostEffects P s (fun _ => i) (0 + 1) 1 (sim P s (fun _ => i) 1).mems)
      (accepted P s (fun _ => i) (0 + 1) 1) :=
    .intro (f := id) Nat.one_pos hsession (by rw [hnone]; simp) fun _ _ => rfl
  rw [hnone, hostEffects, foldIn_self] at hshows
  exact hshows

/-- The host uses the back door while `STATUS` shows idle. -/
theorem Shows.poke {g : Mems N → Mems N} (h : Shows P R s m cs) (hidle : s.idle = false → ∀ m, g m = m) :
    Shows P R (s.poke g) (g m) cs := by
  cases h with
  | @intro p i r t f hrt session rows polled =>
    exact .intro (f := fun m => g (f m)) hrt session rows fun hbusy m => by rw [polled hbusy, hidle hbusy]

/-- **Every clock edge keeps the relation.** -/
theorem Shows.step {i : SimIn N} (h : Shows P R s m cs) (hrst : i.rst = false) (hdoor : ∀ m, i.backdoor m = m)
    (hfits : ∀ c ∈ enqEvent P i s, Fits N R c) :
    Shows P R (AxiSimTop.step P i s) ((enqEvent P i s).toList.foldl (execCmd P) m)
      (cs ++ (enqEvent P i s).toList) := by
  cases h with
  | @intro p k r t f hrt session rows polled =>
    -- the change of the memories joins the clock edge
    let j : ℕ → SimIn N := fun _ => { i with backdoor := fun m => i.backdoor (f m) }
    have hsession : Session P p (splice t k j) r (t + 1) := by
      refine session.splice hrt (fun _ => hrst) hfits fun hbusy m => ?_
      show i.backdoor (f m) = m
      rw [hdoor, polled hbusy]
    have hrows : ∀ c ∈ accepted P p (splice t k j) (r + 1) (t + 1), c.mRows.toNat ≤ R := by
      intro c hc
      rw [accepted_splice_succ hrt, List.mem_append] at hc
      exact hc.elim (rows c) fun hc => (hfits c (Option.mem_toList.mp hc)).le
    have hshows : Shows P R (sim P p (splice t k j) (t + 1)) _ _ :=
      .intro (f := id) (Nat.lt_succ_of_lt hrt) hsession hrows fun _ _ => rfl
    rw [accepted_splice_succ hrt, sim_splice_succ, sim_splice hrt, id, hostEffects_splice_succ hrt] at hshows
    have hdoor' : ∀ m, (j 0).backdoor m = f m := fun m => hdoor (f m)
    rw [hdoor'] at hshows
    exact hshows

theorem Shows.valid (h : Shows P R s m cs) : Regs.Valid s.uDut.regs := by
  cases h with
  | intro hrt session _ _ => exact session.toCommanded.valid hrt

/-- While `STATUS` shows idle the memories are what the host takes them for, and the
counters show the beats of its commands. -/
theorem Shows.at_idle (hpow : ∃ e, N = 2 ^ e) (h : Shows P R s m cs) (hidle : s.idle = true) :
    s.mems = m ∧ s.rdBeatCount = BitVec.ofNat 32 (cs.map fun c => N + c.mRows.toNat).sum ∧
      s.wrBeatCount = BitVec.ofNat 32 (cs.map fun c => c.mRows.toNat).sum := by
  have hpos : 0 < N := by
    obtain ⟨e, rfl⟩ := hpow
    exact Nat.two_pow_pos e
  cases h with
  | @intro p i r t f hrt session _ _ =>
    have hmems := mems_idle hpow session hrt hidle
    obtain ⟨-, hreads, hwrites⟩ := counts_idle hpos session.toCommanded hrt hidle
    exact ⟨congrArg f hmems, hreads, hwrites⟩

/-- Cycles without a store or a reset. -/
structure Waits (i : SimIn N) : Prop where
  rst : i.rst = false
  dmemWen : i.dmemWen = false
  backdoor : ∀ m, i.backdoor m = m

theorem Shows.wait (h : Shows P R s m cs) (hj : ∀ u, Waits (j u)) (n : ℕ) :
    Shows P R (run (AxiSimTop.step P) s j n) m cs := by
  induction n with
  | zero => exact h
  | succ n ih =>
    have hnone := enqEvent_load P (run (AxiSimTop.step P) s j n) (hj n).dmemWen
    have hnext := ih.step (hj n).rst (hj n).backdoor (by rw [hnone]; simp)
    rw [hnone, Option.toList_none, List.append_nil] at hnext
    exact hnext

/-- In a run that goes on with loads, all that was accepted ends within `owed` cycles. -/
theorem idle_splice (hN : 0 < N) (h : Session P p i r t) (hrt : r < t)
    (hrows : ∀ c ∈ accepted P p i (r + 1) t, c.mRows.toNat ≤ R) (hfit : R ≤ P.maxRows) (hbyte : R ≤ 255)
    (hrst : ∀ u, (j u).rst = false) (hload : ∀ u, (j u).dmemWen = false) (hn : (sim P p i t).owed R < n) :
    (run (step P) (sim P p i t) j n).idle = true := by
  have hnone : ∀ v, t ≤ v → enqEvent P (splice t i j v) (sim P p (splice t i j) v) = none := by
    intro v htv
    obtain ⟨u, rfl⟩ := Nat.exists_eq_add_of_le htv
    rw [splice_add]
    exact enqEvent_load P _ (hload u)
  have hsame : ∀ u, t ≤ u → accepted P p (splice t i j) (r + 1) u = accepted P p i (r + 1) t := by
    intro u htu
    rw [accepted, eventsIn_split _ hrt htu, eventsIn_eq_nil fun v hv _ => hnone v hv, List.append_nil]
    exact accepted_splice
  have hsub : ∀ u, ∀ c ∈ accepted P p (splice t i j) (r + 1) u, c ∈ accepted P p i (r + 1) t := by
    intro u c hc
    rcases Nat.le_total t u with htu | hut
    · exact hsame u htu ▸ hc
    · rw [← hsame t le_rfl]
      rcases Nat.lt_or_ge r u with hru | hur
      · exact (eventsIn_initial _ hru hut).subset hc
      · simp [accepted, eventsIn, Nat.sub_eq_zero_of_le (Nat.le_succ_of_le hur)] at hc
  have hcommanded : ∀ u, r < u → Commanded P p (splice t i j) r u := by
    intro u hru
    have hlong : Commanded P p (splice t i j) r (t + u) :=
      h.toCommanded.splice hrt hrst fun c hc => .inl (hsub _ c hc)
    exact hlong.mono hru (Nat.le_add_left u t)
  have hbounded : Bounded P p (splice t i j) r R :=
    ⟨hcommanded, fun u c hc => hrows c (hsub u c hc), hfit, hbyte⟩
  obtain ⟨e, hte, hle, hall, hlow, hfree⟩ := ends_pay hN hbounded hrt le_rfl
  have hpaid : endBudget P p (splice t i j) r R (accepted P p (splice t i j) (r + 1) t).length t =
      (sim P p i t).owed R := by
    rw [endBudget, owed, length_accepted (hcommanded t hrt) hrt, Nat.add_sub_cancel_left, sim_splice le_rfl]
  have hidle := (Ended.mk hte hall hlow hfree).idle hcommanded hrt hnone (show e < t + n by omega)
  rw [← run_splice (step P) p i j t n]
  exact hidle

/-- **`STATUS` shows idle once what is owed was waited for.** -/
theorem Shows.rest (hN : 0 < N) (h : Shows P R s m cs) (hfit : R ≤ P.maxRows) (hbyte : R ≤ 255)
    (hj : ∀ u, Waits (j u)) (hn : s.owed R < n) : (run (AxiSimTop.step P) s j n).idle = true := by
  cases h with
  | @intro p i r t f hrt session rows _ =>
    obtain ⟨k, rfl⟩ : ∃ k, n = k + 1 := ⟨n - 1, by omega⟩
    rw [run_poke]
    exact idle_splice hN session hrt rows hfit hbyte (poked_rst fun u => (hj u).rst)
      (poked_dmemWen fun u => (hj u).dmemWen) hn

/-! ## Commands that never end -/

/-- Whatever the host does short of a reset, `STATUS` never shows idle again. -/
def NeverIdle (P : SimParams N) (s : AxiSimTop N) : Prop :=
  ∀ j : ℕ → SimIn N, (∀ u, (j u).rst = false) → ∀ n, (run (step P) s j n).idle = false

theorem NeverIdle.now (h : NeverIdle P s) : s.idle = false :=
  h (fun _ => ⟨false, 0, 0, false, 0, ⟨0, 0, 0, 0⟩, id⟩) (fun _ => rfl) 0

theorem NeverIdle.poke (h : NeverIdle P s) (f : Mems N → Mems N) : NeverIdle P (s.poke f) := by
  intro j hj n
  cases n with
  | zero => exact h.now
  | succ n =>
    rw [run_poke]
    exact h _ (poked_rst hj) (n + 1)

theorem NeverIdle.step {i : SimIn N} (h : NeverIdle P s) (hrst : i.rst = false) : NeverIdle P (step P i s) := by
  intro j hj n
  have hnext := h (splice 1 (fun _ => i) j) (fun u => ?_) (1 + n)
  · rw [run_splice] at hnext
    exact hnext
  · unfold splice
    split
    · exact hrst
    · exact hj _

/-- A long command that was started. -/
theorem busy_long (hr : (i r).rst = true) {a : ℕ} (hra : r < a) (hat : a < t)
    (hrun : ∀ u, r < u → u < t → (i u).rst = false) (hstart : (sim P p i a).uDut.regs.start = true)
    (hlong : 256 ≤ (sim P p i a).uDut.regs.cmd.mRows.toNat) : (sim P p i t).uDut.bridge.dma.busy = true := by
  have hfree : (sim P p i a).uDut.bridge.dma.busy = false := by
    rw [run_dut] at hstart ⊢
    exact AxiTop.start_free hr hra (fun u hu hua => hrun u hu (by omega)) hstart
  have hacc : DmaBridge.Accepts P.sizes.depths p.streamTop.bridge
      (StreamAxi.dmaTrace P.sizes p.streamTop (streamTrace P p i)) a := by
    refine ⟨hstart, ?_⟩
    rw [← StreamAxi.run_bridge, ← run_stream]
    exact hfree
  have hend := DmaBridge.endless_run (d := P.sizes.depths) (p := p.streamTop.bridge) P.lanes_lt hr hra hat hrun
    (legal_run P.lanes_lt hr hrun) hacc hlong
  have hbusy := hend.busy
  rw [← StreamAxi.run_bridge, ← run_stream] at hbusy
  exact hbusy

theorem not_idle_of_pending (h : s.pending ≠ []) : s.idle = false := by
  by_contra hidle
  exact h (idle_rest (Bool.eq_true_of_not_eq_false hidle)).1

/-- A command that waits alone at rest is started in this cycle or the next one. -/
theorem started_soon (hvalid : Regs.Valid s.uDut.regs) {c : Cmd 32} {i : SimIn N} (hrst : i.rst = false)
    (hwait : s.pending = [c]) (hfree : s.uDut.bridge.dma.busy = false) :
    (s.uDut.regs.start = true ∧ s.uDut.regs.cmd = c) ∨
      (AxiSimTop.step P i s).uDut.regs.start = true ∧ (AxiSimTop.step P i s).uDut.regs.cmd = c := by
  cases hstart : s.uDut.regs.start with
  | true =>
    rw [pending, Regs.startEvent, if_pos hstart] at hwait
    exact .inl ⟨rfl, (List.cons.inj hwait).1⟩
  | false =>
    have hqueue : s.uDut.regs.queue = [c] := by
      rw [pending, Regs.startEvent, hstart] at hwait
      exact hwait
    have hnext : (AxiSimTop.step P i s).uDut.regs.start = true := start_next hrst hfree hstart (by simp [hqueue])
    have hpending := pending_next (P := P) hvalid hrst
    rw [hqueue, pending, Regs.startEvent, if_pos hnext] at hpending
    exact .inr ⟨hnext, (List.cons.inj hpending).1⟩

theorem valid_next {i : SimIn N} (hvalid : Regs.Valid s.uDut.regs) (hrst : i.rst = false) :
    Regs.Valid (AxiSimTop.step P i s).uDut.regs :=
  (@Regs.queue_step 32 P.baseAddr (s.regsIn i) _ hrst hvalid).1

/-- A long command that waits alone in cycle `t` leaves no idle cycle behind. -/
theorem not_idle_long {c : Cmd 32} (hr : (i r).rst = true) (hrt : r < t) (hrun : ∀ u, r < u → (i u).rst = false)
    (hvalid : Regs.Valid (sim P p i t).uDut.regs) (hwait : (sim P p i t).pending = [c])
    (hfree : (sim P p i t).uDut.bridge.dma.busy = false) (hlong : 256 ≤ c.mRows.toNat) {u : ℕ} (htu : t ≤ u) :
    (sim P p i u).idle = false := by
  have hafter : ∀ a, t ≤ a → (sim P p i a).uDut.regs.start = true → (sim P p i a).uDut.regs.cmd = c → a ≤ u →
      (sim P p i u).idle = false := by
    intro a hta hstart hcmd hau
    rcases Nat.eq_or_lt_of_le hau with rfl | hlt
    · simp [idle, hstart]
    · have hbusy := busy_long hr (show r < a by omega) hlt (fun v hv _ => hrun v hv) hstart (by rw [hcmd]; exact hlong)
      simp [idle, hbusy]
  rcases started_soon (P := P) hvalid (hrun t hrt) hwait hfree with ⟨hstart, hcmd⟩ | ⟨hstart, hcmd⟩
  · exact hafter t le_rfl hstart hcmd htu
  · rcases Nat.eq_or_lt_of_le htu with rfl | hlt
    · exact not_idle_of_pending (by rw [hwait]; simp)
    · exact hafter (t + 1) (Nat.le_succ t) hstart hcmd hlt

/-- **A command of 256 or more rows that is accepted at rest keeps `STATUS` busy for ever.** -/
theorem Shows.never_idle {i : SimIn N} {c : Cmd 32} (h : Shows P R s m cs) (hidle : s.idle = true)
    (hrst : i.rst = false) (henq : enqEvent P i s = some c) (hlong : 256 ≤ c.mRows.toNat) :
    NeverIdle P (AxiSimTop.step P i s) := by
  intro j hj n
  cases h with
  | @intro p k r t f hrt session _ _ =>
    let g : ℕ → SimIn N := poked f (splice 1 (fun _ => i) j)
    have hg : ∀ u, (g u).rst = false := by
      refine poked_rst fun u => ?_
      unfold splice
      split
      · exact hrst
      · exact hj _
    have hrun : ∀ u, r < u → (splice t k g u).rst = false := by
      intro u hru
      unfold splice
      split
      · next hut => exact session.run u hru hut
      · exact hg _
    have hreset : (splice t k g r).rst = true := by
      rw [splice_lt hrt]
      exact session.rst
    -- the queue holds nothing but the long command
    obtain ⟨hpending, hfree, -⟩ := idle_rest (s := sim P p k t) hidle
    obtain ⟨hlow, hqueue⟩ := not_start_of_pending hpending
    have hvalid := session.toCommanded.valid hrt
    have hfirst : sim P p (splice t k g) (t + 1) = AxiSimTop.step P (g 0) (sim P p k t) := sim_splice_succ
    have henq' : enqEvent P (g 0) (sim P p k t) = some c := henq
    have hwait : (AxiSimTop.step P (g 0) (sim P p k t)).pending = [c] := by
      rw [pending_next hvalid (hg 0), hqueue, henq']
      rfl
    have hlast : sim P p (splice t k g) (t + (n + 1)) = run (AxiSimTop.step P) (sim P p k t) g (n + 1) :=
      run_splice _ _ _ _ _ _
    rw [← run_poke, Nat.add_comm n 1, run_splice] at hlast
    have hnever := not_idle_long (u := t + (1 + n)) hreset (show r < t + 1 by omega) hrun
      (by rw [hfirst]; exact valid_next hvalid (hg 0)) (by rw [hfirst]; exact hwait)
      (by rw [hfirst]; exact (rest_next (hg 0) hfree hlow).1) hlong (by omega)
    rw [hlast] at hnever
    exact hnever

end shows

end AxiSimTop

end CoprocAxi
