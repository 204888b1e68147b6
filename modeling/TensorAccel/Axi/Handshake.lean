import TensorAccel.Axi.Ordering

/-! # The AXI handshakes

    The rules that an AXI4 master has to keep, for the registered outputs of the
    bridge. -/

open Clocked Burst StreamCtrl

namespace DmaBridge

variable {N A : ℕ}

/-! ## One cycle -/

/-- What the bridge keeps to in a cycle in which `c` is latched, `s'` being the
state in the next one. -/
structure AxiRules (c : Cmd A) (i : DmaIn N A) (s s' : Sys N A) : Prop where
  /-- An address or a beat stays as it is until it is accepted. -/
  ar_stable : s.dma.rd.arvalid = true → i.arready = false →
    s'.dma.rd.arvalid = true ∧ s'.dma.rd.arBurst = s.dma.rd.arBurst
  aw_stable : s.dma.wr.awvalid = true → i.awready = false →
    s'.dma.wr.awvalid = true ∧ s'.dma.wr.awBurst = s.dma.wr.awBurst
  w_stable : s.dma.wr.wvalid = true → i.wready = false → s'.dma.wr.wvalid = true ∧
    s'.dma.wr.wdata = s.dma.wr.wdata ∧ s'.dma.wr.wlast = s.dma.wr.wlast
  /-- A beat belongs to an accepted burst, and is flagged if it is its last one. -/
  w_pending : s.dma.wr.wvalid = true → ∃ b k, s.bus.wr = Port.serving b k ∧ k < b.len ∧
    s.dma.wr.wlast = (k + 1 == b.len)
  /-- There is one burst at a time, from its address to its last beat or response. -/
  ar_single : s.bus.rd.pending.length ≤ 1 ∧ (s.dma.rd.arvalid = true → s.bus.rd.pending = [])
  aw_single : s.bus.wr.pending.length + s.bus.bDue ≤ 1 ∧
    (s.dma.wr.awvalid = true → s.bus.wr.pending = [] ∧ s.bus.bDue = 0)
  /-- A burst has up to 16 beats. -/
  ar_len : s.dma.rd.arvalid = true → 1 ≤ s.dma.rd.arBurst.len ∧ s.dma.rd.arBurst.len ≤ 16
  aw_len : s.dma.wr.awvalid = true → 1 ≤ s.dma.wr.awBurst.len ∧ s.dma.wr.awBurst.len ≤ 16
  /-- It is read from the weights, or from the activations. -/
  ar_kind : s.dma.rd.arvalid = true → ∃ region ∈ [weightRegion N c, actRegion c],
    ∃ n, Req.RowsOf (rbytes N) region s.dma.rd.arBurst n

section cycle
variable {d : Depths} {c : Cmd A} {s : Sys N A} {i : DmaIn N A}

theorem RdEngine.ar_stable (D : ℕ) (acc rdEn : Bool) {e : RdEngine N A} (hr : i.rst = false)
    (hst : e.rstate = .burst) (hready : i.arready = false) :
    (e.step D i acc rdEn).arvalid = e.arvalid ∧ (e.step D i acc rdEn).arBurst = e.arBurst := by
  unfold RdEngine.step
  rw [hr, hst]
  simp only [Bool.false_eq_true, if_false]
  split
  · split <;> exact ⟨by simp [hready], rfl⟩
  · exact ⟨by simp [hready], rfl⟩

theorem WrEngine.aw_stable (D : ℕ) (acc : Bool) (cb : BitVec A) (wrEn : Bool) (x : Lanes32 N)
    {e : WrEngine N A} (hr : i.rst = false) (hst : e.wstate = .aw) (hready : i.awready = false) :
    (e.step D i acc cb wrEn x).awvalid = e.awvalid ∧ (e.step D i acc cb wrEn x).awBurst = e.awBurst := by
  simp [WrEngine.step, WrEngine.awBurst, hr, hst, hready]

theorem WrEngine.w_stable (D : ℕ) (acc : Bool) (cb : BitVec A) (wrEn : Bool) (x : Lanes32 N)
    {e : WrEngine N A} (hr : i.rst = false) (hst : e.wstate = .data) (hready : i.wready = false) :
    (e.step D i acc cb wrEn x).wvalid = e.wvalid ∧ (e.step D i acc cb wrEn x).wdata = e.wdata ∧
      (e.step D i acc cb wrEn x).wlast = e.wlast := by
  simp [WrEngine.step, WrEngine.sent, hr, hst, hready]

/-- What an offered address means for the read engine. -/
theorem Reading.offer {D : ℕ} {e : RdEngine N A} {p : Port A} (h : Reading D c e p) (hv : e.arvalid = true) :
    e.rstate = .burst ∧ p = Port.idle ∧ ReadBurst N c e.rdIssued.toNat e.arBurst := by
  cases h with
  | ar hst _ hp hb => exact ⟨hst, hp, hb⟩
  | rest _ _ hv' => rw [hv'] at hv; cases hv
  | data _ _ _ _ hv' => rw [hv'] at hv; cases hv

/-- What an offered address means for the write engine. -/
theorem Sending.offer {e : WrEngine N A} {p : Port A} {bDue : ℕ} (h : Sending c e p bDue)
    (hv : e.awvalid = true) : e.wstate = .aw ∧ p = Port.idle ∧ bDue = 0 ∧ e.awBurst.len ≤ 16 := by
  cases h with
  | aw hst _ _ hp hb _ hlen h16 =>
    rw [hlen] at h16
    exact ⟨hst, hp, hb, h16⟩
  | idle _ hv' => rw [hv'] at hv; cases hv
  | data _ _ _ hv' => rw [hv'] at hv; cases hv
  | bresp _ hv' => rw [hv'] at hv; cases hv

/-- What an offered beat means for the write engine. -/
theorem Sending.beat {e : WrEngine N A} {p : Port A} {bDue : ℕ} (h : Sending c e p bDue)
    (hv : e.wvalid = true) : e.wstate = .data ∧
      ∃ b k, p = Port.serving b k ∧ k < b.len ∧ e.wlast = (k + 1 == b.len) := by
  cases h with
  | data b k hst _ _ hp _ _ hk _ _ _ _ _ hlast => exact ⟨hst, b, k, hp, hk, hlast⟩
  | idle _ _ hv' => rw [hv'] at hv; cases hv
  | aw _ _ hv' => rw [hv'] at hv; cases hv
  | bresp _ _ hv' => rw [hv'] at hv; cases hv

theorem Reading.single {D : ℕ} {e : RdEngine N A} {p : Port A} (h : Reading D c e p) :
    p.pending.length ≤ 1 := by
  cases h with
  | rest _ _ _ hp => rw [hp]; exact Nat.zero_le 1
  | ar _ _ hp => rw [hp]; exact Nat.zero_le 1
  | data _ _ _ _ _ hp => rw [hp]; exact le_rfl

theorem Sending.single {e : WrEngine N A} {p : Port A} {bDue : ℕ} (h : Sending c e p bDue) :
    p.pending.length + bDue ≤ 1 := by
  cases h with
  | idle _ _ _ hp hb => rw [hp, hb]; exact Nat.zero_le 1
  | aw _ _ _ hp hb => rw [hp, hb]; exact Nat.zero_le 1
  | data _ _ _ _ _ hp hb => rw [hp, hb]; exact le_rfl
  | bresp _ _ _ hp hb => rw [hp, hb]; exact le_rfl

theorem Ports.rules (h : Ports d c s) (hr : i.rst = false) : AxiRules c i s (s.step d i) where
  ar_stable hv hready := by
    have hkeep := RdEngine.ar_stable d.rd (s.dma.accept i) s.dma.core.ctrl.rdEn hr
      (h.reading.offer hv).1 hready
    rw [hv] at hkeep
    exact hkeep
  aw_stable hv hready := by
    have hkeep := WrEngine.aw_stable d.wr (s.dma.rd.rstate == .idle && s.dma.accept i)
      s.dma.rd.cBaseLat s.dma.core.ctrl.wrEn s.dma.core.wrData hr
      (h.sending.offer hv).1 hready
    rw [hv] at hkeep
    exact hkeep
  w_stable hv hready := by
    have hkeep := WrEngine.w_stable d.wr (s.dma.rd.rstate == .idle && s.dma.accept i)
      s.dma.rd.cBaseLat s.dma.core.ctrl.wrEn s.dma.core.wrData hr
      (h.sending.beat hv).1 hready
    rw [hv] at hkeep
    exact hkeep
  w_pending hv := (h.sending.beat hv).2
  ar_single := ⟨h.reading.single, fun hv => by rw [(h.reading.offer hv).2.1]; rfl⟩
  aw_single := ⟨h.sending.single, fun hv => by
    obtain ⟨-, hp, hb, -⟩ := h.sending.offer hv
    exact ⟨by rw [hp]; rfl, hb⟩⟩
  ar_len hv := ⟨Nat.succ_pos _, (h.reading.offer hv).2.2.short⟩
  aw_len hv := ⟨Nat.succ_pos _, (h.sending.offer hv).2.2.2⟩
  ar_kind hv := by
    obtain ⟨region, hmem, n, -, hrows⟩ := (h.reading.offer hv).2.2.rowsOf
    exact ⟨region, hmem, n, hrows⟩

/-- The flags of a cycle on the write port. -/
theorem Sending.flags_step {e : WrEngine N A} {p : Port A} {bDue : ℕ} (h : Sending c e p bDue) :
    p.remaining ++ (e.awAccepted i).toList.flatMap Req.flags =
      (if e.sent i then [e.wlast] else []) ++ (p.step (e.awAccepted i) (e.sent i)).remaining := by
  have hquiet : e.awvalid = false → e.wvalid = false →
      p.remaining ++ (e.awAccepted i).toList.flatMap Req.flags =
        (if e.sent i then [e.wlast] else []) ++ (p.step (e.awAccepted i) (e.sent i)).remaining := by
    intro haw hw
    simp [WrEngine.awAccepted, WrEngine.sent, haw, hw]
  cases h with
  | idle _ haw hw => exact hquiet haw hw
  | aw _ haw hw hp =>
    have hsent : e.sent i = false := WrEngine.sent_eq_false hw
    cases hready : i.awready with
    | false => simp [WrEngine.awAccepted, hready, hsent]
    | true => simp [WrEngine.awAccepted, haw, hready, hsent, hp]
  | data b k _ haw hw hp _ _ hk _ _ _ _ _ hlast =>
    have hawa : e.awAccepted i = none := WrEngine.awAccepted_eq_none haw
    rw [hawa]
    cases hsent : e.sent i with
    | false => simp
    | true =>
      rw [hp, Port.remaining_serving hk, hlast]
      simp
  | bresp _ haw hw => exact hquiet haw hw

end cycle

/-! ## Runs -/

/-- The write bursts accepted in cycles `s, ..., t - 1`. -/
def awBursts (d : Depths) (p : Sys N A) (i : ℕ → DmaIn N A) (s t : ℕ) : List (Req A) :=
  eventsIn (fun u => (run (Sys.step d) p i u).dma.wr.awAccepted (i u)) s t

/-- `WLAST` of the write beats of cycles `s, ..., t - 1`. -/
def wFlags (d : Depths) (p : Sys N A) (i : ℕ → DmaIn N A) (s t : ℕ) : List Bool :=
  eventsIn (fun u => if (run (Sys.step d) p i u).dma.wr.sent (i u)
    then some (run (Sys.step d) p i u).dma.wr.wlast else none) s t

section runs
variable {d : Depths} {p : Sys N A} {i : ℕ → DmaIn N A} {r t : ℕ}

theorem flags_run (hN : N < 2 ^ 31) (hr : (i r).rst = true) (hrt : r < t)
    (hrun : ∀ u, r < u → u < t → (i u).rst = false)
    (hlegal : ∀ u, r < u → u < t → (run (Sys.step d) p i u).Legal (i u)) :
    (awBursts d p i (r + 1) t).flatMap Req.flags =
      wFlags d p i (r + 1) t ++ (run (Sys.step d) p i t).bus.wr.remaining := by
  have hidle : (run (Sys.step d) p i (r + 1)).bus.wr = Port.idle := by
    simp [run_succ, Sys.step, hr]
  refine eventsIn_conserve (fun u => (run (Sys.step d) p i u).bus.wr.remaining) hrt
    (by rw [hidle]; rfl) fun u hru hut => ?_
  obtain ⟨c, hports, -⟩ := ports_run (d := d) (p := p) hN hr hru (fun v hv hvu => hrun v hv (by omega))
    fun v hv hvu => hlegal v hv (by omega)
  -- the monitor sees the accepted burst and the beat of this cycle
  have hbus : (run (Sys.step d) p i (u + 1)).bus.wr = (run (Sys.step d) p i u).bus.wr.step
      ((run (Sys.step d) p i u).dma.wr.awAccepted (i u)) ((run (Sys.step d) p i u).dma.wr.sent (i u)) := by
    simp [run_succ, Sys.step, hrun u hru hut]
  rw [hports.sending.flags_step (i := i u), hbus]
  cases (run (Sys.step d) p i u).dma.wr.sent (i u) <;> rfl

end runs

/-- **The bridge is a well behaved AXI4 master** in every cycle `t` of a run after
a reset.  The rules of a cycle hold for any commands.  The last flags of the
write beats so far are those of the accepted bursts, in order, less those still
to come.  And if commands have a row at least, and `u_ctrl` is launched on the row
count latched at the start, then a read burst is not longer than the read FIFO
has room for. -/
theorem axi_compliant (d : Depths) (hN : 0 < N) (hN' : N < 2 ^ 31) (p : Sys N A) (i : ℕ → DmaIn N A)
    {r : ℕ} (hr : (i r).rst = true) (t : ℕ) (hrt : r < t)
    (hrun : ∀ u, r < u → u ≤ t → (i u).rst = false)
    (hlegal : ∀ u, r < u → u < t → (run (Sys.step d) p i u).Legal (i u)) :
    (∃ c, AxiRules c (i t) (run (Sys.step d) p i t) (run (Sys.step d) p i (t + 1)) ∧
      ((run (Sys.step d) p i t).dma.busy = true →
        ∃ a, r < a ∧ a < t ∧ Accepts d p i a ∧ BusyBetween d p i a (t + 1) ∧ c = (i a).cmd)) ∧
    (awBursts d p i (r + 1) t).flatMap Req.flags =
      wFlags d p i (r + 1) t ++ (run (Sys.step d) p i t).bus.wr.remaining ∧
    ((∀ u, r < u → u < t → Accepts d p i u → 1 ≤ (i u).cmd.mRows.toNat) →
      (∀ u, r < u → u < t → (run (Sys.step d) p i u).dma.ctrlStart = true →
        (i u).cmd.mRows = (run (Sys.step d) p i u).dma.wr.wrTotal) →
      (run (Sys.step d) p i t).dma.rd.arvalid = true →
      (run (Sys.step d) p i t).dma.rd.rf.count.toNat +
        (run (Sys.step d) p i t).dma.rd.arBurst.len ≤ d.rd) := by
  have hrun' := fun u (hu : r < u) (hut : u < t) => hrun u hu (Nat.le_of_lt hut)
  obtain ⟨c, hports, hcmd⟩ := ports_run (d := d) (p := p) hN' hr hrt hrun' hlegal
  refine ⟨⟨c, hports.rules (hrun t hrt le_rfl), hcmd⟩, flags_run hN' hr hrt hrun' hlegal, ?_⟩
  intro hrows hheld hv
  obtain ⟨c, hports, hstage⟩ := flow_run hN hN' hrt (⟨hr, hrun', hlegal, hrows, hheld⟩ : Fed d p i r t)
  have hb := hports.fetching (by rw [(hports.reading.offer hv).1]; simp)
  rcases hstage with ⟨hfree, -⟩ | ⟨a, -, -, -, -, rfl, hflow⟩
  · simp [Dma.busy, hb] at hfree
  · -- while words are fetched none is popped: as many are in the FIFO as were read
    obtain ⟨hpre, -⟩ := hflow.reading hports hb
    rw [hpre.count]
    cases hpre.fetching with
    | ar _ _ _ hahead => exact hahead.room
    | rest _ _ hv' => rw [hv'] at hv; cases hv
    | data _ _ _ hv' => rw [hv'] at hv; cases hv

/-- The burst of the two activation rows of the second command of `pairIn` is offered in
cycle 61, with its two weight rows in the FIFO. -/
theorem axi_compliant_demo :
    (run (Sys.step pairDepths) (zeroSys 2 16) pairIn 61).dma.rd.arBurst = ⟨8200, 2⟩ ∧
      (run (Sys.step pairDepths) (zeroSys 2 16) pairIn 61).dma.rd.rf.count.toNat +
        (run (Sys.step pairDepths) (zeroSys 2 16) pairIn 61).dma.rd.arBurst.len ≤ pairDepths.rd := by
  have hrst : ∀ u, 0 < u → (pairIn u).rst = false := by
    intro u hu
    simp [pairIn]
    omega
  have hlegal : ∀ u < 61, 0 < u → (run (Sys.step pairDepths) (zeroSys 2 16) pairIn u).Legal (pairIn u) := by
    decide +kernel
  have hrows : ∀ u, 1 ≤ (pairIn u).cmd.mRows.toNat := by
    intro u
    simp only [pairIn]
    split <;> decide
  have hheld : ∀ u < 61, (run (Sys.step pairDepths) (zeroSys 2 16) pairIn u).dma.ctrlStart = true →
      (pairIn u).cmd.mRows = (run (Sys.step pairDepths) (zeroSys 2 16) pairIn u).dma.wr.wrTotal := by
    decide +kernel
  have hv : (run (Sys.step pairDepths) (zeroSys 2 16) pairIn 61).dma.rd.arvalid = true := by decide +kernel
  obtain ⟨-, -, hroom⟩ := axi_compliant pairDepths Nat.two_pos (by decide) (zeroSys 2 16) pairIn rfl 61 (by decide)
    (fun u hu _ => hrst u hu) fun u hu hut => hlegal u hut hu
  have hlen := hroom (fun u _ _ _ => hrows u) (fun u _ hut => hheld u hut) hv
  exact ⟨by decide +kernel, hlen⟩

/-- `demoIn 1` with eight rows on the port behind the start, and a second command. -/
def lateIn (t : ℕ) : DmaIn 1 8 :=
  { demoIn 1 t with
    start := t == 1 || t == 30
    cmd := ⟨0, 16, 64, if t ≤ 1 then 1 else if t < 30 then 8 else 16⟩
    rvalid := t == 4 || t == 7 || t == 33 }

/-- **A burst that the read FIFO has no room for**: `u_ctrl` is launched on eight rows, and
pops nine words of the two that were fetched.  The count wraps, and in cycle 35 the
bridge asks for ten words, more than the FIFO can ever hold. -/
theorem free_space_exceeded :
    (lateIn 0).rst = true ∧ (∀ u < 36, 0 < u → (lateIn u).rst = false) ∧
      (∀ u < 36, 0 < u → (run (Sys.step demoDepths) demoSys lateIn u).Legal (lateIn u)) ∧
      (∀ u < 36, 1 ≤ (lateIn u).cmd.mRows.toNat) ∧
      (run (Sys.step demoDepths) demoSys lateIn 35).dma.rd.arvalid = true ∧
      demoDepths.rd < (run (Sys.step demoDepths) demoSys lateIn 35).dma.rd.arBurst.len :=
  ⟨rfl, by decide, by decide +kernel, by decide, by decide +kernel, by decide +kernel⟩

end DmaBridge
