import TensorAccel.Axi.StreamAxiTop

/-! # The protocol checker

    Translation of `sim/axi/axi_protocol_check.sv` and of its two `bind`s to
    `stream_axi_top`.  The checker has registers of its own; an assertion of the
    form `a |-> b` is looked at in one cycle, one of the form `a |=> b` in two. -/

open Clocked Burst StreamCtrl DmaBridge

namespace StreamAxi

variable {N A : ℕ}

/-! ## Model -/

/-- Input ports of `axi_protocol_check`. -/
structure CheckIn where
  rst : Bool
  arvalid : Bool
  arready : Bool
  rlast : Bool
  rvalid : Bool
  rready : Bool
  arlen : BitVec 8
  awvalid : Bool
  awready : Bool
  wlast : Bool
  wvalid : Bool
  wready : Bool
  bvalid : Bool
  bready : Bool
  awlen : BitVec 8

/-- The length latched last and the beat counter of one direction. -/
structure Count where
  lenLat : BitVec 8
  beat : BitVec 8

/-- The registers of one direction: an address is accepted, a beat is transferred. -/
def Count.step (accepted : Bool) (len : BitVec 8) (transfer last : Bool) (s : Count) : Count where
  lenLat := if accepted then len else s.lenLat
  beat := if transfer then (if last then 0 else s.beat + 1) else s.beat

/-- The assertions about a beat: the last flag comes with beat `lenLat`, not before
it and not after it. -/
def Count.Passes (transfer last : Bool) (s : Count) : Prop :=
  ((transfer && last) = true → s.beat = s.lenLat) ∧ ((transfer && !last) = true → s.beat < s.lenLat)

instance (transfer last : Bool) (s : Count) : Decidable (s.Passes transfer last) :=
  inferInstanceAs (Decidable (_ ∧ _))

/-- Registers of `axi_protocol_check`. -/
structure Checker where
  /-- `ar_len_lat` and `r_beat`. -/
  r : Count
  /-- `aw_len_lat` and `w_beat`. -/
  w : Count
  awOutstanding : Bool

namespace Checker

def step (i : CheckIn) (s : Checker) : Checker :=
  if i.rst then ⟨⟨0, 0⟩, ⟨0, 0⟩, false⟩
  else
    { r := s.r.step (i.arvalid && i.arready) i.arlen (i.rvalid && i.rready) i.rlast
      w := s.w.step (i.awvalid && i.awready) i.awlen (i.wvalid && i.wready) i.wlast
      awOutstanding :=
        if i.awvalid && i.awready then true
        else if i.bvalid && i.bready then false else s.awOutstanding }

/-- The assertions about one cycle hold: `R_LAST_AT_ARLEN`, `R_NOT_LAST_BEFORE_ARLEN`,
their two siblings for the write channel, `ONE_B_PER_AW` and `NO_AW_WHILE_OUTSTANDING`. -/
structure Passes (i : CheckIn) (s : Checker) : Prop where
  r : s.r.Passes (i.rvalid && i.rready) i.rlast
  w : s.w.Passes (i.wvalid && i.wready) i.wlast
  oneB : (i.bvalid && i.bready) = true → s.awOutstanding = true
  noAw : (i.awvalid && i.awready) = true → s.awOutstanding = false

end Checker

/-- `AR_NO_DROP` and `AW_NO_DROP` for two successive cycles without a reset. -/
structure NoDrop (i i' : CheckIn) : Prop where
  ar : (i.arvalid && !i.arready) = true → i'.arvalid = true
  aw : (i.awvalid && !i.awready) = true → i'.awvalid = true

/-! ## One direction -/

/-- The registers follow the monitor. -/
inductive Count.Follows (s : Count) (p : Port A) : Prop
  | idle (hp : p = Port.idle) (hbeat : s.beat = 0)
  | serving (b : Req A) (k : ℕ) (hp : p = Port.serving b k) (hk : k < b.len) (hbeat : s.beat.toNat = k)
      (hlen : s.lenLat.toNat + 1 = b.len)

section count
variable {s : Count} {p : Port A} {addr : BitVec A} {len : BitVec 8} {accepted transfer last : Bool}

/-- The assertions about a beat of a pending burst are about its last flag. -/
theorem Count.Follows.passes_iff (h : s.Follows p) (hbusy : transfer = true → p.pending ≠ []) :
    s.Passes transfer last ↔ (transfer = true → last = p.lastBeat) := by
  cases htr : transfer with
  | false => simp [Passes]
  | true =>
    cases h with
    | idle hp => exact absurd (by rw [hp]; rfl) (hbusy htr)
    | serving b k hp hk hbeat hlen =>
      have heq : s.beat = s.lenLat ↔ k + 1 = b.len := by
        rw [← BitVec.toNat_inj]
        omega
      have hlt : s.beat < s.lenLat ↔ k + 1 ≠ b.len := by
        rw [BitVec.lt_def]
        omega
      rw [hp, Port.serving_lastBeat, Passes, heq, hlt]
      cases last <;> simp

theorem Count.Follows.step (h : s.Follows p) (hfree : accepted = true → p.pending = [])
    (hbusy : transfer = true → p.pending ≠ []) (hlast : transfer = true → last = p.lastBeat) :
    (s.step accepted len transfer last).Follows
      (p.step (if accepted then some ⟨addr, len.toNat + 1⟩ else none) transfer) := by
  cases h with
  | idle hp hbeat =>
    have htr : transfer = false := by
      by_contra htr
      exact hbusy (by simpa using htr) (by rw [hp]; rfl)
    rw [hp, htr]
    cases accepted with
    | false => exact .idle (Port.step_quiet _) (by simp [Count.step, hbeat])
    | true =>
      rw [if_pos rfl, Port.idle_accept]
      exact .serving _ 0 rfl (Nat.succ_pos _) (by simp [Count.step, hbeat]) (by simp [Count.step])
  | serving b k hp hk hbeat hlen =>
    have hacc : accepted = false := by
      by_contra hacc
      have hnil := hfree (by simpa using hacc)
      rw [hp] at hnil
      cases hnil
    rw [hacc, hp, if_neg (by simp)]
    cases htr : transfer with
    | false =>
      rw [Port.step_quiet]
      exact .serving b k rfl hk (by simp [Count.step, hbeat]) (by simp [Count.step, hlen])
    | true =>
      have hflag := hlast htr
      rw [hp, Port.serving_lastBeat] at hflag
      by_cases hover : k + 1 = b.len
      · rw [Port.serving_last hover]
        exact .idle rfl (by simp [Count.step, hflag, hover])
      · have hlt := s.lenLat.isLt
        have hsucc : (s.beat + 1).toNat = k + 1 := by
          rw [BitVec.toNat_add, hbeat]
          exact Nat.mod_eq_of_lt (by simp; omega)
        obtain rfl : last = false := hflag.trans (beq_eq_false_iff_ne.mpr hover)
        rw [Port.serving_next hover]
        exact .serving b (k + 1) rfl (by omega) hsucc (by simp [Count.step, hlen])

end count

/-! ## What the checker detects -/

/-- The signals of one direction in a cycle. -/
structure Signals (A : ℕ) where
  accepted : Bool
  addr : BitVec A
  len : BitVec 8
  transfer : Bool
  last : Bool

namespace Signals

def count (x : Signals A) (s : Count) : Count := s.step x.accepted x.len x.transfer x.last

def port (x : Signals A) (p : Port A) : Port A :=
  p.step (if x.accepted then some ⟨x.addr, x.len.toNat + 1⟩ else none) x.transfer

end Signals

section exact
variable {s : Count} {x : ℕ → Signals A} {t : ℕ}

/-- While the flags were right the checker knows the pending burst. -/
theorem follows_run (hbeat : s.beat = 0)
    (hfree : ∀ u < t, (x u).accepted = true → (run Signals.port Port.idle x u).pending = [])
    (hbusy : ∀ u < t, (x u).transfer = true → (run Signals.port Port.idle x u).pending ≠ [])
    (hlast : ∀ u < t, (x u).transfer = true → (x u).last = (run Signals.port Port.idle x u).lastBeat) :
    (run Signals.count s x t).Follows (run Signals.port Port.idle x t) := by
  induction t with
  | zero => exact .idle rfl hbeat
  | succ t ih =>
    have hprev := ih (fun u hu => hfree u (by omega)) (fun u hu => hbusy u (by omega))
      fun u hu => hlast u (by omega)
    exact hprev.step (hfree t (Nat.lt_succ_self t)) (hbusy t (Nat.lt_succ_self t))
      (hlast t (Nat.lt_succ_self t))

/-- **The checker finds every wrong last flag**, and finds fault with no right one: on
any signals with one burst at a time, whose beats all belong to a burst, its assertions
about the beats hold up to a cycle exactly if every beat before it was flagged as it
should be.  The checker starts with its beat counter at 0. -/
theorem checker_exact (hbeat : s.beat = 0)
    (hfree : ∀ u < t, (x u).accepted = true → (run Signals.port Port.idle x u).pending = [])
    (hbusy : ∀ u < t, (x u).transfer = true → (run Signals.port Port.idle x u).pending ≠ []) :
    (∀ u < t, (run Signals.count s x u).Passes (x u).transfer (x u).last) ↔
      ∀ u < t, (x u).transfer = true → (x u).last = (run Signals.port Port.idle x u).lastBeat := by
  induction t with
  | zero =>
    constructor
    · intro _ u hu
      omega
    · intro _ u hu
      omega
  | succ t ih =>
    have hprev := ih (fun u hu => hfree u (by omega)) fun u hu => hbusy u (by omega)
    -- up to the first wrong flag the checker follows, and so it judges that flag
    have hnow : (∀ u < t, (x u).transfer = true → (x u).last = (run Signals.port Port.idle x u).lastBeat) →
        ((run Signals.count s x t).Passes (x t).transfer (x t).last ↔
          ((x t).transfer = true → (x t).last = (run Signals.port Port.idle x t).lastBeat)) := fun hlast =>
      (follows_run hbeat (fun u hu => hfree u (by omega)) (fun u hu => hbusy u (by omega)) hlast).passes_iff
        (hbusy t (Nat.lt_succ_self t))
    constructor
    · intro hpass u hu
      have hlast := hprev.mp fun v hv => hpass v (by omega)
      rcases Nat.lt_succ_iff_lt_or_eq.mp hu with hlt | rfl
      · exact hlast u hlt
      · exact (hnow hlast).mp (hpass u hu)
    · intro hlast u hu
      rcases Nat.lt_succ_iff_lt_or_eq.mp hu with hlt | rfl
      · exact hprev.mpr (fun v hv => hlast v (by omega)) u hlt
      · exact (hnow fun v hv => hlast v (by omega)).mpr (hlast u hu)

end exact

/-- A burst of two beats whose last one is not flagged is found in cycle 2. -/
theorem checker_exact_demo :
    let x : ℕ → Signals 8 := fun u => ⟨u == 0, 0, 1, u == 1 || u == 2, false⟩
    (run Signals.count ⟨0, 0⟩ x 1).Passes (x 1).transfer (x 1).last ∧
      ¬ ∀ u < 3, (run Signals.count ⟨0, 0⟩ x u).Passes (x u).transfer (x u).last := by
  intro x
  refine ⟨by decide, ?_⟩
  rw [checker_exact (s := ⟨0, 0⟩) (x := x) (t := 3) rfl (by decide) (by decide)]
  decide

/-! ## The checkers on `stream_axi_top` -/

/-- The ports of `u_rd_check`. -/
def rdCheck (i : TopIn N A) (s : Top N A) : CheckIn where
  rst := i.rst
  arvalid := s.bridge.dma.rd.arvalid
  arready := (s.dmaIn i).arready
  rlast := (s.dmaIn i).rlast
  rvalid := (s.dmaIn i).rvalid
  rready := s.bridge.dma.rd.rready
  arlen := s.bridge.dma.rd.arlen
  awvalid := false
  awready := false
  wlast := false
  wvalid := false
  wready := false
  bvalid := false
  bready := false
  awlen := 0

/-- The ports of `u_wr_check`. -/
def wrCheck (i : TopIn N A) (s : Top N A) : CheckIn where
  rst := i.rst
  arvalid := false
  arready := false
  rlast := false
  rvalid := false
  rready := false
  arlen := 0
  awvalid := s.bridge.dma.wr.awvalid
  awready := (s.dmaIn i).awready
  wlast := s.bridge.dma.wr.wlast
  wvalid := s.bridge.dma.wr.wvalid
  wready := (s.dmaIn i).wready
  bvalid := (s.dmaIn i).bvalid
  bready := true
  awlen := s.bridge.dma.wr.awlen

/-- What the two checkers see in a run. -/
def rdCheckTrace (z : Sizes) (p : Top N A) (i : ℕ → TopIn N A) (t : ℕ) : CheckIn := rdCheck (i t) (top z p i t)

def wrCheckTrace (z : Sizes) (p : Top N A) (i : ℕ → TopIn N A) (t : ℕ) : CheckIn := wrCheck (i t) (top z p i t)

/-- The registers of both checkers follow the monitor. -/
structure Watched (kr kw : Checker) (s : Top N A) : Prop where
  r : kr.r.Follows s.bridge.bus.rd
  w : kw.w.Follows s.bridge.bus.wr
  outstanding : kw.awOutstanding = (s.uRamWr.wr.awState != .idle)

section watched
variable {z : Sizes} {c : Cmd A} {i : TopIn N A} {s : Top N A} {kr kw : Checker}

theorem Watched.passes (h : Watched kr kw s) (hl : Linked s) (hports : Ports z.depths c s.bridge) :
    kr.Passes (rdCheck i s) ∧ kw.Passes (wrCheck i s) := by
  refine ⟨⟨?_, ?_, ?_, ?_⟩, ⟨?_, ?_, ?_, ?_⟩⟩
  · refine (h.r.passes_iff fun htr => ?_).mpr fun htr => ?_
    all_goals
      rw [Bool.and_eq_true] at htr
    · exact (hl.rd.legal htr.1).1
    · exact (hl.rd.legal htr.1).2
  · simp [Count.Passes, rdCheck]
  · simp [rdCheck]
  · simp [rdCheck]
  · simp [Count.Passes, wrCheck]
  · refine (h.w.passes_iff fun htr => ?_).mpr fun htr => ?_
    all_goals
      rw [Bool.and_eq_true] at htr
      obtain ⟨-, b, k, hp, -, hflag⟩ := hports.sending.beat htr.1
      rw [hp]
    · simp [Port.serving]
    · rw [Port.serving_lastBeat]
      exact hflag
  · intro hb
    have hv : s.uRamWr.wr.bvalid = true := by
      rw [Bool.and_eq_true] at hb
      exact hb.1
    rw [h.outstanding]
    cases hl.wr with
    | resp hs => rw [hs]; rfl
    | rest _ hv' => rw [hv'] at hv; cases hv
    | data _ _ _ _ hv' => rw [hv'] at hv; cases hv
  · intro haw
    -- the memory accepts an address in `AW_IDLE` only
    have hready : s.uRamWr.wr.awready (s.wrGates i) = true := by
      rw [Bool.and_eq_true] at haw
      exact haw.2
    rw [Axi4SimRam.WriteChannel.awready, Bool.and_eq_true, beq_iff_eq] at hready
    rw [h.outstanding, hready.1]
    rfl

/-- The write channel has a burst exactly if the checker counts one. -/
theorem Watched.outstanding_step (h : Watched kr kw s) (hl : Linked s) (hr : i.rst = false) :
    (kw.step (wrCheck i s)).awOutstanding = ((s.step z i).uRamWr.wr.awState != .idle) := by
  have hwr : (s.step z i).uRamWr.wr = s.uRamWr.wr.step (s.wrGates i) (s.wrIn i) := rfl
  have hrst : (s.wrIn i).rst = false := hr
  have hout := h.outstanding
  rw [hwr]
  simp only [Checker.step, wrCheck, hr, Bool.false_eq_true, if_false, Top.dmaIn, Bool.and_true]
  cases hl.wr with
  | rest hs hv =>
    cases hacc : s.bridge.dma.wr.awvalid && s.uRamWr.wr.awready (s.wrGates i) with
    | false =>
      have hnone : s.uRamWr.wr.awAccepted (s.wrGates i) (s.wrIn i) = none := by
        simp [Axi4SimRam.WriteChannel.awAccepted, Top.wrIn, wrPort, hacc]
      rw [Axi4SimRam.WriteChannel.step_idle hrst hs hnone]
      simp [hs, hv, hout]
    | true =>
      have hsome : s.uRamWr.wr.awAccepted (s.wrGates i) (s.wrIn i) =
          some ⟨0, s.bridge.dma.wr.awaddr, s.bridge.dma.wr.awlen⟩ := by
        simp [Axi4SimRam.WriteChannel.awAccepted, Top.wrIn, wrPort, hr, hacc]
      rw [(Axi4SimRam.WriteChannel.step_accept hrst hsome).2]
      simp
  | data b k hp hs hv =>
    have hnever : s.uRamWr.wr.awready (s.wrGates i) = false := by
      simp [Axi4SimRam.WriteChannel.awready, hs]
    rw [hnever, Bool.and_false, hv, hout, hs]
    cases hw : s.uRamWr.wr.wBeat (s.wrGates i) (s.wrIn i) with
    | none =>
      rw [Axi4SimRam.WriteChannel.step_data_wait hrst hs hw]
      simp [hs]
    | some beat =>
      rw [Axi4SimRam.WriteChannel.step_beat hrst hw]
      cases (s.wrIn i).wlast with
      | false => simp [hs]
      | true => rfl
  | resp hs hv =>
    have hnever : s.uRamWr.wr.awready (s.wrGates i) = false := by
      simp [Axi4SimRam.WriteChannel.awready, hs]
    rw [hnever, Bool.and_false, hv, Axi4SimRam.WriteChannel.step_resp hrst hs, hv]
    simp [Top.wrIn, wrPort]

theorem Watched.step (h : Watched kr kw s) (hl : Linked s) (hports : Ports z.depths c s.bridge)
    (hr : i.rst = false) : Watched (kr.step (rdCheck i s)) (kw.step (wrCheck i s)) (s.step z i) := by
  refine ⟨?_, ?_, h.outstanding_step hl hr⟩
  · have hbus : (s.step z i).bridge.bus.rd =
        s.bridge.bus.rd.step (s.bridge.dma.rd.arAccepted (s.dmaIn i)) (s.bridge.dma.rd.push (s.dmaIn i)) := by
      simp [Top.step, Sys.step, Top.dmaIn, hr]
    have hr' : (rdCheck i s).rst = false := hr
    rw [hbus, Checker.step, hr']
    refine h.r.step ?_ ?_ ?_
    · intro hacc
      rw [Bool.and_eq_true] at hacc
      rw [(hports.reading.offer hacc.1).2.1]
      rfl
    · intro htr
      rw [Bool.and_eq_true] at htr
      exact (hl.rd.legal htr.1).1
    · intro htr
      rw [Bool.and_eq_true] at htr
      exact (hl.rd.legal htr.1).2
  · have hbus : (s.step z i).bridge.bus.wr =
        s.bridge.bus.wr.step (s.bridge.dma.wr.awAccepted (s.dmaIn i)) (s.bridge.dma.wr.sent (s.dmaIn i)) := by
      simp [Top.step, Sys.step, Top.dmaIn, hr]
    have hr' : (wrCheck i s).rst = false := hr
    rw [hbus, Checker.step, hr']
    refine h.w.step ?_ ?_ ?_
    · intro hacc
      rw [Bool.and_eq_true] at hacc
      rw [(hports.sending.offer hacc.1).2.1]
      rfl
    all_goals
      intro htr
      rw [Bool.and_eq_true] at htr
      obtain ⟨-, b, k, hp, -, hflag⟩ := hports.sending.beat htr.1
      rw [hp]
    · simp [Port.serving]
    · rw [Port.serving_lastBeat]
      exact hflag

theorem watched_reset (kr kw : Checker) (s : Top N A) (hr : i.rst = true) :
    Watched (kr.step (rdCheck i s)) (kw.step (wrCheck i s)) (s.step z i) := by
  have hbus : (s.step z i).bridge.bus = ⟨Port.idle, Port.idle, 0⟩ := by
    simp [Top.step, Sys.step, Top.dmaIn, hr]
  refine ⟨.idle (by rw [hbus]) ?_, .idle (by rw [hbus]) ?_, ?_⟩
  · simp [Checker.step, rdCheck, hr]
  · simp [Checker.step, wrCheck, hr]
  · simp [Checker.step, wrCheck, Top.step, Axi4SimRam.SimRam.step, Axi4SimRam.WriteChannel.step, Top.wrIn,
      wrPort, hr]

end watched

/-- **No assertion of the protocol checkers fails** on `stream_axi_top`, in any run
after a reset: for any commands, on any memory contents, and however the two memories
stall. -/
theorem protocol_check_passes (z : Sizes) (hN : N < 2 ^ 31) (p : Top N A) (i : ℕ → TopIn N A)
    (kr kw : Checker) {r : ℕ} (hr : (i r).rst = true) (t : ℕ) (hrt : r < t)
    (hrun : ∀ u, r < u → u ≤ t → (i u).rst = false) :
    (run Checker.step kr (rdCheckTrace z p i) t).Passes (rdCheckTrace z p i t) ∧
      (run Checker.step kw (wrCheckTrace z p i) t).Passes (wrCheckTrace z p i t) ∧
      NoDrop (rdCheckTrace z p i t) (rdCheckTrace z p i (t + 1)) ∧
      NoDrop (wrCheckTrace z p i t) (wrCheckTrace z p i (t + 1)) := by
  have hlinked : ∀ u, r < u → u ≤ t → Linked (top z p i u) := fun u hu hut =>
    linked_run hN hr hu fun v hv hvu => hrun v hv (by omega)
  have hports : ∀ u, r < u → u ≤ t → ∃ c, Ports z.depths c (top z p i u).bridge := fun u hu hut =>
    ports_top hN hr hu fun v hv hvu => hrun v hv (by omega)
  have hwatched : ∀ u, r < u → u ≤ t → Watched (run Checker.step kr (rdCheckTrace z p i) u)
      (run Checker.step kw (wrCheckTrace z p i) u) (top z p i u) := by
    intro u hu
    induction u, hu using Nat.le_induction with
    | base => exact fun _ => watched_reset _ _ _ hr
    | succ u hu ih =>
      intro hut
      obtain ⟨c, hc⟩ := hports u hu (by omega)
      exact (ih (by omega)).step (hlinked u hu (by omega)) hc (hrun u hu (by omega))
  obtain ⟨c, hc⟩ := hports t hrt le_rfl
  obtain ⟨hpr, hpw⟩ := (hwatched t hrt le_rfl).passes (hlinked t hrt le_rfl) hc
  have hrst : ((top z p i t).dmaIn (i t)).rst = false := hrun t hrt le_rfl
  have hrules := hc.rules (i := (top z p i t).dmaIn (i t)) hrst
  refine ⟨hpr, hpw, ⟨?_, ?_⟩, ⟨?_, ?_⟩⟩
  · intro hv
    have hwait : (top z p i t).bridge.dma.rd.arvalid = true ∧ ((top z p i t).dmaIn (i t)).arready = false := by
      simpa [rdCheckTrace, rdCheck] using hv
    exact (hrules.ar_stable hwait.1 hwait.2).1
  · simp [rdCheckTrace, rdCheck]
  · simp [wrCheckTrace, wrCheck]
  · intro hv
    have hwait : (top z p i t).bridge.dma.wr.awvalid = true ∧ ((top z p i t).dmaIn (i t)).awready = false := by
      simpa [wrCheckTrace, wrCheck] using hv
    exact (hrules.aw_stable hwait.1 hwait.2).1

/-- The run of `demoIn`: in cycle 22 the last read beat goes, in cycle 45 the last write beat. -/
theorem protocol_check_passes_demo :
    (rdCheckTrace demoSizes demoTop demoIn 22).rlast = true ∧
      (run Checker.step ⟨⟨3, 9⟩, ⟨3, 9⟩, true⟩ (rdCheckTrace demoSizes demoTop demoIn) 22).Passes
        (rdCheckTrace demoSizes demoTop demoIn 22) ∧
      (wrCheckTrace demoSizes demoTop demoIn 45).wlast = true ∧
      (run Checker.step ⟨⟨3, 9⟩, ⟨3, 9⟩, true⟩ (wrCheckTrace demoSizes demoTop demoIn) 45).Passes
        (wrCheckTrace demoSizes demoTop demoIn 45) := by
  have hrst : ∀ u, 0 < u → (demoIn u).rst = false := fun u hu => by simp [demoIn]; omega
  have hmain := fun t ht => protocol_check_passes demoSizes (by decide) demoTop demoIn
    ⟨⟨3, 9⟩, ⟨3, 9⟩, true⟩ ⟨⟨3, 9⟩, ⟨3, 9⟩, true⟩ rfl t ht fun u hu _ => hrst u hu
  exact ⟨by decide +kernel, (hmain 22 (by decide)).1, by decide +kernel, (hmain 45 (by decide)).2.1⟩

end StreamAxi
