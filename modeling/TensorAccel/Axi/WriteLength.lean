import TensorAccel.Axi.Engines

/-! # The length of a write burst

    `next_wburst_len` is the least of the buffered rows, 16 and the rows left to
    issue, but the rows left are looked at through their lowest 8 bits.  When 256
    or more are left, the length can come out too small, and when their number
    is a multiple of 256 it is 0: the write engine then stays in `W_IDLE` for
    ever. -/

open Clocked Burst StreamCtrl

namespace DmaBridge

variable {N A : ℕ}

namespace WrEngine

/-- The engine could issue a burst: it idles, rows are buffered, and some are
left to issue. -/
structure Waiting (s : WrEngine N A) : Prop where
  idle : s.wstate = .idle
  buffered : 0 < s.wf.count.toNat
  left : s.wrIssued < s.wrTotal

/-- The rows of the command that no burst has carried yet. -/
def rowsLeft (s : WrEngine N A) : ℕ := s.wrTotal.toNat - s.wrIssued.toNat

/-- The longest burst there could be. -/
def longest (s : WrEngine N A) : ℕ := min (min s.wf.count.toNat 16) s.rowsLeft

/-- Their lowest 8 bits say enough about the rows left. -/
def CutHarmless (s : WrEngine N A) : Prop :=
  s.rowsLeft < 256 ∨ min s.wf.count.toNat 16 ≤ s.rowsLeft % 256

section length
variable {D : ℕ} {s : WrEngine N A} {i : DmaIn N A} {cb : BitVec A} {wrEn : Bool} {x : Lanes32 N}

theorem length_of_left (hleft : s.wrIssued < s.wrTotal) :
    s.nextWburstLen.toNat = min (s.rowsLeft % 256) (min s.wf.count.toNat 16) := by
  rw [nextWburstLen_toNat, BitVec.toNat_sub_of_le (BitVec.le_def.mpr (Nat.le_of_lt hleft))]
  rfl

/-- The cut leaves nothing of a multiple of 256. -/
theorem length_of_cut (hleft : s.wrIssued < s.wrTotal) (hcut : s.rowsLeft % 256 = 0) :
    s.nextWburstLen = 0 := by
  apply BitVec.eq_of_toNat_eq
  rw [length_of_left hleft, hcut]
  exact Nat.zero_min _

theorem Waiting.rowsLeft_pos (h : Waiting s) : 0 < s.rowsLeft := by
  have hleft := h.left
  rw [BitVec.lt_def] at hleft
  unfold rowsLeft
  omega

theorem Waiting.longest_iff (h : Waiting s) : s.nextWburstLen.toNat = s.longest ↔ s.CutHarmless := by
  have hbuf := h.buffered
  have hpos := h.rowsLeft_pos
  rw [length_of_left h.left, longest, CutHarmless]
  omega

/-- A burst goes out in the next cycle unless its length is 0. -/
theorem Waiting.issue (D : ℕ) (cb : BitVec A) (wrEn : Bool) (x : Lanes32 N) (h : Waiting s)
    (hr : i.rst = false) (hlen : s.nextWburstLen.toNat ≠ 0) :
    (s.step D i false cb wrEn x).awvalid = true ∧
      (s.step D i false cb wrEn x).awlen.toNat + 1 = s.nextWburstLen.toNat := by
  have hne : s.nextWburstLen ≠ 0 := by
    intro hz
    rw [hz] at hlen
    exact hlen rfl
  rw [step_issue hr h.idle h.left hne]
  exact ⟨rfl, (announced hne).2⟩

end length

end WrEngine

open WrEngine

/-! ## Stuck -/

/-- A multiple of 256 rows is left, and all issued ones are acknowledged. -/
structure Stuck (s : Sys N A) : Prop where
  busy : s.dma.busy = true
  idle : s.dma.wr.wstate = .idle
  left : s.dma.wr.wrIssued < s.dma.wr.wrTotal
  cut : s.dma.wr.rowsLeft % 256 = 0
  acked : s.dma.wr.wrAcked = s.dma.wr.wrIssued

section stuck
variable {d : Depths} {s : Sys N A} {i : DmaIn N A}

/-- Nothing but a reset ends this. -/
theorem Stuck.step (h : Stuck s) (hr : i.rst = false) : Stuck (s.step d i) ∧ (s.step d i).dma.done = false := by
  have hacc : s.dma.accept i = false := by simp [Dma.accept, h.busy]
  have hmore : ¬ s.dma.wr.wrTotal ≤ s.dma.wr.wrAcked := by
    have hleft := h.left
    rw [h.acked, BitVec.le_def]
    rw [BitVec.lt_def] at hleft
    omega
  have hlen := length_of_cut h.left h.cut
  have hwr : (s.step d i).dma.wr = s.dma.wr.tick d.wr i s.dma.core.ctrl.wrEn s.dma.core.wrData := by
    rw [Sys.step_wr hacc]
    exact step_idle_wait hr h.idle fun hgo => hgo.2 hlen
  refine ⟨⟨?_, ?_, ?_, ?_, ?_⟩, ?_⟩
  · by_contra hlow
    exact hmore (busy_falls hr h.busy (by simpa using hlow)).2
  · rw [hwr]
    exact h.idle
  · rw [hwr]
    exact h.left
  · rw [hwr]
    exact h.cut
  · rw [hwr]
    exact h.acked
  · simp [Sys.step, Dma.step, hmore]

theorem Stuck.run {p : Sys N A} {i : ℕ → DmaIn N A} {t u : ℕ} (h : Stuck (run (Sys.step d) p i t))
    (htu : t < u) (hrst : ∀ v, t ≤ v → v < u → (i v).rst = false) :
    Stuck (Clocked.run (Sys.step d) p i u) ∧ (Clocked.run (Sys.step d) p i u).dma.done = false := by
  induction u, htu using Nat.le_induction with
  | base => exact h.step (hrst t le_rfl (Nat.lt_succ_self t))
  | succ u htu ih =>
    have hprev := ih fun v hv hvu => hrst v hv (by omega)
    exact hprev.1.step (hrst u (by omega) (Nat.lt_succ_self u))

/-- A reachable state in which the cut gives 0. -/
theorem Ports.stuck {c : Cmd A} (h : Ports d c s) (hwait : s.dma.wr.Waiting)
    (hcut : s.dma.wr.rowsLeft % 256 = 0) : Stuck s := by
  have hleft := hwait.left
  exact ⟨h.busy_of_left hleft, hwait.idle, hleft, hcut, (h.sending.rest hwait.idle).2.2.2.2⟩

end stuck

/-- **When a write burst has its full length.**  In any cycle `t` of a run after
a reset in which the write engine waits with rows buffered and rows left:
`next_wburst_len` is the least of the buffered rows, 16 and the rows left
exactly if fewer than 256 rows are left, or their number modulo 256 is not less
than the other two.  In that case the burst goes out in the next cycle.  If the
number of rows left is a multiple of 256, no further burst goes out, and the
command is never done. -/
theorem write_burst_length (d : Depths) (hN : N < 2 ^ 31) (p : Sys N A) (i : ℕ → DmaIn N A) {r : ℕ}
    (hr : (i r).rst = true) (t : ℕ) (hrt : r < t) (hrun : ∀ u, r < u → u ≤ t → (i u).rst = false)
    (hlegal : ∀ u, r < u → u < t → (run (Sys.step d) p i u).Legal (i u))
    (hwait : (run (Sys.step d) p i t).dma.wr.Waiting) :
    ((run (Sys.step d) p i t).dma.wr.nextWburstLen.toNat = (run (Sys.step d) p i t).dma.wr.longest ↔
      (run (Sys.step d) p i t).dma.wr.CutHarmless) ∧
    ((run (Sys.step d) p i t).dma.wr.CutHarmless →
      (run (Sys.step d) p i (t + 1)).dma.wr.awvalid = true ∧
      (run (Sys.step d) p i (t + 1)).dma.wr.awlen.toNat + 1 =
        (run (Sys.step d) p i t).dma.wr.longest) ∧
    ((run (Sys.step d) p i t).dma.wr.rowsLeft % 256 = 0 →
      ∀ u, t < u → (∀ v, t ≤ v → v < u → (i v).rst = false) →
        (run (Sys.step d) p i u).dma.wr.wstate = .idle ∧ (run (Sys.step d) p i u).dma.busy = true ∧
        (run (Sys.step d) p i u).dma.done = false) := by
  obtain ⟨c, hports, -⟩ := ports_run hN hr hrt (fun u hu hut => hrun u hu hut.le) hlegal
  have hiff := hwait.longest_iff
  have hrst := hrun t hrt le_rfl
  refine ⟨hiff, ?_, ?_⟩
  · intro hcut
    have hlen := hiff.mpr hcut
    have hpos : (run (Sys.step d) p i t).dma.wr.nextWburstLen.toNat ≠ 0 := by
      have hbuf := hwait.buffered
      have hleft := hwait.rowsLeft_pos
      rw [hlen, longest]
      omega
    -- a waiting engine belongs to a command, so that no start is accepted
    have hbusy := hports.busy_of_left hwait.left
    have hacc : (run (Sys.step d) p i t).dma.accept (i t) = false := by simp [Dma.accept, hbusy]
    have hissue := hwait.issue d.wr (run (Sys.step d) p i t).dma.rd.cBaseLat
      (run (Sys.step d) p i t).dma.core.ctrl.wrEn (run (Sys.step d) p i t).dma.core.wrData hrst hpos
    rw [hlen] at hissue
    simpa [run_succ, Sys.step, Dma.step, hacc] using hissue
  · intro hcut u htu hrst'
    obtain ⟨hstuck, hdone⟩ := (hports.stuck hwait hcut).run htu hrst'
    exact ⟨hstuck.idle, hstuck.busy, hdone⟩

/-- One row: it is buffered in cycle 17 and its burst goes out in cycle 18. -/
theorem write_burst_length_demo :
    (run (Sys.step demoDepths) demoSys (demoIn 1) 18).dma.wr.awvalid = true ∧
      (run (Sys.step demoDepths) demoSys (demoIn 1) 18).dma.wr.awlen = 0 := by
  have hrst : ∀ u, 0 < u → (demoIn 1 u).rst = false := by
    intro u hu
    simp only [demoIn, beq_eq_false_iff_ne]
    omega
  have hlegal : ∀ u < 17, 0 < u →
      (run (Sys.step demoDepths) demoSys (demoIn 1) u).Legal (demoIn 1 u) := by decide +kernel
  have hwait : (run (Sys.step demoDepths) demoSys (demoIn 1) 17).dma.wr.Waiting :=
    ⟨by decide +kernel, by decide +kernel, by decide +kernel⟩
  have hone : (run (Sys.step demoDepths) demoSys (demoIn 1) 17).dma.wr.longest = 1 := by
    decide +kernel
  have hleft : (run (Sys.step demoDepths) demoSys (demoIn 1) 17).dma.wr.rowsLeft < 256 := by
    decide +kernel
  have hmain := write_burst_length demoDepths (by decide) demoSys (demoIn 1) rfl 17 (by decide)
    (fun u hu _ => hrst u hu) (fun u hu hut => hlegal u hut hu) hwait
  obtain ⟨hv, hlen⟩ := hmain.2.1 (.inl hleft)
  rw [hone] at hlen
  exact ⟨hv, BitVec.eq_of_toNat_eq (Nat.succ.inj hlen)⟩

/-- FIFOs for up to 256 rows. -/
def wideDepths : Depths := ⟨512, 256, by decide, by decide, by decide, by decide⟩

/-- A reset, then one command of 256 rows; the subordinates never stall. -/
def wideIn (t : ℕ) : DmaIn 1 16 where
  rst := t == 0
  start := t == 1
  cmd := ⟨0, 256, 4096, 256⟩
  arready := true
  rdata := fun _ => 3
  rlast := t == 4 || (t - 5) % 18 == 17
  rvalid := t == 4 || (5 ≤ t && t < 293 && 2 ≤ (t - 5) % 18)
  awready := true
  wready := true
  bvalid := false

set_option maxRecDepth 100000 in
/-- As many rows as the write FIFO holds: in cycle 302 a row is buffered and all
are left to issue, but the length is 0, and the command is never done. -/
theorem write_burst_never :
    (wideIn 0).rst = true ∧ (∀ u, 0 < u → (wideIn u).rst = false) ∧
      (∀ u < 302, 0 < u →
        (run (Sys.step wideDepths) (zeroSys 1 16) wideIn u).Legal (wideIn u)) ∧
      (wideIn 1).cmd.mRows.toNat ≤ wideDepths.wr ∧ Accepts wideDepths (zeroSys 1 16) wideIn 1 ∧
      (run (Sys.step wideDepths) (zeroSys 1 16) wideIn 302).dma.wr.Waiting ∧
      (run (Sys.step wideDepths) (zeroSys 1 16) wideIn 302).dma.wr.nextWburstLen = 0 ∧
      (run (Sys.step wideDepths) (zeroSys 1 16) wideIn 302).dma.wr.longest = 1 ∧
      ∀ u, 302 < u → (run (Sys.step wideDepths) (zeroSys 1 16) wideIn u).dma.wr.wstate = .idle ∧
        (run (Sys.step wideDepths) (zeroSys 1 16) wideIn u).dma.done = false := by
  have hrst : ∀ u, 0 < u → (wideIn u).rst = false := by
    intro u hu
    simp only [wideIn, beq_eq_false_iff_ne]
    omega
  have hlegal : ∀ u < 302, 0 < u →
      (run (Sys.step wideDepths) (zeroSys 1 16) wideIn u).Legal (wideIn u) := by decide +kernel
  -- the state of cycle 302 is computed once
  obtain ⟨hidle, hbuf, hless, hleft, hlongest⟩ :
      (run (Sys.step wideDepths) (zeroSys 1 16) wideIn 302).dma.wr.wstate = .idle ∧
        0 < (run (Sys.step wideDepths) (zeroSys 1 16) wideIn 302).dma.wr.wf.count.toNat ∧
        (run (Sys.step wideDepths) (zeroSys 1 16) wideIn 302).dma.wr.wrIssued <
          (run (Sys.step wideDepths) (zeroSys 1 16) wideIn 302).dma.wr.wrTotal ∧
        (run (Sys.step wideDepths) (zeroSys 1 16) wideIn 302).dma.wr.rowsLeft = 256 ∧
        (run (Sys.step wideDepths) (zeroSys 1 16) wideIn 302).dma.wr.longest = 1 := by
    decide +kernel
  have hwait : (run (Sys.step wideDepths) (zeroSys 1 16) wideIn 302).dma.wr.Waiting :=
    ⟨hidle, hbuf, hless⟩
  have hlen := length_of_cut hwait.left (by rw [hleft])
  obtain ⟨c, hports, -⟩ := ports_run (p := zeroSys 1 16) (i := wideIn) (by decide) rfl
    (show 0 < 302 by decide) (fun u hu _ => hrst u hu) fun u hu hut => hlegal u hut hu
  have hstuck := hports.stuck hwait (by rw [hleft])
  refine ⟨rfl, hrst, hlegal, by decide, ⟨rfl, by decide +kernel⟩, hwait, hlen, hlongest, ?_⟩
  intro u hu
  obtain ⟨hlater, hdone⟩ := hstuck.run hu fun v hv _ => hrst v (by omega)
  exact ⟨hlater.idle, hdone⟩

end DmaBridge
