import TensorAccel.Axi.SharedMemory
import TensorAccel.Axi.WriteLength

/-! # The row limit

    `next_wburst_len` never exceeds the rows left modulo 256.  So the bursts of a
    command stop short of its last blocks of 256 rows, whatever is buffered and
    however the subordinates answer: the command stores the rows in front of them
    and waits for ever. -/

open Clocked Burst StreamCtrl

namespace DmaBridge

variable {N A : ℕ}

/-- Rows of a burst that was chosen and does not count as issued yet. -/
def chosenRows (s : WrEngine N A) : ℕ :=
  if s.wstate = .aw ∨ s.wstate = .data then s.wBurstLen.toNat else 0

/-- The bursts up to now leave `q` blocks of 256 rows. -/
def KeptBack (q : ℕ) (s : WrEngine N A) : Prop :=
  s.wrIssued.toNat + chosenRows s + 256 * q ≤ s.wrTotal.toNat

section engine
variable {c : Cmd A} {s : WrEngine N A} {p : Port A} {bDue q : ℕ} {i : DmaIn N A}

theorem nextWburstLen_le_mod (hlt : s.wrIssued < s.wrTotal) :
    s.nextWburstLen.toNat ≤ (s.wrTotal.toNat - s.wrIssued.toNat) % 256 := by
  have hlen := nextWburstLen_toNat s
  rw [BitVec.toNat_sub_of_le (BitVec.le_def.mpr (Nat.le_of_lt hlt))] at hlen
  omega

/-- Beats that went out belong to bursts. -/
theorem Sending.sentRows_le (h : Sending c s p bDue) : sentRows s p ≤ s.wrIssued.toNat + chosenRows s := by
  unfold sentRows chosenRows
  cases h with
  | idle hst _ _ hp => simp [hst, hp, Port.idle]
  | aw hst _ _ hp => simp [hst, hp, Port.idle]
  | data b k hst _ _ hp _ _ hk hlen =>
    simp only [hst, hp, Port.serving, or_true, if_true, hlen]
    omega
  | bresp hst _ _ hp => simp [hst, hp, Port.idle]

/-- No cycle of the engine takes a row of the last blocks. -/
theorem KeptBack.step (D : ℕ) (cb : BitVec A) (wrEn : Bool) (x : Lanes32 N) (h : KeptBack q s)
    (hs : Sending c s p bDue) (hr : i.rst = false) : KeptBack q (s.step D i false cb wrEn x) := by
  unfold KeptBack chosenRows at *
  cases hs with
  | idle hst =>
    rw [hst] at h
    simp only [reduceCtorEq, or_self, if_false, Nat.add_zero] at h
    by_cases hgo : s.wrIssued < s.wrTotal ∧ s.nextWburstLen ≠ 0
    · -- what is left is a number of blocks and a rest, and the burst is at most the rest
      obtain ⟨hlt, hne⟩ := hgo
      have hmod := nextWburstLen_le_mod hlt
      rw [WrEngine.step_issue hr hst hlt hne]
      simp only [WrEngine.tick, true_or, if_true]
      omega
    · rw [WrEngine.step_idle_wait hr hst hgo]
      simpa [WrEngine.tick, hst] using h
  | aw hst haw =>
    rw [hst] at h
    cases hready : i.awready with
    | false =>
      rw [WrEngine.step_aw_wait hr hst hready]
      simpa [WrEngine.tick, hst] using h
    | true =>
      rw [WrEngine.step_aw_accepted hr hst haw hready]
      simpa [WrEngine.tick] using h
  | data b k hst _ _ _ _ _ _ hlen _ _ _ hle hlast =>
    rw [hst] at h
    simp only [or_true, if_true] at h
    cases hsent : s.sent i with
    | false =>
      rw [WrEngine.step_data_wait hr hst hsent]
      simpa [WrEngine.tick, hst] using h
    | true =>
      have htotal := s.wrTotal.isLt
      cases hend : s.wlast with
      | false =>
        rw [WrEngine.step_data_next hr hst hsent hend]
        simpa [WrEngine.tick, hst] using h
      | true =>
        rw [WrEngine.step_data_last hr hst hsent hend]
        have hissued : (s.wrIssued + s.wBurstLen.setWidth 32).toNat = s.wrIssued.toNat + s.wBurstLen.toNat := by
          rw [BitVec.toNat_add, BitVec.toNat_setWidth]
          omega
        simp only [WrEngine.tick, reduceCtorEq, or_self, if_false, hissued]
        omega
  | bresp hst =>
    rw [hst] at h
    simp only [reduceCtorEq, or_self, if_false, Nat.add_zero] at h
    cases hb : i.bvalid with
    | false =>
      rw [WrEngine.step_bresp_wait hr hst hb]
      simpa [WrEngine.tick, hst] using h
    | true =>
      rw [WrEngine.step_bresp hr hst hb]
      simpa [WrEngine.tick] using h

/-- Rows that are kept back are not acknowledged. -/
theorem KeptBack.unacked (h : KeptBack q s) (hs : Sending c s p bDue) (hq : 0 < q) :
    ¬ s.wrTotal ≤ s.wrAcked := by
  unfold KeptBack at h
  intro hover
  have hissued := (hs.over hover).2
  rw [hissued] at h
  omega

end engine

/-! ## Runs -/

/-- A long command in cycle `t`. -/
structure Endless (d : Depths) (p : Sys N A) (i : ℕ → DmaIn N A) (a t : ℕ) : Prop where
  ports : Ports d (i a).cmd (run (Sys.step d) p i t)
  busy : (run (Sys.step d) p i t).dma.busy = true
  done : (run (Sys.step d) p i t).dma.done = false
  kept : KeptBack ((i a).cmd.mRows.toNat / 256) (run (Sys.step d) p i t).dma.wr
  sent : (sentBeats d p i a t).length =
    sentRows (run (Sys.step d) p i t).dma.wr (run (Sys.step d) p i t).bus.wr

section runs
variable {d : Depths} {p : Sys N A} {i : ℕ → DmaIn N A} {r a t : ℕ}

theorem endless_start (hN : N < 2 ^ 31) (hr : (i r).rst = true) (hra : r < a)
    (hrun : ∀ u, r < u → u ≤ a → (i u).rst = false)
    (hlegal : ∀ u, r < u → u ≤ a → (run (Sys.step d) p i u).Legal (i u)) (hacc : Accepts d p i a) :
    Endless d p i a (a + 1) := by
  have hrst := hrun a hra le_rfl
  obtain ⟨c, hports, -⟩ := ports_run hN hr hra (fun u hu hua => hrun u hu hua.le) fun u hu hua =>
    hlegal u hu hua.le
  have haccept : (run (Sys.step d) p i a).dma.accept (i a) = true := by
    simp [Dma.accept, hacc.1, hacc.2]
  have hbusy : (run (Sys.step d) p i (a + 1)).dma.busy = true := busy_after_accept hrst hacc
  have hports' : Ports d (i a).cmd (run (Sys.step d) p i (a + 1)) :=
    hports.accept hrst (hlegal a hra le_rfl) haccept
  have hwr : (run (Sys.step d) p i (a + 1)).dma.wr = _ := hports.accept_wr hrst haccept
  have hidle := (hports.free hacc.2).1
  obtain ⟨-, hwv, hp, -, -⟩ := hports.sending.rest hidle
  have hp' := (hports'.sending.rest (by rw [hwr]; exact hidle)).2.2.1
  refine ⟨hports', hbusy, done_free d _ (i a) hbusy, ?_, ?_⟩
  · rw [hwr, KeptBack, chosenRows]
    simp only [hidle, reduceCtorEq, or_self, if_false]
    have hsplit := Nat.div_mul_le_self (i a).cmd.mRows.toNat 256
    show 0 + 0 + 256 * ((i a).cmd.mRows.toNat / 256) ≤ (i a).cmd.mRows.toNat
    omega
  · rw [sentBeats_succ le_rfl, hwr, hp', WrEngine.sent_eq_false hwv, sentBeats, eventsIn_self]
    rfl

theorem Endless.step (hN : N < 2 ^ 31) (h : Endless d p i a t) (hat : a < t) (hr : (i t).rst = false)
    (hlegal : (run (Sys.step d) p i t).Legal (i t)) (hlong : 256 ≤ (i a).cmd.mRows.toNat) :
    Endless d p i a (t + 1) := by
  have hq : 0 < (i a).cmd.mRows.toNat / 256 := Nat.div_pos hlong (by decide)
  have hacc : (run (Sys.step d) p i t).dma.accept (i t) = false := by simp [Dma.accept, h.busy]
  have hmore := h.kept.unacked h.ports.sending hq
  have hbusy : (run (Sys.step d) p i (t + 1)).dma.busy = true := by
    by_contra hlow
    exact hmore (busy_falls hr h.busy (Bool.eq_false_of_not_eq_true hlow)).2
  have hwr : (run (Sys.step d) p i (t + 1)).dma.wr = _ := Sys.step_wr (d := d) hacc
  have hbus : (run (Sys.step d) p i (t + 1)).bus.wr = (run (Sys.step d) p i t).bus.wr.step
      ((run (Sys.step d) p i t).dma.wr.awAccepted (i t)) ((run (Sys.step d) p i t).dma.wr.sent (i t)) := by
    simp [run_succ, Sys.step, hr]
  refine ⟨h.ports.stay hN hr hlegal hacc, hbusy, done_free d _ (i t) hbusy, ?_, ?_⟩
  · rw [hwr]
    exact h.kept.step d.wr _ _ _ h.ports.sending hr
  · rw [sentBeats_succ hat.le, h.sent, hwr, hbus]
    exact (h.ports.sending.rows d.wr _ _ _ hr).1.symm

theorem endless_run (hN : N < 2 ^ 31) (hr : (i r).rst = true) (hra : r < a) (hat : a < t)
    (hrun : ∀ u, r < u → u < t → (i u).rst = false)
    (hlegal : ∀ u, r < u → u < t → (run (Sys.step d) p i u).Legal (i u)) (hacc : Accepts d p i a)
    (hlong : 256 ≤ (i a).cmd.mRows.toNat) : Endless d p i a t := by
  induction t, hat using Nat.le_induction with
  | base =>
    exact endless_start hN hr hra (fun u hu hua => hrun u hu (by omega))
      (fun u hu hua => hlegal u hu (by omega)) hacc
  | succ t hat ih =>
    have hprev := ih (fun u hu hut => hrun u hu (by omega)) fun u hu hut => hlegal u hu (by omega)
    exact hprev.step hN hat (hrun t (by omega) (Nat.lt_succ_self t)) (hlegal t (by omega) (Nat.lt_succ_self t)) hlong

end runs

/-- **A command of 256 or more rows is never done**, in any run after a reset and for any
legal behaviour of the subordinates: until the next reset `busy` stays high, no done
pulse comes, and at most `m % 256` of its `m` rows are ever written. -/
theorem long_command_never_done (d : Depths) (hN : N < 2 ^ 31) (p : Sys N A) (i : ℕ → DmaIn N A) {r a : ℕ}
    (hr : (i r).rst = true) (hra : r < a) (t : ℕ) (hat : a < t) (hrun : ∀ u, r < u → u < t → (i u).rst = false)
    (hlegal : ∀ u, r < u → u < t → (run (Sys.step d) p i u).Legal (i u)) (hacc : Accepts d p i a)
    (hlong : 256 ≤ (i a).cmd.mRows.toNat) :
    (run (Sys.step d) p i t).dma.busy = true ∧ (run (Sys.step d) p i t).dma.done = false ∧
      (sentBeats d p i a t).length ≤ (i a).cmd.mRows.toNat % 256 := by
  have hend : Endless d p i a t := endless_run hN hr hra hat hrun hlegal hacc hlong
  refine ⟨hend.busy, hend.done, ?_⟩
  have hkept := hend.kept
  have hle := hend.ports.sending.sentRows_le
  have htotal := (hend.ports.latched hend.busy).2
  unfold KeptBack at hkept
  rw [htotal] at hkept
  rw [hend.sent]
  omega

set_option maxRecDepth 100000 in
/-- Of 256 rows not one is written. -/
theorem long_command_never_done_demo :
    (run (Sys.step wideDepths) (zeroSys 1 16) wideIn 302).dma.done = false ∧
      sentBeats wideDepths (zeroSys 1 16) wideIn 1 302 = [] := by
  have hrst : ∀ u, 0 < u → (wideIn u).rst = false := by
    intro u hu
    simp only [wideIn, beq_eq_false_iff_ne]
    omega
  have hlegal : ∀ u < 302, 0 < u →
      (run (Sys.step wideDepths) (zeroSys 1 16) wideIn u).Legal (wideIn u) := by decide +kernel
  obtain ⟨-, hdone, hsent⟩ := long_command_never_done wideDepths (by decide) (zeroSys 1 16) wideIn
    (show (wideIn 0).rst = true from rfl) (show 0 < 1 by decide) 302 (by decide) (fun u hu _ => hrst u hu)
    (fun u hu hut => hlegal u hut hu) ⟨rfl, by decide +kernel⟩ (by decide)
  exact ⟨hdone, List.length_eq_zero_iff.mp (Nat.le_zero.mp hsent)⟩

end DmaBridge
