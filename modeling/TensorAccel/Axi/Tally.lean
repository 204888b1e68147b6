import TensorAccel.Axi.SharedMemory

/-! # Induction over the commands of a run

    In its free cycles the bridge is a function of the commands begun so far:
    what holds after a reset, in every further idle cycle and after one more
    command holds in every free cycle.  The number of beats on the bus is one
    instance. -/

open Clocked Burst StreamCtrl

namespace DmaBridge

variable {N A : ℕ} {d : Depths} {p : Sys N A} {i : ℕ → DmaIn N A} {r t u a e : ℕ}

/-- An idle cycle begins no command. -/
theorem begun_idle (hr : (i u).rst = false) (hru : r < u) (hfree : (run (Sys.step d) p i u).dma.busy = false)
    (hlow : (run (Sys.step d) p i (u + 1)).dma.busy = false) :
    begun d p i (r + 1) (u + 1) = begun d p i (r + 1) u := by
  have hacc : (run (Sys.step d) p i u).dma.accept (i u) = false := by
    by_contra hacc
    have hstart : (i u).start = true := by simpa [Dma.accept, hfree] using hacc
    rw [busy_after_accept hr ⟨hstart, hfree⟩] at hlow
    cases hlow
  rw [begun, eventsIn_succ _ hru, hacc]
  simp [begun]

/-- No command begins while another one is busy. -/
theorem begun_command (hra : r < a) (hae : a < e) (hacc : Accepts d p i a) (hbusy : BusyBetween d p i a e) :
    begun d p i (r + 1) e = begun d p i (r + 1) a ++ [(i a).cmd] := by
  have haccept : (run (Sys.step d) p i a).dma.accept (i a) = true := by
    simp [Dma.accept, hacc.1, hacc.2]
  have hquiet : eventsIn (fun u => if (run (Sys.step d) p i u).dma.accept (i u) then
      some (i u).cmd else none) (a + 1) e = [] :=
    eventsIn_eq_nil fun u hau hut => by simp [Dma.accept, hbusy u hau hut]
  rw [begun, eventsIn_split _ (show r + 1 ≤ a + 1 by omega) hae, hquiet, eventsIn_succ _ (by omega),
    if_pos haccept, List.append_nil]
  rfl

/-- What idle cycles keep and every command keeps. -/
theorem command_induction {P : ℕ → List (Cmd A) → Prop} (hrst : (i r).rst = true)
    (hrun : ∀ u, r < u → u < t → (i u).rst = false) (hbase : P (r + 1) [])
    (hidle : ∀ u cs, r < u → u < t → (run (Sys.step d) p i u).dma.busy = false →
      (run (Sys.step d) p i (u + 1)).dma.busy = false → P u cs → P (u + 1) cs)
    (hcommand : ∀ a e cs, r < a → a < e → e ≤ t → Accepts d p i a → BusyBetween d p i a e →
      (run (Sys.step d) p i e).dma.busy = false → P a cs → P e (cs ++ [(i a).cmd]))
    (hrt : r < t) (hfree : (run (Sys.step d) p i t).dma.busy = false) : P t (begun d p i (r + 1) t) := by
  have hfirst : (run (Sys.step d) p i (r + 1)).dma.busy = false := by
    simp [run_succ, Sys.step, Dma.step, Dma.busy, hrst]
  refine free_induction (fun u => (run (Sys.step d) p i u).dma.busy)
    (P := fun u => u ≤ t → P u (begun d p i (r + 1) u)) hfirst (fun _ => ?_)
    (fun u hru hb hb' hprev hut => ?_) (fun a u hra hau hb hbusy hb' hprev hut => ?_) t hrt hfree le_rfl
  · rw [begun, eventsIn_self]
    exact hbase
  · rw [begun_idle (hrun u hru hut) hru hb hb']
    exact hidle u _ hru hut hb hb' (hprev (by omega))
  · -- only an accepted start makes `busy` rise
    have hacc : (run (Sys.step d) p i a).dma.accept (i a) = true := by
      by_contra hno
      have hrise := busy_rises (d := d) (hrun a hra (by omega)) (Bool.eq_false_of_not_eq_true hno)
        (hbusy (a + 1) (Nat.lt_succ_self a) hau)
      rw [hb] at hrise
      cases hrise
    have haccepts : Accepts d p i a := ⟨by simpa [Dma.accept, hb] using hacc, hb⟩
    have hbetween : BusyBetween d p i a (u + 1) := fun v hav hvu => hbusy v hav (by omega)
    rw [begun_command hra (by omega) haccepts hbetween]
    exact hcommand a (u + 1) _ hra (by omega) hut haccepts hbetween hb' (hprev (by omega))

/-- The beats and the done pulses of the commands `cs`. -/
structure Tally (d : Depths) (p : Sys N A) (i : ℕ → DmaIn N A) (r t : ℕ) (cs : List (Cmd A)) : Prop where
  pulses : donePulses d p i (r + 1) (t + 1) = cs.length
  reads : (readBeats d p i (r + 1) t).length = (cs.map fun c => N + c.mRows.toNat).sum
  writes : (sentBeats d p i (r + 1) t).length = (cs.map fun c => c.mRows.toNat).sum

/-- Outside a command there is no beat. -/
theorem Driven.no_beat (hN' : N < 2 ^ 31) (h : Driven d p i r t) (hrt : r < t)
    (hfree : (Clocked.run (Sys.step d) p i t).dma.busy = false) :
    (Clocked.run (Sys.step d) p i t).rBeat (i t) = none ∧ (Clocked.run (Sys.step d) p i t).wBeat (i t) = none := by
  obtain ⟨c, hports, -⟩ := ports_run hN' h.rst hrt h.run h.legal
  have hb : (Clocked.run (Sys.step d) p i t).dma.bstate = .idle := by simpa [Dma.busy] using hfree
  have hready := (hports.reading.idle (hports.fetched (by rw [hb]; simp))).1
  have hvalid := (h.settled hN' hrt hfree).1
  exact ⟨by simp [Sys.rBeat, RdEngine.push, hready], by simp [Sys.wBeat, WrEngine.sent, hvalid]⟩

/-- In a free cycle all beats of the commands begun so far were transferred, and no others. -/
theorem tally_run (hN : 0 < N) (hN' : N < 2 ^ 31) (hdepths : d.rd ≤ N + d.wr) (h : Driven d p i r t)
    (hrt : r < t) (hfree : (run (Sys.step d) p i t).dma.busy = false) :
    Tally d p i r t (begun d p i (r + 1) t) := by
  refine command_induction (P := Tally d p i r) h.rst h.run ?_ ?_ ?_ hrt hfree
  · have hdone : (run (Sys.step d) p i (r + 1)).dma.done = false := by
      simp [run_succ, Sys.step, Dma.step, h.rst]
    constructor
    · rw [donePulses, countIn_succ _ le_rfl, hdone]
      simp
    · simp [readBeats]
    · simp [sentBeats]
  · intro u cs hru hut hfree' _ hprev
    obtain ⟨hread, hsent⟩ := (h.mono hut.le).no_beat hN' hru hfree'
    have hb : (run (Sys.step d) p i u).dma.bstate = .idle := by simpa [Dma.busy] using hfree'
    have hdone : (run (Sys.step d) p i (u + 1)).dma.done = false := by
      simp [run_succ, Sys.step, Dma.step, hb]
    constructor
    · rw [← hprev.pulses, donePulses, countIn_succ _ (by omega), hdone]
      rfl
    · rw [readBeats, eventsIn_succ _ hru, hread, Option.toList_none, List.append_nil]
      exact hprev.reads
    · rw [sentBeats, eventsIn_succ _ hru, hsent, Option.toList_none, List.append_nil]
      exact hprev.writes
  · intro a e cs hra hae het hacc hbusy hlow hprev
    obtain ⟨-, hlen, hsent⟩ := (h.mono het).command hN hN' hdepths hlow hra hae hacc hbusy
    have hcount : (sentBeats d p i a e).length = (i a).cmd.mRows.toNat := by
      rw [hsent]
      simp [writeBeats]
    obtain ⟨v, rfl⟩ : ∃ v, e = v + 1 := ⟨e - 1, by omega⟩
    have hav : a < v := by
      rcases Nat.lt_succ_iff_lt_or_eq.mp hae with hlt | rfl
      · exact hlt
      · rw [busy_after_accept (h.run a hra (by omega)) hacc] at hlow
        cases hlow
    -- the one done pulse comes at the end
    have hdone : (run (Sys.step d) p i (v + 1)).dma.done = true :=
      done_of_end (h.run v (by omega) (by omega)) (hbusy v hav (Nat.lt_succ_self v)) hlow
    have hquiet : Quiet (fun u => (run (Sys.step d) p i u).dma.done) (a + 1) (v + 1) := by
      intro u huv hau
      obtain ⟨w, rfl⟩ : ∃ w, u = w + 1 := ⟨u - 1, by omega⟩
      exact done_free d _ _ (hbusy (w + 1) (by omega) huv)
    constructor
    · rw [donePulses, countIn_succ _ (by omega), countIn_quiet (by omega) (by omega) hquiet, hdone,
        List.length_append, ← hprev.pulses]
      rfl
    · rw [readBeats, eventsIn_split _ (show r + 1 ≤ a by omega) hae.le, List.length_append, List.map_append,
        List.sum_append]
      have hfirst := hprev.reads
      rw [readBeats] at hfirst hlen
      rw [hfirst, hlen]
      simp
    · rw [sentBeats, eventsIn_split _ (show r + 1 ≤ a by omega) hae.le, List.length_append, List.map_append,
        List.sum_append]
      have hfirst := hprev.writes
      rw [sentBeats] at hfirst hcount
      rw [hfirst, hcount]
      simp

end DmaBridge
