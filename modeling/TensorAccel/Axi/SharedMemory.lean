import TensorAccel.Axi.Ordering

/-! # One memory behind both ports

    The memory belongs to the environment.  `Serves` asks little of it: a read
    beat returns what it held in some cycle while the burst was asked for or
    pending, and it holds all written beats whenever no write burst is open.
    Between the two it may hold anything.

    Abstractly a command is one step of the memory, `Memory.exec`, that reads all
    its words before it stores a row.  The bridge asks for words only while no
    write burst is open, and so carries its commands out one after another. -/

open Clocked Burst StreamCtrl

namespace DmaBridge

variable {N A : ℕ} {M : Type}

open ReadLog

/-! ## Commands on a memory -/

/-- What a memory with contents `M` answers to a read beat, and what a write beat
makes of it. -/
structure Memory (N A : ℕ) (M : Type) where
  load : M → BitVec A → Lanes8 N
  store : M → BitVec A → Lanes32 N → BitVec (N * 4) → M

namespace Memory

/-- Bytes, lane by lane from the address of the beat upwards; the strobes select
the bytes that are stored. -/
def bytes : Memory N A (BitVec A → BitVec 8) where
  load m a := fun j => m (a + BitVec.ofNat A j.val)
  store m a x strb := fun b =>
    let k := (b - a).toNat
    if h : k < N * 4 ∧ strb.getLsbD k = true then
      (x ⟨k / 4, Nat.div_lt_of_lt_mul (by omega)⟩).extractLsb' (8 * (k % 4)) 8
    else m b

variable (mm : Memory N A M)

/-- A beat outside every burst has no address, and stores nothing. -/
def write (m : M) (w : Option (BitVec A) × Lanes32 N × BitVec (N * 4)) : M :=
  match w with
  | (some a, x, strb) => mm.store m a x strb
  | (none, _, _) => m

def writeAll (m : M) (w : WriteLog N A) : M := w.foldl mm.write m

/-- The words of a command, its weight rows first. -/
def words (m : M) (c : Cmd A) (j : ℕ) : Lanes8 N := mm.load m (readAddr N c j)

/-- A command reads all its words before it stores its rows. -/
def exec (m : M) (c : Cmd A) : M :=
  mm.writeAll m (writeBeats c ((List.range c.mRows.toNat).map (resultRow (mm.words m c))))

def execAll (m : M) (cs : List (Cmd A)) : M := cs.foldl mm.exec m

theorem writeAll_append (m : M) (w w' : WriteLog N A) :
    mm.writeAll m (w ++ w') = mm.writeAll (mm.writeAll m w) w' := List.foldl_append

theorem execAll_snoc (m : M) (cs : List (Cmd A)) (c : Cmd A) :
    mm.execAll m (cs ++ [c]) = mm.exec (mm.execAll m cs) c := List.foldl_append

/-- The rows of a command are those of the words it reads. -/
theorem resultRows_eq {m : M} {c : Cmd A} {l : ReadLog N A} (hlen : l.length = N + c.mRows.toNat)
    (horder : InOrder c l) (hload : ∀ b ∈ l, b.1.map (mm.load m) = some b.2) :
    resultRows c l = (List.range c.mRows.toNat).map (resultRow (mm.words m c)) := by
  have hword : ∀ j < N + c.mRows.toNat, word l j = mm.words m c j := by
    intro j hj
    have hj' : j < l.length := by omega
    have haddr : l[j].1 = some (readAddr N c j) := by
      have hget := congrArg (fun q => q[j]?) horder
      simpa [hj'] using hget
    have hdata := hload l[j] (List.getElem_mem hj')
    rw [haddr] at hdata
    rw [word, ReadLog.words, List.getElem?_map, List.getElem?_eq_getElem hj']
    exact (Option.some.inj hdata).symm
  refine List.map_congr_left fun k hk => ?_
  rw [List.mem_range] at hk
  have hweights : (fun i : Fin N => word l i.val) = fun i : Fin N => mm.words m c i.val := by
    funext i
    exact hword i.val (by omega)
  rw [resultRow, resultRow, hweights, hword (N + k) (by omega)]

end Memory

/-! ## A memory on the bus -/

/-- `mem u` is what the memory holds in cycle `u`. -/
structure Serves (mm : Memory N A M) (d : Depths) (p : Sys N A) (i : ℕ → DmaIn N A) (mem : ℕ → M)
    (r t : ℕ) : Prop where
  read : ∀ u, r < u → u < t → (run (Sys.step d) p i u).dma.rd.push (i u) = true →
    ∃ v, r < v ∧ v ≤ u ∧
      (∀ w, v ≤ w → w ≤ u → (run (Sys.step d) p i w).dma.rd.arvalid = true ∨
        (run (Sys.step d) p i w).bus.rd.pending ≠ []) ∧
      ((run (Sys.step d) p i u).bus.rd.beatAddr (rbytes N)).map (mm.load (mem v)) = some (i u).rdata
  write : ∀ u, r < u → u ≤ t → (run (Sys.step d) p i u).bus.wr.pending = [] →
    (run (Sys.step d) p i u).bus.bDue = 0 →
    mem u = mm.writeAll (mem (r + 1)) (sentBeats d p i (r + 1) u)

/-- Commands have a row at least, and their row count stays on the port while they
run. -/
structure Driven (d : Depths) (p : Sys N A) (i : ℕ → DmaIn N A) (r t : ℕ) : Prop where
  rst : (i r).rst = true
  run : ∀ u, r < u → u < t → (i u).rst = false
  legal : ∀ u, r < u → u < t → (Clocked.run (Sys.step d) p i u).Legal (i u)
  rows : ∀ u, r < u → u < t → Accepts d p i u → 1 ≤ (i u).cmd.mRows.toNat
  held : ∀ u, r < u → u + 1 < t → (Clocked.run (Sys.step d) p i (u + 1)).dma.busy = true →
    (i (u + 1)).cmd.mRows = (i u).cmd.mRows

/-- The commands begun in cycles `s, ..., t - 1`. -/
def begun (d : Depths) (p : Sys N A) (i : ℕ → DmaIn N A) (s t : ℕ) : List (Cmd A) :=
  eventsIn (fun u => if (run (Sys.step d) p i u).dma.accept (i u) then some (i u).cmd else none) s t

/-- The number of done pulses in cycles `s, ..., t - 1`. -/
def donePulses (d : Depths) (p : Sys N A) (i : ℕ → DmaIn N A) (s t : ℕ) : ℕ :=
  countIn (fun u => (run (Sys.step d) p i u).dma.done) s t

section runs
variable {mm : Memory N A M} {d : Depths} {p : Sys N A} {i : ℕ → DmaIn N A} {mem : ℕ → M} {r t a e u : ℕ}

theorem Driven.mono (h : Driven d p i r t) (hle : e ≤ t) : Driven d p i r e where
  rst := h.rst
  run u hu hue := h.run u hu (by omega)
  legal u hu hue := h.legal u hu (by omega)
  rows u hu hue := h.rows u hu (by omega)
  held u hu hue := h.held u hu (by omega)

theorem Serves.mono (h : Serves mm d p i mem r t) (hle : e ≤ t) : Serves mm d p i mem r e where
  read u hu hue := h.read u hu (by omega)
  write u hu hue := h.write u hu (by omega)

/-- A launch finds the latched row count on the port. -/
theorem Driven.fed (hN' : N < 2 ^ 31) (h : Driven d p i r t) : Fed d p i r t where
  rst := h.rst
  run := h.run
  legal := h.legal
  rows := h.rows
  held u hru hut hlaunch := by
    have hdrv := h.mono (Nat.le_of_lt hut)
    obtain ⟨c, hports, hcmd⟩ := ports_run hN' h.rst hru hdrv.run hdrv.legal
    have hbusy : (Clocked.run (Sys.step d) p i u).dma.busy = true := by
      by_contra hfree
      have hb : (Clocked.run (Sys.step d) p i u).dma.bstate ≠ .run := by
        intro hb
        simp [Dma.busy, hb] at hfree
      rw [(hports.ctrl.rest hb).start] at hlaunch
      cases hlaunch
    obtain ⟨a, hra, hau, hacc, hbetween, rfl⟩ := hcmd hbusy
    rw [(hports.latched hbusy).2]
    exact held_run (Nat.le_of_lt hau) (fun v hv hvu => h.held v (by omega) (by omega)) hbetween

/-- Between two commands no write burst is open. -/
theorem Driven.settled (hN' : N < 2 ^ 31) (h : Driven d p i r t) (hrt : r < t)
    (hfree : (Clocked.run (Sys.step d) p i t).dma.busy = false) :
    (Clocked.run (Sys.step d) p i t).dma.wr.wvalid = false ∧
      (Clocked.run (Sys.step d) p i t).bus.wr.pending = [] ∧
      (Clocked.run (Sys.step d) p i t).bus.bDue = 0 := by
  obtain ⟨c, hports, -⟩ := ports_run hN' h.rst hrt h.run h.legal
  obtain ⟨-, hw, hp, hdue, -⟩ := hports.sending.rest (hports.free hfree).1
  exact ⟨hw, by rw [hp]; rfl, hdue⟩

/-- In a free cycle all commands so far fitted the FIFOs, or else one of them would
still run. -/
theorem Driven.sized (hN : 0 < N) (hN' : N < 2 ^ 31) (hdepths : d.rd ≤ N + d.wr)
    (h : Driven d p i r t) (hfree : (Clocked.run (Sys.step d) p i t).dma.busy = false) (hru : r < u)
    (hut : u < t) (hacc : Accepts d p i u) : Sized N d (i u).cmd := by
  obtain ⟨e, hue, het, hbusy, hlow⟩ := first_free hut hfree
  obtain ⟨-, -, hrd, -⟩ := command_end hN hN' ((h.mono het).fed hN') hru hue hacc hbusy hlow
  exact ⟨h.rows u hru hut hacc, hrd, by omega⟩

/-- The beats of a command that ended. -/
theorem Driven.command (hN : 0 < N) (hN' : N < 2 ^ 31) (hdepths : d.rd ≤ N + d.wr)
    (h : Driven d p i r e) (hfree : (Clocked.run (Sys.step d) p i e).dma.busy = false) (hra : r < a)
    (hae : a < e) (hacc : Accepts d p i a) (hbusy : BusyBetween d p i a e) :
    InOrder (i a).cmd (readBeats d p i a e) ∧
      (readBeats d p i a e).length = N + (i a).cmd.mRows.toNat ∧
      sentBeats d p i a e = writeBeats (i a).cmd (resultRows (i a).cmd (readBeats d p i a e)) := by
  have hbeats := accepted_run hN h.rst h.run h.legal
    (fun u hru hue hu => h.sized hN hN' hdepths hfree hru hue hu) h.held hra hae hacc hbusy
  obtain ⟨horder, hsent⟩ : InOrder (i a).cmd (readBeats d p i a e) ∧ sentBeats d p i a e =
      (writeBeats (i a).cmd (resultRows (i a).cmd (readBeats d p i a e))).take (sentBeats d p i a e).length := by
    rcases hbeats with ⟨pos, hcourse, -⟩ | ⟨-, hfin⟩
    · exact ⟨hcourse.inOrder.1, hcourse.sent.1⟩
    · exact ⟨hfin.inOrder, hfin.sent⟩
  obtain ⟨-, hlen, -, hcount⟩ := command_end hN hN' (h.fed hN') hra hae hacc hbusy hfree
  refine ⟨horder, hlen, ?_⟩
  rw [hsent, hcount, List.take_of_length_le]
  simp [writeBeats]

/-- The words of a command come from the memory as it was before the command. -/
theorem Driven.loads (hN : 0 < N) (hN' : N < 2 ^ 31) (h : Driven d p i r e)
    (hmem : Serves mm d p i mem r e) (hra : r < a) (hae : a < e) (hacc : Accepts d p i a)
    (hbusy : BusyBetween d p i a e) :
    ∀ b ∈ readBeats d p i a e, b.1.map (mm.load (mem a)) = some b.2 := by
  intro b hb
  obtain ⟨u, hau, hue, hbeat⟩ := mem_eventsIn.mp hb
  have hpush : (Clocked.run (Sys.step d) p i u).dma.rd.push (i u) = true := by
    by_contra hno
    simp [Sys.rBeat, hno] at hbeat
  obtain ⟨v, hrv, hvu, hopen, hload⟩ := hmem.read u (by omega) hue hpush
  have hfed := (h.mono (show v ≤ e by omega)).fed hN'
  -- the window of the burst lies in the command
  have hav : a < v := by
    by_contra hva
    obtain ⟨a', -, ha', -, hbusy', -⟩ := (bridge_ordered hN hN' hra ((h.mono hae.le).fed hN')).2
      (hopen a (by omega) hau)
    have hlow := hacc.2
    rw [hbusy' a ha' (Nat.lt_succ_self a)] at hlow
    cases hlow
  obtain ⟨a', hra', ha'v, hacc', hbusy', hnone, -, -, hp, hdue, -⟩ :=
    (bridge_ordered hN hN' hrv hfed).2 (hopen v le_rfl hvu)
  obtain rfl := accept_unique hacc hacc' (fun w hw hwv => hbusy w hw (by omega)) hbusy'
    (show a < v + 1 by omega) (by omega)
  -- nothing was written since the start, so that the memory is still the same
  have hsame : mem v = mem a := by
    obtain ⟨-, hp', hdue'⟩ := (h.mono hae.le).settled hN' hra hacc.2
    rw [hmem.write v hrv (by omega) (by rw [hp]; rfl) hdue, hmem.write a hra hae.le hp' hdue',
      sentBeats, eventsIn_split _ (show r + 1 ≤ a by omega) hav.le]
    rw [sentBeats] at hnone
    rw [hnone, List.append_nil]
    rfl
  obtain rfl : ((Clocked.run (Sys.step d) p i u).bus.rd.beatAddr (rbytes N), (i u).rdata) = b := by
    simpa [Sys.rBeat, hpush] using hbeat
  rw [← hsame]
  exact hload

/-! ## Execution -/

/-- Every command begun before cycle `t` was carried out, and has raised its done
pulse by then. -/
structure Executed (mm : Memory N A M) (d : Depths) (p : Sys N A) (i : ℕ → DmaIn N A) (mem : ℕ → M)
    (r t : ℕ) : Prop where
  pulses : donePulses d p i (r + 1) (t + 1) = (begun d p i (r + 1) t).length
  memory : mem t = mm.execAll (mem (r + 1)) (begun d p i (r + 1) t)

/-- The done pulse comes in a free cycle. -/
theorem done_free (d : Depths) (s : Sys N A) (j : DmaIn N A) (hbusy : (s.step d j).dma.busy = true) :
    (s.step d j).dma.done = false := by
  cases hr : j.rst with
  | true => simp [Sys.step, Dma.step, hr]
  | false =>
    cases hb : s.dma.bstate with
    | drain =>
      by_cases hover : s.dma.wr.wrTotal ≤ s.dma.wr.wrAcked
      · simp [Dma.busy, Sys.step, Dma.step, hr, hb, hover] at hbusy
      · simp [Sys.step, Dma.step, hover]
    | _ => simp [Sys.step, Dma.step, hb]

/-- It comes when a command ends. -/
theorem done_of_end {s : Sys N A} {j : DmaIn N A} (hr : j.rst = false) (hbusy : s.dma.busy = true)
    (hlow : (s.step d j).dma.busy = false) : (s.step d j).dma.done = true := by
  obtain ⟨hb, hover⟩ := busy_falls hr hbusy hlow
  simp [Sys.step, Dma.step, hr, hb, hover]

theorem executed_reset (hr : (i r).rst = true) : Executed mm d p i mem r (r + 1) where
  pulses := by
    have hdone : (run (Sys.step d) p i (r + 1)).dma.done = false := by
      simp [run_succ, Sys.step, Dma.step, hr]
    rw [donePulses, begun, countIn_succ _ le_rfl, hdone]
    simp
  memory := by simp [begun, Memory.execAll]

/-- A cycle without a command changes nothing. -/
theorem Executed.idle (h : Executed mm d p i mem r t) (hN' : N < 2 ^ 31)
    (hdrv : Driven d p i r (t + 1)) (hmem : Serves mm d p i mem r (t + 1)) (hrt : r < t)
    (hfree : (run (Sys.step d) p i t).dma.busy = false)
    (hlow : (run (Sys.step d) p i (t + 1)).dma.busy = false) : Executed mm d p i mem r (t + 1) := by
  have hb : (run (Sys.step d) p i t).dma.bstate = .idle := by simpa [Dma.busy] using hfree
  have hdone : (run (Sys.step d) p i (t + 1)).dma.done = false := by
    simp [run_succ, Sys.step, Dma.step, hb]
  have hacc : (run (Sys.step d) p i t).dma.accept (i t) = false := by
    by_contra hacc
    have hstart : (i t).start = true := by
      simpa [Dma.accept, hfree] using hacc
    rw [busy_after_accept (hdrv.run t hrt (Nat.lt_succ_self t)) ⟨hstart, hfree⟩] at hlow
    cases hlow
  have hnone : begun d p i (r + 1) (t + 1) = begun d p i (r + 1) t := by
    rw [begun, eventsIn_succ _ hrt, hacc]
    simp [begun]
  obtain ⟨hw, hp, hdue⟩ := (hdrv.mono (Nat.le_succ t)).settled hN' hrt hfree
  obtain ⟨-, hp', hdue'⟩ := hdrv.settled hN' (by omega) hlow
  have hsent : sentBeats d p i (r + 1) (t + 1) = sentBeats d p i (r + 1) t := by
    rw [sentBeats, eventsIn_succ _ hrt]
    simp [Sys.wBeat, WrEngine.sent, hw, sentBeats]
  constructor
  · rw [hnone, ← h.pulses, donePulses, countIn_succ _ (by omega), hdone]
    rfl
  · rw [hnone, ← h.memory, hmem.write (t + 1) (by omega) le_rfl hp' hdue', hsent,
      ← hmem.write t hrt (by omega) hp hdue]

/-- A command from its start to the end of `busy`. -/
theorem Executed.command (h : Executed mm d p i mem r a) (hN : 0 < N) (hN' : N < 2 ^ 31)
    (hdepths : d.rd ≤ N + d.wr) (hdrv : Driven d p i r (t + 1)) (hmem : Serves mm d p i mem r (t + 1))
    (hra : r < a) (hat : a < t) (hacc : Accepts d p i a) (hbusy : BusyBetween d p i a (t + 1))
    (hlow : (run (Sys.step d) p i (t + 1)).dma.busy = false) : Executed mm d p i mem r (t + 1) := by
  have haccept : (run (Sys.step d) p i a).dma.accept (i a) = true := by
    simp [Dma.accept, hacc.1, hacc.2]
  -- no other command begins while this one is busy
  have hbegun : begun d p i (r + 1) (t + 1) = begun d p i (r + 1) a ++ [(i a).cmd] := by
    have hquiet : eventsIn (fun u => if (run (Sys.step d) p i u).dma.accept (i u) then
        some (i u).cmd else none) (a + 1) (t + 1) = [] :=
      eventsIn_eq_nil fun u hau hut => by simp [Dma.accept, hbusy u hau hut]
    rw [begun, eventsIn_split _ (show r + 1 ≤ a + 1 by omega) (by omega), hquiet,
      eventsIn_succ _ (by omega), if_pos haccept, List.append_nil]
    rfl
  have hdone : (run (Sys.step d) p i (t + 1)).dma.done = true :=
    done_of_end (hdrv.run t (by omega) (Nat.lt_succ_self t)) (hbusy t hat (Nat.lt_succ_self t)) hlow
  obtain ⟨horder, hlen, hsent⟩ :=
    hdrv.command hN hN' hdepths hlow hra (by omega) hacc hbusy
  have hloads := hdrv.loads hN hN' hmem hra (by omega) hacc hbusy
  -- at its start and at its end the write port owes nothing, so memory is what was sent
  obtain ⟨-, hp, hdue⟩ := (hdrv.mono (show a ≤ t + 1 by omega)).settled hN' hra hacc.2
  obtain ⟨-, hp', hdue'⟩ := hdrv.settled hN' (by omega) hlow
  constructor
  · have hquiet : Quiet (fun u => (run (Sys.step d) p i u).dma.done) (a + 1) (t + 1) := by
      intro u hut hau
      obtain ⟨v, rfl⟩ : ∃ v, u = v + 1 := ⟨u - 1, by omega⟩
      exact done_free d _ _ (hbusy (v + 1) hau hut)
    rw [donePulses, countIn_succ _ (by omega), countIn_quiet (by omega) (by omega) hquiet, hdone, hbegun,
      List.length_append, ← h.pulses]
    rfl
  · rw [hbegun, Memory.execAll_snoc, ← h.memory, Memory.exec,
      ← mm.resultRows_eq hlen horder hloads, ← hsent,
      hmem.write (t + 1) (by omega) le_rfl hp' hdue', hmem.write a hra (by omega) hp hdue,
      ← Memory.writeAll_append]
    rw [sentBeats, sentBeats, sentBeats, ← eventsIn_split _ (show r + 1 ≤ a by omega) (by omega)]

/-- Holds at every cycle in which the bridge is free. -/
theorem executed_run (hN : 0 < N) (hN' : N < 2 ^ 31) (hdepths : d.rd ≤ N + d.wr)
    (h : Driven d p i r t) (hmem : Serves mm d p i mem r t) (hrt : r < t)
    (hfree : (run (Sys.step d) p i t).dma.busy = false) : Executed mm d p i mem r t := by
  have hfirst : (run (Sys.step d) p i (r + 1)).dma.busy = false := by
    simp [run_succ, Sys.step, Dma.step, Dma.busy, h.rst]
  refine free_induction (fun u => (run (Sys.step d) p i u).dma.busy)
    (P := fun u => u ≤ t → Executed mm d p i mem r u) hfirst (fun _ => executed_reset h.rst)
    (fun u hru hb hb' hprev hut => ?_) (fun a u hra hau hb hbusy hb' hprev hut => ?_) t hrt hfree le_rfl
  · exact (hprev (by omega)).idle hN' (h.mono hut) (hmem.mono hut) hru hb hb'
  · -- only an accepted start makes `busy` rise
    have hrst := h.run a hra (by omega)
    have hacc : (run (Sys.step d) p i a).dma.accept (i a) = true := by
      by_contra hno
      have hrise := busy_rises (d := d) hrst (Bool.eq_false_of_not_eq_true hno)
        (hbusy (a + 1) (Nat.lt_succ_self a) hau)
      rw [hb] at hrise
      cases hrise
    have hstart : (i a).start = true := by simpa [Dma.accept, hb] using hacc
    exact (hprev (by omega)).command hN hN' hdepths (h.mono hut) (hmem.mono hut) hra hau ⟨hstart, hb⟩
      (fun v hav hvu => hbusy v hav (by omega)) hb'

end runs

end DmaBridge
