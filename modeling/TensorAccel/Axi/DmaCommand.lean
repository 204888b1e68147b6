import TensorAccel.Axi.FifoBalance
import TensorAccel.Axi.WriteSide

/-! # A command on the AXI bridge

    `Course` puts the read side, the write side and the pipeline of a command
    together: at every position the rows pushed so far are the first product
    rows of the words that were read.  It is the state after some prefix of the
    command's read and write beats; `Rest` is the state between two commands. -/

open Clocked Ring Burst StreamCtrl
open Ctrl (Fits Phase Running)

namespace DmaBridge

variable {N A : ℕ}

open ReadLog

/-! ## The invariant -/

/-- The result rows of a command, from the words that were read. -/
def resultRows (c : Cmd A) (l : ReadLog N A) : List (Lanes32 N) :=
  (List.range c.mRows.toNat).map (resultRow (word l))

/-- The result rows pushed into the write FIFO before a position. -/
def rowsAt (c : Cmd A) (l : ReadLog N A) : Pos → List (Lanes32 N)
  | .fetch => []
  | .launch => []
  | .ctrl _ n => (resultRows c l).take (n - (4 * N + 2))
  | .drain => resultRows c l

@[simp] theorem resultRows_length (c : Cmd A) (l : ReadLog N A) :
    (resultRows c l).length = c.mRows.toNat := by simp [resultRows]

/-- The row count of a command and the FIFO depths. -/
structure Sized (N : ℕ) (d : Depths) (c : Cmd A) : Prop where
  rows : 1 ≤ c.mRows.toNat
  rd : N + c.mRows.toNat ≤ d.rd
  wr : c.mRows.toNat ≤ d.wr

/-- Command `c` after the read beats `l` and the write beats `w`. -/
structure Course (d : Depths) (c : Cmd A) (l : ReadLog N A) (w : WriteLog N A) (pos : Pos)
    (s : Sys N A) : Prop where
  sized : Sized N d c
  read : ReadSide d c l s pos
  write : WriteSide d.wr c (rowsAt c l pos) w s.dma.wr s.bus.wr s.bus.bDue
  rows : ∀ m n, pos = .ctrl m n → m = c.mRows
  data : ∀ m n, pos = .ctrl m n → Data (word l) m.toNat s.dma.core s.dma.rd.ctrlRdData

/-- Both sides rest. -/
structure Rest (d : Depths) (s : Sys N A) : Prop where
  read : ReadRest d s
  write : WriteRest d.wr s.dma.wr s.bus.wr s.bus.bDue

section steps
variable {d : Depths} {c : Cmd A} {l : ReadLog N A} {w : WriteLog N A} {s : Sys N A}
  {i : DmaIn N A} {pos pos' : Pos}

/-- `rd_total` does not wrap. -/
theorem Course.rdTotal (h : Course d c l w pos s) : s.dma.rd.rdTotal.toNat = N + c.mRows.toNat := by
  have hfit := h.sized.rd
  have hrd := d.rd_lt
  rw [h.read.latched.total, BitVec.toNat_add, BitVec.toNat_ofNat]
  omega

theorem rowsAt_length_le (c : Cmd A) (l : ReadLog N A) (pos : Pos) :
    (rowsAt c l pos).length ≤ c.mRows.toNat := by
  cases pos with
  | fetch => exact Nat.zero_le _
  | launch => exact Nat.zero_le _
  | ctrl m n =>
    rw [rowsAt, List.length_take, resultRows_length]
    exact Nat.min_le_right _ _
  | drain => rw [rowsAt, resultRows_length]

/-- Outside its run `u_ctrl` pushes nothing. -/
theorem ReadSide.wrEn_ctrl (h : ReadSide d c l s pos) (hpos : ∀ m n, pos ≠ .ctrl m n) :
    s.dma.core.ctrl.wrEn = false := by
  have hbusy : s.dma.core.ctrl.busy = false := by
    cases h with
    | fetch _ hc => exact hc.busy
    | launch _ _ hbusy => exact hbusy
    | ctrl m n => exact absurd rfl (hpos m n)
    | finish m => exact absurd rfl (hpos m _)
    | drain _ hc => exact hc.busy
  exact (Ctrl.no_strobe hbusy).2

/-- What `u_ctrl` pushes in a cycle of its run. -/
theorem Course.push {m : BitVec 32} {n : ℕ} (h : Course d c l w (.ctrl m n) s) (hN : 0 < N) :
    rowsAt c l (.ctrl m (n + 1)) = rowsAt c l (.ctrl m n) ++
      if s.dma.core.ctrl.wrEn then [s.dma.core.wrData] else [] := by
  have hlen := resultRows_length c l
  have hm := h.rows m n rfl
  have hread := h.read
  have hdata := h.data m n rfl
  cases hread with
  | ctrl _ _ hb hstart hrun hn hn' hl hload =>
    have hcap := hload.cap
    have hrd := d.rd_lt
    have hf : Fits N 32 m.toNat := ⟨hN, by omega, by omega⟩
    have hen : s.dma.core.ctrl.wrEn = true ↔ 4 * N + 2 ≤ n ∧ n < 4 * N + 2 + m.toNat :=
      hrun.phase.wrEn_iff hf hrun.rows
    by_cases hwr : s.dma.core.ctrl.wrEn = true
    · obtain ⟨hlo, hhi⟩ := hen.mp hwr
      have hk : n - (4 * N + 2) < m.toNat := by omega
      have hrow := hdata.wrData hf hrun.phase hk (by omega)
      rw [if_pos hwr, rowsAt, rowsAt, show n + 1 - (4 * N + 2) = n - (4 * N + 2) + 1 by omega,
        List.take_add_one, hrow, resultRows, List.getElem?_map,
        List.getElem?_range (by rw [← hm]; exact hk)]
      rfl
    · -- before the first row nothing is taken, after the last one everything
      have hoff := mt hen.mpr hwr
      rw [if_neg hwr, List.append_nil, rowsAt, rowsAt]
      by_cases hlo : 4 * N + 2 ≤ n
      · rw [List.take_of_length_le (by rw [hlen, ← hm]; omega),
          List.take_of_length_le (by rw [hlen, ← hm]; omega)]
      · rw [show n + 1 - (4 * N + 2) = 0 by omega, show n - (4 * N + 2) = 0 by omega]
  | finish _ hb hstart hbusy =>
    rw [(Ctrl.no_strobe hbusy).2, rowsAt, rowsAt, List.take_of_length_le (by rw [hlen, ← hm]; omega),
      List.take_of_length_le (by rw [hlen, ← hm]; omega)]
    simp

/-- The rows pushed in a cycle are those of the next position. -/
theorem Course.rowsAt_next (h : Course d c l w pos s) (hN : 0 < N)
    (hnext : pos.next i s.dma = some pos') :
    rowsAt c (l ++ (s.rBeat i).toList) pos' =
      rowsAt c l pos ++ if s.dma.core.ctrl.wrEn then [s.dma.core.wrData] else [] := by
  have hread := h.read
  cases pos with
  | fetch =>
    rw [hread.wrEn_ctrl (fun m n hf => by cases hf)]
    simp only [Pos.next] at hnext
    split at hnext
    · obtain rfl := Option.some.inj hnext
      simp [rowsAt]
    · obtain rfl := Option.some.inj hnext
      simp [rowsAt]
  | launch =>
    rw [hread.wrEn_ctrl (fun m n hf => by cases hf)]
    obtain rfl := Option.some.inj hnext
    simp [rowsAt, show 1 - (4 * N + 2) = 0 by omega]
  | ctrl m n =>
    -- no word is read while `u_ctrl` runs, so only the push counts
    rw [hread.quiet (fun hf => by cases hf) i, Option.toList_none, List.append_nil,
      ← h.push hN]
    simp only [Pos.next] at hnext
    split at hnext
    · next hend =>
      obtain rfl := Option.some.inj hnext
      rw [rowsAt, rowsAt, List.take_of_length_le]
      rw [resultRows_length, ← h.rows m n rfl]
      omega
    · obtain rfl := Option.some.inj hnext
      rfl
  | drain =>
    rw [hread.wrEn_ctrl (fun m n hf => by cases hf), hread.quiet (fun hf => by cases hf) i]
    simp only [Pos.next] at hnext
    split at hnext
    · cases hnext
    · obtain rfl := Option.some.inj hnext
      simp [rowsAt]

/-- The pipeline follows the words that were read. -/
theorem Course.data_next (h : Course d c l w pos s) (hN : 0 < N) (hr : i.rst = false)
    (hheld : i.cmd.mRows = c.mRows) (hnext : pos.next i s.dma = some pos') :
    ∀ m n, pos' = .ctrl m n → m = c.mRows ∧
      Data (word (l ++ (s.rBeat i).toList)) m.toNat (s.step d i).dma.core
        (s.step d i).dma.rd.ctrlRdData := by
  rintro m n rfl
  have hread := h.read
  have hacc := hread.accept i
  cases hread with
  | fetch => simp only [Pos.next] at hnext; split at hnext <;> cases hnext
  | drain => simp only [Pos.next] at hnext; split at hnext <;> cases hnext
  | finish => simp [Pos.next] at hnext
  | launch hb hstart hbusy hdone hload =>
    obtain ⟨rfl, rfl⟩ : i.cmd.mRows = m ∧ 1 = n := by simpa [Pos.next] using hnext
    have hctrl : (s.step d i).dma.core.ctrl = _ :=
      Ctrl.step_start (i := Core.ctrlIn (s.dma.coreIn i) s.dma.core) hr (Ctrl.state_of_idle hbusy)
        hstart
    refine ⟨hheld, ?_⟩
    simp only [Data, hctrl]
    intro r hlt
    simp at hlt
  | ctrl m' n' hb hstart hrun hn hn' hl hload =>
    have hquiet := h.read.quiet (fun hf => by cases hf) i
    rw [hquiet, Option.toList_none, List.append_nil]
    have hne : n' ≠ 4 * N + m'.toNat + 3 := by omega
    obtain ⟨rfl, rfl⟩ : m' = m ∧ n' + 1 = n := by simpa [Pos.next, hne] using hnext
    refine ⟨h.rows _ _ rfl, ?_⟩
    have hcap := hload.cap
    have hrd := d.rd_lt
    have hf : Fits N 32 m'.toNat := ⟨hN, by omega, by omega⟩
    by_cases hend : n' = 4 * N + m'.toNat + 2
    · -- the sequencer returns to idle, where `Data` says nothing
      subst hend
      have hlast : (s.step d i).dma.core.ctrl = _ :=
        hrun.last (i := Core.ctrlIn (s.dma.coreIn i) s.dma.core) hN hr
      simp [Data, hlast]
    · refine (h.data m' n' rfl).step (i := s.dma.coreIn i) hf hrun.rows hr hrun.phase
        (show n' < 4 * N + m'.toNat + 2 by omega) fun hen hlt => ?_
      -- the word asked for is the head of the FIFO, and the FIFO holds the words in order
      have hfeed : (s.step d i).dma.rd.ctrlRdData = s.dma.rd.rf.head := by
        obtain ⟨-, -, -, -, hword⟩ := rdEngine_frame d.rd i s.dma.rd true hr
        simpa [Sys.step, Dma.step, hacc, hen] using hword
      rw [hfeed]
      exact hload.head ((reads_step hN hrd hcap hrun hl).2 hen)

theorem wBeat_toList (s : Sys N A) (i : DmaIn N A) : (s.wBeat i).toList =
    if s.dma.wr.sent i then
      [(s.bus.wr.beatAddr (wbytes N), s.dma.wr.wdata, WrEngine.wstrb N)] else [] := by
  unfold Sys.wBeat
  split <;> rfl

/-- One cycle of a command. -/
theorem Course.step (hN : 0 < N) (h : Course d c l w pos s) (hr : i.rst = false)
    (hlegal : s.Legal i) (hheld : i.cmd.mRows = c.mRows)
    (hnext : pos.next i s.dma = some pos') :
    Course d c (l ++ (s.rBeat i).toList) (w ++ (s.wBeat i).toList) pos' (s.step d i) := by
  have hacc := h.read.accept i
  have hrows := h.rowsAt_next hN hnext
  have hN' : N < 2 ^ 31 := by
    have hfit := h.sized.rd
    have hrd := d.rd_lt
    omega
  -- the port still shows the row count that was latched
  have hok : LaunchOk i s.dma := by
    intro _
    have hpos := h.sized.rows
    rw [h.rdTotal, hheld]
    omega
  have hpush : s.dma.core.ctrl.wrEn = true → (rowsAt c l pos).length < c.mRows.toNat := by
    intro hwr
    have hle := rowsAt_length_le c (l ++ (s.rBeat i).toList) pos'
    rw [hrows, hwr, if_pos rfl, List.length_append, List.length_singleton] at hle
    omega
  -- the read side does not depend on the write side, so the two steps are independent
  have hwrite := h.write.step d.wr_lt hr hlegal.bvalid h.read.latched.cBase s.dma.core.wrData hpush
  have hdata := h.data_next hN hr hheld hnext
  refine ⟨h.sized, h.read.step hN hN' hr hlegal hok hnext, ?_, fun m n hp => (hdata m n hp).1,
    fun m n hp => (hdata m n hp).2⟩
  rw [hrows, wBeat_toList]
  simpa [Sys.step, Dma.step, hr, hacc] using hwrite

/-- The last cycle of a command: all rows were sent and acknowledged. -/
theorem Course.last (h : Course d c l w pos s) (hr : i.rst = false) (hlegal : s.Legal i)
    (hnext : pos.next i s.dma = none) :
    Rest d (s.step d i) ∧ s.rBeat i = none ∧ s.wBeat i = none ∧ l.length = N + c.mRows.toNat ∧
      w.length = c.mRows.toNat := by
  have hacc := h.read.accept i
  have hwr := h.read.wrEn_ctrl
  obtain ⟨hrest, rfl, hbeat⟩ := h.read.last hr hnext
  have hover : s.dma.wr.wrTotal ≤ s.dma.wr.wrAcked := by
    by_contra hmore
    simp [Pos.next, hmore] at hnext
  obtain ⟨hw, hrows, hst, haw, hv, hp, hdue, hnothing⟩ := h.write.complete hover
  have hfifo := h.write.fifo
  rw [List.drop_eq_nil_of_le (by omega)] at hfifo
  have hnow : WriteRest d.wr s.dma.wr s.bus.wr s.bus.bDue :=
    ⟨hst, haw, hv, hp, hdue, hnothing, hfifo⟩
  obtain ⟨hsent, hstay, -⟩ := hnow.step d.wr_lt hr hlegal.bvalid false s.dma.rd.cBaseLat
    s.dma.core.wrData
  refine ⟨⟨hrest, ?_⟩, hbeat, by simp [Sys.wBeat, hsent], ?_, hw⟩
  · have hen := hwr (fun m n hf => by cases hf)
    simpa [Sys.step, Dma.step, hr, hacc, hen] using hstay rfl
  · have htotal := h.rdTotal
    cases h.read with
    | drain _ _ hload => rw [hload.total, htotal]

/-- A cycle of rest. -/
theorem Rest.step (h : Rest d s) (hr : i.rst = false) (hlegal : s.Legal i) :
    s.rBeat i = none ∧ s.wBeat i = none ∧ (s.step d i).dma.done = false ∧
      (i.start = false → Rest d (s.step d i)) ∧
      (i.start = true → Sized N d i.cmd → Course d i.cmd [] [] .fetch (s.step d i)) := by
  obtain ⟨hpush, hstart, hstay⟩ := h.read.step hr
  have hen := (Ctrl.no_strobe h.read.ctrl.busy).2
  have hrd := h.read.rest
  have hacc : s.dma.accept i = i.start := by
    simp [Dma.accept, Dma.busy, h.read.bstate]
  obtain ⟨hsent, hwstay, hwstart⟩ := h.write.step d.wr_lt hr hlegal.bvalid i.start
    s.dma.rd.cBaseLat s.dma.core.wrData
  refine ⟨by simp [Sys.rBeat, hpush], by simp [Sys.wBeat, hsent], ?_, fun hst => ⟨hstay hst, ?_⟩,
    fun hst hsized => ⟨hsized, hstart hst, ?_, ?_, ?_⟩⟩
  · simp [Sys.step, Dma.step, h.read.bstate]
  · simpa [Sys.step, Dma.step, hr, hacc, hen, hrd] using hwstay hst
  · simpa [Sys.step, Dma.step, hr, hacc, hen, hrd, rowsAt] using hwstart hst hsized.wr
  · intro m n hf
    cases hf
  · intro m n hf
    cases hf

theorem rest_reset (d : Depths) (s : Sys N A) (hr : i.rst = true) : Rest d (s.step d i) where
  read := readRest_reset d s hr
  write := by
    have hwrite := writeRest_reset d.wr d.wr_pos (s.dma.rd.rstate == .idle && s.dma.accept i)
      s.dma.rd.cBaseLat s.dma.core.ctrl.wrEn s.dma.core.wrData s.dma.wr hr
    simpa [Sys.step, Dma.step, hr] using hwrite

end steps

/-! ## Runs -/

/-- The read beats of cycles `s, ..., t - 1`. -/
def readBeats (d : Depths) (p : Sys N A) (i : ℕ → DmaIn N A) (s t : ℕ) : ReadLog N A :=
  eventsIn (fun u => (run (Sys.step d) p i u).rBeat (i u)) s t

/-- The write beats of cycles `s, ..., t - 1`. -/
def sentBeats (d : Depths) (p : Sys N A) (i : ℕ → DmaIn N A) (s t : ℕ) : WriteLog N A :=
  eventsIn (fun u => (run (Sys.step d) p i u).wBeat (i u)) s t

/-- A start pulse in a cycle in which `busy` is low. -/
def Accepts (d : Depths) (p : Sys N A) (i : ℕ → DmaIn N A) (s : ℕ) : Prop :=
  (i s).start = true ∧ (run (Sys.step d) p i s).dma.busy = false

/-- `busy` is high between the cycles `s` and `t`. -/
def BusyBetween (d : Depths) (p : Sys N A) (i : ℕ → DmaIn N A) (s t : ℕ) : Prop :=
  ∀ u, s < u → u < t → (run (Sys.step d) p i u).dma.busy = true

/-- A finished command. -/
structure Finished (c : Cmd A) (l : ReadLog N A) (w : WriteLog N A) : Prop where
  inOrder : InOrder c l
  reads : l.length = N + c.mRows.toNat
  sent : w = (writeBeats c (resultRows c l)).take w.length
  writes : w.length = c.mRows.toNat

section runs
variable {d : Depths} {p : Sys N A} {i : ℕ → DmaIn N A} {r s t : ℕ} {c : Cmd A} {l : ReadLog N A}
  {w : WriteLog N A} {pos : Pos} {σ : Sys N A}

theorem Rest.free (h : Rest d σ) : σ.dma.busy = false := by simp [Dma.busy, h.read.bstate]

theorem Course.busy (h : Course d c l w pos σ) : σ.dma.busy = true := by
  simp [Dma.busy, h.read.bstate_ne]

theorem Course.inOrder (h : Course d c l w pos σ) :
    InOrder c l ∧ l.length ≤ N + c.mRows.toNat := by
  have htotal := h.rdTotal
  rcases h.read.engine with ⟨-, hfetch⟩ | ⟨j, hload⟩
  · exact ⟨hfetch.inOrder, by have := hfetch.within; omega⟩
  · exact ⟨hload.inOrder, by have := hload.total; omega⟩

/-- The beats sent so far are the first product rows, each at its address. -/
theorem Course.sent (h : Course d c l w pos σ) :
    w = (writeBeats c (resultRows c l)).take w.length ∧ w.length ≤ c.mRows.toNat := by
  have hle := h.write.sent_le
  have hprefix : rowsAt c l pos <+: resultRows c l := by
    cases pos with
    | fetch => exact List.nil_prefix
    | launch => exact List.nil_prefix
    | ctrl m n => exact List.take_prefix _ _
    | drain => exact List.prefix_rfl
  obtain ⟨more, hmore⟩ := hprefix
  refine ⟨?_, hle.trans (rowsAt_length_le c l pos)⟩
  rw [← hmore, take_writeBeats_append c hle]
  exact h.write.sent

/-- The row count on the port stays while the command runs. -/
theorem held_run (hst : s ≤ t)
    (hheld : ∀ u, s ≤ u → u < t → (run (Sys.step d) p i (u + 1)).dma.busy = true →
      (i (u + 1)).cmd.mRows = (i u).cmd.mRows)
    (hbusy : BusyBetween d p i s (t + 1)) : (i t).cmd.mRows = (i s).cmd.mRows := by
  induction t, hst using Nat.le_induction with
  | base => rfl
  | succ t hst ih =>
    rw [hheld t hst (Nat.lt_succ_self t) (hbusy (t + 1) (by omega) (Nat.lt_succ_self _))]
    exact ih (fun u hu hut => hheld u hu (by omega)) (fun u hu hut => hbusy u hu (by omega))

/-- The command accepted in cycle `s`, as far as `busy` stays high. -/
theorem command_run (hN : 0 < N) (hrest : Rest d (run (Sys.step d) p i s))
    (hacc : Accepts d p i s) (hsized : Sized N d (i s).cmd) (hst : s < t)
    (hrun : ∀ u, s ≤ u → u < t → (i u).rst = false)
    (hlegal : ∀ u, s ≤ u → u < t → (run (Sys.step d) p i u).Legal (i u))
    (hheld : ∀ u, s ≤ u → u + 1 < t → (run (Sys.step d) p i (u + 1)).dma.busy = true →
      (i (u + 1)).cmd.mRows = (i u).cmd.mRows)
    (hbusy : BusyBetween d p i s t) :
    (∃ pos, Course d (i s).cmd (readBeats d p i s t) (sentBeats d p i s t) pos
        (run (Sys.step d) p i t) ∧ (run (Sys.step d) p i t).dma.done = false) ∨
      (Rest d (run (Sys.step d) p i t) ∧
        Finished (i s).cmd (readBeats d p i s t) (sentBeats d p i s t)) := by
  induction t, hst using Nat.le_induction with
  | base =>
    obtain ⟨hread, hwrite, hdone, -, hstart⟩ :=
      hrest.step (hrun s le_rfl (Nat.lt_succ_self s)) (hlegal s le_rfl (Nat.lt_succ_self s))
    have hcourse : Course d (i s).cmd [] [] .fetch (run (Sys.step d) p i (s + 1)) :=
      hstart hacc.1 hsized
    refine .inl ⟨.fetch, ?_, hdone⟩
    rw [readBeats, sentBeats, eventsIn_succ _ le_rfl, eventsIn_succ _ le_rfl, hread, hwrite]
    simpa using hcourse
  | succ t hst ih =>
    -- by induction on the cycle: the position moves on, or the command is over
    have hst' : s < t := hst
    have hprev := ih (fun u hu hut => hrun u hu (by omega)) (fun u hu hut => hlegal u hu (by omega))
      (fun u hu hut => hheld u hu (by omega)) (fun u hu hut => hbusy u hu (by omega))
    have hrt := hrun t (by omega) (Nat.lt_succ_self t)
    have hlt := hlegal t (by omega) (Nat.lt_succ_self t)
    rcases hprev with ⟨pos, hcourse, -⟩ | ⟨hidle, -⟩
    · have hmrows := held_run (Nat.le_of_lt hst') (fun u hu hut => hheld u hu (by omega)) hbusy
      have hreads : readBeats d p i s (t + 1) =
          readBeats d p i s t ++ ((run (Sys.step d) p i t).rBeat (i t)).toList :=
        eventsIn_succ _ (Nat.le_of_lt hst')
      have hwrites : sentBeats d p i s (t + 1) =
          sentBeats d p i s t ++ ((run (Sys.step d) p i t).wBeat (i t)).toList :=
        eventsIn_succ _ (Nat.le_of_lt hst')
      cases hnext : pos.next (i t) (run (Sys.step d) p i t).dma with
      | some pos' =>
        refine .inl ⟨pos', ?_, hcourse.read.undone hnext⟩
        rw [hreads, hwrites]
        exact hcourse.step hN hrt hlt hmrows hnext
      | none =>
        obtain ⟨hend, hread, hwrite, hl, hw⟩ := hcourse.last hrt hlt hnext
        refine .inr ⟨hend, ?_⟩
        rw [hreads, hwrites, hread, hwrite, Option.toList_none, Option.toList_none,
          List.append_nil, List.append_nil]
        exact ⟨hcourse.inOrder.1, hl, hcourse.sent.1, hw⟩
    · -- a finished command would have left `busy` low
      have hb := hbusy t hst' (Nat.lt_succ_self t)
      rw [hidle.free] at hb
      cases hb

/-- In every cycle after a reset both sides rest, or some command runs. -/
theorem rest_or_course (hN : 0 < N) (hr : (i r).rst = true) (hrt : r < t)
    (hrun : ∀ u, r < u → u < t → (i u).rst = false)
    (hlegal : ∀ u, r < u → u < t → (run (Sys.step d) p i u).Legal (i u))
    (hsized : ∀ u, r < u → u < t → Accepts d p i u → Sized N d (i u).cmd)
    (hheld : ∀ u, r < u → u + 1 < t → (run (Sys.step d) p i (u + 1)).dma.busy = true →
      (i (u + 1)).cmd.mRows = (i u).cmd.mRows) :
    (Rest d (run (Sys.step d) p i t) ∧ ((run (Sys.step d) p i t).dma.done = true →
        ∃ s, r < s ∧ s < t ∧ Accepts d p i s ∧ BusyBetween d p i s t)) ∨
      ∃ s, r < s ∧ s < t ∧ Accepts d p i s ∧ Rest d (run (Sys.step d) p i s) ∧
        BusyBetween d p i s (t + 1) := by
  induction t, hrt using Nat.le_induction with
  | base =>
    refine .inl ⟨rest_reset d _ hr, fun hdone => ?_⟩
    simp [run_succ, Sys.step, Dma.step, hr] at hdone
  | succ t hrt ih =>
    have hprev := ih (fun u hu hut => hrun u hu (by omega)) (fun u hu hut => hlegal u hu (by omega))
      (fun u hu hut => hsized u hu (by omega)) (fun u hu hut => hheld u hu (by omega))
    have hrst := hrun t hrt (Nat.lt_succ_self t)
    have hleg := hlegal t hrt (Nat.lt_succ_self t)
    rcases hprev with ⟨hrest, -⟩ | ⟨s, hrs, hst, hacc, hrests, hbusy⟩
    · -- from rest a start pulse begins a command, which makes `busy` rise
      obtain ⟨-, -, hdone, hstay, hstart⟩ := hrest.step hrst hleg
      cases hs : (i t).start with
      | false =>
        refine .inl ⟨hstay hs, fun hd => ?_⟩
        rw [run_succ, hdone] at hd
        cases hd
      | true =>
        have hacc : Accepts d p i t := ⟨hs, hrest.free⟩
        have hcourse := hstart hs (hsized t hrt (Nat.lt_succ_self t) hacc)
        refine .inr ⟨t, hrt, Nat.lt_succ_self t, hacc, hrest, fun u hu hut => ?_⟩
        obtain rfl : u = t + 1 := by omega
        exact hcourse.busy
    · -- inside a command: it goes on, or this cycle was its last
      have hcmd := command_run hN hrests hacc (hsized s hrs (by omega) hacc)
        (show s < t + 1 by omega) (fun u hu hut => hrun u (by omega) hut)
        (fun u hu hut => hlegal u (by omega) hut) (fun u hu hut => hheld u (by omega) hut) hbusy
      rcases hcmd with ⟨pos, hcourse, -⟩ | ⟨hend, -⟩
      · refine .inr ⟨s, hrs, by omega, hacc, hrests, fun u hu hut => ?_⟩
        rcases Nat.lt_succ_iff_lt_or_eq.mp hut with hlt | rfl
        · exact hbusy u hu hlt
        · exact hcourse.busy
      · exact .inl ⟨hend, fun _ => ⟨s, hrs, by omega, hacc, hbusy⟩⟩

/-- A command accepted in a run after a reset. -/
theorem accepted_run (hN : 0 < N) (hr : (i r).rst = true) (hrun : ∀ u, r < u → u < t → (i u).rst = false)
    (hlegal : ∀ u, r < u → u < t → (run (Sys.step d) p i u).Legal (i u))
    (hsized : ∀ u, r < u → u < t → Accepts d p i u → Sized N d (i u).cmd)
    (hheld : ∀ u, r < u → u + 1 < t → (run (Sys.step d) p i (u + 1)).dma.busy = true →
      (i (u + 1)).cmd.mRows = (i u).cmd.mRows)
    (hrs : r < s) (hst : s < t) (hacc : Accepts d p i s) (hbusy : BusyBetween d p i s t) :
    (∃ pos, Course d (i s).cmd (readBeats d p i s t) (sentBeats d p i s t) pos
        (run (Sys.step d) p i t) ∧ (run (Sys.step d) p i t).dma.done = false) ∨
      (Rest d (run (Sys.step d) p i t) ∧
        Finished (i s).cmd (readBeats d p i s t) (sentBeats d p i s t)) := by
  -- the cycle of the start pulse is one of rest
  have hrest : Rest d (run (Sys.step d) p i s) := by
    rcases rest_or_course (d := d) (p := p) hN hr hrs (fun u hu hut => hrun u hu (by omega))
      (fun u hu hut => hlegal u hu (by omega)) (fun u hu hut => hsized u hu (by omega))
      (fun u hu hut => hheld u hu (by omega)) with ⟨hrest, -⟩ | ⟨s', -, hs', -, -, hb⟩
    · exact hrest
    · have hlow := hacc.2
      rw [hb s hs' (Nat.lt_succ_self s)] at hlow
      cases hlow
  exact command_run hN hrest hacc (hsized s hrs hst hacc) hst (fun u hu hut => hrun u (by omega) hut)
    (fun u hu hut => hlegal u (by omega) hut) (fun u hu hut => hheld u (by omega) hut) hbusy

end runs

/-- **Correctness of the AXI bridge** up to cycle `t` of a run after a reset in
cycle `r`, for any behaviour of the subordinates that is legal on the bus and
any commands that fit the FIFOs, their row count being held while they run.

For a command accepted in cycle `s` and not finished before `t`: the read beats
fell on the addresses of its words, in order; the write beats are its first
product rows, each on its own address with all strobes set; and if `done`
pulses in `t`, then all words were read, and all rows written and acknowledged.
`done` pulses for such a command only, and no beat falls outside a command. -/
theorem dma_bridge_executes (d : Depths) (hN : 0 < N) (p : Sys N A) (i : ℕ → DmaIn N A) {r : ℕ}
    (hr : (i r).rst = true) (t : ℕ) (hrt : r < t)
    (hrun : ∀ u, r < u → u < t → (i u).rst = false)
    (hlegal : ∀ u, r < u → u < t → (run (Sys.step d) p i u).Legal (i u))
    (hsized : ∀ u, r < u → u < t → Accepts d p i u → Sized N d (i u).cmd)
    (hheld : ∀ u, r < u → u + 1 < t → (run (Sys.step d) p i (u + 1)).dma.busy = true →
      (i (u + 1)).cmd.mRows = (i u).cmd.mRows) :
    (∀ s, r < s → s < t → Accepts d p i s → BusyBetween d p i s t →
      (readBeats d p i s t).map Prod.fst =
        (List.range (readBeats d p i s t).length).map (fun j => some (readAddr N (i s).cmd j)) ∧
      (readBeats d p i s t).length ≤ N + (i s).cmd.mRows.toNat ∧
      sentBeats d p i s t =
        (writeBeats (i s).cmd (resultRows (i s).cmd (readBeats d p i s t))).take
          (sentBeats d p i s t).length ∧
      (sentBeats d p i s t).length ≤ (i s).cmd.mRows.toNat ∧
      ((run (Sys.step d) p i t).dma.done = true →
        (readBeats d p i s t).length = N + (i s).cmd.mRows.toNat ∧
        (sentBeats d p i s t).length = (i s).cmd.mRows.toNat ∧
        (run (Sys.step d) p i t).bus.wr.pending = [] ∧ (run (Sys.step d) p i t).bus.bDue = 0)) ∧
    ((run (Sys.step d) p i t).dma.done = true →
      ∃ s, r < s ∧ s < t ∧ Accepts d p i s ∧ BusyBetween d p i s t) ∧
    ((run (Sys.step d) p i t).dma.busy = false →
      (run (Sys.step d) p i t).rBeat (i t) = none ∧ (run (Sys.step d) p i t).wBeat (i t) = none) := by
  have hinv := rest_or_course hN hr hrt hrun hlegal hsized hheld
  refine ⟨?_, ?_, ?_⟩
  · intro s hrs hst hacc hbusy
    rcases accepted_run hN hr hrun hlegal hsized hheld hrs hst hacc hbusy with
      ⟨pos, hcourse, hlow⟩ | ⟨hend, hfin⟩
    · refine ⟨hcourse.inOrder.1, hcourse.inOrder.2, hcourse.sent.1, hcourse.sent.2, ?_⟩
      intro hdone
      rw [hlow] at hdone
      cases hdone
    · refine ⟨hfin.inOrder, le_of_eq hfin.reads, hfin.sent, le_of_eq hfin.writes, fun _ =>
        ⟨hfin.reads, hfin.writes, ?_, hend.write.due⟩⟩
      rw [hend.write.port]
      rfl
  · intro hdone
    rcases hinv with ⟨-, hdone'⟩ | ⟨s, hrs, hst, hacc, hrest, hbusy⟩
    · exact hdone' hdone
    · exact ⟨s, hrs, hst, hacc, fun u hu hut => hbusy u hu (by omega)⟩
  · intro hfree
    rcases hinv with ⟨hrest, -⟩ | ⟨s, -, hst, -, -, hbusy⟩
    · exact ⟨by simp [Sys.rBeat, RdEngine.push, hrest.read.rready],
        by simp [Sys.wBeat, WrEngine.sent, hrest.write.wvalid]⟩
    · rw [hbusy t hst (Nat.lt_succ_self t)] at hfree
      cases hfree

/-- The second command of `pairIn` puts its rows at the bytes 12288 and 12296.  Its
weights `[[56, 57], [58, 59]]` came in cycles 56 and 58, the last row `[64, 65]` in
cycle 64. -/
theorem dma_bridge_executes_demo :
    (run (Sys.step pairDepths) (zeroSys 2 16) pairIn 97).dma.done = true ∧
      (sentBeats pairDepths (zeroSys 2 16) pairIn 53 97).map (fun b => (b.1, b.2.1 0, b.2.2)) =
        [(some 12288, 62 * 56 + 63 * 58, 0xFF), (some 12296, 64 * 56 + 65 * 58, 0xFF)] := by
  have hdone : (run (Sys.step pairDepths) (zeroSys 2 16) pairIn 97).dma.done = true := by decide +kernel
  have hrst : ∀ u < 97, 0 < u → (pairIn u).rst = false := by decide
  have hlegal : ∀ u < 97, 0 < u → (run (Sys.step pairDepths) (zeroSys 2 16) pairIn u).Legal (pairIn u) := by
    decide +kernel
  have hbusy : ∀ u < 97, 53 < u → (run (Sys.step pairDepths) (zeroSys 2 16) pairIn u).dma.busy = true := by
    decide +kernel
  have hsized : ∀ u, Sized 2 pairDepths (pairIn u).cmd := by
    intro u
    simp only [pairIn]
    split
    · exact ⟨by decide, by decide, by decide⟩
    · exact ⟨by decide, by decide, by decide⟩
  have hheld : ∀ u < 96, (run (Sys.step pairDepths) (zeroSys 2 16) pairIn (u + 1)).dma.busy = true →
      (pairIn (u + 1)).cmd.mRows = (pairIn u).cmd.mRows := by decide +kernel
  have hmain := dma_bridge_executes pairDepths Nat.two_pos (zeroSys 2 16) pairIn rfl 97 (by decide)
    (fun u hu hut => hrst u hut hu) (fun u hu hut => hlegal u hut hu) (fun u _ _ _ => hsized u)
    fun u _ hut => hheld u (by omega)
  obtain ⟨-, -, hsent, -, hend⟩ := hmain.1 53 (by decide) (by decide) ⟨rfl, by decide +kernel⟩
    fun u hu hut => hbusy u hut hu
  refine ⟨hdone, ?_⟩
  rw [hsent, (hend hdone).2.1]
  decide +kernel

end DmaBridge
