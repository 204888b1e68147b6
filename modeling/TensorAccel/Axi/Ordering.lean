import TensorAccel.Axi.Engines

/-! # The order of reads and writes

    The engines share no state but the FIFO counts, `ctrl_done` and `wr_acked`.
    `Flow` is the state of a command of any size: its rows are counted on their
    way from `u_ctrl` through the write FIFO to the bus, so that a row on the bus
    was pushed, and rows are pushed only after all words were read.  A command
    whose word count wraps may be launched, but then `u_ctrl` pushes no row and
    the command never ends (`Overrun`). -/

open Clocked Ring Burst StreamCtrl
open Ctrl (Fits Phase Running)

namespace DmaBridge

variable {N A : ℕ}

/-! ## Counting rows -/

/-- Rows of the current command that went out on the bus. -/
def sentRows (s : WrEngine N A) (p : Port A) : ℕ := s.wrIssued.toNat + p.beat

/-- Rows of the current burst that did not go out yet. -/
def owedRows (s : WrEngine N A) (p : Port A) : ℕ :=
  if s.awvalid then s.awlen.toNat + 1 else (p.pending.head?.map Req.len).getD 0 - p.beat

/-- `pushed` rows of command `c` were pushed; those not sent are in the FIFO. -/
structure RowCount (c : Cmd A) (pushed : ℕ) (s : WrEngine N A) (p : Port A) : Prop where
  total : s.wrTotal = c.mRows
  balance : s.wf.count.toNat + sentRows s p = pushed
  owed : owedRows s p ≤ s.wf.count.toNat

section rows
variable {D : ℕ} {c : Cmd A} {s : WrEngine N A} {p : Port A} {bDue : ℕ} {i : DmaIn N A} {cb : BitVec A}
  {wrEn : Bool} {x : Lanes32 N} {pushed : ℕ}

/-- What a cycle does to the two counts: a beat moves a row from one to the other,
and a new burst takes what is in the FIFO. -/
theorem Sending.rows (D : ℕ) (cb : BitVec A) (wrEn : Bool) (x : Lanes32 N) (h : Sending c s p bDue)
    (hr : i.rst = false) :
    sentRows (s.step D i false cb wrEn x) (p.step (s.awAccepted i) (s.sent i)) =
        sentRows s p + (s.sent i).toNat ∧
      (owedRows (s.step D i false cb wrEn x) (p.step (s.awAccepted i) (s.sent i)) +
          (s.sent i).toNat = owedRows s p ∨
        s.sent i = false ∧
          owedRows (s.step D i false cb wrEn x) (p.step (s.awAccepted i) (s.sent i)) ≤
            s.wf.count.toNat) := by
  cases h with
  | idle hst haw hw hp =>
    have hsent : s.sent i = false := WrEngine.sent_eq_false hw
    have hawa : s.awAccepted i = none := WrEngine.awAccepted_eq_none haw
    rw [hsent, hawa, Port.step_quiet]
    by_cases hgo : s.wrIssued < s.wrTotal ∧ s.nextWburstLen ≠ 0
    · obtain ⟨hlt, hne⟩ := hgo
      rw [WrEngine.step_issue hr hst hlt hne]
      refine ⟨rfl, .inr ⟨rfl, ?_⟩⟩
      simp only [owedRows, if_true, (announced hne).2]
      exact (nextWburstLen_le s).2
    · rw [WrEngine.step_idle_wait hr hst hgo]
      exact ⟨rfl, .inl rfl⟩
  | aw hst haw hw hp =>
    have hsent : s.sent i = false := WrEngine.sent_eq_false hw
    rw [hsent]
    cases hready : i.awready with
    | false =>
      have hawa : s.awAccepted i = none := by simp [WrEngine.awAccepted, hready]
      rw [hawa, Port.step_quiet, WrEngine.step_aw_wait hr hst hready]
      exact ⟨rfl, .inl rfl⟩
    | true =>
      have hawa : s.awAccepted i = some ⟨s.awaddr, s.awlen.toNat + 1⟩ := by
        simp [WrEngine.awAccepted, haw, hready]
      rw [hawa, hp, Port.idle_accept, WrEngine.step_aw_accepted hr hst haw hready]
      refine ⟨rfl, .inl ?_⟩
      simp [owedRows, haw, Port.serving]
  | data b k hst haw hw hp _ _ hk hlen h16 _ _ hle hlast =>
    have hawa : s.awAccepted i = none := WrEngine.awAccepted_eq_none haw
    rw [hawa]
    cases hsent : s.sent i with
    | false =>
      rw [Port.step_quiet, WrEngine.step_data_wait hr hst hsent]
      exact ⟨rfl, .inl rfl⟩
    | true =>
      have htotal := s.wrTotal.isLt
      rw [hp]
      by_cases hend : k + 1 = b.len
      · have hissued : (s.wrIssued + s.wBurstLen.setWidth 32).toNat = s.wrIssued.toNat + b.len := by
          rw [BitVec.toNat_add, BitVec.toNat_setWidth, hlen]
          omega
        rw [Port.serving_last hend, WrEngine.step_data_last hr hst hsent (by simp [hlast, hend])]
        refine ⟨?_, .inl ?_⟩
        · show (s.wrIssued + s.wBurstLen.setWidth 32).toNat + 0 = s.wrIssued.toNat + k + 1
          omega
        · simp [owedRows, WrEngine.tick, haw, Port.serving, Port.idle]
          omega
      · rw [Port.serving_next hend, WrEngine.step_data_next hr hst hsent (by simp [hlast, hend])]
        refine ⟨rfl, .inl ?_⟩
        simp [owedRows, WrEngine.tick, haw, Port.serving]
        omega
  | bresp hst haw hw hp =>
    have hsent : s.sent i = false := WrEngine.sent_eq_false hw
    have hawa : s.awAccepted i = none := WrEngine.awAccepted_eq_none haw
    rw [hsent, hawa, Port.step_quiet]
    cases hbv : i.bvalid with
    | false =>
      rw [WrEngine.step_bresp_wait hr hst hbv]
      exact ⟨rfl, .inl rfl⟩
    | true =>
      rw [WrEngine.step_bresp hr hst hbv]
      exact ⟨rfl, .inl rfl⟩

/-- A beat is a row of the current burst. -/
theorem Sending.owes (h : Sending c s p bDue) (hsent : s.sent i = true) : 0 < owedRows s p := by
  have hvalid : s.wvalid = true := by
    rw [WrEngine.sent, Bool.and_eq_true] at hsent
    exact hsent.1
  cases h with
  | data b k hst haw _ hp _ _ hk =>
    simp [owedRows, haw, hp, Port.serving]
    omega
  | idle _ _ hw => rw [hw] at hvalid; cases hvalid
  | aw _ _ hw => rw [hw] at hvalid; cases hvalid
  | bresp _ _ hw => rw [hw] at hvalid; cases hvalid

/-- One cycle, in which `u_ctrl` may push a row. -/
theorem RowCount.step (D : ℕ) (cb : BitVec A) (wrEn : Bool) (x : Lanes32 N)
    (h : RowCount c pushed s p) (hs : Sending c s p bDue) (hr : i.rst = false)
    (hsmall : pushed < 2 ^ 31) :
    RowCount c (pushed + wrEn.toNat) (s.step D i false cb wrEn x)
      (p.step (s.awAccepted i) (s.sent i)) := by
  have hbal := h.balance
  have howed := h.owed
  obtain ⟨hsent, hburst⟩ := hs.rows D cb wrEn x hr
  obtain ⟨hwf, htotal⟩ := wrEngine_frame D cb wrEn x s hr
  have hcount : (s.wf.step D wrEn (s.sent i) x).count.toNat + (s.sent i).toNat =
      s.wf.count.toNat + wrEn.toNat :=
    Fifo.count_step x (fun hpop => by have := hs.owes hpop; omega) (fun _ => by omega)
  rw [← hwf] at hcount
  refine ⟨by rw [htotal, h.total], by omega, ?_⟩
  rcases hburst with hsame | ⟨hnone, hnew⟩
  · omega
  · rw [hnone, Bool.toNat_false] at hcount
    omega

/-- While no row was pushed, the write side rests. -/
theorem RowCount.rest {w : WrEngine N A} {p : Port A} {bDue : ℕ} (h : RowCount c 0 w p)
    (hs : Sending c w p bDue) :
    w.wstate = .idle ∧ w.awvalid = false ∧ w.wvalid = false ∧ p = Port.idle ∧ bDue = 0 := by
  have hbal := h.balance
  have howed := h.owed
  rw [sentRows] at hbal
  cases hs with
  | idle hst haw hw hp hb => exact ⟨hst, haw, hw, hp, hb⟩
  | aw _ haw =>
    rw [owedRows, if_pos haw] at howed
    omega
  | data b k _ haw _ hp _ _ hk =>
    have hk' : owedRows w p = b.len - k := by simp [owedRows, haw, hp, Port.serving]
    omega
  | bresp _ _ _ _ _ ha hpos => omega

/-- It stays at rest until a row is pushed. -/
theorem RowCount.quiet (D : ℕ) (cb : BitVec A) (wrEn : Bool) (x : Lanes32 N) (h : RowCount c 0 s p)
    (hs : Sending c s p bDue) (hr : i.rst = false) (hen : wrEn = false) : (s.step D i false cb wrEn x).wstate = .idle ∧
      RowCount c 0 (s.step D i false cb wrEn x) (p.step (s.awAccepted i) (s.sent i)) := by
  subst hen
  have hlen : s.nextWburstLen = 0 := by
    apply BitVec.eq_of_toNat_eq
    have hle := (nextWburstLen_le s).2
    have hcount : s.wf.count.toNat = 0 := by
      have hbal := h.balance
      omega
    rw [hcount] at hle
    exact Nat.le_zero.mp hle
  have hst := (h.rest hs).1
  have hnext := h.step D cb false x hs hr (Nat.two_pow_pos 31)
  refine ⟨?_, hnext⟩
  rw [WrEngine.step_idle_wait hr hst fun hgo => hgo.2 hlen]
  exact hst

end rows

/-! ## A launch on a wrapped word count -/

/-- `u_ctrl` on `m` rows, if it is busy, in a stream shorter than the skew. -/
structure Short {B : ℕ} (m : BitVec 32) (s : Ctrl N B) : Prop where
  rows : s.busy = true → s.mRowsR = m
  cyc : s.state = .stream → s.cyc.toNat < s.totalCycles.toNat

section short
variable {B : ℕ} {m : BitVec 32} {s : Ctrl N B} {i : CtrlIn N B}

/-- `total_cycles` wraps with the word count. -/
theorem totalCycles_wrap (hN : N < 2 ^ 31) (hwrap : 2 ^ 32 < N + m.toNat) :
    0 < (m + Ctrl.skew N).toNat ∧ (m + Ctrl.skew N).toNat < 2 * N - 1 := by
  have hm := m.isLt
  rw [Ctrl.skew, BitVec.toNat_add, BitVec.toNat_ofNat]
  omega

theorem Short.step (h : Short m s) (hN : N < 2 ^ 31) (hwrap : 2 ^ 32 < N + m.toNat) (hr : i.rst = false)
    (hstart : i.start = true → i.cmd.mRows = m) : Short m (Ctrl.step i s) := by
  have hrows : s.state ≠ .idle → s.mRowsR = m := fun hne => h.rows (by simpa [Ctrl.busy] using hne)
  cases hs : s.state with
  | idle =>
    cases hst : i.start with
    | true =>
      rw [Ctrl.step_start hr hs hst]
      exact ⟨fun _ => hstart hst, fun hf => by cases hf⟩
    | false =>
      rw [Ctrl.step_idle hr hs hst]
      exact ⟨fun hbusy => by simp [Ctrl.busy, hs] at hbusy, fun hf => by simp [hs] at hf⟩
  | loadAddr =>
    rw [Ctrl.step_loadAddr hr hs]
    exact ⟨fun _ => hrows (by rw [hs]; simp), fun hf => by cases hf⟩
  | loadData =>
    by_cases hl : s.li = BitVec.ofNat B (N - 1)
    · rw [Ctrl.step_loadData_last hr hs hl]
      exact ⟨fun _ => hrows (by rw [hs]; simp), fun hf => by cases hf⟩
    · rw [Ctrl.step_loadData_next hr hs hl]
      exact ⟨fun _ => hrows (by rw [hs]; simp), fun hf => by cases hf⟩
  | loadPulse =>
    rw [Ctrl.step_loadPulse hr hs]
    exact ⟨fun _ => hrows (by rw [hs]; simp), fun hf => by cases hf⟩
  | prefetch =>
    have hm := hrows (by rw [hs]; simp)
    rw [Ctrl.step_prefetch hr hs]
    refine ⟨fun _ => hm, ?_⟩
    intro _
    show 0 < (s.mRowsR + Ctrl.skew N).toNat
    rw [hm]
    exact (totalCycles_wrap hN hwrap).1
  | stream =>
    have hm := hrows (by rw [hs]; simp)
    have hcyc := h.cyc hs
    by_cases hl : s.cyc = s.totalCycles - 1
    · rw [Ctrl.step_stream_last hr hs hl]
      exact ⟨fun _ => hm, fun hf => by cases hf⟩
    · rw [Ctrl.step_stream_next hr hs hl]
      refine ⟨fun _ => hm, ?_⟩
      intro _
      -- `cyc` has not reached the last cycle
      have hne : s.cyc.toNat ≠ s.totalCycles.toNat - 1 := by
        intro heq
        apply hl
        apply BitVec.eq_of_toNat_eq
        rw [heq, BitVec.toNat_sub_of_le (BitVec.le_def.mpr (by simp; omega))]
        rfl
      show (s.cyc + 1).toNat < s.totalCycles.toNat
      have hlt := s.totalCycles.isLt
      rw [BitVec.toNat_add]
      exact lt_of_le_of_lt (Nat.mod_le _ _) (by simp; omega)
  | done =>
    rw [Ctrl.step_done hr hs]
    exact ⟨fun hbusy => by simp [Ctrl.busy] at hbusy, fun hf => by cases hf⟩

/-- No row leaves the array in such a stream. -/
theorem Short.wrEn (h : Short m s) (hN : N < 2 ^ 31) (hwrap : 2 ^ 32 < N + m.toNat) : s.wrEn = false := by
  cases hs : s.state with
  | stream =>
    have hcyc := h.cyc hs
    have htotal := (totalCycles_wrap hN hwrap).2
    rw [Ctrl.totalCycles, h.rows (by simp [Ctrl.busy, hs])] at hcyc
    have hskew : (Ctrl.skew N).toNat = 2 * N - 1 := by
      rw [Ctrl.skew, BitVec.toNat_ofNat]
      omega
    have hlow : ¬ Ctrl.skew N ≤ s.cyc := by
      rw [BitVec.le_def, hskew]
      omega
    simp [Ctrl.wrEn, hs, hlow]
  | _ => simp [Ctrl.wrEn, hs]

end short

/-- A command whose word count wraps, once it was launched. -/
structure Overrun (c : Cmd A) (s : Sys N A) : Prop where
  bstate : s.dma.bstate = .run ∨ s.dma.bstate = .drain
  wrap : 2 ^ 32 < N + c.mRows.toNat
  short : Short c.mRows s.dma.core.ctrl
  rows : RowCount c 0 s.dma.wr s.bus.wr

section overrun
variable {d : Depths} {c : Cmd A} {s : Sys N A} {i : DmaIn N A}

/-- Nothing was acknowledged, but there are rows to wait for. -/
theorem Overrun.unfinished (h : Overrun c s) (hports : Ports d c s) (hN : N < 2 ^ 31) :
    ¬ s.dma.wr.wrTotal ≤ s.dma.wr.wrAcked := by
  intro hover
  have hwrap := h.wrap
  have hbal := h.rows.balance
  have htotal := (hports.sending.over hover).2
  rw [h.rows.total] at htotal
  rw [sentRows, ← htotal] at hbal
  omega

/-- It goes on for ever. -/
theorem Overrun.step (h : Overrun c s) (hports : Ports d c s) (hN : N < 2 ^ 31) (hr : i.rst = false)
    (hheld : s.dma.ctrlStart = true → i.cmd.mRows = c.mRows) : Overrun c (s.step d i) := by
  have hbusy : s.dma.busy = true := by
    rcases h.bstate with hb | hb
    · simp [Dma.busy, hb]
    · simp [Dma.busy, hb]
  have hacc : s.dma.accept i = false := by simp [Dma.accept, hbusy]
  have hwr := Sys.step_wr (d := d) hacc
  have hwrap := h.wrap
  have hen := h.short.wrEn hN hwrap
  have hrows := (h.rows.quiet d.wr s.dma.rd.cBaseLat _ s.dma.core.wrData hports.sending hr hen).2
  have hmore := h.unfinished hports hN
  refine ⟨?_, hwrap, ?_, ?_⟩
  · rcases h.bstate with hb | hb
    · cases hdone : s.dma.core.ctrl.done <;> simp [Sys.step, Dma.step, hr, hb, hdone]
    · simp [Sys.step, Dma.step, hr, hb, hmore]
  · exact h.short.step (i := Core.ctrlIn (s.dma.coreIn i) s.dma.core) hN hwrap hr hheld
  · rw [hwr]
    simpa [Sys.step, hr] using hrows

end overrun

/-! ## Commands of any size -/

/-- The rows pushed before a position of a command of `m` rows. -/
def pushedAt (N m : ℕ) : Pos → ℕ
  | .fetch => 0
  | .launch => 0
  | .ctrl _ n => min m (n - (4 * N + 2))
  | .drain => m

/-- Command `c` after the read beats `l` and `n` write beats. -/
inductive Flow (d : Depths) (c : Cmd A) (l : ReadLog N A) (n : ℕ) (s : Sys N A) : Prop
  | course (pos : Pos) (hread : ReadSide d c l s pos) (hm : ∀ m k, pos = .ctrl m k → m = c.mRows)
      (hfit : pos = .fetch ∨ pos = .launch ∧ N + c.mRows.toNat ≠ 2 ^ 32 ∨ N + c.mRows.toNat < 2 ^ 32)
      (hrows : RowCount c (pushedAt N c.mRows.toNat pos) s.dma.wr s.bus.wr)
      (hsent : sentRows s.dma.wr s.bus.wr = n)
  | overrun (h : Overrun c s) (hsent : sentRows s.dma.wr s.bus.wr = n)

/-- Between two commands. -/
structure Between (d : Depths) (s : Sys N A) : Prop where
  read : ReadRest d s
  empty : s.dma.wr.wf.count = 0

section flow
variable {d : Depths} {c : Cmd A} {l : ReadLog N A} {n : ℕ} {s : Sys N A} {i : DmaIn N A} {pos pos' : Pos}

theorem pushed_step (hN : 0 < N) (h : ReadSide d c l s pos) (hm : ∀ m k, pos = .ctrl m k → m = c.mRows)
    (hnext : pos.next i s.dma = some pos') :
    pushedAt N c.mRows.toNat pos' =
      pushedAt N c.mRows.toNat pos + s.dma.core.ctrl.wrEn.toNat := by
  cases h with
  | fetch hb hc h =>
    rw [(Ctrl.no_strobe hc.busy).2]
    simp only [Pos.next] at hnext
    split at hnext
    · obtain rfl := Option.some.inj hnext
      rfl
    · obtain rfl := Option.some.inj hnext
      rfl
  | launch hb hstart hbusy hdone h =>
    obtain rfl := Option.some.inj hnext
    rw [(Ctrl.no_strobe hbusy).2, pushedAt, pushedAt, show 1 - (4 * N + 2) = 0 by omega, Nat.min_zero]
    rfl
  | ctrl m k hb hstart hrun hk hk' hlen h =>
    obtain rfl := hm m k rfl
    have hcap := h.cap
    have hrd := d.rd_lt
    have hf : Fits N 32 c.mRows.toNat := ⟨hN, by omega, by omega⟩
    have hen : s.dma.core.ctrl.wrEn = true ↔ 4 * N + 2 ≤ k ∧ k < 4 * N + 2 + c.mRows.toNat :=
      hrun.phase.wrEn_iff hf hrun.rows
    have hnot : k ≠ 4 * N + c.mRows.toNat + 3 := by omega
    simp only [Pos.next, if_neg hnot] at hnext
    obtain rfl := Option.some.inj hnext
    rw [pushedAt, pushedAt]
    cases hwr : s.dma.core.ctrl.wrEn with
    | true =>
      have hin := hen.mp hwr
      rw [Bool.toNat_true]
      omega
    | false =>
      rw [hwr] at hen
      have hout : ¬ (4 * N + 2 ≤ k ∧ k < 4 * N + 2 + c.mRows.toNat) := fun hin => by
        cases hen.mpr hin
      rw [Bool.toNat_false]
      omega
  | finish m hb hstart hbusy =>
    obtain rfl := hm m _ rfl
    simp only [Pos.next, if_true] at hnext
    obtain rfl := Option.some.inj hnext
    rw [(Ctrl.no_strobe hbusy).2, pushedAt, pushedAt, Bool.toNat_false]
    omega
  | drain hb hc h =>
    simp only [Pos.next] at hnext
    split at hnext
    · cases hnext
    · obtain rfl := Option.some.inj hnext
      rw [(Ctrl.no_strobe hc.busy).2]
      rfl

theorem pushedAt_le (N m : ℕ) (pos : Pos) : pushedAt N m pos ≤ m := by
  cases pos with
  | fetch => exact Nat.zero_le m
  | launch => exact Nat.zero_le m
  | ctrl _ k => exact Nat.min_le_left m _
  | drain => exact le_rfl

/-- A command whose word count does not wrap was read in full, and fits the FIFO. -/
theorem Loaded.rows_le {D j : ℕ} {e : RdEngine N A} {p : Port A} (h : Loaded D c l j e p)
    (hfit : N + c.mRows.toNat < 2 ^ 32) : l.length = N + c.mRows.toNat ∧ N + c.mRows.toNat ≤ D := by
  have htotal : e.rdTotal.toNat = N + c.mRows.toNat := by
    rw [h.latched.total, BitVec.toNat_add, BitVec.toNat_ofNat, Nat.mod_add_mod]
    exact Nat.mod_eq_of_lt hfit
  have hcap := h.cap
  rw [h.total, htotal] at hcap
  exact ⟨h.total.trans htotal, hcap⟩

/-- A start pulse between two commands. -/
theorem Between.start (h : Between d s) (hports : Ports d c s) (hr : i.rst = false)
    (hlegal : s.Legal i) (hstart : i.start = true) : Flow d i.cmd [] 0 (s.step d i) := by
  obtain ⟨-, hbegin, -⟩ := h.read.step hr
  have hfree : s.dma.busy = false := by simp [Dma.busy, h.read.bstate]
  have hacc : s.dma.accept i = true := by simp [Dma.accept, hfree, hstart]
  have hwr := hports.accept_wr hr hacc
  have hst : (s.step d i).dma.wr.wstate = .idle := by
    rw [hwr]
    exact (hports.free hfree).1
  obtain ⟨haw, -, hp, -, -⟩ := (hports.accept hr hlegal hacc).sending.rest hst
  have hcount : (s.step d i).dma.wr.wf.count = 0 := by
    rw [hwr, (Ctrl.no_strobe h.read.ctrl.busy).2]
    exact h.empty
  have hsent : sentRows (s.step d i).dma.wr (s.step d i).bus.wr = 0 := by
    rw [hp, sentRows, hwr]
    rfl
  refine .course .fetch (hbegin hstart) (fun m k hf => by cases hf) (.inl rfl) ⟨?_, ?_, ?_⟩ hsent
  · rw [hwr]
  · rw [hcount, hsent]
    rfl
  · rw [owedRows, if_neg (by simp [haw]), hp]
    exact Nat.zero_le _

/-- A cycle without a start pulse between two commands. -/
theorem Between.stay (h : Between d s) (hports : Ports d c s) (hr : i.rst = false)
    (hstart : i.start = false) : Between d (s.step d i) := by
  obtain ⟨-, -, hstay⟩ := h.read.step hr
  have hfree : s.dma.busy = false := by simp [Dma.busy, h.read.bstate]
  have hacc : s.dma.accept i = false := by simp [Dma.accept, hstart]
  have hsent : s.dma.wr.sent i = false := by
    simp [WrEngine.sent, (hports.sending.rest (hports.free hfree).1).2.1]
  have hwr := Sys.step_wr (d := d) hacc
  refine ⟨hstay hstart, ?_⟩
  rw [hwr, (wrEngine_frame d.wr _ _ _ s.dma.wr hr).1, (Ctrl.no_strobe h.read.ctrl.busy).2, hsent]
  exact h.empty

/-- The launch of a command whose word count wraps. -/
theorem overrun_launch (hN : N < 2 ^ 31) (hread : ReadSide d c l s .launch)
    (hrows : RowCount c 0 s.dma.wr s.bus.wr) (hports : Ports d c s) (hr : i.rst = false)
    (hheld : s.dma.ctrlStart = true → i.cmd.mRows = c.mRows) (hwrap : 2 ^ 32 < N + c.mRows.toNat) :
    Overrun c (s.step d i) := by
  have hacc := hread.accept i
  have hwr := Sys.step_wr (d := d) hacc
  cases hread with
  | launch hb hstart hbusy hdone h =>
    have hen := (Ctrl.no_strobe hbusy).2
    have hshort : Short c.mRows s.dma.core.ctrl := by
      constructor
      · intro hf
        rw [hbusy] at hf
        cases hf
      · intro hf
        rw [Ctrl.state_of_idle hbusy] at hf
        cases hf
    have hquiet := (hrows.quiet d.wr s.dma.rd.cBaseLat _ s.dma.core.wrData hports.sending hr hen).2
    refine ⟨.inl ?_, hwrap, ?_, ?_⟩
    · simp [Sys.step, Dma.step, hr, hb, hdone]
    · exact hshort.step (i := Core.ctrlIn (s.dma.coreIn i) s.dma.core) hN hwrap hr hheld
    · rw [hwr]
      simpa [Sys.step, hr] using hquiet

theorem Flow.busy (h : Flow d c l n s) : s.dma.busy = true := by
  cases h with
  | course pos hread => simp [Dma.busy, hread.bstate_ne]
  | overrun h =>
    rcases h.bstate with hb | hb
    · simp [Dma.busy, hb]
    · simp [Dma.busy, hb]

/-- A launch finds the words it is going to strobe for, or the word count wraps. -/
theorem ReadSide.launchOk (hread : ReadSide d c l s pos) (hrows : 1 ≤ c.mRows.toNat)
    (hheld : s.dma.ctrlStart = true → i.cmd.mRows = c.mRows)
    (hfit : pos = .launch → N + c.mRows.toNat < 2 ^ 32) : LaunchOk i s.dma := by
  intro hstart
  cases hread with
  | launch _ _ _ _ h =>
    obtain ⟨hlen, -⟩ := h.rows_le (hfit rfl)
    rw [← h.total, hlen, hheld hstart, Nat.max_eq_right hrows]
  | fetch _ hc => rw [hc.start] at hstart; cases hstart
  | ctrl _ _ _ hlow => rw [hlow] at hstart; cases hstart
  | finish _ _ hlow => rw [hlow] at hstart; cases hstart
  | drain _ hc => rw [hc.start] at hstart; cases hstart

theorem ReadSide.pushed_lt (hread : ReadSide d c l s pos)
    (hfit : pos ≠ .fetch → N + c.mRows.toNat < 2 ^ 32) :
    pushedAt N c.mRows.toNat pos < 2 ^ 31 := by
  have hle := pushedAt_le N c.mRows.toNat pos
  have hrd := d.rd_lt
  rcases hread.engine with ⟨rfl, -⟩ | ⟨j, h⟩
  · exact Nat.two_pow_pos 31
  · cases pos with
    | fetch => exact Nat.two_pow_pos 31
    | launch => exact Nat.two_pow_pos 31
    | ctrl m k =>
      have := (h.rows_le (hfit (by simp))).2
      omega
    | drain =>
      have := (h.rows_le (hfit (by simp))).2
      omega

/-- `u_ctrl` runs on the rows of the command. -/
theorem ReadSide.rows_next (hread : ReadSide d c l s pos) (hm : ∀ m k, pos = .ctrl m k → m = c.mRows)
    (hheld : s.dma.ctrlStart = true → i.cmd.mRows = c.mRows) (hnext : pos.next i s.dma = some pos') :
    ∀ m k, pos' = .ctrl m k → m = c.mRows := by
  rintro m k rfl
  cases hread with
  | fetch => simp only [Pos.next] at hnext; split at hnext <;> cases hnext
  | launch _ hstart =>
    obtain ⟨rfl, -⟩ : i.cmd.mRows = m ∧ 1 = k := by simpa [Pos.next] using hnext
    exact hheld hstart
  | ctrl m' k' =>
    simp only [Pos.next] at hnext
    split at hnext
    · cases hnext
    · obtain ⟨rfl, -⟩ : m' = m ∧ k' + 1 = k := by simpa using hnext
      exact hm m' k' rfl
  | finish => simp [Pos.next] at hnext
  | drain => simp only [Pos.next] at hnext; split at hnext <;> cases hnext

/-- Nothing is launched while `rd_total` is 0. -/
theorem ReadSide.fit_next (hread : ReadSide d c l s pos)
    (hfit : pos ≠ .fetch → N + c.mRows.toNat < 2 ^ 32) (hnext : pos.next i s.dma = some pos') :
    pos' = .fetch ∨ pos' = .launch ∧ N + c.mRows.toNat ≠ 2 ^ 32 ∨ N + c.mRows.toNat < 2 ^ 32 := by
  cases hread with
  | fetch hb hc h =>
    cases hall : s.dma.rd.allBuffered with
    | false =>
      obtain rfl : Pos.fetch = pos' := by simpa [Pos.next, hall] using hnext
      exact .inl rfl
    | true =>
      obtain rfl : Pos.launch = pos' := by simpa [Pos.next, hall] using hnext
      refine .inr (.inl ⟨rfl, fun hsum => ?_⟩)
      have hzero : s.dma.rd.rdTotal = 0 := by
        apply BitVec.eq_of_toNat_eq
        rw [h.latched.total, BitVec.toNat_add, BitVec.toNat_ofNat, Nat.mod_add_mod, hsum]
        rfl
      simp [RdEngine.allBuffered, hzero] at hall
  | launch => exact .inr (.inr (hfit (by simp)))
  | ctrl => exact .inr (.inr (hfit (by simp)))
  | finish => exact .inr (.inr (hfit (by simp)))
  | drain => exact .inr (.inr (hfit (by simp)))

/-- One cycle of a command of any size. -/
theorem Flow.step (hN : 0 < N) (hN' : N < 2 ^ 31) (h : Flow d c l n s) (hports : Ports d c s)
    (hrows : 1 ≤ c.mRows.toNat) (hr : i.rst = false) (hlegal : s.Legal i)
    (hheld : s.dma.ctrlStart = true → i.cmd.mRows = c.mRows)
    (hbusy : (s.step d i).dma.busy = true) :
    Flow d c (l ++ (s.rBeat i).toList) (n + (s.dma.wr.sent i).toNat) (s.step d i) := by
  have hacc : s.dma.accept i = false := by simp [Dma.accept, h.busy]
  have hwr := Sys.step_wr (d := d) hacc
  have hbus : (s.step d i).bus.wr = s.bus.wr.step (s.dma.wr.awAccepted i) (s.dma.wr.sent i) := by
    simp [Sys.step, hr]
  -- whatever the position, a beat is one more row sent
  have hsent' : sentRows (s.step d i).dma.wr (s.step d i).bus.wr =
      sentRows s.dma.wr s.bus.wr + (s.dma.wr.sent i).toNat := by
    rw [hwr, hbus]
    exact (hports.sending.rows _ _ _ _ hr).1
  cases h with
  | overrun h hsent => exact .overrun (h.step hports hN' hr hheld) (by rw [hsent', hsent])
  | course pos hread hm hfit hcount hsent =>
    cases hnext : pos.next i s.dma with
    | none =>
      have hidle := (hread.last hr hnext).1.bstate
      simp [Dma.busy, hidle] at hbusy
    | some pos' =>
      by_cases hwrap : pos = .launch ∧ ¬ N + c.mRows.toNat < 2 ^ 32
      · -- the word count wraps, and not to 0
        obtain ⟨rfl, hge⟩ := hwrap
        have hne : N + c.mRows.toNat ≠ 2 ^ 32 := by
          rcases hfit with hf | ⟨-, hne⟩ | hlt
          · cases hf
          · exact hne
          · omega
        exact .overrun (overrun_launch hN' hread hcount hports hr hheld (by omega))
          (by rw [hsent', hsent])
      · have hlt : pos ≠ .fetch → N + c.mRows.toNat < 2 ^ 32 := by
          intro hne
          rcases hfit with rfl | ⟨rfl, -⟩ | hlt
          · exact absurd rfl hne
          · by_contra hge
            exact hwrap ⟨rfl, hge⟩
          · exact hlt
        -- a count that does not wrap is what the read side needs at the launch
        have hok := hread.launchOk (i := i) hrows hheld fun hf => hlt (by rw [hf]; simp)
        have hpushed := pushed_step hN hread hm hnext
        have hnextrows := hcount.step d.wr s.dma.rd.cBaseLat s.dma.core.ctrl.wrEn s.dma.core.wrData
          hports.sending hr (hread.pushed_lt hlt)
        rw [← hpushed, ← hwr, ← hbus] at hnextrows
        exact .course pos' (hread.step hN hN' hr hlegal hok hnext) (hread.rows_next hm hheld hnext)
          (hread.fit_next hlt hnext) hnextrows (by rw [hsent', hsent])

/-- The last cycle of a command: it was read, sent and acknowledged in full. -/
theorem Flow.last (h : Flow d c l n s) (hN : N < 2 ^ 31) (hports : Ports d c s) (hr : i.rst = false)
    (hlow : (s.step d i).dma.busy = false) :
    Between d (s.step d i) ∧ l.length = N + c.mRows.toNat ∧ N + c.mRows.toNat ≤ d.rd ∧
      n = c.mRows.toNat ∧ s.rBeat i = none ∧ s.dma.wr.sent i = false := by
  have hacc : s.dma.accept i = false := by simp [Dma.accept, h.busy]
  obtain ⟨hb, hover⟩ := busy_falls hr h.busy hlow
  cases h with
  | overrun h => exact absurd hover (h.unfinished hports hN)
  | course pos hread hm hfit hcount hsent =>
    obtain ⟨hst, htotal⟩ := hports.sending.over hover
    obtain ⟨-, hw, hp, -, -⟩ := hports.sending.rest hst
    have hquiet : s.dma.wr.sent i = false := WrEngine.sent_eq_false hw
    have hbal := hcount.balance
    have hle := pushedAt_le N c.mRows.toNat pos
    rw [hcount.total] at htotal
    -- the rows sent are those pushed, and all there are
    rw [sentRows, ← htotal] at hbal hsent
    have hempty : s.dma.wr.wf.count = 0 := BitVec.eq_of_toNat_eq (by
      rw [show (0 : BitVec 32).toNat = 0 from rfl]
      omega)
    cases hread with
    | drain hb' hc hload =>
      have hlt : N + c.mRows.toNat < 2 ^ 32 := by
        rcases hfit with hf | ⟨hf, -⟩ | hlt
        · cases hf
        · cases hf
        · exact hlt
      obtain ⟨hlen, hrd⟩ := hload.rows_le hlt
      have hnone : Pos.drain.next i s.dma = none := by simp [Pos.next, hover]
      obtain ⟨hrest, -, hbeat⟩ := (ReadSide.drain hb' hc hload).last hr hnone
      have hwr := Sys.step_wr (d := d) hacc
      refine ⟨⟨hrest, ?_⟩, hlen, hrd, by omega, hbeat, hquiet⟩
      rw [hwr, (wrEngine_frame d.wr _ _ _ s.dma.wr hr).1, (Ctrl.no_strobe hc.busy).2, hquiet]
      exact hempty
    | fetch hb' => rw [hb] at hb'; cases hb'
    | launch hb' => rw [hb] at hb'; cases hb'
    | ctrl _ _ hb' => rw [hb] at hb'; cases hb'
    | finish _ hb' => rw [hb] at hb'; cases hb'

/-- A row on the bus was pushed: all words of its command were read. -/
theorem Flow.writing (h : Flow d c l n s) (hports : Ports d c s)
    (hv : s.dma.wr.awvalid = true ∨ s.dma.wr.wvalid = true) : l.length = N + c.mRows.toNat := by
  have hpushed : ¬ RowCount c 0 s.dma.wr s.bus.wr := by
    intro hzero
    obtain ⟨-, haw, hw, -, -⟩ := hzero.rest hports.sending
    simp [haw, hw] at hv
  cases h with
  | overrun h => exact absurd h.rows hpushed
  | course pos hread hm hfit hcount hsent =>
    rcases hread.engine with ⟨rfl, -⟩ | ⟨j, hload⟩
    · exact absurd hcount hpushed
    · rcases hfit with rfl | ⟨rfl, -⟩ | hlt
      · exact absurd hcount hpushed
      · exact absurd hcount hpushed
      · exact (hload.rows_le hlt).1

/-- While words are asked for, nothing was sent and nothing is under way. -/
theorem Flow.reading (h : Flow d c l n s) (hports : Ports d c s) (hb : s.dma.bstate = .prefetch) :
    Prefetched d.rd c l s.dma.rd s.bus.rd ∧ n = 0 ∧ s.dma.wr.awvalid = false ∧
      s.dma.wr.wvalid = false ∧ s.bus.wr = Port.idle ∧ s.bus.bDue = 0 := by
  cases h with
  | overrun h =>
    rcases h.bstate with hb' | hb'
    · rw [hb] at hb'; cases hb'
    · rw [hb] at hb'; cases hb'
  | course pos hread hm hfit hcount hsent =>
    cases hread with
    | fetch _ _ hpre =>
      obtain ⟨-, haw, hw, hp, hdue⟩ := hcount.rest hports.sending
      have hbal := hcount.balance
      rw [pushedAt] at hbal
      exact ⟨hpre, by omega, haw, hw, hp, hdue⟩
    | launch hb' => rw [hb] at hb'; cases hb'
    | ctrl _ _ hb' => rw [hb] at hb'; cases hb'
    | finish _ hb' => rw [hb] at hb'; cases hb'
    | drain hb' => rw [hb] at hb'; cases hb'

end flow

/-! ## Runs -/

/-- Commands have a row at least, and every launch of `u_ctrl` finds the row count
on the port that was latched at the start. -/
structure Fed (d : Depths) (p : Sys N A) (i : ℕ → DmaIn N A) (r t : ℕ) : Prop where
  rst : (i r).rst = true
  run : ∀ u, r < u → u < t → (i u).rst = false
  legal : ∀ u, r < u → u < t → (Clocked.run (Sys.step d) p i u).Legal (i u)
  rows : ∀ u, r < u → u < t → Accepts d p i u → 1 ≤ (i u).cmd.mRows.toNat
  held : ∀ u, r < u → u < t → (Clocked.run (Sys.step d) p i u).dma.ctrlStart = true →
    (i u).cmd.mRows = (Clocked.run (Sys.step d) p i u).dma.wr.wrTotal

section runs
variable {d : Depths} {p : Sys N A} {i : ℕ → DmaIn N A} {r t a b e : ℕ}

theorem Fed.mono (h : Fed d p i r t) (hle : e ≤ t) : Fed d p i r e where
  rst := h.rst
  run u hu hue := h.run u hu (by omega)
  legal u hu hue := h.legal u hu (by omega)
  rows u hu hue := h.rows u hu (by omega)
  held u hu hue := h.held u hu (by omega)

/-- The write beats are counted by their handshakes. -/
theorem sentBeats_succ (hat : a ≤ t) : (sentBeats d p i a (t + 1)).length =
    (sentBeats d p i a t).length + ((run (Sys.step d) p i t).dma.wr.sent (i t)).toNat := by
  rw [sentBeats, eventsIn_succ _ hat, List.length_append]
  cases hsent : (run (Sys.step d) p i t).dma.wr.sent (i t) with
  | true => simp [Sys.wBeat, hsent, sentBeats]
  | false => simp [Sys.wBeat, hsent, sentBeats]

/-- Between two commands, or in the command that made `busy` rise. -/
def Stage (d : Depths) (p : Sys N A) (i : ℕ → DmaIn N A) (r t : ℕ) (c : Cmd A) : Prop :=
  (run (Sys.step d) p i t).dma.busy = false ∧ Between d (run (Sys.step d) p i t) ∨
    ∃ a, r < a ∧ a < t ∧ Accepts d p i a ∧ BusyBetween d p i a (t + 1) ∧ c = (i a).cmd ∧
      Flow d c (readBeats d p i a t) (sentBeats d p i a t).length (run (Sys.step d) p i t)

theorem flow_run (hN : 0 < N) (hN' : N < 2 ^ 31) (hrt : r < t) (h : Fed d p i r t) :
    ∃ c, Ports d c (run (Sys.step d) p i t) ∧ Stage d p i r t c := by
  induction t, hrt using Nat.le_induction with
  | base =>
    have hrest := readRest_reset (i := i r) d (run (Sys.step d) p i r) h.rst
    refine ⟨(i r).cmd, ports_reset d _ _ h.rst, .inl ⟨?_, hrest, ?_⟩⟩
    · rw [run_succ, Dma.busy, hrest.bstate]
      rfl
    · simp [run_succ, Sys.step, Dma.step, WrEngine.step, h.rst, Fifo.reset]
  | succ t hrt ih =>
    -- three ways on: a start, another cycle of rest, or a cycle of the command that runs
    obtain ⟨c, hports, hstage⟩ := ih (h.mono (Nat.le_succ t))
    have hrst := h.run t hrt (Nat.lt_succ_self t)
    have hleg := h.legal t hrt (Nat.lt_succ_self t)
    rcases hstage with ⟨hfree, hbetween⟩ | ⟨a, hra, hat, hacc, hbusy, rfl, hflow⟩
    · cases hstart : (i t).start with
      | true =>
        have hacc : (run (Sys.step d) p i t).dma.accept (i t) = true := by
          simp [Dma.accept, hfree, hstart]
        have hflow := hbetween.start hports hrst hleg hstart
        have hnone := (hbetween.read.step (d := d) hrst).1
        have hsent : (run (Sys.step d) p i t).dma.wr.sent (i t) = false := by
          simp [WrEngine.sent, (hports.sending.rest (hports.free hfree).1).2.1]
        refine ⟨(i t).cmd, hports.accept hrst hleg hacc,
          .inr ⟨t, hrt, Nat.lt_succ_self t, ⟨hstart, hfree⟩, ?_, rfl, ?_⟩⟩
        · intro u hu hut
          obtain rfl : u = t + 1 := by omega
          exact hflow.busy
        · have hreads : readBeats d p i t (t + 1) = [] := by
            rw [readBeats, eventsIn_succ _ le_rfl]
            simp [Sys.rBeat, hnone]
          have hsents : (sentBeats d p i t (t + 1)).length = 0 := by
            rw [sentBeats_succ le_rfl, hsent, sentBeats, eventsIn_self]
            rfl
          rw [hreads, hsents]
          exact hflow
      | false =>
        have hacc : (run (Sys.step d) p i t).dma.accept (i t) = false := by
          simp [Dma.accept, hstart]
        have hstay := hbetween.stay hports hrst hstart
        refine ⟨c, hports.stay hN' hrst hleg hacc, .inl ⟨?_, hstay⟩⟩
        rw [run_succ, Dma.busy, hstay.read.bstate]
        rfl
    · have hacc' : (run (Sys.step d) p i t).dma.accept (i t) = false := by
        simp [Dma.accept, hflow.busy]
      have hheld := h.held t hrt (Nat.lt_succ_self t)
      rw [(hports.latched hflow.busy).2] at hheld
      refine ⟨(i a).cmd, hports.stay hN' hrst hleg hacc', ?_⟩
      cases hnext : (run (Sys.step d) p i (t + 1)).dma.busy with
      | false => exact .inl ⟨hnext, (hflow.last hN' hports hrst hnext).1⟩
      | true =>
        have hflow' := hflow.step hN hN' hports (h.rows a hra (by omega) hacc) hrst hleg hheld hnext
        refine .inr ⟨a, hra, by omega, hacc, fun u hu hut => ?_, rfl, ?_⟩
        · rcases Nat.lt_succ_iff_lt_or_eq.mp hut with hlt | rfl
          · exact hbusy u hu hlt
          · exact hnext
        · have hreads : readBeats d p i a (t + 1) =
              readBeats d p i a t ++ ((run (Sys.step d) p i t).rBeat (i t)).toList :=
            eventsIn_succ _ (Nat.le_of_lt hat)
          rw [hreads, sentBeats_succ (Nat.le_of_lt hat)]
          exact hflow'

/-- The command that runs was accepted last. -/
theorem accept_unique (ha : Accepts d p i a) (hb : Accepts d p i b) (hbusya : BusyBetween d p i a t)
    (hbusyb : BusyBetween d p i b t) (hat : a < t) (hbt : b < t) : a = b := by
  rcases Nat.lt_trichotomy a b with hlt | heq | hgt
  · have hfree := hb.2
    rw [hbusya b hlt hbt] at hfree
    cases hfree
  · exact heq
  · have hfree := ha.2
    rw [hbusyb a hgt hat] at hfree
    cases hfree

/-- The command accepted in cycle `a`, as long as it runs. -/
theorem flow_of_accept (hN : 0 < N) (hN' : N < 2 ^ 31) (h : Fed d p i r t) (hra : r < a) (hat : a < t)
    (hacc : Accepts d p i a) (hbusy : BusyBetween d p i a (t + 1)) :
    Ports d (i a).cmd (run (Sys.step d) p i t) ∧
      Flow d (i a).cmd (readBeats d p i a t) (sentBeats d p i a t).length (run (Sys.step d) p i t) := by
  obtain ⟨c, hports, hstage⟩ := flow_run hN hN' (hra.trans hat) h
  rcases hstage with ⟨hfree, -⟩ | ⟨b, -, hbt, hacc', hbusy', rfl, hflow⟩
  · rw [hbusy t hat (Nat.lt_succ_self t)] at hfree
    cases hfree
  · obtain rfl := accept_unique hacc hacc' hbusy hbusy' (by omega) (by omega)
    exact ⟨hports, hflow⟩

/-- An accepted start makes `busy` rise. -/
theorem busy_after_accept (hr : (i a).rst = false) (hacc : Accepts d p i a) :
    (run (Sys.step d) p i (a + 1)).dma.busy = true := by
  have hb : (run (Sys.step d) p i a).dma.bstate = .idle := by simpa [Dma.busy] using hacc.2
  simp [run_succ, Sys.step, Dma.step, Dma.busy, hr, hb, hacc.1]

/-- A command that ended was read, sent and acknowledged in full. -/
theorem command_end (hN : 0 < N) (hN' : N < 2 ^ 31) (h : Fed d p i r e) (hra : r < a) (hae : a < e)
    (hacc : Accepts d p i a) (hbusy : BusyBetween d p i a e)
    (hfree : (run (Sys.step d) p i e).dma.busy = false) :
    Between d (run (Sys.step d) p i e) ∧
      (readBeats d p i a e).length = N + (i a).cmd.mRows.toNat ∧
      N + (i a).cmd.mRows.toNat ≤ d.rd ∧
      (sentBeats d p i a e).length = (i a).cmd.mRows.toNat := by
  obtain ⟨t, rfl⟩ : ∃ t, e = t + 1 := ⟨e - 1, by omega⟩
  have hat : a < t := by
    rcases Nat.lt_succ_iff_lt_or_eq.mp hae with hlt | rfl
    · exact hlt
    · rw [busy_after_accept (h.run a hra hae) hacc] at hfree
      cases hfree
  obtain ⟨hports, hflow⟩ := flow_of_accept hN hN' (h.mono (Nat.le_succ t)) hra hat hacc hbusy
  obtain ⟨hbetween, hlen, hrd, hn, hbeat, hsent⟩ :=
    hflow.last hN' hports (h.run t (by omega) (Nat.lt_succ_self t)) hfree
  refine ⟨hbetween, ?_, hrd, ?_⟩
  · have hreads : readBeats d p i a (t + 1) =
        readBeats d p i a t ++ ((run (Sys.step d) p i t).rBeat (i t)).toList :=
      eventsIn_succ _ (Nat.le_of_lt hat)
    rw [hreads, hbeat, Option.toList_none, List.append_nil, hlen]
  · rw [sentBeats_succ (Nat.le_of_lt hat), hsent, hn]
    rfl

/-- The first free cycle after an accepted start. -/
theorem first_free (hat : a < t) (hfree : (run (Sys.step d) p i t).dma.busy = false) :
    ∃ e, a < e ∧ e ≤ t ∧ BusyBetween d p i a e ∧ (run (Sys.step d) p i e).dma.busy = false := by
  have hex : ∃ e, a < e ∧ (run (Sys.step d) p i e).dma.busy = false := ⟨t, hat, hfree⟩
  classical
  obtain ⟨hae, hlow⟩ := Nat.find_spec hex
  refine ⟨Nat.find hex, hae, Nat.find_min' hex ⟨hat, hfree⟩, ?_, hlow⟩
  intro u hau hue
  by_contra hlow'
  exact Nat.find_min hex hue ⟨hau, by simpa using hlow'⟩

/-- `a'`'s command, accepted before cycle `a`, ended by then: all its rows were
sent, and no response is due. -/
def EndedBy (d : Depths) (p : Sys N A) (i : ℕ → DmaIn N A) (a' a : ℕ) : Prop :=
  ∃ e, a' < e ∧ e ≤ a ∧ BusyBetween d p i a' e ∧
    (sentBeats d p i a' e).length = (i a').cmd.mRows.toNat ∧
    (run (Sys.step d) p i e).bus.wr.pending = [] ∧ (run (Sys.step d) p i e).bus.bDue = 0

theorem ended_by (hN : 0 < N) (hN' : N < 2 ^ 31) (h : Fed d p i r t) (hrb : r < b) (hba : b < a)
    (hat : a < t) (hb : Accepts d p i b) (ha : Accepts d p i a) : EndedBy d p i b a := by
  obtain ⟨e, hbe, hea, hbusy, hlow⟩ := first_free hba ha.2
  have hfed : Fed d p i r e := h.mono (by omega)
  obtain ⟨-, -, -, hsent⟩ := command_end hN hN' hfed hrb hbe hb hbusy hlow
  obtain ⟨c, hports, -⟩ := flow_run hN hN' (show r < e by omega) hfed
  obtain ⟨-, -, hp, hdue, -⟩ := hports.sending.rest (hports.free hlow).1
  exact ⟨e, hbe, hea, hbusy, hsent, by rw [hp]; rfl, hdue⟩

/-- The bridge writes nothing of a command before all its words arrived, and asks
for nothing before the commands before it are over. -/
theorem bridge_ordered (hN : 0 < N) (hN' : N < 2 ^ 31) (hrt : r < t) (h : Fed d p i r t) :
    ((run (Sys.step d) p i t).dma.wr.awvalid = true ∨ (run (Sys.step d) p i t).dma.wr.wvalid = true →
      ∃ a, r < a ∧ a < t ∧ Accepts d p i a ∧ BusyBetween d p i a (t + 1) ∧
        (readBeats d p i a t).length = N + (i a).cmd.mRows.toNat) ∧
    ((run (Sys.step d) p i t).dma.rd.arvalid = true ∨
        (run (Sys.step d) p i t).bus.rd.pending ≠ [] →
      ∃ a, r < a ∧ a < t ∧ Accepts d p i a ∧ BusyBetween d p i a (t + 1) ∧
        sentBeats d p i a t = [] ∧ (run (Sys.step d) p i t).dma.wr.awvalid = false ∧
        (run (Sys.step d) p i t).dma.wr.wvalid = false ∧
        (run (Sys.step d) p i t).bus.wr = Port.idle ∧ (run (Sys.step d) p i t).bus.bDue = 0 ∧
        ∀ b, r < b → b < a → Accepts d p i b → EndedBy d p i b a) := by
  obtain ⟨c, hports, hstage⟩ := flow_run hN hN' hrt h
  constructor
  · intro hv
    rcases hstage with ⟨hfree, -⟩ | ⟨a, hra, hat, hacc, hbusy, rfl, hflow⟩
    · obtain ⟨haw, hw, -⟩ := hports.sending.rest (hports.free hfree).1
      simp [haw, hw] at hv
    · exact ⟨a, hra, hat, hacc, hbusy, hflow.writing hports hv⟩
  · intro hv
    have hb : (run (Sys.step d) p i t).dma.bstate = .prefetch := by
      by_contra hne
      obtain ⟨-, hlow, hp⟩ := hports.reading.idle (hports.fetched hne)
      rw [hlow, hp] at hv
      simp [Port.idle] at hv
    rcases hstage with ⟨hfree, -⟩ | ⟨a, hra, hat, hacc, hbusy, rfl, hflow⟩
    · simp [Dma.busy, hb] at hfree
    · obtain ⟨-, hn, haw, hw, hp, hdue⟩ := hflow.reading hports hb
      exact ⟨a, hra, hat, hacc, hbusy, List.length_eq_zero_iff.mp hn, haw, hw, hp, hdue,
        fun b hrb hba hb => ended_by hN hN' h hrb hba hat hb hacc⟩

end runs

end DmaBridge
