import TensorAccel.Axi.DmaBridge

/-! # The write side of the bridge

    `rows` are the result rows that `u_ctrl` has pushed so far in the current
    command.  The write engine sends a prefix of them, each to its own address,
    and waits for the response of a burst before it issues the next one. -/

open Clocked Ring Burst StreamCtrl

namespace DmaBridge

variable {N A : ℕ}

/-! ## The log of a command -/

/-- Accepted write beats: address, data and strobes. -/
abbrev WriteLog (N A : ℕ) := List (Option (BitVec A) × Lanes32 N × BitVec (N * 4))

/-- The beat that stores result row `k` of a command. -/
def writeBeat (c : Cmd A) (k : ℕ) (row : Lanes32 N) :
    Option (BitVec A) × Lanes32 N × BitVec (N * 4) :=
  (some (c.cBase + BitVec.ofNat A (k * wbytes N)), row, WrEngine.wstrb N)

def writeBeats (c : Cmd A) (rows : List (Lanes32 N)) : WriteLog N A := rows.mapIdx (writeBeat c)

theorem take_writeBeats_append (c : Cmd A) {rows more : List (Lanes32 N)} {n : ℕ}
    (h : n ≤ rows.length) :
    (writeBeats c (rows ++ more)).take n = (writeBeats c rows).take n := by
  rw [writeBeats, List.mapIdx_append, List.take_append_of_le_length (by simpa using h)]
  rfl

theorem take_writeBeats_succ (c : Cmd A) {rows : List (Lanes32 N)} {n : ℕ} {row : Lanes32 N}
    (h : rows[n]? = some row) :
    (writeBeats c rows).take (n + 1) = (writeBeats c rows).take n ++ [writeBeat c n row] := by
  rw [List.take_add_one, writeBeats, List.getElem?_mapIdx, h]
  rfl

/-! ## One equation per state of the write engine -/

namespace WrEngine

section equations
variable {D : ℕ} {i : DmaIn N A} {cb : BitVec A} {wrEn : Bool} {x : Lanes32 N} {s : WrEngine N A}

/-- What a clock edge without a start does in every state. -/
def tick (D : ℕ) (i : DmaIn N A) (wrEn : Bool) (x : Lanes32 N) (s : WrEngine N A) : WrEngine N A :=
  { s with wf := s.wf.step D wrEn (s.sent i) x }

theorem step_issue (hr : i.rst = false) (hs : s.wstate = .idle) (hlt : s.wrIssued < s.wrTotal)
    (hlen : s.nextWburstLen ≠ 0) :
    s.step D i false cb wrEn x =
      { s.tick D i wrEn x with
        awaddr := cb + BitVec.ofNat A (s.wrIssued.toNat * wbytes N), awlen := s.nextWburstLen - 1,
        awvalid := true, wBurstLen := s.nextWburstLen, wBeatCnt := 0, wstate := .aw } := by
  have hne : s.nextWburstLen ≠ 0#8 := hlen
  simp [step, tick, hr, hs, hlt, hne]

/-- All rows were issued, or none is in the FIFO. -/
theorem step_idle_wait (hr : i.rst = false) (hs : s.wstate = .idle)
    (h : ¬ (s.wrIssued < s.wrTotal ∧ s.nextWburstLen ≠ 0)) :
    s.step D i false cb wrEn x = s.tick D i wrEn x := by
  have hcond : (decide (s.wrIssued < s.wrTotal) && s.nextWburstLen != 0#8) = false := by
    simpa using h
  simp [step, tick, hr, hs, hcond]

theorem step_aw_wait (hr : i.rst = false) (hs : s.wstate = .aw) (hready : i.awready = false) :
    s.step D i false cb wrEn x = s.tick D i wrEn x := by
  simp [step, tick, hr, hs, hready]

/-- The first row of the burst goes out with the cycle after the address. -/
theorem step_aw_accepted (hr : i.rst = false) (hs : s.wstate = .aw) (hv : s.awvalid = true)
    (hready : i.awready = true) :
    s.step D i false cb wrEn x =
      { s.tick D i wrEn x with awvalid := false, wvalid := true, wdata := s.wf.head,
                               wlast := s.wBurstLen == 1, wstate := .data } := by
  simp [step, tick, hr, hs, hv, hready]

theorem step_data_wait (hr : i.rst = false) (hs : s.wstate = .data) (hsent : s.sent i = false) :
    s.step D i false cb wrEn x = s.tick D i wrEn x := by
  simp [step, tick, hr, hs, hsent]

theorem step_data_last (hr : i.rst = false) (hs : s.wstate = .data) (hsent : s.sent i = true)
    (hlast : s.wlast = true) :
    s.step D i false cb wrEn x =
      { s.tick D i wrEn x with
        wBeatCnt := s.wBeatCnt + 1, wvalid := false, wlast := false,
        wrIssued := s.wrIssued + s.wBurstLen.setWidth 32, wstate := .bresp } := by
  simp [step, tick, hr, hs, hsent, hlast]

theorem step_data_next (hr : i.rst = false) (hs : s.wstate = .data) (hsent : s.sent i = true)
    (hlast : s.wlast = false) :
    s.step D i false cb wrEn x =
      { s.tick D i wrEn x with
        wBeatCnt := s.wBeatCnt + 1, wdata := s.wf.mem (next D s.wf.rptr),
        wlast := s.wBeatCnt.setWidth 32 + 2 == s.wBurstLen.setWidth 32 } := by
  simp [step, tick, hr, hs, hsent, hlast]

theorem step_bresp_wait (hr : i.rst = false) (hs : s.wstate = .bresp) (hb : i.bvalid = false) :
    s.step D i false cb wrEn x = s.tick D i wrEn x := by
  simp [step, tick, hr, hs, hb]

theorem step_bresp (hr : i.rst = false) (hs : s.wstate = .bresp) (hb : i.bvalid = true) :
    s.step D i false cb wrEn x =
      { s.tick D i wrEn x with
        wrAcked := s.wrAcked + s.wBurstLen.setWidth 32, wstate := .idle } := by
  simp [step, tick, hr, hs, hb]

end equations

end WrEngine

/-! ## The write engine -/

/-- The state machine of the write engine after `n` write beats. -/
inductive Writing (c : Cmd A) (rows : List (Lanes32 N)) (n : ℕ) (s : WrEngine N A) (p : Port A)
    (bDue : ℕ) : Prop
  | idle (hst : s.wstate = .idle) (haw : s.awvalid = false) (hw : s.wvalid = false)
      (hp : p = Port.idle) (hb : bDue = 0) (hi : s.wrIssued.toNat = n) (ha : s.wrAcked.toNat = n)
  | aw (hst : s.wstate = .aw) (haw : s.awvalid = true) (hw : s.wvalid = false)
      (hp : p = Port.idle) (hb : bDue = 0) (hi : s.wrIssued.toNat = n) (ha : s.wrAcked.toNat = n)
      (hlen : s.wBurstLen.toNat = s.awlen.toNat + 1) (h16 : s.wBurstLen.toNat ≤ 16)
      (hcnt : s.wBeatCnt = 0) (haddr : s.awaddr = c.cBase + BitVec.ofNat A (n * wbytes N))
      (hroom : n + s.wBurstLen.toNat ≤ rows.length)
  | data (b : Req A) (k : ℕ) (hst : s.wstate = .data) (haw : s.awvalid = false)
      (hw : s.wvalid = true) (hp : p = Port.serving b k) (hb : bDue = 0)
      (hi : s.wrIssued.toNat + k = n) (ha : s.wrAcked.toNat = s.wrIssued.toNat) (hk : k < b.len)
      (hlen : s.wBurstLen.toNat = b.len) (h16 : b.len ≤ 16) (hcnt : s.wBeatCnt.toNat = k)
      (haddr : b.addr = c.cBase + BitVec.ofNat A (s.wrIssued.toNat * wbytes N))
      (hroom : n + (b.len - k) ≤ rows.length) (hdata : rows[n]? = some s.wdata)
      (hlast : s.wlast = (k + 1 == b.len))
  | bresp (hst : s.wstate = .bresp) (haw : s.awvalid = false) (hw : s.wvalid = false)
      (hp : p = Port.idle) (hb : bDue = 1) (hi : s.wrIssued.toNat = n)
      (ha : s.wrAcked.toNat + s.wBurstLen.toNat = n) (hpos : 0 < s.wBurstLen.toNat)

/-- The write side of command `c` after the write beats `l`. -/
structure WriteSide (D : ℕ) (c : Cmd A) (rows : List (Lanes32 N)) (l : WriteLog N A)
    (s : WrEngine N A) (p : Port A) (bDue : ℕ) : Prop where
  total : s.wrTotal = c.mRows
  rows_le : rows.length ≤ c.mRows.toNat
  rows_fit : c.mRows.toNat ≤ D
  sent_le : l.length ≤ rows.length
  sent : l = (writeBeats c rows).take l.length
  fifo : s.wf.Represents D (rows.drop l.length)
  writing : Writing c rows l.length s p bDue

section step
variable {D : ℕ} {c : Cmd A} {rows : List (Lanes32 N)} {l : WriteLog N A} {s : WrEngine N A}
  {p : Port A} {bDue : ℕ} {i : DmaIn N A}

/-- What a cycle without a start does to the FIFO and the row count. -/
theorem wrEngine_frame (D : ℕ) (cb : BitVec A) (wrEn : Bool) (x : Lanes32 N) (s : WrEngine N A)
    (hr : i.rst = false) :
    (s.step D i false cb wrEn x).wf = s.wf.step D wrEn (s.sent i) x ∧
      (s.step D i false cb wrEn x).wrTotal = s.wrTotal := by
  unfold WrEngine.step
  rw [hr]
  cases s.wstate with
  | idle =>
    simp only [Bool.false_eq_true, if_false]
    split <;> exact ⟨rfl, rfl⟩
  | aw =>
    simp only [Bool.false_eq_true, if_false]
    split <;> exact ⟨rfl, rfl⟩
  | data =>
    simp only [Bool.false_eq_true, if_false]
    split
    · split <;> exact ⟨rfl, rfl⟩
    · exact ⟨rfl, rfl⟩
  | bresp =>
    simp only [Bool.false_eq_true, if_false]
    split <;> exact ⟨rfl, rfl⟩

/-- The length of the next burst, the remaining rows being cut to 8 bits. -/
theorem nextWburstLen_toNat (s : WrEngine N A) : s.nextWburstLen.toNat =
    min ((s.wrTotal - s.wrIssued).toNat % 256) (min s.wf.count.toNat 16) := by
  have hlen : (if s.wf.count < 16 then s.wf.count.setWidth 8 else 16 : BitVec 8).toNat =
      min s.wf.count.toNat 16 := by
    have h16 : (16 : BitVec 32).toNat = 16 := rfl
    have h16' : (16 : BitVec 8).toNat = 16 := rfl
    split
    · next h =>
      rw [BitVec.lt_def, h16] at h
      rw [BitVec.toNat_setWidth]
      omega
    · next h =>
      rw [BitVec.lt_def, h16] at h
      rw [h16']
      omega
  have hmin : ∀ x y : BitVec 8, (if x < y then x else y).toNat = min x.toNat y.toNat := by
    intro x y
    split
    · next h =>
      rw [BitVec.lt_def] at h
      omega
    · next h =>
      rw [BitVec.lt_def] at h
      omega
  rw [WrEngine.nextWburstLen, hmin, hlen, BitVec.toNat_setWidth]

/-- A burst carries at most 16 rows, all of them in the FIFO. -/
theorem nextWburstLen_le (s : WrEngine N A) :
    s.nextWburstLen.toNat ≤ 16 ∧ s.nextWburstLen.toNat ≤ s.wf.count.toNat := by
  have hlen := nextWburstLen_toNat s
  omega

theorem WriteSide.count (h : WriteSide D c rows l s p bDue) :
    s.wf.count.toNat = rows.length - l.length := by
  rw [← h.fifo.length, List.length_drop]

/-- What the FIFO shows at its head, and behind it. -/
theorem WriteSide.head (h : WriteSide D c rows l s p bDue) (hn : l.length < rows.length) :
    rows[l.length]? = some s.wf.head := by
  have hfifo := h.fifo
  rw [List.drop_eq_getElem_cons hn] at hfifo
  rw [hfifo.head, List.getElem?_eq_getElem hn]

theorem WriteSide.second (h : WriteSide D c rows l s p bDue) (hn : l.length + 1 < rows.length) :
    rows[l.length + 1]? = some (s.wf.mem (next D s.wf.rptr)) := by
  have hfifo := h.fifo
  rw [List.drop_eq_getElem_cons (show l.length < rows.length by omega),
    List.drop_eq_getElem_cons hn] at hfifo
  rw [hfifo.second, List.getElem?_eq_getElem hn]

/-- A beat falls on the address of the next row and carries that row. -/
theorem WriteSide.beat (h : WriteSide D c rows l s p bDue) (hsent : s.sent i = true) :
    l.length < rows.length ∧ rows[l.length]? = some s.wdata ∧
      (p.beatAddr (wbytes N), s.wdata, WrEngine.wstrb N) = writeBeat c l.length s.wdata := by
  have hvalid : s.wvalid = true := by
    rw [WrEngine.sent, Bool.and_eq_true] at hsent
    exact hsent.1
  cases h.writing with
  | data b k hst haw hw hp hb hi ha hk hlen h16 hcnt haddr hroom hdata hlast =>
    refine ⟨by omega, hdata, ?_⟩
    rw [hp, Port.serving_beatAddr, writeBeat, haddr, BitVec.add_assoc, ← BitVec.ofNat_add,
      ← Nat.add_mul, hi]
  | idle _ _ hw => rw [hw] at hvalid; cases hvalid
  | aw _ _ hw => rw [hw] at hvalid; cases hvalid
  | bresp _ _ hw => rw [hw] at hvalid; cases hvalid

/-- While no burst is written, none is answered. -/
theorem no_response (hlegal : i.bvalid = true → 0 < bDue) (hb : bDue = 0) : i.bvalid = false := by
  by_contra hbv
  have := hlegal (by simpa using hbv)
  omega

/-- A burst of one row is flagged as its last at once. -/
theorem one_beat_last (hlen : s.wBurstLen.toNat = s.awlen.toNat + 1) :
    (s.wBurstLen == 1) = (0 + 1 == s.awlen.toNat + 1) := by
  rw [Bool.eq_iff_iff, beq_iff_eq, beq_iff_eq, ← BitVec.toNat_inj, ← hlen]
  exact eq_comm

theorem beat_count {k : ℕ} (hcnt : s.wBeatCnt.toNat = k) (hk : k < 16) :
    (s.wBeatCnt + 1).toNat = k + 1 := by
  rw [BitVec.toNat_add, hcnt]
  exact Nat.mod_eq_of_lt (by simp; omega)

/-- `w_beat_cnt` still counts the beat before: it is compared two ahead. -/
theorem next_beat_last {k len : ℕ} (hcnt : s.wBeatCnt.toNat = k) (hlen : s.wBurstLen.toNat = len)
    (h16 : len ≤ 16) :
    (s.wBeatCnt.setWidth 32 + 2 == s.wBurstLen.setWidth 32) = (k + 1 + 1 == len) := by
  rw [Bool.eq_iff_iff, beq_iff_eq, beq_iff_eq, ← BitVec.toNat_inj, BitVec.toNat_add,
    BitVec.toNat_setWidth, BitVec.toNat_setWidth, hcnt, hlen]
  have hk := s.wBeatCnt.isLt
  simp only [BitVec.ofNat_eq_ofNat, BitVec.toNat_ofNat]
  omega

/-- More rows in the FIFO do no harm. -/
theorem Writing.append {n : ℕ} (h : Writing c rows n s p bDue) (more : List (Lanes32 N)) :
    Writing c (rows ++ more) n s p bDue := by
  cases h with
  | idle hst haw hw hp hb hi ha => exact .idle hst haw hw hp hb hi ha
  | aw hst haw hw hp hb hi ha hlen h16 hcnt haddr hroom =>
    refine .aw hst haw hw hp hb hi ha hlen h16 hcnt haddr ?_
    rw [List.length_append]
    omega
  | data b k hst haw hw hp hb hi ha hk hlen h16 hcnt haddr hroom hdata hlast =>
    have hlt : n < rows.length := by omega
    refine .data b k hst haw hw hp hb hi ha hk hlen h16 hcnt haddr ?_ ?_ hlast
    · rw [List.length_append]
      omega
    · rw [List.getElem?_append_left hlt, hdata]
  | bresp hst haw hw hp hb hi ha hpos => exact .bresp hst haw hw hp hb hi ha hpos

/-- The state machine moves on; the monitor follows its bursts. -/
theorem WriteSide.writing_step (hD : D < 2 ^ 31) (h : WriteSide D c rows l s p bDue)
    (hr : i.rst = false) (hlegal : i.bvalid = true → 0 < bDue) {cb : BitVec A} (hcb : cb = c.cBase)
    (wrEn : Bool) (x : Lanes32 N) :
    Writing c rows (l.length + (s.sent i).toNat) (s.step D i false cb wrEn x)
      (p.step (s.awAccepted i) (s.sent i)) (bDue - i.bvalid.toNat + (s.sent i && s.wlast).toNat) := by
  have hcount := h.count
  have hsent_le := h.sent_le
  have hrows := h.rows_le
  have hfit := h.rows_fit
  cases h.writing with
  | idle hst haw hw hp hb hi ha =>
    have hsent : s.sent i = false := WrEngine.sent_eq_false hw
    have hawa : s.awAccepted i = none := WrEngine.awAccepted_eq_none haw
    rw [hsent, hawa, no_response hlegal hb, Port.step_quiet]
    by_cases hgo : s.wrIssued < s.wrTotal ∧ s.nextWburstLen ≠ 0
    · obtain ⟨hlt, hne⟩ := hgo
      obtain ⟨hpos, hbeats⟩ := announced hne
      obtain ⟨h16, hle⟩ := nextWburstLen_le s
      rw [WrEngine.step_issue hr hst hlt hne]
      -- the burst is not longer than the FIFO is full, and the FIFO only holds rows to come
      refine .aw rfl rfl hw hp (by simpa using hb) hi ha hbeats.symm h16 rfl (by rw [hcb, hi]; rfl) ?_
      simp only [Bool.toNat_false]
      omega
    · rw [WrEngine.step_idle_wait hr hst hgo]
      exact .idle hst haw hw hp (by simpa using hb) hi ha
  | aw hst haw hw hp hb hi ha hlen h16 hcnt haddr hroom =>
    have hsent : s.sent i = false := WrEngine.sent_eq_false hw
    rw [hsent, no_response hlegal hb]
    cases hready : i.awready with
    | false =>
      have hawa : s.awAccepted i = none := by simp [WrEngine.awAccepted, hready]
      rw [hawa, Port.step_quiet, WrEngine.step_aw_wait hr hst hready]
      exact .aw hst haw hw hp (by simpa using hb) hi ha hlen h16 hcnt haddr hroom
    | true =>
      have hawa : s.awAccepted i = some ⟨s.awaddr, s.awlen.toNat + 1⟩ := by
        simp [WrEngine.awAccepted, haw, hready]
      have hbeat0 : s.wBeatCnt.toNat = 0 := by rw [hcnt]; rfl
      have haddr0 : s.awaddr = c.cBase + BitVec.ofNat A (s.wrIssued.toNat * wbytes N) := by
        rw [haddr, hi]
      rw [hawa, hp, Port.idle_accept, WrEngine.step_aw_accepted hr hst haw hready]
      exact .data _ 0 rfl rfl rfl rfl (by simpa using hb) hi (ha.trans hi.symm) (Nat.succ_pos _) hlen
        (hlen ▸ h16) hbeat0 haddr0 (by simp only [Bool.toNat_false]; omega)
        (h.head (by omega)) (one_beat_last hlen)
  | data b k hst haw hw hp hb hi ha hk hlen h16 hcnt haddr hroom hdata hlast =>
    have hawa : s.awAccepted i = none := WrEngine.awAccepted_eq_none haw
    rw [hawa, no_response hlegal hb]
    cases hsent : s.sent i with
    | false =>
      rw [Port.step_quiet, WrEngine.step_data_wait hr hst hsent]
      exact .data b k hst haw hw hp (by simpa using hb) hi ha hk hlen h16 hcnt haddr
        (by simpa using hroom) hdata hlast
    | true =>
      rw [hp]
      by_cases hend : k + 1 = b.len
      · -- the whole burst counts as issued only now
        have hissued : (s.wrIssued + s.wBurstLen.setWidth 32).toNat = s.wrIssued.toNat + b.len := by
          rw [BitVec.toNat_add, BitVec.toNat_setWidth, hlen]
          omega
        rw [Port.serving_last hend,
          WrEngine.step_data_last hr hst hsent (by simp [hlast, hend])]
        refine .bresp rfl haw rfl rfl (by simp [hb, hlast, hend]) ?_ ?_ ?_
        · rw [hissued, Bool.toNat_true]
          omega
        · show s.wrAcked.toNat + s.wBurstLen.toNat = _
          rw [ha, hlen, Bool.toNat_true]
          omega
        · show 0 < s.wBurstLen.toNat
          omega
      · rw [Port.serving_next hend,
          WrEngine.step_data_next hr hst hsent (by simp [hlast, hend])]
        refine .data b (k + 1) hst haw hw rfl (by simp [hb, hlast, hend]) ?_ ha (by omega) hlen h16
          (beat_count hcnt (by omega)) haddr ?_ (h.second (by omega)) (next_beat_last hcnt hlen h16)
        · show s.wrIssued.toNat + (k + 1) = _
          rw [Bool.toNat_true]
          omega
        · rw [Bool.toNat_true]
          omega
  | bresp hst haw hw hp hb hi ha hpos =>
    have hsent : s.sent i = false := WrEngine.sent_eq_false hw
    have hawa : s.awAccepted i = none := WrEngine.awAccepted_eq_none haw
    rw [hsent, hawa, Port.step_quiet]
    cases hbv : i.bvalid with
    | false =>
      rw [WrEngine.step_bresp_wait hr hst hbv]
      exact .bresp hst haw hw hp (by simpa using hb) hi ha hpos
    | true =>
      have hacked : (s.wrAcked + s.wBurstLen.setWidth 32).toNat =
          s.wrAcked.toNat + s.wBurstLen.toNat := by
        rw [BitVec.toNat_add, BitVec.toNat_setWidth]
        omega
      rw [WrEngine.step_bresp hr hst hbv]
      exact .idle rfl haw hw hp (by simp [hb]) hi (hacked.trans ha)

/-- One cycle of the write engine, in which `u_ctrl` may push a row. -/
theorem WriteSide.step (hD : D < 2 ^ 31) (h : WriteSide D c rows l s p bDue)
    (hr : i.rst = false) (hlegal : i.bvalid = true → 0 < bDue) {cb : BitVec A} (hcb : cb = c.cBase)
    {wrEn : Bool} (x : Lanes32 N) (hpush : wrEn = true → rows.length < c.mRows.toNat) :
    WriteSide D c (rows ++ if wrEn then [x] else [])
      (l ++ if s.sent i then [(p.beatAddr (wbytes N), s.wdata, WrEngine.wstrb N)] else [])
      (s.step D i false cb wrEn x) (p.step (s.awAccepted i) (s.sent i))
      (bDue - i.bvalid.toNat + (s.sent i && s.wlast).toNat) := by
  have hcount := h.count
  have hrows := h.rows_le
  have hfit := h.rows_fit
  have hsent_le := h.sent_le
  -- the state machine sees the rows of the cycle before, the row pushed now comes behind them
  have hwriting := (h.writing_step hD hr hlegal hcb wrEn x).append (if wrEn then [x] else [])
  have hlen : (l ++ if s.sent i then [(p.beatAddr (wbytes N), s.wdata, WrEngine.wstrb N)]
      else []).length = l.length + (s.sent i).toNat := by
    cases s.sent i <;> simp
  have hlt : l.length + (s.sent i).toNat ≤ rows.length := by
    cases hsent : s.sent i with
    | false => simpa using hsent_le
    | true =>
      have := (h.beat hsent).1
      rw [Bool.toNat_true]
      omega
  obtain ⟨hwf, htotal⟩ := wrEngine_frame D cb wrEn x s hr
  refine ⟨by rw [htotal, h.total], ?_, hfit, ?_, ?_, ?_, by rw [hlen]; exact hwriting⟩
  · cases wrEn with
    | false => simpa using hrows
    | true =>
      have := hpush rfl
      simp
      omega
  · rw [hlen, List.length_append]
    omega
  · rw [hlen, take_writeBeats_append c hlt]
    cases hsent : s.sent i with
    | false => simpa using h.sent
    | true =>
      obtain ⟨-, hrow, hbeat⟩ := h.beat hsent
      rw [Bool.toNat_true, take_writeBeats_succ c hrow, ← h.sent, if_pos rfl, hbeat]
  · have hfifo := h.fifo.step hD wrEn (s.sent i) x
      (fun hsent => by
        rw [← List.length_pos_iff, List.length_drop]
        have := (h.beat hsent).1
        omega)
      (fun hp => by
        rw [List.length_drop]
        have := hpush hp
        omega)
    rw [hwf, hlen, List.drop_append_of_le_length hlt]
    cases hsent : s.sent i with
    | false => simpa [hsent] using hfifo
    | true => simpa [hsent, List.tail_drop] using hfifo

/-- When all rows are acknowledged, all rows were sent and nothing is under way. -/
theorem WriteSide.complete (h : WriteSide D c rows l s p bDue) (hover : s.wrTotal ≤ s.wrAcked) :
    l.length = c.mRows.toNat ∧ rows.length = c.mRows.toNat ∧ s.wstate = .idle ∧
      s.awvalid = false ∧ s.wvalid = false ∧ p = Port.idle ∧ bDue = 0 ∧
      s.wrTotal ≤ s.wrIssued := by
  have hrows := h.rows_le
  have hsent := h.sent_le
  rw [BitVec.le_def, h.total] at hover
  cases h.writing with
  | idle hst haw hw hp hb hi ha =>
    refine ⟨by omega, by omega, hst, haw, hw, hp, hb, ?_⟩
    rw [BitVec.le_def, h.total]
    omega
  | aw hst haw hw hp hb hi ha hlen => omega
  | data b k hst haw hw hp hb hi ha hk => omega
  | bresp hst haw hw hp hb hi ha hpos => omega

end step

/-! ## Between commands -/

/-- The write side between two commands. -/
structure WriteRest (D : ℕ) (s : WrEngine N A) (p : Port A) (bDue : ℕ) : Prop where
  rest : s.wstate = .idle
  awvalid : s.awvalid = false
  wvalid : s.wvalid = false
  port : p = Port.idle
  due : bDue = 0
  nothing : s.wrTotal ≤ s.wrIssued
  fifo : s.wf.Represents D []

section rest
variable {D : ℕ} {s : WrEngine N A} {p : Port A} {bDue : ℕ} {i : DmaIn N A}

/-- A cycle of rest, in which a command may be accepted. -/
theorem WriteRest.step (hD : D < 2 ^ 31) (h : WriteRest D s p bDue) (hr : i.rst = false)
    (hlegal : i.bvalid = true → 0 < bDue) (accept : Bool) (cb : BitVec A) (x : Lanes32 N) :
    s.sent i = false ∧
      (accept = false → WriteRest D (s.step D i accept cb false x)
        (p.step (s.awAccepted i) (s.sent i))
        (bDue - i.bvalid.toNat + (s.sent i && s.wlast).toNat)) ∧
      (accept = true → i.cmd.mRows.toNat ≤ D → WriteSide D i.cmd [] []
        (s.step D i accept cb false x) (p.step (s.awAccepted i) (s.sent i))
        (bDue - i.bvalid.toNat + (s.sent i && s.wlast).toNat)) := by
  have hsent : s.sent i = false := by simp [WrEngine.sent, h.wvalid]
  have hawa : s.awAccepted i = none := by simp [WrEngine.awAccepted, h.awvalid]
  have hbv := no_response hlegal h.due
  have hfifo := h.fifo.step hD false false x (fun hf => by cases hf)
    (fun hf => by cases hf)
  simp only [Bool.false_eq_true, if_false, List.append_nil] at hfifo
  -- nothing is left to issue, so `W_IDLE` waits
  have hnot : decide (s.wrIssued < s.wrTotal) = false := by
    rw [decide_eq_false_iff_not, BitVec.lt_def]
    have := h.nothing
    rw [BitVec.le_def] at this
    omega
  have hstep : s.step D i accept cb false x =
      { s with wf := s.wf.step D false false x,
               wrTotal := if accept then i.cmd.mRows else s.wrTotal,
               wrIssued := if accept then 0 else s.wrIssued,
               wrAcked := if accept then 0 else s.wrAcked } := by
    simp [WrEngine.step, hr, h.rest, hnot, hsent]
  rw [hsent, hawa, hbv, Port.step_quiet, hstep]
  refine ⟨rfl, ?_, ?_⟩
  · rintro rfl
    exact ⟨h.rest, h.awvalid, h.wvalid, h.port, by simp [h.due], by simpa using h.nothing, hfifo⟩
  · rintro rfl hfit
    exact ⟨rfl, Nat.zero_le _, hfit, le_rfl, rfl, hfifo,
      .idle h.rest h.awvalid h.wvalid h.port (by simp [h.due]) rfl rfl⟩

theorem writeRest_reset (D : ℕ) (hD : 0 < D) (accept : Bool) (cb : BitVec A) (wrEn : Bool)
    (x : Lanes32 N) (s : WrEngine N A) (hr : i.rst = true) :
    WriteRest D (s.step D i accept cb wrEn x) Port.idle 0 := by
  refine ⟨?_, ?_, ?_, rfl, rfl, ?_, ?_⟩
  · simp [WrEngine.step, hr]
  · simp [WrEngine.step, hr]
  · simp [WrEngine.step, hr]
  · simp [WrEngine.step, hr]
  · simpa [WrEngine.step, hr] using Fifo.represents_reset hD _

end rest

end DmaBridge
