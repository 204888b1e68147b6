import TensorAccel.Axi.DmaCommand

/-! # The two engines by themselves

    What holds of the state machines of the engines and of their ports in every
    run, whatever the row counts are and however the FIFOs fill up.  `Reading`
    and `Sending` follow a burst from its issue to its last beat or response;
    `Ports` adds how `bstate` keeps the engines apart. -/

open Clocked Ring Burst StreamCtrl

namespace DmaBridge

variable {N A : ℕ}

/-! ## The read engine -/

/-- Word `n` of a command starts a chunk of 16 rows, counted from the first weight
row or from the first activation row. -/
def ChunkStart (N n : ℕ) : Prop := (if n < N then n else n - N) % 16 = 0

/-- A read burst of command `c` from its word `n` on: some of the weight rows, or
some of the activation rows. -/
structure ReadBurst (N : ℕ) (c : Cmd A) (n : ℕ) (b : Req A) : Prop where
  pos : 0 < b.len
  short : b.len ≤ 16
  weights : n < N → n + b.len ≤ N
  rows : N ≤ n → n + b.len ≤ (BitVec.ofNat 32 N + c.mRows).toNat
  chunk : ChunkStart N n
  addr : b.addr = readAddr N c n

/-- A burst that has `more` beats to go ends before word `n`: with a chunk, with the
last word, or with the last free slot of the FIFO. -/
def BurstEnd (D : ℕ) (s : RdEngine N A) (n more : ℕ) : Prop :=
  ChunkStart N n ∨ s.rdTotal.toNat ≤ n ∨ s.rf.count + BitVec.ofNat 32 more = BitVec.ofNat 32 D

/-- The read engine and its port while command `c` is latched. -/
inductive Reading (D : ℕ) (c : Cmd A) (s : RdEngine N A) (p : Port A) : Prop
  | rest (hst : s.rstate ≠ .burst) (hr : s.rready = false) (hv : s.arvalid = false)
      (hp : p = Port.idle) (hend : s.rstate = .issue → BurstEnd D s s.rdIssued.toNat 0)
  | ar (hst : s.rstate = .burst) (hv : s.arvalid = true) (hp : p = Port.idle)
      (hb : ReadBurst N c s.rdIssued.toNat ⟨s.araddr, s.arlen.toNat + 1⟩)
      (hend : BurstEnd D s (s.rdIssued.toNat + (s.arlen.toNat + 1)) (s.arlen.toNat + 1))
  | data (b : Req A) (k n : ℕ) (hst : s.rstate = .burst) (hv : s.arvalid = false)
      (hp : p = Port.serving b k) (hk : k < b.len) (hn : s.rdIssued.toNat = n + k)
      (hb : ReadBurst N c n b) (hend : BurstEnd D s (n + b.len) (b.len - k))

section reading
variable {D : ℕ} {c : Cmd A} {s : RdEngine N A} {p : Port A} {i : DmaIn N A} {rdEn : Bool}

theorem ReadBurst.lt {n : ℕ} {b : Req A} (h : ReadBurst N c n b) (hN : N < 2 ^ 31) : n + b.len < 2 ^ 32 := by
  rcases Nat.lt_or_ge n N with hn | hn
  · have := h.weights hn
    omega
  · exact Nat.lt_of_le_of_lt (h.rows hn) (BitVec.isLt _)

/-- Bursts start with a chunk: behind the last free slot none is issued. -/
theorem BurstEnd.chunk (h : BurstEnd D s s.rdIssued.toNat 0) (hmore : s.rdIssued.toNat < s.rdTotal.toNat)
    (hlen : s.nextBurstLen D ≠ 0) : ChunkStart N s.rdIssued.toNat := by
  rcases h with hchunk | hover | hfull
  · exact hchunk
  · omega
  · have hcount : s.rf.count = BitVec.ofNat 32 D := by simpa using hfull
    have hmin := nextBurstLen_toNat D s
    rw [hcount, BitVec.sub_self] at hmin
    refine absurd (BitVec.eq_of_toNat_eq ?_) hlen
    simpa using hmin

theorem chunkStart_next {n : ℕ} (h : ChunkStart N n) (hle : n < N → n + 16 ≤ N) : ChunkStart N (n + 16) := by
  unfold ChunkStart at h ⊢
  split at h
  · next hn =>
    have := hle hn
    split <;> omega
  · split <;> omega

/-- The end of the burst that is issued. -/
theorem burstEnd_issue (hN : N < 2 ^ 31) (hchunk : ChunkStart N s.rdIssued.toNat)
    (hmore : s.rdIssued.toNat < s.rdTotal.toNat) :
    BurstEnd D s (s.rdIssued.toNat + (s.nextBurstLen D).toNat) (s.nextBurstLen D).toNat := by
  have hrem := rdRemaining_toNat hN rfl hmore
  have hmin := nextBurstLen_toNat D s
  have hcases : (s.nextBurstLen D).toNat = (BitVec.ofNat 32 D - s.rf.count).toNat ∨
      (s.nextBurstLen D).toNat = 16 ∨
        (s.nextBurstLen D).toNat = (s.rdRemaining s.rdIssued).toNat := by omega
  rcases hcases with hroom | h16 | hall
  · refine .inr (.inr ?_)
    rw [hroom, BitVec.ofNat_toNat, BitVec.setWidth_eq, BitVec.add_comm, BitVec.sub_add_cancel]
  · refine .inl ?_
    rw [h16]
    refine chunkStart_next hchunk fun hn => ?_
    rw [if_pos hn] at hrem
    omega
  · rw [hall, hrem]
    split
    · next hn =>
      -- the last weight row
      refine .inl ?_
      rw [Nat.add_sub_cancel' hn.le, ChunkStart, if_neg (lt_irrefl N), Nat.sub_self]
    · exact .inr (.inl (by omega))

/-- A beat takes a slot of the FIFO. -/
theorem BurstEnd.beat {s' : RdEngine N A} {n more : ℕ} (h : BurstEnd D s n (more + 1))
    (htotal : s'.rdTotal = s.rdTotal) (hcount : s'.rf.count = s.rf.count + 1) : BurstEnd D s' n more := by
  unfold BurstEnd at h ⊢
  rw [BitVec.ofNat_add, BitVec.add_comm (BitVec.ofNat 32 more)] at h
  rw [htotal, hcount, BitVec.add_assoc]
  exact h

/-- The burst that the state machine issues. -/
theorem readBurst_issue (hN : N < 2 ^ 31) (hl : Latched c s) (hchunk : ChunkStart N s.rdIssued.toNat)
    (hmore : s.rdIssued.toNat < s.rdTotal.toNat) (hlen : s.nextBurstLen D ≠ 0) :
    ReadBurst N c s.rdIssued.toNat
      ⟨s.rdNextAddr s.rdIssued, (s.nextBurstLen D - 1).toNat + 1⟩ := by
  have hrem := rdRemaining_toNat hN rfl hmore
  have hmin := nextBurstLen_toNat D s
  obtain ⟨hpos, hbeats⟩ := announced hlen
  rw [hbeats]
  refine ⟨hpos, ?_, ?_, ?_, hchunk, rdNextAddr_eq hN hl rfl⟩
  · show (s.nextBurstLen D).toNat ≤ 16
    omega
  · intro hn
    show s.rdIssued.toNat + (s.nextBurstLen D).toNat ≤ N
    rw [if_pos hn] at hrem
    omega
  · intro hn
    rw [← hl.total]
    show s.rdIssued.toNat + (s.nextBurstLen D).toNat ≤ s.rdTotal.toNat
    rw [if_neg (by omega)] at hrem
    omega

/-- One cycle of the read engine; `u_ctrl` pops words only while it idles. -/
theorem Reading.step (rdEn : Bool) (hN : N < 2 ^ 31) (h : Reading D c s p) (hl : s.rstate = .issue → Latched c s)
    (hpop : rdEn = true → s.rstate = .idle) (hr : i.rst = false)
    (hlegal : i.rvalid = true → p.pending ≠ [] ∧ i.rlast = p.lastBeat) :
    Reading D c (s.step D i false rdEn) (p.step (s.arAccepted i) (s.push i)) := by
  have hquiet : s.rstate ≠ .idle → rdEn = false := fun hst => by simpa using mt hpop hst
  cases h with
  | rest hst hrr hv hp hend =>
    -- no beat and no address can be accepted
    have hpush : s.push i = false := RdEngine.push_eq_false hrr
    have har : s.arAccepted i = none := RdEngine.arAccepted_eq_none hv
    have hv' : (s.tick D i rdEn).arvalid = false := by simp [RdEngine.tick, hv]
    rw [hpush, har, Port.step_quiet]
    cases hs : s.rstate with
    | idle =>
      rw [RdEngine.step_idle hr hs]
      exact .rest hst rfl hv' hp fun hf => by rw [RdEngine.tick, hs] at hf; cases hf
    | issue =>
      have hen := hquiet (by rw [hs]; simp)
      have hcount : (s.tick D i rdEn).rf.count = s.rf.count := by
        simp [RdEngine.tick, Fifo.step, hpush, hen]
      by_cases hover : s.rdTotal ≤ s.rdIssued
      · rw [RdEngine.step_issue_over hr hs hover]
        exact .rest (fun hf => by cases hf) rfl hv' hp fun hf => by cases hf
      · by_cases hlen : s.nextBurstLen D = 0
        · rw [RdEngine.step_issue_wait hr hs hover hlen]
          refine .rest hst rfl hv' hp fun _ => ?_
          rw [BurstEnd, hcount]
          exact hend hs
        · have hmore : s.rdIssued.toNat < s.rdTotal.toNat := by
            rw [BitVec.le_def] at hover
            omega
          have hchunk := (hend hs).chunk hmore hlen
          have hb := readBurst_issue hN (hl hs) hchunk hmore hlen
          have hlast := burstEnd_issue (D := D) hN hchunk hmore
          rw [← (announced hlen).2] at hlast
          rw [RdEngine.step_issue hr hs hv hover hlen]
          refine .ar rfl rfl hp hb ?_
          rw [BurstEnd]
          show ChunkStart N _ ∨ _ ∨ (s.tick D i rdEn).rf.count + _ = _
          rw [hcount]
          exact hlast
    | burst => exact absurd hs hst
  | ar hst hv hp hb hend =>
    -- nothing is pending, so the subordinate has no data to offer
    have hpush : s.push i = false := by
      by_contra hbeat
      rw [Bool.not_eq_false, RdEngine.push, Bool.and_eq_true] at hbeat
      exact (hlegal hbeat.1).1 (by rw [hp]; rfl)
    have hen := hquiet (by rw [hst]; simp)
    have hcount : (s.tick D i rdEn).rf.count = s.rf.count := by
      simp [RdEngine.tick, Fifo.step, hpush, hen]
    rw [RdEngine.step_burst_wait hr hst hpush, hpush]
    cases hready : i.arready with
    | false =>
      have har : s.arAccepted i = none := by simp [RdEngine.arAccepted, hready]
      have hv' : (s.tick D i rdEn).arvalid = true := by simp [RdEngine.tick, hv, hready]
      rw [har, Port.step_quiet]
      refine .ar hst hv' hp hb ?_
      rw [BurstEnd, hcount]
      exact hend
    | true =>
      have har : s.arAccepted i = some ⟨s.araddr, s.arlen.toNat + 1⟩ := by
        simp [RdEngine.arAccepted, hv, hready]
      have hv' : (s.tick D i rdEn).arvalid = false := by simp [RdEngine.tick, hready]
      rw [har, hp, Port.idle_accept]
      refine .data _ 0 s.rdIssued.toNat hst hv' rfl (Nat.succ_pos _) rfl hb ?_
      rw [BurstEnd, hcount]
      exact hend
  | data b k n hst hv hp hk hn hb hend =>
    have har : s.arAccepted i = none := RdEngine.arAccepted_eq_none hv
    have hv' : (s.tick D i rdEn).arvalid = false := by simp [RdEngine.tick, hv]
    have hen := hquiet (by rw [hst]; simp)
    rw [har]
    cases hpush : s.push i with
    | false =>
      have hcount : (s.tick D i rdEn).rf.count = s.rf.count := by
        simp [RdEngine.tick, Fifo.step, hpush, hen]
      rw [Port.step_quiet, RdEngine.step_burst_wait hr hst hpush]
      refine .data b k n hst hv' hp hk hn hb ?_
      rw [BurstEnd, hcount]
      exact hend
    | true =>
      have hvalid : i.rvalid = true := by
        rw [RdEngine.push, Bool.and_eq_true] at hpush
        exact hpush.1
      have hlast : i.rlast = (k + 1 == b.len) := by
        rw [(hlegal hvalid).2, hp, Port.serving_lastBeat]
      have hlt := hb.lt hN
      have hone : (s.rdIssued + 1).toNat = n + (k + 1) := by
        rw [BitVec.toNat_add, hn]
        exact Nat.mod_eq_of_lt (by simp; omega)
      have hcount : (s.tick D i rdEn).rf.count = s.rf.count + 1 := by
        simp [RdEngine.tick, Fifo.step, hpush, hen]
      rw [show b.len - k = b.len - (k + 1) + 1 by omega] at hend
      rw [hp]
      by_cases hover : k + 1 = b.len
      · rw [Port.serving_last hover, RdEngine.step_beat_last hr hst hpush (by simp [hlast, hover])]
        refine .rest (fun hf => by cases hf) rfl hv' rfl fun _ => ?_
        rw [hover, Nat.sub_self] at hend
        show BurstEnd D _ (s.rdIssued + 1).toNat 0
        rw [hone, hover]
        exact hend.beat rfl hcount
      · rw [Port.serving_next hover, RdEngine.step_beat_next hr hst hpush (by simp [hlast, hover])]
        exact .data b (k + 1) n hst hv' rfl (by omega) hone hb (hend.beat rfl hcount)

end reading

/-! ## Regions -/

/-- The weight rows of a command. -/
def weightRegion (N : ℕ) (c : Cmd A) : Req A := ⟨c.wBase, N⟩

/-- The activation rows of a command. -/
def actRegion (c : Cmd A) : Req A := ⟨c.aBase, c.mRows.toNat⟩

/-- The result rows of a command. -/
def resultRegion (c : Cmd A) : Req A := ⟨c.cBase, c.mRows.toNat⟩

/-- The burst on the AR channel. -/
def RdEngine.arBurst (s : RdEngine N A) : Req A := ⟨s.araddr, s.arlen.toNat + 1⟩

/-- The burst on the AW channel. -/
def WrEngine.awBurst (s : WrEngine N A) : Req A := ⟨s.awaddr, s.awlen.toNat + 1⟩

section regions
variable {c : Cmd A} {n : ℕ} {b : Req A}

/-- A read burst does not mix weights with activations, and begins with a chunk of
16 rows. -/
theorem ReadBurst.rowsOf (h : ReadBurst N c n b) : ∃ region ∈ [weightRegion N c, actRegion c],
    ∃ k, 16 ∣ k ∧ Req.RowsOf (rbytes N) region b k := by
  have hchunk := h.chunk
  have haddr := h.addr
  unfold ChunkStart at hchunk
  unfold readAddr at haddr
  by_cases hn : n < N
  · rw [if_pos hn] at hchunk haddr
    exact ⟨weightRegion N c, by simp, n, Nat.dvd_of_mod_eq_zero hchunk, h.pos, h.weights hn, haddr⟩
  · rw [if_neg hn] at hchunk haddr
    have hrows := h.rows (Nat.le_of_not_lt hn)
    have hpos := h.pos
    -- `rd_total` is at most the number of words of the command
    have hsum : (BitVec.ofNat 32 N + c.mRows).toNat ≤ N + c.mRows.toNat := by
      rw [BitVec.toNat_add, BitVec.toNat_ofNat, Nat.mod_add_mod]
      exact Nat.mod_le _ _
    refine ⟨actRegion c, by simp, n - N, Nat.dvd_of_mod_eq_zero hchunk, hpos, ?_, haddr⟩
    show n - N + b.len ≤ c.mRows.toNat
    omega

end regions

/-! ## The write engine -/

/-- The byte address of result row `k` of a command. -/
def rowAddr (N : ℕ) (c : Cmd A) (k : ℕ) : BitVec A := c.cBase + BitVec.ofNat A (k * wbytes N)

/-- The write engine and its port while command `c` is latched. -/
inductive Sending (c : Cmd A) (s : WrEngine N A) (p : Port A) (bDue : ℕ) : Prop
  | idle (hst : s.wstate = .idle) (haw : s.awvalid = false) (hw : s.wvalid = false)
      (hp : p = Port.idle) (hb : bDue = 0) (ha : s.wrAcked = s.wrIssued)
      (hle : s.wrIssued.toNat ≤ s.wrTotal.toNat)
  | aw (hst : s.wstate = .aw) (haw : s.awvalid = true) (hw : s.wvalid = false)
      (hp : p = Port.idle) (hb : bDue = 0) (ha : s.wrAcked = s.wrIssued)
      (hlen : s.wBurstLen.toNat = s.awlen.toNat + 1) (h16 : s.wBurstLen.toNat ≤ 16)
      (hcnt : s.wBeatCnt = 0) (haddr : s.awaddr = rowAddr N c s.wrIssued.toNat)
      (hle : s.wrIssued.toNat + s.wBurstLen.toNat ≤ s.wrTotal.toNat)
  | data (b : Req A) (k : ℕ) (hst : s.wstate = .data) (haw : s.awvalid = false)
      (hw : s.wvalid = true) (hp : p = Port.serving b k) (hb : bDue = 0)
      (ha : s.wrAcked = s.wrIssued) (hk : k < b.len) (hlen : s.wBurstLen.toNat = b.len)
      (h16 : b.len ≤ 16) (hcnt : s.wBeatCnt.toNat = k)
      (haddr : b.addr = rowAddr N c s.wrIssued.toNat)
      (hle : s.wrIssued.toNat + b.len ≤ s.wrTotal.toNat) (hlast : s.wlast = (k + 1 == b.len))
  | bresp (hst : s.wstate = .bresp) (haw : s.awvalid = false) (hw : s.wvalid = false)
      (hp : p = Port.idle) (hb : bDue = 1)
      (ha : s.wrAcked.toNat + s.wBurstLen.toNat = s.wrIssued.toNat) (hpos : 0 < s.wBurstLen.toNat)
      (hle : s.wrIssued.toNat ≤ s.wrTotal.toNat)

section sending
variable {D : ℕ} {c : Cmd A} {s : WrEngine N A} {p : Port A} {bDue : ℕ} {i : DmaIn N A} {cb : BitVec A}
  {wrEn : Bool} {x : Lanes32 N}

/-- A burst does not run past the command. -/
theorem nextWburstLen_le_rem (hlt : s.wrIssued < s.wrTotal) :
    s.wrIssued.toNat + s.nextWburstLen.toNat ≤ s.wrTotal.toNat := by
  have hrem : (s.wrTotal - s.wrIssued).toNat = s.wrTotal.toNat - s.wrIssued.toNat :=
    BitVec.toNat_sub_of_le (BitVec.le_def.mpr (Nat.le_of_lt hlt))
  have hlen := nextWburstLen_toNat s
  rw [hrem] at hlen
  rw [BitVec.lt_def] at hlt
  omega

/-- One cycle of the write engine while a command is latched. -/
theorem Sending.step (D : ℕ) (cb : BitVec A) (wrEn : Bool) (x : Lanes32 N) (h : Sending c s p bDue)
    (hr : i.rst = false) (hlegal : i.bvalid = true → 0 < bDue)
    (hcb : s.wrIssued < s.wrTotal → cb = c.cBase) :
    Sending c (s.step D i false cb wrEn x) (p.step (s.awAccepted i) (s.sent i))
      (bDue - i.bvalid.toNat + (s.sent i && s.wlast).toNat) := by
  cases h with
  | idle hst haw hw hp hb ha hle =>
    have hsent : s.sent i = false := WrEngine.sent_eq_false hw
    have hawa : s.awAccepted i = none := WrEngine.awAccepted_eq_none haw
    rw [hsent, hawa, no_response hlegal hb, Port.step_quiet]
    by_cases hgo : s.wrIssued < s.wrTotal ∧ s.nextWburstLen ≠ 0
    · obtain ⟨hlt, hne⟩ := hgo
      obtain ⟨-, hbeats⟩ := announced hne
      rw [WrEngine.step_issue hr hst hlt hne, hcb hlt]
      exact .aw rfl rfl hw hp (by simpa using hb) ha hbeats.symm (nextWburstLen_le s).1 rfl rfl
        (nextWburstLen_le_rem hlt)
    · rw [WrEngine.step_idle_wait hr hst hgo]
      exact .idle hst haw hw hp (by simpa using hb) ha hle
  | aw hst haw hw hp hb ha hlen h16 hcnt haddr hle =>
    have hsent : s.sent i = false := WrEngine.sent_eq_false hw
    rw [hsent, no_response hlegal hb]
    cases hready : i.awready with
    | false =>
      have hawa : s.awAccepted i = none := by simp [WrEngine.awAccepted, hready]
      rw [hawa, Port.step_quiet, WrEngine.step_aw_wait hr hst hready]
      exact .aw hst haw hw hp (by simpa using hb) ha hlen h16 hcnt haddr hle
    | true =>
      have hawa : s.awAccepted i = some ⟨s.awaddr, s.awlen.toNat + 1⟩ := by
        simp [WrEngine.awAccepted, haw, hready]
      -- the first beat is offered together with the state change
      have hbeat0 : s.wBeatCnt.toNat = 0 := by rw [hcnt]; rfl
      rw [hawa, hp, Port.idle_accept, WrEngine.step_aw_accepted hr hst haw hready]
      exact .data _ 0 rfl rfl rfl rfl (by simpa using hb) ha (Nat.succ_pos _) hlen (hlen ▸ h16)
        hbeat0 haddr (hlen ▸ hle) (one_beat_last hlen)
  | data b k hst haw hw hp hb ha hk hlen h16 hcnt haddr hle hlast =>
    have hawa : s.awAccepted i = none := WrEngine.awAccepted_eq_none haw
    rw [hawa, no_response hlegal hb]
    cases hsent : s.sent i with
    | false =>
      rw [Port.step_quiet, WrEngine.step_data_wait hr hst hsent]
      exact .data b k hst haw hw hp (by simpa using hb) ha hk hlen h16 hcnt haddr hle hlast
    | true =>
      have htotal := s.wrTotal.isLt
      rw [hp]
      by_cases hend : k + 1 = b.len
      · -- the whole burst counts as issued only now
        have hissued : (s.wrIssued + s.wBurstLen.setWidth 32).toNat = s.wrIssued.toNat + b.len := by
          rw [BitVec.toNat_add, BitVec.toNat_setWidth, hlen]
          omega
        rw [Port.serving_last hend, WrEngine.step_data_last hr hst hsent (by simp [hlast, hend])]
        refine .bresp rfl haw rfl rfl (by simp [hb, hlast, hend]) ?_ ?_ ?_
        · refine Eq.trans ?_ hissued.symm
          show s.wrAcked.toNat + s.wBurstLen.toNat = _
          rw [ha, hlen]
        · show 0 < s.wBurstLen.toNat
          omega
        · exact hissued.trans_le hle
      · rw [Port.serving_next hend, WrEngine.step_data_next hr hst hsent (by simp [hlast, hend])]
        exact .data b (k + 1) hst haw hw rfl (by simp [hb, hlast, hend]) ha (by omega) hlen h16
          (beat_count hcnt (by omega)) haddr hle (next_beat_last hcnt hlen h16)
  | bresp hst haw hw hp hb ha hpos hle =>
    have hsent : s.sent i = false := WrEngine.sent_eq_false hw
    have hawa : s.awAccepted i = none := WrEngine.awAccepted_eq_none haw
    rw [hsent, hawa, Port.step_quiet]
    cases hbv : i.bvalid with
    | false =>
      rw [WrEngine.step_bresp_wait hr hst hbv]
      exact .bresp hst haw hw hp (by simpa using hb) ha hpos hle
    | true =>
      -- the response pays for the burst that was issued last
      have hacked : s.wrAcked + s.wBurstLen.setWidth 32 = s.wrIssued := by
        apply BitVec.eq_of_toNat_eq
        rw [BitVec.toNat_add, BitVec.toNat_setWidth]
        omega
      rw [WrEngine.step_bresp hr hst hbv]
      exact .idle rfl haw hw hp (by simp [hb]) hacked hle

/-- The write engine at rest. -/
theorem Sending.rest (h : Sending c s p bDue) (hst : s.wstate = .idle) :
    s.awvalid = false ∧ s.wvalid = false ∧ p = Port.idle ∧ bDue = 0 ∧ s.wrAcked = s.wrIssued := by
  cases h with
  | idle _ haw hw hp hb ha => exact ⟨haw, hw, hp, hb, ha⟩
  | aw hst' => rw [hst] at hst'; cases hst'
  | data _ _ hst' => rw [hst] at hst'; cases hst'
  | bresp hst' => rw [hst] at hst'; cases hst'

/-- A start while the engine has nothing left to issue. -/
theorem WrEngine.step_accept (hr : i.rst = false) (hst : s.wstate = .idle) (hw : s.wvalid = false)
    (hnone : ¬ s.wrIssued < s.wrTotal) : s.step D i true cb wrEn x =
      { s with wf := s.wf.step D wrEn false x, wrTotal := i.cmd.mRows, wrIssued := 0, wrAcked := 0 } := by
  have hsent : s.sent i = false := WrEngine.sent_eq_false hw
  simp [WrEngine.step, hr, hst, hnone, hsent]

/-- When all rows are acknowledged, nothing is under way. -/
theorem Sending.over (h : Sending c s p bDue) (hover : s.wrTotal ≤ s.wrAcked) :
    s.wstate = .idle ∧ s.wrTotal = s.wrIssued := by
  rw [BitVec.le_def] at hover
  cases h with
  | idle hst _ _ _ _ ha hle =>
    rw [ha] at hover
    exact ⟨hst, BitVec.eq_of_toNat_eq (by omega)⟩
  | aw _ _ _ _ _ ha hlen _ _ _ hle => rw [ha] at hover; omega
  | data _ _ _ _ _ _ _ ha hk _ _ _ _ hle => rw [ha] at hover; omega
  | bresp _ _ _ _ _ ha hpos hle => omega

end sending

/-! ## Both engines -/

/-- `u_ctrl` works in `B_RUN` only. -/
structure CtrlInRun (s : Dma N A) : Prop where
  rest : s.bstate ≠ .run → CtrlIdle s
  launch : s.ctrlStart = true → s.core.ctrl.busy = false ∧ s.core.ctrl.done = false
  finish : s.core.ctrl.done = true → s.core.ctrl.busy = false

/-- The engines and the ports while `c` is the command accepted last. -/
structure Ports (d : Depths) (c : Cmd A) (s : Sys N A) : Prop where
  ctrl : CtrlInRun s.dma
  reading : Reading d.rd c s.dma.rd s.bus.rd
  sending : Sending c s.dma.wr s.bus.wr s.bus.bDue
  latched : s.dma.busy = true → Latched c s.dma.rd ∧ s.dma.wr.wrTotal = c.mRows
  fetched : s.dma.bstate ≠ .prefetch → s.dma.rd.rstate = .idle
  free : s.dma.busy = false → s.dma.wr.wstate = .idle ∧ s.dma.wr.wrTotal = s.dma.wr.wrIssued

section ports
variable {d : Depths} {c : Cmd A} {s : Sys N A} {i : DmaIn N A}

/-- The write engine in a cycle in which no start is accepted. -/
theorem Sys.step_wr (hacc : s.dma.accept i = false) : (s.step d i).dma.wr =
    s.dma.wr.step d.wr i false s.dma.rd.cBaseLat s.dma.core.ctrl.wrEn s.dma.core.wrData := by
  simp [Sys.step, Dma.step, hacc]

/-- The read engine at rest. -/
theorem Reading.idle {D : ℕ} {e : RdEngine N A} {p : Port A} (h : Reading D c e p) (hst : e.rstate = .idle) :
    e.rready = false ∧ e.arvalid = false ∧ p = Port.idle := by
  cases h with
  | rest _ hr hv hp => exact ⟨hr, hv, hp⟩
  | ar hst' => rw [hst] at hst'; cases hst'
  | data _ _ _ hst' => rw [hst] at hst'; cases hst'

/-- `busy` rises only with an accepted start. -/
theorem busy_rises (hr : i.rst = false) (hacc : s.dma.accept i = false)
    (hbusy : (s.step d i).dma.busy = true) : s.dma.busy = true := by
  by_contra hfree
  have hb : s.dma.bstate = .idle := by simpa [Dma.busy] using hfree
  have hstart : i.start = false := by simpa [Dma.accept, Dma.busy, hb] using hacc
  simp [Dma.busy, Sys.step, Dma.step, hr, hb, hstart] at hbusy

/-- It falls only when all rows are acknowledged. -/
theorem busy_falls (hr : i.rst = false) (hbusy : s.dma.busy = true)
    (hlow : (s.step d i).dma.busy = false) :
    s.dma.bstate = .drain ∧ s.dma.wr.wrTotal ≤ s.dma.wr.wrAcked := by
  cases hb : s.dma.bstate with
  | idle => simp [Dma.busy, hb] at hbusy
  | prefetch =>
    cases hall : s.dma.rd.allBuffered <;> simp [Dma.busy, Sys.step, Dma.step, hr, hb, hall] at hlow
  | run =>
    cases hdone : s.dma.core.ctrl.done <;> simp [Dma.busy, Sys.step, Dma.step, hr, hb, hdone] at hlow
  | drain =>
    refine ⟨rfl, ?_⟩
    by_contra hmore
    simp [Dma.busy, Sys.step, Dma.step, hr, hb, hmore] at hlow

theorem CtrlInRun.step (h : CtrlInRun s.dma) (hr : i.rst = false) : CtrlInRun (s.step d i).dma := by
  have hctrl : (s.step d i).dma.core.ctrl =
      Ctrl.step (Core.ctrlIn (s.dma.coreIn i) s.dma.core) s.dma.core.ctrl := rfl
  -- from rest it stays at rest without a start pulse
  have hidle : s.dma.ctrlStart = false → s.dma.core.ctrl.busy = false →
      (s.step d i).dma.core.ctrl.busy = false ∧ (s.step d i).dma.core.ctrl.done = false := by
    intro hstart hbusy
    obtain ⟨hbusy', hdone', -, -⟩ := ctrl_idle_step d hr hstart hbusy
    exact ⟨hbusy', hdone'⟩
  refine ⟨?_, ?_, ?_⟩
  · intro hne
    cases hb : s.dma.bstate with
    | prefetch =>
      have hrest := h.rest (by rw [hb]; simp)
      obtain ⟨hbusy, hdone⟩ := hidle hrest.start hrest.busy
      refine ⟨?_, hbusy, hdone⟩
      by_contra hlaunch
      have hall : s.dma.rd.allBuffered = true := by
        simpa [Sys.step, Dma.step, hr, hb] using hlaunch
      simp [Sys.step, Dma.step, hr, hb, hall] at hne
    | run =>
      -- the run ends with the done pulse
      have hdone : s.dma.core.ctrl.done = true := by
        by_contra hlow
        simp [Sys.step, Dma.step, hr, hb, hlow] at hne
      have hstart : s.dma.ctrlStart = false := by
        by_contra hlaunch
        rw [(h.launch (by simpa using hlaunch)).2] at hdone
        cases hdone
      obtain ⟨hbusy', hdone'⟩ := hidle hstart (h.finish hdone)
      exact ⟨by simp [Sys.step, Dma.step, hb], hbusy', hdone'⟩
    | idle =>
      have hrest := h.rest (by rw [hb]; simp)
      obtain ⟨hbusy, hdone⟩ := hidle hrest.start hrest.busy
      exact ⟨by simp [Sys.step, Dma.step, hb], hbusy, hdone⟩
    | drain =>
      have hrest := h.rest (by rw [hb]; simp)
      obtain ⟨hbusy, hdone⟩ := hidle hrest.start hrest.busy
      exact ⟨by simp [Sys.step, Dma.step, hb], hbusy, hdone⟩
  · intro hlaunch
    have hb : s.dma.bstate = .prefetch := by
      have hsplit := hlaunch
      simp only [Sys.step, Dma.step, Bool.and_eq_true, beq_iff_eq] at hsplit
      exact hsplit.1.2
    have hrest := h.rest (by rw [hb]; simp)
    exact hidle hrest.start hrest.busy
  · intro hdone
    rw [hctrl] at hdone ⊢
    exact Ctrl.idle_of_done hr hdone

theorem ctrlInRun_reset (d : Depths) (s : Sys N A) (hr : i.rst = true) : CtrlInRun (s.step d i).dma := by
  have hrest := (readRest_reset d s hr).ctrl
  refine ⟨fun _ => hrest, ?_, ?_⟩
  · intro hlaunch
    rw [hrest.start] at hlaunch
    cases hlaunch
  · intro hdone
    rw [hrest.done] at hdone
    cases hdone

/-- The read engine works while the words of a command are fetched. -/
theorem Ports.fetching (h : Ports d c s) (hst : s.dma.rd.rstate ≠ .idle) : s.dma.bstate = .prefetch := by
  by_contra hne
  exact hst (h.fetched hne)

theorem Ports.busy_of_fetching (h : Ports d c s) (hst : s.dma.rd.rstate ≠ .idle) : s.dma.busy = true := by
  simp [Dma.busy, h.fetching hst]

/-- The write engine works in a command only. -/
theorem Ports.busy_of_sending (h : Ports d c s) (hst : s.dma.wr.wstate ≠ .idle) : s.dma.busy = true := by
  by_contra hfree
  exact hst (h.free (by simpa using hfree)).1

theorem Ports.busy_of_left (h : Ports d c s) (hlt : s.dma.wr.wrIssued < s.dma.wr.wrTotal) :
    s.dma.busy = true := by
  by_contra hfree
  rw [(h.free (by simpa using hfree)).2, BitVec.lt_def] at hlt
  omega

/-- `u_ctrl` pops no word while the read engine works. -/
theorem Ports.pop (h : Ports d c s) (hen : s.dma.core.ctrl.rdEn = true) : s.dma.rd.rstate = .idle := by
  refine h.fetched fun hb => ?_
  rw [(Ctrl.no_strobe (h.ctrl.rest (by rw [hb]; simp)).busy).1] at hen
  cases hen

/-- An accepted start resets the row counts. -/
theorem Ports.accept_wr (h : Ports d c s) (hr : i.rst = false) (hacc : s.dma.accept i = true) :
    (s.step d i).dma.wr =
      { s.dma.wr with
        wf := s.dma.wr.wf.step d.wr s.dma.core.ctrl.wrEn false s.dma.core.wrData,
        wrTotal := i.cmd.mRows, wrIssued := 0, wrAcked := 0 } := by
  have hfree : i.start = true ∧ s.dma.busy = false := by simpa [Dma.accept] using hacc
  have hb : s.dma.bstate = .idle := by simpa [Dma.busy] using hfree.2
  have hst : s.dma.rd.rstate = .idle := h.fetched (by rw [hb]; simp)
  obtain ⟨hw, htotal⟩ := h.free hfree.2
  obtain ⟨-, hwv, -, -, -⟩ := h.sending.rest hw
  have hnone : ¬ s.dma.wr.wrIssued < s.dma.wr.wrTotal := by
    rw [htotal, BitVec.lt_def]
    omega
  simp only [Sys.step, Dma.step, hacc, hst]
  exact WrEngine.step_accept hr hw hwv hnone

/-- A cycle in which a command is accepted. -/
theorem Ports.accept (h : Ports d c s) (hr : i.rst = false) (hlegal : s.Legal i)
    (hacc : s.dma.accept i = true) : Ports d i.cmd (s.step d i) := by
  -- the start pulse finds both engines at rest and both ports idle
  have hsplit : i.start = true ∧ s.dma.busy = false := by simpa [Dma.accept] using hacc
  have hb : s.dma.bstate = .idle := by simpa [Dma.busy] using hsplit.2
  have hst : s.dma.rd.rstate = .idle := h.fetched (by rw [hb]; simp)
  obtain ⟨hrr, hv, hp⟩ := h.reading.idle hst
  obtain ⟨hw, -⟩ := h.free hsplit.2
  obtain ⟨haw, hwv, hwp, hdue, -⟩ := h.sending.rest hw
  have hsent : s.dma.wr.sent i = false := WrEngine.sent_eq_false hwv
  have hawa : s.dma.wr.awAccepted i = none := WrEngine.awAccepted_eq_none haw
  have hpush : s.dma.rd.push i = false := RdEngine.push_eq_false hrr
  have har : s.dma.rd.arAccepted i = none := RdEngine.arAccepted_eq_none hv
  have hb' : (s.step d i).dma.bstate = .prefetch := by simp [Sys.step, Dma.step, hr, hb, hsplit.1]
  have hrd : (s.step d i).dma.rd =
      { s.dma.rd.tick d.rd i s.dma.core.ctrl.rdEn with
        wBaseLat := i.cmd.wBase, aBaseLat := i.cmd.aBase, cBaseLat := i.cmd.cBase,
        rdTotal := BitVec.ofNat 32 N + i.cmd.mRows, rdIssued := 0, rstate := .issue } := by
    simp only [Sys.step, Dma.step, hacc]
    exact RdEngine.step_accept hr hst
  have hwr := h.accept_wr hr hacc
  refine ⟨h.ctrl.step hr, .rest ?_ ?_ ?_ ?_ fun _ => .inl ?_, ?_, fun _ => ⟨?_, ?_⟩,
    fun hne => absurd hb' hne, ?_⟩
  · simp [hrd]
  · simp [hrd, RdEngine.tick]
  · simp [hrd, RdEngine.tick, hv]
  · simp [Sys.step, hr, hpush, har, hp]
  · simp [hrd, ChunkStart]
  · rw [hwr]
    refine .idle hw haw hwv ?_ ?_ rfl (Nat.zero_le _)
    · simp [Sys.step, hr, hsent, hawa, hwp]
    · simp [Sys.step, hr, hsent, no_response hlegal.bvalid hdue, hdue]
  · rw [hrd]
    exact ⟨rfl, rfl, rfl, rfl⟩
  · rw [hwr]
  · intro hfree
    simp [Dma.busy, hb'] at hfree

/-- Any other cycle. -/
theorem Ports.stay (hN : N < 2 ^ 31) (h : Ports d c s) (hr : i.rst = false) (hlegal : s.Legal i)
    (hacc : s.dma.accept i = false) : Ports d c (s.step d i) := by
  have hrd : (s.step d i).dma.rd = s.dma.rd.step d.rd i false s.dma.core.ctrl.rdEn := by
    simp [Sys.step, Dma.step, hacc]
  have hwr := Sys.step_wr (d := d) hacc
  -- outside a command neither engine can issue anything
  have hread := h.reading.step s.dma.core.ctrl.rdEn hN
    (fun hst => (h.latched (h.busy_of_fetching (by rw [hst]; simp))).1) h.pop hr hlegal.rvalid
  have hsend := h.sending.step d.wr s.dma.rd.cBaseLat s.dma.core.ctrl.wrEn s.dma.core.wrData hr
    hlegal.bvalid (fun hlt => (h.latched (h.busy_of_left hlt)).1.cBase)
  -- with all rows issued the write engine stays where it is
  have hkeep : s.dma.wr.wstate = .idle → s.dma.wr.wrTotal = s.dma.wr.wrIssued →
      (s.step d i).dma.wr.wstate = .idle ∧
        (s.step d i).dma.wr.wrTotal = (s.step d i).dma.wr.wrIssued := by
    intro hst htotal
    rw [hwr, WrEngine.step_idle_wait hr hst (fun hlt => by
      rw [htotal, BitVec.lt_def] at hlt
      omega)]
    exact ⟨hst, htotal⟩
  have hfree' : (s.step d i).dma.busy = false → s.dma.wr.wstate = .idle ∧
      s.dma.wr.wrTotal = s.dma.wr.wrIssued := by
    intro hlow
    cases hbusy : s.dma.busy with
    | false => exact h.free hbusy
    | true => exact h.sending.over (busy_falls hr hbusy hlow).2
  have hidle' : (s.step d i).dma.bstate ≠ .prefetch → s.dma.rd.rstate = .idle := by
    intro hne
    cases hb : s.dma.bstate with
    | prefetch =>
      by_cases hall : s.dma.rd.allBuffered = true
      · simp only [RdEngine.allBuffered, Bool.and_eq_true, beq_iff_eq] at hall
        exact hall.1.2
      · simp [Sys.step, Dma.step, hr, hb, hall] at hne
    | _ => exact h.fetched (by rw [hb]; simp)
  refine ⟨h.ctrl.step hr, ?_, ?_, ?_, ?_, ?_⟩
  · rw [hrd]
    simpa [Sys.step, hr] using hread
  · rw [hwr]
    simpa [Sys.step, hr] using hsend
  · intro hbusy'
    obtain ⟨hl, hrows⟩ := h.latched (busy_rises hr hacc hbusy')
    rw [hrd, hwr, (wrEngine_frame d.wr _ _ _ s.dma.wr hr).2]
    exact ⟨hl.step hr _, hrows⟩
  · intro hne
    have hst := hidle' hne
    rw [hrd, RdEngine.step_idle hr hst]
    exact hst
  · intro hlow
    obtain ⟨hst, htotal⟩ := hfree' hlow
    exact hkeep hst htotal

/-- After a reset. -/
theorem ports_reset (d : Depths) (c : Cmd A) (s : Sys N A) (hr : i.rst = true) :
    Ports d c (s.step d i) := by
  have hread := readRest_reset d s hr
  have hfree : (s.step d i).dma.busy = false := by simp [Dma.busy, hread.bstate]
  refine ⟨ctrlInRun_reset d s hr, .rest (by rw [hread.rest]; simp) hread.rready hread.arvalid hread.port
    (fun hf => by rw [hread.rest] at hf; cases hf), ?_, ?_, fun _ => hread.rest, ?_⟩
  · refine .idle ?_ ?_ ?_ ?_ ?_ ?_ ?_
    all_goals simp [Sys.step, Dma.step, WrEngine.step, hr]
  · intro hbusy
    rw [hfree] at hbusy
    cases hbusy
  · intro _
    simp [Sys.step, Dma.step, WrEngine.step, hr]

end ports

/-! ## Runs -/

section runs
variable {d : Depths} {p : Sys N A} {i : ℕ → DmaIn N A} {r t : ℕ}

/-- In every cycle after a reset the latched command is the one that made `busy` rise. -/
theorem ports_run (hN : N < 2 ^ 31) (hr : (i r).rst = true) (hrt : r < t)
    (hrun : ∀ u, r < u → u < t → (i u).rst = false)
    (hlegal : ∀ u, r < u → u < t → (run (Sys.step d) p i u).Legal (i u)) :
    ∃ c, Ports d c (run (Sys.step d) p i t) ∧ ((run (Sys.step d) p i t).dma.busy = true →
      ∃ a, r < a ∧ a < t ∧ Accepts d p i a ∧ BusyBetween d p i a (t + 1) ∧ c = (i a).cmd) := by
  induction t, hrt using Nat.le_induction with
  | base =>
    have hrest := readRest_reset (i := i r) d (run (Sys.step d) p i r) hr
    refine ⟨(i r).cmd, ports_reset d _ _ hr, ?_⟩
    intro hbusy
    rw [run_succ, Dma.busy, hrest.bstate] at hbusy
    cases hbusy
  | succ t hrt ih =>
    obtain ⟨c, hports, hcmd⟩ := ih (fun u hu hut => hrun u hu (by omega))
      (fun u hu hut => hlegal u hu (by omega))
    have hrst := hrun t hrt (Nat.lt_succ_self t)
    have hleg := hlegal t hrt (Nat.lt_succ_self t)
    cases hacc : (run (Sys.step d) p i t).dma.accept (i t) with
    | true =>
      -- the new command replaces the one latched
      have hsplit : Accepts d p i t := by simpa [Dma.accept, Accepts] using hacc
      refine ⟨(i t).cmd, hports.accept hrst hleg hacc, fun hbusy => ⟨t, hrt, Nat.lt_succ_self t, hsplit, ?_, rfl⟩⟩
      intro u hu hut
      obtain rfl : u = t + 1 := by omega
      exact hbusy
    | false =>
      refine ⟨c, hports.stay hN hrst hleg hacc, ?_⟩
      intro hbusy
      obtain ⟨a, hra, hat, hacc', hbetween, rfl⟩ := hcmd (busy_rises hrst hacc hbusy)
      refine ⟨a, hra, by omega, hacc', ?_, rfl⟩
      intro u hu hut
      rcases Nat.lt_succ_iff_lt_or_eq.mp hut with hlt | rfl
      · exact hbetween u hu hlt
      · exact hbusy

end runs

end DmaBridge
