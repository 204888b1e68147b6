import TensorAccel.Axi.DmaBridge
import TensorAccel.Stream.Pipeline

/-! # The read side of the bridge

    A command goes through five positions: its words are fetched, `u_ctrl` is
    launched, runs, and finishes, and the results drain.  `ReadSide` says for
    each of them what the read engine, the read FIFO and `u_ctrl` hold, given
    the log of the read beats of the command.  Nothing is assumed about the
    write side. -/

open Clocked Ring Burst StreamCtrl
open Ctrl (Fits Phase Running)

namespace DmaBridge

variable {N A : ℕ}

/-! ## The log of a command -/

/-- The byte address of word `j` of a command: first the weight rows, then the
activation rows. -/
def readAddr (N : ℕ) (c : Cmd A) (j : ℕ) : BitVec A :=
  if j < N then c.wBase + BitVec.ofNat A (j * rbytes N)
  else c.aBase + BitVec.ofNat A ((j - N) * rbytes N)

/-- Accepted read beats with their addresses. -/
abbrev ReadLog (N A : ℕ) := List (Option (BitVec A) × Lanes8 N)

namespace ReadLog

def words (l : ReadLog N A) : List (Lanes8 N) := l.map Prod.snd

/-- Word `j` of the log; the zeros beyond its end are never used. -/
def word (l : ReadLog N A) (j : ℕ) : Lanes8 N := (words l)[j]?.getD fun _ => 0

/-- The beats fell on the addresses of the command, in order. -/
def InOrder (c : Cmd A) (l : ReadLog N A) : Prop :=
  l.map Prod.fst = (List.range l.length).map fun j => some (readAddr N c j)

@[simp] theorem words_length (l : ReadLog N A) : (words l).length = l.length := by simp [words]

theorem inOrder_nil (c : Cmd A) : InOrder c ([] : ReadLog N A) := rfl

theorem InOrder.snoc {c : Cmd A} {l : ReadLog N A} (h : InOrder c l) (x : Lanes8 N) :
    InOrder c (l ++ [(some (readAddr N c l.length), x)]) := by
  unfold InOrder at h ⊢
  rw [List.map_append, h, List.length_append, List.length_singleton, List.range_succ,
    List.map_append]
  rfl

end ReadLog

open ReadLog

/-! ## One equation per state of the read engine -/

namespace RdEngine

section equations
variable {D : ℕ} {i : DmaIn N A} {s : RdEngine N A} {rdEn : Bool}

/-- What a clock edge does in every state. -/
def tick (D : ℕ) (i : DmaIn N A) (rdEn : Bool) (s : RdEngine N A) : RdEngine N A :=
  { s with arvalid := s.arvalid && !i.arready
           ctrlRdData := if rdEn then s.rf.head else s.ctrlRdData
           rf := s.rf.step D (s.push i) rdEn i.rdata
           rready := false }

theorem step_idle (hr : i.rst = false) (hs : s.rstate = .idle) :
    s.step D i false rdEn = s.tick D i rdEn := by
  simp [step, tick, hr, hs]

theorem step_accept (hr : i.rst = false) (hs : s.rstate = .idle) :
    s.step D i true rdEn =
      { s.tick D i rdEn with
        wBaseLat := i.cmd.wBase, aBaseLat := i.cmd.aBase, cBaseLat := i.cmd.cBase,
        rdTotal := BitVec.ofNat 32 N + i.cmd.mRows, rdIssued := 0, rstate := .issue } := by
  simp [step, tick, hr, hs]

theorem step_issue_over (hr : i.rst = false) (hs : s.rstate = .issue)
    (hend : s.rdTotal ≤ s.rdIssued) :
    s.step D i false rdEn = { s.tick D i rdEn with rstate := .idle } := by
  simp [step, tick, hr, hs, hend]

/-- No room: the state machine waits for a pop. -/
theorem step_issue_wait (hr : i.rst = false) (hs : s.rstate = .issue)
    (hmore : ¬ s.rdTotal ≤ s.rdIssued) (hlen : s.nextBurstLen D = 0) :
    s.step D i false rdEn = s.tick D i rdEn := by
  simp [step, tick, hr, hs, hmore, hlen]

theorem step_issue (hr : i.rst = false) (hs : s.rstate = .issue) (hv : s.arvalid = false)
    (hmore : ¬ s.rdTotal ≤ s.rdIssued) (hlen : s.nextBurstLen D ≠ 0) :
    s.step D i false rdEn =
      { s.tick D i rdEn with araddr := s.rdNextAddr s.rdIssued, arlen := s.nextBurstLen D - 1,
                             arvalid := true, rstate := .burst } := by
  have hne : s.nextBurstLen D ≠ 0#8 := hlen
  simp [step, tick, hr, hs, hmore, hne, hv]

theorem step_burst_wait (hr : i.rst = false) (hs : s.rstate = .burst) (hpush : s.push i = false) :
    s.step D i false rdEn = { s.tick D i rdEn with rready := true } := by
  simp [step, tick, hr, hs, hpush]

theorem step_beat_last (hr : i.rst = false) (hs : s.rstate = .burst) (hpush : s.push i = true)
    (hlast : i.rlast = true) :
    s.step D i false rdEn =
      { s.tick D i rdEn with rdIssued := s.rdIssued + 1, rstate := .issue } := by
  simp [step, tick, hr, hs, hpush, hlast]

theorem step_beat_next (hr : i.rst = false) (hs : s.rstate = .burst) (hpush : s.push i = true)
    (hlast : i.rlast = false) :
    s.step D i false rdEn =
      { s.tick D i rdEn with rdIssued := s.rdIssued + 1, rready := true } := by
  simp [step, tick, hr, hs, hpush, hlast]

end equations

end RdEngine

/-! ## Fetching -/

/-- The latched parameters of a command. -/
structure Latched (c : Cmd A) (s : RdEngine N A) : Prop where
  wBase : s.wBaseLat = c.wBase
  aBase : s.aBaseLat = c.aBase
  cBase : s.cBaseLat = c.cBase
  total : s.rdTotal = BitVec.ofNat 32 N + c.mRows

/-- The beats of burst `b` from beat `k` on, when `n` words were read: they
fall on the next addresses, fit into the FIFO and do not run past the command. -/
structure Ahead (N D : ℕ) (c : Cmd A) (total n : ℕ) (b : Req A) (k : ℕ) : Prop where
  more : k < b.len
  room : n + (b.len - k) ≤ D
  within : n + (b.len - k) ≤ max N total
  addr : ∀ x, k + x < b.len →
    b.addr + BitVec.ofNat A ((k + x) * rbytes N) = readAddr N c (n + x)

theorem Ahead.next {D total n k : ℕ} {c : Cmd A} {b : Req A} (h : Ahead N D c total n b k)
    (hk : k + 1 ≠ b.len) : Ahead N D c total (n + 1) b (k + 1) := by
  have hmore := h.more
  have hroom := h.room
  have hwithin := h.within
  refine ⟨by omega, by omega, by omega, ?_⟩
  intro x hx
  have haddr := h.addr (x + 1) (by omega)
  rw [show k + (x + 1) = k + 1 + x by omega, show n + (x + 1) = n + 1 + x by omega] at haddr
  exact haddr

/-- The state machine of the read engine after `n` read beats. -/
inductive Fetching (D : ℕ) (c : Cmd A) (n : ℕ) (s : RdEngine N A) (p : Port A) : Prop
  | rest (hst : s.rstate ≠ .burst) (hr : s.rready = false) (hv : s.arvalid = false)
      (hp : p = Port.idle)
  | ar (hst : s.rstate = .burst) (hv : s.arvalid = true) (hp : p = Port.idle)
      (hb : Ahead N D c s.rdTotal.toNat n ⟨s.araddr, s.arlen.toNat + 1⟩ 0)
  | data (b : Req A) (k : ℕ) (hst : s.rstate = .burst) (hv : s.arvalid = false)
      (hp : p = Port.serving b k) (hb : Ahead N D c s.rdTotal.toNat n b k)

/-- The read engine while the words of command `c` are fetched. -/
structure Prefetched (D : ℕ) (c : Cmd A) (l : ReadLog N A) (s : RdEngine N A) (p : Port A) :
    Prop where
  latched : Latched c s
  fifo : s.rf.Represents D (words l)
  issued : s.rdIssued.toNat = l.length
  inOrder : InOrder c l
  within : l.length ≤ max N s.rdTotal.toNat
  fetching : Fetching D c l.length s p

section prefetched
variable {D : ℕ} {c : Cmd A} {l : ReadLog N A} {s : RdEngine N A} {p : Port A} {i : DmaIn N A}

theorem Prefetched.count (h : Prefetched D c l s p) : s.rf.count.toNat = l.length := by
  rw [← h.fifo.length, words_length]

theorem Prefetched.cap (h : Prefetched D c l s p) : l.length ≤ D := by
  rw [← h.count]
  exact Holds.cap h.fifo

/-- An `int` parameter in a 32-bit context. -/
theorem toNat_ofNat_int {n : ℕ} (hn : n < 2 ^ 31) : (BitVec.ofNat 32 n).toNat = n := by
  rw [BitVec.toNat_ofNat]
  exact Nat.mod_eq_of_lt (by omega)

theorem rdRemaining_toNat (hN : N < 2 ^ 31) {n : ℕ} (hn : s.rdIssued.toNat = n)
    (hmore : n < s.rdTotal.toNat) :
    (s.rdRemaining s.rdIssued).toNat = if n < N then N - n else s.rdTotal.toNat - n := by
  have hNw := toNat_ofNat_int hN
  have hlt : s.rdIssued < BitVec.ofNat 32 N ↔ n < N := by rw [BitVec.lt_def, hNw, hn]
  rw [RdEngine.rdRemaining]
  by_cases hnN : n < N
  · rw [if_pos hnN, if_pos (hlt.mpr hnN), BitVec.toNat_sub_of_le, hNw, hn]
    rw [BitVec.le_def, hNw, hn]
    omega
  · rw [if_neg hnN, if_neg (mt hlt.mp hnN), BitVec.toNat_sub_of_le, hn]
    rw [BitVec.le_def, hn]
    omega

/-- The minimum of two 32-bit values fits into 8 bits if one of them does. -/
theorem min_setWidth (x y : BitVec 32) (hy : y.toNat ≤ 16) :
    (if x < y then x.setWidth 8 else y.setWidth 8).toNat = min x.toNat y.toNat := by
  split
  · next h =>
    rw [BitVec.lt_def] at h
    rw [BitVec.toNat_setWidth]
    omega
  · next h =>
    rw [BitVec.lt_def] at h
    rw [BitVec.toNat_setWidth]
    omega

/-- The minimum is taken over 32 bits and only then cut to 8. -/
theorem nextBurstLen_toNat (D : ℕ) (s : RdEngine N A) : (s.nextBurstLen D).toNat =
    min (s.rdRemaining s.rdIssued).toNat (min 16 (BitVec.ofNat 32 D - s.rf.count).toNat) := by
  have hroom8 : (if (16 : BitVec 32) < BitVec.ofNat 32 D - s.rf.count then (16 : BitVec 32)
      else BitVec.ofNat 32 D - s.rf.count).toNat =
        min 16 (BitVec.ofNat 32 D - s.rf.count).toNat := by
    have h16 : (16 : BitVec 32).toNat = 16 := rfl
    split
    · next h => rw [BitVec.lt_def, h16] at h; rw [h16]; omega
    · next h => rw [BitVec.lt_def, h16] at h; omega
  rw [RdEngine.nextBurstLen, min_setWidth _ _ (by rw [hroom8]; omega), hroom8]

/-- A burst never asks for more words than the FIFO has room for, nor across
the border between weights and activations. -/
theorem nextBurstLen_spec (hN : N < 2 ^ 31) (hD : D < 2 ^ 31) {n : ℕ} (hn : s.rdIssued.toNat = n)
    (hcnt : s.rf.count.toNat = n) (hcap : n ≤ D) (hmore : n < s.rdTotal.toNat) :
    n + (s.nextBurstLen D).toNat ≤ D ∧
      (n < N → n + (s.nextBurstLen D).toNat ≤ N) ∧
      (N ≤ n → n + (s.nextBurstLen D).toNat ≤ s.rdTotal.toNat) := by
  have hrem := rdRemaining_toNat hN hn hmore
  have hDw := toNat_ofNat_int hD
  have hroom : (BitVec.ofNat 32 D - s.rf.count).toNat = D - n := by
    rw [BitVec.toNat_sub_of_le, hDw, hcnt]
    rw [BitVec.le_def, hDw, hcnt]
    exact hcap
  have hlen := nextBurstLen_toNat D s
  rw [hroom] at hlen
  split at hrem <;> omega

/-- The words of a burst lie one after the other. -/
theorem readAddr_add (c : Cmd A) {n x : ℕ} (h : n < N → n + x < N) :
    readAddr N c n + BitVec.ofNat A (x * rbytes N) = readAddr N c (n + x) := by
  by_cases hn : n < N
  · rw [readAddr, readAddr, if_pos hn, if_pos (h hn), BitVec.add_assoc, ← BitVec.ofNat_add,
      ← Nat.add_mul]
  · rw [readAddr, readAddr, if_neg hn, if_neg (by omega), BitVec.add_assoc, ← BitVec.ofNat_add,
      ← Nat.add_mul, show n - N + x = n + x - N by omega]

/-- The address of a new burst is the one of the next word. -/
theorem rdNextAddr_eq (hN : N < 2 ^ 31) (hl : Latched c s) {n : ℕ} (hn : s.rdIssued.toNat = n) :
    s.rdNextAddr s.rdIssued = readAddr N c n := by
  have hNw := toNat_ofNat_int hN
  have hlt : s.rdIssued < BitVec.ofNat 32 N ↔ n < N := by rw [BitVec.lt_def, hNw, hn]
  rw [RdEngine.rdNextAddr, readAddr, hl.wBase, hl.aBase, hn]
  exact if_congr hlt rfl rfl

/-- What a cycle without a start leaves alone, and the register behind the FIFO. -/
theorem rdEngine_frame (D : ℕ) (i : DmaIn N A) (s : RdEngine N A) (rdEn : Bool) (hr : i.rst = false) :
    (s.step D i false rdEn).wBaseLat = s.wBaseLat ∧
      (s.step D i false rdEn).aBaseLat = s.aBaseLat ∧
      (s.step D i false rdEn).cBaseLat = s.cBaseLat ∧
      (s.step D i false rdEn).rdTotal = s.rdTotal ∧
      (s.step D i false rdEn).ctrlRdData = if rdEn then s.rf.head else s.ctrlRdData := by
  unfold RdEngine.step
  rw [hr]
  cases s.rstate with
  | idle => simp
  | issue =>
    simp only [Bool.false_eq_true, if_false]
    split
    · simp
    · split <;> simp
  | burst =>
    simp only [Bool.false_eq_true, if_false]
    split
    · split <;> simp
    · simp

theorem Latched.step (h : Latched c s) (hr : i.rst = false) (rdEn : Bool) :
    Latched c (s.step D i false rdEn) := by
  obtain ⟨hw, ha, hc, ht, -⟩ := rdEngine_frame D i s rdEn hr
  exact ⟨hw.trans h.wBase, ha.trans h.aBase, hc.trans h.cBase, ht.trans h.total⟩

/-- The burst that the state machine issues after `n` words. -/
theorem ahead_issue (hN : N < 2 ^ 31) (hD : D < 2 ^ 31) (h : Prefetched D c l s p)
    (hmore : ¬ s.rdTotal ≤ s.rdIssued) (hlen : s.nextBurstLen D ≠ 0) :
    Ahead N D c s.rdTotal.toNat l.length
      ⟨s.rdNextAddr s.rdIssued, (s.nextBurstLen D - 1).toNat + 1⟩ 0 := by
  have hlt : l.length < s.rdTotal.toNat := by
    rw [BitVec.le_def, h.issued] at hmore
    omega
  obtain ⟨hroom, hweight, hact⟩ := nextBurstLen_spec hN hD h.issued h.count h.cap hlt
  obtain ⟨hpos, hbeats⟩ := announced hlen
  rw [rdNextAddr_eq hN h.latched h.issued, hbeats]
  -- a burst of weights stays below `N`, one of activations below the total
  refine ⟨hpos, by simpa using hroom, ?_, ?_⟩
  · rcases Nat.lt_or_ge l.length N with hn | hn
    · have := hweight hn
      simp only [Nat.sub_zero]
      omega
    · have := hact hn
      simp only [Nat.sub_zero]
      omega
  · intro x hx
    simp only [Nat.zero_add] at hx ⊢
    exact readAddr_add c fun hn => by have := hweight hn; omega

/-- The state machine moves on; the monitor follows its bursts. -/
theorem Prefetched.fetching_step (hN : N < 2 ^ 31) (hD : D < 2 ^ 31) (h : Prefetched D c l s p)
    (hr : i.rst = false)
    (hlegal : i.rvalid = true → p.pending ≠ [] ∧ i.rlast = p.lastBeat) :
    Fetching D c (l.length + (s.push i).toNat) (s.step D i false false)
        (p.step (s.arAccepted i) (s.push i)) ∧
      (s.step D i false false).rdIssued.toNat = l.length + (s.push i).toNat ∧
      l.length + (s.push i).toNat ≤ max N s.rdTotal.toNat ∧
      (s.push i = true → l.length < D ∧ p.beatAddr (rbytes N) = some (readAddr N c l.length)) := by
  have hissued := h.issued
  have hwithin := h.within
  have hcap := h.cap
  cases h.fetching with
  | rest hst hrr hv hp =>
    -- no beat and no address can be accepted
    have hpush : s.push i = false := RdEngine.push_eq_false hrr
    have har : s.arAccepted i = none := RdEngine.arAccepted_eq_none hv
    rw [hpush, har, Port.step_quiet]
    have hv' : (s.tick D i false).arvalid = false := by simp [RdEngine.tick, hv]
    cases hs : s.rstate with
    | idle =>
      rw [RdEngine.step_idle hr hs]
      exact ⟨.rest hst rfl hv' hp, hissued, hwithin, fun hfalse => by cases hfalse⟩
    | issue =>
      by_cases hend : s.rdTotal ≤ s.rdIssued
      · rw [RdEngine.step_issue_over hr hs hend]
        exact ⟨.rest (fun hf => by cases hf) rfl hv' hp, hissued, hwithin, fun hfalse => by cases hfalse⟩
      · by_cases hlen : s.nextBurstLen D = 0
        · rw [RdEngine.step_issue_wait hr hs hend hlen]
          exact ⟨.rest hst rfl hv' hp, hissued, hwithin, fun hfalse => by cases hfalse⟩
        · rw [RdEngine.step_issue hr hs hv hend hlen]
          exact ⟨.ar rfl rfl hp (ahead_issue hN hD h hend hlen), hissued, hwithin,
            fun hfalse => by cases hfalse⟩
    | burst => exact absurd hs hst
  | ar hst hv hp hb =>
    -- nothing is pending, so the subordinate has no data to offer
    have hpush : s.push i = false := by
      by_contra hbeat
      rw [Bool.not_eq_false, RdEngine.push, Bool.and_eq_true] at hbeat
      exact (hlegal hbeat.1).1 (by rw [hp]; rfl)
    rw [RdEngine.step_burst_wait hr hst hpush, hpush]
    refine ⟨?_, hissued, hwithin, fun hfalse => by cases hfalse⟩
    cases hready : i.arready with
    | false =>
      have har : s.arAccepted i = none := by simp [RdEngine.arAccepted, hready]
      have hv' : (s.tick D i false).arvalid = true := by simp [RdEngine.tick, hv, hready]
      rw [har, Port.step_quiet]
      exact .ar hst hv' hp hb
    | true =>
      have har : s.arAccepted i = some ⟨s.araddr, s.arlen.toNat + 1⟩ := by
        simp [RdEngine.arAccepted, hv, hready]
      have hv' : (s.tick D i false).arvalid = false := by simp [RdEngine.tick, hready]
      rw [har, hp, Port.idle_accept]
      exact .data _ 0 hst hv' rfl hb
  | data b k hst hv hp hb =>
    have har : s.arAccepted i = none := RdEngine.arAccepted_eq_none hv
    have hv' : (s.tick D i false).arvalid = false := by simp [RdEngine.tick, hv]
    rw [har]
    cases hpush : s.push i with
    | false =>
      rw [Port.step_quiet, RdEngine.step_burst_wait hr hst hpush]
      exact ⟨.data b k hst hv' hp hb, hissued, hwithin, fun hfalse => by cases hfalse⟩
    | true =>
      have hvalid : i.rvalid = true := by
        rw [RdEngine.push, Bool.and_eq_true] at hpush
        exact hpush.1
      -- the engine has no beat counter: the subordinate must flag the last beat
      have hlast : i.rlast = (k + 1 == b.len) := by
        rw [(hlegal hvalid).2, hp, Port.serving_lastBeat]
      have hmore := hb.more
      have hroom := hb.room
      have hpass := hb.within
      have hone : (s.rdIssued + 1).toNat = l.length + 1 := by
        rw [BitVec.toNat_add, hissued]
        exact Nat.mod_eq_of_lt (by simp; omega)
      have hle : l.length + true.toNat ≤ max N s.rdTotal.toNat := by
        rw [Bool.toNat_true]
        omega
      have haddr : p.beatAddr (rbytes N) = some (readAddr N c l.length) := by
        rw [hp, Port.serving_beatAddr]
        simpa using hb.addr 0 (by omega)
      rw [hp] at haddr ⊢
      by_cases hend : k + 1 = b.len
      · rw [Port.serving_last hend, RdEngine.step_beat_last hr hst hpush (by simp [hlast, hend])]
        exact ⟨.rest (fun hf => by cases hf) rfl hv' rfl, hone, hle, fun _ => ⟨by omega, haddr⟩⟩
      · rw [Port.serving_next hend, RdEngine.step_beat_next hr hst hpush (by simp [hlast, hend])]
        exact ⟨.data b (k + 1) hst hv' rfl (hb.next hend), hone, hle, fun _ => ⟨by omega, haddr⟩⟩

/-- One cycle of fetching. -/
theorem Prefetched.step (hN : N < 2 ^ 31) (hD : D < 2 ^ 31) (h : Prefetched D c l s p)
    (hr : i.rst = false)
    (hlegal : i.rvalid = true → p.pending ≠ [] ∧ i.rlast = p.lastBeat) :
    Prefetched D c (l ++ if s.push i then [(p.beatAddr (rbytes N), i.rdata)] else [])
      (s.step D i false false) (p.step (s.arAccepted i) (s.push i)) := by
  obtain ⟨hfetch, hissued, hwithin, hbeat⟩ := h.fetching_step hN hD hr hlegal
  obtain ⟨-, -, -, htotal, -⟩ := rdEngine_frame D i s false hr
  have hrf := s.step_rf D false false hr
  have hfifo := h.fifo.step hD (s.push i) false i.rdata
    (fun hfalse => by cases hfalse) (fun hpush => by
      rw [words_length]
      exact (hbeat hpush).1)
  rw [← hrf] at hfifo
  rw [← htotal] at hwithin
  cases hpush : s.push i with
  | false =>
    simp only [hpush, Bool.toNat_false, Nat.add_zero, Bool.false_eq_true, if_false,
      List.append_nil] at *
    exact ⟨h.latched.step hr false, hfifo, hissued, h.inOrder, hwithin, hfetch⟩
  | true =>
    rw [(hbeat hpush).2]
    simp only [hpush, Bool.toNat_true, Bool.false_eq_true, if_false, if_true] at *
    refine ⟨h.latched.step hr false, ?_, by simpa using hissued, h.inOrder.snoc _,
      by simpa using hwithin, by simpa using hfetch⟩
    simpa [words] using hfifo

end prefetched

/-! ## Loaded -/

/-- All words of command `c` were read, and `j` of them popped since. -/
structure Loaded (D : ℕ) (c : Cmd A) (l : ReadLog N A) (j : ℕ) (s : RdEngine N A) (p : Port A) :
    Prop where
  latched : Latched c s
  rest : s.rstate = .idle
  rready : s.rready = false
  arvalid : s.arvalid = false
  port : p = Port.idle
  inOrder : InOrder c l
  total : l.length = s.rdTotal.toNat
  cap : l.length ≤ D
  fifo : s.rf.Represents D ((words l).drop j)

section loaded
variable {D j : ℕ} {c : Cmd A} {l : ReadLog N A} {s : RdEngine N A} {p : Port A} {i : DmaIn N A}

/-- `rd_all_buffered`. -/
theorem Prefetched.loaded (h : Prefetched D c l s p) (hall : s.allBuffered = true) :
    Loaded D c l 0 s p := by
  simp only [RdEngine.allBuffered, Bool.and_eq_true, beq_iff_eq] at hall
  obtain ⟨⟨⟨-, hissued⟩, hst⟩, -⟩ := hall
  have htotal : l.length = s.rdTotal.toNat := by rw [← h.issued, hissued]
  cases h.fetching with
  | rest _ hr hv hp => exact ⟨h.latched, hst, hr, hv, hp, h.inOrder, htotal, h.cap, h.fifo⟩
  | ar hst' => rw [hst] at hst'; cases hst'
  | data b k hst' => rw [hst] at hst'; cases hst'

/-- Nothing is read any more; a strobe pops the next word. -/
theorem Loaded.step (hD : D < 2 ^ 31) (h : Loaded D c l j s p) (hr : i.rst = false) {rdEn : Bool}
    (hpop : rdEn = true → j < l.length) :
    Loaded D c l (j + rdEn.toNat) (s.step D i false rdEn) (p.step (s.arAccepted i) (s.push i)) := by
  have hpush : s.push i = false := by simp [RdEngine.push, h.rready]
  have har : s.arAccepted i = none := by simp [RdEngine.arAccepted, h.arvalid]
  obtain ⟨-, -, -, htotal, -⟩ := rdEngine_frame D i s rdEn hr
  have hrf := s.step_rf D false rdEn hr
  have hfifo := h.fifo.step hD (s.push i) rdEn i.rdata
    (fun hen => by
      rw [← List.length_pos_iff, List.length_drop, words_length]
      have := hpop hen
      omega)
    (fun hp => by rw [hpush] at hp; cases hp)
  rw [← hrf, hpush] at hfifo
  rw [hpush, har, Port.step_quiet]
  refine ⟨h.latched.step hr rdEn, ?_, ?_, ?_, h.port, h.inOrder, by rw [htotal]; exact h.total,
    h.cap, ?_⟩
  · rw [RdEngine.step_idle hr h.rest]
    exact h.rest
  · rw [RdEngine.step_idle hr h.rest]
    rfl
  · simp [RdEngine.step_idle hr h.rest, RdEngine.tick, h.arvalid]
  · cases rdEn with
    | false => simpa using hfifo
    | true => simpa [List.tail_drop] using hfifo

/-- The word that a strobe pops. -/
theorem Loaded.head (h : Loaded D c l j s p) (hj : j < l.length) : s.rf.head = word l j := by
  have hj' : j < (words l).length := by rw [words_length]; exact hj
  have hfifo := h.fifo
  rw [List.drop_eq_getElem_cons hj'] at hfifo
  rw [hfifo.head, word, List.getElem?_eq_getElem hj', Option.getD_some]

end loaded

/-! ## Positions -/

/-- Where a command stands. `ctrl m n` is `n` cycles after the launch of `u_ctrl`
on `m` rows, up to and including the cycle of its done pulse. -/
inductive Pos
  | fetch
  | launch
  | ctrl (m : BitVec 32) (n : ℕ)
  | drain

/-- The position in the next cycle, `none` when the command is over. -/
def Pos.next (i : DmaIn N A) (s : Dma N A) : Pos → Option Pos
  | .fetch => if s.rd.allBuffered then some .launch else some .fetch
  | .launch => some (.ctrl i.cmd.mRows 1)
  | .ctrl m n => if n = 4 * N + m.toNat + 3 then some .drain else some (.ctrl m (n + 1))
  | .drain => if s.wr.wrTotal ≤ s.wr.wrAcked then none else some .drain

/-- `u_ctrl` rests. -/
structure CtrlIdle (s : Dma N A) : Prop where
  start : s.ctrlStart = false
  busy : s.core.ctrl.busy = false
  done : s.core.ctrl.done = false

/-- The parameters of `u_ctrl`. -/
def ctrlCmd (m : BitVec 32) : Cmd 32 := ⟨0, 0, 0, m⟩

/-- The read side of command `c` at each position, `l` being its read beats. -/
inductive ReadSide (d : Depths) (c : Cmd A) (l : ReadLog N A) (s : Sys N A) : Pos → Prop
  | fetch (hb : s.dma.bstate = .prefetch) (hc : CtrlIdle s.dma)
      (h : Prefetched d.rd c l s.dma.rd s.bus.rd) : ReadSide d c l s .fetch
  | launch (hb : s.dma.bstate = .run) (hstart : s.dma.ctrlStart = true)
      (hbusy : s.dma.core.ctrl.busy = false) (hdone : s.dma.core.ctrl.done = false)
      (h : Loaded d.rd c l 0 s.dma.rd s.bus.rd) : ReadSide d c l s .launch
  | ctrl (m : BitVec 32) (n : ℕ) (hb : s.dma.bstate = .run) (hstart : s.dma.ctrlStart = false)
      (hrun : Running (ctrlCmd m) n s.dma.core.ctrl) (hn : 1 ≤ n) (hn' : n ≤ 4 * N + m.toNat + 2)
      (hlen : l.length = N + max 1 m.toNat)
      (h : Loaded d.rd c l (readsBefore N m.toNat n) s.dma.rd s.bus.rd) :
      ReadSide d c l s (.ctrl m n)
  | finish (m : BitVec 32) (hb : s.dma.bstate = .run) (hstart : s.dma.ctrlStart = false)
      (hbusy : s.dma.core.ctrl.busy = false) (hdone : s.dma.core.ctrl.done = true)
      (h : Loaded d.rd c l l.length s.dma.rd s.bus.rd) :
      ReadSide d c l s (.ctrl m (4 * N + m.toNat + 3))
  | drain (hb : s.dma.bstate = .drain) (hc : CtrlIdle s.dma)
      (h : Loaded d.rd c l l.length s.dma.rd s.bus.rd) : ReadSide d c l s .drain

/-- The read side between two commands. -/
structure ReadRest (d : Depths) (s : Sys N A) : Prop where
  bstate : s.dma.bstate = .idle
  ctrl : CtrlIdle s.dma
  rest : s.dma.rd.rstate = .idle
  rready : s.dma.rd.rready = false
  arvalid : s.dma.rd.arvalid = false
  port : s.bus.rd = Port.idle
  fifo : s.dma.rd.rf.Represents d.rd []

section steps
variable {d : Depths} {c : Cmd A} {l : ReadLog N A} {s : Sys N A} {i : DmaIn N A} {pos pos' : Pos}

theorem ReadSide.bstate_ne (h : ReadSide d c l s pos) : s.dma.bstate ≠ .idle := by
  cases h <;> simp [*]

theorem ReadSide.accept (h : ReadSide d c l s pos) (i : DmaIn N A) : s.dma.accept i = false := by
  simp [Dma.accept, Dma.busy, h.bstate_ne]

/-- The read engine fetches, or has fetched everything. -/
theorem ReadSide.engine (h : ReadSide d c l s pos) :
    (pos = .fetch ∧ Prefetched d.rd c l s.dma.rd s.bus.rd) ∨
      ∃ j, Loaded d.rd c l j s.dma.rd s.bus.rd := by
  cases h with
  | fetch _ _ h => exact .inl ⟨rfl, h⟩
  | launch _ _ _ _ h => exact .inr ⟨0, h⟩
  | ctrl m n _ _ _ _ _ _ h => exact .inr ⟨_, h⟩
  | finish _ _ _ _ _ h => exact .inr ⟨_, h⟩
  | drain _ _ h => exact .inr ⟨_, h⟩

theorem ReadSide.latched (h : ReadSide d c l s pos) : Latched c s.dma.rd := by
  rcases h.engine with ⟨-, h⟩ | ⟨j, h⟩
  · exact h.latched
  · exact h.latched

theorem ReadSide.fifo_cap (h : ReadSide d c l s pos) : s.dma.rd.rf.count.toNat ≤ d.rd := by
  rcases h.engine with ⟨-, h⟩ | ⟨j, h⟩
  · exact Holds.cap h.fifo
  · exact Holds.cap h.fifo

/-- `u_ctrl` stays idle without a start pulse, and has no strobe. -/
theorem ctrl_idle_step (d : Depths) (hr : i.rst = false) (hstart : s.dma.ctrlStart = false)
    (hbusy : s.dma.core.ctrl.busy = false) :
    (s.step d i).dma.core.ctrl.busy = false ∧ (s.step d i).dma.core.ctrl.done = false ∧
      s.dma.core.ctrl.rdEn = false ∧ s.dma.core.ctrl.wrEn = false := by
  have hidle := Ctrl.state_of_idle hbusy
  have hctrl : (s.step d i).dma.core.ctrl = _ :=
    Ctrl.step_idle (i := Core.ctrlIn (s.dma.coreIn i) s.dma.core) hr hidle hstart
  exact ⟨by simp [hctrl, Ctrl.busy, hidle], by simp [hctrl], Ctrl.no_strobe hbusy⟩

/-- After a reset. -/
theorem readRest_reset (d : Depths) (s : Sys N A) (hr : i.rst = true) : ReadRest d (s.step d i) := by
  have hctrl := Ctrl.step_rst (i := Core.ctrlIn (s.dma.coreIn i) s.dma.core)
    (s := s.dma.core.ctrl) hr
  refine ⟨by simp [Sys.step, Dma.step, hr], ⟨by simp [Sys.step, Dma.step, hr], ?_, hctrl.2⟩, ?_, ?_,
    ?_, by simp [Sys.step, hr], ?_⟩
  · simp [Sys.step, Dma.step, Core.step, Ctrl.busy, hctrl.1]
  · simp [Sys.step, Dma.step, RdEngine.step, hr]
  · simp [Sys.step, Dma.step, RdEngine.step, hr]
  · simp [Sys.step, Dma.step, RdEngine.step, hr]
  · simpa [Sys.step, Dma.step, RdEngine.step, hr] using Fifo.represents_reset d.rd_pos _

/-- Between two commands: a start pulse begins to fetch. -/
theorem ReadRest.step (h : ReadRest d s) (hr : i.rst = false) :
    s.dma.rd.push i = false ∧
      (i.start = true → ReadSide d i.cmd [] (s.step d i) .fetch) ∧
      (i.start = false → ReadRest d (s.step d i)) := by
  obtain ⟨hbusy, hdone, hen, -⟩ := ctrl_idle_step d hr h.ctrl.start h.ctrl.busy
  have hpush : s.dma.rd.push i = false := by simp [RdEngine.push, h.rready]
  have har : s.dma.rd.arAccepted i = none := by simp [RdEngine.arAccepted, h.arvalid]
  have hport : (s.step d i).bus.rd = Port.idle := by
    simp [Sys.step, hr, har, hpush, h.port]
  -- nothing is pushed, so the FIFO stays empty
  have hfifo : (s.dma.rd.tick d.rd i false).rf.Represents d.rd [] := by
    simpa [RdEngine.tick, hpush] using h.fifo.step d.rd_lt false false i.rdata
      (fun hf => by cases hf) (fun hf => by cases hf)
  have hv : (s.dma.rd.tick d.rd i false).arvalid = false := by simp [RdEngine.tick, h.arvalid]
  refine ⟨hpush, ?_, ?_⟩
  · intro hstart
    have hacc : s.dma.accept i = true := by simp [Dma.accept, Dma.busy, h.bstate, hstart]
    have hrd : (s.step d i).dma.rd = s.dma.rd.step d.rd i true false := by
      simp [Sys.step, Dma.step, hacc, hen]
    refine .fetch (by simp [Sys.step, Dma.step, hr, h.bstate, hstart])
      ⟨by simp [Sys.step, Dma.step, hr, h.bstate], hbusy, hdone⟩ ?_
    rw [hrd, RdEngine.step_accept hr h.rest]
    exact ⟨⟨rfl, rfl, rfl, rfl⟩, hfifo, rfl, inOrder_nil _, Nat.zero_le _,
      .rest (fun hf => by cases hf) rfl hv hport⟩
  · intro hstart
    have hacc : s.dma.accept i = false := by simp [Dma.accept, hstart]
    have hrd : (s.step d i).dma.rd = s.dma.rd.tick d.rd i false := by
      simp [Sys.step, Dma.step, hacc, hen, RdEngine.step_idle hr h.rest]
    refine ⟨by simp [Sys.step, Dma.step, hr, h.bstate, hstart],
      ⟨by simp [Sys.step, Dma.step, hr, h.bstate], hbusy, hdone⟩, ?_, ?_, ?_, hport, ?_⟩
    · rw [hrd]
      exact h.rest
    · rw [hrd]
      rfl
    · rw [hrd]
      exact hv
    · rw [hrd]
      exact hfifo

/-- The read engine while `u_ctrl` works from the FIFO. -/
theorem Loaded.sys_step {j : ℕ} (h : Loaded d.rd c l j s.dma.rd s.bus.rd) (hr : i.rst = false)
    (hacc : s.dma.accept i = false) (hpop : s.dma.core.ctrl.rdEn = true → j < l.length) :
    Loaded d.rd c l (j + s.dma.core.ctrl.rdEn.toNat) (s.step d i).dma.rd (s.step d i).bus.rd ∧
      s.rBeat i = none := by
  have hpush : s.dma.rd.push i = false := by simp [RdEngine.push, h.rready]
  refine ⟨?_, by simp [Sys.rBeat, hpush]⟩
  have hnext := h.step d.rd_lt hr hpop
  simpa [Sys.step, Dma.step, hr, hacc] using hnext

/-- The row count of the launch matches the words that were fetched. -/
def LaunchOk (i : DmaIn N A) (s : Dma N A) : Prop :=
  s.ctrlStart = true → s.rd.rdTotal.toNat = N + max 1 i.cmd.mRows.toNat

instance (i : DmaIn N A) (s : Dma N A) : Decidable (LaunchOk i s) :=
  inferInstanceAs (Decidable (_ → _))

/-- The strobes of `u_ctrl` while it runs: as many as words were read. -/
theorem reads_step {m : BitVec 32} {n D : ℕ} (hN : 0 < N) (hD : D < 2 ^ 31) (hcap : l.length ≤ D)
    (hrun : Running (ctrlCmd m) n s.dma.core.ctrl) (hlen : l.length = N + max 1 m.toNat) :
    readsBefore N m.toNat (n + 1) = readsBefore N m.toNat n + s.dma.core.ctrl.rdEn.toNat ∧
      (s.dma.core.ctrl.rdEn = true → readsBefore N m.toNat n < l.length) := by
  have hsucc : readsBefore N m.toNat (n + 1) =
      readsBefore N m.toNat n + s.dma.core.ctrl.rdEn.toNat :=
    readsBefore_succ (n := n) hN hrun.rows (by show m.toNat + (2 * N - 1) < _; omega) hrun.phase
  refine ⟨hsucc, ?_⟩
  intro hen
  have hle := readsBefore_le N m.toNat (n + 1)
  rw [hen, Bool.toNat_true] at hsucc
  omega

/-- One cycle of a command. -/
theorem ReadSide.step (hN : 0 < N) (hN' : N < 2 ^ 31) (h : ReadSide d c l s pos)
    (hr : i.rst = false) (hlegal : s.Legal i) (hok : LaunchOk i s.dma)
    (hnext : pos.next i s.dma = some pos') :
    ReadSide d c (l ++ (s.rBeat i).toList) (s.step d i) pos' := by
  have hacc := h.accept i
  cases h with
  | fetch hb hc h =>
    obtain ⟨hbusy, hdone, hen, -⟩ := ctrl_idle_step d hr hc.start hc.busy
    cases hall : s.dma.rd.allBuffered with
    | false =>
      obtain rfl : Pos.fetch = pos' := by simpa [Pos.next, hall] using hnext
      have hpre := h.step hN' d.rd_lt hr hlegal.rvalid
      refine .fetch (by simp [Sys.step, Dma.step, hr, hb, hall])
        ⟨by simp [Sys.step, Dma.step, hr, hb, hall], hbusy, hdone⟩ ?_
      have hbeat : (s.rBeat i).toList = if s.dma.rd.push i = true
          then [(s.bus.rd.beatAddr (rbytes N), i.rdata)] else [] := by
        unfold Sys.rBeat
        split <;> rfl
      simpa [Sys.step, Dma.step, hr, hacc, hen, hbeat] using hpre
    | true =>
      obtain rfl : Pos.launch = pos' := by simpa [Pos.next, hall] using hnext
      obtain ⟨hload, hbeat⟩ := (h.loaded hall).sys_step hr hacc (by simp [hen])
      rw [hbeat, Option.toList_none, List.append_nil]
      rw [hen] at hload
      exact .launch (by simp [Sys.step, Dma.step, hr, hb, hall])
        (by simp [Sys.step, Dma.step, hr, hb, hall]) hbusy hdone hload
  | launch hb hstart hbusy hdone h =>
    obtain rfl : Pos.ctrl i.cmd.mRows 1 = pos' := by simpa [Pos.next] using hnext
    have hen := (Ctrl.no_strobe hbusy).1
    obtain ⟨hload, hbeat⟩ := h.sys_step hr hacc (by simp [hen])
    rw [hbeat, Option.toList_none, List.append_nil]
    -- nothing was strobed before the first cycle of the run
    have hzero : readsBefore N i.cmd.mRows.toNat 1 = 0 + s.dma.core.ctrl.rdEn.toNat := by
      rw [hen, readsBefore, if_pos (by omega)]
      simp
    rw [← hzero] at hload
    have hrunning := Ctrl.running_start (i := Core.ctrlIn (s.dma.coreIn i) s.dma.core) hN hr hbusy hstart
    exact .ctrl i.cmd.mRows 1 (by simp [Sys.step, Dma.step, hr, hb, hdone])
      (by simp [Sys.step, Dma.step, hr, hb]) hrunning le_rfl (by omega)
      (by rw [h.total]; exact hok hstart) hload
  | ctrl m n hb hstart hrun hn hn' hlen h =>
    have hcap := h.cap
    have hrd := d.rd_lt
    have hf : Fits N 32 m.toNat := ⟨hN, by omega, by omega⟩
    have hle := readsBefore_le N m.toNat (n + 1)
    obtain ⟨hsucc, hlt⟩ := reads_step hN hrd hcap hrun hlen
    obtain ⟨hload, hbeat⟩ := h.sys_step hr hacc hlt
    rw [hbeat, Option.toList_none, List.append_nil]
    have hundone : s.dma.core.ctrl.done = false := hrun.undone
    have hb' : (s.step d i).dma.bstate = .run := by simp [Sys.step, Dma.step, hr, hb, hundone]
    have hstart' : (s.step d i).dma.ctrlStart = false := by simp [Sys.step, Dma.step, hr, hb]
    obtain rfl : Pos.ctrl m (n + 1) = pos' := by
      simpa [Pos.next, show n ≠ 4 * N + m.toNat + 3 by omega] using hnext
    by_cases hend : n = 4 * N + m.toNat + 2
    · -- the done pulse comes next, and every word has been strobed for
      subst hend
      have hall := readsBefore_all hN m.toNat
      have hlast : (s.step d i).dma.core.ctrl = _ :=
        hrun.last (i := Core.ctrlIn (s.dma.coreIn i) s.dma.core) hN hr
      have hj : readsBefore N m.toNat (4 * N + m.toNat + 2) + s.dma.core.ctrl.rdEn.toNat =
          l.length := by omega
      rw [hj] at hload
      exact .finish m hb' hstart' (by simp [hlast, Ctrl.busy]) (by simp [hlast]) hload
    · rw [← hsucc] at hload
      exact .ctrl m (n + 1) hb' hstart'
        (hrun.step (i := Core.ctrlIn (s.dma.coreIn i) s.dma.core) hf hr
          (by show n < 4 * N + m.toNat + 2; omega)) (by omega) (by omega) hlen hload
  | finish m hb hstart hbusy hdone h =>
    obtain rfl : Pos.drain = pos' := by simpa [Pos.next] using hnext
    obtain ⟨hbusy', hdone', hen, -⟩ := ctrl_idle_step d hr hstart hbusy
    obtain ⟨hload, hbeat⟩ := h.sys_step hr hacc (by simp [hen])
    rw [hbeat, Option.toList_none, List.append_nil]
    rw [hen] at hload
    exact .drain (by simp [Sys.step, Dma.step, hr, hb, hdone])
      ⟨by simp [Sys.step, Dma.step, hr, hb], hbusy', hdone'⟩ hload
  | drain hb hc h =>
    obtain ⟨hbusy, hdone, hen, -⟩ := ctrl_idle_step d hr hc.start hc.busy
    obtain ⟨hload, hbeat⟩ := h.sys_step hr hacc (by simp [hen])
    rw [hbeat, Option.toList_none, List.append_nil]
    rw [hen] at hload
    by_cases hover : s.dma.wr.wrTotal ≤ s.dma.wr.wrAcked
    · simp [Pos.next, hover] at hnext
    · obtain rfl : Pos.drain = pos' := by simpa [Pos.next, hover] using hnext
      exact .drain (by simp [Sys.step, Dma.step, hr, hb, hover])
        ⟨by simp [Sys.step, Dma.step, hr, hb], hbusy, hdone⟩ hload

/-- `done` rises only at the end of a drain. -/
theorem ReadSide.undone (h : ReadSide d c l s pos) (hnext : pos.next i s.dma = some pos') :
    (s.step d i).dma.done = false := by
  cases h with
  | drain hb _ _ =>
    by_cases hover : s.dma.wr.wrTotal ≤ s.dma.wr.wrAcked
    · simp [Pos.next, hover] at hnext
    · simp [Sys.step, Dma.step, hover]
  | fetch hb => simp [Sys.step, Dma.step, hb]
  | launch hb => simp [Sys.step, Dma.step, hb]
  | ctrl _ _ hb => simp [Sys.step, Dma.step, hb]
  | finish _ hb => simp [Sys.step, Dma.step, hb]

/-- Read beats are accepted only while words are fetched. -/
theorem ReadSide.quiet (h : ReadSide d c l s pos) (hpos : pos ≠ .fetch) (i : DmaIn N A) :
    s.rBeat i = none := by
  rcases h.engine with ⟨hfetch, -⟩ | ⟨j, h⟩
  · exact absurd hfetch hpos
  · simp [Sys.rBeat, RdEngine.push, h.rready]

/-- The last cycle of a command. -/
theorem ReadSide.last (h : ReadSide d c l s pos) (hr : i.rst = false)
    (hnext : pos.next i s.dma = none) :
    ReadRest d (s.step d i) ∧ pos = .drain ∧ s.rBeat i = none := by
  have hacc := h.accept i
  cases h with
  | drain hb hc h =>
    obtain ⟨hbusy, hdone, hen, -⟩ := ctrl_idle_step d hr hc.start hc.busy
    obtain ⟨hload, hbeat⟩ := h.sys_step hr hacc (by simp [hen])
    rw [hen] at hload
    have hover : s.dma.wr.wrTotal ≤ s.dma.wr.wrAcked := by
      by_contra hmore
      simp [Pos.next, hmore] at hnext
    have hfifo := hload.fifo
    rw [List.drop_eq_nil_of_le (by simp)] at hfifo
    exact ⟨⟨by simp [Sys.step, Dma.step, hr, hb, hover],
      ⟨by simp [Sys.step, Dma.step, hr, hb], hbusy, hdone⟩, hload.rest, hload.rready, hload.arvalid,
      hload.port, hfifo⟩, rfl, hbeat⟩
  | fetch => simp only [Pos.next] at hnext; split at hnext <;> cases hnext
  | launch => simp [Pos.next] at hnext
  | ctrl m n => simp only [Pos.next] at hnext; split at hnext <;> cases hnext
  | finish m => simp [Pos.next] at hnext

end steps

end DmaBridge
