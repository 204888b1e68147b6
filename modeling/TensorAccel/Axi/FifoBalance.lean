import TensorAccel.Axi.ReadSide

/-! # The balance of the read FIFO

    `u_ctrl` strobes one word per weight row and one per activation row, but
    at least one of the latter: with no rows at all its prefetch state still
    strobes.  The FIFO is in balance over a run exactly as long as every launch
    finds the words it is going to strobe for, `LaunchOk`. -/

open Clocked Ring Burst StreamCtrl

namespace DmaBridge

variable {N A : ℕ}

/-! ## The invariant -/

/-- Between two commands, or at some position of one. -/
def ReadInv (d : Depths) (s : Sys N A) : Prop :=
  ReadRest d s ∨ (s.dma.done = false ∧ ∃ c l pos, ReadSide d c l s pos)

section inv
variable {d : Depths} {s : Sys N A} {i : DmaIn N A}

theorem ReadInv.step (hN : 0 < N) (hN' : N < 2 ^ 31) (h : ReadInv d s) (hr : i.rst = false)
    (hlegal : s.Legal i) (hok : LaunchOk i s.dma) : ReadInv d (s.step d i) := by
  rcases h with hrest | ⟨-, c, l, pos, hside⟩
  · obtain ⟨-, hstart, hstay⟩ := hrest.step hr
    cases hst : i.start with
    | true =>
      refine .inr ⟨?_, i.cmd, [], .fetch, hstart hst⟩
      simp [Sys.step, Dma.step, hrest.bstate]
    | false => exact .inl (hstay hst)
  · cases hnext : pos.next i s.dma with
    | none => exact .inl (hside.last hr hnext).1
    | some pos' =>
      exact .inr ⟨hside.undone hnext, c, _, pos', hside.step hN hN' hr hlegal hok hnext⟩

theorem Loaded.count {D j : ℕ} {c : Cmd A} {l : ReadLog N A} {e : RdEngine N A} {p : Port A}
    (h : Loaded D c l j e p) : e.rf.count.toNat = l.length - j := by
  rw [← h.fifo.length, List.length_drop, ReadLog.words_length]

/-- A strobe finds a word. -/
theorem ReadInv.pop (hN : 0 < N) (h : ReadInv d s) (hen : s.dma.core.ctrl.rdEn = true) :
    0 < s.dma.rd.rf.count.toNat := by
  have hbusy : s.dma.core.ctrl.busy = true := by
    by_contra hbusy
    rw [(Ctrl.no_strobe (Bool.eq_false_iff.mpr hbusy)).1] at hen
    cases hen
  rcases h with hrest | ⟨-, c, l, pos, hside⟩
  · rw [hrest.ctrl.busy] at hbusy
    cases hbusy
  · cases hside with
    | ctrl m n _ _ hrun _ _ hlen h =>
      have hlt := (reads_step hN d.rd_lt h.cap hrun hlen).2 hen
      rw [h.count]
      omega
    | fetch _ hc => rw [hc.busy] at hbusy; cases hbusy
    | launch _ _ hrest => rw [hrest] at hbusy; cases hbusy
    | finish _ _ _ hrest => rw [hrest] at hbusy; cases hbusy
    | drain _ hc => rw [hc.busy] at hbusy; cases hbusy

/-- An accepted beat finds a free slot. -/
theorem ReadInv.push (hN' : N < 2 ^ 31) (h : ReadInv d s) (hr : i.rst = false) (hlegal : s.Legal i)
    (hpush : s.dma.rd.push i = true) : s.dma.rd.rf.count.toNat < d.rd := by
  have hready : s.dma.rd.rready = true := by
    rw [RdEngine.push, Bool.and_eq_true] at hpush
    exact hpush.2
  rcases h with hrest | ⟨-, c, l, pos, hside⟩
  · rw [hrest.rready] at hready
    cases hready
  · rcases hside.engine with ⟨-, h⟩ | ⟨j, h⟩
    · rw [h.count]
      exact ((h.fetching_step hN' d.rd_lt hr hlegal.rvalid).2.2.2 hpush).1
    · rw [h.rready] at hready
      cases hready

theorem ReadInv.cap (h : ReadInv d s) : s.dma.rd.rf.count.toNat ≤ d.rd := by
  rcases h with hrest | ⟨-, c, l, pos, hside⟩
  · exact Holds.cap hrest.fifo
  · exact hside.fifo_cap

/-- A done pulse finds the FIFO empty. -/
theorem ReadInv.drained (h : ReadInv d s) (hdone : s.dma.done = true) :
    s.dma.rd.rf.count = 0 ∧ s.dma.rd.rf.rptr = s.dma.rd.rf.wptr := by
  rcases h with hrest | ⟨hlow, -⟩
  · have hcount : s.dma.rd.rf.count.toNat = 0 := hrest.fifo.length.symm
    refine ⟨BitVec.eq_of_toNat_eq hcount, ?_⟩
    have hfifo := hrest.fifo
    rw [Fifo.Represents, hcount] at hfifo
    exact hfifo.wp_eq_rp.symm
  · rw [hlow] at hdone
    cases hdone

end inv

/-! ## Runs -/

/-- What the read FIFO does over the cycles since the reset in cycle `r`. -/
structure Balanced (d : Depths) (p : Sys N A) (i : ℕ → DmaIn N A) (r t : ℕ) : Prop where
  count : (run (Sys.step d) p i t).dma.rd.rf.count.toNat +
      countIn (fun u => (run (Sys.step d) p i u).dma.core.ctrl.rdEn) (r + 1) t =
    countIn (fun u => (run (Sys.step d) p i u).dma.rd.push (i u)) (r + 1) t
  cap : (run (Sys.step d) p i t).dma.rd.rf.count.toNat ≤ d.rd
  pop : (run (Sys.step d) p i t).dma.core.ctrl.rdEn = true →
    0 < (run (Sys.step d) p i t).dma.rd.rf.count.toNat
  drained : (run (Sys.step d) p i t).dma.done = true →
    (run (Sys.step d) p i t).dma.rd.rf.count = 0 ∧
      (run (Sys.step d) p i t).dma.rd.rf.rptr = (run (Sys.step d) p i t).dma.rd.rf.wptr

section runs
variable {d : Depths} {p : Sys N A} {i : ℕ → DmaIn N A} {r t : ℕ}

theorem readInv_run (hN : 0 < N) (hN' : N < 2 ^ 31) (hr : (i r).rst = true) (ht : r < t)
    (hquiet : Quiet (fun u => (i u).rst) (r + 1) t)
    (hlegal : ∀ u < t, r < u → (run (Sys.step d) p i u).Legal (i u))
    (hok : ∀ u < t, r < u → LaunchOk (i u) (run (Sys.step d) p i u).dma) :
    ReadInv d (run (Sys.step d) p i t) := by
  induction t, ht using Nat.le_induction with
  | base => exact .inl (readRest_reset d _ hr)
  | succ t ht ih =>
    have hprev := ih (hquiet.mono le_rfl (Nat.le_succ t)) (fun u hu => hlegal u (by omega))
      (fun u hu => hok u (by omega))
    exact hprev.step hN hN' (hquiet.at ht (Nat.lt_succ_self t)) (hlegal t (Nat.lt_succ_self t) ht)
      (hok t (Nat.lt_succ_self t) ht)

/-- Pushes minus pops. -/
theorem count_run (hN : 0 < N) (hN' : N < 2 ^ 31) (hr : (i r).rst = true) (ht : r < t)
    (hquiet : Quiet (fun u => (i u).rst) (r + 1) t)
    (hlegal : ∀ u < t, r < u → (run (Sys.step d) p i u).Legal (i u))
    (hok : ∀ u < t, r < u → LaunchOk (i u) (run (Sys.step d) p i u).dma) :
    (run (Sys.step d) p i t).dma.rd.rf.count.toNat +
        countIn (fun u => (run (Sys.step d) p i u).dma.core.ctrl.rdEn) (r + 1) t =
      countIn (fun u => (run (Sys.step d) p i u).dma.rd.push (i u)) (r + 1) t := by
  induction t, ht using Nat.le_induction with
  | base =>
    have hempty : (run (Sys.step d) p i (r + 1)).dma.rd.rf.count = 0 := by
      simp [run_succ, Sys.step, Dma.step, RdEngine.step, Fifo.reset, hr]
    simp [hempty]
  | succ t ht ih =>
    have hquiet' := hquiet.mono (le_refl (r + 1)) (Nat.le_succ t)
    have hlegal' := fun u (hu : u < t) => hlegal u (by omega)
    have hok' := fun u (hu : u < t) => hok u (by omega)
    have hprev := ih hquiet' hlegal' hok'
    have hinv := readInv_run hN hN' hr ht hquiet' hlegal' hok'
    have hrt : (i t).rst = false := hquiet.at ht (Nat.lt_succ_self t)
    have hstep : (run (Sys.step d) p i (t + 1)).dma.rd.rf =
        (run (Sys.step d) p i t).dma.rd.rf.step d.rd ((run (Sys.step d) p i t).dma.rd.push (i t))
          (run (Sys.step d) p i t).dma.core.ctrl.rdEn (i t).rdata :=
      RdEngine.step_rf d.rd _ _ _ hrt
    have hd := d.rd_lt
    -- no overflow and no underflow, so that the counter does not wrap
    have hcount := Fifo.count_step (f := (run (Sys.step d) p i t).dma.rd.rf) (D := d.rd)
      (i t).rdata (hinv.pop hN) fun hpush =>
        lt_trans (hinv.push hN' hrt (hlegal t (Nat.lt_succ_self t) ht) hpush) hd
    have hrt' : r + 1 ≤ t := ht
    rw [hstep, countIn_succ _ hrt', countIn_succ _ hrt']
    omega

end runs

/-- **The read FIFO stays in balance** in every run after a reset in which
every launch finds its words: the row count on the port still gives the number
of words that were fetched, one row being the least.  `N` is an `int` parameter
like the depths. -/
theorem read_fifo_balanced (d : Depths) (hN : 0 < N) (hN' : N < 2 ^ 31) (p : Sys N A)
    (i : ℕ → DmaIn N A) {r : ℕ} (hr : (i r).rst = true) (t : ℕ) (ht : r < t)
    (hrun : ∀ u < t, r < u → (i u).rst = false)
    (hlegal : ∀ u < t, r < u → (run (Sys.step d) p i u).Legal (i u))
    (hok : ∀ u < t, r < u → LaunchOk (i u) (run (Sys.step d) p i u).dma) :
    Balanced d p i r t := by
  have hquiet : Quiet (fun u => (i u).rst) (r + 1) t := hrun
  have hinv := readInv_run hN hN' hr ht hquiet hlegal hok
  exact ⟨count_run hN hN' hr ht hquiet hlegal hok, hinv.cap, hinv.pop hN, hinv.drained⟩

/-- All registers zero. -/
def zeroSys (N A : ℕ) : Sys N A where
  dma :=
    { core := Core.zero N 32
      rd := ⟨⟨fun _ _ => 0, 0, 0, 0⟩, fun _ => 0, 0, 0, 0, 0, 0, .idle, 0, 0, false, false⟩
      wr := ⟨⟨fun _ _ => 0, 0, 0, 0⟩, 0, 0, 0, .idle, 0, 0, 0, 0, false, fun _ => 0, false, false⟩
      bstate := .idle
      ctrlStart := false
      done := false }
  bus := ⟨Port.idle, Port.idle, 0⟩

/-- 4-word FIFOs. -/
def demoDepths : Depths := ⟨4, 4, by decide, by decide, by decide, by decide⟩

def demoSys : Sys 1 8 := zeroSys 1 8

/-- A reset, then one command of `m` rows; the subordinates never stall. -/
def demoIn (m : BitVec 32) (t : ℕ) : DmaIn 1 8 where
  rst := t == 0
  start := t == 1
  cmd := ⟨0, 16, 64, m⟩
  arready := true
  rdata := fun _ => 3
  rlast := true
  rvalid := t == 4 || (t == 7 && m != 0)
  awready := true
  wready := true
  bvalid := t == 20 && m != 0

/-- 8-word FIFOs. -/
def pairDepths : Depths := ⟨8, 8, by decide, by decide, by decide, by decide⟩

/-- A reset, then a command of three rows and one of two; both subordinates stall.
The activations of the first command end in front of a 4 KB boundary. -/
def pairIn (t : ℕ) : DmaIn 2 16 where
  rst := t == 0
  start := t == 1 || t == 53
  cmd := if t < 53 then ⟨0, 4090, 8192, 3⟩ else ⟨8192, 8200, 12288, 2⟩
  arready := t % 3 != 0
  rdata := fun r => BitVec.ofNat 8 (t + r)
  rlast := [8, 16, 58, 64].contains t
  rvalid := [6, 8, 12, 14, 16, 56, 58, 62, 64].contains t
  awready := t % 3 == 2
  wready := t % 4 == 1
  bvalid := [35, 50, 85, 95].contains t

/-- The second command is done in cycle 97. -/
theorem read_fifo_balanced_demo :
    (run (Sys.step pairDepths) (zeroSys 2 16) pairIn 97).dma.done = true ∧
      Balanced pairDepths (zeroSys 2 16) pairIn 0 97 :=
  ⟨by decide +kernel, read_fifo_balanced pairDepths Nat.two_pos (by decide) (zeroSys 2 16) pairIn rfl 97
    (by decide) (by decide) (by decide +kernel) (by decide +kernel)⟩

/-- No rows: one word is fetched and two are popped, so that at the done pulse
in cycle 16 the count stands at `2 ^ 32 - 1`. -/
theorem zero_rows_unbalanced :
    (demoIn 0 0).rst = true ∧ (∀ u < 16, 0 < u → (demoIn 0 u).rst = false) ∧
      (∀ u < 16, 0 < u → (run (Sys.step demoDepths) demoSys (demoIn 0) u).Legal (demoIn 0 u)) ∧
      (run (Sys.step demoDepths) demoSys (demoIn 0) 16).dma.rd.rf.count = 0xFFFFFFFF ∧
      ¬ Balanced demoDepths demoSys (demoIn 0) 0 16 := by
  have hdone : (run (Sys.step demoDepths) demoSys (demoIn 0) 16).dma.done = true := by
    decide +kernel
  have hcount : (run (Sys.step demoDepths) demoSys (demoIn 0) 16).dma.rd.rf.count = 0xFFFFFFFF := by
    decide +kernel
  refine ⟨rfl, by decide, by decide +kernel, hcount, ?_⟩
  intro h
  have hzero := (h.drained hdone).1
  rw [hcount] at hzero
  exact absurd hzero (by decide)

end DmaBridge
