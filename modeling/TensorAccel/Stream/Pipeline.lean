import TensorAccel.Stream.StreamCtrl

/-! # The pipeline under a command

    `word 0, word 1, ...` are the words a command is given, in the order of its
    read strobes: the `N` weight rows, then the activation rows.  In streaming
    cycle `j` the row-skew lines, the array and the column de-skew lines hold a
    wavefront of these words (`Wave`).  Registers that a row of this command
    has not reached yet are not constrained, so nothing is assumed about what
    an earlier command left in them. -/

open Clocked PrefixSum SystolicArray DelayLine

namespace StreamCtrl

open Ctrl (Fits Phase)

variable {N A : ℕ}

/-! ## What a command computes -/

/-- The product row `sum_i a[i] * w[i][c]`, every lane modulo `2 ^ 32`. -/
def productRow (w : Fin N → Lanes8 N) (a : Lanes8 N) : Lanes32 N :=
  fun c => BitVec.ofInt 32 (∑ i, (a i).toInt * (w i c).toInt)

/-- Row `k` of the result of a command given the words `word`. -/
def resultRow (word : ℕ → Lanes8 N) (k : ℕ) : Lanes32 N :=
  productRow (fun i => word i.val) (word (N + k))

/-- Lane `r` of the `k`-th activation pushed into the row skew; zeros follow
the last row. -/
def pushed (word : ℕ → Lanes8 N) (m k : ℕ) (r : Fin N) : BitVec 8 :=
  if k < m then word (N + k) r else 0

/-- The partial sum of pushed row `k` below the first `q` rows of column `c`. -/
def dotBelow (word : ℕ → Lanes8 N) (m k : ℕ) (c : Fin N) (q : ℕ) : BitVec 32 :=
  sumBelow (fun r => mac (pushed word m k r) (word r.val c)) q

theorem dotBelow_all (word : ℕ → Lanes8 N) {m k : ℕ} (hk : k < m) (c : Fin N) :
    dotBelow word m k c N = resultRow word k c := by
  have hterm : ∀ r : Fin N, mac (pushed word m k r) (word r.val c) =
      (((word (N + k) r).toInt * (word r.val c).toInt : ℤ) : BitVec 32) := by
    intro r
    rw [pushed, if_pos hk, mac_eq]; rfl
  rw [dotBelow, sumBelow_all, Finset.sum_congr rfl (fun r _ => hterm r), ← Int.cast_sum]
  rfl

/-- Read strobes issued in the first `n` cycles of a command of `m` rows. -/
def readsBefore (N m n : ℕ) : ℕ :=
  if n ≤ 2 * N + 2 then min N (n / 2) else N + 1 + min (n - (2 * N + 3)) (m - 1)

theorem readsBefore_load {N l : ℕ} (hl : l < N) (m : ℕ) : readsBefore N m (2 * l + 1) = l := by
  rw [readsBefore, if_pos (by omega)]
  omega

theorem readsBefore_prefetch (N m : ℕ) : readsBefore N m (2 * N + 2) = N := by
  rw [readsBefore, if_pos le_rfl]
  omega

theorem readsBefore_stream (N : ℕ) {m j : ℕ} (hj : j + 1 < m) :
    readsBefore N m (2 * N + 3 + j) = N + (j + 1) := by
  rw [readsBefore, if_neg (by omega)]
  omega

/-! ## The wavefront -/

/-- Registers of the pipeline in streaming cycle `j`.  PE `(r, c)` passed on
row `j - 1 - r - c`, the partial sum below `q` rows of column `c` belongs to row
`j - q - c`, and the de-skew lines collected the column sums from sample
`N + c` on. -/
structure Wave (word : ℕ → Lanes8 N) (m j : ℕ) (s : Core N A) : Prop where
  weight : ∀ r c, (s.array r c).weight = word r.val c
  row : ∀ r, Hist (s.ctrl.rowSk r) (fun k => pushed word m k r) 0 j
  act : ∀ r c : Fin N, ∀ k, k + r.val + c.val + 1 = j → (s.array r c).actOut = pushed word m k r
  psum : ∀ (c : Fin N) (q : ℕ) (hq : q ≤ N) (k : ℕ), 0 < q → k + q + c.val = j →
    psumWire s.array c q hq = dotBelow word m k c q
  col : ∀ c : Fin N, Hist (s.ctrl.colSk c) (fun x => dotBelow word m (x - N - c.val) c N) (N + c.val) j

section wave
variable {word : ℕ → Lanes8 N} {m j : ℕ} {s : Core N A} {i : CoreIn N A}

/-- The pipeline as the first streaming cycle finds it. -/
theorem wave_zero (hw : ∀ r c, (s.array r c).weight = word r.val c) : Wave word m 0 s where
  weight := hw
  row _ := hist_zero _ _ _
  act _ _ _ hk := by omega
  psum _ _ _ _ hq hk := by omega
  col _ := hist_zero _ _ _

/-- The input of row `r` of the array: the push of `r` cycles ago. -/
theorem Wave.actIn (h : Wave word m j s) (hpush : s.ctrl.actPush i.rdData = pushed word m j)
    {r : Fin N} {k : ℕ} (hk : k + r.val = j) :
    s.ctrl.actIn i.rdData r = pushed word m k r := by
  have hout := (h.row r).out_eq (x := s.ctrl.actPush i.rdData r) (congrFun hpush r) (by omega)
  rw [Ctrl.actIn, hout, show j - r.val = k by omega]

/-- `a_in` of PE `(r, c)`. -/
theorem Wave.aIn (h : Wave word m j s) (hpush : s.ctrl.actPush i.rdData = pushed word m j)
    {r c : Fin N} {k : ℕ} (hk : k + r.val + c.val = j) :
    aIn (s.ctrl.actIn i.rdData) s.array r c = pushed word m k r := by
  obtain ⟨c, hc⟩ := c
  cases c with
  | zero => exact h.actIn hpush hk
  | succ c => exact h.act r ⟨c, by omega⟩ k (by simp only at hk ⊢; omega)

/-- One streaming cycle moves the wavefront on. -/
theorem Wave.step (h : Wave word m j s) (hr : i.rst = false) (hst : s.ctrl.state = .stream)
    (hpush : s.ctrl.actPush i.rdData = pushed word m j) :
    Wave word m (j + 1) (Core.step i s) := by
  obtain ⟨hrow, hcol⟩ : (Core.step i s).ctrl.rowSk =
        (fun r => push (s.ctrl.actPush i.rdData r) (s.ctrl.rowSk r)) ∧
      (Core.step i s).ctrl.colSk = fun c => push (psumOut s.array c) (s.ctrl.colSk c) :=
    Ctrl.step_stream_lines (i := Core.ctrlIn i s) hr hst
  have hload : s.ctrl.weightLoad = false := by simp [Ctrl.weightLoad, hst]
  refine ⟨?_, ?_, ?_, ?_, ?_⟩
  · intro r c
    simpa [Core.step, SystolicArray.step, Pe.step, hr, hload] using h.weight r c
  · intro r
    rw [hrow]
    exact (h.row r).push fun _ => congrFun hpush r
  · intro r c k hk
    simpa [Core.step, SystolicArray.step, Pe.step, hr] using h.aIn hpush (show k + r.val + c.val = j by omega)
  · intro c q hq k hpos hk
    -- the partial sum above entered this row in the same cycle as the activation
    obtain ⟨q, rfl⟩ : ∃ q', q = q' + 1 := ⟨q - 1, by omega⟩
    have hact := h.aIn hpush (r := ⟨q, hq⟩) (c := c) (k := k) (by simp only; omega)
    have habove : psumWire s.array c q (by omega) = dotBelow word m k c q := by
      rcases Nat.eq_zero_or_pos q with rfl | hq0
      · simp [psumWire, dotBelow]
      · exact h.psum c q (by omega) k hq0 (by omega)
    have hreg : psumWire (Core.step i s).array c (q + 1) hq =
        psumWire s.array c q (by omega) +
          mac (SystolicArray.aIn (s.ctrl.actIn i.rdData) s.array ⟨q, hq⟩ c) (s.array ⟨q, hq⟩ c).weight := by
      simp [psumWire, Core.step, SystolicArray.step, Pe.step, hr]
    rw [hreg, habove, hact, h.weight ⟨q, hq⟩ c]
    exact (sumBelow_succ _ ⟨q, hq⟩).symm
  · intro c
    rw [hcol]
    refine (h.col c).push fun hlo => ?_
    rcases Nat.eq_zero_or_pos N with hN | hN
    · exact absurd c.isLt (by omega)
    · exact h.psum c N le_rfl _ hN (by omega)

/-- In cycle `k + 2N - 1` all lanes of row `k` leave the de-skew lines together. -/
theorem Wave.wrData (h : Wave word m j s) {k : ℕ} (hk : k + (2 * N - 1) = j) (hkm : k < m) :
    s.wrData = resultRow word k := by
  funext c
  have hc := c.isLt
  have hsum : psumOut s.array c = dotBelow word m (j - N - c.val) c N :=
    h.psum c N le_rfl _ (by omega) (by omega)
  have hout := (h.col c).out_eq hsum (by omega)
  rw [Core.wrData, Ctrl.wrData, hout, ← dotBelow_all word hkm c]
  congr 1
  omega

end wave

/-! ## A whole command -/

/-- What the core holds in each state of a command that is given `word`, `rd`
being the read data of the cycle. -/
def Data (word : ℕ → Lanes8 N) (m : ℕ) (s : Core N A) (rd : Lanes8 N) : Prop :=
  match s.ctrl.state with
  | .loadAddr => ∀ r : Fin N, r.val < s.ctrl.li.toNat → s.ctrl.weightBuf r = word r.val
  | .loadData => (∀ r : Fin N, r.val < s.ctrl.li.toNat → s.ctrl.weightBuf r = word r.val) ∧
      rd = word s.ctrl.li.toNat
  | .loadPulse => ∀ r : Fin N, s.ctrl.weightBuf r = word r.val
  | .prefetch => ∀ r c, (s.array r c).weight = word r.val c
  | .stream => Wave word m s.ctrl.cyc.toNat s ∧ (s.ctrl.cyc.toNat < m → rd = word (N + s.ctrl.cyc.toNat))
  | .idle => True
  | .done => True

section command
variable {word : ℕ → Lanes8 N} {m n : ℕ} {s : Core N A} {i : CoreIn N A} {rd' : Lanes8 N}

theorem storeRow_eq {c : Ctrl N A} {l : ℕ} (hli : c.li.toNat = l) {rd : Lanes8 N}
    (hbuf : ∀ r : Fin N, r.val < l → c.weightBuf r = word r.val) (hrd : rd = word l) :
    ∀ r : Fin N, r.val < l + 1 → c.storeRow rd r = word r.val := by
  intro r hr
  by_cases hrl : r.val = l
  · simp [Ctrl.storeRow, hli, hrl, hrd]
  · simp [Ctrl.storeRow, hli, hrl, hbuf r (by omega)]

theorem step_weight (i : CoreIn N A) (s : Core N A) (r c : Fin N) :
    ((Core.step i s).array r c).weight =
      if i.rst then 0 else if s.ctrl.weightLoad then s.ctrl.weightBuf r c
      else (s.array r c).weight := rfl

/-- A cycle with a read strobe asks for word `readsBefore n`. -/
theorem rdEn_reads (hm : s.ctrl.mRowsR.toNat = m) (hp : Phase m n s.ctrl)
    {j : ℕ} (hst : s.ctrl.state = .stream) (hcyc : s.ctrl.cyc.toNat = j) (hj : j + 1 < m) :
    s.ctrl.rdEn = true ∧ readsBefore N m n = N + (j + 1) := by
  cases hp with
  | stream j' _ hn hst' hcyc' =>
    obtain rfl : j' = j := hcyc'.symm.trans hcyc
    have hmlt : m < 2 ^ 32 := by rw [← hm]; exact s.ctrl.mRowsR.isLt
    constructor
    · simp only [Ctrl.rdEn, hst, decide_eq_true_eq, BitVec.lt_def, BitVec.ofNat_eq_ofNat,
        BitVec.toNat_add, BitVec.toNat_ofNat, hcyc, hm]
      omega
    · rw [hn, readsBefore_stream N hj]
  | _ => simp_all

/-- The strobes of a command are counted by `readsBefore`.  The bound keeps the
32-bit `cyc + 1` from wrapping in the last streaming cycle, where it would
strobe once more. -/
theorem readsBefore_succ {c : Ctrl N A} (hN : 0 < N) (hm : c.mRowsR.toNat = m)
    (hrows : m + (2 * N - 1) < 2 ^ 32) (hp : Phase m n c) :
    readsBefore N m (n + 1) = readsBefore N m n + c.rdEn.toNat := by
  cases hp with
  | loadAddr l hl hn hst _ =>
    have hen : c.rdEn = true := by simp [Ctrl.rdEn, hst]
    rw [hen, readsBefore, readsBefore, if_pos (by omega), if_pos (by omega), Bool.toNat_true]
    omega
  | loadData l hl hn hst _ =>
    have hen : c.rdEn = false := by simp [Ctrl.rdEn, hst]
    rw [hen, readsBefore, readsBefore, if_pos (by omega), if_pos (by omega), Bool.toNat_false]
    omega
  | loadPulse hn hst =>
    have hen : c.rdEn = false := by simp [Ctrl.rdEn, hst]
    rw [hen, readsBefore, readsBefore, if_pos (by omega), if_pos (by omega), Bool.toNat_false]
    omega
  | prefetch hn hst =>
    have hen : c.rdEn = true := by simp [Ctrl.rdEn, hst]
    rw [hen, readsBefore, readsBefore, if_neg (by omega), if_pos (by omega), Bool.toNat_true]
    omega
  | stream j hj hn hst hcyc =>
    have hen : c.rdEn = decide (j + 1 < m) := by
      simp only [Ctrl.rdEn, hst, BitVec.lt_def, BitVec.ofNat_eq_ofNat, BitVec.toNat_add,
        BitVec.toNat_ofNat, hcyc, hm]
      rw [Nat.mod_eq_of_lt (by omega)]
    rw [hen, readsBefore, readsBefore, if_neg (by omega), if_neg (by omega)]
    by_cases hjm : j + 1 < m
    · simp only [hjm, decide_true, Bool.toNat_true]
      omega
    · simp only [hjm, decide_false, Bool.toNat_false]
      omega
  | done hn hst =>
    have hen : c.rdEn = false := by simp [Ctrl.rdEn, hst]
    rw [hen, readsBefore, readsBefore, if_neg (by omega), if_neg (by omega), Bool.toNat_false]
    omega

/-- At most `N + m` words are asked for, or one more row when `m` is 0. -/
theorem readsBefore_le (N m n : ℕ) : readsBefore N m n ≤ N + max 1 m := by
  unfold readsBefore
  split <;> omega

/-- All of them, once the state machine is done. -/
theorem readsBefore_all (hN : 0 < N) (m : ℕ) : readsBefore N m (4 * N + m + 2) = N + max 1 m := by
  rw [readsBefore, if_neg (by omega)]
  omega

/-- One cycle of a running command, for any memory that answers each strobe
for one of the `N + m` words with that word. -/
theorem Data.step (hf : Fits N A m) (hm : s.ctrl.mRowsR.toNat = m) (hr : i.rst = false)
    (hp : Phase m n s.ctrl) (hn : n < 4 * N + m + 2) (hd : Data word m s i.rdData)
    (hfeed : s.ctrl.rdEn = true → readsBefore N m n < N + m → rd' = word (readsBefore N m n)) :
    Data word m (Core.step i s) rd' := by
  have hpos := hf.pos
  cases hp with
  | loadAddr l hl hn' hst hli =>
    have hidx : readsBefore N m n = l := by rw [hn', readsBefore_load hl]
    -- the strobe of this cycle is answered with weight row `l`
    have hread : rd' = word l := by
      rw [hfeed (by simp [Ctrl.rdEn, hst]) (by omega), hidx]
    simp only [Data, hst] at hd
    have hctrl : (Core.step i s).ctrl = _ := Ctrl.step_loadAddr hr hst
    simp only [Data, hctrl]
    exact ⟨hd, hli ▸ hread⟩
  | loadData l hl hn' hst hli =>
    simp only [Data, hst, hli] at hd
    have hbuf := storeRow_eq hli hd.1 hd.2
    by_cases hlast : s.ctrl.li = BitVec.ofNat A (N - 1)
    · have hl' : l = N - 1 := by
        have hlanes := hf.lanes
        rw [← hli, hlast, BitVec.toNat_ofNat, Nat.mod_eq_of_lt (by omega)]
      have hctrl : (Core.step i s).ctrl = _ := Ctrl.step_loadData_last hr hst hlast
      simp only [Data, hctrl]
      exact fun r => hbuf r (by have := r.isLt; omega)
    · have hctrl : (Core.step i s).ctrl = _ := Ctrl.step_loadData_next hr hst hlast
      simp only [Data, hctrl]
      intro r hlt
      -- should `li + 1` wrap, less is asked for
      refine hbuf r (lt_of_lt_of_le hlt ?_)
      simp only [BitVec.toNat_add, hli, BitVec.ofNat_eq_ofNat, BitVec.toNat_ofNat]
      calc (l + 1 % 2 ^ A) % 2 ^ A ≤ l + 1 % 2 ^ A := Nat.mod_le _ _
        _ ≤ l + 1 := Nat.add_le_add_left (Nat.mod_le _ _) l
  | loadPulse hn' hst =>
    simp only [Data, hst] at hd
    have hctrl : (Core.step i s).ctrl = _ := Ctrl.step_loadPulse hr hst
    simp only [Data, hctrl]
    intro r c
    simp [step_weight, hr, Ctrl.weightLoad, hst, hd]
  | prefetch hn' hst =>
    have hidx : readsBefore N m n = N := by rw [hn', readsBefore_prefetch]
    -- without rows the strobe asks for a word beyond the command, and nothing is said of it
    have hread : 0 < m → rd' = word N := fun hm0 => by
      rw [hfeed (by simp [Ctrl.rdEn, hst]) (by omega), hidx]
    simp only [Data, hst] at hd
    have hctrl : (Core.step i s).ctrl = _ := Ctrl.step_prefetch hr hst
    simp only [Data, hctrl]
    refine ⟨wave_zero fun r c => ?_, hread⟩
    simpa [step_weight, hr, Ctrl.weightLoad, hst] using hd r c
  | stream j hj hn' hst hcyc =>
    simp only [Data, hst, hcyc] at hd
    -- `push_valid` turns the lanes to zero once the rows are used up
    have hpush : s.ctrl.actPush i.rdData = pushed word m j := by
      funext r
      have hvalid : s.ctrl.pushValid = decide (j < m) := by
        simp [Ctrl.pushValid, hst, BitVec.lt_def, hcyc, hm]
      by_cases hjm : j < m
      · simp [Ctrl.actPush, hvalid, hjm, pushed, hd.2 hjm]
      · simp [Ctrl.actPush, hvalid, hjm, pushed]
    have hwave := hd.1.step hr hst hpush
    by_cases hlast : s.ctrl.cyc = s.ctrl.totalCycles - 1
    · have hctrl : (Core.step i s).ctrl = _ := Ctrl.step_stream_last hr hst hlast
      simp only [Data, hctrl]
    · have hctrl : (Core.step i s).ctrl = _ := Ctrl.step_stream_next hr hst hlast
      have hcyc' : (Core.step i s).ctrl.cyc.toNat = j + 1 := by
        have hne := mt (Ctrl.last_cycle_iff hf hm hj hcyc).mpr hlast
        have hrows := hf.rows
        simp only [hctrl, BitVec.ofNat_eq_ofNat, BitVec.toNat_add, BitVec.toNat_ofNat, hcyc]
        omega
      have hst' : (Core.step i s).ctrl.state = .stream := by rw [hctrl]; exact hst
      simp only [Data, hst', hcyc']
      refine ⟨hwave, ?_⟩
      intro hjm
      obtain ⟨hen, hidx⟩ := rdEn_reads hm (.stream j hj hn' hst hcyc) hst hcyc hjm
      rw [hfeed hen (by omega), hidx]
  | done hn' hst => omega

/-- What the write port shows in the cycle of row `k`. -/
theorem Data.wrData (hf : Fits N A m) (hp : Phase m n s.ctrl) {rd : Lanes8 N}
    (hd : Data word m s rd) {k : ℕ} (hk : k < m) (hn : n = 4 * N + 2 + k) :
    s.wrData = resultRow word k := by
  have hpos := hf.pos
  cases hp with
  | stream j hj hn' hst hcyc =>
    simp only [Data, hst, hcyc] at hd
    exact hd.1.wrData (by omega) hk
  | _ => omega

end command

end StreamCtrl
