import TensorAccel.Sim.Top

/-! # The harnesses

    Translation of the tile server `sched/tile_runner.cpp` and of `run_case` of
    `sim/tb_main.cpp`.  A request is a `Job`: the server reads one, resets the
    array, streams it and answers, for as long as there are requests. -/

open Clocked SystolicArray Span

namespace Sim

/-! ## `tile_runner` -/

namespace TileRunner

def setWeightFlat (w : ℕ → ℕ → BitVec 8) : Bus :=
  forLoop (fun i => forLoop (fun j s => s.orByte (i * 4 + j) (w i j)) 4) 4 (Bus.zero 128)

def setAct (act : ℕ → BitVec 8) : Bus := forLoop (fun i s => s.orByte i (act i)) 4 (Bus.zero 32)

def readPsum (t : Vtop 4) (c : ℕ) : BitVec 32 := t.psumOutFlat.getWord (c * 32 / 32)

/-- The reset and the weight load of a request. -/
def resetPorts (t : Vtop 4) : Vtop 4 :=
  { t with rst := true, weightLoad := false, actInFlat := setAct fun _ => 0, weightInFlat := Bus.zero 128 }

def loadPorts (job : Job) (t : Vtop 4) : Vtop 4 :=
  { t with rst := false, weightInFlat := setWeightFlat job.w, weightLoad := true }

/-- The row of column `c` that is due after tick `j`. -/
def sampleRow (job : Job) (j c : ℕ) : Option ℕ :=
  let m : ℤ := j - (4 - 1) - c
  if 0 ≤ m ∧ m < job.M then some m.toNat else none

def streamTicks (job : Job) : ℕ := job.M + 2 * (4 - 1) + 1

/-- `if (m >= 0 && m < M) results[m][c] = read_psum(top, c)` -/
def sample (job : Job) (j : ℕ) (t : Vtop 4) (c : ℕ) (results : ℕ × ℕ → BitVec 32) : ℕ × ℕ → BitVec 32 :=
  match sampleRow job j c with
  | some m => Function.update results (m, c) (readPsum t c)
  | none => results

/-- Body of the streaming loop, on the model and `results`. -/
def streamTick (job : Job) (j : ℕ) (s : Vtop 4 × (ℕ × ℕ → BitVec 32)) : Vtop 4 × (ℕ × ℕ → BitVec 32) :=
  let t := ({ s.1 with actInFlat := setAct (job.feed j) } : Vtop 4).tick
  (t, forLoop (sample job j t) 4 s.2)

/-- The model when the streaming loop begins. -/
def loaded (job : Job) (t : Vtop 4) : Vtop 4 :=
  { (loadPorts job (resetPorts t).tick).tick with weightLoad := false }

/-- The loop after `n` ticks, with `results` zero at first. -/
def streamed (job : Job) (t : Vtop 4) (n : ℕ) : Vtop 4 × (ℕ × ℕ → BitVec 32) :=
  forLoop (streamTick job) n (loaded job t, fun _ => 0)

structure Reply where
  rows : List (List (BitVec 32))
  cycles : ℕ
  deriving DecidableEq

/-- One request. -/
def serve (job : Job) (t : Vtop 4) : Reply × Vtop 4 :=
  let (t, results) := streamed job t (streamTicks job)
  (⟨(List.range job.M).map fun m => (List.range 4).map fun c => results (m, c), 2 + streamTicks job⟩, t)

/-- `main`: the replies to the requests, in order. -/
def serveAll : List Job → Vtop 4 → List Reply
  | [], _ => []
  | job :: jobs, t =>
    let (reply, t) := serve job t
    reply :: serveAll jobs t

section proofs
variable {job : Job} {t : Vtop 4}

theorem slice_setWeightFlat (w : ℕ → ℕ → BitVec 8) {i j : ℕ} (hi : i < 4) (hj : j < 4) :
    (setWeightFlat w).slice ((i * 4 + j) * 8) 8 = w i j := by
  have hrow : ∀ i, forLoop (fun j s => Bus.orByte (i * 4 + j) (w i j) s) 4 =
      forLoop (fun j s => Bus.orByte (i * 4 + j) (w ((i * 4 + j) / 4) ((i * 4 + j) % 4)) s) 4 := by
    intro i
    funext s
    simp only [forLoop, show (i * 4 + 0) / 4 = i by omega, show (i * 4 + 1) / 4 = i by omega,
      show (i * 4 + 2) / 4 = i by omega, show (i * 4 + 3) / 4 = i by omega, show (i * 4 + 0) % 4 = 0 by omega,
      show (i * 4 + 1) % 4 = 1 by omega, show (i * 4 + 2) % 4 = 2 by omega, show (i * 4 + 3) % 4 = 3 by omega]
  unfold setWeightFlat
  simp only [hrow]
  rw [forLoop_nest (fun n s => Bus.orByte n (w (n / 4) (n % 4)) s) 4 4,
    Bus.slice_orBytes (m := 16) (Bus.zero_fits (by decide)) (by decide) (by omega) (Bus.bit_zero 128),
    if_pos (by omega), show (i * 4 + j) / 4 = i by omega, show (i * 4 + j) % 4 = j by omega]

theorem slice_setAct (act : ℕ → BitVec 8) {i : ℕ} (hi : i < 4) : (setAct act).slice (i * 8) 8 = act i := by
  unfold setAct
  rw [Bus.slice_orBytes (m := 4) (Bus.zero_fits (by decide)) le_rfl hi (Bus.bit_zero 32), if_pos hi]

theorem readPsum_eq (t : Vtop 4) (c : Fin 4) : readPsum t c.val = psumOut t.array c := by
  apply BitVec.eq_of_getLsbD_eq
  intro k hk
  rw [readPsum, Nat.mul_div_cancel _ (by decide), Bus.getLsbD_getWord _ _ hk, t.bit_psumOutFlat c hk]

/-- Streaming leaves the other ports alone. -/
theorem streamed_ports (job : Job) (t : Vtop 4) (n : ℕ) :
    (streamed job t n).1.rst = false ∧ (streamed job t n).1.weightLoad = false := by
  induction n with
  | zero => exact ⟨rfl, rfl⟩
  | succ n ih => exact ih

/-- The ports before each tick of a request. -/
def portsAt (job : Job) (t : Vtop 4) : ℕ → Vtop 4
  | 0 => resetPorts t
  | 1 => loadPorts job (resetPorts t).tick
  | j + 2 => { (streamed job t j).1 with actInFlat := setAct (job.feed j) }

theorem harness (job : Job) (t : Vtop 4) : Harness job (portsAt job t) where
  linked n := by
    rcases n with _ | _ | n
    · rfl
    · rfl
    · rfl
  reset := rfl
  load := ⟨rfl, rfl⟩
  weights r c := slice_setWeightFlat job.w r.isLt c.isLt
  stream j := streamed_ports job t j
  acts j r := slice_setAct (job.feed j) r.isLt

theorem sampleRow_iff {m c j : ℕ} (hm : m < job.M) : sampleRow job j c = some m ↔ j = m + c + 3 := by
  unfold sampleRow
  dsimp only
  split
  · rw [Option.some.injEq]
    omega
  · constructor
    · intro h
      cases h
    · intro h
      omega

/-- A tick stores entry `(m, c)` only at the tick at which it is due. -/
theorem sample_other {m c c' j : ℕ} (hm : m < job.M) (h : c' ≠ c ∨ j ≠ m + c + 3) (t : Vtop 4)
    (results : ℕ × ℕ → BitVec 32) : sample job j t c' results (m, c) = results (m, c) := by
  unfold sample
  cases hrow : sampleRow job j c' with
  | none => rfl
  | some m' =>
    apply Function.update_of_ne
    intro heq
    obtain ⟨rfl, rfl⟩ := Prod.mk.inj heq
    have hdue := (sampleRow_iff hm).mp hrow
    rcases h with hne | hne
    · exact hne rfl
    · exact hne hdue

theorem streamTick_result {m c : ℕ} (hm : m < job.M) (hc : c < 4) (j : ℕ) (s : Vtop 4 × (ℕ × ℕ → BitVec 32)) :
    (streamTick job j s).2 (m, c) =
      if j = m + c + 3 then readPsum (streamTick job j s).1 c else s.2 (m, c) := by
  show forLoop (sample job j (streamTick job j s).1) 4 s.2 (m, c) = _
  by_cases hj : j = m + c + 3
  · rw [if_pos hj]
    apply forLoop_hit (F := fun _ => readPsum (streamTick job j s).1 c) s.2 hc
    · intro res
      rw [sample, (sampleRow_iff hm).mpr hj]
      exact Function.update_self _ _ _
    · intro c' _ hne res
      exact sample_other hm (.inl hne) _ res
  · rw [if_neg hj]
    apply forLoop_keep
    intro c' _ res
    exact sample_other hm (.inr hj) _ res

/-- The results stored in the first `n` ticks. -/
theorem streamed_results (job : Job) (t : Vtop 4) {m c : ℕ} (hm : m < job.M) (hc : c < 4) (n : ℕ) :
    (streamed job t n).2 (m, c) = if m + c + 3 < n then job.dot 4 m c else 0 := by
  induction n with
  | zero => rfl
  | succ n ih =>
    show (streamTick job n (streamed job t n)).2 (m, c) = _
    rw [streamTick_result hm hc, ih]
    by_cases hn : n = m + c + 3
    · have hpsum := (harness job t).psumOut_eq hm ⟨c, hc⟩ (j := n) (show n + 1 = m + c + 4 by omega)
      rw [if_pos hn, if_pos (by omega), ← hpsum]
      exact readPsum_eq _ ⟨c, hc⟩
    · rw [if_neg hn]
      exact if_congr (by omega) rfl rfl

/-- Whatever the requests before it left in the array. -/
theorem serve_reply (job : Job) (t : Vtop 4) :
    (serve job t).1 =
      ⟨(List.range job.M).map fun m => (List.range 4).map fun c => job.dot 4 m c, job.M + 9⟩ := by
  have hrow : ∀ m < job.M, (List.range 4).map (fun c => (streamed job t (streamTicks job)).2 (m, c)) =
      (List.range 4).map fun c => job.dot 4 m c := by
    intro m hm
    apply List.map_congr_left
    intro c hc
    rw [streamed_results job t hm (List.mem_range.mp hc), if_pos]
    have hlt := List.mem_range.mp hc
    unfold streamTicks
    omega
  have hrows : (List.range job.M).map (fun m => (List.range 4).map fun c =>
      (streamed job t (streamTicks job)).2 (m, c)) =
        (List.range job.M).map fun m => (List.range 4).map fun c => job.dot 4 m c :=
    List.map_congr_left fun m hm => hrow m (List.mem_range.mp hm)
  have hcycles : 2 + streamTicks job = job.M + 9 := by
    unfold streamTicks
    omega
  show (⟨(List.range job.M).map fun m => (List.range 4).map fun c =>
    (streamed job t (streamTicks job)).2 (m, c), 2 + streamTicks job⟩ : Reply) = _
  rw [hrows, hcycles]

theorem serveAll_eq (jobs : List Job) (t : Vtop 4) : serveAll jobs t = jobs.map fun job =>
    ⟨(List.range job.M).map fun m => (List.range 4).map fun c => job.dot 4 m c, job.M + 9⟩ := by
  induction jobs generalizing t with
  | nil => rfl
  | cons job jobs ih =>
    show (serve job t).1 :: serveAll jobs (serve job t).2 = _
    rw [serve_reply, ih, List.map_cons]

/-- The run has one tick at which a result is due. -/
theorem sampled_once {m c : ℕ} (hm : m < job.M) (hc : c < 4) :
    ∃! j, j < streamTicks job ∧ sampleRow job j c = some m := by
  refine ⟨m + c + 3, ⟨?_, (sampleRow_iff hm).mpr rfl⟩, ?_⟩
  · unfold streamTicks
    omega
  · rintro j ⟨-, hj⟩
    exact (sampleRow_iff hm).mp hj

end proofs

end TileRunner

/-! ## `tb_main` -/

namespace TbMain

variable {N : ℕ}

def putWeights (N : ℕ) (w : ℕ → ℕ → BitVec 8) : Bus → Bus :=
  forLoop (fun r => forLoop (fun cc s => s.putByte (r * N + cc) (w r cc)) N) N

def putActs (N : ℕ) (act : ℕ → BitVec 8) : Bus → Bus := forLoop (fun r s => s.putByte r (act r)) N

/-- The four bytes of a column, or-ed together. -/
def rawPsum (t : Vtop N) (cc : ℕ) : BitVec 32 :=
  forLoop (fun b raw => raw ||| ((t.psumOutFlat.getByte (cc * 4 + b)).setWidth 32 <<< (b * 8))) 4 0

def resetPorts (t : Vtop N) : Vtop N :=
  { t with rst := true, weightLoad := false, actInFlat := Bus.zero (N * 8),
           weightInFlat := Bus.zero (N * N * 8) }

def loadPorts (job : Job) (t : Vtop N) : Vtop N :=
  { t with rst := false, weightInFlat := putWeights N job.w t.weightInFlat, actInFlat := Bus.zero (N * 8),
           weightLoad := true }

def totalTicks (N : ℕ) (job : Job) : ℕ := job.M + 2 * N - 2

def streamPorts (job : Job) (i : ℕ) (t : Vtop N) : Vtop N :=
  { t with actInFlat := putActs N (job.feed i) t.actInFlat }

/-- Body of the streaming loop, on the model and `psum_hist`. -/
def streamTick (job : Job) (i : ℕ) (s : Vtop N × (ℕ → ℕ → BitVec 32)) : Vtop N × (ℕ → ℕ → BitVec 32) :=
  let t := (streamPorts job i s.1).tick
  (t, Function.update s.2 i fun cc => if cc < N then rawPsum t cc else s.2 i cc)

def loaded (job : Job) (t : Vtop N) : Vtop N :=
  { (loadPorts job (resetPorts t).tick).tick with weightLoad := false, weightInFlat := Bus.zero (N * N * 8) }

def streamed (job : Job) (t : Vtop N) (n : ℕ) : Vtop N × (ℕ → ℕ → BitVec 32) :=
  forLoop (streamTick job) n (loaded job t, fun _ _ => 0)

/-- `psum_hist` of `run_case`. -/
def runCase (job : Job) (t : Vtop N) : ℕ → ℕ → BitVec 32 := (streamed job t (totalTicks N job)).2

section proofs
variable {job : Job} {t : Vtop N}

theorem slice_putWeights (w : ℕ → ℕ → BitVec 8) {s : Bus} (hs : s.Fits (N * N)) {i j : ℕ} (hi : i < N)
    (hj : j < N) : (putWeights N w s).slice ((i * N + j) * 8) 8 = w i j := by
  have hdiv : ∀ i j, j < N → (i * N + j) / N = i ∧ (i * N + j) % N = j := by
    intro i j hj
    constructor
    · rw [Nat.mul_comm, Nat.mul_add_div (by omega), Nat.div_eq_of_lt hj, Nat.add_zero]
    · rw [Nat.mul_comm, Nat.mul_add_mod, Nat.mod_eq_of_lt hj]
  have hflat : ∀ i n s, n ≤ N → forLoop (fun j s => Bus.putByte (i * N + j) (w i j) s) n s =
      forLoop (fun j s => Bus.putByte (i * N + j) (w ((i * N + j) / N) ((i * N + j) % N)) s) n s := by
    intro i n s hn
    induction n with
    | zero => rfl
    | succ n ih => rw [forLoop, forLoop, ih (by omega), (hdiv i n (by omega)).1, (hdiv i n (by omega)).2]
  have hrows : putWeights N w s = forLoop (fun n s => Bus.putByte n (w (n / N) (n % N)) s) (N * N) s := by
    rw [← forLoop_nest (fun n s => Bus.putByte n (w (n / N) (n % N)) s) N N]
    unfold putWeights
    congr 1
    funext r s
    exact hflat r N s le_rfl
  have hlt : i * N + j < N * N := by
    calc i * N + j < (i + 1) * N := by rw [Nat.succ_mul]; omega
      _ ≤ N * N := Nat.mul_le_mul_right N hi
  rw [hrows, Bus.slice_putBytes hs le_rfl hlt, (hdiv i j hj).1, (hdiv i j hj).2]

theorem rawPsum_eq (t : Vtop N) (c : Fin N) : rawPsum t c.val = psumOut t.array c := by
  have hc := c.isLt
  apply BitVec.eq_of_getLsbD_eq
  intro k hk
  have hbyte : c.val * 4 + k / 8 < N * 4 := by omega
  have hbit : (c.val * 4 + k / 8) * 8 + k % 8 = c.val * 32 + k := by omega
  rw [rawPsum, Bus.getLsbD_orBytes _ hk, Bus.getByte_eq_slice t.psumOutFlat_fits hbyte,
    Bus.getLsbD_slice _ _ _ _ (Nat.mod_lt k (by decide)), hbit, t.bit_psumOutFlat c hk]

/-- What every streaming tick leaves of the ports. -/
theorem streamed_ports (job : Job) (t : Vtop N) (n : ℕ) :
    (streamed job t n).1.rst = false ∧ (streamed job t n).1.weightLoad = false ∧
      (streamed job t n).1.actInFlat.Fits N := by
  induction n with
  | zero => exact ⟨rfl, rfl, Bus.zero_fits le_rfl⟩
  | succ n ih => exact ⟨ih.1, ih.2.1, ih.2.2.putBytes⟩

/-- The ports before each tick of a case. -/
def portsAt (job : Job) (t : Vtop N) : ℕ → Vtop N
  | 0 => resetPorts t
  | 1 => loadPorts job (resetPorts t).tick
  | j + 2 => streamPorts job j (streamed job t j).1

theorem harness (job : Job) (t : Vtop N) : Harness job (portsAt job t) where
  linked n := by
    rcases n with _ | _ | n
    · rfl
    · rfl
    · rfl
  reset := rfl
  load := ⟨rfl, rfl⟩
  weights r c := slice_putWeights job.w (Bus.zero_fits le_rfl) r.isLt c.isLt
  stream j := ⟨(streamed_ports job t j).1, (streamed_ports job t j).2.1⟩
  acts j r := Bus.slice_putBytes (streamed_ports job t j).2.2 le_rfl r.isLt

/-- Tick `i` records `psum_hist[i]`, and no other tick touches it. -/
theorem streamed_hist (job : Job) (t : Vtop N) {i c : ℕ} (hc : c < N) (n : ℕ) :
    (streamed job t n).2 i c = if i < n then rawPsum (portsAt job t (i + 2)).tick c else 0 := by
  induction n with
  | zero => rfl
  | succ n ih =>
    show Function.update (streamed job t n).2 n _ i c = _
    by_cases hin : i = n
    · subst hin
      rw [Function.update_self, if_pos hc, if_pos (Nat.lt_succ_self i)]
      rfl
    · rw [Function.update_of_ne hin, ih]
      exact if_congr (by omega) rfl rfl

theorem runCase_eq (job : Job) (t : Vtop N) {k c : ℕ} (hk : k < job.M) (hc : c < N) :
    k + c + N - 1 < totalTicks N job ∧ runCase job t (k + c + N - 1) c = job.dot N k c := by
  have hlt : k + c + N - 1 < totalTicks N job := by
    unfold totalTicks
    omega
  refine ⟨hlt, ?_⟩
  rw [runCase, streamed_hist job t hc, if_pos hlt, rawPsum_eq _ ⟨c, hc⟩]
  exact (harness job t).psumOut_eq hk ⟨c, hc⟩ (show k + c + N - 1 + 1 = k + c + N by omega)

end proofs

end TbMain

/-! ## Results -/

/-- **Both harnesses read the product.**  The tile server answers every sequence
of requests with the products modulo `2 ^ 32`, each entry being sampled at one
tick of its run, whatever the array held before; with the sampling tick
`k + c + N - 1` the same holds for every array size. -/
theorem harnesses_read_product :
    (∀ (jobs : List Job) (t : Vtop 4), TileRunner.serveAll jobs t = jobs.map fun job =>
      ⟨(List.range job.M).map fun m => (List.range 4).map fun c =>
          BitVec.ofInt 32 (∑ r ∈ Finset.range 4, (job.a m r).toInt * (job.w r c).toInt), job.M + 9⟩) ∧
    (∀ (job : Job), ∀ m < job.M, ∀ c < 4,
      ∃! j, j < TileRunner.streamTicks job ∧ TileRunner.sampleRow job j c = some m) ∧
    (∀ (N : ℕ) (job : Job) (t : Vtop N), ∀ k < job.M, ∀ c < N,
      k + c + N - 1 < TbMain.totalTicks N job ∧ TbMain.runCase job t (k + c + N - 1) c =
        BitVec.ofInt 32 (∑ r ∈ Finset.range N, (job.a k r).toInt * (job.w r c).toInt)) := by
  refine ⟨TileRunner.serveAll_eq, ?_, ?_⟩
  · intro job m hm c hc
    exact TileRunner.sampled_once hm hc
  · intro N job t k hk c hc
    exact TbMain.runCase_eq job t hk hc

/-- One row through weights `w[r][c] = r + c`. -/
def demoJob : Job := ⟨1, fun r c => BitVec.ofNat 8 (r + c), fun _ r => if r = 1 then -3 else BitVec.ofNat 8 r⟩

/-- A model that powers up with junk in every register. -/
def demoTop : Vtop 4 := ⟨false, true, .wide fun _ => 5, .int 77#32, fun _ _ => ⟨9, 9, 9⟩⟩

/-- An empty request and a row: `2 * (2 + c) + 3 * (3 + c) - 3 * (1 + c)`. -/
theorem harnesses_read_product_demo :
    TileRunner.serveAll [{ demoJob with M := 0 }, demoJob] demoTop =
      [⟨[], 9⟩, ⟨[[10, 12, 14, 16]], 10⟩] := by
  rw [harnesses_read_product.1]
  decide

end Sim
