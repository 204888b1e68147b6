import TensorAccel.Sched.Devices
import TensorAccel.Sched.Int8Forward

/-! # The MNIST runs

    `sched/mnist/run_rtl.py` and `sched/mnist/run_coproc.py`: an int8 network of two
    layers on each backend, compared with `int8_forward` of `sched/mnist/quantize.py`.
    A run begins with the pixels that `sym_quantize` returns; the accuracies are
    counted before the division by the number of images, and the accuracy of the
    fp32 network is left out. -/

open NdArray FixedPoint Tiler Quantize Nn CoprocBackend TileServer

namespace Mnist

variable {σ : Type _}

/-! ## Model -/

/-- `int(np.sum(x == y))` -/
def countEq (x y : NdArray (BitVec 32)) : ℕ := (x.data.zip y.data).countP fun p => p.1 = p.2

/-- `.argmax(axis=1)` of a batch of logits, which has a column at least. -/
def argmax (x : NdArray (BitVec 32)) : List ℕ :=
  (List.range (x.shape.getD 0 0)).map fun i =>
    (Quantize.argmax (x.shape.getD 1 0) fun j => x.get [i, j]).getD 0

/-- How many predictions are right. -/
def correct (logits : NdArray (BitVec 32)) (y : List ℕ) : ℕ := ((argmax logits).zip y).countP fun p => p.1 = p.2

/-- The numbers that both runs print. -/
structure Report where
  nImages : ℕ
  rtlCorrect : ℕ
  numpyCorrect : ℕ
  bitExact : Bool
  nExact : ℕ
  nTotal : ℕ
  tiles : ℕ
  cycles : ℤ
  macs : ℕ
  deriving DecidableEq, Repr

/-- The common part of the two `main` functions. -/
def infer (q : Quantized) (x_i8 : NdArray (BitVec 8)) (y : List ℕ) (b : Backend σ) (s : σ) : Option (Report × σ) := do
  let n := x_i8.shape.getD 0 0
  let (acc1_rtl, stats1, s) ← execute (plan n 784 64 4) x_i8 q.W1_i8 b s 4
  let acc1_numpy_raw ← product32 x_i8 q.W1_i8
  let exact1 := decide (acc1_rtl = acc1_numpy_raw)
  let acc1 ← acc1_rtl.addRow q.b1_i32
  let h ← q.hidden acc1
  let (acc2_rtl, stats2, s) ← execute (plan n 64 10 4) h q.W2_i8 b s 4
  let acc2_numpy_raw ← product32 h q.W2_i8
  let exact2 := decide (acc2_rtl = acc2_numpy_raw)
  let logits_rtl ← acc2_rtl.addRow q.b2_i32
  -- the numpy reference is written out once more in both scripts
  let logits_np ← int8Forward q x_i8
  some ({
    nImages := n
    rtlCorrect := correct logits_rtl y
    numpyCorrect := correct logits_np y
    bitExact := exact1 && exact2
    nExact := countEq acc1_rtl acc1_numpy_raw + countEq acc2_rtl acc2_numpy_raw
    nTotal := acc1_rtl.data.length + acc2_rtl.data.length
    tiles := stats1.tiles + stats2.tiles
    cycles := stats1.cycles + stats2.cycles
    macs := stats1.macs + stats2.macs }, s)

/-- What `run_coproc` prints in addition. -/
structure CoprocReport extends Report where
  nCommands : ℕ
  rdBeats : ℕ
  wrBeats : ℕ
  dmaCycles : ℤ
  deriving DecidableEq, Repr

/-- `run_coproc.main`, with at most `fuel` polls of each batch. -/
def runCoproc (fuel : ℕ) (stall : Bool) (q : Quantized) (x_i8 : NdArray (BitVec 8)) (y : List ℕ)
    (server : CoprocRunner.Server) : Option CoprocReport := do
  let b ← (Session.new stall server).toOption
  let (r, b) ← infer q x_i8 y (Session.backend fuel) b
  let ((rdBeats, wrBeats), _) ← b.beats.toOption
  some ⟨r, b.nCommands, rdBeats, wrBeats, b.totalCycles⟩

/-! ## Any backend -/

/-- The arrays have the shapes of the network, and its rescaling is one that int64 can
hold. -/
structure Fitting (q : Quantized) (x_i8 : NdArray (BitVec 8)) (n : ℕ) : Prop extends q.Shaped where
  x_i8 : x_i8.shape = [n, 784]
  M0_1 : Fits 64 q.M0_1
  shift_1 : -32 ≤ q.shift_1

section infer
variable {q : Quantized} {x_i8 : NdArray (BitVec 8)} {y : List ℕ} {n : ℕ}

theorem countEq_self (x : NdArray (BitVec 32)) : countEq x x = x.data.length := by
  have hall : ∀ p ∈ x.data.zip x.data, decide (p.1 = p.2) = true := by
    intro p hp
    obtain ⟨k, hk, rfl⟩ := List.mem_iff_getElem.mp hp
    simp
  rw [countEq, List.countP_eq_length.mpr hall, List.length_zip, Nat.min_self]

/-- A backend that follows numpy computes the logits of `int8_forward`. -/
theorem infer_follows {b : Backend σ} {cost : ℤ} {limit : ℕ} {I : ℕ → σ → Prop} (hb : b.Follows n cost limit I)
    (hlimit : 3184 ≤ limit) (h : Fitting q x_i8 n) {s : σ} (hI : I 0 s) (y : List ℕ) :
    ∃ logits s', int8Forward q x_i8 = some logits ∧ I 3184 s' ∧ infer q x_i8 y b s =
      some (⟨n, correct logits y, correct logits y, true, n * 74, n * 74, 3184, cost * 3184, n * 50816⟩, s') := by
  have hlen1 : (plan n 784 64 4).length = 3136 := length_plan n 784 64
  have hlen2 : (plan n 64 10 4).length = 48 := length_plan n 64 10
  -- the first layer
  obtain ⟨acc1, stats1, s₁, hexec1, hprod1, htiles1, -, hmacs1, hcycles1, hI₁⟩ :=
    hb.execute_eq h.x_i8 h.W1 (List.Perm.refl _) hI (by omega)
  have htiles1 : stats1.tiles = 3136 := htiles1
  obtain ⟨_, hprod1', hshape1, -⟩ := product32_eq h.x_i8 h.W1
  obtain rfl := Option.some.inj (hprod1.symm.trans hprod1')
  have hadd1 := addRow_eq hshape1 h.b1
  obtain ⟨hid, hhid, hhidshape⟩ := hidden_eq h.M0_1 h.shift_1 (ofFn₂ n 64 fun i j => acc1.get [i, j] + q.b1_i32.get [j])
  -- the second
  obtain ⟨acc2, stats2, s₂, hexec2, hprod2, htiles2, -, hmacs2, hcycles2, hI₂⟩ :=
    hb.execute_eq hhidshape h.W2 (List.Perm.refl _) hI₁ (by omega)
  obtain ⟨_, hprod2', hshape2, -⟩ := product32_eq hhidshape h.W2
  obtain rfl := Option.some.inj (hprod2.symm.trans hprod2')
  have hadd2 := addRow_eq hshape2 h.b2
  have hforward : int8Forward q x_i8 = some (ofFn₂ n 10 fun i j => acc2.get [i, j] + q.b2_i32.get [j]) := by
    simp only [int8Forward, hprod1, hadd1, hhid, hprod2, hadd2, Option.bind_eq_bind, Option.bind_some]
  have hrows : x_i8.shape.getD 0 0 = n := by
    rw [h.x_i8]
    rfl
  have htiles2 : stats2.tiles = 48 := htiles2
  have hsize : acc1.data.length + acc2.data.length = n * 74 := by
    rw [acc1.size, acc2.size, hshape1, hshape2]
    simp
    ring
  have htiles : stats1.tiles + stats2.tiles = 3184 := by omega
  have hcycles : stats1.cycles + stats2.cycles = cost * 3184 := by
    rw [hcycles1, hcycles2, htiles1, htiles2]
    push_cast
    ring
  have hmacs : stats1.macs + stats2.macs = n * 50816 := by
    rw [hmacs1, hmacs2]
    ring
  refine ⟨_, s₂, hforward, ?_, ?_⟩
  · rw [htiles1, htiles2] at hI₂
    exact hI₂
  · simp only [infer, hrows, hexec1, hprod1, hadd1, hhid, hexec2, hprod2, hadd2, hforward, Option.bind_eq_bind,
      Option.bind_some, decide_true, Bool.and_self, countEq_self, hsize, htiles, hcycles, hmacs]

/-! ## The two runs -/

/-- A network of zeros. -/
def demoWeights : Quantized where
  W1_i8 := ofFn₂ 784 64 fun _ _ => 0
  b1_i32 := ofFn [64] fun _ => 0
  W2_i8 := ofFn₂ 64 10 fun _ _ => 0
  b2_i32 := ofFn [10] fun _ => 0
  M0_1 := 2 ^ 30
  shift_1 := 0

def demoImages (n : ℕ) : NdArray (BitVec 8) := ofFn₂ n 784 fun i j => BitVec.ofNat 8 (i + j)

theorem fitting_demo (n : ℕ) : Fitting demoWeights (demoImages n) n :=
  ⟨⟨rfl, rfl, rfl, rfl⟩, rfl, by decide, by decide⟩

/-- **`run_coproc`** on 1 to 255 images is bit-exact, with stalls or without, from any state
of the circuit, and its 3184 commands take 65541 cycles each.  On more images, 1000 of
which are its default, it never returns. -/
theorem run_coproc_exact (h : Fitting q x_i8 n) (hpos : 1 ≤ n) (stall : Bool) (y : List ℕ)
    (server : CoprocRunner.Server) :
    (n ≤ 255 → ∃ logits, int8Forward q x_i8 = some logits ∧ ∀ fuel, runCoproc (fuel + 1) stall q x_i8 y server =
      some ⟨⟨n, correct logits y, correct logits y, true, n * 74, n * 74, 3184, 208682544, n * 50816⟩,
        3184, 3184 * (4 + n), 3184 * n, 208682544⟩) ∧
    (256 ≤ n → ∀ fuel, runCoproc fuel stall q x_i8 y server = none) := by
  obtain ⟨b₀, hnew, hserved⟩ := Session.new_served stall server n
  refine ⟨fun hn => ?_, fun hn fuel => ?_⟩
  · obtain ⟨logits, -, hforward, -⟩ :=
      infer_follows (Session.session_follows hpos hn 0) (by decide) h hserved y
    refine ⟨logits, hforward, fun fuel => ?_⟩
    obtain ⟨logits', b, hforward', hserved', hrun⟩ :=
      infer_follows (Session.session_follows hpos hn fuel) (by decide) h hserved y
    obtain rfl := Option.some.inj (hforward.symm.trans hforward')
    have hreads : 3184 * (4 + n) % 2 ^ 32 = 3184 * (4 + n) := Nat.mod_eq_of_lt (by omega)
    have hwrites : 3184 * n % 2 ^ 32 = 3184 * n := Nat.mod_eq_of_lt (by omega)
    have hbeats := hserved'.beats
    rw [hreads, hwrites] at hbeats
    simp only [runCoproc, hnew, hrun, hbeats, Except.toOption, Option.bind_eq_bind, Option.bind_some,
      hserved'.nCommands, hserved'.totalCycles]
    norm_num
  · have hfirst : execute (plan n 784 64 4) x_i8 q.W1_i8 (Session.backend fuel) b₀ 4 = none := by
      refine execute_none (fun Wt At hWt hAt => hserved.none hn hWt hAt fuel) h.x_i8 h.W1 ?_
      rw [ne_eq, ← List.length_eq_zero_iff, length_plan]
      decide
    have hrows : x_i8.shape.getD 0 0 = n := by
      rw [h.x_i8]
      rfl
    simp only [runCoproc, hnew, Except.toOption, infer, hrows, hfirst, Option.bind_eq_bind, Option.bind_some,
      Option.bind_none]

/-- The counts of `results_coproc.txt`, for its 200 images. -/
theorem run_coproc_exact_demo :
    (∃ r, runCoproc 1 true demoWeights (demoImages 200) (List.replicate 200 0) Session.demoServer = some r ∧
      r.bitExact = true ∧ r.nTotal = 14800 ∧ r.tiles = 3184 ∧ r.cycles = 208682544 ∧ r.macs = 10163200 ∧
      r.nCommands = 3184 ∧ r.rdBeats = 649536 ∧ r.wrBeats = 636800 ∧ r.dmaCycles = 208682544) ∧
    runCoproc 9999 false demoWeights (demoImages 1000) (List.replicate 1000 0) Session.demoServer = none := by
  constructor
  · obtain ⟨logits, -, hrun⟩ := (run_coproc_exact (fitting_demo 200) (by decide) true (List.replicate 200 0)
      Session.demoServer).1 (by decide)
    exact ⟨_, hrun 0, rfl, rfl, rfl, rfl, rfl, rfl, rfl, rfl, rfl⟩
  · exact (run_coproc_exact (fitting_demo 1000) (by decide) false (List.replicate 1000 0)
      Session.demoServer).2 (by decide) 9999

end infer

end Mnist
