import TensorAccel.Driver.Returns
import TensorAccel.Sched.Int8Forward

/-! # The quantized MLP (`sw/int8_mlp.h`)

    Inference of one image in C, whose matrix products the coprocessor
    computes, compared with the numpy pipeline that it mirrors.  `MLP_IN`,
    `MLP_HIDDEN` and `MLP_OUT` are 784, 64 and 10. -/

open Finset FixedPoint NdArray Tiler Quantize CoprocDriver ActionSystem

namespace Int8Mlp

variable {σ : Type _}

/-! ## Model -/

/-- `int8_mlp_weights`, row-major. -/
structure Weights where
  W1_i8 : ℕ → BitVec 8
  b1_i32 : ℕ → BitVec 32
  W2_i8 : ℕ → BitVec 8
  b2_i32 : ℕ → BitVec 32
  M0_1 : BitVec 32
  shift_1 : BitVec 32

/-- `coproc_matmul_tiled` on a device with a state of its own. -/
structure Device (σ : Type _) where
  matmulTiled : σ → Problem → Option ((ℕ → BitVec 32) × σ)

/-- `C` is `A @ W` modulo `2 ^ 32`. -/
def IsProduct (p : Problem) (C : ℕ → BitVec 32) : Prop :=
  ∀ m < p.M, ∀ n < p.N, C (m * p.N + n) =
    BitVec.ofInt 32 (∑ k ∈ range p.K, (p.a (m * p.K + k)).toInt * (p.w (k * p.N + n)).toInt)

/-- The device yields the product of a row with a `K` by `N` matrix, in any state. -/
def Device.Exact (d : Device σ) (K N : ℕ) : Prop :=
  ∀ s a w, ∃ C s', d.matmulTiled s ⟨1, K, N, a, w⟩ = some (C, s') ∧ IsProduct ⟨1, K, N, a, w⟩ C

/-- int64 arithmetic of C, undefined where it overflows. -/
def mulC (x y : BitVec 64) : Option (BitVec 64) := if Fits 64 (x.toInt * y.toInt) then some (x * y) else none

def addC (x y : BitVec 64) : Option (BitVec 64) := if Fits 64 (x.toInt + y.toInt) then some (x + y) else none

/-- Shifts by less than the width; a left shift is of a nonnegative number. -/
def shlC (x : BitVec 64) (n : ℤ) : Option (BitVec 64) :=
  if 0 ≤ n ∧ n < 64 ∧ 0 ≤ x.toInt ∧ Fits 64 (x.toInt * 2 ^ n.toNat) then some (x <<< n.toNat) else none

def shrC (x : BitVec 64) (n : ℤ) : Option (BitVec 64) :=
  if 0 ≤ n ∧ n < 64 then some (x.sshiftRight n.toNat) else none

/-- `int8_mlp_requant`; `none` where the behaviour is undefined. -/
def int8MlpRequant (acc M0 shift : BitVec 32) : Option (BitVec 64) := do
  let prod ← mulC (acc.signExtend 64) (M0.signExtend 64)
  let rs := 31 - shift.toInt
  if 0 ≤ rs then
    let roundVal ← (if 0 < rs then shlC 1 (rs - 1) else some 0 : Option (BitVec 64))
    let sum ← addC prod roundVal
    shrC sum rs
  else shlC prod (-rs)

def int8MlpClipRelu (v : BitVec 64) : BitVec 8 :=
  let v := if v.toInt < 0 then 0 else v
  let v := if 127 < v.toInt then 127 else v
  v.setWidth 8

/-- `int8_mlp_infer`, whose int32 additions wrap. -/
def int8MlpInfer (d : Device σ) (s : σ) (wt : Weights) (x_i8 : ℕ → BitVec 8) :
    Option ((ℕ → BitVec 32) × σ) := do
  let (acc1, s) ← d.matmulTiled s ⟨1, 784, 64, x_i8, wt.W1_i8⟩
  let h_i8 ← (List.range 64).mapM fun j =>
    (int8MlpRequant (acc1 j + wt.b1_i32 j) wt.M0_1 wt.shift_1).map int8MlpClipRelu
  let (acc2, s) ← d.matmulTiled s ⟨1, 64, 10, fun k => h_i8.getD k 0, wt.W2_i8⟩
  some (fun c => acc2 c + wt.b2_i32 c, s)

def int8MlpArgmax (logits_i32 : ℕ → BitVec 32) : ℕ :=
  (List.range' 1 9).foldl
    (fun best c => if (logits_i32 best).toInt < (logits_i32 c).toInt then c else best) 0

/-- The parameters of the numpy pipeline in C. -/
def Weights.ofQuantized (q : Quantized) : Weights where
  W1_i8 k := q.W1_i8.data.getD k 0
  b1_i32 k := q.b1_i32.data.getD k 0
  W2_i8 k := q.W2_i8.data.getD k 0
  b2_i32 k := q.b2_i32.data.getD k 0
  M0_1 := BitVec.ofInt 32 q.M0_1
  shift_1 := BitVec.ofInt 32 q.shift_1

/-! ## Requantization -/

theorem int8MlpRequant_eq (acc : BitVec 32) {M0 shift : ℤ} (h0 : 0 ≤ M0) (h : M0 < 2 ^ 31)
    (hlo : -32 ≤ shift) (hhi : shift ≤ 31) :
    int8MlpRequant acc (BitVec.ofInt 32 M0) (BitVec.ofInt 32 shift) = some (requant M0 shift acc) := by
  -- under these bounds no C operation overflows: each has its mathematical value
  have hover := noOverflow acc h0 h hlo
  have hprodval := hover.toInt_prod
  obtain ⟨hM0, hprod, hround, hsum⟩ := hover
  have hshift : (BitVec.ofInt 32 shift).toInt = shift :=
    toInt_ofInt_of_fits (by decide) ⟨by norm_num; omega, by norm_num; omega⟩
  have hext : (BitVec.ofInt 32 M0).signExtend 64 = BitVec.ofInt 64 M0 := by
    rw [BitVec.signExtend, toInt_ofInt_of_fits (by decide) ⟨by norm_num; omega, by norm_num; omega⟩]
  have hacc : (acc.signExtend 64).toInt = acc.toInt := BitVec.toInt_signExtend_of_le (by decide)
  have hM0val := toInt_ofInt_of_fits (by decide) hM0
  have hroundval := toInt_ofInt_of_fits (by decide) hround
  have hmul : mulC (acc.signExtend 64) (BitVec.ofInt 64 M0) = some (acc.signExtend 64 * BitVec.ofInt 64 M0) := by
    rw [mulC, hacc, hM0val, if_pos hprod]
  -- a shift by 0 has no rounding term
  have hterm : (if 0 < 31 - shift then shlC 1 (31 - shift - 1) else some 0) =
      some (BitVec.ofInt 64 (half (31 - shift).toNat)) := by
    by_cases hpos : 0 < 31 - shift
    · obtain ⟨n, hn⟩ : ∃ n : ℕ, 31 - shift = n + 1 := ⟨(31 - shift - 1).toNat, by omega⟩
      have hsucc : (31 - shift).toNat = n + 1 := by omega
      rw [hsucc, half_succ] at hround ⊢
      have hpred : 31 - shift - 1 = n := by omega
      rw [if_pos hpos, hpred, shlC, Int.toNat_natCast, ← one_shiftLeft, if_pos ?_]
      rfl
      exact ⟨by omega, by omega, by decide, by simpa using hround⟩
    · rw [if_neg hpos, show (31 - shift).toNat = 0 by omega]
      rfl
  have hadd : addC (acc.signExtend 64 * BitVec.ofInt 64 M0) (BitVec.ofInt 64 (half (31 - shift).toNat)) =
      some (acc.signExtend 64 * BitVec.ofInt 64 M0 + BitVec.ofInt 64 (half (31 - shift).toNat)) := by
    rw [addC, hprodval, hroundval, if_pos hsum]
  have hshr : ∀ x, shrC x (31 - shift) = some (x.sshiftRight (31 - shift).toNat) := by
    intro x
    rw [shrC, if_pos (by omega)]
  have hrs : 0 ≤ 31 - shift := by omega
  simp only [int8MlpRequant, hshift, hext, hmul, hterm, hadd, hshr, if_pos hrs, Option.bind_eq_bind,
    Option.bind_some]
  rfl

theorem int8MlpClipRelu_eq (v : BitVec 64) : int8MlpClipRelu v = (clip 0 127 v).signExtend 8 := by
  rw [BitVec.signExtend_eq_setWidth_of_le _ (by decide)]
  unfold int8MlpClipRelu clip
  by_cases hneg : v.toInt < 0
  · simp [hneg]
  · by_cases hbig : 127 < v.toInt
    · simp [hneg, hbig]
    · simp [hneg, hbig]

/-! ## argmax -/

/-- After the comparisons with `1, ..., n` the loop holds the first of the largest. -/
theorem argmax_loop (v : ℕ → BitVec 32) (n : ℕ) (best : ℕ)
    (h : (List.range' 1 n).foldl (fun best c => if (v best).toInt < (v c).toInt then c else best) 0 = best) :
    best ≤ n ∧ (∀ j ≤ n, (v j).toInt ≤ (v best).toInt) ∧ ∀ j < best, (v j).toInt < (v best).toInt := by
  induction n generalizing best with
  | zero =>
    obtain rfl : 0 = best := h
    refine ⟨le_rfl, ?_, ?_⟩
    · intro j hj
      rw [Nat.le_zero.mp hj]
    · intro j hj
      omega
  | succ n ih =>
    obtain ⟨hle, hmax, hfirst⟩ := ih _ rfl
    rw [List.range'_concat, List.foldl_append] at h
    generalize (List.range' 1 n).foldl _ 0 = b at *
    simp only [List.foldl_cons, List.foldl_nil, Nat.one_mul, Nat.add_comm 1 n] at h
    by_cases hlt : (v b).toInt < (v (n + 1)).toInt
    · rw [if_pos hlt] at h
      subst h
      refine ⟨le_rfl, ?_, fun j hj => (hmax j (by omega)).trans_lt hlt⟩
      intro j hj
      rcases Nat.lt_or_ge j (n + 1) with hj' | hj'
      · exact ((hmax j (by omega)).trans_lt hlt).le
      · rw [Nat.le_antisymm hj hj']
    · rw [if_neg hlt] at h
      subst h
      refine ⟨by omega, ?_, hfirst⟩
      intro j hj
      rcases Nat.lt_or_ge j (n + 1) with hj' | hj'
      · exact hmax j (by omega)
      · rw [Nat.le_antisymm hj hj']
        exact not_lt.mp hlt

theorem argmax_eq {v out : ℕ → BitVec 32} (h : ∀ c < 10, out c = v c) :
    argmax 10 v = some (int8MlpArgmax out) := by
  obtain ⟨hle, hmax, hfirst⟩ := argmax_loop out 9 (int8MlpArgmax out) rfl
  have hlt : int8MlpArgmax out < 10 := Nat.lt_succ_of_le hle
  rw [argmax, List.find?_range_eq_some]
  refine ⟨?_, List.mem_range.mpr hlt, ?_⟩
  · rw [decide_eq_true_eq]
    intro j hj
    rw [← h j hj, ← h _ hlt]
    exact hmax j (Nat.le_of_lt_succ hj)
  · intro j hj
    rw [Bool.not_eq_true', decide_eq_false_iff_not]
    intro hall
    have hlt' := hall _ hlt
    rw [← h j (hj.trans hlt), ← h _ hlt] at hlt'
    exact absurd hlt' (not_le.mpr (hfirst j hj))

/-! ## Layers -/

/-- A dense layer in numpy before its rescaling. -/
theorem dense_eq {x W : NdArray (BitVec 8)} {b : NdArray (BitVec 32)} {n K N : ℕ} (hx : x.shape = [n, K])
    (hW : W.shape = [K, N]) (hb : b.shape = [N]) :
    ∃ C out, product32 x W = some C ∧ C.addRow b = some out ∧ out.shape = [n, N] ∧
      ∀ i < n, ∀ j < N, out.get [i, j] =
        BitVec.ofInt 32 (∑ k ∈ range K, (x.get [i, k]).toInt * (W.get [k, j]).toInt) + b.get [j] := by
  obtain ⟨C, hC, hshape, hentry⟩ := product32_eq hx hW
  refine ⟨C, _, hC, addRow_eq hshape hb, rfl, ?_⟩
  intro i hi j hj
  rw [get_ofFn₂ _ hi hj, hentry i hi j hj]

/-- A row of `x` sent through the device. -/
theorem row_eq {x W : NdArray (BitVec 8)} {i K N : ℕ} (hW : W.shape = [K, N]) {a : ℕ → BitVec 8}
    (ha : ∀ k < K, a k = x.get [i, k]) {C : ℕ → BitVec 32}
    (hC : IsProduct ⟨1, K, N, a, fun k => W.data.getD k 0⟩ C) {j : ℕ} (hj : j < N) :
    C j = BitVec.ofInt 32 (∑ k ∈ range K, (x.get [i, k]).toInt * (W.get [k, j]).toInt) := by
  have hentry := hC 0 Nat.one_pos j hj
  simp only [Nat.zero_mul, Nat.zero_add] at hentry
  rw [hentry]
  congr 1
  apply Finset.sum_congr rfl
  intro k hk
  rw [ha k (mem_range.mp hk), getD_data_matrix hW]

theorem mapM_range_some {α : Type _} (n : ℕ) {f : ℕ → Option α} {g : ℕ → α} (h : ∀ j, f j = some (g j)) :
    (List.range n).mapM f = some ((List.range n).map g) := by
  rw [funext h]
  exact List.mapM_pure

section infer

variable {q : Quantized} (hq : q.Shaped) (hs : q.Scaled)

/-- The hidden activation that an accumulator becomes. -/
def hidden (q : Quantized) (acc : BitVec 32) : BitVec 8 :=
  (clip 0 127 (requant q.M0_1 q.shift_1 acc)).signExtend 8

include hs in
theorem hidden_numpy (acc : NdArray (BitVec 32)) : q.hidden acc = some (acc.map (hidden q)) := by
  have hM0 := (noOverflow 0 hs.nonneg hs.upper hs.shift_lower).multiplier
  rw [Quantized.hidden, applyRequant_eq_map acc hM0 hs.shift_lower hs.shift_upper, Option.map_some, Nn.clipInt8,
    NdArray.map_map]
  rfl

include hs in
theorem hidden_c (acc : BitVec 32) :
    (int8MlpRequant acc (Weights.ofQuantized q).M0_1 (Weights.ofQuantized q).shift_1).map int8MlpClipRelu = some (hidden q acc) := by
  rw [show int8MlpRequant acc (Weights.ofQuantized q).M0_1 (Weights.ofQuantized q).shift_1 = _ from
    int8MlpRequant_eq acc hs.nonneg hs.upper hs.shift_lower hs.shift_upper, Option.map_some,
    int8MlpClipRelu_eq]
  rfl

include hq hs in
/-- The C code computes, image by image, what numpy computes. -/
theorem int8MlpInfer_eq {x : NdArray (BitVec 8)} {n : ℕ} (hx : x.shape = [n, 784]) {d : Device σ}
    (hd₁ : d.Exact 784 64) (hd₂ : d.Exact 64 10) :
    ∃ logits, int8Forward q x = some logits ∧ logits.shape = [n, 10] ∧
      ∀ i < n, ∀ s, ∃ out s', int8MlpInfer d s (.ofQuantized q) (fun k => x.get [i, k]) = some (out, s') ∧
        ∀ c < 10, out c = logits.get [i, c] := by
  obtain ⟨P, acc1, hP, hacc1, hacc1shape, hacc1entry⟩ := dense_eq hx hq.W1 hq.b1
  have hshape : (acc1.map (hidden q)).shape = [n, 64] := hacc1shape
  obtain ⟨P', logits, hP', hlogits, hlogitsshape, hlogitsentry⟩ := dense_eq hshape hq.W2 hq.b2
  refine ⟨logits, ?_, hlogitsshape, ?_⟩
  · simp only [int8Forward, hP, hacc1, hidden_numpy hs acc1, hP', hlogits, Option.bind_eq_bind, Option.bind_some]
  · intro i hi s
    obtain ⟨C₁, s₁, hC₁, hprod₁⟩ := hd₁ s (fun k => x.get [i, k]) (Weights.ofQuantized q).W1_i8
    -- no element of the hidden layer is refused
    have hhidden := mapM_range_some 64 fun j => hidden_c hs (C₁ j + (Weights.ofQuantized q).b1_i32 j)
    obtain ⟨C₂, s₂, hC₂, hprod₂⟩ := hd₂ s₁
      (fun k => ((List.range 64).map fun j => hidden q (C₁ j + (Weights.ofQuantized q).b1_i32 j)).getD k 0)
      (Weights.ofQuantized q).W2_i8
    refine ⟨fun c => C₂ c + (Weights.ofQuantized q).b2_i32 c, s₂, ?_, ?_⟩
    · simp only [int8MlpInfer, hC₁, hhidden, hC₂, Option.bind_eq_bind, Option.bind_some]
    · intro c hc
      have hrow : ∀ k < 64, ((List.range 64).map fun j => hidden q (C₁ j + (Weights.ofQuantized q).b1_i32 j)).getD k 0 =
          (acc1.map (hidden q)).get [i, k] := by
        intro k hk
        have hacc : C₁ k + (Weights.ofQuantized q).b1_i32 k = acc1.get [i, k] := by
          rw [hacc1entry i hi k hk, row_eq hq.W1 (fun _ _ => rfl) hprod₁ hk, ← getD_data_vector hq.b1]
          rfl
        rw [List.getD_eq_getElem _ _ (by simpa using hk), List.getElem_map, List.getElem_range, hacc,
          get_map _ (hacc1shape ▸ inShape_pair.mpr ⟨hi, hk⟩)]
      have hlogit := row_eq hq.W2 hrow hprod₂ hc
      rw [hlogitsentry i hi c hc, ← hlogit, ← getD_data_vector hq.b2]
      rfl

end infer

/-! ## The coprocessor as the device -/

section coprocessor
variable {L : Type _} [DecidableEq L] {A : ℕ}

/-- What the driver returns is the product. -/
theorem returned_isProduct {ok : Act → Sys L A → Bool} {p : Problem} {b : Buffers L A} {s : Sys L A}
    (h : Reach (Sys.step p b.toLayout) ok Init s) (hret : s.pc = .ret) : IsProduct p s.C := by
  obtain ⟨-, -, hmatrix⟩ := invariants_reach h
  exact fun m hm n hn => hmatrix.product hret hm hn

/-- The driver and the coprocessor. -/
def coprocDevice (b : Buffers L A) : Device (Idle L A) where
  matmulTiled := coprocMatmulTiled b

theorem coprocDevice_exact (b : Buffers L A) {K N : ℕ} (hsmall : (N + 3) / 4 * ((K + 3) / 4) < 2 ^ 16) :
    (coprocDevice b).Exact K N := by
  intro d a w
  obtain ⟨u, d', hcall, hreach, hret⟩ := coprocMatmulTiled_returns b d (p := ⟨1, K, N, a, w⟩) hsmall
  exact ⟨u.C, d', hcall, returned_isProduct hreach hret⟩

end coprocessor

/-- **The C inference is the integer pipeline of `quantize.py`**, on every image
of a batch: the same logits, the same class on ties too, and for every int32
accumulator the same rescaled value, computed without overflow. -/
theorem int8_mlp_infer_correct {q : Quantized} (hq : q.Shaped) (hs : q.Scaled) {x : NdArray (BitVec 8)} {n : ℕ}
    (hx : x.shape = [n, 784]) {d : Device σ} (hd₁ : d.Exact 784 64) (hd₂ : d.Exact 64 10) :
    (∃ logits, int8Forward q x = some logits ∧ logits.shape = [n, 10] ∧
      ∀ i < n, ∀ s, ∃ out s', int8MlpInfer d s (.ofQuantized q) (fun k => x.get [i, k]) = some (out, s') ∧
        (∀ c < 10, out c = logits.get [i, c]) ∧
        argmax 10 (fun c => logits.get [i, c]) = some (int8MlpArgmax out)) ∧
    ∀ acc : BitVec 32, NoOverflow acc q.M0_1 q.shift_1 ∧
      ∃ r, int8MlpRequant acc (Weights.ofQuantized q).M0_1 (Weights.ofQuantized q).shift_1 = some r ∧
        applyRequant ⟨[1], [acc], rfl⟩ q.M0_1 q.shift_1 = some ⟨[1], [r], rfl⟩ := by
  constructor
  · obtain ⟨logits, hforward, hshape, hrows⟩ := int8MlpInfer_eq hq hs hx hd₁ hd₂
    refine ⟨logits, hforward, hshape, ?_⟩
    intro i hi s
    obtain ⟨out, s', hinfer, hout⟩ := hrows i hi s
    exact ⟨out, s', hinfer, hout, argmax_eq hout⟩
  · intro acc
    have hover := noOverflow acc hs.nonneg hs.upper hs.shift_lower
    refine ⟨hover, requant q.M0_1 q.shift_1 acc,
      int8MlpRequant_eq acc hs.nonneg hs.upper hs.shift_lower hs.shift_upper, ?_⟩
    exact applyRequant_eq_map _ hover.multiplier hs.shift_lower hs.shift_upper

/-- The coprocessor after a reset. -/
def demoIdle : Idle (ℕ ⊕ ℕ) 32 where
  port := demoStart.port
  mem _ := 0
  waiting := rfl

/-- A network with a negative half-ulp rescaling, on two images. -/
def demoQuantized : Quantized where
  W1_i8 := ofFn₂ 784 64 fun k j => BitVec.ofNat 8 (k + j)
  b1_i32 := ofFn [64] fun _ => -3
  W2_i8 := ofFn₂ 64 10 fun k c => BitVec.ofNat 8 (k * c)
  b2_i32 := ofFn [10] fun _ => 5
  M0_1 := 1073741824
  shift_1 := -7

/-- The second of two images, on the coprocessor. -/
theorem int8_mlp_infer_correct_demo :
    ∃ logits, int8Forward demoQuantized (ofFn₂ 2 784 fun i k => BitVec.ofNat 8 (i + k)) = some logits ∧
      ∃ out d, int8MlpInfer (coprocDevice demoBuffers) demoIdle (.ofQuantized demoQuantized)
        (fun k => (ofFn₂ 2 784 fun i k => BitVec.ofNat 8 (i + k)).get [1, k]) = some (out, d) ∧
        out 9 = logits.get [1, 9] := by
  obtain ⟨⟨logits, hforward, -, hrows⟩, -⟩ := int8_mlp_infer_correct (q := demoQuantized)
    ⟨rfl, rfl, rfl, rfl⟩ ⟨by decide, by decide, by decide, by decide⟩
    (x := ofFn₂ 2 784 fun i k => BitVec.ofNat 8 (i + k)) rfl
    (coprocDevice_exact demoBuffers (K := 784) (N := 64) (by decide)) (coprocDevice_exact demoBuffers (by decide))
  obtain ⟨out, d, hinfer, hout, -⟩ := hrows 1 (by decide) demoIdle
  exact ⟨logits, hforward, out, d, hinfer, hout 9 (by decide)⟩

end Int8Mlp
