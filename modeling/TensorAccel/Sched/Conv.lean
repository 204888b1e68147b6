import TensorAccel.Sched.Quant

/-! # Convolution as a product

    `Conv2d` multiplies the patches of its input by a matrix of weights.  The
    rows of the product are the pixels `(n, i, j)` and its inner index is
    `(c, dy, dx)`; both are row-major, so that the reshapes and transposes on
    either side of the product cancel. -/

open Finset NdArray FixedPoint Tiler Quantize

namespace Nn

variable {α σ : Type _}

/-! ## Model -/

/-- `W.reshape(out_ch, -1).T`; numpy cannot infer an axis next to an empty one. -/
def flattenWeights [Zero α] (W : NdArray α) (out_ch : ℕ) : Option (NdArray α) :=
  if out_ch = 0 then none
  else do
    let m ← W.reshape [out_ch, W.shape.prod / out_ch]
    some (m.transpose [1, 0])

/-- `Conv2d` before `quantize`, over exact numbers. -/
structure Conv2dFp32 (α : Type _) where
  in_ch : ℕ
  out_ch : ℕ
  kh : ℕ
  kw : ℕ
  W : NdArray α
  b : NdArray α

def Conv2dFp32.forwardFp32 [NonUnitalNonAssocSemiring α] (l : Conv2dFp32 α) (x : NdArray α) :
    Option (NdArray α) := do
  let (cols, N, OH, OW) ← im2col x l.kh l.kw
  let Wmat ← flattenWeights l.W l.out_ch
  let prod ← cols.matmul Wmat
  let out ← prod.addRow l.b
  let out ← out.reshape [N, OH, OW, l.out_ch]
  some (out.transpose [0, 3, 1, 2])

/-! ## Index arithmetic -/

section indices
variable [Zero α] {N C OH OW kh kw Co : ℕ}

theorem shape_transpose_pixels {y : NdArray α} (hy : y.shape = [N, OH, OW, Co]) :
    (y.transpose [0, 3, 1, 2]).shape = [N, Co, OH, OW] := by
  rw [transpose, shape_ofFn, hy]
  rfl

theorem get_transpose_pixels {y : NdArray α} (hy : y.shape = [N, OH, OW, Co]) {n co i j : ℕ} (hn : n < N)
    (hco : co < Co) (hi : i < OH) (hj : j < OW) :
    (y.transpose [0, 3, 1, 2]).get [n, co, i, j] = y.get [n, i, j, co] := by
  rw [transpose, hy]
  exact get_ofFn _ (inShape_quad.mpr ⟨hn, hco, hi, hj⟩)

/-- The rows of a product are put back at their pixels. -/
theorem pixels_entries {x : NdArray α} (hacc : x.shape = [N * OH * OW, Co]) :
    ∃ y, x.reshape [N, OH, OW, Co] = some y ∧ y.shape = [N, OH, OW, Co] ∧
      ∀ n < N, ∀ co < Co, ∀ i < OH, ∀ j < OW,
        (y.transpose [0, 3, 1, 2]).get [n, co, i, j] = x.get [(n * OH + i) * OW + j, co] := by
  have hsize : [N, OH, OW, Co].prod = x.shape.prod := by
    rw [hacc]
    simp only [List.prod_cons, List.prod_nil]
    ring
  obtain ⟨y, hy, hshape⟩ := reshape_eq_some hsize
  refine ⟨y, hy, hshape, ?_⟩
  intro n hn co hco i hi j hj
  have hoffset : ravel [N, OH, OW, Co] [n, i, j, co] =
      ravel x.shape [(n * OH + i) * OW + j, co] := by
    rw [hacc]
    simp only [ravel, List.prod_cons, List.prod_nil]
    ring
  rw [get_transpose_pixels hshape hn hco hi hj, get_reshape hy hoffset]

/-- Column `co` of the weight matrix is the kernel of channel `co`. -/
theorem flattenWeights_entries {w : NdArray α} (hw : w.shape = [Co, C, kh, kw]) (hpos : 0 < Co) :
    ∃ m, flattenWeights w Co = some m ∧ m.shape = [C * kh * kw, Co] ∧
      ∀ co < Co, ∀ c < C, ∀ dy < kh, ∀ dx < kw,
        m.get [(c * kh + dy) * kw + dx, co] = w.get [co, c, dy, dx] := by
  have hcols : w.shape.prod / Co = C * kh * kw := by
    rw [hw]
    simp only [List.prod_cons, List.prod_nil, Nat.mul_one, ← Nat.mul_assoc]
    rw [Nat.mul_assoc, Nat.mul_assoc, Nat.mul_div_cancel_left _ hpos, Nat.mul_assoc]
  have hsize : [Co, C * kh * kw].prod = w.shape.prod := by
    rw [hw]
    simp only [List.prod_cons, List.prod_nil]
    ring
  obtain ⟨y, hy, hshape⟩ := reshape_eq_some hsize
  refine ⟨y.transpose [1, 0], ?_, ?_, ?_⟩
  · simp only [flattenWeights, Nat.ne_of_gt hpos, if_false, hcols, hy, Option.bind_eq_bind, Option.bind_some]
  · rw [transpose, shape_ofFn, hshape]
    rfl
  · intro co hco c hc dy hdy dx hdx
    have hrow : (c * kh + dy) * kw + dx < C * kh * kw := pixel_lt hc hdy hdx
    have hoffset : ravel [Co, C * kh * kw] [co, (c * kh + dy) * kw + dx] = ravel w.shape [co, c, dy, dx] := by
      rw [hw]
      simp only [ravel, List.prod_cons, List.prod_nil]
      ring
    rw [← get_reshape hy hoffset, transpose, hshape]
    exact get_ofFn _ (inShape_pair.mpr ⟨hrow, hco⟩)

end indices

/-- A sum over the columns of a row of patches. -/
theorem sum_patch {M : Type _} [AddCommMonoid M] (f : ℕ → M) (C kh kw : ℕ) :
    ∑ l ∈ range (C * kh * kw), f l =
      ∑ c ∈ range C, ∑ dy ∈ range kh, ∑ dx ∈ range kw, f ((c * kh + dy) * kw + dx) := by
  rw [← Tiling.sum_tiles f kw (C * kh),
    ← Tiling.sum_tiles (fun t => ∑ dx ∈ range kw, f (t * kw + dx)) kh C]

theorem sum_patch_congr {M : Type _} [AddCommMonoid M] {f g : ℕ → ℕ → ℕ → M} {C kh kw : ℕ}
    (h : ∀ c < C, ∀ dy < kh, ∀ dx < kw, f c dy dx = g c dy dx) :
    ∑ c ∈ range C, ∑ dy ∈ range kh, ∑ dx ∈ range kw, f c dy dx =
      ∑ c ∈ range C, ∑ dy ∈ range kh, ∑ dx ∈ range kw, g c dy dx := by
  apply sum_congr rfl
  intro c hc
  apply sum_congr rfl
  intro dy hdy
  apply sum_congr rfl
  intro dx hdx
  exact h c (mem_range.mp hc) dy (mem_range.mp hdy) dx (mem_range.mp hdx)

/-! ## Results -/

/-- Entry `(n, co, i, j)` of the convolution of `x` with the kernels `w`, plus bias. -/
def convAt [NonUnitalNonAssocSemiring α] (x w b : NdArray α) (C kh kw n co i j : ℕ) : α :=
  ∑ c ∈ range C, ∑ dy ∈ range kh, ∑ dx ∈ range kw, x.get [n, c, i + dy, j + dx] * w.get [co, c, dy, dx] +
    b.get [co]

/-- The parameters have the shapes that the layer declares, and `x` is a batch
of `N` images of `H` by `W` pixels. -/
structure Conv2dFp32.Shaped (l : Conv2dFp32 α) (x : NdArray α) (N H W : ℕ) : Prop where
  input : x.shape = [N, l.in_ch, H, W]
  weights : l.W.shape = [l.out_ch, l.in_ch, l.kh, l.kw]
  bias : l.b.shape = [l.out_ch]

theorem forwardFp32_eq [NonUnitalNonAssocSemiring α] {l : Conv2dFp32 α} {x : NdArray α} {N H W : ℕ}
    (h : l.Shaped x N H W) (hH : l.kh ≤ H + 1) (hW : l.kw ≤ W + 1) (hpos : 0 < l.out_ch) :
    ∃ out, l.forwardFp32 x = some out ∧ out.shape = [N, l.out_ch, H + 1 - l.kh, W + 1 - l.kw] ∧
      ∀ n < N, ∀ co < l.out_ch, ∀ i < H + 1 - l.kh, ∀ j < W + 1 - l.kw,
        out.get [n, co, i, j] = convAt x l.W l.b l.in_ch l.kh l.kw n co i j := by
  obtain ⟨cols, hcols, hcolsShape, hcolsEntry⟩ := im2col_entries h.input hH hW
  obtain ⟨m, hm, hmShape, hmEntry⟩ := flattenWeights_entries h.weights hpos
  have hprod := matmul_eq hcolsShape hmShape
  have hacc := addRow_eq (A := ofFn₂ (N * (H + 1 - l.kh) * (W + 1 - l.kw)) l.out_ch fun r co =>
    ∑ k ∈ range (l.in_ch * l.kh * l.kw), cols.get [r, k] * m.get [k, co]) rfl h.bias
  obtain ⟨y, hy, hyShape, hyEntry⟩ := pixels_entries (x := ofFn₂ (N * (H + 1 - l.kh) * (W + 1 - l.kw))
    l.out_ch fun r co => (ofFn₂ (N * (H + 1 - l.kh) * (W + 1 - l.kw)) l.out_ch fun r co =>
      ∑ k ∈ range (l.in_ch * l.kh * l.kw), cols.get [r, k] * m.get [k, co]).get [r, co] + l.b.get [co]) rfl
  refine ⟨y.transpose [0, 3, 1, 2], ?_, shape_transpose_pixels hyShape, ?_⟩
  · simp only [Conv2dFp32.forwardFp32, hcols, hm, hprod, hacc, hy, Option.bind_eq_bind, Option.bind_some]
  · intro n hn co hco i hi j hj
    -- the pixel's row of the product
    have hrow : (n * (H + 1 - l.kh) + i) * (W + 1 - l.kw) + j < N * (H + 1 - l.kh) * (W + 1 - l.kw) :=
      pixel_lt hn hi hj
    rw [hyEntry n hn co hco i hi j hj, get_ofFn₂ _ hrow hco, get_ofFn₂ _ hrow hco, sum_patch]
    unfold convAt
    refine congrArg (· + l.b.get [co]) (sum_patch_congr fun c hc dy hdy dx hdx => ?_)
    rw [hcolsEntry n hn i hi j hj c hc dy hdy dx hdx, hmEntry co hco c hc dy hdy dx hdx,
      Nat.add_comm dy i, Nat.add_comm dx j]

/-- Mapping an image array and moving its channel axis commute. -/
theorem transpose_pixels_map {β : Type _} [Zero α] [Zero β] {y : NdArray α} {N OH OW Co : ℕ}
    (hy : y.shape = [N, OH, OW, Co]) (f : α → β) :
    (y.map f).transpose [0, 3, 1, 2] = (y.transpose [0, 3, 1, 2]).map f := by
  have hmap : (y.map f).shape = [N, OH, OW, Co] := hy
  apply ext_get
  · rw [shape_transpose_pixels hmap, shape_map, shape_transpose_pixels hy]
  · intro idx hidx
    rw [shape_transpose_pixels hmap] at hidx
    obtain ⟨n, co, i, j, rfl, hn, hco, hi, hj⟩ := hidx.quad
    have hout : InShape [n, co, i, j] (y.transpose [0, 3, 1, 2]).shape := by
      rw [shape_transpose_pixels hy]
      exact hidx
    have hin : InShape [n, i, j, co] y.shape := by
      rw [hy]
      exact inShape_quad.mpr ⟨hn, hi, hj, hco⟩
    rw [get_transpose_pixels hmap hn hco hi hj, get_map f hin, get_map f hout,
      get_transpose_pixels hy hn hco hi hj]

/-- The accumulators of the int8 path, as an image. -/
theorem conv2d_acc {l : Conv2d} {x : NdArray (BitVec 8)} {N H W : ℕ} (hx : x.shape = [N, l.in_ch, H, W])
    (hWi : l.W_i8.shape = [l.in_ch * l.kh * l.kw, l.out_ch]) (hb : l.b_i32.shape = [l.out_ch])
    (hH : l.kh ≤ H + 1) (hW : l.kw ≤ W + 1) :
    ∃ acc : NdArray (BitVec 32), acc.shape = [N, l.out_ch, H + 1 - l.kh, W + 1 - l.kw] ∧
      (∀ n < N, ∀ co < l.out_ch, ∀ i < H + 1 - l.kh, ∀ j < W + 1 - l.kw,
        acc.get [n, co, i, j] = BitVec.ofInt 32 (∑ c ∈ range l.in_ch, ∑ dy ∈ range l.kh, ∑ dx ∈ range l.kw,
          (x.get [n, c, i + dy, j + dx]).toInt * (l.W_i8.get [(c * l.kh + dy) * l.kw + dx, co]).toInt) +
            l.b_i32.get [co]) ∧
      pureNumpyStep ⟨8, x⟩ (.conv2d l) = (requantClip acc l.M0 l.shift).map fun out => ⟨8, out⟩ := by
  obtain ⟨cols, hcols, hcolsShape, hcolsEntry⟩ := im2col_entries hx hH hW
  obtain ⟨prod, hprod, hprodShape, hprodEntry⟩ := product32_eq hcolsShape hWi
  have hacc := addRow_eq hprodShape hb
  generalize hsum : ofFn₂ (N * (H + 1 - l.kh) * (W + 1 - l.kw)) l.out_ch
    (fun r co => prod.get [r, co] + l.b_i32.get [co]) = acc at hacc
  have haccShape : acc.shape = [N * (H + 1 - l.kh) * (W + 1 - l.kw), l.out_ch] := by rw [← hsum]; rfl
  obtain ⟨y, hy, hyShape, hyEntry⟩ := pixels_entries haccShape
  refine ⟨y.transpose [0, 3, 1, 2], shape_transpose_pixels hyShape, ?_, ?_⟩
  · intro n hn co hco i hi j hj
    have hrow := pixel_lt hn hi hj
    rw [hyEntry n hn co hco i hi j hj, ← hsum, get_ofFn₂ _ hrow hco, hprodEntry _ hrow _ hco, sum_patch]
    refine congrArg (fun z => BitVec.ofInt 32 z + l.b_i32.get [co])
      (sum_patch_congr fun c hc dy hdy dx hdx => ?_)
    rw [hcolsEntry n hn i hi j hj c hc dy hdy dx hdx, Nat.add_comm dy i, Nat.add_comm dx j]
  · simp only [pureNumpyStep, hcols, hprod, hacc, Option.bind_eq_bind, Option.bind_some]
    rcases requantClip_pointwise l.M0 l.shift with hnone | ⟨f, hf⟩
    · rw [hnone, hnone]
      rfl
    · rw [hf, hf, Option.bind_some, reshape_map, hy, Option.map_some, Option.bind_some,
        transpose_pixels_map hyShape]
      rfl

/-- `W_i8` is `w`, flattened as `quantize` does it. -/
structure Conv2d.Shaped (l : Conv2d) (w x : NdArray (BitVec 8)) (N H W : ℕ) : Prop where
  input : x.shape = [N, l.in_ch, H, W]
  weights : w.shape = [l.out_ch, l.in_ch, l.kh, l.kw]
  flat : flattenWeights w l.out_ch = some l.W_i8
  bias : l.b_i32.shape = [l.out_ch]

theorem forwardInt8_eq {l : Conv2d} {w x : NdArray (BitVec 8)} {N H W : ℕ} (h : l.Shaped w x N H W)
    (hH : l.kh ≤ H + 1) (hW : l.kw ≤ W + 1) :
    ∃ acc : NdArray (BitVec 32), acc.shape = [N, l.out_ch, H + 1 - l.kh, W + 1 - l.kw] ∧
      (∀ n < N, ∀ co < l.out_ch, ∀ i < H + 1 - l.kh, ∀ j < W + 1 - l.kw,
        acc.get [n, co, i, j] = BitVec.ofInt 32
          (convAt (x.map BitVec.toInt) (w.map BitVec.toInt) (l.b_i32.map BitVec.toInt) l.in_ch l.kh l.kw
            n co i j)) ∧
      ∀ (b : Backend σ), b.Exact 4 (N * (H + 1 - l.kh) * (W + 1 - l.kw)) →
        ∀ s, (l.forwardInt8 ⟨8, x⟩ b s).map (fun out => out.1) =
          (requantClip acc l.M0 l.shift).map fun out => ⟨8, out⟩ := by
  -- `quantize` has no flattened weights without a channel
  have hpos : 0 < l.out_ch := by
    by_contra hzero
    have hflat := h.flat
    rw [flattenWeights, if_pos (by omega)] at hflat
    cases hflat
  obtain ⟨m, hm, hmShape, hmEntry⟩ := flattenWeights_entries h.weights hpos
  obtain rfl : m = l.W_i8 := Option.some.inj (hm.symm.trans h.flat)
  obtain ⟨acc, haccShape, haccEntry, hpure⟩ := conv2d_acc h.input hmShape h.bias hH hW
  refine ⟨acc, haccShape, ?_, ?_⟩
  · intro n hn co hco i hi j hj
    rw [haccEntry n hn co hco i hi j hj]
    unfold convAt
    have hbias : (l.b_i32.map BitVec.toInt).get [co] = (l.b_i32.get [co]).toInt := by
      apply get_map
      rw [h.bias]
      exact .cons hco .nil
    rw [hbias, BitVec.ofInt_add, BitVec.ofInt_toInt]
    refine congrArg (fun z => BitVec.ofInt 32 z + l.b_i32.get [co])
      (sum_patch_congr fun c hc dy hdy dx hdx => ?_)
    have hpixel : InShape [n, c, i + dy, j + dx] x.shape := by
      rw [h.input, inShape_quad]
      omega
    have hweight : InShape [co, c, dy, dx] w.shape := by
      rw [h.weights, inShape_quad]
      exact ⟨hco, hc, hdy, hdx⟩
    rw [get_map _ hpixel, get_map _ hweight, hmEntry co hco c hc dy hdy dx hdx]
  · intro b hb s
    rw [← hpure]
    exact (conv2d_agree hb h.input hmShape h.bias hH hW s).same

/-- **Convolution by patches.**  For all shapes the path through `im2col` yields
the convolution of the batch: exactly over the numbers of `forward_fp32`, and
modulo `2 ^ 32` before the rescaling of `forward_int8`. -/
theorem im2col_path_is_convolution [NonUnitalNonAssocSemiring α] {l : Conv2dFp32 α} {x : NdArray α}
    {q : Conv2d} {w y : NdArray (BitVec 8)} {N N' H H' W W' : ℕ}
    (h : l.Shaped x N H W) (hH : l.kh ≤ H) (hW : l.kw ≤ W)
    (hq : q.Shaped w y N' H' W') (hH' : q.kh ≤ H') (hW' : q.kw ≤ W') :
    -- no channel, nothing to reshape
    (l.out_ch = 0 → l.forwardFp32 x = none) ∧
    (0 < l.out_ch → ∃ out, l.forwardFp32 x = some out ∧
      out.shape = [N, l.out_ch, H - l.kh + 1, W - l.kw + 1] ∧
      ∀ n < N, ∀ co < l.out_ch, ∀ i < H - l.kh + 1, ∀ j < W - l.kw + 1,
        out.get [n, co, i, j] = ∑ c ∈ range l.in_ch, ∑ dy ∈ range l.kh, ∑ dx ∈ range l.kw,
          x.get [n, c, i + dy, j + dx] * l.W.get [co, c, dy, dx] + l.b.get [co]) ∧
    ∃ acc : NdArray (BitVec 32), acc.shape = [N', q.out_ch, H' - q.kh + 1, W' - q.kw + 1] ∧
      (∀ n < N', ∀ co < q.out_ch, ∀ i < H' - q.kh + 1, ∀ j < W' - q.kw + 1,
        acc.get [n, co, i, j] = BitVec.ofInt 32
          (convAt (y.map BitVec.toInt) (w.map BitVec.toInt) (q.b_i32.map BitVec.toInt) q.in_ch q.kh q.kw
            n co i j)) ∧
      ∀ (b : Backend σ), b.Exact 4 (N' * (H' - q.kh + 1) * (W' - q.kw + 1)) →
        ∀ s, (q.forwardInt8 ⟨8, y⟩ b s).map (fun out => out.1) =
          (requantClip acc q.M0 q.shift).map fun out => ⟨8, out⟩ := by
  have hOH : H + 1 - l.kh = H - l.kh + 1 := by omega
  have hOW : W + 1 - l.kw = W - l.kw + 1 := by omega
  have hOH' : H' + 1 - q.kh = H' - q.kh + 1 := by omega
  have hOW' : W' + 1 - q.kw = W' - q.kw + 1 := by omega
  have hint8 := forwardInt8_eq (σ := σ) hq (by omega) (by omega)
  rw [hOH', hOW'] at hint8
  refine ⟨?_, ?_, hint8⟩
  · intro hzero
    have hflat : flattenWeights l.W l.out_ch = none := by rw [flattenWeights, if_pos hzero]
    obtain ⟨cols, hcols, -⟩ := im2col_entries h.input (show l.kh ≤ H + 1 by omega)
      (show l.kw ≤ W + 1 by omega)
    simp only [Conv2dFp32.forwardFp32, hcols, hflat, Option.bind_eq_bind, Option.bind_some, Option.bind_none]
  · intro hpos
    have hfp32 := forwardFp32_eq h (by omega) (by omega) hpos
    rw [hOH, hOW] at hfp32
    exact hfp32

/-- A kernel of two rows, over the integers. -/
def demoFp32 : Conv2dFp32 ℤ :=
  ⟨1, 1, 2, 1, ofFn [1, 1, 2, 1] fun idx => idx.getD 2 0 + 1, ofFn [1] fun _ => -5⟩

/-- The same kernel in int8. -/
def demoInt8 : Conv2d :=
  ⟨1, 1, 2, 1, ofFn₂ 2 1 fun k _ => BitVec.ofNat 8 (k + 1), ofFn [1] fun _ => -5, 1610612736, -3⟩

/-- A column of three pixels: `(3 + 2 * 6) - 5` in the second window. -/
theorem im2col_path_is_convolution_demo :
    (∃ out, demoFp32.forwardFp32 (ofFn [1, 1, 3, 1] fun idx => 3 * idx.getD 2 0) = some out ∧
      out.get [0, 0, 1, 0] = 10) ∧
    ∃ acc : NdArray (BitVec 32), acc.get [0, 0, 1, 0] = 10 ∧
      ∀ s, (demoInt8.forwardInt8 ⟨8, ofFn [1, 1, 3, 1] fun idx => BitVec.ofNat 8 (3 * idx.getD 2 0)⟩
        NumpyBackend s).map (fun out => out.1) =
          (requantClip acc demoInt8.M0 demoInt8.shift).map fun out => ⟨8, out⟩ := by
  have hfp32 : demoFp32.Shaped (ofFn [1, 1, 3, 1] fun idx => (3 * idx.getD 2 0 : ℤ)) 1 3 1 := ⟨rfl, rfl, rfl⟩
  have hint8 : demoInt8.Shaped (ofFn [1, 1, 2, 1] fun idx => BitVec.ofNat 8 (idx.getD 2 0 + 1))
      (ofFn [1, 1, 3, 1] fun idx => BitVec.ofNat 8 (3 * idx.getD 2 0)) 1 3 1 := ⟨rfl, rfl, by decide, rfl⟩
  obtain ⟨-, hout, acc, -, hacc, hrun⟩ := im2col_path_is_convolution (σ := Unit) hfp32 (by decide) (by decide)
    hint8 (by decide) (by decide)
  obtain ⟨out, hforward, -, hentry⟩ := hout (by decide)
  refine ⟨⟨out, hforward, ?_⟩, acc, ?_, hrun NumpyBackend (numpyBackend_exact 4 _)⟩
  · rw [hentry 0 (by decide) 0 (by decide) 1 (by decide) 0 (by decide)]
    decide
  · rw [hacc 0 (by decide) 0 (by decide) 1 (by decide) 0 (by decide)]
    decide

end Nn
