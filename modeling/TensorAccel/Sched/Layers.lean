import TensorAccel.Sched.Quantize
import TensorAccel.Sched.Tiler

/-! # Layers (`sched/nn/layers.py`)

    The int8 forward pass of each kind of layer on a backend.  Products go
    through the tiling scheduler with its default tile of 4; the parameters are
    those that `quantize` stores. -/

open FixedPoint NdArray Tiler Quantize

namespace Nn

variable {α σ : Type _} {w : ℕ}

/-! ## Values -/

/-- An integer array with its element width: int8, or the int32 of raw logits. -/
structure Value where
  bits : ℕ
  arr : NdArray (BitVec bits)

/-- `x.astype(np.int8)` -/
def toInt8 (x : NdArray (BitVec w)) : NdArray (BitVec 8) := x.map (BitVec.signExtend 8)

/-- `np.clip(x, lo, hi).astype(np.int8)` -/
def clipInt8 (lo hi : ℤ) (x : NdArray (BitVec w)) : NdArray (BitVec 8) :=
  x.map fun v => (clip lo hi v).signExtend 8

theorem toInt8_eq (x : NdArray (BitVec 8)) : toInt8 x = x := map_id x fun v => BitVec.signExtend_eq v

/-! ## Model -/

/-- Patches of `x` with their counts `(N, OH, OW)`.  Entry `(n, oy, ox, c, dy, dx)` of
    `cols` is assigned in iteration `(dy, dx)` of the loops, and in no other. -/
def im2col [Zero α] (x : NdArray α) (kh kw : ℕ) : Option (NdArray α × ℕ × ℕ × ℕ) :=
  match x.shape with
  | [N, C, H, W] =>
    -- `np.zeros` refuses a negative `OH` or `OW`
    if kh ≤ H + 1 ∧ kw ≤ W + 1 then do
      let OH := H + 1 - kh
      let OW := W + 1 - kw
      let cols := ofFn [N, OH, OW, C, kh, kw] fun idx =>
        match idx with
        | [n, oy, ox, c, dy, dx] => x.get [n, c, dy + oy, dx + ox]
        | _ => 0
      let cols ← cols.reshape [N * OH * OW, C * kh * kw]
      some (cols, N, OH, OW)
    else none
  | _ => none

/-- The larger of two signed words. -/
def smax (x y : BitVec w) : BitVec w := if x.toInt < y.toInt then y else x

/-- `x.reshape(N, C, H // 2, 2, W // 2, 2).max(axis=(3, 5))` -/
def maxPool (x : NdArray (BitVec w)) : Option (NdArray (BitVec w)) :=
  match x.shape with
  | [N, C, H, W] => do
    let y ← x.reshape [N, C, H / 2, 2, W / 2, 2]
    some (ofFn [N, C, H / 2, W / 2] fun idx =>
      match idx with
      | [n, c, i, j] => smax (smax (y.get [n, c, i, 0, j, 0]) (y.get [n, c, i, 0, j, 1]))
          (smax (y.get [n, c, i, 1, j, 0]) (y.get [n, c, i, 1, j, 1]))
      | _ => 0)
  | _ => none

/-- `x.reshape(x.shape[0], -1)`; numpy cannot infer an axis of an empty batch. -/
def flatten (x : NdArray (BitVec w)) : Option (NdArray (BitVec w)) :=
  match x.shape with
  | [] => none
  | n :: rest => if n = 0 then none else x.reshape [n, rest.prod]

/-- `np.clip(apply_requant(acc, M0, shift), -127, 127).astype(np.int8)` -/
def requantClip (acc : NdArray (BitVec 32)) (M0 shift : ℤ) : Option (NdArray (BitVec 8)) :=
  (applyRequant acc M0 shift).map (clipInt8 (-127) 127)

structure Conv2d where
  in_ch : ℕ
  out_ch : ℕ
  kh : ℕ
  kw : ℕ
  W_i8 : NdArray (BitVec 8)
  b_i32 : NdArray (BitVec 32)
  M0 : ℤ
  shift : ℤ

structure Dense where
  in_f : ℕ
  out_f : ℕ
  output : Bool
  W_i8 : NdArray (BitVec 8)
  b_i32 : NdArray (BitVec 32)
  M0 : ℤ
  shift : ℤ

inductive Layer where
  | conv2d (l : Conv2d)
  | maxPool2x2
  | relu
  | flatten
  | dense (l : Dense)

/-- What `forward_int8` returns, with the state of the backend. -/
abbrev Output (σ : Type _) := Value × Option Stats × σ

def Conv2d.forwardInt8 (l : Conv2d) (x_i8 : Value) (b : Backend σ) (s : σ) : Option (Output σ) := do
  let (cols, N, OH, OW) ← im2col x_i8.arr l.kh l.kw
  let cols := toInt8 cols
  let schedule := plan (cols.shape.getD 0 0) (cols.shape.getD 1 0) l.out_ch 4
  let (acc, stats, s) ← execute schedule cols l.W_i8 b s 4
  let acc ← acc.addRow l.b_i32
  let out ← requantClip acc l.M0 l.shift
  let out ← out.reshape [N, OH, OW, l.out_ch]
  some (⟨8, out.transpose [0, 3, 1, 2]⟩, some stats, s)

def Dense.forwardInt8 (l : Dense) (x_i8 : Value) (b : Backend σ) (s : σ) : Option (Output σ) :=
  match x_i8.arr.shape with
  | [M, K] => do
    let schedule := plan M K l.out_f 4
    let (acc, stats, s) ← execute schedule x_i8.arr l.W_i8 b s 4
    let acc ← acc.addRow l.b_i32
    if l.output then some (⟨32, acc⟩, some stats, s)
    else do
      let out ← requantClip acc l.M0 l.shift
      some (⟨8, out⟩, some stats, s)
  | _ => none

def Layer.forwardInt8 (l : Layer) (x_i8 : Value) (b : Backend σ) (s : σ) : Option (Output σ) :=
  match l with
  | .conv2d l => l.forwardInt8 x_i8 b s
  | .maxPool2x2 => do
    let y ← maxPool x_i8.arr
    some (⟨8, toInt8 y⟩, none, s)
  | .relu => some (⟨8, clipInt8 0 127 x_i8.arr⟩, none, s)
  | .flatten => do
    let y ← Nn.flatten x_i8.arr
    some (⟨8, toInt8 y⟩, none, s)
  | .dense l => l.forwardInt8 x_i8 b s

/-! ## Shapes -/

/-- Shape of the output of a layer on an input whose shape it is compatible with. -/
inductive Layer.OutShape : Layer → List ℕ → List ℕ → Prop
  | conv2d {l : Conv2d} {N H W : ℕ} (hW : l.W_i8.shape = [l.in_ch * l.kh * l.kw, l.out_ch])
      (hb : l.b_i32.shape = [l.out_ch]) (hH : l.kh ≤ H + 1) (hWd : l.kw ≤ W + 1) :
      OutShape (.conv2d l) [N, l.in_ch, H, W] [N, l.out_ch, H + 1 - l.kh, W + 1 - l.kw]
  | maxPool2x2 (N C H W : ℕ) : OutShape .maxPool2x2 [N, C, 2 * H, 2 * W] [N, C, H, W]
  | relu (shape : List ℕ) : OutShape .relu shape shape
  | flatten {N : ℕ} (rest : List ℕ) (hN : 0 < N) : OutShape .flatten (N :: rest) [N, rest.prod]
  | dense {l : Dense} {N : ℕ} (hW : l.W_i8.shape = [l.in_f, l.out_f]) (hb : l.b_i32.shape = [l.out_f]) :
      OutShape (.dense l) [N, l.in_f] [N, l.out_f]

section indices
variable [Zero α] {N C H W OH OW kh kw : ℕ}

theorem pixel_lt {n i j : ℕ} (hn : n < N) (hi : i < OH) (hj : j < OW) :
    (n * OH + i) * OW + j < N * OH * OW := by
  have hin : InShape [n, i, j] [N, OH, OW] := by
    simp only [InShape, List.forall₂_cons, List.Forall₂.nil, and_true]
    exact ⟨hn, hi, hj⟩
  have hlt := ravel_lt hin
  simp only [ravel, List.prod_cons, List.prod_nil] at hlt
  calc (n * OH + i) * OW + j = n * (OH * (OW * 1)) + (i * (OW * 1) + (j * 1 + 0)) := by ring
    _ < N * (OH * (OW * 1)) := hlt
    _ = N * OH * OW := by ring

/-- A row of patches is a pixel, its columns a window of the image. -/
theorem im2col_entries {x : NdArray α} (hx : x.shape = [N, C, H, W]) (hH : kh ≤ H + 1) (hW : kw ≤ W + 1) :
    ∃ cols, im2col x kh kw = some (cols, N, H + 1 - kh, W + 1 - kw) ∧
      cols.shape = [N * (H + 1 - kh) * (W + 1 - kw), C * kh * kw] ∧
      ∀ n < N, ∀ i < H + 1 - kh, ∀ j < W + 1 - kw, ∀ c < C, ∀ dy < kh, ∀ dx < kw,
        cols.get [(n * (H + 1 - kh) + i) * (W + 1 - kw) + j, (c * kh + dy) * kw + dx] =
          x.get [n, c, dy + i, dx + j] := by
  generalize hOH : H + 1 - kh = OH
  generalize hOW : W + 1 - kw = OW
  have hsize : [N * OH * OW, C * kh * kw].prod = [N, OH, OW, C, kh, kw].prod := by
    simp only [List.prod_cons, List.prod_nil]
    ring
  obtain ⟨cols, hcols, hshape⟩ := reshape_eq_some (x := ofFn [N, OH, OW, C, kh, kw] fun idx =>
    match idx with
    | [n, oy, ox, c, dy, dx] => x.get [n, c, dy + oy, dx + ox]
    | _ => 0) hsize
  refine ⟨cols, ?_, hshape, ?_⟩
  · simp only [im2col, hx, hH, hW, and_self, if_true, hOH, hOW, hcols, Option.bind_eq_bind,
      Option.bind_some]
  · intro n hn i hi j hj c hc dy hdy dx hdx
    have hin : InShape [n, i, j, c, dy, dx] [N, OH, OW, C, kh, kw] := by
      simp only [InShape, List.forall₂_cons, List.Forall₂.nil, and_true]
      exact ⟨hn, hi, hj, hc, hdy, hdx⟩
    have hoffset : ravel [N * OH * OW, C * kh * kw] [(n * OH + i) * OW + j, (c * kh + dy) * kw + dx] =
        ravel [N, OH, OW, C, kh, kw] [n, i, j, c, dy, dx] := by
      simp only [ravel, List.prod_cons, List.prod_nil]
      ring
    rw [get_reshape hcols hoffset, get_ofFn _ hin]

end indices

/-- What the reduction of `max_pool` leaves of a two by two block. -/
theorem maxPool_eq {N C H W : ℕ} {x : NdArray (BitVec w)} (hx : x.shape = [N, C, 2 * H, 2 * W]) :
    ∃ y, maxPool x = some y ∧ y.shape = [N, C, H, W] ∧ ∀ n < N, ∀ c < C, ∀ i < H, ∀ j < W,
      y.get [n, c, i, j] = smax (smax (x.get [n, c, 2 * i, 2 * j]) (x.get [n, c, 2 * i, 2 * j + 1]))
        (smax (x.get [n, c, 2 * i + 1, 2 * j]) (x.get [n, c, 2 * i + 1, 2 * j + 1])) := by
  have hH : 2 * H / 2 = H := Nat.mul_div_cancel_left H two_pos
  have hW : 2 * W / 2 = W := Nat.mul_div_cancel_left W two_pos
  have hsize : [N, C, H, 2, W, 2].prod = x.shape.prod := by
    rw [hx]
    simp only [List.prod_cons, List.prod_nil]
    ring
  obtain ⟨y, hy, -⟩ := reshape_eq_some hsize
  have hblock : ∀ n c i j di dj, y.get [n, c, i, di, j, dj] = x.get [n, c, 2 * i + di, 2 * j + dj] := by
    intro n c i j di dj
    apply get_reshape hy
    rw [hx]
    simp only [ravel, List.prod_cons, List.prod_nil]
    ring
  simp only [maxPool, hx, hH, hW, hy, Option.bind_eq_bind, Option.bind_some]
  refine ⟨_, rfl, rfl, ?_⟩
  intro n hn c hc i hi j hj
  rw [get_ofFn _ (inShape_quad.mpr ⟨hn, hc, hi, hj⟩)]
  simp only [hblock, Nat.add_zero]

theorem flatten_eq {x : NdArray (BitVec w)} {N : ℕ} {rest : List ℕ} (hx : x.shape = N :: rest) (hN : 0 < N) :
    ∃ y, flatten x = some y ∧ y.shape = [N, rest.prod] := by
  have hsize : [N, rest.prod].prod = x.shape.prod := by simp [hx]
  obtain ⟨y, hy, hshape⟩ := reshape_eq_some hsize
  simp only [flatten, hx, Nat.ne_of_gt hN, if_false]
  exact ⟨y, hy, hshape⟩

/-- Rescaling acts on each accumulator by itself, or refuses every array. -/
theorem requantClip_pointwise (M0 shift : ℤ) :
    (∀ acc, requantClip acc M0 shift = none) ∨ ∃ f, ∀ acc, requantClip acc M0 shift = some (acc.map f) := by
  unfold requantClip applyRequant clipInt8
  rcases int64 M0 with _ | m
  · exact .inl fun acc => rfl
  · by_cases hrs : 0 ≤ 31 - shift
    · rcases hround : int64 (half (31 - shift).toNat) with _ | r
      · refine .inl fun acc => ?_
        simp only [hrs, if_true, hround, Option.bind_eq_bind, Option.bind_some, Option.bind_none,
          Option.map_none]
      · refine .inr ⟨fun a => (clip (-127) 127
          ((a.signExtend 64 * m + r).sshiftRight (31 - shift).toNat)).signExtend 8, fun acc => ?_⟩
        simp only [hrs, if_true, hround, Option.bind_eq_bind, Option.bind_some, Option.map_some,
          NdArray.map_map]
    · refine .inr ⟨fun a => (clip (-127) 127
        ((a.signExtend 64 * m) <<< (-(31 - shift)).toNat)).signExtend 8, fun acc => ?_⟩
      simp only [hrs, if_false, Option.bind_eq_bind, Option.bind_some, Option.map_some, NdArray.map_map]

theorem shape_requantClip {acc : NdArray (BitVec 32)} {M0 shift : ℤ} {out : NdArray (BitVec 8)}
    (h : requantClip acc M0 shift = some out) : out.shape = acc.shape := by
  obtain ⟨r, hr, rfl⟩ := Option.map_eq_some_iff.mp h
  exact shape_applyRequant hr

end Nn
