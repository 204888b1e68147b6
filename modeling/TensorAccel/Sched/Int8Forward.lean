import TensorAccel.Sched.Layers

/-! # The integer pipeline (`sched/mnist/quantize.py`)

    `int8_forward` from the pixels that `sym_quantize` returns.  Both the C
    inference and the runs on a backend are compared with it. -/

open FixedPoint NdArray Tiler Nn

namespace Quantize

/-- The arrays and numbers of `weights_int8.npz` that inference reads. -/
structure Quantized where
  W1_i8 : NdArray (BitVec 8)
  b1_i32 : NdArray (BitVec 32)
  W2_i8 : NdArray (BitVec 8)
  b2_i32 : NdArray (BitVec 32)
  M0_1 : ℤ
  shift_1 : ℤ

namespace Quantized

/-- `np.clip(apply_requant(acc, M0_1, shift_1), 0, 127).astype(np.int8)` -/
def hidden (q : Quantized) (acc : NdArray (BitVec 32)) : Option (NdArray (BitVec 8)) :=
  (applyRequant acc q.M0_1 q.shift_1).map (clipInt8 0 127)

/-- Shapes of a 784-64-10 network. -/
structure Shaped (q : Quantized) : Prop where
  W1 : q.W1_i8.shape = [784, 64]
  b1 : q.b1_i32.shape = [64]
  W2 : q.W2_i8.shape = [64, 10]
  b2 : q.b2_i32.shape = [10]

/-- `M0_1` and `shift_1` for which the fixed-point rescaling is meant. -/
structure Scaled (q : Quantized) : Prop where
  nonneg : 0 ≤ q.M0_1
  upper : q.M0_1 < 2 ^ 31
  shift_lower : -32 ≤ q.shift_1
  shift_upper : q.shift_1 ≤ 31

end Quantized

/-- `int8_forward` -/
def int8Forward (q : Quantized) (x_i8 : NdArray (BitVec 8)) : Option (NdArray (BitVec 32)) := do
  let acc1 ← product32 x_i8 q.W1_i8
  let acc1 ← acc1.addRow q.b1_i32
  let h ← q.hidden acc1
  let logits ← product32 h q.W2_i8
  logits.addRow q.b2_i32

/-- `argmax` of a row of `n` logits: the first index of the largest. -/
def argmax (n : ℕ) (logits : ℕ → BitVec 32) : Option ℕ :=
  (List.range n).find? fun i => ∀ j < n, (logits j).toInt ≤ (logits i).toInt

/-- A rescaling that int64 can hold refuses no array. -/
theorem hidden_eq {q : Quantized} (hM0 : Fits 64 q.M0_1) (hshift : -32 ≤ q.shift_1) (acc : NdArray (BitVec 32)) :
    ∃ h, q.hidden acc = some h ∧ h.shape = acc.shape := by
  have hsome : ∃ out, applyRequant acc q.M0_1 q.shift_1 = some out := by
    rcases le_or_gt q.shift_1 31 with hle | hgt
    · exact ⟨_, applyRequant_eq_map acc hM0 hshift hle⟩
    · have hneg : ¬ 0 ≤ 31 - q.shift_1 := by omega
      simp only [applyRequant, int64, if_pos hM0, if_neg hneg, Option.bind_eq_bind, Option.bind_some]
      exact ⟨_, rfl⟩
  obtain ⟨out, hout⟩ := hsome
  refine ⟨clipInt8 0 127 out, ?_, shape_applyRequant hout⟩
  rw [Quantized.hidden, hout, Option.map_some]

end Quantize
