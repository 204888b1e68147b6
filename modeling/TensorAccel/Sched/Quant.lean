import TensorAccel.Sched.Layers

/-! # Quantized graphs (`sched/nn/quant.py`)

    A list of layers evaluated on a backend, and the evaluator written with
    numpy only that it is compared with. -/

open FixedPoint NdArray Tiler Quantize

namespace Nn

variable {σ : Type _}

/-! ## Model -/

/-- Variables of the loop of `graph_forward_int8`. -/
structure GraphRun (σ : Type _) where
  x : Value
  stats : List Stats
  backend : σ

def GraphRun.step (b : Backend σ) (r : GraphRun σ) (layer : Layer) : Option (GraphRun σ) := do
  let (x, st, backend) ← layer.forwardInt8 r.x b r.backend
  some ⟨x, r.stats ++ st.toList, backend⟩

def graphForwardInt8 (layers : List Layer) (x_i8 : Value) (b : Backend σ) (s : σ) : Option (GraphRun σ) :=
  layers.foldlM (GraphRun.step b) ⟨x_i8, [], s⟩

/-- The branch of `pure_numpy_int8_forward` for one layer.  Products are taken
    of matrices only. -/
def pureNumpyStep (x : Value) : Layer → Option Value
  | .conv2d l => do
    let (cols, N, OH, OW) ← im2col x.arr l.kh l.kw
    let prod ← product32 cols l.W_i8
    let acc ← prod.addRow l.b_i32
    let out ← requantClip acc l.M0 l.shift
    let out ← out.reshape [N, OH, OW, l.out_ch]
    some ⟨8, out.transpose [0, 3, 1, 2]⟩
  | .dense l => do
    let prod ← product32 x.arr l.W_i8
    let acc ← prod.addRow l.b_i32
    if l.output then some ⟨32, acc⟩
    else do
      let out ← requantClip acc l.M0 l.shift
      some ⟨8, out⟩
  | .relu => some ⟨8, clipInt8 0 127 x.arr⟩
  | .maxPool2x2 => do
    let y ← maxPool x.arr
    some ⟨x.bits, y⟩
  | .flatten => do
    let y ← flatten x.arr
    some ⟨x.bits, y⟩

def pureNumpyInt8Forward (layers : List Layer) (x_i8 : Value) : Option Value := layers.foldlM pureNumpyStep x_i8

/-! ## Well-formed graphs -/

/-- The layer returns raw int32 sums. -/
def Layer.IsOutput : Layer → Prop
  | .dense l => l.output = true
  | _ => False

/-- The rescaling of the layer is one that `apply_requant` accepts. -/
def Layer.InRange : Layer → Prop
  | .conv2d l => Fits 64 l.M0 ∧ -32 ≤ l.shift ∧ l.shift ≤ 31
  | .dense l => Fits 64 l.M0 ∧ -32 ≤ l.shift ∧ l.shift ≤ 31
  | _ => True

/-- Every layer is compatible with the shape it is given, and only the last one
    may return raw sums. -/
inductive WellFormed : List Layer → List ℕ → Prop
  | nil (shape : List ℕ) : WellFormed [] shape
  | cons {l : Layer} {rest : List Layer} {shape shape' : List ℕ} (hshape : l.OutShape shape shape')
      (hlast : l.IsOutput → rest = []) (hrest : WellFormed rest shape') : WellFormed (l :: rest) shape

/-- Rows of the product that a layer computes from an input of this shape. -/
def Layer.rows : Layer → List ℕ → ℕ
  | .conv2d l, [N, _, H, W] => N * (H + 1 - l.kh) * (W + 1 - l.kw)
  | .dense _, [N, _] => N
  | _, _ => 0

/-- `P` holds of the row count of every product that a graph computes from an input
of this shape. -/
def AllRows (P : ℕ → Prop) : List Layer → List ℕ → Prop
  | [], _ => True
  | l :: rest, shape => P (l.rows shape) ∧ ∀ shape', l.OutShape shape shape' → AllRows P rest shape'

theorem AllRows.mono {P Q : ℕ → Prop} (hPQ : ∀ M, P M → Q M) {layers : List Layer} {shape : List ℕ}
    (h : AllRows P layers shape) : AllRows Q layers shape := by
  induction layers generalizing shape with
  | nil => trivial
  | cons l rest ih => exact ⟨hPQ _ h.1, fun shape' hshape => ih (h.2 shape' hshape)⟩

theorem allRows_of_forall {P : ℕ → Prop} (hP : ∀ M, P M) (layers : List Layer) (shape : List ℕ) :
    AllRows P layers shape := by
  induction layers generalizing shape with
  | nil => trivial
  | cons l rest ih => exact ⟨hP _, fun shape' _ => ih shape'⟩

/-! ## One layer -/

/-- A product on the backend is the product in numpy. -/
theorem execute_plan {x W : NdArray (BitVec 8)} {M K N : ℕ} (hx : x.shape = [M, K]) (hW : W.shape = [K, N])
    {b : Backend σ} (hb : b.Exact 4 M) (s : σ) :
    ∃ C stats s', execute (plan M K N 4) x W b s 4 = some (C, stats, s') ∧ product32 x W = some C ∧
      C.shape = [M, N] := by
  obtain ⟨C, stats, s', hexec, hprod, -⟩ :=
    execute_eq_product hx hW hb (show 0 < 4 by decide) (List.Perm.refl (plan M K N 4)) s
  obtain ⟨C', hprod', hshape, -⟩ := product32_eq hx hW
  rw [hprod] at hprod'
  obtain rfl := Option.some.inj hprod'
  exact ⟨C, stats, s', hexec, hprod, hshape⟩

/-- An int8 array of this shape. -/
def IsInt8 (shape : List ℕ) (y : Value) : Prop := ∃ arr : NdArray (BitVec 8), y = ⟨8, arr⟩ ∧ arr.shape = shape

/-- What both evaluators do with a well-shaped layer: they agree, and unless it
    returns raw sums its output is an int8 array of the expected shape. -/
structure Agree (l : Layer) (x : Value) (b : Backend σ) (s : σ) (shape : List ℕ) : Prop where
  same : (l.forwardInt8 x b s).map (fun out => out.1) = pureNumpyStep x l
  typed : ¬ l.IsOutput → ∀ y, pureNumpyStep x l = some y → IsInt8 shape y
  returns : l.InRange → ∃ y, pureNumpyStep x l = some y

theorem requantClip_returns (acc : NdArray (BitVec 32)) {M0 shift : ℤ}
    (h : Fits 64 M0 ∧ -32 ≤ shift ∧ shift ≤ 31) : ∃ out, requantClip acc M0 shift = some out := by
  rw [requantClip, applyRequant_eq_map acc h.1 h.2.1 h.2.2]
  exact ⟨_, rfl⟩

section layers

variable {b : Backend σ}

theorem conv2d_agree {l : Conv2d} {x : NdArray (BitVec 8)} {N H W : ℕ}
    (hb : b.Exact 4 (N * (H + 1 - l.kh) * (W + 1 - l.kw))) (hx : x.shape = [N, l.in_ch, H, W])
    (hW : l.W_i8.shape = [l.in_ch * l.kh * l.kw, l.out_ch]) (hbias : l.b_i32.shape = [l.out_ch])
    (hH : l.kh ≤ H + 1) (hWd : l.kw ≤ W + 1) (s : σ) :
    Agree (.conv2d l) ⟨8, x⟩ b s [N, l.out_ch, H + 1 - l.kh, W + 1 - l.kw] := by
  obtain ⟨cols, hcols, hcolsShape, -⟩ := im2col_entries hx hH hWd
  obtain ⟨C, stats, s', hexec, hprod, hC⟩ := execute_plan hcolsShape hW hb s
  obtain ⟨acc, hacc, haccShape⟩ : ∃ acc, C.addRow l.b_i32 = some acc ∧ acc.shape = C.shape :=
    ⟨_, addRow_eq hC hbias, hC.symm⟩
  -- both evaluators reach `acc`; the rest of their bodies is the same
  have hpure : pureNumpyStep ⟨8, x⟩ (.conv2d l) = (requantClip acc l.M0 l.shift).bind fun out =>
      (out.reshape [N, H + 1 - l.kh, W + 1 - l.kw, l.out_ch]).bind fun out =>
        some ⟨8, out.transpose [0, 3, 1, 2]⟩ := by
    simp only [pureNumpyStep, hcols, hprod, hacc, Option.bind_eq_bind, Option.bind_some]
  have hgraph : (Layer.conv2d l).forwardInt8 ⟨8, x⟩ b s = (requantClip acc l.M0 l.shift).bind fun out =>
      (out.reshape [N, H + 1 - l.kh, W + 1 - l.kw, l.out_ch]).bind fun out =>
        some (⟨8, out.transpose [0, 3, 1, 2]⟩, some stats, s') := by
    simp only [Layer.forwardInt8, Conv2d.forwardInt8, hcols, toInt8_eq, hcolsShape, List.getD_cons_zero,
      List.getD_cons_succ, hexec, hacc, Option.bind_eq_bind, Option.bind_some]
  have hreshape : ∀ out, requantClip acc l.M0 l.shift = some out →
      ∃ y, out.reshape [N, H + 1 - l.kh, W + 1 - l.kw, l.out_ch] = some y ∧
        y.shape = [N, H + 1 - l.kh, W + 1 - l.kw, l.out_ch] := by
    intro out hout
    apply reshape_eq_some
    rw [shape_requantClip hout, haccShape, hC]
    simp only [List.prod_cons, List.prod_nil]
    ring
  rcases hclip : requantClip acc l.M0 l.shift with _ | out
  · refine ⟨?_, ?_, ?_⟩
    · rw [hgraph, hpure, hclip]
      rfl
    · intro _ y hy
      rw [hpure, hclip] at hy
      cases hy
    · intro hrange
      obtain ⟨out, hout⟩ := requantClip_returns acc hrange
      rw [hclip] at hout
      cases hout
  · obtain ⟨y, hy, hyShape⟩ := hreshape out hclip
    have hout : pureNumpyStep ⟨8, x⟩ (.conv2d l) = some ⟨8, y.transpose [0, 3, 1, 2]⟩ := by
      rw [hpure, hclip, Option.bind_some, hy, Option.bind_some]
    refine ⟨?_, ?_, fun _ => ⟨_, hout⟩⟩
    · rw [hout, hgraph, hclip, Option.bind_some, hy]
      rfl
    · intro _ z hz
      rw [hout] at hz
      obtain rfl := Option.some.inj hz
      refine ⟨_, rfl, ?_⟩
      rw [transpose, shape_ofFn, hyShape]
      rfl

theorem dense_agree {l : Dense} {x : NdArray (BitVec 8)} {N : ℕ} (hb : b.Exact 4 N) (hx : x.shape = [N, l.in_f])
    (hW : l.W_i8.shape = [l.in_f, l.out_f]) (hbias : l.b_i32.shape = [l.out_f]) (s : σ) :
    Agree (.dense l) ⟨8, x⟩ b s [N, l.out_f] := by
  obtain ⟨C, stats, s', hexec, hprod, hC⟩ := execute_plan hx hW hb s
  obtain ⟨acc, hacc, haccShape⟩ : ∃ acc, C.addRow l.b_i32 = some acc ∧ acc.shape = [N, l.out_f] :=
    ⟨_, addRow_eq hC hbias, rfl⟩
  have hpure : pureNumpyStep ⟨8, x⟩ (.dense l) =
      if l.output then some ⟨32, acc⟩ else (requantClip acc l.M0 l.shift).map fun out => ⟨8, out⟩ := by
    simp only [pureNumpyStep, hprod, hacc, Option.bind_eq_bind, Option.bind_some, Option.map_eq_bind]
    rfl
  have hgraph : (Layer.dense l).forwardInt8 ⟨8, x⟩ b s =
      if l.output then some (⟨32, acc⟩, some stats, s')
      else (requantClip acc l.M0 l.shift).map fun out => (⟨8, out⟩, some stats, s') := by
    simp only [Layer.forwardInt8, Dense.forwardInt8, hx, hexec, hacc, Option.bind_eq_bind, Option.bind_some,
      Option.map_eq_bind]
    rfl
  by_cases hout : l.output = true
  · rw [if_pos hout] at hpure hgraph
    refine ⟨by rw [hgraph, hpure]; rfl, fun hinner => absurd hout hinner, fun _ => ⟨_, hpure⟩⟩
  · rw [if_neg hout] at hpure hgraph
    refine ⟨?_, ?_, ?_⟩
    · rw [hgraph, hpure, Option.map_map]
      rfl
    · intro _ y hy
      rw [hpure] at hy
      obtain ⟨out, hclip, rfl⟩ := Option.map_eq_some_iff.mp hy
      exact ⟨out, rfl, (shape_requantClip hclip).trans haccShape⟩
    · intro hrange
      obtain ⟨out, hclip⟩ := requantClip_returns acc hrange
      exact ⟨_, by rw [hpure, hclip]; rfl⟩

theorem maxPool2x2_agree {x : NdArray (BitVec 8)} {N C H W : ℕ} (hx : x.shape = [N, C, 2 * H, 2 * W]) (s : σ) :
    Agree .maxPool2x2 ⟨8, x⟩ b s [N, C, H, W] := by
  obtain ⟨y, hy, hshape, -⟩ := maxPool_eq hx
  have hpure : pureNumpyStep ⟨8, x⟩ .maxPool2x2 = some ⟨8, y⟩ := by
    simp only [pureNumpyStep, hy, Option.bind_eq_bind, Option.bind_some]
  refine ⟨?_, ?_, fun _ => ⟨_, hpure⟩⟩
  · rw [hpure]
    simp only [Layer.forwardInt8, hy, toInt8_eq, Option.bind_eq_bind, Option.bind_some, Option.map_some]
  · intro _ z hz
    rw [hpure] at hz
    exact ⟨y, (Option.some.inj hz).symm, hshape⟩

theorem flatten_agree {x : NdArray (BitVec 8)} {N : ℕ} {rest : List ℕ} (hx : x.shape = N :: rest) (hN : 0 < N)
    (s : σ) : Agree .flatten ⟨8, x⟩ b s [N, rest.prod] := by
  obtain ⟨y, hy, hshape⟩ := flatten_eq hx hN
  have hpure : pureNumpyStep ⟨8, x⟩ .flatten = some ⟨8, y⟩ := by
    simp only [pureNumpyStep, hy, Option.bind_eq_bind, Option.bind_some]
  refine ⟨?_, ?_, fun _ => ⟨_, hpure⟩⟩
  · rw [hpure]
    simp only [Layer.forwardInt8, hy, toInt8_eq, Option.bind_eq_bind, Option.bind_some, Option.map_some]
  · intro _ z hz
    rw [hpure] at hz
    exact ⟨y, (Option.some.inj hz).symm, hshape⟩

theorem relu_agree {x : NdArray (BitVec 8)} {shape : List ℕ} (hx : x.shape = shape) (s : σ) :
    Agree .relu ⟨8, x⟩ b s shape := by
  refine ⟨rfl, ?_, fun _ => ⟨_, rfl⟩⟩
  intro _ z hz
  exact ⟨_, (Option.some.inj hz).symm, hx⟩

theorem layer_agree {l : Layer} {x : NdArray (BitVec 8)} {shape shape' : List ℕ} (hb : b.Exact 4 (l.rows shape))
    (hl : l.OutShape shape shape') (hx : x.shape = shape) (s : σ) : Agree l ⟨8, x⟩ b s shape' := by
  cases hl with
  | conv2d hW hbias hH hWd => exact conv2d_agree hb hx hW hbias hH hWd s
  | maxPool2x2 N C H W => exact maxPool2x2_agree hx s
  | relu => exact relu_agree hx s
  | flatten rest hN => exact flatten_agree hx hN s
  | dense hW hbias => exact dense_agree hb hx hW hbias s

/-! ## Graphs -/

/-- From any point of a run on, by induction on the layers that are left. -/
theorem run_agree {layers : List Layer} {shape : List ℕ} (hw : WellFormed layers shape) (hb : AllRows (b.Exact 4) layers shape)
    {x : NdArray (BitVec 8)} (hx : x.shape = shape) (stats : List Stats) (s : σ) :
    (layers.foldlM (GraphRun.step b) ⟨⟨8, x⟩, stats, s⟩).map (fun r => r.x) =
        layers.foldlM pureNumpyStep ⟨8, x⟩ ∧
      ((∀ l ∈ layers, l.InRange) → ∃ y, layers.foldlM pureNumpyStep ⟨8, x⟩ = some y) := by
  induction hw generalizing x stats s with
  | nil shape => exact ⟨rfl, fun _ => ⟨_, rfl⟩⟩
  | @cons l rest shape shape' hshape hlast hrest ih =>
    have hagree := layer_agree hb.1 hshape hx s
    have hsame := hagree.same
    -- the first layer raises in both evaluators or in neither
    rcases hforward : l.forwardInt8 ⟨8, x⟩ b s with _ | ⟨y, st, s'⟩
    · rw [hforward] at hsame
      have hpure : pureNumpyStep ⟨8, x⟩ l = none := hsame.symm
      constructor
      · simp only [List.foldlM_cons, GraphRun.step, hforward, hpure, Option.bind_eq_bind, Option.bind_none,
          Option.map_none]
      · intro hrange
        obtain ⟨y, hy⟩ := hagree.returns (hrange l List.mem_cons_self)
        rw [hpure] at hy
        cases hy
    · rw [hforward] at hsame
      have hpure : pureNumpyStep ⟨8, x⟩ l = some y := hsame.symm
      simp only [List.foldlM_cons, GraphRun.step, hforward, hpure, Option.bind_eq_bind, Option.bind_some]
      by_cases hout : l.IsOutput
      · -- raw sums: nothing follows
        obtain rfl := hlast hout
        exact ⟨rfl, fun _ => ⟨_, rfl⟩⟩
      · obtain ⟨arr, rfl, harr⟩ := hagree.typed hout y hpure
        obtain ⟨hrun, hreturns⟩ := ih (hb.2 _ hshape) harr (stats ++ st.toList) s'
        exact ⟨hrun, fun hrange => hreturns fun l' hl' => hrange l' (List.mem_cons_of_mem l hl')⟩

theorem graph_agree {layers : List Layer} {x : NdArray (BitVec 8)} (hw : WellFormed layers x.shape)
    (hb : AllRows (b.Exact 4) layers x.shape) (s : σ) :
    (graphForwardInt8 layers ⟨8, x⟩ b s).map (fun r => r.x) = pureNumpyInt8Forward layers ⟨8, x⟩ ∧
      ((∀ l ∈ layers, l.InRange) → ∃ y, pureNumpyInt8Forward layers ⟨8, x⟩ = some y) :=
  run_agree hw hb rfl [] s

/-- **The graph on an exact backend is the numpy reference**: on every
well-formed list of layers and every int8 input the two evaluators have the
same outcome, and it is an array whenever the rescalings are in range.  The
backend has to be exact for the products of this graph only. -/
theorem graph_forward_eq_pure {layers : List Layer} {x : NdArray (BitVec 8)} (hw : WellFormed layers x.shape)
    (hb : AllRows (b.Exact 4) layers x.shape) (s : σ) :
    (graphForwardInt8 layers ⟨8, x⟩ b s).map (fun r => r.x) = pureNumpyInt8Forward layers ⟨8, x⟩ ∧
    ((∀ l ∈ layers, l.InRange) → ∃ r, graphForwardInt8 layers ⟨8, x⟩ b s = some r ∧
      pureNumpyInt8Forward layers ⟨8, x⟩ = some r.x) := by
  obtain ⟨hsame, hreturns⟩ := graph_agree hw hb s
  refine ⟨hsame, ?_⟩
  intro hrange
  obtain ⟨y, hy⟩ := hreturns hrange
  rw [hy] at hsame
  obtain ⟨r, hr, rfl⟩ := Option.map_eq_some_iff.mp hsame
  exact ⟨r, hr, hy⟩

end layers

/-- A 3 by 3 convolution and two logits on 4 by 4 images. -/
def demoLayers : List Layer :=
  [.conv2d ⟨1, 1, 3, 3, ofFn₂ 9 1 fun k _ => BitVec.ofNat 8 k, ofFn [1] fun _ => -5, 1610612736, -3⟩,
    .relu, .maxPool2x2, .flatten,
    .dense ⟨1, 2, true, ofFn₂ 1 2 fun _ c => BitVec.ofNat 8 (c + 1), ofFn [2] fun _ => 1, 0, 0⟩]

theorem demoLayers_wellFormed : WellFormed demoLayers [2, 1, 4, 4] := by
  refine .cons (.conv2d rfl rfl (by decide) (by decide)) (fun h => h.elim) ?_
  refine .cons (.relu _) (fun h => h.elim) ?_
  refine .cons (.maxPool2x2 2 1 1 1) (fun h => h.elim) ?_
  refine .cons (.flatten [1, 1, 1] (by decide)) (fun h => h.elim) ?_
  exact .cons (.dense rfl rfl) (fun _ => rfl) (.nil _)

theorem graph_forward_eq_pure_demo :
    ∃ r, graphForwardInt8 demoLayers ⟨8, ofFn [2, 1, 4, 4] fun idx => BitVec.ofNat 8 (ravel [2, 1, 4, 4] idx)⟩
        NumpyBackend () = some r ∧
      pureNumpyInt8Forward demoLayers
        ⟨8, ofFn [2, 1, 4, 4] fun idx => BitVec.ofNat 8 (ravel [2, 1, 4, 4] idx)⟩ = some r.x := by
  apply (graph_forward_eq_pure demoLayers_wellFormed (allRows_of_forall (numpyBackend_exact 4) _ _) ()).2
  simp only [demoLayers, List.forall_mem_cons, Layer.InRange]
  refine ⟨by decide, trivial, trivial, trivial, by decide, ?_⟩
  intro l hl
  exact absurd hl List.not_mem_nil

end Nn
