import TensorAccel.Sched.Conv

/-! # Batches

    The images of a batch share the row axis of every product, but no layer
    mixes them: what a graph returns for a concatenation of batches is the
    concatenation of what it returns for each of them. -/

open Finset NdArray FixedPoint Tiler Quantize

namespace Nn

variable {σ : Type _}

/-! ## Model -/

/-- `np.concatenate((a, b), axis=0)` of two arrays of one element type. -/
def Value.append0 (a b : Value) : Option Value :=
  if h : b.bits = a.bits then (a.arr.append0 (h ▸ b.arr)).map fun arr => ⟨a.bits, arr⟩ else none

/-- `np.concatenate(vs, axis=0)` -/
def concatenate : List Value → Option Value
  | [] => none
  | [v] => if v.arr.shape = [] then none else some v
  | v :: u :: vs => (concatenate (u :: vs)).bind v.append0

/-- `graph_forward_int8` on one batch after the other, on one backend. -/
def forwardBatches (layers : List Layer) (b : Backend σ) : List (NdArray (BitVec 8)) → σ → Option (List Value × σ)
  | [], s => some ([], s)
  | x :: xs, s => do
    let r ← graphForwardInt8 layers ⟨8, x⟩ b s
    let (ys, s) ← forwardBatches layers b xs r.backend
    some (r.x :: ys, s)

/-! ## One layer -/

/-- The outcomes on two batches and on their concatenation: either all three
are refused, or the third is the concatenation of the others. -/
inductive Joined : Option Value → Option Value → Option Value → Prop
  | none : Joined none none none
  | some {bits : ℕ} {a b c : NdArray (BitVec bits)} (h : append0 a b = some c) :
      Joined (some ⟨bits, a⟩) (some ⟨bits, b⟩) (some ⟨bits, c⟩)

theorem Joined.append0_eq {p q r : Option Value} (h : Joined p q r) :
    (p.bind fun a => q.bind fun b => a.append0 b) = r := by
  cases h with
  | none => rfl
  | some h =>
    simp only [Option.bind_some, Value.append0, dite_true]
    rw [h]
    rfl

/-- Rescaling keeps the images apart. -/
theorem requantClip_joined {x y z : NdArray (BitVec 32)} (h : append0 x y = some z) (M0 shift : ℤ) :
    Joined ((requantClip x M0 shift).map fun out => ⟨8, out⟩) ((requantClip y M0 shift).map fun out => ⟨8, out⟩)
      ((requantClip z M0 shift).map fun out => ⟨8, out⟩) := by
  rcases requantClip_pointwise M0 shift with hnone | ⟨f, hf⟩
  · rw [hnone, hnone, hnone]
    exact .none
  · rw [hf, hf, hf]
    exact .some (append0_map f h)

section layers
variable {x y z : NdArray (BitVec 8)} {n m : ℕ}

theorem conv2d_joined {l : Conv2d} {H W : ℕ} (hx : x.shape = [n, l.in_ch, H, W]) (hy : y.shape = [m, l.in_ch, H, W])
    (h : append0 x y = some z) (hWi : l.W_i8.shape = [l.in_ch * l.kh * l.kw, l.out_ch])
    (hb : l.b_i32.shape = [l.out_ch]) (hH : l.kh ≤ H + 1) (hW : l.kw ≤ W + 1) :
    Joined (pureNumpyStep ⟨8, x⟩ (.conv2d l)) (pureNumpyStep ⟨8, y⟩ (.conv2d l)) (pureNumpyStep ⟨8, z⟩ (.conv2d l)) := by
  have hz : z.shape = [n + m, l.in_ch, H, W] := ((append0_eq hx hy).mp h).1
  obtain ⟨ax, haxShape, haxEntry, hax⟩ := conv2d_acc hx hWi hb hH hW
  obtain ⟨ay, hayShape, hayEntry, hay⟩ := conv2d_acc hy hWi hb hH hW
  obtain ⟨az, hazShape, hazEntry, haz⟩ := conv2d_acc hz hWi hb hH hW
  rw [hax, hay, haz]
  apply requantClip_joined
  -- a window of an image lies in that image
  apply append0_of_get haxShape hayShape hazShape
  · intro k hk idx hidx
    obtain ⟨co, i, j, rfl, hco, hi, hj⟩ := hidx.triple
    rw [hazEntry k (by omega) co hco i hi j hj, haxEntry k hk co hco i hi j hj]
    congr 2
    apply sum_congr rfl
    intro c hc
    apply sum_congr rfl
    intro dy hdy
    apply sum_congr rfl
    intro dx hdx
    rw [mem_range] at hc hdy hdx
    have hin : InShape [c, i + dy, j + dx] [l.in_ch, H, W] := by
      rw [inShape_triple]
      omega
    rw [get_append0_left h hx hk hin]
  · intro k hk idx hidx
    obtain ⟨co, i, j, rfl, hco, hi, hj⟩ := hidx.triple
    rw [hazEntry (n + k) (by omega) co hco i hi j hj, hayEntry k hk co hco i hi j hj]
    simp only [get_append0_right h hx]

theorem maxPool2x2_joined {C H W : ℕ} (hx : x.shape = [n, C, 2 * H, 2 * W]) (hy : y.shape = [m, C, 2 * H, 2 * W])
    (h : append0 x y = some z) :
    Joined (pureNumpyStep ⟨8, x⟩ .maxPool2x2) (pureNumpyStep ⟨8, y⟩ .maxPool2x2) (pureNumpyStep ⟨8, z⟩ .maxPool2x2) := by
  have hz : z.shape = [n + m, C, 2 * H, 2 * W] := ((append0_eq hx hy).mp h).1
  obtain ⟨px, hpx, hpxShape, hpxEntry⟩ := maxPool_eq hx
  obtain ⟨py, hpy, hpyShape, hpyEntry⟩ := maxPool_eq hy
  obtain ⟨pz, hpz, hpzShape, hpzEntry⟩ := maxPool_eq hz
  simp only [pureNumpyStep, hpx, hpy, hpz, Option.bind_eq_bind, Option.bind_some]
  apply Joined.some
  apply append0_of_get hpxShape hpyShape hpzShape
  · intro k hk idx hidx
    obtain ⟨c, i, j, rfl, hc, hi, hj⟩ := hidx.triple
    have hpixel : ∀ a < 2 * H, ∀ b < 2 * W, z.get [k, c, a, b] = x.get [k, c, a, b] := by
      intro a ha b hb
      exact get_append0_left h hx hk (inShape_triple.mpr ⟨hc, ha, hb⟩)
    rw [hpzEntry k (by omega) c hc i hi j hj, hpxEntry k hk c hc i hi j hj,
      hpixel (2 * i) (by omega) (2 * j) (by omega), hpixel (2 * i) (by omega) (2 * j + 1) (by omega),
      hpixel (2 * i + 1) (by omega) (2 * j) (by omega), hpixel (2 * i + 1) (by omega) (2 * j + 1) (by omega)]
  · intro k hk idx hidx
    obtain ⟨c, i, j, rfl, hc, hi, hj⟩ := hidx.triple
    rw [hpzEntry (n + k) (by omega) c hc i hi j hj, hpyEntry k hk c hc i hi j hj]
    simp only [get_append0_right h hx]

theorem relu_joined (h : append0 x y = some z) :
    Joined (pureNumpyStep ⟨8, x⟩ .relu) (pureNumpyStep ⟨8, y⟩ .relu) (pureNumpyStep ⟨8, z⟩ .relu) :=
  .some (append0_map _ h)

/-- Flattening keeps the elements in place. -/
theorem flatten_joined {rest : List ℕ} (hx : x.shape = n :: rest) (hy : y.shape = m :: rest)
    (h : append0 x y = some z) (hn : 0 < n) (hm : 0 < m) :
    Joined (pureNumpyStep ⟨8, x⟩ .flatten) (pureNumpyStep ⟨8, y⟩ .flatten) (pureNumpyStep ⟨8, z⟩ .flatten) := by
  obtain ⟨hz, hdata⟩ := (append0_eq hx hy).mp h
  have hflat : ∀ {u : NdArray (BitVec 8)} {k : ℕ}, u.shape = k :: rest → 0 < k →
      ∃ v, pureNumpyStep ⟨8, u⟩ .flatten = some ⟨8, v⟩ ∧ v.shape = [k, rest.prod] ∧ v.data = u.data := by
    intro u k hu hk
    obtain ⟨v, hv, hshape⟩ := flatten_eq hu hk
    have hreshape : u.reshape [k, rest.prod] = some v := by
      rw [← hv, flatten, hu]
      simp only [Nat.ne_of_gt hk, if_false]
    exact ⟨v, by simp only [pureNumpyStep, hv, Option.bind_eq_bind, Option.bind_some], hshape,
      (data_reshape hreshape).2⟩
  obtain ⟨fx, hfx, hfxShape, hfxData⟩ := hflat hx hn
  obtain ⟨fy, hfy, hfyShape, hfyData⟩ := hflat hy hm
  obtain ⟨fz, hfz, hfzShape, hfzData⟩ := hflat hz (by omega)
  rw [hfx, hfy, hfz]
  apply Joined.some
  rw [append0_eq hfxShape hfyShape]
  exact ⟨hfzShape, by rw [hfzData, hfxData, hfyData, hdata]⟩

/-- The accumulators of a dense layer. -/
theorem dense_acc {l : Dense} {N : ℕ} (hx : x.shape = [N, l.in_f]) (hW : l.W_i8.shape = [l.in_f, l.out_f])
    (hb : l.b_i32.shape = [l.out_f]) :
    ∃ acc : NdArray (BitVec 32), acc.shape = [N, l.out_f] ∧
      (∀ i < N, ∀ j < l.out_f, acc.get [i, j] =
        BitVec.ofInt 32 (∑ k ∈ range l.in_f, (x.get [i, k]).toInt * (l.W_i8.get [k, j]).toInt) + l.b_i32.get [j]) ∧
      pureNumpyStep ⟨8, x⟩ (.dense l) =
        if l.output then some ⟨32, acc⟩ else (requantClip acc l.M0 l.shift).map fun out => ⟨8, out⟩ := by
  obtain ⟨prod, hprod, hprodShape, hprodEntry⟩ := product32_eq hx hW
  refine ⟨ofFn₂ N l.out_f fun i j => prod.get [i, j] + l.b_i32.get [j], rfl, ?_, ?_⟩
  · intro i hi j hj
    rw [get_ofFn₂ _ hi hj, hprodEntry i hi j hj]
  · simp only [pureNumpyStep, hprod, addRow_eq hprodShape hb, Option.bind_eq_bind, Option.bind_some,
      Option.map_eq_bind]
    rfl

theorem dense_joined {l : Dense} (hx : x.shape = [n, l.in_f]) (hy : y.shape = [m, l.in_f])
    (h : append0 x y = some z) (hW : l.W_i8.shape = [l.in_f, l.out_f]) (hb : l.b_i32.shape = [l.out_f]) :
    Joined (pureNumpyStep ⟨8, x⟩ (.dense l)) (pureNumpyStep ⟨8, y⟩ (.dense l)) (pureNumpyStep ⟨8, z⟩ (.dense l)) := by
  have hz : z.shape = [n + m, l.in_f] := ((append0_eq hx hy).mp h).1
  obtain ⟨ax, haxShape, haxEntry, hax⟩ := dense_acc hx hW hb
  obtain ⟨ay, hayShape, hayEntry, hay⟩ := dense_acc hy hW hb
  obtain ⟨az, hazShape, hazEntry, haz⟩ := dense_acc hz hW hb
  have hacc : append0 ax ay = some az := by
    apply append0_of_get haxShape hayShape hazShape
    · intro k hk idx hidx
      obtain ⟨j, rfl, hj⟩ := hidx.single
      rw [hazEntry k (by omega) j hj, haxEntry k hk j hj]
      congr 2
      apply sum_congr rfl
      intro i hi
      rw [get_append0_left h hx hk (.cons (mem_range.mp hi) .nil)]
    · intro k hk idx hidx
      obtain ⟨j, rfl, hj⟩ := hidx.single
      rw [hazEntry (n + k) (by omega) j hj, hayEntry k hk j hj]
      simp only [get_append0_right h hx]
  rw [hax, hay, haz]
  cases l.output with
  | true => exact .some hacc
  | false => exact requantClip_joined hacc l.M0 l.shift

theorem layer_joined {l : Layer} {rest s s' : List ℕ} (hl : l.OutShape (n :: rest) s)
    (hl' : l.OutShape (m :: rest) s') (hx : x.shape = n :: rest) (hy : y.shape = m :: rest)
    (h : append0 x y = some z) :
    Joined (pureNumpyStep ⟨8, x⟩ l) (pureNumpyStep ⟨8, y⟩ l) (pureNumpyStep ⟨8, z⟩ l) := by
  cases hl with
  | conv2d hW hb hH hWd => exact conv2d_joined hx hy h hW hb hH hWd
  | maxPool2x2 N C H W => exact maxPool2x2_joined hx hy h
  | relu => exact relu_joined h
  | flatten rest hn =>
    cases hl' with
    | flatten rest hm => exact flatten_joined hx hy h hn hm
  | dense hW hb => exact dense_joined hx hy h hW hb

/-- A layer that takes two batch sizes takes their sum. -/
theorem outShape_append {l : Layer} {rest s s' : List ℕ} (hl : l.OutShape (n :: rest) s)
    (hl' : l.OutShape (m :: rest) s') :
    ∃ r, s = n :: r ∧ s' = m :: r ∧ l.OutShape ((n + m) :: rest) ((n + m) :: r) := by
  cases hl with
  | conv2d hW hb hH hWd =>
    cases hl' with
    | conv2d => exact ⟨_, rfl, rfl, .conv2d hW hb hH hWd⟩
  | maxPool2x2 N C H W =>
    generalize hH : 2 * H = H' at hl'
    generalize hW : 2 * W = W' at hl'
    cases hl' with
    | maxPool2x2 _ _ H₁ W₁ =>
      obtain rfl : H = H₁ := by omega
      obtain rfl : W = W₁ := by omega
      exact ⟨_, rfl, rfl, .maxPool2x2 _ C H W⟩
  | relu =>
    cases hl' with
    | relu => exact ⟨rest, rfl, rfl, .relu _⟩
  | flatten rest hn =>
    cases hl' with
    | flatten => exact ⟨_, rfl, rfl, .flatten rest (by omega)⟩
  | dense hW hb =>
    cases hl' with
    | dense => exact ⟨_, rfl, rfl, .dense hW hb⟩

theorem layer_shape {l : Layer} {shape s : List ℕ} (hl : l.OutShape shape s) (hx : x.shape = shape) {v : Value}
    (hv : pureNumpyStep ⟨8, x⟩ l = some v) : v.arr.shape = s := by
  by_cases hout : l.IsOutput
  · cases hl with
    | @dense l N hW hb =>
      obtain ⟨acc, hshape, -, hstep⟩ := dense_acc hx hW hb
      have hraw : l.output = true := hout
      rw [hstep, if_pos hraw] at hv
      obtain rfl := Option.some.inj hv
      exact hshape
    | _ => exact hout.elim
  · obtain ⟨arr, rfl, hshape⟩ := (layer_agree (numpyBackend_exact 4 _) hl hx ()).typed hout v hv
    exact hshape

end layers

/-! ## Graphs -/

theorem wellFormed_append {layers : List Layer} {n m : ℕ} {rest : List ℕ} (h : WellFormed layers (n :: rest))
    (h' : WellFormed layers (m :: rest)) : WellFormed layers ((n + m) :: rest) := by
  induction layers generalizing rest with
  | nil => exact .nil _
  | cons l layers ih =>
    cases h with
    | cons hshape hlast hrest =>
      cases h' with
      | cons hshape' _ hrest' =>
        obtain ⟨r, rfl, rfl, hsum⟩ := outShape_append hshape hshape'
        exact .cons hsum hlast (ih hrest hrest')

/-- The batch axis of what a graph returns is that of its input. -/
theorem graph_shape {layers : List Layer} {n : ℕ} {rest : List ℕ} (hw : WellFormed layers (n :: rest))
    {x : NdArray (BitVec 8)} (hx : x.shape = n :: rest) {v : Value}
    (hv : pureNumpyInt8Forward layers ⟨8, x⟩ = some v) : ∃ r, v.arr.shape = n :: r := by
  induction layers generalizing rest x with
  | nil =>
    obtain rfl := Option.some.inj hv
    exact ⟨rest, hx⟩
  | cons l layers ih =>
    cases hw with
    | cons hshape hlast hrest =>
      obtain ⟨u, hu, hv⟩ := Option.bind_eq_some_iff.mp hv
      obtain ⟨r, rfl, -⟩ := outShape_append hshape hshape
      by_cases hout : l.IsOutput
      · obtain rfl := hlast hout
        obtain rfl := Option.some.inj hv
        exact ⟨r, layer_shape hshape hx hu⟩
      · obtain ⟨arr, rfl, harr⟩ := (layer_agree (numpyBackend_exact 4 _) hshape hx ()).typed hout u hu
        exact ih hrest harr hv

/-- Two batches through a graph, by induction on its layers. -/
theorem graph_joined {layers : List Layer} {n m : ℕ} {rest : List ℕ} (hw : WellFormed layers (n :: rest))
    (hw' : WellFormed layers (m :: rest)) {x y z : NdArray (BitVec 8)} (hx : x.shape = n :: rest)
    (hy : y.shape = m :: rest) (h : append0 x y = some z) :
    Joined (pureNumpyInt8Forward layers ⟨8, x⟩) (pureNumpyInt8Forward layers ⟨8, y⟩)
      (pureNumpyInt8Forward layers ⟨8, z⟩) := by
  induction layers generalizing rest x y z with
  | nil => exact .some h
  | cons l layers ih =>
    cases hw with
    | cons hshape hlast hrest =>
      cases hw' with
      | cons hshape' _ hrest' =>
        obtain ⟨r, rfl, rfl, -⟩ := outShape_append hshape hshape'
        have hstep := layer_joined hshape hshape' hx hy h
        simp only [pureNumpyInt8Forward, List.foldlM_cons, Option.bind_eq_bind]
        -- the layer raises on all three batches or on none
        generalize hp : pureNumpyStep ⟨8, x⟩ l = p at hstep
        generalize hq : pureNumpyStep ⟨8, y⟩ l = q at hstep
        generalize pureNumpyStep ⟨8, z⟩ l = u at hstep
        cases hstep with
        | none => exact .none
        | @some bits a b c hjoin =>
          by_cases hout : l.IsOutput
          · obtain rfl := hlast hout
            exact .some hjoin
          · -- an inner layer: the next one gets int8 arrays again
            obtain ⟨a', ha, haShape⟩ := (layer_agree (numpyBackend_exact 4 _) hshape hx ()).typed hout _ hp
            obtain ⟨b', hb, hbShape⟩ := (layer_agree (numpyBackend_exact 4 _) hshape' hy ()).typed hout _ hq
            obtain rfl : bits = 8 := congrArg Value.bits ha
            obtain rfl : a = a' := by injection ha
            obtain rfl : b = b' := by injection hb
            exact ih hrest hrest' haShape hbShape hjoin

/-! ## Splits -/

section splits
variable {layers : List Layer}

/-- What a graph returns for the batches of a split, in order. -/
theorem concatenate_mapM {xs : List (NdArray (BitVec 8))} {x : NdArray (BitVec 8)} (hsplit : concat0 xs = some x)
    (hw : ∀ y ∈ xs, WellFormed layers y.shape) :
    WellFormed layers x.shape ∧
      (xs.mapM fun y => pureNumpyInt8Forward layers ⟨8, y⟩).bind concatenate = pureNumpyInt8Forward layers ⟨8, x⟩ := by
  induction xs generalizing x with
  | nil => cases hsplit
  | cons y ys ih =>
    cases ys with
    | nil =>
      unfold concat0 at hsplit
      split at hsplit
      · cases hsplit
      · next hne =>
        obtain rfl := Option.some.inj hsplit
        have hwx := hw y List.mem_cons_self
        refine ⟨hwx, ?_⟩
        obtain ⟨n, rest, hx⟩ := List.exists_cons_of_ne_nil hne
        cases hv : pureNumpyInt8Forward layers ⟨8, y⟩ with
        | none => simp [hv]
        | some v =>
          obtain ⟨r, hr⟩ := graph_shape (hx ▸ hwx) hx hv
          simp [hv, concatenate, hr]
    | cons y' ys =>
      obtain ⟨z, hz, hjoin⟩ := Option.bind_eq_some_iff.mp hsplit
      obtain ⟨hwz, hrest⟩ := ih hz fun u hu => hw u (List.mem_cons_of_mem y hu)
      have hwy := hw y List.mem_cons_self
      obtain ⟨n, m, rest, hy, hz', hx⟩ := append0_shapes hjoin
      rw [hy] at hwy
      rw [hz'] at hwz
      refine ⟨hx ▸ wellFormed_append hwy hwz, ?_⟩
      rw [← (graph_joined hwy hwz hy hz' hjoin).append0_eq, ← hrest]
      -- the same two steps on both sides
      simp only [List.mapM_cons, Option.bind_eq_bind, Option.pure_def, Option.bind_assoc, Option.bind_some]
      rfl

/-- On an exact backend, in whatever state the batches before leave it. -/
theorem forwardBatches_eq {b : Backend σ} {xs : List (NdArray (BitVec 8))}
    (hb : ∀ y ∈ xs, AllRows (b.Exact 4) layers y.shape) (hw : ∀ y ∈ xs, WellFormed layers y.shape) (s : σ) :
    (forwardBatches layers b xs s).map Prod.fst = xs.mapM fun y => pureNumpyInt8Forward layers ⟨8, y⟩ := by
  induction xs generalizing s with
  | nil => rfl
  | cons y ys ih =>
    have hgraph := (graph_agree (hw y List.mem_cons_self) (hb y List.mem_cons_self) s).1
    have hrest := ih (fun u hu => hb u (List.mem_cons_of_mem y hu)) fun u hu => hw u (List.mem_cons_of_mem y hu)
    rw [List.mapM_cons, ← hgraph]
    simp only [forwardBatches, Option.bind_eq_bind]
    cases graphForwardInt8 layers ⟨8, y⟩ b s with
    | none => rfl
    | some r =>
      simp only [Option.bind_some, Option.map_some, ← hrest r.backend]
      cases forwardBatches layers b ys r.backend with
      | none => rfl
      | some p => rfl

/-- **Batches are independent.**  On a backend that is exact for the products of the
batches and of the whole, for every split of a batch into batches that the graph
accepts, the results concatenated along axis 0 are the result of the whole batch;
in range there is one. -/
theorem graph_forward_batches {b : Backend σ} {xs : List (NdArray (BitVec 8))} {x : NdArray (BitVec 8)}
    (hb : ∀ y ∈ xs, AllRows (b.Exact 4) layers y.shape) (hbx : AllRows (b.Exact 4) layers x.shape)
    (hsplit : concat0 xs = some x) (hw : ∀ y ∈ xs, WellFormed layers y.shape) (s s' : σ) :
    (forwardBatches layers b xs s).bind (fun r => concatenate r.1) =
        (graphForwardInt8 layers ⟨8, x⟩ b s').map (fun r => r.x) ∧
      ((∀ l ∈ layers, l.InRange) → ∃ r, graphForwardInt8 layers ⟨8, x⟩ b s' = some r) := by
  obtain ⟨hwx, hconcat⟩ := concatenate_mapM hsplit hw
  obtain ⟨hsame, hreturns⟩ := graph_agree hwx hbx s'
  constructor
  · rw [hsame, ← hconcat, ← forwardBatches_eq hb hw s, Option.bind_map]
    rfl
  · intro hrange
    obtain ⟨y, hy⟩ := hreturns hrange
    rw [hy] at hsame
    obtain ⟨r, hr, -⟩ := Option.map_eq_some_iff.mp hsame
    exact ⟨r, hr⟩

end splits

/-- Three images as a batch of two and a batch of one. -/
def demoSplit : List (NdArray (BitVec 8)) :=
  [ofFn [2, 1, 4, 4] fun idx => BitVec.ofNat 8 (ravel [2, 1, 4, 4] idx),
    ofFn [1, 1, 4, 4] fun idx => BitVec.ofNat 8 (7 * ravel [1, 1, 4, 4] idx)]

theorem demoLayers_wellFormed_one : WellFormed demoLayers [1, 1, 4, 4] := by
  refine .cons (.conv2d rfl rfl (by decide) (by decide)) (fun h => h.elim) ?_
  refine .cons (.relu _) (fun h => h.elim) ?_
  refine .cons (.maxPool2x2 1 1 1 1) (fun h => h.elim) ?_
  refine .cons (.flatten [1, 1, 1] (by decide)) (fun h => h.elim) ?_
  exact .cons (.dense rfl rfl) (fun _ => rfl) (.nil _)

theorem graph_forward_batches_demo :
    ∃ x, concat0 demoSplit = some x ∧ x.shape = [3, 1, 4, 4] ∧
      (forwardBatches demoLayers NumpyBackend demoSplit ()).bind (fun r => concatenate r.1) =
        (graphForwardInt8 demoLayers ⟨8, x⟩ NumpyBackend ()).map (fun r => r.x) := by
  have hsplit : ∃ x, concat0 demoSplit = some x ∧ x.shape = [3, 1, 4, 4] := ⟨_, rfl, rfl⟩
  obtain ⟨x, hx, hshape⟩ := hsplit
  have hexact := allRows_of_forall (numpyBackend_exact 4) demoLayers
  refine ⟨x, hx, hshape, (graph_forward_batches (fun _ _ => hexact _) (hexact _) hx ?_ () ()).1⟩
  simp only [demoSplit, List.forall_mem_cons]
  exact ⟨demoLayers_wellFormed, demoLayers_wellFormed_one, fun l hl => absurd hl List.not_mem_nil⟩

/-- An empty batch in front of a batch of one. -/
def demoEmptySplit : List (NdArray (BitVec 8)) := [ofFn [0, 2] fun _ => 0, ofFn [1, 2] fun _ => 5]

/-- **A flatten refuses an empty batch**, so a split that has one yields nothing
to concatenate, while the whole batch is flattened. -/
theorem empty_batch_refused :
    (forwardBatches [.flatten] NumpyBackend demoEmptySplit ()).bind (fun r => concatenate r.1) = none ∧
      concat0 demoEmptySplit = some (ofFn [1, 2] fun _ => 5) ∧
      WellFormed [.flatten] [1, 2] ∧
      (graphForwardInt8 [.flatten] ⟨8, ofFn [1, 2] fun _ => 5⟩ NumpyBackend ()).map (fun r => r.x.arr.shape) =
        some [1, 2] := by
  refine ⟨rfl, by decide, ?_, rfl⟩
  exact .cons (.flatten [2] (by decide)) (fun h => h.elim) (.nil _)

end Nn
