import Mathlib.Algebra.BigOperators.Group.List.Lemmas
import Mathlib.Data.BitVec
import TensorAccel.Framework.FixedPoint
import TensorAccel.Framework.NdArray
import TensorAccel.Framework.Tiling

/-! # The tiling scheduler (`sched/tiler.py`)

    `A @ W` on a backend that multiplies by one `tile` by `tile` block of `W`
    at a time.  Blocks at the edges are padded with zeros, and the product is
    accumulated in the columns of a padded result, which is cropped at the end. -/

open Finset NdArray FixedPoint Tiling

namespace Tiler

variable {σ : Type _} {v w : ℕ}

/-! ## Model -/

/-- `-(-x // tile)` -/
def nTiles (x tile : ℕ) : ℕ := (x + tile - 1) / tile

/-- Pairs `(kt, nt)`, the tiles of a column block one after another. -/
def plan (_M K N tile : ℕ) : List (ℕ × ℕ) :=
  (List.range (nTiles N tile)).flatMap fun nt => (List.range (nTiles K tile)).map fun kt => (kt, nt)

/-- `_pad_tile_2d` with its default `dtype=np.int8`. -/
def padTile2d (mat : NdArray (BitVec w)) (r0 r1 c0 c1 : ℕ) : NdArray (BitVec 8) :=
  let rHi := min r1 (mat.shape.getD 0 0)
  let cHi := min c1 (mat.shape.getD 1 0)
  ofFn₂ (r1 - r0) (c1 - c0) fun i j =>
    if r0 < rHi ∧ c0 < cHi ∧ i < rHi - r0 ∧ j < cHi - c0 then
      (mat.get [r0 + i, c0 + j]).signExtend 8
    else 0

/-- A backend with its own state, and the cycles its last tile took (zero for
    one that does not count them). -/
structure Backend (σ : Type _) where
  runTile : σ → (Wt At : NdArray (BitVec 8)) → Option (NdArray (BitVec 32) × σ)
  lastCycles : σ → ℤ

/-- `x.astype(np.int32) @ y.astype(np.int32)` -/
def product32 (x : NdArray (BitVec v)) (y : NdArray (BitVec w)) : Option (NdArray (BitVec 32)) :=
  (x.map (BitVec.signExtend 32)).matmul (y.map (BitVec.signExtend 32))

def NumpyBackend : Backend Unit where
  runTile _ Wt At := (product32 At Wt).map fun Ct => (Ct, ())
  lastCycles _ := 0

/-- `run_tile` returns `At @ Wt` in int32 for a block of `tile` by `tile` weights and
    `M` rows, in any state of the backend. -/
def Backend.Exact (b : Backend σ) (tile M : ℕ) : Prop :=
  ∀ s Wt At, Wt.shape = [tile, tile] → At.shape = [M, tile] →
    ∃ Ct s', product32 At Wt = some Ct ∧ b.runTile s Wt At = some (Ct, s')

/-- `C[:, nt * tile:(nt + 1) * tile] += Ct` -/
def addCols (C Ct : NdArray (BitVec 32)) (nt tile : ℕ) : Option (NdArray (BitVec 32)) :=
  match C.shape with
  | [m, n] =>
    if Ct.shape = [m, tile] ∧ (nt + 1) * tile ≤ n then
      some (ofFn₂ m n fun i j =>
        if nt * tile ≤ j ∧ j < (nt + 1) * tile then C.get [i, j] + Ct.get [i, j - nt * tile]
        else C.get [i, j])
    else none
  | _ => none

/-- Variables of the loop of `execute`. -/
structure Run (σ : Type _) where
  C : NdArray (BitVec 32)
  weightLoads : ℕ
  totalCycles : ℤ
  backend : σ

structure Stats where
  tiles : ℕ
  weightLoads : ℕ
  macs : ℕ
  cycles : ℤ
  deriving DecidableEq, Repr

/-- One job of the schedule, for an `A` of `M` rows. -/
def Run.step (b : Backend σ) (A : NdArray (BitVec v)) (W : NdArray (BitVec w)) (M tile : ℕ) (s : Run σ)
    (t : ℕ × ℕ) : Option (Run σ) := do
  let Wt := padTile2d W (t.1 * tile) ((t.1 + 1) * tile) (t.2 * tile) ((t.2 + 1) * tile)
  let At := padTile2d A 0 M (t.1 * tile) ((t.1 + 1) * tile)
  let (Ct, backend) ← b.runTile s.backend Wt At
  let C ← addCols s.C Ct t.2 tile
  some {
    C := C
    weightLoads := s.weightLoads + 1
    totalCycles := s.totalCycles + b.lastCycles backend
    backend := backend }

/-- `execute`, with the state in which it leaves the backend.  `macs_per_cycle`
    is the quotient of two of the statistics. -/
def execute (schedule : List (ℕ × ℕ)) (A : NdArray (BitVec v)) (W : NdArray (BitVec w)) (b : Backend σ)
    (backend : σ) (tile : ℕ) : Option (NdArray (BitVec 32) × Stats × σ) :=
  match A.shape, W.shape with
  | [M, K], [K2, N] =>
    if K = K2 then do
      let start : Run σ := ⟨ofFn₂ M (nTiles N tile * tile) fun _ _ => 0, 0, 0, backend⟩
      let s ← schedule.foldlM (Run.step b A W M tile) start
      let C := ofFn₂ M N fun i j => s.C.get [i, j]
      some (C, ⟨schedule.length, s.weightLoads, M * K * N, s.totalCycles⟩, s.backend)
    else none
  | _, _ => none

/-- Its entries are the integer dot products modulo `2 ^ 32`. -/
theorem product32_eq {x : NdArray (BitVec v)} {y : NdArray (BitVec w)} {m k n : ℕ} (hx : x.shape = [m, k])
    (hy : y.shape = [k, n]) :
    ∃ C, product32 x y = some C ∧ C.shape = [m, n] ∧ ∀ i < m, ∀ j < n, C.get [i, j] =
      BitVec.ofInt 32 (∑ l ∈ range k, (x.get [i, l]).toInt * (y.get [l, j]).toInt) := by
  refine ⟨_, matmul_eq (by rw [shape_map, hx]) (by rw [shape_map, hy]), rfl, ?_⟩
  intro i hi j hj
  rw [get_ofFn₂ _ hi hj]
  have hterm : ∀ l ∈ range k, (x.map (BitVec.signExtend 32)).get [i, l] *
      (y.map (BitVec.signExtend 32)).get [l, j] =
        (((x.get [i, l]).toInt * (y.get [l, j]).toInt : ℤ) : BitVec 32) := by
    intro l hl
    have hl := mem_range.mp hl
    rw [get_map _ (hx ▸ inShape_pair.mpr ⟨hi, hl⟩), get_map _ (hy ▸ inShape_pair.mpr ⟨hl, hj⟩)]
    exact signExtend_mul_signExtend 32 _ _
  rw [Finset.sum_congr rfl hterm, ← Int.cast_sum]
  rfl

theorem numpy_runTile {Wt At : NdArray (BitVec 8)} {Ct : NdArray (BitVec 32)} :
    NumpyBackend.runTile () Wt At = some (Ct, ()) ↔ product32 At Wt = some Ct := by
  simp [NumpyBackend]

theorem numpyBackend_exact (tile M : ℕ) : NumpyBackend.Exact tile M := by
  intro s Wt At hWt hAt
  obtain ⟨Ct, hprod, -⟩ := product32_eq hAt hWt
  exact ⟨Ct, (), hprod, numpy_runTile.mpr hprod⟩

/-! ## Schedule -/

theorem le_nTiles_mul {tile : ℕ} (h : 0 < tile) (x : ℕ) : x ≤ nTiles x tile * tile := by
  unfold nTiles
  have hdiv := Nat.div_add_mod' (x + tile - 1) tile
  have hmod := Nat.mod_lt (x + tile - 1) h
  omega

theorem div_lt_nTiles {tile x y : ℕ} (h : 0 < tile) (hy : y < x) : y / tile < nTiles x tile := by
  rw [Nat.div_lt_iff_lt_mul h]
  exact hy.trans_le (le_nTiles_mul h x)

theorem mem_plan {M K N tile : ℕ} {t : ℕ × ℕ} :
    t ∈ plan M K N tile ↔ t.1 < nTiles K tile ∧ t.2 < nTiles N tile := by
  rcases t with ⟨kt, nt⟩
  simp only [plan, List.mem_flatMap, List.mem_map, List.mem_range, Prod.mk.injEq]
  constructor
  · rintro ⟨nt', hnt, kt', hkt, rfl, rfl⟩
    exact ⟨hkt, hnt⟩
  · rintro ⟨hkt, hnt⟩
    exact ⟨nt, hnt, kt, hkt, rfl, rfl⟩

/-- The jobs of one column block, in a prefix of the plan's outer loop. -/
theorem filter_block (nK q n : ℕ) :
    ((List.range n).flatMap fun nt => (List.range nK).map fun kt => (kt, nt)).filter (·.2 = q) =
      if q < n then (List.range nK).map fun kt => (kt, q) else [] := by
  induction n with
  | zero => simp
  | succ n ih =>
    rw [List.range_succ, List.flatMap_append, List.filter_append, ih]
    have hlast : ([n].flatMap fun nt => (List.range nK).map fun kt => (kt, nt)).filter (·.2 = q) =
        if n = q then (List.range nK).map fun kt => (kt, n) else [] := by
      by_cases hq : n = q
      · simp [hq]
      · simp [hq]
    rw [hlast]
    rcases lt_trichotomy q n with h | h | h
    · rw [if_pos h, if_neg (by omega), if_pos (by omega), List.append_nil]
    · rw [if_neg (by omega), if_pos h.symm, if_pos (by omega), List.nil_append, h]
    · rw [if_neg (by omega), if_neg (by omega), if_neg (by omega), List.nil_append]

theorem filter_plan (M K : ℕ) {N tile q : ℕ} (h : q < nTiles N tile) :
    (plan M K N tile).filter (·.2 = q) = (List.range (nTiles K tile)).map fun kt => (kt, q) := by
  rw [plan, filter_block, if_pos h]

/-- Tile `t` holds entry `(k, n)` of the weights. -/
def Covers (tile k n : ℕ) (t : ℕ × ℕ) : Prop :=
  (t.1 * tile ≤ k ∧ k < (t.1 + 1) * tile) ∧ t.2 * tile ≤ n ∧ n < (t.2 + 1) * tile

instance (tile k n : ℕ) (t : ℕ × ℕ) : Decidable (Covers tile k n t) := inferInstanceAs (Decidable (_ ∧ _))

/-- `k` lies in block `k / tile` and in no other. -/
theorem div_eq_iff_block {tile : ℕ} (h : 0 < tile) (k b : ℕ) :
    b * tile ≤ k ∧ k < (b + 1) * tile ↔ b = k / tile := by
  rw [eq_comm, Nat.div_eq_iff h]
  constructor
  · rintro ⟨hlo, hhi⟩
    rw [Nat.succ_mul] at hhi
    omega
  · rintro ⟨hlo, hhi⟩
    rw [Nat.succ_mul]
    omega

theorem covers_iff {tile : ℕ} (h : 0 < tile) (k n : ℕ) (t : ℕ × ℕ) :
    Covers tile k n t ↔ t = (k / tile, n / tile) := by
  rw [Covers, div_eq_iff_block h, div_eq_iff_block h, Prod.ext_iff]

theorem nodup_plan (M K N tile : ℕ) : (plan M K N tile).Nodup := by
  rw [plan, List.nodup_flatMap]
  constructor
  · intro nt _
    exact List.nodup_range.map fun a b h => (Prod.mk.inj h).1
  · refine List.nodup_range.pairwise_of_forall_ne fun a _ b _ hab => ?_
    intro t hta htb
    obtain ⟨_, _, rfl⟩ := List.mem_map.mp hta
    obtain ⟨_, _, heq⟩ := List.mem_map.mp htb
    exact hab (Prod.mk.inj heq).2.symm

/-- Every entry of the weights lies in exactly one job. -/
theorem covered_once {M K N tile : ℕ} (h : 0 < tile) {schedule : List (ℕ × ℕ)}
    (hs : schedule.Perm (plan M K N tile)) {k n : ℕ} (hk : k < K) (hn : n < N) :
    schedule.countP (Covers tile k n ·) = 1 := by
  have hmem : (k / tile, n / tile) ∈ plan M K N tile :=
    mem_plan.mpr ⟨div_lt_nTiles h hk, div_lt_nTiles h hn⟩
  have hcount := List.count_eq_one_of_mem (nodup_plan M K N tile) hmem
  rw [hs.countP_eq, ← hcount, List.count]
  apply List.countP_congr
  intro t _
  simp only [covers_iff h, decide_eq_true_eq, beq_iff_eq]

/-! ## One job -/

theorem tile_width (tile k : ℕ) : (k + 1) * tile - k * tile = tile := by
  rw [Nat.succ_mul, Nat.add_sub_cancel_left]

/-- A block of weights. -/
theorem shape_tile (mat : NdArray (BitVec w)) (tile k l : ℕ) :
    (padTile2d mat (k * tile) ((k + 1) * tile) (l * tile) ((l + 1) * tile)).shape = [tile, tile] := by
  rw [padTile2d, tile_width, tile_width]
  rfl

/-- The columns of `A` that meet it. -/
theorem shape_acts (mat : NdArray (BitVec w)) (tile M k : ℕ) :
    (padTile2d mat 0 M (k * tile) ((k + 1) * tile)).shape = [M, tile] := by
  rw [padTile2d, tile_width, Nat.sub_zero]
  rfl

theorem get_padTile2d {mat : NdArray (BitVec 8)} {R C : ℕ} (hmat : mat.shape = [R, C]) {r0 r1 c0 c1 i j : ℕ}
    (hi : r0 + i < r1) (hj : c0 + j < c1) :
    (padTile2d mat r0 r1 c0 c1).get [i, j] =
      if r0 + i < R ∧ c0 + j < C then mat.get [r0 + i, c0 + j] else 0 := by
  rw [padTile2d, get_ofFn₂ _ (by omega) (by omega), hmat, BitVec.signExtend_eq]
  simp only [List.getD_cons_zero, List.getD_cons_succ]
  exact if_congr (by omega) rfl rfl

/-- A job changes the columns of its block only. -/
theorem addCols_eq {tile : ℕ} (ht : 0 < tile) {C Ct : NdArray (BitVec 32)} {m n nt : ℕ} (hC : C.shape = [m, n])
    (hCt : Ct.shape = [m, tile]) (hfit : (nt + 1) * tile ≤ n) :
    ∃ C', addCols C Ct nt tile = some C' ∧ C'.shape = [m, n] ∧
      ∀ i < m, ∀ j < n, C'.get [i, j] =
        C.get [i, j] + if nt = j / tile then Ct.get [i, j - nt * tile] else 0 := by
  simp only [addCols, hC, hCt, true_and, if_pos hfit]
  refine ⟨_, rfl, rfl, ?_⟩
  intro i hi j hj
  rw [get_ofFn₂ _ hi hj]
  by_cases hblock : nt = j / tile
  · rw [if_pos ((div_eq_iff_block ht j nt).mpr hblock), if_pos hblock]
  · rw [if_neg (mt (div_eq_iff_block ht j nt).mp hblock), if_neg hblock, add_zero]

section job

variable {A W : NdArray (BitVec 8)} {M K N : ℕ}

/-- What tile `kt` adds to entry `(m, n)`. -/
def tileSum (A W : NdArray (BitVec 8)) (K tile m n kt : ℕ) : BitVec 32 :=
  ∑ j ∈ range tile, if kt * tile + j < K then
    (A.get [m, kt * tile + j]).signExtend 32 * (W.get [kt * tile + j, n]).signExtend 32 else 0

variable (hA : A.shape = [M, K]) (hW : W.shape = [K, N])

include hA hW in
/-- Padding of `A` and of the rows of `W` meet in the same terms, which vanish. -/
theorem product32_tile (tile kt nt : ℕ) :
    ∃ Ct, product32 (padTile2d A 0 M (kt * tile) ((kt + 1) * tile))
        (padTile2d W (kt * tile) ((kt + 1) * tile) (nt * tile) ((nt + 1) * tile)) = some Ct ∧
      Ct.shape = [M, tile] ∧
      ∀ m < M, ∀ j < tile, nt * tile + j < N → Ct.get [m, j] = tileSum A W K tile m (nt * tile + j) kt := by
  have hAt : ((padTile2d A 0 M (kt * tile) ((kt + 1) * tile)).map (BitVec.signExtend 32)).shape = [M, tile] :=
    shape_acts A tile M kt
  have hWt : ((padTile2d W (kt * tile) ((kt + 1) * tile) (nt * tile) ((nt + 1) * tile)).map
      (BitVec.signExtend 32)).shape = [tile, tile] := shape_tile W tile kt nt
  refine ⟨_, matmul_eq hAt hWt, rfl, ?_⟩
  intro m hm j hj hn
  rw [get_ofFn₂ _ hm hj, tileSum]
  apply Finset.sum_congr rfl
  intro l hl
  have hl := mem_range.mp hl
  have hk : kt * tile + l < (kt + 1) * tile := by rw [Nat.succ_mul]; omega
  have hcol : nt * tile + j < (nt + 1) * tile := by rw [Nat.succ_mul]; omega
  rw [get_map _ (hAt ▸ inShape_pair.mpr ⟨hm, hl⟩), get_map _ (hWt ▸ inShape_pair.mpr ⟨hl, hj⟩),
    get_padTile2d hA (by omega) hk, get_padTile2d hW hk hcol, Nat.zero_add]
  by_cases hin : kt * tile + l < K
  · rw [if_pos ⟨hm, hin⟩, if_pos ⟨hin, hn⟩, if_pos hin]
  · rw [if_neg (fun h => hin h.2), if_neg hin]
    simp

variable {b : Backend σ} {tile : ℕ} (hb : b.Exact tile M) (ht : 0 < tile)

include hA hW hb ht in
/-- A job of column block `t.2` adds its tile to the columns of that block. -/
theorem step_eq {t : ℕ × ℕ} (hnt : t.2 < nTiles N tile) {s : Run σ} (hC : s.C.shape = [M, nTiles N tile * tile]) :
    ∃ s', s.step b A W M tile t = some s' ∧ s'.C.shape = [M, nTiles N tile * tile] ∧
      s'.weightLoads = s.weightLoads + 1 ∧
      ∀ m < M, ∀ n < N, s'.C.get [m, n] =
        s.C.get [m, n] + if t.2 = n / tile then tileSum A W K tile m n t.1 else 0 := by
  obtain ⟨Ct, hprod, hshape, hentry⟩ := product32_tile hA hW tile t.1 t.2
  obtain ⟨Ct', backend, hprod', hrun⟩ := hb s.backend _ _ (shape_tile W tile t.1 t.2) (shape_acts A tile M t.1)
  obtain rfl := Option.some.inj (hprod.symm.trans hprod')
  have hfit : (t.2 + 1) * tile ≤ nTiles N tile * tile := Nat.mul_le_mul_right tile hnt
  obtain ⟨C, hadd, hCshape, hCentry⟩ := addCols_eq ht hC hshape hfit
  refine ⟨⟨C, s.weightLoads + 1, s.totalCycles + b.lastCycles backend, backend⟩, ?_, hCshape, rfl, ?_⟩
  · simp only [Run.step, hrun, hadd, Option.bind_eq_bind, Option.bind_some]
  · intro m hm n hn
    rw [hCentry m hm n (hn.trans_le (le_nTiles_mul ht N))]
    by_cases hblock : t.2 = n / tile
    · have hlo := ((div_eq_iff_block ht n t.2).mpr hblock).1
      have hhi := ((div_eq_iff_block ht n t.2).mpr hblock).2
      rw [Nat.succ_mul] at hhi
      rw [if_pos hblock, if_pos hblock, hentry m hm _ (by omega) (by omega), Nat.add_sub_cancel' hlo]
    · rw [if_neg hblock, if_neg hblock]

include hA hW hb ht in
theorem run_eq {schedule : List (ℕ × ℕ)} (hs : ∀ t ∈ schedule, t.2 < nTiles N tile) {s : Run σ}
    (hC : s.C.shape = [M, nTiles N tile * tile]) :
    ∃ s', schedule.foldlM (Run.step b A W M tile) s = some s' ∧
      s'.weightLoads = s.weightLoads + schedule.length ∧
      ∀ m < M, ∀ n < N, s'.C.get [m, n] =
        s.C.get [m, n] + ((schedule.filter (·.2 = n / tile)).map fun t => tileSum A W K tile m n t.1).sum := by
  induction schedule generalizing s with
  | nil => exact ⟨s, rfl, rfl, by simp⟩
  | cons t rest ih =>
    obtain ⟨s₁, hstep, hshape, hloads, hentry⟩ := step_eq hA hW hb ht (hs t List.mem_cons_self) hC
    obtain ⟨s₂, hrun, hloads', hentry'⟩ := ih (fun t' ht' => hs t' (List.mem_cons_of_mem t ht')) hshape
    refine ⟨s₂, ?_, ?_, ?_⟩
    · rw [List.foldlM_cons, hstep]
      exact hrun
    · rw [hloads', hloads, List.length_cons]
      omega
    · intro m hm n hn
      rw [hentry' m hm n hn, hentry m hm n hn, add_assoc]
      by_cases hblock : t.2 = n / tile
      · simp [hblock]
      · simp [hblock]

/-! ## The whole schedule -/

/-- All tiles of a column block make up the entry of the product. -/
theorem sum_tileSum (ht : 0 < tile) (m n : ℕ) :
    ((List.range (nTiles K tile)).map (tileSum A W K tile m n)).sum =
      ∑ k ∈ range K, (A.get [m, k]).signExtend 32 * (W.get [k, n]).signExtend 32 :=
  sum_padded_tiles (fun k => (A.get [m, k]).signExtend 32 * (W.get [k, n]).signExtend 32)
    (le_nTiles_mul ht K)

include hA hW hb ht in
/-- Any order of the jobs computes the int32 product. -/
theorem execute_eq_product {schedule : List (ℕ × ℕ)} (hs : schedule.Perm (plan M K N tile)) (backend : σ) :
    ∃ C stats s', execute schedule A W b backend tile = some (C, stats, s') ∧ product32 A W = some C ∧
      stats.tiles = nTiles N tile * nTiles K tile ∧ stats.weightLoads = stats.tiles ∧
      stats.macs = M * K * N := by
  have hblocks : ∀ t ∈ schedule, t.2 < nTiles N tile := fun t h => (mem_plan.mp (hs.mem_iff.mp h)).2
  obtain ⟨s, hrun, hloads, hentry⟩ := run_eq hA hW hb ht hblocks
    (s := ⟨ofFn₂ M (nTiles N tile * tile) fun _ _ => 0, 0, 0, backend⟩) rfl
  refine ⟨ofFn₂ M N fun i j => s.C.get [i, j], ⟨schedule.length, s.weightLoads, M * K * N, s.totalCycles⟩,
    s.backend, ?_, ?_, ?_, ?_, rfl⟩
  · simp only [execute, hA, hW, if_true, hrun, Option.bind_eq_bind, Option.bind_some]
  · rw [product32, matmul_eq (by rw [shape_map, hA]) (by rw [shape_map, hW])]
    refine congrArg some (ext₂ rfl rfl ?_)
    intro m hm n hn
    have hzero : (ofFn₂ M (nTiles N tile * tile) fun _ _ => (0 : BitVec 32)).get [m, n] = 0 :=
      get_ofFn₂ _ hm (hn.trans_le (le_nTiles_mul ht N))
    have hperm := (((hs.filter (·.2 = n / tile)).map fun t => tileSum A W K tile m n t.1)).sum_eq
    rw [filter_plan M K (div_lt_nTiles ht hn), List.map_map] at hperm
    rw [get_ofFn₂ _ hm hn, get_ofFn₂ _ hm hn, hentry m hm n hn, hzero, zero_add, hperm]
    refine Eq.trans ?_ (sum_tileSum ht m n).symm
    apply Finset.sum_congr rfl
    intro k hk
    have hk := mem_range.mp hk
    rw [get_map _ (hA ▸ inShape_pair.mpr ⟨hm, hk⟩), get_map _ (hW ▸ inShape_pair.mpr ⟨hk, hn⟩)]
  · rw [hs.length_eq]
    simp [plan]
  · rw [hloads]
    simp

/-- **`execute` computes `A @ W` modulo `2 ^ 32`** on every backend that is exact for the
rows of `A`, for every tile size: each entry of the weights is in exactly one job,
and one array `C` is the result of every order of the jobs. -/
theorem execute_correct (hA : A.shape = [M, K]) (hW : W.shape = [K, N]) {b : Backend σ} {tile : ℕ}
    (hb : b.Exact tile M) (ht : 0 < tile) :
    (∀ schedule : List (ℕ × ℕ), schedule.Perm (plan M K N tile) →
      ∀ k < K, ∀ n < N, schedule.countP (Covers tile k n ·) = 1) ∧
    ∃ C : NdArray (BitVec 32), C.shape = [M, N] ∧
      (∀ m < M, ∀ n < N, C.get [m, n] =
        BitVec.ofInt 32 (∑ k ∈ range K, (A.get [m, k]).toInt * (W.get [k, n]).toInt)) ∧
      ∀ schedule : List (ℕ × ℕ), schedule.Perm (plan M K N tile) → ∀ backend, ∃ stats s',
        execute schedule A W b backend tile = some (C, stats, s') ∧
        stats.tiles = nTiles N tile * nTiles K tile ∧ stats.weightLoads = stats.tiles := by
  obtain ⟨C, hprod, hshape, hentry⟩ := product32_eq hA hW
  refine ⟨fun schedule hs k hk n hn => covered_once ht hs hk hn, C, hshape, hentry, ?_⟩
  intro schedule hs backend
  obtain ⟨C', stats, s', hrun, hprod', htiles, hloads, -⟩ := execute_eq_product hA hW hb ht hs backend
  rw [hprod] at hprod'
  obtain rfl := Option.some.inj hprod'
  exact ⟨stats, s', hrun, htiles, hloads⟩

/-- Two by two tiles of a 1 by 3 and a 3 by 3 matrix, last job first:
`[1, -2, 3] @ [[0, 1, 2], [1, 2, 3], [2, 3, 4]]` ends in `2 - 6 + 12`. -/
theorem execute_correct_demo :
    ∃ C stats s', execute (plan 1 3 3 2).reverse (ofFn₂ 1 3 fun _ k => if k = 1 then -2 else BitVec.ofNat 8 (k + 1))
      (ofFn₂ 3 3 fun k n => BitVec.ofNat 8 (k + n)) NumpyBackend () 2 = some (C, stats, s') ∧
      C.get [0, 2] = 8 ∧ stats.tiles = 4 := by
  obtain ⟨-, C, -, hentry, hrun⟩ := execute_correct
    (A := ofFn₂ 1 3 fun _ k => if k = 1 then -2 else BitVec.ofNat 8 (k + 1))
    (W := ofFn₂ 3 3 fun k n => BitVec.ofNat 8 (k + n)) rfl rfl (numpyBackend_exact 2 1) (show 0 < 2 by decide)
  obtain ⟨stats, s', hexec, htiles, -⟩ := hrun _ (List.reverse_perm (plan 1 3 3 2)) ()
  refine ⟨C, stats, s', hexec, ?_, htiles⟩
  rw [hentry 0 (by decide) 2 (by decide)]
  decide

end job

end Tiler
