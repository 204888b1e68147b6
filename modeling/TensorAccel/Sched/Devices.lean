import TensorAccel.Framework.Folds
import TensorAccel.Sched.Batch
import TensorAccel.Sched.TileServer
import TensorAccel.Sched.TileSession

/-! # The scheduler on the two processes

    `execute` of `sched/tiler.py` with `VerilatorBackend` and with `CoprocBackend`.
    The first is exact in every state, up to a limit on the rows; the second only in
    the states that its own calls lead to.  `Follows` covers both: from the states of
    an invariant a tile comes back as it does from `NumpyBackend`, in a fixed number
    of cycles. -/

open CoprocDriver Folds NdArray Tiler Nn CoprocBackend TileServer

namespace Tiler

variable {σ : Type _} {b : Backend σ} {s : σ} {A W : NdArray (BitVec 8)} {M K N n limit : ℕ} {cost : ℤ}
  {I : ℕ → σ → Prop} {schedule : List (ℕ × ℕ)}

/-! ## Tiles -/

theorem length_plan (M K N : ℕ) : (plan M K N 4).length = nTiles N 4 * nTiles K 4 := by
  simp [plan]

/-- `I n` holds of the states after `n` jobs of `M` rows.  Up to `limit` jobs each returns the
product of its tile, in `cost` cycles. -/
structure Backend.Follows (b : Backend σ) (M : ℕ) (cost : ℤ) (limit : ℕ) (I : ℕ → σ → Prop) : Prop where
  tile : ∀ n s, n < limit → I n s → ∀ Wt At : NdArray (BitVec 8), Wt.shape = [4, 4] → At.shape = [M, 4] →
    ∃ Ct s', b.runTile s Wt At = some (Ct, s') ∧ NumpyBackend.runTile () Wt At = some (Ct, ()) ∧
      b.lastCycles s' = cost ∧ I (n + 1) s'

/-- A job on the backend and the same job in numpy. -/
structure Lockstep (cost : ℤ) (I : ℕ → σ → Prop) (n k : ℕ) (r : Run σ) (ref : Run Unit) : Prop where
  C : r.C = ref.C
  weightLoads : r.weightLoads = ref.weightLoads
  totalCycles : r.totalCycles = cost * k
  backend : I (n + k) r.backend

theorem Backend.Follows.step (h : b.Follows M cost limit I) {k : ℕ} (hk : n + k < limit) {r : Run σ}
    {ref ref' : Run Unit} {t : ℕ × ℕ} (hr : Lockstep cost I n k r ref)
    (href : ref.step NumpyBackend A W M 4 t = some ref') :
    ∃ r', r.step b A W M 4 t = some r' ∧ Lockstep cost I n (k + 1) r' ref' := by
  obtain ⟨Ct, s', hrun, hnumpy, hcycles, hI⟩ :=
    h.tile (n + k) r.backend hk hr.backend _ _ (shape_tile W 4 t.1 t.2) (shape_acts A 4 M t.1)
  rw [Run.step, hnumpy] at href
  simp only [Option.bind_eq_bind, Option.bind_some] at href
  obtain ⟨C, hadd, href⟩ := Option.bind_eq_some_iff.mp href
  obtain rfl := Option.some.inj href
  refine ⟨⟨C, r.weightLoads + 1, r.totalCycles + b.lastCycles s', s'⟩, ?_, ⟨rfl, ?_, ?_, hI⟩⟩
  · rw [Run.step, hrun]
    simp only [Option.bind_eq_bind, Option.bind_some, hr.C, hadd]
  · simp only [hr.weightLoads]
  · simp only [hr.totalCycles, hcycles]
    push_cast
    ring

/-- `execute` on a backend that follows numpy. -/
theorem Backend.Follows.execute_eq (h : b.Follows M cost limit I) (hA : A.shape = [M, K]) (hW : W.shape = [K, N])
    (hs : schedule.Perm (plan M K N 4)) (hI : I n s) (hlimit : n + schedule.length ≤ limit) :
    ∃ C stats s', execute schedule A W b s 4 = some (C, stats, s') ∧ product32 A W = some C ∧
      stats.tiles = nTiles N 4 * nTiles K 4 ∧ stats.weightLoads = stats.tiles ∧ stats.macs = M * K * N ∧
      stats.cycles = cost * stats.tiles ∧ I (n + stats.tiles) s' := by
  obtain ⟨C, stats, _, hnumpy, hprod, htiles, hloads, hmacs⟩ :=
    execute_eq_product hA hW (numpyBackend_exact 4 M) (show 0 < 4 by decide) hs ()
  simp only [execute, hA, hW, if_true] at hnumpy
  obtain ⟨ref, hfold, hout⟩ := Option.bind_eq_some_iff.mp hnumpy
  obtain ⟨hC, hrest⟩ := Prod.mk.inj (Option.some.inj hout)
  obtain ⟨rfl, -⟩ := Prod.mk.inj hrest
  have hstart : Lockstep cost I n 0 (⟨ofFn₂ M (nTiles N 4 * 4) fun _ _ => 0, 0, 0, s⟩ : Run σ)
      ⟨ofFn₂ M (nTiles N 4 * 4) fun _ _ => 0, 0, 0, ()⟩ := ⟨rfl, rfl, by simp, hI⟩
  obtain ⟨r, hrun, hend⟩ := foldlM_sim (f := Run.step b A W M 4) (R := Lockstep cost I n)
    (fun k r ref ref' t _ hk hr href => h.step (by omega) hr href) hstart hfold
  rw [Nat.zero_add] at hend
  refine ⟨C, ⟨schedule.length, r.weightLoads, M * K * N, r.totalCycles⟩, r.backend, ?_, hprod, htiles, ?_, rfl,
    hend.totalCycles, hend.backend⟩
  · simp only [execute, hA, hW, if_true, hrun, Option.bind_eq_bind, Option.bind_some, hend.C, hC]
  · exact hend.weightLoads.trans hloads

/-- A backend that does not return its first tile. -/
theorem execute_none (hrun : ∀ Wt At : NdArray (BitVec 8), Wt.shape = [4, 4] → At.shape = [M, 4] → b.runTile s Wt At = none)
    (hA : A.shape = [M, K]) (hW : W.shape = [K, N]) (hne : schedule ≠ []) : execute schedule A W b s 4 = none := by
  obtain ⟨t, rest, rfl⟩ := List.exists_cons_of_ne_nil hne
  have hstep : ∀ r : Run σ, r.backend = s → r.step b A W M 4 t = none := by
    intro r hr
    rw [Run.step, hr, hrun _ _ (shape_tile W 4 t.1 t.2) (shape_acts A 4 M t.1)]
    rfl
  simp only [execute, hA, hW, if_true, List.foldlM_cons]
  rw [hstep _ rfl]
  rfl

end Tiler

/-! ## `VerilatorBackend` -/

namespace TileServer

def VerilatorBackend.backend : Backend VerilatorBackend where
  runTile b Wt At := b.runTile Wt At
  lastCycles b := b.lastCycles

/-- In any state of the array. -/
theorem verilator_exact {M : ℕ} (hM : M < 2 ^ 31) : VerilatorBackend.backend.Exact 4 M := by
  intro b Wt At hWt hAt
  obtain ⟨Ct, b', hrun, hprod, -⟩ := runTile_eq b hWt hAt hM
  exact ⟨Ct, b', numpy_runTile.mp hprod, hrun⟩

section graphs
variable {layers : List Layer}

/-- `graph_forward_int8` on the array is the numpy reference, as long as no product has
`2 ^ 31` rows. -/
theorem graph_forward_verilator {x : NdArray (BitVec 8)} (hw : WellFormed layers x.shape)
    (hrows : AllRows (· < 2 ^ 31) layers x.shape) (b : VerilatorBackend) :
    (graphForwardInt8 layers ⟨8, x⟩ VerilatorBackend.backend b).map (fun r => r.x) =
      pureNumpyInt8Forward layers ⟨8, x⟩ :=
  (graph_agree hw (hrows.mono fun _ => verilator_exact) b).1

/-- The batches of `run_rtl_cnn` on the array are the numpy reference of the whole. -/
theorem forward_batches_verilator {xs : List (NdArray (BitVec 8))} {x : NdArray (BitVec 8)}
    (hsplit : concat0 xs = some x) (hw : ∀ y ∈ xs, WellFormed layers y.shape)
    (hrows : ∀ y ∈ xs, AllRows (· < 2 ^ 31) layers y.shape) (b : VerilatorBackend) :
    (forwardBatches layers VerilatorBackend.backend xs b).bind (fun r => concatenate r.1) =
      pureNumpyInt8Forward layers ⟨8, x⟩ := by
  have hexact := fun y hy => (hrows y hy).mono fun _ => verilator_exact
  rw [← (concatenate_mapM hsplit hw).2, ← forwardBatches_eq hexact hw b, Option.bind_map]
  rfl

end graphs

end TileServer

/-! ## `CoprocBackend` -/

namespace CoprocBackend

namespace Session

/-- Tiles only: `run_tile` reads four columns of each array. -/
def backend (fuel : ℕ) : Backend Session where
  runTile b Wt At :=
    if h : Wt.shape = [4, 4] ∧ At.shape = [At.shape.getD 0 0, 4] then
      (b.runTile fuel ⟨At.shape.getD 0 0, Wt, At, h.1, h.2⟩).toOption
    else none
  lastCycles b := b.lastCycles

section backend
variable {M n fuel : ℕ} {b : Session} {Wt At : NdArray (BitVec 8)}

theorem backend_runTile (hWt : Wt.shape = [4, 4]) (hAt : At.shape = [M, 4]) (fuel : ℕ) (b : Session) :
    (backend fuel).runTile b Wt At = (b.runTile fuel ⟨M, Wt, At, hWt, hAt⟩).toOption := by
  have hrows : At.shape.getD 0 0 = M := by
    rw [hAt]
    rfl
  subst hrows
  exact dif_pos ⟨hWt, hAt⟩

/-- After `n` calls of `M` rows. -/
structure Served (M n : ℕ) (b : Session) : Prop where
  ready : ∃ cs, Ready b cs ∧ cs.map (fun c => c.mRows.toNat) = List.replicate n M
  gCyc : b.server.gCyc.toNat = 65541 * n
  nCommands : b.nCommands = n
  totalCycles : b.totalCycles = 65541 * n

theorem new_served (stall : Bool) (server : CoprocRunner.Server) (M : ℕ) :
    ∃ b, new stall server = .ok b ∧ Served M 0 b := by
  obtain ⟨b, hnew, hready, hcyc, hn, htotal⟩ := new_ready stall server
  exact ⟨b, hnew, ⟨[], hready, rfl⟩, hcyc, hn, htotal⟩

/-- At most 255 rows, and no overflow of `g_cyc`. -/
theorem session_follows (hpos : 1 ≤ M) (hM : M ≤ 255) (fuel : ℕ) :
    (backend (fuel + 1)).Follows M 65541 (2 ^ 47) (Served M) := by
  constructor
  intro n b hn h Wt At hWt hAt
  obtain ⟨cs, hready, hrows⟩ := h.ready
  have hcyc : b.server.gCyc.toNat + 65541 < 2 ^ 64 := by
    rw [h.gCyc]
    omega
  obtain ⟨Ct, b', hrun, hprod, hready', hcyc', hn', hlast, htotal⟩ :=
    hready.runTile (c := ⟨M, Wt, At, hWt, hAt⟩) hpos hM hcyc fuel
  refine ⟨Ct, b', ?_, hprod, hlast, ⟨⟨_, hready', ?_⟩, ?_, ?_, ?_⟩⟩
  · rw [backend_runTile hWt hAt, hrun]
    rfl
  · rw [List.map_append, hrows, List.map_singleton, List.replicate_succ']
    exact congrArg (List.replicate n M ++ [·]) (toNat_slotRows _ _ _ (hM.trans (by decide)))
  · rw [hcyc', h.gCyc]
    ring
  · rw [hn', h.nCommands]
  · rw [htotal, h.totalCycles]
    push_cast
    ring

/-- The beats after `n` calls. -/
theorem Served.beats (h : Served M n b) :
    b.beats = .ok ((n * (4 + M) % 2 ^ 32, n * M % 2 ^ 32), b) := by
  obtain ⟨cs, hready, hrows⟩ := h.ready
  have hreads : cs.map (fun c => 4 + c.mRows.toNat) = List.replicate n (4 + M) := by
    have hadd := congrArg (List.map (4 + ·)) hrows
    rw [List.map_map, List.map_replicate] at hadd
    exact hadd
  rw [hready.beats, hreads, hrows, List.sum_replicate, List.sum_replicate, smul_eq_mul, smul_eq_mul]

/-- 256 rows or more. -/
theorem Served.none (h : Served M n b) (hlong : 256 ≤ M) (hWt : Wt.shape = [4, 4]) (hAt : At.shape = [M, 4])
    (fuel : ℕ) : (backend fuel).runTile b Wt At = none := by
  obtain ⟨cs, hready, -⟩ := h.ready
  rw [backend_runTile hWt hAt, hready.lost hlong]
  rfl

end backend

end Session

end CoprocBackend
