import TensorAccel.Framework.Digits
import TensorAccel.Framework.Folds
import TensorAccel.Sched.Tiler
import TensorAccel.Sim.TileRunner

/-! # `VerilatorBackend` and the tile server

    `VerilatorBackend` of `sched/tiler.py` writes a job to the process of
    `sched/tile_runner.cpp`, one integer or one row a line, and reads the rows of the
    result and an `END` line.  The text in both directions is modelled on top of
    `Sim.TileRunner.serve`.

    A request that the process does not answer, or leaves a variable of it unset,
    is `none`. -/

open Digits Folds NdArray FixedPoint Sim

namespace TileServer

/-! ## The process -/

abbrev Line := List Char

/-- `int` variables that `sscanf` sets. -/
def ints (n : ℕ) (line : Line) : Option (List ℤ) := do
  let (vs, _) ← scanInts n line
  if vs.all fun v => decide (Fits 32 v) then some vs else none

/-- `n` lines of `k` integers each, as `fgets` delivers them. -/
def readRows (k : ℕ) : ℕ → List Line → Option (List (List ℤ) × List Line)
  | 0, lines => some ([], lines)
  | _ + 1, [] => none
  | n + 1, line :: lines => do
    if line.length < 256 then
      let row ← ints k line
      let (rows, lines) ← readRows k n lines
      some (row :: rows, lines)
    else none

/-- `(int8_t)v`, of entry `k` of row `n`. -/
def int8At (rows : List (List ℤ)) (n k : ℕ) : BitVec 8 := BitVec.ofInt 8 ((rows.getD n []).getD k 0)

def keyword : List Char := ['T', 'I', 'L', 'E']

/-- `M`, unless the line is no header. -/
def header (line : Line) : Option ℤ := do
  let s ← scanLit keyword line
  let (M, _) ← scanInt s
  some M

/-- The reading part of the loop of `main`: other lines before a header are skipped. -/
def readJob : List Line → Option (Job × List Line)
  | [] => none
  | line :: lines =>
    match header line with
    | none => readJob lines
    | some M =>
      -- no vector has a negative size
      if line.length < 256 ∧ 0 ≤ M ∧ M < 2 ^ 31 then do
        let (ws, lines) ← readRows 1 16 lines
        let (acts, lines) ← readRows 4 M.toNat lines
        some (⟨M.toNat, fun i j => int8At ws (i * 4 + j) 0, int8At acts⟩, lines)
      else none

/-- The lines of a reply. -/
def replyLines (r : TileRunner.Reply) : List Line :=
  (r.rows.map fun row => unwords (row.map fun v => intText v.toInt) ++ ['\n']) ++
    [['E', 'N', 'D', ' '] ++ intText r.cycles ++ ['\n']]

/-- One round of the loop of `main`. -/
def serveLines (lines : List Line) (t : Vtop 4) : Option (List Line × List Line × Vtop 4) := do
  let (job, rest) ← readJob lines
  let (reply, t) := TileRunner.serve job t
  some (replyLines reply, rest, t)

/-! ## The backend -/

/-- The process, and `last_cycles`. -/
structure VerilatorBackend where
  proc : Vtop 4
  lastCycles : ℤ

/-- What `run_tile` writes for `At` of `M` rows and `K` columns. -/
def request (Wt At : NdArray (BitVec 8)) (M K : ℕ) : List Line :=
  (keyword ++ ' ' :: (intText M ++ ['\n'])) ::
    ((List.range 16).map fun k => intText (Wt.get [k / 4, k % 4]).toInt ++ ['\n']) ++
    (List.range M).map fun m => unwords ((List.range K).map fun k => intText (At.get [m, k]).toInt) ++ ['\n']

/-- `int(v)` -/
def toSigned (s : List Char) : Option ℤ := do
  let (v, rest) ← scanInt s
  if rest = [] then some v else none

/-- `Ct[m] = [int(v) for v in vals]` -/
def readResult (line : Line) : Option (List (BitVec 32)) := do
  let vals ← (words line).mapM toSigned
  if vals.length = 4 ∧ vals.all fun v => decide (Fits 32 v) then some (vals.map (BitVec.ofInt 32)) else none

/-- `run_tile` -/
def VerilatorBackend.runTile (b : VerilatorBackend) (Wt At : NdArray (BitVec 8)) :
    Option (NdArray (BitVec 32) × VerilatorBackend) :=
  match Wt.shape, At.shape with
  | [r, c], [M, K] =>
    if 4 ≤ r ∧ 4 ≤ c then do
      let (replies, rest, proc) ← serveLines (request Wt At M K) b.proc
      let rows ← (replies.take M).mapM readResult
      let endLine ← replies[M]?
      let cycles ← (words endLine)[1]?
      let cycles ← toSigned cycles
      -- nothing is left in the pipes
      if rest = [] ∧ replies.length = M + 1 then
        some (ofFn₂ M 4 fun m j => (rows.getD m []).getD j 0, ⟨proc, cycles⟩)
      else none
    else none
  | _, _ => none

/-! ## The process reads what the backend wrote -/

section request
variable {Wt At : NdArray (BitVec 8)} {M k : ℕ} {rows : List (List ℤ)} {lines : List Line} {x : BitVec 8}

theorem fits_toInt (v : BitVec 8) : Fits 32 v.toInt := by
  have hlo := BitVec.le_toInt v
  have hhi := @BitVec.toInt_lt 8 v
  constructor <;> omega

theorem fits_toInt32 (v : BitVec 32) : Fits 32 v.toInt := ⟨BitVec.le_toInt v, BitVec.toInt_lt⟩

/-- An int8 has at most three digits. -/
theorem length_intText (v : BitVec 8) : (intText v.toInt).length ≤ 4 := by
  have hlo := BitVec.le_toInt v
  have hhi := @BitVec.toInt_lt 8 v
  have hdigits : (Nat.toDigits 10 v.toInt.natAbs).length ≤ 3 :=
    (Nat.length_toDigits_le_iff (by decide) (by decide)).mpr (by omega)
  unfold intText
  split
  · rw [List.length_cons]
    omega
  · omega

theorem ints_text {vs : List ℤ} (hfits : ∀ v ∈ vs, Fits 32 v) :
    ints vs.length (unwords (vs.map intText) ++ ['\n']) = some vs := by
  have hall : vs.all (fun v => decide (Fits 32 v)) = true := by simpa using hfits
  simp only [ints, scanInts_unwords vs (show isSpace '\n' = true by decide), Option.bind_eq_bind, Option.bind_some,
    hall, if_true]

/-- A line of integers. -/
def rowLine (row : List ℤ) : Line := unwords (row.map intText) ++ ['\n']

theorem readRows_text (hrows : ∀ row ∈ rows, row.length = k ∧ (∀ v ∈ row, Fits 32 v) ∧ (rowLine row).length < 256) :
    readRows k rows.length (rows.map rowLine ++ lines) = some (rows, lines) := by
  induction rows with
  | nil => rfl
  | cons row rows ih =>
    obtain ⟨hlen, hfits, hshort⟩ := hrows row List.mem_cons_self
    have hread : ints k (rowLine row) = some row := hlen ▸ ints_text hfits
    rw [List.length_cons, List.map_cons, List.cons_append, readRows, if_pos hshort, hread]
    simp only [Option.bind_eq_bind, Option.bind_some, ih fun r hr => hrows r (List.mem_cons_of_mem row hr)]

theorem header_text (n : ℕ) : header (keyword ++ ' ' :: (intText n ++ ['\n'])) = some (n : ℤ) := by
  simp only [header, scanLit_run, Option.bind_eq_bind, Option.bind_some, scanInt_space (show isSpace ' ' = true by decide),
    scanInt_intText n (stops_digit (show isSpace '\n' = true by decide))]

/-- The rows that a request consists of. -/
def weightRows (Wt : NdArray (BitVec 8)) : List (List ℤ) :=
  (List.range 16).map fun k => [(Wt.get [k / 4, k % 4]).toInt]

def actRows (At : NdArray (BitVec 8)) (M : ℕ) : List (List ℤ) :=
  (List.range M).map fun m => (List.range 4).map fun k => (At.get [m, k]).toInt

theorem request_eq (Wt At : NdArray (BitVec 8)) (M : ℕ) : request Wt At M 4 =
    (keyword ++ ' ' :: (intText M ++ ['\n'])) :: ((weightRows Wt).map rowLine ++ ((actRows At M).map rowLine ++ [])) := by
  have hone : ∀ v, rowLine [v] = intText v ++ ['\n'] := by
    intro v
    rw [rowLine, List.map_singleton, unwords, List.intercalate_singleton]
  have hrow : ∀ m, rowLine ((List.range 4).map fun k => (At.get [m, k]).toInt) =
      unwords ((List.range 4).map fun k => intText (At.get [m, k]).toInt) ++ ['\n'] := by
    intro m
    rw [rowLine, List.map_map]
    rfl
  rw [List.append_nil, request, weightRows, actRows, List.map_map, List.map_map, List.cons_append]
  simp only [Function.comp_def, hone, hrow]

theorem length_rowLine_one (v : BitVec 8) : (rowLine [v.toInt]).length < 256 := by
  have hlen := length_intText v
  rw [rowLine, List.map_singleton, unwords, List.intercalate_singleton, List.length_append, List.length_singleton]
  omega

theorem length_rowLine_four (v : ℕ → BitVec 8) :
    (rowLine ((List.range 4).map fun k => (v k).toInt)).length < 256 := by
  have h0 := length_intText (v 0)
  have h1 := length_intText (v 1)
  have h2 := length_intText (v 2)
  have h3 := length_intText (v 3)
  have hline : rowLine ((List.range 4).map fun k => (v k).toInt) = intText (v 0).toInt ++ ' ' ::
      (intText (v 1).toInt ++ ' ' :: (intText (v 2).toInt ++ ' ' :: (intText (v 3).toInt ++ ['\n']))) := by
    simp [rowLine, unwords, List.range_succ, List.intercalate_cons_cons, List.intercalate_singleton]
  rw [hline]
  simp only [List.length_append, List.length_cons, List.length_nil]
  omega

/-- The job of a request. -/
def jobOf (Wt At : NdArray (BitVec 8)) (M : ℕ) : Job :=
  ⟨M, fun i j => int8At (weightRows Wt) (i * 4 + j) 0, int8At (actRows At M)⟩

theorem readJob_request (hM : M < 2 ^ 31) : readJob (request Wt At M 4) = some (jobOf Wt At M, []) := by
  have hweights : ∀ row ∈ weightRows Wt, row.length = 1 ∧ (∀ v ∈ row, Fits 32 v) ∧ (rowLine row).length < 256 := by
    intro row hrow
    obtain ⟨k, -, rfl⟩ := List.mem_map.mp hrow
    refine ⟨rfl, fun v hv => ?_, length_rowLine_one _⟩
    obtain rfl := List.mem_singleton.mp hv
    exact fits_toInt _
  have hacts : ∀ row ∈ actRows At M, row.length = 4 ∧ (∀ v ∈ row, Fits 32 v) ∧ (rowLine row).length < 256 := by
    intro row hrow
    obtain ⟨m, -, rfl⟩ := List.mem_map.mp hrow
    refine ⟨rfl, fun v hv => ?_, length_rowLine_four fun k => At.get [m, k]⟩
    obtain ⟨k, -, rfl⟩ := List.mem_map.mp hv
    exact fits_toInt _
  have hcount : (weightRows Wt).length = 16 ∧ (actRows At M).length = M := by
    simp [weightRows, actRows]
  have hw : readRows 1 _ ((weightRows Wt).map rowLine ++ ((actRows At M).map rowLine ++ [])) = _ :=
    readRows_text hweights
  have ha : readRows 4 _ ((actRows At M).map rowLine ++ []) = _ := readRows_text hacts
  rw [hcount.1] at hw
  rw [hcount.2] at ha
  have hdigits : (Nat.toDigits 10 M).length ≤ 10 :=
    (Nat.length_toDigits_le_iff (by decide) (by decide)).mpr (by omega)
  have hshort : (keyword ++ ' ' :: (intText M ++ ['\n'])).length < 256 := by
    simp only [keyword, intText_natCast, List.length_append, List.length_cons, List.length_nil]
    omega
  rw [request_eq, readJob, header_text]
  dsimp only
  rw [if_pos ⟨hshort, by omega, by omega⟩, hw]
  simp only [Option.bind_eq_bind, Option.bind_some, Int.toNat_natCast, ha]
  rfl

end request

/-! ## The backend reads what the process printed -/

section reply
variable {r : TileRunner.Reply} {Wt At : NdArray (BitVec 8)} {M : ℕ}

theorem toSigned_intText (v : ℤ) : toSigned (intText v) = some v := by
  have hscan := scanInt_intText v (stops_nil (isDigit 10))
  rw [List.append_nil] at hscan
  simp only [toSigned, hscan, Option.bind_eq_bind, Option.bind_some, if_true]

theorem isWord_intText (v : ℤ) : intText v ≠ [] ∧ ∀ c ∈ intText v, isSpace c = false :=
  ⟨intText_ne_nil v, fun _ hc => isSpace_intText hc⟩

/-- A row of int32 results. -/
def resultLine (row : List (BitVec 32)) : Line := unwords (row.map fun v => intText v.toInt) ++ ['\n']

theorem readResult_text {row : List (BitVec 32)} (hlen : row.length = 4) : readResult (resultLine row) = some row := by
  have hwords : words (resultLine row) = row.map fun v => intText v.toInt := by
    refine words_unwords (fun w hw => ?_) (by decide)
    obtain ⟨v, -, rfl⟩ := List.mem_map.mp hw
    exact isWord_intText _
  have hvals : (row.map fun v => intText v.toInt).mapM toSigned = some (row.map BitVec.toInt) :=
    mapM_some fun v _ => toSigned_intText v.toInt
  have hfits : (row.map BitVec.toInt).all (fun v => decide (Fits 32 v)) = true := by
    simp only [List.all_eq_true, decide_eq_true_eq]
    intro v hv
    obtain ⟨x, -, rfl⟩ := List.mem_map.mp hv
    exact fits_toInt32 x
  have hback : (row.map BitVec.toInt).map (BitVec.ofInt 32) = row := by
    rw [List.map_map]
    exact (List.map_congr_left fun v _ => BitVec.ofInt_toInt).trans (List.map_id row)
  rw [readResult, hwords, hvals]
  simp only [Option.bind_eq_bind, Option.bind_some, List.length_map, hlen, hfits, hback, and_self, if_true]

/-- The second word of the last line. -/
theorem words_end (n : ℕ) : (words (['E', 'N', 'D', ' '] ++ intText n ++ ['\n']))[1]? = some (intText n) := by
  have hline : ['E', 'N', 'D', ' '] ++ intText n ++ ['\n'] = unwords [['E', 'N', 'D'], intText n] ++ ['\n'] := by
    rw [unwords, List.intercalate_cons_cons, List.intercalate_singleton]
    rfl
  rw [hline, words_unwords ?_ (by decide)]
  · rfl
  · intro w hw
    rcases List.mem_pair.mp hw with rfl | rfl
    · have hletters : ['E', 'N', 'D'].all (fun c => !isSpace c) = true := rfl
      exact ⟨List.cons_ne_nil _ _, fun c hc => by simpa using List.all_eq_true.mp hletters c hc⟩
    · exact isWord_intText _

theorem replyLines_eq (r : TileRunner.Reply) :
    replyLines r = r.rows.map resultLine ++ [['E', 'N', 'D', ' '] ++ intText r.cycles ++ ['\n']] := rfl

/-- Entries of the job are those of the two arrays. -/
theorem dot_jobOf {m j : ℕ} (hm : m < M) (hj : j < 4) : (jobOf Wt At M).dot 4 m j =
    BitVec.ofInt 32 (∑ l ∈ Finset.range 4, (At.get [m, l]).toInt * (Wt.get [l, j]).toInt) := by
  rw [Job.dot]
  refine congrArg _ (Finset.sum_congr rfl fun l hl => ?_)
  have hl := Finset.mem_range.mp hl
  have ha : (jobOf Wt At M).a m l = At.get [m, l] := by
    simp only [jobOf, int8At, actRows, List.getD_eq_getElem?_getD, List.getElem?_map, List.getElem?_range hm,
      List.getElem?_range hl, Option.map_some, Option.getD_some]
    exact BitVec.ofInt_toInt
  have hw : (jobOf Wt At M).w l j = Wt.get [l, j] := by
    have hk : l * 4 + j < 16 := by omega
    have hdiv : (l * 4 + j) / 4 = l := by omega
    have hmod : (l * 4 + j) % 4 = j := by omega
    simp only [jobOf, int8At, weightRows, List.getD_eq_getElem?_getD, List.getElem?_map, List.getElem?_range hk,
      Option.map_some, Option.getD_some, List.getElem?_cons_zero, hdiv, hmod]
    exact BitVec.ofInt_toInt
  rw [ha, hw]

/-- In every state of the array `run_tile` returns the product of a tile. -/
theorem runTile_eq (b : VerilatorBackend) (hWt : Wt.shape = [4, 4]) (hAt : At.shape = [M, 4]) (hM : M < 2 ^ 31) :
    ∃ Ct b', b.runTile Wt At = some (Ct, b') ∧ Tiler.NumpyBackend.runTile () Wt At = some (Ct, ()) ∧
      b'.lastCycles = M + 9 := by
  obtain ⟨C, hprod, hshape, hentry⟩ := Tiler.product32_eq hAt hWt
  let rows := (List.range M).map fun m => (List.range 4).map fun c => (jobOf Wt At M).dot 4 m c
  let endLine : Line := ['E', 'N', 'D', ' '] ++ intText (M + 9 : ℕ) ++ ['\n']
  have hserve : (TileRunner.serve (jobOf Wt At M) b.proc).1 = ⟨rows, M + 9⟩ := TileRunner.serve_reply _ _
  have hlines : serveLines (request Wt At M 4) b.proc =
      some (rows.map resultLine ++ [endLine], [], (TileRunner.serve (jobOf Wt At M) b.proc).2) := by
    simp only [serveLines, readJob_request hM, Option.bind_eq_bind, Option.bind_some]
    rw [hserve, replyLines_eq]
  have hcount : (rows.map resultLine).length = M := by simp [rows]
  have hresults : (rows.map resultLine).mapM readResult = some rows := by
    have hread := mapM_some (f := readResult) (g := resultLine) (h := id) (l := rows) fun row hrow => by
      obtain ⟨m, -, rfl⟩ := List.mem_map.mp hrow
      exact readResult_text (by simp)
    rw [List.map_id] at hread
    exact hread
  have hlast : (rows.map resultLine ++ [endLine])[M]? = some endLine := by
    rw [List.getElem?_append_right (by omega), hcount, Nat.sub_self]
    rfl
  have hall : (rows.map resultLine ++ [endLine]).length = M + 1 := by
    rw [List.length_append, hcount]
    rfl
  refine ⟨ofFn₂ M 4 fun m j => (rows.getD m []).getD j 0,
    ⟨(TileRunner.serve (jobOf Wt At M) b.proc).2, (M + 9 : ℕ)⟩, ?_, ?_, Nat.cast_add M 9⟩
  · simp only [VerilatorBackend.runTile, hWt, hAt, le_refl, and_self, if_true, hlines, Option.bind_eq_bind,
      Option.bind_some, List.take_left' hcount, hresults, hlast, endLine, words_end, toSigned_intText, hall]
  · have heq : C = ofFn₂ M 4 fun m j => (rows.getD m []).getD j 0 := by
      refine ext₂ hshape rfl fun m hm j hj => ?_
      have hrow : (rows.getD m []).getD j 0 = (jobOf Wt At M).dot 4 m j := by
        simp only [rows, List.getD_eq_getElem?_getD, List.getElem?_map, List.getElem?_range hm, List.getElem?_range hj,
          Option.map_some, Option.getD_some]
      rw [hentry m hm j hj, get_ofFn₂ _ hm hj, hrow, dot_jobOf hm hj]
    simp [Tiler.NumpyBackend, hprod, heq]

end reply

end TileServer
