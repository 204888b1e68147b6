import TensorAccel.Array.SystolicArray

/-! # The clock-gated systolic array

    Translation of `rtl/cg/icg_cell.sv`, `rtl/cg/pe_cg.sv` and
    `rtl/cg/systolic_array_cg.sv`.  Each row carries an `act_valid` bit beside
    its activation.  A PE multiplies by zero while its `act_valid` is low, and
    its `act_out` / `act_valid_out` flops are clocked by a gated clock that
    stands still while `act_valid` is low.

    Two consequences are worked out here.  The valid bit of an inner column is
    sticky: once set it stays set until a reset, so an invalid slot that
    follows a valid one is not isolated beyond column 0 (`isolated_iff` gives
    the exact condition).  And if no row's valid bit ever falls between two
    resets, the gated array agrees with the ungated one on masked activations. -/

open Clocked PrefixSum

namespace SystolicArrayCg

open SystolicArray (mac ArrayIn Grid aIn psumWire psumOut)

variable {N : ℕ}

/-! ## The gated processing element -/

/-- `icg_cell`: the enable is latched while the clock is low, so `gclk` has a
rising edge in a cycle exactly if `en` is high in it. -/
def icgCell (en : Bool) : Bool := en

/-- Registers of one `pe_cg`. -/
structure PeCg where
  weight : BitVec 8
  actOut : BitVec 8
  actValidOut : Bool
  psumOut : BitVec 32
  deriving DecidableEq, Repr

/-- Input ports of one `pe_cg`. -/
structure PeCgIn where
  rst : Bool
  weightLoad : Bool
  actValid : Bool
  weightIn : BitVec 8
  actIn : BitVec 8
  psumIn : BitVec 32

/-- `act_isolated`: the multiplier operand, zero while idle. -/
def actIsolated (actValid : Bool) (actIn : BitVec 8) : BitVec 8 := if actValid then actIn else 0

/-- One clock edge of `pe_cg`. -/
def PeCg.step (i : PeCgIn) (s : PeCg) : PeCg :=
  let gclk := icgCell (i.actValid || i.rst)
  let prod := mac (actIsolated i.actValid i.actIn) s.weight
  -- weight and partial sum run on the free clock, the activation flops on `gclk`
  { weight := if i.rst then 0 else if i.weightLoad then i.weightIn else s.weight
    psumOut := if i.rst then 0 else i.psumIn + prod
    actOut := if gclk then (if i.rst then 0 else i.actIn) else s.actOut
    actValidOut := if gclk then (if i.rst then false else i.actValid) else s.actValidOut }

/-! ## The gated array -/

/-- Input ports of `systolic_array_cg`. -/
structure ArrayCgIn (N : ℕ) extends ArrayIn N where
  actValidIn : Fin N → Bool

abbrev GridCg (N : ℕ) := Fin N → Fin N → PeCg

/-- `a_in` of column `c`. -/
def aInCg (i : ArrayCgIn N) (s : GridCg N) (r : Fin N) : Fin N → BitVec 8
  | ⟨0, _⟩ => i.actIn r
  | ⟨c + 1, h⟩ => (s r ⟨c, Nat.lt_of_succ_lt h⟩).actOut

/-- `v_in` of column `c`. -/
def vInCg (i : ArrayCgIn N) (s : GridCg N) (r : Fin N) : Fin N → Bool
  | ⟨0, _⟩ => i.actValidIn r
  | ⟨c + 1, h⟩ => (s r ⟨c, Nat.lt_of_succ_lt h⟩).actValidOut

/-- `psum_wire[q][c]`. -/
def psumWireCg (s : GridCg N) (c : Fin N) : (q : ℕ) → q ≤ N → BitVec 32
  | 0, _ => 0
  | q + 1, h => (s ⟨q, h⟩ c).psumOut

/-- One clock edge of `systolic_array_cg`. -/
def stepCg (i : ArrayCgIn N) (s : GridCg N) : GridCg N := fun r c =>
  PeCg.step { rst := i.rst, weightLoad := i.weightLoad, actValid := vInCg i s r c,
              weightIn := i.weightIn r c, actIn := aInCg i s r c,
              psumIn := psumWireCg s c r.val Fin.is_le' } (s r c)

/-- The output port `psum_out`. -/
def psumOutCg (s : GridCg N) (c : Fin N) : BitVec 32 := psumWireCg s c N le_rfl

/-- The net `prod` of PE `(r, c)`: what it adds to the partial sum. -/
def prodCg (i : ArrayCgIn N) (s : GridCg N) (r c : Fin N) : BitVec 32 :=
  mac (actIsolated (vInCg i s r c) (aInCg i s r c)) (s r c).weight

def clearedCg : GridCg N := fun _ _ => ⟨0, 0, false, 0⟩

theorem stepCg_rst {i : ArrayCgIn N} (h : i.rst = true) (s : GridCg N) : stepCg i s = clearedCg := by
  funext r c
  simp [stepCg, PeCg.step, clearedCg, icgCell, h]

theorem stepCg_valid {i : ArrayCgIn N} {s : GridCg N} {r c : Fin N} (h : i.rst = false)
    (hv : vInCg i s r c = true) :
    (stepCg i s r c).actOut = aInCg i s r c ∧ (stepCg i s r c).actValidOut = true := by
  simp [stepCg, PeCg.step, icgCell, h, hv]

/-- While its `act_valid` is low a PE keeps the activation and the valid bit it
last passed on. -/
theorem stepCg_frozen {i : ArrayCgIn N} {s : GridCg N} {r c : Fin N} (h : i.rst = false)
    (hv : vInCg i s r c = false) :
    (stepCg i s r c).actOut = (s r c).actOut ∧
      (stepCg i s r c).actValidOut = (s r c).actValidOut := by
  simp [stepCg, PeCg.step, icgCell, h, hv]

/-- The reset input as a signal. -/
def rstOfCg (i : ℕ → ArrayCgIn N) : ℕ → Bool := fun s => (i s).rst

/-- The weight in PE `(r, c)` as a function of the input trace. -/
def weightAtCg (i : ℕ → ArrayCgIn N) (r c : Fin N) : ℕ → BitVec 8 :=
  loaded (rstOfCg i) (fun u => (i u).weightLoad) (fun u => (i u).weightIn r c) 0

theorem weight_runCg (p : GridCg N) (i : ℕ → ArrayCgIn N) {L : ℕ} (hL : rstOfCg i L = true)
    (r c : Fin N) : ∀ s, L < s → (run stepCg p i s r c).weight = weightAtCg i r c s :=
  loaded_eq (fun _ => rfl) hL

/-! ## What an inner column sees

    `z` is the first cycle after a reset.  The flops between columns `c - 1`
    and `c` hold the latest valid slot among those that entered the row in
    cycles `z, ..., u - c`; invalid slots leave no trace in them. -/

/-- The valid bit of row `r` as a signal. -/
def validOf (i : ℕ → ArrayCgIn N) (r : Fin N) : ℕ → Bool := fun s => (i s).actValidIn r

/-- The pair `(v_in, a_in)` an inner column holds after the slots of `[z, n)`. -/
def latestSlot (i : ℕ → ArrayCgIn N) (r : Fin N) (z n : ℕ) : Bool × BitVec 8 :=
  match lastIn (validOf i r) z n with
  | some s => (true, (i s).actIn r)
  | none => (false, 0)

section sticky
variable {p : GridCg N} {i : ℕ → ArrayCgIn N} {z t : ℕ}

theorem latestSlot_succ_valid {r : Fin N} {n : ℕ} (hz : z ≤ n) (h : (i n).actValidIn r = true) :
    latestSlot i r z (n + 1) = (true, (i n).actIn r) := by
  have hp : z ≤ n ∧ validOf i r n = true := ⟨hz, h⟩
  simp only [latestSlot, lastIn_succ, if_pos hp]

theorem latestSlot_succ_invalid {r : Fin N} {n : ℕ} (h : (i n).actValidIn r = false) :
    latestSlot i r z (n + 1) = latestSlot i r z n := by
  have hp : ¬ (z ≤ n ∧ validOf i r n = true) := by simp [validOf, h]
  simp only [latestSlot, lastIn_succ, if_neg hp]

theorem latestSlot_empty {r : Fin N} {n : ℕ} (h : n ≤ z) : latestSlot i r z n = (false, 0) := by
  simp only [latestSlot, lastIn_empty _ h]

/-- A set valid bit is never cleared again without a reset. -/
theorem latestSlot_false_of_le {r : Fin N} {m n : ℕ} (hmn : m ≤ n)
    (h : (latestSlot i r z n).1 = false) : latestSlot i r z m = (false, 0) := by
  have hnone : lastIn (validOf i r) z n = none := by
    cases hl : lastIn (validOf i r) z n with
    | none => rfl
    | some s => simp [latestSlot, hl] at h
  have hquiet := (lastIn_eq_none hnone).mono le_rfl hmn
  simp only [latestSlot, lastIn_of_quiet hquiet]

/-- The flops of PE `(r, c)` in cycle `u` hold the latest valid slot that
entered the row before cycle `u - c`.  Induction on the cycle; column `c` reads
column `c - 1`. -/
theorem flops_run (hz : run stepCg p i z = clearedCg) (hq : Quiet (rstOfCg i) z t) :
    ∀ u, z ≤ u → u ≤ t → ∀ r c : Fin N,
      ((run stepCg p i u r c).actValidOut, (run stepCg p i u r c).actOut) =
        latestSlot i r z (u - c.val) := by
  intro u hu
  induction u, hu using Nat.le_induction with
  | base =>
    intro _ r c
    rw [latestSlot_empty (Nat.sub_le z c.val), hz]
    rfl
  | succ u hzu ih =>
    intro hut r c
    have hrst : (i u).rst = false := hq.at hzu (by omega)
    have hself := ih (by omega) r c
    rw [run_succ]
    cases hv : vInCg (i u) (run stepCg p i u) r c with
    | true =>
      obtain ⟨hact, hvalid⟩ := stepCg_valid hrst hv
      rw [hact, hvalid]
      obtain ⟨c, hc⟩ := c
      cases c with
      | zero => rw [Nat.sub_zero, latestSlot_succ_valid hzu hv]; rfl
      | succ c =>
        have hleft := ih (by omega) r ⟨c, by omega⟩
        rw [show u + 1 - (c + 1) = u - c by omega, ← hleft]
        exact congrArg (·, _) hv.symm
    | false =>
      obtain ⟨hact, hvalid⟩ := stepCg_frozen hrst hv
      rw [hact, hvalid, hself]
      obtain ⟨c, hc⟩ := c
      cases c with
      | zero => rw [Nat.sub_zero, Nat.sub_zero, latestSlot_succ_invalid hv]
      | succ c =>
        -- the left neighbour's valid bit is still low, so nothing has entered yet
        have hleft := congrArg Prod.fst (ih (by omega) r ⟨c, by omega⟩)
        have hlow : (latestSlot i r z (u - c)).1 = false := hleft.symm.trans hv
        rw [latestSlot_false_of_le (Nat.sub_le_sub_left (Nat.le_succ c) u) hlow,
          show u + 1 - (c + 1) = u - c by omega, latestSlot_false_of_le le_rfl hlow]

/-- Column `c > 0` in cycle `t + c` sees the latest valid slot up to cycle `t`. -/
theorem column_sees (hz : run stepCg p i z = clearedCg) {n : ℕ} (hq : Quiet (rstOfCg i) z n)
    {r c : Fin N} (hc : 0 < c.val) (hzt : z ≤ t) (htn : t + c.val ≤ n) :
    (vInCg (i (t + c.val)) (run stepCg p i (t + c.val)) r c,
      aInCg (i (t + c.val)) (run stepCg p i (t + c.val)) r c) = latestSlot i r z (t + 1) := by
  obtain ⟨c, hcN⟩ := c
  cases c with
  | zero => simp at hc
  | succ c =>
    have h := flops_run hz hq (t + (c + 1)) (by omega) htn r ⟨c, by omega⟩
    rwa [show t + (c + 1) - c = t + 1 by omega] at h

end sticky

/-! ## Operand isolation -/

theorem mac_eq_zero {a w : BitVec 8} : mac a w = 0 ↔ a = 0 ∨ w = 0 := by
  constructor
  · intro h
    -- the product of two int8 values does not wrap, so it is zero as an integer
    have hb := abs_le.mp (SystolicArray.toInt_mul_abs_le a w)
    have hlo : -2 ^ (32 - 1) ≤ a.toInt * w.toInt := by norm_num; linarith [hb.1]
    have hhi : a.toInt * w.toInt < 2 ^ (32 - 1) := by norm_num; linarith [hb.2]
    have hint := congrArg BitVec.toInt h
    rw [SystolicArray.mac_eq, BitVec.toInt_ofInt_eq_self (by norm_num) hlo hhi] at hint
    rcases mul_eq_zero.mp hint with h0 | h0
    · exact .inl (BitVec.eq_of_toInt_eq h0)
    · exact .inr (BitVec.eq_of_toInt_eq h0)
  · rintro (rfl | rfl)
    · simp [mac]
    · simp [mac]

/-- The slot of row `r` in cycle `t` can leak nothing into an inner column: no
valid slot came before it since the reset `L`, or the latest one carried a zero
activation, or every inner column holds a zero weight when the slot passes. -/
def NothingToLeak (i : ℕ → ArrayCgIn N) (L t : ℕ) (r : Fin N) : Prop :=
  match lastIn (validOf i r) (L + 1) t with
  | none => True
  | some s => (i s).actIn r = 0 ∨ ∀ c : Fin N, 0 < c.val → weightAtCg i r c (t + c.val) = 0

/-- **Exact condition of operand isolation.**  An invalid slot contributes zero
in every column it passes if and only if `NothingToLeak`. -/
theorem isolated_iff (p : GridCg N) (i : ℕ → ArrayCgIn N) {L t : ℕ} (hL : IsLast (rstOfCg i) L t)
    (hq : Quiet (rstOfCg i) t (t + N + 1)) (r : Fin N) (hinv : (i t).actValidIn r = false) :
    (∀ c : Fin N, prodCg (i (t + c.val)) (run stepCg p i (t + c.val)) r c = 0) ↔
      NothingToLeak i L t r := by
  have hz : run stepCg p i (L + 1) = clearedCg := by rw [run_succ, stepCg_rst hL.high]
  have hquiet : Quiet (rstOfCg i) (L + 1) (t + N + 1) := by
    intro u hu hLu
    by_cases hut : u < t
    · exact hL.quiet.at hLu hut
    · exact hq.at (by omega) hu
  have hw : ∀ c : Fin N, (run stepCg p i (t + c.val) r c).weight = weightAtCg i r c (t + c.val) :=
    fun c => weight_runCg p i hL.high r c _ (by have := hL.lt; omega)
  -- column 0 isolates the slot by itself, the others show the latest valid slot
  have hfirst : ∀ c : Fin N, c.val = 0 →
      prodCg (i (t + c.val)) (run stepCg p i (t + c.val)) r c = 0 := by
    rintro ⟨c, hc⟩ rfl
    have hv : vInCg (i t) (run stepCg p i t) r ⟨0, hc⟩ = false := hinv
    simp [prodCg, hv, actIsolated]
  have hinner : ∀ c : Fin N, 0 < c.val →
      prodCg (i (t + c.val)) (run stepCg p i (t + c.val)) r c =
        mac (actIsolated (latestSlot i r (L + 1) t).1 (latestSlot i r (L + 1) t).2)
          (weightAtCg i r c (t + c.val)) := by
    intro c hc
    have hsees := column_sees hz hquiet (r := r) hc hL.lt (t := t) (by have := c.isLt; omega)
    rw [latestSlot_succ_invalid hinv] at hsees
    rw [prodCg, hw c, ← hsees]
  unfold NothingToLeak
  cases hlast : lastIn (validOf i r) (L + 1) t with
  | none =>
    refine ⟨fun _ => trivial, ?_⟩
    intro _ c
    rcases Nat.eq_zero_or_pos c.val with hc | hc
    · exact hfirst c hc
    · simp [hinner c hc, latestSlot, hlast, actIsolated]
  | some s =>
    have hslot : latestSlot i r (L + 1) t = (true, (i s).actIn r) := by simp [latestSlot, hlast]
    simp only [hslot, actIsolated, if_true] at hinner
    constructor
    · intro h
      by_cases ha : (i s).actIn r = 0
      · exact .inl ha
      · refine .inr fun c hc => ?_
        exact (mac_eq_zero.mp ((hinner c hc).symm.trans (h c))).resolve_left ha
    · intro h c
      rcases Nat.eq_zero_or_pos c.val with hc | hc
      · exact hfirst c hc
      · rw [hinner c hc]
        exact mac_eq_zero.mpr (h.imp_right fun hzero => hzero c hc)

/-- A 2 × 2 run in which row 0 carries one valid slot in cycle 2 and invalid
slots from cycle 3 on; all weights are 1. -/
def leakTrace (t : ℕ) : ArrayCgIn 2 where
  rst := t == 0
  weightLoad := t == 1
  weightIn := fun _ _ => 1
  actIn := fun _ => 5
  actValidIn := fun r => t == 2 && r == 0

/-- The invalid slot of cycle 3 adds the stale product `5 * 1` in column 1. -/
theorem isolation_leak :
    ¬ ∀ (p : GridCg 2) (r : Fin 2) (t : ℕ), IsLast (rstOfCg leakTrace) 0 t →
      Quiet (rstOfCg leakTrace) t (t + 2 + 1) → (leakTrace t).actValidIn r = false →
      ∀ c : Fin 2, prodCg (leakTrace (t + c.val)) (run stepCg p leakTrace (t + c.val)) r c = 0 := by
  intro h
  have hlast : IsLast (rstOfCg leakTrace) 0 3 := ⟨by decide, rfl, by decide⟩
  have hleak := h clearedCg 0 3 hlast (by decide) rfl 1
  exact absurd hleak (by decide)

/-- A 2 × 2 run in which both rows carry valid slots in cycles 2 and 3: row 0 first 5 and
then 0 for weights of 1, row 1 twice 5 for a weight of 0 in column 1. -/
def tightTrace (t : ℕ) : ArrayCgIn 2 where
  rst := t == 0
  weightLoad := t == 1
  weightIn := fun r c => if r = 1 ∧ c = 1 then 0 else 1
  actIn := fun r => if r = 0 ∧ t = 3 then 0 else 5
  actValidIn := fun _ => t == 2 || t == 3

/-- The invalid slots of cycle 4 leak nothing, one for each reason. -/
theorem isolated_iff_demo :
    (∀ c : Fin 2, prodCg (tightTrace (4 + c.val)) (run stepCg clearedCg tightTrace (4 + c.val)) 0 c = 0) ∧
      ∀ c : Fin 2, prodCg (tightTrace (4 + c.val)) (run stepCg clearedCg tightTrace (4 + c.val)) 1 c = 0 := by
  have hiff := isolated_iff clearedCg tightTrace (L := 0) (t := 4) ⟨by decide, rfl, by decide⟩ (by decide)
  have hzero : NothingToLeak tightTrace 0 4 0 := .inl rfl
  have hweight : NothingToLeak tightTrace 0 4 1 := .inr (by decide)
  exact ⟨(hiff 0 rfl).mpr hzero, (hiff 1 rfl).mpr hweight⟩

/-! ## Agreement with the ungated array -/

/-- The input of the ungated array: activations of invalid rows replaced by 0. -/
def ArrayCgIn.masked (i : ArrayCgIn N) : ArrayIn N :=
  { i.toArrayIn with actIn := fun r => if i.actValidIn r then i.actIn r else 0 }

/-- No row's valid bit falls from a cycle to the next one, resets apart. -/
def NeverFalls (i : ℕ → ArrayCgIn N) : Prop :=
  ∀ t r, (i t).rst = false → (i (t + 1)).rst = false →
    (i t).actValidIn r = true → (i (t + 1)).actValidIn r = true

/-- Simulation between the gated grid `g` and the ungated grid `s` in a cycle
with input `i`: frozen flops stand for a zero activation, and a set valid bit
implies a set valid bit on its left (which a reset cycle need not respect). -/
structure Sim (i : ArrayCgIn N) (g : GridCg N) (s : Grid N) : Prop where
  weight : ∀ r c, (g r c).weight = (s r c).weight
  psum : ∀ r c, (g r c).psumOut = (s r c).psumOut
  act : ∀ r c, (s r c).actOut = if (g r c).actValidOut then (g r c).actOut else 0
  chain : i.rst = false → ∀ r c, (g r c).actValidOut = true → vInCg i g r c = true

theorem sim_cleared (i : ArrayCgIn N) : Sim i clearedCg SystolicArray.cleared where
  weight _ _ := rfl
  psum _ _ := rfl
  act _ _ := rfl
  chain _ _ _ h := by simp [clearedCg] at h

theorem Sim.aIn {i : ArrayCgIn N} {g : GridCg N} {s : Grid N} (h : Sim i g s) (r c : Fin N) :
    aIn i.masked.actIn s r c = if vInCg i g r c then aInCg i g r c else 0 := by
  obtain ⟨c, hc⟩ := c
  cases c with
  | zero => rfl
  | succ c => exact h.act r ⟨c, by omega⟩

theorem Sim.psumWire {i : ArrayCgIn N} {g : GridCg N} {s : Grid N} (h : Sim i g s) (c : Fin N)
    (q : ℕ) (hq : q ≤ N) : psumWireCg g c q hq = psumWire s c q hq := by
  cases q with
  | zero => rfl
  | succ q => exact h.psum ⟨q, hq⟩ c

/-- One clock edge keeps the simulation. -/
theorem sim_step {i i' : ArrayCgIn N} {g : GridCg N} {s : Grid N} (h : Sim i g s)
    (hfall : i.rst = false → i'.rst = false → ∀ r, i.actValidIn r = true → i'.actValidIn r = true) :
    Sim i' (stepCg i g) (SystolicArray.step i.masked s) := by
  cases hrst : i.rst with
  | true =>
    rw [stepCg_rst hrst, SystolicArray.step_rst (i := i.masked) hrst]
    exact sim_cleared i'
  | false =>
    have hmrst : i.masked.rst = false := hrst
    -- under `chain` the gated valid flop loads its input even when it stands still
    have hvalid : ∀ r c, (stepCg i g r c).actValidOut = vInCg i g r c := by
      intro r c
      cases hv : vInCg i g r c with
      | true => exact (stepCg_valid hrst hv).2
      | false =>
        rw [(stepCg_frozen hrst hv).2]
        by_contra hset
        have hleft := h.chain hrst r c (by simpa using hset)
        rw [hv] at hleft
        cases hleft
    refine ⟨?_, ?_, ?_, ?_⟩
    · intro r c
      have hload : i.masked.weightLoad = i.weightLoad := rfl
      have hwin : i.masked.weightIn = i.weightIn := rfl
      simp [stepCg, PeCg.step, SystolicArray.step, SystolicArray.Pe.step, hrst, hmrst, hload, hwin,
        h.weight r c]
    · intro r c
      simp [stepCg, PeCg.step, SystolicArray.step, SystolicArray.Pe.step, hrst, hmrst, actIsolated,
        h.weight r c, h.aIn r c, h.psumWire c r.val r.isLt.le]
    · intro r c
      have hact : (SystolicArray.step i.masked s r c).actOut = SystolicArray.aIn i.masked.actIn s r c := by
        simp [SystolicArray.step, SystolicArray.Pe.step, hmrst]
      rw [hact, h.aIn r c, hvalid r c]
      cases hv : vInCg i g r c with
      | true => simp [(stepCg_valid hrst hv).1]
      | false => simp
    · intro hrst' r c hset
      rw [hvalid] at hset
      obtain ⟨c, hc⟩ := c
      cases c with
      | zero => exact hfall hrst hrst' r hset
      | succ c =>
        -- the valid bit on the left was set a cycle ago, and loads a set one now
        have hleft := h.chain hrst r ⟨c, by omega⟩ hset
        exact (hvalid r ⟨c, by omega⟩).trans hleft

theorem sim_run (g₀ : GridCg N) (s₀ : Grid N) {i : ℕ → ArrayCgIn N} {L : ℕ} (hL : (i L).rst = true)
    (hfall : NeverFalls i) : ∀ t, L < t →
      Sim (i t) (run stepCg g₀ i t) (run SystolicArray.step s₀ (fun u => (i u).masked) t) := by
  intro t ht
  induction t, ht using Nat.le_induction with
  | base =>
    rw [run_succ, run_succ, stepCg_rst hL, SystolicArray.step_rst (i := (i L).masked) hL]
    exact sim_cleared _
  | succ t _ ih => exact sim_step ih fun hr hr' r => hfall t r hr hr'

/-- **The gated array refines the ungated one.**  From the first reset on, and
as long as no valid bit falls between two resets, both drive the same
`psum_out`; with all slots valid the activations need no masking. -/
theorem gated_eq_ungated (g₀ : GridCg N) (s₀ : Grid N) (i : ℕ → ArrayCgIn N) {L : ℕ}
    (hL : (i L).rst = true) (hfall : NeverFalls i) :
    (∀ t, L < t → ∀ c, psumOutCg (run stepCg g₀ i t) c =
      psumOut (run SystolicArray.step s₀ (fun u => (i u).masked) t) c) ∧
    ((∀ t r, (i t).actValidIn r = true) → ∀ t, L < t → ∀ c, psumOutCg (run stepCg g₀ i t) c =
      psumOut (run SystolicArray.step s₀ (fun u => (i u).toArrayIn) t) c) := by
  have hmasked : ∀ t, L < t → ∀ c, psumOutCg (run stepCg g₀ i t) c =
      psumOut (run SystolicArray.step s₀ (fun u => (i u).masked) t) c :=
    fun t ht c => (sim_run g₀ s₀ hL hfall t ht).psumWire c N le_rfl
  refine ⟨hmasked, ?_⟩
  intro hall t ht c
  have hid : (fun u => (i u).masked) = fun u => (i u).toArrayIn := by
    funext u
    simp [ArrayCgIn.masked, hall]
  rw [hmasked t ht c, hid]

/-- Row 0 becomes valid in cycle 2, row 1 in cycle 4. -/
def riseTrace (t : ℕ) : ArrayCgIn 2 where
  rst := t == 0
  weightLoad := t == 1
  weightIn := fun r c => BitVec.ofNat 8 (1 + r.val + c.val)
  actIn := fun r => BitVec.ofNat 8 (t + r.val)
  actValidIn := fun r => 2 + 2 * r.val ≤ t

theorem gated_eq_ungated_demo :
    psumOutCg (run stepCg (fun _ _ => ⟨3, 3, true, 3⟩) riseTrace 6) 1 =
      psumOut (run SystolicArray.step (fun _ _ => ⟨4, 4, 4⟩) (fun u => (riseTrace u).masked) 6) 1 := by
  have hfall : NeverFalls riseTrace := by
    intro t r _ _ hv
    simp only [riseTrace, decide_eq_true_eq] at hv ⊢
    omega
  exact (gated_eq_ungated _ _ riseTrace (L := 0) rfl hfall).1 6 (by decide) 1

end SystolicArrayCg
