import Mathlib.Algebra.Group.Nat.Defs
import Mathlib.Data.List.Basic
import Mathlib.Tactic.Common

/-! # Burst ports

    The view that a bus monitor has of one direction of a burst bus: the bursts
    whose address was accepted and whose beats were not all transferred.  A
    subordinate is well behaved if it only answers what is pending; a manager
    is judged by the addresses that its beats fall on. -/

namespace Burst

variable {A : ℕ}

/-- The address of the first beat and the number of beats. -/
structure Req (A : ℕ) where
  addr : BitVec A
  len : ℕ
  deriving DecidableEq

/-- A request announces its number of beats less one. -/
theorem announced {w : ℕ} {len : BitVec w} (h : len ≠ 0) :
    0 < len.toNat ∧ (len - 1).toNat + 1 = len.toNat := by
  have hpos : 0 < len.toNat := by
    apply Nat.pos_of_ne_zero
    intro hz
    exact h (BitVec.eq_of_toNat_eq (by simpa using hz))
  -- a width of 0 has no `len` but 0
  have hw : 1 < 2 ^ w := by have := len.isLt; omega
  have hone : (1 : BitVec w).toNat = 1 := by simpa using Nat.mod_eq_of_lt hw
  refine ⟨hpos, ?_⟩
  rw [BitVec.toNat_sub_of_le, hone]
  · exact Nat.sub_add_cancel hpos
  · rw [BitVec.le_def, hone]
    exact hpos

/-! ## Blocks

    A region of memory is a request too: its first address and its number of
    rows, a row being as long as a beat. -/

/-- All bytes of the burst lie in the block of its first one. -/
def Req.InBlock (block bytes : ℕ) (b : Req A) : Prop :=
  ∀ k < b.len * bytes, (b.addr + BitVec.ofNat A k).toNat / block = b.addr.toNat / block

/-- `b` consists of rows `n, n + 1, ...` of `region`. -/
structure Req.RowsOf (bytes : ℕ) (region b : Req A) (n : ℕ) : Prop where
  pos : 0 < b.len
  within : n + b.len ≤ region.len
  addr : b.addr = region.addr + BitVec.ofNat A (n * bytes)

section blocks
variable {block bytes n : ℕ} {region b : Req A}

/-- A part of a region that lies in one block lies in one block. -/
theorem Req.RowsOf.inBlock (h : Req.RowsOf bytes region b n) (hregion : region.InBlock block bytes) :
    b.InBlock block bytes := by
  intro k hk
  have hle : (n + b.len) * bytes ≤ region.len * bytes := Nat.mul_le_mul_right bytes h.within
  rw [Nat.add_mul] at hle
  have hfirst := hregion (n * bytes) (by omega)
  have hbyte := hregion (n * bytes + k) (by omega)
  rw [h.addr, BitVec.add_assoc, ← BitVec.ofNat_add, hbyte, hfirst]

/-- Up to the next multiple of a divisor of the block size nothing is crossed. -/
theorem div_add_of_dvd {a k size : ℕ} (hsize : size ∣ block) (ha : size ∣ a) (hk : k < size) :
    (a + k) / block = a / block := by
  obtain ⟨q, rfl⟩ := hsize
  obtain ⟨m, rfl⟩ := ha
  rw [← Nat.div_div_eq_div_mul, ← Nat.div_div_eq_div_mul, Nat.mul_add_div (by omega),
    Nat.div_eq_of_lt hk, Nat.mul_div_cancel_left m (by omega), Nat.add_zero]

/-- A burst that begins at a multiple of a divisor of the block size and is not
longer than that lies in one block. -/
theorem Req.inBlock_of_dvd {size : ℕ} (hsize : size ∣ block) (hspace : block ∣ 2 ^ A)
    (haddr : size ∣ b.addr.toNat) (hlen : b.len * bytes ≤ size) : b.InBlock block bytes := by
  intro k hk
  -- the last multiple of `size` in the address space has room for the burst
  obtain ⟨q, hq⟩ := Nat.dvd_trans hsize hspace
  obtain ⟨m, hm⟩ := haddr
  have hlt := b.addr.isLt
  have hmq : m < q := by
    by_contra hge
    have := Nat.mul_le_mul_left size (Nat.le_of_not_lt hge)
    omega
  have hfit : size * (m + 1) ≤ size * q := Nat.mul_le_mul_left size hmq
  rw [Nat.mul_succ] at hfit
  have hsum : (b.addr + BitVec.ofNat A k).toNat = b.addr.toNat + k := by
    rw [BitVec.toNat_add, BitVec.toNat_ofNat, Nat.add_mod_mod]
    exact Nat.mod_eq_of_lt (by omega)
  rw [hsum]
  exact div_add_of_dvd hsize ⟨m, hm⟩ (by omega)

/-- A block that holds the whole address space. -/
theorem Req.inBlock_of_le (hspace : 2 ^ A ≤ block) : b.InBlock block bytes := by
  intro k _
  rw [Nat.div_eq_of_lt (Nat.lt_of_lt_of_le (BitVec.isLt _) hspace),
    Nat.div_eq_of_lt (Nat.lt_of_lt_of_le (BitVec.isLt _) hspace)]

end blocks

/-! ## Ports -/

/-- Pending bursts, oldest first, and the number of beats that the oldest one
has transferred. -/
structure Port (A : ℕ) where
  pending : List (Req A)
  beat : ℕ

namespace Port

/-- Nothing is pending. -/
def idle : Port A := ⟨[], 0⟩

/-- The only pending burst is `b`, of which `k` beats were transferred. -/
def serving (b : Req A) (k : ℕ) : Port A := ⟨[b], k⟩

/-- The address of the next beat of an incrementing burst. -/
def beatAddr (bytes : ℕ) (p : Port A) : Option (BitVec A) :=
  p.pending.head?.map fun b => b.addr + BitVec.ofNat A (p.beat * bytes)

/-- The next beat is the last one of its burst. -/
def lastBeat (p : Port A) : Bool := p.pending.head?.any fun b => p.beat + 1 == b.len

/-- One cycle: a beat may be transferred, and a new burst accepted. -/
def step (accepted : Option (Req A)) (transfer : Bool) (p : Port A) : Port A :=
  let q := if transfer then (if p.lastBeat then ⟨p.pending.tail, 0⟩ else ⟨p.pending, p.beat + 1⟩) else p
  ⟨q.pending ++ accepted.toList, q.beat⟩

@[simp] theorem serving_beatAddr (bytes : ℕ) (b : Req A) (k : ℕ) :
    (serving b k).beatAddr bytes = some (b.addr + BitVec.ofNat A (k * bytes)) := rfl

@[simp] theorem serving_lastBeat (b : Req A) (k : ℕ) :
    (serving b k).lastBeat = (k + 1 == b.len) := by
  simp [lastBeat, serving]

@[simp] theorem step_quiet (p : Port A) : p.step none false = p := by
  simp [step]

@[simp] theorem idle_accept (b : Req A) : (idle : Port A).step (some b) false = serving b 0 := rfl

theorem serving_last {b : Req A} {k : ℕ} (h : k + 1 = b.len) :
    (serving b k).step none true = idle := by
  simp [step, serving_lastBeat, h]
  rfl

theorem serving_next {b : Req A} {k : ℕ} (h : k + 1 ≠ b.len) :
    (serving b k).step none true = serving b (k + 1) := by
  simp [step, serving_lastBeat, h]
  rfl

end Port

/-! ## Last flags -/

/-- The last flags of the beats of a burst: set on its last beat only. -/
def Req.flags (b : Req A) : List Bool := (List.range b.len).map fun k => k + 1 == b.len

namespace Port

/-- The flags of the beats that are still to come. -/
def remaining (p : Port A) : List Bool := (p.pending.flatMap Req.flags).drop p.beat

@[simp] theorem remaining_idle : (idle : Port A).remaining = [] := rfl

@[simp] theorem remaining_accepted (b : Req A) : (serving b 0).remaining = b.flags := by
  simp [remaining, serving]

/-- The next flag is set if the burst ends with this beat. -/
theorem remaining_serving {b : Req A} {k : ℕ} (h : k < b.len) :
    (serving b k).remaining = (k + 1 == b.len) :: ((serving b k).step none true).remaining := by
  have hcons : b.flags.drop k = (k + 1 == b.len) :: b.flags.drop (k + 1) := by
    rw [List.drop_eq_getElem_cons (by simpa [Req.flags] using h)]
    simp [Req.flags]
  have hserving : ∀ j, (serving b j).remaining = b.flags.drop j := fun j => by
    simp [remaining, serving]
  by_cases hend : k + 1 = b.len
  · rw [serving_last hend, hserving, hcons, List.drop_eq_nil_of_le (by simp [Req.flags, hend])]
    rfl
  · rw [serving_next hend, hserving, hserving, hcons]

end Port

end Burst
