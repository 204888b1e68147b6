import Mathlib.Data.Nat.Bits
import Mathlib.Logic.Function.Basic
import TensorAccel.Framework.Clocked

/-! # Double-buffered scratchpad (`rtl/scratchpad_dbuf.sv`)

    Two banks of `D` words: writes go to the fill bank, reads come from the
    consume bank, and `swap` exchanges the roles. -/

open Clocked

namespace ScratchpadDbuf

variable {D W : ℕ}

/-! ## Model -/

/-- Input ports in one cycle; addresses are below `DEPTH`. -/
structure Ports (D W : ℕ) where
  rst : Bool
  wrEn : Bool
  wrAddr : Fin D
  wrData : BitVec W
  rdEn : Bool
  rdAddr : Fin D
  swap : Bool

structure Dbuf (D W : ℕ) where
  mem0 : Fin D → BitVec W
  mem1 : Fin D → BitVec W
  consumeBankQ : Bool
  rdValid : Bool
  rdData : BitVec W

namespace Dbuf

def fillBank (s : Dbuf D W) : Bool := !s.consumeBankQ

def consumeBank (s : Dbuf D W) : Bool := s.consumeBankQ

def bank (s : Dbuf D W) : Bool → Fin D → BitVec W
  | false => s.mem0
  | true => s.mem1

/-- The three clocked blocks.  Writes are not gated by reset. -/
def step (i : Ports D W) (s : Dbuf D W) : Dbuf D W where
  consumeBankQ := if i.rst then true else if i.swap then !s.consumeBankQ else s.consumeBankQ
  mem1 := if i.wrEn && !s.consumeBankQ then Function.update s.mem1 i.wrAddr i.wrData else s.mem1
  mem0 := if i.wrEn && s.consumeBankQ then Function.update s.mem0 i.wrAddr i.wrData else s.mem0
  rdValid := if i.rst then false else i.rdEn
  rdData :=
    if i.rst then 0
    else if i.rdEn then (if s.consumeBankQ then s.mem1 i.rdAddr else s.mem0 i.rdAddr)
    else s.rdData

/-! ## One cycle -/

/-- A write changes one word of one bank. -/
theorem bank_step (i : Ports D W) (s : Dbuf D W) (b : Bool) (a : Fin D) :
    (s.step i).bank b a =
      if i.wrEn = true ∧ b = s.fillBank ∧ a = i.wrAddr then i.wrData else s.bank b a := by
  cases b <;> cases hq : s.consumeBankQ <;> cases hw : i.wrEn <;>
    simp [bank, step, fillBank, hq, hw, Function.update_apply]

theorem rdValid_step (i : Ports D W) (s : Dbuf D W) : (s.step i).rdValid = (i.rdEn && !i.rst) := by
  cases h : i.rst <;> simp [step, h]

/-- A read returns the word that its bank holds at the start of the cycle. -/
theorem rdData_read {i : Ports D W} (hr : i.rst = false) (hread : i.rdEn = true) (s : Dbuf D W) :
    (s.step i).rdData = s.bank s.consumeBank i.rdAddr := by
  cases hq : s.consumeBankQ <;> simp [step, bank, consumeBank, hr, hread, hq]

theorem rdData_hold {i : Ports D W} (hr : i.rst = false) (hread : i.rdEn = false) (s : Dbuf D W) :
    (s.step i).rdData = s.rdData := by
  simp [step, hr, hread]

end Dbuf

/-! ## History -/

section history

variable (s₀ : Dbuf D W) (inp : ℕ → Ports D W)

/-- The consume bank in cycle `t`, from the inputs alone: bank 1 after a reset,
exchanged by every swap since. -/
def consumeAt (t : ℕ) : Bool :=
  match lastIn (fun u => (inp u).rst) 0 t with
  | some L => xor true (countIn (fun u => (inp u).swap) (L + 1) t).bodd
  | none => xor s₀.consumeBankQ (countIn (fun u => (inp u).swap) 0 t).bodd

/-- Cycle `u` writes word `a` of bank `b`, which is the fill bank then. -/
def Writes (b : Bool) (a : Fin D) (u : ℕ) : Bool :=
  (inp u).wrEn && (b == !consumeAt s₀ inp u) && a == (inp u).wrAddr

/-- The word that the history up to cycle `t` leaves at address `a` of bank `b`. -/
def lastWritten (b : Bool) (a : Fin D) (t : ℕ) : BitVec W :=
  written (Writes s₀ inp b a) (fun u => (inp u).wrData) (s₀.bank b a) t

theorem consumeBank_run (t : ℕ) : (run Dbuf.step s₀ inp t).consumeBank = consumeAt s₀ inp t := by
  induction t with
  | zero => simp [run, Dbuf.consumeBank, consumeAt, lastIn]
  | succ t ih =>
    have hstep : (run Dbuf.step s₀ inp (t + 1)).consumeBank =
        if (inp t).rst then true
        else if (inp t).swap then !(consumeAt s₀ inp t) else consumeAt s₀ inp t := by
      rw [← ih]
      rfl
    rw [hstep]
    simp only [consumeAt, lastIn_succ]
    by_cases hr : (inp t).rst = true
    · simp [hr]
    · simp only [hr, and_false, if_false, Bool.false_eq_true]
      rcases hlast : lastIn (fun u => (inp u).rst) 0 t with _ | L
      · by_cases hs : (inp t).swap = true <;> simp [countIn_succ _ (Nat.zero_le t), hs]
      · have hL : L + 1 ≤ t := (lastIn_eq_some hlast).2.lt
        by_cases hs : (inp t).swap = true <;> simp [countIn_succ _ hL, hs]

theorem bank_run (b : Bool) (a : Fin D) (t : ℕ) :
    (run Dbuf.step s₀ inp t).bank b a = lastWritten s₀ inp b a t := by
  apply written_eq (q := fun t => (run Dbuf.step s₀ inp t).bank b a)
  intro u
  rw [run_succ, Dbuf.bank_step, Dbuf.fillBank, ← Dbuf.consumeBank, consumeBank_run]
  refine if_congr ?_ rfl rfl
  rw [Writes, Bool.and_eq_true, Bool.and_eq_true, beq_iff_eq, beq_iff_eq, and_assoc]

/-- A bank that is not filled keeps its words. -/
theorem lastWritten_keep {b : Bool} {u t : ℕ} (hut : u ≤ t)
    (hb : ∀ v, u ≤ v → v < t → consumeAt s₀ inp v = b) (a : Fin D) :
    lastWritten s₀ inp b a t = lastWritten s₀ inp b a u := by
  induction t, hut using Nat.le_induction with
  | base => rfl
  | succ t hut ih =>
    have hno : Writes s₀ inp b a t = false := by
      simp [Writes, hb t hut (Nat.lt_succ_self t)]
    rw [← ih fun v hv hvt => hb v hv (by omega), lastWritten, written, lastIn_succ, if_neg (by simp [hno])]
    rfl

theorem rdData_held {t t' : ℕ} (h : t ≤ t')
    (hquiet : Quiet (fun u => (inp u).rst || (inp u).rdEn) t t') :
    (run Dbuf.step s₀ inp t').rdData = (run Dbuf.step s₀ inp t).rdData := by
  induction t', h using Nat.le_induction with
  | base => rfl
  | succ t' htt' ih =>
    have hlow := Bool.or_eq_false_iff.mp (hquiet.at htt' (Nat.lt_succ_self t'))
    rw [run_succ, Dbuf.rdData_hold hlow.1 hlow.2, ih (hquiet.mono le_rfl (Nat.le_succ t'))]

/-- **History law of the scratchpad**, for every trace of inputs: a read
returns the last value written to its address while its bank was the fill
bank, and holds it until the next read or reset; nothing written once the
bank has become the consume bank, and nothing else done in the cycle of the
read, has a part in it; a cycle changes at most the one word it writes. -/
theorem history_law (t : ℕ) :
    (run Dbuf.step s₀ inp t).consumeBank = consumeAt s₀ inp t ∧
    (run Dbuf.step s₀ inp (t + 1)).rdValid = ((inp t).rdEn && !(inp t).rst) ∧
    ((inp t).rst = false → (inp t).rdEn = true →
      (∀ t', t < t' → Quiet (fun u => (inp u).rst || (inp u).rdEn) (t + 1) t' →
        (run Dbuf.step s₀ inp t').rdData = lastWritten s₀ inp (consumeAt s₀ inp t) (inp t).rdAddr t) ∧
      (∀ u ≤ t, (∀ v, u ≤ v → v < t → consumeAt s₀ inp v = consumeAt s₀ inp t) →
        lastWritten s₀ inp (consumeAt s₀ inp t) (inp t).rdAddr t =
          lastWritten s₀ inp (consumeAt s₀ inp t) (inp t).rdAddr u) ∧
      (∀ i : Ports D W, i.rst = false → i.rdEn = true → i.rdAddr = (inp t).rdAddr →
        ((run Dbuf.step s₀ inp t).step i).rdData = (run Dbuf.step s₀ inp (t + 1)).rdData)) ∧
    ∀ b a, (run Dbuf.step s₀ inp (t + 1)).bank b a =
      if (inp t).wrEn = true ∧ b = !consumeAt s₀ inp t ∧ a = (inp t).wrAddr then (inp t).wrData
      else (run Dbuf.step s₀ inp t).bank b a := by
  have hbank := consumeBank_run s₀ inp t
  refine ⟨hbank, Dbuf.rdValid_step _ _, fun hr hread => ⟨?_, ?_, ?_⟩, ?_⟩
  · intro t' htt' hquiet
    rw [rdData_held s₀ inp htt' hquiet, run_succ, Dbuf.rdData_read hr hread, hbank, bank_run]
  · intro u hut hsame
    exact lastWritten_keep s₀ inp hut hsame _
  · intro i hir hiread haddr
    rw [run_succ, Dbuf.rdData_read hir hiread, Dbuf.rdData_read hr hread, haddr]
  · intro b a
    rw [run_succ, Dbuf.bank_step, ← hbank]
    rfl

end history

/-- A write to bank 0, a swap together with another write to the same word,
and a read: it returns the second value. -/
example : ((run Dbuf.step (⟨fun _ => 0, fun _ => 0, false, false, 0⟩ : Dbuf 2 8)
    (fun t => ⟨t == 0, t == 1 || t == 2, 1, BitVec.ofNat 8 t, t == 3, 1, t == 2⟩) 4).rdData) = 2 := by decide

end ScratchpadDbuf
