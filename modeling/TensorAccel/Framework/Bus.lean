import Mathlib.Data.BitVec
import TensorAccel.Framework.Span

/-! # Packed buses

    A bus of bytes as a simulator hands it to C++: one integer if it is narrow,
    an array of 32-bit words if it is wide.  Bytes are put, or-ed in and read
    with shifts and masks; a circuit sees slices of the bits. -/

open Span

inductive Bus where
  | int {w : ℕ} (v : BitVec w)
  | wide (words : ℕ → BitVec 32)

namespace Bus

/-! ## Operations -/

def bit : Bus → ℕ → Bool
  | .int v, k => v.getLsbD k
  | .wide ws, k => (ws (k / 32)).getLsbD (k % 32)

/-- `bus[lo +: w]` -/
def slice (s : Bus) (lo w : ℕ) : BitVec w :=
  (BitVec.iunfoldr (fun (k : Fin w) (_ : Unit) => ((), s.bit (lo + k))) ()).2

/-- A bus of `bits` bits, all low: the smallest integer type that holds them, or words. -/
def zero (bits : ℕ) : Bus :=
  if bits ≤ 8 then .int 0#8
  else if bits ≤ 16 then .int 0#16
  else if bits ≤ 32 then .int 0#32
  else if bits ≤ 64 then .int 0#64
  else .wide fun _ => 0

/-- Overwrite byte `i`. -/
def putByte (i : ℕ) (v : BitVec 8) : Bus → Bus
  | .int (w := w) s => .int ((s &&& ~~~(0xFF#w <<< (i * 8))) ||| (v.setWidth w <<< (i * 8)))
  | .wide ws =>
    let off := i % 4 * 8
    .wide (Function.update ws (i / 4)
      ((ws (i / 4) &&& ~~~(0xFF#32 <<< off)) ||| (v.setWidth 32 <<< off)))

/-- Or byte `i` with `v`. -/
def orByte (i : ℕ) (v : BitVec 8) : Bus → Bus
  | .int (w := w) s => .int (s ||| (v.setWidth w <<< (i * 8)))
  | .wide ws =>
    let bit := i * 8
    .wide (Function.update ws (bit / 32) (ws (bit / 32) ||| (v.setWidth 32 <<< (bit % 32))))

def getByte (i : ℕ) : Bus → BitVec 8
  | .int (w := w) s => ((s >>> (i * 8)) &&& 0xFF#w).setWidth 8
  | .wide ws => ((ws (i / 4) >>> (i % 4 * 8)) &&& 0xFF#32).setWidth 8

/-- Element `i` of an array of words, or those bits of an integer. -/
def getWord (i : ℕ) : Bus → BitVec 32
  | .int s => (s >>> (i * 32)).setWidth 32
  | .wide ws => ws i

/-- The bus has `n` bytes. -/
def Fits (n : ℕ) : Bus → Prop
  | .int (w := w) _ => n * 8 ≤ w
  | .wide _ => True

/-! ## Bits -/

@[simp] theorem getLsbD_slice (s : Bus) (lo w k : ℕ) (hk : k < w) :
    (s.slice lo w).getLsbD k = s.bit (lo + k) := by
  exact BitVec.iunfoldr_getLsbD (fun _ => ()) ⟨k, hk⟩ (fun _ => rfl)

theorem getLsbD_mask (w k : ℕ) (hk : k < w) : (0xFF#w).getLsbD k = decide (k < 8) := by
  rw [BitVec.getLsbD_ofNat, show (0xFF : ℕ) = 2 ^ 8 - 1 by decide, Nat.testBit_two_pow_sub_one]
  simp [hk]

/-- A byte inserted into a word at bit `o`. -/
theorem getLsbD_insert {w : ℕ} (s : BitVec w) (v : BitVec 8) (o : ℕ) {k : ℕ} (hk : k < w) :
    ((s &&& ~~~(0xFF#w <<< o)) ||| (v.setWidth w <<< o)).getLsbD k =
      if o ≤ k ∧ k < o + 8 then v.getLsbD (k - o) else s.getLsbD k := by
  have hko : k - o < w := by omega
  simp only [BitVec.getLsbD_or, BitVec.getLsbD_and, BitVec.getLsbD_not, BitVec.getLsbD_shiftLeft,
    BitVec.getLsbD_setWidth, getLsbD_mask w (k - o) hko, hk, hko, decide_true, Bool.true_and]
  by_cases hlow : k < o
  · simp [hlow, show ¬ o ≤ k by omega]
  · by_cases hhigh : k < o + 8
    · simp [hlow, hhigh, show o ≤ k by omega, show k - o < 8 by omega]
    · have hzero : v.getLsbD (k - o) = false := BitVec.getLsbD_of_ge v (k - o) (by omega)
      simp [hlow, hhigh, show ¬ k - o < 8 by omega, hzero]

/-- A byte or-ed into a word at bit `o`. -/
theorem getLsbD_orIn {w : ℕ} (s : BitVec w) (v : BitVec 8) (o : ℕ) {k : ℕ} (hk : k < w) :
    (s ||| (v.setWidth w <<< o)).getLsbD k =
      if o ≤ k ∧ k < o + 8 then (s.getLsbD k || v.getLsbD (k - o)) else s.getLsbD k := by
  have hko : k - o < w := by omega
  simp only [BitVec.getLsbD_or, BitVec.getLsbD_shiftLeft, BitVec.getLsbD_setWidth, hk, hko, decide_true,
    Bool.true_and]
  by_cases hlow : k < o
  · simp [hlow, show ¬ o ≤ k by omega]
  · by_cases hhigh : k < o + 8
    · simp [hlow, hhigh, show o ≤ k by omega]
    · have hzero : v.getLsbD (k - o) = false := BitVec.getLsbD_of_ge v (k - o) (by omega)
      simp [hlow, hhigh, hzero]

/-! ## Bytes -/

section bytes
variable {s : Bus} {i n m : ℕ} {v : BitVec 8}

theorem Fits.putByte (h : s.Fits m) : (s.putByte i v).Fits m := by
  cases s <;> exact h

theorem Fits.orByte (h : s.Fits m) : (s.orByte i v).Fits m := by
  cases s <;> exact h

theorem zero_fits {bits : ℕ} (h : m * 8 ≤ bits) : (zero bits).Fits m := by
  unfold zero
  split_ifs with h8 h16 h32 h64
  · exact h.trans h8
  · exact h.trans h16
  · exact h.trans h32
  · exact h.trans h64
  · trivial

theorem bit_zero (bits k : ℕ) : (zero bits).bit k = false := by
  unfold zero
  split_ifs <;> simp [bit]

/-- Byte `i` changed by `f`, which changes the 8 bits of a word from an offset on. -/
def modifyByte (f : (w : ℕ) → BitVec w → ℕ → BitVec w) (i : ℕ) : Bus → Bus
  | .int (w := w) s => .int (f w s (i * 8))
  | .wide ws => .wide (Function.update ws (i / 4) (f 32 (ws (i / 4)) (i % 4 * 8)))

/-- Other bytes stay. -/
theorem bit_modifyByte {f : (w : ℕ) → BitVec w → ℕ → BitVec w} {g : Bool → Bool → Bool}
    (hf : ∀ (w : ℕ) (s : BitVec w) (o k : ℕ), k < w → (f w s o).getLsbD k =
      if o ≤ k ∧ k < o + 8 then g (s.getLsbD k) (v.getLsbD (k - o)) else s.getLsbD k)
    (h : s.Fits m) (hn : n < m) (hi : i < m) {k : ℕ} (hk : k < 8) :
    (s.modifyByte f i).bit (n * 8 + k) =
      if n = i then g (s.bit (n * 8 + k)) (v.getLsbD k) else s.bit (n * 8 + k) := by
  cases s with
  | @int w s =>
    have hw : m * 8 ≤ w := h
    have hn8 : (n + 1) * 8 ≤ m * 8 := Nat.mul_le_mul_right 8 hn
    rw [modifyByte, bit, bit, hf w s (i * 8) _ (by omega)]
    by_cases hni : n = i
    · subst hni
      rw [if_pos (by omega), if_pos rfl, Nat.add_sub_cancel_left]
    · rw [if_neg (by omega), if_neg hni]
  | wide ws =>
    have hword : (n * 8 + k) / 32 = n / 4 := by omega
    have hoff : (n * 8 + k) % 32 = n % 4 * 8 + k := by omega
    simp only [modifyByte, bit, hword, hoff, Function.update_apply]
    by_cases hsame : n / 4 = i / 4
    · rw [if_pos hsame, hf 32 _ _ _ (by omega), hsame]
      by_cases hni : n = i
      · subst hni
        rw [if_pos (by omega), if_pos rfl, Nat.add_sub_cancel_left]
      · rw [if_neg (by omega), if_neg hni]
    · have hni : n ≠ i := fun he => hsame (by rw [he])
      rw [if_neg hsame, if_neg hni]

theorem slice_putByte (h : s.Fits m) (hn : n < m) (hi : i < m) :
    (s.putByte i v).slice (n * 8) 8 = if n = i then v else s.slice (n * 8) 8 := by
  have hput : s.putByte i v =
      s.modifyByte (fun w s o => (s &&& ~~~(0xFF#w <<< o)) ||| (v.setWidth w <<< o)) i := by
    cases s <;> rfl
  apply BitVec.eq_of_getLsbD_eq
  intro k hk
  rw [getLsbD_slice _ _ _ _ hk, hput,
    bit_modifyByte (g := fun _ new => new) (fun w s o k hk => getLsbD_insert s v o hk) h hn hi hk]
  split
  · rfl
  · rw [getLsbD_slice _ _ _ _ hk]

theorem slice_orByte (h : s.Fits m) (hn : n < m) (hi : i < m) :
    (s.orByte i v).slice (n * 8) 8 = if n = i then s.slice (n * 8) 8 ||| v else s.slice (n * 8) 8 := by
  have hor : s.orByte i v = s.modifyByte (fun w s o => s ||| (v.setWidth w <<< o)) i := by
    -- the bit offset of the byte gives its word and its place there
    have hword : i * 8 / 32 = i / 4 := by omega
    have hoff : i * 8 % 32 = i % 4 * 8 := by omega
    cases s with
    | int s => rfl
    | wide ws => simp only [orByte, modifyByte, hword, hoff]
  apply BitVec.eq_of_getLsbD_eq
  intro k hk
  rw [getLsbD_slice _ _ _ _ hk, hor,
    bit_modifyByte (g := fun old new => old || new) (fun w s o k hk => getLsbD_orIn s v o hk) h hn hi hk]
  split
  · rw [BitVec.getLsbD_or, getLsbD_slice _ _ _ _ hk]
  · rw [getLsbD_slice _ _ _ _ hk]

theorem getByte_eq_slice (h : s.Fits m) (hi : i < m) : s.getByte i = s.slice (i * 8) 8 := by
  apply BitVec.eq_of_getLsbD_eq
  intro k hk
  rw [getLsbD_slice _ _ _ _ hk]
  cases s with
  | @int w s =>
    have hw : m * 8 ≤ w := h
    have hi8 : (i + 1) * 8 ≤ m * 8 := Nat.mul_le_mul_right 8 hi
    simp only [getByte, bit, BitVec.getLsbD_setWidth, BitVec.getLsbD_and, BitVec.getLsbD_ushiftRight,
      getLsbD_mask w k (by omega), hk, decide_true, Bool.true_and, Bool.and_true]
  | wide ws =>
    have hword : (i * 8 + k) / 32 = i / 4 := by omega
    have hoff : (i * 8 + k) % 32 = i % 4 * 8 + k := by omega
    simp only [getByte, bit, BitVec.getLsbD_setWidth, BitVec.getLsbD_and, BitVec.getLsbD_ushiftRight,
      getLsbD_mask 32 k (by omega), hk, decide_true, Bool.true_and, Bool.and_true, hword, hoff]

theorem getLsbD_getWord (s : Bus) (i : ℕ) {k : ℕ} (hk : k < 32) :
    (s.getWord i).getLsbD k = s.bit (i * 32 + k) := by
  cases s with
  | int s => simp [getWord, bit, hk]
  | wide ws => rw [getWord, bit, show (i * 32 + k) / 32 = i by omega, show (i * 32 + k) % 32 = k by omega]

/-- The word that four bytes make, lowest first. -/
theorem getLsbD_orBytes (b : ℕ → BitVec 8) {k : ℕ} (hk : k < 32) :
    (forLoop (fun i (raw : BitVec 32) => raw ||| ((b i).setWidth 32 <<< (i * 8))) 4 0).getLsbD k =
      (b (k / 8)).getLsbD (k % 8) := by
  have hbyte : k / 8 = 0 ∨ k / 8 = 1 ∨ k / 8 = 2 ∨ k / 8 = 3 := by omega
  simp only [forLoop]
  rw [getLsbD_orIn _ _ _ hk, getLsbD_orIn _ _ _ hk, getLsbD_orIn _ _ _ hk, getLsbD_orIn _ _ _ hk]
  rcases hbyte with h | h | h | h
  all_goals
    rw [h]
    split_ifs <;> first | omega | skip
    all_goals
      simp only [BitVec.ofNat_eq_ofNat, BitVec.getLsbD_zero, Bool.false_or]
      congr 1
      omega

end bytes

/-! ## Loops over bytes -/

section loops
variable {s : Bus} {f : ℕ → BitVec 8} {n m i : ℕ}

theorem Fits.putBytes (h : s.Fits m) : (forLoop (fun i => Bus.putByte i (f i)) n s).Fits m := by
  induction n with
  | zero => exact h
  | succ n ih => exact ih.putByte

/-- The bytes that a loop of stores leaves. -/
theorem slice_putBytes (h : s.Fits m) (hn : n ≤ m) (hi : i < n) :
    (forLoop (fun i => putByte i (f i)) n s).slice (i * 8) 8 = f i := by
  induction n with
  | zero => exact absurd hi (Nat.not_lt_zero i)
  | succ n ih =>
    rw [forLoop, slice_putByte h.putBytes (show i < m by omega) (show n < m by omega)]
    by_cases hin : i = n
    · rw [if_pos hin, hin]
    · rw [if_neg hin, ih (by omega) (by omega)]

theorem Fits.orBytes (h : s.Fits m) : (forLoop (fun i => Bus.orByte i (f i)) n s).Fits m := by
  induction n with
  | zero => exact h
  | succ n ih => exact ih.orByte

/-- Bytes or-ed into bytes that are zero. -/
theorem slice_orBytes (h : s.Fits m) (hn : n ≤ m) (hi : i < m) (hzero : ∀ k, s.bit k = false) :
    (forLoop (fun i => orByte i (f i)) n s).slice (i * 8) 8 = if i < n then f i else 0 := by
  induction n with
  | zero =>
    rw [if_neg (Nat.not_lt_zero i)]
    apply BitVec.eq_of_getLsbD_eq
    intro k hk
    rw [forLoop, getLsbD_slice _ _ _ _ hk, hzero]
    simp
  | succ n ih =>
    rw [forLoop, slice_orByte h.orBytes hi (show n < m by omega), ih (by omega)]
    by_cases hin : i = n
    · subst hin
      rw [if_pos rfl, if_neg (Nat.lt_irrefl i), if_pos (Nat.lt_succ_self i)]
      exact BitVec.zero_or
    · rw [if_neg hin]
      exact if_congr (by omega) rfl rfl

end loops

end Bus
