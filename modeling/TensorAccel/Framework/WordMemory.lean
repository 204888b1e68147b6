import TensorAccel.Framework.Bus

/-! # Words as bytes

    A memory of words of `b` bytes each, lowest byte first, as a memory of bytes.
    A copy of bytes goes word by word and changes a part of each word; on the bytes
    it is a span of stores. -/

open Span

namespace WordMemory

variable {w : ℕ}

/-- Byte `k` of a word. -/
def byte (v : BitVec w) (k : ℕ) : BitVec 8 := v.extractLsb' (8 * k) 8

def setByte (k : ℕ) (x : BitVec 8) (v : BitVec w) : BitVec w :=
  (v &&& ~~~(0xFF#w <<< (8 * k))) ||| (x.setWidth w <<< (8 * k))

/-- Copy `f 0, ..., f (n - 1)` to the bytes of a word from `off` on. -/
def setBytes (off : ℕ) (f : ℕ → BitVec 8) (n : ℕ) (v : BitVec w) : BitVec w :=
  forLoop (fun k => setByte (off + k) (f k)) n v

/-- Byte `a` of a memory of words of `b` bytes. -/
def bytes (b : ℕ) (mem : ℕ → BitVec w) (a : ℕ) : BitVec 8 := byte (mem (a / b)) (a % b)

section words
variable {v : BitVec w} {x : BitVec 8} {f : ℕ → BitVec 8} {b off n j k a : ℕ}

theorem byte_setByte (hj : 8 * (j + 1) ≤ w) : byte (setByte k x v) j = if j = k then x else byte v j := by
  apply BitVec.eq_of_getLsbD_eq
  intro i hi
  rw [byte, BitVec.getLsbD_extractLsb', setByte, Bus.getLsbD_insert _ _ _ (by omega)]
  by_cases hjk : j = k
  · subst hjk
    simp [hi]
  · rw [if_neg hjk, byte, BitVec.getLsbD_extractLsb', if_neg (by omega)]

theorem byte_setBytes (hj : 8 * (j + 1) ≤ w) : byte (setBytes off f n v) j =
    if off ≤ j ∧ j < off + n then f (j - off) else byte v j := by
  induction n with
  | zero =>
    rw [if_neg (by omega)]
    rfl
  | succ n ih =>
    have hstep : setBytes off f (n + 1) v = setByte (off + n) (f n) (setBytes off f n v) := rfl
    rw [hstep, byte_setByte hj, ih]
    by_cases hlast : j = off + n
    · subst hlast
      simp
    · rw [if_neg hlast]
      exact if_congr (by omega) rfl rfl

/-- A part of one word is changed. -/
theorem bytes_update (hw : 8 * b ≤ w) (hoff : off + n ≤ b) (hb : 0 < b) (mem : ℕ → BitVec w) (word : ℕ) :
    bytes b (Function.update mem word (setBytes off f n (mem word))) a =
      if word * b + off ≤ a ∧ a < word * b + off + n then f (a - (word * b + off)) else bytes b mem a := by
  have hsplit := Nat.div_add_mod' a b
  have hmod := Nat.mod_lt a hb
  have hfit : 8 * (a % b + 1) ≤ w := by omega
  rw [bytes, Function.update_apply]
  by_cases hword : a / b = word
  · subst hword
    rw [if_pos rfl, byte_setBytes hfit]
    have hsub : a - (a / b * b + off) = a % b - off := by omega
    rw [hsub]
    exact if_congr (by omega) rfl rfl
  · rw [if_neg hword, if_neg, bytes]
    rintro ⟨hlow, hhigh⟩
    have hdiv : a / b = word := by
      rw [Nat.div_eq_iff hb]
      omega
    exact hword hdiv

end words

end WordMemory
