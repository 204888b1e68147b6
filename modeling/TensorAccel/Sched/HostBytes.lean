import TensorAccel.Sched.CoprocBackend
import TensorAccel.Sched.CoprocRunner

/-! # The memories of the circuit as bytes

    The circuit reads and writes words of lanes, the scheduler puts bytes and reads
    bytes.  On the bytes a command is the loop of row stores that the models of the
    drivers take a datapath for. -/

open StreamCtrl CmdQueueRegs StreamAxi CoprocAxi Span WordMemory CoprocDriver CoprocBackend

namespace CoprocRunner

/-- Byte `a` of `u_ram_rd` on the left, and of `u_ram_wr` on the right. -/
def hostBytes (m : Mems 4) : ℕ ⊕ ℕ → BitVec 8
  | .inl a => bytes 4 m.1 a
  | .inr a => bytes 16 m.2 a

section host
variable {m : Mems 4} {addr : BitVec 32} {data : List (BitVec 8)} {n : ℕ}

/-- `MEMW RD` is a span of stores. -/
theorem hostBytes_write : hostBytes (writeHost .rd addr data m) =
    writeSpan (fun k => .inl (addr.toNat + k)) (fun k => data.getD k 0) data.length (hostBytes m) := by
  funext l
  cases l with
  | inl a =>
    have hwrite : hostBytes (writeHost .rd addr data m) (.inl a) =
        if addr.toNat ≤ a ∧ a < addr.toNat + data.length then data.getD (a - addr.toNat) 0 else bytes 4 m.1 a :=
      bytes_memWrite (by decide)
    rw [hwrite]
    by_cases hin : addr.toNat ≤ a ∧ a < addr.toNat + data.length
    · obtain ⟨k, rfl⟩ := Nat.exists_eq_add_of_le hin.1
      rw [if_pos hin, Nat.add_sub_cancel_left]
      symm
      apply writeSpan_read
      · intro j _ heq
        exact Nat.add_left_cancel (Sum.inl.inj heq)
      · omega
    · rw [if_neg hin, writeSpan_frame]
      · rfl
      · intro k hk heq
        have hk' := Sum.inl.inj heq
        omega
  | inr a =>
    rw [writeSpan_frame]
    · rfl
    · intro k _ heq
      cases heq

/-- `MEMR WR` returns bytes of the write memory. -/
theorem readHost_wr : readHost .wr addr n m = (List.range n).map fun k => hostBytes m (.inr (addr.toNat + k)) :=
  memRead_eq

end host

/-! ## Commands -/

/-- Lane `j` of a word of the read memory is a byte of it. -/
theorem unpack_eq_byte (v : BitVec (4 * 8)) (j : Fin 4) : unpack 8 v j = byte v j := by
  rw [unpack, byte, Nat.mul_comm j.val]

/-- Four lanes make 16 bytes. -/
theorem byte_pack (x : Lanes32 4) {k : ℕ} (hk : k < 16) :
    byte (pack 32 x) k = byteOf (x (laneOf k)) (k % 4) := by
  apply BitVec.eq_of_getLsbD_eq
  intro b hb
  have hlane : (8 * k + b) / 32 = k / 4 := by omega
  have hbit : (8 * k + b) % 32 = 8 * (k % 4) + b := by omega
  have hfour : k / 4 < 4 := by omega
  have hfin : (⟨k / 4, hfour⟩ : Fin 4) = laneOf k := Fin.ext (Nat.mod_eq_of_lt hfour).symm
  rw [byte, byteOf, BitVec.getLsbD_extractLsb', BitVec.getLsbD_extractLsb', getLsbD_pack _ (by omega), packBit]
  simp only [hlane, hbit, hfour, hfin, dite_true]

/-- The bases of a command are those of words, and it stays in the write memory. -/
structure Aligned (c : Cmd 32) : Prop where
  wBase : c.wBase.toNat % 4 = 0
  aBase : c.aBase.toNat % 4 = 0
  cBase : c.cBase.toNat % 16 = 0
  rows : c.cBase.toNat + c.mRows.toNat * 16 ≤ depth .wr * 16

section commands
variable {c : Cmd 32} {m : Mems 4} {n : ℕ}

theorem rd_word (a : BitVec 32) : wordOf (4 * 8) a = a.toNat / 4 := wordOf_eq (rd_shift four_pow)

theorem wr_word (a : BitVec 32) : wordOf (4 * 32) a = a.toNat / 16 := wordOf_eq (wr_shift four_pow)

/-- A lane of the word `k` words behind an aligned base. -/
theorem byte_word {base k : ℕ} (hbase : base % 4 = 0) (mem : ℕ → BitVec (4 * 8)) (j : Fin 4) :
    byte (mem (base / 4 + k)) j = bytes 4 mem (base + (4 * k + j)) := by
  have hj := j.isLt
  have hdiv : (base + (4 * k + j)) / 4 = base / 4 + k := by omega
  have hmod : (base + (4 * k + j)) % 4 = j := by omega
  rw [bytes, hdiv, hmod]

/-- The row that the circuit computes is the one that the drivers expect. -/
theorem resultRow_eq (h : Aligned c) (wr : ℕ → BitVec (4 * 32)) (k : ℕ) :
    resultRow (inputWord m.1 c) k =
      productRow (weightAt hostLayout (hostBytes (m.1, wr)) c) (actAt hostLayout (hostBytes (m.1, wr)) c k) := by
  rw [resultRow]
  congr 1
  · funext i j
    rw [inputWord, if_pos i.isLt, rd_word, unpack_eq_byte, byte_word h.wBase]
    rfl
  · funext j
    rw [inputWord, if_neg (by omega), rd_word, unpack_eq_byte, Nat.add_sub_cancel_left, byte_word h.aBase]
    rfl

/-- One more row in words is one more row in bytes. -/
theorem hostBytes_row (h : Aligned c) (hn : n < c.mRows.toNat) :
    hostBytes (m.1, storeRows params.sizes m.1 c (n + 1) m.2) =
      storeResult hostLayout c n (hostBytes (m.1, storeRows params.sizes m.1 c n m.2)) := by
  have hc := h.cBase
  have hrows := h.rows
  rw [storeResult, ← resultRow_eq h]
  funext l
  cases l with
  | inl a =>
    rw [writeSpan_frame]
    · rfl
    · intro k _ heq
      cases heq
  | inr a =>
    have hwords : ∀ n, storeRows params.sizes m.1 c n m.2 (a / 16) =
        if c.cBase.toNat / 16 ≤ a / 16 ∧ a / 16 < c.cBase.toNat / 16 + n ∧ a / 16 < depth .wr then
          pack 32 (resultRow (inputWord m.1 c) (a / 16 - c.cBase.toNat / 16)) else m.2 (a / 16) := by
      intro n
      rw [storeRows, wr_word]
      rfl
    by_cases hrow : c.cBase.toNat + 16 * n ≤ a ∧ a < c.cBase.toNat + 16 * n + 16
    · obtain ⟨k, hk⟩ := Nat.exists_eq_add_of_le hrow.1
      have ha : a = c.cBase.toNat + (16 * n + k) := by omega
      have hword : a / 16 - c.cBase.toNat / 16 = n := by omega
      have hbyte : a % 16 = k := by omega
      have hread : writeSpan (fun k => hostLayout.wr (c.cBase.toNat + (16 * n + k)))
          (fun k => byteOf (resultRow (inputWord m.1 c) n (laneOf k)) (k % 4)) 16
          (hostBytes (m.1, storeRows params.sizes m.1 c n m.2)) (hostLayout.wr (c.cBase.toNat + (16 * n + k))) =
          byteOf (resultRow (inputWord m.1 c) n (laneOf k)) (k % 4) := by
        apply writeSpan_read
        · intro j _ heq
          have hj := Sum.inr.inj heq
          omega
        · omega
      have hloc : (.inr a : ℕ ⊕ ℕ) = hostLayout.wr (c.cBase.toNat + (16 * n + k)) := congrArg Sum.inr ha
      have hnew : hostBytes (m.1, storeRows params.sizes m.1 c (n + 1) m.2) (.inr a) =
          byte (storeRows params.sizes m.1 c (n + 1) m.2 (a / 16)) (a % 16) := rfl
      rw [hnew, hwords, if_pos (by omega), hword, hbyte, byte_pack _ (by omega), hloc, hread]
    · rw [writeSpan_frame]
      · have hsame : storeRows params.sizes m.1 c (n + 1) m.2 (a / 16) =
            storeRows params.sizes m.1 c n m.2 (a / 16) := by
          rw [hwords, hwords]
          exact if_congr (by omega) rfl rfl
        exact congrArg (fun v => byte v (a % 16)) hsame
      · intro k hk heq
        have hk' : c.cBase.toNat + (16 * n + k) = a := Sum.inr.inj heq
        omega

/-- **A command of the circuit is the loop of row stores of the drivers.** -/
theorem hostBytes_execCmd (h : Aligned c) : hostBytes (AxiSimTop.execCmd params m c) =
    forLoop (storeResult hostLayout c) c.mRows.toNat (hostBytes m) := by
  have hrows : ∀ n ≤ c.mRows.toNat, hostBytes (m.1, storeRows params.sizes m.1 c n m.2) =
      forLoop (storeResult hostLayout c) n (hostBytes m) := by
    intro n hn
    induction n with
    | zero =>
      have hnone : storeRows params.sizes m.1 c 0 m.2 = m.2 := by
        funext w
        rw [storeRows, if_neg (by omega)]
      rw [hnone]
      rfl
    | succ n ih => rw [hostBytes_row h hn, ih (by omega), forLoop]
  exact hrows c.mRows.toNat le_rfl

end commands

/-! ## Slots -/

section slots
variable {t : Fin 4} {rows : ℕ} {w a : ℕ → BitVec 8}

/-- The operands in a slot give the rows of the product in it. -/
theorem rows_exec {mem : ℕ ⊕ ℕ → BitVec 8} (h : Operands hostBuffers t rows w a mem) (hrows : rows ≤ 1024) :
    Rows hostBuffers t rows (slotRow w a) (forLoop (storeResult hostLayout (slotCmd hostLayout 32 t rows)) rows mem) := by
  have hrun : ∀ n ≤ rows,
      Operands hostBuffers t rows w a (forLoop (storeResult hostLayout (slotCmd hostLayout 32 t rows)) n mem) ∧
      Rows hostBuffers t n (slotRow w a) (forLoop (storeResult hostLayout (slotCmd hostLayout 32 t rows)) n mem) := by
    intro n hn
    induction n with
    | zero => exact ⟨h, fun k hk => absurd hk (Nat.not_lt_zero k)⟩
    | succ n ih =>
      obtain ⟨hoperands, hstored⟩ := ih (by omega)
      exact ⟨hoperands.frame hrows (hoperands.storeResult_sameExcept hrows hn) (.inl rfl),
        hstored.next hoperands hrows hn⟩
  exact (hrun rows le_rfl).2

theorem aligned_slot (t : Fin 4) (hrows : rows ≤ 1024) : Aligned (slotCmd hostLayout 32 t rows) := by
  have ht := t.isLt
  have hw : (slotCmd hostLayout 32 t rows).wBase.toNat = wBase t := toNat_base hostBuffers .w t
  have ha : (slotCmd hostLayout 32 t rows).aBase.toNat = aBase t := toNat_base hostBuffers .a t
  have hc : (slotCmd hostLayout 32 t rows).cBase.toNat = cBase t := toNat_base hostBuffers .c t
  constructor
  · rw [hw, wBase]
    omega
  · rw [ha, aBase, wBase]
    omega
  · rw [hc, cBase]
    omega
  · rw [hc, toNat_slotRows _ _ _ hrows, cBase, depth]
    omega

/-- A command of a slot that the circuit can end. -/
theorem fits_slot (t : Fin 4) (hpos : 1 ≤ rows) (hrows : rows ≤ 255) :
    AxiSimTop.Fits 4 255 (slotCmd hostLayout 32 t rows) := by
  have ht := t.isLt
  have hlow : rows ≤ 1024 := by omega
  have hw : (slotCmd hostLayout 32 t rows).wBase.toNat = wBase t := toNat_base hostBuffers .w t
  have ha : (slotCmd hostLayout 32 t rows).aBase.toNat = aBase t := toNat_base hostBuffers .a t
  have hc : (slotCmd hostLayout 32 t rows).cBase.toNat = cBase t := toNat_base hostBuffers .c t
  have hm := toNat_slotRows hostLayout 32 t hlow
  refine ⟨by omega, by omega, ⟨?_, ?_, ?_⟩⟩
  · rw [hw, wBase, DmaBridge.rbytes]
    omega
  · rw [ha, hm, aBase, wBase, DmaBridge.rbytes]
    omega
  · rw [hc, hm, cBase, DmaBridge.wbytes]
    omega

end slots

end CoprocRunner
