import TensorAccel.Driver.CoprocDriver

/-! # Regions of the queue slots

    What a command reads and stores, for a driver that gives each command in
    flight a slot of its own: the operands that it puts there (`Operands`), the
    rows that the datapath leaves there (`Rows`), and what a span of stores into
    one region does to the others. -/

open StreamCtrl CmdQueueRegs Span

namespace CoprocDriver

variable {L : Type _} {A : ℕ} {b : Buffers L A}

theorem slot_ne {i j : ℕ} (h : i < j) (hnear : j < i + 4) : slot i ≠ slot j := by
  unfold slot
  rw [Ne, Fin.ext_iff, Fin.val_ofNat, Fin.val_ofNat]
  omega

/-! ## Addresses -/

theorem toNat_base (b : Buffers L A) (q : Part) (t : Fin 4) :
    (BitVec.ofNat A (b.base q t)).toNat = b.base q t := by
  have hfits := b.fits q t
  have hpos : 0 < q.size := by cases q <;> decide
  rw [BitVec.toNat_ofNat]
  exact Nat.mod_eq_of_lt (by omega)

/-- A port register keeps an address that software stores to it. -/
theorem setWidth_base (b : Buffers L A) (q : Part) (t : Fin 4) :
    (BitVec.ofNat 64 (b.base q t)).setWidth A = BitVec.ofNat A (b.base q t) :=
  BitVec.setWidth_ofNat_of_le b.port_width _

theorem base_ne (b : Buffers L A) (q : Part) {t u : Fin 4} (h : t ≠ u) :
    BitVec.ofNat A (b.base q t) ≠ BitVec.ofNat A (b.base q u) := by
  intro heq
  have hbase : b.base q t = b.base q u := by
    rw [← toNat_base b q t, heq, toNat_base]
  have hloc : b.loc q t 0 = b.loc q u 0 := by
    cases q <;> simp only [Layout.base] at hbase <;> simp only [Layout.loc, hbase]
  have hpos : 0 < q.size := by cases q <;> decide
  exact h (b.apart hpos hpos hloc).2.1

/-- The command of a slot. -/
def slotCmd (b : Layout L) (A : ℕ) (t : Fin 4) (rows : ℕ) : Cmd A where
  wBase := BitVec.ofNat A (b.wBase t)
  aBase := BitVec.ofNat A (b.aBase t)
  cBase := BitVec.ofNat A (b.cBase t)
  mRows := BitVec.ofNat 32 rows

theorem toNat_slotRows (b : Layout L) (A : ℕ) (t : Fin 4) {rows : ℕ} (h : rows ≤ 1024) :
    (slotCmd b A t rows).mRows.toNat = rows := by
  unfold slotCmd
  rw [BitVec.toNat_ofNat]
  exact Nat.mod_eq_of_lt (by omega)

/-! ## Holding registers -/

/-- The holding registers written before `r` agree with command `c`. -/
def HeldUpTo (c held : Cmd A) : Reg → Prop
  | .w => True
  | .a => held.wBase = c.wBase
  | .c => held.wBase = c.wBase ∧ held.aBase = c.aBase
  | .m => held.wBase = c.wBase ∧ held.aBase = c.aBase ∧ held.cBase = c.cBase

/-- The same with `r` itself. -/
def HeldNext (c held : Cmd A) : Reg → Prop
  | .w => HeldUpTo c held .a
  | .a => HeldUpTo c held .c
  | .c => HeldUpTo c held .m
  | .m => held = c

theorem HeldUpTo.store {held : Cmd A} {t : Fin 4} {rows : ℕ} {r : Reg}
    (h : HeldUpTo (slotCmd b.toLayout A t rows) held r) :
    HeldNext (slotCmd b.toLayout A t rows) (r.set (slotValue b.toLayout t rows r) held) r := by
  cases r with
  | w => exact setWidth_base b .w t
  | a => exact ⟨h, setWidth_base b .a t⟩
  | c => exact ⟨h.1, h.2, setWidth_base b .c t⟩
  | m =>
    obtain ⟨hw, ha, hc⟩ := h
    have hm : (BitVec.ofNat 64 rows).setWidth 32 = BitVec.ofNat 32 rows :=
      BitVec.setWidth_ofNat_of_le (by decide) _
    simp only [HeldNext, Reg.set, slotValue, hm, hw, ha, hc]
    rfl

/-! ## Frames -/

section frames
variable {mem mem' : L → BitVec 8} {q : Part} {t : Fin 4}

/-- Only region `q` of slot `t` may differ. -/
def SameExcept (b : Buffers L A) (q : Part) (t : Fin 4) (mem mem' : L → BitVec 8) : Prop :=
  ∀ r s k, k < r.size → r ≠ q ∨ s ≠ t → mem' (b.loc r s k) = mem (b.loc r s k)

/-- A span of stores inside a region. -/
theorem sameExcept_writeSpan [DecidableEq L] {g : ℕ → ℕ} {n : ℕ} (f : ℕ → BitVec 8)
    (mem : L → BitVec 8) (hg : ∀ j < n, g j < q.size) :
    SameExcept b q t mem (writeSpan (fun j => b.loc q t (g j)) f n mem) := by
  intro r s k hk hne
  apply writeSpan_frame
  intro j hj heq
  obtain ⟨hq, ht, -⟩ := b.apart (hg j hj) hk heq
  rcases hne with h | h
  · exact h hq.symm
  · exact h ht.symm

theorem writeSpan_region [DecidableEq L] {n k : ℕ} (f : ℕ → BitVec 8) (mem : L → BitVec 8)
    (hn : n ≤ q.size) (hk : k < n) : writeSpan (b.loc q t) f n mem (b.loc q t k) = f k :=
  writeSpan_read mem (fun _ hj heq => (b.apart (hj.trans_le hn) (hk.trans_le hn) heq).2.2) hk

end frames

/-! ## Operands and rows -/

/-- Weight bytes `w` and the activation bytes `a` of `rows` rows lie in a slot. -/
structure Operands (b : Buffers L A) (t : Fin 4) (rows : ℕ) (w a : ℕ → BitVec 8) (mem : L → BitVec 8) :
    Prop where
  w : ∀ k < 16, mem (b.loc .w t k) = w k
  a : ∀ k < rows * 4, mem (b.loc .a t k) = a k

/-- Row `k` of the product of such operands. -/
def slotRow (w a : ℕ → BitVec 8) (k : ℕ) : Lanes32 4 :=
  productRow (fun r c => w (4 * r + c)) (fun j => a (4 * k + j))

/-- The first `r` rows of a result lie in a slot. -/
def Rows (b : Buffers L A) (t : Fin 4) (r : ℕ) (row : ℕ → Lanes32 4) (mem : L → BitVec 8) : Prop :=
  ∀ k < r, ∀ n < 16, mem (b.loc .c t (16 * k + n)) = byteOf (row k (laneOf n)) (n % 4)

section contents
variable {mem mem' : L → BitVec 8} {q : Part} {t u : Fin 4} {rows r : ℕ} {w a : ℕ → BitVec 8}
  {row : ℕ → Lanes32 4}

theorem Operands.frame (h : Operands b t rows w a mem) (hrows : rows ≤ 1024)
    (hsame : SameExcept b q u mem mem') (hne : q = .c ∨ t ≠ u) : Operands b t rows w a mem' := by
  constructor
  · intro k hk
    rw [hsame .w t k hk, h.w k hk]
    rcases hne with rfl | hne
    · exact .inl (by decide)
    · exact .inr hne
  · intro k hk
    rw [hsame .a t k (by simp only [Part.size]; omega), h.a k hk]
    rcases hne with rfl | hne
    · exact .inl (by decide)
    · exact .inr hne

theorem Rows.frame (h : Rows b t r row mem) (hr : r ≤ 1024) (hsame : SameExcept b q u mem mem')
    (hne : q ≠ .c ∨ t ≠ u) : Rows b t r row mem' := by
  intro k hk n hn
  rw [hsame .c t (16 * k + n) (by simp only [Part.size]; omega), h k hk n hn]
  exact hne.imp_left Ne.symm

theorem Rows.congr {row' : ℕ → Lanes32 4} (h : Rows b t r row mem) (hrow : ∀ k < r, row k = row' k) :
    Rows b t r row' mem := by
  intro k hk n hn
  rw [h k hk n hn, hrow k hk]

/-- The datapath reads the operands of its command. -/
theorem Operands.productRow_eq (h : Operands b t rows w a mem) {k : ℕ} (hk : k < rows) :
    productRow (weightAt b.toLayout mem (slotCmd b.toLayout A t rows))
      (actAt b.toLayout mem (slotCmd b.toLayout A t rows) k) = slotRow w a k := by
  have hw : (slotCmd b.toLayout A t rows).wBase.toNat = b.wBase t := toNat_base b .w t
  have ha : (slotCmd b.toLayout A t rows).aBase.toNat = b.aBase t := toNat_base b .a t
  unfold slotRow
  congr 1
  · funext i j
    have hi := i.isLt
    have hj := j.isLt
    unfold weightAt
    rw [hw]
    exact h.w (4 * i + j) (by omega)
  · funext j
    have hj := j.isLt
    unfold actAt
    rw [ha]
    exact h.a (4 * k + j) (by omega)

section store
variable [DecidableEq L]

theorem Operands.storeResult_eq (h : Operands b t rows w a mem) {k : ℕ} (hk : k < rows) :
    storeResult b.toLayout (slotCmd b.toLayout A t rows) k mem =
      writeSpan (fun n => b.loc .c t (16 * k + n))
        (fun n => byteOf (slotRow w a k (laneOf n)) (n % 4)) 16 mem := by
  have hbase : (slotCmd b.toLayout A t rows).cBase.toNat = b.cBase t := toNat_base b .c t
  unfold storeResult
  rw [hbase, h.productRow_eq hk]
  rfl

theorem Operands.storeResult_sameExcept (h : Operands b t rows w a mem) (hrows : rows ≤ 1024) {k : ℕ}
    (hk : k < rows) :
    SameExcept b .c t mem (storeResult b.toLayout (slotCmd b.toLayout A t rows) k mem) := by
  rw [h.storeResult_eq hk]
  exact sameExcept_writeSpan _ _ fun j hj => by simp only [Part.size]; omega

/-- Storing the next row. -/
theorem Rows.next (h : Operands b t rows w a mem) (hrows : rows ≤ 1024) {k : ℕ} (hk : k < rows)
    (hstored : Rows b t k (slotRow w a) mem) :
    Rows b t (k + 1) (slotRow w a) (storeResult b.toLayout (slotCmd b.toLayout A t rows) k mem) := by
  have hinj : ∀ {k' n n' : ℕ}, k' < rows → n < 16 → n' < 16 →
      b.loc .c t (16 * k + n) = b.loc .c t (16 * k' + n') → 16 * k + n = 16 * k' + n' := by
    intro k' n n' hk' hn hn' heq
    exact (b.apart (by simp only [Part.size]; omega) (by simp only [Part.size]; omega) heq).2.2
  intro k' hk' n hn
  rw [h.storeResult_eq hk]
  rcases Nat.lt_succ_iff_lt_or_eq.mp hk' with hlt | rfl
  · -- an earlier row
    rw [writeSpan_frame mem fun j hj heq => ?_, hstored k' hlt n hn]
    have := hinj (by omega) hj hn heq
    omega
  · apply writeSpan_read (f := fun n => byteOf (slotRow w a k' (laneOf n)) (n % 4))
      mem (fun j hj heq => ?_) hn
    have := hinj hk hj hn heq
    omega

end store

/-- A result word holds what the datapath stored. -/
theorem Rows.ctBuf (h : Rows b t r row mem) {k j : ℕ} (hk : k < r) (hj : j < 4) :
    ctBuf b.toLayout mem t (k * 4 + j) = row k (Fin.ofNat 4 j) := by
  rw [← word32_byteOf (row k (Fin.ofNat 4 j))]
  have hbyte : ∀ n < 4, mem (b.wr (b.cBase t + (4 * (k * 4 + j) + n))) =
      byteOf (row k (Fin.ofNat 4 j)) n := by
    intro n hn
    have := h k hk (4 * j + n) (by omega)
    rw [laneOf, show (4 * j + n) / 4 = j by omega, show (4 * j + n) % 4 = n by omega] at this
    rw [← this, show 16 * k + (4 * j + n) = 4 * (k * 4 + j) + n by omega]
    rfl
  unfold CoprocDriver.ctBuf word32
  dsimp only
  rw [hbyte 0 (by decide), hbyte 1 (by decide), hbyte 2 (by decide), hbyte 3 (by decide)]

end contents

/-! ## Regions of a command -/

/-- Location `l` lies in region `q` of command `c`, as long as its rows make it. -/
def Within (b : Layout L) (q : Part) (c : Cmd A) (l : L) : Prop :=
  match q with
  | .w => ∃ k < 16, l = b.rd (c.wBase.toNat + k)
  | .a => ∃ k < c.mRows.toNat * 4, l = b.rd (c.aBase.toNat + k)
  | .c => ∃ k < c.mRows.toNat * 16, l = b.wr (c.cBase.toNat + k)

theorem within_slot {q : Part} {t : Fin 4} {rows : ℕ} {l : L} (hrows : rows ≤ 1024)
    (h : Within b.toLayout q (slotCmd b.toLayout A t rows) l) : ∃ k < q.size, l = b.loc q t k := by
  cases q with
  | w =>
    obtain ⟨k, hk, rfl⟩ := h
    exact ⟨k, hk, congrArg (fun n => b.rd (n + k)) (toNat_base b .w t)⟩
  | a =>
    obtain ⟨k, hk, rfl⟩ := h
    rw [toNat_slotRows _ _ _ hrows] at hk
    exact ⟨k, by simp only [Part.size]; omega, congrArg (fun n => b.rd (n + k)) (toNat_base b .a t)⟩
  | c =>
    obtain ⟨k, hk, rfl⟩ := h
    rw [toNat_slotRows _ _ _ hrows] at hk
    exact ⟨k, by simp only [Part.size]; omega, congrArg (fun n => b.wr (n + k)) (toNat_base b .c t)⟩

/-! ## Commands in flight -/

/-- A bound on the steps of the datapath that the commands in flight are worth. -/
def datapathWork (running : Option (Cmd A × ℕ)) (waiting : List (Cmd A)) : ℕ :=
  (waiting.map fun c => 2 + c.mRows.toNat).sum +
    match running with
    | some (c, k) => 1 + (c.mRows.toNat - k)
    | none => 0

section work
variable {c : Cmd A} {k : ℕ} {q : List (Cmd A)}

theorem datapathWork_start : datapathWork (some (c, 0)) q < datapathWork none (c :: q) := by
  simp only [datapathWork, List.map_cons, List.sum_cons]
  omega

theorem datapathWork_store (hk : k < c.mRows.toNat) :
    datapathWork (some (c, k + 1)) q < datapathWork (some (c, k)) q := by
  simp only [datapathWork]
  omega

theorem datapathWork_complete : datapathWork none q < datapathWork (some (c, k)) q := by
  simp only [datapathWork]
  omega

theorem datapathWork_enqueue (running : Option (Cmd A × ℕ)) :
    datapathWork running (q ++ [c]) = datapathWork running q + (2 + c.mRows.toNat) := by
  simp only [datapathWork, List.map_append, List.sum_append, List.map_cons, List.map_nil, List.sum_cons,
    List.sum_nil]
  omega

end work

end CoprocDriver
