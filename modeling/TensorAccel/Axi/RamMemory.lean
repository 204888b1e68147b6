import TensorAccel.Axi.StreamAxiTop
import TensorAccel.Axi.Tally

/-! # What the commands leave in the memories

    The bridge counts bytes and the memories count words.  For a power of two
    lanes the two agree on every burst that does not wrap around the address
    space, and then a command is one step of the write memory: row `k` of the
    product goes to the word `k` places behind the one of `c_base`. -/

open Clocked Burst StreamCtrl DmaBridge

namespace StreamAxi

variable {N A : ℕ}

/-! ## Words and bytes -/

/-- The number of the word that a byte address falls in. -/
def wordOf (DW : ℕ) (a : BitVec A) : ℕ := (a >>> Axi4SimRam.wshift DW).toNat

section words
variable {DW bytes k : ℕ} {a : BitVec A}

theorem wordOf_eq (hbytes : 2 ^ Axi4SimRam.wshift DW = bytes) : wordOf DW a = a.toNat / bytes := by
  rw [wordOf, BitVec.toNat_ushiftRight, Nat.shiftRight_eq_div_pow, hbytes]

/-- Words follow one another as long as the addresses do not wrap. -/
theorem wordOf_add (hbytes : 2 ^ Axi4SimRam.wshift DW = bytes) (hspace : a.toNat + k * bytes < 2 ^ A) :
    wordOf DW (a + BitVec.ofNat A (k * bytes)) = wordOf DW a + k := by
  have hpos : 0 < bytes := hbytes ▸ Nat.two_pow_pos _
  have hsum : (a + BitVec.ofNat A (k * bytes)).toNat = a.toNat + k * bytes := by
    rw [BitVec.toNat_add, BitVec.toNat_ofNat, Nat.add_mod_mod]
    exact Nat.mod_eq_of_lt hspace
  rw [wordOf_eq hbytes, wordOf_eq hbytes, hsum, Nat.add_mul_div_right _ _ hpos]

/-- The memory finds beat `k` of a burst where the monitor expects it. -/
theorem index_beat (hbytes : 2 ^ Axi4SimRam.wshift DW = bytes) (hk : k < 256)
    (hspace : a.toNat + k * bytes < 2 ^ A) :
    Axi4SimRam.index DW a (BitVec.ofNat 8 k) = wordOf DW (a + BitVec.ofNat A (k * bytes)) := by
  have hpos : 0 < bytes := hbytes ▸ Nat.two_pow_pos _
  have hword : wordOf DW a + k < 2 ^ A := by
    have hle := Nat.div_le_self (a.toNat + k * bytes) bytes
    rw [wordOf_eq hbytes, ← Nat.add_mul_div_right _ _ hpos]
    omega
  have hwide : 2 ^ A ≤ 2 ^ max A 8 := Nat.pow_le_pow_right (by decide) (le_max_left A 8)
  have hbyte : (2 : ℕ) ^ 8 ≤ 2 ^ max A 8 := Nat.pow_le_pow_right (by decide) (le_max_right A 8)
  have ha : (a >>> Axi4SimRam.wshift DW).toNat = wordOf DW a := rfl
  rw [wordOf_add hbytes hspace, Axi4SimRam.index, BitVec.toNat_add, BitVec.toNat_setWidth,
    BitVec.toNat_setWidth, BitVec.toNat_ofNat, ha, Nat.mod_eq_of_lt (show k < 2 ^ 8 by omega),
    Nat.mod_eq_of_lt (show wordOf DW a < 2 ^ max A 8 by omega),
    Nat.mod_eq_of_lt (show k < 2 ^ max A 8 by omega), Nat.mod_eq_of_lt (by omega)]

/-- For a power of two lanes the shifts of the memories are those of the word sizes. -/
theorem rd_shift (hpow : ∃ e, N = 2 ^ e) : 2 ^ Axi4SimRam.wshift (N * 8) = rbytes N := by
  obtain ⟨e, rfl⟩ := hpow
  rw [Axi4SimRam.wshift, Axi4SimRam.wbytes, Nat.mul_div_cancel _ (by decide), Nat.clog_pow 2 e (by decide)]
  rfl

theorem wr_shift (hpow : ∃ e, N = 2 ^ e) : 2 ^ Axi4SimRam.wshift (N * 32) = wbytes N := by
  obtain ⟨e, rfl⟩ := hpow
  have hbytes : 2 ^ e * 32 / 8 = 2 ^ (e + 2) := by
    rw [Nat.pow_add]
    omega
  rw [Axi4SimRam.wshift, Axi4SimRam.wbytes, hbytes, Nat.clog_pow 2 (e + 2) (by decide), Nat.pow_add]
  rfl

end words

/-! ## Commands on words -/

/-- The two memories behind the ports of the bridge. -/
def memory (z : Sizes) : Memory N A (Mems N) where
  load m a := unpack 8 (m.1 (wordOf (N * 8) a))
  store m a x strb :=
    let w := wordOf (N * 32) a
    (m.1, if w < z.wrDepth then
      Function.update m.2 w (Axi4SimRam.strobed (pack 32 x) (strb.setWidth (N * 32 / 8)) (m.2 w)) else m.2)

/-- The word that command `c` reads as its word `j`: first the weight rows, then the
activation rows. -/
def inputWord (rd : ℕ → BitVec (N * 8)) (c : Cmd A) (j : ℕ) : Lanes8 N :=
  unpack 8 (rd (if j < N then wordOf (N * 8) c.wBase + j else wordOf (N * 8) c.aBase + (j - N)))

/-- The write memory after the first `n` rows of command `c`; there are no words from
`WR_DEPTH` on. -/
def storeRows (z : Sizes) (rd : ℕ → BitVec (N * 8)) (c : Cmd A) (n : ℕ) (wr : ℕ → BitVec (N * 32)) :
    ℕ → BitVec (N * 32) := fun w =>
  let first := wordOf (N * 32) c.cBase
  if first ≤ w ∧ w < first + n ∧ w < z.wrDepth then
    pack 32 (resultRow (inputWord rd c) (w - first)) else wr w

/-- The write memory after a command. -/
def execWords (z : Sizes) (rd : ℕ → BitVec (N * 8)) (wr : ℕ → BitVec (N * 32)) (c : Cmd A) :
    ℕ → BitVec (N * 32) := storeRows z rd c c.mRows.toNat wr

/-- The regions of a command do not wrap around the address space. -/
structure InSpace (N : ℕ) (c : Cmd A) : Prop where
  weights : c.wBase.toNat + N * rbytes N ≤ 2 ^ A
  acts : c.aBase.toNat + c.mRows.toNat * rbytes N ≤ 2 ^ A
  rows : c.cBase.toNat + c.mRows.toNat * wbytes N ≤ 2 ^ A

instance (c : Cmd A) : Decidable (InSpace N c) :=
  decidable_of_iff (_ ∧ _ ∧ _) ⟨fun h => ⟨h.1, h.2.1, h.2.2⟩, fun h => ⟨h.1, h.2, h.3⟩⟩

section commands
variable {z : Sizes} {c : Cmd A} {m : Mems N} {n k j : ℕ}

/-- Row `k` of a region of `len` rows does not wrap. -/
theorem row_space {base len bytes : ℕ} (hpos : 0 < bytes) (h : base + len * bytes ≤ 2 ^ A) (hk : k < len) :
    base + k * bytes < 2 ^ A := by
  have hle : (k + 1) * bytes ≤ len * bytes := Nat.mul_le_mul_right bytes hk
  rw [Nat.succ_mul] at hle
  omega

/-- With all strobes set a beat replaces the word. -/
theorem strobed_all (x word : BitVec (N * 32)) :
    Axi4SimRam.strobed x ((WrEngine.wstrb N).setWidth (N * 32 / 8)) word = x := by
  apply BitVec.eq_of_getLsbD_eq
  intro b hb
  have hbyte : b / 8 < N * 32 / 8 := by omega
  have hlane : b / 8 < N * 4 := by omega
  rw [Axi4SimRam.getLsbD_strobed _ _ _ hb, if_pos]
  simp [WrEngine.wstrb, hbyte, hlane]

theorem store_row (a : BitVec A) (x : Lanes32 N) : (memory z).store m a x (WrEngine.wstrb N) =
    (m.1, if wordOf (N * 32) a < z.wrDepth then
      Function.update m.2 (wordOf (N * 32) a) (pack 32 x) else m.2) := by
  simp only [memory, strobed_all]

theorem words_eq (hpow : ∃ e, N = 2 ^ e) (h : InSpace N c) (hj : j < N + c.mRows.toNat) :
    (memory z).words m c j = inputWord m.1 c j := by
  have hN : 0 < N := by
    obtain ⟨e, rfl⟩ := hpow
    exact Nat.two_pow_pos e
  simp only [Memory.words, memory, inputWord, readAddr]
  by_cases hn : j < N
  · rw [if_pos hn, if_pos hn, wordOf_add (rd_shift hpow) (row_space hN h.weights hn)]
  · rw [if_neg hn, if_neg hn, wordOf_add (rd_shift hpow) (row_space hN h.acts (by omega))]

/-- One more row. -/
theorem storeRows_succ (hpow : ∃ e, N = 2 ^ e) (h : InSpace N c) (hn : n < c.mRows.toNat) :
    (memory z).store (m.1, storeRows z m.1 c n m.2) (c.cBase + BitVec.ofNat A (n * wbytes N))
      (resultRow ((memory z).words m c) n) (WrEngine.wstrb N) = (m.1, storeRows z m.1 c (n + 1) m.2) := by
  have hN : 0 < N := by
    obtain ⟨e, rfl⟩ := hpow
    exact Nat.two_pow_pos e
  have hbytes : 0 < wbytes N := Nat.mul_pos hN (by decide)
  have hword := wordOf_add (wr_shift hpow) (row_space hbytes h.rows hn)
  have hrow : resultRow ((memory z).words m c) n = resultRow (inputWord m.1 c) n := by
    have hweights : (fun i : Fin N => (memory z).words m c i.val) = fun i : Fin N => inputWord m.1 c i.val := by
      funext i
      exact words_eq hpow h (by omega)
    rw [resultRow, resultRow, hweights, words_eq hpow h (by omega)]
  rw [store_row, hword, hrow]
  congr 1
  funext w
  by_cases hw : w = wordOf (N * 32) c.cBase + n
  · subst hw
    by_cases hdepth : wordOf (N * 32) c.cBase + n < z.wrDepth
    · simp [storeRows, hdepth]
    · simp [storeRows, hdepth]
  · have hiff : w < wordOf (N * 32) c.cBase + (n + 1) ↔ w < wordOf (N * 32) c.cBase + n := by omega
    have hkeep : storeRows z m.1 c (n + 1) m.2 w = storeRows z m.1 c n m.2 w := by
      simp only [storeRows, hiff]
    rw [hkeep]
    split
    · rw [Function.update_of_ne hw]
    · rfl

/-- A command on the memories of the bridge is a command on words. -/
theorem exec_eq (hpow : ∃ e, N = 2 ^ e) (h : InSpace N c) :
    (memory z).exec m c = (m.1, execWords z m.1 m.2 c) := by
  have hrows : ∀ n ≤ c.mRows.toNat, (memory z).writeAll m ((writeBeats c ((List.range c.mRows.toNat).map
      (resultRow ((memory z).words m c)))).take n) = (m.1, storeRows z m.1 c n m.2) := by
    intro n hn
    induction n with
    | zero =>
      refine Prod.ext rfl (funext fun w => ?_)
      simp only [List.take_zero, Memory.writeAll, List.foldl_nil, storeRows]
      rw [if_neg (by omega)]
    | succ n ih =>
      have hrow : ((List.range c.mRows.toNat).map (resultRow ((memory z).words m c)))[n]? =
          some (resultRow ((memory z).words m c) n) := by
        rw [List.getElem?_map, List.getElem?_range (show n < c.mRows.toNat by omega)]
        rfl
      rw [take_writeBeats_succ c hrow, Memory.writeAll_append, ih (by omega)]
      exact storeRows_succ hpow h (by omega)
  have hall := hrows c.mRows.toNat le_rfl
  rw [List.take_of_length_le (by simp [writeBeats])] at hall
  exact hall

end commands

/-! ## Beats on words -/

section beats
variable {z : Sizes} {c : Cmd A} {i : TopIn N A} {s : Top N A}

/-- The bytes of a burst within a region that does not wrap. -/
theorem burst_space {bytes n k : ℕ} {region b : Req A} (h : Req.RowsOf bytes region b n) (hpos : 0 < bytes)
    (hspace : region.addr.toNat + region.len * bytes ≤ 2 ^ A) (hk : k < b.len) :
    b.addr.toNat + k * bytes < 2 ^ A := by
  have hwithin := h.within
  have hlen := h.pos
  have hfirst := row_space hpos hspace (show n < region.len by omega)
  have hlast := row_space hpos hspace (show n + k < region.len by omega)
  rw [Nat.add_mul] at hlast
  rw [h.addr, BitVec.toNat_add, BitVec.toNat_ofNat, Nat.add_mod_mod, Nat.mod_eq_of_lt hfirst]
  omega

/-- A read beat carries the word that its address asks for. -/
theorem read_beat {m : Mems N} (hpow : ∃ e, N = 2 ^ e) (hl : Linked s)
    (hdata : RdData m.1 s.uRamRd.rd s.bridge.bus.rd) (hports : Ports z.depths c s.bridge)
    (hspace : InSpace N c) (hpush : s.bridge.dma.rd.push (s.dmaIn i) = true) :
    (s.bridge.bus.rd.beatAddr (rbytes N)).map ((memory z).load m) = some (s.dmaIn i).rdata := by
  have hN : 0 < N := by
    obtain ⟨e, rfl⟩ := hpow
    exact Nat.two_pow_pos e
  rw [RdEngine.push, Bool.and_eq_true] at hpush
  have hvalid : s.uRamRd.rd.rvalid = true := hpush.1
  have hpending := (hl.rd.legal hvalid).1
  cases hports.reading with
  | rest _ hr => simp [hr] at hpush
  | ar _ _ hp => exact absurd (by rw [hp]; rfl) hpending
  | data b k n _ _ hp hk _ hb =>
    obtain ⟨region, hmem, row, -, hrows⟩ := hb.rowsOf
    have hregion : region.addr.toNat + region.len * rbytes N ≤ 2 ^ A := by
      simp only [List.mem_cons, List.not_mem_nil, or_false] at hmem
      rcases hmem with rfl | rfl
      · exact hspace.weights
      · exact hspace.acts
    have hbyte := burst_space hrows hN hregion hk
    have hshort := hb.short
    have hword : (s.dmaIn i).rdata = unpack 8 s.uRamRd.rd.rdata := rfl
    rw [hp, Port.serving_beatAddr, Option.map_some, hword, hdata hvalid b k hp,
      index_beat (rd_shift hpow) (by omega) hbyte]
    rfl

/-- A cycle stores its write beat, if there is one. -/
theorem mems_step (hpow : ∃ e, N = 2 ^ e) (hl : Linked s) (hports : Ports z.depths c s.bridge)
    (hspace : s.bridge.dma.busy = true → InSpace N c) (hr : i.rst = false) :
    (s.step z i).mems = (memory z).writeAll (i.backdoor s.mems) (s.bridge.wBeat (s.dmaIn i)).toList := by
  have hN : 0 < N := by
    obtain ⟨e, rfl⟩ := hpow
    exact Nat.two_pow_pos e
  let ram : Axi4SimRam.SimRam (N * 32) A 4 := { s.uRamWr with mem := (i.backdoor s.mems).2 }
  have hmem : (s.step z i).mems = ((i.backdoor s.mems).1, ram.memStep z.wrDepth (s.wrIn i)) :=
    Prod.ext (Top.step_rd_mem z i s) rfl
  rw [hmem, wBeat_toList]
  cases hsent : s.bridge.dma.wr.sent (s.dmaIn i) with
  | false =>
    have hnone : ram.wWord (s.wrIn i) = none := by
      have hno : ((s.wrIn i).wvalid && s.uRamWr.wr.wready (s.wrGates i)) = false := hsent
      have hif : ram.wWord (s.wrIn i) = if !(s.wrIn i).rst && ((s.wrIn i).wvalid &&
          s.uRamWr.wr.wready (s.wrGates i)) then
            some (Axi4SimRam.index (N * 32) s.uRamWr.wr.awAddr s.uRamWr.wr.awBeat) else none := rfl
      rw [hif, hno, Bool.and_false]
      rfl
    rw [Axi4SimRam.SimRam.memStep, hnone]
    rfl
  | true =>
    have hyes : ((s.wrIn i).wvalid && s.uRamWr.wr.wready (s.wrGates i)) = true := hsent
    have hsplit := hyes
    rw [Bool.and_eq_true] at hsplit
    have hvalid : s.bridge.dma.wr.wvalid = true := hsplit.1
    cases hports.sending with
    | idle _ _ hw => simp [hw] at hvalid
    | aw _ _ hw => simp [hw] at hvalid
    | bresp _ _ hw => simp [hw] at hvalid
    | data b k hst _ _ hp _ _ hk _ h16 _ haddr hle =>
      have hbusy := hports.busy_of_sending (by rw [hst]; simp)
      have hrows : Req.RowsOf (wbytes N) (resultRegion c) b s.bridge.dma.wr.wrIssued.toNat := by
        rw [(hports.latched hbusy).2] at hle
        exact ⟨by omega, hle, haddr⟩
      have hbyte := burst_space hrows (Nat.mul_pos hN (by decide)) (hspace hbusy).rows hk
      -- the memory has accepted the same burst and counts the same beats
      obtain ⟨haw, hbeat⟩ : s.uRamWr.wr.awAddr = b.addr ∧ s.uRamWr.wr.awBeat.toNat = k := by
        cases hl.wr with
        | rest _ _ hp' => simp [hp, Port.idle, Port.serving] at hp'
        | resp _ _ hp' => simp [hp, Port.idle, Port.serving] at hp'
        | data b' k' hp' _ _ _ _ haddr' _ hbeat' =>
          obtain ⟨rfl, rfl⟩ : b = b' ∧ k = k' := by
            rw [hp] at hp'
            simpa [Port.serving] using hp'
          exact ⟨haddr', hbeat'⟩
      have hcount : s.uRamWr.wr.awBeat = BitVec.ofNat 8 k := by
        rw [← hbeat, BitVec.ofNat_toNat, BitVec.setWidth_eq]
      have hsome : ram.wWord (s.wrIn i) =
          some (wordOf (N * 32) (b.addr + BitVec.ofNat A (k * wbytes N))) := by
        have hword : ram.wWord (s.wrIn i) =
            if !(s.wrIn i).rst && ((s.wrIn i).wvalid && s.uRamWr.wr.wready (s.wrGates i)) then
              some (Axi4SimRam.index (N * 32) s.uRamWr.wr.awAddr s.uRamWr.wr.awBeat) else none := rfl
        have hrst : (s.wrIn i).rst = false := hr
        rw [hword, hyes, hrst, haw, hcount, index_beat (wr_shift hpow) (by omega) hbyte]
        rfl
      rw [Axi4SimRam.SimRam.memStep, hsome, hp, Port.serving_beatAddr, if_pos rfl]
      have hstore := store_row (m := i.backdoor s.mems) (z := z) (b.addr + BitVec.ofNat A (k * wbytes N)) s.bridge.dma.wr.wdata
      refine Eq.trans ?_ hstore.symm
      have hword : Axi4SimRam.strobed (s.wrIn i).wdata (s.wrIn i).wstrb = fun _ => pack 32 s.bridge.dma.wr.wdata :=
        funext fun word => strobed_all _ word
      simp only [hword]
      rfl

end beats

/-! ## Runs -/

/-- The commands accepted in cycles `s, ..., t - 1`. -/
def accepted (z : Sizes) (p : Top N A) (i : ℕ → TopIn N A) (s t : ℕ) : List (Cmd A) :=
  begun z.depths p.bridge (dmaTrace z p i) s t

section runs
variable {z : Sizes} {p : Top N A} {i : ℕ → TopIn N A} {r t u : ℕ}

/-- A run of `stream_axi_top` after a reset: its commands have a row at least and keep
their row count on the port while they run. -/
structure Driven (z : Sizes) (p : Top N A) (i : ℕ → TopIn N A) (r t : ℕ) : Prop where
  rst : (i r).rst = true
  run : ∀ u, r < u → u < t → (i u).rst = false
  rows : ∀ u, r < u → u < t → (i u).start = true → (top z p i u).bridge.dma.busy = false →
    1 ≤ (i u).cmd.mRows.toNat
  held : ∀ u, r < u → u + 1 < t → (top z p i (u + 1)).bridge.dma.busy = true →
    (i (u + 1)).cmd.mRows = (i u).cmd.mRows

theorem Driven.mono {e : ℕ} (h : Driven z p i r t) (hle : e ≤ t) : Driven z p i r e where
  rst := h.rst
  run u hu hue := h.run u hu (by omega)
  rows u hu hue := h.rows u hu (by omega)
  held u hu hue := h.held u hu (by omega)

/-- The bridge is driven as it expects. -/
theorem Driven.bridge (hN : N < 2 ^ 31) (h : Driven z p i r t) :
    DmaBridge.Driven z.depths p.bridge (dmaTrace z p i) r t where
  rst := h.rst
  run := h.run
  legal := legal_run hN h.rst h.run
  rows u hru hut hacc := by
    refine h.rows u hru hut hacc.1 ?_
    rw [run_bridge]
    exact hacc.2
  held u hru hut hbusy := by
    rw [← run_bridge] at hbusy
    exact h.held u hru hut hbusy

theorem mem_accepted {a : ℕ} (hra : r < a) (hat : a < t)
    (hacc : Accepts z.depths p.bridge (dmaTrace z p i) a) : (i a).cmd ∈ accepted z p i (r + 1) t := by
  rw [accepted, begun, mem_eventsIn]
  refine ⟨a, hra, hat, if_pos ?_⟩
  simp [Dma.accept, hacc.1, hacc.2]

theorem accepted_mono {e : ℕ} (hre : r < e) (het : e ≤ t) {c : Cmd A} (hc : c ∈ accepted z p i (r + 1) e) :
    c ∈ accepted z p i (r + 1) t :=
  (eventsIn_initial _ hre het).subset hc

/-- The command that runs was accepted. -/
theorem Driven.ports (hN : N < 2 ^ 31) (h : Driven z p i r t) (hrt : r < t) :
    ∃ c, Ports z.depths c (top z p i t).bridge ∧
      ((top z p i t).bridge.dma.busy = true → c ∈ accepted z p i (r + 1) t) := by
  obtain ⟨c, hports, hcmd⟩ := ports_run hN h.rst hrt h.run (legal_run (z := z) (p := p) hN h.rst h.run)
  rw [← run_bridge] at hports hcmd
  refine ⟨c, hports, fun hbusy => ?_⟩
  obtain ⟨a, hra, hat, hacc, -, rfl⟩ := hcmd hbusy
  exact mem_accepted hra hat hacc

/-! ## One command -/

/-- The host leaves the memories alone while a command runs. -/
def Quiesced (z : Sizes) (p : Top N A) (i : ℕ → TopIn N A) (r t : ℕ) : Prop :=
  ∀ u, r < u → u < t → (top z p i u).bridge.dma.busy = true → ∀ m, (i u).backdoor m = m

/-- The word that is offered is always the one in memory. -/
theorem rdData_run (hN : N < 2 ^ 31) (h : Driven z p i r t) (hquiet : Quiesced z p i r t) (hrt : r < t) :
    RdData (top z p i t).uRamRd.mem (top z p i t).uRamRd.rd (top z p i t).bridge.bus.rd := by
  induction t, hrt using Nat.le_induction with
  | base =>
    intro hvalid
    have hlow : (top z p i (r + 1)).uRamRd.rd.rvalid = false := by
      simp [top, run_succ, Top.step, Axi4SimRam.SimRam.step, Axi4SimRam.ReadChannel.step, Top.rdIn, rdPort, h.rst]
    simp [hlow] at hvalid
  | succ t hrt ih =>
    have hprev := h.mono (Nat.le_succ t)
    have hrst := h.run t hrt (Nat.lt_succ_self t)
    obtain ⟨c, hports, -⟩ := hprev.ports hN hrt
    have hlinked := linked_run (z := z) (p := p) hN h.rst hrt hprev.run
    have hnow : RdData ((i t).backdoor (top z p i t).mems).1 (top z p i t).uRamRd.rd
        (top z p i t).bridge.bus.rd := by
      cases hb : (top z p i t).bridge.dma.busy with
      | true =>
        rw [hquiet t hrt (Nat.lt_succ_self t) hb]
        exact ih hprev fun u hru hut => hquiet u hru (by omega)
      | false =>
        -- a free bridge has nothing pending
        have hst : (top z p i t).bridge.dma.bstate = .idle := by simpa [Dma.busy] using hb
        have hidle := (hports.reading.idle (hports.fetched (by rw [hst]; simp))).2.2
        intro _ b k hp
        simp [hidle, Port.idle, Port.serving] at hp
    have hfree : ((top z p i t).rdIn (i t)).arvalid = true → (top z p i t).bridge.bus.rd = Port.idle :=
      fun hv => (hports.reading.offer hv).2.1
    have hstep := hnow.step (g := (top z p i t).rdGates (i t)) (i := (top z p i t).rdIn (i t)) hlinked.rd hrst hfree
    have hmem : (top z p i (t + 1)).uRamRd.mem = ((i t).backdoor (top z p i t).mems).1 := Top.step_rd_mem _ _ _
    have hbus : (top z p i (t + 1)).bridge.bus.rd = (top z p i t).bridge.bus.rd.step
        ((top z p i t).bridge.dma.rd.arAccepted (dmaTrace z p i t))
        ((top z p i t).bridge.dma.rd.push (dmaTrace z p i t)) := by
      simp [top, run_succ, Top.step, Sys.step, dmaTrace, Top.dmaIn, hrst]
    rw [hmem, hbus]
    exact hstep

section command
variable {a e : ℕ}

/-- A cycle of the whole on the memories. -/
theorem mems_next (hpow : ∃ e, N = 2 ^ e) (hN : N < 2 ^ 31) (h : Driven z p i r (t + 1)) (hrt : r < t)
    (hspace : ∀ c ∈ accepted z p i (r + 1) (t + 1), InSpace N c) : (top z p i (t + 1)).mems =
      (memory z).writeAll ((i t).backdoor (top z p i t).mems)
        ((top z p i t).bridge.wBeat (dmaTrace z p i t)).toList := by
  have hprev := h.mono (Nat.le_succ t)
  obtain ⟨c, hports, hmem⟩ := hprev.ports hN hrt
  exact mems_step hpow (linked_run hN h.rst hrt hprev.run) hports
    (fun hbusy => hspace c (accepted_mono hrt (Nat.le_succ t) (hmem hbusy)))
    (h.run t hrt (Nat.lt_succ_self t))

/-- While a command runs the memories hold what it has sent so far. -/
theorem mems_command (hpow : ∃ e, N = 2 ^ e) (hN : N < 2 ^ 31) (h : Driven z p i r t)
    (hquiet : Quiesced z p i r t) (hspace : ∀ c ∈ accepted z p i (r + 1) t, InSpace N c) (hra : r < a)
    (hat : a < t) (hbusy : BusyBetween z.depths p.bridge (dmaTrace z p i) a t) : (top z p i t).mems =
      (memory z).writeAll ((i a).backdoor (top z p i a).mems)
        (sentBeats z.depths p.bridge (dmaTrace z p i) a t) := by
  induction t, hat using Nat.le_induction with
  | base =>
    rw [mems_next hpow hN h hra hspace, sentBeats, eventsIn_succ _ le_rfl, run_bridge]
    simp
  | succ t hat ih =>
    have hra' : r < t := by omega
    have hprev := ih (h.mono (Nat.le_succ t)) (fun u hru hut => hquiet u hru (by omega))
      (fun c hc => hspace c (accepted_mono hra' (Nat.le_succ t) hc)) fun u hau hut => hbusy u hau (by omega)
    have hb := hbusy t hat (Nat.lt_succ_self t)
    rw [← run_bridge] at hb
    rw [mems_next hpow hN h hra' hspace, hquiet t hra' (Nat.lt_succ_self t) hb, hprev, sentBeats, sentBeats,
      eventsIn_succ _ (show a ≤ t by omega), Memory.writeAll_append, run_bridge]

/-- The read memory is the same from the start to the end of a command. -/
theorem rd_mem_command (h : Quiesced z p i r t) (hra : r < a) (hat : a < t)
    (hbusy : BusyBetween z.depths p.bridge (dmaTrace z p i) a t) :
    (top z p i t).uRamRd.mem = ((i a).backdoor (top z p i a).mems).1 := by
  induction t, hat using Nat.le_induction with
  | base => exact Top.step_rd_mem _ _ _
  | succ t hat ih =>
    have hb := hbusy t hat (Nat.lt_succ_self t)
    rw [← run_bridge] at hb
    have hmem : (top z p i (t + 1)).uRamRd.mem = ((i t).backdoor (top z p i t).mems).1 := Top.step_rd_mem _ _ _
    rw [hmem, h t (by omega) (Nat.lt_succ_self t) hb]
    exact ih (fun u hru hut => h u hru (by omega)) fun u hau hut => hbusy u hau (by omega)

/-- **A command is one step of the memories.** -/
theorem command_executes (hpow : ∃ e, N = 2 ^ e) (hN : N < 2 ^ 31) (hdepths : z.depths.rd ≤ N + z.depths.wr)
    (h : Driven z p i r e) (hquiet : Quiesced z p i r e)
    (hspace : ∀ c ∈ accepted z p i (r + 1) e, InSpace N c) (hra : r < a) (hae : a < e)
    (hacc : Accepts z.depths p.bridge (dmaTrace z p i) a)
    (hbusy : BusyBetween z.depths p.bridge (dmaTrace z p i) a e)
    (hlow : (top z p i e).bridge.dma.busy = false) :
    (top z p i e).mems = (memory z).exec ((i a).backdoor (top z p i a).mems) (i a).cmd := by
  have hpos : 0 < N := by
    obtain ⟨k, rfl⟩ := hpow
    exact Nat.two_pow_pos k
  have hdrv := h.bridge hN
  have hend := hlow
  rw [run_bridge] at hend
  obtain ⟨horder, hlen, hsent⟩ := hdrv.command hpos hN hdepths hend hra hae hacc hbusy
  have hloads : ∀ b ∈ readBeats z.depths p.bridge (dmaTrace z p i) a e,
      b.1.map ((memory z).load ((i a).backdoor (top z p i a).mems)) = some b.2 := by
    intro b hb
    obtain ⟨u, hau, hue, hbeat⟩ := mem_eventsIn.mp hb
    have hpush : (top z p i u).bridge.dma.rd.push (dmaTrace z p i u) = true := by
      by_contra hno
      rw [← run_bridge] at hbeat
      simp [Sys.rBeat, hno] at hbeat
    have hbu : (top z p i u).bridge.dma.busy = true := by
      by_contra hno
      have hprev := (h.mono hue.le).bridge hN
      rw [run_bridge] at hno
      rw [(hprev.no_beat hN (by omega) (by simpa using hno)).1] at hbeat
      cases hbeat
    have hlt : a < u := by
      by_contra hge
      obtain rfl : u = a := by omega
      have hfree := hacc.2
      rw [← run_bridge, hbu] at hfree
      cases hfree
    have hprev := h.mono hue.le
    have hquiet' : Quiesced z p i r u := fun v hv hvu => hquiet v hv (by omega)
    obtain ⟨c, hports, hmem⟩ := hprev.ports hN (show r < u by omega)
    have hspacec := hspace c (accepted_mono (by omega) hue.le (hmem hbu))
    have hdata := rdData_run hN hprev hquiet' (by omega)
    rw [rd_mem_command hquiet' hra hlt fun v hav hvu => hbusy v hav (by omega)] at hdata
    have hread := read_beat hpow (linked_run hN h.rst (by omega) hprev.run) hdata hports hspacec hpush
    rw [← run_bridge] at hbeat
    obtain rfl : ((top z p i u).bridge.bus.rd.beatAddr (rbytes N), (dmaTrace z p i u).rdata) = b := by
      simpa [Sys.rBeat, hpush] using hbeat
    exact hread
  rw [mems_command hpow hN h hquiet hspace hra hae hbusy, hsent, Memory.exec,
    (memory z).resultRows_eq hlen horder hloads]
  rfl

end command

/-! ## All commands -/

/-- What cycle `u` does to the memories if a command is carried out at once. -/
def effect (z : Sizes) (p : Top N A) (i : ℕ → TopIn N A) (u : ℕ) (m : Mems N) : Mems N :=
  let m' := (i u).backdoor m
  if (i u).start && !(top z p i u).bridge.dma.busy then (m'.1, execWords z m'.1 m'.2 (i u).cmd) else m'

/-- The memories after the cycles `s, ..., t - 1`, one after another. -/
def effects (z : Sizes) (p : Top N A) (i : ℕ → TopIn N A) (s t : ℕ) (m : Mems N) : Mems N :=
  foldIn (effect z p i) s t m

/-- In the cycles behind a start nothing happens. -/
theorem effects_busy {a : ℕ} (hquiet : Quiesced z p i r t) (hra : r < a) (hat : a < t)
    (hbusy : ∀ u, a < u → u < t → (top z p i u).bridge.dma.busy = true) (m : Mems N) :
    effects z p i (r + 1) t m = effect z p i a (effects z p i (r + 1) a m) := by
  rw [effects, effects, ← foldIn_succ (effect z p i) hra]
  refine foldIn_quiet (by omega) hat (fun v hav hvt x => ?_) m
  have hb := hbusy v hav hvt
  rw [effect]
  simp only [hb, Bool.not_true, Bool.and_false, Bool.false_eq_true, if_false]
  exact hquiet v (by omega) hvt hb x

/-- The counters of the beats. -/
theorem beat_counts (hr : (i r).rst = true) (hrun : ∀ u, r < u → u < t → (i u).rst = false) (hrt : r < t) :
    (top z p i t).rdBeatCount =
        BitVec.ofNat 32 (DmaBridge.readBeats z.depths p.bridge (dmaTrace z p i) (r + 1) t).length ∧
      (top z p i t).wrBeatCount =
        BitVec.ofNat 32 (sentBeats z.depths p.bridge (dmaTrace z p i) (r + 1) t).length := by
  induction t, hrt using Nat.le_induction with
  | base =>
    simp [top, run_succ, Top.step, hr, DmaBridge.readBeats, sentBeats]
  | succ t hrt ih =>
    obtain ⟨hrd, hwr⟩ := ih fun u hu hut => hrun u hu (by omega)
    have hrst := hrun t hrt (Nat.lt_succ_self t)
    have hread : (DmaBridge.readBeats z.depths p.bridge (dmaTrace z p i) (r + 1) (t + 1)).length =
        (DmaBridge.readBeats z.depths p.bridge (dmaTrace z p i) (r + 1) t).length +
          ((top z p i t).bridge.dma.rd.push ((top z p i t).dmaIn (i t))).toNat := by
      rw [DmaBridge.readBeats, eventsIn_succ _ hrt, List.length_append, ← run_bridge, Sys.rBeat]
      cases hp : (top z p i t).bridge.dma.rd.push ((top z p i t).dmaIn (i t)) <;> simp [dmaTrace, hp]
      all_goals rfl
    have hsent : (sentBeats z.depths p.bridge (dmaTrace z p i) (r + 1) (t + 1)).length =
        (sentBeats z.depths p.bridge (dmaTrace z p i) (r + 1) t).length +
          ((top z p i t).bridge.dma.wr.sent ((top z p i t).dmaIn (i t))).toNat := by
      rw [sentBeats, eventsIn_succ _ hrt, List.length_append, ← run_bridge, Sys.wBeat]
      cases hp : (top z p i t).bridge.dma.wr.sent ((top z p i t).dmaIn (i t)) <;> simp [dmaTrace, hp]
      all_goals rfl
    rw [hread, hsent, BitVec.ofNat_add, BitVec.ofNat_add, ← hrd, ← hwr]
    have hstep : top z p i (t + 1) = (top z p i t).step z (i t) := rfl
    rw [hstep]
    simp only [Top.step, hrst, Bool.false_eq_true, if_false]
    constructor
    · cases (top z p i t).bridge.dma.rd.push ((top z p i t).dmaIn (i t)) <;> simp
    · cases (top z p i t).bridge.dma.wr.sent ((top z p i t).dmaIn (i t)) <;> simp

/-- In a free cycle all commands have taken effect. -/
theorem mems_free (hpow : ∃ e, N = 2 ^ e) (hN : N < 2 ^ 31) (hdepths : z.depths.rd ≤ N + z.depths.wr)
    (h : Driven z p i r t) (hquiet : Quiesced z p i r t)
    (hspace : ∀ c ∈ accepted z p i (r + 1) t, InSpace N c) (hrt : r < t)
    (hfree : (top z p i t).bridge.dma.busy = false) :
    (top z p i t).mems = effects z p i (r + 1) t (top z p i (r + 1)).mems := by
  have hend := hfree
  rw [run_bridge] at hend
  refine command_induction (p := p.bridge) (i := dmaTrace z p i) (d := z.depths)
    (P := fun u _ => u ≤ t → (top z p i u).mems = effects z p i (r + 1) u (top z p i (r + 1)).mems)
    h.rst h.run ?_ ?_ ?_ hrt hend le_rfl
  · intro _
    simp [effects]
  · intro u cs hru hut hb hb' hprev _
    have hdrv := h.mono hut
    have hbeat := ((hdrv.mono (Nat.le_succ u)).bridge hN).no_beat hN hru hb
    rw [mems_next hpow hN hdrv hru fun c hc => hspace c (accepted_mono (by omega) hut hc),
      hprev hut.le, run_bridge, hbeat.2, effects, effects, foldIn_succ _ hru, effect]
    -- a start would have made `busy` rise
    have hstart : (i u).start = false := by
      by_contra hs
      have hs' : (i u).start = true := by simpa using hs
      have hrise := busy_after_accept (d := z.depths) (p := p.bridge) (i := dmaTrace z p i) (h.run u hru hut)
        ⟨hs', hb⟩
      rw [hb'] at hrise
      cases hrise
    simp [hstart, Memory.writeAll]
  · intro a e cs hra hae het hacc hbusy hb hprev _
    have hdrv := h.mono het
    have hquiet' : Quiesced z p i r e := fun u hru hue => hquiet u hru (by omega)
    have hspace' : ∀ c ∈ accepted z p i (r + 1) e, InSpace N c := fun c hc =>
      hspace c (accepted_mono (by omega) het hc)
    rw [← run_bridge] at hb
    have hfirst := hacc.2
    rw [← run_bridge] at hfirst
    have hstart : (i a).start = true := hacc.1
    rw [command_executes hpow hN hdepths hdrv hquiet' hspace' hra hae hacc hbusy hb,
      exec_eq hpow (hspace' _ (mem_accepted hra hae hacc)),
      effects_busy hquiet' hra hae fun u hau hue => by rw [run_bridge]; exact hbusy u hau hue,
      hprev (by omega), effect]
    simp [hfirst, hstart]

/-- The counters and the done pulses of a free cycle. -/
theorem counts_free (hpos : 0 < N) (hN : N < 2 ^ 31) (hdepths : z.depths.rd ≤ N + z.depths.wr)
    (h : Driven z p i r t) (hrt : r < t) (hfree : (top z p i t).bridge.dma.busy = false) :
    countIn (fun u => (top z p i u).bridge.dma.done) (r + 1) (t + 1) = (accepted z p i (r + 1) t).length ∧
      (top z p i t).rdBeatCount =
        BitVec.ofNat 32 ((accepted z p i (r + 1) t).map fun c => N + c.mRows.toNat).sum ∧
      (top z p i t).wrBeatCount =
        BitVec.ofNat 32 ((accepted z p i (r + 1) t).map fun c => c.mRows.toNat).sum := by
  rw [run_bridge] at hfree
  have htally := tally_run hpos hN hdepths (h.bridge hN) hrt hfree
  obtain ⟨hrd, hwr⟩ := beat_counts (z := z) (p := p) h.rst h.run hrt
  refine ⟨?_, ?_, ?_⟩
  · have hpulses := htally.pulses
    simp only [donePulses, ← run_bridge] at hpulses
    exact hpulses
  · rw [hrd, htally.reads]
    rfl
  · rw [hwr, htally.writes]
    rfl

end runs

/-- **`stream_axi_top` computes its commands**, in every run after a reset whose commands
have a row at least, keep their row count on the port and stay in the address space, for
any contents of the memories and however they stall.  In every free cycle the memories are
as if each command had been carried out at once in the cycle of its start, row `k` of a
product going to the word `k` places behind the one of `c_base`; the host may change them
whenever no command runs, and only then.  Each command has had its done pulse, and the
counters show the beats that all commands together take. -/
theorem stream_axi_top_executes (z : Sizes) (hpow : ∃ e, N = 2 ^ e) (hN : N < 2 ^ 31)
    (hdepths : z.depths.rd ≤ N + z.depths.wr) (p : Top N A) (i : ℕ → TopIn N A) {r : ℕ} (t : ℕ) (hrt : r < t)
    (h : Driven z p i r t) (hquiet : Quiesced z p i r t)
    (hspace : ∀ c ∈ accepted z p i (r + 1) t, InSpace N c)
    (hfree : (top z p i t).bridge.dma.busy = false) :
    (top z p i t).mems = effects z p i (r + 1) t (top z p i (r + 1)).mems ∧
      countIn (fun u => (top z p i u).bridge.dma.done) (r + 1) (t + 1) = (accepted z p i (r + 1) t).length ∧
      (top z p i t).rdBeatCount =
        BitVec.ofNat 32 ((accepted z p i (r + 1) t).map fun c => N + c.mRows.toNat).sum ∧
      (top z p i t).wrBeatCount =
        BitVec.ofNat 32 ((accepted z p i (r + 1) t).map fun c => c.mRows.toNat).sum := by
  have hpos : 0 < N := by
    obtain ⟨e, rfl⟩ := hpow
    exact Nat.two_pow_pos e
  exact ⟨mems_free hpow hN hdepths h hquiet hspace hrt hfree, counts_free hpos hN hdepths h hrt hfree⟩

theorem demoIn_driven (t : ℕ) : Driven demoSizes demoTop demoIn 0 t where
  rst := rfl
  run u hu _ := by simp [demoIn]; omega
  rows u _ _ _ _ := (by decide : 1 ≤ (⟨0, 16, 64, 2⟩ : Cmd 8).mRows.toNat)
  held _ _ _ _ := rfl

/-- The rows 1 * 17 and 1 * 18 are there in cycle 48. -/
theorem stream_axi_top_executes_demo :
    (top demoSizes demoTop demoIn 48).uRamWr.mem 16 = 17 ∧
      (top demoSizes demoTop demoIn 48).uRamWr.mem 17 = 18 ∧
      (top demoSizes demoTop demoIn 48).rdBeatCount = 3 := by
  have haccepted : accepted demoSizes demoTop demoIn 1 48 = [⟨0, 16, 64, 2⟩] := by decide +kernel
  have hbusy : ∀ u < 48, 1 < u → (top demoSizes demoTop demoIn u).bridge.dma.busy = true := by decide +kernel
  have hquiet : Quiesced demoSizes demoTop demoIn 0 48 := fun _ _ _ _ _ => rfl
  obtain ⟨hmem, -, hreads, -⟩ := stream_axi_top_executes demoSizes ⟨0, rfl⟩ (by decide) (by decide)
    demoTop demoIn 48 (by decide) (demoIn_driven 48) hquiet (by rw [haccepted]; decide) (by decide +kernel)
  rw [effects_busy hquiet one_pos (by decide) fun u hu hut => hbusy u hut hu] at hmem
  rw [haccepted] at hreads
  have hwr := congrArg Prod.snd hmem
  unfold Top.mems at hwr
  dsimp only at hwr
  rw [hreads, hwr]
  exact ⟨by decide +kernel, by decide +kernel, by decide⟩

end StreamAxi
