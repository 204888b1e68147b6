import TensorAccel.Axi.Handshake
import TensorAccel.Axi.SharedMemory
import TensorAccel.Axi.SimRam

/-! # The bridge on its two memories

    Translation of `rtl/axi/stream_axi_top.sv`: the AXI bridge with one
    `axi4_sim_ram` behind each port.  The memory of the read port is never
    written, the one of the write port is never read. -/

open Clocked Burst StreamCtrl DmaBridge

namespace StreamAxi

variable {N A : ℕ}

/-! ## Packed words -/

/-- Lane `j` of a packed word. -/
def unpack (w : ℕ) (x : BitVec (N * w)) : Fin N → BitVec w := fun j => x.extractLsb' (j.val * w) w

/-- Bit `k` of the packed word. -/
def packBit (w : ℕ) (l : Fin N → BitVec w) (k : ℕ) : Bool :=
  if h : k / w < N then (l ⟨k / w, h⟩).getLsbD (k % w) else false

def pack (w : ℕ) (l : Fin N → BitVec w) : BitVec (N * w) :=
  (BitVec.iunfoldr (fun (k : Fin (N * w)) (_ : Unit) => ((), packBit w l k.val)) ()).2

section packed
variable {w : ℕ}

theorem getLsbD_pack (l : Fin N → BitVec w) {k : ℕ} (hk : k < N * w) :
    (pack w l).getLsbD k = packBit w l k :=
  BitVec.iunfoldr_getLsbD (fun _ => ()) ⟨k, hk⟩ fun _ => rfl

/-- A packed word shows its lanes. -/
theorem unpack_pack (l : Fin N → BitVec w) : unpack w (pack w l) = l := by
  funext j
  apply BitVec.eq_of_getLsbD_eq
  intro k hk
  have hlane : j.val * w + k < N * w :=
    Nat.lt_of_lt_of_le (by omega : j.val * w + k < j.val * w + w)
      (by rw [← Nat.succ_mul]; exact Nat.mul_le_mul_right w j.isLt)
  have hdiv : (j.val * w + k) / w = j.val := by
    rw [Nat.mul_comm, Nat.mul_add_div (by omega), Nat.div_eq_of_lt hk, Nat.add_zero]
  have hmod : (j.val * w + k) % w = k := by
    rw [Nat.mul_comm, Nat.mul_add_mod, Nat.mod_eq_of_lt hk]
  rw [unpack, BitVec.getLsbD_extractLsb', getLsbD_pack l hlane, packBit]
  simp [hdiv, hmod, hk]

end packed

/-! ## Model -/

/-- The stall inputs. -/
structure Stalls where
  rdStallMask : BitVec 4
  wrStallMask : BitVec 4
  rdStallSeed : BitVec 32
  wrStallSeed : BitVec 32

/-- What the two memories hold. -/
abbrev Mems (N : ℕ) := (ℕ → BitVec (N * 8)) × (ℕ → BitVec (N * 32))

/-- Input ports of `stream_axi_top`, and what the test bench does to the memories
through its back door before the clock edge. -/
structure TopIn (N A : ℕ) where
  rst : Bool
  start : Bool
  cmd : Cmd A
  stalls : Stalls
  backdoor : Mems N → Mems N

/-- The parameters: the FIFO depths of `u_bridge`, and `RD_DEPTH` and `WR_DEPTH`. -/
structure Sizes where
  depths : Depths
  rdDepth : ℕ
  wrDepth : ℕ

/-- Registers of `stream_axi_top`, and the monitor of the two AXI ports. -/
structure Top (N A : ℕ) where
  bridge : Sys N A
  uRamRd : Axi4SimRam.SimRam (N * 8) A 4
  uRamWr : Axi4SimRam.SimRam (N * 32) A 4
  rdBeatCount : BitVec 32
  wrBeatCount : BitVec 32

/-- The ports of `u_ram_rd`; its write channel is tied off. -/
def rdPort (rst : Bool) (st : Stalls) (b : Dma N A) : Axi4SimRam.RamIn (N * 8) A 4 where
  rst := rst
  stallMask := st.rdStallMask
  stallSeed := st.rdStallSeed
  arid := 0
  araddr := b.rd.araddr
  arlen := b.rd.arlen
  arvalid := b.rd.arvalid
  rready := b.rd.rready
  awid := 0
  awaddr := 0
  awlen := 0
  awvalid := false
  wdata := 0
  wstrb := 0
  wlast := false
  wvalid := false
  bready := true

/-- The ports of `u_ram_wr`; its read channel is tied off. -/
def wrPort (rst : Bool) (st : Stalls) (b : Dma N A) : Axi4SimRam.RamIn (N * 32) A 4 where
  rst := rst
  stallMask := st.wrStallMask
  stallSeed := st.wrStallSeed
  arid := 0
  araddr := 0
  arlen := 0
  arvalid := false
  rready := true
  awid := 0
  awaddr := b.wr.awaddr
  awlen := b.wr.awlen
  awvalid := b.wr.awvalid
  wdata := pack 32 b.wr.wdata
  wstrb := (WrEngine.wstrb N).setWidth (N * 32 / 8)
  wlast := b.wr.wlast
  wvalid := b.wr.wvalid
  bready := true

namespace Top

/-- What both memories hold in a cycle. -/
def mems (s : Top N A) : Mems N := (s.uRamRd.mem, s.uRamWr.mem)

def rdIn (i : TopIn N A) (s : Top N A) : Axi4SimRam.RamIn (N * 8) A 4 := rdPort i.rst i.stalls s.bridge.dma

def wrIn (i : TopIn N A) (s : Top N A) : Axi4SimRam.RamIn (N * 32) A 4 := wrPort i.rst i.stalls s.bridge.dma

/-- The gates of `u_ram_rd` in this cycle. -/
def rdGates (i : TopIn N A) (s : Top N A) : Axi4SimRam.Gates := Axi4SimRam.gates (s.rdIn i) s.uRamRd.lfsr

/-- The gates of `u_ram_wr` in this cycle. -/
def wrGates (i : TopIn N A) (s : Top N A) : Axi4SimRam.Gates := Axi4SimRam.gates (s.wrIn i) s.uRamWr.lfsr

/-- The ports of `u_bridge`. -/
def dmaIn (i : TopIn N A) (s : Top N A) : DmaIn N A where
  rst := i.rst
  start := i.start
  cmd := i.cmd
  arready := s.uRamRd.rd.arready (s.rdGates i)
  rdata := unpack 8 s.uRamRd.rd.rdata
  rlast := s.uRamRd.rd.rlast
  rvalid := s.uRamRd.rd.rvalid
  awready := s.uRamWr.wr.awready (s.wrGates i)
  wready := s.uRamWr.wr.wready (s.wrGates i)
  bvalid := s.uRamWr.wr.bvalid

/-- One clock edge of `stream_axi_top`. -/
def step (z : Sizes) (i : TopIn N A) (s : Top N A) : Top N A where
  bridge := s.bridge.step z.depths (s.dmaIn i)
  uRamRd := { s.uRamRd with mem := (i.backdoor s.mems).1 }.step z.rdDepth (s.rdIn i)
  uRamWr := { s.uRamWr with mem := (i.backdoor s.mems).2 }.step z.wrDepth (s.wrIn i)
  rdBeatCount :=
    if i.rst then 0
    else if s.bridge.dma.rd.push (s.dmaIn i) then s.rdBeatCount + 1 else s.rdBeatCount
  wrBeatCount :=
    if i.rst then 0
    else if s.bridge.dma.wr.sent (s.dmaIn i) then s.wrBeatCount + 1 else s.wrBeatCount

end Top

/-! ## The two memories and the monitor -/

section links
variable {DW ID : ℕ}

/-- The read channel of a memory that serves what the monitor has pending. -/
inductive RdLink (s : Axi4SimRam.ReadChannel DW A ID) (p : Port A) : Prop
  | rest (hs : s.arState = .idle) (hv : s.rvalid = false) (hp : p = Port.idle)
  | fetch (b : Req A) (k : ℕ) (hp : p = Port.serving b k) (hs : s.arState = .burst)
      (hv : s.rvalid = false) (hk : k < b.len) (haddr : s.arAddr = b.addr)
      (hlen : s.arLen.toNat + 1 = b.len) (hbeat : s.arBeat.toNat = k)
  | offer (b : Req A) (k : ℕ) (hp : p = Port.serving b k) (hv : s.rvalid = true) (hk : k < b.len)
      (hlast : s.rlast = (k + 1 == b.len)) (hend : k + 1 = b.len → s.arState = .idle)
      (hmore : k + 1 ≠ b.len → s.arState = .burst ∧ s.arAddr = b.addr ∧ s.arLen.toNat + 1 = b.len ∧
        s.arBeat.toNat = k + 1)

/-- The write channel of a memory that serves what the monitor has pending. -/
inductive WrLink (s : Axi4SimRam.WriteChannel A ID) (p : Port A) (bDue : ℕ) : Prop
  | rest (hs : s.awState = .idle) (hv : s.bvalid = false) (hp : p = Port.idle) (hb : bDue = 0)
  | data (b : Req A) (k : ℕ) (hp : p = Port.serving b k) (hs : s.awState = .data)
      (hv : s.bvalid = false) (hb : bDue = 0) (hk : k < b.len) (haddr : s.awAddr = b.addr)
      (hlen : s.awLen.toNat + 1 = b.len) (hbeat : s.awBeat.toNat = k)
  | resp (hs : s.awState = .resp) (hv : s.bvalid = true) (hp : p = Port.idle) (hb : bDue = 1)

section read
variable {mem : ℕ → BitVec DW} {s : Axi4SimRam.ReadChannel DW A ID} {p : Port A} {g : Axi4SimRam.Gates}
  {i : Axi4SimRam.RamIn DW A ID}

/-- The burst whose address the memory accepts. -/
def arTaken (g : Axi4SimRam.Gates) (i : Axi4SimRam.RamIn DW A ID) (s : Axi4SimRam.ReadChannel DW A ID) :
    Option (Req A) :=
  if i.arvalid && s.arready g then some ⟨i.araddr, i.arlen.toNat + 1⟩ else none

/-- With a burst pending the master asks for none. -/
theorem arTaken_serving {b : Req A} {k : ℕ} (hp : p = Port.serving b k)
    (hfree : i.arvalid = true → p = Port.idle) : i.arvalid = false ∧ arTaken g i s = none := by
  have hv : i.arvalid = false := by
    by_contra hv
    have hidle := hfree (by simpa using hv)
    rw [hp] at hidle
    cases hidle
  exact ⟨hv, by simp [arTaken, hv]⟩

/-- The counter of a memory that loads beat `k` of a burst. -/
theorem load_beat {b : Req A} {k : ℕ} (hk : k < b.len) (hlen : s.arLen.toNat + 1 = b.len)
    (hbeat : s.arBeat.toNat = k) :
    s.arBeat = BitVec.ofNat 8 k ∧ (s.arBeat = s.arLen ↔ k + 1 = b.len) ∧
      (k + 1 ≠ b.len → (s.arBeat + 1).toNat = k + 1) := by
  have hlt := s.arLen.isLt
  refine ⟨?_, ?_, ?_⟩
  · rw [← hbeat, BitVec.ofNat_toNat, BitVec.setWidth_eq]
  · rw [← BitVec.toNat_inj]
    omega
  · intro hne
    rw [BitVec.toNat_add, hbeat]
    exact Nat.mod_eq_of_lt (by simp; omega)

/-- A memory that loads beat `k` offers it in the next cycle. -/
theorem offer_of_load {b : Req A} {k : ℕ} (hr : i.rst = false) (hs : s.arState = .burst)
    (hload : s.load g i = true) (hk : k < b.len) (haddr : s.arAddr = b.addr)
    (hlen : s.arLen.toNat + 1 = b.len) (hbeat : s.arBeat.toNat = k) :
    RdLink (s.step g mem i) (Port.serving b k) := by
  obtain ⟨hnat, hend, hsucc⟩ := load_beat hk hlen hbeat
  rw [Axi4SimRam.ReadChannel.step_load hr hs hload]
  refine .offer b k rfl rfl hk ?_ ?_ ?_
  · rw [Bool.eq_iff_iff, beq_iff_eq, beq_iff_eq]
    exact hend
  · intro hover
    exact if_pos (hend.mpr hover)
  · intro hmore
    have hne : s.arBeat ≠ s.arLen := fun he => hmore (hend.mp he)
    simp only [if_neg hne]
    exact ⟨trivial, haddr, hlen, hsucc hmore⟩

/-- One cycle of the read channel, for a master that has one burst pending at most. -/
theorem RdLink.step (mem : ℕ → BitVec DW) (h : RdLink s p) (hr : i.rst = false)
    (hfree : i.arvalid = true → p = Port.idle) :
    RdLink (s.step g mem i) (p.step (arTaken g i s) (s.rvalid && i.rready)) := by
  cases h with
  | rest hs hv hp =>
    rw [hp, hv, Bool.false_and]
    cases hacc : i.arvalid && s.arready g with
    | false =>
      have hnone : s.arAccepted g i = none := by simp [Axi4SimRam.ReadChannel.arAccepted, hacc]
      rw [Axi4SimRam.ReadChannel.step_idle hr hs hnone, arTaken, hacc]
      exact .rest hs (by simp [hv]) (Port.step_quiet _)
    | true =>
      have hsome : s.arAccepted g i = some ⟨i.arid, i.araddr, i.arlen⟩ := by
        simp [Axi4SimRam.ReadChannel.arAccepted, hr, hacc]
      rw [(Axi4SimRam.ReadChannel.step_accept hr hsome).2, arTaken, hacc, if_pos rfl, Port.idle_accept]
      exact .fetch _ 0 rfl rfl (by simp [hv]) (Nat.succ_pos _) rfl rfl rfl
  | fetch b k hp hs hv hk haddr hlen hbeat =>
    obtain ⟨-, hnone⟩ := arTaken_serving (g := g) (s := s) hp hfree
    rw [hnone, hp, hv, Bool.false_and, Port.step_quiet]
    cases hload : s.load g i with
    | false =>
      rw [Axi4SimRam.ReadChannel.step_burst_wait hr hs hload]
      exact .fetch b k rfl hs (by simp [hv]) hk haddr hlen hbeat
    | true => exact offer_of_load hr hs hload hk haddr hlen hbeat
  | offer b k hp hv hk hlast hend hmore =>
    obtain ⟨har, hnone⟩ := arTaken_serving (g := g) (s := s) hp hfree
    have hacc : s.arAccepted g i = none := by simp [Axi4SimRam.ReadChannel.arAccepted, har]
    rw [hnone, hp, hv, Bool.true_and]
    cases hy : i.rready with
    | false =>
      -- the beat waits for the master
      have hload : s.load g i = false := by simp [Axi4SimRam.ReadChannel.load, hv, hy]
      have hkeep : s.step g mem i = { s with rvalid := s.rvalid && !i.rready } := by
        by_cases hover : k + 1 = b.len
        · exact Axi4SimRam.ReadChannel.step_idle hr (hend hover) hacc
        · exact Axi4SimRam.ReadChannel.step_burst_wait hr (hmore hover).1 hload
      rw [hkeep, Port.step_quiet]
      exact .offer b k rfl (by simp [hv, hy]) hk hlast hend hmore
    | true =>
      by_cases hover : k + 1 = b.len
      · rw [Axi4SimRam.ReadChannel.step_idle hr (hend hover) hacc, Port.serving_last hover]
        exact .rest (hend hover) (by simp [hy]) rfl
      · -- the beat goes, and the next one may be loaded at the same time
        obtain ⟨hs, haddr, hlen, hbeat⟩ := hmore hover
        rw [Port.serving_next hover]
        cases hload : s.load g i with
        | false =>
          rw [Axi4SimRam.ReadChannel.step_burst_wait hr hs hload]
          exact .fetch b (k + 1) rfl hs (by simp [hy]) (by omega) haddr hlen hbeat
        | true => exact offer_of_load hr hs hload (by omega) haddr hlen hbeat

theorem rdLink_reset (mem : ℕ → BitVec DW) (s : Axi4SimRam.ReadChannel DW A ID) (hr : i.rst = true) :
    RdLink (s.step g mem i) Port.idle := by
  refine .rest ?_ ?_ rfl
  all_goals simp [Axi4SimRam.ReadChannel.step, hr]

/-- The beat that is offered is the word that its address asks for. -/
def RdData (mem : ℕ → BitVec DW) (s : Axi4SimRam.ReadChannel DW A ID) (p : Port A) : Prop :=
  s.rvalid = true → ∀ b k, p = Port.serving b k →
    s.rdata = mem (Axi4SimRam.index DW b.addr (BitVec.ofNat 8 k))

/-- One cycle of a memory that stays as it is. -/
theorem RdData.step (hd : RdData mem s p) (h : RdLink s p) (hr : i.rst = false)
    (hfree : i.arvalid = true → p = Port.idle) :
    RdData mem (s.step g mem i) (p.step (arTaken g i s) (s.rvalid && i.rready)) := by
  intro hvalid b k hp
  cases hload : s.load g i with
  | true =>
    have hs : s.arState = .burst := by
      simp only [Axi4SimRam.ReadChannel.load, Bool.and_eq_true, beq_iff_eq] at hload
      exact hload.1.1
    rw [Axi4SimRam.ReadChannel.step_load hr hs hload]
    cases h with
    | rest hs' => simp [hs] at hs'
    | fetch b' k' hp' _ hv hk haddr hlen hbeat =>
      obtain ⟨-, hnone⟩ := arTaken_serving (g := g) (s := s) hp' hfree
      rw [hnone, hp', hv, Bool.false_and, Port.step_quiet] at hp
      obtain ⟨rfl, rfl⟩ : b' = b ∧ k' = k := by simpa [Port.serving] using hp
      rw [← haddr, (load_beat hk hlen hbeat).1]
    | offer b' k' hp' hv _ _ hend hmore =>
      -- the beat before goes, so that this one is the next
      have hne : k' + 1 ≠ b'.len := fun hover => by simp [hend hover] at hs
      obtain ⟨-, haddr, hlen, hbeat⟩ := hmore hne
      obtain ⟨-, hnone⟩ := arTaken_serving (g := g) (s := s) hp' hfree
      have hy : i.rready = true := by
        simp only [Axi4SimRam.ReadChannel.load, hv, Bool.and_eq_true] at hload
        simpa using hload.1.2
      rw [hnone, hp', hv, hy, Bool.and_self, Port.serving_next hne] at hp
      obtain ⟨rfl, rfl⟩ : b' = b ∧ k' + 1 = k := by simpa [Port.serving] using hp
      have hlt := s.arLen.isLt
      rw [← haddr, (load_beat (by omega) hlen hbeat).1]
  | false =>
    -- what is offered then was offered before
    obtain ⟨hkeep, hdata⟩ : (s.rvalid = true ∧ i.rready = false) ∧ (s.step g mem i).rdata = s.rdata := by
      cases hs : s.arState with
      | idle =>
        cases hacc : s.arAccepted g i with
        | none =>
          rw [Axi4SimRam.ReadChannel.step_idle hr hs hacc] at hvalid ⊢
          simpa using hvalid
        | some q =>
          rw [(Axi4SimRam.ReadChannel.step_accept hr hacc).2] at hvalid ⊢
          simpa using hvalid
      | burst =>
        rw [Axi4SimRam.ReadChannel.step_burst_wait hr hs hload] at hvalid ⊢
        simpa using hvalid
    rw [hdata]
    refine hd hkeep.1 b k ?_
    rw [hkeep.2, Bool.and_false] at hp
    cases h with
    | rest _ hv => simp [hkeep.1] at hv
    | fetch _ _ _ _ hv => simp [hkeep.1] at hv
    | offer b' k' hp' =>
      obtain ⟨-, hnone⟩ := arTaken_serving (g := g) (s := s) hp' hfree
      rw [hnone, hp', Port.step_quiet] at hp
      rw [hp', hp]

/-- Beats come for a pending burst only, the last one with the last flag. -/
theorem RdLink.legal (h : RdLink s p) (hv : s.rvalid = true) :
    p.pending ≠ [] ∧ s.rlast = p.lastBeat := by
  cases h with
  | rest _ hv' => rw [hv'] at hv; cases hv
  | fetch _ _ _ _ hv' => rw [hv'] at hv; cases hv
  | offer b k hp _ _ hlast =>
    rw [hp, Port.serving_lastBeat]
    exact ⟨by simp [Port.serving], hlast⟩

end read

section write
variable {s : Axi4SimRam.WriteChannel A ID} {p : Port A} {bDue : ℕ} {g : Axi4SimRam.Gates}
  {i : Axi4SimRam.RamIn DW A ID}

def awTaken (g : Axi4SimRam.Gates) (i : Axi4SimRam.RamIn DW A ID) (s : Axi4SimRam.WriteChannel A ID) :
    Option (Req A) :=
  if i.awvalid && s.awready g then some ⟨i.awaddr, i.awlen.toNat + 1⟩ else none

/-- A write beat is transferred. -/
def wTaken (g : Axi4SimRam.Gates) (i : Axi4SimRam.RamIn DW A ID) (s : Axi4SimRam.WriteChannel A ID) : Bool :=
  i.wvalid && s.wready g

/-- One cycle of the write channel, for a master that flags its last beats and takes
every response at once. -/
theorem WrLink.step (h : WrLink s p bDue) (hr : i.rst = false) (hready : i.bready = true)
    (hlast : i.wvalid = true → i.wlast = p.lastBeat) :
    WrLink (s.step g i) (p.step (awTaken g i s) (wTaken g i s))
      (bDue - s.bvalid.toNat + (wTaken g i s && i.wlast).toNat) := by
  cases h with
  | rest hs hv hp hb =>
    have hw : wTaken g i s = false := by simp [wTaken, Axi4SimRam.WriteChannel.wready, hs]
    rw [hp, hw, hv, hb]
    cases hacc : i.awvalid && s.awready g with
    | false =>
      have hnone : s.awAccepted g i = none := by simp [Axi4SimRam.WriteChannel.awAccepted, hacc]
      rw [Axi4SimRam.WriteChannel.step_idle hr hs hnone, awTaken, hacc]
      exact .rest hs (by simp [hv]) (Port.step_quiet _) rfl
    | true =>
      have hsome : s.awAccepted g i = some ⟨i.awid, i.awaddr, i.awlen⟩ := by
        simp [Axi4SimRam.WriteChannel.awAccepted, hr, hacc]
      rw [(Axi4SimRam.WriteChannel.step_accept hr hsome).2, awTaken, hacc, if_pos rfl, Port.idle_accept]
      exact .data _ 0 rfl rfl (by simp [hv]) rfl (Nat.succ_pos _) rfl rfl rfl
  | data b k hp hs hv hb hk haddr hlen hbeat =>
    have haw : awTaken g i s = none := by simp [awTaken, Axi4SimRam.WriteChannel.awready, hs]
    rw [haw, hp, hv, hb]
    cases hw : wTaken g i s with
    | false =>
      have hnone : s.wBeat g i = none := by
        rw [wTaken] at hw
        simp [Axi4SimRam.WriteChannel.wBeat, hw]
      rw [Axi4SimRam.WriteChannel.step_data_wait hr hs hnone, Port.step_quiet]
      exact .data b k rfl hs (by simp [hv]) rfl hk haddr hlen hbeat
    | true =>
      have hsome : s.wBeat g i = some ⟨s.awId, Axi4SimRam.index DW s.awAddr s.awBeat, i.wlast⟩ := by
        rw [wTaken] at hw
        simp [Axi4SimRam.WriteChannel.wBeat, hr, hw]
      have hflag : i.wlast = (k + 1 == b.len) := by
        have hvalid : i.wvalid = true := by
          rw [wTaken, Bool.and_eq_true] at hw
          exact hw.1
        rw [hlast hvalid, hp, Port.serving_lastBeat]
      rw [Axi4SimRam.WriteChannel.step_beat hr hsome, hflag]
      by_cases hover : k + 1 = b.len
      · rw [Port.serving_last hover]
        refine .resp ?_ ?_ rfl ?_
        all_goals simp [hover]
      · have hlt := s.awLen.isLt
        have hsucc : (s.awBeat + 1).toNat = k + 1 := by
          rw [BitVec.toNat_add, hbeat]
          exact Nat.mod_eq_of_lt (by simp; omega)
        rw [Port.serving_next hover]
        simp only [beq_eq_false_iff_ne.mpr hover, Bool.false_eq_true, if_false]
        exact .data b (k + 1) rfl hs (by simp [hv]) rfl (by omega) haddr hlen hsucc
  | resp hs hv hp hb =>
    have hw : wTaken g i s = false := by simp [wTaken, Axi4SimRam.WriteChannel.wready, hs]
    have haw : awTaken g i s = none := by simp [awTaken, Axi4SimRam.WriteChannel.awready, hs]
    rw [haw, hw, hp, hb, Axi4SimRam.WriteChannel.step_resp hr hs, Port.step_quiet]
    refine .rest ?_ ?_ rfl ?_
    all_goals simp [hv, hready]

theorem wrLink_reset (s : Axi4SimRam.WriteChannel A ID) (hr : i.rst = true) :
    WrLink (s.step g i) Port.idle 0 := by
  refine .rest ?_ ?_ rfl rfl
  all_goals simp [Axi4SimRam.WriteChannel.step, hr]

/-- Responses come for a written burst only. -/
theorem WrLink.legal (h : WrLink s p bDue) (hv : s.bvalid = true) : 0 < bDue := by
  cases h with
  | rest _ hv' => rw [hv'] at hv; cases hv
  | data _ _ _ _ hv' => rw [hv'] at hv; cases hv
  | resp _ _ _ hb => omega

end write

end links

/-! ## Runs -/

/-- Both memories serve what the monitor has pending. -/
structure Linked (s : Top N A) : Prop where
  rd : RdLink s.uRamRd.rd s.bridge.bus.rd
  wr : WrLink s.uRamWr.wr s.bridge.bus.wr s.bridge.bus.bDue

section cycle
variable {z : Sizes} {c : Cmd A} {i : TopIn N A} {s : Top N A}

/-- `u_ram_rd` is written through the back door only. -/
theorem Top.step_rd_mem (z : Sizes) (i : TopIn N A) (s : Top N A) :
    (s.step z i).uRamRd.mem = (i.backdoor s.mems).1 := by
  simp [Top.step, Axi4SimRam.SimRam.step, Axi4SimRam.SimRam.memStep, Axi4SimRam.SimRam.wWord, Top.rdIn, rdPort]

/-- The memories do what the bridge relies on. -/
theorem Linked.legal (h : Linked s) (i : TopIn N A) : s.bridge.Legal (s.dmaIn i) where
  rvalid := h.rd.legal
  bvalid := h.wr.legal

/-- The bridge does what the memories rely on. -/
theorem Linked.step (h : Linked s) (hports : Ports z.depths c s.bridge) (hr : i.rst = false) :
    Linked (s.step z i) := by
  have hfree : (s.rdIn i).arvalid = true → s.bridge.bus.rd = Port.idle := fun hv =>
    (hports.reading.offer hv).2.1
  have hlast : (s.wrIn i).wvalid = true → (s.wrIn i).wlast = s.bridge.bus.wr.lastBeat := by
    intro hv
    obtain ⟨-, b, k, hp, -, hflag⟩ := hports.sending.beat hv
    rw [hp, Port.serving_lastBeat]
    exact hflag
  have hrd := h.rd.step (g := s.rdGates i) (i := s.rdIn i) (i.backdoor s.mems).1 hr hfree
  have hwr := h.wr.step (g := s.wrGates i) (i := s.wrIn i) hr rfl hlast
  refine ⟨?_, ?_⟩
  · have hbus : (s.step z i).bridge.bus.rd =
        s.bridge.bus.rd.step (s.bridge.dma.rd.arAccepted (s.dmaIn i)) (s.bridge.dma.rd.push (s.dmaIn i)) := by
      simp [Top.step, Sys.step, Top.dmaIn, hr]
    rw [hbus]
    exact hrd
  · have hbus : (s.step z i).bridge.bus.wr =
        s.bridge.bus.wr.step (s.bridge.dma.wr.awAccepted (s.dmaIn i)) (s.bridge.dma.wr.sent (s.dmaIn i)) := by
      simp [Top.step, Sys.step, Top.dmaIn, hr]
    have hdue : (s.step z i).bridge.bus.bDue = s.bridge.bus.bDue - (s.dmaIn i).bvalid.toNat +
        (s.bridge.dma.wr.sent (s.dmaIn i) && s.bridge.dma.wr.wlast).toNat := by
      simp [Top.step, Sys.step, Top.dmaIn, hr]
    rw [hbus, hdue]
    exact hwr

theorem linked_reset (z : Sizes) (s : Top N A) (hr : i.rst = true) : Linked (s.step z i) := by
  refine ⟨?_, ?_⟩
  · have hbus : (s.step z i).bridge.bus.rd = Port.idle := by simp [Top.step, Sys.step, Top.dmaIn, hr]
    rw [hbus]
    exact rdLink_reset (i := s.rdIn i) _ _ hr
  · have hbus : (s.step z i).bridge.bus = ⟨Port.idle, Port.idle, 0⟩ := by
      simp [Top.step, Sys.step, Top.dmaIn, hr]
    rw [hbus]
    exact wrLink_reset (i := s.wrIn i) _ hr

end cycle

/-- The registers in cycle `t`. -/
abbrev top (z : Sizes) (p : Top N A) (i : ℕ → TopIn N A) (t : ℕ) : Top N A := run (Top.step z) p i t

/-- What the bridge is driven with in a run of the whole. -/
def dmaTrace (z : Sizes) (p : Top N A) (i : ℕ → TopIn N A) (t : ℕ) : DmaIn N A := (top z p i t).dmaIn (i t)

section runs
variable {z : Sizes} {p : Top N A} {i : ℕ → TopIn N A} {r t u : ℕ}

theorem run_bridge (t : ℕ) :
    (top z p i t).bridge = run (Sys.step z.depths) p.bridge (dmaTrace z p i) t := by
  induction t with
  | zero => rfl
  | succ t ih =>
    rw [run_succ, ← ih]
    rfl

/-- Each side keeps the other one to its assumptions, cycle by cycle. -/
theorem linked_run (hN : N < 2 ^ 31) (hr : (i r).rst = true) (hrt : r < t)
    (hrun : ∀ u, r < u → u < t → (i u).rst = false) : Linked (top z p i t) := by
  induction t using Nat.strong_induction_on with
  | _ t ih =>
    obtain ⟨u, rfl⟩ : ∃ u, t = u + 1 := ⟨t - 1, by omega⟩
    rcases Nat.lt_succ_iff_lt_or_eq.mp hrt with hru | rfl
    · have hprev : ∀ v, r < v → v ≤ u → Linked (top z p i v) := fun v hv hvu =>
        ih v (by omega) hv fun w hw hwv => hrun w hw (by omega)
      -- so far the memories were legal, which gives the state of the bridge
      obtain ⟨c, hports, -⟩ := ports_run (d := z.depths) (p := p.bridge) (i := dmaTrace z p i) hN hr hru
        (fun v hv hvu => hrun v hv (by omega)) fun v hv hvu => by
          rw [← run_bridge]
          exact (hprev v hv hvu.le).legal (i v)
      rw [← run_bridge] at hports
      exact (hprev u hru le_rfl).step hports (hrun u hru (Nat.lt_succ_self u))
    · exact linked_reset z _ hr

/-- The bus assumption of the bridge needs no assumption here. -/
theorem legal_run (hN : N < 2 ^ 31) (hr : (i r).rst = true)
    (hrun : ∀ u, r < u → u < t → (i u).rst = false) (u : ℕ) (hru : r < u) (hut : u < t) :
    (run (Sys.step z.depths) p.bridge (dmaTrace z p i) u).Legal (dmaTrace z p i u) := by
  rw [← run_bridge]
  exact (linked_run hN hr hru fun v hv hvu => hrun v hv (by omega)).legal (i u)

theorem ports_top (hN : N < 2 ^ 31) (hr : (i r).rst = true) (hrt : r < t)
    (hrun : ∀ u, r < u → u < t → (i u).rst = false) : ∃ c, Ports z.depths c (top z p i t).bridge := by
  obtain ⟨c, hports, -⟩ := ports_run hN hr hrt hrun (legal_run (z := z) (p := p) hN hr hrun)
  rw [← run_bridge] at hports
  exact ⟨c, hports⟩

end runs

/-! ## A run -/

/-- FIFOs of 4 words and two memories of 64. -/
def demoSizes : Sizes := ⟨demoDepths, 64, 64⟩

/-- A 1 x 1 instance; word `a` of the read memory is `a + 1`, and nothing is known about
its registers. -/
def demoTop : Top 1 8 where
  bridge := demoSys
  uRamRd := ⟨fun a => BitVec.ofNat 8 (a + 1), 0, ⟨.burst, 0, 0, 0, 0, 0, 0, 0, false, true⟩, ⟨.idle, 0, 0, 0, 0, 0, 0, false⟩⟩
  uRamWr := ⟨fun _ => 0, 0, ⟨.idle, 0, 0, 0, 0, 0, 0, 0, false, false⟩, ⟨.data, 0, 0, 0, 0, 0, 0, true⟩⟩
  rdBeatCount := 7
  wrBeatCount := 7

/-- A reset, then one command of two rows; every handshake may be stalled. -/
def demoIn (t : ℕ) : TopIn 1 8 where
  rst := t == 0
  start := t == 1
  cmd := ⟨0, 16, 64, 2⟩
  stalls := ⟨0xF, 0xF, 0, 5⟩
  backdoor m := m

end StreamAxi
