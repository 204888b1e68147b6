import TensorAccel.Axi.SharedMemory
import TensorAccel.Mmio.CmdQueueRegs

/-! # The coprocessor on AXI

    Translation of `rtl/mmio/coproc_axi_top.sv`: the command queue in front of
    the AXI bridge.  The queue presents the next command only while the bridge is
    free, and keeps it on the port until then, which is what the bridge relies
    on. -/

open Clocked Burst StreamCtrl CmdQueueRegs DmaBridge

namespace CoprocAxi

variable {N A : ℕ}

/-! ## Model -/

/-- The parameters `MAX_ROWS` and `BASE_ADDR`.  The depths of the FIFOs are of type
`int`. -/
structure Params (N : ℕ) where
  maxRows : ℕ
  baseAddr : BitVec 64
  rows_pos : 0 < maxRows
  rows_lt : maxRows + N < 2 ^ 31

/-- The FIFO depths of `u_bridge`. -/
def Params.depths (P : Params N) : Depths where
  rd := P.maxRows + N
  wr := P.maxRows
  rd_pos := Nat.lt_of_lt_of_le P.rows_pos (Nat.le_add_right _ _)
  wr_pos := P.rows_pos
  rd_lt := P.rows_lt
  wr_lt := Nat.lt_of_le_of_lt (Nat.le_add_right _ _) P.rows_lt

theorem Params.lanes_lt (P : Params N) : N < 2 ^ 31 :=
  Nat.lt_of_le_of_lt (Nat.le_add_left _ _) P.rows_lt

/-- Registers of `coproc_axi_top`, and the monitor of its two AXI ports. -/
structure AxiTop (N A : ℕ) where
  regs : Regs 32
  bridge : Sys N A

/-- The dmem port, and the inputs of the two AXI ports. -/
structure AxiIn (N A : ℕ) where
  rst : Bool
  dmemAddr : BitVec 64
  dmemWdata : BitVec 64
  dmemWen : Bool
  dmemFunct3 : BitVec 3
  arready : Bool
  rdata : Lanes8 N
  rlast : Bool
  rvalid : Bool
  awready : Bool
  wready : Bool
  bvalid : Bool

/-- The bases of `u_regs` have 32 bits, the wires to `u_bridge` have `ADDR_W`. -/
def cmdWires (c : Cmd 32) : Cmd A where
  wBase := c.wBase.setWidth A
  aBase := c.aBase.setWidth A
  cBase := c.cBase.setWidth A
  mRows := c.mRows

namespace AxiTop

/-- The ports of `u_regs`. -/
def regsIn (i : AxiIn N A) (s : AxiTop N A) : RegsIn where
  rst := i.rst
  dmemAddr := i.dmemAddr
  dmemWdata := i.dmemWdata
  dmemWen := i.dmemWen
  dmemFunct3 := i.dmemFunct3
  busy := s.bridge.dma.busy
  done := s.bridge.dma.done

/-- The ports of `u_bridge`. -/
def dmaIn (i : AxiIn N A) (s : AxiTop N A) : DmaIn N A where
  rst := i.rst
  start := s.regs.start
  cmd := cmdWires s.regs.cmd
  arready := i.arready
  rdata := i.rdata
  rlast := i.rlast
  rvalid := i.rvalid
  awready := i.awready
  wready := i.wready
  bvalid := i.bvalid

/-- One clock edge of `coproc_axi_top`. -/
def step (P : Params N) (i : AxiIn N A) (s : AxiTop N A) : AxiTop N A where
  regs := Regs.step P.baseAddr (regsIn i s) s.regs
  bridge := s.bridge.step P.depths (dmaIn i s)

/-! ## The two halves of a run -/

/-- What the register block is driven with in a run of the whole. -/
def regsTrace (P : Params N) (p : AxiTop N A) (i : ℕ → AxiIn N A) (t : ℕ) : RegsIn :=
  regsIn (i t) (run (step P) p i t)

/-- What the bridge is driven with in a run of the whole. -/
def dmaTrace (P : Params N) (p : AxiTop N A) (i : ℕ → AxiIn N A) (t : ℕ) : DmaIn N A :=
  dmaIn (i t) (run (step P) p i t)

/-- The commands accepted from the dmem port in cycles `s, ..., t - 1`. -/
def accepted (P : Params N) (p : AxiTop N A) (i : ℕ → AxiIn N A) (s t : ℕ) : List (Cmd 32) :=
  eventsIn (fun u => Regs.enqEvent P.baseAddr (regsTrace P p i u) (run (step P) p i u).regs) s t

/-- The commands started in cycles `s, ..., t - 1`. -/
def started (P : Params N) (p : AxiTop N A) (i : ℕ → AxiIn N A) (s t : ℕ) : List (Cmd 32) :=
  eventsIn (fun u => Regs.startEvent (run (step P) p i u).regs) s t

section runs
variable {P : Params N} {p : AxiTop N A} {i : ℕ → AxiIn N A} {r t u : ℕ}

theorem run_regs (t : ℕ) : (run (step P) p i t).regs =
    run (Regs.step P.baseAddr) p.regs (regsTrace P p i) t := by
  induction t with
  | zero => rfl
  | succ t ih => rw [run_succ, run_succ, ← ih]; rfl

theorem run_bridge (t : ℕ) : (run (step P) p i t).bridge =
    run (Sys.step P.depths) p.bridge (dmaTrace P p i) t := by
  induction t with
  | zero => rfl
  | succ t ih => rw [run_succ, run_succ, ← ih]; rfl

/-! ## What the queue guarantees -/

theorem accepted_eq (hr : (i r).rst = true) (hrt : r < t)
    (hrun : ∀ u, r < u → u < t → (i u).rst = false) :
    accepted P p i (r + 1) t =
      started P p i (r + 1) (t + 1) ++ (run (step P) p i t).regs.queue := by
  have hquiet : Quiet (fun u => (regsTrace P p i u).rst) (r + 1) t :=
    fun u hut hu => hrun u hu hut
  have hbal := Regs.enq_eq_start_queue (p := p.regs) (i := regsTrace P p i) P.baseAddr hr hrt hquiet
  simp only [← run_regs] at hbal
  exact hbal

/-- A start pulse finds the bridge free. -/
theorem start_free (hr : (i r).rst = true) (hrt : r < t)
    (hrun : ∀ u, r < u → u < t → (i u).rst = false)
    (hstart : (run (step P) p i t).regs.start = true) :
    (run (step P) p i t).bridge.dma.busy = false := by
  obtain ⟨u, rfl⟩ : ∃ u, t = u + 1 := ⟨t - 1, by omega⟩
  rcases Nat.lt_succ_iff_lt_or_eq.mp hrt with hru | rfl
  · -- the pop was decided one cycle earlier, when the bridge was free and no start pulse came
    have hrst := hrun u hru (Nat.lt_succ_self u)
    obtain ⟨hfree, hlow⟩ := Regs.start_of_pop (i := regsIn (i u) (run (step P) p i u)) hrst hstart
    have hacc : (run (step P) p i u).bridge.dma.accept (dmaIn (i u) (run (step P) p i u)) = false := by
      rw [Dma.accept, dmaIn, hlow]
      rfl
    by_contra hbusy
    have hbusy' := busy_rises hrst hacc (Bool.eq_true_of_not_eq_false hbusy)
    exact absurd (hbusy'.symm.trans hfree) (by simp)
  · have hidle := (Regs.valid_reset (i := regsIn (i r) (run (step P) p i r)) P.baseAddr
      (run (step P) p i r).regs hr).2.2
    exact absurd (hstart.symm.trans hidle) (by simp)

/-- While the bridge is busy its command stays on the port. -/
theorem cmd_held (hr : (i r).rst = true) (hrt : r < t)
    (hrun : ∀ u, r < u → u ≤ t → (i u).rst = false)
    (hbusy : (run (step P) p i (t + 1)).bridge.dma.busy = true) :
    (run (step P) p i (t + 1)).regs.cmd = (run (step P) p i t).regs.cmd := by
  have hrst := hrun t hrt le_rfl
  have hpop : (run (step P) p i t).regs.pop (regsIn (i t) (run (step P) p i t)) = false := by
    by_contra hpop
    have hstart : (run (step P) p i (t + 1)).regs.start = true := by
      simpa [run_succ, step, Regs.step, regsIn, hrst] using hpop
    have hfree := start_free hr (by omega) (fun u hu hut => hrun u hu (by omega)) hstart
    rw [hbusy] at hfree
    cases hfree
  rw [run_succ, step, Regs.step, if_neg (by simp [regsIn, hrst])]
  simp [hpop]

/-- Started commands were accepted. -/
theorem started_accepted (hr : (i r).rst = true) (hrun : ∀ u, r < u → u < t → (i u).rst = false)
    (hru : r < u) (hut : u < t) (hstart : (run (step P) p i u).regs.start = true) :
    (run (step P) p i u).regs.cmd ∈ accepted P p i (r + 1) t := by
  rw [accepted_eq hr (hru.trans hut) hrun]
  apply List.mem_append_left
  rw [started, mem_eventsIn]
  exact ⟨u, hru, by omega, by simp [Regs.startEvent, hstart]⟩

/-- The bridge is driven as it expects. -/
theorem driven (hr : (i r).rst = true) (hrun : ∀ u, r < u → u < t → (i u).rst = false)
    (hlegal : ∀ u, r < u → u < t →
      (run (step P) p i u).bridge.Legal (dmaIn (i u) (run (step P) p i u)))
    (hrows : ∀ c ∈ accepted P p i (r + 1) t, 1 ≤ c.mRows.toNat) :
    Driven P.depths p.bridge (dmaTrace P p i) r t where
  rst := hr
  run := hrun
  legal u hru hut := by
    rw [← run_bridge]
    exact hlegal u hru hut
  rows u hru hut hacc := hrows _ (started_accepted hr hrun hru hut hacc.1)
  held u hru hut hbusy := by
    rw [← run_bridge] at hbusy
    have hcmd := cmd_held hr hru (fun v hv hvu => hrun v hv (by omega)) hbusy
    show (run (step P) p i (u + 1)).regs.cmd.mRows = (run (step P) p i u).regs.cmd.mRows
    rw [hcmd]

/-- The bridge begins what the queue starts. -/
theorem begun_eq (hr : (i r).rst = true) (hrun : ∀ u, r < u → u < t → (i u).rst = false) :
    begun P.depths p.bridge (dmaTrace P p i) (r + 1) t = (started P p i (r + 1) t).map cmdWires := by
  rw [begun, started, eventsIn, eventsIn, List.map_filterMap]
  refine List.filterMap_congr fun u hu => ?_
  rw [List.mem_range'_1] at hu
  rw [← run_bridge, Regs.startEvent]
  cases hstart : (run (step P) p i u).regs.start with
  | false => simp [Dma.accept, dmaTrace, dmaIn, hstart]
  | true =>
    have hfree := start_free hr (show r < u by omega) (fun v hv hvu => hrun v hv (by omega)) hstart
    simp [Dma.accept, dmaTrace, dmaIn, hstart, hfree]

/-! ## Order -/

/-- The command started in cycle `a` runs in cycle `t`, and those before it are
over: their rows were sent, and no response to them is due. -/
structure Runs (P : Params N) (p : AxiTop N A) (i : ℕ → AxiIn N A) (r a t : ℕ) : Prop where
  after : r < a
  before : a < t
  start : (run (step P) p i a).regs.start = true
  busy : ∀ u, a < u → u ≤ t → (run (step P) p i u).bridge.dma.busy = true
  ended : ∀ b, r < b → b < a → (run (step P) p i b).regs.start = true →
    EndedBy P.depths p.bridge (dmaTrace P p i) b a

theorem runs_of_accept (hN : 0 < N) (h : Driven P.depths p.bridge (dmaTrace P p i) r t) {a : ℕ}
    (hra : r < a) (hat : a < t) (hacc : Accepts P.depths p.bridge (dmaTrace P p i) a)
    (hbusy : BusyBetween P.depths p.bridge (dmaTrace P p i) a (t + 1)) : Runs P p i r a t := by
  refine ⟨hra, hat, hacc.1, ?_, ?_⟩
  · intro u hau hut
    rw [run_bridge]
    exact hbusy u hau (Nat.lt_succ_of_le hut)
  · intro b hrb hba hstart
    have hfree := start_free h.rst hrb (fun u hu hub => h.run u hu (by omega)) hstart
    rw [run_bridge] at hfree
    exact ended_by hN P.lanes_lt (h.fed P.lanes_lt) hrb hba hat ⟨hstart, hfree⟩ hacc

end runs

/-- **Commands take effect one after another**, in any run after a reset whose
commands have a row at least, and for any legal behaviour of the subordinates.
While an address or a beat is offered on the write port, all words of the command
that runs were received.  While one is offered or pending on the read port, nothing
of that command was written.  So if both ports lead to one memory, then at a done
pulse it holds what the accepted commands with done pulses make of it in order,
each reading all its words before it stores a row. -/
theorem axi_top_in_order (P : Params N) (hN : 0 < N) (p : AxiTop N A) (i : ℕ → AxiIn N A) {r : ℕ}
    (hr : (i r).rst = true) (t : ℕ) (hrt : r < t) (hrun : ∀ u, r < u → u < t → (i u).rst = false)
    (hlegal : ∀ u, r < u → u < t →
      (run (step P) p i u).bridge.Legal (dmaIn (i u) (run (step P) p i u)))
    (hrows : ∀ c ∈ accepted P p i (r + 1) t, 1 ≤ c.mRows.toNat) :
    ((run (step P) p i t).bridge.dma.wr.awvalid = true ∨
        (run (step P) p i t).bridge.dma.wr.wvalid = true →
      ∃ a, Runs P p i r a t ∧ (readBeats P.depths p.bridge (dmaTrace P p i) a t).length =
        N + (run (step P) p i a).regs.cmd.mRows.toNat) ∧
    ((run (step P) p i t).bridge.dma.rd.arvalid = true ∨
        (run (step P) p i t).bridge.bus.rd.pending ≠ [] →
      ∃ a, Runs P p i r a t ∧ sentBeats P.depths p.bridge (dmaTrace P p i) a t = [] ∧
        (run (step P) p i t).bridge.dma.wr.awvalid = false ∧
        (run (step P) p i t).bridge.dma.wr.wvalid = false) ∧
    (∀ (M : Type) (mm : Memory N A M) (mem : ℕ → M),
      Serves mm P.depths p.bridge (dmaTrace P p i) mem r t →
      (run (step P) p i t).bridge.dma.done = true →
      mem t = mm.execAll (mem (r + 1)) (((accepted P p i (r + 1) t).take
        (donePulses P.depths p.bridge (dmaTrace P p i) (r + 1) (t + 1))).map cmdWires)) := by
  have hdrv := driven hr hrun hlegal hrows
  obtain ⟨hwriting, hreading⟩ := bridge_ordered hN P.lanes_lt hrt (hdrv.fed P.lanes_lt)
  refine ⟨?_, ?_, ?_⟩
  · intro hv
    rw [run_bridge] at hv
    obtain ⟨a, hra, hat, hacc, hbusy, hlen⟩ := hwriting hv
    exact ⟨a, runs_of_accept hN hdrv hra hat hacc hbusy, hlen⟩
  · intro hv
    rw [run_bridge] at hv ⊢
    obtain ⟨a, hra, hat, hacc, hbusy, hnone, haw, hw, -⟩ := hreading hv
    exact ⟨a, runs_of_accept hN hdrv hra hat hacc hbusy, hnone, haw, hw⟩
  · intro M mm mem hmem hdone
    obtain ⟨u, rfl⟩ : ∃ u, t = u + 1 := ⟨t - 1, by omega⟩
    have hfree : (run (Sys.step P.depths) p.bridge (dmaTrace P p i) (u + 1)).dma.busy = false := by
      by_contra hbusy
      have hlow := done_free P.depths _ _ (Bool.eq_true_of_not_eq_false hbusy)
      rw [run_bridge, run_succ, hlow] at hdone
      cases hdone
    have hexec := executed_run hN P.lanes_lt (Nat.le_of_eq (Nat.add_comm P.maxRows N)) hdrv hmem hrt hfree
    have hsplit : started P p i (r + 1) (u + 1 + 1) = started P p i (r + 1) (u + 1) ++
        (Regs.startEvent (run (step P) p i (u + 1)).regs).toList := eventsIn_succ _ hrt
    -- the commands begun are those accepted first
    rw [hexec.memory, hexec.pulses, begun_eq hr hrun, List.length_map, accepted_eq hr hrt hrun, hsplit,
      List.append_assoc, List.take_left]

/-- `MAX_ROWS` of 4. -/
def demoParams : Params 1 := ⟨4, 0x10000000, demoDepths.wr_pos, by decide⟩

/-- A 1 x 1 instance with all registers zero. -/
def demoTop : AxiTop 1 8 where
  regs :=
    { fifoMem := fun _ => ⟨0, 0, 0, 0⟩, fifoWp := 0, fifoRp := 0, fifoCnt := 0, start := false,
      cmd := ⟨0, 0, 0, 0⟩, held := ⟨0, 0, 0, 0⟩, irqEn := false, irqPending := false,
      doneCount := 0 }
  bridge := demoSys

/-- The stores of two commands of one row, one a cycle: from byte 16 to byte 64, then from
byte 64 to byte 80. -/
def demoStore : ℕ → BitVec 64 × BitVec 64
  | 1 => (0x10000018, 1)
  | 2 => (0x10000008, 16)
  | 3 => (0x10000010, 64)
  | 4 => (0x10000020, 1)
  | 5 => (0x10000008, 64)
  | 6 => (0x10000010, 80)
  | 7 => (0x10000020, 1)
  | _ => (0x10000028, 0)

/-- A reset, the stores, and subordinates over a memory of the byte 3.  The activation that
cycle 34 returns is the result of the first command. -/
def demoStores (t : ℕ) : AxiIn 1 8 where
  rst := t == 0
  dmemAddr := (demoStore t).1
  dmemWdata := (demoStore t).2
  dmemWen := 1 ≤ t && t ≤ 7
  dmemFunct3 := f3D
  arready := true
  rdata := fun _ => if t == 34 then 9 else 3
  rlast := true
  rvalid := [9, 12, 31, 34].contains t
  awready := true
  wready := true
  bvalid := t == 25 || t == 47

/-- A memory of the byte 3 that stores every beat at once. -/
def demoMem (t : ℕ) : BitVec 8 → BitVec 8 :=
  Memory.bytes.writeAll (fun _ => 3)
    (sentBeats demoParams.depths demoTop.bridge (dmaTrace demoParams demoTop demoStores) 1 t)

/-- At the second done pulse, in cycle 49, byte 80 is 3 times the result 3 * 3 of the
first command. -/
theorem axi_top_in_order_demo :
    (run (step demoParams) demoTop demoStores 49).bridge.dma.done = true ∧ demoMem 49 80 = 3 * (3 * 3) := by
  have hdone : (run (step demoParams) demoTop demoStores 49).bridge.dma.done = true := by
    decide +kernel
  have hlegal : ∀ u < 49, 0 < u → (run (step demoParams) demoTop demoStores u).bridge.Legal
      (dmaIn (demoStores u) (run (step demoParams) demoTop demoStores u)) := by decide +kernel
  have haccepted : accepted demoParams demoTop demoStores 1 49 = [⟨0, 16, 64, 1⟩, ⟨0, 64, 80, 1⟩] := by
    decide +kernel
  have hfirst : demoMem 1 = fun _ => 3 := by simp [demoMem, sentBeats, Memory.writeAll]
  have hreads : ∀ u < 49, 0 < u → (run (step demoParams) demoTop demoStores u).bridge.dma.rd.push
      (dmaTrace demoParams demoTop demoStores u) = true →
      ((run (step demoParams) demoTop demoStores u).bridge.bus.rd.beatAddr (rbytes 1)).map
        (Memory.bytes.load (demoMem u)) = some (demoStores u).rdata := by
    simp only [demoMem, sentBeats, ← run_bridge]
    decide +kernel
  have hserves : Serves Memory.bytes demoParams.depths demoTop.bridge
      (dmaTrace demoParams demoTop demoStores) demoMem 0 49 := by
    constructor
    · intro u hu hut hpush
      rw [← run_bridge] at hpush
      refine ⟨u, hu, le_rfl, fun w hw hw' => .inr ?_, ?_⟩
      · obtain rfl : w = u := Nat.le_antisymm hw' hw
        rw [← run_bridge]
        rw [RdEngine.push, Bool.and_eq_true] at hpush
        exact ((hlegal w hut hu).rvalid hpush.1).1
      · rw [← run_bridge]
        exact hreads u hut hu hpush
    · intro u _ _ _ _
      rw [hfirst]
      rfl
  have hmain := axi_top_in_order demoParams Nat.one_pos demoTop demoStores rfl 49 (by decide)
    (fun u hu _ => by simp [demoStores]; omega) (fun u hu hut => hlegal u hut hu)
    (by rw [haccepted]; decide)
  have hpulses : donePulses demoParams.depths demoTop.bridge (dmaTrace demoParams demoTop demoStores)
      1 50 = 2 := by
    simp only [donePulses, ← run_bridge]
    decide +kernel
  refine ⟨hdone, ?_⟩
  rw [hmain.2.2 _ _ demoMem hserves hdone, haccepted, hfirst, hpulses]
  decide +kernel

end AxiTop

end CoprocAxi
