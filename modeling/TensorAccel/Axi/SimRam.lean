import TensorAccel.Framework.Bus
import TensorAccel.Framework.Clocked
import TensorAccel.Framework.Lfsr
import Mathlib.Data.Nat.Log

/-! # The AXI memory of the test benches

    Translation of `rtl/axi/axi4_sim_ram.sv`.  A read and a write channel share
    a memory of words, and a feedback shift register stalls the handshakes that
    `stall_mask` selects.  The ports `arsize`, `arburst`, `awsize` and `awburst`
    are read nowhere: every burst is served as an incrementing one of whole words. -/

open Clocked Span

namespace Axi4SimRam

variable {DW A ID : ℕ}

/-! ## Model -/

/-- The localparam `WBYTES`. -/
def wbytes (DW : ℕ) : ℕ := DW / 8

/-- The localparam `WSHIFT`. -/
def wshift (DW : ℕ) : ℕ := Nat.clog 2 (wbytes DW)

/-- Input ports of `axi4_sim_ram`. -/
structure RamIn (DW A ID : ℕ) where
  rst : Bool
  stallMask : BitVec 4
  stallSeed : BitVec 32
  arid : BitVec ID
  araddr : BitVec A
  arlen : BitVec 8
  arvalid : Bool
  rready : Bool
  awid : BitVec ID
  awaddr : BitVec A
  awlen : BitVec 8
  awvalid : Bool
  wdata : BitVec DW
  wstrb : BitVec (DW / 8)
  wlast : Bool
  wvalid : Bool
  bready : Bool

/-- `lfsr[31] ^ lfsr[21] ^ lfsr[1] ^ lfsr[0]` -/
def feedback (lfsr : BitVec 32) : Bool :=
  ((lfsr.getLsbD 31 ^^ lfsr.getLsbD 21) ^^ lfsr.getLsbD 1) ^^ lfsr.getLsbD 0

def lfsrStep (i : RamIn DW A ID) (lfsr : BitVec 32) : BitVec 32 :=
  if i.rst then (if i.stallSeed = 0 then 0xACE11234#32 else i.stallSeed)
  else Lfsr.shift feedback lfsr

/-- `!stall_mask[k] || lfsr[b]` -/
def gate (i : RamIn DW A ID) (lfsr : BitVec 32) (k b : ℕ) : Bool :=
  !i.stallMask.getLsbD k || lfsr.getLsbD b

/-- The four gates of a cycle. -/
structure Gates where
  ar : Bool
  aw : Bool
  w : Bool
  r : Bool

def gates (i : RamIn DW A ID) (lfsr : BitVec 32) : Gates where
  ar := gate i lfsr 0 3
  aw := gate i lfsr 1 7
  w := gate i lfsr 2 11
  r := gate i lfsr 3 15

/-- `(addr >> WSHIFT) + beat`, in the wider of the two widths. -/
def index (DW : ℕ) (addr : BitVec A) (beat : BitVec 8) : ℕ :=
  ((addr >>> wshift DW).setWidth (max A 8) + beat.setWidth (max A 8)).toNat

/-- `ar_state_t` -/
inductive ArState where
  | idle
  | burst
  deriving DecidableEq

/-- The registers of the read channel. -/
structure ReadChannel (DW A ID : ℕ) where
  arState : ArState
  arId : BitVec ID
  arAddr : BitVec A
  arLen : BitVec 8
  arBeat : BitVec 8
  rid : BitVec ID
  rdata : BitVec DW
  rresp : BitVec 2
  rlast : Bool
  rvalid : Bool

namespace ReadChannel

def arready (g : Gates) (s : ReadChannel DW A ID) : Bool := s.arState == .idle && g.ar

/-- A beat is loaded: there is a burst, the beat before is gone or goes, and no stall. -/
def load (g : Gates) (i : RamIn DW A ID) (s : ReadChannel DW A ID) : Bool :=
  s.arState == .burst && (!s.rvalid || i.rready) && g.r

def step (g : Gates) (mem : ℕ → BitVec DW) (i : RamIn DW A ID) (s : ReadChannel DW A ID) :
    ReadChannel DW A ID :=
  if i.rst then { s with arState := .idle, rvalid := false }
  else
    let s' := { s with rvalid := if s.rvalid && i.rready then false else s.rvalid }
    match s.arState with
    | .idle =>
      if i.arvalid && s.arready g then
        { s' with arId := i.arid, arAddr := i.araddr, arLen := i.arlen, arBeat := 0, arState := .burst }
      else s'
    | .burst =>
      if !s.rvalid || i.rready then
        if g.r then
          { s' with
            rid := s.arId
            rdata := mem (index DW s.arAddr s.arBeat)
            rresp := 0
            rlast := s.arBeat == s.arLen
            rvalid := true
            arState := if s.arBeat = s.arLen then .idle else .burst
            arBeat := if s.arBeat = s.arLen then s.arBeat else s.arBeat + 1 }
        else { s' with rvalid := false }
      else s'

end ReadChannel

/-- `aw_state_t` -/
inductive AwState where
  | idle
  | data
  | resp
  deriving DecidableEq

/-- The registers of the write channel. -/
structure WriteChannel (A ID : ℕ) where
  awState : AwState
  awId : BitVec ID
  awAddr : BitVec A
  awLen : BitVec 8
  awBeat : BitVec 8
  bid : BitVec ID
  bresp : BitVec 2
  bvalid : Bool

namespace WriteChannel

def awready (g : Gates) (s : WriteChannel A ID) : Bool := s.awState == .idle && g.aw

def wready (g : Gates) (s : WriteChannel A ID) : Bool := s.awState == .data && g.w

def step (g : Gates) (i : RamIn DW A ID) (s : WriteChannel A ID) : WriteChannel A ID :=
  if i.rst then { s with awState := .idle, bvalid := false }
  else
    let s' := { s with bvalid := if s.bvalid && i.bready then false else s.bvalid }
    match s.awState with
    | .idle =>
      if i.awvalid && s.awready g then
        { s' with awId := i.awid, awAddr := i.awaddr, awLen := i.awlen, awBeat := 0, awState := .data }
      else s'
    | .data =>
      if i.wvalid && s.wready g then
        if i.wlast then { s' with bid := s.awId, bresp := 0, bvalid := true, awState := .resp }
        else { s' with awBeat := s.awBeat + 1 }
      else s'
    | .resp => if s.bvalid && i.bready then { s' with awState := .idle } else s'

end WriteChannel

/-- `word[b*8 +: 8] <= v` -/
def putByte (b : ℕ) (v : BitVec 8) (word : BitVec DW) : BitVec DW :=
  (word &&& ~~~(BitVec.ofNat DW 0xFF <<< (b * 8))) ||| (v.setWidth DW <<< (b * 8))

/-- A beat over a word of the memory: the loop over the strobes. -/
def strobed (data : BitVec DW) (strb : BitVec (DW / 8)) (word : BitVec DW) : BitVec DW :=
  forLoop (fun b word =>
    if strb.getLsbD b then putByte b (data.extractLsb' (b * 8) 8) word else word) (wbytes DW) word

/-- `axi4_sim_ram`.  There are no words from `DEPTH` on: what is written there is
lost, and what is read there is arbitrary. -/
structure SimRam (DW A ID : ℕ) where
  mem : ℕ → BitVec DW
  lfsr : BitVec 32
  rd : ReadChannel DW A ID
  wr : WriteChannel A ID

namespace SimRam

/-- The write beat of a cycle falls on this word. -/
def wWord (i : RamIn DW A ID) (s : SimRam DW A ID) : Option ℕ :=
  if !i.rst && (i.wvalid && s.wr.wready (gates i s.lfsr)) then some (index DW s.wr.awAddr s.wr.awBeat)
  else none

def memStep (D : ℕ) (i : RamIn DW A ID) (s : SimRam DW A ID) : ℕ → BitVec DW :=
  match s.wWord i with
  | some a => if a < D then Function.update s.mem a (strobed i.wdata i.wstrb (s.mem a)) else s.mem
  | none => s.mem

def step (D : ℕ) (i : RamIn DW A ID) (s : SimRam DW A ID) : SimRam DW A ID where
  mem := s.memStep D i
  lfsr := lfsrStep i s.lfsr
  rd := s.rd.step (gates i s.lfsr) s.mem i
  wr := s.wr.step (gates i s.lfsr) i

end SimRam

/-! ## Bursts -/

/-- A burst as its address channel announces it: `len` is the number of beats less one. -/
structure Req (A ID : ℕ) where
  id : BitVec ID
  addr : BitVec A
  len : BitVec 8
  deriving DecidableEq

/-- A beat of a burst: the word of the memory it is about, and the last flag. -/
structure Beat (ID : ℕ) where
  id : BitVec ID
  word : ℕ
  last : Bool
  deriving DecidableEq

namespace Req

/-- `addr >> WSHIFT` -/
def word (DW : ℕ) (q : Req A ID) : ℕ := (q.addr >>> wshift DW).toNat

/-- The beats of a burst: `len + 1` words in a row, the last flag on the last one. -/
def beats (DW : ℕ) (q : Req A ID) : List (Beat ID) :=
  (List.range (q.len.toNat + 1)).map fun k => ⟨q.id, q.word DW + k, k == q.len.toNat⟩

/-- All words of the burst exist, and its bytes are in the address space. -/
structure InRange (DW D : ℕ) (q : Req A ID) : Prop where
  words : q.word DW + q.len.toNat < D
  space : q.addr.toNat + (q.len.toNat + 1) * 2 ^ wshift DW ≤ 2 ^ A

instance (DW D : ℕ) (q : Req A ID) : Decidable (q.InRange DW D) :=
  decidable_of_iff (_ ∧ _) ⟨fun h => ⟨h.1, h.2⟩, fun h => ⟨h.1, h.2⟩⟩

variable {D k : ℕ} {q : Req A ID}

/-- The address arithmetic of a beat does not wrap. -/
theorem InRange.index (h : q.InRange DW D) {beat : BitVec 8} (hk : beat.toNat ≤ q.len.toNat) :
    Axi4SimRam.index DW q.addr beat = q.word DW + beat.toNat := by
  -- the last word of the burst is below `2 ^ A`, so neither width cuts the sum
  have hword : q.word DW * 2 ^ wshift DW ≤ q.addr.toNat := by
    rw [word, BitVec.toNat_ushiftRight, Nat.shiftRight_eq_div_pow]
    exact Nat.div_mul_le_self _ _
  have hbytes : (q.word DW + (q.len.toNat + 1)) * 2 ^ wshift DW ≤ 2 ^ A := by
    rw [Nat.add_mul]
    exact (Nat.add_le_add_right hword _).trans h.space
  have hsum : q.word DW + (q.len.toNat + 1) ≤ 2 ^ A :=
    (Nat.le_mul_of_pos_right _ (Nat.two_pow_pos _)).trans hbytes
  have hwide : 2 ^ A ≤ 2 ^ max A 8 := Nat.pow_le_pow_right (by decide) (le_max_left A 8)
  have hbyte : (2 : ℕ) ^ 8 ≤ 2 ^ max A 8 := Nat.pow_le_pow_right (by decide) (le_max_right A 8)
  have hlt := beat.isLt
  have hq : (q.addr >>> wshift DW).toNat = q.word DW := rfl
  rw [Axi4SimRam.index, BitVec.toNat_add, BitVec.toNat_setWidth, BitVec.toNat_setWidth, hq,
    Nat.mod_eq_of_lt (show q.word DW < 2 ^ max A 8 by omega),
    Nat.mod_eq_of_lt (show beat.toNat < 2 ^ max A 8 by omega), Nat.mod_eq_of_lt (by omega)]

theorem drop_beats (h : k ≤ q.len.toNat) :
    (q.beats DW).drop k = ⟨q.id, q.word DW + k, k == q.len.toNat⟩ :: (q.beats DW).drop (k + 1) := by
  rw [List.drop_eq_getElem_cons (by simp [beats]; omega)]
  simp [beats]

theorem drop_beats_end : (q.beats DW).drop (q.len.toNat + 1) = [] := by
  simp [beats]

/-- The next beat is still one of the burst. -/
theorem beat_succ_le {beat : BitVec 8} (hk : beat.toNat ≤ q.len.toNat) (hlast : beat ≠ q.len) :
    (beat + 1).toNat = beat.toNat + 1 ∧ (beat + 1).toNat ≤ q.len.toNat := by
  have hne : beat.toNat ≠ q.len.toNat := fun he => hlast (BitVec.eq_of_toNat_eq he)
  have hlen := q.len.isLt
  have hsucc : (beat + 1).toNat = beat.toNat + 1 := by
    rw [BitVec.toNat_add]
    exact Nat.mod_eq_of_lt (by simp; omega)
  exact ⟨hsucc, by omega⟩

/-- The beats of a burst from beat `k` on: the next one, and what is left after it. -/
theorem drop_beats_next (h : q.InRange DW D) {beat : BitVec 8} (hk : beat.toNat ≤ q.len.toNat) :
    (q.beats DW).drop beat.toNat = ⟨q.id, Axi4SimRam.index DW q.addr beat, beat == q.len⟩ ::
      if beat = q.len then [] else (q.beats DW).drop (beat + 1).toNat := by
  rw [drop_beats hk, h.index hk]
  by_cases hlast : beat = q.len
  · subst hlast
    rw [if_pos rfl, drop_beats_end]
    simp
  · have hne : beat.toNat ≠ q.len.toNat := fun he => hlast (BitVec.eq_of_toNat_eq he)
    rw [if_neg hlast, (beat_succ_le hk hlast).1]
    simp [hlast, hne]

end Req

/-- What a beat of the read channel carries. -/
structure RBeat (DW ID : ℕ) where
  id : BitVec ID
  data : BitVec DW
  resp : BitVec 2
  last : Bool
  deriving DecidableEq

/-- A beat that is loaded from the memory. -/
def Beat.read (mem : ℕ → BitVec DW) (b : Beat ID) : RBeat DW ID := ⟨b.id, mem b.word, 0, b.last⟩

/-- The response that a write beat causes. -/
def Beat.response (b : Beat ID) : List (BitVec ID × BitVec 2) := if b.last then [(b.id, 0)] else []

/-- A burst has one response. -/
theorem Req.beats_response (q : Req A ID) : (q.beats DW).flatMap Beat.response = [(q.id, 0)] := by
  rw [beats, List.range_succ, List.map_append, List.flatMap_append]
  have hnone : ((List.range q.len.toNat).map fun k =>
      (⟨q.id, q.word DW + k, k == q.len.toNat⟩ : Beat ID)).flatMap Beat.response = [] := by
    rw [List.flatMap_eq_nil_iff]
    intro b hb
    obtain ⟨k, hk, rfl⟩ := List.mem_map.mp hb
    have hne : k ≠ q.len.toNat := Nat.ne_of_lt (List.mem_range.mp hk)
    simp [Beat.response, hne]
  rw [hnone]
  simp [Beat.response]

/-! ## One cycle of the read channel -/

namespace ReadChannel

/-- The burst that is served. -/
def req (s : ReadChannel DW A ID) : Req A ID := ⟨s.arId, s.arAddr, s.arLen⟩

def arAccepted (g : Gates) (i : RamIn DW A ID) (s : ReadChannel DW A ID) : Option (Req A ID) :=
  if !i.rst && (i.arvalid && s.arready g) then some ⟨i.arid, i.araddr, i.arlen⟩ else none

/-- The beat that goes into the output register. -/
def loadBeat (g : Gates) (i : RamIn DW A ID) (s : ReadChannel DW A ID) : Option (Beat ID) :=
  if !i.rst && s.load g i then some ⟨s.arId, index DW s.arAddr s.arBeat, s.arBeat == s.arLen⟩ else none

def out (s : ReadChannel DW A ID) : RBeat DW ID := ⟨s.rid, s.rdata, s.rresp, s.rlast⟩

/-- The beat that is transferred. -/
def rBeat (i : RamIn DW A ID) (s : ReadChannel DW A ID) : Option (RBeat DW ID) :=
  if !i.rst && (s.rvalid && i.rready) then some s.out else none

/-- The beat in the output register. -/
def waiting (s : ReadChannel DW A ID) : List (RBeat DW ID) := if s.rvalid then [s.out] else []

/-- The beats that were not loaded yet. -/
def owed (s : ReadChannel DW A ID) : List (Beat ID) :=
  match s.arState with
  | .idle => []
  | .burst => (s.req.beats DW).drop s.arBeat.toNat

/-- The beat counter of a burst is within it. -/
def Ok (D : ℕ) (s : ReadChannel DW A ID) : Prop :=
  s.arState = .burst → s.arBeat.toNat ≤ s.arLen.toNat ∧ s.req.InRange DW D

section cycle
variable {g : Gates} {mem : ℕ → BitVec DW} {i : RamIn DW A ID} {s : ReadChannel DW A ID} {D : ℕ}

theorem step_idle (hr : i.rst = false) (hs : s.arState = .idle) (har : s.arAccepted g i = none) :
    s.step g mem i = { s with rvalid := s.rvalid && !i.rready } := by
  have hno : (i.arvalid && s.arready g) = false := by simpa [arAccepted, hr] using har
  cases hv : s.rvalid <;> cases hy : i.rready <;> simp [step, hr, hs, hno, hv, hy]

theorem arAccepted_eq_some {q : Req A ID} (har : s.arAccepted g i = some q) :
    q = ⟨i.arid, i.araddr, i.arlen⟩ := by
  rw [arAccepted] at har
  split at har
  · exact (Option.some.inj har).symm
  · cases har

theorem step_accept {q : Req A ID} (hr : i.rst = false) (har : s.arAccepted g i = some q) :
    s.arState = .idle ∧
      s.step g mem i = { s with rvalid := s.rvalid && !i.rready, arId := q.id, arAddr := q.addr,
                                arLen := q.len, arBeat := 0, arState := .burst } := by
  have hyes : (i.arvalid && s.arready g) = true := by
    by_contra hno
    simp [arAccepted, hr, hno] at har
  have hs : s.arState = .idle := by
    rw [Bool.and_eq_true, arready, Bool.and_eq_true] at hyes
    simpa using hyes.2.1
  obtain rfl := arAccepted_eq_some har
  refine ⟨hs, ?_⟩
  cases hv : s.rvalid <;> cases hy : i.rready <;> simp [step, hr, hs, hyes, hv, hy]

/-- A beat that waits is held up, and a stall leaves the register empty. -/
theorem step_burst_wait (hr : i.rst = false) (hs : s.arState = .burst) (hload : s.load g i = false) :
    s.step g mem i = { s with rvalid := s.rvalid && !i.rready } := by
  cases hv : s.rvalid <;> cases hy : i.rready <;> cases hg : g.r
  all_goals
    simp [load, hs, hv, hy, hg] at hload
  all_goals
    simp [step, hr, hs, hv, hy, hg]

theorem step_load (hr : i.rst = false) (hs : s.arState = .burst) (hload : s.load g i = true) :
    s.step g mem i =
      { s with rid := s.arId, rdata := mem (index DW s.arAddr s.arBeat), rresp := 0,
               rlast := s.arBeat == s.arLen, rvalid := true,
               arState := if s.arBeat = s.arLen then .idle else .burst,
               arBeat := if s.arBeat = s.arLen then s.arBeat else s.arBeat + 1 } := by
  simp only [load, Bool.and_eq_true] at hload
  simp [step, hr, hs, hload.1.2, hload.2]

theorem loadBeat_idle (hs : s.arState = .idle) : s.loadBeat g i = none := by
  simp [loadBeat, load, hs]

/-- The beats of an accepted burst join those that are owed, and a load takes the first. -/
theorem Ok.step (h : s.Ok D) (hr : i.rst = false)
    (hrange : ∀ q, s.arAccepted g i = some q → q.InRange DW D) :
    (s.step g mem i).Ok D ∧
      s.owed ++ (s.arAccepted g i).toList.flatMap (Req.beats DW) =
        (s.loadBeat g i).toList ++ (s.step g mem i).owed := by
  cases hs : s.arState with
  | idle =>
    have howed : s.owed = [] := by simp [owed, hs]
    rw [howed, loadBeat_idle hs]
    cases har : s.arAccepted g i with
    | none =>
      rw [step_idle hr hs har]
      exact ⟨fun hb => by simp [hs] at hb, by simp [owed, hs]⟩
    | some q =>
      have hstep : s.step g mem i = _ := (step_accept hr har).2
      rw [hstep]
      exact ⟨fun _ => ⟨Nat.zero_le _, hrange q har⟩, by simp [owed, req]⟩
  | burst =>
    obtain ⟨hk, hin⟩ := h hs
    have har : s.arAccepted g i = none := by simp [arAccepted, arready, hs]
    have howed : s.owed = (s.req.beats DW).drop s.arBeat.toNat := by simp [owed, hs]
    rw [har, Option.toList_none, List.flatMap_nil, List.append_nil]
    cases hload : s.load g i with
    | false =>
      rw [step_burst_wait hr hs hload, loadBeat, hload]
      exact ⟨h, by simp [owed, req]⟩
    | true =>
      -- the counter stays on the last beat and the burst ends, or it moves on
      have hnext := Req.drop_beats_next hin hk
      rw [howed, step_load hr hs hload, loadBeat, hload, hr]
      by_cases hlast : s.arBeat = s.arLen
      · refine ⟨fun hb => by simp [hlast] at hb, ?_⟩
        rw [hnext]
        simp [owed, req, hlast]
      · refine ⟨fun _ => ⟨?_, hin⟩, ?_⟩
        · simpa [hlast, req] using (Req.beat_succ_le (q := s.req) hk hlast).2
        · rw [hnext]
          simp [owed, req, hlast]

/-- A load fills the output register, and a transfer empties it. -/
theorem waiting_step (hr : i.rst = false) :
    s.waiting ++ ((s.loadBeat g i).map (Beat.read mem)).toList =
      (s.rBeat i).toList ++ (s.step g mem i).waiting := by
  have hkeep : ∀ s' : ReadChannel DW A ID, s'.rvalid = (s.rvalid && !i.rready) → s'.out = s.out →
      s.waiting = (s.rBeat i).toList ++ s'.waiting := by
    intro s' hv ho
    rw [waiting, waiting, rBeat, hv, ho, hr]
    cases s.rvalid <;> cases i.rready <;> simp
  cases hs : s.arState with
  | idle =>
    rw [loadBeat_idle hs, Option.map_none, Option.toList_none, List.append_nil]
    cases har : s.arAccepted g i with
    | none =>
      rw [step_idle hr hs har]
      exact hkeep _ rfl rfl
    | some q =>
      have hstep : s.step g mem i = _ := (step_accept hr har).2
      rw [hstep]
      exact hkeep _ rfl rfl
  | burst =>
    cases hload : s.load g i with
    | false =>
      have hnone : s.loadBeat g i = none := by simp [loadBeat, hload]
      rw [hnone, Option.map_none, Option.toList_none, List.append_nil, step_burst_wait hr hs hload]
      exact hkeep _ rfl rfl
    | true =>
      -- the register was empty, or is transferred in this cycle
      have hfree : (!s.rvalid || i.rready) = true := by
        simp only [load, Bool.and_eq_true] at hload
        exact hload.1.2
      rw [step_load hr hs hload, loadBeat, hload, hr]
      cases hv : s.rvalid <;> cases hy : i.rready
      all_goals
        simp [hv, hy] at hfree
      all_goals
        simp [waiting, rBeat, Beat.read, out, hr, hv, hy]

/-- A beat that is not taken stays. -/
theorem held (hr : i.rst = false) (hv : s.rvalid = true) (hy : i.rready = false) :
    (s.step g mem i).rvalid = true ∧ (s.step g mem i).out = s.out := by
  have hload : s.load g i = false := by simp [load, hv, hy]
  cases hs : s.arState with
  | idle =>
    cases har : s.arAccepted g i with
    | none =>
      rw [step_idle hr hs har]
      simp [hv, hy, out]
    | some q =>
      have hstep : s.step g mem i = _ := (step_accept hr har).2
      rw [hstep]
      simp [hv, hy, out]
  | burst =>
    rw [step_burst_wait hr hs hload]
    simp [hv, hy, out]

end cycle

end ReadChannel

/-! ## One cycle of the write channel -/

namespace WriteChannel

def req (s : WriteChannel A ID) : Req A ID := ⟨s.awId, s.awAddr, s.awLen⟩

def awAccepted (g : Gates) (i : RamIn DW A ID) (s : WriteChannel A ID) : Option (Req A ID) :=
  if !i.rst && (i.awvalid && s.awready g) then some ⟨i.awid, i.awaddr, i.awlen⟩ else none

/-- The write beat that is accepted, with the last flag that the master gives it. -/
def wBeat (g : Gates) (i : RamIn DW A ID) (s : WriteChannel A ID) : Option (Beat ID) :=
  if !i.rst && (i.wvalid && s.wready g) then some ⟨s.awId, index DW s.awAddr s.awBeat, i.wlast⟩ else none

/-- The response that is transferred. -/
def bBeat (i : RamIn DW A ID) (s : WriteChannel A ID) : Option (BitVec ID × BitVec 2) :=
  if !i.rst && (s.bvalid && i.bready) then some (s.bid, s.bresp) else none

def bWaiting (s : WriteChannel A ID) : List (BitVec ID × BitVec 2) :=
  if s.bvalid then [(s.bid, s.bresp)] else []

/-- The beats that were not accepted yet. -/
def owed (DW : ℕ) (s : WriteChannel A ID) : List (Beat ID) :=
  match s.awState with
  | .data => (s.req.beats DW).drop s.awBeat.toNat
  | _ => []

/-- The beat counter of a burst is within it, and a response is out in `AW_RESP`. -/
structure Ok (DW D : ℕ) (s : WriteChannel A ID) : Prop where
  data : s.awState = .data → s.awBeat.toNat ≤ s.awLen.toNat ∧ s.req.InRange DW D
  resp : s.bvalid = (s.awState == .resp)

section cycle
variable {g : Gates} {i : RamIn DW A ID} {s : WriteChannel A ID} {D : ℕ}

theorem step_idle (hr : i.rst = false) (hs : s.awState = .idle) (haw : s.awAccepted g i = none) :
    s.step g i = { s with bvalid := s.bvalid && !i.bready } := by
  have hno : (i.awvalid && s.awready g) = false := by simpa [awAccepted, hr] using haw
  cases hv : s.bvalid <;> cases hy : i.bready <;> simp [step, hr, hs, hno, hv, hy]

theorem awAccepted_eq_some {q : Req A ID} (haw : s.awAccepted g i = some q) :
    q = ⟨i.awid, i.awaddr, i.awlen⟩ := by
  rw [awAccepted] at haw
  split at haw
  · exact (Option.some.inj haw).symm
  · cases haw

theorem step_accept {q : Req A ID} (hr : i.rst = false) (haw : s.awAccepted g i = some q) :
    s.awState = .idle ∧
      s.step g i = { s with bvalid := s.bvalid && !i.bready, awId := q.id, awAddr := q.addr,
                            awLen := q.len, awBeat := 0, awState := .data } := by
  have hyes : (i.awvalid && s.awready g) = true := by
    by_contra hno
    simp [awAccepted, hr, hno] at haw
  have hs : s.awState = .idle := by
    rw [Bool.and_eq_true, awready, Bool.and_eq_true] at hyes
    simpa using hyes.2.1
  obtain rfl := awAccepted_eq_some haw
  refine ⟨hs, ?_⟩
  cases hv : s.bvalid <;> cases hy : i.bready <;> simp [step, hr, hs, hyes, hv, hy]

theorem step_data_wait (hr : i.rst = false) (hs : s.awState = .data) (hw : s.wBeat g i = none) :
    s.step g i = { s with bvalid := s.bvalid && !i.bready } := by
  have hno : (i.wvalid && s.wready g) = false := by simpa [wBeat, hr] using hw
  cases hv : s.bvalid <;> cases hy : i.bready <;> simp [step, hr, hs, hno, hv, hy]

theorem wBeat_eq_some {b : Beat ID} (hw : s.wBeat g i = some b) :
    s.awState = .data ∧ b = ⟨s.awId, index DW s.awAddr s.awBeat, i.wlast⟩ ∧
      (i.wvalid && s.wready g) = true := by
  have hyes : (!i.rst && (i.wvalid && s.wready g)) = true := by
    by_contra hno
    simp [wBeat, hno] at hw
  rw [wBeat, if_pos hyes] at hw
  rw [Bool.and_eq_true] at hyes
  refine ⟨?_, (Option.some.inj hw).symm, hyes.2⟩
  have hready := hyes.2
  rw [Bool.and_eq_true, wready, Bool.and_eq_true] at hready
  simpa using hready.2.1

theorem step_beat {b : Beat ID} (hr : i.rst = false) (hw : s.wBeat g i = some b) :
    s.step g i =
      if i.wlast then { s with bid := s.awId, bresp := 0, bvalid := true, awState := .resp }
      else { s with bvalid := s.bvalid && !i.bready, awBeat := s.awBeat + 1 } := by
  obtain ⟨hs, -, hyes⟩ := wBeat_eq_some hw
  cases hv : s.bvalid <;> cases hy : i.bready <;> simp [step, hr, hs, hyes, hv, hy]

theorem step_resp (hr : i.rst = false) (hs : s.awState = .resp) :
    s.step g i = { s with bvalid := s.bvalid && !i.bready,
                          awState := if s.bvalid && i.bready then .idle else .resp } := by
  cases hv : s.bvalid <;> cases hy : i.bready <;> simp [step, hr, hs, hv, hy]

/-- The beats of an accepted burst join those that are owed, and a write beat takes
the first, provided that the master sets the last flag where it belongs. -/
theorem Ok.step (h : s.Ok DW D) (hr : i.rst = false)
    (hrange : ∀ q, s.awAccepted g i = some q → q.InRange DW D)
    (hlast : s.wBeat g i ≠ none → i.wlast = (s.awBeat == s.awLen)) :
    (s.step g i).Ok DW D ∧
      s.owed DW ++ (s.awAccepted g i).toList.flatMap (Req.beats DW) =
        (s.wBeat g i).toList ++ (s.step g i).owed DW := by
  cases hs : s.awState with
  | idle =>
    have hv : s.bvalid = false := by simp [h.resp, hs]
    have hw : s.wBeat g i = none := by simp [wBeat, wready, hs]
    have howed : s.owed DW = [] := by simp [owed, hs]
    rw [howed, hw]
    cases haw : s.awAccepted g i with
    | none =>
      rw [step_idle hr hs haw]
      exact ⟨⟨fun hb => by simp [hs] at hb, by simp [hs, hv]⟩, by simp [owed, hs]⟩
    | some q =>
      rw [(step_accept hr haw).2]
      exact ⟨⟨fun _ => ⟨Nat.zero_le _, hrange q haw⟩, by simp [hv]⟩, by simp [owed, req]⟩
  | data =>
    obtain ⟨hk, hin⟩ := h.data hs
    have hv : s.bvalid = false := by simp [h.resp, hs]
    have haw : s.awAccepted g i = none := by simp [awAccepted, awready, hs]
    have howed : s.owed DW = (s.req.beats DW).drop s.awBeat.toNat := by simp [owed, hs]
    rw [haw, Option.toList_none, List.flatMap_nil, List.append_nil]
    cases hw : s.wBeat g i with
    | none =>
      rw [step_data_wait hr hs hw]
      exact ⟨⟨h.data, by simp [hs, hv]⟩, by simp [owed, req]⟩
    | some b =>
      obtain ⟨-, rfl, -⟩ := wBeat_eq_some hw
      have hflag := hlast (by simp [hw])
      rw [howed, step_beat hr hw, Req.drop_beats_next hin hk, hflag]
      by_cases hend : s.awBeat = s.awLen
      · refine ⟨⟨fun hb => by simp [hend] at hb, by simp [hend]⟩, by simp [owed, req, hend]⟩
      · refine ⟨⟨fun _ => ⟨?_, ?_⟩, by simp [hend, hs, hv]⟩, by simp [owed, req, hend, hs]⟩
        · simpa [hend, req] using (Req.beat_succ_le (q := s.req) hk hend).2
        · simpa [hend, req] using hin
  | resp =>
    have hw : s.wBeat g i = none := by simp [wBeat, wready, hs]
    have haw : s.awAccepted g i = none := by simp [awAccepted, awready, hs]
    rw [hw, haw, step_resp hr hs]
    cases hgone : s.bvalid && i.bready with
    | true =>
      simp only [Bool.and_eq_true] at hgone
      exact ⟨⟨fun hb => by simp at hb, by simp [hgone]⟩, by simp [owed, hs]⟩
    | false =>
      have hv : s.bvalid = true := by simp [h.resp, hs]
      have hy : i.bready = false := by simpa [hv] using hgone
      exact ⟨⟨fun hb => by simp at hb, by simp [hv, hy]⟩, by simp [owed, hs]⟩

/-- A response follows the last write beat of a burst, and a transfer ends it. -/
theorem Ok.bWaiting_step (h : s.Ok DW D) (hr : i.rst = false) :
    s.bWaiting ++ (s.wBeat g i).toList.flatMap Beat.response =
      (s.bBeat i).toList ++ (s.step g i).bWaiting := by
  cases hs : s.awState with
  | idle =>
    have hv : s.bvalid = false := by simp [h.resp, hs]
    have hw : s.wBeat g i = none := by simp [wBeat, wready, hs]
    cases haw : s.awAccepted g i with
    | none =>
      rw [step_idle hr hs haw]
      simp [hw, bWaiting, bBeat, hv]
    | some q =>
      rw [(step_accept hr haw).2]
      simp [hw, bWaiting, bBeat, hv]
  | data =>
    have hv : s.bvalid = false := by simp [h.resp, hs]
    cases hw : s.wBeat g i with
    | none =>
      rw [step_data_wait hr hs hw]
      simp [bWaiting, bBeat, hv]
    | some b =>
      obtain ⟨-, rfl, -⟩ := wBeat_eq_some hw
      rw [step_beat hr hw]
      cases hlast : i.wlast <;> simp [bWaiting, bBeat, Beat.response, hv]
  | resp =>
    have hw : s.wBeat g i = none := by simp [wBeat, wready, hs]
    have hv : s.bvalid = true := by simp [h.resp, hs]
    rw [step_resp hr hs]
    cases hy : i.bready <;> simp [hw, bWaiting, bBeat, hr, hv, hy]

/-- A response that is not taken stays. -/
theorem Ok.held (h : s.Ok DW D) (hr : i.rst = false) (hv : s.bvalid = true) (hy : i.bready = false) :
    (s.step g i).bvalid = true ∧ (s.step g i).bid = s.bid ∧ (s.step g i).bresp = s.bresp := by
  have hs : s.awState = .resp := by simpa [hv] using h.resp
  rw [step_resp hr hs]
  simp [hv, hy]

end cycle

end WriteChannel

/-! ## One cycle of the memory -/

/-- The strobed bytes of a word are those of the beat, the others stay. -/
theorem getLsbD_strobed (data : BitVec DW) (strb : BitVec (DW / 8)) (word : BitVec DW) {k : ℕ} (hk : k < DW) :
    (strobed data strb word).getLsbD k =
      if strb.getLsbD (k / 8) then data.getLsbD k else word.getLsbD k := by
  -- after `n` turns the bytes below `n` are settled
  have hloop : ∀ n, (forLoop (fun b word =>
      if strb.getLsbD b then putByte b (data.extractLsb' (b * 8) 8) word else word) n word).getLsbD k =
        if k / 8 < n ∧ strb.getLsbD (k / 8) = true then data.getLsbD k else word.getLsbD k := by
    intro n
    induction n with
    | zero => simp [forLoop]
    | succ n ih =>
      rw [forLoop]
      by_cases hstrb : strb.getLsbD n = true
      · rw [if_pos hstrb, putByte, Bus.getLsbD_insert _ _ _ hk, ih]
        by_cases hbyte : k / 8 = n
        · subst hbyte
          have hoff : k / 8 * 8 + (k - k / 8 * 8) = k := by omega
          rw [if_pos (by omega), if_pos ⟨Nat.lt_succ_self _, hstrb⟩, BitVec.getLsbD_extractLsb', hoff]
          simp [show k - k / 8 * 8 < 8 by omega]
        · rw [if_neg (by omega)]
          exact if_congr (and_congr_left' (by omega)) rfl rfl
      · rw [if_neg hstrb, ih]
        refine if_congr (and_congr_left fun hk' => ?_) rfl rfl
        have hne : k / 8 ≠ n := fun he => hstrb (he ▸ hk')
        omega
  rw [strobed, hloop]
  by_cases hstrb : strb.getLsbD (k / 8) = true
  · have hlt : k / 8 < DW / 8 := BitVec.lt_of_getLsbD hstrb
    rw [if_pos ⟨hlt, hstrb⟩, if_pos hstrb]
  · rw [if_neg (fun h => hstrb h.2), if_neg hstrb]

end Axi4SimRam
