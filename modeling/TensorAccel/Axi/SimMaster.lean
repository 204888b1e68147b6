import TensorAccel.Axi.SimRam

/-! # The test memory and its master

    Runs of `axi4_sim_ram` after a reset.  Its stalls may fall on any cycle and
    the master may be as slow as it likes; what was asked for is all that comes
    back, and it comes back in order. -/

open Clocked

namespace Axi4SimRam

variable {DW A ID : ℕ}

/-! ## Runs -/

namespace SimRam

def arReq (i : RamIn DW A ID) (s : SimRam DW A ID) : Option (Req A ID) :=
  s.rd.arAccepted (gates i s.lfsr) i

/-- The beat that is loaded from the memory. -/
def loadBeat (i : RamIn DW A ID) (s : SimRam DW A ID) : Option (Beat ID) :=
  s.rd.loadBeat (gates i s.lfsr) i

def awReq (i : RamIn DW A ID) (s : SimRam DW A ID) : Option (Req A ID) :=
  s.wr.awAccepted (gates i s.lfsr) i

def wBeat (i : RamIn DW A ID) (s : SimRam DW A ID) : Option (Beat ID) :=
  s.wr.wBeat (gates i s.lfsr) i

end SimRam

section runs

/-- The registers in cycle `t`. -/
abbrev ram (D : ℕ) (p : SimRam DW A ID) (i : ℕ → RamIn DW A ID) (t : ℕ) : SimRam DW A ID :=
  run (SimRam.step D) p i t

/-- The read bursts accepted in cycles `s, ..., t - 1`. -/
def readBursts (D : ℕ) (p : SimRam DW A ID) (i : ℕ → RamIn DW A ID) (s t : ℕ) : List (Req A ID) :=
  eventsIn (fun u => (ram D p i u).arReq (i u)) s t

/-- The beats loaded in these cycles. -/
def loads (D : ℕ) (p : SimRam DW A ID) (i : ℕ → RamIn DW A ID) (s t : ℕ) : List (Beat ID) :=
  eventsIn (fun u => (ram D p i u).loadBeat (i u)) s t

/-- The same with the data that the memory held in the cycle of the load. -/
def loadedBeats (D : ℕ) (p : SimRam DW A ID) (i : ℕ → RamIn DW A ID) (s t : ℕ) : List (RBeat DW ID) :=
  eventsIn (fun u => ((ram D p i u).loadBeat (i u)).map (Beat.read (ram D p i u).mem)) s t

/-- The read beats transferred in these cycles. -/
def readBeats (D : ℕ) (p : SimRam DW A ID) (i : ℕ → RamIn DW A ID) (s t : ℕ) : List (RBeat DW ID) :=
  eventsIn (fun u => (ram D p i u).rd.rBeat (i u)) s t

/-- The write bursts accepted in these cycles. -/
def writeBursts (D : ℕ) (p : SimRam DW A ID) (i : ℕ → RamIn DW A ID) (s t : ℕ) : List (Req A ID) :=
  eventsIn (fun u => (ram D p i u).awReq (i u)) s t

/-- The write beats accepted in these cycles. -/
def writeBeats (D : ℕ) (p : SimRam DW A ID) (i : ℕ → RamIn DW A ID) (s t : ℕ) : List (Beat ID) :=
  eventsIn (fun u => (ram D p i u).wBeat (i u)) s t

/-- The responses transferred in these cycles. -/
def responses (D : ℕ) (p : SimRam DW A ID) (i : ℕ → RamIn DW A ID) (s t : ℕ) :
    List (BitVec ID × BitVec 2) :=
  eventsIn (fun u => (ram D p i u).wr.bBeat (i u)) s t

/-- A write burst is accepted in cycle `u`. -/
def awTaken (D : ℕ) (p : SimRam DW A ID) (i : ℕ → RamIn DW A ID) (u : ℕ) : Bool :=
  ((ram D p i u).awReq (i u)).isSome

/-- A write beat is accepted in cycle `u`. -/
def wTaken (D : ℕ) (p : SimRam DW A ID) (i : ℕ → RamIn DW A ID) (u : ℕ) : Bool :=
  ((ram D p i u).wBeat (i u)).isSome

/-- A master after a reset in cycle `r`.  Its bursts are in range, and it sets `wlast`
on beat `awlen` of the latest write burst, counted from that burst on. -/
structure LegalMaster (D : ℕ) (p : SimRam DW A ID) (i : ℕ → RamIn DW A ID) (r t : ℕ) : Prop where
  rst : (i r).rst = true
  run : ∀ u, r < u → u < t → (i u).rst = false
  read : ∀ u, r < u → u < t → ∀ q, (ram D p i u).arReq (i u) = some q → q.InRange DW D
  write : ∀ u, r < u → u < t → ∀ q, (ram D p i u).awReq (i u) = some q → q.InRange DW D
  last : ∀ u a, r < u → u < t → wTaken D p i u = true → IsLast (awTaken D p i) a u →
    (i u).wlast = (countIn (wTaken D p i) (a + 1) u == (i a).awlen.toNat)

variable {D : ℕ} {p : SimRam DW A ID} {i : ℕ → RamIn DW A ID} {r t : ℕ}

theorem LegalMaster.mono {s : ℕ} (h : LegalMaster D p i r t) (hst : s ≤ t) : LegalMaster D p i r s where
  rst := h.rst
  run u hu hus := h.run u hu (by omega)
  read u hu hus := h.read u hu (by omega)
  write u hu hus := h.write u hu (by omega)
  last u a hu hus := h.last u a hu (by omega)

/-- The beat counter of the write channel counts the beats since the burst was accepted. -/
structure RunOk (D : ℕ) (p : SimRam DW A ID) (i : ℕ → RamIn DW A ID) (r t : ℕ) : Prop where
  rd : (ram D p i t).rd.Ok D
  wr : (ram D p i t).wr.Ok DW D
  beat : (ram D p i t).wr.awState = .data → ∃ a, r < a ∧ IsLast (awTaken D p i) a t ∧
    (i a).awlen = (ram D p i t).wr.awLen ∧
    countIn (wTaken D p i) (a + 1) t = (ram D p i t).wr.awBeat.toNat

theorem runOk_reset (hr : (i r).rst = true) : RunOk D p i r (r + 1) where
  rd hb := by simp [run_succ, SimRam.step, ReadChannel.step, hr] at hb
  wr := {
    data := fun hb => by simp [run_succ, SimRam.step, WriteChannel.step, hr] at hb
    resp := by simp [run_succ, SimRam.step, WriteChannel.step, hr] }
  beat hb := by simp [run_succ, SimRam.step, WriteChannel.step, hr] at hb

/-- The flag of an accepted beat is right. -/
theorem RunOk.flag (h : RunOk D p i r t) (hl : LegalMaster D p i r (t + 1)) (hrt : r < t)
    (hw : (ram D p i t).wBeat (i t) ≠ none) :
    (i t).wlast = ((ram D p i t).wr.awBeat == (ram D p i t).wr.awLen) := by
  obtain ⟨b, hb⟩ := Option.ne_none_iff_exists'.mp hw
  obtain ⟨hs, -, -⟩ := WriteChannel.wBeat_eq_some hb
  obtain ⟨a, -, hlast, hlen, hcount⟩ := h.beat hs
  rw [hl.last t a hrt (Nat.lt_succ_self t) (by simp [wTaken, hb]) hlast, hcount, hlen]
  rw [Bool.eq_iff_iff, beq_iff_eq, beq_iff_eq]
  exact ⟨fun he => BitVec.eq_of_toNat_eq he, fun he => by rw [he]⟩

theorem RunOk.step (h : RunOk D p i r t) (hl : LegalMaster D p i r (t + 1)) (hrt : r < t) :
    RunOk D p i r (t + 1) := by
  have hr := hl.run t hrt (Nat.lt_succ_self t)
  -- what is left is the count: it restarts with a burst and goes on with a beat
  have hread : (ram D p i (t + 1)).rd.Ok D := (h.rd.step hr (hl.read t hrt (Nat.lt_succ_self t))).1
  have hwrite := h.wr.step hr (hl.write t hrt (Nat.lt_succ_self t)) (h.flag hl hrt)
  refine ⟨hread, hwrite.1, ?_⟩
  intro hdata
  have hwr : (ram D p i (t + 1)).wr =
      (ram D p i t).wr.step (gates (i t) (ram D p i t).lfsr) (i t) := rfl
  rw [hwr] at hdata ⊢
  cases haw : (ram D p i t).awReq (i t) with
  | some q =>
    -- the burst is accepted in this cycle
    rw [(WriteChannel.step_accept hr haw).2, WriteChannel.awAccepted_eq_some haw]
    exact ⟨t, hrt, ⟨Nat.lt_succ_self t, by simp [awTaken, haw], fun u hu htu => by omega⟩, rfl, by simp⟩
  | none =>
    have hkeep : ∀ a, IsLast (awTaken D p i) a t → IsLast (awTaken D p i) a (t + 1) := fun a ha =>
      ⟨Nat.lt_succ_of_lt ha.lt, ha.high, quiet_succ ha.quiet (by simp [awTaken, haw])⟩
    cases hs : (ram D p i t).wr.awState with
    | idle =>
      rw [WriteChannel.step_idle hr hs haw] at hdata
      rw [hs] at hdata
      cases hdata
    | resp =>
      rw [WriteChannel.step_resp hr hs] at hdata
      simp only at hdata
      split at hdata <;> cases hdata
    | data =>
      obtain ⟨a, hra, hlast, hlen, hcount⟩ := h.beat hs
      refine ⟨a, hra, hkeep a hlast, ?_⟩
      have hat := hlast.lt
      rw [countIn_succ _ (by omega), hcount]
      cases hw : (ram D p i t).wBeat (i t) with
      | none =>
        rw [WriteChannel.step_data_wait hr hs hw]
        exact ⟨hlen, by simp [wTaken, hw]⟩
      | some b =>
        rw [WriteChannel.step_beat hr hw] at hdata ⊢
        cases hflag : (i t).wlast with
        | true => simp [hflag] at hdata
        | false =>
          have hne : (ram D p i t).wr.awBeat ≠ (ram D p i t).wr.awLen := by
            have heq := h.flag hl hrt (by simp [hw])
            rw [hflag] at heq
            simpa using heq.symm
          have hsucc := Req.beat_succ_le (q := (ram D p i t).wr.req) (h.wr.data hs).1 hne
          exact ⟨hlen, by simp only [wTaken, hw]; simpa using hsucc.1.symm⟩

theorem ok_run (hrt : r < t) (hl : LegalMaster D p i r t) : RunOk D p i r t := by
  induction t, hrt using Nat.le_induction with
  | base => exact runOk_reset hl.rst
  | succ t hrt ih => exact (ih (hl.mono (Nat.le_succ t))).step hl hrt

/-! ## What the master sees -/

/-- The memory in cycles `r + 1, ..., t`, as its ports show it. -/
structure Subordinate (D : ℕ) (p : SimRam DW A ID) (i : ℕ → RamIn DW A ID) (r t : ℕ) : Prop where
  /-- The beats of the accepted bursts are loaded in order, each of them once. -/
  loaded : (readBursts D p i (r + 1) t).flatMap (Req.beats DW) =
    loads D p i (r + 1) t ++ (ram D p i t).rd.owed
  /-- They are transferred in the order of the loads, with the data of the load. -/
  read : loadedBeats D p i (r + 1) t = readBeats D p i (r + 1) t ++ (ram D p i t).rd.waiting
  /-- A read beat stays until it is taken. -/
  rHeld : ∀ u, r < u → u < t → (ram D p i u).rd.rvalid = true → (i u).rready = false →
    (ram D p i (u + 1)).rd.rvalid = true ∧ (ram D p i (u + 1)).rd.out = (ram D p i u).rd.out
  /-- A burst that is accepted while a beat waits owes all its beats, and the beat stays. -/
  handover : ∀ u, r < u → u < t → ∀ q, (ram D p i u).arReq (i u) = some q →
    (ram D p i (u + 1)).rd.owed = q.beats DW ∧
      ((i u).rready = false → (ram D p i (u + 1)).rd.waiting = (ram D p i u).rd.waiting)
  /-- The write beats are those of the accepted bursts, in order. -/
  written : (writeBursts D p i (r + 1) t).flatMap (Req.beats DW) =
    writeBeats D p i (r + 1) t ++ (ram D p i t).wr.owed DW
  /-- A write beat changes the strobed bytes of its word, and nothing else changes. -/
  memory : ∀ u, r < u → u < t → ∀ a k, k < DW →
    ((ram D p i (u + 1)).mem a).getLsbD k =
      if ((ram D p i u).wBeat (i u)).map Beat.word = some a ∧ (i u).wstrb.getLsbD (k / 8) = true
      then (i u).wdata.getLsbD k else ((ram D p i u).mem a).getLsbD k
  /-- A response follows each write beat that is the last of its burst, and no other. -/
  response : (writeBeats D p i (r + 1) t).flatMap Beat.response =
    responses D p i (r + 1) t ++ (ram D p i t).wr.bWaiting
  /-- Each write burst has one response: it was given, it waits, or the burst is open. -/
  answered : (writeBursts D p i (r + 1) t).map (fun q => (q.id, 0)) =
    responses D p i (r + 1) t ++
      ((ram D p i t).wr.bWaiting ++ ((ram D p i t).wr.owed DW).flatMap Beat.response)
  /-- A response stays until it is taken. -/
  bHeld : ∀ u, r < u → u < t → (ram D p i u).wr.bvalid = true → (i u).bready = false →
    (ram D p i (u + 1)).wr.bvalid = true ∧ (ram D p i (u + 1)).wr.bid = (ram D p i u).wr.bid ∧
      (ram D p i (u + 1)).wr.bresp = (ram D p i u).wr.bresp

theorem wWord_eq (j : RamIn DW A ID) (s : SimRam DW A ID) : s.wWord j = (s.wBeat j).map Beat.word := by
  simp only [SimRam.wWord, SimRam.wBeat, WriteChannel.wBeat]
  split <;> rfl

/-- The beats that are accepted fall on words of the memory. -/
theorem RunOk.word_lt (h : RunOk D p i r t) {b : Beat ID} (hw : (ram D p i t).wBeat (i t) = some b) :
    b.word < D := by
  obtain ⟨hs, rfl, -⟩ := WriteChannel.wBeat_eq_some hw
  obtain ⟨hk, hin⟩ := h.wr.data hs
  have hindex : index DW (ram D p i t).wr.awAddr (ram D p i t).wr.awBeat =
      (ram D p i t).wr.req.word DW + (ram D p i t).wr.awBeat.toNat := hin.index hk
  have hwords := hin.words
  have hlen : (ram D p i t).wr.req.len = (ram D p i t).wr.awLen := rfl
  rw [hlen] at hwords
  simp only [hindex]
  omega

theorem RunOk.memory (h : RunOk D p i r t) {a k : ℕ} (hk : k < DW) :
    ((ram D p i (t + 1)).mem a).getLsbD k =
      if ((ram D p i t).wBeat (i t)).map Beat.word = some a ∧ (i t).wstrb.getLsbD (k / 8) = true
      then (i t).wdata.getLsbD k else ((ram D p i t).mem a).getLsbD k := by
  have hmem : (ram D p i (t + 1)).mem = (ram D p i t).memStep D (i t) := rfl
  rw [hmem, SimRam.memStep, wWord_eq]
  cases hw : (ram D p i t).wBeat (i t) with
  | none => simp
  | some b =>
    simp only [Option.map_some, if_pos (h.word_lt hw), Function.update_apply]
    by_cases ha : a = b.word
    · subst ha
      rw [if_pos rfl, getLsbD_strobed _ _ _ hk]
      simp
    · rw [if_neg ha, if_neg (by simp [Ne.symm ha])]

theorem subordinate (hrt : r < t) (hl : LegalMaster D p i r t) : Subordinate D p i r t := by
  -- each equation is a queue that is empty after the reset and balanced in every cycle
  have hok : ∀ u, r + 1 ≤ u → u < t → RunOk D p i r u := fun u hu hut =>
    ok_run hu (hl.mono hut.le)
  have hrd : (ram D p i (r + 1)).rd.owed = [] ∧ (ram D p i (r + 1)).rd.waiting = [] := by
    simp [run_succ, SimRam.step, ReadChannel.step, ReadChannel.owed, ReadChannel.waiting, hl.rst]
  have hwr : (ram D p i (r + 1)).wr.owed DW = [] ∧ (ram D p i (r + 1)).wr.bWaiting = [] := by
    simp [run_succ, SimRam.step, WriteChannel.step, WriteChannel.owed, WriteChannel.bWaiting, hl.rst]
  have hwritten : (writeBursts D p i (r + 1) t).flatMap (Req.beats DW) =
      writeBeats D p i (r + 1) t ++ (ram D p i t).wr.owed DW :=
    eventsIn_conserve (fun u => (ram D p i u).wr.owed DW) hrt hwr.1 fun u hu hut =>
      ((hok u hu hut).wr.step (hl.run u hu hut) (hl.write u hu hut)
        ((hok u hu hut).flag (hl.mono hut) hu)).2
  have hresponse : (writeBeats D p i (r + 1) t).flatMap Beat.response =
      responses D p i (r + 1) t ++ (ram D p i t).wr.bWaiting :=
    eventsIn_conserve (fun u => (ram D p i u).wr.bWaiting) hrt hwr.2 fun u hu hut =>
      (hok u hu hut).wr.bWaiting_step (hl.run u hu hut)
  refine ⟨?_, ?_, ?_, ?_, hwritten, ?_, hresponse, ?_, ?_⟩
  · exact eventsIn_conserve (fun u => (ram D p i u).rd.owed) hrt hrd.1 fun u hu hut =>
      ((hok u hu hut).rd.step (hl.run u hu hut) (hl.read u hu hut)).2
  · have hcons : (loadedBeats D p i (r + 1) t).flatMap (fun b => [b]) =
        readBeats D p i (r + 1) t ++ (ram D p i t).rd.waiting :=
      eventsIn_conserve (fun u => (ram D p i u).rd.waiting) hrt hrd.2 fun u hu hut => by
        rw [List.flatMap_singleton']
        exact ReadChannel.waiting_step (hl.run u hu hut)
    rw [List.flatMap_singleton'] at hcons
    exact hcons
  · intro u hu hut hv hy
    exact ReadChannel.held (hl.run u hu hut) hv hy
  · intro u hu hut q hq
    have hstep : (ram D p i (u + 1)).rd = _ := (ReadChannel.step_accept (hl.run u hu hut) hq).2
    rw [hstep]
    refine ⟨by simp [ReadChannel.owed, ReadChannel.req], ?_⟩
    intro hy
    simp [ReadChannel.waiting, ReadChannel.out, hy]
  · intro u hu hut a k hk
    exact (hok u hu hut).memory hk
  · rw [← List.append_assoc, ← hresponse, ← List.flatMap_append, ← hwritten, List.flatMap_assoc]
    simp only [Req.beats_response]
    exact List.map_eq_flatMap
  · intro u hu hut hv hy
    exact (hok u hu hut).wr.held (hl.run u hu hut) hv hy

/-! ## Progress -/

/-- The shift register is never zero, so that no stall lasts. -/
theorem gate_recurs (hr : (i r).rst = true) (hrun : ∀ u, r < u → (i u).rst = false) {k b u : ℕ}
    (hb : b ≤ 31) (hru : r < u) : ∃ v, u ≤ v ∧ gate (i v) (ram D p i v).lfsr k b = true := by
  have hseed : (ram D p i (r + 1)).lfsr ≠ 0 := by
    have hstep : (ram D p i (r + 1)).lfsr = lfsrStep (i r) (ram D p i r).lfsr := rfl
    rw [hstep, lfsrStep, if_pos hr]
    split
    · decide
    · next hne => exact hne
  have hshift : ∀ v, r + 1 ≤ v →
      (ram D p i (v + 1)).lfsr = Lfsr.shift feedback (ram D p i v).lfsr := by
    intro v hv
    have hstep : (ram D p i (v + 1)).lfsr = lfsrStep (i v) (ram D p i v).lfsr := rfl
    rw [hstep, lfsrStep, hrun v hv]
    rfl
  obtain ⟨v, huv, -, hbit⟩ :=
    Lfsr.bit_recurs (q := fun v => (ram D p i v).lfsr) (by decide) hshift hseed hb hru
  exact ⟨v, huv, by rw [gate, hbit, Bool.or_true]⟩

/-- A beat in the output register is transferred when the master is ready. -/
theorem waiting_transfers (hrun : ∀ u, r < u → (i u).rst = false)
    (hready : ∀ u, r < u → ∃ v, u ≤ v ∧ (i v).rready = true) {u : ℕ} (hru : r < u)
    (hv : (ram D p i u).rd.rvalid = true) :
    ∃ v, u ≤ v ∧ ((ram D p i v).rd.rBeat (i v)).isSome = true := by
  obtain ⟨v, huv, hy, hvalid⟩ := holds_until (P := fun w => (ram D p i w).rd.rvalid = true) hv
    (fun w huw hw hy => (ReadChannel.held (hrun w (by omega)) hw hy).1) (hready u hru)
  exact ⟨v, huv, by simp [ReadChannel.rBeat, hrun v (by omega), hvalid, hy]⟩

/-- A beat that is owed is loaded when no stall is in the way. -/
theorem owed_transfers (hr : (i r).rst = true) (hrun : ∀ u, r < u → (i u).rst = false)
    (hready : ∀ u, r < u → ∃ v, u ≤ v ∧ (i v).rready = true) {u : ℕ} (hru : r < u)
    (howed : (ram D p i u).rd.owed ≠ []) :
    ∃ v, u ≤ v ∧ ((ram D p i v).rd.rBeat (i v)).isSome = true := by
  cases hv : (ram D p i u).rd.rvalid with
  | true => exact waiting_transfers hrun hready hru hv
  | false =>
    have hs : (ram D p i u).rd.arState = .burst := by
      cases hs : (ram D p i u).rd.arState with
      | idle => simp [ReadChannel.owed, hs] at howed
      | burst => rfl
    obtain ⟨v, huv, hgate, hsv, hvv⟩ := holds_until
      (P := fun w => (ram D p i w).rd.arState = .burst ∧ (ram D p i w).rd.rvalid = false) ⟨hs, hv⟩
      (fun w huw hw hstall => by
        have hload : (ram D p i w).rd.load (gates (i w) (ram D p i w).lfsr) (i w) = false := by
          simp only [ReadChannel.load, gates, hstall, Bool.and_false]
        have hstep : (ram D p i (w + 1)).rd = _ :=
          ReadChannel.step_burst_wait (hrun w (by omega)) hw.1 hload
        rw [hstep]
        exact ⟨hw.1, by simp [hw.2]⟩)
      (gate_recurs (D := D) (p := p) (k := 3) hr hrun (show 15 ≤ 31 by decide) hru)
    -- the cycle without a stall loads the beat, which then waits for the master
    have hload : (ram D p i v).rd.load (gates (i v) (ram D p i v).lfsr) (i v) = true := by
      simp [ReadChannel.load, gates, hgate, hsv, hvv]
    have hstep : (ram D p i (v + 1)).rd = _ := ReadChannel.step_load (hrun v (by omega)) hsv hload
    obtain ⟨w, hvw, hbeat⟩ := waiting_transfers (u := v + 1) hrun hready (by omega) (by rw [hstep])
    exact ⟨w, by omega, hbeat⟩

/-- A write beat is accepted while a burst is open and the master offers beats. -/
theorem open_accepts (hr : (i r).rst = true) (hrun : ∀ u, r < u → (i u).rst = false)
    (hheld : ∀ u, r < u → (i u).wvalid = true → wTaken D p i u = false → (i (u + 1)).wvalid = true)
    {u : ℕ} (hru : r < u) (hoffer : ∃ v, u ≤ v ∧ (i v).wvalid = true)
    (hs : (ram D p i u).wr.awState = .data) : ∃ v, u ≤ v ∧ wTaken D p i v = true := by
  by_contra hnever
  have hnone : ∀ v, u ≤ v → (ram D p i v).wBeat (i v) = none := by
    intro v huv
    cases hw : (ram D p i v).wBeat (i v) with
    | none => rfl
    | some b => exact absurd ⟨v, huv, by simp [wTaken, hw]⟩ hnever
  -- the burst stays open, the offer stays, and then a cycle without a stall comes
  have hopen : ∀ w, u ≤ w → (ram D p i w).wr.awState = .data →
      (ram D p i (w + 1)).wr.awState = .data := by
    intro w huw hw
    have hstep : (ram D p i (w + 1)).wr = _ :=
      WriteChannel.step_data_wait (hrun w (by omega)) hw (hnone w huw)
    rw [hstep]
    exact hw
  obtain ⟨v, huv, hwv, hsv⟩ := holds_until (P := fun w => (ram D p i w).wr.awState = .data) hs
    (fun w huw hw _ => hopen w huw hw) hoffer
  obtain ⟨w, hvw, hgate, hsw, hww⟩ := holds_until
    (P := fun w => (ram D p i w).wr.awState = .data ∧ (i w).wvalid = true) ⟨hsv, hwv⟩
    (fun w hvw hw _ => ⟨hopen w (by omega) hw.1,
      hheld w (by omega) hw.2 (by simp [wTaken, hnone w (by omega)])⟩)
    (gate_recurs (D := D) (p := p) (k := 2) hr hrun (show 11 ≤ 31 by decide) (show r < v by omega))
  have hbeat := hnone w (by omega)
  simp [SimRam.wBeat, WriteChannel.wBeat, WriteChannel.wready, gates, hrun w (by omega), hsw, hww,
    hgate] at hbeat

/-- All beats of the bursts accepted so far are transferred in the end. -/
theorem reads_complete (hl : ∀ t, r < t → LegalMaster D p i r t)
    (hready : ∀ u, r < u → ∃ v, u ≤ v ∧ (i v).rready = true) (hrt : r < t) :
    ∃ t', t ≤ t' ∧ ((readBursts D p i (r + 1) t).flatMap (Req.beats DW)).length ≤
      (readBeats D p i (r + 1) t').length := by
  have hr := (hl t hrt).rst
  have hrun : ∀ u, r < u → (i u).rst = false := fun u hu =>
    (hl (u + 1) (by omega)).run u hu (Nat.lt_succ_self u)
  refine eventsIn_reaches hrt fun u htu hlt => ?_
  have hsub := subordinate (show r < u by omega) (hl u (by omega))
  have hmono : ((readBursts D p i (r + 1) t).flatMap (Req.beats DW)).length ≤
      ((readBursts D p i (r + 1) u).flatMap (Req.beats DW)).length :=
    ((eventsIn_initial _ hrt htu).flatMap (Req.beats DW)).length_le
  have hloaded := congrArg List.length hsub.loaded
  have hread := congrArg List.length hsub.read
  have hsame : (loadedBeats D p i (r + 1) u).length = (loads D p i (r + 1) u).length :=
    length_eventsIn_congr (by omega) fun _ _ _ => Option.isSome_map
  rw [List.length_append] at hloaded hread
  -- a beat is still owed, or waits
  rcases eq_or_ne (ram D p i u).rd.owed [] with howed | howed
  · cases hv : (ram D p i u).rd.rvalid with
    | true => exact waiting_transfers hrun hready (by omega) hv
    | false =>
      have hwait : (ram D p i u).rd.waiting = [] := by simp [ReadChannel.waiting, hv]
      rw [howed, List.length_nil] at hloaded
      rw [hwait, List.length_nil] at hread
      rw [readBeats] at hread
      omega
  · exact owed_transfers hr hrun hready (by omega) howed

/-- All beats of the write bursts accepted so far are accepted in the end. -/
theorem writes_accepted (hl : ∀ t, r < t → LegalMaster D p i r t)
    (hheld : ∀ u, r < u → (i u).wvalid = true → wTaken D p i u = false → (i (u + 1)).wvalid = true)
    (hoffer : ∀ u, r < u → (ram D p i u).wr.owed DW ≠ [] → ∃ v, u ≤ v ∧ (i v).wvalid = true)
    (hrt : r < t) :
    ∃ t', t ≤ t' ∧ ((writeBursts D p i (r + 1) t).flatMap (Req.beats DW)).length ≤
      (writeBeats D p i (r + 1) t').length := by
  have hr := (hl t hrt).rst
  have hrun : ∀ u, r < u → (i u).rst = false := fun u hu =>
    (hl (u + 1) (by omega)).run u hu (Nat.lt_succ_self u)
  refine eventsIn_reaches hrt fun u htu hlt => ?_
  have hsub := subordinate (show r < u by omega) (hl u (by omega))
  have hmono : ((writeBursts D p i (r + 1) t).flatMap (Req.beats DW)).length ≤
      ((writeBursts D p i (r + 1) u).flatMap (Req.beats DW)).length :=
    ((eventsIn_initial _ hrt htu).flatMap (Req.beats DW)).length_le
  have hwritten := congrArg List.length hsub.written
  rw [List.length_append] at hwritten
  have howed : (ram D p i u).wr.owed DW ≠ [] := by
    intro hnil
    rw [hnil, List.length_nil, writeBeats] at hwritten
    omega
  have hs : (ram D p i u).wr.awState = .data := by
    cases hs : (ram D p i u).wr.awState with
    | data => rfl
    | _ => simp [WriteChannel.owed, hs] at howed
  exact open_accepts hr hrun hheld (by omega) (hoffer u (by omega) howed) hs

/-- All bursts whose beats were accepted are answered in the end. -/
theorem writes_complete {s : ℕ} (hl : ∀ t, r < t → LegalMaster D p i r t)
    (hready : ∀ u, r < u → ∃ v, u ≤ v ∧ (i v).bready = true) (hrt : r < t) (hts : t ≤ s)
    (hbeats : ((writeBursts D p i (r + 1) t).flatMap (Req.beats DW)).length ≤
      (writeBeats D p i (r + 1) s).length) :
    ∃ t', s ≤ t' ∧ (writeBursts D p i (r + 1) t).length ≤ (responses D p i (r + 1) t').length := by
  have hrun : ∀ u, r < u → (i u).rst = false := fun u hu =>
    (hl (u + 1) (by omega)).run u hu (Nat.lt_succ_self u)
  refine eventsIn_reaches (show r + 1 ≤ s by omega) fun u hsu hlt => ?_
  have hsub := subordinate (show r < u by omega) (hl u (by omega))
  -- the beats accepted by then begin with those of these bursts
  have hfirst : (writeBursts D p i (r + 1) t).flatMap (Req.beats DW) <+:
      writeBeats D p i (r + 1) u := by
    have hwritten : (writeBursts D p i (r + 1) t).flatMap (Req.beats DW) <+:
        (writeBursts D p i (r + 1) u).flatMap (Req.beats DW) :=
      (eventsIn_initial _ hrt (show t ≤ u by omega)).flatMap (Req.beats DW)
    rw [hsub.written] at hwritten
    refine List.prefix_of_prefix_length_le hwritten (List.prefix_append _ _) ?_
    exact hbeats.trans (eventsIn_initial _ (by omega) hsu).length_le
  have hanswers := (hfirst.flatMap Beat.response).length_le
  rw [List.flatMap_assoc, hsub.response] at hanswers
  simp only [Req.beats_response, List.length_append] at hanswers
  rw [← List.map_eq_flatMap, List.length_map] at hanswers
  -- fewer answers than bursts: the missing one is out
  have hv : (ram D p i u).wr.bvalid = true := by
    by_contra hlow
    have hwait : (ram D p i u).wr.bWaiting = [] := by simp [WriteChannel.bWaiting, hlow]
    rw [hwait, List.length_nil, responses] at hanswers
    omega
  obtain ⟨v, huv, hy, hvalid⟩ := holds_until (P := fun w => (ram D p i w).wr.bvalid = true) hv
    (fun w huw hw hy => ((ok_run (show r < w by omega) (hl w (by omega))).wr.held
      (hrun w (by omega)) hw hy).1) (hready u (by omega))
  exact ⟨v, huv, by simp [WriteChannel.bBeat, hrun v (by omega), hvalid, hy]⟩

/-- **The test memory is a legal AXI4 subordinate**, for any stalls and any seed.
In every run of a legal master after a reset all beats and responses come in order,
none is lost, none comes twice, and only strobed bytes change.  A master that is
ready again and again gets all beats of every read burst, and a response to every
write burst if it offers the beats and keeps an offer up. -/
theorem sim_ram_subordinate (D : ℕ) (p : SimRam DW A ID) (i : ℕ → RamIn DW A ID) (r : ℕ) :
    (∀ t, r < t → LegalMaster D p i r t → Subordinate D p i r t) ∧
    ((∀ t, r < t → LegalMaster D p i r t) →
      ((∀ u, r < u → ∃ v, u ≤ v ∧ (i v).rready = true) → ∀ t, r < t → ∃ t', t ≤ t' ∧
        ((readBursts D p i (r + 1) t).flatMap (Req.beats DW)).length ≤
          (readBeats D p i (r + 1) t').length) ∧
      ((∀ u, r < u → ∃ v, u ≤ v ∧ (i v).bready = true) →
        (∀ u, r < u → (i u).wvalid = true → wTaken D p i u = false → (i (u + 1)).wvalid = true) →
        (∀ u, r < u → (ram D p i u).wr.owed DW ≠ [] → ∃ v, u ≤ v ∧ (i v).wvalid = true) →
        ∀ t, r < t → ∃ t', t ≤ t' ∧
          (writeBursts D p i (r + 1) t).length ≤ (responses D p i (r + 1) t').length)) := by
  refine ⟨fun t hrt hl => subordinate hrt hl, fun hl => ⟨?_, ?_⟩⟩
  · intro hready t hrt
    exact reads_complete hl hready hrt
  · intro hready hheld hoffer t hrt
    obtain ⟨s, hts, hbeats⟩ := writes_accepted hl hheld hoffer hrt
    obtain ⟨t', hst', hdone⟩ := writes_complete hl hready hrt hts hbeats
    exact ⟨t', hts.trans hst', hdone⟩

end runs

/-! ## A run -/

/-- Sixteen words of 32 bits, and nothing known about the registers. -/
def demoRam : SimRam 32 32 4 where
  mem a := BitVec.ofNat 32 (100 + a)
  lfsr := 0
  rd := ⟨.burst, 0, 0, 0, 0, 0, 0, 0, false, true⟩
  wr := ⟨.data, 0, 0, 0, 0, 0, 0, true⟩

/-- Two words are asked for again and again while the read channel is stalled at
random, and the second of them is written once, in cycles 1 to 3. -/
def demoIn (u : ℕ) : RamIn 32 32 4 where
  rst := u == 0
  stallMask := 0b1001
  stallSeed := 0
  arid := 5
  araddr := 8
  arlen := 1
  arvalid := true
  rready := true
  awid := 6
  awaddr := 12
  awlen := 0
  awvalid := u == 1
  wdata := 0xFFFFFFFF
  wstrb := 0b0011
  wlast := true
  wvalid := u == 2
  bready := true

theorem demoIn_legal (t : ℕ) : LegalMaster 16 demoRam demoIn 0 t where
  rst := rfl
  run u hu _ := by simp [demoIn]; omega
  read u _ _ q hq := by
    rw [ReadChannel.arAccepted_eq_some hq]
    exact (by decide : (⟨5, 8, 1⟩ : Req 32 4).InRange 32 16)
  write u _ _ q hq := by
    rw [WriteChannel.awAccepted_eq_some hq]
    exact (by decide : (⟨6, 12, 0⟩ : Req 32 4).InRange 32 16)
  last u a _ _ hw hlast := by
    have hu : u = 2 := by
      by_contra hne
      simp [wTaken, SimRam.wBeat, WriteChannel.wBeat, demoIn, hne] at hw
    have ha : a = 1 := by
      by_contra hne
      have hhigh := hlast.high
      simp [awTaken, SimRam.awReq, WriteChannel.awAccepted, demoIn, hne] at hhigh
    rw [hu, ha]
    rfl

/-- The beats asked for in the first twelve cycles all arrive, and the write is answered. -/
theorem sim_ram_subordinate_demo :
    Subordinate 16 demoRam demoIn 0 12 ∧ responses 16 demoRam demoIn 1 12 = [(6, 0)] ∧
      ∃ t', 12 ≤ t' ∧ 4 ≤ (readBeats 16 demoRam demoIn 1 t').length := by
  have hmain := sim_ram_subordinate 16 demoRam demoIn 0
  have hbeats : ((readBursts 16 demoRam demoIn 1 12).flatMap (Req.beats 32)).length = 4 := by
    decide +kernel
  obtain ⟨t', ht', hlen⟩ :=
    (hmain.2 fun t _ => demoIn_legal t).1 (fun u _ => ⟨u, le_rfl, rfl⟩) 12 (by decide)
  rw [hbeats] at hlen
  exact ⟨hmain.1 12 (by decide) (demoIn_legal 12), by decide +kernel, t', ht', hlen⟩

end Axi4SimRam
