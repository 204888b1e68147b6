import Mathlib.Data.List.Range
import Mathlib.Order.Basic
import Mathlib.Tactic.Common

/-! # Clocked machines

    A synchronous design is a function `step` from the inputs of a cycle and
    the registers in that cycle to the registers in the next one.  This file
    has the run of such a machine over an input trace, the latest cycle before
    `t` in which a signal was high, and the list of events in a window of
    cycles.  Nothing here depends on a particular design. -/

namespace Clocked

variable {I S : Type _} {α : Type _}

/-! ## Runs -/

/-- The registers in cycle `t` of a run that powers up in `s₀`. -/
def run (step : I → S → S) (s₀ : S) (inp : ℕ → I) : ℕ → S
  | 0 => s₀
  | t + 1 => step (inp t) (run step s₀ inp t)

theorem run_succ (step : I → S → S) (s₀ : S) (inp : ℕ → I) (t : ℕ) :
    run step s₀ inp (t + 1) = step (inp t) (run step s₀ inp t) := rfl

/-- Two runs that meet stay together while their inputs do the same. -/
theorem run_agree {step : I → S → S} {p q : S} {i j : ℕ → I} {s t : ℕ} (hst : s ≤ t)
    (hmeet : run step p i s = run step q j s)
    (hstep : ∀ u, s ≤ u → u < t → run step p i u = run step q j u →
      step (i u) (run step p i u) = step (j u) (run step q j u)) :
    run step p i t = run step q j t := by
  induction t, hst using Nat.le_induction with
  | base => exact hmeet
  | succ t hst ih =>
    have hprev := ih fun u hu hut => hstep u hu (by omega)
    exact hstep t hst (Nat.lt_succ_self t) hprev

/-- `i` up to cycle `t`, and from there on `j` from its start. -/
def splice (t : ℕ) (i j : ℕ → I) (u : ℕ) : I := if u < t then i u else j (u - t)

theorem splice_lt {i j : ℕ → I} {t u : ℕ} (h : u < t) : splice t i j u = i u := if_pos h

@[simp] theorem splice_add (i j : ℕ → I) (t n : ℕ) : splice t i j (t + n) = j n := by
  rw [splice, if_neg (by omega), Nat.add_sub_cancel_left]

theorem run_splice_le (step : I → S → S) (s₀ : S) (i j : ℕ → I) {t u : ℕ} (h : u ≤ t) :
    run step s₀ (splice t i j) u = run step s₀ i u := by
  refine run_agree (Nat.zero_le u) rfl fun v _ hvu hv => ?_
  rw [splice_lt (by omega), hv]

/-- A run goes on where the first one stopped. -/
theorem run_splice (step : I → S → S) (s₀ : S) (i j : ℕ → I) (t n : ℕ) :
    run step s₀ (splice t i j) (t + n) = run step (run step s₀ i t) j n := by
  induction n with
  | zero => exact run_splice_le step s₀ i j le_rfl
  | succ n ih => rw [← Nat.add_assoc, run_succ, ih, splice_add, run_succ]

/-! ## Quiet windows and latest cycles -/

/-- Signal `p` is low in every cycle from `s` up to, not including, `t`. -/
def Quiet (p : ℕ → Bool) (s t : ℕ) : Prop := ∀ u < t, s ≤ u → p u = false

instance (p : ℕ → Bool) (s t : ℕ) : Decidable (Quiet p s t) :=
  inferInstanceAs (Decidable (∀ u < t, s ≤ u → p u = false))

theorem Quiet.mono {p : ℕ → Bool} {s s' t t' : ℕ} (h : Quiet p s t) (hs : s ≤ s')
    (ht : t' ≤ t) : Quiet p s' t' :=
  fun u hu hsu => h u (by omega) (by omega)

theorem Quiet.at {p : ℕ → Bool} {s t u : ℕ} (h : Quiet p s t) (hs : s ≤ u) (ht : u < t) :
    p u = false := h u ht hs

theorem quiet_succ {p : ℕ → Bool} {s t : ℕ} (h : Quiet p s t) (ht : p t = false) :
    Quiet p s (t + 1) := by
  intro u hu hs
  rcases Nat.lt_succ_iff_lt_or_eq.mp hu with hlt | rfl
  · exact h u hlt hs
  · exact ht

/-- `L` is the latest cycle before `t` in which `p` is high. -/
structure IsLast (p : ℕ → Bool) (L t : ℕ) : Prop where
  lt : L < t
  high : p L = true
  quiet : Quiet p (L + 1) t

/-- The latest cycle of `[s, t)` in which `p` is high, if there is one. -/
def lastIn (p : ℕ → Bool) (s : ℕ) : ℕ → Option ℕ
  | 0 => none
  | t + 1 => if s ≤ t ∧ p t then some t else lastIn p s t

theorem lastIn_succ (p : ℕ → Bool) (s t : ℕ) :
    lastIn p s (t + 1) = if s ≤ t ∧ p t then some t else lastIn p s t := rfl

theorem lastIn_empty (p : ℕ → Bool) {s t : ℕ} (h : t ≤ s) : lastIn p s t = none := by
  induction t with
  | zero => rfl
  | succ t ih => rw [lastIn_succ, if_neg (by omega), ih (by omega)]

theorem lastIn_eq_some {p : ℕ → Bool} {s t u : ℕ} (h : lastIn p s t = some u) :
    s ≤ u ∧ IsLast p u t := by
  induction t with
  | zero => simp [lastIn] at h
  | succ t ih =>
    rw [lastIn_succ] at h
    split at h
    · next hp =>
      obtain rfl := Option.some.inj h
      exact ⟨hp.1, Nat.lt_succ_self _, hp.2, fun v hv hu => by omega⟩
    · next hp =>
      obtain ⟨hsu, hlast⟩ := ih h
      have hpt : p t = false := by
        have hlt := hlast.lt
        simpa [show s ≤ t by omega] using hp
      exact ⟨hsu, Nat.lt_succ_of_lt hlast.lt, hlast.high, quiet_succ hlast.quiet hpt⟩

theorem lastIn_eq_none {p : ℕ → Bool} {s t : ℕ} (h : lastIn p s t = none) : Quiet p s t := by
  induction t with
  | zero => intro u hu; omega
  | succ t ih =>
    rw [lastIn_succ] at h
    split at h
    · cases h
    · next hp =>
      intro u hu hsu
      rcases Nat.lt_succ_iff_lt_or_eq.mp hu with hlt | rfl
      · exact ih h u hlt hsu
      · simpa [hsu] using hp

theorem lastIn_of_quiet {p : ℕ → Bool} {s t : ℕ} (h : Quiet p s t) : lastIn p s t = none := by
  cases hl : lastIn p s t with
  | none => rfl
  | some u =>
    obtain ⟨hsu, hlast⟩ := lastIn_eq_some hl
    have hlow := h.at hsu hlast.lt
    rw [hlast.high] at hlow
    cases hlow

/-- What holds in every free cycle of a machine that is free after a reset: an idle
cycle keeps it, and so does a stretch of busy cycles. -/
theorem free_induction (busy : ℕ → Bool) {P : ℕ → Prop} {r : ℕ} (hfirst : busy (r + 1) = false)
    (hbase : P (r + 1)) (hidle : ∀ t, r < t → busy t = false → busy (t + 1) = false → P t → P (t + 1))
    (hwork : ∀ s t, r < s → s < t → busy s = false → (∀ u, s < u → u ≤ t → busy u = true) →
      busy (t + 1) = false → P s → P (t + 1)) (t : ℕ) (hrt : r < t) (hfree : busy t = false) : P t := by
  induction t using Nat.strong_induction_on with
  | _ t ih =>
    obtain ⟨u, rfl⟩ : ∃ u, t = u + 1 := ⟨t - 1, by omega⟩
    rcases Nat.lt_succ_iff_lt_or_eq.mp hrt with hru | rfl
    · cases hb : busy u with
      | false => exact hidle u hru hb hfree (ih u (Nat.lt_succ_self u) hru hb)
      | true =>
        -- the stretch began after the latest free cycle
        cases hlast : lastIn (fun v => !busy v) (r + 1) u with
        | none =>
          have hne : u ≠ r + 1 := by
            rintro rfl
            rw [hb] at hfirst
            cases hfirst
          have hhigh := (lastIn_eq_none hlast).at le_rfl (show r + 1 < u by omega)
          simp [hfirst] at hhigh
        | some s =>
          obtain ⟨hrs, hlt, hlow, hquiet⟩ := lastIn_eq_some hlast
          have hsfree : busy s = false := by simpa using hlow
          refine hwork s u hrs hlt hsfree (fun v hsv hvu => ?_) hfree (ih s (by omega) hrs hsfree)
          rcases Nat.lt_or_eq_of_le hvu with hlt' | rfl
          · simpa using hquiet.at hsv hlt'
          · exact hb
    · exact hbase

/-! ## Registers with a load enable -/

/-- What a register with synchronous reset and load enable holds in cycle `s`:
the datum of the latest load that no reset followed, and `zero` without one. -/
def loaded (rst load : ℕ → Bool) (datum : ℕ → α) (zero : α) (s : ℕ) : α :=
  match lastIn load 0 s with
  | some u => if Quiet rst u s then datum u else zero
  | none => zero

section loaded
variable {rst load : ℕ → Bool} {datum : ℕ → α} {zero : α} {s : ℕ}

theorem loaded_succ_rst (h : rst s = true) : loaded rst load datum zero (s + 1) = zero := by
  unfold loaded
  split
  · next u hu =>
    have hlt := (lastIn_eq_some hu).2.lt
    rw [if_neg]
    intro hquiet
    have hlow := hquiet.at (show u ≤ s by omega) (Nat.lt_succ_self s)
    simp [h] at hlow
  · rfl

theorem loaded_succ_load (h : rst s = false) (hl : load s = true) :
    loaded rst load datum zero (s + 1) = datum s := by
  have hquiet : Quiet rst s (s + 1) := by
    intro u hu hsu
    obtain rfl : u = s := by omega
    exact h
  simp [loaded, lastIn_succ, hl, hquiet]

theorem loaded_succ_keep (h : rst s = false) (hl : load s = false) :
    loaded rst load datum zero (s + 1) = loaded rst load datum zero s := by
  have hquiet : ∀ u, Quiet rst u (s + 1) ↔ Quiet rst u s := fun u =>
    ⟨fun hq => hq.mono le_rfl (Nat.le_succ s), fun hq => quiet_succ hq h⟩
  simp only [loaded, lastIn_succ, hl, and_false, if_false, Bool.false_eq_true, hquiet]

/-- From a reset on, such a register holds `loaded`, whatever it held before. -/
theorem loaded_eq {q : ℕ → α}
    (hq : ∀ s, q (s + 1) = if rst s then zero else if load s then datum s else q s)
    {L : ℕ} (hL : rst L = true) : ∀ s, L < s → q s = loaded rst load datum zero s := by
  intro s hs
  induction s, hs using Nat.le_induction with
  | base => rw [loaded_succ_rst hL, hq, if_pos hL]
  | succ s _ ih =>
    rw [hq]
    cases hr : rst s with
    | true => rw [loaded_succ_rst hr, if_pos rfl]
    | false =>
      cases hl : load s with
      | true => rw [loaded_succ_load hr hl]; rfl
      | false => rw [loaded_succ_keep hr hl, ← ih]; rfl

end loaded

/-! ## Words of a memory -/

/-- What a word that no reset clears holds in cycle `t`: the datum of its latest
write, and `init` without one. -/
def written (load : ℕ → Bool) (datum : ℕ → α) (init : α) (t : ℕ) : α :=
  match lastIn load 0 t with
  | some u => datum u
  | none => init

theorem written_eq {load : ℕ → Bool} {datum q : ℕ → α}
    (hq : ∀ s, q (s + 1) = if load s then datum s else q s) (t : ℕ) : q t = written load datum (q 0) t := by
  induction t with
  | zero => rfl
  | succ t ih =>
    rw [hq, written, lastIn_succ]
    by_cases hl : load t = true
    · rw [if_pos hl, if_pos ⟨Nat.zero_le t, hl⟩]
    · rw [if_neg hl, if_neg (fun h => hl h.2), ih, written]

/-! ## Events -/

/-- The events of cycles `s, …, t - 1`, in order. -/
def eventsIn (ev : ℕ → Option α) (s t : ℕ) : List α :=
  (List.range' s (t - s)).filterMap ev

@[simp] theorem eventsIn_self (ev : ℕ → Option α) (s : ℕ) : eventsIn ev s s = [] := by
  simp [eventsIn]

theorem eventsIn_succ (ev : ℕ → Option α) {s t : ℕ} (h : s ≤ t) :
    eventsIn ev s (t + 1) = eventsIn ev s t ++ (ev t).toList := by
  have hlen : t + 1 - s = (t - s) + 1 := by omega
  have hend : s + 1 * (t - s) = t := by omega
  rw [eventsIn, eventsIn, hlen, List.range'_concat, List.filterMap_append, hend]
  cases hev : ev t <;> simp [hev]

theorem eventsIn_congr {ev ev' : ℕ → Option α} {s t : ℕ} (h : ∀ u, s ≤ u → u < t → ev u = ev' u) :
    eventsIn ev s t = eventsIn ev' s t := by
  apply List.filterMap_congr
  intro u hu
  rw [List.mem_range'_1] at hu
  exact h u hu.1 (by omega)

/-- A queue that takes in `put` and hands out `got` one cycle later is balanced
over any window in which it starts empty. -/
theorem eventsIn_balance {put got : ℕ → Option α} (queue : ℕ → List α) {s t : ℕ} (h : s ≤ t)
    (hgot : got s = none) (hqueue : queue s = [])
    (hstep : ∀ u, s ≤ u → u < t →
      queue u ++ (put u).toList = (got (u + 1)).toList ++ queue (u + 1)) :
    eventsIn put s t = eventsIn got s (t + 1) ++ queue t := by
  induction t, h using Nat.le_induction with
  | base => simp [eventsIn_succ, hgot, hqueue]
  | succ t hst ih =>
    have hprev := ih fun u hu hut => hstep u hu (by omega)
    rw [eventsIn_succ put hst, eventsIn_succ got (by omega), hprev, List.append_assoc,
      hstep t hst (Nat.lt_succ_self t), List.append_assoc]

/-- The same for a queue that hands out what it holds, each entry `x` that is put in
standing for the elements `f x`. -/
theorem eventsIn_conserve {β : Type _} {put : ℕ → Option β} {f : β → List α} {got : ℕ → Option α}
    (queue : ℕ → List α) {s t : ℕ} (h : s ≤ t) (hqueue : queue s = [])
    (hstep : ∀ u, s ≤ u → u < t →
      queue u ++ (put u).toList.flatMap f = (got u).toList ++ queue (u + 1)) :
    (eventsIn put s t).flatMap f = eventsIn got s t ++ queue t := by
  induction t, h using Nat.le_induction with
  | base => simp [hqueue]
  | succ t hst ih =>
    have hprev := ih fun u hu hut => hstep u hu (by omega)
    rw [eventsIn_succ put hst, eventsIn_succ got hst, List.flatMap_append, hprev, List.append_assoc,
      hstep t hst (Nat.lt_succ_self t), List.append_assoc]

theorem mem_eventsIn {ev : ℕ → Option α} {s t : ℕ} {x : α} :
    x ∈ eventsIn ev s t ↔ ∃ u, s ≤ u ∧ u < t ∧ ev u = some x := by
  rw [eventsIn, List.mem_filterMap]
  constructor
  · rintro ⟨u, hu, hev⟩
    rw [List.mem_range'_1] at hu
    exact ⟨u, hu.1, by omega, hev⟩
  · rintro ⟨u, hsu, hut, hev⟩
    exact ⟨u, List.mem_range'_1.mpr ⟨hsu, by omega⟩, hev⟩

theorem eventsIn_split (ev : ℕ → Option α) {s u t : ℕ} (hsu : s ≤ u) (hut : u ≤ t) :
    eventsIn ev s t = eventsIn ev s u ++ eventsIn ev u t := by
  induction t, hut using Nat.le_induction with
  | base => simp
  | succ t hut ih =>
    rw [eventsIn_succ ev (hsu.trans hut), eventsIn_succ ev hut, ih, List.append_assoc]

theorem eventsIn_eq_nil {ev : ℕ → Option α} {s t : ℕ} (h : ∀ u, s ≤ u → u < t → ev u = none) :
    eventsIn ev s t = [] := by
  rw [List.eq_nil_iff_forall_not_mem]
  intro x hx
  obtain ⟨u, hsu, hut, hev⟩ := mem_eventsIn.mp hx
  rw [h u hsu hut] at hev
  cases hev

/-- Events of the same cycles are as many. -/
theorem length_eventsIn_congr {β : Type _} {ev : ℕ → Option α} {ev' : ℕ → Option β} {s t : ℕ}
    (hst : s ≤ t) (h : ∀ u, s ≤ u → u < t → (ev u).isSome = (ev' u).isSome) :
    (eventsIn ev s t).length = (eventsIn ev' s t).length := by
  induction t, hst using Nat.le_induction with
  | base => simp
  | succ t hst ih =>
    have hsome := h t hst (Nat.lt_succ_self t)
    rw [eventsIn_succ ev hst, eventsIn_succ ev' hst, List.length_append, List.length_append,
      ih fun u hu hut => h u hu (by omega)]
    cases hev : ev t <;> cases hev' : ev' t <;> simp [hev, hev'] at hsome <;> simp

theorem eventsIn_initial (ev : ℕ → Option α) {s u t : ℕ} (hsu : s ≤ u) (hut : u ≤ t) :
    eventsIn ev s u <+: eventsIn ev s t := by
  rw [eventsIn_split ev hsu hut]
  exact List.prefix_append _ _

/-- The number of cycles among `s, …, t - 1` in which `p` is high. -/
def countIn (p : ℕ → Bool) (s t : ℕ) : ℕ :=
  ((List.range' s (t - s)).filter p).length

@[simp] theorem countIn_self (p : ℕ → Bool) (s : ℕ) : countIn p s s = 0 := by
  simp [countIn]

theorem countIn_succ (p : ℕ → Bool) {s t : ℕ} (h : s ≤ t) :
    countIn p s (t + 1) = countIn p s t + (p t).toNat := by
  have hlen : t + 1 - s = (t - s) + 1 := by omega
  have hend : s + 1 * (t - s) = t := by omega
  rw [countIn, countIn, hlen, List.range'_concat, List.filter_append, hend, List.length_append]
  cases hp : p t <;> simp [hp]

theorem countIn_quiet {p : ℕ → Bool} {s u t : ℕ} (hsu : s ≤ u) (hut : u ≤ t)
    (h : Quiet p u t) : countIn p s t = countIn p s u := by
  induction t, hut using Nat.le_induction with
  | base => rfl
  | succ t hut ih =>
    rw [countIn_succ p (hsu.trans hut), h.at hut (Nat.lt_succ_self t),
      ih (h.mono le_rfl (Nat.le_succ t))]
    rfl

/-! ## Effects -/

/-- What the cycles `s, …, t - 1` make of `x`, one after another. -/
def foldIn (f : ℕ → α → α) (s t : ℕ) (x : α) : α :=
  (List.range' s (t - s)).foldl (fun y u => f u y) x

@[simp] theorem foldIn_self (f : ℕ → α → α) (s : ℕ) (x : α) : foldIn f s s x = x := by
  simp [foldIn]

theorem foldIn_succ (f : ℕ → α → α) {s t : ℕ} (h : s ≤ t) (x : α) :
    foldIn f s (t + 1) x = f t (foldIn f s t x) := by
  have hlen : t + 1 - s = (t - s) + 1 := by omega
  have hend : s + 1 * (t - s) = t := by omega
  rw [foldIn, foldIn, hlen, List.range'_concat, List.foldl_append, hend]
  rfl

theorem foldIn_congr {f g : ℕ → α → α} {s t : ℕ} (hst : s ≤ t) (h : ∀ u, s ≤ u → u < t → f u = g u) (x : α) :
    foldIn f s t x = foldIn g s t x := by
  induction t, hst using Nat.le_induction with
  | base => rw [foldIn_self, foldIn_self]
  | succ t hst ih =>
    rw [foldIn_succ f hst, foldIn_succ g hst, ih fun u hu hut => h u hu (by omega), h t hst (Nat.lt_succ_self t)]

/-- Cycles that do nothing can be left out. -/
theorem foldIn_quiet {f : ℕ → α → α} {s u t : ℕ} (hsu : s ≤ u) (hut : u ≤ t)
    (h : ∀ v, u ≤ v → v < t → ∀ x, f v x = x) (x : α) : foldIn f s t x = foldIn f s u x := by
  induction t, hut using Nat.le_induction with
  | base => rfl
  | succ t hut ih =>
    rw [foldIn_succ f (hsu.trans hut), h t hut (Nat.lt_succ_self t)]
    exact ih fun v huv hvt => h v huv (by omega)

/-! ## Progress -/

/-- What every cycle keeps in which `stop` is low still holds when `stop` comes. -/
theorem holds_until {P : ℕ → Prop} {stop : ℕ → Bool} {s : ℕ} (hs : P s)
    (hkeep : ∀ u, s ≤ u → P u → stop u = false → P (u + 1)) (hstop : ∃ v, s ≤ v ∧ stop v = true) :
    ∃ v, s ≤ v ∧ stop v = true ∧ P v := by
  obtain ⟨v, hsv, hv⟩ := hstop
  obtain ⟨n, rfl⟩ := Nat.exists_eq_add_of_le hsv
  induction n generalizing s with
  | zero => exact ⟨s, le_rfl, hv, hs⟩
  | succ n ih =>
    cases hnow : stop s with
    | true => exact ⟨s, le_rfl, hnow, hs⟩
    | false =>
      obtain ⟨v, hsv, hv, hP⟩ := ih (s := s + 1) (hkeep s le_rfl hs hnow)
        (fun u hu => hkeep u (by omega)) (by omega) (by rwa [Nat.add_right_comm])
      exact ⟨v, by omega, hv, hP⟩

/-- A count that grows again and again while it is below `n` gets there. -/
theorem count_reaches {c : ℕ → ℕ} {n s : ℕ}
    (hgrow : ∀ u, s ≤ u → c u < n → ∃ v, u ≤ v ∧ c u < c v) : ∃ t, s ≤ t ∧ n ≤ c t := by
  induction hm : n - c s using Nat.strong_induction_on generalizing s with
  | _ m ih =>
    by_cases hn : n ≤ c s
    · exact ⟨s, le_rfl, hn⟩
    · obtain ⟨v, hsv, hv⟩ := hgrow s le_rfl (by omega)
      obtain ⟨t, hvt, ht⟩ := ih (n - c v) (by omega) (fun u hu => hgrow u (by omega)) rfl
      exact ⟨t, by omega, ht⟩

/-- Events that come again and again while there are fewer than `n` become `n`. -/
theorem eventsIn_reaches {ev : ℕ → Option α} {n s t : ℕ} (hst : s ≤ t)
    (hnext : ∀ u, t ≤ u → (eventsIn ev s u).length < n → ∃ v, u ≤ v ∧ (ev v).isSome = true) :
    ∃ t', t ≤ t' ∧ n ≤ (eventsIn ev s t').length := by
  refine count_reaches (c := fun u => (eventsIn ev s u).length) fun u hu hlt => ?_
  obtain ⟨v, huv, hev⟩ := hnext u hu hlt
  obtain ⟨x, hx⟩ := Option.isSome_iff_exists.mp hev
  have hmono := (eventsIn_initial ev (hst.trans hu) huv).length_le
  refine ⟨v + 1, by omega, ?_⟩
  rw [eventsIn_succ ev (by omega), hx, List.length_append]
  exact Nat.lt_succ_of_le hmono

end Clocked
