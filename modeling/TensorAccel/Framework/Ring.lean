import Mathlib.Data.List.Range
import Mathlib.Data.Nat.ModEq
import Mathlib.Logic.Function.Basic
import Mathlib.Tactic.Common

/-! # Ring buffers

    A memory of `D` slots with a write pointer, a read pointer and a count.
    `Holds` says that it represents a queue; the rules below say how the
    queue changes with each move of the pointers. -/

namespace Ring

variable {α : Type _} {D wp rp cnt : ℕ} {mem : ℕ → α} {q : List α} {x y : α}

/-- The pointer after `p`. -/
def next (D p : ℕ) : ℕ := if p = D - 1 then 0 else p + 1

theorem next_eq (h : wp < D) : next D wp = (wp + 1) % D := by
  unfold next
  split
  · next hp => rw [hp, Nat.sub_add_cancel (by omega), Nat.mod_self]
  · exact (Nat.mod_eq_of_lt (by omega)).symm

/-- The words in the `cnt` slots from `rp` on. -/
def contents (D : ℕ) (mem : ℕ → α) (rp cnt : ℕ) : List α :=
  (List.range cnt).map fun k => mem ((rp + k) % D)

@[simp] theorem contents_zero (D : ℕ) (mem : ℕ → α) (rp : ℕ) : contents D mem rp 0 = [] := rfl

@[simp] theorem contents_length (D : ℕ) (mem : ℕ → α) (rp cnt : ℕ) :
    (contents D mem rp cnt).length = cnt := by
  simp [contents]

theorem contents_push (hcnt : cnt < D) (x : α) :
    contents D (Function.update mem ((rp + cnt) % D) x) rp (cnt + 1) =
      contents D mem rp cnt ++ [x] := by
  have hold : ∀ k ∈ List.range cnt,
      Function.update mem ((rp + cnt) % D) x ((rp + k) % D) = mem ((rp + k) % D) := by
    intro k hk
    rw [List.mem_range] at hk
    -- two slots less than `D` apart differ
    refine Function.update_of_ne (fun heq => ?_) _ _
    have hk' : k = cnt := Nat.ModEq.eq_of_lt_of_lt (Nat.ModEq.add_left_cancel' rp heq) (by omega) hcnt
    omega
  rw [contents, List.range_succ, List.map_append, List.map_congr_left hold]
  simp [contents]

theorem contents_pop : contents D mem rp (cnt + 1) =
    mem (rp % D) :: contents D mem ((rp + 1) % D) cnt := by
  rw [contents, List.range_succ_eq_map, List.map_cons, List.map_map]
  refine congrArg₂ _ rfl (List.map_congr_left fun k _ => ?_)
  simp [Nat.add_assoc, Nat.add_comm 1 k]

/-- The ring represents the queue `q`, oldest word first. -/
structure Holds (D : ℕ) (mem : ℕ → α) (wp rp cnt : ℕ) (q : List α) : Prop where
  rp_lt : rp < D
  cap : cnt ≤ D
  wp_eq : wp = (rp + cnt) % D
  words : contents D mem rp cnt = q

namespace Holds

theorem empty (h : rp < D) : Holds D mem rp rp 0 [] where
  rp_lt := h
  cap := Nat.zero_le _
  wp_eq := (Nat.mod_eq_of_lt h).symm
  words := rfl

theorem length (h : Holds D mem wp rp cnt q) : q.length = cnt := by
  rw [← h.words, contents_length]

theorem wp_lt (h : Holds D mem wp rp cnt q) : wp < D := by
  rw [h.wp_eq]
  exact Nat.mod_lt _ (by have := h.rp_lt; omega)

/-- An empty ring has its pointers at the same slot. -/
theorem wp_eq_rp (h : Holds D mem wp rp 0 q) : wp = rp := by
  rw [h.wp_eq, Nat.add_zero, Nat.mod_eq_of_lt h.rp_lt]

theorem push (h : Holds D mem wp rp cnt q) (hroom : cnt < D) (x : α) :
    Holds D (Function.update mem wp x) ((wp + 1) % D) rp (cnt + 1) (q ++ [x]) where
  rp_lt := h.rp_lt
  cap := hroom
  wp_eq := by rw [h.wp_eq, Nat.mod_add_mod, Nat.add_assoc]
  words := by rw [h.wp_eq, contents_push hroom, h.words]

theorem pop (h : Holds D mem wp rp (cnt + 1) (x :: q)) :
    Holds D mem wp ((rp + 1) % D) cnt q where
  rp_lt := Nat.mod_lt _ (by have := h.rp_lt; omega)
  cap := by have := h.cap; omega
  wp_eq := by rw [h.wp_eq, Nat.mod_add_mod, Nat.add_assoc, Nat.add_comm 1]
  words := by
    have hwords := h.words
    rw [contents_pop] at hwords
    exact (List.cons.inj hwords).2

theorem head (h : Holds D mem wp rp cnt (x :: q)) : mem rp = x := by
  obtain ⟨cnt', rfl⟩ : ∃ cnt', cnt = cnt' + 1 :=
    ⟨q.length, by have := h.length; simpa using this.symm⟩
  have hwords := h.words
  rw [contents_pop, Nat.mod_eq_of_lt h.rp_lt] at hwords
  exact (List.cons.inj hwords).1

/-- A nonempty ring has a head. -/
theorem exists_head (h : Holds D mem wp rp cnt q) (hcnt : 0 < cnt) : ∃ x q', q = x :: q' := by
  cases q with
  | nil => have := h.length; simp at this; omega
  | cons x q' => exact ⟨x, q', rfl⟩

end Holds

end Ring
