import Mathlib.Algebra.BigOperators.Group.List.Basic
import Mathlib.Algebra.BigOperators.Ring.Finset
import Mathlib.Data.List.GetD

/-! # N-dimensional arrays

    Arrays of any number of axes with their elements in row-major order.  An
    operation whose shapes do not match yields `none`. -/

/-! ## Indices -/

/-- `idx` is an index of an array of this shape. -/
def InShape (idx shape : List ℕ) : Prop := List.Forall₂ (· < ·) idx shape

/-- Row-major offset of an index. -/
def ravel : List ℕ → List ℕ → ℕ
  | _ :: shape, i :: idx => i * shape.prod + ravel shape idx
  | _, _ => 0

/-- Index of a row-major offset. -/
def unravel : List ℕ → ℕ → List ℕ
  | [], _ => []
  | _ :: shape, k => k / shape.prod :: unravel shape (k % shape.prod)

theorem ravel_lt {shape idx : List ℕ} (h : InShape idx shape) : ravel shape idx < shape.prod := by
  induction h with
  | nil => simp [ravel]
  | @cons i d idx shape hi _ ih =>
    rw [ravel, List.prod_cons]
    calc i * shape.prod + ravel shape idx < (i + 1) * shape.prod := by rw [Nat.succ_mul]; omega
      _ ≤ d * shape.prod := Nat.mul_le_mul_right _ hi

theorem unravel_ravel {shape idx : List ℕ} (h : InShape idx shape) :
    unravel shape (ravel shape idx) = idx := by
  induction h with
  | nil => rfl
  | @cons i d idx shape hi hrest ih =>
    have hlt := ravel_lt hrest
    have hdiv : (i * shape.prod + ravel shape idx) / shape.prod = i := by
      rw [Nat.mul_comm, Nat.mul_add_div (by omega), Nat.div_eq_of_lt hlt, Nat.add_zero]
    have hmod : (i * shape.prod + ravel shape idx) % shape.prod = ravel shape idx := by
      rw [Nat.mul_comm, Nat.mul_add_mod, Nat.mod_eq_of_lt hlt]
    rw [ravel, unravel, hdiv, hmod, ih]

theorem inShape_unravel {shape : List ℕ} {k : ℕ} (h : k < shape.prod) : InShape (unravel shape k) shape := by
  induction shape generalizing k with
  | nil => exact .nil
  | cons d shape ih =>
    rw [List.prod_cons] at h
    have hpos : 0 < shape.prod := Nat.pos_of_mul_pos_left (Nat.zero_lt_of_lt h)
    exact .cons (Nat.div_lt_of_lt_mul (by rwa [Nat.mul_comm])) (ih (Nat.mod_lt k hpos))

theorem ravel_unravel {shape : List ℕ} {k : ℕ} (h : k < shape.prod) : ravel shape (unravel shape k) = k := by
  induction shape generalizing k with
  | nil =>
    rw [List.prod_nil] at h
    simp only [ravel]
    omega
  | cons d shape ih =>
    rw [List.prod_cons] at h
    have hpos : 0 < shape.prod := Nat.pos_of_mul_pos_left (Nat.zero_lt_of_lt h)
    rw [unravel, ravel, ih (Nat.mod_lt k hpos), Nat.div_add_mod']

/-! ## Arrays -/

structure NdArray (α : Type _) where
  shape : List ℕ
  data : List α
  size : data.length = shape.prod
  deriving DecidableEq

namespace NdArray

variable {α β : Type _}

/-- The array with `f idx` at every index `idx`. -/
def ofFn (shape : List ℕ) (f : List ℕ → α) : NdArray α where
  shape := shape
  data := (List.range shape.prod).map fun k => f (unravel shape k)
  size := by simp

def map (f : α → β) (x : NdArray α) : NdArray β where
  shape := x.shape
  data := x.data.map f
  size := by rw [List.length_map, x.size]

/-- The same elements in another shape. -/
def reshape (x : NdArray α) (shape : List ℕ) : Option (NdArray α) :=
  if h : shape.prod = x.shape.prod then some ⟨shape, x.data, x.size.trans h.symm⟩ else none

@[simp] theorem shape_ofFn (shape : List ℕ) (f : List ℕ → α) : (ofFn shape f).shape = shape := rfl
@[simp] theorem shape_map (f : α → β) (x : NdArray α) : (x.map f).shape = x.shape := rfl

theorem map_id (x : NdArray α) {f : α → α} (h : ∀ a, f a = a) : x.map f = x := by
  rcases x with ⟨shape, data, size⟩
  rw [map, mk.injEq]
  exact ⟨rfl, (List.map_congr_left fun a _ => h a).trans (List.map_id data)⟩

theorem map_map {γ : Type _} (g : β → γ) (f : α → β) (x : NdArray α) : (x.map f).map g = x.map fun a => g (f a) := by
  simp [map, Function.comp_def]

theorem reshape_eq_some {x : NdArray α} {shape : List ℕ} (h : shape.prod = x.shape.prod) :
    ∃ y, x.reshape shape = some y ∧ y.shape = shape := by
  rw [reshape, dif_pos h]
  exact ⟨_, rfl, rfl⟩

theorem data_reshape {x y : NdArray α} {shape : List ℕ} (h : x.reshape shape = some y) :
    y.shape = shape ∧ y.data = x.data := by
  unfold reshape at h
  split at h
  · obtain rfl := Option.some.inj h
    exact ⟨rfl, rfl⟩
  · cases h

theorem reshape_map (f : α → β) (x : NdArray α) (shape : List ℕ) :
    (x.map f).reshape shape = (x.reshape shape).map (map f) := by
  by_cases h : shape.prod = x.shape.prod
  · have hmap : shape.prod = (x.map f).shape.prod := h
    rw [reshape, dif_pos hmap, reshape, dif_pos h]
    rfl
  · have hmap : ¬ shape.prod = (x.map f).shape.prod := h
    rw [reshape, dif_neg hmap, reshape, dif_neg h]
    rfl

section Entries

variable [Zero α]

/-- Entry at an index; zero where there is none. -/
def get (x : NdArray α) (idx : List ℕ) : α := x.data.getD (ravel x.shape idx) 0

@[simp] theorem get_ofFn {shape idx : List ℕ} (f : List ℕ → α) (h : InShape idx shape) :
    (ofFn shape f).get idx = f idx := by
  have hlt := ravel_lt h
  rw [get, ofFn, List.getD_eq_getElem _ _ (by simpa using hlt)]
  simp [unravel_ravel h]

theorem get_map [Zero β] (f : α → β) {x : NdArray α} {idx : List ℕ} (h : InShape idx x.shape) :
    (x.map f).get idx = f (x.get idx) := by
  have hlt : ravel x.shape idx < x.data.length := by
    rw [x.size]
    exact ravel_lt h
  rw [get, get, map, List.getD_eq_getElem _ _ (by simpa using hlt), List.getD_eq_getElem _ _ hlt,
    List.getElem_map]

theorem getD_data_vector {x : NdArray α} {n : ℕ} (h : x.shape = [n]) (j : ℕ) : x.data.getD j 0 = x.get [j] := by
  rw [get, h]
  simp [ravel]

theorem getD_data_matrix {x : NdArray α} {m n : ℕ} (h : x.shape = [m, n]) (i j : ℕ) :
    x.data.getD (i * n + j) 0 = x.get [i, j] := by
  rw [get, h]
  simp [ravel]

/-- A reshape keeps the row-major offset of an entry. -/
theorem get_reshape {x y : NdArray α} {shape idx idx' : List ℕ} (h : x.reshape shape = some y)
    (hidx : ravel shape idx' = ravel x.shape idx) : y.get idx' = x.get idx := by
  unfold reshape at h
  split at h
  · obtain rfl := Option.some.inj h
    rw [get, get, hidx]
  · cases h

/-- Arrays of one shape with the same entries are equal. -/
theorem ext_get {x y : NdArray α} (hshape : x.shape = y.shape)
    (h : ∀ idx, InShape idx x.shape → x.get idx = y.get idx) : x = y := by
  rcases x with ⟨shape, xs, hx⟩
  rcases y with ⟨_, ys, hy⟩
  obtain rfl : shape = _ := hshape
  rw [mk.injEq]
  refine ⟨rfl, List.ext_getElem (hx.trans hy.symm) fun k hkx hky => ?_⟩
  have hk : k < shape.prod := hx ▸ hkx
  have hentry := h (unravel shape k) (inShape_unravel hk)
  rw [get, get, ravel_unravel hk, List.getD_eq_getElem _ _ hkx, List.getD_eq_getElem _ _ hky] at hentry
  exact hentry

/-- `x.transpose(axes)` -/
def transpose (x : NdArray α) (axes : List ℕ) : NdArray α :=
  ofFn (axes.map fun a => x.shape.getD a 0) fun idx =>
    x.get ((List.range x.shape.length).map fun a => idx.getD (axes.idxOf a) 0)

end Entries

/-! ## Matrices -/

theorem inShape_pair {i j m n : ℕ} : InShape [i, j] [m, n] ↔ i < m ∧ j < n := by simp [InShape]

/-- An index of a matrix. -/
theorem InShape.pair {idx : List ℕ} {m n : ℕ} (h : InShape idx [m, n]) :
    ∃ i j, idx = [i, j] ∧ i < m ∧ j < n := by
  cases h with
  | cons hi hrest =>
    cases hrest with
    | cons hj hrest =>
      cases hrest
      exact ⟨_, _, rfl, hi, hj⟩

/-- An index of a vector. -/
theorem InShape.single {idx : List ℕ} {n : ℕ} (h : InShape idx [n]) : ∃ i, idx = [i] ∧ i < n := by
  cases h with
  | cons hi hrest =>
    cases hrest
    exact ⟨_, rfl, hi⟩

theorem inShape_triple {i j k m n p : ℕ} : InShape [i, j, k] [m, n, p] ↔ i < m ∧ j < n ∧ k < p := by
  simp [InShape]

/-- An index of an array with three axes. -/
theorem InShape.triple {idx : List ℕ} {m n p : ℕ} (h : InShape idx [m, n, p]) :
    ∃ i j k, idx = [i, j, k] ∧ i < m ∧ j < n ∧ k < p := by
  cases h with
  | cons hi hrest =>
    obtain ⟨j, k, rfl, hj, hk⟩ := InShape.pair hrest
    exact ⟨_, j, k, rfl, hi, hj, hk⟩

theorem inShape_quad {i j k l m n p q : ℕ} :
    InShape [i, j, k, l] [m, n, p, q] ↔ i < m ∧ j < n ∧ k < p ∧ l < q := by simp [InShape]

/-- An index of an array with four axes. -/
theorem InShape.quad {idx : List ℕ} {m n p q : ℕ} (h : InShape idx [m, n, p, q]) :
    ∃ i j k l, idx = [i, j, k, l] ∧ i < m ∧ j < n ∧ k < p ∧ l < q := by
  cases h with
  | cons hi hrest =>
    obtain ⟨j, k, l, rfl, hj, hk, hl⟩ := InShape.triple hrest
    exact ⟨_, j, k, l, rfl, hi, hj, hk, hl⟩

/-- Matrix with entry `f i j` in row `i`, column `j`. -/
def ofFn₂ (m n : ℕ) (f : ℕ → ℕ → α) : NdArray α := ofFn [m, n] fun idx => f (idx.getD 0 0) (idx.getD 1 0)

@[simp] theorem shape_ofFn₂ (m n : ℕ) (f : ℕ → ℕ → α) : (ofFn₂ m n f).shape = [m, n] := rfl

@[simp] theorem get_ofFn₂ [Zero α] {m n i j : ℕ} (f : ℕ → ℕ → α) (hi : i < m) (hj : j < n) :
    (ofFn₂ m n f).get [i, j] = f i j := by
  rw [ofFn₂, get_ofFn _ (inShape_pair.mpr ⟨hi, hj⟩)]
  rfl

theorem ext₂ [Zero α] {x y : NdArray α} {m n : ℕ} (hx : x.shape = [m, n]) (hy : y.shape = [m, n])
    (h : ∀ i < m, ∀ j < n, x.get [i, j] = y.get [i, j]) : x = y := by
  apply ext_get (hx.trans hy.symm)
  intro idx hidx
  rw [hx] at hidx
  obtain ⟨i, j, rfl, hi, hj⟩ := InShape.pair hidx
  exact h i hi j hj

/-- `A @ B` -/
def matmul [NonUnitalNonAssocSemiring α] (A B : NdArray α) : Option (NdArray α) :=
  match A.shape, B.shape with
  | [m, k], [k', n] =>
    if k = k' then some (ofFn₂ m n fun i j => ∑ l ∈ Finset.range k, A.get [i, l] * B.get [l, j])
    else none
  | _, _ => none

/-- `A + b`, with the vector `b` added to each row. -/
def addRow [Zero α] [Add α] (A b : NdArray α) : Option (NdArray α) :=
  match A.shape, b.shape with
  | [m, n], [n'] => if n = n' then some (ofFn₂ m n fun i j => A.get [i, j] + b.get [j]) else none
  | _, _ => none

theorem matmul_eq [NonUnitalNonAssocSemiring α] {A B : NdArray α} {m k n : ℕ} (hA : A.shape = [m, k])
    (hB : B.shape = [k, n]) :
    A.matmul B = some (ofFn₂ m n fun i j => ∑ l ∈ Finset.range k, A.get [i, l] * B.get [l, j]) := by
  simp [matmul, hA, hB]

theorem addRow_eq [Zero α] [Add α] {A b : NdArray α} {m n : ℕ} (hA : A.shape = [m, n]) (hb : b.shape = [n]) :
    A.addRow b = some (ofFn₂ m n fun i j => A.get [i, j] + b.get [j]) := by
  simp [addRow, hA, hb]

/-! ## Concatenation -/

/-- `np.concatenate((x, y), axis=0)` -/
def append0 (x y : NdArray α) : Option (NdArray α) :=
  match hx : x.shape, hy : y.shape with
  | n :: rest, m :: rest' =>
    if h : rest' = rest then
      some ⟨(n + m) :: rest, x.data ++ y.data, by
        rw [List.length_append, x.size, y.size, hx, hy, h, List.prod_cons, List.prod_cons, List.prod_cons,
          Nat.add_mul]⟩
    else none
  | _, _ => none

/-- `np.concatenate(xs, axis=0)`; an empty list and arrays without axes are refused. -/
def concat0 : List (NdArray α) → Option (NdArray α)
  | [] => none
  | [x] => if x.shape = [] then none else some x
  | x :: y :: ys => (concat0 (y :: ys)).bind (append0 x)

theorem append0_eq {x y z : NdArray α} {n m : ℕ} {rest : List ℕ} (hx : x.shape = n :: rest)
    (hy : y.shape = m :: rest) : append0 x y = some z ↔ z.shape = (n + m) :: rest ∧ z.data = x.data ++ y.data := by
  rcases x with ⟨xs, xd, hxd⟩
  rcases y with ⟨ys, yd, hyd⟩
  rcases z with ⟨zs, zd, hzd⟩
  obtain rfl : xs = n :: rest := hx
  obtain rfl : ys = m :: rest := hy
  simp only [append0, dite_true, Option.some.injEq, mk.injEq]
  constructor
  · rintro ⟨rfl, rfl⟩
    exact ⟨rfl, rfl⟩
  · rintro ⟨rfl, rfl⟩
    exact ⟨rfl, rfl⟩

/-- Shapes of two arrays that can be joined. -/
theorem append0_shapes {x y z : NdArray α} (h : append0 x y = some z) :
    ∃ n m rest, x.shape = n :: rest ∧ y.shape = m :: rest ∧ z.shape = (n + m) :: rest := by
  unfold append0 at h
  split at h
  · next n rest m rest' hx hy =>
    split at h
    · next hrest =>
      obtain rfl := Option.some.inj h
      subst hrest
      exact ⟨n, m, _, hx, hy, rfl⟩
    · cases h
  · cases h

theorem append0_map (f : α → β) {x y z : NdArray α} (h : append0 x y = some z) :
    append0 (x.map f) (y.map f) = some (z.map f) := by
  obtain ⟨n, m, rest, hx, hy, hz⟩ := append0_shapes h
  have hdata := ((append0_eq hx hy).mp h).2
  rw [append0_eq (show (x.map f).shape = n :: rest from hx) (show (y.map f).shape = m :: rest from hy)]
  refine ⟨hz, ?_⟩
  show z.data.map f = _
  rw [hdata, List.map_append]
  rfl

section append
variable [Zero α] {x y z : NdArray α} {n m i : ℕ} {rest idx : List ℕ}

theorem get_append0_left (h : append0 x y = some z) (hx : x.shape = n :: rest) (hi : i < n)
    (hidx : InShape idx rest) : z.get (i :: idx) = x.get (i :: idx) := by
  obtain ⟨n', m, rest', hx', hy, hz⟩ := append0_shapes h
  rw [hx] at hx'
  obtain ⟨rfl, rfl⟩ := List.cons.inj hx'
  have hlt : ravel (n :: rest) (i :: idx) < x.data.length := by
    rw [x.size, hx]
    exact ravel_lt (.cons hi hidx)
  rw [get, get, hz, hx, ((append0_eq hx hy).mp h).2]
  exact List.getD_append _ _ _ _ hlt

theorem get_append0_right (h : append0 x y = some z) (hx : x.shape = n :: rest) :
    z.get ((n + i) :: idx) = y.get (i :: idx) := by
  obtain ⟨n', m, rest', hx', hy, hz⟩ := append0_shapes h
  rw [hx] at hx'
  obtain ⟨rfl, rfl⟩ := List.cons.inj hx'
  have hoffset : ravel (n :: rest) ((n + i) :: idx) = x.data.length + ravel (m :: rest) (i :: idx) := by
    rw [x.size, hx, ravel, ravel, List.prod_cons, Nat.add_mul, Nat.add_assoc]
  rw [get, get, hz, hy, ((append0_eq hx hy).mp h).2]
  have hsame : ravel ((n + m) :: rest) ((n + i) :: idx) = ravel (n :: rest) ((n + i) :: idx) := rfl
  rw [hsame, hoffset, List.getD_append_right _ _ _ _ (Nat.le_add_right _ _), Nat.add_sub_cancel_left]

/-- An array with the entries of `x` and then those of `y` is their concatenation. -/
theorem append0_of_get (hx : x.shape = n :: rest) (hy : y.shape = m :: rest) (hz : z.shape = (n + m) :: rest)
    (hleft : ∀ i < n, ∀ idx, InShape idx rest → z.get (i :: idx) = x.get (i :: idx))
    (hright : ∀ i < m, ∀ idx, InShape idx rest → z.get ((n + i) :: idx) = y.get (i :: idx)) :
    append0 x y = some z := by
  obtain ⟨w, hw⟩ : ∃ w, append0 x y = some w := by
    rcases x with ⟨xs, xd, hxd⟩
    rcases y with ⟨ys, yd, hyd⟩
    obtain rfl : xs = n :: rest := hx
    obtain rfl : ys = m :: rest := hy
    exact ⟨_, by simp only [append0, dite_true]; rfl⟩
  rw [hw, Option.some.injEq]
  have hwshape := ((append0_eq hx hy).mp hw).1
  apply ext_get (hwshape.trans hz.symm)
  intro idx hidx
  rw [hwshape] at hidx
  cases hidx with
  | @cons i _ idx _ hi hrest =>
    by_cases hlt : i < n
    · rw [get_append0_left hw hx hlt hrest, hleft i hlt idx hrest]
    · obtain ⟨k, rfl⟩ := Nat.exists_eq_add_of_le (Nat.le_of_not_lt hlt)
      rw [get_append0_right hw hx, hright k (by omega) idx hrest]

end append

end NdArray
