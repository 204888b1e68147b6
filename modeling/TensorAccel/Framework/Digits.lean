import Mathlib.Data.BitVec
import Mathlib.Tactic.Common

/-! # Numbers and words in lines of text

    Numbers are printed in a base up to 16 with `Nat.toDigits`, bytes as two
    hexadecimal digits.  The readers are those of `sscanf` without `0x`: they skip
    white space, and take as much as they can. -/

namespace Digits

/-! ## Characters -/

/-- The value of a hexadecimal digit. -/
def digitVal (c : Char) : Option ℕ :=
  let n := c.toNat
  if 48 ≤ n ∧ n ≤ 57 then some (n - 48)
  else if 97 ≤ n ∧ n ≤ 102 then some (n - 87)
  else if 65 ≤ n ∧ n ≤ 70 then some (n - 55)
  else none

/-- A digit of base `b`. -/
def isDigit (b : ℕ) (c : Char) : Bool :=
  match digitVal c with
  | some d => d < b
  | none => false

/-- `isspace` -/
def isSpace (c : Char) : Bool := c.toNat == 32 || (9 ≤ c.toNat && c.toNat ≤ 13)

/-- Each digit reads as itself, in any base that has it, and none is white space. -/
theorem digitChar_spec : ∀ d < 16, digitVal (Nat.digitChar d) = some d ∧ isSpace (Nat.digitChar d) = false := by
  decide

theorem isDigit_digitChar {b d : ℕ} (hb : b ≤ 16) (hd : d < b) : isDigit b (Nat.digitChar d) = true := by
  rw [isDigit, (digitChar_spec d (by omega)).1]
  simpa using hd

theorem isSpace_digitChar {d : ℕ} (hd : d < 16) : isSpace (Nat.digitChar d) = false :=
  (digitChar_spec d hd).2

/-! ## Numbers -/

/-- The number that a list of digits stands for. -/
def valueOf (b : ℕ) (cs : List Char) : ℕ := cs.foldl (fun v c => v * b + (digitVal c).getD 0) 0

section numbers
variable {b n : ℕ} {c : Char} {rest : List Char}

theorem valueOf_snoc (b : ℕ) (cs : List Char) (c : Char) :
    valueOf b (cs ++ [c]) = valueOf b cs * b + (digitVal c).getD 0 := by
  simp [valueOf]

/-- Digits read as the number they were printed from. -/
theorem valueOf_toDigits (hb : 1 < b) (hb' : b ≤ 16) (n : ℕ) : valueOf b (Nat.toDigits b n) = n := by
  induction n using Nat.strong_induction_on with
  | _ n ih =>
    rw [Nat.toDigits_eq_if hb]
    split
    · next hlt => simp [valueOf, (digitChar_spec n (by omega)).1]
    · next hge =>
      have hmod := Nat.mod_lt n (show 0 < b by omega)
      rw [valueOf_snoc, ih (n / b) (Nat.div_lt_self (by omega) hb), (digitChar_spec _ (by omega)).1]
      exact Nat.div_add_mod' n b

/-- A printed number consists of digits. -/
theorem exists_digit_of_mem (hb : 1 < b) (hc : c ∈ Nat.toDigits b n) : ∃ d < b, c = Nat.digitChar d := by
  induction n using Nat.strong_induction_on with
  | _ n ih =>
    rw [Nat.toDigits_eq_if hb] at hc
    split at hc
    · next hlt => exact ⟨n, hlt, List.mem_singleton.mp hc⟩
    · next hge =>
      rcases List.mem_append.mp hc with hhigh | hlow
      · exact ih (n / b) (Nat.div_lt_self (by omega) hb) hhigh
      · exact ⟨n % b, Nat.mod_lt n (by omega), List.mem_singleton.mp hlow⟩

theorem isSpace_toDigits (hb : 1 < b) (hb' : b ≤ 16) (hc : c ∈ Nat.toDigits b n) : isSpace c = false := by
  obtain ⟨d, hd, rfl⟩ := exists_digit_of_mem hb hc
  exact isSpace_digitChar (by omega)

end numbers

/-! ## Readers -/

/-- The longest run of characters with `p`, behind white space. -/
def scanRun (p : Char → Bool) (s : List Char) : List Char × List Char := (s.dropWhile isSpace).span p

/-- `%s` -/
def scanWord (s : List Char) : List Char × List Char := scanRun (fun c => !isSpace c) s

/-- `%d` and `%x` of a number without a sign or a `0x`: there is a digit at least. -/
def scanNat (b : ℕ) (s : List Char) : Option (ℕ × List Char) :=
  let (ds, rest) := scanRun (isDigit b) s
  if ds.isEmpty then none else some (valueOf b ds, rest)

/-- Text in a format string. -/
def scanLit (lit s : List Char) : Option (List Char) :=
  if lit.isPrefixOf s then some (s.drop lit.length) else none

/-- The list does not go on with a character that has `p`. -/
def Stops (p : Char → Bool) (s : List Char) : Prop := ∀ c, s.head? = some c → p c = false

section readers
variable {p : Char → Bool} {w rest : List Char} {b n : ℕ} {c : Char}

theorem stops_space (h : isSpace c = true) : Stops (fun c => !isSpace c) (c :: rest) := by
  intro d hd
  obtain rfl : c = d := by simpa using hd
  simp [h]

/-- White space is no digit. -/
theorem stops_digit (h : isSpace c = true) : Stops (isDigit b) (c :: rest) := by
  intro d hd
  obtain rfl : c = d := by simpa using hd
  have hn : c.toNat = 32 ∨ 9 ≤ c.toNat ∧ c.toNat ≤ 13 := by simpa [isSpace] using h
  have hval : digitVal c = none := by
    unfold digitVal
    simp only
    rw [if_neg (by omega), if_neg (by omega), if_neg (by omega)]
  rw [isDigit, hval]

theorem stops_nil (p : Char → Bool) : Stops p [] := by
  intro c hc
  simp at hc

/-- A reader takes what it is meant to take. -/
theorem span_run (hw : ∀ c ∈ w, p c = true) (hstop : Stops p rest) : (w ++ rest).span p = (w, rest) := by
  rw [List.span_eq_takeWhile_dropWhile, List.takeWhile_append_of_pos hw, List.dropWhile_append_of_pos hw]
  cases rest with
  | nil => simp
  | cons c rest =>
    have hc := hstop c rfl
    simp [hc]

theorem scanRun_run (hw : ∀ c ∈ w, p c = true) (hne : w ≠ []) (hstop : Stops p rest)
    (hspace : ∀ c ∈ w, isSpace c = false) : scanRun p (w ++ rest) = (w, rest) := by
  have hskip : (w ++ rest).dropWhile isSpace = w ++ rest := by
    cases w with
    | nil => exact absurd rfl hne
    | cons c w => simp [hspace c List.mem_cons_self]
  rw [scanRun, hskip, span_run hw hstop]

/-- White space in front is skipped. -/
theorem scanRun_space (p : Char → Bool) (h : isSpace c = true) (s : List Char) : scanRun p (c :: s) = scanRun p s := by
  simp [scanRun, h]

theorem scanWord_run (hne : w ≠ []) (hspace : ∀ c ∈ w, isSpace c = false)
    (hstop : Stops (fun c => !isSpace c) rest) : scanWord (w ++ rest) = (w, rest) :=
  scanRun_run (fun c hc => by simp [hspace c hc]) hne hstop hspace

/-- A printed number is read back, with white space in front. -/
theorem scanNat_toDigits (hb : 1 < b) (hb' : b ≤ 16) (hc : isSpace c = true) (n : ℕ)
    (hstop : Stops (isDigit b) rest) : scanNat b (c :: (Nat.toDigits b n ++ rest)) = some (n, rest) := by
  have hrun : scanRun (isDigit b) (Nat.toDigits b n ++ rest) = (Nat.toDigits b n, rest) := by
    refine scanRun_run (fun d hd => ?_) Nat.toDigits_ne_nil hstop fun d hd => isSpace_toDigits hb hb' hd
    obtain ⟨k, hk, rfl⟩ := exists_digit_of_mem hb hd
    exact isDigit_digitChar hb' hk
  rw [scanNat, scanRun_space _ hc, hrun]
  simp [valueOf_toDigits hb hb']

theorem scanLit_run (lit rest : List Char) : scanLit lit (lit ++ rest) = some rest := by
  simp [scanLit]

end readers

/-! ## Signed numbers -/

/-- `%d`, which is also the text of an integer in Python. -/
def intText (v : ℤ) : List Char := if v < 0 then '-' :: Nat.toDigits 10 v.natAbs else Nat.toDigits 10 v.natAbs

/-- The digits of a number, at once. -/
def readDigits (s : List Char) : Option (ℕ × List Char) :=
  let (ds, rest) := s.span (isDigit 10)
  if ds.isEmpty then none else some (valueOf 10 ds, rest)

/-- `%d` with a sign. -/
def scanInt (s : List Char) : Option (ℤ × List Char) :=
  let s := s.dropWhile isSpace
  if s.head? = some '-' then (readDigits s.tail).map fun x => (-(x.1 : ℤ), x.2)
  else if s.head? = some '+' then (readDigits s.tail).map fun x => ((x.1 : ℤ), x.2)
  else (readDigits s).map fun x => ((x.1 : ℤ), x.2)

/-- `n` times `%d`. -/
def scanInts : ℕ → List Char → Option (List ℤ × List Char)
  | 0, s => some ([], s)
  | n + 1, s => do
    let (v, s) ← scanInt s
    let (vs, s) ← scanInts n s
    some (v :: vs, s)

section signed
variable {rest : List Char} {c : Char} {n : ℕ}

theorem readDigits_toDigits (n : ℕ) (hstop : Stops (isDigit 10) rest) :
    readDigits (Nat.toDigits 10 n ++ rest) = some (n, rest) := by
  have hrun : ∀ c ∈ Nat.toDigits 10 n, isDigit 10 c = true := by
    intro c hc
    obtain ⟨k, hk, rfl⟩ := exists_digit_of_mem (by decide) hc
    exact isDigit_digitChar (by decide) hk
  rw [readDigits, span_run hrun hstop]
  simp [valueOf_toDigits]

/-- The text of a number begins with a digit. -/
theorem exists_digit_cons (n : ℕ) : ∃ d < 10, ∃ ds, Nat.toDigits 10 n = Nat.digitChar d :: ds := by
  cases hds : Nat.toDigits 10 n with
  | nil => exact absurd hds Nat.toDigits_ne_nil
  | cons c ds =>
    obtain ⟨d, hd, rfl⟩ := exists_digit_of_mem (b := 10) (n := n) (by decide) (hds ▸ List.mem_cons_self)
    exact ⟨d, hd, ds, rfl⟩

/-- A printed integer is read back. -/
theorem scanInt_intText (v : ℤ) (hstop : Stops (isDigit 10) rest) : scanInt (intText v ++ rest) = some (v, rest) := by
  have hread := readDigits_toDigits v.natAbs hstop
  by_cases hneg : v < 0
  · have hfront : ('-' :: Nat.toDigits 10 v.natAbs ++ rest).dropWhile isSpace = '-' :: (Nat.toDigits 10 v.natAbs ++ rest) :=
      rfl
    rw [intText, if_pos hneg, scanInt, hfront, if_pos List.head?_cons, List.tail_cons, hread, Option.map_some]
    simp only [Option.some.injEq, Prod.mk.injEq, and_true]
    omega
  · obtain ⟨d, hd, ds, hds⟩ := exists_digit_cons v.natAbs
    have hfront : (Nat.toDigits 10 v.natAbs ++ rest).dropWhile isSpace = Nat.toDigits 10 v.natAbs ++ rest := by
      rw [hds, List.cons_append, List.dropWhile_cons_of_neg (by simp [isSpace_digitChar (show d < 16 by omega)])]
    have hhead : (Nat.toDigits 10 v.natAbs ++ rest).head? = some (Nat.digitChar d) := by
      rw [hds, List.cons_append, List.head?_cons]
    rw [intText, if_neg hneg, scanInt, hfront, hhead, if_neg (by simp), if_neg (by simp), hread, Option.map_some]
    simp only [Option.some.injEq, Prod.mk.injEq, and_true]
    omega

theorem scanInt_space (h : isSpace c = true) (s : List Char) : scanInt (c :: s) = scanInt s := by
  rw [scanInt, List.dropWhile_cons_of_pos h, scanInt]

theorem scanInts_space (h : isSpace c = true) (n : ℕ) (s : List Char) : scanInts (n + 1) (c :: s) = scanInts (n + 1) s := by
  rw [scanInts, scanInt_space h, scanInts]

theorem intText_natCast (n : ℕ) : intText n = Nat.toDigits 10 n := by
  rw [intText, if_neg (by omega), Int.natAbs_natCast]

theorem intText_ne_nil (v : ℤ) : intText v ≠ [] := by
  unfold intText
  split
  · exact List.cons_ne_nil _ _
  · exact Nat.toDigits_ne_nil

theorem isSpace_intText {v : ℤ} (hc : c ∈ intText v) : isSpace c = false := by
  unfold intText at hc
  split at hc
  · rcases List.mem_cons.mp hc with rfl | hc
    · rfl
    · exact isSpace_toDigits (by decide) (by decide) hc
  · exact isSpace_toDigits (by decide) (by decide) hc

end signed

/-! ## Words -/

/-- `" ".join(ws)` -/
def unwords (ws : List (List Char)) : List Char := [' '].intercalate ws

/-- `.split()` -/
def words (s : List Char) : List (List Char) := (s.splitOnP isSpace).filter fun w => !w.isEmpty

section words
variable {w s : List Char} {ws : List (List Char)} {c : Char}

theorem words_cons (hne : w ≠ []) (hspace : ∀ c ∈ w, isSpace c = false) (hc : isSpace c = true) (s : List Char) :
    words (w ++ c :: s) = w :: words s := by
  rw [words, List.splitOnP_append_cons_of_forall_mem hspace c hc, List.filter_cons_of_pos (by simpa using hne), words]

/-- Words in a line are read back. -/
theorem words_unwords (hws : ∀ w ∈ ws, w ≠ [] ∧ ∀ c ∈ w, isSpace c = false) (hc : isSpace c = true) :
    words (unwords ws ++ [c]) = ws := by
  have hnil : words [] = [] := rfl
  induction ws with
  | nil =>
    have hblank : ([] ++ c :: []).splitOnP isSpace = [] :: [].splitOnP isSpace :=
      List.splitOnP_append_cons_of_forall_mem (by simp) c hc []
    rw [unwords, List.intercalate_nil, words, hblank]
    rfl
  | cons w ws ih =>
    obtain ⟨hne, hspace⟩ := hws w List.mem_cons_self
    have ih := ih fun v hv => hws v (List.mem_cons_of_mem w hv)
    cases ws with
    | nil => rw [unwords, List.intercalate_singleton, words_cons hne hspace hc, hnil]
    | cons v ws =>
      have hline : unwords (w :: v :: ws) ++ [c] = w ++ ' ' :: (unwords (v :: ws) ++ [c]) := by
        rw [unwords, List.intercalate_cons_cons]
        simp [unwords]
      rw [hline, words_cons hne hspace (by decide), ih]

/-- Integers in a line are read back. -/
theorem scanInts_unwords (vs : List ℤ) (hc : isSpace c = true) :
    scanInts vs.length (unwords (vs.map intText) ++ [c]) = some (vs, [c]) := by
  induction vs with
  | nil => rfl
  | cons v vs ih =>
    cases vs with
    | nil =>
      rw [List.map_singleton, unwords, List.intercalate_singleton, List.length_singleton, scanInts,
        scanInt_intText v (stops_digit hc)]
      rfl
    | cons u us =>
      have hline : unwords ((v :: u :: us).map intText) ++ [c] =
          intText v ++ ' ' :: (unwords ((u :: us).map intText) ++ [c]) := by
        rw [List.map_cons, List.map_cons, unwords, List.intercalate_cons_cons]
        simp [unwords]
      rw [hline, List.length_cons, scanInts, scanInt_intText v (stops_digit (by decide))]
      simp only [Option.bind_eq_bind, Option.bind_some]
      rw [List.length_cons, scanInts_space (by decide), ← List.length_cons, ih]
      rfl

end words

/-! ## Bytes -/

/-- `%02x` -/
def hexByte (x : BitVec 8) : List Char := [Nat.digitChar (x.toNat / 16), Nat.digitChar (x.toNat % 16)]

/-- `%2x` on each pair of `n` pairs of digits. -/
def readBytes : ℕ → List Char → List (BitVec 8)
  | 0, _ => []
  | n + 1, s => BitVec.ofNat 8 (valueOf 16 (s.take 2)) :: readBytes n (s.drop 2)

theorem valueOf_hexByte (x : BitVec 8) : BitVec.ofNat 8 (valueOf 16 (hexByte x)) = x := by
  have hx := x.isLt
  have hval : valueOf 16 (hexByte x) = x.toNat := by
    simp only [valueOf, hexByte, List.foldl_cons, List.foldl_nil, (digitChar_spec _ (show x.toNat / 16 < 16 by omega)).1,
      (digitChar_spec _ (show x.toNat % 16 < 16 by omega)).1, Option.getD_some]
    omega
  rw [hval, BitVec.ofNat_toNat, BitVec.setWidth_eq]

theorem readBytes_hexByte (xs : List (BitVec 8)) (rest : List Char) :
    readBytes xs.length (xs.flatMap hexByte ++ rest) = xs := by
  induction xs with
  | nil => rfl
  | cons x xs ih =>
    rw [List.length_cons, readBytes, List.flatMap_cons, List.append_assoc]
    have hpair : ∀ t, (hexByte x ++ t).take 2 = hexByte x ∧ (hexByte x ++ t).drop 2 = t := fun _ => ⟨rfl, rfl⟩
    rw [(hpair _).1, (hpair _).2, valueOf_hexByte, ih]

theorem readBytes_flatMap (xs : List (BitVec 8)) : readBytes xs.length (xs.flatMap hexByte) = xs := by
  have h := readBytes_hexByte xs []
  rwa [List.append_nil] at h

/-- Printed bytes consist of hexadecimal digits. -/
theorem exists_digit_of_mem_hexByte {xs : List (BitVec 8)} {c : Char} (hc : c ∈ xs.flatMap hexByte) :
    ∃ d < 16, c = Nat.digitChar d := by
  obtain ⟨x, -, hx⟩ := List.mem_flatMap.mp hc
  have hlt := x.isLt
  rcases List.mem_cons.mp hx with rfl | hlow
  · exact ⟨_, by omega, rfl⟩
  · exact ⟨_, by omega, List.mem_singleton.mp hlow⟩

theorem isSpace_hexByte {xs : List (BitVec 8)} {c : Char} (hc : c ∈ xs.flatMap hexByte) : isSpace c = false := by
  obtain ⟨d, hd, rfl⟩ := exists_digit_of_mem_hexByte hc
  exact isSpace_digitChar hd

theorem isDigit_hexByte {xs : List (BitVec 8)} {c : Char} (hc : c ∈ xs.flatMap hexByte) :
    isDigit 16 c = true := by
  obtain ⟨d, hd, rfl⟩ := exists_digit_of_mem_hexByte hc
  exact isDigit_digitChar le_rfl hd

theorem length_hexByte (xs : List (BitVec 8)) : (xs.flatMap hexByte).length = 2 * xs.length := by
  induction xs with
  | nil => rfl
  | cons x xs ih =>
    rw [List.flatMap_cons, List.length_append, ih]
    simp [hexByte]
    omega

end Digits
