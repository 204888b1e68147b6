import Mathlib.Data.List.DropRight
import TensorAccel.Framework.Digits

/-! # The line protocol of the runner

    `sched/coproc_backend.py` sends one request a line to the process of
    `sched/coproc_runner.cpp` and reads one line back.  Both sides of the text are
    here: the f-strings and readers of the client, and the `sscanf` and `printf`
    calls of the server.

    A request that leaves a variable of the server unset, or overruns one of its
    two buffers, is `none`.  The client prints no sign and no `0x` before a number;
    that `sscanf` takes them too is left out. -/

open Digits

namespace CoprocRunner

/-! ## Requests -/

/-- `u_ram_rd` or `u_ram_wr`. -/
inductive Region where
  | rd
  | wr
  deriving DecidableEq, Repr

inductive Request where
  | regw (addr val : BitVec 64)
  | regr (addr : BitVec 64)
  | memw (which : Region) (addr : BitVec 32) (data : List (BitVec 8))
  | memr (which : Region) (addr : BitVec 32) (n : ℕ)
  | tick (n : ℕ)
  | irq
  | cyc
  | beats
  | stall (rdMask wrMask : BitVec 4)
  deriving DecidableEq

def hex (n : ℕ) : List Char := Nat.toDigits 16 n

def dec (n : ℕ) : List Char := Nat.toDigits 10 n

def Region.name : Region → List Char
  | .rd => ['R', 'D']
  | .wr => ['W', 'R']

/-- The first word of a line. -/
def Request.keyword : Request → List Char
  | .regw _ _ => ['R', 'E', 'G', 'W']
  | .regr _ => ['R', 'E', 'G', 'R']
  | .memw _ _ _ => ['M', 'E', 'M', 'W']
  | .memr _ _ _ => ['M', 'E', 'M', 'R']
  | .tick _ => ['T', 'I', 'C', 'K']
  | .irq => ['I', 'R', 'Q']
  | .cyc => ['C', 'Y', 'C']
  | .beats => ['B', 'E', 'A', 'T', 'S']
  | .stall _ _ => ['S', 'T', 'A', 'L', 'L']

/-- What follows it. -/
def Request.operands : Request → List Char
  | .regw addr val => ' ' :: (hex addr.toNat ++ ' ' :: hex val.toNat)
  | .regr addr => ' ' :: hex addr.toNat
  | .memw which addr data =>
    ' ' :: (which.name ++ ' ' :: (hex addr.toNat ++ ' ' :: (dec data.length ++ ' ' :: data.flatMap hexByte)))
  | .memr which addr n => ' ' :: (which.name ++ ' ' :: (hex addr.toNat ++ ' ' :: dec n))
  | .tick n => ' ' :: dec n
  | .irq => []
  | .cyc => []
  | .beats => []
  | .stall rdMask wrMask => ' ' :: (hex rdMask.toNat ++ ' ' :: hex wrMask.toNat)

/-- The line that the client writes, without its newline. -/
def Request.line (q : Request) : List Char := q.keyword ++ q.operands

/-- `%llx`: larger numbers are `ULLONG_MAX`. -/
def ull (n : ℕ) : BitVec 64 := BitVec.ofNat 64 (min n (2 ^ 64 - 1))

/-- `%x`, read as a long and cut. -/
def uint (n : ℕ) : BitVec 32 := (ull n).setWidth 32

/-- `%3s` -/
def scanWhich (s : List Char) : Region × List Char :=
  let (w, rest) := scanWord s
  (if w.take 3 = ['R', 'D'] then .rd else .wr, w.drop 3 ++ rest)

/-- A stall mask of 4 bits. -/
def mask (n : ℕ) : Option (BitVec 4) := if n < 16 then some (BitVec.ofNat 4 n) else none

/-- An `int` that is not negative. -/
def count (n : ℕ) : Option ℕ := if n < 2 ^ 31 then some n else none

/-- The `sscanf` call for the word `cmd`, one for each kind of request. -/
def scanRequest (cmd line : List Char) : Option Request := do
  if cmd = ['R', 'E', 'G', 'W'] then
    let s ← scanLit cmd line
    let (addr, s) ← scanNat 16 s
    let (val, _) ← scanNat 16 s
    some (.regw (ull addr) (ull val))
  else if cmd = ['R', 'E', 'G', 'R'] then
    let s ← scanLit cmd line
    let (addr, _) ← scanNat 16 s
    some (.regr (ull addr))
  else if cmd = ['M', 'E', 'M', 'W'] then
    let s ← scanLit cmd line
    let (which, s) := scanWhich s
    let (addr, s) ← scanNat 16 s
    let (n, s) ← scanNat 10 s
    let n ← count n
    let (digits, _) := scanWord s
    -- `hex` holds 2 ^ 19 characters, its end mark among them
    if 2 * n ≤ digits.length ∧ digits.length < 2 ^ 19 then
      some (.memw which (uint addr) (readBytes n digits))
    else none
  else if cmd = ['M', 'E', 'M', 'R'] then
    let s ← scanLit cmd line
    let (which, s) := scanWhich s
    let (addr, s) ← scanNat 16 s
    let (n, _) ← scanNat 10 s
    let n ← count n
    some (.memr which (uint addr) n)
  else if cmd = ['T', 'I', 'C', 'K'] then
    let s ← scanLit cmd line
    let (n, _) ← scanNat 10 s
    let n ← count n
    some (.tick n)
  else if cmd = ['I', 'R', 'Q'] then some .irq
  else if cmd = ['C', 'Y', 'C'] then some .cyc
  else if cmd = ['B', 'E', 'A', 'T', 'S'] then some .beats
  else if cmd = ['S', 'T', 'A', 'L', 'L'] then
    let s ← scanLit cmd line
    let (rd, s) ← scanNat 16 s
    let (wr, _) ← scanNat 16 s
    let rd ← mask rd
    let wr ← mask wr
    some (.stall rd wr)
  else none

/-- A line as `fgets` delivers it, at most `2 ^ 20 - 1` characters. -/
def parse (line : List Char) : Option Request :=
  if line.length < 2 ^ 20 then scanRequest ((scanWord line).1.take 15) line else none

/-! ## Replies -/

inductive Reply where
  | ok
  | word (v : BitVec 64)
  | data (bytes : List (BitVec 8))
  | flag (b : Bool)
  | cycles (n : BitVec 64)
  | beats (rd wr : BitVec 32)
  deriving DecidableEq

/-- The line that the server prints, without its newline. -/
def Reply.line : Reply → List Char
  | .ok => ['O', 'K']
  | .word v => hex v.toNat
  | .data bytes => bytes.flatMap hexByte
  | .flag b => dec b.toNat
  | .cycles n => dec n.toNat
  | .beats rd wr => dec rd.toNat ++ ' ' :: dec wr.toNat

/-- `.strip()` -/
def strip (s : List Char) : List Char := (s.dropWhile isSpace).rdropWhile isSpace

/-- `int(s, 16)` and `int(s)` -/
def toInt (b : ℕ) (s : List Char) : Option ℕ :=
  if s ≠ [] ∧ s.all (isDigit b) then some (valueOf b s) else none

/-- `bytes.fromhex` -/
def fromHex (s : List Char) : Option (List (BitVec 8)) :=
  if s.length % 2 = 0 ∧ s.all (isDigit 16) then some (readBytes (s.length / 2) s) else none

/-- `rd, wr = s.split()`, as integers. -/
def toPair (s : List Char) : Option (ℕ × ℕ) := do
  let (first, s) := scanWord s
  let (second, s) := scanWord s
  if (s.dropWhile isSpace).isEmpty then
    let rd ← toInt 10 first
    let wr ← toInt 10 second
    some (rd, wr)
  else none

/-! ## The server reads what the client sent -/

/-- The numbers of the request fit its variables, and its text the buffers. -/
def Request.Short : Request → Prop
  | .memw _ _ data => data.length < 2 ^ 18
  | .memr _ _ n => n < 2 ^ 31
  | .tick n => n < 2 ^ 31
  | _ => True

section requests
variable {rest : List Char} {n : ℕ}

theorem scanHex (n : ℕ) (h : Stops (isDigit 16) rest) :
    scanNat 16 (' ' :: (hex n ++ rest)) = some (n, rest) :=
  scanNat_toDigits (by decide) (by decide) (by decide) n h

theorem scanDec (n : ℕ) (h : Stops (isDigit 10) rest) :
    scanNat 10 (' ' :: (dec n ++ rest)) = some (n, rest) :=
  scanNat_toDigits (by decide) (by decide) (by decide) n h

theorem name_ne_nil (which : Region) : which.name ≠ [] := by
  cases which <;> exact List.cons_ne_nil _ _

theorem isSpace_name {which : Region} {c : Char} (hc : c ∈ which.name) : isSpace c = false := by
  have hall : which.name.all (fun d => !isSpace d) = true := by
    cases which <;> rfl
  simpa using List.all_eq_true.mp hall c hc

theorem scanWhich_name (which : Region) (h : Stops (fun c => !isSpace c) rest) :
    scanWhich (' ' :: (which.name ++ rest)) = (which, rest) := by
  have hword : scanWord (' ' :: (which.name ++ rest)) = (which.name, rest) := by
    rw [scanWord, scanRun_space _ (by decide)]
    exact scanWord_run (name_ne_nil which) (fun c hc => isSpace_name hc) h
  rw [scanWhich, hword]
  cases which <;> rfl

theorem ull_toNat (v : BitVec 64) : ull v.toNat = v := by
  have hv := v.isLt
  rw [ull, Nat.min_eq_left (by omega), BitVec.ofNat_toNat, BitVec.setWidth_eq]

theorem uint_toNat (v : BitVec 32) : uint v.toNat = v := by
  have hv := v.isLt
  rw [uint, ull, Nat.min_eq_left (by omega)]
  apply BitVec.eq_of_toNat_eq
  rw [BitVec.toNat_setWidth, BitVec.toNat_ofNat]
  omega

theorem count_eq {n : ℕ} (h : n < 2 ^ 31) : count n = some n := if_pos h

theorem mask_toNat (v : BitVec 4) : mask v.toNat = some v := by
  rw [mask, if_pos v.isLt, BitVec.ofNat_toNat, BitVec.setWidth_eq]

/-- The first word of a line is its keyword. -/
theorem scanWord_line (q : Request) :
    ((scanWord (q.line ++ ['\n'])).1.take 15, scanLit q.keyword (q.line ++ ['\n'])) =
      (q.keyword, some (q.operands ++ ['\n'])) := by
  have hstop : Stops (fun c => !isSpace c) (q.operands ++ ['\n']) := by
    cases q <;> exact stops_space (by decide)
  rw [Request.line, List.append_assoc, scanLit_run, scanWord_run ?_ ?_ hstop]
  · cases q <;> rfl
  · cases q <;> simp [Request.keyword]
  · intro c hc
    have hall : q.keyword.all (fun d => !isSpace d) = true := by
      cases q <;> rfl
    simpa using List.all_eq_true.mp hall c hc

theorem length_hex (v : BitVec n) (hn : n ≤ 64) : (hex v.toNat).length ≤ 16 := by
  have hwide : 2 ^ n ≤ 2 ^ 64 := Nat.pow_le_pow_right (by decide) hn
  exact (Nat.length_toDigits_le_iff (by decide) (by decide)).mpr (v.isLt.trans_le hwide)

theorem length_dec (h : n < 2 ^ 31) : (dec n).length ≤ 10 :=
  (Nat.length_toDigits_le_iff (by decide) (by decide)).mpr (h.trans (by decide))

/-- Then its line fits the buffer of `fgets`. -/
theorem Request.Short.length_line {q : Request} (h : q.Short) : q.line.length + 1 < 2 ^ 20 := by
  have hname : ∀ which : Region, which.name.length = 2 := by
    intro which
    cases which <;> rfl
  cases q with
  | regw addr val =>
    have h1 := length_hex addr le_rfl
    have h2 := length_hex val le_rfl
    simp only [Request.line, Request.keyword, Request.operands, List.length_append, List.length_cons, List.length_nil]
    omega
  | regr addr =>
    have h1 := length_hex addr le_rfl
    simp only [Request.line, Request.keyword, Request.operands, List.length_append, List.length_cons, List.length_nil]
    omega
  | memw which addr data =>
    have hdata : data.length < 2 ^ 18 := h
    have h1 := length_hex addr (by decide)
    have h2 := length_dec (hdata.trans (by decide))
    simp only [Request.line, Request.keyword, Request.operands, List.length_append, List.length_cons, List.length_nil,
      length_hexByte, hname]
    omega
  | memr which addr n =>
    have h1 := length_hex addr (by decide)
    have h2 := length_dec h
    simp only [Request.line, Request.keyword, Request.operands, List.length_append, List.length_cons, List.length_nil,
      hname]
    omega
  | tick n =>
    have h1 := length_dec h
    simp only [Request.line, Request.keyword, Request.operands, List.length_append, List.length_cons, List.length_nil]
    omega
  | stall rdMask wrMask =>
    have h1 := length_hex rdMask (by decide)
    have h2 := length_hex wrMask (by decide)
    simp only [Request.line, Request.keyword, Request.operands, List.length_append, List.length_cons, List.length_nil]
    omega
  | _ => decide

/-- Every request arrives. -/
theorem parse_line (q : Request) (h : q.Short) : parse (q.line ++ ['\n']) = some q := by
  have hlen := h.length_line
  obtain ⟨hword, hlit⟩ := Prod.mk.inj (scanWord_line q)
  have hspace : ∀ b s, Stops (isDigit b) (' ' :: s) := fun b s => stops_digit (by decide)
  have hblank : ∀ s, Stops (fun c => !isSpace c) (' ' :: s) := fun s => stops_space (by decide)
  have hend : ∀ b, Stops (isDigit b) ['\n'] := fun b => stops_digit (by decide)
  rw [parse, if_pos (by simpa using hlen), hword]
  cases q with
  | regw addr val =>
    simp only [Request.keyword] at hlit
    simp only [scanRequest, Request.keyword, if_true, hlit, Request.operands]
    simp [scanHex, hspace, hend, ull_toNat]
  | regr addr =>
    simp only [Request.keyword] at hlit
    simp only [scanRequest, Request.keyword, hlit, Request.operands]
    simp [scanHex, hend, ull_toNat]
  | memw which addr data =>
    have hdata : 2 * data.length < 2 ^ 19 := by
      have hsmall : data.length < 2 ^ 18 := h
      omega
    have hint : data.length < 2 ^ 31 := by omega
    have hdigits : (scanWord (' ' :: (data.flatMap hexByte ++ ['\n']))).1 = data.flatMap hexByte := by
      rw [scanWord, scanRun_space _ (by decide), ← scanWord]
      rcases List.eq_nil_or_concat data with rfl | ⟨front, last, rfl⟩
      · decide
      · rw [scanWord_run (by simp [hexByte]) (fun c hc => isSpace_hexByte hc) (stops_space (by decide))]
    simp only [Request.keyword] at hlit
    simp only [scanRequest, Request.keyword, hlit, Request.operands]
    simp [scanWhich_name, scanHex, scanDec, hspace, hblank, uint_toNat, count_eq hint, hdigits, length_hexByte,
      readBytes_flatMap, -List.length_flatMap]
    omega
  | memr which addr n =>
    have hint : n < 2 ^ 31 := h
    simp only [Request.keyword] at hlit
    simp only [scanRequest, Request.keyword, hlit, Request.operands]
    simp [scanWhich_name, scanHex, scanDec, hspace, hblank, hend, uint_toNat, count_eq hint]
  | tick n =>
    have hint : n < 2 ^ 31 := h
    simp only [Request.keyword] at hlit
    simp only [scanRequest, Request.keyword, hlit, Request.operands]
    simp [scanDec, hend, count_eq hint]
  | irq => rfl
  | cyc => rfl
  | beats => rfl
  | stall rdMask wrMask =>
    simp only [Request.keyword] at hlit
    simp only [scanRequest, Request.keyword, hlit, Request.operands]
    simp [scanHex, hspace, hend, mask_toNat]

end requests

/-! ## The client reads what the server printed -/

section replies
variable {w : List Char} {c : Char} {b n : ℕ}

/-- Only the newline is stripped. -/
theorem strip_line (hhead : ∀ c ∈ w.head?, isSpace c = false) (hlast : ∀ c ∈ w.getLast?, isSpace c = false) :
    strip (w ++ ['\n']) = w := by
  cases w with
  | nil => rfl
  | cons c w =>
    have hc : isSpace c = false := hhead c rfl
    have hskip : (c :: w ++ ['\n']).dropWhile isSpace = c :: w ++ ['\n'] := by simp [hc]
    rw [strip, hskip, List.rdropWhile_concat_pos _ _ _ (by decide), List.rdropWhile_eq_self_iff]
    intro hne
    rw [hlast _ (List.getLast?_eq_some_getLast hne)]
    decide

theorem strip_word (h : ∀ c ∈ w, isSpace c = false) : strip (w ++ ['\n']) = w :=
  strip_line (fun c hc => h c (List.mem_of_mem_head? hc)) fun c hc => h c (List.mem_of_mem_getLast? hc)

theorem isSpace_dec (hc : c ∈ dec n) : isSpace c = false := isSpace_toDigits (by decide) (by decide) hc

theorem toInt_toDigits (hb : 1 < b) (hb' : b ≤ 16) (n : ℕ) : toInt b (Nat.toDigits b n) = some n := by
  have hall : (Nat.toDigits b n).all (isDigit b) = true := by
    rw [List.all_eq_true]
    intro c hc
    obtain ⟨d, hd, rfl⟩ := exists_digit_of_mem hb hc
    exact isDigit_digitChar hb' hd
  rw [toInt, if_pos ⟨Nat.toDigits_ne_nil, hall⟩, valueOf_toDigits hb hb']

theorem toInt_word (v : BitVec 64) : toInt 16 (strip ((Reply.word v).line ++ ['\n'])) = some v.toNat := by
  have hstrip : strip ((Reply.word v).line ++ ['\n']) = hex v.toNat :=
    strip_word fun c hc => isSpace_toDigits (by decide) (by decide) hc
  rw [hstrip, hex, toInt_toDigits (by decide) (by decide)]

theorem toInt_cycles (n : BitVec 64) : toInt 10 (strip ((Reply.cycles n).line ++ ['\n'])) = some n.toNat := by
  have hstrip : strip ((Reply.cycles n).line ++ ['\n']) = dec n.toNat := strip_word fun c hc => isSpace_dec hc
  rw [hstrip, dec, toInt_toDigits (by decide) (by decide)]

theorem fromHex_data (bytes : List (BitVec 8)) :
    fromHex (strip ((Reply.data bytes).line ++ ['\n'])) = some bytes := by
  have hstrip : strip ((Reply.data bytes).line ++ ['\n']) = bytes.flatMap hexByte :=
    strip_word fun c hc => isSpace_hexByte hc
  have hall : (bytes.flatMap hexByte).all (isDigit 16) = true := by
    rw [List.all_eq_true]
    intro c hc
    exact isDigit_hexByte hc
  have hlen := length_hexByte bytes
  have heven : (bytes.flatMap hexByte).length % 2 = 0 := by omega
  have hhalf : (bytes.flatMap hexByte).length / 2 = bytes.length := by omega
  rw [hstrip, fromHex, if_pos ⟨heven, hall⟩, hhalf, readBytes_flatMap]

theorem toPair_beats (rd wr : BitVec 32) :
    toPair (strip ((Reply.beats rd wr).line ++ ['\n'])) = some (rd.toNat, wr.toNat) := by
  have hstrip : strip ((Reply.beats rd wr).line ++ ['\n']) = (Reply.beats rd wr).line := by
    apply strip_line
    · intro c hc
      have hne : dec rd.toNat ≠ [] := Nat.toDigits_ne_nil
      rw [Reply.line, List.head?_append_of_ne_nil _ hne] at hc
      exact isSpace_dec (List.mem_of_mem_head? hc)
    · intro c hc
      have hne : dec wr.toNat ≠ [] := Nat.toDigits_ne_nil
      rw [Reply.line, List.append_cons, List.getLast?_append_of_ne_nil _ hne] at hc
      exact isSpace_dec (List.mem_of_mem_getLast? hc)
  have hfirst : scanWord (Reply.beats rd wr).line = (dec rd.toNat, ' ' :: dec wr.toNat) :=
    scanWord_run Nat.toDigits_ne_nil (fun c hc => isSpace_dec hc) (stops_space (by decide))
  have hsecond : scanWord (' ' :: dec wr.toNat) = (dec wr.toNat, []) := by
    have hrun : scanWord (dec wr.toNat ++ []) = (dec wr.toNat, []) :=
      scanWord_run Nat.toDigits_ne_nil (fun c hc => isSpace_dec hc) (stops_nil _)
    rw [List.append_nil] at hrun
    rw [scanWord, scanRun_space _ (by decide), ← scanWord, hrun]
  rw [hstrip, toPair, hfirst]
  simp only [hsecond]
  simp [dec, toInt_toDigits]

end replies

/-- **The line protocol loses nothing.**  The server parses every request that fits its
buffers from the line that the client prints, and the client reads from the reply the
numbers and bytes that the server printed. -/
theorem line_protocol_round_trip :
    (∀ q : Request, q.Short → parse (q.line ++ ['\n']) = some q) ∧
      (∀ v, toInt 16 (strip ((Reply.word v).line ++ ['\n'])) = some v.toNat) ∧
      (∀ bytes, fromHex (strip ((Reply.data bytes).line ++ ['\n'])) = some bytes) ∧
      (∀ n, toInt 10 (strip ((Reply.cycles n).line ++ ['\n'])) = some n.toNat) ∧
      ∀ rd wr, toPair (strip ((Reply.beats rd wr).line ++ ['\n'])) = some (rd.toNat, wr.toNat) :=
  ⟨parse_line, toInt_word, fromHex_data, toInt_cycles, toPair_beats⟩

/-- Two bytes for word 4 of `u_ram_rd`. -/
theorem line_protocol_round_trip_demo :
    parse (['M', 'E', 'M', 'W', ' ', 'R', 'D', ' ', '1', '0', ' ', '2', ' ', '7', 'f', '0', '1'] ++ ['\n']) =
      some (.memw .rd 16 [0x7F, 1]) := by
  have hline : (Request.memw .rd 16 [0x7F, 1]).line =
      ['M', 'E', 'M', 'W', ' ', 'R', 'D', ' ', '1', '0', ' ', '2', ' ', '7', 'f', '0', '1'] := by decide
  rw [← hline]
  exact line_protocol_round_trip.1 _ (by decide : 2 < 2 ^ 18)

end CoprocRunner
