import CoeleoOs.Lib.Checked
import CoeleoOs.Sh.Cat

/-!
# What the text commands write

The commands of the shell that print a file ignore what `write` returns. Their output is
kept as the buffers that they hand to it, the codes of a colour apart from the text.
-/

namespace CoeleoOs.Sh
open CoeleoOs.Lib CoeleoOs.Lib.Text CoeleoOs.Fs
open CoeleoOs.Lib.Checked (usizeMax)
open CoeleoOs.Task (Bytes)

inductive Piece
  | text (b : Bytes)
  | colour (b : Bytes)
  deriving DecidableEq

def Piece.bytes : Piece → Bytes
  | .text b | .colour b => b

def Piece.plain : Piece → Bytes
  | .text b => b
  | .colour _ => []

@[simp] theorem Piece.plain_text (b : Bytes) : (Piece.text b).plain = b := rfl

@[simp] theorem Piece.plain_colour (b : Bytes) : (Piece.colour b).plain = [] := rfl

@[simp] theorem Piece.bytes_text (b : Bytes) : (Piece.text b).bytes = b := rfl

-- `\x1b[1;31m`, `\x1b[32m`, `\x1b[90m` and `\x1b[0m`
def red : Piece := .colour [0x1B, 0x5B, 0x31, 0x3B, 0x33, 0x31, 0x6D]
def green : Piece := .colour [0x1B, 0x5B, 0x33, 0x32, 0x6D]
def grey : Piece := .colour [0x1B, 0x5B, 0x39, 0x30, 0x6D]
def normal : Piece := .colour [0x1B, 0x5B, 0x30, 0x6D]

def lit (s : String) : Piece := .text (utf8 s.toList)

variable {φ η : Type}

structure Written (φ : Type) where
  files : Files φ
  out : List Piece

namespace Written

def put (s : Written φ) (ps : List Piece) : Written φ := { s with out := s.out ++ ps }

def withFiles (s : Written φ) (files : Files φ) : Written φ := { s with files := files }

def bytes (s : Written φ) : Bytes := s.out.flatMap Piece.bytes

def plain (s : Written φ) : Bytes := s.out.flatMap Piece.plain

@[simp] theorem put_files (s : Written φ) (ps : List Piece) : (s.put ps).files = s.files := rfl

@[simp] theorem put_bytes (s : Written φ) (ps : List Piece) :
    (s.put ps).bytes = s.bytes ++ ps.flatMap Piece.bytes :=
  List.flatMap_append

@[simp] theorem put_plain (s : Written φ) (ps : List Piece) :
    (s.put ps).plain = s.plain ++ ps.flatMap Piece.plain :=
  List.flatMap_append

end Written

def errMsg (cmd msg : String) : List Piece :=
  [red, lit "error:", normal, lit " ", lit cmd, lit ": ", lit msg, lit "\n"]

def errTarget (cmd : String) (target : List Char) (msg : String) : List Piece :=
  [red, lit "error:", normal, lit " ", lit cmd, lit ": '", .text (utf8 target), lit "': ",
    lit msg, lit "\n"]

def usage (cmd line : String) : List Piece :=
  [grey, lit "usage: ", lit cmd, lit " ", lit line, normal, lit "\n"]

def parseUsizeFrom : ℕ → Bytes → Option ℕ
  | val, [] => some val
  | val, b :: bs =>
    if 0x30 ≤ b ∧ b ≤ 0x39 then
      parseUsizeFrom (min (min (val * 10) usizeMax + (b - 0x30).toNat) usizeMax) bs
    else none

def parseUsize (s : Bytes) : Option ℕ := parseUsizeFrom 0 s

def printDigits : ℕ → ℕ → Bytes → Bytes
  | 0, _, digits => digits
  | i + 1, x, digits =>
    if x = 0 then digits else printDigits i (x / 10) ((0x30 + UInt8.ofNat (x % 10)) :: digits)

def printNum (n : ℕ) : Bytes := if n = 0 then [0x30] else printDigits 20 n []

theorem parseUsizeFrom_digit {val d : ℕ} (hd : d < 10) (hval : val * 10 + d < 2 ^ 64) (bs : Bytes) :
    parseUsizeFrom val ((0x30 + UInt8.ofNat d) :: bs) = parseUsizeFrom (val * 10 + d) bs := by
  have hdigit : ∀ e < 10, 0x30 ≤ 0x30 + UInt8.ofNat e ∧ 0x30 + UInt8.ofNat e ≤ 0x39 ∧
      (0x30 + UInt8.ofNat e - 0x30).toNat = e := by
    decide
  obtain ⟨hlow, hhigh, hvalue⟩ := hdigit d hd
  have hmax : usizeMax = 2 ^ 64 - 1 := rfl
  rw [parseUsizeFrom, if_pos ⟨hlow, hhigh⟩, hvalue, Nat.min_eq_left (by omega),
    Nat.min_eq_left (by omega)]

theorem parse_printDigits (i x : ℕ) (digits : Bytes) (hx : x < 10 ^ i) (hlt : x < 2 ^ 64) :
    parseUsizeFrom 0 (printDigits i x digits) = parseUsizeFrom x digits := by
  induction i generalizing x digits with
  | zero =>
    obtain rfl : x = 0 := by simpa using hx
    rfl
  | succ i ih =>
    rw [printDigits]
    split
    · next hzero => rw [hzero]
    · have hdiv : x / 10 * 10 + x % 10 = x := by omega
      have hpow : 10 ^ (i + 1) = 10 ^ i * 10 := pow_succ 10 i
      rw [ih _ _ (by omega) (by omega), parseUsizeFrom_digit (Nat.mod_lt _ (by decide)) (by omega),
        hdiv]

theorem parse_printNum {n : ℕ} (h : n < 2 ^ 64) : parseUsize (printNum n) = some n := by
  rw [parseUsize, printNum]
  split
  · next hzero =>
    subst hzero
    rfl
  · rw [parse_printDigits 20 n [] (h.trans (by decide)) h]
    rfl

theorem mem_printDigits {i x : ℕ} {digits : Bytes} {b : UInt8} (h : b ∈ printDigits i x digits) :
    b ∈ digits ∨ 0x30 ≤ b ∧ b ≤ 0x39 := by
  induction i generalizing x digits with
  | zero => exact .inl h
  | succ i ih =>
    rw [printDigits] at h
    split at h
    · exact .inl h
    · rcases ih h with hmem | hdigit
      · rcases List.mem_cons.mp hmem with rfl | hmem
        · have hdigit : ∀ d < 10, 0x30 ≤ 0x30 + UInt8.ofNat d ∧ 0x30 + UInt8.ofNat d ≤ 0x39 := by
            decide
          exact .inr (hdigit _ (Nat.mod_lt _ (by decide)))
        · exact .inl hmem
      · exact .inr hdigit

theorem mem_printNum {n : ℕ} {b : UInt8} (h : b ∈ printNum n) : 0x30 ≤ b ∧ b ≤ 0x39 := by
  rw [printNum] at h
  split at h
  · rw [List.mem_singleton.mp h]
    decide
  · exact (mem_printDigits h).resolve_left List.not_mem_nil

def textFile (b : Bytes) : Files (Bytes → Option Bytes) :=
  ⟨⟨some (fun name => if name = [0x61] then some b else none), [slash]⟩, .newStdio⟩

section Opened

variable {fat : FatIo φ η} (spec : FatSpec fat) {s s₁ s' : Files φ} {fd n : ℕ} {path b : Bytes}
    {cs : List Bytes}

include spec

theorem opened_flatten (hcontent : s.content spec path = some b)
    (hopen : s.openPath fat path openRead = (some fd, s₁)) (hreads : Splits fat fd s₁ cs s') :
    cs.flatten = b := by
  obtain ⟨hfile, hkept⟩ := opened_file spec hcontent hopen hreads
  exact splits_flatten spec hreads hfile hkept (Nat.zero_le _)

theorem splits_content (h : Splits fat fd s cs s')
    (hfd : s.fds.getMut fd = some (.file path n false)) (hcontent : s.content spec path = some b)
    (hn : n ≤ b.length) : s'.content spec path = some b := by
  induction h generalizing n with
  | done hread =>
    obtain ⟨-, -, -, -, -, hkept⟩ := read_piece spec hfd hcontent hn hread
    exact hkept
  | more hread _ ih =>
    obtain ⟨-, hle, -, -, hnext, hkept⟩ := read_piece spec hfd hcontent hn hread
    exact ih hnext hkept hle

theorem closed_content (hcontent : s.content spec path = some b)
    (hopen : s.openPath fat path openRead = (some fd, s₁)) (hreads : Splits fat fd s₁ cs s') :
    (s'.close fd).content spec path = some b := by
  obtain ⟨hfile, hkept⟩ := opened_file spec hcontent hopen hreads
  have hend := splits_content spec hreads hfile hkept (Nat.zero_le _)
  rw [Files.close]
  split
  · exact hend
  · exact hend

end Opened

end CoeleoOs.Sh
