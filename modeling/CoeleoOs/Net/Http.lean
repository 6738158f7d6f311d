import CoeleoOs.Lib.Text
import CoeleoOs.Task.UserAccess

/-!
# HTTP responses

The head of a response ends at the first blank line. A head that is found in what has been
received so far is the head of the whole response.
-/

namespace CoeleoOs.Net
open CoeleoOs.Lib.Text
open CoeleoOs.Task (Bytes)

structure HttpHead where
  contentLength : Option ℕ
  deriving DecidableEq

def crlfCrlf : Bytes := [0x0D, 0x0A, 0x0D, 0x0A]

def findBlank : Bytes → Option ℕ
  | [] => none
  | b :: bs => if (b :: bs).take 4 = crlfCrlf then some 0 else (findBlank bs).map (· + 1)

def splitCrlf : List Char → List (List Char)
  | [] => [[]]
  | '\r' :: '\n' :: s => [] :: splitCrlf s
  | c :: s => (splitCrlf s).modifyHead (c :: ·)

def digit (c : Char) : Option ℕ := if '0' ≤ c ∧ c ≤ '9' then some (c.toNat - '0'.toNat) else none

def parseUsize (s : List Char) : Option ℕ :=
  let digits := if s.head? = some '+' then s.tail else s
  if digits = [] then none
  else digits.foldlM (fun n c => (digit c).bind fun d => if n * 10 + d < 2 ^ 64
    then some (n * 10 + d) else none) 0

def asciiLower (c : Char) : Char := if 'A' ≤ c ∧ c ≤ 'Z' then Char.ofNat (c.toNat + 32) else c

def contentLengthName : List Char := "content-length".toList

def headerLine (found : Option ℕ) (line : List Char) : Option ℕ :=
  match splitOnce (· = ':') line with
  | none => found
  | some (name, val) =>
    if name.map asciiLower = contentLengthName then parseUsize (trim val) else found

def splitHead (buf : Bytes) : Option (HttpHead × ℕ) :=
  match findBlank buf with
  | none => none
  | some sep =>
    match fromUtf8 (buf.take sep) with
    | none => none
    | some headers => some (⟨((splitCrlf headers).drop 1).foldl headerLine none⟩, sep + 4)

section Head

variable {buf : Bytes} {sep : ℕ}

theorem findBlank_le (h : findBlank buf = some sep) : sep + 4 ≤ buf.length := by
  induction buf generalizing sep with
  | nil => cases h
  | cons b bs ih =>
    rw [findBlank] at h
    split at h
    · rename_i hblank
      obtain rfl := Option.some.inj h
      have hlen := congrArg List.length hblank
      rw [List.length_take] at hlen
      simp only [crlfCrlf, List.length_cons, List.length_nil] at hlen ⊢
      omega
    · obtain ⟨i, hi, rfl⟩ := Option.map_eq_some_iff.mp h
      have hle := ih hi
      rw [List.length_cons]
      omega

theorem findBlank_append (h : findBlank buf = some sep) (rest : Bytes) :
    findBlank (buf ++ rest) = some sep := by
  induction buf generalizing sep with
  | nil => cases h
  | cons b bs ih =>
    have hle := findBlank_le h
    have htake : ((b :: bs) ++ rest).take 4 = (b :: bs).take 4 :=
      List.take_append_of_le_length (Nat.le_trans (Nat.le_add_left 4 sep) hle)
    rw [findBlank] at h
    rw [List.cons_append, findBlank, ← List.cons_append, htake]
    split at h
    · rename_i hblank
      rw [if_pos hblank]
      exact h
    · rename_i hblank
      obtain ⟨i, hi, rfl⟩ := Option.map_eq_some_iff.mp h
      rw [if_neg hblank, ih hi]
      rfl

theorem splitHead_append {head : HttpHead} {start : ℕ} (h : splitHead buf = some (head, start))
    (rest : Bytes) : splitHead (buf ++ rest) = some (head, start) ∧ start ≤ buf.length := by
  unfold splitHead at h ⊢
  rcases hsep : findBlank buf with _ | sep
  · rw [hsep] at h
    cases h
  · have hle := findBlank_le hsep
    have htake : (buf ++ rest).take sep = buf.take sep := List.take_append_of_le_length (by omega)
    rw [hsep] at h
    rw [findBlank_append hsep]
    dsimp only at h ⊢
    rw [htake]
    refine ⟨h, ?_⟩
    split at h
    · cases h
    · obtain ⟨-, rfl⟩ := Prod.mk.inj (Option.some.inj h)
      exact hle

end Head

end CoeleoOs.Net
