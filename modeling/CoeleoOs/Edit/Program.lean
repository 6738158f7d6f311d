import CoeleoOs.Input.KeyStream

/-!
# The edit program

A buffer of 4096 bytes, changed at its end by the keys that are read one byte at a time. A read
can wait in the main loop or within an escape sequence.
-/

namespace CoeleoOs.Edit
open CoeleoOs.Input (StdinRead)
open CoeleoOs.Task (Bytes)
open CoeleoOs.Lib.TermRow (printable)

abbrev cap : ℕ := 4096

structure Buf where
  bytes : Bytes
  fits : bytes.length ≤ cap
  deriving DecidableEq

namespace Buf

@[ext] theorem ext {b c : Buf} (h : b.bytes = c.bytes) : b = c := by
  cases b
  cases c
  cases h
  rfl

def empty : Buf := ⟨[], Nat.zero_le _⟩

def insert (buf : Buf) (b : UInt8) : Buf :=
  if h :
    buf.bytes.length < cap
      then ⟨buf.bytes ++ [b], by rwa [List.length_append, List.length_singleton]⟩ else buf

def backspace (buf : Buf) : Buf := ⟨buf.bytes.dropLast, by grind [buf.fits]⟩

end Buf

def paste (buf : Buf) (clip : Bytes) : Buf :=
  ((clip.take cap).filter fun b => printable b || b = 0x0A).foldl Buf.insert buf

def isAsciiAlphabetic (b : UInt8) : Bool := (0x41 ≤ b ∧ b ≤ 0x5A) ∨ (0x61 ≤ b ∧ b ≤ 0x7A)

/-- The read at which the program stands. -/
inductive Reading
  | key
  | escape
  | csi
  | exited
  deriving DecidableEq

structure State where
  buf : Buf
  saves : List Bytes
  clips : List (Option Bytes)
  mode : Reading

namespace State

def start (buf : Buf) (clips : List (Option Bytes)) : State := ⟨buf, [], clips, .key⟩

def pasteClip (ed : State) : State :=
  match ed.clips with
  | [] => ed
  | none :: clips => { ed with clips := clips }
  | some clip :: clips => { ed with buf := paste ed.buf clip, clips := clips }

def handle (ed : State) (b : UInt8) : State :=
  if b = 0x13 then { ed with saves := ed.saves ++ [ed.buf.bytes] }
  else if b = 0x11 then { ed with mode := .exited }
  else if b = 0x1B then { ed with mode := .escape }
  else if b = 0x0A ∨ b = 0x0D then { ed with buf := ed.buf.insert 0x0A }
  else if b = 0x03 then ed
  else if b = 0x16 then ed.pasteClip
  else if b = 0x08 ∨ b = 0x7F then { ed with buf := ed.buf.backspace }
  else if printable b then { ed with buf := ed.buf.insert b }
  else ed

def feed (ed : State) : StdinRead → State
  | .wait => ed
  | .eof =>
    match ed.mode with
    | .key => { ed with mode := .exited }
    | .escape | .csi => { ed with mode := .key }
    | .exited => ed
  | .data b =>
    match ed.mode with
    | .key => ed.handle b
    | .escape => { ed with mode := if b = 0x5B then .csi else .key }
    | .csi => { ed with mode := if isAsciiAlphabetic b then .key else .csi }
    | .exited => ed

variable (ed : State)

theorem handle_quit : ed.handle 0x11 = { ed with mode := .exited } := rfl

theorem handle_mode {b : UInt8} (hquit : b ≠ 0x11) (hesc : b ≠ 0x1B) :
    (ed.handle b).mode = ed.mode := by
  rw [handle, if_neg hquit, if_neg hesc]
  split
  · rfl
  split
  · rfl
  split
  · rfl
  split
  · unfold pasteClip
    split <;> rfl
  split
  · rfl
  split <;> rfl

theorem feed_exited {ed : State} (h : ed.mode = .exited) (r : StdinRead) : ed.feed r = ed := by
  cases r <;> simp [feed, h]

theorem foldl_exited {ed : State} (h : ed.mode = .exited) (rs : List StdinRead) :
    rs.foldl feed ed = ed := by
  induction rs with
  | nil => rfl
  | cons r rs ih => rw [List.foldl_cons, feed_exited h, ih]

end State

end CoeleoOs.Edit
