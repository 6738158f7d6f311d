import CoeleoOs.Sh.Complete
import CoeleoOs.Sh.HistoryRing

/-!
# Reading a line

`read_line` over the buffer of the line, the history ring and the buffers of the search, one read
of a byte after the other. Every access is checked, and what a step writes goes with it.
-/

namespace CoeleoOs.Sh
open CoeleoOs.Lib CoeleoOs.Lib.InPlace
open CoeleoOs.Task (Bytes)
open CoeleoOs.Lib.TermRow (printable)

inductive Got
  | eof
  | err
  | byte (b : UInt8)

structure Services where
  clip : Bytes
  places : Places

abbrev clipCap : ℕ := 4096

def Services.clipBytes (w : Services) : Bytes :=
  if clipCap < w.clip.length then List.replicate clipCap 0 else w.clip

inductive SeqBuf
  | normal
  | esc
  | csi (buf : Bytes) (len : ℕ)

structure SearchBuf where
  query : Bytes
  qlen : ℕ
  found : Option ℕ
  original : Bytes
  origN : ℕ

namespace HistRing

variable (r : HistRing)

def saveDraft (t : Bytes) : Option HistRing :=
  if h : t.length ≤ lineCap then some { r with draft := r.draft.store t h } else none

def withView (view : Option ℕ) : HistRing := { r with view := view }

end HistRing

def paintHist (hist : HistRing) (p : Painted) : Option (HistRing × Cells × Bytes) :=
  p.map fun q => (hist, q.1, q.2)

def histUp (hist : HistRing) (c : Cells) : Option (HistRing × Cells × Bytes) :=
  if hist.count = 0 then some (hist, c, [])
  else
    match hist.view with
    | none => do
      let text ← slice c.line 0 c.n
      let hist ← hist.saveDraft text
      paintHist (hist.withView (some 0)) (c.paintReplace (hist.get 0))
    | some age =>
      if hist.count ≤ age + 1 then some (hist, c, [])
      else paintHist (hist.withView (some (age + 1))) (c.paintReplace (hist.get (age + 1)))

def histDown (hist : HistRing) (c : Cells) : Option (HistRing × Cells × Bytes) :=
  match hist.view with
  | none => some (hist, c, [])
  | some 0 => paintHist hist.unview (c.paintReplace hist.draft.text)
  | some (age + 1) => paintHist (hist.withView (some age)) (c.paintReplace (hist.get age))

namespace SearchBuf

-- `\r\x1b[K(reverse-i-search)` and a backquote.
def heading : Bytes :=
  [0x0D, 0x1B, 0x5B, 0x4B, 0x28, 0x72, 0x65, 0x76, 0x65, 0x72, 0x73, 0x65, 0x2D, 0x69, 0x2D, 0x73,
    0x65, 0x61, 0x72, 0x63, 0x68, 0x29, 0x60]

-- A quote, a colon and a blank.
def separator : Bytes := [0x27, 0x3A, 0x20]

variable (s : SearchBuf)

def painted (hist : HistRing) : Option Bytes := do
  let query ← Cells.tailFrom s.query 0 s.qlen
  some (heading ++ query ++ separator ++ s.found.elim [] hist.getAt)

def start (c : Cells) : Option SearchBuf := do
  let text ← slice c.line 0 c.n
  let original ← copyFrom (List.replicate lineCap 0) 0 text
  some ⟨List.replicate queryLen 0, 0, none, original, c.n⟩

def lookup (hist : HistRing) (qlen startIdx : ℕ) : Option (Option ℕ) := do
  let query ← slice s.query 0 qlen
  some (hist.findMatch query startIdx)

def lookupShort (hist : HistRing) (qlen : ℕ) : Option (Option ℕ) :=
  if 0 < qlen then s.lookup hist qlen (hist.count - 1) else some none

def byte (hist : HistRing) (prompt : Bytes) (c : Cells) (b : UInt8) :
    Option (Cells × Option SearchBuf × Bytes) :=
  if b = 0x12 then
    match s.found with
    | some (i + 1) => do
      let found ← s.lookup hist s.qlen i
      some (c, some { s with found := found }, [])
    | _ => some (c, some s, [])
  else if b = 0x08 ∨ b = 0x7F then
    if 0 < s.qlen then do
      let qlen := s.qlen - 1
      let found ← s.lookupShort hist qlen
      some (c, some { s with qlen := qlen, found := found }, [])
    else some (c, some s, [])
  else if b = 0x1B ∨ b = 0x03 ∨ b = 0x07 then do
    let text ← slice s.original 0 s.origN
    let line ← copyFrom c.line 0 text
    let c : Cells := ⟨line, s.origN, s.origN⟩
    let out ← c.redraw prompt
    some (c, none, out)
  else if b = 0x0A ∨ b = 0x0D then
    match s.found with
    | some i => do
      let line ← copyFrom c.line 0 (hist.getAt i)
      let c : Cells := ⟨line, (hist.getAt i).length, (hist.getAt i).length⟩
      let out ← c.redraw prompt
      some (c, none, out)
    | none => do
      let out ← c.redraw prompt
      some (c, none, out)
  else if printable b ∧ s.qlen < s.query.length then do
    let query ← copyFrom s.query s.qlen [b]
    let s := { s with query := query, qlen := s.qlen + 1 }
    let found ← s.lookup hist s.qlen (hist.count - 1)
    some (c, some { s with found := found }, [])
  else some (c, some s, [])

end SearchBuf

structure ReadLine where
  cells : Cells
  seq : SeqBuf
  hist : HistRing
  search : Option SearchBuf

inductive ReadStep
  | reading (r : ReadLine)
  | entered (n : ℕ) (line : Bytes) (hist : HistRing)
  -- `usize::MAX`
  | eof (hist : HistRing)

namespace ReadLine

def start (line : Bytes) (hist : HistRing) : ReadLine := ⟨⟨line, 0, 0⟩, .normal, hist, none⟩

variable (fancy : Bool) (w : Services) (prompt : Bytes) (r : ReadLine)

def onCells (p : Painted) : Option (ReadLine × Bytes) :=
  p.map fun q => ({ r with cells := q.1 }, q.2)

def onFancy (p : Painted) : Option (ReadLine × Bytes) := if fancy then r.onCells p else some (r, [])

def onHist (p : Option (HistRing × Cells × Bytes)) : Option (ReadLine × Bytes) :=
  p.map fun q => ({ r with hist := q.1, cells := q.2.1 }, q.2.2)

def withSeq (seq : SeqBuf) : ReadLine := { r with seq := seq }

def escByte (b : UInt8) : Option (ReadLine × Bytes) :=
  if b = 0x5B then some (r.withSeq (.csi (List.replicate 8 0) 0), [])
  else if b = 0x62 then (r.withSeq .normal).onFancy fancy r.cells.wordLeft
  else if b = 0x66 then (r.withSeq .normal).onFancy fancy r.cells.wordRight
  else some (r.withSeq .normal, [])

def csiFinal (param : Bytes) (b : UInt8) : Option (ReadLine × Bytes) :=
  if b = 0x41 then r.onHist (histUp r.hist r.cells)
  else if b = 0x42 then r.onHist (histDown r.hist r.cells)
  else if b = 0x43 then r.onCells r.cells.moveRight
  else if b = 0x44 then r.onCells r.cells.moveLeft
  else if b = 0x48 then r.onCells r.cells.goHome
  else if b = 0x46 then r.onCells r.cells.goToEnd
  else if b = 0x7E then
    if param = [0x33] then r.onCells r.cells.forwardDelete
    else if param = [0x31] then r.onCells r.cells.goHome
    else if param = [0x34] then r.onCells r.cells.goToEnd
    else some (r, [])
  else if param = [0x31, 0x3B, 0x35] then
    if b = 0x44 then r.onCells r.cells.wordLeft
    else if b = 0x43 then r.onCells r.cells.wordRight
    else some (r, [])
  else some (r, [])

def csiByte (buf : Bytes) (len : ℕ) (b : UInt8) : Option (ReadLine × Bytes) :=
  if 0x40 ≤ b ∧ b ≤ 0x7E then
    if fancy then do
      let param ← slice buf 0 len
      (r.withSeq .normal).csiFinal param b
    else some (r.withSeq .normal, [])
  else if len < 8 then do
    let buf ← copyFrom buf len [b]
    some (r.withSeq (.csi buf (len + 1)), [])
  else some (r.withSeq .normal, [])

def afterSearch (s : Option SearchBuf) (out : Bytes) : Option (ReadLine × Bytes) :=
  match s with
  | none => some ({ r with search := none }, out)
  | some s => do
    let shown ← s.painted r.hist
    some ({ r with search := some s }, out ++ shown)

def searchByte (s : SearchBuf) (b : UInt8) : Option (ReadLine × Bytes) := do
  let (cells, s, out) ← s.byte r.hist prompt r.cells b
  { r with cells := cells }.afterSearch s out

def reverseSearch : Option (ReadLine × Bytes) := do
  let s ← SearchBuf.start r.cells
  r.afterSearch (some s) []

def tab : Option (ReadLine × Bytes) := do
  let (c, out) ← Complete.apply w.places prompt r.cells
  some ({ r with cells := { c with cur := c.n }, hist := r.hist.unview }, out)

def drop : Option (ReadLine × Bytes) := do
  let tail ← r.cells.goEnd
  some ({ r with cells := { r.cells with n := 0, cur := 0 }, hist := r.hist.unview },
    tail ++ eraseN r.cells.n)

def key (b : UInt8) : Option (ReadLine × Bytes) :=
  let c := r.cells
  if b = 0x1B then some (r.withSeq .esc, [])
  else if b = 0x01 then r.onFancy fancy c.goHome
  else if b = 0x05 then r.onFancy fancy c.goToEnd
  else if b = 0x04 then r.onFancy fancy c.forwardDelete
  else if b = 0x0B then r.onFancy fancy c.killToEnd
  else if b = 0x14 then r.onFancy fancy c.transpose
  else if b = 0x12 then if fancy then r.reverseSearch else some (r, [])
  else if b = 0x03 then r.drop
  else if b = 0x0C then if fancy then (c.redraw prompt).map fun out => (r, out) else some (r, [])
  else if b = 0x15 then r.onFancy fancy c.killToStart
  else if b = 0x16 then r.onFancy fancy (c.paste prompt w.clipBytes)
  else if b = 0x17 then r.onFancy fancy c.killWord
  else if b = 0x08 ∨ b = 0x7F then { r with hist := r.hist.unview }.onCells c.backspace
  else if b = 0x09 then if fancy then r.tab w prompt else some (r, [])
  else if printable b ∧ c.n < c.line.length
    then { r with hist := r.hist.unview }.onCells (c.insert b)
  else some (r, [])

def normalByte (b : UInt8) : Option (ReadStep × Bytes) :=
  if b = 0x04 ∧ r.cells.n = 0 then some (.eof r.hist, [])
  else if b = 0x0A ∨ b = 0x0D then do
    let tail ← r.cells.goEnd
    let text ← slice r.cells.line 0 r.cells.n
    some (.entered r.cells.n r.cells.line (if fancy then r.hist.push text else r.hist),
      tail ++ [0x0A])
  else if b = 0x03 ∧ fancy = true then do
    let tail ← r.cells.goEnd
    some (.entered 0 r.cells.line r.hist, tail ++ [0x0A])
  else (r.key fancy w prompt b).map fun q => (.reading q.1, q.2)

def feed : Got → Option (ReadStep × Bytes)
  | .eof =>
    match r.search with
    | some _ => some (.reading { r with search := none }, [])
    | none => some (.eof r.hist, [])
  | .err =>
    match r.search with
    | some _ => some (.reading { r with search := none }, [])
    | none => some (.reading r, [])
  | .byte b =>
    match r.search with
    | some s => (r.searchByte prompt s b).map fun q => (.reading q.1, q.2)
    | none =>
      match r.seq with
      | .esc => (r.escByte fancy b).map fun q => (.reading q.1, q.2)
      | .csi buf len => (r.csiByte fancy buf len b).map fun q => (.reading q.1, q.2)
      | .normal => r.normalByte fancy w prompt b

end ReadLine

end CoeleoOs.Sh
