import CoeleoOs.Lib.InPlace
import CoeleoOs.Sh.Line

/-!
# The buffer of the line editor

The operations of the line editor on its buffer of bytes, with every access checked, and what each
of them writes to the terminal. The first `n` cells are the line.
-/

namespace CoeleoOs.Sh
open CoeleoOs.Lib CoeleoOs.Lib.InPlace
open CoeleoOs.Task (Bytes)
open CoeleoOs.Lib.TermRow (printable)

abbrev bs : UInt8 := 0x08

def backs (k : ℕ) : Bytes := List.replicate k bs

def blanks (k : ℕ) : Bytes := List.replicate k space

def eraseN (n : ℕ) : Bytes := (List.replicate n [bs, space, bs]).flatten

-- `\x1b[2J\x1b[H`
def clearHome : Bytes := [0x1B, 0x5B, 0x32, 0x4A, 0x1B, 0x5B, 0x48]

structure Cells where
  line : Bytes
  n : ℕ
  cur : ℕ

abbrev Painted := Option (Cells × Bytes)

namespace Cells

variable (c : Cells)

def goHome : Painted := if 0 < c.cur then some ({ c with cur := 0 }, backs c.cur) else some (c, [])

def goToEnd : Painted :=
  if c.cur < c.n then do
    let tail ← slice c.line c.cur c.n
    some ({ c with cur := c.n }, tail)
  else some (c, [])

def tailFrom (line : Bytes) (i n : ℕ) : Option Bytes := if i < n then slice line i n else some []

def forwardDelete : Painted :=
  if c.cur < c.n then do
    let n := c.n - 1
    let line ← copyUp c.line c.cur (c.cur + 1) (n - c.cur)
    let tail ← tailFrom line c.cur n
    some (⟨line, n, c.cur⟩, tail ++ [space, bs] ++ backs (n - c.cur))
  else some (c, [])

def killToEnd : Painted :=
  if c.cur < c.n then some ({ c with n := c.cur }, blanks (c.n - c.cur) ++ backs (c.n - c.cur))
    else some (c, [])

def transpose : Painted :=
  if 2 ≤ c.cur ∧ c.cur ≤ c.n then do
    let a ← c.line[c.cur - 2]?
    let b ← c.line[c.cur - 1]?
    let line ← copyFrom c.line (c.cur - 2) [b]
    let line ← copyFrom line (c.cur - 1) [a]
    some ({ c with line := line }, [bs, bs] ++ [b, a])
  else some (c, [])

def wordStart : Option ℕ := (backWhile (· = space) c.line c.cur).bind (backWhile (· ≠ space) c.line)

def wordLeft : Painted :=
  if c.cur = 0 then some (c, [])
  else do
    let i ← c.wordStart
    some ({ c with cur := i }, backs (c.cur - i))

def wordRight : Painted :=
  if c.n ≤ c.cur then some (c, [])
  else do
    let i ← foreWhile (· = space) c.line (c.n - c.cur) c.cur
    let i ← foreWhile (· ≠ space) c.line (c.n - i) i
    let word ← slice c.line c.cur i
    some ({ c with cur := i }, word)

def goEnd : Option Bytes := tailFrom c.line c.cur c.n

def showTail : Option Bytes :=
  if c.n ≤ c.cur then some []
  else do
    let tail ← slice c.line c.cur c.n
    some (tail ++ backs (c.n - c.cur))

def paintReplace (src : Bytes) : Painted := do
  let tail ← c.goEnd
  let len := min src.length c.line.length
  let line ← copyFrom c.line 0 (src.take len)
  let text ← tailFrom line 0 len
  some (⟨line, len, len⟩, tail ++ eraseN c.n ++ text)

def put (b : UInt8) : Option Cells := do
  let line ← copyDown c.line (c.cur + 1) c.cur (c.n - c.cur)
  let line ← copyFrom line c.cur [b]
  some ⟨line, c.n + 1, c.cur + 1⟩

def insert (b : UInt8) : Painted := do
  let c ← c.put b
  let tail ← c.showTail
  some (c, [b] ++ tail)

def backspace : Painted :=
  if c.cur = 0 then some (c, [])
  else do
    let cur := c.cur - 1
    let n := c.n - 1
    let line ← copyUp c.line cur (cur + 1) (n - cur)
    let tail ← tailFrom line cur n
    some (⟨line, n, cur⟩, [bs] ++ tail ++ [space, bs] ++ backs (n - cur))

def killToStart : Painted :=
  if c.cur = 0 then some (c, [])
  else do
    let rest := c.n - c.cur
    let tail ← c.goEnd
    let line ← copyUp c.line 0 c.cur rest
    let text ← tailFrom line 0 rest
    some (⟨line, rest, 0⟩, tail ++ eraseN c.n ++ text ++ backs rest)

def killWord : Painted :=
  if c.cur = 0 then some (c, [])
  else do
    let i ← c.wordStart
    let n := c.n - (c.cur - i)
    let tail ← c.goEnd
    let line ← copyUp c.line i c.cur (c.n - c.cur)
    let text ← tailFrom line 0 n
    some (⟨line, n, i⟩, tail ++ eraseN c.n ++ text ++ backs (n - i))

def moveLeft : Painted :=
  if c.cur = 0 then some (c, []) else some ({ c with cur := c.cur - 1 }, [bs])

def moveRight : Painted :=
  if c.n ≤ c.cur then some (c, [])
  else do
    let b ← slice c.line c.cur (c.cur + 1)
    some ({ c with cur := c.cur + 1 }, b)

def redraw (prompt : Bytes) : Option Bytes := do
  let text ← tailFrom c.line 0 c.n
  some (clearHome ++ prompt ++ text ++ backs (c.n - c.cur))

def pasteBytes : Bytes → Cells → Bool → Option (Cells × Bool)
  | [], c, added => some (c, added)
  | b :: clip, c, added =>
    if printable b ∧ c.n < c.line.length then do
      let c ← c.put b
      pasteBytes clip c true
    else pasteBytes clip c added

def paste (prompt clip : Bytes) : Painted := do
  let r ← pasteBytes clip c false
  if r.2 then do
    let shown ← r.1.redraw prompt
    some (r.1, shown)
  else some (r.1, [])

end Cells

end CoeleoOs.Sh
