import CoeleoOs.Lib.ZOrder
import Mathlib.Algebra.Group.Nat.Defs
import Mathlib.Data.Int.Order.Basic

/-!
# Window frames

The frames of the compositor in stacking order, the keyboard focus and its copies for the
interrupt handlers. Painting is left out. Lengths are `u32` and saturate; a position on the
screen is far below `2 ^ 31`, so that the casts to `i32` keep it.
-/

namespace CoeleoOs.Ui
open CoeleoOs.Lib

abbrev decoH : ℕ := 32
abbrev shadowPx : ℕ := 8
abbrev btn : ℕ := 24
abbrev pad : ℕ := 8
abbrev gap : ℕ := 8
abbrev panelH : ℕ := 32
abbrev panelMargin : ℕ := 7
abbrev sideW : ℕ := 160
abbrev navH : ℕ := 32

def satAdd (a b : ℕ) : ℕ := min (a + b) (2 ^ 32 - 1)

inductive Focus
  | term | files | desk
  deriving DecidableEq

inductive FrameKind
  | vt | files | settings
  | client (id : ℕ)
  deriving DecidableEq

structure Frame where
  kind : FrameKind
  ox : ℕ
  oy : ℕ
  cw : ℕ
  ch : ℕ
  minimized : Bool
  maximized : Bool
  savedOx : ℕ
  savedOy : ℕ
  savedCw : ℕ
  savedCh : ℕ

inductive Edge
  | n | s | e | w | ne | nw | se | sw
  deriving DecidableEq

structure Drag where
  kind : FrameKind
  gx : ℤ
  gy : ℤ
  edge : Option Edge
  ox0 : ℕ
  oy0 : ℕ
  cw0 : ℕ
  ch0 : ℕ

inductive Hit
  | title (i : ℕ) | close (i : ℕ) | min (i : ℕ) | max (i : ℕ) | client (i : ℕ)
  | resize (i : ℕ) (edge : Edge)

def Hit.frame : Hit → ℕ
  | .title i | .close i | .min i | .max i | .client i | .resize i _ => i

inductive PanelMode
  | float | full
  deriving DecidableEq

/-- The framebuffer, the height of the font and, once it runs, the size of the terminal. -/
structure Screen where
  w : ℕ
  h : ℕ
  fontH : ℕ
  vtSize : Option (ℕ × ℕ)

def workH (scr : Screen) : PanelMode → ℕ
  | .float => scr.h - satAdd panelH panelMargin
  | .full => scr.h - panelH

def frameNew (kind : FrameKind) (ox oy cw ch : ℕ) : Frame :=
  ⟨kind, ox, oy, cw, ch, false, false, 0, 0, 0, 0⟩

def clampXy (scr : Screen) (work cw ch ox oy : ℕ) : ℕ × ℕ :=
  let fh := satAdd decoH ch
  (if scr.w < satAdd (satAdd ox cw) shadowPx then scr.w - satAdd cw shadowPx else ox,
    if work < satAdd (satAdd oy fh) shadowPx then work - satAdd fh shadowPx else oy)

def clampFrameIn (scr : Screen) (work : ℕ) (f : Frame) : Frame :=
  let p := clampXy scr work f.cw f.ch f.ox f.oy
  { f with
    ox := p.1
    oy := p.2 }

/-- The frames with the focus; the three flags are atomics that the interrupt handlers read. -/
structure Wm where
  frames : List Frame
  focus : Focus
  focusFiles : Bool
  focusDesk : Bool
  clientTop : Bool
  drag : Option Drag

def focusOf : FrameKind → Focus
  | .vt | .client _ => .term
  | .files => .files
  | .settings => .desk

def isClient : FrameKind → Bool
  | .client _ => true
  | _ => false

namespace Wm

def init : Wm := ⟨[], .term, false, false, false, none⟩

def visibleTop (w : Wm) : Option ℕ := ZOrder.rposition (fun f => !f.minimized) w.frames

def topKind (w : Wm) : Option FrameKind := w.visibleTop.bind fun i => w.frames[i]?.map Frame.kind

def position (w : Wm) (kind : FrameKind) : Option ℕ := w.frames.findIdx? fun f => f.kind = kind

def modify (w : Wm) (i : ℕ) (g : Frame → Frame) : Wm := { w with frames := w.frames.modify i g }

def setFocus (w : Wm) (f : Focus) : Wm :=
  { w with
    focusFiles := f = .files
    focusDesk := f = .desk
    focus := f }

def focusFrame (w : Wm) (i : ℕ) : Wm :=
  match w.frames[i]? with
  | none => w
  | some f => w.setFocus (focusOf f.kind)

def syncClientTop (w : Wm) : Wm := { w with clientTop := w.topKind.any isClient }

def raise (w : Wm) (i : ℕ) : Wm := syncClientTop { w with frames := ZOrder.raise w.frames i }

def retargetFocus (w : Wm) : Wm :=
  match w.visibleTop with
  | none => (w.setFocus .term).syncClientTop
  | some i => (w.focusFrame i).syncClientTop

def dropDrag (w : Wm) (kind : FrameKind) : Wm :=
  if w.drag.any fun d => d.kind = kind then { w with drag := none } else w

def minimizeFrame (w : Wm) (i : ℕ) : Wm :=
  match w.frames[i]? with
  | none => w
  | some f =>
    if f.minimized then w
    else ((w.modify i fun f => { f with minimized := true }).dropDrag f.kind).retargetFocus

def unminimize (w : Wm) (i : ℕ) : Wm := w.modify i fun f => { f with minimized := false }

-- `i` is the index from before the frame was raised.
def restoreMin (w : Wm) (i : ℕ) : Wm := ((w.unminimize i).raise i).focusFrame i

def showFrame (w : Wm) (i : ℕ) : Wm :=
  let w := (w.unminimize i).raise i
  w.focusFrame (w.frames.length - 1)

def ensureFrame (scr : Screen) (mode : PanelMode) (w : Wm) (kind : FrameKind) : Option (Wm × ℕ) :=
  match w.position kind with
  | some i => some (w, i)
  | none =>
    let work := workH scr mode
    let place : Option (ℕ × ℕ × ℕ × ℕ) :=
      match kind with
      | .vt => scr.vtSize.map fun v => (16, 8, v.1, v.2)
      | .files =>
        some (48, 48, max (min 480 (scr.w - 64)) (sideW + 240),
          max (min 400 (work - (48 + decoH + 8 + shadowPx)))
            (navH + (scr.fontH + gap) + (scr.fontH + gap) + (scr.fontH + pad)))
      | .settings =>
        some (60, 36, max (min 520 (scr.w - 64)) 360,
          max (min 400 (work - (40 + decoH + 8 + shadowPx))) 280)
      | .client _ => none
    place.map fun p =>
      let f := clampFrameIn scr work (frameNew kind p.1 p.2.1 p.2.2.1 p.2.2.2)
      ({ w with frames := w.frames ++ [f] }, w.frames.length)

def closeFrame (w : Wm) (i : ℕ) : Wm :=
  match w.frames[i]? with
  | none => w
  | some f =>
    let w := w.dropDrag f.kind
    retargetFocus { w with frames := w.frames.eraseIdx i }

def maxFrame (scr : Screen) (work : ℕ) (f : Frame) : Frame :=
  let f := { f with minimized := false }
  if f.maximized then
    clampFrameIn scr work
      { f with
        ox := f.savedOx
        oy := f.savedOy
        cw := f.savedCw
        ch := f.savedCh
        maximized := false }
  else
    { f with
      savedOx := f.ox
      savedOy := f.oy
      savedCw := f.cw
      savedCh := f.ch
      ox := 0
      oy := 0
      cw := scr.w
      ch := max (work - decoH) 16
      maximized := true }

def toggleMax (scr : Screen) (work : ℕ) (w : Wm) (i : ℕ) : Wm :=
  (w.modify i (maxFrame scr work)).raise i

def reflowFrame (scr : Screen) (work : ℕ) (f : Frame) : Frame :=
  if f.maximized = false ∨ f.minimized = true then f
  else
    { f with
      ox := 0
      oy := 0
      cw := scr.w
      ch := max (work - decoH) 16 }

def reflowMaximized (scr : Screen) (work : ℕ) (w : Wm) : Wm :=
  { w with frames := w.frames.map (reflowFrame scr work) }

end Wm

abbrev resizePx : ℕ := 5
abbrev minCw : ℤ := 120
abbrev minCh : ℤ := 64

def resizeEdge (f : Frame) (x y fh : ℕ) : Option Edge :=
  if f.maximized then none
  else
    let onN : Bool := y < satAdd f.oy resizePx
    let onS : Bool := satAdd f.oy (fh - resizePx) ≤ y
    let onW : Bool := x < satAdd f.ox resizePx
    let onE : Bool := satAdd f.ox (f.cw - resizePx) ≤ x
    match onN, onS, onW, onE with
    | true, _, true, _ => some .nw
    | true, _, _, true => some .ne
    | _, true, true, _ => some .sw
    | _, true, _, true => some .se
    | true, _, _, _ => some .n
    | _, true, _, _ => some .s
    | _, _, true, _ => some .w
    | _, _, _, true => some .e
    | _, _, _, _ => none

def hitFrame (x y i : ℕ) (f : Frame) : Option Hit :=
  let fh := satAdd decoH f.ch
  if f.minimized then none
  else if x < f.ox ∨ y < f.oy ∨ satAdd f.ox f.cw ≤ x ∨ satAdd f.oy fh ≤ y then none
  else if y < satAdd f.oy decoH then
    let bx := satAdd f.ox f.cw
    if bx - btn ≤ x then some (.close i)
    else if bx - btn * 2 ≤ x then some (.max i)
    else if bx - btn * 3 ≤ x then some (.min i)
    else
      match resizeEdge f x y fh with
      | some edge => some (.resize i edge)
      | none => some (.title i)
  else
    match resizeEdge f x y fh with
    | some edge => some (.resize i edge)
    | none => some (.client i)

def hitTest (frames : List Frame) (x y : ℕ) : Option Hit :=
  (List.range frames.length).reverse.findSome? fun i => frames[i]?.bind (hitFrame x y i)

def moveFrame (scr : Screen) (work : ℕ) (cx cy : ℤ) (d : Drag) (f : Frame) : Frame :=
  let p := clampXy scr work f.cw f.ch (cx - d.gx).toNat (cy - d.gy).toNat
  { f with
    ox := p.1
    oy := p.2 }

def resizeFrame (scr : Screen) (work : ℕ) (cx cy : ℤ) (d : Drag) (edge : Edge) (f : Frame) :
    Frame :=
  if f.maximized = true ∨ f.minimized = true then f
  else
    let dx := cx - d.gx
    let dy := cy - d.gy
    let west : Bool := edge = .w ∨ edge = .nw ∨ edge = .sw
    let east : Bool := edge = .e ∨ edge = .ne ∨ edge = .se
    let north : Bool := edge = .n ∨ edge = .ne ∨ edge = .nw
    let south : Bool := edge = .s ∨ edge = .se ∨ edge = .sw
    let cw : ℤ := d.cw0 + (if east then dx else 0) - (if west then dx else 0)
    let ch : ℤ := d.ch0 + (if south then dy else 0) - (if north then dy else 0)
    let ox : ℤ := d.ox0 + (if west then dx else 0)
    let oy : ℤ := d.oy0 + (if north then dy else 0)
    let ox := if cw < minCw ∧ west then ox - (minCw - cw) else ox
    let cw := max cw minCw
    let oy := if ch < minCh ∧ north then oy - (minCh - ch) else oy
    let ch := max ch minCh
    let ox := max ox 0
    let oy := max oy 0
    let sh : ℤ := shadowPx
    let fw : ℤ := scr.w
    let wh : ℤ := work
    let (ox, cw) :=
      if fw < ox + cw + sh then
        if east ∧ ¬west then (ox, max (fw - ox - sh) minCw) else (max (fw - cw - sh) 0, cw)
      else (ox, cw)
    let (oy, ch) :=
      if wh < oy + decoH + ch + sh then
        if south ∧ ¬north then (oy, max (wh - oy - decoH - sh) minCh)
          else (max (wh - decoH - ch - sh) 0, ch)
      else (oy, ch)
    { f with
      ox := ox.toNat
      oy := oy.toNat
      cw := cw.toNat
      ch := ch.toNat }

def Wm.applyDrag (scr : Screen) (work : ℕ) (cx cy : ℤ) (w : Wm) : Wm :=
  match w.drag with
  | none => w
  | some d =>
    match w.position d.kind with
    | none => { w with drag := none }
    | some i =>
      match d.edge with
      | none => w.modify i (moveFrame scr work cx cy d)
      | some edge => w.modify i (resizeFrame scr work cx cy d edge)

end CoeleoOs.Ui
