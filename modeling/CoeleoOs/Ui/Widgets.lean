import CoeleoOs.Ui.Keys
import CoeleoOs.Ui.Win

/-!
# Widgets of client programs

What the widgets of a client make of the events it polls: the latest button press and key of a
frame, and where the pointer is. Painting and the flag for it are not part of this state.
-/

namespace CoeleoOs.Ui

/-- `Ui` of the widget library. -/
structure Widgets where
  mouse : Option (ℕ × ℕ)
  pos : Option (ℕ × ℕ)
  key : Option UInt8

namespace Widgets

def new : Widgets := ⟨none, none, none⟩

def inRect (p : Option (ℕ × ℕ)) (x y w h : ℕ) : Bool :=
  match p with
  | none => false
  | some (mx, my) => x ≤ mx && y ≤ my && mx < satAdd x w && my < satAdd y h

def feedEvent (ui : Widgets) (ev : InputEv) : Widgets :=
  if ev.kind = 3 then { ui with key := some ev.key.toUInt8 }
  else if ev.x < 0x80000000 ∧ ev.y < 0x80000000 then
    let p := (ev.x.toNat, ev.y.toNat)
    if ev.kind = 2 then { ui with mouse := some p, pos := some p }
    else if ev.kind = 1 then { ui with pos := some p }
    else ui
  else ui

def feed (ui : Widgets) (evs : List InputEv) : Widgets := evs.foldl feedEvent ui

def finish (ui : Widgets) : Widgets := { ui with mouse := none, key := none }

section Widget

variable (x y w h : ℕ)

def pressed (enabled : Bool) (ui : Widgets) : Bool × Widgets :=
  if enabled && inRect ui.mouse x y w h then (true, { ui with mouse := none }) else (false, ui)

def button (ui : Widgets) : Bool × Widgets := ui.pressed x y w h true

def buttonFill (ui : Widgets) : Bool × Widgets := ui.pressed x y w h true

def buttonDanger (ui : Widgets) : Bool × Widgets := ui.pressed x y w h true

def buttonEn (enabled : Bool) (ui : Widgets) : Bool × Widgets := ui.pressed x y w h enabled

def listRow (row : ℕ) (ui : Widgets) : Bool × Widgets := ui.pressed x y w row true

def hovering (ui : Widgets) : Bool := inRect ui.pos x y w h

def downOutside (ui : Widgets) : Bool := ui.mouse.isSome && !inRect ui.mouse x y w h

end Widget

end Widgets

end CoeleoOs.Ui
