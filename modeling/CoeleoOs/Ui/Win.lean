import CoeleoOs.Lib.Table
import CoeleoOs.Task.UserAccess

/-!
# Client surfaces

The window system calls of `win.rs` over the surface table and the shared input
queue. The queue is the list of pending events, oldest first; its ring holds one
event less than `inCap`. Screen placement and the compositor's frames are not
part of this state.
-/

namespace CoeleoOs.Ui
open CoeleoOs.Lib CoeleoOs.Task

abbrev maxSurfaces : ℕ := 8
abbrev maxDim : ℕ := 256
abbrev inCap : ℕ := 8
abbrev evSize : ℕ := 16

instance : NeZero inCap := ⟨by decide⟩

/-- Coordinates are the bit patterns of the source's `i32`. -/
structure InputEv where
  kind : UInt32
  x : UInt32
  y : UInt32
  key : UInt32
  deriving DecidableEq

structure Queued where
  pid : ℕ
  ev : InputEv
  deriving DecidableEq

structure Surface where
  id : ℕ
  pid : ℕ
  w : ℕ
  h : ℕ
  buf : Bytes
  userPtr : ℕ
  dirty : Option (ℕ × ℕ × ℕ × ℕ)
  deriving DecidableEq

structure Win where
  slots : Fin maxSurfaces → Option Surface
  q : List Queued

def Win.init : Win := ⟨fun _ => none, []⟩

def evBytes (ev : InputEv) : Bytes :=
  leBytes 4 ev.kind.toNat ++ leBytes 4 ev.x.toNat ++ leBytes 4 ev.y.toNat ++ leBytes 4 ev.key.toNat

def takeLoop (pid nfit : ℕ) : ℕ → List Queued → Bytes × List Queued
  | _, [] => ([], [])
  | copied, q :: qs =>
    if q.pid = pid ∧ copied < nfit then
      let (out, keep) := takeLoop pid nfit (copied + 1) qs
      (evBytes q.ev ++ out, keep)
    else
      let (out, keep) := takeLoop pid nfit copied qs
      (out, q :: keep)

def Win.takeForPid (w : Win) (pid nfit : ℕ) : Bytes × Win :=
  let (out, keep) := takeLoop pid nfit 0 w.q
  (out, { w with q := keep })

def Win.dropPid (w : Win) (pid : ℕ) : Win :=
  { slots := fun i => (w.slots i).filter fun s => s.pid ≠ pid
    q := w.q.filter fun q => q.pid ≠ pid }

def clip (sw sh x y w h : ℕ) : Option (ℕ × ℕ × ℕ × ℕ) :=
  if sw ≤ x ∨ sh ≤ y then none
  else
    let w := min w (sw - x)
    let h := min h (sh - y)
    if w = 0 ∨ h = 0 then none else some (x, y, w, h)

def copyPixels (userPtr n : ℕ) : KernM Win (Option Bytes) := copyFromUser userPtr n n

def sysCreate (ready : Bool) (pid : Option ℕ) (w h buf : ℕ) : KernM Win ℕ := do
  if ready = false then return err
  let some pid := pid | return err
  let w := w % 2 ^ 32
  let h := h % 2 ^ 32
  if w = 0 ∨ h = 0 ∨ maxDim < w ∨ maxDim < h then return err
  let nbytes := w * h * 4
  unless ← userSliceOk buf nbytes do return err
  let e ← Eff.ask
  if e.reserve (w * h) = false then return err
  let some pixels ← copyPixels buf nbytes | return err
  let g ← Eff.get
  let some slot := Table.position fun i => (g.slots i).isNone | return err
  let id := slot.val + 1
  let surf : Surface := ⟨id, pid, w, h, pixels, buf, none⟩
  Eff.set { g with slots := Function.update g.slots slot (some surf) }
  return id

def sysDamage (pid : Option ℕ) (id xy wh : ℕ) : KernM Win ℕ := do
  let id := id % 2 ^ 32
  let x := xy % 2 ^ 32
  let y := xy / 2 ^ 32
  let w := wh % 2 ^ 32
  let h := wh / 2 ^ 32
  let some pid := pid | return err
  let g ← Eff.get
  let some slot := Table.position fun i =>
    (g.slots i).any fun s => s.id = id ∧ s.pid = pid | return err
  let some surf := g.slots slot | return err
  let some rect := clip surf.w surf.h x y w h | return err
  let nbytes := surf.w * surf.h * 4
  unless ← userSliceOk surf.userPtr nbytes do return err
  -- `surf.buf` keeps the `w * h` pixels it was resized to in `sys_create`.
  let some pixels ← copyPixels surf.userPtr nbytes | return err
  let surf := { surf with buf := pixels, dirty := some rect }
  Eff.set { g with slots := Function.update g.slots slot (some surf) }
  return 0

def sysPollInput (pid : Option ℕ) (buf len : ℕ) : KernM Win ℕ := do
  let some pid := pid | return 0
  if len < evSize then return 0
  let nfit := min (len / evSize) inCap
  unless ← userSliceOk buf (nfit * evSize) do return err
  let g ← Eff.get
  let (tmp, g) := g.takeForPid pid nfit
  Eff.set g
  if tmp.length = 0 then return 0
  let some _ ← copyToUser buf tmp | return err
  return tmp.length

end CoeleoOs.Ui
