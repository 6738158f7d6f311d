import CoeleoOs.Lib.Visits
import CoeleoOs.Ui.FmPaths
import CoeleoOs.Ui.Overlay

/-!
# Navigation of the file manager

All of the file manager that clicks, keys and its menu change, over the part that decides
about deletions. What a row's file is opened as and the font of the build are parameters.
The volume and its working directory, which the kernel's own `cd` sets, may be others at every
event. A click reaches the panel inside its client area and is followed by a repaint; `none`
is a panic.
-/

namespace CoeleoOs.Ui
open CoeleoOs.Fs CoeleoOs.Lib
open CoeleoOs.Task (Bytes DirEnt FsError utf8Valid)

abbrev searchCap : ℕ := 24
abbrev pathCap : ℕ := 96

def docsPath : Bytes := [0x2F, 0x64, 0x6F, 0x63, 0x73]

structure HistEnt where
  path : Bytes
  sel : ℕ
  scroll : ℕ
  deriving DecidableEq

structure FmNav extends Fm where
  hist : List HistEnt
  histI : ℕ
  scroll : ℕ
  pathEdit : Bytes
  treeOpen : Bool
  placesDocs : Bool
  lastSel : ℕ
  lastClickAt : ℕ
  typed : Bytes
  typedAt : ℕ
  -- Not in the source: the working directory at which the rows were read.
  readIn : Bytes
  deriving DecidableEq

inductive NavHit
  | back | fwd | up | path | search
  | crumb (i : ℕ)
  deriving DecidableEq

/-- What the bytes of a file make of it. -/
inductive Opened
  | image | text | refused
  deriving DecidableEq

inductive FmEvent
  | render (h : ℕ)
  | click (lx ly w h now : ℕ)
  | rightClick (lx ly : ℕ)
  | up | down | left | back
  | push (c : UInt8) (now : ℕ)
  | enter | esc | delete | menuOpen | menuGoUp
  deriving DecidableEq

namespace FmNav

variable {φ η : Type}

section Layout

variable (font : Font)

def rowH : ℕ := font.h + gap
def listY0 : ℕ := navH + (font.h + gap)
def statusH : ℕ := font.h + pad

def navLayout (w : ℕ) : ℕ × ℕ × ℕ :=
  let px := btn * 3 + pad / 2
  let searchW := min 88 (w / 4)
  (px, w - (px + searchW + pad), searchW)

def crumbSepW : ℕ := satAdd (font.textWidth ['>']) (gap / 2)

def crumbsSpan (segs : List (Bytes × Bytes)) (start : ℕ) : ℕ :=
  let sep := crumbSepW font
  let w := if 0 < start then satAdd (font.textWidth dots) sep else 0
  (segs.drop start).foldl (fun (acc : ℕ × ℕ) seg =>
    (acc.1 + 1, satAdd (if start < acc.1 then satAdd acc.2 sep
      else acc.2) (crumbWidth font (chars seg.1)))) (start, w) |>.2

def crumbStart (segs : List (Bytes × Bytes)) (pathW : ℕ) : ℕ :=
  ((List.range segs.length).find? fun start => segs.length ≤ start + 1 ∨
    crumbsSpan font segs start ≤ pathW).getD 0

def crumbFrom (lx : ℕ) : ℕ → ℕ → List (Bytes × Bytes) → Option ℕ
  | _, _, [] => none
  | i, x, seg :: rest =>
    let x1 := satAdd x (crumbWidth font (chars seg.1))
    if x ≤ lx ∧ lx < x1 then some i
    else crumbFrom lx (i + 1) (if rest = [] then x1 else satAdd x1 (crumbSepW font)) rest

def crumbAt (s : FmNav) (w lx : ℕ) : Option NavHit :=
  let px := (navLayout w).1
  let pathW := (navLayout w).2.1
  if lx < px ∨ satAdd px pathW ≤ lx then none
  else
    let segs := pathSegments s.cwd
    let start := crumbStart font segs pathW
    let x := if 0 < start then satAdd px (satAdd (font.textWidth dots) (crumbSepW font)) else px
    (crumbFrom font lx start x (segs.drop start)).map fun i => .crumb (i % 256)

def navHit (s : FmNav) (lx w : ℕ) : NavHit :=
  if lx < btn then .back
  else if lx < btn * 2 then .fwd
  else if lx < btn * 3 then .up
  else if lx < satAdd (navLayout w).1 (navLayout w).2.1 then
    if s.nav = .path then .path else (crumbAt font s w lx).getD .path
  else .search

def pageRows (s : FmNav) : ℕ := max ((s.lastH - listY0 font - statusH font) / rowH font) 1

def ensureVisible (s : FmNav) : FmNav :=
  if s.lastH = 0 then s
  else
    let page := pageRows font s
    let n := s.visible.length
    if n = 0 then { s with scroll := 0, sel := 0 }
    else
      let s := if n ≤ s.sel then { s with sel := n - 1 } else s
      if s.sel < s.scroll then { s with scroll := s.sel }
      else if s.scroll + page ≤ s.sel then { s with scroll := s.sel + 1 - page }
      else s

def render (h : ℕ) (s : FmNav) : FmNav := ensureVisible font { s with lastH := h }

def restoreView (s : FmNav) : FmNav :=
  match s.hist[s.histI]? with
  | none => s
  | some e =>
    let n := s.visible.length
    let sel := if n = 0 then 0 else min e.sel (n - 1)
    ensureVisible font { s with sel := sel, scroll := min e.scroll sel }

def up (s : FmNav) : FmNav :=
  if s.mode = .list ∧ 0 < s.sel then ensureVisible font { s with sel := s.sel - 1 } else s

def down (s : FmNav) : FmNav :=
  let n := s.visible.length
  if s.mode = .list ∧ n ≠ 0 ∧ s.sel + 1 < n then ensureVisible font { s with sel := s.sel + 1 }
    else s

def typeahead (c : UInt8) (now : ℕ) (s : FmNav) : FmNav :=
  let typed := if 100 ≤ now - s.typedAt then [] else s.typed
  let typed := if typed.length < searchCap then typed ++ [asciiLower c] else typed
  let s := { s with typed := typed, typedAt := now }
  match s.visible.findIdx? fun e => typed.isPrefixOf (e.name.map asciiLower) with
  | none => s
  | some i => ensureVisible font { s with sel := i }

def searchPush (c : UInt8) (now : ℕ) (s : FmNav) : FmNav :=
  if ¬(0x20 ≤ c ∧ c ≤ 0x7E) then s
  else
    match s.nav with
    | .path => if s.pathEdit.length < pathCap then { s with pathEdit := s.pathEdit ++ [c] } else s
    | .search =>
      if s.mode = .list ∧ s.search.length < searchCap
        then { s with search := s.search ++ [c], sel := 0, scroll := 0 }
      else s
    | .list => if s.mode = .list then typeahead font c now s else s

def rightClickAt (lx ly : ℕ) (s : FmNav) : FmNav :=
  if s.mode ≠ .list ∨ ly < listY0 font ∨ lx < sideW then s
  else
    let row := min (s.scroll + (ly - listY0 font) / rowH font) (2 ^ 64 - 1)
    if s.visible.length ≤ row then s else { s with sel := row, nav := .list }

def treeRow (ly : ℕ) : ℕ → List Bytes → Option Bytes
  | _, [] => none
  | y, name :: rest =>
    if y ≤ ly ∧ ly < y + rowH font then some name else treeRow ly (y + rowH font) rest

end Layout

def rememberView (s : FmNav) : FmNav :=
  { s with hist := s.hist.set s.histI ⟨s.cwd, s.sel, s.scroll⟩ }

def beginPathEdit (s : FmNav) : FmNav := { s with nav := .path, pathEdit := s.cwd.take pathCap }

def left (s : FmNav) : FmNav :=
  match s.nav with
  | .path => { s with pathEdit := s.pathEdit.dropLast }
  | .search => { s with search := s.search.dropLast }
  | .list => s

def pathText (s : FmNav) : Bytes := if utf8Valid s.pathEdit then s.pathEdit else []

section Volume

variable (fat : Fatfs φ η) (m : Mount φ)

def reload (s : FmNav) : FmNav :=
  { s with
    toFm := s.toFm.reload fat m
    scroll := 0
    placesDocs := (m.list fat docsPath).isOk
    readIn := m.workDir }

def init : FmNav :=
  reload fat m ⟨⟨[slash], [], 0, .list, [], .list, 0⟩, [⟨[slash], 0, 0⟩], 0, 0, [], true, false,
    2 ^ 64 - 1, 0, [], 0, []⟩

def go (path : Bytes) (record : Bool) (s : FmNav) : FmNav :=
  let s :=
    if record then
      let s := s.rememberView
      let hist := s.hist.take (s.histI + 1) ++ [⟨path, 0, 0⟩]
      { s with hist := hist, histI := hist.length - 1 }
    else s
  reload fat m { s with cwd := path, search := [], typed := [], nav := .list }

def goParent (s : FmNav) : FmNav := if s.cwd ≠ [slash] then go fat m (parent s.cwd) true s else s

def backInner (s : FmNav) : FmNav :=
  match s.mode with
  | .preview | .image => { s with mode := .list }
  | .list => if s.cwd ≠ [slash] then go fat m (parent s.cwd) true s else s

def histBack (font : Font) (s : FmNav) : Option FmNav :=
  if s.histI = 0 then some s
  else
    let s := s.rememberView
    (s.hist[s.histI - 1]?).map fun e =>
      restoreView font (reload fat m { s with histI := s.histI - 1, cwd := e.path })

def histFwd (font : Font) (s : FmNav) : Option FmNav :=
  if s.hist.length ≤ s.histI + 1 then some s
  else
    let s := s.rememberView
    (s.hist[s.histI + 1]?).map fun e =>
      restoreView font (reload fat m { s with histI := s.histI + 1, cwd := e.path })

def activate (view : Mount φ → Bytes → Opened) (s : FmNav) : FmNav :=
  if s.mode ≠ .list then s
  else
    match s.visible[s.sel]? with
    | none => s
    | some ent =>
      if ent.name = [dot, dot] then go fat m (parent s.cwd) true s
      else
        let path := join s.cwd ent.name
        if ent.isDir then go fat m path true s
        else
          match view m path with
          | .image => { s with mode := .image }
          | .text => { s with mode := .preview }
          | .refused => s

def back (s : FmNav) : FmNav :=
  match s.nav with
  | .path =>
    if s.pathEdit ≠ [] then { s with pathEdit := s.pathEdit.dropLast } else { s with nav := .list }
  | .search =>
    if s.search ≠ [] ∧ s.mode = .list
      then { s with search := s.search.dropLast, sel := 0, scroll := 0 }
    else { s with nav := .list }
  | .list => backInner fat m s

def enter (view : Mount φ → Bytes → Opened) (s : FmNav) : FmNav :=
  if s.nav = .path then
    if (m.list fat s.pathText).isOk then { go fat m s.pathText true s with nav := .list } else s
  else activate fat m view s

def esc (s : FmNav) : FmNav :=
  match s.mode with
  | .preview | .image => backInner fat m s
  | .list =>
    match s.nav with
    | .search =>
      if s.search ≠ [] then { s with search := [], sel := 0, scroll := 0 }
        else { s with nav := .list }
    | .path => { s with nav := .list }
    | .list => s

def clickNavbar (font : Font) (lx w : ℕ) (s : FmNav) : Option FmNav :=
  match navHit font s lx w with
  | .back => histBack fat m font s
  | .fwd => histFwd fat m font s
  | .up => some (goParent fat m s)
  | .path => some s.beginPathEdit
  | .search => some { s with nav := .search }
  | .crumb i =>
    let segs := pathSegments s.cwd
    if segs.length ≤ i + 1 then some s.beginPathEdit
    else
      match segs[i]? with
      | none => some s
      | some seg => some (go fat m seg.2 true s)

def clickSidebar (font : Font) (ly : ℕ) (s : FmNav) : FmNav :=
  let y := navH + pad / 2 + rowH font
  if y ≤ ly ∧ ly < y + rowH font then go fat m [slash] true s
  else
    let y := y + rowH font
    if s.placesDocs ∧ y ≤ ly ∧ ly < y + rowH font then go fat m docsPath true s
    else
      let y := (if s.placesDocs then y + rowH font else y) + rowH font
      if y ≤ ly ∧ ly < y + rowH font then go fat m [slash] true s
      else if s.treeOpen then
        let dirs := (s.ents.filter fun e => e.isDir ∧ e.name ≠ [dot, dot]).map (·.name)
        match treeRow font ly (y + rowH font + rowH font) dirs with
        | none => s
        | some name => go fat m (join s.cwd name) true s
      else s

def clickAt (font : Font) (view : Mount φ → Bytes → Opened) (lx ly w now : ℕ) (s : FmNav) :
    Option FmNav :=
  if ly < navH then clickNavbar fat m font lx w s
  else if lx < sideW then some (clickSidebar fat m font ly s)
  else
    match s.mode with
    | .preview | .image => some (backInner fat m s)
    | .list =>
      if ly < listY0 font then some { s with nav := .list }
      else
        let row := min (s.scroll + (ly - listY0 font) / rowH font) (2 ^ 64 - 1)
        if s.visible.length ≤ row then some { s with nav := .list }
        else
          let dbl := row = s.lastSel ∧ now - s.lastClickAt < 40
          let s := { s with nav := .list, sel := row, lastSel := row, lastClickAt := now }
          some (if dbl then activate fat m view s else s)

end Volume

def deleteSel (fat : FatIo φ η) (m : Mount φ) (font : Font) (s : FmNav) :
    Option Bytes × Mount φ × FmNav :=
  if s.mode ≠ .list then (none, m, s)
  else
    match s.visible[s.sel]? with
    | none => (none, m, s)
    | some ent =>
      if ent.isDir then (none, m, s)
      else
        let path := join s.cwd ent.name
        match m.remove fat path with
        | (.error _, m) => (none, m, s)
        | (.ok (), m) =>
          let keep := s.sel
          let s := s.reload fat.toFatfs m
          let n := s.ents.length
          (some path, m, ensureVisible font { s with sel := if n = 0 then 0 else min keep (n - 1) })

section Step

variable (fat : FatIo φ η) (view : Mount φ → Bytes → Opened) (font : Font)

def act (m : Mount φ) (s : FmNav) : FmEvent → Option FmNav
  -- A window without a client area is not painted.
  | .render h => some (if h = 0 then s else render font h s)
  | .click lx ly w h now => if ly < h then clickAt fat.toFatfs m font view lx ly w now s else some s
  | .rightClick lx ly => some (rightClickAt font lx ly s)
  | .up => some (up font s)
  | .down => some (down font s)
  | .left => some s.left
  | .back => some (back fat.toFatfs m s)
  | .push c now => some (searchPush font c now s)
  | .enter => some (enter fat.toFatfs m view s)
  | .esc => some (esc fat.toFatfs m s)
  | .delete => some (deleteSel fat m font s).2.2
  | .menuOpen => some (activate fat.toFatfs m view s)
  | .menuGoUp => some (goParent fat.toFatfs m s)

def repaint (s : FmNav) : FmEvent → FmNav
  | .click _ ly _ h _ => if ly < h then render font h s else s
  | _ => s

/-- An event finds the volume and the working directory as they are then. -/
def step (s : FmNav) (a : Mount φ × FmEvent) : Option FmNav :=
  (act fat view font a.1 s a.2).map fun s => repaint font s a.2

end Step

end FmNav

end CoeleoOs.Ui
