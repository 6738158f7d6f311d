import CoeleoOs.Lib.Checked
import CoeleoOs.Ui.Frames
import Mathlib.Data.List.Basic

/-!
# The settings window

Painting and clicks read one layout. They divide it in a different order: the painting puts the
navigation bar on top of what lies there, a click looks at the row of the mode buttons first, and
a click in the row of the navigation bar never gets to a card.
-/

namespace CoeleoOs.Ui.Deskset
open CoeleoOs.Lib.Checked (less less_eq)

def btnH : ℕ := 24
def navH : ℕ := 24
def navBtnW : ℕ := 100
def outer : ℕ := 14
def labelGap : ℕ := 10
def sectionGap : ℕ := 14
def gridGapX : ℕ := 12
def gridGapY : ℕ := 12
def thumbGap : ℕ := 6
def minCardH : ℕ := 96
def maxCardH : ℕ := 132
def badgePad : ℕ := 4
def cols : ℕ := 3
def rows : ℕ := 2
def itemsPerPage : ℕ := cols * rows
def thumbW : ℕ := 120
def thumbH : ℕ := 68
def pad : ℕ := 8

inductive WallItem
  | default
  | path (p : String)
  deriving DecidableEq

structure State where
  walls : List WallItem
  wallSel : ℕ
  page : ℕ
  deriving DecidableEq

inductive Action
  | none
  | setMode (mode : PanelMode)
  | setWallDefault
  | setWallPath (p : String)
  deriving DecidableEq

structure Layout where
  modeY : ℕ
  btnW : ℕ
  dividerY : ℕ
  gridLabelY : ℕ
  gridY0 : ℕ
  cardW : ℕ
  cardH : ℕ
  navY : ℕ

def pageCount (walls : ℕ) : ℕ := max ((walls + itemsPerPage - 1) / itemsPerPage) 1

def layout (fontH w h : ℕ) : Layout :=
  let modeY := pad + fontH + labelGap
  let dividerY := modeY + btnH + sectionGap
  let gridLabelY := dividerY + 1 + sectionGap
  let gridY0 := gridLabelY + fontH + labelGap
  let navY := h - outer - navH
  let free := navY - gridY0 - gridGapY - (rows - 1) * gridGapY
  ⟨modeY, (w - outer * 2 - gridGapX) / 2, dividerY, gridLabelY, gridY0,
    (w - outer * 2 - (cols - 1) * gridGapX) / cols, min (max (free / rows) minCardH) maxCardH, navY⟩

structure Box where
  x : ℕ
  y : ℕ
  w : ℕ
  h : ℕ
  deriving DecidableEq

def Box.Contains (b : Box) (px py : ℕ) : Prop :=
  b.x ≤ px ∧ px < b.x + b.w ∧ b.y ≤ py ∧ py < b.y + b.h

instance (b : Box) (px py : ℕ) : Decidable (b.Contains px py) := inferInstanceAs (Decidable (_ ∧ _))

inductive Control
  | float
  | full
  | prev
  | next
  | card (i : ℕ)
  deriving DecidableEq

/-- One call of the painter with its rectangle, and the control whose ground it is. -/
inductive Paint
  | fill (b : Box)
  | ground (c : Control) (b : Box)
  | round (b : Box)
  | blit (b : Box)
  | textElide (x y limit : ℕ)
  deriving DecidableEq

def Layout.xFull (lay : Layout) : ℕ := outer + lay.btnW + gridGapX

def Layout.cardBox (lay : Layout) (row col : ℕ) : Box :=
  ⟨outer + col * (lay.cardW + gridGapX), lay.gridY0 + row * (lay.cardH + gridGapY),
    lay.cardW, lay.cardH⟩

def nextX (w : ℕ) : ℕ := w - (outer + navBtnW)

/-- What painting a card depends on beside the window: the height of the font, the visible ink of
the badge, which thumbnails there are and which wallpaper is in use. -/
structure Look where
  fontH : ℕ
  ink : ℕ × ℕ
  thumb : ℕ → Bool
  active : WallItem → Bool

def thumbFrame (tx ty : ℕ) : Option (List Paint) := do
  let bottom ← less (ty + thumbH) 1
  let right ← less (tx + thumbW) 1
  some [.fill ⟨tx, ty, thumbW, 1⟩, .fill ⟨tx, bottom, thumbW, 1⟩, .fill ⟨tx, ty, 1, thumbH⟩,
    .fill ⟨right, ty, 1, thumbH⟩]

def cardGround (lay : Layout) (s : State) (i : ℕ) (b : Box) : Option (List Paint) :=
  if i = s.wallSel then do
    let innerW ← less lay.cardW 4
    let innerH ← less lay.cardH 4
    some [.ground (.card i) b, .round ⟨b.x + 2, b.y + 2, innerW, innerH⟩]
  else some [.ground (.card i) b]

def renderCard (look : Look) (lay : Layout) (s : State) (page row col : ℕ) : Option (List Paint) :=
  let i := page * itemsPerPage + row * cols + col
  match s.walls[i]? with
  | none => some []
  | some item => do
    let b := lay.cardBox row col
    let ground ← cardGround lay s i b
    let tx := b.x + (lay.cardW - thumbW) / 2
    let ty := b.y + (lay.cardH - (thumbH + thumbGap + look.fontH)) / 2
    let picture : Paint :=
      if look.thumb i then .blit ⟨tx, ty, thumbW, thumbH⟩ else .fill ⟨tx, ty, thumbW, thumbH⟩
    let frame ← thumbFrame tx ty
    let badgeW := (look.ink.2 - look.ink.1) + 2 * badgePad
    let badge : List Paint :=
      if look.active item
        then [.round ⟨tx + (thumbW - (badgeW + 3)), ty + 3, badgeW, look.fontH + 2⟩] else []
    let limit ← less (b.x + lay.cardW) 8
    some (ground ++ [picture] ++ frame ++ badge ++
      [.textElide (b.x + 8) (ty + thumbH + thumbGap) limit])

def renderCards (look : Look) (lay : Layout) (s : State) (page : ℕ) :
    List (ℕ × ℕ) → Option (List Paint)
  | [] => some []
  | (row, col) :: cells => do
    let card ← renderCard look lay s page row col
    let rest ← renderCards look lay s page cells
    some (card ++ rest)

def cells : List (ℕ × ℕ) :=
  (List.range rows).flatMap fun row => (List.range cols).map fun col => (row, col)

def render (look : Look) (s : State) (w h : ℕ) : Option (List Paint) := do
  let lay := layout look.fontH w h
  let lastPage ← less (pageCount s.walls.length) 1
  let page := min s.page lastPage
  let cards ← renderCards look lay s page cells
  some ([.fill ⟨0, 0, w, h⟩, .ground .float ⟨outer, lay.modeY, lay.btnW, btnH⟩,
    .ground .full ⟨lay.xFull, lay.modeY, lay.btnW, btnH⟩, .fill ⟨outer, lay.dividerY, w - outer * 2,
      1⟩] ++ cards ++ [.ground .prev ⟨outer, lay.navY, navBtnW, navH⟩,
      .ground .next ⟨nextX w, lay.navY, navBtnW, navH⟩])

def clickGrid (lay : Layout) (lx ly : ℕ) (s : State) : Action × State :=
  if ly < lay.gridY0 then (.none, s)
  else
    let relY := ly - lay.gridY0
    let rowPitch := lay.cardH + gridGapY
    let row := relY / rowPitch
    if rows ≤ row ∨ lay.cardH ≤ relY - row * rowPitch then (.none, s)
    else if lx < outer then (.none, s)
    else
      let relX := lx - outer
      let colPitch := lay.cardW + gridGapX
      let col := relX / colPitch
      if cols ≤ col ∨ lay.cardW ≤ relX - col * colPitch then (.none, s)
      else
        let i := s.page * itemsPerPage + row * cols + col
        if s.walls.length ≤ i then (.none, s)
        else
          let s : State := { s with wallSel := i }
          match s.walls[i]? with
          | some .default => (.setWallDefault, s)
          | some (.path p) => (.setWallPath p, s)
          | none => (.none, s)

def clickAt (fontH : ℕ) (lx ly w h : ℕ) (s : State) : Action × State :=
  let lay := layout fontH w h
  if lay.modeY ≤ ly ∧ ly < lay.modeY + btnH then
    if outer ≤ lx ∧ lx < outer + lay.btnW then (.setMode .float, s)
    else if lay.xFull ≤ lx ∧ lx < lay.xFull + lay.btnW then (.setMode .full, s)
    else (.none, s)
  else if lay.navY ≤ ly ∧ ly < lay.navY + navH then
    if outer ≤ lx ∧ lx < outer + navBtnW
      then (.none, if 0 < s.page then { s with page := s.page - 1 } else s)
    else if nextX w ≤ lx ∧ lx < nextX w + navBtnW then
      (.none, if s.page + 1 < pageCount s.walls.length then { s with page := s.page + 1 } else s)
    else (.none, s)
  else clickGrid lay lx ly s

/-- The list of the gallery, after `found` was read, rid of repetitions and sorted. -/
def refresh (found : List WallItem) (cur : WallItem) (s : State) : State :=
  let walls := WallItem.default :: found
  let sel :=
    match walls.findIdx? fun it => it = cur with
    | some pos => pos
    | none => if walls.length ≤ s.wallSel then 0 else s.wallSel
  ⟨walls, sel, min (sel / itemsPerPage) (pageCount walls.length - 1)⟩

def State.select (s : State) (sel : ℕ) : State :=
  { s with wallSel := sel, page := sel / itemsPerPage }

def keyUp : ℕ := 2
def keyDown : ℕ := 3
def keyEnter : ℕ := 4
def keyLeft : ℕ := 8
def keyRight : ℕ := 9

def key (k : ℕ) (s : State) : Action × State :=
  let total := s.walls.length
  if total = 0 then (.none, s)
  else if k = keyLeft then (.none, if 0 < s.wallSel then s.select (s.wallSel - 1) else s)
  else if k = keyRight then (.none, if s.wallSel + 1 < total then s.select (s.wallSel + 1) else s)
  else if k = keyUp then (.none, if cols ≤ s.wallSel then s.select (s.wallSel - cols) else s)
  else if k = keyDown then (.none, if s.wallSel + cols < total then s.select (s.wallSel + cols)
    else s)
  else if k = keyEnter then
    match s.walls[s.wallSel]? with
    | some .default => (.setWallDefault, s)
    | some (.path p) => (.setWallPath p, s)
    | none => (.none, s)
  else (.none, s)

inductive Reachable : State → Prop
  | init : Reachable ⟨[], 0, 0⟩
  | refresh {s : State} (found : List WallItem) (cur : WallItem) :
    Reachable s → Reachable (refresh found cur s)
  | click {s : State} (fontH lx ly w h : ℕ) : Reachable s → Reachable (clickAt fontH lx ly w h s).2
  | key {s : State} (k : ℕ) : Reachable s → Reachable (key k s).2

def Control.act (s : State) : Control → Action × State
  | float => (.setMode .float, s)
  | full => (.setMode .full, s)
  | prev => (.none, if 0 < s.page then { s with page := s.page - 1 } else s)
  | next =>
    (.none, if s.page + 1 < pageCount s.walls.length then { s with page := s.page + 1 } else s)
  | card i =>
    match s.walls[i]? with
    | some .default => (.setWallDefault, { s with wallSel := i })
    | some (.path p) => (.setWallPath p, { s with wallSel := i })
    | none => (.none, s)

def actOn (s : State) : Option Control → Action × State
  | none => (.none, s)
  | some c => c.act s

def Paint.over (x y : ℕ) : Paint → Option Control
  | ground c b => if b.Contains x y then some c else none
  | _ => none

/-- The control whose ground was painted last over a point. -/
def topAt (ps : List Paint) (x y : ℕ) : Option Control :=
  (ps.filterMap fun p => p.over x y).getLast?

namespace Layout

variable (lay : Layout)

def InMode (y : ℕ) : Prop := lay.modeY ≤ y ∧ y < lay.modeY + btnH
def InNav (y : ℕ) : Prop := lay.navY ≤ y ∧ y < lay.navY + navH
def InFloat (x : ℕ) : Prop := outer ≤ x ∧ x < outer + lay.btnW
def InFull (x : ℕ) : Prop := lay.xFull ≤ x ∧ x < lay.xFull + lay.btnW

instance (y : ℕ) : Decidable (lay.InMode y) := inferInstanceAs (Decidable (_ ∧ _))
instance (y : ℕ) : Decidable (lay.InNav y) := inferInstanceAs (Decidable (_ ∧ _))
instance (x : ℕ) : Decidable (lay.InFloat x) := inferInstanceAs (Decidable (_ ∧ _))
instance (x : ℕ) : Decidable (lay.InFull x) := inferInstanceAs (Decidable (_ ∧ _))

def cellAt (x y : ℕ) : Option (ℕ × ℕ) :=
  let row := (y - lay.gridY0) / (lay.cardH + gridGapY)
  let col := (x - outer) / (lay.cardW + gridGapX)
  if lay.gridY0 ≤ y ∧ outer ≤ x ∧ row < rows ∧ y - lay.gridY0 - row * (lay.cardH + gridGapY) <
    lay.cardH ∧ col < cols ∧ x - outer - col * (lay.cardW + gridGapX) < lay.cardW
      then some (row, col)
  else none

end Layout

def InPrev (x : ℕ) : Prop := outer ≤ x ∧ x < outer + navBtnW
def InNext (w x : ℕ) : Prop := nextX w ≤ x ∧ x < nextX w + navBtnW

instance (x : ℕ) : Decidable (InPrev x) := inferInstanceAs (Decidable (_ ∧ _))
instance (w x : ℕ) : Decidable (InNext w x) := inferInstanceAs (Decidable (_ ∧ _))

def State.cardNo (s : State) (cell : ℕ × ℕ) : ℕ := s.page * itemsPerPage + cell.1 * cols + cell.2

def State.cardAt (s : State) (lay : Layout) (x y : ℕ) : Option ℕ :=
  ((lay.cellAt x y).map s.cardNo).filter fun i => i < s.walls.length

section Grid

variable {lay : Layout} {x y row col : ℕ}

theorem pitch_iff {n size gap i : ℕ} (hgap : 0 < gap) :
    (n / (size + gap) = i ∧ n - i * (size + gap) < size) ↔ i * (size + gap) ≤ n ∧
    n < i * (size + gap) + size := by
  have hpos : 0 < size + gap := by omega
  constructor
  · rintro ⟨rfl, h⟩
    have hle := Nat.div_mul_le_self n (size + gap)
    omega
  · rintro ⟨hlow, hhigh⟩
    have hdiv : n / (size + gap) = i := by
      rw [Nat.div_eq_iff hpos]
      omega
    exact ⟨hdiv, by omega⟩

theorem cellAt_eq_some (hrow : row < rows) (hcol : col < cols) :
    lay.cellAt x y = some (row, col) ↔ (lay.cardBox row col).Contains x y := by
  have hy := @pitch_iff (y - lay.gridY0) lay.cardH gridGapY row (by decide)
  have hx := @pitch_iff (x - outer) lay.cardW gridGapX col (by decide)
  simp only [Layout.cellAt, Layout.cardBox, Box.Contains, Option.ite_none_right_eq_some,
    Option.some.injEq, Prod.mk.injEq]
  constructor
  · rintro ⟨⟨hgy, hgx, -, hh, -, hw⟩, hr, hc⟩
    rw [hr] at hh
    rw [hc] at hw
    have hyb := hy.mp ⟨hr, hh⟩
    have hxb := hx.mp ⟨hc, hw⟩
    omega
  · rintro ⟨hx0, hx1, hy0, hy1⟩
    obtain ⟨hr, hh⟩ := hy.mpr ⟨by omega, by omega⟩
    obtain ⟨hc, hw⟩ := hx.mpr ⟨by omega, by omega⟩
    rw [hr, hc]
    exact ⟨⟨by omega, by omega, hrow, hh, hcol, hw⟩, rfl, rfl⟩

theorem mem_cells {cell : ℕ × ℕ} : cell ∈ cells ↔ cell.1 < rows ∧ cell.2 < cols := by
  obtain ⟨row, col⟩ := cell
  simp [cells]

theorem cellAt_mem {cell : ℕ × ℕ} (h : lay.cellAt x y = some cell) : cell ∈ cells := by
  rw [Layout.cellAt] at h
  obtain ⟨⟨-, -, hrow, -, hcol, -⟩, hcell⟩ := Option.ite_none_right_eq_some.mp h
  rw [mem_cells, ← Option.some.inj hcell]
  exact ⟨hrow, hcol⟩

theorem getLast_filter {α : Type} [DecidableEq α] (o : Option α) (xs : List α)
    (h : ∀ a, o = some a → a ∈ xs) : (xs.filter fun a => o = some a).getLast? = o := by
  cases o with
  | none => simp
  | some a =>
    have hcount : 0 < xs.count a := List.count_pos_iff.mpr (h a rfl)
    have hrep : (xs.filter fun b => some a = some b) = List.replicate (xs.count a) a := by
      rw [← List.filter_beq]
      refine List.filter_congr fun b _ => ?_
      rw [Bool.eq_iff_iff, beq_iff_eq, decide_eq_true_iff, Option.some.injEq]
      exact eq_comm
    rw [hrep, List.getLast?_replicate, if_neg (by omega)]

end Grid

section Painted

variable {look : Look} {lay : Layout} {s : State} {x y w h : ℕ}

theorem renderCard_over (hw : 4 ≤ lay.cardW) (hh : 4 ≤ lay.cardH) (row col : ℕ) :
    ∃ ps, renderCard look lay s s.page row col = some ps ∧ ps.filterMap (fun p => p.over x y) =
      if s.cardNo (row, col) < s.walls.length ∧ (lay.cardBox row col).Contains x y
        then [.card (s.cardNo (row, col))] else [] := by
  have hcard : s.page * itemsPerPage + row * cols + col = s.cardNo (row, col) := rfl
  rw [renderCard, hcard]
  cases hitem : s.walls[s.cardNo (row, col)]? with
  | none =>
    refine ⟨[], rfl, ?_⟩
    rw [if_neg fun hlt => absurd (List.getElem?_eq_none_iff.mp hitem) (Nat.not_le_of_lt hlt.1)]
    rfl
  | some item =>
    have hlt : s.cardNo (row, col) < s.walls.length := (List.getElem?_eq_some_iff.mp hitem).1
    have hlimit : 8 ≤ (lay.cardBox row col).x + lay.cardW := by
      have houter : (lay.cardBox row col).x = 14 + col * (lay.cardW + gridGapX) := rfl
      omega
    have hframe :
        ∀ tx ty, ∃ ps, thumbFrame tx ty = some ps ∧ ps.filterMap (fun p => p.over x y) = [] := by
      intro tx ty
      rw [thumbFrame, less_eq (by rw [thumbH]; omega), less_eq (by rw [thumbW]; omega)]
      exact ⟨_, rfl, rfl⟩
    have hground : ∃ ps, cardGround lay s (s.cardNo (row, col)) (lay.cardBox row col) = some ps ∧
        ps.filterMap (fun p => p.over x y) =
          if (lay.cardBox row col).Contains x y then [.card (s.cardNo (row, col))] else [] := by
      rw [cardGround]
      split
      · rw [less_eq hw, less_eq hh]
        refine ⟨_, rfl, ?_⟩
        simp only [List.filterMap_cons, Paint.over]
        split <;> simp_all
      · refine ⟨_, rfl, ?_⟩
        simp only [List.filterMap_cons, Paint.over]
        split <;> simp_all
    dsimp only
    obtain ⟨gs, hgs, hgover⟩ := hground
    obtain ⟨fs, hfs, hfover⟩ := hframe ((lay.cardBox row col).x + (lay.cardW - thumbW) / 2)
      ((lay.cardBox row col).y + (lay.cardH - (thumbH + thumbGap + look.fontH)) / 2)
    rw [hgs, Option.bind_eq_bind, Option.bind_some, hfs, Option.bind_eq_bind, Option.bind_some,
      less_eq hlimit]
    refine ⟨_, rfl, ?_⟩
    rw [List.filterMap_append, List.filterMap_append, List.filterMap_append, List.filterMap_append,
      hgover, hfover]
    have hpicture :
        ∀ b : Bool, ∀ p : Box, (List.filterMap (fun q : Paint => q.over x y) [if b then .blit p
          else .fill p]) = [] := by
      intro b p
      cases b <;> rfl
    have hbadge :
        ∀ b : Bool, ∀ p : Box, (List.filterMap (fun q : Paint => q.over x y) (if b then [.round p]
          else [])) = [] := by
      intro b p
      cases b <;> rfl
    rw [hpicture, hbadge]
    simp [hlt, Paint.over]

theorem renderCards_over (hw : 4 ≤ lay.cardW) (hh : 4 ≤ lay.cardH) (cs : List (ℕ × ℕ)) :
    ∃ ps, renderCards look lay s s.page cs = some ps ∧ ps.filterMap (fun p => p.over x y) =
      (cs.filter fun c => s.cardNo c < s.walls.length ∧ (lay.cardBox c.1 c.2).Contains x y).map
        fun c => .card (s.cardNo c) := by
  induction cs with
  | nil => exact ⟨[], rfl, rfl⟩
  | cons c cs ih =>
    obtain ⟨row, col⟩ := c
    obtain ⟨ps, hps, hover⟩ := ih
    obtain ⟨qs, hqs, hqover⟩ := @renderCard_over look lay s x y hw hh row col
    refine ⟨qs ++ ps, by simp [renderCards, hqs, hps], ?_⟩
    rw [List.filterMap_append, hover, hqover, List.filter_cons]
    by_cases hc : s.cardNo (row, col) < s.walls.length ∧ (lay.cardBox row col).Contains x y
    · simp [hc]
    · simp [hc]

theorem cards_last (hw : 4 ≤ lay.cardW) (hh : 4 ≤ lay.cardH) :
    ∃ ps, renderCards look lay s s.page cells = some ps ∧
      (ps.filterMap fun p => p.over x y).getLast? = (s.cardAt lay x y).map .card := by
  obtain ⟨ps, hps, hover⟩ := @renderCards_over look lay s x y hw hh cells
  refine ⟨ps, hps, ?_⟩
  have hcells :
      (cells.filter fun c => s.cardNo c < s.walls.length ∧ (lay.cardBox c.1 c.2).Contains x y) =
      cells.filter fun c => (lay.cellAt x y).filter (fun d => s.cardNo d < s.walls.length) =
        some c := by
    refine List.filter_congr fun c hc => ?_
    obtain ⟨hrow, hcol⟩ := mem_cells.mp hc
    rw [decide_eq_decide, Option.filter_eq_some_iff, cellAt_eq_some hrow hcol, decide_eq_true_iff]
    exact and_comm
  have hmem : ∀ c, (lay.cellAt x y).filter (fun d => s.cardNo d < s.walls.length) = some c →
      c ∈ cells := by
    intro c hc
    exact cellAt_mem (Option.filter_eq_some_iff.mp hc).1
  rw [hover, hcells, List.getLast?_map, getLast_filter _ _ hmem, State.cardAt]
  cases lay.cellAt x y with
  | none => rfl
  | some c =>
    by_cases hc : s.cardNo c < s.walls.length
    · simp [Option.filter, hc]
    · simp [Option.filter, hc]

theorem topAt_append (ps qs : List Paint) (x y : ℕ) :
    topAt (ps ++ qs) x y = (topAt qs x y).or (topAt ps x y) := by
  simp [topAt, List.filterMap_append, List.getLast?_append]

end Painted

section Runs

variable {s : State}

def Paged (s : State) : Prop := s.wallSel < max s.walls.length 1 ∧ s.page < pageCount s.walls.length

theorem page_lt {sel n : ℕ} (h : sel < max n 1) : sel / itemsPerPage < pageCount n := by
  have hitems : itemsPerPage = 6 := rfl
  rw [pageCount, hitems]
  omega

theorem paged_select {sel : ℕ} (h : sel < s.walls.length) : Paged (s.select sel) := by
  have hsel : sel < max s.walls.length 1 := by omega
  exact ⟨hsel, page_lt hsel⟩

theorem paged_refresh (found : List WallItem) (cur : WallItem) : Paged (refresh found cur s) := by
  have hsel : (refresh found cur s).wallSel < (WallItem.default :: found).length := by
    simp only [refresh]
    split
    · rename_i pos hpos
      exact (List.findIdx?_eq_some_iff_getElem.mp hpos).1
    · split <;> simp_all
  have hmax : (refresh found cur s).wallSel < max (WallItem.default :: found).length 1 := by omega
  have hpage : (refresh found cur s).page ≤ (refresh found cur s).wallSel / itemsPerPage :=
    Nat.min_le_left _ _
  exact ⟨hmax, Nat.lt_of_le_of_lt hpage (page_lt hmax)⟩

theorem paged_click (fontH lx ly w h : ℕ) (hs : Paged s) : Paged (clickAt fontH lx ly w h s).2 := by
  obtain ⟨hsel, hpage⟩ := hs
  have hturn : ∀ p, p < pageCount s.walls.length → Paged { s with page := p } :=
    fun p hp => ⟨hsel, hp⟩
  have hcard : ∀ i, ¬ s.walls.length ≤ i → Paged { s with wallSel := i } :=
    fun i hi => ⟨by simp only; omega, hpage⟩
  simp only [clickAt, clickGrid]
  split_ifs
  all_goals try exact ⟨hsel, hpage⟩
  · exact hturn _ (by omega)
  · exact hturn _ (by assumption)
  · rename_i hin
    split <;> exact hcard _ hin

theorem paged_key (k : ℕ) (hs : Paged s) : Paged (key k s).2 := by
  have hlt := hs.1
  have hcols : cols = 3 := rfl
  simp only [key]
  split_ifs
  all_goals try exact hs
  · exact paged_select (by omega)
  · exact paged_select (by assumption)
  · exact paged_select (by omega)
  · exact paged_select (by assumption)
  · split <;> exact hs

theorem reachable_paged (h : Reachable s) : Paged s := by
  induction h with
  | init => exact ⟨by decide, by decide⟩
  | refresh found cur _ _ => exact paged_refresh found cur
  | click fontH lx ly w h _ ih => exact paged_click fontH lx ly w h ih
  | key k _ ih => exact paged_key k ih

end Runs

section Points

variable {look : Look} {s : State} {fontH x y w h : ℕ}

def paintedAt (lay : Layout) (s : State) (w x y : ℕ) : Option Control :=
  if lay.InNav y ∧ InNext w x then some .next
  else if lay.InNav y ∧ InPrev x then some .prev
  else ((s.cardAt lay x y).map Control.card).or
    (if lay.InMode y ∧ lay.InFull x then some .full else if lay.InMode y ∧ lay.InFloat x
      then some .float else none)

def clickedAt (lay : Layout) (s : State) (w x y : ℕ) : Option Control :=
  if lay.InMode y then if lay.InFloat x then some .float else if lay.InFull x then some .full
    else none
  else if lay.InNav y then if InPrev x then some .prev else if InNext w x then some .next else none
  else (s.cardAt lay x y).map Control.card

theorem cardW_ge (hw : 120 ≤ w) : 4 ≤ (layout fontH w h).cardW := by
  have hcard : (layout fontH w h).cardW = (w - 28 - 24) / 3 := rfl
  omega

theorem cardH_ge : 4 ≤ (layout fontH w h).cardH := by
  have hcard : (layout fontH w h).cardH =
    min (max (((layout fontH w h).navY - (layout fontH w h).gridY0 - 12 - 12) / 2) 96) 132 := rfl
  omega

theorem row_contains {bx by' bw bh : ℕ} :
    Box.Contains ⟨bx, by', bw, bh⟩ x y ↔ (by' ≤ y ∧ y < by' + bh) ∧ bx ≤ x ∧ x < bx + bw := by
  simp only [Box.Contains]
  tauto

theorem topAt_pair (c d : Control) (a b : Box) :
    topAt [.ground c a, .ground d b] x y = if b.Contains x y then some d else if a.Contains x y
      then some c else none := by
  by_cases ha : a.Contains x y <;> by_cases hb : b.Contains x y <;> simp [topAt, Paint.over, ha, hb]

theorem nav_top (lay : Layout) :
    topAt [.ground .prev ⟨outer, lay.navY, navBtnW, navH⟩,
      .ground .next ⟨nextX w, lay.navY, navBtnW, navH⟩] x y = if lay.InNav y ∧ InNext w x
        then some .next else if lay.InNav y ∧ InPrev x then some .prev else none := by
  have hnext : Box.Contains ⟨nextX w, lay.navY, navBtnW, navH⟩ x y ↔ lay.InNav y ∧ InNext w x :=
    row_contains
  have hprev : Box.Contains ⟨outer, lay.navY, navBtnW, navH⟩ x y ↔ lay.InNav y ∧ InPrev x :=
    row_contains
  rw [topAt_pair]
  simp only [hnext, hprev]

theorem mode_top (lay : Layout) (a b : Box) :
    topAt [.fill a, .ground .float ⟨outer, lay.modeY, lay.btnW, btnH⟩,
      .ground .full ⟨lay.xFull, lay.modeY, lay.btnW, btnH⟩, .fill b] x y =
      if lay.InMode y ∧ lay.InFull x then some .full else if lay.InMode y ∧ lay.InFloat x
        then some .float else none := by
  have hfull : Box.Contains ⟨lay.xFull, lay.modeY, lay.btnW, btnH⟩ x y ↔
      lay.InMode y ∧ lay.InFull x := row_contains
  have hfloat : Box.Contains ⟨outer, lay.modeY, lay.btnW, btnH⟩ x y ↔
      lay.InMode y ∧ lay.InFloat x := row_contains
  have hpair :
      topAt [.fill a, .ground .float ⟨outer, lay.modeY, lay.btnW, btnH⟩,
        .ground .full ⟨lay.xFull, lay.modeY, lay.btnW, btnH⟩, .fill b] x y =
    topAt [.ground .float ⟨outer, lay.modeY, lay.btnW, btnH⟩,
      .ground .full ⟨lay.xFull, lay.modeY, lay.btnW, btnH⟩] x y := rfl
  rw [hpair, topAt_pair]
  simp only [hfull, hfloat]

theorem render_top (hs : Paged s) (hw : 120 ≤ w) :
    ∃ ps, render look s w h = some ps ∧ topAt ps x y = paintedAt (layout look.fontH w h)
      s w x y := by
  have hpages : 1 ≤ pageCount s.walls.length := Nat.le_max_right _ _
  have hpage : min s.page (pageCount s.walls.length - 1) = s.page := by
    have hlt := hs.2
    omega
  obtain ⟨ps, hps, hlast⟩ := @cards_last look (layout look.fontH w h) s x y (cardW_ge hw) cardH_ge
  have htop : topAt ps x y = (s.cardAt (layout look.fontH w h) x y).map .card := hlast
  rw [render, less_eq hpages, Option.bind_eq_bind, Option.bind_some, hpage]
  dsimp only
  rw [hps, Option.bind_eq_bind, Option.bind_some]
  refine ⟨_, rfl, ?_⟩
  rw [topAt_append, topAt_append, htop, nav_top, mode_top, paintedAt]
  by_cases hn : (layout look.fontH w h).InNav y ∧ InNext w x
  · simp only [if_pos hn, Option.some_or]
  · by_cases hp : (layout look.fontH w h).InNav y ∧ InPrev x
    · simp only [if_neg hn, if_pos hp, Option.some_or]
    · simp only [if_neg hn, if_neg hp, Option.none_or]

theorem cardAt_above {lay : Layout} (h : y < lay.gridY0) : s.cardAt lay x y = none := by
  have habove : ¬ lay.gridY0 ≤ y := by omega
  rw [State.cardAt, Layout.cellAt, if_neg fun hcell => habove hcell.1]
  rfl

theorem clickGrid_eq (lay : Layout) :
    clickGrid lay x y s = actOn s ((s.cardAt lay x y).map Control.card) := by
  rw [clickGrid, State.cardAt, Layout.cellAt]
  dsimp only
  split_ifs
  all_goals try omega
  all_goals try rfl
  · rename_i hout _
    rw [Option.map_some, Option.filter_some_neg (by exact decide_eq_false (Nat.not_lt_of_le hout))]
    rfl
  · rename_i hin _
    rw [Option.map_some, Option.filter_some_pos (by exact decide_eq_true (Nat.lt_of_not_le hin)),
      Option.map_some, actOn, Control.act]
    dsimp only [State.cardNo]
    split <;> simp_all

theorem clickAt_eq : clickAt fontH x y w h s = actOn s (clickedAt (layout fontH w h) s w x y) := by
  simp only [clickedAt, apply_ite (actOn s)]
  refine ite_congr rfl (fun _ => ?mode) fun _ => ite_congr rfl (fun _ => ?nav) fun _ =>
    clickGrid_eq _
  case mode => exact ite_congr rfl (fun _ => rfl) fun _ => ite_congr rfl (fun _ => rfl) fun _ => rfl
  case nav => exact ite_congr rfl (fun _ => rfl) fun _ => ite_congr rfl (fun _ => rfl) fun _ => rfl

theorem mode_above (hy : (layout fontH w h).InMode y) : y < (layout fontH w h).gridY0 := by
  have hgrid :
      (layout fontH w h).gridY0 = (layout fontH w h).modeY + 24 + 14 + 1 + 14 + fontH + 10 := rfl
  have hbtn : btnH = 24 := rfl
  have hlt := hy.2
  omega

theorem float_not_full {lay : Layout} (hfull : lay.InFull x) : ¬ lay.InFloat x := by
  intro hfloat
  have hx : lay.xFull = outer + lay.btnW + gridGapX := rfl
  have hgap : gridGapX = 12 := rfl
  have hlow := hfull.1
  have hhigh := hfloat.2
  omega

/-- Where the row of the mode buttons, the navigation bar and the cards do not get in each other's
way. -/
def Undisturbed (lay : Layout) (s : State) (w x y : ℕ) : Prop :=
  (lay.InMode y → lay.InNav y → InNext w x → ¬ lay.InFloat x ∧ ¬ lay.InFull x ∧
    pageCount s.walls.length ≤ s.page + 1) ∧
  (lay.InMode y → lay.InNav y → InPrev x → ¬ InNext w x → ¬ lay.InFloat x ∧ ¬ lay.InFull x ∧
    s.page = 0) ∧
  (¬ lay.InMode y → lay.InNav y → InPrev x → InNext w x → pageCount s.walls.length = 1) ∧
  (¬ lay.InMode y → lay.InNav y → ¬ InPrev x → ¬ InNext w x → s.cardAt lay x y = none)

theorem next_idle_iff : (if s.page + 1 < pageCount s.walls.length then { s with page := s.page + 1 }
    else s) = s ↔ pageCount s.walls.length ≤ s.page + 1 := by
  split
  · rename_i hlt
    have hne : ({ s with page := s.page + 1 } : State) ≠ s :=
      fun heq => absurd (congrArg State.page heq) (Nat.succ_ne_self _)
    exact iff_of_false hne (by omega)
  · exact iff_of_true rfl (by omega)

theorem prev_idle_iff : (if 0 < s.page then { s with page := s.page - 1 } else s) = s ↔
    s.page = 0 := by
  split
  · rename_i hlt
    have hne : ({ s with page := s.page - 1 } : State) ≠ s := by
      intro heq
      have hpage : s.page - 1 = s.page := congrArg State.page heq
      omega
    exact iff_of_false hne (by omega)
  · exact iff_of_true rfl (by omega)

theorem prev_eq_next_iff (hs : Paged s) :
    Control.prev.act s = Control.next.act s ↔ pageCount s.walls.length = 1 := by
  have hlt := hs.2
  constructor
  · intro heq
    have hpage := congrArg (fun r => r.2.page) heq
    simp only [Control.act, apply_ite State.page] at hpage
    split_ifs at hpage <;> omega
  · intro hone
    have hprev := prev_idle_iff.mpr (show s.page = 0 by omega)
    have hnext := next_idle_iff.mpr (show pageCount s.walls.length ≤ s.page + 1 by omega)
    rw [Control.act, Control.act, hprev, hnext]

theorem mode_order (lay : Layout) :
    (if lay.InFull x then some Control.full else if lay.InFloat x then some .float else none) =
    if lay.InFloat x then some .float else if lay.InFull x then some .full else none := by
  by_cases hfull : lay.InFull x
  · simp [hfull, float_not_full hfull]
  · simp [hfull]

theorem mode_turns_iff (lay : Layout) (t : State) :
    actOn s (if lay.InFloat x then some .float else if lay.InFull x then some .full else none) =
      (.none, t) ↔ ¬ lay.InFloat x ∧ ¬ lay.InFull x ∧ t = s := by
  by_cases hfloat : lay.InFloat x
  · simp [hfloat, actOn, Control.act]
  · by_cases hfull : lay.InFull x
    · simp [hfloat, hfull, actOn, Control.act]
    · simp [hfloat, hfull, actOn, eq_comm]

theorem card_acts {lay : Layout} {i : ℕ} (hi : s.cardAt lay x y = some i) :
    (Control.act s (.card i)).1 ≠ .none := by
  have hlt : i < s.walls.length := by simpa using (Option.filter_eq_some_iff.mp hi).2
  simp only [Control.act, List.getElem?_eq_getElem hlt]
  cases s.walls[i] <;> simp

theorem acts_alike_iff (hs : Paged s) :
    actOn s (clickedAt (layout fontH w h) s w x y) =
      actOn s (paintedAt (layout fontH w h) s w x y) ↔ Undisturbed (layout fontH w h) s w x y := by
  have habove : (layout fontH w h).InMode y → s.cardAt (layout fontH w h) x y = none :=
    fun hm => cardAt_above (mode_above hm)
  generalize layout fontH w h = lay at habove
  rw [Undisturbed, clickedAt, paintedAt]
  by_cases hm : lay.InMode y
  · by_cases hn : lay.InNav y
    · by_cases hx : InNext w x
      · simp only [hm, hn, hx, if_true, true_and, forall_const, not_true_eq_false,
          IsEmpty.forall_iff, implies_true, and_true]
        exact (mode_turns_iff lay _).trans (and_congr_right fun _ => and_congr_right fun _ =>
          next_idle_iff)
      · by_cases hp : InPrev x
        · simp only [hm, hn, hx, hp, if_true, if_false, and_false, true_and, forall_const,
            not_true_eq_false, not_false_eq_true, IsEmpty.forall_iff, and_true]
          exact (mode_turns_iff lay _).trans (and_congr_right fun _ => and_congr_right fun _ =>
            prev_idle_iff)
        · simp [hm, hn, hx, hp, habove hm, mode_order]
    · simp [hm, hn, habove hm, mode_order]
  · by_cases hn : lay.InNav y
    · by_cases hx : InNext w x
      · by_cases hp : InPrev x
        · simp only [hm, hn, hx, hp, if_true, if_false, and_self, true_and, forall_const,
            not_true_eq_false, not_false_eq_true, IsEmpty.forall_iff, and_true]
          exact prev_eq_next_iff hs
        · simp [hm, hn, hx, hp]
      · by_cases hp : InPrev x
        · simp [hm, hn, hx, hp]
        · simp only [hm, hn, hx, hp, if_true, if_false, and_false, true_and, forall_const,
            not_false_eq_true, IsEmpty.forall_iff, false_and, Option.or_none]
          cases hcard : s.cardAt lay x y with
          | none => exact iff_of_true rfl rfl
          | some i =>
            have hacts : actOn s none ≠ actOn s (some (.card i)) :=
              fun heq => card_acts hcard (congrArg Prod.fst heq).symm
            exact iff_of_false hacts (Option.some_ne_none i)
    · simp [hm, hn]

/-- In every reachable state the painting goes through, and a click does what the control on top is
there for just where nothing gets in its way. -/
theorem click_acts_on_top_iff (hs : Reachable s) (hw : 120 ≤ w) :
    ∃ ps, render look s w h = some ps ∧
      (clickAt look.fontH x y w h s = actOn s (topAt ps x y) ↔
        Undisturbed (layout look.fontH w h) s w x y) := by
  obtain ⟨ps, hps, htop⟩ := @render_top look s x y w h (reachable_paged hs) hw
  refine ⟨ps, hps, ?_⟩
  rw [htop, clickAt_eq]
  exact acts_alike_iff (reachable_paged hs)

def seven : State :=
  refresh [.path "1", .path "2", .path "3", .path "4", .path "5", .path "6"] .default ⟨[], 0, 0⟩

def plain : Look := ⟨18, (3, 45), fun _ => true, fun it => it = .default⟩

theorem click_acts_on_top_seven : ∃ ps, render plain seven 200 400 = some ps ∧
    (clickAt 18 20 370 200 400 seven = actOn seven (topAt ps 20 370) ↔
      Undisturbed (layout 18 200 400) seven 200 20 370) :=
  click_acts_on_top_iff (.refresh _ _ .init) (by decide)

/-- On a narrow window the button for the next page is painted over that for the previous one, and
the click goes to the one below. -/
theorem click_misses_next :
    Reachable seven ∧ (render plain seven 200 400).map (fun ps => topAt ps 100 370) =
      some (some .next) ∧ clickAt 18 100 370 200 400 seven = (.none, seven) ∧
      Control.next.act seven = (.none, { seven with page := 1 }) ∧ seven.page = 0 :=
  ⟨.refresh _ _ .init, by decide, by decide, by decide, by decide⟩

theorem undisturbed_of_room (hw : 228 ≤ w)
    (hh : (layout fontH w h).gridY0 + 216 ≤ (layout fontH w h).navY) :
    Undisturbed (layout fontH w h) s w x y := by
  have hgrid :
      (layout fontH w h).gridY0 = (layout fontH w h).modeY + 24 + 14 + 1 + 14 + fontH + 10 := rfl
  have hcard : (layout fontH w h).cardH =
    min (max (((layout fontH w h).navY - (layout fontH w h).gridY0 - 12 - 12) / 2) 96) 132 := rfl
  generalize layout fontH w h = lay at hh hgrid hcard
  have hrows : ¬ (lay.InMode y ∧ lay.InNav y) := by
    rintro ⟨⟨-, hmode⟩, hnav, -⟩
    have hbtn : btnH = 24 := rfl
    omega
  have hbuttons : ¬ (InPrev x ∧ InNext w x) := by
    rintro ⟨⟨-, hprev⟩, hnext, -⟩
    have hx : nextX w = w - 114 := rfl
    have hprev' : x < 114 := hprev
    omega
  have hbelow : lay.InNav y → s.cardAt lay x y = none := by
    intro hnav
    rw [State.cardAt]
    cases hcell : lay.cellAt x y with
    | none => rfl
    | some cell =>
      obtain ⟨hrow, hcol⟩ := mem_cells.mp (cellAt_mem hcell)
      obtain ⟨-, -, -, hy⟩ := (cellAt_eq_some hrow hcol).mp hcell
      have hbox : y < lay.gridY0 + cell.1 * (lay.cardH + 12) + lay.cardH := hy
      have hone : cell.1 * (lay.cardH + 12) ≤ 1 * (lay.cardH + 12) :=
        Nat.mul_le_mul_right _ (Nat.le_of_lt_succ hrow)
      have hlow := hnav.1
      omega
  exact ⟨fun hm hn => absurd ⟨hm, hn⟩ hrows, fun hm hn => absurd ⟨hm, hn⟩ hrows,
    fun _ _ hp hx => absurd ⟨hp, hx⟩ hbuttons, fun _ hn _ _ => hbelow hn⟩

end Points

end CoeleoOs.Ui.Deskset
