import CoeleoOs.Ui.Damage
import CoeleoOs.Ui.Draw
import CoeleoOs.Ui.Glyphs

/-!
# The cursor over the scene

The compositor paints into a scene buffer, notes what it painted, and copies the noted rectangles
to the framebuffer when it draws the cursor. The sprite is painted on the framebuffer alone, and
where it was is copied again before it is painted elsewhere.
-/

namespace CoeleoOs.Ui.Cursor
open CoeleoOs.Lib Pixel
open CoeleoOs.Ui.Rect

abbrev Pixels := ℕ × ℕ → Color

def cursorW : ℕ := 16
def cursorH : ℕ := 20

def rows : List (BitVec 16) :=
  [0b1000000000000000, 0b1100000000000000, 0b1110000000000000, 0b1111000000000000,
    0b1111100000000000, 0b1111110000000000, 0b1111111000000000, 0b1111111100000000,
    0b1111111110000000, 0b1111111111000000, 0b1111111000000000, 0b1110111000000000,
    0b1100011100000000, 0b1000011100000000, 0b0000001110000000, 0b0000001110000000,
    0b0000000111000000, 0b0000000111000000, 0b0000000011100000, 0b0000000011100000]

def bit (row col : ℕ) : Bool := (rows.getD row 0).getLsbD (cursorW - 1 - col)

def filled (row col : ℤ) : Bool :=
  if row < 0 ∨ col < 0 ∨ cursorH ≤ row ∨ cursorW ≤ col then false else bit row.toNat col.toNat

def isEdge (row col : ℕ) : Bool :=
  filled row col && (!filled row (col - 1) || !filled row (col + 1) || !filled (row - 1) col ||
    !filled (row + 1) col)

def spriteColor (row col : ℕ) : Color := if isEdge row col then Theme.shadow else Theme.text

def putI (t : DrawTarget) (x y : ℤ) (color : Color) : Paint :=
  if x < 0 ∨ y < 0 then skip else put t x.toNat y.toNat color

def paintSprite (t : DrawTarget) (cx cy : ℤ) : Paint :=
  range 0 cursorH fun row => range 0 cursorW fun col =>
    if bit row col then putI t (cx + col) (cy + row) (spriteColor row col) else skip

variable (scr : Screen)

def tgt : DrawTarget := ⟨scr.w, scr.h⟩

def copyRow (scene : Pixels) (clip : Rect) (y : ℕ) : Paint :=
  fun fb p => if p.2 = y ∧ clip.x0 ≤ p.1 ∧ p.1 < clip.x1 then scene p else fb p

def flushDamage (scene : Pixels) (clip : Rect) : Paint :=
  let clip := clip.intersect (fbRect scr)
  if clip.IsEmpty then skip else range clip.y0 clip.y1 (copyRow scene clip)

/-- The two buffers, the table of damage, and the cursor. -/
structure State where
  scene : Pixels
  fb : Pixels
  table : Table
  cursorOld : Rect
  cx : ℤ
  cy : ℤ
  drawn : Bool

def State.cursorRect (s : State) : Rect :=
  let x0 := (max s.cx 0).toNat
  let y0 := (max s.cy 0).toNat
  ⟨x0, y0, min (x0 + cursorW) scr.w, min (y0 + cursorH) scr.h⟩

def State.undrawCursor (s : State) : State :=
  if s.drawn then { s with cursorOld := s.cursorRect scr, drawn := false } else s

def State.flushPending (s : State) : State :=
  { s with
    fb := each s.table.pending (flushDamage scr s.scene) s.fb, table := s.table.step scr .flush }

def State.flush (s : State) (clip : Rect) : State :=
  { s with fb := flushDamage scr s.scene clip s.fb }

def State.sprite (s : State) : State := { s with fb := paintSprite (tgt scr) s.cx s.cy s.fb }

def State.drawCursor (s : State) : State :=
  let had := s.table.pending ≠ []
  let s := s.flushPending scr
  if s.drawn = false then
    let s :=
      if s.cursorOld.IsEmpty then s else { s.flush scr s.cursorOld with cursorOld := Rect.empty }
    { (s.flush scr (s.cursorRect scr)).sprite scr with drawn := true }
  else if ¬had then s
  else (s.flush scr (s.cursorRect scr)).sprite scr

/-- What the compositor does between two frames: it paints some of the scene and notes where, or
takes the cursor away to move it, or draws it. -/
inductive Act
  | present (mode : PanelMode) (paint : Paint) (clip : Rect)
  | undraw
  | move (dx dy : ℤ)
  | draw

def confined (paint : Paint) (clip : Rect) : Paint :=
  fun scene p => if clip.Mem p then paint scene p else scene p

def clampTo (n : ℕ) (x : ℤ) : ℤ := max 0 (min x ((n - 1 : ℕ) : ℤ))

def State.act (s : State) : Act → State
  | .present mode paint clip =>
    { s with scene := confined paint clip s.scene, table := s.table.step scr (.note mode clip) }
  | .undraw => s.undrawCursor scr
  | .move dx dy =>
    let s := s.undrawCursor scr
    { s with cx := clampTo scr.w (s.cx + dx), cy := clampTo scr.h (s.cy + dy) }
  | .draw => s.drawCursor scr

/-- The first frame: the work area and the panel are noted. -/
def start (mode : PanelMode) (scene fb : Pixels) : State :=
  { scene := scene
    fb := fb
    table :=
  Table.run scr [.note mode ⟨0, 0, scr.w, workH scr mode⟩, .note mode (strutRect scr mode)]
    cursorOld := Rect.empty
    cx := 56
    cy := 56
    drawn := false }

def State.run (s : State) (acts : List Act) : State := acts.foldl (State.act scr) s

def State.spriteAt (s : State) (p : ℕ × ℕ) : Option Color :=
  let col : ℤ := p.1 - s.cx
  let row : ℤ := p.2 - s.cy
  if filled row col then some (spriteColor row.toNat col.toNat) else none

/-- What should be seen: the sprite over the scene. -/
def State.shown (s : State) (p : ℕ × ℕ) : Color := (s.spriteAt p).getD (s.scene p)

section Copies
variable {scr} {scene fb : Pixels} {clip : Rect} {p : ℕ × ℕ}

theorem fbRect_mem : (fbRect scr).Mem p ↔ (tgt scr).Has p := by
  simp [fbRect, Rect.Contains, DrawTarget.Has, tgt]

theorem flushDamage_apply (hp : (tgt scr).Has p) :
    flushDamage scr scene clip fb p = if clip.Mem p then scene p else fb p := by
  have hmem : (clip.intersect (fbRect scr)).Mem p ↔ clip.Mem p := by
    rw [Rect.Mem, contains_intersect, and_iff_left (fbRect_mem.mpr hp)]
  rw [flushDamage]
  by_cases hempty : (clip.intersect (fbRect scr)).IsEmpty
  · have hout : ¬clip.Mem p := fun hc => not_isEmpty_iff.mpr ⟨p.1, p.2, hmem.mpr hc⟩ hempty
    rw [if_pos hempty, if_neg hout, skip_apply]
  · rw [if_neg hempty, range_slices Prod.snd fun p c =>
      if (clip.intersect (fbRect scr)).x0 ≤ p.1 ∧ p.1 < (clip.intersect (fbRect scr)).x1
        then scene p else c]
    · rw [← ite_and]
      refine if_congr ?_ rfl rfl
      rw [← hmem, Rect.Mem, Rect.Contains]
      tauto
    · intro i s q _ hq
      simp only [copyRow, hq, true_and]
    · intro i s q _ hq
      simp only [copyRow, hq, false_and, if_false]

instance (l : List Rect) (x y : ℕ) : Decidable (Covered l x y) :=
  inferInstanceAs (Decidable (∃ r ∈ l, r.Contains x y))

theorem flushAll_apply (hp : (tgt scr).Has p) (rects : List Rect) :
    each rects (flushDamage scr scene) fb p = if Covered rects p.1 p.2 then scene p else fb p :=
  each_apply (G := fun _ => scene p) (M := fun r : Rect => r.Mem p) (fun _ => rfl)
    (fun _ _ _ => flushDamage_apply hp) fb

def offset (n : ℕ) (at0 : ℤ) (x : ℕ) : ℕ := if (x : ℤ) < at0 then n else ((x : ℤ) - at0).toNat

theorem offset_eq {n i : ℕ} {at0 : ℤ} {x : ℕ} (hi : i < n) :
    offset n at0 x = i ↔ (x : ℤ) = at0 + i := by
  rw [offset]
  split
  · omega
  · omega

theorem put_apply (x y : ℕ) (color : Color) (fb : Pixels) (p : ℕ × ℕ) :
    put (tgt scr) x y color fb p = if (tgt scr).Has p ∧ p = (x, y) then color else fb p := by
  rw [put]
  by_cases hp : p = (x, y)
  · subst hp
    simp only [and_true, DrawTarget.Has]
    split
    · exact alter_self ..
    · rfl
  · have hnot : ¬((tgt scr).Has p ∧ p = (x, y)) := fun h => hp h.2
    rw [if_neg hnot]
    split
    · exact alter_of_ne hp ..
    · rfl

theorem putI_apply {x y : ℤ} {color : Color} (fb : Pixels) (p : ℕ × ℕ) :
    putI (tgt scr) x y color fb p = if (tgt scr).Has p ∧ (p.1 : ℤ) = x ∧ (p.2 : ℤ) = y then color
      else fb p := by
  rw [putI]
  by_cases hneg : x < 0 ∨ y < 0
  · rw [if_pos hneg, skip_apply, if_neg (by omega)]
  · rw [if_neg hneg, put_apply]
    refine if_congr (and_congr_right fun _ => ?_) rfl rfl
    rw [Prod.ext_iff]
    omega

def rowPixel (scr : Screen) (row : ℕ) (cx y : ℤ) (p : ℕ × ℕ) (c : Color) : Color :=
  let col := offset cursorW cx p.1
  if (tgt scr).Has p ∧ (p.2 : ℤ) = y ∧ bit row col = true then spriteColor row col else c

theorem spriteRow_apply {row : ℕ} {cx y : ℤ} (fb : Pixels) (p : ℕ × ℕ) :
    range 0 cursorW (fun col => if bit row col
      then putI (tgt scr) (cx + col) y (spriteColor row col) else skip) fb p =
      if offset cursorW cx p.1 < cursorW then rowPixel scr row cx y p (fb p) else fb p := by
  rw [range_slices (fun q => offset cursorW cx q.1) (rowPixel scr row cx y)]
  · simp only [Nat.zero_le, true_and]
  · intro col s q hcol hoff
    have hx := (offset_eq hcol).mp hoff
    rw [rowPixel, hoff]
    by_cases hbit : bit row col = true
    · rw [if_pos hbit, putI_apply]
      simp only [hx, hbit, true_and, and_true]
    · rw [if_neg hbit, skip_apply, if_neg fun h => hbit h.2.2]
  · intro col s q hcol hoff
    have hx := mt (offset_eq hcol).mpr hoff
    split
    · rw [putI_apply, if_neg fun h => hx h.2.1]
    · rfl

theorem filled_natCast {row col : ℕ} (hrow : row < cursorH) (hcol : col < cursorW) :
    filled row col = bit row col := by
  rw [filled, if_neg (by omega)]
  simp only [Int.toNat_natCast]

theorem paintSprite_apply {s : State} (hp : (tgt scr).Has p) (fb : Pixels) :
    paintSprite (tgt scr) s.cx s.cy fb p = (s.spriteAt p).getD (fb p) := by
  rw [paintSprite, range_slices (fun q => offset cursorH s.cy q.2) fun q c =>
    if offset cursorW s.cx q.1 < cursorW then
      rowPixel scr (offset cursorH s.cy q.2) s.cx (s.cy + offset cursorH s.cy q.2) q c else c]
  · rw [State.spriteAt]
    by_cases hin : offset cursorW s.cx p.1 < cursorW ∧ offset cursorH s.cy p.2 < cursorH
    · obtain ⟨hcol, hrow⟩ := hin
      have hx := (offset_eq hcol).mp rfl
      have hy := (offset_eq hrow).mp rfl
      have hcol' : (p.1 : ℤ) - s.cx = offset cursorW s.cx p.1 := by omega
      have hrow' : (p.2 : ℤ) - s.cy = offset cursorH s.cy p.2 := by omega
      rw [if_pos ⟨Nat.zero_le _, hrow⟩, if_pos hcol, rowPixel]
      simp only [hcol', hrow', filled_natCast hrow hcol, Int.toNat_natCast, hp, ← hy, true_and]
      split
      · rfl
      · rfl
    · have hout : filled ((p.2 : ℤ) - s.cy) ((p.1 : ℤ) - s.cx) = false := by
        rw [filled, if_pos]
        simp only [offset] at hin
        split at hin
        · omega
        · split at hin
          · omega
          · omega
      rw [hout, if_neg Bool.false_ne_true, Option.getD_none]
      split
      · next hrow => rw [if_neg fun hcol => hin ⟨hcol, hrow.2⟩]
      · rfl
  · intro row fb q hrow hoff
    rw [spriteRow_apply, hoff]
  · intro row fb q hrow hoff
    have hy := mt (offset_eq hrow).mpr hoff
    rw [spriteRow_apply]
    split
    · rw [rowPixel, if_neg fun h => hy h.2.1]
    · rfl

theorem spriteAt_mem {s : State} {c : Color} (hp : (tgt scr).Has p) (h : s.spriteAt p = some c) :
    (s.cursorRect scr).Mem p := by
  obtain ⟨px, py⟩ := p
  obtain ⟨hx, hy⟩ := hp
  have hfilled : filled ((py : ℤ) - s.cy) ((px : ℤ) - s.cx) = true := by
    by_contra hnot
    rw [State.spriteAt, if_neg hnot] at h
    cases h
  rw [filled] at hfilled
  split at hfilled
  · cases hfilled
  · simp only [tgt, cursorW, cursorH] at *
    simp only [State.cursorRect, Rect.Contains, cursorW, cursorH]
    omega

end Copies

section Frames
variable {scr} {s : State} {p : ℕ × ℕ}

/-- Away from the damage the framebuffer shows the scene, under the sprite if that is drawn. The
place that the cursor has left is yet to be copied. -/
structure State.Synced (scr : Screen) (s : State) : Prop where
  good : Good scr s.table.pending
  drawn : s.drawn = true → ∀ p, (tgt scr).Has p → ¬Covered s.table.pending p.1 p.2 →
    s.fb p = s.shown p
  away : s.drawn = false → ∀ p, (tgt scr).Has p → ¬Covered s.table.pending p.1 p.2 →
    ¬s.cursorOld.Mem p → s.fb p = s.scene p

theorem undraw_synced (h : s.Synced scr) :
    (s.undrawCursor scr).Synced scr ∧ (s.undrawCursor scr).drawn = false := by
  rw [State.undrawCursor]
  split
  · next hdrawn =>
    refine ⟨⟨h.good, fun h => absurd h Bool.false_ne_true, ?_⟩, rfl⟩
    intro _ p hp hcov hold
    have hshown := h.drawn hdrawn p hp hcov
    cases hsprite : s.spriteAt p with
    | some c => exact absurd (spriteAt_mem hp hsprite) hold
    | none => rwa [State.shown, hsprite] at hshown
  · next hdrawn => exact ⟨h, Bool.eq_false_iff.mpr hdrawn⟩

theorem note_covered {l : List Rect} {r : Rect} (hg : Good scr l) (mode : PanelMode)
    (hp : (tgt scr).Has p) (h : Covered l p.1 p.2 ∨ r.Mem p) :
    Covered (note scr mode l r).1 p.1 p.2 := by
  by_cases hempty : (r.intersect (fbRect scr)).IsEmpty
  · rw [note_of_isEmpty mode hempty]
    refine h.resolve_right fun hr => not_isEmpty_iff.mpr ⟨p.1, p.2, ?_⟩ hempty
    exact contains_intersect.mpr ⟨hr, fbRect_mem.mpr hp⟩
  · refine (note_spec mode hg hempty).2.2.covered ?_
    rcases h with h | h
    · exact h.of_mem fun q hq => List.mem_cons_of_mem _ hq
    · exact ⟨_, List.mem_cons_self .., contains_intersect.mpr ⟨h, fbRect_mem.mpr hp⟩⟩

theorem note_good {l : List Rect} {r : Rect} (hg : Good scr l) (mode : PanelMode) :
    Good scr (note scr mode l r).1 := by
  by_cases hempty : (r.intersect (fbRect scr)).IsEmpty
  · rw [note_of_isEmpty mode hempty]
    exact hg
  · exact (note_spec mode hg hempty).2.1

theorem present_synced (h : s.Synced scr) (mode : PanelMode) (paint : Paint) (clip : Rect) :
    (s.act scr (.present mode paint clip)).Synced scr := by
  have hscene : ∀ p, (tgt scr).Has p → ¬Covered (note scr mode s.table.pending clip).1 p.1 p.2 →
      ¬Covered s.table.pending p.1 p.2 ∧ confined paint clip s.scene p = s.scene p := by
    intro p hp hcov
    refine ⟨fun hold => hcov (note_covered h.good mode hp (.inl hold)), ?_⟩
    exact if_neg fun hclip => hcov (note_covered h.good mode hp (.inr hclip))
  refine ⟨note_good h.good mode, ?_, ?_⟩
  · intro hdrawn p hp hcov
    obtain ⟨hold, hsame⟩ := hscene p hp hcov
    rw [State.shown]
    exact (h.drawn hdrawn p hp hold).trans (congrArg (s.spriteAt p).getD hsame.symm)
  · intro hdrawn p hp hcov hout
    obtain ⟨hold, hsame⟩ := hscene p hp hcov
    exact (h.away hdrawn p hp hold hout).trans hsame.symm

/-- After a draw there is no damage, the cursor is drawn, and the scene and the cursor are as
before. -/
structure Drawn (scr : Screen) (s s' : State) : Prop where
  pending : s'.table.pending = []
  drawn : s'.drawn = true
  scene : s'.scene = s.scene
  cx : s'.cx = s.cx
  cy : s'.cy = s.cy
  shown : ∀ p, (tgt scr).Has p → s'.fb p = s.shown p

theorem sprite_shown {fb : Pixels} (hp : (tgt scr).Has p)
    (hfb : ¬(s.cursorRect scr).Mem p → fb p = s.scene p) :
    paintSprite (tgt scr) s.cx s.cy (flushDamage scr s.scene (s.cursorRect scr) fb) p =
      s.shown p := by
  rw [paintSprite_apply hp, flushDamage_apply hp, State.shown]
  by_cases hin : (s.cursorRect scr).Mem p
  · rw [if_pos hin]
  · rw [if_neg hin, hfb hin]

theorem flushPending_fb (hp : (tgt scr).Has p) :
    (s.flushPending scr).fb p = if Covered s.table.pending p.1 p.2 then s.scene p else s.fb p :=
  flushAll_apply hp _

theorem draw_away (h : s.Synced scr) (haway : s.drawn = false) :
    Drawn scr s (s.drawCursor scr) := by
  have hpending :
      ∀ p, (tgt scr).Has p → ¬s.cursorOld.Mem p → (s.flushPending scr).fb p = s.scene p := by
    intro p hp hout
    rw [flushPending_fb hp]
    split
    · rfl
    · next hcov => exact h.away haway p hp hcov hout
  have hflushed : (s.flushPending scr).drawn = false := haway
  rw [State.drawCursor]
  simp only [hflushed, if_true]
  by_cases hempty : s.cursorOld.IsEmpty
  · have hempty' : (s.flushPending scr).cursorOld.IsEmpty := hempty
    rw [if_pos hempty']
    refine ⟨rfl, rfl, rfl, rfl, rfl, fun p hp => sprite_shown hp fun _ => hpending p hp ?_⟩
    exact fun hin => not_isEmpty_iff.mpr ⟨p.1, p.2, hin⟩ hempty
  · have hempty' : ¬(s.flushPending scr).cursorOld.IsEmpty := hempty
    rw [if_neg hempty']
    refine ⟨rfl, rfl, rfl, rfl, rfl, fun p hp => sprite_shown hp fun _ => ?_⟩
    have hold : flushDamage scr s.scene s.cursorOld (s.flushPending scr).fb p =
        if s.cursorOld.Mem p then s.scene p else (s.flushPending scr).fb p :=
      flushDamage_apply hp
    refine hold.trans ?_
    split
    · rfl
    · next hout => exact hpending p hp hout

theorem draw_again (h : s.Synced scr) (hdrawn : s.drawn = true) :
    Drawn scr s (s.drawCursor scr) := by
  have hflushed : (s.flushPending scr).drawn = true := hdrawn
  rw [State.drawCursor]
  simp only [hflushed, Bool.true_eq_false, if_false]
  by_cases hhad : s.table.pending = []
  · rw [if_pos (not_not.mpr hhad)]
    refine ⟨rfl, hdrawn, rfl, rfl, rfl, fun p hp => ?_⟩
    have hcov : ¬Covered s.table.pending p.1 p.2 := by
      rw [hhad]
      simp [Covered]
    rw [flushPending_fb hp, if_neg hcov]
    exact h.drawn hdrawn p hp hcov
  · rw [if_neg (not_not.mpr hhad)]
    refine ⟨rfl, hdrawn, rfl, rfl, rfl, fun p hp => sprite_shown hp fun hout => ?_⟩
    rw [flushPending_fb hp]
    split
    · rfl
    · next hcov =>
      have hshown := h.drawn hdrawn p hp hcov
      cases hsprite : s.spriteAt p with
      | some c => exact absurd (spriteAt_mem hp hsprite) hout
      | none => rwa [State.shown, hsprite] at hshown

theorem draw_spec (h : s.Synced scr) : Drawn scr s (s.drawCursor scr) := by
  cases hdrawn : s.drawn with
  | false => exact draw_away h hdrawn
  | true => exact draw_again h hdrawn

theorem Drawn.synced {s' : State} (h : Drawn scr s s') : s'.Synced scr := by
  refine ⟨?_, ?_, fun haway => absurd (h.drawn.symm.trans haway) Bool.true_eq_false.mp⟩
  · rw [h.pending]
    exact good_nil scr
  · intro _ p hp _
    rw [h.shown p hp, State.shown, State.shown, State.spriteAt, State.spriteAt, h.scene, h.cx, h.cy]

theorem act_synced (h : s.Synced scr) (a : Act) : (s.act scr a).Synced scr := by
  cases a with
  | present mode paint clip => exact present_synced h mode paint clip
  | undraw => exact (undraw_synced h).1
  | move dx dy =>
    obtain ⟨hsync, haway⟩ := undraw_synced h
    exact ⟨hsync.good, fun hdrawn => absurd (haway.symm.trans hdrawn) Bool.false_ne_true,
      hsync.away⟩
  | draw => exact (draw_spec h).synced

theorem run_synced (h : s.Synced scr) (acts : List Act) : (s.run scr acts).Synced scr := by
  induction acts generalizing s with
  | nil => exact h
  | cons a rest ih => exact ih (act_synced h a)

theorem start_synced (mode : PanelMode) (scene fb : Pixels) :
    (start scr mode scene fb).Synced scr := by
  have hkeeps :=
    damage_kept scr [.note mode ⟨0, 0, scr.w, workH scr mode⟩, .note mode (strutRect scr mode)]
  refine ⟨hkeeps.good, fun hdrawn => absurd hdrawn Bool.false_ne_true, fun _ p hp hcov =>
    absurd ?_ hcov⟩
  have hscreen : (fbRect scr).Mem p := fbRect_mem.mpr hp
  by_cases hwork : p.2 < workH scr mode
  · refine hkeeps.covers ⟨0, 0, scr.w, workH scr mode⟩ (by simp [noted]) p.1 p.2
      (contains_intersect.mpr ⟨?_, hscreen⟩)
    exact ⟨Nat.zero_le _, hp.1, Nat.zero_le _, hwork⟩
  · refine hkeeps.covers (strutRect scr mode) (by simp [noted]) p.1 p.2
      (contains_intersect.mpr ⟨?_, hscreen⟩)
    exact ⟨Nat.zero_le _, hp.1, Nat.le_of_not_lt hwork, hp.2⟩

end Frames

/-- Whatever was on the framebuffer at first, and whatever is painted, noted and moved in whatever
order, a draw leaves every pixel of the screen as the scene has it under the sprite where the cursor
is: no trail of the cursor, and no damage left behind. -/
theorem draw_shows (mode : PanelMode) (scene fb : Pixels) (acts : List Act) (p : ℕ × ℕ)
    (hp : (tgt scr).Has p) :
    let s := (start scr mode scene fb).run scr acts
    (s.act scr .draw).fb p = s.shown p ∧ (s.act scr .draw).table.pending = [] := by
  have hsynced : (start scr mode scene fb).Synced scr := start_synced mode scene fb
  have hdrawn := draw_spec (run_synced hsynced acts)
  exact ⟨hdrawn.shown p hp, hdrawn.pending⟩

def smallScreen : Screen := ⟨480, 200, 16, none⟩

theorem moved_shows :
    (((start smallScreen .float (fun _ => 5) fun _ => 7).run smallScreen [.draw, .move 40 0]).act
      smallScreen .draw).fb (56, 56) = 5 :=
  (draw_shows smallScreen .float (fun _ => 5) (fun _ => 7) [.draw, .move 40 0] (56, 56)
    (by decide)).1.trans rfl

end CoeleoOs.Ui.Cursor
