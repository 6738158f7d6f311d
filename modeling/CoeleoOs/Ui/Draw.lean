import CoeleoOs.Lib.Pixel
import CoeleoOs.Ui.Frames
import CoeleoOs.Ui.Rect
import Mathlib.Algebra.Group.Int.Defs
import Mathlib.Data.Nat.Sqrt

/-!
# Drawing primitives

The primitives that fill, stroke and blend pixels of a target under a clip. A target has no pixels
outside its width and height, where a write is lost and a read gives zero. Lengths are `u32`, and
the distances to a rounded rectangle are `i32` and wrap.
-/

namespace CoeleoOs.Ui
open CoeleoOs.Lib Pixel

abbrev Color : Type := UInt32
abbrev Paint : Type := Draw (ℕ × ℕ) Color

abbrev radius : ℕ := 8
abbrev radiusSm : ℕ := 5

structure DrawTarget where
  w : ℕ
  h : ℕ

def DrawTarget.Has (t : DrawTarget) (p : ℕ × ℕ) : Prop := p.1 < t.w ∧ p.2 < t.h

instance (t : DrawTarget) (p : ℕ × ℕ) : Decidable (t.Has p) := inferInstanceAs (Decidable (_ ∧ _))

abbrev Rect.Mem (r : Rect) (p : ℕ × ℕ) : Prop := r.Contains p.1 p.2

section Pixels

variable (t : DrawTarget)

def put (x y : ℕ) (color : Color) : Paint :=
  if x < t.w ∧ y < t.h then alter (x, y) fun _ => color else skip

def get (x y : ℕ) (s : ℕ × ℕ → Color) : Color := if x < t.w ∧ y < t.h then s (x, y) else 0

def blendByte (dst src : Color) (a : UInt8) (shift : UInt32) : Color :=
  let aa : UInt32 := a.toUInt32
  let sb : UInt32 := (src >>> shift) &&& 0xFF
  let db : UInt32 := (dst >>> shift) &&& 0xFF
  ((sb * aa + db * (255 - aa)) / 255) <<< shift

def blend (dst src : Color) (a : UInt8) : Color :=
  blendByte dst src a 0 ||| blendByte dst src a 8 ||| blendByte dst src a 16

def touch (x y : ℕ) (g : Color → Color) : Paint := fun s => put t x y (g (get t x y s)) s

def mix (x y : ℕ) (color : Color) (a : UInt8) : Paint := touch t x y fun dst => blend dst color a

def ink (x y : ℕ) (color : Color) (cov : UInt8) : Paint :=
  if cov = 255 then put t x y color else mix t x y color cov

def inked (color : Color) (cov : UInt8) (dst : Color) : Color :=
  if cov = 255 then color else blend dst color cov

def fillSpan (x y w : ℕ) (color : Color) : Paint :=
  if w = 0 ∨ t.w ≤ x ∨ t.h ≤ y then skip else range x (x + min w (t.w - x)) fun px =>
    put t px y color

def fillSpanBlend (x y w : ℕ) (color : Color) (a : UInt8) : Paint :=
  if a = 255 then fillSpan t x y w color
  else if w = 0 ∨ t.w ≤ x ∨ t.h ≤ y then skip
  else range x (x + min w (t.w - x)) fun px => mix t px y color a

end Pixels

section Rounds

def i32 (z : ℤ) : ℤ := z.bmod (2 ^ 32)

def satI32 (z : ℤ) : ℤ := max (-2 ^ 31) (min z (2 ^ 31 - 1))

def isqrt (n : ℤ) : ℤ := n.toNat.sqrt

def sdf8 (px py rx ry rw rh radius : ℕ) : ℤ :=
  let r := i32 (i32 (min (min radius (rw / 2)) (rh / 2) : ℕ) * 8)
  let x := i32 (i32 (i32 px * 8) + 4)
  let y := i32 (i32 (i32 py * 8) + 4)
  let x0 := i32 (i32 rx * 8)
  let y0 := i32 (i32 ry * 8)
  let w := i32 (i32 rw * 8)
  let h := i32 (i32 rh * 8)
  let cx := i32 (x0 + w.tdiv 2)
  let cy := i32 (y0 + h.tdiv 2)
  let dx := i32 (i32 (x - cx)).natAbs
  let dy := i32 (i32 (y - cy)).natAbs
  let qx := i32 (i32 (dx - w.tdiv 2) + r)
  let qy := i32 (i32 (dy - h.tdiv 2) + r)
  let ox := max qx 0
  let oy := max qy 0
  let outer := isqrt (satI32 (satI32 (ox * ox) + satI32 (oy * oy)))
  let inner := min (max qx qy) 0
  i32 (i32 (outer + inner) - r)

def aaFromD8 (d8 : ℤ) : UInt8 :=
  let t := i32 (8 - d8)
  if 16 ≤ t then 255 else if t ≤ 0 then 0 else UInt8.ofNat (t * 255 / 16).toNat

def coverageRound (px py rx ry rw rh radius : ℕ) : UInt8 := aaFromD8 (sdf8 px py rx ry rw rh radius)

def strokeCoverageRound (px py rx ry rw rh radius : ℕ) : UInt8 :=
  let delta := i32 (i32 (sdf8 px py rx ry rw rh radius + 4)).natAbs
  if delta ≤ 3 then 255 else if 9 ≤ delta then 0 else UInt8.ofNat ((9 - delta) * 255 / 6).toNat

def roundSdf (px py rx ry rw rh radius : ℕ) : ℕ :=
  let d8 := sdf8 px py rx ry rw rh radius
  if d8 ≤ 0 then 0 else (d8.toNat + 7) / 8

variable (t : DrawTarget)

def bandAlpha (cov a : UInt8) : UInt8 :=
  if a = 255 then cov else UInt8.ofNat (a.toNat * cov.toNat / 255)

def plotRoundBand (x0 x1 py rx ry rw rh radius : ℕ) (color : Color) (a : UInt8) : Paint :=
  range x0 x1 fun px =>
    let cov := coverageRound px py rx ry rw rh radius
    if cov = 0 then skip
    else if bandAlpha cov a = 0 then skip
    else ink t px py color (bandAlpha cov a)

def fillRoundRow (py x y w h r x0 x1 : ℕ) (color : Color) (a : UInt8) : Paint :=
  let ly := py - y
  if r ≤ ly ∧ ly + r < h then fillSpanBlend t x0 py (x1 - x0) color a
  else
    let midL := max (satAdd x r) x0
    let midR := min (satAdd x (w - r)) x1
    if midL < midR then
      draws [fillSpanBlend t midL py (midR - midL) color a,
        plotRoundBand t x0 midL py x y w h r color a, plotRoundBand t midR x1 py x y w h r color a]
    else plotRoundBand t x0 x1 py x y w h r color a

def fillRound (x y w h radius : ℕ) (color : Color) (clip : Rect) : Paint :=
  let x1 := min (min (satAdd x w) clip.x1) t.w
  let y1 := min (min (satAdd y h) clip.y1) t.h
  let x0 := max x clip.x0
  let y0 := max y clip.y0
  if x1 ≤ x0 ∨ y1 ≤ y0 then skip
  else range y0 y1 fun py => fillRoundRow t py x y w h (min (min radius (w / 2)) (h / 2)) x0
    x1 color 255

def strokeRoundRow (py x y w h r x0 x1 : ℕ) (color : Color) : Paint :=
  let ly := py - y
  if r ≤ ly ∧ ly + r < h then
    let rx := satAdd x w - 1
    draws [if x0 ≤ x ∧ x < x1 then mix t x py color 255 else skip,
      if x0 ≤ rx ∧ rx < x1 ∧ rx ≠ x then mix t rx py color 255 else skip]
  else
    let midL := max (satAdd x r) x0
    let midR := min (satAdd x (w - r)) x1
    let corner := fun px =>
      let cov := strokeCoverageRound px py x y w h r
      if cov = 0 then skip else mix t px py color cov
    draws [if (ly = 0 ∨ ly = h - 1) ∧ midL < midR then fillSpan t midL py (midR - midL) color
      else skip, range x0 (min midL x1) corner, range (max midR x0) x1 corner]

def strokeRound (x y w h radius : ℕ) (color : Color) (clip : Rect) : Paint :=
  let x1 := min (min (satAdd x w) clip.x1) t.w
  let y1 := min (min (satAdd y h) clip.y1) t.h
  let x0 := max x clip.x0
  let y0 := max y clip.y0
  if x1 ≤ x0 ∨ y1 ≤ y0 ∨ w < 2 ∨ h < 2 then skip
  else range y0 y1 fun py =>
    strokeRoundRow t py x y w h (min (min radius (w / 2)) (h / 2)) x0 x1 color

def fillStrokeRound (x y w h radius : ℕ) (fill stroke : Color) (clip : Rect) : Paint :=
  draws [fillRound t x y w h radius fill clip, strokeRound t x y w h radius stroke clip]

end Rounds

section Formulas

variable {t : DrawTarget} {clip : Rect} {s : ℕ × ℕ → Color} {p : ℕ × ℕ}

theorem touch_apply (t : DrawTarget) (x y : ℕ) (g : Color → Color) (s : ℕ × ℕ → Color) (p : ℕ × ℕ) :
    touch t x y g s p = if p = (x, y) ∧ t.Has p then g (s p) else s p := by
  rw [touch, put, get]
  by_cases hin : x < t.w ∧ y < t.h
  · rw [if_pos hin, if_pos hin]
    by_cases hp : p = (x, y)
    · subst hp
      rw [alter_self, if_pos ⟨rfl, hin⟩]
    · rw [alter_of_ne hp, if_neg fun h => hp h.1]
  · rw [if_neg hin, if_neg]
    · rfl
    · rintro ⟨rfl, h⟩
      exact hin h

theorem mix_apply (t : DrawTarget) (x y : ℕ) (color : Color) (a : UInt8) (s : ℕ × ℕ → Color)
    (p : ℕ × ℕ) :
    mix t x y color a s p = if p = (x, y) ∧ t.Has p then blend (s p) color a else s p :=
  touch_apply t x y (fun dst => blend dst color a) s p

theorem ink_eq_touch (t : DrawTarget) (x y : ℕ) (color : Color) (cov : UInt8) :
    ink t x y color cov = touch t x y (inked color cov) := by
  by_cases h : cov = 255
  · subst h
    rfl
  · rw [ink, if_neg h, mix]
    congr
    funext dst
    rw [inked, if_neg h]

theorem row_apply (t : DrawTarget) {a b y : ℕ} {f : ℕ → Paint} {g : ℕ → Color → Color}
    (hf : ∀ px s p, f px s p = if p = (px, y) ∧ t.Has p then g px (s p) else s p)
    (s : ℕ × ℕ → Color) (p : ℕ × ℕ) : range a b f s p = if p.2 = y ∧ a ≤ p.1 ∧ p.1 < b ∧ t.Has p
      then g p.1 (s p) else s p := by
  rw [range_slices Prod.fst fun p c => if p.2 = y ∧ t.Has p then g p.1 c else c]
  · by_cases h : a ≤ p.1 ∧ p.1 < b
    · rw [if_pos h]
      exact if_congr (by tauto) rfl rfl
    · rw [if_neg h, if_neg (by tauto)]
  · rintro i s p - rfl
    rw [hf]
    exact if_congr (by rw [Prod.ext_iff]; simp) rfl rfl
  · intro i s p _ hp
    rw [hf, if_neg]
    rintro ⟨rfl, -⟩
    exact hp rfl

theorem block_apply {x0 x1 y0 y1 : ℕ} {row : ℕ → Paint} {G : ℕ × ℕ → Color → Color}
    (hrow : ∀ y s p, row y s p = if p.2 = y ∧ x0 ≤ p.1 ∧ p.1 < x1 ∧ t.Has p then G p (s p) else s p)
    (s : ℕ × ℕ → Color) (p : ℕ × ℕ) :
    range y0 y1 row s p = if (⟨x0, y0, x1, y1⟩ : Rect).Mem p ∧ t.Has p then G p (s p) else s p := by
  rw [range_slices Prod.snd fun p c => if x0 ≤ p.1 ∧ p.1 < x1 ∧ t.Has p then G p c else c]
  · by_cases hp : (⟨x0, y0, x1, y1⟩ : Rect).Mem p ∧ t.Has p
    · rw [if_pos hp, if_pos ⟨hp.1.2.2.1, hp.1.2.2.2⟩, if_pos ⟨hp.1.1, hp.1.2.1, hp.2⟩]
    · rw [if_neg hp]
      split
      · rename_i hy
        exact if_neg fun h => hp ⟨⟨h.1, h.2.1, hy⟩, h.2.2⟩
      · rfl
  · rintro i s p - rfl
    rw [hrow]
    exact if_congr (and_iff_right rfl) rfl rfl
  · intro i s p _ hp
    rw [hrow, if_neg fun h => hp h.1]

theorem span_apply (t : DrawTarget) {x y w : ℕ} {f : ℕ → Paint} {g : Color → Color}
    (hf : ∀ px s p, f px s p = if p = (px, y) ∧ t.Has p then g (s p) else s p) (s : ℕ × ℕ → Color)
    (p : ℕ × ℕ) :
    (if w = 0 ∨ t.w ≤ x ∨ t.h ≤ y then skip else range x (x + min w (t.w - x)) f) s p =
      if p.2 = y ∧ x ≤ p.1 ∧ p.1 < x + w ∧ t.Has p then g (s p) else s p := by
  by_cases h : w = 0 ∨ t.w ≤ x ∨ t.h ≤ y
  · rw [if_pos h, if_neg]
    · rfl
    · rintro ⟨rfl, h1, h2, h3, h4⟩
      omega
  · rw [if_neg h, row_apply t (g := fun _ => g) hf]
    refine if_congr ?_ rfl rfl
    simp only [DrawTarget.Has]
    omega

theorem fillSpan_apply (t : DrawTarget) (x y w : ℕ) (color : Color) (s : ℕ × ℕ → Color)
    (p : ℕ × ℕ) : fillSpan t x y w color s p = if p.2 = y ∧ x ≤ p.1 ∧ p.1 < x + w ∧ t.Has p
      then color else s p :=
  span_apply t (g := fun _ => color) (fun px s p => touch_apply t px y (fun _ => color) s p) s p

theorem fillSpanBlend_apply (t : DrawTarget) (x y w : ℕ) (color : Color) (a : UInt8)
    (s : ℕ × ℕ → Color) (p : ℕ × ℕ) : fillSpanBlend t x y w color a s p = if p.2 = y ∧ x ≤ p.1 ∧
    p.1 < x + w ∧ t.Has p then inked color a (s p) else s p := by
  rw [fillSpanBlend]
  by_cases ha : a = 255
  · rw [if_pos ha, fillSpan_apply, inked, if_pos ha]
  · rw [if_neg ha, inked, if_neg ha]
    exact span_apply t (g := fun dst => blend dst color a) (fun px => touch_apply t px y fun dst =>
      blend dst color a) s p

def bandInked (px py rx ry rw rh radius : ℕ) (color : Color) (a : UInt8) (dst : Color) : Color :=
  let cov := coverageRound px py rx ry rw rh radius
  if cov = 0 ∨ bandAlpha cov a = 0 then dst else inked color (bandAlpha cov a) dst

theorem plotRoundBand_apply (t : DrawTarget) (x0 x1 py rx ry rw rh radius : ℕ)
    (color : Color) (a : UInt8) (s : ℕ × ℕ → Color) (p : ℕ × ℕ) :
    plotRoundBand t x0 x1 py rx ry rw rh radius color a s p = if p.2 = py ∧ x0 ≤ p.1 ∧ p.1 < x1 ∧
    t.Has p then bandInked p.1 py rx ry rw rh radius color a (s p) else s p := by
  refine row_apply t (g := fun px => bandInked px py rx ry rw rh radius color a) ?_ s p
  intro px s p
  by_cases hcov : coverageRound px py rx ry rw rh radius = 0
  · rw [if_pos hcov, bandInked, if_pos (Or.inl hcov), ite_self]
    rfl
  rw [if_neg hcov]
  by_cases haa : bandAlpha (coverageRound px py rx ry rw rh radius) a = 0
  · rw [if_pos haa, bandInked, if_pos (Or.inr haa), ite_self]
    rfl
  · rw [if_neg haa, ink_eq_touch, touch_apply, bandInked, if_neg (not_or.mpr ⟨hcov, haa⟩)]

def fillInked (x y w h r : ℕ) (color : Color) (a : UInt8) (p : ℕ × ℕ) (dst : Color) : Color :=
  if r ≤ p.2 - y ∧ p.2 - y + r < h ∨ satAdd x r ≤ p.1 ∧ p.1 < satAdd x (w - r)
    then inked color a dst
  else bandInked p.1 p.2 x y w h r color a dst

theorem fillRoundRow_apply (t : DrawTarget) (py x y w h r x0 x1 : ℕ) (color : Color) (a : UInt8)
    (s : ℕ × ℕ → Color) (p : ℕ × ℕ) :
    fillRoundRow t py x y w h r x0 x1 color a s p =
      if p.2 = py ∧ x0 ≤ p.1 ∧ p.1 < x1 ∧ t.Has p then fillInked x y w h r color a p (s p)
        else s p := by
  rw [fillRoundRow]
  dsimp only
  by_cases hin : p.2 = py ∧ x0 ≤ p.1 ∧ p.1 < x1 ∧ t.Has p
  · obtain ⟨rfl, h0, h1, hhas⟩ := hin
    rw [if_pos (show p.2 = p.2 ∧ _ from ⟨rfl, h0, h1, hhas⟩), fillInked]
    by_cases hmid : r ≤ p.2 - y ∧ p.2 - y + r < h
    · rw [if_pos hmid, if_pos (Or.inl hmid), fillSpanBlend_apply, if_pos ⟨rfl, h0, by omega, hhas⟩]
    rw [if_neg hmid]
    by_cases hcol : satAdd x r ≤ p.1 ∧ p.1 < satAdd x (w - r)
    · rw [if_pos (Or.inr hcol), if_pos (by omega), draws, draws, draws, draws, plotRoundBand_apply,
        if_neg (by omega), plotRoundBand_apply, if_neg (by omega), fillSpanBlend_apply,
        if_pos ⟨rfl, by omega, by omega, hhas⟩]
    rw [if_neg (not_or.mpr ⟨hmid, hcol⟩)]
    by_cases hgap : max (satAdd x r) x0 < min (satAdd x (w - r)) x1
    · rw [if_pos hgap, draws, draws, draws, draws]
      by_cases hleft : p.1 < satAdd x r
      · rw [plotRoundBand_apply, if_neg (by omega), plotRoundBand_apply,
          if_pos ⟨rfl, h0, by omega, hhas⟩, fillSpanBlend_apply, if_neg (by omega)]
      · rw [plotRoundBand_apply, if_pos ⟨rfl, by omega, h1, hhas⟩, plotRoundBand_apply,
          if_neg (by omega), fillSpanBlend_apply, if_neg (by omega)]
    · rw [if_neg hgap, plotRoundBand_apply, if_pos ⟨rfl, h0, h1, hhas⟩]
  · rw [if_neg hin]
    by_cases hmid : r ≤ py - y ∧ py - y + r < h
    · rw [if_pos hmid, fillSpanBlend_apply, if_neg]
      rintro ⟨h1, h2, h3, h4⟩
      exact hin ⟨h1, h2, by omega, h4⟩
    rw [if_neg hmid]
    by_cases hgap : max (satAdd x r) x0 < min (satAdd x (w - r)) x1
    · rw [if_pos hgap, draws, draws, draws, draws, plotRoundBand_apply, if_neg,
        plotRoundBand_apply, if_neg, fillSpanBlend_apply, if_neg]
      · rintro ⟨h1, h2, h3, h4⟩
        exact hin ⟨h1, by omega, by omega, h4⟩
      · rintro ⟨h1, h2, h3, h4⟩
        exact hin ⟨h1, by omega, by omega, h4⟩
      · rintro ⟨h1, h2, h3, h4⟩
        exact hin ⟨h1, by omega, by omega, h4⟩
    · rw [if_neg hgap, plotRoundBand_apply, if_neg hin]

/-- The pixels of a rectangle given by its corner and its size. -/
def Within (x y w h : ℕ) (p : ℕ × ℕ) : Prop :=
  x ≤ p.1 ∧ p.1 < satAdd x w ∧ y ≤ p.2 ∧ p.2 < satAdd y h

instance (x y w h : ℕ) (p : ℕ × ℕ) : Decidable (Within x y w h p) :=
  inferInstanceAs (Decidable (_ ∧ _))

theorem rows_apply (t : DrawTarget) (x y w h : ℕ) (small : Prop) [Decidable small]
    (G : ℕ × ℕ → Color → Color) (row : ℕ → ℕ → ℕ → Paint)
    (hrow : ∀ py x0 x1 s p, x ≤ x0 → x1 ≤ satAdd x w → row py x0 x1 s p =
      if p.2 = py ∧ x0 ≤ p.1 ∧ p.1 < x1 ∧ t.Has p then G p (s p) else s p)
    (clip : Rect) (s : ℕ × ℕ → Color) (p : ℕ × ℕ) :
    (let x1 := min (min (satAdd x w) clip.x1) t.w
      let y1 := min (min (satAdd y h) clip.y1) t.h
      let x0 := max x clip.x0
      let y0 := max y clip.y0
      if x1 ≤ x0 ∨ y1 ≤ y0 ∨ small then skip else range y0 y1 fun py => row py x0 x1 : Paint) s p =
        if (clip.Mem p ∧ Within x y w h p) ∧ ¬ small ∧ t.Has p then G p (s p) else s p := by
  dsimp only
  by_cases hg : min (min (satAdd x w) clip.x1) t.w ≤ max x clip.x0 ∨
      min (min (satAdd y h) clip.y1) t.h ≤ max y clip.y0 ∨ small
  · rw [if_pos hg, if_neg]
    · rfl
    · rintro ⟨⟨⟨h1, h2, h3, h4⟩, h5, h6, h7, h8⟩, hsmall, h9, h10⟩
      rcases hg with hg | hg | hg
      · omega
      · omega
      · exact hsmall hg
  have hsmall : ¬ small := fun h => hg (.inr (.inr h))
  rw [if_neg hg, block_apply (G := G) fun py s p => hrow py (max x clip.x0)
    (min (min (satAdd x w) clip.x1) t.w) s p (le_max_left _ _)
    ((min_le_left _ _).trans (min_le_left _ _))]
  refine if_congr ?_ rfl rfl
  rw [and_iff_right hsmall]
  simp only [Rect.Mem, Rect.Contains, Within, DrawTarget.Has]
  omega

theorem rows_clipped (t : DrawTarget) (x y w h : ℕ) (small : Prop) [Decidable small]
    (G : ℕ × ℕ → Color → Color) (row : ℕ → ℕ → ℕ → Paint)
    (hrow : ∀ py x0 x1 s p, x ≤ x0 → x1 ≤ satAdd x w → row py x0 x1 s p =
      if p.2 = py ∧ x0 ≤ p.1 ∧ p.1 < x1 ∧ t.Has p then G p (s p) else s p) :
    Clipped Rect.Mem (Within x y w h) fun clip =>
      let x1 := min (min (satAdd x w) clip.x1) t.w
      let y1 := min (min (satAdd y h) clip.y1) t.h
      let x0 := max x clip.x0
      let y0 := max y clip.y0
      if x1 ≤ x0 ∨ y1 ≤ y0 ∨ small then skip else range y0 y1 fun py => row py x0 x1 := by
  exact .of_apply G fun clip s p => rows_apply t x y w h small G row hrow clip s p

theorem fillRound_apply (t : DrawTarget) (x y w h radius : ℕ) (color : Color) (clip : Rect)
    (s : ℕ × ℕ → Color) (p : ℕ × ℕ) : fillRound t x y w h radius color clip s p =
      if (clip.Mem p ∧ Within x y w h p) ∧ t.Has p then
        fillInked x y w h (min (min radius (w / 2)) (h / 2)) color 255 p (s p)
      else s p := by
  have h :=
    rows_apply t x y w h False (fillInked x y w h (min (min radius (w / 2)) (h / 2)) color 255)
    (fun py x0 x1 => fillRoundRow t py x y w h (min (min radius (w / 2)) (h / 2)) x0 x1 color 255)
    (fun py x0 x1 s p _ _ => fillRoundRow_apply ..) clip s p
  simp only [or_false, not_false_eq_true, true_and] at h
  exact h

theorem fillRound_clipped (t : DrawTarget) (x y w h radius : ℕ) (color : Color) :
    Clipped Rect.Mem (Within x y w h) (fillRound t x y w h radius color) :=
  .of_apply _ fun clip s p => fillRound_apply t x y w h radius color clip s p

def cornerInked (px py x y w h r : ℕ) (color : Color) (dst : Color) : Color :=
  if strokeCoverageRound px py x y w h r = 0 then dst
    else blend dst color (strokeCoverageRound px py x y w h r)

def strokeInked (x y w h r : ℕ) (color : Color) (p : ℕ × ℕ) (dst : Color) : Color :=
  if r ≤ p.2 - y ∧ p.2 - y + r < h then
    if p.1 = x ∨ p.1 = satAdd x w - 1 then blend dst color 255 else dst
  else if satAdd x r ≤ p.1 ∧ p.1 < satAdd x (w - r) then
    if p.2 - y = 0 ∨ p.2 - y = h - 1 then color else dst
  else cornerInked p.1 p.2 x y w h r color dst

theorem corner_apply (t : DrawTarget) (a b py x y w h r : ℕ) (color : Color) (s : ℕ × ℕ → Color)
    (p : ℕ × ℕ) : range a b (fun px =>
      let cov := strokeCoverageRound px py x y w h r
      if cov = 0 then skip else mix t px py color cov) s p =
        if p.2 = py ∧ a ≤ p.1 ∧ p.1 < b ∧ t.Has p then
          cornerInked p.1 py x y w h r color (s p)
        else s p := by
  refine row_apply t (g := fun px => cornerInked px py x y w h r color) ?_ s p
  intro px s p
  by_cases hcov : strokeCoverageRound px py x y w h r = 0
  · rw [if_pos hcov, cornerInked, if_pos hcov, ite_self]
    rfl
  · rw [if_neg hcov, cornerInked, if_neg hcov]
    exact touch_apply t px py (fun dst => blend dst color (strokeCoverageRound px py x y w h r)) s p

theorem edge_apply (t : DrawTarget) (g : Prop) [Decidable g] (x y : ℕ) (color : Color) (a : UInt8)
    (s : ℕ × ℕ → Color) (p : ℕ × ℕ) : (if g then mix t x y color a else skip) s p =
      if g ∧ p = (x, y) ∧ t.Has p then blend (s p) color a else s p := by
  by_cases hg : g
  · rw [if_pos hg, mix_apply]
    exact if_congr (and_iff_right hg).symm rfl rfl
  · rw [if_neg hg, if_neg fun h => hg h.1]
    rfl

theorem topSpan_apply (t : DrawTarget) (g : Prop) [Decidable g] (x y w : ℕ) (color : Color)
    (s : ℕ × ℕ → Color) (p : ℕ × ℕ) : (if g then fillSpan t x y w color else skip) s p =
      if g ∧ p.2 = y ∧ x ≤ p.1 ∧ p.1 < x + w ∧ t.Has p then color else s p := by
  by_cases hg : g
  · rw [if_pos hg, fillSpan_apply]
    exact if_congr (and_iff_right hg).symm rfl rfl
  · rw [if_neg hg, if_neg fun h => hg h.1]
    rfl

theorem strokeRoundRow_apply (t : DrawTarget) (py x y w h r x0 x1 : ℕ) (color : Color)
    (s : ℕ × ℕ → Color) (p : ℕ × ℕ) (hr : satAdd x r ≤ satAdd x (w - r)) :
    strokeRoundRow t py x y w h r x0 x1 color s p =
      if p.2 = py ∧ x0 ≤ p.1 ∧ p.1 < x1 ∧ t.Has p then strokeInked x y w h r color p (s p)
        else s p := by
  rw [strokeRoundRow]
  dsimp only
  by_cases hmid : r ≤ py - y ∧ py - y + r < h
  · rw [if_pos hmid, draws, draws, draws, edge_apply, edge_apply]
    by_cases hin : p.2 = py ∧ x0 ≤ p.1 ∧ p.1 < x1 ∧ t.Has p
    · obtain ⟨rfl, h0, h1, hhas⟩ := hin
      have hin : p.2 = p.2 ∧ x0 ≤ p.1 ∧ p.1 < x1 ∧ t.Has p := ⟨rfl, h0, h1, hhas⟩
      rw [if_pos hin, strokeInked, if_pos hmid]
      by_cases hx : p.1 = x
      · rw [if_neg, if_pos ⟨⟨hx ▸ h0, hx ▸ h1⟩, Prod.ext hx rfl, hhas⟩, if_pos (Or.inl hx)]
        rintro ⟨⟨-, -, hne⟩, hp, -⟩
        exact hne ((congrArg Prod.fst hp).symm.trans hx)
      · have hleft : ¬ ((x0 ≤ x ∧ x < x1) ∧ p = (x, p.2) ∧ t.Has p) :=
          fun h => hx (congrArg Prod.fst h.2.1)
        by_cases hrx : p.1 = satAdd x w - 1
        · rw [if_pos ⟨⟨hrx ▸ h0, hrx ▸ h1, hrx ▸ hx⟩, Prod.ext hrx rfl, hhas⟩, if_neg hleft,
            if_pos (Or.inr hrx)]
        · rw [if_neg fun h => hrx (congrArg Prod.fst h.2.1), if_neg hleft,
            if_neg (not_or.mpr ⟨hx, hrx⟩)]
    · rw [if_neg hin, if_neg, if_neg]
      · rintro ⟨⟨h1, h2⟩, rfl, hhas⟩
        exact hin ⟨rfl, h1, h2, hhas⟩
      · rintro ⟨⟨h1, h2, -⟩, rfl, hhas⟩
        exact hin ⟨rfl, h1, h2, hhas⟩
  · rw [if_neg hmid, draws, draws, draws, draws, corner_apply, corner_apply, topSpan_apply]
    by_cases hin : p.2 = py ∧ x0 ≤ p.1 ∧ p.1 < x1 ∧ t.Has p
    · obtain ⟨rfl, h0, h1, hhas⟩ := hin
      have hin : p.2 = p.2 ∧ x0 ≤ p.1 ∧ p.1 < x1 ∧ t.Has p := ⟨rfl, h0, h1, hhas⟩
      rw [if_pos hin, strokeInked, if_neg hmid]
      by_cases hcol : satAdd x r ≤ p.1 ∧ p.1 < satAdd x (w - r)
      · rw [if_pos hcol, if_neg (by omega), if_neg (by omega)]
        refine if_congr ⟨fun h => h.1.1, fun h => ⟨⟨h, by omega⟩, rfl, by omega, by omega, hhas⟩⟩
          rfl rfl
      · rw [if_neg hcol]
        have hspan :
            ¬ (((p.2 - y = 0 ∨ p.2 - y = h - 1) ∧ max (satAdd x r) x0 < min (satAdd x (w - r)) x1) ∧
              p.2 = p.2 ∧ max (satAdd x r) x0 ≤ p.1 ∧ p.1 < max (satAdd x r)
                x0 + (min (satAdd x (w - r)) x1 - max (satAdd x r) x0) ∧ t.Has p) := by
          rintro ⟨h2, -, h3, h4, -⟩
          omega
        by_cases hleft : p.1 < satAdd x r
        · rw [if_neg (by omega), if_pos ⟨rfl, h0, by omega, hhas⟩, if_neg hspan]
        · rw [if_pos ⟨rfl, by omega, h1, hhas⟩, if_neg (by omega), if_neg hspan]
    · rw [if_neg hin, if_neg, if_neg, if_neg]
      · rintro ⟨h2, h3, h4, h5, h6⟩
        exact hin ⟨h3, by omega, by omega, h6⟩
      · rintro ⟨h2, h3, h4, h5⟩
        exact hin ⟨h2, by omega, by omega, h5⟩
      · rintro ⟨h2, h3, h4, h5⟩
        exact hin ⟨h2, by omega, by omega, h5⟩

theorem strokeRound_apply (t : DrawTarget) (x y w h radius : ℕ) (color : Color) (clip : Rect)
    (s : ℕ × ℕ → Color) (p : ℕ × ℕ) : strokeRound t x y w h radius color clip s p =
      if (clip.Mem p ∧ Within x y w h p) ∧ ¬ (w < 2 ∨ h < 2) ∧ t.Has p then
        strokeInked x y w h (min (min radius (w / 2)) (h / 2)) color p (s p)
      else s p := by
  refine rows_apply t x y w h (w < 2 ∨
    h < 2) (strokeInked x y w h (min (min radius (w / 2)) (h / 2)) color)
    (fun py x0 x1 => strokeRoundRow t py x y w h (min (min radius (w / 2)) (h / 2)) x0 x1 color) ?_
      clip s p
  intro py x0 x1 s p _ _
  exact strokeRoundRow_apply _ _ _ _ _ _ _ _ _ _ _ _ (by simp only [satAdd]; omega)

theorem strokeRound_clipped (t : DrawTarget) (x y w h radius : ℕ) (color : Color) :
    Clipped Rect.Mem (Within x y w h) (strokeRound t x y w h radius color) :=
  .of_apply _ fun clip s p => strokeRound_apply t x y w h radius color clip s p

theorem fillStrokeRound_clipped (t : DrawTarget) (x y w h radius : ℕ) (fill stroke : Color) :
    Clipped Rect.Mem (Within x y w h) (fillStrokeRound t x y w h radius fill stroke) :=
  .cons (fillRound_clipped ..) (.cons (strokeRound_clipped ..) .nil)

section Opacity

def FillsAt (x y w h r : ℕ) (p : ℕ × ℕ) : Prop :=
  (r ≤ p.2 - y ∧ p.2 - y + r < h ∨ satAdd x r ≤ p.1 ∧ p.1 < satAdd x (w - r)) ∨
    coverageRound p.1 p.2 x y w h r = 255

theorem fillInked_full {x y w h r : ℕ} (hp : FillsAt x y w h r p) (color dst : Color) :
    fillInked x y w h r color 255 p dst = color := by
  rw [fillInked]
  by_cases hmid : r ≤ p.2 - y ∧ p.2 - y + r < h ∨ satAdd x r ≤ p.1 ∧ p.1 < satAdd x (w - r)
  · rw [if_pos hmid]
    exact if_pos rfl
  · have hcov : coverageRound p.1 p.2 x y w h r = 255 := hp.resolve_left hmid
    rw [if_neg hmid, bandInked, hcov]
    rfl

def strokeCov (x y w h r : ℕ) (p : ℕ × ℕ) : UInt8 :=
  if r ≤ p.2 - y ∧ p.2 - y + r < h then if p.1 = x ∨ p.1 = satAdd x w - 1 then 255 else 0
  else if satAdd x r ≤ p.1 ∧ p.1 < satAdd x (w - r) then if p.2 - y = 0 ∨ p.2 - y = h - 1 then 255
    else 0
  else strokeCoverageRound p.1 p.2 x y w h r

theorem strokeInked_zero {x y w h r : ℕ} (hp : strokeCov x y w h r p = 0) (color dst : Color) :
    strokeInked x y w h r color p dst = dst := by
  rw [strokeCov] at hp
  rw [strokeInked]
  split
  · rename_i hrow
    rw [if_pos hrow] at hp
    split
    · rename_i hedge
      rw [if_pos hedge] at hp
      exact absurd hp (by decide)
    · rfl
  rename_i hrow
  rw [if_neg hrow] at hp
  split
  · rename_i hcol
    rw [if_pos hcol] at hp
    split
    · rename_i hedge
      rw [if_pos hedge] at hp
      exact absurd hp (by decide)
    · rfl
  · rename_i hcol
    rw [if_neg hcol] at hp
    exact if_pos hp

theorem blend_full (src dst dst' : Color) : blend dst src 255 = blend dst' src 255 := by
  have hbyte (shift : UInt32) : blendByte dst src 255 shift = blendByte dst' src 255 shift := by
    have hzero (d : UInt32) : d * (255 - (255 : UInt8).toUInt32) = 0 := UInt32.mul_zero
    rw [blendByte, blendByte, hzero, hzero]
  rw [blend, blend, hbyte, hbyte, hbyte]

theorem strokeInked_full {x y w h r : ℕ} (hp : strokeCov x y w h r p = 255)
    (color dst dst' : Color) :
    strokeInked x y w h r color p dst = strokeInked x y w h r color p dst' := by
  rw [strokeCov] at hp
  rw [strokeInked, strokeInked]
  split
  · rename_i hrow
    rw [if_pos hrow] at hp
    split
    · exact blend_full color dst dst'
    · rename_i hedge
      rw [if_neg hedge] at hp
      exact absurd hp (by decide)
  rename_i hrow
  rw [if_neg hrow] at hp
  split
  · rename_i hcol
    rw [if_pos hcol] at hp
    split
    · rfl
    · rename_i hedge
      rw [if_neg hedge] at hp
      exact absurd hp (by decide)
  · rename_i hcol
    rw [if_neg hcol] at hp
    rw [cornerInked, cornerInked, hp]
    exact blend_full color dst dst'

end Opacity

end Formulas

end CoeleoOs.Ui
