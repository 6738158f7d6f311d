import CoeleoOs.Ui.VtPath

/-!
# Parts of a rectangle

Taking holes out of a rectangle cuts it into disjoint parts. A rounded shape painted once under each
part of a clip, in any order, comes out as under the whole clip.
-/

namespace CoeleoOs.Ui
open CoeleoOs.Lib Pixel

namespace Rect

/-- Disjoint rectangles that make up a region. -/
structure Partition (rs : List Rect) (P : ℕ → ℕ → Prop) : Prop where
  disjoint : rs.Pairwise fun r q => ¬ r.Intersects q
  covers : ∀ x y, (∃ r ∈ rs, r.Contains x y) ↔ P x y

variable {a b c d : Rect} {rs : List Rect} {P : ℕ → ℕ → Prop}

theorem not_intersects_of_inside (h : ¬ a.Intersects b) (hc : Inside c a) (hd : Inside d b) :
    ¬ c.Intersects d := by
  rw [intersects_iff] at h ⊢
  rintro ⟨x, y, hx, hy⟩
  exact h ⟨x, y, hc.contains hx, hd.contains hy⟩

theorem sub_length (a b : Rect) : (a.sub b).length ≤ 4 := by
  have hstrip : ∀ (g : Prop) [Decidable g] (s : Rect), (if g then [s] else []).length ≤ 1 := by
    intro g _ s
    by_cases h : g
    · rw [if_pos h, List.length_singleton]
    · rw [if_neg h]
      exact Nat.zero_le 1
  rw [sub]
  split
  · exact Nat.le_of_ble_eq_true rfl
  · rw [List.length_append, List.length_append, List.length_append]
    have h1 := hstrip (a.y0 < (a.intersect b).y0) ⟨a.x0, a.y0, a.x1, (a.intersect b).y0⟩
    have h2 := hstrip ((a.intersect b).y1 < a.y1) ⟨a.x0, (a.intersect b).y1, a.x1, a.y1⟩
    have h3 :=
      hstrip (a.x0 < (a.intersect b).x0) ⟨a.x0, (a.intersect b).y0, (a.intersect b).x0,
        (a.intersect b).y1⟩
    have h4 :=
      hstrip ((a.intersect b).x1 < a.x1) ⟨(a.intersect b).x1, (a.intersect b).y0, a.x1,
        (a.intersect b).y1⟩
    omega

theorem sub_not_isEmpty (ha : ¬ a.IsEmpty) : ∀ r ∈ a.sub b, ¬ r.IsEmpty := by
  intro r hr
  by_cases hi : (a.intersect b).IsEmpty
  · rw [sub, if_pos hi, List.mem_singleton] at hr
    rw [hr]
    exact ha
  · rw [mem_sub hi] at hr
    simp only [IsEmpty, intersect] at ha hi hr ⊢
    rcases hr with ⟨h, rfl⟩ | ⟨h, rfl⟩ | ⟨h, rfl⟩ | ⟨h, rfl⟩
    · dsimp only
      omega
    · dsimp only
      omega
    · dsimp only
      omega
    · dsimp only
      omega

theorem strip_pairwise {g : Prop} [Decidable g] {s : Rect} {R : Rect → Rect → Prop} :
    (if g then [s] else []).Pairwise R := by
  by_cases h : g
  · rw [if_pos h]
    exact List.pairwise_singleton R s
  · rw [if_neg h]
    exact .nil

theorem sub_disjoint (a b : Rect) : (a.sub b).Pairwise fun r q => ¬ r.Intersects q := by
  rw [sub]
  split
  · exact List.pairwise_singleton _ a
  rename_i hi
  simp only [List.pairwise_append, List.mem_append, mem_strip]
  simp only [IsEmpty, intersect] at hi ⊢
  refine ⟨⟨⟨strip_pairwise, strip_pairwise, ?_⟩, strip_pairwise, ?_⟩, strip_pairwise, ?_⟩
  · rintro r ⟨-, rfl⟩ q ⟨-, rfl⟩
    simp only [Intersects, IsEmpty, intersect]
    omega
  · rintro r (⟨-, rfl⟩ | ⟨-, rfl⟩) q ⟨-, rfl⟩
    · simp only [Intersects, IsEmpty, intersect]
      omega
    · simp only [Intersects, IsEmpty, intersect]
      omega
  · rintro r ((⟨-, rfl⟩ | ⟨-, rfl⟩) | ⟨-, rfl⟩) q ⟨-, rfl⟩
    · simp only [Intersects, IsEmpty, intersect]
      omega
    · simp only [Intersects, IsEmpty, intersect]
      omega
    · simp only [Intersects, IsEmpty, intersect]
      omega

theorem sub_partition (a b : Rect) :
    Partition (a.sub b) fun x y => a.Contains x y ∧ ¬ b.Contains x y :=
  ⟨sub_disjoint a b, fun _ _ => sub_covers⟩

theorem Partition.sub_each (h : Partition rs P) (hole : Rect) :
    Partition (rs.flatMap fun r => (r.sub hole).filter fun q => ¬ q.IsEmpty) fun x y => P x y ∧
    ¬ hole.Contains x y := by
  constructor
  · rw [List.pairwise_flatMap]
    refine ⟨fun r _ => (sub_disjoint r hole).filter _, h.disjoint.imp ?_⟩
    intro r q hrq r' hr' q' hq'
    exact not_intersects_of_inside hrq (sub_inside (List.mem_filter.mp hr').1)
      (sub_inside (List.mem_filter.mp hq').1)
  · intro x y
    rw [← h.covers]
    constructor
    · rintro ⟨q, hq, hmem⟩
      obtain ⟨r, hr, hq⟩ := List.mem_flatMap.mp hq
      have hsub := sub_covers.mp ⟨q, (List.mem_filter.mp hq).1, hmem⟩
      exact ⟨⟨r, hr, hsub.1⟩, hsub.2⟩
    · rintro ⟨⟨r, hr, hmem⟩, hhole⟩
      obtain ⟨q, hq, hqmem⟩ := sub_covers.mpr ⟨hmem, hhole⟩
      have hne : ¬ q.IsEmpty := not_isEmpty_iff.mpr ⟨x, y, hqmem⟩
      exact ⟨q, List.mem_flatMap.mpr ⟨r, hr, List.mem_filter.mpr ⟨hq, decide_eq_true hne⟩⟩, hqmem⟩

theorem Partition.fold (h : Partition rs P) (holes : List Rect) :
    Partition (holes.foldl (fun parts hole => parts.flatMap fun r => (r.sub hole).filter fun q =>
      ¬ q.IsEmpty) rs) fun x y => P x y ∧ ∀ hole ∈ holes, ¬ hole.Contains x y := by
  induction holes generalizing rs P with
  | nil => simpa using h
  | cons hole holes ih =>
    have hstep := ih (h.sub_each hole)
    simpa only [List.foldl_cons, List.forall_mem_cons, and_assoc] using hstep

theorem around_partition (dest : Rect) (holes : List Rect) :
    Partition (dest.around holes) fun x y => dest.Contains x y ∧
    ∀ hole ∈ holes, ¬ hole.Contains x y := by
  have hone : Partition [dest] dest.Contains := ⟨List.pairwise_singleton _ dest, fun x y => by simp⟩
  exact hone.fold holes

/-- Taking holes out of a rectangle leaves disjoint parts, none of them empty, that make up the rest
of it. -/
theorem rect_sub_partitions :
    (∀ a hole : Rect, (a.sub hole).length ≤ 4 ∧ (¬ a.IsEmpty → ∀ r ∈ a.sub hole, ¬ r.IsEmpty) ∧
      Partition (a.sub hole) fun x y => a.Contains x y ∧ ¬ hole.Contains x y) ∧
    ∀ (clip : Rect) (holes : List Rect),
      Partition (clip.around holes) fun x y => clip.Contains x y ∧
      ∀ hole ∈ holes, ¬ hole.Contains x y :=
  ⟨fun a hole => ⟨sub_length a hole, sub_not_isEmpty, sub_partition a hole⟩, around_partition⟩

end Rect

section Rounds

variable {t : DrawTarget} {clip : Rect} {parts : List Rect} {color : Color} {p : ℕ × ℕ}

def fillRoundBlend (t : DrawTarget) (x y w h radius : ℕ) (color : Color) (a : UInt8) (clip : Rect) :
    Paint :=
  if a = 255 then fillRound t x y w h radius color clip
  else
    let x1 := min (min (satAdd x w) clip.x1) t.w
    let y1 := min (min (satAdd y h) clip.y1) t.h
    let x0 := max x clip.x0
    let y0 := max y clip.y0
    if x1 ≤ x0 ∨ y1 ≤ y0 then skip
    else range y0 y1 fun py => fillRoundRow t py x y w h (min (min radius (w / 2)) (h / 2))
      x0 x1 color a

theorem fillRoundBlend_apply (t : DrawTarget) (x y w h radius : ℕ) (color : Color) (a : UInt8)
    (clip : Rect) (s : ℕ × ℕ → Color) (p : ℕ × ℕ) :
    fillRoundBlend t x y w h radius color a clip s p = if (clip.Mem p ∧ Within x y w h p) ∧
    t.Has p then
        fillInked x y w h (min (min radius (w / 2)) (h / 2)) color a p (s p)
      else s p := by
  rw [fillRoundBlend]
  by_cases ha : a = 255
  · rw [if_pos ha, ha]
    exact fillRound_apply ..
  · rw [if_neg ha]
    have h :=
      rows_apply t x y w h False (fillInked x y w h (min (min radius (w / 2)) (h / 2)) color a)
      (fun py x0 x1 => fillRoundRow t py x y w h (min (min radius (w / 2)) (h / 2)) x0 x1 color a)
      (fun py x0 x1 s p _ _ => fillRoundRow_apply ..) clip s p
    simp only [or_false, not_false_eq_true, true_and] at h
    exact h

/-- What is made of one pixel with a colour: nothing, the colour put there, or the colour blended in
once. -/
inductive InkedOnce (color : Color) : (Color → Color) → Prop
  | kept : InkedOnce color id
  | put : InkedOnce color fun _ => color
  | blended (a : UInt8) : InkedOnce color fun dst => blend dst color a

theorem inked_once (color : Color) (cov : UInt8) : InkedOnce color (inked color cov) := by
  by_cases h : cov = 255
  · have hput : inked color cov = fun _ => color := funext fun dst => if_pos h
    rw [hput]
    exact .put
  · have hblend : inked color cov = fun dst => blend dst color cov := funext fun dst => if_neg h
    rw [hblend]
    exact .blended cov

theorem fillInked_once (x y w h r : ℕ) (color : Color) (a : UInt8) (p : ℕ × ℕ) :
    InkedOnce color (fillInked x y w h r color a p) := by
  by_cases hsolid : r ≤ p.2 - y ∧ p.2 - y + r < h ∨ satAdd x r ≤ p.1 ∧ p.1 < satAdd x (w - r)
  · have hfull : fillInked x y w h r color a p = inked color a := funext fun dst => if_pos hsolid
    rw [hfull]
    exact inked_once color a
  have hband : fillInked x y w h r color a p = bandInked p.1 p.2 x y w h r color a :=
    funext fun dst => if_neg hsolid
  rw [hband]
  by_cases hcov :
      coverageRound p.1 p.2 x y w h r = 0 ∨ bandAlpha (coverageRound p.1 p.2 x y w h r) a = 0
  · have hkept : bandInked p.1 p.2 x y w h r color a = id := by
      funext dst
      rw [bandInked, if_pos hcov]
      rfl
    rw [hkept]
    exact .kept
  · have hink :
        bandInked p.1 p.2 x y w h r color a =
          inked color (bandAlpha (coverageRound p.1 p.2 x y w h r) a) := by
      funext dst
      rw [bandInked, if_neg hcov]
    rw [hink]
    exact inked_once color _

theorem strokeInked_once (x y w h r : ℕ) (color : Color) (p : ℕ × ℕ) :
    InkedOnce color (strokeInked x y w h r color p) := by
  have hkept : ∀ f : Color → Color, (∀ dst, f dst = dst) → InkedOnce color f := by
    intro f hf
    rw [show f = id from funext hf]
    exact .kept
  by_cases hrow : r ≤ p.2 - y ∧ p.2 - y + r < h
  · by_cases hedge : p.1 = x ∨ p.1 = satAdd x w - 1
    · have hfull : strokeInked x y w h r color p = fun dst => blend dst color 255 := by
        funext dst
        rw [strokeInked, if_pos hrow, if_pos hedge]
      rw [hfull]
      exact .blended 255
    · refine hkept _ fun dst => ?_
      rw [strokeInked, if_pos hrow, if_neg hedge]
  by_cases hcol : satAdd x r ≤ p.1 ∧ p.1 < satAdd x (w - r)
  · by_cases hedge : p.2 - y = 0 ∨ p.2 - y = h - 1
    · have hput : strokeInked x y w h r color p = fun _ => color := by
        funext dst
        rw [strokeInked, if_neg hrow, if_pos hcol, if_pos hedge]
      rw [hput]
      exact .put
    · refine hkept _ fun dst => ?_
      rw [strokeInked, if_neg hrow, if_pos hcol, if_neg hedge]
  by_cases hcov : strokeCoverageRound p.1 p.2 x y w h r = 0
  · refine hkept _ fun dst => ?_
    rw [strokeInked, if_neg hrow, if_neg hcol, cornerInked, if_pos hcov]
  · have hblend : strokeInked x y w h r color p = fun dst =>
        blend dst color (strokeCoverageRound p.1 p.2 x y w h r) := by
      funext dst
      rw [strokeInked, if_neg hrow, if_neg hcol, cornerInked, if_neg hcov]
    rw [hblend]
    exact .blended _

/-- A paint under a clip that makes of each pixel of its region the same whatever the clip is, and
keeps the others. -/
structure ClipLocal (color : Color) (Q : ℕ × ℕ → Prop) (F : Rect → Paint) : Prop where
  inks : ∃ G : ℕ × ℕ → Color → Color, (∀ p, InkedOnce color (G p)) ∧ ∀ clip s p, clip.Mem p → Q p →
    F clip s p = G p (s p)
  keeps : ∀ clip s p, ¬ (clip.Mem p ∧ Q p) → F clip s p = s p

theorem clipLocal_of_apply {F : Rect → Paint} {Q : ℕ × ℕ → Prop} [DecidablePred Q]
    (G : ℕ × ℕ → Color → Color) (hG : ∀ p, InkedOnce color (G p))
    (h : ∀ clip s p, F clip s p = if clip.Mem p ∧ Q p then G p (s p) else s p) :
    ClipLocal color Q F := by
  refine ⟨⟨G, hG, fun clip s p hc hq => ?_⟩, fun _ _ _ hn => ?_⟩
  · rw [h, if_pos ⟨hc, hq⟩]
  · rw [h, if_neg hn]

theorem ClipLocal.each {Q : ℕ × ℕ → Prop} {F : Rect → Paint} (hF : ClipLocal color Q F)
    (hdisj : parts.Pairwise fun r q => ¬ r.Intersects q) (hcov : (∃ r ∈ parts, r.Mem p) ↔
      clip.Mem p) (s : ℕ × ℕ → Color) : each parts F s p = F clip s p := by
  obtain ⟨G, -, hG⟩ := hF.inks
  induction parts generalizing s clip with
  | nil =>
    have hout : ¬ clip.Mem p := fun h => by simpa using hcov.mpr h
    exact (hF.keeps clip s p fun h => hout h.1).symm
  | cons r rs ih =>
    obtain ⟨hr, hrs⟩ := List.pairwise_cons.mp hdisj
    have hcons : Pixel.each (r :: rs) F s p = Pixel.each rs F (F r s) p := rfl
    have hout : Rect.empty.Mem p ↔ False := by simp [Rect.empty, Rect.Contains]
    rw [hcons]
    by_cases hrp : r.Mem p
    · have hrest : (∃ q ∈ rs, q.Mem p) ↔ Rect.empty.Mem p := by
        rw [hout, iff_false]
        rintro ⟨q, hq, hqp⟩
        exact hr q hq (Rect.intersects_iff.mpr ⟨p.1, p.2, hrp, hqp⟩)
      have hclip : clip.Mem p := hcov.mp ⟨r, List.mem_cons_self .., hrp⟩
      rw [ih hrs hrest, hF.keeps _ _ _ fun h => hout.mp h.1]
      by_cases hq : Q p
      · rw [hG r s p hrp hq, hG clip s p hclip hq]
      · rw [hF.keeps r s p fun h => hq h.2, hF.keeps clip s p fun h => hq h.2]
    · have hrest : (∃ q ∈ rs, q.Mem p) ↔ clip.Mem p := by
        rw [← hcov]
        simp [hrp]
      rw [ih hrs hrest]
      by_cases hq : clip.Mem p ∧ Q p
      · rw [hG clip _ p hq.1 hq.2, hG clip s p hq.1 hq.2, hF.keeps r s p fun h => hrp h.1]
      · rw [hF.keeps clip _ p hq, hF.keeps clip s p hq, hF.keeps r s p fun h => hrp h.1]

theorem fillRoundBlend_local (t : DrawTarget) (x y w h radius : ℕ) (color : Color) (a : UInt8) :
    ClipLocal color (fun p => Within x y w h p ∧ t.Has p)
      (fillRoundBlend t x y w h radius color a) :=
  clipLocal_of_apply (fillInked x y w h (min (min radius (w / 2)) (h / 2)) color a)
    (fillInked_once x y w h _ color a) fun _ _ _ =>
      (fillRoundBlend_apply ..).trans (if_congr and_assoc rfl rfl)

theorem fillRound_local (t : DrawTarget) (x y w h radius : ℕ) (color : Color) :
    ClipLocal color (fun p => Within x y w h p ∧ t.Has p) (fillRound t x y w h radius color) := by
  have hfull := fillRoundBlend_local t x y w h radius color 255
  rwa [show fillRoundBlend t x y w h radius color 255 = fillRound t x y w h radius color from
    funext fun clip => if_pos rfl] at hfull

theorem strokeRound_local (t : DrawTarget) (x y w h radius : ℕ) (color : Color) :
    ClipLocal color (fun p => Within x y w h p ∧ ¬ (w < 2 ∨ h < 2) ∧ t.Has p)
      (strokeRound t x y w h radius color) :=
  clipLocal_of_apply (strokeInked x y w h (min (min radius (w / 2)) (h / 2)) color)
    (strokeInked_once x y w h _ color) fun _ _ _ =>
      (strokeRound_apply ..).trans (if_congr and_assoc rfl rfl)

/-- What a partial repaint relies on: painting once under each part of a clip, in any order, comes
to the same pixels as painting under the clip, which keeps what lies outside and inks each other
pixel at most once. -/
structure PartsAlike (t : DrawTarget) (x y w h : ℕ) (color : Color) (F : Rect → Paint) : Prop where
  alike : ∀ clip parts, Rect.Partition parts clip.Contains → each parts F = F clip
  keeps : ∀ clip s p, ¬ clip.Mem p ∨ ¬ Within x y w h p ∨ ¬ t.Has p → F clip s p = s p
  once : ∀ clip p, ∃ g, InkedOnce color g ∧ ∀ s, F clip s p = g (s p)

theorem ClipLocal.partsAlike {x y w h : ℕ} {Q : ℕ × ℕ → Prop} {F : Rect → Paint}
    (hF : ClipLocal color Q F) (hQ : ∀ p, Q p → Within x y w h p ∧ t.Has p) :
    PartsAlike t x y w h color F := by
  constructor
  · intro clip parts hparts
    funext s p
    exact hF.each hparts.disjoint (hparts.covers p.1 p.2) s
  · rintro clip s p hout
    refine hF.keeps clip s p fun hin => ?_
    obtain ⟨hw, ht⟩ := hQ p hin.2
    rcases hout with h | h | h
    · exact h hin.1
    · exact h hw
    · exact h ht
  · intro clip p
    obtain ⟨G, honce, hG⟩ := hF.inks
    by_cases hin : clip.Mem p ∧ Q p
    · exact ⟨G p, honce p, fun s => hG clip s p hin.1 hin.2⟩
    · exact ⟨id, .kept, fun s => hF.keeps clip s p hin⟩

theorem rounds_parts_alike (t : DrawTarget) (x y w h radius : ℕ) (color : Color) (a : UInt8) :
    PartsAlike t x y w h color (fillRound t x y w h radius color) ∧
      PartsAlike t x y w h color (fillRoundBlend t x y w h radius color a) ∧
      PartsAlike t x y w h color (strokeRound t x y w h radius color) :=
  ⟨(fillRound_local ..).partsAlike fun _ h => h, (fillRoundBlend_local ..).partsAlike fun _ h => h,
    (strokeRound_local ..).partsAlike fun _ h => ⟨h.1, h.2.2⟩⟩

end Rounds

end CoeleoOs.Ui
