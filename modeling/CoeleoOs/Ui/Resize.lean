import CoeleoOs.Ui.Clients

/-!
# Dragging an edge of a window

Both axes of `apply_resize` are corrected in the same way: first for the least size, then at
the left or the top of the screen, then for the room that the shadow needs. What becomes of the
edges that are not dragged is found for one axis.
-/

namespace CoeleoOs.Ui
open CoeleoOs.Lib

namespace Edge

def west (edge : Edge) : Bool := edge = .w ∨ edge = .nw ∨ edge = .sw
def east (edge : Edge) : Bool := edge = .e ∨ edge = .ne ∨ edge = .se
def north (edge : Edge) : Bool := edge = .n ∨ edge = .ne ∨ edge = .nw
def south (edge : Edge) : Bool := edge = .s ∨ edge = .se ∨ edge = .sw

theorem not_west_east (edge : Edge) : ¬(edge.west = true ∧ edge.east = true) := by
  cases edge <;> decide

theorem not_north_south (edge : Edge) : ¬(edge.north = true ∧ edge.south = true) := by
  cases edge <;> decide

end Edge

section Axis

def resizeAxis (low high : Bool) (δ lim m o c : ℤ) : ℤ × ℤ :=
  let len := c + (if high then δ else 0) - (if low then δ else 0)
  let start := o + (if low then δ else 0)
  let start := if len < m ∧ low then start - (m - len) else start
  let len := max len m
  let start := max start 0
  if lim < start + len + shadowPx then
    if high ∧ ¬low then (start, max (lim - start - shadowPx) m)
      else (max (lim - len - shadowPx) 0, len)
  else (start, len)

/-- The edges that are not dragged can stay: for a dragged low edge the pointer has not pulled it
out of the screen, and what is clamped for the shadow or the least size was at its place. -/
def AxisKeeps (low high : Bool) (δ lim m o c : ℤ) : Prop :=
  if low then 0 ≤ o + δ ∧ m ≤ o + c ∧ (o + c + shadowPx ≤ lim ∨ o + δ = 0 ∨ o + c = m)
  else if high then True
  else m ≤ c ∧ (o + c + shadowPx ≤ lim ∨ o = 0)

variable {low high : Bool} {δ lim m o c : ℤ}

theorem resizeAxis_bounds (hboth : ¬(low = true ∧ high = true)) :
    0 ≤ (resizeAxis low high δ lim m o c).1 ∧ m ≤ (resizeAxis low high δ lim m o c).2 := by
  cases low with
  | true =>
    obtain rfl : high = false := Bool.eq_false_iff.mpr fun h => hboth ⟨rfl, h⟩
    simp only [resizeAxis, Bool.false_eq_true, false_and, if_false, apply_ite Prod.fst,
      apply_ite Prod.snd]
    omega
  | false =>
    cases high with
    | true =>
      simp only [resizeAxis, Bool.false_eq_true, not_false_eq_true, and_self, if_true,
        and_false, if_false]
      split <;> omega
    | false =>
      simp only [resizeAxis, Bool.false_eq_true, false_and, and_false, if_false]
      split <;> omega

theorem resizeAxis_low :
    (resizeAxis true false δ lim m o c).1 + (resizeAxis true false δ lim m o c).2 = o + c ↔
      AxisKeeps true false δ lim m o c := by
  simp only [resizeAxis, AxisKeeps, if_true, Bool.false_eq_true, false_and, if_false,
    and_true, shadowPx]
  split
  · split <;> omega
  · split <;> omega

theorem resizeAxis_high (ho : 0 ≤ o) : (resizeAxis false true δ lim m o c).1 = o := by
  simp only [resizeAxis, Bool.false_eq_true, and_false, if_false, if_true,
    not_false_eq_true, and_self]
  split <;> omega

theorem resizeAxis_none (ho : 0 ≤ o) :
    ((resizeAxis false false δ lim m o c).1 = o ∧
      (resizeAxis false false δ lim m o c).1 + (resizeAxis false false δ lim m o c).2 = o + c) ↔
      AxisKeeps false false δ lim m o c := by
  simp only [resizeAxis, AxisKeeps, Bool.false_eq_true, and_false, false_and, if_false, shadowPx]
  split <;> omega

theorem resizeAxis_edges (ho : 0 ≤ o) (hboth : ¬(low = true ∧ high = true)) :
    ((low = false → (resizeAxis low high δ lim m o c).1 = o) ∧
      (high = false → (resizeAxis low high δ lim m o c).1 + (resizeAxis low high δ lim m o c).2 =
        o + c)) ↔ AxisKeeps low high δ lim m o c := by
  cases low with
  | true =>
    cases high with
    | true => exact absurd ⟨rfl, rfl⟩ hboth
    | false => simpa using resizeAxis_low
  | false =>
    cases high with
    | true => simpa [AxisKeeps] using resizeAxis_high ho
    | false => simpa using resizeAxis_none ho

theorem resizeAxis_inside (ho : 0 ≤ o) (hboth : ¬(low = true ∧ high = true))
    (hkeep : AxisKeeps low high δ lim m o c) (hin : o + c + shadowPx ≤ lim) :
    (resizeAxis low high δ lim m o c).1 + (resizeAxis low high δ lim m o c).2 + shadowPx ≤ lim ↔
      (high = true → o + m + shadowPx ≤ lim) := by
  have hedges := (resizeAxis_edges ho hboth).mpr hkeep
  cases high with
  | false =>
    rw [hedges.2 rfl]
    simpa using hin
  | true =>
    obtain rfl : low = false := Bool.eq_false_iff.mpr fun h => hboth ⟨h, rfl⟩
    simp only [resizeAxis, Bool.false_eq_true, not_false_eq_true, and_self, if_true, and_false,
      if_false, forall_const]
    split <;> omega

end Axis

def Frame.Inside (scr : Screen) (work : ℕ) (f : Frame) : Prop :=
  f.ox + f.cw + shadowPx ≤ scr.w ∧ f.oy + decoH + f.ch + shadowPx ≤ work

/-- What a drag of an edge that began with the frame `f₀` is to leave as it was. -/
structure Resized (scr : Screen) (work : ℕ) (edge : Edge) (f₀ f : Frame) : Prop where
  left : edge.west = false → f.ox = f₀.ox
  right : edge.east = false → f.ox + f.cw = f₀.ox + f₀.cw
  top : edge.north = false → f.oy = f₀.oy
  bottom : edge.south = false → f.oy + f.ch = f₀.oy + f₀.ch
  wide : minCw ≤ f.cw
  high : minCh ≤ f.ch
  inside : f₀.Inside scr work → f.Inside scr work

/-- The drag by `dx` and `dy` clamps nothing but the dragged edge, and on the right and at the
bottom there is room for a window of the least size. -/
def ResizeKeeps (scr : Screen) (work : ℕ) (edge : Edge) (f₀ : Frame) (dx dy : ℤ) : Prop :=
  AxisKeeps edge.west edge.east dx scr.w minCw f₀.ox f₀.cw ∧
    AxisKeeps edge.north edge.south dy (work - decoH) minCh f₀.oy f₀.ch ∧
    (f₀.Inside scr work → (edge.east = true → f₀.ox + minCw + shadowPx ≤ scr.w) ∧
      (edge.south = true → f₀.oy + decoH + minCh + shadowPx ≤ work))

section Frames

variable {scr : Screen} {work : ℕ} {edge : Edge} {f f₀ : Frame} {cx cy gx gy : ℤ}

def edgeDrag (f₀ : Frame) (gx gy : ℤ) (edge : Edge) : Drag :=
  ⟨f₀.kind, gx, gy, some edge, f₀.ox, f₀.oy, f₀.cw, f₀.ch⟩

theorem resizeFrame_eq (hmax : f.maximized = false) (hmin : f.minimized = false) :
    resizeFrame scr work cx cy (edgeDrag f₀ gx gy edge) edge f =
      { f with
        ox := (resizeAxis edge.west edge.east (cx - gx) scr.w minCw f₀.ox f₀.cw).1.toNat
        oy := (resizeAxis edge.north edge.south (cy - gy) (work - decoH) minCh f₀.oy f₀.ch).1.toNat
        cw := (resizeAxis edge.west edge.east (cx - gx) scr.w minCw f₀.ox f₀.cw).2.toNat
        ch :=
          (resizeAxis edge.north edge.south (cy - gy) (work - decoH) minCh f₀.oy f₀.ch).2.toNat
            } := by
  have hroom :
      ∀ o c : ℤ, (work : ℤ) < o + decoH + c + shadowPx ↔ (work : ℤ) - decoH < o + c + shadowPx := by
    intro o c
    omega
  have hleft : ∀ o : ℤ, (work : ℤ) - o - decoH - shadowPx = work - decoH - o - shadowPx := by
    intro o
    omega
  rw [resizeFrame, if_neg (by simp [hmax, hmin])]
  simp only [edgeDrag, resizeAxis, hroom, hleft]
  rfl

theorem resizeFrame_resized_iff (hmax : f.maximized = false) (hmin : f.minimized = false) :
    Resized scr work edge f₀ (resizeFrame scr work cx cy (edgeDrag f₀ gx gy edge) edge f) ↔
      ResizeKeeps scr work edge f₀ (cx - gx) (cy - gy) := by
  have hox : (0 : ℤ) ≤ f₀.ox := Int.natCast_nonneg _
  have hoy : (0 : ℤ) ≤ f₀.oy := Int.natCast_nonneg _
  have hbx := @resizeAxis_bounds _ _ (cx - gx) scr.w minCw f₀.ox f₀.cw edge.not_west_east
  have hby := @resizeAxis_bounds _ _ (cy - gy) (work - decoH) minCh f₀.oy f₀.ch edge.not_north_south
  have hex := @resizeAxis_edges _ _ (cx - gx) scr.w minCw _ f₀.cw hox edge.not_west_east
  have hey := @resizeAxis_edges _ _ (cy - gy) (work - decoH) minCh _ f₀.ch hoy edge.not_north_south
  have hix := @resizeAxis_inside _ _ (cx - gx) scr.w minCw _ f₀.cw hox edge.not_west_east
  have hiy := @resizeAxis_inside _ _ (cy - gy) (work - decoH) minCh _ f₀.ch hoy edge.not_north_south
  rw [resizeFrame_eq hmax hmin]
  generalize resizeAxis edge.west edge.east (cx - gx) scr.w minCw f₀.ox f₀.cw = x at *
  generalize resizeAxis edge.north edge.south (cy - gy) (work - decoH) minCh f₀.oy f₀.ch = y at *
  have hlx : 0 ≤ x.2 := le_trans (by decide) hbx.2
  have hly : 0 ≤ y.2 := le_trans (by decide) hby.2
  rw [ResizeKeeps, ← hex, ← hey]
  constructor
  · intro h
    have hx :
        (edge.west = false → x.1 = f₀.ox) ∧ (edge.east = false → x.1 + x.2 = f₀.ox + f₀.cw) := by
      refine ⟨fun hw => ?_, fun he => ?_⟩
      · have hleft : x.1.toNat = f₀.ox := h.left hw
        omega
      · have hright : x.1.toNat + x.2.toNat = f₀.ox + f₀.cw := h.right he
        omega
    have hy :
        (edge.north = false → y.1 = f₀.oy) ∧ (edge.south = false → y.1 + y.2 = f₀.oy + f₀.ch) := by
      refine ⟨fun hn => ?_, fun hs => ?_⟩
      · have htop : y.1.toNat = f₀.oy := h.top hn
        omega
      · have hbottom : y.1.toNat + y.2.toNat = f₀.oy + f₀.ch := h.bottom hs
        omega
    refine ⟨hx, hy, fun hin => ?_⟩
    obtain ⟨hinx, hiny⟩ : x.1.toNat + x.2.toNat + shadowPx ≤ scr.w ∧
        y.1.toNat + decoH + y.2.toNat + shadowPx ≤ work := h.inside hin
    rw [Frame.Inside] at hin
    have heast := (hix (hex.mp hx) (by omega)).mp (by omega)
    have hsouth := (hiy (hey.mp hy) (by omega)).mp (by omega)
    refine ⟨heast, fun hs => ?_⟩
    have hroom := hsouth hs
    omega
  · rintro ⟨hx, hy, hroom⟩
    have hright : edge.east = false → x.1.toNat + x.2.toNat = f₀.ox + f₀.cw := fun he => by
      have hend := hx.2 he
      omega
    have hbottom : edge.south = false → y.1.toNat + y.2.toNat = f₀.oy + f₀.ch := fun hs => by
      have hend := hy.2 hs
      omega
    have hinside : f₀.Inside scr work → x.1.toNat + x.2.toNat + shadowPx ≤ scr.w ∧
        y.1.toNat + decoH + y.2.toNat + shadowPx ≤ work := by
      intro hin
      obtain ⟨heast, hsouth⟩ := hroom hin
      rw [Frame.Inside] at hin
      have hinx := (hix (hex.mp hx) (by omega)).mpr heast
      have hiny := (hiy (hey.mp hy) (by omega)).mpr fun hs => by
        have hleast := hsouth hs
        omega
      omega
    exact ⟨fun hw => by rw [hx.1 hw, Int.toNat_natCast], hright, fun hn => by rw [hy.1 hn,
      Int.toNat_natCast], hbottom, hbx.2.trans (Int.self_le_toNat _),
      hby.2.trans (Int.self_le_toNat _), hinside⟩

end Frames

namespace Wm

/-- The frame at `i` is the one whose edge is dragged, and can be resized. -/
structure Grabbed (w : Wm) (i : ℕ) (f₀ : Frame) (gx gy : ℤ) (edge : Edge) : Prop where
  drag : w.drag = some (edgeDrag f₀ gx gy edge)
  found : w.position f₀.kind = some i
  resizable : ∃ f, w.frames[i]? = some f ∧ f.maximized = false ∧ f.minimized = false

def pull (scr : Screen) (work : ℕ) (ps : List (ℤ × ℤ)) (w : Wm) : Wm :=
  ps.foldl (fun w p => w.applyDrag scr work p.1 p.2) w

variable {scr : Screen} {work : ℕ} {w w' : Wm} {i : ℕ} {f f₀ : Frame} {gx gy : ℤ} {edge : Edge}

theorem position_kinds (h : w'.kinds = w.kinds) (kind : FrameKind) :
    w'.position kind = w.position kind := by
  have hmap : ∀ v : Wm, v.position kind = v.kinds.findIdx? fun k => k = kind := fun v => by
    rw [kinds, List.findIdx?_map]
    rfl
  rw [hmap, hmap, h]

theorem Grabbed.applyDrag (h : w.Grabbed i f₀ gx gy edge) (cx cy : ℤ) :
    (w.applyDrag scr work cx cy).Grabbed i f₀ gx gy edge ∧ ∃ f, f.maximized = false ∧
    f.minimized = false ∧ (w.applyDrag scr work cx cy).frames[i]? =
      some (resizeFrame scr work cx cy (edgeDrag f₀ gx gy edge) edge f) := by
  obtain ⟨hdrag, hfound, f, hf, hmax, hmin⟩ := h
  have hsame := applyDrag_same scr work cx cy w
  have happly :
      w.applyDrag scr work cx cy =
        w.modify i (resizeFrame scr work cx cy (edgeDrag f₀ gx gy edge) edge) := by
    have hpos : w.position (edgeDrag f₀ gx gy edge).kind = some i := hfound
    rw [Wm.applyDrag, hdrag]
    dsimp only
    rw [hpos]
    rfl
  have hget :
      (w.applyDrag scr work cx cy).frames[i]? =
        some (resizeFrame scr work cx cy (edgeDrag f₀ gx gy edge) edge f) := by
    rw [happly]
    simp [modify, hf]
  refine ⟨⟨?_, ?_, _, hget, ?_, ?_⟩, f, hmax, hmin, hget⟩
  · rw [happly]
    exact hdrag
  · rw [position_kinds (kinds_same hsame), hfound]
  · rw [resizeFrame_eq hmax hmin]
    exact hmax
  · rw [resizeFrame_eq hmax hmin]
    exact hmin

theorem Grabbed.pull (h : w.Grabbed i f₀ gx gy edge) (ps : List (ℤ × ℤ)) :
    (w.pull scr work ps).Grabbed i f₀ gx gy edge := by
  induction ps generalizing w with
  | nil => exact h
  | cons p ps ih => exact ih (h.applyDrag p.1 p.2).1

/-- Wherever the pointer has been, only the dragged edge has moved exactly if its last place does
not make another one give way. -/
theorem resize_moves_edge_iff (h : w.Grabbed i f₀ gx gy edge) (ps : List (ℤ × ℤ)) (p : ℤ × ℤ) :
    (∃ f, (w.pull scr work (ps ++ [p])).frames[i]? = some f ∧ Resized scr work edge f₀ f) ↔
      ResizeKeeps scr work edge f₀ (p.1 - gx) (p.2 - gy) := by
  obtain ⟨-, f, hmax, hmin, hget⟩ := (@Grabbed.pull scr work _ _ _ _ _ _ h ps).applyDrag p.1 p.2
  have hlast : w.pull scr work (ps ++ [p]) = (w.pull scr work ps).applyDrag scr work p.1 p.2 := by
    rw [Wm.pull, List.foldl_append]
    rfl
  rw [hlast, hget, ← resizeFrame_resized_iff hmax hmin]
  simp

def grabbed (f₀ : Frame) (gx gy : ℤ) (edge : Edge) : Wm :=
  ⟨[f₀], .term, false, false, false, some (edgeDrag f₀ gx gy edge)⟩

def smallFrame : Frame := frameNew .files 100 80 640 400

theorem smallFrame_grabbed : (grabbed smallFrame 103 200 .w).Grabbed 0 smallFrame 103 200 .w :=
  ⟨rfl, by decide, smallFrame, rfl, rfl, rfl⟩

theorem resize_inside_screen :
    (∃ f, ((grabbed smallFrame 103 200 .w).pull ⟨1024, 768, 16, none⟩ 729 ([(50, 200)] ++
      [(60, 201)])).frames[0]? = some f ∧ Resized ⟨1024, 768, 16, none⟩ 729 .w smallFrame f) ↔
    ResizeKeeps ⟨1024, 768, 16, none⟩ 729 .w smallFrame (60 - 103) (201 - 200) :=
  resize_moves_edge_iff smallFrame_grabbed [(50, 200)] (60, 201)

/-- The left edge, taken three pixels inside the frame and pulled to the left end of the screen,
takes the right one along. -/
theorem left_edge_moves_right :
    ¬∃ f, ((grabbed smallFrame 103 200 .w).pull ⟨1024, 768, 16, none⟩ 729 [(0, 200)]).frames[0]? =
      some f ∧ Resized ⟨1024, 768, 16, none⟩ 729 .w smallFrame f := by
  rintro ⟨f, hf, h⟩
  have hend :
      (((grabbed smallFrame 103 200 .w).pull ⟨1024, 768, 16, none⟩ 729 [(0, 200)]).frames[0]?.map
        fun f => f.ox + f.cw) = some 743 := by
    decide
  have hkeep := h.right (by decide)
  rw [hf] at hend
  have hmoved : f.ox + f.cw = 743 := Option.some.inj hend
  rw [hmoved] at hkeep
  exact absurd hkeep (by decide)

end Wm

theorem State.clickEdge_grabbed {φ : Type} {st : State φ} {i : ℕ} {f : Frame} (edge : Edge)
    (hf : st.wm.frames[i]? = some f) (hmax : f.maximized = false) (hmin : f.minimized = false)
    (hone : ∀ j g, st.wm.frames[j]? = some g → g.kind = f.kind → j = i) :
    (st.clickEdge i f edge).wm.Grabbed (st.wm.frames.length - 1) f st.cx st.cy edge := by
  obtain ⟨hi, -⟩ := List.getElem?_eq_some_iff.mp hf
  have hframes : (st.clickEdge i f edge).wm.frames = st.wm.frames.eraseIdx i ++ [f] := by
    rw [clickEdge, beginDrag, hmax]
    exact ZOrder.raise_eq hf
  have hlen : (st.wm.frames.eraseIdx i).length = st.wm.frames.length - 1 :=
    List.length_eraseIdx_of_lt hi
  have hother : (st.wm.frames.eraseIdx i).findIdx? (fun g => g.kind = f.kind) = none := by
    rw [List.findIdx?_eq_none_iff]
    intro g hg
    obtain ⟨j, hj, hget⟩ := List.mem_eraseIdx_iff_getElem?.mp hg
    exact decide_eq_false fun hkind => hj (hone j g hget hkind)
  refine ⟨?_, ?_, f, ?_, hmax, hmin⟩
  · rw [clickEdge, beginDrag, hmax]
    rfl
  · rw [Wm.position, hframes, List.findIdx?_append, hother, hlen]
    simp
  · rw [hframes, ← hlen]
    exact List.getElem?_concat_length

end CoeleoOs.Ui
