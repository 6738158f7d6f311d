import CoeleoOs.Ui.Overlay
import CoeleoOs.Ui.TaskBar
import CoeleoOs.Ui.TitleElide

/-!
# The panel under the pointer

The painting walks along the slots with a running position and keeps room for the overflow marker; a
click divides by the width of a slot. The two part where the last slot fits and the marker beside it
does not. Sums that do not saturate wrap, as they do in a release build.
-/

namespace CoeleoOs.Ui

def slotW : ℕ := 36

def tipGap : ℕ := pad / 2

def minTipW : ℕ := 24

/-- The arguments of `paint` and of `hit` with the atomic mode. -/
structure PanelBar where
  font : Font
  scr : Screen
  mode : PanelMode
  tasks : List TaskInfo
  clock : List Char

namespace PanelBar

structure Tray where
  sepX : ℕ
  netX : ℕ
  clockX0 : ℕ
  deriving DecidableEq

structure Tip where
  x : ℕ
  y : ℕ
  w : ℕ
  h : ℕ
  close : Rect

def Tip.area (t : Tip) : Rect := ⟨t.x, t.y, satAdd t.x t.w, satAdd t.y t.h⟩

/-- Something that is painted on the bar, as the columns from `x0` on and before `x1`. -/
structure Part where
  which : PanelHit
  x0 : ℕ
  x1 : ℕ
  deriving DecidableEq

variable (b : PanelBar)

def barY : ℕ := workH b.scr b.mode

def barX0 : ℕ :=
  match b.mode with
  | .float => panelMargin
  | .full => 0

def barX1 : ℕ :=
  match b.mode with
  | .float => b.scr.w - panelMargin
  | .full => b.scr.w

def slotX0 : ℕ := b.barX0 + panelInset

def tasksX0 : ℕ := b.slotX0 + slotW * 2

def clockW : ℕ := b.font.textWidth b.clock

def trayGeom : Tray :=
  let clockX0 := b.barX1 - (pad + b.clockW) % 2 ^ 32
  let netX := clockX0 - (iconPx + pad)
  ⟨netX - pad, netX, clockX0⟩

section Paint

-- The marker of the overflow is no control.
def taskParts (sepX overflow : ℕ) : ℕ → ℕ → List TaskInfo → List Part
  | _, _, [] => []
  | i, sx, _ :: tasks =>
    if sepX < (satAdd sx slotW + overflow) % 2 ^ 32 then [⟨.none, sx, sepX⟩]
    else ⟨.task i, sx, satAdd sx slotW⟩ :: taskParts sepX overflow (i + 1) (satAdd sx slotW) tasks

def paint : List Part :=
  let t := b.trayGeom
  [⟨.launcher, b.slotX0, b.slotX0 + slotW⟩, ⟨.krunner, b.slotX0 + slotW, b.tasksX0⟩] ++
    taskParts t.sepX b.font.w 0 b.tasksX0 b.tasks ++ [⟨.net, t.netX, t.clockX0⟩,
      ⟨.clock, t.clockX0, b.barX1⟩]

def paintOver (x : ℕ) (h : PanelHit) (p : Part) : PanelHit :=
  if p.x0 ≤ x ∧ x < p.x1 then p.which else h

def shown (parts : List Part) (x : ℕ) : PanelHit := parts.foldl (paintOver x) .none

end Paint

section Hit

def tooltipSize (s : List Char) (withClose : Bool) : ℕ × ℕ :=
  let extra := if withClose then satAdd iconPx pad else 0
  (max (satAdd (satAdd (satAdd (b.font.textWidth s) pad) (pad / 2)) extra) minTipW,
    satAdd b.font.h pad)

def tipGeom (i : ℕ) (title : String) (withClose : Bool) : Tip :=
  let size := b.tooltipSize title.toList withClose
  let x0 := b.tasksX0 + i * slotW
  let x := if b.barX1 < satAdd x0 size.1 then b.barX1 - size.1 else x0
  let y := b.barY - satAdd size.2 tipGap
  let cx := satAdd x size.1 - (iconPx + 2)
  let cy := y + (size.2 - iconPx) / 2
  ⟨x, y, size.1, size.2, if withClose then ⟨cx, cy, satAdd cx iconPx, satAdd cy iconPx⟩
    else Rect.empty⟩

def taskTip (i : ℕ) (task : TaskInfo) : Tip := b.tipGeom i task.title (!task.minimized)

def InSlot (i x y : ℕ) : Prop :=
  b.tasksX0 + i * slotW ≤ x ∧ x < b.tasksX0 + i * slotW + slotW ∧ b.barY ≤ y ∧ y < b.barY + panelH

instance (i x y : ℕ) : Decidable (b.InSlot i x y) := inferInstanceAs (Decidable (_ ∧ _))

def InTip (i x y : ℕ) : Prop := ∃ task ∈ b.tasks[i]?, (b.taskTip i task).area.Contains x y

instance (i x y : ℕ) : Decidable (b.InTip i x y) :=
  inferInstanceAs (Decidable (∃ _ ∈ b.tasks[i]?, _))

def OnClose (i x y : ℕ) : Prop :=
  ∃ task ∈ b.tasks[i]?, task.minimized = false ∧ (b.tipGeom i task.title true).close.Contains x y

instance (i x y : ℕ) : Decidable (b.OnClose i x y) :=
  inferInstanceAs (Decidable (∃ _ ∈ b.tasks[i]?, _))

def maxFit : ℕ := (b.trayGeom.sepX - b.tasksX0) / slotW

def tipTask (x y : ℕ) : Option ℕ :=
  (List.range (min b.tasks.length b.maxFit)).find? fun i => b.InSlot i x y ∨ b.InTip i x y

def barHit (x y : ℕ) : PanelHit :=
  let t := b.trayGeom
  if y < b.barY ∨ satAdd b.barY panelH ≤ y ∨ x < b.barX0 ∨ b.barX1 ≤ x then .none
  else if b.slotX0 ≤ x ∧ x < b.slotX0 + slotW then .launcher
  else if b.slotX0 + slotW ≤ x ∧ x < b.slotX0 + slotW * 2 then .krunner
  else if t.clockX0 ≤ x then .clock
  else if t.netX ≤ x ∧ x < t.clockX0 then .net
  else
    let i := (x - b.tasksX0) / slotW
    if b.tasksX0 ≤ x ∧ i < b.tasks.length ∧ i < b.maxFit then .task i else .none

def hit (x y : ℕ) : PanelHit :=
  match b.tipTask x y with
  | some i => if b.OnClose i x y then .taskClose i else .task i
  | none => b.barHit x y

end Hit

def InBar (x y : ℕ) : Prop := b.barX0 ≤ x ∧ x < b.barX1 ∧ b.barY ≤ y ∧ y < b.barY + panelH

/-- Neither a tooltip nor a button that closes its task lies there. -/
def OutsideTips (x y : ℕ) : Prop := ∀ i, ¬b.InTip i x y ∧ ¬b.OnClose i x y

/-- A click finds what the painting has put there last. -/
def Agrees (x y : ℕ) : Prop := b.hit x y = shown b.paint x

section Shown

variable {sepX overflow x : ℕ}

theorem foldl_paintOver_left {h : PanelHit} {parts : List Part} (hx : ∀ p ∈ parts, x < p.x0) :
    parts.foldl (paintOver x) h = h := by
  induction parts generalizing h with
  | nil => rfl
  | cons p parts ih =>
    have hp : ¬ (p.x0 ≤ x ∧ x < p.x1) := fun hc => absurd (hx p List.mem_cons_self) (not_lt.2 hc.1)
    rw [List.foldl_cons, paintOver, if_neg hp]
    exact ih fun q hq => hx q (List.mem_cons_of_mem p hq)

theorem le_satAdd {sx : ℕ} (hsx : sx ≤ 2 ^ 32 - 1) (w : ℕ) : sx ≤ satAdd sx w :=
  le_min (Nat.le_add_right _ _) hsx

theorem satAdd_le (sx w : ℕ) : satAdd sx w ≤ 2 ^ 32 - 1 := Nat.min_le_right _ _

theorem taskParts_from {p : Part} {tasks : List TaskInfo} {i sx : ℕ} (hsx : sx ≤ 2 ^ 32 - 1)
    (hp : p ∈ taskParts sepX overflow i sx tasks) : sx ≤ p.x0 := by
  induction tasks generalizing i sx with
  | nil => simp [taskParts] at hp
  | cons task tasks ih =>
    rw [taskParts] at hp
    split at hp
    · rw [List.mem_singleton] at hp
      rw [hp]
    · rcases List.mem_cons.1 hp with rfl | hp
      · exact le_refl sx
      · exact (le_satAdd hsx slotW).trans (ih (satAdd_le _ _) hp)

/-- The walk paints a slot that begins there. -/
def Room (sepX overflow sx : ℕ) : Prop := (satAdd sx slotW + overflow) % 2 ^ 32 ≤ sepX

instance (sepX overflow sx : ℕ) : Decidable (Room sepX overflow sx) :=
  inferInstanceAs (Decidable (_ ≤ _))

theorem forall_le_succ {p : ℕ → Prop} {k : ℕ} : (∀ j ≤ k + 1, p j) ↔ p 0 ∧ ∀ j ≤ k, p (j + 1) := by
  constructor
  · exact fun h => ⟨h 0 (Nat.zero_le _), fun j hj => h (j + 1) (Nat.succ_le_succ hj)⟩
  · rintro ⟨hzero, hsucc⟩ (_ | j) hj
    · exact hzero
    · exact hsucc j (Nat.le_of_succ_le_succ hj)

theorem taskParts_shown {tasks : List TaskInfo} {i sx : ℕ} (hx : sx ≤ x) (hlt : x < 2 ^ 32 - 1) :
    (taskParts sepX overflow i sx tasks).foldl (paintOver x) .none =
      if (x - sx) / slotW < tasks.length ∧ ∀ j ≤ (x - sx) / slotW,
      Room sepX overflow (sx + j * slotW) then .task (i + (x - sx) / slotW) else .none := by
  induction tasks generalizing i sx with
  | nil => simp [taskParts]
  | cons task tasks ih =>
    rw [taskParts]
    split
    · rename_i hfull
      have hno : ¬ Room sepX overflow (sx + 0 * slotW) := by
        rw [Nat.zero_mul, Nat.add_zero]
        exact Nat.not_le_of_lt hfull
      rw [if_neg fun hc => hno (hc.2 0 (Nat.zero_le _)), List.foldl_cons, List.foldl_nil, paintOver]
      exact ite_self _
    · rename_i hroom
      have hfirst : Room sepX overflow (sx + 0 * slotW) := by
        rw [Nat.zero_mul, Nat.add_zero]
        exact Nat.le_of_not_lt hroom
      rw [List.foldl_cons, paintOver]
      by_cases hin : x < sx + slotW
      · have hk : (x - sx) / slotW = 0 := Nat.div_eq_of_lt (by omega)
        have hover : x < satAdd sx slotW := by
          rw [satAdd]
          omega
        have hleft : ∀ p ∈ taskParts sepX overflow (i + 1) (satAdd sx slotW) tasks, x < p.x0 :=
          fun p hp => lt_of_lt_of_le hover (taskParts_from (satAdd_le _ _) hp)
        have hall : ∀ j ≤ 0, Room sepX overflow (sx + j * slotW) := by
          intro j hj
          rw [Nat.le_zero.1 hj]
          exact hfirst
        rw [if_pos ⟨hx, hover⟩, foldl_paintOver_left hleft, hk, if_pos ⟨Nat.succ_pos _, hall⟩,
          Nat.add_zero]
      · have hpos : 0 < slotW := by decide
        have hsum : satAdd sx slotW = sx + slotW := by
          rw [satAdd]
          omega
        have hk : (x - sx) / slotW = (x - (sx + slotW)) / slotW + 1 := by
          rw [← Nat.sub_sub, ← Nat.add_div_right _ hpos, Nat.sub_add_cancel (by omega)]
        have hi : i + 1 + (x - (sx + slotW)) / slotW = i + ((x - (sx + slotW)) / slotW + 1) := by
          omega
        have hstep (j : ℕ) : sx + slotW + j * slotW = sx + (j + 1) * slotW := by ring
        rw [hsum, if_neg fun hc => hin hc.2, ih (Nat.le_of_not_lt hin), hk, hi]
        refine if_congr ?_ rfl rfl
        simp only [List.length_cons, Nat.add_lt_add_iff_right, forall_le_succ, hfirst,
          true_and, hstep]

end Shown

section Bar

variable {b : PanelBar} {x y : ℕ}

theorem barX1_le : b.barX1 ≤ b.scr.w := by
  rw [barX1]
  split
  · exact Nat.sub_le _ _
  · exact le_refl _

theorem tasksX0_eq : b.tasksX0 = b.slotX0 + 72 := rfl

theorem sepX_eq : b.trayGeom.sepX = b.trayGeom.netX - pad := rfl

theorem netX_le : b.trayGeom.netX ≤ b.trayGeom.clockX0 := Nat.sub_le _ _

theorem lt_maxFit : (x - b.tasksX0) / slotW < b.maxFit ↔
    ((x - b.tasksX0) / slotW + 1) * slotW ≤ b.trayGeom.sepX - b.tasksX0 := by
  rw [maxFit, ← Nat.add_one_le_iff, Nat.le_div_iff_mul_le (by decide)]

theorem inSlot_iff {i : ℕ} (hbar : b.InBar x y) :
    b.InSlot i x y ↔ b.tasksX0 ≤ x ∧ i = (x - b.tasksX0) / slotW := by
  obtain ⟨-, -, hy⟩ := hbar
  have hpos : 0 < slotW := by decide
  constructor
  · rintro ⟨hlo, hhi, -⟩
    refine ⟨le_trans (Nat.le_add_right _ _) hlo, (Nat.div_eq_of_lt_le ?_ ?_).symm⟩
    · omega
    · rw [Nat.succ_mul]
      omega
  · rintro ⟨hx, rfl⟩
    have hlo := Nat.div_mul_le_self (x - b.tasksX0) slotW
    have hhi := Nat.lt_div_mul_add hpos (a := x - b.tasksX0)
    exact ⟨by omega, by omega, hy⟩

theorem barY_lt (hh : b.scr.h < 2 ^ 32) : b.barY + panelH < 2 ^ 32 := by
  rw [barY]
  cases b.mode <;> simp only [workH, satAdd, panelH, panelMargin] <;> omega

theorem barHit_eq (hh : b.scr.h < 2 ^ 32) (hbar : b.InBar x y) : b.barHit x y =
    if b.slotX0 ≤ x ∧ x < b.slotX0 + slotW then .launcher
    else if b.slotX0 + slotW ≤ x ∧ x < b.tasksX0 then .krunner
    else if b.trayGeom.clockX0 ≤ x then .clock
    else if b.trayGeom.netX ≤ x ∧ x < b.trayGeom.clockX0 then .net
    else if b.tasksX0 ≤ x ∧ (x - b.tasksX0) / slotW < b.tasks.length ∧
    (x - b.tasksX0) / slotW < b.maxFit then .task ((x - b.tasksX0) / slotW) else .none := by
  obtain ⟨hx0, hx1, hy0, hy1⟩ := hbar
  have hfit := barY_lt hh
  have hin : ¬ (y < b.barY ∨ satAdd b.barY panelH ≤ y ∨ x < b.barX0 ∨ b.barX1 ≤ x) := by
    rw [satAdd]
    omega
  rw [barHit, if_neg hin]
  rfl

theorem hit_eq (hh : b.scr.h < 2 ^ 32) (hbar : b.InBar x y) (htips : b.OutsideTips x y) :
    b.hit x y = b.barHit x y := by
  have hsep := b.sepX_eq
  have hclock := b.netX_le
  cases hfind : b.tipTask x y with
  | none => rw [hit, hfind]
  | some i =>
    have hhit : b.hit x y = if b.OnClose i x y then .taskClose i else .task i := by rw [hit, hfind]
    rw [tipTask] at hfind
    have hi : i < min b.tasks.length b.maxFit := List.mem_range.1 (List.mem_of_find?_eq_some hfind)
    have hover : b.InSlot i x y ∨ b.InTip i x y := by
      simpa only [decide_eq_true_eq] using List.find?_some hfind
    obtain ⟨htip, hclose⟩ := htips i
    obtain ⟨hx, hidx⟩ := (inSlot_iff hbar).1 (hover.resolve_right htip)
    have hlen : i < b.tasks.length := lt_of_lt_of_le hi (Nat.min_le_left _ _)
    have hfit : i < b.maxFit := lt_of_lt_of_le hi (Nat.min_le_right _ _)
    have hroom := lt_maxFit.1 (hidx ▸ hfit)
    have hslot := Nat.lt_div_mul_add (show 0 < slotW by decide) (a := x - b.tasksX0)
    rw [Nat.succ_mul] at hroom
    have hleft : x < b.trayGeom.netX := by omega
    have htasks := b.tasksX0_eq
    have hw : slotW = 36 := rfl
    rw [hhit, if_neg hclose, barHit_eq hh hbar, if_neg (by omega), if_neg (by omega),
      if_neg (by omega), if_neg (by omega), ← hidx, if_pos ⟨hx, hlen, hfit⟩]

theorem shown_eq (hw : b.scr.w < 2 ^ 32) (hbar : b.InBar x y) : shown b.paint x =
    if b.trayGeom.clockX0 ≤ x then .clock
    else if b.trayGeom.netX ≤ x then .net
    else if b.slotX0 ≤ x ∧ x < b.slotX0 + slotW then .launcher
    else if b.slotX0 + slotW ≤ x ∧ x < b.tasksX0 then .krunner
    else if b.tasksX0 ≤ x ∧ (x - b.tasksX0) / slotW < b.tasks.length ∧
      ∀ j ≤ (x - b.tasksX0) / slotW, Room b.trayGeom.sepX b.font.w (b.tasksX0 + j * slotW)
      then .task ((x - b.tasksX0) / slotW) else .none := by
  have hx1 := barX1_le (b := b)
  have hlt : x < 2 ^ 32 - 1 := by
    have hxbar := hbar.2.1
    omega
  have hstart : b.tasksX0 ≤ 2 ^ 32 - 1 := by
    simp only [tasksX0, slotX0, barX0, panelInset, panelMargin, slotW]
    split <;> omega
  have hfields : paintOver x (paintOver x .none ⟨.launcher, b.slotX0, b.slotX0 + slotW⟩) ⟨.krunner,
      b.slotX0 + slotW, b.tasksX0⟩ = if b.slotX0 ≤ x ∧ x < b.slotX0 + slotW then .launcher
      else if b.slotX0 + slotW ≤ x ∧ x < b.tasksX0 then .krunner else .none := by
    simp only [paintOver]
    split_ifs <;> first | rfl | omega
  have hslots : (taskParts b.trayGeom.sepX b.font.w 0 b.tasksX0 b.tasks).foldl (paintOver x)
      (paintOver x (paintOver x .none ⟨.launcher, b.slotX0, b.slotX0 + slotW⟩) ⟨.krunner,
        b.slotX0 + slotW, b.tasksX0⟩) = if b.slotX0 ≤ x ∧ x < b.slotX0 + slotW then .launcher
      else if b.slotX0 + slotW ≤ x ∧ x < b.tasksX0 then .krunner
      else if b.tasksX0 ≤ x ∧ (x - b.tasksX0) / slotW < b.tasks.length ∧
        ∀ j ≤ (x - b.tasksX0) / slotW, Room b.trayGeom.sepX b.font.w (b.tasksX0 + j * slotW)
        then .task ((x - b.tasksX0) / slotW) else .none := by
    have htasks : b.tasksX0 = b.slotX0 + slotW + slotW := rfl
    rw [hfields]
    by_cases hx : b.tasksX0 ≤ x
    · have hlaunch : ¬ (b.slotX0 ≤ x ∧ x < b.slotX0 + slotW) := by omega
      have hsearch : ¬ (b.slotX0 + slotW ≤ x ∧ x < b.tasksX0) := by omega
      simp only [if_neg hlaunch, if_neg hsearch, taskParts_shown hx hlt, Nat.zero_add, hx, true_and]
    · have hleft : ∀ p ∈ taskParts b.trayGeom.sepX b.font.w 0 b.tasksX0 b.tasks, x < p.x0 :=
        fun p hp => lt_of_lt_of_le (Nat.lt_of_not_le hx) (taskParts_from hstart hp)
      rw [foldl_paintOver_left hleft]
      simp only [hx, false_and, if_false]
  rw [shown, paint, List.foldl_append, List.foldl_append]
  simp only [List.foldl_cons, List.foldl_nil]
  rw [hslots, paintOver, paintOver]
  have hx := hbar.2.1
  by_cases hc : b.trayGeom.clockX0 ≤ x
  · rw [if_pos ⟨hc, hx⟩, if_pos hc]
  · rw [if_neg fun h => hc h.1, if_neg hc]
    by_cases hn : b.trayGeom.netX ≤ x
    · rw [if_pos ⟨hn, Nat.lt_of_not_le hc⟩, if_pos hn]
    · rw [if_neg fun h => hn h.1, if_neg hn]

/-- The tray is painted over the launcher and the search field, and a click looks for these
first. -/
def FieldClear (b : PanelBar) (x : ℕ) : Prop := b.slotX0 ≤ x → x < b.tasksX0 → x < b.trayGeom.netX

/-- The slot of a task fits before the separator exactly where the walk comes to it and has room. -/
def SlotClear (b : PanelBar) (x : ℕ) : Prop :=
  b.tasksX0 ≤ x → x < b.trayGeom.netX → (x - b.tasksX0) / slotW < b.tasks.length →
    (((x - b.tasksX0) / slotW + 1) * slotW ≤ b.trayGeom.sepX - b.tasksX0 ↔
      ∀ j ≤ (x - b.tasksX0) / slotW, Room b.trayGeom.sepX b.font.w (b.tasksX0 + j * slotW))

theorem task_eq_iff {p q : Prop} [Decidable p] [Decidable q] {k : ℕ} :
    (if p then PanelHit.task k else .none) = (if q then .task k else .none) ↔ (p ↔ q) := by
  by_cases hp : p <;> by_cases hq : q <;> simp [hp, hq]

theorem hit_eq_shown_slots (hw : b.scr.w < 2 ^ 32) (hh : b.scr.h < 2 ^ 32) (hbar : b.InBar x y)
    (hx : b.tasksX0 ≤ x) : b.barHit x y = shown b.paint x ↔ b.SlotClear x := by
  have hclock := b.netX_le
  have htasks : b.tasksX0 = b.slotX0 + slotW + slotW := rfl
  have hlaunch : ¬ (b.slotX0 ≤ x ∧ x < b.slotX0 + slotW) := by omega
  have hsearch : ¬ (b.slotX0 + slotW ≤ x ∧ x < b.tasksX0) := by omega
  rw [barHit_eq hh hbar, shown_eq hw hbar, SlotClear]
  simp only [if_neg hlaunch, if_neg hsearch, hx, true_and, true_implies, lt_maxFit]
  by_cases hn : b.trayGeom.netX ≤ x
  · rw [iff_true_right fun hlt => absurd hn (Nat.not_le_of_lt hlt)]
    by_cases hc : b.trayGeom.clockX0 ≤ x
    · rw [if_pos hc, if_pos hc]
    · rw [if_neg hc, if_neg hc, if_pos ⟨hn, Nat.lt_of_not_le hc⟩, if_pos hn]
  · have hc : ¬ b.trayGeom.clockX0 ≤ x := by omega
    rw [if_neg hc, if_neg hc, if_neg fun h => hn h.1, if_neg hn, task_eq_iff, and_congr_right_iff,
      forall_prop_of_true (Nat.lt_of_not_le hn)]

theorem hit_eq_shown_fields (hw : b.scr.w < 2 ^ 32) (hh : b.scr.h < 2 ^ 32) (hbar : b.InBar x y)
    (hx : x < b.tasksX0) : b.barHit x y = shown b.paint x ↔ b.FieldClear x := by
  have hclock := b.netX_le
  have htasks : b.tasksX0 = b.slotX0 + slotW + slotW := rfl
  have hslots : ¬ b.tasksX0 ≤ x := Nat.not_le_of_lt hx
  rw [barHit_eq hh hbar, shown_eq hw hbar, FieldClear]
  simp only [hslots, hx, false_and, and_true, if_false, true_implies]
  by_cases hn : b.trayGeom.netX ≤ x
  · simp only [hn, true_and, if_true, not_lt.2 hn, imp_false]
    by_cases hf : b.slotX0 ≤ x
    · simp only [hf, true_and, not_true, iff_false]
      by_cases hl : x < b.slotX0 + slotW
      · rw [if_pos hl]
        split <;> exact PanelHit.noConfusion
      · rw [if_neg hl, if_pos (Nat.le_of_not_lt hl)]
        split <;> exact PanelHit.noConfusion
    · have hk : ¬ b.slotX0 + slotW ≤ x := by omega
      simp only [hf, hk, false_and, if_false, not_false_eq_true, iff_true]
      by_cases hc : b.trayGeom.clockX0 ≤ x
      · rw [if_pos hc, if_pos hc]
      · rw [if_neg hc, if_neg hc, if_pos (Nat.lt_of_not_le hc)]
  · have hc : ¬ b.trayGeom.clockX0 ≤ x := by omega
    simp only [hc, hn, if_false, false_and, Nat.lt_of_not_le hn, implies_true]

theorem hit_eq_shown (hw : b.scr.w < 2 ^ 32) (hh : b.scr.h < 2 ^ 32) (hbar : b.InBar x y) :
    b.barHit x y = shown b.paint x ↔ b.FieldClear x ∧ b.SlotClear x := by
  by_cases hx : b.tasksX0 ≤ x
  · have hfield : b.FieldClear x := fun _ hlt => absurd hx (Nat.not_le_of_lt hlt)
    rw [hit_eq_shown_slots hw hh hbar hx, and_iff_right hfield]
  · have hslot : b.SlotClear x := fun hle => absurd hle hx
    rw [hit_eq_shown_fields hw hh hbar (Nat.lt_of_not_le hx), and_iff_left hslot]

theorem forall_room_iff {sepX overflow k : ℕ} (hsep : sepX + slotW < 2 ^ 32)
    (hover : b.tasksX0 + slotW + overflow < 2 ^ 32) :
    (∀ j ≤ k, Room sepX overflow (b.tasksX0 + j * slotW)) ↔
    b.tasksX0 + (k + 1) * slotW + overflow ≤ sepX := by
  have hexact {sx : ℕ} (hsum : sx + slotW + overflow < 2 ^ 32) : Room sepX overflow sx ↔
      sx + slotW + overflow ≤ sepX := by
    have hsat : satAdd sx slotW = sx + slotW := by
      rw [satAdd]
      omega
    rw [Room, hsat, Nat.mod_eq_of_lt hsum]
  induction k with
  | zero => simpa using hexact hover
  | succ k ih =>
    have hlast : (∀ j ≤ k + 1, Room sepX overflow (b.tasksX0 + j * slotW)) ↔
        (∀ j ≤ k, Room sepX overflow (b.tasksX0 + j * slotW)) ∧
        Room sepX overflow (b.tasksX0 + (k + 1) * slotW) := by
      simp only [Nat.le_succ_iff, or_imp, forall_and, forall_eq]
    have hmul : (k + 1 + 1) * slotW = (k + 1) * slotW + slotW := Nat.succ_mul _ _
    refine (hlast.trans (and_congr_left' ih)).trans ?_
    rw [hmul, ← Nat.add_assoc]
    constructor
    · rintro ⟨hbefore, hroom⟩
      exact (hexact (by omega)).1 hroom
    · intro hroom
      exact ⟨by omega, (hexact (by omega)).2 hroom⟩

theorem slotClear_iff (hw : b.scr.w < 2 ^ 32) (hfont : b.font.w < 2 ^ 31)
    (hclock : pad + b.clockW < 2 ^ 32) :
    b.SlotClear x ↔ (b.tasksX0 ≤ x → (x - b.tasksX0) / slotW < b.tasks.length →
      ((x - b.tasksX0) / slotW + 1) * slotW ≤ b.trayGeom.sepX - b.tasksX0 →
        ((x - b.tasksX0) / slotW + 1) * slotW + b.font.w ≤ b.trayGeom.sepX - b.tasksX0) := by
  have hwidth : slotW = 36 := rfl
  have hstart : b.tasksX0 < 2 ^ 30 := by
    simp only [tasksX0, slotX0, barX0, panelInset, panelMargin, slotW]
    split <;> omega
  have hsep : b.trayGeom.sepX + slotW < 2 ^ 32 := by
    have hx1 := barX1_le (b := b)
    have hend : b.trayGeom.sepX = b.barX1 - (pad + b.clockW) - (iconPx + pad) - pad := by
      rw [← Nat.mod_eq_of_lt hclock]
      rfl
    have hpad : pad = 8 := rfl
    have hicon : iconPx = 16 := rfl
    omega
  have hslot := Nat.lt_div_mul_add (show 0 < slotW by decide) (a := x - b.tasksX0)
  have hmul := Nat.add_one_mul ((x - b.tasksX0) / slotW) slotW
  have hnet := b.sepX_eq
  rw [SlotClear, forall_room_iff hsep (by omega)]
  constructor
  · intro h hx hlen hfits
    have hroom := (h hx (by omega) hlen).1 hfits
    omega
  · intro h hx hleft hlen
    constructor
    · intro hfits
      have hroom := h hx hlen hfits
      omega
    · intro hroom
      omega

/-- A click finds what the painting has put there last exactly where the tray leaves the launcher
and the search field free and the walk has room for just the slots that the division finds. -/
theorem agrees_iff (b : PanelBar) (x y : ℕ) (hw : b.scr.w < 2 ^ 32) (hh : b.scr.h < 2 ^ 32)
    (hbar : b.InBar x y) (htips : b.OutsideTips x y) :
    b.Agrees x y ↔ b.FieldClear x ∧ b.SlotClear x := by
  rw [Agrees, hit_eq hh hbar htips]
  exact hit_eq_shown hw hh hbar

theorem outsideTips_of_tall (hfont : 4 ≤ b.font.h) (htall : b.font.h + pad + tipGap ≤ b.barY)
    (hbar : b.InBar x y) : b.OutsideTips x y := by
  obtain ⟨-, -, hy, -⟩ := hbar
  have hpad : pad = 8 := rfl
  have hgap : tipGap = 4 := rfl
  have hdeco : decoH = 32 := rfl
  have hicon : iconPx = 16 := rfl
  have hle := b.font.h_le
  have hsize : satAdd b.font.h pad = b.font.h + 8 := satAdd_eq (by omega)
  have hgapped : satAdd (b.font.h + 8) tipGap = b.font.h + 12 := satAdd_eq (by omega)
  have hsat (m n : ℕ) : satAdd m n ≤ m + n := Nat.min_le_left _ _
  have harea (i : ℕ) (task : TaskInfo) : (b.taskTip i task).area.y1 ≤ b.barY := by
    show satAdd (b.barY - satAdd (satAdd b.font.h pad) tipGap) (satAdd b.font.h pad) ≤ b.barY
    rw [hsize, hgapped]
    exact (hsat _ _).trans (by omega)
  have hclose (i : ℕ) (task : TaskInfo) : (b.tipGeom i task.title true).close.y1 ≤ b.barY := by
    show satAdd (b.barY - satAdd (satAdd b.font.h pad) tipGap + (satAdd b.font.h pad - iconPx) / 2)
        iconPx ≤ b.barY
    rw [hsize, hgapped]
    exact (hsat _ _).trans (by omega)
  refine fun i => ⟨?_, ?_⟩
  · rintro ⟨task, -, -, -, -, hbelow⟩
    exact absurd (lt_of_lt_of_le hbelow (harea i task)) (not_lt.2 hy)
  · rintro ⟨task, -, -, -, -, -, hbelow⟩
    exact absurd (lt_of_lt_of_le hbelow (hclose i task)) (not_lt.2 hy)

end Bar

section Sample

def busyBar : PanelBar :=
  ⟨evenFont, ⟨640, 480, 12, none⟩, .float, List.replicate 13 ⟨"Files", true, false, .folder⟩,
    ['1', '2', ':', '3', '4']⟩

theorem busyBar_tips {x : ℕ} (hx : busyBar.InBar x 450) : busyBar.OutsideTips x 450 :=
  outsideTips_of_tall (by decide) (by decide) hx

end Sample

/-- A click on the marker finds the task behind it. -/
theorem marker_opens_task : busyBar.InBar 516 450 ∧ busyBar.OutsideTips 516 450 ∧
    busyBar.hit 516 450 = .task 12 ∧ shown busyBar.paint 516 = .none ∧
    ¬ busyBar.Agrees 516 450 := by
  have hbar : busyBar.InBar 516 450 := by unfold InBar; decide
  have htips := busyBar_tips hbar
  have hhit : busyBar.hit 516 450 = .task 12 := by
    rw [hit_eq (by decide) hbar htips]
    decide
  have hshown : shown busyBar.paint 516 = .none := by
    rw [shown_eq (by decide) hbar]
    decide
  refine ⟨hbar, htips, hhit, hshown, ?_⟩
  rw [Agrees, hhit, hshown]
  exact PanelHit.noConfusion

theorem click_on_files : busyBar.Agrees 100 450 := by
  have hbar : busyBar.InBar 100 450 := by unfold InBar; decide
  refine (agrees_iff busyBar 100 450 (by decide) (by decide) hbar (busyBar_tips hbar)).2 ⟨?_, ?_⟩
  · unfold FieldClear
    decide
  · refine (slotClear_iff (by decide) (by decide) (by decide)).2 ?_
    decide

end PanelBar

end CoeleoOs.Ui
