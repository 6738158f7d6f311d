import CoeleoOs.Lib.Cell
import CoeleoOs.Lib.Machine
import CoeleoOs.Ui.Clients
import CoeleoOs.Ui.Present

/-!
# Reports of damage

A surface has room for one damaged rectangle. Every system call first polls the
compositor, and every poll takes the pending rectangles and repaints their union
before it turns to the mouse. So the cell of a surface is empty whenever
`sys_damage` fills it, whatever windows are moved, closed or created in between.
-/

namespace CoeleoOs.Ui
open CoeleoOs.Lib CoeleoOs.Lib.Machine CoeleoOs.Task

structure PosWin where
  win : Win
  pos : Fin maxSurfaces → ℕ × ℕ

structure DirtyFrame where
  sx : ℕ
  sy : ℕ
  w : ℕ
  h : ℕ
  deriving DecidableEq

def DirtyFrame.rect (f : DirtyFrame) : Rect := ⟨f.sx, f.sy, satAdd f.sx f.w, satAdd f.sy f.h⟩

namespace PosWin

variable (w : PosWin)

def dirty (i : Fin maxSurfaces) : Option (ℕ × ℕ × ℕ × ℕ) := (w.win.slots i).bind Surface.dirty

def setFramePos (id ox oy : ℕ) : PosWin :=
  match Table.position fun i => (w.win.slots i).any fun s => s.id = id with
  | some i => { w with pos := Function.update w.pos i (ox, oy) }
  | none => w

def dirtyFrame (i : Fin maxSurfaces) : Option DirtyFrame :=
  (w.dirty i).map fun (x, y, wd, ht) =>
    ⟨satAdd (w.pos i).1 x, satAdd (satAdd (w.pos i).2 decoH) y, wd, ht⟩

def drainDirty : List DirtyFrame × PosWin :=
  ((List.finRange maxSurfaces).filterMap w.dirtyFrame,
    { w with win := { w.win with slots := fun i => (w.win.slots i).map fun s => { s with
      dirty := none } } })

end PosWin

def presentClip (frames : List DirtyFrame) : Rect :=
  frames.foldl (fun clip f => clip.union f.rect) .empty

inductive Deed
  | close (id : ℕ)
  | move (id ox oy : ℕ)
  | queue (q : List Queued)

def Deed.apply (w : PosWin) : Deed → PosWin
  | .close id => { w with win := w.win.dropId id }
  | .move id ox oy => w.setFramePos id ox oy
  | .queue q => { w with win := { w.win with q := q } }

/-- A system call of a client with its pid. The position of a new window is what `place`
returned. -/
inductive Call
  | create (pid : Option ℕ) (w h buf : ℕ) (pos : ℕ × ℕ)
  | damage (pid : Option ℕ) (id xy wh : ℕ)
  | pollInput (pid : Option ℕ) (buf len : ℕ)
  | exit (pid : ℕ)
  | other
  deriving DecidableEq

/-- Outside of the window code; in a poll before or after the drain, which may be the
prologue of a call; or in the call itself. -/
inductive Stage
  | away
  | early (c : Option Call)
  | late (c : Option Call)
  | body (c : Call)
  deriving DecidableEq

structure Server where
  stage : Stage
  w : PosWin

namespace Server

inductive Op
  | poll
  | syscall (c : Call)
  | deed (d : Deed)
  | present
  | finish
  | run (e : Env)
  /-- A process ends by a fault. -/
  | dropPid (pid : ℕ)

def runCall (ready : Bool) (e : Env) (w : PosWin) : Call → Option (ℕ × PosWin)
  | .create pid wd ht buf pos =>
    ((sysCreate ready pid wd ht buf).out e w.win).map fun r =>
      (r.1, ⟨r.2, fun i => if r.1 = i.val + 1 then pos else w.pos i⟩)
  | .damage pid id xy wh =>
    ((sysDamage pid id xy wh).out e w.win).map fun r => (r.1, { w with win := r.2 })
  | .pollInput pid buf len =>
    ((sysPollInput pid buf len).out e w.win).map fun r => (r.1, { w with win := r.2 })
  | .exit pid => some (0, { w with win := w.win.dropPid pid })
  | .other => some (0, w)

/-- `ready` says whether the compositor is up; a poll does nothing before. -/
def step (ready : Bool) (s : Server) : Op → Option Server
  | .poll => if s.stage = .away ∧ ready = true then some { s with stage := .early none } else none
  | .syscall c =>
    if s.stage = .away then some { s with stage := if ready then .early (some c) else .body c }
      else none
  | .deed d =>
    match s.stage with
    | .early _ => some { s with w := d.apply s.w }
    | .late _ => some { s with w := d.apply s.w }
    | _ => none
  | .present =>
    match s.stage with
    | .early c => some ⟨.late c, s.w.drainDirty.2⟩
    | _ => none
  | .finish =>
    match s.stage with
    | .late none => some { s with stage := .away }
    | .late (some c) => some { s with stage := .body c }
    | _ => none
  | .run e =>
    match s.stage with
    | .body c => (runCall ready e s.w c).map fun r => ⟨.away, r.2⟩
    | _ => none
  | .dropPid pid =>
    if s.stage = .away then some { s with w := { s.w with win := s.w.win.dropPid pid } } else none

def init : Server := ⟨.away, ⟨Win.init, fun _ => (0, 0)⟩⟩

/-- A pending rectangle is taken at a position of its surface and presented within a clip. -/
abbrev Note := Cell.Note (ℕ × ℕ × ℕ × ℕ) ((ℕ × ℕ) × Rect)

def closes (w : PosWin) (i : Fin maxSurfaces) (p : Surface → Bool) : List Note :=
  if (w.win.slots i).any p then [.dropped] else []

def note (i : Fin maxSurfaces) (s : Server) : Op → List Note
  | .deed (.close id) => closes s.w i fun x => x.id = id
  | .dropPid pid => closes s.w i fun x => x.pid = pid
  | .present =>
    match s.w.dirty i with
    | some r => [.took r (s.w.pos i, presentClip s.w.drainDirty.1)]
    | none => []
  | .run e =>
    match s.stage with
    | .body (.exit pid) => closes s.w i fun x => x.pid = pid
    | .body (.damage pid id xy wh) =>
      match (sysDamage pid id xy wh).out e s.w.win, s.w.win.reported pid id xy wh with
      | some (0, _), some (slot, _, r) => if slot = i then [.put r] else []
      | _, _ => []
    | _ => []
  | _ => []

/-- What a run does to the cell of a slot. -/
def log (i : Fin maxSurfaces) (ts : List (Trans Server Op)) : List Note :=
  ts.flatMap fun t => note i t.pre t.act

def Stage.drained : Stage → Prop
  | .late _ | .body _ => True
  | _ => False

structure Inv (ready : Bool) (s : Server) : Prop where
  drained : Stage.drained s.stage → ∀ i, s.w.dirty i = none
  unready : ready = false → ∀ i, s.w.win.slots i = none

section Steps

variable {w w' : PosWin} {i : Fin maxSurfaces} {ready : Bool}

theorem closes_follows {p : Surface → Bool}
    (h : w'.win.slots i = (w.win.slots i).filter fun x => !p x) :
    Cell.Follows (w.dirty i) (closes w i p) (w'.dirty i) := by
  unfold closes PosWin.dirty
  rw [h]
  cases hx : w.win.slots i with
  | none => exact .nil none
  | some x =>
    cases hp : p x with
    | true =>
      rw [Option.any_some, hp, if_pos rfl, Option.filter_some, hp]
      exact .dropped _ (.nil none)
    | false =>
      rw [Option.any_some, hp, if_neg Bool.false_ne_true, Option.filter_some, hp]
      exact .nil _

theorem dropId_slots (w : Win) (id : ℕ) (i : Fin maxSurfaces) :
    (w.dropId id).slots i = (w.slots i).filter fun x => !decide (x.id = id) := by
  simp only [Win.dropId, ne_eq, decide_not]

theorem dropPid_slots (w : Win) (pid : ℕ) (i : Fin maxSurfaces) :
    (w.dropPid pid).slots i = (w.slots i).filter fun x => !decide (x.pid = pid) := by
  simp only [Win.dropPid, ne_eq, decide_not]

theorem setFramePos_win (w : PosWin) (id ox oy : ℕ) : (w.setFramePos id ox oy).win = w.win := by
  unfold PosWin.setFramePos
  split <;> rfl

theorem dirty_of_slots {w w' : PosWin} (h : w'.win.slots i = w.win.slots i) :
    w'.dirty i = w.dirty i := by
  unfold PosWin.dirty
  rw [h]

theorem dirty_of_some {x : Surface} (h : w.win.slots i = some x) : w.dirty i = x.dirty := by
  rw [PosWin.dirty, h, Option.bind_some]

theorem drainDirty_dirty (w : PosWin) (i : Fin maxSurfaces) : w.drainDirty.2.dirty i = none := by
  unfold PosWin.dirty
  change ((w.win.slots i).map fun s => { s with dirty := none }).bind Surface.dirty = none
  cases w.win.slots i <;> rfl

theorem deed_follows (d : Deed) (w : PosWin) (i : Fin maxSurfaces) :
    Cell.Follows (w.dirty i) (note i ⟨.away, w⟩ (.deed d)) ((d.apply w).dirty i) := by
  cases d with
  | close id => exact closes_follows (dropId_slots w.win id i)
  | move id ox oy =>
    have hkeep : (w.setFramePos id ox oy).dirty i = w.dirty i :=
      dirty_of_slots (by rw [setFramePos_win])
    rw [Deed.apply, hkeep]
    exact .nil _
  | queue q => exact .nil _

theorem deed_empty {d : Deed} (h : w.win.slots i = none) : (d.apply w).win.slots i = none := by
  cases d with
  | close id => rw [Deed.apply, dropId_slots, h]; rfl
  | move id ox oy => rw [Deed.apply, setFramePos_win, h]
  | queue q => exact h

theorem closes_no_put (p : Surface → Bool) (r : ℕ × ℕ × ℕ × ℕ) : .put r ∉ closes w i p := by
  unfold closes
  split <;> simp

theorem deed_no_put (d : Deed) (st : Stage) (r : ℕ × ℕ × ℕ × ℕ) :
    .put r ∉ note i ⟨st, w⟩ (.deed d) := by
  cases d with
  | close id => exact closes_no_put _ r
  | move id ox oy | queue q => exact List.not_mem_nil

theorem present_follows (w : PosWin) (st : Stage) (i : Fin maxSurfaces) :
    Cell.Follows (w.dirty i) (note i ⟨st, w⟩ .present) (w.drainDirty.2.dirty i) := by
  rw [drainDirty_dirty]
  simp only [note]
  cases w.dirty i with
  | none => exact .nil none
  | some r => exact .took _ (.nil none)

theorem runCall_follows {c : Call} {e : Env} {v : ℕ} (hclean : w.dirty i = none)
    (hc : runCall ready e w c = some (v, w')) :
    Cell.Follows (w.dirty i) (note i ⟨.body c, w⟩ (.run e)) (w'.dirty i) := by
  cases c with
  | create pid wd ht buf pos =>
    obtain ⟨⟨u, g⟩, hout, hr⟩ := Option.map_eq_some_iff.mp hc
    obtain ⟨rfl, rfl⟩ := Prod.mk.inj hr
    obtain ⟨hcase, -⟩ := sysCreate_wp u g hout
    have hkeep :
        PosWin.dirty ⟨g, fun i => if u = i.val + 1 then pos else w.pos i⟩ i = w.dirty i := by
      rcases hcase with ⟨-, rfl⟩ | ⟨slot, p, px, hfree, -, rfl⟩
      · rfl
      · by_cases hi : i = slot
        · subst hi
          have hold : w.dirty i = none := by rw [PosWin.dirty, hfree, Option.bind_none]
          rw [hold]
          exact dirty_of_some (x := ⟨i.val + 1, p, wd % 2 ^ 32, ht % 2 ^ 32, px, buf, none⟩)
            (Function.update_self ..)
        · exact dirty_of_slots (Function.update_of_ne hi _ _)
    rw [hkeep]
    exact .nil _
  | damage pid id xy wh =>
    obtain ⟨⟨u, g⟩, hout, hr⟩ := Option.map_eq_some_iff.mp hc
    obtain ⟨rfl, rfl⟩ := Prod.mk.inj hr
    rcases sysDamage_wp u g hout with ⟨rfl, rfl⟩ | ⟨rfl, slot, surf, px, r, hrep, hsurf, rfl⟩
    · simp only [note, hout]
      exact .nil _
    · simp only [note, hout, hrep]
      by_cases hi : i = slot
      · subst hi
        rw [if_pos rfl, hclean]
        have hnew : PosWin.dirty { w with win := { w.win with
            slots := Function.update w.win.slots i (some { surf with buf := px, dirty := some r }) }
              } i = some r :=
          dirty_of_some (x := { surf with buf := px, dirty := some r }) (Function.update_self ..)
        rw [hnew]
        exact .put (.nil _)
      · rw [if_neg (Ne.symm hi)]
        have hkeep : PosWin.dirty { w with win := { w.win with
            slots :=
              Function.update w.win.slots slot (some { surf with buf := px, dirty := some r }) } }
                i = w.dirty i :=
          dirty_of_slots (Function.update_of_ne hi _ _)
        rw [hkeep]
        exact .nil _
  | pollInput pid buf len =>
    obtain ⟨⟨u, g⟩, hout, hr⟩ := Option.map_eq_some_iff.mp hc
    obtain ⟨rfl, rfl⟩ := Prod.mk.inj hr
    have hkeep : PosWin.dirty { w with win := g } i = w.dirty i :=
      dirty_of_slots (by rw [sysPollInput_wp u g hout])
    rw [hkeep]
    exact .nil _
  | exit pid =>
    obtain ⟨-, rfl⟩ := Prod.mk.inj (Option.some.inj hc)
    exact closes_follows (dropPid_slots w.win pid i)
  | other =>
    obtain ⟨-, rfl⟩ := Prod.mk.inj (Option.some.inj hc)
    exact .nil _

theorem runCall_empty {c : Call} {e : Env} {v : ℕ} (hready : ready = false)
    (h : ∀ i, w.win.slots i = none) (hc : runCall ready e w c = some (v, w')) :
    ∀ i, w'.win.slots i = none := by
  intro i
  cases c with
  | create pid wd ht buf pos =>
    obtain ⟨⟨u, g⟩, hout, hr⟩ := Option.map_eq_some_iff.mp hc
    obtain ⟨rfl, rfl⟩ := Prod.mk.inj hr
    rw [hready] at hout
    obtain ⟨-, rfl⟩ := Prod.mk.inj (Option.some.inj hout)
    exact h i
  | damage pid id xy wh =>
    obtain ⟨⟨u, g⟩, hout, hr⟩ := Option.map_eq_some_iff.mp hc
    obtain ⟨rfl, rfl⟩ := Prod.mk.inj hr
    rcases sysDamage_wp u g hout with ⟨-, rfl⟩ | ⟨-, slot, surf, px, r, -, hsurf, -⟩
    · exact h i
    · rw [h slot] at hsurf
      cases hsurf
  | pollInput pid buf len =>
    obtain ⟨⟨u, g⟩, hout, hr⟩ := Option.map_eq_some_iff.mp hc
    obtain ⟨rfl, rfl⟩ := Prod.mk.inj hr
    rw [sysPollInput_wp u g hout]
    exact h i
  | exit pid =>
    obtain ⟨-, rfl⟩ := Prod.mk.inj (Option.some.inj hc)
    rw [dropPid_slots, h i]
    rfl
  | other =>
    obtain ⟨-, rfl⟩ := Prod.mk.inj (Option.some.inj hc)
    exact h i

variable {s s' : Server}

theorem dirty_of_empty (h : w.win.slots i = none) :
    w.dirty i = none := by rw [PosWin.dirty, h, Option.bind_none]

theorem step_follows {op : Op} (h : s.step ready op = some s') (hi : s.Inv ready) :
    (∀ i, Cell.Follows (s.w.dirty i) (note i s op) (s'.w.dirty i)) ∧ s'.Inv ready := by
  obtain ⟨stage, w⟩ := s
  cases op with
  | poll =>
    obtain ⟨-, hs⟩ := Option.ite_none_right_eq_some.mp h
    obtain rfl := Option.some.inj hs
    exact ⟨fun i => .nil _, fun hd => hd.elim, hi.unready⟩
  | syscall c =>
    obtain ⟨-, hs⟩ := Option.ite_none_right_eq_some.mp h
    obtain rfl := Option.some.inj hs
    refine ⟨fun i => .nil _, fun hd i => ?_, hi.unready⟩
    cases ready with
    | true => exact hd.elim
    | false => exact dirty_of_empty (hi.unready rfl i)
  | deed d =>
    have hfollows := deed_follows d w
    have hempty : ready = false → ∀ i, (d.apply w).win.slots i = none :=
      fun hr i => deed_empty (hi.unready hr i)
    cases stage with
    | early c =>
      obtain rfl := Option.some.inj h
      exact ⟨hfollows, fun hd => hd.elim, hempty⟩
    | late c =>
      obtain rfl := Option.some.inj h
      refine ⟨hfollows, fun _ i => ?_, hempty⟩
      have hi' := hfollows i
      rw [hi.drained trivial i] at hi'
      exact hi'.stays_empty (deed_no_put d _)
    | away | body c => cases h
  | present =>
    cases stage with
    | early c =>
      obtain rfl := Option.some.inj h
      refine ⟨present_follows w _, fun _ => drainDirty_dirty w, fun hr i => ?_⟩
      change (w.win.slots i).map _ = none
      rw [hi.unready hr i]
      rfl
    | away | late c | body c => cases h
  | finish =>
    cases stage with
    | late c =>
      cases c with
      | none =>
        obtain rfl := Option.some.inj h
        exact ⟨fun i => .nil _, fun hd => hd.elim, hi.unready⟩
      | some c =>
        obtain rfl := Option.some.inj h
        exact ⟨fun i => .nil _, fun _ => hi.drained trivial, hi.unready⟩
    | away | early c | body c => cases h
  | run e =>
    cases stage with
    | body c =>
      obtain ⟨⟨v, w'⟩, hc, rfl⟩ := Option.map_eq_some_iff.mp h
      exact ⟨fun i => runCall_follows (hi.drained trivial i) hc, fun hd => hd.elim,
        fun hr => runCall_empty hr (hi.unready hr) hc⟩
    | away | early c | late c => cases h
  | dropPid pid =>
    obtain ⟨hstage, hs⟩ := Option.ite_none_right_eq_some.mp h
    obtain rfl := Option.some.inj hs
    refine ⟨fun i => closes_follows (dropPid_slots w.win pid i), fun hd => ?_, fun hr i => ?_⟩
    · rw [show stage = .away from hstage] at hd
      exact hd.elim
    · rw [dropPid_slots, hi.unready hr i]
      rfl

end Steps

section Cover

/-- The pixels of a client rectangle when its surface is at a position. -/
def placed (pos : ℕ × ℕ) (r : ℕ × ℕ × ℕ × ℕ) (px py : ℕ) : Prop :=
  pos.1 + r.1 ≤ px ∧ px < pos.1 + r.1 + r.2.2.1 ∧ pos.2 + decoH + r.2.1 ≤ py ∧
    py < pos.2 + decoH + r.2.1 + r.2.2.2

theorem contains_foldl_union {frames : List DirtyFrame} {clip : Rect} {px py : ℕ}
    (h : clip.Contains px py ∨ ∃ f ∈ frames, f.rect.Contains px py) :
    (frames.foldl (fun clip f => clip.union f.rect) clip).Contains px py := by
  induction frames generalizing clip with
  | nil =>
    rcases h with h | ⟨f, hf, -⟩
    · exact h
    · cases hf
  | cons f fs ih =>
    refine ih ?_
    rcases h with h | ⟨g, hg, h⟩
    · exact .inl ((Rect.inside_union_left (Rect.not_isEmpty_iff.mpr ⟨px, py, h⟩)).contains h)
    · rcases List.mem_cons.mp hg with rfl | hg
      · exact .inl ((Rect.inside_union_right (Rect.not_isEmpty_iff.mpr ⟨px, py, h⟩)).contains h)
      · exact .inr ⟨g, hg, h⟩

theorem presentClip_covers {w : PosWin} {i : Fin maxSurfaces} {r : ℕ × ℕ × ℕ × ℕ}
    (h : w.dirty i = some r) {px py : ℕ} (hp : placed (w.pos i) r px py) (hx : px < u32Max)
    (hy : py < u32Max) : (presentClip w.drainDirty.1).Contains px py := by
  obtain ⟨x, y, wd, ht⟩ := r
  have hframe : w.dirtyFrame i = some ⟨satAdd (w.pos i).1 x, satAdd (satAdd (w.pos i).2 decoH) y,
      wd, ht⟩ := by
    rw [PosWin.dirtyFrame, h, Option.map_some]
  refine contains_foldl_union (.inr ⟨_, List.mem_filterMap.mpr ⟨i, List.mem_finRange i, hframe⟩,
    ?_⟩)
  obtain ⟨h1, h2, h3, h4⟩ := hp
  have hsat : ∀ a b : ℕ, satAdd a b = min (a + b) (2 ^ 32 - 1) := fun _ _ => rfl
  dsimp only at h1 h2 h3 h4
  simp only [DirtyFrame.rect, Rect.Contains, hsat]
  unfold u32Max at hx hy
  generalize (w.pos i).1 = ox at *
  generalize (w.pos i).2 = oy at *
  generalize hmax : 2 ^ 32 - 1 = m at *
  exact ⟨by omega, by omega, by omega, by omega⟩

end Cover

theorem log_follows {ready : Bool} {ts : List (Trans Server Op)} {s : Server}
    (h : Path (step ready) init ts s) : (∀ i, Cell.Follows none (log i ts) (s.w.dirty i)) ∧
    s.Inv ready := by
  induction h with
  | nil => exact ⟨fun i => .nil none, fun hd => hd.elim, fun _ _ => rfl⟩
  | snoc op _ hs ih =>
    obtain ⟨hfollows, hinv⟩ := step_follows hs ih.2
    refine ⟨fun i => ?_, hinv⟩
    rw [log, List.flatMap_append, List.flatMap_singleton]
    exact (ih.1 i).append (hfollows i)

theorem note_took {i : Fin maxSurfaces} {s : Server} {op : Op} {r : ℕ × ℕ × ℕ × ℕ} {pos : ℕ × ℕ}
    {clip : Rect} (h : .took r (pos, clip) ∈ note i s op) : s.w.dirty i = some r ∧ pos = s.w.pos i ∧
    clip = presentClip s.w.drainDirty.1 := by
  have hcloses : ∀ p, .took r (pos, clip) ∉ closes s.w i p := fun p hp => by
    unfold closes at hp
    split at hp <;> simp at hp
  unfold note at h
  split at h
  · exact absurd h (hcloses _)
  · exact absurd h (hcloses _)
  · split at h
    · next r' hr =>
      obtain ⟨rfl, rfl, rfl⟩ : r = r' ∧ pos = s.w.pos i ∧ clip = presentClip s.w.drainDirty.1 := by
        simpa using h
      exact ⟨hr, rfl, rfl⟩
    · cases h
  · split at h
    · exact absurd h (hcloses _)
    · split at h
      · split at h <;> simp at h
      · cases h
    · cases h
  · cases h

/-- Each rectangle for which `sys_damage` returned 0 is the one that the next note on its surface
takes or drops, only such rectangles are taken, and what is then presented covers the rectangle
where the surface stands. After its drain no poll leaves one behind. -/
theorem reports_presented {ready : Bool} {ts : List (Trans Server Op)} {s : Server}
    (h : Path (step ready) init ts s) (i : Fin maxSurfaces) :
    (∀ l r l', log i ts = l ++ .put r :: l' → (l' = [] ∧ s.w.dirty i = some r) ∨
      (∃ pos clip l'', l' = .took r (pos, clip) :: l'') ∨ ∃ l'', l' = .dropped :: l'') ∧
    (∀ l r b l', log i ts = l ++ .took r b :: l' → ∃ l₀, l = l₀ ++ [.put r]) ∧
    (∀ r pos clip, .took r (pos, clip) ∈ log i ts → ∀ px py, placed pos r px py → px < u32Max →
      py < u32Max → clip.Contains px py) ∧
    (Stage.drained s.stage → s.w.dirty i = none) := by
  obtain ⟨hfollows, hinv⟩ := log_follows h
  refine ⟨fun l r l' hl => ?_, fun l r b l' hl => ?_, fun r pos clip hmem px py hp hx hy => ?_,
    fun hd => hinv.drained hd i⟩
  · have hcell := hfollows i
    rw [hl] at hcell
    rcases hcell.put_settled with hend | ⟨⟨pos, clip⟩, l'', hl'⟩ | hdrop
    · exact .inl hend
    · exact .inr (.inl ⟨pos, clip, l'', hl'⟩)
    · exact .inr (.inr hdrop)
  · have hcell := hfollows i
    rw [hl] at hcell
    exact hcell.took_put
  · obtain ⟨t, -, ht⟩ := List.mem_flatMap.mp hmem
    obtain ⟨hr, rfl, rfl⟩ := note_took ht
    exact presentClip_covers hr hp hx hy

theorem second_report_presented : ∃ ts s, Path (step true) init ts s ∧ (log 0 ts).length = 3 ∧
    ∀ l r b l', log 0 ts = l ++ .took r b :: l' → ∃ l₀, l = l₀ ++ [.put r] := by
  obtain ⟨r, hr, hp⟩ := exists_path_of_replay (step true) init
    [.syscall (.create (some 7) 2 2 4096 (10, 20)), .present, .finish, .run (Sample.env []),
      .syscall (.damage (some 7) 1 0 (1 + 2 ^ 32)), .present, .finish, .run (Sample.env []),
      .syscall (.damage (some 7) 1 1 (2 + 2 ^ 32)), .deed (.move 1 40 50), .present, .finish,
      .run (Sample.env [])]
    (fun r => decide ((log 0 r.1).length = 3)) (by decide)
  exact ⟨r.1, r.2, hr, of_decide_eq_true hp, (reports_presented hr 0).2.1⟩

end Server

end CoeleoOs.Ui
