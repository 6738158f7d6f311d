import CoeleoOs.Ui.Buttons
import CoeleoOs.Ui.FocusTop

/-!
# The mouse at the compositor

The mouse sends packets, a poll drains those that have arrived since the last one, and keys
and the windows of clients come in between.
-/

namespace CoeleoOs.Ui
open CoeleoOs.Lib CoeleoOs.Lib.Machine CoeleoOs.Fs CoeleoOs.Input
open CoeleoOs.Task (Bytes)

/-- What the pointer is over in a poll, and the tick. -/
structure Look where
  t : ℕ
  confirm : ConfirmHit
  onDeskMenu : Bool
  onFilesMenu : Bool
  filesMenuRow : Option ℕ
  krunner : KrunnerHit
  onLauncher : Bool
  launcherRow : Option ℕ
  panel : PanelHit
  reply : Reply

def Look.mouse (l : Look) (ev : MouseEvent) : Mouse where
  dx := ev.dx
  dy := ev.dy
  leftDown := ev.leftDown
  leftUp := ev.leftUp
  rightDown := ev.rightDown
  t := l.t
  confirm := l.confirm
  onDeskMenu := l.onDeskMenu
  onFilesMenu := l.onFilesMenu
  filesMenuRow := l.filesMenuRow
  krunner := l.krunner
  onLauncher := l.onLauncher
  launcherRow := l.launcherRow
  panel := l.panel
  reply := l.reply

/-- The compositor, the driver with its ring, and the left button in the last packet that the
mouse has sent. -/
structure Pointer (φ : Type) where
  queue : Bytes
  driver : MouseDriver
  left : Bool
  st : State φ

inductive PointerAct (φ : Type)
  | poll (ps : List Packet) (look : Look)
  | other (e : Event φ)

def Event.isMouse {φ : Type} : Event φ → Bool
  | .mouse _ => true
  | _ => false

namespace State

variable {φ η : Type} (fat : FatIo φ η) (scr : Screen)

def handlesPress (ev : Mouse) (st : State φ) : Bool :=
  st.isClick ev && !(ev.rightDown && (st.settle scr ev).wm.drag.isNone)

theorem pollMouse_press {ev : Mouse} {st : State φ} (h : st.handlesPress scr ev = true) :
    st.pollMouse fat scr ev =
      let st := st.settle scr ev
      let r := st.clickOn fat scr ev (st.target scr ev)
      if r.2 then r.1 else r.1.release scr ev := by
  rw [handlesPress, Bool.and_eq_true, Bool.not_eq_true', Bool.and_eq_false_iff] at h
  have hright : ¬(ev.rightDown = true ∧ (st.settle scr ev).wm.drag.isNone = true) := by
    rcases h.2 with h | h
    · simp [h]
    · simp [h]
  rw [pollMouse]
  dsimp only
  rw [if_neg hright, h.1, if_pos rfl]

end State

namespace Pointer

variable {φ η : Type} (fat : FatIo φ η) (scr : Screen)

def drained (s : Pointer φ) (ps : List Packet) : Option MouseEvent × MouseDriver :=
  s.driver.drain ((ps.flatMap Packet.bytes).foldl pushMouse s.queue) none none

def step (s : Pointer φ) : PointerAct φ → Option (Pointer φ)
  | .poll ps look =>
    let r := s.drained ps
    some
      { queue := []
        driver := r.2
        left := Signal.level s.left (Packet.lefts ps)
        st := match r.1 with
          | none => s.st
          | some ev => s.st.pollMouse fat scr (look.mouse ev) }
  | .other e => if e.isMouse then none else (s.st.step fat scr e).map fun st => { s with st := st }

def init (mode : PanelMode) (wall : Option Bytes) (m : Mount φ) : Pointer φ :=
  ⟨[], .init, false, .init fat mode wall m⟩

/-- After a poll the compositor holds the button if the mouse does, drags nothing without it,
and has handled every press. -/
structure Tracks (s : Pointer φ) (ps : List Packet) (look : Look) (s' : Pointer φ) : Prop where
  held : s'.st.btnHeld = s'.left
  drag : s'.left = false → s'.st.wm.drag = none
  press : Signal.rises s.left (Packet.lefts ps) = true →
    ∃ ev, (s.drained ps).1 = some ev ∧ s.st.handlesPress scr (look.mouse ev) = true

/-- The packets that are lost hide no change of the left button, and a press comes alone. -/
structure Plain (s : Pointer φ) (ps : List Packet) : Prop where
  seen : Signal.level s.left (Packet.lefts (Packet.seen ps)) = Signal.level s.left (Packet.lefts ps)
  press : Signal.rises s.left (Packet.lefts ps) = true →
    s.left = false ∧ Signal.level s.left (Packet.lefts ps) = true ∧
      Signal.rises s.driver.prevRight (Packet.rights (Packet.seen ps)) = false

structure Settled (s : Pointer φ) : Prop where
  queue : s.queue = []
  pkt : s.driver.pkt = []
  prevLeft : s.driver.prevLeft = s.left
  held : s.st.btnHeld = s.left
  drag : s.left = false → s.st.wm.drag = none

variable {fat scr} {s s' : Pointer φ} {ps : List Packet} {look : Look}

theorem init_settled (mode : PanelMode) (wall : Option Bytes) (m : Mount φ) :
    (init fat mode wall m).Settled :=
  ⟨rfl, rfl, rfl, rfl, fun _ => rfl⟩

theorem Settled.merged (h : s.Settled) (ps : List Packet) :
    s.driver.Merged (Packet.seen ps) (s.drained ps) := by
  rw [drained, h.queue]
  exact MouseDriver.merged_drain h.pkt ps

theorem seen_rises (h : Signal.rises s.left (Packet.lefts (Packet.seen ps)) = true) :
    Signal.rises s.left (Packet.lefts ps) = true :=
  Signal.rises_of_sublist ((Packet.seen_sublist ps).map _) h

theorem level_of_settled (h : s.Settled) (hstep : step fat scr s (.poll ps look) = some s')
    (hr : Signal.rises s.left (Packet.lefts ps) = false) :
    s'.st.btnHeld = Signal.level s.left (Packet.lefts (Packet.seen ps)) ∧
      (s'.st.btnHeld = false → s'.st.wm.drag = none) := by
  have hm := h.merged ps
  have hseen : Signal.rises s.left (Packet.lefts (Packet.seen ps)) = false := by
    by_contra hc
    rw [Bool.not_eq_false] at hc
    rw [seen_rises hc] at hr
    cases hr
  obtain rfl := Option.some.inj hstep
  dsimp only
  cases he : (s.drained ps).1 with
  | none =>
    rw [hm.quiet he]
    exact ⟨h.held, fun hb => h.drag (h.held.symm.trans hb)⟩
  | some ev =>
    have hdown : (look.mouse ev).leftDown = false := by
      rw [← hseen, ← h.prevLeft]
      exact hm.leftDown ev he
    have hup : (look.mouse ev).leftUp = Signal.falls s.left (Packet.lefts (Packet.seen ps)) := by
      rw [← h.prevLeft]
      exact hm.leftUp ev he
    have hheld : (s.st.pollMouse fat scr (look.mouse ev)).btnHeld =
        Signal.level s.left (Packet.lefts (Packet.seen ps)) := by
      rw [State.pollMouse_btnHeld, hdown, hup, Bool.false_or, h.held,
        Signal.level_of_not_rises hseen]
    refine ⟨hheld, fun hb => State.pollMouse_drag_none (by simp [State.isClick, hdown]) ?_⟩
    rw [hheld, Signal.level_of_not_rises hseen, ← hup] at hb
    cases hl : s.left with
    | false => exact .inl (h.drag hl)
    | true =>
      rw [hl] at hb
      simpa using Or.inr (a := s.st.wm.drag = none) hb

theorem left_of_step (hstep : step fat scr s (.poll ps look) = some s') :
    s'.left = Signal.level s.left (Packet.lefts ps) := by
  obtain rfl := Option.some.inj hstep
  rfl

theorem driver_of_step (h : s.Settled) (hstep : step fat scr s (.poll ps look) = some s') :
    s'.queue = [] ∧ s'.driver.pkt = [] ∧ s'.driver.prevLeft =
      Signal.level s.left (Packet.lefts (Packet.seen ps)) := by
  have hm := h.merged ps
  obtain rfl := Option.some.inj hstep
  refine ⟨rfl, hm.pkt, ?_⟩
  rw [← h.prevLeft]
  exact hm.prevLeft

theorem press_of_plain (h : s.Settled) (hp : s.Plain ps)
    (hstep : step fat scr s (.poll ps look) = some s')
    (hr : Signal.rises s.left (Packet.lefts ps) = true) : s'.st.btnHeld = true ∧
    ∃ ev, (s.drained ps).1 = some ev ∧ s.st.handlesPress scr (look.mouse ev) = true := by
  have hm := h.merged ps
  have hseen := hp.seen
  obtain ⟨hup, hlevel, hright⟩ := hp.press hr
  rw [hlevel, hup] at hseen
  obtain rfl := Option.some.inj hstep
  dsimp only
  cases he : (s.drained ps).1 with
  | none =>
    rw [hm.quiet he] at hseen
    cases hseen
  | some ev =>
    have hdown : (look.mouse ev).leftDown = true := by
      have hrise := hm.leftDown ev he
      rw [h.prevLeft, hup, Signal.rises_of_level hseen] at hrise
      exact hrise
    have hnone : (look.mouse ev).rightDown = false := (hm.rightDown ev he).trans hright
    refine ⟨?_, ev, rfl, ?_⟩
    · rw [State.pollMouse_btnHeld, hdown, Bool.true_or]
    · simp [State.handlesPress, State.isClick, hdown, hnone, h.held, hup]

theorem tracks_iff (h : s.Settled) (hstep : step fat scr s (.poll ps look) = some s') :
    Tracks scr s ps look s' ∧ s'.driver.prevLeft = s'.left ↔ s.Plain ps := by
  have hleft := left_of_step hstep
  obtain ⟨-, -, hprev⟩ := driver_of_step h hstep
  have hm := h.merged ps
  constructor
  · rintro ⟨ht, hagree⟩
    refine ⟨by rw [← hprev, hagree, hleft], fun hr => ?_⟩
    obtain ⟨ev, he, hpress⟩ := ht.press hr
    rw [State.handlesPress, State.isClick, Bool.and_eq_true, Bool.and_eq_true, Bool.not_eq_true',
      Bool.not_eq_true', h.held] at hpress
    obtain ⟨⟨hdown, hup⟩, hright⟩ := hpress
    have hdrag : (s.st.settle scr (look.mouse ev)).wm.drag = none :=
      State.settle_drag_none (h.drag hup)
    rw [hdrag, Option.isNone_none, Bool.and_true] at hright
    refine ⟨hup, ?_, ?_⟩
    · rw [← hleft, ← ht.held]
      obtain rfl := Option.some.inj hstep
      dsimp only
      rw [he]
      dsimp only
      rw [State.pollMouse_btnHeld, hdown, Bool.true_or]
    · rw [← hm.rightDown ev he]
      exact hright
  · intro hp
    refine ⟨?_, by rw [hprev, hleft, hp.seen]⟩
    cases hr : Signal.rises s.left (Packet.lefts ps) with
    | false =>
      obtain ⟨hheld, hdrag⟩ := level_of_settled h hstep hr
      have hsame : s'.st.btnHeld = s'.left := by rw [hheld, hleft, hp.seen]
      refine ⟨hsame, fun hl => hdrag (hsame.trans hl), fun hc => ?_⟩
      rw [hr] at hc
      cases hc
    | true =>
      obtain ⟨hheld, hpress⟩ := press_of_plain h hp hstep hr
      have hdown : s'.left = true := hleft.trans (hp.press hr).2.1
      refine ⟨hheld.trans hdown.symm, fun hl => ?_, fun _ => hpress⟩
      rw [hdown] at hl
      cases hl

theorem poll_settled (h : s.Settled) (hp : s.Plain ps)
    (hstep : step fat scr s (.poll ps look) = some s') : s'.Settled := by
  obtain ⟨hqueue, hpkt, -⟩ := driver_of_step h hstep
  obtain ⟨ht, hprev⟩ := (tracks_iff h hstep).mpr hp
  exact ⟨hqueue, hpkt, hprev, ht.held, ht.drag⟩

theorem step_other {e : Event φ} {st st' : State φ} (he : e.isMouse = false)
    (hstep : st.step fat scr e = some st') :
    st'.btnHeld = st.btnHeld ∧ (st.wm.drag = none → st'.wm.drag = none) := by
  have hops : e.creates = false → (∀ op ∈ st.ops scr fat e, op.plain = true) → st.wm.drag = none →
      st'.wm.drag = none := by
    intro hc hplain hdrag
    have hdesk := congrArg (fun d : Desk => d.wm.drag) (State.step_ops hc hstep)
    exact hdesk.trans (WmOp.run_drag_none hplain hdrag)
  cases e with
  | irq key =>
    cases hstep
    obtain ⟨ks, hks⟩ := State.dispatch_eq key st
    rw [hks]
    exact ⟨rfl, id⟩
  | key r =>
    refine ⟨?_, hops rfl fun op hop => ?_⟩
    · rw [State.step] at hstep
      cases hkeys : st.keys with
      | nil =>
        rw [hkeys] at hstep
        cases hstep
      | cons k ks =>
        rw [hkeys] at hstep
        cases hstep
        exact State.applyKey_btnHeld k _
    · rw [State.ops] at hop
      cases hkeys : st.keys.head? with
      | none => simp [hkeys] at hop
      | some k =>
        rw [hkeys] at hop
        exact State.keyOps_plain k st op hop
  | mouse ev => cases he
  | clientCreate id cw ch ox oy =>
    cases hstep
    exact ⟨rfl, fun h => h⟩
  | clientClose id =>
    refine ⟨?_, hops rfl (by simp [State.ops, WmOp.plain])⟩
    cases hstep
    exact State.onClientClose_btnHeld id st
  | volume m =>
    cases hstep
    exact ⟨rfl, id⟩

theorem other_settled {e : Event φ} (h : s.Settled) (hstep : step fat scr s (.other e) = some s') :
    s'.Settled := by
  rw [step] at hstep
  cases he : e.isMouse with
  | true =>
    rw [he] at hstep
    cases hstep
  | false =>
    rw [he, if_neg (by simp), Option.map_eq_some_iff] at hstep
    obtain ⟨st, hst, rfl⟩ := hstep
    obtain ⟨hheld, hdrag⟩ := step_other he hst
    exact ⟨h.queue, h.pkt, h.prevLeft, hheld.trans h.held, fun hl => hdrag (h.drag hl)⟩

end Pointer

abbrev PointerRun {φ η : Type} (fat : FatIo φ η) (scr : Screen) (mode : PanelMode)
    (wall : Option Bytes) (m : Mount φ) (ts : List (Trans (Pointer φ) (PointerAct φ)))
    (s : Pointer φ) : Prop :=
  Path (Pointer.step fat scr) (Pointer.init fat mode wall m) ts s

namespace Pointer

variable {φ η : Type} {fat : FatIo φ η} {scr : Screen}

def PollTracks (scr : Screen) (t : Trans (Pointer φ) (PointerAct φ)) : Prop :=
  match t.act with
  | .poll ps look => Tracks scr t.pre ps look t.post
  | .other _ => True

def PollPlain (t : Trans (Pointer φ) (PointerAct φ)) : Prop :=
  match t.act with
  | .poll ps _ => t.pre.Plain ps
  | .other _ => True

theorem settled_step (t : Trans (Pointer φ) (PointerAct φ))
    (hstep : step fat scr t.pre t.act = some t.post) (h : t.pre.Settled)
    (hp : PollPlain t) : t.post.Settled := by
  obtain ⟨s, a, s'⟩ := t
  cases a with
  | poll ps look => exact poll_settled h hp hstep
  | other e => exact other_settled h hstep

/-- Over a run of plain polls, with keys and windows in between, no poll loses the left button. -/
theorem button_never_stuck {mode : PanelMode} {wall : Option Bytes} {m : Mount φ}
    {ts : List (Trans (Pointer φ) (PointerAct φ))} {s : Pointer φ}
    (h : PointerRun fat scr mode wall m ts s) (hp : ∀ t ∈ ts, PollPlain t) :
    ∀ t ∈ ts, PollTracks scr t := by
  intro t ht
  have hsettled := h.invariant_pre (init_settled mode wall m) settled_step hp t ht
  have hplain := hp t ht
  have hstep := h.step_of_mem t ht
  obtain ⟨s, a, s'⟩ := t
  cases a with
  | poll ps look => exact ((tracks_iff hsettled hstep).mpr hplain).1
  | other e => trivial

instance (s : Pointer φ) (ps : List Packet) : Decidable (s.Plain ps) :=
  decidable_of_iff
    (Signal.level s.left (Packet.lefts (Packet.seen ps)) = Signal.level s.left (Packet.lefts ps) ∧
      (Signal.rises s.left (Packet.lefts ps) = true →
        s.left = false ∧ Signal.level s.left (Packet.lefts ps) = true ∧
          Signal.rises s.driver.prevRight (Packet.rights (Packet.seen ps)) = false))
    ⟨fun h => ⟨h.1, h.2⟩, fun h => ⟨h.seen, h.press⟩⟩

instance (t : Trans (Pointer φ) (PointerAct φ)) : Decidable (PollPlain t) :=
  match t with
  | ⟨s, .poll ps _, _⟩ => inferInstanceAs (Decidable (s.Plain ps))
  | ⟨_, .other _, _⟩ => .isTrue trivial

section Sample

open State (listFat oneFile screen noReply openBoth)

def overDesktop : Look := ⟨100, .outside, false, false, none, .outside, false, none, .none, noReply⟩

def packet (b1 b2 : UInt8) (left : Bool) : Packet :=
  match left with
  | true => ⟨0x09, b1, b2, by decide⟩
  | false => ⟨0x08, b1, b2, by decide⟩

theorem title_bar_dragged : ∃ ts s, PointerRun listFat screen .float none oneFile ts s ∧
    (∀ t ∈ ts, PollTracks screen t) ∧ (∃ t ∈ ts, t.pre.st.wm.drag.isSome = true ∧
      t.post.st.wm.drag.isSome = false) ∧ ∃ t ∈ ts, t.post.left = true ∧
      t.post.st.btnHeld = true := by
  obtain ⟨⟨ts, s⟩, hrun, hp⟩ :=
    exists_path_of_replay (step listFat screen) (init listFat .float none oneFile)
    (openBoth.map .other ++
      [.poll [packet 44 36 true] overDesktop, .poll [packet 20 0 true, packet 0 0 true] overDesktop,
        .poll [packet 0 0 false] overDesktop])
    (fun r => (r.1.all fun t => decide (PollPlain t)) &&
      ((r.1.any fun t => decide (t.pre.st.wm.drag.isSome = true ∧
        t.post.st.wm.drag.isSome = false)) && r.1.any fun t =>
          decide (t.post.left = true ∧ t.post.st.btnHeld = true))) (by decide)
  simp only [Bool.and_eq_true, List.all_eq_true, List.any_eq_true, decide_eq_true_eq] at hp
  exact ⟨ts, s, hrun, button_never_stuck hrun hp.1, hp.2⟩

/-- A press and the release after it in one poll leave the button held, and the next press is
lost. -/
theorem quick_press_sticks :
    ∃ ts s, PointerRun listFat screen .float none oneFile ts s ∧ s.left = true ∧
    (∃ t ∈ ts, t.post.left = false ∧ t.post.st.btnHeld = true) ∧
    ¬∀ t ∈ ts, PollTracks screen t := by
  obtain ⟨⟨ts, s⟩, hrun, hp⟩ :=
    exists_path_of_replay (step listFat screen) (init listFat .float none oneFile)
    [.poll [packet 0 0 true, packet 0 0 false] overDesktop, .poll [packet 0 0 true] overDesktop]
    (fun r => decide (r.2.left = true) &&
      r.1.any fun t => decide (t.post.left = false ∧ t.post.st.btnHeld = true) &&
        match t.act with
        | .poll _ _ => true
        | .other _ => false) (by decide)
  simp only [Bool.and_eq_true, List.any_eq_true, decide_eq_true_eq] at hp
  obtain ⟨hleft, t, ht, hstuck, hpoll⟩ := hp
  refine ⟨ts, s, hrun, hleft, ⟨t, ht, hstuck⟩, fun hall => ?_⟩
  have htracks := hall t ht
  obtain ⟨pre, a, post⟩ := t
  cases a with
  | poll ps look =>
    have hheld := htracks.held
    rw [hstuck.1, hstuck.2] at hheld
    cases hheld
  | other e => cases hpoll

end Sample

end Pointer

end CoeleoOs.Ui
