import CoeleoOs.Task.ArgvLayout
import CoeleoOs.Ui.Widgets

/-!
# Programs over the widget library

A program draws its frame out of widgets, and its loop runs one frame for each batch of events
that it polls. The library keeps one press and one key of a batch.
-/

namespace CoeleoOs.Ui
open CoeleoOs.Task (Bytes leNat leBytes leNat_leBytes leBytes_length)

/-- `Ui` of the widget library, with the text field that has the focus. -/
structure UiState extends Widgets where
  focus : Option (ℕ × ℕ × ℕ)

/-- What a frame calls, and how it goes on with the answers. -/
inductive Layout (σ : Type)
  | done (s : σ)
  | press (x y w h : ℕ) (enabled : Bool) (k : Bool → Layout σ)
  | field (x y w : ℕ) (buf : Bytes) (k : Bool → Bytes → Layout σ)
  | key (k : Option UInt8 → Layout σ)
  | hovering (x y w h : ℕ) (k : Bool → Layout σ)
  | downOutside (x y w h : ℕ) (k : Bool → Layout σ)

namespace UiState

def new : UiState := ⟨.new, none⟩

def evAt (bytes : Bytes) (i : ℕ) : InputEv :=
  let slice4 (j : ℕ) := UInt32.ofNat (leNat ((bytes.drop (i + j)).take 4))
  ⟨slice4 0, slice4 4, slice4 8, slice4 12⟩

def events (bytes : Bytes) : List InputEv :=
  (List.range (bytes.length / evSize)).map fun n => evAt bytes (n * evSize)

def feed (bytes : Bytes) (ui : UiState) : UiState :=
  { ui with toWidgets := ui.toWidgets.feed (events bytes) }

def finish (ui : UiState) : UiState := { ui with toWidgets := ui.toWidgets.finish }

def editBuf (buf : Bytes) (ui : UiState) : Bytes × UiState :=
  match ui.key with
  | none => (buf, ui)
  | some k =>
    let n := buf.findIdx fun b => b = 0
    if k = keyBack then (if 0 < n then buf.set (n - 1) 0 else buf, { ui with key := none })
    else if 0x20 ≤ k ∧ k ≤ 0x7E ∧ n + 1 < buf.length
      then ((buf.set n k).set (n + 1) 0, { ui with key := none })
    else (buf, ui)

def field (fontH x y w : ℕ) (buf : Bytes) (ui : UiState) : Bool × Bytes × UiState :=
  let hit := Widgets.inRect ui.mouse x y w (fontH + pad)
  let ui := if hit then { ui with mouse := none, focus := some (x, y, w) } else ui
  (hit, if ui.focus = some (x, y, w) then ui.editBuf buf else (buf, ui))

end UiState

namespace Layout

variable {σ : Type} (fontH : ℕ)

def run : Layout σ → UiState → σ × UiState
  | done s, ui => (s, ui)
  | press x y w h enabled k, ui =>
    let r := ui.toWidgets.pressed x y w h enabled
    (k r.1).run { ui with toWidgets := r.2 }
  | field x y w buf k, ui =>
    let r := ui.field fontH x y w buf
    (k r.1 r.2.1).run r.2.2
  | key k, ui => (k ui.key).run ui
  | hovering x y w h k, ui => (k (ui.toWidgets.hovering x y w h)).run ui
  | downOutside x y w h k, ui => (k (ui.toWidgets.downOutside x y w h)).run ui

end Layout

/-- A program that starts its frames from a state of its own. -/
abbrev App (σ : Type) := σ → Layout σ

namespace App

variable {σ : Type} (fontH : ℕ) (app : App σ)

def frame (evs : List InputEv) (p : σ × UiState) : σ × UiState :=
  let r := (app p.1).run fontH (p.2.feed (evs.flatMap evBytes))
  (r.1, r.2.finish)

def run (batches : List (List InputEv)) (p : σ × UiState) : σ × UiState :=
  batches.foldl (fun p evs => app.frame fontH evs p) p

/-- A frame without a press and a key leaves the program as it is. -/
def Idle : Prop := ∀ s ui, ui.mouse = none → ui.key = none → ((app s).run fontH ui).1 = s

end App

/-- Each event in a batch of its own. -/
def singles (batches : List (List InputEv)) : List (List InputEv) :=
  batches.flatten.map fun ev => [ev]

/-- Whether `feed` keeps the event: a key, or a press with coordinates that are not negative. -/
def InputEv.counts (ev : InputEv) : Bool :=
  ev.kind = 3 || (ev.kind = 2 && ev.x < 0x80000000 && ev.y < 0x80000000)

section Packing

theorem evBytes_length (ev : InputEv) : (evBytes ev).length = evSize := by
  simp [evBytes, leBytes_length]

theorem evAt_evBytes (ev : InputEv) (rest : Bytes) : UiState.evAt (evBytes ev ++ rest) 0 = ev := by
  have hword : ∀ (n : UInt32), UInt32.ofNat (leNat (leBytes 4 n.toNat)) = n := by
    intro n
    rw [leNat_leBytes 4 n.toNat (by have := n.toNat_lt; omega), UInt32.ofNat_toNat]
  have hlen : ∀ n, (leBytes 4 n).length = 4 := leBytes_length 4
  have hpast : ∀ n j, 4 ≤ j → (leBytes 4 n).drop j = [] :=
    fun n j hj => List.drop_eq_nil_of_le ((hlen n).le.trans hj)
  have hwhole : ∀ n, (leBytes 4 n).take 4 = leBytes 4 n :=
    fun n => List.take_of_length_le (hlen n).le
  have hslice :
      ∀ j, j ≤ 12 → ((evBytes ev ++ rest).drop (0 + j)).take 4 = ((evBytes ev).drop j).take 4 := by
    intro j hj
    rw [Nat.zero_add, List.drop_append_of_le_length (by rw [evBytes_length]; simp [evSize]; omega),
      List.take_append_of_le_length (by
        rw [List.length_drop, evBytes_length]
        simp [evSize]
        omega)]
  rw [UiState.evAt]
  dsimp only
  rw [hslice 0 (by omega), hslice 4 (by omega), hslice 8 (by omega), hslice 12 (by omega)]
  simp [evBytes, hlen, hpast, hwhole, List.drop_append, hword]

theorem events_flatMap (evs : List InputEv) : UiState.events (evs.flatMap evBytes) = evs := by
  induction evs with
  | nil => rfl
  | cons ev evs ih =>
    have hlen : (evBytes ev ++ evs.flatMap evBytes).length / evSize =
        (evs.flatMap evBytes).length / evSize + 1 := by
      rw [List.length_append, evBytes_length, Nat.add_comm, Nat.add_div_right _ (by decide)]
    have hnext : ∀ n, UiState.evAt (evBytes ev ++ evs.flatMap evBytes) ((n + 1) * evSize) =
        UiState.evAt (evs.flatMap evBytes) (n * evSize) := by
      intro n
      have hdrop : ∀ j, (evBytes ev ++ evs.flatMap evBytes).drop ((n + 1) * evSize + j) =
          (evs.flatMap evBytes).drop (n * evSize + j) := by
        intro j
        rw [show (n + 1) * evSize + j = (evBytes ev).length +
          (n * evSize + j) by rw [evBytes_length]; ring, List.drop_length_add_append]
      simp only [UiState.evAt, hdrop]
    rw [List.flatMap_cons, UiState.events, hlen, List.range_succ_eq_map, List.map_cons,
      List.map_map]
    congr 1
    · simpa using evAt_evBytes ev _
    · exact (List.map_congr_left fun n _ => hnext n).trans ih

theorem feed_flatMap (evs : List InputEv) (ui : UiState) :
    ui.feed (evs.flatMap evBytes) = { ui with toWidgets := ui.toWidgets.feed evs } := by
  rw [UiState.feed, events_flatMap]

end Packing

def UiState.Quiet (ui : UiState) : Prop := ui.mouse = none ∧ ui.key = none

section Frames

variable {σ : Type} {fontH : ℕ} {ui : UiState}

theorem UiState.finish_of_quiet (h : ui.Quiet) : ui.finish = ui := by
  obtain ⟨⟨mouse, pos, key⟩, focus⟩ := ui
  obtain ⟨hmouse, hkey⟩ := h
  dsimp only at hmouse hkey
  subst hmouse hkey
  rfl

theorem UiState.field_of_quiet (h : ui.Quiet) (x y w : ℕ) (buf : Bytes) :
    ui.field fontH x y w buf = (false, buf, ui) := by
  simp [UiState.field, UiState.editBuf, Widgets.inRect, h.1, h.2]

theorem pressed_of_quiet (h : ui.Quiet) (x y w hh : ℕ) (enabled : Bool) :
    ui.toWidgets.pressed x y w hh enabled = (false, ui.toWidgets) := by
  simp [Widgets.pressed, Widgets.inRect, h.1]

theorem Layout.run_of_quiet (h : ui.Quiet) (l : Layout σ) : (l.run fontH ui).2 = ui := by
  induction l with
  | done s => rfl
  | press x y w hh enabled k ih =>
    rw [run, pressed_of_quiet h]
    exact ih false
  | field x y w buf k ih =>
    rw [run, UiState.field_of_quiet h]
    exact ih false buf
  | key k ih => exact ih ui.key
  | hovering x y w hh k ih => exact ih (ui.toWidgets.hovering x y w hh)
  | downOutside x y w hh k ih => exact ih (ui.toWidgets.downOutside x y w hh)

end Frames

/-- The events of keys and presses, the only ones told apart here. -/
def Strokes (evs : List InputEv) : Prop := ∀ ev ∈ evs, ev.kind = 3 ∨ ev.kind = 2

section Feeding

variable {evs : List InputEv} {ev : InputEv} {ui : Widgets}

theorem feedEvent_skips (hev : ev.kind = 3 ∨ ev.kind = 2) (h : ev.counts = false) :
    ui.feedEvent ev = ui := by
  simp only [InputEv.counts, Bool.or_eq_false_iff, decide_eq_false_iff_not] at h
  have hkind : ev.kind = 2 := hev.resolve_left h.1
  have hpoint : ¬(ev.x < 0x80000000 ∧ ev.y < 0x80000000) := by
    have := h.2
    simpa [hkind] using this
  rw [Widgets.feedEvent, if_neg h.1, if_neg hpoint]

theorem feed_counts (hevs : Strokes evs) (ui : Widgets) :
    ui.feed evs = ui.feed (evs.filter InputEv.counts) := by
  induction evs generalizing ui with
  | nil => rfl
  | cons ev evs ih =>
    have hrest := ih fun e he => hevs e (List.mem_cons_of_mem _ he)
    cases hc : ev.counts with
    | true =>
      rw [List.filter_cons_of_pos hc]
      exact hrest (ui.feedEvent ev)
    | false =>
      rw [List.filter_cons_of_neg (by simp [hc])]
      exact (congrArg (fun u : Widgets => u.feed evs) (feedEvent_skips (hevs ev List.mem_cons_self)
        hc)).trans (hrest ui)

theorem feedEvent_waits (hev : ev.kind = 3 ∨ ev.kind = 2) :
    ((ui.feedEvent ev).mouse.isSome || (ui.feedEvent ev).key.isSome) =
      ((ui.mouse.isSome || ui.key.isSome) || ev.counts) := by
  rcases hev with hkind | hkind
  · simp [Widgets.feedEvent, InputEv.counts, hkind]
  · by_cases hpoint : ev.x < 0x80000000 ∧ ev.y < 0x80000000
    · simp [Widgets.feedEvent, InputEv.counts, hkind, hpoint]
    · have hneg : ev.counts = false := by simpa [InputEv.counts, hkind] using hpoint
      rw [feedEvent_skips (.inr hkind) hneg, hneg, Bool.or_false]

theorem feed_waits (hevs : Strokes evs) (ui : Widgets) :
    ((ui.feed evs).mouse.isSome || (ui.feed evs).key.isSome) =
      ((ui.mouse.isSome || ui.key.isSome) || evs.any InputEv.counts) := by
  induction evs generalizing ui with
  | nil => simp [Widgets.feed]
  | cons ev evs ih =>
    have hrest := ih (fun e he => hevs e (List.mem_cons_of_mem _ he)) (ui.feedEvent ev)
    rw [feedEvent_waits (hevs ev List.mem_cons_self), Bool.or_assoc] at hrest
    exact hrest

end Feeding

namespace App

variable {σ : Type} {fontH : ℕ} {app : App σ} {p : σ × UiState} {evs : List InputEv}

theorem frame_quiet (evs : List InputEv) (p : σ × UiState) : (app.frame fontH evs p).2.Quiet :=
  ⟨rfl, rfl⟩

theorem frame_counts (hevs : Strokes evs) (p : σ × UiState) :
    app.frame fontH evs p = app.frame fontH (evs.filter InputEv.counts) p := by
  simp only [frame, feed_flatMap, feed_counts hevs p.2.toWidgets]

theorem frame_nil (hidle : app.Idle fontH) (hp : p.2.Quiet) : app.frame fontH [] p = p := by
  have hrun : ((app p.1).run fontH p.2).2 = p.2 := Layout.run_of_quiet hp (app p.1)
  have hfeed : p.2.feed (([] : List InputEv).flatMap evBytes) = p.2 := by
    rw [feed_flatMap]
    rfl
  simp only [frame, hfeed]
  rw [hrun, UiState.finish_of_quiet hp]
  exact Prod.ext (hidle p.1 p.2 hp.1 hp.2) rfl

theorem run_singles (hidle : app.Idle fontH) (hevs : Strokes evs) (hp : p.2.Quiet) :
    app.run fontH (evs.map fun ev => [ev]) p =
      app.run fontH ((evs.filter InputEv.counts).map fun ev => [ev]) p := by
  induction evs generalizing p with
  | nil => rfl
  | cons ev evs ih =>
    have hquiet : (app.frame fontH [ev] p).2.Quiet := frame_quiet [ev] p
    have hrest := ih (fun e he => hevs e (List.mem_cons_of_mem _ he)) hquiet
    have hhead : Strokes [ev] := by
      intro e he
      rw [List.mem_singleton.mp he]
      exact hevs ev List.mem_cons_self
    cases hc : ev.counts with
    | true =>
      rw [List.filter_cons_of_pos hc]
      exact hrest
    | false =>
      have hsame : app.frame fontH [ev] p = p := by
        rw [frame_counts hhead, List.filter_cons_of_neg (by simp [hc]), List.filter_nil]
        exact frame_nil hidle hp
      rw [List.filter_cons_of_neg (by simp [hc])]
      rw [hsame] at hrest
      exact (congrArg (fun q => app.run fontH (evs.map fun ev => [ev]) q) hsame).trans hrest

theorem frame_eq_singles (hidle : app.Idle fontH) (hevs : Strokes evs) (hp : p.2.Quiet)
    (hone : evs.countP InputEv.counts ≤ 1) :
    app.frame fontH evs p = app.run fontH (evs.map fun ev => [ev]) p := by
  rw [run_singles hidle hevs hp, frame_counts hevs]
  rw [List.countP_eq_length_filter] at hone
  match hf : evs.filter InputEv.counts with
  | [] => exact frame_nil hidle hp
  | [ev] => rfl
  | _ :: _ :: _ => simp [hf] at hone

theorem run_eq_singles {batches : List (List InputEv)} (hidle : app.Idle fontH)
    (hevs : ∀ evs ∈ batches, Strokes evs) (hp : p.2.Quiet)
    (hone : ∀ evs ∈ batches, evs.countP InputEv.counts ≤ 1) :
    app.run fontH batches p = app.run fontH (singles batches) p := by
  induction batches generalizing p with
  | nil => rfl
  | cons evs batches ih =>
    have hframe :=
      frame_eq_singles hidle (hevs evs List.mem_cons_self) hp (hone evs List.mem_cons_self)
    have hquiet : (app.frame fontH evs p).2.Quiet := frame_quiet evs p
    have hrest := ih (fun e he => hevs e (List.mem_cons_of_mem _ he)) hquiet
      (fun e he => hone e (List.mem_cons_of_mem _ he))
    have hsplit : singles (evs :: batches) = (evs.map fun ev => [ev]) ++ singles batches := by
      rw [singles, List.flatten_cons, List.map_append]
      rfl
    rw [hsplit]
    calc app.run fontH (evs :: batches) p
        = app.run fontH batches (app.frame fontH evs p) := rfl
      _ = app.run fontH (singles batches) (app.frame fontH evs p) := hrest
      _ = app.run fontH (singles batches) (app.run fontH (evs.map fun ev => [ev]) p) := by
        rw [hframe]
      _ = app.run fontH ((evs.map fun ev => [ev]) ++ singles batches) p := List.foldl_append.symm

section Pager

def pager : App ℕ := fun page =>
  .key fun k => .downOutside 0 0 0 0 fun clicked => .done (if clicked || k.isSome then page + 1
    else page)

theorem pager_run (page : ℕ) (ui : UiState) :
    (Layout.run fontH (pager page) ui).1 = if ui.mouse.isSome || ui.key.isSome then page + 1
      else page := by
  have hpoint : ∀ q : Option (ℕ × ℕ), Widgets.inRect q 0 0 0 0 = false := by
    intro q
    cases q <;> simp [Widgets.inRect, satAdd]
  simp [pager, Layout.run, Widgets.downOutside, hpoint]

theorem pager_idle : App.Idle fontH pager := by
  intro page ui hmouse hkey
  rw [pager_run, hmouse, hkey]
  rfl

theorem pager_frame {q : ℕ × UiState} (hevs : Strokes evs) (hq : q.2.Quiet) :
    (pager.frame fontH evs q).1 = q.1 + if evs.any InputEv.counts then 1 else 0 := by
  have hwaits := feed_waits hevs q.2.toWidgets
  rw [hq.1, hq.2] at hwaits
  simp only [frame, feed_flatMap, pager_run]
  rw [hwaits]
  simp only [Option.isSome_none, Bool.or_self, Bool.false_or]
  split <;> rfl

theorem pager_pages {batches : List (List InputEv)} {q : ℕ × UiState}
    (hevs : ∀ evs ∈ batches, Strokes evs) (hq : q.2.Quiet) :
    (pager.run fontH batches q).1 = q.1 + batches.countP fun evs => evs.any InputEv.counts := by
  induction batches generalizing q with
  | nil => rfl
  | cons evs batches ih =>
    have hquiet : (pager.frame fontH evs q).2.Quiet := frame_quiet evs q
    have hrest := ih (fun e he => hevs e (List.mem_cons_of_mem _ he)) hquiet
    rw [pager_frame (hevs evs List.mem_cons_self) hq] at hrest
    rw [List.countP_cons]
    exact hrest.trans ((Nat.add_assoc _ _ _).trans (congrArg (q.1 + ·) (Nat.add_comm _ _)))

end Pager

section Counts

variable {α : Type} (f : α → Bool)

theorem countP_any_le (batches : List (List α)) :
    batches.countP (fun b => b.any f) ≤ batches.flatten.countP f := by
  induction batches with
  | nil => simp
  | cons b batches ih =>
    have hb : (if b.any f then 1 else 0) ≤ b.countP f := by
      split
      · rename_i h
        rw [List.any_eq_true] at h
        exact List.countP_pos_iff.mpr h
      · exact Nat.zero_le _
    rw [List.countP_cons, List.flatten_cons, List.countP_append]
    omega

theorem countP_le_one {batches : List (List α)}
    (h : batches.countP (fun b => b.any f) = batches.flatten.countP f) :
    ∀ b ∈ batches, b.countP f ≤ 1 := by
  induction batches with
  | nil => simp
  | cons b batches ih =>
    have hle := countP_any_le f batches
    have hb : (if b.any f then 1 else 0) ≤ 1 := by split <;> omega
    have hpos : (if b.any f then 1 else 0) ≤ b.countP f := by
      have := countP_any_le f [b]
      simpa [List.countP_cons] using this
    rw [List.countP_cons, List.flatten_cons, List.countP_append] at h
    intro c hc
    rcases List.mem_cons.mp hc with rfl | hc
    · omega
    · exact ih (by omega) c hc

end Counts

theorem strokes_singles {batches : List (List InputEv)} (hevs : ∀ evs ∈ batches, Strokes evs) :
    ∀ evs ∈ singles batches, Strokes evs := by
  intro evs hmem ev hev
  obtain ⟨e, he, rfl⟩ := List.mem_map.mp hmem
  obtain ⟨b, hb, heb⟩ := List.mem_flatten.mp he
  rw [List.mem_singleton.mp hev]
  exact hevs b hb e heb

/-- Programs end alike whatever the batches are exactly if no batch has two events that count. -/
theorem batches_iff {batches : List (List InputEv)} (hevs : ∀ evs ∈ batches, Strokes evs) :
    (∀ (σ : Type) (app : App σ), app.Idle fontH → ∀ s, app.run fontH batches (s, .new) =
      app.run fontH (singles batches) (s, .new)) ↔
      ∀ evs ∈ batches, evs.countP InputEv.counts ≤ 1 := by
  have hnew : UiState.new.Quiet := ⟨rfl, rfl⟩
  constructor
  · intro h
    have hpages := congrArg Prod.fst (h ℕ pager pager_idle 0)
    rw [pager_pages hevs hnew, pager_pages (strokes_singles hevs) hnew] at hpages
    refine countP_le_one InputEv.counts (Nat.add_left_cancel (hpages.trans ?_))
    simp only [singles, List.countP_map, Function.comp_def, List.any_cons, List.any_nil,
      Bool.or_false]
  · intro h σ app hidle s
    exact run_eq_singles hidle hevs hnew h

section Sample

/-- The search field of the sample program, and its two buttons. -/
structure Sample where
  field : Bytes
  ok : Bool
  deriving DecidableEq

def sample : App Sample := fun s =>
  .field 8 28 176 s.field fun _ field =>
    .press 8 48 96 32 true fun ok =>
      .press 110 48 74 32 true fun _ =>
        .hovering 8 48 96 32 fun _ => .done ⟨field, s.ok || ok⟩

def Sample.init : Sample := ⟨List.replicate 32 0, false⟩

theorem sample_idle : sample.Idle fontH := by
  intro s ui hmouse hkey
  have hquiet : ui.Quiet := ⟨hmouse, hkey⟩
  simp only [sample, Layout.run, UiState.field_of_quiet hquiet, pressed_of_quiet hquiet,
    Bool.or_false]

def down (x y : UInt32) : InputEv := ⟨2, x, y, 0⟩

def typed (b : UInt8) : InputEv := ⟨3, 0, 0, b.toUInt32⟩

def slowly : List (List InputEv) :=
  [[down 20 30], [], [typed 0x61], [down 0xFFFFFFFF 0, typed 0x62]]

def inOnePoll : List (List InputEv) := [[down 20 30], [typed 0x61, typed 0x62]]

theorem slowly_strokes : ∀ evs ∈ slowly, Strokes evs := by
  simp [slowly, Strokes, down, typed]

theorem typed_slowly : (sample.run 18 slowly (.init, .new)).1.field.take 3 = [0x61, 0x62, 0] ∧
    sample.run 18 slowly (.init, .new) = sample.run 18 (singles slowly) (.init, .new) := by
  have hone : ∀ evs ∈ slowly, evs.countP InputEv.counts ≤ 1 := by decide
  exact ⟨by decide, (batches_iff slowly_strokes).mpr hone Sample sample sample_idle .init⟩

/-- Two letters that arrive in one batch: the first is lost. -/
theorem typed_in_one_poll : (∀ evs ∈ inOnePoll, Strokes evs) ∧
    (sample.run 18 inOnePoll (.init, .new)).1.field.take 2 = [0x62, 0] ∧
    (sample.run 18 (singles inOnePoll) (.init, .new)).1.field.take 3 = [0x61, 0x62, 0] ∧
    ¬∀ (σ : Type) (app : App σ), app.Idle 18 → ∀ s, app.run 18 inOnePoll (s, .new) =
      app.run 18 (singles inOnePoll) (s, .new) := by
  have hlost : (sample.run 18 inOnePoll (.init, .new)).1.field.take 2 = [0x62, 0] := by decide
  have hboth : (sample.run 18 (singles inOnePoll) (.init, .new)).1.field.take 3 =
      [0x61, 0x62, 0] := by decide
  refine ⟨by simp [inOnePoll, Strokes, down, typed], hlost, hboth, fun h => ?_⟩
  have hfield :=
    congrArg (fun q : Sample × UiState => q.1.field.take 2) (h Sample sample sample_idle .init)
  have htwo := congrArg (List.take 2) hboth
  rw [List.take_take] at htwo
  exact absurd (hlost.symm.trans (hfield.trans htwo)) (by decide)

end Sample

end App

end CoeleoOs.Ui
