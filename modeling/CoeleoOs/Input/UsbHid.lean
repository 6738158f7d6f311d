import CoeleoOs.Input.Mouse
import CoeleoOs.Lib.Machine
import CoeleoOs.Ui.Keys

/-!
# USB keyboards and mice

A boot keyboard reports the codes of the keys that are down, six at most, in an order that says
nothing, or a rollover. The driver compares a report with the last one it accepted and dispatches
what is new in it. The controller takes a report when it likes, and the driver polls when it
likes, so that a report may be late and what happens between two reports is not seen.
-/

namespace CoeleoOs.Input.UsbHid
open CoeleoOs.Lib.Machine
open CoeleoOs.Ui (Key)

/-- A key whose character depends on Shift only. -/
structure Symbol where
  usage : UInt8
  plain : UInt8
  shifted : UInt8

def symbols : List Symbol :=
  [⟨0x27, 48, 41⟩, ⟨0x2D, 45, 95⟩, ⟨0x2E, 61, 43⟩, ⟨0x2F, 91, 123⟩, ⟨0x30, 93, 125⟩,
    ⟨0x31, 92, 124⟩, ⟨0x33, 59, 58⟩, ⟨0x34, 39, 34⟩, ⟨0x36, 44, 60⟩, ⟨0x37, 46, 62⟩, ⟨0x38, 47, 63⟩]

def digits : List UInt8 := [49, 50, 51, 52, 53, 54, 55, 56, 57]
def shiftedDigits : List UInt8 := [33, 64, 35, 36, 37, 94, 38, 42, 40]

def mapUsage (usage mods : UInt8) : Option Key :=
  let shift := mods &&& 0x22 ≠ 0
  let ctrl := mods &&& 0x11 ≠ 0
  if usage = 0x28 then some (.files .enter)
  else if usage = 0x29 then some .esc
  else if usage = 0x2A then some (.files .backspace)
  else if usage = 0x4C then some (.files .delete)
  else if usage = 0x2B then some .tab
  else if usage = 0x2C then some (.char 32)
  else if usage = 0x4F then some (.files .right)
  else if usage = 0x50 then some (.files .left)
  else if usage = 0x51 then some (.files .down)
  else if usage = 0x52 then some (.files .up)
  else if 0x04 ≤ usage ∧ usage ≤ 0x1D then
    let c := 97 + (usage - 0x04)
    if ctrl then some (.char (c - 97 + 1)) else some (.char (if shift then c - 32 else c))
  else if 0x1E ≤ usage ∧ usage ≤ 0x26 then
    some (.char ((if shift then shiftedDigits else digits).getD (usage - 0x1E).toNat 0))
  else (symbols.find? fun k => k.usage = usage).map fun k => .char (if shift then k.shifted
    else k.plain)

/-- The state the driver keeps for one interface of a device. -/
structure Iface where
  proto : UInt8
  prevKeys : List UInt8
  prevLeft : Bool
  prevRight : Bool
  deriving DecidableEq

def codes (report : List UInt8) : List UInt8 := report.drop 2

def keyOf (mods code : UInt8) : Option Key :=
  if code = 0x2C ∧ mods &&& 0x44 ≠ 0 then some .altSpace else mapUsage code mods

def freshCodes (prev report : List UInt8) : List UInt8 :=
  (codes report).filter fun code => code ≠ 0 && !(codes prev).contains code

def dispatchKbd (slot : Iface) (report : List UInt8) : List Key × Iface :=
  if report.getD 2 0 = 1 then ([], slot)
  else
    let mods := report.getD 0 0
    ((freshCodes slot.prevKeys report).filterMap (keyOf mods), { slot with prevKeys := report })

def decodeMouse (slot : Iface) (report : List UInt8) (n : ℕ) : Option MouseEvent × Iface :=
  if n < 3 then (none, slot)
  else
    let dx := i8 (report.getD 1 0)
    let dy := i8 (report.getD 2 0)
    let left : Bool := report.getD 0 0 &&& 1 ≠ 0
    let right : Bool := report.getD 0 0 &&& 2 ≠ 0
    let slot' := { slot with prevLeft := left, prevRight := right }
    if dx = 0 ∧ dy = 0 ∧ left = slot.prevLeft ∧ right = slot.prevRight then (none, slot')
    else
      (some ⟨dx, dy, left && !slot.prevLeft, !left && slot.prevLeft, right && !slot.prevRight,
        !right && slot.prevRight⟩, slot')

def pollSlot (slot : Iface) : Option (List UInt8 × ℕ) → (Option MouseEvent × List Key) × Iface
  | none => ((none, []), slot)
  | some (buf, n) =>
    if slot.proto = 2 then (((decodeMouse slot buf n).1, []), (decodeMouse slot buf n).2)
    else if slot.proto = 1 ∧ 8 ≤ n then ((none, (dispatchKbd slot buf).1), (dispatchKbd slot buf).2)
    else ((none, []), slot)

def poll (last : Option MouseEvent) :
    List (Iface × Option (List UInt8 × ℕ)) → (Option MouseEvent × List Key) × List Iface
  | [] => ((last, []), [])
  | (slot, got) :: rest =>
    let one := pollSlot slot got
    let others := poll (mergeEvent last one.1.1) rest
    ((others.1.1, one.1.2 ++ others.1.2), one.2 :: others.2)

/-- A boot keyboard: the keys that are down in the order they were pressed. -/
structure Keyboard where
  held : List UInt8
  mods : UInt8
  deriving DecidableEq

def Keyboard.Reports (k : Keyboard) (report : List UInt8) : Prop :=
  report.getD 0 0 = k.mods ∧ (codes report).Perm
    (if k.held.length ≤ 6 then k.held ++ List.replicate (6 - k.held.length) 0
      else List.replicate 6 1)

instance (k : Keyboard) (report : List UInt8) : Decidable (k.Reports report) := by
  unfold Keyboard.Reports
  infer_instance

/-- A keyboard, the report that the controller holds, and the driver. `fresh` says that a report was
taken since the last change of the keyboard; `pressed` are the keys pressed, with the modifiers. -/
structure State where
  keyboard : Keyboard
  waiting : Option (List UInt8)
  iface : Iface
  fresh : Bool
  pressed : List (UInt8 × UInt8)
  /-- The keys dispatched for each report. -/
  typed : List (List Key)

def start : State := ⟨⟨[], 0⟩, none, ⟨1, List.replicate 8 0, false, false⟩, true, [], []⟩

inductive Act
  | press (code : UInt8)
  | release (code : UInt8)
  | modify (mods : UInt8)
  | sample (report : List UInt8)
  | poll
  deriving DecidableEq

def Act.ofKeyboard : Act → Bool
  | .sample _ | .poll => false
  | _ => true

def State.poll (s : State) : State :=
  let r := pollSlot s.iface (s.waiting.map fun report => (report, 8))
  { s with
    waiting := none
    iface := r.2
    typed := s.typed ++ (s.waiting.map fun _ => r.1.2).toList }

def step (s : State) : Act → Option State
  | .press code =>
    if 4 ≤ code ∧ code ∉ s.keyboard.held then
      some { s with
        keyboard := { s.keyboard with held := s.keyboard.held ++ [code] }
        fresh := false
        pressed := s.pressed ++ [(code, s.keyboard.mods)] }
    else none
  | .release code =>
    if code ∈ s.keyboard.held then
      some { s with keyboard := { s.keyboard with
        held := s.keyboard.held.erase code }, fresh := false }
    else none
  | .modify mods => some { s with keyboard := { s.keyboard with mods := mods }, fresh := false }
  | .sample report =>
    if s.waiting = none ∧ s.keyboard.Reports report then
      some { s with waiting := some report, fresh := true }
    else none
  | .poll => some s.poll

/-- The key that a press stands for. -/
def keyPressed (p : UInt8 × UInt8) : Option Key := keyOf p.2 p.1

variable {s s' : State} {a : Act} {k : Keyboard}

section Reports

def Keyboard.Codes (k : Keyboard) : Prop := ∀ code ∈ k.held, 4 ≤ code

variable {report : List UInt8}

theorem not_mem_zeros {code : UInt8} (n : ℕ) (h : 4 ≤ code) :
    code ∉ List.replicate n (0 : UInt8) := by
  intro hmem
  rw [List.eq_of_mem_replicate hmem] at h
  exact absurd h (by decide)

theorem Keyboard.Reports.perm (hr : k.Reports report) (h : k.held.length ≤ 6) :
    (codes report).Perm (k.held ++ List.replicate (6 - k.held.length) 0) := by
  have hperm := hr.2
  rwa [if_pos h] at hperm

theorem getD_two (report : List UInt8) : report.getD 2 0 = (codes report).getD 0 0 := by
  rw [codes, List.getD_eq_getElem?_getD, List.getD_eq_getElem?_getD, List.getElem?_drop]

theorem report_accepted (hk : k.Codes) (hr : k.Reports report) (h : k.held.length ≤ 6) :
    report.getD 2 0 ≠ 1 := by
  rw [getD_two]
  cases hcodes : codes report with
  | nil =>
    change (0 : UInt8) ≠ 1
    decide
  | cons code rest =>
    rw [List.getD_cons_zero]
    rintro rfl
    have hmem : (1 : UInt8) ∈ codes report := hcodes ▸ List.mem_cons_self
    rcases List.mem_append.mp ((hr.perm h).mem_iff.mp hmem) with hheld | hzero
    · exact absurd (hk 1 hheld) (by decide)
    · exact absurd (List.eq_of_mem_replicate hzero) (by decide)

theorem report_rollover (hr : k.Reports report) (h : ¬k.held.length ≤ 6) : report.getD 2 0 = 1 := by
  have hperm := hr.2
  rw [if_neg h, List.perm_replicate] at hperm
  rw [getD_two, hperm]
  rfl

def unseen (prev : List UInt8) (k : Keyboard) : List UInt8 :=
  k.held.filter fun code => !(codes prev).contains code

theorem mem_unseen {prev : List UInt8} {code : UInt8} :
    code ∈ unseen prev k ↔ code ∈ k.held ∧ code ∉ codes prev := by
  simp [unseen]

theorem freshCodes_perm (hk : k.Codes) (hr : k.Reports report) (h : k.held.length ≤ 6)
    (prev : List UInt8) : (freshCodes prev report).Perm (unseen prev k) := by
  have hperm := (hr.perm h).filter fun code => code ≠ 0 && !(codes prev).contains code
  have hzeros : (List.replicate (6 - k.held.length) (0 : UInt8)).filter
      (fun code => code ≠ 0 && !(codes prev).contains code) = [] := by
    rw [List.filter_eq_nil_iff]
    intro code hcode
    simp [List.eq_of_mem_replicate hcode]
  have hheld :
      k.held.filter (fun code => code ≠ 0 && !(codes prev).contains code) = unseen prev k := by
    apply List.filter_congr
    intro code hcode
    have hne : code ≠ 0 := by
      rintro rfl
      exact absurd (hk 0 hcode) (by decide)
    simp [hne]
  rw [List.filter_append, hzeros, List.append_nil, hheld] at hperm
  exact hperm

theorem dispatchKbd_accepted (hk : k.Codes) (hr : k.Reports report) (h : k.held.length ≤ 6)
    (slot : Iface) :
    dispatchKbd slot report = ((freshCodes slot.prevKeys report).filterMap (keyOf k.mods),
      { slot with prevKeys := report }) := by
  rw [dispatchKbd, if_neg (report_accepted hk hr h), hr.1]

theorem dispatchKbd_rollover (hr : k.Reports report) (h : ¬k.held.length ≤ 6) (slot : Iface) :
    dispatchKbd slot report = ([], slot) := by
  rw [dispatchKbd, if_pos (report_rollover hr h)]

theorem unseen_report (hr : k.Reports report) (h : k.held.length ≤ 6) : unseen report k = [] := by
  rw [List.eq_nil_iff_forall_not_mem]
  intro code hcode
  obtain ⟨hheld, hnot⟩ := mem_unseen.mp hcode
  exact hnot ((hr.perm h).mem_iff.mpr (List.mem_append_left _ hheld))

end Reports

section Steps

theorem poll_idle (h : s.waiting = none) : s.poll = s := by
  rw [State.poll, h]
  simp only [Option.map_none, pollSlot, Option.toList_none, List.append_nil]
  rw [← h]

theorem poll_sample (hproto : s.iface.proto = 1) (report : List UInt8) :
    State.poll { s with waiting := some report, fresh := true } =
      { s with
        waiting := none
        fresh := true
        iface := (dispatchKbd s.iface report).2
        typed := s.typed ++ [(dispatchKbd s.iface report).1] } := by
  simp [State.poll, pollSlot, hproto]

theorem dispatchKbd_proto (slot : Iface) (report : List UInt8) :
    (dispatchKbd slot report).2.proto = slot.proto := by
  rw [dispatchKbd]
  split
  · rfl
  · rfl

theorem pollSlot_proto (slot : Iface) (got : Option (List UInt8)) (h : slot.proto = 1) :
    (pollSlot slot (got.map fun report => (report, 8))).2.proto = 1 := by
  cases got with
  | none => exact h
  | some report => simp [pollSlot, h, dispatchKbd_proto]

/-- The interface is a keyboard's, and its keys have the codes of keys. -/
structure State.Base (s : State) : Prop where
  proto : s.iface.proto = 1
  codes : s.keyboard.Codes

theorem step_base (h : s.Base) (hs : step s a = some s') : s'.Base := by
  cases a with
  | press code =>
    simp only [step] at hs
    split at hs
    · next hcode =>
      cases hs
      refine ⟨h.proto, ?_⟩
      intro c hc
      rcases List.mem_append.mp hc with hc | hc
      · exact h.codes c hc
      · rw [List.mem_singleton.mp hc]
        exact hcode.1
    · cases hs
  | release code =>
    simp only [step] at hs
    split at hs
    · cases hs
      exact ⟨h.proto, fun c hc => h.codes c (List.mem_of_mem_erase hc)⟩
    · cases hs
  | modify mods =>
    cases hs
    exact ⟨h.proto, h.codes⟩
  | sample report =>
    simp only [step] at hs
    split at hs
    · cases hs
      exact ⟨h.proto, h.codes⟩
    · cases hs
  | poll =>
    cases hs
    exact ⟨pollSlot_proto _ _ h.proto, h.codes⟩

/-- What the driver has seen of a keyboard once it has polled: the codes of the last report that it
accepted, the keys it dispatched for each report, and the keys that were pressed. -/
structure View where
  keyboard : Keyboard
  prev : List UInt8
  typed : List (List Key)
  pressed : List (UInt8 × UInt8)
  fresh : Bool

def State.view (s : State) : View :=
  ⟨s.keyboard, s.poll.iface.prevKeys, s.poll.typed, s.pressed, s.fresh⟩

def View.sampled (v : View) (report : List UInt8) : View :=
  if v.keyboard.held.length ≤ 6 then
    { v with
      prev := report
      typed := v.typed ++ [(freshCodes v.prev report).filterMap (keyOf v.keyboard.mods)]
      fresh := true }
  else { v with typed := v.typed ++ [[]], fresh := true }

theorem step_view (h : s.Base) (hs : step s a = some s') :
    (∃ code, a = .press code ∧ 4 ≤ code ∧ code ∉ s.keyboard.held ∧ s'.view = { s.view with
      keyboard := ⟨s.keyboard.held ++ [code], s.keyboard.mods⟩
      fresh := false
      pressed := s.pressed ++ [(code, s.keyboard.mods)] }) ∨
    (∃ code, a = .release code ∧ s'.view = { s.view with
      keyboard := ⟨s.keyboard.held.erase code, s.keyboard.mods⟩
      fresh := false }) ∨
    (∃ mods, a = .modify mods ∧ s'.view = { s.view with
      keyboard := ⟨s.keyboard.held, mods⟩
      fresh := false }) ∨
    (a.ofKeyboard = false ∧ s'.view = s.view) ∨
    (∃ report, a = .sample report ∧ s.keyboard.Reports report ∧
      s'.view = s.view.sampled report) := by
  cases a with
  | press code =>
    simp only [step] at hs
    split at hs
    · next hcode =>
      cases hs
      exact .inl ⟨code, rfl, hcode.1, hcode.2, rfl⟩
    · cases hs
  | release code =>
    simp only [step] at hs
    split at hs
    · cases hs
      exact .inr (.inl ⟨code, rfl, rfl⟩)
    · cases hs
  | modify mods =>
    cases hs
    exact .inr (.inr (.inl ⟨mods, rfl, rfl⟩))
  | sample report =>
    simp only [step] at hs
    split at hs
    · next hw =>
      cases hs
      refine .inr (.inr (.inr (.inr ⟨report, rfl, hw.2, ?_⟩)))
      rw [State.view, poll_sample h.proto, View.sampled, State.view, poll_idle hw.1]
      split
      · next hlen => rw [dispatchKbd_accepted h.codes hw.2 hlen]
      · next hlen => rw [dispatchKbd_rollover hw.2 hlen]
    · cases hs
  | poll =>
    cases hs
    refine .inr (.inr (.inr (.inl ⟨rfl, ?_⟩)))
    have hidle : s.poll.poll = s.poll := poll_idle rfl
    rw [State.view, hidle]
    rfl

end Steps

section Once

/-- For each report, some presses as the report lists them and their codes in the order of the
presses. -/
abbrev Groups := List (List (UInt8 × UInt8) × List UInt8)

def View.Once (v : View) : Prop :=
  ∃ (gs : Groups) (old new : List (UInt8 × UInt8)), v.pressed = old ++ new ∧
    v.typed = gs.map (fun g => g.1.filterMap keyPressed) ∧
    (∀ g ∈ gs, (g.1.map Prod.fst).Perm g.2) ∧
    (gs.flatMap Prod.snd).Sublist (old.map Prod.fst) ∧
    (unseen v.prev v.keyboard).Sublist (new.map Prod.fst)

theorem filterMap_keyOf (mods : UInt8) (cs : List UInt8) :
    cs.filterMap (keyOf mods) = (cs.map fun c => (c, mods)).filterMap keyPressed := by
  rw [List.filterMap_map]
  rfl

theorem map_fst_pair (mods : UInt8) (cs : List UInt8) :
    (cs.map fun c => (c, mods)).map Prod.fst = cs := by
  rw [List.map_map]
  exact List.map_id _

theorem sampled_once {v : View} {report : List UInt8} (hk : v.keyboard.Codes)
    (hr : v.keyboard.Reports report) (h : v.Once) : (v.sampled report).Once := by
  obtain ⟨gs, old, new, hpressed, htyped, hperm, hold, hnew⟩ := h
  rw [View.sampled]
  split
  · next hlen =>
    refine ⟨gs ++ [((freshCodes v.prev report).map fun c => (c, v.keyboard.mods),
      unseen v.prev v.keyboard)], old ++ new, [], ?_, ?_, ?_, ?_, ?_⟩
    · simpa using hpressed
    · rw [List.map_append, ← htyped, List.map_singleton, ← filterMap_keyOf]
    · intro g hg
      rcases List.mem_append.mp hg with hg | hg
      · exact hperm g hg
      · rw [List.mem_singleton.mp hg, map_fst_pair]
        exact freshCodes_perm hk hr hlen v.prev
    · rw [List.flatMap_append, List.flatMap_singleton, List.map_append]
      exact hold.append hnew
    · rw [unseen_report hr hlen]
      exact List.nil_sublist _
  · refine ⟨gs ++ [([], [])], old, new, hpressed, ?_, ?_, ?_, hnew⟩
    · rw [List.map_append, ← htyped]
      rfl
    · intro g hg
      rcases List.mem_append.mp hg with hg | hg
      · exact hperm g hg
      · rw [List.mem_singleton.mp hg]
        exact .nil
    · rw [List.flatMap_append, List.flatMap_singleton, List.append_nil]
      exact hold

theorem step_once (hb : s.Base) (h : s.view.Once) (hs : step s a = some s') : s'.view.Once := by
  obtain ⟨gs, old, new, hpressed, htyped, hperm, hold, hnew⟩ := h
  rcases step_view hb hs with ⟨code, -, -, -, hv⟩ | ⟨code, -, hv⟩ | ⟨mods, -, hv⟩ | ⟨-, hv⟩ |
    ⟨report, -, hr, hv⟩
  · rw [hv]
    refine ⟨gs, old, new ++ [(code, s.keyboard.mods)], ?_, htyped, hperm, hold, ?_⟩
    · rw [← List.append_assoc, ← hpressed]
      rfl
    · rw [unseen, List.filter_append, List.map_append]
      exact hnew.append List.filter_sublist
  · rw [hv]
    exact ⟨gs, old, new, hpressed, htyped, hperm, hold, (List.erase_sublist.filter _).trans hnew⟩
  · rw [hv]
    exact ⟨gs, old, new, hpressed, htyped, hperm, hold, hnew⟩
  · rw [hv]
    exact ⟨gs, old, new, hpressed, htyped, hperm, hold, hnew⟩
  · rw [hv]
    exact sampled_once hb.codes hr ⟨gs, old, new, hpressed, htyped, hperm, hold, hnew⟩

end Once

section Kept

/-- The keyboard changes only after its last change was seen, and six keys are down at most. -/
def KeptUp (t : Trans State Act) : Prop :=
  t.act.ofKeyboard = true → t.pre.fresh = true ∧ t.post.keyboard.held.length ≤ 6

instance (t : Trans State Act) : Decidable (KeptUp t) := by
  unfold KeptUp
  infer_instance

def View.Kept (v : View) : Prop :=
  v.keyboard.held.length ≤ 6 ∧ ∃ old new : List (UInt8 × UInt8), v.pressed = old ++ new ∧
    v.typed.flatten = old.filterMap keyPressed ∧ unseen v.prev v.keyboard = new.map Prod.fst ∧
    new.length ≤ 1 ∧ (∀ p ∈ new, p.2 = v.keyboard.mods) ∧
    (v.fresh = true → new = [] ∧ ∀ code ∈ codes v.prev, 4 ≤ code → code ∈ v.keyboard.held)

theorem eq_of_perm_short {cs ds : List UInt8} (h : cs.Perm ds) (hlen : ds.length ≤ 1) :
    cs = ds := by
  match ds, hlen with
  | [], _ => exact h.eq_nil
  | [d], _ => exact h.eq_singleton

theorem sampled_kept {v : View} {report : List UInt8} (hk : v.keyboard.Codes)
    (hr : v.keyboard.Reports report) (h : v.Kept) : (v.sampled report).Kept := by
  obtain ⟨hlen, old, new, hpressed, htyped, hnew, hone, hmods, -⟩ := h
  have hfresh : freshCodes v.prev report = new.map Prod.fst := by
    rw [← hnew]
    refine eq_of_perm_short (freshCodes_perm hk hr hlen v.prev) ?_
    rwa [hnew, List.length_map]
  rw [View.sampled, if_pos hlen]
  refine ⟨hlen, old ++ new, [],
    by simpa using hpressed, ?_, ?_, Nat.zero_le 1, by simp, fun _ => ⟨rfl, ?_⟩⟩
  · have hpairs : (new.map Prod.fst).map (fun c => (c, v.keyboard.mods)) = new := by
      have hpair : ∀ p ∈ new, ((fun c => (c, v.keyboard.mods)) ∘ Prod.fst) p = id p := by
        intro p hp
        exact Prod.ext rfl (hmods p hp).symm
      rw [List.map_map, List.map_congr_left hpair, List.map_id]
    rw [List.filterMap_append, List.flatten_append, htyped, List.flatten_singleton, hfresh,
      filterMap_keyOf, hpairs]
  · rw [unseen_report hr hlen]
    rfl
  · intro code hcode hfour
    exact (List.mem_append.mp ((hr.perm hlen).mem_iff.mp hcode)).resolve_right
      (not_mem_zeros _ hfour)

theorem step_kept {t : Trans State Act} (hb : t.pre.Base) (h : t.pre.view.Kept)
    (hs : step t.pre t.act = some t.post) (hc : KeptUp t) : t.post.view.Kept := by
  obtain ⟨s, a, s'⟩ := t
  rcases step_view hb hs with ⟨code, ha, hfour, hnot, hv⟩ | ⟨code, ha, hv⟩ |
      ⟨mods, ha, hv⟩ | ⟨-, hv⟩ | ⟨report, -, hr, hv⟩
  · obtain ⟨hfresh, hlen⟩ := hc (by rw [ha]; rfl)
    obtain ⟨-, old, new, hpressed, htyped, hnew, -, -, hseen⟩ := h
    obtain ⟨rfl, hcodes⟩ := hseen hfresh
    rw [List.append_nil] at hpressed
    have hunseen : code ∉ codes s.poll.iface.prevKeys := fun hmem => hnot (hcodes code hmem hfour)
    refine ⟨hlen, old, [(code, s.keyboard.mods)], ?_⟩
    rw [hv]
    refine ⟨congrArg (· ++ [(code, s.keyboard.mods)]) hpressed, htyped, ?_, Nat.le_refl 1,
      by simp, by simp⟩
    have hlast :
        List.filter (fun c => !(codes s.poll.iface.prevKeys).contains c) [code] = [code] := by
      simp [hunseen]
    rw [unseen, List.filter_append]
    exact (congrArg₂ (· ++ ·) hnew hlast).trans rfl
  · obtain ⟨hfresh, hlen⟩ := hc (by rw [ha]; rfl)
    obtain ⟨-, old, new, hpressed, htyped, hnew, -, -, hseen⟩ := h
    obtain ⟨rfl, -⟩ := hseen hfresh
    refine ⟨hlen, old, [], ?_⟩
    rw [hv]
    refine ⟨hpressed, htyped, ?_, Nat.zero_le 1, by simp, by simp⟩
    have hsub :
        (unseen s.poll.iface.prevKeys ⟨s.keyboard.held.erase code, s.keyboard.mods⟩).Sublist
          [] := by
      rw [← List.map_nil, ← hnew]
      exact List.erase_sublist.filter _
    exact List.sublist_nil.mp hsub
  · obtain ⟨hfresh, hlen⟩ := hc (by rw [ha]; rfl)
    obtain ⟨-, old, new, hpressed, htyped, hnew, -, -, hseen⟩ := h
    obtain ⟨rfl, -⟩ := hseen hfresh
    refine ⟨hlen, old, [], ?_⟩
    rw [hv]
    exact ⟨hpressed, htyped, hnew, Nat.zero_le 1, by simp, by simp⟩
  · rw [hv]
    exact h
  · rw [hv]
    exact sampled_kept hb.codes hr h

end Kept

section Runs
variable {ts : List (Trans State Act)}

theorem start_base : start.Base := ⟨rfl, by simp [Keyboard.Codes, start]⟩

theorem start_once : start.view.Once :=
  ⟨[], [], [], rfl, rfl, by simp, List.nil_sublist _, List.nil_sublist _⟩

theorem start_kept : start.view.Kept := by
  refine ⟨Nat.zero_le 6, [], [], rfl, rfl, rfl, Nat.zero_le 1, by simp, fun _ => ⟨rfl, ?_⟩⟩
  intro code hcode hfour
  exact absurd hcode (not_mem_zeros 6 hfour)

def oneKey (mods code : UInt8) : List UInt8 := [mods, 0, code, 0, 0, 0, 0, 0]

def shiftA : List Act :=
  [.modify 2, .sample (oneKey 2 0), .press 4, .poll, .sample (oneKey 2 4), .poll, .release 4,
    .sample (oneKey 2 0), .modify 0, .poll, .sample (oneKey 0 0), .poll]

end Runs

section Mouse

/-- A pointer that follows the events alone. -/
structure Pointer where
  x : ℤ
  y : ℤ
  left : Bool
  right : Bool

def Pointer.follow (p : Pointer) (ev : MouseEvent) : Pointer :=
  ⟨p.x + ev.dx, p.y + ev.dy, (p.left || ev.leftDown) && !ev.leftUp, (p.right || ev.rightDown) &&
    !ev.rightUp⟩

def Pointer.moved (p : Pointer) (report : List UInt8) : Pointer :=
  ⟨p.x + i8 (report.getD 1 0), p.y + i8 (report.getD 2 0), report.getD 0 0 &&& 1 ≠ 0,
    report.getD 0 0 &&& 2 ≠ 0⟩

def decodeAll (slot : Iface) : List (List UInt8 × ℕ) → List MouseEvent × Iface
  | [] => ([], slot)
  | (report, n) :: rest =>
    let one := decodeMouse slot report n
    ((one.1.toList ++ (decodeAll one.2 rest).1), (decodeAll one.2 rest).2)

theorem decodeMouse_follow (slot : Iface) (report : List UInt8) {n : ℕ} (hn : 3 ≤ n) (x y : ℤ) :
    let r := decodeMouse slot report n
    let p := Pointer.moved ⟨x, y, slot.prevLeft, slot.prevRight⟩ report
    r.1.toList.foldl Pointer.follow ⟨x, y, slot.prevLeft, slot.prevRight⟩ = p ∧
      r.2.prevLeft = p.left ∧ r.2.prevRight = p.right := by
  have hlt : ¬n < 3 := by omega
  have hedge : ∀ now was : Bool, ((was || (now && !was)) && !(!now && was)) = now := by decide
  rw [decodeMouse, if_neg hlt]
  intro r p
  by_cases hsame : i8 (report.getD 1 0) = 0 ∧ i8 (report.getD 2 0) = 0 ∧
      decide (report.getD 0 0 &&& 1 ≠ 0) = slot.prevLeft ∧ decide (report.getD 0 0 &&& 2 ≠ 0) =
        slot.prevRight
  · have hr : r = (none, { slot with
        prevLeft := decide (report.getD 0 0 &&& 1 ≠ 0)
        prevRight := decide (report.getD 0 0 &&& 2 ≠ 0) }) := if_pos hsame
    rw [hr]
    obtain ⟨hdx, hdy, hleft, hright⟩ := hsame
    refine ⟨?_, rfl, rfl⟩
    simp only [p, Option.toList_none, List.foldl_nil, Pointer.moved, hdx, hdy, add_zero,
      hleft, hright]
  · have hr : r = (some _, { slot with
        prevLeft := decide (report.getD 0 0 &&& 1 ≠ 0)
        prevRight := decide (report.getD 0 0 &&& 2 ≠ 0) }) := if_neg hsame
    rw [hr]
    refine ⟨?_, rfl, rfl⟩
    simp only [p, Option.toList_some, List.foldl_cons, List.foldl_nil, Pointer.follow,
      Pointer.moved, hedge]

theorem decodeAll_follow (reports : List (List UInt8 × ℕ)) (hn : ∀ r ∈ reports, 3 ≤ r.2)
    (slot : Iface) (x y : ℤ) :
    (decodeAll slot reports).1.foldl Pointer.follow ⟨x, y, slot.prevLeft, slot.prevRight⟩ =
      (reports.map Prod.fst).foldl Pointer.moved ⟨x, y, slot.prevLeft, slot.prevRight⟩ := by
  induction reports generalizing slot x y with
  | nil => rfl
  | cons r rest ih =>
    obtain ⟨report, n⟩ := r
    obtain ⟨hfollow, hleft, hright⟩ := decodeMouse_follow slot report (hn (report, n) (by simp)) x y
    have hrest := ih (fun r hr => hn r (List.mem_cons_of_mem _ hr)) (decodeMouse slot report n).2
    rw [decodeAll, List.foldl_append, hfollow, List.map_cons, List.foldl_cons]
    rw [hleft, hright] at hrest
    exact hrest _ _

end Mouse

end CoeleoOs.Input.UsbHid
