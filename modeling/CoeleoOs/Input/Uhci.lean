import CoeleoOs.Input.Mouse
import Mathlib.Data.Nat.Bitwise

/-!
# The USB mouse of the UHCI driver

One transfer descriptor asks the mouse for reports. Reports carry a toggle bit: the controller keeps
one whose toggle is the descriptor's and throws another away as a repetition, and the mouse goes on
to the next report when it hears that one has arrived. `arm_int` takes the other toggle for every
descriptor, whether the last one has brought a report or ended in an error.
-/

namespace CoeleoOs.Input.Uhci

def pidIn : ℕ := 0x69
def tdActive : ℕ := 1 <<< 23
def tdLs : ℕ := 1 <<< 26
def tdSpd : ℕ := 1 <<< 29
def tdErrMask : ℕ := 0x7C0000

def tdCsBits (ls : Bool) : ℕ := tdActive ||| (3 <<< 27) ||| tdSpd ||| if ls then tdLs else 0

def token (pid addr ep toggle len : ℕ) : ℕ :=
  let max := if len = 0 then 0x7FF else len - 1
  pid ||| (addr <<< 8) ||| (ep <<< 15) ||| (toggle <<< 19) ||| (max <<< 21)

structure Td where
  cs : ℕ
  token : ℕ
  deriving DecidableEq

def Td.active (td : Td) : Bool := td.cs.testBit 23
def Td.failed (td : Td) : Bool := td.cs &&& tdErrMask != 0
def Td.toggle (td : Td) : Bool := td.token.testBit 19

/-- The bytes of a report that are looked at. -/
structure Report where
  buttons : UInt8
  dx : UInt8
  dy : UInt8
  deriving DecidableEq

structure Dev where
  addr : UInt8
  ep : Fin 16
  toggle : Bool
  ls : Bool
  maxpkt : ℕ
  prevLeft : Bool
  prevRight : Bool
  td : Td
  report : Report

namespace Dev

def armInt (dev : Dev) : Dev :=
  { dev with
    td := ⟨tdCsBits dev.ls, token pidIn dev.addr.toNat dev.ep dev.toggle.toNat dev.maxpkt⟩
    toggle := !dev.toggle }

def decode (dev : Dev) : Option MouseEvent × Dev :=
  let dx := i8 dev.report.dx
  let dy := i8 dev.report.dy
  let left := dev.report.buttons &&& 1 != 0
  let right := dev.report.buttons &&& 2 != 0
  let was := dev.prevLeft
  let wasR := dev.prevRight
  let dev := { dev with prevLeft := left, prevRight := right }
  if dx = 0 ∧ dy = 0 ∧ left = was ∧ right = wasR then (none, dev)
  else
    (some
      { dx := dx
        dy := dy
        leftDown := left && !was
        leftUp := !left && was
        rightDown := right && !wasR
        rightUp := !right && wasR }, dev)

def poll (dev : Dev) : Option MouseEvent × Dev :=
  if dev.td.active then (none, dev)
  else if dev.td.failed then (none, dev.armInt)
  else dev.armInt.decode

end Dev

/-- The driver and the mouse. `toggle` is the toggle of the mouse and `pending` what it has still to
report; `moved` are the reports it has left behind, `received` those that polls have read, `errors`
the descriptors that have ended in an error. -/
structure State where
  dev : Dev
  toggle : Bool
  pending : List Report
  moved : List Report
  received : List Report
  errors : ℕ
  events : List MouseEvent

inductive Act
  | move (r : Report)
  /-- The mouse sends its first report. `cs` is the status if that ends the descriptor, `ack` says
  whether the mouse hears of it. -/
  | transfer (cs : ℕ) (ack : Bool)
  | fail (cs : ℕ)
  | poll

namespace State

def transfer (s : State) (cs : ℕ) (ack : Bool) : State :=
  match s.pending with
  | [] => s
  | r :: rest =>
    let td : Td := ⟨cs, s.dev.td.token⟩
    if s.dev.td.active && !td.active && !td.failed then
      let dev := if s.dev.td.toggle = s.toggle then { s.dev with td := td, report := r } else s.dev
      if ack
        then { s with dev := dev, toggle := !s.toggle, pending := rest, moved := s.moved ++ [r] }
      else { s with dev := dev }
    else s

def fail (s : State) (cs : ℕ) : State :=
  let td : Td := ⟨cs, s.dev.td.token⟩
  if s.dev.td.active && !td.active && td.failed then
    { s with dev := { s.dev with td := td }, errors := s.errors + 1 }
  else s

def poll (s : State) : State :=
  let r := s.dev.poll
  { s with
    dev := r.2
    received :=
      if s.dev.td.active || s.dev.td.failed then s.received else s.received ++ [s.dev.report]
    events := s.events ++ r.1.toList }

def act (s : State) : Act → State
  | .move r => { s with pending := s.pending ++ [r] }
  | .transfer cs ack => s.transfer cs ack
  | .fail cs => s.fail cs
  | .poll => s.poll

def run (s : State) (acts : List Act) : State := acts.foldl act s

/-- A report that has come and that no poll has read. -/
def inBuffer (s : State) : List Report :=
  if s.dev.td.active || s.dev.td.failed then [] else [s.dev.report]

end State

def startDev (addr : UInt8) (ep : Fin 16) (ls : Bool) (maxpkt : ℕ) : Dev :=
  (⟨addr, ep, false, ls, maxpkt, false, false, ⟨0, 0⟩, ⟨0, 0, 0⟩⟩ : Dev).armInt

/-- `try_port` has armed the first descriptor, and configuring the mouse has set its toggle to 0. -/
def start (addr : UInt8) (ep : Fin 16) (ls : Bool) (maxpkt : ℕ) : State :=
  ⟨startDev addr ep ls maxpkt, false, [], [], [], 0, []⟩

/-- What is received of what is sent, with the number of reports that are lost or come twice. -/
inductive Delivers {α : Type} : ℕ → List α → List α → Prop
  | nil : Delivers 0 [] []
  | got {k : ℕ} {sent got : List α} (x : α) :
    Delivers k sent got → Delivers k (sent ++ [x]) (got ++ [x])
  | lost {k : ℕ} {sent got : List α} (x : α) :
    Delivers k sent got → Delivers (k + 1) (sent ++ [x]) got
  | again {k : ℕ} {sent got : List α} (x : α) :
    Delivers k (sent ++ [x]) got → Delivers (k + 1) (sent ++ [x]) (got ++ [x])

theorem Delivers.eq_of_zero {α : Type} {sent got : List α} {k : ℕ} (h : Delivers k sent got)
    (hk : k = 0) : sent = got := by
  induction h with
  | nil => rfl
  | got x _ ih => rw [ih hk]
  | lost x _ _ => cases hk
  | again x _ _ => cases hk

section Words

theorem token_toggle {addr ep len : ℕ} (haddr : addr < 256) (hep : ep < 16) (t : Bool) :
    (token pidIn addr ep t.toNat len).testBit 19 = t := by
  have hlow : pidIn.testBit 19 = false := by decide
  have haddr' : addr.testBit 11 = false := Nat.testBit_lt_two_pow (by omega)
  have hep' : ep.testBit 4 = false := Nat.testBit_lt_two_pow (by omega)
  have ht : t.toNat.testBit 0 = t := by cases t <;> rfl
  simp [token, Nat.testBit_or, Nat.testBit_shiftLeft, hlow, haddr', hep', ht]

theorem armInt_td (dev : Dev) :
    dev.armInt.td.active = true ∧ dev.armInt.td.toggle = dev.toggle ∧ dev.armInt.toggle =
      !dev.toggle := by
  refine ⟨?_, token_toggle dev.addr.toNat_lt dev.ep.isLt dev.toggle, rfl⟩
  have hcs : ∀ ls, (tdCsBits ls).testBit 23 = true := by decide
  exact hcs dev.ls

theorem decode_fields (dev : Dev) :
    dev.decode.2.td = dev.td ∧ dev.decode.2.toggle = dev.toggle := by
  simp only [Dev.decode]
  split
  · exact ⟨rfl, rfl⟩
  · exact ⟨rfl, rfl⟩

end Words

def State.expects (s : State) : Bool := if s.dev.td.active then s.dev.td.toggle else s.dev.toggle

/-- With `ahead` the first report of the mouse has come already, and the mouse has not heard of it.
When the toggles do not fit, the next report is the one that is lost or comes twice. -/
structure Follows (s : State) (ahead : Bool) (k : ℕ) : Prop where
  next : s.dev.td.active = true → s.dev.toggle = !s.dev.td.toggle
  head : ahead = true → s.pending ≠ []
  delivers :
    Delivers k (s.moved ++ if ahead then s.pending.take 1 else []) (s.received ++ s.inBuffer)
  count : k + ((s.expects == s.toggle) == ahead).toNat ≤ s.errors

variable {s : State} {ahead : Bool} {k : ℕ}

theorem start_follows (addr : UInt8) (ep : Fin 16) (ls : Bool) (maxpkt : ℕ) :
    Follows (start addr ep ls maxpkt) false 0 := by
  obtain ⟨hactive, htoggle, hnext⟩ :=
    armInt_td ⟨addr, ep, false, ls, maxpkt, false, false, ⟨0, 0⟩, ⟨0, 0, 0⟩⟩
  have htd : (start addr ep ls maxpkt).dev.td.active = true := hactive
  refine ⟨fun _ => ?_, fun h => absurd h Bool.false_ne_true, ?_, ?_⟩
  · exact hnext.trans (congrArg Bool.not htoggle.symm)
  · simp only [State.inBuffer, htd, Bool.true_or, if_true]
    exact .nil
  · simp only [State.expects, htd, if_true]
    have hfits : (start addr ep ls maxpkt).dev.td.toggle = false := htoggle
    rw [hfits]
    exact le_rfl

theorem Follows.move (h : Follows s ahead k) (r : Report) : Follows (s.act (.move r)) ahead k := by
  refine ⟨h.next, fun hahead => ?_, ?_, h.count⟩
  · exact List.append_ne_nil_of_left_ne_nil (h.head hahead) _
  · have htake : (if ahead then (s.pending ++ [r]).take 1 else []) = if ahead then s.pending.take 1
        else [] := by
      cases hahead : ahead with
      | false => rfl
      | true =>
        have hlen := List.length_pos_iff.mpr (h.head hahead)
        simp only [if_true]
        rw [List.take_append_of_le_length hlen]
    show Delivers k (s.moved ++ if ahead then (s.pending ++ [r]).take 1
        else []) (s.received ++ s.inBuffer)
    rw [htake]
    exact h.delivers

theorem swap_toggle (t u a : Bool) : (((!t) == u) == a) = !((t == u) == a) := by
  revert t u a
  decide

theorem Follows.fail (h : Follows s ahead k) (cs : ℕ) : Follows (s.fail cs) ahead k := by
  rw [State.fail]
  split
  · next hcond =>
    obtain ⟨hrun, hfailed⟩ := Bool.and_eq_true_iff.mp hcond
    obtain ⟨hactive, hstop⟩ := Bool.and_eq_true_iff.mp hrun
    have hstop : Td.active ⟨cs, s.dev.td.token⟩ = false := Bool.not_eq_true' _ ▸ hstop
    refine ⟨fun hon => ?_, h.head, ?_, ?_⟩
    · rw [hstop] at hon
      cases hon
    · have hbuf := h.delivers
      simp only [State.inBuffer, hactive, Bool.true_or, if_true] at hbuf
      simp only [State.inBuffer, hfailed, Bool.or_true, if_true]
      exact hbuf
    · have hcount := h.count
      simp only [State.expects, hactive, if_true] at hcount
      simp only [State.expects, hstop, Bool.false_eq_true, if_false, h.next hactive]
      rw [swap_toggle]
      have hone := Bool.toNat_le (!((s.dev.td.toggle == s.toggle) == ahead))
      omega
  · exact h

theorem Follows.poll (h : Follows s ahead k) : Follows s.poll ahead k := by
  by_cases hactive : s.dev.td.active = true
  · have hsame : s.poll = s := by
      simp only [State.poll, Dev.poll, hactive, Bool.true_or, if_true, Option.toList_none,
        List.append_nil]
    rw [hsame]
    exact h
  · have hoff : s.dev.td.active = false := eq_false_of_ne_true hactive
    obtain ⟨hon, htoggle, hnext⟩ := armInt_td s.dev
    have hbuf := h.delivers
    have hcount := h.count
    simp only [State.expects, hoff, Bool.false_eq_true, if_false] at hcount
    have hdev : s.poll.dev.td = s.dev.armInt.td ∧ s.poll.dev.toggle = s.dev.armInt.toggle := by
      simp only [State.poll, Dev.poll, hoff, Bool.false_eq_true, if_false]
      split
      · exact ⟨rfl, rfl⟩
      · exact decode_fields s.dev.armInt
    have hread : s.poll.received ++ s.poll.inBuffer = s.received ++ s.inBuffer := by
      have hempty : s.poll.inBuffer = [] := by
        simp only [State.inBuffer, hdev.1, hon, Bool.true_or, if_true]
      rw [hempty, List.append_nil]
      simp only [State.poll, State.inBuffer, hoff, Bool.false_or]
      split
      · rw [List.append_nil]
      · rfl
    refine ⟨fun _ => ?_, h.head, ?_, ?_⟩
    · rw [hdev.1, hdev.2, htoggle, hnext]
    · rw [hread]
      exact hbuf
    · have hexpects : s.poll.expects = s.dev.toggle := by
        simp only [State.expects, hdev.1, hon, if_true, htoggle]
      rw [hexpects]
      exact hcount

theorem Follows.transfer (h : Follows s ahead k) (cs : ℕ) (ack : Bool) :
    ∃ ahead' k', Follows (s.transfer cs ack) ahead' k' := by
  rw [State.transfer]
  split
  · exact ⟨ahead, k, h⟩
  · next r rest hpending =>
    simp only
    split
    · next hcond =>
      obtain ⟨hrun, hgood⟩ := Bool.and_eq_true_iff.mp hcond
      obtain ⟨hactive, hstop⟩ := Bool.and_eq_true_iff.mp hrun
      have hstop : Td.active ⟨cs, s.dev.td.token⟩ = false := Bool.not_eq_true' _ ▸ hstop
      have hgood : Td.failed ⟨cs, s.dev.td.token⟩ = false := Bool.not_eq_true' _ ▸ hgood
      have hbuf := h.delivers
      have hcount := h.count
      have hnext := h.next hactive
      simp only [State.inBuffer, hactive, Bool.true_or, if_true, List.append_nil, hpending,
        List.take_one, List.head?_cons, Option.toList_some] at hbuf
      simp only [State.expects, hactive, if_true] at hcount
      by_cases hfits : s.dev.td.toggle = s.toggle
      · rw [hfits, beq_self_eq_true] at hcount
        obtain ⟨k', hk', hgot⟩ :
            ∃ k', k' ≤ s.errors ∧ Delivers k' (s.moved ++ [r]) (s.received ++ [r]) := by
          cases ahead with
          | false => exact ⟨k, by omega, .got r (by simpa using hbuf)⟩
          | true => exact ⟨k + 1, hcount, .again r (by simpa using hbuf)⟩
        simp only [if_pos hfits]
        cases ack with
        | true =>
          refine ⟨false, k', fun hon => ?_, fun h => absurd h Bool.false_ne_true, ?_, ?_⟩
          · simp only [if_true, hstop] at hon
            cases hon
          · simpa [State.inBuffer, hstop, hgood] using hgot
          · simpa [State.expects, hstop, hnext, hfits] using hk'
        | false =>
          refine ⟨true, k', fun hon => ?_, fun _ => ?_, ?_, ?_⟩
          · simp only [Bool.false_eq_true, if_false, hstop] at hon
          · simp [hpending]
          · simpa [State.inBuffer, hstop, hgood, hpending] using hgot
          · simpa [State.expects, hstop, hnext, hfits] using hk'
      · have hother : s.toggle = !s.dev.td.toggle := by
          cases hs : s.toggle <;> cases ht : s.dev.td.toggle <;> simp [hs, ht] at hfits ⊢
        simp only [if_neg hfits]
        cases ack with
        | true =>
          obtain ⟨k', hk', hgot⟩ :
              ∃ k', k' ≤ s.errors ∧ Delivers k' (s.moved ++ [r]) s.received := by
            cases ahead with
            | true => exact ⟨k, by omega, by simpa using hbuf⟩
            | false =>
              refine ⟨k + 1, ?_, .lost r (by simpa using hbuf)⟩
              simpa [hother] using hcount
          refine ⟨false, k', fun hon => hnext, fun h => absurd h Bool.false_ne_true, ?_, ?_⟩
          · simpa [State.inBuffer, hactive] using hgot
          · simpa [State.expects, hactive, hother] using hk'
        | false => exact ⟨ahead, k, h⟩
    · exact ⟨ahead, k, h⟩

theorem run_follows (h : Follows s ahead k) (acts : List Act) :
    ∃ ahead' k', Follows (s.run acts) ahead' k' := by
  induction acts generalizing s ahead k with
  | nil => exact ⟨ahead, k, h⟩
  | cons a acts ih =>
    cases a with
    | move r => exact ih (h.move r)
    | transfer cs ack =>
      obtain ⟨ahead', k', h'⟩ := h.transfer cs ack
      exact ih h'
    | fail cs => exact ih (h.fail cs)
    | poll => exact ih h.poll

/-- Where the pointer is, counted from the start, and which buttons are down. -/
structure Pointer where
  x : ℤ
  y : ℤ
  left : Bool
  right : Bool
  deriving DecidableEq

def Pointer.origin : Pointer := ⟨0, 0, false, false⟩

def Pointer.follow (p : Pointer) (ev : MouseEvent) : Pointer :=
  ⟨p.x + ev.dx, p.y + ev.dy, (p.left || ev.leftDown) && !ev.leftUp, (p.right || ev.rightDown) &&
    !ev.rightUp⟩

def Pointer.report (p : Pointer) (r : Report) : Pointer :=
  ⟨p.x + i8 r.dx, p.y + i8 r.dy, r.buttons &&& 1 != 0, r.buttons &&& 2 != 0⟩

structure Tracks (s : State) : Prop where
  pointer :
    s.events.foldl Pointer.follow Pointer.origin = s.received.foldl Pointer.report Pointer.origin
  left : (s.received.foldl Pointer.report Pointer.origin).left = s.dev.prevLeft
  right : (s.received.foldl Pointer.report Pointer.origin).right = s.dev.prevRight

theorem button_edges (was now : Bool) : ((was || (now && !was)) && !(!now && was)) = now := by
  revert was now
  decide

theorem decode_follow (dev : Dev) (p : Pointer) (hleft : p.left = dev.prevLeft)
    (hright : p.right = dev.prevRight) :
    dev.decode.1.toList.foldl Pointer.follow p = p.report dev.report ∧
      (p.report dev.report).left = dev.decode.2.prevLeft ∧ (p.report dev.report).right =
        dev.decode.2.prevRight := by
  simp only [Dev.decode]
  split
  · next hsame =>
    obtain ⟨hx, hy, hl, hr⟩ := hsame
    refine ⟨?_, rfl, rfl⟩
    show p = p.report dev.report
    simp only [Pointer.report, hx, hy, hl, hr, Int.add_zero, ← hleft, ← hright]
  · refine ⟨?_, rfl, rfl⟩
    simp only [Option.toList_some, List.foldl_cons, List.foldl_nil, Pointer.follow, Pointer.report,
      hleft, hright, button_edges]

theorem Tracks.poll (h : Tracks s) : Tracks s.poll := by
  simp only [State.poll, Dev.poll]
  by_cases hactive : s.dev.td.active = true
  · simp only [hactive, Bool.true_or, if_true, Option.toList_none, List.append_nil]
    exact h
  · by_cases hfailed : s.dev.td.failed = true
    · simp only [hactive, hfailed, Bool.or_true, Bool.false_eq_true, if_true, if_false,
        Option.toList_none, List.append_nil]
      exact ⟨h.pointer, h.left, h.right⟩
    · simp only [hactive, hfailed, Bool.or_self, Bool.false_eq_true, if_false]
      obtain ⟨hmoved, hleft, hright⟩ := decode_follow s.dev.armInt _ h.left h.right
      refine ⟨?_, ?_, ?_⟩
      · rw [List.foldl_append, List.foldl_append, h.pointer, hmoved]
        rfl
      · rw [List.foldl_append]
        exact hleft
      · rw [List.foldl_append]
        exact hright

theorem run_tracks (h : Tracks s) (acts : List Act) : Tracks (s.run acts) := by
  induction acts generalizing s with
  | nil => exact h
  | cons a acts ih =>
    cases a with
    | move r => exact ih ⟨h.pointer, h.left, h.right⟩
    | transfer cs ack =>
      refine ih ?_
      show Tracks (s.transfer cs ack)
      simp only [State.transfer]
      split
      · exact h
      · split_ifs <;> exact ⟨h.pointer, h.left, h.right⟩
    | fail cs =>
      refine ih ?_
      show Tracks (s.fail cs)
      simp only [State.fail]
      split_ifs <;> exact ⟨h.pointer, h.left, h.right⟩
    | poll => exact ih h.poll

/-- However transfers, lost acknowledgements, errors and polls follow each other, every report is
read once and in order, but for one report for each descriptor that has ended in an error, which is
lost or read again. The events together say what the reports read say. -/
theorem reports_read_once (addr : UInt8) (ep : Fin 16) (ls : Bool) (maxpkt : ℕ) (acts : List Act) :
    let s := (start addr ep ls maxpkt).run acts
    (∃ n ≤ 1, ∃ k ≤ s.errors, Delivers k (s.moved ++ s.pending.take n) (s.received ++ s.inBuffer)) ∧
      (s.errors = 0 → ∃ n ≤ 1, s.moved ++ s.pending.take n = s.received ++ s.inBuffer) ∧
      s.events.foldl Pointer.follow Pointer.origin = s.received.foldl Pointer.report
        Pointer.origin := by
  intro s
  obtain ⟨ahead, k, h⟩ := run_follows (start_follows addr ep ls maxpkt) acts
  have hk : k ≤ s.errors := (Nat.le_add_right k _).trans h.count
  have hsent : ∃ n ≤ 1, Delivers k (s.moved ++ s.pending.take n) (s.received ++ s.inBuffer) := by
    have hdelivers := h.delivers
    cases ahead with
    | true => exact ⟨1, le_rfl, hdelivers⟩
    | false => exact ⟨0, Nat.zero_le 1, hdelivers⟩
  obtain ⟨n, hn, hdelivers⟩ := hsent
  refine ⟨⟨n, hn, k, hk, hdelivers⟩, fun hnone => ⟨n, hn, hdelivers.eq_of_zero (by omega)⟩, ?_⟩
  exact (run_tracks (s := start addr ep ls maxpkt) ⟨rfl, rfl, rfl⟩ acts).pointer

def click : Report := ⟨1, 2, 0xFF⟩
def release : Report := ⟨0, 0, 0⟩

def lostAck : List Act :=
  [.move click, .transfer 0 false, .poll, .transfer 0 true, .move release, .transfer 0 true, .poll]

theorem lostAck_read_once :
    ((start 1 1 true 4).run lostAck).received = [click, release] ∧
      ((start 1 1 true 4).run lostAck).events.foldl Pointer.follow Pointer.origin =
        ⟨2, -1, false, false⟩ := by
  have hread : ((start 1 1 true 4).run lostAck).received = [click, release] := by decide
  have hpointer := (reports_read_once 1 1 true 4 lostAck).2.2
  rw [hread] at hpointer
  exact ⟨hread, hpointer⟩

end CoeleoOs.Input.Uhci
