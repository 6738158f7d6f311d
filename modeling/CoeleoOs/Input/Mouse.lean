import CoeleoOs.Lib.Signal
import CoeleoOs.Task.Sched.Spawn

/-!
# The mouse driver

The interrupt queues the bytes of the mouse in a ring of 64 cells that drops its oldest byte
when it is full. A poll drains the ring, puts packets of three bytes together and merges what
they report into one event.
-/

namespace CoeleoOs.Input
open CoeleoOs.Lib
open CoeleoOs.Task (Bytes queueCap)

structure MouseEvent where
  dx : ℤ
  dy : ℤ
  leftDown : Bool
  leftUp : Bool
  rightDown : Bool
  rightUp : Bool

def i8 (b : UInt8) : ℤ := if b < 128 then b.toNat else b.toNat - 256

def saturatingAdd (a b : ℤ) : ℤ := max (-32768) (min (a + b) 32767)

def MouseEvent.merge (prev : Option MouseEvent) (ev : MouseEvent) : MouseEvent :=
  match prev with
  | none => ev
  | some p =>
    { dx := saturatingAdd p.dx ev.dx
      dy := saturatingAdd p.dy ev.dy
      leftDown := p.leftDown || ev.leftDown
      leftUp := p.leftUp || ev.leftUp
      rightDown := p.rightDown || ev.rightDown
      rightUp := p.rightUp || ev.rightUp }

def mergeEvent (last ev : Option MouseEvent) : Option MouseEvent :=
  match ev with
  | none => last
  | some ev => some (MouseEvent.merge last ev)

/-- The bytes of the packet that is being put together, and the buttons of the last one. -/
structure MouseDriver where
  pkt : Bytes
  prevLeft : Bool
  prevRight : Bool

namespace MouseDriver

def init : MouseDriver := ⟨[], false, false⟩

def report (d : MouseDriver) (b0 b1 b2 : UInt8) : MouseEvent :=
  let dx : ℤ := b1.toNat - if b0 &&& 0x10 ≠ 0 then 256 else 0
  let dy : ℤ := b2.toNat - if b0 &&& 0x20 ≠ 0 then 256 else 0
  let left := b0 &&& 1 ≠ 0
  let right := b0 &&& 2 ≠ 0
  { dx := dx
    dy := -dy
    leftDown := left && !d.prevLeft
    leftUp := !left && d.prevLeft
    rightDown := right && !d.prevRight
    rightUp := !right && d.prevRight }

-- A byte that cannot start a packet is skipped, and so is a packet whose movement overflowed.
def pushByte (d : MouseDriver) (b : UInt8) : Option MouseEvent × MouseDriver :=
  if d.pkt = [] ∧ b &&& 0x08 = 0 then (none, d)
  else
    match d.pkt ++ [b] with
    | [b0, b1, b2] =>
      if b0 &&& 0xC0 ≠ 0 then (none, { d with pkt := [] })
      else (some (d.report b0 b1 b2), ⟨[], b0 &&& 1 ≠ 0, b0 &&& 2 ≠ 0⟩)
    | pkt => (none, { d with pkt := pkt })

def drainPs2 (q : Bytes) (s : Option MouseEvent × MouseDriver) : Option MouseEvent × MouseDriver :=
  q.foldl (fun s b => (mergeEvent s.1 (s.2.pushByte b).1, (s.2.pushByte b).2)) s

def drain (d : MouseDriver) (q : Bytes) (uhci usbHid : Option MouseEvent) :
    Option MouseEvent × MouseDriver :=
  let r := drainPs2 q (none, d)
  (mergeEvent (mergeEvent r.1 uhci) usbHid, r.2)

end MouseDriver

def pushMouse (q : Bytes) (b : UInt8) : Bytes :=
  if q.length + 1 < queueCap then q ++ [b] else q.tail ++ [b]

/-- A packet as the mouse sends it. -/
structure Packet where
  b0 : UInt8
  b1 : UInt8
  b2 : UInt8
  sync : b0 &&& 0x08 ≠ 0

namespace Packet

def bytes (p : Packet) : Bytes := [p.b0, p.b1, p.b2]

def left (p : Packet) : Bool := p.b0 &&& 1 ≠ 0

def right (p : Packet) : Bool := p.b0 &&& 2 ≠ 0

def overflows (p : Packet) : Bool := p.b0 &&& 0xC0 ≠ 0

def seen (ps : List Packet) : List Packet := (ps.drop (ps.length - 21)).filter fun p => !p.overflows

theorem seen_sublist (ps : List Packet) : (seen ps).Sublist ps :=
  List.filter_sublist.trans (List.drop_sublist _ _)

def lefts (ps : List Packet) : List Bool := ps.map left

def rights (ps : List Packet) : List Bool := ps.map right

end Packet

section Ring

theorem foldl_pushMouse (bs : Bytes) {q : Bytes} (hq : q.length ≤ 63) :
    bs.foldl pushMouse q = (q ++ bs).drop ((q ++ bs).length - 63) := by
  induction bs generalizing q with
  | nil => simp [hq]
  | cons b bs ih =>
    rw [List.foldl_cons, pushMouse]
    by_cases hroom : q.length + 1 < queueCap
    · rw [if_pos hroom, ih (by simpa [queueCap] using Nat.le_of_lt_succ hroom)]
      simp
    · have hlen : q.length = 63 := by
        simp only [queueCap] at hroom
        omega
      rw [if_neg hroom, ih (by simp [hlen])]
      cases q with
      | nil => cases hlen
      | cons a q =>
        simp only [List.length_cons] at hlen
        simp only [List.tail_cons, List.append_assoc, List.singleton_append, List.length_append,
          List.length_cons]
        have hdrop : q.length + 1 + (bs.length + 1) - 63 = q.length + (bs.length + 1) - 63 + 1 := by
          omega
        rw [hdrop, List.cons_append, List.drop_succ_cons]

theorem drop_flatMap_bytes (ps : List Packet) (k : ℕ) :
    (ps.flatMap Packet.bytes).drop (3 * k) = (ps.drop k).flatMap Packet.bytes := by
  induction k generalizing ps with
  | zero => rfl
  | succ k ih =>
    cases ps with
    | nil => simp
    | cons p ps => exact ih ps

theorem length_flatMap_bytes (ps : List Packet) :
    (ps.flatMap Packet.bytes).length = 3 * ps.length := by
  induction ps with
  | nil => rfl
  | cons p ps ih =>
    rw [List.flatMap_cons, List.length_append, ih, List.length_cons]
    simp only [Packet.bytes, List.length_cons, List.length_nil]
    omega

theorem burst_contents (ps : List Packet) :
    (ps.flatMap Packet.bytes).foldl pushMouse [] = (ps.drop (ps.length - 21)).flatMap
      Packet.bytes := by
  rw [foldl_pushMouse _ (by simp), List.nil_append, length_flatMap_bytes, ← drop_flatMap_bytes]
  congr 1
  omega

end Ring

namespace MouseDriver

variable (d : MouseDriver) (p : Packet)

def take (d : MouseDriver) (p : Packet) : Option MouseEvent × MouseDriver :=
  if p.overflows then (none, d) else (some (d.report p.b0 p.b1 p.b2), ⟨[], p.left, p.right⟩)

theorem drainPs2_bytes (last : Option MouseEvent) (hd : d.pkt = []) :
    drainPs2 p.bytes (last, d) = (mergeEvent last (d.take p).1, (d.take p).2) := by
  obtain ⟨pkt, prevLeft, prevRight⟩ := d
  dsimp only at hd
  subst hd
  have hsync := p.sync
  simp only [drainPs2, Packet.bytes, List.foldl_cons, List.foldl_nil, pushByte, hsync, and_false,
    if_false, List.nil_append, List.cons_append, mergeEvent, List.cons_ne_self, false_and, take,
    Packet.overflows, reduceCtorEq]
  by_cases hover : p.b0 &&& 0xC0 = 0
  · simp [hover, report, Packet.left, Packet.right]
  · simp [hover]

/-- The buttons in what a driver has merged of the packets so far. -/
structure Merged (d : MouseDriver) (ps : List Packet) (r : Option MouseEvent × MouseDriver) :
    Prop where
  pkt : r.2.pkt = []
  prevLeft : r.2.prevLeft = Signal.level d.prevLeft (Packet.lefts ps)
  prevRight : r.2.prevRight = Signal.level d.prevRight (Packet.rights ps)
  quiet : r.1 = none → ps = []
  leftDown : ∀ ev ∈ r.1, ev.leftDown = Signal.rises d.prevLeft (Packet.lefts ps)
  leftUp : ∀ ev ∈ r.1, ev.leftUp = Signal.falls d.prevLeft (Packet.lefts ps)
  rightDown : ∀ ev ∈ r.1, ev.rightDown = Signal.rises d.prevRight (Packet.rights ps)

variable {d : MouseDriver} {p : Packet} {ps : List Packet} {r : Option MouseEvent × MouseDriver}

theorem Merged.snoc (h : Merged d ps r) (hp : p.overflows = false) :
    Merged d (ps ++ [p]) (mergeEvent r.1 (r.2.take p).1, (r.2.take p).2) := by
  obtain ⟨last, d'⟩ := r
  have hprev := h.prevLeft
  have hprevRight := h.prevRight
  dsimp only at hprev hprevRight
  have hlefts : Packet.lefts (ps ++ [p]) = Packet.lefts ps ++ [p.left] := List.map_append
  have hrights : Packet.rights (ps ++ [p]) = Packet.rights ps ++ [p.right] := List.map_append
  have htake : d'.take p = (some (d'.report p.b0 p.b1 p.b2), ⟨[], p.left, p.right⟩) := by
    rw [take, if_neg (by simp [hp])]
  have hdown : (d'.report p.b0 p.b1 p.b2).leftDown = (p.left && !d'.prevLeft) := rfl
  have hup : (d'.report p.b0 p.b1 p.b2).leftUp = (!p.left && d'.prevLeft) := rfl
  have hright : (d'.report p.b0 p.b1 p.b2).rightDown = (p.right && !d'.prevRight) := rfl
  rw [htake]
  refine ⟨rfl, ?_, ?_, nofun, fun ev hev => ?_, fun ev hev => ?_, fun ev hev => ?_⟩
  · rw [hlefts, Signal.level_append]
    rfl
  · rw [hrights, Signal.level_append]
    rfl
  · obtain rfl := Option.some.inj hev
    rw [hlefts, Signal.rises_append, ← hprev]
    cases last with
    | none => simp [h.quiet rfl, MouseEvent.merge, hdown, Packet.lefts, Signal.rises]
    | some prev => simp [MouseEvent.merge, hdown, h.leftDown prev rfl, Signal.rises]
  · obtain rfl := Option.some.inj hev
    rw [hlefts, Signal.falls_append, ← hprev]
    cases last with
    | none => simp [h.quiet rfl, MouseEvent.merge, hup, Packet.lefts, Signal.falls]
    | some prev => simp [MouseEvent.merge, hup, h.leftUp prev rfl, Signal.falls]
  · obtain rfl := Option.some.inj hev
    rw [hrights, Signal.rises_append, ← hprevRight]
    cases last with
    | none => simp [h.quiet rfl, MouseEvent.merge, hright, Packet.rights, Signal.rises]
    | some prev => simp [MouseEvent.merge, hright, h.rightDown prev rfl, Signal.rises]

theorem merged_drainPs2 (hd : d.pkt = []) (ps : List Packet) :
    Merged d (ps.filter fun p => !p.overflows) (drainPs2 (ps.flatMap Packet.bytes) (none, d)) := by
  induction ps using List.reverseRecOn with
  | nil =>
    exact ⟨hd, rfl, rfl, fun _ => rfl, by simp [drainPs2], by simp [drainPs2], by simp [drainPs2]⟩
  | append_singleton ps p ih =>
    generalize hr : drainPs2 (ps.flatMap Packet.bytes) (none, d) = r at ih
    have hsplit : drainPs2 ((ps ++ [p]).flatMap Packet.bytes) (none, d) =
        (mergeEvent r.1 (r.2.take p).1, (r.2.take p).2) := by
      rw [← drainPs2_bytes r.2 p r.1 ih.pkt, ← hr]
      simp [drainPs2, List.flatMap_append]
    rw [hsplit, List.filter_append]
    cases hp : p.overflows with
    | false => simpa [hp] using ih.snoc hp
    | true => simpa [hp, take, mergeEvent] using ih

theorem merged_drain (hd : d.pkt = []) (ps : List Packet) :
    Merged d (Packet.seen ps) (d.drain ((ps.flatMap Packet.bytes).foldl pushMouse [])
      none none) := by
  rw [burst_contents]
  exact merged_drainPs2 hd _

end MouseDriver

end CoeleoOs.Input
