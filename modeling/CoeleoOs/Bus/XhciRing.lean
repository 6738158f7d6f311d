import CoeleoOs.Lib.Machine
import CoeleoOs.Lib.PhaseRing
import Mathlib.Data.UInt

/-!
# Producer rings of the xHCI driver

`enqueue_cmd` and `enqueue_ep` store a TRB of four dwords behind the last one; the
last cell of a ring holds the Link TRB that leads back to the first. The controller
reads a cell when its cycle bit equals the controller's own cycle state. It may do so
between any two dword stores of the driver.
-/

namespace CoeleoOs.Bus
open CoeleoOs.Lib CoeleoOs.Lib.PhaseRing

abbrev ringTrbs : ℕ := 256

def trbNormal : UInt32 := 1
def trbSetup : UInt32 := 2
def trbData : UInt32 := 3
def trbStatus : UInt32 := 4
def trbLink : UInt32 := 6
def trbEnableSlot : UInt32 := 9
def trbDisableSlot : UInt32 := 10
def trbAddress : UInt32 := 11
def trbConfigEp : UInt32 := 12
def trbEval : UInt32 := 13

def cycle : UInt32 := 1
def tc : UInt32 := (1 : UInt32) <<< 1
def ch : UInt32 := (1 : UInt32) <<< 4
def ioc : UInt32 := (1 : UInt32) <<< 5
def idt : UInt32 := (1 : UInt32) <<< 6
def dirIn : UInt32 := (1 : UInt32) <<< 16
def trtOut : UInt32 := (2 : UInt32) <<< 16
def trtIn : UInt32 := (3 : UInt32) <<< 16

def trb (cycle ty extra : UInt32) : UInt32 :=
  (cycle &&& (1 : UInt32)) ||| extra ||| (ty <<< (10 : UInt32))

structure Ring where
  phys : UInt64
  i : ℕ
  pcs : UInt32
  deriving DecidableEq

/-- The store of one dword of the TRB at an index. -/
structure Store where
  index : ℕ
  dw : ℕ
  val : UInt32
  deriving DecidableEq

def putTrb (i : ℕ) (param : UInt64) (st ctrl : UInt32) : List Store :=
  [⟨i, 0, param.toUInt32⟩, ⟨i, 1, (param >>> 32).toUInt32⟩, ⟨i, 2, st⟩, ⟨i, 3, ctrl⟩]

def bump (ring : Ring) : List Store × Ring :=
  let i := ring.i + 1
  if ringTrbs ≤ i + 1 then
    let link := trb ring.pcs trbLink tc ||| ring.pcs
    (putTrb (ringTrbs - 1) ring.phys 0 link, { ring with i := 0, pcs := ring.pcs ^^^ 1 })
  else ([], { ring with i := i })

def enqueueCmd (ring : Ring) (p : UInt64) (st _extra ctrl : UInt32) : List Store × Ring :=
  let ctrl := (ctrl &&& ~~~cycle) ||| ring.pcs
  ((putTrb ring.i p st ctrl) ++ (bump ring).1, (bump ring).2)

def enqueueEp (ring : Ring) (p : UInt64) (len ctrl : UInt32) : List Store × Ring :=
  let ctrl := (ctrl &&& ~~~cycle) ||| ring.pcs
  ((putTrb ring.i p len ctrl) ++ (bump ring).1, (bump ring).2)

abbrev RingMem := ℕ → ℕ → UInt32

def storeAll (mem : RingMem) (ss : List Store) : RingMem :=
  ss.foldl (fun m s => write m s.index s.dw s.val) mem

def ringInit (p : UInt64) : RingMem × Ring :=
  (storeAll (fun _ _ => 0) (putTrb (ringTrbs - 1) p 0 (trb 0 trbLink tc)), ⟨p, 0, 1⟩)

def trbType (ctrl : UInt32) : UInt32 := (ctrl >>> (10 : UInt32)) &&& 0x3F

/-- A TRB that a caller hands over. The driver makes links itself. -/
structure Call where
  param : UInt64
  st : UInt32
  ctrl : UInt32
  notLink : trbType ctrl ≠ trbLink

/-- A TRB without its cycle bit. -/
structure Trb where
  d0 : UInt32
  d1 : UInt32
  d2 : UInt32
  d3 : UInt32
  deriving DecidableEq

def Call.trb (c : Call) : Trb :=
  ⟨c.param.toUInt32, (c.param >>> 32).toUInt32, c.st, c.ctrl &&& ~~~cycle⟩

/-- A ring with the driver that fills it and the controller that reads it. `todo` are
the stores that the call in progress has still to make. -/
structure RingState where
  mem : RingMem
  ring : Ring
  todo : List Store
  dequeue : ℕ
  ccs : UInt32
  sent : List Call
  got : List Trb

def RingState.init (p : UInt64) : RingState := ⟨(ringInit p).1, (ringInit p).2, [], 0, 1, [], []⟩

inductive RingAct
  | cmd (c : Call) (extra : UInt32)
  | ep (c : Call)
  | store
  | controller

/-- The controller at its dequeue pointer. A Link TRB that led anywhere but to the
start of the ring would stop it. -/
def RingState.controller (b : RingState) : Option RingState :=
  let t := b.mem b.dequeue
  if t 3 &&& cycle ≠ b.ccs then none
  else if trbType (t 3) = trbLink then
    if t 0 = b.ring.phys.toUInt32 ∧ t 1 = (b.ring.phys >>> 32).toUInt32 then
      some { b with dequeue := 0, ccs := if t 3 &&& tc ≠ 0 then b.ccs ^^^ 1 else b.ccs }
    else none
  else some { b with dequeue := b.dequeue + 1, got := b.got ++ [⟨t 0, t 1, t 2, t 3 &&& ~~~cycle⟩] }

def maxUnread : ℕ := 254

def RingState.call (b : RingState) (c : Call) (r : List Store × Ring) : Option RingState :=
  if b.todo = [] ∧ b.sent.length + 1 ≤ b.got.length + maxUnread then
    some { b with todo := r.1, ring := r.2, sent := b.sent ++ [c] }
  else none

def RingState.step (b : RingState) : RingAct → Option RingState
  | .cmd c extra => b.call c (enqueueCmd b.ring c.param c.st extra c.ctrl)
  | .ep c => b.call c (enqueueEp b.ring c.param c.st c.ctrl)
  | .store =>
    match b.todo with
    | [] => none
    | s :: rest => some { b with mem := write b.mem s.index s.dw s.val, todo := rest }
  | .controller => b.controller

/-- The controller alone, until it finds nothing. -/
def RingState.drain : ℕ → RingState → RingState
  | 0, b => b
  | n + 1, b =>
    match b.controller with
    | none => b
    | some b => RingState.drain n b

section Words

def lapCycle (x : ℕ) : UInt32 := if phase ringTrbs x then 1 else 0

def cycleBit (w : UInt32) : Bool := w &&& cycle = 1

def dwords (param : UInt64) (st ctrl : UInt32) : ℕ → UInt32
  | 0 => param.toUInt32
  | 1 => (param >>> 32).toUInt32
  | 2 => st
  | _ => ctrl

theorem putTrb_eq (i : ℕ) (param : UInt64) (st ctrl : UInt32) :
    putTrb i param st ctrl = (List.range 4).map fun d => ⟨i, d, dwords param st ctrl d⟩ := rfl

theorem notCycle_bit {i : ℕ} (hi : i < 32) : (4294967294#32).getLsbD i = !decide (i = 0) := by
  revert i
  decide

theorem typeMask_bit {i : ℕ} (hi : i < 32) : (63#32).getLsbD i = decide (i < 6) := by
  revert i
  decide

theorem extraMask_bit {i : ℕ} (hi : i < 32) :
    (64512#32).getLsbD i = (decide (10 ≤ i) && decide (i < 16)) := by
  revert i
  decide

theorem trbType_trb {ty extra : UInt32} (hty : ty &&& 0x3F = ty) (hextra : extra &&& 0xFC00 = 0) :
    trbType (trb cycle ty extra) = ty := by
  refine UInt32.toBitVec_inj.mp (BitVec.eq_of_getLsbD_eq fun i hi => ?_)
  by_cases h6 : i < 6
  · have hclear : extra.toBitVec.getLsbD (10 + i) = false := by
      have hbit := congrArg (fun w => w.toBitVec.getLsbD (10 + i)) hextra
      simpa [extraMask_bit (show 10 + i < 32 by omega), show 10 + i < 16 by omega] using hbit
    simp [trbType, trb, cycle, typeMask_bit hi, h6, hclear]
    intro _
    omega
  · have hclear : ty.toBitVec.getLsbD i = false := by
      have hbit := congrArg (fun w => w.toBitVec.getLsbD i) hty
      simpa [typeMask_bit hi, h6] using hbit
    simp [trbType, trb, cycle, typeMask_bit hi, h6, hclear]

theorem or_cycle (ctrl : UInt32) (x : ℕ) :
    ((ctrl &&& ~~~cycle) ||| lapCycle x) &&& cycle = lapCycle x := by
  simp only [lapCycle, cycle]
  split
  · refine UInt32.toBitVec_inj.mp (BitVec.eq_of_getLsbD_eq fun i hi => ?_)
    by_cases h0 : i = 0
    · simp [h0]
    · simp [h0]
  · refine UInt32.toBitVec_inj.mp (BitVec.eq_of_getLsbD_eq fun i hi => ?_)
    simp [notCycle_bit hi]

theorem or_cycle_clear (ctrl : UInt32) (x : ℕ) :
    ((ctrl &&& ~~~cycle) ||| lapCycle x) &&& ~~~cycle = ctrl &&& ~~~cycle := by
  simp only [lapCycle, cycle]
  split
  · refine UInt32.toBitVec_inj.mp (BitVec.eq_of_getLsbD_eq fun i hi => ?_)
    by_cases h0 : i = 0
    · simp [h0]
    · simp [notCycle_bit hi, h0]
  · refine UInt32.toBitVec_inj.mp (BitVec.eq_of_getLsbD_eq fun i hi => ?_)
    simp

theorem or_cycle_type (ctrl : UInt32) (x : ℕ) :
    trbType ((ctrl &&& ~~~cycle) ||| lapCycle x) = trbType ctrl := by
  simp only [lapCycle, cycle, trbType]
  split
  · refine UInt32.toBitVec_inj.mp (BitVec.eq_of_getLsbD_eq fun i hi => ?_)
    by_cases h6 : i < 6
    · simp [notCycle_bit (show 10 + i < 32 by omega)]
    · simp [typeMask_bit hi, h6]
  · refine UInt32.toBitVec_inj.mp (BitVec.eq_of_getLsbD_eq fun i hi => ?_)
    by_cases h6 : i < 6
    · simp [notCycle_bit (show 10 + i < 32 by omega)]
    · simp [typeMask_bit hi, h6]

end Words

section Cells

variable {p : UInt64} {calls : List Call} {c : Call} {x : ℕ}

def cellOf (n : ℕ) : ℕ := n + n / 255

def callAt (x : ℕ) : ℕ := x - x / ringTrbs

def content (p : UInt64) (calls : List Call) (x : ℕ) : ℕ → UInt32 :=
  if x % ringTrbs = 255 then dwords p 0 (trb (lapCycle x) trbLink tc ||| lapCycle x)
  else
    match calls[callAt x]? with
    | some c => dwords c.param c.st ((c.ctrl &&& ~~~cycle) ||| lapCycle x)
    | none => fun _ => 0

theorem callAt_cellOf (n : ℕ) : callAt (cellOf n) = n := by
  simp only [callAt, cellOf, ringTrbs]
  omega

theorem cellOf_mod (n : ℕ) : cellOf n % ringTrbs = n % 255 := by
  simp only [cellOf, ringTrbs]
  omega

theorem content_link (hx : x % ringTrbs = 255) :
    content p calls x = dwords p 0 (trb (lapCycle x) trbLink tc ||| lapCycle x) := by
  simp only [content, hx, if_true]

theorem content_call (hx : x % ringTrbs ≠ 255) (hc : calls[callAt x]? = some c) :
    content p calls x = dwords c.param c.st ((c.ctrl &&& ~~~cycle) ||| lapCycle x) := by
  simp only [content, hx, if_false, hc]

theorem content_append (hx : x % ringTrbs = 255 ∨ callAt x < calls.length) :
    content p (calls ++ [c]) x = content p calls x := by
  by_cases hlink : x % ringTrbs = 255
  · rw [content_link hlink, content_link hlink]
  · simp only [content, List.getElem?_append_left (hx.resolve_left hlink)]

theorem and_cycle (w : UInt32) : w &&& cycle = 0 ∨ w &&& cycle = 1 := by
  have hnat : (w &&& cycle).toNat = w.toNat % 2 := by
    rw [UInt32.toNat_and]
    exact Nat.and_one_is_mod _
  rcases Nat.mod_two_eq_zero_or_one w.toNat with h | h
  · exact .inl (UInt32.toNat_inj.mp (hnat.trans h))
  · exact .inr (UInt32.toNat_inj.mp (hnat.trans h))

theorem and_cycle_iff (w : UInt32) : w &&& cycle = lapCycle x ↔ cycleBit w = phase ringTrbs x := by
  simp only [lapCycle, cycleBit]
  rcases and_cycle w with h | h
  · cases phase ringTrbs x <;> simp [h]
  · cases phase ringTrbs x <;> simp [h]

theorem link_cycle (x : ℕ) :
    (trb (lapCycle x) trbLink tc ||| lapCycle x) &&& cycle = lapCycle x := by
  simp only [lapCycle]
  split <;> decide

theorem content_cycle (hx : x % ringTrbs = 255 ∨ callAt x < calls.length) :
    content p calls x 3 &&& cycle = lapCycle x := by
  by_cases hlink : x % ringTrbs = 255
  · rw [content_link hlink]
    exact link_cycle x
  · rw [content_call hlink (List.getElem?_eq_getElem (hx.resolve_left hlink))]
    exact or_cycle _ x

theorem cell_known {n : ℕ} (hx : x < cellOf n) : x % ringTrbs = 255 ∨ callAt x < n := by
  simp only [cellOf, callAt, ringTrbs] at *
  omega

theorem content_phase (hx : x < cellOf calls.length) :
    cycleBit (content p calls x 3) = phase ringTrbs x :=
  (and_cycle_iff _).mp (content_cycle (cell_known hx))

def cellStores (p : UInt64) (calls : List Call) (x : ℕ) : List Store :=
  (List.range 4).map fun d => ⟨x % ringTrbs, d, content p calls x d⟩

end Cells

/-- The stores up to word `k` of cell `F` are made, and the controller is at cell `K`. -/
structure RingInv (p : UInt64) (F k K : ℕ) (b : RingState) : Prop where
  ring : b.ring = ⟨p, b.sent.length % 255, lapCycle (cellOf b.sent.length)⟩
  filled : Filled ringTrbs 3 cycleBit (content p b.sent) F k b.mem
  todo : b.todo = ((List.range' F (cellOf b.sent.length - F)).flatMap (cellStores p b.sent)).drop k
  word : k = 0 ∨ k < 4 ∧ F < cellOf b.sent.length
  le : F ≤ cellOf b.sent.length
  read : K ≤ F
  room : cellOf b.sent.length ≤ K + 255
  dequeue : b.dequeue = K % ringTrbs
  ccs : b.ccs = lapCycle K
  got : b.got = (b.sent.take (callAt K)).map Call.trb

section Steps

variable {p : UInt64} {F k K : ℕ} {b b' : RingState} {c : Call}

theorem RingInv.quiet (h : RingInv p F k K b) (htodo : b.todo = []) :
    F = cellOf b.sent.length ∧ k = 0 := by
  have hle := h.le
  rcases h.word with h0 | ⟨h4, hlt⟩
  · refine ⟨?_, h0⟩
    by_contra hne
    obtain ⟨m, hm⟩ : ∃ m, cellOf b.sent.length - F = m + 1 :=
      ⟨cellOf b.sent.length - F - 1, by omega⟩
    have hlist := h.todo
    rw [htodo, hm, List.range'_succ, h0] at hlist
    simp [cellStores] at hlist
  · obtain ⟨m, hm⟩ : ∃ m, cellOf b.sent.length - F = m + 1 :=
      ⟨cellOf b.sent.length - F - 1, by omega⟩
    have hlen := congrArg List.length h.todo
    rw [htodo, hm, List.range'_succ, List.flatMap_cons, List.length_drop, List.length_append]
      at hlen
    simp only [cellStores, List.length_map, List.length_range, List.length_nil] at hlen
    omega

theorem RingInv.got_le (h : RingInv p F k K b) : callAt K ≤ b.sent.length := by
  have hle := h.le
  have hread := h.read
  simp only [cellOf, callAt, ringTrbs] at *
  omega

theorem RingInv.got_length (h : RingInv p F k K b) : b.got.length = callAt K := by
  rw [h.got, List.length_map, List.length_take, Nat.min_eq_left h.got_le]

theorem cellOf_div (n : ℕ) : cellOf n / ringTrbs = n / 255 := by
  simp only [cellOf, ringTrbs]
  omega

theorem lapCycle_cellOf_end {n : ℕ} (h : n % 255 = 254) :
    lapCycle (cellOf (n + 1)) = lapCycle (cellOf n) ^^^ 1 := by
  have hlap : (n + 1) / 255 = n / 255 + 1 := by omega
  simp only [lapCycle, phase, cellOf_div, hlap, decide_eq_true_eq]
  rcases Nat.mod_two_eq_zero_or_one (n / 255) with h2 | h2
  · rw [if_neg (by omega), if_pos h2]
    decide
  · rw [if_pos (by omega), if_neg (by omega)]
    decide

theorem lapCycle_cellOf_inner {n : ℕ} (h : n % 255 ≠ 254) :
    lapCycle (cellOf (n + 1)) = lapCycle (cellOf n) := by
  have hlap : (n + 1) / 255 = n / 255 := by omega
  simp only [lapCycle, phase, cellOf_div, hlap]

theorem lapCycle_link {n : ℕ} (h : n % 255 = 254) :
    lapCycle (cellOf n + 1) = lapCycle (cellOf n) := by
  have hlap : (cellOf n + 1) / ringTrbs = cellOf n / ringTrbs := by
    simp only [cellOf, ringTrbs]
    omega
  rw [lapCycle, lapCycle, phase, phase, hlap]

theorem enqueue_stores (p : UInt64) (c : Call) (calls : List Call) :
    (enqueueEp ⟨p, calls.length % 255, lapCycle (cellOf calls.length)⟩ c.param c.st c.ctrl).1 =
        (List.range' (cellOf calls.length)
          (cellOf (calls.length + 1) - cellOf calls.length)).flatMap (cellStores p (calls ++ [c])) ∧
      (enqueueEp ⟨p, calls.length % 255, lapCycle (cellOf calls.length)⟩ c.param c.st c.ctrl).2 =
        ⟨p, (calls.length + 1) % 255, lapCycle (cellOf (calls.length + 1))⟩ := by
  have hcell :
      cellStores p (calls ++ [c]) (cellOf calls.length) = putTrb (calls.length % 255) c.param c.st
      ((c.ctrl &&& ~~~cycle) ||| lapCycle (cellOf calls.length)) := by
    have hget : (calls ++ [c])[callAt (cellOf calls.length)]? = some c := by
      rw [callAt_cellOf]
      simp
    have hne : cellOf calls.length % ringTrbs ≠ 255 := by
      rw [cellOf_mod]
      omega
    rw [cellStores, content_call hne hget, cellOf_mod, putTrb_eq]
  by_cases hend : calls.length % 255 = 254
  · have hspan : cellOf (calls.length + 1) - cellOf calls.length = 2 := by
      simp only [cellOf]
      omega
    have hlink : cellStores p (calls ++ [c]) (cellOf calls.length + 1) = putTrb (ringTrbs - 1) p 0
        (trb (lapCycle (cellOf calls.length)) trbLink tc ||| lapCycle (cellOf calls.length)) := by
      have hmod : (cellOf calls.length + 1) % ringTrbs = 255 := by
        simp only [cellOf, ringTrbs]
        omega
      rw [cellStores, content_link hmod, hmod, lapCycle_link hend, putTrb_eq]
      rfl
    rw [hspan, List.range'_succ, List.range'_one, List.flatMap_cons, List.flatMap_singleton,
      hcell, hlink, lapCycle_cellOf_end hend]
    simp only [enqueueEp, bump, ringTrbs]
    rw [if_pos (by omega), show (calls.length + 1) % 255 = 0 by omega]
    exact ⟨rfl, rfl⟩
  · have hspan : cellOf (calls.length + 1) - cellOf calls.length = 1 := by
      simp only [cellOf]
      omega
    rw [hspan, List.range'_one, List.flatMap_singleton, hcell, lapCycle_cellOf_inner hend]
    simp only [enqueueEp, bump, ringTrbs]
    rw [if_neg (by omega), show (calls.length + 1) % 255 = calls.length % 255 + 1 by omega]
    exact ⟨List.append_nil _, rfl⟩

theorem RingInv.call (h : RingInv p F k K b) {r : List Store × Ring}
    (hr : r = enqueueEp b.ring c.param c.st c.ctrl) (hstep : b.call c r = some b') :
    RingInv p F 0 K b' := by
  simp only [RingState.call] at hstep
  split at hstep
  · rename_i hgo
    obtain rfl := Option.some.inj hstep
    obtain ⟨hF, rfl⟩ := h.quiet hgo.1
    obtain ⟨hstores, hring⟩ := enqueue_stores p c b.sent
    rw [← h.ring, ← hr] at hstores hring
    have hcells : cellOf b.sent.length < cellOf (b.sent.length + 1) := by
      simp only [cellOf]
      omega
    have hread := h.read
    have hlen := h.got_length
    have hroom := hgo.2
    refine ⟨?_, ?_, ?_, .inl rfl, ?_, h.read, ?_, h.dequeue, h.ccs, ?_⟩
    · simpa using hring
    · exact h.filled.congr (fun x hx => content_append (cell_known (hF ▸ hx))) rfl
    · simpa [hF] using hstores
    · simp only [List.length_append, List.length_singleton]
      omega
    · simp only [List.length_append, List.length_singleton]
      rw [hlen] at hroom
      simp only [cellOf, callAt, maxUnread, ringTrbs] at hroom ⊢
      omega
    · rw [h.got, List.take_append_of_le_length (h.got_length ▸ h.got_le)]
  · cases hstep

theorem cellStores_getElem {calls : List Call} {x d : ℕ} (hd : d < (cellStores p calls x).length) :
    (cellStores p calls x)[d] = ⟨x % ringTrbs, d, content p calls x d⟩ := by
  simp [cellStores]

theorem RingInv.store (h : RingInv p F k K b) (hstep : b.step .store = some b') :
    ∃ F' k', RingInv p F' k' K b' := by
  simp only [RingState.step] at hstep
  split at hstep
  · cases hstep
  · rename_i s rest htodo
    obtain rfl := Option.some.inj hstep
    have hk : k < 4 := by
      rcases h.word with h0 | h4
      · omega
      · exact h4.1
    have hlist := htodo.symm.trans h.todo
    have hF : F < cellOf b.sent.length := by
      by_contra hnot
      rw [show cellOf b.sent.length - F = 0 by omega] at hlist
      simp at hlist
    have hread := h.read
    obtain ⟨m, hm⟩ : ∃ m, cellOf b.sent.length - F = m + 1 :=
      ⟨cellOf b.sent.length - F - 1, by omega⟩
    have hfour : (cellStores p b.sent F).length = 4 := by simp [cellStores]
    rw [hm, List.range'_succ, List.flatMap_cons, List.drop_append_of_le_length (by omega),
      List.drop_eq_getElem_cons (by omega), cellStores_getElem, List.cons_append, List.cons.injEq]
        at hlist
    obtain ⟨rfl, hrest⟩ := hlist
    by_cases hlast : k = 3
    · subst hlast
      refine ⟨F + 1, 0, h.ring, h.filled.publish (by decide) (content_phase hF), ?_, .inl rfl, hF,
        by omega, h.room, h.dequeue, h.ccs, h.got⟩
      rw [show cellOf b.sent.length - (F + 1) = m by omega, List.drop_zero, hrest,
        List.drop_eq_nil_of_le (by rw [hfour]), List.nil_append]
    · refine ⟨F, k + 1, h.ring, h.filled.word (by omega), ?_, .inr ⟨by omega, hF⟩, h.le,
        h.read, h.room, h.dequeue, h.ccs, h.got⟩
      have hfit : k + 1 ≤ (cellStores p b.sent F).length := by omega
      rw [hm, List.range'_succ, List.flatMap_cons, List.drop_append_of_le_length hfit]
      exact hrest

theorem content_d3_type {calls : List Call} {x : ℕ} (hx : x < cellOf calls.length) :
    trbType (content p calls x 3) = trbLink ↔ x % ringTrbs = 255 := by
  constructor
  · intro htype
    by_contra hlink
    have hlt := (cell_known hx).resolve_left hlink
    have hget := List.getElem?_eq_getElem hlt
    rw [content_call hlink hget] at htype
    exact calls[callAt x].notLink ((or_cycle_type _ x).symm.trans htype)
  · intro hlink
    rw [content_link hlink]
    simp only [dwords, lapCycle]
    split <;> decide

theorem lapCycle_succ_link {x : ℕ} (hx : x % ringTrbs = 255) :
    lapCycle (x + 1) = lapCycle x ^^^ 1 := by
  simp only [lapCycle, phase_succ (by decide : 0 < ringTrbs), hx]
  cases phase ringTrbs x <;> decide

theorem lapCycle_succ_call {x : ℕ} (hx : x % ringTrbs ≠ 255) : lapCycle (x + 1) = lapCycle x := by
  have hinner : x % ringTrbs + 1 ≠ ringTrbs := by
    simp only [ringTrbs] at *
    omega
  rw [lapCycle, lapCycle, phase_succ (by decide : 0 < ringTrbs), if_neg hinner]

theorem callAt_succ_link {x : ℕ} (hx : x % ringTrbs = 255) : callAt (x + 1) = callAt x := by
  simp only [callAt, ringTrbs] at *
  omega

theorem callAt_succ_call {x : ℕ} (hx : x % ringTrbs ≠ 255) : callAt (x + 1) = callAt x + 1 := by
  simp only [callAt, ringTrbs] at *
  omega

theorem succ_mod_call {x : ℕ} (hx : x % ringTrbs ≠ 255) :
    (x + 1) % ringTrbs = x % ringTrbs + 1 := by
  simp only [ringTrbs] at *
  omega

theorem succ_mod_link {x : ℕ} (hx : x % ringTrbs = 255) : (x + 1) % ringTrbs = 0 := by
  simp only [ringTrbs] at *
  omega

theorem link_tc (x : ℕ) : (trb (lapCycle x) trbLink tc ||| lapCycle x) &&& tc ≠ 0 := by
  simp only [lapCycle]
  split <;> decide

theorem RingInv.controller (h : RingInv p F k K b) :
    (K = F ∧ b.controller = none) ∨ ∃ b', b.controller = some b' ∧ b'.todo = b.todo ∧
    b'.sent = b.sent ∧ RingInv p F k (K + 1) b' := by
  have hread := h.read
  have hle := h.le
  have hroom := h.room
  have hlap : F < K + ringTrbs := by
    simp only [ringTrbs]
    omega
  have hready := h.filled.ready_iff (fun x hx => content_phase (by omega)) h.read hlap
  rw [← and_cycle_iff, ← h.dequeue, ← h.ccs] at hready
  by_cases hK : K < F
  · have hcell : ∀ d ≤ 3, b.mem b.dequeue d = content p b.sent K d := by
      rw [h.dequeue]
      exact h.filled.kept K hK hlap
    have hknown : K < cellOf b.sent.length := by omega
    have htype := content_d3_type (p := p) hknown
    right
    simp only [RingState.controller]
    rw [if_neg (not_not.mpr (hready.mpr hK)), hcell 0 (by omega), hcell 1 (by omega),
      hcell 2 (by omega), hcell 3 le_rfl]
    have hahead : cellOf b.sent.length ≤ K + 1 + 255 := by omega
    by_cases hlink : K % ringTrbs = 255
    · have hphys : b.ring.phys = p := by rw [h.ring]
      rw [if_pos (htype.mpr hlink), content_link hlink, hphys]
      refine ⟨_, if_pos ⟨rfl, rfl⟩, rfl, rfl, ⟨h.ring, h.filled, h.todo, h.word, h.le, hK, hahead,
        ?_, ?_, ?_⟩⟩
      · exact (succ_mod_link hlink).symm
      · rw [lapCycle_succ_link hlink, if_pos, h.ccs]
        exact link_tc K
      · rw [callAt_succ_link hlink]
        exact h.got
    · have hlt := (cell_known hknown).resolve_left hlink
      rw [if_neg (fun h => hlink (htype.mp h)), content_call hlink (List.getElem?_eq_getElem hlt)]
      refine ⟨_, rfl, rfl, rfl, ⟨h.ring, h.filled, h.todo, h.word, h.le, hK, hahead, ?_, ?_, ?_⟩⟩
      · rw [succ_mod_call hlink, ← h.dequeue]
      · rw [lapCycle_succ_call hlink]
        exact h.ccs
      · rw [callAt_succ_call hlink, List.take_succ_eq_append_getElem hlt, List.map_append, ← h.got]
        simp only [dwords, or_cycle_clear, List.map_cons, List.map_nil, Call.trb]
  · left
    refine ⟨by omega, ?_⟩
    simp only [RingState.controller]
    rw [if_pos (fun hc => hK (hready.mp hc))]

end Steps

section Runs

variable {p : UInt64} {F k K : ℕ} {b b' : RingState}

theorem ringInit_mem (p : UInt64) (i : ℕ) : cycleBit ((ringInit p).1 i 3) = false := by
  simp only [ringInit, putTrb, storeAll, List.foldl_cons, List.foldl_nil]
  by_cases hi : i = ringTrbs - 1
  · rw [hi, write_self]
    decide
  · rw [write_cell hi, write_cell hi, write_cell hi, write_cell hi]
    decide

theorem RingInv.init (p : UInt64) : RingInv p 0 0 0 (RingState.init p) where
  ring := by simp [RingState.init, ringInit, cellOf, lapCycle, phase]
  filled := by
    refine ⟨by simp, by simp, fun x _ hx => ?_⟩
    have hfirst : phase ringTrbs x = true := by
      rw [phase, Nat.div_eq_of_lt (by simpa using hx)]
      rfl
    rw [hfirst]
    exact ne_of_eq_of_ne (ringInit_mem p _) (by decide)
  todo := by simp [RingState.init, cellOf]
  word := .inl rfl
  le := Nat.zero_le _
  read := le_rfl
  room := by simp [RingState.init, cellOf]
  dequeue := rfl
  ccs := rfl
  got := rfl

theorem RingInv.step {a : RingAct} (h : RingInv p F k K b) (hstep : b.step a = some b') :
    ∃ F' k' K', RingInv p F' k' K' b' := by
  cases a with
  | cmd c extra => exact ⟨F, 0, K, h.call rfl hstep⟩
  | ep c => exact ⟨F, 0, K, h.call rfl hstep⟩
  | store =>
    obtain ⟨F', k', h'⟩ := h.store hstep
    exact ⟨F', k', K, h'⟩
  | controller =>
    rcases h.controller with ⟨-, hnone⟩ | ⟨b'', hsome, -, -, h'⟩
    · cases hnone.symm.trans hstep
    · cases hsome.symm.trans hstep
      exact ⟨F, k, K + 1, h'⟩

theorem reachable_ring (h : Machine.Reachable RingState.step (RingState.init p) b) :
    ∃ F k K, RingInv p F k K b :=
  h.invariant (I := fun b => ∃ F k K, RingInv p F k K b) ⟨0, 0, 0, RingInv.init p⟩
    (fun _ _ _ ⟨_, _, _, hinv⟩ hstep => hinv.step hstep)

theorem RingInv.drain {n : ℕ} (h : RingInv p F k K b) (htodo : b.todo = []) (hn : F ≤ K + n) :
    (b.drain n).got = b.sent.map Call.trb ∧ (b.drain n).controller = none := by
  induction n generalizing K b with
  | zero =>
    obtain rfl : K = F := le_antisymm h.read hn
    rcases h.controller with ⟨-, hnone⟩ | ⟨b', -, -, -, hnext⟩
    · refine ⟨?_, hnone⟩
      rw [RingState.drain, h.got, (h.quiet htodo).1, callAt_cellOf, List.take_length]
    · exact absurd hnext.read (by omega)
  | succ n ih =>
    rcases h.controller with ⟨rfl, hnone⟩ | ⟨b', hsome, htodo', hsent, hnext⟩
    · simp only [RingState.drain, hnone]
      refine ⟨?_, trivial⟩
      rw [h.got, (h.quiet htodo).1, callAt_cellOf, List.take_length]
    · simp only [RingState.drain, hsome]
      rw [← hsent]
      exact ih hnext (htodo'.trans htodo) (by omega)

/-- At every moment the controller has read the first TRBs handed over, each once and in
order, and when the driver is done it goes on to read the rest and stops there. -/
theorem ring_read_as_written (h : Machine.Reachable RingState.step (RingState.init p) b) :
    b.got <+: b.sent.map Call.trb ∧
      (b.todo = [] → (b.drain ringTrbs).got = b.sent.map Call.trb ∧
        (b.drain ringTrbs).controller = none) := by
  obtain ⟨F, k, K, hinv⟩ := reachable_ring h
  constructor
  · rw [hinv.got]
    exact (List.take_prefix _ _).map _
  · intro htodo
    have hle := hinv.le
    have hroom := hinv.room
    have hspan : F ≤ K + ringTrbs := by
      simp only [ringTrbs]
      omega
    exact hinv.drain htodo hspan

theorem driver_not_link {ty extra : UInt32}
    (hty : ty ∈ [trbNormal, trbSetup, trbData, trbStatus, trbEnableSlot, trbDisableSlot, trbAddress,
      trbConfigEp, trbEval]) (hextra : extra ∈ [0, idt ||| ch, idt ||| ch ||| trtIn,
      idt ||| ch ||| trtOut, ch, ch ||| dirIn, ioc, ioc ||| dirIn] ∨ ∃ slot : UInt8, extra =
        slot.toUInt32 <<< 24) : trbType (trb cycle ty extra) ≠ trbLink := by
  have hmask : extra &&& 0xFC00 = 0 := by
    rcases hextra with hflags | ⟨slot, rfl⟩
    · have hall :
          [0, idt ||| ch, idt ||| ch ||| trtIn, idt ||| ch ||| trtOut, ch, ch ||| dirIn, ioc,
        ioc ||| dirIn].all (fun flags => flags &&& 0xFC00 == 0) = true := by decide
      exact eq_of_beq (List.all_eq_true.mp hall extra hflags)
    · refine UInt32.toBitVec_inj.mp (BitVec.eq_of_getLsbD_eq fun i hi => ?_)
      simp [extraMask_bit hi]
      omega
  have hall : [trbNormal, trbSetup, trbData, trbStatus, trbEnableSlot, trbDisableSlot, trbAddress,
      trbConfigEp, trbEval].all (fun ty => decide (ty &&& 0x3F = ty ∧ ty ≠ trbLink)) =
        true := by decide
  have hsmall : ty &&& 0x3F = ty ∧ ty ≠ trbLink :=
    of_decide_eq_true (List.all_eq_true.mp hall ty hty)
  rw [trbType_trb hsmall.1 hmask]
  exact hsmall.2

def setupCall : Call := ⟨0x12000680, 8, trb cycle trbSetup (idt ||| ch ||| trtIn), by decide⟩
def statusCall : Call := ⟨0, 0, trb cycle trbStatus ioc, by decide⟩

theorem ring_read_setup_status :
    ∃ b, Machine.Reachable RingState.step (RingState.init 0x5000) b ∧ b.got = [setupCall.trb] ∧
      b.got <+: b.sent.map Call.trb := by
  obtain ⟨r, hpath, hgot⟩ := Machine.exists_path_of_replay RingState.step (RingState.init 0x5000)
    [.ep setupCall, .store, .store, .store, .store, .ep statusCall, .store, .store, .controller]
    (fun r => r.2.got = [setupCall.trb]) rfl
  have hreach : Machine.Reachable RingState.step (RingState.init 0x5000) r.2 := ⟨r.1, hpath⟩
  exact ⟨r.2, hreach, by simpa using hgot, (ring_read_as_written hreach).1⟩

end Runs

end CoeleoOs.Bus
