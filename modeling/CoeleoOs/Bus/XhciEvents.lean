import CoeleoOs.Lib.Machine
import Mathlib.Data.List.Perm.Subperm
import Mathlib.Data.UInt
import Mathlib.Data.Fintype.Basic
import Mathlib.Logic.Function.Basic

/-!
# Transfer events of the xHCI driver

A transfer event names a slot and an endpoint, not the transfer. The driver moves the
events of the event ring to a stash of sixteen and looks there for one of its endpoint.
One lock covers an operation of the driver with its wait, so that only the controller
acts in between. The numbers of the transfers are not part of the driver; they say which
transfer an event completes.
-/

namespace CoeleoOs.Bus
open CoeleoOs.Lib CoeleoOs.Lib.Machine

def xferQ : ℕ := 16

def trbTransfer : UInt32 := 32
def trbCmdComp : UInt32 := 33

structure Evt where
  ty : UInt32
  code : UInt8
  slot : UInt8
  dci : UInt8
  remain : UInt32
  id : ℕ
  deriving DecidableEq

/-- A transfer on the ring of an endpoint. -/
structure Queued where
  slot : UInt8
  dci : UInt8
  id : ℕ
  deriving DecidableEq

structure IntEp where
  dci : UInt8
  armed : Bool
  id : ℕ
  deriving DecidableEq

abbrev IntEps := Fin 2 → Option IntEp

structure Host where
  posted : List Evt
  cmdEv : Option Evt
  xfer : List (Option Evt)
  slots : UInt8 → Option IntEps
  queued : List Queued
  next : ℕ
  waiting : Option Queued
  delivered : List (Queued × Evt)

def Host.init : Host := ⟨[], none, List.replicate xferQ none, fun _ => none, [], 0, none, []⟩

def Evt.on (slot dci : UInt8) (e : Evt) : Bool := e.slot = slot && e.dci = dci

def Queued.on (slot dci : UInt8) (q : Queued) : Bool := q.slot = slot && q.dci = dci

def overwrite (ev : Evt) : List (Option Evt) → Option (List (Option Evt))
  | [] => none
  | x :: xs =>
    if x.any (Evt.on ev.slot ev.dci) then some (some ev :: xs) else (overwrite ev xs).map (x :: ·)

def fillFree (ev : Evt) : List (Option Evt) → Option (List (Option Evt))
  | [] => none
  | none :: xs => some (some ev :: xs)
  | some x :: xs => (fillFree ev xs).map (some x :: ·)

-- With sixteen other events in the stash the event is dropped.
def stashXfer (xs : List (Option Evt)) (ev : Evt) : List (Option Evt) :=
  (overwrite ev xs).getD ((fillFree ev xs).getD xs)

def takeXfer (slot dci : UInt8) : List (Option Evt) → Option (Evt × List (Option Evt))
  | [] => none
  | none :: xs => (takeXfer slot dci xs).map fun r => (r.1, none :: r.2)
  | some x :: xs =>
    if x.on slot dci then some (x, none :: xs) else (takeXfer slot dci xs).map fun r =>
      (r.1, some x :: r.2)

def Host.pumpOne (s : Host) (ev : Evt) : Host :=
  if ev.ty = trbCmdComp then { s with cmdEv := some ev }
  else if ev.ty = trbTransfer then { s with xfer := stashXfer s.xfer ev }
  else s

def Host.pump (s : Host) : Host := s.posted.foldl Host.pumpOne { s with posted := [] }

def Host.enqueue (s : Host) (slot dci : UInt8) : Host :=
  { s with queued := s.queued ++ [⟨slot, dci, s.next⟩], next := s.next + 1 }

def position (eps : IntEps) (dci : UInt8) : Option (Fin 2 × IntEp) :=
  match (eps 0).filter fun ep => ep.dci = dci with
  | some ep => some (0, ep)
  | none => ((eps 1).filter fun ep => ep.dci = dci).map fun ep => (1, ep)

def Host.setEp (s : Host) (slot : UInt8) (eps : IntEps) (i : Fin 2) (ep : IntEp) : Host :=
  { s with slots := Function.update s.slots slot (some (Function.update eps i (some ep))) }

def Host.armInt (s : Host) (slot : UInt8) (i : Fin 2) : Host :=
  match s.slots slot with
  | none => s
  | some eps =>
    match eps i with
    | none => s
    | some ep => (s.enqueue slot ep.dci).setEp slot eps i { ep with armed := true, id := s.next }

def Host.deliver (s : Host) (q : Queued) (ev : Evt) (rest : List (Option Evt)) : Host :=
  { s with xfer := rest, delivered := s.delivered ++ [(q, ev)] }

def Host.interruptPoll (s : Host) (slot dci : UInt8) : Host :=
  let s := s.pump
  match s.slots slot with
  | none => s
  | some eps =>
    match position eps dci with
    | none => s
    | some (i, ep) =>
      if ep.armed then
        match takeXfer slot dci s.xfer with
        | none => s
        | some (ev, rest) =>
          ((s.deliver ⟨slot, dci, ep.id⟩ ev rest).setEp slot eps i { ep with
            armed := false }).armInt slot i
      else s.armInt slot i

inductive HostAct
  /-- The controller completes the first transfer of an endpoint. -/
  | complete (slot dci code : UInt8) (remain : UInt32)
  | other (ev : Evt)
  | request (slot dci : UInt8)
  | spin
  | expire
  | poll (slot dci : UInt8)
  | drain
  | waitCmd
  | enable (slot : UInt8)
  | disable (slot : UInt8)
  | configure (slot dci : UInt8) (second : Option UInt8)

def Host.waitSpin (s : Host) (x : Queued) : Host :=
  let s := s.pump
  match takeXfer x.slot x.dci s.xfer with
  | none => s
  | some (ev, rest) => { s.deliver x ev rest with waiting := none }

def unarmed (dci : UInt8) : IntEp := ⟨dci, false, 0⟩

def Host.driver (s : Host) : HostAct → Option Host
  | .request slot dci =>
    if s.slots slot = none then none
    else some { s.enqueue slot dci with waiting := some ⟨slot, dci, s.next⟩ }
  | .poll slot dci => some (s.interruptPoll slot dci)
  | .drain => some s.pump
  | .waitCmd => some { s.pump with cmdEv := none }
  | .enable slot => some { s with slots := Function.update s.slots slot (some fun _ => none) }
  | .disable slot => some { s with slots := Function.update s.slots slot none }
  | .configure slot dci second =>
    match s.slots slot with
    | none => none
    | some eps =>
      let eps := Function.update eps 0 (some (unarmed dci))
      let eps := match second with
        | none => eps
        | some dci => Function.update eps 1 (some (unarmed dci))
      some { s with slots := Function.update s.slots slot (some eps) }
  | _ => none

def Host.step (s : Host) : HostAct → Option Host
  | .complete slot dci code remain =>
    match s.queued.find? (Queued.on slot dci) with
    | none => none
    | some q =>
      some { s with
        queued := s.queued.eraseP (Queued.on slot dci)
        posted := s.posted ++ [⟨trbTransfer, code, slot, dci, remain, q.id⟩] }
  | .other ev => if ev.ty = trbTransfer then none else some { s with posted := s.posted ++ [ev] }
  | .spin => s.waiting.map s.waitSpin
  | .expire => s.waiting.map fun _ => { s with waiting := none }
  | a => if s.waiting = none then s.driver a else none

def stashed (slot dci : UInt8) (xs : List (Option Evt)) : List ℕ :=
  ((xs.filterMap id).filter (Evt.on slot dci)).map Evt.id

def pending (slot dci : UInt8) (es : List Evt) : List ℕ :=
  (es.filter fun e => e.ty = trbTransfer && e.on slot dci).map Evt.id

def queuedOn (slot dci : UInt8) (qs : List Queued) : List ℕ :=
  (qs.filter (Queued.on slot dci)).map Queued.id

def Host.late (s : Host) (slot dci : UInt8) : List ℕ :=
  stashed slot dci s.xfer ++ (pending slot dci s.posted ++ queuedOn slot dci s.queued)

def Host.ArmedAt (s : Host) (slot : UInt8) (i : Fin 2) (ep : IntEp) : Prop :=
  ∃ eps, s.slots slot = some eps ∧ eps i = some ep ∧ ep.armed = true

def Host.armedOn (s : Host) (slot dci : UInt8) : Bool :=
  (s.slots slot).any fun eps => [eps 0, eps 1].any fun e => e.any fun ep => ep.armed && ep.dci = dci

/-- Nothing is left of the earlier transfers of an endpoint. -/
def Host.Settled (s : Host) (slot dci : UInt8) : Prop :=
  s.late slot dci = [] ∧ s.armedOn slot dci = false

instance (s : Host) (slot dci : UInt8) : Decidable (s.Settled slot dci) :=
  inferInstanceAs (Decidable (_ ∧ _))

/-- A transfer is queued on an endpoint only when nothing is left of its earlier ones. -/
def Fresh (t : Trans Host HostAct) : Prop :=
  match t.act with
  | .request slot dci => t.pre.Settled slot dci
  | .poll slot dci =>
    ∀ r ∈ (t.pre.slots slot).bind fun eps => position eps dci, r.2.armed = true ∨
      t.pre.Settled slot dci
  | _ => True

instance : (t : Trans Host HostAct) → Decidable (Fresh t)
  | ⟨s, .request slot dci, _⟩ => inferInstanceAs (Decidable (s.Settled slot dci))
  | ⟨s, .poll slot dci, _⟩ => inferInstanceAs (Decidable
      (∀ r ∈ (s.slots slot).bind fun eps => position eps dci, r.2.armed = true ∨
        s.Settled slot dci))
  | ⟨_, .complete .., _⟩ | ⟨_, .other _, _⟩ | ⟨_, .spin, _⟩ | ⟨_, .expire, _⟩ | ⟨_, .drain, _⟩
  | ⟨_, .waitCmd, _⟩ | ⟨_, .enable _, _⟩ | ⟨_, .disable _, _⟩ | ⟨_, .configure .., _⟩ =>
    isTrue trivial

section Stash

variable {slot dci : UInt8} {ev : Evt} {xs ys : List (Option Evt)}

theorem stashed_none : stashed slot dci (none :: xs) = stashed slot dci xs := rfl

theorem stashed_some : stashed slot dci (some ev :: xs) =
    (if ev.on slot dci then [ev.id] else []) ++ stashed slot dci xs := by
  cases h : ev.on slot dci <;> simp [stashed, h]

theorem overwrite_stashed (h : overwrite ev xs = some ys) :
    (stashed slot dci ys).Subperm (stashed slot dci xs ++ if ev.on slot dci then [ev.id]
      else []) := by
  induction xs generalizing ys with
  | nil => cases h
  | cons x xs ih =>
    simp only [overwrite] at h
    split at h
    · rename_i hon
      obtain rfl := Option.some.inj h
      cases x with
      | none => cases hon
      | some x =>
        rw [stashed_some, stashed_some, List.append_assoc]
        exact List.perm_append_comm.subperm.trans (List.sublist_append_right _ _).subperm
    · obtain ⟨zs, hz, rfl⟩ := Option.map_eq_some_iff.mp h
      cases x with
      | none =>
        rw [stashed_none, stashed_none]
        exact ih hz
      | some x =>
        rw [stashed_some, stashed_some, List.append_assoc]
        exact (List.subperm_append_left _).mpr (ih hz)

theorem fillFree_stashed (h : fillFree ev xs = some ys) :
    (stashed slot dci ys).Subperm (stashed slot dci xs ++ if ev.on slot dci then [ev.id]
      else []) := by
  induction xs generalizing ys with
  | nil => cases h
  | cons x xs ih =>
    cases x with
    | none =>
      obtain rfl := Option.some.inj h
      rw [stashed_some, stashed_none]
      exact List.perm_append_comm.subperm
    | some x =>
      obtain ⟨zs, hz, rfl⟩ := Option.map_eq_some_iff.mp h
      rw [stashed_some, stashed_some, List.append_assoc]
      exact (List.subperm_append_left _).mpr (ih hz)

theorem stashXfer_stashed (xs : List (Option Evt)) (ev : Evt) :
    (stashed slot dci (stashXfer xs ev)).Subperm
      (stashed slot dci xs ++ if ev.on slot dci then [ev.id] else []) := by
  rw [stashXfer]
  cases ho : overwrite ev xs with
  | some ys => exact overwrite_stashed ho
  | none =>
    cases hf : fillFree ev xs with
    | some ys => exact fillFree_stashed hf
    | none => exact (List.sublist_append_left _ _).subperm

theorem takeXfer_stashed {s d : UInt8} (h : takeXfer slot dci xs = some (ev, ys)) :
    ev.on slot dci = true ∧
      (stashed s d xs).Perm ((if ev.on s d then [ev.id] else []) ++ stashed s d ys) := by
  induction xs generalizing ys with
  | nil => cases h
  | cons x xs ih =>
    cases x with
    | none =>
      obtain ⟨⟨e, zs⟩, hz, heq⟩ := Option.map_eq_some_iff.mp h
      obtain ⟨rfl, rfl⟩ := Prod.mk.inj heq
      rw [stashed_none, stashed_none]
      exact ih hz
    | some x =>
      simp only [takeXfer] at h
      split at h
      · rename_i hon
        obtain ⟨rfl, rfl⟩ := Prod.mk.inj (Option.some.inj h)
        rw [stashed_some, stashed_none]
        exact ⟨hon, .refl _⟩
      · obtain ⟨⟨e, zs⟩, hz, heq⟩ := Option.map_eq_some_iff.mp h
        obtain ⟨rfl, rfl⟩ := Prod.mk.inj heq
        obtain ⟨hon, hperm⟩ := ih hz
        rw [stashed_some, stashed_some]
        exact ⟨hon, (hperm.append_left _).trans (List.perm_append_comm_assoc _ _ _)⟩

end Stash

section Late

variable {s s' : Host} {slot dci : UInt8}

theorem armedOn_eq_false :
    s.armedOn slot dci = false ↔ ∀ i ep, s.ArmedAt slot i ep → ep.dci ≠ dci := by
  constructor
  · rintro h i ep ⟨eps, hslot, hep, harmed⟩ hdci
    match i with
    | 0 => simp [Host.armedOn, hslot, hep, harmed, hdci] at h
    | 1 => simp [Host.armedOn, hslot, hep, harmed, hdci] at h
  · intro h
    cases hslot : s.slots slot with
    | none => simp [Host.armedOn, hslot]
    | some eps =>
      have hquiet : ∀ i ep, eps i = some ep → ep.armed = true → ep.dci ≠ dci :=
        fun i ep hep harmed => h i ep ⟨eps, hslot, hep, harmed⟩
      simp only [Host.armedOn, hslot, Option.any_some, List.any_cons, List.any_nil, Bool.or_false,
        Bool.or_eq_false_iff, Option.any_eq_false, Bool.and_eq_false_imp, decide_eq_false_iff_not]
      exact ⟨hquiet 0, hquiet 1⟩

theorem Host.Settled.unarmed (h : s.Settled slot dci) {i : Fin 2} {ep : IntEp}
    (hep : s.ArmedAt slot i ep) : ep.dci ≠ dci := armedOn_eq_false.mp h.2 i ep hep

theorem pending_append (slot dci : UInt8) (es fs : List Evt) :
    pending slot dci (es ++ fs) = pending slot dci es ++ pending slot dci fs := by
  simp only [pending, List.filter_append, List.map_append]

theorem queuedOn_append (slot dci : UInt8) (ps qs : List Queued) :
    queuedOn slot dci (ps ++ qs) = queuedOn slot dci ps ++ queuedOn slot dci qs := by
  simp only [queuedOn, List.filter_append, List.map_append]

theorem pumpOne_stashed (slot dci : UInt8) (s : Host) (ev : Evt) :
    (stashed slot dci (s.pumpOne ev).xfer).Subperm (stashed slot dci s.xfer ++
      pending slot dci [ev]) := by
  by_cases hty : ev.ty = trbTransfer
  · have hpend : pending slot dci [ev] = if ev.on slot dci then [ev.id] else [] := by
      cases hon : ev.on slot dci <;> simp [pending, hty, hon]
    have hcmd : ev.ty ≠ trbCmdComp := by
      rw [hty]
      decide
    rw [Host.pumpOne, if_neg hcmd, if_pos hty, hpend]
    exact stashXfer_stashed s.xfer ev
  · have hkeep : (s.pumpOne ev).xfer = s.xfer := by
      simp only [Host.pumpOne, if_neg hty]
      split <;> rfl
    rw [hkeep]
    exact (List.sublist_append_left _ _).subperm

theorem pumpOne_frame (s : Host) (ev : Evt) :
    (s.pumpOne ev).posted = s.posted ∧ (s.pumpOne ev).slots = s.slots ∧
    (s.pumpOne ev).queued = s.queued ∧ (s.pumpOne ev).next = s.next ∧
    (s.pumpOne ev).waiting = s.waiting ∧ (s.pumpOne ev).delivered = s.delivered := by
  simp only [Host.pumpOne]
  split_ifs <;> exact ⟨rfl, rfl, rfl, rfl, rfl, rfl⟩

theorem pumpAll (slot dci : UInt8) (es : List Evt) (s : Host) :
    (stashed slot dci (es.foldl Host.pumpOne s).xfer).Subperm (stashed slot dci s.xfer ++
      pending slot dci es) ∧ (es.foldl Host.pumpOne s).posted = s.posted ∧
      (es.foldl Host.pumpOne s).slots = s.slots ∧ (es.foldl Host.pumpOne s).queued = s.queued ∧
      (es.foldl Host.pumpOne s).next = s.next ∧ (es.foldl Host.pumpOne s).waiting = s.waiting ∧
      (es.foldl Host.pumpOne s).delivered = s.delivered := by
  induction es generalizing s with
  | nil => exact ⟨(List.sublist_append_left _ _).subperm, rfl, rfl, rfl, rfl, rfl, rfl⟩
  | cons ev es ih =>
    obtain ⟨hst, hp, hs, hq, hn, hw, hd⟩ := ih (s.pumpOne ev)
    obtain ⟨hp', hs', hq', hn', hw', hd'⟩ := pumpOne_frame s ev
    refine ⟨?_, hp.trans hp', hs.trans hs', hq.trans hq', hn.trans hn', hw.trans hw', hd.trans hd'⟩
    rw [List.foldl_cons, show ev :: es = [ev] ++ es from rfl, pending_append, ← List.append_assoc]
    exact hst.trans ((List.subperm_append_right _).mpr (pumpOne_stashed slot dci s ev))

structure Pumped (s s' : Host) : Prop where
  late : ∀ slot dci, (s'.late slot dci).Subperm (s.late slot dci)
  posted : s'.posted = []
  slots : s'.slots = s.slots
  next : s'.next = s.next
  waiting : s'.waiting = s.waiting
  delivered : s'.delivered = s.delivered

theorem Host.pumped (s : Host) : Pumped s s.pump := by
  obtain ⟨-, hp, hs, hq, hn, hw, hd⟩ := pumpAll 0 0 s.posted { s with posted := [] }
  refine ⟨fun slot dci => ?_, hp, hs, hn, hw, hd⟩
  obtain ⟨hst, -⟩ := pumpAll slot dci s.posted { s with posted := [] }
  rw [Host.late, Host.late, Host.pump, hp, hq, ← List.append_assoc, ← List.append_assoc]
  refine (List.subperm_append_right _).mpr ?_
  rw [show pending slot dci [] = [] from rfl, List.append_nil]
  exact hst

end Late

/-- Each endpoint has at most one transfer whose completion is still to be taken: the last one
queued on it, which is the one that is waited for, or armed. -/
structure Host.Inv (s : Host) : Prop where
  single : ∀ slot dci, (s.late slot dci).length ≤ 1
  waiting : ∀ x, s.waiting = some x → ∀ i ∈ s.late x.slot x.dci, i = x.id
  armed : ∀ slot i ep, s.ArmedAt slot i ep → ∀ n ∈ s.late slot ep.dci, n = ep.id
  alone : ∀ slot i j ep ep', s.ArmedAt slot i ep → s.ArmedAt slot j ep' → ep.dci = ep'.dci → i = j
  delivered : ∀ d ∈ s.delivered, d.2.id = d.1.id

section Steps

variable {s s' : Host} {slot dci : UInt8}

theorem Host.Inv.init : Host.init.Inv where
  single := by
    intro slot dci
    exact Nat.zero_le _
  waiting := by
    intro x hx
    cases hx
  armed := by
    rintro slot i ep ⟨eps, hslot, -⟩
    cases hslot
  alone := by
    rintro slot i j ep ep' ⟨eps, hslot, -⟩
    cases hslot
  delivered := by
    intro d hd
    cases hd

theorem Host.Inv.shrink (h : s.Inv)
    (hlate : ∀ slot dci, (s'.late slot dci).Subperm (s.late slot dci))
    (hwaiting : s'.waiting = none ∨ s'.waiting = s.waiting)
    (harmed : ∀ slot i ep, s'.ArmedAt slot i ep → s.ArmedAt slot i ep)
    (hdelivered : ∀ d ∈ s'.delivered, d.2.id = d.1.id) : s'.Inv where
  single := fun slot dci => (hlate slot dci).length_le.trans (h.single slot dci)
  waiting := by
    intro x hx i hi
    rcases hwaiting with hnone | hsame
    · cases hx.symm.trans hnone
    · exact h.waiting x (hsame ▸ hx) i ((hlate _ _).subset hi)
  armed :=
    fun slot i ep hep n hn => h.armed slot i ep (harmed slot i ep hep) n ((hlate _ _).subset hn)
  alone := fun slot i j ep ep' hep hep' hdci =>
    h.alone slot i j ep ep' (harmed slot i ep hep) (harmed slot j ep' hep') hdci
  delivered := hdelivered

theorem Pumped.inv (hp : Pumped s s') (h : s.Inv) : s'.Inv := by
  refine h.shrink hp.late (.inr hp.waiting) ?_ ?_
  · intro slot i ep hep
    rwa [Host.ArmedAt, hp.slots] at hep
  · rw [hp.delivered]
    exact h.delivered

theorem late_take (s' : Host) {ev : Evt} {rest : List (Option Evt)}
    (h : takeXfer slot dci s.xfer = some (ev, rest)) (hrest : s'.xfer = rest)
    (hposted : s'.posted = s.posted) (hqueued : s'.queued = s.queued) :
    (∀ sl d, (s'.late sl d).Subperm (s.late sl d)) ∧ ev.id ∈ s.late slot dci ∧
      (s'.late slot dci).length < (s.late slot dci).length := by
  have htake :
      ∀ sl d, (s.late sl d).Perm ((if ev.on sl d then [ev.id] else []) ++ s'.late sl d) := by
    intro sl d
    have htaken := (takeXfer_stashed (s := sl) (d := d) h).2.append_right
      (pending sl d s.posted ++ queuedOn sl d s.queued)
    rw [List.append_assoc] at htaken
    rw [Host.late, Host.late, hrest, hposted, hqueued]
    exact htaken
  have hon : ev.on slot dci = true := (takeXfer_stashed (s := 0) (d := 0) h).1
  have hown := htake slot dci
  rw [if_pos hon] at hown
  refine ⟨fun sl d => ?_, ?_, ?_⟩
  · exact (List.sublist_append_right _ _).subperm.trans (htake sl d).symm.subperm
  · exact hown.mem_iff.mpr (by simp)
  · rw [hown.length_eq]
    simp

theorem late_enqueue (slot dci sl d : UInt8) (s : Host) : (s.enqueue slot dci).late sl d =
    s.late sl d ++ if sl = slot ∧ d = dci then [s.next] else [] := by
  have hnew : queuedOn sl d [⟨slot, dci, s.next⟩] = if sl = slot ∧ d = dci then [s.next]
      else [] := by
    by_cases heq : sl = slot ∧ d = dci
    · simp [queuedOn, Queued.on, heq]
    · rw [if_neg heq]
      simp only [queuedOn, Queued.on, List.map_eq_nil_iff, List.filter_eq_nil_iff,
        List.mem_singleton, forall_eq, Bool.and_eq_true, decide_eq_true_eq]
      exact fun hon => heq ⟨hon.1.symm, hon.2.symm⟩
  simp only [Host.late, Host.enqueue, queuedOn_append, hnew, List.append_assoc]

theorem enqueue_single (h : s.Inv) (hsettled : s.late slot dci = []) (sl d : UInt8) :
    ((s.enqueue slot dci).late sl d).length ≤ 1 := by
  rw [late_enqueue]
  split
  · rename_i heq
    rw [heq.1, heq.2, hsettled]
    exact le_rfl
  · rw [List.append_nil]
    exact h.single sl d

theorem Host.Inv.request (h : s.Inv) (hsettled : s.Settled slot dci) :
    Host.Inv { s.enqueue slot dci with waiting := some ⟨slot, dci, s.next⟩ } where
  single := enqueue_single h hsettled.1
  waiting := by
    intro x hx i hi
    obtain rfl := Option.some.inj hx
    change i ∈ (s.enqueue slot dci).late slot dci at hi
    rw [late_enqueue, hsettled.1, if_pos ⟨rfl, rfl⟩] at hi
    exact List.mem_singleton.mp hi
  armed := by
    intro sl i ep hep n hn
    change n ∈ (s.enqueue slot dci).late sl ep.dci at hn
    have hne : ¬ (sl = slot ∧ ep.dci = dci) := by
      rintro ⟨rfl, hdci⟩
      exact hsettled.unarmed hep hdci
    rw [late_enqueue, if_neg hne, List.append_nil] at hn
    exact h.armed sl i ep hep n hn
  alone := h.alone
  delivered := h.delivered

theorem armedAt_setEp {eps : IntEps} {i j : Fin 2} {ep ep' : IntEp} {sl : UInt8}
    (hslot : s.slots slot = some eps) (h : (s.setEp slot eps i ep).ArmedAt sl j ep') :
    (sl = slot ∧ j = i ∧ ep' = ep ∧ ep.armed = true) ∨
    ((sl = slot → j ≠ i) ∧ s.ArmedAt sl j ep') := by
  obtain ⟨eps', heps, hep, harmed⟩ := h
  simp only [Host.setEp] at heps
  by_cases hsl : sl = slot
  · subst hsl
    rw [Function.update_self] at heps
    obtain rfl := Option.some.inj heps
    by_cases hj : j = i
    · subst hj
      rw [Function.update_self] at hep
      obtain rfl := Option.some.inj hep
      exact .inl ⟨rfl, rfl, rfl, harmed⟩
    · rw [Function.update_of_ne hj] at hep
      exact .inr ⟨fun _ => hj, eps, hslot, hep, harmed⟩
  · rw [Function.update_of_ne hsl] at heps
    exact .inr ⟨fun heq => absurd heq hsl, eps', heps, hep, harmed⟩

theorem Host.Inv.arm {eps : IntEps} {i : Fin 2} {ep : IntEp} (h : s.Inv) (hidle : s.waiting = none)
    (hslot : s.slots slot = some eps) (hep : eps i = some ep) (hsettled : s.Settled slot ep.dci) :
    (s.armInt slot i).Inv := by
  have harm : s.armInt slot i =
      (s.enqueue slot ep.dci).setEp slot eps i { ep with armed := true, id := s.next } := by
    simp only [Host.armInt, hslot, hep]
  rw [harm]
  have hold : ∀ {sl j e}, s.ArmedAt sl j e → ¬ (sl = slot ∧ e.dci = ep.dci) := by
    rintro sl j e he ⟨rfl, hdci⟩
    exact hsettled.unarmed he hdci
  refine ⟨enqueue_single h hsettled.1, ?_, ?_, ?_, h.delivered⟩
  · intro x hx
    cases hidle.symm.trans hx
  · intro sl j e he n hn
    change n ∈ (s.enqueue slot ep.dci).late sl e.dci at hn
    rw [late_enqueue] at hn
    rcases armedAt_setEp hslot he with ⟨rfl, rfl, rfl, -⟩ | ⟨-, hbefore⟩
    · rw [hsettled.1, if_pos ⟨rfl, rfl⟩] at hn
      exact List.mem_singleton.mp hn
    · rw [if_neg (hold hbefore), List.append_nil] at hn
      exact h.armed sl j e hbefore n hn
  · intro sl j k e e' he he' hdci
    rcases armedAt_setEp hslot he with ⟨rfl, rfl, rfl, -⟩ | ⟨-, hbefore⟩
    · rcases armedAt_setEp hslot he' with ⟨-, rfl, -, -⟩ | ⟨-, hbefore'⟩
      · rfl
      · exact absurd ⟨rfl, hdci.symm⟩ (hold hbefore')
    · rcases armedAt_setEp hslot he' with ⟨rfl, rfl, rfl, -⟩ | ⟨-, hbefore'⟩
      · exact absurd ⟨rfl, hdci⟩ (hold hbefore)
      · exact h.alone sl j k e e' hbefore hbefore' hdci

theorem position_some {eps : IntEps} {i : Fin 2} {ep : IntEp}
    (h : position eps dci = some (i, ep)) : eps i = some ep ∧ ep.dci = dci := by
  simp only [position] at h
  cases h0 : (eps 0).filter fun ep => ep.dci = dci with
  | some e =>
    rw [h0] at h
    obtain ⟨rfl, rfl⟩ := Prod.mk.inj (Option.some.inj h)
    simpa using Option.filter_eq_some_iff.mp h0
  | none =>
    rw [h0] at h
    obtain ⟨e, he, heq⟩ := Option.map_eq_some_iff.mp h
    obtain ⟨rfl, rfl⟩ := Prod.mk.inj heq
    simpa using Option.filter_eq_some_iff.mp he

theorem Pumped.settled (hp : Pumped s s') (h : s.Settled slot dci) : s'.Settled slot dci := by
  refine ⟨List.subperm_nil.mp (h.1 ▸ hp.late slot dci), ?_⟩
  rw [Host.armedOn, hp.slots]
  exact h.2

theorem Host.Inv.taken {eps : IntEps} {i : Fin 2} {ep : IntEp} {ev : Evt} {rest : List (Option Evt)}
    (h : s.Inv) (hidle : s.waiting = none) (hslot : s.slots slot = some eps) (hep : eps i = some ep)
    (hdci : ep.dci = dci) (harmed : ep.armed = true)
    (htake : takeXfer slot dci s.xfer = some (ev, rest)) :
    Host.Inv (((s.deliver ⟨slot, dci, ep.id⟩ ev rest).setEp slot eps i { ep with
      armed := false }).armInt slot i) := by
  subst hdci
  obtain ⟨hlate, hmem, hless⟩ := late_take
    ((s.deliver ⟨slot, ep.dci, ep.id⟩ ev rest).setEp slot eps i { ep with armed := false })
      htake rfl rfl rfl
  have hhere : s.ArmedAt slot i ep := ⟨eps, hslot, hep, harmed⟩
  have hbefore : ∀ {sl j e}, Host.ArmedAt
      ((s.deliver ⟨slot, ep.dci, ep.id⟩ ev rest).setEp slot eps i { ep with
        armed := false }) sl j e → (sl = slot → j ≠ i) ∧ s.ArmedAt sl j e := by
    intro sl j e he
    rcases armedAt_setEp hslot he with ⟨-, -, -, hoff⟩ | hkept
    · cases hoff
    · exact hkept
  have hinv :
      Host.Inv ((s.deliver ⟨slot, ep.dci, ep.id⟩ ev rest).setEp slot eps i { ep with
        armed := false }) := by
    refine h.shrink hlate (.inr rfl) (fun sl j e he => (hbefore he).2) ?_
    intro d hd
    rcases List.mem_append.mp hd with hd | hd
    · exact h.delivered d hd
    · rw [List.mem_singleton.mp hd]
      exact h.armed slot i ep hhere ev.id hmem
  refine hinv.arm hidle (Function.update_self ..) (Function.update_self ..) ⟨?_,
    armedOn_eq_false.mpr ?_⟩
  · have hone := h.single slot ep.dci
    exact List.eq_nil_of_length_eq_zero (Nat.lt_one_iff.mp (hless.trans_le hone))
  · intro j e he hsame
    obtain ⟨hne, hkept⟩ := hbefore he
    exact hne rfl (h.alone slot j i e ep hkept hhere hsame)

theorem Host.Inv.poll (h : s.Inv) (hidle : s.waiting = none)
    (hfresh : ∀ r ∈ (s.slots slot).bind fun eps => position eps dci, r.2.armed = true ∨
      s.Settled slot dci) : (s.interruptPoll slot dci).Inv := by
  have hp := s.pumped
  have hinv := hp.inv h
  have hidle' : s.pump.waiting = none := hp.waiting.trans hidle
  simp only [Host.interruptPoll]
  split
  · exact hinv
  · rename_i eps hslot
    split
    · exact hinv
    · rename_i i ep hpos
      obtain ⟨hep, hdci⟩ := position_some hpos
      split
      · rename_i harmed
        split
        · exact hinv
        · rename_i ev rest htake
          exact hinv.taken hidle' hslot hep hdci harmed htake
      · rename_i hoff
        have hfound : (i, ep) ∈ (s.slots slot).bind fun eps => position eps dci :=
          Option.bind_eq_some_iff.mpr ⟨eps, hp.slots ▸ hslot, hpos⟩
        have hsettled := (hfresh _ hfound).resolve_left hoff
        exact hinv.arm hidle' hslot hep (hdci ▸ hp.settled hsettled)

theorem Host.Inv.spin {x : Queued} (h : s.Inv) (hwait : s.waiting = some x) :
    (s.waitSpin x).Inv := by
  have hp := s.pumped
  have hinv := hp.inv h
  simp only [Host.waitSpin]
  split
  · exact hinv
  · rename_i ev rest htake
    obtain ⟨hlate, hmem, -⟩ :=
      late_take { s.pump.deliver x ev rest with waiting := none } htake rfl rfl rfl
    refine hinv.shrink hlate (.inl rfl) (fun _ _ _ he => he) ?_
    intro d hd
    rcases List.mem_append.mp hd with hd | hd
    · exact hinv.delivered d hd
    · rw [List.mem_singleton.mp hd]
      exact hinv.waiting x (hp.waiting.trans hwait) ev.id hmem

theorem queuedOn_cons (sl d : UInt8) (x : Queued) (xs : List Queued) :
    queuedOn sl d (x :: xs) = (if x.on sl d then [x.id] else []) ++ queuedOn sl d xs := by
  cases hon : x.on sl d <;> simp [queuedOn, hon]

theorem queuedOn_eraseP {qs : List Queued} {q : Queued}
    (hq : qs.find? (Queued.on slot dci) = some q) (sl d : UInt8) :
    queuedOn sl d qs =
      (if sl = slot ∧ d = dci then [q.id] else []) ++
        queuedOn sl d (qs.eraseP (Queued.on slot dci)) := by
  induction qs with
  | nil => cases hq
  | cons x xs ih =>
    by_cases hon : x.on slot dci = true
    · rw [List.find?_cons_of_pos hon] at hq
      obtain rfl := Option.some.inj hq
      have hsame : x.on sl d = true ↔ sl = slot ∧ d = dci := by
        simp only [Queued.on, Bool.and_eq_true, decide_eq_true_eq] at hon ⊢
        rw [hon.1, hon.2]
        exact and_congr eq_comm eq_comm
      simp only [List.eraseP_cons_of_pos hon, queuedOn_cons, hsame]
    · rw [List.find?_cons_of_neg hon] at hq
      rw [List.eraseP_cons_of_neg hon, queuedOn_cons, queuedOn_cons, ih hq]
      by_cases heq : sl = slot ∧ d = dci
      · rw [heq.1, heq.2, if_neg hon]
        rfl
      · rw [if_neg heq]
        rfl

theorem late_complete {q : Queued} (code : UInt8) (remain : UInt32)
    (hq : s.queued.find? (Queued.on slot dci) = some q) (sl d : UInt8) :
    Host.late { s with
      queued := s.queued.eraseP (Queued.on slot dci)
      posted :=
        s.posted ++ [⟨trbTransfer, code, slot, dci, remain, q.id⟩] } sl d = s.late sl d := by
  have hpend : pending sl d [⟨trbTransfer, code, slot, dci, remain, q.id⟩] =
      if sl = slot ∧ d = dci then [q.id] else [] := by
    by_cases heq : sl = slot ∧ d = dci
    · simp [pending, Evt.on, heq]
    · rw [if_neg heq]
      simp only [pending, Evt.on, List.map_eq_nil_iff, List.filter_eq_nil_iff,
        List.mem_singleton, forall_eq, Bool.and_eq_true, decide_eq_true_eq]
      exact fun hon => heq ⟨hon.2.1.symm, hon.2.2.symm⟩
  rw [Host.late, Host.late, queuedOn_eraseP hq sl d, pending_append, hpend, List.append_assoc]

theorem Host.Inv.reslot {new : Option IntEps} (h : s.Inv) (slot : UInt8)
    (hnew : ∀ eps' j ep, new = some eps' → eps' j = some ep → ep.armed = true →
      ∃ eps, s.slots slot = some eps ∧ eps j = some ep) :
    Host.Inv { s with slots := Function.update s.slots slot new } := by
  refine h.shrink (fun _ _ => .refl _) (.inr rfl) ?_ h.delivered
  rintro sl j ep ⟨eps', heps, hep, harmed⟩
  change Function.update s.slots slot new sl = some eps' at heps
  by_cases hsl : sl = slot
  · subst hsl
    rw [Function.update_self] at heps
    obtain ⟨eps, hslot, hold⟩ := hnew eps' j ep heps hep harmed
    exact ⟨eps, hslot, hold, harmed⟩
  · rw [Function.update_of_ne hsl] at heps
    exact ⟨eps', heps, hep, harmed⟩

theorem update_unarmed {eps : IntEps} {i j : Fin 2} {ep : IntEp}
    (h : Function.update eps i (some (unarmed dci)) j = some ep) (harmed : ep.armed = true) :
    eps j = some ep := by
  by_cases hj : j = i
  · subst hj
    rw [Function.update_self] at h
    obtain rfl := Option.some.inj h
    cases harmed
  · rwa [Function.update_of_ne hj] at h

theorem Host.Inv.driver {a : HostAct} (h : s.Inv) (hidle : s.waiting = none)
    (hfresh : Fresh ⟨s, a, s'⟩) (hstep : s.driver a = some s') : s'.Inv := by
  cases a with
  | request slot dci =>
    simp only [Host.driver] at hstep
    split at hstep
    · cases hstep
    · obtain rfl := Option.some.inj hstep
      exact h.request hfresh
  | poll slot dci =>
    obtain rfl := Option.some.inj hstep
    exact h.poll hidle hfresh
  | drain =>
    obtain rfl := Option.some.inj hstep
    exact s.pumped.inv h
  | waitCmd =>
    obtain rfl := Option.some.inj hstep
    exact (s.pumped.inv h).shrink (fun _ _ => .refl _) (.inr rfl) (fun _ _ _ he => he)
      (s.pumped.inv h).delivered
  | enable slot =>
    obtain rfl := Option.some.inj hstep
    refine h.reslot slot ?_
    intro eps' j ep heps hep _
    obtain rfl := Option.some.inj heps
    cases hep
  | disable slot =>
    obtain rfl := Option.some.inj hstep
    refine h.reslot slot ?_
    intro eps' j ep heps _ _
    cases heps
  | configure slot dci second =>
    simp only [Host.driver] at hstep
    split at hstep
    · cases hstep
    · rename_i eps hslot
      obtain rfl := Option.some.inj hstep
      refine h.reslot slot ?_
      intro eps' j ep heps hep harmed
      obtain rfl := Option.some.inj heps
      refine ⟨eps, hslot, ?_⟩
      cases second with
      | none => exact update_unarmed hep harmed
      | some d => exact update_unarmed (update_unarmed hep harmed) harmed
  | complete slot dci code remain => cases hstep
  | other ev => cases hstep
  | spin => cases hstep
  | expire => cases hstep

theorem Host.Inv.step {a : HostAct} (h : s.Inv) (hfresh : Fresh ⟨s, a, s'⟩)
    (hstep : s.step a = some s') : s'.Inv := by
  have hdriver : ∀ b, (if s.waiting = none then s.driver b else none) = some s' → Fresh ⟨s, b, s'⟩ →
      s'.Inv := by
    intro b hb hfb
    split at hb
    · rename_i hidle
      exact h.driver hidle hfb hb
    · cases hb
  cases a with
  | complete slot dci code remain =>
    simp only [Host.step] at hstep
    split at hstep
    · cases hstep
    · rename_i q hq
      obtain rfl := Option.some.inj hstep
      refine h.shrink (fun sl d => ?_) (.inr rfl) (fun _ _ _ he => he) h.delivered
      rw [late_complete code remain hq]
  | other ev =>
    simp only [Host.step] at hstep
    split at hstep
    · cases hstep
    · rename_i hty
      obtain rfl := Option.some.inj hstep
      refine h.shrink (fun sl d => ?_) (.inr rfl) (fun _ _ _ he => he) h.delivered
      have hpend : pending sl d [ev] = [] := by simp [pending, hty]
      rw [Host.late, Host.late, pending_append, hpend, List.append_nil]
  | spin =>
    obtain ⟨x, hwait, rfl⟩ := Option.map_eq_some_iff.mp hstep
    exact h.spin hwait
  | expire =>
    obtain ⟨x, hwait, rfl⟩ := Option.map_eq_some_iff.mp hstep
    exact h.shrink (fun _ _ => .refl _) (.inl rfl) (fun _ _ _ he => he) h.delivered
  | request slot dci => exact hdriver _ hstep hfresh
  | poll slot dci => exact hdriver _ hstep hfresh
  | drain => exact hdriver _ hstep hfresh
  | waitCmd => exact hdriver _ hstep hfresh
  | enable slot => exact hdriver _ hstep hfresh
  | disable slot => exact hdriver _ hstep hfresh
  | configure slot dci second => exact hdriver _ hstep hfresh

end Steps

/-- In a run that never queues a transfer behind one that is not settled, each event goes to
the request that it completes. -/
theorem completions_match {ts : List (Trans Host HostAct)} {s : Host}
    (h : Path Host.step Host.init ts s) (hfresh : ∀ t ∈ ts, Fresh t) :
    ∀ d ∈ s.delivered, d.2.id = d.1.id :=
  (h.invariant (I := Host.Inv) (C := Fresh) Host.Inv.init (fun _ hstep hinv hf =>
    hinv.step hf hstep) hfresh).delivered

theorem completions_match_keyboard : ∃ ts s, Path Host.step Host.init ts s ∧
    s.delivered.map (fun d => (d.1.dci, d.2.id)) = [(1, 0), (3, 1)] ∧ ∀ d ∈ s.delivered, d.2.id =
      d.1.id := by
  obtain ⟨r, hpath, hr⟩ := exists_path_of_replay Host.step Host.init
    [.enable 1, .request 1 1, .complete 1 1 1 0, .spin, .configure 1 3 none, .poll 1 3,
      .complete 1 3 1 0, .poll 1 3] (fun r => r.1.all (fun t => Fresh t) &&
        r.2.delivered.map (fun d => (d.1.dci, d.2.id)) = [(1, 0), (3, 1)]) rfl
  simp only [Bool.and_eq_true, List.all_eq_true, decide_eq_true_eq] at hr
  exact ⟨r.1, r.2, hpath, hr.2, completions_match hpath hr.1⟩

/-- A wait ends, the next request on the endpoint is queued, and the late completion of the first
is taken for that of the second. -/
theorem late_completion :
    ¬ ∀ ts s, Path Host.step Host.init ts s → ∀ d ∈ s.delivered, d.2.id = d.1.id := by
  intro hall
  obtain ⟨r, hpath, hr⟩ := exists_path_of_replay Host.step Host.init
    [.enable 1, .request 1 4, .expire, .request 1 4, .complete 1 4 1 0, .spin]
    (fun r => r.2.delivered.any fun d => d.2.id ≠ d.1.id) rfl
  obtain ⟨d, hd, hne⟩ := List.any_eq_true.mp hr
  exact of_decide_eq_true hne (hall r.1 r.2 hpath d hd)

end CoeleoOs.Bus
