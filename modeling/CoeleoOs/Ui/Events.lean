import CoeleoOs.Lib.Machine
import CoeleoOs.Lib.Mailbox
import CoeleoOs.Lib.Ring
import CoeleoOs.Task.System
import CoeleoOs.Ui.Win
import Mathlib.Data.List.GetD

/-!
# The input queue of the clients

The queue of `win.rs` as it lies in memory: eight cells between `qtail` and `qhead`, shared by
all processes. Pushes store at `qhead`; a move may overwrite the newest cell; taking and purging
copy what stays to the cells from index 0 on.
-/

namespace CoeleoOs.Ui
open CoeleoOs.Lib CoeleoOs.Lib.Machine CoeleoOs.Task

abbrev kindMove : UInt32 := 1
abbrev kindDown : UInt32 := 2
abbrev kindKey : UInt32 := 3

structure RawWin where
  slots : Fin maxSurfaces → Option Surface
  q : Fin inCap → Queued
  qhead : Fin inCap
  qtail : Fin inCap

def noEvent : Queued := ⟨0, ⟨0, 0, 0, 0⟩⟩

namespace RawWin

def init : RawWin := ⟨fun _ => none, fun _ => noEvent, 0, 0⟩

def pushEv (w : RawWin) (pid : ℕ) (ev : InputEv) : RawWin :=
  let next := w.qhead + 1
  if next = w.qtail then w
  else { w with q := Function.update w.q w.qhead ⟨pid, ev⟩, qhead := next }

def pidOf (w : RawWin) (id : ℕ) : Option ℕ :=
  (Table.position fun i => (w.slots i).any fun s => s.id = id).bind fun i =>
    (w.slots i).map Surface.pid

def pushClientDown (w : RawWin) (id : ℕ) (lx ly : UInt32) : RawWin :=
  match w.pidOf id with
  | none => w
  | some pid => w.pushEv pid ⟨kindDown, lx, ly, 0⟩

def pushClientMove (w : RawWin) (id : ℕ) (lx ly : UInt32) : RawWin :=
  match w.pidOf id with
  | none => w
  | some pid =>
    let last := w.qhead + 7
    if w.qhead ≠ w.qtail ∧ (w.q last).pid = pid ∧ (w.q last).ev.kind = kindMove then
      { w with q := Function.update w.q last { w.q last with ev := { (w.q last).ev with
        x := lx, y := ly } } }
    else w.pushEv pid ⟨kindMove, lx, ly, 0⟩

def pushClientKey (w : RawWin) (id : ℕ) (key : UInt8) : RawWin :=
  match w.pidOf id with
  | none => w
  | some pid => w.pushEv pid ⟨kindKey, 0, 0, key.toUInt32⟩

def scan {β : Type} (q : Fin inCap → Queued) (h : Fin inCap) (f : β → Queued → β) :
    ℕ → Fin inCap → β → β
  | 0, _, acc => acc
  | n + 1, t, acc => if t = h then acc else scan q h f n (t + 1) (f acc (q t))

/-- What `take_for_pid` has copied out, how much that is, and what it keeps. -/
structure Taken where
  out : Bytes
  copied : ℕ
  keep : List Queued

def take (pid nfit : ℕ) (a : Taken) (x : Queued) : Taken :=
  if x.pid = pid ∧ a.copied < nfit
    then { a with out := a.out ++ evBytes x.ev, copied := a.copied + 1 }
  else { a with keep := a.keep ++ [x] }

def retain (pred : Queued → Bool) (keep : List Queued) (x : Queued) : List Queued :=
  if pred x then keep ++ [x] else keep

def compact (w : RawWin) (keep : List Queued) (h : keep.length < inCap) : RawWin :=
  { w with
    q := fun i => keep.getD i.val (w.q i)
    qtail := 0
    qhead := ⟨keep.length, h⟩ }

/-- The events between `qtail` and `qhead`, oldest first. -/
def events (w : RawWin) : List Queued := Ring.contents w.q w.qtail.val (w.qhead - w.qtail).val

theorem length_events (w : RawWin) : w.events.length < inCap := by
  rw [events, Ring.contents_length]
  exact (w.qhead - w.qtail).isLt

theorem step_index (h t : Fin inCap) (hne : t ≠ h) : (h - t).val = (h - (t + 1)).val + 1 := by
  revert h t
  decide

theorem full_index (h t : Fin inCap) : h + 1 = t ↔ (h - t).val = 7 := by
  revert h t
  decide

theorem push_index (h t : Fin inCap) (hne : h + 1 ≠ t) :
    (h + 1 - t).val = (h - t).val + 1 ∧ (h - t).val < 7 := by
  revert h t
  decide

theorem cell_head (h t : Fin inCap) : Ring.cell inCap (t.val + (h - t).val) = h := by
  revert h t
  decide

theorem contents_cons (q : Fin inCap → Queued) (t : Fin inCap) (n : ℕ) :
    Ring.contents q t.val (n + 1) = q t :: Ring.contents q (t + 1).val n := by
  have hcell : Ring.cell inCap t.val = t := Fin.ext (Nat.mod_eq_of_lt t.isLt)
  have hnext : (t + 1).val = (t.val + 1) % inCap := by
    revert t
    decide
  rw [Nat.add_comm n 1, Ring.contents_add, hnext, Ring.contents_mod]
  simp [Ring.contents, hcell]

theorem scan_eq {β : Type} {q : Fin inCap → Queued} {h : Fin inCap} {f : β → Queued → β} {fuel : ℕ}
    {t : Fin inCap} {acc : β} (hfuel : (h - t).val ≤ fuel) :
    scan q h f fuel t acc = (Ring.contents q t.val (h - t).val).foldl f acc := by
  induction fuel generalizing t acc with
  | zero =>
    rw [Nat.le_zero.mp hfuel]
    rfl
  | succ n ih =>
    rw [scan]
    split
    · next heq =>
      rw [heq, Fin.sub_self]
      rfl
    · next hne =>
      have hstep := step_index h t hne
      rw [ih (by omega), hstep, contents_cons, List.foldl_cons]

theorem foldl_take_keep {pid nfit : ℕ} (xs : List Queued) (a : Taken) :
    (xs.foldl (take pid nfit) a).keep.length ≤ a.keep.length + xs.length := by
  induction xs generalizing a with
  | nil => exact Nat.le_refl _
  | cons x xs ih =>
    refine (ih _).trans ?_
    rw [take, List.length_cons]
    split
    · exact Nat.add_le_add_left (Nat.le_succ _) _
    · rw [List.length_append, List.length_singleton]
      omega

theorem foldl_retain {pred : Queued → Bool} (xs keep : List Queued) :
    xs.foldl (retain pred) keep = keep ++ xs.filter pred := by
  induction xs generalizing keep with
  | nil => simp
  | cons x xs ih =>
    rw [List.foldl_cons, ih, retain, List.filter_cons]
    split <;> simp

def takeScan (w : RawWin) (pid nfit : ℕ) : Taken :=
  scan w.q w.qhead (take pid nfit) inCap w.qtail ⟨[], 0, []⟩

theorem takeScan_eq (w : RawWin) (pid nfit : ℕ) :
    w.takeScan pid nfit = w.events.foldl (take pid nfit) ⟨[], 0, []⟩ :=
  scan_eq (Nat.le_of_lt (w.qhead - w.qtail).isLt)

theorem takeScan_keep (w : RawWin) (pid nfit : ℕ) : (w.takeScan pid nfit).keep.length < inCap := by
  rw [takeScan_eq]
  refine (foldl_take_keep _ _).trans_lt ?_
  rw [List.length_nil, Nat.zero_add]
  exact w.length_events

def takeForPid (w : RawWin) (pid nfit : ℕ) : Bytes × RawWin :=
  ((w.takeScan pid nfit).out, w.compact (w.takeScan pid nfit).keep (w.takeScan_keep pid nfit))

def retainScan (w : RawWin) (pred : Queued → Bool) : List Queued :=
  scan w.q w.qhead (retain pred) inCap w.qtail []

theorem retainScan_eq (w : RawWin) (pred : Queued → Bool) :
    w.retainScan pred = w.events.filter pred := by
  rw [retainScan, scan_eq (Nat.le_of_lt (w.qhead - w.qtail).isLt), foldl_retain]
  rfl

theorem retainScan_length (w : RawWin) (pred : Queued → Bool) :
    (w.retainScan pred).length < inCap := by
  rw [retainScan_eq]
  exact (List.length_filter_le _ _).trans_lt w.length_events

def retainQ (w : RawWin) (pred : Queued → Bool) : RawWin :=
  w.compact (w.retainScan pred) (w.retainScan_length pred)

def dropPid (w : RawWin) (pid : ℕ) : RawWin :=
  { w with slots := fun i => (w.slots i).filter fun s => s.pid ≠ pid }.retainQ fun x => x.pid ≠ pid

def sysPollInput (pid : Option ℕ) (buf len : ℕ) : KernM RawWin ℕ := do
  let some pid := pid | return 0
  if len < evSize then return 0
  let nfit := min (len / evSize) inCap
  unless ← userSliceOk buf (nfit * evSize) do return err
  let g ← Eff.get
  let (tmp, g) := g.takeForPid pid nfit
  Eff.set g
  if tmp.length = 0 then return 0
  let some _ ← copyToUser buf tmp | return err
  return tmp.length

section Contents

variable (w : RawWin)

theorem sub_zero_val (h : Fin inCap) : (h - 0).val = h.val := by
  revert h
  decide

theorem events_compact (keep : List Queued) (h : keep.length < inCap) :
    (w.compact keep h).events = keep := by
  have hlen : ((w.compact keep h).qhead - (w.compact keep h).qtail).val = keep.length := by
    change ((⟨keep.length, h⟩ : Fin inCap) - 0).val = keep.length
    rw [sub_zero_val]
  rw [events, hlen]
  refine List.ext_getElem (Ring.contents_length _ _ _) fun i hi hi' => ?_
  have hcell : (Ring.cell inCap (0 + i)).val = i := by
    rw [Nat.zero_add]
    exact Nat.mod_eq_of_lt (hi'.trans h)
  simp only [Ring.contents, List.getElem_map, List.getElem_range]
  change keep.getD (Ring.cell inCap (0 + i)).val _ = keep[i]
  rw [hcell, List.getD_eq_getElem _ _ hi']

theorem events_pushEv (pid : ℕ) (ev : InputEv) :
    (w.pushEv pid ev).events = Mailbox.post (inCap - 1) w.events ⟨pid, ev⟩ := by
  rw [pushEv, Mailbox.post]
  have hlen : w.events.length = (w.qhead - w.qtail).val := Ring.contents_length _ _ _
  by_cases h : w.qhead + 1 = w.qtail
  · rw [if_pos h, if_neg]
    rw [hlen, (full_index _ _).mp h]
    decide
  · obtain ⟨hnext, hroom⟩ := push_index _ _ h
    rw [if_neg h, if_pos (hlen ▸ hroom)]
    rw [events, events]
    dsimp only
    rw [hnext]
    have hstore :=
      Ring.contents_store w.q w.qtail.val (w.qhead - w.qtail).val [⟨pid, ev⟩]
        (Nat.succ_le_of_lt (Nat.lt_succ_of_lt hroom))
    rw [Ring.store, Ring.store, cell_head] at hstore
    exact hstore

theorem events_eq_nil (h : w.qhead = w.qtail) : w.events = [] := by
  rw [events, h, Fin.sub_self]
  rfl

theorem last_index (h t : Fin inCap) (hne : h ≠ t) :
    (h - t).val = (h - t).val - 1 + 1 ∧ Ring.cell inCap (t.val + ((h - t).val - 1)) = h + 7 := by
  revert h t
  decide

theorem events_concat (h : w.qhead ≠ w.qtail) :
    w.events = Ring.contents w.q w.qtail.val ((w.qhead - w.qtail).val - 1) ++
      [w.q (w.qhead + 7)] := by
  obtain ⟨hlen, hcell⟩ := last_index _ _ h
  rw [events, hlen, Ring.contents_add, Nat.add_sub_cancel]
  simp [Ring.contents, hcell]

theorem events_update_last (h : w.qhead ≠ w.qtail) (x : Queued) :
    { w with q := Function.update w.q (w.qhead + 7) x }.events =
      Ring.contents w.q w.qtail.val ((w.qhead - w.qtail).val - 1) ++ [x] := by
  obtain ⟨hlen, hcell⟩ := last_index _ _ h
  have hlt := (w.qhead - w.qtail).isLt
  have hstore := Ring.contents_store w.q w.qtail.val ((w.qhead - w.qtail).val - 1) [x] (by
    rw [List.length_singleton, ← hlen]
    exact hlt.le)
  rw [Ring.store, Ring.store, hcell, List.length_singleton, ← hlen] at hstore
  exact hstore

end Contents

def moveTo (pid : ℕ) (lx ly : UInt32) (x : Queued) : Option Queued :=
  if x.pid = pid ∧ x.ev.kind = kindMove then some { x with ev := { x.ev with x := lx, y := ly } }
    else none

theorem moveTo_pid (pid : ℕ) (lx ly : UInt32) (x y : Queued) (h : moveTo pid lx ly x = some y) :
    y.pid = x.pid := by
  rw [moveTo] at h
  split at h <;> cases h
  rfl

theorem events_pushClientMove (w : RawWin) {id pid : ℕ} (hid : w.pidOf id = some pid)
    (lx ly : UInt32) :
    (w.pushClientMove id lx ly).events = (Mailbox.amend (moveTo pid lx ly) w.events).getD
      (Mailbox.post (inCap - 1) w.events ⟨pid, ⟨kindMove, lx, ly, 0⟩⟩) := by
  rw [pushClientMove, hid]
  dsimp only
  by_cases hempty : w.qhead = w.qtail
  · rw [if_neg (fun h => h.1 hempty), events_pushEv, events_eq_nil w hempty]
    rfl
  rw [Mailbox.amend, events_concat w hempty, List.getLast?_concat, List.dropLast_concat,
    Option.bind_some, moveTo]
  by_cases hsame : (w.q (w.qhead + 7)).pid = pid ∧ (w.q (w.qhead + 7)).ev.kind = kindMove
  · rw [if_pos ⟨hempty, hsame⟩, if_pos hsame, events_update_last w hempty]
    rfl
  · rw [if_neg (fun h => hsame h.2), if_neg hsame, events_pushEv, ← events_concat w hempty]
    rfl

section Take

theorem foldl_take {pid nfit : ℕ} (xs : List Queued) (a : Taken) :
    (xs.foldl (take pid nfit) a).out = a.out ++ (takeLoop pid nfit a.copied xs).1 ∧
      (xs.foldl (take pid nfit) a).keep = a.keep ++ (takeLoop pid nfit a.copied xs).2 := by
  induction xs generalizing a with
  | nil => exact ⟨(List.append_nil _).symm, (List.append_nil _).symm⟩
  | cons x xs ih =>
    rw [List.foldl_cons, (ih _).1, (ih _).2, takeLoop, take]
    split <;> simp

theorem takeLoop_collect (pid nfit copied : ℕ) (xs : List Queued) :
    takeLoop pid nfit copied xs =
      ((Mailbox.collect Queued.pid pid (nfit - copied) xs).1.flatMap fun x => evBytes x.ev,
        (Mailbox.collect Queued.pid pid (nfit - copied) xs).2) := by
  induction xs generalizing copied with
  | nil => rfl
  | cons x xs ih =>
    have hlt : copied < nfit ↔ 0 < nfit - copied := by omega
    rw [takeLoop, Mailbox.collect]
    by_cases h : x.pid = pid ∧ copied < nfit
    · rw [if_pos h, if_pos (by rwa [← hlt]), ih, Nat.sub_add_eq]
      rfl
    · rw [if_neg h, if_neg (by rwa [← hlt]), ih]

variable (w : RawWin) (pid nfit : ℕ)

theorem takeForPid_out :
    (w.takeForPid pid nfit).1 = (Mailbox.collect Queued.pid pid nfit w.events).1.flatMap fun x =>
      evBytes x.ev := by
  change (w.takeScan pid nfit).out = _
  rw [takeScan_eq, (foldl_take _ _).1, takeLoop_collect]
  rfl

theorem events_takeForPid :
    (w.takeForPid pid nfit).2.events = (Mailbox.collect Queued.pid pid nfit w.events).2 := by
  rw [takeForPid, events_compact, takeScan_eq, (foldl_take _ _).2, takeLoop_collect]
  rfl

theorem events_dropPid : (w.dropPid pid).events = Mailbox.purge Queued.pid pid w.events := by
  rw [dropPid, retainQ, events_compact, retainScan_eq]
  rfl

end Take

section Refines

variable (w : RawWin) (e : Env)

def win (w : RawWin) : Win := ⟨w.slots, w.events⟩

theorem win_takeForPid (pid nfit : ℕ) :
    w.win.takeForPid pid nfit = ((w.takeForPid pid nfit).1, (w.takeForPid pid nfit).2.win) := by
  have hloop :
      w.win.takeForPid pid nfit = ((takeLoop pid nfit 0 w.events).1,
        ⟨w.slots, (takeLoop pid nfit 0 w.events).2⟩) := rfl
  rw [hloop, takeLoop_collect, takeForPid_out, win, events_takeForPid]
  rfl

theorem win_dropPid (pid : ℕ) : (w.dropPid pid).win = w.win.dropPid pid := by
  rw [win, events_dropPid]
  rfl

theorem userSliceOk_out {σ : Type} (s : σ) (ptr len : ℕ) :
    (userSliceOk ptr len).out e s = (Mem.Vmm.userSliceOk e.space ptr len).map fun ok =>
      (ok, s) := by
  unfold userSliceOk
  rw [Eff.out_bind, Eff.out_ask, Option.bind_some]
  dsimp only
  rcases Mem.Vmm.userSliceOk e.space ptr len with _ | _ | _ <;> simp

theorem userSliceOk_log {σ : Type} (s : σ) (ptr len : ℕ) :
    (userSliceOk ptr len).log e s =
      match Mem.Vmm.userSliceOk e.space ptr len with
      | none => [.panicked ptr len]
      | some true => []
      | some false => [.refused ptr len] := by
  unfold userSliceOk
  rw [Eff.log_bind, Eff.log_ask, Eff.out_ask, Option.elim_some]
  dsimp only
  rcases Mem.Vmm.userSliceOk e.space ptr len with _ | _ | _ <;> simp

theorem win_sysPollInput (pid : Option ℕ) (buf len : ℕ) :
    (Ui.sysPollInput pid buf len).out e w.win = ((sysPollInput pid buf len).out e w).map
      (fun r => (r.1, r.2.win)) ∧ (Ui.sysPollInput pid buf len).log e w.win =
        (sysPollInput pid buf len).log e w := by
  unfold Ui.sysPollInput sysPollInput
  cases pid with
  | none => exact ⟨rfl, rfl⟩
  | some pid =>
    by_cases hlen : len < evSize
    · simp [hlen]
    rcases hok : Mem.Vmm.userSliceOk e.space buf (min (len / evSize) inCap * evSize) with _ | _ | _
    · simp [hlen, userSliceOk_out, userSliceOk_log, hok]
    · simp [hlen, userSliceOk_out, userSliceOk_log, hok]
    · by_cases hnone : (w.takeForPid pid (min (len / evSize) inCap)).1 = []
      · simp [hlen, userSliceOk_out, userSliceOk_log, hok, win_takeForPid, hnone]
      · simp [hlen, userSliceOk_out, userSliceOk_log, hok, win_takeForPid, hnone, copyToUser]

def accepts (e : Env) (buf len : ℕ) : Bool :=
  evSize ≤ len ∧ Mem.Vmm.userSliceOk e.space buf (min (len / evSize) inCap * evSize) = some true

def written (log : List UserOp) : Bytes := log.flatMap fun | .write _ src => src | _ => []

theorem sysPollInput_cases {p buf len v : ℕ} {w' : RawWin}
    (h : (sysPollInput (some p) buf len).out e w = some (v, w')) :
    if accepts e buf len then
      w' = (w.takeForPid p (min (len / evSize) inCap)).2 ∧
        written ((sysPollInput (some p) buf len).log e w) =
          (w.takeForPid p (min (len / evSize) inCap)).1
    else w' = w ∧ written ((sysPollInput (some p) buf len).log e w) = [] := by
  unfold sysPollInput at h ⊢
  by_cases hlen : len < evSize
  · rw [if_neg (by simp [accepts, Nat.not_le.mpr hlen])]
    simp only [hlen, if_true, Eff.out_pure, Option.some.injEq, Prod.mk.injEq] at h
    simp [hlen, h, written]
  rcases hok : Mem.Vmm.userSliceOk e.space buf (min (len / evSize) inCap * evSize) with _ | _ | _
  · simp [hlen, userSliceOk_out, hok] at h
  · rw [if_neg (by simp [accepts, hok])]
    simp only [hlen, if_false, Eff.out_bind, userSliceOk_out, hok] at h
    simp [hlen, userSliceOk_log, userSliceOk_out, hok, written] at h ⊢
    exact h.2.symm
  · rw [if_pos (by simp [accepts, hok, not_lt.mp hlen])]
    by_cases hnone : (w.takeForPid p (min (len / evSize) inCap)).1 = []
    · simp [hlen, userSliceOk_out, userSliceOk_log, hok, hnone, written] at h ⊢
      exact h.2.symm
    · simp [hlen, userSliceOk_out, userSliceOk_log, hok, hnone, copyToUser, written] at h ⊢
      exact h.2.symm

end Refines

/-- The operations on the queue. `table` is for the others, which change surfaces only. -/
inductive Op where
  | key (id : ℕ) (key : UInt8)
  | down (id : ℕ) (lx ly : UInt32)
  | move (id : ℕ) (lx ly : UInt32)
  | poll (pid : Option ℕ) (e : Env) (buf len : ℕ)
  | dropPid (pid : ℕ)
  | table (slots : Fin maxSurfaces → Option Surface)

def step (w : RawWin) : Op → Option RawWin
  | .key id key => some (w.pushClientKey id key)
  | .down id lx ly => some (w.pushClientDown id lx ly)
  | .move id lx ly => some (w.pushClientMove id lx ly)
  | .poll pid e buf len => ((sysPollInput pid buf len).out e w).map Prod.snd
  | .dropPid pid => some (w.dropPid pid)
  | .table slots => some { w with slots := slots }

/-- The bytes that process `p` gets. -/
def sent (p : ℕ) (w : RawWin) : Op → Bytes
  | .poll pid e buf len => if pid = some p then written ((sysPollInput pid buf len).log e w) else []
  | _ => []

def act (w : RawWin) : Op → Option (Mailbox.Act Queued.pid)
  | .key id key => (w.pidOf id).map fun pid => .post ⟨pid, ⟨kindKey, 0, 0, key.toUInt32⟩⟩
  | .down id lx ly => (w.pidOf id).map fun pid => .post ⟨pid, ⟨kindDown, lx, ly, 0⟩⟩
  | .move id lx ly =>
    (w.pidOf id).map fun pid => .renew (moveTo pid lx ly)
      (moveTo_pid pid lx ly) ⟨pid, ⟨kindMove, lx, ly, 0⟩⟩
  | .poll pid e buf len =>
    if accepts e buf len then pid.map fun p => .collect p (min (len / evSize) inCap) else none
  | .dropPid pid => some (.purge pid)
  | .table _ => none

/-- The events that found room, in the order of the pushes, each with its fate. -/
def ledger (ts : List (Trans RawWin Op)) : Mailbox.Ledger Queued :=
  ts.foldl (fun l t => (act t.pre t.act).elim l fun a => a.ledger (inCap - 1) l) []

theorem step_events {w w' : RawWin} {op : Op} (h : step w op = some w') :
    w'.events = ((act w op).elim w.events fun a => a.queue (inCap - 1) w.events) ∧
      ∀ p, sent p w op = (act w op).elim [] fun a => (a.taken p w.events).flatMap fun x =>
        evBytes x.ev := by
  cases op with
  | key id key =>
    cases h
    cases hid : w.pidOf id with
    | none => simp [act, sent, pushClientKey, hid]
    | some pid =>
      simp [act, sent, pushClientKey, hid, events_pushEv, Mailbox.Act.queue, Mailbox.Act.taken]
  | down id lx ly =>
    cases h
    cases hid : w.pidOf id with
    | none => simp [act, sent, pushClientDown, hid]
    | some pid =>
      simp [act, sent, pushClientDown, hid, events_pushEv, Mailbox.Act.queue, Mailbox.Act.taken]
  | move id lx ly =>
    cases h
    cases hid : w.pidOf id with
    | none => simp [act, sent, pushClientMove, hid]
    | some pid =>
      simp [act, sent, hid, events_pushClientMove w hid, Mailbox.Act.queue, Mailbox.Act.taken]
  | poll pid e buf len =>
    obtain ⟨⟨v, w₁⟩, hout, rfl⟩ := Option.map_eq_some_iff.mp h
    cases pid with
    | none =>
      cases hout
      simp [act, sent]
    | some p =>
      have hcases := sysPollInput_cases w e hout
      rw [act]
      split at hcases
      · next hok =>
        rw [if_pos hok, Option.map_some, Option.elim_some]
        refine ⟨?_, fun p' => ?_⟩
        · rw [hcases.1, events_takeForPid]
          rfl
        · rw [Option.elim_some, sent, Mailbox.Act.taken]
          by_cases hp : p' = p
          · rw [if_pos (by rw [hp]), if_pos hp, hcases.2, takeForPid_out]
          · rw [if_neg (fun heq => hp (Option.some.inj heq).symm), if_neg hp]
            rfl
      · next hno =>
        rw [if_neg hno, Option.elim_none, hcases.1]
        refine ⟨rfl, fun p' => ?_⟩
        rw [Option.elim_none, sent]
        split
        · exact hcases.2
        · rfl
  | dropPid pid =>
    cases h
    simp [act, sent, events_dropPid, Mailbox.Act.queue, Mailbox.Act.taken]
  | table slots =>
    cases h
    simp [act, sent, events]

theorem run_ledger {ts : List (Trans RawWin Op)} {w : RawWin} (h : Path step init ts w) :
    (ledger ts).Ordered Queued.pid ∧ w.events = (ledger ts).queued ∧
      ∀ p, (ts.flatMap fun t => sent p t.pre t.act) =
        ((ledger ts).received Queued.pid p).flatMap fun x => evBytes x.ev := by
  induction h with
  | nil => exact ⟨List.Pairwise.nil, rfl, fun _ => rfl⟩
  | @snoc ts w w' op hp hs ih =>
    obtain ⟨hordered, hqueued, hsent⟩ := ih
    obtain ⟨hevents, hout⟩ := step_events hs
    have hledger : ledger (ts ++ [⟨w, op, w'⟩]) = (act w op).elim (ledger ts) fun a =>
        a.ledger (inCap - 1) (ledger ts) := by
      rw [ledger, List.foldl_append]
      rfl
    rw [hledger]
    cases hact : act w op with
    | none =>
      rw [hact] at hevents hout
      refine ⟨hordered, hevents.trans hqueued, fun p => ?_⟩
      rw [List.flatMap_append, hsent p, List.flatMap_singleton]
      dsimp only
      rw [hout p]
      exact List.append_nil _
    | some a =>
      rw [hact] at hevents hout
      rw [Option.elim_some] at hevents ⊢
      refine ⟨Mailbox.Act.ordered_ledger hordered, ?_, fun p => ?_⟩
      · rw [hevents, hqueued, Mailbox.Act.queued_ledger]
      · rw [List.flatMap_append, hsent p, List.flatMap_singleton]
        dsimp only
        rw [hout p, Mailbox.Act.received_ledger hordered, List.flatMap_append,
          Option.elim_some, hqueued]

theorem poll_others {w w' : RawWin} {pid : Option ℕ} {e : Env} {buf len : ℕ}
    (h : step w (.poll pid e buf len) = some w') {p : ℕ} (hp : pid ≠ some p) :
    (w'.events.filter fun x => x.pid = p) = (w.events.filter fun x => x.pid = p) ∧
    sent p w (.poll pid e buf len) = [] := by
  refine ⟨?_, if_neg hp⟩
  rw [(step_events h).1, act]
  split
  · cases pid with
    | none => rfl
    | some p' => exact Mailbox.collect_others (fun heq => hp (congrArg some heq.symm)) _ _
  · rfl

/-- What a process receives over a run are the events that found room for it and were taken, in
the order of the pushes; what is neither taken nor purged is still queued. -/
theorem inputs_fifo {ts : List (Trans RawWin Op)} {w : RawWin} (h : Path step init ts w) :
    (∀ p, (ts.flatMap fun t => sent p t.pre t.act) =
        ((ledger ts).received Queued.pid p).flatMap fun x => evBytes x.ev) ∧
      w.events = (ledger ts).queued ∧
      ∀ t ∈ ts, ∀ pid e buf len, t.act = .poll pid e buf len → ∀ p, pid ≠ some p →
        (t.post.events.filter fun x => x.pid = p) = (t.pre.events.filter fun x => x.pid = p) ∧
          sent p t.pre t.act = [] := by
  obtain ⟨-, hqueued, hsent⟩ := run_ledger h
  refine ⟨hsent, hqueued, fun t ht pid e buf len hact p hp => ?_⟩
  have hstep := h.step_of_mem t ht
  rw [hact] at hstep ⊢
  exact poll_others hstep hp

def twoClients : Fin maxSurfaces → Option Surface
  | 0 => some ⟨1, 7, 1, 1, [0, 0, 0, 0], 4096, none⟩
  | 1 => some ⟨2, 9, 1, 1, [0, 0, 0, 0], 4096, none⟩
  | _ => none

theorem two_clients_served : ∃ ts w, Path step init ts w ∧ w.events.length = 1 ∧
    (ts.flatMap fun t => sent 7 t.pre t.act).length = 2 * evSize ∧
    (ts.flatMap fun t => sent 7 t.pre t.act) = ((ledger ts).received Queued.pid 7).flatMap fun x =>
      evBytes x.ev := by
  obtain ⟨r, hr, hp⟩ := exists_path_of_replay step init
    [.table twoClients, .key 1 65, .key 2 66, .move 1 3 4, .move 1 5 6,
      .poll (some 7) (Sample.env []) 4096 128] (fun r => decide (r.2.events.length = 1) &&
      decide ((r.1.flatMap fun t => sent 7 t.pre t.act).length = 2 * evSize)) (by decide)
  simp only [Bool.and_eq_true, decide_eq_true_eq] at hp
  exact ⟨r.1, r.2, hr, hp.1, hp.2, (inputs_fifo hr).1 7⟩

end RawWin

end CoeleoOs.Ui
