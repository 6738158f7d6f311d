import CoeleoOs.Lib.Machine
import Mathlib.Data.Fin.Basic
import Mathlib.Logic.Function.Basic

/-!
# The transmit ring of the e1000e driver

`send_frame` fills the descriptor at its own index, hands it over by writing the next
index to the tail register and polls for the done bit. The device reads descriptors from
its head up to the tail in order and writes the done bit back when it likes. `tx_i` moves
on only if the bit is seen in time, the tail register always.
-/

namespace CoeleoOs.Net.E1000e
open CoeleoOs.Lib.Machine

abbrev ring : ℕ := 32

def bufLen : ℕ := 2048

def spinMax : ℕ := 50_000_000

structure TxDesc where
  length : ℕ
  dd : Bool

/-- Where a call stands: outside, before its write of the tail register, or with polls left. -/
inductive Phase
  | idle
  | filled (data : List UInt8)
  | waiting (left : ℕ)
  deriving DecidableEq

/-- The driver, its ring and the device. `processed` are the descriptors the device has read and
not yet written back, `handed` and `wire` the frames handed over and transmitted so far. -/
structure State where
  txI : Fin ring
  tdt : Fin ring
  head : Fin ring
  descs : Fin ring → TxDesc
  bufs : Fin ring → List UInt8
  processed : Fin ring → Bool
  phase : Phase
  handed : List (List UInt8)
  wire : List (List UInt8)

def init : State :=
  ⟨0, 0, 0, fun _ => ⟨0, true⟩, fun _ => List.replicate 4096 0, fun _ => false, .idle, [], []⟩

def State.txReady (s : State) : Bool := (s.descs s.txI).dd

def State.frame (s : State) (i : Fin ring) : List UInt8 := (s.bufs i).take (s.descs i).length

inductive Act
  | sendFrame (data : List UInt8)
  | tail
  | poll
  | process
  | writeBack (i : Fin ring)
  deriving DecidableEq

def State.sendFrame (s : State) (data : List UInt8) : State :=
  if data = [] ∨ bufLen < data.length then s
  else if s.txReady = false then s
  else
    { s with
      bufs := Function.update s.bufs s.txI (data ++ (s.bufs s.txI).drop data.length)
      descs := Function.update s.descs s.txI ⟨data.length, false⟩
      phase := .filled data }

def State.poll (s : State) (left : ℕ) : State :=
  if s.txReady then { s with txI := s.txI + 1, phase := .idle }
  else if left = 0 then { s with phase := .idle }
  else { s with phase := .waiting left }

def State.process (s : State) : Option State :=
  if s.head = s.tdt then none
  else
    some { s with
      wire := s.wire ++ [s.frame s.head]
      processed := Function.update s.processed s.head true
      head := s.head + 1 }

def State.writeBack (s : State) (i : Fin ring) : Option State :=
  if s.processed i then
    some { s with
      descs := Function.update s.descs i { s.descs i with dd := true }
      processed := Function.update s.processed i false }
  else none

def step (s : State) : Act → Option State
  | .sendFrame data => if s.phase = .idle then some (s.sendFrame data) else none
  | .tail =>
    match s.phase with
    | .filled data =>
      some { s with tdt := s.txI + 1, handed := s.handed ++ [data], phase := .waiting spinMax }
    | _ => none
  | .poll =>
    match s.phase with
    | .waiting (left + 1) => some (s.poll left)
    | _ => none
  | .process => s.process
  | .writeBack i => s.writeBack i

def State.drain : ℕ → State → State
  | 0, s => s
  | n + 1, s =>
    match s.process with
    | none => s
    | some s' => State.drain n s'

/-- Outside a call the driver's index is the tail register, and what the device has sent once it
has read all that lies before the tail are the frames that were handed over. -/
structure State.Served (s : State) : Prop where
  index : s.phase = .idle → s.txI = s.tdt
  sent : (s.drain ring).wire = s.handed

/-- The last poll of a wait that does not see the done bit. -/
def Expires (t : Trans State Act) : Prop :=
  t.act = .poll ∧ t.pre.phase = .waiting 1 ∧ t.pre.txReady = false

instance (t : Trans State Act) : Decidable (Expires t) := by
  unfold Expires
  infer_instance

variable {s s' : State} {t : Trans State Act} {ts : List (Trans State Act)}

structure State.Quiet (s : State) : Prop where
  head : s.head = s.tdt
  wire : s.wire = s.handed
  processed : ∀ i, s.processed i = false

/-- The device has yet to read the descriptor that was handed over last. -/
structure State.Pending (s : State) : Prop where
  head : s.head = s.txI
  dd : s.txReady = false
  handed : s.handed = s.wire ++ [s.frame s.txI]
  processed : ∀ i, s.processed i = false

structure State.Read (s : State) : Prop where
  head : s.head = s.tdt
  wire : s.wire = s.handed
  processed : ∀ i, s.processed i = true → i = s.txI ∧ s.txReady = false

def State.PhaseOk (s : State) : Phase → Prop
  | .idle => s.tdt = s.txI ∧ s.Quiet
  | .filled data => s.tdt = s.txI ∧ s.Quiet ∧ s.txReady = false ∧ s.frame s.txI = data
  | .waiting _ => s.tdt = s.txI + 1 ∧ (s.Pending ∨ s.Read)

def State.InStep (s : State) : Prop := s.PhaseOk s.phase

theorem init_inStep : init.InStep := ⟨rfl, rfl, rfl, fun _ => rfl⟩

theorem next_ne (i : Fin ring) : i + 1 ≠ i := by
  revert i
  decide

theorem drain_caughtUp (n : ℕ) (h : s.head = s.tdt) : s.drain n = s := by
  cases n with
  | zero => rfl
  | succ n => rw [State.drain, State.process, if_pos h]

theorem drain_pending (n : ℕ) (h : s.tdt = s.head + 1) :
    (s.drain (n + 1)).wire = s.wire ++ [s.frame s.head] := by
  have hne : s.head ≠ s.tdt := fun heq => next_ne s.head (h.symm.trans heq.symm)
  rw [State.drain, State.process, if_neg hne]
  exact congrArg State.wire (drain_caughtUp n h.symm)

theorem State.InStep.served (h : s.InStep) : s.Served := by
  rw [State.InStep] at h
  cases hphase : s.phase with
  | idle =>
    rw [hphase] at h
    refine ⟨fun _ => h.1.symm, ?_⟩
    rw [drain_caughtUp ring h.2.head]
    exact h.2.wire
  | filled data =>
    rw [hphase] at h
    refine ⟨fun hidle => absurd (hphase.symm.trans hidle) (by simp), ?_⟩
    rw [drain_caughtUp ring h.2.1.head]
    exact h.2.1.wire
  | waiting left =>
    rw [hphase] at h
    refine ⟨fun hidle => absurd (hphase.symm.trans hidle) (by simp), ?_⟩
    rcases h.2 with hp | hr
    · rw [drain_pending 31 (hp.head ▸ h.1), hp.head]
      exact hp.handed.symm
    · rw [drain_caughtUp ring hr.head]
      exact hr.wire

section Steps

theorem sendFrame_inStep (hphase : s.phase = .idle) (h : s.InStep) (data : List UInt8) :
    (s.sendFrame data).InStep := by
  rw [State.sendFrame]
  split
  · exact h
  · split
    · exact h
    · rw [State.InStep, hphase] at h
      obtain ⟨htdt, hq⟩ := h
      refine ⟨htdt, ⟨hq.head, hq.wire, hq.processed⟩, ?_, ?_⟩
      · simp [State.txReady]
      · simp [State.frame]

theorem tail_inStep {data : List UInt8} (hphase : s.phase = .filled data) (h : s.InStep) :
    State.InStep { s with
      tdt := s.txI + 1, handed := s.handed ++ [data], phase := .waiting spinMax } := by
  rw [State.InStep, hphase] at h
  obtain ⟨htdt, hq, hdd, hframe⟩ := h
  refine ⟨rfl, .inl ⟨hq.head.trans htdt, hdd, ?_, hq.processed⟩⟩
  have hlast : s.handed ++ [data] = s.wire ++ [s.frame s.txI] := by
    rw [hq.wire, hframe]
  exact hlast

theorem poll_inStep {left : ℕ} (hphase : s.phase = .waiting (left + 1)) (h : s.InStep)
    (hlast : left = 0 → s.txReady = true) : (s.poll left).InStep := by
  rw [State.InStep, hphase] at h
  obtain ⟨htdt, h⟩ := h
  rw [State.poll]
  cases hdd : s.txReady with
  | true =>
    rcases h with hp | hr
    · exact absurd (hp.dd.symm.trans hdd) (by simp)
    · have hnone : ∀ i, s.processed i = false := by
        intro i
        cases hi : s.processed i with
        | true => exact absurd ((hr.processed i hi).2.symm.trans hdd) (by simp)
        | false => rfl
      exact ⟨htdt, hr.head, hr.wire, hnone⟩
  | false =>
    have hleft : left ≠ 0 := fun h0 => absurd (hdd.symm.trans (hlast h0)) (by simp)
    rw [if_neg Bool.false_ne_true, if_neg hleft]
    refine ⟨htdt, h.imp ?_ ?_⟩
    · exact fun hp => ⟨hp.head, hp.dd, hp.handed, hp.processed⟩
    · exact fun hr => ⟨hr.head, hr.wire, hr.processed⟩

theorem process_inStep (h : s.InStep) (hs : s.process = some s') : s'.InStep := by
  rw [State.process] at hs
  split at hs
  · cases hs
  · next hne =>
    cases hs
    rw [State.InStep] at h
    cases hphase : s.phase with
    | idle =>
      rw [hphase] at h
      exact absurd h.2.head hne
    | filled data =>
      rw [hphase] at h
      exact absurd h.2.1.head hne
    | waiting left =>
      rw [hphase] at h
      obtain ⟨htdt, hp | hr⟩ := h
      · rw [State.InStep]
        refine ⟨htdt, .inr ⟨?_, ?_, ?_⟩⟩
        · exact (congrArg (· + 1) hp.head).trans htdt.symm
        · exact (congrArg (fun i => s.wire ++ [s.frame i]) hp.head).trans hp.handed.symm
        · intro i hi
          refine ⟨?_, hp.dd⟩
          by_contra hother
          have hold : Function.update s.processed s.head true i = s.processed i :=
            Function.update_of_ne (fun heq => hother (heq.trans hp.head)) ..
          exact absurd (hi.symm.trans (hold.trans (hp.processed i))) (by simp)
      · exact absurd hr.head hne

theorem writeBack_inStep {i : Fin ring} (h : s.InStep) (hs : s.writeBack i = some s') :
    s'.InStep := by
  rw [State.writeBack] at hs
  split at hs
  · next hi =>
    cases hs
    rw [State.InStep] at h
    cases hphase : s.phase with
    | idle =>
      rw [hphase] at h
      exact absurd (hi.symm.trans (h.2.processed i)) (by simp)
    | filled data =>
      rw [hphase] at h
      exact absurd (hi.symm.trans (h.2.1.processed i)) (by simp)
    | waiting left =>
      rw [hphase] at h
      obtain ⟨htdt, hp | hr⟩ := h
      · exact absurd (hi.symm.trans (hp.processed i)) (by simp)
      · rw [State.InStep]
        refine ⟨htdt, .inr ⟨hr.head, hr.wire, ?_⟩⟩
        intro j hj
        have hij := (hr.processed i hi).1
        by_cases heq : j = i
        · subst heq
          simp at hj
        · have hold : s.processed j = true := by
            rwa [← Function.update_of_ne heq false s.processed]
          exact absurd ((hr.processed j hold).1.trans hij.symm) heq
  · cases hs

theorem step_inStep (hs : step t.pre t.act = some t.post) (h : t.pre.InStep) (hc : ¬Expires t) :
    t.post.InStep := by
  obtain ⟨s, a, s'⟩ := t
  cases a with
  | sendFrame data =>
    simp only [step] at hs
    split at hs
    · next hphase =>
      cases hs
      exact sendFrame_inStep hphase h data
    · cases hs
  | tail =>
    simp only [step] at hs
    split at hs
    · next data hphase =>
      cases hs
      exact tail_inStep hphase h
    · cases hs
  | poll =>
    simp only [step] at hs
    split at hs
    · next left hphase =>
      cases hs
      refine poll_inStep hphase h fun h0 => ?_
      by_contra hdd
      exact hc ⟨rfl, h0 ▸ hphase, Bool.eq_false_iff.mpr hdd⟩
    · cases hs
  | process => exact process_inStep h hs
  | writeBack i => exact writeBack_inStep h hs

theorem expired_not_served (hs : step t.pre t.act = some t.post) (h : t.pre.InStep)
    (hc : Expires t) : ¬t.post.Served := by
  obtain ⟨s, a, s'⟩ := t
  obtain ⟨hact, hphase, hdd⟩ := hc
  simp only at hact hphase hdd hs h
  subst hact
  rw [State.InStep, hphase] at h
  simp only [step, hphase, State.poll, hdd, Option.some.injEq] at hs
  subst hs
  intro hserved
  have hidx : s.txI = s.tdt := hserved.index rfl
  exact next_ne s.txI (h.1.symm.trans hidx.symm)

end Steps

/-- In every run the driver keeps step with the device exactly if no wait ends in vain. -/
theorem send_in_step_iff (h : Path step init ts s) :
    (∀ t ∈ ts, t.post.Served) ↔ ∀ t ∈ ts, ¬Expires t := by
  refine h.forall_iff init_inStep ?_ fun t hs hin hc => step_inStep hs hin hc
  intro t hs hin
  refine ⟨fun hserved hc => expired_not_served hs hin hc hserved, fun hc => ?_⟩
  exact (step_inStep hs hin hc).served

def oneFrame : List Act := [.sendFrame [1], .tail, .process, .writeBack 0, .poll]

theorem one_frame_served :
    ∃ ts s, Path step init ts s ∧ s.wire = [[1]] ∧ ∀ t ∈ ts, t.post.Served := by
  have hrun := exists_path_of_replay step init oneFrame
    (fun r => r.2.wire = [[1]] ∧ ∀ t ∈ r.1, ¬Expires t) (by decide)
  obtain ⟨r, h, hp⟩ := hrun
  obtain ⟨hwire, hall⟩ := of_decide_eq_true hp
  exact ⟨r.1, r.2, h, hwire, (send_in_step_iff h).mpr hall⟩

/-- A descriptor was filled that the tail register had already passed. -/
structure State.Lost (s : State) : Prop where
  head : s.head = s.tdt
  dd : s.txReady = false
  processed : ∀ i, s.processed i = false
  phase : ∀ data, s.phase ≠ .filled data

theorem lost_poll (h : s.Lost) (left : ℕ) : (s.poll left).Lost ∧ (s.poll left).wire = s.wire := by
  have hdd : ¬s.txReady = true := fun hdd => absurd (h.dd.symm.trans hdd) (by simp)
  rw [State.poll, if_neg hdd]
  split
  · exact ⟨⟨h.head, h.dd, h.processed, by simp⟩, rfl⟩
  · exact ⟨⟨h.head, h.dd, h.processed, by simp⟩, rfl⟩

theorem lost_step {a : Act} (h : s.Lost) (hs : step s a = some s') :
    s'.Lost ∧ s'.wire = s.wire := by
  cases a with
  | sendFrame data =>
    simp only [step, State.sendFrame, h.dd] at hs
    split at hs
    · cases hs
      simpa using h
    · cases hs
  | tail =>
    simp only [step] at hs
    split at hs
    · next data hphase => exact absurd hphase (h.phase data)
    · cases hs
  | poll =>
    simp only [step] at hs
    split at hs
    · next left hphase =>
      cases hs
      exact lost_poll h left
    · cases hs
  | process => simp [step, State.process, h.head] at hs
  | writeBack i => simp [step, State.writeBack, h.processed i] at hs

theorem lost_run (h : s.Lost) (hp : Path step s ts s') : s'.Lost ∧ s'.wire = s.wire := by
  induction hp with
  | nil => exact ⟨h, rfl⟩
  | snoc a _ hs ih =>
    have hlast := lost_step ih.1 hs
    exact ⟨hlast.1, hlast.2.trans ih.2⟩

theorem waits_out (left : ℕ) (hphase : s.phase = .waiting (left + 1)) (hdd : s.txReady = false) :
    ∃ ts, Path step s ts { s with phase := .idle } := by
  induction left generalizing s with
  | zero => exact ⟨_, .snoc .poll .nil (by simp [step, hphase, State.poll, hdd])⟩
  | succ left ih =>
    have hone : step s .poll = some { s with phase := .waiting (left + 1) } := by
      simp [step, hphase, State.poll, hdd]
    obtain ⟨ts, hrest⟩ := @ih { s with phase := .waiting (left + 1) } rfl hdd
    exact ⟨_, (Path.snoc .poll .nil hone).append hrest⟩

def firstWait : State :=
  { init.sendFrame [1] with tdt := 1, handed := [[1]], phase := .waiting spinMax }

def afterWait : List Act := [.process, .writeBack 0, .sendFrame [2], .tail]

/-- A done bit that comes after the wait lets the next call fill the same descriptor, and
its frame never leaves. -/
theorem late_completion_loses_frame : ∃ ts s, Path step init ts s ∧ s.handed = [[1], [2]] ∧
    ∀ us s', Path step s us s' → s'.wire = [[1]] := by
  have hfirst : Path step init _ firstWait := .snoc .tail (.snoc (.sendFrame [1]) .nil rfl) rfl
  obtain ⟨us, hwait⟩ := @waits_out firstWait 49999999 rfl rfl
  have hlate := exists_path_of_replay step { firstWait with phase := .idle } afterWait
    (fun r => r.2.handed = [[1], [2]] ∧ r.2.wire = [[1]] ∧ r.2.head = r.2.tdt ∧
      r.2.txReady = false ∧ (∀ i, r.2.processed i = false) ∧
      r.2.phase = .waiting spinMax) (by decide)
  obtain ⟨r, hr, hp⟩ := hlate
  obtain ⟨hhanded, hwire, hhead, hdd, hprocessed, hphase⟩ := of_decide_eq_true hp
  have hlost : r.2.Lost :=
    ⟨hhead, hdd, hprocessed, fun data hf => absurd (hphase.symm.trans hf) (by simp)⟩
  refine ⟨_, r.2, (hfirst.append hwait).append hr, hhanded, ?_⟩
  intro vs s' hvs
  exact (lost_run hlost hvs).2.trans hwire

end CoeleoOs.Net.E1000e
