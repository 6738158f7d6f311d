import CoeleoOs.Lib.Ring
import CoeleoOs.Net.E1000e

/-!
# The receive ring of the e1000e driver

The driver lends the device every descriptor but one. The device fills them from its head up
to the tail register and writes them back in order, when it likes. `receive` looks at its own
descriptor, field by field, takes the frame out or skips a bad one, and returns the descriptor
by writing its index to the tail register. The device may act between any two of these accesses.
-/

namespace CoeleoOs.Net.E1000e.Rx
open CoeleoOs.Lib CoeleoOs.Lib.Machine CoeleoOs.Lib.Ring

def pageLen : ℕ := 4096

local instance ring_neZero : NeZero ring := ⟨by decide⟩

structure RxDesc where
  length : ℕ
  dd : Bool
  eop : Bool
  errors : UInt8
  deriving DecidableEq

/-- What the device puts into one buffer, and says of it in the descriptor. -/
structure Fragment where
  data : List UInt8
  eop : Bool
  errors : UInt8
  fits : data.length ≤ pageLen
  deriving DecidableEq

def Fragment.desc (f : Fragment) : RxDesc := ⟨f.data.length, true, f.eop, f.errors⟩

def bad (eop : Bool) (errors : UInt8) (len : ℕ) : Bool :=
  decide (errors ≠ 0) || !eop || decide (len = 0) || decide (bufLen < len)

/-- The frame in a fragment, unless it is a bad one. -/
def Fragment.frame (f : Fragment) : Option (List UInt8) :=
  if bad f.eop f.errors f.data.length then none else some f.data

/-- Where a call of `receive` stands, with what it has read so far. -/
inductive Phase
  | idle
  | done (eop : Bool)
  | judged (eop : Bool) (errors : UInt8)
  | copying (len : ℕ)
  | taken (tok : Option (List UInt8))
  | cleared (tok : Option (List UInt8))
  deriving DecidableEq

/-- The driver, its ring and the device. `filled` are the fragments that the device has not yet
written back, `arrived` all it has put into a buffer, `handed` the frames given to the stack. -/
structure State where
  rxI : Fin ring
  rdt : Fin ring
  head : Fin ring
  back : Fin ring
  descs : Fin ring → RxDesc
  bufs : Fin ring → List UInt8
  filled : List Fragment
  phase : Phase
  arrived : List Fragment
  handed : List (List UInt8)

/-- The state that `alloc_rings` and `program_rings` leave. -/
def init : State :=
  ⟨0, 31, 0, 0, fun _ => ⟨0, false, false, 0⟩, fun _ => List.replicate pageLen 0, [], .idle, [], []⟩

inductive Act
  | receive
  | readErrors
  | readLength
  | copy
  | clear
  | tail
  | arrive (f : Fragment)
  | writeBack
  deriving DecidableEq

def Act.ofDriver : Act → Bool
  | .arrive _ | .writeBack => false
  | _ => true

def State.receive (s : State) : State :=
  if (s.descs s.rxI).dd then { s with phase := .done (s.descs s.rxI).eop } else s

def State.readLength (s : State) (eop : Bool) (errors : UInt8) : State :=
  let len := (s.descs s.rxI).length
  if bad eop errors len then { s with phase := .taken none } else { s with phase := .copying len }

def State.clear (s : State) (tok : Option (List UInt8)) : State :=
  { s with
    descs :=
      Function.update s.descs s.rxI { s.descs s.rxI with
        length := 0, dd := false, eop := false, errors := 0 }
    phase := .cleared tok }

def State.tail (s : State) (tok : Option (List UInt8)) : State :=
  { s with rdt := s.rxI, rxI := s.rxI + 1, phase := .idle, handed := s.handed ++ tok.toList }

/-- A frame from the wire is refused when the head has come to the tail register. -/
def State.arrive (s : State) (f : Fragment) : Option State :=
  if s.head = s.rdt then none
  else
    some { s with
      bufs := Function.update s.bufs s.head (f.data ++ (s.bufs s.head).drop f.data.length)
      filled := s.filled ++ [f]
      head := s.head + 1
      arrived := s.arrived ++ [f] }

def State.writeBack (s : State) : Option State :=
  match s.filled with
  | [] => none
  | f :: rest =>
    some { s with
      descs := Function.update s.descs s.back f.desc, filled := rest, back := s.back + 1 }

def step (s : State) : Act → Option State
  | .receive => if s.phase = .idle then some s.receive else none
  | .readErrors =>
    match s.phase with
    | .done eop => some { s with phase := .judged eop (s.descs s.rxI).errors }
    | _ => none
  | .readLength =>
    match s.phase with
    | .judged eop errors => some (s.readLength eop errors)
    | _ => none
  | .copy =>
    match s.phase with
    | .copying len => some { s with phase := .taken (some ((s.bufs s.rxI).take len)) }
    | _ => none
  | .clear =>
    match s.phase with
    | .taken tok => some (s.clear tok)
    | _ => none
  | .tail =>
    match s.phase with
    | .cleared tok => some (s.tail tok)
    | _ => none
  | .arrive f => s.arrive f
  | .writeBack => s.writeBack

def PhaseOk (held ready : List Fragment) : Phase → Prop
  | .idle => held = []
  | .done eop => held = [] ∧ ∃ f, ready.head? = some f ∧ eop = f.eop
  | .judged eop errors => held = [] ∧ ∃ f, ready.head? = some f ∧ eop = f.eop ∧ errors = f.errors
  | .copying len =>
    held = [] ∧ ∃ f, ready.head? = some f ∧ f.frame = some f.data ∧ len = f.data.length
  | .taken tok => held = [] ∧ ∃ f, ready.head? = some f ∧ tok = f.frame
  | .cleared tok => ∃ f, held = [f] ∧ tok = f.frame

theorem phaseOk_append {held ready : List Fragment} {p : Phase} (h : PhaseOk held ready p)
    (f : Fragment) : PhaseOk held (ready ++ [f]) p := by
  have hfirst : ∀ g, ready.head? = some g → (ready ++ [f]).head? = some g := by
    intro g hg
    rw [List.head?_append, hg, Option.some_or]
  cases p with
  | idle => exact h
  | done eop =>
    obtain ⟨hheld, g, hg, hread⟩ := h
    exact ⟨hheld, g, hfirst g hg, hread⟩
  | judged eop errors =>
    obtain ⟨hheld, g, hg, hread⟩ := h
    exact ⟨hheld, g, hfirst g hg, hread⟩
  | copying len =>
    obtain ⟨hheld, g, hg, hread⟩ := h
    exact ⟨hheld, g, hfirst g hg, hread⟩
  | taken tok =>
    obtain ⟨hheld, g, hg, hread⟩ := h
    exact ⟨hheld, g, hfirst g hg, hread⟩
  | cleared tok => exact h

/-- The fragments that arrived are those returned, the one held, those ready and those that the
device has yet to write back, in this order around the ring. -/
structure State.Synced (s : State) (returned held ready : List Fragment) : Prop where
  arrived : s.arrived = returned ++ held ++ ready ++ s.filled
  room : held.length + ready.length + s.filled.length ≤ 31
  rxI : s.rxI = cell ring returned.length
  rdt : s.rdt = cell ring (returned.length + 31)
  head : s.head = cell ring (returned.length + held.length + (ready.length + s.filled.length))
  back : s.back = cell ring (returned.length + held.length + ready.length)
  descs :
    ∀ j f, ready[j]? = some f → s.descs (cell ring (returned.length + held.length + j)) = f.desc
  free :
    ∀ j, ready.length ≤ j → j < ring →
    (s.descs (cell ring (returned.length + held.length + j))).dd = false
  bufs : ∀ j f, (ready ++ s.filled)[j]? = some f →
    f.data <+: s.bufs (cell ring (returned.length + held.length + j))
  handed : s.handed = returned.filterMap Fragment.frame
  phase : PhaseOk held ready s.phase

variable {s s' : State} {returned held ready : List Fragment} {f : Fragment}

theorem init_synced : init.Synced [] [] [] where
  arrived := rfl
  room := Nat.zero_le _
  rxI := rfl
  rdt := rfl
  head := rfl
  back := rfl
  descs := by simp
  free := fun _ _ _ => rfl
  bufs := by simp [init]
  handed := rfl
  phase := rfl

theorem cell_succ (n : ℕ) : cell ring n + 1 = cell ring (n + 1) := by
  apply Fin.ext
  simp [cell, Fin.val_add]

theorem cell_ring (n : ℕ) : cell ring (n + ring) = cell ring n := by
  apply Fin.ext
  simp [cell]

theorem cell_apart {n i j : ℕ} (hne : i ≠ j) (hi : i < ring) (hj : j < ring) :
    cell ring (n + i) ≠ cell ring (n + j) := by
  rcases lt_or_gt_of_ne hne with h | h
  · exact cell_ne h hj
  · exact (cell_ne h hi).symm

section Steps

theorem synced_withPhase (h : s.Synced returned held ready) {p : Phase}
    (hp : PhaseOk held ready p) : State.Synced { s with phase := p } returned held ready :=
  { h with phase := hp }

theorem own_desc (h : s.Synced returned [] ready) (hf : ready.head? = some f) :
    s.descs s.rxI = f.desc := by
  have hfirst : ready[0]? = some f := by rwa [← List.head?_eq_getElem?]
  have hdesc := h.descs 0 f hfirst
  rwa [List.length_nil, Nat.add_zero, ← h.rxI] at hdesc

theorem own_buf (h : s.Synced returned [] ready) (hf : ready.head? = some f) :
    f.data <+: s.bufs s.rxI := by
  have hfirst : (ready ++ s.filled)[0]? = some f := by
    cases ready with
    | nil => simp at hf
    | cons g rest => simpa using hf
  have hbuf := h.bufs 0 f hfirst
  rwa [List.length_nil, Nat.add_zero, ← h.rxI] at hbuf

theorem own_done (h : s.Synced returned [] ready) : (s.descs s.rxI).dd = true ↔ ready ≠ [] := by
  cases hready : ready with
  | nil =>
    have hfree := h.free 0 (by simp [hready]) (by decide)
    rw [List.length_nil, Nat.add_zero, ← h.rxI] at hfree
    simp [hfree]
  | cons f rest =>
    have hdesc := own_desc h (f := f) (by rw [hready, List.head?_cons])
    simp [hdesc, Fragment.desc]

theorem receive_synced (h : s.Synced returned held ready) (hphase : s.phase = .idle) :
    s.receive.Synced returned held ready := by
  have hheld : held = [] := by
    have hp := h.phase
    rwa [hphase] at hp
  subst hheld
  rw [State.receive]
  split
  · next hdd =>
    obtain ⟨f, rest, hready⟩ := List.exists_cons_of_ne_nil ((own_done h).mp hdd)
    have hhead : ready.head? = some f := by simp [hready]
    refine synced_withPhase h ⟨rfl, f, hhead, ?_⟩
    rw [own_desc h hhead]
    rfl
  · exact h

theorem readErrors_synced {eop : Bool} (h : s.Synced returned held ready)
    (hphase : s.phase = .done eop) :
    State.Synced { s with phase := .judged eop (s.descs s.rxI).errors } returned held ready := by
  have hp := h.phase
  rw [hphase] at hp
  obtain ⟨rfl, f, hf, heop⟩ := hp
  refine synced_withPhase h ⟨rfl, f, hf, heop, ?_⟩
  rw [own_desc h hf]
  rfl

theorem readLength_synced {eop : Bool} {errors : UInt8} (h : s.Synced returned held ready)
    (hphase : s.phase = .judged eop errors) :
    (s.readLength eop errors).Synced returned held ready := by
  have hp := h.phase
  rw [hphase] at hp
  obtain ⟨rfl, f, hf, heop, herrors⟩ := hp
  have hlen : (s.descs s.rxI).length = f.data.length := by
    rw [own_desc h hf]
    rfl
  rw [State.readLength, hlen, heop, herrors]
  split
  · next hbad => exact synced_withPhase h ⟨rfl, f, hf, by rw [Fragment.frame, if_pos hbad]⟩
  · next hbad => exact synced_withPhase h ⟨rfl, f, hf, by rw [Fragment.frame, if_neg hbad], rfl⟩

theorem copy_synced {len : ℕ} (h : s.Synced returned held ready) (hphase : s.phase = .copying len) :
    State.Synced { s with phase := .taken (some ((s.bufs s.rxI).take len)) } returned
      held ready := by
  have hp := h.phase
  rw [hphase] at hp
  obtain ⟨rfl, f, hf, hframe, hlen⟩ := hp
  refine synced_withPhase h ⟨rfl, f, hf, ?_⟩
  rw [hframe, hlen, ← List.prefix_iff_eq_take.mp (own_buf h hf)]

theorem clear_synced {tok : Option (List UInt8)} {rest : List Fragment}
    (h : s.Synced returned [] (f :: rest)) (htok : tok = f.frame) :
    (s.clear tok).Synced returned [f] rest := by
  have hroom := h.room
  simp only [List.length_nil, List.length_cons] at hroom
  have hcell :
      ∀ j, cell ring (returned.length + [f].length + j) =
        cell ring (returned.length + (j + 1)) := by
    intro j
    rw [List.length_singleton, Nat.add_assoc, Nat.add_comm 1 j]
  have hown : s.rxI = cell ring (returned.length + 0) := h.rxI
  refine ⟨?_, ?_, h.rxI, h.rdt, ?_, ?_, ?_, ?_, ?_, h.handed, f, rfl, htok⟩
  · simpa [State.clear] using h.arrived
  · simp only [List.length_singleton, State.clear]
    omega
  · have hhead := h.head
    rw [List.length_cons, List.length_nil, Nat.add_zero, Nat.add_right_comm rest.length 1] at hhead
    rw [hcell]
    exact hhead
  · have hback := h.back
    rw [List.length_cons, List.length_nil, Nat.add_zero] at hback
    rw [hcell]
    exact hback
  · intro j g hj
    have hlt : j < rest.length := (List.getElem?_eq_some_iff.mp hj).1
    have hne : cell ring (returned.length + (j + 1)) ≠ s.rxI := by
      rw [hown]
      exact cell_apart (Nat.succ_ne_zero j) (by simp only [ring]; omega) (by decide)
    have hold := h.descs (j + 1) g (by simpa using hj)
    rw [List.length_nil, Nat.add_zero] at hold
    rw [hcell]
    exact (Function.update_of_ne hne ..).trans hold
  · intro j hj hlt
    rw [hcell]
    rcases eq_or_ne (cell ring (returned.length + (j + 1))) s.rxI with heq | hne
    · simp [State.clear, heq]
    · have hlast : j + 1 ≠ ring := by
        intro heq
        rw [heq, cell_ring, h.rxI] at hne
        exact hne rfl
      have hold := h.free (j + 1) (by simpa using hj) (by omega)
      rw [List.length_nil, Nat.add_zero] at hold
      exact (congrArg RxDesc.dd (Function.update_of_ne hne ..)).trans hold
  · intro j g hj
    have hold := h.bufs (j + 1) g (by simpa [State.clear] using hj)
    rw [List.length_nil, Nat.add_zero] at hold
    rw [hcell]
    exact hold

theorem tail_synced {tok : Option (List UInt8)} (h : s.Synced returned held ready)
    (hphase : s.phase = .cleared tok) : ∃ f, held = [f] ∧ (s.tail tok).Synced (returned ++ [f])
    [] ready := by
  have hp := h.phase
  rw [hphase] at hp
  obtain ⟨f, rfl, htok⟩ := hp
  have hlen : (returned ++ [f]).length = returned.length + 1 := by simp
  have hroom := h.room
  rw [List.length_singleton] at hroom
  refine ⟨f, rfl, ?_, ?_, ?_, ?_, ?_, ?_, ?_, ?_, ?_, ?_, rfl⟩
  · simpa [State.tail] using h.arrived
  · simp only [List.length_nil, State.tail]
    omega
  · rw [State.tail, hlen, ← cell_succ, ← h.rxI]
  · rw [State.tail, hlen, Nat.add_assoc, h.rxI]
    exact (cell_ring _).symm
  · simpa [State.tail] using h.head
  · simpa [State.tail] using h.back
  · simpa [State.tail] using h.descs
  · simpa [State.tail] using h.free
  · simpa [State.tail] using h.bufs
  · rw [State.tail, h.handed, htok, List.filterMap_append]
    cases hframe : f.frame <;> simp [hframe]

theorem head_eq_rdt_iff (h : s.Synced returned held ready) :
    s.head = s.rdt ↔ held.length + ready.length + s.filled.length = 31 := by
  have hroom := h.room
  have hhead :
      s.head = cell ring (returned.length + (held.length + ready.length + s.filled.length)) := by
    rw [h.head, Nat.add_assoc, Nat.add_assoc held.length]
  rw [hhead, h.rdt]
  constructor
  · intro heq
    by_contra hne
    exact cell_apart hne (by simp only [ring]; omega) (by decide) heq
  · intro heq
    rw [heq]

theorem arrive_isSome_iff (h : s.Synced returned held ready) (f : Fragment) :
    (s.arrive f).isSome = true ↔ s.arrived.length < returned.length + 31 := by
  have hroom := h.room
  have hfull := head_eq_rdt_iff h
  have hlen := congrArg List.length h.arrived
  simp only [List.length_append] at hlen
  rw [State.arrive]
  split
  · next heq =>
    have hall := hfull.mp heq
    simp only [Option.isSome_none, Bool.false_eq_true, false_iff]
    omega
  · next hne =>
    have hall := mt hfull.mpr hne
    simp only [Option.isSome_some, true_iff]
    omega

theorem arrive_synced (h : s.Synced returned held ready) (hs : s.arrive f = some s') :
    s'.Synced returned held ready := by
  have hroom := h.room
  have hfull := head_eq_rdt_iff h
  rw [State.arrive] at hs
  split at hs
  · cases hs
  · next hne =>
    have hall := mt hfull.mpr hne
    cases hs
    refine ⟨?_, ?_, h.rxI, h.rdt, ?_, h.back, h.descs, h.free, ?_, h.handed, h.phase⟩
    · simp only [h.arrived, List.append_assoc]
    · simp only [List.length_append, List.length_singleton]
      omega
    · simp only [h.head, cell_succ, List.length_append, List.length_singleton]
      simp only [Nat.add_assoc]
    · intro j g hj
      simp only [← List.append_assoc] at hj
      rcases Nat.lt_or_ge j (ready ++ s.filled).length with hlt | hge
      · have hold := h.bufs j g (by rwa [List.getElem?_append_left hlt] at hj)
        rw [List.length_append] at hlt
        have hapart : cell ring (returned.length + held.length + j) ≠ s.head := by
          rw [h.head]
          exact cell_apart (by omega) (by simp only [ring]; omega) (by simp only [ring]; omega)
        simp only [Function.update_of_ne hapart]
        exact hold
      · have hone := List.getElem?_append_right hge ▸ hj
        have hzero : j - (ready ++ s.filled).length = 0 := by
          have hlast := (List.getElem?_eq_some_iff.mp hone).1
          rw [List.length_singleton] at hlast
          omega
        have hj' : j = ready.length + s.filled.length := by
          rw [List.length_append] at hge hzero
          omega
        rw [hzero, List.getElem?_cons_zero] at hone
        cases hone
        rw [hj', ← h.head]
        simp only [Function.update_self]
        exact List.prefix_append ..

theorem writeBack_synced (h : s.Synced returned held ready) (hs : s.writeBack = some s') :
    ∃ f, s.filled = f :: s'.filled ∧ s'.Synced returned held (ready ++ [f]) := by
  have hroom := h.room
  rw [State.writeBack] at hs
  split at hs
  · cases hs
  · next f rest hfilled =>
    cases hs
    rw [hfilled, List.length_cons] at hroom
    refine ⟨f, hfilled, ?_, ?_, h.rxI, h.rdt, ?_, ?_, ?_, ?_, ?_, h.handed, ?_⟩
    · simp only [h.arrived, hfilled, List.append_assoc, List.singleton_append]
    · simp only [List.length_append, List.length_singleton]
      omega
    · rw [List.length_append, List.length_singleton, Nat.add_assoc ready.length, Nat.add_comm 1]
      simp only [h.head, hfilled, List.length_cons]
    · rw [List.length_append, List.length_singleton, ← Nat.add_assoc, ← cell_succ, ← h.back]
    · intro j g hj
      rcases Nat.lt_or_ge j ready.length with hlt | hge
      · have hapart : cell ring (returned.length + held.length + j) ≠ s.back := by
          rw [h.back]
          exact cell_apart (by omega) (by simp only [ring]; omega) (by simp only [ring]; omega)
        have hold := h.descs j g (by rwa [List.getElem?_append_left hlt] at hj)
        exact (Function.update_of_ne hapart ..).trans hold
      · have hlast := (List.getElem?_eq_some_iff.mp hj).1
        rw [List.length_append, List.length_singleton] at hlast
        have hj' : j = ready.length := by omega
        rw [hj', List.getElem?_concat_length] at hj
        cases hj
        rw [hj', ← h.back]
        exact Function.update_self ..
    · intro j hj hlt
      rw [List.length_append, List.length_singleton] at hj
      have hapart : cell ring (returned.length + held.length + j) ≠ s.back := by
        rw [h.back]
        exact cell_apart (by omega) hlt (by simp only [ring]; omega)
      exact (congrArg RxDesc.dd (Function.update_of_ne hapart ..)).trans (h.free j (by omega) hlt)
    · intro j g hj
      refine h.bufs j g ?_
      rw [hfilled]
      simpa using hj
    · exact phaseOk_append h.phase f

theorem step_synced {a : Act} (h : s.Synced returned held ready) (hs : step s a = some s') :
    ∃ returned' held' ready', s'.Synced returned' held' ready' ∧
      returned'.length = returned.length + if a = .tail then 1 else 0 := by
  cases a with
  | receive =>
    simp only [step] at hs
    split at hs
    · next hphase =>
      cases hs
      exact ⟨_, _, _, receive_synced h hphase, rfl⟩
    · cases hs
  | readErrors =>
    simp only [step] at hs
    split at hs
    · next eop hphase =>
      cases hs
      exact ⟨_, _, _, readErrors_synced h hphase, rfl⟩
    · cases hs
  | readLength =>
    simp only [step] at hs
    split at hs
    · next eop errors hphase =>
      cases hs
      exact ⟨_, _, _, readLength_synced h hphase, rfl⟩
    · cases hs
  | copy =>
    simp only [step] at hs
    split at hs
    · next len hphase =>
      cases hs
      exact ⟨_, _, _, copy_synced h hphase, rfl⟩
    · cases hs
  | clear =>
    simp only [step] at hs
    split at hs
    · next tok hphase =>
      cases hs
      have hp := h.phase
      rw [hphase] at hp
      obtain ⟨rfl, f, hf, htok⟩ := hp
      obtain ⟨rest, rfl⟩ := List.head?_eq_some_iff.mp hf
      exact ⟨_, _, _, clear_synced h htok, rfl⟩
    · cases hs
  | tail =>
    simp only [step] at hs
    split at hs
    · next tok hphase =>
      cases hs
      obtain ⟨f, rfl, hsync⟩ := tail_synced h hphase
      exact ⟨_, _, _, hsync, by simp⟩
    · cases hs
  | arrive f => exact ⟨_, _, _, arrive_synced h hs, rfl⟩
  | writeBack =>
    obtain ⟨f, -, hsync⟩ := writeBack_synced h hs
    exact ⟨_, _, _, hsync, rfl⟩

end Steps

/-- The descriptors that the driver has returned in a run. -/
def returns (ts : List (Trans State Act)) : ℕ := ts.countP fun t => t.act = .tail

theorem run_synced {ts : List (Trans State Act)} (h : Path step init ts s) :
    ∃ returned held ready, s.Synced returned held ready ∧ returned.length = returns ts := by
  induction h with
  | nil => exact ⟨_, _, _, init_synced, rfl⟩
  | snoc a _ hs ih =>
    obtain ⟨returned, held, ready, hsync, hlen⟩ := ih
    obtain ⟨returned', held', ready', hsync', hlen'⟩ := step_synced hsync hs
    refine ⟨returned', held', ready', hsync', ?_⟩
    rw [hlen', hlen, returns, returns, List.countP_append, List.countP_singleton]
    simp only [decide_eq_true_eq]

structure Alone (s : State) (us : List (Trans State Act)) (s' : State) : Prop where
  path : Path step s us s'
  driver : ∀ t ∈ us, t.act.ofDriver = true
  arrived : s'.arrived = s.arrived
  filled : s'.filled = s.filled

theorem Alone.refl (s : State) : Alone s [] s := ⟨.nil, by simp, rfl, rfl⟩

theorem Alone.snoc {us : List (Trans State Act)} {m : State} (h : Alone s us m) (a : Act)
    (ha : a.ofDriver = true) (hs : step m a = some s') (harrived : s'.arrived = m.arrived)
    (hfilled : s'.filled = m.filled) : Alone s (us ++ [⟨m, a, s'⟩]) s' := by
  refine ⟨h.path.snoc a hs, ?_, harrived.trans h.arrived, hfilled.trans h.filled⟩
  intro t ht
  rcases List.mem_append.mp ht with ht | ht
  · exact h.driver t ht
  · rw [List.mem_singleton.mp ht]
    exact ha

theorem Alone.trans {us vs : List (Trans State Act)} {m : State} (h : Alone s us m)
    (h' : Alone m vs s') : Alone s (us ++ vs) s' := by
  refine ⟨h.path.append h'.path, ?_, h'.arrived.trans h.arrived, h'.filled.trans h.filled⟩
  intro t ht
  exact (List.mem_append.mp ht).elim (h.driver t) (h'.driver t)

theorem receive_taken {rest : List Fragment} (h : s.Synced returned [] (f :: rest))
    (hphase : s.phase = .idle) : ∃ us s' tok, Alone s us s' ∧ s'.Synced returned [] (f :: rest) ∧
    s'.phase = .taken tok := by
  have hdesc : s.descs s.rxI = f.desc := own_desc h rfl
  have hdone : s.receive = { s with phase := .done f.eop } := by
    rw [State.receive, hdesc]
    rfl
  have hstart : step s .receive = some { s with phase := .done f.eop } := by
    rw [← hdone]
    simp only [step, hphase, if_true]
  have h₁ := receive_synced h hphase
  rw [hdone] at h₁
  have a₁ : Alone s _ { s with phase := .done f.eop } :=
    (Alone.refl s).snoc .receive rfl hstart rfl rfl
  have h₂ := readErrors_synced h₁ rfl
  have a₂ : Alone s _ { s with phase := .judged f.eop (s.descs s.rxI).errors } :=
    a₁.snoc .readErrors rfl rfl rfl rfl
  have h₃ := readLength_synced h₂ rfl
  cases hbad : bad f.eop (s.descs s.rxI).errors (s.descs s.rxI).length with
  | true =>
    simp only [State.readLength, hbad, if_true] at h₃
    have a₃ : Alone s _ { s with phase := .taken none } :=
      a₂.snoc .readLength rfl (by simp only [step, State.readLength, hbad, if_true]) rfl rfl
    exact ⟨_, _, none, a₃, h₃, rfl⟩
  | false =>
    simp only [State.readLength, hbad, Bool.false_eq_true, if_false] at h₃
    have a₃ : Alone s _ { s with phase := .copying (s.descs s.rxI).length } :=
      a₂.snoc .readLength rfl (by simp only [step, State.readLength, hbad, Bool.false_eq_true,
        if_false]) rfl rfl
    exact ⟨_, _, _, a₃.snoc .copy rfl rfl rfl rfl, copy_synced h₃ rfl, rfl⟩

theorem receive_next {rest : List Fragment} (h : s.Synced returned [] (f :: rest))
    (hphase : s.phase = .idle) : ∃ us s', Alone s us s' ∧ s'.Synced (returned ++ [f]) [] rest ∧
    s'.phase = .idle := by
  obtain ⟨us, m, tok, halone, hm, htaken⟩ := receive_taken h hphase
  have hp := hm.phase
  rw [htaken] at hp
  obtain ⟨-, g, hg, htok⟩ := hp
  obtain rfl := Option.some.inj hg
  have hclear := clear_synced hm htok
  have a₁ : Alone s _ (m.clear tok) := halone.snoc .clear rfl (by simp only [step, htaken]) rfl rfl
  have a₂ : Alone s _ ((m.clear tok).tail tok) := a₁.snoc .tail rfl rfl rfl rfl
  have hcleared : (m.clear tok).phase = .cleared tok := rfl
  obtain ⟨g', hheld, htail⟩ := tail_synced hclear hcleared
  obtain rfl := List.singleton_inj.mp hheld
  exact ⟨_, _, a₂, htail, rfl⟩

theorem catches_up (h : s.Synced returned [] ready) (hphase : s.phase = .idle) :
    ∃ us s', Alone s us s' ∧ s'.Synced (returned ++ ready) [] [] := by
  induction ready generalizing s returned with
  | nil => exact ⟨_, s, Alone.refl s, by rwa [List.append_nil]⟩
  | cons f rest ih =>
    obtain ⟨us, m, halone, hm, hidle⟩ := receive_next h hphase
    obtain ⟨vs, s', hrest, hlast⟩ := ih hm hidle
    rw [List.append_assoc, List.singleton_append] at hlast
    exact ⟨_, s', halone.trans hrest, hlast⟩

/-- However the device and the driver interleave, the frames handed to the stack are the good ones
among the first fragments to arrive, one for each descriptor that was returned; a frame is refused
only when 31 descriptors are in use; and calls of `receive` bring out all that was written back. -/
theorem receive_exact {ts : List (Trans State Act)} (h : Path step init ts s) :
    s.handed = (s.arrived.take (returns ts)).filterMap Fragment.frame ∧
    (∀ f, (s.arrive f).isSome = true ↔ s.arrived.length < returns ts + 31) ∧
    (s.phase = .idle → ∃ us s', Path step s us s' ∧ (∀ t ∈ us, t.act.ofDriver = true) ∧
      s'.arrived = s.arrived ∧ s'.handed ++ s.filled.filterMap Fragment.frame =
        s.arrived.filterMap Fragment.frame) := by
  obtain ⟨returned, held, ready, hsync, hlen⟩ := run_synced h
  rw [← hlen]
  refine ⟨?_, arrive_isSome_iff hsync, ?_⟩
  · rw [hsync.handed, hsync.arrived, List.append_assoc, List.append_assoc, List.take_left]
  · intro hidle
    have hheld : held = [] := by
      have hp := hsync.phase
      rwa [hidle] at hp
    subst hheld
    obtain ⟨us, s', halone, hlast⟩ := catches_up hsync hidle
    refine ⟨us, s', halone.path, halone.driver, halone.arrived, ?_⟩
    rw [hlast.handed, hsync.arrived, List.append_nil]
    exact List.filterMap_append.symm

def twoFragments : List Act :=
  [.arrive ⟨[7], true, 1, by decide⟩, .writeBack, .receive, .readErrors,
    .arrive ⟨[1, 2], true, 0, by decide⟩, .readLength, .clear, .writeBack, .tail, .receive,
    .readErrors, .readLength, .copy, .clear, .tail]

theorem two_fragments_received : ∃ ts s, Path step init ts s ∧ s.handed = [[1, 2]] ∧
    s.handed = (s.arrived.take (returns ts)).filterMap Fragment.frame := by
  obtain ⟨r, h, hp⟩ :=
    exists_path_of_replay step init twoFragments (fun r => r.2.handed = [[1, 2]]) (by decide)
  exact ⟨r.1, r.2, h, of_decide_eq_true hp, (receive_exact h).1⟩

end CoeleoOs.Net.E1000e.Rx
