import Mathlib.Data.List.Basic
import Mathlib.Logic.Function.Basic
import Mathlib.Order.Nat

/-!
# The byte rings of the PS/2 driver

The interrupt handlers push the bytes of the controller, and a push onto a full ring gives up the
oldest byte. The mouse is read outside of them: `pop_ring` reads the tail, reads the head, reads the
byte and stores the tail, and bytes may be pushed between any two of these.
-/

namespace CoeleoOs.Input.Ps2

def queueCap : ℕ := 64

/-- Where a call of `pop_ring` stands, with what it has read. -/
inductive Phase
  | idle
  | tailRead (t : ℕ)
  | checked (t : ℕ)
  | byteRead (t : ℕ) (byte : UInt8)
  deriving DecidableEq

/-- The ring and the call that reads it. `arrived` and `handed` are all the bytes pushed and popped
so far, `dropped` the pushes onto a full ring, `passed` those of them since the call has read the
tail; a call is overtaken when they are two or more. -/
structure State where
  q : ℕ → UInt8
  head : ℕ
  tail : ℕ
  phase : Phase
  arrived : List UInt8
  handed : List UInt8
  dropped : ℕ
  passed : ℕ
  overtaken : Bool

inductive Act
  | push (byte : UInt8)
  | pop
  deriving DecidableEq

def start : State := ⟨fun _ => 0, 0, 0, .idle, [], [], 0, 0, false⟩

namespace State

def pushRing (s : State) (byte : UInt8) : State :=
  let next := (s.head + 1) % queueCap
  let full := if next = s.tail then 1 else 0
  { s with
    tail := if next = s.tail then (s.tail + 1) % queueCap else s.tail
    q := Function.update s.q s.head byte
    head := next
    arrived := s.arrived ++ [byte]
    dropped := s.dropped + full
    passed := s.passed + full }

/-- The next access of `pop_ring`. -/
def popRing (s : State) : State :=
  match s.phase with
  | .idle => { s with phase := .tailRead s.tail, passed := 0 }
  | .tailRead t => { s with phase := if t = s.head then .idle else .checked t }
  | .checked t => { s with phase := .byteRead t (s.q t) }
  | .byteRead t byte =>
    { s with
      tail := (t + 1) % queueCap
      phase := .idle
      handed := s.handed ++ [byte]
      overtaken := s.overtaken || decide (2 ≤ s.passed) }

def act (s : State) : Act → State
  | .push byte => s.pushRing byte
  | .pop => s.popRing

def run (s : State) (acts : List Act) : State := acts.foldl act s

def size (s : State) : ℕ := (s.head + queueCap - s.tail) % queueCap

/-- The bytes that are in the ring, the oldest first. -/
def contents (s : State) : List UInt8 :=
  (List.range s.size).map fun i => s.q ((s.tail + i) % queueCap)

end State

def Reading (s : State) (bytes t₀ : ℕ) : Prop :=
  match s.phase with
  | .idle => t₀ = bytes
  | .tailRead t => bytes = t₀ + s.passed ∧ t = t₀ % queueCap
  | .checked t => bytes = t₀ + s.passed ∧ t = t₀ % queueCap ∧ t₀ < s.arrived.length
  | .byteRead t byte => bytes = t₀ + s.passed ∧
      ∃ j, t₀ ≤ j ∧ j % queueCap = t ∧ t = t₀ % queueCap ∧ s.arrived[j]? = some byte

structure Synced (s : State) (bytes t₀ : ℕ) : Prop where
  head_eq : s.head = s.arrived.length % queueCap
  tail_eq : s.tail = bytes % queueCap
  le : bytes ≤ s.arrived.length
  near : s.arrived.length < bytes + queueCap
  cells : ∀ i < s.arrived.length, s.arrived.length ≤ i + queueCap →
    s.arrived[i]? = some (s.q (i % queueCap))
  reading : Reading s bytes t₀
  start_le : t₀ ≤ bytes
  handed : s.handed.Sublist (s.arrived.take t₀)
  ledger : s.overtaken = false → bytes ≤ s.handed.length + s.dropped
  passed_le : s.passed ≤ s.dropped
  overtaken : s.overtaken = true → 0 < s.dropped
  full : s.phase ≠ .idle → 0 < s.passed → s.arrived.length + 1 = bytes + queueCap

variable {s : State} {bytes t₀ : ℕ}

theorem start_synced : Synced start 0 0 where
  head_eq := rfl
  tail_eq := rfl
  le := le_rfl
  near := by decide
  cells := fun i hi => absurd hi (Nat.not_lt_zero i)
  reading := rfl
  start_le := le_rfl
  handed := .slnil
  ledger := fun _ => le_rfl
  passed_le := le_rfl
  overtaken := fun h => absurd h Bool.false_ne_true
  full := fun h => absurd rfl h

section Push

theorem Synced.full_iff (h : Synced s bytes t₀) :
    (s.head + 1) % queueCap = s.tail ↔ s.arrived.length + 1 = bytes + queueCap := by
  have hhead := h.head_eq
  have htail := h.tail_eq
  have hle := h.le
  have hnear := h.near
  simp only [queueCap] at *
  omega

theorem Synced.push_cells (h : Synced s bytes t₀) (byte : UInt8) {i : ℕ}
    (hi : i < (s.arrived ++ [byte]).length) (hnear : (s.arrived ++ [byte]).length ≤ i + queueCap) :
    (s.arrived ++ [byte])[i]? = some (Function.update s.q s.head byte (i % queueCap)) := by
  have hhead := h.head_eq
  rw [List.length_append, List.length_singleton] at hi hnear
  rcases Nat.lt_or_ge i s.arrived.length with hlt | hge
  · have hne : i % queueCap ≠ s.head := by
      simp only [queueCap] at *
      omega
    rw [List.getElem?_append_left hlt, Function.update_of_ne hne]
    exact h.cells i hlt (by omega)
  · obtain rfl : i = s.arrived.length := by omega
    rw [List.getElem?_concat_length, hhead, Function.update_self]

theorem Synced.push_reading (h : Synced s bytes t₀) (byte : UInt8) {more : ℕ}
    (hpassed : (s.pushRing byte).passed = s.passed + more) (hidle : s.phase ≠ .idle) :
    Reading (s.pushRing byte) (bytes + more) t₀ := by
  have hlen : (s.pushRing byte).arrived = s.arrived ++ [byte] := rfl
  have hphase : (s.pushRing byte).phase = s.phase := rfl
  have hreading := h.reading
  simp only [Reading, hphase, hpassed, hlen] at hreading ⊢
  split at hreading
  · next hs => exact absurd hs hidle
  · next t hs =>
    obtain ⟨hbytes, ht⟩ := hreading
    exact ⟨by omega, ht⟩
  · next t hs =>
    obtain ⟨hbytes, ht, hlt⟩ := hreading
    rw [List.length_append]
    exact ⟨by omega, ht, by omega⟩
  · next t b hs =>
    obtain ⟨hbytes, j, hj, hjt, ht, hb⟩ := hreading
    refine ⟨by omega, j, hj, hjt, ht, ?_⟩
    have hlt : j < s.arrived.length := (List.getElem?_eq_some_iff.mp hb).1
    rw [List.getElem?_append_left hlt, hb]

theorem Synced.push (h : Synced s bytes t₀) (byte : UInt8) :
    ∃ bytes' t₀', Synced (s.pushRing byte) bytes' t₀' := by
  obtain ⟨more, hmore⟩ : ∃ more, more = if (s.head + 1) % queueCap = s.tail then 1
      else 0 := ⟨_, rfl⟩
  have hpassed : (s.pushRing byte).passed = s.passed + more := by
    rw [hmore]
    rfl
  have hdropped : (s.pushRing byte).dropped = s.dropped + more := by
    rw [hmore]
    rfl
  have hlen : (s.pushRing byte).arrived.length = s.arrived.length + 1 := List.length_append
  have hcase :
      (more = 1 ∧ s.arrived.length + 1 = bytes + queueCap ∧ (s.pushRing byte).tail =
        (s.tail + 1) % queueCap) ∨ (more = 0 ∧ s.arrived.length + 1 ≠ bytes + queueCap ∧
        (s.pushRing byte).tail = s.tail) := by
    by_cases hfull : (s.head + 1) % queueCap = s.tail
    · exact .inl ⟨by rw [hmore, if_pos hfull], h.full_iff.mp hfull, if_pos hfull⟩
    · exact .inr ⟨by rw [hmore, if_neg hfull], mt h.full_iff.mpr hfull, if_neg hfull⟩
  have htake : s.handed.Sublist ((s.arrived ++ [byte]).take t₀) := by
    rw [List.take_append_of_le_length (h.start_le.trans h.le)]
    exact h.handed
  have hall : ∀ t₁, t₀ ≤ t₁ → t₁ ≤ bytes + more → Reading (s.pushRing byte) (bytes + more) t₁ →
      Synced (s.pushRing byte) (bytes + more) t₁ := by
    intro t₁ hlo hhi hreading
    have hhead := h.head_eq
    have htail := h.tail_eq
    have hle := h.le
    have hnear := h.near
    have hq : queueCap = 64 := rfl
    refine ⟨?_, ?_, ?_, ?_, fun i hi hnear => h.push_cells byte hi hnear, hreading, hhi, ?_,
      ?_, ?_, ?_, ?_⟩
    · show (s.head + 1) % queueCap = _
      rw [hlen, hhead, Nat.mod_add_mod]
    · rcases hcase with ⟨rfl, -, htail'⟩ | ⟨rfl, -, htail'⟩
      · rw [htail', htail, Nat.mod_add_mod]
      · rw [htail', htail, Nat.add_zero]
    · omega
    · omega
    · exact htake.trans (List.take_sublist_take_left hlo)
    · intro hnot
      have hledger := h.ledger hnot
      rw [hdropped]
      show bytes + more ≤ s.handed.length + (s.dropped + more)
      omega
    · have hpassed_le := h.passed_le
      omega
    · intro hover
      have hpos := h.overtaken hover
      omega
    · intro hidle hpos
      rcases Nat.eq_zero_or_pos s.passed with hzero | hpos'
      · omega
      · have hfull := h.full hidle hpos'
        omega
  by_cases hidle : s.phase = .idle
  · have hreading : Reading (s.pushRing byte) (bytes + more) (bytes + more) := by
      have hphase : (s.pushRing byte).phase = .idle := hidle
      simp only [Reading, hphase]
    exact ⟨bytes + more, bytes + more, hall _ (h.start_le.trans (Nat.le_add_right _ _))
      le_rfl hreading⟩
  · exact ⟨bytes + more, t₀, hall t₀ le_rfl (h.start_le.trans (Nat.le_add_right _ _))
      (h.push_reading byte hpassed hidle)⟩

end Push

section Pop

theorem Synced.cell_read (h : Synced s bytes t₀) (hlt : t₀ < s.arrived.length) :
    ∃ j, t₀ ≤ j ∧ j % queueCap = t₀ % queueCap ∧ s.arrived[j]? = some (s.q (t₀ % queueCap)) := by
  have hq : queueCap = 64 := rfl
  refine ⟨t₀ + queueCap * ((s.arrived.length - 1 - t₀) / queueCap), Nat.le_add_right _ _,
    Nat.add_mul_mod_self_left .., ?_⟩
  have hcell :=
    h.cells (t₀ + queueCap * ((s.arrived.length - 1 - t₀) / queueCap)) (by rw [hq]; omega)
      (by rw [hq]; omega)
  rw [hcell, Nat.add_mul_mod_self_left]

theorem take_snoc_sublist {l handed : List UInt8} {i j : ℕ} {b : UInt8}
    (h : handed.Sublist (l.take i)) (hij : i ≤ j) (hb : l[j]? = some b) :
    (handed ++ [b]).Sublist (l.take (j + 1)) := by
  obtain ⟨hlt, hget⟩ := List.getElem?_eq_some_iff.mp hb
  rw [List.take_succ_eq_append_getElem hlt, hget]
  exact (h.trans (List.take_sublist_take_left hij)).append (List.Sublist.refl [b])

theorem Synced.store (h : Synced s bytes t₀) {t : ℕ} {byte : UInt8}
    (hphase : s.phase = .byteRead t byte) : ∃ bytes', Synced s.popRing bytes' bytes' ∧
    (2 ≤ s.passed → s.arrived.length = bytes' + (s.passed - 2) % queueCap) := by
  have hreading := h.reading
  simp only [Reading, hphase] at hreading
  obtain ⟨hbytes, j, hj, hjt, ht, hb⟩ := hreading
  have hjlt : j < s.arrived.length := (List.getElem?_eq_some_iff.mp hb).1
  have hpop : s.popRing = { s with
      tail := (t + 1) % queueCap
      phase := .idle
      handed := s.handed ++ [byte]
      overtaken := s.overtaken || decide (2 ≤ s.passed) } := by
    simp only [State.popRing, hphase]
  have hidle : s.phase ≠ .idle := by
    rw [hphase]
    exact Phase.noConfusion
  have hfull := h.full hidle
  have hle := h.le
  have hnear := h.near
  have hpassed := h.passed_le
  have hq : queueCap = 64 := rfl
  obtain ⟨bytes', hbytes'⟩ :
      ∃ n, n = j + 1 + queueCap * ((s.arrived.length - (j + 1)) / queueCap) := ⟨_, rfl⟩
  rw [hpop]
  refine ⟨bytes', ⟨h.head_eq, ?_, ?_, ?_, h.cells, rfl, le_rfl, ?_, ?_, h.passed_le, ?_,
    fun hne => absurd rfl hne⟩, ?_⟩
  · show (t + 1) % queueCap = bytes' % queueCap
    rw [hbytes', Nat.add_mul_mod_self_left, ← hjt, Nat.mod_add_mod]
  · show bytes' ≤ s.arrived.length
    rw [hbytes', hq]
    omega
  · show s.arrived.length < bytes' + queueCap
    rw [hbytes', hq]
    omega
  · refine (take_snoc_sublist h.handed hj hb).trans (List.take_sublist_take_left ?_)
    rw [hbytes']
    exact Nat.le_add_right _ _
  · intro hnot
    obtain ⟨hbefore, hnow⟩ := Bool.or_eq_false_iff.mp hnot
    have hledger := h.ledger hbefore
    have hsmall := of_decide_eq_false hnow
    show bytes' ≤ (s.handed ++ [byte]).length + s.dropped
    rw [List.length_append, List.length_singleton]
    simp only [queueCap] at hbytes' hjt ht hnear
    omega
  · intro hover
    rcases Bool.or_eq_true_iff.mp hover with hbefore | hnow
    · exact h.overtaken hbefore
    · have htwo := of_decide_eq_true hnow
      show 0 < s.dropped
      omega
  · intro htwo
    have hround := hfull (by omega)
    simp only [queueCap] at hbytes' hjt ht hnear hround ⊢
    show s.arrived.length = bytes' + (s.passed - 2) % 64
    omega

theorem Synced.pop (h : Synced s bytes t₀) : ∃ bytes' t₀', Synced s.popRing bytes' t₀' := by
  have hreading := h.reading
  rcases hphase : s.phase with _ | t | t | ⟨t, byte⟩
  · simp only [Reading, hphase] at hreading
    subst hreading
    refine ⟨t₀, t₀, ?_⟩
    simp only [State.popRing, hphase]
    exact ⟨h.head_eq, h.tail_eq, h.le, h.near, h.cells, ⟨rfl, h.tail_eq⟩, le_rfl, h.handed,
      h.ledger, Nat.zero_le _, h.overtaken, fun _ hpos => absurd hpos (Nat.lt_irrefl 0)⟩
  · simp only [Reading, hphase] at hreading
    obtain ⟨hbytes, ht⟩ := hreading
    simp only [State.popRing, hphase]
    by_cases hempty : t = s.head
    · refine ⟨bytes, bytes, ?_⟩
      simp only [if_pos hempty]
      exact ⟨h.head_eq, h.tail_eq, h.le, h.near, h.cells, rfl, le_rfl,
        h.handed.trans (List.take_sublist_take_left h.start_le), h.ledger, h.passed_le, h.overtaken,
        fun hne => absurd rfl hne⟩
    · have hlt : t₀ < s.arrived.length := by
        refine lt_of_le_of_ne (h.start_le.trans h.le) fun heq => hempty ?_
        rw [ht, h.head_eq, heq]
      refine ⟨bytes, t₀, ?_⟩
      simp only [if_neg hempty]
      have hidle : s.phase ≠ .idle := by
        rw [hphase]
        exact Phase.noConfusion
      exact ⟨h.head_eq, h.tail_eq, h.le, h.near, h.cells, ⟨hbytes, ht, hlt⟩, h.start_le, h.handed,
        h.ledger, h.passed_le, h.overtaken, fun _ => h.full hidle⟩
  · simp only [Reading, hphase] at hreading
    obtain ⟨hbytes, ht, hlt⟩ := hreading
    obtain ⟨j, hj, hjt, hb⟩ := h.cell_read hlt
    refine ⟨bytes, t₀, ?_⟩
    simp only [State.popRing, hphase]
    have hidle : s.phase ≠ .idle := by
      rw [hphase]
      exact Phase.noConfusion
    refine ⟨h.head_eq, h.tail_eq, h.le, h.near, h.cells, ⟨hbytes, j, hj, ?_, ht, ?_⟩, h.start_le,
      h.handed, h.ledger, h.passed_le, h.overtaken, fun _ => h.full hidle⟩
    · rw [hjt, ht]
    · rw [hb, ht]
  · obtain ⟨bytes', hsynced, -⟩ := h.store hphase
    exact ⟨bytes', bytes', hsynced⟩

end Pop

section Run

theorem run_synced (h : Synced s bytes t₀) (acts : List Act) :
    ∃ bytes' t₀', Synced (s.run acts) bytes' t₀' := by
  induction acts generalizing s bytes t₀ with
  | nil => exact ⟨bytes, t₀, h⟩
  | cons a acts ih =>
    cases a with
    | push byte =>
      obtain ⟨bytes', t₀', h'⟩ := h.push byte
      exact ih h'
    | pop =>
      obtain ⟨bytes', t₀', h'⟩ := h.pop
      exact ih h'

theorem Synced.size_eq (h : Synced s bytes t₀) : s.size = s.arrived.length - bytes := by
  have hhead := h.head_eq
  have htail := h.tail_eq
  have hle := h.le
  have hnear := h.near
  rw [State.size]
  simp only [queueCap] at *
  omega

theorem Synced.contents_eq (h : Synced s bytes t₀) : s.contents = s.arrived.drop bytes := by
  refine List.ext_getElem? fun i => ?_
  rw [State.contents, List.getElem?_map, h.size_eq, List.getElem?_drop]
  rcases Nat.lt_or_ge i (s.arrived.length - bytes) with hlt | hge
  · have hnear := h.near
    rw [List.getElem?_range hlt, Option.map_some, h.tail_eq, Nat.mod_add_mod,
      h.cells (bytes + i) (by omega) (by omega)]
  · rw [List.getElem?_eq_none (by rw [List.length_range]; exact hge),
      List.getElem?_eq_none (by omega), Option.map_none]

/-- In whatever order bytes are pushed between the accesses of `pop_ring`, no byte is handed out
twice or before an earlier one, and the ring has the newest bytes. As long as no call is overtaken,
only a push onto a full ring costs a byte, and a ring that is never full loses none. A call that is
overtaken leaves all but two of the bytes it was overtaken by. -/
theorem bytes_in_order (acts : List Act) :
    let s := start.run acts
    (s.handed ++ s.contents).Sublist s.arrived ∧ s.contents <:+ s.arrived ∧
      (s.overtaken = false → s.arrived.length ≤ s.handed.length + s.contents.length + s.dropped) ∧
      (s.dropped = 0 → s.handed ++ s.contents = s.arrived) ∧
      ∀ t byte, s.phase = .byteRead t byte → 2 ≤ s.passed → s.popRing.contents.length =
        (s.passed - 2) % queueCap := by
  obtain ⟨bytes, t₀, h⟩ := run_synced start_synced acts
  have hhanded : (start.run acts).handed.Sublist ((start.run acts).arrived.take bytes) :=
    h.handed.trans (List.take_sublist_take_left h.start_le)
  have hsub :
      ((start.run acts).handed ++ (start.run acts).contents).Sublist (start.run acts).arrived := by
    have happend := hhanded.append (List.Sublist.refl ((start.run acts).arrived.drop bytes))
    rw [List.take_append_drop] at happend
    rwa [h.contents_eq]
  have hlen : (start.run acts).contents.length = (start.run acts).arrived.length - bytes := by
    rw [h.contents_eq, List.length_drop]
  have hle := h.le
  refine ⟨hsub, ?_, fun hnot => ?_, fun hzero => ?_, fun t byte hphase htwo => ?_⟩
  · rw [h.contents_eq]
    exact List.drop_suffix _ _
  · have hledger := h.ledger hnot
    omega
  · have hnot : (start.run acts).overtaken = false := by
      refine eq_false_of_ne_true fun hover => ?_
      have hpos := h.overtaken hover
      omega
    have hledger := h.ledger hnot
    refine hsub.eq_of_length_le ?_
    rw [List.length_append]
    omega
  · obtain ⟨bytes', hstored, hround⟩ := h.store hphase
    have hsize : (start.run acts).popRing.arrived = (start.run acts).arrived := by
      simp only [State.popRing, hphase]
    rw [hstored.contents_eq, List.length_drop, hsize, hround htwo, Nat.add_sub_cancel_left]

def busyMouse : List Act := List.replicate 63 (.push 8) ++ [.pop, .pop, .pop, .push 9, .push 10]

theorem busyMouse_emptied :
    (start.run busyMouse).phase = .byteRead 0 8 ∧ (start.run busyMouse).contents.length = 63 ∧
      (start.run busyMouse).popRing.contents.length = 0 := by
  have hphase : (start.run busyMouse).phase = .byteRead 0 8 := by decide +kernel
  have htwo : (start.run busyMouse).passed = 2 := by decide +kernel
  have hleft := (bytes_in_order busyMouse).2.2.2.2 0 8 hphase (by rw [htwo])
  rw [htwo] at hleft
  exact ⟨hphase, by decide +kernel, hleft⟩

end Run

end CoeleoOs.Input.Ps2
