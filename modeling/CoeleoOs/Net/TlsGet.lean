import CoeleoOs.Net.HttpGet
import Mathlib.Algebra.Order.BigOperators.Group.List

/-!
# The receive loop of `tls_get`

The TLS loop reads records through a buffer of 8 KiB, and it takes the close for the end of the
response also where the response is shorter than announced. `rustls` is a parameter: what its
connection says about a buffer. A session yields the payload of every record that it is given in
full.
-/

namespace CoeleoOs.Net
open CoeleoOs.Lib.Text (utf8)
open CoeleoOs.Task (Bytes HttpError)

def incomingMax : ℕ := 8192

inductive ConnState (κ : Type)
  | encode (n : Option ℕ)
  | transmit
  | blockedHandshake
  | writeTraffic (n : Option ℕ) (sent : κ)
  | readTraffic (records : List (Option (ℕ × Bytes)))
  | closed
  | other

structure Processed (κ : Type) where
  discard : ℕ
  state : Option (ConnState κ)
  conn : κ

structure Rustls (κ : Type) where
  process : κ → Bytes → Processed κ

structure TlsState (κ : Type) where
  conn : κ
  incoming : Bytes
  outgoingLen : ℕ
  outgoingSent : ℕ
  reqQueued : Bool
  rxBody : Bytes
  deriving DecidableEq

inductive Round (κ : Type)
  | ret (r : Except HttpError Bytes)
  | go (st : TlsState κ)
  deriving DecidableEq

def readRecords : List (Option (ℕ × Bytes)) → ℕ → Bytes → Option (ℕ × Bytes)
  | [], discard, rx => some (discard, rx)
  | none :: _, _, _ => none
  | some (n, payload) :: rs, discard, rx => readRecords rs (discard + n) (grow rx payload)

def closedAnswer (rx : Bytes) : Except HttpError Bytes :=
  match splitHead rx with
  | some (head, bodyStart) =>
    let body := rx.drop bodyStart
    let want := min (head.contentLength.getD body.length) bodyCap
    .ok (body.take (min body.length want))
  | none => .error .failed

def fullBody (rx : Bytes) : Option Bytes :=
  match splitHead rx with
  | some (head, bodyStart) =>
    let body := rx.drop bodyStart
    match head.contentLength with
    | some len =>
      let want := min len bodyCap
      if want ≤ body.length then some (body.take want) else none
    | none => none
  | none => none

namespace TlsState

variable {κ : Type}

def sendOut (st : TlsState κ) (p : Poll) : Option (TlsState κ) :=
  if st.outgoingSent < st.outgoingLen then
    if !p.isOpen then none
    else if p.maySend then p.send.map fun n => { st with outgoingSent := st.outgoingSent + n }
    else some st
  else some st

def discard (st : TlsState κ) (n : ℕ) : TlsState κ :=
  if 0 < n ∧ n ≤ st.incoming.length then { st with incoming := st.incoming.drop n } else st

def drive (tls : Rustls κ) (st : TlsState κ) : Round κ :=
  let r := tls.process st.conn st.incoming
  match r.state with
  | none => .ret (.error .https)
  | some (.encode none) => .ret (.error .https)
  | some (.encode (some n)) =>
    .go (discard { st with conn := r.conn, outgoingLen := n, outgoingSent := 0 } r.discard)
  | some (.writeTraffic n sent) =>
    if st.reqQueued then .go (discard { st with conn := r.conn } r.discard)
    else
      match n with
      | none => .ret (.error .https)
      | some n =>
        .go (discard { st with
          conn := sent, outgoingLen := n, outgoingSent := 0, reqQueued := true } r.discard)
  | some (.readTraffic records) =>
    match readRecords records r.discard st.rxBody with
    | none => .ret (.error .https)
    | some (n, rx) => .go (discard { st with conn := r.conn, rxBody := rx } n)
  | some .closed => .ret (closedAnswer st.rxBody)
  | some .transmit | some .blockedHandshake | some .other =>
    .go (discard { st with conn := r.conn } r.discard)

def check (st : TlsState κ) : Round κ :=
  if st.reqQueued then
    match fullBody st.rxBody with
    | some body => .ret (.ok body)
    | none => .go st
  else .go st

end TlsState

def tlsRound {κ : Type} (tls : Rustls κ) (st : TlsState κ) (p : Poll) : Round κ :=
  if p.expired then .ret (.error .timeout)
  else
    match st.sendOut p with
    | none => .ret (.error .failed)
    | some st =>
      match (if st.incoming.length < incomingMax then p.got else some []) with
      | none => .ret (.error .failed)
      | some chunk =>
        let st := { st with incoming := st.incoming ++ chunk }
        if st.outgoingLen ≤ st.outgoingSent then
          match st.drive tls with
          | .ret r => .ret r
          | .go st => st.check
        else st.check

def tlsLoop {κ : Type} (tls : Rustls κ) : TlsState κ → List Poll → Option (Except HttpError Bytes)
  | _, [] => none
  | st, p :: ps =>
    match tlsRound tls st p with
    | .ret r => some r
    | .go st => tlsLoop tls st ps

/-- One record on the wire, and what is in it. -/
structure Record where
  wire : Bytes
  payload : Bytes
  deriving DecidableEq

def payloads (recs : List Record) : Bytes := recs.flatMap Record.payload

def wireOf (close : Bytes) (recs : List Record) : Bytes := recs.flatMap Record.wire ++ close

/-- The connection yields what it is given in full, and waits for the rest. -/
structure Session {κ : Type} (tls : Rustls κ) (close : Bytes) (Traffic : κ → List Record → Prop) :
    Prop where
  close_fits : close.length ≤ incomingMax
  record_ne : ∀ c recs, Traffic c recs → ∀ r ∈ recs, r.wire ≠ []
  yields : ∀ c r rs buf, Traffic c (r :: rs) → buf <+: wireOf close (r :: rs) → r.wire <+: buf →
    ∃ (done rest : List Record) (out : List (ℕ × Bytes)), done ≠ [] ∧ r :: rs = done ++ rest ∧
    done.flatMap Record.wire <+: buf ∧ (tls.process c buf).state =
      some (.readTraffic (out.map some)) ∧ out.map Prod.snd = done.map Record.payload ∧
      (tls.process c buf).discard + (out.map Prod.fst).sum = (done.flatMap Record.wire).length ∧
      Traffic (tls.process c buf).conn rest
  waits : ∀ c recs buf, Traffic c recs → buf <+: wireOf close recs →
    ¬(recs.head?.elim close Record.wire <+: buf) →
    ((tls.process c buf).state = some .blockedHandshake ∨
      (∃ n sent, (tls.process c buf).state = some (.writeTraffic n sent)) ∨
      (tls.process c buf).state = some .other) ∧ (tls.process c buf).discard = 0 ∧
      Traffic (tls.process c buf).conn recs
  closes : ∀ c buf, Traffic c [] → close <+: buf → (tls.process c buf).state = some .closed

/-- Nothing can be received any more, and the connection waits. -/
structure Stalled {κ : Type} (tls : Rustls κ) (st : TlsState κ) (wire : Bytes) : Prop where
  sent : st.outgoingLen ≤ st.outgoingSent
  received : wire = [] ∨ incomingMax ≤ st.incoming.length
  waits : ∀ records, (tls.process st.conn st.incoming).state ≠ some (.readTraffic records)
  opened : (tls.process st.conn st.incoming).state ≠ some .closed

/-- The socket gives the wire bytes in order, and the timer does not expire while anything is left
to do. -/
inductive Serves {κ : Type} (tls : Rustls κ) : TlsState κ → Bytes → List Poll → Prop
  | nil (st : TlsState κ) (wire : Bytes) : Serves tls st wire []
  | expired {st : TlsState κ} {wire : Bytes} {p : Poll} {ps : List Poll} : p.expired = true →
    Stalled tls st wire → Serves tls st wire (p :: ps)
  | live {st st₁ : TlsState κ} {chunk wire : Bytes} {p : Poll} {ps : List Poll} :
    p.expired = false → st.sendOut p = some st₁ →
    (if st₁.incoming.length < incomingMax then p.got else some []) = some chunk →
    st₁.incoming.length + chunk.length ≤ incomingMax →
    (∀ st', tlsRound tls st p = .go st' → Serves tls st' wire ps) →
    Serves tls st (chunk ++ wire) (p :: ps)

def fitting (recs : List Record) : List Record :=
  recs.takeWhile fun r => r.wire.length ≤ incomingMax

def tlsAnswer (recs : List Record) : Except HttpError Bytes :=
  match finish ((payloads (fitting recs)).take rxCap) false with
  | some r => r
  | none =>
    if fitting recs = recs then closedAnswer ((payloads recs).take rxCap) else .error .timeout

section Answers

variable {rx : Bytes} {r : Except HttpError Bytes}

theorem finish_false (rx : Bytes) : finish rx false = (fullBody rx).map .ok := by
  unfold finish fullBody
  rcases splitHead rx with _ | ⟨head, start⟩
  · rfl
  · dsimp only
    cases head.contentLength with
    | none => rfl
    | some len =>
      dsimp only
      split <;> rfl

theorem closedAnswer_cases (h : finish rx false = none) :
    finish rx true = some (closedAnswer rx) ∨
    (finish rx true = none ∧ ∃ body, closedAnswer rx = .ok body) := by
  unfold finish closedAnswer at *
  rcases hsplit : splitHead rx with _ | ⟨head, start⟩
  · exact .inl rfl
  · rw [hsplit] at h
    dsimp only at h ⊢
    cases hlen : head.contentLength with
    | none =>
      refine .inl ?_
      dsimp only [Option.getD_none]
      rw [if_pos rfl, ← Nat.min_assoc, Nat.min_self, List.take_eq_take_min, Nat.min_comm]
    | some len =>
      rw [hlen] at h
      exact .inr ⟨h, _, rfl⟩

end Answers

section Session

variable {κ : Type} {tls : Rustls κ} {close : Bytes} {Traffic : κ → List Record → Prop}

theorem readRecords_take (out : List (ℕ × Bytes)) (n : ℕ) (rx : Bytes) :
    readRecords (out.map some) n (rx.take rxCap) =
      some (n + (out.map Prod.fst).sum, (rx ++ (out.map Prod.snd).flatten).take rxCap) := by
  induction out generalizing n rx with
  | nil =>
    rw [List.map_nil, readRecords]
    simp
  | cons o out ih =>
    rw [List.map_cons, readRecords, grow_take, ih]
    simp only [List.map_cons, List.sum_cons, List.flatten_cons, Nat.add_assoc, List.append_assoc]

/-- The response so far, with the records that are still to come. -/
structure Going (tls : Rustls κ) (close : Bytes) (Traffic : κ → List Record → Prop)
    (all : List Record) (st : TlsState κ) (wire : Bytes) (recs : List Record) : Prop where
  traffic : Traffic st.conn recs
  wire_eq : st.incoming ++ wire = wireOf close recs
  room : st.incoming.length ≤ incomingMax
  queued : st.reqQueued = true
  past : ∃ past, all = past ++ recs ∧ (∀ r ∈ past, r.wire.length ≤ incomingMax) ∧
    st.rxBody = (payloads past).take rxCap
  undecided : finish st.rxBody false = none

variable {all recs : List Record} {st st' : TlsState κ} {wire : Bytes}

theorem fitting_append {past recs : List Record} (h : ∀ r ∈ past, r.wire.length ≤ incomingMax) :
    fitting (past ++ recs) = past ++ fitting recs :=
  List.takeWhile_append_of_pos fun r hr => decide_eq_true (h r hr)

theorem tlsAnswer_decided {past : List Record} {r : Except HttpError Bytes}
    (hall : all = past ++ recs) (hfit : ∀ r ∈ past, r.wire.length ≤ incomingMax)
    (h : finish ((payloads past).take rxCap) false = some r) : tlsAnswer all = r := by
  obtain ⟨more, hmore, -⟩ := take_append_prefix (payloads past) (payloads (fitting recs))
  have hall' : payloads (fitting all) = payloads past ++ payloads (fitting recs) := by
    rw [hall, fitting_append hfit, payloads, List.flatMap_append]
    rfl
  rw [tlsAnswer, hall', hmore, finish_grows h more false]

theorem Going.wait (h : Going tls close Traffic all st wire recs) {c : κ} (hc : Traffic c recs) :
    Going tls close Traffic all { st with conn := c } wire recs :=
  ⟨hc, h.wire_eq, h.room, h.queued, h.past, h.undecided⟩

theorem Going.check_eq (h : Going tls close Traffic all st wire recs) : st.check = .go st := by
  have hund := h.undecided
  rw [finish_false, Option.map_eq_none_iff] at hund
  rw [TlsState.check, if_pos h.queued, hund]

theorem drive_waits (hs : Session tls close Traffic) (h : Going tls close Traffic all st wire recs)
    (hwait : ¬(recs.head?.elim close Record.wire <+: st.incoming)) :
    ∃ st', st.drive tls = .go st' ∧ Going tls close Traffic all st' wire recs := by
  obtain ⟨hstate, hdiscard, htraffic⟩ :=
    hs.waits st.conn recs st.incoming h.traffic ⟨wire, h.wire_eq⟩ hwait
  refine ⟨_, ?_, h.wait htraffic⟩
  have hkeep : ∀ st : TlsState κ, st.discard 0 = st := fun st => by
    rw [TlsState.discard, if_neg (by omega)]
  unfold TlsState.drive
  rcases hstate with hstate | ⟨n, sent, hstate⟩ | hstate
  · simp only [hstate, hdiscard, hkeep]
  · simp only [hstate, hdiscard, hkeep, h.queued, if_true]
  · simp only [hstate, hdiscard, hkeep]

theorem check_full {body : Bytes} (hqueued : st.reqQueued = true)
    (hbody : fullBody st.rxBody = some body) : st.check = .ret (.ok body) := by
  rw [TlsState.check, if_pos hqueued, hbody]

theorem wire_length_le {recs : List Record} {r : Record} (h : r ∈ recs) :
    r.wire.length ≤ (recs.flatMap Record.wire).length := by
  rw [List.length_flatMap]
  exact List.le_sum_of_mem (List.mem_map_of_mem h)

theorem drive_yields (hs : Session tls close Traffic) {r : Record} {rs : List Record}
    (h : Going tls close Traffic all st wire (r :: rs)) (hfull : r.wire <+: st.incoming) :
    ∃ st', st.drive tls = .go st' ∧ (st'.check = .ret (tlsAnswer all) ∨
      st'.check = .go st' ∧ ∃ rest, Going tls close Traffic all st' wire rest) := by
  obtain ⟨done, rest, out, hne, hrecs, hbegin, hstate, hout, hdiscard, htraffic⟩ :=
    hs.yields st.conn r rs st.incoming h.traffic ⟨wire, h.wire_eq⟩ hfull
  obtain ⟨past, hall, hfit, hrx⟩ := h.past
  have hread := readRecords_take out (tls.process st.conn st.incoming).discard (payloads past)
  have hrx' : payloads past ++ (out.map Prod.snd).flatten = payloads (past ++ done) := by
    rw [hout, payloads, payloads, List.flatMap_append]
    rfl
  rw [hdiscard, hrx'] at hread
  have hwires : ∀ q ∈ done, q.wire.length ≤ incomingMax := by
    intro q hq
    have hle := hbegin.length_le
    have hroom := h.room
    have hone := wire_length_le hq
    omega
  have hfits : ∀ q ∈ past ++ done, q.wire.length ≤ incomingMax := by
    intro q hq
    rcases List.mem_append.mp hq with hq | hq
    · exact hfit q hq
    · exact hwires q hq
  have hpos : 0 < (done.flatMap Record.wire).length := by
    obtain ⟨q, done', rfl⟩ := List.exists_cons_of_ne_nil hne
    have hq :=
      hs.record_ne st.conn (r :: rs) h.traffic q
        (hrecs ▸ List.mem_append_left rest List.mem_cons_self)
    have hone := wire_length_le (List.mem_cons_self (a := q) (l := done'))
    have := List.length_pos_iff.mpr hq
    omega
  obtain ⟨tail, htail⟩ := hbegin
  have hdrop : st.incoming.drop (done.flatMap Record.wire).length = tail := by
    rw [← htail]
    exact List.drop_left
  have hlen : (done.flatMap Record.wire).length ≤ st.incoming.length := by
    rw [← htail, List.length_append]
    omega
  have hwire : tail ++ wire = wireOf close rest := by
    have heq := h.wire_eq
    rw [← htail, hrecs, wireOf, List.flatMap_append, List.append_assoc, List.append_assoc] at heq
    exact List.append_cancel_left heq
  let st' : TlsState κ := { st with
    conn := (tls.process st.conn st.incoming).conn
    incoming := tail
    rxBody := (payloads (past ++ done)).take rxCap }
  refine ⟨st', ?_, ?_⟩
  · simp only [TlsState.drive, hstate, hrx, hread, TlsState.discard, hpos, hlen, and_self,
      if_true, hdrop]
    rfl
  · have hall' : all = (past ++ done) ++ rest := by rw [hall, hrecs, List.append_assoc]
    rcases hdone : finish ((payloads (past ++ done)).take rxCap) false with _ | answer
    · have hgoing : Going tls close Traffic all st' wire rest := by
        refine ⟨htraffic, hwire, ?_, h.queued, ⟨past ++ done, hall', hfits, rfl⟩, hdone⟩
        have hroom := h.room
        rw [← htail, List.length_append] at hroom
        change tail.length ≤ incomingMax
        omega
      exact .inr ⟨hgoing.check_eq, rest, hgoing⟩
    · refine .inl ?_
      have hanswer := tlsAnswer_decided hall' hfits hdone
      rw [finish_false] at hdone
      obtain ⟨body, hbody, rfl⟩ := Option.map_eq_some_iff.mp hdone
      rw [hanswer]
      exact check_full h.queued hbody

theorem drive_closes (hs : Session tls close Traffic) (h : Going tls close Traffic all st wire [])
    (hclose : close <+: st.incoming) : st.drive tls = .ret (tlsAnswer all) := by
  obtain ⟨past, hall, hfit, hrx⟩ := h.past
  have hund := h.undecided
  rw [List.append_nil] at hall
  have hall' : fitting all = all := by
    rw [hall]
    have happ : fitting (past ++ []) = past ++ fitting [] := fitting_append hfit
    rwa [List.append_nil, show fitting [] = [] from rfl, List.append_nil] at happ
  have hstate := hs.closes st.conn st.incoming h.traffic hclose
  rw [hrx, ← hall] at hund
  have hanswer : tlsAnswer all = closedAnswer st.rxBody := by
    rw [tlsAnswer, hall', hund, hrx, ← hall]
    exact if_pos rfl
  unfold TlsState.drive
  simp only [hstate, hanswer]

theorem sendOut_keeps {st₁ : TlsState κ} {p : Poll} (h : st.sendOut p = some st₁) :
    st₁.conn = st.conn ∧ st₁.incoming = st.incoming ∧ st₁.reqQueued = st.reqQueued ∧
    st₁.rxBody = st.rxBody := by
  unfold TlsState.sendOut at h
  split_ifs at h
  · obtain ⟨n, -, rfl⟩ := Option.map_eq_some_iff.mp h
    exact ⟨rfl, rfl, rfl, rfl⟩
  · obtain rfl := Option.some.inj h
    exact ⟨rfl, rfl, rfl, rfl⟩
  · obtain rfl := Option.some.inj h
    exact ⟨rfl, rfl, rfl, rfl⟩

theorem tlsRound_going (hs : Session tls close Traffic) {st₁ : TlsState κ}
    {chunk : Bytes} {p : Poll} (h : Going tls close Traffic all st (chunk ++ wire) recs)
    (hlive : p.expired = false) (hsend : st.sendOut p = some st₁)
    (hgot : (if st₁.incoming.length < incomingMax then p.got else some []) = some chunk)
    (hroom : st₁.incoming.length + chunk.length ≤ incomingMax) :
    tlsRound tls st p = .ret (tlsAnswer all) ∨
      ∃ st' rest, tlsRound tls st p = .go st' ∧ Going tls close Traffic all st' wire rest := by
  obtain ⟨hconn, hincoming, hqueued, hrx⟩ := sendOut_keeps hsend
  have hnext :
      Going tls close Traffic all { st₁ with incoming := st₁.incoming ++ chunk } wire recs := by
    refine ⟨hconn ▸ h.traffic, ?_, ?_, hqueued.trans h.queued, hrx ▸ h.past, hrx ▸ h.undecided⟩
    · change (st₁.incoming ++ chunk) ++ wire = _
      rw [hincoming, List.append_assoc]
      exact h.wire_eq
    · change (st₁.incoming ++ chunk).length ≤ _
      rw [List.length_append]
      exact hroom
  rw [tlsRound, hlive, if_neg Bool.false_ne_true, hsend]
  dsimp only
  rw [hgot]
  dsimp only
  split
  swap
  · exact .inr ⟨_, recs, hnext.check_eq, hnext⟩
  by_cases hfull : recs.head?.elim close Record.wire <+: st₁.incoming ++ chunk
  · rcases recs with _ | ⟨r, rs⟩
    · rw [drive_closes hs hnext hfull]
      exact .inl rfl
    · obtain ⟨st', hdrive, hcheck⟩ := drive_yields hs hnext hfull
      rw [hdrive]
      dsimp only
      rcases hcheck with hret | ⟨hgo, rest, hgoing⟩
      · exact .inl hret
      · exact .inr ⟨st', rest, hgo, hgoing⟩
  · obtain ⟨st', hdrive, hgoing⟩ := drive_waits hs hnext hfull
    rw [hdrive]
    exact .inr ⟨st', recs, hgoing.check_eq, hgoing⟩

theorem prefix_unit {buf : Bytes} (hbuf : buf <+: wireOf close recs)
    (hwait : ¬(recs.head?.elim close Record.wire <+: buf)) :
    buf <+: recs.head?.elim close Record.wire ∧
    buf.length < (recs.head?.elim close Record.wire).length := by
  have hunit : recs.head?.elim close Record.wire <+: wireOf close recs := by
    rcases recs with _ | ⟨r, rs⟩
    · exact List.prefix_rfl
    · rw [wireOf, List.flatMap_cons, List.append_assoc]
      exact List.prefix_append _ _
  have hshort : buf.length < (recs.head?.elim close Record.wire).length := by
    by_contra hlong
    exact hwait (List.prefix_of_prefix_length_le hunit hbuf (Nat.le_of_not_lt hlong))
  exact ⟨List.prefix_of_prefix_length_le hbuf hunit hshort.le, hshort⟩

theorem stalled_answer (hs : Session tls close Traffic)
    (h : Going tls close Traffic all st wire recs) (hstall : Stalled tls st wire) :
    tlsAnswer all = .error .timeout := by
  obtain ⟨past, hall, hfit, hrx⟩ := h.past
  have hund := h.undecided
  have hwait : ¬(recs.head?.elim close Record.wire <+: st.incoming) := by
    intro hfull
    rcases recs with _ | ⟨r, rs⟩
    · exact hstall.opened (hs.closes st.conn st.incoming h.traffic hfull)
    · obtain ⟨-, -, out, -, -, -, hstate, -⟩ :=
        hs.yields st.conn r rs st.incoming h.traffic ⟨wire, h.wire_eq⟩ hfull
      exact hstall.waits _ hstate
  obtain ⟨-, hshort⟩ := prefix_unit ⟨wire, h.wire_eq⟩ hwait
  have hfull : incomingMax ≤ st.incoming.length := by
    refine hstall.received.resolve_left fun hnil => ?_
    have heq := h.wire_eq
    rw [hnil, List.append_nil] at heq
    refine hwait ?_
    rw [heq]
    rcases recs with _ | ⟨r, rs⟩
    · exact List.prefix_rfl
    · rw [wireOf, List.flatMap_cons, List.append_assoc]
      exact List.prefix_append _ _
  rcases recs with _ | ⟨r, rs⟩
  · have hclose := hs.close_fits
    change st.incoming.length < close.length at hshort
    omega
  · change st.incoming.length < r.wire.length at hshort
    have hstop : fitting (r :: rs) = [] := by
      rw [fitting, List.takeWhile_cons_of_neg]
      rw [decide_eq_true_eq]
      omega
    have hall' : fitting all = past := by rw [hall, fitting_append hfit, hstop, List.append_nil]
    have hne : past ≠ all := by
      intro heq
      rw [← heq] at hall
      exact absurd (List.self_eq_append_right.mp hall) (List.cons_ne_nil r rs)
    rw [tlsAnswer, hall', ← hrx, hund]
    exact if_neg hne

theorem tlsLoop_answer (hs : Session tls close Traffic) {ps : List Poll}
    {r : Except HttpError Bytes} (hserves : Serves tls st wire ps)
    (h : Going tls close Traffic all st wire recs) (hr : tlsLoop tls st ps = some r) :
    r = tlsAnswer all := by
  induction hserves generalizing recs with
  | nil => cases hr
  | expired hlate hstall =>
    rw [tlsLoop, tlsRound, if_pos hlate] at hr
    rw [stalled_answer hs h hstall]
    exact (Option.some.inj hr).symm
  | live hlive hsend hgot hroom _ ih =>
    rw [tlsLoop] at hr
    rcases tlsRound_going hs h hlive hsend hgot hroom with hret | ⟨st', rest, hgo, hgoing⟩
    · rw [hret] at hr
      exact (Option.some.inj hr).symm
    · rw [hgo] at hr
      exact ih st' hgo hgoing hr

end Session

section Agreement

/-- Rounds that do not end the loop. -/
inductive Leads {κ : Type} (tls : Rustls κ) : TlsState κ → List Poll → TlsState κ → Prop
  | refl (st : TlsState κ) : Leads tls st [] st
  | step {st st₁ st' : TlsState κ} {p : Poll} {ps : List Poll} : tlsRound tls st p = .go st₁ →
    Leads tls st₁ ps st' → Leads tls st (p :: ps) st'

def tlsStart {κ : Type} (conn : κ) : TlsState κ := ⟨conn, [], 0, 0, false, []⟩

/-- The request is on its way, and these records are the response to come. -/
structure Requested {κ : Type} (close : Bytes) (Traffic : κ → List Record → Prop) (st : TlsState κ)
    (wire : Bytes) (recs : List Record) : Prop where
  traffic : Traffic st.conn recs
  wire_eq : st.incoming ++ wire = wireOf close recs
  room : st.incoming.length ≤ incomingMax
  queued : st.reqQueued = true
  empty : st.rxBody = []

/-- A response that ends before its announced length. -/
def Short (stream : Bytes) : Prop :=
  ∃ head bodyStart len, splitHead (stream.take rxCap) = some (head, bodyStart) ∧
  head.contentLength = some len ∧ ((stream.take rxCap).drop bodyStart).length < min len bodyCap

/-- The response is as long as announced before a record comes that does not fit into the buffer. -/
def CompleteInBuffer (recs : List Record) : Prop :=
  (fullBody ((payloads (fitting recs)).take rxCap)).isSome = true

variable {κ : Type} {tls : Rustls κ} {close : Bytes} {Traffic : κ → List Record → Prop}
    {recs : List Record}

theorem answer_eq_none (stream : Bytes) : answer stream = none ↔ Short stream := by
  unfold answer finish Short
  rcases splitHead (stream.take rxCap) with _ | ⟨head, start⟩
  · exact iff_of_false nofun (by rintro ⟨_, _, _, ⟨⟩, _⟩)
  · dsimp only
    cases hlen : head.contentLength with
    | none =>
      refine iff_of_false nofun ?_
      rintro ⟨head', start', len, hsome, hhead, -⟩
      obtain ⟨rfl, rfl⟩ := Prod.mk.inj (Option.some.inj hsome)
      rw [hlen] at hhead
      cases hhead
    | some len =>
      dsimp only
      constructor
      · intro h
        split at h
        · cases h
        · rename_i hshort
          exact ⟨head, start, len, rfl, hlen, Nat.lt_of_not_le hshort⟩
      · rintro ⟨head', start', len', hsome, hhead, hshort⟩
        obtain ⟨rfl, rfl⟩ := Prod.mk.inj (Option.some.inj hsome)
        obtain rfl := Option.some.inj (hlen.symm.trans hhead)
        exact if_neg (Nat.not_le.mpr hshort)

theorem answer_ne_timeout (stream : Bytes) : answer stream ≠ some (.error .timeout) := by
  unfold answer finish
  rcases splitHead (stream.take rxCap) with _ | ⟨head, start⟩
  · nofun
  · dsimp only
    cases head.contentLength with
    | none => nofun
    | some len =>
      dsimp only
      split <;> nofun

theorem answers_agree (recs : List Record) :
    (answer (payloads recs)).getD (.error .timeout) = tlsAnswer recs ↔
    CompleteInBuffer recs ∨ (¬Short (payloads recs) ↔ fitting recs = recs) := by
  rw [← answer_eq_none, CompleteInBuffer]
  have hne := answer_ne_timeout (payloads recs)
  have hfull := finish_false ((payloads (fitting recs)).take rxCap)
  rcases hbody : fullBody ((payloads (fitting recs)).take rxCap) with _ | body
  · rw [hbody] at hfull
    rw [or_iff_right (by simp), tlsAnswer, hfull]
    dsimp only [Option.map_none]
    by_cases hall : fitting recs = recs
    · rw [if_pos hall, iff_true_right hall]
      rw [hall] at hfull
      rcases closedAnswer_cases hfull with hsame | ⟨hnone, body, hclosed⟩
      · rw [answer, hsame]
        exact iff_of_true rfl (by simp)
      · rw [answer, hnone, hclosed]
        exact iff_of_false (by simp) (not_not.mpr rfl)
    · rw [if_neg hall, iff_false_right hall, not_not]
      rcases ha : answer (payloads recs) with _ | r
      · exact iff_of_true rfl rfl
      · refine iff_of_false ?_ (by simp)
        rintro rfl
        exact hne ha
  · rw [hbody] at hfull
    obtain ⟨rest, hrest⟩ :=
      List.takeWhile_prefix (p := fun r : Record => decide (r.wire.length ≤ incomingMax))
        (l := recs)
    have hall : payloads recs = payloads (fitting recs) ++ payloads rest := by
      conv_lhs => rw [← hrest]
      exact List.flatMap_append
    have hanswer : answer (payloads (fitting recs) ++ payloads rest) = some (.ok body) :=
      finish_answer hfull (by simp)
    rw [← hall] at hanswer
    rw [tlsAnswer, hfull, hanswer]
    exact iff_of_true rfl (.inl rfl)

theorem tlsLoop_leads {st st' : TlsState κ} {ps : List Poll} (h : Leads tls st ps st')
    (qs : List Poll) : tlsLoop tls st (ps ++ qs) = tlsLoop tls st' qs := by
  induction h with
  | refl => rfl
  | step hround _ ih =>
    rw [List.cons_append, tlsLoop, hround]
    exact ih

theorem or_expiry_eq {x : Option (Except HttpError Bytes)} {late : List Poll}
    {a : Except HttpError Bytes} (h : x.or (expiry late) = some a) :
    a = x.getD (.error .timeout) := by
  cases x with
  | some r => exact (Option.some.inj h).symm
  | none =>
    rw [Option.none_or, expiry] at h
    split at h
    · exact (Option.some.inj h).symm
    · cases h

theorem httpLoop_returns {req rx : Bytes} {sent : ℕ} {ps : List Poll}
    (h : ∃ p ∈ ps, p.expired = true) : ∃ a, httpLoop req sent rx ps = some a := by
  induction ps generalizing sent rx with
  | nil =>
    obtain ⟨p, hp, -⟩ := h
    cases hp
  | cons p ps ih =>
    rw [httpLoop]
    split
    · exact ⟨_, rfl⟩
    · rename_i hlive
      have hrest : ∃ q ∈ ps, q.expired = true := by
        obtain ⟨q, hq, hexp⟩ := h
        rcases List.mem_cons.mp hq with rfl | hq
        · exact absurd hexp hlive
        · exact ⟨q, hq, hexp⟩
      split
      · split
        · exact ⟨_, rfl⟩
        · split
          · exact ⟨_, rfl⟩
          · exact ih hrest
      · exact ⟨_, rfl⟩

theorem tlsLoop_returns {st : TlsState κ} {ps : List Poll} (h : ∃ p ∈ ps, p.expired = true) :
    ∃ b, tlsLoop tls st ps = some b := by
  induction ps generalizing st with
  | nil =>
    obtain ⟨p, hp, -⟩ := h
    cases hp
  | cons p ps ih =>
    rw [tlsLoop]
    split
    · exact ⟨_, rfl⟩
    · rename_i hgo
      refine ih ?_
      obtain ⟨q, hq, hexp⟩ := h
      rcases List.mem_cons.mp hq with rfl | hq
      · rw [tlsRound, if_pos hexp] at hgo
        cases hgo
      · exact ⟨q, hq, hexp⟩

/-- Both runs return, by the round in which the timer expires at the latest, and what they return is
the same exactly under the condition. -/
theorem https_agrees_iff {req wire : Bytes} {ps late hps qs : List Poll} {conn : κ}
    {st : TlsState κ} (hs : Session tls close Traffic) (hplain : Exchange req 0 (payloads recs) ps)
    (hlive : ∀ p ∈ ps, p.expired = false) (hlate : ∀ p ∈ late, Quiet req p)
    (hlead : Leads tls (tlsStart conn) hps st) (hreq : Requested close Traffic st wire recs)
    (hserves : Serves tls st wire qs) :
    ((∃ p ∈ late, p.expired = true) → ∃ a, httpLoop req 0 [] (ps ++ late) = some a) ∧
      ((∃ p ∈ qs, p.expired = true) → ∃ b, tlsLoop tls (tlsStart conn) (hps ++ qs) = some b) ∧
      ∀ a b, httpLoop req 0 [] (ps ++ late) = some a →
      tlsLoop tls (tlsStart conn) (hps ++ qs) = some b →
      (a = b ↔ CompleteInBuffer recs ∨ (¬Short (payloads recs) ↔ fitting recs = recs)) := by
  have hloop := httpLoop_exchange (d := []) hplain hlive hlate
  rw [List.nil_append] at hloop
  have hgoing : Going tls close Traffic recs st wire recs := by
    refine ⟨hreq.traffic, hreq.wire_eq, hreq.room, hreq.queued, ⟨[], rfl, by simp, hreq.empty⟩, ?_⟩
    rw [hreq.empty]
    rfl
  rw [tlsLoop_leads hlead]
  refine ⟨fun ⟨p, hp, hexp⟩ => httpLoop_returns ⟨p, List.mem_append_right ps hp, hexp⟩,
    tlsLoop_returns, fun a b ha hb => ?_⟩
  rw [or_expiry_eq (hloop.symm.trans ha), tlsLoop_answer hs hserves hgoing hb]
  exact answers_agree recs

end Agreement

section Sample

/-!
A connection whose records have a byte for their type and one for their length, and are not
encrypted. It is waiting for the request until it has been given one.
-/

def sampleTls : Rustls Bool where
  process sent buf :=
    if sent then
      match buf with
      | 0x15 :: _ => ⟨0, some .closed, true⟩
      | 0x17 :: n :: rest =>
        if n.toNat ≤ rest.length
          then ⟨0, some (.readTraffic [some (n.toNat + 2, rest.take n.toNat)]), true⟩
        else ⟨0, some .blockedHandshake, true⟩
      | _ => ⟨0, some .blockedHandshake, true⟩
    else ⟨0, some (.writeTraffic (some 1) true), false⟩

def sampleClose : Bytes := [0x15]

def sampleRecord (payload : Bytes) : Record :=
  ⟨0x17 :: UInt8.ofNat payload.length :: payload, payload⟩

def SampleTraffic (sent : Bool) (recs : List Record) : Prop :=
  sent = true ∧ ∀ r ∈ recs, r.payload.length < 256 ∧ r = sampleRecord r.payload

theorem sample_wire {r : Record} (hlen : r.payload.length < 256) (hr : r = sampleRecord r.payload) :
    ∃ n : UInt8, r.wire = 0x17 :: n :: r.payload ∧ n.toNat = r.payload.length := by
  refine ⟨UInt8.ofNat r.payload.length, congrArg Record.wire hr, ?_⟩
  rw [UInt8.toNat_ofNat']
  omega

theorem sampleSession : Session sampleTls sampleClose SampleTraffic := by
  refine ⟨by decide, fun c recs h r hr => ?_, fun c r rs buf h _ hfull => ?_,
    fun c recs buf h hbuf hwait => ?_,
    fun c buf h hclose => ?_⟩
  · obtain ⟨n, hwire, -⟩ := sample_wire (h.2 r hr).1 (h.2 r hr).2
    rw [hwire]
    nofun
  · obtain ⟨rfl, hrecs⟩ := h
    obtain ⟨n, hwire, hn⟩ :=
      sample_wire (hrecs r List.mem_cons_self).1 (hrecs r List.mem_cons_self).2
    obtain ⟨tail, rfl⟩ := hfull
    have hprocess : sampleTls.process true (r.wire ++ tail) =
        ⟨0, some (.readTraffic [some (r.payload.length + 2, r.payload)]), true⟩ := by
      rw [hwire]
      have htake : (r.payload ++ tail).take n.toNat = r.payload := by rw [hn, List.take_left]
      have hle : n.toNat ≤ (r.payload ++ tail).length := by rw [hn, List.length_append]; omega
      change (if n.toNat ≤ (r.payload ++ tail).length then
        (⟨0, some (.readTraffic [some (n.toNat + 2, (r.payload ++ tail).take n.toNat)]),
          true⟩ : Processed Bool)
        else ⟨0, some .blockedHandshake, true⟩) = _
      rw [if_pos hle, htake, hn]
    refine ⟨[r], rs, [(r.payload.length + 2, r.payload)], List.cons_ne_nil _ _, rfl, ?_, ?_,
      rfl, ?_, ?_⟩
    · rw [List.flatMap_singleton]
      exact List.prefix_append _ _
    · rw [hprocess]
      rfl
    · rw [hprocess, List.flatMap_singleton, hwire]
      simp
    · rw [hprocess]
      exact ⟨rfl, fun q hq => hrecs q (List.mem_cons_of_mem r hq)⟩
  · obtain ⟨rfl, hrecs⟩ := h
    obtain ⟨hpre, hlt⟩ := prefix_unit hbuf hwait
    have hprocess : sampleTls.process true buf = ⟨0, some .blockedHandshake, true⟩ := by
      rcases recs with _ | ⟨r, rs⟩
      · obtain rfl := List.eq_nil_of_length_eq_zero (Nat.lt_one_iff.mp hlt)
        rfl
      · obtain ⟨n, hwire, hn⟩ :=
          sample_wire (hrecs r List.mem_cons_self).1 (hrecs r List.mem_cons_self).2
        change buf <+: r.wire at hpre
        change buf.length < r.wire.length at hlt
        rw [hwire] at hpre hlt
        rcases buf with _ | ⟨x, _ | ⟨y, buf⟩⟩
        · rfl
        · obtain ⟨rfl, -⟩ := List.cons_prefix_cons.mp hpre
          rfl
        · obtain ⟨rfl, htail⟩ := List.cons_prefix_cons.mp hpre
          obtain ⟨rfl, -⟩ := List.cons_prefix_cons.mp htail
          simp only [List.length_cons] at hlt
          exact if_neg (by omega)
    rw [hprocess]
    exact ⟨.inl rfl, rfl, rfl, hrecs⟩
  · obtain ⟨rfl, -⟩ := h
    obtain ⟨tail, rfl⟩ := hclose
    rfl

def sampleQueued : TlsState Bool := ⟨true, [], 1, 0, true, []⟩
def sampleRead (stream : Bytes) : TlsState Bool := ⟨true, sampleClose, 1, 1, true, stream⟩
def sampleWire (stream : Bytes) : Bytes := wireOf sampleClose [sampleRecord stream]

def idlePoll (expired : Bool) : Poll := ⟨expired, true, true, some 0, false, .ok [], false, false⟩
def wirePoll (stream : Bytes) : Poll := { recvPoll (sampleWire stream) true with send := some 1 }

def plainPolls (stream : Bytes) : List Poll := [sendPoll, recvPoll stream true] ++ [idlePoll true]
def tlsPolls (stream : Bytes) : List Poll := [sendPoll] ++ [wirePoll stream, idlePoll false]

theorem idlePoll_quiet (expired : Bool) : Quiet [0x47] (idlePoll expired) := by
  refine ⟨rfl, rfl, fun n => ?_⟩
  by_cases hn : n < 1
  · exact ⟨n, if_pos ⟨hn, rfl⟩⟩
  · exact ⟨n, if_neg fun h => hn h.1⟩

variable {stream : Bytes}

theorem sample_exchange (stream : Bytes) :
    Exchange [0x47] 0 (payloads [sampleRecord stream]) [sendPoll, recvPoll stream true] := by
  have hpayload : payloads [sampleRecord stream] = stream := List.append_nil stream
  rw [hpayload]
  exact @Exchange.poll _ _ _ 0 1 [] _ rfl rfl rfl nofun (.last rfl rfl rfl rfl)

theorem sample_requested (hlen : stream.length < 256) :
    Requested sampleClose SampleTraffic sampleQueued (sampleWire stream) [sampleRecord stream] := by
  refine ⟨⟨rfl, fun r hr => ?_⟩, rfl, by decide, rfl, rfl⟩
  obtain rfl := List.mem_singleton.mp hr
  exact ⟨hlen, rfl⟩

theorem sample_serves (hlen : stream.length < 256)
    (hround : tlsRound sampleTls sampleQueued (wirePoll stream) = .go (sampleRead stream)) :
    Serves sampleTls sampleQueued (sampleWire stream) [wirePoll stream, idlePoll false] := by
  have hwire : sampleWire stream = sampleWire stream ++ ([] ++ []) := (List.append_nil _).symm
  rw [hwire]
  refine .live rfl rfl rfl ?_ fun st' hst => ?_
  · simp only [sampleWire, wireOf, sampleRecord, sampleClose, List.flatMap_cons, List.flatMap_nil,
      List.append_nil, List.length_append, List.length_cons, List.length_nil, incomingMax]
    change 0 + _ ≤ _
    omega
  · rw [hround] at hst
    obtain rfl := Round.go.inj hst
    exact .live rfl rfl rfl (show 1 + 0 ≤ incomingMax by decide) fun st' hst' => .nil st' []

def unannounced : Bytes := [0x48, 0x0D, 0x0A, 0x0D, 0x0A, 0x61]
def shortened : Bytes := utf8 "H\r\nContent-Length:2\r\n\r\na".toList

theorem unannounced_agrees : ∃ a b, httpLoop [0x47] 0 [] (plainPolls unannounced) = some a ∧
    tlsLoop sampleTls (tlsStart false) (tlsPolls unannounced) = some b ∧ a = b := by
  have ha : httpLoop [0x47] 0 [] (plainPolls unannounced) = some (.ok [0x61]) := by decide
  have hlead : Leads sampleTls (tlsStart false) [sendPoll] sampleQueued :=
    .step (by decide) (.refl _)
  have hserves :
      Serves sampleTls sampleQueued (sampleWire unannounced) [wirePoll unannounced,
        idlePoll false] :=
    sample_serves (by decide) (by decide)
  have hb : tlsLoop sampleTls (tlsStart false) (tlsPolls unannounced) = some (.ok [0x61]) := by
    decide
  refine ⟨_, _, ha, hb,
    ((https_agrees_iff sampleSession (sample_exchange unannounced) (by decide) ?_ hlead
    (sample_requested (by decide)) hserves).2.2 _ _ ha hb).mpr (.inr ?_)⟩
  · intro p hp
    rw [List.mem_singleton.mp hp]
    exact idlePoll_quiet true
  · rw [← answer_eq_none]
    exact iff_of_true (by decide) (by decide)

theorem shortened_disagrees : Session sampleTls sampleClose SampleTraffic ∧
    Exchange [0x47] 0 shortened [sendPoll, recvPoll shortened true] ∧
    Requested sampleClose SampleTraffic sampleQueued (sampleWire shortened)
      [sampleRecord shortened] ∧ Serves sampleTls sampleQueued (sampleWire shortened)
      [wirePoll shortened, idlePoll false] ∧ httpLoop [0x47] 0 [] (plainPolls shortened) =
        some (.error .timeout) ∧ tlsLoop sampleTls (tlsStart false) (tlsPolls shortened) =
          some (.ok [0x61]) := by
  refine ⟨sampleSession, ?_, sample_requested (by decide), sample_serves (by decide) (by decide),
    by decide, by decide⟩
  have hexchange := sample_exchange shortened
  rwa [show payloads [sampleRecord shortened] = shortened from List.append_nil _] at hexchange

end Sample

end CoeleoOs.Net
