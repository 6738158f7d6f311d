import CoeleoOs.Net.Http

/-!
# The receive loop of `http_get`

A poll is what the socket says in one round of the loop. The loop keeps the first bytes of the
response and looks for its head again in every round; what it returns is a function of the
response alone, however it is cut.
-/

namespace CoeleoOs.Net
open CoeleoOs.Task (Bytes HttpError)

def bodyCap : ℕ := 32 * 1024
def rxCap : ℕ := bodyCap + 2048

inductive RecvError
  | finished | invalidState
  deriving DecidableEq

structure Poll where
  expired : Bool
  isOpen : Bool
  maySend : Bool
  send : Option ℕ
  canRecv : Bool
  recv : Except RecvError Bytes
  mayRecv : Bool
  moreRecv : Bool

namespace Poll

def sent (p : Poll) (req : Bytes) (n : ℕ) : Option ℕ :=
  if n < req.length ∧ p.maySend then p.send.map (n + ·) else some n

def got (p : Poll) : Option Bytes :=
  if p.canRecv then
    match p.recv with
    | .ok chunk => some chunk
    | .error .finished => some []
    | .error _ => none
  else some []

def recvDone (p : Poll) (sent : ℕ) : Bool := (0 < sent || !p.isOpen) && !p.mayRecv && !p.moreRecv

end Poll

def grow (rx chunk : Bytes) : Bytes :=
  if rx.length < rxCap then rx ++ chunk.take (rxCap - rx.length) else rx

def finish (rx : Bytes) (recvDone : Bool) : Option (Except HttpError Bytes) :=
  match splitHead rx with
  | some (head, bodyStart) =>
    let body := rx.drop bodyStart
    match head.contentLength with
    | some len =>
      let want := min len bodyCap
      if want ≤ body.length then some (.ok (body.take want)) else none
    | none => if recvDone then some (.ok (body.take bodyCap)) else none
  | none => if recvDone then some (.error .failed) else none

def httpLoop (req : Bytes) : ℕ → Bytes → List Poll → Option (Except HttpError Bytes)
  | _, _, [] => none
  | sent, rx, p :: ps =>
    if p.expired then some (.error .timeout)
    else
      match p.sent req sent, p.got with
      | some sent, some chunk =>
        if !p.isOpen ∧ sent = 0 then some (.error .failed)
        else
          match finish (grow rx chunk) (p.recvDone sent) with
          | some r => some r
          | none => httpLoop req sent (grow rx chunk) ps
      | _, _ => some (.error .failed)

/-- What a response and its close come to; `none` is a response that is waited for in vain. -/
def answer (stream : Bytes) : Option (Except HttpError Bytes) := finish (stream.take rxCap) true

section Loop

variable {req d rest : Bytes} {sent : ℕ} {ps : List Poll} {r : Except HttpError Bytes}

theorem grow_take (d chunk : Bytes) : grow (d.take rxCap) chunk = (d ++ chunk).take rxCap := by
  rw [grow, List.take_append, List.length_take]
  by_cases hlen : d.length < rxCap
  · rw [if_pos (by omega), Nat.min_eq_right hlen.le]
  · rw [if_neg (by omega), Nat.sub_eq_zero_of_le (by omega), List.take_zero, List.append_nil]

theorem finish_grows {rx : Bytes} (h : finish rx false = some r) (rest : Bytes) (done : Bool) :
    finish (rx ++ rest) done = some r := by
  unfold finish at h ⊢
  rcases hsplit : splitHead rx with _ | ⟨head, start⟩
  · rw [hsplit] at h
    cases h
  · obtain ⟨hmore, hstart⟩ := splitHead_append hsplit rest
    rw [hsplit] at h
    rw [hmore]
    dsimp only at h ⊢
    rw [List.drop_append_of_le_length hstart]
    cases hlen : head.contentLength with
    | none =>
      rw [hlen] at h
      cases h
    | some len =>
      rw [hlen] at h
      dsimp only at h ⊢
      split at h
      · rename_i hwant
        rw [if_pos (by rw [List.length_append]; omega), List.take_append_of_le_length hwant]
        exact h
      · cases h

theorem finish_append {rx : Bytes} {done : Bool} (h : finish rx done = some r)
    (hdone : done = true → rest = []) : finish (rx ++ rest) true = some r := by
  cases done with
  | true =>
    rw [hdone rfl, List.append_nil]
    exact h
  | false => exact finish_grows h rest true

theorem take_append_prefix (d rest : Bytes) :
    ∃ more, (d ++ rest).take rxCap = d.take rxCap ++ more ∧ (rest = [] → more = []) := by
  refine ⟨rest.take (rxCap - d.length), List.take_append, ?_⟩
  rintro rfl
  exact List.take_nil

theorem finish_answer {done : Bool} (h : finish (d.take rxCap) done = some r)
    (hdone : done = true → rest = []) : answer (d ++ rest) = some r := by
  obtain ⟨more, hmore, hnil⟩ := take_append_prefix d rest
  rw [answer, hmore]
  exact finish_append h fun hd => hnil (hdone hd)

/-- The socket gives the whole response, and the last round sees the close. -/
inductive Exchange (req : Bytes) : ℕ → Bytes → List Poll → Prop
  | last {p : Poll} {sent sent' : ℕ} {rest : Bytes} :
    p.isOpen = true → p.sent req sent = some sent' → p.got = some rest → p.recvDone sent' = true →
    Exchange req sent rest [p]
  | poll {p : Poll} {ps : List Poll} {sent sent' : ℕ} {chunk rest : Bytes} :
      p.isOpen = true → p.sent req sent = some sent' → p.got = some chunk →
      (p.recvDone sent' = true → rest = []) → Exchange req sent' rest ps →
      Exchange req sent (chunk ++ rest) (p :: ps)

structure Quiet (req : Bytes) (p : Poll) : Prop where
  isOpen : p.isOpen = true
  got : p.got = some []
  sent : ∀ n, ∃ n', p.sent req n = some n'

theorem finish_none {rx : Bytes} (h : finish rx true = none) (done : Bool) :
    finish rx done = none := by
  unfold finish at h ⊢
  rcases hsplit : splitHead rx with _ | ⟨head, start⟩
  · rw [hsplit] at h
    cases h
  · rw [hsplit] at h
    dsimp only at h ⊢
    cases hlen : head.contentLength with
    | none =>
      rw [hlen] at h
      cases h
    | some len =>
      rw [hlen] at h
      exact h

def expiry (ps : List Poll) : Option (Except HttpError Bytes) :=
  if ps.any Poll.expired then some (.error .timeout) else none

theorem httpLoop_live {p : Poll} {sent' : ℕ} {chunk : Bytes} (hlive : p.expired = false)
    (hopen : p.isOpen = true) (hsent : p.sent req sent = some sent') (hgot : p.got = some chunk)
    (ps : List Poll) : httpLoop req sent (d.take rxCap) (p :: ps) =
      ((finish ((d ++ chunk).take rxCap) (p.recvDone sent')).elim
        (httpLoop req sent' ((d ++ chunk).take rxCap) ps) some) := by
  rw [httpLoop, if_neg (by simp [hlive]), hsent, hgot]
  dsimp only
  rw [hopen, if_neg (by simp), grow_take]
  cases finish ((d ++ chunk).take rxCap) (p.recvDone sent') with
  | none => rfl
  | some r => rfl

theorem httpLoop_quiet (hnone : finish (d.take rxCap) true = none)
    (hquiet : ∀ p ∈ ps, Quiet req p) : httpLoop req sent (d.take rxCap) ps = expiry ps := by
  induction ps generalizing sent with
  | nil => rfl
  | cons p ps ih =>
    obtain ⟨hopen, hgot, hsend⟩ := hquiet p List.mem_cons_self
    obtain ⟨n, hn⟩ := hsend sent
    have hrest : httpLoop req n (d.take rxCap) ps = expiry ps :=
      ih fun q hq => hquiet q (List.mem_cons_of_mem p hq)
    cases hlive : p.expired with
    | true =>
      rw [httpLoop, if_pos hlive, expiry, List.any_cons, hlive]
      rfl
    | false =>
      rw [httpLoop_live hlive hopen hn hgot, List.append_nil, finish_none hnone, Option.elim_none,
        hrest, expiry, expiry, List.any_cons, hlive, Bool.false_or]

theorem httpLoop_exchange {late : List Poll} (h : Exchange req sent rest ps)
    (hlive : ∀ p ∈ ps, p.expired = false) (hlate : ∀ p ∈ late, Quiet req p) :
    httpLoop req sent (d.take rxCap) (ps ++ late) = (answer (d ++ rest)).or (expiry late) := by
  induction h generalizing d with
  | last hopen hsent hgot hdone =>
    rename_i p _ _ rest
    rw [List.singleton_append, httpLoop_live (hlive p List.mem_cons_self) hopen hsent hgot, hdone]
    cases hfinish : finish ((d ++ rest).take rxCap) true with
    | some r =>
      rw [answer, hfinish]
      rfl
    | none =>
      rw [answer, hfinish, Option.elim_none, httpLoop_quiet hfinish hlate]
      rfl
  | poll hopen hsent hgot hdone _ ih =>
    rename_i p ps _ sent' chunk rest _
    rw [List.cons_append, httpLoop_live (hlive p List.mem_cons_self) hopen hsent hgot,
      ← List.append_assoc]
    cases hfinish : finish ((d ++ chunk).take rxCap) (p.recvDone sent') with
    | some r =>
      rw [finish_answer hfinish hdone]
      rfl
    | none =>
      rw [Option.elim_none]
      exact ih fun q hq => hlive q (List.mem_cons_of_mem p hq)

/-- Two ways of cutting one response come to the same result at the close, and however long the
loop then goes on: it is the answer of the response, or neither run returns. -/
theorem httpGet_segmentation {stream : Bytes} {ps' late late' : List Poll}
    (h : Exchange req 0 stream ps) (h' : Exchange req 0 stream ps')
    (hlate : ∀ p ∈ late, Quiet req p) (hlate' : ∀ p ∈ late', Quiet req p)
    (hlive : ∀ p ∈ ps ++ late, p.expired = false) (hlive' : ∀ p ∈ ps' ++ late', p.expired = false) :
    httpLoop req 0 [] (ps ++ late) = answer stream ∧ httpLoop req 0 [] (ps' ++ late') =
      answer stream := by
  have hone {qs more : List Poll} (hq : Exchange req 0 stream qs) (hmore : ∀ p ∈ more, Quiet req p)
      (hall : ∀ p ∈ qs ++ more, p.expired = false) :
      httpLoop req 0 [] (qs ++ more) = answer stream := by
    have hnever : expiry more = none := by
      refine if_neg ?_
      rw [List.any_eq_true]
      rintro ⟨p, hp, hexp⟩
      rw [hall p (List.mem_append_right qs hp)] at hexp
      cases hexp
    have hloop :=
      httpLoop_exchange (d := []) hq (fun p hp => hall p (List.mem_append_left more hp)) hmore
    rw [hnever, Option.or_none, List.nil_append] at hloop
    exact hloop
  exact ⟨hone h hlate hlive, hone h' hlate' hlive'⟩

def sendPoll : Poll := ⟨false, true, true, some 1, false, .ok [], true, false⟩
def recvPoll (chunk : Bytes) (closed : Bool) : Poll :=
  ⟨false, true, true, some 0, true, .ok chunk, !closed, false⟩

def twoChunks : List Poll :=
  [sendPoll, recvPoll [0x48, 0x0D, 0x0A, 0x0D] false, recvPoll [0x0A, 0x61] true]
def oneChunk : List Poll := [sendPoll, recvPoll [0x48, 0x0D, 0x0A, 0x0D, 0x0A, 0x61] true]

theorem twoChunks_exchange : Exchange [0x47] 0 [0x48, 0x0D, 0x0A, 0x0D, 0x0A, 0x61] twoChunks :=
  @Exchange.poll _ _ _ 0 1 [] _ rfl rfl rfl (by decide)
    (@Exchange.poll _ _ _ 1 1 [0x48, 0x0D, 0x0A, 0x0D] _ rfl rfl rfl (by decide)
      (@Exchange.last _ _ 1 1 _ rfl rfl rfl rfl))

theorem oneChunk_exchange : Exchange [0x47] 0 [0x48, 0x0D, 0x0A, 0x0D, 0x0A, 0x61] oneChunk :=
  @Exchange.poll _ _ _ 0 1 [] _ rfl rfl rfl (by decide) (@Exchange.last _ _ 1 1 _ rfl rfl rfl rfl)

theorem httpGet_cut_in_blank : httpLoop [0x47] 0 [] twoChunks = some (.ok [0x61]) ∧
    httpLoop [0x47] 0 [] oneChunk = some (.ok [0x61]) := by
  have hanswer : answer [0x48, 0x0D, 0x0A, 0x0D, 0x0A, 0x61] = some (.ok [0x61]) := by decide
  rw [← hanswer]
  have hnever : ∀ p ∈ ([] : List Poll), Quiet [0x47] p := by simp
  exact @httpGet_segmentation _ twoChunks _ oneChunk [] [] twoChunks_exchange oneChunk_exchange
    hnever hnever (by decide) (by decide)

section Body

variable {head body : Bytes} {hd : HttpHead}

theorem answer_split (hsplit : splitHead head = some (hd, head.length))
    (hroom : head.length ≤ rxCap)
    (hlen : hd.contentLength = none ∨ hd.contentLength = some body.length) :
    answer (head ++ body) =
      if hd.contentLength = none ∨ min body.length bodyCap ≤
        (body.take (rxCap - head.length)).length
          then some (.ok ((body.take (rxCap - head.length)).take bodyCap)) else none := by
  have hrx : (head ++ body).take rxCap = head ++ body.take (rxCap - head.length) := by
    rw [List.take_append, List.take_of_length_le hroom]
  unfold answer finish
  rw [hrx, (splitHead_append hsplit _).1]
  dsimp only
  rw [List.drop_left]
  rcases hlen with hnone | hsome
  · simp only [hnone, true_or, if_true]
  · rw [hsome]
    dsimp only
    by_cases hwant : min body.length bodyCap ≤ (body.take (rxCap - head.length)).length
    · rw [if_pos hwant, if_pos (.inr hwant), List.take_take, List.take_take]
      have hsame : body.take (min (min body.length bodyCap) (rxCap - head.length)) =
          body.take (min bodyCap (rxCap - head.length)) := by
        rw [List.take_eq_take_iff]
        omega
      rw [hsame]
    · rw [if_neg hwant, if_neg]
      rintro (hno | hle)
      · cases hno
      · exact hwant hle

theorem answer_whole (hsplit : splitHead head = some (hd, head.length))
    (hlen : hd.contentLength = none ∨ hd.contentLength = some body.length)
    (hbody : body.length ≤ bodyCap) (hroom : head.length + body.length ≤ rxCap) :
    answer (head ++ body) = some (.ok body) := by
  have htake : body.take (rxCap - head.length) = body := List.take_of_length_le (by omega)
  rw [answer_split hsplit (by omega) hlen, htake, if_pos (.inr (min_le_left _ _)),
    List.take_of_length_le hbody]

theorem answer_ok {r : Bytes} (hsplit : splitHead head = some (hd, head.length))
    (hlen : hd.contentLength = none ∨ hd.contentLength = some body.length)
    (h : answer (head ++ body) = some (.ok r)) :
    r <+: body ∧ (r = body → body.length ≤ bodyCap ∧ head.length + body.length ≤ rxCap) := by
  by_cases hroom : head.length ≤ rxCap
  · rw [answer_split hsplit hroom hlen] at h
    split at h
    · obtain rfl := Except.ok.inj (Option.some.inj h)
      refine ⟨(List.take_prefix _ _).trans (List.take_prefix _ _), fun hall => ?_⟩
      have hlen := congrArg List.length hall
      rw [List.length_take, List.length_take] at hlen
      omega
    · cases h
  · have hrx : (head ++ body).take rxCap = head.take rxCap :=
      List.take_append_of_le_length (by omega)
    unfold answer finish at h
    rw [hrx] at h
    split at h
    · rename_i head' start hcut
      obtain ⟨hwhole, hle⟩ := splitHead_append hcut (head.drop rxCap)
      rw [List.take_append_drop, hsplit] at hwhole
      obtain ⟨-, rfl⟩ := Prod.mk.inj (Option.some.inj hwhole)
      rw [List.length_take] at hle
      omega
    · rw [if_pos rfl] at h
      cases h

end Body

end Loop

end CoeleoOs.Net
