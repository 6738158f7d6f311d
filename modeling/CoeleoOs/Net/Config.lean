import CoeleoOs.Lib.Memo
import CoeleoOs.Net.Request

/-!
# The network's configuration and its names

A lease sets the address, the route and the name servers; a lookup asks one question at a time and
keeps the last four answers. The stack is what the source uses of it: a poll settles the question
that is open and may have an event of the DHCP client. A round is one poll with the clock behind it.
`trace` has what the kernel and the outside have exchanged, the newest first.
-/

namespace CoeleoOs.Net.Config
open CoeleoOs.Lib

abbrev Name := List Char
abbrev Addr := List ℕ

def lower (name : Name) : Name := name.map asciiLower

structure Cidr where
  address : Addr
  prefixLen : ℕ
  deriving DecidableEq

structure Offer where
  address : Cidr
  router : Option Addr
  dnsServers : List Addr
  deriving DecidableEq

inductive DhcpEvent
  | configured (cfg : Offer)
  | deconfigured

inductive Lease
  | discovering
  | leased (ip : Addr)
  | static
  deriving DecidableEq

structure Round where
  /-- What becomes of an open question: no answer yet, a failure, or addresses. -/
  answer : Option (Option (List Addr))
  event : Option DhcpEvent
  ticks : ℕ

inductive Ev
  | round (r : Round)
  | fallback
  | asked (name : Name)
  | gaveUp
  | line (text : List Char)

inductive Query
  | pending
  | completed (addrs : List Addr)
  | failed
  deriving DecidableEq

structure Cache where
  slots : List (Option (Name × Addr))
  next : ℕ
  deriving DecidableEq

structure NetState where
  addrs : List Cidr
  route : Option Addr
  servers : List Addr
  query : Option Query
  lease : Lease
  announced : Bool
  hasDns : Bool
  dnsCache : Cache
  trace : List Ev

def ourIp : Addr := [10, 0, 2, 15]
def gateway : Addr := [10, 0, 2, 2]
def prefixLen : ℕ := 24
def leaseTimeoutTicks : ℕ := 300
def dnsTimeoutTicks : ℕ := 200
def cacheCap : ℕ := 4

namespace Cache

def empty : Cache := ⟨List.replicate cacheCap none, 0⟩

def lookup (c : Cache) (key : Name) : Option Addr :=
  c.slots.findSome? fun slot => slot.bind fun e => if lower e.1 = lower key then some e.2 else none

def store (c : Cache) (key : Name) (ip : Addr) : Cache :=
  ⟨c.slots.set c.next (some (lower key, ip)), (c.next + 1) % cacheCap⟩

end Cache

def Query.settle (q : Query) (answer : Option (Option (List Addr))) : Query :=
  match q, answer with
  | .pending, some (some addrs) => .completed addrs
  | .pending, some none => .failed
  | q, _ => q

/-- What a call has come to when its rounds have run out or it has returned. -/
inductive Outcome (α : Type)
  | done (a : α) (net : NetState)
  | waiting
  | panic

namespace NetState

def start : NetState := ⟨[], none, [], none, .discovering, false, false, Cache.empty, []⟩

def emit (net : NetState) (e : Ev) : NetState := { net with trace := e :: net.trace }

def updateServers (net : NetState) (maxServers : ℕ) (servers : List Addr) : NetState :=
  { net with servers := servers.take maxServers }

def applyConfigured (net : NetState) (maxServers : ℕ) (cfg : Offer) : NetState :=
  let net := { net with addrs := [cfg.address], route := cfg.router }
  { net.updateServers maxServers cfg.dnsServers with
    hasDns := !cfg.dnsServers.isEmpty, lease := .leased cfg.address.address }

def applyDeconfigured (net : NetState) (maxServers : ℕ) : NetState :=
  let net := { net with addrs := [], route := none }
  { net.updateServers maxServers [] with hasDns := false, lease := .discovering }

def applyStatic (net : NetState) (maxServers : ℕ) : NetState :=
  let net := { net with addrs := [⟨ourIp, prefixLen⟩], route := some gateway }
  { (net.updateServers maxServers []).emit .fallback with hasDns := false, lease := .static }

def onPoll (net : NetState) (maxServers : ℕ) : Option DhcpEvent → NetState
  | none => net
  | some .deconfigured => net.applyDeconfigured maxServers
  | some (.configured cfg) => net.applyConfigured maxServers cfg

def pollInner (net : NetState) (maxServers : ℕ) (r : Round) : NetState :=
  onPoll { net.emit (.round r) with query := net.query.map (·.settle r.answer) } maxServers r.event

def announce (net : NetState) : NetState :=
  if net.announced then net
  else
    let net := { net with announced := true }
    match net.lease with
    | .leased ip => net.emit (.line ("net: ".toList ++ dotted ip ++ ['\n']))
    | .static => net.emit (.line "net: dhcp failed\n".toList)
    | .discovering => net

def awaitLease (maxServers t0 : ℕ) : List Round → NetState → Outcome (Option Addr)
  | [], _ => .waiting
  | r :: rs, net =>
    let net := net.pollInner maxServers r
    match net.lease with
    | .discovering =>
      if leaseTimeoutTicks ≤ r.ticks - t0 then .done none (net.applyStatic maxServers).announce
      else awaitLease maxServers t0 rs net
    | _ => .done none net.announce

def ensureLease (net : NetState) (maxServers t0 : ℕ) (rounds : List Round) :
    Outcome (Option Addr) :=
  match net.lease with
  | .discovering => awaitLease maxServers t0 rounds net
  | _ => .done none net.announce

-- `get_query_result` and `cancel_query` give the slot back; on a free slot they panic.
def awaitAnswer (maxServers : ℕ) (name : Name) (t0 : ℕ) :
    List Round → NetState → Outcome (Option Addr)
  | [], _ => .waiting
  | r :: rs, net =>
    let net := net.pollInner maxServers r
    match net.query with
    | none => .panic
    | some (.completed []) => .done none { net with query := none }
    | some (.completed (ip :: _)) =>
      .done (some ip) { net with query := none, dnsCache := net.dnsCache.store name ip }
    | some .failed => .done none { net with query := none }
    | some .pending =>
      if dnsTimeoutTicks ≤ r.ticks - t0 then .done none ({ net with query := none }.emit .gaveUp)
      else awaitAnswer maxServers name t0 rs net

/-- `accepts` has the names the socket can put into a question. -/
def resolve (net : NetState) (maxServers : ℕ) (accepts : Name → Bool) (name : Name) (t0 : ℕ)
    (rounds : List Round) : Outcome (Option Addr) :=
  if !net.hasDns then .done none net
  else match net.dnsCache.lookup name with
  | some ip => .done (some ip) net
  | none =>
    if net.query.isSome || !accepts name then .done none net
    else awaitAnswer maxServers name t0 rounds ({ net with
      query := some .pending }.emit (.asked name))

end NetState

/-- What the other functions of the module do with the configuration; their loops poll. -/
inductive Call
  | poll (r : Round)
  | ensureLease (t0 : ℕ) (rounds : List Round)
  | resolve (name : Name) (t0 : ℕ) (rounds : List Round)

namespace NetState

def call (maxServers : ℕ) (accepts : Name → Bool) (net : NetState) : Call → Outcome (Option Addr)
  | .poll r => .done none (net.pollInner maxServers r)
  | .ensureLease t0 rounds => net.ensureLease maxServers t0 rounds
  | .resolve name t0 rounds => net.resolve maxServers accepts name t0 rounds

def run (maxServers : ℕ) (accepts : Name → Bool) (net : NetState) :
    List Call → Outcome (Option Addr)
  | [] => .done none net
  | c :: cs =>
    match net.call maxServers accepts c with
    | .done _ net => net.run maxServers accepts cs
    | .waiting => .waiting
    | .panic => .panic

end NetState

/-- How the network is set up: not at all, by an offer, or by the addresses the kernel falls back
on. -/
inductive Setup
  | down
  | offered (cfg : Offer)
  | fallback

def Setup.step (s : Setup) : Ev → Setup
  | .round ⟨_, some (.configured cfg), _⟩ => .offered cfg
  | .round ⟨_, some .deconfigured, _⟩ => .down
  | .fallback => .fallback
  | _ => s

def setup (trace : List Ev) : Setup := trace.foldr (fun e s => s.step e) .down

def Setup.lease : Setup → Lease
  | .down => .discovering
  | .offered cfg => .leased cfg.address.address
  | .fallback => .static

def Setup.line : Setup → Option (List Char)
  | .down => none
  | .offered cfg => some ("net: ".toList ++ dotted cfg.address.address ++ ['\n'])
  | .fallback => some "net: dhcp failed\n".toList

/-- All of the configuration is that of one setup. -/
def Setup.Of (maxServers : ℕ) (net : NetState) : Setup → Prop
  | .down => net.addrs = [] ∧ net.route = none ∧ net.servers = [] ∧ net.hasDns = false
  | .offered cfg => net.addrs = [cfg.address] ∧ net.route = cfg.router ∧
      net.servers = cfg.dnsServers.take maxServers ∧ (net.hasDns = true ↔ net.servers ≠ [])
  | .fallback =>
    net.addrs = [⟨ourIp, prefixLen⟩] ∧ net.route = some gateway ∧ net.servers = [] ∧
      net.hasDns = false

/-- The question that is open and what the network has answered, the newest answer first. -/
structure Heard where
  asking : Option Name
  answers : List (Name × Addr)

def Heard.step (h : Heard) : Ev → Heard
  | .asked name => ⟨some name, h.answers⟩
  | .gaveUp => ⟨none, h.answers⟩
  | .round r =>
    match h.asking, r.answer with
    | some name, some (some (ip :: _)) => ⟨none, (lower name, ip) :: h.answers⟩
    | some _, some _ => ⟨none, h.answers⟩
    | _, _ => h
  | _ => h

def heard (trace : List Ev) : Heard := trace.foldr (fun e h => h.step e) ⟨none, []⟩

def isLine : Ev → Bool
  | .line _ => true
  | _ => false

/-- One line at most, with the setup at the time. -/
def Lines (announced : Bool) (trace : List Ev) : Prop :=
  (trace.countP isLine = if announced then 1 else 0) ∧
    ∀ later text earlier, trace = later ++ .line text :: earlier → (setup earlier).line = some text

/-- How a call ends, or what holds as long as it does not. It never panics. -/
def Outcome.Ends {α : Type} (ended : α → NetState → Prop) (still : Prop) : Outcome α → Prop
  | .done a net => ended a net
  | .waiting => still
  | .panic => False

/-- What holds of the configuration at every time. -/
structure NetState.Sound (maxServers : ℕ) (net : NetState) : Prop where
  config : (setup net.trace).Of maxServers net
  lease : net.lease = (setup net.trace).lease
  lines : Lines net.announced net.trace

/-- The cache has the last answers. -/
structure NetState.Kept (net : NetState) : Prop where
  holds : Memo.Holds cacheCap net.dnsCache.slots net.dnsCache.next (heard net.trace).answers
  lowered : ∀ e, some e ∈ net.dnsCache.slots → lower e.1 = e.1

/-- Between two calls no question is open. -/
structure NetState.Good (maxServers : ℕ) (net : NetState) : Prop
    extends net.Sound maxServers, net.Kept where
  free : net.query = none
  closed : (heard net.trace).asking = none

structure NetState.Asking (net : NetState) (name : Name) : Prop extends net.Kept where
  pending : net.query = some .pending
  asking : (heard net.trace).asking = some name
  unknown : net.dnsCache.lookup name = none

variable {maxServers : ℕ} {net net' : NetState} {name : Name} {trace : List Ev} {announced : Bool}

theorem Outcome.Ends.mono {α : Type} {p q : α → NetState → Prop} {still still' : Prop}
    {o : Outcome α} (h : o.Ends p still) (hended : ∀ a net, p a net → q a net)
    (hstill : still → still') : o.Ends q still' := by
  cases o with
  | done a net => exact hended a net h
  | waiting => exact hstill h
  | panic => exact h

section Names

theorem asciiLower_idem (c : Char) : asciiLower (asciiLower c) = asciiLower c := by
  by_cases hc : 'A' ≤ c ∧ c ≤ 'Z'
  · have hlo : 65 ≤ c.toNat := hc.1
    have hhi : c.toNat ≤ 90 := hc.2
    have hvalid : (c.toNat + 32).isValidChar := .inl (by omega)
    have hval : (Char.ofNat (c.toNat + 32)).toNat = c.toNat + 32 := by
      rw [Char.ofNat, dif_pos hvalid]
      rfl
    have hout : ¬('A' ≤ Char.ofNat (c.toNat + 32) ∧ Char.ofNat (c.toNat + 32) ≤ 'Z') := by
      rintro ⟨-, h⟩
      have hle : (Char.ofNat (c.toNat + 32)).toNat ≤ 90 := h
      omega
    have hlow : asciiLower c = Char.ofNat (c.toNat + 32) := if_pos hc
    rw [hlow, asciiLower, if_neg hout]
  · have hlow : asciiLower c = c := if_neg hc
    rw [hlow, hlow]

theorem lower_idem (name : Name) : lower (lower name) = lower name := by
  rw [lower, lower, List.map_map]
  exact List.map_congr_left fun c _ => asciiLower_idem c

theorem findSome?_congr {α β : Type} {f g : α → Option β} {l : List α} (h : ∀ a ∈ l, f a = g a) :
    l.findSome? f = l.findSome? g := by
  induction l with
  | nil => rfl
  | cons a l ih =>
    rw [List.findSome?_cons, List.findSome?_cons, h a List.mem_cons_self,
      ih fun b hb => h b (List.mem_cons_of_mem a hb)]

theorem NetState.Kept.lookup_eq (h : net.Kept) (name : Name) :
    net.dnsCache.lookup name = Memo.scan net.dnsCache.slots (lower name) := by
  have hslot : ∀ slot ∈ net.dnsCache.slots,
      (slot.bind fun e => if lower e.1 = lower name then some e.2 else none) =
        slot.bind fun e => if e.1 = lower name then some e.2 else none := by
    intro slot hmem
    cases slot with
    | none => rfl
    | some e => rw [Option.bind_some, Option.bind_some, h.lowered e hmem]
  exact findSome?_congr hslot

theorem NetState.Kept.lookup_some (h : net.Kept) {ip : Addr} :
    net.dnsCache.lookup name = some ip ↔
    (lower name, ip) ∈ (heard net.trace).answers.take cacheCap := by
  rw [h.lookup_eq, h.holds.scan_some]

theorem heard_closed {r : Round} (h : (heard trace).asking = none) :
    heard (.round r :: trace) = heard trace := by
  have hstep : heard (.round r :: trace) = (heard trace).step (.round r) := rfl
  rw [hstep, Heard.step, h]

end Names

section Poll

theorem pollInner_fields (net : NetState) (maxServers : ℕ) (r : Round) :
    (net.pollInner maxServers r).trace = .round r :: net.trace ∧
      (net.pollInner maxServers r).query = net.query.map (·.settle r.answer) ∧
      (net.pollInner maxServers r).dnsCache = net.dnsCache ∧
      (net.pollInner maxServers r).announced = net.announced := by
  obtain ⟨answer, event, ticks⟩ := r
  rcases event with _ | (cfg | _)
  · exact ⟨rfl, rfl, rfl, rfl⟩
  · exact ⟨rfl, rfl, rfl, rfl⟩
  · exact ⟨rfl, rfl, rfl, rfl⟩

theorem Lines.cons (h : Lines announced trace) {e : Ev} (he : isLine e = false) :
    Lines announced (e :: trace) := by
  refine ⟨?_, ?_⟩
  · rw [List.countP_cons_of_neg (by rw [he]; exact Bool.false_ne_true)]
    exact h.1
  · intro later text earlier htrace
    rcases List.cons_eq_append_iff.mp htrace with ⟨-, heq⟩ | ⟨later', -, heq⟩
    · rw [← (List.cons.inj heq).1] at he
      cases he
    · exact h.2 later' text earlier heq

theorem Lines.announce (h : Lines false trace) {text : List Char}
    (htext : (setup trace).line = some text) : Lines true (.line text :: trace) := by
  refine ⟨?_, ?_⟩
  · rw [List.countP_cons_of_pos rfl, h.1]
    rfl
  · intro later text' earlier htrace
    rcases List.cons_eq_append_iff.mp htrace with ⟨-, heq⟩ | ⟨later', -, heq⟩
    · obtain ⟨htext', hearlier⟩ := List.cons.inj heq
      rw [hearlier, Ev.line.inj htext']
      exact htext
    · exact h.2 later' text' earlier heq

theorem NetState.Sound.poll (h : net.Sound maxServers) (hmax : 0 < maxServers) (r : Round) :
    (net.pollInner maxServers r).Sound maxServers := by
  obtain ⟨htrace, -, -, hann⟩ := pollInner_fields net maxServers r
  have hlines :
      Lines (net.pollInner maxServers r).announced (net.pollInner maxServers r).trace := by
    rw [htrace, hann]
    exact h.lines.cons rfl
  obtain ⟨answer, event, ticks⟩ := r
  rcases event with _ | (cfg | _)
  · exact ⟨h.config, h.lease, hlines⟩
  · refine ⟨⟨rfl, rfl, rfl, ?_⟩, rfl, hlines⟩
    have hempty : cfg.dnsServers.take maxServers = [] ↔ cfg.dnsServers = [] := by
      rw [List.take_eq_nil_iff, or_iff_right hmax.ne']
    show (!cfg.dnsServers.isEmpty) = true ↔ cfg.dnsServers.take maxServers ≠ []
    rw [Bool.not_eq_true', Ne, hempty, ← List.isEmpty_iff, Bool.not_eq_true]
  · exact ⟨⟨rfl, rfl, List.take_nil, rfl⟩, rfl, hlines⟩

theorem NetState.Sound.static (h : net.Sound maxServers) :
    (net.applyStatic maxServers).Sound maxServers :=
  ⟨⟨rfl, rfl, List.take_nil, rfl⟩, rfl, h.lines.cons rfl⟩

theorem NetState.Sound.announce (h : net.Sound maxServers) (hlease : net.lease ≠ .discovering) :
    net.announce.Sound maxServers ∧ net.announce.announced = true := by
  rw [NetState.announce]
  split
  · next hann => exact ⟨h, hann⟩
  · next hann =>
    have hlines := Bool.eq_false_of_not_eq_true hann ▸ h.lines
    have hset := h.lease
    rcases hsetup : setup net.trace with _ | cfg | _
    · rw [hsetup] at hset
      exact absurd hset hlease
    · rw [hsetup] at hset
      simp only [hset, Setup.lease]
      refine ⟨⟨h.config, (congrArg Setup.lease hsetup).symm, hlines.announce ?_⟩, rfl⟩
      rw [hsetup]
      rfl
    · rw [hsetup] at hset
      simp only [hset, Setup.lease]
      refine ⟨⟨h.config, (congrArg Setup.lease hsetup).symm, hlines.announce ?_⟩, rfl⟩
      rw [hsetup]
      rfl

end Poll

section Calls

variable {t0 : ℕ} {accepts : Name → Bool}

theorem NetState.Good.poll (h : net.Good maxServers) (hmax : 0 < maxServers) (r : Round) :
    (net.pollInner maxServers r).Good maxServers := by
  obtain ⟨htrace, hquery, hcache, -⟩ := pollInner_fields net maxServers r
  have hheard : heard (net.pollInner maxServers r).trace = heard net.trace := by
    rw [htrace, heard_closed h.closed]
  refine ⟨h.toSound.poll hmax r, ⟨?_, ?_⟩, ?_, ?_⟩
  · rw [hcache, hheard]
    exact h.holds
  · rw [hcache]
    exact h.lowered
  · rw [hquery, h.free]
    rfl
  · rw [hheard, h.closed]

theorem announce_fields (net : NetState) :
    net.announce.query = net.query ∧ net.announce.dnsCache = net.dnsCache ∧
    net.announce.lease = net.lease ∧ heard net.announce.trace = heard net.trace := by
  rw [NetState.announce]
  split
  · exact ⟨rfl, rfl, rfl, rfl⟩
  · rcases hlease : net.lease with _ | ip | _
    · exact ⟨rfl, rfl, rfl, rfl⟩
    · exact ⟨rfl, rfl, rfl, rfl⟩
    · exact ⟨rfl, rfl, rfl, rfl⟩

def Leased (maxServers : ℕ) (net : NetState) : Prop :=
  net.Good maxServers ∧ net.lease ≠ .discovering ∧ net.announced = true

theorem NetState.Good.announce (h : net.Good maxServers) (hlease : net.lease ≠ .discovering) :
    Leased maxServers net.announce := by
  obtain ⟨hquery, hcache, hleased, hheard⟩ := announce_fields net
  obtain ⟨hsound, hann⟩ := h.toSound.announce hlease
  refine ⟨⟨hsound, ⟨?_, ?_⟩, ?_, ?_⟩, ?_, hann⟩
  · rw [hcache, hheard]
    exact h.holds
  · rw [hcache]
    exact h.lowered
  · rw [hquery, h.free]
  · rw [hheard, h.closed]
  · rw [hleased]
    exact hlease

theorem awaitLease_ends (hmax : 0 < maxServers) (h : net.Good maxServers) (rounds : List Round) :
    (NetState.awaitLease maxServers t0 rounds net).Ends (fun _ net => Leased maxServers net)
      (∀ r ∈ rounds, r.ticks < t0 + leaseTimeoutTicks) := by
  induction rounds generalizing net with
  | nil => exact fun r hr => absurd hr List.not_mem_nil
  | cons r rs ih =>
    have hpoll := h.poll hmax r
    rw [NetState.awaitLease]
    rcases hlease : (net.pollInner maxServers r).lease with _ | ip | _
    · simp only
      split
      · have hstatic : ((net.pollInner maxServers r).applyStatic maxServers).Good maxServers :=
          ⟨hpoll.toSound.static, ⟨hpoll.holds, hpoll.lowered⟩, hpoll.free, hpoll.closed⟩
        exact hstatic.announce Lease.noConfusion
      · next hticks =>
        refine (ih hpoll).mono (fun _ _ hleased => hleased) fun hrest r' hr' => ?_
        rcases List.mem_cons.mp hr' with rfl | hr'
        · omega
        · exact hrest r' hr'
    · exact hpoll.announce (by rw [hlease]; exact Lease.noConfusion)
    · exact hpoll.announce (by rw [hlease]; exact Lease.noConfusion)

theorem ensureLease_ends (hmax : 0 < maxServers) (h : net.Good maxServers) (rounds : List Round) :
    (net.ensureLease maxServers t0 rounds).Ends (fun _ net => Leased maxServers net)
      (∀ r ∈ rounds, r.ticks < t0 + leaseTimeoutTicks) := by
  rw [NetState.ensureLease]
  rcases hlease : net.lease with _ | ip | _
  · exact awaitLease_ends hmax h rounds
  · exact h.announce (by rw [hlease]; exact Lease.noConfusion)
  · exact h.announce (by rw [hlease]; exact Lease.noConfusion)

/-- An address that is returned is one of the last answers for the name. -/
def Answered (maxServers : ℕ) (name : Name) (a : Option Addr) (net : NetState) : Prop :=
  net.Good maxServers ∧ ∀ ip, a = some ip →
    (lower name, ip) ∈ (heard net.trace).answers.take cacheCap

theorem NetState.Kept.store_lowered (h : net.Kept) {ip : Addr} {e : Name × Addr}
    (he : some e ∈ (net.dnsCache.store name ip).slots) : lower e.1 = e.1 := by
  rcases List.mem_or_eq_of_mem_set he with hold | hnew
  · exact h.lowered e hold
  · rw [Option.some.inj hnew, lower_idem]

theorem awaitAnswer_ends (hmax : 0 < maxServers) (h : net.Sound maxServers) (hask : net.Asking name)
    (rounds : List Round) :
    (NetState.awaitAnswer maxServers name t0 rounds net).Ends (Answered maxServers name)
      (∀ r ∈ rounds, r.ticks < t0 + dnsTimeoutTicks) := by
  induction rounds generalizing net with
  | nil => exact fun r hr => absurd hr List.not_mem_nil
  | cons r rs ih =>
    obtain ⟨htrace, hquery, hcache, -⟩ := pollInner_fields net maxServers r
    have hsound := h.poll hmax r
    have hheard : heard (net.pollInner maxServers r).trace = (heard net.trace).step (.round r) := by
      rw [htrace]
      rfl
    have hlowered :
        ∀ e, some e ∈ (net.pollInner maxServers r).dnsCache.slots → lower e.1 = e.1 := by
      rw [hcache]
      exact hask.lowered
    rw [hask.pending, Option.map_some] at hquery
    rw [Heard.step, hask.asking] at hheard
    have hkept : (heard (net.pollInner maxServers r).trace).answers = (heard net.trace).answers →
        (net.pollInner maxServers r).Kept := by
      intro hsame
      refine ⟨?_, hlowered⟩
      rw [hcache, hsame]
      exact hask.holds
    have hunanswered :
        heard (net.pollInner maxServers r).trace = ⟨none, (heard net.trace).answers⟩ →
        Answered maxServers name none { net.pollInner maxServers r with query := none } := by
      intro hclosed
      have hkept := hkept (by rw [hclosed])
      refine ⟨⟨⟨hsound.config, hsound.lease, hsound.lines⟩, ⟨hkept.holds, hkept.lowered⟩, rfl, ?_⟩,
        fun ip hip => by cases hip⟩
      exact congrArg Heard.asking hclosed
    rw [NetState.awaitAnswer]
    rcases hans : r.answer with _ | _ | _ | ⟨ip, rest⟩
    · rw [hans] at hquery hheard
      have hkept := hkept (congrArg Heard.answers hheard)
      simp only [hquery, Query.settle]
      split
      · have hgood :
            NetState.Good maxServers
              ({ net.pollInner maxServers r with query := none }.emit .gaveUp) :=
          ⟨⟨hsound.config, hsound.lease, hsound.lines.cons rfl⟩, ⟨hkept.holds, hkept.lowered⟩, rfl,
            rfl⟩
        exact ⟨hgood, fun ip hip => by cases hip⟩
      · next hticks =>
        have hasking : (net.pollInner maxServers r).Asking name := by
          refine ⟨hkept, hquery, ?_, ?_⟩
          · rw [hheard, hask.asking]
          · rw [hcache]
            exact hask.unknown
        refine (ih hsound hasking).mono (fun _ _ hanswered => hanswered) fun hrest r' hr' => ?_
        rcases List.mem_cons.mp hr' with rfl | hr'
        · omega
        · exact hrest r' hr'
    · have hclosed :
          heard (net.pollInner maxServers r).trace = ⟨none, (heard net.trace).answers⟩ := by
        rw [hheard, hans]
      rw [hans] at hquery
      simp only [hquery, Query.settle]
      exact hunanswered hclosed
    · have hclosed :
          heard (net.pollInner maxServers r).trace = ⟨none, (heard net.trace).answers⟩ := by
        rw [hheard, hans]
      rw [hans] at hquery
      simp only [hquery, Query.settle]
      exact hunanswered hclosed
    · rw [hans] at hquery hheard
      simp only [hquery, Query.settle]
      have hnew : Memo.scan net.dnsCache.slots (lower name) = none := by
        rw [← hask.lookup_eq, hask.unknown]
      refine ⟨⟨⟨hsound.config, hsound.lease, hsound.lines⟩, ⟨?_, ?_⟩, rfl, ?_⟩, ?_⟩
      · show Memo.Holds cacheCap ((net.pollInner maxServers r).dnsCache.store name ip).slots
          ((net.pollInner maxServers r).dnsCache.store name ip).next
            (heard (net.pollInner maxServers r).trace).answers
        rw [hcache, hheard]
        exact hask.holds.store hnew ip
      · rw [hcache]
        exact fun e he => hask.toKept.store_lowered he
      · exact congrArg Heard.asking hheard
      · rintro ip' hip'
        obtain rfl := Option.some.inj hip'
        show (lower name, ip) ∈ (heard (net.pollInner maxServers r).trace).answers.take cacheCap
        rw [hheard]
        exact List.mem_cons_self

theorem resolve_ends (hmax : 0 < maxServers) (h : net.Good maxServers) (name : Name)
    (rounds : List Round) :
    (net.resolve maxServers accepts name t0 rounds).Ends (Answered maxServers name)
      (∀ r ∈ rounds, r.ticks < t0 + dnsTimeoutTicks) := by
  have hnone : Answered maxServers name none net := ⟨h, fun ip hip => by cases hip⟩
  rw [NetState.resolve]
  split
  · exact hnone
  · rcases hlook : net.dnsCache.lookup name with _ | ip
    · simp only [h.free, Option.isSome_none, Bool.false_or]
      split
      · exact hnone
      · let asked := { net with query := some .pending }.emit (.asked name)
        have hsound : asked.Sound maxServers := ⟨h.config, h.lease, h.lines.cons rfl⟩
        have hasking : asked.Asking name := ⟨⟨h.holds, h.lowered⟩, rfl, rfl, hlook⟩
        exact awaitAnswer_ends hmax hsound hasking rounds
    · refine ⟨h, fun ip' hip' => ?_⟩
      obtain rfl := Option.some.inj hip'
      exact h.lookup_some.mp hlook

theorem resolve_recent (h : net.Good maxServers) (hdns : net.hasDns = true) {ip : Addr}
    (hrecent : (lower name, ip) ∈ (heard net.trace).answers.take cacheCap) (rounds : List Round) :
    net.resolve maxServers accepts name t0 rounds = .done (some ip) net := by
  rw [NetState.resolve, if_neg (by rw [hdns]; decide), h.lookup_some.mpr hrecent]

theorem start_good (maxServers : ℕ) : NetState.start.Good maxServers := by
  refine ⟨⟨⟨rfl, rfl, rfl, rfl⟩, rfl, rfl, ?_⟩, ⟨Memo.holds_empty (by decide), ?_⟩, rfl, rfl⟩
  · intro later text earlier htrace
    cases later with
    | nil => cases htrace
    | cons e later => cases htrace
  · intro e he
    cases List.eq_of_mem_replicate he

theorem call_good (accepts : Name → Bool) (hmax : 0 < maxServers) (h : net.Good maxServers)
    (c : Call) : (net.call maxServers accepts c).Ends (fun _ net => net.Good maxServers) True := by
  cases c with
  | poll r => exact h.poll hmax r
  | ensureLease t0 rounds =>
    exact (ensureLease_ends hmax h rounds).mono (fun _ _ hleased => hleased.1) fun _ => trivial
  | resolve name t0 rounds =>
    exact (resolve_ends hmax h name rounds).mono (fun _ _ hanswered => hanswered.1) fun _ => trivial

theorem run_good (hmax : 0 < maxServers) (h : net.Good maxServers) (calls : List Call) :
    (net.run maxServers accepts calls).Ends (fun _ net => net.Good maxServers) True := by
  induction calls generalizing net with
  | nil => exact h
  | cons c cs ih =>
    have hends := call_good accepts hmax h c
    rw [NetState.run]
    cases hcall : net.call maxServers accepts c with
    | done a net =>
      rw [hcall] at hends
      exact ih hends
    | waiting => trivial
    | panic =>
      rw [hcall] at hends
      exact hends

end Calls

def homeOffer : Offer := ⟨⟨[10, 0, 0, 5], 8⟩, some [10, 0, 0, 1], [[10, 0, 0, 2], [10, 0, 0, 3]]⟩

def bootCalls : List Call :=
  [.ensureLease 0 [⟨none, none, 1⟩, ⟨none, some (.configured homeOffer), 2⟩],
    .resolve ['a', '.', 'i', 'o'] 5 [⟨none, none, 6⟩, ⟨some (some [[1, 2, 3, 4]]), none, 7⟩]]

end CoeleoOs.Net.Config
