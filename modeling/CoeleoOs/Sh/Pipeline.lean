import CoeleoOs.Lib.Calls
import CoeleoOs.Sh.Dispatch
import CoeleoOs.Sh.Words
import CoeleoOs.Task.Caller

/-!
# Pipelines

A line with `|`, `<` or `>` becomes up to four processes, connected by pipes. `run_line` is a
program of system calls; the kernel serves each call as its model does, with any memory of
the caller, and between two calls the other processes go on.
-/

namespace CoeleoOs.Sh
open CoeleoOs.Lib CoeleoOs.Lib.Text CoeleoOs.Task

def maxStages : ℕ := 4
def extraMax : ℕ := 8
def openRead : ℕ := 1
def openWrite : ℕ := 2
def openCreate : ℕ := 4
def openTrunc : ℕ := 8
def spawnFdDefault : ℕ := err

structure Stage where
  words : List (List Char)
  stdinPath : Option (List Char)
  stdoutPath : Option (List Char)
  deriving DecidableEq

def Stage.empty : Stage := ⟨[], none, none⟩

structure ParseState where
  before : List Stage
  cur : Stage
  expectIn : Bool
  expectOut : Bool

def parseTok (st : ParseState) (tok : List Char) : Option ParseState :=
  if st.expectIn then
    if isMeta tok ∨ st.cur.stdinPath.isSome then none
    else some { st with cur := { st.cur with stdinPath := some tok }, expectIn := false }
  else if st.expectOut then
    if isMeta tok ∨ st.cur.stdoutPath.isSome then none
    else some { st with cur := { st.cur with stdoutPath := some tok }, expectOut := false }
  else if tok = ['|'] then
    if st.cur.words = [] then none
    else if maxStages ≤ st.before.length + 1 then none
    else some { st with before := st.before ++ [st.cur], cur := .empty }
  else if tok = ['<'] then some { st with expectIn := true }
  else if tok = ['>'] then some { st with expectOut := true }
  else if maxWords ≤ st.cur.words.length then none
  else some { st with cur := { st.cur with words := st.cur.words ++ [tok] } }

def redirsFit (stages : List Stage) : Bool :=
  (stages.drop 1).all (fun st => st.stdinPath.isNone) && stages.dropLast.all fun st =>
    st.stdoutPath.isNone

def parse (line : List Char) : Option (List Stage) :=
  match (splitWhitespace line).foldlM parseTok ⟨[], .empty, false, false⟩ with
  | none => none
  | some st =>
    if st.expectIn ∨ st.expectOut ∨ st.cur.words = [] then none
    else if redirsFit (st.before ++ [st.cur]) then some (st.before ++ [st.cur])
    else none

inductive Call where
  | pipe
  | open (path : List UInt8) (flags : ℕ)
  | close (fd : ℕ)
  | spawn (s : Spawn) (stdin stdout : ℕ)
  | kill (pid : ℕ)
  | wait
  | write (text : String)

/-- `pipe` fills a pair of descriptors, unless it fails. -/
def Call.Answer : Call → Type
  | .pipe => Option (ℕ × ℕ)
  | _ => ℕ

abbrev Io := Calls Call Call.Answer

def pipe : Io (Option (ℕ × ℕ)) := Calls.ask Call.pipe
def openPath (path : List UInt8) (flags : ℕ) : Io ℕ := Calls.ask (Call.open path flags)
def close (fd : ℕ) : Io ℕ := Calls.ask (Call.close fd)
def spawnEx (s : Spawn) (stdin stdout : ℕ) : Io ℕ := Calls.ask (Call.spawn s stdin stdout)
def kill (pid : ℕ) : Io ℕ := Calls.ask (Call.kill pid)
def wait : Io ℕ := Calls.ask Call.wait
def write (text : String) : Io ℕ := Calls.ask (Call.write text)

def closeFd (fd : ℕ) : Io Unit :=
  if fd ≠ err then do let _ ← close fd
  else pure ()

def closeFds : List ℕ → Io Unit
  | [] => pure ()
  | fd :: fds => do
    closeFd fd
    closeFds fds

def closePipes : List (ℕ × ℕ) → Io Unit
  | [] => pure ()
  | p :: pipes => do
    closeFd p.1
    closeFd p.2
    closePipes pipes

def killAll : List ℕ → Io Unit
  | [] => pure ()
  | pid :: pids => do
    let _ ← kill pid
    killAll pids

def waitTimes : ℕ → Io Unit
  | 0 => pure ()
  | n + 1 => do
    let _ ← wait
    waitTimes n

def abortPipeline (pids : List ℕ) (pipes : List (ℕ × ℕ)) (extra : List ℕ) : Io Unit := do
  closePipes pipes
  closeFds extra
  killAll pids
  waitTimes pids.length

def openPipes : ℕ → List (ℕ × ℕ) → Io (Option (List (ℕ × ℕ)))
  | 0, pipes => pure (some pipes)
  | n + 1, pipes => do
    match ← pipe with
    | none =>
      closePipes pipes
      let _ ← write "pipe: failed\n"
      pure none
    | some p => openPipes n (pipes ++ [p])

def openRedir (cwd : List UInt8) (arg : List Char) (flags : ℕ)
    (extra : List ℕ) : Io (Option (ℕ × List ℕ)) := do
  let fd ← openPath (resolve cwd (utf8 arg)) flags
  if fd = err then
    let _ ← write "open: failed\n"
    pure none
  else if extraMax ≤ extra.length then
    let _ ← close fd
    pure none
  else pure (some (fd, extra ++ [fd]))

def stageFd (cwd : List UInt8) (path : Option (List Char)) (flags fd : ℕ) (extra : List ℕ) :
    Io (Option (ℕ × List ℕ)) :=
  match path with
  | some arg => openRedir cwd arg flags extra
  | none => pure (some (fd, extra))

def trySpawn (stdin stdout : ℕ) : List Spawn → Io ℕ
  | [] => pure err
  | s :: rest => do
    let pid ← spawnEx s stdin stdout
    if pid ≠ err then pure pid else trySpawn stdin stdout rest

def stageStdin (pipes : List (ℕ × ℕ)) (i : ℕ) : ℕ :=
  if 0 < i then (pipes.getD (i - 1) (err, err)).1 else spawnFdDefault

def stageStdout (pipes : List (ℕ × ℕ)) (i : ℕ) (rest : List Stage) : ℕ :=
  if rest ≠ [] then (pipes.getD i (err, err)).2 else spawnFdDefault

def spawnFailed (pids : List ℕ) (pipes : List (ℕ × ℕ)) (extra : List ℕ) : Io Unit := do
  abortPipeline pids pipes extra
  let _ ← write "spawn: failed\n"

def runStages (cwd : List UInt8) (pipes : List (ℕ × ℕ)) : ℕ → List Stage → List ℕ → List ℕ → Io Unit
  | _, [], extra, pids => do
    closePipes pipes
    closeFds extra
    waitTimes pids.length
  | i, st :: rest, extra, pids => do
    match ← stageFd cwd st.stdinPath openRead (stageStdin pipes i) extra with
    | none => abortPipeline pids pipes extra
    | some (stdin, extra) =>
      match ← stageFd cwd st.stdoutPath (openWrite ||| openCreate ||| openTrunc)
        (stageStdout pipes i rest) extra with
      | none => abortPipeline pids pipes extra
      | some (stdout, extra) =>
        match packWords cwd st.words, st.words with
        | some blob, name :: _ =>
          let pid ← trySpawn stdin stdout (spawnElf cwd name blob)
          if pid = err then spawnFailed pids pipes extra
          else runStages cwd pipes (i + 1) rest extra (pids ++ [pid])
        | _, _ => spawnFailed pids pipes extra

def runLine (cwd : List UInt8) (line : List Char) : Io Unit := do
  match parse line with
  | none => let _ ← write "sh: parse error\n"
  | some stages =>
    match ← openPipes (stages.length - 1) [] with
    | none => pure ()
    | some pipes => runStages cwd pipes 0 stages [] []

section Kernel

/-- The caller's memory, and where its arguments lie in it. What a path opens or loads is for
the environment to say. -/
structure User where
  e : Env
  ptr : ℕ
  len : ℕ

def pairWritten : List UserOp → Option (ℕ × ℕ)
  | [.write _ src] => some (leNat (src.take 4), leNat ((src.drop 4).take 4))
  | _ => none

def Call.out (u : User) : (c : Call) → Kernel → Option (c.Answer × Kernel)
  | .pipe, k => ((sysPipe u.ptr).out u.e k).map fun r =>
    (if r.1 = err then none else pairWritten ((sysPipe u.ptr).log u.e k), r.2)
  | .open _ flags, k => (sysOpen u.ptr u.len flags).out u.e k
  | .close fd, k => (sysClose fd).out u.e k
  | .spawn _ _ _, k => (sysSpawn u.ptr).out u.e k
  | .kill pid, k => (sysKillCall pid).out u.e k
  | .wait, k =>
    match waitRound.out u.e k with
    | some (.ret v, k') => some (v, k')
    | _ => none
  | .write _, k => some (u.len, k)

/-- The kernel; the slots of the processes that the line has started and that are not reaped
yet; and how many other children its waits have taken. -/
structure Ledger where
  k : Kernel
  own : List Slot
  others : ℕ

def track (k k' : Kernel) (own : List Slot) : List Slot :=
  own.filter (fun i => (k'.sched.procs i).isSome) ++
    (List.finRange maxProc).filter fun i => (k.sched.procs i).isNone && (k'.sched.procs i).isSome

variable (cur : Slot)

/-- The first zombie child is not one of the line. -/
def takesOther : Call → Ledger → Bool
  | .wait, s =>
    (s.k.sched.procs cur).any fun p => (zombieChild s.k.sched p.pid).any fun i => i ∉ s.own
  | _, _ => false

def reply (u : User) (c : Call) (s : Ledger) : Option (c.Answer × Ledger) :=
  if s.k.sched.current = some cur then
    (c.out u s.k).map fun r =>
      (r.1, ⟨r.2, track s.k r.2 s.own, s.others + if takesOther cur c s then 1 else 0⟩)
  else none

def serve (c : Call) (s : Ledger) (a : c.Answer) (s' : Ledger) : Prop :=
  ∃ u, reply cur u c s = some (a, s')

def drift (s s' : Ledger) : Prop := s'.own = s.own ∧ s'.others = s.others ∧ Beside cur s.k s'.k

end Kernel

section Descriptors

def StdOpen (t : FdTable) : Prop := ∀ i : Fin fdMax, i.val ≤ 2 → t.slots i ≠ none

/-- The table is the first one, but for the descriptors that are held. -/
structure Holds (t₀ t : FdTable) (held : List ℕ) : Prop where
  nodup : held.Nodup
  each : ∀ fd ∈ held, 2 < fd ∧ ∃ h : fd < fdMax, t₀.slots ⟨fd, h⟩ = none ∧ t.slots ⟨fd, h⟩ ≠ none
  rest : ∀ i : Fin fdMax, i.val ∉ held → t.slots i = t₀.slots i

variable {t₀ t : FdTable} {held : List ℕ}

theorem holds_nil : Holds t₀ t [] ↔ t = t₀ := by
  constructor
  · intro h
    obtain ⟨slots⟩ := t
    obtain ⟨slots₀⟩ := t₀
    congr 1
    funext i
    exact h.rest i (List.not_mem_nil)
  · rintro rfl
    exact ⟨List.nodup_nil, fun _ h => absurd h List.not_mem_nil, fun _ _ => rfl⟩

theorem Holds.add (h : Holds t₀ t held) (hstd : StdOpen t₀) {i : Fin fdMax} (hi : t.slots i = none)
    (of : OpenFd) : Holds t₀ ⟨Function.update t.slots i (some of)⟩ (held ++ [i.val]) := by
  have hnew : i.val ∉ held := by
    intro hmem
    obtain ⟨-, hlt, -, hsome⟩ := h.each i.val hmem
    exact hsome hi
  have hfree : t₀.slots i = none := by rw [← h.rest i hnew, hi]
  refine ⟨List.nodup_append.mpr ⟨h.nodup, List.nodup_singleton _, ?_⟩,
    fun fd hfd => ?_, fun j hj => ?_⟩
  · intro a ha b hb
    obtain rfl := List.mem_singleton.mp hb
    exact fun heq => hnew (heq ▸ ha)
  · rcases List.mem_append.mp hfd with hfd | hfd
    · obtain ⟨hlow, hlt, hnone, hsome⟩ := h.each fd hfd
      refine ⟨hlow, hlt, hnone, ?_⟩
      have hne : (⟨fd, hlt⟩ : Fin fdMax) ≠ i := fun heq => hnew (by rw [← heq]; exact hfd)
      change Function.update t.slots i (some of) _ ≠ none
      rw [Function.update_of_ne hne]
      exact hsome
    · obtain rfl := List.mem_singleton.mp hfd
      refine ⟨Nat.lt_of_not_le fun hle => hstd i hle hfree, i.isLt, hfree, ?_⟩
      change Function.update t.slots i (some of) i ≠ none
      rw [Function.update_self]
      exact Option.some_ne_none of
  · rw [List.mem_append, List.mem_singleton, not_or] at hj
    change Function.update t.slots i (some of) j = _
    rw [Function.update_of_ne (fun heq => hj.2 (congrArg Fin.val heq)), h.rest j hj.1]

theorem Holds.alloc (h : Holds t₀ t held) (hstd : StdOpen t₀) (of : OpenFd) :
    (t.alloc of = (err, t)) ∨ (t.alloc of).1 ≠ err ∧
    Holds t₀ (t.alloc of).2 (held ++ [(t.alloc of).1]) := by
  rcases FdTable.alloc_cases t of with ⟨i, hi, halloc⟩ | halloc
  · refine .inr ?_
    rw [halloc]
    have hlt := i.isLt
    refine ⟨?_, h.add hstd hi of⟩
    simp only [fdMax, err] at *
    omega
  · exact .inl halloc

theorem Holds.allocPair (h : Holds t₀ t held) (hstd : StdOpen t₀) {id : PipeId} {r w : ℕ}
    (hpair : (Task.allocPair id t).1 = some (r, w)) :
    r < fdMax ∧ w < fdMax ∧ Holds t₀ (Task.allocPair id t).2 (held ++ [r, w]) := by
  rw [Task.allocPair] at hpair ⊢
  rcases h.alloc hstd (.pipe id false) with hfail | ⟨hok, hr⟩
  · rw [hfail] at hpair
    cases hpair
  rcases halloc : t.alloc (.pipe id false) with ⟨r', t'⟩
  rw [halloc] at hpair hok hr
  dsimp only at hpair hok hr ⊢
  rw [if_neg hok] at hpair ⊢
  rcases hr.alloc hstd (.pipe id true) with hfail | ⟨hok', hw⟩
  · rw [hfail] at hpair
    cases hpair
  rcases halloc' : t'.alloc (.pipe id true) with ⟨w', t''⟩
  rw [halloc'] at hpair hok' hw
  dsimp only at hpair hok' hw ⊢
  rw [if_neg hok'] at hpair ⊢
  obtain ⟨rfl, rfl⟩ := Prod.mk.inj (Option.some.inj hpair)
  rw [List.append_assoc] at hw
  obtain ⟨-, hlt, -⟩ := hw.each r' (by simp)
  obtain ⟨-, hlt', -⟩ := hw.each w' (by simp)
  exact ⟨hlt, hlt', hw⟩

theorem Holds.take {left right : List ℕ} {fd : ℕ} (h : Holds t₀ t (left ++ fd :: right)) :
    Holds t₀ (t.take fd).2 (left ++ right) := by
  obtain ⟨-, hlt, hfree, -⟩ := h.each fd (by simp)
  have hnodup := List.nodup_middle.mp h.nodup
  have hsub : ∀ a ∈ left ++ right, a ≠ fd :=
    fun a ha heq => (List.nodup_cons.mp hnodup).1 (heq ▸ ha)
  rw [FdTable.take, dif_pos hlt]
  refine ⟨(List.nodup_cons.mp hnodup).2, fun a ha => ?_, fun i hi => ?_⟩
  · have hmem : a ∈ left ++ fd :: right := by
      rw [List.mem_append, List.mem_cons]
      rcases List.mem_append.mp ha with ha | ha
      · exact .inl ha
      · exact .inr (.inr ha)
    obtain ⟨hlow, hlta, hnone, hsome⟩ := h.each a hmem
    refine ⟨hlow, hlta, hnone, ?_⟩
    change Function.update t.slots _ none _ ≠ none
    rw [Function.update_of_ne fun heq => hsub a ha (congrArg Fin.val heq)]
    exact hsome
  · change Function.update t.slots _ none i = _
    by_cases hfd : i = ⟨fd, hlt⟩
    · rw [hfd, Function.update_self, hfree]
    · rw [Function.update_of_ne hfd]
      refine h.rest i fun hmem => ?_
      rw [List.mem_append, List.mem_cons] at hmem
      rw [List.mem_append, not_or] at hi
      rcases hmem with hmem | heq | hmem
      · exact hi.1 hmem
      · exact hfd (Fin.ext heq)
      · exact hi.2 hmem

end Descriptors

/-- The line holds some descriptors, and as many of its processes are to be waited for as are
not reaped, less the other children that its waits have taken. -/
structure Inv (cur : Slot) (t₀ : FdTable) (pid : ℕ) (held : List ℕ) (left : ℕ) (s : Ledger) :
    Prop where
  proc : ∃ p, s.k.At cur p ∧ p.pid = pid ∧ Holds t₀ p.fds held ∧ (0 < left → p.spawnedChild = true)
  nodup : s.own.Nodup
  child : ∀ i ∈ s.own, s.k.Child pid i
  count : s.own.length = left + s.others

section Calls

variable {cur : Slot} {t₀ : FdTable} {pid left : ℕ} {held : List ℕ} {s s' : Ledger}

theorem Inv.drift (h : Inv cur t₀ pid held left s) (hd : drift cur s s') :
    Inv cur t₀ pid held left s' := by
  obtain ⟨hown, hothers, hbeside⟩ := hd
  obtain ⟨p, hp, rfl, hfds, hspawned⟩ := h.proc
  obtain ⟨p', hstay, hfds', hchild⟩ := hbeside p hp
  refine ⟨⟨p', hstay.after, hstay.pid, hfds' ▸ hfds, fun hl => hstay.spawned (hspawned hl)⟩,
    hown ▸ h.nodup, ?_, ?_⟩
  · rw [hown]
    exact fun i hi => (hchild i).mpr (h.child i hi)
  · rw [hown, hothers]
    exact h.count

theorem track_eq {k k' : Kernel} {own : List Slot}
    (hkept : ∀ i ∈ own, (k'.sched.procs i).isSome = true)
    (hnew : ∀ i, k.sched.procs i = none → k'.sched.procs i = none) : track k k' own = own := by
  have hold : own.filter (fun i => (k'.sched.procs i).isSome) = own := List.filter_eq_self.mpr hkept
  have hnone :
      (List.finRange maxProc).filter (fun i => (k.sched.procs i).isNone &&
        (k'.sched.procs i).isSome) = [] := by
    rw [List.filter_eq_nil_iff]
    intro i _
    cases hi : k.sched.procs i with
    | none => simp [hnew i hi]
    | some q => simp
  rw [track, hold, hnone, List.append_nil]

theorem child_taken {k : Kernel} {i : Slot} (h : k.Child pid i) :
    (k.sched.procs i).isSome = true := by
  obtain ⟨q, hq, -⟩ := h
  rw [hq]
  rfl

theorem Inv.fds {p : Pcb} (h : Inv cur t₀ pid held left s) (hp : s.k.At cur p) {k' : Kernel}
    {held' : List ℕ} {p' : Pcb} (hstay : s.k.Stays k' cur p p') (hocc : s.k.Occupied k')
    (hfds : Holds t₀ p'.fds held') :
    Inv cur t₀ pid held' left ⟨k', track s.k k' s.own, s.others⟩ := by
  obtain ⟨q, hq, hpid, -, hspawned⟩ := h.proc
  obtain rfl := Option.some.inj (hq.here.symm.trans hp.here)
  have hown : track s.k k' s.own = s.own := by
    refine track_eq (fun i hi => (hocc.taken i).trans (child_taken (h.child i hi))) fun i hi => ?_
    have htaken := hocc.taken i
    rw [hi] at htaken
    exact Option.not_isSome_iff_eq_none.mp (by simp [htaken])
  rw [hown]
  exact ⟨⟨p', hstay.after, hstay.pid.trans hpid, hfds, fun hl => hstay.spawned (hspawned hl)⟩,
    h.nodup, fun i hi => (hocc.child pid i).mpr (h.child i hi), h.count⟩

theorem served {c : Call} {a : c.Answer} (h : Inv cur t₀ pid held left s)
    (hs : serve cur c s a s') :
    ∃ u p k', s.k.sched.current = some cur ∧ s.k.At cur p ∧ p.pid = pid ∧ Holds t₀ p.fds held ∧
      (0 < left → p.spawnedChild = true) ∧ c.out u s.k = some (a, k') ∧
      s' = ⟨k', track s.k k' s.own, s.others + if takesOther cur c s then 1 else 0⟩ := by
  obtain ⟨u, hu⟩ := hs
  rw [reply] at hu
  split at hu
  · rename_i hcur
    obtain ⟨⟨a', k'⟩, hout, heq⟩ := Option.map_eq_some_iff.mp hu
    obtain ⟨rfl, rfl⟩ := Prod.mk.inj heq
    obtain ⟨p, hp, hpid, hfds, hspawned⟩ := h.proc
    exact ⟨u, p, k', hcur, hp, hpid, hfds, hspawned, hout, rfl⟩
  · cases hu

theorem serve_open {path : List UInt8} {flags fd : ℕ} (hstd : StdOpen t₀)
    (h : Inv cur t₀ pid held left s) (hs : serve cur (.open path flags) s fd s') :
    (fd = err ∧ Inv cur t₀ pid held left s') ∨
    (fd ≠ err ∧ Inv cur t₀ pid (held ++ [fd]) left s') := by
  obtain ⟨u, p, k', hcur, hp, rfl, hfds, -, hout, rfl⟩ := served h hs
  rcases sysOpen_caller hcur hp.here fd k' hout with ⟨rfl, rfl⟩ | ⟨of, rfl, hsched⟩
  · refine .inl ⟨rfl, h.fds hp ⟨hp, rfl, id⟩ ⟨fun _ => rfl, fun _ _ => .rfl⟩ hfds⟩
  · obtain ⟨p', hstay, hfds', hocc⟩ := setFds_stays hp _ (.inl rfl) hsched
    rcases hfds.alloc hstd of with hfail | ⟨hok, hnew⟩
    · rw [hfail] at hfds' ⊢
      exact .inl ⟨rfl, h.fds hp hstay hocc (hfds' ▸ hfds)⟩
    · exact .inr ⟨hok, h.fds hp hstay hocc (hfds' ▸ hnew)⟩

theorem leNat_fd {fd : ℕ} (h : fd < fdMax) : leNat (leBytes 4 fd) = fd :=
  leNat_leBytes 4 fd (h.trans (by decide))

theorem serve_pipe {a : Option (ℕ × ℕ)} (hstd : StdOpen t₀) (h : Inv cur t₀ pid held left s)
    (hs : serve cur .pipe s a s') :
    (a = none ∧ Inv cur t₀ pid held left s') ∨
      ∃ r w, a = some (r, w) ∧ Inv cur t₀ pid (held ++ [r, w]) left s' := by
  obtain ⟨u, p, k', hcur, hp, rfl, hfds, -, hout, rfl⟩ := served h hs
  obtain ⟨⟨v, k''⟩, hcall, heq⟩ := Option.map_eq_some_iff.mp hout
  obtain ⟨rfl, rfl⟩ := Prod.mk.inj heq
  have hspec := @sysPipe_caller u.e s.k cur p hcur hp.here u.ptr
  rw [Eff.wpLog, hcall] at hspec
  rcases hspec with ⟨rfl, hsched⟩ | ⟨rfl, id, r, w, hpair, hlog, hsched⟩
  · have hsame : k''.sched = s.k.sched.setProc cur { p with fds := p.fds } :=
      hsched.trans (Sched.setProc_eq_self hp.here).symm
    obtain ⟨p', hstay, hfds', hocc⟩ := setFds_stays hp p.fds (.inl rfl) hsame
    exact .inl ⟨rfl, h.fds hp hstay hocc (hfds' ▸ hfds)⟩
  · obtain ⟨hr, hw, hnew⟩ := hfds.allocPair hstd hpair
    obtain ⟨p', hstay, hfds', hocc⟩ := setFds_stays hp _ (.inl rfl) hsched
    refine .inr ⟨r, w, ?_, h.fds hp hstay hocc (hfds' ▸ hnew)⟩
    have hlen := leBytes_length 4 r
    have hlen' := leBytes_length 4 w
    change pairWritten ((sysPipe u.ptr).log u.e s.k) = some (r, w)
    rw [hlog, pairWritten, List.take_left' hlen, List.drop_left' hlen,
      List.take_of_length_le hlen'.le, leNat_fd hr, leNat_fd hw]

theorem serve_close {before after : List ℕ} {fd a : ℕ}
    (h : Inv cur t₀ pid (before ++ fd :: after) left s) (hs : serve cur (.close fd) s a s') :
    Inv cur t₀ pid (before ++ after) left s' := by
  obtain ⟨u, p, k', hcur, hp, rfl, hfds, -, hout, rfl⟩ := served h hs
  obtain ⟨hlow, -⟩ := hfds.each fd (by simp)
  obtain ⟨p', hstay, hfds', hocc⟩ :=
    setFds_stays hp _ (sysClose_caller hcur hp.here hlow a k' hout) rfl
  exact h.fds hp hstay hocc (hfds' ▸ hfds.take)

theorem serve_kill {n a : ℕ} (h : Inv cur t₀ pid held left s) (hs : serve cur (.kill n) s a s') :
    Inv cur t₀ pid held left s' := by
  obtain ⟨u, p, k', hcur, hp, rfl, hfds, -, hout, rfl⟩ := served h hs
  rcases sysKill_caller hcur hp.here a k' hout with rfl | ⟨v, q, hq, hparent, rfl⟩
  · exact h.fds hp ⟨hp, rfl, id⟩ ⟨fun _ => rfl, fun _ _ => .rfl⟩ hfds
  · have hne : cur ≠ v := by
      rintro rfl
      obtain rfl := Option.some.inj (hp.here.symm.trans hq)
      exact hp.apart hparent
    obtain ⟨p', hstay, hfds', hocc⟩ := makeZombieLocked_stays hp hne false
    exact h.fds hp hstay hocc (hfds' ▸ hfds)

theorem serve_write {text : String} {a : ℕ} (h : Inv cur t₀ pid held left s)
    (hs : serve cur (.write text) s a s') : Inv cur t₀ pid held left s' := by
  obtain ⟨u, p, k', hcur, hp, rfl, hfds, -, hout, rfl⟩ := served h hs
  obtain ⟨rfl, rfl⟩ := Prod.mk.inj (Option.some.inj hout)
  exact h.fds hp ⟨hp, rfl, id⟩ ⟨fun _ => rfl, fun _ _ => .rfl⟩ hfds

theorem serve_spawn {sp : Spawn} {stdin stdout a : ℕ} (h : Inv cur t₀ pid held left s)
    (hs : serve cur (.spawn sp stdin stdout) s a s') :
    (a = err ∧ Inv cur t₀ pid held left s') ∨ (a ≠ err ∧ Inv cur t₀ pid held (left + 1) s') := by
  obtain ⟨u, p, k', hcur, hp, rfl, hfds, hspawned, hout, rfl⟩ := served h hs
  have hsame : ∀ k' : Kernel, k'.sched = s.k.sched →
      Inv cur t₀ p.pid held left ⟨k', track s.k k' s.own, s.others⟩ := by
    intro k' hsched
    obtain ⟨p', hstay, hfds', hocc⟩ :=
      setFds_stays hp p.fds (.inl rfl) (hsched.trans (Sched.setProc_eq_self hp.here).symm)
    exact h.fds hp hstay hocc (hfds' ▸ hfds)
  rcases sysSpawn_caller hcur hp.here a k' hout with ⟨rfl, rfl⟩ | ⟨load, path, stdinFd,
      stdoutFd, rfl, rfl⟩
  · exact .inl ⟨rfl, hsame _ rfl⟩
  rcases spawnWith_stays hp load path stdinFd stdoutFd with
    ⟨hnone, hsched⟩ | ⟨slot, p', n, hn, hne, hfree, hstay, hfds', hmarked, htaken, hchild⟩
  · rw [hnone]
    exact .inl ⟨rfl, hsame _ hsched⟩
  · rw [hn]
    refine .inr ⟨hne, ?_⟩
    have hfresh : slot ∉ s.own := fun hmem => by
      have := child_taken (h.child slot hmem)
      rw [hfree] at this
      cases this
    have hold :
        s.own.filter (fun i => ((spawnWith s.k load path p.pid stdinFd stdoutFd).2.sched.procs
          i).isSome) =
        s.own := by
      refine List.filter_eq_self.mpr fun i hi => ?_
      rw [htaken, child_taken (h.child i hi)]
      rfl
    have hnew : (List.finRange maxProc).filter (fun i => (s.k.sched.procs i).isNone &&
        ((spawnWith s.k load path p.pid stdinFd stdoutFd).2.sched.procs i).isSome) = [slot] := by
      have hpred : ∀ i, ((s.k.sched.procs i).isNone &&
          ((spawnWith s.k load path p.pid stdinFd stdoutFd).2.sched.procs i).isSome) =
            decide (i = slot) := by
        intro i
        rw [htaken]
        by_cases hi : i = slot
        · simp [hi, hfree]
        · cases hpi : s.k.sched.procs i <;> simp [hi]
      simp only [hpred]
      rw [List.filter_eq, List.count_eq_one_of_mem (List.nodup_finRange _) (List.mem_finRange slot),
        List.replicate_one]
    have hown :
        track s.k (spawnWith s.k load path p.pid stdinFd stdoutFd).2 s.own = s.own ++ [slot] := by
      rw [track, hold, hnew]
    rw [hown]
    refine ⟨⟨p', hstay.after, hstay.pid, hfds' ▸ hfds, fun _ => hmarked⟩, ?_,
      fun i hi => (hchild i).mpr ?_, ?_⟩
    · refine List.nodup_append.mpr ⟨h.nodup, List.nodup_singleton _, fun a ha b hb => ?_⟩
      obtain rfl := List.mem_singleton.mp hb
      exact fun heq => hfresh (heq ▸ ha)
    · rcases List.mem_append.mp hi with hi | hi
      · exact .inl (h.child i hi)
      · exact .inr (List.mem_singleton.mp hi)
    · have hcount := h.count
      rw [List.length_append, List.length_singleton]
      change s.own.length + 1 = left + 1 + s.others
      omega

theorem serve_wait {a : ℕ} (h : Inv cur t₀ pid held (left + 1) s) (hs : serve cur .wait s a s') :
    Inv cur t₀ pid held left s' := by
  obtain ⟨u, p, k', hcur, hp, rfl, hfds, hspawned, hout, rfl⟩ := served h hs
  have hret : waitRound.out u.e s.k = some (.ret a, k') := by
    change (match waitRound.out u.e s.k with
      | some (.ret v, k') => some (v, k')
      | _ => none) = some (a, k') at hout
    split at hout
    · rename_i v k'' hround
      obtain ⟨rfl, rfl⟩ := Prod.mk.inj (Option.some.inj hout)
      exact hround
    · cases hout
  obtain ⟨i, hi, rfl⟩ := waitRound_caller hcur hp.here (hspawned (Nat.succ_pos left)) hret
  obtain ⟨z, hz, hparent, hzombie⟩ := zombieChild_some hi
  have hne : cur ≠ i := by
    rintro rfl
    obtain rfl := Option.some.inj (hp.here.symm.trans hz)
    exact hp.alive hzombie
  obtain ⟨hstay, hchild⟩ := removeSlot_stays hp hne
  have htakes : takesOther cur .wait s = decide (i ∉ s.own) := by
    rw [takesOther, hp.here, Option.any_some, hi, Option.any_some]
  have hown : track s.k (removeSlot s.k i) s.own = s.own.erase i := by
    have hnone : (List.finRange maxProc).filter (fun j => (s.k.sched.procs j).isNone &&
        ((removeSlot s.k i).sched.procs j).isSome) = [] := by
      rw [List.filter_eq_nil_iff]
      intro j _
      rw [removeSlot_procs]
      by_cases hj : j = i
      · simp [hj]
      · cases s.k.sched.procs j <;> simp [hj]
    rw [track, hnone, List.append_nil, h.nodup.erase_eq_filter]
    refine List.filter_congr fun j hj => ?_
    rw [removeSlot_procs]
    by_cases hji : j = i
    · simp [hji]
    · rw [if_neg hji, child_taken (h.child j hj)]
      simp [hji]
  rw [hown, htakes]
  refine ⟨⟨p, hstay.after, rfl, hfds, fun hl => hspawned (Nat.succ_pos left)⟩, h.nodup.erase i,
    fun j hj => ?_, ?_⟩
  · have hmem := List.mem_of_mem_erase hj
    exact (hchild p.pid j).mpr ⟨h.child j hmem, fun heq => (h.nodup.not_mem_erase) (heq ▸ hj)⟩
  · have hcount := h.count
    change (s.own.erase i).length = left + (s.others + if decide (i ∉ s.own) = true then 1 else 0)
    by_cases hmem : i ∈ s.own
    · have hpos := List.length_pos_of_mem hmem
      rw [List.length_erase_of_mem hmem, if_neg (by simp [hmem])]
      omega
    · rw [List.erase_of_not_mem hmem, if_pos (by simp [hmem])]
      omega

end Calls

def pipeFds (pipes : List (ℕ × ℕ)) : List ℕ := pipes.flatMap fun p => [p.1, p.2]

section Program

variable {cur : Slot} {t₀ : FdTable} {pid left : ℕ} {held extra : List ℕ}

abbrev Spec (cur : Slot) (t₀ : FdTable) (pid : ℕ) {β : Type} (held : List ℕ) (left : ℕ) (m : Io β)
    (Q : β → Ledger → Prop) : Prop :=
  Calls.Triple (drift cur) (serve cur) (Inv cur t₀ pid held left) m Q

theorem ask_spec {c : Call} {Q : c.Answer → Ledger → Prop}
    (h : ∀ s a s', Inv cur t₀ pid held left s → serve cur c s a s' → Q a s') :
    Spec cur t₀ pid held left (Calls.ask c) Q :=
  Calls.triple_ask (fun _ _ hinv hd => hinv.drift hd) h

theorem write_spec (text : String) :
    Spec cur t₀ pid held left (write text) fun _ => Inv cur t₀ pid held left :=
  ask_spec fun _ _ _ => serve_write

theorem wait_spec : Spec cur t₀ pid held (left + 1) wait fun _ => Inv cur t₀ pid held left :=
  ask_spec fun _ _ _ => serve_wait

theorem kill_spec (n : ℕ) : Spec cur t₀ pid held left (kill n) fun _ => Inv cur t₀ pid held left :=
  ask_spec fun _ _ _ => serve_kill

theorem close_spec (before after : List ℕ) (fd : ℕ) :
    Spec cur t₀ pid (before ++ fd :: after) left (close fd) fun _ =>
      Inv cur t₀ pid (before ++ after) left :=
  ask_spec fun _ _ _ => serve_close

theorem closeFd_spec (fd : ℕ) (rest : List ℕ) :
    Spec cur t₀ pid (fd :: rest) left (closeFd fd) fun _ => Inv cur t₀ pid rest left := by
  unfold closeFd
  split
  · exact (close_spec [] rest fd).bind fun _ => Calls.triple_pure fun _ h => h
  · rename_i hfd
    refine Calls.triple_pure fun s h => ?_
    obtain ⟨p, -, -, hholds, -⟩ := h.proc
    obtain ⟨-, hlt, -⟩ := hholds.each fd List.mem_cons_self
    rw [not_not.mp hfd] at hlt
    exact absurd hlt (by decide)

theorem closeFds_spec (fds rest : List ℕ) :
    Spec cur t₀ pid (fds ++ rest) left (closeFds fds) fun _ => Inv cur t₀ pid rest left := by
  induction fds with
  | nil => exact Calls.triple_pure fun _ h => h
  | cons fd fds ih => exact (closeFd_spec fd (fds ++ rest)).bind fun _ => ih

theorem closePipes_spec (pipes : List (ℕ × ℕ)) (rest : List ℕ) :
    Spec cur t₀ pid (pipeFds pipes ++ rest) left (closePipes pipes) fun _ =>
      Inv cur t₀ pid rest left := by
  induction pipes with
  | nil => exact Calls.triple_pure fun _ h => h
  | cons p pipes ih =>
    refine (closeFd_spec p.1 (p.2 :: (pipeFds pipes ++ rest))).bind fun _ => ?_
    exact (closeFd_spec p.2 (pipeFds pipes ++ rest)).bind fun _ => ih

theorem killAll_spec (pids : List ℕ) :
    Spec cur t₀ pid held left (killAll pids) fun _ => Inv cur t₀ pid held left := by
  induction pids with
  | nil => exact Calls.triple_pure fun _ h => h
  | cons n pids ih => exact (kill_spec n).bind fun _ => ih

theorem waitTimes_spec (n : ℕ) :
    Spec cur t₀ pid held n (waitTimes n) fun _ => Inv cur t₀ pid held 0 := by
  induction n with
  | zero => exact Calls.triple_pure fun _ h => h
  | succ n ih => exact wait_spec.bind fun _ => ih

theorem closeAll_spec (pipes : List (ℕ × ℕ)) (extra : List ℕ) {β : Type} {m : Io β}
    {Q : β → Ledger → Prop} (hm : Spec cur t₀ pid [] left m Q) :
    Spec cur t₀ pid (pipeFds pipes ++ extra) left (do closePipes pipes; closeFds extra; m) Q := by
  refine (closePipes_spec pipes extra).bind fun _ => ?_
  have hextra :
      Spec cur t₀ pid (extra ++ []) left (closeFds extra) fun _ => Inv cur t₀ pid [] left :=
    closeFds_spec extra []
  rw [List.append_nil] at hextra
  exact hextra.bind fun _ => hm

theorem abortPipeline_spec (pids : List ℕ) (pipes : List (ℕ × ℕ)) (extra : List ℕ) :
    Spec cur t₀ pid (pipeFds pipes ++ extra) pids.length (abortPipeline pids pipes extra) fun _ =>
      Inv cur t₀ pid [] 0 :=
  closeAll_spec pipes extra ((killAll_spec pids).bind fun _ => waitTimes_spec pids.length)

theorem spawnFailed_spec (pids : List ℕ) (pipes : List (ℕ × ℕ)) (extra : List ℕ) :
    Spec cur t₀ pid (pipeFds pipes ++ extra) pids.length (spawnFailed pids pipes extra) fun _ =>
      Inv cur t₀ pid [] 0 := by
  refine (abortPipeline_spec pids pipes extra).bind fun _ => ?_
  exact (write_spec _).bind fun _ => Calls.triple_pure fun _ h => h

variable (hstd : StdOpen t₀)
include hstd

theorem openPipes_spec (n : ℕ) (pipes : List (ℕ × ℕ)) :
    Spec cur t₀ pid (pipeFds pipes) left (openPipes n pipes) fun r =>
      Inv cur t₀ pid (r.elim [] pipeFds) left := by
  induction n generalizing pipes with
  | zero => exact Calls.triple_pure fun _ h => h
  | succ n ih =>
    have hpipe : Spec cur t₀ pid (pipeFds pipes) left pipe fun r => Inv cur t₀ pid
        (r.elim (pipeFds pipes) fun p => pipeFds (pipes ++ [p])) left := by
      refine ask_spec fun s a s' h hs => ?_
      rcases serve_pipe hstd h hs with ⟨rfl, h'⟩ | ⟨r, w, rfl, h'⟩
      · exact h'
      · rw [Option.elim_some, pipeFds, List.flatMap_append]
        exact h'
    refine hpipe.bind fun r => ?_
    cases r with
    | none =>
      have hclose : Spec cur t₀ pid (pipeFds pipes ++ []) left (closePipes pipes) fun _ =>
          Inv cur t₀ pid [] left :=
        closePipes_spec pipes []
      rw [List.append_nil] at hclose
      exact hclose.bind fun _ => (write_spec _).bind fun _ => Calls.triple_pure fun _ h => h
    | some p => exact ih (pipes ++ [p])

theorem openRedir_spec (cwd : List UInt8) (arg : List Char) (flags : ℕ) :
    Spec cur t₀ pid (held ++ extra) left (openRedir cwd arg flags extra) fun r =>
      Inv cur t₀ pid (held ++ r.elim extra Prod.snd) left := by
  have hopen :
      Spec cur t₀ pid (held ++ extra) left (openPath (resolve cwd (utf8 arg)) flags) fun fd =>
      Inv cur t₀ pid (held ++ (extra ++ if fd = err then [] else [fd])) left := by
    refine ask_spec fun s fd s' h hs => ?_
    rcases serve_open hstd h hs with ⟨rfl, h'⟩ | ⟨hfd, h'⟩
    · rw [if_pos rfl, List.append_nil]
      exact h'
    · rw [if_neg hfd, ← List.append_assoc]
      exact h'
  refine hopen.bind fun fd => ?_
  by_cases hfd : fd = err
  · rw [if_pos hfd, if_pos hfd, List.append_nil]
    exact (write_spec _).bind fun _ => Calls.triple_pure fun _ h => h
  · rw [if_neg hfd, if_neg hfd]
    split
    · rw [← List.append_assoc]
      refine (close_spec (held ++ extra) [] fd).bind fun _ => ?_
      rw [List.append_nil]
      exact Calls.triple_pure fun _ h => h
    · exact Calls.triple_pure fun _ h => h

theorem stageFd_spec (cwd : List UInt8) (path : Option (List Char)) (flags fd : ℕ) :
    Spec cur t₀ pid (held ++ extra) left (stageFd cwd path flags fd extra) fun r =>
      Inv cur t₀ pid (held ++ r.elim extra Prod.snd) left := by
  cases path with
  | none => exact Calls.triple_pure fun _ h => h
  | some arg => exact openRedir_spec hstd cwd arg flags

omit hstd in
theorem trySpawn_spec (stdin stdout : ℕ) (calls : List Spawn) :
    Spec cur t₀ pid held left (trySpawn stdin stdout calls) fun n =>
      Inv cur t₀ pid held (left + if n = err then 0 else 1) := by
  induction calls with
  | nil => exact Calls.triple_pure fun _ h => h
  | cons sp rest ih =>
    have hspawn : Spec cur t₀ pid held left (spawnEx sp stdin stdout) fun n =>
        Inv cur t₀ pid held (left + if n = err then 0 else 1) := by
      refine ask_spec fun s a s' h hs => ?_
      rcases serve_spawn h hs with ⟨rfl, h'⟩ | ⟨hne, h'⟩
      · exact h'
      · rw [if_neg hne]
        exact h'
    refine hspawn.bind fun n => ?_
    by_cases hn : n = err
    · rw [if_neg (not_not.mpr hn), if_pos hn]
      exact ih
    · rw [if_pos hn]
      exact Calls.triple_pure fun _ h => h

theorem runStages_spec (cwd : List UInt8) (pipes : List (ℕ × ℕ)) (i : ℕ) (stages : List Stage)
    (extra pids : List ℕ) :
    Spec cur t₀ pid (pipeFds pipes ++ extra) pids.length (runStages cwd pipes i stages extra pids)
      fun _ =>
      Inv cur t₀ pid [] 0 := by
  induction stages generalizing i extra pids with
  | nil => exact closeAll_spec pipes extra (waitTimes_spec pids.length)
  | cons st rest ih =>
    refine (stageFd_spec hstd cwd st.stdinPath openRead (stageStdin pipes i)).bind fun r => ?_
    rcases r with _ | ⟨stdin, extra⟩
    · exact abortPipeline_spec pids pipes _
    refine (stageFd_spec hstd cwd st.stdoutPath _ (stageStdout pipes i rest)).bind fun r => ?_
    rcases r with _ | ⟨stdout, extra⟩
    · exact abortPipeline_spec pids pipes _
    dsimp only
    split
    · rename_i blob name words _ _
      refine (trySpawn_spec stdin stdout (spawnElf cwd name blob)).bind fun n => ?_
      by_cases hn : n = err
      · rw [if_pos hn, if_pos hn]
        exact spawnFailed_spec pids pipes extra
      · rw [if_neg hn, if_neg hn]
        have hrest := ih (i + 1) extra (pids ++ [n])
        rw [List.length_append, List.length_singleton] at hrest
        exact hrest
    · exact spawnFailed_spec pids pipes extra

theorem runLine_spec (cwd : List UInt8) (line : List Char) :
    Spec cur t₀ pid [] 0 (runLine cwd line) fun _ => Inv cur t₀ pid [] 0 := by
  unfold runLine
  split
  · exact (write_spec _).bind fun _ => Calls.triple_pure fun _ h => h
  · rename_i stages _
    refine (openPipes_spec hstd (stages.length - 1) []).bind fun r => ?_
    cases r with
    | none => exact Calls.triple_pure fun _ h => h
    | some pipes =>
      have hrun :
          Spec cur t₀ pid (pipeFds pipes ++ []) 0 (runStages cwd pipes 0 stages [] []) fun _ =>
          Inv cur t₀ pid [] 0 := runStages_spec hstd cwd pipes 0 stages [] []
      rw [List.append_nil] at hrun
      exact hrun

end Program

section Neutral

variable {cur : Slot} {k : Kernel} {p : Pcb} {cwd : List UInt8} {line : List Char}
  {es : List (Calls.Served Call Ledger)} {s' : Ledger}

theorem runLine_inv (hp : k.At cur p) (hstd : StdOpen p.fds)
    (hrun : Calls.Runs (drift cur) (serve cur) (runLine cwd line) ⟨k, [], 0⟩ es () s') :
    Inv cur p.fds p.pid [] 0 s' :=
  runLine_spec hstd cwd line _ es () s' hrun ⟨⟨p, hp, rfl, holds_nil.mpr rfl,
    fun h => absurd h (lt_irrefl 0)⟩, List.nodup_nil, fun _ h => absurd h List.not_mem_nil, rfl⟩

theorem runLine_fds (hp : k.At cur p) (hstd : StdOpen p.fds)
    (hrun : Calls.Runs (drift cur) (serve cur) (runLine cwd line) ⟨k, [], 0⟩ es () s') :
    (s'.k.sched.procs cur).map (·.fds) = (k.sched.procs cur).map (·.fds) := by
  obtain ⟨q, hq, -, hfds, -⟩ := (runLine_inv hp hstd hrun).proc
  rw [hq.here, hp.here, Option.map_some, Option.map_some, holds_nil.mp hfds]

theorem others_eq_iff {m : Io Unit} {s : Ledger}
    (hrun : Calls.Runs (drift cur) (serve cur) m s es () s') : s'.others = s.others ↔
    ∀ e ∈ es, takesOther cur e.call e.pre = false := by
  refine @Calls.Runs.count_iff _ _ _ _ _ _ Ledger.others _ (fun s s' hd => hd.2.1)
    (fun c s a s' hs => ?_) _ _ _ _ _ hrun
  obtain ⟨u, hu⟩ := hs
  rw [reply] at hu
  split at hu
  · obtain ⟨r, -, heq⟩ := Option.map_eq_some_iff.mp hu
    obtain ⟨-, rfl⟩ := Prod.mk.inj heq
    rfl
  · cases hu

theorem runLine_neutral_iff (hp : k.At cur p) (hstd : StdOpen p.fds)
    (hrun : Calls.Runs (drift cur) (serve cur) (runLine cwd line) ⟨k, [], 0⟩ es () s') :
    ((s'.k.sched.procs cur).map (·.fds) = (k.sched.procs cur).map (·.fds) ∧ s'.own = []) ↔
      ∀ e ∈ es, takesOther cur e.call e.pre = false := by
  rw [and_iff_right (runLine_fds hp hstd hrun), ← others_eq_iff hrun]
  have hcount := (runLine_inv hp hstd hrun).count
  rw [Nat.zero_add] at hcount
  change s'.own = [] ↔ s'.others = 0
  rw [← hcount, List.length_eq_zero_iff]

end Neutral

section Aborted

def shellPcb (old : Option Pcb) : Pcb :=
  { newPcb 1 0 Sample.image [0x73, 0x68] Sample.argv .newStdio with
    spawnedChild := old.isSome
    lastSpawned := old.elim 0 (·.pid) }

def shell (old : Option Pcb) : Kernel :=
  { Kernel.init true with
    sched := { Sched.init with
      procs := fun i => if i = 0 then some (shellPcb old) else if i = 1 then old else none
      current := some 0
      nextPid := 3 } }

theorem shell_at {old : Option Pcb} (hold : ∀ q, old = some q → q.pid ≠ 1) :
    (shell old).At 0 (shellPcb old) := by
  refine ⟨rfl, nofun, fun i q hq hpid => ?_, Nat.one_ne_zero,
    show 1 < 3 by decide, show 3 ≤ u32Max by decide, show 0 ≠ 1 by decide⟩
  change (if i = 0 then some (shellPcb old) else if i = 1 then old else none) = some q at hq
  by_cases hi : i = 0
  · exact hi
  · rw [if_neg hi] at hq
    split at hq
    · exact absurd hpid (hold q hq)
    · cases hq

theorem shell_stdOpen (old : Option Pcb) : StdOpen (shellPcb old).fds :=
  show ∀ i : Fin fdMax, i.val ≤ 2 → FdTable.newStdio.slots i ≠ none by decide

def abortedCalls : List User :=
  let user (load : Option (Image × ArgvSetup)) (stdin stdout : ℕ) : User :=
    ⟨{ Sample.env (Sample.spawnRecord stdin stdout) with load := fun _ _ => load }, 0x1000, 1⟩
  [user none err err, user (some (Sample.image, Sample.argv)) err 4] ++
    List.replicate 7 (user none 3 err)

def aborted (old : Option Pcb) : Option (List (Calls.Served Call Ledger) × Unit × Ledger) :=
  Calls.replay (reply 0) (runLine [] ['a', ' ', '|', ' ', 'b']) abortedCalls ⟨shell old, [], 0⟩

theorem aborted_runs {old : Option Pcb} {r : List (Calls.Served Call Ledger) × Unit × Ledger}
    (h : aborted old = some r) :
    Calls.Runs (drift 0) (serve 0) (runLine [] ['a', ' ', '|', ' ', 'b']) ⟨shell old, [], 0⟩
      r.1 () r.2.2 :=
  Calls.replay_runs (fun s => ⟨rfl, rfl, Beside.refl 0 s.k⟩) (fun u _ _ _ _ hr => ⟨u, hr⟩) h

theorem aborted_reaps :
    (aborted none).map (fun r => r.1.all fun e => !takesOther 0 e.call e.pre) = some true := by
  decide

def olderChild : Pcb :=
  { newPcb 2 1 Sample.image [0x63] Sample.argv .newStdio with state := .zombie }

theorem aborted_misses :
    (aborted (some olderChild)).map (fun r => r.2.2.own) = some [2] := by decide

end Aborted

theorem aborted_line_neutral :
    ∃ es s',
      Calls.Runs (drift 0) (serve 0) (runLine [] ['a', ' ', '|', ' ', 'b']) ⟨shell none, [], 0⟩
        es () s' ∧ s'.own = [] := by
  obtain ⟨r, hr, hall⟩ := Option.map_eq_some_iff.mp aborted_reaps
  have hrun := aborted_runs hr
  have hat : (shell none).At 0 (shellPcb none) := shell_at nofun
  refine ⟨_, _, hrun, ((runLine_neutral_iff hat (shell_stdOpen none) hrun).mpr fun e he => ?_).2⟩
  have hone := List.all_eq_true.mp hall e he
  rwa [Bool.not_eq_true'] at hone

theorem aborted_line_leaves_child : ∃ k p es s', k.At 0 p ∧ StdOpen p.fds ∧
    Calls.Runs (drift 0) (serve 0) (runLine [] ['a', ' ', '|', ' ', 'b']) ⟨k, [], 0⟩ es () s' ∧
    s'.own = [2] := by
  obtain ⟨r, hr, hown⟩ := Option.map_eq_some_iff.mp aborted_misses
  refine ⟨_, _, _, _, shell_at ?_, shell_stdOpen _, aborted_runs hr, hown⟩
  rintro q ⟨⟩
  decide

end CoeleoOs.Sh
