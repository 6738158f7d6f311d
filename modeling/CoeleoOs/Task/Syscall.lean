import CoeleoOs.Task.Sched.Spawn

/-!
# System calls

The handlers behind `syscall_dispatch`, as programs that read user memory
through `UserAccess`. A handler either returns a value to user code or says how
the call goes on: at another point of the same call, after a compositor poll,
with interrupts open, after `yield_block`, or through `user_exit`. The bounce
buffer `IO_BUF` is filled before each use under its lock, so its old content is
never read and it is a local value here.
-/

namespace CoeleoOs.Task
open CoeleoOs.Lib CoeleoOs.Ui

inductive Next
  | ret (v : ℕ)
  | goto (p : Point)
  | pollThen (p : Point)
  | irqOpen (p : Point)
  | block (st : State) (p : Point)
  | exit (o : Outcome)

def Kernel.withFds {α : Type} (k : Kernel) (f : FdTable → α × FdTable) : Option α × Kernel :=
  match k.sched.current with
  | none => (none, k)
  | some i =>
    match k.sched.procs i with
    | none => (none, k)
    | some p =>
      (some (f p.fds).1, { k with sched := k.sched.setProc i { p with fds := (f p.fds).2 } })

def withFds {α : Type} (f : FdTable → α × FdTable) : KernM Kernel (Option α) := do
  let k ← Eff.get
  let (r, k) := k.withFds f
  Eff.set k
  return r

def getFd (fd : ℕ) : KernM Kernel (Option OpenFd) := do
  let r ← withFds fun t => (t.getMut fd, t)
  return r.join

def wakePipe : KernM Kernel Unit := do
  let k ← Eff.get
  Eff.set { k with sched := k.sched.wakePipeLocked }

def allocFd (of : OpenFd) : KernM Kernel ℕ := do
  let r ← withFds fun t => t.alloc of
  return r.getD err

def openFile (path : Bytes) (writable : Bool) : KernM Kernel ℕ := allocFd (.file path 0 writable)

def sysOpen (pathPtr pathLen flags : ℕ) : KernM Kernel ℕ := do
  let some path ← copyPath pathPtr pathLen | return err
  let wantRead := flags.testBit 0
  let wantWrite := flags.testBit 1
  let wantCreate := flags.testBit 2
  let wantTrunc := flags.testBit 3
  if !wantRead && !wantWrite then return err
  let e ← Eff.ask
  match e.list path with
  | .ok ents =>
    if wantWrite then return err
    allocFd (.dir 0 ents)
  | .error .notDir =>
    if wantTrunc && wantWrite && !e.writeFile path then return err
    openFile path wantWrite
  | .error .notFound =>
    if wantCreate && wantWrite then
      if !e.touch path then return err
      openFile path true
    else return err
  | .error _ => return err

def readFile (fd buf n : ℕ) : KernM Kernel ℕ := do
  if 0 < n then
    unless ← userSliceOk buf n do return err
  let some (.file path offset writable) ← getFd fd | return err
  if n = 0 then return 0
  let e ← Eff.ask
  let some bytes := e.readAt path offset | return err
  let io := bytes.take n
  let some _ ← copyToUser buf io | return err
  let _ ← withFds fun t => ((), t.put fd (.file path (offset + io.length) writable))
  return io.length

def sysRead (fd buf len : ℕ) : KernM Kernel Next := do
  if ioMax < len then return .ret err
  match ← getFd fd with
  | some .stdin =>
    if len = 0 then return .ret 0
    unless ← userSliceOk buf 1 do return .ret err
    return .goto (.readStdin buf)
  | some (.file _ _ _) => return .ret (← readFile fd buf len)
  | some (.pipe id false) =>
    if len = 0 then return .ret 0
    unless ← userSliceOk buf len do return .ret err
    return .goto (.readPipe id buf len)
  | _ => return .ret err

def readStdin (buf : ℕ) : KernM Kernel Next := do
  let k ← Eff.get
  match k.keys with
  | b :: rest =>
    Eff.set { k with keys := rest }
    if b = 4 then return .ret 0
    let some _ ← copyToUser buf [b] | return .ret err
    return .ret 1
  | [] => return .pollThen (.stdinPolled buf)

def stdinPolled (buf : ℕ) : KernM Kernel Next := do
  let k ← Eff.get
  if k.sched.hasRunnableOther then return .block .blockedStdin (.readStdin buf)
  return .irqOpen (.readStdin buf)

def readPipe (id : PipeId) (buf n : ℕ) : KernM Kernel Next := do
  let k ← Eff.get
  let (r, pipes) := Pipe.read k.pipes id n
  Eff.set { k with pipes := pipes }
  match r with
  | .data got =>
    let some _ ← copyToUser buf got | return .ret err
    wakePipe
    return .ret got.length
  | .eof => return .ret 0
  | .wouldBlock =>
    wakePipe
    return .block .blockedPipeRead (.readPipe id buf n)

def writeConsole (buf n : ℕ) : KernM Kernel ℕ := do
  let some io ← copyFromUser buf n ioMax | return err
  return if utf8Valid io then n else err

def writeFile (fd buf n : ℕ) : KernM Kernel ℕ := do
  let some io ← copyFromUser buf n ioMax | return err
  let some (.file path offset true) ← getFd fd | return err
  let e ← Eff.ask
  let some got := e.writeAt path offset io | return err
  let _ ← withFds fun t => ((), t.put fd (.file path (offset + got) true))
  return got

def sysWrite (fd buf len : ℕ) : KernM Kernel Next := do
  if ioMax < len then return .ret err
  unless ← userSliceOk buf len do return .ret err
  match ← getFd fd with
  | some .stdout => return .ret (← writeConsole buf len)
  | some .stderr => return .ret (← writeConsole buf len)
  | some (.file _ _ true) => return .ret (← writeFile fd buf len)
  | some (.pipe id true) =>
    if len = 0 then return .ret 0
    return .goto (.writePipe id buf len)
  | _ => return .ret err

def writePipe (id : PipeId) (buf n : ℕ) : KernM Kernel Next := do
  let some io ← copyFromUser buf n ioMax | return .ret err
  let k ← Eff.get
  let (r, pipes) := Pipe.write k.pipes id io
  Eff.set { k with pipes := pipes }
  match r with
  | .data got =>
    wakePipe
    return .ret got
  | .broken => return .ret err
  | .wouldBlock =>
    wakePipe
    return .block .blockedPipeWrite (.writePipe id buf n)

def dropFd (of : OpenFd) : KernM Kernel Unit := do
  let k ← Eff.get
  Eff.set { k with pipes := dropOpen of k.pipes }

def takeFd (fd : ℕ) : KernM Kernel Unit := do
  let of ← withFds fun t => t.take fd
  match of.join with
  | some of => dropFd of
  | none => return ()

def sysClose (fd : ℕ) : KernM Kernel ℕ := do
  if fd ≤ 2 then return err
  let r ← withFds fun t => t.take fd
  let some of := r.join | return err
  dropFd of
  wakePipe
  return 0

def allocPair (id : PipeId) (t : FdTable) : Option (ℕ × ℕ) × FdTable :=
  let (r, t) := t.alloc (.pipe id false)
  if r = err then (none, t)
  else
    let (w, t) := t.alloc (.pipe id true)
    if w = err then (none, (t.take r).2) else (some (r, w), t)

def sysPipe (buf : ℕ) : KernM Kernel ℕ := do
  unless ← userSliceOk buf 8 do return err
  let k ← Eff.get
  let some (id, pipes) := Pipe.alloc k.pipes | return err
  Eff.set { k with pipes := pipes }
  let pair ← withFds (allocPair id)
  match pair.join with
  | some (r, w) =>
    match ← copyToUser buf (leBytes 4 r ++ leBytes 4 w) with
    | some _ => return 0
    | none =>
      takeFd r
      takeFd w
      return err
  | none =>
    dropFd (.pipe id false)
    dropFd (.pipe id true)
    return err

abbrev direntSize : ℕ := 64

def packDirent (ent : DirEnt) : Bytes :=
  let name := ent.name.take (direntSize - 2)
  (if ent.isDir then 1 else 0) :: name ++ List.replicate (direntSize - 1 - name.length) 0

def sysReaddir (fd buf len : ℕ) : KernM Kernel ℕ := do
  if len < direntSize then return err
  unless ← userSliceOk buf direntSize do return err
  let some (.dir index ents) ← getFd fd | return err
  let some ent := ents[index]? | return 0
  let _ ← withFds fun t => ((), t.put fd (.dir (index + 1) ents))
  let some _ ← copyToUser buf (packDirent ent) | return err
  return 1

def sysUnlink (pathPtr pathLen : ℕ) : KernM Kernel ℕ := do
  let some path ← copyPath pathPtr pathLen | return err
  let e ← Eff.ask
  return if e.remove path then 0 else err

def sysMkdir (pathPtr pathLen : ℕ) : KernM Kernel ℕ := do
  let some path ← copyPath pathPtr pathLen | return err
  let e ← Eff.ask
  return if e.mkdir path then 0 else err

def sysSync : KernM Kernel ℕ := do
  let e ← Eff.ask
  return if e.sync then 0 else err

abbrev infoMem : ℕ := 0
abbrev infoDisk : ℕ := 1
abbrev infoInstall : ℕ := 2

def sysSysinfo (kind buf len : ℕ) : KernM Kernel ℕ := do
  if len = 0 then return err
  unless ← userSliceOk buf len do return err
  let e ← Eff.ask
  let out ← do
    if kind = infoMem then pure (some e.memText)
    else if kind = infoDisk then pure (some e.diskText)
    else if kind = infoInstall then
      let tmp ← copyFromUser buf (min len 32) 32
      pure (tmp.map e.installText)
    else pure none
  let some out := out | return err
  let some _ ← copyToUser buf (out.take len) | return err
  return (out.take len).length

abbrev spawnArgs : ℕ := 48
abbrev argvBlobMax : ℕ := 1024

def sysSpawn (argsPtr : ℕ) : KernM Kernel ℕ := do
  unless ← userSliceOk argsPtr spawnArgs do return err
  let some raw ← copyFromUser argsPtr spawnArgs spawnArgs | return err
  let argvPtr := word raw 2
  let argvLen := word raw 3
  let some path ← copyPath (word raw 0) (word raw 1) | return err
  let blob ← do
    if argvLen = 0 then pure (some [])
    else if argvBlobMax < argvLen then pure none
    else if ← userSliceOk argvPtr argvLen then copyFromUser argvPtr argvLen argvBlobMax
    else pure none
  let some blob := blob | return err
  let k ← Eff.get
  let e ← Eff.ask
  let parent := k.sched.currentPid.getD 0
  let (pid, k) := spawnWith k (e.load path blob) path parent (word raw 4) (word raw 5)
  Eff.set k
  return pid.getD err

abbrev psRec : ℕ := 16

def sysPs (buf len : ℕ) : KernM Kernel ℕ := do
  if len < psRec then return err
  let nrec := min (len / psRec) maxProc
  unless ← userSliceOk buf (nrec * psRec) do return err
  let k ← Eff.get
  let procs := ((List.finRange maxProc).filterMap k.sched.procs).take nrec
  let tmp := procs.flatMap fun p => leBytes 4 p.pid ++ List.ofFn p.name
  let some _ ← copyToUser buf tmp | return err
  return procs.length * psRec

def sysKillCall (pid : ℕ) : KernM Kernel ℕ := do
  let k ← Eff.get
  match sysKill k pid with
  | none => Eff.abort
  | some (r, k) =>
    Eff.set k
    return r

def waitRound : KernM Kernel Next := do
  let k ← Eff.get
  match tryReap k with
  | none => Eff.abort
  | some (r, k) =>
    Eff.set k
    match r with
    | .pid p => return .ret p
    | .neverHadChildren => return .ret err
    | .mustBlock => return .block .blockedWait .wait

abbrev errNoNet : ℕ := err - 1
abbrev errTimeout : ℕ := err - 2
abbrev errHttps : ℕ := err - 3
abbrev errBadUrl : ℕ := err - 4
abbrev nameMax : ℕ := 256
abbrev urlMax : ℕ := 256
abbrev pingArgs : ℕ := 32
abbrev httpGetArgs : ℕ := 32

def sysNetPing (argsPtr : ℕ) : KernM Kernel Next := do
  unless ← userSliceOk argsPtr pingArgs do return .ret err
  let some raw ← copyFromUser argsPtr pingArgs pingArgs | return .ret err
  let nameLen := word raw 1
  if nameLen = 0 ∨ nameMax < nameLen then return .ret err
  unless ← userSliceOk (word raw 0) nameLen do return .ret err
  let some name ← copyFromUser (word raw 0) nameLen nameMax | return .ret err
  if utf8Valid name then return .irqOpen (.netPing name (word raw 2) (word raw 3))
  return .ret err

def netPing (name : Bytes) (buf len : ℕ) : KernM Kernel Next := do
  let e ← Eff.ask
  match e.ping name with
  | .error .noNet => return .ret errNoNet
  | .error .failed => return .ret err
  | .ok replies =>
    let n := min (min replies.length (len / 8)) 4
    if n = 0 then return .ret 0
    unless ← userSliceOk buf (n * 8) do return .ret err
    let some _ ← copyToUser buf ((replies.take n).flatMap List.ofFn) | return .ret err
    return .ret n

def sysHttpGet (argsPtr : ℕ) : KernM Kernel Next := do
  unless ← userSliceOk argsPtr httpGetArgs do return .ret err
  let some raw ← copyFromUser argsPtr httpGetArgs httpGetArgs | return .ret err
  let urlLen := word raw 1
  if urlLen = 0 ∨ urlMax < urlLen then return .ret errBadUrl
  unless ← userSliceOk (word raw 0) urlLen do return .ret err
  let some url ← copyFromUser (word raw 0) urlLen urlMax | return .ret err
  if utf8Valid url then return .irqOpen (.httpGet url (word raw 2) (word raw 3))
  return .ret errBadUrl

def httpGet (url : Bytes) (buf len : ℕ) : KernM Kernel Next := do
  let e ← Eff.ask
  match e.httpGet url with
  | .error .badUrl => return .ret errBadUrl
  | .error .noNet => return .ret errNoNet
  | .error .timeout => return .ret errTimeout
  | .error .https => return .ret errHttps
  | .error .failed => return .ret err
  | .ok body =>
    let n := min body.length len
    if n = 0 then return .ret 0
    unless ← userSliceOk buf n do return .ret err
    let some _ ← copyToUser buf (body.take n) | return .ret err
    return .ret n

def sysDate (buf len : ℕ) : KernM Kernel ℕ := do
  if len = 0 then return err
  unless ← userSliceOk buf len do return err
  let e ← Eff.ask
  let some iso := e.isoDate | return err
  let tmp := (List.ofFn iso).take len
  let some _ ← copyToUser buf tmp | return err
  return tmp.length

abbrev diskHdr : ℕ := 8
abbrev diskRow : ℕ := 24
abbrev maxDisks : ℕ := 8

def sysDisks (buf len : ℕ) : KernM Kernel ℕ := do
  if len < diskHdr then return err
  unless ← userSliceOk buf len do return err
  let e ← Eff.ask
  let rows := e.disks.take maxDisks
  let need := diskHdr + rows.length * diskRow
  if len < need then return err
  let out := leBytes 4 rows.length ++ List.replicate 4 0 ++ rows.flatMap List.ofFn
  let some _ ← copyToUser buf out | return err
  return need

abbrev maxClip : ℕ := 4096

def sysClipboard (op ptr len : ℕ) : KernM Kernel ℕ := do
  let k ← Eff.get
  let clip := k.clipboard
  if op = 0 then
    if len < clip.length then return clip.length
    if clip ≠ [] then let _ ← copyToUser ptr clip
    return clip.length
  else if op = 1 then
    let copyLen := min len maxClip
    let buf ← if 0 < copyLen then copyFromUser ptr copyLen copyLen else pure (some [])
    Eff.set { k with clipboard := buf.getD [] }
    return 0
  else return err

def onWin {α : Type} (m : KernM Win α) : KernM Kernel α :=
  Eff.zoom (·.win) (fun w k => { k with win := w }) m

def syscallDispatch (num a0 a1 a2 : ℕ) : KernM Kernel Next := do
  let k ← Eff.get
  let e ← Eff.ask
  match num with
  | 1 => return .exit .exited
  | 2 => sysWrite a0 a1 a2
  | 3 => return .ret (← sysOpen a0 a1 a2)
  | 4 => sysRead a0 a1 a2
  | 5 => return .ret (← sysClose a0)
  | 6 => return .ret (← sysReaddir a0 a1 a2)
  | 7 => return .ret (← sysSpawn a0)
  | 8 => return .goto .wait
  | 9 => return .ret (← sysKillCall a0)
  | 10 => return .ret e.millis
  | 11 => return .ret (← sysPs a0 a1)
  | 12 => return .ret (← sysUnlink a0 a1)
  | 13 => return .ret (← sysSync)
  | 14 => return .ret (← sysSysinfo a0 a1 a2)
  | 15 => sysNetPing a0
  | 16 => sysHttpGet a0
  | 17 => return .ret (← onWin (sysCreate k.ready k.sched.currentPid a0 a1 a2))
  | 18 => return .ret (← onWin (sysDamage k.sched.currentPid a0 a1 a2))
  | 19 => return .ret (← onWin (sysPollInput k.sched.currentPid a0 a1))
  | 20 => return .ret (← sysDate a0 a1)
  | 21 => return .ret err
  | 22 => return .ret err
  | 23 => return .ret (← sysDisks a0 a1)
  | 24 => return .ret (e.install a0)
  | 25 => return .ret (← sysPipe a0)
  | 26 => return .ret (← sysMkdir a0 a1)
  | 27 => return .ret (← sysClipboard a0 a1 a2)
  | _ => return .ret err

def runPoint : Point → KernM Kernel Next
  | .dispatch num a0 a1 a2 => syscallDispatch num.toNat a0.toNat a1.toNat a2.toNat
  | .readStdin buf => readStdin buf
  | .stdinPolled buf => stdinPolled buf
  | .readPipe id buf n => readPipe id buf n
  | .writePipe id buf n => writePipe id buf n
  | .wait => waitRound
  | .netPing name buf len => netPing name buf len
  | .httpGet url buf len => httpGet url buf len

end CoeleoOs.Task
