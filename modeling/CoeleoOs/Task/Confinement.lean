import CoeleoOs.Task.Confined
import CoeleoOs.Task.System

/-!
# Which system calls stay within the caller's memory

For each handler, the exact condition on its arguments, on the caller's page
table and on the state of the kernel under which its use of user memory is
confined.
-/

namespace CoeleoOs.Task
open CoeleoOs.Lib CoeleoOs.Mem CoeleoOs.Ui

def Kernel.currentFd (k : Kernel) (fd : ℕ) : Option OpenFd :=
  k.sched.currentPcb.bind (·.fds.getMut fd)

section Rules

variable {α β : Type} {P : Post β Kernel} {e : Env} {k : Kernel}

@[simp] theorem confines_withFds {f : FdTable → α × FdTable} {g : Option α → KernM Kernel β} :
    Confines P (withFds f >>= g) e k ↔ Confines P (g (k.withFds f).1) e (k.withFds f).2 := by
  simp [Confines, withFds]

@[simp] theorem confines_getFd {fd : ℕ} {g : Option OpenFd → KernM Kernel β} :
    Confines P (getFd fd >>= g) e k ↔ Confines P (g (k.currentFd fd)) e k := by
  have hfd : (k.withFds fun t => (t.getMut fd, t)).1.join = k.currentFd fd ∧
      (k.withFds fun t => (t.getMut fd, t)).2 = k := by
    rcases withFds_cases k (fun t => (t.getMut fd, t)) with ⟨hn, hw⟩ | ⟨i, p, hc, hp, hw⟩
    · simp [hw, Kernel.currentFd, hn]
    · simp [hw, Kernel.currentFd, Sched.currentPcb, hc, hp, Sched.setProc_eq_self hp]
  simp [Confines, getFd, withFds, hfd]

@[simp] theorem confines_wakePipe {g : Unit → KernM Kernel β} :
    Confines P (wakePipe >>= g) e k ↔
      Confines P (g ()) e { k with sched := k.sched.wakePipeLocked } := by
  simp [Confines, wakePipe]

@[simp] theorem confines_dropFd {of : OpenFd} {g : Unit → KernM Kernel β} :
    Confines P (dropFd of >>= g) e k ↔
      Confines P (g ()) e { k with pipes := dropOpen of k.pipes } := by
  simp [Confines, dropFd]

theorem confines_guard {σ : Type} {s : σ} {ptr len : ℕ} {f : Bool → KernM σ ℕ}
    (hf : f false = pure err) :
    Confines Post.value (userSliceOk ptr len >>= f) e s ↔ Checkable e.space ptr len ∧
      (Vmm.userSliceOk e.space ptr len = some true → Confines Post.value (f true) e s) :=
  confines_check hf rfl trivial

theorem confines_in {σ : Type} {s : σ} {ptr len : ℕ} {f : Bool → KernM σ ℕ}
    (hf : f false = pure err) (h : Vmm.userSliceOk e.space ptr len = some true →
      Confines Post.value (f true) e s) :
    Confines Post.value (userSliceOk ptr len >>= f) e s ↔ Checkable e.space ptr len := by
  rw [confines_guard hf]
  exact and_iff_left h

theorem confines_out {σ : Type} {s : σ} {ptr len n : ℕ} {f : Bool → KernM σ ℕ} (hn : n ≤ len)
    (hf : f false = pure err) (h : Vmm.userSliceOk e.space ptr len = some true →
      (Confines Post.value (f true) e s ↔ Vmm.WritableRange e.space ptr n)) :
    Confines Post.value (userSliceOk ptr len >>= f) e s ↔ OutOk e.space ptr len n := by
  rw [confines_guard hf, outOk_iff hn]
  exact and_congr_right fun _ => forall_congr' h

theorem confines_path {σ : Type} {s : σ} {ptr len : ℕ} {f : Option Bytes → KernM σ ℕ}
    (hf : f none = pure err) :
    Confines Post.value (copyPath ptr len >>= f) e s ↔ PathOk e.space ptr len ∧
      ∀ path, pathAt e ptr len = some path → Confines Post.value (f (some path)) e s :=
  confines_copyPath hf rfl trivial

end Rules

section Handlers

variable {e : Env} {k : Kernel}

theorem allocFd_confines {of : OpenFd} : Confines Post.value (allocFd of) e k := by
  simp [allocFd]

theorem sysOpen_confines {pathPtr pathLen flags : ℕ} :
    Confines Post.value (sysOpen pathPtr pathLen flags) e k ↔ PathOk e.space pathPtr pathLen := by
  unfold sysOpen
  rw [confines_path (by rfl), and_iff_left_iff_imp]
  intro _ path _
  simp only [confines_ite, confines_pure, confines_ask]
  split
  · trivial
  · cases e.list path with
    | ok ents => simp [allocFd_confines]
    | error er => cases er <;> simp [openFile, allocFd_confines]

theorem sysUnlink_confines {pathPtr pathLen : ℕ} :
    Confines Post.value (sysUnlink pathPtr pathLen) e k ↔ PathOk e.space pathPtr pathLen := by
  unfold sysUnlink
  rw [confines_path (by rfl), and_iff_left_iff_imp]
  intro _ path _
  simp

theorem sysMkdir_confines {pathPtr pathLen : ℕ} :
    Confines Post.value (sysMkdir pathPtr pathLen) e k ↔ PathOk e.space pathPtr pathLen := by
  unfold sysMkdir
  rw [confines_path (by rfl), and_iff_left_iff_imp]
  intro _ path _
  simp

theorem sysClose_confines {fd : ℕ} : Confines Post.value (sysClose fd) e k := by
  unfold sysClose
  simp only [confines_ite, confines_withFds]
  split
  · simp
  · cases (k.withFds fun t => t.take fd).1.join <;> simp

theorem sysKillCall_confines {pid : ℕ} : Confines Post.value (sysKillCall pid) e k := by
  unfold sysKillCall
  rw [confines_get]
  cases sysKill k pid with
  | none => simp
  | some r => simp

def ReaddirOk (e : Env) (k : Kernel) (fd buf len : ℕ) : Prop :=
  direntSize ≤ len → OutOk e.space buf direntSize
    (match k.currentFd fd with
      | some (.dir index ents) => if index < ents.length then direntSize else 0
      | _ => 0)

theorem packDirent_length (ent : DirEnt) : (packDirent ent).length = direntSize := by
  have hname : (ent.name.take (direntSize - 2)).length ≤ direntSize - 2 := List.length_take_le _ _
  simp only [packDirent, List.length_append, List.length_cons, List.length_replicate, direntSize]
    at hname ⊢
  omega

theorem sysReaddir_confines {fd buf len : ℕ} :
    Confines Post.value (sysReaddir fd buf len) e k ↔ ReaddirOk e k fd buf len := by
  unfold sysReaddir ReaddirOk
  by_cases hlen : len < direntSize
  · simp [hlen, Nat.not_le.mpr hlen]
  · rw [if_neg hlen, imp_iff_right (not_lt.mp hlen)]
    refine confines_out (by split <;> [split; skip] <;> omega) rfl fun _ => ?_
    simp only [if_true, confines_getFd]
    rcases k.currentFd fd with _ | of
    · simp
    · cases of with
      | dir index ents =>
        by_cases hin : index < ents.length
        · simp [hin, confines_copyToUser, packDirent_length]
        · simp [hin]
      | _ => simp

def sysinfoText (e : Env) (kind buf len : ℕ) : Bytes :=
  if kind = infoMem then e.memText.take len
  else if kind = infoDisk then e.diskText.take len
  else if kind = infoInstall then (e.installText (userBytes e buf (min len 32))).take len
  else []

def SysinfoOk (e : Env) (kind buf len : ℕ) : Prop :=
  0 < len → OutOk e.space buf len (sysinfoText e kind buf len).length

theorem sysSysinfo_confines {kind buf len : ℕ} :
    Confines Post.value (sysSysinfo kind buf len) e k ↔ SysinfoOk e kind buf len := by
  unfold sysSysinfo SysinfoOk
  rcases Nat.eq_zero_or_pos len with hlen | hlen
  · simp [hlen]
  · rw [if_neg (by omega), imp_iff_right hlen]
    refine confines_out (by unfold sysinfoText; grind) rfl fun hok => ?_
    have hread := (Vmm.userSliceOk_userRange hok).mono (Nat.min_le_left len 32)
    unfold sysinfoText
    by_cases hmem : kind = infoMem
    · simp [hmem, confines_copyToUser]
    · by_cases hdisk : kind = infoDisk
      · simp [hdisk, confines_copyToUser]
      · by_cases hinst : kind = infoInstall
        · simp [hinst, confines_copyToUser, confines_copyFromUser, hread]
        · simp [hmem, hdisk, hinst]

def PsOk (e : Env) (k : Kernel) (buf len : ℕ) : Prop :=
  let nrec := min (len / psRec) maxProc
  psRec ≤ len → OutOk e.space buf (nrec * psRec)
    ((((List.finRange maxProc).filterMap k.sched.procs).take nrec).length * psRec)

theorem sysPs_confines {buf len : ℕ} :
    Confines Post.value (sysPs buf len) e k ↔ PsOk e k buf len := by
  unfold sysPs PsOk
  by_cases hlen : len < psRec
  · simp [hlen, Nat.not_le.mpr hlen]
  · rw [if_neg hlen, imp_iff_right (not_lt.mp hlen)]
    refine confines_out (Nat.mul_le_mul_right _ (List.length_take_le _ _)) rfl fun _ => ?_
    simp [confines_copyToUser, leBytes_length]

def DateOk (e : Env) (buf len : ℕ) : Prop :=
  0 < len → OutOk e.space buf len (if e.isoDate.isSome then min len 20 else 0)

theorem sysDate_confines {buf len : ℕ} :
    Confines Post.value (sysDate buf len) e k ↔ DateOk e buf len := by
  unfold sysDate DateOk
  rcases Nat.eq_zero_or_pos len with hlen | hlen
  · simp [hlen]
  · rw [if_neg (by omega), imp_iff_right hlen]
    refine confines_out (by split <;> omega) rfl fun _ => ?_
    cases hd : e.isoDate with
    | none => simp [hd]
    | some iso => simp [hd, confines_copyToUser]

def disksNeed (e : Env) : ℕ := diskHdr + min maxDisks e.disks.length * diskRow

def DisksOk (e : Env) (buf len : ℕ) : Prop :=
  diskHdr ≤ len → OutOk e.space buf len (if disksNeed e ≤ len then disksNeed e else 0)

theorem sysDisks_confines {buf len : ℕ} :
    Confines Post.value (sysDisks buf len) e k ↔ DisksOk e buf len := by
  unfold sysDisks DisksOk
  by_cases hlen : len < diskHdr
  · simp [hlen, Nat.not_le.mpr hlen]
  · rw [if_neg hlen, imp_iff_right (not_lt.mp hlen)]
    refine confines_out (by split <;> omega) rfl fun _ => ?_
    have htable : (leBytes 4 (e.disks.take maxDisks).length ++ List.replicate 4 0 ++
        (e.disks.take maxDisks).flatMap List.ofFn).length = disksNeed e := by
      simp [leBytes_length, disksNeed, diskHdr, diskRow]
      omega
    have hneed : diskHdr + (e.disks.take maxDisks).length * diskRow = disksNeed e := by
      simp [disksNeed]
    simp only [if_true, confines_ask, confines_ite, confines_copyToUser, htable, hneed,
      confines_pure, Post.value_later, and_true]
    by_cases hfit : disksNeed e ≤ len
    · simp [hfit, Nat.not_lt.mpr hfit]
    · simp [hfit, Nat.not_le.mp hfit]

def pipeOut (k : Kernel) : ℕ :=
  match Pipe.alloc k.pipes with
  | none => 0
  | some (id, ps) =>
    match ({ k with pipes := ps }.withFds (allocPair id)).1.join with
    | none => 0
    | some _ => 8

def PipeOk (e : Env) (k : Kernel) (buf : ℕ) : Prop := OutOk e.space buf 8 (pipeOut k)

theorem sysPipe_confines {buf : ℕ} : Confines Post.value (sysPipe buf) e k ↔ PipeOk e k buf := by
  unfold sysPipe PipeOk
  refine confines_out ?_ rfl fun _ => ?_
  · unfold pipeOut
    split <;> [skip; split] <;> omega
  · unfold pipeOut
    rw [if_pos rfl, confines_get]
    rcases Pipe.alloc k.pipes with _ | ⟨id, ps⟩
    · simp
    · simp only [confines_set, confines_withFds]
      cases ({ k with pipes := ps }.withFds (allocPair id)).1.join with
      | none => simp
      | some pair => simp [confines_copyToUser, leBytes_length]

/-- `clip.rs` checks nothing: the whole range must be right by itself. -/
def ClipboardOk (e : Env) (k : Kernel) (op ptr len : ℕ) : Prop :=
  (op = 0 → k.clipboard.length ≤ len → Vmm.WritableRange e.space ptr k.clipboard.length) ∧
    (op = 1 → Vmm.UserRange e.space ptr (min len maxClip))

theorem sysClipboard_confines {op ptr len : ℕ} :
    Confines Post.value (sysClipboard op ptr len) e k ↔ ClipboardOk e k op ptr len := by
  unfold sysClipboard ClipboardOk
  rw [confines_get]
  by_cases h0 : op = 0
  · subst h0
    rcases k.clipboard with _ | ⟨b, bs⟩
    · simp
    · simp [confines_copyToUser]
  · by_cases h1 : op = 1
    · subst h1
      rcases Nat.eq_zero_or_pos (min len maxClip) with hz | hpos
      · simp [hz]
      · simp [hpos, confines_copyFromUser]
    · simp [h0, h1]

/-- The record, then the path it points to, then the argument blob it points to. -/
def SpawnOk (e : Env) (argsPtr : ℕ) : Prop :=
  let raw := userBytes e argsPtr spawnArgs
  Checkable e.space argsPtr spawnArgs ∧
    (Vmm.userSliceOk e.space argsPtr spawnArgs = some true →
      PathOk e.space (word raw 0) (word raw 1) ∧
        (pathAt e (word raw 0) (word raw 1) ≠ none → word raw 3 ≤ argvBlobMax →
          Checkable e.space (word raw 2) (word raw 3)))

theorem sysSpawn_confines {argsPtr : ℕ} :
    Confines Post.value (sysSpawn argsPtr) e k ↔ SpawnOk e argsPtr := by
  unfold sysSpawn SpawnOk
  rw [confines_guard (by rfl)]
  refine and_congr_right fun _ => forall_congr' fun hok => ?_
  rw [if_pos rfl, confines_copyFromUser le_rfl]
  simp only [Vmm.userSliceOk_userRange hok, true_and]
  rw [confines_path (by rfl)]
  refine and_congr_right fun _ => ?_
  generalize userBytes e argsPtr spawnArgs = raw
  rcases pathAt e (word raw 0) (word raw 1) with _ | path
  · simp
  · simp only [Option.some.injEq, forall_eq', ne_eq, reduceCtorEq, not_false_eq_true, true_imp_iff]
    by_cases hz : word raw 3 = 0
    · simp [hz, checkable_zero]
    · by_cases hmax : argvBlobMax < word raw 3
      · simp [hz, hmax, Nat.not_le.mpr hmax]
      · rw [if_neg hz, if_neg hmax, imp_iff_right (not_lt.mp hmax)]
        refine confines_in rfl fun hblob => ?_
        simp [confines_copyFromUser (not_lt.mp hmax), Vmm.userSliceOk_userRange hblob]

def damaged (g : Win) (pid : Option ℕ) (id xy wh : ℕ) : Option Surface := do
  let pid ← pid
  let slot ← Table.position fun i => (g.slots i).any fun s => s.id = id % 2 ^ 32 ∧ s.pid = pid
  let surf ← g.slots slot
  if (clip surf.w surf.h (xy % 2 ^ 32) (xy / 2 ^ 32) (wh % 2 ^ 32) (wh / 2 ^ 32)).isSome then
    some surf
  else none

/-- A new window copies its pixels once the size is right. -/
def CreateOk (e : Env) (ready : Bool) (pid : Option ℕ) (w h buf : ℕ) : Prop :=
  ready = true → pid ≠ none →
    ¬(w % 2 ^ 32 = 0 ∨ h % 2 ^ 32 = 0 ∨ maxDim < w % 2 ^ 32 ∨ maxDim < h % 2 ^ 32) →
      Checkable e.space buf (w % 2 ^ 32 * (h % 2 ^ 32) * 4)

theorem sysCreate_confines {ready : Bool} {pid : Option ℕ} {w h buf : ℕ} {g : Win} :
    Confines Post.value (sysCreate ready pid w h buf) e g ↔ CreateOk e ready pid w h buf := by
  unfold sysCreate CreateOk
  cases ready with
  | false => simp
  | true =>
    cases pid with
    | none => simp
    | some pid =>
      generalize w % 2 ^ 32 = w
      generalize h % 2 ^ 32 = h
      rw [if_neg (by simp), imp_iff_right rfl, imp_iff_right (by simp)]
      dsimp only
      by_cases hdim : w = 0 ∨ h = 0 ∨ maxDim < w ∨ maxDim < h
      · rw [if_pos hdim]
        exact iff_of_true (confines_pure.mpr trivial) fun hnot => absurd hdim hnot
      · rw [if_neg hdim, imp_iff_right hdim]
        refine confines_in rfl fun hok => ?_
        simp only [if_true, confines_ask, confines_ite, confines_pure, copyPixels,
          confines_copyFromUser le_rfl, Vmm.userSliceOk_userRange hok, confines_get, true_and]
        split
        · trivial
        · cases Table.position fun i => (g.slots i).isNone <;> simp

def DamageOk (e : Env) (g : Win) (pid : Option ℕ) (id xy wh : ℕ) : Prop :=
  ∀ surf, damaged g pid id xy wh = some surf →
    Checkable e.space surf.userPtr (surf.w * surf.h * 4)

theorem sysDamage_confines {pid : Option ℕ} {id xy wh : ℕ} {g : Win} :
    Confines Post.value (sysDamage pid id xy wh) e g ↔ DamageOk e g pid id xy wh := by
  unfold sysDamage DamageOk damaged
  cases pid with
  | none => simp
  | some pid =>
    simp only [confines_get, Option.bind_eq_bind, Option.bind_some]
    generalize Table.position (fun i => (g.slots i).any fun s =>
      s.id = id % 2 ^ 32 ∧ s.pid = pid) = pos
    rcases pos with _ | slot
    · simp
    · simp only [Option.bind_some]
      rcases g.slots slot with _ | surf
      · simp
      · simp only [Option.bind_some]
        rcases clip surf.w surf.h (xy % 2 ^ 32) (xy / 2 ^ 32) (wh % 2 ^ 32) (wh / 2 ^ 32)
            with _ | rect
        · simp
        · simp only [Option.isSome_some, if_true, Option.some.injEq, forall_eq']
          refine confines_in rfl fun hok => ?_
          simp [copyPixels, confines_copyFromUser, Vmm.userSliceOk_userRange hok]

def PollInputOk (e : Env) (g : Win) (pid : Option ℕ) (buf len : ℕ) : Prop :=
  ∀ p, pid = some p → evSize ≤ len →
    OutOk e.space buf (min (len / evSize) inCap * evSize)
      (g.takeForPid p (min (len / evSize) inCap)).1.length

theorem takeLoop_length {pid nfit : ℕ} (copied : ℕ) (qs : List Queued) :
    (takeLoop pid nfit copied qs).1.length ≤ (nfit - copied) * evSize := by
  induction qs generalizing copied with
  | nil => simp [takeLoop]
  | cons q qs ih =>
    rw [takeLoop]
    split
    · rename_i h
      have hnext := ih (copied + 1)
      simp only [List.length_append, evBytes, leBytes_length, evSize] at hnext ⊢
      omega
    · exact ih copied

theorem sysPollInput_confines {pid : Option ℕ} {buf len : ℕ} {g : Win} :
    Confines Post.value (sysPollInput pid buf len) e g ↔ PollInputOk e g pid buf len := by
  unfold sysPollInput PollInputOk
  cases pid with
  | none => simp
  | some pid =>
    simp only [Option.some.injEq, forall_eq']
    by_cases hlen : len < evSize
    · simp [hlen, Nat.not_le.mpr hlen]
    · rw [if_neg hlen, imp_iff_right (not_lt.mp hlen)]
      generalize min (len / evSize) inCap = nfit
      refine confines_out (takeLoop_length 0 g.q) rfl fun _ => ?_
      simp only [if_true, confines_get, confines_set, confines_ite, confines_pure,
        confines_copyToUser, Post.value_later, and_true]
      split
      · rename_i hnone
        simp [hnone]
      · rfl

end Handlers

section Points

variable {sp : Vmm.AddrSpace} {e : Env} {k : Kernel} {I : Point → Env → Kernel → Prop}

theorem confines_ret {m : KernM Kernel ℕ} :
    Confines (Post.next I sp) (m >>= fun v => pure (.ret v)) e k ↔ Confines Post.value m e k := by
  simp [Confines, Post.next, Post.value, Next.result, Next.Follows]

theorem confines_onWin {m : KernM Win ℕ} :
    Confines (Post.next I sp) (onWin m >>= fun v => pure (.ret v)) e k ↔
      Confines Post.value m e k.win := by
  simp [Confines, Post.next, Post.value, Next.result, Next.Follows, onWin]

@[simp] theorem later_ret {v : ℕ} : (Post.next I sp).later (.ret v) k ↔ True := by
  simp [Post.next, Next.Follows]

@[simp] theorem later_exit {o : Outcome} : (Post.next I sp).later (.exit o) k ↔ True := by
  simp [Post.next, Next.Follows]

@[simp] theorem later_goto {p : Point} :
    (Post.next I sp).later (.goto p) k ↔ ∀ e', e'.space = sp → I p e' k := by
  constructor
  · intro h e' hsp
    exact h p e' k ⟨rfl, rfl⟩ hsp
  · rintro h q e' k' ⟨rfl, rfl⟩ hsp
    exact h e' hsp

theorem later_point {p : Point} :
    (∀ q e' k', q = p → e'.space = sp → I q e' k') ↔ ∀ e' k', e'.space = sp → I p e' k' := by
  constructor
  · intro h e' k' hsp
    exact h p e' k' rfl hsp
  · rintro h q e' k' rfl hsp
    exact h e' k' hsp

@[simp] theorem later_pollThen {p : Point} :
    (Post.next I sp).later (.pollThen p) k ↔ ∀ e' k', e'.space = sp → I p e' k' :=
  later_point

@[simp] theorem later_irqOpen {p : Point} :
    (Post.next I sp).later (.irqOpen p) k ↔ ∀ e' k', e'.space = sp → I p e' k' :=
  later_point

@[simp] theorem later_block {st : State} {p : Point} :
    (Post.next I sp).later (.block st p) k ↔ ∀ e' k', e'.space = sp → I p e' k' :=
  later_point

theorem confines_stop {ptr len : ℕ} {f : Bool → KernM Kernel Next}
    (hf : f false = pure (.ret err)) :
    Confines (Post.next I sp) (userSliceOk ptr len >>= f) e k ↔ Checkable e.space ptr len ∧
      (Vmm.userSliceOk e.space ptr len = some true → Confines (Post.next I sp) (f true) e k) :=
  confines_check hf rfl (later_ret.mpr trivial)

def Allowed (sp : Vmm.AddrSpace) : Point → Prop
  | .dispatch _ _ _ _ => False
  | .readStdin buf => Vmm.WritableRange sp buf 1
  | .stdinPolled buf => Vmm.WritableRange sp buf 1
  | .readPipe _ buf n => Vmm.WritableRange sp buf n
  | .writePipe _ buf n => Vmm.UserRange sp buf n ∧ n ≤ ioMax
  | .wait => True
  | .netPing _ buf len => ∀ n ≤ min (len / 8) 4, OutOk sp buf (n * 8) (n * 8)
  | .httpGet _ buf len => ∀ n ≤ len, OutOk sp buf n n

theorem waitRound_confines : Confines (Post.next I sp) waitRound e k ↔
    ∀ r k', tryReap k = some (r, k') → r = .mustBlock →
      (Post.next I sp).later (.block .blockedWait .wait) k' := by
  unfold waitRound
  rw [confines_get]
  rcases tryReap k with _ | ⟨r, k'⟩
  · simp
  · cases r <;> simp

theorem readPipe_confines {id : PipeId} {buf n : ℕ} :
    Confines (Post.next I sp) (readPipe id buf n) e k ↔
      match (Pipe.read k.pipes id n).1 with
      | .data got => Vmm.WritableRange e.space buf got.length
      | .eof => True
      | .wouldBlock => ∀ e' k', e'.space = sp → I (.readPipe id buf n) e' k' := by
  unfold readPipe
  rw [confines_get]
  rcases Pipe.read k.pipes id n with ⟨r, ps⟩
  cases r <;> simp [confines_copyToUser]

theorem writePipe_confines {id : PipeId} {buf n : ℕ} (hn : n ≤ ioMax) :
    Confines (Post.next I sp) (writePipe id buf n) e k ↔ Vmm.UserRange e.space buf n ∧
      ((Pipe.write k.pipes id (userBytes e buf n)).1 = .wouldBlock →
        ∀ e' k', e'.space = sp → I (.writePipe id buf n) e' k') := by
  unfold writePipe
  rw [confines_copyFromUser hn]
  simp only [confines_get]
  rcases Pipe.write k.pipes id (userBytes e buf n) with ⟨r, ps⟩
  cases r <;> simp

theorem readStdin_confines {buf : ℕ} :
    Confines (Post.next I sp) (readStdin buf) e k ↔
      match k.keys with
      | b :: _ => b ≠ 4 → Vmm.WritableRange e.space buf 1
      | [] => ∀ e' k', e'.space = sp → I (.stdinPolled buf) e' k' := by
  unfold readStdin
  rw [confines_get]
  rcases k.keys with _ | ⟨b, rest⟩
  · simp
  · simp [confines_copyToUser]

theorem stdinPolled_confines {buf : ℕ} :
    Confines (Post.next I sp) (stdinPolled buf) e k ↔
      ∀ e' k', e'.space = sp → I (.readStdin buf) e' k' := by
  unfold stdinPolled
  simp

theorem confines_reply {buf n v : ℕ} {src : Bytes} (hsrc : src.length = n) :
    Confines (Post.next I sp) (if n = 0 then pure (.ret 0) else do
      unless ← userSliceOk buf n do return .ret err
      let some _ ← copyToUser buf src | return .ret err
      return .ret v) e k ↔ OutOk e.space buf n n := by
  rcases Nat.eq_zero_or_pos n with rfl | hpos
  · simp
  · rw [if_neg (by omega), confines_stop (by rfl), outOk_iff le_rfl]
    refine and_congr_right fun _ => forall_congr' fun _ => ?_
    simp [confines_copyToUser, hsrc]

theorem netPing_confines {name : Bytes} {buf len : ℕ} :
    Confines (Post.next I sp) (netPing name buf len) e k ↔
      ∀ replies, e.ping name = .ok replies →
        OutOk e.space buf (min (min replies.length (len / 8)) 4 * 8)
          (min (min replies.length (len / 8)) 4 * 8) := by
  unfold netPing
  rw [confines_ask]
  rcases e.ping name with er | replies
  · cases er <;> simp
  · simp only [Except.ok.injEq, forall_eq']
    have hn : min (min replies.length (len / 8)) 4 = 0 ↔
        min (min replies.length (len / 8)) 4 * 8 = 0 := by omega
    simp only [hn]
    refine confines_reply ?_
    simp

theorem httpGet_confines {url : Bytes} {buf len : ℕ} :
    Confines (Post.next I sp) (httpGet url buf len) e k ↔
      ∀ body, e.httpGet url = .ok body →
        OutOk e.space buf (min body.length len) (min body.length len) := by
  unfold httpGet
  rw [confines_ask]
  rcases e.httpGet url with er | body
  · cases er <;> simp
  · simp only [Except.ok.injEq, forall_eq']
    refine confines_reply ?_
    simp

theorem allowed_confines {p : Point} (h : Allowed e.space p) :
    Confines (Post.next (fun q e' _ => Allowed e'.space q) e.space) (runPoint p) e k := by
  cases p with
  | dispatch num a0 a1 a2 => exact h.elim
  | readStdin buf =>
    refine readStdin_confines.mpr ?_
    split
    · exact fun _ => h
    · exact fun e' _ hsp => hsp ▸ h
  | stdinPolled buf => exact stdinPolled_confines.mpr fun e' _ hsp => hsp ▸ h
  | readPipe id buf n =>
    refine readPipe_confines.mpr ?_
    split
    · rename_i got hgot
      exact h.mono (Pipe.read_length_le hgot)
    · trivial
    · exact fun e' _ hsp => hsp ▸ h
  | writePipe id buf n =>
    exact (writePipe_confines h.2).mpr ⟨h.1, fun _ e' _ hsp => hsp ▸ h⟩
  | wait =>
    refine waitRound_confines.mpr fun r k' _ _ => ?_
    exact later_block.mpr fun _ _ _ => trivial
  | netPing name buf len => exact netPing_confines.mpr fun replies _ => h _ (by omega)
  | httpGet url buf len => exact httpGet_confines.mpr fun body _ => h _ (by omega)

theorem confinedCall_of_allowed {p : Point} (h : Allowed e.space p) : ConfinedCall p e k :=
  confinedCall_of_next (I := fun q e' _ => Allowed e'.space q) (fun _ _ _ => allowed_confines) h

def stdinOut (k : Kernel) : ℕ := if k.keys.head? = some 4 then 0 else 1

theorem readStdin_confined_iff {buf : ℕ} :
    (∀ e', e'.space = e.space → ConfinedCall (.readStdin buf) e' k) ↔
      Vmm.WritableRange e.space buf (stdinOut k) := by
  have hround : ∀ e k, ConfinedCall (.readStdin buf) e k ↔ _ :=
    fun e k => confinedCall_iff.trans readStdin_confines
  unfold stdinOut
  rcases hkeys : k.keys with _ | ⟨b, rest⟩
  · refine ⟨fun h => ?_, fun h e' hsp => confinedCall_of_allowed (hsp ▸ h)⟩
    -- The call waits for a key, and any key may come.
    have hpoll := (hround e k).mp (h e rfl)
    rw [hkeys] at hpoll
    have hagain := stdinPolled_confines.mp (confinedCall_iff.mp (hpoll e k rfl))
    exact (hround e { k with keys := [0] }).mp (hagain e _ rfl) (by decide)
  · simp only [List.head?_cons, Option.some.injEq]
    constructor
    · intro h
      have hkey := (hround e k).mp (h e rfl)
      rw [hkeys] at hkey
      split
      · exact Vmm.writableRange_zero
      · exact hkey ‹_›
    · intro h e' hsp
      refine (hround e' k).mpr ?_
      rw [hkeys]
      intro hb
      rw [if_neg hb] at h
      exact hsp ▸ h

def pipeReadOut (k : Kernel) (id : PipeId) (n : ℕ) : ℕ :=
  match (Pipe.read k.pipes id n).1 with
  | .data got => got.length
  | .eof => 0
  | .wouldBlock => n

theorem read_full (ps : Pipes) (id : PipeId) {n : ℕ} (hused : (ps id).used = true)
    (hlen : (ps id).len = pipeCap) (hpos : 0 < n) (hn : n ≤ pipeCap) :
    ∃ got, (Pipe.read ps id n).1 = .data got ∧ got.length = n := by
  refine ⟨Ring.contents (ps id).buf (ps id).head n, ?_, Ring.contents_length _ _ _⟩
  simp [Pipe.read, hused, hlen, hpos.ne', Nat.min_eq_left hn]

theorem readPipe_confined_iff {id : PipeId} {buf n : ℕ} (hpos : 0 < n) (hn : n ≤ ioMax) :
    (∀ e', e'.space = e.space → ConfinedCall (.readPipe id buf n) e' k) ↔
      Vmm.WritableRange e.space buf (pipeReadOut k id n) := by
  have hround : ∀ e k, ConfinedCall (.readPipe id buf n) e k ↔ _ :=
    fun e k => confinedCall_iff.trans readPipe_confines
  unfold pipeReadOut
  cases hr : (Pipe.read k.pipes id n).1 with
  | data got =>
    constructor
    · intro h
      have hdata := (hround e k).mp (h e rfl)
      rwa [hr] at hdata
    · intro h e' hsp
      refine (hround e' k).mpr ?_
      rw [hr]
      exact hsp ▸ h
  | eof =>
    refine iff_of_true (fun e' _ => (hround e' k).mpr ?_) Vmm.writableRange_zero
    rw [hr]
    trivial
  | wouldBlock =>
    refine ⟨fun h => ?_, fun h e' hsp => confinedCall_of_allowed (hsp ▸ h)⟩
    -- The pipe may be full when the call goes on.
    have hwait := (hround e k).mp (h e rfl)
    rw [hr] at hwait
    let full : Kernel := { k with pipes := fun _ => { Pipe.fresh with len := pipeCap } }
    obtain ⟨got, hgot, hlen⟩ := read_full full.pipes id rfl rfl hpos hn
    have hdata := (hround e full).mp (hwait e full rfl)
    rw [hgot] at hdata
    exact hlen ▸ hdata

theorem netPing_confined_iff {name : Bytes} {buf len : ℕ} :
    (∀ e' k', e'.space = e.space → ConfinedCall (.netPing name buf len) e' k') ↔
      ∀ n ≤ min (len / 8) 4, OutOk e.space buf (n * 8) (n * 8) := by
  refine ⟨fun h n hn => ?_, fun h e' k' hsp => confinedCall_of_allowed (hsp ▸ h)⟩
  let answer : Env := { e with ping := fun _ => .ok (List.replicate n fun _ => 0) }
  have hout := netPing_confines.mp (confinedCall_iff.mp (h answer (Kernel.init true) rfl)) _ rfl
  rw [List.length_replicate, show min (min n (len / 8)) 4 = n by omega] at hout
  exact hout

theorem httpGet_confined_iff {url : Bytes} {buf len : ℕ} :
    (∀ e' k', e'.space = e.space → ConfinedCall (.httpGet url buf len) e' k') ↔
      ∀ n ≤ len, OutOk e.space buf n n := by
  refine ⟨fun h n hn => ?_, fun h e' k' hsp => confinedCall_of_allowed (hsp ▸ h)⟩
  let answer : Env := { e with httpGet := fun _ => .ok (List.replicate n 0) }
  have hout := httpGet_confines.mp (confinedCall_iff.mp (h answer (Kernel.init true) rfl)) _ rfl
  rw [List.length_replicate, Nat.min_eq_left hn] at hout
  exact hout

theorem readFile_confines {fd buf n : ℕ} {path : Bytes} {offset : ℕ} {writable : Bool}
    (hfd : k.currentFd fd = some (.file path offset writable)) :
    Confines Post.value (readFile fd buf n) e k ↔
      OutOk e.space buf n (((e.readAt path offset).getD []).take n).length := by
  unfold readFile
  rcases Nat.eq_zero_or_pos n with rfl | hpos
  · simp [hfd]
  · simp only [hpos, if_true]
    refine confines_out (List.length_take_le _ _) rfl fun _ => ?_
    simp only [if_true, confines_getFd, hfd, hpos.ne', if_false, confines_ask]
    cases e.readAt path offset with
    | none => simp
    | some bytes => simp [confines_copyToUser]

/-- By the kind of the descriptor; a read of nothing asks nothing. -/
def ReadOk (e : Env) (k : Kernel) (fd buf len : ℕ) : Prop :=
  len ≤ ioMax →
    match k.currentFd fd with
    | some .stdin => 0 < len → OutOk e.space buf 1 (stdinOut k)
    | some (.file path offset _) =>
      OutOk e.space buf len (((e.readAt path offset).getD []).take len).length
    | some (.pipe id false) => 0 < len → OutOk e.space buf len (pipeReadOut k id len)
    | _ => True

theorem sysRead_confines {fd buf len : ℕ} :
    Confines (Post.next ConfinedCall e.space) (sysRead fd buf len) e k ↔ ReadOk e k fd buf len := by
  unfold sysRead ReadOk
  by_cases hlen : ioMax < len
  · simp [hlen, Nat.not_le.mpr hlen]
  · rw [if_neg hlen, confines_getFd, imp_iff_right (not_lt.mp hlen)]
    cases hfd : k.currentFd fd with
    | none => simp
    | some of =>
      cases of with
      | stdin =>
        rcases Nat.eq_zero_or_pos len with hz | hpos
        · simp [hz]
        · simp only [hpos, hpos.ne', if_false, true_imp_iff]
          rw [outOk_iff (by unfold stdinOut; split <;> omega), confines_stop (by rfl)]
          refine and_congr_right fun _ => forall_congr' fun _ => ?_
          simp [readStdin_confined_iff]
      | file path offset writable => exact confines_ret.trans (readFile_confines hfd)
      | pipe id write =>
        cases write with
        | true => simp
        | false =>
          rcases Nat.eq_zero_or_pos len with hz | hpos
          · simp [hz]
          · have hout : pipeReadOut k id len ≤ len := by
              unfold pipeReadOut
              split
              · exact Pipe.read_length_le ‹_›
              · exact Nat.zero_le _
              · exact le_rfl
            simp only [hpos, hpos.ne', if_false, true_imp_iff]
            rw [outOk_iff hout, confines_stop (by rfl)]
            refine and_congr_right fun _ => forall_congr' fun _ => ?_
            simp [readPipe_confined_iff hpos (not_lt.mp hlen)]
      | _ => simp

def WriteOk (e : Env) (buf len : ℕ) : Prop := len ≤ ioMax → Checkable e.space buf len

theorem sysWrite_confines {fd buf len : ℕ} :
    Confines (Post.next ConfinedCall e.space) (sysWrite fd buf len) e k ↔ WriteOk e buf len := by
  unfold sysWrite WriteOk
  by_cases hlen : ioMax < len
  · simp [hlen, Nat.not_le.mpr hlen]
  · have hle := not_lt.mp hlen
    rw [if_neg hlen, imp_iff_right hle, confines_stop (by rfl)]
    refine and_iff_left fun hok => ?_
    have hread := Vmm.userSliceOk_userRange hok
    have hconsole : Confines Post.value (writeConsole buf len) e k := by
      simp [writeConsole, confines_copyFromUser hle, hread]
    rw [if_pos rfl, confines_getFd]
    cases hfd : k.currentFd fd with
    | none => simp
    | some of =>
      cases of with
      | stdout => exact confines_ret.mpr hconsole
      | stderr => exact confines_ret.mpr hconsole
      | file path offset writable =>
        cases writable with
        | false => simp
        | true =>
          refine confines_ret.mpr ?_
          simp only [writeFile, confines_copyFromUser hle, hread, confines_getFd, hfd, true_and,
            confines_ask]
          cases e.writeAt path offset (userBytes e buf len) <;> simp
      | pipe id write =>
        cases write with
        | false => simp
        | true =>
          simp only [confines_ite, confines_pure, later_ret, later_goto]
          split
          · trivial
          · exact fun e' hsp => confinedCall_of_allowed ⟨hsp ▸ hread, hle⟩
      | _ => simp

theorem confines_text {ptr len v : ℕ} {p : Bytes → Point} :
    Confines (Post.next I sp) (if len = 0 ∨ pathMax < len then pure (.ret v) else do
      unless ← userSliceOk ptr len do return .ret err
      let some text ← copyFromUser ptr len pathMax | return .ret err
      if utf8Valid text then return .irqOpen (p text)
      return .ret v) e k ↔
    PathOk e.space ptr len ∧ ∀ text, pathAt e ptr len = some text →
      ∀ e' k', e'.space = sp → I (p text) e' k' := by
  by_cases hlen : len = 0 ∨ pathMax < len
  · have hnot : ¬(0 < len ∧ len ≤ pathMax) := by omega
    rw [if_pos hlen]
    refine iff_of_true (confines_pure.mpr (later_ret.mpr trivial)) ⟨fun hpos hmax => ?_, ?_⟩
    · exact absurd ⟨hpos, hmax⟩ hnot
    · intro text htext
      simp [pathAt, hnot, ← and_assoc] at htext
  · obtain ⟨hpos, hmax⟩ : 0 < len ∧ len ≤ pathMax := by omega
    rw [if_neg hlen, confines_stop (by rfl)]
    refine and_congr (by simp [PathOk, hpos, hmax]) ?_
    by_cases hok : Vmm.userSliceOk e.space ptr len = some true
    · simp only [hok, true_imp_iff, if_true, confines_copyFromUser hmax,
        Vmm.userSliceOk_userRange hok, true_and, confines_ite, confines_pure, later_irqOpen,
        later_ret, pathAt, hpos, hmax]
      split <;> simp
    · simp [hok, pathAt]

def PingOk (e : Env) (argsPtr : ℕ) : Prop :=
  let raw := userBytes e argsPtr pingArgs
  Checkable e.space argsPtr pingArgs ∧ (Vmm.userSliceOk e.space argsPtr pingArgs = some true →
    PathOk e.space (word raw 0) (word raw 1) ∧ (pathAt e (word raw 0) (word raw 1) ≠ none →
      ∀ n ≤ min (word raw 3 / 8) 4, OutOk e.space (word raw 2) (n * 8) (n * 8)))

theorem sysNetPing_confines {argsPtr : ℕ} :
    Confines (Post.next ConfinedCall e.space) (sysNetPing argsPtr) e k ↔ PingOk e argsPtr := by
  unfold sysNetPing PingOk
  rw [confines_stop (by rfl)]
  refine and_congr_right fun _ => forall_congr' fun hok => ?_
  rw [if_pos rfl, confines_copyFromUser le_rfl]
  simp only [Vmm.userSliceOk_userRange hok, true_and]
  generalize userBytes e argsPtr pingArgs = raw
  generalize word raw 0 = ptr
  generalize word raw 1 = len
  refine confines_text.trans (and_congr_right fun _ => ?_)
  simp only [netPing_confined_iff]
  rcases pathAt e ptr len with _ | text
  · simp
  · simp

def HttpOk (e : Env) (argsPtr : ℕ) : Prop :=
  let raw := userBytes e argsPtr httpGetArgs
  Checkable e.space argsPtr httpGetArgs ∧ (Vmm.userSliceOk e.space argsPtr httpGetArgs = some true →
    PathOk e.space (word raw 0) (word raw 1) ∧ (pathAt e (word raw 0) (word raw 1) ≠ none →
      ∀ n ≤ word raw 3, OutOk e.space (word raw 2) n n))

theorem sysHttpGet_confines {argsPtr : ℕ} :
    Confines (Post.next ConfinedCall e.space) (sysHttpGet argsPtr) e k ↔ HttpOk e argsPtr := by
  unfold sysHttpGet HttpOk
  rw [confines_stop (by rfl)]
  refine and_congr_right fun _ => forall_congr' fun hok => ?_
  rw [if_pos rfl, confines_copyFromUser le_rfl]
  simp only [Vmm.userSliceOk_userRange hok, true_and]
  generalize userBytes e argsPtr httpGetArgs = raw
  generalize word raw 0 = ptr
  generalize word raw 1 = len
  refine confines_text.trans (and_congr_right fun _ => ?_)
  simp only [httpGet_confined_iff]
  rcases pathAt e ptr len with _ | text
  · simp
  · simp

/-- The condition of each system call, in the order of `syscall_dispatch`. -/
def CallOk (e : Env) (k : Kernel) (num a0 a1 a2 : ℕ) : Prop :=
  match num with
  | 2 => WriteOk e a1 a2
  | 3 => PathOk e.space a0 a1
  | 4 => ReadOk e k a0 a1 a2
  | 6 => ReaddirOk e k a0 a1 a2
  | 7 => SpawnOk e a0
  | 11 => PsOk e k a0 a1
  | 12 => PathOk e.space a0 a1
  | 14 => SysinfoOk e a0 a1 a2
  | 15 => PingOk e a0
  | 16 => HttpOk e a0
  | 17 => CreateOk e k.ready k.sched.currentPid a0 a1 a2
  | 18 => DamageOk e k.win k.sched.currentPid a0 a1 a2
  | 19 => PollInputOk e k.win k.sched.currentPid a0 a1
  | 20 => DateOk e a0 a1
  | 23 => DisksOk e a0 a1
  | 25 => PipeOk e k a0
  | 26 => PathOk e.space a0 a1
  | 27 => ClipboardOk e k a0 a1 a2
  | _ => True

theorem syscallDispatch_confines {num a0 a1 a2 : ℕ} :
    Confines (Post.next ConfinedCall e.space) (syscallDispatch num a0 a1 a2) e k ↔
      CallOk e k num a0 a1 a2 := by
  unfold syscallDispatch
  rw [confines_get, confines_ask]
  split
  · simp [CallOk]
  · exact sysWrite_confines
  · exact confines_ret.trans sysOpen_confines
  · exact sysRead_confines
  · exact iff_of_true (confines_ret.mpr sysClose_confines) trivial
  · exact confines_ret.trans sysReaddir_confines
  · exact confines_ret.trans sysSpawn_confines
  · refine iff_of_true (confines_pure.mpr (later_goto.mpr fun e' _ => ?_)) trivial
    exact confinedCall_of_allowed trivial
  · exact iff_of_true (confines_ret.mpr sysKillCall_confines) trivial
  · simp [CallOk]
  · exact confines_ret.trans sysPs_confines
  · exact confines_ret.trans sysUnlink_confines
  · exact iff_of_true (confines_ret.mpr (by simp [sysSync])) trivial
  · exact confines_ret.trans sysSysinfo_confines
  · exact sysNetPing_confines
  · exact sysHttpGet_confines
  · exact confines_onWin.trans sysCreate_confines
  · exact confines_onWin.trans sysDamage_confines
  · exact confines_onWin.trans sysPollInput_confines
  · exact confines_ret.trans sysDate_confines
  · simp [CallOk]
  · simp [CallOk]
  · exact confines_ret.trans sysDisks_confines
  · simp [CallOk]
  · exact confines_ret.trans sysPipe_confines
  · exact confines_ret.trans sysMkdir_confines
  · exact confines_ret.trans sysClipboard_confines
  · refine iff_of_true (confines_pure.mpr (later_ret.mpr trivial)) ?_
    unfold CallOk
    split <;> trivial

end Points

theorem confinedCall_dispatch {e : Env} {k : Kernel} {num a0 a1 a2 : UInt64} :
    ConfinedCall (.dispatch num a0 a1 a2) e k ↔
      CallOk e k num.toNat a0.toNat a1.toNat a2.toNat :=
  confinedCall_iff.trans syscallDispatch_confines

/-- A system call uses user memory only as its caller could, or refuses the pointer, exactly
when its arguments meet its handler's condition. -/
theorem user_pointers_confined_iff (e : Env) (k : Kernel) (num a0 a1 a2 : UInt64) :
    (∀ l r, Call (.dispatch num a0 a1 a2) e k l r → Confined e.space r l) ↔
      CallOk e k num.toNat a0.toNat a1.toNat a2.toNat :=
  confinedCall_dispatch

def kernelHalf : Env :=
  { Sample.env [] with space := ⟨fun n => some ⟨decide (n < 2 ^ 35), true⟩⟩ }

/-- The clipboard takes sixteen bytes from the first page of the kernel's half. -/
theorem clipboard_reads_kernel_half : ∃ s, Reach true s ∧
    s.mode = .kernel ⟨.dispatch 27 1 0xFFFF800000000000 16, 256⟩ ∧
    ¬ ∀ l r, Call (.dispatch 27 1 0xFFFF800000000000 16) kernelHalf s.k l r →
      Confined kernelHalf.space r l := by
  obtain ⟨r, hr, hp⟩ := Machine.exists_path_of_replay Sys.step (Sys.boot true)
    ([Sample.init] ++ Sample.call 256 27 1 0xFFFF800000000000 16)
    (fun r => r.2.mode = .kernel ⟨.dispatch 27 1 0xFFFF800000000000 16, 256⟩) (by decide)
  refine ⟨r.2, ⟨r.1, hr⟩, of_decide_eq_true hp, fun h => ?_⟩
  have hclip : ClipboardOk kernelHalf r.2.k 1 0xFFFF800000000000 16 := confinedCall_dispatch.mp h
  obtain ⟨f, hf, huser⟩ := hclip.2 rfl 0xFFFF800000000000 le_rfl (by decide)
  cases hf
  simp [Vmm.frameSize] at huser

end CoeleoOs.Task
