import CoeleoOs.Fs.LiveRoot
import CoeleoOs.Lib.Machine
import CoeleoOs.Lib.Text

/-!
# The installer

The first accepted request for a disk arms the installer for it, the second in a row
applies. Requests come from the shell as a command line and from processes as a system
call. A call on the new file system is `fatCall` on the volume that `apply` made on its
disk; what the crate writes there is its own affair.
-/

namespace CoeleoOs.Fs
open CoeleoOs.Lib Fallible Machine

namespace Install

def minSectors : UInt64 := 64 * 1024 * 1024 / 512

def required : List (String × String) :=
  [("/boot/kernel", "boot/kernel"), ("/boot/limine/limine.conf", "boot/limine/limine.conf"),
    ("/boot/limine/limine-bios.sys", "boot/limine/limine-bios.sys"),
    ("/EFI/BOOT/BOOTX64.EFI", "EFI/BOOT/BOOTX64.EFI"), ("/README.TXT", "README.TXT"),
    ("/docs/HELLO.TXT", "docs/HELLO.TXT"), ("/sh", "sh")]

def optional : List (String × String) := [("/EFI/BOOT/BOOTIA32.EFI", "EFI/BOOT/BOOTIA32.EFI")]

inductive Step
  | refuse | refuseLive | armed | ok | failed
  deriving DecidableEq

section Apply

variable (w : World)

def writeArray (disk : ℕ) (start : UInt64) (entry : List UInt8) : Kern Unit :=
  each (fun i => writeBlocksAt w disk (start + UInt64.ofNat i) (Gpt.arraySector entry i))
    (List.range Gpt.arraySectors.toNat)

def writeEsp (disk : ℕ) : Kern Unit := do
  let k ← get
  let sectors ← ofOption (k.capacitySectorsAt disk)
  let usable ← ofOption (Gpt.lastUsable sectors)
  if usable < Gpt.espStartLba then fail
  else do
    let last := sectors - 1
    let backupArray := last - Gpt.arraySectors
    let t₁ ← tick
    let t₂ ← tick
    let diskGuid := Gpt.makeGuid (w.ticks t₁) (UInt64.ofNat disk) 0xD15C
    let partGuid := Gpt.makeGuid (w.ticks t₂) (UInt64.ofNat disk) 0xE5F
    let entry := Gpt.partitionEntry partGuid Gpt.espStartLba usable
    let arrayCrc := Gpt.arrayCrc32 entry
    writeBlocksAt w disk 0 (Gpt.protectiveMbr sectors)
    writeBlocksAt w disk 1 (Gpt.fillHeader 1 last 2 usable diskGuid arrayCrc)
    writeArray w disk 2 entry
    writeArray w disk backupArray entry
    writeBlocksAt w disk last (Gpt.fillHeader last 1 backupArray usable diskGuid arrayCrc)

def payloadOk : Kern Bool := Fallible.all (fun file => fsExists w file.1) required

def targetOk (n : ℕ) : Kern Bool := do
  let k ← get
  if n ≥ k.disks.length then pure false
  else
    match k.capacitySectorsAt n with
    | none => pure false
    | some sectors =>
      if sectors < minSectors then pure false
      else if (Gpt.lastUsable sectors).any (Gpt.espStartLba ≤ ·) then payloadOk w else pure false

def parentOf (path : List Char) : Option (List Char) :=
  let parent := ((path.reverse.dropWhile (· ≠ '/')).drop 1).reverse
  if '/' ∈ path ∧ parent ≠ [] then some parent else none

def fatDo (vol : Vol) : Kern Unit := do
  let _ ← fatCall w vol
  pure ()

def mkdirP (vol : Vol) (path : List Char) : Kern Unit :=
  each (fun _ => fatDo w vol) ((path.splitOn '/').filter (· ≠ []))

def readChunks (_path : String) (f : List UInt8 → Kern Unit) : Kern Unit := do
  let k ← get
  let _ ← ofOption k.fs
  let t ← tick
  each f (w.fat t).chunks
  if (w.fat t).ok then pure () else fail

def copyFile (vol : Vol) (src _dest : String) : Kern Unit := do
  fatDo w vol
  let copied ← attempt (do
    fatDo w vol
    readChunks w src fun _ => fatDo w vol
    fatDo w vol)
  fatDrop w vol
  ofOption copied

def populate (vol : Vol) (fs : FatAnswer) : Kern Unit := do
  if fs.fatType ≠ .fat32 then fail
  else do
    each (fun file => match parentOf file.2.toList with
      | some parent => mkdirP w vol parent
      | none => pure ()) (required ++ optional)
    each (fun file => copyFile w vol file.1 file.2) required
    each (fun file => do
      if ← fsExists w file.1 then copyFile w vol file.1 file.2 else pure ()) optional

def apply (n : ℕ) : Kern Unit := do
  let k ← get
  if k.liveRoot = some n then fail
  else if ← targetOk w n then do
    let sectors ← ofOption (k.capacitySectorsAt n)
    let lastUsable ← ofOption (Gpt.lastUsable sectors)
    writeEsp w n
    let vol : Vol := ⟨n, Gpt.espStartLba, (lastUsable - Gpt.espStartLba + 1) * 512⟩
    fatDo w vol -- `format_volume`
    let fs ← fatCall w vol -- `FileSystem::new`
    let populated ← attempt (populate w vol fs)
    fatDrop w vol
    ofOption populated
    flushAt w n
  else fail

def step (n : ℕ) (k : Kernel) : Step × Kernel :=
  if k.liveRoot = some n then (.refuseLive, k)
  else
    match (targetOk w n).run k with
    | (some true, k) =>
      if k.pending = some n then
        match (apply w n).run { k with pending := none } with
        | (some (), k) => (.ok, k)
        | (none, k) => (.failed, k)
      else (.armed, { k with pending := some n })
    | (_, k) => (.refuse, k)

end Apply

def isAsciiDigit (c : Char) : Bool := 0x30 ≤ c.toNat ∧ c.toNat ≤ 0x39

def parseUsize (tok : List Char) : Option ℕ :=
  let n := tok.foldl (fun acc c => 10 * acc + (c.toNat - 0x30)) 0
  if n < 2 ^ 64 then some n else none

def parseIndex (s : List Char) : Option ℕ :=
  match (Text.splitWhitespace s).head? with
  | none => none
  | some tok => if tok = [] ∨ ¬ tok.all isAsciiDigit then none else parseUsize tok

section Calls

variable (w : World)

def handleCmd (arg : List Char) (k : Kernel) : String × Kernel :=
  match parseIndex arg with
  | none => ("install: refuse\n", k)
  | some n =>
    let r := step w n k
    match r.1 with
    | .refuse => ("install: refuse\n", r.2)
    | .refuseLive => ("install: refuse live-root\n", r.2)
    | .armed => ("install: confirm\n", r.2)
    | .ok => ("install: ok\n", r.2)
    | .failed => ("install: failed\n", r.2)

/-- What a process gets, and what goes out on the serial line. -/
structure Reply where
  value : UInt64
  serial : String
  deriving DecidableEq

def sysErr : UInt64 := 0xFFFFFFFFFFFFFFFF

def sysInstall (n : UInt64) (k : Kernel) : Reply × Kernel :=
  let r := step w n.toNat k
  match r.1 with
  | .refuse => (⟨sysErr, "install: refuse\n"⟩, r.2)
  | .refuseLive => (⟨sysErr, "install: refuse live-root\n"⟩, r.2)
  | .armed => (⟨1, ""⟩, r.2)
  | .ok => (⟨0, "install: ok\n"⟩, r.2)
  | .failed => (⟨sysErr, "install: failed\n"⟩, r.2)

end Calls

inductive Act
  | handleCmd (arg : List Char)
  | sysInstall (n : UInt64)
  | init
  | sync
  | write
  deriving DecidableEq

def Act.isRequest : Act → Bool
  | .handleCmd _ => true
  | .sysInstall _ => true
  | _ => false

def Act.target : Act → Option ℕ
  | .handleCmd arg => parseIndex arg
  | .sysInstall n => some n.toNat
  | _ => none

def act (w : World) (k : Kernel) : Act → Kernel
  | .handleCmd arg => (handleCmd w arg k).2
  | .sysInstall n => (sysInstall w n k).2
  | .init => ((fsInit w).run k).2
  | .sync => ((fsSync w).run k).2
  | .write => ((fsWrite w).run k).2

def kernelStep (w : World) (k : Kernel) (a : Act) : Option Kernel := some (act w k a)

def boot (disks : List Disk) : Kernel := ⟨disks, none, none, none, none, 0, []⟩

def Step.applies : Step → Bool
  | .ok => true
  | .failed => true
  | _ => false

def Step.accepts (s : Step) : Bool := s = .armed ∨ s.applies

section Runs

variable (w : World)

def outcome (t : Trans Kernel Act) : Option (ℕ × Step) :=
  t.act.target.map fun n => (n, (step w n t.pre).1)

def appliesTo (n : ℕ) (t : Trans Kernel Act) : Bool :=
  (outcome w t).any fun r => r.1 = n ∧ r.2.applies

def acceptsFor (n : ℕ) (t : Trans Kernel Act) : Bool :=
  (outcome w t).any fun r => r.1 = n ∧ r.2.accepts

def lastAccepted (ts : List (Trans Kernel Act)) : Option (ℕ × Step) :=
  (ts.filterMap fun t => (outcome w t).filter fun r => r.2.accepts).getLast?

def newWrites (t : Trans Kernel Act) : List Written := t.post.written.drop t.pre.written.length

structure TwoStep (ts : List (Trans Kernel Act)) : Prop where
  armed : ∀ us t vs, ts = us ++ t :: vs → t.act.isRequest = true → ∀ x ∈ newWrites t,
    t.act.target = some x.disk ∧ lastAccepted w us = some (x.disk, .armed) ∧ ∀ v, x.root = some v →
    v.disk ≠ x.disk
  cleared : ∀ t ∈ ts, ∀ n, appliesTo w n t = true → t.post.pending = none
  counted : ∀ n, 2 * ts.countP (appliesTo w n) ≤ ts.countP (acceptsFor w n)

end Runs

section Step

variable {w : World} {n : ℕ} {k : Kernel}

theorem only_each {ι : Type} {f : ι → Kern Unit} (is : List ι) (hf : ∀ i, Within (Only n) (f i)) :
    Within (Only n) (each f is) := Within.each Only.refl Only.trans fun i _ => hf i

theorem only_writeArray (start : UInt64) (entry : List UInt8) :
    Within (Only n) (writeArray w n start entry) :=
  only_each _ fun _ => only_writeBlocksAt _ _

theorem only_writeEsp : Within (Only n) (writeEsp w n) := by
  apply only_bind only_get
  intro k
  apply only_bind (only_ofOption _)
  intro sectors
  apply only_bind (only_ofOption _)
  intro usable
  refine only_ite only_fail ?_
  apply only_bind only_tick
  intro t₁
  apply only_bind only_tick
  intro t₂
  apply only_bind (only_writeBlocksAt _ _)
  intro _
  apply only_bind (only_writeBlocksAt _ _)
  intro _
  apply only_bind (only_writeArray _ _)
  intro _
  apply only_bind (only_writeArray _ _)
  intro _
  exact only_writeBlocksAt _ _

theorem only_targetOk (m : ℕ) : Within (Only m) (targetOk w n) := by
  apply only_bind only_get
  intro k
  refine only_ite (only_pure false) ?_
  change Within (Only m) (match k.capacitySectorsAt n with
    | none => pure false
    | some sectors => if sectors < minSectors then pure false
      else if (Gpt.lastUsable sectors).any (Gpt.espStartLba ≤ ·) then payloadOk w else pure false)
  split
  · exact only_pure false
  · refine only_ite (only_pure false) (only_ite ?_ (only_pure false))
    exact Within.all Only.refl Only.trans fun file _ => only_fsExists file.1

theorem only_readChunks (path : String) {f : List UInt8 → Kern Unit}
    (hf : ∀ bytes, Within (Only n) (f bytes)) : Within (Only n) (readChunks w path f) := by
  apply only_bind only_get
  intro k
  apply only_bind (only_ofOption _)
  intro _
  apply only_bind only_tick
  intro t
  apply only_bind (only_each _ hf)
  intro _
  exact only_ite (only_pure ()) only_fail

section Files

variable {vol : Vol} (hvol : vol.disk = n)
include hvol

theorem only_fatDo : Within (Only n) (fatDo w vol) := by
  apply only_bind (only_fatCall hvol)
  intro _
  exact only_pure ()

theorem only_copyFile (src dest : String) : Within (Only n) (copyFile w vol src dest) := by
  apply only_bind (only_fatDo hvol)
  intro _
  apply only_bind
  · apply Within.attempt
    apply only_bind (only_fatDo hvol)
    intro _
    apply only_bind (only_readChunks src fun _ => only_fatDo hvol)
    intro _
    exact only_fatDo hvol
  · intro copied
    apply only_bind (only_fatDrop hvol)
    intro _
    exact only_ofOption copied

theorem only_populate (fs : FatAnswer) : Within (Only n) (populate w vol fs) := by
  refine only_ite only_fail ?_
  apply only_bind
  · apply only_each
    intro file
    split
    · exact only_each _ fun _ => only_fatDo hvol
    · exact only_pure ()
  · intro _
    apply only_bind (only_each _ fun _ => only_copyFile hvol _ _)
    intro _
    apply only_each
    intro file
    apply only_bind (only_fsExists _)
    intro found
    exact only_ite (only_copyFile hvol _ _) (only_pure ())

end Files

theorem only_apply : Within (Only n) (apply w n) := by
  apply only_bind only_get
  intro k
  refine only_ite only_fail ?_
  apply only_bind (only_targetOk n)
  intro ok
  refine only_ite ?_ only_fail
  apply only_bind (only_ofOption _)
  intro sectors
  apply only_bind (only_ofOption _)
  intro lastUsable
  apply only_bind only_writeEsp
  intro _
  suffices hfill : ∀ vol : Vol, vol.disk = n → Within (Only n) (do
      fatDo w vol
      let fs ← fatCall w vol
      let populated ← attempt (populate w vol fs)
      fatDrop w vol
      ofOption populated
      flushAt w n) from hfill _ rfl
  intro vol hvol
  apply only_bind (only_fatDo hvol)
  intro _
  apply only_bind (only_fatCall hvol)
  intro fs
  apply only_bind (only_populate hvol fs).attempt
  intro populated
  apply only_bind (only_fatDrop hvol)
  intro _
  apply only_bind (only_ofOption populated)
  intro _
  exact only_flushAt n

theorem written_of_only {k k' : Kernel} (h : ∀ n, Only n k k') : k'.written = k.written := by
  obtain ⟨l, hl, hin⟩ := (h 0).written
  obtain ⟨l', hl', hin'⟩ := (h 1).written
  obtain rfl := List.append_cancel_left (hl.symm.trans hl')
  rcases l with _ | ⟨x, l⟩
  · simpa using hl
  · have h0 := (hin x List.mem_cons_self).1
    have h1 := (hin' x List.mem_cons_self).1
    omega

/-- All that a request for disk `n` can do. -/
inductive Outcome (n : ℕ) (k k' : Kernel) : Step → Prop
  | refused {s : Step} (hs : s.accepts = false) (hpending : k'.pending = k.pending)
    (hwritten : k'.written = k.written) : Outcome n k k' s
  | armed (hpending : k'.pending = some n) (hwritten : k'.written = k.written) :
    Outcome n k k' .armed
  | applied {s : Step} (hs : s.applies = true) (hlive : k.liveRoot ≠ some n)
    (hbefore : k.pending = some n) (hpending : k'.pending = none) (hwritten : ∃ l, k'.written =
      k.written ++ l ∧ ∀ x ∈ l, x.disk = n ∧ x.root = k.fs) : Outcome n k k' s

theorem step_cases (w : World) (n : ℕ) (k : Kernel) :
    Outcome n k (step w n k).2 (step w n k).1 ∧ (k.Rooted → (step w n k).2.Rooted) := by
  have hquiet : ∀ m, Only m k ((targetOk w n).run k).2 := fun m => only_targetOk m k
  have hwritten := written_of_only hquiet
  have hrooted : k.Rooted → ((targetOk w n).run k).2.Rooted := ((hquiet n).mounts rfl).rooted
  rw [step]
  split
  · exact ⟨.refused rfl rfl rfl, id⟩
  rename_i hlive
  rcases hrun : (targetOk w n).run k with ⟨_ | _ | _, k₁⟩
  · rw [hrun] at hquiet hwritten hrooted
    exact ⟨.refused rfl (hquiet n).pending hwritten, hrooted⟩
  · rw [hrun] at hquiet hwritten hrooted
    exact ⟨.refused rfl (hquiet n).pending hwritten, hrooted⟩
  · rw [hrun] at hquiet hwritten hrooted
    change Outcome n k (if _ then _ else _ : Step × Kernel).2 (if _ then _
        else _ : Step × Kernel).1 ∧ (_ → (if _ then _ else _ : Step × Kernel).2.Rooted)
    split
    · rename_i hbefore
      have honly :
          Only n { k₁ with pending := none } ((apply w n).run { k₁ with pending := none }).2 :=
        only_apply _
      have hafter : k.Rooted → ((apply w n).run { k₁ with pending := none }).2.Rooted := fun hk =>
        (honly.mounts rfl).rooted ⟨(hrooted hk).liveRoot, (hrooted hk).volume⟩
      have hnew : ∃ l, ((apply w n).run { k₁ with pending := none }).2.written = k.written ++ l ∧
          ∀ x ∈ l, x.disk = n ∧ x.root = k.fs := by
        obtain ⟨l, hl, hin⟩ := honly.written
        exact ⟨l, hl.trans (congrArg (· ++ l) hwritten), fun x hx =>
          ⟨(hin x hx).1, (hin x hx).2.trans (hquiet n).fs⟩⟩
      have hpending : k.pending = some n := (hquiet n).pending.symm.trans hbefore
      rcases happly : (apply w n).run { k₁ with pending := none } with ⟨_ | _, k₂⟩
      · rw [happly] at honly hafter hnew
        exact ⟨.applied rfl hlive hpending honly.pending hnew, hafter⟩
      · rw [happly] at honly hafter hnew
        exact ⟨.applied rfl hlive hpending honly.pending hnew, hafter⟩
    · exact ⟨.armed rfl hwritten, fun hk => ⟨(hrooted hk).liveRoot, (hrooted hk).volume⟩⟩

end Step

section Run

variable {w : World} {disks : List Disk} {ts : List (Trans Kernel Act)} {k k' : Kernel} {a : Act}

theorem act_target {n : ℕ} (k : Kernel) (ha : a.target = some n) : act w k a = (step w n k).2 := by
  cases a with
  | handleCmd arg =>
    have hn : parseIndex arg = some n := ha
    rw [act, handleCmd, hn]
    dsimp only
    split <;> rfl
  | sysInstall m =>
    obtain rfl := Option.some.inj ha
    rw [act, sysInstall]
    split <;> rfl
  | init => cases ha
  | sync => cases ha
  | write => cases ha

theorem act_refused (k : Kernel) (hreq : a.isRequest = true) (ha : a.target = none) :
    act w k a = k := by
  cases a with
  | handleCmd arg =>
    have hn : parseIndex arg = none := ha
    rw [act, handleCmd, hn]
  | sysInstall m => cases ha
  | init => cases hreq
  | sync => cases hreq
  | write => cases hreq

theorem act_other (hk : k.Rooted) (hreq : a.isRequest = false) :
    Moves k.disks.length k (act w k a) := by
  cases a with
  | handleCmd arg => cases hreq
  | sysInstall m => cases hreq
  | init => exact moves_fsInit k
  | sync => exact moves_fsSync hk
  | write => exact moves_fsWrite k

theorem act_rooted (hk : k.Rooted) : (act w k a).Rooted := by
  cases hreq : a.isRequest with
  | false => exact (act_other hk hreq).rooted hk
  | true =>
    cases ha : a.target with
    | none => rwa [act_refused k hreq ha]
    | some n => exact act_target k ha ▸ (step_cases w n k).2 hk

def armedBy : Option (ℕ × Step) → Option ℕ
  | some (n, .armed) => some n
  | _ => none

theorem lastAccepted_snoc (t : Trans Kernel Act) :
    lastAccepted w (ts ++ [t]) = ((outcome w t).filter fun r => r.2.accepts).or
      (lastAccepted w ts) := by
  rw [lastAccepted, List.filterMap_append, List.getLast?_append]
  rcases h : (outcome w t).filter fun r => r.2.accepts with _ | r
  · simp [h, lastAccepted]
  · simp [h]

/-- One transition of a run: nothing is accepted, a disk is armed, or the armed disk is
installed. -/
inductive TransCase (w : World) (t : Trans Kernel Act) : Prop
  | quiet (hout : (outcome w t).filter (fun r => r.2.accepts) = none) (hpending : t.post.pending =
    t.pre.pending) (hwritten : t.act.isRequest = true → newWrites t = []) : TransCase w t
  | armed (n : ℕ) (hout : outcome w t = some (n, .armed)) (hpending : t.post.pending = some n)
      (hwritten : newWrites t = []) : TransCase w t
  | applied (n : ℕ) (s : Step) (htarget : t.act.target = some n) (hout : outcome w t = some (n, s))
      (hs : s.applies = true) (hlive : t.pre.liveRoot ≠ some n) (hbefore : t.pre.pending = some n)
      (hpending : t.post.pending = none)
      (hwritten : ∀ x ∈ newWrites t, x.disk = n ∧ x.root = t.pre.fs) : TransCase w t

theorem newWrites_same {t : Trans Kernel Act} (h : t.post.written = t.pre.written) :
    newWrites t = [] := by
  rw [newWrites, h, List.drop_length]

theorem trans_cases {t : Trans Kernel Act} (hstep : kernelStep w t.pre t.act = some t.post)
    (hk : t.pre.Rooted) : TransCase w t := by
  have hpost : act w t.pre t.act = t.post := Option.some.inj hstep
  rcases htarget : t.act.target with _ | n
  · have hout : (outcome w t).filter (fun r => r.2.accepts) = none := by
      rw [outcome, htarget]
      rfl
    cases hreq : t.act.isRequest with
    | false =>
      refine .quiet hout ?_ fun h => by cases hreq.symm.trans h
      rw [← hpost]
      exact (act_other hk hreq).pending
    | true =>
      have hsame : t.post = t.pre := hpost.symm.trans (act_refused t.pre hreq htarget)
      exact .quiet hout (congrArg Kernel.pending hsame) fun _ =>
        newWrites_same (congrArg Kernel.written hsame)
  · have hout : outcome w t = some (n, (step w n t.pre).1) := by
      rw [outcome, htarget]
      rfl
    have hafter : t.post = (step w n t.pre).2 := hpost.symm.trans (act_target t.pre htarget)
    have hcases := (step_cases w n t.pre).1
    rw [← hafter] at hcases
    generalize (step w n t.pre).1 = s at hout hcases
    cases hcases with
    | refused hs hpending hwritten =>
      refine .quiet ?_ hpending fun _ => newWrites_same hwritten
      rw [hout, Option.filter_some, hs]
      rfl
    | armed hpending hwritten => exact .armed n hout hpending (newWrites_same hwritten)
    | applied hs hlive hbefore hpending hwritten =>
      refine .applied n s htarget hout hs hlive hbefore hpending fun x hx => ?_
      obtain ⟨l, hl, hin⟩ := hwritten
      rw [newWrites, hl, List.drop_left] at hx
      exact hin x hx

theorem run_rooted (h : Path (kernelStep w) (boot disks) ts k) : k.Rooted := by
  have hboot : (boot disks).Rooted := ⟨nofun, nofun⟩
  refine Reachable.invariant hboot (fun s a s' hs hstep => ?_) ⟨ts, h⟩
  obtain rfl := Option.some.inj hstep
  exact act_rooted hs

theorem run_pending (h : Path (kernelStep w) (boot disks) ts k) :
    k.pending = armedBy (lastAccepted w ts) := by
  induction h with
  | nil => rfl
  | @snoc ts k k' a hpath hstep ih =>
    rw [lastAccepted_snoc]
    cases trans_cases (t := ⟨k, a, k'⟩) hstep (run_rooted hpath) with
    | quiet hout hpending =>
      rw [hout]
      exact hpending.trans ih
    | armed n hout hpending =>
      rw [hout]
      exact hpending
    | applied n s htarget hout hs hlive hbefore hpending =>
      rw [hout, Option.filter_some, show Step.accepts s = true by simp [Step.accepts, hs]]
      refine hpending.trans ?_
      cases s with
      | refuse => cases hs
      | refuseLive => cases hs
      | armed => cases hs
      | ok => rfl
      | failed => rfl

theorem armedBy_eq_some {r : Option (ℕ × Step)} {n : ℕ} (h : armedBy r = some n) :
    r = some (n, .armed) := by
  unfold armedBy at h
  split at h
  · exact congrArg _ (congrArg (·, Step.armed) (Option.some.inj h))
  · cases h

theorem accepts_of_applies {s : Step} (h : s.applies = true) : s.accepts = true := by
  simp [Step.accepts, h]

theorem quiet_counts {t : Trans Kernel Act} (n : ℕ)
    (hout : (outcome w t).filter (fun r => r.2.accepts) = none) :
    appliesTo w n t = false ∧ acceptsFor w n t = false := by
  rcases hr : outcome w t with _ | ⟨m, s⟩
  · simp [appliesTo, acceptsFor, hr]
  · have hs : s.accepts = false := by simpa [hr] using hout
    have happ : s.applies = false := Bool.eq_false_of_not_eq_true fun h => by
      cases (accepts_of_applies h).symm.trans hs
    simp [appliesTo, acceptsFor, hr, hs, happ]

theorem run_counted (h : Path (kernelStep w) (boot disks) ts k) (n : ℕ) :
    2 * ts.countP (appliesTo w n) + (if k.pending = some n then 1 else 0) ≤
      ts.countP (acceptsFor w n) := by
  induction h with
  | nil => simp [boot]
  | @snoc ts k k' a hpath hstep ih =>
    rw [List.countP_append, List.countP_append, List.countP_singleton, List.countP_singleton]
    cases trans_cases (t := ⟨k, a, k'⟩) hstep (run_rooted hpath) with
    | quiet hout hpending =>
      have hpending : k'.pending = k.pending := hpending
      rw [(quiet_counts n hout).1, (quiet_counts n hout).2, hpending]
      exact ih
    | armed m hout hpending =>
      have hpending : k'.pending = some m := hpending
      have happ : appliesTo w n ⟨k, a, k'⟩ = false := by simp [appliesTo, hout, Step.applies]
      have hacc : acceptsFor w n ⟨k, a, k'⟩ = decide (m = n) := by
        simp [acceptsFor, hout, Step.accepts]
      rw [happ, hacc, hpending]
      simp only [Option.some.injEq, decide_eq_true_eq, Bool.false_eq_true, if_false]
      omega
    | applied m s htarget hout hs hlive hbefore hpending =>
      have hbefore : k.pending = some m := hbefore
      have hpending : k'.pending = none := hpending
      have happ : appliesTo w n ⟨k, a, k'⟩ = decide (m = n) := by simp [appliesTo, hout, hs]
      have hacc : acceptsFor w n ⟨k, a, k'⟩ = decide (m = n) := by
        simp [acceptsFor, hout, accepts_of_applies hs]
      rw [hbefore] at ih
      rw [happ, hacc, hpending]
      simp only [Option.some.injEq, decide_eq_true_eq, reduceCtorEq, if_false] at ih ⊢
      omega

theorem run_armed (h : Path (kernelStep w) (boot disks) ts k) :
    ∀ us t vs, ts = us ++ t :: vs → t.act.isRequest = true → ∀ x ∈ newWrites t,
      t.act.target = some x.disk ∧ lastAccepted w us = some (x.disk, .armed) ∧
        ∀ v, x.root = some v → v.disk ≠ x.disk := by
  induction h with
  | nil =>
    intro us t vs hts
    cases us <;> cases hts
  | @snoc ts k k' a hpath hstep ih =>
    intro us t vs hts hreq x hx
    rcases vs.eq_nil_or_concat with rfl | ⟨vs, u, rfl⟩
    · obtain ⟨rfl, hlast⟩ := List.append_inj' hts rfl
      obtain rfl := List.singleton_inj.mp hlast
      cases trans_cases (t := ⟨k, a, k'⟩) hstep (run_rooted hpath) with
      | quiet hout hpending hwritten =>
        rw [hwritten hreq] at hx
        cases hx
      | armed n hout hpending hwritten =>
        rw [hwritten] at hx
        cases hx
      | applied n s htarget hout hs hlive hbefore hpending hwritten =>
        obtain ⟨rfl, hroot⟩ := hwritten x hx
        have harmed : armedBy (lastAccepted w ts) = some x.disk :=
          (run_pending hpath).symm.trans hbefore
        refine ⟨htarget, armedBy_eq_some harmed, fun v hv hdisk => hlive ?_⟩
        rw [← hdisk]
        exact (run_rooted hpath).liveRoot v (hroot.symm.trans hv)
    · have hsplit : ts ++ [⟨k, a, k'⟩] = (us ++ t :: vs) ++ [u] := by
        rw [hts, List.concat_eq_append, List.append_assoc, List.cons_append]
      exact ih us t vs (List.append_inj' hsplit rfl).1 hreq x hx

theorem run_cleared (h : Path (kernelStep w) (boot disks) ts k) :
    ∀ t ∈ ts, ∀ n, appliesTo w n t = true → t.post.pending = none := by
  induction h with
  | nil => simp
  | @snoc ts k k' a hpath hstep ih =>
    intro t ht n happ
    rcases List.mem_append.mp ht with ht | ht
    · exact ih t ht n happ
    obtain rfl := List.mem_singleton.mp ht
    cases trans_cases (t := ⟨k, a, k'⟩) hstep (run_rooted hpath) with
    | quiet hout => cases (quiet_counts n hout).1.symm.trans happ
    | armed m hout => simp [appliesTo, hout, Step.applies] at happ
    | applied m s htarget hout hs hlive hbefore hpending => exact hpending

/-- A disk is only written by the second accepted request in a row for it, and never while it
holds the root file system. -/
theorem install_twoStep (w : World) (disks : List Disk) {ts : List (Trans Kernel Act)} {k : Kernel}
    (h : Path (kernelStep w) (boot disks) ts k) : TwoStep w ts where
  armed := run_armed h
  cleared := run_cleared h
  counted n := le_of_add_le_left (run_counted h n)

def rootSector : Sector :=
  (emptySector.splice 0x52 [0x46, 0x41, 0x54, 0x33, 0x32]).splice 510 [0x55, 0xAA]

def trialDisks : List Disk :=
  [⟨.virtio, 131072, fun _ => rootSector, 0⟩, ⟨.ahci, 131072, fun _ => emptySector, 0⟩]

def trial : World where
  fat _ := ⟨[(5, rootSector)], true, .fat32, [[]]⟩
  readOk _ _ := true
  writeOk _ _ := true
  flushOk _ := true
  ticks _ := 0

def trialActs : List Act :=
  [.init, .handleCmd ['0'], .handleCmd [' ', '1'], .sysInstall 7, .sync, .sysInstall 1]

theorem install_twoStep_trial : ∃ r : List (Trans Kernel Act) × Kernel, Path (kernelStep trial)
    (boot trialDisks) r.1 r.2 ∧ TwoStep trial r.1 ∧ r.1.map (outcome trial) =
      [none, some (0, .refuseLive), some (1, .armed), some (7, .refuse), none, some (1, .ok)] ∧
      r.1.map (fun t => (newWrites t).length) = [1, 0, 0, 0, 2, 120] := by
  obtain ⟨r, hpath, hrun⟩ := exists_path_of_replay (kernelStep trial) (boot trialDisks) trialActs
    (fun r => r.1.map (outcome trial) =
        [none, some (0, .refuseLive), some (1, .armed), some (7, .refuse), none, some (1, .ok)] ∧
      r.1.map (fun t => (newWrites t).length) = [1, 0, 0, 0, 2, 120]) (by decide +kernel)
  exact ⟨r, hpath, install_twoStep trial trialDisks hpath, of_decide_eq_true hrun⟩

end Run

def Lifts (w : World) (n : ℕ) {α : Type} (p : Gpt.Install α) (q : Kern α) : Prop :=
  ∀ kind m k a k', k.disks[n]? = some ⟨kind, m⟩ → q.run k = (some a, k') →
    ∃ m', p.out (w.writeOk n) m = some (a, m') ∧ k'.disks[n]? = some ⟨kind, m'⟩

section Lifts

variable {w : World} {n : ℕ} {α β : Type}

theorem Lifts.bind {p : Gpt.Install α} {q : Kern α} {f : α → Gpt.Install β} {g : α → Kern β}
    (h : Lifts w n p q) (hf : ∀ a, Lifts w n (f a) (g a)) : Lifts w n (p >>= f) (q >>= g) := by
  intro kind m k b k' hk hrun
  rcases hq : q.run k with ⟨_ | a, k₁⟩
  · rw [run_bind, hq] at hrun
    cases hrun
  · rw [run_bind_some _ hq] at hrun
    obtain ⟨m₁, hp, hk₁⟩ := h kind m k a k₁ hk hq
    obtain ⟨m', hf, hk'⟩ := hf a kind m₁ k₁ b k' hk₁ hrun
    refine ⟨m', ?_, hk'⟩
    rw [Eff.out_bind, hp]
    exact hf

theorem lifts_pure (a : α) : Lifts w n (pure a) (pure a) := by
  intro kind m k b k' hk hrun
  obtain ⟨ha, rfl⟩ := Prod.mk.inj hrun
  obtain rfl := Option.some.inj ha
  exact ⟨m, rfl, hk⟩

theorem lifts_writeBlocksAt (lba : UInt64) (sector : Sector) :
    Lifts w n (Gpt.writeBlocksAt lba sector) (writeBlocksAt w n lba sector) := by
  intro kind m k a k' hk hrun
  rw [writeBlocksAt, run_bind_some _ (run_get k), hk, run_bind_some _ (run_ofOption _ k),
    run_bind_some _ (run_modify _ k)] at hrun
  rcases hout : (Gpt.writeBlocksAt lba sector).out (w.writeOk n) m with _ | ⟨b, m'⟩
  · rw [run_bind, run_ofOption, hout] at hrun
    cases hrun
  · rw [run_bind, run_ofOption, hout] at hrun
    obtain ⟨-, rfl⟩ := Prod.mk.inj hrun
    refine ⟨m', rfl, ?_⟩
    change (k.disks.modify n fun d => { d with media := m' })[n]? = _
    simp [hk]

theorem lifts_writeArray (start : UInt64) (entry : List UInt8) :
    Lifts w n (Gpt.writeArray start entry) (writeArray w n start entry) := by
  have hloop : ∀ count first, Lifts w n (Gpt.arrayLoop start entry count first)
      (each (fun i => writeBlocksAt w n (start + UInt64.ofNat i) (Gpt.arraySector entry i))
        (List.range' first count)) := by
    intro count
    induction count with
    | zero => exact fun _ => lifts_pure ()
    | succ count ih => exact fun first => (lifts_writeBlocksAt _ _).bind fun _ => ih (first + 1)
  rw [writeArray, List.range_eq_range']
  exact hloop _ 0

theorem lifts_table (mbr primary backup : Sector) (entry : List UInt8) (array last : UInt64) :
    Lifts w n (do
      Gpt.writeBlocksAt 0 mbr
      Gpt.writeBlocksAt 1 primary
      Gpt.writeArray 2 entry
      Gpt.writeArray array entry
      Gpt.writeBlocksAt last backup) (do
      writeBlocksAt w n 0 mbr
      writeBlocksAt w n 1 primary
      writeArray w n 2 entry
      writeArray w n array entry
      writeBlocksAt w n last backup) := by
  apply (lifts_writeBlocksAt 0 mbr).bind
  intro _
  apply (lifts_writeBlocksAt 1 primary).bind
  intro _
  apply (lifts_writeArray 2 entry).bind
  intro _
  apply (lifts_writeArray array entry).bind
  intro _
  exact lifts_writeBlocksAt last backup

theorem writeEsp_lifts {kind : DiskKind} {m : Gpt.Media} {k k' : Kernel}
    (hk : k.disks[n]? = some ⟨kind, m⟩) (hrun : (writeEsp w n).run k = (some (), k')) :
    ∃ t₁ t₂ m', (Gpt.writeEsp (w.ticks t₁) (w.ticks t₂) (UInt64.ofNat n)).out (w.writeOk n) m =
      some ((), m') ∧ k'.disks[n]? = some ⟨kind, m'⟩ := by
  have hcap : k.capacitySectorsAt n = some m.capacity := by
    rw [Kernel.capacitySectorsAt, hk, Option.map_some]
  rw [writeEsp, run_bind_some _ (run_get k), hcap, run_bind_some _ (run_ofOption _ k)] at hrun
  rcases hlast : Gpt.lastUsable m.capacity with _ | usable
  · rw [hlast] at hrun
    cases hrun
  rw [hlast, run_bind_some _ (run_ofOption _ k)] at hrun
  by_cases hsmall : usable < Gpt.espStartLba
  · rw [if_pos hsmall] at hrun
    cases hrun
  refine ⟨k.clock, k.clock + 1, ?_⟩
  rw [if_neg hsmall] at hrun
  obtain ⟨m', hout, hk'⟩ :=
    lifts_table _ _ _ _ _ _ kind m { k with clock := k.clock + 2 } () k' hk hrun
  refine ⟨m', ?_, hk'⟩
  rw [Gpt.writeEsp, Eff.out_bind, Eff.out_get, Option.bind_some, hlast]
  dsimp only
  rw [if_neg hsmall]
  exact hout

end Lifts

end Install

end CoeleoOs.Fs
