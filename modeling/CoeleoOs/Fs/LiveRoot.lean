import CoeleoOs.Fs.Gpt
import CoeleoOs.Lib.Fallible

/-!
# The disk under the root file system

The table of disks, the one mounted file system and the index of the disk that holds it.
The `fatfs` crate is known by its answers: a call may write any sectors of the volume it
was given and then succeed or fail; reading a file writes none. Each answer, and each
outcome of a device, may be anything (`World`).
-/

namespace CoeleoOs.Fs
open CoeleoOs.Lib Fallible

structure Disk where
  kind : DiskKind
  media : Gpt.Media

/-- What `FatDisk::volume` is given. -/
structure Vol where
  disk : ℕ
  startLba : UInt64
  size : UInt64
  deriving DecidableEq

/-- A sector that was written, and the volume that was mounted then. -/
structure Written where
  disk : ℕ
  lba : UInt64
  root : Option Vol
  deriving DecidableEq

structure Kernel where
  disks : List Disk
  liveRoot : Option ℕ
  fs : Option Vol
  volume : Option Vol
  pending : Option ℕ
  clock : ℕ
  written : List Written

inductive FatType
  | fat12 | fat16 | fat32
  deriving DecidableEq

structure FatAnswer where
  writes : List (UInt64 × Sector)
  ok : Bool
  fatType : FatType
  chunks : List (List UInt8)

structure World where
  fat : ℕ → FatAnswer
  readOk : ℕ → UInt64 → Bool
  writeOk : ℕ → ℕ → Bool
  flushOk : ℕ → Bool
  ticks : ℕ → UInt64

abbrev Kern := Fallible Kernel

namespace Kernel

def capacitySectorsAt (k : Kernel) (i : ℕ) : Option UInt64 := k.disks[i]?.map (·.media.capacity)

def capacityBytesAt (k : Kernel) (i : ℕ) : Option UInt64 := (k.capacitySectorsAt i).map (· * 512)

def setDisk (k : Kernel) (n : ℕ) (m : Gpt.Media) : Kernel :=
  { k with disks := k.disks.modify n fun d => { d with media := m } }

end Kernel

section Blk

variable (w : World)

def tick : Kern ℕ := do
  let k ← get
  modify fun k => { k with clock := k.clock + 1 }
  pure k.clock

def setLiveRoot (i : ℕ) : Kern Unit :=
  modify fun k => if i < k.disks.length then { k with liveRoot := some i } else k

def clearLiveRoot : Kern Unit := modify fun k => { k with liveRoot := none }

def writeBlocksAt (disk : ℕ) (lba : UInt64) (sector : Sector) : Kern Unit := do
  let k ← get
  let d ← ofOption k.disks[disk]?
  modify fun k => { k with written := k.written ++ [⟨disk, lba, k.fs⟩] }
  let r ← ofOption ((Gpt.writeBlocksAt lba sector).out (w.writeOk disk) d.media)
  modify fun k => k.setDisk disk r.2

def blockDev (disk : ℕ) : Kern BlockDev := do
  let k ← get
  let d ← ofOption k.disks[disk]?
  let t ← tick
  pure ⟨d.kind, fun lba => if w.readOk t lba ∧ lba < d.media.capacity
    then some (d.media.data lba.toNat) else none⟩

def flushAt (disk : ℕ) : Kern Unit := do
  let k ← get
  let d ← ofOption k.disks[disk]?
  let t ← tick
  match d.kind with
  | .virtio => pure ()
  | .ahci => if w.flushOk t then pure () else fail
  | .usb => pure ()

def fatCall (v : Vol) : Kern FatAnswer := do
  let t ← tick
  each (fun x : UInt64 × Sector => do
    let _ ← attempt (writeBlocksAt w v.disk (v.startLba + x.1) x.2)
    pure ()) (w.fat t).writes
  if (w.fat t).ok then pure (w.fat t) else fail

def fatDrop (v : Vol) : Kern Unit := do
  let _ ← attempt (fatCall w v)
  pure ()

end Blk

section Mounting

variable (w : World)

def looksLikeFat32 (disk : ℕ) (startLba : UInt64) : Kern Bool := do
  match ← attempt (blockDev w disk) with
  | none => pure false
  | some dev =>
    match dev.read startLba with
    | none => pure false
    | some buf =>
      pure (buf.get 510 = 0x55 ∧ buf.get 511 = 0xAA ∧ buf.slice 0x52 5 =
        [0x46, 0x41, 0x54, 0x33, 0x32])

def replaceFs (v : Vol) : Kern Unit := do
  let k ← get
  match k.fs with
  | some old => fatDrop w old
  | none => pure ()
  modify fun k => { k with fs := some v }

def tryMount (v : Vol) : Kern Bool := do
  match ← attempt (fatCall w v) with
  | none => pure false
  | some fs =>
    if fs.fatType ≠ .fat32 then do
      fatDrop w v
      pure false
    else do
      modify fun k => { k with volume := some v }
      setLiveRoot v.disk
      replaceFs w v
      pure true

def dropMount : Kern Unit := do
  let k ← get
  modify fun k => { k with fs := none }
  match k.fs with
  | some v => fatDrop w v
  | none => pure ()
  modify fun k => { k with volume := none }
  clearLiveRoot

def fsExists (_path : String) : Kern Bool := do
  let k ← get
  let t ← tick
  pure (k.fs.isSome && (w.fat t).ok)

def considerMount (v : Vol) (fallback : Option Vol) : Kern (Bool × Option Vol) := do
  if ← tryMount w v then do
    if ← fsExists w "/boot/kernel" then pure (true, fallback)
    else do
      dropMount w
      pure (false, fallback.or (some v))
  else pure (false, fallback)

def saturatingMul (a b : UInt64) : UInt64 := UInt64.ofNat (min (a.toNat * b.toNat) (2 ^ 64 - 1))

def initVolumes (disk : ℕ) : List Volume → Option Vol → Kern (Bool × Option Vol)
  | [], fallback => pure (false, fallback)
  | vol :: vols, fallback => do
    if ← looksLikeFat32 w disk vol.startLba then do
      let r ← considerMount w ⟨disk, vol.startLba, saturatingMul vol.sectors 512⟩ fallback
      if r.1 then pure r else initVolumes disk vols r.2
    else initVolumes disk vols fallback

def initWhole (disk : ℕ) (fallback : Option Vol) : Kern (Bool × Option Vol) := do
  if ← looksLikeFat32 w disk 0 then do
    let k ← get
    match k.capacityBytesAt disk with
    | some cap => considerMount w ⟨disk, 0, cap⟩ fallback
    | none => pure (false, fallback)
  else pure (false, fallback)

def initDisks : List ℕ → Option Vol → Kern (Bool × Option Vol)
  | [], fallback => pure (false, fallback)
  | disk :: disks, fallback => do
    let r ← initWhole w disk fallback
    if r.1 then pure r
    else do
      let dev ← blockDev w disk
      let vols ← ofOption (volumes.out dev ())
      let r ← initVolumes w disk vols.1 r.2
      if r.1 then pure r else initDisks disks r.2

def fsInit : Kern Unit := do
  let k ← get
  let r ← initDisks w (List.range k.disks.length) none
  if r.1 then pure ()
  else
    match r.2 with
    | some v => do
      let _ ← tryMount w v
      pure ()
    | none => pure ()

def fsSync : Kern Unit := do
  let k ← get
  let v ← ofOption k.volume
  let fs ← ofOption k.fs
  modify fun k => { k with fs := none }
  fatDrop w fs
  let flushed ← attempt (flushAt w v.disk)
  if ← tryMount w v then (if flushed.isSome then pure () else fail) else fail

def fsWrite : Kern Unit := do
  let k ← get
  match k.fs with
  | some v => fatDrop w v
  | none => fail

end Mounting

/-- All that a call on the volumes of disk `n` changes. -/
structure Only (n : ℕ) (k k' : Kernel) : Prop where
  liveRoot : k'.liveRoot = k.liveRoot
  fs : k'.fs = k.fs
  volume : k'.volume = k.volume
  pending : k'.pending = k.pending
  count : k'.disks.length = k.disks.length
  others : ∀ i, i ≠ n → k'.disks[i]? = k.disks[i]?
  written : ∃ l, k'.written = k.written ++ l ∧ ∀ x ∈ l, x.disk = n ∧ x.root = k.fs

section Only

variable {n : ℕ} {w : World}

theorem Only.refl (k : Kernel) : Only n k k :=
  ⟨rfl, rfl, rfl, rfl, rfl, fun _ _ => rfl, [], by simp, by simp⟩

theorem Only.trans (k₁ k₂ k₃ : Kernel) (h : Only n k₁ k₂) (h' : Only n k₂ k₃) : Only n k₁ k₃ := by
  obtain ⟨l, hl, hin⟩ := h.written
  obtain ⟨l', hl', hin'⟩ := h'.written
  refine ⟨h'.liveRoot.trans h.liveRoot, h'.fs.trans h.fs, h'.volume.trans h.volume,
    h'.pending.trans h.pending, h'.count.trans h.count, fun i hi =>
      (h'.others i hi).trans (h.others i hi), l ++ l', ?_, ?_⟩
  · rw [hl', hl, List.append_assoc]
  · intro x hx
    rcases List.mem_append.mp hx with hx | hx
    · exact hin x hx
    · exact ⟨(hin' x hx).1, (hin' x hx).2.trans h.fs⟩

theorem Only.clock (k : Kernel) (t : ℕ) : Only n k { k with clock := t } :=
  ⟨rfl, rfl, rfl, rfl, rfl, fun _ _ => rfl, [], by simp, by simp⟩

theorem Only.logged (k : Kernel) (lba : UInt64) :
    Only n k { k with written := k.written ++ [⟨n, lba, k.fs⟩] } :=
  ⟨rfl, rfl, rfl, rfl, rfl, fun _ _ => rfl, _, rfl, by simp⟩

theorem Only.setDisk (k : Kernel) (m : Gpt.Media) : Only n k (k.setDisk n m) := by
  refine ⟨rfl, rfl, rfl, rfl, List.length_modify _ _ _, ?_, [], by simp [Kernel.setDisk], by simp⟩
  intro i hi
  rw [Kernel.setDisk, List.getElem?_modify]
  simp only [if_neg (Ne.symm hi)]
  exact Option.map_id'

theorem only_bind {α β : Type} {m : Kern α} {f : α → Kern β} (hm : Within (Only n) m)
    (hf : ∀ a, Within (Only n) (f a)) : Within (Only n) (m >>= f) := Within.bind Only.trans hm hf

theorem only_get : Within (Only n) get := within_get Only.refl

theorem only_pure {α : Type} (a : α) : Within (Only n) (pure a) := within_pure Only.refl a

theorem only_fail {α : Type} : Within (Only n) (fail : Kern α) := within_fail Only.refl

theorem only_ofOption {α : Type} (o : Option α) : Within (Only n) (ofOption o) :=
  within_ofOption Only.refl o

theorem only_ite {α : Type} {c : Prop} [Decidable c] {m m' : Kern α} (hm : Within (Only n) m)
    (hm' : Within (Only n) m') : Within (Only n) (if c then m else m') := by
  split
  · exact hm
  · exact hm'

theorem only_tick : Within (Only n) tick := fun k => Only.clock k _

theorem only_writeBlocksAt (lba : UInt64) (sector : Sector) :
    Within (Only n) (writeBlocksAt w n lba sector) := by
  apply only_bind only_get
  intro k
  apply only_bind (only_ofOption _)
  intro d
  apply only_bind fun k => Only.logged k lba
  intro _
  apply only_bind (only_ofOption _)
  intro r k
  exact Only.setDisk k r.2

theorem only_blockDev (disk : ℕ) : Within (Only n) (blockDev w disk) := by
  apply only_bind only_get
  intro k
  apply only_bind (only_ofOption _)
  intro d
  apply only_bind only_tick
  intro t
  exact only_pure _

theorem only_flushAt (disk : ℕ) : Within (Only n) (flushAt w disk) := by
  apply only_bind only_get
  intro k
  apply only_bind (only_ofOption _)
  intro d
  apply only_bind only_tick
  intro t
  cases d.kind with
  | virtio => exact only_pure ()
  | ahci => exact only_ite (only_pure ()) only_fail
  | usb => exact only_pure ()

theorem only_fatCall {v : Vol} (hv : v.disk = n) : Within (Only n) (fatCall w v) := by
  subst hv
  apply only_bind only_tick
  intro t
  apply only_bind
  · apply Within.each Only.refl Only.trans
    intro x _
    apply only_bind (only_writeBlocksAt _ _).attempt
    intro _
    exact only_pure ()
  · intro _
    exact only_ite (only_pure _) only_fail

theorem only_fatDrop {v : Vol} (hv : v.disk = n) : Within (Only n) (fatDrop w v) := by
  apply only_bind (only_fatCall hv).attempt
  intro _
  exact only_pure ()

theorem only_looksLikeFat32 (disk : ℕ) (startLba : UInt64) :
    Within (Only n) (looksLikeFat32 w disk startLba) := by
  apply only_bind (only_blockDev disk).attempt
  intro dev
  cases dev with
  | none => exact only_pure false
  | some dev =>
    change Within (Only n) (match dev.read startLba with
      | none => pure false
      | some buf => pure _ : Kern Bool)
    split
    · exact only_pure false
    · exact only_pure _

theorem only_fsExists (path : String) : Within (Only n) (fsExists w path) := by
  apply only_bind only_get
  intro k
  apply only_bind only_tick
  intro t
  exact only_pure _

end Only

/-- The disk under the mounted file system is the live root. -/
structure Kernel.Rooted (k : Kernel) : Prop where
  liveRoot : ∀ v, k.fs = some v → k.liveRoot = some v.disk
  volume : ∀ v, k.volume = some v → v.disk < k.disks.length

/-- On `N` disks, mounting keeps the live root in step and leaves the arming alone. -/
structure Moves (N : ℕ) (k k' : Kernel) : Prop where
  count : k'.disks.length = N
  pending : k'.pending = k.pending
  rooted : k.Rooted → k'.Rooted

def Mounts (N : ℕ) (k k' : Kernel) : Prop := k.disks.length = N → Moves N k k'

section Mounts

variable {N : ℕ} {w : World}

theorem Mounts.refl (k : Kernel) : Mounts N k k := fun h => ⟨h, rfl, id⟩

theorem Mounts.trans (k₁ k₂ k₃ : Kernel) (h : Mounts N k₁ k₂) (h' : Mounts N k₂ k₃) :
    Mounts N k₁ k₃ := by
  intro hN
  have h₁ := h hN
  have h₂ := h' h₁.count
  exact ⟨h₂.count, h₂.pending.trans h₁.pending, h₂.rooted ∘ h₁.rooted⟩

theorem Only.mounts {n : ℕ} {k k' : Kernel} (h : Only n k k') : Mounts N k k' := by
  intro hN
  refine ⟨h.count.trans hN, h.pending, fun hk => ⟨?_, ?_⟩⟩
  · rw [h.fs, h.liveRoot]
    exact hk.liveRoot
  · rw [h.volume, h.count]
    exact hk.volume

theorem mounts_bind {α β : Type} {m : Kern α} {f : α → Kern β} (hm : Within (Mounts N) m)
    (hf : ∀ a, Within (Mounts N) (f a)) : Within (Mounts N) (m >>= f) :=
  Within.bind Mounts.trans hm hf

theorem mounts_pure {α : Type} (a : α) : Within (Mounts N) (pure a) := within_pure Mounts.refl a

theorem mounts_fail {α : Type} : Within (Mounts N) (fail : Kern α) := within_fail Mounts.refl

theorem mounts_only {α : Type} {n : ℕ} {m : Kern α} (h : Within (Only n) m) : Within (Mounts N) m :=
  h.mono fun _ _ => Only.mounts

theorem fatDrop_run (v : Vol) (k : Kernel) :
    ∃ k', Only v.disk k k' ∧ (fatDrop w v).run k = (some (), k') := by
  have hrun : (fatDrop w v).run k = (some (), ((fatCall w v).run k).2) :=
    run_bind_some _ (run_attempt _ k)
  exact ⟨_, only_fatCall rfl k, hrun⟩

theorem replaceFs_run (v : Vol) (k : Kernel) :
    ∃ n k', Only n k k' ∧ (replaceFs w v).run k = (some (), { k' with fs := some v }) := by
  rcases hfs : k.fs with _ | old
  · refine ⟨0, k, Only.refl k, ?_⟩
    rw [replaceFs, run_bind_some _ (run_get k), hfs]
    rfl
  · obtain ⟨k', honly, hdrop⟩ := fatDrop_run old k
    refine ⟨old.disk, k', honly, ?_⟩
    rw [replaceFs, run_bind_some _ (run_get k), hfs]
    exact run_bind_some _ hdrop

theorem dropMount_run (k : Kernel) : ∃ n k', Only n { k with fs := none } k' ∧
    (dropMount w).run k = (some (), { k' with volume := none, liveRoot := none }) := by
  rcases hfs : k.fs with _ | v
  · refine ⟨0, _, Only.refl _, ?_⟩
    rw [dropMount, run_bind_some _ (run_get k), run_bind_some _ (run_modify _ k), hfs]
    rfl
  · obtain ⟨k', honly, hdrop⟩ := fatDrop_run v { k with fs := none }
    refine ⟨v.disk, k', honly, ?_⟩
    rw [dropMount, run_bind_some _ (run_get k), run_bind_some _ (run_modify _ k), hfs]
    exact run_bind_some _ hdrop

theorem mounts_enter {v : Vol} (hv : v.disk < N) : Within (Mounts N) (do
    modify fun k => { k with volume := some v }
    setLiveRoot v.disk
    replaceFs w v
    pure true : Kern Bool) := by
  intro k hN
  have hlive : v.disk < k.disks.length := hN ▸ hv
  obtain ⟨n, k', honly, hrun⟩ :=
    replaceFs_run v { k with volume := some v, liveRoot := some v.disk }
  have hset : (setLiveRoot v.disk).run { k with volume := some v } =
      (some (), { k with volume := some v, liveRoot := some v.disk }) := by
    rw [setLiveRoot, run_modify]
    exact congrArg (Prod.mk _) (if_pos hlive)
  rw [run_bind_some _ (run_modify _ k), run_bind_some _ hset, run_bind_some _ hrun]
  refine ⟨honly.count.trans hN, honly.pending, fun _ => ⟨fun x hx => ?_, fun x hx => ?_⟩⟩
  · obtain rfl := Option.some.inj hx
    exact honly.liveRoot
  · obtain rfl := Option.some.inj (honly.volume.symm.trans hx)
    exact honly.count ▸ hlive

theorem mounts_tryMount {v : Vol} (hv : v.disk < N) : Within (Mounts N) (tryMount w v) := by
  apply mounts_bind (mounts_only (only_fatCall rfl).attempt)
  intro fs
  cases fs with
  | none => exact mounts_pure false
  | some fs =>
    change Within (Mounts N) (if fs.fatType ≠ .fat32 then _ else _)
    split
    · apply mounts_bind (mounts_only (only_fatDrop rfl))
      intro _
      exact mounts_pure false
    · exact mounts_enter hv

theorem mounts_dropMount : Within (Mounts N) (dropMount w) := by
  intro k hN
  obtain ⟨n, k', honly, hrun⟩ := dropMount_run (w := w) k
  rw [hrun]
  refine ⟨honly.count.trans hN, honly.pending, fun _ => ⟨fun x hx => ?_, fun x hx => ?_⟩⟩
  · rw [show (Prod.snd (some (), ({ k' with volume := none, liveRoot := none } : Kernel))).fs = none
      from honly.fs] at hx
    cases hx
  · cases hx

theorem mounts_considerMount {v : Vol} (hv : v.disk < N) (fallback : Option Vol) :
    Within (Mounts N) (considerMount w v fallback) := by
  apply mounts_bind (mounts_tryMount hv)
  intro mounted
  cases mounted with
  | false => exact mounts_pure _
  | true =>
    apply mounts_bind (mounts_only (n := 0) (only_fsExists _))
    intro found
    cases found with
    | true => exact mounts_pure _
    | false =>
      apply mounts_bind mounts_dropMount
      intro _
      exact mounts_pure _

def Bounded (N : ℕ) (fallback : Option Vol) : Prop := ∀ v, fallback = some v → v.disk < N

theorem bounded_considerMount {v : Vol} (hv : v.disk < N) {fallback : Option Vol}
    (hf : Bounded N fallback) : Returns (fun r => Bounded N r.2) (considerMount w v fallback) := by
  have hor : Bounded N (fallback.or (some v)) := by
    intro x hx
    rcases Option.or_eq_some_iff.mp hx with hx | ⟨-, hx⟩
    · exact hf x hx
    · obtain rfl := Option.some.inj hx
      exact hv
  apply returns_bind
  intro mounted
  cases mounted with
  | false => exact returns_pure hf
  | true =>
    apply returns_bind
    intro found
    cases found with
    | true => exact returns_pure hf
    | false =>
      apply returns_bind
      intro _
      exact returns_pure hor

/-- What each part of the scan of `init` keeps. -/
structure Scans (N : ℕ) (m : Kern (Bool × Option Vol)) : Prop where
  within : Within (Mounts N) m
  returns : Returns (fun r => Bounded N r.2) m

theorem Scans.pure {b : Bool} {fallback : Option Vol} (hf : Bounded N fallback) :
    Scans N (pure (b, fallback)) := ⟨mounts_pure _, returns_pure hf⟩

theorem Scans.considerMount {v : Vol} (hv : v.disk < N) {fallback : Option Vol}
    (hf : Bounded N fallback) : Scans N (considerMount w v fallback) :=
  ⟨mounts_considerMount hv fallback, bounded_considerMount hv hf⟩

theorem Scans.bind {m : Kern (Bool × Option Vol)} {f : Bool × Option Vol → Kern (Bool × Option Vol)}
    (hm : Scans N m) (hf : ∀ r, Bounded N r.2 → Scans N (f r)) : Scans N (m >>= f) :=
  ⟨Within.bind_of Mounts.trans hm.within hm.returns fun r hr => (hf r hr).within,
    hm.returns.bind fun r hr => (hf r hr).returns⟩

theorem Scans.after {α : Type} {n : ℕ} {m : Kern α} {f : α → Kern (Bool × Option Vol)}
    (hm : Within (Only n) m) (hf : ∀ a, Scans N (f a)) : Scans N (m >>= f) :=
  ⟨mounts_bind (mounts_only hm) fun a => (hf a).within, returns_bind fun a => (hf a).returns⟩

theorem scans_initVolumes {disk : ℕ} (hdisk : disk < N) (vols : List Volume) {fallback : Option Vol}
    (hf : Bounded N fallback) : Scans N (initVolumes w disk vols fallback) := by
  induction vols generalizing fallback with
  | nil => exact .pure hf
  | cons vol vols ih =>
    apply Scans.after (n := 0) (only_looksLikeFat32 disk vol.startLba)
    intro looks
    cases looks with
    | false => exact ih hf
    | true =>
      refine Scans.bind (.considerMount hdisk hf) fun r hr => ?_
      rcases r with ⟨_ | _, fallback'⟩
      · exact ih hr
      · exact .pure hr

theorem scans_initWhole {disk : ℕ} (hdisk : disk < N) {fallback : Option Vol}
    (hf : Bounded N fallback) : Scans N (initWhole w disk fallback) := by
  apply Scans.after (n := 0) (only_looksLikeFat32 disk 0)
  intro looks
  cases looks with
  | false => exact .pure hf
  | true =>
    apply Scans.after (n := 0) only_get
    intro k
    change Scans N (match k.capacityBytesAt disk with
      | some cap => considerMount w ⟨disk, 0, cap⟩ fallback
      | none => pure (false, fallback))
    split
    · exact .considerMount hdisk hf
    · exact .pure hf

theorem scans_initDisks {disks : List ℕ} (hdisks : ∀ i ∈ disks, i < N) {fallback : Option Vol}
    (hf : Bounded N fallback) : Scans N (initDisks w disks fallback) := by
  induction disks generalizing fallback with
  | nil => exact .pure hf
  | cons disk disks ih =>
    have hdisk := hdisks disk List.mem_cons_self
    have hrest := fun i hi => hdisks i (List.mem_cons_of_mem disk hi)
    refine Scans.bind (scans_initWhole hdisk hf) fun r hr => ?_
    rcases r with ⟨_ | _, fallback'⟩
    · apply Scans.after (n := 0) (only_blockDev disk)
      intro dev
      apply Scans.after (n := 0) (only_ofOption _)
      intro vols
      refine Scans.bind (scans_initVolumes hdisk vols.1 hr) fun r hr => ?_
      rcases r with ⟨_ | _, fallback''⟩
      · exact ih hrest hr
      · exact .pure hr
    · exact .pure hr

theorem moves_fsInit (k : Kernel) : Moves k.disks.length k ((fsInit w).run k).2 := by
  have hscan : Scans k.disks.length (initDisks w (List.range k.disks.length) none) :=
    scans_initDisks (fun i hi => List.mem_range.mp hi) nofun
  have hinit : Within (Mounts k.disks.length) (do
      let r ← initDisks w (List.range k.disks.length) none
      if r.1 then pure ()
      else
        match r.2 with
        | some v => do
          let _ ← tryMount w v
          pure ()
        | none => pure () : Kern Unit) := by
    apply Within.bind_of Mounts.trans hscan.within hscan.returns
    rintro ⟨_ | _, _ | v⟩ hv
    · exact mounts_pure ()
    · apply mounts_bind (mounts_tryMount (hv v rfl))
      intro _
      exact mounts_pure ()
    · exact mounts_pure ()
    · exact mounts_pure ()
  rw [fsInit, run_bind_some _ (run_get k)]
  exact hinit k rfl

theorem moves_fsSync {k : Kernel} (hk : k.Rooted) :
    Moves k.disks.length k ((fsSync w).run k).2 := by
  rw [fsSync, run_bind_some _ (run_get k)]
  rcases hv : k.volume with _ | v
  · exact ⟨rfl, rfl, id⟩
  rcases hfs : k.fs with _ | fs
  · exact ⟨rfl, rfl, id⟩
  have hbound := hk.volume v hv
  have hsync : Within (Mounts k.disks.length) (do
      modify fun k => { k with fs := none }
      fatDrop w fs
      let flushed ← attempt (flushAt w v.disk)
      if ← tryMount w v then (if flushed.isSome then pure () else fail) else fail : Kern Unit) := by
    apply mounts_bind
    · intro k' hN
      exact ⟨hN, rfl, fun h => ⟨nofun, h.volume⟩⟩
    · intro _
      apply mounts_bind (mounts_only (only_fatDrop rfl))
      intro _
      apply mounts_bind (mounts_only (n := 0) (only_flushAt v.disk).attempt)
      intro flushed
      apply mounts_bind (mounts_tryMount hbound)
      intro mounted
      split
      · split
        · exact mounts_pure ()
        · exact mounts_fail
      · exact mounts_fail
  exact hsync k rfl

theorem moves_fsWrite (k : Kernel) : Moves k.disks.length k ((fsWrite w).run k).2 := by
  rw [fsWrite, run_bind_some _ (run_get k)]
  rcases k.fs with _ | v
  · exact ⟨rfl, rfl, id⟩
  · exact mounts_only (only_fatDrop rfl) k rfl

end Mounts

end CoeleoOs.Fs
