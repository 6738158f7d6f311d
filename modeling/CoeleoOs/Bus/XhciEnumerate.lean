import CoeleoOs.Input.UsbConfig
import Mathlib.Data.Set.Insert
import Mathlib.Logic.Relation

/-!
# Enumeration of the USB devices

`enumerate` resets each root port once, gives the device a slot, addresses it and
asks what it is; a hub is opened up and its ports are enumerated in turn, hubs
behind hubs are turned off again. The controller and the devices are a state of
their own that answers commands and requests as it likes. All that is asked of it
is that a slot which is handed out was free.
-/

namespace CoeleoOs.Bus.Xhci
open CoeleoOs.Input CoeleoOs.Lib.RecordChain

abbrev Bytes := List UInt8

structure Setup where
  ty : UInt8
  req : UInt8
  value : UInt16
  index : UInt16
  len : UInt16

inductive Kind
  | unknown
  | msc
  | hid
  | hub
  deriving DecidableEq

structure Slot where
  kind : Kind
  speed : UInt32
  rootPort : ℕ
  route : ℕ
  parent : ℕ
  parentPort : ℕ
  deriving DecidableEq

/-- What `address_device` tells the controller. -/
structure Address where
  rootPort : ℕ
  speed : UInt32
  route : ℕ
  parent : ℕ
  parentPort : ℕ

/-- The controller, its ports and the devices behind them. `enable` gives the completion of the
command, if one came, as its success and its slot; `pages` says whether there are two free
frames. -/
structure Usb (σ : Type) where
  readPort : σ → ℕ → UInt32 × σ
  resetPort : σ → ℕ → Bool × σ
  enable : σ → Option (Bool × ℕ) × σ
  pages : σ → Bool × σ
  disable : σ → ℕ → σ
  address : σ → ℕ → Address → Bool × σ
  evalHub : σ → ℕ → ℕ → Bool × σ
  control : σ → ℕ → Setup → Option Bytes × σ

structure Host (σ : Type) where
  ctl : σ
  slots : ℕ → Option Slot
  tried : ℕ → Bool
  maxPorts : ℕ

def maxSlots : ℕ := 8
def maxHubPorts : ℕ := 8
def featPortReset : UInt16 := 4
def featPortPower : UInt16 := 8
def featCReset : UInt16 := 20

def portExists (sc : UInt32) : Bool := sc != 0xFFFFFFFF

def portHasDevice (sc : UInt32) : Bool := portExists sc && sc &&& 1 != 0

def ports (n : ℕ) : List ℕ := List.range' 1 n

def walkIfaces {β : Type} (cfg : Bytes) (f : β → UInt8 → UInt8 → UInt8 → β) (b : β) : Option β :=
  let total := min (u16le (cfg.getD 2 0) (cfg.getD 3 0)) 256
  scan cfg total (fun b i len => do
    let ty ← byteAt cfg total (i + 1)
    if ty = 4 ∧ 9 ≤ len then
      let cls ← byteAt cfg total (i + 5)
      let sub ← byteAt cfg total (i + 6)
      let proto ← byteAt cfg total (i + 7)
      some (f b cls sub proto)
    else some b) (total + 1) 9 b

def hasMsc (cfg : Bytes) : Option Bool :=
  walkIfaces cfg (fun yes cls sub proto => if cls = 8 ∧ sub = 6 ∧ proto = 0x50 then true
    else yes) false

def hasHidBoot (cfg : Bytes) : Option Bool :=
  walkIfaces cfg (fun yes cls sub proto => if cls = 3 ∧ sub = 1 ∧ (proto = 1 ∨ proto = 2) then true
    else yes) false

def ifaces (cfg : Bytes) : List Record :=
  (chain ((cfg.take (min (u16le (cfg.getD 2 0) (cfg.getD 3 0)) 256)).drop 9)).filter isInterface

theorem walkIfaces_eq {β : Type} {cfg : Bytes} (hlen : cfg.length = 256)
    (f : β → UInt8 → UInt8 → UInt8 → β) (b : β) :
    walkIfaces cfg f b =
      some ((ifaces cfg).foldl (fun b r => f b (byte r 5) (byte r 6) (byte r 7)) b) := by
  simp only [walkIfaces, ifaces, List.foldl_filter]
  refine scan_eq (by omega) ?_ _ 9 b (by omega)
  intro b i len h2 hrec
  obtain ⟨r, hr, hlenr, hbyte⟩ :=
    exists_record (show min (u16le (cfg.getD 2 0) (cfg.getD 3 0)) 256 ≤ cfg.length by omega) hrec
  rw [hr, hbyte 1 (by omega), Option.bind_eq_bind, Option.bind_some]
  by_cases hi : byte r 1 = 4 ∧ 9 ≤ len
  · have hiface : isInterface r = true := (isInterface_eq_true r).mpr (by rw [hlenr]; exact hi)
    rw [if_pos hi, hbyte 5 (by omega), hbyte 6 (by omega), hbyte 7 (by omega), hiface, if_pos rfl]
    rfl
  · have hiface : isInterface r = false := by
      rw [← Bool.not_eq_true, isInterface_eq_true, hlenr]
      exact hi
    rw [if_neg hi, hiface]
    rfl

theorem foldl_found (P : Record → Prop) [DecidablePred P] (rs : List Record) (yes : Bool) :
    rs.foldl (fun yes r => if P r then true else yes) yes = (yes || decide (∃ r ∈ rs, P r)) := by
  induction rs generalizing yes with
  | nil => simp
  | cons r rs ih =>
    rw [List.foldl_cons, ih]
    by_cases h : P r
    · simp [h]
    · simp [h]

theorem hasMsc_iff {cfg : Bytes} (hlen : cfg.length = 256) :
    hasMsc cfg = some true ↔ ∃ r ∈ ifaces cfg, massStorage r = true := by
  rw [hasMsc, walkIfaces_eq hlen, foldl_found (fun r => byte r 5 = 8 ∧ byte r 6 = 6 ∧
    byte r 7 = 0x50)]
  simp only [Bool.false_or, Option.some.injEq, massStorage, Bool.and_eq_true,
    decide_eq_true_iff, and_assoc]
  rfl

theorem hasHidBoot_iff {cfg : Bytes} (hlen : cfg.length = 256) :
    hasHidBoot cfg = some true ↔ ∃ r ∈ ifaces cfg, bootHid r = true := by
  rw [hasHidBoot, walkIfaces_eq hlen,
    foldl_found (fun r => byte r 5 = 3 ∧ byte r 6 = 1 ∧ (byte r 7 = 1 ∨ byte r 7 = 2))]
  simp only [Bool.false_or, Option.some.injEq, bootHid, Bool.and_eq_true, Bool.or_eq_true,
    decide_eq_true_iff, and_assoc]
  rfl

def hubSpeed (st : UInt16) : UInt32 :=
  if st &&& 0x400 != 0 then 3 else if st &&& 0x200 != 0 then 2 else 1

variable {σ : Type} (u : Usb σ)

namespace Host

def init (c : σ) (maxPorts : ℕ) : Host σ := ⟨c, fun _ => none, fun _ => false, maxPorts⟩

def portTried (hc : Host σ) (p : ℕ) : Bool := 1 ≤ p && p ≤ 32 && hc.tried p

def markTried (hc : Host σ) (p : ℕ) : Host σ :=
  if 1 ≤ p ∧ p ≤ 32 then { hc with tried := Function.update hc.tried p true } else hc

def disableSlot (hc : Host σ) (slot : ℕ) : Host σ :=
  { hc with ctl := u.disable hc.ctl slot, slots := Function.update hc.slots slot none }

def enableSlot (hc : Host σ) : Option ℕ × Host σ :=
  match u.enable hc.ctl with
  | (some (true, slot), c) =>
    if slot = 0 ∨ maxSlots < slot then (none, { hc with ctl := c })
    else
      match u.pages c with
      | (true, c) =>
        (some slot, { hc with
          ctl := c, slots := Function.update hc.slots slot (some ⟨.unknown, 0, 0, 0, 0, 0⟩) })
      | (false, c) => (none, { hc with ctl := c })
  | (_, c) => (none, { hc with ctl := c })

def addressDevice (hc : Host σ) (slot : ℕ) (a : Address) : Bool × Host σ :=
  match hc.slots slot with
  | none => (false, hc)
  | some d =>
    let r := u.address hc.ctl slot a
    (r.1, { hc with
      ctl := r.2
      slots :=
        Function.update hc.slots slot (some ⟨d.kind, a.speed, a.rootPort, a.route, a.parent,
          a.parentPort⟩) })

def setKind (hc : Host σ) (slot : ℕ) (kind : Kind) : Host σ :=
  { hc with slots := Function.update hc.slots slot ((hc.slots slot).map fun d => { d with
    kind := kind }) }

def evalHub (hc : Host σ) (slot nports : ℕ) : Bool × Host σ :=
  match hc.slots slot with
  | none => (false, hc)
  | some _ =>
    let r := u.evalHub hc.ctl slot nports
    (r.1, { hc with ctl := r.2 })

def control (hc : Host σ) (slot : ℕ) (setup : Setup) : Option Bytes × Host σ :=
  match hc.slots slot with
  | none => (none, hc)
  | some _ =>
    let r := u.control hc.ctl slot setup
    (r.1.map fun bs => bs.take setup.len.toNat, { hc with ctl := r.2 })

def getConfig (hc : Host σ) (slot : ℕ) : Option Bytes × Host σ :=
  match hc.control u slot ⟨0x80, 6, 0x0200, 0, 9⟩ with
  | (none, hc) => (none, hc)
  | (some hdr, hc) =>
    let total := min (u16le (hdr.getD 2 0) (hdr.getD 3 0)) 256
    if total < 9 then (none, hc)
    else
      match hc.control u slot ⟨0x80, 6, 0x0200, 0, UInt16.ofNat total⟩ with
      | (none, hc) => (none, hc)
      | (some bs, hc) => (some (bs ++ List.replicate (256 - bs.length) 0), hc)

def classifyWith (attach : Host σ → ℕ → Host σ) (hc : Host σ) (slot : ℕ) : Host σ :=
  match hc.control u slot ⟨0x80, 6, 0x0100, 0, 18⟩ with
  | (none, hc) => hc.disableSlot u slot
  | (some dev, hc) =>
    if dev.getD 4 0 = 9 then
      if (hc.slots slot).any fun s => s.parent ≠ 0 then hc.disableSlot u slot else attach hc slot
    else
      match hc.getConfig u slot with
      | (none, hc) => hc.disableSlot u slot
      | (some cfg, hc) =>
        if hasMsc cfg = some true then hc.setKind slot .msc
        else if hasHidBoot cfg = some true then hc.setKind slot .hid
        else hc.disableSlot u slot

def setPort (hc : Host σ) (slot : ℕ) (feat : UInt16) (port : ℕ) : Host σ :=
  (hc.control u slot ⟨0x23, 3, feat, UInt16.ofNat port, 0⟩).2

def clearPort (hc : Host σ) (slot : ℕ) (feat : UInt16) (port : ℕ) : Host σ :=
  (hc.control u slot ⟨0x23, 1, feat, UInt16.ofNat port, 0⟩).2

def portStatusPair (hc : Host σ) (slot port : ℕ) : Option (UInt16 × UInt16) × Host σ :=
  let r := hc.control u slot ⟨0xA3, 0, 0, UInt16.ofNat port, 4⟩
  (r.1.map fun b => (UInt16.ofNat (u16le (b.getD 0 0) (b.getD 1 0)),
    UInt16.ofNat (u16le (b.getD 2 0) (b.getD 3 0))), r.2)

def awaitReset (slot port : ℕ) : ℕ → Host σ → Bool × Host σ
  | 0, hc => (false, hc)
  | n + 1, hc =>
    match hc.portStatusPair u slot port with
    | (some (_, ch), hc) => if ch &&& 0x10 != 0 then (true, hc) else awaitReset slot port n hc
    | (none, hc) => awaitReset slot port n hc

def attachChild (classify : Host σ → ℕ → Host σ) (slot root : ℕ) (hc : Host σ) (p : ℕ)
    (st : UInt16) : Host σ :=
  match hc.enableSlot u with
  | (none, hc) => hc
  | (some child, hc) =>
    match hc.addressDevice u child ⟨root, hubSpeed st, p % 16, slot, p⟩ with
    | (false, hc) => hc.disableSlot u child
    | (true, hc) => classify hc child

def attachPort (classify : Host σ → ℕ → Host σ) (slot root : ℕ) (hc : Host σ) (p : ℕ) : Host σ :=
  match hc.portStatusPair u slot p with
  | (none, hc) => hc
  | (some (st, _), hc) =>
    if st &&& 1 = 0 then hc
    else
      match awaitReset u slot p 32 (hc.setPort u slot featPortReset p) with
      | (false, hc) => hc
      | (true, hc) =>
        match (hc.clearPort u slot featCReset p).portStatusPair u slot p with
        | (none, hc) => hc
        | (some (st, _), hc) =>
          if st &&& 1 = 0 then hc else attachChild u classify slot root hc p st

def openHub (classify : Host σ → ℕ → Host σ) (hc : Host σ) (slot nports : ℕ) : Host σ :=
  let hc := hc.setKind slot .hub
  let hc := (ports nports).foldl (fun hc p => hc.setPort u slot featPortPower p) hc
  let root := ((hc.slots slot).map Slot.rootPort).getD 0
  (ports nports).foldl (attachPort u classify slot root) hc

def attach (classify : Host σ → ℕ → Host σ) (hc : Host σ) (slot : ℕ) : Host σ :=
  match hc.getConfig u slot with
  | (none, hc) => hc.disableSlot u slot
  | (some cfg, hc) =>
    match hc.control u slot ⟨0x00, 9, (cfg.getD 5 0).toUInt16, 0, 0⟩ with
    | (none, hc) => hc.disableSlot u slot
    | (some _, hc) =>
      match hc.control u slot ⟨0xA0, 6, 0x2900, 0, 9⟩ with
      | (none, hc) => hc.disableSlot u slot
      | (some hub, hc) =>
        let nports := min (hub.getD 2 0).toNat maxHubPorts
        if nports = 0 then hc.disableSlot u slot
        else
          match hc.evalHub u slot nports with
          | (false, hc) => hc.disableSlot u slot
          | (true, hc) => openHub u classify hc slot nports

-- `classify` and `attach` call each other; a hub behind a hub never gets to the second call.
def classifyFuel : ℕ → Host σ → ℕ → Host σ
  | 0 => fun hc _ => hc
  | n + 1 => classifyWith u (attach u (classifyFuel n))

def classify (hc : Host σ) (slot : ℕ) : Host σ := classifyFuel u 2 hc slot

def tryPort (st : Host σ × Bool) (p : ℕ) : Host σ × Bool :=
  let (hc, progress) := st
  if hc.portTried p then (hc, progress)
  else
    let r := u.readPort hc.ctl p
    let hc := { hc with ctl := r.2 }
    if portHasDevice r.1 = false then (hc, progress)
    else
      let r := u.resetPort hc.ctl p
      let hc := { hc with ctl := r.2 }
      if r.1 = false then (hc.markTried p, progress)
      else
        let r := u.readPort hc.ctl p
        let hc := { hc with ctl := r.2 }
        match hc.enableSlot u with
        | (none, hc) => (hc.markTried p, progress)
        | (some slot, hc) =>
          match hc.addressDevice u slot ⟨p, (r.1 >>> 10) &&& 0xF, 0, 0, 0⟩ with
          | (true, hc) => (classify u (hc.markTried p) slot, true)
          | (false, hc) => ((hc.disableSlot u slot).markTried p, progress)

def rounds : ℕ → Host σ → Host σ
  | 0, hc => hc
  | n + 1, hc =>
    match (ports hc.maxPorts).foldl (tryPort u) (hc, false) with
    | (hc, true) => rounds n hc
    | (hc, false) => hc

def enumerateHost (hc : Host σ) : Host σ := rounds u 8 hc

end Host

variable {u}

/-- A slot that is handed out was free, and stays in use until it is disabled. -/
structure Usb.Lawful (u : Usb σ) (enabled : σ → Set ℕ) : Prop where
  readPort : ∀ c p, enabled c ⊆ enabled (u.readPort c p).2
  resetPort : ∀ c p, enabled c ⊆ enabled (u.resetPort c p).2
  enable : ∀ c, enabled c ⊆ enabled (u.enable c).2
  handsOut :
    ∀ c slot, (u.enable c).1 = some (true, slot) → slot ∉ enabled c ∧ slot ∈ enabled (u.enable c).2
  pages : ∀ c, enabled c ⊆ enabled (u.pages c).2
  disable : ∀ c slot, enabled c \ {slot} ⊆ enabled (u.disable c slot)
  address : ∀ c slot a, enabled c ⊆ enabled (u.address c slot a).2
  evalHub : ∀ c slot n, enabled c ⊆ enabled (u.evalHub c slot n).2
  control : ∀ c slot setup, enabled c ⊆ enabled (u.control c slot setup).2

variable {enabled : σ → Set ℕ} {hc hc₁ hc₂ hc' : Host σ} {slot p : ℕ} {d : Slot} {x y : Option Slot}

def Backed (enabled : σ → Set ℕ) (hc : Host σ) : Prop :=
  ∀ s d, hc.slots s = some d → s ∈ enabled hc.ctl

/-- Requests went out, and the table is as it was. -/
structure Quiet (enabled : σ → Set ℕ) (hc hc' : Host σ) : Prop where
  slots : hc'.slots = hc.slots
  tried : hc'.tried = hc.tried
  maxPorts : hc'.maxPorts = hc.maxPorts
  enabled : enabled hc.ctl ⊆ enabled hc'.ctl

/-- One entry of the table was set. -/
structure Put (enabled : σ → Set ℕ) (hc hc' : Host σ) (slot : ℕ) (x : Option Slot) : Prop where
  slots : hc'.slots = Function.update hc.slots slot x
  tried : hc'.tried = hc.tried
  maxPorts : hc'.maxPorts = hc.maxPorts
  backed : Backed enabled hc'

theorem Quiet.rfl' (hc : Host σ) : Quiet enabled hc hc := ⟨rfl, rfl, rfl, subset_rfl⟩

theorem Quiet.trans (h : Quiet enabled hc hc₁) (h' : Quiet enabled hc₁ hc') :
    Quiet enabled hc hc' :=
  ⟨h'.slots.trans h.slots, h'.tried.trans h.tried, h'.maxPorts.trans h.maxPorts,
    h.enabled.trans h'.enabled⟩

theorem Quiet.of_ctl {c : σ} (h : enabled hc.ctl ⊆ enabled c) :
    Quiet enabled hc { hc with ctl := c } :=
  ⟨rfl, rfl, rfl, h⟩

theorem Quiet.backed (h : Quiet enabled hc hc') (hb : Backed enabled hc) : Backed enabled hc' := by
  intro s d hs
  rw [h.slots] at hs
  exact h.enabled (hb s d hs)

theorem Quiet.put (h : Quiet enabled hc hc₁) (h' : Put enabled hc₁ hc' slot x) :
    Put enabled hc hc' slot x where
  slots := by rw [h'.slots, h.slots]
  tried := h'.tried.trans h.tried
  maxPorts := h'.maxPorts.trans h.maxPorts
  backed := h'.backed

theorem Put.quiet (h : Put enabled hc hc₁ slot x) (h' : Quiet enabled hc₁ hc') :
    Put enabled hc hc' slot x where
  slots := by rw [h'.slots, h.slots]
  tried := h'.tried.trans h.tried
  maxPorts := h'.maxPorts.trans h.maxPorts
  backed := h'.backed h.backed

theorem Put.trans (h : Put enabled hc hc₁ slot x) (h' : Put enabled hc₁ hc' slot y) :
    Put enabled hc hc' slot y where
  slots := by rw [h'.slots, h.slots, Function.update_idem]
  tried := h'.tried.trans h.tried
  maxPorts := h'.maxPorts.trans h.maxPorts
  backed := h'.backed

theorem Put.at_slot (h : Put enabled hc hc' slot x) : hc'.slots slot = x := by
  rw [h.slots, Function.update_self]

namespace Host

section Commands

variable (hu : u.Lawful enabled)
include hu

theorem control_quiet {r : Option Bytes} {setup : Setup} (h : hc.control u slot setup = (r, hc')) :
    Quiet enabled hc hc' := by
  simp only [control] at h
  split at h
  · obtain ⟨-, rfl⟩ := Prod.mk.inj h
    exact .rfl' hc
  · obtain ⟨-, rfl⟩ := Prod.mk.inj h
    exact .of_ctl (hu.control _ _ _)

theorem evalHub_quiet {r : Bool} {n : ℕ} (h : hc.evalHub u slot n = (r, hc')) :
    Quiet enabled hc hc' := by
  simp only [evalHub] at h
  split at h
  · obtain ⟨-, rfl⟩ := Prod.mk.inj h
    exact .rfl' hc
  · obtain ⟨-, rfl⟩ := Prod.mk.inj h
    exact .of_ctl (hu.evalHub _ _ _)

theorem getConfig_quiet {r : Option Bytes} (h : hc.getConfig u slot = (r, hc')) :
    Quiet enabled hc hc' := by
  simp only [getConfig] at h
  rcases hfirst : hc.control u slot ⟨0x80, 6, 0x0200, 0, 9⟩ with ⟨_ | hdr, hc₁⟩
  · simp only [hfirst] at h
    obtain ⟨-, rfl⟩ := Prod.mk.inj h
    exact control_quiet hu hfirst
  · simp only [hfirst] at h
    split at h
    · obtain ⟨-, rfl⟩ := Prod.mk.inj h
      exact control_quiet hu hfirst
    · split at h
      · rename_i hsecond
        obtain ⟨-, rfl⟩ := Prod.mk.inj h
        exact (control_quiet hu hfirst).trans (control_quiet hu hsecond)
      · rename_i hsecond
        obtain ⟨-, rfl⟩ := Prod.mk.inj h
        exact (control_quiet hu hfirst).trans (control_quiet hu hsecond)

theorem setPort_quiet (hc : Host σ) (slot : ℕ) (feat : UInt16) (p : ℕ) :
    Quiet enabled hc (hc.setPort u slot feat p) :=
  control_quiet hu (Prod.mk.eta (p := hc.control u slot ⟨0x23, 3, feat, UInt16.ofNat p, 0⟩)).symm

theorem clearPort_quiet (hc : Host σ) (slot : ℕ) (feat : UInt16) (p : ℕ) :
    Quiet enabled hc (hc.clearPort u slot feat p) :=
  control_quiet hu (Prod.mk.eta (p := hc.control u slot ⟨0x23, 1, feat, UInt16.ofNat p, 0⟩)).symm

theorem portStatusPair_quiet {r : Option (UInt16 × UInt16)}
    (h : hc.portStatusPair u slot p = (r, hc')) : Quiet enabled hc hc' := by
  obtain ⟨-, rfl⟩ := Prod.mk.inj h
  exact control_quiet hu Prod.mk.eta.symm

theorem awaitReset_quiet {n : ℕ} {r : Bool} (h : awaitReset u slot p n hc = (r, hc')) :
    Quiet enabled hc hc' := by
  induction n generalizing hc with
  | zero =>
    obtain ⟨-, rfl⟩ := Prod.mk.inj h
    exact .rfl' hc
  | succ n ih =>
    simp only [awaitReset] at h
    split at h
    · rename_i hround
      split at h
      · obtain ⟨-, rfl⟩ := Prod.mk.inj h
        exact portStatusPair_quiet hu hround
      · exact (portStatusPair_quiet hu hround).trans (ih h)
    · rename_i hround
      exact (portStatusPair_quiet hu hround).trans (ih h)

theorem powerPorts_quiet (slot : ℕ) (ps : List ℕ) (hc : Host σ) :
    Quiet enabled hc (ps.foldl (fun hc p => hc.setPort u slot featPortPower p) hc) := by
  induction ps generalizing hc with
  | nil => exact .rfl' hc
  | cons p ps ih => exact (setPort_quiet hu hc slot featPortPower p).trans (ih _)

theorem disableSlot_put (hb : Backed enabled hc) (slot : ℕ) :
    Put enabled hc (hc.disableSlot u slot) slot none where
  slots := rfl
  tried := rfl
  maxPorts := rfl
  backed := by
    intro s d hs
    have hs : Function.update hc.slots slot none s = some d := hs
    have hne : s ≠ slot := by
      rintro rfl
      rw [Function.update_self] at hs
      cases hs
    rw [Function.update_of_ne hne] at hs
    exact hu.disable _ _ ⟨hb s d hs, hne⟩

omit hu in
theorem setKind_put (hb : Backed enabled hc) (hd : hc.slots slot = some d) (kind : Kind) :
    Put enabled hc (hc.setKind slot kind) slot (some { d with kind := kind }) where
  slots := by rw [setKind, hd, Option.map_some]
  tried := rfl
  maxPorts := rfl
  backed := by
    intro s d' hs
    simp only [setKind] at hs
    by_cases hne : s = slot
    · subst hne
      exact hb s d hd
    · rw [Function.update_of_ne hne] at hs
      exact hb s d' hs

theorem addressDevice_put (hb : Backed enabled hc) (hd : hc.slots slot = some d) (a : Address) :
    Put enabled hc (hc.addressDevice u slot a).2 slot
      (some ⟨d.kind, a.speed, a.rootPort, a.route, a.parent, a.parentPort⟩) where
  slots := by simp only [addressDevice, hd]
  tried := by simp only [addressDevice, hd]
  maxPorts := by simp only [addressDevice, hd]
  backed := by
    intro s d' hs
    simp only [addressDevice, hd] at hs ⊢
    refine hu.address _ _ _ ?_
    by_cases hne : s = slot
    · subst hne
      exact hb s d hd
    · rw [Function.update_of_ne hne] at hs
      exact hb s d' hs

theorem enableSlot_none (h : hc.enableSlot u = (none, hc')) : Quiet enabled hc hc' := by
  have hen := hu.enable hc.ctl
  simp only [enableSlot] at h
  rcases hr : u.enable hc.ctl with ⟨_ | ⟨_ | _, s⟩, c⟩
  · simp only [hr, Prod.mk.injEq, true_and] at h hen
    subst h
    exact .of_ctl hen
  · simp only [hr, Prod.mk.injEq, true_and] at h hen
    subst h
    exact .of_ctl hen
  · simp only [hr] at h hen
    have hpages := hu.pages c
    split at h
    · obtain ⟨-, rfl⟩ := Prod.mk.inj h
      exact .of_ctl hen
    · rcases hp : u.pages c with ⟨_ | _, c'⟩
      · simp only [hp, Prod.mk.injEq, true_and] at h hpages
        subst h
        exact .of_ctl (hen.trans hpages)
      · simp only [hp, Prod.mk.injEq, reduceCtorEq, false_and] at h

theorem enableSlot_some (hb : Backed enabled hc) (h : hc.enableSlot u = (some slot, hc')) :
    hc.slots slot = none ∧ 1 ≤ slot ∧ slot ≤ maxSlots ∧
      Put enabled hc hc' slot (some ⟨.unknown, 0, 0, 0, 0, 0⟩) := by
  have hen := hu.enable hc.ctl
  simp only [enableSlot] at h
  rcases hr : u.enable hc.ctl with ⟨_ | ⟨_ | _, s⟩, c⟩
  · simp [hr] at h
  · simp [hr] at h
  · have hout := hu.handsOut hc.ctl s (by rw [hr])
    simp only [hr] at h hen hout
    have hpages := hu.pages c
    split at h
    · cases h
    · rename_i hrange
      rcases hp : u.pages c with ⟨_ | _, c'⟩
      · simp [hp] at h
      · simp only [hp, Prod.mk.injEq, Option.some.injEq] at h hpages
        obtain ⟨rfl, rfl⟩ := h
        refine ⟨?_, by omega, by omega, rfl, rfl, rfl, ?_⟩
        · cases hs : hc.slots s with
          | none => rfl
          | some d => exact absurd (hb s d hs) hout.1
        · intro s' d' hs'
          simp only at hs' ⊢
          by_cases hne : s' = s
          · subst hne
            exact hpages hout.2
          · rw [Function.update_of_ne hne] at hs'
            exact hpages (hen (hb s' d' hs'))

end Commands

end Host

/-- An entry for a device behind the hub `hub`, at one of its ports from `lo` up to `hi`. -/
structure Child (hub root lo hi : ℕ) (d : Slot) : Prop where
  kind : d.kind = .msc ∨ d.kind = .hid
  rootPort : d.rootPort = root
  route : d.route = d.parentPort
  parent : d.parent = hub
  lo_le : lo ≤ d.parentPort
  lt_hi : d.parentPort < hi

/-- The table grew by devices behind a hub, at most one for a port. -/
structure Grown (enabled : σ → Set ℕ) (hub root lo hi : ℕ) (hc hc' : Host σ) : Prop where
  kept : ∀ s d, hc.slots s = some d → hc'.slots s = some d
  child :
    ∀ s d, hc.slots s = none → hc'.slots s = some d → 1 ≤ s ∧ s ≤ maxSlots ∧ Child hub root lo hi d
  once : ∀ s s' d d', hc.slots s = none → hc.slots s' = none → hc'.slots s = some d →
    hc'.slots s' = some d' → d.parentPort = d'.parentPort → s = s'
  tried : hc'.tried = hc.tried
  maxPorts : hc'.maxPorts = hc.maxPorts
  backed : Backed enabled hc'

section Grown

variable {hub root lo mid hi : ℕ}

theorem Quiet.grown (h : Quiet enabled hc hc') (hb : Backed enabled hc) :
    Grown enabled hub root lo hi hc hc' where
  kept := by
    intro s d hs
    rwa [h.slots]
  child := by
    intro s d hnone hsome
    rw [h.slots, hnone] at hsome
    cases hsome
  once := by
    intro s s' d d' hnone _ hsome
    rw [h.slots, hnone] at hsome
    cases hsome
  tried := h.tried
  maxPorts := h.maxPorts
  backed := h.backed hb

theorem Grown.after_quiet (h : Quiet enabled hc hc₁) (h' : Grown enabled hub root lo hi hc₁ hc') :
    Grown enabled hub root lo hi hc hc' where
  kept := by
    rw [← h.slots]
    exact h'.kept
  child := by
    rw [← h.slots]
    exact h'.child
  once := by
    rw [← h.slots]
    exact h'.once
  tried := h'.tried.trans h.tried
  maxPorts := h'.maxPorts.trans h.maxPorts
  backed := h'.backed

theorem Put.grown (h : Put enabled hc hc' slot x) (hfree : hc.slots slot = none) (hlo : 1 ≤ slot)
    (hhi : slot ≤ maxSlots) (hx : ∀ d, x = some d → Child hub root lo hi d) :
    Grown enabled hub root lo hi hc hc' where
  kept := by
    intro s d hs
    have hne : s ≠ slot := by
      rintro rfl
      rw [hfree] at hs
      cases hs
    rwa [h.slots, Function.update_of_ne hne]
  child := by
    intro s d hnone hsome
    by_cases hne : s = slot
    · subst hne
      rw [h.at_slot] at hsome
      exact ⟨hlo, hhi, hx d hsome⟩
    · rw [h.slots, Function.update_of_ne hne, hnone] at hsome
      cases hsome
  once := by
    intro s s' d d' hnone hnone' hsome hsome' _
    have hat : ∀ {s d}, hc.slots s = none → hc'.slots s = some d → s = slot := by
      intro s d hnone hsome
      by_contra hne
      rw [h.slots, Function.update_of_ne hne, hnone] at hsome
      cases hsome
    rw [hat hnone hsome, hat hnone' hsome']
  tried := h.tried
  maxPorts := h.maxPorts
  backed := h.backed

theorem Grown.trans (h : Grown enabled hub root lo mid hc hc₁)
    (h' : Grown enabled hub root mid hi hc₁ hc') (hlo : lo ≤ mid) (hhi : mid ≤ hi) :
    Grown enabled hub root lo hi hc hc' where
  kept := fun s d hs => h'.kept s d (h.kept s d hs)
  child := by
    intro s d hnone hsome
    cases hs : hc₁.slots s with
    | none =>
      obtain ⟨h1, h8, hc⟩ := h'.child s d hs hsome
      exact ⟨h1, h8, { hc with lo_le := hlo.trans hc.lo_le }⟩
    | some d₁ =>
      obtain rfl : d₁ = d := Option.some.inj ((h'.kept s d₁ hs).symm.trans hsome)
      obtain ⟨h1, h8, hc⟩ := h.child s d₁ hnone hs
      exact ⟨h1, h8, { hc with lt_hi := hc.lt_hi.trans_le hhi }⟩
  once := by
    intro s s' d d' hnone hnone' hsome hsome' hport
    cases hs : hc₁.slots s with
    | none =>
      cases hs' : hc₁.slots s' with
      | none => exact h'.once s s' d d' hs hs' hsome hsome' hport
      | some d₁ =>
        obtain rfl : d₁ = d' := Option.some.inj ((h'.kept s' d₁ hs').symm.trans hsome')
        have hlow := (h.child s' d₁ hnone' hs').2.2.lt_hi
        have hhigh := (h'.child s d hs hsome).2.2.lo_le
        omega
    | some d₁ =>
      obtain rfl : d₁ = d := Option.some.inj ((h'.kept s d₁ hs).symm.trans hsome)
      have hlow := (h.child s d₁ hnone hs).2.2.lt_hi
      cases hs' : hc₁.slots s' with
      | none =>
        have hhigh := (h'.child s' d' hs' hsome').2.2.lo_le
        omega
      | some d₂ =>
        obtain rfl : d₂ = d' := Option.some.inj ((h'.kept s' d₂ hs').symm.trans hsome')
        exact h.once s s' d₁ d₂ hnone hnone' hs hs' hport
  tried := h'.tried.trans h.tried
  maxPorts := h'.maxPorts.trans h.maxPorts
  backed := h'.backed

end Grown

namespace Host

section Classify

variable (hu : u.Lawful enabled)
include hu

def Sorted (enabled : σ → Set ℕ) (slot : ℕ) (d : Slot) (hc hc' : Host σ) : Prop :=
  ∃ x, Put enabled hc hc' slot x ∧ (x = none ∨ ∃ kind, (kind = .msc ∨ kind = .hid) ∧
    x = some { d with kind := kind })

omit hu in
theorem Sorted.after_quiet (h : Quiet enabled hc hc₁) (h' : Sorted enabled slot d hc₁ hc') :
    Sorted enabled slot d hc hc' := by
  obtain ⟨x, hput, hx⟩ := h'
  exact ⟨x, h.put hput, hx⟩

theorem disableSlot_sorted (hb : Backed enabled hc) :
    Sorted enabled slot d hc (hc.disableSlot u slot) :=
  ⟨none, disableSlot_put hu hb slot, .inl rfl⟩

theorem control_keeps {r : Option Bytes} {setup : Setup} (h : hc.control u slot setup = (r, hc'))
    (hb : Backed enabled hc) (hd : hc.slots slot = some d) :
    Quiet enabled hc hc' ∧ Backed enabled hc' ∧ hc'.slots slot = some d := by
  have hq := control_quiet hu h
  exact ⟨hq, hq.backed hb, by rw [hq.slots, hd]⟩

theorem classifyWith_cases (attach : Host σ → ℕ → Host σ) (hb : Backed enabled hc)
    (hd : hc.slots slot = some d) : Sorted enabled slot d hc (classifyWith u attach hc slot) ∨
      (d.parent = 0 ∧ ∃ hc₁, Quiet enabled hc hc₁ ∧ classifyWith u attach hc slot =
        attach hc₁ slot) := by
  simp only [classifyWith]
  split
  · rename_i hdev
    obtain ⟨hq, hb₁, -⟩ := control_keeps hu hdev hb hd
    exact .inl (Sorted.after_quiet hq (disableSlot_sorted hu hb₁))
  · rename_i dev hc₁ hdev
    obtain ⟨hq, hb₁, hd₁⟩ := control_keeps hu hdev hb hd
    split
    · split
      · exact .inl (Sorted.after_quiet hq (disableSlot_sorted hu hb₁))
      · rename_i hnested
        refine .inr ⟨?_, hc₁, hq, rfl⟩
        rw [hd₁] at hnested
        simpa using hnested
    · left
      split
      · rename_i hcfg
        have hq' := getConfig_quiet hu hcfg
        exact Sorted.after_quiet (hq.trans hq') (disableSlot_sorted hu (hq'.backed hb₁))
      · rename_i cfg hc₂ hcfg
        have hq' := getConfig_quiet hu hcfg
        have hd₂ : hc₂.slots slot = some d := by rw [hq'.slots, hd₁]
        refine Sorted.after_quiet (hq.trans hq') ?_
        split
        · exact ⟨_, setKind_put (hq'.backed hb₁) hd₂ .msc, .inr ⟨.msc, .inl rfl, rfl⟩⟩
        · split
          · exact ⟨_, setKind_put (hq'.backed hb₁) hd₂ .hid, .inr ⟨.hid, .inr rfl, rfl⟩⟩
          · exact disableSlot_sorted hu (hq'.backed hb₁)

theorem classifyWith_nested {attach : Host σ → ℕ → Host σ} (hb : Backed enabled hc)
    (hd : hc.slots slot = some d) (hparent : d.parent ≠ 0) :
    Sorted enabled slot d hc (classifyWith u attach hc slot) := by
  rcases classifyWith_cases hu attach hb hd with hsorted | ⟨hzero, -⟩
  · exact hsorted
  · exact absurd hzero hparent

end Classify

section Hub

variable (hu : u.Lawful enabled) {classify : Host σ → ℕ → Host σ} {root : ℕ}
include hu

theorem attachChild_grown
    (hclassify : ∀ hc child d, Backed enabled hc → hc.slots child = some d → d.parent ≠ 0 →
      Sorted enabled child d hc (classify hc child))
    (hslot : slot ≠ 0) (hp : p ≤ maxHubPorts) (hb : Backed enabled hc) (st : UInt16) :
    Grown enabled slot root p (p + 1) hc (attachChild u classify slot root hc p st) := by
  simp only [attachChild]
  split
  · rename_i hen
    exact (enableSlot_none hu hen).grown hb
  · rename_i child hc₁ hen
    obtain ⟨hfree, hlo, hhi, hput⟩ := enableSlot_some hu hb hen
    have haddr := addressDevice_put hu hput.backed hput.at_slot ⟨root, hubSpeed st, p % 16, slot, p⟩
    split
    · rename_i hc₂ hcall
      rw [hcall] at haddr
      have hoff := (hput.trans haddr).trans (disableSlot_put hu haddr.backed child)
      refine hoff.grown hfree hlo hhi ?_
      intro d hd
      cases hd
    · rename_i hc₂ hcall
      rw [hcall] at haddr
      obtain ⟨x, hsorted, hx⟩ := hclassify hc₂ child _ haddr.backed haddr.at_slot hslot
      refine ((hput.trans haddr).trans hsorted).grown hfree hlo hhi ?_
      rintro d rfl
      rcases hx with hx | ⟨kind, hkind, hx⟩
      · cases hx
      · obtain rfl := Option.some.inj hx
        have hroute : p % 16 = p := Nat.mod_eq_of_lt (by simp only [maxHubPorts] at hp; omega)
        exact ⟨hkind, rfl, hroute, rfl, le_rfl, Nat.lt_succ_self p⟩

theorem attachPort_grown
    (hclassify : ∀ hc child d, Backed enabled hc → hc.slots child = some d → d.parent ≠ 0 →
      Sorted enabled child d hc (classify hc child))
    (hslot : slot ≠ 0) (hp : p ≤ maxHubPorts) (hb : Backed enabled hc) :
    Grown enabled slot root p (p + 1) hc (attachPort u classify slot root hc p) := by
  simp only [attachPort]
  split
  · rename_i hst
    exact (portStatusPair_quiet hu hst).grown hb
  · rename_i hst
    have hq := portStatusPair_quiet hu hst
    split
    · exact hq.grown hb
    · split
      · rename_i hwait
        exact ((hq.trans (setPort_quiet hu _ _ _ _)).trans (awaitReset_quiet hu hwait)).grown hb
      · rename_i hwait
        have hq' := (hq.trans (setPort_quiet hu _ _ _ _)).trans (awaitReset_quiet hu hwait)
        split
        · rename_i hst'
          exact ((hq'.trans (clearPort_quiet hu _ _ _ _)).trans
            (portStatusPair_quiet hu hst')).grown hb
        · rename_i hst'
          have hq'' := (hq'.trans (clearPort_quiet hu _ _ _ _)).trans (portStatusPair_quiet hu hst')
          split
          · exact hq''.grown hb
          · exact Grown.after_quiet hq'' (attachChild_grown hu hclassify hslot hp
              (hq''.backed hb) _)

theorem attachPorts_grown (root : ℕ)
    (hclassify : ∀ hc child d, Backed enabled hc → hc.slots child = some d → d.parent ≠ 0 →
      Sorted enabled child d hc (classify hc child))
    (hslot : slot ≠ 0) (lo n : ℕ) (hn : lo + n ≤ maxHubPorts + 1) (hb : Backed enabled hc) :
    Grown enabled slot root lo (lo + n) hc
      ((List.range' lo n).foldl (attachPort u classify slot root) hc) := by
  induction n generalizing hc lo with
  | zero => exact (Quiet.rfl' hc).grown hb
  | succ n ih =>
    have hfirst : Grown enabled slot root lo (lo + 1) hc (attachPort u classify slot root hc lo) :=
      attachPort_grown hu hclassify hslot (by omega) hb
    have hrest := ih (lo + 1) (by omega) hfirst.backed
    rw [show lo + 1 + n = lo + (n + 1) by omega] at hrest
    exact hfirst.trans hrest (by omega) (by omega)

def Opened (enabled : σ → Set ℕ) (slot : ℕ) (d : Slot) (hc hc' : Host σ) : Prop :=
  Put enabled hc hc' slot none ∨ ∃ hc₁, Put enabled hc hc₁ slot (some { d with kind := .hub }) ∧
    Grown enabled slot d.rootPort 1 (maxHubPorts + 1) hc₁ hc'

theorem openHub_opened
    (hclassify : ∀ hc child d, Backed enabled hc → hc.slots child = some d → d.parent ≠ 0 →
      Sorted enabled child d hc (classify hc child))
    (hslot : slot ≠ 0) (hb : Backed enabled hc) (hd : hc.slots slot = some d) {n : ℕ}
      (hn : n ≤ maxHubPorts) :
    Opened enabled slot d hc (openHub u classify hc slot n) := by
  have hkind := setKind_put hb hd .hub
  have hpower := powerPorts_quiet hu slot (ports n) (hc.setKind slot .hub)
  have hput := hkind.quiet hpower
  have hgrown := attachPorts_grown hu d.rootPort hclassify hslot 1 n (by omega) hput.backed
  refine .inr ⟨_, hput, ?_⟩
  simp only [openHub, hput.at_slot, Option.map_some, Option.getD_some]
  exact hgrown.trans ((Quiet.rfl' _).grown hgrown.backed) (by omega) (by omega)

theorem attach_opened (classify : Host σ → ℕ → Host σ)
    (hclassify : ∀ hc child d, Backed enabled hc → hc.slots child = some d → d.parent ≠ 0 →
      Sorted enabled child d hc (classify hc child))
    (hslot : slot ≠ 0) (hb : Backed enabled hc) (hd : hc.slots slot = some d) :
    Opened enabled slot d hc (attach u classify hc slot) := by
  have hoff :
      ∀ {hc₁}, Quiet enabled hc hc₁ → Opened enabled slot d hc (hc₁.disableSlot u slot) := by
    intro hc₁ hq
    exact .inl (hq.put (disableSlot_put hu (hq.backed hb) slot))
  simp only [attach]
  split
  · rename_i hcfg
    exact hoff (getConfig_quiet hu hcfg)
  · rename_i hcfg
    have hq₁ := getConfig_quiet hu hcfg
    split
    · rename_i hset
      exact hoff (hq₁.trans (control_quiet hu hset))
    · rename_i hset
      have hq₂ := hq₁.trans (control_quiet hu hset)
      split
      · rename_i hdesc
        exact hoff (hq₂.trans (control_quiet hu hdesc))
      · rename_i hub hc₃ hdesc
        have hq₃ := hq₂.trans (control_quiet hu hdesc)
        split
        · exact hoff hq₃
        · split
          · rename_i heval
            exact hoff (hq₃.trans (evalHub_quiet hu heval))
          · rename_i hc₄ heval
            have hq₄ := hq₃.trans (evalHub_quiet hu heval)
            have hopen := openHub_opened hu hclassify hslot (hq₄.backed hb)
              (show hc₄.slots slot = some d by rw [hq₄.slots, hd])
              (Nat.min_le_right (hub.getD 2 0).toNat maxHubPorts)
            rcases hopen with hput | ⟨hc₅, hput, hgrown⟩
            · exact .inl (hq₄.put hput)
            · exact .inr ⟨hc₅, hq₄.put hput, hgrown⟩

end Hub

section Recursion

variable {f g : Host σ → ℕ → Host σ}

theorem classifyFuel_nested (n : ℕ) (hd : hc.slots slot = some d) (hparent : d.parent ≠ 0) :
    classifyFuel u (n + 1) hc slot = classifyFuel u 1 hc slot := by
  simp only [classifyFuel, classifyWith]
  rcases hdev : hc.control u slot ⟨0x80, 6, 0x0100, 0, 18⟩ with ⟨_ | dev, hc₁⟩
  · rfl
  · have hnested : (hc₁.slots slot).any (fun s => s.parent ≠ 0) = true := by
      simp only [control, hd, Prod.mk.injEq] at hdev
      rw [← hdev.2]
      simp [hd, hparent]
    simp only [hnested, if_true]

theorem attachChild_congr (h : ∀ hc child d, hc.slots child = some d → d.parent ≠ 0 →
    f hc child = g hc child) (hslot : slot ≠ 0) (root : ℕ) (hc : Host σ) (p : ℕ) (st : UInt16) :
    attachChild u f slot root hc p st = attachChild u g slot root hc p st := by
  simp only [attachChild]
  split
  · rfl
  · rename_i child hc₁ _
    split
    · rfl
    · rename_i hc₂ hcall
      cases hd : hc₁.slots child with
      | none => simp [addressDevice, hd] at hcall
      | some d =>
        simp only [addressDevice, hd, Prod.mk.injEq] at hcall
        refine h hc₂ child ⟨d.kind, hubSpeed st, root, p % 16, slot, p⟩ ?_ hslot
        rw [← hcall.2]
        exact Function.update_self _ _ _

theorem attach_congr (h : ∀ hc child d, hc.slots child = some d → d.parent ≠ 0 →
    f hc child = g hc child) (hslot : slot ≠ 0) (hc : Host σ) : attach u f hc slot =
      attach u g hc slot := by
  have hport : ∀ root, attachPort u f slot root = attachPort u g slot root := by
    intro root
    funext hc p
    simp only [attachPort, attachChild_congr h hslot]
  simp only [attach, openHub, hport]

theorem classify_eq (hslot : slot ≠ 0) (hc : Host σ) :
    classify u hc slot = classifyWith u (attach u (classify u)) hc slot := by
  have hattach :
      ∀ hc : Host σ, attach u (classifyFuel u 1) hc slot = attach u (classify u) hc slot :=
    attach_congr (fun _ _ _ hd hparent => (classifyFuel_nested 1 hd hparent).symm) hslot
  simp only [classify, classifyFuel, classifyWith] at hattach ⊢
  simp only [hattach]

end Recursion

end Host

def Settled (enabled : σ → Set ℕ) (slot : ℕ) (d : Slot) (hc hc' : Host σ) : Prop :=
  Host.Sorted enabled slot d hc hc' ∨
    ∃ hc₁, Put enabled hc hc₁ slot (some { d with kind := .hub }) ∧
    Grown enabled slot d.rootPort 1 (maxHubPorts + 1) hc₁ hc'

theorem classify_settled (hu : u.Lawful enabled) (hslot : slot ≠ 0) (hb : Backed enabled hc)
    (hd : hc.slots slot = some d) : Settled enabled slot d hc (Host.classify u hc slot) := by
  rcases Host.classifyWith_cases hu (Host.attach u (Host.classifyFuel u 1)) hb hd with
    hsorted | ⟨-, hc₁, hq, heq⟩
  · exact .inl hsorted
  · have hd₁ : hc₁.slots slot = some d := by rw [hq.slots, hd]
    have hopen := Host.attach_opened hu (Host.classifyFuel u 1)
      (fun _ _ _ hb hd hparent => Host.classifyWith_nested hu hb hd hparent) hslot
        (hq.backed hb) hd₁
    have heq : Host.classify u hc slot = Host.attach u (Host.classifyFuel u 1) hc₁ slot := heq
    rw [heq]
    rcases hopen with hput | ⟨hc₂, hput, hgrown⟩
    · exact .inl ⟨none, hq.put hput, .inl rfl⟩
    · exact .inr ⟨hc₂, hq.put hput, hgrown⟩

/-- The table is a picture of the bus: every entry is a disk, an input device or a hub, with its
place at a root port or behind a hub that is at that root port itself, and no two entries have one
place. -/
structure Topology (maxPorts : ℕ) (slots : ℕ → Option Slot) : Prop where
  number : ∀ s d, slots s = some d → 1 ≤ s ∧ s ≤ maxSlots
  known : ∀ s d, slots s = some d → d.kind ≠ .unknown
  port : ∀ s d, slots s = some d → 1 ≤ d.rootPort ∧ d.rootPort ≤ maxPorts
  direct : ∀ s d, slots s = some d → d.parent = 0 → d.route = 0 ∧ d.parentPort = 0
  behind : ∀ s d, slots s = some d → d.parent ≠ 0 → d.kind ≠ .hub ∧ d.route = d.parentPort ∧
    1 ≤ d.parentPort ∧ d.parentPort ≤ maxHubPorts ∧
      ∃ hub, slots d.parent = some hub ∧ hub.kind = .hub ∧ hub.parent = 0 ∧
      hub.rootPort = d.rootPort
  place : ∀ s s' d d', slots s = some d → slots s' = some d' → d.rootPort = d'.rootPort →
    d.route = d'.route → s = s'

/-- Between two enumerations, with the root ports of all devices tried. -/
structure Ready (enabled : σ → Set ℕ) (hc : Host σ) : Prop where
  topology : Topology hc.maxPorts hc.slots
  backed : Backed enabled hc
  tried : ∀ s d, hc.slots s = some d → hc.tried d.rootPort = true

section Ready

theorem init_ready (c : σ) (n : ℕ) : Ready enabled (Host.init c n) where
  topology := by constructor <;> simp [Host.init]
  backed := by simp [Backed, Host.init]
  tried := by simp [Host.init]

theorem Ready.quiet (h : Ready enabled hc) (hq : Quiet enabled hc hc') : Ready enabled hc' where
  topology := by
    rw [hq.slots, hq.maxPorts]
    exact h.topology
  backed := hq.backed h.backed
  tried := by
    rw [hq.slots, hq.tried]
    exact h.tried

theorem Ready.markTried (h : Ready enabled hc) (p : ℕ) : Ready enabled (hc.markTried p) := by
  simp only [Host.markTried]
  split
  · refine ⟨h.topology, h.backed, ?_⟩
    intro s d hs
    simp only at hs ⊢
    by_cases hp : d.rootPort = p
    · rw [hp, Function.update_self]
    · rw [Function.update_of_ne hp]
      exact h.tried s d hs
  · exact h

theorem Ready.off (h : Ready enabled hc) (hput : Put enabled hc hc' slot none)
    (hleaf : ∀ s d, hc.slots s = some d → d.parent ≠ slot) : Ready enabled hc' := by
  have hold : ∀ s d, hc'.slots s = some d → hc.slots s = some d := by
    intro s d hs
    rw [hput.slots] at hs
    by_cases hne : s = slot
    · rw [hne, Function.update_self] at hs
      cases hs
    · rwa [Function.update_of_ne hne] at hs
  refine ⟨?_, hput.backed, ?_⟩
  · rw [hput.maxPorts]
    have ht := h.topology
    refine ⟨fun s d hs => ht.number s d (hold s d hs), fun s d hs => ht.known s d (hold s d hs),
      fun s d hs => ht.port s d (hold s d hs), fun s d hs => ht.direct s d (hold s d hs), ?_,
      fun s s' d d' hs hs' => ht.place s s' d d' (hold s d hs) (hold s' d' hs')⟩
    intro s d hs hparent
    obtain ⟨hkind, hroute, hlo, hhi, hub, hhub, hrest⟩ := ht.behind s d (hold s d hs) hparent
    refine ⟨hkind, hroute, hlo, hhi, hub, ?_, hrest⟩
    rw [hput.slots, Function.update_of_ne (hleaf s d (hold s d hs))]
    exact hhub
  · intro s d hs
    rw [hput.tried]
    exact h.tried s d (hold s d hs)

theorem Ready.on (h : Ready enabled hc) (hput : Put enabled hc hc' slot (some d))
    (hfree : hc.slots slot = none) (hlo : 1 ≤ slot) (hhi : slot ≤ maxSlots)
    (hkind : d.kind ≠ .unknown) (hport : 1 ≤ d.rootPort ∧ d.rootPort ≤ hc.maxPorts)
    (hdirect : d.parent = 0 ∧ d.route = 0 ∧ d.parentPort = 0)
    (hnew : ∀ s d', hc.slots s = some d' → d'.rootPort ≠ d.rootPort)
    (htried : hc.tried d.rootPort = true) : Ready enabled hc' := by
  have hcases :
      ∀ s d', hc'.slots s = some d' → (s = slot ∧ d' = d) ∨ (s ≠ slot ∧ hc.slots s = some d') := by
    intro s d' hs
    rw [hput.slots] at hs
    by_cases hne : s = slot
    · rw [hne, Function.update_self, Option.some.injEq] at hs
      exact .inl ⟨hne, hs.symm⟩
    · rw [Function.update_of_ne hne] at hs
      exact .inr ⟨hne, hs⟩
  have ht := h.topology
  refine ⟨⟨?_, ?_, ?_, ?_, ?_, ?_⟩, hput.backed, ?_⟩
  · intro s d' hs
    rcases hcases s d' hs with ⟨rfl, -⟩ | ⟨-, hs⟩
    · exact ⟨hlo, hhi⟩
    · exact ht.number s d' hs
  · intro s d' hs
    rcases hcases s d' hs with ⟨-, rfl⟩ | ⟨-, hs⟩
    · exact hkind
    · exact ht.known s d' hs
  · intro s d' hs
    rw [hput.maxPorts]
    rcases hcases s d' hs with ⟨-, rfl⟩ | ⟨-, hs⟩
    · exact hport
    · exact ht.port s d' hs
  · intro s d' hs
    rcases hcases s d' hs with ⟨-, rfl⟩ | ⟨-, hs⟩
    · exact fun _ => hdirect.2
    · exact ht.direct s d' hs
  · intro s d' hs hparent
    rcases hcases s d' hs with ⟨-, rfl⟩ | ⟨-, hs⟩
    · exact absurd hdirect.1 hparent
    · obtain ⟨hk, hroute, hl, hh, hub, hhub, hrest⟩ := ht.behind s d' hs hparent
      refine ⟨hk, hroute, hl, hh, hub, ?_, hrest⟩
      have hne : d'.parent ≠ slot := by
        intro heq
        rw [heq, hfree] at hhub
        cases hhub
      rw [hput.slots, Function.update_of_ne hne]
      exact hhub
  · intro s s' d₁ d₂ hs hs' hroot hroute
    rcases hcases s d₁ hs with ⟨rfl, rfl⟩ | ⟨-, hs⟩
    · rcases hcases s' d₂ hs' with ⟨rfl, -⟩ | ⟨-, hs'⟩
      · rfl
      · exact absurd hroot.symm (hnew s' d₂ hs')
    · rcases hcases s' d₂ hs' with ⟨rfl, rfl⟩ | ⟨-, hs'⟩
      · exact absurd hroot (hnew s d₁ hs)
      · exact ht.place s s' d₁ d₂ hs hs' hroot hroute
  · intro s d' hs
    rw [hput.tried]
    rcases hcases s d' hs with ⟨-, rfl⟩ | ⟨-, hs⟩
    · exact htried
    · exact h.tried s d' hs

theorem Ready.grown {hub root : ℕ} (h : Ready enabled hc)
    (hg : Grown enabled hub root 1 (maxHubPorts + 1) hc hc')
    (hhub : ∀ s d, hc.slots s = some d → d.rootPort = root → s = hub)
    (hd : hc.slots hub = some d) (hkind : d.kind = .hub) (hparent : d.parent = 0)
    (hroot : d.rootPort = root) : Ready enabled hc' := by
  have ht := h.topology
  have hcases : ∀ s d', hc'.slots s = some d' → hc.slots s = some d' ∨
      (hc.slots s = none ∧ 1 ≤ s ∧ s ≤ maxSlots ∧ Child hub root 1 (maxHubPorts + 1) d') := by
    intro s d' hs
    cases hold : hc.slots s with
    | none => exact .inr ⟨rfl, hg.child s d' hold hs⟩
    | some d₀ =>
      obtain rfl : d₀ = d' := Option.some.inj ((hg.kept s d₀ hold).symm.trans hs)
      exact .inl rfl
  have hnumber := ht.number hub d hd
  have hport := ht.port hub d hd
  have hdirect := ht.direct hub d hd hparent
  -- an old entry at this root port is the hub itself, whose route is zero
  have hapart : ∀ s d' d'', hc.slots s = some d' → Child hub root 1 (maxHubPorts + 1) d'' →
      d'.rootPort = d''.rootPort → d'.route ≠ d''.route := by
    intro s d' d'' hs hchild hport' hroute
    rw [hchild.rootPort] at hport'
    have hsame := hhub s d' hs hport'
    subst hsame
    obtain rfl := Option.some.inj (hd.symm.trans hs)
    have hlo := hchild.lo_le
    rw [hdirect.1, hchild.route] at hroute
    omega
  refine ⟨⟨?_, ?_, ?_, ?_, ?_, ?_⟩, hg.backed, ?_⟩
  · intro s d' hs
    rcases hcases s d' hs with hs | ⟨-, h1, h8, -⟩
    · exact ht.number s d' hs
    · exact ⟨h1, h8⟩
  · intro s d' hs
    rcases hcases s d' hs with hs | ⟨-, -, -, hchild⟩
    · exact ht.known s d' hs
    · rcases hchild.kind with hk | hk
      · simp [hk]
      · simp [hk]
  · intro s d' hs
    rw [hg.maxPorts]
    rcases hcases s d' hs with hs | ⟨-, -, -, hchild⟩
    · exact ht.port s d' hs
    · rw [hchild.rootPort, ← hroot]
      exact hport
  · intro s d' hs hzero
    rcases hcases s d' hs with hs | ⟨-, -, -, hchild⟩
    · exact ht.direct s d' hs hzero
    · rw [hchild.parent] at hzero
      omega
  · intro s d' hs hne
    rcases hcases s d' hs with hs | ⟨-, -, -, hchild⟩
    · obtain ⟨hk, hroute, hl, hh, hub', hhub', hrest⟩ := ht.behind s d' hs hne
      exact ⟨hk, hroute, hl, hh, hub', hg.kept _ _ hhub', hrest⟩
    · have hlt := hchild.lt_hi
      refine ⟨?_, hchild.route, hchild.lo_le, by omega, d, ?_, hkind, hparent, ?_⟩
      · rcases hchild.kind with hk | hk
        · simp [hk]
        · simp [hk]
      · rw [hchild.parent]
        exact hg.kept hub d hd
      · rw [hchild.rootPort, hroot]
  · intro s s' d₁ d₂ hs hs' hport' hroute
    rcases hcases s d₁ hs with hold | ⟨hnone, -, -, hchild⟩
    · rcases hcases s' d₂ hs' with hold' | ⟨-, -, -, hchild'⟩
      · exact ht.place s s' d₁ d₂ hold hold' hport' hroute
      · exact absurd hroute (hapart s d₁ d₂ hold hchild' hport')
    · rcases hcases s' d₂ hs' with hold' | ⟨hnone', -, -, hchild'⟩
      · exact absurd hroute.symm (hapart s' d₂ d₁ hold' hchild hport'.symm)
      · refine hg.once s s' d₁ d₂ hnone hnone' hs hs' ?_
        rw [← hchild.route, ← hchild'.route, hroute]
  · intro s d' hs
    rw [hg.tried]
    rcases hcases s d' hs with hs | ⟨-, -, -, hchild⟩
    · exact h.tried s d' hs
    · rw [hchild.rootPort, ← hroot]
      exact h.tried hub d hd

end Ready

section Enumerate

variable {n : ℕ}

theorem Put.markTried (h : Put enabled hc hc' slot x) (p : ℕ) :
    Put enabled (hc.markTried p) (hc'.markTried p) slot x := by
  simp only [Host.markTried]
  split
  · exact ⟨h.slots, by simp only [h.tried], h.maxPorts, h.backed⟩
  · exact h

theorem mem_ports : p ∈ ports n ↔ 1 ≤ p ∧ p ≤ n := by
  simp only [ports, List.mem_range'_1]
  omega

theorem tryPort_ready (hu : u.Lawful enabled) (h : Ready enabled hc) (hmax : hc.maxPorts ≤ 32)
    (hp : p ∈ ports hc.maxPorts) (b : Bool) : Ready enabled (Host.tryPort u (hc, b) p).1 ∧
    (Host.tryPort u (hc, b) p).1.maxPorts = hc.maxPorts := by
  obtain ⟨hlo, hhi⟩ := mem_ports.mp hp
  have hmark :
      ∀ hc : Host σ, (hc.markTried p).tried p = true ∧ (hc.markTried p).maxPorts = hc.maxPorts ∧
      (hc.markTried p).slots = hc.slots ∧ (hc.markTried p).ctl = hc.ctl := by
    intro hc
    simp only [Host.markTried]
    rw [if_pos ⟨hlo, by omega⟩]
    exact ⟨Function.update_self _ _ _, rfl, rfl, rfl⟩
  simp only [Host.tryPort]
  split
  · exact ⟨h, rfl⟩
  · rename_i huntried
    have hnew : ∀ s d, hc.slots s = some d → d.rootPort ≠ p := by
      intro s d hs heq
      have htried := h.tried s d hs
      rw [heq] at htried
      refine huntried ?_
      simp only [Host.portTried, htried, Bool.and_true, Bool.and_eq_true, decide_eq_true_iff]
      omega
    have hread := Quiet.of_ctl (hu.readPort hc.ctl p)
    split
    · exact ⟨h.quiet hread, rfl⟩
    · have hreset := hread.trans (.of_ctl (hu.resetPort _ p))
      split
      · exact ⟨(h.quiet hreset).markTried p, (hmark _).2.1⟩
      · have hspeed := hreset.trans (.of_ctl (hu.readPort _ p))
        have hready := h.quiet hspeed
        split
        · rename_i hen
          have hq := Host.enableSlot_none hu hen
          refine ⟨(hready.quiet hq).markTried p, ?_⟩
          rw [(hmark _).2.1, hq.maxPorts]
        · rename_i slot hc₁ hen
          obtain ⟨hfree, h1, h8, hput⟩ := Host.enableSlot_some hu hready.backed hen
          have hleaf : ∀ s d, hc.slots s = some d → d.parent ≠ slot := by
            intro s d hs heq
            obtain ⟨-, -, -, -, hub, hhub, -⟩ := h.topology.behind s d hs (by omega)
            have hnone : hc.slots slot = none := hfree
            rw [heq, hnone] at hhub
            cases hhub
          have haddr := Host.addressDevice_put hu hput.backed hput.at_slot
            ⟨p, ((u.readPort (u.resetPort (u.readPort hc.ctl p).2 p).2 p).1 >>> 10) &&& 0xF, 0, 0,
              0⟩
          have hboth := (hput.trans haddr).markTried p
          split
          · rename_i hc₂ hcall
            rw [hcall] at hboth
            have hbase := hready.markTried p
            have hsettled := classify_settled hu (by omega) hboth.backed hboth.at_slot
            have hon : ∀ (kind : Kind) {hc₃ : Host σ} {d : Slot}, kind ≠ .unknown →
                d = ⟨kind, ((u.readPort (u.resetPort (u.readPort hc.ctl p).2 p).2 p).1 >>> 10) &&&
                  0xF, p, 0, 0, 0⟩ → Put enabled (hc₂.markTried p) hc₃ slot (some d) →
                  Ready enabled hc₃ := by
              rintro kind hc₃ d hkind rfl hput'
              refine hbase.on (hboth.trans hput') ?_ h1 h8 hkind ?_ ⟨rfl, rfl, rfl⟩ ?_ (hmark _).1
              · rw [(hmark _).2.2.1]
                exact hfree
              · rw [(hmark _).2.1]
                exact ⟨hlo, hhi⟩
              · intro s d hs
                rw [(hmark _).2.2.1] at hs
                exact hnew s d hs
            have hmaxPorts : (hc₂.markTried p).maxPorts = hc.maxPorts := by
              rw [hboth.maxPorts, (hmark _).2.1]
            rcases hsettled with ⟨x, hput', hx⟩ | ⟨hc₃, hput', hgrown⟩
            · refine ⟨?_, hput'.maxPorts.trans hmaxPorts⟩
              rcases hx with rfl | ⟨kind, hkind, rfl⟩
              · refine hbase.off (hboth.trans hput') ?_
                rw [(hmark _).2.2.1]
                exact hleaf
              · refine hon kind ?_ rfl hput'
                rcases hkind with rfl | rfl
                · decide
                · decide
            · refine ⟨?_, hgrown.maxPorts.trans (hput'.maxPorts.trans hmaxPorts)⟩
              refine (hon .hub (by decide) rfl hput').grown hgrown ?_ hput'.at_slot rfl rfl rfl
              intro s d hs hroot
              by_contra hne
              rw [hput'.slots, Function.update_of_ne hne, hboth.slots, Function.update_of_ne hne,
                (hmark _).2.2.1] at hs
              exact hnew s d hs hroot
          · rename_i hc₂ hcall
            rw [hcall] at haddr
            have hoff := (hput.trans haddr).trans (Host.disableSlot_put hu haddr.backed slot)
            refine ⟨(hready.off hoff hleaf).markTried p, ?_⟩
            rw [(hmark _).2.1, hoff.maxPorts]

theorem tryPorts_ready (hu : u.Lawful enabled) (ps : List ℕ) (h : Ready enabled hc)
    (hmax : hc.maxPorts ≤ 32) (hps : ∀ p ∈ ps, p ∈ ports hc.maxPorts) (b : Bool) :
    Ready enabled (ps.foldl (Host.tryPort u) (hc, b)).1 ∧
      (ps.foldl (Host.tryPort u) (hc, b)).1.maxPorts = hc.maxPorts := by
  induction ps generalizing hc b with
  | nil => exact ⟨h, rfl⟩
  | cons p ps ih =>
    obtain ⟨hready, hports⟩ := tryPort_ready hu h hmax (hps p List.mem_cons_self) b
    have hrest := ih hready (by rw [hports]; exact hmax)
      (fun q hq => by rw [hports]; exact hps q (List.mem_cons_of_mem p hq))
      (Host.tryPort u (hc, b) p).2
    rw [hports] at hrest
    exact hrest

theorem rounds_ready (hu : u.Lawful enabled) (k : ℕ) (h : Ready enabled hc)
    (hmax : hc.maxPorts ≤ 32) :
    Ready enabled (Host.rounds u k hc) ∧ (Host.rounds u k hc).maxPorts = hc.maxPorts := by
  induction k generalizing hc with
  | zero => exact ⟨h, rfl⟩
  | succ k ih =>
    have hround := tryPorts_ready hu (ports hc.maxPorts) h hmax (fun _ hp => hp) false
    simp only [Host.rounds]
    split
    · rename_i hc₁ heq
      rw [heq] at hround
      have hrest := ih hround.1 (by rw [hround.2]; exact hmax)
      rw [hround.2] at hrest
      exact hrest
    · rename_i heq
      rwa [heq] at hround

end Enumerate

/-- What happens to the host: an enumeration, a disk that could not be set up is released, and
requests of the drivers or events on the bus, which leave the table alone. -/
inductive Step (u : Usb σ) (enabled : σ → Set ℕ) : Host σ → Host σ → Prop
  | enumerate (hc : Host σ) : Step u enabled hc (hc.enumerateHost u)
  | release {hc : Host σ} {slot : ℕ} {d : Slot} :
      hc.slots slot = some d → d.kind = .msc → Step u enabled hc (hc.disableSlot u slot)
  | bus {hc hc' : Host σ} : Quiet enabled hc hc' → Step u enabled hc hc'

theorem step_ready (hu : u.Lawful enabled) (h : Ready enabled hc) (hmax : hc.maxPorts ≤ 32)
    (hstep : Step u enabled hc hc') : Ready enabled hc' ∧ hc'.maxPorts = hc.maxPorts := by
  cases hstep with
  | enumerate => exact rounds_ready hu 8 h hmax
  | @release slot d hd hkind =>
    refine ⟨h.off (Host.disableSlot_put hu h.backed slot) ?_, rfl⟩
    rintro s d' hs rfl
    have hslot := (h.topology.number _ d hd).1
    obtain ⟨-, -, -, -, hub, hhub, hhubKind, -⟩ := h.topology.behind s d' hs (by omega)
    obtain rfl := Option.some.inj (hd.symm.trans hhub)
    rw [hkind] at hhubKind
    cases hhubKind
  | bus hq => exact ⟨h.quiet hq, hq.maxPorts⟩

/-- On a controller of at most 32 ports the table is a picture of the bus after any history, and
every device in it has its slot in the controller. -/
theorem enumeration_pictures_bus (u : Usb σ) (enabled : σ → Set ℕ) (hu : u.Lawful enabled)
    (c : σ) (n : ℕ) (hn : n ≤ 32) (hc : Host σ)
    (hrun : Relation.ReflTransGen (Step u enabled) (Host.init c n) hc) :
    Topology n hc.slots ∧ ∀ s d, hc.slots s = some d → s ∈ enabled hc.ctl := by
  have hready : Ready enabled hc ∧ hc.maxPorts = n := by
    induction hrun with
    | refl => exact ⟨init_ready c n, rfl⟩
    | tail _ hstep ih =>
      obtain ⟨hready, hports⟩ := ih
      obtain ⟨hready', hports'⟩ := step_ready hu hready (by rw [hports]; exact hn) hstep
      exact ⟨hready', hports'.trans hports⟩
  obtain ⟨hready, rfl⟩ := hready
  exact ⟨hready.topology, hready.backed⟩

namespace Sample

def answer (slot : ℕ) (setup : Setup) : Bytes :=
  if setup.value = 0x0100 then
    if slot = 1 then [18, 1, 0, 2, 9] else [18, 1, 0, 2, 0]
  else if setup.value = 0x0200 then
    if slot = 1 then [9, 2, 9, 0, 1, 1, 0, 0, 0]
    else [9, 2, 18, 0, 1, 1, 0, 0x80, 50, 9, 4, 0, 0, 1, 3, 1, 1, 0]
  else if setup.value = 0x2900 then [9, 0x29, 1]
  else if setup.ty = 0xA3 then [1, 0, 0x10, 0]
  else []

def usb : Usb ℕ where
  readPort c p := (if p = 1 then 0xC01 else 0, c)
  resetPort c _ := (true, c)
  enable c := (some (true, c + 1), c + 1)
  pages c := (true, c)
  disable c _ := c
  address c _ _ := (true, c)
  evalHub c _ _ := (true, c)
  control c slot setup := (some (answer slot setup), c)

theorem usb_lawful : usb.Lawful fun c => {s | s ≤ c} where
  readPort _ _ := subset_rfl
  resetPort _ _ := subset_rfl
  enable c := by
    intro s hs
    exact Nat.le_succ_of_le hs
  handsOut c slot h := by
    have hslot : c + 1 = slot := (Prod.mk.inj (Option.some.inj h)).2
    subst hslot
    exact ⟨Nat.not_succ_le_self c, Nat.le_refl (c + 1)⟩
  pages _ := subset_rfl
  disable _ _ := Set.sdiff_subset
  address _ _ _ := subset_rfl
  evalHub _ _ _ := subset_rfl
  control _ _ _ := subset_rfl

end Sample

theorem hub_and_keyboard_pictured :
    ∃ hc, Relation.ReflTransGen (Step Sample.usb fun c => {s | s ≤ c}) (Host.init 0 2) hc ∧
    hc.slots 1 = some ⟨.hub, 3, 1, 0, 0, 0⟩ ∧ hc.slots 2 = some ⟨.hid, 1, 1, 1, 1, 1⟩ ∧
    Topology 2 hc.slots ∧ ∀ s d, hc.slots s = some d → s ≤ hc.ctl := by
  have hrun : Relation.ReflTransGen (Step Sample.usb fun c => {s | s ≤ c}) (Host.init 0 2)
      ((Host.init 0 2).enumerateHost Sample.usb) := .single (.enumerate _)
  exact ⟨_, hrun, by decide +kernel, by decide +kernel,
    enumeration_pictures_bus Sample.usb (fun c => {s | s ≤ c}) Sample.usb_lawful 0 2
      (by decide) _ hrun⟩

end CoeleoOs.Bus.Xhci
