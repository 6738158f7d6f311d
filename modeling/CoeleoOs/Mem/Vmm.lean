import CoeleoOs.Lib.Checked
import Mathlib.Data.Nat.Basic
import Mathlib.Tactic.Ring
import Mathlib.Tactic.Linarith

/-!
# User address ranges and the direct map

The part of `vmm.rs` that decides whether a system call may use a user pointer, and
the part that maps device memory and tables at their place in the direct map.
`VirtAddr::new` panics on a non-canonical address: the functions return `none` there.
-/

namespace CoeleoOs.Mem.Vmm
open CoeleoOs.Lib.Checked

abbrev frameSize : ℕ := 4096

structure PageFlags where
  user : Bool
  writable : Bool
  deriving DecidableEq, Repr

/-- Leaf flags by page number. -/
structure AddrSpace where
  page : ℕ → Option PageFlags

/-- Bits 48 to 63 repeat bit 47. -/
def canonical (va : ℕ) : Bool := decide (va < 2 ^ 47 ∨ 2 ^ 64 - 2 ^ 47 ≤ va)

def userPageMapped (sp : AddrSpace) (va : ℕ) : Option Bool :=
  if canonical va then
    match sp.page (va / frameSize) with
    | some f => some f.user
    | none => some false
  else none

def sliceLoop (sp : AddrSpace) (stop : ℕ) : ℕ → ℕ → Option Bool
  | 0, _ => some true
  | fuel + 1, va =>
    if va < stop then
      match userPageMapped sp va with
      | none => none
      | some false => some false
      | some true => if va + frameSize < 2 ^ 64 then sliceLoop sp stop fuel (va + frameSize)
        else some false
    else some true

def userSliceOk (sp : AddrSpace) (ptr len : ℕ) : Option Bool :=
  if len = 0 then some true
  else if ptr + len < 2 ^ 64 then
    sliceLoop sp (ptr + len) (len / frameSize + 2) (ptr / frameSize * frameSize)
  else some false

/-- Every byte of the range lies on a page open to user code. -/
def UserRange (sp : AddrSpace) (ptr len : ℕ) : Prop :=
  ∀ a, ptr ≤ a → a < ptr + len → ∃ f, sp.page (a / frameSize) = some f ∧ f.user = true

/-- Every byte of the range lies on a page that user code may write. -/
def WritableRange (sp : AddrSpace) (ptr len : ℕ) : Prop :=
  ∀ a, ptr ≤ a → a < ptr + len →
    ∃ f, sp.page (a / frameSize) = some f ∧ f.user = true ∧ f.writable = true

def NoReadOnly (sp : AddrSpace) (ptr len : ℕ) : Prop :=
  ∀ a, ptr ≤ a → a < ptr + len → ∀ f, sp.page (a / frameSize) = some f → f.user = true →
    f.writable = true

theorem writableRange_iff {sp : AddrSpace} {ptr len n : ℕ} (h : UserRange sp ptr len)
    (hn : n ≤ len) : WritableRange sp ptr n ↔ NoReadOnly sp ptr n := by
  constructor
  · intro hw a hlo hhi f hf hu
    obtain ⟨f', hf', -, hw'⟩ := hw a hlo hhi
    cases hf.symm.trans hf'
    exact hw'
  · intro hno a hlo hhi
    obtain ⟨f, hf, hu⟩ := h a hlo (by omega)
    exact ⟨f, hf, hu, hno a hlo hhi f hf hu⟩

theorem UserRange.mono {sp : AddrSpace} {ptr len n : ℕ} (h : UserRange sp ptr len) (hn : n ≤ len) :
    UserRange sp ptr n :=
  fun a hlo hhi => h a hlo (by omega)

theorem WritableRange.mono {sp : AddrSpace} {ptr len n : ℕ} (h : WritableRange sp ptr len)
    (hn : n ≤ len) : WritableRange sp ptr n :=
  fun a hlo hhi => h a hlo (by omega)

@[simp] theorem userRange_zero {sp : AddrSpace} {ptr : ℕ} : UserRange sp ptr 0 := by
  intro a hlo hhi
  omega

@[simp] theorem writableRange_zero {sp : AddrSpace} {ptr : ℕ} : WritableRange sp ptr 0 := by
  intro a hlo hhi
  omega

theorem userPageMapped_true {sp : AddrSpace} {va : ℕ} (h : userPageMapped sp va = some true) :
    ∃ f, sp.page (va / frameSize) = some f ∧ f.user = true := by
  unfold userPageMapped at h
  split at h
  · split at h
    · rename_i f hf
      exact ⟨f, hf, Option.some.inj h⟩
    · simp at h
  · simp at h

theorem sliceLoop_true {sp : AddrSpace} {stop fuel va : ℕ} (hal : va % frameSize = 0)
    (hfuel : stop ≤ va + fuel * frameSize) (h : sliceLoop sp stop fuel va = some true) :
    ∀ a, va ≤ a → a < stop → ∃ f, sp.page (a / frameSize) = some f ∧ f.user = true := by
  induction fuel generalizing va with
  | zero =>
    intro a hva ha
    omega
  | succ fuel ih =>
    intro a hva ha
    rw [sliceLoop, if_pos (by omega)] at h
    split at h
    · simp at h
    · simp at h
    · rename_i hm
      split at h
      · by_cases hin : a < va + frameSize
        · obtain ⟨f, hf, hu⟩ := userPageMapped_true hm
          have hpage : a / frameSize = va / frameSize := by
            simp only [frameSize] at *
            omega
          exact ⟨f, hpage ▸ hf, hu⟩
        · refine ih (by simp only [frameSize] at *; omega) ?_ h a (by omega) ha
          have hmul : (fuel + 1) * frameSize = fuel * frameSize + frameSize := by ring
          omega
      · simp at h

theorem userSliceOk_userRange {sp : AddrSpace} {ptr len : ℕ}
    (h : userSliceOk sp ptr len = some true) : UserRange sp ptr len := by
  intro a hlo hhi
  unfold userSliceOk at h
  rw [if_neg (by omega)] at h
  split at h
  · refine sliceLoop_true ?_ ?_ h a ?_ hhi
    all_goals
      simp only [frameSize]
      omega
  · simp at h

section Mmio

/-- Where the direct map begins, and which frames can be mapped there. -/
structure DirectMap where
  hhdm : ℕ
  mapper : Bool
  maps : ℕ → Bool

variable (d : DirectMap)

def physToVirt (phys : ℕ) : Option ℕ :=
  let virt := (phys + d.hhdm) % 2 ^ 64
  if canonical virt then some virt else none

def mapOne (phys : ℕ) : Option Bool := do
  let frame := phys / frameSize * frameSize
  let _ ← physToVirt d frame
  some (d.maps frame)

def mapFrames (addr stop : ℕ) : Option Bool :=
  if 2 ^ 52 ≤ addr then none
  else do
    if ← mapOne d addr then
      if stop ≤ addr then some true else mapFrames (addr + frameSize) stop
    else some false
termination_by stop - addr
decreasing_by
  simp only [frameSize]
  omega

def tryMapMmioRange (phys size : ℕ) : Option (Option ℕ) := do
  let virt ← physToVirt d phys
  if size = 0 then some (some virt)
  else
    let last := phys + (size - 1)
    if 2 ^ 64 ≤ last ∨ 2 ^ 52 ≤ last ∨ ¬ d.mapper then some none
    else do
      let mapped ← mapFrames d (phys / frameSize * frameSize) (last / frameSize * frameSize)
      some (if mapped then some virt else none)

/-- An address that has a place in the direct map. -/
def Direct (phys : ℕ) : Prop := canonical ((phys + d.hhdm) % 2 ^ 64) = true

def frameOf (phys : ℕ) : ℕ := phys / frameSize * frameSize

variable {d} {phys addr stop : ℕ}

theorem runs_physToVirt : Runs (physToVirt d phys) ↔ Direct d phys := by
  rw [physToVirt, Direct]
  split
  · rename_i h
    exact iff_of_true (runs_some _) h
  · rename_i h
    exact iff_of_false not_runs_none h

theorem physToVirt_eq_none (h : ¬ Direct d phys) : physToVirt d phys = none := if_neg h

theorem frameOf_add (phys k : ℕ) :
    frameOf (frameOf phys + k * frameSize) = frameOf phys + k * frameSize := by
  simp only [frameOf, frameSize]
  omega

theorem mapFrames_step (hframe : frameOf addr = addr) (hphys : addr < 2 ^ 52) (stop : ℕ) :
    (¬ Direct d addr → mapFrames d addr stop = none) ∧
      (Direct d addr → mapFrames d addr stop =
        if d.maps addr then
          if stop ≤ addr then some true else mapFrames d (addr + frameSize) stop
        else some false) := by
  have hfirst : addr / frameSize * frameSize = addr := hframe
  constructor
  · intro h
    rw [mapFrames, if_neg (Nat.not_le.mpr hphys), mapOne]
    simp only [hfirst, physToVirt_eq_none h, Option.bind_eq_bind, Option.bind_none]
  · intro h
    obtain ⟨v, hv⟩ := runs_physToVirt.mpr h
    rw [mapFrames, if_neg (Nat.not_le.mpr hphys), mapOne]
    simp only [hfirst, hv, Option.bind_eq_bind, Option.bind_some]

theorem mapFrames_spec {i : ℕ} (hframe : frameOf addr = addr) (hi : addr + i * frameSize = stop)
    (hstop : stop < 2 ^ 52) :
    (Runs (mapFrames d addr stop) ↔ ∀ k ≤ i, (∀ j < k, d.maps (addr + j * frameSize) = true) →
      Direct d (addr + k * frameSize)) ∧ ∀ r, mapFrames d addr stop = some r →
      (r = true ↔ ∀ k ≤ i, d.maps (addr + k * frameSize) = true) := by
  induction i generalizing addr with
  | zero =>
    obtain rfl : addr = stop := by omega
    obtain ⟨hout, hin⟩ := mapFrames_step (d := d) hframe hstop addr
    by_cases hdirect : Direct d addr
    · rw [hin hdirect, if_pos (Nat.le_refl addr)]
      cases hmaps : d.maps addr with
      | true => simp [hdirect, hmaps]
      | false => simp [hdirect, hmaps]
    · simp [hout hdirect, hdirect]
  | succ i ih =>
    rw [Nat.add_mul, Nat.one_mul] at hi
    have hsize : 0 < frameSize := by decide
    obtain ⟨hout, hin⟩ := mapFrames_step (d := d) hframe (by omega) stop
    by_cases hdirect : Direct d addr
    · have hnext : frameOf (addr + frameSize) = addr + frameSize := by
        have h := frameOf_add addr 1
        rwa [hframe, Nat.one_mul] at h
      obtain ⟨hruns, hres⟩ := @ih (addr + frameSize) hnext (by omega)
      have hshift : ∀ k, addr + frameSize + k * frameSize = addr + (k + 1) * frameSize := by
        intro k
        rw [Nat.add_mul, Nat.one_mul]
        omega
      simp only [hshift] at hruns hres
      have hlt : ¬ stop ≤ addr := by omega
      rw [hin hdirect]
      cases hmaps : d.maps addr with
      | true =>
        rw [if_pos rfl, if_neg hlt]
        constructor
        · rw [hruns]
          constructor
          · intro h k hk hprev
            cases k with
            | zero => simpa using hdirect
            | succ k =>
              exact h k (Nat.le_of_succ_le_succ hk) fun j hj => hprev (j + 1) (Nat.succ_lt_succ hj)
          · intro h k hk hprev
            refine h (k + 1) (Nat.succ_le_succ hk) fun j hj => ?_
            cases j with
            | zero => simpa using hmaps
            | succ j => exact hprev j (Nat.lt_of_succ_lt_succ hj)
        · intro r hr
          rw [hres r hr]
          constructor
          · intro h k hk
            cases k with
            | zero => simpa using hmaps
            | succ k => exact h k (Nat.le_of_succ_le_succ hk)
          · intro h k hk
            exact h (k + 1) (Nat.succ_le_succ hk)
      | false =>
        rw [if_neg Bool.false_ne_true]
        constructor
        · refine iff_of_true (runs_some _) fun k _ hprev => ?_
          cases k with
          | zero => simpa using hdirect
          | succ k =>
            have h0 := hprev 0 (Nat.succ_pos k)
            rw [Nat.zero_mul, Nat.add_zero, hmaps] at h0
            cases h0
        · intro r hr
          obtain rfl := Option.some.inj hr
          refine iff_of_false Bool.false_ne_true fun h => ?_
          have h0 := h 0 (Nat.zero_le _)
          rw [Nat.zero_mul, Nat.add_zero, hmaps] at h0
          cases h0
    · rw [hout hdirect]
      constructor
      · refine iff_of_false not_runs_none fun h => hdirect ?_
        simpa using h 0 (Nat.zero_le _) fun j hj => absurd hj (Nat.not_lt_zero j)
      · intro r hr
        cases hr

theorem range_frames (h : phys ≤ stop) : ∃ i, frameOf phys + i * frameSize = frameOf stop ∧
    ∀ k, k ≤ i ↔ frameOf phys + k * frameSize ≤ frameOf stop := by
  refine ⟨stop / frameSize - phys / frameSize, ?_, fun k => ?_⟩
  · simp only [frameOf, frameSize]
    omega
  · simp only [frameOf, frameSize]
    omega

end Mmio

end CoeleoOs.Mem.Vmm
