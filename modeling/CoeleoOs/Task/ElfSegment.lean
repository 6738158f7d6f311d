import CoeleoOs.Lib.EarlyExit
import CoeleoOs.Task.ElfFrames

/-!
# One segment, page by page

The loop over the pages of an accepted segment is a loop over a fixed list of page
addresses. What one round of it does, for a mapper that refuses mapped pages and
changes no other page.
-/

namespace CoeleoOs.Task
open CoeleoOs.Lib CoeleoOs.Mem

variable {τ : Type}

/-- What the documentation of `map_to` promises, with `lookup` the translation of a page. -/
structure PageMapper.Lawful (m : PageMapper τ) (lookup : τ → ℕ → Option Leaf) : Prop where
  empty : ∀ va, lookup m.empty va = none
  map_ok : ∀ {t t' : τ} {va : ℕ} {leaf : Leaf}, (m.mapTo t va leaf).Ends (true, t') →
    lookup t va = none ∧ lookup t' = Function.update (lookup t) va (some leaf)
  map_err : ∀ {t t' : τ} {va : ℕ} {leaf : Leaf}, (m.mapTo t va leaf).Ends (false, t') →
    lookup t' = lookup t

namespace ProgramHeader

variable (ph : ProgramHeader)

def stop : ℕ := ph.start + ph.memsz

def pageStart : ℕ := ph.start - ph.start % frameSize

def pages : List ℕ :=
  (List.range ((ph.stop - ph.pageStart + 4095) / frameSize)).map fun k =>
    ph.pageStart + k * frameSize

structure Accepted : Prop where
  filesz_le : ph.filesz ≤ ph.memsz
  exclusive : (ph.writable && ph.executable) = false
  stop_le : ph.stop ≤ userCanonMax

def copyLo (va : ℕ) : ℕ := max ph.start va

def copyHi (va : ℕ) : ℕ := min (ph.start + ph.filesz) (va + frameSize)

def copied (bytes : Bytes) (va : ℕ) : Bytes :=
  (bytes.drop (ph.pOffset.toNat + (ph.copyLo va - ph.start))).take (ph.copyHi va - ph.copyLo va)

def pageByte (bytes : Bytes) (a : ℕ) : UInt8 :=
  if ph.start ≤ a ∧ a < ph.start + ph.filesz then bytes.getD (ph.pOffset.toNat + (a - ph.start)) 0
    else 0

variable {ph}

theorem mem_pages {va : ℕ} :
    va ∈ ph.pages ↔ ph.pageStart ≤ va ∧ va < ph.stop ∧ va % frameSize = 0 := by
  simp only [pages, List.mem_map, List.mem_range, pageStart, frameSize]
  constructor
  · rintro ⟨k, hk, rfl⟩
    omega
  · rintro ⟨hlo, hhi, hmod⟩
    exact ⟨(va - (ph.start - ph.start % 4096)) / 4096, by omega, by omega⟩

theorem pages_nodup (ph : ProgramHeader) : ph.pages.Nodup := by
  refine List.Nodup.map ?_ List.nodup_range
  intro i j hij
  simp only [frameSize] at hij
  omega

end ProgramHeader

namespace LoadState

variable {m : PageMapper τ} {bytes : Bytes} {ph : ProgramHeader} {s s' : LoadState τ} {r : Res}

theorem mapPages_eq_run {stop : ℕ} (hstop : stop ≤ userCanonMax) (fuel : ℕ)
    (s : LoadState τ) (va : ℕ) (hva : va < stop + frameSize) : s.mapPages m bytes ph stop fuel va =
      EarlyExit.run .ok (fun s va => s.mapPage m bytes ph va)
        ((List.range (min fuel ((stop - va + 4095) / frameSize))).map fun k => va + k * frameSize)
          s := by
  induction fuel generalizing s va with
  | zero => simp [mapPages, EarlyExit.run]
  | succ fuel ih =>
    simp only [mapPages]
    split
    · rename_i hlt
      have hcount : min (fuel + 1) ((stop - va + 4095) / frameSize) =
          min fuel ((stop - (va + frameSize) + 4095) / frameSize) + 1 := by
        simp only [frameSize] at *
        omega
      have hnext : (va + frameSize) % 2 ^ 64 = va + frameSize := by
        simp only [frameSize, userCanonMax] at *
        omega
      have hshift : ∀ k, va + (k + 1) * frameSize = va + frameSize + k * frameSize := by
        intro k
        simp only [frameSize]
        omega
      rw [hcount, List.range_succ_eq_map, List.map_cons, List.map_map, Nat.zero_mul, Nat.add_zero]
      simp only [Function.comp_def, Nat.succ_eq_add_one, hshift]
      rcases hpage : s.mapPage m bytes ph va with ⟨_ | _ | _, s₁⟩
      · rw [EarlyExit.run_cons_ok hpage, ← ih s₁ (va + frameSize) (by simp only [frameSize]; omega),
          hnext]
      · rw [EarlyExit.run_cons_stop hpage (by decide)]
      · rw [EarlyExit.run_cons_stop hpage (by decide)]
    · rename_i hge
      have hzero : min (fuel + 1) ((stop - va + 4095) / frameSize) = 0 := by
        simp only [frameSize] at *
        omega
      rw [hzero]
      rfl

theorem mapSegment_rejected (h : ¬ph.Accepted) : s.mapSegment m bytes ph = (.err, s) := by
  simp only [mapSegment]
  split_ifs with h₁ h₂ h₃ h₄
  · rfl
  · rfl
  · rfl
  · rfl
  · refine absurd ⟨by omega, ?_, by simp only [ProgramHeader.stop]; omega⟩ h
    simpa using h₂

theorem mapSegment_accepted (h : ph.Accepted) :
    s.mapSegment m bytes ph = EarlyExit.run .ok (fun s va => s.mapPage m bytes ph va)
      ph.pages s := by
  have hsz := h.filesz_le
  have hstop := h.stop_le
  simp only [ProgramHeader.stop] at hstop
  have h64 : ph.start + ph.memsz < 2 ^ 64 := by
    simp only [userCanonMax] at hstop
    omega
  have hcount : min (ph.memsz / frameSize + 2) ((ph.stop - ph.pageStart + 4095) / frameSize) =
      (ph.stop - ph.pageStart + 4095) / frameSize := by
    simp only [ProgramHeader.stop, ProgramHeader.pageStart, frameSize]
    omega
  simp only [mapSegment, h.exclusive, Bool.false_eq_true, if_false]
  rw [if_neg (by omega), if_neg (by omega), if_neg (by omega),
    mapPages_eq_run hstop _ _ _ (by simp only [frameSize]; omega)]
  simp only [ProgramHeader.pages]
  rw [← hcount]
  rfl

theorem add_of_lt {a b : ℕ} (h : a + b < 2 ^ 64) : s.add a b = (a + b, s) := by
  simp only [add, h, if_true]

theorem add_of_ge {a b : ℕ} (h : 2 ^ 64 ≤ a + b) :
    s.add a b = ((a + b) % 2 ^ 64, s.fault .overflow) := by
  simp only [add, Nat.not_lt.mpr h, if_false]

section Copy

variable {va frame : ℕ}

theorem accepted_no_wrap (h : ph.Accepted) (hva : va ∈ ph.pages) :
    va + frameSize < 2 ^ 64 ∧ ph.start + ph.filesz < 2 ^ 64 := by
  have hin := ProgramHeader.mem_pages.mp hva
  have hstop := h.stop_le
  have hsz := h.filesz_le
  simp only [ProgramHeader.stop, userCanonMax, frameSize] at *
  omega

theorem copyPage_none (h : ph.Accepted) (hva : va ∈ ph.pages)
    (hcopy : ¬ph.copyLo va < ph.copyHi va) : s.copyPage bytes ph va frame = (.ok, s) := by
  obtain ⟨h₁, h₂⟩ := accepted_no_wrap h hva
  simp only [ProgramHeader.copyLo, ProgramHeader.copyHi] at hcopy
  simp only [copyPage, add_of_lt h₁, add_of_lt h₂]
  rw [if_neg hcopy]

theorem copyPage_some (h : ph.Accepted) (hva : va ∈ ph.pages) (hcopy : ph.copyLo va < ph.copyHi va)
    (hoff : ph.pOffset.toNat + (ph.copyLo va - ph.start) < 2 ^ 64) :
    s.copyPage bytes ph va frame =
      let fileOff := ph.pOffset.toNat + (ph.copyLo va - ph.start)
      let r := s.add fileOff (ph.copyHi va - ph.copyLo va)
      if bytes.length < r.1 then (.err, r.2)
      else if r.1 < fileOff then (.panic, r.2.fault .slice)
      else
        let src := (bytes.drop fileOff).take (r.1 - fileOff)
        (.ok, { r.2 with ram := copyIntoFrame r.2.ram frame (ph.copyLo va - va) src }) := by
  obtain ⟨h₁, h₂⟩ := accepted_no_wrap h hva
  simp only [ProgramHeader.copyLo, ProgramHeader.copyHi] at hcopy hoff
  simp only [copyPage, add_of_lt h₁, add_of_lt h₂, ProgramHeader.copyLo, ProgramHeader.copyHi]
  rw [if_pos hcopy, add_of_lt hoff]
  rfl

theorem copyLo_pageStart : ph.copyLo ph.pageStart = ph.start := by
  simp only [ProgramHeader.copyLo, ProgramHeader.pageStart]
  omega

theorem copyPage_cases (h : ph.Accepted) (hva : va ∈ ph.pages) (hlen : bytes.length < 2 ^ 63)
    (hoff : va = ph.pageStart ∨ (0 < ph.filesz → ph.pOffset.toNat ≤ bytes.length))
    (hcall : s.copyPage bytes ph va frame = (r, s')) :
    (r = .ok ∧ (ph.copyLo va < ph.copyHi va →
        ph.pOffset.toNat + (ph.copyHi va - ph.start) ≤ bytes.length) ∧
      s' = { s with ram := if ph.copyLo va < ph.copyHi va then
          copyIntoFrame s.ram frame (ph.copyLo va - va) (ph.copied bytes va) else s.ram }) ∨
    (r = .err ∧ s' = s ∧ ph.copyLo va < ph.copyHi va ∧
      bytes.length < ph.pOffset.toNat + (ph.copyHi va - ph.start) ∧
      ph.pOffset.toNat + (ph.copyHi va - ph.start) < 2 ^ 64) ∨
    (r ≠ .ok ∧ s'.faults ≠ [] ∧ va = ph.pageStart ∧ ph.copyLo va < ph.copyHi va ∧
      2 ^ 64 ≤ ph.pOffset.toNat + (ph.copyHi va - ph.start)) := by
  by_cases hcopy : ph.copyLo va < ph.copyHi va
  · have hin := ProgramHeader.mem_pages.mp hva
    have hstop := h.stop_le
    have hlo : ph.start ≤ ph.copyLo va := Nat.le_max_left _ _
    have hhi : ph.copyHi va ≤ ph.start + ph.filesz := Nat.min_le_left _ _
    have hsz := h.filesz_le
    have hoffset := ph.pOffset.toNat_lt
    simp only [ProgramHeader.stop, userCanonMax] at hstop hin
    have hoff := hoff.imp_right fun h => h (by omega)
    have hfile : ph.pOffset.toNat + (ph.copyLo va - ph.start) < 2 ^ 64 := by
      rcases hoff with hfirst | hoff
      · rw [hfirst, copyLo_pageStart]
        omega
      · omega
    rw [copyPage_some h hva hcopy hfile] at hcall
    have hsum : ph.pOffset.toNat + (ph.copyLo va - ph.start) + (ph.copyHi va - ph.copyLo va) =
        ph.pOffset.toNat + (ph.copyHi va - ph.start) := by omega
    by_cases hwrap : ph.pOffset.toNat + (ph.copyHi va - ph.start) < 2 ^ 64
    · simp only [add_of_lt (hsum ▸ hwrap), hsum] at hcall
      split_ifs at hcall with hshort hbad
      · obtain ⟨rfl, rfl⟩ := Prod.mk.inj hcall
        exact .inr (.inl ⟨rfl, rfl, hcopy, hshort, hwrap⟩)
      · omega
      · obtain ⟨rfl, rfl⟩ := Prod.mk.inj hcall
        refine .inl ⟨rfl, fun _ => by omega, ?_⟩
        rw [if_pos hcopy, ProgramHeader.copied, show ph.pOffset.toNat + (ph.copyHi va - ph.start) -
          (ph.pOffset.toNat + (ph.copyLo va - ph.start)) = ph.copyHi va - ph.copyLo va by omega]
    · have hwrap := Nat.not_lt.mp hwrap
      have hfirst : va = ph.pageStart := by
        rcases hoff with hfirst | hoff
        · exact hfirst
        · omega
      simp only [add_of_ge (hsum ▸ hwrap)] at hcall
      refine .inr (.inr ?_)
      split_ifs at hcall with hshort hbad
      · obtain ⟨rfl, rfl⟩ := Prod.mk.inj hcall
        exact ⟨by decide, by simp [fault], hfirst, hcopy, hwrap⟩
      · obtain ⟨rfl, rfl⟩ := Prod.mk.inj hcall
        exact ⟨by decide, by simp [fault], hfirst, hcopy, hwrap⟩
      · omega
  · rw [copyPage_none h hva hcopy] at hcall
    obtain ⟨rfl, rfl⟩ := Prod.mk.inj hcall
    refine .inl ⟨rfl, fun hc => absurd hc hcopy, ?_⟩
    rw [if_neg hcopy]

theorem copied_ram {ram : ℕ → ℕ → UInt8}
    (hfits : ph.copyLo va < ph.copyHi va → ph.pOffset.toNat + (ph.copyHi va - ph.start) ≤
      bytes.length) {i : ℕ} (hi : i < frameSize) : (if ph.copyLo va < ph.copyHi va then
      copyIntoFrame (zeroFrame ram frame) frame (ph.copyLo va - va) (ph.copied bytes va)
      else zeroFrame ram frame) frame i = ph.pageByte bytes (va + i) := by
  have hlo : ph.start ≤ ph.copyLo va := Nat.le_max_left _ _
  have hlo' : va ≤ ph.copyLo va := Nat.le_max_right _ _
  have hin : (ph.start ≤ va + i ∧ va + i < ph.start + ph.filesz) ↔
      (ph.copyLo va ≤ va + i ∧ va + i < ph.copyHi va) := by
    simp only [ProgramHeader.copyLo, ProgramHeader.copyHi]
    omega
  simp only [ProgramHeader.pageByte, hin]
  by_cases hcopy : ph.copyLo va < ph.copyHi va
  · have hle := hfits hcopy
    have hlen : (ph.copied bytes va).length = ph.copyHi va - ph.copyLo va := by
      simp only [ProgramHeader.copied, List.length_take, List.length_drop]
      omega
    have hiff : (ph.copyLo va - va ≤ i ∧ i < ph.copyLo va - va + (ph.copied bytes va).length) ↔
        (ph.copyLo va ≤ va + i ∧ va + i < ph.copyHi va) := by
      rw [hlen]
      omega
    simp only [hcopy, if_true, copyIntoFrame, Function.update_self, hiff]
    split
    · rename_i hpart
      rw [ProgramHeader.copied, List.getD_eq_getElem?_getD, List.getD_eq_getElem?_getD,
        List.getElem?_take_of_lt (by omega), List.getElem?_drop]
      congr 2
      omega
    · simp only [zeroFrame, Function.update_self]
  · rw [if_neg hcopy, if_neg (by omega), zeroFrame, Function.update_self]

theorem copied_ram_other {ram : ℕ → ℕ → UInt8} {f : ℕ} (hf : f ≠ frame) :
    (if ph.copyLo va < ph.copyHi va then
      copyIntoFrame (zeroFrame ram frame) frame (ph.copyLo va - va) (ph.copied bytes va)
      else zeroFrame ram frame) f = ram f := by
  split
  · rw [copyIntoFrame, Function.update_of_ne hf, zeroFrame, Function.update_of_ne hf]
  · rw [zeroFrame, Function.update_of_ne hf]

end Copy

/-- The page at `va` was added, with the given contents and rights. -/
structure Pushed (lookup : τ → ℕ → Option Leaf) (s s' : LoadState τ) (va frame : ℕ)
    (content : ℕ → UInt8) (writable executable : Bool) : Prop where
  unmapped : lookup s.table va = none
  pages : s'.pages = s.pages ++ [(va, frame)]
  table : lookup s'.table = Function.update (lookup s.table) va (some ⟨frame, writable, executable⟩)
  ram : ∀ i < frameSize, s'.ram frame i = content i
  others : ∀ f, f ≠ frame → s'.ram f = s.ram f
  faults : s'.faults = s.faults

section Lawful

variable {lookup : τ → ℕ → Option Leaf} {va frame : ℕ} {writable executable : Bool}

theorem mapUserIn_spec (hm : m.Lawful lookup) {ok : Bool}
    (hmap : s.mapUserIn m va frame writable executable = (ok, s')) :
    s'.pages = s.pages ∧ s'.ram = s.ram ∧ s'.faults = s.faults ∧
      (ok = true → lookup s.table va = none ∧
        lookup s'.table = Function.update (lookup s.table) va
          (some ⟨frame, writable, executable⟩)) := by
  simp only [mapUserIn] at hmap
  split at hmap
  · obtain ⟨rfl, rfl⟩ := Prod.mk.inj hmap
    exact ⟨rfl, rfl, rfl, fun h => by cases h⟩
  · have hends :=
      Client.run_ends recAlloc (m.mapTo s.table va ⟨frame, writable, executable⟩) (s.pmm, [])
    obtain ⟨rfl, rfl⟩ := Prod.mk.inj hmap
    refine ⟨rfl, rfl, rfl, ?_⟩
    intro hok
    rw [show (Client.run recAlloc (m.mapTo s.table va ⟨frame, writable, executable⟩)
      (s.pmm, [])).1 = (true,
      (Client.run recAlloc (m.mapTo s.table va ⟨frame, writable, executable⟩) (s.pmm, [])).1.2) from
      Prod.ext hok rfl] at hends
    exact hm.map_ok hends

theorem canonical_of_lt (hva : va < userCanonMax) : Vmm.canonical va = true := by
  simp only [Vmm.canonical, decide_eq_true_iff]
  exact .inl hva

theorem mapFrame_spec (hm : m.Lawful lookup) (hva : va < userCanonMax)
    (hmap : s.mapFrame m va frame writable executable = (r, s')) :
    r ≠ .panic ∧ s'.faults = s.faults ∧ s'.ram = s.ram ∧
      (r = .ok → lookup s.table va = none ∧ s'.pages = s.pages ++ [(va, frame)] ∧
        lookup s'.table = Function.update (lookup s.table) va
          (some ⟨frame, writable, executable⟩)) := by
  simp only [mapFrame, canonical_of_lt hva, if_true] at hmap
  rcases hin : s.mapUserIn m va frame writable executable with ⟨_ | _, s₁⟩
  · obtain ⟨-, hram, hfaults, -⟩ := mapUserIn_spec hm hin
    simp only [hin] at hmap
    obtain ⟨rfl, rfl⟩ := Prod.mk.inj hmap
    exact ⟨by decide, hfaults, hram, fun h => by cases h⟩
  · obtain ⟨hpages, hram, hfaults, hok⟩ := mapUserIn_spec hm hin
    simp only [hin] at hmap
    obtain ⟨rfl, rfl⟩ := Prod.mk.inj hmap
    refine ⟨by decide, hfaults, hram, fun _ => ⟨(hok rfl).1, ?_, (hok rfl).2⟩⟩
    simp only [hpages]

theorem mapStackPage_ok (hm : m.Lawful lookup) (hva : va < userCanonMax)
    (hmap : s.mapStackPage m va = (.ok, s')) :
    ∃ frame, Pushed lookup s s' va frame (fun _ => 0) true false := by
  simp only [mapStackPage] at hmap
  rcases hal : s.pmm.alloc with ⟨_ | frame, pmm⟩
  · simp [hal] at hmap
  · simp only [hal] at hmap
    obtain ⟨-, hfaults, hram, hok⟩ := mapFrame_spec hm hva hmap
    obtain ⟨hnone, hpages, htable⟩ := hok rfl
    refine ⟨frame, hnone, hpages, htable, ?_, ?_, hfaults⟩
    · intro i _
      rw [hram]
      simp only [zeroFrame, Function.update_self]
    · intro f hf
      rw [hram]
      simp only [zeroFrame, Function.update_of_ne hf]

theorem mapStackPage_quiet (hm : m.Lawful lookup) (hva : va < userCanonMax)
    (hmap : s.mapStackPage m va = (r, s')) : r ≠ .panic ∧ s'.faults = s.faults := by
  simp only [mapStackPage] at hmap
  rcases hal : s.pmm.alloc with ⟨_ | frame, pmm⟩
  · simp only [hal] at hmap
    obtain ⟨rfl, rfl⟩ := Prod.mk.inj hmap
    exact ⟨by decide, rfl⟩
  · simp only [hal] at hmap
    obtain ⟨hr, hfaults, -⟩ := mapFrame_spec hm hva hmap
    exact ⟨hr, hfaults⟩

theorem lt_userCanonMax (h : ph.Accepted) (hva : va ∈ ph.pages) : va < userCanonMax :=
  lt_of_lt_of_le (ProgramHeader.mem_pages.mp hva).2.1 h.stop_le

theorem mapPage_ok (hm : m.Lawful lookup) (h : ph.Accepted) (hva : va ∈ ph.pages)
    (hlen : bytes.length < 2 ^ 63)
    (hoff : va = ph.pageStart ∨ (0 < ph.filesz → ph.pOffset.toNat ≤ bytes.length))
    (hmap : s.mapPage m bytes ph va = (.ok, s')) :
    (ph.copyLo va < ph.copyHi va → ph.pOffset.toNat + (ph.copyHi va - ph.start) ≤ bytes.length) ∧
      ∃ frame, Pushed lookup s s' va frame (fun i => ph.pageByte bytes (va + i)) ph.writable
        ph.executable := by
  simp only [mapPage] at hmap
  rcases hal : s.pmm.alloc with ⟨_ | frame, pmm⟩
  · simp [hal] at hmap
  · simp only [hal] at hmap
    rcases hcopy : copyPage bytes ph { s with pmm := pmm, ram := zeroFrame s.ram frame } va frame
        with ⟨r₁, s₁⟩
    simp only [hcopy] at hmap
    rcases copyPage_cases h hva hlen hoff hcopy with ⟨rfl, hfits, rfl⟩ | ⟨rfl, -⟩ | ⟨hr, -⟩
    · obtain ⟨-, hfaults, hram, hok⟩ := mapFrame_spec hm (lt_userCanonMax h hva) hmap
      obtain ⟨hnone, hpages, htable⟩ := hok rfl
      refine ⟨hfits, frame, hnone, hpages, htable, ?_, ?_, hfaults⟩
      · intro i hi
        rw [hram]
        exact copied_ram hfits hi
      · intro f hf
        rw [hram]
        exact copied_ram_other hf
    · cases hmap
    · cases r₁ with
      | ok => exact absurd rfl hr
      | err => cases hmap
      | panic => cases hmap

theorem mapPage_fault (hm : m.Lawful lookup) (h : ph.Accepted) (hva : va ∈ ph.pages)
    (hlen : bytes.length < 2 ^ 63)
    (hoff : va = ph.pageStart ∨ (0 < ph.filesz → ph.pOffset.toNat ≤ bytes.length))
    (hmap : s.mapPage m bytes ph va = (r, s')) (hs : s.faults = [])
    (hfault : r = .panic ∨ s'.faults ≠ []) :
    va = ph.pageStart ∧ ph.copyLo va < ph.copyHi va ∧
      2 ^ 64 ≤ ph.pOffset.toNat + (ph.copyHi va - ph.start) ∧ s.pmm.alloc.1 ≠ none := by
  simp only [mapPage] at hmap
  rcases hal : s.pmm.alloc with ⟨_ | frame, pmm⟩
  · simp only [hal] at hmap
    obtain ⟨rfl, rfl⟩ := Prod.mk.inj hmap
    simp [hs] at hfault
  · simp only [hal] at hmap
    rcases hcopy : copyPage bytes ph { s with pmm := pmm, ram := zeroFrame s.ram frame } va frame
        with ⟨r₁, s₁⟩
    simp only [hcopy] at hmap
    rcases copyPage_cases h hva hlen hoff hcopy with ⟨rfl, -, rfl⟩ | ⟨rfl, rfl, -⟩ | ⟨-, -, hbad⟩
    · obtain ⟨hr, hfaults, -⟩ := mapFrame_spec hm (lt_userCanonMax h hva) hmap
      rw [hfaults] at hfault
      simp [hr, hs] at hfault
    · obtain ⟨rfl, rfl⟩ := Prod.mk.inj hmap
      simp [hs] at hfault
    · exact ⟨hbad.1, hbad.2.1, hbad.2.2, by simp⟩

end Lawful

end LoadState

end CoeleoOs.Task
