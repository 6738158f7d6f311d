import CoeleoOs.Task.ElfImage

/-!
# Files that bring the loader down

Of all the sums that the loader makes, only the one of the file offset and the
length of the part on the first page of a segment can leave 64 bits; what follows
is an error or a slice that ends before it begins. The other fault is an entry
point that is no address. A file makes trouble when the loader gets as far as one
of the two.
-/

namespace CoeleoOs.Task
open CoeleoOs.Lib CoeleoOs.Mem

variable {τ : Type}

structure ProgramHeader.Overflows (ph : ProgramHeader) : Prop where
  accepted : ph.Accepted
  nonempty : 0 < ph.filesz
  wraps : 2 ^ 64 ≤ ph.pOffset.toNat + (ph.copyHi ph.pageStart - ph.start)

structure ProgramHeader.Loadable (ph : ProgramHeader) (bytes : Bytes) (mapped : List ℕ) : Prop where
  accepted : ph.Accepted
  fits : 0 < ph.filesz → ph.pOffset.toNat + ph.filesz ≤ bytes.length
  apart : ∀ va ∈ ph.pages, va ∉ mapped
  frames : mapped.length + ph.pages.length < maxFrames

/-- The headers lead to a fault once the pages of `mapped` are there. -/
def Trouble (bytes : Bytes) (entry : ℕ) : List ProgramHeader → Bool → List ℕ → Prop
  | [], ok, mapped =>
    ok = true ∧ Vmm.canonical entry = false ∧ mapped.length + userStackPages < maxFrames ∧
      ∀ i < userStackPages, userStackBase + i * frameSize ∉ mapped
  | ph :: phs, ok, mapped =>
    if ph.pType = ptDynamic then False
    else if ph.pType ≠ ptLoad then Trouble bytes entry phs ok mapped
    else (ph.Overflows ∧ mapped.length + 1 < maxFrames) ∨
      (ph.Loadable bytes mapped ∧ Trouble bytes entry phs true (mapped ++ ph.pages))

def Faultless (m : PageMapper τ) (minimalParse : Bytes → Option ElfFile) (bytes : Bytes) (pmm : Pmm)
    (ram : ℕ → ℕ → UInt8) : Prop :=
  (load m minimalParse bytes pmm ram).1 ≠ .panic ∧ (load m minimalParse bytes pmm ram).2.faults = []

section Segments

variable {m : PageMapper τ} {lookup : τ → ℕ → Option Leaf} {bytes : Bytes} {ph : ProgramHeader}
  {specs : List PageSpec} {s s' : LoadState τ} {all : Finset ℕ} {l4 : ℕ} {r : Res}

theorem Built.pages_length (h : Built lookup all l4 specs s) : s.pages.length = specs.length := by
  have hlen := congrArg List.length h.shows.pages
  simpa using hlen

theorem Built.length_lt (h : Built lookup all l4 specs s) : specs.length < maxFrames := by
  have hle := h.lends.length_le
  simp only [LoadState.owned, List.length_append, List.length_map, List.length_singleton,
    h.pages_length] at hle
  omega

theorem Built.length_lt_of_alloc (h : Built lookup all l4 specs s) (hal : s.pmm.alloc.1 ≠ none) :
    specs.length + 1 < maxFrames := by
  have hlt := h.lends.length_lt hal
  simp only [LoadState.owned, List.length_append, List.length_map, List.length_singleton,
    h.pages_length] at hlt
  omega

theorem mapSegment_fault (hm : m.Lawful lookup) (hlen : bytes.length < 2 ^ 63)
    (hs : Built lookup all l4 specs s) (hmap : s.mapSegment m bytes ph = (r, s'))
    (hfault : r = .panic ∨ s'.faults ≠ []) : ph.Overflows ∧ specs.length + 1 < maxFrames := by
  by_cases h : ph.Accepted
  · rw [LoadState.mapSegment_accepted h] at hmap
    rcases EarlyExit.run_cases hmap with ⟨rfl, hsteps⟩ | ⟨done, va, rest, s₁, hall,
        hsteps, hpage, -⟩
    · obtain ⟨hb, -⟩ := segment_steps hm h hlen hs (List.append_nil _).symm hsteps
      simp [hb.faults] at hfault
    · obtain ⟨hb, hfit⟩ := segment_steps hm h hlen hs hall hsteps
      have hva : va ∈ ph.pages := by simp [hall]
      obtain ⟨rfl, hcopy, hwraps, hal⟩ :=
        LoadState.mapPage_fault hm h hva hlen (segment_offset hall hfit) hpage hb.faults hfault
      have hfile : 0 < ph.filesz := by
        simp only [ProgramHeader.copyLo, ProgramHeader.copyHi] at hcopy
        omega
      refine ⟨⟨h, hfile, hwraps⟩, ?_⟩
      have hlt := hb.length_lt_of_alloc hal
      simp only [List.length_append, List.length_map] at hlt
      omega
  · rw [LoadState.mapSegment_rejected h] at hmap
    obtain ⟨rfl, rfl⟩ := Prod.mk.inj hmap
    simp [hs.faults] at hfault

theorem mapSegment_loadable (hm : m.Lawful lookup) (hlen : bytes.length < 2 ^ 63)
    (hs : Built lookup all l4 specs s) (hmap : s.mapSegment m bytes ph = (.ok, s')) :
    ph.Loadable bytes (specs.map (·.va)) ∧
      Built lookup all l4 (specs ++ ph.pages.map (ph.spec bytes)) s' ∧
      (specs ++ ph.pages.map (ph.spec bytes)).map (·.va) = specs.map (·.va) ++ ph.pages := by
  obtain ⟨hacc, hfits, hb⟩ := mapSegment_ok hm hlen hs hmap
  have hva : (ph.pages.map (ph.spec bytes)).map (·.va) = ph.pages := by
    rw [List.map_map]
    exact List.map_id _
  have hmapped :
      (specs ++ ph.pages.map (ph.spec bytes)).map (·.va) = specs.map (·.va) ++ ph.pages := by
    rw [List.map_append, hva]
  refine ⟨⟨hacc, hfits, ?_, ?_⟩, hb, hmapped⟩
  · intro va hpage hmem
    have hnodup := hb.shows.nodup
    rw [hmapped] at hnodup
    exact (List.nodup_append.mp hnodup).2.2 va hmem va hpage rfl
  · have hlt := hb.length_lt
    simpa using hlt

theorem loadSegments_trouble (hm : m.Lawful lookup) (hlen : bytes.length < 2 ^ 63) (entry : ℕ)
    {phs : List ProgramHeader} {ok ok' : Bool} (hs : Built lookup all l4 specs s)
    (hmap : s.loadSegments m bytes phs ok = (r, ok', s')) :
    ((r = .panic ∨ s'.faults ≠ []) → Trouble bytes entry phs ok (specs.map (·.va))) ∧
      (r = .ok → ∃ specs', Built lookup all l4 specs' s' ∧
        (Trouble bytes entry [] ok' (specs'.map (·.va)) →
          Trouble bytes entry phs ok (specs.map (·.va)))) := by
  induction phs generalizing s ok specs with
  | nil =>
    simp only [LoadState.loadSegments, Prod.mk.injEq] at hmap
    obtain ⟨rfl, rfl, rfl⟩ := hmap
    exact ⟨by simp [hs.faults], fun _ => ⟨specs, hs, id⟩⟩
  | cons ph phs ih =>
    simp only [LoadState.loadSegments] at hmap
    simp only [Trouble]
    split_ifs at hmap with hdyn hload
    · simp only [Prod.mk.injEq] at hmap
      obtain ⟨rfl, rfl, rfl⟩ := hmap
      exact ⟨by simp [hs.faults], fun h => by cases h⟩
    · rw [if_neg hdyn, if_pos hload]
      exact ih hs hmap
    · rw [if_neg hdyn, if_neg hload]
      rcases hseg : s.mapSegment m bytes ph with ⟨r₁, s₁⟩
      by_cases hr : r₁ = .ok
      · subst hr
        simp only [hseg] at hmap
        obtain ⟨hloadable, hb, hmapped⟩ := mapSegment_loadable hm hlen hs hseg
        obtain ⟨hfault, hrest⟩ := ih hb hmap
        rw [hmapped] at hfault hrest
        refine ⟨fun h => .inr ⟨hloadable, hfault h⟩, fun h => ?_⟩
        obtain ⟨specs', hb', htrouble⟩ := hrest h
        exact ⟨specs', hb', fun h => .inr ⟨hloadable, htrouble h⟩⟩
      · have hstop : (r₁, true, s₁) = (r, ok', s') := by
          cases r₁ with
          | ok => exact absurd rfl hr
          | err => simpa only [hseg] using hmap
          | panic => simpa only [hseg] using hmap
        simp only [Prod.mk.injEq] at hstop
        obtain ⟨rfl, rfl, rfl⟩ := hstop
        refine ⟨fun h => ?_, fun h => absurd h hr⟩
        obtain ⟨hover, hlt⟩ := mapSegment_fault hm hlen hs hseg h
        exact .inl ⟨hover, by simpa using hlt⟩

theorem mapStackPages_quiet (hm : m.Lawful lookup) {is : List ℕ}
    (his : ∀ i ∈ is, i < userStackPages) (hmap : s.mapStackPages m is = (r, s')) :
    r ≠ .panic ∧ s'.faults = s.faults := by
  induction is generalizing s with
  | nil =>
    obtain ⟨rfl, rfl⟩ := Prod.mk.inj hmap
    exact ⟨by decide, rfl⟩
  | cons i is ih =>
    simp only [LoadState.mapStackPages] at hmap
    rcases hpage : s.mapStackPage m (userStackBase + i * frameSize) with ⟨_ | _ | _, s₁⟩
    all_goals
      obtain ⟨hr, hfaults⟩ :=
    LoadState.mapStackPage_quiet hm (stackPage_lt (his i List.mem_cons_self)) hpage
      simp only [hpage] at hmap
    · obtain ⟨hr', hfaults'⟩ := ih (fun j hj => his j (List.mem_cons_of_mem i hj)) hmap
      exact ⟨hr', hfaults'.trans hfaults⟩
    · obtain ⟨rfl, rfl⟩ := Prod.mk.inj hmap
      exact ⟨hr, hfaults⟩
    · exact absurd rfl hr

theorem trouble_of_stack
    (hb : Built lookup all l4 (specs ++ (List.range userStackPages).map stackSpec) s)
    {entry : ℕ} (hentry : Vmm.canonical entry = false) :
    Trouble bytes entry [] true (specs.map (·.va)) := by
  refine ⟨rfl, hentry, ?_, ?_⟩
  · have hlt := hb.length_lt
    simpa using hlt
  · intro i hi hmem
    have hnodup := hb.shows.nodup
    rw [List.map_append] at hnodup
    have hstack :
        userStackBase + i * frameSize ∈ ((List.range userStackPages).map stackSpec).map (·.va) :=
      List.mem_map.mpr ⟨stackSpec i, List.mem_map_of_mem (List.mem_range.mpr hi), rfl⟩
    exact (List.nodup_append.mp hnodup).2.2 _ hmem _ hstack rfl

theorem trouble_of_fault (hm : m.Lawful lookup) (hlen : bytes.length < 2 ^ 63) {entry : UInt64}
    {phdrs : List ProgramHeader} {out : Loaded} (hs : Built lookup all l4 [] s)
    (hload : loadPhdrs m bytes entry l4 phdrs s = (out, s'))
    (hfault : out = .panic ∨ s'.faults ≠ []) : Trouble bytes entry.toNat phdrs false [] := by
  simp only [loadPhdrs] at hload
  rcases hrun : s.loadSegments m bytes phdrs false with ⟨r, ok, s₁⟩
  obtain ⟨htrouble, hrest⟩ := loadSegments_trouble hm hlen entry.toNat hs hrun
  simp only [List.map_nil] at htrouble hrest
  cases r with
  | panic => exact htrouble (.inl rfl)
  | err =>
    simp only [hrun] at hload
    obtain ⟨rfl, rfl⟩ := Prod.mk.inj hload
    exact htrouble (.inr (hfault.resolve_left (by simp)))
  | ok =>
    obtain ⟨specs, hb, hcont⟩ := hrest rfl
    cases ok with
    | false =>
      simp only [hrun] at hload
      obtain ⟨rfl, rfl⟩ := Prod.mk.inj hload
      simp [LoadState.fail, hb.faults] at hfault
    | true =>
      simp only [hrun] at hload
      rcases hstack : s₁.mapStack m with ⟨r, s₂⟩
      obtain ⟨hr, hquiet⟩ := mapStackPages_quiet hm (fun i hi => List.mem_range.mp hi) hstack
      have hquiet := hquiet.trans hb.faults
      cases r with
      | panic => exact absurd rfl hr
      | err =>
        simp only [hstack] at hload
        obtain ⟨rfl, rfl⟩ := Prod.mk.inj hload
        simp [LoadState.fail, hquiet] at hfault
      | ok =>
        simp only [hstack] at hload
        split_ifs at hload with hentry
        · obtain ⟨rfl, rfl⟩ := Prod.mk.inj hload
          simp [hquiet] at hfault
        · have hb' := mapStackPages_ok hm (fun i hi => List.mem_range.mp hi) hb hstack
          exact hcont (trouble_of_stack hb' (by simpa using hentry))

end Segments

def flatMapper : PageMapper (ℕ → Option Leaf) where
  empty := fun _ => none
  mapTo t va leaf :=
    if (t va).isSome then .done (false, t) else .done (true, Function.update t va (some leaf))

theorem flatMapper_lawful : flatMapper.Lawful id where
  empty := fun _ => rfl
  map_ok := by
    intro t t' va leaf h
    simp only [flatMapper] at h
    split at h
    · cases h
    · rename_i hnone
      cases h
      exact ⟨by simpa using hnone, rfl⟩
  map_err := by
    intro t t' va leaf h
    simp only [flatMapper] at h
    split at h
    · cases h
      rfl
    · cases h

section Flat

variable {bytes : Bytes} {ph : ProgramHeader} {specs : List PageSpec}
  {s s' : LoadState (ℕ → Option Leaf)} {all : Finset ℕ} {l4 va frame : ℕ} {r : Res}
  {writable executable : Bool}

structure Open (all : Finset ℕ) (l4 : ℕ) (specs : List PageSpec) (s : LoadState (ℕ → Option Leaf)) :
    Prop where
  built : Built id all l4 specs s
  noTables : s.ptFrames = []

theorem flat_mapUserIn {ok : Bool}
    (hmap : s.mapUserIn flatMapper va frame writable executable = (ok, s')) :
    s'.ptFrames = s.ptFrames := by
  simp only [LoadState.mapUserIn, flatMapper] at hmap
  split at hmap
  · obtain ⟨-, rfl⟩ := Prod.mk.inj hmap
    rfl
  · obtain ⟨-, rfl⟩ := Prod.mk.inj hmap
    split <;> simp [Client.run]

theorem flat_mapFrame (hmap : s.mapFrame flatMapper va frame writable executable = (.ok, s')) :
    s'.ptFrames = s.ptFrames := by
  simp only [LoadState.mapFrame] at hmap
  split at hmap
  · rcases hin : s.mapUserIn flatMapper va frame writable executable with ⟨_ | _, s₁⟩
    · simp [hin] at hmap
    · simp only [hin] at hmap
      have hpt := flat_mapUserIn hin
      obtain ⟨-, rfl⟩ := Prod.mk.inj hmap
      exact hpt
  · cases hmap

theorem flat_mapFrame_ok (frame : ℕ) (writable executable : Bool) (hva : va < userCanonMax)
    (hpage : va % frameSize = 0) (hnone : s.table va = none) :
    ∃ s', s.mapFrame flatMapper va frame writable executable = (.ok, s') := by
  simp only [LoadState.mapFrame, LoadState.canonical_of_lt hva, if_true, LoadState.mapUserIn]
  rw [if_neg (by omega)]
  simp [flatMapper, hnone, Client.run]

theorem Open.exists_alloc (h : Open all l4 specs s) (hlt : specs.length + 1 < all.card) :
    ∃ f p', s.pmm.alloc = (some f, p') := by
  refine h.built.lends.exists_alloc ?_
  simp only [LoadState.owned, h.noTables, List.append_nil, List.length_append,
    List.length_singleton, List.length_map, h.built.pages_length]
  omega

theorem Open.mapPage_ok (h : Open all l4 specs s) (hacc : ph.Accepted)
    (hlen : bytes.length < 2 ^ 63)
    (hfits : 0 < ph.filesz → ph.pOffset.toNat + ph.filesz ≤ bytes.length) (hva : va ∈ ph.pages)
    (hnew : va ∉ specs.map (·.va)) (hlt : specs.length + 1 < all.card) :
    ∃ s', s.mapPage flatMapper bytes ph va = (.ok, s') ∧ s'.ptFrames = [] := by
  obtain ⟨frame, pmm, hal⟩ := h.exists_alloc hlt
  have hhi : ph.copyHi va ≤ ph.start + ph.filesz := Nat.min_le_left _ _
  have hlo : ph.start ≤ ph.copyLo va := Nat.le_max_left _ _
  rcases hcopy :
      LoadState.copyPage bytes ph { s with pmm := pmm, ram := zeroFrame s.ram frame } va frame
        with ⟨r, s₁⟩
  have hsame :=
    LoadState.copyPage_same bytes ph { s with pmm := pmm, ram := zeroFrame s.ram frame } va frame
  rw [hcopy] at hsame
  have hok : r = .ok := by
    rcases LoadState.copyPage_cases hacc hva hlen (.inr fun hf => by have := hfits hf; omega) hcopy
        with
      ⟨hr, -⟩ | ⟨-, -, hc, hshort, -⟩ | ⟨-, -, -, hc, hwraps⟩
    · exact hr
    · have hle := hfits (by omega)
      omega
    · have hle := hfits (by omega)
      omega
  subst hok
  have hnone : s₁.table va = none := by
    rw [hsame.table]
    exact h.built.shows.only va hnew
  obtain ⟨s', hmap⟩ := flat_mapFrame_ok frame ph.writable ph.executable
    (LoadState.lt_userCanonMax hacc hva) (ProgramHeader.mem_pages.mp hva).2.2 hnone
  refine ⟨s', ?_, ?_⟩
  · simp only [LoadState.mapPage, hal, hcopy, hmap]
  · rw [flat_mapFrame hmap, hsame.ptFrames]
    exact h.noTables

theorem Open.mapSegment_ok (h : Open all l4 specs s) (hlen : bytes.length < 2 ^ 63)
    (hl : ph.Loadable bytes (specs.map (·.va))) (hall : maxFrames ≤ all.card) :
    ∃ s', s.mapSegment flatMapper bytes ph = (.ok, s') ∧ s'.ptFrames = [] := by
  have hfit : ∀ done, CopiesFit bytes ph done := by
    intro done
    refine ⟨fun _ hf => ?_, fun va _ hc => ?_⟩
    · have hle := hl.fits hf
      omega
    · have hhi : ph.copyHi va ≤ ph.start + ph.filesz := Nat.min_le_left _ _
      have hlo : ph.start ≤ ph.copyLo va := Nat.le_max_left _ _
      have hle := hl.fits (by omega)
      omega
  have hframes := hl.frames
  simp only [List.length_map] at hframes
  have hstep : ∀ done va rest s₁, ph.pages = done ++ va :: rest →
      Open all l4 (specs ++ done.map (ph.spec bytes)) s₁ →
      ∃ s₂, s₁.mapPage flatMapper bytes ph va = (.ok, s₂) ∧
      Open all l4 (specs ++ (done ++ [va]).map (ph.spec bytes)) s₂ := by
    intro done va rest s₁ hpages hopen
    have hva : va ∈ ph.pages := by simp [hpages]
    have hnew : va ∉ (specs ++ done.map (ph.spec bytes)).map (·.va) := by
      have hnodup := ph.pages_nodup
      rw [hpages] at hnodup
      rw [List.map_append, List.map_map, List.mem_append, not_or]
      refine ⟨hl.apart va hva, ?_⟩
      intro hmem
      have hdone : va ∈ done := by simpa [ProgramHeader.spec] using hmem
      exact (List.nodup_append.mp hnodup).2.2 va hdone va List.mem_cons_self rfl
    have hcount : done.length < ph.pages.length := by
      rw [hpages]
      simp
    obtain ⟨s₂, hpage, hno⟩ := hopen.mapPage_ok hl.accepted hlen hl.fits hva hnew
      (by simp only [List.length_append, List.length_map]; omega)
    obtain ⟨-, frame, hpush⟩ := LoadState.mapPage_ok flatMapper_lawful hl.accepted hva hlen
      (segment_offset hpages (hfit done)) hpage
    refine ⟨s₂, hpage, ?_, hno⟩
    rw [List.map_append, ← List.append_assoc]
    exact hopen.built.push hpush (hopen.built.lends.mapPage hpage (by decide))
  obtain ⟨s', hsteps, hopen⟩ := EarlyExit.exists_steps
    (I := fun done s => Open all l4 (specs ++ done.map (ph.spec bytes)) s)
    (s := s) hstep (by simpa using h)
  refine ⟨s', ?_, hopen.noTables⟩
  rw [LoadState.mapSegment_accepted hl.accepted]
  exact EarlyExit.run_of_steps hsteps

theorem ProgramHeader.pages_cons (hacc : ph.Accepted) (hfile : 0 < ph.filesz) :
    ∃ rest, ph.pages = ph.pageStart :: rest := by
  have hsz := hacc.filesz_le
  cases hpages : ph.pages with
  | nil =>
    have hmem : ph.pageStart ∈ ph.pages := by
      rw [ProgramHeader.mem_pages]
      simp only [ProgramHeader.pageStart, ProgramHeader.stop, frameSize]
      omega
    rw [hpages] at hmem
    cases hmem
  | cons va rest =>
    rw [ProgramHeader.pages_head hpages]
    exact ⟨rest, rfl⟩

theorem Open.mapSegment_fault (h : Open all l4 specs s) (hlen : bytes.length < 2 ^ 63)
    (ho : ph.Overflows) (hlt : specs.length + 1 < all.card) :
    ∃ r s', s.mapSegment flatMapper bytes ph = (r, s') ∧ r ≠ .ok ∧
    (r = .panic ∨ s'.faults ≠ []) := by
  obtain ⟨rest, hpages⟩ := ProgramHeader.pages_cons ho.accepted ho.nonempty
  have hva : ph.pageStart ∈ ph.pages := by simp [hpages]
  have hwraps := ho.wraps
  obtain ⟨frame, pmm, hal⟩ := h.exists_alloc hlt
  have hpage : ∃ r s', s.mapPage flatMapper bytes ph ph.pageStart = (r, s') ∧ r ≠ .ok ∧
      (r = .panic ∨ s'.faults ≠ []) := by
    rcases hcopy :
        LoadState.copyPage bytes ph { s with pmm := pmm, ram := zeroFrame s.ram frame } ph.pageStart
      frame with ⟨r, s₁⟩
    have hcases := LoadState.copyPage_cases ho.accepted hva hlen (.inl rfl) hcopy
    cases r with
    | ok =>
      rcases hcases with ⟨-, hfits, -⟩ | ⟨hr, -⟩ | ⟨hr, -⟩
      · have hle := hfits (copy_first ho.nonempty)
        omega
      · cases hr
      · exact absurd rfl hr
    | err =>
      rcases hcases with ⟨hr, -⟩ | ⟨-, -, -, -, hsmall⟩ | ⟨-, hfaults, -⟩
      · cases hr
      · omega
      · refine ⟨.err, { s₁ with pmm := s₁.pmm.free frame }, ?_, by decide, .inr hfaults⟩
        simp only [LoadState.mapPage, hal, hcopy]
    | panic =>
      refine ⟨.panic, s₁, ?_, by decide, .inl rfl⟩
      simp only [LoadState.mapPage, hal, hcopy]
  obtain ⟨r, s', hpage, hr, hfault⟩ := hpage
  refine ⟨r, s', ?_, hr, hfault⟩
  rw [LoadState.mapSegment_accepted ho.accepted, hpages]
  exact EarlyExit.run_cons_stop hpage hr

theorem Open.loadSegments {phs : List ProgramHeader} {ok : Bool} {entry : ℕ}
    (h : Open all l4 specs s) (hlen : bytes.length < 2 ^ 63) (hall : maxFrames ≤ all.card)
    (ht : Trouble bytes entry phs ok (specs.map (·.va))) :
    ∃ r ok' s', s.loadSegments flatMapper bytes phs ok = (r, ok', s') ∧
      ((r ≠ .ok ∧ (r = .panic ∨ s'.faults ≠ [])) ∨
        (r = .ok ∧ ok' = true ∧ ∃ specs', Open all l4 specs' s' ∧
          Trouble bytes entry [] true (specs'.map (·.va)))) := by
  induction phs generalizing s ok specs with
  | nil =>
    obtain rfl : ok = true := ht.1
    exact ⟨.ok, true, s, rfl, .inr ⟨rfl, rfl, specs, h, ht⟩⟩
  | cons ph phs ih =>
    simp only [Trouble] at ht
    simp only [LoadState.loadSegments]
    split_ifs at ht with hdyn hload
    · rw [if_neg hdyn, if_pos hload]
      exact ih h ht
    · rw [if_neg hdyn, if_neg hload]
      rcases ht with ⟨ho, hlt⟩ | ⟨hl, ht⟩
      · rw [List.length_map] at hlt
        obtain ⟨r, s', hseg, hr, hfault⟩ := h.mapSegment_fault hlen ho (hlt.trans_le hall)
        refine ⟨r, true, s', ?_, .inl ⟨hr, hfault⟩⟩
        rw [hseg]
        cases r with
        | ok => exact absurd rfl hr
        | err => rfl
        | panic => rfl
      · obtain ⟨s', hseg, hno⟩ := h.mapSegment_ok hlen hl hall
        obtain ⟨-, hb, hmapped⟩ := mapSegment_loadable flatMapper_lawful hlen h.built hseg
        rw [hseg]
        refine ih ⟨hb, hno⟩ ?_
        rw [hmapped]
        exact ht

theorem Open.mapStackPages (h : Open all l4 specs s) (is : List ℕ)
    (his : ∀ i ∈ is, i < userStackPages) (hnodup : is.Nodup)
    (hnew : ∀ i ∈ is, userStackBase + i * frameSize ∉ specs.map (·.va))
    (hlt : specs.length + is.length < all.card) :
    ∃ s', s.mapStackPages flatMapper is = (.ok, s') := by
  induction is generalizing s specs with
  | nil => exact ⟨s, rfl⟩
  | cons i is ih =>
    have hi := his i List.mem_cons_self
    simp only [List.length_cons] at hlt
    obtain ⟨frame, pmm, hal⟩ := h.exists_alloc (by omega)
    obtain ⟨s₁, hmap⟩ := flat_mapFrame_ok (s := { s with pmm := pmm, ram := zeroFrame s.ram frame })
      frame true false (stackPage_lt hi)
      (by simp only [userStackBase, frameSize]; omega)
      (h.built.shows.only _ (hnew i List.mem_cons_self))
    have hpage : s.mapStackPage flatMapper (userStackBase + i * frameSize) = (.ok, s₁) := by
      simp only [LoadState.mapStackPage, hal, hmap]
    obtain ⟨frame', hpush⟩ := LoadState.mapStackPage_ok flatMapper_lawful (stackPage_lt hi) hpage
    have hb := h.built.push hpush (h.built.lends.mapStackPage hpage (by decide))
    have hno : s₁.ptFrames = [] := (flat_mapFrame hmap).trans h.noTables
    simp only [LoadState.mapStackPages, hpage]
    refine ih ⟨hb, hno⟩ (fun j hj => his j (List.mem_cons_of_mem i hj))
      (List.nodup_cons.mp hnodup).2 ?_ ?_
    · intro j hj hmem
      rw [List.map_append, List.mem_append] at hmem
      rcases hmem with hold | hsame
      · exact hnew j (List.mem_cons_of_mem i hj) hold
      · have heq : userStackBase + j * frameSize = userStackBase + i * frameSize := by
          simpa using hsame
        have hij : j = i := by
          simp only [frameSize] at heq
          omega
        exact (List.nodup_cons.mp hnodup).1 (hij ▸ hj)
    · simp only [List.length_append, List.length_singleton]
      omega

end Flat

def fullMemory : List Entry := [⟨0, 0x100000000, true⟩]

theorem fullMemory_clear : (clearFrames (Pmm.init fullMemory).bitmap).card = maxFrames := by
  have hall : clearFrames (Pmm.init fullMemory).bitmap = Finset.range maxFrames := by
    ext f
    rw [Pmm.init_clearFrames, Finset.mem_range]
    constructor
    · exact fun h => h.1
    · intro hf
      have hstop : Pmm.entryStop ⟨0, 0x100000000, true⟩ = maxFrames := by decide
      have hstart : Pmm.entryStart ⟨0, 0x100000000, true⟩ = 0 := by decide
      exact ⟨hf, _, List.mem_cons_self, rfl, by rw [hstart]; omega, by rw [hstop]; exact hf⟩
  rw [hall, Finset.card_range]

theorem fault_of_trouble {minimalParse : Bytes → Option ElfFile} {bytes : Bytes}
    (hlen : bytes.length < 2 ^ 63) {file : ElfFile} {phdrs : List ProgramHeader}
    (hfile : Executable minimalParse bytes file phdrs)
    (ht : Trouble bytes file.eEntry.toNat phdrs false []) (ram : ℕ → ℕ → UInt8) :
    ¬Faultless flatMapper minimalParse bytes (Pmm.init fullMemory) ram := by
  have hcard := fullMemory_clear
  obtain ⟨l4, pmm, hal⟩ := (Pmm.Lent.nil (Pmm.init fullMemory)).exists_alloc (by rw [hcard]; decide)
  have hopen : Open (clearFrames (Pmm.init fullMemory).bitmap) l4 []
      ⟨pmm, ram, flatMapper.empty, [], [], []⟩ := ⟨built_root flatMapper_lawful hal, rfl⟩
  obtain ⟨r, ok, s, hrun, hend⟩ := hopen.loadSegments hlen hcard.ge ht
  rintro ⟨hpanic, hfaults⟩
  rw [load_executable hfile hal] at hpanic hfaults
  simp only [loadPhdrs, hrun] at hpanic hfaults
  rcases hend with ⟨hr, hfault⟩ | ⟨rfl, rfl, specs, hopen', -, hentry, hlt, hstack⟩
  · cases r with
    | ok => exact hr rfl
    | err => exact hfault.elim (by simp) fun h => h hfaults
    | panic => exact hpanic rfl
  · obtain ⟨s', hmap⟩ :=
      hopen'.mapStackPages (List.range userStackPages) (fun i hi => List.mem_range.mp hi)
      List.nodup_range (fun i hi => hstack i (List.mem_range.mp hi))
      (by rw [hcard, List.length_range]; simpa using hlt)
    have hmap : s.mapStack flatMapper = (.ok, s') := hmap
    simp [hmap, hentry] at hpanic

/-- A file is harmless, whatever the memory and the tables, exactly when it is no executable
or its headers mean no trouble. A slice has fewer than 2^63 bytes. -/
theorem load_faultless_iff (minimalParse : Bytes → Option ElfFile) (bytes : Bytes)
    (hlen : bytes.length < 2 ^ 63) :
    (∀ (τ : Type) (m : PageMapper τ) (lookup : τ → ℕ → Option Leaf), m.Lawful lookup →
      ∀ pmm ram, Faultless m minimalParse bytes pmm ram) ↔
    ∀ file phdrs, Executable minimalParse bytes file phdrs →
      ¬Trouble bytes file.eEntry.toNat phdrs false [] := by
  constructor
  · intro h file phdrs hfile ht
    exact fault_of_trouble hlen hfile ht (fun _ _ => 0) (h _ _ id flatMapper_lawful _ _)
  · intro h τ m lookup hm pmm ram
    rcases hload : load m minimalParse bytes pmm ram with ⟨r, s⟩
    rcases load_cases hload with ⟨rfl, hfaults⟩ | ⟨file, phdrs, l4, pmm', hfile, hal, hrest⟩
    · simp [Faultless, hload, hfaults]
    · by_contra hbad
      simp only [Faultless, hload, not_and_or, not_not] at hbad
      exact h file phdrs hfile (trouble_of_fault hm hlen (built_root hm hal) hrest hbad)

theorem load_faultless_sample :
    Faultless PageTables.mapper parseElf64 (sampleElf 120 0x400078) (Pmm.init [⟨0, 0x18000, true⟩])
      (fun _ _ => 0) := by
  refine (load_faultless_iff parseElf64 (sampleElf 120 0x400078) (by decide +kernel)).mpr ?_ _ _ _
    PageTables.mapper_lawful _ _
  rintro file phdrs ⟨hparse, -, -, hsegs⟩
  have hfile : parseElf64 (sampleElf 120 0x400078) =
      some ⟨62, 2, 0x400078, some [⟨1, 5, 120, 0x400078, 4, 8⟩]⟩ := by decide +kernel
  obtain rfl := Option.some.inj (hfile.symm.trans hparse)
  obtain rfl := Option.some.inj hsegs
  rintro (⟨hover, -⟩ | ⟨-, -, hentry, -⟩)
  · exact absurd hover.wraps (by decide)
  · exact absurd hentry (by decide)

/-- The file part begins two bytes before the end of the 64-bit numbers: the slice of the
first page ends before it begins. -/
theorem load_panics_on_wrapping_offset :
    ¬Faultless PageTables.mapper parseElf64 (sampleElf (2 ^ 64 - 2) 0x400078)
      (Pmm.init [⟨0, 0x18000, true⟩]) (fun _ _ => 0) := by
  intro h
  have hpanic : (load PageTables.mapper parseElf64 (sampleElf (2 ^ 64 - 2) 0x400078)
    (Pmm.init [⟨0, 0x18000, true⟩]) (fun _ _ => 0)).1 = .panic := by decide +kernel
  exact h.1 hpanic

end CoeleoOs.Task
