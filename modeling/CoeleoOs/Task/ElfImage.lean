import CoeleoOs.Task.PageTables

/-!
# A loaded image is the memory image of its file

The image under construction always shows a list of pages, each with its contents
and rights, and nothing else. Every segment that is mapped adds its pages, and the
stack adds sixteen.
-/

namespace CoeleoOs.Task
open CoeleoOs.Lib CoeleoOs.Mem

variable {τ : Type}

structure PageSpec where
  va : ℕ
  content : ℕ → UInt8
  writable : Bool
  executable : Bool

def ProgramHeader.spec (ph : ProgramHeader) (bytes : Bytes) (va : ℕ) : PageSpec :=
  ⟨va, fun i => ph.pageByte bytes (va + i), ph.writable, ph.executable⟩

def stackSpec (i : ℕ) : PageSpec := ⟨userStackBase + i * frameSize, fun _ => 0, true, false⟩

/-- The pages of `specs` are what the tables translate, and nothing else is. -/
structure Shows (lookup : τ → ℕ → Option Leaf) (specs : List PageSpec) (s : LoadState τ) :
    Prop where
  pages : s.pages.map (·.1) = specs.map (·.va)
  nodup : (specs.map (·.va)).Nodup
  shown : ∀ p ∈ specs, ∃ frame, (p.va, frame) ∈ s.pages ∧
    lookup s.table p.va = some ⟨frame, p.writable, p.executable⟩ ∧
    ∀ i < frameSize, s.ram frame i = p.content i
  only : ∀ va, va ∉ specs.map (·.va) → lookup s.table va = none

structure Built (lookup : τ → ℕ → Option Leaf) (all : Finset ℕ) (l4 : ℕ) (specs : List PageSpec)
    (s : LoadState τ) : Prop where
  shows : Shows lookup specs s
  lends : LoadState.Lends all [l4] s
  faults : s.faults = []

section Build

variable {lookup : τ → ℕ → Option Leaf} {specs : List PageSpec} {s s' : LoadState τ}
  {all : Finset ℕ} {l4 va frame : ℕ} {content : ℕ → UInt8} {writable executable : Bool}

theorem Shows.push (h : Shows lookup specs s)
    (hp : LoadState.Pushed lookup s s' va frame content writable executable)
    (hfresh : frame ∉ s.pages.map (·.2)) :
    Shows lookup (specs ++ [⟨va, content, writable, executable⟩]) s' := by
  have hva : va ∉ specs.map (·.va) := by
    intro hmem
    obtain ⟨p, hp', rfl⟩ := List.mem_map.mp hmem
    obtain ⟨f, -, hsome, -⟩ := h.shown p hp'
    rw [hp.unmapped] at hsome
    cases hsome
  refine ⟨?_, ?_, ?_, ?_⟩
  · simp [hp.pages, h.pages]
  · rw [List.map_append, List.map_cons, List.map_nil]
    refine List.nodup_append.mpr ⟨h.nodup, List.nodup_singleton va, ?_⟩
    intro a ha b hb hab
    rw [hab, List.mem_singleton.mp hb] at ha
    exact hva ha
  · intro p hmem
    rcases List.mem_append.mp hmem with hold | hnew
    · obtain ⟨f, hf, hsome, hram⟩ := h.shown p hold
      have hne : p.va ≠ va := fun heq => hva (heq ▸ List.mem_map_of_mem hold)
      have hff : f ≠ frame := fun heq => hfresh (heq ▸ List.mem_map_of_mem hf)
      refine ⟨f, ?_, ?_, ?_⟩
      · rw [hp.pages]
        exact List.mem_append_left _ hf
      · rw [hp.table, Function.update_of_ne hne]
        exact hsome
      · rw [hp.others f hff]
        exact hram
    · obtain rfl := List.mem_singleton.mp hnew
      refine ⟨frame, ?_, ?_, hp.ram⟩
      · rw [hp.pages]
        simp
      · rw [hp.table, Function.update_self]
  · intro va' hva'
    simp only [List.map_append, List.map_cons, List.map_nil, List.mem_append, List.mem_singleton,
      not_or] at hva'
    rw [hp.table, Function.update_of_ne hva'.2]
    exact h.only va' hva'.1

theorem Built.push (h : Built lookup all l4 specs s)
    (hp : LoadState.Pushed lookup s s' va frame content writable executable)
    (hl : LoadState.Lends all [l4] s') :
    Built lookup all l4 (specs ++ [⟨va, content, writable, executable⟩]) s' := by
  have hfresh : frame ∉ s.pages.map (·.2) := by
    have hnodup := hl.nodup
    simp only [LoadState.owned, hp.pages, List.map_append, List.map_cons, List.map_nil] at hnodup
    intro hmem
    have hdup := (List.nodup_append.mp (List.nodup_append.mp hnodup).2.1).1
    exact (List.nodup_append.mp hdup).2.2 frame hmem frame (by simp) rfl
  exact ⟨h.shows.push hp hfresh, hl, hp.faults.trans h.faults⟩

end Build

section Segment

variable {m : PageMapper τ} {lookup : τ → ℕ → Option Leaf} {bytes : Bytes} {ph : ProgramHeader}
  {specs : List PageSpec} {s s' : LoadState τ} {all : Finset ℕ} {l4 : ℕ}

structure CopiesFit (bytes : Bytes) (ph : ProgramHeader) (done : List ℕ) : Prop where
  offset : done ≠ [] → 0 < ph.filesz → ph.pOffset.toNat ≤ bytes.length
  fits : ∀ va ∈ done, ph.copyLo va < ph.copyHi va →
    ph.pOffset.toNat + (ph.copyHi va - ph.start) ≤ bytes.length

theorem ProgramHeader.pages_head {va : ℕ} {rest : List ℕ} (h : ph.pages = va :: rest) :
    va = ph.pageStart := by
  simp only [ProgramHeader.pages] at h
  cases hn : (ph.stop - ph.pageStart + 4095) / frameSize with
  | zero => simp [hn] at h
  | succ n =>
    rw [hn, List.range_succ_eq_map, List.map_cons, Nat.zero_mul, Nat.add_zero] at h
    exact (List.cons.inj h).1.symm

theorem copy_first (hfile : 0 < ph.filesz) : ph.copyLo ph.pageStart < ph.copyHi ph.pageStart := by
  simp only [ProgramHeader.copyLo, ProgramHeader.copyHi, ProgramHeader.pageStart, frameSize]
  omega

theorem segment_offset {va : ℕ} {done rest : List ℕ} (hall : ph.pages = done ++ va :: rest)
    (hfit : CopiesFit bytes ph done) :
    va = ph.pageStart ∨ (0 < ph.filesz → ph.pOffset.toNat ≤ bytes.length) := by
  cases done with
  | nil => exact .inl (ProgramHeader.pages_head hall)
  | cons d ds => exact .inr (hfit.offset (by simp))

theorem segment_steps (hm : m.Lawful lookup) (h : ph.Accepted) (hlen : bytes.length < 2 ^ 63)
    (hs : Built lookup all l4 specs s) {pre post : List ℕ} (hall : ph.pages = pre ++ post)
    (hsteps : EarlyExit.Steps Res.ok (fun s va => s.mapPage m bytes ph va) pre s s') :
    Built lookup all l4 (specs ++ pre.map (ph.spec bytes)) s' ∧ CopiesFit bytes ph pre := by
  refine hsteps.invariant
    (I := fun done s => Built lookup all l4 (specs ++ done.map (ph.spec bytes)) s ∧
      CopiesFit bytes ph done) ?_ hall ⟨by simpa using hs, ⟨by simp, by simp⟩⟩
  rintro done va rest s₁ s₂ hall ⟨hb, hfit⟩ hpage
  have hva : va ∈ ph.pages := by simp [hall]
  obtain ⟨hcopy, frame, hpush⟩ :=
    LoadState.mapPage_ok hm h hva hlen (segment_offset hall hfit) hpage
  refine ⟨?_, ?_, ?_⟩
  · rw [List.map_append, ← List.append_assoc]
    exact hb.push hpush (hb.lends.mapPage hpage (by decide))
  · intro _ hfile
    cases done with
    | nil =>
      have hfirst := ProgramHeader.pages_head hall
      subst hfirst
      have hle := hcopy (copy_first hfile)
      omega
    | cons d ds => exact hfit.offset (by simp) hfile
  · intro va' hva'
    rcases List.mem_append.mp hva' with hold | hnew
    · exact hfit.fits va' hold
    · rw [List.mem_singleton.mp hnew]
      exact hcopy

theorem CopiesFit.filesz (h : ph.Accepted) (hfit : CopiesFit bytes ph ph.pages)
    (hfile : 0 < ph.filesz) : ph.pOffset.toNat + ph.filesz ≤ bytes.length := by
  have hsz := h.filesz_le
  have hmem : (ph.start + ph.filesz - 1) / frameSize * frameSize ∈ ph.pages := by
    rw [ProgramHeader.mem_pages]
    simp only [ProgramHeader.pageStart, ProgramHeader.stop, frameSize]
    omega
  have hhi :
      ph.copyHi ((ph.start + ph.filesz - 1) / frameSize * frameSize) = ph.start + ph.filesz := by
    simp only [ProgramHeader.copyHi, frameSize]
    omega
  have hlo :
      ph.copyLo ((ph.start + ph.filesz - 1) / frameSize * frameSize) < ph.start + ph.filesz := by
    simp only [ProgramHeader.copyLo, frameSize]
    omega
  have hle := hfit.fits _ hmem (by rw [hhi]; exact hlo)
  rw [hhi] at hle
  omega

theorem mapSegment_ok (hm : m.Lawful lookup) (hlen : bytes.length < 2 ^ 63)
    (hs : Built lookup all l4 specs s) (hmap : s.mapSegment m bytes ph = (.ok, s')) :
    ph.Accepted ∧ (0 < ph.filesz → ph.pOffset.toNat + ph.filesz ≤ bytes.length) ∧
      Built lookup all l4 (specs ++ ph.pages.map (ph.spec bytes)) s' := by
  by_cases h : ph.Accepted
  · rw [LoadState.mapSegment_accepted h] at hmap
    rcases EarlyExit.run_cases hmap with ⟨-, hsteps⟩ | ⟨done, va, rest, s₁, -, -, -, hr⟩
    · obtain ⟨hb, hfit⟩ := segment_steps hm h hlen hs (List.append_nil _).symm hsteps
      exact ⟨h, hfit.filesz h, hb⟩
    · exact absurd rfl hr
  · rw [LoadState.mapSegment_rejected h] at hmap
    cases hmap

def loads (phs : List ProgramHeader) : List ProgramHeader := phs.filter fun ph => ph.pType = ptLoad

def segmentSpecs (bytes : Bytes) (phs : List ProgramHeader) : List PageSpec :=
  (loads phs).flatMap fun ph => ph.pages.map (ph.spec bytes)

theorem loadSegments_ok (hm : m.Lawful lookup) (hlen : bytes.length < 2 ^ 63)
    {phs : List ProgramHeader} {ok ok' : Bool} (hs : Built lookup all l4 specs s)
    (hmap : s.loadSegments m bytes phs ok = (.ok, ok', s')) :
    (∀ ph ∈ loads phs, ph.Accepted ∧
      (0 < ph.filesz → ph.pOffset.toNat + ph.filesz ≤ bytes.length)) ∧
      Built lookup all l4 (specs ++ segmentSpecs bytes phs) s' := by
  induction phs generalizing s ok specs with
  | nil =>
    simp only [LoadState.loadSegments, Prod.mk.injEq] at hmap
    obtain ⟨-, -, rfl⟩ := hmap
    simpa [loads, segmentSpecs] using hs
  | cons ph phs ih =>
    simp only [LoadState.loadSegments] at hmap
    split_ifs at hmap with hdyn hload
    · cases hmap
    · have hskip : loads (ph :: phs) = loads phs := by simp [loads, hload]
      rw [segmentSpecs, hskip]
      exact ih hs hmap
    · rcases hseg : s.mapSegment m bytes ph with ⟨_ | _ | _, s₁⟩
      · simp only [hseg] at hmap
        obtain ⟨hacc, hfile, hb⟩ := mapSegment_ok hm hlen hs hseg
        obtain ⟨hrest, hb'⟩ := ih hb hmap
        have htake : loads (ph :: phs) = ph :: loads phs := by
          have hload : ph.pType = ptLoad := not_not.mp hload
          simp [loads, hload]
        rw [segmentSpecs, htake, List.flatMap_cons, ← List.append_assoc]
        refine ⟨?_, hb'⟩
        intro ph' hph'
        rcases List.mem_cons.mp hph' with rfl | hph'
        · exact ⟨hacc, hfile⟩
        · exact hrest ph' hph'
      · simp only [hseg] at hmap
        cases hmap
      · simp only [hseg] at hmap
        cases hmap

theorem stackPage_lt {i : ℕ} (hi : i < userStackPages) :
    userStackBase + i * frameSize < userCanonMax := by
  simp only [userStackPages, userStackBase, frameSize, userCanonMax] at *
  omega

theorem mapStackPages_ok (hm : m.Lawful lookup) {is : List ℕ} (his : ∀ i ∈ is, i < userStackPages)
    (hs : Built lookup all l4 specs s) (hmap : s.mapStackPages m is = (.ok, s')) :
    Built lookup all l4 (specs ++ is.map stackSpec) s' := by
  induction is generalizing s specs with
  | nil =>
    obtain ⟨-, rfl⟩ := Prod.mk.inj hmap
    simpa using hs
  | cons i is ih =>
    simp only [LoadState.mapStackPages] at hmap
    rcases hpage : s.mapStackPage m (userStackBase + i * frameSize) with ⟨_ | _ | _, s₁⟩
    · simp only [hpage] at hmap
      obtain ⟨frame, hpush⟩ :=
        LoadState.mapStackPage_ok hm (stackPage_lt (his i List.mem_cons_self)) hpage
      have hb := hs.push hpush (hs.lends.mapStackPage hpage (by decide))
      have hrest := ih (fun j hj => his j (List.mem_cons_of_mem i hj)) hb hmap
      rwa [List.append_assoc, List.singleton_append] at hrest
    · simp only [hpage] at hmap
      cases hmap
    · simp only [hpage] at hmap
      cases hmap

end Segment

section Image

variable {m : PageMapper τ} {lookup : τ → ℕ → Option Leaf} {minimalParse : Bytes → Option ElfFile}
  {bytes : Bytes} {pmm : Pmm} {ram : ℕ → ℕ → UInt8}

theorem built_root (hm : m.Lawful lookup) {l4 : ℕ} {pmm' : Pmm}
    (hal : pmm.alloc = (some l4, pmm')) :
    Built lookup (clearFrames pmm.bitmap) l4 [] ⟨pmm', ram, m.empty, [], [], []⟩ where
  shows := ⟨rfl, List.nodup_nil, by simp, fun va _ => hm.empty va⟩
  lends := (Pmm.Lent.nil pmm).alloc hal
  faults := rfl

def imageSpecs (bytes : Bytes) (phdrs : List ProgramHeader) : List PageSpec :=
  segmentSpecs bytes phdrs ++ (List.range userStackPages).map stackSpec

theorem load_ok (hm : m.Lawful lookup) (hlen : bytes.length < 2 ^ 63) {image : Image}
    {s : LoadState τ} (hload : load m minimalParse bytes pmm ram = (.ok image, s)) :
    ∃ file phdrs, Executable minimalParse bytes file phdrs ∧
      (∀ ph ∈ loads phdrs, ph.Accepted ∧
        (0 < ph.filesz → ph.pOffset.toNat + ph.filesz ≤ bytes.length)) ∧
      image.pages = s.pages ∧
      Built lookup (clearFrames pmm.bitmap) image.l4 (imageSpecs bytes phdrs) s := by
  rcases load_cases hload with ⟨hr, -⟩ | ⟨file, phdrs, l4, pmm', hfile, hal, hrest⟩
  · cases hr
  · simp only [loadPhdrs] at hrest
    rcases hrun : LoadState.loadSegments m bytes phdrs false ⟨pmm', ram, m.empty, [], [], []⟩ with
      ⟨_ | _ | _, _ | _, s₁⟩
    · simp [hrun] at hrest
    · simp only [hrun] at hrest
      rcases hstack : s₁.mapStack m with ⟨_ | _ | _, s₂⟩
      · simp only [hstack] at hrest
        split_ifs at hrest
        · obtain ⟨hacc, hb⟩ := loadSegments_ok hm hlen (built_root hm hal) hrun
          have hb' := mapStackPages_ok hm (fun i hi => List.mem_range.mp hi) hb hstack
          simp only [Prod.mk.injEq, Loaded.ok.injEq] at hrest
          obtain ⟨rfl, rfl⟩ := hrest
          exact ⟨file, phdrs, hfile, hacc, rfl, hb'⟩
        · cases hrest
      · simp [hstack] at hrest
      · simp [hstack] at hrest
    · simp [hrun] at hrest
    · simp [hrun] at hrest
    · simp [hrun] at hrest
    · simp [hrun] at hrest

def byteAt (lookup : τ → ℕ → Option Leaf) (s : LoadState τ) (a : ℕ) : Option UInt8 :=
  (lookup s.table (a - a % frameSize)).map fun leaf => s.ram leaf.frame (a % frameSize)

/-- The address space of a loaded image, segment by segment. -/
structure MemoryImage (lookup : τ → ℕ → Option Leaf) (bytes : Bytes) (phdrs : List ProgramHeader)
    (image : Image) (s : LoadState τ) : Prop where
  once : (image.pages.map (·.1)).Nodup
  mapped : ∀ va, (lookup s.table va).isSome = true ↔ va ∈ image.pages.map (·.1)
  file : ∀ ph ∈ phdrs, ph.pType = ptLoad → ∀ a, ph.start ≤ a → a < ph.start + ph.filesz →
    ∃ b, bytes[ph.pOffset.toNat + (a - ph.start)]? = some b ∧ byteAt lookup s a = some b
  zero : ∀ a b, byteAt lookup s a = some b →
    (∀ ph ∈ phdrs, ph.pType = ptLoad → ¬(ph.start ≤ a ∧ a < ph.start + ph.filesz)) → b = 0
  rights :
    ∀ ph ∈ phdrs, ph.pType = ptLoad → ∀ va ∈ ph.pages, ∃ leaf, lookup s.table va = some leaf ∧
    (leaf.writable = true ↔ ph.pFlags &&& pfW ≠ 0) ∧ (leaf.executable = true ↔
      ph.pFlags &&& pfX ≠ 0)
  stack : ∀ i < userStackPages, ∃ frame, lookup s.table (userStackBase + i * frameSize) =
    some ⟨frame, true, false⟩ ∧ ∀ j < frameSize, s.ram frame j = 0
  owner : ∀ va leaf, lookup s.table va = some leaf →
    (∃ ph ∈ phdrs, ph.pType = ptLoad ∧ va ∈ ph.pages) ∨ ∃ i < userStackPages, va =
      userStackBase + i * frameSize
  exclusive :
    ∀ va leaf, lookup s.table va = some leaf → ¬(leaf.writable = true ∧ leaf.executable = true)
  user_half : ∀ va leaf, lookup s.table va = some leaf → va + frameSize ≤ 2 ^ 47

section Facts

variable {phdrs : List ProgramHeader} {s : LoadState τ} {ph : ProgramHeader} {va : ℕ} {leaf : Leaf}

theorem mem_loads : ph ∈ loads phdrs ↔ ph ∈ phdrs ∧ ph.pType = ptLoad := by
  simp [loads]

theorem spec_mem (bytes : Bytes) (hph : ph ∈ phdrs) (hload : ph.pType = ptLoad)
    (hva : va ∈ ph.pages) : ph.spec bytes va ∈ imageSpecs bytes phdrs :=
  List.mem_append_left _ (List.mem_flatMap.mpr ⟨ph, mem_loads.mpr ⟨hph, hload⟩,
    List.mem_map_of_mem hva⟩)

theorem stackSpec_mem (bytes : Bytes) (phdrs : List ProgramHeader) {i : ℕ}
    (hi : i < userStackPages) : stackSpec i ∈ imageSpecs bytes phdrs :=
  List.mem_append_right _ (List.mem_map_of_mem (List.mem_range.mpr hi))

theorem mem_imageSpecs {p : PageSpec} (hp : p ∈ imageSpecs bytes phdrs) :
    (∃ ph ∈ phdrs, ph.pType = ptLoad ∧ ∃ va ∈ ph.pages, p = ph.spec bytes va) ∨
      ∃ i < userStackPages, p = stackSpec i := by
  rcases List.mem_append.mp hp with hseg | hstack
  · obtain ⟨ph, hph, hmem⟩ := List.mem_flatMap.mp hseg
    obtain ⟨va, hva, rfl⟩ := List.mem_map.mp hmem
    obtain ⟨hin, hload⟩ := mem_loads.mp hph
    exact .inl ⟨ph, hin, hload, va, hva, rfl⟩
  · obtain ⟨i, hi, rfl⟩ := List.mem_map.mp hstack
    exact .inr ⟨i, List.mem_range.mp hi, rfl⟩

theorem Shows.of_lookup {specs : List PageSpec} (h : Shows lookup specs s)
    (hleaf : lookup s.table va = some leaf) : ∃ p ∈ specs, p.va = va ∧ leaf.writable = p.writable ∧
    leaf.executable = p.executable ∧ ∀ i < frameSize, s.ram leaf.frame i = p.content i := by
  have hmem : va ∈ specs.map (·.va) := by
    by_contra hnot
    rw [h.only va hnot] at hleaf
    cases hleaf
  obtain ⟨p, hp, rfl⟩ := List.mem_map.mp hmem
  obtain ⟨frame, -, hlookup, hram⟩ := h.shown p hp
  rw [hleaf] at hlookup
  obtain rfl := Option.some.inj hlookup
  exact ⟨p, hp, rfl, rfl, rfl, hram⟩

theorem Shows.byteAt {specs : List PageSpec} (h : Shows lookup specs s) {p : PageSpec}
    (hp : p ∈ specs) {a : ℕ} (ha : a - a % frameSize = p.va) :
    byteAt lookup s a = some (p.content (a % frameSize)) := by
  obtain ⟨frame, -, hlookup, hram⟩ := h.shown p hp
  simp only [Task.byteAt, ha, hlookup, Option.map_some, hram _ (Nat.mod_lt a (by decide))]

theorem page_mem {a : ℕ} (hlo : ph.start ≤ a) (hhi : a < ph.stop) :
    a - a % frameSize ∈ ph.pages := by
  rw [ProgramHeader.mem_pages]
  simp only [ProgramHeader.pageStart, frameSize]
  omega

theorem memoryImage_of_built {all : Finset ℕ} {image : Image}
    (h : Built lookup all image.l4 (imageSpecs bytes phdrs) s) (hpages : image.pages = s.pages)
    (hacc : ∀ ph ∈ loads phdrs, ph.Accepted ∧
      (0 < ph.filesz → ph.pOffset.toNat + ph.filesz ≤ bytes.length)) :
    MemoryImage lookup bytes phdrs image s where
  once := by
    rw [hpages, h.shows.pages]
    exact h.shows.nodup
  mapped := by
    intro va
    rw [hpages, h.shows.pages]
    constructor
    · intro hsome
      obtain ⟨leaf, hleaf⟩ := Option.isSome_iff_exists.mp hsome
      obtain ⟨p, hp, rfl, -⟩ := h.shows.of_lookup hleaf
      exact List.mem_map_of_mem hp
    · intro hmem
      obtain ⟨p, hp, rfl⟩ := List.mem_map.mp hmem
      obtain ⟨frame, -, hlookup, -⟩ := h.shows.shown p hp
      rw [hlookup, Option.isSome_some]
  file := by
    intro ph hph hload a hlo hhi
    obtain ⟨hok, hfits⟩ := hacc ph (mem_loads.mpr ⟨hph, hload⟩)
    have hsz := hok.filesz_le
    have hle := hfits (by omega)
    have hmem := page_mem hlo (show a < ph.stop by simp only [ProgramHeader.stop]; omega)
    have hbyte := h.shows.byteAt (spec_mem bytes hph hload hmem) rfl
    have hsum : a - a % frameSize + a % frameSize = a := Nat.sub_add_cancel (Nat.mod_le a frameSize)
    have hidx : ph.pOffset.toNat + (a - ph.start) < bytes.length := by omega
    refine ⟨bytes[ph.pOffset.toNat + (a - ph.start)], List.getElem?_eq_getElem hidx, ?_⟩
    rw [hbyte]
    simp only [ProgramHeader.spec, ProgramHeader.pageByte, hsum, hlo, hhi, and_self, if_true,
      List.getD_eq_getElem?_getD, List.getElem?_eq_getElem hidx, Option.getD_some]
  zero := by
    intro a b hb hout
    obtain ⟨leaf, hleaf, rfl⟩ := Option.map_eq_some_iff.mp hb
    obtain ⟨p, hp, hva, -, -, hram⟩ := h.shows.of_lookup hleaf
    rw [hram _ (Nat.mod_lt a (by decide))]
    have hsum : a - a % frameSize + a % frameSize = a := Nat.sub_add_cancel (Nat.mod_le a frameSize)
    rcases mem_imageSpecs hp with ⟨ph, hph, hload, va, -, rfl⟩ | ⟨i, -, rfl⟩
    · have hva : va = a - a % frameSize := hva
      simp only [ProgramHeader.spec, ProgramHeader.pageByte, hva, hsum]
      rw [if_neg (hout ph hph hload)]
    · rfl
  rights := by
    intro ph hph hload va hva
    obtain ⟨frame, -, hlookup, -⟩ := h.shows.shown _ (spec_mem bytes hph hload hva)
    refine ⟨_, hlookup, ?_, ?_⟩
    · simp [ProgramHeader.spec, ProgramHeader.writable]
    · simp [ProgramHeader.spec, ProgramHeader.executable]
  stack := by
    intro i hi
    obtain ⟨frame, -, hlookup, hram⟩ := h.shows.shown _ (stackSpec_mem bytes phdrs hi)
    exact ⟨frame, hlookup, hram⟩
  owner := by
    intro va leaf hleaf
    obtain ⟨p, hp, rfl, -⟩ := h.shows.of_lookup hleaf
    rcases mem_imageSpecs hp with ⟨ph, hph, hload, va, hva, rfl⟩ | ⟨i, hi, rfl⟩
    · exact .inl ⟨ph, hph, hload, hva⟩
    · exact .inr ⟨i, hi, rfl⟩
  exclusive := by
    intro va leaf hleaf
    obtain ⟨p, hp, rfl, hw, hx, -⟩ := h.shows.of_lookup hleaf
    rw [hw, hx]
    rcases mem_imageSpecs hp with ⟨ph, hph, hload, va, hva, rfl⟩ | ⟨i, hi, rfl⟩
    · have hexcl := (hacc ph (mem_loads.mpr ⟨hph, hload⟩)).1.exclusive
      rw [Bool.and_eq_false_iff] at hexcl
      simp only [ProgramHeader.spec]
      rintro ⟨h₁, h₂⟩
      rcases hexcl with h₀ | h₀
      · rw [h₁] at h₀
        cases h₀
      · rw [h₂] at h₀
        cases h₀
    · simp [stackSpec]
  user_half := by
    intro va leaf hleaf
    obtain ⟨p, hp, rfl, -⟩ := h.shows.of_lookup hleaf
    rcases mem_imageSpecs hp with ⟨ph, hph, hload, va, hva, rfl⟩ | ⟨i, hi, rfl⟩
    · have hlt := LoadState.lt_userCanonMax (hacc ph (mem_loads.mpr ⟨hph, hload⟩)).1 hva
      have hmod := (ProgramHeader.mem_pages.mp hva).2.2
      simp only [ProgramHeader.spec, userCanonMax, frameSize] at hlt hmod ⊢
      omega
    · simp only [stackSpec, userStackPages, userStackBase, frameSize] at hi ⊢
      omega

end Facts

/-- A loaded image is the memory image of its file. -/
theorem load_memory_image (m : PageMapper τ) (lookup : τ → ℕ → Option Leaf) (hm : m.Lawful lookup)
    (minimalParse : Bytes → Option ElfFile) (bytes : Bytes) (hlen : bytes.length < 2 ^ 63)
    (pmm : Pmm) (ram : ℕ → ℕ → UInt8) (image : Image) (s : LoadState τ)
    (hload : load m minimalParse bytes pmm ram = (.ok image, s)) :
    ∃ file phdrs, Executable minimalParse bytes file phdrs ∧
    MemoryImage lookup bytes phdrs image s := by
  obtain ⟨file, phdrs, hfile, hacc, hpages, hb⟩ := load_ok hm hlen hload
  exact ⟨file, phdrs, hfile, memoryImage_of_built hb hpages hacc⟩

theorem load_memory_image_sample :
    ∃ image s, load PageTables.mapper parseElf64 (sampleElf 120 0x400078)
        (Pmm.init [⟨0, 0x18000, true⟩]) (fun _ _ => 0) = (.ok image, s) ∧
      ∃ file phdrs, Executable parseElf64 (sampleElf 120 0x400078) file phdrs ∧
        MemoryImage PageTables.leaf (sampleElf 120 0x400078) phdrs image s := by
  rcases hload : load PageTables.mapper parseElf64 (sampleElf 120 0x400078)
    (Pmm.init [⟨0, 0x18000, true⟩]) (fun _ _ => 0) with ⟨image | _ | _, s⟩
  · exact ⟨image, s, rfl, load_memory_image _ _ PageTables.mapper_lawful _ _ (by decide +kernel) _
      _ _ _ hload⟩
  · have hok : (load PageTables.mapper parseElf64 (sampleElf 120 0x400078)
      (Pmm.init [⟨0, 0x18000, true⟩]) (fun _ _ => 0)).1 ≠ .err := by decide +kernel
    rw [hload] at hok
    exact absurd rfl hok
  · have hok : (load PageTables.mapper parseElf64 (sampleElf 120 0x400078)
      (Pmm.init [⟨0, 0x18000, true⟩]) (fun _ _ => 0)).1 ≠ .panic := by decide +kernel
    rw [hload] at hok
    exact absurd rfl hok

end Image

end CoeleoOs.Task
