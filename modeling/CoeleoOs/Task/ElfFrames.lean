import CoeleoOs.Task.Elfload

/-!
# The frames of the loader

While an image is built its frames are lent: the root of its tables, the frames of
its pages and the frames the mapper asked for are distinct, were free before and
are all that is missing from the free frames. Each early exit of the loader gives
back what is lent, but for the two between the allocation of the root and the
first segment.
-/

namespace CoeleoOs.Mem.Pmm

/-- Of the free frames `all`, those of `l` are lent. -/
structure Lent (all : Finset ℕ) (l : List ℕ) (p : Pmm) : Prop where
  bound : ∀ f ∈ all, f < maxFrames
  nodup : l.Nodup
  subset : ∀ f ∈ l, f ∈ all
  clear : clearFrames p.bitmap = all \ l.toFinset

theorem alloc_eq_none_iff (p : Pmm) : p.alloc.1 = none ↔ clearFrames p.bitmap = ∅ := by
  rw [alloc, allocContiguous_none_iff (by decide), Finset.eq_empty_iff_forall_notMem]
  constructor
  · intro h f hf
    obtain ⟨hlt, hclear⟩ := mem_clearFrames.mp hf
    refine h f ⟨hlt, ?_⟩
    intro g hg hg'
    rwa [show g = f by omega]
  · intro h f hrun
    exact h f (hrun.subset (Finset.mem_Ico.mpr ⟨le_rfl, by omega⟩))

namespace Lent

variable {all : Finset ℕ} {l l' : List ℕ} {p p' : Pmm} {f : ℕ}

theorem nil (p : Pmm) : Lent (clearFrames p.bitmap) [] p where
  bound := fun _ hf => (mem_clearFrames.mp hf).1
  nodup := List.nodup_nil
  subset := by simp
  clear := by simp

theorem perm (h : Lent all l p) (hl : l.Perm l') : Lent all l' p where
  bound := h.bound
  nodup := hl.nodup_iff.mp h.nodup
  subset := fun f hf => h.subset f (hl.mem_iff.mpr hf)
  clear := by rw [h.clear, List.toFinset_eq_of_perm _ _ hl]

theorem alloc (h : Lent all l p) (hal : p.alloc = (some f, p')) : Lent all (f :: l) p' := by
  have hsome : (p.allocContiguous 1).1 = some f := congrArg Prod.fst hal
  have hpost := allocContiguous_clearFrames hsome
  have hclear : f ∈ clearFrames p.bitmap :=
    (allocContiguous_run hsome).subset (Finset.mem_Ico.mpr ⟨le_rfl, by omega⟩)
  rw [h.clear, Finset.mem_sdiff, List.mem_toFinset] at hclear
  refine ⟨h.bound, List.nodup_cons.mpr ⟨hclear.2, h.nodup⟩, ?_, ?_⟩
  · intro g hg
    rcases List.mem_cons.mp hg with rfl | hg
    · exact hclear.1
    · exact h.subset g hg
  · have hp' : (p.allocContiguous 1).2 = p' := congrArg Prod.snd hal
    rw [← hp', hpost, h.clear]
    ext g
    simp only [Finset.mem_sdiff, List.mem_toFinset, Finset.mem_Ico, List.mem_cons]
    have hg : f ≤ g ∧ g < f + 1 ↔ g = f := by omega
    rw [hg]
    tauto

theorem alloc_none (h : Lent all l p) (hal : p.alloc = (none, p')) : Lent all l p' := by
  have hp' : (p.allocContiguous 1).2 = p' := congrArg Prod.snd hal
  rw [← hp', allocContiguous_fail (congrArg Prod.fst hal)]
  exact h

theorem free (h : Lent all (f :: l) p) : Lent all l (p.free f) where
  bound := h.bound
  nodup := (List.nodup_cons.mp h.nodup).2
  subset := fun g hg => h.subset g (List.mem_cons_of_mem f hg)
  clear := by
    have hall := h.subset f List.mem_cons_self
    have hlt := h.bound f hall
    have hnot := (List.nodup_cons.mp h.nodup).1
    ext g
    rw [Pmm.free, freeContiguous_clearFrames, h.clear]
    simp only [Finset.mem_union, Finset.mem_sdiff, List.mem_toFinset, List.mem_cons,
      Finset.mem_filter, Finset.mem_Ico]
    have hone : f ≤ g ∧ g < f + 1 ↔ g = f := by omega
    rw [hone]
    by_cases hg : g = f
    · subst hg
      simp [hall, hlt, hnot]
    · simp [hg]

theorem free_all (h : Lent all (l ++ l') p) : Lent all l' (l.foldl Pmm.free p) := by
  induction l generalizing p with
  | nil => exact h
  | cons f l ih =>
    rw [List.foldl_cons]
    exact ih h.free

theorem length_le (h : Lent all l p) : l.length ≤ maxFrames := by
  have hsub : l.toFinset ⊆ Finset.range maxFrames := by
    intro f hf
    exact Finset.mem_range.mpr (h.bound f (h.subset f (List.mem_toFinset.mp hf)))
  calc l.length = l.toFinset.card := (List.toFinset_card_of_nodup h.nodup).symm
    _ ≤ (Finset.range maxFrames).card := Finset.card_le_card hsub
    _ = maxFrames := Finset.card_range maxFrames

theorem length_lt (h : Lent all l p) (hal : p.alloc.1 ≠ none) : l.length < maxFrames := by
  rcases hp : p.alloc with ⟨_ | f, p'⟩
  · rw [hp] at hal
    exact absurd rfl hal
  · exact (h.alloc hp).length_le

theorem exists_alloc (h : Lent all l p) (hlt : l.length < all.card) :
    ∃ f p', p.alloc = (some f, p') := by
  rcases hp : p.alloc with ⟨_ | f, p'⟩
  · have hnone := (alloc_eq_none_iff p).mp (congrArg Prod.fst hp)
    have hcard : l.toFinset.card < all.card := (List.toFinset_card_le l).trans_lt hlt
    have hpos : 0 < (all \ l.toFinset).card := by
      have hle := Finset.le_card_sdiff l.toFinset all
      omega
    rw [← h.clear, hnone] at hpos
    simp at hpos
  · exact ⟨f, p', rfl⟩

end Lent

end CoeleoOs.Mem.Pmm

namespace CoeleoOs.Task
open CoeleoOs.Lib CoeleoOs.Mem

theorem recAlloc_lent {all : Finset ℕ} {l : List ℕ} {st : Pmm × List ℕ}
    (h : Pmm.Lent all (l ++ st.2) st.1) :
    Pmm.Lent all (l ++ (recAlloc st).2.2) (recAlloc st).2.1 := by
  simp only [recAlloc]
  rcases hal : st.1.alloc with ⟨_ | f, pmm⟩
  · exact h.alloc_none hal
  · have hperm : (f :: (l ++ st.2)).Perm (l ++ (st.2 ++ [f])) := by
      rw [← List.append_assoc]
      exact (List.perm_append_singleton f (l ++ st.2)).symm
    exact (h.alloc hal).perm hperm

namespace LoadState

variable {τ : Type} {m : PageMapper τ} {all : Finset ℕ} {s s' : LoadState τ} {l : List ℕ}

def owned (s : LoadState τ) : List ℕ := s.pages.map (·.2) ++ s.ptFrames

def Lends (all : Finset ℕ) (l : List ℕ) (s : LoadState τ) : Prop :=
  Pmm.Lent all (l ++ s.owned) s.pmm

theorem Lends.congr (h : Lends all l s) (hpmm : s'.pmm = s.pmm) (hpages : s'.pages = s.pages)
    (hpt : s'.ptFrames = s.ptFrames) : Lends all l s' := by
  simp only [Lends, owned, hpmm, hpages, hpt] at h ⊢
  exact h

theorem Lends.mapUserIn {ok : Bool} {va frame : ℕ} {writable executable : Bool} (h : Lends all l s)
    (hmap : s.mapUserIn m va frame writable executable = (ok, s')) : Lends all l s' := by
  simp only [LoadState.mapUserIn] at hmap
  split at hmap
  · obtain ⟨-, rfl⟩ := Prod.mk.inj hmap
    exact h
  · obtain ⟨-, rfl⟩ := Prod.mk.inj hmap
    have hrun := Client.run_invariant recAlloc
      (I := fun st => Pmm.Lent all ((l ++ s.owned) ++ st.2) st.1) (fun st hst => recAlloc_lent hst)
      (m.mapTo s.table va ⟨frame, writable, executable⟩) (s := (s.pmm, []))
      (by rw [List.append_nil]; exact h)
    simpa only [Lends, owned, List.append_assoc] using hrun

theorem Lends.free {frame : ℕ} (h : Lends all (frame :: l) s) :
    Lends all l { s with pmm := s.pmm.free frame } := Pmm.Lent.free h

theorem Lends.mapFrame {r : Res} {va frame : ℕ} {writable executable : Bool}
    (h : Lends all (frame :: l) s) (hmap : s.mapFrame m va frame writable executable = (r, s'))
    (hr : r ≠ .panic) : Lends all l s' := by
  simp only [LoadState.mapFrame] at hmap
  split at hmap
  · rcases hin : s.mapUserIn m va frame writable executable with ⟨_ | _, s₁⟩
    · simp only [hin] at hmap
      obtain ⟨-, rfl⟩ := Prod.mk.inj hmap
      exact (h.mapUserIn hin).free
    · simp only [hin] at hmap
      obtain ⟨-, rfl⟩ := Prod.mk.inj hmap
      have hlent : Pmm.Lent all (frame :: l ++ s₁.owned) s₁.pmm := h.mapUserIn hin
      refine hlent.perm ?_
      simp only [owned, List.map_append, List.map_cons, List.map_nil, List.append_assoc,
        List.cons_append, List.nil_append]
      rw [← List.append_assoc, ← List.append_assoc]
      exact List.perm_middle.symm
  · obtain ⟨rfl, -⟩ := Prod.mk.inj hmap
    exact absurd rfl hr

structure SameFrames (s s' : LoadState τ) : Prop where
  pmm : s'.pmm = s.pmm
  pages : s'.pages = s.pages
  ptFrames : s'.ptFrames = s.ptFrames
  table : s'.table = s.table

theorem SameFrames.rfl' (s : LoadState τ) : SameFrames s s := ⟨rfl, rfl, rfl, rfl⟩

theorem SameFrames.trans {s s₁ s₂ : LoadState τ} (h : SameFrames s s₁) (h' : SameFrames s₁ s₂) :
    SameFrames s s₂ :=
  ⟨h'.pmm.trans h.pmm, h'.pages.trans h.pages, h'.ptFrames.trans h.ptFrames, h'.table.trans h.table⟩

theorem Lends.same (h : Lends all l s) (hsame : SameFrames s s') : Lends all l s' :=
  h.congr hsame.pmm hsame.pages hsame.ptFrames

theorem add_same (s : LoadState τ) (a b : ℕ) : SameFrames s (s.add a b).2 := by
  simp only [add]
  split
  · exact .rfl' s
  · exact ⟨rfl, rfl, rfl, rfl⟩

theorem copyPage_same (bytes : Bytes) (ph : ProgramHeader) (s : LoadState τ) (va frame : ℕ) :
    SameFrames s (s.copyPage bytes ph va frame).2 := by
  have h₁ := (add_same s va frameSize).trans (add_same (s.add va frameSize).2 ph.start ph.filesz)
  simp only [copyPage]
  split
  · have h₂ := h₁.trans (add_same _ ph.pOffset.toNat (max ph.start va - ph.start))
    split
    · exact h₂.trans (add_same _ _ _)
    · split
      · exact (h₂.trans (add_same _ _ _)).trans ⟨rfl, rfl, rfl, rfl⟩
      · exact (h₂.trans (add_same _ _ _)).trans ⟨rfl, rfl, rfl, rfl⟩
  · exact h₁

theorem Lends.alloc {frame : ℕ} {pmm : Pmm} {ram : ℕ → ℕ → UInt8} (h : Lends all l s)
    (hal : s.pmm.alloc = (some frame, pmm)) :
    Lends all (frame :: l) { s with pmm := pmm, ram := ram } := Pmm.Lent.alloc h hal

section Run

variable {r : Res} {bytes : Bytes} {ph : ProgramHeader} {va : ℕ}

theorem Lends.mapPage (h : Lends all l s) (hmap : s.mapPage m bytes ph va = (r, s'))
    (hr : r ≠ .panic) : Lends all l s' := by
  simp only [LoadState.mapPage] at hmap
  rcases hal : s.pmm.alloc with ⟨_ | frame, pmm⟩
  · simp only [hal] at hmap
    obtain ⟨-, rfl⟩ := Prod.mk.inj hmap
    exact Pmm.Lent.alloc_none h hal
  · simp only [hal] at hmap
    have hsame :=
      copyPage_same bytes ph { s with pmm := pmm, ram := zeroFrame s.ram frame } va frame
    rcases hcopy : copyPage bytes ph { s with pmm := pmm, ram := zeroFrame s.ram frame } va frame
        with ⟨r₁, s₁⟩
    rw [hcopy] at hsame
    have hlent := (h.alloc hal).same hsame
    simp only [hcopy] at hmap
    cases r₁ with
    | ok => exact hlent.mapFrame hmap hr
    | err =>
      obtain ⟨-, rfl⟩ := Prod.mk.inj hmap
      exact hlent.free
    | panic =>
      obtain ⟨rfl, -⟩ := Prod.mk.inj hmap
      exact absurd rfl hr

theorem Lends.mapPages {fuel stop : ℕ} (h : Lends all l s)
    (hmap : s.mapPages m bytes ph stop fuel va = (r, s')) (hr : r ≠ .panic) : Lends all l s' := by
  induction fuel generalizing s va with
  | zero =>
    obtain ⟨-, rfl⟩ := Prod.mk.inj hmap
    exact h
  | succ fuel ih =>
    simp only [LoadState.mapPages] at hmap
    split at hmap
    · rcases hpage : s.mapPage m bytes ph va with ⟨_ | _ | _, s₁⟩
      · simp only [hpage] at hmap
        exact ih (h.mapPage hpage (by decide)) hmap
      · simp only [hpage] at hmap
        obtain ⟨-, rfl⟩ := Prod.mk.inj hmap
        exact h.mapPage hpage (by decide)
      · simp only [hpage] at hmap
        obtain ⟨rfl, -⟩ := Prod.mk.inj hmap
        exact absurd rfl hr
    · obtain ⟨-, rfl⟩ := Prod.mk.inj hmap
      exact h

theorem Lends.mapSegment (h : Lends all l s) (hmap : s.mapSegment m bytes ph = (r, s'))
    (hr : r ≠ .panic) : Lends all l s' := by
  simp only [LoadState.mapSegment] at hmap
  split_ifs at hmap
  · obtain ⟨-, rfl⟩ := Prod.mk.inj hmap
    exact h
  · obtain ⟨-, rfl⟩ := Prod.mk.inj hmap
    exact h
  · obtain ⟨-, rfl⟩ := Prod.mk.inj hmap
    exact h
  · obtain ⟨-, rfl⟩ := Prod.mk.inj hmap
    exact h
  · exact h.mapPages hmap hr

theorem Lends.mapStackPage (h : Lends all l s) (hmap : s.mapStackPage m va = (r, s'))
    (hr : r ≠ .panic) : Lends all l s' := by
  simp only [LoadState.mapStackPage] at hmap
  rcases hal : s.pmm.alloc with ⟨_ | frame, pmm⟩
  · simp only [hal] at hmap
    obtain ⟨-, rfl⟩ := Prod.mk.inj hmap
    exact Pmm.Lent.alloc_none h hal
  · simp only [hal] at hmap
    exact (h.alloc hal).mapFrame hmap hr

theorem Lends.mapStackPages {is : List ℕ} (h : Lends all l s)
    (hmap : s.mapStackPages m is = (r, s')) (hr : r ≠ .panic) : Lends all l s' := by
  induction is generalizing s with
  | nil =>
    obtain ⟨-, rfl⟩ := Prod.mk.inj hmap
    exact h
  | cons i is ih =>
    simp only [LoadState.mapStackPages] at hmap
    rcases hpage : s.mapStackPage m (userStackBase + i * frameSize) with ⟨_ | _ | _, s₁⟩
    · simp only [hpage] at hmap
      exact ih (h.mapStackPage hpage (by decide)) hmap
    · simp only [hpage] at hmap
      obtain ⟨-, rfl⟩ := Prod.mk.inj hmap
      exact h.mapStackPage hpage (by decide)
    · simp only [hpage] at hmap
      obtain ⟨rfl, -⟩ := Prod.mk.inj hmap
      exact absurd rfl hr

theorem Lends.loadSegments {phs : List ProgramHeader} {ok ok' : Bool} (h : Lends all l s)
    (hmap : s.loadSegments m bytes phs ok = (r, ok', s')) (hr : r ≠ .panic) : Lends all l s' := by
  induction phs generalizing s ok with
  | nil =>
    simp only [LoadState.loadSegments, Prod.mk.injEq] at hmap
    rw [← hmap.2.2]
    exact h
  | cons ph phs ih =>
    simp only [LoadState.loadSegments] at hmap
    split_ifs at hmap
    · simp only [Prod.mk.injEq] at hmap
      rw [← hmap.2.2]
      exact h
    · exact ih h hmap
    · rcases hseg : s.mapSegment m bytes ph with ⟨_ | _ | _, s₁⟩
      · simp only [hseg] at hmap
        exact ih (h.mapSegment hseg (by decide)) hmap
      · simp only [hseg, Prod.mk.injEq] at hmap
        rw [← hmap.2.2]
        exact h.mapSegment hseg (by decide)
      · simp only [hseg, Prod.mk.injEq] at hmap
        exact absurd hmap.1.symm hr

end Run

theorem Lends.freeImage {l4 : ℕ} (h : Lends all [l4] s) :
    clearFrames (freeImage s.pmm l4 s.pages s.ptFrames).bitmap = all := by
  have hperm : ([l4] ++ s.owned).Perm (s.pages.map (·.2) ++ (s.ptFrames ++ [l4])) := by
    rw [← List.append_assoc]
    exact List.perm_append_comm
  have hlent := (h.perm hperm).free_all.free_all.free
  have hclear := hlent.clear
  rw [List.foldl_map, List.toFinset_nil, Finset.sdiff_empty] at hclear
  exact hclear

end LoadState

section Frames

variable {τ : Type} (m : PageMapper τ) (minimalParse : Bytes → Option ElfFile) (bytes : Bytes)
  (pmm : Pmm) (ram : ℕ → ℕ → UInt8)

def FramesKept : Prop :=
  match load m minimalParse bytes pmm ram with
  | (.err, s) => clearFrames s.pmm.bitmap = clearFrames pmm.bitmap
  | (.ok image, s) => clearFrames (unload s.pmm image).bitmap = clearFrames pmm.bitmap
  | (.panic, _) => True

def ReachesSegments : Prop :=
  ∃ file, minimalParse bytes = some file ∧
    (file.eMachine = emX8664 → file.eType = etExec → file.segments ≠ none)

variable {m minimalParse bytes pmm ram}

theorem framesKept_of_segments {l4 : ℕ} {pmm' : Pmm} {file : ElfFile} {phdrs : List ProgramHeader}
    (hal : pmm.alloc = (some l4, pmm')) (hparse : minimalParse bytes = some file)
    (hfile : ¬(file.eMachine ≠ emX8664 ∨ file.eType ≠ etExec))
    (hsegs : file.segments = some phdrs) : FramesKept m minimalParse bytes pmm ram := by
  have h₀ :
      LoadState.Lends (clearFrames pmm.bitmap) [l4]
        (⟨pmm', ram, m.empty, [], [], []⟩ : LoadState τ) :=
    (Pmm.Lent.nil pmm).alloc hal
  push Not at hfile
  simp only [FramesKept, load_executable ⟨hparse, hfile.1, hfile.2, hsegs⟩ hal, loadPhdrs]
  rcases hload :
      LoadState.loadSegments m bytes phdrs false ⟨pmm', ram, m.empty, [], [], []⟩ with ⟨r, ok, s₁⟩
  cases r with
  | panic => trivial
  | err => exact (h₀.loadSegments hload (by decide)).freeImage
  | ok =>
    have h₁ := h₀.loadSegments hload (by decide)
    cases ok with
    | false => exact h₁.freeImage
    | true =>
      simp only
      rcases hstack : s₁.mapStack m with ⟨r, s₂⟩
      cases r with
      | panic => trivial
      | err => exact (h₁.mapStackPages hstack (by decide)).freeImage
      | ok =>
        by_cases hentry : Vmm.canonical file.eEntry.toNat = true
        · simp only [hentry, if_true]
          exact (h₁.mapStackPages hstack (by decide)).freeImage
        · simp only [hentry]
          trivial

theorem lent_singleton_ne {all : Finset ℕ} {f : ℕ} {p : Pmm} (h : Pmm.Lent all [f] p) :
    clearFrames p.bitmap ≠ all := by
  intro heq
  have hin := h.subset f List.mem_cons_self
  have hclear := h.clear
  rw [heq] at hclear
  rw [hclear] at hin
  simp at hin

theorem not_framesKept_of_parse (hparse : minimalParse bytes = none) {l4 : ℕ} {pmm' : Pmm}
    (hal : pmm.alloc = (some l4, pmm')) : ¬FramesKept m minimalParse bytes pmm ram := by
  simp only [FramesKept, load, hal, hparse]
  exact lent_singleton_ne ((Pmm.Lent.nil pmm).alloc hal)

/-- The loader neither loses nor frees twice exactly when there is no frame for the root of
the tables or the file gets as far as its segments or the check of its machine. -/
theorem load_keeps_frames_iff (m : PageMapper τ) (minimalParse : Bytes → Option ElfFile)
    (bytes : Bytes) (pmm : Pmm) (ram : ℕ → ℕ → UInt8) : FramesKept m minimalParse bytes pmm ram ↔
      clearFrames pmm.bitmap = ∅ ∨ ReachesSegments minimalParse bytes := by
  rw [← Pmm.alloc_eq_none_iff]
  rcases hal : pmm.alloc with ⟨_ | l4, pmm'⟩
  · have hsame : (pmm.allocContiguous 1).2 = pmm := Pmm.allocContiguous_fail (congrArg Prod.fst hal)
    have hpmm : pmm' = pmm := (congrArg Prod.snd hal).symm.trans hsame
    simp [FramesKept, load, hal, hpmm]
  · have hlent : Pmm.Lent (clearFrames pmm.bitmap) [l4] pmm' := (Pmm.Lent.nil pmm).alloc hal
    simp only [reduceCtorEq, false_or, ReachesSegments]
    cases hparse : minimalParse bytes with
    | none => exact iff_of_false (not_framesKept_of_parse hparse hal) (by simp)
    | some file =>
      simp only [Option.some.injEq, exists_eq_left']
      by_cases hfile : file.eMachine ≠ emX8664 ∨ file.eType ≠ etExec
      · have hfree := hlent.free.clear
        rw [List.toFinset_nil, Finset.sdiff_empty] at hfree
        have hkept : FramesKept m minimalParse bytes pmm ram := by
          simp only [FramesKept, load, hal, hparse, hfile, if_true]
          exact hfree
        refine iff_of_true hkept ?_
        intro hmachine htype
        exact absurd hfile (by simp [hmachine, htype])
      · push Not at hfile
        cases hsegs : file.segments with
        | none => simp [FramesKept, load, hal, hparse, hfile, hsegs, lent_singleton_ne hlent]
        | some phdrs =>
          refine iff_of_true (framesKept_of_segments hal hparse ?_ hsegs) (by simp)
          simp [hfile]

def boundless : PageMapper Unit := ⟨(), fun _ _ _ => .done (true, ())⟩

/-- With one page of memory, an empty file costs the frame of the root table. -/
theorem load_leaks_root_of_empty_file :
    ¬FramesKept boundless parseElf64 [] (Pmm.init [⟨0x100000, 4096, true⟩]) (fun _ _ => 0) := by
  have hfree : (256 : ℕ) ∈ clearFrames (Pmm.init [⟨0x100000, 4096, true⟩]).bitmap :=
    (Pmm.init_clearFrames _ _).mpr ⟨by decide, _, List.mem_cons_self, rfl, by decide, by decide⟩
  rcases hal : (Pmm.init [⟨0x100000, 4096, true⟩]).alloc with ⟨_ | l4, pmm'⟩
  · have hnone := (Pmm.alloc_eq_none_iff _).mp (congrArg Prod.fst hal)
    rw [hnone] at hfree
    simp at hfree
  · exact not_framesKept_of_parse rfl hal

end Frames

end CoeleoOs.Task
