import CoeleoOs.Task.Argv
import CoeleoOs.Task.ElfSegment
import CoeleoOs.Task.PageTables

/-!
# Memory of the processes

The frame allocator hands frames to address spaces, through the loader, and to the
drivers, in runs. Over any history of loads, unloads, stores of programs, argument
vectors and device writes the owners hold different frames, and what one of them
does is never seen in the memory of another.
-/

namespace CoeleoOs.Mem.Pmm.Lent

variable {all : Finset ℕ} {l : List ℕ} {p p' : Pmm} {start n : ℕ}

theorem allocRun (h : Lent all l p) (hal : p.allocContiguous n = (some start, p')) :
    Lent all (List.range' start n ++ l) p' := by
  have hsome : (p.allocContiguous n).1 = some start := congrArg Prod.fst hal
  have hpost := allocContiguous_clearFrames hsome
  rw [congrArg Prod.snd hal] at hpost
  have hclear : ∀ f ∈ List.range' start n, f ∈ all ∧ f ∉ l := by
    intro f hf
    have hmem := (allocContiguous_run hsome).subset (Finset.mem_Ico.mpr (List.mem_range'_1.mp hf))
    rwa [h.clear, Finset.mem_sdiff, List.mem_toFinset] at hmem
  refine ⟨h.bound, List.nodup_append'.mpr ⟨List.nodup_range', h.nodup, ?_⟩, ?_, ?_⟩
  · intro f hf
    exact (hclear f hf).2
  · intro f hf
    rcases List.mem_append.mp hf with hf | hf
    · exact (hclear f hf).1
    · exact h.subset f hf
  · rw [hpost, h.clear]
    ext f
    simp only [Finset.mem_sdiff, Finset.mem_Ico, List.mem_toFinset, List.mem_append,
      List.mem_range'_1]
    tauto

theorem freeRun (h : Lent all (List.range' start n ++ l) p) :
    Lent all l (p.freeContiguous start n) where
  bound := h.bound
  nodup := (List.nodup_append'.mp h.nodup).2.1
  subset := fun f hf => h.subset f (List.mem_append_right _ hf)
  clear := by
    have hdisj := (List.nodup_append'.mp h.nodup).2.2
    ext f
    rw [freeContiguous_clearFrames, h.clear]
    simp only [Finset.mem_union, Finset.mem_sdiff, List.mem_toFinset, List.mem_append,
      List.mem_range'_1, Finset.mem_filter, Finset.mem_Ico]
    by_cases hf : start ≤ f ∧ f < start + n
    · have hrun : f ∈ List.range' start n := List.mem_range'_1.mpr hf
      have hall := h.subset f (List.mem_append_left _ hrun)
      have hnot : f ∉ l := hdisj hrun
      have hlt := h.bound f hall
      tauto
    · tauto

end CoeleoOs.Mem.Pmm.Lent

namespace CoeleoOs.Task
open CoeleoOs.Lib CoeleoOs.Mem

variable {τ : Type}

namespace LoadState

section Invariant

variable {m : PageMapper τ} {bytes : Bytes} {I : LoadState τ → Prop} {r : Res} {s s' : LoadState τ}

theorem mapSegment_invariant
    (hpage : ∀ ph s va r s', I s → s.mapPage m bytes ph va = (r, s') → r ≠ .panic → I s')
    {ph : ProgramHeader} (hs : I s) (hmap : s.mapSegment m bytes ph = (r, s'))
    (hr : r ≠ .panic) : I s' := by
  by_cases h : ph.Accepted
  · rw [mapSegment_accepted h] at hmap
    generalize ph.pages = pages at hmap
    induction pages generalizing s with
    | nil =>
      obtain ⟨-, rfl⟩ := Prod.mk.inj hmap
      exact hs
    | cons va pages ih =>
      rcases hcall : s.mapPage m bytes ph va with ⟨r₁, s₁⟩
      by_cases hok : r₁ = .ok
      · subst hok
        rw [EarlyExit.run_cons_ok hcall] at hmap
        exact ih (hpage ph s va .ok s₁ hs hcall (by decide)) hmap
      · rw [EarlyExit.run_cons_stop hcall hok] at hmap
        obtain ⟨rfl, rfl⟩ := Prod.mk.inj hmap
        exact hpage ph s va r₁ s₁ hs hcall hr
  · rw [mapSegment_rejected h] at hmap
    obtain ⟨-, rfl⟩ := Prod.mk.inj hmap
    exact hs

theorem loadSegments_invariant
    (hpage : ∀ ph s va r s', I s → s.mapPage m bytes ph va = (r, s') → r ≠ .panic → I s')
    {phs : List ProgramHeader} {ok ok' : Bool} (hs : I s)
    (hmap : s.loadSegments m bytes phs ok = (r, ok', s')) (hr : r ≠ .panic) : I s' := by
  induction phs generalizing s ok with
  | nil =>
    simp only [loadSegments, Prod.mk.injEq] at hmap
    rw [← hmap.2.2]
    exact hs
  | cons ph phs ih =>
    simp only [loadSegments] at hmap
    split_ifs at hmap
    · simp only [Prod.mk.injEq] at hmap
      rw [← hmap.2.2]
      exact hs
    · exact ih hs hmap
    · rcases hseg : s.mapSegment m bytes ph with ⟨_ | _ | _, s₁⟩
      · simp only [hseg] at hmap
        exact ih (mapSegment_invariant hpage hs hseg (by decide)) hmap
      · simp only [hseg, Prod.mk.injEq] at hmap
        rw [← hmap.2.2]
        exact mapSegment_invariant hpage hs hseg (by decide)
      · simp only [hseg, Prod.mk.injEq] at hmap
        exact absurd hmap.1.symm hr

theorem mapStackPages_invariant
    (hpage : ∀ s va r s', I s → s.mapStackPage m va = (r, s') → r ≠ .panic → I s')
    {is : List ℕ} (hs : I s) (hmap : s.mapStackPages m is = (r, s')) (hr : r ≠ .panic) : I s' := by
  induction is generalizing s with
  | nil =>
    obtain ⟨-, rfl⟩ := Prod.mk.inj hmap
    exact hs
  | cons i is ih =>
    simp only [mapStackPages] at hmap
    rcases hcall : s.mapStackPage m (userStackBase + i * frameSize) with ⟨_ | _ | _, s₁⟩
    · simp only [hcall] at hmap
      exact ih (hpage s _ .ok s₁ hs hcall (by decide)) hmap
    · simp only [hcall] at hmap
      obtain ⟨-, rfl⟩ := Prod.mk.inj hmap
      exact hpage s _ .err s₁ hs hcall (by decide)
    · simp only [hcall] at hmap
      obtain ⟨rfl, -⟩ := Prod.mk.inj hmap
      exact absurd rfl hr

end Invariant

theorem copyPage_ram {bytes : Bytes} {ph : ProgramHeader} {s : LoadState τ} {va frame f : ℕ}
    (hf : f ≠ frame) : (s.copyPage bytes ph va frame).2.ram f = s.ram f := by
  have hadd : ∀ (s : LoadState τ) a b, (s.add a b).2.ram = s.ram := by
    intro s a b
    simp only [add]
    split <;> rfl
  simp only [copyPage]
  split
  · split
    · simp only [hadd]
    · split
      · simp only [fault, hadd]
      · simp only [copyIntoFrame, Function.update_of_ne hf, hadd]
  · simp only [hadd]

section Lawful

variable {m : PageMapper τ} {lookup : τ → ℕ → Option Leaf} {r : Res} {s s' : LoadState τ}

theorem mapUserIn_refused (hm : m.Lawful lookup) {va frame : ℕ} {writable executable : Bool}
    (hmap : s.mapUserIn m va frame writable executable = (false, s')) :
    lookup s'.table = lookup s.table := by
  simp only [mapUserIn] at hmap
  split at hmap
  · obtain ⟨-, rfl⟩ := Prod.mk.inj hmap
    rfl
  · have hends :=
      Client.run_ends recAlloc (m.mapTo s.table va ⟨frame, writable, executable⟩) (s.pmm, [])
    obtain ⟨hfalse, rfl⟩ := Prod.mk.inj hmap
    rcases hrun :
        (Client.run recAlloc (m.mapTo s.table va ⟨frame, writable, executable⟩) (s.pmm, [])).1
          with ⟨ok, t⟩
    rw [hrun] at hends hfalse
    subst hfalse
    exact hm.map_err hends

theorem mapFrame_cases (hm : m.Lawful lookup) {va frame : ℕ} {writable executable : Bool}
    (hmap : s.mapFrame m va frame writable executable = (r, s')) (hr : r ≠ .panic) :
    s'.ram = s.ram ∧
      ((s'.pages = s.pages ++ [(va, frame)] ∧
          lookup s'.table = Function.update (lookup s.table) va
            (some ⟨frame, writable, executable⟩)) ∨
        (s'.pages = s.pages ∧ lookup s'.table = lookup s.table)) := by
  simp only [mapFrame] at hmap
  split at hmap
  · rcases hin : s.mapUserIn m va frame writable executable with ⟨ok, s₁⟩
    obtain ⟨hpages, hram, -, hok⟩ := mapUserIn_spec hm hin
    cases ok with
    | true =>
      simp only [hin] at hmap
      obtain ⟨-, rfl⟩ := Prod.mk.inj hmap
      exact ⟨hram, .inl ⟨by simp only [hpages], (hok rfl).2⟩⟩
    | false =>
      have htable := mapUserIn_refused hm hin
      simp only [hin] at hmap
      obtain ⟨-, rfl⟩ := Prod.mk.inj hmap
      exact ⟨hram, .inr ⟨hpages, htable⟩⟩
  · obtain ⟨rfl, -⟩ := Prod.mk.inj hmap
    exact absurd rfl hr

/-- A load under way: it translates to its own frames only, and the lent frames `outer` are as in
`ram`. -/
structure Within (lookup : τ → ℕ → Option Leaf) (all : Finset ℕ) (outer : List ℕ)
    (ram : ℕ → ℕ → UInt8) (s : LoadState τ) : Prop where
  lends : Lends all outer s
  outside : ∀ f ∈ outer, s.ram f = ram f
  leaves : ∀ va leaf, lookup s.table va = some leaf → leaf.frame ∈ s.pages.map (·.2)

variable {all : Finset ℕ} {outer : List ℕ} {ram : ℕ → ℕ → UInt8}

theorem Within.mapFrame (hm : m.Lawful lookup) {s₀ : LoadState τ} {va frame : ℕ}
    {writable executable : Bool} (hs : Within lookup all outer ram s₀) (htable : s.table = s₀.table)
    (hpages : s.pages = s₀.pages) (hram : ∀ f ∈ outer, s.ram f = s₀.ram f)
    (hlends : Lends all outer s') (hmap : s.mapFrame m va frame writable executable = (r, s'))
    (hr : r ≠ .panic) : Within lookup all outer ram s' where
  lends := hlends
  outside := by
    intro f hf
    rw [(mapFrame_cases hm hmap hr).1, hram f hf]
    exact hs.outside f hf
  leaves := by
    intro va' leaf hleaf
    rcases (mapFrame_cases hm hmap hr).2 with ⟨hpush, hlook⟩ | ⟨hsame, hlook⟩
    · rw [hpush, hpages, List.map_append, List.mem_append]
      rw [hlook, htable] at hleaf
      by_cases hva : va' = va
      · subst hva
        rw [Function.update_self, Option.some.injEq] at hleaf
        subst hleaf
        exact .inr (List.mem_singleton.mpr rfl)
      · rw [Function.update_of_ne hva] at hleaf
        exact .inl (hs.leaves va' leaf hleaf)
    · rw [hlook, htable] at hleaf
      rw [hsame, hpages]
      exact hs.leaves va' leaf hleaf

theorem Within.mapPage (hm : m.Lawful lookup) {bytes : Bytes} {ph : ProgramHeader} {va : ℕ}
    (hs : Within lookup all outer ram s) (hmap : s.mapPage m bytes ph va = (r, s'))
    (hr : r ≠ .panic) : Within lookup all outer ram s' := by
  have hlends := hs.lends.mapPage hmap hr
  simp only [LoadState.mapPage] at hmap
  rcases hal : s.pmm.alloc with ⟨_ | frame, pmm⟩
  · simp only [hal] at hmap
    obtain ⟨-, rfl⟩ := Prod.mk.inj hmap
    exact ⟨hlends, hs.outside, hs.leaves⟩
  · have hlent : Pmm.Lent all (frame :: (outer ++ s.owned)) pmm := Pmm.Lent.alloc hs.lends hal
    have hnew : ∀ f ∈ outer, f ≠ frame := by
      intro f hf heq
      subst heq
      exact (List.nodup_cons.mp hlent.nodup).1 (List.mem_append_left _ hf)
    simp only [hal] at hmap
    have hsame :=
      copyPage_same bytes ph { s with pmm := pmm, ram := zeroFrame s.ram frame } va frame
    have hcopied : ∀ f ∈ outer,
        (copyPage bytes ph { s with pmm := pmm, ram := zeroFrame s.ram frame } va frame).2.ram f =
          s.ram f := by
      intro f hf
      rw [copyPage_ram (hnew f hf)]
      exact Function.update_of_ne (hnew f hf) _ _
    rcases hcopy : copyPage bytes ph { s with pmm := pmm, ram := zeroFrame s.ram frame } va frame
        with ⟨r₁, s₁⟩
    rw [hcopy] at hsame hcopied
    simp only [hcopy] at hmap
    cases r₁ with
    | ok => exact hs.mapFrame hm hsame.table hsame.pages hcopied hlends hmap hr
    | err =>
      obtain ⟨-, rfl⟩ := Prod.mk.inj hmap
      refine ⟨hlends, ?_, ?_⟩
      · intro f hf
        exact (hcopied f hf).trans (hs.outside f hf)
      · intro va' leaf hleaf
        have htable : s₁.table = s.table := hsame.table
        have hpages : s₁.pages = s.pages := hsame.pages
        simp only [htable] at hleaf
        simp only [hpages]
        exact hs.leaves va' leaf hleaf
    | panic =>
      obtain ⟨rfl, -⟩ := Prod.mk.inj hmap
      exact absurd rfl hr

theorem Within.mapStackPage (hm : m.Lawful lookup) {va : ℕ} (hs : Within lookup all outer ram s)
    (hmap : s.mapStackPage m va = (r, s')) (hr : r ≠ .panic) : Within lookup all outer ram s' := by
  have hlends := hs.lends.mapStackPage hmap hr
  simp only [LoadState.mapStackPage] at hmap
  rcases hal : s.pmm.alloc with ⟨_ | frame, pmm⟩
  · simp only [hal] at hmap
    obtain ⟨-, rfl⟩ := Prod.mk.inj hmap
    exact ⟨hlends, hs.outside, hs.leaves⟩
  · have hlent : Pmm.Lent all (frame :: (outer ++ s.owned)) pmm := Pmm.Lent.alloc hs.lends hal
    simp only [hal] at hmap
    refine hs.mapFrame (s := { s with pmm := pmm, ram := zeroFrame s.ram frame }) hm rfl rfl ?_
      hlends hmap hr
    intro f hf
    refine Function.update_of_ne ?_ _ _
    intro heq
    subst heq
    exact (List.nodup_cons.mp hlent.nodup).1 (List.mem_append_left _ hf)

end Lawful

end LoadState

section Load

variable {m : PageMapper τ} {lookup : τ → ℕ → Option Leaf} {minimalParse : Bytes → Option ElfFile}
  {bytes : Bytes} {pmm : Pmm} {ram : ℕ → ℕ → UInt8} {all : Finset ℕ} {outer : List ℕ}

/-- After a load nothing outside has changed, and the image holds what is lent and all it translates
to. -/
structure LoadedWithin (lookup : τ → ℕ → Option Leaf) (all : Finset ℕ) (outer : List ℕ)
    (ram : ℕ → ℕ → UInt8) (r : Loaded) (s : LoadState τ) : Prop where
  outside : ∀ f ∈ outer, s.ram f = ram f
  ok : ∀ image, r = .ok image →
    Pmm.Lent all (image.l4 :: (image.pages.map (·.2) ++ image.ptFrames) ++ outer) s.pmm ∧
      ∀ va leaf, lookup s.table va = some leaf → leaf.frame ∈ image.pages.map (·.2)
  err : r = .err → ∃ lost, Pmm.Lent all (lost ++ outer) s.pmm

theorem LoadState.Within.fail {l4 : ℕ} {s : LoadState τ}
    (hs : LoadState.Within lookup all (l4 :: outer) ram s) :
    LoadedWithin lookup all outer ram .err (s.fail l4) where
  outside := fun f hf => hs.outside f (List.mem_cons_of_mem l4 hf)
  ok := by
    intro image himage
    cases himage
  err := by
    intro _
    have hlent : Pmm.Lent all (l4 :: outer ++ (s.pages.map (·.2) ++ s.ptFrames)) s.pmm := hs.lends
    have hperm : (l4 :: outer ++ (s.pages.map (·.2) ++ s.ptFrames)).Perm
        (s.pages.map (·.2) ++ (s.ptFrames ++ (l4 :: outer))) := by
      rw [← List.append_assoc (s.pages.map (·.2)) s.ptFrames (l4 :: outer)]
      exact List.perm_append_comm
    refine ⟨[], ?_⟩
    have hfree := (hlent.perm hperm).free_all.free_all.free
    rw [List.foldl_map] at hfree
    exact hfree

theorem loadPhdrs_within (hm : m.Lawful lookup) {l4 : ℕ} {eEntry : UInt64}
    {phdrs : List ProgramHeader} {r : Loaded} {s s' : LoadState τ}
    (hs : LoadState.Within lookup all (l4 :: outer) ram s)
    (hload : loadPhdrs m bytes eEntry l4 phdrs s = (r, s')) (hr : r ≠ .panic) :
    LoadedWithin lookup all outer ram r s' := by
  have hsegments : ∀ {r ok s₁}, s.loadSegments m bytes phdrs false = (r, ok, s₁) → r ≠ .panic →
      LoadState.Within lookup all (l4 :: outer) ram s₁ := by
    intro r ok s₁ hrun hne
    exact LoadState.loadSegments_invariant (fun _ _ _ _ _ h => h.mapPage hm) hs hrun hne
  simp only [loadPhdrs] at hload
  rcases hrun : s.loadSegments m bytes phdrs false with ⟨_ | _ | _, _ | _, s₁⟩
  · simp only [hrun] at hload
    obtain ⟨rfl, rfl⟩ := Prod.mk.inj hload
    exact (hsegments hrun (by decide)).fail
  · have hs₁ := hsegments hrun (by decide)
    simp only [hrun] at hload
    rcases hstack : s₁.mapStack m with ⟨_ | _ | _, s₂⟩
    · have hs₂ : LoadState.Within lookup all (l4 :: outer) ram s₂ :=
        LoadState.mapStackPages_invariant (fun _ _ _ _ h => h.mapStackPage hm) hs₁
          hstack (by decide)
      simp only [hstack] at hload
      split_ifs at hload
      · obtain ⟨rfl, rfl⟩ := Prod.mk.inj hload
        refine ⟨fun f hf => hs₂.outside f (List.mem_cons_of_mem l4 hf), ?_,
          fun h => absurd h (by simp)⟩
        intro image himage
        cases himage
        refine ⟨?_, hs₂.leaves⟩
        have hlent : Pmm.Lent all (l4 :: (outer ++ (s₂.pages.map (·.2) ++ s₂.ptFrames))) s₂.pmm :=
          hs₂.lends
        exact hlent.perm (List.perm_append_comm.cons l4)
      · obtain ⟨rfl, -⟩ := Prod.mk.inj hload
        exact absurd rfl hr
    · have hs₂ : LoadState.Within lookup all (l4 :: outer) ram s₂ :=
        LoadState.mapStackPages_invariant (fun _ _ _ _ h => h.mapStackPage hm) hs₁
          hstack (by decide)
      simp only [hstack] at hload
      obtain ⟨rfl, rfl⟩ := Prod.mk.inj hload
      exact hs₂.fail
    · simp only [hstack] at hload
      obtain ⟨rfl, -⟩ := Prod.mk.inj hload
      exact absurd rfl hr
  · simp only [hrun] at hload
    obtain ⟨rfl, rfl⟩ := Prod.mk.inj hload
    exact (hsegments hrun (by decide)).fail
  · simp only [hrun] at hload
    obtain ⟨rfl, rfl⟩ := Prod.mk.inj hload
    exact (hsegments hrun (by decide)).fail
  · simp only [hrun] at hload
    obtain ⟨rfl, -⟩ := Prod.mk.inj hload
    exact absurd rfl hr
  · simp only [hrun] at hload
    obtain ⟨rfl, -⟩ := Prod.mk.inj hload
    exact absurd rfl hr

theorem load_within (hm : m.Lawful lookup) (hlent : Pmm.Lent all outer pmm) {r : Loaded}
    {s : LoadState τ} (hload : load m minimalParse bytes pmm ram = (r, s)) (hr : r ≠ .panic) :
    LoadedWithin lookup all outer ram r s := by
  have herr : ∀ lost {s : LoadState τ}, s.ram = ram → Pmm.Lent all (lost ++ outer) s.pmm →
      LoadedWithin lookup all outer ram .err s := by
    intro lost s hram hlost
    exact ⟨fun f _ => congrFun hram f, fun image h => absurd h (by simp), fun _ => ⟨lost, hlost⟩⟩
  simp only [load] at hload
  rcases hal : pmm.alloc with ⟨_ | l4, pmm'⟩
  · simp only [hal] at hload
    obtain ⟨rfl, rfl⟩ := Prod.mk.inj hload
    exact herr [] rfl (hlent.alloc_none hal)
  · have hroot := hlent.alloc hal
    simp only [hal] at hload
    cases hparse : minimalParse bytes with
    | none =>
      simp only [hparse] at hload
      obtain ⟨rfl, rfl⟩ := Prod.mk.inj hload
      exact herr [l4] rfl hroot
    | some file =>
      simp only [hparse] at hload
      split_ifs at hload
      · obtain ⟨rfl, rfl⟩ := Prod.mk.inj hload
        exact herr [] rfl hroot.free
      · cases hsegs : file.segments with
        | none =>
          simp only [hsegs] at hload
          obtain ⟨rfl, rfl⟩ := Prod.mk.inj hload
          exact herr [l4] rfl hroot
        | some phdrs =>
          simp only [hsegs] at hload
          refine loadPhdrs_within hm ⟨?_, fun _ _ => rfl, ?_⟩ hload hr
          · simp only [LoadState.Lends, LoadState.owned, List.map_nil, List.append_nil]
            exact hroot
          · intro va leaf hleaf
            rw [hm.empty va] at hleaf
            cases hleaf

end Load

/-- Who holds frames: an address space, with the tables under its root, or a driver with a run of
frames. -/
inductive Owner (τ : Type)
  | space (image : Image) (table : τ)
  | device (start n : ℕ)

/-- What an owner does to its memory: a store of the program, the arguments of a new process, a
device write. -/
inductive Write
  | store (va : ℕ) (b : UInt8)
  | argv (strings : List Bytes)
  | dma (i off : ℕ) (b : UInt8)

def storeByte (ram : ℕ → ℕ → UInt8) (frame off : ℕ) (b : UInt8) : ℕ → ℕ → UInt8 :=
  Function.update ram frame (Function.update (ram frame) off b)

namespace Owner

def key : Owner τ → ℕ
  | .space image _ => image.l4
  | .device start _ => start

def frames : Owner τ → List ℕ
  | .space image _ => image.l4 :: (image.pages.map (·.2) ++ image.ptFrames)
  | .device start n => List.range' start n

def write (lookup : τ → ℕ → Option Leaf) (ram : ℕ → ℕ → UInt8) : Owner τ → Write → ℕ → ℕ → UInt8
  | .space _ table, .store va b =>
    match lookup table (va - va % frameSize) with
    | some leaf => if leaf.writable then storeByte ram leaf.frame (va % frameSize) b else ram
    | none => ram
  | .space image _, .argv strings => (writeArgv image.pages ram strings).2
  | .device start n, .dma i off b => if i < n then storeByte ram (start + i) off b else ram
  | _, _ => ram

def release (pmm : Pmm) : Owner τ → Pmm
  | .space image _ => unload pmm image
  | .device start n => pmm.freeContiguous start n

end Owner

structure Memory (τ : Type) where
  pmm : Pmm
  ram : ℕ → ℕ → UInt8
  owners : List (Owner τ)

/-- An owner is named by its first frame, as an address space is by its root. -/
inductive MemoryAct
  | load (bytes : Bytes)
  | take (n : ℕ)
  | write (key : ℕ) (w : Write)
  | release (key : ℕ)

def MemoryAct.key : MemoryAct → Option ℕ
  | .load _ => none
  | .take _ => none
  | .write key _ => some key
  | .release key => some key

namespace Memory

variable (m : PageMapper τ) (lookup : τ → ℕ → Option Leaf) (minimalParse : Bytes → Option ElfFile)

def boot (pmm : Pmm) (ram : ℕ → ℕ → UInt8) : Memory τ := ⟨pmm, ram, []⟩

def owner (w : Memory τ) (key : ℕ) : Option (Owner τ) := w.owners.find? (·.key = key)

def step (w : Memory τ) : MemoryAct → Option (Memory τ)
  | .load bytes =>
    match load m minimalParse bytes w.pmm w.ram with
    | (.ok image, s) => some ⟨s.pmm, s.ram, w.owners ++ [.space image s.table]⟩
    | (.err, s) => some ⟨s.pmm, s.ram, w.owners⟩
    | (.panic, _) => none
  | .take n =>
    match w.pmm.allocContiguous n with
    | (some start, pmm) => some ⟨pmm, w.ram, w.owners ++ [.device start n]⟩
    | (none, pmm) => some { w with pmm := pmm }
  | .write key wr =>
    match w.owner key with
    | some o => some { w with ram := o.write lookup w.ram wr }
    | none => some w
  | .release key =>
    match w.owner key with
    | some o => some { w with pmm := o.release w.pmm, owners := w.owners.eraseP (·.key = key) }
    | none => some w

def run : Memory τ → List MemoryAct → Option (Memory τ)
  | w, [] => some w
  | w, a :: acts => (step m lookup minimalParse w a).bind fun w => run w acts

def held (w : Memory τ) : List ℕ := w.owners.flatMap Owner.frames

/-- The byte that a program finds at an address. -/
def view (w : Memory τ) (table : τ) (va : ℕ) : Option UInt8 :=
  (lookup table (va - va % frameSize)).map fun leaf => w.ram leaf.frame (va % frameSize)

/-- The frames handed out are lent, with those lost by failed loads; each space translates to its
pages only. -/
structure Inv (all : Finset ℕ) (w : Memory τ) : Prop where
  lent : ∃ lost, Pmm.Lent all (lost ++ w.held) w.pmm
  keyed : ∀ o ∈ w.owners, o.key ∈ o.frames
  leaves : ∀ image table, .space image table ∈ w.owners → ∀ va leaf, lookup table va = some leaf →
    leaf.frame ∈ image.pages.map (·.2)

end Memory

section Footprint

variable {pages : List (ℕ × ℕ)} {f : ℕ}

theorem frameAt_mem {page frame : ℕ} (h : frameAt pages page = some frame) :
    frame ∈ pages.map (·.2) := by
  obtain ⟨p, hp, rfl⟩ := Option.map_eq_some_iff.mp h
  exact List.mem_map_of_mem (List.mem_of_find?_eq_some hp)

theorem writeUserLoop_others (hf : f ∉ pages.map (·.2)) (fuel : ℕ) (ram : ℕ → ℕ → UInt8) (addr : ℕ)
    (src : Bytes) : (writeUserLoop pages fuel ram addr src).2 f = ram f := by
  induction fuel generalizing ram addr src with
  | zero => rfl
  | succ fuel ih =>
    simp only [writeUserLoop]
    split
    · rfl
    · split
      · rfl
      · rename_i frame hframe
        rw [ih, copyIntoFrame, Function.update_of_ne]
        rintro rfl
        exact hf (frameAt_mem hframe)

theorem writeStrings_others (hf : f ∉ pages.map (·.2)) (strings : List Bytes) (ram : ℕ → ℕ → UInt8)
    (cursor : ℕ) : (writeStrings pages strings ram cursor).2 f = ram f := by
  induction strings generalizing ram cursor with
  | nil => rfl
  | cons str strings ih =>
    have hfirst :=
      writeUserLoop_others hf (str ++ [0]).length ram (cursor - (str.length + 1)) (str ++ [0])
    simp only [writeStrings, writeUser]
    split
    · rfl
    · split
      · rename_i heq
        rwa [heq] at hfirst
      · rename_i heq
        rw [heq] at hfirst
        exact (ih _ _).trans hfirst

theorem writeWords_others (hf : f ∉ pages.map (·.2)) (words : List ℕ) (ram : ℕ → ℕ → UInt8)
    (addr : ℕ) : (writeWords pages words ram addr).2 f = ram f := by
  induction words generalizing ram addr with
  | nil => rfl
  | cons word words ih =>
    have hfirst := writeUserLoop_others hf (leBytes 8 word).length ram addr (leBytes 8 word)
    simp only [writeWords, writeUser]
    split
    · rename_i heq
      rwa [heq] at hfirst
    · rename_i heq
      rw [heq] at hfirst
      exact (ih _ _).trans hfirst

theorem writeArgv_others (hf : f ∉ pages.map (·.2)) (ram : ℕ → ℕ → UInt8) (strings : List Bytes) :
    (writeArgv pages ram strings).2 f = ram f := by
  have hstrings := writeStrings_others hf strings ram userStackTop
  simp only [writeArgv]
  split
  · rfl
  · split
    · rfl
    · split
      · rename_i heq
        rwa [heq] at hstrings
      · rename_i cursor strVa ram₁ heq
        rw [heq] at hstrings
        split
        · exact hstrings
        · split
          · exact hstrings
          · have hwords := writeWords_others hf (strings.length :: strVa ++ [0, 0]) ram₁
              (cursor - (8 + (strings.length + 2) * 8) - (cursor - (8 + (strings.length + 2) * 8)) %
                16)
            split
            · rename_i heq'
              rw [heq'] at hwords
              exact hwords.trans hstrings
            · rename_i heq'
              rw [heq'] at hwords
              exact hwords.trans hstrings

theorem storeByte_others {frame off : ℕ} (b : UInt8) (ram : ℕ → ℕ → UInt8) (hf : f ≠ frame) :
    storeByte ram frame off b f = ram f :=
  Function.update_of_ne hf _ _

theorem Owner.write_others {lookup : τ → ℕ → Option Leaf} {o : Owner τ}
    (hleaves : ∀ image table, o = .space image table → ∀ va leaf, lookup table va = some leaf →
      leaf.frame ∈ image.pages.map (·.2))
    (hf : f ∉ o.frames) (ram : ℕ → ℕ → UInt8) (wr : Write) : o.write lookup ram wr f = ram f := by
  cases o with
  | space image table =>
    have hpages : f ∉ image.pages.map (·.2) := by
      intro hmem
      exact hf (List.mem_cons_of_mem _ (List.mem_append_left _ hmem))
    cases wr with
    | store va b =>
      simp only [write]
      cases hleaf : lookup table (va - va % frameSize) with
      | none => rfl
      | some leaf =>
        simp only
        split
        · refine storeByte_others b ram ?_
          rintro rfl
          exact hpages (hleaves image table rfl _ leaf hleaf)
        · rfl
    | argv strings => exact writeArgv_others hpages ram strings
    | dma i off b => rfl
  | device start n =>
    cases wr with
    | store va b => rfl
    | argv strings => rfl
    | dma i off b =>
      simp only [write]
      split
      · rename_i hi
        refine storeByte_others b ram ?_
        rintro rfl
        exact hf (List.mem_range'_1.mpr ⟨by omega, by omega⟩)
      · rfl

end Footprint

namespace Memory

section Step

variable {m : PageMapper τ} {lookup : τ → ℕ → Option Leaf} {minimalParse : Bytes → Option ElfFile}
  {all : Finset ℕ} {w w' : Memory τ} {o o' : Owner τ} {a : MemoryAct}

theorem Inv.nodup (h : Inv lookup all w) : w.held.Nodup := by
  obtain ⟨lost, hlent⟩ := h.lent
  exact (List.nodup_append'.mp hlent.nodup).2.1

theorem Inv.eq_of_mem (h : Inv lookup all w) {f : ℕ} (ho : o ∈ w.owners) (ho' : o' ∈ w.owners)
    (hf : f ∈ o.frames) (hf' : f ∈ o'.frames) : o = o' := by
  by_contra hne
  have hsymm : Std.Symm (Function.onFun List.Disjoint (Owner.frames (τ := τ))) :=
    ⟨fun _ _ hd => hd.symm⟩
  have hapart := (List.nodup_flatMap.mp h.nodup).2.forall ho ho' hne
  exact hapart hf hf'

theorem owner_mem {key : ℕ} (h : w.owner key = some o) : o ∈ w.owners ∧ o.key = key := by
  have hkey := List.find?_some h
  exact ⟨List.mem_of_find?_eq_some h, by simpa using hkey⟩

/-- The owner is still there and finds its frames as they were. -/
def Kept (w w' : Memory τ) (o : Owner τ) : Prop :=
  o ∈ w'.owners ∧ ∀ f ∈ o.frames, w'.ram f = w.ram f

theorem Kept.rfl' (ho : o ∈ w.owners) : Kept w w o := ⟨ho, fun _ _ => rfl⟩

theorem Kept.trans {w₁ : Memory τ} (h : Kept w w₁ o) (h' : Kept w₁ w' o) : Kept w w' o :=
  ⟨h'.1, fun f hf => (h'.2 f hf).trans (h.2 f hf)⟩

theorem mem_held {f : ℕ} (ho : o ∈ w.owners) (hf : f ∈ o.frames) : f ∈ w.held :=
  List.mem_flatMap.mpr ⟨o, ho, hf⟩

theorem boot_inv (lookup : τ → ℕ → Option Leaf) (pmm : Pmm) (ram : ℕ → ℕ → UInt8) :
    Inv lookup (clearFrames pmm.bitmap) (boot pmm ram) where
  lent := ⟨[], Pmm.Lent.nil pmm⟩
  keyed := by simp [boot]
  leaves := by simp [boot]

theorem Inv.push (h : Inv lookup all w) {pmm : Pmm} {ram : ℕ → ℕ → UInt8} {lost : List ℕ}
    (hlent : Pmm.Lent all (o.frames ++ (lost ++ w.held)) pmm) (hkey : o.key ∈ o.frames)
    (hleaves : ∀ image table, o = .space image table → ∀ va leaf, lookup table va = some leaf →
      leaf.frame ∈ image.pages.map (·.2)) :
    Inv lookup all ⟨pmm, ram, w.owners ++ [o]⟩ where
  lent := by
    refine ⟨lost, hlent.perm ?_⟩
    simp only [held, List.flatMap_append, List.flatMap_cons, List.flatMap_nil, List.append_nil]
    rw [← List.append_assoc lost]
    exact List.perm_append_comm
  keyed := by
    intro o' ho'
    rcases List.mem_append.mp ho' with ho' | ho'
    · exact h.keyed o' ho'
    · rwa [List.mem_singleton.mp ho']
  leaves := by
    intro image table ho'
    rcases List.mem_append.mp ho' with ho' | ho'
    · exact h.leaves image table ho'
    · exact hleaves image table (List.mem_singleton.mp ho').symm

theorem Inv.load (hm : m.Lawful lookup) (h : Inv lookup all w) {bytes : Bytes}
    (hstep : step m lookup minimalParse w (.load bytes) = some w') :
    Inv lookup all w' ∧ ∀ o ∈ w.owners, Kept w w' o := by
  obtain ⟨lost, hlent⟩ := h.lent
  simp only [step] at hstep
  rcases hload : Task.load m minimalParse bytes w.pmm w.ram with ⟨r, s⟩
  have hwithin := load_within hm hlent hload
  have hsame : ∀ (hr : r ≠ .panic), ∀ o ∈ w.owners, ∀ f ∈ o.frames, s.ram f = w.ram f := by
    intro hr o ho f hf
    exact (hwithin hr).outside f (List.mem_append_right _ (mem_held ho hf))
  simp only [hload] at hstep
  cases r with
  | ok image =>
    obtain rfl := Option.some.inj hstep
    obtain ⟨hframes, hleaves⟩ := (hwithin (by simp)).ok image rfl
    refine ⟨h.push (o := .space image s.table) hframes List.mem_cons_self ?_, ?_⟩
    · intro image' table' heq
      obtain ⟨rfl, rfl⟩ := Owner.space.inj heq
      exact hleaves
    · intro o ho
      exact ⟨List.mem_append_left _ ho, hsame (by simp) o ho⟩
  | err =>
    obtain rfl := Option.some.inj hstep
    obtain ⟨lost', hlost⟩ := (hwithin (by simp)).err rfl
    refine ⟨⟨⟨lost' ++ lost, ?_⟩, h.keyed, h.leaves⟩, ?_⟩
    · rwa [List.append_assoc]
    · intro o ho
      exact ⟨ho, hsame (by simp) o ho⟩
  | panic => cases hstep

theorem Inv.take (h : Inv lookup all w) {n : ℕ}
    (hstep : step m lookup minimalParse w (.take n) = some w') :
    Inv lookup all w' ∧ ∀ o ∈ w.owners, Kept w w' o := by
  obtain ⟨lost, hlent⟩ := h.lent
  simp only [step] at hstep
  rcases hal : w.pmm.allocContiguous n with ⟨_ | start, pmm⟩
  · simp only [hal, Option.some.injEq] at hstep
    subst hstep
    have hpmm : pmm = w.pmm :=
      (congrArg Prod.snd hal).symm.trans (Pmm.allocContiguous_fail (congrArg Prod.fst hal))
    subst hpmm
    exact ⟨h, fun o ho => .rfl' ho⟩
  · simp only [hal, Option.some.injEq] at hstep
    subst hstep
    have hpos := Pmm.allocContiguous_pos (congrArg Prod.fst hal)
    refine ⟨h.push (o := .device start n) (hlent.allocRun hal) (List.mem_range'_1.mpr ⟨le_rfl,
      Nat.lt_add_of_pos_right hpos⟩) ?_, ?_⟩
    · intro image table heq
      cases heq
    · intro o ho
      exact ⟨List.mem_append_left _ ho, fun _ _ => rfl⟩

theorem Inv.write (h : Inv lookup all w) {key : ℕ} {wr : Write}
    (hstep : step m lookup minimalParse w (.write key wr) = some w') :
    Inv lookup all w' ∧ ∀ o ∈ w.owners, key ≠ o.key → Kept w w' o := by
  simp only [step] at hstep
  cases hown : w.owner key with
  | none =>
    simp only [hown, Option.some.injEq] at hstep
    subst hstep
    exact ⟨h, fun o ho _ => .rfl' ho⟩
  | some o₀ =>
    simp only [hown, Option.some.injEq] at hstep
    subst hstep
    obtain ⟨ho₀, rfl⟩ := owner_mem hown
    refine ⟨⟨h.lent, h.keyed, h.leaves⟩, ?_⟩
    intro o ho hne
    refine ⟨ho, ?_⟩
    intro f hf
    refine Owner.write_others ?_ ?_ w.ram wr
    · rintro image table rfl
      exact h.leaves image table ho₀
    · intro hf₀
      exact hne (congrArg Owner.key (h.eq_of_mem ho₀ ho hf₀ hf))

theorem perm_eraseP {key : ℕ} (hown : w.owner key = some o) :
    w.owners.Perm (o :: w.owners.eraseP (·.key = key)) := by
  obtain ⟨hkey, before, after, hsplit, hbefore⟩ := List.find?_eq_some_iff_append.mp hown
  have hnone : ∀ o' ∈ before, ¬decide (o'.key = key) = true := by
    intro o' ho'
    simpa using hbefore o' ho'
  have herase : (o :: after).eraseP (·.key = key) = after := List.eraseP_cons_of_pos hkey
  rw [hsplit, List.eraseP_append_right _ hnone, herase]
  exact List.perm_middle

theorem release_lent {rest : List ℕ} {pmm : Pmm} (h : Pmm.Lent all (o.frames ++ rest) pmm) :
    Pmm.Lent all rest (o.release pmm) := by
  cases o with
  | space image table =>
    have hperm : (image.l4 :: (image.pages.map (·.2) ++ image.ptFrames) ++ rest).Perm
        (image.pages.map (·.2) ++ (image.ptFrames ++ (image.l4 :: rest))) := by
      rw [List.cons_append, ← List.append_assoc (image.pages.map (·.2)) image.ptFrames
        (image.l4 :: rest)]
      exact List.perm_middle.symm
    have hfree := (h.perm hperm).free_all.free_all.free
    rw [List.foldl_map] at hfree
    exact hfree
  | device start n => exact h.freeRun

theorem Inv.release (h : Inv lookup all w) {key : ℕ}
    (hstep : step m lookup minimalParse w (.release key) = some w') :
    Inv lookup all w' ∧ ∀ o ∈ w.owners, key ≠ o.key → Kept w w' o := by
  obtain ⟨lost, hlent⟩ := h.lent
  simp only [step] at hstep
  cases hown : w.owner key with
  | none =>
    simp only [hown, Option.some.injEq] at hstep
    subst hstep
    exact ⟨h, fun o ho _ => .rfl' ho⟩
  | some o₀ =>
    simp only [hown, Option.some.injEq] at hstep
    subst hstep
    have hperm := perm_eraseP hown
    refine ⟨⟨⟨lost, release_lent (hlent.perm ?_)⟩, ?_, ?_⟩, ?_⟩
    · have hheld :
          w.held.Perm (o₀.frames ++ (w.owners.eraseP (·.key = key)).flatMap Owner.frames) :=
        hperm.flatMap_right Owner.frames
      refine (hheld.append_left lost).trans ?_
      simp only [held, ← List.append_assoc]
      exact List.perm_append_comm.append_right _
    · intro o ho
      exact h.keyed o (List.mem_of_mem_eraseP ho)
    · intro image table ho
      exact h.leaves image table (List.mem_of_mem_eraseP ho)
    · intro o ho hne
      refine ⟨?_, fun _ _ => rfl⟩
      rcases List.mem_cons.mp (hperm.mem_iff.mp ho) with rfl | ho'
      · exact absurd (owner_mem hown).2.symm hne
      · exact ho'

theorem Inv.step (hm : m.Lawful lookup) (h : Inv lookup all w)
    (hstep : Memory.step m lookup minimalParse w a = some w') :
    Inv lookup all w' ∧ ∀ o ∈ w.owners, a.key ≠ some o.key → Kept w w' o := by
  cases a with
  | load bytes => exact (h.load hm hstep).imp_right fun hk o ho _ => hk o ho
  | take n => exact (h.take hstep).imp_right fun hk o ho _ => hk o ho
  | write key wr =>
    exact (h.write hstep).imp_right fun hk o ho hne => hk o ho fun heq => hne (congrArg some heq)
  | release key =>
    exact (h.release hstep).imp_right fun hk o ho hne => hk o ho fun heq => hne (congrArg some heq)

theorem Inv.run (hm : m.Lawful lookup) (h : Inv lookup all w) {acts : List MemoryAct}
    (hrun : Memory.run m lookup minimalParse w acts = some w') :
    Inv lookup all w' ∧ ∀ o ∈ w.owners, (∀ a ∈ acts, a.key ≠ some o.key) → Kept w w' o := by
  induction acts generalizing w with
  | nil =>
    obtain rfl := Option.some.inj hrun
    exact ⟨h, fun o ho _ => .rfl' ho⟩
  | cons a acts ih =>
    obtain ⟨w₁, hstep, hrest⟩ := Option.bind_eq_some_iff.mp hrun
    obtain ⟨h₁, hkeep⟩ := h.step hm hstep
    obtain ⟨h', hkeep'⟩ := ih h₁ hrest
    refine ⟨h', ?_⟩
    intro o ho hne
    have hfirst := hkeep o ho (hne a List.mem_cons_self)
    exact hfirst.trans (hkeep' o hfirst.1 fun a ha => hne a (List.mem_cons_of_mem _ ha))

/-- No frame has two owners, is free or was not free at first; what a program can reach are the
pages of its own image, and so no table of any space. -/
structure Isolated (lookup : τ → ℕ → Option Leaf) (all : Finset ℕ) (w : Memory τ) : Prop where
  apart : w.held.Nodup
  lent : ∀ f ∈ w.held, f ∈ all ∧ f ∉ clearFrames w.pmm.bitmap
  reach : ∀ image table, .space image table ∈ w.owners → ∀ va leaf, lookup table va = some leaf →
    leaf.frame ∈ image.pages.map (·.2) ∧
      ∀ image' table', .space image' table' ∈ w.owners → leaf.frame ≠ image'.l4 ∧
      leaf.frame ∉ image'.ptFrames

theorem Inv.isolated (h : Inv lookup all w) : Isolated lookup all w where
  apart := h.nodup
  lent := by
    intro f hf
    obtain ⟨lost, hlent⟩ := h.lent
    have hmem : f ∈ lost ++ w.held := List.mem_append_right lost hf
    refine ⟨hlent.subset f hmem, ?_⟩
    rw [hlent.clear, Finset.mem_sdiff, List.mem_toFinset]
    exact fun hclear => hclear.2 hmem
  reach := by
    intro image table ho va leaf hleaf
    have hpage := h.leaves image table ho va leaf hleaf
    refine ⟨hpage, ?_⟩
    intro image' table' ho'
    have hmine : leaf.frame ∈ (Owner.space image table).frames :=
      List.mem_cons_of_mem _ (List.mem_append_left _ hpage)
    have hsame : leaf.frame ∈ (Owner.space image' table').frames → image = image' := fun hf' =>
      (Owner.space.inj (h.eq_of_mem ho ho' hmine hf')).1
    have hnodup := (List.nodup_flatMap.mp h.nodup).1 _ ho
    obtain ⟨hroot, hrest⟩ := List.nodup_cons.mp hnodup
    constructor
    · intro heq
      obtain rfl := hsame (by rw [heq]; exact List.mem_cons_self)
      rw [← heq] at hroot
      exact hroot (List.mem_append_left _ hpage)
    · intro hin
      obtain rfl := hsame (List.mem_cons_of_mem _ (List.mem_append_right _ hin))
      exact (List.nodup_append'.mp hrest).2.2 hpage hin

theorem Kept.view {image : Image} {table : τ} (h : Inv lookup all w)
    (ho : .space image table ∈ w.owners) (hk : Kept w w' (.space image table)) (va : ℕ) :
    w'.view lookup table va = w.view lookup table va := by
  simp only [Memory.view]
  cases hleaf : lookup table (va - va % frameSize) with
  | none => rfl
  | some leaf =>
    have hmem : leaf.frame ∈ (Owner.space image table).frames :=
      List.mem_cons_of_mem _ (List.mem_append_left _ (h.leaves image table ho _ leaf hleaf))
    simp only [Option.map_some, hk.2 _ hmem]

end Step

/-- In any run the owners of memory are isolated, and what the acts of others do from then on leaves
an owner in place, each of its frames as it was and each byte a program finds in its space. -/
theorem memory_isolated (m : PageMapper τ) (lookup : τ → ℕ → Option Leaf) (hm : m.Lawful lookup)
    (minimalParse : Bytes → Option ElfFile) (pmm : Pmm) (ram : ℕ → ℕ → UInt8)
    (before after : List MemoryAct) (w w' : Memory τ)
    (hbefore : run m lookup minimalParse (boot pmm ram) before = some w)
    (hafter : run m lookup minimalParse w after = some w') :
    Isolated lookup (clearFrames pmm.bitmap) w ∧
      ∀ o ∈ w.owners, (∀ a ∈ after, a.key ≠ some o.key) →
        Kept w w' o ∧ ∀ image table, o = .space image table →
          ∀ va, w'.view lookup table va = w.view lookup table va := by
  have hinv := ((boot_inv lookup pmm ram).run hm hbefore).1
  refine ⟨hinv.isolated, ?_⟩
  intro o ho hothers
  have hkept := (hinv.run hm hafter).2 o ho hothers
  refine ⟨hkept, ?_⟩
  rintro image table rfl va
  exact hkept.view hinv ho va

def sampleActs : List MemoryAct :=
  [.load (sampleElf 120 0x400078), .take 2, .load (sampleElf 120 0x400078)]

def otherActs : List MemoryAct :=
  [.write 25 (.store 0x7FFF0000 7), .write 23 (.dma 1 0 9), .release 25,
    .load (sampleElf 120 0x400078)]

theorem memory_isolated_sample :
    ∃ w w', run PageTables.mapper PageTables.leaf parseElf64
      (boot (Pmm.init [⟨0, 0x40000, true⟩]) fun _ _ => 0) sampleActs = some w ∧
      run PageTables.mapper PageTables.leaf parseElf64 w otherActs = some w' ∧
        w.owners.map Owner.key = [0, 23, 25] ∧
      Isolated PageTables.leaf (clearFrames (Pmm.init [⟨0, 0x40000, true⟩]).bitmap) w ∧
      ∀ o ∈ w.owners, (∀ a ∈ otherActs, a.key ≠ some o.key) →
        Kept w w' o ∧ ∀ image table, o = .space image table →
          ∀ va, w'.view PageTables.leaf table va = w.view PageTables.leaf table va := by
  have hkeys : ((run PageTables.mapper PageTables.leaf parseElf64
      (boot (Pmm.init [⟨0, 0x40000, true⟩]) fun _ _ => 0) sampleActs).map fun w =>
      (w.owners.map Owner.key,
        (run PageTables.mapper PageTables.leaf parseElf64 w otherActs).isSome)) =
      some ([0, 23, 25], true) := by decide +kernel
  obtain ⟨w, hbefore, hw⟩ := Option.map_eq_some_iff.mp hkeys
  obtain ⟨hkey, hsome⟩ := Prod.mk.inj hw
  obtain ⟨w', hafter⟩ := Option.isSome_iff_exists.mp hsome
  exact ⟨w, w', hbefore, hafter, hkey,
    memory_isolated _ _ PageTables.mapper_lawful parseElf64 _ _ sampleActs otherActs w w'
      hbefore hafter⟩

end Memory

end CoeleoOs.Task
