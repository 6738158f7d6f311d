import CoeleoOs.Fs.Resolve
import CoeleoOs.Ui.Fm

/-!
# Paths of the file manager

The file manager goes up by cutting at the last slash and down by appending a name, and it
splits a path into the crumbs of its bar; it never resolves a path. On a path that is its own
name these are the parent, a child and the directories above. `fs::list` and `fs::remove`
resolve what they are given against the working directory of the kernel, which is its own name.
-/

namespace CoeleoOs.Fs.Mount
open CoeleoOs.Sh
open CoeleoOs.Task (Bytes FsError)

variable {φ η : Type}

def chdir (m : Mount φ) (fat : Fatfs φ η) (path : Bytes) : Except FsError Unit × Mount φ :=
  let abs := resolve m.workDir path
  match m.fs with
  | none => (.error .noFs, m)
  | some fs =>
    if rel abs = [] then (.ok (), { m with cwd := abs })
    else
      match fat.openDir fs (rel abs) with
      | .error e => (.error (mapDirErr e), m)
      | .ok _ => (.ok (), { m with cwd := abs })

theorem chdir_canonical {m : Mount φ} (fat : Fatfs φ η) (path : Bytes) (h : Canonical m.workDir) :
    Canonical (m.chdir fat path).2.workDir := by
  have habs := canonical_resolve h path
  have hset : Canonical (workDir { m with cwd := resolve m.workDir path }) := by
    rw [workDir]
    split
    · exact canonical_root
    · exact habs
  unfold chdir
  dsimp only
  split
  · exact h
  · split
    · exact hset
    · split
      · exact h
      · exact hset

end CoeleoOs.Fs.Mount

namespace CoeleoOs.Ui
open CoeleoOs.Fs CoeleoOs.Lib
open CoeleoOs.Sh (Canonical Component flat pathSteps render render_eq_slash render_flat
    start_render steps)
open CoeleoOs.Task (Bytes)

def beforeLast (cwd : Bytes) : Bytes := ((cwd.reverse.dropWhile (· ≠ slash)).drop 1).reverse

def parent (cwd : Bytes) : Bytes := if beforeLast cwd = [] then [slash] else beforeLast cwd

def segments : Bytes → List Bytes → List (Bytes × Bytes)
  | _, [] => []
  | acc, part :: rest =>
    if part = [] then segments acc rest
    else (part, acc ++ slash :: part) :: segments (acc ++ slash :: part) rest

def pathSegments (cwd : Bytes) : List (Bytes × Bytes) :=
  ([slash], [slash]) ::
    if cwd = [slash] then [] else segments [] ((cwd.dropWhile (· = slash)).splitOn slash)

/-- The directory that holds the one of this name; the root is in itself. -/
def ParentDir (cwd dir : Bytes) : Prop :=
  ∃ parts, (∀ c ∈ parts, Component c) ∧ cwd = render parts ∧ dir = render parts.dropLast

section Canonical

variable {cwd name : Bytes} {parts : List Bytes}

theorem flat_eq_nil : flat parts = [] ↔ parts = [] := by
  cases parts with
  | nil => simp [flat]
  | cons c cs => simp [flat]

theorem render_eq (parts : List Bytes) :
    render parts = if flat parts = [] then [slash] else flat parts := by
  by_cases h : parts = []
  · subst h
    rfl
  · rw [render_flat h, if_neg (mt flat_eq_nil.mp h)]

theorem flat_snoc (parts : List Bytes) (c : Bytes) :
    flat (parts ++ [c]) = flat parts ++ slash :: c := by
  simp [flat]

theorem beforeLast_snoc (a : Bytes) (hname : slash ∉ name) :
    beforeLast (a ++ slash :: name) = a := by
  have hskip : ∀ b ∈ name.reverse, decide (b ≠ slash) = true := by
    intro b hb
    refine decide_eq_true fun h => hname ?_
    rw [← h]
    exact List.mem_reverse.mp hb
  have hrev : (a ++ slash :: name).reverse = name.reverse ++ slash :: a.reverse := by simp
  rw [beforeLast, hrev, List.dropWhile_append_of_pos hskip, List.dropWhile_cons_of_neg (by simp)]
  simp

theorem parent_render (hparts : ∀ c ∈ parts, Component c) :
    parent (render parts) = render parts.dropLast := by
  induction parts using List.reverseRecOn with
  | nil => decide
  | append_singleton parts c _ =>
    have hne : parts ++ [c] ≠ [] := by simp
    have hc := hparts c (List.mem_append_right _ (List.mem_singleton_self c))
    have hcut : beforeLast (render (parts ++ [c])) = flat parts := by
      rw [render_flat hne, flat_snoc, beforeLast_snoc _ hc.no_slash]
    rw [parent, hcut, List.dropLast_concat, render_eq]

theorem parent_dir (h : Canonical cwd) : ParentDir cwd (parent cwd) := by
  obtain ⟨parts, hparts, rfl⟩ := h
  exact ⟨parts, hparts, rfl, parent_render hparts⟩

theorem parent_canonical (h : Canonical cwd) : Canonical (parent cwd) := by
  obtain ⟨parts, hparts, rfl⟩ := h
  exact ⟨parts.dropLast, fun c hc => hparts c (List.dropLast_subset _ hc), parent_render hparts⟩

theorem join_render (hparts : ∀ c ∈ parts, Component c) (name : Bytes) :
    join (render parts) name = render (parts ++ [name]) := by
  have hne : parts ++ [name] ≠ [] := by simp
  rw [join, render_flat hne, flat_snoc]
  by_cases h : parts = []
  · subst h
    rfl
  · rw [if_neg (mt (render_eq_slash hparts).mp h), render_flat h]

theorem join_canonical (h : Canonical cwd) (hname : Component name) :
    Canonical (join cwd name) := by
  obtain ⟨parts, hparts, rfl⟩ := h
  refine ⟨parts ++ [name], fun c hc => ?_, join_render hparts name⟩
  rcases List.mem_append.mp hc with hc | hc
  · exact hparts c hc
  · rw [List.mem_singleton.mp hc]
    exact hname

theorem segments_filter (acc : Bytes) (rest : List Bytes) :
    segments acc (rest.filter (· ≠ [])) = segments acc rest := by
  induction rest generalizing acc with
  | nil => rfl
  | cons part rest ih =>
    by_cases h : part = []
    · rw [List.filter_cons_of_neg (by simpa using h), segments, if_pos h, ih]
    · rw [List.filter_cons_of_pos (by simpa using h), segments, segments, if_neg h, if_neg h, ih]

theorem mem_segments {parts rest : List Bytes} (hparts : ∀ c ∈ parts, Component c)
    (hrest : ∀ c ∈ rest, Component c) {seg : Bytes × Bytes} (h : seg ∈ segments (flat parts) rest) :
    Canonical seg.2 := by
  induction rest generalizing parts with
  | nil => cases h
  | cons part rest ih =>
    have hpart := hrest part List.mem_cons_self
    have hall : ∀ c ∈ parts ++ [part], Component c := by
      simp only [List.mem_append, List.mem_singleton, or_imp, forall_and, forall_eq]
      exact ⟨hparts, hpart⟩
    rw [segments, if_neg hpart.ne_nil, ← flat_snoc] at h
    rcases List.mem_cons.mp h with rfl | h
    · exact ⟨parts ++ [part], hall, (render_flat (by simp)).symm⟩
    · exact ih hall (fun c hc => hrest c (List.mem_cons_of_mem _ hc)) h

theorem pathSegments_canonical (h : Canonical cwd) {seg : Bytes × Bytes}
    (hseg : seg ∈ pathSegments cwd) : Canonical seg.2 := by
  obtain ⟨parts, hparts, rfl⟩ := h
  rcases List.mem_cons.mp hseg with rfl | hseg
  · exact canonical_root
  by_cases hnil : parts = []
  · rw [if_pos ((render_eq_slash hparts).mpr hnil)] at hseg
    cases hseg
  · rw [if_neg (mt (render_eq_slash hparts).mp hnil), ← segments_filter, start_render hparts hnil]
      at hseg
    exact mem_segments (List.forall_mem_nil _) hparts hseg

end Canonical

section Named

variable {cwd name : Bytes}

theorem parent_ne_nil (cwd : Bytes) : parent cwd ≠ [] := by
  rw [parent]
  split
  · exact List.cons_ne_nil _ _
  · assumption

theorem join_ne_nil (cwd name : Bytes) : join cwd name ≠ [] := by
  rw [join]
  split <;> simp

theorem mem_segments_ne_nil {acc : Bytes} {rest : List Bytes} {seg : Bytes × Bytes}
    (h : seg ∈ segments acc rest) : seg.2 ≠ [] := by
  induction rest generalizing acc with
  | nil => cases h
  | cons part rest ih =>
    rw [segments] at h
    split at h
    · exact ih h
    · rcases List.mem_cons.mp h with rfl | h
      · simp
      · exact ih h

theorem pathSegments_ne_nil {seg : Bytes × Bytes} (h : seg ∈ pathSegments cwd) : seg.2 ≠ [] := by
  rcases List.mem_cons.mp h with rfl | h
  · exact List.cons_ne_nil _ _
  · split at h
    · cases h
    · exact mem_segments_ne_nil h

theorem beforeLast_prefix (cwd : Bytes) : beforeLast cwd <+: cwd := by
  have hsuffix :=
    (List.drop_suffix 1 _).trans (List.dropWhile_suffix (fun b => decide (b ≠ slash))
      (l := cwd.reverse))
  have hprefix := List.reverse_prefix.mpr hsuffix
  rwa [List.reverse_reverse] at hprefix

theorem parent_rooted (h : cwd.head? = some slash) : (parent cwd).head? = some slash := by
  rw [parent]
  split
  · rfl
  · rename_i hne
    obtain ⟨rest, hrest⟩ := beforeLast_prefix cwd
    rwa [← hrest, List.head?_append_of_ne_nil _ hne] at h

theorem join_rooted (h : cwd.head? = some slash) (name : Bytes) :
    (join cwd name).head? = some slash := by
  rw [join]
  split
  · rfl
  · rw [List.head?_append, h]
    rfl

theorem mem_segments_rooted {acc : Bytes} {rest : List Bytes} {seg : Bytes × Bytes}
    (hacc : acc = [] ∨ acc.head? = some slash) (h : seg ∈ segments acc rest) :
    seg.2.head? = some slash := by
  induction rest generalizing acc with
  | nil => cases h
  | cons part rest ih =>
    have hnext : (acc ++ slash :: part).head? = some slash := by
      rcases hacc with rfl | hacc
      · rfl
      · rw [List.head?_append, hacc]
        rfl
    rw [segments] at h
    split at h
    · exact ih hacc h
    · rcases List.mem_cons.mp h with rfl | h
      · exact hnext
      · exact ih (.inr hnext) h

theorem pathSegments_rooted {seg : Bytes × Bytes} (h : seg ∈ pathSegments cwd) :
    seg.2.head? = some slash := by
  rcases List.mem_cons.mp h with rfl | h
  · rfl
  · split at h
    · cases h
    · exact mem_segments_rooted (.inl rfl) h

end Named

theorem resolve_row {wd cwd : Bytes} (hwd : Canonical wd) (hcwd : cwd ≠ [] ∨ wd = [slash])
    (name : Bytes) : resolve wd (join cwd name) = resolve wd (join (resolve wd cwd) name) := by
  have hjoin : ∀ c : Bytes, c ≠ [] ∨ wd = [slash] →
      resolve wd (join c name) = render (BoundedStack.run (pathSteps wd c ++ steps name)) := by
    intro c hc
    rw [join]
    split
    · rename_i hroot
      subst hroot
      have hslash := steps_append [] name
      rw [List.nil_append] at hslash
      rw [resolve_run hwd, pathSteps_absolute rfl, pathSteps_absolute rfl, hslash]
      rfl
    · exact resolve_join hwd hc
  have hdir := canonical_resolve hwd cwd
  have hne : resolve wd cwd ≠ [] := by
    intro h
    have hhead := canonical_head hdir
    rw [h] at hhead
    cases hhead
  rw [hjoin cwd hcwd, hjoin _ (.inl hne), run_append, run_append,
    pathSteps_absolute (canonical_head hdir), ← steps_resolve hwd cwd]
  rfl

end CoeleoOs.Ui
