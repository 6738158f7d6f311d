import CoeleoOs.Fs.Mount
import CoeleoOs.Lib.BoundedStack
import CoeleoOs.Lib.Text

/-!
# Paths in the shell

`resolve` of the shell keeps at most 16 components and writes at most 255 bytes; `resolve` of
the kernel has no such limits. Paths are the bytes of a `&str`: the shell cuts only at slashes,
so that its conversions from UTF-8 succeed.
-/

namespace CoeleoOs.Sh
open CoeleoOs.Task (Bytes pathMax)
open CoeleoOs.Fs (slash dot resolveStep)
open CoeleoOs.Lib

def maxParts : ℕ := 16
def outLen : ℕ := 256

def place (parts : List Bytes) (c : Bytes) : List Bytes :=
  if c = [] ∨ c = [dot] then parts
  else if c = [dot, dot] then parts.dropLast
  else if parts.length < maxParts then parts ++ [c]
  else parts

def emit : ℕ → List Bytes → Bytes
  | _, [] => []
  | i, p :: ps => if outLen ≤ i + 1 + p.length then [] else slash :: p ++ emit (i + 1 + p.length) ps

def resolve (cwd arg : Bytes) : Bytes :=
  let first := if arg.head? = some slash then [] else cwd
  let parts := (arg.splitOn slash).foldl place ((first.splitOn slash).foldl place [])
  if parts = [] then [slash] else emit 0 parts

structure Component (c : Bytes) : Prop where
  ne_nil : c ≠ []
  ne_dot : c ≠ [dot]
  ne_dots : c ≠ [dot, dot]
  no_slash : slash ∉ c

def render (parts : List Bytes) : Bytes :=
  if parts = [] then [slash] else slash :: [slash].intercalate parts

def Canonical (cwd : Bytes) : Prop := ∃ parts, (∀ c ∈ parts, Component c) ∧ cwd = render parts

def steps (s : Bytes) : List (Option Bytes) :=
  (s.splitOn slash).filterMap fun c =>
    if c = [] ∨ c = [dot] then none else some (if c = [dot, dot] then none else some c)

def pathSteps (cwd arg : Bytes) : List (Option Bytes) :=
  steps (if arg.head? = some slash then [] else cwd) ++ steps arg

def pathLen (parts : List Bytes) : ℕ := (parts.map fun c => c.length + 1).sum

/-- What `copy_path` does not take. -/
def Refused (path : Bytes) : Prop := path.length = 0 ∨ pathMax < path.length

def SamePath (cwd arg : Bytes) : Prop :=
  resolve cwd arg = Fs.resolve cwd arg ∨ Refused (resolve cwd arg)

/-- More than 16 components are only ever open for a while, and what remains fits; or the first
component that stays does not fit, so that the shell asks for no path at all. -/
def FitsPath (cwd arg : Bytes) : Prop :=
  BoundedStack.Emptied maxParts (pathSteps cwd arg) ∧
    pathLen (BoundedStack.run (pathSteps cwd arg)) < outLen ∨
    ∃ c, BoundedStack.Lowest maxParts (pathSteps cwd arg) c ∧ outLen ≤ c.length + 1

theorem foldl_place (parts : List Bytes) (s : Bytes) :
    (s.splitOn slash).foldl place parts =
      (steps s).foldl (BoundedStack.applyIn maxParts) parts := by
  rw [steps, List.foldl_filterMap]
  congr 1
  funext parts c
  rw [place]
  split
  · rfl
  · split <;> rfl

theorem foldl_resolveStep (parts : List Bytes) (s : Bytes) :
    (s.splitOn slash).foldl resolveStep parts = (steps s).foldl BoundedStack.apply parts := by
  rw [steps, List.foldl_filterMap]
  congr 1
  funext parts c
  rw [resolveStep]
  split
  · rfl
  · split <;> rfl

theorem resolve_eq (cwd arg : Bytes) : resolve cwd arg =
    if BoundedStack.runIn maxParts (pathSteps cwd arg) = [] then [slash]
    else emit 0 (BoundedStack.runIn maxParts (pathSteps cwd arg)) := by
  rw [resolve, foldl_place, foldl_place, ← List.foldl_append]
  rfl

section Canonical

variable {parts : List Bytes} (hparts : ∀ c ∈ parts, Component c)
include hparts

theorem splitOn_render (hne : parts ≠ []) : (render parts).splitOn slash = [] :: parts := by
  have hall : ∀ l ∈ [] :: parts, slash ∉ l := by
    intro l hl
    rcases List.mem_cons.mp hl with rfl | hl
    · simp
    · exact (hparts l hl).no_slash
  have hjoin : render parts = [slash].intercalate ([] :: parts) := by
    rw [render, if_neg hne]
    obtain ⟨c, cs, rfl⟩ := List.exists_cons_of_ne_nil hne
    rfl
  rw [hjoin, List.splitOn_intercalate slash hall (List.cons_ne_nil _ _)]

theorem steps_render : steps (render parts) = parts.map some := by
  by_cases hne : parts = []
  · subst hne
    rfl
  have hkeep : ∀ c ∈ parts, (if c = [] ∨ c = [dot] then none
      else some (if c = [dot, dot] then none else some c) : Option (Option Bytes)) =
        some (some c) := by
    intro c hc
    have h := hparts c hc
    rw [if_neg (not_or.mpr ⟨h.ne_nil, h.ne_dot⟩), if_neg h.ne_dots]
  rw [steps, splitOn_render hparts hne, List.filterMap_cons_none (by simp),
    List.filterMap_congr hkeep]
  exact congrFun (List.filterMap_eq_map' (f := some)) parts

omit hparts in
theorem intercalate_head {c : Bytes} {x : UInt8} {xs : Bytes} (hc : c = x :: xs) (cs : List Bytes) :
    ∃ tail, [slash].intercalate (c :: cs) = x :: tail := by
  subst hc
  cases cs with
  | nil => exact ⟨xs, by simp⟩
  | cons d ds => exact ⟨xs ++ [slash] ++ [slash].intercalate (d :: ds), by simp⟩

theorem start_render (hne : parts ≠ []) :
    (((render parts).dropWhile (· = slash)).splitOn slash).filter (· ≠ []) = parts := by
  have hdrop : (render parts).dropWhile (· = slash) = [slash].intercalate parts := by
    obtain ⟨c, cs, rfl⟩ := List.exists_cons_of_ne_nil hne
    have hc := hparts c List.mem_cons_self
    obtain ⟨x, xs, rfl⟩ := List.exists_cons_of_ne_nil hc.ne_nil
    have hx : x ≠ slash := fun h => hc.no_slash (h ▸ List.mem_cons_self)
    obtain ⟨tail, htail⟩ := intercalate_head rfl cs
    rw [render, if_neg hne, htail, List.dropWhile_cons_of_pos (by simp),
      List.dropWhile_cons_of_neg (by simpa using hx)]
  rw [hdrop, List.splitOn_intercalate slash (fun l hl => (hparts l hl).no_slash) hne]
  apply List.filter_eq_self.mpr
  intro c hc
  simpa using (hparts c hc).ne_nil

theorem foldl_steps_render : (steps (render parts)).foldl BoundedStack.apply [] = parts := by
  rw [steps_render hparts]
  have hpush : ∀ (acc cs : List Bytes), (cs.map some).foldl BoundedStack.apply acc = acc ++ cs := by
    intro acc cs
    induction cs generalizing acc with
    | nil => simp
    | cons c cs ih =>
      rw [List.map_cons, List.foldl_cons, ih, BoundedStack.apply, List.append_assoc]
      rfl
  exact (hpush [] parts).trans (List.nil_append parts)

theorem render_eq_slash : render parts = [slash] ↔ parts = [] := by
  constructor
  · intro h
    by_contra hne
    have hsplit := splitOn_render hparts hne
    rw [h] at hsplit
    obtain rfl : [[]] = parts := List.cons_injective hsplit
    exact (hparts [] (List.mem_singleton_self _)).ne_nil rfl
  · rintro rfl
    rfl

theorem kernel_resolve_eq (arg : Bytes) :
    Fs.resolve (render parts) arg = render (BoundedStack.run (pathSteps (render parts) arg)) := by
  have hstart : (if arg.head? = some slash ∨ render parts = [slash] then []
      else (((render parts).dropWhile (· = slash)).splitOn slash).filter (· ≠ [])) =
        (steps (if arg.head? = some slash then [] else render parts)).foldl
          BoundedStack.apply [] := by
    by_cases habs : arg.head? = some slash
    · rw [if_pos (.inl habs), if_pos habs]
      rfl
    rw [if_neg habs, foldl_steps_render hparts]
    by_cases hne : parts = []
    · rw [if_pos (.inr ((render_eq_slash hparts).mpr hne)), hne]
    · rw [if_neg (not_or.mpr ⟨habs, fun h => hne ((render_eq_slash hparts).mp h)⟩),
        start_render hparts hne]
  have harg :
      ∀ acc : List Bytes, (if arg = [] then acc else (arg.splitOn slash).foldl resolveStep acc) =
      (steps arg).foldl BoundedStack.apply acc := by
    intro acc
    split
    · rename_i hnil
      subst hnil
      rfl
    · exact foldl_resolveStep acc arg
  rw [Fs.resolve, hstart, harg, ← List.foldl_append]
  rfl

end Canonical

theorem steps_component {s : Bytes} {c : Bytes} (h : some c ∈ steps s) : Component c := by
  obtain ⟨d, hd, hkeep⟩ := List.mem_filterMap.mp h
  split at hkeep
  · cases hkeep
  rename_i hempty
  split at hkeep
  · cases hkeep
  rename_i hdots
  obtain rfl := Option.some.inj (Option.some.inj hkeep)
  rw [not_or] at hempty
  exact ⟨hempty.1, hempty.2, hdots, (Text.mem_splitOn hd).1⟩

section Emit

variable {parts : List Bytes} {i : ℕ}

def flat (parts : List Bytes) : Bytes := parts.flatMap fun c => slash :: c

theorem flat_length (parts : List Bytes) : (flat parts).length = pathLen parts := by
  simp [flat, pathLen, List.length_flatMap]

theorem render_flat (hne : parts ≠ []) : render parts = flat parts := by
  have hflat :
      ∀ (c : Bytes) (cs : List Bytes), slash :: [slash].intercalate (c :: cs) = flat (c :: cs) := by
    intro c cs
    induction cs generalizing c with
    | nil => simp [flat]
    | cons d ds ih => rw [List.intercalate_cons_cons, flat, List.flatMap_cons, ← flat, ← ih d]; simp
  obtain ⟨c, cs, rfl⟩ := List.exists_cons_of_ne_nil hne
  rw [render, if_neg hne, hflat]

theorem emit_eq (i : ℕ) (parts : List Bytes) :
    ∃ k, emit i parts = flat (parts.take k) ∧
    (i < outLen → (parts.take k = parts ↔ i + pathLen parts < outLen)) ∧
      (i < outLen → i + (emit i parts).length < outLen) := by
  induction parts generalizing i with
  | nil => exact ⟨0, rfl, fun h => iff_of_true rfl h, fun h => h⟩
  | cons p ps ih =>
    obtain ⟨k, hk, hall, hlen⟩ := ih (i + 1 + p.length)
    have hsum : pathLen (p :: ps) = p.length + 1 + pathLen ps := by simp [pathLen]
    by_cases hfit : outLen ≤ i + 1 + p.length
    · refine ⟨0,
        by rw [emit, if_pos hfit]; rfl, fun _ => iff_of_false (by simp) (by omega), fun h => ?_⟩
      rw [emit, if_pos hfit]
      exact h
    · refine ⟨k + 1, ?_, fun _ => ?_, fun _ => ?_⟩
      · rw [emit, if_neg hfit, hk]
        rfl
      · have hiff := hall (by omega)
        rw [List.take_succ_cons, List.cons_inj_right, hiff, hsum]
        omega
      · have hle := hlen (by omega)
        rw [emit, if_neg hfit, List.cons_append, List.length_cons, List.length_append]
        omega

theorem emit_eq_nil (hne : parts ≠ []) :
    emit 0 parts = [] ↔ ∃ c, parts.head? = some c ∧ outLen ≤ c.length + 1 := by
  obtain ⟨c, cs, rfl⟩ := List.exists_cons_of_ne_nil hne
  rw [emit]
  split
  · rename_i hlong
    refine iff_of_true rfl ⟨c, rfl, by omega⟩
  · rename_i hfit
    refine iff_of_false (by simp) ?_
    rintro ⟨d, hd, hlong⟩
    obtain rfl := Option.some.inj hd
    omega

theorem flat_injective {xs ys : List Bytes} (hxs : ∀ c ∈ xs, Component c)
    (hys : ∀ c ∈ ys, Component c) (h : flat xs = flat ys) : xs = ys := by
  by_cases hx : xs = []
  · subst hx
    rcases ys with _ | ⟨y, ys⟩
    · rfl
    · cases h
  by_cases hy : ys = []
  · subst hy
    rcases xs with _ | ⟨x, xs⟩
    · rfl
    · cases h
  have hsplit := splitOn_render hxs hx
  rw [render_flat hx, h, ← render_flat hy, splitOn_render hys hy] at hsplit
  exact (List.cons_injective hsplit).symm

end Emit

theorem resolve_length (cwd arg : Bytes) : (resolve cwd arg).length < outLen := by
  rw [resolve_eq]
  split
  · decide
  · obtain ⟨k, -, -, hlen⟩ := emit_eq 0 (BoundedStack.runIn maxParts (pathSteps cwd arg))
    have hlt := hlen (by decide)
    omega

theorem refused_iff (cwd arg : Bytes) : Refused (resolve cwd arg) ↔ resolve cwd arg = [] := by
  have hlen := resolve_length cwd arg
  rw [Refused, List.length_eq_zero_iff, or_iff_left]
  simp only [outLen, pathMax] at hlen ⊢
  omega

theorem pathSteps_component {cwd arg c : Bytes} (h : some c ∈ pathSteps cwd arg) : Component c := by
  rcases List.mem_append.mp h with h | h
  · exact steps_component h
  · exact steps_component h

/-- A path that needs no resolving and fits. -/
def Absolute (path : Bytes) : Prop :=
  ∃ parts, (∀ c ∈ parts, Component c) ∧ path = render parts ∧ parts.length ≤ maxParts ∧
    path.length < outLen

theorem resolve_render (cwd : Bytes) {parts : List Bytes} (hparts : ∀ c ∈ parts, Component c)
    (hfew : parts.length ≤ maxParts) (hlen : (render parts).length < outLen) :
    resolve cwd (render parts) = render parts := by
  have hhead : (render parts).head? = some slash := by
    rw [render]
    split <;> rfl
  have hsteps : pathSteps cwd (render parts) = parts.map some := by
    rw [pathSteps, if_pos hhead, steps_render hparts]
    rfl
  rw [resolve_eq, hsteps, BoundedStack.runIn_pushes hfew]
  split
  · rename_i hnil
    rw [hnil]
    rfl
  · rename_i hne
    obtain ⟨k, hk, hall, -⟩ := emit_eq 0 parts
    rw [render_flat hne] at hlen ⊢
    have hfit : 0 + pathLen parts < outLen := by rwa [Nat.zero_add, ← flat_length]
    rw [hk, (hall (by decide)).mpr hfit]

theorem resolve_eq_self_iff (cwd : Bytes) {path : Bytes} (hne : path ≠ []) :
    resolve cwd path = path ↔ Absolute path := by
  constructor
  · intro h
    have hlen := resolve_length cwd path
    rw [h] at hlen
    rw [resolve_eq] at h
    split at h
    · exact ⟨[], by simp, h.symm, by decide, hlen⟩
    · obtain ⟨k, hk, -⟩ := emit_eq 0 (BoundedStack.runIn maxParts (pathSteps cwd path))
      rw [hk] at h
      refine ⟨(BoundedStack.runIn maxParts (pathSteps cwd path)).take k, ?_, ?_, ?_, hlen⟩
      · exact fun c hc => pathSteps_component (BoundedStack.mem_runIn (List.mem_of_mem_take hc))
      · rw [render_flat, h]
        intro hnil
        rw [hnil] at h
        exact hne h.symm
      · have hle := BoundedStack.runIn_length_le maxParts (pathSteps cwd path)
        rw [List.length_take]
        omega
  · rintro ⟨parts, hparts, rfl, hfew, hlen⟩
    exact resolve_render cwd hparts hfew hlen

/-- The shell asks for the path that the kernel would resolve, or for none, exactly on these
arguments. -/
theorem samePath_iff {cwd : Bytes} (arg : Bytes) (hcwd : Canonical cwd) :
    SamePath cwd arg ↔ FitsPath cwd arg := by
  obtain ⟨parts, hparts, rfl⟩ := hcwd
  rw [SamePath, FitsPath, refused_iff, kernel_resolve_eq hparts, resolve_eq,
    ← BoundedStack.runIn_eq_iff]
  simp only [← BoundedStack.runIn_head_iff (show 0 < maxParts by decide)]
  have hS : ∀ c ∈ BoundedStack.runIn maxParts (pathSteps (render parts) arg), Component c :=
    fun c hc =>
    pathSteps_component (BoundedStack.mem_runIn hc)
  have hK : ∀ c ∈ BoundedStack.run (pathSteps (render parts) arg), Component c := fun c hc =>
    pathSteps_component (BoundedStack.mem_run hc)
  have hcases := BoundedStack.runIn_cases maxParts (pathSteps (render parts) arg)
  generalize BoundedStack.runIn maxParts (pathSteps (render parts) arg) = S at hS hcases ⊢
  generalize BoundedStack.run (pathSteps (render parts) arg) = K at hK hcases ⊢
  have hle : S.length ≤ K.length := by
    rcases hcases with ⟨-, rfl⟩ | ⟨-, hlt⟩
    · exact Nat.le_refl _
    · exact Nat.le_of_lt hlt
  by_cases hne : S = []
  · subst hne
    rw [if_pos rfl, eq_comm, render_eq_slash hK]
    constructor
    · rintro (rfl | hnil)
      · exact .inl ⟨rfl, by decide⟩
      · cases hnil
    · rintro (⟨rfl, -⟩ | ⟨c, hc, -⟩)
      · exact .inl rfl
      · cases hc
  rw [if_neg hne, emit_eq_nil hne]
  apply or_congr_left
  have hKne : K ≠ [] := by
    rintro rfl
    exact hne (List.eq_nil_of_length_eq_zero (Nat.le_zero.mp hle))
  obtain ⟨k, hk, hall, -⟩ := emit_eq 0 S
  have hall := hall (by decide)
  rw [Nat.zero_add] at hall
  rw [hk, render_flat hKne]
  constructor
  · intro h
    have htake : S.take k = K := flat_injective (fun c hc => hS c (List.mem_of_mem_take hc)) hK h
    have hlen : S.take k = S := by
      apply List.take_of_length_le
      have hshort := congrArg List.length htake
      rw [List.length_take] at hshort
      omega
    have hsame : S = K := hlen.symm.trans htake
    exact ⟨hsame, hsame ▸ hall.mp hlen⟩
  · rintro ⟨rfl, hfit⟩
    rw [hall.mpr hfit]

theorem samePath_parent : SamePath [0x2F, 0x61, 0x2F, 0x62] [0x2E, 0x2E, 0x2F, 0x63] := by
  have hcwd : Canonical [0x2F, 0x61, 0x2F, 0x62] := by
    refine ⟨[[0x61], [0x62]], ?_, rfl⟩
    intro c hc
    rcases List.mem_pair.mp hc with rfl | rfl <;> exact ⟨by decide, by decide, by decide, by decide⟩
  have hkept :=
    (BoundedStack.runIn_eq_iff maxParts (pathSteps [0x2F, 0x61, 0x2F, 0x62] [0x2E, 0x2E,
      0x2F, 0x63])).mp (by decide)
  exact (samePath_iff [0x2E, 0x2E, 0x2F, 0x63] hcwd).mpr (.inl ⟨hkept, by decide⟩)

def deepArg : Bytes := [slash].intercalate ((List.range 17).map fun i => [UInt8.ofNat (0x61 + i)])

theorem deepArg_dropped :
    ¬∀ cwd arg : Bytes, Canonical cwd → cwd.length ≤ 255 → SamePath cwd arg := by
  intro h
  have hroot := h [slash] deepArg ⟨[], by simp, rfl⟩ (by decide)
  revert hroot
  simp only [SamePath, Refused]
  decide

end CoeleoOs.Sh
