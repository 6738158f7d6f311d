import CoeleoOs.Sh.Cwd

/-!
# Paths in the kernel

`fs::resolve` gives one name to each path: the components that are left, each a file name, after
the root. What comes before an absolute path does not count, and the argument may be read in two
parts, unless the first part is empty and turns the rest into an absolute path.
-/

namespace CoeleoOs.Fs
open CoeleoOs.Lib CoeleoOs.Sh
open CoeleoOs.Task (Bytes)

section Steps

variable {cwd a b : Bytes}

theorem steps_append (a b : Bytes) : steps (a ++ slash :: b) = steps a ++ steps b := by
  rw [steps, List.splitOn_append_cons_self, List.filterMap_append]
  rfl

theorem pathSteps_relative (h : b.head? ≠ some slash) : pathSteps cwd b = steps cwd ++ steps b := by
  rw [pathSteps, if_neg h]

theorem pathSteps_absolute (h : b.head? = some slash) : pathSteps cwd b = steps b := by
  rw [pathSteps, if_pos h]
  rfl

theorem pathSteps_append (ha : a ≠ []) :
    pathSteps cwd (a ++ slash :: b) = pathSteps cwd a ++ steps b := by
  have hhead : (a ++ slash :: b).head? = a.head? := by
    obtain ⟨x, xs, rfl⟩ := List.exists_cons_of_ne_nil ha
    rfl
  rw [pathSteps, pathSteps, hhead, steps_append, List.append_assoc]

theorem run_append (xs ys : List (Option Bytes)) :
    BoundedStack.run (xs ++ ys) = ys.foldl BoundedStack.apply (BoundedStack.run xs) :=
  List.foldl_append

theorem run_component (cwd arg : Bytes) : ∀ c ∈ BoundedStack.run (pathSteps cwd arg), Component c :=
  fun _ hc => pathSteps_component (BoundedStack.mem_run hc)

end Steps

section Resolve

variable {cwd : Bytes}

theorem resolve_run (hcwd : Canonical cwd) (arg : Bytes) :
    resolve cwd arg = render (BoundedStack.run (pathSteps cwd arg)) := by
  obtain ⟨parts, hparts, rfl⟩ := hcwd
  exact kernel_resolve_eq hparts arg

theorem resolve_absolute (c c' : Bytes) {arg : Bytes} (h : arg.head? = some slash) :
    resolve c arg = resolve c' arg := by
  simp only [resolve, h, true_or, if_true]

theorem canonical_resolve (hcwd : Canonical cwd) (arg : Bytes) : Canonical (resolve cwd arg) :=
  ⟨_, run_component cwd arg, resolve_run hcwd arg⟩

theorem canonical_root : Canonical [slash] := ⟨[], nofun, rfl⟩

theorem canonical_head {path : Bytes} (h : Canonical path) : path.head? = some slash := by
  obtain ⟨parts, -, rfl⟩ := h
  rw [render]
  split <;> rfl

theorem resolve_canonical_arg (c : Bytes) {path : Bytes} (h : Canonical path) :
    resolve c path = path := by
  rw [resolve_absolute c [slash] (canonical_head h), resolve_run canonical_root,
    pathSteps_absolute (canonical_head h)]
  obtain ⟨parts, hparts, rfl⟩ := h
  exact congrArg render (foldl_steps_render hparts)

theorem steps_resolve (hcwd : Canonical cwd) (arg : Bytes) :
    (steps (resolve cwd arg)).foldl BoundedStack.apply [] =
      BoundedStack.run (pathSteps cwd arg) := by
  rw [resolve_run hcwd, foldl_steps_render (run_component cwd arg)]

theorem resolve_step (hcwd : Canonical cwd) (a : Bytes) {b : Bytes} (hb : b.head? ≠ some slash) :
    resolve (resolve cwd a) b = render (BoundedStack.run (pathSteps cwd a ++ steps b)) := by
  rw [resolve_run (canonical_resolve hcwd a), pathSteps_relative hb, run_append, run_append,
    BoundedStack.run, steps_resolve hcwd]

theorem resolve_join (hcwd : Canonical cwd) {a b : Bytes} (ha : a ≠ [] ∨ cwd = [slash]) :
    resolve cwd (a ++ slash :: b) = render (BoundedStack.run (pathSteps cwd a ++ steps b)) := by
  rw [resolve_run hcwd]
  by_cases hne : a = []
  · subst hne
    obtain rfl := ha.resolve_left (not_not.mpr rfl)
    have hroot : pathSteps [slash] [] = [] := by decide
    rw [List.nil_append, pathSteps_absolute rfl, hroot, List.nil_append]
    have hslash := steps_append [] b
    rw [List.nil_append] at hslash
    rw [hslash]
    rfl
  · rw [pathSteps_append hne]

theorem resolve_lawful (hcwd : Canonical cwd) :
    (∀ p, Canonical (resolve cwd p)) ∧ (∀ c p, resolve c (resolve cwd p) = resolve cwd p) ∧
      ∀ a b, b.head? ≠ some slash → (a ≠ [] ∨ cwd = [slash]) →
        resolve (resolve cwd a) b = resolve cwd (a ++ slash :: b) := by
  refine ⟨canonical_resolve hcwd, fun c p => resolve_canonical_arg c (canonical_resolve hcwd p),
    fun a b hb ha => ?_⟩
  rw [resolve_step hcwd a hb, resolve_join hcwd ha]

theorem x_canonical : Canonical [slash, 0x78] := ⟨[[0x78]], by
  intro c hc
  obtain rfl := List.mem_singleton.mp hc
  exact ⟨by decide, by decide, by decide, by decide⟩, by decide⟩

theorem resolve_lawful_x :
    resolve (resolve [slash, 0x78] [dot, dot]) [0x79] = resolve [slash, 0x78] [dot, dot,
      slash, 0x79] :=
  (resolve_lawful x_canonical).2.2 [dot, dot] [0x79] (by decide) (.inl (by decide))

theorem resolve_join_empty : ¬∀ cwd a b : Bytes, Canonical cwd → b.head? ≠ some slash →
    resolve (resolve cwd a) b = resolve cwd (a ++ slash :: b) := by
  intro h
  have hx := h [slash, 0x78] [] [0x79] x_canonical (by decide)
  revert hx
  decide

end Resolve

end CoeleoOs.Fs
