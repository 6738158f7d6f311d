import CoeleoOs.Task.Pipe
import CoeleoOs.Task.UserAccess

/-!
# Descriptor tables

`FdTable` and its operations from `fd.rs`. An operation that clones or drops a
pipe end takes the pipe table and returns the new one. `FdTable.refs` counts the
entries of a table that refer to one end of one pipe; each operation is stated
by what it does to these counts.
-/

namespace CoeleoOs.Task
open CoeleoOs.Lib

abbrev fdMax : ℕ := 16
abbrev ioMax : ℕ := 4096

inductive OpenFd
  | stdin
  | stdout
  | stderr
  | file (path : Bytes) (offset : ℕ) (writable : Bool)
  | dir (index : ℕ) (ents : List DirEnt)
  | pipe (id : PipeId) (write : Bool)
  deriving DecidableEq

structure FdTable where
  slots : Fin fdMax → Option OpenFd

def dropOpen (of : OpenFd) (ps : Pipes) : Pipes :=
  match of with
  | .pipe id write => Pipe.dropEnd ps id write
  | _ => ps

namespace FdTable

def newStdio : FdTable :=
  ⟨fun i => if i = 0 then some .stdin else if i = 1 then some .stdout
    else if i = 2 then some .stderr else none⟩

def getMut (t : FdTable) (fd : ℕ) : Option OpenFd :=
  if h : fd < fdMax then t.slots ⟨fd, h⟩ else none

def put (t : FdTable) (fd : ℕ) (of : OpenFd) : FdTable :=
  if h : fd < fdMax then ⟨Function.update t.slots ⟨fd, h⟩ (some of)⟩ else t

def take (t : FdTable) (fd : ℕ) : Option OpenFd × FdTable :=
  if h : fd < fdMax then (t.slots ⟨fd, h⟩, ⟨Function.update t.slots ⟨fd, h⟩ none⟩) else (none, t)

def alloc (t : FdTable) (of : OpenFd) : ℕ × FdTable :=
  match Table.position fun i => (t.slots i).isNone with
  | some i => (i, ⟨Function.update t.slots i (some of)⟩)
  | none => (err, t)

def replace (t : FdTable) (fd : ℕ) (of : OpenFd) (ps : Pipes) : FdTable × Pipes :=
  let (old, t) := t.take fd
  let ps := match old with
    | some old => dropOpen old ps
    | none => ps
  if h : fd < fdMax then (⟨Function.update t.slots ⟨fd, h⟩ (some of)⟩, ps)
  else (t, dropOpen of ps)

def cloneSlot (t : FdTable) (fd : ℕ) (ps : Pipes) : Option (OpenFd × Pipes) :=
  match t.getMut fd with
  | none => none
  | some (.dir _ _) => none
  | some (.pipe id write) =>
    match Pipe.cloneEnd ps id write with
    | some ps => some (.pipe id write, ps)
    | none => none
  | some of => some (of, ps)

def closeAll (t : FdTable) (ps : Pipes) : FdTable × Pipes :=
  (⟨fun _ => none⟩, ((List.finRange fdMax).filterMap t.slots).foldl (fun ps of => dropOpen of ps)
    ps)

def inheritStdout (t child : FdTable) (stdoutFd : ℕ) (ps : Pipes) : Option FdTable × Pipes :=
  if stdoutFd = err then (some child, ps)
  else
    match t.cloneSlot stdoutFd ps with
    | some (of, ps) =>
      let (child, ps) := child.replace 1 of ps
      (some child, ps)
    | none => (none, (child.closeAll ps).2)

def inheritFrom (t : FdTable) (stdinFd stdoutFd : ℕ) (ps : Pipes) : Option FdTable × Pipes :=
  let child := newStdio
  if stdinFd = err then t.inheritStdout child stdoutFd ps
  else
    match t.cloneSlot stdinFd ps with
    | none => (none, ps)
    | some (of, ps) =>
      let (child, ps) := child.replace 0 of ps
      t.inheritStdout child stdoutFd ps

end FdTable

def OpenFd.refs (id : PipeId) (w : Bool) : OpenFd → ℕ
  | .pipe j v => Pipe.single j v id w
  | _ => 0

def FdTable.refs (t : FdTable) (id : PipeId) (w : Bool) : ℕ :=
  Table.total (OpenFd.refs id w) t.slots

namespace FdTable

open Pipe (Exact single)

variable {t t' : FdTable} {ps ps' : Pipes} {rest cnt : PipeId → Bool → ℕ} {of : OpenFd} {fd : ℕ}

theorem refs_update (t : FdTable) (i : Fin fdMax) (x : Option OpenFd) (id : PipeId) (w : Bool) :
    refs ⟨Function.update t.slots i x⟩ id w + (t.slots i).elim 0 (OpenFd.refs id w) =
      t.refs id w + x.elim 0 (OpenFd.refs id w) :=
  Table.total_update _ _ _ _

theorem newStdio_refs (id : PipeId) (w : Bool) : newStdio.refs id w = 0 := by
  unfold refs Table.total
  apply Finset.sum_eq_zero
  intro i _
  simp only [newStdio]
  split_ifs <;> simp [OpenFd.refs]

theorem empty_refs (id : PipeId) (w : Bool) : refs ⟨fun _ => none⟩ id w = 0 := Table.total_none _

theorem refs_eq_zero {id : PipeId} {w : Bool} (h : ∀ fd, t.slots fd ≠ some (.pipe id w)) :
    t.refs id w = 0 := by
  unfold refs Table.total
  apply Finset.sum_eq_zero
  intro fd _
  cases hs : t.slots fd with
  | none => rfl
  | some of =>
    cases of with
    | pipe j v =>
      have hne : ¬ (id = j ∧ w = v) := by
        rintro ⟨rfl, rfl⟩
        exact h fd hs
      simp [OpenFd.refs, single, hne]
    | stdin | stdout | stderr | file _ _ _ | dir _ _ => rfl

theorem take_refs (h : t.take fd = (some of, t')) (id : PipeId) (w : Bool) :
    t.refs id w = t'.refs id w + of.refs id w := by
  unfold take at h
  split at h
  · obtain ⟨hs, rfl⟩ := Prod.mk.inj h
    have hu := refs_update t ⟨fd, by assumption⟩ none id w
    simp only [hs, Option.elim] at hu
    omega
  · simp at h

theorem take_none (h : t.take fd = (none, t')) : t' = t := by
  unfold take at h
  split at h
  · obtain ⟨hs, rfl⟩ := Prod.mk.inj h
    congr 1
    funext j
    by_cases hj : j = ⟨fd, by assumption⟩
    · rw [hj, Function.update_self, hs]
    · rw [Function.update_of_ne hj]
  · exact (Prod.mk.inj h).2.symm

theorem alloc_cases (t : FdTable) (of : OpenFd) :
    (∃ i, t.slots i = none ∧ t.alloc of = (↑i, ⟨Function.update t.slots i (some of)⟩)) ∨
      t.alloc of = (err, t) := by
  unfold alloc
  cases hp : Table.position fun i => (t.slots i).isNone with
  | none => exact Or.inr rfl
  | some i =>
    have hi := Table.position_some hp
    exact Or.inl ⟨i, by simpa using hi, rfl⟩

theorem alloc_refs (i : Fin fdMax) (h : t.slots i = none) (of : OpenFd) (id : PipeId) (w : Bool) :
    refs ⟨Function.update t.slots i (some of)⟩ id w = t.refs id w + of.refs id w := by
  have hu := refs_update t i (some of) id w
  simp only [h, Option.elim] at hu
  omega

theorem put_refs (h : t.getMut fd = some of) {of' : OpenFd}
    (hr : ∀ id w, of'.refs id w = of.refs id w) (id : PipeId) (w : Bool) :
    (t.put fd of').refs id w = t.refs id w := by
  unfold getMut at h
  unfold put
  split at h
  · rename_i hlt
    have hu := refs_update t ⟨fd, hlt⟩ (some of') id w
    simp only [h, Option.elim, hr] at hu
    rw [dif_pos hlt]
    omega
  · simp at h

theorem dropOpen_exact (h : Exact ps fun i v => rest i v + of.refs i v) :
    Exact (dropOpen of ps) rest := by
  cases of with
  | pipe id w => exact Pipe.dropEnd_exact h fun j v => by simp [OpenFd.refs]
  | stdin | stdout | stderr | file _ _ _ | dir _ _ => exact h.congr fun j v => by simp [OpenFd.refs]

theorem foldl_dropOpen_exact (l : List OpenFd) {ps : Pipes}
    (h : Exact ps fun i v => rest i v + (l.map (OpenFd.refs i v)).sum) :
    Exact (l.foldl (fun ps of => dropOpen of ps) ps) rest := by
  induction l generalizing ps with
  | nil => exact h.congr fun j v => by simp
  | cons of l ih =>
    apply ih
    apply dropOpen_exact
    exact h.congr fun j v => by simp; omega

theorem closeAll_exact (h : Exact ps fun i v => rest i v + t.refs i v) :
    Exact (t.closeAll ps).2 rest := by
  apply foldl_dropOpen_exact
  exact h.congr fun j v => by rw [refs, Table.total_eq_sum_filterMap]

theorem cloneSlot_exact (h : Exact ps cnt) (hc : t.cloneSlot fd ps = some (of, ps')) :
    Exact ps' fun i v => cnt i v + of.refs i v := by
  unfold cloneSlot at hc
  split at hc
  · simp at hc
  · simp at hc
  · split at hc
    · rename_i hcl
      obtain ⟨rfl, rfl⟩ := Prod.mk.inj (Option.some.inj hc)
      exact Pipe.cloneEnd_exact h hcl fun j v => by simp [OpenFd.refs]
    · simp at hc
  · rename_i of' hdir hpipe _
    obtain ⟨rfl, rfl⟩ := Prod.mk.inj (Option.some.inj hc)
    refine h.congr fun j v => ?_
    cases of' with
    | pipe id w => exact absurd rfl (hpipe id w)
    | stdin | stdout | stderr | file _ _ _ | dir _ _ => simp [OpenFd.refs]

theorem replace_exact (hfd : fd < fdMax)
    (h : Exact ps fun i v => rest i v + t.refs i v + of.refs i v) :
    Exact (t.replace fd of ps).2 fun i v => rest i v + (t.replace fd of ps).1.refs i v := by
  have hrefs := fun i v => refs_update t ⟨fd, hfd⟩ (some of) i v
  cases hs : t.slots ⟨fd, hfd⟩ with
  | none =>
    simp only [replace, take, dif_pos hfd, hs, Function.update_idem]
    refine h.congr fun j v => ?_
    have := hrefs j v
    simp only [hs, Option.elim] at this
    omega
  | some old =>
    simp only [replace, take, dif_pos hfd, hs, Function.update_idem]
    refine dropOpen_exact (h.congr fun j v => ?_)
    have := hrefs j v
    simp only [hs, Option.elim] at this
    omega

theorem clone_replace_exact {child : FdTable} (hfd : fd < fdMax) {src : ℕ}
    (h : Exact ps fun i v => cnt i v + child.refs i v)
    (hc : t.cloneSlot src ps = some (of, ps')) :
    Exact (child.replace fd of ps').2 fun i v => cnt i v + (child.replace fd of ps').1.refs i v :=
  replace_exact hfd (cloneSlot_exact h hc)

theorem inheritStdout_exact {child : FdTable} (t : FdTable) (stdoutFd : ℕ)
    (h : Exact ps fun i v => cnt i v + child.refs i v) :
    Exact (t.inheritStdout child stdoutFd ps).2 fun i v => cnt i v +
      (t.inheritStdout child stdoutFd ps).1.elim 0 fun child => child.refs i v := by
  unfold inheritStdout
  split
  · exact h
  · cases hc : t.cloneSlot stdoutFd ps with
    | none => exact closeAll_exact h
    | some r => exact clone_replace_exact (by decide) h hc

theorem inheritFrom_exact (t : FdTable) (stdinFd stdoutFd : ℕ) (h : Exact ps cnt) :
    Exact (t.inheritFrom stdinFd stdoutFd ps).2 fun i v => cnt i v +
      (t.inheritFrom stdinFd stdoutFd ps).1.elim 0 fun child => child.refs i v := by
  have hstd : Exact ps fun i v => cnt i v + newStdio.refs i v :=
    h.congr fun i v => by rw [newStdio_refs, Nat.add_zero]
  unfold inheritFrom
  simp only
  split
  · exact inheritStdout_exact t stdoutFd hstd
  · cases hc : t.cloneSlot stdinFd ps with
    | none => exact h
    | some r =>
      obtain ⟨of, ps'⟩ := r
      have hfirst := clone_replace_exact (by decide : 0 < fdMax) hstd hc
      exact inheritStdout_exact t stdoutFd hfirst

open Pipe (DataKept)

theorem dropOpen_dataKept (of : OpenFd) (ps : Pipes) : DataKept ps (dropOpen of ps) := by
  cases of with
  | pipe id w => exact Pipe.dropEnd_dataKept ps id w
  | stdin | stdout | stderr | file _ _ _ | dir _ _ => exact .refl ps

theorem closeAll_dataKept (t : FdTable) (ps : Pipes) : DataKept ps (t.closeAll ps).2 := by
  simp only [closeAll]
  generalize (List.finRange fdMax).filterMap t.slots = l
  induction l generalizing ps with
  | nil => exact .refl ps
  | cons of l ih => exact (dropOpen_dataKept of ps).trans (ih _)

theorem cloneSlot_dataKept (h : t.cloneSlot fd ps = some (of, ps')) : DataKept ps ps' := by
  unfold cloneSlot at h
  split at h
  · simp at h
  · simp at h
  · split at h
    · rename_i hcl
      obtain ⟨-, rfl⟩ := Prod.mk.inj (Option.some.inj h)
      exact Pipe.cloneEnd_dataKept hcl
    · simp at h
  · obtain ⟨-, rfl⟩ := Prod.mk.inj (Option.some.inj h)
    exact .refl _

theorem replace_dataKept (t : FdTable) (fd : ℕ) (of : OpenFd) (ps : Pipes) :
    DataKept ps (t.replace fd of ps).2 := by
  unfold replace
  rcases t.take fd with ⟨_ | old, t'⟩
  · simp only
    split
    · exact .refl ps
    · exact dropOpen_dataKept of ps
  · simp only
    split
    · exact dropOpen_dataKept old ps
    · exact (dropOpen_dataKept old ps).trans (dropOpen_dataKept of _)

theorem inheritStdout_dataKept (t child : FdTable) (stdoutFd : ℕ) (ps : Pipes) :
    DataKept ps (t.inheritStdout child stdoutFd ps).2 := by
  unfold inheritStdout
  split
  · exact .refl ps
  · cases hc : t.cloneSlot stdoutFd ps with
    | none => exact closeAll_dataKept child ps
    | some r => exact (cloneSlot_dataKept hc).trans (replace_dataKept _ _ _ _)

theorem inheritFrom_dataKept (t : FdTable) (stdinFd stdoutFd : ℕ) (ps : Pipes) :
    DataKept ps (t.inheritFrom stdinFd stdoutFd ps).2 := by
  unfold inheritFrom
  simp only
  split
  · exact inheritStdout_dataKept _ _ _ _
  · cases hc : t.cloneSlot stdinFd ps with
    | none => exact .refl ps
    | some r =>
      obtain ⟨of, ps'⟩ := r
      exact ((cloneSlot_dataKept hc).trans (replace_dataKept _ _ _ _)).trans
        (inheritStdout_dataKept _ _ _ _)

end FdTable

end CoeleoOs.Task
