import Mathlib.Data.List.Infix
import CoeleoOs.Fs.FileIo

/-!
# The file manager

The part of the file manager in the kernel that decides which file a deletion removes. Its
other functions place rows and buttons by a font that the build generates; what they make
of the panel is left open where they are called.
-/

namespace CoeleoOs.Ui
open CoeleoOs.Fs
open CoeleoOs.Task (Bytes DirEnt FsError utf8Valid)

inductive FmMode
  | list | preview | image
  deriving DecidableEq

inductive NavFocus
  | path | search | list
  deriving DecidableEq

structure Fm where
  cwd : Bytes
  ents : List DirEnt
  sel : ℕ
  mode : FmMode
  search : Bytes
  nav : NavFocus
  lastH : ℕ
  deriving DecidableEq

structure MenuFlags where
  canOpen : Bool
  canUp : Bool
  canDelete : Bool

def asciiLower (b : UInt8) : UInt8 := if 0x41 ≤ b ∧ b ≤ 0x5A then b + 0x20 else b

def join (cwd name : Bytes) : Bytes := if cwd = [slash] then slash :: name else cwd ++ slash :: name

namespace Fm

variable {φ η : Type}

def wantsArrows (s : Fm) : Bool := s.nav = .path ∨ s.nav = .search

def visible (s : Fm) : List DirEnt :=
  if s.search = [] then s.ents
  else
    let q := if utf8Valid s.search then s.search else []
    s.ents.filter fun e => q.map asciiLower <:+: e.name.map asciiLower

def reload (fat : Fatfs φ η) (m : Mount φ) (s : Fm) : Fm :=
  { s with
    mode := .list
    sel := 0
    ents := match m.list fat s.cwd with | .ok ents => ents | .error _ => [] }

def init (fat : Fatfs φ η) (m : Mount φ) : Fm := reload fat m ⟨[slash], [], 0, .list, [], .list, 0⟩

-- The rows are not counted before the panel is drawn for the first time.
def ensureVisible (s : Fm) : Fm :=
  if s.lastH = 0 then s
  else
    let n := s.visible.length
    if n = 0 then { s with sel := 0 } else { s with sel := min s.sel (n - 1) }

def deleteSel (fat : FatIo φ η) (m : Mount φ) (s : Fm) : Option Bytes × Mount φ × Fm :=
  if s.mode ≠ .list then (none, m, s)
  else
    match s.visible[s.sel]? with
    | none => (none, m, s)
    | some ent =>
      if ent.isDir then (none, m, s)
      else
        let path := join s.cwd ent.name
        match m.remove fat path with
        | (.error _, m) => (none, m, s)
        | (.ok (), m) =>
          let keep := s.sel
          let s := s.reload fat.toFatfs m
          let n := s.ents.length
          (some path, m, { s with sel := if n = 0 then 0 else min keep (n - 1) }.ensureVisible)

def menuFlags (s : Fm) : MenuFlags :=
  let ent := s.visible[s.sel]?
  ⟨ent.isSome, s.cwd ≠ [slash], ent.any fun e => !e.isDir⟩

/-- The selected row is a file, and the volume lets it be removed. -/
def Removable (fat : FatIo φ η) (m : Mount φ) (s : Fm) : Prop :=
  s.mode = .list ∧ ∃ ent, s.visible[s.sel]? = some ent ∧ ent.isDir = false ∧
    (m.remove fat (join s.cwd ent.name)).1 = .ok ()

variable {fat : FatIo φ η} {m : Mount φ} {s : Fm}

theorem deleteSel_removes : (s.deleteSel fat m).1 ≠ none ↔ s.Removable fat m := by
  unfold deleteSel Removable
  split
  · rename_i hmode
    exact iff_of_false (fun h => h rfl) fun h => hmode h.1
  · rename_i hmode
    rw [not_not] at hmode
    split
    · rename_i hent
      refine iff_of_false (fun h => h rfl) fun h => ?_
      obtain ⟨ent, hsome, -⟩ := h.2
      exact nomatch hent.symm.trans hsome
    · rename_i ent hent
      simp only [hmode, hent, true_and, Option.some.injEq, exists_eq_left']
      split
      · rename_i hdir
        exact iff_of_false (fun h => h rfl) fun h => nomatch hdir.symm.trans h.1
      · rename_i hdir
        rw [Bool.not_eq_true] at hdir
        split
        · rename_i hrem
          exact iff_of_false (fun h => h rfl) fun h =>
            nomatch (congrArg Prod.fst hrem).symm.trans h.2
        · rename_i hrem
          exact iff_of_true nofun ⟨hdir, congrArg Prod.fst hrem⟩

end Fm

end CoeleoOs.Ui
