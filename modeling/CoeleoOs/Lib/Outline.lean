import Mathlib.Data.List.Basic

/-!
# Outlines

A forest is drawn with one line for each element: which of the elements above it have another one
to come, whether it is the last one itself, and what it is. The lines give the forest back.
-/

namespace CoeleoOs.Lib

/-- The first element with what is below it, and the elements after it. -/
inductive Forest (α : Type)
  | nil
  | node (a : α) (children rest : Forest α)
  deriving DecidableEq

namespace Forest

structure Line (α : Type) where
  bars : List Bool
  last : Bool
  item : α
  deriving DecidableEq

variable {α : Type}

def isNil : Forest α → Bool
  | nil => true
  | node _ _ _ => false

def items : Forest α → List α
  | nil => []
  | node a children rest => a :: (children.items ++ rest.items)

def lines (bars : List Bool) : Forest α → List (Line α)
  | nil => []
  | node a children rest =>
    ⟨bars, rest.isNil, a⟩ :: (children.lines (bars ++ [!rest.isNil]) ++ rest.lines bars)

def ofList (children : α → Forest α) : List α → Forest α
  | [] => nil
  | a :: as => node a (children a) (ofList children as)

@[simp] theorem isNil_ofList (children : α → Forest α) (as : List α) :
    (ofList children as).isNil = as.isEmpty := by
  cases as <;> rfl

theorem map_item_lines (bars : List Bool) (f : Forest α) :
    (f.lines bars).map Line.item = f.items := by
  induction f generalizing bars with
  | nil => rfl
  | node a children rest ihc ihr => rw [lines, List.map_cons, List.map_append, ihc, ihr, items]

def Outside (n : ℕ) (ls : List (Line α)) : Prop := ∀ l ∈ ls.head?, l.bars.length < n

theorem outside_lines {bars : List Bool} {ls : List (Line α)} (h : Outside bars.length ls)
    (f : Forest α) : Outside (bars.length + 1) (f.lines bars ++ ls) := by
  cases f with
  | nil => exact fun l hl => Nat.lt_succ_of_lt (h l hl)
  | node a children rest =>
    intro l hl
    obtain rfl : ⟨bars, rest.isNil, a⟩ = l := Option.some.inj hl
    exact Nat.lt_succ_self _

theorem lines_append_inj {bars : List Bool} {f g : Forest α} {ls ms : List (Line α)}
    (hls : Outside bars.length ls) (hms : Outside bars.length ms)
    (h : f.lines bars ++ ls = g.lines bars ++ ms) : f = g ∧ ls = ms := by
  induction f generalizing bars g ls ms with
  | nil =>
    cases g with
    | nil => exact ⟨rfl, h⟩
    | node b below after =>
      have hfirst : ls.head? = some ⟨bars, after.isNil, b⟩ := congrArg List.head? h
      exact absurd (hls _ hfirst) (Nat.lt_irrefl _)
  | node a children rest ihc ihr =>
    cases g with
    | nil =>
      have hfirst : some ⟨bars, rest.isNil, a⟩ = ms.head? := congrArg List.head? h
      exact absurd (hms _ hfirst.symm) (Nat.lt_irrefl _)
    | node b below after =>
      rw [lines, lines, List.cons_append, List.cons_append, List.append_assoc, List.append_assoc]
        at h
      obtain ⟨hline, htail⟩ := List.cons.inj h
      obtain ⟨-, hlast, rfl⟩ := Line.mk.inj hline
      rw [hlast] at htail
      have hlen : (bars ++ [!after.isNil]).length = bars.length + 1 := List.length_append
      obtain ⟨rfl, hrest⟩ :=
        ihc (hlen ▸ outside_lines hls rest) (hlen ▸ outside_lines hms after) htail
      obtain ⟨rfl, hend⟩ := ihr hls hms hrest
      exact ⟨rfl, hend⟩

theorem lines_injective (bars : List Bool) :
    Function.Injective (fun f : Forest α => f.lines bars) := by
  intro f g h
  have hnil : Outside bars.length ([] : List (Line α)) := fun l hl => absurd hl (by simp)
  have happend : f.lines bars ++ [] = g.lines bars ++ [] := congrArg (· ++ []) h
  exact (lines_append_inj hnil hnil happend).1

end Forest

end CoeleoOs.Lib
