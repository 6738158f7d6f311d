import CoeleoOs.Lib.Outline
import CoeleoOs.Sh.Readdir
import CoeleoOs.Sh.TextOut

/-!
# `tree`

`tree` walks four levels of directories, the first 32 entries of each, and draws a line for every
entry. One array of flags serves the whole walk: a level sets its own flag and finds it again after
the levels below. What is drawn is the forest of the entries, and the bytes of the output tell it.
-/

namespace CoeleoOs.Sh.Tree
open CoeleoOs.Lib CoeleoOs.Lib.Text CoeleoOs.Sh.Complete
open CoeleoOs.Fs (FatIo flatFat slash dot)
open CoeleoOs.Task (Bytes DirEnt FdTable OpenFd fdMax packDirent utf8Valid utf8Valid_append)

variable {φ η : Type}

abbrev maxDepth : ℕ := 4
abbrev maxEntriesPerDir : ℕ := 32
abbrev entNameCap : ℕ := 64
abbrev pathCap : ℕ := 256

structure Entry where
  name : Bytes
  isDir : Bool
  deriving DecidableEq

structure Walk (φ : Type) where
  written : Written φ
  mask : List Bool
  dirs : ℕ
  files : ℕ

def Walk.put (w : Walk φ) (ps : List Piece) : Walk φ := { w with written := w.written.put ps }

def Walk.withFiles (w : Walk φ) (files : Files φ) : Walk φ :=
  { w with written := w.written.withFiles files }

def entryOf (ent : Bytes) : Entry := ⟨(direntName ent).take entNameCap, direntIsDir ent⟩

def named (ent : Bytes) : Bool :=
  direntName ent ≠ [] ∧ direntName ent ≠ [dot] ∧ direntName ent ≠ [dot, dot]

def entryLoop (fd : ℕ) : ℕ → List Entry → Files φ → Option (List Entry × Files φ)
  | 0, _, _ => none
  | fuel + 1, entries, s =>
    if maxEntriesPerDir ≤ entries.length then some (entries, s)
    else
      match s.readdir fd with
      | (none, s) | (some none, s) => some (entries, s)
      | (some (some ent), s) =>
        if named (packDirent ent) then entryLoop fd fuel (entries ++ [entryOf (packDirent ent)]) s
          else entryLoop fd fuel entries s

def concatPath (base child : Bytes) : Bytes :=
  let out := base.take pathCap
  let out := if base.getLast? ≠ some slash ∧ out.length < pathCap then out ++ [slash] else out
  let out := out ++ child.take (pathCap - out.length)
  if utf8Valid out then out else [slash]

-- `│   ` or four spaces
def indent (bar : Bool) : Piece :=
  .text (if bar then [0xE2, 0x94, 0x82, 0x20, 0x20, 0x20] else [0x20, 0x20, 0x20, 0x20])

-- `└── ` or `├── `
def connector (last : Bool) : Piece :=
  .text [0xE2, 0x94, if last then 0x94 else 0x9C, 0xE2, 0x94, 0x80, 0xE2, 0x94, 0x80, 0x20]

def blue : Piece := .colour [0x1B, 0x5B, 0x31, 0x3B, 0x33, 0x34, 0x6D]

def Entry.text (e : Entry) : Bytes := if utf8Valid e.name then e.name else []

def label (e : Entry) : List Piece :=
  if e.isDir then [blue, .text e.text, normal, lit "\n"] else [.text e.text, lit "\n"]

def entryRows (walk : Bytes → ℕ → Walk φ → Option (Walk φ)) (path : Bytes) (depth : ℕ) :
    List Entry → Walk φ → Option (Walk φ)
  | [], w => some w
  | e :: es, w => do
    let w := { w with mask := w.mask.set depth !es.isEmpty }
    let w := w.put ((w.mask.take depth).map indent)
    let w := w.put [connector es.isEmpty]
    let w ← if e.isDir then walk (concatPath path e.text) (depth + 1) (({ w with
      dirs := w.dirs + 1 } : Walk φ).put (label e))
        else some (({ w with files := w.files + 1 } : Walk φ).put (label e))
    entryRows walk path depth es w

def walkDir (fat : FatIo φ η) : ℕ → Bytes → ℕ → Walk φ → Option (Walk φ)
  | 0, _, _, _ => none
  | fuel + 1, path, depth, w =>
    if maxDepth ≤ depth then some w
    else
      match w.written.files.openPath fat path openRead with
      | (none, files) => some (w.withFiles files)
      | (some fd, files) => do
        let (entries, files) ← entryLoop fd fuel [] files
        entryRows (walkDir fat fuel) path depth entries (w.withFiles (files.close fd))

def treePath (cwd : Bytes) (args : List Char) : Bytes :=
  let pathArg := (splitWhitespace args).headD []
  if pathArg = [] then cwd else resolve cwd (utf8 pathArg)

def notFound (path : Bytes) : List Piece :=
  [lit "tree: not found\n", red, lit "error:", normal, lit " ", lit "tree", lit ": '", .text path,
    lit "': ", lit "directory not found", lit "\n"]

def cmdTree (fat : FatIo φ η) (fuel : ℕ) (cwd : Bytes) (args : List Char) (s : Written φ) :
    Option (Written φ) :=
  let path := treePath cwd args
  match s.files.openPath fat path openRead with
  | (none, files) => some ((s.withFiles files).put (notFound path))
  | (some fd, files) => do
    let s := (s.withFiles (files.close fd)).put [blue, .text path, normal, lit "\n"]
    let w ← walkDir fat fuel path 0 ⟨s, List.replicate maxDepth false, 0, 0⟩
    some (w.written.put [lit "\n", .text (printNum w.dirs), lit " dir(s), ",
      .text (printNum w.files), lit " file(s)\n"])

section Shown

def shown (ents : List DirEnt) : List Entry :=
  (((ents.map packDirent).filter named).map entryOf).take maxEntriesPerDir

def join (dir name : Bytes) : Bytes :=
  dir ++ (if dir.getLast? = some slash then [] else [slash]) ++ name

def childrenOf (sub : Bytes → Forest Entry) (e : Entry) : Forest Entry :=
  if e.isDir then sub e.name else .nil

def below (list : Bytes → Option (List DirEnt)) : ℕ → Bytes → Forest Entry
  | 0, _ => .nil
  | left + 1, path =>
    match list path with
    | none => .nil
    | some ents => .ofList (childrenOf fun name => below list left (join path name)) (shown ents)

/-- The paths of the directories on the way fit the buffer. -/
def PathsFit (list : Bytes → Option (List DirEnt)) : ℕ → Bytes → Prop
  | 0, _ => True
  | left + 1, path => path.length ≤ pathCap ∧
    ∀ ents, list path = some ents → ∀ e ∈ shown ents, e.isDir = true →
    PathsFit list left (join path e.name)

def linePieces (l : Forest.Line Entry) : List Piece :=
  l.bars.map indent ++ connector l.last :: label l.item

/-- What `tree` writes. -/
def treePieces (path : Bytes) : Option (Forest Entry) → List Piece
  | none => notFound path
  | some f => [blue, .text path, normal, lit "\n"] ++ (f.lines []).flatMap linePieces ++
    [lit "\n", .text (printNum (f.items.countP (·.isDir))), lit " dir(s), ",
      .text (printNum (f.items.countP (!·.isDir))), lit " file(s)\n"]

/-- What can be opened at a path; a file has no entries. -/
def opened (fat : FatIo φ η) (s : Files φ) (path : Bytes) : Option (List DirEnt) :=
  match pathArg path with
  | none => none
  | some path =>
    match s.mount.list fat.toFatfs path with
    | .ok ents => some ents
    | .error .notDir => some []
    | .error _ => none

/-- The tree at a path, where there is one. -/
def treeAt (fat : FatIo φ η) (s : Files φ) (path : Bytes) : Option (Forest Entry) :=
  (opened fat s path).map fun _ => below (opened fat s) maxDepth path

/-- The standard descriptors are in use, and there is a free one. -/
structure Ready (s : Files φ) : Prop where
  std : ∀ fd ≤ 2, (s.fds.getMut fd).isSome
  room : ∃ fd, s.fds.getMut fd = none ∧ fd < fdMax

end Shown

section Descriptors

variable {s : Files φ} {fd : ℕ}

/-- A descriptor that was free. -/
structure Free (s : Files φ) (fd : ℕ) : Prop where
  std : 2 < fd
  lt : fd < fdMax
  unused : s.fds.getMut fd = none

def withFd (s : Files φ) (fd : ℕ) (of : OpenFd) : Files φ := { s with fds := s.fds.put fd of }

theorem Free.slot (h : Free s fd) : s.fds.slots ⟨fd, h.lt⟩ = none := by
  have hnone := h.unused
  rwa [FdTable.getMut, dif_pos h.lt] at hnone

theorem Free.getMut (h : Free s fd) (of : OpenFd) : (withFd s fd of).fds.getMut fd = some of := by
  simp [withFd, FdTable.put, FdTable.getMut, h.lt]

theorem Free.put_put (h : Free s fd) (of of' : OpenFd) :
    (s.fds.put fd of).put fd of' = s.fds.put fd of' := by
  simp [FdTable.put, h.lt]

theorem Free.close (h : Free s fd) (of : OpenFd) : (withFd s fd of).close fd = s := by
  have htable : (s.fds.put fd of).take fd = (some of, s.fds) := by
    simp only [FdTable.put, FdTable.take, dif_pos h.lt, Function.update_self, Function.update_idem]
    rw [← h.slot, Function.update_eq_self]
  rw [Files.close, if_neg (Nat.not_le_of_lt h.std), withFd, htable]

theorem Ready.alloc (h : Ready s) (of : OpenFd) :
    ∃ fd, Free s fd ∧ s.alloc of = (some fd, withFd s fd of) := by
  obtain ⟨free, hfree, hlt⟩ := h.room
  rw [FdTable.getMut, dif_pos hlt] at hfree
  cases hp : Table.position fun i => (s.fds.slots i).isNone with
  | none =>
    have hused := Table.position_none hp ⟨free, hlt⟩
    rw [hfree] at hused
    cases hused
  | some i =>
    have hslot : s.fds.slots i = none := Option.isNone_iff_eq_none.mp (Table.position_some hp)
    have hget : s.fds.getMut i = none := by rw [FdTable.getMut, dif_pos i.isLt]; exact hslot
    have halloc : s.fds.alloc of = (↑i, s.fds.put i of) := by
      rw [FdTable.alloc, hp, FdTable.put, dif_pos i.isLt]
    refine ⟨i, ⟨?_, i.isLt, hget⟩, ?_⟩
    · by_contra hle
      have hsome := h.std i (Nat.le_of_not_lt hle)
      rw [hget] at hsome
      cases hsome
    · rw [Files.alloc, halloc]
      dsimp only
      rw [if_neg (Nat.ne_of_lt (i.isLt.trans (by decide)))]
      rfl

theorem openPath_opened (fat : FatIo φ η) (h : Ready s) (path : Bytes) :
    (opened fat s path = none ∧ s.openPath fat path openRead = (none, s)) ∨
      ∃ fd of ents, Free s fd ∧ opened fat s path = some ents ∧ s.openPath fat path openRead =
        (some fd, withFd s fd of) ∧ (of = .dir 0 ents ∨ ents = [] ∧ ∃ p, of = .file p 0 false) := by
  have hread : openRead.testBit 0 = true := by decide
  have hwrite : openRead.testBit 1 = false := by decide
  rw [opened, Files.openPath]
  simp only [hread, hwrite, Bool.not_true, Bool.false_and, Bool.and_false,
    Bool.false_eq_true, if_false]
  cases pathArg path with
  | none => exact .inl ⟨rfl, rfl⟩
  | some p =>
    dsimp only
    cases s.mount.list fat.toFatfs p with
    | ok ents =>
      obtain ⟨fd, hfree, halloc⟩ := h.alloc (.dir 0 ents)
      exact .inr ⟨fd, _, ents, hfree, rfl, halloc, .inl rfl⟩
    | error e =>
      obtain ⟨fd, hfree, halloc⟩ := h.alloc (.file p 0 false)
      cases e with
      | notDir => exact .inr ⟨fd, _, [], hfree, rfl, halloc, .inr ⟨rfl, p, rfl⟩⟩
      | _ => exact .inl ⟨rfl, rfl⟩

end Descriptors

section Reading

variable {s : Files φ} {fd : ℕ}

theorem entryLoop_dir (hfree : Free s fd) {ents : List DirEnt} {index fuel : ℕ}
    {entries : List Entry} (hroom : entries.length ≤ maxEntriesPerDir)
    (hfuel : ents.length - index < fuel) :
    ∃ of, entryLoop fd fuel entries (withFd s fd (.dir index ents)) =
      some ((entries ++ (((ents.drop index).map packDirent).filter named).map entryOf).take
        maxEntriesPerDir, withFd s fd of) := by
  induction fuel generalizing index entries with
  | zero => exact absurd hfuel (Nat.not_lt_zero _)
  | succ fuel ih =>
    rw [entryLoop]
    split
    · next hfull =>
      refine ⟨.dir index ents, ?_⟩
      rw [List.take_append_of_le_length hfull, List.take_of_length_le hroom]
    · next hleft =>
      rw [Files.readdir, hfree.getMut]
      dsimp only
      cases hent : ents[index]? with
      | none =>
        have hend : ents.length ≤ index := List.getElem?_eq_none_iff.mp hent
        refine ⟨.dir index ents, ?_⟩
        rw [List.drop_of_length_le hend, List.map_nil, List.filter_nil, List.map_nil,
          List.append_nil, List.take_of_length_le hroom]
      | some ent =>
        obtain ⟨hlt, hget⟩ := List.getElem?_eq_some_iff.mp hent
        have hnext :
            (⟨(withFd s fd (.dir index ents)).mount,
              (withFd s fd (.dir index ents)).fds.put fd (.dir (index + 1) ents)⟩ : Files φ) =
            withFd s fd (.dir (index + 1) ents) := by
          rw [withFd, withFd, hfree.put_put]
        dsimp only
        rw [hnext, List.drop_eq_getElem_cons hlt, hget, List.map_cons, List.filter_cons]
        split
        · have hroom' : (entries ++ [entryOf (packDirent ent)]).length ≤ maxEntriesPerDir := by
            rw [List.length_append, List.length_singleton]
            omega
          have hfuel' : ents.length - (index + 1) < fuel := by omega
          obtain ⟨of, hloop⟩ := ih hroom' hfuel'
          refine ⟨of, ?_⟩
          rw [hloop, List.map_cons, List.append_assoc, List.singleton_append]
        · exact ih hroom (by omega)

theorem entryLoop_opened (hfree : Free s fd) {of : OpenFd} {ents : List DirEnt} {fuel : ℕ}
    (hof : of = .dir 0 ents ∨ ents = [] ∧ ∃ p, of = .file p 0 false) (hfuel : ents.length < fuel) :
    ∃ of', entryLoop fd fuel [] (withFd s fd of) = some (shown ents, withFd s fd of') := by
  rcases hof with rfl | ⟨rfl, p, rfl⟩
  · exact entryLoop_dir hfree (Nat.zero_le _) hfuel
  · obtain ⟨fuel, rfl⟩ := Nat.exists_eq_succ_of_ne_zero (Nat.ne_of_gt hfuel)
    refine ⟨.file p 0 false, ?_⟩
    rw [entryLoop, if_neg (by decide), Files.readdir, hfree.getMut]
    rfl

end Reading

section Drawing

variable {base child : Bytes} {ents : List DirEnt} {e : Entry}

theorem concatPath_eq_join (hlen : (join base child).length ≤ pathCap)
    (hbase : utf8Valid base = true) (hchild : utf8Valid child = true) :
    concatPath base child = join base child ∧ utf8Valid (join base child) = true := by
  have hcut : base.length ≤ pathCap := by
    simp only [join, List.length_append] at hlen
    omega
  have hvalid : utf8Valid (join base child) = true := by
    rw [join, List.append_assoc, utf8Valid_append hbase]
    split
    · exact hchild
    · rw [utf8Valid_append (by decide)]
      exact hchild
  refine ⟨?_, hvalid⟩
  have hout : (if base.getLast? ≠ some slash ∧ (base.take pathCap).length < pathCap
      then base.take pathCap ++ [slash] else base.take pathCap) = base ++
        (if base.getLast? = some slash then [] else [slash]) := by
    rw [List.take_of_length_le hcut]
    by_cases hslash : base.getLast? = some slash
    · rw [if_neg (fun h => h.1 hslash), if_pos hslash, List.append_nil]
    · simp only [join, List.length_append, if_neg hslash, List.length_singleton] at hlen
      rw [if_pos ⟨hslash, by omega⟩, if_neg hslash]
  rw [concatPath, hout, List.take_of_length_le, ← join, if_pos hvalid]
  simp only [join, List.length_append] at hlen ⊢
  omega

theorem shown_valid (he : e ∈ shown ents) : utf8Valid e.name = true ∧ e.name.length ≤ 62 := by
  obtain ⟨ent, hent, rfl⟩ := List.mem_map.mp (List.mem_of_mem_take he)
  obtain ⟨d, -, rfl⟩ := List.mem_map.mp (List.mem_of_mem_filter hent)
  have hvalid : utf8Valid (direntName (packDirent d)) = true := by
    rw [direntName]
    split
    · next h => exact h
    · rfl
  have hlen := (Readdir.length_direntName_packDirent d).1
  have hcut : (direntName (packDirent d)).take entNameCap = direntName (packDirent d) :=
    List.take_of_length_le (hlen.trans (by decide))
  rw [entryOf, hcut]
  exact ⟨hvalid, hlen⟩

theorem text_shown (he : e ∈ shown ents) : e.text = e.name := if_pos (shown_valid he).1

def Walk.drawn (w : Walk φ) (ls : List (Forest.Line Entry)) (mask : List Bool) : Walk φ where
  written := w.written.put (ls.flatMap linePieces)
  mask := mask
  dirs := w.dirs + ls.countP (·.item.isDir)
  files := w.files + ls.countP (!·.item.isDir)

@[simp] theorem Walk.drawn_mask (w : Walk φ) (ls : List (Forest.Line Entry))
    (mask : List Bool) : (w.drawn ls mask).mask = mask := rfl

theorem drawn_nil (w : Walk φ) : w.drawn [] w.mask = w := by
  rw [Walk.drawn, List.flatMap_nil, Written.put, List.append_nil]
  rfl

theorem drawn_drawn (w : Walk φ) (ls ms : List (Forest.Line Entry)) (mask mask' : List Bool) :
    (w.drawn ls mask).drawn ms mask' = w.drawn (ls ++ ms) mask' := by
  simp only [Walk.drawn, Written.put, List.flatMap_append, List.countP_append, List.append_assoc,
    Nat.add_assoc]

/-- The flags of the levels above stay. -/
structure Keeps (depth : ℕ) (mask mask' : List Bool) : Prop where
  length : mask'.length = mask.length
  take : mask'.take depth = mask.take depth

theorem Keeps.trans {depth : ℕ} {a b c : List Bool} (h : Keeps depth a b) (h' : Keeps depth b c) :
    Keeps depth a c :=
  ⟨h'.length.trans h.length, h'.take.trans h.take⟩

theorem Keeps.below {depth : ℕ} {a b : List Bool} (h : Keeps (depth + 1) a b) :
    Keeps depth a b := by
  refine ⟨h.length, ?_⟩
  have htake := congrArg (List.take depth) h.take
  rwa [List.take_take, List.take_take, Nat.min_eq_left (Nat.le_succ _)] at htake

theorem keeps_set (depth : ℕ) (mask : List Bool) (flag : Bool) :
    Keeps depth mask (mask.set depth flag) :=
  ⟨List.length_set, List.take_set_of_le (Nat.le_refl _)⟩

theorem take_set_succ {depth : ℕ} {mask : List Bool} (h : depth < mask.length) (flag : Bool) :
    (mask.set depth flag).take (depth + 1) = mask.take depth ++ [flag] := by
  rw [List.take_add_one, (keeps_set depth mask flag).take, List.getElem?_set_self h,
    Option.toList_some]

variable {s : Files φ} {path : Bytes} {depth : ℕ}

def Draws (s : Files φ) (walk : ℕ → Walk φ → Option (Walk φ)) (depth : ℕ) (f : Forest Entry) :
    Prop :=
  ∀ w : Walk φ, w.written.files = s → w.mask.length = maxDepth →
    ∃ mask n, Keeps depth w.mask mask ∧ ∀ fuel, n ≤ fuel →
    walk fuel w = some (w.drawn (f.lines (w.mask.take depth)) mask)

theorem entryRows_cons (walk : Bytes → ℕ → Walk φ → Option (Walk φ)) (e : Entry) (es : List Entry)
    (w : Walk φ) : entryRows walk path depth (e :: es) w = (if e.isDir then
          walk (concatPath path e.text) (depth + 1) (w.drawn [⟨w.mask.take depth, es.isEmpty, e⟩]
            (w.mask.set depth !es.isEmpty))
        else some (w.drawn [⟨w.mask.take depth, es.isEmpty, e⟩]
          (w.mask.set depth !es.isEmpty))).bind
        (entryRows walk path depth es) := by
  rw [entryRows, Option.bind_eq_bind]
  dsimp only [Walk.put]
  rw [(keeps_set depth w.mask _).take]
  cases hdir : e.isDir with
  | false => simp [hdir, Walk.drawn, Written.put, linePieces]
  | true => simp [hdir, Walk.drawn, Written.put, linePieces]

theorem entryRow_draws (path : Bytes) {walk : ℕ → Bytes → ℕ → Walk φ → Option (Walk φ)}
    (hdepth : depth < maxDepth) {children : Forest Entry} (hsub : e.isDir = true →
      Draws s (fun fuel => walk fuel (concatPath path e.text) (depth + 1)) (depth + 1) children)
    (hfile : e.isDir = false → children = .nil) {w : Walk φ} (hfiles : w.written.files = s)
    (hmask : w.mask.length = maxDepth) (es : List Entry) : ∃ mask n, Keeps depth w.mask mask ∧
    ∀ fuel, n ≤ fuel → entryRows (walk fuel) path depth (e :: es) w =
        entryRows (walk fuel) path depth es
          (w.drawn (⟨w.mask.take depth, es.isEmpty, e⟩ :: children.lines (w.mask.take depth ++
            [!es.isEmpty])) mask) := by
  have hset := keeps_set depth w.mask (!es.isEmpty)
  have htake :
      (w.mask.set depth !es.isEmpty).take (depth + 1) = w.mask.take depth ++ [!es.isEmpty] :=
    take_set_succ (hmask ▸ hdepth) _
  cases hdir : e.isDir with
  | false =>
    refine ⟨w.mask.set depth !es.isEmpty, 0, hset, fun fuel _ => ?_⟩
    rw [entryRows_cons, hdir, hfile hdir]
    rfl
  | true =>
    obtain ⟨mask, n, hkeeps, hwalk⟩ :=
      hsub hdir (w.drawn [⟨w.mask.take depth, es.isEmpty, e⟩] (w.mask.set depth !es.isEmpty)) hfiles
        (hset.length.trans hmask)
    refine ⟨mask, n, hset.trans hkeeps.below, fun fuel hfuel => ?_⟩
    have hbelow := hwalk fuel hfuel
    dsimp only [Walk.drawn_mask] at hbelow
    rw [entryRows_cons, hdir, if_pos rfl, hbelow, Option.bind_some, drawn_drawn, htake,
      List.singleton_append]

theorem entryRows_draws {walk : ℕ → Bytes → ℕ → Walk φ → Option (Walk φ)}
    {sub : Bytes → Forest Entry} (hdepth : depth < maxDepth) {es : List Entry}
    (hsub : ∀ e ∈ es, e.isDir = true →
      Draws s (fun fuel => walk fuel (concatPath path e.text) (depth + 1)) (depth + 1)
        (sub e.name)) : Draws s (fun fuel => entryRows (walk fuel) path depth es) depth
          (.ofList (childrenOf sub) es) := by
  induction es with
  | nil =>
    exact fun w _ _ => ⟨w.mask, 0, ⟨rfl, rfl⟩, fun fuel _ => congrArg some (drawn_nil w).symm⟩
  | cons e es ih =>
    intro w hfiles hmask
    obtain ⟨hhead, htail⟩ := List.forall_mem_cons.mp hsub
    have hdir :
        e.isDir = true → Draws s (fun fuel => walk fuel (concatPath path e.text) (depth + 1))
          (depth + 1) (childrenOf sub e) := by
      intro h
      rw [childrenOf, if_pos h]
      exact hhead h
    have hfile : e.isDir = false → childrenOf sub e = .nil :=
      fun h => if_neg (by rw [h]; exact Bool.false_ne_true)
    obtain ⟨mask, n, hkeeps, hrow⟩ := entryRow_draws path hdepth hdir hfile hfiles hmask es
    obtain ⟨mask', n', hkeeps', hrows⟩ :=
      ih htail (w.drawn _ mask) hfiles (hkeeps.length.trans hmask)
    refine ⟨mask', max n n', hkeeps.trans hkeeps', fun fuel hfuel => ?_⟩
    have hrest := hrows fuel (le_of_max_le_right hfuel)
    dsimp only [Walk.drawn_mask] at hrest ⊢
    rw [hrow fuel (le_of_max_le_left hfuel), hrest, drawn_drawn, hkeeps.take, Forest.ofList,
      Forest.lines, Forest.isNil_ofList, List.cons_append]

theorem walkDir_last (fat : FatIo φ η) (s : Files φ) (hdepth : maxDepth ≤ depth) (path : Bytes) :
    Draws s (fun fuel => walkDir fat fuel path depth) depth .nil := by
  refine fun w _ _ => ⟨w.mask, 1, ⟨rfl, rfl⟩, fun fuel hfuel => ?_⟩
  obtain ⟨fuel, rfl⟩ := Nat.exists_eq_succ_of_ne_zero (Nat.ne_of_gt hfuel)
  dsimp only
  rw [walkDir, if_pos hdepth]
  exact congrArg some (drawn_nil w).symm

theorem walkDir_draws {fat : FatIo φ η} (hready : Ready s) {left : ℕ}
    (hleft : depth + left = maxDepth) (hpath : utf8Valid path = true)
    (hfit : PathsFit (opened fat s) left path) :
    Draws s (fun fuel => walkDir fat fuel path depth) depth (below (opened fat s) left path) := by
  induction left generalizing path depth with
  | zero => exact walkDir_last fat s (Nat.le_of_eq hleft.symm) path
  | succ left ih =>
    intro w hfiles hmask
    have hdepth : depth < maxDepth := by omega
    have hkept : w.withFiles s = w := by rw [← hfiles]; rfl
    obtain ⟨-, hsub⟩ := hfit
    rcases openPath_opened fat hready path with ⟨hnone, hopen⟩ | ⟨fd, of, ents, hfree,
        hents, hopen, hof⟩
    · refine ⟨w.mask, 1, ⟨rfl, rfl⟩, fun fuel hfuel => ?_⟩
      obtain ⟨fuel, rfl⟩ := Nat.exists_eq_succ_of_ne_zero (Nat.ne_of_gt hfuel)
      dsimp only
      rw [walkDir, if_neg (Nat.not_le_of_lt hdepth), hfiles, hopen, below, hnone]
      exact congrArg some (hkept.trans (drawn_nil w).symm)
    · have hrows : ∀ e ∈ shown ents, e.isDir = true →
          Draws s (fun fuel => walkDir fat fuel (concatPath path e.text) (depth + 1)) (depth + 1)
            (below (opened fat s) left (join path e.name)) := by
        intro e he hdir
        have hfit := hsub ents hents e he hdir
        cases left with
        | zero => exact walkDir_last fat s (Nat.le_of_eq hleft.symm) _
        | succ left =>
          obtain ⟨hjoin, hvalid⟩ := concatPath_eq_join hfit.1 hpath (shown_valid he).1
          rw [text_shown he, hjoin]
          exact ih (by omega) hvalid hfit
      have hdraws : Draws s (fun fuel => entryRows (walkDir fat fuel) path depth (shown ents)) depth
          (.ofList (childrenOf fun name => below (opened fat s) left (join path name))
            (shown ents)) :=
        entryRows_draws hdepth hrows
      obtain ⟨mask, n, hkeeps, hwalk⟩ := hdraws w hfiles hmask
      refine ⟨mask, max n (ents.length + 1) + 1, hkeeps, fun fuel hfuel => ?_⟩
      obtain ⟨fuel, rfl⟩ :=
        Nat.exists_eq_succ_of_ne_zero (Nat.ne_of_gt (Nat.lt_of_lt_of_le (Nat.succ_pos _) hfuel))
      have hle := Nat.le_of_succ_le_succ hfuel
      obtain ⟨of', hread⟩ := entryLoop_opened hfree hof (Nat.lt_of_succ_le (le_of_max_le_right hle))
      dsimp only
      rw [walkDir, if_neg (Nat.not_le_of_lt hdepth), hfiles, hopen, below, hents]
      dsimp only
      rw [hread, Option.bind_eq_bind, Option.bind_some]
      dsimp only
      rw [hfree.close, hkept]
      exact hwalk fuel (le_of_max_le_left hle)

end Drawing

section Results

variable {fat : FatIo φ η} {s : Files φ} {cwd : Bytes} {args : List Char}

theorem countP_lines (p : Entry → Bool) (bars : List Bool) (f : Forest Entry) :
    (f.lines bars).countP (fun l => p l.item) = f.items.countP p := by
  rw [← Forest.map_item_lines bars f, List.countP_map]
  rfl

/-- With enough fuel the command ends like this. -/
def Prints (fat : FatIo φ η) (cwd : Bytes) (args : List Char) (s : Files φ) (t : Written φ) :
    Prop :=
  ∃ n, ∀ fuel, n ≤ fuel → cmdTree fat fuel cwd args ⟨s, []⟩ = some t

theorem cmdTree_draws (hready : Ready s) (hpath : utf8Valid (treePath cwd args) = true)
    (hfit : PathsFit (opened fat s) maxDepth (treePath cwd args)) :
    Prints fat cwd args s ⟨s,
      treePieces (treePath cwd args) (treeAt fat s (treePath cwd args))⟩ := by
  rcases openPath_opened fat hready (treePath cwd args) with ⟨hnone, hopen⟩ | ⟨fd, of, ents, hfree,
      hents, hopen, -⟩
  · refine ⟨0, fun fuel _ => ?_⟩
    rw [cmdTree]
    dsimp only
    rw [hopen, treeAt, hnone]
    rfl
  · obtain ⟨mask, n, -, hwalk⟩ := walkDir_draws hready (Nat.zero_add maxDepth) hpath hfit
      ⟨⟨s, [blue, .text (treePath cwd args), normal, lit "\n"]⟩, List.replicate maxDepth false,
        0, 0⟩ rfl rfl
    refine ⟨n, fun fuel hfuel => ?_⟩
    have hdrawn := hwalk fuel hfuel
    dsimp only at hdrawn
    rw [cmdTree]
    dsimp only
    rw [hopen, treeAt, hents]
    dsimp only
    rw [hfree.close]
    change (walkDir fat fuel (treePath cwd args) 0
        ⟨⟨s, [blue, .text (treePath cwd args), normal, lit "\n"]⟩, _, 0, 0⟩).bind _ = _
    have hdirs := countP_lines (·.isDir) [] (below (opened fat s) maxDepth (treePath cwd args))
    have hfiles := countP_lines (!·.isDir) [] (below (opened fat s) maxDepth (treePath cwd args))
    rw [hdrawn, Option.bind_some]
    simp only [Walk.drawn, Written.put, Option.map_some, treePieces, hdirs, hfiles, Nat.zero_add,
      List.take_zero, List.append_assoc]

end Results

section Reading

def Entry.Printable (e : Entry) : Prop := utf8Valid e.name = true ∧ ∀ b ∈ e.name, 0x20 ≤ b

def escape : UInt8 := 0x1B

def lineBytes (l : Forest.Line Entry) : Bytes := (linePieces l).flatMap Piece.bytes

theorem connector_ne_indent (last bar : Bool) (r r' : Bytes) :
    (connector last).bytes ++ r ≠ (indent bar).bytes ++ r' := by
  cases last <;> cases bar <;> simp [connector, indent, Piece.bytes]

theorem connector_inj {last last' : Bool} {r r' : Bytes}
    (h : (connector last).bytes ++ r = (connector last').bytes ++ r') :
    last = last' ∧ r = r' := by
  cases last <;> cases last' <;> simp_all [connector, Piece.bytes]

theorem indent_inj {bar bar' : Bool} {r r' : Bytes}
    (h : (indent bar).bytes ++ r = (indent bar').bytes ++ r') : bar = bar' ∧ r = r' := by
  cases bar <;> cases bar' <;> simp_all [indent, Piece.bytes]

theorem indents_inj {bars bars' : List Bool} {last last' : Bool} {r r' : Bytes}
    (h : (bars.map indent).flatMap Piece.bytes ++ ((connector last).bytes ++ r) =
      (bars'.map indent).flatMap Piece.bytes ++ ((connector last').bytes ++ r')) : bars = bars' ∧
      last = last' ∧ r = r' := by
  induction bars generalizing bars' with
  | nil =>
    cases bars' with
    | nil => exact ⟨rfl, connector_inj h⟩
    | cons bar' bars' =>
      rw [List.map_cons, List.flatMap_cons, List.append_assoc] at h
      exact absurd h (connector_ne_indent _ _ _ _)
  | cons bar bars ih =>
    rw [List.map_cons, List.flatMap_cons, List.append_assoc] at h
    cases bars' with
    | nil => exact absurd h.symm (connector_ne_indent _ _ _ _)
    | cons bar' bars' =>
      rw [List.map_cons, List.flatMap_cons, List.append_assoc] at h
      obtain ⟨rfl, hrest⟩ := indent_inj h
      obtain ⟨rfl, hlast, hr⟩ := ih hrest
      exact ⟨rfl, hlast, hr⟩

theorem Entry.Printable.notMem {e : Entry} (h : e.Printable) {b : UInt8} (hb : b < 0x20) :
    b ∉ e.text := by
  rw [Entry.text, if_pos h.1]
  exact fun hmem => absurd (h.2 b hmem) (UInt8.not_le.mpr hb)

theorem label_bytes (e : Entry) : (label e).flatMap Piece.bytes =
    if e.isDir then escape :: ([0x5B, 0x31, 0x3B, 0x33, 0x34, 0x6D] ++
      (e.text ++ escape :: [0x5B, 0x30, 0x6D, newline])) else e.text ++ [newline] := by
  have hnl : lit "\n" = .text [newline] := by decide
  rw [label, hnl]
  split
  · simp [blue, normal, Piece.bytes, escape]
  · simp [Piece.bytes]

theorem upTo_inj {b : UInt8} {p q r r' : Bytes} (hp : b ∉ p) (hq : b ∉ q)
    (h : p ++ b :: r = q ++ b :: r') : p = q ∧ r = r' := by
  induction p generalizing q with
  | nil =>
    cases q with
    | nil => exact ⟨rfl, (List.cons.inj h).2⟩
    | cons x q => exact absurd ((List.cons.inj h).1 ▸ List.mem_cons_self) hq
  | cons x p ih =>
    cases q with
    | nil => exact absurd ((List.cons.inj h).1 ▸ List.mem_cons_self) hp
    | cons y q =>
      obtain ⟨rfl, htail⟩ := List.cons.inj h
      obtain ⟨rfl, hr⟩ :=
        ih (fun hmem => hp (List.mem_cons_of_mem _ hmem))
          (fun hmem => hq (List.mem_cons_of_mem _ hmem)) htail
      exact ⟨rfl, hr⟩

theorem file_ne_dir {e : Entry} (he : e.Printable) (r r' : Bytes) :
    e.text ++ newline :: r ≠ escape :: r' := by
  intro h
  cases htext : e.text with
  | nil =>
    rw [htext] at h
    exact absurd (List.cons.inj h).1 (by decide)
  | cons x text =>
    rw [htext] at h
    obtain ⟨rfl, -⟩ := List.cons.inj h
    exact he.notMem (by decide : escape < 0x20) (htext ▸ List.mem_cons_self)

theorem label_inj {e e' : Entry} (he : e.Printable) (he' : e'.Printable) {r r' : Bytes}
    (h : (label e).flatMap Piece.bytes ++ r = (label e').flatMap Piece.bytes ++ r') :
    e = e' ∧ r = r' := by
  have htext : e.isDir = e'.isDir ∧ e.text = e'.text ∧ r = r' := by
    rw [label_bytes, label_bytes] at h
    cases hdir : e.isDir with
    | false =>
      rw [hdir, if_neg Bool.false_ne_true, List.append_assoc, List.singleton_append] at h
      cases hdir' : e'.isDir with
      | false =>
        rw [hdir', if_neg Bool.false_ne_true, List.append_assoc, List.singleton_append] at h
        have hnl : newline < 0x20 := by decide
        exact ⟨rfl, upTo_inj (he.notMem hnl) (he'.notMem hnl) h⟩
      | true =>
        rw [hdir', if_pos rfl, List.cons_append] at h
        exact absurd h (file_ne_dir he _ _)
    | true =>
      rw [hdir, if_pos rfl] at h
      cases hdir' : e'.isDir with
      | false =>
        rw [hdir', if_neg Bool.false_ne_true, List.cons_append, List.append_assoc e'.text,
          List.singleton_append] at h
        exact absurd h.symm (file_ne_dir he' _ _)
      | true =>
        rw [hdir', if_pos rfl] at h
        have hesc : escape < 0x20 := by decide
        simp only [List.cons_append, List.append_assoc, List.cons.injEq, List.nil_append, true_and]
          at h
        obtain ⟨hname, hr⟩ := upTo_inj (he.notMem hesc) (he'.notMem hesc) h
        simp only [List.cons.injEq, true_and] at hr
        exact ⟨rfl, hname, hr⟩
  obtain ⟨hdir, hname, hr⟩ := htext
  rw [Entry.text, Entry.text, if_pos he.1, if_pos he'.1] at hname
  cases e
  cases e'
  exact ⟨Entry.mk.injEq _ _ _ _ |>.mpr ⟨hname, hdir⟩, hr⟩

theorem lineBytes_inj {l l' : Forest.Line Entry} (hl : l.item.Printable) (hl' : l'.item.Printable)
    {r r' : Bytes} (h : lineBytes l ++ r = lineBytes l' ++ r') : l = l' ∧ r = r' := by
  simp only [lineBytes, linePieces, List.flatMap_append, List.flatMap_cons, List.append_assoc] at h
  obtain ⟨hbars, hlast, hlabel⟩ := indents_inj h
  obtain ⟨hitem, hr⟩ := label_inj hl hl' hlabel
  cases l
  cases l'
  exact ⟨Forest.Line.mk.injEq _ _ _ _ _ _ |>.mpr ⟨hbars, hlast, hitem⟩, hr⟩

theorem lineBytes_ne_newline (l : Forest.Line Entry) (r r' : Bytes) :
    lineBytes l ++ r ≠ newline :: r' := by
  cases hbars : l.bars with
  | nil => simp [lineBytes, linePieces, hbars, connector, Piece.bytes, newline]
  | cons bar bars => cases bar <;> simp [lineBytes, linePieces, hbars, indent, Piece.bytes, newline]

theorem lines_inj {ls ms : List (Forest.Line Entry)} (hls : ∀ l ∈ ls, l.item.Printable)
    (hms : ∀ l ∈ ms, l.item.Printable) {r r' : Bytes} (h : ls.flatMap lineBytes ++ newline :: r =
      ms.flatMap lineBytes ++ newline :: r') : ls = ms := by
  induction ls generalizing ms with
  | nil =>
    cases ms with
    | nil => rfl
    | cons m ms =>
      rw [List.flatMap_cons, List.append_assoc] at h
      exact absurd h.symm (lineBytes_ne_newline _ _ _)
  | cons l ls ih =>
    rw [List.flatMap_cons, List.append_assoc] at h
    cases ms with
    | nil => exact absurd h (lineBytes_ne_newline _ _ _)
    | cons m ms =>
      rw [List.flatMap_cons, List.append_assoc] at h
      obtain ⟨hl, hafter⟩ := List.forall_mem_cons.mp hls
      obtain ⟨hm, hafter'⟩ := List.forall_mem_cons.mp hms
      obtain ⟨rfl, hrest⟩ := lineBytes_inj hl hm h
      rw [ih hafter hafter' hrest]

theorem treePieces_bytes (path : Bytes) (f : Forest Entry) :
    ∃ last, (treePieces path (some f)).flatMap Piece.bytes = [blue, .text path, normal,
      lit "\n"].flatMap Piece.bytes ++ ((f.lines []).flatMap lineBytes ++ newline :: last) := by
  have hnl : lit "\n" = .text [newline] := by decide
  rw [treePieces, List.flatMap_append, List.flatMap_append, List.flatMap_assoc, List.append_assoc,
    List.flatMap_cons, hnl]
  exact ⟨_, rfl⟩

theorem notFound_ne (path : Bytes) (r : Bytes) :
    (notFound path).flatMap Piece.bytes ≠ [blue, .text path, normal, lit "\n"].flatMap
      Piece.bytes ++ r := by
  have hlit : (lit "tree: not found\n").bytes = 0x74 :: (lit "tree: not found\n").bytes.tail := by
    decide
  rw [notFound, List.flatMap_cons, hlit]
  intro h
  exact absurd (List.cons.inj h).1 (by decide)

theorem treePieces_inj {path : Bytes} {f g : Option (Forest Entry)}
    (hf : ∀ t ∈ f, ∀ e ∈ t.items, e.Printable) (hg : ∀ t ∈ g, ∀ e ∈ t.items, e.Printable)
    (h : (treePieces path f).flatMap Piece.bytes = (treePieces path g).flatMap Piece.bytes) :
    f = g := by
  have hlines : ∀ t : Forest Entry, (∀ e ∈ t.items, e.Printable) →
      ∀ l ∈ t.lines [], l.item.Printable := fun t ht l hl =>
    ht _ (Forest.map_item_lines [] t ▸ List.mem_map_of_mem hl)
  cases f with
  | none =>
    cases g with
    | none => rfl
    | some g =>
      obtain ⟨last, hbytes⟩ := treePieces_bytes path g
      rw [hbytes] at h
      exact absurd h (notFound_ne _ _)
  | some f =>
    obtain ⟨last, hbytes⟩ := treePieces_bytes path f
    rw [hbytes] at h
    cases g with
    | none => exact absurd h.symm (notFound_ne _ _)
    | some g =>
      obtain ⟨last', hbytes'⟩ := treePieces_bytes path g
      rw [hbytes'] at h
      have hsame :=
        lines_inj (hlines f (hf f rfl)) (hlines g (hg g rfl)) (List.append_cancel_left h)
      exact congrArg some (Forest.lines_injective [] hsame)

/-- No name on the volume has a control character; FAT allows none. -/
def Plain (fat : FatIo φ η) (s : Files φ) : Prop :=
  ∀ path ents, opened fat s path = some ents → ∀ d ∈ ents, ∀ b ∈ d.name, 0x20 ≤ b

theorem mem_direntName {d : DirEnt} {b : UInt8} (h : b ∈ direntName (packDirent d)) :
    b ∈ d.name := by
  rw [direntName] at h
  split at h
  · have hmem : b ∈ d.name.take 62 ++ List.replicate (63 - (d.name.take 62).length) 0 :=
      (List.takeWhile_sublist _).subset h
    have hne : b ≠ 0 := by simpa using List.mem_takeWhile_imp h
    rcases List.mem_append.mp hmem with hname | hzero
    · exact List.mem_of_mem_take hname
    · exact absurd (List.eq_of_mem_replicate hzero) hne
  · cases h

theorem shown_printable {fat : FatIo φ η} {s : Files φ} (h : Plain fat s) {path : Bytes}
    {ents : List DirEnt} (hents : opened fat s path = some ents) {e : Entry} (he : e ∈ shown ents) :
    e.Printable := by
  refine ⟨(shown_valid he).1, fun b hb => ?_⟩
  obtain ⟨ent, hent, rfl⟩ := List.mem_map.mp (List.mem_of_mem_take he)
  obtain ⟨d, hd, rfl⟩ := List.mem_map.mp (List.mem_of_mem_filter hent)
  exact h path ents hents d hd b (mem_direntName (List.mem_of_mem_take hb))

theorem items_ofList {sub : Bytes → Forest Entry} {es : List Entry} {P : Entry → Prop}
    (hes : ∀ e ∈ es, P e) (hsub : ∀ name, ∀ e ∈ (sub name).items, P e) :
    ∀ e ∈ (Forest.ofList (childrenOf sub) es).items, P e := by
  induction es with
  | nil => exact fun e he => absurd he List.not_mem_nil
  | cons a es ih =>
    obtain ⟨ha, hrest⟩ := List.forall_mem_cons.mp hes
    rw [Forest.ofList, Forest.items]
    refine List.forall_mem_cons.mpr ⟨ha, fun e he => ?_⟩
    rcases List.mem_append.mp he with hbelow | hafter
    · rw [childrenOf] at hbelow
      split at hbelow
      · exact hsub _ e hbelow
      · cases hbelow
    · exact ih hrest e hafter

theorem below_printable {fat : FatIo φ η} {s : Files φ} (h : Plain fat s) (left : ℕ)
    (path : Bytes) : ∀ e ∈ (below (opened fat s) left path).items, e.Printable := by
  induction left generalizing path with
  | zero => exact fun e he => absurd he List.not_mem_nil
  | succ left ih =>
    rw [below]
    cases hents : opened fat s path with
    | none => exact fun e he => absurd he List.not_mem_nil
    | some ents => exact items_ofList (fun e he => shown_printable h hents he) fun name => ih _

theorem treeAt_printable {fat : FatIo φ η} {s : Files φ} (h : Plain fat s) (path : Bytes) :
    ∀ t ∈ treeAt fat s path, ∀ e ∈ t.items, e.Printable := by
  intro t ht
  obtain ⟨-, -, rfl⟩ := Option.map_eq_some_iff.mp ht
  exact below_printable h maxDepth path

theorem Prints.unique {fat : FatIo φ η} {cwd : Bytes} {args : List Char} {s : Files φ}
    {t t' : Written φ} (h : Prints fat cwd args s t) (h' : Prints fat cwd args s t') : t = t' := by
  obtain ⟨n, hn⟩ := h
  obtain ⟨n', hn'⟩ := h'
  exact Option.some.inj ((hn _ (le_max_left n n')).symm.trans (hn' _ (le_max_right n n')))

/-- `tree` writes the drawing of the tree at its path with the numbers of its directories and files,
and leaves the files and the descriptors as they are. Where it writes the same bytes on another
volume, it has found the same tree there, or no tree on both. -/
theorem tree_told {fat : FatIo φ η} {s : Files φ} {cwd : Bytes} {args : List Char}
    (hready : Ready s) (hpath : utf8Valid (treePath cwd args) = true)
    (hfit : PathsFit (opened fat s) maxDepth (treePath cwd args)) :
    Prints fat cwd args s ⟨s, treePieces (treePath cwd args) (treeAt fat s (treePath cwd args))⟩ ∧
      (Plain fat s → ∀ s' t t', Ready s' → PathsFit (opened fat s') maxDepth (treePath cwd args) →
        Plain fat s' → Prints fat cwd args s t → Prints fat cwd args s' t' → t.bytes = t'.bytes →
          treeAt fat s (treePath cwd args) = treeAt fat s' (treePath cwd args)) := by
  have hdraws := cmdTree_draws hready hpath hfit
  refine ⟨hdraws, fun hplain s' t t' hready' hfit' hplain' ht ht' hbytes => ?_⟩
  obtain rfl := ht.unique hdraws
  obtain rfl := ht'.unique (cmdTree_draws hready' hpath hfit')
  exact treePieces_inj (treeAt_printable hplain _) (treeAt_printable hplain' _) hbytes

def nestedFat : FatIo (Bytes → Option Bytes) (Bytes × ℕ) :=
  { flatFat 16 with
    rootDir := fun _ => [some ⟨[0x61], false, true⟩, some ⟨[0x62], false, false⟩]
    openDir :=
      fun _ rel => if rel = [0x61] then .ok [some ⟨[0x63], false, false⟩] else .error .notFound }

def nested : Files (Bytes → Option Bytes) := textFile []

theorem nested_told : Prints nestedFat [slash] [] nested
    ⟨nested, treePieces [slash] (some (.node ⟨[0x61], true⟩ (.node ⟨[0x63], false⟩ .nil .nil)
      (.node ⟨[0x62], false⟩ .nil .nil)))⟩ := by
  have hready : Ready nested := ⟨by decide, 3, by decide, by decide⟩
  have hpath : utf8Valid (treePath [slash] []) = true := by decide
  have hroot : opened nestedFat nested [slash] = some [⟨[0x61], true⟩, ⟨[0x62], false⟩] := by decide
  have ha : opened nestedFat nested [slash, 0x61] = some [⟨[0x63], false⟩] := by decide
  have hfit : PathsFit (opened nestedFat nested) maxDepth (treePath [slash] []) := by
    refine ⟨by decide, fun ents hents e he hdir => ?_⟩
    obtain rfl := Option.some.inj (hroot.symm.trans hents)
    have hname : e.name = [0x61] := by
      have hall : ∀ e ∈ shown [⟨[0x61], true⟩, ⟨[0x62], false⟩], e.isDir = true →
          e.name = [0x61] := by decide
      exact hall e he hdir
    rw [hname]
    refine ⟨by decide, fun ents hents e he hdir => ?_⟩
    obtain rfl := Option.some.inj (ha.symm.trans hents)
    have hnone : ∀ e ∈ shown [⟨[0x63], false⟩], e.isDir = false := by decide
    rw [hnone e he] at hdir
    cases hdir
  have htree : treeAt nestedFat nested (treePath [slash] []) =
      some (.node ⟨[0x61], true⟩ (.node ⟨[0x63], false⟩ .nil .nil)
        (.node ⟨[0x62], false⟩ .nil .nil)) := by decide
  have htold := (tree_told hready hpath hfit).1
  rwa [htree] at htold

end Reading

end CoeleoOs.Sh.Tree
