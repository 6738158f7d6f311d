import CoeleoOs.Task.UserAccess

/-!
# The mounted file system

The functions of `fs/mod.rs` over the operations of the `fatfs` crate, which are a
parameter: a volume of type `φ` and open files of type `η`. What writes returns the
new volume also when it fails. Paths are byte strings, cut at the slashes.
-/

namespace CoeleoOs.Fs
open CoeleoOs.Task (Bytes FsError DirEnt)

inductive FatError
  | notFound | invalidInput | alreadyExists | other
  deriving DecidableEq

structure FatEntry where
  name : Bytes
  volumeId : Bool
  isDir : Bool
  deriving DecidableEq

structure Fatfs (φ η : Type) where
  -- The entries of a directory; `none` is an entry that cannot be read.
  rootDir : φ → List (Option FatEntry)
  openDir : φ → Bytes → Except FatError (List (Option FatEntry))
  createFile : φ → Bytes → Except FatError η × φ
  truncate : φ → η → Bool × η × φ
  writeAll : φ → η → Bytes → Bool × η × φ
  flush : φ → η → Bool × η × φ
  drop : φ → η → φ

structure Mount (φ : Type) where
  fs : Option φ
  cwd : Bytes

def slash : UInt8 := 0x2F
def dot : UInt8 := 0x2E

def mapDirErr : FatError → FsError
  | .notFound => .notFound
  | .invalidInput => .notDir
  | .alreadyExists => .isDir
  | .other => .io

def mapFileErr : FatError → FsError
  | .notFound => .notFound
  | .invalidInput => .isDir
  | _ => .io

def rel (abs : Bytes) : Bytes := abs.dropWhile (· = slash)

def resolveStep (parts : List Bytes) (c : Bytes) : List Bytes :=
  if c = [] ∨ c = [dot] then parts
  else if c = [dot, dot] then parts.dropLast
  else parts ++ [c]

def resolve (cwd arg : Bytes) : Bytes :=
  let parts := if arg.head? = some slash ∨ cwd = [slash] then []
    else ((cwd.dropWhile (· = slash)).splitOn slash).filter (· ≠ [])
  let parts := if arg = [] then parts else (arg.splitOn slash).foldl resolveStep parts
  if parts = [] then [slash] else slash :: [slash].intercalate parts

def listEntries : List (Option FatEntry) → Except FsError (List DirEnt)
  | [] => .ok []
  | none :: _ => .error .io
  | some ent :: rest =>
    if ent.volumeId then listEntries rest
    else if ent.name = [dot] ∨ ent.name = [dot, dot] then listEntries rest
    else (listEntries rest).map (⟨ent.name, ent.isDir⟩ :: ·)

namespace Mount

variable {φ η : Type}

def workDir (m : Mount φ) : Bytes := if m.cwd = [] then [slash] else m.cwd

def list (m : Mount φ) (fat : Fatfs φ η) (path : Bytes) : Except FsError (List DirEnt) :=
  let rel := rel (resolve m.workDir path)
  match m.fs with
  | none => .error .noFs
  | some fs =>
    if rel = [] then listEntries (fat.rootDir fs)
    else
      match fat.openDir fs rel with
      | .error e => .error (mapDirErr e)
      | .ok dir => listEntries dir

def pathRel (m : Mount φ) (path : Bytes) : Except FsError Bytes :=
  let rel := rel (resolve m.workDir path)
  if rel = [] then .error .isDir else .ok rel

def rejectDir (fat : Fatfs φ η) (fs : φ) (rel : Bytes) : Except FsError Unit :=
  match fat.openDir fs rel with
  | .ok _ => .error .isDir
  | .error .notFound => .ok ()
  | .error .invalidInput => .ok ()
  | .error _ => .error .io

def create (m : Mount φ) (fat : Fatfs φ η) (path : Bytes) : Except FsError (η × φ) × Mount φ :=
  match m.pathRel path with
  | .error e => (.error e, m)
  | .ok rel =>
    match m.fs with
    | none => (.error .noFs, m)
    | some fs =>
      match rejectDir fat fs rel with
      | .error e => (.error e, m)
      | .ok () =>
        match fat.createFile fs rel with
        | (.error e, fs) => (.error (mapFileErr e), { m with fs := some fs })
        | (.ok file, fs) => (.ok (file, fs), { m with fs := some fs })

def touch (m : Mount φ) (fat : Fatfs φ η) (path : Bytes) : Except FsError Unit × Mount φ :=
  match m.create fat path with
  | (.error e, m) => (.error e, m)
  | (.ok (file, fs), m) => (.ok (), { m with fs := some (fat.drop fs file) })

def writeFile (m : Mount φ) (fat : Fatfs φ η) (path data : Bytes) : Except FsError Unit × Mount φ :=
  match m.create fat path with
  | (.error e, m) => (.error e, m)
  | (.ok (file, fs), m) =>
    match fat.truncate fs file with
    | (false, file, fs) => (.error .io, { m with fs := some (fat.drop fs file) })
    | (true, file, fs) =>
      match fat.writeAll fs file data with
      | (false, file, fs) => (.error .io, { m with fs := some (fat.drop fs file) })
      | (true, file, fs) =>
        match fat.flush fs file with
        | (false, file, fs) => (.error .io, { m with fs := some (fat.drop fs file) })
        | (true, file, fs) => (.ok (), { m with fs := some (fat.drop fs file) })

end Mount

def rootFat : Fatfs (List (Bytes × Bytes)) Bytes where
  rootDir fs := fs.map fun f => some ⟨f.1, false, false⟩
  openDir fs rel := if fs.any (·.1 = rel) then .error .invalidInput else .error .notFound
  createFile fs rel :=
    if slash ∈ rel then (.error .notFound, fs)
    else if fs.any (·.1 = rel) then (.ok rel, fs)
    else (.ok rel, fs ++ [(rel, [])])
  truncate fs file := (true, file, fs.map fun f => if f.1 = file then (file, []) else f)
  writeAll fs file data :=
    (true, file, fs.map fun f => if f.1 = file then (file, data ++ f.2.drop data.length) else f)
  flush fs file := (true, file, fs)
  drop fs _ := fs

end CoeleoOs.Fs
