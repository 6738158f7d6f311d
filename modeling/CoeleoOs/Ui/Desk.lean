import CoeleoOs.Lib.Lines
import CoeleoOs.Lib.Text
import CoeleoOs.Ui.Deskset
import Mathlib.Data.List.Infix

/-!
# Desktop settings

The mode of the panel and the wallpaper are kept as two lines of a text. What is written down is the
path as it is; what is read is trimmed and checked.
-/

namespace CoeleoOs.Ui.Desk
open CoeleoOs.Lib Text
open Deskset (WallItem)

inductive WallSrc
  | default
  | path (p : String)
  deriving DecidableEq

structure DeskCfg where
  mode : PanelMode
  wall : WallSrc
  deriving DecidableEq

def stripEol (l : List Char) : List Char :=
  if l.getLast? = some '\n' then
    if l.dropLast.getLast? = some '\r' then l.dropLast.dropLast else l.dropLast
  else l

def textLines (text : List Char) : List (List Char) := (Lines.lines '\n' text).map stripEol

def validWallPath (p : List Char) : Bool :=
  p.head? = some '/' ∧ ¬ ['.', '.'] <:+: p ∧ (utf8 p).length < 96

def parseMode (l : List Char) : Option PanelMode :=
  if trim l = "full".toList then some .full
  else if trim l = "float".toList then some .float
  else none

def parseWall (l : List Char) : Option WallSrc :=
  if trim l = "default".toList then some .default
  else if validWallPath (trim l) then some (.path (String.ofList (trim l)))
  else none

def parseCfg (bytes : List UInt8) : Option DeskCfg := do
  let text ← fromUtf8 bytes
  let lines := (textLines text).filter fun l => trim l ≠ []
  let mode ← lines.head?.bind parseMode
  let wall ← lines.tail.head?.bind parseWall
  some ⟨mode, wall⟩

def modeText : PanelMode → List Char
  | .float => "float".toList
  | .full => "full".toList

def wallText : WallSrc → List Char
  | .default => "default".toList
  | .path p => p.toList

/-- The bytes of the file that is written. -/
def saveCfg (cfg : DeskCfg) : List UInt8 :=
  utf8 (modeText cfg.mode ++ '\n' :: (wallText cfg.wall ++ ['\n']))

/-- What the gallery reads: the files of a folder, and the first eight bytes of a file. -/
structure Disk where
  list : String → Option (List (String × Bool))
  readAt : String → Option (List UInt8)

def join (dir name : String) : String :=
  if dir = "/" then "/" ++ name
  else if dir.toList.getLast? = some '/' then dir ++ name
  else dir ++ "/" ++ name

def isImageName (disk : Disk) (path : String) : Bool :=
  match disk.readAt path with
  | some magic =>
    [0xFF, 0xD8].isPrefixOf magic || [0x89, 0x50, 0x4E, 0x47, 0x0D, 0x0A, 0x1A,
      0x0A].isPrefixOf magic
  | none => false

def pushImages (disk : Disk) (dir : String) : List WallItem :=
  match disk.list dir with
  | none => []
  | some ents =>
    ents.filterMap fun e =>
      if e.2 then none
      else if isImageName disk (join dir e.1) then some (.path (join dir e.1))
      else none

def folders : List String := ["/wallpapers", "/docs/wallpapers", "/docs", "/"]

/-- What the settings offer. -/
def gallery (disk : Disk) : List WallItem := .default :: folders.flatMap (pushImages disk)

/-- The source that a click on a card sets. -/
def srcOf : WallItem → WallSrc
  | .default => .default
  | .path p => .path p

/-- A path that comes back from the text as it was. -/
structure Storable (p : List Char) : Prop where
  noDots : ¬ ['.', '.'] <:+: p
  short : (utf8 p).length < 96
  oneLine : '\n' ∉ p
  trimmed : ∀ c, p.getLast? = some c → isWhitespace c = false

variable {disk : Disk}

theorem trim_stripEol (l : List Char) : trim (stripEol l) = trim l := by
  have hdrop : ∀ (m : List Char) (c : Char), isWhitespace c = true → m.getLast? = some c →
      trim m.dropLast = trim m := by
    intro m c hc hm
    have hne : m.dropLast ++ [c] = m := List.dropLast_append_getLast? c hm
    rw [← trim_append_space hc m.dropLast, hne]
  rw [stripEol]
  split
  · rename_i hnl
    split
    · rename_i hcr
      rw [hdrop _ '\r' rfl hcr, hdrop _ '\n' rfl hnl]
    · rw [hdrop _ '\n' rfl hnl]
  · rfl

theorem stripEol_trim (l : List Char) : trim (stripEol (l ++ ['\n'])) = trim l := by
  rw [trim_stripEol, trim_append_space rfl]

theorem parseMode_congr {l m : List Char} (h : trim l = trim m) : parseMode l = parseMode m := by
  rw [parseMode, parseMode, h]

theorem parseWall_congr {l m : List Char} (h : trim l = trim m) : parseWall l = parseWall m := by
  rw [parseWall, parseWall, h]

theorem parseMode_modeText (mode : PanelMode) : parseMode (modeText mode) = some mode := by
  cases mode with
  | float => rfl
  | full => rfl

theorem parseCfg_two {first second rest : List Char} (hfirst : '\n' ∉ first)
    (hsecond : '\n' ∉ second) (hf : trim first ≠ []) (hs : trim second ≠ []) :
    parseCfg (utf8 (first ++ '\n' :: (second ++ '\n' :: rest))) =
      (parseMode first).bind fun mode => (parseWall second).map fun wall => ⟨mode, wall⟩ := by
  have hlines : textLines (first ++ '\n' :: (second ++ '\n' :: rest)) =
      stripEol (first ++ ['\n']) :: stripEol (second ++ ['\n']) :: textLines rest := by
    rw [textLines, Lines.lines_append_sep hfirst, Lines.lines_append_sep hsecond, List.map_cons,
      List.map_cons, textLines]
  have hkept :
      (textLines (first ++ '\n' :: (second ++ '\n' :: rest))).filter (fun l => trim l ≠ []) =
      stripEol (first ++ ['\n']) :: stripEol (second ++ ['\n']) :: (textLines rest).filter fun l =>
        trim l ≠ [] := by
    rw [hlines]
    simp [stripEol_trim, hf, hs]
  rw [parseCfg, fromUtf8_utf8]
  simp only [Option.bind_eq_bind, Option.bind_some]
  rw [hkept, List.tail_cons, List.head?_cons, List.head?_cons, Option.bind_some, Option.bind_some,
    parseMode_congr (stripEol_trim first), parseWall_congr (stripEol_trim second)]
  simp only [Option.map_eq_bind, Function.comp_def]

theorem trim_head {c : Char} (hc : isWhitespace c = false) (s : List Char) :
    ∃ t, trim (c :: s) = c :: t := by
  obtain ⟨b, hb, hspace⟩ := trim_append (c :: s)
  rw [trimStart_of_head hc] at hb
  cases ht : trim (c :: s) with
  | nil =>
    rw [ht, List.nil_append] at hb
    have hws := hspace c (by rw [← hb]; exact List.mem_cons_self)
    exact absurd (hws.symm.trans hc) (by simp)
  | cons d t =>
    rw [ht, List.cons_append, List.cons.injEq] at hb
    exact ⟨t, by rw [hb.1]⟩

theorem mem_trim {c : Char} {s : List Char} (h : c ∈ trim s) : c ∈ s := by
  obtain ⟨a, ha, -⟩ := trimStart_append s
  obtain ⟨b, hb, -⟩ := trim_append s
  rw [ha, hb]
  exact List.mem_append_right _ (List.mem_append_left _ h)

theorem modeText_oneLine (mode : PanelMode) : '\n' ∉ modeText mode ∧ trim (modeText mode) ≠ [] := by
  cases mode with
  | float => decide
  | full => decide

theorem parseWall_path (s : List Char) : parseWall ('/' :: s) =
    if validWallPath (trim ('/' :: s)) then some (.path (String.ofList (trim ('/' :: s))))
      else none := by
  obtain ⟨t, ht⟩ := trim_head (c := '/') rfl s
  have hne : trim ('/' :: s) ≠ "default".toList := by
    rw [ht]
    simp
  rw [parseWall, if_neg hne]

theorem storable_iff (s : List Char) :
    Storable ('/' :: s) ↔ '\n' ∉ '/' :: s ∧ validWallPath ('/' :: s) = true ∧ trim ('/' :: s) =
      '/' :: s := by
  rw [trim_eq_self_iff rfl, validWallPath, decide_eq_true_iff]
  constructor
  · intro h
    exact ⟨h.oneLine, ⟨rfl, h.noDots, h.short⟩, h.trimmed _ (List.getLast?_eq_getLast_of_ne_nil _)⟩
  · rintro ⟨hline, ⟨-, hdots, hshort⟩, hlast⟩
    refine ⟨hdots, hshort, hline, fun c hc => ?_⟩
    rw [List.getLast?_eq_getLast_of_ne_nil (List.cons_ne_nil '/' s), Option.some.injEq] at hc
    rw [← hc]
    exact hlast

theorem saveCfg_path (mode : PanelMode) (p : String) :
    saveCfg ⟨mode, .path p⟩ = utf8 (modeText mode ++ '\n' :: (p.toList ++ '\n' :: [])) := rfl

theorem saveCfg_default (mode : PanelMode) :
    saveCfg ⟨mode, .default⟩ = utf8 (modeText mode ++ '\n' :: ("default".toList ++ '\n' :: [])) :=
  rfl

theorem parse_save_path (mode : PanelMode) {p : String} {s : List Char} (hp : p.toList = '/' :: s) :
    parseCfg (saveCfg ⟨mode, .path p⟩) = some ⟨mode, .path p⟩ ↔ Storable p.toList := by
  obtain ⟨hmode, hmodeNe⟩ := modeText_oneLine mode
  rw [hp, storable_iff]
  by_cases hline : '\n' ∈ '/' :: s
  · obtain ⟨a, b, hab, ha⟩ := List.eq_append_cons_of_mem hline
    obtain ⟨t, rfl⟩ : ∃ t, a = '/' :: t := by
      cases a with
      | nil => cases hab
      | cons d t => exact ⟨t, by rw [(List.cons.inj hab).1]⟩
    obtain ⟨u, hu⟩ := trim_head (c := '/') rfl t
    have hne : trim ('/' :: t) ≠ [] := by simp [hu]
    have hfile : '/' :: s ++ ['\n'] = ('/' :: t) ++ '\n' :: (b ++ ['\n']) := by
      rw [hab]
      exact List.append_assoc _ _ _
    have hread : parseCfg (saveCfg ⟨mode, .path p⟩) = (parseWall ('/' :: t)).map fun wall =>
        ⟨mode, wall⟩ := by
      rw [saveCfg_path, hp, hfile, parseCfg_two hmode ha hmodeNe hne, parseMode_modeText,
        Option.bind_some]
    rw [hread, parseWall_path]
    refine iff_of_false ?_ fun h => h.1 hline
    split
    · intro h
      obtain ⟨-, hpath⟩ := DeskCfg.mk.inj (Option.some.inj h)
      have hlist : trim ('/' :: t) = '/' :: s := by
        rw [← hp, ← WallSrc.path.inj hpath, String.toList_ofList]
      rw [← hlist] at hline
      exact ha (mem_trim hline)
    · intro h
      cases h
  · obtain ⟨u, hu⟩ := trim_head (c := '/') rfl s
    rw [saveCfg_path, hp, parseCfg_two hmode hline hmodeNe (by simp [hu]),
      parseMode_modeText, Option.bind_some, parseWall_path]
    constructor
    · intro h
      split at h
      · rename_i hvalid
        obtain ⟨-, hpath⟩ := DeskCfg.mk.inj (Option.some.inj h)
        have hlist := congrArg String.toList (WallSrc.path.inj hpath)
        rw [String.toList_ofList, hp] at hlist
        rw [hlist] at hvalid
        exact ⟨hline, hvalid, hlist⟩
      · cases h
    · rintro ⟨-, hvalid, htrim⟩
      rw [htrim, if_pos hvalid, ← hp, String.ofList_toList]
      rfl

theorem gallery_path {it : WallItem} (h : it ∈ gallery disk) {p : String} (hp : it = .path p) :
    ∃ s, p.toList = '/' :: s := by
  have hjoin : ∀ dir ∈ folders, ∀ name, ∃ s, (join dir name).toList = '/' :: s := by
    simp only [folders, List.forall_mem_cons, List.not_mem_nil, join]
    refine ⟨fun name => ?_, fun name => ?_, fun name => ?_, fun name => ?_, by simp⟩
    all_goals exact ⟨_, by simp; rfl⟩
  rw [gallery, List.mem_cons, List.mem_flatMap] at h
  rcases h with rfl | ⟨dir, hdir, hmem⟩
  · cases hp
  · rw [pushImages] at hmem
    cases hlist : disk.list dir with
    | none => simp [hlist] at hmem
    | some ents =>
      simp only [hlist, List.mem_filterMap] at hmem
      obtain ⟨e, -, he⟩ := hmem
      split at he
      · cases he
      split at he
      · obtain rfl := WallItem.path.inj ((Option.some.inj he).trans hp)
        exact hjoin dir hdir e.1
      · cases he

theorem parse_save_default (mode : PanelMode) :
    parseCfg (saveCfg ⟨mode, .default⟩) = some ⟨mode, .default⟩ := by
  obtain ⟨hmode, hmodeNe⟩ := modeText_oneLine mode
  rw [saveCfg_default, parseCfg_two hmode (by decide) hmodeNe (by decide), parseMode_modeText]
  rfl

/-- The settings are read as they were written exactly where the path is storable. -/
theorem settings_survive_iff (disk : Disk) (mode : PanelMode) (it : WallItem)
    (h : it ∈ gallery disk) : parseCfg (saveCfg ⟨mode, srcOf it⟩) = some ⟨mode, srcOf it⟩ ↔
    ∀ p, it = .path p → Storable p.toList := by
  cases it with
  | default => exact iff_of_true (parse_save_default mode) (by simp)
  | path p =>
    obtain ⟨s, hs⟩ := gallery_path h rfl
    rw [srcOf, parse_save_path mode hs]
    simp

def onePicture (name : String) : Disk where
  list dir := if dir = "/" then some [(name, false)] else none
  readAt path := if path = join "/" name then some [0xFF, 0xD8] else none

theorem onePicture_gallery (name : String) : .path (join "/" name) ∈ gallery (onePicture name) := by
  simp [gallery, folders, pushImages, onePicture, isImageName]

theorem settings_survive_sea :
    parseCfg (saveCfg ⟨.float, .path "/sea.png"⟩) = some ⟨.float, .path "/sea.png"⟩ := by
  refine (settings_survive_iff (onePicture "sea.png") .float (.path "/sea.png")
    (onePicture_gallery "sea.png")).mpr ?_
  rintro p ⟨⟩
  exact (storable_iff "sea.png".toList).mpr (by decide)

/-- Two dots in a name are not a step up. -/
theorem settings_lost : ¬ ∀ (disk : Disk) (mode : PanelMode) (it : WallItem), it ∈ gallery disk →
    parseCfg (saveCfg ⟨mode, srcOf it⟩) = some ⟨mode, srcOf it⟩ := by
  intro h
  have hread := h (onePicture "a..b.png") .full (.path "/a..b.png") (onePicture_gallery "a..b.png")
  have hp := ((parse_save_path .full (p := "/a..b.png") rfl).mp hread).noDots
  exact hp (by decide)

end CoeleoOs.Ui.Desk
