import CoeleoOs.Edit.Program
import CoeleoOs.Sh.Files

/-!
# Loading and saving in edit

The file is read until its end, an error or a full buffer, and a save truncates it before it
writes. The answers of the file calls are given: how much each read or write moves, or `none` for
an error. The file calls of the kernel answer so.
-/

namespace CoeleoOs.Edit
open CoeleoOs.Task (Bytes)
open CoeleoOs.Sh (Outcome)
open CoeleoOs.Lib.TermRow (printable)

/-- How the calls of a load are answered. A read that is no error and not at the end gives at
least one byte. -/
structure LoadAnswers where
  isDir : Bool
  openOk : Bool
  reads : List (Option ℕ)

def readAnswer (content : Bytes) (off room : ℕ) (a : Option ℕ) : Option Bytes :=
  a.map fun k => (content.drop off).take (min room (k + 1))

inductive Loaded
  | isDir
  | buf (b : Buf)
  | running

theorem readAnswer_length {content got : Bytes} {off room : ℕ} {a : Option ℕ}
    (h : readAnswer content off room a = some got) : got.length ≤ room := by
  obtain ⟨k, -, rfl⟩ := Option.map_eq_some_iff.mp h
  rw [List.length_take]
  omega

def loadLoop (content : Bytes) (b : Buf) : List (Option ℕ) → Loaded
  | [] => if cap ≤ b.bytes.length then .buf b else .running
  | a :: reads =>
    if hfull : cap ≤ b.bytes.length then .buf b
    else
      match h : readAnswer content b.bytes.length (cap - b.bytes.length) a with
      | none => .buf b
      | some [] => .buf b
      | some (x :: got) =>
        loadLoop content ⟨b.bytes ++ x :: got, by
          have := readAnswer_length h
          rw [List.length_append]
          omega⟩ reads

def load (content : Bytes) (a : LoadAnswers) : Loaded :=
  if !a.openOk then .buf .empty
  else if a.isDir then .isDir
  else loadLoop content .empty a.reads

structure SaveAnswers where
  openOk : Bool
  writes : List (Option ℕ)

def saveLoop (file : Bytes) : Bytes → List (Option ℕ) → Outcome × Bytes
  | [], _ => (.ok, file)
  | _ :: _, [] => (.running, file)
  | _ :: _, none :: _ => (.err, file)
  | data, some w :: writes => saveLoop (file ++ data.take w) (data.drop w) writes

def save (file data : Bytes) (a : SaveAnswers) : Outcome × Bytes :=
  if !a.openOk then (.err, file) else saveLoop [] data a.writes

/-- Characters and backspaces. -/
def Typed (b : UInt8) : Prop := b = 0x0A ∨ b = 0x0D ∨ b = 0x08 ∨ b = 0x7F ∨ printable b = true

/-- A typed byte applied at the end of a content, where a full buffer refuses a character. -/
def retype (content : Bytes) (b : UInt8) : Bytes :=
  if b = 0x08 ∨ b = 0x7F then content.dropLast
  else if content.length < cap then content ++ [if b = 0x0D then 0x0A else b]
  else content

def delivered (reads : List (Option ℕ)) : ℕ :=
  ((reads.takeWhile Option.isSome).map fun k => k.getD 0 + 1).sum

def LoadAnswers.available (a : LoadAnswers) : ℕ := if a.openOk then delivered a.reads else 0

section Load

variable {content : Bytes} {b b' : Buf} {reads : List (Option ℕ)}

theorem insert_bytes (b : Buf) (c : UInt8) :
    (b.insert c).bytes = if b.bytes.length < cap then b.bytes ++ [c] else b.bytes := by
  unfold Buf.insert
  split <;> rfl

theorem prefix_eq_take {n : ℕ} {p : Bytes} (hp : p <+: content)
    (h : p.length = min n content.length) : p = content.take n := by
  rw [List.prefix_iff_eq_take.mp hp, List.take_eq_take_iff]
  omega

theorem delivered_cons (k : ℕ) (reads : List (Option ℕ)) :
    delivered (some k :: reads) = k + 1 + delivered reads := by
  rw [delivered, List.takeWhile_cons_of_pos rfl]
  rfl

theorem loadLoop_take (hb : b.bytes <+: content) (h : loadLoop content b reads = .buf b') :
    b'.bytes = content.take (min cap (b.bytes.length + delivered reads)) := by
  have hlen := hb.length_le
  have hfits := b.fits
  induction reads generalizing b with
  | nil =>
    rw [loadLoop] at h
    split at h
    · obtain rfl := Loaded.buf.inj h
      exact prefix_eq_take hb (by omega)
    · cases h
  | cons a reads ih =>
    rw [loadLoop] at h
    split at h
    · obtain rfl := Loaded.buf.inj h
      exact prefix_eq_take hb (by omega)
    split at h
    · rename_i herr
      obtain rfl := Loaded.buf.inj h
      obtain rfl := Option.map_eq_none_iff.mp herr
      exact prefix_eq_take hb (by simp [delivered, hfits, hlen])
    · rename_i hend
      obtain rfl := Loaded.buf.inj h
      obtain ⟨k, rfl, hk⟩ := Option.map_eq_some_iff.mp hend
      have hzero := congrArg List.length hk
      rw [List.length_take, List.length_drop, List.length_nil] at hzero
      exact prefix_eq_take hb (by omega)
    · rename_i x got hgot
      obtain ⟨k, rfl, hk⟩ := Option.map_eq_some_iff.mp hgot
      have hbytes :
          b.bytes ++ x :: got =
            content.take (b.bytes.length + min (cap - b.bytes.length) (k + 1)) := by
        rw [← hk, List.take_add, ← List.prefix_iff_eq_take.mp hb]
      have hgrown := congrArg List.length hbytes
      rw [List.length_take] at hgrown
      have hpre : b.bytes ++ x :: got <+: content := by
        rw [hbytes]
        exact List.take_prefix _ _
      have hnew := ih hpre h hpre.length_le (by rw [hgrown]; omega)
      rw [hnew, delivered_cons, List.take_eq_take_iff, hgrown]
      omega

theorem load_take {a : LoadAnswers} (h : load content a = .buf b) :
    b.bytes = content.take (min cap a.available) := by
  rw [load] at h
  split at h
  · rename_i hopen
    obtain rfl := Loaded.buf.inj h
    have hno : a.openOk = false := by simpa using hopen
    simp [LoadAnswers.available, hno, Buf.empty]
  · rename_i hopen
    have hyes : a.openOk = true := by simpa using hopen
    split at h
    · cases h
    · rw [loadLoop_take List.nil_prefix h, LoadAnswers.available, if_pos hyes]
      simp [Buf.empty]

theorem loadLoop_finishes (h : cap < reads.length + b.bytes.length) :
    loadLoop content b reads ≠ .running := by
  have hfits := b.fits
  induction reads generalizing b with
  | nil =>
    rw [List.length_nil] at h
    omega
  | cons a reads ih =>
    rw [loadLoop]
    split
    · exact nofun
    split
    · exact nofun
    · exact nofun
    · refine ih ?_ ?_
      · simp only [List.length_append, List.length_cons] at h ⊢
        omega
      · exact Buf.fits _

theorem load_finishes {a : LoadAnswers} (h : cap < a.reads.length) : load content a ≠ .running := by
  rw [load]
  split
  · exact nofun
  split
  · exact nofun
  · exact loadLoop_finishes (Nat.lt_add_right _ h)

theorem loadLoop_not_dir : loadLoop content b reads ≠ .isDir := by
  induction reads generalizing b with
  | nil =>
    rw [loadLoop]
    split <;> exact nofun
  | cons a reads ih =>
    rw [loadLoop]
    split
    · exact nofun
    split
    · exact nofun
    · exact nofun
    · exact ih

theorem load_not_dir {a : LoadAnswers} (h : a.isDir = false) : load content a ≠ .isDir := by
  rw [load, h]
  split
  · exact nofun
  · exact loadLoop_not_dir

end Load

section Save

variable {file data saved : Bytes} {writes : List (Option ℕ)}

theorem saveLoop_ok (h : saveLoop file data writes = (.ok, saved)) : saved = file ++ data := by
  induction writes generalizing file data with
  | nil =>
    cases data with
    | nil =>
      rw [saveLoop] at h
      rw [List.append_nil, (Prod.mk.inj h).2]
    | cons d data => cases (Prod.mk.inj h).1
  | cons w writes ih =>
    cases data with
    | nil =>
      rw [saveLoop] at h
      rw [List.append_nil, (Prod.mk.inj h).2]
    | cons d data =>
      cases w with
      | none => cases (Prod.mk.inj h).1
      | some w =>
        change saveLoop (file ++ (d :: data).take w) ((d :: data).drop w) writes = _ at h
        rw [ih h, List.append_assoc, List.take_append_drop]

theorem save_ok {a : SaveAnswers} (h : save file data a = (.ok, saved)) : saved = data := by
  rw [save] at h
  split at h
  · cases (Prod.mk.inj h).1
  · exact saveLoop_ok h

theorem save_at_once (file data : Bytes) :
    save file data ⟨true, [some data.length]⟩ = (.ok, data) := by
  cases data with
  | nil => rfl
  | cons d data => simp [save, saveLoop]

end Save

section Typing

variable {keys : Bytes} {ed : State}

theorem ne_of_printable {k c : UInt8} (h : printable k = true) (hc : printable c = false) :
    k ≠ c := by
  rintro rfl
  rw [h] at hc
  cases hc

theorem handle_printable {k : UInt8} (h : printable k = true) :
    ed.handle k = { ed with buf := ed.buf.insert k } := by
  have hne : ∀ c, printable c = false → k ≠ c := fun _ => ne_of_printable h
  rw [State.handle, if_neg (hne _ rfl), if_neg (hne _ rfl), if_neg (hne _ rfl),
    if_neg (not_or_intro (hne _ rfl) (hne _ rfl)), if_neg (hne _ rfl), if_neg (hne _ rfl),
    if_neg (not_or_intro (hne _ rfl) (hne _ rfl)), if_pos h]

theorem handle_typed {k : UInt8} (h : Typed k) :
    (ed.handle k).buf.bytes = retype ed.buf.bytes k := by
  rcases h with rfl | rfl | rfl | rfl | h
  · exact insert_bytes _ _
  · exact insert_bytes _ _
  · rfl
  · rfl
  · have hne : ∀ c, printable c = false → k ≠ c := fun _ => ne_of_printable h
    rw [handle_printable h, retype, if_neg (not_or_intro (hne _ rfl) (hne _ rfl)),
      if_neg (hne _ rfl)]
    exact insert_bytes _ _

theorem foldl_typed (h : ∀ k ∈ keys, Typed k) :
    (keys.foldl State.handle ed).buf.bytes = keys.foldl retype ed.buf.bytes := by
  induction keys generalizing ed with
  | nil => rfl
  | cons k keys ih =>
    rw [List.forall_mem_cons] at h
    rw [List.foldl_cons, List.foldl_cons, ih h.2, handle_typed h.1]

end Typing

/-- Every successful save after typing leaves what typing makes of the file, exactly when all of
the file was loaded. -/
theorem edit_keeps_iff {content : Bytes} {a : LoadAnswers} {b : Buf} {clips : List (Option Bytes)}
    (h : load content a = .buf b) :
    (∀ keys : Bytes, (∀ k ∈ keys, Typed k) → ∀ file sa saved,
        save file (keys.foldl State.handle (.start b clips)).buf.bytes sa = (.ok, saved) →
          saved = keys.foldl retype content) ↔
      content.length ≤ min cap a.available := by
  have htake := load_take h
  constructor
  · intro hkeeps
    have hsame :=
      hkeeps [] (fun _ hk => absurd hk List.not_mem_nil) content _ _ (save_at_once content b.bytes)
    rw [List.foldl_nil, htake] at hsame
    rw [← hsame, List.length_take]
    omega
  · intro hall keys hkeys file sa saved hsave
    rw [save_ok hsave, foldl_typed hkeys, State.start, htake, List.take_of_length_le hall]

theorem edit_short_file : ∃ b, load [0x61, 0x62] ⟨false, true, [some 0, some 7, some 0]⟩ = .buf b ∧
    ∀ keys : Bytes, (∀ k ∈ keys, Typed k) → ∀ file sa saved,
      save file (keys.foldl State.handle (.start b [])).buf.bytes sa = (.ok, saved) →
        saved = keys.foldl retype [0x61, 0x62] := by
  have hload : load [0x61, 0x62] ⟨false, true, [some 0, some 7, some 0]⟩ =
      .buf ⟨[0x61, 0x62], by decide⟩ := rfl
  exact ⟨_, hload, (edit_keeps_iff hload).mpr (by decide)⟩

def unhindered (n : ℕ) : LoadAnswers := ⟨false, true, List.replicate n (some 0)⟩

theorem delivered_replicate (n : ℕ) : delivered (List.replicate n (some 0)) = n := by
  induction n with
  | zero => rfl
  | succ n ih =>
    rw [List.replicate_succ, delivered_cons, ih]
    omega

theorem load_unhindered (content : Bytes) : ∃ b, load content (unhindered (cap + 1)) = .buf b ∧
    b.bytes = content.take cap := by
  have hfin : load content (unhindered (cap + 1)) ≠ .running := load_finishes (by
    rw [unhindered, List.length_replicate]
    exact Nat.lt_succ_self cap)
  have hdir : load content (unhindered (cap + 1)) ≠ .isDir := load_not_dir rfl
  cases hload : load content (unhindered (cap + 1)) with
  | isDir => exact absurd hload hdir
  | running => exact absurd hload hfin
  | buf b =>
    refine ⟨b, rfl, ?_⟩
    rw [load_take hload, unhindered, LoadAnswers.available, if_pos rfl, delivered_replicate,
      min_eq_left (Nat.le_succ cap)]

/-- The last byte of a file of 4097 bytes is lost by a save without any edit. -/
theorem edit_loses_tail :
    ∃ content b saved, content.length = 4097 ∧ load content (unhindered (cap + 1)) = .buf b ∧
    save content ([].foldl State.handle (.start b [])).buf.bytes ⟨true, [some b.bytes.length]⟩ =
      (.ok, saved) ∧ saved ≠ content := by
  obtain ⟨b, hload, hb⟩ := load_unhindered (List.replicate 4097 0x61)
  refine ⟨List.replicate 4097 0x61, b, b.bytes, List.length_replicate, hload, save_at_once _ _,
    fun heq => ?_⟩
  have hlen := congrArg List.length (hb.symm.trans heq)
  rw [List.length_take, List.length_replicate] at hlen
  exact absurd hlen (by decide)

section Kernel

open CoeleoOs.Fs CoeleoOs.Sh CoeleoOs.Task

variable {φ η : Type} (fat : FatIo φ η)

def loadLoopFiles (fd : ℕ) : ℕ → Files φ → Bytes → Option Bytes × Files φ
  | 0, s, b => (if cap ≤ b.length then some b else none, s)
  | fuel + 1, s, b =>
    if cap ≤ b.length then (some b, s)
    else
      match s.read fat fd (cap - b.length) with
      | (none, s) => (some b, s)
      | (some [], s) => (some b, s)
      | (some (x :: got), s) => loadLoopFiles fd fuel s (b ++ x :: got)

def loadFiles (fuel : ℕ) (s : Files φ) (path : Bytes) : Option (Option Bytes) × Files φ :=
  match s.openPath fat path openRead with
  | (none, s) => (some (some []), s)
  | (some fd, s) =>
    match s.readdir fd with
    | (some _, s) => (none, s.close fd)
    | (none, s) =>
      let r := loadLoopFiles fat fd fuel s []
      (some r.1, r.2.close fd)

def saveFiles (fuel : ℕ) (s : Files φ) (path data : Bytes) : Sh.Outcome × Files φ :=
  match s.openPath fat path openNew with
  | (none, s) => (.err, s)
  | (some fd, s) =>
    let r := writeRest fat cap fd fuel data s
    (r.1, r.2.close fd)

variable {fat} (spec : FatSpec fat) {s s' : Files φ} {path content bs : Bytes} {fd fuel : ℕ}

theorem content_of_store (hcwd : s'.mount.cwd = s.mount.cwd)
    (hstore : s'.mount.store spec = s.mount.store spec) :
    s'.content spec path = s.content spec path := by
  rw [Files.content, Files.content, Mount.content, Mount.content, hstore, Mount.relOf_congr hcwd]

theorem loadLoopFiles_answers {b : Buf}
    (hfd : s.fds.getMut fd = some (.file path b.bytes.length false))
    (hc : s.content spec path = some content) (hb : b.bytes <+: content)
    (h : loadLoopFiles fat fd fuel s b.bytes = (some bs, s')) :
    s'.content spec path = some content ∧ ∃ reads b', loadLoop content b reads = .buf b' ∧
    b'.bytes = bs := by
  induction fuel generalizing s b with
  | zero =>
    obtain ⟨hr, rfl⟩ := Prod.mk.inj h
    split at hr
    · rename_i hfull
      exact ⟨hc, [], b, by rw [loadLoop, if_pos hfull], Option.some.inj hr⟩
    · cases hr
  | succ fuel ih =>
    rw [loadLoopFiles] at h
    split at h
    · rename_i hfull
      obtain ⟨hr, rfl⟩ := Prod.mk.inj h
      exact ⟨hc, [], b, by rw [loadLoop, if_pos hfull], Option.some.inj hr⟩
    rename_i hroom
    have hpos : 0 < cap - b.bytes.length := by omega
    split at h
    · rename_i s₁ hread
      obtain ⟨hr, rfl⟩ := Prod.mk.inj h
      obtain ⟨hcwd, hstore, -⟩ := Files.read_spec spec hfd hpos hread
      refine ⟨(content_of_store spec hcwd hstore).trans hc, [none], b, ?_, Option.some.inj hr⟩
      rw [loadLoop, dif_neg hroom]
      rfl
    · rename_i s₁ hread
      obtain ⟨hr, rfl⟩ := Prod.mk.inj h
      obtain ⟨hcwd, hstore, -, hgot⟩ := Files.read_spec spec hfd hpos hread
      obtain ⟨-, i, hi, -, hend⟩ := hgot [] rfl
      obtain rfl : (s.mount.store spec).data i = content :=
        Option.some.inj ((Lib.FileStore.content_of_node hi).symm.trans hc)
      refine ⟨(content_of_store spec hcwd hstore).trans hc, [some 0], b, ?_, Option.some.inj hr⟩
      have hnone :
          readAnswer ((s.mount.store spec).data i) b.bytes.length (cap - b.bytes.length) (some 0) =
            some [] := by
        rw [readAnswer, Option.map_some, List.drop_of_length_le (hend rfl), List.take_nil]
      rw [loadLoop, dif_neg hroom]
      split
      · rfl
      · rfl
      · rename_i hsome
        rw [hnone] at hsome
        cases hsome
    · rename_i x got s₁ hread
      obtain ⟨hcwd, hstore, -, hgot⟩ := Files.read_spec spec hfd hpos hread
      obtain ⟨hfds, i, hi, htake, -⟩ := hgot _ rfl
      obtain rfl : (s.mount.store spec).data i = content :=
        Option.some.inj ((Lib.FileStore.content_of_node hi).symm.trans hc)
      have hlen : (x :: got).length ≤ cap - b.bytes.length := Files.read_length spec hfd hpos hread
      have hc₁ := (content_of_store spec hcwd hstore).trans hc
      have hread :
          readAnswer ((s.mount.store spec).data i) b.bytes.length (cap - b.bytes.length)
            (some got.length) = some (x :: got) := by
        rw [min_eq_left hb.length_le] at htake
        have hmin : min (cap - b.bytes.length) (got.length + 1) = (x :: got).length :=
          min_eq_right hlen
        rw [readAnswer, Option.map_some, hmin, ← htake]
      have hnew : ((b.bytes ++ x :: got).length) ≤ cap := by
        rw [List.length_append]
        omega
      have hpre : b.bytes ++ x :: got <+: (s.mount.store spec).data i := by
        rw [min_eq_left hb.length_le] at htake
        have hsum :
            b.bytes ++ x :: got = ((s.mount.store spec).data i).take
              (b.bytes.length + (x :: got).length) := by
          rw [List.take_add, ← List.prefix_iff_eq_take.mp hb, ← htake]
        rw [hsum]
        exact List.take_prefix _ _
      obtain ⟨hfinal, reads, b', hload, hbs⟩ := ih (b := ⟨b.bytes ++ x :: got, hnew⟩) (by
        rw [hfds, List.length_append]
        exact FdTable.getMut_put_self hfd _) hc₁ hpre h
      refine ⟨hfinal, some got.length :: reads, b', ?_, hbs⟩
      rw [loadLoop, dif_neg hroom]
      split
      · rename_i hsome
        rw [hread] at hsome
        cases hsome
      · rename_i hsome
        rw [hread] at hsome
        cases hsome
      · rename_i y got' hsome
        obtain ⟨rfl, rfl⟩ := List.cons.inj (Option.some.inj (hread.symm.trans hsome))
        exact hload

theorem loadFiles_answers (hc : s.content spec path = some content)
    (h : loadFiles fat fuel s path = (some (some bs), s')) :
    s'.content spec path = some content ∧ ∃ a b, load content a = .buf b ∧ b.bytes = bs := by
  rw [loadFiles] at h
  rcases hopen : s.openPath fat path openRead with ⟨_ | fd, s₁⟩
  · rw [hopen] at h
    obtain ⟨hr, rfl⟩ := Prod.mk.inj h
    obtain ⟨hmount, -⟩ := Files.openPath_read hopen
    refine ⟨?_, ⟨false, false, []⟩, .empty, rfl, Option.some.inj (Option.some.inj hr)⟩
    rwa [Files.content, hmount]
  · rw [hopen] at h
    obtain ⟨hmount, hfd⟩ := Files.openPath_read hopen
    rcases hfd fd rfl with ⟨ents, hdir⟩ | ⟨hfile, -⟩
    · dsimp only at h
      have hsome : ∃ r, (s₁.readdir fd).1 = some r := by
        rw [Files.readdir, hdir]
        dsimp only
        split
        · exact ⟨_, rfl⟩
        · exact ⟨_, rfl⟩
      obtain ⟨r, hr⟩ := hsome
      rw [← Prod.mk.eta (p := s₁.readdir fd), hr] at h
      cases (Prod.mk.inj h).1
    · have hnone : s₁.readdir fd = (none, s₁) := by rw [Files.readdir, hfile]
      dsimp only at h
      rw [hnone] at h
      obtain ⟨hr, rfl⟩ := Prod.mk.inj h
      have hc₁ : s₁.content spec path = some content := by rwa [Files.content, hmount]
      obtain ⟨hkeep, reads, b, hload, hbs⟩ :=
        loadLoopFiles_answers (b := .empty) spec hfile hc₁ List.nil_prefix
        (Prod.ext (Option.some.inj hr) rfl)
      refine ⟨?_, ⟨false, true, reads⟩, b, hload, hbs⟩
      rwa [Files.content, close_mount]

theorem saveFiles_ok {data : Bytes} (h : saveFiles fat fuel s path data = (.ok, s')) :
    s'.content spec path = some data := by
  rw [saveFiles] at h
  rcases hopen : s.openPath fat path openNew with ⟨_ | fd, s₁⟩
  · rw [hopen] at h
    cases (Prod.mk.inj h).1
  · rw [hopen] at h
    obtain ⟨hr, rfl⟩ := Prod.mk.inj h
    obtain ⟨hcwd, -, -, hnew⟩ := Files.openPath_new spec hopen
    obtain ⟨-, hfd, -, hempty⟩ := hnew fd rfl
    have hc₁ : s₁.content spec path = some [] := by
      rwa [Files.content, Mount.content, Mount.relOf_congr hcwd]
    obtain ⟨-, -, hok⟩ :=
      writeRest_spec spec hfd hc₁ (Prod.mk.eta (p := writeRest fat cap fd fuel data s₁)).symm
    rw [Files.content, close_mount]
    exact (hok hr).2.2

theorem edit_files {s₂ : Files φ} {fuel' : ℕ} {keys : Bytes} {clips : List (Option Bytes)}
    (hbs : bs.length ≤ cap) (hc : s.content spec path = some content)
    (hl : loadFiles fat fuel s path = (some (some bs), s')) (hkeys : ∀ k ∈ keys, Typed k)
    (hs : saveFiles fat fuel' s' path (keys.foldl State.handle (.start ⟨bs, hbs⟩ clips)).buf.bytes =
      (.ok, s₂)) : ∃ a, load content a = .buf ⟨bs, hbs⟩ ∧ (content.length ≤ min cap a.available →
      s₂.content spec path = some (keys.foldl retype content)) := by
  obtain ⟨-, a, b, hload, rfl⟩ := loadFiles_answers spec hc hl
  refine ⟨a, hload, fun hall => ?_⟩
  rw [saveFiles_ok spec hs, foldl_typed hkeys, State.start, load_take hload,
    List.take_of_length_le hall]

end Kernel

end CoeleoOs.Edit
