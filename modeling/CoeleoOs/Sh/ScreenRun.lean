import CoeleoOs.Sh.Browse
import CoeleoOs.Sh.Screen
import CoeleoOs.Sh.VisibleLine

/-!
# The screen while a line is read

After the keys of any run the row shows the prompt and the line, with the cursor in its place, as
long as no Tab completes within the line without listing names, and no search is left by the end of
the input. Names of files and the lines of the history are visible.
-/

namespace CoeleoOs.Sh
open CoeleoOs.Fs (slash)
open CoeleoOs.Lib CoeleoOs.Lib.FileStore CoeleoOs.Lib.TermRow
open CoeleoOs.Task (Bytes)

namespace Complete

variable {w : Places} {prompt p t : Bytes} {l : Line}

theorem whole_listed (hw : VisibleNames w) (ht : Visible t) : Whole (listed (cands w t)) := by
  have hdir : Whole dirColour := fun s hs => by rwa [feed_dirColour hs]
  have hplain : Whole plainColour := fun s hs => by rwa [feed_plainColour hs]
  have hspaces : Whole [space, space] := Visible.whole (by decide)
  refine whole_intercalate hspaces fun xs hxs => ?_
  obtain ⟨cand, hcand, rfl⟩ := List.mem_map.mp hxs
  have htext := (visible_cands hw ht (List.mem_map_of_mem hcand)).whole
  rw [coloured]
  split
  · exact (hdir.append htext).append hplain
  · exact htext

section Row

variable (hw : VisibleNames w) (hl : Visible l.text)
include hw hl

theorem complete_row (hp : PromptShows prompt p)
    (hends : l.cur = l.text.length ∨ 2 ≤ (cands w l.text).length) :
    (l.onRow p).feed (completeOut w prompt l.text) =
      row p (complete w l.text) (complete w l.text).length := by
  have hfill : Visible ((complete w l.text).drop l.text.length) := (visible_complete hw hl).drop _
  rw [completeOut]
  split
  · have hmode : ((l.onRow p).feed ((complete w l.text).drop l.text.length)).mode = .ground :=
      hfill.whole _ rfl
    have hlisted : ((showing [] 0).feed (listed (cands w l.text))).mode = .ground :=
      whole_listed hw hl _ rfl
    have hnewline : ∀ s : Term, s.mode = .ground → s.feed [0x0A] = showing [] 0 :=
      fun s hs => put_newline hs
    rw [feed_append, feed_append, feed_append, feed_append, feed_append, hnewline _ hmode,
      hnewline _ hlisted, hp, feed_text p (visible_complete hw hl)]
  · rename_i hfew
    have hcur : l.cur = l.text.length := hends.resolve_right hfew
    have hjoin : l.text ++ (complete w l.text).drop l.text.length = complete w l.text :=
      List.prefix_iff_eq_append.mp (prefix_complete w l.text)
    have hwrite :=
      feed_rewrite (p := p) (k := 0) (Nat.le_refl l.text.length) (Nat.le_add_right _ _) hfill
    have hlen := congrArg List.length hjoin
    rw [List.length_append] at hlen
    rw [blanks, List.replicate_zero, List.append_nil, List.take_length, hjoin, Nat.add_zero, hlen]
      at hwrite
    rw [List.append_nil, Line.onRow, hcur]
    exact hwrite

theorem complete_col (prompt : Bytes) (hfew : ¬2 ≤ (cands w l.text).length) :
    ((l.onRow p).feed (completeOut w prompt l.text)).col =
      p.length + (l.cur + ((complete w l.text).length - l.text.length)) := by
  rw [completeOut, if_neg hfew, List.append_nil, Line.onRow,
    feed_row l.cur_le ((visible_complete hw hl).drop _), List.length_drop]
  rfl

end Row

end Complete

namespace Editor

def OnScreen (p : Bytes) (s : Term) (e : Editor) : Prop :=
  match e.search with
  | none => s = e.line.onRow p
  | some _ => s.mode = .ground ∧ s.cell 0 = 0x28

def Tidy (w : Services) (e : Editor) : Got → Prop
  | .byte b => b = 0x09 → e.search = none → e.seq = .normal →
      e.line.cur = e.line.text.length ∨ 2 ≤ (Complete.cands w.places e.line.text).length
  | _ => e.search = none

variable {w : Services} {prompt p out out' : Bytes} {e e' : Editor} {b : UInt8} {s : Term}

section Step

theorem OnScreen.ite {c : Prop} [Decidable c] {x y : Editor} (hx : c → x.OnScreen p (s.feed out))
    (hy : ¬c → y.OnScreen p (s.feed out')) :
    (if c then x else y).OnScreen p (s.feed (if c then out else out')) := by
  split
  · exact hx ‹_›
  · exact hy ‹_›

theorem onScreen_line (he : e.search = none) (hs : s = e.line.onRow p) : e.OnScreen p s := by
  rw [OnScreen, he]
  exact hs

theorem searchShown_cell (h : e.Visibly) {a : Search} (ha : Visible a.query)
    (hs : s.mode = .ground) :
    (s.feed (e.searchShown a)).mode = .ground ∧ (s.feed (e.searchShown a)).cell 0 = 0x28 := by
  have hfound : Visible (a.found.elim [] fun i => (e.hist.getAt i).1) := by
    cases a.found with
    | none => exact nofun
    | some i => exact h.hist.getAt i
  have hname : Visible (SearchBuf.heading.drop 4) := by decide
  have hmid : Visible SearchBuf.separator := by decide
  have hshown : e.searchShown a = [0x0D, 0x1B, 0x5B, 0x4B] ++
      (SearchBuf.heading.drop 4 ++ a.query ++ SearchBuf.separator ++ a.found.elim [] fun i =>
        (e.hist.getAt i).1) := rfl
  rw [hshown, feed_append, feed_eraseLine hs,
    feed_visible (Nat.zero_le _) (((hname.append ha).append hmid).append hfound)]
  exact ⟨rfl, rfl⟩

variable (h : e.Visibly) (he : e.search = none)
include h he

theorem key_onScreen (hp : PromptShows prompt p) (hw : VisibleNames w.places)
    (hseq : e.seq = .normal) (ht : e.Tidy w (.byte b)) :
    (e.key true w.helpers b).OnScreen p ((e.line.onRow p).feed (e.keyOut true w prompt b)) := by
  have hl := h.line
  have hsame : e.OnScreen p ((e.line.onRow p).feed []) := onScreen_line he rfl
  rw [key, keyOut]
  refine .ite (fun _ => onScreen_line he rfl) fun _ => ?_
  refine .ite (fun _ => onScreen_line he (Line.goHome_row p e.line)) fun _ => ?_
  refine .ite (fun _ => onScreen_line he (Line.goToEnd_row hl)) fun _ => ?_
  refine .ite (fun _ => onScreen_line he (Line.forwardDelete_row hl)) fun _ => ?_
  refine .ite (fun _ => onScreen_line he (Line.killToEnd_row p e.line)) fun _ => ?_
  refine .ite (fun _ => onScreen_line he (Line.transpose_row hl)) fun _ => ?_
  refine .ite (fun _ => searchShown_cell h (a := ⟨[], none⟩) (by decide) rfl) fun _ => ?_
  refine .ite (fun _ => onScreen_line he (Line.drop_row hl)) fun _ => ?_
  refine .ite (fun _ => onScreen_line he (Line.redraw_row hp rfl hl)) fun _ => ?_
  refine .ite (fun _ => onScreen_line he (Line.killToStart_row hl)) fun _ => ?_
  refine .ite (fun _ => onScreen_line he (Line.paste_row hp (Line.visible_paste hl _))) fun _ => ?_
  refine .ite (fun _ => onScreen_line he (Line.killWord_row hl)) fun _ => ?_
  refine .ite (fun _ => onScreen_line he (Line.backspace_row hl)) fun _ => ?_
  refine .ite (fun htab => onScreen_line he (Complete.complete_row hw hl hp (ht htab he hseq)))
    fun _ => ?_
  exact .ite (fun hroom => onScreen_line he (Line.insert_row hl hroom.1 hroom.2)) fun _ => hsame

omit he in
theorem upOut_row (p : Bytes) : (e.line.onRow p).feed e.upOut = (e.hist.up e.line).1.onRow p := by
  rw [upOut, History.up]
  by_cases hnil : e.hist.lines = []
  · rw [if_pos hnil, if_pos hnil]
    rfl
  rw [if_neg hnil, if_neg hnil]
  cases e.hist.view with
  | none => exact Line.replaceOut_row h.line (h.hist.get 0)
  | some age =>
    dsimp only
    by_cases hold : e.hist.lines.length ≤ age + 1
    · rw [if_pos hold, if_pos hold]
      rfl
    · rw [if_neg hold, if_neg hold]
      exact Line.replaceOut_row h.line (h.hist.get (age + 1))

omit he in
theorem downOut_row (p : Bytes) :
    (e.line.onRow p).feed e.downOut = (e.hist.down e.line).1.onRow p := by
  rw [downOut, History.down]
  cases e.hist.view with
  | none => rfl
  | some age =>
    cases age with
    | zero => exact Line.replaceOut_row h.line h.hist.draft
    | succ age => exact Line.replaceOut_row h.line (h.hist.get age)

theorem csiFinal_onScreen (param : Bytes) (b : UInt8) :
    (e.csiFinal param b).OnScreen p ((e.line.onRow p).feed (e.csiFinalOut param b)) := by
  have hl := h.line
  have hsame : e.OnScreen p ((e.line.onRow p).feed []) := onScreen_line he rfl
  rw [csiFinal, csiFinalOut]
  refine .ite (fun _ => onScreen_line he (upOut_row h p)) fun _ =>
    .ite (fun _ => onScreen_line he (downOut_row h p)) fun _ => ?_
  refine .ite (fun _ => onScreen_line he (Line.moveRight_row hl)) fun _ => ?_
  refine .ite (fun _ => onScreen_line he (Line.moveLeft_row p e.line)) fun _ => ?_
  refine .ite (fun _ => onScreen_line he (Line.goHome_row p e.line)) fun _ => ?_
  refine .ite (fun _ => onScreen_line he (Line.goToEnd_row hl)) fun _ => .ite (fun _ => ?_) fun _ =>
    hsame
  refine .ite (fun _ => onScreen_line he (Line.forwardDelete_row hl)) fun _ => ?_
  refine .ite (fun _ => onScreen_line he (Line.goHome_row p e.line)) fun _ => ?_
  exact .ite (fun _ => onScreen_line he (Line.goToEnd_row hl)) fun _ => hsame

theorem escByte_onScreen (b : UInt8) :
    (e.escByte true b).OnScreen p ((e.line.onRow p).feed (e.escOut true b)) := by
  rw [escByte, escOut]
  refine .ite (fun _ => onScreen_line he rfl) fun _ => ?_
  refine .ite (fun _ => onScreen_line he (Line.wordLeft_row p e.line)) fun _ => ?_
  exact .ite (fun _ => onScreen_line he (Line.wordRight_row h.line)) fun _ => onScreen_line he rfl

theorem csiByte_onScreen (param : Bytes) (b : UInt8) :
    (e.csiByte true param b).OnScreen p ((e.line.onRow p).feed (e.csiOut true param b)) := by
  have hfinal := csiFinal_onScreen (p := p) h he param b
  rw [csiByte, csiOut]
  refine .ite (fun _ => hfinal) fun _ => ?_
  split
  · exact onScreen_line he rfl
  · exact onScreen_line he rfl

omit he in
theorem searchByte_onScreen (hp : PromptShows prompt p) {a : Search} (ha : Visible a.query)
    (hs : s.mode = .ground) (b : UInt8) :
    (e.searchByte a b).OnScreen p (s.feed ((e.searchByte a b).afterSearchOut prompt)) := by
  have hv := searchByte_visibly h ha b
  rw [afterSearchOut, OnScreen]
  cases hsearch : (e.searchByte a b).search with
  | none => exact Line.redraw_row hp hs hv.line
  | some a' => exact searchShown_cell hv (hv.query a' hsearch) hs

omit he in
theorem feed_onScreen (hp : PromptShows prompt p) (hw : VisibleNames w.places) {g : Got}
    (hs : e.OnScreen p s) (ht : e.Tidy w g) (hf : e.feed true w.helpers (e.readOf g) =
      .reading e') : e'.OnScreen p (s.feed (e.feedOut true w prompt g)) := by
  cases g with
  | eof =>
    rw [readOf, feed, show e.search = none from ht] at hf
    cases hf
  | err =>
    rw [readOf, show e.search = none from ht] at hf
    obtain rfl := LineRead.reading.inj hf
    exact hs
  | byte b =>
    rw [readOf, feed] at hf
    rw [OnScreen] at hs
    rw [feedOut]
    cases hsearch : e.search with
    | some a =>
      rw [hsearch] at hf hs
      obtain rfl := LineRead.reading.inj hf
      exact searchByte_onScreen h hp (h.query a hsearch) hs.1 b
    | none =>
      rw [hsearch] at hf hs
      dsimp only at hf hs ⊢
      subst hs
      cases hseq : e.seq with
      | esc =>
        rw [hseq] at hf
        obtain rfl := LineRead.reading.inj hf
        exact escByte_onScreen h hsearch b
      | csi param =>
        rw [hseq] at hf
        obtain rfl := LineRead.reading.inj hf
        exact csiByte_onScreen h hsearch param b
      | normal =>
        rw [hseq] at hf
        dsimp only at hf ⊢
        rw [normalByte_eq] at hf
        rw [normalOut]
        split at hf
        · cases hf
        split at hf
        · cases hf
        split at hf
        · cases hf
        · rename_i hEot hline hcancel
          obtain rfl := LineRead.reading.inj hf
          rw [if_neg hEot, if_neg hline, if_neg hcancel]
          exact key_onScreen h hsearch hp hw hseq ht

omit h he in
theorem onRow_head (hhead : p.head? = some slash) (l : Line) : (l.onRow p).cell 0 = slash := by
  obtain ⟨xs, rfl⟩ := List.head?_eq_some_iff.mp hhead
  rfl

omit he in
theorem untidy_offScreen (prompt : Bytes) (hhead : p.head? = some slash)
    (hw : VisibleNames w.places) {g : Got} (hs : e.OnScreen p s) (ht : ¬e.Tidy w g) :
    ∃ e', e.feed true w.helpers (e.readOf g) = .reading e' ∧ e'.search = none ∧
    s.feed (e.feedOut true w prompt g) ≠ e'.line.onRow p := by
  have hleft : ¬e.search = none → s ≠ e.line.onRow p := by
    intro hsome heq
    rw [OnScreen] at hs
    cases hsearch : e.search with
    | none => exact hsome hsearch
    | some a =>
      rw [hsearch] at hs
      have hcell := hs.2
      rw [heq, onRow_head hhead] at hcell
      exact absurd hcell (by decide)
  cases g with
  | eof =>
    obtain ⟨a, ha⟩ := Option.ne_none_iff_exists'.mp ht
    refine ⟨{ e with search := none }, ?_, rfl, hleft ht⟩
    rw [readOf, feed, ha]
  | err =>
    obtain ⟨a, ha⟩ := Option.ne_none_iff_exists'.mp ht
    refine ⟨{ e with search := none }, ?_, rfl, hleft ht⟩
    rw [readOf, ha, Option.isSome_some, if_pos rfl, feed, ha]
  | byte b =>
    simp only [Tidy, Classical.not_imp, not_or] at ht
    obtain ⟨rfl, hsearch, hseq, hcur, hfew⟩ := ht
    refine ⟨e.key true w.helpers 0x09, ?_, hsearch, ?_⟩
    · rw [readOf, feed, hsearch, hseq]
      rfl
    · rw [OnScreen, hsearch] at hs
      have hout :
          e.feedOut true w prompt (.byte 0x09) = Complete.completeOut w.places prompt
            e.line.text := by
        rw [feedOut, hsearch, hseq]
        rfl
      have hpre := (Complete.prefix_complete w.places e.line.text).length_le
      have hcol := Complete.complete_col (p := p) hw h.line prompt hfew
      have hle := e.line.cur_le
      rw [hout, hs]
      intro heq
      rw [heq] at hcol
      change p.length + (Complete.complete w.places e.line.text).length = _ at hcol
      omega

end Step

section Run

variable {gs : List (Services × Got)} {g : Got} {a : LineRead}

theorem steps_snoc (ha : (steps true prompt a gs).1 = .reading e) :
    steps true prompt a (gs ++ [(w, g)]) = (e.feed true w.helpers (e.readOf g),
      (steps true prompt a gs).2 ++ e.feedOut true w prompt g) := by
  rw [steps_append, ha, steps]
  cases e.feed true w.helpers (e.readOf g) with
  | reading | entered | eof => rw [steps, List.append_nil]

theorem steps_reading_snoc (ha : (steps true prompt a (gs ++ [(w, g)])).1 = .reading e') :
    ∃ e, (steps true prompt a gs).1 = .reading e ∧ e.feed true w.helpers (e.readOf g) =
      .reading e' := by
  cases hstart : (steps true prompt a gs).1 with
  | reading e =>
    rw [steps_snoc hstart] at ha
    exact ⟨e, rfl, ha⟩
  | entered | eof =>
    rw [steps_append, hstart] at ha
    cases ha

def TidyRun (prompt : Bytes) (a : LineRead) (gs : List (Services × Got)) : Prop :=
  ∀ gs' w g e, gs' ++ [(w, g)] <+: gs →
  (steps true prompt a gs').1 = .reading e → e.Tidy w g

def ShownRun (prompt p : Bytes) (s : Term) (a : LineRead) (gs : List (Services × Got)) : Prop :=
  ∀ gs' e, gs' <+: gs →
  (steps true prompt a gs').1 = .reading e → e.search = none → s.feed (steps true prompt a gs').2 =
    e.line.onRow p

variable (hp : PromptShows prompt p) (hv : e.Visibly) (hw : ∀ wg ∈ gs, VisibleNames wg.1.places)
    (hs : e.OnScreen p s)
include hp hv hw hs

theorem steps_onScreen (ht : TidyRun prompt (.reading e) gs)
    (hrun : (steps true prompt (.reading e) gs).1 = .reading e') :
    e'.OnScreen p (s.feed (steps true prompt (.reading e) gs).2) := by
  induction gs using List.reverseRecOn generalizing e' with
  | nil =>
    obtain rfl := LineRead.reading.inj hrun
    exact hs
  | append_singleton gs wg ih =>
    obtain ⟨w, g⟩ := wg
    rw [List.forall_mem_append, List.forall_mem_singleton] at hw
    obtain ⟨e₁, hfirst, hlast⟩ := steps_reading_snoc hrun
    have hv₁ := steps_visibly true prompt (s := .reading e) hv hw.1
    rw [hfirst] at hv₁
    have hs₁ :=
      ih hw.1 (fun gs' w' g' e' hpre => ht gs' w' g' e' (hpre.trans (List.prefix_append _ _)))
        hfirst
    rw [steps_snoc hfirst, feed_append]
    exact feed_onScreen hv₁ hp hw.2 hs₁ (ht gs w g e₁ (List.prefix_refl _) hfirst) hlast

theorem shown_iff_tidy (hhead : p.head? = some slash) :
    ShownRun prompt p s (.reading e) gs ↔ TidyRun prompt (.reading e) gs := by
  constructor
  · intro hshown
    induction gs using List.reverseRecOn with
    | nil =>
      intro gs' w g e' hpre
      exact absurd (List.prefix_nil.mp hpre)
        (List.append_ne_nil_of_right_ne_nil _ (List.cons_ne_nil _ _))
    | append_singleton gs wg ih =>
      rw [List.forall_mem_append, List.forall_mem_singleton] at hw
      have hfirst : TidyRun prompt (.reading e) gs :=
        ih hw.1 fun gs' e' hpre => hshown gs' e' (hpre.trans (List.prefix_append _ _))
      intro gs' w g e₁ hpre hrun
      rcases List.prefix_concat_iff.mp hpre with hall | hpre
      · obtain ⟨rfl, hwg⟩ := List.append_inj' hall rfl
        obtain rfl := List.singleton_injective hwg
        by_contra hno
        have hv₁ := steps_visibly true prompt (s := .reading e) hv hw.1
        rw [hrun] at hv₁
        obtain ⟨e', hlast, hsearch, hoff⟩ :=
          untidy_offScreen hv₁ prompt hhead hw.2 (steps_onScreen hp hv hw.1 hs hfirst hrun) hno
        have hend := steps_snoc (w := w) (g := g) hrun
        have hshow :=
          hshown _ e' (List.prefix_refl _) ((congrArg Prod.fst hend).trans hlast) hsearch
        rw [hend, feed_append] at hshow
        exact hoff hshow
      · exact hfirst gs' w g e₁ hpre hrun
  · intro ht gs' e' hpre hrun hsearch
    have hon := steps_onScreen hp hv (fun wg hwg => hw wg (hpre.subset hwg)) hs
      (fun gs'' w g e'' hpre' => ht gs'' w g e'' (hpre'.trans hpre)) hrun
    rw [OnScreen, hsearch] at hon
    exact hon

end Run

end Editor

namespace ReadLine

/-- A Tab is at the end of the line or lists names, and within a search there is a byte to read. -/
def Tidy (w : Services) (r : ReadLine) : Got → Prop
  | .byte b => b = 0x09 → r.search = none → r.seq = .normal →
      r.cells.cur = r.cells.n ∨ 2 ≤ (Complete.cands w.places r.text).length
  | _ => r.search = none

variable {w : Services} {r : ReadLine} {e : Editor}

theorem search_none_iff (h : Reps r e) : r.search = none ↔ e.search = none := by
  refine ⟨fun hr => ?_, search_none h⟩
  have hs := h.search
  rw [hr] at hs
  cases he : e.search with
  | none => rfl
  | some a =>
    rw [he] at hs
    exact hs.elim

theorem seq_normal_iff (h : Reps r e) : r.seq = .normal ↔ e.seq = .normal := by
  rcases seqHolds_cases h with ⟨hr, he⟩ | ⟨hr, he⟩ | ⟨buf, len, param, hr, he, -⟩
  · rw [hr, he]
    exact ⟨fun _ => rfl, fun _ => rfl⟩
  · rw [hr, he]
    exact ⟨nofun, nofun⟩
  · rw [hr, he]
    exact ⟨nofun, nofun⟩

theorem tidy_reps (h : Reps r e) (g : Got) : r.Tidy w g ↔ e.Tidy w g := by
  cases g with
  | eof | err => exact search_none_iff h
  | byte b =>
    rw [Tidy, Editor.Tidy, search_none_iff h, seq_normal_iff h, text_reps h, h.cells.cur_eq,
      h.cells.n_eq]

end ReadLine

/-- The directory that the prompt names. -/
structure PromptDir where
  path : Bytes
  absolute : path.head? = some slash
  seen : Visible path

namespace PromptDir

variable (d : PromptDir) (lastStatus : UInt8) (line : Bytes) (hist : HistRing)
    (gs : List (Services × Got))

def screen (out : Bytes) : Term := (showing [] 0).feed (formatPrompt d.path lastStatus ++ out)

def lineRow (r : ReadLine) : Term :=
  showing (promptText d.path ++ r.text) ((promptText d.path).length + r.cells.cur)

def Reads (r : ReadLine) (out : Bytes) : Prop :=
  ReadLine.steps true (formatPrompt d.path lastStatus) (.reading (.start line hist)) gs =
    some (.reading r, out)

/-- After every key the screen shows the line that is edited. -/
def Shows : Prop :=
  ∀ gs' r out, gs' <+: gs → d.Reads lastStatus line hist gs' r out → r.search = none →
  d.screen lastStatus out = d.lineRow r

/-- Every Tab is at the end of the line or lists names, and no search meets the end of the input. -/
def Tidy : Prop :=
  ∀ gs' w g r out, gs' ++ [(w, g)] <+: gs → d.Reads lastStatus line hist gs' r out → r.Tidy w g

variable {d lastStatus line hist gs}

theorem promptText_head (d : PromptDir) : (promptText d.path).head? = some slash := by
  obtain ⟨xs, hxs⟩ := List.head?_eq_some_iff.mp d.absolute
  rw [promptText, promptDir, hxs, Nat.min_comm, ← List.take_eq_take_min]
  rfl

variable (hline : line.length = lineCap)
include hline

theorem tidy_run : d.Tidy lastStatus line hist gs ↔
    Editor.TidyRun (formatPrompt d.path lastStatus) (.reading (.start hist.abs)) gs := by
  constructor
  · intro h gs' w g e hpre he
    obtain ⟨r, hrun, hr⟩ := ReadLine.reading_steps (start_reps hline hist) he
    exact (ReadLine.tidy_reps hr g).mp (h gs' w g r _ hpre hrun)
  · intro h gs' w g r out hpre hrun
    obtain ⟨e, he, hr⟩ := ReadLine.steps_reading (start_reps hline hist) hrun
    exact (ReadLine.tidy_reps hr g).mpr (h gs' w g e hpre (congrArg Prod.fst he))

theorem shows_run :
    d.Shows lastStatus line hist gs ↔
      Editor.ShownRun (formatPrompt d.path lastStatus) (promptText d.path)
        (row (promptText d.path) [] 0) (.reading (.start hist.abs)) gs := by
  have hscreen : ∀ out, d.screen lastStatus out = (row (promptText d.path) [] 0).feed out :=
    fun out => by
    rw [screen, feed_append, formatPrompt_shows d.seen lastStatus]
  have hrow : ∀ {r : ReadLine} {e : Editor}, Reps r e →
      d.lineRow r = e.line.onRow (promptText d.path) := fun hr => by
    rw [lineRow, ReadLine.text_reps hr, hr.cells.cur_eq]
    rfl
  constructor
  · intro h gs' e hpre he hsearch
    obtain ⟨r, hrun, hr⟩ := ReadLine.reading_steps (start_reps hline hist) he
    rw [← hscreen, ← hrow hr]
    exact h gs' r _ hpre hrun ((ReadLine.search_none_iff hr).mpr hsearch)
  · intro h gs' r out hpre hrun hsearch
    obtain ⟨e, he, hr⟩ := ReadLine.steps_reading (start_reps hline hist) hrun
    have hshow := h gs' e hpre (congrArg Prod.fst he) ((ReadLine.search_none_iff hr).mp hsearch)
    rw [he] at hshow
    rw [hscreen, hrow hr]
    exact hshow

end PromptDir

/-- The calls of a session in which all names are visible. -/
def NamesVisible (_ : HistRing) (c : LineCall) : Prop := ∀ wg ∈ c.reads, VisibleNames wg.1.places

section Sessions

variable {hist : HistRing}

theorem session_visibly (h : Session NamesVisible hist) : hist.abs.Visibly := by
  induction h with
  | new =>
    rw [HistRing.abs_new]
    exact History.visibly_new
  | clear => exact ⟨nofun, nofun⟩
  | @call hist _ c _ _ _ _ hnames hrun ih =>
    obtain ⟨text, hend⟩ := entered_reps hrun
    have hstart : (LineRead.reading (.start hist.abs)).Visibly := ⟨nofun, ih, nofun⟩
    have hv := Editor.steps_visibly c.fancy c.prompt hstart hnames
    rw [hend] at hv
    exact hv

variable {d : PromptDir} {lastStatus : UInt8} {line : Bytes} {gs : List (Services × Got)}

theorem shown_iff_tidy (hv : hist.abs.Visibly) (hw : ∀ wg ∈ gs, VisibleNames wg.1.places) :
    Editor.ShownRun (formatPrompt d.path lastStatus) (promptText d.path)
      (row (promptText d.path) [] 0) (.reading (.start hist.abs)) gs ↔
      Editor.TidyRun (formatPrompt d.path lastStatus) (.reading (.start hist.abs)) gs :=
  Editor.shown_iff_tidy (formatPrompt_shows d.seen lastStatus) ⟨nofun, hv, nofun⟩ hw rfl
    d.promptText_head

/-- In every session the screen shows the line after each key exactly when every Tab within the line
lists names and no search is left by the end of the input. -/
theorem screen_shows_iff (d : PromptDir) (lastStatus : UInt8) (line : Bytes) (hist : HistRing)
    (gs : List (Services × Got)) (hhist : Session NamesVisible hist) (hline : line.length = lineCap)
    (hnames : ∀ wg ∈ gs, VisibleNames wg.1.places) : d.Shows lastStatus line hist gs ↔
    d.Tidy lastStatus line hist gs :=
  (PromptDir.shows_run hline).trans ((shown_iff_tidy (session_visibly hhist) hnames).trans
    (PromptDir.tidy_run hline).symm)

def rootDir : PromptDir := ⟨[slash], rfl, by decide⟩

theorem visibleNames_idle : VisibleNames idle.places := ⟨nofun, fun _ => nofun⟩

theorem screen_shows_left :
    rootDir.Shows 0 (List.replicate lineCap 0) .new (bytesOf idle [0x61, 0x62, 0x1B, 0x5B, 0x44]) ↔
      rootDir.Tidy 0 (List.replicate lineCap 0) .new (bytesOf idle [0x61, 0x62, 0x1B,
        0x5B, 0x44]) :=
  screen_shows_iff rootDir 0 _ .new _ .new List.length_replicate fun wg hwg => by
    obtain ⟨b, -, rfl⟩ := List.mem_map.mp hwg
    exact visibleNames_idle

/-- And then Tab, with no name that goes on from `ab`: the cursor stays before `b`. -/
theorem screen_misses_tab : ¬∀ (d : PromptDir) (lastStatus : UInt8) (line : Bytes) (hist : HistRing)
    (gs : List (Services × Got)), Session NamesVisible hist → line.length = lineCap →
    (∀ wg ∈ gs, VisibleNames wg.1.places) → d.Shows lastStatus line hist gs := by
  intro hall
  have hnames : ∀ wg ∈ bytesOf idle [0x61, 0x62, 0x1B, 0x5B, 0x44, 0x09],
      VisibleNames wg.1.places := fun wg hwg => by
    obtain ⟨b, -, rfl⟩ := List.mem_map.mp hwg
    exact visibleNames_idle
  have hline : (List.replicate lineCap (0 : UInt8)).length = lineCap := List.length_replicate
  have hshows := hall rootDir 0 _ .new _ .new hline hnames
  rw [PromptDir.shows_run hline, shown_iff_tidy (session_visibly .new) hnames] at hshows
  have hlast :=
    hshows (bytesOf idle [0x61, 0x62, 0x1B, 0x5B, 0x44]) idle (.byte 0x09) ⟨lineAb.moveLeft,
      .normal, .new, none⟩ (List.prefix_refl _) (by rw [HistRing.abs_new]; rfl)
  have htab := hlast rfl rfl rfl
  revert htab
  decide

end Sessions

end CoeleoOs.Sh
