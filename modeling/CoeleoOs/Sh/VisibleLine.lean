import CoeleoOs.Lib.TermRow
import CoeleoOs.Sh.ReadLineRefines

/-!
# Bytes that are seen

Where the names of files have no control bytes, neither has anything that the line editor holds: the
line, the history, the draft and the text of a search.
-/

namespace CoeleoOs.Sh
open CoeleoOs.Fs (slash dot)
open CoeleoOs.Lib CoeleoOs.Lib.TermRow
open CoeleoOs.Task (Bytes packDirent)

/-- Neither a builtin nor the name of a file has a control byte. -/
structure VisibleNames (w : Places) : Prop where
  builtins : ∀ b ∈ w.builtins, Visible b
  files : ∀ path, ∀ e ∈ (w.dirs path).getD [], Visible e.name

namespace Complete

variable {w : Places} {t x tok : Bytes} {tokAt : ℕ} (hw : VisibleNames w)
include hw

omit hw in
theorem visible_direntName {e : Task.DirEnt} (h : Visible e.name) :
    Visible (direntName (packDirent e)) := by
  have hname : Visible (((packDirent e).drop 1).takeWhile (· ≠ 0)) := by
    intro b hb
    have hne : b ≠ 0 := by simpa using List.mem_takeWhile_imp hb
    rcases List.mem_append.mp ((List.takeWhile_sublist _).subset hb) with hb | hb
    · exact h b (List.take_subset _ _ hb)
    · exact absurd (List.eq_of_mem_replicate hb) hne
  rw [direntName]
  split
  · exact hname
  · decide

theorem visible_dirItems {path pre pathPrefix : Bytes} (hpre : Visible pathPrefix)
    (h : x ∈ (dirItems w path pre pathPrefix).map Prod.snd) : Visible x := by
  simp only [dirItems, entItems, List.map_map, List.mem_map, List.mem_filter] at h
  obtain ⟨ent, ⟨hent, -⟩, rfl⟩ := h
  obtain ⟨e, he, rfl⟩ := hent
  have hslash : Visible (if direntIsDir (packDirent e) then [slash] else []) := by
    split
    · decide
    · decide
  exact (hpre.append (visible_direntName (hw.files path e he))).append hslash

theorem visible_items (htok : Visible tok) (h : x ∈ (items w tokAt tok).map Prod.snd) :
    Visible x := by
  have hdir : Visible (dirPart tok) := htok.sub fun b hb => by
    rw [← dirPart_filePart tok]
    exact List.mem_append_left _ hb
  have hnil : Visible [] := nofun
  have hbuiltin : ∀ pre, x ∈ (builtinItems pre w.builtins).map Prod.snd → Visible x := by
    intro pre hx
    simp only [builtinItems, List.map_map, List.mem_map, List.mem_filter] at hx
    obtain ⟨b, ⟨hb, -⟩, rfl⟩ := hx
    exact (hw.builtins b hb).take _
  rw [items] at h
  split at h
  · rw [List.map_append, List.map_append, List.mem_append, List.mem_append] at h
    rcases h with h | h | h
    · exact hbuiltin _ h
    · exact visible_dirItems hw hnil h
    · exact visible_dirItems hw hnil h
  split at h
  · rw [List.map_append, List.mem_append] at h
    rcases h with h | h
    · exact visible_dirItems hw hnil h
    · exact visible_dirItems hw hnil h
  · exact visible_dirItems hw hdir h

variable (ht : Visible t)
include ht

theorem visible_cands (h : x ∈ (cands w t).map Cand.text) : Visible x := by
  rw [cands] at h
  split at h
  · cases h
  · rw [collect_texts] at h
    rcases mem_foldl_tableAdd h with h | h
    · cases h
    · exact visible_items hw (ht.drop _) h

theorem visible_complete : Visible (complete w t) := by
  rw [complete, lineWith]
  split
  · exact ht
  · rename_i hne
    obtain ⟨x, hx⟩ := List.exists_mem_of_ne_nil _ hne
    have hpre : commonPrefix ((cands w t).map Cand.text) <+: x := commonPrefix_prefix hx
    have hcommon : Visible (commonPrefix ((cands w t).map Cand.text)) :=
      (visible_cands hw ht hx).sub hpre.subset
    rw [filled]
    split
    · exact (ht.take _).append hcommon
    · exact ht

end Complete

namespace History

structure Visibly (h : History) : Prop where
  lines : ∀ t ∈ h.lines, Visible t.1
  draft : Visible h.draft.1

variable {h : History} {l : Line}

theorem visibly_new : Visibly .new := ⟨nofun, nofun⟩

theorem Visibly.get (hv : Visibly h) (age : ℕ) : Visible (h.get age).1 := by
  rw [History.get]
  cases hget : h.lines.reverse[age]? with
  | none => decide
  | some t => exact hv.lines t (List.mem_reverse.mp (List.mem_of_getElem? hget))

theorem Visibly.getAt (hv : Visibly h) (idx : ℕ) : Visible (h.getAt idx).1 := by
  rw [History.getAt]
  cases hget : h.lines[idx]? with
  | none => decide
  | some t => exact hv.lines t (List.mem_of_getElem? hget)

theorem Visibly.unview (hv : Visibly h) : Visibly h.unview := ⟨hv.lines, hv.draft⟩

theorem Visibly.push (hv : Visibly h) {t : LineText} (ht : Visible t.1) : Visibly (h.push t) := by
  have htrim : Visible (trimBytes t.1) := by
    refine ht.sub fun b hb => ?_
    have hend := (List.dropWhile_suffix _).subset (List.mem_reverse.mp hb)
    exact (List.dropWhile_suffix _).subset (List.mem_reverse.mp hend)
  rw [History.push]
  split
  · exact hv.unview
  split
  · exact hv.unview
  · refine ⟨fun x hx => ?_, hv.draft⟩
    rcases List.mem_append.mp hx with hx | hx
    · split at hx
      · exact hv.lines x hx
      · exact hv.lines x (List.mem_of_mem_drop hx)
    · rw [List.mem_singleton.mp hx]
      exact htrim

theorem Visibly.up (hv : Visibly h) (hl : Visible l.text) :
    Visible (h.up l).1.text ∧ Visibly (h.up l).2 := by
  rw [History.up]
  split
  · exact ⟨hl, hv⟩
  split
  · exact ⟨hv.get 0, hv.lines, hl⟩
  split
  · exact ⟨hl, hv⟩
  · exact ⟨hv.get _, hv.lines, hv.draft⟩

theorem Visibly.down (hv : Visibly h) (hl : Visible l.text) :
    Visible (h.down l).1.text ∧ Visibly (h.down l).2 := by
  rw [History.down]
  split
  · exact ⟨hl, hv⟩
  · exact ⟨hv.draft, hv.unview⟩
  · exact ⟨hv.get _, hv.lines, hv.draft⟩

end History

namespace Line

variable {l : Line} {b : UInt8} {xs : Bytes} (hl : Visible l.text)
include hl

theorem visible_insert (hb : printable b) : Visible (l.insert b).text := by
  by_cases hroom : l.text.length < lineCap
  · rw [(Cells.insert_eq hroom).1]
    exact ((hl.take _).append (List.forall_mem_singleton.mpr hb)).append (hl.drop _)
  · rwa [Cells.insert_full hroom]

theorem visible_inserts (hx : ∀ b ∈ xs, printable b) : Visible (xs.foldl insert l).text := by
  induction xs generalizing l with
  | nil => exact hl
  | cons b xs ih =>
    rw [List.forall_mem_cons] at hx
    exact ih (visible_insert hl hx.1) hx.2

theorem visible_paste (clip : Bytes) : Visible (Editor.paste l clip).text :=
  visible_inserts hl fun _ hb => (List.mem_filter.mp hb).2

theorem visible_forwardDelete : Visible l.forwardDelete.text := (hl.take _).append (hl.drop _)

theorem visible_backspace : Visible l.backspace.text := by
  rw [backspace]
  split
  · exact hl
  · exact visible_forwardDelete (l := l.moveLeft) hl

theorem visible_transpose : Visible l.transpose.text := by
  rw [transpose]
  split
  · have hpair : Visible ((l.text.drop (l.cur - 2)).take 2).reverse :=
      ((hl.drop _).take _).sub (List.reverse_subset.mpr (List.Subset.refl _))
    exact ((hl.take _).append hpair).append (hl.drop _)
  · exact hl

theorem visible_killWord : Visible l.killWord.text := (hl.take _).append (hl.drop _)

end Line

namespace Editor

/-- Everything that the editor can bring to the screen. -/
structure Visibly (e : Editor) : Prop where
  line : Visible e.line.text
  hist : e.hist.Visibly
  query : ∀ s, e.search = some s → Visible s.query

end Editor

def LineRead.Visibly : LineRead → Prop
  | .reading e => e.Visibly
  | .entered _ hist => hist.Visibly
  | .eof hist => hist.Visibly

namespace Editor

variable {fancy : Bool} {w : Services} {e : Editor}

section Visible

theorem Visibly.ite {c : Prop} [Decidable c] {x y : Editor} (hx : c → x.Visibly)
    (hy : ¬c → y.Visibly) : (if c then x else y).Visibly := by
  split
  · exact hx ‹_›
  · exact hy ‹_›

variable (h : e.Visibly)
include h

theorem Visibly.withLine {l : Line} (hl : Visible l.text) :
    ({ e with line := l } : Editor).Visibly := ⟨hl, h.hist, h.query⟩

theorem Visibly.withSeq (seq : Seq) : ({ e with seq := seq } : Editor).Visibly :=
  ⟨h.line, h.hist, h.query⟩

theorem Visibly.withSearch {a : Option Search} (ha : ∀ s, a = some s → Visible s.query) :
    ({ e with search := a } : Editor).Visibly :=
  ⟨h.line, h.hist, ha⟩

theorem Visibly.onFancy {l : Line} (hl : Visible l.text) : (e.onFancy fancy l).Visibly := by
  cases fancy with
  | true => exact h.withLine hl
  | false => exact h

theorem Visibly.edit {l : Line} (hl : Visible l.text) :
    ({ e with line := l, hist := e.hist.unview } : Editor).Visibly :=
  ⟨hl, h.hist.unview, h.query⟩

theorem key_visibly (hw : VisibleNames w.places) (b : UInt8) :
    (e.key fancy w.helpers b).Visibly := by
  have hl := h.line
  have hnil : Visible [] := nofun
  rw [key]
  refine .ite (fun _ => h.withSeq _) fun _ => ?_
  refine .ite (fun _ => h.onFancy hl) fun _ => ?_
  refine .ite (fun _ => h.onFancy hl) fun _ => ?_
  refine .ite (fun _ => h.onFancy (Line.visible_forwardDelete hl)) fun _ => ?_
  refine .ite (fun _ => h.onFancy (hl.take _)) fun _ => ?_
  refine .ite (fun _ => h.onFancy (Line.visible_transpose hl)) fun _ => ?_
  refine .ite (fun _ => .ite (fun _ => h.withSearch ?_) fun _ => h) fun _ => ?_
  · rintro s ⟨⟩
    exact hnil
  refine .ite (fun _ => h.edit hnil) fun _ => ?_
  refine .ite (fun _ => h) fun _ => ?_
  refine .ite (fun _ => h.onFancy (hl.drop _)) fun _ => ?_
  refine .ite (fun _ => h.onFancy (Line.visible_paste hl _)) fun _ => ?_
  refine .ite (fun _ => h.onFancy (Line.visible_killWord hl)) fun _ => ?_
  refine .ite (fun _ => h.edit (Line.visible_backspace hl)) fun _ => ?_
  refine .ite (fun _ => .ite (fun _ => h.edit (Complete.visible_complete hw hl)) fun _ =>
    h) fun _ => ?_
  exact .ite (fun hroom => h.edit (Line.visible_insert hl hroom.1)) fun _ => h

theorem csiFinal_visibly (param : Bytes) (b : UInt8) : (e.csiFinal param b).Visibly := by
  have hl := h.line
  obtain ⟨hup, hhup⟩ := h.hist.up hl
  obtain ⟨hdown, hhdown⟩ := h.hist.down hl
  rw [csiFinal]
  refine .ite (fun _ => ⟨hup, hhup, h.query⟩) fun _ =>
    .ite (fun _ => ⟨hdown, hhdown, h.query⟩) fun _ => ?_
  refine .ite (fun _ => h.withLine hl) fun _ => .ite (fun _ => h.withLine hl) fun _ => ?_
  refine .ite (fun _ => h.withLine hl) fun _ => .ite (fun _ => h.withLine hl) fun _ => ?_
  refine .ite (fun _ => ?_) fun _ => h
  refine .ite (fun _ => h.withLine (Line.visible_forwardDelete hl)) fun _ => ?_
  exact .ite (fun _ => h.withLine hl) fun _ => .ite (fun _ => h.withLine hl) fun _ => h

theorem searchByte_visibly {a : Search} (ha : Visible a.query) (b : UInt8) :
    (e.searchByte a b).Visibly := by
  have hgo : ∀ {q : Bytes} (found : Option ℕ), Visible q →
      ({ e with search := some ⟨q, found⟩ } : Editor).Visibly :=
    fun found hq => h.withSearch fun s hs => by
      obtain rfl := Option.some.inj hs
      exact hq
  have hend : ∀ {l : Line}, Visible l.text →
      ({ e with line := l, search := none } : Editor).Visibly := fun hl => ⟨hl, h.hist, nofun⟩
  rw [searchByte]
  refine .ite (fun _ => ?_) fun _ => .ite (fun _ => ?_) fun _ =>
    .ite (fun _ => hend h.line) fun _ => .ite (fun _ => ?_) fun _ => ?_
  · cases a.found with
    | none => exact h
    | some i =>
      cases i with
      | zero => exact h
      | succ i => exact hgo _ ha
  · exact .ite (fun _ => h) fun _ => hgo _ (ha.sub (List.dropLast_subset _))
  · cases a.found with
    | none => exact hend h.line
    | some i => exact hend (h.hist.getAt i)
  · exact .ite (fun hroom => hgo _ (ha.append (List.forall_mem_singleton.mpr hroom.1))) fun _ => h

theorem escByte_visibly (b : UInt8) : (e.escByte fancy b).Visibly := by
  rw [escByte]
  refine .ite (fun _ => h.withSeq _) fun _ => .ite (fun _ => (h.onFancy ?_).withSeq _) fun _ =>
    .ite (fun _ => (h.onFancy ?_).withSeq _) fun _ => h.withSeq _
  · exact h.line
  · exact h.line

theorem csiByte_visibly (param : Bytes) (b : UInt8) : (e.csiByte fancy param b).Visibly := by
  rw [csiByte]
  refine .ite (fun _ => Visibly.withSeq ?_ _) fun _ => .ite (fun _ => h.withSeq _) fun _ =>
    h.withSeq _
  exact .ite (fun _ => csiFinal_visibly h param b) fun _ => h

theorem feed_visibly (fancy : Bool) (hw : VisibleNames w.places) (g : Got) :
    (e.feed fancy w.helpers (e.readOf g)).Visibly := by
  have hstop : ({ e with search := none } : Editor).Visibly := h.withSearch nofun
  cases g with
  | eof =>
    rw [readOf, feed]
    cases e.search with
    | none => exact h.hist
    | some a => exact hstop
  | err =>
    rw [readOf]
    cases hsearch : e.search with
    | none => exact h
    | some a =>
      rw [Option.isSome_some, if_pos rfl, feed, hsearch]
      exact hstop
  | byte b =>
    rw [readOf, feed]
    cases hsearch : e.search with
    | some a => exact searchByte_visibly h (h.query a hsearch) b
    | none =>
      dsimp only
      cases e.seq with
      | esc => exact escByte_visibly h b
      | csi param => exact csiByte_visibly h param b
      | normal =>
        dsimp only
        rw [normalByte_eq]
        split
        · exact h.hist
        split
        · cases fancy with
          | false => exact h.hist
          | true => exact h.hist.push h.line
        split
        · exact h.hist
        · exact key_visibly h hw b

end Visible

theorem steps_visibly (fancy : Bool) (prompt : Bytes) {s : LineRead} (h : s.Visibly)
    {gs : List (Services × Got)} (hw : ∀ wg ∈ gs, VisibleNames wg.1.places) :
    (steps fancy prompt s gs).1.Visibly := by
  induction gs generalizing s with
  | nil =>
    cases s with
    | reading | entered | eof => exact h
  | cons wg gs ih =>
    rw [List.forall_mem_cons] at hw
    cases s with
    | reading e => exact ih (feed_visibly h fancy hw.1 wg.2) hw.2
    | entered | eof => exact h

end Editor

end CoeleoOs.Sh
