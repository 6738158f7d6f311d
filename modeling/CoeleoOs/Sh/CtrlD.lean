import CoeleoOs.Sh.Line

/-!
# Ctrl+D in the shell

The line editor over the keyboard ring of the kernel. The kernel gives byte 4 as the end of the
input, so the editor never sees it.
-/

namespace CoeleoOs.Sh
open CoeleoOs.Input CoeleoOs.Lib.Machine
open CoeleoOs.Task (Bytes)
open CoeleoOs.Ui (Key)

inductive Prompt
  | reading (fancy : Bool) (e : Editor)
  | running (hist : History)
  | exited

structure Terminal where
  ring : KeyRing
  shell : Prompt

inductive TermAct
  | press (key : Key) (a : Answers) (killed : Bool)
  | poll (help : Helpers)
  | prompt (fancy : Bool) (hist : History) (ring : KeyRing)

namespace Prompt

def ofRead (fancy : Bool) : LineRead → Prompt
  | .reading e => .reading fancy e
  | .entered _ hist => .running hist
  | .eof _ => .exited

end Prompt

namespace Terminal

def boot : Terminal := ⟨.empty, .running .new⟩

def step (s : Terminal) : TermAct → Option Terminal
  | .press key a killed => some { s with ring := s.ring.press a killed key }
  | .poll help =>
    match s.shell with
    | .reading fancy e =>
      let r := readStdin 1 s.ring
      some ⟨r.2, .ofRead fancy (e.feed fancy help r.1)⟩
    | _ => none
  | .prompt fancy hist ring =>
    match s.shell with
    | .running _ => some ⟨ring, .reading fancy (.start hist)⟩
    | _ => none

def ctrlDReader (t : Trans Terminal TermAct) : Option Editor :=
  match t.act, t.pre.shell with
  | .poll _, .reading _ e => if t.pre.ring.contents.head? = some 4 then some e else none
  | _, _ => none

/-- The line is still edited, at most without the byte under the cursor. -/
def Kept (e : Editor) (shell : Prompt) : Prop :=
  ∃ fancy e', shell = .reading fancy e' ∧ (e'.line = e.line ∨ e'.line = e.line.forwardDelete)

/-- Ctrl+D ends the input on an empty line and never otherwise. -/
def EndsOnlyEmpty (t : Trans Terminal TermAct) : Prop :=
  ∀ e, ctrlDReader t = some e → if e.line.text = [] then t.post.shell = .exited
    else Kept e t.post.shell

def EmptyOrSearch (t : Trans Terminal TermAct) : Prop :=
  ∀ e, ctrlDReader t = some e → (e.line.text = [] ↔ e.search = none)

variable {s : Terminal} {ts : List (Trans Terminal TermAct)} {fancy : Bool} {e : Editor}

theorem readStdin_ne_four (len : ℕ) (r : KeyRing) : (readStdin len r).1 ≠ .data 4 := by
  rw [readStdin]
  split
  · dsimp only
    split
    · exact nofun
    · rename_i h
      rintro ⟨⟩
      exact h rfl
  · dsimp only
    split <;> exact nofun

theorem readStdin_eof {r : KeyRing} (h : r.contents.head? = some 4) : (readStdin 1 r).1 = .eof := by
  rw [readStdin, popFor, if_neg Nat.one_ne_zero]
  cases hpop : r.popByte with
  | none =>
    rw [r.popByte_none.mp hpop] at h
    cases h
  | some q =>
    obtain ⟨b, r'⟩ := q
    rw [r.popByte_some hpop] at h
    exact if_pos (Option.some.inj h)

theorem ctrlDReader_some {t : Trans Terminal TermAct} (h : ctrlDReader t = some e) :
    (∃ help, t.act = .poll help) ∧ (∃ fancy, t.pre.shell = .reading fancy e) ∧
    t.pre.ring.contents.head? = some 4 := by
  unfold ctrlDReader at h
  split at h
  · rename_i help fancy e' hact hshell
    split at h
    · rename_i hhead
      obtain rfl := Option.some.inj h
      exact ⟨⟨help, hact⟩, ⟨fancy, hshell⟩, hhead⟩
    · cases h
  · cases h

theorem ctrlD_shell {t : Trans Terminal TermAct} (hstep : step t.pre t.act = some t.post)
    (h : ctrlDReader t = some e) : if e.search = none then t.post.shell = .exited
    else ∃ fancy, t.post.shell = .reading fancy { e with search := none } := by
  obtain ⟨⟨help, hact⟩, ⟨fancy, hshell⟩, hhead⟩ := ctrlDReader_some h
  rw [hact, step, hshell] at hstep
  rw [← Option.some.inj hstep, readStdin_eof hhead]
  cases hs : e.search with
  | none => simp [Editor.feed, hs, Prompt.ofRead]
  | some q => simp [Editor.feed, hs, Prompt.ofRead]

theorem step_ctrlD {t : Trans Terminal TermAct} (hstep : step t.pre t.act = some t.post) :
    EndsOnlyEmpty t ↔ EmptyOrSearch t := by
  refine forall₂_congr fun e h => ?_
  have hshell := ctrlD_shell hstep h
  by_cases hs : e.search = none
  · rw [if_pos hs] at hshell
    by_cases hline : e.line.text = []
    · rw [if_pos hline]
      exact iff_of_true hshell (iff_of_true hline hs)
    · rw [if_neg hline, hshell]
      refine iff_of_false ?_ fun hiff => hline (hiff.mpr hs)
      rintro ⟨fancy, e', hexit, -⟩
      cases hexit
  · rw [if_neg hs] at hshell
    obtain ⟨fancy, hshell⟩ := hshell
    by_cases hline : e.line.text = []
    · rw [if_pos hline, hshell]
      exact iff_of_false nofun fun hiff => hs (hiff.mp hline)
    · rw [if_neg hline]
      exact iff_of_true ⟨fancy, _, hshell, .inl rfl⟩ (iff_of_false hline hs)

theorem ctrlD_iff (h : Path step boot ts s) :
    (∀ t ∈ ts, EndsOnlyEmpty t) ↔ ∀ t ∈ ts, EmptyOrSearch t :=
  forall₂_congr fun t ht => step_ctrlD (h.step_of_mem t ht)

instance : DecidablePred EmptyOrSearch := fun t =>
  decidable_of_iff (∀ e ∈ ctrlDReader t, (e.line.text = [] ↔ e.search.isNone = true))
    (by simp [EmptyOrSearch])

def isExited : Prompt → Bool
  | .exited => true
  | _ => false

theorem eq_exited {p : Prompt} (h : isExited p = true) : p = .exited := by
  cases p with
  | exited => rfl
  | reading | running => cases h

def noHelp : Helpers := ⟨none, id⟩
def ctrlD : TermAct := .press (.char 4) atTerminal false

theorem ctrlD_empty_line :
    ∃ ts s, Path step boot ts s ∧ s.shell = .exited ∧ ∀ t ∈ ts, EndsOnlyEmpty t := by
  obtain ⟨⟨ts, s⟩, hpath, hrun⟩ := exists_path_of_replay step boot
    [.prompt true .new .empty, ctrlD, .poll noHelp]
    (fun r => isExited r.2.shell && r.1.all fun t => decide (EmptyOrSearch t)) (by decide)
  rw [Bool.and_eq_true, List.all_eq_true] at hrun
  exact ⟨ts, s, hpath, eq_exited hrun.1, (ctrlD_iff hpath).mpr fun t ht =>
    of_decide_eq_true (hrun.2 t ht)⟩

/-- With a letter on the line Ctrl+D ends the shell. -/
theorem ctrlD_discards_line : ∃ ts s, Path step boot ts s ∧ s.shell = .exited ∧
    ∃ t ∈ ts, (∃ e, ctrlDReader t = some e ∧ e.line.text = [0x61]) ∧ ¬ EndsOnlyEmpty t := by
  obtain ⟨⟨ts, s⟩, hpath, hrun⟩ := exists_path_of_replay step boot
    [.prompt true .new .empty, .press (.char 0x61) atTerminal false, ctrlD, .poll noHelp,
      .poll noHelp] (fun r => isExited r.2.shell && r.1.any fun t =>
      (ctrlDReader t).any fun (e : Editor) => decide (e.line.text = [0x61]) &&
        e.search.isNone) (by decide)
  rw [Bool.and_eq_true, List.any_eq_true] at hrun
  obtain ⟨hexit, t, ht, hreader⟩ := hrun
  obtain ⟨e, he, hline⟩ := (Option.any_eq_true _ _).mp hreader
  rw [Bool.and_eq_true, decide_eq_true_eq, Option.isNone_iff_eq_none] at hline
  refine ⟨ts, s, hpath, eq_exited hexit, t, ht, ⟨e, he, hline.1⟩, fun hends => ?_⟩
  have hiff := (step_ctrlD (hpath.step_of_mem t ht)).mp hends e he
  rw [hiff.mpr hline.2] at hline
  cases hline.1

end Terminal

end CoeleoOs.Sh
