import CoeleoOs.Edit.Program

/-!
# Keys read by edit

The kernel queues the bytes of the keys and edit reads them one by one. Edit should see the keys
one by one.
-/

namespace CoeleoOs.Edit
open CoeleoOs.Input CoeleoOs.Lib.Machine
open CoeleoOs.Task (Bytes)
open CoeleoOs.Ui (Key)

def readBack (bs : Bytes) : List StdinRead := bs.map fun b => if b = 4 then .eof else .data b

def effect (ed : State) (key : Key) : State :=
  match encode key with
  | [b] => if ed.mode = .exited then ed else ed.handle b
  | _ => ed

structure Session where
  ring : KeyRing
  ed : State
  sent : List Key

inductive Act
  | press (key : Key) (a : Answers) (killed : Bool)
  | poll

namespace Session

def start (ed : State) : Session := ⟨.empty, ed, []⟩

def press (s : Session) (key : Key) (a : Answers) (killed : Bool) : Session :=
  { s with
    ring := s.ring.press a killed key
    sent := if dispatch a key = [] then s.sent else s.sent ++ [key] }

def poll (s : Session) : Session :=
  let r := readStdin 1 s.ring
  { s with
    ring := r.2
    ed := s.ed.feed r.1 }

def step (s : Session) : Act → Option Session
  | .press key a killed =>
    if (dispatch a key).length ≤ s.ring.room ∧ 3 ∉ dispatch a key ∧ 4 ∉ dispatch a key
      then some (s.press key a killed)
    else none
  | .poll => if s.ed.mode = .exited then none else some s.poll

def Decoded (ed₀ : State) (s : Session) : Prop :=
  (readBack s.ring.contents).foldl State.feed s.ed = s.sent.foldl effect ed₀

def quit : Key := .char 0x11

def NoDelete (t : Trans Session Act) : Prop :=
  match t.act with
  | .press key a _ => dispatch a key = encode (.files .delete) → quit ∈ t.pre.sent
  | .poll => True

end Session

section Effects

variable {ed : State} {key : Key}

theorem effect_exited (h : ed.mode = .exited) (key : Key) : effect ed key = ed := by
  unfold effect
  split
  · exact if_pos h
  · rfl

theorem effect_byte {b : UInt8} (hkey : encode key = [b]) (hmode : ed.mode = .key) :
    effect ed key = ed.handle b := by
  rw [effect, hkey]
  exact if_neg (by rw [hmode]; decide)

theorem effect_sequence (hkey : (encode key).length ≠ 1) : effect ed key = ed := by
  unfold effect
  split
  · rename_i b hb
    exact absurd (congrArg List.length hb) hkey
  · rfl

theorem effect_mode (key : Key) (h : ed.mode = .key) :
    (effect ed key).mode = if encode key = [0x11] then .exited else .key := by
  rcases encode_cases key with he | ⟨b, hb, he⟩ | ⟨c, -, he⟩ | he
  · rw [effect_sequence (by rw [he]; decide), he, h, if_neg (by decide)]
  · rw [effect_byte he h, he]
    by_cases hq : b = 0x11
    · rw [hq, State.handle_quit, if_pos rfl]
    · rw [State.handle_mode ed hq hb, h, if_neg fun heq => hq (List.singleton_inj.mp heq)]
  · rw [effect_sequence (by simp [he, csi]), he, h, if_neg (fun h => by cases h)]
  · rw [effect_sequence (by rw [he]; decide), he, h, if_neg (by decide)]

theorem encode_quit : encode key = [0x11] ↔ key = Session.quit := by
  constructor
  · intro h
    cases key with
    | tab | esc | altSpace | home | theEnd => exact absurd h (by decide)
    | files k => cases k <;> exact absurd h (by decide)
    | char b =>
      simp only [encode, dispatch, dispatchFiles, atTerminal] at h
      split at h
      · exact absurd h (by decide)
      split at h
      · exact absurd h (by decide)
      split at h
      · cases h
      · obtain rfl := List.singleton_inj.mp h
        rfl
  · rintro rfl
    decide

theorem foldl_effect_mode (keys : List Key) (h : ed.mode = .key) :
    (keys.foldl effect ed).mode = .key ∧ Session.quit ∉ keys ∨
      (keys.foldl effect ed).mode = .exited ∧ Session.quit ∈ keys := by
  induction keys using List.reverseRecOn with
  | nil => exact .inl ⟨h, List.not_mem_nil⟩
  | append_singleton keys key ih =>
    rw [List.foldl_append, List.foldl_cons, List.foldl_nil]
    rcases ih with ⟨hmode, hquit⟩ | ⟨hmode, hquit⟩
    · have hnext := effect_mode key hmode
      split at hnext
      · rename_i he
        exact .inr ⟨hnext, by simp [encode_quit.mp he]⟩
      · rename_i he
        refine .inl ⟨hnext, ?_⟩
        rw [List.mem_append, List.mem_singleton, not_or]
        exact ⟨hquit, fun heq => he (encode_quit.mpr heq.symm)⟩
    · rw [effect_exited hmode]
      exact .inr ⟨hmode, List.mem_append_left _ hquit⟩

end Effects

section Decode

variable {ed : State} {key : Key}

theorem feed_letter {c : UInt8} (hc : isAsciiAlphabetic c = true) (h : ed.mode = .key) :
    (readBack (csi c)).foldl State.feed ed = ed := by
  have h4 : c ≠ 4 := by
    rintro rfl
    exact absurd hc (by decide)
  obtain ⟨buf, saves, clips, mode⟩ := ed
  obtain rfl : mode = .key := h
  simp [readBack, csi, h4, State.feed, State.handle, hc]

theorem feed_key (h : ed.mode = .key) (h4 : 4 ∉ encode key)
    (hdel : encode key ≠ encode (.files .delete)) :
    (readBack (encode key)).foldl State.feed ed = effect ed key := by
  rcases encode_cases key with he | ⟨b, -, he⟩ | ⟨c, hc, he⟩ | he
  · rw [effect_sequence (by rw [he]; decide), he]
    rfl
  · have hb : b ≠ 4 := by
      rintro rfl
      exact h4 (he ▸ List.mem_singleton_self 4)
    rw [effect_byte he h, he]
    simp [readBack, hb, State.feed, h]
  · have hletters : ∀ c ∈ [0x41, 0x42, 0x43, 0x44, 0x46, 0x48], isAsciiAlphabetic c = true := by
      decide +kernel
    rw [effect_sequence (by simp [he, csi]), he, feed_letter (hletters c hc) h]
  · exact absurd he hdel

theorem feed_delete (h : ed.mode = .key) :
    (readBack (encode (.files .delete))).foldl State.feed ed = { ed with mode := .csi } := by
  obtain ⟨buf, saves, clips, mode⟩ := ed
  obtain rfl : mode = .key := h
  rfl

theorem readBack_append (a b : Bytes) : readBack (a ++ b) = readBack a ++ readBack b :=
  List.map_append

end Decode

namespace Session

variable {buf : Buf} {clips : List (Option Bytes)} {s : Session} {ts : List (Trans Session Act)}

theorem start_decoded (ed : State) : Decoded ed (start ed) := rfl

theorem poll_decoded {ed₀ : State} : Decoded ed₀ s.poll ↔ Decoded ed₀ s := by
  rw [Decoded, Decoded, poll, readStdin, popFor, if_neg Nat.one_ne_zero]
  cases hpop : s.ring.popByte with
  | none =>
    rw [s.ring.popByte_none.mp hpop]
    rfl
  | some r =>
    obtain ⟨b, ring⟩ := r
    rw [s.ring.popByte_some hpop]
    rfl

theorem contents_press {a : Answers} {killed : Bool} {key : Key}
    (hroom : (dispatch a key).length ≤ s.ring.room) (h3 : 3 ∉ dispatch a key) :
    (s.press key a killed).ring.contents = s.ring.contents ++ dispatch a key := by
  rw [press, Input.contents_press, if_neg fun h => h3 h.2, List.take_of_length_le hroom]

theorem press_decoded {a : Answers} {killed : Bool} {key : Key}
    (hroom : (dispatch a key).length ≤ s.ring.room) (h3 : 3 ∉ dispatch a key)
    (h4 : 4 ∉ dispatch a key) (h : Decoded (.start buf clips) s) :
    Decoded (.start buf clips) (s.press key a killed) ↔
      (dispatch a key = encode (.files .delete) → quit ∈ s.sent) := by
  rw [Decoded] at h
  rw [Decoded, contents_press hroom h3, readBack_append, List.foldl_append]
  have hed : (s.press key a killed).ed = s.ed := rfl
  rw [hed, h]
  rcases dispatch_encode a key with hnil | heq
  · have hsent : (s.press key a killed).sent = s.sent := if_pos hnil
    rw [hnil, hsent]
    exact iff_of_true rfl nofun
  by_cases hnone : encode key = []
  · have hsent : (s.press key a killed).sent = s.sent := if_pos (heq.trans hnone)
    rw [heq, hnone, hsent]
    exact iff_of_true rfl nofun
  have hsent : (s.press key a killed).sent = s.sent ++ [key] := if_neg (by rwa [heq])
  rw [heq] at h4
  rw [hsent, heq, List.foldl_append, List.foldl_cons, List.foldl_nil]
  have hstart : (State.start buf clips).mode = .key := rfl
  rcases foldl_effect_mode s.sent hstart with ⟨hmode, hquit⟩ | ⟨hmode, hquit⟩
  · by_cases hdel : encode key = encode (.files .delete)
    · rw [hdel, feed_delete hmode, effect_sequence (by rw [hdel]; decide)]
      refine iff_of_false (fun hstate => ?_) fun himp => hquit (himp rfl)
      have hcsi := congrArg State.mode hstate
      rw [hmode] at hcsi
      cases hcsi
    · exact iff_of_true (feed_key hmode h4 hdel) fun heq => absurd heq hdel
  · rw [effect_exited hmode]
    exact iff_of_true (State.foldl_exited hmode _) fun _ => hquit

theorem step_decoded {t : Trans Session Act} (hstep : step t.pre t.act = some t.post)
    (h : Decoded (.start buf clips) t.pre) : Decoded (.start buf clips) t.post ↔ NoDelete t := by
  obtain ⟨pre, act, post⟩ := t
  cases act with
  | press key a killed =>
    simp only [step] at hstep
    split at hstep
    · rename_i hguard
      obtain rfl := Option.some.inj hstep
      exact press_decoded hguard.1 hguard.2.1 hguard.2.2 h
    · cases hstep
  | poll =>
    simp only [step] at hstep
    split at hstep
    · cases hstep
    · obtain rfl := Option.some.inj hstep
      exact iff_of_true (poll_decoded.mpr h) trivial

theorem decoded_iff (h : Path step (start (.start buf clips)) ts s) :
    (∀ t ∈ ts, Decoded (.start buf clips) t.post) ↔ ∀ t ∈ ts, NoDelete t :=
  Path.forall_iff (start_decoded _) (fun _ ht hI => step_decoded ht hI)
    (fun _ ht hI hc => (step_decoded ht hI).mpr hc) h

def ctrlS : Key := .char 0x13

def typed (key : Key) : Act := .press key atTerminal false

instance : DecidablePred NoDelete := fun ⟨_, act, _⟩ =>
  match act with
  | .press key a _ =>
    if h : dispatch a key = encode (.files .delete) then
      decidable_of_iff (∃ k ∈ _, encode k = [0x11])
        ⟨fun ⟨_, hk, he⟩ _ => encode_quit.mp he ▸ hk, fun hq => ⟨quit, hq h, encode_quit.mpr rfl⟩⟩
    else isTrue fun heq => absurd heq h
  | .poll => isTrue trivial

theorem home_decoded : ∃ ts s, Path step (start (.start .empty [])) ts s ∧ s.ed.saves = [[0x61]] ∧
    ∀ t ∈ ts, Decoded (.start .empty []) t.post := by
  obtain ⟨⟨ts, s⟩, hpath, hrun⟩ := exists_path_of_replay step (start (.start .empty []))
    ([typed .home, typed (.char 0x61), typed ctrlS] ++ List.replicate 5 .poll)
    (fun r => decide (r.2.ed.saves = [[0x61]]) && r.1.all fun t => decide (NoDelete t)) (by decide)
  rw [Bool.and_eq_true, decide_eq_true_eq, List.all_eq_true] at hrun
  exact ⟨ts, s, hpath, hrun.1, (decoded_iff hpath).mpr fun t ht => of_decide_eq_true (hrun.2 t ht)⟩

/-- Delete swallows the Ctrl+S typed after it. -/
theorem delete_swallows : ∃ ts s, Path step (start (.start .empty [])) ts s ∧ s.ring.contents = [] ∧
    s.ed.saves = [] ∧ (s.sent.foldl effect (.start .empty [])).saves = [[]] ∧
    ¬ Decoded (.start .empty []) s := by
  obtain ⟨⟨ts, s⟩, hpath, hrun⟩ := exists_path_of_replay step (start (.start .empty []))
    ([typed (.files .delete), typed ctrlS] ++ List.replicate 5 .poll)
    (fun r => decide (r.2.ring.contents = []) && decide (r.2.ed.saves = []) &&
      decide ((r.2.sent.foldl effect (.start .empty [])).saves = [[]])) (by decide)
  simp only [Bool.and_eq_true, decide_eq_true_eq] at hrun
  refine ⟨ts, s, hpath, hrun.1.1, hrun.1.2, hrun.2, fun hdec => ?_⟩
  rw [Decoded, hrun.1.1] at hdec
  have hsaves := congrArg State.saves hdec
  rw [hrun.2] at hsaves
  exact absurd (hsaves.symm.trans hrun.1.2) nofun

end Session

end CoeleoOs.Edit
