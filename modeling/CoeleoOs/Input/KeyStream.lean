import CoeleoOs.Input.Kbd
import CoeleoOs.Lib.Machine

/-!
# The byte stream of the keyboard

Keys are pressed and stdin is read, in any order. What was read and what is still queued is the
stream that a reader of stdin sees.
-/

namespace CoeleoOs.Input
open CoeleoOs.Lib.Machine
open CoeleoOs.Task (Bytes queueCap)
open CoeleoOs.Ui (Key)

inductive StdinRead
  | data (b : UInt8)
  | eof
  | wait
  deriving DecidableEq

def popFor (len : ℕ) (r : KeyRing) : Option (UInt8 × KeyRing) := if len = 0 then none else r.popByte

def readStdin (len : ℕ) (r : KeyRing) : StdinRead × KeyRing :=
  match popFor len r with
  | some (b, r) => (if b = 4 then .eof else .data b, r)
  | none => (if len = 0 then .eof else .wait, r)

inductive Event
  | press (key : Key) (a : Answers) (killed : Bool)
  | read (len : ℕ)

structure Stream where
  ring : KeyRing
  taken : Bytes
  pressed : List Key

namespace Stream

def start : Stream := ⟨.empty, [], []⟩

def next (s : Stream) : Event → Stream
  | .press key a killed =>
    { s with
      ring := s.ring.press a killed key
      pressed := s.pressed ++ [key] }
  | .read len =>
    match popFor len s.ring with
    | some (b, ring) =>
      { s with
        ring := ring
        taken := s.taken ++ [b] }
    | none => s

def step (s : Stream) (e : Event) : Option Stream := some (s.next e)

def bytes (s : Stream) : Bytes := s.taken ++ s.ring.contents

/-- The stream is made of whole keys of those pressed, in order. -/
def WholeKeys (s : Stream) : Prop :=
  ∃ keys : List Key, keys.Sublist s.pressed ∧ s.bytes = keys.flatMap encode

/-- A key finds room for all its bytes, or for none. -/
def Fits (t : Trans Stream Event) : Prop :=
  match t.act with
  | .press key a _ => (dispatch a key).length ≤ t.pre.ring.room ∨ t.pre.ring.room = 0
  | .read _ => True

end Stream

section Modes

/-- Where in an escape sequence a stream of keys stands. -/
inductive Mode
  | ground
  | esc
  | csi
  | three
  deriving DecidableEq

def scan (m : Mode) (b : UInt8) : Mode :=
  match m with
  | .ground => if b = 0x1B then .esc else .ground
  | .esc => .csi
  | .csi => if b = 0x33 then .three else .ground
  | .three => .ground

theorem scan_encode (key : Key) : (encode key).foldl scan .ground = .ground := by
  rcases encode_cases key with h | ⟨b, hb, h⟩ | ⟨c, hc, h⟩ | h
  · rw [h]
    rfl
  · rw [h]
    exact if_neg hb
  · have hfinal : ∀ c ∈ [0x41, 0x42, 0x43, 0x44, 0x46, 0x48], (csi c).foldl scan .ground =
        .ground := by decide +kernel
    rw [h]
    exact hfinal c hc
  · rw [h]
    rfl

theorem scan_keys (keys : List Key) : (keys.flatMap encode).foldl scan .ground = .ground := by
  induction keys with
  | nil => rfl
  | cons key keys ih => rw [List.flatMap_cons, List.foldl_append, scan_encode, ih]

theorem scan_cut (key : Key) {n : ℕ} (hpos : 0 < n) (hlt : n < (encode key).length) :
    ((encode key).take n).foldl scan .ground ≠ .ground := by
  have hcut : ∀ bs : Bytes, (∃ c, bs = csi c) ∨ bs = [0x1B, 0x5B, 0x33, 0x7E] → n < bs.length →
      (bs.take n).foldl scan .ground ≠ .ground := by
    rintro bs (⟨c, rfl⟩ | rfl) hn
    · simp only [csi, List.length_cons, List.length_nil] at hn
      obtain rfl | rfl : n = 1 ∨ n = 2 := by omega
      · exact Mode.noConfusion
      · exact Mode.noConfusion
    · simp only [List.length_cons, List.length_nil] at hn
      obtain rfl | rfl | rfl : n = 1 ∨ n = 2 ∨ n = 3 := by omega
      · decide
      · decide
      · decide
  rcases encode_cases key with h | ⟨b, -, h⟩ | ⟨c, -, h⟩ | h
  · rw [h, List.length_nil] at hlt
    omega
  · rw [h, List.length_singleton] at hlt
    omega
  · exact hcut _ (.inl ⟨c, h⟩) hlt
  · exact hcut _ (.inr h) hlt

end Modes

section Queue

theorem foldl_enqueue (bs q : Bytes) (hq : q.length < queueCap) :
    bs.foldl Task.enqueue q = q ++ bs.take (queueCap - 1 - q.length) := by
  induction bs generalizing q with
  | nil => simp
  | cons b bs ih =>
    rw [List.foldl_cons]
    by_cases hroom : q.length + 1 < queueCap
    · have hlen : (q ++ [b]).length = q.length + 1 := by simp
      have hleft : queueCap - 1 - q.length = queueCap - 1 - (q.length + 1) + 1 := by omega
      rw [Task.enqueue, if_pos hroom, ih _ (by omega), hlen, hleft, List.take_succ_cons,
        List.append_assoc]
      rfl
    · have hnone : queueCap - 1 - q.length = 0 := by omega
      rw [Task.enqueue, if_neg hroom, ih _ hq, hnone, List.take_zero, List.take_zero]

theorem contents_foldl (bs : Bytes) (r : KeyRing) :
    (bs.foldl KeyRing.enqueue r).contents = bs.foldl Task.enqueue r.contents := by
  induction bs generalizing r with
  | nil => rfl
  | cons b bs ih => rw [List.foldl_cons, List.foldl_cons, ih, r.contents_enqueue]

theorem foldl_enqueueOrKill {killed : Bool} {bs : Bytes} (h : killed = true → 3 ∉ bs)
    (r : KeyRing) : bs.foldl (KeyRing.enqueueOrKill killed) r = bs.foldl KeyRing.enqueue r := by
  induction bs generalizing r with
  | nil => rfl
  | cons b bs ih =>
    have hb : ¬ (b = 3 ∧ killed = true) := by
      rintro ⟨rfl, hk⟩
      exact h hk List.mem_cons_self
    rw [List.foldl_cons, List.foldl_cons, KeyRing.enqueueOrKill, if_neg hb]
    exact ih (fun hk hmem => h hk (List.mem_cons_of_mem b hmem)) _

theorem mem_dispatch {a : Answers} {key : Key} (h : 3 ∈ dispatch a key) : dispatch a key = [3] := by
  rcases dispatch_encode a key with hnil | heq
  · rw [hnil] at h
    cases h
  · rw [heq] at h ⊢
    rcases encode_cases key with h' | ⟨b, -, h'⟩ | ⟨c, hc, h'⟩ | h'
    · rw [h'] at h
      cases h
    · rw [h', List.mem_singleton] at h
      rw [h', h]
    · have hfinal : ∀ c ∈ [0x41, 0x42, 0x43, 0x44, 0x46, 0x48], 3 ∉ csi c := by decide +kernel
      rw [h'] at h
      exact absurd h (hfinal c hc)
    · rw [h'] at h
      exact absurd h (by decide)

theorem contents_press (a : Answers) (killed : Bool) (r : KeyRing) (key : Key) :
    (r.press a killed key).contents =
      r.contents ++ if killed = true ∧ 3 ∈ dispatch a key then []
        else (dispatch a key).take r.room := by
  split
  · rename_i h
    have hkill : ∀ r, KeyRing.enqueueOrKill killed r 3 = r := fun r => if_pos ⟨rfl, h.1⟩
    rw [KeyRing.press, mem_dispatch h.2, List.foldl_cons, List.foldl_nil, hkill, List.append_nil]
  · rename_i h
    have hlt : r.contents.length < queueCap := by
      rw [r.contents_length]
      exact r.length_lt
    rw [KeyRing.press, foldl_enqueueOrKill fun hk hmem => h ⟨hk, hmem⟩, contents_foldl,
      foldl_enqueue _ _ hlt, r.contents_length, KeyRing.room]

end Queue

namespace Stream

variable {s : Stream} {ts : List (Trans Stream Event)}

theorem start_whole : WholeKeys start := ⟨[], List.nil_sublist _, rfl⟩

theorem bytes_read (s : Stream) (len : ℕ) : (s.next (.read len)).bytes = s.bytes := by
  rw [next]
  split
  · rename_i b ring h
    rw [popFor] at h
    split at h
    · cases h
    · rw [bytes, bytes, s.ring.popByte_some h, List.append_assoc]
      rfl
  · rfl

theorem pressed_read (s : Stream) (len : ℕ) : (s.next (.read len)).pressed = s.pressed := by
  rw [next]
  split <;> rfl

theorem press_whole {key : Key} {a : Answers} {killed : Bool} (h : WholeKeys s) :
    WholeKeys (s.next (.press key a killed)) ↔
      (dispatch a key).length ≤ s.ring.room ∨ s.ring.room = 0 := by
  obtain ⟨keys, hsub, hkeys⟩ := h
  have hbytes : (s.next (.press key a killed)).bytes =
      keys.flatMap encode ++ if killed = true ∧ 3 ∈ dispatch a key then []
        else (dispatch a key).take s.ring.room := by
    rw [bytes, next, contents_press, ← List.append_assoc, ← hkeys, bytes]
  have hsame : (s.next (.press key a killed)).bytes = keys.flatMap encode →
      WholeKeys (s.next (.press key a killed)) :=
    fun heq => ⟨keys, hsub.trans (List.sublist_append_left _ _), heq⟩
  split at hbytes
  · rename_i hkill
    rw [List.append_nil] at hbytes
    refine iff_of_true (hsame hbytes) ?_
    rw [mem_dispatch hkill.2, List.length_singleton]
    omega
  · rcases dispatch_encode a key with hnil | heq
    · rw [hnil, List.take_nil, List.append_nil] at hbytes
      refine iff_of_true (hsame hbytes) ?_
      rw [hnil]
      exact .inl (Nat.zero_le _)
    · rw [heq] at hbytes ⊢
      constructor
      · rintro ⟨keys', -, hkeys'⟩
        by_contra hcut
        rw [not_or, not_le] at hcut
        refine scan_cut key (Nat.pos_of_ne_zero hcut.2) hcut.1 ?_
        have hscan := scan_keys keys'
        rwa [← hkeys', hbytes, List.foldl_append, scan_keys] at hscan
      · rintro (hfits | hfull)
        · refine ⟨keys ++ [key], hsub.append (List.Sublist.refl _), ?_⟩
          rw [hbytes, List.take_of_length_le hfits, List.flatMap_append, List.flatMap_singleton]
        · rw [hfull, List.take_zero, List.append_nil] at hbytes
          exact hsame hbytes

theorem step_whole {t : Trans Stream Event} (hstep : step t.pre t.act = some t.post)
    (h : WholeKeys t.pre) : WholeKeys t.post ↔ Fits t := by
  obtain ⟨pre, act, post⟩ := t
  obtain rfl : post = pre.next act := (Option.some.inj hstep).symm
  cases act with
  | press key a killed => exact press_whole h
  | read len =>
    refine iff_of_true ?_ trivial
    obtain ⟨keys, hsub, hkeys⟩ := h
    exact ⟨keys, by rwa [pressed_read], by rwa [bytes_read]⟩

instance : DecidablePred Fits := fun ⟨pre, act, _⟩ =>
  match act with
  | .press key a _ =>
    inferInstanceAs (Decidable ((dispatch a key).length ≤ pre.ring.room ∨ pre.ring.room = 0))
  | .read _ => inferInstanceAs (Decidable True)

def letter : Event := .press (.char 0x61) atTerminal false
def arrow : Event := .press (.files .up) atTerminal false

end Stream

end CoeleoOs.Input
