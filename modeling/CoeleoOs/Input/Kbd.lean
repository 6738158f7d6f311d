import CoeleoOs.Lib.Ring
import CoeleoOs.Task.Sched.Spawn
import CoeleoOs.Ui.Keys

/-!
# The keyboard queue

Keys the compositor does not take are queued as bytes for stdin in a ring of 64 cells, of which
one stays empty. The ring is a queue of at most 63 bytes.
-/

namespace CoeleoOs.Input
open CoeleoOs.Lib
open CoeleoOs.Task (Bytes queueCap)
open CoeleoOs.Ui (Key FilesKey)

section Keys

structure Answers where
  tab : Bool
  files : FilesKey → Bool
  char : UInt8 → Bool

def csi (final : UInt8) : Bytes := [0x1B, 0x5B, final]

def filesBytes : FilesKey → Bytes
  | .up => csi 0x41
  | .down => csi 0x42
  | .left => csi 0x44
  | .right => csi 0x43
  | .enter => [0x0A]
  | .backspace => [0x08]
  | .delete => [0x1B, 0x5B, 0x33, 0x7E]

def dispatchFiles (a : Answers) (key : FilesKey) : Bytes :=
  if a.files key then [] else filesBytes key

def dispatch (a : Answers) : Key → Bytes
  | .altSpace => []
  | .tab => if a.tab then [] else [0x09]
  | .esc => []
  | .home => csi 0x48
  | .theEnd => csi 0x46
  | .files key => dispatchFiles a key
  | .char b =>
    if b = 0x0A ∨ b = 0x0D then dispatchFiles a .enter
    else if b = 0x08 then dispatchFiles a .backspace
    else if b = 0x1B then []
    else if a.char b then []
    else [b]

def atTerminal : Answers := ⟨false, fun _ => false, fun _ => false⟩

def encode (key : Key) : Bytes := dispatch atTerminal key

variable (a : Answers)

theorem dispatch_encode (key : Key) : dispatch a key = [] ∨ dispatch a key = encode key := by
  have hfiles : ∀ k, dispatchFiles a k = [] ∨ dispatchFiles a k = dispatchFiles atTerminal k := by
    intro k
    cases hk : a.files k with
    | true => exact .inl (by simp [dispatchFiles, hk])
    | false => exact .inr (by simp [dispatchFiles, hk, atTerminal])
  cases key with
  | tab =>
    cases ht : a.tab with
    | true => exact .inl (by simp [dispatch, ht])
    | false => exact .inr (by simp [encode, dispatch, ht, atTerminal])
  | esc | altSpace | home | theEnd => exact .inr rfl
  | files k => exact hfiles k
  | char b =>
    simp only [encode, dispatch]
    split
    · exact hfiles .enter
    split
    · exact hfiles .backspace
    split
    · exact .inl rfl
    · cases hb : a.char b with
      | true => exact .inl (by simp)
      | false => exact .inr (by simp [atTerminal])

theorem encode_cases (key : Key) : encode key = [] ∨ (∃ b, b ≠ 0x1B ∧ encode key = [b]) ∨
    (∃ c ∈ [0x41, 0x42, 0x43, 0x44, 0x46, 0x48], encode key = csi c) ∨
    encode key = [0x1B, 0x5B, 0x33, 0x7E] := by
  cases key with
  | esc | altSpace => exact .inl rfl
  | tab => exact .inr (.inl ⟨0x09, by decide, rfl⟩)
  | home => exact .inr (.inr (.inl ⟨0x48, by decide, rfl⟩))
  | theEnd => exact .inr (.inr (.inl ⟨0x46, by decide, rfl⟩))
  | files k =>
    cases k with
    | up => exact .inr (.inr (.inl ⟨0x41, by decide, rfl⟩))
    | down => exact .inr (.inr (.inl ⟨0x42, by decide, rfl⟩))
    | left => exact .inr (.inr (.inl ⟨0x44, by decide, rfl⟩))
    | right => exact .inr (.inr (.inl ⟨0x43, by decide, rfl⟩))
    | enter => exact .inr (.inl ⟨0x0A, by decide, rfl⟩)
    | backspace => exact .inr (.inl ⟨0x08, by decide, rfl⟩)
    | delete => exact .inr (.inr (.inr rfl))
  | char b =>
    simp only [encode, dispatch]
    split
    · exact .inr (.inl ⟨0x0A, by decide, rfl⟩)
    split
    · exact .inr (.inl ⟨0x08, by decide, rfl⟩)
    split
    · exact .inl rfl
    · rename_i hesc
      exact .inr (.inl ⟨b, hesc, by simp [atTerminal]⟩)

end Keys

structure KeyRing where
  bytes : Fin queueCap → UInt8
  head : Fin queueCap
  tail : Fin queueCap

namespace KeyRing

def empty : KeyRing := ⟨fun _ => 0, 0, 0⟩

def enqueue (r : KeyRing) (b : UInt8) : KeyRing :=
  if r.head + 1 = r.tail then r
  else
    { r with
      bytes := Function.update r.bytes r.head b
      head := r.head + 1 }

def popByte (r : KeyRing) : Option (UInt8 × KeyRing) :=
  if r.tail = r.head then none else some (r.bytes r.tail, { r with tail := r.tail + 1 })

def enqueueOrKill (killed : Bool) (r : KeyRing) (b : UInt8) : KeyRing :=
  if b = 3 ∧ killed then r else r.enqueue b

def press (a : Answers) (killed : Bool) (r : KeyRing) (key : Key) : KeyRing :=
  (dispatch a key).foldl (enqueueOrKill killed) r

def length (r : KeyRing) : ℕ := (r.head - r.tail).val

def contents (r : KeyRing) : Bytes := Ring.contents r.bytes r.tail.val r.length

def room (r : KeyRing) : ℕ := queueCap - 1 - r.length

variable (r : KeyRing)

theorem contents_length : r.contents.length = r.length := Ring.contents_length _ _ _

theorem length_lt : r.length < queueCap := (r.head - r.tail).isLt

theorem length_eq : r.length = (queueCap - r.tail.val + r.head.val) % queueCap := rfl

theorem head_eq : Ring.cell queueCap (r.tail.val + r.length) = r.head := by
  have hhead := r.head.isLt
  have htail := r.tail.isLt
  apply Fin.ext
  rw [Ring.cell, length_eq]
  simp only [queueCap] at hhead htail ⊢
  omega

theorem full_iff : r.head + 1 = r.tail ↔ r.length + 1 = queueCap := by
  have hhead := r.head.isLt
  have htail := r.tail.isLt
  rw [length_eq, Fin.ext_iff, Fin.val_add]
  simp only [queueCap, Fin.val_one] at hhead htail ⊢
  omega

theorem contents_enqueue (b : UInt8) : (r.enqueue b).contents = Task.enqueue r.contents b := by
  have hlt := r.length_lt
  rw [Task.enqueue, contents_length, enqueue]
  by_cases hfull : r.head + 1 = r.tail
  · rw [if_pos hfull, if_neg]
    have := r.full_iff.mp hfull
    omega
  · have hroom : r.length + 1 < queueCap := by
      have := mt r.full_iff.mpr hfull
      omega
    have hlen : (r.head + 1 - r.tail).val = r.length + 1 := by
      have hhead := r.head.isLt
      have htail := r.tail.isLt
      rw [length_eq] at hroom ⊢
      rw [Fin.sub_def, Fin.val_add]
      simp only [queueCap, Fin.val_one] at hhead htail hroom ⊢
      omega
    rw [if_neg hfull, if_pos hroom]
    have hstore := Ring.contents_store r.bytes r.tail.val r.length [b] hroom.le
    rw [Ring.store, Ring.store, head_eq] at hstore
    rw [contents, length, hlen]
    exact hstore

theorem empty_iff : r.tail = r.head ↔ r.length = 0 := by
  have hhead := r.head.isLt
  have htail := r.tail.isLt
  rw [length_eq, Fin.ext_iff]
  simp only [queueCap] at hhead htail ⊢
  omega

theorem popByte_none : r.popByte = none ↔ r.contents = [] := by
  rw [← List.length_eq_zero_iff, contents_length, ← empty_iff, popByte]
  simp

theorem popByte_some {b : UInt8} {r' : KeyRing} (h : r.popByte = some (b, r')) :
    r.contents = b :: r'.contents := by
  have hhead := r.head.isLt
  have htail := r.tail.isLt
  rw [popByte] at h
  split at h
  · cases h
  · rename_i hne
    obtain ⟨rfl, rfl⟩ := Prod.mk.inj (Option.some.inj h)
    rw [Fin.ext_iff] at hne
    have hlen : r.length = 1 + (r.head - (r.tail + 1)).val := by
      rw [length_eq, Fin.sub_def, Fin.val_add]
      simp only [queueCap, Fin.val_one] at hhead htail hne ⊢
      omega
    have hfirst : Ring.contents r.bytes r.tail.val 1 = [r.bytes r.tail] := by
      have hcell : Ring.cell queueCap r.tail.val = r.tail := Fin.ext (Nat.mod_eq_of_lt r.tail.isLt)
      simp [Ring.contents, hcell]
    have hnext : (r.tail + 1).val = (r.tail.val + 1) % queueCap := Fin.val_add _ _
    rw [contents, hlen, Ring.contents_add, hfirst, contents, length, hnext, Ring.contents_mod]
    rfl

end KeyRing

end CoeleoOs.Input
