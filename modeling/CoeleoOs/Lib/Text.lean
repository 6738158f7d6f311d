import Mathlib.Data.List.TakeWhile

/-!
# Text

A text is a list of characters. White space is the Unicode property `White_Space`, and
the functions follow those of Rust's `str` with the same names.
-/

namespace CoeleoOs.Lib.Text

def isWhitespace (c : Char) : Bool :=
  (0x9 ≤ c.toNat ∧ c.toNat ≤ 0xD) ∨ (0x2000 ≤ c.toNat ∧ c.toNat ≤ 0x200A) ∨
    c.toNat ∈ [0x20, 0x85, 0xA0, 0x1680, 0x2028, 0x2029, 0x202F, 0x205F, 0x3000]

def trimStart (s : List Char) : List Char := s.dropWhile isWhitespace

def trim (s : List Char) : List Char := (trimStart (trimStart s).reverse).reverse

def splitWhitespace (s : List Char) : List (List Char) := (s.splitOnP isWhitespace).filter (· ≠ [])

def splitOnce (p : Char → Bool) : List Char → Option (List Char × List Char)
  | [] => none
  | c :: s => if p c then some ([], s) else (splitOnce p s).map fun r => (c :: r.1, r.2)

def utf8 (s : List Char) : List UInt8 := s.flatMap String.utf8EncodeChar

def fromUtf8 (bytes : List UInt8) : Option (List Char) :=
  bytes.toByteArray.utf8Decode?.map Array.toList

variable {s : List Char} {p : Char → Bool}

theorem splitOnce_some {a b : List Char} (h : splitOnce p s = some (a, b)) :
    ∃ c, p c = true ∧ s = a ++ c :: b ∧ ∀ x ∈ a, p x = false := by
  induction s generalizing a with
  | nil => cases h
  | cons c s ih =>
    rw [splitOnce] at h
    split at h
    · rename_i hc
      obtain ⟨rfl, rfl⟩ := Prod.mk.inj (Option.some.inj h)
      exact ⟨c, hc, rfl, by simp⟩
    · rename_i hc
      obtain ⟨⟨a', b'⟩, hsplit, heq⟩ := Option.map_eq_some_iff.mp h
      obtain ⟨rfl, rfl⟩ := Prod.mk.inj heq
      obtain ⟨d, hd, rfl, hall⟩ := ih hsplit
      refine ⟨d, hd, rfl, fun x hx => ?_⟩
      rcases List.mem_cons.mp hx with rfl | hx
      · exact eq_false_of_ne_true hc
      · exact hall x hx

theorem splitOnce_none (h : splitOnce p s = none) : ∀ x ∈ s, p x = false := by
  induction s with
  | nil => simp
  | cons c s ih =>
    rw [splitOnce] at h
    split at h
    · cases h
    · rename_i hc
      intro x hx
      rcases List.mem_cons.mp hx with rfl | hx
      · exact eq_false_of_ne_true hc
      · exact ih (Option.map_eq_none_iff.mp h) x hx

theorem mem_splitOn {α : Type*} [BEq α] [LawfulBEq α] {sep : α} {t c : List α}
    (h : c ∈ t.splitOn sep) : sep ∉ c ∧ c.length ≤ t.length := by
  induction t generalizing c with
  | nil =>
    obtain rfl : c = [] := by simpa using h
    exact ⟨List.not_mem_nil, Nat.le_refl 0⟩
  | cons x t ih =>
    rw [List.splitOn_cons_eq_if_modifyHead] at h
    split at h
    · rcases List.mem_cons.mp h with rfl | h
      · exact ⟨List.not_mem_nil, Nat.zero_le _⟩
      · exact ⟨(ih h).1, Nat.le_succ_of_le (ih h).2⟩
    · rename_i hx
      rcases hs : t.splitOn sep with _ | ⟨d, ds⟩
      · rw [hs] at h
        cases h
      · rw [hs] at h ih
        rcases List.mem_cons.mp h with rfl | h
        · obtain ⟨hsep, hlen⟩ := ih List.mem_cons_self
          rw [List.mem_cons, not_or]
          exact ⟨⟨fun heq => hx (by rw [heq]; exact beq_self_eq_true x), hsep⟩,
            Nat.succ_le_succ hlen⟩
        · obtain ⟨hsep, hlen⟩ := ih (List.mem_cons_of_mem d h)
          exact ⟨hsep, Nat.le_succ_of_le hlen⟩

theorem splitWhitespace_cons_space {c : Char} (hc : isWhitespace c = true) (s : List Char) :
    splitWhitespace (c :: s) = splitWhitespace s := by
  rw [splitWhitespace, List.splitOnP_cons_eq_if_modifyHead, if_pos hc]
  rfl

theorem splitWhitespace_trimStart (s : List Char) :
    splitWhitespace (trimStart s) = splitWhitespace s := by
  induction s with
  | nil => rfl
  | cons c s ih =>
    cases hc : isWhitespace c with
    | true =>
      rw [splitWhitespace_cons_space hc, ← ih, trimStart, List.dropWhile_cons_of_pos hc, trimStart]
    | false => rw [trimStart, List.dropWhile_cons_of_neg (by simp [hc])]

theorem splitWhitespace_word {w : List Char} (hw : ∀ x ∈ w, isWhitespace x = false)
    (hne : w ≠ []) {c : Char} (hc : isWhitespace c = true) (s : List Char) :
    splitWhitespace (w ++ c :: s) = w :: splitWhitespace s := by
  rw [splitWhitespace, List.splitOnP_append_cons_of_forall_mem hw c hc,
    List.filter_cons_of_pos (by simpa using hne)]
  rfl

theorem splitWhitespace_last {w : List Char} (hw : ∀ x ∈ w, isWhitespace x = false) (hne : w ≠ []) :
    splitWhitespace w = [w] := by
  rw [splitWhitespace, List.splitOnP_eq_singleton hw, List.filter_cons_of_pos (by simpa using hne)]
  rfl

theorem trimStart_head {c : Char} {t : List Char} (h : trimStart s = c :: t) :
    isWhitespace c = false := by
  induction s with
  | nil => cases h
  | cons d s ih =>
    cases hd : isWhitespace d with
    | true =>
      rw [trimStart, List.dropWhile_cons_of_pos hd] at h
      exact ih h
    | false =>
      rw [trimStart, List.dropWhile_cons_of_neg (by simp [hd])] at h
      obtain ⟨rfl, -⟩ := List.cons.inj h
      exact hd

theorem trimStart_eq_nil (s : List Char) : trimStart s = [] ↔ splitWhitespace s = [] := by
  rw [← splitWhitespace_trimStart]
  constructor
  · intro h
    rw [h]
    rfl
  · intro h
    rcases ht : trimStart s with _ | ⟨c, t⟩
    · rfl
    · have hc := trimStart_head ht
      rw [ht, splitWhitespace, List.splitOnP_cons_eq_if_modifyHead, if_neg (by simp [hc])] at h
      rcases hs : t.splitOnP isWhitespace with _ | ⟨d, ds⟩
      · exact absurd hs (List.splitOnP_ne_nil _ _)
      · simp [hs] at h

theorem mem_splitWhitespace {w : List Char} (h : w ∈ splitWhitespace s) : w ≠ [] := by
  simpa using (List.mem_filter.mp h).2

theorem mem_utf8EncodeChar {c : Char} {b : UInt8} (hb : b.toNat < 0x80) :
    b ∈ String.utf8EncodeChar c ↔ c.toNat = b.toNat := by
  have hc : c.toNat = c.val.toNat := rfl
  rw [String.utf8EncodeChar]
  split
  · simp [← UInt8.toNat_inj]
    omega
  split
  · simp [← UInt8.toNat_inj]
    omega
  split
  · simp [← UInt8.toNat_inj]
    omega
  · simp [← UInt8.toNat_inj]
    omega

theorem mem_utf8 {b : UInt8} (hb : b.toNat < 0x80) : b ∈ utf8 s ↔ ∃ c ∈ s, c.toNat = b.toNat := by
  simp only [utf8, List.mem_flatMap, mem_utf8EncodeChar hb]

theorem utf8_eq_nil : utf8 s = [] ↔ s = [] := by
  rw [utf8, List.flatMap_eq_nil_iff]
  constructor
  · intro h
    apply List.eq_nil_iff_forall_not_mem.mpr
    intro c hc
    have hlen := String.length_utf8EncodeChar c
    have hpos := Char.utf8Size_pos c
    rw [h c hc, List.length_nil] at hlen
    omega
  · rintro rfl
    simp

theorem utf8_append (s t : List Char) : utf8 (s ++ t) = utf8 s ++ utf8 t := List.flatMap_append

theorem toByteArray_utf8 (s : List Char) : (utf8 s).toByteArray = s.utf8Encode := rfl

theorem fromUtf8_utf8 (s : List Char) : fromUtf8 (utf8 s) = some s := by
  rw [fromUtf8, toByteArray_utf8, List.utf8Decode?_utf8Encode]
  rfl

theorem fromUtf8_eq_some {bytes : List UInt8} : fromUtf8 bytes = some s ↔ bytes = utf8 s := by
  constructor
  · intro h
    obtain ⟨chars, hdecode, hs⟩ := Option.map_eq_some_iff.mp h
    obtain ⟨t, ht⟩ := ByteArray.isSome_utf8Decode?_iff.mp (Option.isSome_of_eq_some hdecode)
    rw [← toByteArray_utf8, List.toByteArray_inj] at ht
    rw [ht, fromUtf8_utf8] at h
    rw [ht, Option.some.inj h]
  · rintro rfl
    exact fromUtf8_utf8 s

theorem utf8_prefix {t : List Char} {rest : List UInt8} (h : utf8 s ++ rest = utf8 t) :
    ∃ u, t = s ++ u ∧ rest = utf8 u := by
  have henc : s.utf8Encode ++ rest.toByteArray = t.utf8Encode := by
    rw [← toByteArray_utf8, ← toByteArray_utf8, ← h, List.toByteArray_append]
  obtain ⟨u, rfl⟩ := List.isPrefix_of_utf8Encode_append_eq_utf8Encode _ henc
  rw [utf8_append] at h
  exact ⟨u, rfl, List.append_cancel_left h⟩

theorem splitWhitespace_append_space {c : Char} (hc : isWhitespace c = true) (a b : List Char) :
    splitWhitespace (a ++ c :: b) = splitWhitespace a ++ splitWhitespace b := by
  rw [splitWhitespace, List.splitOnP_append_cons a b hc, List.filter_append, splitWhitespace,
    splitWhitespace]

theorem splitWhitespace_append_spaces {a b : List Char} (hb : ∀ c ∈ b, isWhitespace c = true) :
    splitWhitespace (a ++ b) = splitWhitespace a := by
  rcases b with _ | ⟨c, b⟩
  · rw [List.append_nil]
  · rw [splitWhitespace_append_space (hb c List.mem_cons_self), List.append_right_eq_self,
      ← trimStart_eq_nil, trimStart, List.dropWhile_eq_nil_iff]
    exact fun x hx => hb x (List.mem_cons_of_mem c hx)

theorem trimStart_append (s : List Char) :
    ∃ a, s = a ++ trimStart s ∧ ∀ c ∈ a, isWhitespace c = true :=
  ⟨s.takeWhile isWhitespace, List.takeWhile_append_dropWhile.symm,
    fun _ hc => List.mem_takeWhile_imp hc⟩

theorem trim_append (s : List Char) :
    ∃ b, trimStart s = trim s ++ b ∧ ∀ c ∈ b, isWhitespace c = true := by
  obtain ⟨b, hb, hspace⟩ := trimStart_append (trimStart s).reverse
  refine ⟨b.reverse, ?_, fun c hc => hspace c (List.mem_reverse.mp hc)⟩
  rw [trim, ← List.reverse_append, ← hb, List.reverse_reverse]

theorem splitWhitespace_trim (s : List Char) : splitWhitespace (trim s) = splitWhitespace s := by
  obtain ⟨b, hb, hspace⟩ := trim_append s
  rw [← splitWhitespace_trimStart s, hb, splitWhitespace_append_spaces hspace]

theorem trim_eq_nil (s : List Char) : trim s = [] ↔ splitWhitespace s = [] := by
  constructor
  · intro h
    rw [← splitWhitespace_trim, h]
    rfl
  · intro h
    rw [trim, (trimStart_eq_nil s).mpr h]
    rfl

theorem trim_getLast (h : trim s ≠ []) : isWhitespace ((trim s).getLast h) = false := by
  have hne : trimStart (trimStart s).reverse ≠ [] :=
    fun hnil => h (by rw [trim, hnil, List.reverse_nil])
  obtain ⟨c, t, hct⟩ := List.exists_cons_of_ne_nil hne
  have hlast : (trim s).getLast h = c := by simp [trim, hct]
  rw [hlast]
  exact trimStart_head hct

theorem trimStart_of_head {c : Char} (hc : isWhitespace c = false) (s : List Char) :
    trimStart (c :: s) = c :: s := by
  rw [trimStart, List.dropWhile_cons_of_neg (by simp [hc])]

theorem trimStart_of_space {c : Char} (hc : isWhitespace c = true) (s : List Char) :
    trimStart (c :: s) = trimStart s := by
  rw [trimStart, List.dropWhile_cons_of_pos hc, trimStart]

theorem trim_append_space {c : Char} (hc : isWhitespace c = true) (s : List Char) :
    trim (s ++ [c]) = trim s := by
  have hstart : trimStart (s ++ [c]) = trimStart s ++ [c] ∨ trimStart (s ++ [c]) = trimStart s := by
    induction s with
    | nil => exact .inr (trimStart_of_space hc [])
    | cons d s ih =>
      cases hd : isWhitespace d with
      | true =>
        rw [List.cons_append, trimStart_of_space hd, trimStart_of_space hd]
        exact ih
      | false =>
        rw [List.cons_append, trimStart_of_head hd, trimStart_of_head hd]
        exact .inl rfl
  rcases hstart with h | h
  · rw [trim, h, List.reverse_append, List.reverse_singleton, List.singleton_append,
      trimStart_of_space hc, trim]
  · rw [trim, h, trim]

theorem trim_eq_self_iff {c : Char} (hc : isWhitespace c = false) (s : List Char) :
    trim (c :: s) = c :: s ↔ isWhitespace ((c :: s).getLast (List.cons_ne_nil c s)) = false := by
  constructor
  · intro h
    have hne : trim (c :: s) ≠ [] := by
      rw [h]
      exact List.cons_ne_nil c s
    have hlast := trim_getLast hne
    simpa only [h] using hlast
  · intro h
    have hrev :
        (c :: s).reverse = (c :: s).getLast (List.cons_ne_nil c s) ::
          (c :: s).dropLast.reverse := by
      rw [← List.reverse_concat, List.dropLast_concat_getLast]
    rw [trim, trimStart_of_head hc, hrev, trimStart_of_head h, ← hrev, List.reverse_reverse]

theorem splitWhitespace_flatten (s : List Char) :
    (splitWhitespace s).flatten = s.filter fun c => !isWhitespace c := by
  rw [splitWhitespace, List.flatten_filter_ne_nil]
  induction s with
  | nil => rfl
  | cons c s ih =>
    rw [List.splitOnP_cons_eq_if_modifyHead]
    split
    · rename_i hc
      rw [List.flatten_cons, List.nil_append, ih, List.filter_cons_of_neg (by simp [hc])]
    · rename_i hc
      obtain ⟨w, ws, hsplit⟩ := List.exists_cons_of_ne_nil (List.splitOnP_ne_nil isWhitespace s)
      rw [hsplit] at ih ⊢
      rw [List.modifyHead_cons, List.flatten_cons, List.cons_append, ← List.flatten_cons, ih,
        List.filter_cons_of_pos (by simpa using hc)]

theorem splitWhitespace_eq_singleton :
    splitWhitespace s = [s] ↔ s ≠ [] ∧ ∀ c ∈ s, isWhitespace c = false := by
  constructor
  · intro h
    have hflat := splitWhitespace_flatten s
    rw [h, List.flatten_singleton] at hflat
    refine ⟨mem_splitWhitespace (h ▸ List.mem_singleton_self s), fun c hc => ?_⟩
    rw [hflat] at hc
    simpa using (List.mem_filter.mp hc).2
  · rintro ⟨hne, hword⟩
    exact splitWhitespace_last hword hne

end CoeleoOs.Lib.Text
