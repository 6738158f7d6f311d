import CoeleoOs.Task.Elfload

/-!
# Arguments of a new process

`parse_argv_blob` cuts a blob at its NUL bytes, and `write_argv` writes the strings
and the pointer table to the top of the new stack through the frames of the image.
The blobs that the parser accepts are the NUL-terminated concatenations of the
argument lists.
-/

namespace CoeleoOs.Task
open CoeleoOs.Mem

def argvMax : ℕ := 16
def argvStrMax : ℕ := 255

def argvStep (blob : Bytes) (st : List Bytes × ℕ) (i : ℕ) : Option (List Bytes × ℕ) :=
  if blob.getD i 0 ≠ 0 then some st
  else if i = st.2 ∨ argvMax ≤ st.1.length then none
  else
    let s := (blob.drop st.2).take (i - st.2)
    if utf8Valid s = false then none
    else if s = [] ∨ argvStrMax < s.length then none
    else some (st.1 ++ [s], i + 1)

def parseArgvBlob (blob : Bytes) : Option (List Bytes) :=
  if blob.getLast? ≠ some 0 then none
  else
    match (List.range blob.length).foldlM (argvStep blob) ([], 0) with
    | none => none
    | some (out, _) => if out.length = 0 then none else some out

def frameAt (pages : List (ℕ × ℕ)) (page : ℕ) : Option ℕ := (pages.find? (·.1 = page)).map (·.2)

def writeUserLoop (pages : List (ℕ × ℕ)) : ℕ → (ℕ → ℕ → UInt8) → ℕ → Bytes → Bool × (ℕ → ℕ → UInt8)
  | 0, ram, _, _ => (true, ram)
  | fuel + 1, ram, addr, remaining =>
    if remaining = [] then (true, ram)
    else
      let page := addr - addr % frameSize
      let off := addr - page
      match frameAt pages page with
      | none => (false, ram)
      | some frame =>
        let n := min remaining.length (frameSize - off)
        writeUserLoop pages fuel (copyIntoFrame ram frame off (remaining.take n)) (addr + n)
          (remaining.drop n)

def writeUser (pages : List (ℕ × ℕ)) (ram : ℕ → ℕ → UInt8) (va : ℕ) (src : Bytes) :
    Bool × (ℕ → ℕ → UInt8) :=
  writeUserLoop pages src.length ram va src

def writeStrings (pages : List (ℕ × ℕ)) :
    List Bytes → (ℕ → ℕ → UInt8) → ℕ → Option (ℕ × List ℕ) × (ℕ → ℕ → UInt8)
  | [], ram, cursor => (some (cursor, []), ram)
  | s :: strings, ram, cursor =>
    if cursor < s.length + 1 then (none, ram)
    else
      let cursor := cursor - (s.length + 1)
      match writeUser pages ram cursor (s ++ [0]) with
      | (false, ram) => (none, ram)
      | (true, ram) =>
        let r := writeStrings pages strings ram cursor
        (r.1.map fun p => (p.1, cursor :: p.2), r.2)

def writeWords (pages : List (ℕ × ℕ)) : List ℕ → (ℕ → ℕ → UInt8) → ℕ → Bool × (ℕ → ℕ → UInt8)
  | [], ram, _ => (true, ram)
  | w :: words, ram, addr =>
    match writeUser pages ram addr (leBytes 8 w) with
    | (false, ram) => (false, ram)
    | (true, ram) => writeWords pages words ram (addr + 8)

/-- The words of the table are the count, the addresses of the strings and two zeros. -/
def writeArgv (pages : List (ℕ × ℕ)) (ram : ℕ → ℕ → UInt8) (strings : List Bytes) :
    Option ArgvSetup × (ℕ → ℕ → UInt8) :=
  if strings = [] ∨ argvMax < strings.length then (none, ram)
  else if strings.any fun s => s = [] ∨ argvStrMax < s.length then (none, ram)
  else
    match writeStrings pages strings ram userStackTop with
    | (none, ram) => (none, ram)
    | (some (cursor, strVa), ram) =>
      let argc := strings.length
      let table := 8 + (strings.length + 2) * 8
      if cursor < table then (none, ram)
      else
        let rsp := cursor - table - (cursor - table) % 16
        if cursor < rsp + table then (none, ram)
        else
          match writeWords pages (argc :: strVa ++ [0, 0]) ram rsp with
          | (false, ram) => (none, ram)
          | (true, ram) =>
            (some ⟨UInt64.ofNat rsp, UInt64.ofNat argc, UInt64.ofNat (rsp + 8)⟩, ram)

structure ArgString (s : Bytes) : Prop where
  utf8 : utf8Valid s = true
  nonempty : s ≠ []
  short : s.length ≤ argvStrMax
  noNul : ∀ b ∈ s, b ≠ 0

structure ArgList (strings : List Bytes) : Prop where
  nonempty : strings ≠ []
  few : strings.length ≤ argvMax
  each : ∀ s ∈ strings, ArgString s

def argvBlob (strings : List Bytes) : Bytes := strings.flatMap (· ++ [0])

section Codec

variable {blob : Bytes} {st : List Bytes × ℕ}

theorem argvStep_skip {i : ℕ} (h : blob.getD i 0 ≠ 0) : argvStep blob st i = some st := by
  simp only [argvStep]
  rw [if_pos h]

theorem foldlM_skip {i n : ℕ} (h : ∀ j, i ≤ j → j < i + n → blob.getD j 0 ≠ 0) :
    (List.range' i n).foldlM (argvStep blob) st = some st := by
  induction n generalizing i with
  | zero => rfl
  | succ n ih =>
    rw [List.range'_succ, List.foldlM_cons, argvStep_skip (h i le_rfl (by omega))]
    exact ih fun j hj hj' => h j (by omega) (by omega)

theorem argvStep_push {s pre post : Bytes} {out : List Bytes} (hs : ArgString s)
    (hout : out.length < argvMax) (hblob : blob = pre ++ s ++ 0 :: post) :
    argvStep blob (out, pre.length) (pre.length + s.length) =
      some (out ++ [s], pre.length + s.length + 1) := by
  have hpos : 0 < s.length := List.length_pos_iff.mpr hs.nonempty
  have hnul : blob.getD (pre.length + s.length) 0 = 0 := by
    rw [hblob, List.getD_eq_getElem?_getD, List.getElem?_append_right (by simp), List.length_append,
      Nat.sub_self]
    rfl
  have hslice : (blob.drop pre.length).take (pre.length + s.length - pre.length) = s := by
    rw [hblob, List.append_assoc, List.drop_left, Nat.add_sub_cancel_left, List.take_left]
  have hshort := hs.short
  simp only [argvStep]
  rw [if_neg (not_not.mpr hnul), if_neg (by omega), hslice, if_neg (by simp [hs.utf8]),
    if_neg (by rw [not_or]; exact ⟨hs.nonempty, by omega⟩)]

theorem foldlM_string {s pre post : Bytes} (out : List Bytes) (hs : ArgString s)
    (hout : out.length < argvMax) (hblob : blob = pre ++ s ++ 0 :: post) :
    (List.range' pre.length (s.length + 1)).foldlM (argvStep blob) (out, pre.length) =
      some (out ++ [s], pre.length + s.length + 1) := by
  have hskip : (List.range' pre.length s.length).foldlM (argvStep blob) (out, pre.length) =
      some (out, pre.length) := by
    refine foldlM_skip ?_
    intro j hj hj'
    have hget : blob.getD j 0 = s[j - pre.length] := by
      rw [hblob, List.append_assoc, List.getD_eq_getElem?_getD, List.getElem?_append_right hj,
        List.getElem?_append_left (by omega), List.getElem?_eq_getElem (by omega), Option.getD_some]
    rw [hget]
    exact hs.noNul _ (List.getElem_mem _)
  rw [← List.range'_append_1, List.foldlM_append, hskip]
  simp only [Option.bind_eq_bind, Option.bind_some, List.range'_one, List.foldlM_cons,
    List.foldlM_nil]
  rw [argvStep_push hs hout hblob]
  rfl

theorem foldlM_strings {strings : List Bytes} (out : List Bytes) (pre : Bytes)
    (hs : ∀ s ∈ strings, ArgString s) (hlen : out.length + strings.length ≤ argvMax)
    (hblob : blob = pre ++ argvBlob strings) :
    (List.range' pre.length (argvBlob strings).length).foldlM (argvStep blob) (out, pre.length) =
      some (out ++ strings, blob.length) := by
  induction strings generalizing out pre with
  | nil =>
    simp only [argvBlob, List.flatMap_nil, List.append_nil] at hblob
    simp [argvBlob, hblob]
  | cons s strings ih =>
    have hcons : argvBlob (s :: strings) = s ++ 0 :: argvBlob strings := by
      simp [argvBlob]
    have hfirst := foldlM_string out (hs s List.mem_cons_self)
      (by simp only [List.length_cons] at hlen; omega)
      (show blob = pre ++ s ++ 0 :: argvBlob strings by rw [hblob, hcons, List.append_assoc])
    have hrest := ih (out ++ [s]) (pre ++ s ++ [0])
      (fun t ht => hs t (List.mem_cons_of_mem s ht))
      (by simp only [List.length_cons, List.length_append, List.length_nil] at hlen ⊢; omega)
      (by rw [hblob, hcons]; simp)
    have hlength :
        (argvBlob (s :: strings)).length = (s.length + 1) + (argvBlob strings).length := by
      rw [hcons]
      simp only [List.length_append, List.length_cons]
      omega
    have hpos : (pre ++ s ++ [0]).length = pre.length + (s.length + 1) := by
      simp only [List.length_append, List.length_singleton]
      omega
    rw [hlength, ← List.range'_append_1, List.foldlM_append, hfirst]
    rw [hpos, ← Nat.add_assoc] at hrest
    simp only [Option.bind_eq_bind, Option.bind_some, ← Nat.add_assoc]
    rw [hrest, List.append_assoc, List.singleton_append]

theorem argvBlob_getLast {strings : List Bytes} (h : strings ≠ []) :
    (argvBlob strings).getLast? = some 0 := by
  rcases List.eq_nil_or_concat strings with hnil | ⟨init, s, rfl⟩
  · exact absurd hnil h
  · simp [argvBlob]

theorem parseArgvBlob_argvBlob {strings : List Bytes} (h : ArgList strings) :
    parseArgvBlob (argvBlob strings) = some strings := by
  have hfold := foldlM_strings [] [] h.each (by simpa using h.few) rfl
  simp only [List.length_nil, List.nil_append] at hfold
  have hne : strings.length ≠ 0 := fun h0 => h.nonempty (List.length_eq_zero_iff.mp h0)
  simp only [parseArgvBlob]
  rw [if_neg (by simp [argvBlob_getLast h.nonempty]), List.range_eq_range', hfold]
  simp [hne]

structure Scanned (blob : Bytes) (i : ℕ) (st : List Bytes × ℕ) : Prop where
  le : st.2 ≤ i
  done : blob.take st.2 = argvBlob st.1
  each : ∀ s ∈ st.1, ArgString s
  few : st.1.length ≤ argvMax
  noNul : ∀ j, st.2 ≤ j → j < i → blob.getD j 0 ≠ 0

theorem Scanned.skip {i : ℕ} (h : Scanned blob i st) (hi : blob.getD i 0 ≠ 0) :
    Scanned blob (i + 1) st where
  le := Nat.le_succ_of_le h.le
  done := h.done
  each := h.each
  few := h.few
  noNul := by
    intro j hj hj'
    by_cases hlast : j = i
    · rw [hlast]
      exact hi
    · exact h.noNul j hj (by omega)

theorem Scanned.push {i : ℕ} (h : Scanned blob i st) (hlen : i < blob.length)
    (hi : blob.getD i 0 = 0) (hout : st.1.length < argvMax) {s : Bytes}
    (hs : s = (blob.drop st.2).take (i - st.2)) (hvalid : utf8Valid s = true) (hne : s ≠ [])
    (hshort : s.length ≤ argvStrMax) : Scanned blob (i + 1) (st.1 ++ [s], i + 1) where
  le := le_rfl
  done := by
    have hle := h.le
    have hsplit : blob.take (i + 1) = blob.take st.2 ++ s ++ [0] := by
      rw [List.take_add_one, ← Nat.add_sub_cancel' hle, List.take_add, ← hs,
        Nat.add_sub_cancel' hle, List.getElem?_eq_getElem hlen]
      rw [List.getD_eq_getElem?_getD, List.getElem?_eq_getElem hlen, Option.getD_some] at hi
      rw [hi, Option.toList_some]
    rw [hsplit, h.done]
    simp [argvBlob]
  each := by
    intro t ht
    rcases List.mem_append.mp ht with hold | hnew
    · exact h.each t hold
    · rw [List.mem_singleton.mp hnew]
      refine ⟨hvalid, hne, hshort, ?_⟩
      intro b hb
      rw [hs] at hb
      obtain ⟨j, hj, rfl⟩ := List.getElem_of_mem hb
      rw [List.length_take, List.length_drop] at hj
      rw [List.getElem_take, List.getElem_drop]
      have hnul := h.noNul (st.2 + j) (by omega) (by omega)
      rwa [List.getD_eq_getElem?_getD, List.getElem?_eq_getElem (by omega), Option.getD_some]
        at hnul
  few := by
    simp only [List.length_append, List.length_singleton]
    omega
  noNul := by
    intro j hj hj'
    omega

theorem Scanned.step {i : ℕ} {st' : List Bytes × ℕ} (h : Scanned blob i st) (hlen : i < blob.length)
    (hstep : argvStep blob st i = some st') : Scanned blob (i + 1) st' := by
  simp only [argvStep] at hstep
  split_ifs at hstep with hi hfull hvalid hbad
  · obtain rfl := Option.some.inj hstep
    exact h.skip hi
  · obtain rfl := Option.some.inj hstep
    rw [not_or] at hfull hbad
    exact h.push hlen (not_not.mp hi) (by omega) rfl (by simpa using hvalid) hbad.1 (by omega)

theorem foldlM_scanned {n : ℕ} (hn : n ≤ blob.length)
    (hfold : (List.range n).foldlM (argvStep blob) ([], 0) = some st) : Scanned blob n st := by
  induction n generalizing st with
  | zero =>
    obtain rfl := Option.some.inj hfold
    exact ⟨le_rfl, by simp [argvBlob], by simp, by simp, fun j _ hj => by omega⟩
  | succ n ih =>
    rw [List.range_succ, List.foldlM_append] at hfold
    obtain ⟨st₁, hfold₁, hlast⟩ := Option.bind_eq_some_iff.mp hfold
    simp only [List.foldlM_cons, List.foldlM_nil] at hlast
    obtain ⟨st₂, hstep, hpure⟩ := Option.bind_eq_some_iff.mp hlast
    obtain rfl := Option.some.inj hpure
    exact (ih (by omega) hfold₁).step (by omega) hstep

theorem parseArgvBlob_some {strings : List Bytes} (h : parseArgvBlob blob = some strings) :
    ArgList strings ∧ blob = argvBlob strings := by
  simp only [parseArgvBlob] at h
  split_ifs at h with hlast
  rcases hfold : (List.range blob.length).foldlM (argvStep blob) ([], 0) with _ | ⟨out, start⟩
  · simp [hfold] at h
  · simp only [hfold] at h
    split_ifs at h with hzero
    obtain rfl := Option.some.inj h
    have hscan := foldlM_scanned le_rfl hfold
    have hnul : blob.getLast? = some 0 := not_not.mp hlast
    have hpos : 0 < blob.length := by
      rcases Nat.eq_zero_or_pos blob.length with h0 | h0
      · rw [List.length_eq_zero_iff.mp h0] at hnul
        cases hnul
      · exact h0
    have hend : start = blob.length := by
      by_contra hne
      have hle : start ≤ blob.length := hscan.le
      refine hscan.noNul (blob.length - 1) (by omega) (by omega) ?_
      rw [List.getLast?_eq_getElem?] at hnul
      rw [List.getD_eq_getElem?_getD, hnul]
      rfl
    have hdone := hscan.done
    simp only [hend, List.take_length] at hdone
    refine ⟨⟨?_, hscan.few, hscan.each⟩, hdone⟩
    rintro rfl
    exact hzero rfl

end Codec

end CoeleoOs.Task
