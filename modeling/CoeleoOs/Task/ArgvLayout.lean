import CoeleoOs.Task.Argv
import CoeleoOs.Task.ElfImage

/-!
# The stack of a new process

The sixteen stack pages lie on distinct frames, so a write to a range of the stack
changes the bytes of that range and no others. The strings go down from the top
and the table goes below them; nothing is written twice.
-/

namespace CoeleoOs.Task
open CoeleoOs.Mem

structure StackFrames (pages : List (ℕ × ℕ)) (F : ℕ → ℕ) : Prop where
  at_page : ∀ k < userStackPages, frameAt pages (userStackBase + k * frameSize) = some (F k)
  distinct : ∀ j k, j < userStackPages → k < userStackPages → F j = F k → j = k

def stackByte (F : ℕ → ℕ) (ram : ℕ → ℕ → UInt8) (a : ℕ) : UInt8 :=
  ram (F ((a - userStackBase) / frameSize)) (a % frameSize)

def InStack (a : ℕ) : Prop := userStackBase ≤ a ∧ a < userStackTop

/-- `ram'` differs from `ram` by the bytes `src` at `va`, and on stack frames only. -/
structure Stored (F : ℕ → ℕ) (va : ℕ) (src : Bytes) (ram ram' : ℕ → ℕ → UInt8) : Prop where
  stack : ∀ a, InStack a → stackByte F ram' a =
    if va ≤ a ∧ a < va + src.length then src.getD (a - va) 0 else stackByte F ram a
  others : ∀ f, (∀ k < userStackPages, F k ≠ f) → ram' f = ram f

section Write

variable {pages : List (ℕ × ℕ)} {F : ℕ → ℕ} {ram ram' : ℕ → ℕ → UInt8} {va : ℕ} {src : Bytes}

theorem page_of_stack {a : ℕ} (h : InStack a) :
    a - a % frameSize = userStackBase + (a - userStackBase) / frameSize * frameSize ∧
      (a - userStackBase) / frameSize < userStackPages := by
  simp only [InStack, userStackTop, userStackBase, userStackPages, frameSize] at *
  omega

theorem stored_copy (hF : StackFrames pages F) (hva : InStack va) (ram : ℕ → ℕ → UInt8)
    (chunk : Bytes) (hfit : va % frameSize + chunk.length ≤ frameSize) :
    Stored F va chunk ram (copyIntoFrame ram (F ((va - userStackBase) / frameSize)) (va % frameSize)
      chunk) := by
  have hk := (page_of_stack hva).2
  constructor
  · intro a ha
    have hka := (page_of_stack ha).2
    simp only [stackByte, copyIntoFrame]
    by_cases hpage : (a - userStackBase) / frameSize = (va - userStackBase) / frameSize
    · have hiff : (va % frameSize ≤ a % frameSize ∧ a % frameSize < va % frameSize + chunk.length) ↔
          (va ≤ a ∧ a < va + chunk.length) := by
        simp only [InStack, userStackTop, userStackBase, userStackPages, frameSize] at *
        omega
      have hidx : va ≤ a → a % frameSize - va % frameSize = a - va := by
        simp only [InStack, userStackTop, userStackBase, userStackPages, frameSize] at *
        omega
      rw [hpage, Function.update_self]
      simp only [hiff]
      split
      · rename_i hin
        rw [hidx hin.1]
      · rfl
    · have hne : F ((a - userStackBase) / frameSize) ≠ F ((va - userStackBase) / frameSize) :=
        fun heq => hpage (hF.distinct _ _ hka hk heq)
      have hout : ¬(va ≤ a ∧ a < va + chunk.length) := by
        simp only [InStack, userStackTop, userStackBase, userStackPages, frameSize] at *
        omega
      rw [Function.update_of_ne hne, if_neg hout]
  · intro f hf
    rw [copyIntoFrame, Function.update_of_ne (hf _ hk).symm]

theorem stored_append {chunk rest : Bytes} {ram₁ : ℕ → ℕ → UInt8} (h₁ : Stored F va chunk ram ram₁)
    (h₂ : Stored F (va + chunk.length) rest ram₁ ram') : Stored F va (chunk ++ rest) ram ram' := by
  constructor
  · intro a ha
    rw [h₂.stack a ha, h₁.stack a ha, List.length_append]
    by_cases hfirst : a < va + chunk.length
    · rw [if_neg (by omega)]
      by_cases hlow : va ≤ a
      · rw [if_pos (by omega), if_pos (by omega), List.getD_eq_getElem?_getD,
          List.getD_eq_getElem?_getD, List.getElem?_append_left (by omega)]
      · rw [if_neg (by omega), if_neg (by omega)]
    · rw [if_neg (c := va ≤ a ∧ a < va + chunk.length) (by omega)]
      by_cases hsecond : a < va + chunk.length + rest.length
      · rw [if_pos (by omega), if_pos (by omega), List.getD_eq_getElem?_getD,
          List.getD_eq_getElem?_getD, List.getElem?_append_right (by omega), Nat.sub_sub]
      · rw [if_neg (by omega), if_neg (by omega)]
  · intro f hf
    rw [h₂.others f hf, h₁.others f hf]

theorem writeUserLoop_stored (hF : StackFrames pages F) (ram : ℕ → ℕ → UInt8) (va : ℕ)
    (src : Bytes) {fuel : ℕ} (hfuel : src.length ≤ fuel) (hlo : userStackBase ≤ va)
    (hhi : va + src.length ≤ userStackTop) :
    ∃ ram', writeUserLoop pages fuel ram va src = (true, ram') ∧ Stored F va src ram ram' := by
  induction fuel generalizing ram va src with
  | zero =>
    have hnil : src = [] := List.length_eq_zero_iff.mp (by omega)
    subst hnil
    refine ⟨ram, rfl, ?_, fun _ _ => rfl⟩
    intro a _
    rw [if_neg (by simp only [List.length_nil]; omega)]
  | succ fuel ih =>
    by_cases hnil : src = []
    · subst hnil
      refine ⟨ram, by simp [writeUserLoop], ?_, fun _ _ => rfl⟩
      intro a _
      rw [if_neg (by simp only [List.length_nil]; omega)]
    · have hpos : 0 < src.length := List.length_pos_iff.mpr hnil
      have hva : InStack va := ⟨hlo, by omega⟩
      obtain ⟨hpage, hk⟩ := page_of_stack hva
      have hoff : va - (va - va % frameSize) = va % frameSize := by
        have := Nat.mod_le va frameSize
        omega
      have hmod : va % frameSize < frameSize := Nat.mod_lt va (by decide)
      have hn : min src.length (frameSize - va % frameSize) ≤ src.length := Nat.min_le_left _ _
      have htake : (src.take (min src.length (frameSize - va % frameSize))).length =
          min src.length (frameSize - va % frameSize) := by
        rw [List.length_take, Nat.min_eq_left hn]
      have hcopy := stored_copy hF hva ram (src.take (min src.length (frameSize - va % frameSize)))
        (by rw [htake]; omega)
      obtain ⟨ram', hrest, hstored⟩ := ih
        (copyIntoFrame ram (F ((va - userStackBase) / frameSize)) (va % frameSize)
          (src.take (min src.length (frameSize - va % frameSize))))
        (va + min src.length (frameSize - va % frameSize))
        (src.drop (min src.length (frameSize - va % frameSize)))
        (by rw [List.length_drop]; omega) (by omega) (by rw [List.length_drop]; omega)
      refine ⟨ram', ?_, ?_⟩
      · simp only [writeUserLoop, hnil, if_false]
        rw [hpage, hF.at_page _ hk]
        simp only [← hpage, hoff]
        exact hrest
      · have happ := stored_append hcopy (by rw [htake]; exact hstored)
        rwa [List.take_append_drop] at happ

theorem writeUser_stored (hF : StackFrames pages F) (ram : ℕ → ℕ → UInt8) (va : ℕ) (src : Bytes)
    (hlo : userStackBase ≤ va) (hhi : va + src.length ≤ userStackTop) :
    ∃ ram', writeUser pages ram va src = (true, ram') ∧ Stored F va src ram ram' :=
  writeUserLoop_stored hF ram va src le_rfl hlo hhi

end Write

def Reads (F : ℕ → ℕ) (ram : ℕ → ℕ → UInt8) (a : ℕ) (bs : Bytes) : Prop :=
  ∀ i < bs.length, stackByte F ram (a + i) = bs.getD i 0

structure ChangesWithin (F : ℕ → ℕ) (lo hi : ℕ) (ram ram' : ℕ → ℕ → UInt8) : Prop where
  stack : ∀ a, InStack a → ¬(lo ≤ a ∧ a < hi) → stackByte F ram' a = stackByte F ram a
  others : ∀ f, (∀ k < userStackPages, F k ≠ f) → ram' f = ram f

/-- The strings lie one below the other from `top` down to `low`. -/
inductive Layout : ℕ → List Bytes → List ℕ → ℕ → Prop
  | nil (top : ℕ) : Layout top [] [] top
  | cons {va low : ℕ} {s : Bytes} {strings : List Bytes} {ptrs : List ℕ} :
      Layout va strings ptrs low → Layout (va + (s.length + 1)) (s :: strings) (va :: ptrs) low

section Sequence

variable {pages : List (ℕ × ℕ)} {F : ℕ → ℕ} {ram ram₁ ram' : ℕ → ℕ → UInt8} {va lo hi : ℕ}
    {src bs : Bytes}

theorem Stored.reads (h : Stored F va src ram ram') (hlo : userStackBase ≤ va)
    (hhi : va + src.length ≤ userStackTop) : Reads F ram' va src := by
  intro i hi
  rw [h.stack (va + i) ⟨by omega, by omega⟩, if_pos (by omega), Nat.add_sub_cancel_left]

theorem Stored.changes (h : Stored F va src ram ram') (hlo : lo ≤ va) (hhi : va + src.length ≤ hi) :
    ChangesWithin F lo hi ram ram' where
  stack := by
    intro a ha hout
    rw [h.stack a ha, if_neg (by omega)]
  others := h.others

theorem ChangesWithin.trans (h₁ : ChangesWithin F lo hi ram ram₁)
    (h₂ : ChangesWithin F lo hi ram₁ ram') : ChangesWithin F lo hi ram ram' where
  stack := by
    intro a ha hout
    rw [h₂.stack a ha hout, h₁.stack a ha hout]
  others := by
    intro f hf
    rw [h₂.others f hf, h₁.others f hf]

theorem ChangesWithin.mono {lo' hi' : ℕ} (h : ChangesWithin F lo hi ram ram') (hlo : lo' ≤ lo)
    (hhi : hi ≤ hi') : ChangesWithin F lo' hi' ram ram' where
  stack := by
    intro a ha hout
    exact h.stack a ha (by omega)
  others := h.others

theorem Reads.keep {a : ℕ} (h : Reads F ram a bs) (hc : ChangesWithin F lo hi ram ram')
    (hlo : userStackBase ≤ a) (hhi : a + bs.length ≤ userStackTop)
    (hapart : a + bs.length ≤ lo ∨ hi ≤ a) : Reads F ram' a bs := by
  intro i hlt
  rw [hc.stack (a + i) ⟨by omega, by omega⟩ (by omega)]
  exact h i hlt

theorem Layout.low_le {top low : ℕ} {strings : List Bytes} {ptrs : List ℕ}
    (h : Layout top strings ptrs low) : low ≤ top := by
  induction h with
  | nil top => exact le_rfl
  | cons _ ih => omega

theorem Layout.low_eq {top low : ℕ} {strings : List Bytes} {ptrs : List ℕ}
    (h : Layout top strings ptrs low) : low + (argvBlob strings).length = top := by
  induction h with
  | nil top => simp [argvBlob]
  | @cons va low s strings ptrs _ ih =>
    simp only [argvBlob, List.flatMap_cons, List.length_append, List.length_singleton] at ih ⊢
    omega

theorem writeStrings_layout (hF : StackFrames pages F) (strings : List Bytes)
    (ram : ℕ → ℕ → UInt8) (top : ℕ) (hlo : userStackBase + (argvBlob strings).length ≤ top)
    (hhi : top ≤ userStackTop) :
    ∃ low ptrs ram', writeStrings pages strings ram top = (some (low, ptrs), ram') ∧
      Layout top strings ptrs low ∧ ChangesWithin F low top ram ram' ∧
      List.Forall₂ (fun p s => Reads F ram' p (s ++ [0])) ptrs strings := by
  induction strings generalizing ram top with
  | nil => exact ⟨top, [], ram, rfl, .nil top, ⟨fun _ _ _ => rfl, fun _ _ => rfl⟩, .nil⟩
  | cons s strings ih =>
    have hlen : (argvBlob (s :: strings)).length = (s.length + 1) + (argvBlob strings).length := by
      simp only [argvBlob, List.flatMap_cons, List.length_append, List.length_singleton]
    rw [hlen] at hlo
    obtain ⟨va, rfl⟩ : ∃ va, top = va + (s.length + 1) := ⟨top - (s.length + 1), by omega⟩
    have hsrc : (s ++ [0]).length = s.length + 1 := by simp
    obtain ⟨ram₁, hwrite, hstored⟩ := writeUser_stored hF ram va (s ++ [0]) (by omega)
      (by rw [hsrc]; omega)
    obtain ⟨low, ptrs, ram', hrest, hlay, hch, hreads⟩ := ih ram₁ va (by omega) (by omega)
    have hlow := hlay.low_le
    refine ⟨low, va :: ptrs, ram', ?_, .cons hlay, ?_, .cons ?_ hreads⟩
    · simp only [writeStrings]
      rw [if_neg (by omega), Nat.add_sub_cancel, hwrite]
      simp only [hrest, Option.map_some]
    · exact (hstored.changes hlow (by rw [hsrc])).trans (hch.mono le_rfl (by omega))
    · exact (hstored.reads (by omega) (by rw [hsrc]; omega)).keep hch (by omega)
        (by rw [hsrc]; omega) (.inr le_rfl)

theorem leNat_leBytes (k n : ℕ) (hn : n < 256 ^ k) : leNat (leBytes k n) = n := by
  induction k generalizing n with
  | zero =>
    have hzero : n = 0 := by simpa using hn
    subst hzero
    rfl
  | succ k ih =>
    have hdiv : n / 256 < 256 ^ k := by
      rw [Nat.pow_succ] at hn
      exact Nat.div_lt_of_lt_mul (by omega)
    have hrest := ih (n / 256) hdiv
    simp only [leNat] at hrest
    simp only [leNat, leBytes, List.foldr_cons, hrest, UInt8.toNat_ofNat']
    omega

theorem writeWords_reads (hF : StackFrames pages F) (words : List ℕ)
    (ram : ℕ → ℕ → UInt8) (addr : ℕ) (hlo : userStackBase ≤ addr)
    (hhi : addr + words.length * 8 ≤ userStackTop) :
    ∃ ram', writeWords pages words ram addr = (true, ram') ∧
    ChangesWithin F addr (addr + words.length * 8) ram ram' ∧ ∀ i (hi : i < words.length),
    Reads F ram' (addr + 8 * i) (leBytes 8 words[i]) := by
  induction words generalizing ram addr with
  | nil => exact ⟨ram, rfl, ⟨fun _ _ _ => rfl, fun _ _ => rfl⟩, by simp⟩
  | cons w words ih =>
    rw [List.length_cons] at hhi
    have hw := leBytes_length 8 w
    obtain ⟨ram₁, hwrite, hstored⟩ := writeUser_stored hF ram addr (leBytes 8 w) hlo
      (by rw [hw]; omega)
    obtain ⟨ram', hrest, hch, hreads⟩ := ih ram₁ (addr + 8) (by omega) (by omega)
    refine ⟨ram', ?_, ?_, ?_⟩
    · simp only [writeWords, hwrite]
      exact hrest
    · rw [List.length_cons]
      exact (hstored.changes le_rfl (by rw [hw]; omega)).trans (hch.mono (by omega) (by omega))
    · intro i hi
      cases i with
      | zero =>
        have hfirst := hstored.reads hlo (by rw [hw]; omega)
        simpa using hfirst.keep hch hlo (by rw [hw]; omega) (.inl (by rw [hw]))
      | succ i =>
        have hnext := hreads i (by simpa using hi)
        rw [show addr + 8 * (i + 1) = addr + 8 + 8 * i by omega]
        simpa using hnext

end Sequence

section Reading

variable {read : ℕ → Option UInt8}

def cString (read : ℕ → Option UInt8) : ℕ → ℕ → Option Bytes
  | 0, _ => none
  | fuel + 1, a =>
    match read a with
    | none => none
    | some b => if b = 0 then some [] else (cString read fuel (a + 1)).map (b :: ·)

def readWord (read : ℕ → Option UInt8) (a : ℕ) : Option ℕ :=
  ((List.range 8).mapM fun i => read (a + i)).map leNat

def readArgv (read : ℕ → Option UInt8) (argc argvPtr : ℕ) : Option (List Bytes) :=
  (List.range argc).mapM fun i =>
    (readWord read (argvPtr + 8 * i)).bind (cString read (argvStrMax + 1))

theorem mapM_some {α β : Type} {f : α → Option β} {g : α → β} {l : List α}
    (h : ∀ x ∈ l, f x = some (g x)) : l.mapM f = some (l.map g) := by
  induction l with
  | nil => rfl
  | cons x l ih =>
    rw [List.mapM_cons, h x List.mem_cons_self, ih fun y hy => h y (List.mem_cons_of_mem x hy)]
    rfl

theorem cString_eq {s : Bytes} (fuel a : ℕ) (hfuel : s.length < fuel) (hnul : ∀ b ∈ s, b ≠ 0)
    (h : ∀ i < (s ++ [0]).length, read (a + i) = some ((s ++ [0]).getD i 0)) :
    cString read fuel a = some s := by
  induction s generalizing fuel a with
  | nil =>
    obtain ⟨fuel, rfl⟩ := Nat.exists_eq_succ_of_ne_zero hfuel.ne'
    have hfirst : read a = some 0 := by simpa using h 0 (by simp)
    simp [cString, hfirst]
  | cons b s ih =>
    obtain ⟨fuel, rfl⟩ := Nat.exists_eq_succ_of_ne_zero (Nat.zero_lt_of_lt hfuel).ne'
    have hfirst : read a = some b := by simpa using h 0 (by simp)
    have hb : b ≠ 0 := hnul b List.mem_cons_self
    have hrest := ih fuel (a + 1) (by simpa using hfuel)
      (fun c hc => hnul c (List.mem_cons_of_mem b hc)) (by
        intro i hi
        have hnext := h (i + 1) (by simpa using hi)
        rw [show a + 1 + i = a + (i + 1) by omega, hnext]
        simp)
    simp [cString, hfirst, hb, hrest]

theorem readWord_eq {a w : ℕ} (hw : w < 2 ^ 64)
    (h : ∀ i < 8, read (a + i) = some ((leBytes 8 w).getD i 0)) : readWord read a = some w := by
  have hbytes : (List.range 8).map (fun i => (leBytes 8 w).getD i 0) = leBytes 8 w := by
    refine List.ext_getElem (by simp [leBytes_length]) ?_
    intro i _ hi
    simp [List.getElem?_eq_getElem hi]
  rw [readWord, mapM_some (g := fun i => (leBytes 8 w).getD i 0) fun i hi =>
    h i (List.mem_range.mp hi), hbytes, Option.map_some, leNat_leBytes 8 w (by norm_num; omega)]

theorem readArgv_eq {strings : List Bytes} {ptrs : List ℕ} {argvPtr : ℕ}
    (hword : ∀ i < strings.length, readWord read (argvPtr + 8 * i) = ptrs[i]?)
    (hstring : ∀ i (hi : i < strings.length), ∃ p, ptrs[i]? = some p ∧
      cString read (argvStrMax + 1) p = some strings[i]) :
    readArgv read strings.length argvPtr = some strings := by
  have hall : (List.range strings.length).map (fun i => strings.getD i []) = strings := by
    refine List.ext_getElem (by simp) ?_
    intro i _ hi
    simp [List.getElem?_eq_getElem hi]
  rw [readArgv, mapM_some (g := fun i => strings.getD i []), hall]
  intro i hmem
  have hi := List.mem_range.mp hmem
  obtain ⟨p, hp, hread⟩ := hstring i hi
  rw [hword i hi, hp, Option.bind_some, hread, List.getD_eq_getElem?_getD,
    List.getElem?_eq_getElem hi, Option.getD_some]

end Reading

section Loaded

variable {τ : Type} {m : PageMapper τ} {lookup : τ → ℕ → Option Leaf} {specs : List PageSpec}
  {s : LoadState τ} {all : Finset ℕ} {l4 : ℕ}

theorem frameAt_eq {pages : List (ℕ × ℕ)} {va f : ℕ} (hnodup : (pages.map (·.1)).Nodup)
    (hmem : (va, f) ∈ pages) : frameAt pages va = some f := by
  cases hfind : pages.find? (·.1 = va) with
  | none =>
    have hnot := List.find?_eq_none.mp hfind (va, f) hmem
    simp at hnot
  | some p =>
    have hp := List.find?_some hfind
    have heq : p = (va, f) :=
      List.inj_on_of_nodup_map hnodup (List.mem_of_find?_eq_some hfind) hmem (by simpa using hp)
    simp [frameAt, hfind, heq]

theorem Built.frames_nodup (h : Built lookup all l4 specs s) : (s.pages.map (·.2)).Nodup := by
  have hnodup := h.lends.nodup
  simp only [LoadState.owned] at hnodup
  exact (List.nodup_append.mp (List.nodup_append.mp hnodup).2.1).1

theorem Built.frame_inj (h : Built lookup all l4 specs s) {va va' f : ℕ} (hmem : (va, f) ∈ s.pages)
    (hmem' : (va', f) ∈ s.pages) : va = va' :=
  congrArg Prod.fst (List.inj_on_of_nodup_map h.frames_nodup hmem hmem' rfl)

theorem Built.page_of_lookup (h : Built lookup all l4 specs s) {va : ℕ} {leaf : Leaf}
    (hleaf : lookup s.table va = some leaf) : (va, leaf.frame) ∈ s.pages := by
  obtain ⟨p, hp, rfl, -⟩ := h.shows.of_lookup hleaf
  obtain ⟨frame, hmem, hlookup, -⟩ := h.shows.shown p hp
  rw [hleaf] at hlookup
  obtain rfl := Option.some.inj hlookup
  exact hmem

theorem exists_stackFrames {bytes : Bytes} {phdrs : List ProgramHeader}
    (h : Built lookup all l4 (imageSpecs bytes phdrs) s) :
    ∃ F, StackFrames s.pages F ∧
      (∀ k < userStackPages, ∃ leaf, lookup s.table (userStackBase + k * frameSize) = some leaf ∧
        leaf.frame = F k) := by
  have hnodup : (s.pages.map (·.1)).Nodup := by
    rw [h.shows.pages]
    exact h.shows.nodup
  have hstack :
      ∀ k < userStackPages, ∃ leaf, lookup s.table (userStackBase + k * frameSize) = some leaf ∧
      (userStackBase + k * frameSize, leaf.frame) ∈ s.pages := by
    intro k hk
    obtain ⟨frame, hmem, hlookup, -⟩ := h.shows.shown _ (stackSpec_mem bytes phdrs hk)
    exact ⟨_, hlookup, hmem⟩
  refine ⟨fun k => (frameAt s.pages (userStackBase + k * frameSize)).getD 0, ⟨?_, ?_⟩, ?_⟩
  · intro k hk
    obtain ⟨leaf, -, hmem⟩ := hstack k hk
    rw [frameAt_eq hnodup hmem, Option.getD_some]
  · intro j k hj hk heq
    obtain ⟨leaf, -, hmem⟩ := hstack j hj
    obtain ⟨leaf', -, hmem'⟩ := hstack k hk
    simp only [frameAt_eq hnodup hmem, frameAt_eq hnodup hmem', Option.getD_some] at heq
    rw [← heq] at hmem'
    have hva := h.frame_inj hmem hmem'
    simp only [frameSize] at hva
    omega
  · intro k hk
    obtain ⟨leaf, hlookup, hmem⟩ := hstack k hk
    exact ⟨leaf, hlookup, by simp only [frameAt_eq hnodup hmem, Option.getD_some]⟩

end Loaded

section Argv

variable {pages : List (ℕ × ℕ)} {F : ℕ → ℕ} {strings : List Bytes} {ptrs : List ℕ} {top low : ℕ}

theorem argvBlob_length_le (h : ∀ s ∈ strings, ArgString s) :
    (argvBlob strings).length ≤ strings.length * (argvStrMax + 1) := by
  induction strings with
  | nil => simp [argvBlob]
  | cons s strings ih =>
    have hshort := (h s List.mem_cons_self).short
    have hrest := ih fun t ht => h t (List.mem_cons_of_mem s ht)
    simp only [argvBlob, argvStrMax, List.flatMap_cons, List.length_append, List.length_cons,
      List.length_nil] at *
    omega

theorem Layout.length_eq (h : Layout top strings ptrs low) : ptrs.length = strings.length := by
  induction h with
  | nil top => rfl
  | cons _ ih => simp [ih]

theorem Layout.ptr_range (h : Layout top strings ptrs low) : ∀ p ∈ ptrs, low ≤ p ∧ p < top := by
  induction h with
  | nil top => simp
  | @cons va low s strings ptrs hlay ih =>
    have hlow := hlay.low_le
    intro p hp
    rcases List.mem_cons.mp hp with rfl | hp
    · omega
    · have hin := ih p hp
      omega

theorem Layout.string_range (h : Layout top strings ptrs low) {i : ℕ} (hi : i < strings.length) :
    ∃ p, ptrs[i]? = some p ∧ low ≤ p ∧ p + (strings[i].length + 1) ≤ top := by
  induction h generalizing i with
  | nil top => simp at hi
  | @cons va low s strings ptrs hlay ih =>
    have hlow := hlay.low_le
    cases i with
    | zero => exact ⟨va, rfl, hlow, le_rfl⟩
    | succ i =>
      obtain ⟨p, hp, hin⟩ := ih (i := i) (by simpa using hi)
      refine ⟨p, hp, hin.1, ?_⟩
      simp only [List.getElem_cons_succ]
      omega

theorem Layout.keep {ram ram' : ℕ → ℕ → UInt8} {lo hi : ℕ} (h : Layout top strings ptrs low)
    (hreads : List.Forall₂ (fun p s => Reads F ram p (s ++ [0])) ptrs strings)
    (hc : ChangesWithin F lo hi ram ram') (hhi : hi ≤ low) (hlow : userStackBase ≤ low)
    (htop : top ≤ userStackTop) :
    List.Forall₂ (fun p s => Reads F ram' p (s ++ [0])) ptrs strings := by
  induction h with
  | nil top => exact .nil
  | @cons va low s strings ptrs hlay ih =>
    have hle := hlay.low_le
    cases hreads with
    | cons hfirst hrest =>
      have hsrc : (s ++ [0]).length = s.length + 1 := by simp
      exact .cons (hfirst.keep hc (by omega) (by rw [hsrc]; omega) (.inr (by omega)))
        (ih hrest hhi hlow (by omega))

/-- Argument count, pointers and two zero words at `rsp`, and the strings above them. -/
structure Written (F : ℕ → ℕ) (strings : List Bytes) (rsp low : ℕ) (ptrs : List ℕ)
    (ram ram' : ℕ → ℕ → UInt8) : Prop where
  aligned : rsp % 16 = 0
  base : userStackBase ≤ rsp
  below : rsp + (8 + (strings.length + 2) * 8) ≤ low
  layout : Layout userStackTop strings ptrs low
  words : ∀ i (hi : i < (strings.length :: ptrs ++ [0, 0]).length),
    Reads F ram' (rsp + 8 * i) (leBytes 8 (strings.length :: ptrs ++ [0, 0])[i])
  texts : List.Forall₂ (fun p s => Reads F ram' p (s ++ [0])) ptrs strings
  keep : ∀ a, InStack a → ¬(rsp ≤ a ∧ a < rsp + (8 + (strings.length + 2) * 8)) →
    ¬(low ≤ a ∧ a < userStackTop) → stackByte F ram' a = stackByte F ram a
  others : ∀ f, (∀ k < userStackPages, F k ≠ f) → ram' f = ram f

theorem ArgList.room (hs : ArgList strings) :
    userStackBase + (argvBlob strings).length + 200 ≤ userStackTop := by
  have hlen := argvBlob_length_le hs.each
  have hfew := hs.few
  simp only [userStackTop, userStackPages, frameSize, argvStrMax, argvMax] at *
  omega

theorem ArgList.any_eq_false (hs : ArgList strings) :
    (strings.any fun s => s = [] ∨ argvStrMax < s.length) = false := by
  rw [List.any_eq_false]
  intro s hmem
  have harg := hs.each s hmem
  have hshort := harg.short
  simp only [decide_eq_true_eq, not_or]
  exact ⟨harg.nonempty, by omega⟩

theorem writeArgv_spec (hF : StackFrames pages F) (hs : ArgList strings) (ram : ℕ → ℕ → UInt8) :
    ∃ rsp ptrs low ram', writeArgv pages ram strings =
        (some ⟨UInt64.ofNat rsp, UInt64.ofNat strings.length, UInt64.ofNat (rsp + 8)⟩, ram') ∧
      Written F strings rsp low ptrs ram ram' := by
  have hroom := hs.room
  have hfew := hs.few
  obtain ⟨low, ptrs, ram₁, hstr, hlay, hch, hreads⟩ :=
    writeStrings_layout hF strings ram userStackTop (by omega) le_rfl
  have hlow := hlay.low_eq
  have hcount := hlay.length_eq
  have htable :
      8 + (strings.length + 2) * 8 ≤ low ∧ userStackBase + 16 + (8 + (strings.length + 2) * 8) ≤
        low := by
    simp only [argvMax, userStackBase] at *
    omega
  have hwords : (strings.length :: ptrs ++ [0, 0]).length = strings.length + 3 := by
    simp [hcount]
  obtain ⟨rsp, hrsp⟩ :
      ∃ rsp, rsp = low - (8 + (strings.length + 2) * 8) - (low - (8 + (strings.length + 2) * 8)) %
        16 :=
    ⟨_, rfl⟩
  obtain ⟨ram', hwrite, hch', hwreads⟩ :=
    writeWords_reads hF (strings.length :: ptrs ++ [0, 0]) ram₁ rsp (by omega)
      (by rw [hwords]; omega)
  rw [hwords] at hch'
  refine ⟨rsp, ptrs, low, ram', ?_, by omega, by omega, by omega, hlay, hwreads, ?_, ?_, ?_⟩
  · simp only [writeArgv]
    rw [if_neg (by rw [not_or]; exact ⟨hs.nonempty, by omega⟩), hs.any_eq_false,
      if_neg (by decide), hstr]
    simp only [← hrsp]
    rw [if_neg (by omega), if_neg (by omega)]
    rw [hwrite]
  · exact hlay.keep hreads hch' (by omega) (by omega) le_rfl
  · intro a ha hout hout'
    rw [hch'.stack a ha (by omega), hch.stack a ha hout']
  · intro f hf
    rw [hch'.others f hf, hch.others f hf]

section Words

variable {rsp : ℕ} {ram ram' : ℕ → ℕ → UInt8}

theorem Written.length_words (h : Written F strings rsp low ptrs ram ram') :
    (strings.length :: ptrs ++ [0, 0]).length = strings.length + 3 := by
  simp [h.layout.length_eq]

theorem Written.rsp_lt (h : Written F strings rsp low ptrs ram ram') : rsp + 8 < 2 ^ 63 := by
  have htop : userStackTop < 2 ^ 63 := by decide
  have hlow := h.layout.low_le
  have hbelow := h.below
  omega

theorem Written.word_lt (h : Written F strings rsp low ptrs ram ram') (hs : ArgList strings) :
    ∀ w ∈ strings.length :: ptrs ++ [0, 0], w < 2 ^ 64 := by
  have hfew := hs.few
  have htop : userStackTop < 2 ^ 63 := by decide
  intro w hw
  simp only [List.cons_append, List.mem_cons, List.mem_append, List.not_mem_nil, or_false, or_self]
    at hw
  rcases hw with rfl | hw | rfl
  · simp only [argvMax] at hfew
    omega
  · have hin := (h.layout.ptr_range w hw).2
    omega
  · decide

end Words

end Argv

/-- The arguments on the stack of an image whose memory read `read₀` before. -/
structure ArgvOnStack (read₀ read : ℕ → Option UInt8) (strings : List Bytes) (setup : ArgvSetup) :
    Prop where
  aligned : setup.rsp.toNat % 16 = 0
  argvPtr : setup.argvPtr.toNat = setup.rsp.toNat + 8
  argc : setup.argc.toNat = strings.length
  argv : readArgv read setup.argc.toNat setup.argvPtr.toNat = some strings
  null : readWord read (setup.argvPtr.toNat + 8 * setup.argc.toNat) = some 0
  layout : ∃ ptrs low, Layout userStackTop strings ptrs low ∧
    (∀ i < strings.length, readWord read (setup.argvPtr.toNat + 8 * i) = ptrs[i]?) ∧
    userStackBase ≤ setup.rsp.toNat ∧ setup.rsp.toNat + (8 + (strings.length + 2) * 8) ≤ low ∧
    ∀ a, ¬(setup.rsp.toNat ≤ a ∧ a < setup.rsp.toNat + (8 + (strings.length + 2) * 8)) →
      ¬(low ≤ a ∧ a < userStackTop) → read a = read₀ a

section Trip

variable {τ : Type} {lookup : τ → ℕ → Option Leaf} {s : LoadState τ} {all : Finset ℕ} {l4 : ℕ}
  {F : ℕ → ℕ} {bytes : Bytes} {phdrs : List ProgramHeader} {ram ram' : ℕ → ℕ → UInt8}

def StackMapped (lookup : τ → ℕ → Option Leaf) (s : LoadState τ) (F : ℕ → ℕ) : Prop :=
  ∀ k < userStackPages, ∃ leaf, lookup s.table (userStackBase + k * frameSize) = some leaf ∧
    leaf.frame = F k

theorem byteAt_stack (h : StackMapped lookup s F) {a : ℕ} (ha : InStack a) :
    byteAt lookup { s with ram := ram } a = some (stackByte F ram a) := by
  obtain ⟨hpage, hk⟩ := page_of_stack ha
  obtain ⟨leaf, hleaf, hframe⟩ := h _ hk
  simp only [byteAt, stackByte]
  rw [hpage, hleaf, Option.map_some, hframe]

theorem page_inStack {a k : ℕ} (hk : k < userStackPages)
    (h : a - a % frameSize = userStackBase + k * frameSize) : InStack a := by
  simp only [InStack, userStackTop, userStackBase, userStackPages, frameSize] at *
  omega

theorem byteAt_elsewhere (hb : Built lookup all l4 (imageSpecs bytes phdrs) s)
    (h : StackMapped lookup s F) (hothers : ∀ f, (∀ k < userStackPages, F k ≠ f) → ram' f = ram f)
    {a : ℕ} (ha : ¬InStack a) : byteAt lookup { s with ram := ram' } a = byteAt lookup { s with
      ram := ram } a := by
  simp only [byteAt]
  cases hleaf : lookup s.table (a - a % frameSize) with
  | none => rfl
  | some leaf =>
    have hne : ∀ k < userStackPages, F k ≠ leaf.frame := by
      intro k hk heq
      obtain ⟨leaf', hleaf', hframe⟩ := h k hk
      have hmem := hb.page_of_lookup hleaf'
      rw [hframe, heq] at hmem
      exact ha (page_inStack hk (hb.frame_inj (hb.page_of_lookup hleaf) hmem))
    simp only [Option.map_some, hothers leaf.frame hne]

theorem Reads.byteAt (h : StackMapped lookup s F) {a : ℕ} {bs : Bytes} (hr : Reads F ram a bs)
    (hlo : userStackBase ≤ a) (hhi : a + bs.length ≤ userStackTop) :
    ∀ i < bs.length, Task.byteAt lookup { s with ram := ram } (a + i) = some (bs.getD i 0) := by
  intro i hi
  rw [byteAt_stack h ⟨by omega, by omega⟩, hr i hi]

section Table

variable {strings : List Bytes} {rsp low : ℕ} {ptrs : List ℕ} {ram₀ : ℕ → ℕ → UInt8}

theorem Written.word (hw : Written F strings rsp low ptrs ram₀ ram) (h : StackMapped lookup s F)
    (hs : ArgList strings) (i : ℕ) (hi : i < (strings.length :: ptrs ++ [0, 0]).length) :
    readWord (byteAt lookup { s with ram := ram }) (rsp + 8 * i) =
      some (strings.length :: ptrs ++ [0, 0])[i] := by
  have hlen := hw.length_words
  have hbase := hw.base
  have hbelow := hw.below
  have hlow := hw.layout.low_le
  refine readWord_eq (hw.word_lt hs _ (List.getElem_mem hi)) ?_
  have hbytes := (hw.words i hi).byteAt h (by omega) (by rw [leBytes_length]; omega)
  rwa [leBytes_length] at hbytes

theorem Written.pointer (hw : Written F strings rsp low ptrs ram₀ ram) (h : StackMapped lookup s F)
    (hs : ArgList strings) (i : ℕ) (hi : i < strings.length) :
    readWord (byteAt lookup { s with ram := ram }) (rsp + 8 + 8 * i) = ptrs[i]? := by
  have hlen := hw.length_words
  have hlt : i < ptrs.length := by
    rw [hw.layout.length_eq]
    exact hi
  have hnext := hw.word h hs (i + 1) (by omega)
  rw [show rsp + 8 * (i + 1) = rsp + 8 + 8 * i by omega] at hnext
  rw [hnext, List.getElem?_eq_getElem hlt]
  simp [List.getElem_append_left hlt]

theorem Written.null (hw : Written F strings rsp low ptrs ram₀ ram) (h : StackMapped lookup s F)
    (hs : ArgList strings) :
    readWord (byteAt lookup { s with ram := ram }) (rsp + 8 + 8 * strings.length) = some 0 := by
  have hlen := hw.length_words
  have hnext := hw.word h hs (strings.length + 1) (by omega)
  rw [show rsp + 8 * (strings.length + 1) = rsp + 8 + 8 * strings.length by omega] at hnext
  rw [hnext]
  simp [← hw.layout.length_eq]

theorem Written.string (hw : Written F strings rsp low ptrs ram₀ ram) (h : StackMapped lookup s F)
    (hs : ArgList strings) (i : ℕ) (hi : i < strings.length) :
    ∃ p, ptrs[i]? = some p ∧
      cString (byteAt lookup { s with ram := ram }) (argvStrMax + 1) p = some strings[i] := by
  have harg := hs.each _ (List.getElem_mem hi)
  have hbase := hw.base
  have hbelow := hw.below
  obtain ⟨p, hp, hlow, htop⟩ := hw.layout.string_range hi
  have hlt : i < ptrs.length := by
    rw [hw.layout.length_eq]
    exact hi
  have hreads : Reads F ram ptrs[i] (strings[i] ++ [0]) :=
    (List.forall₂_iff_get.mp hw.texts).2 i hlt hi
  rw [List.getElem?_eq_getElem hlt] at hp
  obtain rfl := Option.some.inj hp
  refine ⟨ptrs[i], List.getElem?_eq_getElem hlt,
    cString_eq _ _ (Nat.lt_succ_of_le harg.short) harg.noNul ?_⟩
  exact hreads.byteAt h (by omega) (by simpa using htop)

theorem Written.elsewhere (hw : Written F strings rsp low ptrs ram₀ ram)
    (hb : Built lookup all l4 (imageSpecs bytes phdrs) s) (h : StackMapped lookup s F) {a : ℕ}
    (hout : ¬(rsp ≤ a ∧ a < rsp + (8 + (strings.length + 2) * 8)))
    (hout' : ¬(low ≤ a ∧ a < userStackTop)) :
    byteAt lookup { s with ram := ram } a = byteAt lookup { s with ram := ram₀ } a := by
  by_cases ha : InStack a
  · rw [byteAt_stack h ha, byteAt_stack h ha, hw.keep a ha hout hout']
  · exact byteAt_elsewhere hb h hw.others ha

end Table

theorem argvOnStack {strings : List Bytes} (hb : Built lookup all l4 (imageSpecs bytes phdrs) s)
    (hF : StackFrames s.pages F) (h : StackMapped lookup s F) (hs : ArgList strings)
    (ram : ℕ → ℕ → UInt8) : ∃ setup ram', writeArgv s.pages ram strings = (some setup, ram') ∧
      ArgvOnStack (byteAt lookup { s with ram := ram }) (byteAt lookup { s with ram := ram' })
        strings setup ∧ ∀ f, (∀ k < userStackPages, F k ≠ f) → ram' f = ram f := by
  obtain ⟨rsp, ptrs, low, ram', hwrite, hw⟩ := writeArgv_spec hF hs ram
  have hfew := hs.few
  have hlt := hw.rsp_lt
  have hrsp : (UInt64.ofNat rsp).toNat = rsp := by
    rw [UInt64.toNat_ofNat']
    omega
  have hptr : (UInt64.ofNat (rsp + 8)).toNat = rsp + 8 := by
    rw [UInt64.toNat_ofNat']
    omega
  have hargc : (UInt64.ofNat strings.length).toNat = strings.length := by
    rw [UInt64.toNat_ofNat']
    simp only [argvMax] at hfew
    omega
  refine ⟨_, ram', hwrite, ⟨?_, ?_, hargc, ?_, ?_, ptrs, low, hw.layout, ?_, ?_, ?_, ?_⟩, hw.others⟩
  · rw [hrsp, hw.aligned]
  · rw [hrsp, hptr]
  · rw [hargc, hptr]
    exact readArgv_eq (hw.pointer h hs) (hw.string h hs)
  · rw [hargc, hptr]
    exact hw.null h hs
  · rw [hptr]
    exact hw.pointer h hs
  · rw [hrsp]
    exact hw.base
  · rw [hrsp]
    exact hw.below
  · rw [hrsp]
    intro a hout hout'
    exact hw.elsewhere hb h hout hout'

end Trip

/-- Arguments survive the trip into a new process. The bound of the system call on the
blob is not needed. -/
theorem argv_survives {τ : Type} (m : PageMapper τ) (lookup : τ → ℕ → Option Leaf)
    (hm : m.Lawful lookup) (minimalParse : Bytes → Option ElfFile) (bytes : Bytes)
    (hlen : bytes.length < 2 ^ 63) (pmm : Pmm) (ram₀ : ℕ → ℕ → UInt8) (image : Image)
    (s : LoadState τ) (hload : load m minimalParse bytes pmm ram₀ = (.ok image, s))
    (ram : ℕ → ℕ → UInt8) : (∀ blob strings, parseArgvBlob blob = some strings ↔ ArgList strings ∧
      blob = argvBlob strings) ∧ ∀ strings, ArgList strings →
      ∃ setup ram', writeArgv image.pages ram strings = (some setup, ram') ∧
        ArgvOnStack (byteAt lookup { s with ram := ram }) (byteAt lookup { s with ram := ram' })
          strings setup ∧ ∀ f, f ∉ image.pages.map (·.2) → ram' f = ram f := by
  constructor
  · intro blob strings
    constructor
    · exact parseArgvBlob_some
    · rintro ⟨hs, rfl⟩
      exact parseArgvBlob_argvBlob hs
  · intro strings hs
    obtain ⟨file, phdrs, -, -, hpages, hb⟩ := load_ok hm hlen hload
    obtain ⟨F, hF, hmapped⟩ := exists_stackFrames hb
    obtain ⟨setup, ram', hwrite, hargv, hothers⟩ := argvOnStack hb hF hmapped hs ram
    rw [hpages]
    refine ⟨setup, ram', hwrite, hargv, ?_⟩
    intro f hf
    refine hothers f ?_
    rintro k hk rfl
    obtain ⟨leaf, hleaf, hframe⟩ := hmapped k hk
    rw [← hframe] at hf
    exact hf (List.mem_map_of_mem (hb.page_of_lookup hleaf))

theorem argv_survives_sample :
    ∃ image s setup ram', load PageTables.mapper parseElf64 (sampleElf 120 0x400078)
        (Pmm.init [⟨0, 0x18000, true⟩]) (fun _ _ => 0) = (.ok image, s) ∧
      ArgList [[0x73, 0x68], [0x2d, 0x6c]] ∧
      writeArgv image.pages s.ram [[0x73, 0x68], [0x2d, 0x6c]] = (some setup, ram') ∧
      ArgvOnStack (byteAt PageTables.leaf s) (byteAt PageTables.leaf { s with ram := ram' })
        [[0x73, 0x68], [0x2d, 0x6c]] setup := by
  have hs : ArgList [[0x73, 0x68], [0x2d, 0x6c]] := by
    refine ⟨by decide, by decide, ?_⟩
    intro a ha
    simp only [List.mem_cons, List.not_mem_nil, or_false] at ha
    rcases ha with rfl | rfl
    · exact ⟨by decide, by decide, by decide, by simp⟩
    · exact ⟨by decide, by decide, by decide, by simp⟩
  have hok : (load PageTables.mapper parseElf64 (sampleElf 120 0x400078)
    (Pmm.init [⟨0, 0x18000, true⟩]) (fun _ _ => 0)).1 ≠ .err := by decide +kernel
  have hsafe : (load PageTables.mapper parseElf64 (sampleElf 120 0x400078)
    (Pmm.init [⟨0, 0x18000, true⟩]) (fun _ _ => 0)).1 ≠ .panic := by decide +kernel
  rcases hload : load PageTables.mapper parseElf64 (sampleElf 120 0x400078)
    (Pmm.init [⟨0, 0x18000, true⟩]) (fun _ _ => 0) with ⟨image | _ | _, s⟩
  · obtain ⟨setup, ram', hwrite, hargv, -⟩ :=
      (argv_survives _ _ PageTables.mapper_lawful _ _ (by decide +kernel) _ _ _ _ hload s.ram).2 _
        hs
    exact ⟨image, s, setup, ram', rfl, hs, hwrite, hargv⟩
  · rw [hload] at hok
    exact absurd rfl hok
  · rw [hload] at hsafe
    exact absurd rfl hsafe

end CoeleoOs.Task
