import CoeleoOs.Lib.Ring
import CoeleoOs.Lib.Slot
import CoeleoOs.Sh.Line
import Mathlib.Data.List.Destutter
import Mathlib.Data.List.DropRight

/-!
# The history ring

The shell keeps the lines of its history in a ring of 128 slots that begins at a moving start.
The ring is the list of the last lines that were pushed, and the history of `Sh.Line`.
-/

namespace CoeleoOs.Sh
open CoeleoOs.Lib
open CoeleoOs.Task (Bytes)

structure HistRing where
  slots : Fin histCap → Slot UInt8 lineCap
  start : ℕ
  count : ℕ
  view : Option ℕ
  draft : Slot UInt8 lineCap
  start_lt : start < histCap
  count_le : count ≤ histCap

inductive HistCall
  | push (s : Bytes)
  | clear

def containsSubslice (haystack needle : Bytes) : Bool :=
  if needle = [] then true
  else if haystack.length < needle.length then false
  else (List.range (haystack.length - needle.length + 1)).any fun i =>
    (haystack.drop i).take needle.length = needle

namespace HistRing

def new : HistRing :=
  ⟨fun _ => .filled lineCap 0, 0, 0, none, .filled lineCap 0, by decide, Nat.zero_le _⟩

variable (r : HistRing)

def slot (i : ℕ) : Slot UInt8 lineCap := r.slots (Ring.cell histCap i)

def clear : HistRing := { r with
  count := 0
  start := 0
  view := none
  draft := ⟨r.draft.buf, 0, r.draft.buf_length, Nat.zero_le _⟩
  start_lt := by decide
  count_le := Nat.zero_le _ }

def getAt (idx : ℕ) : Bytes := if r.count ≤ idx then [] else (r.slot (r.start + idx)).text

def peekEntry (age : ℕ) : Option Bytes :=
  if r.count ≤ age then none else some (r.slot (r.start + r.count - 1 - age)).text

def get (age : ℕ) : Bytes :=
  if r.count ≤ age then [] else (r.slot (r.start + r.count - 1 - age)).text

def unview : HistRing := { r with view := none }

def push (s : Bytes) : HistRing :=
  let t := trimBytes s
  if h : t = [] ∨ lineCap < t.length then r.unview
  else
    have hfits : t.length ≤ lineCap := Nat.le_of_not_lt fun hlt => h (.inr hlt)
    if 0 < r.count ∧ (r.slot (r.start + r.count - 1)).text = t then r.unview
    else if hc : r.count < histCap then
      let i := Ring.cell histCap (r.start + r.count)
      { r with
        slots := Function.update r.slots i ((r.slots i).store t hfits)
        count := r.count + 1
        view := none
        count_le := hc }
    else
      let i := Ring.cell histCap r.start
      { r with
        slots := Function.update r.slots i ((r.slots i).store t hfits)
        start := (r.start + 1) % histCap
        view := none
        start_lt := Nat.mod_lt _ (by decide) }

def findMatch (query : Bytes) (startIdx : ℕ) : Option ℕ :=
  if query = [] ∨ r.count = 0 then none
  else
    (List.range (min startIdx (r.count - 1) + 1)).reverse.find? fun i =>
      containsSubslice (r.getAt i) query

def call : HistCall → HistRing
  | .push s => r.push s
  | .clear => r.clear

def slotText (s : Slot UInt8 lineCap) : LineText := ⟨s.text, s.text_length_le⟩

/-- The history of the line editor that the ring holds. -/
def abs : History where
  lines := (Ring.contents r.slots r.start r.count).map slotText
  view := r.view
  draft := slotText r.draft
  count_le := by
    rw [List.length_map, Ring.contents_length]
    exact r.count_le

def texts : List Bytes := (Ring.contents r.slots r.start r.count).map Slot.text

end HistRing

/-- The lines pushed since the history was last cleared. -/
def pushedLines (cs : List HistCall) : List Bytes :=
  cs.foldl (fun ls c =>
    match c with
    | .push s => ls ++ [s]
    | .clear => []) []

/-- The trimmed lines without the empty ones, those longer than a slot and immediate repetitions. -/
def keptLines (ls : List Bytes) : List Bytes :=
  ((ls.map trimBytes).filter fun t => t ≠ [] ∧ t.length ≤ lineCap).destutter (· ≠ ·)

/-- The indices up to `start` of the texts that contain the query. -/
def matching (texts : List Bytes) (q : Bytes) (start : ℕ) : Set ℕ :=
  {i | i ≤ start ∧ ∃ e ∈ texts[i]?, q <:+: e}

section Contains

variable {haystack needle : Bytes}

theorem containsSubslice_iff : containsSubslice haystack needle = true ↔ needle <:+: haystack := by
  rw [containsSubslice]
  split
  · rename_i hnil
    rw [hnil]
    exact iff_of_true rfl List.nil_infix
  split
  · rename_i hlt
    refine iff_of_false (by simp) fun h => ?_
    have := h.length_le
    omega
  rename_i hle
  rw [List.any_eq_true]
  constructor
  · rintro ⟨i, -, hi⟩
    rw [← of_decide_eq_true hi]
    exact ((List.take_prefix _ _).isInfix).trans (List.drop_suffix i haystack).isInfix
  · rintro ⟨pre, suf, rfl⟩
    refine ⟨pre.length, ?_, ?_⟩
    · simp only [List.length_append, List.mem_range]
      omega
    · rw [List.append_assoc, List.drop_left, List.take_left, decide_eq_true_eq]

end Contains

section Last

variable {α : Type*} {l : List α} {n : ℕ}

theorem rtake_rtake_concat (l : List α) (x : α) (n : ℕ) :
    (l.rtake (n + 1) ++ [x]).rtake (n + 1) = (l ++ [x]).rtake (n + 1) := by
  rw [List.rtake_concat_succ, List.rtake_concat_succ]
  congr 1
  rw [List.rtake_eq_reverse_take_reverse, List.rtake_eq_reverse_take_reverse,
    List.rtake_eq_reverse_take_reverse, List.reverse_reverse, List.take_take,
    min_eq_left (Nat.le_succ n)]

theorem rtake_of_le (h : l.length ≤ n) : l.rtake n = l := by
  rw [List.rtake, Nat.sub_eq_zero_of_le h, List.drop_zero]

theorem rtake_getLast? (l : List α) (n : ℕ) : (l.rtake (n + 1)).getLast? = l.getLast? := by
  rw [List.rtake_eq_reverse_take_reverse, List.getLast?_reverse, List.head?_take,
    if_neg (Nat.succ_ne_zero n), List.head?_reverse]

theorem destutter_concat [DecidableEq α] (l : List α) (x : α) : (l ++ [x]).destutter (· ≠ ·) =
    if (l.destutter (· ≠ ·)).getLast? = some x then l.destutter (· ≠ ·)
      else l.destutter (· ≠ ·) ++ [x] := by
  have htail : ∀ (a : α) (l : List α), (l ++ [x]).destutter' (· ≠ ·) a =
      if (l.destutter' (· ≠ ·) a).getLast? = some x then l.destutter' (· ≠ ·) a
        else l.destutter' (· ≠ ·) a ++ [x] := by
    intro a l
    induction l generalizing a with
    | nil =>
      by_cases hx : a = x
      · simp [hx]
      · simp [hx]
    | cons b l ih =>
      by_cases hb : a = b
      · rw [List.cons_append, List.destutter'_cons_neg _ (by simpa using hb),
          List.destutter'_cons_neg _ (by simpa using hb), ih]
      · have hne : l.destutter' (· ≠ ·) b ≠ [] := List.destutter'_ne_nil _ _
        rw [List.cons_append, List.destutter'_cons_pos _ (by simpa using hb),
          List.destutter'_cons_pos _ (by simpa using hb), ih, List.getLast?_cons_of_ne_nil hne]
        split
        · rfl
        · rfl
  cases l with
  | nil => rfl
  | cons a l => exact htail a l

end Last

namespace HistRing

variable {r : HistRing} {s q : Bytes} {i a : ℕ}

theorem texts_length (r : HistRing) : r.texts.length = r.count := by
  rw [texts, List.length_map, Ring.contents_length]

theorem texts_getElem? (r : HistRing) (i : ℕ) :
    r.texts[i]? = if i < r.count then some (r.slot (r.start + i)).text else none := by
  rw [texts, Ring.contents, List.map_map, List.getElem?_map]
  split
  · rename_i hi
    rw [List.getElem?_range hi]
    rfl
  · rename_i hi
    rw [List.getElem?_eq_none (by simpa using hi)]
    rfl

theorem texts_reverse (r : HistRing) (a : ℕ) :
    r.texts.reverse[a]? = if a < r.count then some (r.slot (r.start + r.count - 1 - a)).text
      else none := by
  by_cases ha : a < r.count
  · have hidx : r.start + (r.count - 1 - a) = r.start + r.count - 1 - a := by omega
    rw [List.getElem?_reverse (by rwa [texts_length]), texts_length, texts_getElem?,
      if_pos (by omega), if_pos ha, hidx]
  · rw [List.getElem?_eq_none (by rw [List.length_reverse, texts_length]; omega), if_neg ha]

theorem getAt_eq (r : HistRing) (i : ℕ) : r.getAt i = r.texts[i]?.getD [] := by
  rw [getAt, texts_getElem?]
  by_cases hi : i < r.count
  · rw [if_neg (Nat.not_le_of_lt hi), if_pos hi, Option.getD_some]
  · rw [if_pos (Nat.le_of_not_lt hi), if_neg hi, Option.getD_none]

theorem peekEntry_eq (r : HistRing) (a : ℕ) : r.peekEntry a = r.texts.reverse[a]? := by
  rw [peekEntry, texts_reverse]
  by_cases ha : a < r.count
  · rw [if_neg (Nat.not_le_of_lt ha), if_pos ha]
  · rw [if_pos (Nat.le_of_not_lt ha), if_neg ha]

theorem get_eq (r : HistRing) (a : ℕ) : r.get a = r.texts.reverse[a]?.getD [] := by
  rw [get, texts_reverse]
  by_cases ha : a < r.count
  · rw [if_neg (Nat.not_le_of_lt ha), if_pos ha, Option.getD_some]
  · rw [if_pos (Nat.le_of_not_lt ha), if_neg ha, Option.getD_none]

theorem newest_iff (r : HistRing) (t : Bytes) :
    0 < r.count ∧ (r.slot (r.start + r.count - 1)).text = t ↔ r.texts.getLast? = some t := by
  rw [← List.head?_reverse, List.head?_eq_getElem?, texts_reverse, Nat.sub_zero]
  split
  · rename_i hpos
    rw [and_iff_right hpos, Option.some.injEq]
  · rename_i hpos
    exact iff_of_false (fun h => hpos h.1) nofun

theorem matching_iff (r : HistRing) {start : ℕ} :
    i ∈ matching r.texts q start ↔ i ≤ start ∧ i < r.count ∧ q <:+: r.getAt i := by
  rw [matching, Set.mem_ofPred_eq, getAt_eq, texts_getElem?]
  refine and_congr_right fun _ => ?_
  split
  · rename_i hi
    simp [hi]
  · rename_i hi
    simp [hi]

theorem contents_grow {β : Type*} (buf : Fin histCap → β) (start count : ℕ) (x : β)
    (h : count < histCap) :
    Ring.contents (Function.update buf (Ring.cell histCap (start + count)) x) start (count + 1) =
      Ring.contents buf start count ++ [x] :=
  Ring.contents_store buf start count [x] h

theorem contents_turn {β : Type*} (buf : Fin histCap → β) (start : ℕ) {count : ℕ} (x : β)
    (h : count = histCap) :
    Ring.contents (Function.update buf (Ring.cell histCap start) x) ((start + 1) % histCap) count =
      (Ring.contents buf start count).drop 1 ++ [x] := by
  have hcell : Ring.cell histCap start = Ring.cell histCap (start + 1 + 127) := by
    apply Fin.ext
    change start % 128 = (start + 1 + 127) % 128
    omega
  have hfront : Ring.contents buf start histCap = Ring.contents buf start 1 ++
      Ring.contents buf (start + 1) 127 :=
    Ring.contents_add buf start 1 127
  rw [h, Ring.contents_mod, hcell, contents_grow buf (start + 1) 127 x (by decide), hfront,
    List.drop_left' (Ring.contents_length buf start 1)]

theorem push_texts (r : HistRing) (s : Bytes) : (r.push s).texts =
    if trimBytes s = [] ∨ lineCap < (trimBytes s).length ∨ r.texts.getLast? = some (trimBytes s)
      then r.texts else (r.texts ++ [trimBytes s]).rtake histCap := by
  rw [push]
  dsimp only
  split
  · rename_i hskip
    rw [if_pos (hskip.elim .inl fun h => .inr (.inl h))]
    rfl
  rename_i hkeep
  rw [not_or] at hkeep
  split
  · rename_i hsame
    rw [if_pos (.inr (.inr ((r.newest_iff _).mp hsame)))]
    rfl
  rename_i hnew
  rw [if_neg (not_or.mpr ⟨hkeep.1, not_or.mpr ⟨hkeep.2, fun h => hnew ((r.newest_iff _).mpr h)⟩⟩)]
  split
  · rename_i hroom
    have hlen : (r.texts ++ [trimBytes s]).length ≤ histCap := by
      rw [List.length_append, texts_length]
      exact hroom
    rw [rtake_of_le hlen, texts, contents_grow _ _ _ _ hroom, List.map_append, List.map_singleton,
      Slot.text_store]
    rfl
  · rename_i hfull
    have hcount : r.count = histCap := Nat.le_antisymm r.count_le (Nat.le_of_not_lt hfull)
    have hlen : r.texts.length = histCap := r.texts_length.trans hcount
    have hlast : (r.texts ++ [trimBytes s]).rtake histCap = r.texts.drop 1 ++ [trimBytes s] := by
      rw [List.rtake, List.length_append, hlen, List.length_singleton, Nat.add_sub_cancel_left,
        List.drop_append_of_le_length (by rw [hlen]; decide)]
    rw [hlast, texts, contents_turn _ _ _ hcount, List.map_append, List.map_singleton,
      Slot.text_store, List.map_drop]
    rfl

theorem find?_range_reverse {p : ℕ → Bool} (n : ℕ) : (List.range n).reverse.find? p = some i ↔
    (i < n ∧ p i = true) ∧ ∀ j, i < j → j < n → ¬p j = true := by
  induction n with
  | zero => exact iff_of_false nofun fun h => Nat.not_lt_zero i h.1.1
  | succ n ih =>
    rw [List.range_succ, List.reverse_append, List.reverse_singleton, List.singleton_append,
      List.find?_cons]
    by_cases hp : p n = true
    · rw [hp]
      constructor
      · intro h
        obtain rfl := Option.some.inj h
        exact ⟨⟨Nat.lt_succ_self n, hp⟩, fun j hj hn => absurd hn (by omega)⟩
      · intro h
        have hi : i = n := by
          by_contra hne
          exact h.2 n (by omega) (Nat.lt_succ_self n) hp
        rw [hi]
    · rw [Bool.eq_false_of_not_eq_true hp]
      refine ih.trans ⟨fun h => ⟨⟨by omega, h.1.2⟩, fun j hj hn hpj => ?_⟩, fun h =>
        ⟨⟨?_, h.1.2⟩, fun j hj hn => h.2 j hj (by omega)⟩⟩
      · rcases Nat.lt_succ_iff_lt_or_eq.mp hn with hlt | rfl
        · exact h.2 j hj hlt hpj
        · exact hp hpj
      · have hne : i ≠ n := fun he => hp (he ▸ h.1.2)
        omega

theorem findMatch_some (hq : q ≠ []) (start : ℕ) :
    r.findMatch q start = some i ↔ IsGreatest (matching r.texts q start) i := by
  rw [findMatch]
  by_cases hcount : r.count = 0
  · rw [if_pos (.inr hcount)]
    refine iff_of_false nofun fun h => ?_
    have := (r.matching_iff.mp h.1).2.1
    omega
  rw [if_neg (not_or.mpr ⟨hq, hcount⟩), find?_range_reverse]
  simp only [containsSubslice_iff]
  constructor
  · rintro ⟨⟨hlt, hi⟩, hlater⟩
    refine ⟨r.matching_iff.mpr ⟨by omega, by omega, hi⟩, fun j hj => ?_⟩
    obtain ⟨hs, hc, hq⟩ := r.matching_iff.mp hj
    by_contra hij
    exact hlater j (Nat.lt_of_not_le hij) (by omega) hq
  · rintro ⟨hi, hgreatest⟩
    obtain ⟨hs, hc, hq⟩ := r.matching_iff.mp hi
    refine ⟨⟨by omega, hq⟩, fun j hj hlt hqj => ?_⟩
    exact absurd (hgreatest (r.matching_iff.mpr ⟨by omega, by omega, hqj⟩)) (Nat.not_le_of_lt hj)

theorem findMatch_none (hq : q ≠ []) (start : ℕ) :
    r.findMatch q start = none ↔ matching r.texts q start = ∅ := by
  rw [findMatch, Set.eq_empty_iff_forall_notMem]
  by_cases hcount : r.count = 0
  · rw [if_pos (.inr hcount)]
    refine iff_of_true rfl fun j hj => ?_
    have := (r.matching_iff.mp hj).2.1
    omega
  rw [if_neg (not_or.mpr ⟨hq, hcount⟩), List.find?_eq_none]
  simp only [containsSubslice_iff, List.mem_reverse, List.mem_range, matching_iff]
  exact ⟨fun h j hj => h j (by omega) hj.2.2, fun h j hj hq => h j ⟨by omega, by omega, hq⟩⟩

section Abs

theorem abs_texts (r : HistRing) : r.abs.lines.map Subtype.val = r.texts := List.map_map

theorem abs_length (r : HistRing) : r.abs.lines.length = r.count := by
  rw [abs, List.length_map, Ring.contents_length]

theorem abs_lines_eq_nil (r : HistRing) : r.abs.lines = [] ↔ r.count = 0 := by
  rw [← List.length_eq_zero_iff, abs_length]

theorem getD_val {o : Option LineText} : (o.getD noText).1 = (o.map Subtype.val).getD [] := by
  cases o with
  | none => rfl
  | some t => rfl

theorem abs_get (r : HistRing) (a : ℕ) : (r.abs.get a).1 = r.get a := by
  rw [History.get, getD_val, ← List.getElem?_map, List.map_reverse, abs_texts, get_eq]

theorem abs_getAt (r : HistRing) (i : ℕ) : (r.abs.getAt i).1 = r.getAt i := by
  rw [History.getAt, getD_val, ← List.getElem?_map, abs_texts, getAt_eq]

theorem abs_findMatch (r : HistRing) (q : Bytes) (start : ℕ) :
    r.abs.findMatch q start = r.findMatch q start := by
  simp only [History.findMatch, findMatch, abs_lines_eq_nil, abs_length, abs_getAt]
  refine if_congr Iff.rfl rfl (congrArg (fun p => List.find? p _) (funext fun i => ?_))
  rw [Bool.eq_iff_iff, decide_eq_true_iff, containsSubslice_iff]

theorem history_ext {h h' : History} (ht : h.lines.map Subtype.val = h'.lines.map Subtype.val)
    (hv : h.view = h'.view) (hd : h.draft.1 = h'.draft.1) : h = h' := by
  obtain ⟨lines, view, draft, hcount⟩ := h
  obtain ⟨lines', view', draft', hcount'⟩ := h'
  obtain rfl := Subtype.val_injective.list_map ht
  obtain rfl : view = view' := hv
  obtain rfl : draft = draft' := Subtype.ext hd
  rfl

theorem abs_new : new.abs = History.new := history_ext rfl rfl rfl

theorem push_view (r : HistRing) (s : Bytes) :
    (r.push s).view = none ∧ (r.push s).draft = r.draft := by
  rw [push]
  dsimp only
  split
  · exact ⟨rfl, rfl⟩
  split
  · exact ⟨rfl, rfl⟩
  split
  · exact ⟨rfl, rfl⟩
  · exact ⟨rfl, rfl⟩

theorem abs_push (r : HistRing) (s : LineText) : (r.push s.1).abs = r.abs.push s := by
  have hlast : r.abs.lines.getLast? = some ⟨trimBytes s.1, (trimBytes_length s.1).trans s.2⟩ ↔
      r.texts.getLast? = some (trimBytes s.1) := by
    rw [← abs_texts, List.getLast?_map]
    cases r.abs.lines.getLast? with
    | none => exact iff_of_false nofun nofun
    | some t => simp [Subtype.ext_iff]
  have hfits : ¬lineCap < (trimBytes s.1).length :=
    Nat.not_lt_of_le ((trimBytes_length s.1).trans s.2)
  obtain ⟨hview, hdraft⟩ := r.push_view s.1
  have hdraft' : (r.push s.1).abs.draft.1 = r.abs.draft.1 := congrArg Slot.text hdraft
  rw [History.push]
  dsimp only
  by_cases hnil : trimBytes s.1 = []
  · rw [if_pos hnil]
    refine history_ext ?_ hview hdraft'
    rw [abs_texts, push_texts, if_pos (.inl hnil)]
    exact r.abs_texts.symm
  rw [if_neg hnil]
  by_cases hsame : r.texts.getLast? = some (trimBytes s.1)
  · rw [if_pos (hlast.mpr hsame)]
    refine history_ext ?_ hview hdraft'
    rw [abs_texts, push_texts, if_pos (.inr (.inr hsame))]
    exact r.abs_texts.symm
  rw [if_neg fun h => hsame (hlast.mp h)]
  refine history_ext ?_ hview hdraft'
  rw [abs_texts, push_texts, if_neg (not_or.mpr ⟨hnil, not_or.mpr ⟨hfits, hsame⟩⟩), List.map_append,
    List.map_singleton, abs_length]
  by_cases hroom : r.count < histCap
  · rw [if_pos hroom, abs_texts, rtake_of_le]
    rw [List.length_append, texts_length]
    exact hroom
  · have hfull : r.texts.length = histCap :=
      r.texts_length.trans (Nat.le_antisymm r.count_le (Nat.le_of_not_lt hroom))
    rw [if_neg hroom, List.map_drop, abs_texts, List.rtake, List.length_append, hfull,
      List.length_singleton, Nat.add_sub_cancel_left,
      List.drop_append_of_le_length (by rw [hfull]; decide)]

end Abs

end HistRing

section Kept

variable {ls : List Bytes} {s : Bytes}

theorem pushedLines_push (cs : List HistCall) (s : Bytes) :
    pushedLines (cs ++ [.push s]) = pushedLines cs ++ [s] :=
  List.foldl_append

theorem pushedLines_clear (cs : List HistCall) : pushedLines (cs ++ [.clear]) = [] :=
  List.foldl_append

theorem keptLines_concat (ls : List Bytes) (s : Bytes) : keptLines (ls ++ [s]) =
    if trimBytes s = [] ∨ lineCap < (trimBytes s).length ∨ (keptLines ls).getLast? =
      some (trimBytes s) then keptLines ls else keptLines ls ++ [trimBytes s] := by
  rw [keptLines, List.map_append, List.map_singleton, List.filter_append]
  by_cases hkeep : trimBytes s ≠ [] ∧ (trimBytes s).length ≤ lineCap
  · rw [List.filter_cons_of_pos (by simpa using hkeep), List.filter_nil, destutter_concat]
    have hskip : ¬(trimBytes s = [] ∨ lineCap < (trimBytes s).length) :=
      fun h => h.elim hkeep.1 (Nat.not_lt_of_le hkeep.2)
    simp only [← or_assoc, hskip, false_or, keptLines]
  · rw [List.filter_cons_of_neg (by simpa using hkeep), List.filter_nil, List.append_nil, if_pos]
    · rfl
    · rw [← or_assoc]
      refine .inl ?_
      by_contra hor
      rw [not_or, Nat.not_lt] at hor
      exact hkeep hor

end Kept

theorem ring_texts (cs : List HistCall) :
    (cs.foldl HistRing.call HistRing.new).texts = (keptLines (pushedLines cs)).rtake histCap := by
  induction cs using List.reverseRecOn with
  | nil => rfl
  | append_singleton cs c ih =>
    rw [List.foldl_append, List.foldl_cons, List.foldl_nil]
    cases c with
    | clear =>
      rw [pushedLines_clear]
      rfl
    | push s =>
      rw [pushedLines_push, keptLines_concat, HistRing.call, HistRing.push_texts, ih,
        rtake_getLast?]
      split
      · rfl
      · exact rtake_rtake_concat _ _ _

theorem ring_last_lines (cs : List HistCall) :
    let r := cs.foldl HistRing.call HistRing.new
    let ls := (keptLines (pushedLines cs)).rtake histCap
    r.count = ls.length ∧ ls.length ≤ histCap ∧ (∀ i, r.getAt i = ls[i]?.getD []) ∧
      (∀ a, r.get a = ls.reverse[a]?.getD [] ∧ r.peekEntry a = ls.reverse[a]?) ∧
      (∀ i < r.count, r.getAt i = r.get (r.count - 1 - i)) ∧
      ∀ q ≠ [], ∀ s, (∀ i, r.findMatch q s = some i ↔ IsGreatest (matching ls q s) i) ∧
        (r.findMatch q s = none ↔ matching ls q s = ∅) := by
  intro r ls
  have htexts : r.texts = ls := ring_texts cs
  have hcount : r.count = ls.length := htexts ▸ r.texts_length.symm
  rw [← htexts]
  refine ⟨r.texts_length.symm, r.texts_length.trans_le r.count_le, r.getAt_eq,
    fun a => ⟨r.get_eq a, r.peekEntry_eq a⟩, ?_, fun q hq s =>
      ⟨fun i => HistRing.findMatch_some hq s, HistRing.findMatch_none hq s⟩⟩
  intro i hi
  rw [HistRing.getAt_eq, HistRing.get_eq, List.getElem?_reverse (by rw [r.texts_length]; omega),
    r.texts_length]
  congr 3
  omega

/-- A line that is longer than a slot leaves no entry. -/
theorem ring_last_lines_long : ¬∀ cs : List HistCall, (cs.foldl HistRing.call HistRing.new).texts =
    ((((pushedLines cs).map trimBytes).filter (· ≠ [])).destutter (· ≠ ·)).rtake histCap := by
  intro h
  have hlong := h [.push (List.replicate 129 0x61)]
  rw [ring_texts] at hlong
  revert hlong
  decide +kernel

end CoeleoOs.Sh
