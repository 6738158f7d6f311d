import CoeleoOs.Ui.Deco

/-!
# Titles that do not fit

`elide_title_px` measures the bytes of a title one by one and cuts before the first one that
does not fit. The cut is a text exactly if no character has its first byte before it and its
last one behind it.
-/

namespace CoeleoOs.Ui
open CoeleoOs.Lib.Text

namespace Font

variable (font : Font)

def width (bs : List UInt8) : ℕ := (bs.map font.advance).sum

def charsWidth (s : List Char) : ℕ := (s.map fun c => font.advance (charCode c)).sum

/-- What the build makes of the font: no glyph has the width 0, and none is wider than the
glyphs that stand for the bytes of its character. -/
structure Sound : Prop where
  pos : ∀ b, 1 ≤ font.advance b
  wide : ∀ c, font.advance (charCode c) ≤ font.width (String.utf8EncodeChar c)

theorem width_append (a b : List UInt8) : font.width (a ++ b) = font.width a + font.width b := by
  rw [width, List.map_append, List.sum_append, width, width]

theorem utf8_cons (c : Char) (s : List Char) : utf8 (c :: s) = String.utf8EncodeChar c ++ utf8 s :=
  List.flatMap_cons

theorem utf8_singleton (c : Char) : utf8 [c] = String.utf8EncodeChar c := List.append_nil _

theorem width_utf8_cons (c : Char) (s : List Char) :
    font.width (utf8 (c :: s)) = font.width (String.utf8EncodeChar c) + font.width (utf8 s) := by
  rw [utf8_cons, width_append]

theorem foldl_satAdd (l : List ℕ) (n : ℕ) (h : n ≤ 2 ^ 32 - 1) :
    l.foldl satAdd n = min (n + l.sum) (2 ^ 32 - 1) := by
  induction l generalizing n with
  | nil =>
    rw [List.foldl_nil, List.sum_nil]
    omega
  | cons a l ih =>
    rw [List.foldl_cons, ih (satAdd n a) (Nat.min_le_right ..), List.sum_cons, satAdd]
    omega

theorem textWidth_eq (s : List Char) : font.textWidth s = min (font.charsWidth s) (2 ^ 32 - 1) := by
  rw [textWidth, foldl_satAdd _ 0 (Nat.zero_le _), Nat.zero_add, charsWidth]

theorem textWidth_append_le (s t : List Char) :
    font.textWidth (s ++ t) ≤ font.charsWidth s + font.textWidth t := by
  rw [textWidth_eq, textWidth_eq, charsWidth, List.map_append, List.sum_append]
  change min (font.charsWidth s + font.charsWidth t) _ ≤ _
  omega

variable {font}

theorem Sound.charsWidth_le (h : font.Sound) (s : List Char) :
    font.charsWidth s ≤ font.width (utf8 s) := by
  induction s with
  | nil => exact Nat.le_refl _
  | cons c s ih =>
    rw [width_utf8_cons, charsWidth, List.map_cons, List.sum_cons]
    exact Nat.add_le_add (h.wide c) ih

theorem Sound.eq_nil (h : font.Sound) {s : List Char} (hs : font.textWidth s = 0) : s = [] := by
  cases s with
  | nil => rfl
  | cons c s =>
    have hpos := h.pos (charCode c)
    rw [textWidth_eq, charsWidth, List.map_cons, List.sum_cons] at hs
    omega

end Font

section Fitting

variable {font : Font} {budget w : ℕ}

theorem fitting_append {a : List UInt8} (b : List UInt8) (hlt : budget < 2 ^ 32 - 1)
    (h : w + font.width a ≤ budget) :
    fitting font budget (a ++ b) w = a.length + fitting font budget b (w + font.width a) := by
  induction a generalizing w with
  | nil =>
    rw [List.nil_append, List.length_nil, Nat.zero_add]
    rfl
  | cons x a ih =>
    have hsum : font.width (x :: a) = font.advance x + font.width a := by
      rw [Font.width, List.map_cons, List.sum_cons, Font.width]
    have hadd : satAdd w (font.advance x) = w + font.advance x := by
      rw [satAdd]
      omega
    rw [List.cons_append, fitting, hadd, if_neg (by omega), ih (by omega), hsum, List.length_cons,
      ← Nat.add_assoc]
    omega

theorem fitting_lt {a : List UInt8} (b : List UInt8) (hlt : budget < 2 ^ 32 - 1) (hw : w ≤ budget)
    (h : budget < w + font.width a) : fitting font budget (a ++ b) w < a.length := by
  induction a generalizing w with
  | nil =>
    have hnil : font.width [] = 0 := rfl
    omega
  | cons x a ih =>
    have hsum : font.width (x :: a) = font.advance x + font.width a := by
      rw [Font.width, List.map_cons, List.sum_cons, Font.width]
    rw [List.cons_append, fitting, List.length_cons]
    split
    · exact Nat.succ_pos _
    · next hfits =>
      have hadd : satAdd w (font.advance x) = w + font.advance x := by
        rw [satAdd] at hfits ⊢
        omega
      rw [hadd] at hfits ⊢
      exact Nat.succ_lt_succ (ih (by omega) (by omega))

theorem fitting_pos {x : UInt8} (bs : List UInt8) (hlt : budget < 2 ^ 32 - 1) :
    0 < fitting font budget (x :: bs) w ↔ w + font.advance x ≤ budget := by
  rw [fitting]
  split
  · next h =>
    rw [satAdd] at h
    omega
  · next h =>
    rw [satAdd] at h
    omega

end Fitting

/-- A character whose first byte fits the budget fits it whole. -/
def CutsWhole (font : Font) (budget w : ℕ) (s : List Char) : Prop :=
  ∀ p c q, s = p ++ c :: q → w + font.width (utf8 p ++ (String.utf8EncodeChar c).take 1) ≤ budget →
    w + font.width (utf8 (p ++ [c])) ≤ budget

section Cut

variable {font : Font} {budget w : ℕ}

theorem cutsWhole_cons_fits {c : Char} {s : List Char}
    (h : w + font.width (String.utf8EncodeChar c) ≤ budget) : CutsWhole font budget w (c :: s) ↔
    CutsWhole font budget (w + font.width (String.utf8EncodeChar c)) s := by
  constructor
  · intro hwhole p d q hs hlead
    have hcons := hwhole (c :: p) d q (by rw [hs, List.cons_append])
    rw [List.cons_append, Font.width_utf8_cons, Font.utf8_cons, List.append_assoc,
      Font.width_append, ← Nat.add_assoc, ← Nat.add_assoc] at hcons
    exact hcons hlead
  · intro hwhole p d q hs hlead
    cases p with
    | nil =>
      obtain ⟨rfl, rfl⟩ := List.cons.inj hs
      rwa [List.nil_append, Font.utf8_cons, Font.width_append, ← Nat.add_assoc]
    | cons e p =>
      obtain ⟨rfl, hrest⟩ := List.cons.inj hs
      rw [Font.utf8_cons, List.append_assoc, Font.width_append, ← Nat.add_assoc] at hlead
      rw [List.cons_append, Font.width_utf8_cons, ← Nat.add_assoc]
      exact hwhole p d q hrest hlead

theorem cutsWhole_cons_stop {c : Char} {s : List Char}
    (h : budget < w + font.width (String.utf8EncodeChar c)) : CutsWhole font budget w (c :: s) ↔
    budget < w + font.width ((String.utf8EncodeChar c).take 1) := by
  constructor
  · intro hwhole
    by_contra hfits
    have hall := hwhole [] c s rfl (by simpa [utf8] using Nat.le_of_not_lt hfits)
    rw [List.nil_append, Font.utf8_cons, Font.width_append] at hall
    omega
  · intro hlead p d q hs hfits
    cases p with
    | nil =>
      obtain ⟨rfl, rfl⟩ := List.cons.inj hs
      rw [show utf8 [] = [] from rfl, List.nil_append] at hfits
      omega
    | cons e p =>
      obtain ⟨rfl, -⟩ := List.cons.inj hs
      rw [Font.utf8_cons, List.append_assoc, Font.width_append] at hfits
      omega

theorem cut_text_iff (hlt : budget < 2 ^ 32 - 1) (hw : w ≤ budget) (s : List Char) :
    (∃ p, utf8 p = (utf8 s).take (fitting font budget (utf8 s) w)) ↔ CutsWhole font budget w s := by
  induction s generalizing w with
  | nil =>
    refine ⟨fun _ p c q hs => ?_, fun _ => ⟨[], List.take_nil.symm⟩⟩
    exact absurd hs (by simp)
  | cons c s ih =>
    rw [Font.utf8_cons]
    by_cases hfits : w + font.width (String.utf8EncodeChar c) ≤ budget
    · rw [cutsWhole_cons_fits hfits, ← ih hfits, fitting_append _ hlt hfits,
        List.take_length_add_append]
      constructor
      · rintro ⟨p, hp⟩
        have hpre :
            utf8 [c] ++ (utf8 s).take (fitting font budget (utf8 s)
              (w + font.width (String.utf8EncodeChar c))) = utf8 p := by
          rw [hp, Font.utf8_singleton]
        obtain ⟨u, -, hu⟩ := utf8_prefix hpre
        exact ⟨u, hu.symm⟩
      · rintro ⟨p, hp⟩
        exact ⟨c :: p, by rw [Font.utf8_cons, hp]⟩
    · have hstop : budget < w + font.width (String.utf8EncodeChar c) := Nat.lt_of_not_le hfits
      have hn := fitting_lt (utf8 s) hlt hw hstop
      rw [cutsWhole_cons_stop hstop, List.take_append_of_le_length (Nat.le_of_lt hn)]
      obtain ⟨x, xs, henc⟩ := List.exists_cons_of_length_pos (Nat.zero_lt_of_lt hn)
      have hlead : 0 < fitting font budget (x :: (xs ++ utf8 s)) w ↔ w + font.advance x ≤ budget :=
        fitting_pos _ hlt
      have hone : font.width ((x :: xs).take 1) = font.advance x := by
        simp [Font.width]
      rw [henc] at hn ⊢
      rw [hone]
      rw [← List.cons_append] at hlead
      constructor
      · rintro ⟨p, hp⟩
        by_contra hle
        have hpos := hlead.mpr (Nat.le_of_not_lt hle)
        have hpre :
            utf8 p ++ (x :: xs).drop (fitting font budget (x :: xs ++ utf8 s) w) = utf8 [c] := by
          rw [hp, List.take_append_drop, Font.utf8_singleton, henc]
        obtain ⟨u, hu, -⟩ := utf8_prefix hpre
        have hlen := congrArg List.length hp
        rw [List.length_take, Nat.min_eq_left (Nat.le_of_lt hn)] at hlen
        cases p with
        | nil =>
          have hzero : (utf8 []).length = 0 := rfl
          omega
        | cons d p =>
          obtain ⟨rfl, hnil⟩ := List.cons.inj hu
          obtain rfl := (List.append_eq_nil_iff.mp hnil.symm).1
          rw [Font.utf8_cons, List.length_append, henc] at hlen
          omega
      · intro hgt
        have hzero : fitting font budget (x :: xs ++ utf8 s) w = 0 := by
          by_contra hne
          have := hlead.mp (Nat.pos_of_ne_zero hne)
          omega
        exact ⟨[], by rw [hzero]; rfl⟩

theorem width_take_fitting (hlt : budget < 2 ^ 32 - 1) (hw : w ≤ budget) (bs : List UInt8) :
    w + font.width (bs.take (fitting font budget bs w)) ≤ budget := by
  induction bs generalizing w with
  | nil => exact hw
  | cons x bs ih =>
    rw [fitting]
    split
    · exact hw
    · next h =>
      have hadd : satAdd w (font.advance x) = w + font.advance x := by
        rw [satAdd] at h ⊢
        omega
      rw [hadd] at h ⊢
      have hrest := ih (Nat.le_of_not_lt h)
      rw [List.take_succ_cons, Font.width, List.map_cons, List.sum_cons, ← Nat.add_assoc]
      exact hrest

end Cut

/-- What stands for the title where `maxPx` pixels are free: itself, or a part that leaves room
for the dots, if there is room for them. -/
structure Elides (font : Font) (s : List Char) (maxPx : ℕ) (r : List Char) : Prop where
  fits : font.textWidth s ≤ maxPx → r = s
  cut : maxPx < font.textWidth s → font.textWidth dots < maxPx → ∃ p, p <+: s ∧ r = p ++ dots ∧
    font.textWidth r ≤ maxPx

/-- A title does not stop the compositor exactly if it fits, or the room is for the dots at
most, or the bytes that fit beside the dots end between two characters. -/
theorem title_elides_iff {font : Font} (hfont : font.Sound) (s : List Char) (maxPx : ℕ) :
    (∃ r, elideTitlePx font s maxPx = some r ∧ Elides font s maxPx r) ↔
      font.textWidth s ≤ maxPx ∨ maxPx ≤ font.textWidth dots ∨
      CutsWhole font (maxPx - font.textWidth dots) 0 s := by
  rw [elideTitlePx]
  by_cases hfits : font.textWidth s ≤ maxPx
  · refine iff_of_true ?_ (.inl hfits)
    by_cases hzero : maxPx = 0
    · rw [if_pos hzero]
      have hnil : s = [] := hfont.eq_nil (by omega)
      exact ⟨[], rfl, fun _ => hnil.symm, fun hlt => absurd hfits (Nat.not_le_of_lt hlt)⟩
    · rw [if_neg hzero, if_pos hfits]
      exact ⟨s, rfl, fun _ => rfl, fun hlt => absurd hfits (Nat.not_le_of_lt hlt)⟩
  · by_cases hdots : maxPx ≤ font.textWidth dots
    · refine iff_of_true ?_ (.inr (.inl hdots))
      by_cases hzero : maxPx = 0
      · rw [if_pos hzero]
        exact ⟨[], rfl, fun h => absurd h hfits, fun _ hlt => absurd hdots (Nat.not_le_of_lt hlt)⟩
      · rw [if_neg hzero, if_neg hfits, if_pos hdots]
        exact ⟨dots, rfl, fun h => absurd h hfits, fun _ hlt => absurd hdots (Nat.not_le_of_lt hlt)⟩
    · have hbudget : maxPx - font.textWidth dots < 2 ^ 32 - 1 := by
        rw [font.textWidth_eq s] at hfits
        omega
      rw [if_neg (by omega), if_neg hfits, if_neg hdots, ← cut_text_iff hbudget (Nat.zero_le _) s]
      simp only [hfits, hdots, false_or]
      constructor
      · rintro ⟨r, hr, -⟩
        obtain ⟨p, hp, -⟩ := Option.map_eq_some_iff.mp hr
        exact ⟨p, (fromUtf8_eq_some.mp hp).symm⟩
      · rintro ⟨p, hp⟩
        have hwidth := @width_take_fitting font _ _ hbudget (Nat.zero_le _) (utf8 s)
        rw [← hp, Nat.zero_add] at hwidth
        have hpre :
            utf8 p ++ (utf8 s).drop (fitting font (maxPx - font.textWidth dots) (utf8 s) 0) =
              utf8 s := by
          rw [hp, List.take_append_drop]
        obtain ⟨u, hu, -⟩ := utf8_prefix hpre
        rw [← hp, fromUtf8_utf8]
        refine ⟨p ++ dots, rfl, fun h => absurd h hfits, fun _ _ => ⟨p, ⟨u, hu.symm⟩, rfl, ?_⟩⟩
        have happend := font.textWidth_append_le p dots
        have hchars := hfont.charsWidth_le p
        omega

def evenFont : Font := ⟨9, 12, fun _ => 8, fun _ _ _ => 0, by decide⟩

theorem evenFont_sound : evenFont.Sound := by
  have hadv : ∀ b, evenFont.advance b = 8 := fun _ => rfl
  refine ⟨fun b => ?_, fun c => ?_⟩
  · rw [hadv]
    decide
  · obtain ⟨x, xs, henc⟩ := List.exists_cons_of_length_pos (l := String.utf8EncodeChar c)
      (by rw [String.length_utf8EncodeChar]; exact Char.utf8Size_pos c)
    rw [henc, Font.width, List.map_cons, List.sum_cons, hadv, hadv]
    exact Nat.le_add_right _ _

theorem long_name_elides : evenFont.Sound ∧
    ((∃ r, elideTitlePx evenFont ['n', 'o', 't', 'e', 's'] 35 = some r ∧
      Elides evenFont ['n', 'o', 't', 'e', 's'] 35 r) ↔
      evenFont.textWidth ['n', 'o', 't', 'e', 's'] ≤ 35 ∨ 35 ≤ evenFont.textWidth dots ∨
        CutsWhole evenFont (35 - evenFont.textWidth dots) 0 ['n', 'o', 't', 'e', 's']) :=
  ⟨evenFont_sound, title_elides_iff evenFont_sound _ _⟩

theorem accents_panic_any {font : Font} (hfont : font.Sound) (hle : ∀ b, font.advance b ≤ 24) :
    elideTitlePx font (List.replicate 100 'é') (font.textWidth dots + font.advance 0xC3) =
      none := by
  have henc : String.utf8EncodeChar 'é' = [0xC3, 0xA9] := by decide
  have hdots : font.textWidth dots ≤ 72 := by
    have hdot := hle (charCode '.')
    rw [font.textWidth_eq, Font.charsWidth, dots]
    simp only [List.map_cons, List.map_nil, List.sum_cons, List.sum_nil]
    omega
  have hlong : 100 ≤ font.textWidth (List.replicate 100 'é') := by
    have hsum : font.charsWidth (List.replicate 100 'é') = 100 * font.advance (charCode 'é') := by
      rw [Font.charsWidth, List.map_replicate, List.sum_replicate_nat]
    have hpos := hfont.pos (charCode 'é')
    rw [font.textWidth_eq, hsum]
    omega
  have hnot :
      ¬CutsWhole font (font.textWidth dots + font.advance 0xC3 - font.textWidth dots) 0
        (List.replicate 100 'é') := by
    intro hwhole
    have hall := hwhole [] 'é' (List.replicate 99 'é') rfl (by simp [utf8, henc, Font.width])
    have hpos := hfont.pos 0xA9
    simp only [List.nil_append, Font.utf8_singleton, henc, Font.width, List.map_cons, List.map_nil,
      List.sum_cons, List.sum_nil] at hall
    omega
  have hadv := hle 0xC3
  have hpos := hfont.pos 0xC3
  rw [← cut_text_iff (by omega) (Nat.zero_le _)] at hnot
  rw [elideTitlePx, if_neg (by omega), if_neg (by omega), if_neg (by omega), Option.map_eq_none_iff]
  by_contra hsome
  obtain ⟨p, hp⟩ := Option.ne_none_iff_exists'.mp hsome
  exact hnot ⟨p, (fromUtf8_eq_some.mp hp).symm⟩

/-- Five times the letter `é`, which takes two bytes, and room for one byte beside the dots. -/
theorem accents_panic : ¬∃ r, elideTitlePx evenFont ['é', 'é', 'é', 'é', 'é'] 35 = some r ∧
    Elides evenFont ['é', 'é', 'é', 'é', 'é'] 35 r := by
  rintro ⟨r, hr, -⟩
  have hnone : elideTitlePx evenFont ['é', 'é', 'é', 'é', 'é'] 35 = none := by decide
  rw [hnone] at hr
  cases hr

end CoeleoOs.Ui
