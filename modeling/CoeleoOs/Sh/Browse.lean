import CoeleoOs.Sh.WordKeys

/-!
# Browsing the history

Up and Down walk through the history and keep the draft aside. The place of the walk stands in the
history, so it survives the line that it began in: every way of leaving a line has to end the walk.
-/

namespace CoeleoOs.Sh
open CoeleoOs.Input (StdinRead)
open CoeleoOs.Lib
open CoeleoOs.Task (Bytes)

def upKey : Bytes := [0x1B, 0x5B, 0x41]
def downKey : Bytes := [0x1B, 0x5B, 0x42]

def presses (w : Services) (key : Bytes) : ℕ → List (Services × Got)
  | 0 => []
  | k + 1 => presses w key k ++ bytesOf w key

namespace History

def entry (h : History) (d : Bytes) : ℕ → Bytes
  | 0 => d
  | age + 1 => (h.get age).1

def ups (q : Line × History) : ℕ → Line × History
  | 0 => q
  | k + 1 => (ups q k).2.up (ups q k).1

def downs (q : Line × History) : ℕ → Line × History
  | 0 => q
  | k + 1 => (downs q k).2.down (downs q k).1

/-- The walk is within the history, and no line of it repeats the one before. -/
structure Sound (h : History) : Prop where
  view_lt : ∀ a, h.view = some a → a < h.lines.length
  chain : h.lines.IsChain (· ≠ ·)

def Restores (h : History) (l : Line) (k : ℕ) : Prop :=
  (ups (l, h) k).1.text = h.entry l.text (min k h.lines.length) ∧
    (downs (ups (l, h) k) k).1.text = l.text ∧ (downs (ups (l, h) k) k).1.cur = l.text.length

def Fresh (h : History) (l : Line) : Prop :=
  match h.view with
  | none => 0 < h.lines.length ∨ l.cur = l.text.length
  | some _ => h.lines.length = 1 ∧ (h.get 0).1 = l.text ∧ h.draft.1 = l.text

variable {h : History} {l : Line} {a k : ℕ}

section Walk

theorem up_empty (hnil : h.lines = []) : h.up l = (l, h) := by
  rw [up, if_pos hnil]

theorem up_first (hne : h.lines ≠ []) (hview : h.view = none) :
    h.up l = (.replace (h.get 0), { h with draft := l.asText, view := some 0 }) := by
  rw [up, if_neg hne, hview]

theorem up_last (hview : h.view = some a) (hlen : h.lines.length ≤ a + 1) : h.up l = (l, h) := by
  rw [up, hview]
  dsimp only
  rw [if_pos hlen, ite_self]

theorem up_next (hview : h.view = some a) (hlen : a + 1 < h.lines.length) :
    h.up l = (.replace (h.get (a + 1)), { h with view := some (a + 1) }) := by
  have hne : h.lines ≠ [] := List.ne_nil_of_length_pos (by omega)
  rw [up, if_neg hne, hview]
  dsimp only
  rw [if_neg (Nat.not_le_of_lt hlen)]

theorem ups_some (hview : h.view = some a) (ha : a < h.lines.length) (k : ℕ) : ups (l, h) k =
    (if min (a + k) (h.lines.length - 1) = a then l
      else .replace (h.get (min (a + k) (h.lines.length - 1))),
      { h with view := some (min (a + k) (h.lines.length - 1)) }) := by
  induction k with
  | zero =>
    have hmin : min (a + 0) (h.lines.length - 1) = a := by omega
    rw [hmin, if_pos rfl, ← hview]
    rfl
  | succ k ih =>
    rw [ups, ih]
    dsimp only
    by_cases hlast : h.lines.length ≤ a + k + 1
    · have hsame : min (a + (k + 1)) (h.lines.length - 1) = min (a + k) (h.lines.length - 1) := by
        omega
      rw [up_last rfl (by dsimp only; omega), hsame]
    · have hnow : min (a + k) (h.lines.length - 1) = a + k := by omega
      have hnext : min (a + (k + 1)) (h.lines.length - 1) = a + k + 1 := by omega
      rw [hnow, hnext, up_next rfl (by dsimp only; omega), if_neg (by omega)]
      rfl

theorem ups_none (hview : h.view = none) (hne : h.lines ≠ []) (k : ℕ) : ups (l, h) (k + 1) =
    (.replace (h.get (min k (h.lines.length - 1))), { h with
      draft := l.asText, view := some (min k (h.lines.length - 1)) }) := by
  have hpos := List.length_pos_of_ne_nil hne
  induction k with
  | zero =>
    rw [ups, ups, up_first hne hview, Nat.zero_min]
  | succ k ih =>
    rw [ups, ih]
    dsimp only
    by_cases hlast : h.lines.length ≤ k + 1
    · have hsame : min (k + 1) (h.lines.length - 1) = min k (h.lines.length - 1) := by omega
      rw [up_last rfl (by dsimp only; omega), hsame]
    · have hnow : min k (h.lines.length - 1) = k := by omega
      have hnext : min (k + 1) (h.lines.length - 1) = k + 1 := by omega
      rw [hnow, hnext, up_next rfl (by dsimp only; omega)]
      rfl

theorem ups_empty (hnil : h.lines = []) (k : ℕ) : ups (l, h) k = (l, h) := by
  induction k with
  | zero => rfl
  | succ k ih => rw [ups, ih, up_empty hnil]

theorem downs_none (hview : h.view = none) (k : ℕ) : downs (l, h) k = (l, h) := by
  induction k with
  | zero => rfl
  | succ k ih =>
    rw [downs, ih, down, hview]

theorem downs_back (hview : h.view = some a) (hk : k < a) :
    downs (l, h) (k + 1) = (.replace (h.get (a - (k + 1))), { h with
      view := some (a - (k + 1)) }) := by
  induction k with
  | zero =>
    obtain ⟨b, rfl⟩ : ∃ b, a = b + 1 := ⟨a - 1, by omega⟩
    rw [downs, downs, down, hview]
    rfl
  | succ k ih =>
    obtain ⟨b, hb⟩ : ∃ b, a - (k + 1) = b + 1 := ⟨a - (k + 1) - 1, by omega⟩
    have hnext : a - (k + 1 + 1) = b := by omega
    rw [downs, ih (by omega), hb, hnext]
    rfl

theorem downs_draft (hview : h.view = some a) (hk : a < k) :
    downs (l, h) k = (.replace h.draft, h.unview) := by
  induction k with
  | zero => omega
  | succ k ih =>
    rw [downs]
    by_cases hlast : a < k
    · rw [ih hlast]
      rfl
    · obtain rfl : k = a := by omega
      cases k with
      | zero =>
        rw [downs, down, hview]
      | succ b =>
        rw [downs_back hview (Nat.lt_succ_self b), Nat.sub_self]
        rfl

end Walk

section Fresh

theorem restores_first (hview : h.view = none) (hne : h.lines ≠ []) (k : ℕ) :
    h.Restores l (k + 1) := by
  have hpos := List.length_pos_of_ne_nil hne
  have hage : min (k + 1) h.lines.length = min k (h.lines.length - 1) + 1 := by omega
  rw [Restores, ups_none hview hne, downs_draft rfl (by omega), hage]
  exact ⟨rfl, rfl, rfl⟩

theorem restores_empty (hview : h.view = none) (hnil : h.lines = []) (hcur : l.cur = l.text.length)
    (k : ℕ) : h.Restores l k := by
  rw [Restores, ups_empty hnil, downs_none hview, hnil, List.length_nil, Nat.min_zero]
  exact ⟨rfl, rfl, hcur⟩

theorem restores_single (hview : h.view = some a) (ha : a < h.lines.length)
    (hlen : h.lines.length = 1) (hline : (h.get 0).1 = l.text) (hdraft : h.draft.1 = l.text)
    (k : ℕ) : h.Restores l (k + 1) := by
  obtain rfl : a = 0 := by omega
  have hsame : min (0 + (k + 1)) (h.lines.length - 1) = 0 := by omega
  have hage : min (k + 1) h.lines.length = 1 := by omega
  rw [Restores, ups_some hview ha, hsame, if_pos rfl, downs_draft rfl (Nat.succ_pos k), hage]
  exact ⟨hline.symm, hdraft, congrArg List.length hdraft⟩

theorem Sound.get_ne (hs : Sound h) (ha : a + 1 < h.lines.length) : h.get a ≠ h.get (a + 1) := by
  have hrev : ∀ i, i < h.lines.length → h.get i = h.lines[h.lines.length - 1 - i]?.getD noText := by
    intro i hi
    rw [get, List.getElem?_reverse hi]
  have hnext := List.isChain_iff_getElem.mp hs.chain (h.lines.length - 1 - (a + 1)) (by omega)
  have hidx : h.lines.length - 1 - (a + 1) + 1 = h.lines.length - 1 - a := by omega
  rw [hrev a (by omega), hrev (a + 1) ha, List.getElem?_eq_getElem (by omega),
    List.getElem?_eq_getElem (by omega)]
  simp only [hidx] at hnext
  exact hnext.symm

theorem ups_oldest (hview : h.view = some a) (ha : a < h.lines.length)
    (hk : h.lines.length ≤ a + k + 1) : (ups (l, h) (k + 1)).1 = (ups (l, h) k).1 := by
  have hsame : min (a + (k + 1)) (h.lines.length - 1) = min (a + k) (h.lines.length - 1) := by omega
  rw [ups_some hview ha, ups_some hview ha, hsame]

theorem restores_iff (hs : Sound h) : (∀ k, h.Restores l (k + 1)) ↔ h.Fresh l := by
  rw [Fresh]
  cases hview : h.view with
  | none =>
    dsimp only
    by_cases hnil : h.lines = []
    · rw [hnil]
      refine ⟨fun hall => .inr ?_, fun hcur => fun k => restores_empty hview hnil
        (hcur.resolve_left (Nat.lt_irrefl 0)) _⟩
      have hcur := (hall 0).2.2
      rw [ups_empty hnil, downs_none hview] at hcur
      exact hcur
    · exact iff_of_true (restores_first hview hnil) (.inl (List.length_pos_of_ne_nil hnil))
  | some a =>
    dsimp only
    have ha := hs.view_lt a hview
    refine ⟨fun hall => ?_, fun ⟨hlen, hline, hdraft⟩ => restores_single hview ha hlen hline hdraft⟩
    by_cases hlen : h.lines.length = 1
    · obtain rfl : a = 0 := by omega
      obtain ⟨hup, hdown, -⟩ := hall 0
      have hsame : min (0 + (0 + 1)) (h.lines.length - 1) = 0 := by omega
      rw [ups_some hview ha, hsame, if_pos rfl] at hup hdown
      rw [downs_draft rfl Nat.one_pos] at hdown
      rw [hlen] at hup
      exact ⟨hlen, hup.symm, hdown⟩
    -- Where the walk is at the oldest line, one more Up would have to show one more entry.
    · exfalso
      obtain ⟨k, hk⟩ : ∃ k, max 1 (h.lines.length - 1 - a) = k + 1 :=
        ⟨max 1 (h.lines.length - 1 - a) - 1, by omega⟩
      have hup := (hall k).1
      have hmore := (hall (k + 1)).1
      have hage : min (k + 1) h.lines.length = k + 1 := by omega
      have hnext : min (k + 1 + 1) h.lines.length = k + 1 + 1 := by omega
      rw [hage] at hup
      rw [hnext, ups_oldest hview ha (by omega), hup] at hmore
      exact hs.get_ne (by omega) (Subtype.ext hmore)

end Fresh

section Sound

theorem sound_new : Sound .new := ⟨nofun, .nil⟩

theorem Sound.unview (hs : Sound h) : Sound h.unview := ⟨nofun, hs.chain⟩

theorem push_view (h : History) (t : LineText) : (h.push t).view = none := by
  rw [push]
  dsimp only
  repeat' split
  all_goals rfl

theorem Sound.push (hs : Sound h) (t : LineText) : Sound (h.push t) := by
  rw [History.push]
  dsimp only
  split
  · exact hs.unview
  split
  · exact hs.unview
  · rename_i hlast
    refine ⟨(by simp), List.isChain_append.mpr ⟨?_, .singleton _, fun x hx y hy hxy => hlast ?_⟩⟩
    · split
      · exact hs.chain
      · exact hs.chain.drop 1
    · rw [List.head?_cons, Option.mem_some_iff] at hy
      rw [hy, ← hxy]
      split at hx
      · exact hx
      · rw [List.getLast?_drop] at hx
        split at hx
        · cases hx
        · exact hx

theorem Sound.up (hs : Sound h) (l : Line) : Sound (h.up l).2 := by
  rw [History.up]
  split
  · exact hs
  split
  · rename_i hne _ _
    refine ⟨fun a ha => ?_, hs.chain⟩
    obtain rfl := Option.some.inj ha
    exact List.length_pos_of_ne_nil hne
  split
  · exact hs
  · rename_i hlen
    refine ⟨fun a ha => ?_, hs.chain⟩
    obtain rfl := Option.some.inj ha
    exact Nat.lt_of_not_le hlen

theorem Sound.down (hs : Sound h) (l : Line) : Sound (h.down l).2 := by
  rw [History.down]
  split
  · exact hs
  · exact hs.unview
  · rename_i age hview
    refine ⟨fun a ha => ?_, hs.chain⟩
    obtain rfl := Option.some.inj ha
    exact (Nat.lt_succ_self _).trans (hs.view_lt _ hview)

end Sound

end History

def LineRead.hist : LineRead → History
  | .reading e => e.hist
  | .entered _ hist => hist
  | .eof hist => hist

namespace Editor

variable (fancy : Bool) (help : Helpers) (e : Editor)

/-- The editor reads the last byte of Up or Down. -/
def Walks : StdinRead → Prop
  | .data b =>
    fancy = true ∧ e.search = none ∧ (∃ param, e.seq = .csi param) ∧ (b = 0x41 ∨ b = 0x42)
  | _ => False

theorem csiFinal_hist (param : Bytes) (b : UInt8) : (e.csiFinal param b).hist = e.hist ∨
    (b = 0x41 ∨ b = 0x42) ∧ ((e.csiFinal param b).hist = (e.hist.up e.line).2 ∨
      (e.csiFinal param b).hist = (e.hist.down e.line).2) := by
  rw [csiFinal]
  split
  · rename_i hb
    exact .inr ⟨.inl hb, .inl rfl⟩
  split
  · rename_i hb
    exact .inr ⟨.inr hb, .inr rfl⟩
  · left
    repeat' split
    all_goals rfl

theorem onFancy_hist (l : Line) : (e.onFancy fancy l).hist = e.hist := by
  cases fancy with
  | true => rfl
  | false => rfl

def KeepsHist (e' : Editor) : Prop := e'.hist = e.hist ∨ e'.hist = e.hist.unview

theorem KeepsHist.ite {c : Prop} [Decidable c] {e x y : Editor} (hx : e.KeepsHist x)
    (hy : e.KeepsHist y) : e.KeepsHist (if c then x else y) := by
  split
  · exact hx
  · exact hy

theorem key_hist (b : UInt8) : e.KeepsHist (e.key fancy help b) := by
  have hfancy : ∀ l, e.KeepsHist (e.onFancy fancy l) := fun l => .inl (onFancy_hist fancy e l)
  have hkeep : e.KeepsHist e := .inl rfl
  have hedit : ∀ l, e.KeepsHist { e with line := l, hist := e.hist.unview } := fun l => .inr rfl
  rw [key]
  refine .ite (.inl rfl) (.ite (hfancy _) (.ite (hfancy _) (.ite (hfancy _) ?_)))
  refine .ite (hfancy _)
    (.ite (hfancy _) (.ite (.ite (.inl rfl) hkeep) (.ite (hedit _) (.ite hkeep ?_))))
  refine .ite (hfancy _) (.ite (hfancy _) (.ite (hfancy _) (.ite (hedit _) ?_)))
  exact .ite (.ite (hedit _) hkeep) (.ite (hedit _) hkeep)

theorem feed_hist (r : StdinRead) :
    (e.feed fancy help r).hist = e.hist ∨ (e.feed fancy help r).hist = e.hist.unview ∨
    (∃ t, (e.feed fancy help r).hist = e.hist.push t) ∨
    e.Walks fancy r ∧ ((e.feed fancy help r).hist = (e.hist.up e.line).2 ∨
      (e.feed fancy help r).hist = (e.hist.down e.line).2) := by
  cases r with
  | wait => exact .inl rfl
  | eof =>
    left
    rw [feed]
    cases e.search with
    | none => rfl
    | some s => rfl
  | data b =>
    rw [feed, Walks]
    cases hsearch : e.search with
    | some s => exact .inl (ReadLine.searchByte_keeps e s b).2
    | none =>
      dsimp only
      cases hseq : e.seq with
      | esc =>
        left
        dsimp only [LineRead.hist]
        rw [escByte]
        repeat' split
        all_goals first | rfl | exact onFancy_hist fancy e _
      | csi param =>
        dsimp only [LineRead.hist]
        rw [csiByte]
        split
        · cases fancy with
          | false => exact .inl rfl
          | true =>
            rcases csiFinal_hist e param b with hsame | ⟨hb, hwalk⟩
            · exact .inl hsame
            · exact .inr (.inr (.inr ⟨⟨rfl, rfl, ⟨param, rfl⟩, hb⟩, hwalk⟩))
        split
        · exact .inl rfl
        · exact .inl rfl
      | normal =>
        dsimp only
        rw [normalByte_eq]
        split
        · exact .inl rfl
        split
        · cases fancy with
          | false => exact .inl rfl
          | true => exact .inr (.inr (.inl ⟨e.line.asText, rfl⟩))
        split
        · exact .inl rfl
        · exact (key_hist fancy help e b).imp_right .inl

theorem feed_sound (hs : e.hist.Sound) (r : StdinRead) : (e.feed fancy help r).hist.Sound := by
  rcases feed_hist fancy help e r with h | h | ⟨t, h⟩ | ⟨-, h | h⟩
  · rw [h]
    exact hs
  · rw [h]
    exact hs.unview
  · rw [h]
    exact hs.push t
  · rw [h]
    exact hs.up e.line
  · rw [h]
    exact hs.down e.line

theorem feed_view (hview : e.hist.view = none) {r : StdinRead} (hr : ¬e.Walks fancy r) :
    (e.feed fancy help r).hist.view = none := by
  rcases feed_hist fancy help e r with h | h | ⟨t, h⟩ | ⟨hwalk, -⟩
  · rw [h, hview]
  · rw [h]
    rfl
  · rw [h]
    exact History.push_view e.hist t
  · exact absurd hwalk hr

theorem feed_entered {g : Got} {text : LineText} {hist : History}
    (h : e.feed true help (e.readOf g) = .entered text hist) : hist.view = none ∨ g = .byte 0x03 ∧
    e.search = none ∧ e.seq = .normal ∧ hist = e.hist := by
  cases g with
  | eof =>
    rw [readOf, feed] at h
    cases hsearch : e.search with
    | none | some =>
      rw [hsearch] at h
      cases h
  | err =>
    rw [readOf] at h
    cases hsearch : e.search with
    | none =>
      rw [hsearch] at h
      cases h
    | some =>
      rw [hsearch, Option.isSome_some, if_pos rfl, feed, hsearch] at h
      cases h
  | byte b =>
    rw [readOf, feed] at h
    cases hsearch : e.search with
    | some s =>
      rw [hsearch] at h
      cases h
    | none =>
      rw [hsearch] at h
      dsimp only at h
      cases hseq : e.seq with
      | esc | csi _ =>
        rw [hseq] at h
        cases h
      | normal =>
        rw [hseq] at h
        dsimp only at h
        rw [normalByte_eq] at h
        split at h
        · cases h
        split at h
        · obtain ⟨-, rfl⟩ := LineRead.entered.inj h
          exact .inl (History.push_view e.hist e.line.asText)
        split at h
        · rename_i hcancel
          obtain ⟨-, rfl⟩ := LineRead.entered.inj h
          exact .inr ⟨congrArg Got.byte hcancel.1, rfl, rfl, rfl⟩
        · cases h

section Runs

variable {s : LineRead} {fancy : Bool} {prompt : Bytes}

theorem steps_sound (fancy : Bool) (prompt : Bytes) (hs : s.hist.Sound)
    (gs : List (Services × Got)) : (steps fancy prompt s gs).1.hist.Sound := by
  induction gs generalizing s with
  | nil =>
    cases s with
    | reading | entered | eof => exact hs
  | cons wg gs ih =>
    cases s with
    | reading e => exact ih (feed_sound fancy wg.1.helpers e hs _)
    | entered | eof => exact hs

/-- None of the reads is the last byte of Up or Down. -/
def Drafts (fancy : Bool) : LineRead → List (Services × Got) → Prop
  | .reading e, (w, g) :: gs =>
    ¬e.Walks fancy (e.readOf g) ∧ Drafts fancy (e.feed fancy w.helpers (e.readOf g)) gs
  | _, _ => True

theorem steps_view (prompt : Bytes) (hview : s.hist.view = none) {gs : List (Services × Got)}
    (hd : Drafts fancy s gs) : (steps fancy prompt s gs).1.hist.view = none := by
  induction gs generalizing s with
  | nil =>
    cases s with
    | reading | entered | eof => exact hview
  | cons wg gs ih =>
    cases s with
    | reading e => exact ih (feed_view fancy wg.1.helpers e hview hd.1) hd.2
    | entered | eof => exact hview

theorem drafts_plain (s : LineRead) (gs : List (Services × Got)) : Drafts false s gs := by
  induction gs generalizing s with
  | nil =>
    cases s with
    | reading | entered | eof => trivial
  | cons wg gs ih =>
    cases s with
    | reading e =>
      refine ⟨fun hwalk => ?_, ih _⟩
      cases hread : e.readOf wg.2 with
      | data b =>
        rw [hread] at hwalk
        cases hwalk.1
      | wait | eof =>
        rw [hread] at hwalk
        exact hwalk
    | entered | eof => trivial

theorem steps_entered {e : Editor} {gs : List (Services × Got)} {text : LineText} {hist : History}
    (h : (steps fancy prompt (.reading e) gs).1 = .entered text hist) :
    ∃ gs' w g, gs' ++ [(w, g)] <+: gs ∧ ∃ e', (steps fancy prompt (.reading e) gs').1 =
      .reading e' ∧ e'.feed fancy w.helpers (e'.readOf g) = .entered text hist := by
  induction gs generalizing e with
  | nil => cases h
  | cons wg gs ih =>
    obtain ⟨w, g⟩ := wg
    rw [steps] at h
    cases hfeed : e.feed fancy w.helpers (e.readOf g) with
    | reading e₁ =>
      rw [hfeed] at h
      obtain ⟨gs', w', g', hprefix, e', hsteps, hlast⟩ := ih h
      refine ⟨(w, g) :: gs', w', g', List.cons_prefix_cons.mpr ⟨rfl, hprefix⟩, e', ?_, hlast⟩
      rw [steps, hfeed]
      exact hsteps
    | entered text' hist' =>
      rw [hfeed] at h
      have hsame : LineRead.entered text' hist' = .entered text hist := by
        cases gs with
        | nil => exact h
        | cons => exact h
      exact ⟨[], w, g, List.prefix_append [_] gs, e, rfl, hfeed.trans hsame⟩
    | eof hist' =>
      rw [hfeed] at h
      cases gs with
      | nil => cases h
      | cons => cases h

theorem steps_ups (prompt : Bytes) (w : Services) (l : Line) (h : History) (k : ℕ) :
    (steps true prompt (.reading ⟨l, .normal, h, none⟩) (presses w upKey k)).1 =
    .reading ⟨(History.ups (l, h) k).1, .normal, (History.ups (l, h) k).2, none⟩ := by
  induction k with
  | zero => rfl
  | succ k ih =>
    rw [presses, steps_append, ih]
    rfl

theorem steps_downs (prompt : Bytes) (w : Services) (l : Line) (h : History) (k : ℕ) :
    (steps true prompt (.reading ⟨l, .normal, h, none⟩) (presses w downKey k)).1 =
    .reading ⟨(History.downs (l, h) k).1, .normal, (History.downs (l, h) k).2, none⟩ := by
  induction k with
  | zero => rfl
  | succ k ih =>
    rw [presses, steps_append, ih]
    rfl

end Runs

end Editor

namespace ReadLine

variable (r : ReadLine)

def text : Bytes := r.cells.line.take r.cells.n

/-- The line, and behind it the entries of the history from the newest on. -/
def entry : ℕ → Bytes
  | 0 => r.text
  | age + 1 => r.hist.get age

/-- `k` Ups show the entry, and `k` Downs bring the line back with the cursor at its end. -/
def Restores (prompt : Bytes) (w : Services) (k : ℕ) : Prop := ∃ r₁ out₁ r₂ out₂,
  steps true prompt (.reading r) (presses w upKey k) = some (.reading r₁, out₁) ∧
  r₁.text = r.entry (min k r.hist.count) ∧ steps true prompt (.reading r₁) (presses w downKey k) =
    some (.reading r₂, out₂) ∧ r₂.text = r.text ∧ r₂.cells.cur = r.text.length

/-- No walk is going on; with an empty history the cursor is at the end. The one other case is a
history of a single line that equals both the draft that was kept and the line. -/
def Fresh : Prop :=
  match r.hist.view with
  | none => 0 < r.hist.count ∨ r.cells.cur = r.text.length
  | some _ => r.hist.count = 1 ∧ r.hist.get 0 = r.text ∧ r.hist.draft.text = r.text

variable {r} {e : Editor} {prompt : Bytes} {w : Services}

theorem steps_reading {fancy : Bool} {r r' : ReadLine} {e : Editor} {gs : List (Services × Got)}
    {out : Bytes} (h : Reps r e)
    (hrun : steps fancy prompt (.reading r) gs = some (.reading r', out)) :
    ∃ e', Editor.steps fancy prompt (.reading e) gs = (.reading e', out) ∧ Reps r' e' := by
  have hreps : StepReps (.reading r) (.reading e) := h
  obtain ⟨s, hsteps, hs⟩ := steps_does fancy prompt hreps gs
  rw [hrun] at hsteps
  obtain ⟨rfl, hout⟩ := Prod.mk.inj (Option.some.inj hsteps)
  cases hend : (Editor.steps fancy prompt (.reading e) gs).1 with
  | reading e' =>
    rw [hend] at hs
    exact ⟨e', Prod.ext hend hout.symm, hs⟩
  | entered | eof =>
    rw [hend] at hs
    exact hs.elim

theorem reading_steps {fancy : Bool} {r : ReadLine} {e e' : Editor} {gs : List (Services × Got)}
    (h : Reps r e) (hrun : (Editor.steps fancy prompt (.reading e) gs).1 = .reading e') :
    ∃ r', steps fancy prompt (.reading r) gs =
      some (.reading r', (Editor.steps fancy prompt (.reading e) gs).2) ∧ Reps r' e' := by
  have hreps : StepReps (.reading r) (.reading e) := h
  obtain ⟨s, hsteps, hs⟩ := steps_does fancy prompt hreps gs
  rw [hrun] at hs
  cases s with
  | reading r' => exact ⟨r', hsteps, hs⟩
  | entered | eof => exact hs.elim

theorem entered_steps {fancy : Bool} {r : ReadLine} {e : Editor} {gs : List (Services × Got)}
    {text : LineText} {hist : History} (h : Reps r e)
    (hrun : (Editor.steps fancy prompt (.reading e) gs).1 = .entered text hist) :
    ∃ n line hist' out, steps fancy prompt (.reading r) gs = some (.entered n line hist', out) ∧
    hist'.abs = hist := by
  have hreps : StepReps (.reading r) (.reading e) := h
  obtain ⟨s, hsteps, hs⟩ := steps_does fancy prompt hreps gs
  rw [hrun] at hs
  cases s with
  | entered n line hist' => exact ⟨n, line, hist', _, hsteps, hs.2.2⟩
  | reading | eof => exact hs.elim

theorem reps_normal (h : Reps r e) (hseq : r.seq = .normal) (hsearch : r.search = none) :
    e = ⟨e.line, .normal, r.hist.abs, none⟩ := by
  obtain ⟨l, seq, hist, search⟩ := e
  have hs := h.seq
  have hf := h.search
  rw [hseq] at hs
  rw [hsearch] at hf
  cases seq with
  | esc | csi _ => exact hs.elim
  | normal =>
    cases search with
    | some _ => exact hf.elim
    | none => rw [h.hist]

theorem text_reps (h : Reps r e) : r.text = e.line.text := by
  rw [text, h.cells.n_eq, h.cells.text_eq]

theorem entry_reps (h : Reps r e) (k : ℕ) : r.entry k = e.hist.entry e.line.text k := by
  cases k with
  | zero => exact text_reps h
  | succ age =>
    rw [entry, History.entry, ← h.hist, HistRing.abs_get]

theorem restores_reps (h : Reps r e) (hseq : r.seq = .normal) (hsearch : r.search = none) (k : ℕ) :
    r.Restores prompt w k ↔ e.hist.Restores e.line k := by
  have he := reps_normal h hseq hsearch
  have hcount : r.hist.count = e.hist.lines.length := by
    rw [← h.hist, HistRing.abs_length]
  have hups := Editor.steps_ups prompt w e.line r.hist.abs k
  rw [← he, h.hist] at hups
  obtain ⟨r₁, hrun₁, hreps₁⟩ := reading_steps h hups
  obtain ⟨r₂, hrun₂, hreps₂⟩ := reading_steps hreps₁ (Editor.steps_downs prompt w _ _ k)
  rw [History.Restores, ← hcount, ← entry_reps h, ← text_reps h, ← text_reps hreps₁,
    ← text_reps hreps₂, ← hreps₂.cells.cur_eq]
  constructor
  · rintro ⟨r₁', out₁', r₂', out₂', hups', hentry, hdowns', htext, hcur⟩
    obtain rfl := ReadStep.reading.inj (Prod.mk.inj (Option.some.inj (hrun₁.symm.trans hups'))).1
    obtain rfl := ReadStep.reading.inj (Prod.mk.inj (Option.some.inj (hrun₂.symm.trans hdowns'))).1
    exact ⟨hentry, htext, hcur⟩
  · rintro ⟨hentry, htext, hcur⟩
    exact ⟨r₁, _, r₂, _, hrun₁, hentry, hrun₂, htext, hcur⟩

theorem fresh_reps (h : Reps r e) : r.Fresh ↔ e.hist.Fresh e.line := by
  have hview : e.hist.view = r.hist.view := congrArg History.view h.hist.symm
  have hdraft : e.hist.draft.1 = r.hist.draft.text :=
    congrArg (fun h : History => h.draft.1) h.hist.symm
  rw [Fresh, History.Fresh, hview, hdraft, ← text_reps h, ← h.cells.cur_eq, ← h.hist,
    HistRing.abs_length, HistRing.abs_get]

end ReadLine

structure LineCall where
  fancy : Bool
  prompt : Bytes
  line : Bytes
  reads : List (Services × Got)
  line_length : line.length = lineCap

/-- The history after calls that Enter or Ctrl+C ended, with `history -c` between them. -/
inductive Session (ok : HistRing → LineCall → Prop) : HistRing → Prop
  | new : Session ok .new
  | clear {hist : HistRing} : Session ok hist → Session ok hist.clear
  | call {hist hist' : HistRing} {c : LineCall} {n : ℕ} {line out : Bytes} :
    Session ok hist → ok hist c → ReadLine.steps c.fancy c.prompt (.reading (.start c.line hist))
      c.reads = some (.entered n line hist', out) → Session ok hist'

def AnyCall (_ : HistRing) (_ : LineCall) : Prop := True

/-- Wherever Ctrl+C is pressed no entry of the history is shown. -/
def CancelsDraft (hist : HistRing) (c : LineCall) : Prop :=
  ∀ gs w r out, gs ++ [(w, .byte 0x03)] <+: c.reads →
  ReadLine.steps c.fancy c.prompt (.reading (.start c.line hist)) gs = some (.reading r, out) →
    r.search = none → r.seq = .normal → r.hist.view = none

section Sessions

variable {ok : HistRing → LineCall → Prop} {hist hist' : HistRing} {c : LineCall}

theorem entered_reps {n : ℕ} {line out : Bytes}
    (hrun : ReadLine.steps c.fancy c.prompt (.reading (.start c.line hist)) c.reads =
      some (.entered n line hist', out)) : ∃ text, (Editor.steps c.fancy c.prompt
        (.reading (.start hist.abs)) c.reads).1 = .entered text hist'.abs := by
  have hreps : StepReps (.reading (.start c.line hist)) (.reading (.start hist.abs)) :=
    start_reps c.line_length hist
  obtain ⟨s, hsteps, hs⟩ := steps_does c.fancy c.prompt hreps c.reads
  rw [hrun] at hsteps
  obtain ⟨rfl, -⟩ := Prod.mk.inj (Option.some.inj hsteps)
  cases hend : (Editor.steps c.fancy c.prompt (.reading (.start hist.abs)) c.reads).1 with
  | entered text h =>
    rw [hend] at hs
    exact ⟨text, by rw [hs.2.2]⟩
  | reading | eof =>
    rw [hend] at hs
    exact hs.elim

theorem session_sound (h : Session ok hist) : hist.abs.Sound := by
  induction h with
  | new =>
    rw [HistRing.abs_new]
    exact History.sound_new
  | clear => exact ⟨nofun, .nil⟩
  | @call hist _ c _ _ _ _ _ hrun ih =>
    obtain ⟨text, hend⟩ := entered_reps hrun
    have hstart : (LineRead.reading (.start hist.abs)).hist.Sound := ih
    have hsound := Editor.steps_sound c.fancy c.prompt hstart c.reads
    rw [hend] at hsound
    exact hsound

theorem entered_view (hview : hist.view = none) (hc : CancelsDraft hist c) {n : ℕ}
    {line out : Bytes} (hrun : ReadLine.steps c.fancy c.prompt (.reading (.start c.line hist))
      c.reads = some (.entered n line hist', out)) : hist'.view = none := by
  obtain ⟨fancy, prompt, buf, reads, hlen⟩ := c
  obtain ⟨text, hend⟩ := entered_reps hrun
  dsimp only at hend
  have hreps : Reps (.start buf hist) (.start hist.abs) := start_reps hlen hist
  cases fancy with
  | false =>
    have hstart : (LineRead.reading (.start hist.abs)).hist.view = none := hview
    have hplain := Editor.steps_view prompt hstart (Editor.drafts_plain _ reads)
    rw [hend] at hplain
    exact hplain
  | true =>
    obtain ⟨gs, w, g, hprefix, e, hsteps, hlast⟩ := Editor.steps_entered hend
    rcases Editor.feed_entered w.helpers e hlast with hnone | ⟨rfl, hsearch, hseq, hsame⟩
    · exact hnone
    · obtain ⟨r, hrun', hr⟩ := ReadLine.reading_steps hreps hsteps
      have hseq' := hr.seq
      rw [hseq] at hseq'
      have hnormal : r.seq = .normal := by
        cases hr' : r.seq with
        | normal => rfl
        | esc | csi _ _ =>
          rw [hr'] at hseq'
          exact hseq'.elim
      have hr_view := hc gs w r _ hprefix hrun' (ReadLine.search_none hr hsearch) hnormal
      exact (congrArg History.view (hsame.trans hr.hist.symm)).trans hr_view

theorem session_view (h : Session CancelsDraft hist) : hist.view = none := by
  induction h with
  | new | clear => rfl
  | call _ hc hrun ih => exact entered_view ih hc hrun

/-- In every session Up and Down walk through the history and back to the line, from any line that
is edited, exactly when no walk was going on. None is where no line was cancelled with an entry on
it. -/
theorem browsing_restores_iff (hist : HistRing) (prompt line out : Bytes)
    (gs : List (Services × Got)) (r : ReadLine) (h : Session AnyCall hist)
    (hline : line.length = lineCap)
    (hrun : ReadLine.steps true prompt (.reading (.start line hist)) gs = some (.reading r, out))
    (hseq : r.seq = .normal) (hsearch : r.search = none) :
    ((∀ w k, r.Restores prompt w (k + 1)) ↔ r.Fresh) ∧
      (Session CancelsDraft hist → Editor.Drafts true (.reading (.start hist.abs)) gs →
        0 < r.hist.count ∨ r.cells.cur = r.text.length → ∀ w k, r.Restores prompt w (k + 1)) := by
  have hreps : Reps (.start line hist) (.start hist.abs) := start_reps hline hist
  obtain ⟨e, hsteps, hr⟩ := ReadLine.steps_reading hreps hrun
  have hstart : (LineRead.reading (.start hist.abs)).hist.Sound := session_sound h
  have hsound := Editor.steps_sound true prompt hstart gs
  rw [hsteps] at hsound
  dsimp only [LineRead.hist] at hsound
  have hiff : (∀ w k, r.Restores prompt w (k + 1)) ↔ r.Fresh := by
    rw [ReadLine.fresh_reps hr, ← History.restores_iff hsound]
    exact ⟨fun hall k => (ReadLine.restores_reps hr hseq hsearch _).mp (hall idle k),
      fun hall w k => (ReadLine.restores_reps hr hseq hsearch _).mpr (hall k)⟩
  refine ⟨hiff, fun hclean hd hend => hiff.mpr ?_⟩
  have hfirst : (LineRead.reading (.start hist.abs)).hist.view = none := session_view hclean
  have hview := Editor.steps_view prompt hfirst hd
  rw [hsteps] at hview
  have hr_view : r.hist.view = none := (congrArg History.view hr.hist).trans hview
  rw [ReadLine.Fresh, hr_view]
  exact hend

theorem browsing_restores_new :
    ((∀ w k, (ReadLine.start (List.replicate lineCap 0) .new).Restores [] w (k + 1)) ↔
        (ReadLine.start (List.replicate lineCap 0) .new).Fresh) ∧
      (Session CancelsDraft .new → Editor.Drafts true (.reading (.start HistRing.new.abs)) [] →
        0 < HistRing.new.count ∨ 0 = (ReadLine.start (List.replicate lineCap 0) .new).text.length →
          ∀ w k, (ReadLine.start (List.replicate lineCap 0) .new).Restores [] w (k + 1)) :=
  browsing_restores_iff .new [] (List.replicate lineCap 0) [] [] _ .new List.length_replicate rfl
    rfl rfl

def callOf (bs : Bytes) : LineCall :=
  ⟨true, [], List.replicate lineCap 0, bytesOf idle bs, List.length_replicate⟩

theorem session_call (h : Session AnyCall hist) (bs : Bytes) (text : LineText) (hist' : History)
    (hend : (Editor.steps true [] (.reading (.start hist.abs)) (bytesOf idle bs)).1 =
      .entered text hist') : ∃ ring, Session AnyCall ring ∧ ring.abs = hist' := by
  have hreps : Reps (.start (List.replicate lineCap 0) hist) (.start hist.abs) :=
    start_reps List.length_replicate hist
  obtain ⟨n, line, ring, out, hrun, hring⟩ := ReadLine.entered_steps hreps hend
  exact ⟨ring, .call (c := callOf bs) h trivial hrun, hring⟩

def textOf (b : UInt8) : LineText := ⟨[b], Nat.le_add_left 1 127⟩

theorem session_cancelled :
    ∃ ring, Session AnyCall ring ∧ ring.abs = ⟨[textOf 0x61, textOf 0x62], some 0, noText,
      by decide⟩ := by
  have hnew : Session AnyCall .new := .new
  obtain ⟨ring₁, hs₁, habs₁⟩ :=
    session_call hnew [0x61, 0x0A] (textOf 0x61) ⟨[textOf 0x61], none, noText, by decide⟩
    (by rw [HistRing.abs_new]; rfl)
  obtain ⟨ring₂, hs₂, habs₂⟩ :=
    session_call hs₁ [0x62, 0x0A] (textOf 0x62) ⟨[textOf 0x61, textOf 0x62], none,
      noText, by decide⟩ (by rw [habs₁]; rfl)
  exact session_call hs₂ (upKey ++ [0x03]) noText _ (by rw [habs₂]; rfl)

/-- In the next line the first Up shows `a`. -/
theorem browsing_starts_stale : ¬∀ (hist : HistRing) (prompt line out : Bytes)
    (gs : List (Services × Got)) (r : ReadLine) (w : Services) (k : ℕ), Session AnyCall hist →
    line.length = lineCap → ReadLine.steps true prompt (.reading (.start line hist)) gs =
      some (.reading r, out) → r.seq = .normal → r.search = none →
      Editor.Drafts true (.reading (.start hist.abs)) gs → r.Restores prompt w (k + 1) := by
  intro hall
  obtain ⟨ring, hs, habs⟩ := session_cancelled
  have hreps : Reps (.start (List.replicate lineCap 0) ring) (.start ring.abs) :=
    start_reps List.length_replicate ring
  have hup :=
    hall ring [] (List.replicate lineCap 0) [] [] _ idle 0 hs List.length_replicate rfl
      rfl rfl trivial
  rw [ReadLine.restores_reps hreps rfl rfl, habs] at hup
  exact absurd hup.1 (by decide)

end Sessions

end CoeleoOs.Sh
