import Mathlib.Data.Nat.Notation
import Mathlib.Logic.Function.Basic

/-!
# Drawing under a clip

A draw turns a scene, a value at each point, into another. A family of draws, one for each clip,
may keep the points outside the clip and outside a region (`Keeps`), and what it leaves at a point
of the clip may come from the value there alone and not from the clip (`Reads`). Both hold of
sequences of such draws, so that they hold of a whole picture when they hold of its parts.
-/

namespace CoeleoOs.Lib.Pixel

variable {π κ ι ι' α : Type*}

abbrev Draw (π κ : Type*) := (π → κ) → π → κ

def skip : Draw π κ := fun s => s

def draws : List (Draw π κ) → Draw π κ
  | [], s => s
  | d :: ds, s => draws ds (d s)

def each (l : List α) (f : α → Draw π κ) : Draw π κ := draws (l.map f)

def range (a b : ℕ) (f : ℕ → Draw π κ) : Draw π κ := each (List.range' a (b - a)) f

def alter [DecidableEq π] (p : π) (g : κ → κ) : Draw π κ := fun s => Function.update s p (g (s p))

theorem skip_apply (s : π → κ) : skip s = s := rfl

theorem draws_append (ds es : List (Draw π κ)) (s : π → κ) :
    draws (ds ++ es) s = draws es (draws ds s) := by
  induction ds generalizing s with
  | nil => rfl
  | cons d ds ih => exact ih (d s)

theorem each_append (l m : List α) (f : α → Draw π κ) (s : π → κ) :
    each (l ++ m) f s = each m f (each l f s) := by
  rw [each, List.map_append, draws_append]
  rfl

theorem each_congr {l : List α} {f g : α → Draw π κ} (h : ∀ a ∈ l, f a = g a) :
    each l f = each l g :=
  congrArg draws (List.map_congr_left h)

theorem range_empty {a b : ℕ} (h : b ≤ a) (f : ℕ → Draw π κ) (s : π → κ) : range a b f s = s := by
  rw [range, Nat.sub_eq_zero_of_le h]
  rfl

theorem range_succ {a b : ℕ} (h : a ≤ b) (f : ℕ → Draw π κ) (s : π → κ) :
    range a (b + 1) f s = f b (range a b f s) := by
  rw [range, Nat.succ_sub h, List.range'_concat, each, List.map_append, draws_append, range, each,
    Nat.one_mul, Nat.add_sub_cancel' h]
  rfl

theorem alter_self [DecidableEq π] (p : π) (g : κ → κ) (s : π → κ) : alter p g s p = g (s p) :=
  Function.update_self ..

theorem alter_of_ne [DecidableEq π] {p q : π} (h : q ≠ p) (g : κ → κ) (s : π → κ) :
    alter p g s q = s q :=
  Function.update_of_ne h ..

theorem range_slices {a b : ℕ} {f : ℕ → Draw π κ} (slice : π → ℕ) (G : π → κ → κ)
    (hin : ∀ i s p, i < b → slice p = i → f i s p = G p (s p))
    (hout : ∀ i s p, i < b → slice p ≠ i → f i s p = s p) (s : π → κ) (p : π) :
    range a b f s p = if a ≤ slice p ∧ slice p < b then G p (s p) else s p := by
  induction b with
  | zero => rw [range_empty (Nat.zero_le a), if_neg (fun h => Nat.not_lt_zero _ h.2)]
  | succ b ih =>
    have ih := ih (fun i s p hi => hin i s p (Nat.lt_succ_of_lt hi)) fun i s p hi =>
        hout i s p (Nat.lt_succ_of_lt hi)
    by_cases hab : a ≤ b
    · rw [range_succ hab]
      by_cases hp : slice p = b
      · rw [hin b _ p (Nat.lt_succ_self b) hp, ih, if_neg (by omega), if_pos (by omega)]
      · rw [hout b _ p (Nat.lt_succ_self b) hp, ih]
        exact if_congr (by omega) rfl rfl
    · rw [range_empty (by omega), if_neg (by omega)]

section Points

variable {p : π} {d : Draw π κ} {l : List (Draw π κ)}

def Pointwise (p : π) (d : Draw π κ) : Prop := ∀ s s', s p = s' p → d s p = d s' p

def Hides (p : π) (d : Draw π κ) : Prop := ∀ s s', d s p = d s' p

theorem draws_keeps (h : ∀ d ∈ l, ∀ s, d s p = s p) (s : π → κ) : draws l s p = s p := by
  induction l generalizing s with
  | nil => rfl
  | cons d l ih =>
    rw [draws, ih fun e he => h e (List.mem_cons_of_mem _ he)]
    exact h d (List.mem_cons_self ..) s

theorem each_keeps {l : List α} {f : α → Draw π κ} (h : ∀ a ∈ l, ∀ s, f a s p = s p) (s : π → κ) :
    each l f s p = s p := by
  refine draws_keeps ?_ s
  rintro d hd
  obtain ⟨a, ha, rfl⟩ := List.mem_map.mp hd
  exact h a ha

theorem Pointwise.draws (h : ∀ d ∈ l, Pointwise p d) : Pointwise p (draws l) := by
  induction l with
  | nil => exact fun _ _ hs => hs
  | cons d l ih =>
    intro s s' hs
    exact ih (fun e he => h e (List.mem_cons_of_mem _ he)) _ _ (h d (List.mem_cons_self ..) s s' hs)

theorem Pointwise.each {l : List α} {f : α → Draw π κ} (h : ∀ a ∈ l, Pointwise p (f a)) :
    Pointwise p (each l f) := by
  refine .draws ?_
  rintro d hd
  obtain ⟨a, ha, rfl⟩ := List.mem_map.mp hd
  exact h a ha

theorem Pointwise.ite {g : Prop} [Decidable g] {e : Draw π κ} (hd : Pointwise p d)
    (he : Pointwise p e) : Pointwise p (if g then d else e) := by
  split
  · exact hd
  · exact he

theorem Hides.first (hd : Hides p d) (hl : Pointwise p (Pixel.draws l)) :
    Hides p (Pixel.draws (d :: l)) :=
  fun s s' => hl _ _ (hd s s')

theorem Hides.draws (h : ∀ d ∈ l, Pointwise p d) (hd : d ∈ l) (hhide : Hides p d) :
    Hides p (draws l) := by
  induction l with
  | nil => exact absurd hd List.not_mem_nil
  | cons e l ih =>
    have hl : ∀ d ∈ l, Pointwise p d := fun d hd => h d (List.mem_cons_of_mem _ hd)
    intro s s'
    rcases List.mem_cons.mp hd with rfl | hd
    · exact Pointwise.draws hl _ _ (hhide s s')
    · exact ih hl hd _ _

theorem Hides.each {l : List α} {f : α → Draw π κ} {a : α} (h : ∀ a ∈ l, Pointwise p (f a))
    (ha : a ∈ l) (hhide : Hides p (f a)) : Hides p (each l f) := by
  refine .draws ?_ (List.mem_map_of_mem ha) hhide
  rintro d hd
  obtain ⟨b, hb, rfl⟩ := List.mem_map.mp hd
  exact h b hb

theorem each_apply {l : List α} {f : α → Draw π κ} {M : α → Prop} [DecidablePred M] {G : κ → κ}
    (hG : ∀ c, G (G c) = G c) (hf : ∀ a ∈ l, ∀ s, f a s p = if M a then G (s p) else s p)
    (s : π → κ) : each l f s p = if ∃ a ∈ l, M a then G (s p) else s p := by
  induction l generalizing s with
  | nil => rfl
  | cons a l ih =>
    have hcons : each (a :: l) f s p = each l f (f a s) p := rfl
    rw [hcons, ih fun b hb => hf b (List.mem_cons_of_mem _ hb), hf a (List.mem_cons_self ..)]
    simp only [List.mem_cons, exists_eq_or_imp]
    by_cases ha : M a
    · rw [if_pos ha, if_pos (Or.inl ha), hG, ite_self]
    · rw [if_neg ha]
      exact if_congr (or_iff_right ha).symm rfl rfl

end Points

section Families

variable (mem : ι → π → Prop) (R : π → Prop)

def Keeps (P : ι → Draw π κ) : Prop := ∀ c s p, ¬ (mem c p ∧ R p) → P c s p = s p

def Reads (P : ι → Draw π κ) : Prop :=
  ∀ c c' s s' p, mem c p → mem c' p → s p = s' p → P c s p = P c' s' p

structure Clipped (P : ι → Draw π κ) : Prop where
  keeps : Keeps mem R P
  reads : Reads mem P

variable {mem R} {R' : π → Prop} {P Q : ι → Draw π κ} {L : ι → List (Draw π κ)}

theorem Reads.pointwise (h : Reads mem P) {c : ι} {p : π} (hc : mem c p) : Pointwise p (P c) :=
  fun s s' => h c c s s' p hc hc

theorem Keeps.nil : Keeps mem R (fun _ => draws ([] : List (Draw π κ))) := fun _ _ _ _ => rfl

theorem Keeps.cons (hP : Keeps mem R P) (hL : Keeps mem R fun c => draws (L c)) :
    Keeps mem R fun c => draws (P c :: L c) := fun c s p h => (hL c _ p h).trans (hP c s p h)

theorem Keeps.each {l : List α} {F : ι → α → Draw π κ} (h : ∀ a ∈ l, Keeps mem R fun c => F c a) :
    Keeps mem R fun c => each l (F c) := by
  induction l with
  | nil => exact .nil
  | cons a l ih =>
    exact .cons (h a (List.mem_cons_self ..)) (ih fun b hb => h b (List.mem_cons_of_mem _ hb))

theorem Keeps.ite {g : ι → Prop} [∀ c, Decidable (g c)] (hP : Keeps mem R P) (hQ : Keeps mem R Q) :
    Keeps mem R fun c => if g c then P c else Q c := by
  intro c s p h
  dsimp only
  split
  · exact hP c s p h
  · exact hQ c s p h

theorem Keeps.mono (hR : ∀ p, R p → R' p) (h : Keeps mem R P) : Keeps mem R' P :=
  fun c s p hp => h c s p fun hin => hp ⟨hin.1, hR p hin.2⟩

theorem Reads.nil : Reads mem (fun _ => draws ([] : List (Draw π κ))) := fun _ _ _ _ _ _ _ h => h

theorem Reads.cons (hP : Reads mem P) (hL : Reads mem fun c => draws (L c)) :
    Reads mem fun c => draws (P c :: L c) :=
  fun c c' s s' p hc hc' h => hL c c' _ _ p hc hc' (hP c c' s s' p hc hc' h)

theorem Reads.each {l : List α} {F : ι → α → Draw π κ} (h : ∀ a ∈ l, Reads mem fun c => F c a) :
    Reads mem fun c => each l (F c) := by
  induction l with
  | nil => exact .nil
  | cons a l ih =>
    exact .cons (h a (List.mem_cons_self ..)) (ih fun b hb => h b (List.mem_cons_of_mem _ hb))

theorem Reads.ite {b : Prop} [Decidable b] (hP : Reads mem P) (hQ : Reads mem Q) :
    Reads mem fun c => if b then P c else Q c := by
  split
  · exact hP
  · exact hQ

theorem Reads.sub {mem' : ι → π → Prop} (h : ∀ c p, mem' c p → mem c p) (hP : Reads mem P) :
    Reads mem' P :=
  fun c c' s s' p hc hc' => hP c c' s s' p (h c p hc) (h c' p hc')

theorem Reads.guarded {g : ι → Prop} [∀ c, Decidable (g c)] (hg : ∀ c p, mem c p → R p → ¬ g c)
    (hkeep : ∀ c s p, ¬ R p → P c s p = s p) (h : Reads mem P) : Reads mem fun c => if g c then skip
      else P c := by
  intro c c' s s' p hc hc' hs
  dsimp only
  by_cases hp : R p
  · rw [if_neg (hg c p hc hp), if_neg (hg c' p hc' hp)]
    exact h c c' s s' p hc hc' hs
  · have hskip : ∀ c s, (if g c then skip else P c) s p = s p := fun c s => by
      split
      · rfl
      · exact hkeep c s p hp
    rw [hskip, hskip, hs]

theorem Keeps.outside (h : Keeps mem R P) (c : ι) (s : π → κ) (p : π) (hp : ¬ R p) :
    P c s p = s p :=
  h c s p fun hin => hp hin.2

namespace Clipped

theorem skip : Clipped mem R fun _ => (Pixel.skip : Draw π κ) := ⟨.nil, .nil⟩

theorem nil : Clipped mem R (fun _ => draws ([] : List (Draw π κ))) := ⟨.nil, .nil⟩

theorem cons (hP : Clipped mem R P) (hL : Clipped mem R fun c => draws (L c)) :
    Clipped mem R fun c => draws (P c :: L c) := ⟨hP.keeps.cons hL.keeps, hP.reads.cons hL.reads⟩

theorem each {l : List α} {F : ι → α → Draw π κ} (h : ∀ a ∈ l, Clipped mem R fun c => F c a) :
    Clipped mem R fun c => each l (F c) :=
  ⟨.each fun a ha => (h a ha).keeps, .each fun a ha => (h a ha).reads⟩

theorem range {a b : ℕ} {F : ι → ℕ → Draw π κ}
    (h : ∀ i, a ≤ i → i < b → Clipped mem R fun c => F c i) :
    Clipped mem R fun c => range a b (F c) := by
  refine .each fun i hi => ?_
  obtain ⟨hl, hr⟩ := List.mem_range'_1.mp hi
  exact h i hl (by omega)

theorem ite {b : Prop} [Decidable b] (hP : Clipped mem R P) (hQ : Clipped mem R Q) :
    Clipped mem R fun c => if b then P c else Q c :=
  ⟨.ite hP.keeps hQ.keeps, .ite hP.reads hQ.reads⟩

theorem mono (hR : ∀ p, R p → R' p) (h : Clipped mem R P) : Clipped mem R' P :=
  ⟨h.keeps.mono hR, h.reads⟩

theorem guarded {g : ι → Prop} [∀ c, Decidable (g c)] (hg : ∀ c p, mem c p → R p → ¬ g c)
    (h : Clipped mem R P) : Clipped mem R fun c => if g c then Pixel.skip else P c :=
  ⟨.ite .nil h.keeps, .guarded hg h.keeps.outside h.reads⟩

theorem via {mem' : ι' → π → Prop} {S : π → Prop} {φ : ι → ι'} {P : ι' → Draw π κ}
    (hφ : ∀ c p, mem' (φ c) p ↔ mem c p ∧ S p) (h : Clipped mem' R P) :
    Clipped mem (fun p => S p ∧ R p) fun c => P (φ c) := by
  have hkeeps : Keeps mem (fun p => S p ∧ R p) fun c => P (φ c) := fun c s p hp =>
    h.keeps (φ c) s p fun hin => hp ⟨((hφ c p).mp hin.1).1, ((hφ c p).mp hin.1).2, hin.2⟩
  refine ⟨hkeeps, fun c c' s s' p hc hc' hs => ?_⟩
  by_cases hp : S p
  · exact h.reads (φ c) (φ c') s s' p ((hφ c p).mpr ⟨hc, hp⟩) ((hφ c' p).mpr ⟨hc', hp⟩) hs
  · exact (hkeeps c s p fun hin => hp hin.2.1).trans
      (hs.trans (hkeeps c' s' p fun hin => hp hin.2.1).symm)

theorem of_formula (G : π → κ → κ) (hin : ∀ c s p, mem c p → R p → P c s p = G p (s p))
    (hout : ∀ c s p, ¬ (mem c p ∧ R p) → P c s p = s p) : Clipped mem R P := by
  refine ⟨hout, fun c c' s s' p hc hc' hs => ?_⟩
  by_cases hp : R p
  · rw [hin c s p hc hp, hin c' s' p hc' hp, hs]
  · rw [hout c s p fun h => hp h.2, hout c' s' p fun h => hp h.2, hs]

theorem of_apply {H : π → Prop} [DecidablePred H] [∀ c p, Decidable ((mem c p ∧ R p) ∧ H p)]
    (G : π → κ → κ) (h : ∀ c s p, P c s p = if (mem c p ∧ R p) ∧ H p then G p (s p) else s p) :
    Clipped mem R P := by
  refine .of_formula (fun p c => if H p then G p c else c) (fun c s p hc hp => ?_)
    (fun c s p hp => ?_)
  · rw [h]
    exact if_congr (and_iff_right ⟨hc, hp⟩) rfl rfl
  · rw [h, if_neg fun hin => hp hin.1]

end Clipped

end Families

end CoeleoOs.Lib.Pixel
