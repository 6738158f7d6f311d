import CoeleoOs.Lib.FirstRun
import Mathlib.Order.Interval.Finset.Nat
import Mathlib.Data.Nat.Bitwise

/-!
# The frame allocator

One bit for each 4 KiB frame below 4 GiB, set when the frame is in use. A frame
is its number, the start address divided by the frame size. The kernel is built
in release mode, where `base + FRAME_SIZE - 1` wraps around silently.
-/

namespace CoeleoOs.Mem

def frameSize : ℕ := 4096

def maxFrames : ℕ := 1048576

abbrev Bitmap := ℕ → UInt8

def bit (frame : ℕ) : ℕ × UInt8 := (frame / 8, 1 <<< UInt8.ofNat (frame % 8))

def isUsed (bitmap : Bitmap) (frame : ℕ) : Bool := bitmap (bit frame).1 &&& (bit frame).2 != 0

def markUsed (bitmap : Bitmap) (frame : ℕ) : Bitmap := fun byte =>
  if byte = (bit frame).1 then bitmap byte ||| (bit frame).2 else bitmap byte

def markFree (bitmap : Bitmap) (frame : ℕ) : Bitmap := fun byte =>
  if byte = (bit frame).1 then bitmap byte &&& ~~~(bit frame).2 else bitmap byte

/-- An entry of the memory map. -/
structure Entry where
  base : UInt64
  length : UInt64
  usable : Bool

@[ext]
structure Pmm where
  bitmap : Bitmap
  usableTotal : ℕ
  freeCount : ℕ

namespace Pmm

def releaseFrame (acc : Bitmap × ℕ) (frame : ℕ) : Bitmap × ℕ :=
  if isUsed acc.1 frame then (markFree acc.1 frame, acc.2 + 1) else acc

def framesIn (start stop : ℕ) : List ℕ := List.range' start (min stop maxFrames - start)

def entryStart (e : Entry) : ℕ := ((e.base + 4096 - 1) / 4096).toNat

def entryStop (e : Entry) : ℕ := ((e.base + e.length) / 4096).toNat

def initEntry (acc : Bitmap × ℕ) (e : Entry) : Bitmap × ℕ :=
  if e.usable then (framesIn (entryStart e) (entryStop e)).foldl releaseFrame acc else acc

def init (entries : List Entry) : Pmm :=
  let r := entries.foldl initEntry (fun _ => 0xFF, 0)
  ⟨r.1, r.2, r.2⟩

def allocContiguous (s : Pmm) (n : ℕ) : Option ℕ × Pmm :=
  if n = 0 then (none, s)
  else
    match Lib.FirstRun.firstRun (fun f => !isUsed s.bitmap f) maxFrames n with
    | none => (none, s)
    | some start =>
      (some start, { s with
        bitmap := (List.range' start n).foldl markUsed s.bitmap
        freeCount := (s.freeCount + 2 ^ 64 - n) % 2 ^ 64 })

def alloc (s : Pmm) : Option ℕ × Pmm := s.allocContiguous 1

def freeContiguous (s : Pmm) (start n : ℕ) : Pmm :=
  if n = 0 then s
  else
    let r := (framesIn start (start + n)).foldl releaseFrame (s.bitmap, 0)
    { s with bitmap := r.1, freeCount := (s.freeCount + r.2) % 2 ^ 64 }

def free (s : Pmm) (frame : ℕ) : Pmm := s.freeContiguous frame 1

end Pmm

section Bits

theorem mask_toNat : ∀ i < 8, (1 <<< UInt8.ofNat i : UInt8).toNat = 2 ^ i := by
  decide

theorem mask_not_testBit :
    ∀ i < 8, ∀ j < 8, (~~~(1 <<< UInt8.ofNat i : UInt8)).toNat.testBit j = (j != i) := by
  decide

theorem isUsed_eq_testBit (b : Bitmap) (f : ℕ) :
    isUsed b f = (b (f / 8)).toNat.testBit (f % 8) := by
  have hlt : f % 8 < 8 := Nat.mod_lt f (by decide)
  have hne : (b (f / 8) &&& (1 <<< UInt8.ofNat (f % 8)) != 0) =
      ((b (f / 8) &&& (1 <<< UInt8.ofNat (f % 8))).toNat != 0) := by
    rw [Bool.eq_iff_iff, bne_iff_ne, bne_iff_ne, ne_eq, ne_eq, ← UInt8.toNat_inj]
    rfl
  simp only [isUsed, bit]
  rw [hne, UInt8.toNat_and, mask_toNat _ hlt, Nat.and_two_pow]
  cases (b (f / 8)).toNat.testBit (f % 8) with
  | false => simp
  | true => simp

theorem markUsed_apply (b : Bitmap) (f k : ℕ) :
    markUsed b f k = if k = f / 8 then b k ||| 1 <<< UInt8.ofNat (f % 8) else b k := rfl

theorem markFree_apply (b : Bitmap) (f k : ℕ) :
    markFree b f k = if k = f / 8 then b k &&& ~~~(1 <<< UInt8.ofNat (f % 8)) else b k := rfl

theorem isUsed_markUsed (b : Bitmap) (f g : ℕ) :
    isUsed (markUsed b f) g = (isUsed b g || g == f) := by
  rw [isUsed_eq_testBit, isUsed_eq_testBit, markUsed_apply]
  by_cases hbyte : g / 8 = f / 8
  · have hfg : (g == f) = decide (f % 8 = g % 8) := by
      rw [Bool.eq_iff_iff, beq_iff_eq, decide_eq_true_iff]
      omega
    rw [if_pos hbyte, UInt8.toNat_or, Nat.testBit_or,
      mask_toNat _ (Nat.mod_lt f (by decide)), Nat.testBit_two_pow, hfg]
  · have hfg : (g == f) = false := by
      rw [beq_eq_false_iff_ne]
      rintro rfl
      exact hbyte rfl
    rw [if_neg hbyte, hfg, Bool.or_false]

theorem isUsed_markFree (b : Bitmap) (f g : ℕ) :
    isUsed (markFree b f) g = (isUsed b g && g != f) := by
  rw [isUsed_eq_testBit, isUsed_eq_testBit, markFree_apply]
  by_cases hbyte : g / 8 = f / 8
  · have hfg : (g != f) = (g % 8 != f % 8) := by
      rw [Bool.eq_iff_iff, bne_iff_ne, bne_iff_ne]
      omega
    rw [if_pos hbyte, UInt8.toNat_and, Nat.testBit_and,
      mask_not_testBit _ (Nat.mod_lt f (by decide)) _ (Nat.mod_lt g (by decide)), hfg]
  · have hfg : (g != f) = true := by
      rw [bne_iff_ne]
      rintro rfl
      exact hbyte rfl
    rw [if_neg hbyte, hfg, Bool.and_true]

theorem bitmap_ext {b b' : Bitmap} (h : ∀ f, isUsed b f = isUsed b' f) : b = b' := by
  funext k
  refine UInt8.toNat_inj.mp (Nat.eq_of_testBit_eq ?_)
  intro i
  by_cases hi : i < 8
  · have hk := h (8 * k + i)
    have hdiv : (8 * k + i) / 8 = k := by omega
    have hmod : (8 * k + i) % 8 = i := by omega
    rwa [isUsed_eq_testBit, isUsed_eq_testBit, hdiv, hmod] at hk
  · have hsmall : ∀ x : UInt8, x.toNat.testBit i = false := by
      intro x
      apply Nat.testBit_eq_false_of_lt
      calc x.toNat < 2 ^ 8 := x.toNat_lt
        _ ≤ 2 ^ i := Nat.pow_le_pow_right (by decide) (by omega)
    rw [hsmall, hsmall]

end Bits

def clearFrames (b : Bitmap) : Finset ℕ :=
  (Finset.range maxFrames).filter fun f => isUsed b f = false

theorem mem_clearFrames {b : Bitmap} {f : ℕ} :
    f ∈ clearFrames b ↔ f < maxFrames ∧ isUsed b f = false := by
  simp [clearFrames]

theorem isUsed_foldl_markUsed (l : List ℕ) (b : Bitmap) (g : ℕ) :
    isUsed (l.foldl markUsed b) g = (isUsed b g || decide (g ∈ l)) := by
  induction l generalizing b with
  | nil => simp
  | cons f l ih =>
    rw [List.foldl_cons, ih, isUsed_markUsed]
    by_cases hg : g = f
    · simp [hg]
    · simp [hg, beq_eq_false_iff_ne.mpr hg]

namespace Pmm

theorem releaseFrame_isUsed (acc : Bitmap × ℕ) (f g : ℕ) :
    isUsed (releaseFrame acc f).1 g = (isUsed acc.1 g && g != f) := by
  simp only [releaseFrame]
  split
  · exact isUsed_markFree acc.1 f g
  · rename_i hf
    by_cases hg : g = f
    · subst hg
      simp [hf]
    · simp [hg]

theorem releaseFrame_count (acc : Bitmap × ℕ) {f : ℕ} (hf : f < maxFrames) :
    (releaseFrame acc f).2 + (clearFrames acc.1).card =
      acc.2 + (clearFrames (releaseFrame acc f).1).card := by
  simp only [releaseFrame]
  split
  · rename_i hused
    have hnew : clearFrames (markFree acc.1 f) = insert f (clearFrames acc.1) := by
      ext g
      simp only [mem_clearFrames, Finset.mem_insert, isUsed_markFree]
      by_cases hg : g = f
      · subst hg
        simp [hf]
      · simp [hg]
    have hnot : f ∉ clearFrames acc.1 := by simp [mem_clearFrames, hused]
    rw [hnew, Finset.card_insert_of_notMem hnot]
    omega
  · rfl

theorem foldl_releaseFrame_isUsed (l : List ℕ) (acc : Bitmap × ℕ) (g : ℕ) :
    isUsed (l.foldl releaseFrame acc).1 g = (isUsed acc.1 g && decide (g ∉ l)) := by
  induction l generalizing acc with
  | nil => simp
  | cons f l ih =>
    rw [List.foldl_cons, ih, releaseFrame_isUsed]
    by_cases hg : g = f
    · simp [hg]
    · simp [hg, bne_iff_ne.mpr hg]

theorem foldl_releaseFrame_count {l : List ℕ} (hl : ∀ f ∈ l, f < maxFrames) (acc : Bitmap × ℕ) :
    (l.foldl releaseFrame acc).2 + (clearFrames acc.1).card =
      acc.2 + (clearFrames (l.foldl releaseFrame acc).1).card := by
  induction l generalizing acc with
  | nil => rfl
  | cons f l ih =>
    have hrest := ih (fun g hg => hl g (List.mem_cons_of_mem _ hg)) (releaseFrame acc f)
    have hone := releaseFrame_count acc (hl f List.mem_cons_self)
    rw [List.foldl_cons]
    omega

theorem mem_framesIn {start stop f : ℕ} :
    f ∈ framesIn start stop ↔ start ≤ f ∧ f < stop ∧ f < maxFrames := by
  simp only [framesIn, List.mem_range'_1]
  omega

def FreeRun (b : Bitmap) (n start : ℕ) : Prop :=
  start + n ≤ maxFrames ∧ ∀ f, start ≤ f → f < start + n → isUsed b f = false

def Counted (s : Pmm) : Prop := s.freeCount = (clearFrames s.bitmap).card

theorem card_clearFrames_le (b : Bitmap) : (clearFrames b).card ≤ maxFrames := by
  calc (clearFrames b).card ≤ (Finset.range maxFrames).card := Finset.card_filter_le _ _
    _ = maxFrames := Finset.card_range _

theorem FreeRun.subset {b : Bitmap} {n start : ℕ} (h : FreeRun b n start) :
    Finset.Ico start (start + n) ⊆ clearFrames b := by
  intro f hf
  have hf := Finset.mem_Ico.mp hf
  have hle := h.1
  exact mem_clearFrames.mpr ⟨by omega, h.2 f hf.1 hf.2⟩

section Alloc

variable {s s' : Pmm} {n start : ℕ}

theorem allocContiguous_none_iff (hn : 0 < n) :
    (s.allocContiguous n).1 = none ↔ ∀ start, ¬FreeRun s.bitmap n start := by
  have hrun :=
    Lib.FirstRun.firstRun_eq_none_iff (p := fun f => !isUsed s.bitmap f) (N := maxFrames) hn
  simp only [Lib.FirstRun.IsRun, Bool.not_eq_true'] at hrun
  simp only [FreeRun, ← hrun, allocContiguous, hn.ne', if_false]
  cases Lib.FirstRun.firstRun (fun f => !isUsed s.bitmap f) maxFrames n with
  | none => simp
  | some start => simp

theorem allocContiguous_some_iff (hn : 0 < n) :
    (s.allocContiguous n).1 = some start ↔
      FreeRun s.bitmap n start ∧ ∀ lower < start, ¬FreeRun s.bitmap n lower := by
  have hrun :=
    Lib.FirstRun.firstRun_eq_some_iff (p := fun f => !isUsed s.bitmap f) (N := maxFrames) hn
    (s := start)
  simp only [Lib.FirstRun.IsRun, Bool.not_eq_true'] at hrun
  simp only [FreeRun, ← hrun, allocContiguous, hn.ne', if_false]
  cases Lib.FirstRun.firstRun (fun f => !isUsed s.bitmap f) maxFrames n with
  | none => simp
  | some start => simp

theorem allocContiguous_pos (h : (s.allocContiguous n).1 = some start) : 0 < n := by
  rcases Nat.eq_zero_or_pos n with rfl | hn
  · simp [allocContiguous] at h
  · exact hn

theorem allocContiguous_run (h : (s.allocContiguous n).1 = some start) : FreeRun s.bitmap n start :=
  ((allocContiguous_some_iff (allocContiguous_pos h)).mp h).1

theorem allocContiguous_fail (h : (s.allocContiguous n).1 = none) :
    (s.allocContiguous n).2 = s := by
  simp only [allocContiguous] at h ⊢
  split at h
  · simp [*]
  · split at h <;> simp_all

theorem allocContiguous_post (h : (s.allocContiguous n).1 = some start) :
    (s.allocContiguous n).2 = { s with
      bitmap := (List.range' start n).foldl markUsed s.bitmap
      freeCount := (s.freeCount + 2 ^ 64 - n) % 2 ^ 64 } := by
  simp only [allocContiguous] at h ⊢
  split at h
  · cases h
  · rename_i hn
    split at h
    · cases h
    · rename_i start' hrun
      obtain rfl := Option.some.inj h
      simp only [hn, if_false]

theorem allocContiguous_clearFrames (h : (s.allocContiguous n).1 = some start) :
    clearFrames (s.allocContiguous n).2.bitmap =
      clearFrames s.bitmap \ Finset.Ico start (start + n) := by
  ext f
  rw [allocContiguous_post h]
  simp only [mem_clearFrames, Finset.mem_sdiff, Finset.mem_Ico, isUsed_foldl_markUsed,
    Bool.or_eq_false_iff, decide_eq_false_iff_not, List.mem_range'_1]
  tauto

theorem allocContiguous_counted (hs : s.Counted) : (s.allocContiguous n).2.Counted := by
  cases h : (s.allocContiguous n).1 with
  | none =>
    rw [allocContiguous_fail h]
    exact hs
  | some start =>
    have hsub := (allocContiguous_run h).subset
    have hcard : (clearFrames s.bitmap \ Finset.Ico start (start + n)).card =
        (clearFrames s.bitmap).card - n := by
      rw [Finset.card_sdiff_of_subset hsub, Nat.card_Ico, Nat.add_sub_cancel_left]
    have hle : n ≤ (clearFrames s.bitmap).card := by
      calc n = (Finset.Ico start (start + n)).card := by rw [Nat.card_Ico, Nat.add_sub_cancel_left]
        _ ≤ (clearFrames s.bitmap).card := Finset.card_le_card hsub
    have hmax := card_clearFrames_le s.bitmap
    rw [Counted, allocContiguous_clearFrames h, hcard, allocContiguous_post h]
    simp only [Counted] at hs
    simp only [maxFrames] at hmax
    simp only [hs]
    omega

end Alloc

section Free

variable {s : Pmm} {n start : ℕ}

theorem freeContiguous_bitmap (s : Pmm) (start n f : ℕ) :
    isUsed (s.freeContiguous start n).bitmap f =
      (isUsed s.bitmap f && decide ¬(start ≤ f ∧ f < start + n ∧ f < maxFrames)) := by
  simp only [freeContiguous]
  split
  · rename_i hn
    subst hn
    simp only [show ¬(start ≤ f ∧ f < start + 0 ∧
      f < maxFrames) by omega, not_false_eq_true, decide_true, Bool.and_true]
  · simp only [foldl_releaseFrame_isUsed, mem_framesIn]

theorem freeContiguous_clearFrames (s : Pmm) (start n : ℕ) :
    clearFrames (s.freeContiguous start n).bitmap =
      clearFrames s.bitmap ∪ (Finset.Ico start (start + n)).filter (· < maxFrames) := by
  ext f
  simp only [mem_clearFrames, Finset.mem_union, Finset.mem_filter, Finset.mem_Ico,
    freeContiguous_bitmap, Bool.and_eq_false_iff, decide_eq_false_iff_not, not_not]
  tauto

theorem freeContiguous_counted (start n : ℕ) (hs : s.Counted) :
    (s.freeContiguous start n).Counted := by
  have hmax := card_clearFrames_le (s.freeContiguous start n).bitmap
  simp only [Counted, freeContiguous] at hs hmax ⊢
  split
  · exact hs
  · rename_i hn
    simp only [hn, if_false] at hmax
    have hcount := foldl_releaseFrame_count (l := framesIn start (start + n))
      (fun f hf => (mem_framesIn.mp hf).2.2) (s.bitmap, 0)
    simp only [maxFrames] at hmax
    simp only at hcount
    simp only [hs]
    rw [Nat.mod_eq_of_lt (by omega)]
    omega

end Free

theorem foldl_initEntry_isUsed (entries : List Entry) (acc : Bitmap × ℕ) (f : ℕ) :
    isUsed (entries.foldl initEntry acc).1 f =
      (isUsed acc.1 f && decide ¬∃ e ∈ entries, e.usable = true ∧
        f ∈ framesIn (entryStart e) (entryStop e)) := by
  induction entries generalizing acc with
  | nil => simp
  | cons e entries ih =>
    rw [List.foldl_cons, ih]
    cases he : e.usable with
    | false => simp [initEntry, he]
    | true =>
      simp only [initEntry, he, if_true, foldl_releaseFrame_isUsed, List.mem_cons,
        exists_eq_or_imp, true_and, not_or, Bool.decide_and, Bool.and_assoc]

theorem foldl_initEntry_count (entries : List Entry) (acc : Bitmap × ℕ) :
    (entries.foldl initEntry acc).2 + (clearFrames acc.1).card =
      acc.2 + (clearFrames (entries.foldl initEntry acc).1).card := by
  induction entries generalizing acc with
  | nil => rfl
  | cons e entries ih =>
    have hrest := ih (initEntry acc e)
    have hone : (initEntry acc e).2 + (clearFrames acc.1).card =
        acc.2 + (clearFrames (initEntry acc e).1).card := by
      simp only [initEntry]
      split
      · exact foldl_releaseFrame_count (fun f hf => (mem_framesIn.mp hf).2.2) acc
      · rfl
    rw [List.foldl_cons]
    omega

theorem isUsed_full (f : ℕ) : isUsed (fun _ => 0xFF) f = true := by
  have hfull : ∀ i < 8, (0xFF : UInt8).toNat.testBit i = true := by decide
  rw [isUsed_eq_testBit]
  exact hfull _ (Nat.mod_lt f (by decide))

theorem init_clearFrames (entries : List Entry) (f : ℕ) :
    f ∈ clearFrames (init entries).bitmap ↔
      f < maxFrames ∧ ∃ e ∈ entries, e.usable = true ∧ entryStart e ≤ f ∧ f < entryStop e := by
  simp only [mem_clearFrames, init, foldl_initEntry_isUsed, isUsed_full, Bool.true_and,
    mem_framesIn, decide_eq_false_iff_not, not_not]
  constructor
  · rintro ⟨hf, e, he, hu, h1, h2, -⟩
    exact ⟨hf, e, he, hu, h1, h2⟩
  · rintro ⟨hf, e, he, hu, h1, h2⟩
    exact ⟨hf, e, he, hu, h1, h2, hf⟩

theorem init_counted (entries : List Entry) : (init entries).Counted := by
  have hcount := foldl_initEntry_count entries (fun _ => 0xFF, 0)
  have hnone : clearFrames (fun _ => 0xFF) = ∅ := by
    ext f
    simp [mem_clearFrames, isUsed_full]
  simp only [hnone, Finset.card_empty, Nat.add_zero, Nat.zero_add] at hcount
  exact hcount

theorem freeContiguous_allocContiguous {s : Pmm} {n start : ℕ} (hs : s.Counted)
    (h : (s.allocContiguous n).1 = some start) :
    (s.allocContiguous n).2.freeContiguous start n = s := by
  have hrun := allocContiguous_run h
  have hbitmap : ((s.allocContiguous n).2.freeContiguous start n).bitmap = s.bitmap := by
    apply bitmap_ext
    intro f
    rw [freeContiguous_bitmap, allocContiguous_post h]
    simp only [isUsed_foldl_markUsed, List.mem_range'_1]
    have hle := hrun.1
    by_cases hf : start ≤ f ∧ f < start + n
    · simp [hf, hrun.2 f hf.1 hf.2, show f < maxFrames by omega]
    · simp [hf, show ¬(start ≤ f ∧ f < start + n ∧ f < maxFrames) by omega]
  have hcount : ((s.allocContiguous n).2.freeContiguous start n).freeCount = s.freeCount := by
    have hcounted := freeContiguous_counted start n (allocContiguous_counted (n := n) hs)
    simp only [Counted, hbitmap] at hcounted hs
    rw [hcounted, hs]
  have htotal : ((s.allocContiguous n).2.freeContiguous start n).usableTotal = s.usableTotal := by
    simp only [freeContiguous, allocContiguous_post h]
    split <;> rfl
  exact Pmm.ext hbitmap htotal hcount

end Pmm

end CoeleoOs.Mem
