import CoeleoOs.Lib.Machine
import CoeleoOs.Mem.Pmm

/-!
# The life of the frame allocator

A run starts from `init` and mixes allocations with frees of what is held. The
invariant is a partition: the frames that `init` released are the free ones and
the held ones, and no frame is held twice.
-/

namespace CoeleoOs.Mem

structure Ledger where
  pmm : Pmm
  held : List (ℕ × ℕ)

inductive LedgerOp
  | alloc (n : ℕ)
  | free (start n : ℕ)

namespace Ledger

def frames (r : ℕ × ℕ) : Finset ℕ := Finset.Ico r.1 (r.1 + r.2)

def step (s : Ledger) : LedgerOp → Option Ledger
  | .alloc n =>
    match s.pmm.allocContiguous n with
    | (none, pmm) => some ⟨pmm, s.held⟩
    | (some start, pmm) => some ⟨pmm, (start, n) :: s.held⟩
  | .free start n =>
    if (start, n) ∈ s.held then some ⟨s.pmm.freeContiguous start n, s.held.erase (start, n)⟩
      else none

def boot (entries : List Entry) : Ledger := ⟨Pmm.init entries, []⟩

structure Balanced (all : Finset ℕ) (s : Ledger) : Prop where
  counted : s.pmm.Counted
  disjoint : s.held.Pairwise fun r r' => Disjoint (frames r) (frames r')
  pos : ∀ r ∈ s.held, 0 < r.2
  clear : ∀ f, f ∈ clearFrames s.pmm.bitmap ↔ f ∈ all ∧ ∀ r ∈ s.held, f ∉ frames r
  held_subset : ∀ r ∈ s.held, frames r ⊆ all

theorem boot_balanced (entries : List Entry) :
    Balanced (clearFrames (Pmm.init entries).bitmap) (boot entries) where
  counted := Pmm.init_counted entries
  disjoint := List.Pairwise.nil
  pos := by simp [boot]
  clear := by simp [boot]
  held_subset := by simp [boot]

section Step

variable {all : Finset ℕ} {s s' : Ledger} {n start : ℕ}

theorem Balanced.alloc (h : Balanced all s) (hstep : s.step (.alloc n) = some s') :
    Balanced all s' := by
  simp only [step] at hstep
  rcases hal : s.pmm.allocContiguous n with ⟨_ | start, pmm⟩
  · have hsame := Pmm.allocContiguous_fail (s := s.pmm) (n := n) (by rw [hal])
    simp only [hal, Option.some.injEq] at hstep hsame
    rw [← hstep, hsame]
    exact h
  · have hsome : (s.pmm.allocContiguous n).1 = some start := by rw [hal]
    have hclear := Pmm.allocContiguous_clearFrames hsome
    have hcounted := Pmm.allocContiguous_counted (n := n) h.counted
    have hsub := (Pmm.allocContiguous_run hsome).subset
    have hpos := Pmm.allocContiguous_pos hsome
    simp only [hal] at hclear hcounted
    simp only [hal, Option.some.injEq] at hstep
    subst hstep
    have hnew : ∀ r ∈ s.held, Disjoint (frames (start, n)) (frames r) := by
      intro r hr
      rw [Finset.disjoint_left]
      intro f hf hfr
      exact ((h.clear f).mp (hsub hf)).2 r hr hfr
    refine ⟨hcounted, List.Pairwise.cons hnew h.disjoint, ?_, ?_, ?_⟩
    · intro r hr
      rcases List.mem_cons.mp hr with rfl | hr
      · exact hpos
      · exact h.pos r hr
    · intro f
      simp only [hclear, Finset.mem_sdiff, h.clear f, List.mem_cons, forall_eq_or_imp, frames]
      tauto
    · intro r hr
      rcases List.mem_cons.mp hr with rfl | hr
      · intro f hf
        exact ((h.clear f).mp (hsub hf)).1
      · exact h.held_subset r hr

theorem Balanced.disjoint_erase (h : Balanced all s) (hr : (start, n) ∈ s.held) :
    ∀ r ∈ s.held.erase (start, n), Disjoint (frames (start, n)) (frames r) := by
  have hperm := List.perm_cons_erase hr
  have hpair := (hperm.pairwise_iff fun {_ _} hd => hd.symm).mp h.disjoint
  exact (List.pairwise_cons.mp hpair).1

theorem Balanced.free (h : Balanced all s) (hall : ∀ f ∈ all, f < maxFrames)
    (hstep : s.step (.free start n) = some s') : Balanced all s' := by
  simp only [step] at hstep
  split at hstep
  · rename_i hr
    obtain rfl := Option.some.inj hstep
    have hperm := List.perm_cons_erase hr
    have hother := h.disjoint_erase hr
    have hsub := h.held_subset _ hr
    refine ⟨Pmm.freeContiguous_counted _ _ h.counted, h.disjoint.sublist List.erase_sublist, ?_, ?_,
      ?_⟩
    · intro r hr'
      exact h.pos r (List.mem_of_mem_erase hr')
    · intro f
      have hheld : (∀ r ∈ s.held, f ∉ frames r) ↔
          f ∉ frames (start, n) ∧ ∀ r ∈ s.held.erase (start, n), f ∉ frames r := by
        simp only [hperm.mem_iff, List.mem_cons, forall_eq_or_imp]
      rw [Pmm.freeContiguous_clearFrames, Finset.mem_union, h.clear, hheld]
      have hfree : f ∈ (Finset.Ico start (start + n)).filter (· < maxFrames) ↔
          f ∈ frames (start, n) ∧ f < maxFrames := Finset.mem_filter
      rw [hfree]
      constructor
      · rintro (⟨hin, -, hrest⟩ | ⟨hf, -⟩)
        · exact ⟨hin, hrest⟩
        · refine ⟨hsub hf, ?_⟩
          intro r hr' hfr
          exact Finset.disjoint_left.mp (hother r hr') hf hfr
      · rintro ⟨hin, hrest⟩
        by_cases hf : f ∈ frames (start, n)
        · exact .inr ⟨hf, hall f hin⟩
        · exact .inl ⟨hin, hf, hrest⟩
    · intro r hr'
      exact h.held_subset r (List.mem_of_mem_erase hr')
  · cases hstep

theorem Balanced.step (h : Balanced all s) (hall : ∀ f ∈ all, f < maxFrames) {op : LedgerOp}
    (hstep : s.step op = some s') : Balanced all s' := by
  cases op with
  | alloc n => exact h.alloc hstep
  | free start n => exact h.free hall hstep

end Step

theorem balanced_of_reachable {entries : List Entry} {s : Ledger}
    (h : Lib.Machine.Reachable step (boot entries) s) :
    Balanced (clearFrames (Pmm.init entries).bitmap) s := by
  refine h.invariant (boot_balanced entries) ?_
  intro s op s' hs hstep
  exact hs.step (fun f hf => (mem_clearFrames.mp hf).1) hstep

def InUsable (entries : List Entry) (f : ℕ) : Prop :=
  ∃ e ∈ entries, e.usable = true ∧ e.base.toNat ≤ f * frameSize ∧
    (f + 1) * frameSize ≤ e.base.toNat + e.length.toNat

/-- What the allocator promises in a state of its life. -/
structure Sound (entries : List Entry) (s : Ledger) : Prop where
  counted : s.pmm.freeCount = (clearFrames s.pmm.bitmap).card
  disjoint : s.held.Pairwise fun r r' => Disjoint (frames r) (frames r')
  usable : ∀ r ∈ s.held, ∀ f ∈ frames r, f < maxFrames ∧ InUsable entries f
  alloc_lowest : ∀ n start, 0 < n → ((s.pmm.allocContiguous n).1 = some start ↔
    Pmm.FreeRun s.pmm.bitmap n start ∧ ∀ lower < start, ¬Pmm.FreeRun s.pmm.bitmap n lower)
  alloc_none :
    ∀ n, 0 < n → ((s.pmm.allocContiguous n).1 = none ↔ ∀ start, ¬Pmm.FreeRun s.pmm.bitmap n start)
  alloc_free : ∀ n start, (s.pmm.allocContiguous n).1 = some start →
    (s.pmm.allocContiguous n).2.freeContiguous start n = s.pmm
  free_held : ∀ r ∈ s.held,
    clearFrames (s.pmm.freeContiguous r.1 r.2).bitmap = clearFrames s.pmm.bitmap ∪ frames r ∧
      Disjoint (clearFrames s.pmm.bitmap) (frames r) ∧
      (s.pmm.freeContiguous r.1 r.2).freeCount = s.pmm.freeCount + r.2

theorem Balanced.free_held {all : Finset ℕ} {s : Ledger} (h : Balanced all s)
    (hall : ∀ f ∈ all, f < maxFrames) {r : ℕ × ℕ} (hr : r ∈ s.held) :
    clearFrames (s.pmm.freeContiguous r.1 r.2).bitmap = clearFrames s.pmm.bitmap ∪ frames r ∧
      Disjoint (clearFrames s.pmm.bitmap) (frames r) ∧
      (s.pmm.freeContiguous r.1 r.2).freeCount = s.pmm.freeCount + r.2 := by
  have hfilter : (Finset.Ico r.1 (r.1 + r.2)).filter (· < maxFrames) = frames r :=
    Finset.filter_true_of_mem fun f hf => hall f (h.held_subset r hr hf)
  have hclear := Pmm.freeContiguous_clearFrames s.pmm r.1 r.2
  rw [hfilter] at hclear
  have hdisj : Disjoint (clearFrames s.pmm.bitmap) (frames r) := by
    rw [Finset.disjoint_left]
    intro f hf
    exact ((h.clear f).mp hf).2 r hr
  have hcount := Pmm.freeContiguous_counted r.1 r.2 h.counted
  have hcard : (frames r).card = r.2 := by rw [frames, Nat.card_Ico, Nat.add_sub_cancel_left]
  refine ⟨hclear, hdisj, ?_⟩
  rw [hcount, hclear, Finset.card_union_of_disjoint hdisj, hcard, h.counted]

theorem Balanced.sound {entries : List Entry} {all : Finset ℕ} {s : Ledger} (h : Balanced all s)
    (hall : ∀ f ∈ all, f < maxFrames ∧ InUsable entries f) : Sound entries s where
  counted := h.counted
  disjoint := h.disjoint
  usable := fun r hr f hf => hall f (h.held_subset r hr hf)
  alloc_lowest := fun _ _ hn => Pmm.allocContiguous_some_iff hn
  alloc_none := fun _ hn => Pmm.allocContiguous_none_iff hn
  alloc_free := fun _ _ hal => Pmm.freeContiguous_allocContiguous h.counted hal
  free_held := fun _ hr => h.free_held (fun f hf => (hall f hf).1) hr

section Entries

variable {e : Entry} {f : ℕ}

theorem entryStop_eq (h : e.base.toNat + e.length.toNat < 2 ^ 64) :
    Pmm.entryStop e = (e.base.toNat + e.length.toNat) / 4096 := by
  rw [Pmm.entryStop, UInt64.toNat_div, UInt64.toNat_add, Nat.mod_eq_of_lt h]
  rfl

theorem entryStart_mod (e : Entry) : Pmm.entryStart e = (e.base.toNat + 4095) % 2 ^ 64 / 4096 := by
  have hlt := e.base.toNat_lt
  rw [Pmm.entryStart, UInt64.toNat_div, UInt64.toNat_sub, UInt64.toNat_add]
  simp only [UInt64.reduceToNat]
  omega

theorem entryStart_wraps (h : 2 ^ 64 ≤ e.base.toNat + 4095) : Pmm.entryStart e = 0 := by
  have hlt := e.base.toNat_lt
  rw [entryStart_mod]
  omega

theorem entry_frames_iff (hbase : e.base.toNat + 4095 < 2 ^ 64)
    (hlen : e.base.toNat + e.length.toNat < 2 ^ 64) :
    (Pmm.entryStart e ≤ f ∧ f < Pmm.entryStop e) ↔
      e.base.toNat ≤ f * frameSize ∧ (f + 1) * frameSize ≤ e.base.toNat + e.length.toNat := by
  rw [entryStart_mod, Nat.mod_eq_of_lt hbase, entryStop_eq hlen]
  simp only [frameSize]
  omega

end Entries

theorem released_inUsable {entries : List Entry}
    (hlen : ∀ e ∈ entries, e.base.toNat + e.length.toNat < 2 ^ 64)
    (hbase : ∀ e ∈ entries, e.usable = true → e.base.toNat + 4095 < 2 ^ 64) :
    ∀ f ∈ clearFrames (Pmm.init entries).bitmap, f < maxFrames ∧ InUsable entries f := by
  intro f hf
  obtain ⟨hlt, e, he, hu, hin⟩ := (Pmm.init_clearFrames entries f).mp hf
  exact ⟨hlt, e, he, hu, (entry_frames_iff (hbase e he hu) (hlen e he)).mp hin⟩

-- An entry whose start wraps around releases every frame.
theorem released_all {entries : List Entry} {e : Entry} (he : e ∈ entries) (hu : e.usable = true)
    (hlen : e.base.toNat + e.length.toNat < 2 ^ 64) (hwrap : 2 ^ 64 ≤ e.base.toNat + 4095) {f : ℕ}
    (hf : f < maxFrames) : f ∈ clearFrames (Pmm.init entries).bitmap := by
  refine (Pmm.init_clearFrames entries f).mpr ⟨hf, e, he, hu, ?_, ?_⟩
  · rw [entryStart_wraps hwrap]
    exact Nat.zero_le f
  · rw [entryStop_eq hlen]
    simp only [maxFrames] at hf
    omega

theorem alloc_all (entries : List Entry)
    (h : ∀ f < maxFrames, f ∈ clearFrames (Pmm.init entries).bitmap) :
    ∃ s, Lib.Machine.Reachable step (boot entries) s ∧ (0, maxFrames) ∈ s.held := by
  have hsome : ((Pmm.init entries).allocContiguous maxFrames).1 = some 0 := by
    refine (Pmm.allocContiguous_some_iff (by decide)).mpr ⟨⟨by omega, ?_⟩,
      fun _ hlt => absurd hlt (by omega)⟩
    intro f _ hf
    exact (mem_clearFrames.mp (h f (by omega))).2
  rcases hal : (Pmm.init entries).allocContiguous maxFrames with ⟨_ | start, pmm⟩
  · rw [hal] at hsome
    cases hsome
  · rw [hal] at hsome
    obtain rfl := Option.some.inj hsome
    have hstep : step (boot entries) (.alloc maxFrames) = some ⟨pmm, [(0, maxFrames)]⟩ := by
      simp only [step, boot, hal]
    exact ⟨_, ⟨_, .snoc _ .nil hstep⟩, List.mem_singleton.mpr rfl⟩

/-- The allocator keeps its promises exactly when no usable entry begins in the last bytes
of the address space, where its first frame is computed as frame 0, or when all frames
are usable anyway. -/
theorem frame_allocator_sound_iff (entries : List Entry)
    (hlen : ∀ e ∈ entries, e.base.toNat + e.length.toNat < 2 ^ 64) :
    (∀ s, Lib.Machine.Reachable step (boot entries) s → Sound entries s) ↔
      (∀ e ∈ entries, e.usable = true → e.base.toNat + 4095 < 2 ^ 64) ∨
        ∀ f < maxFrames, InUsable entries f := by
  constructor
  · intro hsound
    by_cases hbase : ∀ e ∈ entries, e.usable = true → e.base.toNat + 4095 < 2 ^ 64
    · exact .inl hbase
    · push Not at hbase
      obtain ⟨e, he, hu, hwrap⟩ := hbase
      obtain ⟨s, hreach, hheld⟩ :=
        alloc_all entries fun f hf => released_all he hu (hlen e he) hwrap hf
      refine .inr ?_
      intro f hf
      exact ((hsound s hreach).usable _ hheld f (Finset.mem_Ico.mpr ⟨Nat.zero_le f, by omega⟩)).2
  · rintro (hbase | hall) s hreach
    · exact (balanced_of_reachable hreach).sound (released_inUsable hlen hbase)
    · refine (balanced_of_reachable hreach).sound ?_
      intro f hf
      have hlt := (mem_clearFrames.mp hf).1
      exact ⟨hlt, hall f hlt⟩

theorem frame_allocator_sound_one_page :
    let entries : List Entry := [⟨0x100000, 4096, true⟩, ⟨0xFFFFFFFFFFFFF000, 0xFFF, false⟩]
    ∀ s, Lib.Machine.Reachable step (boot entries) s → Sound entries s := by
  intro entries
  exact (frame_allocator_sound_iff entries (by decide)).mpr (.inl (by decide))

/-- A usable entry of 100 bytes near the end of the address space makes frame 0 free. -/
theorem frame_allocator_hands_out_frame_zero :
    ¬∀ s, Lib.Machine.Reachable step (boot [⟨0xFFFFFFFFFFFFF060, 100, true⟩]) s →
      Sound [⟨0xFFFFFFFFFFFFF060, 100, true⟩] s := by
  intro hsound
  obtain ⟨s, hreach, hheld⟩ := alloc_all [⟨0xFFFFFFFFFFFFF060, 100, true⟩] fun f hf =>
    released_all List.mem_cons_self rfl (by decide) (by decide) hf
  have huse := (hsound s hreach).usable _ hheld 0 (Finset.mem_Ico.mpr ⟨le_rfl, by decide⟩)
  obtain ⟨e, he, -, hlow, -⟩ := huse.2
  rw [List.mem_singleton.mp he] at hlow
  exact absurd hlow (by decide)

end Ledger

end CoeleoOs.Mem
