import CoeleoOs.Mem.Vmm

/-!
# When `user_slice_ok` decides

The walk over the pages of a range is sound and complete for user pages, but it builds an
address for each page before it looks at it, and that panics inside the non-canonical hole.
-/

namespace CoeleoOs.Mem.Vmm

/-- `map_user_in` maps below the user end only. -/
def UserBelow (sp : AddrSpace) : Prop :=
  ∀ n f, sp.page n = some f → f.user = true → n * frameSize < 2 ^ 47

def userSliceOkWithin (fuel : ℕ) (sp : AddrSpace) (ptr len : ℕ) : Option Bool :=
  if len = 0 then some true
  else if ptr + len < 2 ^ 64 then sliceLoop sp (ptr + len) fuel (ptr / frameSize * frameSize)
  else some false

theorem userSliceOk_eq (sp : AddrSpace) (ptr len : ℕ) :
    userSliceOk sp ptr len = userSliceOkWithin (len / frameSize + 2) sp ptr len := rfl

def MeetsHole (sp : AddrSpace) (va stop : ℕ) : Prop :=
  va < stop ∧ (canonical va = false ∨ (va < 2 ^ 47 ∧ 2 ^ 47 < stop ∧ UserRange sp va (2 ^ 47 - va)))

section Loop

variable {sp : AddrSpace} {stop fuel va : ℕ}

theorem userPageMapped_cases (sp : AddrSpace) (va : ℕ) :
    (canonical va = false ∧ userPageMapped sp va = none) ∨
      (canonical va = true ∧ userPageMapped sp va = some true ∧ ∃ f, sp.page (va / frameSize) =
        some f ∧ f.user = true) ∨ (canonical va = true ∧ userPageMapped sp va = some false ∧
        ¬∃ f, sp.page (va / frameSize) = some f ∧ f.user = true) := by
  unfold userPageMapped
  cases hcan : canonical va with
  | false => exact .inl ⟨rfl, rfl⟩
  | true =>
    rw [if_pos rfl]
    rcases hpage : sp.page (va / frameSize) with _ | f
    · exact .inr (.inr ⟨rfl, rfl, by simp⟩)
    · cases huser : f.user with
      | true => exact .inr (.inl ⟨rfl, congrArg some huser, f, rfl, huser⟩)
      | false => exact .inr (.inr ⟨rfl, congrArg some huser, by simp [huser]⟩)

theorem UserBelow.page (h : UserBelow sp) {a : ℕ}
    (ha : ∃ f, sp.page (a / frameSize) = some f ∧ f.user = true) :
    a < 2 ^ 47 := by
  obtain ⟨f, hf, huser⟩ := ha
  have hlow := h _ f hf huser
  simp only [frameSize] at hlow
  omega

theorem sliceLoop_enough (hfuel : stop ≤ va + fuel * frameSize) (n : ℕ) :
    sliceLoop sp stop (fuel + n) va = sliceLoop sp stop fuel va := by
  induction fuel generalizing va with
  | zero =>
    rw [Nat.zero_mul, Nat.add_zero] at hfuel
    cases n with
    | zero => rfl
    | succ n =>
      rw [Nat.zero_add]
      exact if_neg (Nat.not_lt.mpr hfuel)
  | succ fuel ih =>
    have hnext : stop ≤ va + frameSize + fuel * frameSize := by
      rw [Nat.add_one_mul] at hfuel
      omega
    rw [Nat.add_right_comm, sliceLoop, sliceLoop, ih hnext]

theorem sliceLoop_eq_none (hbelow : UserBelow sp) (hal : va % frameSize = 0)
    (hfuel : stop ≤ va + fuel * frameSize) : sliceLoop sp stop fuel va = none ↔
    MeetsHole sp va stop := by
  induction fuel generalizing va with
  | zero =>
    rw [Nat.zero_mul, Nat.add_zero] at hfuel
    exact iff_of_false (fun h => by cases h) fun h => absurd h.1 (Nat.not_lt.mpr hfuel)
  | succ fuel ih =>
    rw [sliceLoop]
    by_cases hlt : va < stop
    swap
    · rw [if_neg hlt]
      exact iff_of_false (by simp) fun h => hlt h.1
    rw [if_pos hlt]
    rcases userPageMapped_cases sp va with ⟨hcan, hmap⟩ | ⟨hcan, hmap, huser⟩ | ⟨hcan, hmap, huser⟩
    · rw [hmap]
      exact iff_of_true rfl ⟨hlt, .inl hcan⟩
    · have hlow := hbelow.page huser
      have hin : va + frameSize < 2 ^ 64 := by simp only [frameSize]; omega
      have hstep :
          sliceLoop sp stop fuel (va + frameSize) = none ↔ MeetsHole sp (va + frameSize) stop :=
        ih (by simp only [frameSize] at *; omega) (by rw [Nat.add_one_mul] at hfuel; omega)
      rw [hmap]
      dsimp only
      rw [if_pos hin, hstep]
      have hpage : ∀ a, va ≤ a → a < va + frameSize → ∃ f, sp.page (a / frameSize) = some f ∧
          f.user = true := by
        intro a hva ha
        have hsame : a / frameSize = va / frameSize := by simp only [frameSize] at *; omega
        rw [hsame]
        exact huser
      have hedge : va + frameSize ≤ 2 ^ 47 := by simp only [frameSize] at *; omega
      simp only [MeetsHole, canonical, decide_eq_false_iff_not]
      constructor
      · rintro ⟨hnext, hhole | ⟨-, hstop, hrange⟩⟩
        · have heq : va + frameSize = 2 ^ 47 := by simp only [frameSize] at *; omega
          refine ⟨hlt, .inr ⟨hlow, by omega, fun a hva ha => hpage a hva ?_⟩⟩
          omega
        · refine ⟨hlt, .inr ⟨hlow, hstop, fun a hva ha => ?_⟩⟩
          by_cases hin : a < va + frameSize
          · exact hpage a hva hin
          · exact hrange a (by omega) (by omega)
      · rintro ⟨-, hhole | ⟨-, hstop, hrange⟩⟩
        · exact absurd (.inl hlow) hhole
        · refine ⟨by omega, ?_⟩
          by_cases heq : va + frameSize = 2 ^ 47
          · exact .inl (by omega)
          · exact .inr ⟨by omega, hstop, fun a hva ha => hrange a (by omega) (by omega)⟩
    · rw [hmap]
      refine iff_of_false (by simp) ?_
      rintro ⟨-, hhole | ⟨hlow, -, hrange⟩⟩
      · rw [hcan] at hhole
        cases hhole
      · exact huser (hrange va le_rfl (by omega))

theorem sliceLoop_of_userRange (hbelow : UserBelow sp) (h : ∀ a, va ≤ a → a < stop →
    ∃ f, sp.page (a / frameSize) = some f ∧ f.user = true) : sliceLoop sp stop fuel va =
      some true := by
  induction fuel generalizing va with
  | zero => rfl
  | succ fuel ih =>
    rw [sliceLoop]
    split
    · rename_i hlt
      have huser := h va le_rfl hlt
      have hlow := hbelow.page huser
      rcases userPageMapped_cases sp va with ⟨hcan, -⟩ | ⟨-, hmap, -⟩ | ⟨-, -, hno⟩
      · exact absurd (.inl hlow) (of_decide_eq_false hcan)
      · rw [hmap]
        dsimp only
        rw [if_pos (by simp only [frameSize]; omega)]
        exact ih fun a hva ha => h a (by omega) ha
      · exact absurd huser hno
    · rfl

end Loop

section Range

variable {sp : AddrSpace} {ptr len : ℕ}

theorem userSliceOkWithin_enough {fuel : ℕ} (hfuel : len / frameSize + 2 ≤ fuel) :
    userSliceOkWithin fuel sp ptr len = userSliceOk sp ptr len := by
  have henough : ptr + len ≤ ptr / frameSize * frameSize + (len / frameSize + 2) * frameSize := by
    simp only [frameSize]
    omega
  obtain ⟨n, rfl⟩ := Nat.exists_eq_add_of_le hfuel
  rw [userSliceOk_eq]
  unfold userSliceOkWithin
  rw [sliceLoop_enough henough]

theorem meetsHole_page (hlen : len ≠ 0) : MeetsHole sp (ptr / frameSize * frameSize) (ptr + len) ↔
    canonical ptr = false ∨
    (ptr < 2 ^ 47 ∧ 2 ^ 47 < ptr + len ∧ UserRange sp ptr (2 ^ 47 - ptr)) := by
  have hlow : ptr / frameSize * frameSize < 2 ^ 47 ↔ ptr < 2 ^ 47 := by simp only [frameSize]; omega
  have hcan : canonical (ptr / frameSize * frameSize) = canonical ptr := by
    simp only [canonical, decide_eq_decide, frameSize]
    omega
  have hbase : ptr / frameSize * frameSize ≤ ptr := Nat.div_mul_le_self ptr frameSize
  rw [MeetsHole, hcan, hlow, and_iff_right (by omega)]
  refine or_congr_right (and_congr_right fun hptr => and_congr_right fun _ => ?_)
  constructor
  · exact fun h a hlo hhi => h a (by omega) (by omega)
  · intro h a hlo hhi
    by_cases hin : ptr ≤ a
    · exact h a hin (by omega)
    · have hsame : a / frameSize = ptr / frameSize := by simp only [frameSize] at *; omega
      rw [hsame]
      exact h ptr le_rfl (by omega)

theorem userSliceOk_eq_none (hbelow : UserBelow sp) : userSliceOk sp ptr len = none ↔
    len ≠ 0 ∧ ptr + len < 2 ^ 64 ∧
      (canonical ptr = false ∨
        (ptr < 2 ^ 47 ∧ 2 ^ 47 < ptr + len ∧ UserRange sp ptr (2 ^ 47 - ptr))) := by
  unfold userSliceOk
  by_cases hlen : len = 0
  · rw [if_pos hlen]
    exact iff_of_false nofun fun h => h.1 hlen
  rw [if_neg hlen, and_iff_right hlen]
  by_cases hin : ptr + len < 2 ^ 64
  · rw [if_pos hin, and_iff_right hin, ← meetsHole_page hlen]
    exact sliceLoop_eq_none hbelow (by simp only [frameSize]; omega)
      (by simp only [frameSize]; omega)
  · rw [if_neg hin]
    exact iff_of_false nofun fun h => hin h.1

theorem userSliceOk_of_userRange (hbelow : UserBelow sp) (h : UserRange sp ptr len) :
    userSliceOk sp ptr len = some true := by
  unfold userSliceOk
  by_cases hlen : len = 0
  · rw [if_pos hlen]
  rw [if_neg hlen]
  have hlast := hbelow.page (h (ptr + len - 1) (by omega) (by omega))
  rw [if_pos (by omega)]
  refine sliceLoop_of_userRange hbelow fun a hlo hhi => ?_
  by_cases hin : ptr ≤ a
  · exact h a hin hhi
  · have hsame : a / frameSize = ptr / frameSize := by simp only [frameSize] at *; omega
    rw [hsame]
    exact h ptr le_rfl (by omega)

/-- The answer is there for every number of rounds that the length allows, and it is the right one,
unless the walk meets the hole. -/
theorem userSliceOk_decides_iff (hbelow : UserBelow sp) :
    (∃ b, (∀ fuel, len / frameSize + 2 ≤ fuel → userSliceOkWithin fuel sp ptr len = some b) ∧
      (b = true ↔ len = 0 ∨ UserRange sp ptr len)) ↔
    len = 0 ∨ 2 ^ 64 ≤ ptr + len ∨
      (canonical ptr = true ∧
        ¬(ptr < 2 ^ 47 ∧ 2 ^ 47 < ptr + len ∧ UserRange sp ptr (2 ^ 47 - ptr))) := by
  have hsafe : (len = 0 ∨ 2 ^ 64 ≤ ptr + len ∨ (canonical ptr = true ∧
      ¬(ptr < 2 ^ 47 ∧ 2 ^ 47 < ptr + len ∧ UserRange sp ptr (2 ^ 47 - ptr)))) ↔
      userSliceOk sp ptr len ≠ none := by
    rw [ne_eq, userSliceOk_eq_none hbelow, ← Bool.not_eq_true]
    by_cases hlen : len = 0
    · exact iff_of_true (.inl hlen) fun h => h.1 hlen
    rw [or_iff_right hlen, and_iff_right hlen]
    by_cases hin : ptr + len < 2 ^ 64
    · rw [or_iff_right (by omega), and_iff_right hin, not_or, not_not]
    · exact iff_of_true (.inl (by omega)) fun h => hin h.1
  rw [hsafe]
  constructor
  · rintro ⟨b, hb, -⟩ hnone
    have hval := hb _ le_rfl
    rw [← userSliceOk_eq, hnone] at hval
    cases hval
  · intro h
    obtain ⟨b, hb⟩ := Option.ne_none_iff_exists'.mp h
    refine ⟨b, fun fuel hfuel => (userSliceOkWithin_enough hfuel).trans hb, ?_⟩
    constructor
    · rintro rfl
      exact .inr (userSliceOk_userRange hb)
    · rintro (rfl | hrange)
      · exact (Option.some.inj hb).symm
      · rw [userSliceOk_of_userRange hbelow hrange] at hb
        exact (Option.some.inj hb).symm

end Range

def firstPage : AddrSpace := ⟨fun n => if n = 0 then some ⟨true, true⟩ else none⟩

theorem firstPage_below : UserBelow firstPage := by
  intro n f hf _
  by_cases hn : n = 0
  · subst hn
    decide
  · change (if n = 0 then some (⟨true, true⟩ : PageFlags) else none) = some f at hf
    rw [if_neg hn] at hf
    cases hf

theorem firstPage_decided :
    ∃ b, (∀ fuel, 2 / frameSize + 2 ≤ fuel → userSliceOkWithin fuel firstPage 4095 2 = some b) ∧
    (b = true ↔ 2 = 0 ∨ UserRange firstPage 4095 2) :=
  (userSliceOk_decides_iff firstPage_below).mpr
    (.inr (.inr ⟨by decide, fun h => absurd h.2.1 (by decide)⟩))

theorem userSliceOk_panics_in_hole :
    UserBelow firstPage ∧ ¬∃ b, userSliceOk firstPage (2 ^ 47) 1 = some b := by
  refine ⟨firstPage_below, ?_⟩
  rintro ⟨b, hb⟩
  have hnone : userSliceOk firstPage (2 ^ 47) 1 = none := by decide
  rw [hnone] at hb
  cases hb

end CoeleoOs.Mem.Vmm
