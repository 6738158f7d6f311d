import CoeleoOs.Ui.FmSelection

/-!
# History and location

In every run the history of the file manager shows the folder of the panel, no event panics,
and Back and Forward return to where the panel was, with the row it had. The folder has its
own name as long as every path that is entered in the path bar has it: any other text that
can be listed is taken as it is, and Up then cuts it at a slash that ends no component.
-/

namespace CoeleoOs.Ui.FmNav
open CoeleoOs.Fs CoeleoOs.Lib CoeleoOs.Lib.Machine
open CoeleoOs.Sh (Canonical Component)
open CoeleoOs.Task (Bytes DirEnt FsError)

variable {φ η : Type} {fat : FatIo φ η} {view : Mount φ → Bytes → Opened} {font : Font}
  {m : Mount φ} {path : Bytes} {s s' t p : FmNav} {e : FmEvent} {a : Mount φ × FmEvent}

def Presses (font : Font) (s : FmNav) (hit : NavHit) : FmEvent → Prop
  | .click lx ly w h _ => ly < h ∧ ly < navH ∧ navHit font s lx w = hit
  | _ => False

structure BackAt (p s s' : FmNav) : Prop where
  cwd : s'.cwd = p.cwd
  histI : s'.histI = p.histI
  sel : p.search = [] → s.search = [] → s'.ents = p.ents → s'.sel = p.sel

/-- After a step forward in the history Back returns, and after a step back Forward does, whatever
happens within the folder in between. -/
def Returning (fat : FatIo φ η) (view : Mount φ → Bytes → Opened) (font : Font)
    (t : Trans FmNav (Mount φ × FmEvent)) : Prop :=
  ∀ us s m e s', Path (step fat view font) t.post us s → (∀ u ∈ us, u.post.histI = u.pre.histI) →
    step fat view font s (m, e) = some s' →
      (t.post.histI = t.pre.histI + 1 → Presses font s .back e →
        BackAt (pressed font t.pre t.act.2) s s') ∧ (t.post.histI + 1 = t.pre.histI →
        Presses font s .fwd e → BackAt (pressed font t.pre t.act.2) s s')

/-- The folder has its own name, and Up leads to its parent. -/
def Located (fat : Fatfs φ η) (s : FmNav) : Prop :=
  Canonical s.cwd ∧ ∀ m : Mount φ, ParentDir s.cwd (goParent fat m s).cwd

/-- The path that is entered, if one is, has its own name. -/
def EntersCanonical (fat : Fatfs φ η) (t : Trans FmNav (Mount φ × FmEvent)) : Prop :=
  Enters fat t.act.1 t.pre t.act.2 → Canonical t.pre.pathText

/-- The names in a directory are not empty and have no slash. -/
structure Names (fat : Fatfs φ η) : Prop where
  root : ∀ {fs ent}, some ent ∈ fat.rootDir fs → ent.name ≠ [] ∧ slash ∉ ent.name
  dir : ∀ {fs rel dir ent}, fat.openDir fs rel = .ok dir → some ent ∈ dir → ent.name ≠ [] ∧
    slash ∉ ent.name

section Returns

theorem step_back (h : Presses font s .back e) (m : Mount φ) : step fat view font s (m, e) =
    (histBack fat.toFatfs m font s).map fun s => repaint font s e := by
  cases e with
  | click lx ly w k now =>
    obtain ⟨hk, hly, hhit⟩ := h
    rw [step, act, if_pos hk, clickAt, if_pos hly, clickNavbar, hhit]
  | _ => exact h.elim

theorem step_fwd (h : Presses font s .fwd e) (m : Mount φ) : step fat view font s (m, e) =
    (histFwd fat.toFatfs m font s).map fun s => repaint font s e := by
  cases e with
  | click lx ly w k now =>
    obtain ⟨hk, hly, hhit⟩ := h
    rw [step, act, if_pos hk, clickAt, if_pos hly, clickNavbar, hhit]
  | _ => exact h.elim

theorem Travels.leaves (h : Travels fat.toFatfs m s t) (hin : s.visits.Inside)
    (hne : t.histI ≠ s.histI) : t.hist[s.histI]? = some s.place := by
  rcases h with rfl | ⟨i, p, -, -, -, hv⟩
  · exact absurd rfl hne
  · have hhist : t.hist = (s.visits.remember s.place).places := congrArg Visits.places hv
    rw [hhist]
    exact Visits.here_remember hin

theorem Travels.inPlace (h : Travels fat.toFatfs m s t) (heq : t.histI = s.histI) :
    t.hist = s.hist := by
  rcases h with rfl | ⟨i, p, hi, -, -, hv⟩
  · rfl
  · have hpos : t.histI = i := congrArg Visits.pos hv
    exact absurd (hpos.symm.trans heq) hi

theorem Outcome.leaves (h : Outcome fat font m s e t) (hin : s.InStep) (hne : t.histI ≠ s.histI) :
    t.hist[s.histI]? = some (pressed font s e).place := by
  cases h with
  | stay hstay => exact absurd hstay.histI hne
  | @led path hled =>
    have hp := stays_pressed font s e
    have hgo := go_remembers fat m (hp.inStep hin).1 path
    rw [hp.histI] at hgo
    exact hgo.1
  | enter hent =>
    obtain ⟨rfl, -, -⟩ := hent
    exact (go_remembers fat m hin.1 _).1
  | back he hback =>
    rw [he]
    exact (histBack_travels hin.1 hback).leaves hin.1 hne
  | fwd he hfwd =>
    rw [he]
    exact (histFwd_travels hfwd).leaves hin.1 hne
  | delete he => exact absurd (deleteSel_same fat font m s).2.2 hne

theorem Outcome.inPlace (h : Outcome fat font m s e t) (hin : s.InStep) (heq : t.histI = s.histI) :
    t.hist = s.hist := by
  cases h with
  | stay hstay => exact hstay.hist
  | @led path hled =>
    have hp := stays_pressed font s e
    have hgo := go_remembers fat m (hp.inStep hin).1 path
    rw [hgo.2, hp.histI] at heq
    omega
  | enter hent =>
    have hgo := go_remembers fat m hin.1 s.pathText
    rw [hgo.2] at heq
    omega
  | back he hback => exact (histBack_travels hin.1 hback).inPlace heq
  | fwd he hfwd => exact (histFwd_travels hfwd).inPlace heq
  | delete he => exact (deleteSel_same fat font m s).2.1

theorem run_inPlace {us : List (Trans FmNav (Mount φ × FmEvent))}
    (h : Path (step fat view font) t us s) (ht : t.Sound)
    (hus : ∀ u ∈ us, u.post.histI = u.pre.histI) :
    s.Sound ∧ s.hist = t.hist ∧ s.histI = t.histI := by
  refine h.invariant (I := fun s => s.Sound ∧ s.hist = t.hist ∧ s.histI = t.histI)
    (C := fun u => u.post.histI = u.pre.histI) ⟨ht, rfl, rfl⟩ ?_ hus
  intro u hu hI hC
  obtain ⟨q, hq, hstay⟩ := step_outcome hu
  refine ⟨step_sound hu hI.1, ?_, hC.trans hI.2.2⟩
  rw [hstay.hist, hq.inPlace hI.1.inStep (hstay.histI.symm.trans hC)]
  exact hI.2.1

theorem repaint_sel (h : t.SelValid) : (repaint font t e).sel = t.sel := by
  unfold repaint
  split
  · split
    · exact ensureVisible_sel font (s := { t with lastH := _ }) h
    · rfl
  · rfl

theorem Moved.backAt (h : Moved fat.toFatfs m s p.place t) (hpos : t.histI = p.histI)
    (hp : p.SelValid) : BackAt p s (repaint font t e) := by
  have hstay := repaint_stays font t e
  refine ⟨hstay.cwd.trans h.cwd, hstay.histI.trans hpos, fun hps hss hents => ?_⟩
  have hrows : t.visible.length = p.visible.length := by
    rw [Fm.visible, Fm.visible, if_pos (h.search.trans hss), if_pos hps, ← hents, hstay.ents]
  have hsel := h.sel
  rw [hrows] at hsel
  rw [SelValid] at hp
  have hkeep : t.sel = p.sel := by
    change t.sel = if p.visible.length = 0 then 0 else min p.sel (p.visible.length - 1) at hsel
    split at hsel <;> omega
  have hvalid : t.SelValid := by
    rw [SelValid, hrows, hkeep]
    exact hp
  rw [repaint_sel hvalid, hkeep]

theorem returning {u : Trans FmNav (Mount φ × FmEvent)} (hpre : u.pre.Sound)
    (hu : step fat view font u.pre u.act = some u.post) : Returning fat view font u := by
  intro us s m e s' hus hplace hs
  obtain ⟨q, hq, hstay⟩ := step_outcome hu
  obtain ⟨hsound, hhist, hpos⟩ := run_inPlace hus (step_sound hu hpre) hplace
  have hpress := stays_pressed font u.pre u.act.2
  have hvalid := (hpress.rows hpre.rows).sel
  have hleft :
      u.post.histI ≠ u.pre.histI →
      s.hist[u.pre.histI]? = some (pressed font u.pre u.act.2).place := by
    intro hne
    rw [hhist, hstay.hist]
    exact hq.leaves hpre.inStep (hstay.histI ▸ hne)
  refine ⟨fun hstep hback => ?_, fun hstep hfwd => ?_⟩
  · have hone := hleft (by omega)
    rw [step_back hback] at hs
    obtain ⟨t, ht, rfl⟩ := Option.map_eq_some_iff.mp hs
    rcases histBack_spec fat.toFatfs m font hsound.inStep.1 with ⟨hzero, -⟩ | ⟨-, q', t', hq',
        ht', hmoved, hv⟩
    · omega
    · obtain rfl := Option.some.inj (ht'.symm.trans ht)
      have hi : s.histI - 1 = u.pre.histI := by omega
      rw [hi] at hq'
      obtain rfl := Option.some.inj (hone.symm.trans hq')
      have hpos' : t'.histI = s.histI - 1 := congrArg Visits.pos hv
      exact hmoved.backAt (by rw [hpos', hi, hpress.histI]) hvalid
  · have hone := hleft (by omega)
    rw [step_fwd hfwd] at hs
    obtain ⟨t, ht, rfl⟩ := Option.map_eq_some_iff.mp hs
    have hi : s.histI + 1 = u.pre.histI := by omega
    rcases histFwd_spec fat.toFatfs m font s with ⟨hlast, -⟩ | ⟨q', t', hq', ht', hmoved, hv⟩
    · have hlt := (List.getElem?_eq_some_iff.mp hone).1
      omega
    · obtain rfl := Option.some.inj (ht'.symm.trans ht)
      rw [hi] at hq'
      obtain rfl := Option.some.inj (hone.symm.trans hq')
      have hpos' : t'.histI = s.histI + 1 := congrArg Visits.pos hv
      exact hmoved.backAt (by rw [hpos', hi, hpress.histI]) hvalid

end Returns

section Located

theorem mem_listEntries {dir : List (Option FatEntry)} {ents : List DirEnt}
    (h : listEntries dir = .ok ents) {ent : DirEnt} (hent : ent ∈ ents) :
    ∃ f, some f ∈ dir ∧ ent.name = f.name ∧ f.name ≠ [dot] ∧ f.name ≠ [dot, dot] := by
  induction dir generalizing ents with
  | nil =>
    obtain rfl := Except.ok.inj h
    cases hent
  | cons o rest ih =>
    have hrest : ∀ {ents' : List DirEnt}, listEntries rest = .ok ents' → ent ∈ ents' →
        ∃ f, some f ∈ o :: rest ∧ ent.name = f.name ∧ f.name ≠ [dot] ∧ f.name ≠ [dot, dot] := by
      intro ents' h' hmem
      obtain ⟨f, hf, hname⟩ := ih h' hmem
      exact ⟨f, List.mem_cons_of_mem _ hf, hname⟩
    cases o with
    | none => cases h
    | some f =>
      rw [listEntries] at h
      split at h
      · exact hrest h hent
      split at h
      · exact hrest h hent
      rename_i hdots
      cases hents : listEntries rest with
      | error err =>
        rw [hents] at h
        cases h
      | ok ents' =>
        rw [hents] at h
        obtain rfl := Except.ok.inj h
        rcases List.mem_cons.mp hent with rfl | hent
        · rw [not_or] at hdots
          exact ⟨f, List.mem_cons_self, rfl, hdots⟩
        · exact hrest hents hent

theorem listing_component {fat : Fatfs φ η} (hnames : Names fat) {ent : DirEnt}
    (h : ent ∈ listing fat m path) : Component ent.name := by
  have hdir : ∀ {dir : List (Option FatEntry)} {ents : List DirEnt}, listEntries dir = .ok ents →
      ent ∈ ents → (∀ f, some f ∈ dir → f.name ≠ [] ∧ slash ∉ f.name) → Component ent.name := by
    intro dir ents hlist hent hall
    obtain ⟨f, hf, hname, hdot, hdots⟩ := mem_listEntries hlist hent
    rw [hname]
    exact ⟨(hall f hf).1, hdot, hdots, (hall f hf).2⟩
  unfold listing at h
  split at h
  · rename_i ents hlist
    unfold Mount.list at hlist
    dsimp only at hlist
    split at hlist
    · cases hlist
    split at hlist
    · exact hdir hlist h fun f => hnames.root
    split at hlist
    · cases hlist
    · rename_i dir hopen
      exact hdir hlist h fun f => hnames.dir hopen
  · cases h

theorem leading_canonical {fat : Fatfs φ η} (hnames : Names fat) :
    Leading Canonical Component fat where
  root := canonical_root
  docs := docs_canonical
  parent := parent_canonical
  child := join_canonical
  crumb := fun h hseg => pathSegments_canonical h hseg
  listed := listing_component hnames

theorem goParent_cwd (fat : Fatfs φ η) (m : Mount φ) (s : FmNav) :
    (goParent fat m s).cwd = if s.cwd = [slash] then s.cwd else parent s.cwd := by
  unfold goParent
  by_cases hroot : s.cwd = [slash]
  · rw [if_neg (not_not.mpr hroot), if_pos hroot]
  · rw [if_pos hroot, if_neg hroot]
    rfl

theorem located {fat : Fatfs φ η} (h : Canonical s.cwd) : Located fat s := by
  refine ⟨h, fun m => ?_⟩
  rw [goParent_cwd]
  split
  · rename_i hroot
    rw [hroot]
    exact ⟨[], by simp, rfl, rfl⟩
  · exact parent_dir h

theorem step_enters (hs : step fat view font s a = some s') (hent : Enters fat.toFatfs a.1 s a.2) :
    s'.cwd = s.pathText := by
  obtain ⟨m, e⟩ := a
  obtain ⟨rfl, hnav, hlist⟩ := hent
  rw [step, act, enter, if_pos hnav, if_pos hlist] at hs
  obtain rfl := Option.some.inj hs
  rfl

end Located

theorem step_total (h : s.InStep) (a : Mount φ × FmEvent) :
    ∃ s', step fat view font s a = some s' := by
  obtain ⟨m, e⟩ := a
  have hback : ∃ t, histBack fat.toFatfs m font s = some t := by
    rcases histBack_spec fat.toFatfs m font h.1 with ⟨-, hsame⟩ | ⟨-, p, t, -, ht, -⟩
    · exact ⟨s, hsame⟩
    · exact ⟨t, ht⟩
  have hfwd : ∃ t, histFwd fat.toFatfs m font s = some t := by
    rcases histFwd_spec fat.toFatfs m font s with ⟨-, hsame⟩ | ⟨p, t, -, ht, -⟩
    · exact ⟨s, hsame⟩
    · exact ⟨t, ht⟩
  have hact : ∃ t, act fat view font m s e = some t := by
    cases e with
    | click lx ly w k now =>
      rw [act]
      split
      · unfold clickAt
        split
        · unfold clickNavbar
          split
          · exact hback
          · exact hfwd
          · exact ⟨_, rfl⟩
          · exact ⟨_, rfl⟩
          · exact ⟨_, rfl⟩
          · dsimp only
            split
            · exact ⟨_, rfl⟩
            · split <;> exact ⟨_, rfl⟩
        split
        · exact ⟨_, rfl⟩
        split
        · exact ⟨_, rfl⟩
        · exact ⟨_, rfl⟩
        split
        · exact ⟨_, rfl⟩
        · dsimp only
          split <;> exact ⟨_, rfl⟩
      · exact ⟨_, rfl⟩
    | _ => exact ⟨_, rfl⟩
  obtain ⟨t, ht⟩ := hact
  exact ⟨_, Option.map_eq_some_iff.mpr ⟨t, ht, rfl⟩⟩

/-- History and folder are in step, no event panics, and Back and Forward return, whatever is
entered; the folder has its own name exactly as long as the paths have it that are entered. -/
theorem navigation_located_iff (hnames : Names fat.toFatfs)
    {ts : List (Trans FmNav (Mount φ × FmEvent))}
    (h : Path (step fat view font) (init fat.toFatfs m) ts s) :
    s.InStep ∧ (∀ a, ∃ s', step fat view font s a = some s') ∧
    (∀ t ∈ ts, Returning fat view font t) ∧ ((∀ t ∈ ts, Located fat.toFatfs t.post) ↔
      ∀ t ∈ ts, EntersCanonical fat.toFatfs t) := by
  have hlead := leading_canonical hnames
  have hsound := run_sound h
  refine ⟨hsound.inStep, step_total hsound.inStep, fun t ht => ?_, ?_⟩
  · have hpre := h.invariant_pre (I := Sound) (C := fun _ => True) (init_sound _ _)
      (fun _ hu hI _ => step_sound hu hI) (by simp) t ht
    exact returning hpre (h.step_of_mem t ht)
  · refine Path.forall_iff (I := fun s => s.Sound ∧ Places Canonical Component s)
      ⟨init_sound _ _, .init hlead _⟩ (fun t ht hI => ⟨fun hP hent => ?_, fun hC => ?_⟩)
        (fun t ht hI hC => ?_) h
    · rw [← step_enters ht hent]
      exact hP.1
    · exact located (step_places hlead hI.1.inStep hI.2 ht hC).cwd
    · exact ⟨step_sound ht hI.1, step_places hlead hI.1.inStep hI.2 ht hC⟩

theorem treeFat_names : Names treeFat.toFatfs where
  root := by
    intro fs ent h
    simp only [treeFat, List.mem_cons, Option.some.injEq] at h
    rcases h with rfl | h
    · exact ⟨by decide, by decide⟩
    · split at h
      · obtain rfl := Option.some.inj (List.mem_singleton.mp h)
        exact ⟨by decide, by decide⟩
      · cases h
  dir := by
    intro fs rel dir ent hopen h
    simp only [treeFat] at hopen
    split at hopen
    · obtain rfl := Except.ok.inj hopen
      split at h
      · obtain rfl := Option.some.inj (List.mem_singleton.mp h)
        exact ⟨by decide, by decide⟩
      · cases h
    · simp only [flatFat] at hopen
      split at hopen <;> cases hopen

theorem docs_located : ∃ ts s,
    Path (step treeFat noView evenFont) (init treeFat.toFatfs ⟨some twoFiles, [slash]⟩) ts s ∧
    s.cwd = docsPath ∧ s.InStep ∧ (∀ a, ∃ s', step treeFat noView evenFont s a = some s') ∧
      (∀ t ∈ ts, Returning treeFat noView evenFont t) ∧
      ((∀ t ∈ ts, Located treeFat.toFatfs t.post) ↔
        ∀ t ∈ ts, EntersCanonical treeFat.toFatfs t) := by
  obtain ⟨ts, s, h, hcwd⟩ := exists_run_of_pathBar ⟨some twoFiles, [slash]⟩ docsPath
    (fun s => decide (s.cwd = docsPath)) (by decide)
  exact ⟨ts, s, h, of_decide_eq_true hcwd, navigation_located_iff treeFat_names h⟩

theorem trailing_slash_stays : ∃ ts s,
    Path (step treeFat noView evenFont) (init treeFat.toFatfs ⟨some twoFiles, [slash]⟩) ts s ∧
      ¬Canonical s.cwd ∧ Fs.resolve [slash] s.cwd = docsPath ∧
      ∀ m, (goParent treeFat.toFatfs m s).cwd = docsPath := by
  obtain ⟨ts, s, h, hcwd⟩ := exists_run_of_pathBar ⟨some twoFiles, [slash]⟩ (docsPath ++ [slash])
    (fun s => decide (s.cwd = docsPath ++ [slash])) (by decide)
  have hcwd := of_decide_eq_true hcwd
  refine ⟨ts, s, h, fun hcan => ?_, ?_, fun m => ?_⟩
  · have hself := resolve_canonical_arg [slash] hcan
    rw [hcwd] at hself
    revert hself
    decide
  · rw [hcwd]
    decide
  · rw [goParent_cwd, hcwd]
    decide

end CoeleoOs.Ui.FmNav
