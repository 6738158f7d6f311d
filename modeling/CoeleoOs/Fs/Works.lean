import CoeleoOs.Fs.FileIo

/-!
# Volumes in order

`FatWorks` states when the operations of the `fatfs` crate succeed: on a volume in order, with
room for the bytes that are written and for the names that are new. The functions of
`fs/mod.rs` then succeed as well.
-/

namespace CoeleoOs.Fs
open CoeleoOs.Lib CoeleoOs.Lib.FileStore
open CoeleoOs.Task (Bytes FsError)

variable {φ η : Type}

def FatSpec.Live {fat : FatIo φ η} (spec : FatSpec fat) (fs : φ) (h : η) : Prop :=
  ∃ rel, (spec.store fs).node rel = some (spec.file h)

structure FatWorks {fat : FatIo φ η} (spec : FatSpec fat) where
  Ok : φ → ℕ → Prop
  -- A file of this name can be created.
  Free : φ → Bytes → Prop
  root : ∀ {fs r}, Ok fs r → (spec.store fs).node [] = none
  openDir_file : ∀ {fs r rel i}, Ok fs r → (spec.store fs).node rel = some i →
    fat.openDir fs rel = .error .invalidInput
  openDir_free : ∀ {fs r rel}, Ok fs r → Free fs rel → fat.openDir fs rel = .error .notFound
  openFile_file :
    ∀ {fs r rel i}, Ok fs r → (spec.store fs).node rel = some i → ∃ h, fat.openFile fs rel = .ok h
  createFile_works : ∀ {fs r rel}, Ok fs r → (spec.store fs).node rel ≠ none ∨ Free fs rel →
    ∃ h fs', fat.createFile fs rel = (.ok h, fs') ∧ Ok fs' r
  truncate_works :
    ∀ {fs r h}, Ok fs r → spec.Live fs h → ∃ h' fs', fat.truncate fs h = (true, h', fs') ∧ Ok fs' r
  writeAll_works : ∀ {fs r h}, Ok fs r → spec.Live fs h → ∃ h' fs', fat.writeAll fs h [] =
    (true, h', fs') ∧ Ok fs' r
  flush_works :
    ∀ {fs r h}, Ok fs r → spec.Live fs h → ∃ h' fs', fat.flush fs h = (true, h', fs') ∧ Ok fs' r
  drop_works : ∀ {fs r} h, Ok fs r → Ok (fat.drop fs h) r
  drop_free : ∀ {fs rel} h, Free fs rel → Free (fat.drop fs h) rel
  seek_works : ∀ {fs r h} off, Ok fs r → spec.Live fs h → ∃ h', fat.seek fs h off = (true, h')
  read_works : ∀ {fs r h} n, Ok fs r → spec.Live fs h → ∃ got h', fat.read fs h n = (some got, h')
  write_works : ∀ {fs r h src}, Ok fs r → spec.Live fs h →
    spec.pos h ≤ ((spec.store fs).data (spec.file h)).length → src ≠ [] → src.length ≤ r →
    ∃ n h' fs', fat.write fs h src = (some n, h', fs') ∧ 0 < n ∧ Ok fs' (r - n)
  remount_works : ∀ {fs r}, Ok fs r → ∃ ok fs', fat.remount fs = (ok, some fs') ∧ Ok fs' r

namespace Mount

variable {fat : FatIo φ η} {spec : FatSpec fat} (works : FatWorks spec) {m : Mount φ}
    {path : Bytes} {r : ℕ}

def Ok (m : Mount φ) (r : ℕ) : Prop := ∃ fs, m.fs = some fs ∧ works.Ok fs r

def Free (m : Mount φ) (path : Bytes) : Prop := ∃ fs, m.fs = some fs ∧ works.Free fs (m.relOf path)

variable {works}

theorem relOf_ne (hok : m.Ok works r) {i : spec.ι}
    (h : (m.store spec).node (m.relOf path) = some i) : m.relOf path ≠ [] := by
  obtain ⟨fs, hfs, hok⟩ := hok
  intro hnil
  have hroot := works.root hok
  simp only [store, hfs] at h
  rw [hnil, hroot] at h
  cases h

theorem pathRel_of_ne (h : m.relOf path ≠ []) : m.pathRel path = .ok (m.relOf path) := by
  rw [pathRel]
  exact if_neg h

theorem list_of_ne {fs : φ} (hfs : m.fs = some fs) (hne : m.relOf path ≠ []) :
    m.list fat.toFatfs path =
      match fat.openDir fs (m.relOf path) with
      | .error e => .error (mapDirErr e)
      | .ok dir => listEntries dir := by
  unfold list
  rw [hfs]
  exact if_neg hne

theorem list_file (hok : m.Ok works r) {i : spec.ι}
    (h : (m.store spec).node (m.relOf path) = some i) :
    m.list fat.toFatfs path = .error .notDir := by
  have hne := relOf_ne hok h
  obtain ⟨fs, hfs, hok⟩ := hok
  simp only [store, hfs] at h
  rw [list_of_ne hfs hne, works.openDir_file hok h]
  rfl

theorem list_free (hok : m.Ok works r) (hfree : m.Free works path) (hne : m.relOf path ≠ []) :
    m.list fat.toFatfs path = .error .notFound := by
  obtain ⟨fs, hfs, hok⟩ := hok
  obtain ⟨fs', hfs', hfree⟩ := hfree
  obtain rfl := Option.some.inj (hfs.symm.trans hfs')
  rw [list_of_ne hfs hne, works.openDir_free hok hfree]
  rfl

theorem openAt_works (hok : m.Ok works r) {i : spec.ι}
    (h : (m.store spec).node (m.relOf path) = some i) : ∃ file fs, m.fs = some fs ∧ works.Ok fs r ∧
    m.openAt fat path = .ok (file, fs) ∧ spec.file file = i := by
  have hne := relOf_ne hok h
  obtain ⟨fs, hfs, hok⟩ := hok
  simp only [store, hfs] at h
  obtain ⟨file, hopen⟩ := works.openFile_file hok h
  have hfile := (spec.openFile_ok hopen).1
  refine ⟨file, fs, hfs, hok, ?_, Option.some.inj (hfile.symm.trans h)⟩
  unfold openAt
  rw [pathRel_of_ne hne, hfs]
  dsimp only
  rw [works.openDir_file hok h]
  dsimp only
  rw [hopen]

theorem drop_ok {fs : φ} (hok : works.Ok fs r) (file : η) : (m.drop fat fs file).Ok works r :=
  ⟨_, rfl, works.drop_works file hok⟩

theorem readAt_works (hok : m.Ok works r) {i : spec.ι}
    (h : (m.store spec).node (m.relOf path) = some i) (offset n : ℕ) :
    ∃ got m', m.readAt fat path offset n = (.ok got, m') ∧ m'.Ok works r ∧
      ∀ p, m.Free works p → m'.Free works p := by
  obtain ⟨file, fs, hfs, hfsok, hopen, hfile⟩ := openAt_works hok h
  have hlive : spec.Live fs file := by
    simp only [store, hfs] at h
    exact ⟨_, h.trans (congrArg some hfile.symm)⟩
  obtain ⟨f, hseek⟩ := works.seek_works offset hfsok hlive
  have hlive' : spec.Live fs f := by
    obtain ⟨rel, hrel⟩ := hlive
    exact ⟨rel, hrel.trans (congrArg some (spec.seek_file hseek).1.symm)⟩
  obtain ⟨got, f', hread⟩ := works.read_works n hfsok hlive'
  refine ⟨got, m.drop fat fs f', ?_, drop_ok hfsok f', ?_⟩
  · unfold readAt
    rw [hopen]
    dsimp only
    rw [hseek]
    dsimp only
    rw [hread]
  · rintro p ⟨fs₀, hfs₀, hfree⟩
    obtain rfl := Option.some.inj (hfs.symm.trans hfs₀)
    exact ⟨_, rfl, works.drop_free f' hfree⟩

theorem writeAt_works (hok : m.Ok works r) {i : spec.ι}
    (h : (m.store spec).node (m.relOf path) = some i) (offset : ℕ)
    {buf : Bytes} (hbuf : buf ≠ []) (hroom : buf.length ≤ r) :
    ∃ n m', m.writeAt fat path offset buf = (.ok n, m') ∧ 0 < n ∧ m'.Ok works (r - n) := by
  obtain ⟨file, fs, hfs, hfsok, hopen, hfile⟩ := openAt_works hok h
  have hlive : spec.Live fs file := by
    simp only [store, hfs] at h
    exact ⟨_, h.trans (congrArg some hfile.symm)⟩
  obtain ⟨f, hseek⟩ := works.seek_works offset hfsok hlive
  obtain ⟨hf, -, hpos⟩ := spec.seek_file hseek
  have hlive' : spec.Live fs f := by
    obtain ⟨rel, hrel⟩ := hlive
    exact ⟨rel, hrel.trans (congrArg some hf.symm)⟩
  have hin : spec.pos f ≤ ((spec.store fs).data (spec.file f)).length := by
    rw [hpos rfl, hf]
    exact min_le_right _ _
  obtain ⟨n, f', fs', hwrite, hn, hok'⟩ := works.write_works hfsok hlive' hin hbuf hroom
  obtain ⟨hf', hw, -⟩ := spec.write_file hwrite
  have hlive'' : spec.Live fs' f' := by
    obtain ⟨rel, hrel⟩ := hlive'
    refine ⟨rel, ?_⟩
    rw [hw.node, hf']
    exact hrel
  obtain ⟨f'', fs'', hflush, hok''⟩ := works.flush_works hok' hlive''
  refine ⟨n, m.drop fat fs'' f'', ?_, hn, drop_ok hok'' f''⟩
  unfold writeAt
  rw [hopen]
  dsimp only
  rw [hseek]
  dsimp only
  rw [hwrite]
  dsimp only
  rw [hflush]

theorem create_works (hok : m.Ok works r) (hne : m.relOf path ≠ [])
    (h : (∃ i, (m.store spec).node (m.relOf path) = some i) ∨ m.Free works path) :
    ∃ file fs, m.create fat.toFatfs path = (.ok (file, fs), { m with fs := some fs }) ∧
    works.Ok fs r := by
  obtain ⟨fs, hfs, hok⟩ := hok
  have hcase :
      (∃ i, (spec.store fs).node (m.relOf path) = some i) ∨ works.Free fs (m.relOf path) := by
    refine h.imp (fun hi => ?_) fun hfree => ?_
    · simpa only [store, hfs] using hi
    · obtain ⟨fs', hfs', hfree⟩ := hfree
      obtain rfl := Option.some.inj (hfs.symm.trans hfs')
      exact hfree
  have hreject : rejectDir fat.toFatfs fs (m.relOf path) = .ok () := by
    rcases hcase with ⟨i, hi⟩ | hfree
    · rw [rejectDir, works.openDir_file hok hi]
    · rw [rejectDir, works.openDir_free hok hfree]
  obtain ⟨file, fs', hcreate, hok'⟩ :=
    works.createFile_works hok (hcase.imp_left (by rintro ⟨i, hi⟩; simp [hi]))
  refine ⟨file, fs', ?_, hok'⟩
  unfold create
  rw [pathRel_of_ne hne, hfs]
  dsimp only
  rw [hreject]
  dsimp only
  rw [hcreate]

theorem touch_works (hok : m.Ok works r) (hne : m.relOf path ≠ []) (hfree : m.Free works path) :
    ∃ m', m.touch fat.toFatfs path = (.ok (), m') ∧ m'.Ok works r := by
  obtain ⟨file, fs, hcreate, hfs⟩ := create_works hok hne (.inr hfree)
  refine ⟨{ m with fs := some (fat.drop fs file) }, ?_, _, rfl, works.drop_works file hfs⟩
  rw [touch, hcreate]

theorem writeFile_works (hok : m.Ok works r) {i : spec.ι}
    (h : (m.store spec).node (m.relOf path) = some i) :
    ∃ m', m.writeFile fat.toFatfs path [] = (.ok (), m') ∧ m'.Ok works r := by
  have hne := relOf_ne hok h
  obtain ⟨file, fs, hcreate, hfs⟩ := create_works hok hne (.inl ⟨i, h⟩)
  obtain ⟨-, -, -, hfile⟩ := create_spec spec hcreate
  obtain ⟨-, hnode, -⟩ := hfile file fs rfl
  obtain ⟨f₁, fs₁, htrunc, hok₁⟩ := works.truncate_works hfs ⟨_, hnode⟩
  obtain ⟨hf₁, -, hw₁, -⟩ := spec.truncate_file htrunc
  have hnode₁ : (spec.store fs₁).node (m.relOf path) = some (spec.file f₁) := by
    rw [hw₁.node, hf₁, hnode]
  obtain ⟨f₂, fs₂, hall, hok₂⟩ := works.writeAll_works hok₁ ⟨_, hnode₁⟩
  obtain ⟨hf₂, hw₂, -⟩ := spec.writeAll_file hall
  have hnode₂ : (spec.store fs₂).node (m.relOf path) = some (spec.file f₂) := by
    rw [hw₂.node, hf₂, hnode₁]
  obtain ⟨f₃, fs₃, hflush, hok₃⟩ := works.flush_works hok₂ ⟨_, hnode₂⟩
  refine ⟨{ m with fs := some (fat.drop fs₃ f₃) }, ?_, _, rfl, works.drop_works f₃ hok₃⟩
  rw [writeFile, hcreate]
  dsimp only
  rw [htrunc]
  dsimp only
  rw [hall]
  dsimp only
  rw [hflush]

theorem sync_works (hok : m.Ok works r) : ∃ res m', m.sync fat = (res, m') ∧ m'.Ok works r := by
  obtain ⟨fs, hfs, hok⟩ := hok
  obtain ⟨ok, fs', hremount, hok'⟩ := works.remount_works hok
  unfold sync
  rw [hfs]
  dsimp only
  rw [hremount]
  cases ok with
  | true => exact ⟨_, _, rfl, _, rfl, hok'⟩
  | false => exact ⟨_, _, rfl, _, rfl, hok'⟩

end Mount

section Flat

variable {cap : ℕ}

def FlatOk (cap : ℕ) (fs : Bytes → Option Bytes) (r : ℕ) : Prop :=
  (∀ name, ((fs name).getD []).length + r ≤ cap) ∧ fs [] = none

theorem putFlat_ok {fs : Bytes → Option Bytes} {name d : Bytes} {r r' : ℕ} (hok : FlatOk cap fs r)
    (hr : r' ≤ r) (hd : d.length + r' ≤ cap) : FlatOk cap (putFlat fs name d) r' := by
  obtain ⟨hlen, hroot⟩ := hok
  unfold putFlat
  split
  · rename_i hs
    have hne : name ≠ [] := by
      rintro rfl
      rw [hroot] at hs
      cases hs
    refine ⟨fun n => ?_, by rw [Function.update_of_ne hne.symm, hroot]⟩
    by_cases hn : n = name
    · subst hn
      rw [Function.update_self]
      exact hd
    · rw [Function.update_of_ne hn]
      have := hlen n
      omega
  · refine ⟨fun n => ?_, hroot⟩
    have := hlen n
    omega

theorem overwrite_le (d src : Bytes) {off : ℕ} (h : off ≤ d.length) :
    (overwrite d off src).length ≤ d.length + src.length := by
  simp only [overwrite, List.length_append, List.length_take, List.length_drop]
  omega

def flatWorks (cap : ℕ) : FatWorks (flatSpec cap) where
  Ok := FlatOk cap
  Free fs rel := fs rel = none ∧ rel ≠ []
  root h := flatStore_none.mpr (by rw [h.2]; rfl)
  openDir_file _ h := if_pos (flatStore_node.mp h).1
  openDir_free _ h := if_neg (by simp [h.1])
  openFile_file _ h := ⟨_, if_pos (flatStore_node.mp h).1⟩
  createFile_works := by
    intro fs r rel hok h
    refine ⟨_, _, rfl, ?_⟩
    split
    · exact hok
    · rename_i hs
      have hne : rel ≠ [] := by
        rintro rfl
        rcases h with hnode | hfree
        · exact hnode (flatStore_none.mpr (by simpa using hs))
        · exact hfree.2 rfl
      refine ⟨fun name => ?_, by rw [Function.update_of_ne hne.symm, hok.2]⟩
      by_cases hn : name = rel
      · subst hn
        have hold := hok.1 name
        simp only [Function.update_self, Option.getD_some, List.length_nil]
        omega
      · rw [Function.update_of_ne hn]
        exact hok.1 name
  truncate_works := by
    intro fs r h hok hlive
    refine ⟨_, _, rfl, putFlat_ok hok le_rfl ?_⟩
    have := hok.1 h.1
    rw [List.length_take]
    omega
  writeAll_works := by
    intro fs r h hok hlive
    obtain ⟨rel, hrel⟩ := hlive
    obtain ⟨hs, rfl⟩ := flatStore_node.mp hrel
    refine ⟨_, _, if_pos hs, putFlat_ok hok le_rfl ?_⟩
    rw [overwrite_nil]
    exact hok.1 h.1
  flush_works hok _ := ⟨_, _, rfl, hok⟩
  drop_works _ hok := hok
  drop_free _ h := h
  seek_works _ _ _ := ⟨_, rfl⟩
  read_works _ _ _ := ⟨_, _, rfl⟩
  write_works := by
    intro fs r h src hok hlive hpos hne hroom
    obtain ⟨rel, hrel⟩ := hlive
    obtain ⟨hs, rfl⟩ := flatStore_node.mp hrel
    change h.2 ≤ ((fs h.1).getD []).length at hpos
    have hold := hok.1 h.1
    refine ⟨_, _, _, if_pos ⟨hs, by omega⟩, List.length_pos_iff.mpr hne,
      putFlat_ok hok (Nat.sub_le _ _) ?_⟩
    have hlen := overwrite_le _ src hpos
    omega
  remount_works hok := ⟨_, _, rfl, hok⟩

end Flat

end CoeleoOs.Fs
