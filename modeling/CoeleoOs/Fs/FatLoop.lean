import CoeleoOs.Fs.FatDisk

/-!
# The loops of `read` and `write`

One round of each loop moves the bytes up to the next sector border. While the
cached sector equals the sector on the disk, a read that succeeds returns the
bytes of the disk, and on a disk without errors a write puts its bytes there.
-/

namespace CoeleoOs.Fs

theorem Sector.get_of_lt (b : Sector) {i : ℕ} (h : i < sectorSize) : b.get i = b ⟨i, h⟩ := by
  simp [Sector.get, h]

theorem Sector.get_splice (b : Sector) (off : ℕ) (src : List UInt8) {i : ℕ} (h : i < sectorSize) :
    (b.splice off src).get i =
      if off ≤ i ∧ i < off + src.length then src.getD (i - off) 0 else b.get i := by
  rw [Sector.get_of_lt _ h, Sector.get_of_lt _ h]
  rfl

theorem Sector.splice_full (b b' : Sector) {src : List UInt8} (h : src.length = sectorSize) :
    b.splice 0 src = b'.splice 0 src := by
  funext i
  have hi := i.isLt
  simp [Sector.splice, h, hi]

namespace FatDisk

def Coherent (d : FatDisk) : Prop := ∀ l, d.cachedLba = some l → d.bounce = d.disk (d.sectorAt l)

def byteAt (d : FatDisk) (i : ℕ) : UInt8 :=
  (d.disk (d.sectorAt (i / sectorSize))).get (i % sectorSize)

def bytes (d : FatDisk) (i n : ℕ) : List UInt8 := (List.range n).map fun j => d.byteAt (i + j)

theorem bytes_length (d : FatDisk) (i n : ℕ) : (d.bytes i n).length = n := by
  simp [bytes]

theorem bytes_add (d : FatDisk) (i m n : ℕ) :
    d.bytes i (m + n) = d.bytes i m ++ d.bytes (i + m) n := by
  simp [bytes, List.range_add, Function.comp_def, Nat.add_assoc]

theorem bytes_congr {d d' : FatDisk} (hdisk : d'.disk = d.disk) (hstart : d'.startLba = d.startLba)
    (i n : ℕ) : d'.bytes i n = d.bytes i n := by
  simp only [bytes, byteAt, sectorAt, hdisk, hstart]

theorem slice_eq_bytes (d : FatDisk) {i n : ℕ} (hn : i % sectorSize + n ≤ sectorSize) :
    (d.disk (d.sectorAt (i / sectorSize))).slice (i % sectorSize) n = d.bytes i n := by
  apply List.map_congr_left
  intro j hj
  have hj := List.mem_range.mp hj
  have hdiv : (i + j) / sectorSize = i / sectorSize := by simp only [sectorSize] at *; omega
  have hmod : (i + j) % sectorSize = i % sectorSize + j := by simp only [sectorSize] at *; omega
  rw [byteAt, hdiv, hmod]

structure SameVolume (d d' : FatDisk) : Prop where
  disk : d'.disk = d.disk
  start : d'.startLba = d.startLba
  size : d'.size = d.size

theorem cache_hit {d : FatDisk} {lba : ℕ} (h : d.cachedLba = some lba) (o : Io) :
    d.cache lba o = (true, d) := by
  simp only [cache, h, if_true]

theorem cache_miss {d : FatDisk} {lba : ℕ} (h : d.cachedLba ≠ some lba) :
    d.cache lba .ok = (true, { d with
      bounce := d.disk (d.sectorAt lba), cachedLba := some lba }) := by
  simp only [cache, h, if_false, fetch]

theorem cache_fail {d : FatDisk} {lba : ℕ} (h : d.cachedLba ≠ some lba) (junk : Sector) :
    d.cache lba (.fail junk) = (false, { d with bounce := junk }) := by
  simp only [cache, h, if_false, fetch]

theorem cache_same {d d' : FatDisk} {lba : ℕ} {o : Io} {ok : Bool} (h : d.cache lba o = (ok, d')) :
    SameVolume d d' ∧ d'.pos = d.pos := by
  by_cases hc : d.cachedLba = some lba
  · obtain ⟨rfl, rfl⟩ := Prod.mk.inj ((cache_hit hc o).symm.trans h)
    exact ⟨⟨rfl, rfl, rfl⟩, rfl⟩
  · cases o with
    | ok =>
      obtain ⟨rfl, rfl⟩ := Prod.mk.inj ((cache_miss hc).symm.trans h)
      exact ⟨⟨rfl, rfl, rfl⟩, rfl⟩
    | fail junk =>
      obtain ⟨rfl, rfl⟩ := Prod.mk.inj ((cache_fail hc junk).symm.trans h)
      exact ⟨⟨rfl, rfl, rfl⟩, rfl⟩

theorem cache_ok {d d' : FatDisk} (hd : d.Coherent) {lba : ℕ} {o : Io}
    (h : d.cache lba o = (true, d')) : d'.Coherent ∧ d'.bounce = d.disk (d.sectorAt lba) := by
  by_cases hc : d.cachedLba = some lba
  · obtain ⟨-, rfl⟩ := Prod.mk.inj ((cache_hit hc o).symm.trans h)
    exact ⟨hd, hd lba hc⟩
  · cases o with
    | ok =>
      obtain ⟨-, rfl⟩ := Prod.mk.inj ((cache_miss hc).symm.trans h)
      refine ⟨?_, rfl⟩
      intro l hl
      obtain rfl := Option.some.inj hl
      rfl
    | fail junk => simp [cache_fail hc] at h

def readStep (d : FatDisk) (want : ℕ) : ℕ :=
  min (min (sectorSize - d.pos % sectorSize) want) (d.size - d.pos)

section Read

variable {io : ℕ → Io} {fuel i want : ℕ} {d d' : FatDisk}

theorem readLoop_stop (h : ¬(0 < want ∧ d.pos < d.size)) :
    readLoop io fuel i d want = (some [], d) := by
  cases fuel with
  | zero => rfl
  | succ fuel => simp only [readLoop, h, if_false]

theorem readLoop_fail (h : 0 < want ∧ d.pos < d.size)
    (hc : d.cache (d.pos / sectorSize) (io i) = (false, d')) :
    readLoop io (fuel + 1) i d want = (none, d') := by
  simp only [readLoop, h, and_self, if_true, hc]

theorem readLoop_go (fuel : ℕ) (h : 0 < want ∧ d.pos < d.size)
    (hc : d.cache (d.pos / sectorSize) (io i) = (true, d')) :
    ∃ i', readLoop io (fuel + 1) i d want =
      ((readLoop io fuel i' { d' with
        pos := d.pos + readStep d want } (want - readStep d want)).1.map
          (d'.bounce.slice (d.pos % sectorSize) (readStep d want) ++ ·),
        (readLoop io fuel i' { d' with
          pos := d.pos + readStep d want } (want - readStep d want)).2) := by
  obtain ⟨hs, hpos⟩ := cache_same hc
  refine ⟨if d.cachedLba = some (d.pos / sectorSize) then i else i + 1, ?_⟩
  simp only [readLoop, h, and_self, if_true, hc, readStep, hs.size, hpos]

theorem readStep_pos (h : 0 < want ∧ d.pos < d.size) : 0 < readStep d want := by
  have := Nat.mod_lt d.pos (show 0 < sectorSize by decide)
  simp only [readStep]
  omega

theorem readStep_fits (d : FatDisk) (want : ℕ) :
    d.pos % sectorSize + readStep d want ≤ sectorSize := by
  have := Nat.mod_lt d.pos (show 0 < sectorSize by decide)
  simp only [readStep]
  omega

theorem readLoop_same (io : ℕ → Io) (fuel i want : ℕ) (d : FatDisk) :
    SameVolume d (readLoop io fuel i d want).2 := by
  induction fuel generalizing i d want with
  | zero => exact ⟨rfl, rfl, rfl⟩
  | succ fuel ih =>
    by_cases hgo : 0 < want ∧ d.pos < d.size
    · rcases hc : d.cache (d.pos / sectorSize) (io i) with ⟨_ | _, d'⟩
      · rw [readLoop_fail hgo hc]
        exact (cache_same hc).1
      · obtain ⟨i', hgo'⟩ := readLoop_go fuel hgo hc
        obtain ⟨hs, -⟩ := cache_same hc
        rw [hgo']
        have hrest := ih i' (want - readStep d want) { d' with pos := d.pos + readStep d want }
        exact ⟨hrest.disk.trans hs.disk, hrest.start.trans hs.start, hrest.size.trans hs.size⟩
    · rw [readLoop_stop hgo]
      exact ⟨rfl, rfl, rfl⟩

theorem readLoop_some {bs : List UInt8} (hd : d.Coherent) (hfuel : want ≤ fuel)
    (h : (readLoop io fuel i d want).1 = some bs) :
    bs = d.bytes d.pos (min want (d.size - d.pos)) ∧
      (readLoop io fuel i d want).2.pos = d.pos + min want (d.size - d.pos) ∧
      (readLoop io fuel i d want).2.Coherent := by
  induction fuel generalizing i d want bs with
  | zero =>
    obtain rfl := Option.some.inj h
    simp [readLoop, show want = 0 by omega, bytes, hd]
  | succ fuel ih =>
    by_cases hgo : 0 < want ∧ d.pos < d.size
    · rcases hc : d.cache (d.pos / sectorSize) (io i) with ⟨_ | _, d'⟩
      · simp [readLoop_fail hgo hc] at h
      · obtain ⟨i', hstep⟩ := readLoop_go fuel hgo hc
        obtain ⟨hs, -⟩ := cache_same hc
        obtain ⟨hco, hbounce⟩ := cache_ok hd hc
        have hpos := readStep_pos hgo
        rw [hstep] at h ⊢
        obtain ⟨rest, hrest, rfl⟩ := Option.map_eq_some_iff.mp h
        obtain ⟨hbs, hend, hcoh⟩ := ih (d := { d' with pos := d.pos + readStep d want }) hco
          (by omega) hrest
        have hfit := readStep_fits d want
        have htotal : min want (d.size - d.pos) = readStep d want +
            min (want - readStep d want) (d.size - (d.pos + readStep d want)) := by
          simp only [readStep]
          omega
        refine ⟨?_, hend.trans ?_, hcoh⟩
        · rw [hbounce, slice_eq_bytes d hfit, hbs, htotal, bytes_add]
          simp only [hs.size]
          exact congrArg _ (bytes_congr hs.disk hs.start _ _)
        · simp only [hs.size, htotal, Nat.add_assoc]
    · rw [readLoop_stop hgo] at h ⊢
      obtain rfl := Option.some.inj h
      simp [show min want (d.size - d.pos) = 0 by omega, bytes, hd]

theorem readLoop_ok (hio : ∀ i, io i = .ok) (fuel i want : ℕ) (d : FatDisk) :
    ∃ bs, (readLoop io fuel i d want).1 = some bs := by
  induction fuel generalizing i d want with
  | zero => exact ⟨[], rfl⟩
  | succ fuel ih =>
    by_cases hgo : 0 < want ∧ d.pos < d.size
    · have hc : ∃ d', d.cache (d.pos / sectorSize) (io i) = (true, d') := by
        rw [hio]
        by_cases hhit : d.cachedLba = some (d.pos / sectorSize)
        · exact ⟨_, cache_hit hhit _⟩
        · exact ⟨_, cache_miss hhit⟩
      obtain ⟨d', hc⟩ := hc
      obtain ⟨i', hstep⟩ := readLoop_go fuel hgo hc
      obtain ⟨bs, hbs⟩ := ih i' (want - readStep d want) { d' with pos := d.pos + readStep d want }
      rw [hstep, hbs]
      exact ⟨_, rfl⟩
    · exact ⟨[], by rw [readLoop_stop hgo]⟩

end Read

def devByte (disk : ℕ → Sector) (a : ℕ) : UInt8 := (disk (a / sectorSize)).get (a % sectorSize)

theorem devByte_update (disk : ℕ → Sector) (s off : ℕ) (src : List UInt8)
    (h : off + src.length ≤ sectorSize) (a : ℕ) :
    devByte (Function.update disk s ((disk s).splice off src)) a =
      if s * sectorSize + off ≤ a ∧ a < s * sectorSize + off + src.length then
        src.getD (a - (s * sectorSize + off)) 0
      else devByte disk a := by
  have hmod : a % sectorSize < sectorSize := Nat.mod_lt a (by decide)
  have hdiv : sectorSize * (a / sectorSize) + a % sectorSize = a := Nat.div_add_mod a sectorSize
  by_cases hs : a / sectorSize = s
  · subst hs
    have hoff : a - (a / sectorSize * sectorSize + off) = a % sectorSize - off := by
      simp only [sectorSize] at *
      omega
    have hin : (off ≤ a % sectorSize ∧ a % sectorSize < off + src.length) ↔
        (a / sectorSize * sectorSize + off ≤ a ∧
          a < a / sectorSize * sectorSize + off + src.length) := by
      simp only [sectorSize] at *
      omega
    simp only [devByte, Function.update_self, Sector.get_splice _ _ _ hmod, hin, hoff]
  · have hout : ¬(s * sectorSize + off ≤ a ∧ a < s * sectorSize + off + src.length) := by
      simp only [sectorSize] at *
      omega
    simp only [devByte, Function.update_of_ne hs, hout, if_false]

section Write

variable {io : ℕ → Io} {fuel i : ℕ} {d d' : FatDisk} {src : List UInt8}

def stored (d : FatDisk) (src : List UInt8) : FatDisk :=
  let s := d.sectorAt (d.pos / sectorSize)
  let b := (d.disk s).splice (d.pos % sectorSize) (src.take (readStep d src.length))
  { d with
    pos := d.pos + readStep d src.length
    bounce := b
    cachedLba := some (d.pos / sectorSize)
    disk := Function.update d.disk s b }

theorem stored_pos (d : FatDisk) (src : List UInt8) :
    (stored d src).pos = d.pos + readStep d src.length := rfl

theorem stored_startLba (d : FatDisk) (src : List UInt8) : (stored d src).startLba = d.startLba :=
  rfl

theorem stored_size (d : FatDisk) (src : List UInt8) : (stored d src).size = d.size := rfl

theorem stored_coherent (d : FatDisk) (src : List UInt8) : (stored d src).Coherent := by
  intro l hl
  obtain rfl := Option.some.inj hl
  simp only [stored, sectorAt, Function.update_self]

theorem sectorAt_mul (h : d.pos < d.size) (hwrap : d.startLba + d.size / sectorSize < 2 ^ 64) :
    d.sectorAt (d.pos / sectorSize) * sectorSize + d.pos % sectorSize =
      d.startLba * sectorSize + d.pos := by
  have hle : d.pos / sectorSize ≤ d.size / sectorSize := Nat.div_le_div_right h.le
  have hdiv := Nat.div_add_mod d.pos sectorSize
  rw [sectorAt, Nat.mod_eq_of_lt (by omega), Nat.add_mul, Nat.mul_comm (d.pos / sectorSize)]
  omega

theorem stored_devByte (h : d.pos < d.size) (hwrap : d.startLba + d.size / sectorSize < 2 ^ 64)
    (a : ℕ) : devByte (stored d src).disk a = if d.startLba * sectorSize + d.pos ≤ a ∧
          a < d.startLba * sectorSize + d.pos + readStep d src.length then
        src.getD (a - (d.startLba * sectorSize + d.pos)) 0
      else devByte d.disk a := by
  have hlen : (src.take (readStep d src.length)).length = readStep d src.length := by
    have : readStep d src.length ≤ src.length := by simp only [readStep]; omega
    rw [List.length_take, Nat.min_eq_left this]
  have hfit := readStep_fits d src.length
  simp only [stored]
  rw [devByte_update _ _ _ _ (by rw [hlen]; exact hfit), hlen, sectorAt_mul h hwrap]
  split
  · rw [List.getD_eq_getElem?_getD, List.getD_eq_getElem?_getD, List.getElem?_take_of_lt (by omega)]
  · rfl

theorem prepare_ok (hio : ∀ i, io i = .ok) (hd : d.Coherent) (lba off : ℕ) (src : List UInt8) :
    ∃ j, prepare io i d lba off src =
      (true, { d with bounce := (d.disk (d.sectorAt lba)).splice off src }, j) := by
  by_cases hfull : off = 0 ∧ src.length = sectorSize
  · refine ⟨i, ?_⟩
    simp only [prepare, hfull, and_self, if_true]
    rw [Sector.splice_full d.bounce _ hfull.2]
  · by_cases hc : d.cachedLba = some lba
    · refine ⟨i, ?_⟩
      simp only [prepare, hfull, hc, if_false, if_true, hd lba hc]
    · refine ⟨i + 1, ?_⟩
      simp only [prepare, hfull, hc, if_false, hio, fetch]

theorem writeLoop_stop (h : ¬(src ≠ [] ∧ d.pos < d.size)) :
    writeLoop io fuel i d src = (some 0, d) := by
  cases fuel with
  | zero => rfl
  | succ fuel => simp only [writeLoop, h, if_false]

theorem writeLoop_go (fuel : ℕ) (hio : ∀ i, io i = .ok) (hd : d.Coherent)
    (h : src ≠ [] ∧ d.pos < d.size) : ∃ i', writeLoop io (fuel + 1) i d src =
      ((writeLoop io fuel i' (stored d src) (src.drop (readStep d src.length))).1.map
          (readStep d src.length + ·),
        (writeLoop io fuel i' (stored d src) (src.drop (readStep d src.length))).2) := by
  obtain ⟨j, hprep⟩ := prepare_ok (i := i) hio hd (d.pos / sectorSize) (d.pos % sectorSize)
    (src.take (readStep d src.length))
  refine ⟨j + 1, ?_⟩
  simp only [readStep] at hprep
  simp only [writeLoop, h, ne_eq, not_false_eq_true, and_self, if_true, hprep, hio, store, stored,
    readStep]
  rfl

theorem writeLoop_ok (hio : ∀ i, io i = .ok) (hd : d.Coherent) (i : ℕ) (hfuel : src.length ≤ fuel)
    (hwrap : d.startLba + d.size / sectorSize < 2 ^ 64) :
    (writeLoop io fuel i d src).1 = some (min src.length (d.size - d.pos)) ∧
      (writeLoop io fuel i d src).2.pos = d.pos + min src.length (d.size - d.pos) ∧
      (writeLoop io fuel i d src).2.startLba = d.startLba ∧
      (writeLoop io fuel i d src).2.size = d.size ∧
      (writeLoop io fuel i d src).2.Coherent ∧
      ∀ a, devByte (writeLoop io fuel i d src).2.disk a =
        if d.startLba * sectorSize + d.pos ≤ a ∧
            a < d.startLba * sectorSize + d.pos + min src.length (d.size - d.pos) then
          src.getD (a - (d.startLba * sectorSize + d.pos)) 0
        else devByte d.disk a := by
  induction fuel generalizing i d src with
  | zero =>
    have hnil : src = [] := List.length_eq_zero_iff.mp (by omega)
    subst hnil
    simp [writeLoop, hd]
  | succ fuel ih =>
    by_cases hgo : src ≠ [] ∧ d.pos < d.size
    · have hlen : 0 < src.length := List.length_pos_iff.mpr hgo.1
      have hpos : 0 < readStep d src.length := readStep_pos ⟨hlen, hgo.2⟩
      obtain ⟨i', hstep⟩ := writeLoop_go fuel (i := i) hio hd hgo
      have hdrop : (src.drop (readStep d src.length)).length ≤ fuel := by
        rw [List.length_drop]
        omega
      obtain ⟨hout, hend, hstart, hsize, hco, hbytes⟩ :=
        ih (stored_coherent d src) i' hdrop hwrap
      have htotal : min src.length (d.size - d.pos) = readStep d src.length +
          min (src.length - readStep d src.length) (d.size - (d.pos + readStep d src.length)) := by
        simp only [readStep]
        omega
      simp only [List.length_drop] at hout hend hbytes
      rw [hstep, htotal]
      refine ⟨?_, ?_, hstart, hsize, hco, ?_⟩
      · rw [hout]
        rfl
      · exact hend.trans (Nat.add_assoc _ _ _)
      · intro a
        rw [hbytes a, stored_devByte hgo.2 hwrap, stored_pos, stored_startLba, stored_size]
        by_cases hfirst : a < d.startLba * sectorSize + d.pos + readStep d src.length
        · rw [if_neg (by omega)]
          exact if_congr (by omega) rfl rfl
        · have hdrop : (src.drop (readStep d src.length)).getD
              (a - (d.startLba * sectorSize + (d.pos + readStep d src.length))) 0 =
              src.getD (a - (d.startLba * sectorSize + d.pos)) 0 := by
            rw [List.getD_eq_getElem?_getD, List.getD_eq_getElem?_getD, List.getElem?_drop]
            congr 2
            omega
          rw [hdrop, if_neg (c := _ ∧ a < _ + readStep d src.length) (by omega)]
          exact if_congr (by omega) rfl rfl
    · have hmin : min src.length (d.size - d.pos) = 0 := by
        by_cases hnil : src = []
        · simp [hnil]
        · have hlt : ¬d.pos < d.size := fun hlt => hgo ⟨hnil, hlt⟩
          omega
      rw [writeLoop_stop hgo, hmin]
      refine ⟨rfl, rfl, rfl, rfl, hd, ?_⟩
      intro a
      rw [if_neg (by omega)]

end Write

end FatDisk

end CoeleoOs.Fs
