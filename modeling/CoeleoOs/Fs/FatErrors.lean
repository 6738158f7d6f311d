import CoeleoOs.Fs.FatLoop

/-!
# The cached sector under errors

A block read that fails leaves the bounce sector in any state, and a block write
that fails comes after the bounce sector was changed. In both cases `cachedLba`
keeps the sector it named before. The cache stays coherent as long as operations
fail only while no sector is cached.
-/

namespace CoeleoOs.Fs

structure FatCall where
  io : ℕ → Io
  op : FatOp

namespace FatDisk

def call (d : FatDisk) (c : FatCall) : Option FatDisk := some (d.step c.io c.op).2

def firstOps (d : FatDisk) : FatOp → ℕ
  | .seek _ => 0
  | .read _ => 1
  | .write src => if d.pos % sectorSize = 0 ∧ readStep d src.length = sectorSize then 1 else 2

/-- No operation fails, or none was cached and one on the first sector fails. -/
def CallSafe (d : FatDisk) (c : FatCall) : Prop :=
  match c.op with
  | .seek _ => True
  | op => (∀ i, c.io i = .ok) ∨ (d.cachedLba = none ∧ ∃ i < d.firstOps op, c.io i ≠ .ok)

section Calls

variable {io : ℕ → Io} {fuel i : ℕ} {d : FatDisk} {src : List UInt8}

theorem coherent_of_none (h : d.cachedLba = none) : d.Coherent := by
  intro l hl
  rw [h] at hl
  cases hl

theorem writeLoop_coherent (hio : ∀ i, io i = .ok) (hd : d.Coherent) :
    (writeLoop io fuel i d src).2.Coherent := by
  induction fuel generalizing i d src with
  | zero => exact hd
  | succ fuel ih =>
    by_cases hgo : src ≠ [] ∧ d.pos < d.size
    · obtain ⟨i', hstep⟩ := writeLoop_go fuel (i := i) hio hd hgo
      rw [hstep]
      exact ih (stored_coherent d src)
    · rw [writeLoop_stop hgo]
      exact hd

theorem fetch_fail (lba : ℕ) {o : Io} (ho : o ≠ .ok) (hd : d.cachedLba = none) :
    ∃ d', d.fetch lba o = (false, d') ∧ d'.cachedLba = none := by
  cases o with
  | ok => exact absurd rfl ho
  | fail junk => exact ⟨_, rfl, hd⟩

theorem store_fail {lba : ℕ} {o : Io} (ho : o ≠ .ok) : d.store lba o = (false, d) := by
  cases o with
  | ok => exact absurd rfl ho
  | fail junk => rfl

theorem read_first_fail (hd : d.cachedLba = none) (hio : io 0 ≠ .ok) (n : ℕ) :
    (FatDisk.read io d n).2.cachedLba = none := by
  by_cases hgo : 0 < n ∧ d.pos < d.size
  · obtain ⟨fuel, rfl⟩ := Nat.exists_eq_succ_of_ne_zero hgo.1.ne'
    obtain ⟨d', hfetch, hnone⟩ := fetch_fail (d.pos / sectorSize) hio hd
    have hc : d.cache (d.pos / sectorSize) (io 0) = (false, d') := by
      simp only [cache, hd, reduceCtorEq, if_false, hfetch]
    rw [FatDisk.read, readLoop_fail hgo hc]
    exact hnone
  · rw [FatDisk.read, readLoop_stop hgo]
    exact hd

theorem writeLoop_fail_prepare {d' : FatDisk} {j : ℕ} (h : src ≠ [] ∧ d.pos < d.size)
    (hprep : prepare io i d (d.pos / sectorSize) (d.pos % sectorSize)
      (src.take (readStep d src.length)) = (false, d', j)) :
    writeLoop io (fuel + 1) i d src = (none, d') := by
  simp only [readStep] at hprep
  simp only [writeLoop, h, ne_eq, not_false_eq_true, and_self, if_true, hprep]

theorem writeLoop_fail_store {d' : FatDisk} {j : ℕ} (h : src ≠ [] ∧ d.pos < d.size)
    (hprep : prepare io i d (d.pos / sectorSize) (d.pos % sectorSize)
      (src.take (readStep d src.length)) = (true, d', j)) (hio : io j ≠ .ok) :
    writeLoop io (fuel + 1) i d src = (none, d') := by
  simp only [readStep] at hprep
  simp only [writeLoop, h, ne_eq, not_false_eq_true, and_self, if_true, hprep, store_fail hio]

theorem write_first_fail (hd : d.cachedLba = none)
    (hio : ∃ i < d.firstOps (.write src), io i ≠ .ok) :
    (FatDisk.write io d src).2.cachedLba = none := by
  by_cases hgo : src ≠ [] ∧ d.pos < d.size
  · obtain ⟨fuel, hfuel⟩ := Nat.exists_eq_succ_of_ne_zero
      (List.length_pos_iff.mpr hgo.1).ne'
    have hlen : (src.take (readStep d src.length)).length = readStep d src.length := by
      have : readStep d src.length ≤ src.length := by simp only [readStep]; omega
      rw [List.length_take, Nat.min_eq_left this]
    rw [FatDisk.write, hfuel]
    obtain ⟨j, hj, hfail⟩ := hio
    simp only [firstOps] at hj
    by_cases hfull : d.pos % sectorSize = 0 ∧ readStep d src.length = sectorSize
    · have hj0 : j = 0 := by
        simp only [hfull, and_self, if_true] at hj
        omega
      subst hj0
      have hprep : prepare io 0 d (d.pos / sectorSize) (d.pos % sectorSize)
          (src.take (readStep d src.length)) =
          (true, { d with bounce := d.bounce.splice 0 (src.take (readStep d src.length)) }, 0) := by
        rw [prepare, hlen, if_pos hfull]
      rw [writeLoop_fail_store hgo hprep hfail]
      exact hd
    · simp only [hfull, if_false] at hj
      cases hfirst : io 0 with
      | fail junk =>
        have hprep : prepare io 0 d (d.pos / sectorSize) (d.pos % sectorSize)
            (src.take (readStep d src.length)) = (false, { d with bounce := junk }, 1) := by
          simp only [prepare, hlen, hfull, hd, reduceCtorEq, if_false, hfirst, fetch]
        rw [writeLoop_fail_prepare hgo hprep]
        exact hd
      | ok =>
        have hj1 : j = 1 := by
          have hj0 : j ≠ 0 := fun h0 => hfail (h0 ▸ hfirst)
          omega
        subst hj1
        have hprep : prepare io 0 d (d.pos / sectorSize) (d.pos % sectorSize)
            (src.take (readStep d src.length)) =
            (true, ⟨d.pos, d.startLba, d.size, (d.disk (d.sectorAt (d.pos / sectorSize))).splice
              (d.pos % sectorSize) (src.take (readStep d src.length)), none, d.disk⟩, 1) := by
          simp only [prepare, hlen, hfull, hd, reduceCtorEq, if_false, hfirst, fetch]
        rw [writeLoop_fail_store hgo hprep hfail]
  · rw [FatDisk.write, writeLoop_stop hgo]
    exact hd

theorem step_coherent (hd : d.Coherent) {c : FatCall} (hc : d.CallSafe c) :
    (d.step c.io c.op).2.Coherent := by
  obtain ⟨io, op⟩ := c
  cases op with
  | seek p =>
    simp only [FatDisk.step, FatDisk.seek]
    cases d.seekTo p with
    | none => exact hd
    | some new => exact hd
  | read n =>
    rcases hc with hok | ⟨hnone, i, hi, hfail⟩
    · obtain ⟨bs, hbs⟩ := readLoop_ok hok n 0 n d
      exact (readLoop_some hd le_rfl hbs).2.2
    · have hi0 : i = 0 := by
        simp only [firstOps] at hi
        omega
      exact coherent_of_none (read_first_fail hnone (hi0 ▸ hfail) n)
  | write src =>
    rcases hc with hok | ⟨hnone, hfail⟩
    · exact writeLoop_coherent hok hd
    · exact coherent_of_none (write_first_fail hnone hfail)

end Calls

/-- Where operations fail only while nothing is cached, the cache names the sector it
holds, and a read that succeeds returns the bytes that are on the disk. -/
theorem cache_coherent_of_safe_calls (disk : ℕ → Sector) (startLba size : UInt64)
    {ts : List (Lib.Machine.Trans FatDisk FatCall)} {d : FatDisk}
    (h : Lib.Machine.Path call (volume disk startLba size) ts d)
    (hc : ∀ t ∈ ts, t.pre.CallSafe t.act) :
    d.Coherent ∧ ∀ (io : ℕ → Io) (n : ℕ) (bs : List UInt8), (FatDisk.read io d n).1 = some bs →
      bs = d.bytes d.pos (min n (d.size - d.pos)) := by
  have hd : d.Coherent := by
    refine h.invariant (I := Coherent) (C := fun t => t.pre.CallSafe t.act) ?_ ?_ hc
    · exact coherent_of_none rfl
    · intro t ht hI hsafe
      rw [← Option.some.inj ht]
      exact step_coherent hI hsafe
  refine ⟨hd, ?_⟩
  intro io n bs hbs
  exact (readLoop_some hd le_rfl hbs).1

def staleCalls : List FatCall :=
  [⟨fun _ => .ok, .read 1⟩, ⟨fun _ => .ok, .seek (.start 512)⟩,
    ⟨fun _ => .fail fun _ => 1, .read 1⟩, ⟨fun _ => .ok, .seek (.start 0)⟩]

theorem cache_stale_after_failed_read :
    ∃ d, Lib.Machine.Reachable call (volume (fun _ _ => 0) 0 1024) d ∧ ¬d.Coherent ∧
      (FatDisk.read (fun _ => .ok) d 1).1 = some [1] ∧ d.bytes d.pos 1 = [0] := by
  refine ⟨_, Lib.Machine.replay_reachable staleCalls rfl, ?_, rfl, rfl⟩
  intro hco
  have hbyte : (1 : UInt8) = 0 := congrFun (hco 0 rfl) 0
  exact absurd hbyte (by decide)

theorem cache_coherent_of_safe_calls_failed_read :
    let first : FatCall := ⟨fun _ => .fail fun _ => 1, .read 1⟩
    let d := ((volume (fun _ _ => 0) 0 1024).step first.io first.op).2
    (volume (fun _ _ => 0) 0 1024).CallSafe first ∧ d.Coherent := by
  intro first d
  have hsafe : (volume (fun _ _ => 0) 0 1024).CallSafe first :=
    .inr ⟨rfl, 0, by decide, by simp [first]⟩
  refine ⟨hsafe, ?_⟩
  refine (cache_coherent_of_safe_calls (fun _ _ => 0) 0 1024 (.snoc first .nil rfl) ?_).1
  simp only [List.nil_append, List.mem_singleton]
  rintro t rfl
  exact hsafe

end FatDisk

end CoeleoOs.Fs
