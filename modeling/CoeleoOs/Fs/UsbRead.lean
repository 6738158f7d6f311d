import CoeleoOs.Fs.Blk
import CoeleoOs.Lib.Effect

/-!
# Reading from the USB stick

A command is three transfers: the wrapper out, the data in, the status in. `replies n`
is what the device does with the `n`-th transfer: it completes it with a code and,
inwards, the bytes it sends, which may be fewer than asked for. `none` is a transfer
that never completes.
-/

namespace CoeleoOs.Fs.UsbMsc
open CoeleoOs.Lib

abbrev frameSize : ℕ := 4096

def ccSuccess : UInt8 := 1
def ccShort : UInt8 := 13
def cswSig : ℕ := 0x53425355
def cswLen : ℕ := 13

structure Reply where
  code : UInt8
  data : List UInt8
  deriving DecidableEq

inductive Xfer
  | out (sent : List UInt8)
  | inn (sent : List UInt8)
  deriving DecidableEq

structure Slot where
  dciOut : ℕ
  dciIn : ℕ
  bulkOut : Bool
  bulkIn : Bool

structure Usb where
  slot : Option Slot
  tag : UInt32
  bounce : ℕ → UInt8
  xfers : ℕ

structure Evt where
  code : UInt8
  remain : ℕ

abbrev Bus := Eff (ℕ → Option Reply) Xfer Usb

def dma (bytes : List UInt8) (mem : ℕ → UInt8) : ℕ → UInt8 := fun i => bytes[i]?.getD (mem i)

def endpoint (dci : Slot → ℕ) (ring : Slot → Bool) : Bus Unit := do
  let usb ← Eff.get
  match usb.slot with
  | none => Eff.abort
  | some s => if dci s = 0 then Eff.abort else if ring s then pure () else Eff.abort

def xferOut (n : ℕ) : Bus Evt := do
  let replies ← Eff.ask
  let usb ← Eff.get
  match replies usb.xfers with
  | none => Eff.abort
  | some r => do
    Eff.tell (.out ((List.range n).map usb.bounce))
    Eff.set { usb with xfers := usb.xfers + 1 }
    pure ⟨r.code, 0⟩

def xferIn (n : ℕ) : Bus Evt := do
  let replies ← Eff.ask
  let usb ← Eff.get
  match replies usb.xfers with
  | none => Eff.abort
  | some r => do
    let sent := r.data.take n
    Eff.tell (.inn sent)
    Eff.set { usb with xfers := usb.xfers + 1, bounce := dma sent usb.bounce }
    pure ⟨r.code, n - sent.length⟩

def bounceOutLoop (buf : List UInt8) : ℕ → ℕ → Bus Unit
  | 0, _ => pure ()
  | fuel + 1, off =>
    if off < buf.length then do
      let n := min (buf.length - off) frameSize
      let usb ← Eff.get
      Eff.set { usb with bounce := dma ((buf.drop off).take n) usb.bounce }
      endpoint Slot.dciOut Slot.bulkOut
      let ev ← xferOut n
      if ev.code ≠ ccSuccess ∧ ev.code ≠ ccShort then Eff.abort
      else bounceOutLoop buf fuel (off + n)
    else pure ()

def bounceOut (buf : List UInt8) : Bus Unit := bounceOutLoop buf buf.length 0

def copyAt (buf : List UInt8) (off : ℕ) (bytes : List UInt8) : List UInt8 :=
  buf.take off ++ bytes ++ buf.drop (off + bytes.length)

def bounceInLoop : ℕ → ℕ → List UInt8 → Bus (List UInt8)
  | 0, _, buf => pure buf
  | fuel + 1, off, buf =>
    if off < buf.length then do
      let n := min (buf.length - off) frameSize
      endpoint Slot.dciIn Slot.bulkIn
      let ev ← xferIn n
      if ev.code ≠ ccSuccess ∧ ev.code ≠ ccShort then Eff.abort
      else do
        let got := min (n - ev.remain) n
        let usb ← Eff.get
        bounceInLoop fuel (off + n) (copyAt buf off ((List.range got).map usb.bounce))
    else pure buf

def bounceIn (buf : List UInt8) : Bus (List UInt8) := bounceInLoop buf.length 0 buf

def sendCbw (cdb : List UInt8) (len : ℕ) (din : Bool) (cblen : UInt8) : Bus Unit := do
  let usb ← Eff.get
  Eff.set { usb with tag := usb.tag + 1 }
  bounceOut (cbw usb.tag.toNat cdb len din cblen)

-- The tag and the residue of the status are not looked at.
def csw : Bus Unit := do
  let p ← bounceIn (List.replicate cswLen 0)
  if p.take 4 ≠ leWord cswSig then Eff.abort
  else if p[12]? ≠ some 0 then Eff.abort
  else pure ()

def scsiIn (cdb : List UInt8) (cblen : UInt8) (data : List UInt8) : Bus (List UInt8) := do
  sendCbw cdb data.length true cblen
  let data ← bounceIn data
  csw
  pure data

def readLoop : ℕ → ℕ → UInt64 → List UInt8 → Bus (List UInt8)
  | 0, _, _, buf => pure buf
  | fuel + 1, done, lba, buf =>
    if done < buf.length then do
      let n := min (buf.length - done) chunk
      let blocks := n / sectorSize % 2 ^ 16
      let part ← scsiIn (cdbRead10 lba.toNat blocks) 10 ((buf.drop done).take n)
      readLoop fuel (done + n) (lba + UInt64.ofNat blocks) (copyAt buf done part)
    else pure buf

def readInto (start : UInt64) (buf : List UInt8) : Bus (List UInt8) :=
  if buf.length % sectorSize ≠ 0 then Eff.abort else readLoop buf.length 0 start buf

/-- The size of the part of a buffer that the `k`-th command of a call reads. -/
def share (len k : ℕ) : ℕ := min (len - chunk * k) chunk

/-- Byte `i` came with the data stage of the command for its sector. -/
def Delivered (start : UInt64) (log : List Xfer) (buf : List UInt8) : Prop :=
  ∀ i b, buf[i]? = some b → ∃ tag sent,
    log[3 * (i / chunk)]? = some (.out (cbw tag
      (cdbRead10 (start + UInt64.ofNat (8 * (i / chunk))).toNat
        (share buf.length (i / chunk) / sectorSize)) (share buf.length (i / chunk)) true 10)) ∧
    log[3 * (i / chunk) + 1]? = some (.inn sent) ∧ sent[i % chunk]? = some b

def Slot.Usable (s : Slot) : Prop := s.dciOut ≠ 0 ∧ s.bulkOut = true ∧ s.dciIn ≠ 0 ∧ s.bulkIn = true

def Reply.Completes (r : Reply) : Prop := r.code = ccSuccess ∨ r.code = ccShort

/-- The status that the driver takes for good: signature and status byte, zeros where the device
sent nothing. -/
def GoodStatus (data : List UInt8) : Prop :=
  let p := data.take cswLen ++ List.replicate (cswLen - data.length) 0
  p.take 4 = leWord cswSig ∧ p[12]? = some 0

/-- The device goes along with the three transfers from `x` on. -/
def Accepts (replies : ℕ → Option Reply) (x : ℕ) : Prop :=
  (∃ r, replies x = some r ∧ r.Completes) ∧ (∃ r, replies (x + 1) = some r ∧ r.Completes) ∧
    ∃ r, replies (x + 2) = some r ∧ r.Completes ∧ GoodStatus r.data

/-- A call that no device behaviour can make good: an odd length, a slot without its endpoints, or
a command that the device refuses. -/
def Refused (replies : ℕ → Option Reply) (usb : Usb) (len : ℕ) : Prop :=
  len % sectorSize ≠ 0 ∨ (0 < len ∧ ¬ ∃ s, usb.slot = some s ∧ s.Usable) ∨
    ∃ k, chunk * k < len ∧ ¬ Accepts replies (usb.xfers + 3 * k)

/-- Every data stage of the call brings all that was asked for. -/
def FullStages (replies : ℕ → Option Reply) (usb : Usb) (len : ℕ) : Prop :=
  ∀ k, chunk * k < len → ∀ r, replies (usb.xfers + 3 * k + 1) = some r → share len k ≤ r.data.length

section Transfers

variable {replies : ℕ → Option Reply} {usb : Usb} {s : Slot} {r : Reply} {buf : List UInt8}

theorem dma_range (bytes : List UInt8) (mem : ℕ → UInt8) :
    (List.range bytes.length).map (dma bytes mem) = bytes := by
  apply List.ext_getElem
  · simp
  · intro i hi hlen
    simp [dma, hlen]

theorem endpoint_out (replies : ℕ → Option Reply) (usb : Usb) (dci : Slot → ℕ) (ring : Slot → Bool)
    (hs : usb.slot = some s) (hd : dci s ≠ 0) (hr : ring s = true) :
    (endpoint dci ring).out replies usb = some ((), usb) ∧
    (endpoint dci ring).log replies usb = [] := by
  simp [endpoint, hs, hd, hr]

theorem endpoint_some {dci : Slot → ℕ} {ring : Slot → Bool} {x : Unit × Usb}
    (h : (endpoint dci ring).out replies usb = some x) :
    x = ((), usb) ∧ ∃ s, usb.slot = some s ∧ dci s ≠ 0 ∧ ring s = true := by
  simp only [endpoint, Eff.out_bind, Eff.out_get, Option.bind_some] at h
  cases hs : usb.slot with
  | none => simp [hs] at h
  | some s =>
    by_cases hd : dci s = 0
    · simp [hs, hd] at h
    · by_cases hr : ring s = true
      · simp only [hs, hd, hr, if_false, if_true, Eff.out_pure, Option.some.injEq] at h
        exact ⟨h.symm, s, rfl, hd, hr⟩
      · simp [hs, hd, hr] at h

def Usb.received (usb : Usb) (sent : List UInt8) : Usb :=
  { usb with xfers := usb.xfers + 1, bounce := dma sent usb.bounce }

theorem xferIn_out (usb : Usb) (n : ℕ) (hr : replies usb.xfers = some r) :
    (xferIn n).out replies usb = some (⟨r.code, n - (r.data.take n).length⟩,
      usb.received (r.data.take n)) ∧ (xferIn n).log replies usb = [.inn (r.data.take n)] := by
  simp [xferIn, hr, Usb.received]

theorem xferOut_out (usb : Usb) (n : ℕ) (hr : replies usb.xfers = some r) :
    (xferOut n).out replies usb = some (⟨r.code, 0⟩, { usb with xfers := usb.xfers + 1 }) ∧
      (xferOut n).log replies usb = [.out ((List.range n).map usb.bounce)] := by
  simp [xferOut, hr]

theorem xferIn_some {n : ℕ} {z : Evt × Usb} (h : (xferIn n).out replies usb = some z) :
    ∃ r, replies usb.xfers = some r ∧ z.1.code = r.code := by
  cases hr : replies usb.xfers with
  | none => simp [xferIn, hr] at h
  | some r =>
    rw [(xferIn_out usb n hr).1, Option.some.injEq] at h
    subst h
    exact ⟨r, rfl, rfl⟩

theorem bounceInLoop_end {fuel off : ℕ} (h : buf.length ≤ off) :
    bounceInLoop fuel off buf = pure buf := by
  cases fuel with
  | zero => rfl
  | succ fuel => simp only [bounceInLoop, if_neg (Nat.not_lt.mpr h)]

theorem xferOut_some {n : ℕ} {z : Evt × Usb} (h : (xferOut n).out replies usb = some z) :
    ∃ r, replies usb.xfers = some r ∧ z.1.code = r.code := by
  cases hr : replies usb.xfers with
  | none => simp [xferOut, hr] at h
  | some r =>
    rw [(xferOut_out usb n hr).1, Option.some.injEq] at h
    subst h
    exact ⟨r, rfl, rfl⟩

theorem bounceOutLoop_end {fuel off : ℕ} (h : buf.length ≤ off) :
    bounceOutLoop buf fuel off = pure () := by
  cases fuel with
  | zero => rfl
  | succ fuel => simp only [bounceOutLoop, if_neg (Nat.not_lt.mpr h)]

def fill (buf data : List UInt8) : List UInt8 := copyAt buf 0 (data.take buf.length)

theorem fill_length (buf data : List UInt8) : (fill buf data).length = buf.length := by
  simp [fill, copyAt]

theorem fill_getElem? {data : List UInt8} {i : ℕ} (hi : i < buf.length) :
    (fill buf data)[i]? = if i < data.length then data[i]? else buf[i]? := by
  simp only [fill, copyAt, List.take_zero, List.nil_append, Nat.zero_add]
  by_cases hd : i < data.length
  · rw [if_pos hd, List.getElem?_append_left (by simp; omega), List.getElem?_take_of_lt hi]
  · rw [if_neg hd, List.getElem?_append_right (by simp; omega), List.getElem?_drop,
      List.length_take]
    congr 1
    omega

theorem completes_iff {c : UInt8} (hc : c = r.code) :
    ¬ (c ≠ ccSuccess ∧ c ≠ ccShort) ↔ r.Completes := by
  rw [not_and_or, not_not, not_not, hc, Reply.Completes]

theorem bounceIn_out (usb : Usb) (buf : List UInt8) (hpos : 0 < buf.length)
    (hlen : buf.length ≤ frameSize) (hs : usb.slot = some s) (hd : s.dciIn ≠ 0)
    (hb : s.bulkIn = true) (hr : replies usb.xfers = some r) (hc : r.Completes) :
    (bounceIn buf).out replies usb = some (fill buf r.data, usb.received (r.data.take buf.length)) ∧
      (bounceIn buf).log replies usb = [.inn (r.data.take buf.length)] := by
  obtain ⟨fuel, hfuel⟩ : ∃ fuel, buf.length = fuel + 1 := ⟨buf.length - 1, by omega⟩
  have hn : min (buf.length - 0) frameSize = buf.length := by omega
  have hgot : min (buf.length - (buf.length - (r.data.take buf.length).length)) buf.length =
      (r.data.take buf.length).length := by
    have hle : (r.data.take buf.length).length ≤ buf.length := by simp
    omega
  have hend : (copyAt buf 0 (r.data.take buf.length)).length ≤ 0 + buf.length :=
    (fill_length buf r.data).le.trans (by omega)
  obtain ⟨hout, hlog⟩ := endpoint_out replies usb Slot.dciIn Slot.bulkIn hs hd hb
  obtain ⟨hxout, hxlog⟩ := xferIn_out usb buf.length hr
  have hloop : bounceIn buf = bounceInLoop (fuel + 1) 0 buf := by rw [bounceIn, hfuel]
  have hmem :
      (List.range (r.data.take buf.length).length).map
        (usb.received (r.data.take buf.length)).bounce = r.data.take buf.length := dma_range _ _
  rw [hloop]
  simp only [bounceInLoop, if_pos hpos, hn, Eff.out_bind, Eff.log_bind, hout, hlog, hxout, hxlog,
    Option.bind_some, Option.elim_some, if_neg ((completes_iff rfl).mpr hc), Eff.out_get,
    Eff.log_get, hgot, hmem, bounceInLoop_end hend, Eff.out_pure, Eff.log_pure]
  exact ⟨rfl, rfl⟩

theorem bounceIn_some (hpos : 0 < buf.length) {x : List UInt8 × Usb}
    (h : (bounceIn buf).out replies usb = some x) :
    (∃ s, usb.slot = some s ∧ s.dciIn ≠ 0 ∧ s.bulkIn = true) ∧ ∃ r, replies usb.xfers = some r ∧
    r.Completes := by
  obtain ⟨fuel, hfuel⟩ : ∃ fuel, buf.length = fuel + 1 := ⟨buf.length - 1, by omega⟩
  have hloop : bounceIn buf = bounceInLoop (fuel + 1) 0 buf := by rw [bounceIn, hfuel]
  rw [hloop] at h
  simp only [bounceInLoop, if_pos hpos, Eff.out_bind, Option.bind_eq_some_iff] at h
  obtain ⟨y, hy, z, hz, hrest⟩ := h
  obtain ⟨rfl, hslot⟩ := endpoint_some hy
  obtain ⟨r, hr, hcode⟩ := xferIn_some hz
  refine ⟨hslot, r, hr, ?_⟩
  by_contra hc
  rw [if_pos (not_not.mp fun hn => hc ((completes_iff hcode).mp hn))] at hrest
  cases hrest

theorem bounceOut_out (usb : Usb) (buf : List UInt8) (hpos : 0 < buf.length)
    (hlen : buf.length ≤ frameSize) (hs : usb.slot = some s) (hd : s.dciOut ≠ 0)
    (hb : s.bulkOut = true) (hr : replies usb.xfers = some r) (hc : r.Completes) :
    (∃ mem, (bounceOut buf).out replies usb = some ((), { usb with
      xfers := usb.xfers + 1, bounce := mem })) ∧ (bounceOut buf).log replies usb = [.out buf] := by
  obtain ⟨fuel, hfuel⟩ : ∃ fuel, buf.length = fuel + 1 := ⟨buf.length - 1, by omega⟩
  have hn : min (buf.length - 0) frameSize = buf.length := by omega
  have hend : buf.length ≤ 0 + buf.length := by omega
  obtain ⟨hout, hlog⟩ :=
    endpoint_out replies { usb with bounce := dma buf usb.bounce } Slot.dciOut Slot.bulkOut hs hd hb
  obtain ⟨hxout, hxlog⟩ := xferOut_out { usb with bounce := dma buf usb.bounce } buf.length hr
  have hloop : bounceOut buf = bounceOutLoop buf (fuel + 1) 0 := by rw [bounceOut, hfuel]
  have hmem : (List.range buf.length).map (dma buf usb.bounce) = buf := dma_range _ _
  rw [hloop]
  simp only [bounceOutLoop, if_pos hpos, hn, List.drop_zero, List.take_length, Eff.out_bind,
    Eff.log_bind, Eff.out_get, Eff.log_get, Eff.out_set, Eff.log_set, hout, hlog, hxout, hxlog,
    Option.bind_some, Option.elim_some, if_neg ((completes_iff rfl).mpr hc), hmem,
    bounceOutLoop_end hend, Eff.out_pure, Eff.log_pure]
  exact ⟨⟨_, rfl⟩, rfl⟩

theorem bounceOut_some (hpos : 0 < buf.length) {x : Unit × Usb}
    (h : (bounceOut buf).out replies usb = some x) :
    (∃ s, usb.slot = some s ∧ s.dciOut ≠ 0 ∧ s.bulkOut = true) ∧ ∃ r, replies usb.xfers = some r ∧
    r.Completes := by
  obtain ⟨fuel, hfuel⟩ : ∃ fuel, buf.length = fuel + 1 := ⟨buf.length - 1, by omega⟩
  have hloop : bounceOut buf = bounceOutLoop buf (fuel + 1) 0 := by rw [bounceOut, hfuel]
  rw [hloop] at h
  simp only [bounceOutLoop, if_pos hpos, Eff.out_bind, Eff.out_get, Eff.out_set, Option.bind_some,
    Option.bind_eq_some_iff] at h
  obtain ⟨y, hy, z, hz, hrest⟩ := h
  obtain ⟨rfl, hslot⟩ := endpoint_some hy
  obtain ⟨r, hr, hcode⟩ := xferOut_some hz
  refine ⟨hslot, r, hr, ?_⟩
  by_contra hc
  rw [if_pos (not_not.mp fun hn => hc ((completes_iff hcode).mp hn))] at hrest
  cases hrest

theorem fill_status (data : List UInt8) :
    fill (List.replicate cswLen 0) data = data.take cswLen ++
      List.replicate (cswLen - data.length) 0 := by
  simp only [fill, copyAt, List.take_zero, List.nil_append, Nat.zero_add, List.length_replicate,
    List.drop_replicate, List.length_take]
  congr 2
  omega

theorem csw_out (usb : Usb) (hs : usb.slot = some s) (hd : s.dciIn ≠ 0) (hb : s.bulkIn = true)
    (hr : replies usb.xfers = some r) (hc : r.Completes) (hgood : GoodStatus r.data) :
    csw.out replies usb = some ((), usb.received (r.data.take cswLen)) ∧
      csw.log replies usb = [.inn (r.data.take cswLen)] := by
  obtain ⟨hout, hlog⟩ :=
    bounceIn_out usb (List.replicate cswLen 0) (by decide) (by decide) hs hd hb hr hc
  rw [List.length_replicate] at hout hlog
  rw [fill_status] at hout
  simp only [csw, Eff.out_bind, Eff.log_bind, hout, hlog, Option.bind_some, Option.elim_some,
    if_neg (not_not.mpr hgood.1), if_neg (not_not.mpr hgood.2), Eff.out_pure, Eff.log_pure,
    List.append_nil, and_self]

theorem csw_some {x : Unit × Usb} (h : csw.out replies usb = some x) :
    ∃ r, replies usb.xfers = some r ∧ r.Completes ∧ GoodStatus r.data := by
  simp only [csw, Eff.out_bind, Option.bind_eq_some_iff] at h
  obtain ⟨y, hy, hrest⟩ := h
  obtain ⟨⟨s, hs, hd, hb⟩, r, hr, hc⟩ := bounceIn_some (by decide) hy
  rw [(bounceIn_out usb _ (by decide) (by decide) hs hd hb hr hc).1, Option.some.injEq, fill_status]
    at hy
  subst hy
  refine ⟨r, hr, hc, ?_⟩
  by_contra hgood
  simp only [GoodStatus, not_and_or] at hgood
  split at hrest
  · cases hrest
  · split at hrest
    · cases hrest
    · rename_i hsig hstatus
      exact hgood.elim (fun hn => hn (not_not.mp hsig)) (fun hn => hn (not_not.mp hstatus))

theorem cbw_length (tag len : ℕ) (cdb : List UInt8) (din : Bool) (cblen : UInt8) :
    (cbw tag cdb len din cblen).length = 15 + cdb.length := by
  simp only [cbw, leWord, List.length_append, List.length_cons, List.length_nil]

theorem scsiIn_out (buf : List UInt8) {cdb : List UInt8} (cblen : UInt8) (hcdb : cdb.length = 16)
    (hpos : 0 < buf.length) (hlen : buf.length ≤ frameSize) (hs : usb.slot = some s)
    (huse : s.Usable) (hacc : Accepts replies usb.xfers) :
    ∃ r status usb', replies (usb.xfers + 1) = some r ∧ (scsiIn cdb cblen buf).out replies usb =
      some (fill buf r.data, usb') ∧ usb'.slot = usb.slot ∧ usb'.xfers = usb.xfers + 3 ∧
      (scsiIn cdb cblen buf).log replies usb =
        [.out (cbw usb.tag.toNat cdb buf.length true cblen), .inn (r.data.take buf.length),
          .inn status] := by
  obtain ⟨⟨r₀, hr₀, hc₀⟩, ⟨r₁, hr₁, hc₁⟩, r₂, hr₂, hc₂, hgood⟩ := hacc
  have hcbw := cbw_length usb.tag.toNat buf.length cdb true cblen
  have hfit : (cbw usb.tag.toNat cdb buf.length true cblen).length ≤ frameSize := by
    rw [hcbw, hcdb]
    decide
  obtain ⟨⟨mem, hout₀⟩, hlog₀⟩ := bounceOut_out { usb with tag := usb.tag + 1 }
    (cbw usb.tag.toNat cdb buf.length true cblen) (by omega) hfit hs huse.1 huse.2.1 hr₀ hc₀
  obtain ⟨hout₁, hlog₁⟩ :=
    bounceIn_out { usb with tag := usb.tag + 1, xfers := usb.xfers + 1, bounce := mem } buf hpos
    hlen hs huse.2.2.1 huse.2.2.2 hr₁ hc₁
  obtain ⟨hout₂, hlog₂⟩ :=
    csw_out (Usb.received { usb with tag := usb.tag + 1, xfers := usb.xfers + 1, bounce := mem }
    (r₁.data.take buf.length)) hs huse.2.2.1 huse.2.2.2 hr₂ hc₂ hgood
  refine ⟨r₁, r₂.data.take cswLen, (Usb.received
    { usb with tag := usb.tag + 1, xfers := usb.xfers + 1, bounce := mem }
    (r₁.data.take buf.length)).received (r₂.data.take cswLen), hr₁, ?_, rfl, rfl, ?_⟩
  · simp only [scsiIn, sendCbw, Eff.out_bind, Eff.out_get, Eff.out_set, Option.bind_some, hout₀,
      hout₁, hout₂, Eff.out_pure]
  · simp only [scsiIn, sendCbw, Eff.out_bind, Eff.log_bind, Eff.out_get, Eff.log_get, Eff.out_set,
      Eff.log_set, Option.bind_some, Option.elim_some, hout₀, hlog₀, hout₁, hlog₁, hout₂, hlog₂,
      Eff.log_pure]
    rfl

theorem scsiIn_some (buf : List UInt8) {cdb : List UInt8} {cblen : UInt8} (hcdb : cdb.length = 16)
    (hpos : 0 < buf.length) (hlen : buf.length ≤ frameSize) {x : List UInt8 × Usb}
    (h : (scsiIn cdb cblen buf).out replies usb = some x) : (∃ s, usb.slot = some s ∧ s.Usable) ∧
    Accepts replies usb.xfers := by
  have hcbw := cbw_length usb.tag.toNat buf.length cdb true cblen
  have hfit : (cbw usb.tag.toNat cdb buf.length true cblen).length ≤ frameSize := by
    rw [hcbw, hcdb]
    decide
  simp only [scsiIn, sendCbw, Eff.out_bind, Eff.out_get, Eff.out_set, Option.bind_some,
    Option.bind_eq_some_iff] at h
  obtain ⟨y, hy, z, hz, w, hw, -⟩ := h
  obtain ⟨⟨s, hs, hd₀, hb₀⟩, r₀, hr₀, hc₀⟩ := bounceOut_some (by omega) hy
  obtain ⟨⟨mem, hout₀⟩, -⟩ := bounceOut_out { usb with tag := usb.tag + 1 }
    (cbw usb.tag.toNat cdb buf.length true cblen) (by omega) hfit hs hd₀ hb₀ hr₀ hc₀
  obtain rfl := Option.some.inj (hout₀.symm.trans hy)
  obtain ⟨⟨s', hs', hd₁, hb₁⟩, r₁, hr₁, hc₁⟩ := bounceIn_some hpos hz
  obtain rfl := Option.some.inj (hs.symm.trans hs')
  obtain ⟨hout₁, -⟩ := bounceIn_out _ buf hpos hlen hs' hd₁ hb₁ hr₁ hc₁
  obtain rfl := Option.some.inj (hout₁.symm.trans hz)
  exact ⟨⟨s, hs, hd₀, hb₀, hd₁, hb₁⟩, ⟨r₀, hr₀, hc₀⟩, ⟨r₁, hr₁, hc₁⟩, csw_some hw⟩

end Transfers

section Loop

variable {replies : ℕ → Option Reply} {usb : Usb} {s : Slot} {buf : List UInt8}

theorem copyAt_length {off : ℕ} {bytes : List UInt8} (h : off + bytes.length ≤ buf.length) :
    (copyAt buf off bytes).length = buf.length := by
  simp only [copyAt, List.length_append, List.length_take, List.length_drop]
  omega

theorem copyAt_outside {off i : ℕ} {bytes : List UInt8} (h : off + bytes.length ≤ buf.length)
    (hi : i < off ∨ off + bytes.length ≤ i) : (copyAt buf off bytes)[i]? = buf[i]? := by
  have hhead : (buf.take off).length = off := by
    rw [List.length_take]
    omega
  rcases hi with hi | hi
  · rw [copyAt, List.append_assoc, List.getElem?_append_left (by omega),
      List.getElem?_take_of_lt hi]
  · rw [copyAt, List.append_assoc, List.getElem?_append_right (by omega),
      List.getElem?_append_right (by omega), List.getElem?_drop]
    congr 1
    omega

theorem copyAt_inside {off i : ℕ} {bytes : List UInt8} (h : off + bytes.length ≤ buf.length)
    (hi : i < bytes.length) : (copyAt buf off bytes)[off + i]? = bytes[i]? := by
  have hhead : (buf.take off).length = off := by
    rw [List.length_take]
    omega
  rw [copyAt, List.append_assoc, List.getElem?_append_right (by omega),
    List.getElem?_append_left (by omega)]
  congr 1
  omega

theorem cdbRead10_length (lba blocks : ℕ) : (cdbRead10 lba blocks).length = 16 := rfl

theorem readLoop_succ {fuel j : ℕ} {lba : UInt64} (hj : chunk * j < buf.length) :
    readLoop (fuel + 1) (chunk * j) lba buf =
      (scsiIn (cdbRead10 lba.toNat (share buf.length j / sectorSize)) 10
        ((buf.drop (chunk * j)).take (share buf.length j))) >>= fun part =>
        readLoop fuel (chunk * j + share buf.length j)
          (lba + UInt64.ofNat (share buf.length j / sectorSize)) (copyAt buf (chunk * j) part) := by
  have hblocks : share buf.length j / sectorSize % 2 ^ 16 = share buf.length j / sectorSize := by
    simp only [share, sectorSize, chunk]
    omega
  rw [readLoop, if_pos hj]
  simp only [share] at *
  rw [hblocks]

theorem share_part {j : ℕ} (hj : chunk * j < buf.length) :
    ((buf.drop (chunk * j)).take (share buf.length j)).length = share buf.length j ∧
      0 < share buf.length j ∧ share buf.length j ≤ frameSize ∧ chunk * j + share buf.length j ≤
        buf.length := by
  simp only [share, List.length_take, List.length_drop, chunk, sectorSize, frameSize] at *
  omega

/-- The buffer and the log after the commands from `j` on. -/
structure ReadFrom (replies : ℕ → Option Reply) (usb : Usb) (j : ℕ) (lba : UInt64)
    (buf buf' : List UInt8) (log : List Xfer) : Prop where
  length : buf'.length = buf.length
  before : ∀ i < chunk * j, buf'[i]? = buf[i]?
  command : ∀ m, chunk * (j + m) < buf.length → ∃ r tag, replies (usb.xfers + 3 * m + 1) = some r ∧
    log[3 * m]? = some (.out (cbw tag (cdbRead10 (lba + UInt64.ofNat (8 * m)).toNat
      (share buf.length (j + m) / sectorSize)) (share buf.length (j + m)) true 10)) ∧
    log[3 * m + 1]? = some (.inn (r.data.take (share buf.length (j + m)))) ∧
    ∀ i < share buf.length (j + m), buf'[chunk * (j + m) + i]? =
      if i < r.data.length then r.data[i]? else buf[chunk * (j + m) + i]?

theorem ReadFrom.step {j tag : ℕ} {lba : UInt64} {r : Reply} {usb₁ : Usb} {status buf' : List UInt8}
    {log : List Xfer} (hj : chunk * j < buf.length) (hr : replies (usb.xfers + 1) = some r)
    (hxfers : usb₁.xfers = usb.xfers + 3)
    (h : ReadFrom replies usb₁ (j + 1) (lba + UInt64.ofNat (share buf.length j / sectorSize))
      (copyAt buf (chunk * j) (fill ((buf.drop (chunk * j)).take (share buf.length j)) r.data)) buf'
        log) :
    ReadFrom replies usb j lba buf buf'
      ([.out (cbw tag (cdbRead10 lba.toNat (share buf.length j / sectorSize))
        (share buf.length j) true 10),
        .inn (r.data.take (share buf.length j)), .inn status] ++ log) := by
  obtain ⟨hpart, hpos, hle, hend⟩ := share_part hj
  have hfill := fill_length ((buf.drop (chunk * j)).take (share buf.length j)) r.data
  rw [hpart] at hfill
  have hcopy :
      (copyAt buf (chunk * j) (fill ((buf.drop (chunk * j)).take (share buf.length j))
        r.data)).length =
      buf.length := copyAt_length (by omega)
  have hnext : ∀ m, chunk * (j + (m + 1)) < buf.length → share buf.length j = chunk := by
    intro m hm
    simp only [share, chunk, sectorSize] at *
    omega
  refine ⟨h.length.trans hcopy, fun i hi => ?_, fun m hm => ?_⟩
  · rw [h.before i (by simp only [chunk, sectorSize] at *; omega)]
    exact copyAt_outside (by omega) (.inl hi)
  · cases m with
    | zero =>
      refine ⟨r, tag, hr, ?_, rfl, fun i hi => ?_⟩
      · rw [show UInt64.ofNat (8 * 0) = 0 from rfl, UInt64.add_zero]
        rfl
      · rw [Nat.add_zero] at hi ⊢
        rw [h.before _ (by simp only [chunk, sectorSize, frameSize] at *; omega),
          copyAt_inside (by omega) (by omega), fill_getElem? (by omega),
          List.getElem?_take_of_lt hi, List.getElem?_drop]
    | succ m =>
      obtain ⟨r', tag', hr', hlog, hdata, hbytes⟩ := h.command m
        (by rw [hcopy, Nat.add_assoc, Nat.add_comm 1]; exact hm)
      rw [hcopy, show j + 1 + m = j + (m + 1) by omega] at hlog hdata hbytes
      have hlba : lba + UInt64.ofNat (share buf.length j / sectorSize) + UInt64.ofNat (8 * m) =
          lba + UInt64.ofNat (8 * (m + 1)) := by
        rw [hnext m hm, UInt64.add_assoc, ← UInt64.ofNat_add]
        congr 2
        simp only [chunk, sectorSize]
        omega
      refine ⟨r', tag', ?_, ?_, ?_, fun i hi => ?_⟩
      · rw [← hr', hxfers]
        congr 1
        omega
      · rw [← hlba, ← hlog]
        rfl
      · rw [← hdata]
        rfl
      · rw [hbytes i hi, copyAt_outside (by omega) (.inr _)]
        simp only [chunk, sectorSize, frameSize] at *
        omega

theorem readLoop_out {fuel j : ℕ} (lba : UInt64) (hs : usb.slot = some s) (huse : s.Usable)
    (hfuel : buf.length ≤ chunk * j + fuel)
    (hacc : ∀ m, chunk * (j + m) < buf.length → Accepts replies (usb.xfers + 3 * m)) :
    ∃ buf' usb', (readLoop fuel (min (chunk * j) buf.length) lba buf).out replies usb =
      some (buf', usb') ∧ ReadFrom replies usb j lba buf buf'
        ((readLoop fuel (min (chunk * j) buf.length) lba buf).log replies usb) := by
  induction fuel generalizing j lba buf usb with
  | zero =>
    refine ⟨buf, usb, rfl, rfl, fun _ _ => rfl, fun m hm => ?_⟩
    simp only [chunk, sectorSize] at *
    omega
  | succ fuel ih =>
    by_cases hj : chunk * j < buf.length
    · obtain ⟨hpart, hpos, hle, hend⟩ := share_part hj
      rw [min_eq_left hj.le, readLoop_succ hj]
      obtain ⟨r, status, usb₁, hr, hout, hslot, hxfers, hlog⟩ :=
        scsiIn_out ((buf.drop (chunk * j)).take (share buf.length j)) 10 (cdbRead10_length lba.toNat
          (share buf.length j / sectorSize)) (by omega) (by omega) hs huse (hacc 0 hj)
      have hfill := fill_length ((buf.drop (chunk * j)).take (share buf.length j)) r.data
      rw [hpart] at hfill hlog
      generalize hbuf₁ :
          copyAt buf (chunk * j) (fill ((buf.drop (chunk * j)).take (share buf.length j)) r.data) =
            buf₁
      have hlen₁ : buf₁.length = buf.length := by
        rw [← hbuf₁]
        exact copyAt_length (by omega)
      have hnext : chunk * j + share buf.length j = min (chunk * (j + 1)) buf₁.length := by
        simp only [share, hlen₁, chunk, sectorSize] at *
        omega
      have hacc₁ :
          ∀ m, chunk * (j + 1 + m) < buf₁.length → Accepts replies (usb₁.xfers + 3 * m) := by
        intro m hm
        have hm' := hacc (m + 1) (by rw [← hlen₁, Nat.add_comm m, ← Nat.add_assoc]; exact hm)
        rwa [hxfers, show usb.xfers + 3 + 3 * m = usb.xfers + 3 * (m + 1) by ring]
      have hfuel₁ : buf₁.length ≤ chunk * (j + 1) + fuel := by
        simp only [hlen₁, chunk, sectorSize] at *
        omega
      obtain ⟨buf', usb', hout', hspec⟩ := ih (lba + UInt64.ofNat (share buf.length j / sectorSize))
        (hslot.trans hs) hfuel₁ hacc₁
      refine ⟨buf', usb', ?_, ?_⟩
      · simp only [Eff.out_bind, hout, Option.bind_some, hbuf₁, hnext]
        exact hout'
      · simp only [Eff.log_bind, hout, hlog, Option.elim_some, hbuf₁, hnext]
        refine ReadFrom.step hj hr hxfers ?_
        rw [hbuf₁]
        exact hspec
    · have hempty : min (chunk * j) buf.length = buf.length := min_eq_right (Nat.not_lt.mp hj)
      rw [hempty, readLoop, if_neg (Nat.lt_irrefl _)]
      refine ⟨buf, usb, rfl, rfl, fun _ _ => rfl, fun m hm => ?_⟩
      simp only [chunk, sectorSize] at *
      omega

theorem readLoop_some {fuel j : ℕ} {lba : UInt64} (hfuel : buf.length ≤ chunk * j + fuel)
    {x : List UInt8 × Usb}
    (h : (readLoop fuel (min (chunk * j) buf.length) lba buf).out replies usb = some x) :
    ∀ m, chunk * (j + m) < buf.length → (∃ s, usb.slot = some s ∧ s.Usable) ∧
    Accepts replies (usb.xfers + 3 * m) := by
  induction fuel generalizing j lba buf usb with
  | zero =>
    intro m hm
    simp only [chunk, sectorSize] at *
    omega
  | succ fuel ih =>
    intro m hm
    have hj : chunk * j < buf.length := by
      simp only [chunk, sectorSize] at *
      omega
    obtain ⟨hpart, hpos, hle, hend⟩ := share_part hj
    rw [min_eq_left hj.le, readLoop_succ hj, Eff.out_bind, Option.bind_eq_some_iff] at h
    obtain ⟨y, hy, hrest⟩ := h
    obtain ⟨⟨s, hs, huse⟩, hacc⟩ := scsiIn_some _ (cdbRead10_length _ _) (by omega) (by omega) hy
    obtain ⟨r, -, usb₁, -, hout, hslot, hxfers, -⟩ :=
      scsiIn_out ((buf.drop (chunk * j)).take (share buf.length j)) 10
      (cdbRead10_length lba.toNat (share buf.length j / sectorSize)) (by omega)
      (by omega) hs huse hacc
    obtain rfl := Option.some.inj (hout.symm.trans hy)
    cases m with
    | zero => exact ⟨⟨s, hs, huse⟩, hacc⟩
    | succ m =>
      have hfill := fill_length ((buf.drop (chunk * j)).take (share buf.length j)) r.data
      generalize hbuf₁ :
          copyAt buf (chunk * j) (fill ((buf.drop (chunk * j)).take (share buf.length j)) r.data) =
            buf₁ at hrest
      have hlen₁ : buf₁.length = buf.length := by
        rw [← hbuf₁]
        exact copyAt_length (by omega)
      have hnext : chunk * j + share buf.length j = min (chunk * (j + 1)) buf₁.length := by
        simp only [share, hlen₁, chunk, sectorSize] at *
        omega
      have hfuel₁ : buf₁.length ≤ chunk * (j + 1) + fuel := by
        simp only [hlen₁, chunk, sectorSize] at *
        omega
      have hm₁ : chunk * (j + 1 + m) < buf₁.length := by
        rw [hlen₁, Nat.add_assoc, Nat.add_comm 1]
        exact hm
      rw [hnext] at hrest
      obtain ⟨-, hacc₁⟩ := ih hfuel₁ hrest m hm₁
      rw [hxfers, show usb.xfers + 3 + 3 * m = usb.xfers + 3 * (m + 1) by ring] at hacc₁
      exact ⟨⟨s, hs, huse⟩, hacc₁⟩

end Loop

section Delivery

variable {replies : ℕ → Option Reply} {usb : Usb} {start : UInt64} {buf buf' : List UInt8}
    {log : List Xfer}

theorem readInto_out (start : UInt64) (h : ¬ Refused replies usb buf.length) :
    ∃ buf' usb', (readInto start buf).out replies usb = some (buf', usb') ∧
      ReadFrom replies usb 0 start buf buf' ((readInto start buf).log replies usb) := by
  have hlen : ¬ buf.length % sectorSize ≠ 0 := fun hodd => h (.inl hodd)
  rw [readInto, if_neg hlen]
  rcases Nat.eq_zero_or_pos buf.length with h0 | hpos
  · rw [h0]
    refine ⟨buf, usb, rfl, rfl, fun _ _ => rfl, fun m hm => ?_⟩
    omega
  · obtain ⟨s, hs, huse⟩ : ∃ s, usb.slot = some s ∧ s.Usable := by
      by_contra hslot
      exact h (.inr (.inl ⟨hpos, hslot⟩))
    have hacc : ∀ m, chunk * (0 + m) < buf.length → Accepts replies (usb.xfers + 3 * m) := by
      intro m hm
      by_contra hacc
      exact h (.inr (.inr ⟨m, Nat.zero_add m ▸ hm, hacc⟩))
    have hout := readLoop_out start hs huse (Nat.le_add_left _ _) hacc
    rwa [Nat.mul_zero, Nat.zero_min] at hout

theorem readInto_some {x : List UInt8 × Usb} (h : (readInto start buf).out replies usb = some x) :
    ¬ Refused replies usb buf.length := by
  rw [readInto] at h
  by_cases hlen : buf.length % sectorSize ≠ 0
  · rw [if_pos hlen] at h
    cases h
  · rw [if_neg hlen] at h
    rw [show 0 = min (chunk * 0) buf.length by simp] at h
    have hall := readLoop_some (by omega) h
    rintro (hodd | ⟨hpos, hslot⟩ | ⟨k, hk, hacc⟩)
    · exact hlen hodd
    · exact hslot (hall 0 hpos).1
    · exact hacc (hall k (by rwa [Nat.zero_add])).2

theorem ReadFrom.delivered_iff (h : ReadFrom replies usb 0 start buf buf' log) :
    Delivered start log buf' ↔ FullStages replies usb buf.length := by
  constructor
  · intro hdel k hk r hr
    by_contra hshort
    have hplace : chunk * k + r.data.length < buf'.length := by
      rw [h.length]
      simp only [share, chunk, sectorSize] at *
      omega
    have hin : r.data.length < chunk := by
      simp only [share] at hshort
      omega
    have hdiv : (chunk * k + r.data.length) / chunk = k := by
      rw [Nat.mul_add_div (by decide), Nat.div_eq_of_lt hin, Nat.add_zero]
    have hmod : (chunk * k + r.data.length) % chunk = r.data.length := by
      rw [Nat.mul_add_mod, Nat.mod_eq_of_lt hin]
    obtain ⟨-, sent, -, hsent, hbyte⟩ := hdel _ _ (List.getElem?_eq_getElem hplace)
    obtain ⟨r', -, hr', -, hdata, -⟩ := h.command k (by rwa [Nat.zero_add])
    obtain rfl := Option.some.inj (hr.symm.trans hr')
    rw [hdiv] at hsent
    obtain rfl := Xfer.inn.inj (Option.some.inj (hsent.symm.trans hdata))
    rw [hmod, List.getElem?_eq_none (by simp)] at hbyte
    cases hbyte
  · intro hfull i b hi
    have hlt : i < buf.length := h.length ▸ (List.getElem?_eq_some_iff.mp hi).1
    have hk : chunk * (0 + i / chunk) < buf.length := by
      rw [Nat.zero_add]
      exact (Nat.mul_div_le i chunk).trans_lt hlt
    obtain ⟨r, tag, hr, hlog, hdata, hbytes⟩ := h.command (i / chunk) hk
    rw [Nat.zero_add] at hlog hdata hbytes hk
    have hmod : i % chunk < share buf.length (i / chunk) := by
      simp only [share, chunk, sectorSize] at *
      omega
    have hwhole := hfull (i / chunk) hk r hr
    have hbyte := hbytes (i % chunk) hmod
    rw [Nat.div_add_mod, if_pos (by omega), hi] at hbyte
    refine ⟨tag, _, ?_, hdata, ?_⟩
    · rw [h.length]
      exact hlog
    · rw [List.getElem?_take_of_lt hmod, hbyte]

def emptyStick : ℕ → Option Reply := fun n =>
  match n % 3 with
  | 0 => some ⟨ccSuccess, []⟩
  | 1 => some ⟨ccShort, []⟩
  | _ => some ⟨ccSuccess, leWord cswSig ++ leWord 1 ++ leWord 512 ++ [0]⟩

def stickSlot : Slot := ⟨3, 4, true, true⟩

def freshUsb : Usb := ⟨some stickSlot, 1, fun _ => 0, 0⟩

theorem emptyStick_accepts (x : ℕ) : Accepts emptyStick (3 * x) := by
  have h₀ : emptyStick (3 * x) = some ⟨ccSuccess, []⟩ := by
    simp [emptyStick]
  have h₁ : emptyStick (3 * x + 1) = some ⟨ccShort, []⟩ := by
    simp [emptyStick]
  have h₂ :
      emptyStick (3 * x + 2) =
        some ⟨ccSuccess, leWord cswSig ++ leWord 1 ++ leWord 512 ++ [0]⟩ := by
    simp [emptyStick]
  exact ⟨⟨_, h₀, .inl rfl⟩, ⟨_, h₁, .inr rfl⟩, ⟨_, h₂, .inl rfl, by decide, by decide⟩⟩

end Delivery

end CoeleoOs.Fs.UsbMsc
