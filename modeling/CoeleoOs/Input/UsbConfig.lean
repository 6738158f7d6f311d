import CoeleoOs.Lib.RecordChain

/-!
# Walking a USB configuration

Three drivers look for their interface in the chain of descriptors that a device gives as its
configuration. `parse_hid` starts anew at each interface descriptor; `parse_msc` and
`parse_mouse` take the number of the last one and keep the endpoints they have found before.
-/

namespace CoeleoOs.Input
open CoeleoOs.Lib.RecordChain

def u16le (lo hi : UInt8) : ℕ := lo.toNat + 256 * hi.toNat

structure HidIf where
  iface : UInt16
  proto : UInt8
  ep : UInt8
  maxpkt : ℕ
  deriving DecidableEq

structure HidScan where
  out : List HidIf
  want : Bool
  iface : UInt16
  proto : UInt8
  ep : UInt8
  maxpkt : ℕ

def HidScan.flush (s : HidScan) : List HidIf :=
  if s.want ∧ s.ep ≠ 0 ∧ s.out.length < 2 then s.out ++ [⟨s.iface, s.proto, s.ep, s.maxpkt⟩]
    else s.out

def hidRecord (cfg : List UInt8) (total : ℕ) (s : HidScan) (i len : ℕ) : Option HidScan := do
  let ty ← byteAt cfg total (i + 1)
  if ty = 4 ∧ 9 ≤ len then
    let iface ← byteAt cfg total (i + 2)
    let cls ← byteAt cfg total (i + 5)
    let sub ← byteAt cfg total (i + 6)
    let proto ← byteAt cfg total (i + 7)
    some ⟨s.flush, cls = 3 && sub = 1 && (proto = 1 || proto = 2), iface.toUInt16, proto, 0, 8⟩
  else if ty = 5 ∧ s.want ∧ 7 ≤ len then
    let addr ← byteAt cfg total (i + 2)
    let attr ← byteAt cfg total (i + 3)
    if attr &&& 3 = 3 ∧ addr &&& 0x80 ≠ 0 ∧ s.ep = 0 then
      let lo ← byteAt cfg total (i + 4)
      let hi ← byteAt cfg total (i + 5)
      some { s with ep := addr, maxpkt := max (u16le lo hi) 8 }
    else some s
  else some s

def parseHid (cfg : List UInt8) (total : ℕ) : Option (List HidIf) :=
  (scan cfg total (hidRecord cfg total) (total + 1) 9 ⟨[], false, 0, 0, 0, 8⟩).map HidScan.flush

structure MscIf where
  iface : UInt16
  value : UInt16
  epOut : UInt8
  epIn : UInt8
  maxOut : ℕ
  maxIn : ℕ
  deriving DecidableEq

structure MscScan where
  iface : UInt16
  want : Bool
  epOut : UInt8
  epIn : UInt8
  maxOut : ℕ
  maxIn : ℕ

def mscInit : MscScan := ⟨0, false, 0, 0, 64, 64⟩

def mscRecord (cfg : List UInt8) (total : ℕ) (s : MscScan) (i len : ℕ) : Option MscScan := do
  let ty ← byteAt cfg total (i + 1)
  if ty = 4 ∧ 9 ≤ len then
    let cls ← byteAt cfg total (i + 5)
    let sub ← byteAt cfg total (i + 6)
    let proto ← byteAt cfg total (i + 7)
    let iface ← byteAt cfg total (i + 2)
    some { s with want := cls = 8 && sub = 6 && proto = 0x50, iface := iface.toUInt16 }
  else if ty = 5 ∧ s.want ∧ 7 ≤ len then
    let addr ← byteAt cfg total (i + 2)
    let attr ← byteAt cfg total (i + 3)
    let lo ← byteAt cfg total (i + 4)
    let hi ← byteAt cfg total (i + 5)
    if attr &&& 3 = 2 then
      if addr &&& 0x80 ≠ 0 then some { s with epIn := addr, maxIn := u16le lo hi }
      else some { s with epOut := addr, maxOut := u16le lo hi }
    else some s
  else some s

def MscScan.result (s : MscScan) (value : UInt8) : Option MscIf :=
  if s.epOut = 0 ∨ s.epIn = 0 then none
  else some ⟨s.iface, value.toUInt16, s.epOut, s.epIn, s.maxOut, s.maxIn⟩

def parseMsc (cfg : List UInt8) : Option (Option MscIf) := do
  let lo ← byteAt cfg 256 2
  let hi ← byteAt cfg 256 3
  let total := min (u16le lo hi) 256
  let value ← byteAt cfg 256 5
  let s ← scan cfg total (mscRecord cfg total) (total + 1) 9 mscInit
  some (s.result value)

structure MouseIf where
  iface : UInt8
  ep : UInt8
  maxpkt : ℕ
  deriving DecidableEq

structure MouseScan where
  iface : UInt8
  isMouse : Bool
  ep : Option UInt8
  maxpkt : ℕ

def mouseInit : MouseScan := ⟨0, false, none, 4⟩

def mouseRecord (cfg : List UInt8) (s : MouseScan) (i len : ℕ) : Option MouseScan := do
  let ty ← byteAt cfg cfg.length (i + 1)
  if ty = 4 ∧ 9 ≤ len then
    let iface ← byteAt cfg cfg.length (i + 2)
    let cls ← byteAt cfg cfg.length (i + 5)
    let sub ← byteAt cfg cfg.length (i + 6)
    let proto ← byteAt cfg cfg.length (i + 7)
    some { s with iface := iface, isMouse := cls = 3 && sub = 1 && proto = 2 }
  else if ty = 5 ∧ 7 ≤ len ∧ s.isMouse then
    let addr ← byteAt cfg cfg.length (i + 2)
    let attr ← byteAt cfg cfg.length (i + 3)
    if addr &&& 0x80 ≠ 0 ∧ attr &&& 3 = 3 then
      let lo ← byteAt cfg cfg.length (i + 4)
      let hi ← byteAt cfg cfg.length (i + 5)
      some { s with ep := some (addr &&& 0x0F), maxpkt := min (max (u16le lo hi) 3) 8 }
    else some s
  else some s

def parseMouse (cfg : List UInt8) : Option (Option MouseIf) :=
  (scan cfg cfg.length (mouseRecord cfg) (cfg.length + 1) 0 mouseInit).map fun s =>
    s.ep.map fun ep => ⟨s.iface, ep, s.maxpkt⟩

section Descriptors

abbrev Record := List UInt8

def isInterface (r : Record) : Bool := byte r 1 = 4 && 9 ≤ r.length

def isEndpoint (r : Record) : Bool := byte r 1 = 5 && 7 ≤ r.length

def number (r : Record) : UInt8 := byte r 2

def protocol (r : Record) : UInt8 := byte r 7

def bootHid (r : Record) : Bool :=
  byte r 5 = 3 && byte r 6 = 1 && (protocol r = 1 || protocol r = 2)

def massStorage (r : Record) : Bool := byte r 5 = 8 && byte r 6 = 6 && protocol r = 0x50

def bootMouse (r : Record) : Bool := byte r 5 = 3 && byte r 6 = 1 && protocol r = 2

def address (r : Record) : UInt8 := byte r 2

def packetSize (r : Record) : ℕ := u16le (byte r 4) (byte r 5)

def serves (type : UInt8) (inward : Bool) (r : Record) : Bool :=
  isEndpoint r && byte r 3 &&& 3 = type && (decide (address r &&& 0x80 ≠ 0) == inward)

abbrev interruptIn : Record → Bool := serves 3 true
abbrev bulkIn : Record → Bool := serves 2 true
abbrev bulkOut : Record → Bool := serves 2 false

/-- An interface of the keyboard or mouse class, and an endpoint of it with this address and
size. -/
def HidIf.Attributed (recs : List Record) (h : HidIf) : Prop :=
  ∃ sec ∈ sections isInterface recs, bootHid sec.1 = true ∧ (number sec.1).toUInt16 = h.iface ∧
    protocol sec.1 = h.proto ∧ ∃ e ∈ sec.2, interruptIn e = true ∧ address e = h.ep ∧
    packetSize e = h.maxpkt

def MscIf.Attributed (recs : List Record) (m : MscIf) : Prop :=
  ∃ sec ∈ sections isInterface recs, massStorage sec.1 = true ∧ (number sec.1).toUInt16 = m.iface ∧
    (∃ e ∈ sec.2, bulkOut e = true ∧ address e = m.epOut ∧ packetSize e = m.maxOut) ∧
    ∃ e ∈ sec.2, bulkIn e = true ∧ address e = m.epIn ∧ packetSize e = m.maxIn

def MouseIf.Attributed (recs : List Record) (m : MouseIf) : Prop :=
  ∃ sec ∈ sections isInterface recs, bootMouse sec.1 = true ∧ number sec.1 = m.iface ∧
    ∃ e ∈ sec.2, interruptIn e = true ∧ address e &&& 0x0F = m.ep ∧ packetSize e = m.maxpkt

end Descriptors

section Records

variable {cfg : List UInt8} {total i len : ℕ} {recs : List Record}

def HidScan.next (s : HidScan) (r : Record) : HidScan :=
  if isInterface r then ⟨s.flush, bootHid r, (number r).toUInt16, protocol r, 0, 8⟩
  else if s.want && interruptIn r && s.ep = 0
    then { s with ep := address r, maxpkt := max (packetSize r) 8 }
  else s

def MscScan.next (s : MscScan) (r : Record) : MscScan :=
  if isInterface r then { s with want := massStorage r, iface := (number r).toUInt16 }
  else if s.want && bulkIn r then { s with epIn := address r, maxIn := packetSize r }
  else if s.want && bulkOut r then { s with epOut := address r, maxOut := packetSize r }
  else s

def MouseScan.next (s : MouseScan) (r : Record) : MouseScan :=
  if isInterface r then { s with iface := number r, isMouse := bootMouse r }
  else if s.isMouse && interruptIn r then
    { s with ep := some (address r &&& 0x0F), maxpkt := min (max (packetSize r) 3) 8 }
  else s

theorem isEndpoint_eq_true (r : Record) : isEndpoint r = true ↔ byte r 1 = 5 ∧ 7 ≤ r.length := by
  simp [isEndpoint]

theorem isInterface_eq_true (r : Record) : isInterface r = true ↔ byte r 1 = 4 ∧ 9 ≤ r.length := by
  simp [isInterface]

theorem serves_eq_true (type : UInt8) (r : Record) : serves type true r = true ↔
    isEndpoint r = true ∧ byte r 3 &&& 3 = type ∧ address r &&& 0x80 ≠ 0 := by
  simp [serves, and_assoc]

theorem serves_out_eq_true (type : UInt8) (r : Record) : serves type false r = true ↔
    isEndpoint r = true ∧ byte r 3 &&& 3 = type ∧ address r &&& 0x80 = 0 := by
  simp [serves, and_assoc]

theorem hidRecord_eq (hlen : total ≤ cfg.length) (s : HidScan) (i len : ℕ) (h2 : 2 ≤ len)
    (hrec : i + len ≤ total) :
    hidRecord cfg total s i len = some (s.next ((cfg.drop i).take len)) := by
  obtain ⟨r, hr, rfl, hread⟩ := exists_record hlen hrec
  rw [hr, hidRecord, hread 1 h2, HidScan.next]
  simp only [Option.bind_eq_bind, Option.bind_some, isInterface_eq_true, Bool.and_eq_true,
    serves_eq_true, isEndpoint_eq_true, decide_eq_true_eq]
  by_cases h4 : byte r 1 = 4 ∧ 9 ≤ r.length
  · simp only [if_pos h4, hread 2 (by omega), hread 5 (by omega), hread 6 (by omega),
      hread 7 (by omega), Option.bind_some]
    rfl
  · rw [if_neg h4, if_neg h4]
    by_cases h5 : byte r 1 = 5 ∧ s.want = true ∧ 7 ≤ r.length
    · simp only [if_pos h5, hread 2 (by omega), hread 3 (by omega), hread 4 (by omega),
        hread 5 (by omega), Option.bind_some]
      simp only [h5, address, packetSize, true_and, ← apply_ite some, and_assoc]
    · rw [if_neg h5, if_neg fun h => h5 ⟨h.1.2.1.1, h.1.1, h.1.2.1.2⟩]

theorem mscRecord_eq (hlen : total ≤ cfg.length) (s : MscScan) (i len : ℕ) (h2 : 2 ≤ len)
    (hrec : i + len ≤ total) :
    mscRecord cfg total s i len = some (s.next ((cfg.drop i).take len)) := by
  obtain ⟨r, hr, rfl, hread⟩ := exists_record hlen hrec
  rw [hr, mscRecord, hread 1 h2, MscScan.next]
  simp only [Option.bind_eq_bind, Option.bind_some, isInterface_eq_true, Bool.and_eq_true,
    serves_eq_true, serves_out_eq_true, isEndpoint_eq_true]
  by_cases h4 : byte r 1 = 4 ∧ 9 ≤ r.length
  · simp only [if_pos h4, hread 2 (by omega), hread 5 (by omega), hread 6 (by omega),
      hread 7 (by omega), Option.bind_some]
    rfl
  · rw [if_neg h4, if_neg h4]
    by_cases h5 : byte r 1 = 5 ∧ s.want = true ∧ 7 ≤ r.length
    · simp only [if_pos h5, hread 2 (by omega), hread 3 (by omega), hread 4 (by omega),
        hread 5 (by omega), Option.bind_some]
      by_cases hbulk : byte r 3 &&& 3 = 2
      · by_cases hin : byte r 2 &&& 0x80 = 0 <;> simp [h5, hbulk, hin, address, packetSize]
      · simp [h5, hbulk]
    · rw [if_neg h5, if_neg fun h => h5 ⟨h.2.1.1, h.1, h.2.1.2⟩,
        if_neg fun h => h5 ⟨h.2.1.1, h.1, h.2.1.2⟩]

theorem mouseRecord_eq (s : MouseScan) (i len : ℕ) (h2 : 2 ≤ len) (hrec : i + len ≤ cfg.length) :
    mouseRecord cfg s i len = some (s.next ((cfg.drop i).take len)) := by
  obtain ⟨r, hr, rfl, hread⟩ := exists_record le_rfl hrec
  rw [hr, mouseRecord, hread 1 h2, MouseScan.next]
  simp only [Option.bind_eq_bind, Option.bind_some, isInterface_eq_true, Bool.and_eq_true,
    serves_eq_true, isEndpoint_eq_true]
  by_cases h4 : byte r 1 = 4 ∧ 9 ≤ r.length
  · simp only [if_pos h4, hread 2 (by omega), hread 5 (by omega), hread 6 (by omega),
      hread 7 (by omega), Option.bind_some]
    rfl
  · rw [if_neg h4, if_neg h4]
    by_cases h5 : byte r 1 = 5 ∧ 7 ≤ r.length ∧ s.isMouse = true
    · simp only [if_pos h5, hread 2 (by omega), hread 3 (by omega), hread 4 (by omega),
        hread 5 (by omega), Option.bind_some]
      by_cases hin : byte r 2 &&& 0x80 = 0 <;> simp [h5, hin, address, packetSize, ← apply_ite some]
    · rw [if_neg h5, if_neg fun h => h5 ⟨h.2.1.1, h.2.1.2, h.1⟩]

end Records

section Hid

variable {recs : List Record}

def HidIf.of (p : Record × Record) : HidIf :=
  ⟨(number p.1).toUInt16, protocol p.1, address p.2, max (packetSize p.2) 8⟩

def hidPick (sec : Record × List Record) : Option (Record × Record) :=
  if bootHid sec.1 then (sec.2.find? interruptIn).map fun e => (sec.1, e) else none

def hidPicks (recs : List Record) : List (Record × Record) :=
  (sections isInterface recs).filterMap hidPick

def HidScan.pending (s : HidScan) (rs : List Record) : Option HidIf :=
  if s.want then
    if s.ep = 0 then
      ((rs.takeWhile fun r => !isInterface r).find? interruptIn).map fun e =>
        ⟨s.iface, s.proto, address e, max (packetSize e) 8⟩
    else some ⟨s.iface, s.proto, s.ep, s.maxpkt⟩
  else none

theorem take_append_take {α : Type} (n : ℕ) (xs ys : List α) :
    (xs.take n ++ ys).take n = (xs ++ ys).take n := by
  rw [List.take_append, List.take_append, List.take_take, List.length_take, min_self]
  congr 2
  omega

theorem flush_eq {s : HidScan} (hout : s.out.length ≤ 2) :
    s.flush = (s.out ++ (s.pending []).toList).take 2 := by
  rw [HidScan.flush, HidScan.pending]
  cases hwant : s.want with
  | false => simp [List.take_of_length_le hout]
  | true =>
    by_cases hep : s.ep = 0
    · simp [hep, List.take_of_length_le hout]
    · by_cases hroom : s.out.length < 2
      · simp [hep, hroom, List.take_append, List.take_of_length_le hout]
        omega
      · have hfull : s.out.length = 2 := by omega
        simp [hep, hfull]

theorem flush_length {s : HidScan} (hout : s.out.length ≤ 2) : s.flush.length ≤ 2 := by
  rw [flush_eq hout]
  exact List.length_take_le ..

theorem pending_next {s : HidScan} {r : Record} (rs : List Record) (hr : isInterface r = false) :
    (s.next r).out = s.out ∧ (s.next r).pending rs = s.pending (r :: rs) := by
  have hne : interruptIn r = true → address r ≠ 0 := by
    intro h hz
    exact ((serves_eq_true 3 r).mp h).2.2 (by rw [hz]; rfl)
  rw [HidScan.next, HidScan.pending, HidScan.pending, hr, List.takeWhile_cons, hr,
    if_neg Bool.false_ne_true]
  cases hwant : s.want with
  | false => simp [hwant]
  | true =>
    by_cases hep : s.ep = 0
    · cases hin : interruptIn r with
      | true => simp [hep, hin, hne hin]
      | false => simp [hwant, hep, hin]
    · simp [hwant, hep]

theorem flush_foldl (rs : List Record) {s : HidScan} (hout : s.out.length ≤ 2) :
    (rs.foldl HidScan.next s).flush =
      (s.out ++ (s.pending rs).toList ++ (hidPicks rs).map HidIf.of).take 2 := by
  induction rs generalizing s with
  | nil =>
    rw [List.foldl_nil, flush_eq hout, hidPicks, sections, List.filterMap_nil, List.map_nil,
      List.append_nil]
  | cons r rs ih =>
    rw [List.foldl_cons]
    cases hr : isInterface r with
    | false =>
      obtain ⟨hnext, hpend⟩ := pending_next (s := s) rs hr
      rw [ih (hnext ▸ hout), hnext, hpend, hidPicks, hidPicks, sections, hr]
      rfl
    | true =>
      have hnext : s.next r = ⟨s.flush, bootHid r, (number r).toUInt16, protocol r, 0, 8⟩ := by
        rw [HidScan.next, if_pos hr]
      have hpick : (hidPicks (r :: rs)).map HidIf.of = ((s.next r).pending rs).toList ++
          (hidPicks rs).map HidIf.of := by
        rw [hidPicks, sections, if_pos hr, List.filterMap_cons, hidPick, hnext, HidScan.pending]
        cases bootHid r with
        | false => rfl
        | true =>
          cases (rs.takeWhile fun r => !isInterface r).find? interruptIn <;> rfl
      have hclosed : s.pending (r :: rs) = s.pending [] := by
        rw [HidScan.pending, HidScan.pending, List.takeWhile_cons, hr]
        rfl
      rw [ih (by rw [hnext]; exact flush_length hout), hpick, hclosed, hnext, flush_eq hout,
        List.append_assoc, take_append_take]

theorem mem_hidPicks {p : Record × Record} (h : p ∈ hidPicks recs) :
    ∃ sec ∈ sections isInterface recs, bootHid sec.1 = true ∧ sec.1 = p.1 ∧ p.2 ∈ sec.2 ∧
    interruptIn p.2 = true := by
  obtain ⟨sec, hsec, hpick⟩ := List.mem_filterMap.mp h
  rw [hidPick] at hpick
  split at hpick
  · next hboot =>
    obtain ⟨e, he, rfl⟩ := Option.map_eq_some_iff.mp hpick
    exact ⟨sec, hsec, hboot, rfl, List.mem_of_find?_eq_some he, List.find?_some he⟩
  · cases hpick

theorem of_attributed_iff {p : Record × Record} (h : p ∈ hidPicks recs) :
    (HidIf.of p).Attributed recs ↔ 8 ≤ packetSize p.2 ∨
    HidIf.Attributed recs ⟨(number p.1).toUInt16, protocol p.1, address p.2, 8⟩ := by
  obtain ⟨sec, hsec, hboot, hp, hmem, hin⟩ := mem_hidPicks h
  by_cases hsize : 8 ≤ packetSize p.2
  · have hown : (HidIf.of p).Attributed recs := by
      refine ⟨sec, hsec, hboot, ?_, ?_, p.2, hmem, hin, rfl, (max_eq_left hsize).symm⟩
      · rw [hp]
        rfl
      · rw [hp]
        rfl
    exact ⟨fun _ => .inl hsize, fun _ => hown⟩
  · rw [HidIf.of, max_eq_right (by omega)]
    exact ⟨.inr, fun h => h.resolve_left hsize⟩

end Hid

section Last

variable {recs : List Record}

def lastNumber (recs : List Record) : UInt8 :=
  ((recs.filter isInterface).getLast?.map number).getD 0

def lastUnder (cls kind : Record → Bool) (recs : List Record) : Option Record :=
  ((under isInterface cls false recs).filter kind).getLast?

theorem foldl_lastUnder {σ τ : Type} {g : σ → Record → σ} {want : σ → Bool} {val : σ → τ}
    {cls kind : Record → Bool} {v : Record → τ} (hopen : ∀ s r, isInterface r = true →
      want (g s r) = cls r ∧ val (g s r) = val s) (hrec : ∀ s r, isInterface r = false →
      want (g s r) = want s ∧ val (g s r) = if want s then if kind r then v r else val s else val s)
    {s : σ} (hs : want s = false) :
      val (recs.foldl g s) = ((lastUnder cls kind recs).map v).getD (val s) := by
  have hfold :=
    @foldl_under _ _ _ isInterface cls g want val (fun t r => if kind r then v r
      else t) hopen hrec recs s
  have hlast := @foldl_last _ _ _ (fun t r => if kind r then v r else t) id kind v (fun _ _ => rfl)
    (under isInterface cls (want s) recs) (val s)
  rw [hfold, hs] at *
  exact hlast

theorem msc_next_open (s : MscScan) {r : Record} (hr : isInterface r = true) :
    s.next r = { s with want := massStorage r, iface := (number r).toUInt16 } := by
  rw [MscScan.next, if_pos hr]

theorem bulk_excl {r : Record} (h : bulkIn r = true) : bulkOut r = false := by
  have hin := ((serves_eq_true 2 r).mp h).2.2
  rw [Bool.eq_false_iff]
  intro hout
  exact hin ((serves_out_eq_true 2 r).mp hout).2.2

theorem msc_next_record (s : MscScan) {r : Record} (hr : isInterface r = false) :
    (s.next r).want = s.want ∧ (s.next r).iface = s.iface ∧
    ((s.next r).epIn, (s.next r).maxIn) =
      (if s.want then if bulkIn r then (address r, packetSize r) else (s.epIn, s.maxIn)
        else (s.epIn, s.maxIn)) ∧
    ((s.next r).epOut, (s.next r).maxOut) =
      (if s.want then if bulkOut r then (address r, packetSize r) else (s.epOut, s.maxOut)
        else (s.epOut, s.maxOut)) := by
  rw [MscScan.next, hr, if_neg Bool.false_ne_true]
  cases hwant : s.want with
  | false => simp [hwant]
  | true =>
    cases hin : bulkIn r with
    | true => simp [bulk_excl hin]
    | false => cases hout : bulkOut r <;> simp [hwant]

theorem msc_epIn (recs : List Record) :
    ((recs.foldl MscScan.next mscInit).epIn, (recs.foldl MscScan.next mscInit).maxIn) =
    ((lastUnder massStorage bulkIn recs).map fun e => (address e, packetSize e)).getD (0, 64) := by
  refine @foldl_lastUnder recs _ _ MscScan.next MscScan.want (fun s => (s.epIn, s.maxIn))
    massStorage bulkIn (fun e => (address e, packetSize e)) ?_ ?_ mscInit rfl
  · intro s r hr
    rw [msc_next_open s hr]
    exact ⟨rfl, rfl⟩
  · intro s r hr
    exact ⟨(msc_next_record s hr).1, (msc_next_record s hr).2.2.1⟩

theorem msc_epOut (recs : List Record) :
    ((recs.foldl MscScan.next mscInit).epOut, (recs.foldl MscScan.next mscInit).maxOut) =
    ((lastUnder massStorage bulkOut recs).map fun e => (address e, packetSize e)).getD (0, 64) := by
  refine @foldl_lastUnder recs _ _ MscScan.next MscScan.want (fun s => (s.epOut, s.maxOut))
    massStorage bulkOut (fun e => (address e, packetSize e)) ?_ ?_ mscInit rfl
  · intro s r hr
    rw [msc_next_open s hr]
    exact ⟨rfl, rfl⟩
  · intro s r hr
    exact ⟨(msc_next_record s hr).1, (msc_next_record s hr).2.2.2⟩

theorem msc_iface (recs : List Record) :
    (recs.foldl MscScan.next mscInit).iface = (lastNumber recs).toUInt16 := by
  have hlast :=
    @foldl_last _ _ _ MscScan.next MscScan.iface isInterface (fun r => (number r).toUInt16) ?_
      recs mscInit
  · rw [hlast, lastNumber]
    cases (recs.filter isInterface).getLast? <;> rfl
  · intro s r
    cases hr : isInterface r with
    | true => rw [msc_next_open s hr, if_pos rfl]
    | false => exact (msc_next_record s hr).2.1

theorem mouse_next (s : MouseScan) (r : Record) :
    (s.next r).iface = (if isInterface r then number r else s.iface) ∧
    (s.next r).isMouse = (if isInterface r then bootMouse r else s.isMouse) ∧
    ((s.next r).ep, (s.next r).maxpkt) = if isInterface r then (s.ep, s.maxpkt) else
      if s.isMouse then
        if interruptIn r then (some (address r &&& 0x0F), min (max (packetSize r) 3) 8)
          else (s.ep, s.maxpkt)
      else (s.ep, s.maxpkt) := by
  rw [MouseScan.next]
  cases isInterface r with
  | true => exact ⟨rfl, rfl, rfl⟩
  | false => cases hm : s.isMouse <;> cases interruptIn r <;> simp [hm]

theorem mouse_ep (recs : List Record) :
    ((recs.foldl MouseScan.next mouseInit).ep, (recs.foldl MouseScan.next mouseInit).maxpkt) =
    ((lastUnder bootMouse interruptIn recs).map fun e =>
      (some (address e &&& 0x0F), min (max (packetSize e) 3) 8)).getD (none, 4) := by
  refine @foldl_lastUnder recs _ _ MouseScan.next MouseScan.isMouse (fun s => (s.ep, s.maxpkt))
    bootMouse interruptIn (fun e => (some (address e &&& 0x0F), min (max (packetSize e) 3) 8)) ?_ ?_
      mouseInit rfl
  · intro s r hr
    obtain ⟨-, hwant, hval⟩ := mouse_next s r
    rw [hr] at hwant hval
    exact ⟨hwant, hval⟩
  · intro s r hr
    obtain ⟨-, hwant, hval⟩ := mouse_next s r
    rw [hr] at hwant hval
    exact ⟨hwant, hval⟩

theorem mouse_iface (recs : List Record) :
    (recs.foldl MouseScan.next mouseInit).iface = lastNumber recs := by
  have hlast :=
    @foldl_last _ _ _ MouseScan.next MouseScan.iface isInterface number
      (fun s r => (mouse_next s r).1) recs mouseInit
  rw [hlast, lastNumber]
  rfl

end Last

/-- The descriptors of a configuration that lie from `start` on within the first `total` bytes. -/
def descriptors (cfg : List UInt8) (start total : ℕ) : List Record :=
  chain ((cfg.take total).drop start)

section Results

variable {cfg : List UInt8} {total : ℕ} {recs : List Record}

theorem parseHid_eq (hlen : total ≤ cfg.length) :
    parseHid cfg total = some (((hidPicks (descriptors cfg 9 total)).map HidIf.of).take 2) := by
  rw [parseHid, scan_eq hlen (hidRecord_eq hlen) total 9 _ (by omega), Option.map_some, descriptors,
    flush_foldl _ (by decide)]
  rfl

theorem address_bulkIn {a : Record} (h : lastUnder massStorage bulkIn recs = some a) :
    address a ≠ 0 := by
  have hin := (List.mem_filter.mp (List.mem_of_getLast? h)).2
  intro hz
  exact ((serves_eq_true 2 a).mp hin).2.2 (by rw [hz]; rfl)

def mscOf (recs : List Record) (value : UInt8) (b a : Record) : MscIf :=
  ⟨(lastNumber recs).toUInt16, value.toUInt16, address b, address a, packetSize b, packetSize a⟩

theorem msc_result (recs : List Record) (value : UInt8) (m : MscIf) :
    (recs.foldl MscScan.next mscInit).result value = some m ↔
      ∃ a b, lastUnder massStorage bulkIn recs = some a ∧
      lastUnder massStorage bulkOut recs = some b ∧ address b ≠ 0 ∧ m = mscOf recs value b a := by
  have hin := msc_epIn recs
  have hout := msc_epOut recs
  have hiface := msc_iface recs
  generalize recs.foldl MscScan.next mscInit = s at *
  cases ha : lastUnder massStorage bulkIn recs with
  | none =>
    rw [ha] at hin
    simp [MscScan.result, (Prod.mk.inj hin).1]
  | some a =>
    rw [ha] at hin
    obtain ⟨hepIn, hmaxIn⟩ := Prod.mk.inj hin
    cases hb : lastUnder massStorage bulkOut recs with
    | none =>
      rw [hb] at hout
      simp [MscScan.result, (Prod.mk.inj hout).1]
    | some b =>
      rw [hb] at hout
      obtain ⟨hepOut, hmaxOut⟩ := Prod.mk.inj hout
      rw [MscScan.result, hepIn, hmaxIn, hepOut, hmaxOut, hiface]
      by_cases hz : address b = 0
      · simp [hz]
      · rw [if_neg (not_or.mpr ⟨hz, address_bulkIn ha⟩)]
        constructor
        · intro h
          exact ⟨a, b, rfl, rfl, hz, (Option.some.inj h).symm⟩
        · rintro ⟨a', b', ha', hb', -, rfl⟩
          rw [Option.some.inj ha', Option.some.inj hb', mscOf]

theorem parseMsc_eq (hlen : cfg.length = 256) : parseMsc cfg =
    some (((descriptors cfg 9 (min (u16le (byte cfg 2) (byte cfg 3)) 256)).foldl MscScan.next
      mscInit).result (byte cfg 5)) := by
  have hread : ∀ j, j < 256 → byteAt cfg 256 j = some (byte cfg j) := by
    intro j hj
    have hrec := @byteAt_record cfg 256 0 256 j hlen.ge (by omega) hj
    rwa [Nat.zero_add, List.drop_zero, List.take_of_length_le hlen.le] at hrec
  have htotal : min (u16le (byte cfg 2) (byte cfg 3)) 256 ≤ cfg.length := hlen ▸ min_le_right ..
  rw [parseMsc, hread 2 (by decide), hread 3 (by decide), hread 5 (by decide)]
  simp only [Option.bind_eq_bind, Option.bind_some]
  rw [scan_eq htotal (mscRecord_eq htotal) _ 9 _ (by omega), Option.bind_some]
  rfl

theorem parseMouse_eq (cfg : List UInt8) : parseMouse cfg =
    some ((lastUnder bootMouse interruptIn (descriptors cfg 0 cfg.length)).map fun e =>
      ⟨lastNumber (descriptors cfg 0 cfg.length), address e &&& 0x0F,
        min (max (packetSize e) 3) 8⟩) := by
  rw [parseMouse, scan_eq le_rfl (@mouseRecord_eq cfg) _ 0 _ (by omega), Option.map_some]
  have hep := mouse_ep (descriptors cfg 0 cfg.length)
  have hiface := mouse_iface (descriptors cfg 0 cfg.length)
  rw [← descriptors]
  generalize descriptors cfg 0 cfg.length = recs at *
  rw [hiface]
  cases h : lastUnder bootMouse interruptIn recs with
  | none =>
    rw [h] at hep
    rw [(Prod.mk.inj hep).1]
    rfl
  | some e =>
    rw [h] at hep
    rw [(Prod.mk.inj hep).1, (Prod.mk.inj hep).2]
    rfl

/-- No endpoint that is kept is smaller than the driver makes it. -/
def HidKept (recs : List Record) : Prop := ∀ p ∈ (hidPicks recs).take 2, 8 ≤ packetSize p.2 ∨
  HidIf.Attributed recs ⟨(number p.1).toUInt16, protocol p.1, address p.2, 8⟩

/-- One disk interface with the number of the last interface has bulk endpoints like the last ones
that stand under any disk interface. -/
def MscKept (recs : List Record) : Prop :=
  ∀ a b, lastUnder massStorage bulkIn recs = some a → lastUnder massStorage bulkOut recs = some b →
    address b ≠ 0 → ∃ sec ∈ sections isInterface recs, massStorage sec.1 = true ∧
    number sec.1 = lastNumber recs ∧ (∃ e ∈ sec.2, bulkOut e = true ∧ address e = address b ∧
      packetSize e = packetSize b) ∧ ∃ e ∈ sec.2, bulkIn e = true ∧ address e = address a ∧
      packetSize e = packetSize a

/-- One mouse with the number of the last interface has an endpoint like the last one that stands
under any mouse, of a size between 3 and 8 that the driver leaves as it is. -/
def MouseKept (recs : List Record) : Prop :=
  ∀ a, lastUnder bootMouse interruptIn recs = some a →
    ∃ sec ∈ sections isInterface recs, bootMouse sec.1 = true ∧ number sec.1 = lastNumber recs ∧
      ∃ e ∈ sec.2, interruptIn e = true ∧ address e &&& 0x0F = address a &&& 0x0F ∧
        packetSize e = min (max (packetSize a) 3) 8

theorem hid_attributed_iff (recs : List Record) :
    (∀ h ∈ ((hidPicks recs).map HidIf.of).take 2, h.Attributed recs) ↔ HidKept recs := by
  rw [← List.map_take, List.forall_mem_map]
  exact forall₂_congr fun p hp => of_attributed_iff (List.mem_of_mem_take hp)

theorem msc_attributed_iff (recs : List Record) (value : UInt8) :
    (∀ m ∈ (recs.foldl MscScan.next mscInit).result value, m.Attributed recs) ↔ MscKept recs := by
  simp only [Option.mem_def, msc_result, MscKept]
  constructor
  · intro h a b ha hb hz
    have hm := h _ ⟨a, b, ha, hb, hz, rfl⟩
    simpa [MscIf.Attributed, mscOf, UInt8.toUInt16_inj] using hm
  · rintro h m ⟨a, b, ha, hb, hz, rfl⟩
    simpa [MscIf.Attributed, mscOf, UInt8.toUInt16_inj] using h a b ha hb hz

theorem mouse_attributed_iff (recs : List Record) :
    (∀ m ∈ (lastUnder bootMouse interruptIn recs).map fun e =>
      (⟨lastNumber recs, address e &&& 0x0F, min (max (packetSize e) 3) 8⟩ : MouseIf),
        m.Attributed recs) ↔
      MouseKept recs := by
  rw [MouseKept]
  cases lastUnder bootMouse interruptIn recs with
  | none => simp
  | some a => simp [MouseIf.Attributed]

end Results

/-- The walks end, read nothing outside, and give interfaces with endpoints of their own exactly
under these conditions. -/
theorem walkers_attribute_iff (cfg : List UInt8) (hlen : cfg.length = 256) (total : ℕ)
    (htotal : total ≤ 256) : (∃ out, parseHid cfg total = some out ∧
      ((∀ h ∈ out, h.Attributed (descriptors cfg 9 total)) ↔ HidKept (descriptors cfg 9 total))) ∧
    (∃ out, parseMsc cfg = some out ∧
      ((∀ m ∈ out, m.Attributed (descriptors cfg 9 (min (u16le (byte cfg 2) (byte cfg 3)) 256))) ↔
        MscKept (descriptors cfg 9 (min (u16le (byte cfg 2) (byte cfg 3)) 256)))) ∧
    ∃ out, parseMouse (cfg.take total) = some out ∧
      ((∀ m ∈ out, m.Attributed (descriptors cfg 0 total)) ↔
        MouseKept (descriptors cfg 0 total)) := by
  have hfit : total ≤ cfg.length := hlen ▸ htotal
  refine ⟨⟨_, parseHid_eq hfit, hid_attributed_iff _⟩,
    ⟨_, parseMsc_eq hlen, msc_attributed_iff _ _⟩, ?_⟩
  have hslice :
      descriptors (cfg.take total) 0 (cfg.take total).length = descriptors cfg 0 total := by
    rw [descriptors, List.take_length, descriptors]
  refine ⟨_, parseMouse_eq _, ?_⟩
  rw [hslice]
  exact mouse_attributed_iff _

def composite : List UInt8 := [9, 2, 59, 0, 2, 1, 0, 160, 50] ++
  [9, 4, 0, 0, 1, 3, 1, 2, 0] ++ [9, 33, 17, 1, 0, 1, 34, 52, 0] ++ [7, 5, 129, 3, 8, 0, 10] ++
  [9, 4, 1, 0, 1, 3, 1, 1, 0] ++ [9, 33, 17, 1, 0, 1, 34, 63, 0] ++ [7, 5, 130, 3, 8, 0, 10] ++
    List.replicate 197 0

theorem composite_length : composite.length = 256 := by
  simp only [composite, List.length_append, List.length_replicate, List.length_cons,
    List.length_nil]

theorem composite_walked :
    (∃ out, parseHid composite 59 = some out ∧
      ((∀ h ∈ out, h.Attributed (descriptors composite 9 59)) ↔
        HidKept (descriptors composite 9 59))) ∧
    (∃ out, parseMsc composite = some out ∧
      ((∀ m ∈ out, m.Attributed
        (descriptors composite 9 (min (u16le (byte composite 2) (byte composite 3)) 256))) ↔
        MscKept (descriptors composite 9
          (min (u16le (byte composite 2) (byte composite 3)) 256)))) ∧
    ∃ out, parseMouse (composite.take 59) = some out ∧
      ((∀ m ∈ out, m.Attributed (descriptors composite 0 59)) ↔
        MouseKept (descriptors composite 0 59)) :=
  walkers_attribute_iff composite composite_length 59 (by decide)

theorem composite_sections : sections isInterface (descriptors composite 0 59) =
    [([9, 4, 0, 0, 1, 3, 1, 2, 0], [[9, 33, 17, 1, 0, 1, 34, 52, 0], [7, 5, 129, 3, 8, 0, 10]]),
      ([9, 4, 1, 0, 1, 3, 1, 1, 0],
        [[9, 33, 17, 1, 0, 1, 34, 63, 0], [7, 5, 130, 3, 8, 0, 10]])] := by
  have hchain :
      descriptors composite 0 59 = [[9, 2, 59, 0, 2, 1, 0, 160, 50], [9, 4, 0, 0, 1, 3, 1, 2, 0],
      [9, 33, 17, 1, 0, 1, 34, 52, 0], [7, 5, 129, 3, 8, 0, 10], [9, 4, 1, 0, 1, 3, 1, 1, 0],
      [9, 33, 17, 1, 0, 1, 34, 63, 0], [7, 5, 130, 3, 8, 0, 10]] := by
    simp [descriptors, composite, chain]
  rw [hchain]
  decide

/-- The mouse is given the number of the keyboard. -/
theorem mouse_gets_keyboard_number : ∃ m, parseMouse (composite.take 59) = some (some m) ∧
    ¬m.Attributed (descriptors composite 0 59) := by
  refine ⟨⟨1, 1, 8⟩, by decide, ?_⟩
  rw [MouseIf.Attributed, composite_sections]
  decide

end CoeleoOs.Input
