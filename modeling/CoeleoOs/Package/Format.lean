import CoeleoOs.Lib.Text
import CoeleoOs.Task.ArgvLayout

/-!
# `.coe` packages

`pack` of the host tool lays a package out and signs it, `parse` of the `pkg` library reads it.
What `parse` accepts is exactly a laid out header and payload with 64 more bytes.
-/

namespace CoeleoOs.Package
open CoeleoOs.Lib.Text
open CoeleoOs.Task (Bytes leNat leBytes leBytes_length leNat_leBytes)

-- `COE1`
def magic : Bytes := [0x43, 0x4F, 0x45, 0x31]
def nameMax : ℕ := 8
def hdr : ℕ := 21
def sigLen : ℕ := 64
def payloadMax : ℕ := 256 * 1024

structure Signature where
  bytes : Bytes
  length : bytes.length = sigLen
  deriving DecidableEq

structure Pkg where
  name : List Char
  verMajor : ℕ
  verMinor : ℕ
  payload : Bytes
  signed : Bytes
  signature : Signature
  deriving DecidableEq

inductive PkgErr
  | truncated
  | magic
  | name
  | size
  deriving DecidableEq

def isNameByte (b : UInt8) : Bool := (0x61 ≤ b && b ≤ 0x7A) || (0x30 ≤ b && b ≤ 0x39)

def field (blob : Bytes) (off len : ℕ) : Bytes := (blob.drop off).take len

def parseBody (blob : Bytes) (name : List Char) : Except PkgErr Pkg :=
  let payloadLen := leNat (field blob 17 4)
  if payloadLen = 0 ∨ payloadMax < payloadLen then .error .size
  else if blob.length ≠ hdr + payloadLen + sigLen then .error .size
  else if h : (blob.drop (hdr + payloadLen)).length = sigLen then
    .ok {
      name := name
      verMajor := leNat (field blob 13 2)
      verMinor := leNat (field blob 15 2)
      payload := field blob hdr payloadLen
      signed := blob.take (hdr + payloadLen)
      signature := ⟨blob.drop (hdr + payloadLen), h⟩ }
  else .error .size

def parse (blob : Bytes) : Except PkgErr Pkg :=
  if blob.length < hdr + sigLen then .error .truncated
  else if field blob 0 4 ≠ magic then .error .magic
  else
    let nameLen := (blob.getD 4 0).toNat
    let nameBytes := field blob 5 nameMax
    if nameLen = 0 ∨ nameMax < nameLen then .error .name
    else if (nameBytes.drop nameLen).any (· ≠ 0) then .error .name
    else
      match fromUtf8 (nameBytes.take nameLen) with
      | none => .error .name
      | some name => if (utf8 name).all isNameByte then parseBody blob name else .error .name

/-- What the packer signs. -/
def layout (name : List Char) (verMajor verMinor : ℕ) (payload : Bytes) : Bytes :=
  magic ++ ([UInt8.ofNat (utf8 name).length] ++
    ((utf8 name ++ List.replicate (nameMax - (utf8 name).length) 0) ++
    (leBytes 2 verMajor ++ (leBytes 2 verMinor ++ (leBytes 4 payload.length ++ payload)))))

def Signature.corrupt (s : Signature) : Signature :=
  ⟨s.bytes.set (sigLen - 1) (s.bytes.getD (sigLen - 1) 0 ^^^ 1),
    by rw [List.length_set]; exact s.length⟩

def pack (sign : Bytes → Signature) (name : List Char) (payload : Bytes) (corrupt : Bool) :
    Except String Bytes :=
  if utf8 name = [] ∨ nameMax < (utf8 name).length then .error "name must be 1..=8 chars"
  else if ¬(utf8 name).all isNameByte then .error "name must be [a-z0-9]"
  else if payloadMax < payload.length then .error "elf too large"
  else
    let blob := layout name 0 1 payload
    let sig := sign blob
    .ok (blob ++ (if corrupt then sig.corrupt else sig).bytes)

/-- The limits that `parse` checks. -/
structure Fits (name : List Char) (verMajor verMinor : ℕ) (payload : Bytes) : Prop where
  name_pos : utf8 name ≠ []
  name_max : (utf8 name).length ≤ nameMax
  name_bytes : (utf8 name).all isNameByte = true
  major : verMajor < 256 ^ 2
  minor : verMinor < 256 ^ 2
  payload_pos : payload ≠ []
  payload_max : payload.length ≤ payloadMax

section Fields

variable {blob a b c : Bytes} {off len : ℕ}

theorem field_mid (a c : Bytes) (ha : a.length = off) (hb : b.length = len) :
    field (a ++ (b ++ c)) off len = b := by
  subst ha hb
  rw [field, List.drop_left, List.take_left]

theorem field_length (h : off + len ≤ blob.length) : (field blob off len).length = len := by
  rw [field, List.length_take, List.length_drop]
  omega

theorem drop_field (off len : ℕ) : blob.drop off = field blob off len ++ blob.drop (off + len) := by
  rw [field, ← List.drop_drop, List.take_append_drop]

theorem leNat_lt (bytes : Bytes) : leNat bytes < 256 ^ bytes.length := by
  induction bytes with
  | nil => exact Nat.one_pos
  | cons x bytes ih =>
    have hx := x.toNat_lt
    rw [List.length_cons, Nat.pow_succ]
    change x.toNat + 256 * leNat bytes < _
    omega

theorem leBytes_leNat (bytes : Bytes) : leBytes bytes.length (leNat bytes) = bytes := by
  induction bytes with
  | nil => rfl
  | cons x bytes ih =>
    have hx := x.toNat_lt
    have hlow : UInt8.ofNat (x.toNat + 256 * leNat bytes) = x := by
      apply UInt8.toNat_inj.mp
      rw [UInt8.toNat_ofNat']
      omega
    have hhigh : (x.toNat + 256 * leNat bytes) / 256 = leNat bytes := by omega
    change UInt8.ofNat (x.toNat + 256 * leNat bytes) :: leBytes bytes.length
        ((x.toNat + 256 * leNat bytes) / 256) = _
    rw [hlow, hhigh, ih]

theorem leBytes_field {n : ℕ} (h : off + n ≤ blob.length) :
    leBytes n (leNat (field blob off n)) = field blob off n := by
  have hle := leBytes_leNat (field blob off n)
  rwa [field_length h] at hle

end Fields

section Layout

variable {name : List Char} {major minor : ℕ} {payload : Bytes}

theorem layout_length_name (hmax : (utf8 name).length ≤ nameMax) (major minor : ℕ)
    (payload : Bytes) : (layout name major minor payload).length = hdr + payload.length := by
  simp only [layout, List.length_append, List.length_replicate, leBytes_length, magic,
    List.length_cons, List.length_nil, nameMax, hdr] at hmax ⊢
  omega

theorem layout_length (h : Fits name major minor payload) :
    (layout name major minor payload).length = hdr + payload.length :=
  layout_length_name h.name_max major minor payload

theorem layout_fields (h : Fits name major minor payload) (rest : Bytes) :
    field (layout name major minor payload ++ rest) 0 4 = magic ∧
      (layout name major minor payload ++ rest).getD 4 0 = UInt8.ofNat (utf8 name).length ∧
      field (layout name major minor payload ++ rest) 5 nameMax =
        utf8 name ++ List.replicate (nameMax - (utf8 name).length) 0 ∧
      field (layout name major minor payload ++ rest) 13 2 = leBytes 2 major ∧
      field (layout name major minor payload ++ rest) 15 2 = leBytes 2 minor ∧
      field (layout name major minor payload ++ rest) 17 4 = leBytes 4 payload.length ∧
      field (layout name major minor payload ++ rest) hdr payload.length = payload := by
  have hmax := h.name_max
  obtain ⟨nf, hnf⟩ : ∃ nf, utf8 name ++ List.replicate (nameMax - (utf8 name).length) 0 = nf :=
    ⟨_, rfl⟩
  have hlen : nf.length = 8 := by
    rw [← hnf, List.length_append, List.length_replicate]
    exact Nat.add_sub_of_le hmax
  have h2 := leBytes_length 2
  have h4 := leBytes_length 4
  have hmagic : magic.length = 4 := rfl
  simp only [layout, hnf, List.append_assoc]
  refine ⟨field_mid [] _ rfl hmagic, rfl, ?_, ?_, ?_, ?_, ?_⟩
  · exact field_mid (magic ++ [_]) _ rfl hlen
  · have hoff : (magic ++ ([UInt8.ofNat (utf8 name).length] ++ nf)).length = 13 := by
      simp [hmagic, hlen]
    simpa only [List.append_assoc] using
      field_mid _ (leBytes 2 minor ++ (leBytes 4 payload.length ++ (payload ++ rest)))
        hoff (h2 major)
  · have hoff :
        (magic ++ ([UInt8.ofNat (utf8 name).length] ++ (nf ++ leBytes 2 major))).length = 15 := by
      simp [hmagic, hlen, h2]
    simpa only [List.append_assoc] using field_mid _ (leBytes 4 payload.length ++ (payload ++ rest))
      hoff (h2 minor)
  · have hoff : (magic ++ ([UInt8.ofNat (utf8 name).length] ++
        (nf ++ (leBytes 2 major ++ leBytes 2 minor)))).length = 17 := by simp [hmagic, hlen, h2]
    simpa only [List.append_assoc] using field_mid _ (payload ++ rest) hoff (h4 payload.length)
  · have hoff :
        (magic ++
          ([UInt8.ofNat (utf8 name).length] ++ (nf ++ (leBytes 2 major ++ (leBytes 2 minor ++
        leBytes 4 payload.length))))).length = hdr := by simp [hmagic, hlen, h2, h4, hdr]
    simpa only [List.append_assoc] using @field_mid payload hdr payload.length _ rest hoff rfl

end Layout

section Parse

variable {blob : Bytes} {name : List Char} {major minor : ℕ} {payload : Bytes} {p q : Pkg}

theorem parse_layout (h : Fits name major minor payload) (sig : Signature) :
    parse (layout name major minor payload ++ sig.bytes) =
      .ok ⟨name, major, minor, payload, layout name major minor payload, sig⟩ := by
  obtain ⟨hmagic, hlen, hname, hmajor, hminor, hpayload, hbody⟩ := layout_fields h sig.bytes
  have hlength := layout_length h
  have hmax := h.name_max
  have hpos := List.length_pos_iff.mpr h.name_pos
  have hmaxPayload := h.payload_max
  have hposPayload := List.length_pos_iff.mpr h.payload_pos
  have hsig := sig.length
  have htotal :
      (layout name major minor payload ++ sig.bytes).length = hdr + payload.length + sigLen := by
    rw [List.length_append, hlength, hsig]
  have hdrop :
      (layout name major minor payload ++ sig.bytes).drop (hdr + payload.length) = sig.bytes :=
    List.drop_left' hlength
  have htake : (layout name major minor payload ++ sig.bytes).take (hdr + payload.length) =
      layout name major minor payload := List.take_left' hlength
  have hcount : (UInt8.ofNat (utf8 name).length).toNat = (utf8 name).length := by
    rw [UInt8.toNat_ofNat']
    simp only [nameMax] at hmax
    omega
  have hword : leNat (leBytes 4 payload.length) = payload.length :=
    leNat_leBytes 4 _ (by simp only [payloadMax] at hmaxPayload; omega)
  have hzero : (List.replicate (nameMax - (utf8 name).length) (0 : UInt8)).any (· ≠ 0) = false := by
    rw [List.any_eq_false]
    intro x hx
    rw [(List.mem_replicate.mp hx).2]
    decide
  unfold parse
  rw [if_neg (by omega), hmagic, if_neg (not_not.mpr rfl)]
  dsimp only
  rw [hlen, hcount, hname, if_neg (by omega), List.drop_left, hzero, if_neg Bool.false_ne_true,
    List.take_left, fromUtf8_utf8]
  dsimp only
  rw [if_pos h.name_bytes, parseBody, hpayload, hword, if_neg (by omega),
    if_neg (not_not.mpr htotal)]
  rw [dif_pos (by rw [hdrop]; exact hsig), hmajor, hminor, leNat_leBytes 2 major h.major,
    leNat_leBytes 2 minor h.minor, hbody]
  simp only [hdrop, htake]

theorem layout_of_parse (h : parse blob = .ok p) :
    Fits p.name p.verMajor p.verMinor p.payload ∧
    p.signed = layout p.name p.verMajor p.verMinor p.payload ∧
    blob = p.signed ++ p.signature.bytes := by
  unfold parse at h
  split at h
  · cases h
  rename_i hlong
  split at h
  · cases h
  rename_i hmagic
  dsimp only at h
  split at h
  · cases h
  rename_i hlen
  split at h
  · cases h
  rename_i hpad
  split at h
  · cases h
  rename_i name hname
  split at h
  swap
  · cases h
  rename_i hbytes
  unfold parseBody at h
  dsimp only at h
  split at h
  · cases h
  rename_i hsize
  split at h
  · cases h
  rename_i htotal
  split at h
  swap
  · cases h
  rename_i hsig
  obtain rfl := Except.ok.inj h
  rw [not_not] at hmagic htotal
  rw [not_or, Nat.not_lt] at hlen hsize
  have hfull : hdr + leNat (field blob 17 4) ≤ blob.length := by omega
  have hheader : hdr ≤ blob.length := by omega
  simp only [hdr] at hheader
  have hname := fromUtf8_eq_some.mp hname
  have hfive : (field blob 5 nameMax).length = nameMax :=
    field_length (by simp only [nameMax]; omega)
  have hnameLen : (utf8 name).length = (blob.getD 4 0).toNat := by
    rw [← hname, List.length_take, hfive]
    omega
  have hfield :
      field blob 5 nameMax = utf8 name ++ List.replicate (nameMax - (utf8 name).length) 0 := by
    have hrest : (field blob 5 nameMax).drop (blob.getD 4 0).toNat =
        List.replicate (nameMax - (utf8 name).length) 0 := by
      rw [List.eq_replicate_iff, List.length_drop, hfive, hnameLen]
      refine ⟨rfl, fun b hb => ?_⟩
      have hzero := List.any_eq_false.mp (eq_false_of_ne_true hpad) b hb
      simpa using hzero
    rw [← List.take_append_drop (blob.getD 4 0).toNat (field blob 5 nameMax), hname, hrest]
  have hcount : field blob 4 1 = [UInt8.ofNat (utf8 name).length] := by
    have hin : 4 < blob.length := by omega
    rw [hnameLen, field, List.drop_eq_getElem_cons hin, List.take_succ_cons, List.take_zero,
      List.getD_eq_getElem _ _ hin, UInt8.ofNat_toNat]
  have hbody : (field blob hdr (leNat (field blob 17 4))).length = leNat (field blob 17 4) :=
    field_length (by omega)
  have hword : ∀ off n, off + n ≤ hdr → leNat (field blob off n) < 256 ^ n := by
    intro off n hoff
    have hlt := leNat_lt (field blob off n)
    rwa [field_length (by simp only [hdr] at hoff; omega)] at hlt
  have hfits :
      Fits name (leNat (field blob 13 2)) (leNat (field blob 15 2))
        (field blob hdr (leNat (field blob 17 4))) := by
    refine ⟨?_, by omega, hbytes, hword 13 2 (by decide), hword 15 2 (by decide), ?_, by omega⟩
    · exact List.length_pos_iff.mp (by omega)
    · exact List.length_pos_iff.mp (by omega)
  have hsplit : blob = layout name (leNat (field blob 13 2)) (leNat (field blob 15 2))
      (field blob hdr (leNat (field blob 17 4))) ++ blob.drop (hdr + leNat (field blob 17 4)) := by
    calc blob = blob.drop 0 := rfl
      _ = field blob 0 4 ++
        (field blob 4 1 ++ (field blob 5 nameMax ++ (field blob 13 2 ++ (field blob 15 2 ++
          (field blob 17 4 ++ (field blob hdr (leNat (field blob 17 4)) ++
            blob.drop (hdr + leNat (field blob 17 4)))))))) := by
        rw [drop_field 0 4, drop_field (0 + 4) 1, drop_field (0 + 4 + 1) nameMax,
          drop_field (0 + 4 + 1 + nameMax) 2, drop_field (0 + 4 + 1 + nameMax + 2) 2,
          drop_field (0 + 4 + 1 + nameMax + 2 + 2) 4, drop_field (0 + 4 + 1 + nameMax + 2 + 2 + 4)
            (leNat (field blob 17 4))]
        rfl
      _ = _ := by
        rw [hmagic, hcount, hfield, layout, hbody, leBytes_field (by omega),
          leBytes_field (by omega), leBytes_field (by omega)]
        simp only [List.append_assoc]
  have hsigned : blob.take (hdr + leNat (field blob 17 4)) = layout name (leNat (field blob 13 2))
      (leNat (field blob 15 2)) (field blob hdr (leNat (field blob 17 4))) := by
    have hlen := layout_length hfits
    rw [hbody] at hlen
    have htake := congrArg (List.take (hdr + leNat (field blob 17 4))) hsplit
    rwa [List.take_left' hlen] at htake
  exact ⟨hfits, hsigned, (List.take_append_drop _ _).symm⟩

theorem parse_eq_ok_iff : parse blob = .ok p ↔
    Fits p.name p.verMajor p.verMinor p.payload ∧
    p.signed = layout p.name p.verMajor p.verMinor p.payload ∧
    blob = p.signed ++ p.signature.bytes := by
  constructor
  · exact layout_of_parse
  · rintro ⟨hfits, hsigned, rfl⟩
    obtain ⟨name, major, minor, payload, signed, sig⟩ := p
    dsimp only at hfits hsigned ⊢
    rw [hsigned]
    exact parse_layout hfits sig

theorem parse_signed_inj {blob' : Bytes} (hp : parse blob = .ok p) (hq : parse blob' = .ok q)
    (h : p.signed = q.signed) : { p with signature := q.signature } = q := by
  obtain ⟨hfits, hsigned, -⟩ := layout_of_parse hp
  obtain ⟨-, -, rfl⟩ := layout_of_parse hq
  have hsame : parse (q.signed ++ q.signature.bytes) = .ok { p with signature := q.signature } := by
    rw [← h]
    exact parse_eq_ok_iff.mpr ⟨hfits, hsigned, rfl⟩
  exact Except.ok.inj (hsame.symm.trans hq)

theorem parse_begins (hfits : Fits name major minor payload) (sig : Signature)
    (hp : parse blob = .ok p) (h : blob <+: layout name major minor payload ++ sig.bytes) :
    blob = layout name major minor payload ++ sig.bytes := by
  obtain ⟨hfits', hsigned, hblob⟩ := layout_of_parse hp
  obtain ⟨rest, hrest⟩ := h
  have hmax := hfits.payload_max
  have hmax' := hfits'.payload_max
  have hfield : leBytes 4 p.payload.length = leBytes 4 payload.length := by
    obtain ⟨-, -, -, -, -, hlen, -⟩ := layout_fields hfits sig.bytes
    obtain ⟨-, -, -, -, -, hlen', -⟩ := layout_fields hfits' (p.signature.bytes ++ rest)
    rw [← hlen', ← hlen, ← hrest, hblob, hsigned, List.append_assoc]
  have hsame : p.payload.length = payload.length := by
    have hnat := congrArg leNat hfield
    rwa [leNat_leBytes 4 _ (by simp only [payloadMax] at hmax'; omega),
      leNat_leBytes 4 _ (by simp only [payloadMax] at hmax; omega)] at hnat
  have hlen := congrArg List.length hrest
  have hlenBlob := congrArg List.length hblob
  rw [List.length_append, hsigned, layout_length hfits', p.signature.length, hsame] at hlenBlob
  rw [List.length_append, List.length_append, layout_length hfits, sig.length, hlenBlob] at hlen
  rw [← hrest, List.length_eq_zero_iff.mp (by omega : rest.length = 0), List.append_nil]

end Parse

section Pack

variable {sign : Bytes → Signature} {name : List Char} {payload blob : Bytes} {corrupt : Bool}

theorem pack_eq_ok_iff : pack sign name payload corrupt = .ok blob ↔
    (utf8 name ≠ [] ∧ (utf8 name).length ≤ nameMax) ∧ (utf8 name).all isNameByte = true ∧
      payload.length ≤ payloadMax ∧ blob = layout name 0 1 payload ++
        (if corrupt then (sign (layout name 0 1 payload)).corrupt
          else sign (layout name 0 1 payload)).bytes := by
  unfold pack
  by_cases hname : utf8 name = [] ∨ nameMax < (utf8 name).length
  · rw [if_pos hname]
    refine iff_of_false nofun ?_
    rintro ⟨⟨hpos, hmax⟩, -⟩
    exact hname.elim hpos fun h => absurd h (Nat.not_lt.mpr hmax)
  rw [if_neg hname]
  rw [not_or, Nat.not_lt] at hname
  rw [and_iff_right hname]
  by_cases hbytes : (utf8 name).all isNameByte
  swap
  · rw [if_pos hbytes]
    exact iff_of_false nofun fun h => hbytes h.1
  rw [if_neg (not_not.mpr hbytes), and_iff_right hbytes]
  by_cases hlarge : payloadMax < payload.length
  · rw [if_pos hlarge]
    exact iff_of_false nofun fun h => absurd hlarge (Nat.not_lt.mpr h.1)
  rw [if_neg hlarge, and_iff_right (Nat.not_lt.mp hlarge)]
  dsimp only
  rw [Except.ok.injEq, eq_comm]

theorem parse_pack (h : pack sign name payload corrupt = .ok blob) (hne : payload ≠ []) :
    parse blob = .ok ⟨name, 0, 1, payload, layout name 0 1 payload,
      if corrupt then (sign (layout name 0 1 payload)).corrupt
        else sign (layout name 0 1 payload)⟩ := by
  obtain ⟨⟨hpos, hmax⟩, hbytes, hlarge, rfl⟩ := pack_eq_ok_iff.mp h
  exact parse_layout ⟨hpos, hmax, hbytes, by decide, by decide, hne, hlarge⟩ _

/-- The packer takes an empty payload, the parser does not. -/
theorem package_format : (∀ blob, pack sign name payload corrupt = .ok blob →
      ((∃ p, parse blob = .ok p ∧ p.name = name ∧ p.payload = payload ∧
        p.signed = blob.take (blob.length - sigLen)) ↔ payload ≠ [])) ∧
    (∀ blob p, parse blob = .ok p → layout p.name p.verMajor p.verMinor p.payload ++
      p.signature.bytes = blob) ∧
    ∀ blob blob' p q, parse blob = .ok p → parse blob' = .ok q → p.signed = q.signed →
      (p.name, p.verMajor, p.verMinor, p.payload) = (q.name, q.verMajor, q.verMinor,
        q.payload) := by
  refine ⟨fun blob hpack => ?_, fun blob p hp => ?_, fun blob blob' p q hp hq hsigned => ?_⟩
  · constructor
    · rintro ⟨p, hp, -, rfl, -⟩
      exact (layout_of_parse hp).1.payload_pos
    · intro hne
      have hp := parse_pack hpack hne
      refine ⟨_, hp, rfl, rfl, ?_⟩
      obtain ⟨-, -, hblob⟩ := layout_of_parse hp
      have hlen := congrArg List.length hblob
      rw [List.length_append, Signature.length] at hlen
      rw [hlen, Nat.add_sub_cancel]
      conv_rhs => rw [hblob]
      exact List.take_left.symm
  · obtain ⟨-, hsigned, hblob⟩ := layout_of_parse hp
    rw [← hsigned, ← hblob]
  · have heq := parse_signed_inj hp hq hsigned
    rw [← heq]

def zeroSignature : Signature := ⟨List.replicate sigLen 0, List.length_replicate⟩

theorem empty_package : pack (fun _ => zeroSignature) ['a'] [] false =
      .ok (layout ['a'] 0 1 [] ++ zeroSignature.bytes) ∧
    parse (layout ['a'] 0 1 [] ++ zeroSignature.bytes) = .error .size := by
  decide

end Pack

end CoeleoOs.Package
