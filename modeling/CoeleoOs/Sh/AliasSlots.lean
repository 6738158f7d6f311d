import CoeleoOs.Lib.InPlace
import CoeleoOs.Lib.Slot
import CoeleoOs.Sh.Dispatch

/-!
# The slots of the alias table

The shell keeps its aliases in sixteen slots of fixed size, which a longer or shorter value writes
over and a removal moves up. The slots hold the table of `Sh.Dispatch`, and that table is a finite
map.
-/

namespace CoeleoOs.Sh
open CoeleoOs.Lib CoeleoOs.Lib.Text

structure AliasSlot where
  name : Slot UInt8 nameCap
  val : Slot UInt8 valueCap

structure AliasSlots where
  items : List AliasSlot
  count : ℕ
  size : items.length = maxAliases
  count_le : count ≤ maxAliases

inductive AliasCall
  | set (name val : List Char)
  | get (name : List Char)
  | remove (name : List Char)

inductive AliasAnswer
  | done (ok : Bool)
  | value (v : Option (List Char))
  deriving DecidableEq

namespace AliasSlots

def empty : AliasSlots where
  items := List.replicate maxAliases ⟨.filled nameCap 0, .filled valueCap 0⟩
  count := 0
  size := List.length_replicate
  count_le := Nat.zero_le _

variable (t : AliasSlots)

def find (nb : List UInt8) : Option ℕ := (t.items.take t.count).findIdx? fun s => s.name.text = nb

def set (name val : List Char) : Bool × AliasSlots :=
  if h : utf8 name ≠ [] ∧ (utf8 name).length ≤ nameCap ∧ (utf8 val).length ≤ valueCap then
    match t.find (utf8 name) with
    | some i =>
      (true, { t with
        items := t.items.modify i fun s => { s with val := s.val.store (utf8 val) h.2.2 }
        size := (List.length_modify _ _ _).trans t.size })
    | none =>
      if hc : t.count < maxAliases then
        (true, {
          items :=
        t.items.modify t.count fun s =>
          ⟨s.name.store (utf8 name) h.2.1, s.val.store (utf8 val) h.2.2⟩
          count := t.count + 1
          size := (List.length_modify _ _ _).trans t.size
          count_le := hc })
      else (false, t)
  else (false, t)

def get (name : List Char) : Option (List Char) :=
  match t.find (utf8 name) with
  | some i => t.items[i]?.bind fun s => fromUtf8 s.val.text
  | none => none

def remove (name : List Char) : Option (Bool × AliasSlots) :=
  match t.find (utf8 name) with
  | none => some (false, t)
  | some i =>
    match h : InPlace.copyUp t.items i (i + 1) (t.count - 1 - i) with
    | none => none
    | some items => some (true, {
        items := items
        count := t.count - 1
        size := (InPlace.copyUp_length h).trans t.size
        count_le := (Nat.sub_le _ _).trans t.count_le })

def call (t : AliasSlots) : AliasCall → Option (AliasAnswer × AliasSlots)
  | .set name val => some (.done (t.set name val).1, (t.set name val).2)
  | .get name => some (.value (t.get name), t)
  | .remove name => (t.remove name).map fun r => (.done r.1, r.2)

def run (t : AliasSlots) : List AliasCall → Option (List (AliasCall × AliasAnswer) × AliasSlots)
  | [] => some ([], t)
  | c :: cs => (t.call c).bind fun r => (r.2.run cs).map fun rest => ((c, r.1) :: rest.1, rest.2)

end AliasSlots

def AliasSlot.entry (s : AliasSlot) : List UInt8 × List UInt8 := (s.name.text, s.val.text)

def Alias.entry (a : Alias) : List UInt8 × List UInt8 := (utf8 a.name, utf8 a.val)

def AliasSlots.entries (t : AliasSlots) : List (List UInt8 × List UInt8) :=
  (t.items.take t.count).map AliasSlot.entry

def AliasSlots.Holds (t : AliasSlots) (table : AliasTable) : Prop :=
  t.entries = table.items.map Alias.entry

def boundStep (name : List Char) (v : Option (List Char)) :
    AliasCall × AliasAnswer → Option (List Char)
  | (.set n val, .done true) => if n = name then some val else v
  | (.remove n, _) => if n = name then none else v
  | _ => v

/-- The value of the latest successful `set` of a name that no `remove` of it follows. -/
def bound (log : List (AliasCall × AliasAnswer)) (name : List Char) : Option (List Char) :=
  log.foldl (boundStep name) none

/-- The names in the used slots. -/
def AliasSlots.names (t : AliasSlots) : List (List UInt8) := t.entries.map Prod.fst

theorem utf8_inj {s t : List Char} : utf8 s = utf8 t ↔ s = t := by
  refine ⟨fun h => ?_, congrArg utf8⟩
  have hs := fromUtf8_utf8 s
  rw [h, fromUtf8_utf8] at hs
  exact (Option.some.inj hs).symm

namespace AliasSlots

variable {t t' : AliasSlots} {table : AliasTable} {name val : List Char}

theorem find_some {nb : List UInt8} {i : ℕ} (h : t.find nb = some i) :
    ∃ before s behind, t.items = before ++ s :: behind ++ t.items.drop t.count ∧ before.length = i ∧
      t.count = i + 1 + behind.length ∧ s.name.text = nb ∧ ∀ x ∈ before, x.name.text ≠ nb := by
  obtain ⟨hi, hname, hbefore⟩ := List.findIdx?_eq_some_iff_getElem.mp h
  have hsplit := List.take_append_drop i (t.items.take t.count)
  rw [List.drop_eq_getElem_cons hi] at hsplit
  have hlen : (t.items.take t.count).length = t.count := by
    rw [List.length_take, t.size, min_eq_left t.count_le]
  refine ⟨(t.items.take t.count).take i, (t.items.take t.count)[i],
    (t.items.take t.count).drop (i + 1), ?_, ?_, ?_, of_decide_eq_true hname, ?_⟩
  · rw [hsplit, List.take_append_drop]
  · rw [List.length_take, min_eq_left hi.le]
  · rw [List.length_drop, hlen]
    omega
  · intro x hx
    obtain ⟨j, hj, rfl⟩ := List.getElem_of_mem hx
    rw [List.length_take, Nat.lt_min] at hj
    rw [List.getElem_take]
    simpa using hbefore j hj.1

theorem find_none {nb : List UInt8} (h : t.find nb = none) : ∀ x ∈ t.entries, x.1 ≠ nb := by
  intro x hx
  obtain ⟨s, hs, rfl⟩ := List.mem_map.mp hx
  simpa [AliasSlot.entry] using List.findIdx?_eq_none_iff.mp h s hs

theorem entries_eq {before behind rest : List AliasSlot} {s : AliasSlot}
    (hitems : t.items = before ++ s :: behind ++ rest)
    (hcount : t.count = before.length + 1 + behind.length) :
    t.entries = before.map AliasSlot.entry ++ s.entry :: behind.map AliasSlot.entry := by
  have hlen : t.count = (before ++ s :: behind).length := by
    rw [hcount, List.length_append, List.length_cons]
    omega
  rw [entries, hitems, hlen, List.take_left, List.map_append, List.map_cons]

theorem entries_length (t : AliasSlots) : t.entries.length = t.count := by
  rw [entries, List.length_map, List.length_take, t.size, min_eq_left t.count_le]

theorem Holds.split (h : t.Holds table) {before behind : List (List UInt8 × List UInt8)}
    {e : List UInt8 × List UInt8} (he : t.entries = before ++ e :: behind) :
    ∃ as a bs, table.items = as ++ a :: bs ∧ as.map Alias.entry = before ∧ a.entry = e ∧
    bs.map Alias.entry = behind := by
  obtain ⟨as, rest, hitems, has, hrest⟩ := List.map_eq_append_iff.mp (h.symm.trans he)
  obtain ⟨a, bs, rfl, ha, hbs⟩ := List.map_eq_cons_iff.mp hrest
  exact ⟨as, a, bs, hitems, has, ha, hbs⟩

end AliasSlots

namespace AliasTable

variable {table : AliasTable} {name val : List Char} {as bs : List Alias} {a b : Alias}

theorem overwrite_split (hb : b.name = a.name) (has : ∀ x ∈ as, x.name ≠ a.name) :
    overwrite a (as ++ b :: bs) = as ++ a :: bs := by
  induction as with
  | nil => exact if_pos hb
  | cons x as ih =>
    rw [List.cons_append, overwrite, if_neg (has x List.mem_cons_self),
      ih fun y hy => has y (List.mem_cons_of_mem x hy), List.cons_append]

theorem get_split (hitems : table.items = as ++ a :: bs) (has : ∀ x ∈ as, x.name ≠ a.name) :
    table.get a.name = some a.val := by
  have hnone : as.find? (fun x => x.name = a.name) = none := by simpa using has
  rw [get, hitems, List.find?_append, hnone, Option.none_or, List.find?_cons_of_pos (by simp)]
  rfl

theorem eraseP_split (has : ∀ x ∈ as, x.name ≠ a.name) :
    (as ++ a :: bs).eraseP (fun b => b.name = a.name) = as ++ bs := by
  rw [List.eraseP_append_right _ (by simpa using has), List.eraseP_cons_of_pos (by simp)]

theorem get_eq_none : table.get name = none ↔ ∀ x ∈ table.items, x.name ≠ name := by
  simp [get]

def Distinct (table : AliasTable) : Prop := (table.items.map Alias.name).Nodup

theorem Distinct.split (h : table.Distinct) (hitems : table.items = as ++ a :: bs) :
    (∀ x ∈ as, x.name ≠ a.name) ∧ ∀ x ∈ bs, x.name ≠ a.name := by
  rw [Distinct, hitems, List.map_append, List.map_cons, List.nodup_append, List.nodup_cons] at h
  obtain ⟨-, ⟨hbs, -⟩, hdis⟩ := h
  constructor
  · intro x hx
    exact hdis x.name (List.mem_map_of_mem hx) a.name List.mem_cons_self
  · intro x hx heq
    exact hbs (heq ▸ List.mem_map_of_mem hx)

theorem get_around (hitems : table.items = as ++ a :: bs) (hne : name ≠ a.name) :
    table.get name = ((as ++ bs).find? fun x => x.name = name).map Alias.val := by
  rw [get, hitems, List.find?_append, List.find?_append,
    List.find?_cons_of_neg (by simpa using hne.symm)]

end AliasTable

namespace AliasSlots

variable {t t' : AliasSlots} {table : AliasTable} {name val : List Char}

theorem Holds.names (h : t.Holds table) : t.names = table.items.map fun a => utf8 a.name := by
  rw [AliasSlots.names, h, List.map_map]
  rfl

theorem Holds.count (h : t.Holds table) : t.count = table.items.length := by
  rw [← entries_length, h, List.length_map]

theorem Holds.mem_names (h : t.Holds table) : utf8 name ∈ t.names ↔ table.get name ≠ none := by
  rw [h.names, List.mem_map, Ne, AliasTable.get_eq_none]
  simp only [utf8_inj, ne_eq, not_forall, not_not]
  constructor
  · rintro ⟨a, ha, hname⟩
    exact ⟨a, ha, hname⟩
  · rintro ⟨a, ha, hname⟩
    exact ⟨a, ha, hname⟩

theorem Holds.find_none (h : t.Holds table) (hfind : t.find (utf8 name) = none) :
    table.get name = none := by
  refine AliasTable.get_eq_none.mpr fun a ha heq => ?_
  refine AliasSlots.find_none hfind a.entry ?_ (congrArg utf8 heq)
  rw [h]
  exact List.mem_map_of_mem ha

theorem Holds.find_some (h : t.Holds table) {i : ℕ} (hfind : t.find (utf8 name) = some i) :
    ∃ before s behind as a bs, t.items = before ++ s :: behind ++ t.items.drop t.count ∧
    before.length = i ∧ t.count = i + 1 + behind.length ∧ table.items = as ++ a :: bs ∧
      as.map Alias.entry = before.map AliasSlot.entry ∧ a.entry = s.entry ∧
      bs.map Alias.entry = behind.map AliasSlot.entry ∧ a.name = name ∧
      ∀ x ∈ as, x.name ≠ name := by
  obtain ⟨before, s, behind, hitems, hlen, hcount, hname, hbefore⟩ := AliasSlots.find_some hfind
  have hentries := entries_eq hitems (by rw [hcount, hlen])
  obtain ⟨as, a, bs, htable, has, ha, hbs⟩ := h.split hentries
  refine ⟨before, s, behind, as, a, bs, hitems, hlen, hcount, htable, has, ha, hbs, ?_, ?_⟩
  · exact utf8_inj.mp ((congrArg Prod.fst ha).trans hname)
  · intro x hx heq
    obtain ⟨y, hy, hxy⟩ :=
      List.mem_map.mp (has ▸ List.mem_map_of_mem hx : x.entry ∈ before.map AliasSlot.entry)
    exact hbefore y hy ((congrArg Prod.fst hxy).trans (congrArg utf8 heq))

theorem Holds.get (h : t.Holds table) (name : List Char) : t.get name = table.get name := by
  rw [AliasSlots.get]
  cases hfind : t.find (utf8 name) with
  | none => exact (h.find_none hfind).symm
  | some i =>
    obtain ⟨before, s, behind, as, a, bs, hitems, rfl, -, htable, -, ha, -, rfl, has⟩ :=
      h.find_some hfind
    have hslot : t.items[before.length]? = some s := by
      rw [hitems, List.append_assoc, List.getElem?_append_right le_rfl, Nat.sub_self]
      rfl
    have hval : s.val.text = utf8 a.val := (congrArg Prod.snd ha).symm
    rw [AliasTable.get_split htable has]
    dsimp only
    rw [hslot, Option.bind_some, hval, fromUtf8_utf8]

theorem modify_split {α : Type*} (before behind : List α) (x : α) (f : α → α) :
    (before ++ x :: behind).modify before.length f = before ++ f x :: behind := by
  induction before with
  | nil => exact List.modify_zero_cons f x behind
  | cons y before ih =>
    rw [List.cons_append, List.length_cons, List.modify_succ_cons, ih, List.cons_append]

theorem Holds.overwrite (h : t.Holds table) {i : ℕ} {a : Alias}
    (hfind : t.find (utf8 a.name) = some i) (hval : (utf8 a.val).length ≤ valueCap) :
    ((t.items.modify i fun s => { s with val := s.val.store (utf8 a.val) hval }).take t.count).map
      AliasSlot.entry = (AliasTable.overwrite a table.items).map Alias.entry := by
  obtain ⟨before, s, behind, as, b, bs, hitems, rfl, hcount, htable, has, hb, hbs, hname,
      hbefore⟩ := h.find_some hfind
  have hmod :
      (t.items.modify before.length fun s => { s with val := s.val.store (utf8 a.val) hval }) =
      before ++ { s with val := s.val.store (utf8 a.val) hval } :: behind ++
        t.items.drop t.count := by
    conv_lhs => rw [hitems]
    rw [List.append_assoc, List.cons_append, modify_split, List.append_assoc, List.cons_append]
  have hlen :
      t.count = (before ++ { s with val := s.val.store (utf8 a.val) hval } :: behind).length := by
    rw [hcount, List.length_append, List.length_cons]
    omega
  have hentry : AliasSlot.entry { s with val := s.val.store (utf8 a.val) hval } = a.entry := by
    have hslot : s.name.text = utf8 a.name :=
      (congrArg Prod.fst hb).symm.trans (congrArg utf8 hname)
    rw [AliasSlot.entry, Alias.entry, Slot.text_store, hslot]
  rw [hmod, htable, AliasTable.overwrite_split hname hbefore, List.map_append, List.map_cons, has,
    hbs, ← hentry]
  conv_lhs => rw [hlen, List.take_left]
  rw [List.map_append, List.map_cons]

theorem Holds.append (h : t.Holds table) (a : Alias) (hcount : t.count < t.items.length) :
    ((t.items.modify t.count fun s => ⟨s.name.store (utf8 a.name) a.nameFits,
      s.val.store (utf8 a.val) a.valFits⟩).take (t.count + 1)).map AliasSlot.entry =
        (table.items ++ [a]).map Alias.entry := by
  have hsplit :
      t.items.take t.count ++ t.items[t.count] :: t.items.drop (t.count + 1) = t.items := by
    rw [← List.drop_eq_getElem_cons hcount, List.take_append_drop]
  have hlen : (t.items.take t.count).length = t.count := by
    rw [List.length_take, min_eq_left hcount.le]
  have hmod :=
    modify_split (t.items.take t.count) (t.items.drop (t.count + 1)) t.items[t.count] fun s =>
    (⟨s.name.store (utf8 a.name) a.nameFits, s.val.store (utf8 a.val) a.valFits⟩ : AliasSlot)
  rw [hsplit, hlen] at hmod
  have htake : ∀ s rest, (t.items.take t.count ++ s :: rest).take (t.count + 1) =
      t.items.take t.count ++ [s] := by
    intro s rest
    rw [List.append_cons, List.take_left' (by rw [List.length_append, hlen, List.length_singleton])]
  rw [hmod, htake, List.map_append, List.map_append, ← h, entries]
  simp [AliasSlot.entry, Alias.entry, Slot.text_store]

theorem Holds.set (h : t.Holds table) (name val : List Char) :
    match table.set name val with
    | some table' => (t.set name val).1 = true ∧ (t.set name val).2.Holds table'
    | none => t.set name val = (false, t) := by
  unfold AliasSlots.set AliasTable.set
  by_cases hfit : name ≠ [] ∧ (utf8 name).length ≤ nameCap ∧ (utf8 val).length ≤ valueCap
  swap
  · have hbytes :
        ¬(utf8 name ≠ [] ∧ (utf8 name).length ≤ nameCap ∧ (utf8 val).length ≤ valueCap) := by
      rwa [ne_eq, utf8_eq_nil]
    rw [dif_neg hfit, dif_neg hbytes]
  have hbytes : utf8 name ≠ [] ∧ (utf8 name).length ≤ nameCap ∧ (utf8 val).length ≤ valueCap := by
    rwa [ne_eq, utf8_eq_nil]
  rw [dif_pos hfit, dif_pos hbytes]
  cases hfind : t.find (utf8 name) with
  | some i =>
    have hany : (table.items.any fun b => b.name = name) = true := by
      obtain ⟨_, _, _, as, a, bs, -, -, -, htable, -, -, -, rfl, -⟩ := h.find_some hfind
      rw [htable]
      simp
    dsimp only
    rw [if_pos hany]
    exact ⟨rfl, h.overwrite (a := ⟨name, val, hfit.1, hfit.2.1, hfit.2.2⟩) hfind hfit.2.2⟩
  | none =>
    have hget := AliasTable.get_eq_none.mp (h.find_none hfind)
    dsimp only
    rw [if_neg (by simpa using hget)]
    by_cases hfew : t.count < maxAliases
    · rw [dif_pos hfew, dif_pos (h.count ▸ hfew)]
      exact ⟨rfl, h.append ⟨name, val, hfit.1, hfit.2.1, hfit.2.2⟩ (t.size ▸ hfew)⟩
    · rw [dif_neg hfew, dif_neg (h.count ▸ hfew)]

theorem copyUp_slots {before behind : List AliasSlot} {s : AliasSlot}
    (hitems : t.items = before ++ s :: behind ++ t.items.drop t.count)
    (hcount : t.count = before.length + 1 + behind.length) :
    ∃ rest, InPlace.copyUp t.items before.length (before.length + 1) (t.count - 1 - before.length) =
      some (before ++ behind ++ rest) := by
  have hlen : before.length + 1 + (t.count - 1 - before.length) ≤ t.items.length := by
    rw [t.size]
    have := t.count_le
    omega
  have hk : t.count - 1 - before.length = behind.length := by omega
  have hdrop : t.items.drop (before.length + 1) = behind ++ t.items.drop t.count := by
    conv_lhs => rw [hitems]
    simp
  have htake : t.items.take before.length = before := by
    rw [hitems, List.append_assoc, List.take_left]
  refine ⟨t.items.drop (before.length + behind.length), ?_⟩
  rw [InPlace.copyUp_eq (Nat.le_succ _) hlen, Lib.overwrite, hdrop, hk, List.take_left, htake]

theorem Holds.remove (h : t.Holds table) (name : List Char) :
    ∃ ok t', t.remove name = some (ok, t') ∧ t'.Holds (table.remove name) ∧
    (ok = false → t' = t) := by
  unfold AliasSlots.remove
  split
  · rename_i hfind
    have hget := AliasTable.get_eq_none.mp (h.find_none hfind)
    have hsame : table.items.eraseP (fun b => b.name = name) = table.items :=
      List.eraseP_of_forall_not (by simpa using hget)
    exact ⟨false, t, rfl, h.trans (congrArg (List.map Alias.entry) hsame.symm), fun _ => rfl⟩
  · rename_i i hfind
    obtain ⟨before, s, behind, as, a, bs, hitems, rfl, hcount, htable, has, ha, hbs, rfl,
        hbefore⟩ := h.find_some hfind
    obtain ⟨rest, hcopy⟩ := copyUp_slots hitems hcount
    split
    · rename_i hnone
      rw [hcopy] at hnone
      cases hnone
    · rename_i items hsome
      obtain rfl := Option.some.inj (hcopy.symm.trans hsome)
      have hshort : t.count - 1 = (before ++ behind).length := by
        rw [List.length_append]
        omega
      have herase : table.items.eraseP (fun b => b.name = a.name) = as ++ bs := by
        rw [htable, AliasTable.eraseP_split hbefore]
      have hused : ((before ++ behind ++ rest).take (t.count - 1)).map AliasSlot.entry =
          (table.items.eraseP fun b => b.name = a.name).map Alias.entry := by
        rw [herase, hshort, List.take_left, List.map_append, List.map_append, has, hbs]
      exact ⟨true, _, rfl, hused, nofun⟩

end AliasSlots

namespace AliasTable

variable {table table' : AliasTable} {name val : List Char}

theorem set_none : table.set name val = none ↔ name = [] ∨ nameCap < (utf8 name).length ∨
    valueCap < (utf8 val).length ∨ table.get name = none ∧ maxAliases ≤ table.items.length := by
  have hknown : (table.items.any fun b => b.name = name) = true ↔ table.get name ≠ none := by
    rw [Ne, get_eq_none]
    simp
  rw [set]
  by_cases hfit : name ≠ [] ∧ (utf8 name).length ≤ nameCap ∧ (utf8 val).length ≤ valueCap
  · rw [dif_pos hfit]
    obtain ⟨hname, hlen, hval⟩ := hfit
    dsimp only
    by_cases hget : table.get name = none
    · rw [if_neg fun hany => hknown.mp hany hget]
      by_cases hfew : table.items.length < maxAliases
      · simp [hfew, hname, hlen.not_gt, hval.not_gt]
      · simp [hfew, hget, Nat.le_of_not_lt hfew]
    · rw [if_pos (hknown.mpr hget)]
      simp [hget, hname, hlen.not_gt, hval.not_gt]
  · rw [dif_neg hfit]
    simp only [not_and_or, not_not, Nat.not_le] at hfit
    tauto

theorem set_some (h : table.set name val = some table') :
    (∃ as a bs b, table.items = as ++ a :: bs ∧ (∀ x ∈ as, x.name ≠ name) ∧ a.name = name ∧
      table'.items = as ++ b :: bs ∧ b.name = name ∧ b.val = val) ∨ (∀ x ∈ table.items, x.name ≠
        name) ∧ ∃ b, table'.items = table.items ++ [b] ∧ b.name = name ∧ b.val = val := by
  rw [set] at h
  split at h
  swap
  · cases h
  rename_i hfit
  dsimp only at h
  split at h
  · rename_i hany
    obtain ⟨as, a, bs, hitems, hname, has⟩ :
        ∃ as a bs, table.items = as ++ a :: bs ∧ a.name = name ∧ ∀ x ∈ as, x.name ≠ name := by
      have hfound : (table.items.find? fun b => b.name = name).isSome = true := by
        rw [List.find?_isSome]
        exact List.any_eq_true.mp hany
      obtain ⟨a, hfind⟩ := Option.isSome_iff_exists.mp hfound
      obtain ⟨hname, as, bs, hitems, has⟩ := List.find?_eq_some_iff_append.mp hfind
      exact ⟨as, a, bs, hitems, of_decide_eq_true hname, fun x hx => by simpa using has x hx⟩
    refine .inl ⟨as, a, bs, ⟨name, val, hfit.1, hfit.2.1, hfit.2.2⟩, hitems, has, hname,
      ?_, rfl, rfl⟩
    rw [← Option.some.inj h]
    exact (congrArg _ hitems).trans (overwrite_split hname has)
  · rename_i hany
    split at h
    · rw [← Option.some.inj h]
      exact .inr ⟨by simpa using hany, _, rfl, rfl, rfl⟩
    · cases h

theorem Distinct.set (h : table.Distinct) (hset : table.set name val = some table') :
    table'.Distinct := by
  rcases set_some hset with ⟨as, a, bs, b, hitems, -, rfl, hitems', hb, -⟩ |
      ⟨hnew, b, hitems', rfl, -⟩
  · rw [Distinct, hitems', List.map_append, List.map_cons, hb]
    rwa [Distinct, hitems, List.map_append, List.map_cons] at h
  · rw [Distinct, hitems', List.map_append, List.map_singleton, List.nodup_append]
    refine ⟨h, List.nodup_cons.mpr ⟨List.not_mem_nil, List.nodup_nil⟩, ?_⟩
    intro x hx y hy
    obtain ⟨a, ha, rfl⟩ := List.mem_map.mp hx
    rw [List.mem_singleton.mp hy]
    exact hnew a ha

theorem get_set (hset : table.set name val = some table') (n : List Char) :
    table'.get n = if name = n then some val else table.get n := by
  rcases set_some hset with ⟨as, a, bs, b, hitems, has, rfl, hitems', hb, rfl⟩ |
      ⟨hnew, b, hitems', rfl, rfl⟩
  · split
    · rename_i heq
      subst heq
      rw [← hb]
      exact get_split hitems' (hb ▸ has)
    · rename_i hne
      rw [get_around hitems' (hb ▸ Ne.symm hne), get_around hitems (Ne.symm hne)]
  · split
    · rename_i heq
      subst heq
      exact get_split hitems' hnew
    · rename_i hne
      have hsame : table.items = table.items ++ [] := (List.append_nil _).symm
      rw [get_around hitems' (Ne.symm hne), ← hsame, get]

theorem Distinct.remove (h : table.Distinct) (name : List Char) : (table.remove name).Distinct :=
  h.sublist (List.eraseP_sublist.map _)

theorem get_remove (h : table.Distinct) (name n : List Char) :
    (table.remove name).get n = if name = n then none else table.get n := by
  by_cases hget : table.get name = none
  · have hsame : (table.remove name).items = table.items :=
      List.eraseP_of_forall_not (by simpa using get_eq_none.mp hget)
    rw [get, hsame, ← get]
    split
    · rename_i heq
      exact heq ▸ hget
    · rfl
  · obtain ⟨a, hfind⟩ := Option.ne_none_iff_exists'.mp (mt Option.map_eq_none_iff.mpr hget)
    obtain ⟨hname, as, bs, hitems, has⟩ := List.find?_eq_some_iff_append.mp hfind
    obtain rfl := of_decide_eq_true hname
    have herase : (table.remove a.name).items = as ++ bs :=
      (congrArg _ hitems).trans (eraseP_split fun x hx => by simpa using has x hx)
    obtain ⟨hleft, hright⟩ := h.split hitems
    split
    · rename_i heq
      subst heq
      refine get_eq_none.mpr fun x hx => ?_
      rw [herase] at hx
      exact (List.mem_append.mp hx).elim (hleft x) (hright x)
    · rename_i hne
      rw [get_around hitems (Ne.symm hne), get, herase]

end AliasTable

namespace AliasSlots

variable {t t' : AliasSlots} {table : AliasTable} {log : List (AliasCall × AliasAnswer)}

def Reflects (t : AliasSlots) (log : List (AliasCall × AliasAnswer)) : Prop :=
  ∃ table, t.Holds table ∧ table.Distinct ∧ ∀ n, table.get n = bound log n

theorem bound_snoc (log : List (AliasCall × AliasAnswer)) (c : AliasCall × AliasAnswer)
    (n : List Char) : bound (log ++ [c]) n = boundStep n (bound log n) c := by
  rw [bound, List.foldl_append]
  rfl

theorem reflects_empty : AliasSlots.empty.Reflects [] := by
  exact ⟨.empty, rfl, List.nodup_nil, fun _ => rfl⟩

theorem call_reflects (h : t.Reflects log) (c : AliasCall) :
    ∃ a t', t.call c = some (a, t') ∧ t'.Reflects (log ++ [(c, a)]) := by
  obtain ⟨table, hholds, hdis, hget⟩ := h
  cases c with
  | set name val =>
    have hset := hholds.set name val
    refine ⟨_, _, rfl, ?_⟩
    cases htable : table.set name val with
    | some table' =>
      rw [htable] at hset
      refine ⟨table', hset.2, hdis.set htable, fun n => ?_⟩
      rw [bound_snoc, hset.1, AliasTable.get_set htable, hget]
      rfl
    | none =>
      rw [htable] at hset
      dsimp only at hset
      rw [hset]
      refine ⟨table, hholds, hdis, fun n => ?_⟩
      rw [bound_snoc, hget]
      rfl
  | get name =>
    refine ⟨_, _, rfl, table, hholds, hdis, fun n => ?_⟩
    rw [bound_snoc, hget]
    rfl
  | remove name =>
    obtain ⟨ok, t', hremove, hholds', -⟩ := hholds.remove name
    refine ⟨.done ok, t',
      by rw [call, hremove]; rfl, table.remove name, hholds', hdis.remove name, fun n => ?_⟩
    rw [bound_snoc, AliasTable.get_remove hdis, hget]
    rfl

theorem run_reflects (h : t.Reflects log) (cs : List AliasCall) :
    ∃ log' t', t.run cs = some (log', t') ∧ log'.map Prod.fst = cs ∧ t'.Reflects (log ++ log') := by
  induction cs generalizing t log with
  | nil => exact ⟨[], t, rfl, rfl, by rwa [List.append_nil]⟩
  | cons c cs ih =>
    obtain ⟨a, t₁, hcall, h₁⟩ := call_reflects h c
    obtain ⟨log', t', hrun, hmap, h'⟩ := ih h₁
    refine ⟨(c, a) :: log', t', ?_, by rw [List.map_cons, hmap], by rwa [List.append_cons]⟩
    rw [run, hcall, Option.bind_some, hrun]
    rfl

theorem Holds.names_nodup (h : t.Holds table) (hdis : table.Distinct) : t.names.Nodup := by
  have hmap : t.names = (table.items.map Alias.name).map utf8 := by
    rw [h.names, List.map_map]
    rfl
  rw [hmap]
  exact List.Pairwise.map _ (fun _ _ hne heq => hne (utf8_inj.mp heq)) hdis

theorem Holds.set_fails (h : t.Holds table) (name val : List Char) : (t.set name val).1 = false ↔
    name = [] ∨ nameCap < (utf8 name).length ∨ valueCap < (utf8 val).length ∨
      utf8 name ∉ t.names ∧ t.count = maxAliases := by
  have hset := h.set name val
  have hfull : t.count = maxAliases ↔ maxAliases ≤ table.items.length := by
    rw [← h.count]
    exact ⟨fun heq => heq.ge, fun hle => Nat.le_antisymm t.count_le hle⟩
  rw [h.mem_names, not_not, hfull, ← AliasTable.set_none]
  cases htable : table.set name val with
  | some table' =>
    rw [htable] at hset
    rw [hset.1]
    exact iff_of_false nofun nofun
  | none =>
    rw [htable] at hset
    dsimp only at hset
    rw [hset]
    exact iff_of_true rfl rfl

/-- Whatever was called before, the table is a finite map of its names. -/
theorem alias_finite_map (cs : List AliasCall) :
    ∃ log t, AliasSlots.empty.run cs = some (log, t) ∧ log.map Prod.fst = cs ∧
    t.names.Nodup ∧ (∀ n, t.get n = bound log n) ∧
    (∀ n v, (t.set n v).1 = false ↔ n = [] ∨ nameCap < (utf8 n).length ∨
      valueCap < (utf8 v).length ∨ utf8 n ∉ t.names ∧ t.count = maxAliases) ∧
    (∀ n v, (t.set n v).1 = false → (t.set n v).2 = t) ∧
    ∀ n, ∃ ok t', t.remove n = some (ok, t') ∧ (ok = false → t' = t) ∧ t'.get n = none ∧
      ∀ m, m ≠ n → t'.get m = t.get m := by
  obtain ⟨log, t, hrun, hmap, table, hholds, hdis, hget⟩ := run_reflects reflects_empty cs
  refine ⟨log, t, hrun, hmap, hholds.names_nodup hdis, fun n => (hholds.get n).trans (hget n),
    hholds.set_fails, ?_, ?_⟩
  · intro n v hfail
    have hset := hholds.set n v
    cases htable : table.set n v with
    | some table' =>
      rw [htable] at hset
      rw [hset.1] at hfail
      cases hfail
    | none =>
      rw [htable] at hset
      dsimp only at hset
      rw [hset]
  · intro n
    obtain ⟨ok, t', hremove, hholds', hfail⟩ := hholds.remove n
    refine ⟨ok, t', hremove, hfail, ?_, fun m hm => ?_⟩
    · rw [hholds'.get, AliasTable.get_remove hdis, if_pos rfl]
    · rw [hholds'.get, AliasTable.get_remove hdis, if_neg (Ne.symm hm), hholds.get]

end AliasSlots

end CoeleoOs.Sh
