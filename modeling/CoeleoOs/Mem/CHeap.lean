import CoeleoOs.Lib.Checked
import CoeleoOs.Task.ArgvLayout

/-!
# The heap of the C code

`coeleo_malloc`, `coeleo_realloc` and `coeleo_free` keep the length of a block in front of it, so
that the block can be given back to the kernel's allocator with the layout it was taken with. The
allocator itself is what the language promises of one. To the C code the heap is a map from pointers
to blocks.
-/

namespace CoeleoOs.Mem.CHeap
open CoeleoOs.Lib.Checked (usizeMax)
open CoeleoOs.Task

abbrev Memory := ℕ → UInt8

def bytesAt (mem : Memory) (a n : ℕ) : Bytes := (List.range n).map fun i => mem (a + i)

def store (mem : Memory) (a : ℕ) (bs : Bytes) : Memory :=
  fun x => if a ≤ x ∧ x < a + bs.length then bs.getD (x - a) 0 else mem x

structure Layout where
  size : ℕ
  align : ℕ
  deriving DecidableEq

def Layout.Covers (l : Layout) (p x : ℕ) : Prop := p ≤ x ∧ x < p + l.size

def Apart (p n q m : ℕ) : Prop := p + n ≤ q ∨ q + m ≤ p

instance (p n q m : ℕ) : Decidable (Apart p n q m) := inferInstanceAs (Decidable (_ ∨ _))

/-- A global allocator. What its contract leaves undefined has no result. -/
structure Allocator (σ : Type) where
  alloc : σ → Memory → Layout → Option ℕ × σ × Memory
  dealloc : σ → Memory → ℕ → Layout → Option (σ × Memory)
  live : σ → Set (ℕ × Layout)

structure Allocator.Lawful {σ : Type} (A : Allocator σ) : Prop where
  apart : ∀ a p l q m, (p, l) ∈ A.live a → (q, m) ∈ A.live a → (p, l) ≠ (q, m) →
    Apart p l.size q m.size
  alloc_none : ∀ a mem l a' mem', A.alloc a mem l = (none, a', mem') → A.live a' = A.live a
  alloc_some : ∀ a mem l p a' mem', A.alloc a mem l = (some p, a', mem') → (p, l) ∉ A.live a ∧
    A.live a' = insert (p, l) (A.live a) ∧ l.align ∣ p ∧ p + l.size ≤ 2 ^ 64
  alloc_kept : ∀ a mem l q m x, (q, m) ∈ A.live a → m.Covers q x → (A.alloc a mem l).2.2 x = mem x
  dealloc_live : ∀ a mem p l, (p, l) ∈ A.live a → ∃ a' mem', A.dealloc a mem p l = some (a', mem') ∧
    A.live a' = A.live a \ {(p, l)} ∧ ∀ q m x, (q, m) ∈ A.live a' → m.Covers q x → mem' x = mem x

def cHdr : ℕ := 16
def isizeMax : ℕ := 2 ^ 63 - 1

def saturatingAdd (a b : ℕ) : ℕ := min (a + b) usizeMax

def cLayout (total : ℕ) : Option Layout :=
  if total ≤ isizeMax + 1 - cHdr then some ⟨total, cHdr⟩ else none

structure State (σ : Type) where
  alloc : σ
  mem : Memory

variable {σ : Type} (A : Allocator σ)

def State.header (s : State σ) (raw : ℕ) : ℕ := leNat (bytesAt s.mem raw 8)

-- A null pointer is 0.
def malloc (s : State σ) (size : ℕ) : ℕ × State σ :=
  if size = 0 then (0, s)
  else
    let total := saturatingAdd size cHdr
    if total < size then (0, s)
    else
      match cLayout total with
      | none => (0, s)
      | some layout =>
        match A.alloc s.alloc s.mem layout with
        | (none, a, mem) => (0, ⟨a, mem⟩)
        | (some raw, a, mem) => (raw + cHdr, ⟨a, store mem raw (leBytes 8 size)⟩)

def free (s : State σ) (p : ℕ) : Option (State σ) :=
  if p = 0 then some s
  else
    let raw := p - cHdr
    let total := saturatingAdd (s.header raw) cHdr
    match cLayout total with
    | none => some s
    | some layout => (A.dealloc s.alloc s.mem raw layout).map fun r => ⟨r.1, r.2⟩

def copyNonoverlapping (s : State σ) (src dst n : ℕ) : Option (State σ) :=
  if Apart src n dst n then some { s with mem := store s.mem dst (bytesAt s.mem src n) } else none

def realloc (s : State σ) (p newsz : ℕ) : Option (ℕ × State σ) :=
  if p = 0 then some (malloc A s newsz)
  else if newsz = 0 then (free A s p).map fun s => (0, s)
  else
    let (q, s) := malloc A s newsz
    if q = 0 then some (0, s)
    else
      let old := s.header (p - cHdr)
      (copyNonoverlapping s p q (min old newsz)).bind fun s => (free A s p).map fun s => (q, s)

/-- What the C code does with the heap, and what happens beside it: the rest of the kernel allocates
and stores as well. -/
inductive Act (σ : Type)
  | malloc (n : ℕ)
  | free (p : ℕ)
  | realloc (p n : ℕ)
  | write (p i : ℕ) (bs : Bytes)
  | other (a : σ) (mem : Memory)

def State.act (s : State σ) : Act σ → Option (ℕ × State σ)
  | .malloc n => some (malloc A s n)
  | .free p => (free A s p).map fun s => (0, s)
  | .realloc p n => realloc A s p n
  | .write p i bs => some (0, { s with mem := store s.mem (p + i) bs })
  | .other a mem => some (0, ⟨a, mem⟩)

def State.run (s : State σ) : List (Act σ) → Option (List ℕ × State σ)
  | [] => some ([], s)
  | a :: as => (s.act A a).bind fun r => (r.2.run as).map fun rs => (r.1 :: rs.1, rs.2)

/-- The blocks of the C code by their pointers. -/
abbrev Heap := ℕ → Option Bytes

/-- An aligned block inside the address space that overlaps no other. -/
structure Heap.Fresh (h : Heap) (p n : ℕ) : Prop where
  ne_null : p ≠ 0
  aligned : cHdr ∣ p
  fits : p + n ≤ 2 ^ 64
  unused : h p = none
  apart : ∀ q bytes, h q = some bytes → Apart p n q bytes.length

def patch (bytes : Bytes) (i : ℕ) (bs : Bytes) : Bytes :=
  bytes.take i ++ bs ++ bytes.drop (i + bs.length)

/-- The heap as the C code is promised it, with the pointer that comes back. -/
inductive Heap.Step (h : Heap) : Act σ → ℕ → Heap → Prop
  | noMemory (n : ℕ) : Step h (.malloc n) 0 h
  | malloc {p n : ℕ} {bytes : Bytes} : n ≠ 0 → h.Fresh p n → bytes.length = n →
      Step h (.malloc n) p (Function.update h p (some bytes))
  | freeNull : Step h (.free 0) 0 h
  | free {p : ℕ} {bytes : Bytes} : h p = some bytes → Step h (.free p) 0 (Function.update h p none)
  | reallocNull {n r : ℕ} {h' : Heap} : Step h (.malloc n) r h' → Step h (.realloc 0 n) r h'
  | reallocZero {p : ℕ} {bytes : Bytes} :
    h p = some bytes → Step h (.realloc p 0) 0 (Function.update h p none)
  | reallocFails {p n : ℕ} : Step h (.realloc p n) 0 h
  | realloc {p q n : ℕ} {bytes rest : Bytes} : n ≠ 0 → h p = some bytes → h.Fresh q n →
      (bytes.take n ++ rest).length = n →
      Step h (.realloc p n) q (Function.update (Function.update h q (some (bytes.take n ++ rest))) p
        none)
  | write {p i : ℕ} {bs bytes : Bytes} : h p = some bytes → i + bs.length ≤ bytes.length →
      Step h (.write p i bs) 0 (Function.update h p (some (patch bytes i bs)))
  | other (a : σ) (mem : Memory) : Step h (.other a mem) 0 h

inductive Heap.Steps : Heap → List (Act σ) → List ℕ → Heap → Prop
  | nil (h : Heap) : Steps h [] [] h
  | cons {h h' h'' : Heap} {a : Act σ} {as : List (Act σ)} {r : ℕ} {rs : List ℕ} :
      Heap.Step h a r h' → Steps h' as rs h'' → Steps h (a :: as) (r :: rs) h''

def blockLayout (n : ℕ) : Layout := ⟨n + cHdr, cHdr⟩

/-- The C code frees and reallocates its own blocks and stores into them, and nobody else touches
them. -/
def Valid (s : State σ) (h : Heap) : Act σ → Prop
  | .malloc n => n < 2 ^ 64
  | .free p => p = 0 ∨ ∃ bytes, h p = some bytes
  | .realloc p n => n < 2 ^ 64 ∧ (p = 0 ∨ ∃ bytes, h p = some bytes)
  | .write p i bs => ∃ bytes, h p = some bytes ∧ i + bs.length ≤ bytes.length
  | .other a mem => ∀ p bytes, h p = some bytes → (p - cHdr, blockLayout bytes.length) ∈ A.live a ∧
      ∀ x, (blockLayout bytes.length).Covers (p - cHdr) x → mem x = s.mem x

/-- Valid whatever the heap hands out. -/
def ValidRun (s : State σ) (h : Heap) : List (Act σ) → Prop
  | [] => True
  | a :: as =>
    Valid A s h a ∧ ∀ r s' h', s.act A a = some (r, s') → h.Step a r h' → ValidRun s' h' as

/-- A block of the heap in the memory, behind its header. -/
structure Stored (s : State σ) (p : ℕ) (bytes : Bytes) : Prop where
  room : cHdr ≤ p
  live : (p - cHdr, blockLayout bytes.length) ∈ A.live s.alloc
  header : s.header (p - cHdr) = bytes.length
  contents : bytesAt s.mem p bytes.length = bytes
  small : bytes.length + cHdr ≤ isizeMax + 1 - cHdr

def Holds (s : State σ) (h : Heap) : Prop := ∀ p bytes, h p = some bytes → Stored A s p bytes

section Memory

variable {mem mem' : Memory} {a b n m : ℕ} {bs : Bytes}

theorem bytesAt_length :
    (bytesAt mem a n).length = n := by rw [bytesAt, List.length_map, List.length_range]

theorem bytesAt_congr (h : ∀ x, a ≤ x → x < a + n → mem x = mem' x) :
    bytesAt mem a n = bytesAt mem' a n := by
  refine List.map_congr_left fun i hi => h (a + i) (Nat.le_add_right a i) ?_
  have hlt := List.mem_range.mp hi
  omega

theorem bytesAt_add : bytesAt mem a (m + n) = bytesAt mem a m ++ bytesAt mem (a + m) n := by
  simp only [bytesAt, List.range_add, List.map_append, List.map_map, Function.comp_def,
    Nat.add_assoc]

theorem bytesAt_take : (bytesAt mem a n).take m = bytesAt mem a (min m n) := by
  rw [bytesAt, ← List.map_take, List.take_range]
  rfl

theorem store_away {x : ℕ} (h : x < a ∨ a + bs.length ≤ x) : store mem a bs x = mem x := by
  rw [store, if_neg (by omega)]

theorem bytesAt_store : bytesAt (store mem a bs) a bs.length = bs := by
  refine List.ext_getElem bytesAt_length fun i hi hi' => ?_
  simp only [bytesAt, List.getElem_map, List.getElem_range, store]
  rw [if_pos ⟨Nat.le_add_right a i, by omega⟩, Nat.add_sub_cancel_left,
    List.getD_eq_getElem bs 0 hi']

theorem bytesAt_store_away (h : Apart a bs.length b n) :
    bytesAt (store mem a bs) b n = bytesAt mem b n := by
  refine bytesAt_congr fun x hlo hhi => store_away ?_
  rcases h with h | h
  · exact .inr (by omega)
  · exact .inl (by omega)

theorem bytesAt_patch {i : ℕ} (h : i + bs.length ≤ n) :
    bytesAt (store mem (a + i) bs) a n = patch (bytesAt mem a n) i bs := by
  obtain ⟨rest, rfl⟩ : ∃ rest, n = i + bs.length + rest := ⟨n - (i + bs.length), by omega⟩
  have hfront : (bytesAt mem a (i + bs.length + rest)).take i = bytesAt mem a i := by
    rw [bytesAt_take, Nat.min_eq_left (by omega)]
  have hback : (bytesAt mem a (i + bs.length + rest)).drop (i + bs.length) =
      bytesAt mem (a + (i + bs.length)) rest := by
    rw [bytesAt_add, List.drop_left' bytesAt_length]
  rw [patch, hfront, hback, bytesAt_add, bytesAt_add, bytesAt_store,
    bytesAt_store_away (.inr (by omega)), bytesAt_store_away (.inl (by omega))]

end Memory

variable {A} {s s' : State σ} {h : Heap} {p q n : ℕ} {bytes : Bytes}

theorem patch_length {i : ℕ} {bs : Bytes} (hfit : i + bs.length ≤ bytes.length) :
    (patch bytes i bs).length = bytes.length := by
  rw [patch, List.length_append, List.length_append, List.length_take, List.length_drop]
  omega

section Blocks

theorem Stored.frame (hst : Stored A s p bytes)
    (hlive : (p - cHdr, blockLayout bytes.length) ∈ A.live s'.alloc)
    (hmem : ∀ x, (blockLayout bytes.length).Covers (p - cHdr) x → s'.mem x = s.mem x) :
    Stored A s' p bytes := by
  have hroom := hst.room
  have hsize : (blockLayout bytes.length).size = bytes.length + 16 := rfl
  have hhdr : cHdr = 16 := rfl
  refine ⟨hroom, hlive, ?_, ?_, hst.small⟩
  · have hsame : bytesAt s'.mem (p - cHdr) 8 = bytesAt s.mem (p - cHdr) 8 :=
      bytesAt_congr fun x hlo hhi => hmem x ⟨hlo, by omega⟩
    rw [State.header, hsame]
    exact hst.header
  · have hsame : bytesAt s'.mem p bytes.length = bytesAt s.mem p bytes.length :=
      bytesAt_congr fun x hlo hhi => hmem x ⟨by omega, by omega⟩
    rw [hsame]
    exact hst.contents

theorem Stored.apart (hA : A.Lawful) (hst : Stored A s p bytes) {bytes' : Bytes}
    (hst' : Stored A s q bytes') (hne : p ≠ q) :
    Apart (p - cHdr) (bytes.length + cHdr) (q - cHdr) (bytes'.length + cHdr) := by
  refine hA.apart s.alloc _ _ _ _ hst.live hst'.live fun heq => ?_
  have hraw := congrArg Prod.fst heq
  have hroom := hst.room
  have hroom' := hst'.room
  simp only at hraw
  omega

theorem Holds.update (hold : ∀ q bytes, h q = some bytes → q ≠ p → Stored A s q bytes)
    {o : Option Bytes} (hp : ∀ bytes, o = some bytes → Stored A s p bytes) :
    Holds A s (Function.update h p o) := by
  intro q bytes hq
  by_cases hqp : q = p
  · subst hqp
    rw [Function.update_self] at hq
    exact hp bytes hq
  · rw [Function.update_of_ne hqp] at hq
    exact hold q bytes hq hqp

theorem Holds.write (hA : A.Lawful) (hold : Holds A s h) (hp : h p = some bytes) {i : ℕ}
    {bs : Bytes} (hfit : i + bs.length ≤ bytes.length) : Holds A { s with
      mem := store s.mem (p + i) bs } (Function.update h p (some (patch bytes i bs))) := by
  have hst := hold p bytes hp
  have hroom := hst.room
  have hhdr : cHdr = 16 := rfl
  refine Holds.update (fun q bytes' hq hqp => ?_) fun bytes' hbytes => ?_
  · have hst' := hold q bytes' hq
    refine hst'.frame hst'.live fun x hx => store_away ?_
    have happ := hst.apart hA hst' (Ne.symm hqp)
    have hsize : (blockLayout bytes'.length).size = bytes'.length + 16 := rfl
    obtain ⟨hlo, hhi⟩ := hx
    simp only [Apart] at happ
    omega
  · obtain rfl := Option.some.inj hbytes
    have hlen := patch_length hfit
    refine ⟨hroom, ?_, ?_, ?_, ?_⟩
    · rw [hlen]
      exact hst.live
    · have hsame : bytesAt (store s.mem (p + i) bs) (p - cHdr) 8 = bytesAt s.mem (p - cHdr) 8 :=
        bytesAt_store_away (.inr (by omega))
      rw [State.header, hsame, hlen]
      exact hst.header
    · rw [hlen]
      show bytesAt (store s.mem (p + i) bs) p bytes.length = _
      rw [bytesAt_patch hfit, hst.contents]
    · rw [hlen]
      exact hst.small

theorem cLayout_total (hsmall : n + cHdr ≤ isizeMax + 1 - cHdr) :
    cLayout (saturatingAdd n cHdr) = some (blockLayout n) := by
  have htotal : saturatingAdd n cHdr = n + cHdr := by
    simp only [saturatingAdd, usizeMax, isizeMax, cHdr] at *
    omega
  rw [cLayout, htotal, if_pos hsmall]
  rfl

theorem cLayout_some {l : Layout} (hl : cLayout (saturatingAdd n cHdr) = some l) :
    l = blockLayout n ∧ n + cHdr ≤ isizeMax + 1 - cHdr := by
  by_cases hsmall : n + cHdr ≤ isizeMax + 1 - cHdr
  · rw [cLayout_total hsmall] at hl
    exact ⟨(Option.some.inj hl).symm, hsmall⟩
  · rw [cLayout, if_neg] at hl
    · cases hl
    · simp only [saturatingAdd, usizeMax, isizeMax, cHdr] at *
      omega

end Blocks

section Calls

variable (hA : A.Lawful)
include hA

theorem free_holds (hold : Holds A s h) (hp : h p = some bytes) :
    ∃ s', free A s p = some s' ∧ Holds A s' (Function.update h p none) := by
  have hst := hold p bytes hp
  have hroom := hst.room
  have hnull : p ≠ 0 := by
    simp only [cHdr] at hroom
    omega
  obtain ⟨a', mem', hdealloc, hlive, hkept⟩ := hA.dealloc_live s.alloc s.mem _ _ hst.live
  refine ⟨⟨a', mem'⟩, ?_, ?_⟩
  · simp only [free, if_neg hnull, hst.header, cLayout_total hst.small, hdealloc, Option.map_some]
  · refine Holds.update (fun q bytes' hq hqp => ?_) fun bytes' hbytes => by cases hbytes
    have hst' := hold q bytes' hq
    have hstays : (q - cHdr, blockLayout bytes'.length) ∈ A.live a' := by
      rw [hlive]
      refine ⟨hst'.live, fun heq => hqp ?_⟩
      have hraw := congrArg Prod.fst (Set.mem_singleton_iff.mp heq)
      have hroom' := hst'.room
      simp only at hraw
      omega
    exact hst'.frame hstays fun x hx => hkept _ _ x hstays hx

def Given (A : Allocator σ) (h : Heap) (n p : ℕ) (s : State σ) : Prop :=
  p = 0 ∧ Holds A s h ∨ n ≠ 0 ∧ h.Fresh p n ∧ ∃ bytes, bytes.length = n ∧
    Holds A s (Function.update h p (some bytes))

theorem malloc_given (hold : Holds A s h) (hn : n < 2 ^ 64) :
    Given A h n (malloc A s n).1 (malloc A s n).2 := by
  rw [malloc]
  split
  · exact .inl ⟨rfl, hold⟩
  · next hzero =>
    simp only
    split
    · exact .inl ⟨rfl, hold⟩
    · rcases hl : cLayout (saturatingAdd n cHdr) with _ | l
      · exact .inl ⟨rfl, hold⟩
      · obtain ⟨rfl, hsmall⟩ := cLayout_some hl
        have hkept := hA.alloc_kept s.alloc s.mem (blockLayout n)
        rcases hcall : A.alloc s.alloc s.mem (blockLayout n) with ⟨_ | raw, a, mem⟩
        · have hlive := hA.alloc_none _ _ _ _ _ hcall
          rw [hcall] at hkept
          simp only [hcall]
          refine .inl ⟨rfl, fun q bytes hq => ?_⟩
          have hst := hold q bytes hq
          exact hst.frame (by rw [hlive]; exact hst.live) fun x hx => hkept _ _ x hst.live hx
        · obtain ⟨hnew, hlive, haligned, hfits⟩ := hA.alloc_some _ _ _ _ _ _ hcall
          rw [hcall] at hkept
          have hhdr : cHdr = 16 := rfl
          have hsize : (blockLayout n).size = n + 16 := rfl
          have hlen : (leBytes 8 n).length = 8 := leBytes_length 8 n
          have hmine : (raw, blockLayout n) ∈ A.live a := by
            rw [hlive]
            exact Set.mem_insert _ _
          have haway :
              ∀ q bytes, h q = some bytes → Apart raw (n + 16) (q - cHdr) (bytes.length + 16) := by
            intro q bytes hq
            have hst := hold q bytes hq
            have htheirs : (q - cHdr, blockLayout bytes.length) ∈ A.live a := by
              rw [hlive]
              exact Set.mem_insert_of_mem _ hst.live
            exact hA.apart a _ _ _ _ hmine htheirs fun heq => hnew (heq ▸ hst.live)
          have hunused : h (raw + cHdr) = none := by
            rcases hq : h (raw + cHdr) with _ | bytes
            · rfl
            · have happ := haway _ bytes hq
              rw [Nat.add_sub_cancel] at happ
              simp only [Apart] at happ
              omega
          have hstored : Stored A ⟨a, store mem raw (leBytes 8 n)⟩ (raw + cHdr)
              (bytesAt (store mem raw (leBytes 8 n)) (raw + cHdr) n) := by
            refine ⟨Nat.le_add_left _ _, ?_, ?_, ?_, ?_⟩
            · rw [bytesAt_length, Nat.add_sub_cancel]
              exact hmine
            · have hheader : bytesAt (store mem raw (leBytes 8 n)) raw 8 = leBytes 8 n := by
                rw [← hlen]
                exact bytesAt_store
              rw [State.header, bytesAt_length, Nat.add_sub_cancel]
              show leNat (bytesAt (store mem raw (leBytes 8 n)) raw 8) = n
              rw [hheader, leNat_leBytes 8 n (by omega)]
            · rw [bytesAt_length]
            · rw [bytesAt_length]
              exact hsmall
          simp only [hcall]
          refine .inr ⟨hzero, ⟨by omega, ?_, by omega, hunused, ?_⟩,
            bytesAt (store mem raw (leBytes 8 n)) (raw + cHdr) n, bytesAt_length, ?_⟩
          · exact (Nat.dvd_add_iff_left (Nat.dvd_refl cHdr)).mp haligned
          · intro q bytes hq
            have happ := haway q bytes hq
            have hroom := (hold q bytes hq).room
            simp only [Apart] at happ ⊢
            omega
          · refine Holds.update (fun q bytes hq _ => ?_) fun bytes hbytes =>
              Option.some.inj hbytes ▸ hstored
            have hst := hold q bytes hq
            refine hst.frame (by rw [hlive]; exact Set.mem_insert_of_mem _ hst.live) fun x hx => ?_
            have happ := haway q bytes hq
            have hout : x < raw ∨ raw + (leBytes 8 n).length ≤ x := by
              obtain ⟨hlo, hhi⟩ := hx
              have hsize' : (blockLayout bytes.length).size = bytes.length + 16 := rfl
              simp only [Apart] at happ
              omega
            show store mem raw (leBytes 8 n) x = s.mem x
            rw [store_away hout]
            exact hkept _ _ x hst.live hx

theorem realloc_moves (hp : h p = some bytes) (hfresh : h.Fresh q n) {fresh : Bytes}
    (hlen : fresh.length = n) (hheld : Holds A s' (Function.update h q (some fresh))) :
    ∃ s'' rest, (bytes.take n ++ rest).length = n ∧
      ((copyNonoverlapping s' p q (min (s'.header (p - cHdr)) n)).bind fun s =>
        (free A s p).map fun s => (q, s)) = some (q, s'') ∧
        Holds A s'' (Function.update (Function.update h q (some (bytes.take n ++ rest)))
          p none) := by
  have hpq : p ≠ q := by
    rintro rfl
    rw [hfresh.unused] at hp
    cases hp
  have hp' : Function.update h q (some fresh) p = some bytes := by
    rw [Function.update_of_ne hpq, hp]
  have hst := hheld p bytes hp'
  have hcopy : bytesAt s'.mem p (min bytes.length n) = bytes.take n := by
    rw [Nat.min_comm, ← bytesAt_take, hst.contents]
  have hcopied : (bytes.take n).length = min bytes.length n := by
    rw [List.length_take, Nat.min_comm]
  have hfit : 0 + (bytes.take n).length ≤ fresh.length := by omega
  have happ : Apart p (min bytes.length n) q (min bytes.length n) := by
    have happ := hfresh.apart p bytes hp
    simp only [Apart] at happ ⊢
    omega
  have hwritten := hheld.write hA (Function.update_self q (some fresh) h) hfit
  rw [Nat.add_zero, Function.update_idem] at hwritten
  have hpatch :
      patch fresh 0 (bytes.take n) = bytes.take n ++ fresh.drop (bytes.take n).length := by
    rw [patch, List.take_zero, List.nil_append, Nat.zero_add]
  rw [hpatch] at hwritten
  have hp'' : Function.update h q (some (bytes.take n ++ fresh.drop (bytes.take n).length)) p =
      some bytes := by
    rw [Function.update_of_ne hpq, hp]
  obtain ⟨s'', hfree, hdone⟩ := free_holds hA hwritten hp''
  refine ⟨s'', fresh.drop (bytes.take n).length, ?_, ?_, hdone⟩
  · rw [List.length_append, List.length_drop]
    omega
  · rw [hst.header, copyNonoverlapping, if_pos happ, hcopy, Option.bind_some, hfree,
      Option.map_some]

theorem act_refines (hold : Holds A s h) {a : Act σ} (hvalid : Valid A s h a) :
    ∃ r s' h', s.act A a = some (r, s') ∧ h.Step a r h' ∧ Holds A s' h' := by
  have hmalloc : ∀ {n}, n < 2 ^ 64 → ∃ h', h.Step (.malloc n : Act σ) (malloc A s n).1 h' ∧
      Holds A (malloc A s n).2 h' := by
    intro n hn
    rcases malloc_given hA hold hn with ⟨hnull, hheld⟩ | ⟨hzero, hfresh, bytes, hlen, hheld⟩
    · rw [hnull]
      exact ⟨h, .noMemory n, hheld⟩
    · exact ⟨_, .malloc hzero hfresh hlen, hheld⟩
  cases a with
  | malloc n =>
    obtain ⟨h', hstep, hheld⟩ := hmalloc hvalid
    exact ⟨_, _, h', rfl, hstep, hheld⟩
  | free p =>
    rcases hvalid with rfl | ⟨bytes, hp⟩
    · exact ⟨0, s, h, rfl, .freeNull, hold⟩
    · obtain ⟨s', hfree, hheld⟩ := free_holds hA hold hp
      refine ⟨0, s', _, ?_, .free hp, hheld⟩
      rw [State.act, hfree, Option.map_some]
  | realloc p n =>
    obtain ⟨hn, rfl | ⟨bytes, hp⟩⟩ := hvalid
    · obtain ⟨h', hstep, hheld⟩ := hmalloc hn
      exact ⟨_, _, h', rfl, .reallocNull hstep, hheld⟩
    · have hnull : p ≠ 0 := by
        have hroom := (hold p bytes hp).room
        simp only [cHdr] at hroom
        omega
      rw [State.act, realloc, if_neg hnull]
      by_cases hzero : n = 0
      · subst hzero
        obtain ⟨s', hfree, hheld⟩ := free_holds hA hold hp
        rw [if_pos rfl, hfree]
        exact ⟨0, s', _, rfl, .reallocZero hp, hheld⟩
      · rw [if_neg hzero]
        rcases malloc_given hA hold hn with ⟨hfail, hheld⟩ | ⟨-, hfresh, fresh, hlen, hheld⟩
        · simp only [hfail]
          exact ⟨0, _, h, rfl, .reallocFails, hheld⟩
        · obtain ⟨s'', rest, hrest, hmoved, hdone⟩ := realloc_moves hA hp hfresh hlen hheld
          simp only [if_neg hfresh.ne_null]
          exact ⟨_, s'', _, hmoved, .realloc hzero hp hfresh hrest, hdone⟩
  | write p i bs =>
    obtain ⟨bytes, hp, hfit⟩ := hvalid
    exact ⟨0, _, _, rfl, .write hp hfit, hold.write hA hp hfit⟩
  | other a mem =>
    refine ⟨0, ⟨a, mem⟩, h, rfl, .other a mem, fun p bytes hp => ?_⟩
    obtain ⟨hlive, hmem⟩ := hvalid p bytes hp
    exact (hold p bytes hp).frame hlive hmem

/-- Whatever the allocator answers, valid C code finds the heap as promised: no call leaves what the
contract of the allocator defines, no two blocks overlap, and the blocks keep their bytes, also when
they move. -/
theorem heap_refines (acts : List (Act σ)) (hold : Holds A s h) (hvalid : ValidRun A s h acts) :
    ∃ rs s' h', s.run A acts = some (rs, s') ∧ Heap.Steps h acts rs h' ∧ Holds A s' h' := by
  induction acts generalizing s h with
  | nil => exact ⟨[], s, h, rfl, .nil h, hold⟩
  | cons a as ih =>
    obtain ⟨hnow, hlater⟩ := hvalid
    obtain ⟨r, s₁, h₁, hact, hstep, hheld⟩ := act_refines hA hold hnow
    obtain ⟨rs, s₂, h₂, hrun, hsteps, hdone⟩ := ih hheld (hlater r s₁ h₁ hact hstep)
    refine ⟨r :: rs, s₂, h₂, ?_, .cons hstep hsteps, hdone⟩
    rw [State.run, hact, Option.bind_some, hrun, Option.map_some]

end Calls

section Sample

def slotAt (b : Bool) : ℕ := if b then 8192 else 4096

def slotOf (p : ℕ) : Option Bool :=
  if p = 4096 then some false else if p = 8192 then some true else none

def emptySlot (a : Bool → Option Layout) : Option Bool :=
  if a false = none then some false else if a true = none then some true else none

def slots : Allocator (Bool → Option Layout) where
  alloc a mem l :=
    match emptySlot a with
    | some b =>
      if l.size ≤ 4096 ∧ l.align ∣ 4096 then (some (slotAt b), Function.update a b (some l), mem)
        else (none, a, mem)
    | none => (none, a, mem)
  dealloc a mem p l :=
    (slotOf p).bind fun b => if a b = some l then some (Function.update a b none, mem) else none
  live a := {x | ∃ b, a b = some x.2 ∧ x.1 = slotAt b ∧ x.2.size ≤ 4096}

theorem slotOf_slotAt (b : Bool) : slotOf (slotAt b) = some b := by cases b <;> rfl

theorem slotAt_inj {b c : Bool} (h : slotAt b = slotAt c) : b = c := by
  have hslot := congrArg slotOf h
  rw [slotOf_slotAt, slotOf_slotAt] at hslot
  exact Option.some.inj hslot

theorem emptySlot_some {a : Bool → Option Layout} {b : Bool} (h : emptySlot a = some b) :
    a b = none := by
  simp only [emptySlot] at h
  split_ifs at h with hfirst hsecond
  · exact Option.some.inj h ▸ hfirst
  · exact Option.some.inj h ▸ hsecond

theorem slots_lawful : slots.Lawful := by
  refine ⟨?_, ?_, ?_, ?_, ?_⟩
  · rintro a p l q m ⟨b, hb, rfl, hl⟩ ⟨c, hc, rfl, hm⟩ hne
    have hbc : b ≠ c := by
      rintro rfl
      have hsame : l = m := Option.some.inj (hb.symm.trans hc)
      exact hne (by rw [hsame])
    simp only at hl hm
    simp only [Apart, slotAt]
    cases b <;> cases c <;> simp only [Bool.false_eq_true, if_true, if_false, ne_eq,
      not_true_eq_false] at hbc ⊢ <;> omega
  · intro a mem l a' mem' hcall
    simp only [slots] at hcall
    split at hcall
    · split_ifs at hcall
      · cases hcall
      · rw [(Prod.mk.inj (Prod.mk.inj hcall).2).1]
    · rw [(Prod.mk.inj (Prod.mk.inj hcall).2).1]
  · intro a mem l p a' mem' hcall
    simp only [slots] at hcall
    split at hcall
    · next b hempty =>
      split_ifs at hcall with hfits
      · obtain ⟨hp, hrest⟩ := Prod.mk.inj hcall
        obtain ⟨rfl, rfl⟩ := Prod.mk.inj hrest
        obtain rfl := Option.some.inj hp
        have hnone := emptySlot_some hempty
        refine ⟨?_, ?_, ?_, ?_⟩
        · rintro ⟨c, hc, hslot, -⟩
          rw [← slotAt_inj hslot, hnone] at hc
          cases hc
        · ext ⟨q, m⟩
          constructor
          · rintro ⟨c, hc, hq, hm⟩
            by_cases hcb : c = b
            · subst hcb
              rw [Function.update_self] at hc
              exact .inl (Prod.ext hq (Option.some.inj hc).symm)
            · rw [Function.update_of_ne hcb] at hc
              exact .inr ⟨c, hc, hq, hm⟩
          · rintro (heq | ⟨c, hc, hq, hm⟩)
            · obtain ⟨rfl, rfl⟩ := Prod.mk.inj heq
              exact ⟨b, Function.update_self .., rfl, hfits.1⟩
            · have hcb : c ≠ b := by
                rintro rfl
                rw [hnone] at hc
                cases hc
              exact ⟨c, (Function.update_of_ne hcb ..).trans hc, hq, hm⟩
        · exact hfits.2.trans (by cases b <;> decide)
        · have hsize := hfits.1
          cases b
          · show 4096 + l.size ≤ 2 ^ 64
            omega
          · show 8192 + l.size ≤ 2 ^ 64
            omega
      · cases hcall
    · cases hcall
  · intro a mem l q m x _ _
    simp only [slots]
    split
    · split_ifs <;> rfl
    · rfl
  · rintro a mem p l ⟨b, hb, rfl, hl⟩
    simp only at hb
    refine ⟨Function.update a b none, mem, ?_, ?_, fun _ _ _ _ _ => rfl⟩
    · simp only [slots, slotOf_slotAt, Option.bind_some, if_pos hb]
    · ext ⟨q, m⟩
      constructor
      · rintro ⟨c, hc, hq, hm⟩
        have hcb : c ≠ b := by
          rintro rfl
          rw [Function.update_self] at hc
          cases hc
        rw [Function.update_of_ne hcb] at hc
        refine ⟨⟨c, hc, hq, hm⟩, fun heq => hcb (slotAt_inj ?_)⟩
        exact hq.symm.trans (congrArg Prod.fst (Set.mem_singleton_iff.mp heq))
      · rintro ⟨⟨c, hc, hq, hm⟩, hne⟩
        have hcb : c ≠ b := by
          rintro rfl
          exact hne (Prod.ext hq (Option.some.inj (hc.symm.trans hb)))
        exact ⟨c, (Function.update_of_ne hcb ..).trans hc, hq, hm⟩

def emptyHeap : State (Bool → Option Layout) := ⟨fun _ => none, fun _ => 0⟩

def growBlock : List (Act (Bool → Option Layout)) :=
  [.malloc 3, .write 4112 0 [1, 2, 3], .realloc 4112 5]

theorem growBlock_valid : ValidRun slots emptyHeap (fun _ => none) growBlock := by
  refine ⟨show 3 < 2 ^ 64 by norm_num, fun r s' h' hact hstep => ?_⟩
  have hr : (malloc slots emptyHeap 3).1 = r := (Prod.mk.inj (Option.some.inj hact)).1
  have h4112 : (malloc slots emptyHeap 3).1 = 4112 := by decide
  rw [h4112] at hr
  have hblock : ∃ bytes, h' 4112 = some bytes ∧ bytes.length = 3 := by
    cases hstep with
    | noMemory => cases hr
    | malloc hzero hfresh hlen =>
      subst hr
      exact ⟨_, Function.update_self .., hlen⟩
  obtain ⟨bytes, hbytes, hlen⟩ := hblock
  refine ⟨⟨bytes, hbytes, by rw [hlen]; decide⟩, fun r s'' h'' _ hstep' => ?_⟩
  cases hstep' with
  | write hp hfit =>
    exact ⟨⟨show 5 < 2 ^ 64 by norm_num, .inr ⟨_, Function.update_self ..⟩⟩,
      fun _ _ _ _ _ => trivial⟩

theorem growBlock_moves :
    ∃ rs s' h', emptyHeap.run slots growBlock = some (rs, s') ∧ rs = [4112, 0, 8208] ∧
    bytesAt s'.mem 8208 3 = [1, 2, 3] ∧ Heap.Steps (fun _ => none) growBlock rs h' ∧
    Holds slots s' h' := by
  obtain ⟨rs, s', h', hrun, hsteps, hheld⟩ :=
    heap_refines slots_lawful growBlock (fun _ _ hp => by cases hp) growBlock_valid
  have hresults : (emptyHeap.run slots growBlock).map (·.1) = some [4112, 0, 8208] := by decide
  have hbytes : (emptyHeap.run slots growBlock).map (fun r => bytesAt r.2.mem 8208 3) =
      some [1, 2, 3] := by decide
  rw [hrun, Option.map_some] at hresults hbytes
  exact ⟨rs, s', h', hrun, Option.some.inj hresults, Option.some.inj hbytes, hsteps, hheld⟩

end Sample

end CoeleoOs.Mem.CHeap
