import CoeleoOs.Lib.Ring
import CoeleoOs.Lib.Table

/-!
# Pipe rings

The four kernel pipes of `pipe.rs`. A pipe id is an index of the table, so the
`get_mut` miss of the source has no counterpart. The end counts are `u8` in the
source: `cloneEnd` refuses the 256th end, `dropEnd` saturates at zero.

`Exact ps cnt` says that every end count is the number `cnt` of descriptors that
refer to it and that a pipe is in use exactly while one of them exists. The
three operations that change counts keep it.
-/

namespace CoeleoOs.Task
open CoeleoOs.Lib

abbrev pipeMax : ℕ := 4
abbrev pipeCap : ℕ := 4096

structure Pipe where
  used : Bool
  buf : Fin pipeCap → UInt8
  head : ℕ
  len : ℕ
  nReaders : ℕ
  nWriters : ℕ

abbrev PipeId := Fin pipeMax
abbrev Pipes := PipeId → Pipe

namespace Pipe

def empty : Pipe := ⟨false, fun _ => 0, 0, 0, 0, 0⟩

def fresh : Pipe := ⟨true, fun _ => 0, 0, 0, 1, 1⟩

def alloc (ps : Pipes) : Option (PipeId × Pipes) :=
  match Table.position fun i => !(ps i).used with
  | some i => some (i, Function.update ps i fresh)
  | none => none

def cloneEnd (ps : Pipes) (id : PipeId) (write : Bool) : Option Pipes :=
  let p := ps id
  if p.used = false then none
  else if write then
    if p.nWriters < 255 then some (Function.update ps id { p with nWriters := p.nWriters + 1 })
    else none
  else
    if p.nReaders < 255 then some (Function.update ps id { p with nReaders := p.nReaders + 1 })
    else none

def dropEnd (ps : Pipes) (id : PipeId) (write : Bool) : Pipes :=
  let p := ps id
  if p.used = false then ps
  else
    let p := if write then { p with nWriters := p.nWriters - 1 }
      else { p with nReaders := p.nReaders - 1 }
    if p.nReaders = 0 ∧ p.nWriters = 0 then Function.update ps id empty
    else Function.update ps id p

/-- `data` carries the bytes that the source stores in the caller's buffer. -/
inductive Read
  | data (got : List UInt8)
  | eof
  | wouldBlock
  deriving DecidableEq

inductive Write
  | data (n : ℕ)
  | wouldBlock
  | broken
  deriving DecidableEq

def read (ps : Pipes) (id : PipeId) (n : ℕ) : Read × Pipes :=
  if n = 0 then (.data [], ps)
  else
    let p := ps id
    if p.used = false then (.eof, ps)
    else if p.len = 0 then
      (if p.nWriters = 0 then .eof else .wouldBlock, ps)
    else
      let m := min n p.len
      (.data (Ring.contents p.buf p.head m),
        Function.update ps id { p with head := (p.head + m) % pipeCap, len := p.len - m })

def write (ps : Pipes) (id : PipeId) (src : List UInt8) : Write × Pipes :=
  if src = [] then (.data 0, ps)
  else
    let p := ps id
    if p.used = false then (.broken, ps)
    else if p.nReaders = 0 then (.broken, ps)
    else if p.len = pipeCap then (.wouldBlock, ps)
    else
      let n := min src.length (pipeCap - p.len)
      let tail := (p.head + p.len) % pipeCap
      (.data n,
        Function.update ps id { p with
          buf := Ring.store p.buf tail (src.take n), len := p.len + n })

theorem read_length_le {ps : Pipes} {id : PipeId} {n : ℕ} {got : List UInt8}
    (h : (read ps id n).1 = .data got) : got.length ≤ n := by
  unfold read at h
  grind [Ring.contents_length]

def ends (p : Pipe) (write : Bool) : ℕ := if write then p.nWriters else p.nReaders

def contents (p : Pipe) : List UInt8 := Ring.contents p.buf p.head p.len

def single (i : PipeId) (w : Bool) (j : PipeId) (v : Bool) : ℕ := if j = i ∧ v = w then 1 else 0

structure Exact (ps : Pipes) (cnt : PipeId → Bool → ℕ) : Prop where
  ends_eq : ∀ i w, (ps i).ends w = cnt i w
  used_iff : ∀ i, (ps i).used = true ↔ cnt i false + cnt i true ≠ 0

variable {ps ps' : Pipes} {cnt cnt' : PipeId → Bool → ℕ} {id : PipeId} {w : Bool}

theorem Exact.nReaders_eq (h : Exact ps cnt) (i : PipeId) : (ps i).nReaders = cnt i false := by
  simpa [ends] using h.ends_eq i false

theorem Exact.nWriters_eq (h : Exact ps cnt) (i : PipeId) : (ps i).nWriters = cnt i true := by
  simpa [ends] using h.ends_eq i true

theorem Exact.used_of_pos (h : Exact ps cnt) (hpos : 0 < cnt id w) : (ps id).used = true := by
  apply (h.used_iff id).mpr
  cases w <;> omega

theorem Exact.congr (h : Exact ps cnt) (hc : ∀ i v, cnt' i v = cnt i v) : Exact ps cnt' := by
  refine ⟨fun i v => ?_, fun i => ?_⟩
  · rw [h.ends_eq, hc]
  · rw [h.used_iff, hc, hc]

theorem exact_update {p : Pipe} (h : Exact ps cnt) (hsame : ∀ i ≠ id, ∀ v, cnt' i v = cnt i v)
    (hends : ∀ v, p.ends v = cnt' id v)
    (hused : p.used = true ↔ cnt' id false + cnt' id true ≠ 0) :
    Exact (Function.update ps id p) cnt' := by
  refine ⟨fun i v => ?_, fun i => ?_⟩
  · by_cases hi : i = id
    · subst hi
      rw [Function.update_self, hends]
    · rw [Function.update_of_ne hi, h.ends_eq, hsame i hi]
  · by_cases hi : i = id
    · subst hi
      rw [Function.update_self, hused]
    · rw [Function.update_of_ne hi, h.used_iff, hsame i hi, hsame i hi]

theorem alloc_some {i : PipeId} (h : alloc ps = some (i, ps')) :
    (ps i).used = false ∧ ps' = Function.update ps i fresh := by
  unfold alloc at h
  split at h
  · rename_i j hj
    obtain ⟨rfl, rfl⟩ := Prod.mk.inj (Option.some.inj h)
    exact ⟨by simpa using Table.position_some hj, rfl⟩
  · simp at h

theorem alloc_exact {i : PipeId} (h : Exact ps cnt) (ha : alloc ps = some (i, ps'))
    (hc : ∀ j v, cnt' j v = cnt j v + single i false j v + single i true j v) :
    Exact ps' cnt' := by
  obtain ⟨hu, rfl⟩ := alloc_some ha
  have hzero : cnt i false + cnt i true = 0 := by
    by_contra hne
    have := (h.used_iff i).mpr hne
    simp [hu] at this
  refine exact_update h (fun j hj v => ?_) (fun v => ?_) ?_
  · simp [hc, single, hj]
  · cases v <;> simp [hc, single, ends, fresh] <;> omega
  · simp [hc, single, fresh]

theorem cloneEnd_some (h : cloneEnd ps id w = some ps') :
    (ps id).used = true ∧ ps' = Function.update ps id
      (if w then { ps id with nWriters := (ps id).nWriters + 1 }
        else { ps id with nReaders := (ps id).nReaders + 1 }) := by
  unfold cloneEnd at h
  cases w <;> simp only [Bool.false_eq_true, if_false, if_true] at h ⊢ <;>
    split_ifs at h with hu hlt <;>
    exact ⟨by simpa using hu, (Option.some.inj h).symm⟩

theorem cloneEnd_exact (h : Exact ps cnt) (hcl : cloneEnd ps id w = some ps')
    (hc : ∀ j v, cnt' j v = cnt j v + single id w j v) : Exact ps' cnt' := by
  obtain ⟨hu, rfl⟩ := cloneEnd_some hcl
  have hne := (h.used_iff id).mp hu
  have hr := h.nReaders_eq id
  have hw := h.nWriters_eq id
  refine exact_update h (fun j hj v => by simp [hc, single, hj]) (fun v => ?_) ?_
  · cases w <;> cases v <;> simp [hc, single, ends, hr, hw]
  · cases w <;> simp [hc, single, hu]

theorem dropEnd_exact (h : Exact ps cnt)
    (hc : ∀ j v, cnt j v = cnt' j v + single id w j v) : Exact (dropEnd ps id w) cnt' := by
  have hu := h.used_of_pos (by simp [hc, single] : 0 < cnt id w)
  have hr := h.nReaders_eq id
  have hw := h.nWriters_eq id
  have hother : ∀ j ≠ id, ∀ v, cnt' j v = cnt j v := fun j hj v => by simp [hc, single, hj]
  rw [hc] at hr hw
  cases w with
  | false =>
    simp only [dropEnd, hu, Bool.true_eq_false, Bool.false_eq_true, if_false]
    simp only [single, and_self, if_true, Bool.true_eq_false, and_false, if_false] at hr hw
    split_ifs with hz
    · refine exact_update h hother (fun v => ?_) ?_
      · cases v <;> simp [ends, empty] <;> omega
      · simp [empty]; omega
    · refine exact_update h hother (fun v => ?_) ?_
      · cases v <;> simp [ends] <;> omega
      · simp; omega
  | true =>
    simp only [dropEnd, hu, Bool.true_eq_false, if_true, if_false]
    simp only [single, and_self, if_true, Bool.false_eq_true, and_false, if_false] at hr hw
    split_ifs with hz
    · refine exact_update h hother (fun v => ?_) ?_
      · cases v <;> simp [ends, empty] <;> omega
      · simp [empty]; omega
    · refine exact_update h hother (fun v => ?_) ?_
      · cases v <;> simp [ends] <;> omega
      · simp; omega

def DataKept (ps ps' : Pipes) : Prop :=
  ∀ i, ((ps' i).used = false ∧ (ps' i).len = 0) ∨ ((ps' i).used = (ps i).used ∧
    (ps' i).buf = (ps i).buf ∧ (ps' i).head = (ps i).head ∧ (ps' i).len = (ps i).len)

theorem DataKept.refl (ps : Pipes) : DataKept ps ps := fun _ => Or.inr ⟨rfl, rfl, rfl, rfl⟩

theorem DataKept.trans {ps'' : Pipes} (h : DataKept ps ps') (h' : DataKept ps' ps'') :
    DataKept ps ps'' := by
  intro i
  rcases h' i with hfree | ⟨hu', hb', hh', hl'⟩
  · exact Or.inl hfree
  · rw [hu', hb', hh', hl']
    exact h i

theorem DataKept.of_used (h : DataKept ps ps') (hu : (ps' id).used = true) :
    (ps id).used = true ∧ (ps' id).len = (ps id).len ∧ (ps' id).contents = (ps id).contents := by
  rcases h id with ⟨hfree, -⟩ | ⟨hu', hb, hh, hl⟩
  · simp [hu] at hfree
  · exact ⟨hu' ▸ hu, hl, by rw [contents, hb, hh, hl, contents]⟩

theorem dataKept_update {p : Pipe} (h : (p.used = false ∧ p.len = 0) ∨
    (p.used = (ps id).used ∧ p.buf = (ps id).buf ∧ p.head = (ps id).head ∧ p.len = (ps id).len)) :
    DataKept ps (Function.update ps id p) := by
  intro i
  by_cases hi : i = id
  · subst hi
    rw [Function.update_self]
    exact h
  · rw [Function.update_of_ne hi]
    exact Or.inr ⟨rfl, rfl, rfl, rfl⟩

theorem cloneEnd_dataKept (h : cloneEnd ps id w = some ps') : DataKept ps ps' := by
  obtain ⟨-, rfl⟩ := cloneEnd_some h
  refine dataKept_update (Or.inr ?_)
  cases w <;> exact ⟨rfl, rfl, rfl, rfl⟩

theorem dropEnd_dataKept (ps : Pipes) (id : PipeId) (w : Bool) : DataKept ps (dropEnd ps id w) := by
  unfold dropEnd
  simp only
  split
  · exact .refl ps
  · cases w with
    | false | true =>
      simp only [Bool.false_eq_true, if_false, if_true]
      split
      · exact dataKept_update (Or.inl ⟨rfl, rfl⟩)
      · exact dataKept_update (Or.inr ⟨rfl, rfl, rfl, rfl⟩)

theorem read_cases (ps : Pipes) (id : PipeId) (n : ℕ) :
    (n = 0 ∧ read ps id n = (.data [], ps)) ∨
      (0 < n ∧ ((ps id).used = false ∨ (ps id).len = 0 ∧ (ps id).nWriters = 0) ∧
        read ps id n = (.eof, ps)) ∨
      (0 < n ∧ (ps id).used = true ∧ (ps id).len = 0 ∧ 0 < (ps id).nWriters ∧
        read ps id n = (.wouldBlock, ps)) ∨
      (0 < n ∧ (ps id).used = true ∧ 0 < (ps id).len ∧
        read ps id n = (.data (Ring.contents (ps id).buf (ps id).head (min n (ps id).len)),
          Function.update ps id { ps id with
            head := ((ps id).head + min n (ps id).len) % pipeCap
            len := (ps id).len - min n (ps id).len })) := by
  unfold read
  rcases Nat.eq_zero_or_pos n with hn | hn
  · exact Or.inl ⟨hn, if_pos hn⟩
  · rw [if_neg (Nat.ne_of_gt hn)]
    cases hu : (ps id).used with
    | false => exact Or.inr (Or.inl ⟨hn, Or.inl rfl, by simp [hu]⟩)
    | true =>
      rcases Nat.eq_zero_or_pos (ps id).len with hl | hl
      · rcases Nat.eq_zero_or_pos (ps id).nWriters with hw | hw
        · exact Or.inr (Or.inl ⟨hn, Or.inr ⟨hl, hw⟩, by simp [hu, hl, hw]⟩)
        · exact Or.inr (Or.inr (Or.inl ⟨hn, rfl, hl, hw, by simp [hu, hl, Nat.ne_of_gt hw]⟩))
      · exact Or.inr (Or.inr (Or.inr ⟨hn, rfl, hl, by simp [hu, Nat.ne_of_gt hl]⟩))

theorem write_cases (ps : Pipes) (id : PipeId) (src : List UInt8) :
    (src = [] ∧ write ps id src = (.data 0, ps)) ∨
      (src ≠ [] ∧ ((ps id).used = false ∨ (ps id).nReaders = 0) ∧
        write ps id src = (.broken, ps)) ∨
      (src ≠ [] ∧ (ps id).used = true ∧ 0 < (ps id).nReaders ∧ (ps id).len = pipeCap ∧
        write ps id src = (.wouldBlock, ps)) ∨
      (src ≠ [] ∧ (ps id).used = true ∧ 0 < (ps id).nReaders ∧ (ps id).len ≠ pipeCap ∧
        write ps id src = (.data (min src.length (pipeCap - (ps id).len)),
          Function.update ps id { ps id with
            buf := Ring.store (ps id).buf (((ps id).head + (ps id).len) % pipeCap)
              (src.take (min src.length (pipeCap - (ps id).len)))
            len := (ps id).len + min src.length (pipeCap - (ps id).len) })) := by
  unfold write
  by_cases hs : src = []
  · exact Or.inl ⟨hs, if_pos hs⟩
  · rw [if_neg hs]
    cases hu : (ps id).used with
    | false => exact Or.inr (Or.inl ⟨hs, Or.inl rfl, by simp [hu]⟩)
    | true =>
      rcases Nat.eq_zero_or_pos (ps id).nReaders with hr | hr
      · exact Or.inr (Or.inl ⟨hs, Or.inr hr, by simp [hu, hr]⟩)
      · by_cases hl : (ps id).len = pipeCap
        · exact Or.inr (Or.inr (Or.inl ⟨hs, rfl, hr, hl, by simp [hu, hl, Nat.ne_of_gt hr]⟩))
        · exact Or.inr (Or.inr (Or.inr ⟨hs, rfl, hr, hl, by simp [hu, hl, Nat.ne_of_gt hr]⟩))

theorem read_eof {n : ℕ} (h : (read ps id n).1 = .eof) :
    (read ps id n).2 = ps ∧ ((ps id).used = false ∨ (ps id).len = 0 ∧ (ps id).nWriters = 0) := by
  rcases read_cases ps id n with ⟨-, hr⟩ | ⟨-, hc, hr⟩ | ⟨-, -, -, -, hr⟩ | ⟨-, -, -, hr⟩ <;>
    simp [hr] at h ⊢
  exact hc

theorem read_wouldBlock {n : ℕ} (h : (read ps id n).1 = .wouldBlock) :
    (read ps id n).2 = ps ∧ 0 < n ∧ (ps id).used = true ∧ (ps id).len = 0 ∧
    0 < (ps id).nWriters := by
  rcases read_cases ps id n with ⟨-, hr⟩ | ⟨-, -, hr⟩ | ⟨hn, hu, hl, hw, hr⟩ | ⟨-, -, -, hr⟩ <;>
    simp [hr] at h ⊢
  exact ⟨hn, hu, hl, hw⟩

theorem write_broken {src : List UInt8} (h : (write ps id src).1 = .broken) :
    (write ps id src).2 = ps ∧ ((ps id).used = false ∨ (ps id).nReaders = 0) := by
  rcases write_cases ps id src with ⟨-, hr⟩ | ⟨-, hc, hr⟩ | ⟨-, -, -, -, hr⟩ | ⟨-, -, -, -, hr⟩ <;>
    simp [hr] at h ⊢
  exact hc

theorem write_wouldBlock {src : List UInt8} (h : (write ps id src).1 = .wouldBlock) :
    (write ps id src).2 = ps ∧ src ≠ [] ∧ (ps id).used = true ∧ 0 < (ps id).nReaders ∧
      (ps id).len = pipeCap := by
  rcases write_cases ps id src with ⟨-, hr⟩ | ⟨-, -, hr⟩ | ⟨hs, hu, hn, hl, hr⟩ |
      ⟨-, -, -, -, hr⟩ <;> simp [hr] at h ⊢
  exact ⟨hs, hu, hn, hl⟩

theorem read_of_ne {j : PipeId} (hj : j ≠ id) (n : ℕ) : (read ps id n).2 j = ps j := by
  rcases read_cases ps id n with ⟨-, hr⟩ | ⟨-, -, hr⟩ | ⟨-, -, -, -, hr⟩ | ⟨-, -, -, hr⟩ <;>
    simp [hr, Function.update_of_ne hj]

theorem write_of_ne {j : PipeId} (hj : j ≠ id) (src : List UInt8) :
    (write ps id src).2 j = ps j := by
  rcases write_cases ps id src with ⟨-, hr⟩ | ⟨-, -, hr⟩ | ⟨-, -, -, -, hr⟩ | ⟨-, -, -, -, hr⟩ <;>
    simp [hr, Function.update_of_ne hj]

theorem read_data {n : ℕ} {got : List UInt8} (h : (read ps id n).1 = .data got) :
    ((read ps id n).2 id).used = (ps id).used ∧
      (ps id).contents = got ++ ((read ps id n).2 id).contents ∧
      ((read ps id n).2 id).len ≤ (ps id).len ∧
      ((ps id).used = false → ((read ps id n).2 id).len = (ps id).len) ∧
      (0 < n → got ≠ []) := by
  rcases read_cases ps id n with ⟨hn, hr⟩ | ⟨-, -, hr⟩ | ⟨-, -, -, -, hr⟩ | ⟨hn, hu, hl, hr⟩ <;>
    rw [hr] at h ⊢
  · obtain rfl := Read.data.inj h
    exact ⟨rfl, rfl, le_rfl, fun _ => rfl, fun h0 => absurd h0 (by omega)⟩
  · simp at h
  · simp at h
  · obtain rfl := Read.data.inj h
    have hsplit : (ps id).len = min n (ps id).len + ((ps id).len - min n (ps id).len) := by omega
    refine ⟨by simp, ?_, by simp, fun hf => by simp [hf] at hu, fun _ hnil => ?_⟩
    · simp only [Function.update_self, contents, Ring.contents_mod]
      conv_lhs => rw [hsplit]
      exact Ring.contents_add _ _ _ _
    · have := congrArg List.length hnil
      rw [Ring.contents_length, List.length_nil] at this
      omega

theorem write_data {src : List UInt8} {r : ℕ} (hcap : (ps id).len ≤ pipeCap)
    (h : (write ps id src).1 = .data r) :
    ((write ps id src).2 id).used = (ps id).used ∧
      ((write ps id src).2 id).contents = (ps id).contents ++ src.take r ∧
      ((write ps id src).2 id).len ≤ pipeCap ∧
      ((ps id).used = false → ((write ps id src).2 id).len = (ps id).len) ∧
      r ≤ src.length ∧ (src ≠ [] → 0 < (ps id).nReaders) := by
  rcases write_cases ps id src with ⟨hs, hr⟩ | ⟨-, -, hr⟩ | ⟨-, -, -, -, hr⟩ |
      ⟨hs, hu, hn, hl, hr⟩ <;> rw [hr] at h ⊢
  · obtain rfl := Write.data.inj h
    exact ⟨rfl, by simp, hcap, fun _ => rfl, Nat.zero_le _, fun hne => absurd hs hne⟩
  · simp at h
  · simp at h
  · obtain rfl := Write.data.inj h
    have htake : (src.take (min src.length (pipeCap - (ps id).len))).length =
        min src.length (pipeCap - (ps id).len) := by
      rw [List.length_take]
      omega
    refine ⟨by simp, ?_, ?_, fun hf => by simp [hf] at hu, Nat.min_le_left _ _, fun _ => hn⟩
    · simp only [Function.update_self, contents, Ring.store_mod]
      have hstore := Ring.contents_store (ps id).buf (ps id).head (ps id).len
        (src.take (min src.length (pipeCap - (ps id).len))) (by rw [htake]; omega)
      rw [htake] at hstore
      exact hstore
    · simp only [Function.update_self]
      omega

theorem read_exact (h : Exact ps cnt) (id : PipeId) (n : ℕ) : Exact (read ps id n).2 cnt := by
  rcases read_cases ps id n with ⟨-, hr⟩ | ⟨-, -, hr⟩ | ⟨-, -, -, -, hr⟩ | ⟨-, -, -, hr⟩ <;> rw [hr]
  · exact h
  · exact h
  · exact h
  · exact exact_update h (fun _ _ _ => rfl) (h.ends_eq id) (h.used_iff id)

theorem write_exact (h : Exact ps cnt) (id : PipeId) (src : List UInt8) :
    Exact (write ps id src).2 cnt := by
  rcases write_cases ps id src with ⟨-, hr⟩ | ⟨-, -, hr⟩ | ⟨-, -, -, -, hr⟩ | ⟨-, -, -, -, hr⟩ <;>
    rw [hr]
  · exact h
  · exact h
  · exact h
  · exact exact_update h (fun _ _ _ => rfl) (h.ends_eq id) (h.used_iff id)

end Pipe

end CoeleoOs.Task
