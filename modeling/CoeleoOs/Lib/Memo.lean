import Mathlib.Data.List.Rotate

/-!
# Tables of the last entries

A table of `n` slots for pairs of a key and a value whose slots are replaced in turn. `log` has the
entries that were stored, the newest first. As long as no key is stored while the table has an entry
for it, a scan of the table finds what the last `n` entries have.
-/

namespace CoeleoOs.Lib.Memo

variable {κ α : Type*} {n next : ℕ} {slots : List (Option (κ × α))} {log : List (κ × α)}
    {k : κ} {v : α}

def scan [DecidableEq κ] (slots : List (Option (κ × α))) (k : κ) : Option α :=
  slots.findSome? fun slot => slot.bind fun e => if e.1 = k then some e.2 else none

def Single (slots : List (Option (κ × α))) : Prop :=
  ∀ k v w, some (k, v) ∈ slots → some (k, w) ∈ slots → v = w

def shown (n : ℕ) (log : List (κ × α)) : List (Option (κ × α)) :=
  (log.map some ++ List.replicate n none).take n

structure Holds (n : ℕ) (slots : List (Option (κ × α))) (next : ℕ) (log : List (κ × α)) : Prop where
  size : slots.length = n
  next_lt : next < n
  order : (slots.rotate next).reverse = shown n log
  single : Single slots

theorem mem_shown {e : κ × α} : some e ∈ shown n log ↔ e ∈ log.take n := by
  have hnone : some e ∉ (List.replicate n (none : Option (κ × α))).take (n - log.length) := by
    intro h
    have hmem := List.eq_of_mem_replicate (List.mem_of_mem_take h)
    cases hmem
  rw [shown, List.take_append, List.length_map, List.mem_append, or_iff_left hnone, ← List.map_take,
    List.mem_map]
  constructor
  · rintro ⟨x, hx, heq⟩
    exact Option.some.inj heq ▸ hx
  · intro he
    exact ⟨e, he, rfl⟩

theorem shown_cons (hn : 0 < n) (e : κ × α) :
    shown n (e :: log) = some e :: (shown n log).dropLast := by
  obtain ⟨m, rfl⟩ : ∃ m, n = m + 1 := ⟨n - 1, by omega⟩
  have hlen : (shown (m + 1) log).length = m + 1 := by
    rw [shown, List.length_take, List.length_append, List.length_replicate]
    omega
  rw [List.dropLast_eq_take, hlen, shown, shown, List.map_cons, List.cons_append,
    List.take_succ_cons, List.take_take, Nat.add_sub_cancel, Nat.min_eq_left (Nat.le_succ m)]

theorem Holds.mem (h : Holds n slots next log) {e : κ × α} : some e ∈ slots ↔ e ∈ log.take n := by
  rw [← mem_shown, ← h.order, List.mem_reverse, List.mem_rotate]

theorem holds_empty (hn : 0 < n) : Holds n (List.replicate n (none : Option (κ × α))) 0 [] := by
  refine ⟨List.length_replicate, hn, ?_, ?_⟩
  · rw [List.rotate_zero, List.reverse_replicate, shown, List.map_nil, List.nil_append,
      List.take_of_length_le]
    rw [List.length_replicate]
  · intro k v w hv
    have hmem := List.eq_of_mem_replicate hv
    cases hmem

section Scan

variable [DecidableEq κ]

theorem scan_some (hs : Single slots) : scan slots k = some v ↔ some (k, v) ∈ slots := by
  constructor
  · intro h
    obtain ⟨slot, hslot, hbind⟩ := List.exists_of_findSome?_eq_some h
    obtain ⟨⟨k', v'⟩, rfl, hkey⟩ := Option.bind_eq_some_iff.mp hbind
    obtain ⟨rfl, hv⟩ := Option.ite_none_right_eq_some.mp hkey
    exact Option.some.inj hv ▸ hslot
  · intro h
    rcases hscan : scan slots k with _ | w
    · have hnone := List.findSome?_eq_none_iff.mp hscan _ h
      rw [Option.bind_some, if_pos rfl] at hnone
      cases hnone
    · obtain ⟨slot, hslot, hbind⟩ := List.exists_of_findSome?_eq_some hscan
      obtain ⟨⟨k', v'⟩, rfl, hkey⟩ := Option.bind_eq_some_iff.mp hbind
      obtain ⟨rfl, hv⟩ := Option.ite_none_right_eq_some.mp hkey
      obtain rfl := Option.some.inj hv
      rw [hs k' v v' h hslot]

theorem Holds.scan_some (h : Holds n slots next log) :
    scan slots k = some v ↔ (k, v) ∈ log.take n := by
  rw [Memo.scan_some h.single, h.mem]

theorem Holds.store (h : Holds n slots next log) (hnew : scan slots k = none) (v : α) :
    Holds n (slots.set next (some (k, v))) ((next + 1) % n) ((k, v) :: log) := by
  have hn : 0 < n := Nat.zero_lt_of_lt h.next_lt
  have hnext : next < slots.length := by rw [h.size]; exact h.next_lt
  refine ⟨by rw [List.length_set, h.size], Nat.mod_lt _ hn, ?_, ?_⟩
  · have hrotate : (slots.set next (some (k, v))).rotate ((next + 1) % n) =
        (slots.rotate next).tail ++ [some (k, v)] := by
      have hlen : (slots.set next (some (k, v))).length = slots.length := List.length_set
      have hsize : (slots.set next (some (k, v))).length = n := by rw [hlen, h.size]
      rw [← hsize, List.rotate_mod, List.rotate_eq_drop_append_take (by omega),
        List.rotate_eq_drop_append_take hnext.le, List.drop_set_of_lt (Nat.lt_succ_self next),
        List.drop_eq_getElem_cons hnext, List.cons_append, List.tail_cons, List.append_assoc]
      congr 1
      rw [List.take_succ_eq_append_getElem (by omega), List.take_set_of_le (le_refl next),
        List.getElem_set_self]
    rw [hrotate, List.reverse_append, List.reverse_singleton, List.singleton_append,
      shown_cons hn, ← h.order, List.dropLast_reverse]
  · intro k' a b ha hb
    have hold : ∀ {w}, some (k, w) ∉ slots := by
      intro w hw
      rw [(Memo.scan_some h.single).mpr hw] at hnew
      cases hnew
    rcases List.mem_or_eq_of_mem_set ha with hold₁ | hnew₁
    · rcases List.mem_or_eq_of_mem_set hb with hold₂ | hnew₂
      · exact h.single k' a b hold₁ hold₂
      · obtain ⟨rfl, -⟩ := Prod.mk.inj (Option.some.inj hnew₂)
        exact absurd hold₁ hold
    · obtain ⟨rfl, rfl⟩ := Prod.mk.inj (Option.some.inj hnew₁)
      rcases List.mem_or_eq_of_mem_set hb with hold₂ | hnew₂
      · exact absurd hold₂ hold
      · exact (Prod.mk.inj (Option.some.inj hnew₂)).2.symm

end Scan

end CoeleoOs.Lib.Memo
