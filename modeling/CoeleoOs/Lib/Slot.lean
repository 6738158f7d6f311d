import Mathlib.Data.List.Basic

/-!
# Buffers of a fixed size

A slot is a buffer of `cap` cells of which the first `len` are in use. `store` copies over the
front of the buffer, so that what was behind stays there but is not read.
-/

namespace CoeleoOs.Lib

structure Slot (α : Type*) (cap : ℕ) where
  buf : List α
  len : ℕ
  buf_length : buf.length = cap
  len_le : len ≤ cap

namespace Slot

variable {α : Type*} {cap : ℕ}

def filled (cap : ℕ) (x : α) : Slot α cap :=
  ⟨List.replicate cap x, 0, List.length_replicate, Nat.zero_le cap⟩

def text (s : Slot α cap) : List α := s.buf.take s.len

def store (s : Slot α cap) (src : List α) (h : src.length ≤ cap) : Slot α cap where
  buf := src ++ s.buf.drop src.length
  len := src.length
  buf_length := by
    rw [List.length_append, List.length_drop, s.buf_length]
    omega
  len_le := h

theorem text_length (s : Slot α cap) : s.text.length = s.len := by
  rw [text, List.length_take, s.buf_length, Nat.min_eq_left s.len_le]

theorem text_length_le (s : Slot α cap) : s.text.length ≤ cap := s.text_length ▸ s.len_le

theorem text_store (s : Slot α cap) (src : List α) (h : src.length ≤ cap) :
    (s.store src h).text = src :=
  List.take_left

end Slot

end CoeleoOs.Lib
