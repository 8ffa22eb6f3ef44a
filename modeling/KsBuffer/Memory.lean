import Mathlib

/-! # Byte memory of a buffer allocation

The block that `ks_buffer` keeps in `data` is modelled as a total map from offsets
to bytes.  Offsets past the end of the allocation stand for whatever lies there, so
an out-of-bounds access of the C code is an access of the model at an offset at or
above `datalen`, never a crash of the model.  The two C library copies the source
uses, `memcpy` from a caller's bytes and `memmove` inside the block, are given by
what they leave at each offset.
-/

namespace KsBuffer

/-- Byte contents of a block, indexed from its start. -/
abbrev Bytes := Nat → UInt8

/-- The `n` bytes of `mem` from offset `start`: what `memcpy(dst, data + start, n)`
copies out of the block. -/
def slice (mem : Bytes) (start : Nat) : Nat → List UInt8
  | 0 => []
  | n + 1 => mem start :: slice mem (start + 1) n

/-- `memcpy(data + dst, src, src.length)` from a caller's bytes into the block. -/
def memcpy (mem : Bytes) (dst : Nat) (src : List UInt8) : Bytes := fun i =>
  if dst ≤ i then (src[i - dst]?).getD (mem i) else mem i

/-- `memmove(data + dst, data + src, n)` inside one block.  Every byte is taken from
the old contents, which is what `memmove` guarantees for overlapping ranges. -/
def memmove (mem : Bytes) (dst src n : Nat) : Bytes := fun i =>
  if dst ≤ i ∧ i < dst + n then mem (src + (i - dst)) else mem i

@[simp] theorem slice_zero (mem : Bytes) (start : Nat) : slice mem start 0 = [] := rfl

@[simp] theorem slice_length (mem : Bytes) (start n : Nat) :
    (slice mem start n).length = n := by
  induction n generalizing start with
  | zero => rfl
  | succ n ih => simp [slice, ih]

theorem slice_add (mem : Bytes) (start n k : Nat) :
    slice mem start (n + k) = slice mem start n ++ slice mem (start + n) k := by
  induction n generalizing start with
  | zero => simp
  | succ n ih =>
      rw [Nat.succ_add, slice, ih, slice, List.cons_append, Nat.add_right_comm,
        Nat.add_assoc start]

@[simp] theorem getElem_slice (mem : Bytes) (start n i : Nat) (h : i < (slice mem start n).length) :
    (slice mem start n)[i] = mem (start + i) := by
  induction n generalizing start i with
  | zero => simp at h
  | succ n ih =>
      cases i with
      | zero => rfl
      | succ i =>
          simp only [slice, List.getElem_cons_succ, ih]
          rw [Nat.add_right_comm, Nat.add_assoc start]

theorem slice_congr {mem mem' : Bytes} {start n : Nat}
    (h : ∀ i, start ≤ i → i < start + n → mem i = mem' i) :
    slice mem start n = slice mem' start n := by
  apply List.ext_getElem (by simp)
  intro i h₁ _
  simp only [getElem_slice]
  exact h _ (Nat.le_add_right _ _) (by simp at h₁; omega)

theorem slice_take (mem : Bytes) (start n k : Nat) :
    (slice mem start n).take k = slice mem start (min k n) := by
  apply List.ext_getElem (by simp)
  intro i _ _
  simp

theorem slice_drop (mem : Bytes) (start n k : Nat) :
    (slice mem start n).drop k = slice mem (start + min k n) (n - min k n) := by
  apply List.ext_getElem (by simp; omega)
  intro i h _
  simp only [List.length_drop, slice_length] at h
  simp [Nat.add_assoc, show min k n = k by omega]

theorem slice_eq_nil_iff {mem : Bytes} {start n : Nat} : slice mem start n = [] ↔ n = 0 := by
  rw [← List.length_eq_zero, slice_length]

/-! ## The copies -/

@[simp] theorem memcpy_of_lt {mem : Bytes} {dst i : Nat} (src : List UInt8) (h : i < dst) :
    memcpy mem dst src i = mem i := by
  simp [memcpy, Nat.not_le.mpr h]

theorem memcpy_of_le {mem : Bytes} {dst i : Nat} {src : List UInt8}
    (h : dst + src.length ≤ i) : memcpy mem dst src i = mem i := by
  simp [memcpy, List.getElem?_eq_none (show src.length ≤ i - dst by omega)]

theorem slice_memcpy_self (mem : Bytes) (dst : Nat) (src : List UInt8) :
    slice (memcpy mem dst src) dst src.length = src := by
  apply List.ext_getElem (by simp)
  intro i _ h
  simp [memcpy, h]

theorem slice_memcpy_of_le {mem : Bytes} {dst start n : Nat} (src : List UInt8)
    (h : start + n ≤ dst) : slice (memcpy mem dst src) start n = slice mem start n :=
  slice_congr fun i _ hi => memcpy_of_lt src (by omega)

theorem slice_memcpy_append (mem : Bytes) (start n : Nat) (src : List UInt8) :
    slice (memcpy mem (start + n) src) start (n + src.length) = slice mem start n ++ src := by
  rw [slice_add, slice_memcpy_of_le src (Nat.le_refl _), slice_memcpy_self]

@[simp] theorem memmove_self (mem : Bytes) (dst n : Nat) : memmove mem dst dst n = mem := by
  funext i
  simp only [memmove]
  split
  · congr 1; omega
  · rfl

theorem slice_memmove (mem : Bytes) (dst src n : Nat) :
    slice (memmove mem dst src n) dst n = slice mem src n := by
  apply List.ext_getElem (by simp)
  intro i h _
  simp only [slice_length] at h
  simp [memmove, h]

end KsBuffer
