import Mathlib.Data.List.GetD

/-! Memory that is addressed cell by cell: rows of cells are written to it and
read from it again. -/
namespace Rocksdb.Lib.Memory

variable {β : Type*}

/-- The cells from an address on. -/
def slice (memory : Nat → β) (start n : Nat) : List β := (List.range n).map fun i => memory (start + i)

/-- Writes a row of cells. -/
def write (memory : Nat → β) (start : Nat) (row : List β) : Nat → β :=
  fun i => if start ≤ i then row.getD (i - start) (memory i) else memory i

@[simp] theorem length_slice (memory : Nat → β) (start n : Nat) : (slice memory start n).length = n := by
  simp [slice]

theorem slice_add (n m : Nat) : slice memory start (n + m) = slice memory start n ++ slice memory (start + n) m := by
  simp [slice, List.range_add, Nat.add_assoc]

/-- A part of a row. -/
theorem slice_part (inside : i + n ≤ len) :
    slice memory (start + i) n = ((slice memory start len).drop i).take n := by
  obtain ⟨_, rfl⟩ := Nat.exists_eq_add_of_le inside
  rw [slice_add, slice_add, List.append_assoc, List.drop_left' (length_slice ..), List.take_left' (length_slice ..)]

theorem slice_write_self (row : List β) : slice (write memory start row) start row.length = row := by
  refine List.ext_getElem (by simp) fun i _ inside => ?_
  simp [slice, write, inside]

/-- What stands before a row stays. -/
theorem slice_write_before (before : start + n ≤ at') (row : List β) :
    slice (write memory at' row) start n = slice memory start n := by
  refine List.map_congr_left fun i inside => ?_
  have small := List.mem_range.mp inside
  exact if_neg (by omega)

end Rocksdb.Lib.Memory
