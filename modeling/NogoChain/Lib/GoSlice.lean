
/-!
# Slices that share backing arrays

A Go slice is a window on an array that other slices may see as well. Deleting an element
with `append(s[:i], s[i+1:]...)` moves the later elements of the array, and a loop that
ranges over an older window of the same array reads the moved elements. A `Heap` holds the
arrays, each as the list of its cells, so that an array's length is its capacity; a `Slice`
is an array with the number of cells in use.

The capacity of a new array is left open by the language; it is a parameter `grow`.
-/

/-- A slice: the array it looks at, and how many cells of it are in use. -/
structure Slice where
  /-- index of the array -/
  arr : Nat
  len : Nat
deriving DecidableEq

namespace Slice

variable {α : Type}

/-- The backing arrays. -/
abbrev Heap (α : Type) := List (List α)

/-- The cells of the array of a slice, those beyond its length included. -/
def cells (h : Heap α) (s : Slice) : List α := h.getD s.arr []

/-- The elements of a slice. -/
def toList (h : Heap α) (s : Slice) : List α := (s.cells h).take s.len

/-- What a loop over the slice reads at position `i`, at the time it gets there. -/
def read [Inhabited α] (h : Heap α) (s : Slice) (i : Nat) : α := (s.cells h).getD i default

/-- A new array with the given elements and room for at least one more append than asked
for by `grow`. -/
def alloc [Inhabited α] (grow : Nat → Nat) (h : Heap α) (xs : List α) : Heap α × Slice :=
  (h ++ [xs ++ List.replicate (grow xs.length - xs.length) default], ⟨h.length, xs.length⟩)

/-- `append(s, x)`: in place if the array has room, otherwise on a new array. A nil slice is
`none`. -/
def append [Inhabited α] (grow : Nat → Nat) (h : Heap α) (s : Option Slice) (x : α) :
    Heap α × Slice :=
  match s with
  | none => alloc grow h [x]
  | some s =>
    if s.len < (s.cells h).length then
      (h.set s.arr ((s.cells h).set s.len x), ⟨s.arr, s.len + 1⟩)
    else alloc grow h (s.toList h ++ [x])

/-- `append(s[:i], s[i+1:]...)` for `i < len(s)`: the elements after `i` move down by one in
the array, and the cell of the last one keeps its value. -/
def removeAt (h : Heap α) (s : Slice) (i : Nat) : Heap α × Slice :=
  (h.set s.arr ((s.toList h).eraseIdx i ++ (s.cells h).drop (s.len - 1)), ⟨s.arr, s.len - 1⟩)

end Slice
