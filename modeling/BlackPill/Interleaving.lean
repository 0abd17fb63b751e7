/-!
# Interleavings of two lists

`Interleaves xs ys zs`: the list `zs` consists of the elements of `xs` and those
of `ys`, each exactly once and each list in its own order.

Results: `snoc_left`, `snoc_right`: an interleaving grows at its end with either
list.
-/

namespace Interleaving

variable {α : Type} {xs ys zs : List α} {a : α}

/-- `zs` merges `xs` and `ys`. -/
inductive Interleaves : List α → List α → List α → Prop
  | nil : Interleaves [] [] []
  | left {x : α} {xs ys zs : List α} : Interleaves xs ys zs → Interleaves (x :: xs) ys (x :: zs)
  | right {y : α} {xs ys zs : List α} : Interleaves xs ys zs → Interleaves xs (y :: ys) (y :: zs)

namespace Interleaves

theorem swap (h : Interleaves xs ys zs) : Interleaves ys xs zs := by
  induction h with
  | nil => exact nil
  | left _ ih => exact right ih
  | right _ ih => exact left ih

theorem snoc_left (h : Interleaves xs ys zs) : Interleaves (xs ++ [a]) ys (zs ++ [a]) := by
  induction h with
  | nil => exact left nil
  | left _ ih => exact left ih
  | right _ ih => exact right ih

theorem snoc_right (h : Interleaves xs ys zs) : Interleaves xs (ys ++ [a]) (zs ++ [a]) :=
  h.swap.snoc_left.swap

end Interleaves

end Interleaving
