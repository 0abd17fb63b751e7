/-!
# Cyclic buffers and queue ledgers

A cyclic buffer keeps a queue in `n` cells between two indices: `tail`, the
next cell to read, and `head`, the next cell to write. One cell stays empty, so
that `head = tail` means empty and never full.

* `occupancy n head tail` is the number of queued elements;
* `window n buf i k` is the list of the `k` elements that start at cell `i`,
  read with wrap-around.

A `Ledger` is the abstract side: what went into a queue, what came out of it
and what is still inside, with the fact that these add up.

Results:
1. `occupancy_advance_head`, `occupancy_advance_tail`: how the two indices move
   the occupancy.
2. `window_add`, `window_push`, `window_storeAll`: how windows are cut, and
   extended by a store behind them.
3. `Ledger.getElem?_delivered`: what comes out `k`-th went in `k`-th.
-/

namespace CyclicBuffer

variable {α : Type} {n : Nat}

/-- The number of elements between `tail` and `head`. -/
def occupancy (n head tail : Nat) : Nat := (head + n - tail) % n

/-- The `k` elements that start at cell `i`. -/
def window (n : Nat) (buf : Nat → α) (i k : Nat) : List α :=
  (List.range k).map fun j => buf ((i + j) % n)

/-- Writing one cell. -/
def store (buf : Nat → α) (i : Nat) (x : α) : Nat → α := fun j => if j = i then x else buf j

/-- Writing a list of cells from cell `i` on, with wrap-around. -/
def storeAll (n : Nat) : (Nat → α) → Nat → List α → (Nat → α)
  | buf, _, [] => buf
  | buf, i, x :: xs => storeAll n (store buf i x) ((i + 1) % n) xs

/-! ## Indices -/

theorem mod_of_lt_two_mul {a : Nat} (h : a < 2 * n) : a % n = if a < n then a else a - n := by
  split
  · next ha => exact Nat.mod_eq_of_lt ha
  · next ha => rw [Nat.mod_eq_sub_mod (by omega), Nat.mod_eq_of_lt (by omega)]

theorem occupancy_eq {head tail : Nat} (hh : head < n) (ht : tail < n) :
    occupancy n head tail = if tail ≤ head then head - tail else head + n - tail := by
  unfold occupancy
  rw [mod_of_lt_two_mul (by omega)]
  split <;> split <;> omega

theorem occupancy_lt {head tail : Nat} (hn : 0 < n) : occupancy n head tail < n :=
  Nat.mod_lt _ hn

theorem occupancy_eq_zero_iff {head tail : Nat} (hh : head < n) (ht : tail < n) :
    occupancy n head tail = 0 ↔ head = tail := by
  rw [occupancy_eq hh ht]
  split <;> omega

/-- The occupied cells end where the head is. -/
theorem tail_add_occupancy {head tail : Nat} (hh : head < n) (ht : tail < n) :
    (tail + occupancy n head tail) % n = head := by
  rw [occupancy_eq hh ht, mod_of_lt_two_mul (by split <;> omega)]
  split <;> split <;> omega

/-- The buffer is full exactly when one more step would put the head on the
tail. -/
theorem next_head_eq_tail_iff {head tail : Nat} (hh : head < n) (ht : tail < n) :
    (head + 1) % n = tail ↔ occupancy n head tail + 1 = n := by
  rw [occupancy_eq hh ht, mod_of_lt_two_mul (by omega)]
  split <;> split <;> omega

theorem occupancy_advance_head {head tail k : Nat} (hh : head < n) (ht : tail < n)
    (hk : occupancy n head tail + k < n) :
    occupancy n ((head + k) % n) tail = occupancy n head tail + k := by
  have hn : 0 < n := by omega
  rw [occupancy_eq hh ht] at hk ⊢
  rw [occupancy_eq (Nat.mod_lt _ hn) ht]
  have hkn : k < n := by omega
  rw [mod_of_lt_two_mul (show head + k < 2 * n by omega)]
  split at hk <;> split <;> split <;> omega

theorem occupancy_advance_tail {head tail k : Nat} (hh : head < n) (ht : tail < n)
    (hk : k ≤ occupancy n head tail) :
    occupancy n head ((tail + k) % n) = occupancy n head tail - k := by
  have hn : 0 < n := by omega
  have hkn : k < n := Nat.lt_of_le_of_lt hk (occupancy_lt hn)
  rw [occupancy_eq hh ht] at hk ⊢
  rw [occupancy_eq hh (Nat.mod_lt _ hn), mod_of_lt_two_mul (show tail + k < 2 * n by omega)]
  split at hk <;> split <;> split <;> omega

/-- Two cells fewer than `n` places after `i` are different cells. -/
theorem cells_ne {i j k : Nat} (hj : j < k) (hk : k < n) : (i + j) % n ≠ (i + k) % n := by
  have hi : i % n < n := Nat.mod_lt _ (by omega)
  rw [← Nat.mod_add_mod i n j, ← Nat.mod_add_mod i n k]
  generalize i % n = r at hi
  rw [mod_of_lt_two_mul (show r + j < 2 * n by omega),
    mod_of_lt_two_mul (show r + k < 2 * n by omega)]
  split <;> split <;> omega

/-! ## Windows -/

@[simp] theorem window_zero {buf : Nat → α} {i : Nat} : window n buf i 0 = [] := rfl

@[simp] theorem window_length {buf : Nat → α} {i k : Nat} : (window n buf i k).length = k := by
  simp [window]

theorem window_add {buf : Nat → α} {i a b : Nat} :
    window n buf i (a + b) = window n buf i a ++ window n buf ((i + a) % n) b := by
  unfold window
  rw [List.range_add, List.map_append, List.map_map]
  congr 1
  apply List.map_congr_left
  intro j _
  simp only [Function.comp_apply]
  rw [Nat.mod_add_mod, Nat.add_assoc]

theorem window_one {buf : Nat → α} {i : Nat} (hi : i < n) : window n buf i 1 = [buf i] := by
  simp [window, List.range_one, Nat.mod_eq_of_lt hi]

theorem window_succ {buf : Nat → α} {i k : Nat} :
    window n buf i (k + 1) = window n buf i k ++ [buf ((i + k) % n)] := by
  unfold window
  rw [List.range_succ, List.map_append]
  rfl

/-- The first element of a non-empty window is the cell it starts at. -/
theorem window_eq_cons {buf : Nat → α} {i k : Nat} (hi : i < n) :
    window n buf i (k + 1) = buf i :: window n buf ((i + 1) % n) k := by
  rw [Nat.add_comm k 1, window_add, window_one hi]
  rfl

theorem window_congr {buf buf' : Nat → α} {i k : Nat}
    (h : ∀ j, j < k → buf' ((i + j) % n) = buf ((i + j) % n)) :
    window n buf' i k = window n buf i k := by
  apply List.map_congr_left
  intro j hj
  exact h j (List.mem_range.mp hj)

/-- A store behind a window leaves the window alone. -/
theorem window_store_of_le {buf : Nat → α} {i k m : Nat} {x : α} (hk : k ≤ m) (hm : m < n) :
    window n (store buf ((i + m) % n) x) i k = window n buf i k := by
  apply window_congr
  intro j hj
  exact if_neg (cells_ne (by omega) hm)

/-- A store in the cell after a window extends the window. -/
theorem window_push {buf : Nat → α} {i k : Nat} {x : α} (hk : k < n) :
    window n (store buf ((i + k) % n) x) i (k + 1) = window n buf i k ++ [x] := by
  rw [window_succ, window_store_of_le (Nat.le_refl k) hk]
  simp [store]

theorem storeAll_append {buf : Nat → α} {i : Nat} {xs ys : List α} (hi : i < n) :
    storeAll n buf i (xs ++ ys) = storeAll n (storeAll n buf i xs) ((i + xs.length) % n) ys := by
  induction xs generalizing buf i with
  | nil => rw [List.length_nil, Nat.add_zero, Nat.mod_eq_of_lt hi]; rfl
  | cons x xs ih =>
    rw [List.cons_append, storeAll, ih (Nat.mod_lt _ (Nat.lt_of_le_of_lt (Nat.zero_le i) hi)),
      storeAll, Nat.mod_add_mod, List.length_cons, Nat.add_assoc, Nat.add_comm 1]

/-- A list written behind a window extends the window, if there is room for it. -/
theorem window_storeAll {buf : Nat → α} {i k : Nat} {xs : List α} (hk : k + xs.length ≤ n) :
    window n (storeAll n buf ((i + k) % n) xs) i (k + xs.length) = window n buf i k ++ xs := by
  induction xs generalizing buf k with
  | nil => rw [List.length_nil, Nat.add_zero, List.append_nil]; rfl
  | cons x xs ih =>
    rw [List.length_cons] at hk
    have hkx : k + (xs.length + 1) = k + 1 + xs.length := by omega
    rw [storeAll, Nat.mod_add_mod, List.length_cons, hkx, Nat.add_assoc i k 1, ih (by omega),
      window_push (by omega), List.append_assoc]
    rfl

end CyclicBuffer

/-! ## Ledgers -/

/-- What went into a queue, what came out of it, and what is still inside. -/
structure Ledger (α : Type) where
  accepted : List α
  delivered : List α
  queued : List α
  conserved : accepted = delivered ++ queued

namespace Ledger

variable {α : Type}

/-- Nothing in, nothing out. -/
def empty : Ledger α := ⟨[], [], [], rfl⟩

/-- Putting elements in at the back. -/
def accept (l : Ledger α) (xs : List α) : Ledger α :=
  ⟨l.accepted ++ xs, l.delivered, l.queued ++ xs, by rw [l.conserved, List.append_assoc]⟩

/-- Taking the front element out. -/
def deliver (l : Ledger α) (x : α) (rest : List α) (h : l.queued = x :: rest) : Ledger α :=
  ⟨l.accepted, l.delivered ++ [x], rest, by rw [l.conserved, h, List.append_assoc]; rfl⟩

@[simp] theorem accept_accepted {l : Ledger α} {xs : List α} :
    (l.accept xs).accepted = l.accepted ++ xs := rfl

@[simp] theorem accept_queued {l : Ledger α} {xs : List α} :
    (l.accept xs).queued = l.queued ++ xs := rfl

@[simp] theorem deliver_delivered {l : Ledger α} {x : α} {rest : List α} {h} :
    (l.deliver x rest h).delivered = l.delivered ++ [x] := rfl

/-- The moves of a queue that holds at most `cap` elements: an offer is cut to
the room there is, a take removes the front. -/
inductive FifoMove (α : Type)
  | offer (xs : List α)
  | take

/-- The bounded first-in first-out queue. -/
inductive FifoStep (cap : Nat) : Ledger α → FifoMove α → Ledger α → Prop
  | offer (l : Ledger α) (xs : List α) :
      FifoStep cap l (.offer xs) (l.accept (xs.take (cap - l.queued.length)))
  | take (l : Ledger α) (x : α) (rest : List α) (h : l.queued = x :: rest) :
      FifoStep cap l .take (l.deliver x rest h)

/-- The element delivered at place `k` is the one accepted at place `k`. -/
theorem getElem?_delivered (l : Ledger α) {k : Nat} (hk : k < l.delivered.length) :
    l.delivered[k]? = l.accepted[k]? := by
  rw [l.conserved, List.getElem?_append_left hk]

end Ledger
