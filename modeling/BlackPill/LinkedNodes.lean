import Mathlib.Data.List.Nodup
import Mathlib.Logic.Function.Basic

/-!
# Linked nodes

Nodes that hold a pointer to the next one. `Chain next p xs e` says that following
`next` from `p` passes the nodes `xs` and then reaches `e`.

Results:
1. `chain_append`: a chain is its parts and the seam.
2. `chain_congr`: only the pointers of the nodes passed matter.
3. `chain_unlink`, `chain_insert`: the stores that take a node out and put one in.
-/

namespace LinkedNodes

variable {α : Type}

/-- From `p` the pointers lead through `xs` to `e`. -/
def Chain (next : α → α) : α → List α → α → Prop
  | p, [], e => next p = e
  | p, x :: xs, e => next p = x ∧ Chain next x xs e

/-- The last node before the end of a chain. -/
def lastFrom : α → List α → α
  | p, [] => p
  | _, x :: xs => lastFrom x xs

variable {next next' : α → α} {p e e' x y z : α} {xs ys : List α}

theorem lastFrom_concat : lastFrom p (xs ++ [x]) = x := by
  induction xs generalizing p with
  | nil => rfl
  | cons y xs ih => exact ih

theorem lastFrom_mem : lastFrom p xs ∈ p :: xs := by
  induction xs generalizing p with
  | nil => exact List.mem_cons_self
  | cons x xs ih => exact List.mem_cons_of_mem _ ih

theorem lastFrom_eq_or_mem (p : α) (xs : List α) : lastFrom p xs = p ∨ lastFrom p xs ∈ xs :=
  List.mem_cons.mp lastFrom_mem

theorem chain_append : Chain next p (xs ++ y :: ys) e ↔ Chain next p xs y ∧ Chain next y ys e := by
  induction xs generalizing p with
  | nil => exact Iff.rfl
  | cons x xs ih =>
    rw [List.cons_append, Chain, Chain, ih, and_assoc]

theorem Chain.next_last (h : Chain next p xs e) : next (lastFrom p xs) = e := by
  induction xs generalizing p with
  | nil => exact h
  | cons x xs ih => exact ih h.2

/-- In the middle of a chain the pointer leads to what is left of it. -/
theorem Chain.next_lastFrom (h : Chain next p (xs ++ ys) e) :
    next (lastFrom p xs) = ys.headD e := by
  cases ys with
  | nil =>
    rw [List.append_nil] at h
    exact h.next_last
  | cons y ys => exact (chain_append.mp h).1.next_last

theorem chain_congr (h : Chain next p xs e) (hn : ∀ a ∈ p :: xs, next' a = next a) :
    Chain next' p xs e := by
  induction xs generalizing p with
  | nil => exact (hn p List.mem_cons_self).trans h
  | cons x xs ih =>
    obtain ⟨hx, hr⟩ := h
    refine ⟨(hn p List.mem_cons_self).trans hx, ih hr fun a ha => ?_⟩
    exact hn a (List.mem_cons_of_mem _ ha)

theorem Chain.next_mem (h : Chain next p xs e) : next p ∈ xs ++ [e] := by
  cases xs with
  | nil => exact List.mem_singleton.mpr h
  | cons x xs => exact h.1 ▸ List.mem_cons_self

section Update

variable [DecidableEq α]

/-- A pointer outside the chain may be overwritten. -/
theorem chain_update_of_notMem (hx : x ∉ p :: xs) (h : Chain next p xs e) :
    Chain (Function.update next x y) p xs e :=
  chain_congr h fun a ha => Function.update_of_ne (fun he : a = x => hx (he ▸ ha)) ..

/-- Overwriting the last pointer moves the end. -/
theorem chain_update_last (hd : (p :: xs).Nodup) (h : Chain next p xs e) :
    Chain (Function.update next (lastFrom p xs) y) p xs y := by
  induction xs generalizing p with
  | nil => exact Function.update_self ..
  | cons x xs ih =>
    obtain ⟨hx, hr⟩ := h
    obtain ⟨hp, hd'⟩ := List.nodup_cons.mp hd
    have hne : p ≠ lastFrom x xs := fun he => hp (he ▸ lastFrom_mem)
    exact ⟨(Function.update_of_ne hne ..).trans hx, ih hd' hr⟩

/-- A node is taken out by giving its pointer to the node before it. -/
theorem chain_unlink (hd : (p :: (xs ++ y :: ys)).Nodup) (h : Chain next p (xs ++ y :: ys) e) :
    Chain (Function.update next (lastFrom p xs) (next y)) p (xs ++ ys) e := by
  obtain ⟨hx, hy⟩ := chain_append.mp h
  rw [← List.cons_append] at hd
  obtain ⟨hpx, hyy, hdis⟩ := List.nodup_append.mp hd
  cases ys with
  | nil =>
    rw [List.append_nil, show next y = e from hy]
    exact chain_update_last hpx hx
  | cons z zs =>
    obtain ⟨hz, hr⟩ := hy
    refine chain_append.mpr ⟨hz ▸ chain_update_last hpx hx, chain_update_of_notMem ?_ hr⟩
    exact fun hm => hdis _ lastFrom_mem _ (List.mem_cons_of_mem _ hm) rfl

/-- A node is put in by two stores. -/
theorem chain_insert (hd : (p :: (xs ++ ys)).Nodup) (hz : z ∉ p :: (xs ++ ys))
    (h : Chain next p (xs ++ ys) e) :
    Chain (Function.update (Function.update next z (next (lastFrom p xs))) (lastFrom p xs) z) p
      (xs ++ z :: ys) e := by
  rw [← List.cons_append] at hd hz
  obtain ⟨hpx, _, hdis⟩ := List.nodup_append.mp hd
  obtain ⟨hzx, hzy⟩ := not_or.mp (mt List.mem_append.mpr hz)
  have hne : z ≠ lastFrom p xs := fun he => hzx (he ▸ lastFrom_mem)
  have hself : Function.update (Function.update next z (next (lastFrom p xs))) (lastFrom p xs) z z
      = next (lastFrom p xs) := (Function.update_of_ne hne ..).trans (Function.update_self ..)
  cases ys with
  | nil =>
    rw [List.append_nil] at h
    exact chain_append.mpr ⟨chain_update_last hpx (chain_update_of_notMem hzx h),
      hself.trans h.next_last⟩
  | cons y ys =>
    obtain ⟨hx, hy⟩ := chain_append.mp h
    refine chain_append.mpr ⟨chain_update_last hpx (chain_update_of_notMem hzx hx),
      hself.trans hx.next_last, chain_update_of_notMem ?_ (chain_update_of_notMem hzy hy)⟩
    exact fun hm => hdis _ lastFrom_mem _ hm rfl

end Update

end LinkedNodes
