import BlackPill.LinkedNodes

/-!
# Linked rings

Nodes with a pointer to the next one and one to the one before, closed by a node that
marks the end.

Results:
1. `Ring.insert`, `Ring.remove`: the stores that put a node in and take one out.
2. `Ring.congr`: only the pointers of the nodes of the ring matter.
3. `Ring.next_mem`, `Ring.prev_mem`: the pointers do not leave the ring.
-/

namespace LinkedNodes

variable {α : Type}

/-- From the end `e` the pointers `next` pass the nodes `xs` and come back, and the
pointers `prev` do so the other way round. -/
structure Ring (next prev : α → α) (e : α) (xs : List α) : Prop where
  forth : Chain next e xs e
  back : Chain prev e xs.reverse e
  nodup : (e :: xs).Nodup

variable {next prev next' prev' : α → α} {e i y z : α} {xs ys : List α}

theorem lastFrom_reverse : lastFrom e ys.reverse = ys.headD e := by
  cases ys with
  | nil => rfl
  | cons y ys =>
    rw [List.reverse_cons]
    exact lastFrom_concat

theorem headD_reverse : xs.reverse.headD e = lastFrom e xs := by
  rw [← lastFrom_reverse, List.reverse_reverse]

theorem headD_mem : xs.headD e ∈ e :: xs := by
  cases xs with
  | nil => exact List.mem_cons_self
  | cons x xs => exact List.mem_cons_of_mem _ List.mem_cons_self

/-! ## Places in a ring -/

/-- Every node of a ring is the last of some first part of it. -/
theorem exists_lastFrom (hi : i ∈ e :: xs) : ∃ as bs, xs = as ++ bs ∧ lastFrom e as = i := by
  rcases List.mem_cons.mp hi with rfl | hi
  · exact ⟨[], xs, rfl, rfl⟩
  · obtain ⟨as, bs, rfl⟩ := List.append_of_mem hi
    exact ⟨as ++ [i], bs, by simp, lastFrom_concat⟩

/-- Every node of a ring is the first of some second part of it. -/
theorem exists_headD (hi : i ∈ e :: xs) : ∃ as bs, xs = as ++ bs ∧ bs.headD e = i := by
  rcases List.mem_cons.mp hi with rfl | hi
  · exact ⟨xs, [], (List.append_nil xs).symm, rfl⟩
  · obtain ⟨as, bs, rfl⟩ := List.append_of_mem hi
    exact ⟨as, i :: bs, rfl, rfl⟩

theorem Ring.next_lastFrom (h : Ring next prev e (xs ++ ys)) :
    next (lastFrom e xs) = ys.headD e := h.forth.next_lastFrom

theorem Ring.prev_headD (h : Ring next prev e (xs ++ ys)) : prev (ys.headD e) = lastFrom e xs := by
  have hb := h.back
  rw [List.reverse_append] at hb
  rw [← lastFrom_reverse, hb.next_lastFrom, headD_reverse]

theorem Ring.next_mid (h : Ring next prev e (xs ++ y :: ys)) : next y = ys.headD e := by
  have hs : Ring next prev e ((xs ++ [y]) ++ ys) := by
    rwa [List.append_assoc, List.singleton_append]
  rw [← hs.next_lastFrom, lastFrom_concat]

theorem Ring.next_ne_self (h : Ring next prev e xs) (hy : y ∈ xs) : next y ≠ y := by
  obtain ⟨as, bs, rfl⟩ := List.append_of_mem hy
  have hd := (List.nodup_append.mp (List.nodup_cons.mp h.nodup).2).2.1
  rw [h.next_mid]
  intro he
  cases bs with
  | nil => exact (List.nodup_cons.mp h.nodup).1 ((show e = y from he) ▸ hy)
  | cons b bs => exact (List.nodup_cons.mp hd).1 ((show b = y from he) ▸ List.mem_cons_self)

theorem Ring.next_end (h : Ring next prev e xs) : next e = xs.headD e :=
  have h' : Ring next prev e ([] ++ xs) := h
  h'.next_lastFrom

theorem Ring.prev_end (h : Ring next prev e xs) : prev e = lastFrom e xs := by
  have h' : Ring next prev e (xs ++ []) := by
    rwa [List.append_nil]
  exact h'.prev_headD

theorem Ring.next_mem (h : Ring next prev e xs) (hi : i ∈ e :: xs) : next i ∈ e :: xs := by
  obtain ⟨as, bs, rfl, rfl⟩ := exists_lastFrom hi
  rw [h.next_lastFrom]
  exact List.mem_cons.mpr ((List.mem_cons.mp headD_mem).imp_right (List.mem_append_right as))

theorem Ring.prev_mem (h : Ring next prev e xs) (hi : i ∈ e :: xs) : prev i ∈ e :: xs := by
  obtain ⟨as, bs, rfl, rfl⟩ := exists_headD hi
  rw [h.prev_headD]
  exact List.mem_cons.mpr ((List.mem_cons.mp lastFrom_mem).imp_right (List.mem_append_left bs))

/-! ## Stores -/

theorem ring_nil (hn : next e = e) (hp : prev e = e) : Ring next prev e [] :=
  ⟨hn, hp, List.nodup_singleton e⟩

theorem Ring.congr (h : Ring next prev e xs)
    (hc : ∀ a ∈ e :: xs, next' a = next a ∧ prev' a = prev a) : Ring next' prev' e xs := by
  refine ⟨chain_congr h.forth fun a ha => (hc a ha).1, chain_congr h.back fun a ha => ?_, h.nodup⟩
  exact (hc a (List.mem_cons.mpr ((List.mem_cons.mp ha).imp_right List.mem_reverse.mp))).2

section Update

variable [DecidableEq α]

/-- A node is put in by two stores each way. -/
theorem Ring.insert (h : Ring next prev e (xs ++ ys)) (hz : z ∉ e :: (xs ++ ys)) :
    Ring (Function.update (Function.update next z (ys.headD e)) (lastFrom e xs) z)
      (Function.update (Function.update prev z (lastFrom e xs)) (ys.headD e) z) e
      (xs ++ z :: ys) := by
  have hperm : (xs ++ z :: ys).Perm (z :: (xs ++ ys)) := List.perm_middle
  refine ⟨?_, ?_, ?_⟩
  · rw [← h.next_lastFrom]
    exact chain_insert h.nodup hz h.forth
  · have hb := h.back
    rw [List.reverse_append] at hb
    have hd : (e :: (ys.reverse ++ xs.reverse)).Nodup := by
      rw [← List.reverse_append]
      exact ((List.reverse_perm _).cons e).nodup_iff.mpr h.nodup
    have hz' : z ∉ e :: (ys.reverse ++ xs.reverse) := by
      rw [← List.reverse_append]
      exact fun hm => hz (((List.reverse_perm _).cons e).mem_iff.mp hm)
    have hi := chain_insert hd hz' hb
    rw [lastFrom_reverse, h.prev_headD] at hi
    rw [List.reverse_append, List.reverse_cons, List.append_assoc, List.singleton_append]
    exact hi
  · refine ((hperm.cons e).trans (List.Perm.swap _ _ _)).nodup_iff.mpr ?_
    exact List.nodup_cons.mpr ⟨hz, h.nodup⟩

/-- A node is taken out by one store each way. -/
theorem Ring.remove (h : Ring next prev e (xs ++ y :: ys)) :
    Ring (Function.update next (prev y) (next y)) (Function.update prev (next y) (prev y)) e
      (xs ++ ys) := by
  have hprev : prev y = lastFrom e xs := h.prev_headD
  have hnext : next y = ys.headD e := h.next_mid
  refine ⟨?_, ?_, ?_⟩
  · rw [hprev]
    exact chain_unlink h.nodup h.forth
  · have hb := h.back
    rw [List.reverse_append, List.reverse_cons, List.append_assoc, List.singleton_append] at hb
    have hd : (e :: (ys.reverse ++ y :: xs.reverse)).Nodup := by
      refine List.Perm.nodup (List.Perm.cons e ?_) h.nodup
      refine (List.reverse_perm _).symm.trans ?_
      rw [List.reverse_append, List.reverse_cons, List.append_assoc, List.singleton_append]
    have hu := chain_unlink hd hb
    rw [lastFrom_reverse, ← hnext] at hu
    rw [List.reverse_append]
    exact hu
  · exact h.nodup.sublist (((List.sublist_cons_self y ys).append_left xs).cons_cons e)

end Update

end LinkedNodes
