import Mathlib.Data.Nat.Basic
import Mathlib.Logic.Function.Basic

/-!
# Deadlines on a clock that wraps

A clock reads its time modulo `m`. A time belongs to the round `t / m`, and a reading is
compared with another of the same round or of the one before.

Results:
1. `round_cases`: less than one round later the clock is in the same round or in the next.
2. `overdue_iff`, `deadline_round`: what the readings tell of a deadline.
3. `Split`: the deadlines of the round and those of the next in two lists.
-/

namespace Epochs

variable {m s t d p : Nat}

/-! ## Readings -/

/-- Less than a round later the reading has gone up, or the clock has come to the next
round. -/
theorem round_cases (hm : 0 < m) (hle : s ≤ t) (hlt : t < s + m) :
    (t / m = s / m ∧ t % m = s % m + (t - s)) ∨
      (t / m = s / m + 1 ∧ t % m + m = s % m + (t - s)) := by
  have hs := Nat.div_add_mod s m
  have hsm := Nat.mod_lt s hm
  by_cases h : s % m + (t - s) < m
  · have ht : t = m * (s / m) + (s % m + (t - s)) := by omega
    left
    rw [ht, Nat.mul_add_div hm, Nat.mul_add_mod, Nat.div_eq_of_lt h, Nat.mod_eq_of_lt h, ← ht]
    exact ⟨rfl, rfl⟩
  · have hlt' : s % m + (t - s) - m < m := by omega
    have ht : t = m * (s / m + 1) + (s % m + (t - s) - m) := by
      rw [Nat.mul_succ]
      omega
    right
    rw [ht, Nat.mul_add_div hm, Nat.mul_add_mod, Nat.div_eq_of_lt hlt', Nat.mod_eq_of_lt hlt', ← ht]
    exact ⟨rfl, Nat.sub_add_cancel (Nat.not_lt.mp h)⟩

/-- Readings of one round compare as the times do. -/
theorem mod_le_mod_iff (h : s / m = t / m) : s % m ≤ t % m ↔ s ≤ t := by
  have hs := Nat.div_add_mod s m
  have ht := Nat.div_add_mod t m
  rw [h] at hs
  omega

/-- A reading below an earlier one tells that the clock has come to the next round. -/
theorem mod_lt_mod_iff (hm : 0 < m) (hle : s ≤ t) (hlt : t < s + m) :
    t % m < s % m ↔ t / m = s / m + 1 := by
  have hs := Nat.mod_lt s hm
  rcases round_cases hm hle hlt with ⟨h1, h2⟩ | ⟨h1, h2⟩
  · omega
  · omega

/-- The difference of two readings is the time between them. -/
theorem mod_sub_mod (hm : 0 < m) (hle : s ≤ t) (hlt : t < s + m) :
    (t % m + m - s % m) % m = t - s := by
  have hs := Nat.mod_lt s hm
  rcases round_cases hm hle hlt with ⟨_, h2⟩ | ⟨_, h2⟩
  · have he : t % m + m - s % m = t - s + m := by omega
    rw [he, Nat.add_mod_right, Nat.mod_eq_of_lt (by omega)]
  · have he : t % m + m - s % m = t - s := by omega
    rw [he, Nat.mod_eq_of_lt (by omega)]

/-! ## Deadlines -/

section Deadlines

variable (hm : 0 < m) (hle : s ≤ t) (hlt : t < s + m) (hpm : p < m)
include hm hle hlt hpm

/-- Whether the deadline of a period begun at `s` has passed at `t`, from the readings. -/
theorem overdue_iff (hp : 0 < p) : s + p ≤ t ↔
    if (s + p) % m ≤ t % m then p ≤ t - s else t % m < s % m ∧ s % m ≤ (s + p) % m := by
  have hs := Nat.mod_lt s hm
  have ht := Nat.mod_lt t hm
  have hdm := Nat.mod_lt (s + p) hm
  have hd := round_cases (s := s) (t := s + p) hm (Nat.le_add_right s p) (by omega)
  have hn := round_cases hm hle hlt
  rw [Nat.add_sub_cancel_left] at hd
  split
  · omega
  · omega

/-- Which round a deadline ahead belongs to, from the readings. -/
theorem deadline_round (ha : t < s + p) :
    (s + p) / m = if (s + p) % m ≤ t % m then t / m + 1 else t / m := by
  have hs := Nat.mod_lt s hm
  have ht := Nat.mod_lt t hm
  have hdm := Nat.mod_lt (s + p) hm
  have hd := round_cases (s := s) (t := s + p) hm (Nat.le_add_right s p) (by omega)
  have hn := round_cases hm hle hlt
  rw [Nat.add_sub_cancel_left] at hd
  split
  · omega
  · omega

end Deadlines

/-! ## Two lists of deadlines -/

/-- Every deadline is of the given round, and then in the first list, or of the next, and
then in the second. -/
structure Split {α : Type} (m round : Nat) (due : α → Option Nat) (cur next : List α) : Prop where
  cur : ∀ x, x ∈ cur ↔ ∃ d, due x = some d ∧ d / m = round
  next : ∀ x, x ∈ next ↔ ∃ d, due x = some d ∧ d / m = round + 1
  near : ∀ x d, due x = some d → d / m = round ∨ d / m = round + 1

namespace Split

variable {α : Type} {round : Nat} {due : α → Option Nat} {x y : α} {cur cur' next next' : List α}

theorem notMem_of_none (h : Split m round due cur next) (hx : due x = none) :
    x ∉ cur ∧ x ∉ next := by
  constructor
  · intro hm
    obtain ⟨d, hd, _⟩ := (h.cur x).mp hm
    rw [hx] at hd
    cases hd
  · intro hm
    obtain ⟨d, hd, _⟩ := (h.next x).mp hm
    rw [hx] at hd
    cases hd

section Update

variable [DecidableEq α]

theorem exists_update_iff {P : Nat → Prop} (hne : x ≠ y) {o : Option Nat} :
    (∃ d, Function.update due y o x = some d ∧ P d) ↔ ∃ d, due x = some d ∧ P d := by
  rw [Function.update_of_ne hne]

/-- A new deadline of the round. -/
theorem insertCur (h : Split m round due cur next) (hy : due y = none) (hd : d / m = round)
    (hc : ∀ x, x ∈ cur' ↔ x = y ∨ x ∈ cur) :
    Split m round (Function.update due y (some d)) cur' next := by
  refine ⟨fun x => ?_, fun x => ?_, fun x e he => ?_⟩
  · rw [hc]
    by_cases hx : x = y
    · subst hx
      exact iff_of_true (.inl rfl) ⟨d, Function.update_self .., hd⟩
    · rw [exists_update_iff hx, ← h.cur]
      exact or_iff_right hx
  · by_cases hx : x = y
    · subst hx
      refine iff_of_false (h.notMem_of_none hy).2 ?_
      rintro ⟨e, he, hr⟩
      rw [Function.update_self] at he
      obtain rfl := Option.some.inj he
      omega
    · rw [exists_update_iff hx, ← h.next]
  · by_cases hx : x = y
    · subst hx
      rw [Function.update_self] at he
      obtain rfl := Option.some.inj he
      exact .inl hd
    · rw [Function.update_of_ne hx] at he
      exact h.near x e he

/-- A new deadline of the next round. -/
theorem insertNext (h : Split m round due cur next) (hy : due y = none) (hd : d / m = round + 1)
    (hc : ∀ x, x ∈ next' ↔ x = y ∨ x ∈ next) :
    Split m round (Function.update due y (some d)) cur next' := by
  refine ⟨fun x => ?_, fun x => ?_, fun x e he => ?_⟩
  · by_cases hx : x = y
    · subst hx
      refine iff_of_false (h.notMem_of_none hy).1 ?_
      rintro ⟨e, he, hr⟩
      rw [Function.update_self] at he
      obtain rfl := Option.some.inj he
      omega
    · rw [exists_update_iff hx, ← h.cur]
  · rw [hc]
    by_cases hx : x = y
    · subst hx
      exact iff_of_true (.inl rfl) ⟨d, Function.update_self .., hd⟩
    · rw [exists_update_iff hx, ← h.next]
      exact or_iff_right hx
  · by_cases hx : x = y
    · subst hx
      rw [Function.update_self] at he
      obtain rfl := Option.some.inj he
      exact .inr hd
    · rw [Function.update_of_ne hx] at he
      exact h.near x e he

/-- A deadline that is dropped. -/
theorem erase (h : Split m round due cur next) (hc : ∀ x, x ∈ cur' ↔ x ≠ y ∧ x ∈ cur)
    (hn : ∀ x, x ∈ next' ↔ x ≠ y ∧ x ∈ next) :
    Split m round (Function.update due y none) cur' next' := by
  refine ⟨fun x => ?_, fun x => ?_, fun x e he => ?_⟩
  · rw [hc]
    by_cases hx : x = y
    · subst hx
      exact iff_of_false (fun hm => hm.1 rfl) (by simp)
    · rw [exists_update_iff hx, ← h.cur]
      exact and_iff_right hx
  · rw [hn]
    by_cases hx : x = y
    · subst hx
      exact iff_of_false (fun hm => hm.1 rfl) (by simp)
    · rw [exists_update_iff hx, ← h.next]
      exact and_iff_right hx
  · by_cases hx : x = y
    · subst hx
      rw [Function.update_self] at he
      cases he
    · rw [Function.update_of_ne hx] at he
      exact h.near x e he

end Update

/-- When no deadline of the round is left, the next round begins with the lists switched. -/
theorem switch (h : Split m round due [] next) : Split m (round + 1) due next [] := by
  have hcur : ∀ x d, due x = some d → d / m = round + 1 := fun x d hd =>
    (h.near x d hd).resolve_left fun hr => List.not_mem_nil ((h.cur x).mpr ⟨d, hd, hr⟩)
  refine ⟨h.next, fun x => ?_, fun x d hd => .inl (hcur x d hd)⟩
  refine iff_of_false List.not_mem_nil ?_
  rintro ⟨d, hd, hr⟩
  have he := hcur x d hd
  omega

/-- In the order of the readings, the first of the round has the nearest deadline. -/
theorem head_le (h : Split m round due (x :: cur) next) (hx : due x = some d)
    (hs : ∀ y ∈ cur, ∀ e, due y = some e → d % m ≤ e % m) {y : α} {e : Nat}
    (hy : due y = some e) : d ≤ e := by
  have hround : d / m = round := by
    obtain ⟨d', hd', hr⟩ := (h.cur x).mp List.mem_cons_self
    obtain rfl := Option.some.inj (hx.symm.trans hd')
    exact hr
  rcases h.near y e hy with hr | hr
  · rcases List.mem_cons.mp ((h.cur y).mpr ⟨e, hy, hr⟩) with rfl | hm
    · obtain rfl := Option.some.inj (hx.symm.trans hy)
      exact Nat.le_refl _
    · exact (mod_le_mod_iff (hround.trans hr.symm)).mp (hs y hm e hy)
  · refine Nat.le_of_lt (Nat.lt_of_not_le fun hle => ?_)
    have hdiv := Nat.div_le_div_right (c := m) hle
    omega

end Split

end Epochs
