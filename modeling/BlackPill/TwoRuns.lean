import BlackPill.Runs
import Mathlib.Data.List.Forall2

/-!
# Two runs of one system

Two runs from one state whose labels are pairwise taken for the same: `same` says
which part of a label is given, and the rest may differ between the runs. What the
runs let see of their states is `obs`.

Results:
1. `exec_congr_of_meets`: while the steps do not depend on the rest, the runs are one.
2. `agree_iff_meets`: when a step against the condition shows in a run with a label
   taken for the same, the runs that look like all those are exactly those that meet
   the condition.
-/

namespace Runs

variable {σ ℓ ω : Type} {f : σ → ℓ → Option σ} {C : σ → ℓ → Prop} {same : ℓ → ℓ → Prop}
  {s : σ} {ls ms : List ℓ}

theorem exec_append : exec f s (ls ++ ms) = (exec f s ls).bind fun t => exec f t ms := by
  induction ls generalizing s with
  | nil => rfl
  | cons l ls ih =>
    rw [List.cons_append, exec, exec]
    cases f s l with
    | none => rfl
    | some t => exact ih

theorem meets_take (h : Meets (Steps f) C s ls) (n : Nat) : Meets (Steps f) C s (ls.take n) := by
  intro done l rest t u he
  refine h done l (rest ++ ls.drop n) t u ?_
  rw [← List.cons_append, ← List.append_assoc, ← he, List.take_append_drop]

/-- Labels that no step tells apart while `C` holds lead to the same state. -/
theorem exec_congr_of_meets
    (hstep : ∀ s l l', same l l' → (∀ t, f s l = some t → C s l) → f s l = f s l')
    (hsame : List.Forall₂ same ls ms) (hm : Meets (Steps f) C s ls) :
    exec f s ls = exec f s ms := by
  induction hsame generalizing s with
  | nil => rfl
  | cons hl _ ih =>
    have he := hstep s _ _ hl fun t hs => (meets_cons.mp hm t hs).1
    rw [exec, exec, ← he]
    cases hs : f s _ with
    | none => rfl
    | some t => exact ih (meets_cons.mp hm t hs).2

/-- Then a condition that does not tell them apart either is met by both. -/
theorem meets_congr
    (hstep : ∀ s l l', same l l' → (∀ t, f s l = some t → C s l) → f s l = f s l')
    (hC : ∀ s l l', same l l' → C s l → C s l')
    (hsame : List.Forall₂ same ls ms) (hm : Meets (Steps f) C s ls) : Meets (Steps f) C s ms := by
  induction hsame generalizing s with
  | nil => exact meets_nil
  | cons hl _ ih =>
    have he := hstep s _ _ hl fun t hs => (meets_cons.mp hm t hs).1
    refine meets_cons.mpr fun t hs => ?_
    obtain ⟨hc, hrest⟩ := meets_cons.mp hm t (he.trans hs)
    exact ⟨hC s _ _ hl hc, ih hrest⟩

/-- When a step that `C` forbids can be told apart from one with a label taken for the
same, the runs that look like all those taken for the same are exactly the runs
that meet `C`. -/
theorem agree_iff_meets (obs : Option σ → ω)
    (hstep : ∀ s l l', same l l' → (∀ t, f s l = some t → C s l) → f s l = f s l')
    (hexact : ∀ s l t, same l l → f s l = some t → ¬ C s l →
      ∃ l', same l l' ∧ obs (f s l) ≠ obs (f s l'))
    (hrefl : ∀ l ∈ ls, same l l) :
    (∀ ms, List.Forall₂ same ls ms →
      ∀ n, obs (exec f s (ls.take n)) = obs (exec f s (ms.take n))) ↔
      Meets (Steps f) C s ls := by
  constructor
  · rintro h done l rest t u rfl hr hs
    by_contra hn
    obtain ⟨l', hl', hobs⟩ := hexact t l u (hrefl l (by simp)) hs hn
    have hdone : List.Forall₂ same done done :=
      List.forall₂_same.mpr fun x hx => hrefl x (List.mem_append_left _ hx)
    have hrest : List.Forall₂ same rest rest := List.forall₂_same.mpr fun x hx =>
      hrefl x (List.mem_append_right _ (List.mem_cons_of_mem _ hx))
    have heq := h (done ++ l' :: rest) (List.rel_append hdone (.cons hl' hrest)) (done.length + 1)
    have htake : ∀ x, (done ++ x :: rest).take (done.length + 1) = done ++ [x] := by
      intro x
      rw [List.take_length_add_append]
      rfl
    have hexec : ∀ x, exec f s (done ++ [x]) = f t x := by
      intro x
      rw [exec_append, run_iff_exec.mp hr, Option.bind_some, exec]
      cases f t x <;> rfl
    rw [htake, htake, hexec, hexec] at heq
    exact hobs heq
  · intro hm ms hsame n
    rw [exec_congr_of_meets hstep (List.forall₂_take n hsame) (meets_take hm n)]

end Runs
