/-!
# Labelled runs

A system is a labelled transition relation `step`. A run is the list of labels
it took, so a schedule, an input sequence and a list of results of outside
calls are all one list. This module collects the rules by which a property of
single steps becomes a property of whole runs.

Results:
1. `always_of_invariant`: an invariant holds in every state a run passes.
2. `always_of_meets`: the same for runs whose steps all meet a condition.
3. `always_iff_meets`: when breaking the condition breaks the property, the
   runs that keep the property are exactly those that meet the condition.
4. `Run.simulate`: a step-by-step simulation carries over to runs.
5. `run_iff_exec`: runs of a computable step function can be evaluated.
-/

namespace Runs

variable {σ τ ℓ μ : Type}

/-! ## Runs -/

/-- `Run step s ls t`: taking the labels `ls` in order from `s` can end in `t`. -/
inductive Run (step : σ → ℓ → σ → Prop) : σ → List ℓ → σ → Prop
  | nil {s : σ} : Run step s [] s
  | cons {s t u : σ} {l : ℓ} {ls : List ℓ} : step s l t → Run step t ls u → Run step s (l :: ls) u

/-- `P` holds in every state that the labels `ls` pass from `s`, first and last
included. -/
def Always (step : σ → ℓ → σ → Prop) (P : σ → Prop) (s : σ) (ls : List ℓ) : Prop :=
  ∀ done rest t, ls = done ++ rest → Run step s done t → P t

/-- Every step that the labels `ls` take from `s` is taken in a state where `C`
allows its label. -/
def Meets (step : σ → ℓ → σ → Prop) (C : σ → ℓ → Prop) (s : σ) (ls : List ℓ) : Prop :=
  ∀ done l rest t u, ls = done ++ l :: rest → Run step s done t → step t l u → C t l

section Rules

variable {step : σ → ℓ → σ → Prop} {P I : σ → Prop} {C : σ → ℓ → Prop}

theorem Run.append {s t u : σ} {ls ms : List ℓ} (h : Run step s ls t) (h' : Run step t ms u) :
    Run step s (ls ++ ms) u := by
  induction h with
  | nil => exact h'
  | cons hs _ ih => exact Run.cons hs (ih h')

theorem Run.single {s t : σ} {l : ℓ} (h : step s l t) : Run step s [l] t :=
  Run.cons h Run.nil

/-- A run of a concatenation passes a state between the two parts. -/
theorem Run.split {s u : σ} {ls ms : List ℓ} (h : Run step s (ls ++ ms) u) :
    ∃ t, Run step s ls t ∧ Run step t ms u := by
  induction ls generalizing s with
  | nil => exact ⟨s, Run.nil, h⟩
  | cons l ls ih =>
    cases h with
    | cons hs hr =>
      obtain ⟨t, h1, h2⟩ := ih hr
      exact ⟨t, Run.cons hs h1, h2⟩

/-- A step relation with one outcome for each label has one run for each list of labels. -/
theorem Run.unique (hdet : ∀ s l t u, step s l t → step s l u → t = u) {s t u : σ} {ls : List ℓ}
    (h : Run step s ls t) (h' : Run step s ls u) : t = u := by
  induction h with
  | nil =>
    cases h'
    rfl
  | cons hs _ ih =>
    cases h' with
    | cons hs' hr' =>
      obtain rfl := hdet _ _ _ _ hs hs'
      exact ih hr'

theorem always_nil {s : σ} : Always step P s [] ↔ P s := by
  constructor
  · intro h
    exact h [] [] s rfl Run.nil
  · intro h done rest t he hr
    obtain ⟨rfl, rfl⟩ := List.append_eq_nil_iff.mp he.symm
    cases hr
    exact h

theorem always_cons {s : σ} {l : ℓ} {ls : List ℓ} :
    Always step P s (l :: ls) ↔ P s ∧ ∀ t, step s l t → Always step P t ls := by
  constructor
  · intro h
    refine ⟨h [] (l :: ls) s rfl Run.nil, fun t hs done rest u he hr => ?_⟩
    exact h (l :: done) rest u (by rw [he, List.cons_append]) (Run.cons hs hr)
  · rintro ⟨hP, hrest⟩ done rest u he hr
    cases hr with
    | nil => exact hP
    | cons hs hr =>
      obtain ⟨rfl, he'⟩ := List.cons.inj he
      exact hrest _ hs _ rest u he' hr

theorem meets_cons {s : σ} {l : ℓ} {ls : List ℓ} :
    Meets step C s (l :: ls) ↔ ∀ t, step s l t → C s l ∧ Meets step C t ls := by
  constructor
  · intro h t hs
    refine ⟨h [] l ls s t rfl Run.nil hs, fun done m rest u v he hr hm => ?_⟩
    exact h (l :: done) m rest u v (by rw [he, List.cons_append]) (Run.cons hs hr) hm
  · intro h done m rest u v he hr hm
    cases hr with
    | nil =>
      obtain ⟨rfl, rfl⟩ := List.cons.inj he
      exact (h v hm).1
    | cons hs hr =>
      obtain ⟨rfl, he'⟩ := List.cons.inj he
      exact (h _ hs).2 _ m rest u v he' hr hm

theorem meets_nil {s : σ} : Meets step C s [] := by
  intro done l rest t u he
  simp at he

/-! ## Invariants -/

theorem Run.invariant {s t : σ} {ls : List ℓ} (h : Run step s ls t)
    (hstep : ∀ s l t, I s → step s l t → I t) (hs : I s) : I t := by
  induction h with
  | nil => exact hs
  | cons hl _ ih => exact ih (hstep _ _ _ hs hl)

/-- An invariant that implies `P` makes `P` hold along every run. -/
theorem always_of_invariant (hstep : ∀ s l t, I s → step s l t → I t) (hP : ∀ s, I s → P s)
    {s : σ} (hs : I s) (ls : List ℓ) : Always step P s ls :=
  fun _ _ t _ hr => hP t (hr.invariant hstep hs)

/-- The same for an invariant that only the steps allowed by `C` keep. -/
theorem always_of_meets (hstep : ∀ s l t, I s → C s l → step s l t → I t) (hP : ∀ s, I s → P s)
    {s : σ} (hs : I s) {ls : List ℓ} (hm : Meets step C s ls) : Always step P s ls := by
  induction ls generalizing s with
  | nil => exact always_nil.mpr (hP s hs)
  | cons l ls ih =>
    refine always_cons.mpr ⟨hP s hs, fun t hl => ?_⟩
    obtain ⟨hc, hrest⟩ := meets_cons.mp hm t hl
    exact ih (hstep s l t hs hc hl) hrest

/-- When a step that `C` forbids always leads to a state without `P`, the runs
along which `P` holds are exactly the runs that meet `C`. -/
theorem always_iff_meets (hstep : ∀ s l t, I s → C s l → step s l t → I t)
    (hP : ∀ s, I s → P s) (hexact : ∀ s l t, I s → step s l t → P t → C s l)
    {s : σ} (hs : I s) (ls : List ℓ) : Always step P s ls ↔ Meets step C s ls := by
  refine ⟨fun h => ?_, always_of_meets hstep hP hs⟩
  induction ls generalizing s with
  | nil => exact meets_nil
  | cons l ls ih =>
    refine meets_cons.mpr fun t hl => ?_
    have hrest := (always_cons.mp h).2 t hl
    have hPt : P t := hrest [] ls t rfl Run.nil
    have hc : C s l := hexact s l t hs hl hPt
    exact ⟨hc, ih (hstep s l t hs hc hl) hrest⟩

end Rules

/-! ## Simulation -/

/-- If each step from a related pair is matched by an abstract run, possibly an
empty one, then so is each run. -/
theorem Run.simulate {step : σ → ℓ → σ → Prop} {absStep : τ → μ → τ → Prop} {R : σ → τ → Prop}
    (hsim : ∀ s l s' a, R s a → step s l s' → ∃ ms a', Run absStep a ms a' ∧ R s' a')
    {s s' : σ} {ls : List ℓ} (h : Run step s ls s') {a : τ} (hR : R s a) :
    ∃ ms a', Run absStep a ms a' ∧ R s' a' := by
  induction h generalizing a with
  | nil => exact ⟨[], a, Run.nil, hR⟩
  | cons hl _ ih =>
    obtain ⟨ms, b, hab, hRb⟩ := hsim _ _ _ _ hR hl
    obtain ⟨ns, c, hbc, hRc⟩ := ih hRb
    exact ⟨ms ++ ns, c, hab.append hbc, hRc⟩

/-! ## Computable step functions -/

/-- The relation of a partial step function: `none` means the label is not
enabled. -/
def Steps (f : σ → ℓ → Option σ) (s : σ) (l : ℓ) (t : σ) : Prop := f s l = some t

/-- The end of the run with labels `ls` from `s`, if every label is enabled. -/
def exec (f : σ → ℓ → Option σ) : σ → List ℓ → Option σ
  | s, [] => some s
  | s, l :: ls => (f s l).bind fun t => exec f t ls

theorem run_iff_exec {f : σ → ℓ → Option σ} {s t : σ} {ls : List ℓ} :
    Run (Steps f) s ls t ↔ exec f s ls = some t := by
  constructor
  · intro h
    induction h with
    | nil => rfl
    | @cons s u _ l _ hl _ ih =>
      have hl' : f s l = some u := hl
      rw [exec, hl', Option.bind_some, ih]
  · intro h
    induction ls generalizing s with
    | nil =>
      obtain rfl := Option.some.inj h
      exact Run.nil
    | cons l ls ih =>
      obtain ⟨u, hl, hu⟩ := Option.bind_eq_some_iff.mp h
      exact Run.cons hl (ih hu)

theorem meets_cons_of_some {f : σ → ℓ → Option σ} {C : σ → ℓ → Prop} {s t : σ} {l : ℓ}
    {ls : List ℓ} (h : f s l = some t) :
    Meets (Steps f) C s (l :: ls) ↔ C s l ∧ Meets (Steps f) C t ls := by
  refine meets_cons.trans ⟨fun hm => hm t h, fun hm u hu => ?_⟩
  obtain rfl := Option.some.inj (h.symm.trans hu)
  exact hm

theorem meets_cons_of_none {f : σ → ℓ → Option σ} {C : σ → ℓ → Prop} {s : σ} {l : ℓ}
    {ls : List ℓ} (h : f s l = none) : Meets (Steps f) C s (l :: ls) :=
  meets_cons.mpr fun _ hu => absurd (h.symm.trans hu) (by simp)

/-- A decidable condition can be checked along a given list of labels. -/
instance decidableMeets {f : σ → ℓ → Option σ} {C : σ → ℓ → Prop} [hC : ∀ s l, Decidable (C s l)] :
    (s : σ) → (ls : List ℓ) → Decidable (Meets (Steps f) C s ls)
  | _, [] => .isTrue meets_nil
  | s, l :: ls =>
    match h : f s l with
    | none => .isTrue (meets_cons_of_none h)
    | some t =>
      have : Decidable (Meets (Steps f) C t ls) := decidableMeets t ls
      decidable_of_iff _ (meets_cons_of_some h).symm

/-- One evaluated run that ends outside `P` refutes `Always`. -/
theorem not_always_of_exec {f : σ → ℓ → Option σ} {P : σ → Prop} {s t : σ} {ls : List ℓ}
    (h : exec f s ls = some t) (hP : ¬ P t) : ¬ Always (Steps f) P s ls :=
  fun ha => hP (ha ls [] t (List.append_nil ls).symm (run_iff_exec.mpr h))

end Runs
