import BlackPill.Runs
import Mathlib.Data.List.Range
import Mathlib.Data.Nat.Basic
import Mathlib.Logic.Function.Basic

/-!
# Schedules

Members that are armed for a time and fire when it has come, once or every period. A
schedule may fire late, and each firing tells the time for which it was armed.

Results:
1. `fires_reload`: a member that reloads fires for `d`, `d + p`, `d + 2 * p` and so on, in
   this order and with none left out, however late.
2. `fires_once`: one that does not fires at most once.
3. `count_reload`: how often it has fired once nothing is due.
4. `run_reload`, `run_frame`: firings as runs, and what they leave alone.
-/

namespace Schedules

open Runs

variable {α : Type} [DecidableEq α]

/-! ## Definitions -/

structure Schedule (α : Type) where
  now : Nat
  armed : α → Option Nat
  period : α → Nat
  reload : α → Bool

/-- `fire` tells for which time the member was armed, and when it fired. -/
inductive Event (α : Type)
  | tick
  | start (x : α) (sent : Nat)
  | stop (x : α)
  | change (x : α) (period : Nat)
  | setReload (x : α) (reload : Bool)
  | fire (x : α) (due time : Nat)

/-- Nothing fires before its time. A start counts from the time at which it was sent, a new
period from now. -/
inductive Step : Schedule α → Event α → Schedule α → Prop
  | tick {a : Schedule α} : Step a .tick { a with now := a.now + 1 }
  | start {a : Schedule α} {x : α} {sent : Nat} : sent ≤ a.now →
      Step a (.start x sent) { a with armed := Function.update a.armed x (some (sent + a.period x)) }
  | stop {a : Schedule α} {x : α} :
      Step a (.stop x) { a with armed := Function.update a.armed x none }
  | change {a : Schedule α} {x : α} {p : Nat} : 0 < p →
      Step a (.change x p) { a with
        armed := Function.update a.armed x (some (a.now + p))
        period := Function.update a.period x p }
  | setReload {a : Schedule α} {x : α} {b : Bool} :
      Step a (.setReload x b) { a with reload := Function.update a.reload x b }
  | fire {a : Schedule α} {x : α} {due : Nat} : a.armed x = some due → due ≤ a.now →
      Step a (.fire x due a.now) { a with
        armed := Function.update a.armed x (if a.reload x then some (due + a.period x) else none) }

/-- Whether an event changes the schedule of a member otherwise than by firing. -/
def Event.Sets (x : α) : Event α → Prop
  | .start y _ | .stop y | .change y _ | .setReload y _ => y = x
  | .tick | .fire _ _ _ => False

/-- The firings of a member: for which time, and when. -/
def fires (x : α) : List (Event α) → List (Nat × Nat)
  | [] => []
  | .fire y due time :: es => if y = x then (due, time) :: fires x es else fires x es
  | _ :: es => fires x es

/-! ## The firings of one member -/

variable {a b : Schedule α} {e : Event α} {es : List (Event α)} {x : α} {d p : Nat}

theorem fires_cons (e : Event α) (es : List (Event α)) :
    fires x (e :: es) = fires x [e] ++ fires x es := by
  cases e with
  | fire y due time =>
    simp only [fires]
    split <;> rfl
  | _ => rfl

theorem fire_mem_of_mem_fires {f : Nat × Nat} (hf : f ∈ fires x es) : .fire x f.1 f.2 ∈ es := by
  induction es with
  | nil => exact absurd hf List.not_mem_nil
  | cons e es ih =>
    cases e with
    | fire y due time =>
      rw [fires] at hf
      split at hf
      · rename_i hy
        rcases List.mem_cons.mp hf with rfl | hf
        · rw [hy]
          exact List.mem_cons_self
        · exact List.mem_cons_of_mem _ (ih hf)
      · exact List.mem_cons_of_mem _ (ih hf)
    | _ => exact List.mem_cons_of_mem _ (ih hf)

theorem now_le (h : Run Step a es b) : a.now ≤ b.now := by
  induction h with
  | nil => exact Nat.le_refl _
  | cons hs _ ih =>
    refine Nat.le_trans ?_ ih
    cases hs with
    | tick => exact Nat.le_succ _
    | _ => exact Nat.le_refl _

/-- An event that does not set the member and is no firing of it leaves it alone. -/
theorem same_of_step (hs : Step a e b) (hset : ¬ e.Sets x) (hf : fires x [e] = []) :
    b.armed x = a.armed x ∧ b.period x = a.period x ∧ b.reload x = a.reload x := by
  cases hs with
  | tick => exact ⟨rfl, rfl, rfl⟩
  | start => exact ⟨Function.update_of_ne (Ne.symm hset) .., rfl, rfl⟩
  | stop => exact ⟨Function.update_of_ne (Ne.symm hset) .., rfl, rfl⟩
  | change =>
    have hne := Ne.symm hset
    exact ⟨Function.update_of_ne hne .., Function.update_of_ne hne .., rfl⟩
  | setReload => exact ⟨rfl, rfl, Function.update_of_ne (Ne.symm hset) ..⟩
  | @fire y due ha hd =>
    have hne : x ≠ y := fun he => by simp [fires, he] at hf
    exact ⟨Function.update_of_ne hne .., rfl, rfl⟩

/-- A member's period and whether it reloads change only by being set. -/
theorem kept_of_step (hs : Step a e b) (hset : ¬ e.Sets x) :
    b.period x = a.period x ∧ b.reload x = a.reload x := by
  cases hs with
  | change => exact ⟨Function.update_of_ne (Ne.symm hset) .., rfl⟩
  | setReload => exact ⟨rfl, Function.update_of_ne (Ne.symm hset) ..⟩
  | _ => exact ⟨rfl, rfl⟩

theorem kept_of_run (h : Run Step a es b) (hset : ∀ e ∈ es, ¬ e.Sets x) :
    b.period x = a.period x ∧ b.reload x = a.reload x := by
  induction h with
  | nil => exact ⟨rfl, rfl⟩
  | cons hs _ ih =>
    obtain ⟨he, hes⟩ := List.forall_mem_cons.mp hset
    obtain ⟨hperiod, hreload⟩ := kept_of_step hs he
    obtain ⟨hperiod', hreload'⟩ := ih hes
    exact ⟨hperiod'.trans hperiod, hreload'.trans hreload⟩

theorem fires_singleton (e : Event α) : fires x [e] = [] ∨ ∃ due time, e = .fire x due time ∧
    fires x [e] = [(due, time)] := by
  cases e with
  | fire y due time =>
    by_cases hy : y = x
    · subst hy
      exact .inr ⟨due, time, rfl, by simp [fires]⟩
    · exact .inl (by simp [fires, hy])
  | _ => exact .inl rfl

/-- However late, a member that reloads fires for every period in turn. -/
theorem fires_reload (h : Run Step a es b) (ha : a.armed x = some d) (hr : a.reload x = true)
    (hset : ∀ e ∈ es, ¬ e.Sets x) :
    (fires x es).map Prod.fst = (List.range (fires x es).length).map (fun k => d + k * a.period x) ∧
    b.armed x = some (d + (fires x es).length * a.period x) ∧
    ∀ f ∈ fires x es, f.1 ≤ f.2 ∧ f.2 ≤ b.now := by
  induction h generalizing d with
  | nil => exact ⟨rfl, by simpa [fires] using ha, fun f hf => absurd hf List.not_mem_nil⟩
  | @cons a u b e es hs hrun ih =>
    obtain ⟨he, hes⟩ := List.forall_mem_cons.mp hset
    have happ := fires_cons (x := x) e es
    rcases fires_singleton (x := x) e with hnone | ⟨due, time, rfl, hone⟩
    · obtain ⟨h1, h2, h3⟩ := same_of_step hs he hnone
      rw [happ, hnone, List.nil_append, ← h2]
      exact ih (h1.trans ha) (h3.trans hr) hes
    · cases hs with
      | fire ha' hd =>
        obtain rfl := Option.some.inj (ha.symm.trans ha')
        have hu : Function.update a.armed x (if a.reload x then some (d + a.period x) else none) x =
            some (d + a.period x) := by
          rw [Function.update_self, if_pos hr]
        obtain ⟨h1, h2, h3⟩ := ih hu hr hes
        have hnow := now_le hrun
        have hperiod : ∀ k, d + a.period x + k * a.period x = d + (k + 1) * a.period x := by
          intro k
          rw [Nat.add_mul, Nat.one_mul, Nat.add_assoc, Nat.add_comm (a.period x)]
        rw [happ, hone]
        refine ⟨?_, ?_, fun f hf => ?_⟩
        · have hrange : (List.range ((fires x es).length + 1)).map (fun k => d + k * a.period x) =
              d :: (List.range (fires x es).length).map fun k => d + (k + 1) * a.period x := by
            rw [List.range_succ_eq_map, List.map_cons, List.map_map, Nat.zero_mul]
            rfl
          rw [List.map_append, h1, List.length_append, List.length_singleton, Nat.add_comm 1, hrange]
          exact congrArg (d :: ·) (List.map_congr_left fun k _ => hperiod k)
        · rw [h2, List.length_append, List.length_singleton, Nat.add_comm 1]
          exact congrArg some (hperiod _)
        · rcases List.mem_append.mp hf with hf | hf
          · obtain rfl := List.mem_singleton.mp hf
            exact ⟨hd, hnow⟩
          · exact h3 f hf

/-- A member that is not armed does not fire. -/
theorem fires_none (h : Run Step a es b) (ha : a.armed x = none) (hset : ∀ e ∈ es, ¬ e.Sets x) :
    fires x es = [] ∧ b.armed x = none := by
  induction h with
  | nil => exact ⟨rfl, ha⟩
  | @cons a u b e es hs _ ih =>
    obtain ⟨he, hes⟩ := List.forall_mem_cons.mp hset
    have happ := fires_cons (x := x) e es
    rcases fires_singleton (x := x) e with hnone | ⟨due, time, rfl, _⟩
    · rw [happ, hnone, List.nil_append]
      exact ih ((same_of_step hs he hnone).1.trans ha) hes
    · cases hs with
      | fire ha' _ =>
        rw [ha] at ha'
        cases ha'

/-- A member that does not reload fires once at most, and then for the time it was armed for. -/
theorem fires_once (h : Run Step a es b) (ha : a.armed x = some d) (hr : a.reload x = false)
    (hset : ∀ e ∈ es, ¬ e.Sets x) : (fires x es = [] ∧ b.armed x = some d) ∨
      ∃ time, fires x es = [(d, time)] ∧ d ≤ time ∧ time ≤ b.now ∧ b.armed x = none := by
  induction h with
  | nil => exact .inl ⟨rfl, ha⟩
  | @cons a u b e es hs hrun ih =>
    obtain ⟨he, hes⟩ := List.forall_mem_cons.mp hset
    have happ := fires_cons (x := x) e es
    rcases fires_singleton (x := x) e with hnone | ⟨due, time, rfl, hone⟩
    · obtain ⟨h1, _, h3⟩ := same_of_step hs he hnone
      rw [happ, hnone, List.nil_append]
      exact ih (h1.trans ha) (h3.trans hr) hes
    · cases hs with
      | fire ha' hd =>
        obtain rfl := Option.some.inj (ha.symm.trans ha')
        have hu : Function.update a.armed x (if a.reload x then some (d + a.period x) else none) x =
            none := by
          rw [Function.update_self, hr]
          rfl
        obtain ⟨hnil, hnone⟩ := fires_none hrun hu hes
        have hnow := now_le hrun
        refine .inr ⟨a.now, ?_, hd, hnow, hnone⟩
        rw [happ, hone, hnil]
        rfl

/-- When a member that reloads is armed for a time after `T`, and none of its firings came
after `T`, then it has fired once for each period since its start at `S`. -/
theorem count_reload {S T : Nat} (h : Run Step a es b) (ha : a.armed x = some (S + a.period x))
    (hr : a.reload x = true) (hset : ∀ e ∈ es, ¬ e.Sets x) (hS : S ≤ T)
    (hfires : ∀ f ∈ fires x es, f.2 ≤ T) (hnext : ∀ due, b.armed x = some due → T < due) :
    (fires x es).length = (T - S) / a.period x := by
  obtain ⟨hdues, hb, hlate⟩ := fires_reload h ha hr hset
  have hlt := hnext _ hb
  refine (Nat.div_eq_of_lt_le ?_ ?_).symm
  · cases hn : (fires x es).length with
    | zero =>
      rw [Nat.zero_mul]
      exact Nat.zero_le _
    | succ n =>
      have hlast : S + a.period x + n * a.period x ∈ (fires x es).map Prod.fst := by
        rw [hdues, hn]
        exact List.mem_map.mpr ⟨n, List.mem_range.mpr (Nat.lt_succ_self n), rfl⟩
      obtain ⟨f, hf, he⟩ := List.mem_map.mp hlast
      have hle := Nat.le_trans (hlate f hf).1 (hfires f hf)
      rw [Nat.add_mul, Nat.one_mul]
      omega
  · rw [Nat.add_mul, Nat.one_mul]
    omega

/-! ## Firings as runs -/

/-- Firings at one time. -/
def fireEvents (now : Nat) (fs : List (α × Nat)) : List (Event α) :=
  fs.map fun f => .fire f.1 f.2 now

/-- A schedule with one member set anew. -/
def Schedule.put (a : Schedule α) (x : α) (o : Option Nat) (p : Nat) : Schedule α :=
  { a with armed := Function.update a.armed x o, period := Function.update a.period x p }

variable {ds : List (α × Nat)} {o : Option Nat} {now : Nat}

/-- Firings change what the members are armed for, and nothing else. -/
theorem same_of_fires (h : Run Step a (fireEvents now ds) b) :
    b.now = a.now ∧ b.period = a.period ∧ b.reload = a.reload := by
  induction ds generalizing a with
  | nil =>
    cases h
    exact ⟨rfl, rfl, rfl⟩
  | cons f ds ih =>
    cases h with
    | cons hs hr =>
      cases hs with
      | fire _ _ =>
        have hrest := ih hr
        exact hrest

/-- A member that is not armed is left alone. -/
theorem others_fire (h : Run Step a (fireEvents now ds) b) (ha : a.armed x = none) :
    (∀ f ∈ ds, f.1 ≠ x) ∧ b.armed x = none := by
  induction ds generalizing a with
  | nil =>
    cases h
    exact ⟨fun f hf => absurd hf List.not_mem_nil, ha⟩
  | cons f ds ih =>
    cases h with
    | cons hs hr =>
      cases hs with
      | fire ha' _ =>
        have hne : f.1 ≠ x := by
          intro he
          rw [he, ha] at ha'
          cases ha'
        have hnone : Function.update a.armed f.1
            (if a.reload f.1 then some (f.2 + a.period f.1) else none) x = none := by
          rw [Function.update_of_ne (Ne.symm hne), ha]
        obtain ⟨hall, hb⟩ := ih hr hnone
        exact ⟨List.forall_mem_cons.mpr ⟨hne, hall⟩, hb⟩

/-- Firings of others go on in the same way when a member is set anew. -/
theorem run_frame (h : Run Step a (fireEvents now ds) b) (hne : ∀ f ∈ ds, f.1 ≠ x) :
    Run Step (a.put x o p) (fireEvents now ds) (b.put x o p) := by
  induction ds generalizing a with
  | nil =>
    cases h
    exact .nil
  | cons f ds ih =>
    obtain ⟨hf, hds⟩ := List.forall_mem_cons.mp hne
    cases h with
    | cons hs hr =>
      cases hs with
      | fire ha hd =>
        have ha' : (a.put x o p).armed f.1 = some f.2 := (Function.update_of_ne hf ..).trans ha
        have hperiod : (a.put x o p).period f.1 = a.period f.1 := Function.update_of_ne hf ..
        have hstep := Step.fire (a := a.put x o p) ha' hd
        rw [hperiod] at hstep
        refine .cons hstep ?_
        have hcomm := Function.update_comm hf
          (if a.reload f.1 then some (f.2 + a.period f.1) else none) o a.armed
        have hrest := ih hr hds
        simp only [Schedule.put] at hrest ⊢
        rw [hcomm] at hrest
        exact hrest

/-- The firings of a member that catches up. -/
theorem run_reload {k : Nat} (ha : a.armed x = some d) (hr : a.reload x = true)
    (hd : ∀ i < k, d + i * a.period x ≤ a.now) :
    Run Step a (fireEvents a.now ((List.range k).map fun i => (x, d + i * a.period x)))
      { a with armed := Function.update a.armed x (some (d + k * a.period x)) } := by
  induction k with
  | zero =>
    rw [Nat.zero_mul, Nat.add_zero, ← ha, Function.update_eq_self]
    exact .nil
  | succ k ih =>
    have hk := ih fun i hi => hd i (Nat.lt_succ_of_lt hi)
    rw [List.range_succ, List.map_append, List.map_singleton, fireEvents, List.map_append]
    refine hk.append (.single ?_)
    have hstep := Step.fire (a := { a with
      armed := Function.update a.armed x (some (d + k * a.period x)) })
      (Function.update_self ..) (hd k (Nat.lt_succ_self k))
    rw [if_pos hr, Function.update_idem, Nat.add_assoc, ← Nat.succ_mul] at hstep
    exact hstep

end Schedules
