import BlackPill.KernelTimers
import Mathlib.Data.List.Perm.Subperm

/-!
# What the timer functions do

Each function of `timers.c` against a schedule in which times do not wrap.

Results:
1. `insert_spec`: whether a timer has expired already, and otherwise into which list it goes, is
   decided rightly from tick counts that wrap.
2. `expire_spec`, `switch_spec`: an expired timer fires for every period in turn; a switch of the
   lists fires all that are left of the round.
3. `sample_spec`, `command_spec`: what sampling the time and a command do to the schedule.
-/

namespace BlackPill.KernelTimers

open KernelLists KernelListsLemmas Epochs Schedules Runs

/-! ## The invariant -/

/-- The two lists hold the armed timers, by the rounds of the tick count to which their expiry
times belong, and in their order. -/
structure Sound {τ : Type} (s : Timers τ) (round : Nat) (armed : τ → Option Nat)
    (xs : TimerList → List τ) : Prop where
  kept : Kept s.lists fun l => .line (xs l)
  distinct : s.pxCurrentTimerList ≠ s.pxOverflowTimerList
  split : Split (2 ^ 32) round armed (xs s.pxCurrentTimerList) (xs s.pxOverflowTimerList)
  sorted : ∀ l, (xs l).Pairwise fun t u =>
    s.lists.xItemValue (.item t) ≤ s.lists.xItemValue (.item u)
  value : ∀ t d, armed t = some d → s.lists.xItemValue (.item t) = d % 2 ^ 32
  owner : ∀ t d, armed t = some d → s.lists.pvOwner t = t
  period : ∀ t, 0 < s.period t ∧ s.period t < 2 ^ 32

/-- What the functions on the lists leave alone, and the callbacks that they call. -/
structure Called {τ : Type} (s s' : Timers τ) (ts : List τ) : Prop where
  timer : s'.timer = s.timer
  freed : s'.freed = s.freed
  current : s'.pxCurrentTimerList = s.pxCurrentTimerList
  overflow : s'.pxOverflowTimerList = s.pxOverflowTimerList
  last : s'.xLastTime = s.xLastTime
  calls : s'.calls = s.calls ++ ts

/-- The timers are those of the schedule. -/
structure Matches {τ : Type} (s : Timers τ) (round : Nat) (a : Schedule τ) : Prop where
  sound : ∃ xs, Sound s round a.armed xs
  period : ∀ t, a.period t = s.period t
  reload : ∀ t, a.reload t = (s.timer t).autoReload
  freed : ∀ t, s.freed t = true → a.armed t = none

/-- The status bit of the timer is right. -/
def StatusOk {τ : Type} (s : Timers τ) (a : Schedule τ) (t : τ) : Prop :=
  s.freed t = false → (s.timer t).active = (a.armed t).isSome

/-- The callbacks called are the firings of the schedule, and the status bits follow it. -/
structure Fired {τ : Type} [DecidableEq τ] (s s' : Timers τ) (a a' : Schedule τ)
    (fs : List (τ × Nat)) : Prop where
  run : Run Step a (fireEvents a.now fs) a'
  calls : s'.calls = s.calls ++ fs.map Prod.fst
  freed : s'.freed = s.freed
  status : ∀ t, StatusOk s a t → StatusOk s' a' t

namespace KernelTimersLemmas

variable {τ : Type} {s s' s'' : Timers τ} {round d : Nat} {armed : τ → Option Nat}
  {xs : TimerList → List τ} {t u : τ} {l : TimerList} {ts us : List τ} {S N E : Nat}

theorem called_trans (h : Called s s' ts) (h' : Called s' s'' us) : Called s s'' (ts ++ us) where
  timer := h'.timer.trans h.timer
  freed := h'.freed.trans h.freed
  current := h'.current.trans h.current
  overflow := h'.overflow.trans h.overflow
  last := h'.last.trans h.last
  calls := by rw [h'.calls, h.calls, List.append_assoc]

theorem called_nil (lists : Lists τ TimerList τ) : Called s { s with lists := lists } [] :=
  ⟨rfl, rfl, rfl, rfl, rfl, (List.append_nil _).symm⟩

theorem called_call [DecidableEq τ] : Called s (s.call t) [t] := ⟨rfl, rfl, rfl, rfl, rfl, rfl⟩

/-! ## The lists -/

theorem list_cases {c o : TimerList} (h : c ≠ o) (l : TimerList) : l = c ∨ l = o := by
  cases l <;> cases c <;> cases o <;> simp_all

/-- A timer that is not armed is in neither list. -/
theorem notMem_of_unarmed (h : Sound s round armed xs) (ht : armed t = none) (l : TimerList) :
    t ∉ xs l := by
  obtain ⟨hc, ho⟩ := h.split.notMem_of_none ht
  rcases list_cases h.distinct l with rfl | rfl
  · exact hc
  · exact ho

theorem container_of_unarmed (h : Sound s round armed xs) (ht : armed t = none) :
    s.lists.pxContainer t = none := by
  cases hc : s.lists.pxContainer t with
  | none => rfl
  | some l => exact absurd ((h.kept.container t l).mp hc) (notMem_of_unarmed h ht l)

theorem exists_list_of_armed (h : Sound s round armed xs) (ht : armed t = some d) :
    ∃ l, t ∈ xs l := by
  rcases h.split.near t d ht with hr | hr
  · exact ⟨_, (h.split.cur t).mpr ⟨d, ht, hr⟩⟩
  · exact ⟨_, (h.split.next t).mpr ⟨d, ht, hr⟩⟩

theorem armed_of_mem (h : Sound s round armed xs) (ht : t ∈ xs l) : ∃ d, armed t = some d := by
  rcases list_cases h.distinct l with rfl | rfl
  · obtain ⟨d, hd, _⟩ := (h.split.cur t).mp ht
    exact ⟨d, hd⟩
  · obtain ⟨d, hd, _⟩ := (h.split.next t).mp ht
    exact ⟨d, hd⟩

theorem line_update {ys : List τ} : Function.update (fun l => Turns.line (xs l)) l (.line ys) =
    fun m => .line (Function.update xs l ys m) :=
  (Function.comp_update Turns.line xs l ys).symm

variable [DecidableEq τ]

/-- The value and the owner are set on a timer that is in no list. -/
theorem sound_touch (h : Sound s round armed xs) (ht : armed t = none) (hd : d ≤ portMaxDelay) :
    Sound { s with lists := (s.lists.setValue (.item t) d).setOwner t t } round armed xs := by
  have hother : ∀ u e, armed u = some e → u ≠ t := by
    rintro u e hu rfl
    rw [ht] at hu
    cases hu
  have hvalue : ∀ u, u ≠ t → (s.lists.setValue (.item t) d).xItemValue (.item u) =
      s.lists.xItemValue (.item u) := fun u hu =>
    Function.update_of_ne (fun he => hu (Node.item.inj he)) ..
  refine ⟨kept_setOwner (kept_setValue h.kept hd), h.distinct, h.split, fun l => ?_, fun u e hu => ?_,
    fun u e hu => ?_, h.period⟩
  · refine (h.sorted l).imp_of_mem fun {a b} ha hb hab => ?_
    obtain ⟨e, he⟩ := armed_of_mem h ha
    obtain ⟨f, hf⟩ := armed_of_mem h hb
    show (s.lists.setValue (.item t) d).xItemValue (.item a) ≤
      (s.lists.setValue (.item t) d).xItemValue (.item b)
    rw [hvalue a (hother a e he), hvalue b (hother b f hf)]
    exact hab
  · exact (hvalue u (hother u e hu)).trans (h.value u e hu)
  · exact (Function.update_of_ne (hother u e hu) ..).trans (h.owner u e hu)

/-- The timer goes into the list of the round to which its expiry time belongs. -/
theorem sound_link (h : Sound s round armed xs) (ht : armed t = none)
    (hv : s.lists.xItemValue (.item t) = d % 2 ^ 32) (ho : s.lists.pvOwner t = t)
    (hl : (l = s.pxCurrentTimerList ∧ d / 2 ^ 32 = round) ∨
      (l = s.pxOverflowTimerList ∧ d / 2 ^ 32 = round + 1)) :
    ∃ lists xs', vListInsert s.lists l t = some lists ∧
      Sound { s with lists := lists } round (Function.update armed t (some d)) xs' := by
  obtain ⟨lists, he, hk, hs⟩ := vListInsert_line (l := l) h.kept rfl (container_of_unarmed h ht)
  rw [line_update] at hk
  refine ⟨lists, _, he, hk, h.distinct, ?_, fun m => ?_, fun u e hu => ?_, fun u e hu => ?_,
    h.period⟩
  · rcases hl with ⟨rfl, hr⟩ | ⟨rfl, hr⟩
    · rw [Function.update_self, Function.update_of_ne h.distinct.symm]
      exact h.split.insertCur ht hr fun _ => mem_insertBy
    · rw [Function.update_self, Function.update_of_ne h.distinct]
      exact h.split.insertNext ht hr fun _ => mem_insertBy
  · show (Function.update xs l _ m).Pairwise fun a b =>
      lists.xItemValue (.item a) ≤ lists.xItemValue (.item b)
    rw [hs.value]
    by_cases hm : m = l
    · subst hm
      rw [Function.update_self]
      exact sorted_insertBy (h.sorted m)
    · rw [Function.update_of_ne hm]
      exact h.sorted m
  · show lists.xItemValue (.item u) = _
    rw [hs.value]
    by_cases hu' : u = t
    · subst hu'
      rw [Function.update_self] at hu
      obtain rfl := Option.some.inj hu
      exact hv
    · rw [Function.update_of_ne hu'] at hu
      exact h.value u e hu
  · show lists.pvOwner u = u
    rw [hs.owner]
    by_cases hu' : u = t
    · rw [hu', ho]
    · rw [Function.update_of_ne hu'] at hu
      exact h.owner u e hu

/-- A timer is taken out of the list that it is in. -/
theorem sound_unlink (h : Sound s round armed xs) (ht : t ∈ xs l) :
    ∃ lists n, uxListRemove s.lists t = some (lists, n) ∧ Sound { s with lists := lists } round
      (Function.update armed t none) fun m => (xs m).erase t := by
  obtain ⟨lists, he, hk, hs⟩ := uxListRemove_line (l := l) h.kept rfl ht
  have hnodup : ∀ m, (xs m).Nodup := fun m => nodup_items (h.kept.holds m)
  have herase : Function.update xs l ((xs l).erase t) = fun m => (xs m).erase t := by
    funext m
    by_cases hm : m = l
    · rw [hm, Function.update_self]
    · rw [Function.update_of_ne hm]
      refine (List.erase_of_not_mem fun hi => hm ?_).symm
      exact Option.some.inj (((h.kept.container t m).mpr hi).symm.trans
        ((h.kept.container t l).mpr ht))
  rw [line_update, herase] at hk
  have hother : ∀ u e, Function.update armed t none u = some e → armed u = some e := by
    intro u e hu
    by_cases hu' : u = t
    · rw [hu', Function.update_self] at hu
      cases hu
    · rwa [Function.update_of_ne hu'] at hu
  refine ⟨lists, _, he, hk, h.distinct, ?_, fun m => ?_, fun u e hu => ?_, fun u e hu => ?_,
    h.period⟩
  · exact h.split.erase (fun u => (hnodup _).mem_erase_iff) fun u => (hnodup _).mem_erase_iff
  · show ((xs m).erase t).Pairwise fun a b =>
      lists.xItemValue (.item a) ≤ lists.xItemValue (.item b)
    rw [hs.value]
    exact (h.sorted m).sublist List.erase_sublist
  · exact (congrFun hs.value _).trans (h.value u e (hother u e hu))
  · exact (congrFun hs.owner _).trans (h.owner u e (hother u e hu))

/-! ## The table of the timers -/

omit [DecidableEq τ] in
/-- The invariant is about the lists and the periods. -/
theorem sound_fields (h : Sound s round armed xs) (hl : s'.lists = s.lists)
    (hc : s'.pxCurrentTimerList = s.pxCurrentTimerList)
    (ho : s'.pxOverflowTimerList = s.pxOverflowTimerList)
    (hp : ∀ u, 0 < s'.period u ∧ s'.period u < 2 ^ 32) : Sound s' round armed xs where
  kept := hl ▸ h.kept
  distinct := by
    rw [hc, ho]
    exact h.distinct
  split := by
    rw [hc, ho]
    exact h.split
  sorted := by
    rw [hl]
    exact h.sorted
  value := by
    rw [hl]
    exact h.value
  owner := by
    rw [hl]
    exact h.owner
  period := hp

omit [DecidableEq τ] in
theorem period_call : (s.call t).period u = s.period u := rfl

theorem period_setActive {b : Bool} : (s.setActive t b).period u = s.period u := by
  show (Function.update s.timer t _ u).xTimerPeriodInTicks = _
  by_cases hu : u = t
  · rw [hu, Function.update_self]
    rfl
  · rw [Function.update_of_ne hu]
    rfl

theorem autoReload_setActive {b : Bool} :
    ((s.setActive t b).timer u).autoReload = (s.timer u).autoReload := by
  show (Function.update s.timer t _ u).autoReload = _
  by_cases hu : u = t
  · rw [hu, Function.update_self]
  · rw [Function.update_of_ne hu]

theorem active_setActive_of_ne {b : Bool} (hu : u ≠ t) :
    ((s.setActive t b).timer u).active = (s.timer u).active := by
  show (Function.update s.timer t _ u).active = _
  rw [Function.update_of_ne hu]

theorem active_setActive {b : Bool} : ((s.setActive t b).timer t).active = b := by
  show (Function.update s.timer t _ t).active = b
  rw [Function.update_self]

theorem put_period {a : Schedule τ} {o : Option Nat} :
    a.put t o (a.period t) = { a with armed := Function.update a.armed t o } := by
  rw [Schedule.put, Function.update_eq_self]

/-- One timer has been set anew, in the lists and in the schedule. -/
theorem matches_put {a : Schedule τ} {o : Option Nat} {p : Nat} (hm : Matches s round a)
    (hf : s.freed t = false) (hs : Sound s' round (Function.update a.armed t o) xs)
    (hfreed : s'.freed = s.freed) (hp : s'.period t = p)
    (hother : ∀ u, u ≠ t → s'.period u = s.period u)
    (hreload : ∀ u, (s'.timer u).autoReload = (s.timer u).autoReload) :
    Matches s' round (a.put t o p) := by
  refine ⟨⟨xs, hs⟩, fun u => ?_, fun u => (hm.reload u).trans (hreload u).symm, fun u hu => ?_⟩
  · show Function.update a.period t p u = s'.period u
    by_cases hut : u = t
    · rw [hut, Function.update_self, hp]
    · rw [Function.update_of_ne hut, hother u hut]
      exact hm.period u
  · have hu' : s.freed u = true := (congrFun hfreed u).symm.trans hu
    have hut : u ≠ t := fun he => absurd (hf.symm.trans (he ▸ hu')) (by simp)
    exact (Function.update_of_ne hut ..).trans (hm.freed u hu')

/-- The other timers keep their status. -/
theorem status_put {a : Schedule τ} {o : Option Nat} {p : Nat} (hfreed : s'.freed = s.freed)
    (hother : ∀ u, u ≠ t → (s'.timer u).active = (s.timer u).active)
    (ht : StatusOk s a t → (s'.timer t).active = o.isSome) (hu : StatusOk s a u) :
    StatusOk s' (a.put t o p) u := by
  intro hf
  rw [hfreed] at hf
  show _ = (Function.update a.armed t o u).isSome
  by_cases hut : u = t
  · subst hut
    rw [Function.update_self, ht hu]
  · rw [Function.update_of_ne hut, hother u hut, hu hf]

omit [DecidableEq τ] in
theorem free_of_armed {a : Schedule τ} (hm : Matches s round a) (ht : a.armed t = some d) :
    s.freed t = false := by
  cases hf : s.freed t with
  | false => rfl
  | true => exact absurd (ht.symm.trans (hm.freed t hf)) (by simp)

end KernelTimersLemmas

open KernelTimersLemmas

/-! ## Insertion -/

section Insertion

variable {τ : Type} [DecidableEq τ] {s : Timers τ} {round : Nat} {armed : τ → Option Nat}
  {xs : TimerList → List τ} {t : τ} {S N E : Nat}

/-- For a command sent at `S` and processed at `N`, less than a round later: the timer expires
at once if its period from `S` on is over, and otherwise goes into the right list. -/
theorem insert_spec (h : Sound s round armed xs) (ht : armed t = none) (hS : S ≤ N)
    (hN : N < S + 2 ^ 32) (hround : N / 2 ^ 32 = round) :
    ∃ s' xs', prvInsertTimerInActiveList s t ((S + s.period t) % 2 ^ 32) (N % 2 ^ 32)
        (S % 2 ^ 32) = some (s', decide (S + s.period t ≤ N)) ∧ Called s s' [] ∧
      Sound s' round (if S + s.period t ≤ N then armed
        else Function.update armed t (some (S + s.period t))) xs' := by
  obtain ⟨hp0, hp⟩ := h.period t
  have hm : 0 < 2 ^ 32 := Nat.two_pow_pos 32
  let lists := (s.lists.setValue (.item t) ((S + s.period t) % 2 ^ 32)).setOwner t t
  have htouch : Sound { s with lists := lists } round armed xs :=
    sound_touch h ht (Nat.le_pred_of_lt (Nat.mod_lt _ hm))
  have hvalue : lists.xItemValue (.item t) = (S + s.period t) % 2 ^ 32 := Function.update_self ..
  have howner : lists.pvOwner t = t := Function.update_self ..
  have hover := overdue_iff hm hS hN hp hp0
  have hahead := deadline_round hm hS hN hp
  have hdiff := mod_sub_mod hm hS hN
  have hlink : ∀ l, ¬ S + s.period t ≤ N → (l = s.pxCurrentTimerList ∧
        (S + s.period t) / 2 ^ 32 = round ∨ l = s.pxOverflowTimerList ∧
        (S + s.period t) / 2 ^ 32 = round + 1) →
      ∃ s' xs', ((vListInsert lists l t).map fun lists => ({ s with lists := lists }, false)) =
          some (s', decide (S + s.period t ≤ N)) ∧ Called s s' [] ∧
        Sound s' round (if S + s.period t ≤ N then armed
          else Function.update armed t (some (S + s.period t))) xs' := by
    intro l hlate hl
    obtain ⟨lists', xs', he, hsound⟩ := sound_link htouch ht hvalue howner hl
    rw [he, if_neg hlate, decide_eq_false hlate]
    exact ⟨_, xs', rfl, called_nil lists', hsound⟩
  have hdone : S + s.period t ≤ N →
      ∃ s' xs', some (({ s with lists := lists } : Timers τ), true) =
          some (s', decide (S + s.period t ≤ N)) ∧ Called s s' [] ∧
        Sound s' round (if S + s.period t ≤ N then armed
          else Function.update armed t (some (S + s.period t))) xs' := by
    intro hdue
    rw [if_pos hdue, decide_eq_true hdue]
    exact ⟨_, xs, rfl, called_nil lists, htouch⟩
  show ∃ s' xs', (if (S + s.period t) % 2 ^ 32 ≤ N % 2 ^ 32 then
      if s.period t ≤ (N % 2 ^ 32 + 2 ^ 32 - S % 2 ^ 32) % 2 ^ 32 then some (_, true)
      else (vListInsert lists s.pxOverflowTimerList t).map fun lists =>
        ({ s with lists := lists }, false)
    else
      if N % 2 ^ 32 < S % 2 ^ 32 ∧ S % 2 ^ 32 ≤ (S + s.period t) % 2 ^ 32 then some (_, true)
      else (vListInsert lists s.pxCurrentTimerList t).map fun lists =>
        ({ s with lists := lists }, false)) = some (s', _) ∧ _
  rw [hdiff]
  by_cases hread : (S + s.period t) % 2 ^ 32 ≤ N % 2 ^ 32
  · rw [if_pos hread] at hover hahead ⊢
    by_cases hdue : s.period t ≤ N - S
    · rw [if_pos hdue]
      exact hdone (hover.mpr hdue)
    · rw [if_neg hdue]
      have hlate := mt hover.mp hdue
      exact hlink _ hlate (.inr ⟨rfl, (hahead (Nat.lt_of_not_le hlate)).trans (by rw [hround])⟩)
  · rw [if_neg hread] at hover hahead ⊢
    by_cases hdue : N % 2 ^ 32 < S % 2 ^ 32 ∧ S % 2 ^ 32 ≤ (S + s.period t) % 2 ^ 32
    · rw [if_pos hdue]
      exact hdone (hover.mpr hdue)
    · rw [if_neg hdue]
      have hlate := mt hover.mp hdue
      exact hlink _ hlate (.inl ⟨rfl, (hahead (Nat.lt_of_not_le hlate)).trans hround⟩)

/-- The loop of `prvReloadTimer`, for a timer that has expired for `E`: it is called back for
each further expiry time up to `N`, and then goes into the list of the next one. -/
theorem reload_spec (fuel : Nat) (h : Sound s round armed xs) (ht : armed t = none) (hE : E ≤ N)
    (hN : N < E + 2 ^ 32) (hround : N / 2 ^ 32 = round) (hfuel : (N - E) / s.period t < fuel) :
    ∃ s' xs', reloadTimer t (N % 2 ^ 32) fuel s (E % 2 ^ 32) = some s' ∧
      Called s s' (List.replicate ((N - E) / s.period t) t) ∧
      Sound s' round
        (Function.update armed t (some (E + ((N - E) / s.period t + 1) * s.period t))) xs' := by
  induction fuel generalizing s xs E with
  | zero => exact absurd hfuel (Nat.not_lt_zero _)
  | succ fuel ih =>
    obtain ⟨s1, xs1, he, hcalled, hsound⟩ := insert_spec h ht hE hN hround
    have hp0 := (h.period t).1
    have hperiod : (s1.call t).period t = s.period t := congrArg (fun f => (f t).xTimerPeriodInTicks)
      hcalled.timer
    rw [reloadTimer, Nat.mod_add_mod, he, Option.bind_some]
    by_cases hdue : E + s.period t ≤ N
    · have hdiv : (N - E) / s.period t = (N - (E + s.period t)) / s.period t + 1 := by
        rw [← Nat.sub_sub, Nat.div_eq_sub_div hp0 (Nat.le_sub_of_add_le (Nat.add_comm E _ ▸ hdue))]
      rw [decide_eq_true hdue, if_pos rfl]
      rw [if_pos hdue] at hsound
      have hsound' : Sound (s1.call t) round armed xs1 :=
        ⟨hsound.kept, hsound.distinct, hsound.split, hsound.sorted, hsound.value, hsound.owner,
          hsound.period⟩
      have hlt : N < E + s.period t + 2 ^ 32 := Nat.lt_of_lt_of_le hN (by omega)
      obtain ⟨s2, xs2, he2, hcalled2, hsound2⟩ := ih hsound' hdue hlt (by
        rw [hperiod]
        omega)
      rw [hperiod] at hcalled2 hsound2
      refine ⟨s2, xs2, he2, ?_, ?_⟩
      · rw [hdiv, List.replicate_succ]
        exact called_trans (called_trans hcalled called_call) hcalled2
      · rw [hdiv, Nat.add_mul _ 1, Nat.one_mul, Nat.add_comm _ (s.period t), ← Nat.add_assoc]
        exact hsound2
    · have hdiv : (N - E) / s.period t = 0 := Nat.div_eq_of_lt (by omega)
      rw [decide_eq_false hdue, if_neg (by simp)]
      rw [if_neg hdue] at hsound
      rw [hdiv, Nat.zero_add, Nat.one_mul]
      exact ⟨s1, xs1, rfl, hcalled, hsound⟩

end Insertion

/-! ## Expiry -/

section Expiry

variable {τ : Type} [DecidableEq τ] {s : Timers τ} {round : Nat} {a : Schedule τ}
  {xs : TimerList → List τ} {t : τ} {rest : List τ} {N E : Nat}

/-- The expiry times up to `N` of a timer that is armed for `E`, and the next one. -/
def dueTimes (s : Timers τ) (t : τ) (E N : Nat) : List (τ × Nat) :=
  if (s.timer t).autoReload then
    (List.range ((N - E) / s.period t + 1)).map fun i => (t, E + i * s.period t)
  else [(t, E)]

def nextDue (s : Timers τ) (t : τ) (E N : Nat) : Option Nat :=
  if (s.timer t).autoReload then some (E + ((N - E) / s.period t + 1) * s.period t) else none

omit [DecidableEq τ] in
theorem nextDue_gt (hp : 0 < s.period t) {d : Nat} (hd : nextDue s t E N = some d) : N < d := by
  unfold nextDue at hd
  split at hd
  · obtain rfl := Option.some.inj hd
    have hlt : N - E < ((N - E) / s.period t + 1) * s.period t := by
      rw [Nat.succ_mul]
      exact Nat.lt_div_mul_add hp
    omega
  · cases hd

/-- The schedule fires a timer for all its expiry times up to `N`. -/
theorem run_dueTimes (hper : a.period t = s.period t) (hrel : a.reload t = (s.timer t).autoReload)
    (ht : a.armed t = some E) (hE : E ≤ N) (hnow : N ≤ a.now) :
    Run Step a (fireEvents a.now (dueTimes s t E N))
      (a.put t (nextDue s t E N) (s.period t)) := by
  rw [← hper, put_period]
  unfold dueTimes nextDue
  by_cases hr : (s.timer t).autoReload = true
  · rw [if_pos hr, if_pos hr, ← hper]
    refine run_reload ht (hrel.trans hr) fun i hi => ?_
    have hle := Nat.mul_le_mul_right (a.period t) (Nat.le_of_lt_succ hi)
    have hdiv := Nat.div_mul_le_self (N - E) (a.period t)
    omega
  · rw [if_neg hr, if_neg hr]
    have hstep := Step.fire ht (Nat.le_trans hE hnow)
    rw [hrel, if_neg hr] at hstep
    exact .single hstep

omit [DecidableEq τ] in
theorem dueTimes_reload (hr : (s.timer t).autoReload = true) :
    (dueTimes s t E N).map Prod.fst = List.replicate ((N - E) / s.period t) t ++ [t] := by
  rw [dueTimes, if_pos hr, List.map_map, ← List.replicate_succ',
    show (Prod.fst ∘ fun i => (t, E + i * s.period t)) = fun _ => t from rfl, List.map_const',
    List.length_range]

/-- The head of the current list, armed for `E`, is processed at `N`. -/
theorem expire_spec (hm : Matches s round a) (h : Sound s round a.armed xs)
    (hx : xs s.pxCurrentTimerList = t :: rest) (ht : a.armed t = some E) (hE : E ≤ N)
    (hround : N / 2 ^ 32 = round) (hnow : N ≤ a.now) :
    ∃ s', prvProcessExpiredTimer s (E % 2 ^ 32) (N % 2 ^ 32) = some s' ∧
      Matches s' round (a.put t (nextDue s t E N) (s.period t)) ∧
      Fired s s' a (a.put t (nextDue s t E N) (s.period t)) (dueTimes s t E N) ∧
      s'.pxCurrentTimerList = s.pxCurrentTimerList ∧
      s'.pxOverflowTimerList = s.pxOverflowTimerList ∧ s'.xLastTime = s.xLastTime := by
  have hmem : t ∈ xs s.pxCurrentTimerList := hx ▸ List.mem_cons_self
  have hfree := free_of_armed hm ht
  have hEround : E / 2 ^ 32 = round := by
    obtain ⟨d, hd, hr⟩ := (h.split.cur t).mp hmem
    obtain rfl := Option.some.inj (ht.symm.trans hd)
    exact hr
  have hN : N < E + 2 ^ 32 := by omega
  have hhead : listGetOwnerOfHeadEntry s.lists s.pxCurrentTimerList = some t := by
    rw [(head_line h.kept rfl).2.1, hx, List.head?_cons, Option.map_some, h.owner t E ht]
  obtain ⟨lists, n, hremove, hsound⟩ := sound_unlink h hmem
  have hrun := run_dueTimes (hm.period t) (hm.reload t) ht hE hnow
  rw [prvProcessExpiredTimer, hhead, Option.bind_some, hremove, Option.bind_some]
  by_cases hr : (s.timer t).autoReload = true
  · have hnext : nextDue s t E N = some (E + ((N - E) / s.period t + 1) * s.period t) := if_pos hr
    have hfuel : (N - E) / s.period t < 2 ^ 32 :=
      Nat.lt_of_le_of_lt (Nat.div_le_self _ _) (by omega)
    obtain ⟨s1, xs1, he, hcalled, hsound1⟩ :=
      reload_spec (2 ^ 32) hsound (Function.update_self ..) hE hN hround hfuel
    rw [Function.update_idem] at hsound1
    have htimer : (s1.call t).timer = s.timer := hcalled.timer
    dsimp only
    rw [if_pos hr, prvReloadTimer, he, Option.map_some]
    refine ⟨_, rfl, ?_, ⟨hrun, ?_, hcalled.freed, fun u => ?_⟩, hcalled.current, hcalled.overflow,
      hcalled.last⟩
    · rw [hnext]
      refine matches_put hm hfree (sound_fields hsound1 rfl rfl rfl hsound1.period) hcalled.freed
        ?_ (fun u _ => ?_) fun u => by rw [htimer]
      · rw [Timers.period, htimer, Timers.period]
      · rw [Timers.period, htimer, Timers.period]
    · show s1.calls ++ [t] = _
      rw [hcalled.calls, dueTimes_reload hr, List.append_assoc]
      rfl
    · refine status_put hcalled.freed (fun u _ => by rw [htimer]) fun hst => ?_
      rw [htimer, hst hfree, ht, hnext]
      rfl
  · have hnext : nextDue s t E N = none := if_neg hr
    have hdues : dueTimes s t E N = [(t, E)] := if_neg hr
    rw [hnext, hdues] at hrun ⊢
    dsimp only
    rw [if_neg hr, Option.map_some]
    refine ⟨_, rfl, ?_, ⟨hrun, rfl, rfl, fun u => ?_⟩, rfl, rfl, rfl⟩
    · refine matches_put hm hfree (sound_fields hsound rfl rfl rfl fun u => ?_) rfl
        period_setActive (fun u _ => period_setActive) fun u => autoReload_setActive
      rw [period_call, period_setActive]
      exact hsound.period u
    · exact status_put rfl (fun u hu => active_setActive_of_ne hu) fun _ => active_setActive

theorem fired_refl : Fired s s a a [] := ⟨.nil, (List.append_nil _).symm, rfl, fun _ h => h⟩

theorem fired_trans {s s' s'' : Timers τ} {a a' a'' : Schedule τ} {fs gs : List (τ × Nat)}
    (h : Fired s s' a a' fs) (h' : Fired s' s'' a' a'' gs) : Fired s s'' a a'' (fs ++ gs) := by
  have hnow := (same_of_fires h.run).1
  have hrun := h'.run
  rw [hnow] at hrun
  refine ⟨?_, ?_, h'.freed.trans h.freed, fun t ht => h'.status t (h.status t ht)⟩
  · rw [fireEvents, List.map_append]
    exact h.run.append hrun
  · rw [h'.calls, h.calls, List.map_append, List.append_assoc]

/-- The loop of `prvSwitchTimerLists` fires all that is left of the round that ends at `N`. -/
theorem expireCurrent_spec (fuel : Nat) (hm : Matches s round a) (hnow : N ≤ a.now)
    (hN : N = round * 2 ^ 32 + (2 ^ 32 - 1))
    (hfuel : s.lists.uxNumberOfItems s.pxCurrentTimerList < fuel) :
    ∃ s' a' fs, expireCurrent fuel s = some s' ∧ Matches s' round a' ∧ Fired s s' a a' fs ∧
      s'.pxCurrentTimerList = s.pxCurrentTimerList ∧
      s'.pxOverflowTimerList = s.pxOverflowTimerList ∧ s'.xLastTime = s.xLastTime ∧
      ∀ u d, a'.armed u = some d → d / 2 ^ 32 ≠ round := by
  induction fuel generalizing s a with
  | zero => exact absurd hfuel (Nat.not_lt_zero _)
  | succ fuel ih =>
    obtain ⟨xs, h⟩ := hm.sound
    obtain ⟨hempty, _, hvalue⟩ := head_line h.kept rfl
    rw [expireCurrent, hempty]
    have hcount := (h.kept.holds s.pxCurrentTimerList).count
    cases hx : xs s.pxCurrentTimerList with
    | nil =>
      refine ⟨s, a, [], rfl, hm, fired_refl, rfl, rfl, rfl, fun u d hu hr => ?_⟩
      have hmem := (h.split.cur u).mpr ⟨d, hu, hr⟩
      rw [hx] at hmem
      exact absurd hmem List.not_mem_nil
    | cons t rest =>
      obtain ⟨E, hE, hEr⟩ := (h.split.cur t).mp (hx ▸ List.mem_cons_self)
      have hle : E ≤ N := by omega
      have hmod : N % 2 ^ 32 = tmrMaxTimeBeforeOverflow := by
        rw [hN, tmrMaxTimeBeforeOverflow]
        omega
      obtain ⟨s1, he, hm1, hf1, hc1, ho1, hl1⟩ := expire_spec hm h hx hE hle (by omega) hnow
      rw [hmod] at he
      have hfuel1 : s1.lists.uxNumberOfItems s1.pxCurrentTimerList < fuel := by
        obtain ⟨xs1, h1⟩ := hm1.sound
        have hsub : xs1 s1.pxCurrentTimerList ⊆ rest := by
          intro u hu
          obtain ⟨d, hd, hr⟩ := (h1.split.cur u).mp hu
          have hut : u ≠ t := by
            rintro rfl
            have hd' : Function.update a.armed u (nextDue s u E N) u = some d := hd
            rw [Function.update_self] at hd'
            have hlt := nextDue_gt (h.period u).1 hd'
            omega
          have hd' : Function.update a.armed t (nextDue s t E N) u = some d := hd
          rw [Function.update_of_ne hut] at hd'
          have hmem := (h.split.cur u).mpr ⟨d, hd', hr⟩
          rw [hx] at hmem
          exact (List.mem_cons.mp hmem).resolve_left hut
        have hlen := (List.subperm_of_subset (nodup_items (h1.kept.holds _)) hsub).length_le
        have hcount1 := (h1.kept.holds s1.pxCurrentTimerList).count
        have hcount' : s.lists.uxNumberOfItems s.pxCurrentTimerList = rest.length + 1 :=
          hcount.trans (congrArg List.length hx)
        omega
      have hnow1 : N ≤ (a.put t (nextDue s t E N) (s.period t)).now := hnow
      obtain ⟨s2, a2, fs, he2, hm2, hf2, hc2, ho2, hl2, hlast⟩ := ih hm1 hnow1 hfuel1
      refine ⟨s2, a2, _, ?_, hm2, fired_trans hf1 hf2, hc2.trans hc1, ho2.trans ho1, hl2.trans hl1,
        hlast⟩
      dsimp only
      rw [hvalue, hx, List.isEmpty_cons, if_neg (by simp), List.head?_cons, Option.map_some,
        Option.getD_some, h.value t E hE, he, Option.bind_some, he2]

/-- The tick count has overflowed: what is left of the round fires, and the overflow list is
the current list of the next round. -/
theorem switch_spec (hm : Matches s round a) (hnow : (round + 1) * 2 ^ 32 ≤ a.now) :
    ∃ s' a' fs, prvSwitchTimerLists s = some s' ∧ Matches s' (round + 1) a' ∧
      Fired s s' a a' fs ∧ s'.xLastTime = s.xLastTime := by
  have hlt : round * 2 ^ 32 + (2 ^ 32 - 1) ≤ a.now := by omega
  obtain ⟨s1, a1, fs, he, hm1, hf, hc, ho, hl, hlast⟩ :=
    expireCurrent_spec _ hm hlt rfl (Nat.lt_succ_self _)
  obtain ⟨xs, h⟩ := hm1.sound
  have hnil : xs s1.pxCurrentTimerList = [] := by
    refine List.eq_nil_iff_forall_not_mem.mpr fun u hu => ?_
    obtain ⟨d, hd, hr⟩ := (h.split.cur u).mp hu
    exact hlast u d hd hr
  have hsplit := h.split
  rw [hnil] at hsplit
  refine ⟨_, a1, fs, congrArg (Option.map _) he, ?_, ⟨hf.run, hf.calls, hf.freed, hf.status⟩, hl⟩
  refine ⟨⟨xs, h.kept, h.distinct.symm, ?_, h.sorted, h.value, h.owner, h.period⟩, hm1.period,
    hm1.reload, hm1.freed⟩
  show Split (2 ^ 32) (round + 1) a1.armed (xs s1.pxOverflowTimerList) (xs s1.pxCurrentTimerList)
  rw [hnil]
  exact hsplit.switch

end Expiry

/-! ## The time now -/

section Sampling

variable {τ : Type} [DecidableEq τ] {s : Timers τ} {round last : Nat} {a : Schedule τ} {t : τ}

omit [DecidableEq τ] in
/-- Without an armed timer the lists are empty in every round. -/
theorem matches_any_round (hm : Matches s round a) (hnone : ∀ t, a.armed t = none) (round' : Nat) :
    Matches s round' a := by
  obtain ⟨xs, h⟩ := hm.sound
  have hfalse : ∀ u {P : Nat → Prop}, ¬ ∃ d, a.armed u = some d ∧ P d := by
    rintro u P ⟨d, hd, _⟩
    rw [hnone u] at hd
    cases hd
  refine ⟨⟨xs, h.kept, h.distinct, ⟨fun u => ?_, fun u => ?_, fun u d hd => ?_⟩, h.sorted, h.value,
    h.owner, h.period⟩, hm.period, hm.reload, hm.freed⟩
  · exact iff_of_false (fun hu => hfalse u ((h.split.cur u).mp hu)) (hfalse u)
  · exact iff_of_false (fun hu => hfalse u ((h.split.next u).mp hu)) (hfalse u)
  · exact absurd ⟨d, hd, trivial⟩ (hfalse u (P := fun _ => True))

/-- The last sample was taken less than a round ago, or no timer is armed. -/
def Prompt {τ : Type} (last : Nat) (a : Schedule τ) : Prop :=
  last ≤ a.now ∧ (a.now < last + 2 ^ 32 ∨ ∀ t, a.armed t = none)

/-- A sample of the tick count: on an overflow, what was left of the round has fired. Afterwards
the lists are those of the round of the time now. -/
theorem sample_spec (hm : Matches s (last / 2 ^ 32) a) (hl : s.xLastTime = last % 2 ^ 32)
    (hprompt : Prompt last a) :
    ∃ s' b a' fs, prvSampleTimeNow s (a.now % 2 ^ 32) = some (s', b) ∧
      Matches s' (a.now / 2 ^ 32) a' ∧ Fired s s' a a' fs ∧ s'.xLastTime = a.now % 2 ^ 32 ∧
      (b = false → s' = { s with xLastTime := a.now % 2 ^ 32 } ∧ a' = a ∧ fs = []) := by
  obtain ⟨hle, hnear⟩ := hprompt
  unfold prvSampleTimeNow
  rw [hl]
  by_cases hlt : a.now % 2 ^ 32 < last % 2 ^ 32
  · have hround : Matches s (a.now / 2 ^ 32 - 1) a := by
      rcases hnear with hnear | hnone
      · have hnext := (mod_lt_mod_iff (Nat.two_pow_pos 32) hle hnear).mp hlt
        rw [hnext, Nat.add_sub_cancel]
        exact hm
      · exact matches_any_round hm hnone _
    have hpos : a.now / 2 ^ 32 - 1 + 1 = a.now / 2 ^ 32 := by omega
    have hnow : (a.now / 2 ^ 32 - 1 + 1) * 2 ^ 32 ≤ a.now := by
      rw [hpos]
      exact Nat.div_mul_le_self _ _
    obtain ⟨s1, a1, fs, he, hm1, hf, _⟩ := switch_spec hround hnow
    rw [if_pos hlt, he, hpos] at *
    obtain ⟨xs, h⟩ := hm1.sound
    refine ⟨_, true, a1, fs, rfl, ⟨⟨xs, ?_⟩, hm1.period, hm1.reload, hm1.freed⟩,
      ⟨hf.run, hf.calls, hf.freed, hf.status⟩, rfl, by simp⟩
    exact sound_fields h rfl rfl rfl h.period
  · have hround : Matches s (a.now / 2 ^ 32) a := by
      rcases hnear with hnear | hnone
      · have hsame : a.now / 2 ^ 32 = last / 2 ^ 32 := by
          have hcases := round_cases (Nat.two_pow_pos 32) hle hnear
          have hnext := mt (mod_lt_mod_iff (Nat.two_pow_pos 32) hle hnear).mpr hlt
          exact (hcases.resolve_right fun h => hnext h.1).1
        rw [hsame]
        exact hm
      · exact matches_any_round hm hnone _
    obtain ⟨xs, h⟩ := hround.sound
    rw [if_neg hlt]
    refine ⟨_, false, a, [], rfl, ⟨⟨xs, ?_⟩, hround.period, hround.reload, hround.freed⟩,
      ⟨.nil, (List.append_nil _).symm, rfl, fun _ h => h⟩, rfl, fun _ => ⟨rfl, rfl, rfl⟩⟩
    exact sound_fields h rfl rfl rfl h.period

/-- One round of the service task: an overflow or an expired timer is dealt with, or the task
blocks. It blocks only when nothing is due, and asks to be woken before anything is. -/
theorem process_spec (hm : Matches s (last / 2 ^ 32) a) (hl : s.xLastTime = last % 2 ^ 32)
    (hprompt : Prompt last a) :
    ∃ s' block a' fs, prvProcessTimerOrBlockTask s (a.now % 2 ^ 32) (prvGetNextExpireTime s).1
        (prvGetNextExpireTime s).2 = some (s', block) ∧
      Matches s' (a.now / 2 ^ 32) a' ∧ Fired s s' a a' fs ∧ s'.xLastTime = a.now % 2 ^ 32 ∧
      ∀ ticks indef, block = some (ticks, indef) → ∀ u d, a'.armed u = some d →
        a.now < d ∧ indef = false ∧ a.now + ticks ≤ d := by
  obtain ⟨s1, b, a1, fs, he, hm1, hf1, hl1, hsame⟩ := sample_spec hm hl hprompt
  rw [prvProcessTimerOrBlockTask, he, Option.bind_some]
  cases b with
  | true => exact ⟨s1, none, a1, fs, rfl, hm1, hf1, hl1, by simp⟩
  | false =>
    obtain ⟨rfl, ha, rfl⟩ := hsame rfl
    obtain rfl := ha.symm
    obtain ⟨xs, h⟩ := hm1.sound
    obtain ⟨hempty, _, hvalue⟩ := head_line h.kept rfl
    have hempty' : listIsEmpty s.lists s.pxCurrentTimerList =
      (xs s.pxCurrentTimerList).isEmpty := hempty
    dsimp only
    rw [if_pos rfl, prvGetNextExpireTime, hempty']
    cases hx : xs s.pxCurrentTimerList with
    | nil =>
      simp only [List.isEmpty_nil, if_true, Bool.true_eq_false, false_and, if_false, Nat.zero_add]
      refine ⟨_, _, a, [], rfl, hm1, hf1, hl1, ?_⟩
      rintro ticks indef hblock u d hu
      obtain ⟨rfl, rfl⟩ := Prod.mk.inj (Option.some.inj hblock)
      have hround : d / 2 ^ 32 = a.now / 2 ^ 32 + 1 := by
        refine (h.split.near u d hu).resolve_left fun hr => ?_
        have hmem := (h.split.cur u).mpr ⟨d, hu, hr⟩
        rw [show xs s.pxCurrentTimerList = [] from hx] at hmem
        exact List.not_mem_nil hmem
      have hmem : u ∈ xs s.pxOverflowTimerList := (h.split.next u).mpr ⟨d, hu, hround⟩
      refine ⟨by omega, ?_, by omega⟩
      have hover : listIsEmpty s.lists s.pxOverflowTimerList =
        (xs s.pxOverflowTimerList).isEmpty := (head_line h.kept rfl).1
      rw [Bool.true_and, hover]
      exact List.isEmpty_eq_false_iff.mpr (List.ne_nil_of_mem hmem)
    | cons t rest =>
      obtain ⟨E, hE, hEr⟩ := (h.split.cur t).mp (by
        show t ∈ xs s.pxCurrentTimerList
        rw [hx]
        exact List.mem_cons_self)
      have hE' : s.lists.xItemValue (.item t) = E % 2 ^ 32 := h.value t E hE
      have hvalue' : listGetItemValueOfHeadEntry s.lists s.pxCurrentTimerList = E % 2 ^ 32 := by
        rw [show listGetItemValueOfHeadEntry s.lists s.pxCurrentTimerList = _ from hvalue,
          show xs _ = t :: rest from hx]
        exact hE'
      simp only [List.isEmpty_cons, Bool.false_eq_true, if_false, true_and, hvalue', Bool.false_and]
      have hcmp := mod_le_mod_iff (m := 2 ^ 32) hEr
      by_cases hdue : E % 2 ^ 32 ≤ a.now % 2 ^ 32
      · obtain ⟨s2, he2, hm2, hf2, _, _, hl2⟩ :=
          expire_spec hm1 h hx hE (hcmp.mp hdue) rfl (Nat.le_refl _)
        rw [if_pos hdue, he2]
        exact ⟨s2, none, _, _, rfl, hm2, fired_trans hf1 hf2, hl2.trans hl1, by simp⟩
      · rw [if_neg hdue]
        refine ⟨_, _, a, [], rfl, hm1, hf1, hl1, ?_⟩
        rintro ticks indef hblock u d hu
        obtain ⟨rfl, rfl⟩ := Prod.mk.inj (Option.some.inj hblock)
        have hlt : a.now < E := Nat.lt_of_not_le (mt hcmp.mpr hdue)
        have hsplit := h.split
        rw [show xs _ = t :: rest from hx] at hsplit
        have hsorted := h.sorted s.pxCurrentTimerList
        rw [hx] at hsorted
        have hle : E ≤ d := by
          refine hsplit.head_le hE (fun v hv e he => ?_) hu
          have hv' := (List.pairwise_cons.mp hsorted).1 v hv
          rw [← h.value t E hE, ← h.value v e he]
          exact hv'
        have hticks := mod_sub_mod (Nat.two_pow_pos 32) (Nat.le_of_lt hlt)
          (by omega : E < a.now + 2 ^ 32)
        refine ⟨Nat.lt_of_lt_of_le hlt hle, rfl, ?_⟩
        rw [hticks]
        omega

end Sampling

/-! ## Commands -/

section Commands

variable {τ : Type} [DecidableEq τ] {s s' : Timers τ} {round last p : Nat} {a a' b : Schedule τ}
  {t u : τ} {S : Nat} {o : Option Nat} {fs : List (τ × Nat)}

/-- What a command does to its timer after the time has been sampled, from the schedule `b` in
which the timer has been set. -/
structure Obeyed {τ : Type} [DecidableEq τ] (s s' : Timers τ) (round : Nat) (t : τ)
    (a b a' : Schedule τ) (fs : List (τ × Nat)) : Prop where
  matched : Matches s' round a'
  run : Run Step b (fireEvents a.now fs) a'
  calls : s'.calls = s.calls ++ fs.map Prod.fst
  last : s'.xLastTime = s.xLastTime
  status : StatusOk s' a' t
  others : ∀ u, u ≠ t → StatusOk s a u → StatusOk s' a' u

theorem put_put {o o' : Option Nat} {p p' : Nat} : (a.put t o p).put t o' p' = a.put t o' p' := by
  simp only [Schedule.put, Function.update_idem]

/-- The timer has been set in the lists and in the table, and its firings in the schedule lead
to the same. -/
theorem obeyed_put {xs : TimerList → List τ} (hm : Matches s round a) (hf : s.freed t = false)
    (hs : Sound s' round (Function.update a.armed t o) xs) (hfreed : s'.freed = s.freed)
    (htimer : s'.timer = Function.update s.timer t
      { s.timer t with active := o.isSome, xTimerPeriodInTicks := p })
    (hrun : Run Step b (fireEvents a.now fs) (a.put t o p))
    (hcalls : s'.calls = s.calls ++ fs.map Prod.fst) (hlast : s'.xLastTime = s.xLastTime) :
    Obeyed s s' round t a b (a.put t o p) fs := by
  have hself : s'.timer t = { s.timer t with active := o.isSome, xTimerPeriodInTicks := p } := by
    rw [htimer, Function.update_self]
  have hother : ∀ u, u ≠ t → s'.timer u = s.timer u := by
    intro u hu
    rw [htimer, Function.update_of_ne hu]
  refine ⟨?_, hrun, hcalls, hlast, fun _ => ?_, fun u hu hst hfu => ?_⟩
  · refine matches_put hm hf hs hfreed (congrArg Timer.xTimerPeriodInTicks hself)
      (fun u hu => congrArg Timer.xTimerPeriodInTicks (hother u hu)) fun u => ?_
    by_cases hu : u = t
    · rw [hu, hself]
    · rw [hother u hu]
  · rw [hself]
    show o.isSome = (Function.update a.armed t o t).isSome
    rw [Function.update_self]
  · rw [hfreed] at hfu
    rw [hother u hu, hst hfu]
    show (a.armed u).isSome = (Function.update a.armed t o u).isSome
    rw [Function.update_of_ne hu]

/-- The timer is taken out of its list, if it is in one. -/
theorem remove_spec (hm : Matches s round a) (hf : s.freed t = false) :
    ∃ lists, (if s.lists.pxContainer t ≠ none then
        (uxListRemove s.lists t).map fun r => { s with lists := r.1 }
      else some s) = some { s with lists := lists } ∧
      Matches { s with lists := lists } round (a.put t none (s.period t)) := by
  obtain ⟨xs, h⟩ := hm.sound
  by_cases hc : s.lists.pxContainer t = none
  · have hnone : a.armed t = none := by
      cases ha : a.armed t with
      | none => rfl
      | some d =>
        obtain ⟨l, hl⟩ := exists_list_of_armed h ha
        have hin := (h.kept.container t l).mpr hl
        rw [hc] at hin
        cases hin
    have hput : a.put t none (s.period t) = a := by
      rw [← hm.period t, put_period, ← hnone, Function.update_eq_self]
    rw [if_neg (not_not_intro hc), hput]
    exact ⟨s.lists, rfl, hm⟩
  · obtain ⟨l, hl⟩ := Option.ne_none_iff_exists'.mp hc
    obtain ⟨lists, n, he, hsound⟩ := sound_unlink h ((h.kept.container t l).mp hl)
    rw [if_pos hc, he]
    exact ⟨lists, rfl, matches_put hm hf hsound rfl rfl (fun _ _ => rfl) fun _ => rfl⟩

/-- A start counts from when it was sent: expiry times that have passed since then are made up
for. -/
theorem start_spec (hm : Matches s round a) (hround : a.now / 2 ^ 32 = round)
    (hf : s.freed t = false) (ht : a.armed t = none) (hS : S ≤ a.now)
    (hN : a.now < S + 2 ^ 32) :
    ∃ s' a' fs, startTimer s t (S % 2 ^ 32) (a.now % 2 ^ 32) = some s' ∧
      Obeyed s s' round t a (a.put t (some (S + s.period t)) (s.period t)) a' fs := by
  obtain ⟨xs, h⟩ := hm.sound
  have hactive : Sound (s.setActive t true) round a.armed xs :=
    sound_fields h rfl rfl rfl fun u => by
      rw [period_setActive]
      exact h.period u
  obtain ⟨s1, xs1, he, hcalled, hsound⟩ := insert_spec hactive ht hS hN hround
  rw [period_setActive] at he hsound
  have htimer : s1.timer = Function.update s.timer t { s.timer t with active := true } :=
    hcalled.timer
  have hper : s1.period t = s.period t :=
    (congrArg (fun f => (f t).xTimerPeriodInTicks) hcalled.timer).trans period_setActive
  have hrel : (s1.timer t).autoReload = (s.timer t).autoReload :=
    (congrArg (fun f => (f t).autoReload) hcalled.timer).trans autoReload_setActive
  have hcalls : s1.calls = s.calls := hcalled.calls.trans (List.append_nil _)
  rw [startTimer, period_setActive, Nat.mod_add_mod, he, Option.bind_some]
  by_cases hdue : S + s.period t ≤ a.now
  · rw [if_pos hdue] at hsound
    have hrun := run_dueTimes (s := s) (a := a.put t (some (S + s.period t)) (s.period t))
      (Function.update_self ..) (hm.reload t) (Function.update_self ..) hdue (Nat.le_refl a.now)
    rw [put_put] at hrun
    rw [decide_eq_true hdue]
    by_cases hr : (s.timer t).autoReload = true
    · have hnext : nextDue s t (S + s.period t) a.now = some _ := if_pos hr
      have hfuel : (a.now - (S + s.period t)) / s1.period t < 2 ^ 32 :=
        Nat.lt_of_le_of_lt (Nat.div_le_self _ _) (by omega)
      obtain ⟨s2, xs2, he2, hcalled2, hsound2⟩ := reload_spec (2 ^ 32) hsound ht hdue
        (Nat.lt_of_lt_of_le hN (by omega)) hround hfuel
      rw [hper, ← hnext] at hsound2
      refine ⟨s2.call t, _, _, ?_, obeyed_put hm hf
        (sound_fields hsound2 rfl rfl rfl hsound2.period) ?_ ?_ hrun ?_ ?_⟩
      · rw [if_pos rfl, hrel, if_pos hr, prvReloadTimer, he2]
        rfl
      · exact hcalled2.freed.trans hcalled.freed
      · rw [hnext]
        exact hcalled2.timer.trans htimer
      · show s2.calls ++ [t] = _
        rw [hcalled2.calls, hcalls, dueTimes_reload hr, List.append_assoc, hper]
      · exact hcalled2.last.trans hcalled.last
    · have hnext : nextDue s t (S + s.period t) a.now = none := if_neg hr
      have hdues : dueTimes s t (S + s.period t) a.now = [(t, S + s.period t)] := if_neg hr
      have hsound' : Sound s1 round (Function.update a.armed t none) xs1 := by
        rw [← ht, Function.update_eq_self]
        exact hsound
      rw [hnext, hdues] at hrun
      refine ⟨(s1.setActive t false).call t, _, _, ?_, obeyed_put hm hf
        (sound_fields hsound' rfl rfl rfl fun u => ?_) ?_ ?_ hrun ?_ ?_⟩
      · rw [if_pos rfl, hrel, if_neg hr]
        rfl
      · rw [period_call, period_setActive]
        exact hsound'.period u
      · exact hcalled.freed
      · show Function.update s1.timer t { s1.timer t with active := false } = _
        rw [htimer, Function.update_idem, Function.update_self]
        rfl
      · exact congrArg (· ++ [t]) hcalls
      · exact hcalled.last
  · rw [if_neg hdue] at hsound
    rw [decide_eq_false hdue]
    refine ⟨s1, _, [], rfl, obeyed_put hm hf hsound hcalled.freed htimer .nil ?_ hcalled.last⟩
    exact hcalls.trans (List.append_nil _).symm

/-- A new period counts from now. -/
theorem change_spec (hm : Matches s round a) (hround : a.now / 2 ^ 32 = round)
    (hf : s.freed t = false) (ht : a.armed t = none) (hp0 : 0 < p) (hp : p < 2 ^ 32) :
    ∃ s', changePeriod s t p (a.now % 2 ^ 32) = some s' ∧
      Obeyed s s' round t a (a.put t (some (a.now + p)) p) (a.put t (some (a.now + p)) p) [] := by
  obtain ⟨xs, h⟩ := hm.sound
  have hself : ((s.setActive t true).setPeriod t p).period t = p := by
    show (Function.update (s.setActive t true).timer t _ t).xTimerPeriodInTicks = p
    rw [Function.update_self]
  have hset : Sound ((s.setActive t true).setPeriod t p) round a.armed xs := by
    refine sound_fields h rfl rfl rfl fun u => ?_
    by_cases hu : u = t
    · rw [hu, hself]
      exact ⟨hp0, hp⟩
    · have hother : ((s.setActive t true).setPeriod t p).period u = s.period u := by
        show (Function.update (s.setActive t true).timer t _ u).xTimerPeriodInTicks = _
        rw [Function.update_of_ne hu]
        exact period_setActive
      rw [hother]
      exact h.period u
  obtain ⟨s1, xs1, he, hcalled, hsound⟩ := insert_spec hset ht (Nat.le_refl a.now)
    (Nat.lt_add_of_pos_right (Nat.two_pow_pos 32)) hround
  have hlate : ¬ a.now + p ≤ a.now := by omega
  rw [hself] at he hsound
  rw [if_neg hlate] at hsound
  refine ⟨s1, ?_, obeyed_put hm hf hsound hcalled.freed ?_ .nil ?_ hcalled.last⟩
  · rw [changePeriod, hself, if_pos hp0, Nat.mod_add_mod, he]
    rfl
  · refine hcalled.timer.trans ?_
    let on : Timer := { s.timer t with active := true }
    show Function.update (Function.update s.timer t on) t
      { Function.update s.timer t on t with xTimerPeriodInTicks := p } = _
    rw [Function.update_idem, Function.update_self]
    rfl
  · exact hcalled.calls

theorem stop_spec (hm : Matches s round a) (hf : s.freed t = false) (ht : a.armed t = none) :
    Obeyed s (s.setActive t false) round t a (a.put t none (s.period t))
      (a.put t none (s.period t)) [] := by
  obtain ⟨xs, h⟩ := hm.sound
  have hs : Sound (s.setActive t false) round a.armed xs := by
    refine sound_fields h rfl rfl rfl fun u => ?_
    rw [period_setActive]
    exact h.period u
  have hnone : Function.update a.armed t none = a.armed := by
    rw [← ht, Function.update_eq_self]
  exact obeyed_put hm hf (hnone ▸ hs) rfl rfl .nil (List.append_nil _).symm rfl

/-- A timer that was allocated is given back, and one that was not is stopped. -/
theorem delete_spec (hm : Matches s round a) (hf : s.freed t = false) (ht : a.armed t = none) :
    Obeyed s (deleteTimer s t) round t a (a.put t none (s.period t))
      (a.put t none (s.period t)) [] := by
  unfold deleteTimer
  by_cases hstatic : (s.timer t).staticallyAllocated = true
  · rw [if_pos hstatic]
    exact stop_spec hm hf ht
  · have hput : a.put t none (s.period t) = a := by
      rw [← hm.period t, put_period, ← ht, Function.update_eq_self]
    obtain ⟨xs, h⟩ := hm.sound
    rw [if_neg hstatic, hput]
    have hfreed : ∀ u, u ≠ t → Function.update s.freed t true u = s.freed u := fun u hu =>
      Function.update_of_ne hu ..
    refine ⟨⟨⟨xs, sound_fields h rfl rfl rfl h.period⟩, hm.period, hm.reload, fun u hu => ?_⟩, .nil,
      (List.append_nil _).symm, rfl, fun hu => ?_, fun u hut hst hu => hst ?_⟩
    · by_cases hut : u = t
      · rw [hut, ht]
      · exact hm.freed u ((hfreed u hut).symm.trans hu)
    · have hgone : Function.update s.freed t true t = true := Function.update_self ..
      exact absurd (hgone.symm.trans hu) (by simp)
    · exact (hfreed u hut).symm.trans hu

/-- What a message that was sent at the given time asks of the schedule. -/
def DaemonTaskMessage.event (m : DaemonTaskMessage τ) (sent : Nat) : Event τ :=
  match m.xMessageID with
  | .start | .startFromIsr | .reset | .resetFromIsr => .start m.pxTimer sent
  | .changePeriod | .changePeriodFromIsr => .change m.pxTimer m.xMessageValue
  | .stop | .stopFromIsr | .delete => .stop m.pxTimer

/-- A start carries the tick count at which it was sent. A new period is not zero. -/
def DaemonTaskMessage.Sent (m : DaemonTaskMessage τ) (sent : Nat) : Prop :=
  match m.xMessageID with
  | .start | .startFromIsr | .reset | .resetFromIsr => m.xMessageValue = sent % 2 ^ 32
  | .changePeriod | .changePeriodFromIsr => 0 < m.xMessageValue ∧ m.xMessageValue < 2 ^ 32
  | .stop | .stopFromIsr | .delete => True

/-- The part of a command that comes after the time has been sampled. -/
def obey (s : Timers τ) (m : DaemonTaskMessage τ) (xTimeNow : Nat) : Option (Timers τ) :=
  match m.xMessageID with
  | .start | .startFromIsr | .reset | .resetFromIsr =>
    startTimer s m.pxTimer m.xMessageValue xTimeNow
  | .stop | .stopFromIsr => some (s.setActive m.pxTimer false)
  | .changePeriod | .changePeriodFromIsr => changePeriod s m.pxTimer m.xMessageValue xTimeNow
  | .delete => some (deleteTimer s m.pxTimer)

/-- The timer is set in the same way in a schedule before the sample as in the one after it. -/
theorem obey_spec {m : DaemonTaskMessage τ} {c : Schedule τ} (hm : Matches s round a)
    (hround : a.now / 2 ^ 32 = round) (hf : s.freed m.pxTimer = false)
    (ht : a.armed m.pxTimer = none) (hp : m.Sent S) (hS : S ≤ a.now) (hN : a.now < S + 2 ^ 32)
    (hnow : c.now = a.now) (hper : c.period m.pxTimer = s.period m.pxTimer) :
    ∃ s' a' o p fs, obey s m (a.now % 2 ^ 32) = some s' ∧
      Step c (m.event S) (c.put m.pxTimer o p) ∧
      Obeyed s s' round m.pxTimer a (a.put m.pxTimer o p) a' fs := by
  have hstop : Step c (.stop m.pxTimer) (c.put m.pxTimer none (s.period m.pxTimer)) := by
    rw [← hper, put_period]
    exact .stop
  have hchange : 0 < m.xMessageValue → Step c (.change m.pxTimer m.xMessageValue)
      (c.put m.pxTimer (some (a.now + m.xMessageValue)) m.xMessageValue) := by
    intro hpos
    rw [← hnow]
    exact .change hpos
  unfold obey DaemonTaskMessage.event
  unfold DaemonTaskMessage.Sent at hp
  cases hid : m.xMessageID <;> simp only [hid] at hp ⊢
  case start | startFromIsr | reset | resetFromIsr =>
    obtain ⟨s', a', fs, he, hob⟩ := start_spec hm hround hf ht hS hN
    rw [hp]
    refine ⟨s', a', _, _, fs, he, ?_, hob⟩
    rw [← hper, put_period]
    exact .start (hnow ▸ hS)
  case changePeriod | changePeriodFromIsr =>
    obtain ⟨s', he, hob⟩ := change_spec hm hround hf ht hp.1 hp.2
    exact ⟨s', _, _, _, [], he, hchange hp.1, hob⟩
  case stop | stopFromIsr => exact ⟨_, _, _, _, [], rfl, hstop, stop_spec hm hf ht⟩
  case delete => exact ⟨_, _, _, _, [], rfl, hstop, delete_spec hm hf ht⟩

/-- A command sets its timer in the schedule, and what has become due in the meantime fires. -/
theorem command_spec {m : DaemonTaskMessage τ} (hm : Matches s (last / 2 ^ 32) a)
    (hl : s.xLastTime = last % 2 ^ 32) (hprompt : Prompt last a)
    (hf : s.freed m.pxTimer = false) (hp : m.Sent S) (hS : S ≤ a.now) (hN : a.now < S + 2 ^ 32) :
    ∃ s' b a' fs, prvProcessReceivedCommand s m (a.now % 2 ^ 32) = some s' ∧
      Matches s' (a.now / 2 ^ 32) a' ∧ Step a (m.event S) b ∧
      Run Step b (fireEvents a.now fs) a' ∧ s'.calls = s.calls ++ fs.map Prod.fst ∧
      s'.xLastTime = a.now % 2 ^ 32 ∧ ∀ t, StatusOk s a t → StatusOk s' a' t := by
  obtain ⟨lists, hremove, hm0⟩ := remove_spec hm hf
  have hprompt0 : Prompt last (a.put m.pxTimer none (s.period m.pxTimer)) := by
    refine ⟨hprompt.1, hprompt.2.imp_right fun hnone t => ?_⟩
    have hsame : Function.update a.armed m.pxTimer none = a.armed := by
      rw [← hnone m.pxTimer, Function.update_eq_self]
    exact (congrFun hsame t).trans (hnone t)
  obtain ⟨s1, c, a1, fs1, hsample, hm1, hf1, hl1, _⟩ := sample_spec hm0 hl hprompt0
  obtain ⟨hnow1, hper1, _⟩ := same_of_fires hf1.run
  obtain ⟨hne, hnone1⟩ := others_fire (x := m.pxTimer) hf1.run (Function.update_self ..)
  have hnow : a1.now = a.now := hnow1
  have hper : a.period m.pxTimer = s1.period m.pxTimer := by
    have hset : a1.period m.pxTimer = s.period m.pxTimer := by
      rw [hper1]
      exact Function.update_self ..
    rw [← hm1.period, hset, hm.period]
  obtain ⟨s2, a2, o, p, fs2, hobey, hstep, hob⟩ := obey_spec (S := S) (c := a) hm1
    (congrArg (· / 2 ^ 32) hnow) ((congrFun hf1.freed _).trans hf) hnone1 hp (hnow ▸ hS)
    (hnow ▸ hN) hnow.symm hper
  have hframe := run_frame (o := o) (p := p) hf1.run hne
  rw [put_put] at hframe
  refine ⟨s2, _, a2, fs1 ++ fs2, ?_, hob.matched, hstep, ?_, ?_, hob.last.trans hl1, fun t hst => ?_⟩
  · rw [prvProcessReceivedCommand, if_neg (by simp [hf]), hremove, Option.bind_some]
    have hsample' : prvSampleTimeNow { s with lists := lists } (a.now % 2 ^ 32) = some (s1, c) :=
      hsample
    rw [hsample', ← hobey, hnow]
    rfl
  · have hrun := hob.run
    rw [hnow] at hrun
    rw [fireEvents, List.map_append]
    exact hframe.append hrun
  · rw [hob.calls, hf1.calls, List.map_append, List.append_assoc]
  · by_cases ht : t = m.pxTimer
    · rw [ht]
      exact hob.status
    · refine hob.others t ht (hf1.status t fun hft => ?_)
      have hsame : (a.put m.pxTimer none (s.period m.pxTimer)).armed t = a.armed t :=
        Function.update_of_ne ht ..
      rw [hsame]
      exact hst hft

end Commands

end BlackPill.KernelTimers
