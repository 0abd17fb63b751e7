import BlackPill.KernelListRuns
import BlackPill.KernelTimersCalls

/-!
# Runs of the timer service task

The task goes round its loop while ticks pass and others send it commands, in any order.
Only the task works on the lists of the timers, and it looks at the tick count once for
each step: ticks that pass and commands that are sent in the middle of a step come after
it here.

A run assumes of the scheduler that the task looks at the tick count again before a full
round of it has passed while a timer is armed, and that it receives a command within a
round. It assumes of the callers that no period they send is 0, and that they leave a deleted
timer alone.

Results:
1. `timers_refine_schedule`: every run is a run of a schedule in which times do not wrap.
2. `timer_keeps_phase`: a timer that reloads is called for every period since its start,
   however late the task comes to it.
3. `one_shot_fires_once`: one that does not is called once.
4. `active_iff_listed`: the status that tasks can ask for agrees with the lists.
5. `daemon_returns`: no step hangs.
-/

namespace BlackPill.KernelTimers

open KernelLists KernelListsLemmas KernelListRunsLemmas Schedules Runs KernelTimersLemmas

/-! ## Definitions -/

/-- What a timer is created with. -/
structure NewTimer where
  xTimerPeriodInTicks : Nat
  xAutoReload : Bool
  isStatic : Bool
  period_pos : 0 < xTimerPeriodInTicks
  period_lt : xTimerPeriodInTicks < 2 ^ 32

/-- `prvInitialiseNewTimer`. -/
def prvInitialiseNewTimer (n : NewTimer) : Timer where
  xTimerPeriodInTicks := n.xTimerPeriodInTicks
  active := false
  staticallyAllocated := n.isStatic
  autoReload := n.xAutoReload

/-- `configTIMER_QUEUE_LENGTH`. -/
def configTimerQueueLength : Nat := 10

/-- Where `prvTimerTask` is: at the top of its loop, at its command queue, or waiting for a
message until the given time. -/
inductive TaskState
  | top
  | commands
  | blocked (wake : Option Nat)
deriving DecidableEq, Repr

/-- What can be seen of a run: the ticks, the commands as they are received, and the callbacks
with the time at which they are called. -/
inductive Seen (τ : Type)
  | tick
  | start (t : τ) (sent : Nat)
  | stop (t : τ)
  | change (t : τ) (period : Nat)
  | setReload (t : τ) (reload : Bool)
  | call (t : τ) (time : Nat)
deriving DecidableEq, Repr

/-- The task, its queue with the times at which the messages were sent, and the ticks since the
start. `sampled` is when the task last looked at the tick count, `trace` is what has been seen. -/
structure Daemon (τ : Type) where
  timers : Timers τ
  now : Nat
  state : TaskState
  queue : List (DaemonTaskMessage τ × Nat)
  sampled : Nat
  trace : List (Seen τ)

/-- `process` is `prvGetNextExpireTime` and `prvProcessTimerOrBlockTask`, `receive` one turn of
the loop of `prvProcessReceivedCommands`. -/
inductive DaemonEvent (τ : Type)
  | tick
  | send (m : DaemonTaskMessage τ) (sent : Nat)
  | setReloadMode (t : τ) (b : Bool)
  | process
  | wake
  | receive

/-- What is seen of an event of a schedule. -/
def seen {τ : Type} : Event τ → Seen τ
  | .tick => .tick
  | .start t sent => .start t sent
  | .stop t => .stop t
  | .change t p => .change t p
  | .setReload t b => .setReload t b
  | .fire t _ time => .call t time

def Seen.Sets {τ : Type} (t : τ) : Seen τ → Prop
  | .start u _ | .stop u | .change u _ | .setReload u _ => u = t
  | .tick | .call _ _ => False

def Seen.NotAfter {τ : Type} (time : Nat) : Seen τ → Prop
  | .start _ sent => sent ≤ time
  | .call _ called => called ≤ time
  | _ => True

variable {τ : Type} [DecidableEq τ]

/-- When the callback of a timer was called. -/
def callTimes (t : τ) : List (Seen τ) → List Nat
  | [] => []
  | .call u time :: es => if u = t then time :: callTimes t es else callTimes t es
  | _ :: es => callTimes t es

/-- The timers before the scheduler starts. -/
def Timers.init (table : τ → NewTimer) : Timers τ where
  lists := .fresh (fun _ => 0) id
  timer t := prvInitialiseNewTimer (table t)
  freed _ := false
  pxCurrentTimerList := .xActiveTimerList1
  pxOverflowTimerList := .xActiveTimerList2
  xLastTime := 0
  calls := []

def Daemon.init (table : τ → NewTimer) : Daemon τ := ⟨.init table, 0, .top, [], 0, []⟩

/-- The task has worked on the timers, after it has looked at the tick count. -/
def Daemon.ran (d : Daemon τ) (s : Timers τ) (es : List (Seen τ)) : Daemon τ :=
  { d with
    timers := s
    sampled := d.now
    trace := d.trace ++ (es ++ (s.calls.drop d.timers.calls.length).map (.call · d.now)) }

def TaskState.after (now : Nat) : Option (Nat × Bool) → TaskState
  | none => .commands
  | some (xTicksToWait, xWaitIndefinitely) =>
    .blocked (if xWaitIndefinitely then none else some (now + xTicksToWait))

/-- One step: `none` if it does not come to its end. -/
def Daemon.step (d : Daemon τ) : DaemonEvent τ → Option (Daemon τ)
  | .tick => some { d with now := d.now + 1, trace := d.trace ++ [.tick] }
  | .send m sent =>
    some (if d.queue.length < configTimerQueueLength then { d with queue := d.queue ++ [(m, sent)] }
      else d)
  | .setReloadMode t b => some { d with
      timers := vTimerSetReloadMode d.timers t b
      trace := d.trace ++ [.setReload t b] }
  | .process =>
    let next := prvGetNextExpireTime d.timers
    (prvProcessTimerOrBlockTask d.timers (d.now % 2 ^ 32) next.1 next.2).map fun r =>
      { d.ran r.1 [] with state := .after d.now r.2 }
  | .wake => some { d with state := .commands }
  | .receive =>
    match d.queue with
    | [] => some { d with state := .top }
    | (m, sent) :: rest =>
      (prvProcessReceivedCommand d.timers m (d.now % 2 ^ 32)).map fun s =>
        { d.ran s [seen (m.event sent)] with queue := rest }

/-- Since the task last looked, less than a round of the tick count has passed, or nothing is
armed. -/
def Daemon.InTime (d : Daemon τ) : Prop :=
  d.now < d.sampled + 2 ^ 32 ∨ ∀ l, listIsEmpty d.timers.lists l = true

/-- Which steps are taken, and when. -/
def Daemon.Fair (d : Daemon τ) : DaemonEvent τ → Prop
  | .tick => True
  | .send m sent => m.Sent sent ∧ sent ≤ d.now
  | .setReloadMode t _ => d.timers.freed t = false
  | .process => d.state = .top ∧ d.InTime
  | .wake => ∃ w, d.state = .blocked w ∧ (d.queue ≠ [] ∨ ∃ t, w = some t ∧ t ≤ d.now)
  | .receive => d.state = .commands ∧ ∀ m sent, d.queue.head? = some (m, sent) →
      d.timers.freed m.pxTimer = false ∧ d.now < sent + 2 ^ 32 ∧ d.InTime

def DaemonStep (d : Daemon τ) (e : DaemonEvent τ) (d' : Daemon τ) : Prop :=
  d.Fair e ∧ d.step e = some d'

instance {m : DaemonTaskMessage τ} {sent : Nat} : Decidable (m.Sent sent) :=
  match m with
  | ⟨.start, _, _⟩ | ⟨.startFromIsr, _, _⟩ | ⟨.reset, _, _⟩ | ⟨.resetFromIsr, _, _⟩ =>
    inferInstanceAs (Decidable (_ = _))
  | ⟨.changePeriod, _, _⟩ | ⟨.changePeriodFromIsr, _, _⟩ => inferInstanceAs (Decidable (_ ∧ _))
  | ⟨.stop, _, _⟩ | ⟨.stopFromIsr, _, _⟩ | ⟨.delete, _, _⟩ => inferInstanceAs (Decidable True)

instance {d : Daemon τ} : Decidable d.InTime :=
  have : Decidable (∀ l, listIsEmpty d.timers.lists l = true) :=
    decidable_of_iff (listIsEmpty d.timers.lists .xActiveTimerList1 = true ∧
      listIsEmpty d.timers.lists .xActiveTimerList2 = true)
      ⟨fun h l => match l with | .xActiveTimerList1 => h.1 | .xActiveTimerList2 => h.2,
        fun h => ⟨h _, h _⟩⟩
  inferInstanceAs (Decidable (_ ∨ _))

instance {d : Daemon τ} : (e : DaemonEvent τ) → Decidable (d.Fair e)
  | .tick => inferInstanceAs (Decidable True)
  | .send _ _ => inferInstanceAs (Decidable (_ ∧ _))
  | .setReloadMode _ _ => inferInstanceAs (Decidable (_ = _))
  | .process => inferInstanceAs (Decidable (_ ∧ _))
  | .wake =>
    match h : d.state with
    | .top | .commands => .isFalse fun ⟨_, hw, _⟩ => nomatch h.symm.trans hw
    | .blocked w => decidable_of_iff (d.queue ≠ [] ∨ ∃ t ∈ w, t ≤ d.now)
      ⟨fun hw => ⟨w, h, hw⟩, fun ⟨_, hw, hd⟩ => TaskState.blocked.inj (h.symm.trans hw) ▸ hd⟩
  | .receive =>
    match h : d.queue with
    | [] => decidable_of_iff (d.state = .commands)
      ⟨fun hc => ⟨hc, fun _ _ hm => nomatch (h ▸ hm)⟩, And.left⟩
    | (m, sent) :: _ => decidable_of_iff (d.state = .commands ∧ d.timers.freed m.pxTimer = false ∧
        d.now < sent + 2 ^ 32 ∧ d.InTime)
      ⟨fun hc => ⟨hc.1, fun _ _ hm => by
        rw [h] at hm
        obtain ⟨rfl, rfl⟩ := Prod.mk.inj (Option.some.inj hm)
        exact hc.2⟩, fun hc => ⟨hc.1, hc.2 m sent (by rw [h]; rfl)⟩⟩

/-- The schedule at the start: nothing is armed. -/
def newSchedule (table : τ → NewTimer) : Schedule τ where
  now := 0
  armed _ := none
  period t := (table t).xTimerPeriodInTicks
  reload t := (table t).xAutoReload

/-- The task and its timers are at one with the schedule. -/
structure Follows (d : Daemon τ) (a : Schedule τ) : Prop where
  now : a.now = d.now
  le : d.sampled ≤ d.now
  last : d.timers.xLastTime = d.sampled % 2 ^ 32
  matched : Matches d.timers (d.sampled / 2 ^ 32) a
  status : ∀ t, StatusOk d.timers a t
  sent : ∀ r ∈ d.queue, r.1.Sent r.2 ∧ r.2 ≤ d.now
  waits : ∀ w, d.state = .blocked w → ∀ t due, a.armed t = some due →
    d.sampled < due ∧ ∃ wake, w = some wake ∧ wake ≤ due

namespace KernelTimersRunsLemmas

variable {d d' : Daemon τ} {a a' : Schedule τ} {e : DaemonEvent τ} {es : List (Event τ)} {t : τ}

/-! ## What is seen -/

omit [DecidableEq τ] in
theorem seen_sets {e : Event τ} : (seen e).Sets t ↔ e.Sets t := by
  cases e <;> exact Iff.rfl

theorem callTimes_seen : callTimes t (es.map seen) = (fires t es).map Prod.snd := by
  induction es with
  | nil => rfl
  | cons e es ih =>
    cases e with
    | fire u due time =>
      simp only [List.map_cons, seen, callTimes, fires, ih]
      split <;> rfl
    | _ => exact ih

omit [DecidableEq τ] in
theorem seen_fires {now : Nat} {fs : List (τ × Nat)} :
    (fireEvents now fs).map seen = (fs.map Prod.fst).map (Seen.call · now) := by
  rw [fireEvents, List.map_map, List.map_map]
  rfl

omit [DecidableEq τ] in
theorem ran_trace {s : Timers τ} {fs : List (τ × Nat)} {seens : List (Seen τ)}
    (h : s.calls = d.timers.calls ++ fs.map Prod.fst) :
    (d.ran s seens).trace = d.trace ++ (seens ++ (fireEvents d.now fs).map seen) := by
  rw [Daemon.ran, h, List.drop_left, seen_fires]

omit [DecidableEq τ] in
theorem notAfter_fires {now : Nat} {fs : List (τ × Nat)} :
    ∀ e ∈ (fireEvents now fs).map seen, e.NotAfter now := by
  intro e he
  rw [seen_fires] at he
  obtain ⟨u, _, rfl⟩ := List.mem_map.mp he
  exact Nat.le_refl now

/-! ## One step -/

omit [DecidableEq τ] in
theorem event_cases (m : DaemonTaskMessage τ) (sent : Nat) :
    m.event sent = .start m.pxTimer sent ∨ m.event sent = .stop m.pxTimer ∨
      m.event sent = .change m.pxTimer m.xMessageValue := by
  unfold DaemonTaskMessage.event
  cases m.xMessageID <;> simp

theorem now_of_command {m : DaemonTaskMessage τ} {sent : Nat}
    (hs : Step a (m.event sent) a') : a'.now = a.now := by
  rcases event_cases m sent with he | he | he <;> rw [he] at hs <;> cases hs <;> rfl

omit [DecidableEq τ] in
theorem notAfter_command {m : DaemonTaskMessage τ} {sent now : Nat} (h : sent ≤ now) :
    (seen (m.event sent)).NotAfter now := by
  rcases event_cases m sent with he | he | he <;> rw [he]
  · exact h
  · trivial
  · trivial

omit [DecidableEq τ] in
theorem armed_none_of_empty (h : Follows d a)
    (he : ∀ l, listIsEmpty d.timers.lists l = true) (t : τ) : a.armed t = none := by
  obtain ⟨xs, hs⟩ := h.matched.sound
  cases ha : a.armed t with
  | none => rfl
  | some due =>
    obtain ⟨l, hl⟩ := exists_list_of_armed hs ha
    have hempty : (xs l).isEmpty = true := (head_line hs.kept rfl).1.symm.trans (he l)
    rw [List.isEmpty_iff.mp hempty] at hl
    exact absurd hl List.not_mem_nil

omit [DecidableEq τ] in
theorem prompt_of_inTime (h : Follows d a) (hi : d.InTime) : Prompt d.sampled a := by
  refine ⟨h.now ▸ h.le, ?_⟩
  rcases hi with hi | hi
  · exact .inl (h.now ▸ hi)
  · exact .inr (armed_none_of_empty h hi)

omit [DecidableEq τ] in
theorem follows_tick (h : Follows d a) :
    Follows { d with now := d.now + 1, trace := d.trace ++ [.tick] }
      { a with now := a.now + 1 } where
  now := congrArg (· + 1) h.now
  le := Nat.le_succ_of_le h.le
  last := h.last
  matched := ⟨h.matched.sound, h.matched.period, h.matched.reload, h.matched.freed⟩
  status := h.status
  sent r hr := ⟨(h.sent r hr).1, Nat.le_succ_of_le (h.sent r hr).2⟩
  waits := h.waits

theorem follows_setReloadMode {b : Bool} (h : Follows d a) :
    Follows { d with
        timers := vTimerSetReloadMode d.timers t b
        trace := d.trace ++ [.setReload t b] }
      { a with reload := Function.update a.reload t b } := by
  have hother : ∀ u, u ≠ t → (vTimerSetReloadMode d.timers t b).timer u = d.timers.timer u :=
    fun u hu => Function.update_of_ne hu ..
  have hself : (vTimerSetReloadMode d.timers t b).timer t =
      { d.timers.timer t with autoReload := b } := Function.update_self ..
  have hperiod : ∀ u, (vTimerSetReloadMode d.timers t b).period u = d.timers.period u := by
    intro u
    by_cases hu : u = t
    · rw [hu, Timers.period, hself]
      rfl
    · rw [Timers.period, hother u hu]
      rfl
  obtain ⟨xs, hs⟩ := h.matched.sound
  refine ⟨h.now, h.le, h.last, ⟨⟨xs, sound_fields hs rfl rfl rfl fun u => ?_⟩, fun u => ?_,
    fun u => ?_, h.matched.freed⟩, fun u hu => ?_, h.sent, h.waits⟩
  · rw [hperiod]
    exact hs.period u
  · exact (h.matched.period u).trans (hperiod u).symm
  · show Function.update a.reload t b u = _
    by_cases hu : u = t
    · rw [hu, hself, Function.update_self]
    · rw [hother u hu, Function.update_of_ne hu]
      exact h.matched.reload u
  · refine Eq.trans ?_ (h.status u hu)
    by_cases hut : u = t
    · rw [hut, hself]
    · rw [hother u hut]

/-- A step of the task is a run of the schedule, and comes to its end. -/
theorem follows_step (h : Follows d a) (hf : d.Fair e) :
    ∃ d' es a', d.step e = some d' ∧ Run Step a es a' ∧ d'.trace = d.trace ++ es.map seen ∧
      Follows d' a' ∧ d.sampled ≤ d'.sampled ∧ ∀ e ∈ es.map seen, e.NotAfter d'.sampled := by
  cases e with
  | tick =>
    exact ⟨_, [.tick], _, rfl, .single .tick, rfl, follows_tick h, Nat.le_refl _,
      fun e he => by simp_all [seen, Seen.NotAfter]⟩
  | send m sent =>
    refine ⟨_, [], a, rfl, .nil, ?_, ?_, ?_, fun e he => absurd he List.not_mem_nil⟩
    · split <;> exact (List.append_nil _).symm
    · split
      · refine ⟨h.now, h.le, h.last, h.matched, h.status, fun r hr => ?_, h.waits⟩
        rcases List.mem_append.mp hr with hr | hr
        · exact h.sent r hr
        · obtain rfl := List.mem_singleton.mp hr
          exact hf
      · exact h
    · split <;> exact Nat.le_refl _
  | setReloadMode t b =>
    exact ⟨_, [.setReload t b], _, rfl, .single .setReload, rfl, follows_setReloadMode h,
      Nat.le_refl _, fun e he => by simp_all [seen, Seen.NotAfter]⟩
  | process =>
    obtain ⟨s', block, a', fs, he, hm, hfired, hl, hblock⟩ :=
      process_spec h.matched h.last (prompt_of_inTime h hf.2)
    rw [h.now] at he hm hl hblock
    have hrun := hfired.run
    rw [h.now] at hrun
    refine ⟨{ d.ran s' [] with state := .after d.now block }, fireEvents d.now fs, a', ?_, hrun, ?_,
      ?_, h.le, notAfter_fires⟩
    · simp only [Daemon.step, he, Option.map_some]
    · exact ran_trace hfired.calls
    · refine ⟨(same_of_fires hrun).1.trans h.now, Nat.le_refl _, hl, hm,
        fun t => hfired.status t (h.status t), h.sent, fun w hw t due ht => ?_⟩
      match hb : block with
      | none => cases hw
      | some (ticks, indef) =>
        obtain ⟨hlt, rfl, hle⟩ := hblock ticks indef rfl t due ht
        exact ⟨hlt, d.now + ticks, (TaskState.blocked.inj hw).symm, hle⟩
  | wake =>
    refine ⟨_, [], a, rfl, .nil, (List.append_nil _).symm, ?_, Nat.le_refl _,
      fun e he => absurd he List.not_mem_nil⟩
    exact ⟨h.now, h.le, h.last, h.matched, h.status, h.sent, fun w hw => nomatch hw⟩
  | receive =>
    obtain ⟨hstate, hmessage⟩ := hf
    unfold Daemon.step
    match hq : d.queue with
    | [] =>
      refine ⟨_, [], a, rfl, .nil, (List.append_nil _).symm, ?_, Nat.le_refl _,
        fun e he => absurd he List.not_mem_nil⟩
      exact ⟨h.now, h.le, h.last, h.matched, h.status, fun r hr => absurd hr List.not_mem_nil,
        fun w hw => nomatch hw⟩
    | (m, sent) :: rest =>
      obtain ⟨hfree, hnear, htime⟩ := hmessage m sent (by rw [hq]; rfl)
      obtain ⟨hp, hle⟩ := h.sent (m, sent) (hq ▸ List.mem_cons_self)
      obtain ⟨s', b, a', fs, he, hm, hstep, hrun, hcalls, hl, hstatus⟩ := command_spec h.matched
        h.last (prompt_of_inTime h htime) hfree hp (h.now ▸ hle) (h.now ▸ hnear)
      rw [h.now] at he hm hrun hl
      have hnow : a'.now = d.now :=
        (same_of_fires hrun).1.trans ((now_of_command hstep).trans h.now)
      refine ⟨{ d.ran s' [seen (m.event sent)] with queue := rest },
        m.event sent :: fireEvents d.now fs, a', ?_, .cons hstep hrun, ?_, ?_, h.le, ?_⟩
      · simp only [he, Option.map_some]
      · exact ran_trace hcalls
      · refine ⟨hnow, Nat.le_refl _, hl, hm, fun t => hstatus t (h.status t), fun r hr => ?_,
          fun w hw => ?_⟩
        · exact h.sent r (hq ▸ List.mem_cons_of_mem _ hr)
        · exact nomatch hstate.symm.trans hw
      · exact List.forall_mem_cons.mpr ⟨notAfter_command hle, notAfter_fires⟩

/-! ## Runs -/

theorem follows_init (table : τ → NewTimer) :
    Follows (Daemon.init table) (newSchedule table) := by
  have hkept : Kept (Lists.fresh (fun _ : τ => 0) id : Lists τ TimerList τ) fun _ => .line [] :=
    (refines_init (initialised_fresh fun _ => Nat.zero_le _)).kept
  have hsplit : Epochs.Split (2 ^ 32) (0 / 2 ^ 32) (fun _ : τ => none) [] [] := by
    refine ⟨fun t => ?_, fun t => ?_, fun t d hd => nomatch hd⟩
    · exact iff_of_false List.not_mem_nil fun ⟨d, hd, _⟩ => nomatch hd
    · exact iff_of_false List.not_mem_nil fun ⟨d, hd, _⟩ => nomatch hd
  have hsound : Sound (Timers.init table) (0 / 2 ^ 32) (fun _ => none) fun _ => [] :=
    ⟨hkept, by simp [Timers.init], hsplit, fun _ => .nil, fun t d hd => (nomatch hd),
      fun t d hd => (nomatch hd), fun t => ⟨(table t).period_pos, (table t).period_lt⟩⟩
  exact ⟨rfl, Nat.le_refl _, rfl, ⟨⟨_, hsound⟩, fun _ => rfl, fun _ => rfl, fun _ hf => nomatch hf⟩,
    fun _ _ => rfl, fun r hr => absurd hr List.not_mem_nil, fun w hw => nomatch hw⟩

/-- The run so far as a run of a schedule. -/
structure Traced (table : τ → NewTimer) (d : Daemon τ) (es : List (Event τ)) (a : Schedule τ) :
    Prop where
  run : Run Step (newSchedule table) es a
  trace : es.map seen = d.trace
  follows : Follows d a
  notAfter : ∀ e ∈ d.trace, e.NotAfter d.sampled

omit [DecidableEq τ] in
theorem notAfter_mono {e : Seen τ} {s t : Nat} (h : e.NotAfter s) (hle : s ≤ t) :
    e.NotAfter t := by
  cases e with
  | start | call => exact Nat.le_trans h hle
  | _ => trivial

theorem traced_step {table : τ → NewTimer} (h : Traced table d es a) (hs : DaemonStep d e d') :
    ∃ es' a', Traced table d' es' a' := by
  obtain ⟨d1, es1, a1, he, hrun, htrace, hfollows, hle, hnot⟩ := follows_step h.follows hs.1
  obtain rfl := Option.some.inj (hs.2.symm.trans he)
  refine ⟨es ++ es1, a1, h.run.append hrun, ?_, hfollows, fun e he => ?_⟩
  · rw [List.map_append, h.trace, htrace]
  · rw [htrace] at he
    rcases List.mem_append.mp he with he | he
    · exact notAfter_mono (h.notAfter e he) hle
    · exact hnot e he

theorem traced_run {table : τ → NewTimer} {ds : List (DaemonEvent τ)}
    (h : Run DaemonStep (Daemon.init table) ds d) : ∃ es a, Traced table d es a := by
  refine h.invariant (I := fun d => ∃ es a, Traced table d es a) ?_ ?_
  · rintro d e d' ⟨es, a, ht⟩ hs
    exact traced_step ht hs
  · exact ⟨[], newSchedule table, .nil, rfl, follows_init table, fun e he =>
      absurd he List.not_mem_nil⟩

/-- After a start, what is seen of the timer is a run of the schedule from there. -/
theorem traced_start {table : τ → NewTimer} {before after : List (Seen τ)} {S : Nat}
    (h : Traced table d es a) (htrace : d.trace = before ++ .start t S :: after)
    (hset : ∀ e ∈ after, ¬ e.Sets t) :
    ∃ b fs, Run Step b fs a ∧ b.armed t = some (S + b.period t) ∧
      b.period t = d.timers.period t ∧ b.reload t = (d.timers.timer t).autoReload ∧
      (∀ e ∈ fs, ¬ e.Sets t) ∧ callTimes t after = (fires t fs).map Prod.snd ∧ S ≤ d.sampled ∧
      ∀ f ∈ fires t fs, f.2 ≤ d.sampled := by
  have hmap := h.trace.trans htrace
  obtain ⟨es1, es2, rfl, _, h2⟩ := List.map_eq_append_iff.mp hmap
  obtain ⟨e, fs, rfl, he, hfs⟩ := List.map_eq_cons_iff.mp h2
  obtain ⟨b0, _, hrun⟩ := h.run.split
  have hstart : e = .start t S := by
    cases e <;> simp_all [seen]
  subst hstart
  cases hrun with
  | @cons _ b _ _ _ hs hrun =>
    have hset' : ∀ e ∈ fs, ¬ e.Sets t := by
      intro e he hsets
      refine hset (seen e) ?_ (seen_sets.mpr hsets)
      rw [← hfs]
      exact List.mem_map_of_mem he
    obtain ⟨hperiod, hreload⟩ := kept_of_run hrun hset'
    have hcalls : callTimes t after = (fires t fs).map Prod.snd := by
      rw [← hfs, callTimes_seen]
    refine ⟨b, fs, hrun, ?_, ?_, ?_, hset', hcalls, ?_, fun f hf => ?_⟩
    · cases hs with
      | start _ => exact Function.update_self ..
    · rw [← hperiod, h.follows.matched.period]
    · rw [← hreload, h.follows.matched.reload]
    · exact h.notAfter (.start t S) (htrace ▸ by simp)
    · refine h.notAfter (.call t f.2) (htrace ▸ ?_)
      have hmem : seen (.fire t f.1 f.2) ∈ fs.map seen :=
        List.mem_map_of_mem (fire_mem_of_mem_fires hf)
      rw [hfs] at hmem
      exact List.mem_append_right _ (List.mem_cons_of_mem _ hmem)

/-! ## Evaluation -/

section Evaluation

variable {d d' : Daemon τ} {e : DaemonEvent τ} {es fs : List (DaemonEvent τ)}
  {seens : List (Seen τ)}

/-- A step, if it may be taken. -/
def fairStep (d : Daemon τ) (e : DaemonEvent τ) : Option (Daemon τ) :=
  if d.Fair e then d.step e else none

/-- The task with more seen before. -/
def behind (seens : List (Seen τ)) (d : Daemon τ) : Daemon τ :=
  { d with trace := seens ++ d.trace }

/-- What was seen before does not matter to a step. -/
theorem step_behind (h : d.step e = some d') :
    (behind seens d).step e = some (behind seens d') := by
  cases e with
  | tick =>
    obtain rfl := Option.some.inj h
    simp only [Daemon.step, behind, List.append_assoc]
  | send m sent =>
    have hd := Option.some.inj h
    split at hd
    · next hq => exact hd ▸ congrArg some (if_pos hq)
    · next hq => exact hd ▸ congrArg some (if_neg hq)
  | setReloadMode t b =>
    obtain rfl := Option.some.inj h
    simp only [Daemon.step, behind, List.append_assoc]
  | process =>
    obtain ⟨r, hr, rfl⟩ := Option.map_eq_some_iff.mp h
    refine Option.map_eq_some_iff.mpr ⟨r, hr, ?_⟩
    simp only [behind, Daemon.ran, List.append_assoc]
  | wake =>
    obtain rfl := Option.some.inj h
    rfl
  | receive =>
    match hq : d.queue with
    | [] =>
      simp only [Daemon.step, behind, hq] at h ⊢
      obtain rfl := Option.some.inj h
      rfl
    | (m, sent) :: rest =>
      simp only [Daemon.step, behind, hq] at h ⊢
      obtain ⟨r, hr, rfl⟩ := Option.map_eq_some_iff.mp h
      refine Option.map_eq_some_iff.mpr ⟨r, hr, ?_⟩
      simp only [Daemon.ran, List.append_assoc]

theorem run_behind (seens : List (Seen τ)) (h : Run (Steps fairStep) d es d') :
    Run DaemonStep (behind seens d) es (behind seens d') := by
  induction h with
  | nil => exact .nil
  | @cons d u d' e es hs _ ih =>
    refine .cons ?_ ih
    have hs' : (if d.Fair e then d.step e else none) = some u := hs
    split at hs'
    · rename_i hf
      exact ⟨by cases e <;> exact hf, step_behind hs'⟩
    · cases hs'

theorem run_ticks (d : Daemon τ) (n : Nat) : Run DaemonStep d (List.replicate n .tick)
    { d with now := d.now + n, trace := d.trace ++ List.replicate n .tick } := by
  induction n generalizing d with
  | zero =>
    rw [List.replicate_zero, List.replicate_zero, List.append_nil]
    exact .nil
  | succ n ih =>
    have hr := ih { d with now := d.now + 1, trace := d.trace ++ [.tick] }
    rw [Nat.add_assoc, Nat.add_comm 1, List.append_assoc] at hr
    exact .cons ⟨trivial, rfl⟩ hr

/-- Ticks, and then events that are evaluated with nothing seen before. -/
def afterTicks (n : Nat) (es : List (DaemonEvent τ)) (d : Daemon τ) : Option (Daemon τ) :=
  exec fairStep { d with now := d.now + n, trace := [] } es

theorem run_afterTicks {a : Daemon τ} {n : Nat} (h : Run DaemonStep a es (behind seens d))
    (hd : afterTicks n fs d = some d') :
    Run DaemonStep a (es ++ (List.replicate n .tick ++ fs))
      (behind (seens ++ d.trace ++ List.replicate n .tick) d') := by
  have hr := run_behind (seens ++ d.trace ++ List.replicate n .tick) (run_iff_exec.mpr hd)
  unfold behind at hr
  rw [List.append_nil] at hr
  exact h.append ((run_ticks _ n).append hr)

/-- A timer with half a round for its period. -/
def halfRound : NewTimer := ⟨2 ^ 31, true, true, by decide, by decide⟩

def startEvents : List (DaemonEvent Unit) :=
  [.send ⟨.start, 0, ()⟩ 0, .process, .wake, .receive, .receive]

def callEvents : List (DaemonEvent Unit) := [.process, .receive]

def switchEvents : List (DaemonEvent Unit) := [.process, .receive, .process, .receive, .process]

def tickEvents (n : Nat) : List (DaemonEvent Unit) := List.replicate n .tick

/-- Two periods. With half a round for each, the tick count overflows with the second. -/
def periodEvents (n : Nat) : List (DaemonEvent Unit) :=
  startEvents ++ (tickEvents n ++ callEvents) ++ (tickEvents n ++ switchEvents)

/-- What is seen after the start. -/
def periodsSeen (n : Nat) : List (Seen Unit) :=
  List.replicate n Seen.tick ++
    Seen.call () n :: (List.replicate n Seen.tick ++ [Seen.call () (2 * n)])

theorem callTimes_ticks {t : τ} {n : Nat} {tr : List (Seen τ)} :
    callTimes t (List.replicate n .tick ++ tr) = callTimes t tr := by
  induction n with
  | zero => rfl
  | succ n ih => exact ih

/-- The task after it has received the start. -/
def startedTimer : Option (Daemon Unit) :=
  exec fairStep (Daemon.init fun _ => halfRound) startEvents

theorem periodEvents_run : ∃ d,
    Run DaemonStep (Daemon.init fun _ : Unit => halfRound) (periodEvents (2 ^ 31)) d ∧
      d.trace = .start () 0 :: periodsSeen (2 ^ 31) ∧ (d.timers.timer ()).autoReload = true ∧
      d.timers.period () = 2 ^ 31 ∧ d.state = .blocked (some (2 ^ 32 + 2 ^ 31)) := by
  have h1 : startedTimer.map Daemon.trace = some [.start () 0] := by decide +kernel
  have h2 : (startedTimer.bind (afterTicks (2 ^ 31) callEvents)).map Daemon.trace =
      some [.call () (2 ^ 31)] := by decide +kernel
  have h3 : ((startedTimer.bind (afterTicks (2 ^ 31) callEvents)).bind
      (afterTicks (2 ^ 31) switchEvents)).map
        (fun d => (d.trace, (d.timers.timer ()).autoReload, d.timers.period (), d.state)) =
      some ([.call () (2 * 2 ^ 31)], true, 2 ^ 31, .blocked (some (2 ^ 32 + 2 ^ 31))) := by
    decide +kernel
  obtain ⟨d1, hd1, ht1⟩ := Option.map_eq_some_iff.mp h1
  rw [hd1, Option.bind_some] at h2 h3
  obtain ⟨d2, hd2, ht2⟩ := Option.map_eq_some_iff.mp h2
  rw [hd2, Option.bind_some] at h3
  obtain ⟨d3, hd3, hobs⟩ := Option.map_eq_some_iff.mp h3
  simp only [Prod.mk.injEq] at hobs
  obtain ⟨ht3, hreload, hperiod, hstate⟩ := hobs
  have hr1 : Run DaemonStep (Daemon.init fun _ : Unit => halfRound) startEvents (behind [] d1) :=
    run_behind [] (run_iff_exec.mpr hd1)
  refine ⟨_, run_afterTicks (run_afterTicks hr1 hd2) hd3, ?_, hreload, hperiod, hstate⟩
  simp only [behind, periodsSeen, ht1, ht2, ht3, List.nil_append, List.cons_append,
    List.append_assoc]

end Evaluation

end KernelTimersRunsLemmas

open KernelTimersRunsLemmas

/-! ## Results -/

variable (table : τ → NewTimer) (ds : List (DaemonEvent τ))

/-- In every state of every run the timers are where a schedule without wrapping has them, and
what was seen is what the schedule did: nothing is called before its time. A start or a reset
has its effect from the time at which it was sent; a new period counts from when the command
is received, and a timer is stopped or deleted when the command is received. While the task
waits nothing is due, and it is to be woken before anything is. -/
theorem timers_refine_schedule : Always DaemonStep
    (fun d => ∃ es a, Run Step (newSchedule table) es a ∧ es.map seen = d.trace ∧ Follows d a)
    (Daemon.init table) ds := by
  intro done rest d _ h
  obtain ⟨es, a, ht⟩ := traced_run h
  exact ⟨es, a, ht.run, ht.trace, ht.follows⟩

/-- In every state of every run each step that may be taken comes to its end. -/
theorem daemon_returns : Always DaemonStep (fun d => ∀ e, d.Fair e → ∃ d', d.step e = some d')
    (Daemon.init table) ds := by
  intro done rest d _ h e hf
  obtain ⟨es, a, ht⟩ := traced_run h
  obtain ⟨d', _, _, he, _⟩ := follows_step ht.follows hf
  exact ⟨d', he⟩

/-- A timer that was started at `S` and has not been set since, and that reloads: the call
number `k` came after `k + 1` periods and not before, and whenever the task waits it has called
the timer for every period that is over. The next expiry time is in phase with `S`, and the
task is woken for it. -/
theorem timer_keeps_phase : Always DaemonStep (fun d => ∀ before after t S,
    d.trace = before ++ .start t S :: after → (∀ e ∈ after, ¬ e.Sets t) →
    (d.timers.timer t).autoReload = true →
      (∀ k time, (callTimes t after)[k]? = some time →
        S + (k + 1) * d.timers.period t ≤ time ∧ time ≤ d.sampled) ∧
      xTimerGetExpiryTime d.timers t =
        (S + ((callTimes t after).length + 1) * d.timers.period t) % 2 ^ 32 ∧
      ∀ w, d.state = .blocked w →
        (callTimes t after).length = (d.sampled - S) / d.timers.period t ∧
        ∃ wake, w = some wake ∧ wake ≤ S + ((callTimes t after).length + 1) * d.timers.period t)
    (Daemon.init table) ds := by
  intro done rest d _ h before after t S htrace hset hr
  obtain ⟨es, a, ht⟩ := traced_run h
  obtain ⟨b, fs, hrun, harmed, hperiod, hreload, hset', hcalls, hS, hlast⟩ :=
    traced_start ht htrace hset
  obtain ⟨hdues, ha, hlate⟩ := fires_reload hrun harmed (hreload.trans hr) hset'
  have hlen : (callTimes t after).length = (fires t fs).length := by
    rw [hcalls, List.length_map]
  have hnext : S + b.period t + (fires t fs).length * b.period t =
      S + ((callTimes t after).length + 1) * d.timers.period t := by
    rw [hlen, hperiod, Nat.succ_mul, Nat.add_assoc, Nat.add_comm (d.timers.period t)]
  obtain ⟨xs, hs⟩ := ht.follows.matched.sound
  refine ⟨fun k time hk => ?_, ?_, fun w hw => ⟨?_, ?_⟩⟩
  · rw [hcalls, List.getElem?_map] at hk
    obtain ⟨f, hf, rfl⟩ := Option.map_eq_some_iff.mp hk
    have hmem := List.mem_of_getElem? hf
    have hdue : ((fires t fs).map Prod.fst)[k]? = some f.1 := by
      rw [List.getElem?_map, hf]
      rfl
    rw [hdues, List.getElem?_map, List.getElem?_range (List.getElem?_eq_some_iff.mp hf).1] at hdue
    have hval : S + b.period t + k * b.period t = f.1 := Option.some.inj hdue
    refine ⟨?_, hlast f hmem⟩
    rw [← hperiod, Nat.succ_mul, Nat.add_comm (k * b.period t), ← Nat.add_assoc, hval]
    exact (hlate f hmem).1
  · rw [← hnext]
    exact hs.value t _ ha
  · rw [hlen, ← hperiod]
    exact count_reload hrun harmed (hreload.trans hr) hset' hS hlast fun due hdue =>
      (ht.follows.waits w hw t due hdue).1
  · obtain ⟨_, wake, hwake, hle⟩ := ht.follows.waits w hw t _ ha
    exact ⟨wake, hwake, hnext ▸ hle⟩

/-- The timer of half a round has been called at the end of each of its two periods. -/
theorem timer_keeps_phase_overflow : ∃ d,
    Run DaemonStep (Daemon.init fun _ : Unit => halfRound) (periodEvents (2 ^ 31)) d ∧
      d.trace = .start () 0 :: periodsSeen (2 ^ 31) ∧
      callTimes () (periodsSeen (2 ^ 31)) = [2 ^ 31, 2 ^ 32] ∧
      d.state = .blocked (some (2 ^ 32 + 2 ^ 31)) ∧ xTimerGetExpiryTime d.timers () = 2 ^ 31 := by
  obtain ⟨d, hr, htrace, hreload, hperiod, hstate⟩ := periodEvents_run
  have hcalls : callTimes () (periodsSeen (2 ^ 31)) = [2 ^ 31, 2 ^ 32] := by
    rw [periodsSeen, callTimes_ticks, callTimes, if_pos rfl, callTimes_ticks]
    rfl
  have hset : ∀ e ∈ periodsSeen (2 ^ 31), ¬ e.Sets () := by
    intro e he
    unfold periodsSeen at he
    rcases List.mem_append.mp he with he | he
    · rw [List.eq_of_mem_replicate he]
      exact id
    rcases List.mem_cons.mp he with rfl | he
    · exact id
    rcases List.mem_append.mp he with he | he
    · rw [List.eq_of_mem_replicate he]
      exact id
    · rw [List.mem_singleton.mp he]
      exact id
  obtain ⟨_, hexpiry, _⟩ := timer_keeps_phase (fun _ : Unit => halfRound)
    (periodEvents (2 ^ 31)) (periodEvents (2 ^ 31)) [] d (List.append_nil _).symm hr []
    (periodsSeen (2 ^ 31)) () 0 htrace hset hreload
  refine ⟨d, hr, htrace, hcalls, hstate, ?_⟩
  rw [hexpiry, hcalls, hperiod]
  rfl

/-- A timer that was started at `S` and has not been set since, and that does not reload: it is
waiting for its one call, or was called once, not before its period was over, and is in no
list. Whenever the task waits, it has been called if its period is over. -/
theorem one_shot_fires_once : Always DaemonStep (fun d => ∀ before after t S,
    d.trace = before ++ .start t S :: after → (∀ e ∈ after, ¬ e.Sets t) →
    (d.timers.timer t).autoReload = false →
      callTimes t after = [] ∧ xTimerGetExpiryTime d.timers t = (S + d.timers.period t) % 2 ^ 32 ∧
          (∀ w, d.state = .blocked w → d.sampled < S + d.timers.period t ∧
            ∃ wake, w = some wake ∧ wake ≤ S + d.timers.period t) ∨
        ∃ time, callTimes t after = [time] ∧ S + d.timers.period t ≤ time ∧ time ≤ d.sampled ∧
          d.timers.lists.pxContainer t = none) (Daemon.init table) ds := by
  intro done rest d _ h before after t S htrace hset hr
  obtain ⟨es, a, ht⟩ := traced_run h
  obtain ⟨b, fs, hrun, harmed, hperiod, hreload, hset', hcalls, _, hlast⟩ :=
    traced_start ht htrace hset
  obtain ⟨xs, hs⟩ := ht.follows.matched.sound
  rw [hcalls]
  rw [hperiod] at harmed
  rcases fires_once hrun harmed (hreload.trans hr) hset' with ⟨hnil, ha⟩ | ⟨time, hf, hle, _, ha⟩
  · rw [hnil]
    exact .inl ⟨rfl, hs.value t _ ha, fun w hw => ht.follows.waits w hw t _ ha⟩
  · refine .inr ⟨time, ?_, hle, hlast (_, time) (hf ▸ List.mem_singleton_self _),
      container_of_unarmed hs ha⟩
    rw [hf]
    rfl

/-- `xTimerIsTimerActive` tells whether the timer is in one of the lists. -/
theorem active_iff_listed : Always DaemonStep (fun d => ∀ t, d.timers.freed t = false →
    xTimerIsTimerActive d.timers t = (d.timers.lists.pxContainer t).isSome)
    (Daemon.init table) ds := by
  intro done rest d _ h t hf
  obtain ⟨es, a, ht⟩ := traced_run h
  obtain ⟨xs, hs⟩ := ht.follows.matched.sound
  rw [xTimerIsTimerActive, ht.follows.status t hf]
  cases ha : a.armed t with
  | none =>
    rw [container_of_unarmed hs ha]
    rfl
  | some due =>
    obtain ⟨l, hl⟩ := exists_list_of_armed hs ha
    rw [(hs.kept.container t l).mpr hl]
    rfl

end BlackPill.KernelTimers
