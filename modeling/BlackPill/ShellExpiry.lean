import BlackPill.ShellTimer

/-!
# The auto-logout timer after a logout

A session at the level of the shell's calls: a login or a logout is one step with
its callback, `Shell_SymInClbk` is two, its test and its restart of the timer. The
timer task outranks the shell task and `prvTimerTask` empties its queue before it
looks at the timer again, so an expiry, like a step of the shell task, finds the
queue empty.

Results:
1. `sym_run_is_shell_run`: every run here is one of the finer model of
   `ShellTimer`, with the callbacks right behind the logins and logouts.
2. `expiry_finds_user_iff`: the timer is never left running without a session, and
   the expiry callback logs out nobody who is not there, in exactly those runs in
   which `Shell_SymInClbk` restarts the timer for a user who is still logged in.
   `restart_after_logout`: an expiry between its test and its restart is enough.
3. `late_restart_fires`: after such a restart the next expiry calls
   `WshShell_DeAuth` with nobody logged in.
4. `shell_expiry_finds_user_iff`: the same in the finer model, where an expiry may
   also fall between a login or a logout and its callback.
-/

namespace BlackPill

open Runs

/-! ## Definitions -/

/-- `restarting`: the test in `Shell_SymInClbk` has found a user, and the restart
is next. -/
structure SymState where
  session : Session
  restarting : Bool
deriving DecidableEq, Repr

/-- Steps of the shell task and of the timer task. -/
inductive SymEvent
  | symInTest
  | symInRestart
  | login (rights : Nat)
  | logout
  | setKeep (keep : Bool)
  | timerCommand
  | timerExpire
deriving DecidableEq, Repr

/-- `WshShell_Auth`, when it lets the user in. -/
def wshShellAuth (s : Session) (rights : Nat) : Session :=
  shellAuthClbk { s with currUser := some rights }

/-- A step that needs the timer task to have no command left, and the shell task to
be inside `Shell_SymInClbk` or not. -/
def drainedStep (s : SymState) (restarting : Bool) (s' : SymState) : Option SymState :=
  if s.restarting = restarting ∧ s.session.timerQueue = [] then some s' else none

def symStep (s : SymState) : SymEvent → Option SymState
  | .symInTest => drainedStep s false { s with restarting := wshShellIsAuth s.session }
  | .symInRestart => drainedStep s true ⟨s.session.post .changePeriod, false⟩
  | .login rights => drainedStep s false ⟨wshShellAuth s.session rights, false⟩
  | .logout => drainedStep s false ⟨wshShellDeAuth s.session, false⟩
  | .setKeep keep => drainedStep s false ⟨{ s.session with keepActive := keep }, false⟩
  | .timerCommand => (timerCommand s.session).map fun session => { s with session := session }
  | .timerExpire =>
    if s.session.timerQueue = [] then
      (timerExpire s.session).map fun session => { s with session := session }
    else none

/-- What `Shell_Init` leaves, as in `ShellState.init`. -/
def SymState.init (currUser : Option Nat) (keepActive : Bool) : SymState :=
  { session := ⟨currUser, keepActive, false, []⟩, restarting := false }

/-- With nobody logged in, the timer does not run once its queue is worked off. -/
def NoOrphanTimer (s : SymState) : Prop := s.session.currUser = none → s.session.settled = false

/-- An expiry finds a kept session, which `ShellRoot_ResetTimerClbk` leaves alone,
or a user for `WshShell_DeAuth`. -/
def ExpiryFindsUser (s : SymState) : SymEvent → Prop
  | .timerExpire => s.session.keepActive = true ∨ s.session.currUser.isSome
  | _ => True

instance {s : SymState} : (ev : SymEvent) → Decidable (ExpiryFindsUser s ev)
  | .timerExpire => by unfold ExpiryFindsUser; infer_instance
  | .symInTest | .symInRestart | .login _ | .logout | .setKeep _ | .timerCommand => .isTrue trivial

/-- The auto-logout fires for somebody only, in every state and at every step. -/
def FiresForSession (s : SymState) (events : List SymEvent) : Prop :=
  Always (Steps symStep) NoOrphanTimer s events ∧ Meets (Steps symStep) ExpiryFindsUser s events

/-- The user whom the test found is still there when the timer is restarted. -/
def RestartsForUser (s : SymState) : SymEvent → Prop
  | .symInRestart => s.session.currUser.isSome
  | _ => True

namespace ShellExpiryLemmas

variable {s s' t : SymState} {ev : SymEvent}

theorem drainedStep_some {r : Bool} (h : drainedStep s r t = some s') :
    s.restarting = r ∧ s.session.timerQueue = [] ∧ s' = t := by
  unfold drainedStep at h
  split at h
  · next hg => exact ⟨hg.1, hg.2, (Option.some.inj h).symm⟩
  · cases h

theorem expire_some (h : symStep s .timerExpire = some s') :
    s.session.timerQueue = [] ∧ ∃ session, timerExpire s.session = some session ∧
      s' = { s with session := session } := by
  simp only [symStep] at h
  split at h
  · next hq =>
    obtain ⟨session, ht, rfl⟩ := Option.map_eq_some_iff.mp h
    exact ⟨hq, session, ht, rfl⟩
  · cases h

theorem noOrphan_of_user {session : Session} {r : Bool} (h : session.currUser.isSome) :
    NoOrphanTimer ⟨session, r⟩ := fun hn => by
  rw [show session.currUser = none from hn] at h
  cases h

theorem noOrphan_of_settled {session : Session} {r : Bool} (h : session.settled = false) :
    NoOrphanTimer ⟨session, r⟩ := fun _ => h

/-- The stop that a logout sends leaves the timer off. -/
theorem settled_deAuth {session : Session} (hq : session.timerQueue = []) :
    (wshShellDeAuth session).settled = false :=
  settled_post (s := { session with currUser := none }) hq

/-- The restart leaves the timer on, so it needs a user. -/
theorem noOrphan_restart (hq : s.session.timerQueue = []) :
    NoOrphanTimer ⟨s.session.post .changePeriod, false⟩ ↔ s.session.currUser.isSome := by
  constructor
  · intro h
    cases hu : s.session.currUser with
    | some rights => rfl
    | none =>
      have hoff := h (post_currUser.trans hu)
      rw [settled_post hq] at hoff
      cases hoff
  · intro hu
    exact noOrphan_of_user (by rwa [post_currUser])

theorem noOrphan_expire (hq : s.session.timerQueue = []) {session : Session}
    (ht : timerExpire s.session = some session) : session.settled = false := by
  unfold timerExpire at ht
  split at ht
  · obtain rfl := Option.some.inj ht
    rcases Bool.eq_false_or_eq_true s.session.keepActive with hk | hk
    · rw [shellRootResetTimerClbk_of_kept (s := { s.session with timerRunning := false }) hk]
      exact settled_of_drained hq
    · rw [shellRootResetTimerClbk_of_not_kept (s := { s.session with timerRunning := false }) hk]
      exact settled_deAuth hq
  · cases ht

/-- A step leaves no orphan timer exactly when it is no restart for nobody. -/
theorem noOrphan_step (h : NoOrphanTimer s) (hs : symStep s ev = some s') :
    NoOrphanTimer s' ↔ RestartsForUser s ev := by
  cases ev with
  | symInTest =>
    obtain ⟨_, _, rfl⟩ := drainedStep_some hs
    exact iff_of_true h trivial
  | symInRestart =>
    obtain ⟨_, hq, rfl⟩ := drainedStep_some hs
    exact noOrphan_restart hq
  | login rights =>
    obtain ⟨_, _, rfl⟩ := drainedStep_some hs
    have hu : (wshShellAuth s.session rights).currUser = some rights := post_currUser
    exact iff_of_true (noOrphan_of_user (by rw [hu]; rfl)) trivial
  | logout =>
    obtain ⟨_, hq, rfl⟩ := drainedStep_some hs
    exact iff_of_true (noOrphan_of_settled (settled_deAuth hq)) trivial
  | setKeep keep =>
    obtain ⟨_, _, rfl⟩ := drainedStep_some hs
    exact iff_of_true h trivial
  | timerCommand =>
    obtain ⟨session, ht, rfl⟩ := Option.map_eq_some_iff.mp hs
    obtain ⟨_, hset, hu, _⟩ := timerCommand_cases ht
    exact iff_of_true (fun hn => hset.trans (h (hu ▸ hn))) trivial
  | timerExpire =>
    obtain ⟨hq, session, ht, rfl⟩ := expire_some hs
    exact iff_of_true (noOrphan_of_settled (noOrphan_expire hq ht)) trivial

/-- A timer that expires is running. -/
theorem settled_of_expire {session session' : Session} (hq : session.timerQueue = [])
    (ht : timerExpire session = some session') : session.settled = true := by
  rw [settled_of_drained hq]
  unfold timerExpire at ht
  split at ht
  · next hr => exact hr
  · cases ht

/-- Without orphan timers an expiry finds somebody. -/
theorem expiryFindsUser_of_noOrphan (h : NoOrphanTimer s) (hs : symStep s ev = some s') :
    ExpiryFindsUser s ev := by
  cases ev with
  | timerExpire =>
    obtain ⟨hq, session, ht, _⟩ := expire_some hs
    refine .inr (Option.isSome_iff_ne_none.mpr fun hn => ?_)
    exact absurd ((settled_of_expire hq ht).symm.trans (h hn)) (by decide)
  | _ => trivial

theorem always_noOrphan_iff (h : NoOrphanTimer s) (events : List SymEvent) :
    Always (Steps symStep) NoOrphanTimer s events ↔
      Meets (Steps symStep) RestartsForUser s events := by
  refine always_iff_meets (I := NoOrphanTimer) ?_ (fun _ hi => hi) ?_ h events
  · intro s ev s' hi hc hs
    exact (noOrphan_step hi hs).mpr hc
  · intro s ev s' hi hs hp
    exact (noOrphan_step hi hs).mp hp

theorem noOrphan_init (currUser : Option Nat) (keepActive : Bool) :
    NoOrphanTimer (SymState.init currUser keepActive) := fun _ => rfl

end ShellExpiryLemmas

open ShellExpiryLemmas

/-- Along a run the timer never outlives its session, and each expiry finds somebody
to log out or a kept session, exactly when every restart of the timer in
`Shell_SymInClbk` finds the user whom its test has found. -/
theorem expiry_finds_user_iff (currUser : Option Nat) (keepActive : Bool)
    (events : List SymEvent) :
    FiresForSession (SymState.init currUser keepActive) events ↔
      Meets (Steps symStep) RestartsForUser (SymState.init currUser keepActive) events := by
  have hiff := always_noOrphan_iff (noOrphan_init currUser keepActive) events
  constructor
  · intro h
    exact hiff.mp h.1
  · intro h
    have hall := hiff.mpr h
    refine ⟨hall, fun done ev rest s s' he hr hs => ?_⟩
    exact expiryFindsUser_of_noOrphan (hall done (ev :: rest) s he hr) hs

/-- A symbol of a user who is logged out between the test and the restart: the timer
is started again, and expires with nobody logged in. -/
theorem restart_after_logout : ¬ FiresForSession (SymState.init none false)
    [.login 7, .timerCommand, .symInTest, .timerExpire, .timerCommand, .symInRestart,
      .timerCommand, .timerExpire] :=
  fun h => absurd h.2 (by decide)

/-- A restart with nobody logged in and no session kept always comes to that. -/
theorem late_restart_fires {s s' : SymState} (hs : symStep s .symInRestart = some s')
    (hu : s.session.currUser = none) (hk : s.session.keepActive = false) :
    ∃ t u, symStep s' .timerCommand = some t ∧ symStep t .timerExpire = some u ∧
      ¬ ExpiryFindsUser t .timerExpire := by
  obtain ⟨_, hq, rfl⟩ := drainedStep_some hs
  have hpost : s.session.post .changePeriod =
      { s.session with timerQueue := [.changePeriod] } := by
    unfold Session.post
    rw [hq]
    rfl
  refine ⟨_, _, by rw [hpost]; rfl, rfl, ?_⟩
  rintro (hkept | huser)
  · exact absurd (hk.symm.trans hkept) (by decide)
  · exact absurd (hu ▸ huser : (none : Option Nat).isSome) (by decide)

/-! ## The finer model -/

/-- The state of the finer model, outside the shell library or inside
`Shell_SymInClbk`. -/
def MatchesShell (s : SymState) (t : ShellState) : Prop :=
  t.session = s.session ∧ t.pc = if s.restarting then .symInRestart else .handling

namespace ShellExpiryLemmas

theorem shellTask_of {t : ShellState} {pc pc' : ShellPc} {session : Session} (hp : t.pc = pc)
    (hq : t.session.timerQueue = []) :
    shellTask t pc pc' session = some { t with session := session, pc := pc' } :=
  if_pos ⟨hp, hq⟩

/-- Each step is one of the finer model, or a few of them in a row. -/
theorem matches_step {s s' : SymState} {ev : SymEvent} {t : ShellState} (h : MatchesShell s t)
    (hs : symStep s ev = some s') :
    ∃ evs t', Run (Steps shellStep) t evs t' ∧ MatchesShell s' t' := by
  obtain ⟨session, restarting⟩ := s
  obtain ⟨tsession, pc, authSeen⟩ := t
  obtain rfl : tsession = session := h.1
  obtain rfl : pc = if restarting then .symInRestart else .handling := h.2
  cases ev with
  | symInTest =>
    obtain ⟨rfl, hq, rfl⟩ := drainedStep_some hs
    exact ⟨[.done, .symbol, .symInTest], _, Run.cons (shellTask_of rfl hq)
      (Run.cons (shellTask_of rfl hq) (Run.single (shellTask_of rfl hq))), rfl, rfl⟩
  | symInRestart =>
    obtain ⟨rfl, hq, rfl⟩ := drainedStep_some hs
    exact ⟨[.symInRestart], _, Run.single (shellTask_of rfl hq), rfl, rfl⟩
  | login rights =>
    obtain ⟨rfl, hq, rfl⟩ := drainedStep_some hs
    exact ⟨[.login rights, .authClbk], _, Run.cons (shellTask_of rfl hq)
      (Run.single (shellTask_of rfl hq)), rfl, rfl⟩
  | logout =>
    obtain ⟨rfl, hq, rfl⟩ := drainedStep_some hs
    exact ⟨[.logout, .deAuthClbk], _, Run.cons (shellTask_of rfl hq)
      (Run.single (shellTask_of rfl hq)), rfl, rfl⟩
  | setKeep keep =>
    obtain ⟨rfl, hq, rfl⟩ := drainedStep_some hs
    exact ⟨[.setKeep keep], _, Run.single (shellTask_of rfl hq), rfl, rfl⟩
  | timerCommand =>
    obtain ⟨session', ht, rfl⟩ := Option.map_eq_some_iff.mp hs
    exact ⟨[.timerCommand], _,
      Run.single (Option.map_eq_some_iff.mpr ⟨session', ht, rfl⟩), rfl, rfl⟩
  | timerExpire =>
    obtain ⟨_, session', ht, rfl⟩ := expire_some hs
    exact ⟨[.timerExpire], _,
      Run.single (Option.map_eq_some_iff.mpr ⟨session', ht, rfl⟩), rfl, rfl⟩

end ShellExpiryLemmas

/-- What the shell and the timer do here, they can do in the finer model. -/
theorem sym_run_is_shell_run {currUser : Option Nat} {keepActive : Bool} {events : List SymEvent}
    {s : SymState} (h : Run (Steps symStep) (SymState.init currUser keepActive) events s) :
    ∃ evs t, Run (Steps shellStep) (ShellState.init currUser keepActive) evs t ∧
      MatchesShell s t :=
  Run.simulate (fun _ _ _ _ hm hs => matches_step hm hs) h ⟨rfl, rfl⟩

/-! ## Logins and logouts in two steps -/

/-- The finer model, in which other steps may fall between a login or a logout and its
callback. An expiry still finds the queue empty. -/
def shellDrainedStep (s : ShellState) : ShellEvent → Option ShellState
  | .timerExpire => if s.session.timerQueue = [] then shellStep s .timerExpire else none
  | ev => shellStep s ev

/-- Only between a logout and its callback may the timer run with nobody logged in. -/
def NoOrphanShellTimer (s : ShellState) : Prop :=
  s.pc ≠ .deAuthClbk → s.session.currUser = none → s.session.settled = false

def ShellExpiryFindsUser (s : ShellState) : ShellEvent → Prop
  | .timerExpire => s.session.keepActive = true ∨ s.session.currUser.isSome
  | _ => True

def ShellFiresForSession (s : ShellState) (events : List ShellEvent) : Prop :=
  Always (Steps shellDrainedStep) NoOrphanShellTimer s events ∧
    Meets (Steps shellDrainedStep) ShellExpiryFindsUser s events

/-- Whoever starts the timer finds the user for whom it does. -/
def StartsForUser (s : ShellState) : ShellEvent → Prop
  | .symInRestart | .authClbk => s.session.currUser.isSome
  | _ => True

/-- No session that is not kept expires between its logout and the callback. -/
def ExpiresOutsideLogout (s : ShellState) : ShellEvent → Prop
  | .timerExpire => s.pc = .deAuthClbk → s.session.keepActive = true
  | _ => True

instance {s : ShellState} : (ev : ShellEvent) → Decidable (ShellExpiryFindsUser s ev)
  | .timerExpire => inferInstanceAs (Decidable (_ ∨ _))
  | .symbol | .symInTest | .symInRestart | .login _ | .authClbk | .logout | .deAuthClbk
  | .setKeep _ | .done | .timerCommand => .isTrue trivial

/-- The timer belongs to a user, and behind a logout nobody is logged in. -/
structure Owned (s : ShellState) : Prop where
  timer : NoOrphanShellTimer s
  loggedOut : s.pc = .deAuthClbk → s.session.currUser = none

namespace ShellExpiryLemmas

open ShellTimerLemmas

variable {s s' : ShellState} {ev : ShellEvent} {session : Session} {pc : ShellPc}

theorem shellExpire_some (h : shellDrainedStep s .timerExpire = some s') :
    s.session.timerQueue = [] ∧ ∃ session, timerExpire s.session = some session ∧
      s' = { s with session := session } := by
  simp only [shellDrainedStep] at h
  split at h
  · next hq =>
    obtain ⟨session, ht, rfl⟩ := Option.map_eq_some_iff.mp h
    exact ⟨hq, session, ht, rfl⟩
  · cases h

/-- The timer is started outside a logout. -/
theorem noOrphan_start {c : TimerCommand} (hq : session.timerQueue = []) (hc : c.starts = true)
    (hpc : pc ≠ .deAuthClbk) {authSeen : Bool} :
    NoOrphanShellTimer ⟨session.post c, pc, authSeen⟩ ↔ session.currUser.isSome := by
  have hset : (session.post c).settled = true := (settled_post hq).trans hc
  rw [Option.isSome_iff_ne_none]
  constructor
  · intro h hu
    exact absurd (hset.symm.trans (h hpc (post_currUser.trans hu))) (by decide)
  · intro hu _ hn
    exact absurd (post_currUser.symm.trans hn) hu

/-- A step leaves no orphan timer exactly when it starts none for nobody. -/
theorem noOrphan_shellStep (h : Owned s) (hs : shellDrainedStep s ev = some s') :
    NoOrphanShellTimer s' ↔ StartsForUser s ev := by
  cases ev with
  | symbol =>
    obtain ⟨hp, _, rfl⟩ := shellTask_some hs
    exact iff_of_true (fun _ => h.timer (by rw [hp]; decide)) trivial
  | symInTest =>
    obtain ⟨hp, _, rfl⟩ := shellTask_some hs
    exact iff_of_true (fun _ => h.timer (by rw [hp]; decide)) trivial
  | symInRestart =>
    obtain ⟨_, hq, rfl⟩ := shellTask_some hs
    exact noOrphan_start hq rfl (by decide)
  | login rights =>
    obtain ⟨_, _, rfl⟩ := shellTask_some hs
    exact iff_of_true (fun _ hn => nomatch hn) trivial
  | authClbk =>
    obtain ⟨_, hq, rfl⟩ := shellTask_some hs
    exact noOrphan_start hq rfl (by decide)
  | logout =>
    obtain ⟨_, _, rfl⟩ := shellTask_some hs
    exact iff_of_true (fun hp => absurd rfl hp) trivial
  | deAuthClbk =>
    obtain ⟨_, hq, rfl⟩ := shellTask_some hs
    exact iff_of_true (fun _ _ => settled_post hq) trivial
  | setKeep keep =>
    obtain ⟨hp, _, rfl⟩ := shellTask_some hs
    exact iff_of_true (fun _ => h.timer (by rw [hp]; decide)) trivial
  | done =>
    obtain ⟨hp, _, rfl⟩ := shellTask_some hs
    exact iff_of_true (fun _ => h.timer (by rw [hp]; decide)) trivial
  | timerCommand =>
    obtain ⟨session, ht, rfl⟩ := Option.map_eq_some_iff.mp hs
    obtain ⟨_, hset, hu, _⟩ := timerCommand_cases ht
    exact iff_of_true (fun hp hn => hset.trans (h.timer hp (hu ▸ hn))) trivial
  | timerExpire =>
    obtain ⟨hq, session, ht, rfl⟩ := shellExpire_some hs
    have hoff := noOrphan_expire (s := ⟨s.session, false⟩) hq ht
    exact iff_of_true (fun _ _ => hoff) trivial

/-- After the logout nobody comes in before its callback. -/
theorem loggedOut_shellStep (h : s.pc = .deAuthClbk → s.session.currUser = none)
    (hs : shellDrainedStep s ev = some s') :
    s'.pc = .deAuthClbk → s'.session.currUser = none := by
  intro hp'
  cases ev with
  | logout =>
    obtain ⟨_, _, rfl⟩ := shellTask_some hs
    rfl
  | timerCommand =>
    obtain ⟨session, ht, rfl⟩ := Option.map_eq_some_iff.mp hs
    exact (timerCommand_cases ht).2.2.1.trans (h hp')
  | timerExpire =>
    obtain ⟨_, session, ht, rfl⟩ := shellExpire_some hs
    rcases timerExpire_cases ht with ⟨_, rfl⟩ | ⟨_, hu, _⟩
    · exact h hp'
    · exact hu
  | symInTest =>
    obtain ⟨_, _, rfl⟩ := shellTask_some hs
    exact absurd hp' (by dsimp only; split <;> decide)
  | _ =>
    obtain ⟨_, _, rfl⟩ := shellTask_some hs
    cases hp'

theorem owned_init (currUser : Option Nat) (keepActive : Bool) :
    Owned (ShellState.init currUser keepActive) := ⟨fun _ _ => rfl, fun hp => nomatch hp⟩

/-- Outside a logout an expiry finds somebody; inside it, only a kept session will do. -/
theorem shellExpiryFindsUser_iff (h : Owned s) (hs : shellDrainedStep s ev = some s') :
    ShellExpiryFindsUser s ev ↔ ExpiresOutsideLogout s ev := by
  cases ev with
  | timerExpire =>
    obtain ⟨hq, session, ht, _⟩ := shellExpire_some hs
    constructor
    · rintro (hk | hu) hp
      · exact hk
      · rw [h.loggedOut hp] at hu
        cases hu
    · intro hout
      by_cases hp : s.pc = .deAuthClbk
      · exact .inl (hout hp)
      · refine .inr (Option.isSome_iff_ne_none.mpr fun hn => ?_)
        exact absurd ((settled_of_expire hq ht).symm.trans (h.timer hp hn)) (by decide)
  | _ => exact Iff.rfl

theorem always_noOrphanShell_iff (h : Owned s) (events : List ShellEvent) :
    Always (Steps shellDrainedStep) NoOrphanShellTimer s events ↔
      Meets (Steps shellDrainedStep) StartsForUser s events := by
  refine always_iff_meets (I := Owned) ?_ (fun _ hi => hi.timer) ?_ h events
  · intro s ev s' hi hc hs
    exact ⟨(noOrphan_shellStep hi hs).mpr hc, loggedOut_shellStep hi.loggedOut hs⟩
  · intro s ev s' hi hs hp
    exact (noOrphan_shellStep hi hs).mp hp

theorem owned_of_run {events done rest : List ShellEvent} {t : ShellState} (h : Owned s)
    (hall : Always (Steps shellDrainedStep) NoOrphanShellTimer s events)
    (he : events = done ++ rest) (hr : Run (Steps shellDrainedStep) s done t) : Owned t := by
  refine ⟨hall done rest t he hr, ?_⟩
  refine hr.invariant (I := fun s => s.pc = .deAuthClbk → s.session.currUser = none) ?_ h.loggedOut
  intro s ev s' hi hs
  exact loggedOut_shellStep hi hs

end ShellExpiryLemmas

/-- With the callbacks apart from their logins and logouts: along a run the timer never
outlives its session, and each expiry finds somebody to log out or a kept session, exactly
when every start of the timer finds its user and no session expires inside its logout. -/
theorem shell_expiry_finds_user_iff (currUser : Option Nat) (keepActive : Bool)
    (events : List ShellEvent) :
    ShellFiresForSession (ShellState.init currUser keepActive) events ↔
      Meets (Steps shellDrainedStep) StartsForUser (ShellState.init currUser keepActive) events ∧
        Meets (Steps shellDrainedStep) ExpiresOutsideLogout
          (ShellState.init currUser keepActive) events := by
  have hinit := owned_init currUser keepActive
  have hiff := always_noOrphanShell_iff hinit events
  constructor
  · rintro ⟨hall, hfinds⟩
    refine ⟨hiff.mp hall, fun done ev rest s s' he hr hs => ?_⟩
    exact (shellExpiryFindsUser_iff (owned_of_run hinit hall he hr) hs).mp
      (hfinds done ev rest s s' he hr hs)
  · rintro ⟨hstarts, hout⟩
    have hall := hiff.mpr hstarts
    refine ⟨hall, fun done ev rest s s' he hr hs => ?_⟩
    exact (shellExpiryFindsUser_iff (owned_of_run hinit hall he hr) hs).mpr
      (hout done ev rest s s' he hr hs)

/-- The timer expires after a logout has cleared the user and before its callback has sent
the stop. -/
theorem expiry_inside_logout : ¬ ShellFiresForSession (ShellState.init none false)
    [.login 7, .authClbk, .timerCommand, .logout, .timerExpire] :=
  fun h => absurd h.2 (by decide)

end BlackPill
