import BlackPill.BerryLang

/-!
# Dangling handles, dead resources and leaks of the Berry life cycle

Three properties are asked of every run of `berry` commands, interactive lines
and ends of the task.

Results:
1. `vm_and_buffer_never_dangle`: the virtual machine and message buffer handles
   are sound in every run.
2. `berry_handles_live_iff`: the task handle is not; the runs without a dangling
   handle are exactly those in which `DeleteAll` finds it NULL.
   `delete_leaves_task_handle`: one create and one delete are enough.
3. `repl_uses_live_iff`: the task works on live objects exactly when no task is
   created beside a missing virtual machine or message buffer.
4. `berry_no_leak_iff`: nothing is leaked exactly when no create overwrites the
   handle of a live object.
-/

namespace BlackPill

open Objects Objects.Pool Runs

/-! ## Properties of the handles and the pools -/

/-- `P` speaks of the handles and the pools only, and the creations and
deletions keep it: a creation where `C` allows the `berry -c`, a `DeleteAll`
where `D` allows it. `C` allows a `DeleteAll` only where `D` does. -/
structure Keeps (P : BerryState → Prop) (C : BerryState → BerryEvent → Prop)
    (D : BerryState → Prop) : Prop where
  logs : ∀ s uses idling sends, P s → P { s with uses := uses, idling := idling, sends := sends }
  create : ∀ s e, P s → C s (.command .vmCreate e) → berryLangInteractiveGetState s = false →
    P (createObjects s e)
  delete : ∀ s, P s → D s → P (berryLangInteractiveDeleteAll s)
  vmDelete : ∀ s e, C s (.command .vmDelete e) → D s
  exit : ∀ s t, C s (.repl t .exit) → D s
  create_exit : ∀ s e, C s (.command .vmCreate e) → berryLangInteractiveGetState s = false →
    e.xTaskCreate = true → e.repl = .exit → D (createObjects s e)

/-- Such a property survives every event that `C` allows. -/
theorem Keeps.step {P : BerryState → Prop} {C : BerryState → BerryEvent → Prop}
    {D : BerryState → Prop} (k : Keeps P C D) {s s' : BerryState} {ev : BerryEvent} (hP : P s)
    (hC : C s ev) (hs : berryStep s ev = some s') : P s' := by
  rcases berryStep_cases hs with ⟨_, sends, rfl⟩ | ⟨e, rfl, hg, rfl⟩ | ⟨e, rfl, rfl⟩ |
    ⟨t, m, rfl, _, _, rfl⟩
  · exact k.logs s s.uses s.idling sends hP
  · have hc := k.create s e hP hC hg
    rcases createAll_cases (s := s) (e := e) with ⟨uses, he⟩ | ⟨ht, hm, uses, idling, he⟩
    · rw [he]
      exact k.logs _ uses s.idling s.sends hc
    · rw [he]
      exact k.logs _ uses idling s.sends (k.delete _ hc (k.create_exit s e hC hg ht hm))
  · exact k.delete s hP (k.vmDelete s e hC)
  · cases m with
    | getLine => exact k.logs s _ s.idling s.sends hP
    | exit =>
      obtain ⟨idling, he⟩ := replMove_exit (s := s) (t := t)
      rw [he]
      exact k.logs _ s.uses idling s.sends (k.delete s hP (k.exit s t hC))

/-! ## 1. What holds in every run -/

/-- The two handles that `DeleteAll` sets to NULL are empty or name live objects,
their objects are deleted at most once, and every task named by its handle or by
a deletion has been created. -/
structure BerrySound (s : BerryState) : Prop where
  vm : s.vms.Names s.berryVmInteractiveHandle
  buff : s.messageBuffs.Names s.berryMessageBuff
  vm_once : s.vms.Sound
  buff_once : s.messageBuffs.Sound
  task_handle : ∀ t, s.berryProcessIteractiveHandle = some t → t < s.tasks.created
  task_deletes : ∀ t ∈ s.tasks.deletes, t < s.tasks.created

namespace BerryLifecycleLemmas

variable {s s' : BerryState} {e : CreateResults} {ev : BerryEvent}

theorem sound_createObjects (h : BerrySound s) : BerrySound (createObjects s e) where
  vm := names_create_result h.vm_once.after_create
  buff := names_create_result h.buff_once.after_create
  vm_once := sound_create h.vm_once
  buff_once := sound_create h.buff_once
  task_handle := by
    cases ht : e.xTaskCreate with
    | false => simpa [ht] using h.task_handle
    | true =>
      simp only [createObjects_taskHandle, createObjects_tasks, ht, create_true, Option.some_or,
        Option.some.injEq]
      rintro t rfl
      exact Nat.lt_succ_self _
  task_deletes := by
    cases ht : e.xTaskCreate with
    | false => simpa [ht] using h.task_deletes
    | true =>
      simp only [createObjects_tasks, ht, create_true]
      exact fun t hm => Nat.lt_succ_of_lt (h.task_deletes t hm)

theorem sound_deleteAll (h : BerrySound s) : BerrySound (berryLangInteractiveDeleteAll s) where
  vm := names_none
  buff := names_none
  vm_once := sound_deleteIf h.vm_once h.vm
  buff_once := sound_deleteIf h.buff_once h.buff
  task_handle := by
    intro t ht
    simp only [deleteAll_taskHandle] at ht
    simpa [ht, Pool.delete] using h.task_handle t ht
  task_deletes := by
    cases hh : s.berryProcessIteractiveHandle with
    | none => simpa [hh] using h.task_deletes
    | some x =>
      simp only [deleteAll_tasks, hh, deleteIf_some, Pool.delete, List.mem_append,
        List.mem_singleton]
      rintro t (hm | rfl)
      · exact h.task_deletes t hm
      · exact h.task_handle t hh

theorem sound_keeps : Keeps BerrySound (fun _ _ => True) (fun _ => True) where
  logs _ _ _ _ h := ⟨h.vm, h.buff, h.vm_once, h.buff_once, h.task_handle, h.task_deletes⟩
  create _ _ h _ _ := sound_createObjects h
  delete _ h _ := sound_deleteAll h
  vmDelete _ _ _ := trivial
  exit _ _ _ := trivial
  create_exit _ _ _ _ _ _ := trivial

theorem sound_step (h : BerrySound s) (hs : berryStep s ev = some s') : BerrySound s' :=
  sound_keeps.step h trivial hs

theorem sound_init : BerrySound BerryState.init :=
  ⟨names_none, names_none, sound_empty, sound_empty, by simp [BerryState.init],
    by simp [BerryState.init, Pool.empty]⟩

end BerryLifecycleLemmas

open BerryLifecycleLemmas

/-- In every run the virtual machine and the message buffer handles never
dangle, and neither object is deleted twice. -/
theorem vm_and_buffer_never_dangle (events : List BerryEvent) :
    Always (Steps berryStep) BerrySound BerryState.init events := by
  intro done rest s _ hr
  exact hr.invariant (fun _ _ _ h hs => sound_step h hs) sound_init

/-! ## 2. The task handle -/

/-- No handle dangles, no object is deleted twice or before it exists, and
`GetState` says true only when all three objects are there. -/
structure NoDangling (s : BerryState) : Prop where
  vm : ∀ v, s.berryVmInteractiveHandle = some v → s.vms.Live v
  buff : ∀ b, s.berryMessageBuff = some b → s.messageBuffs.Live b
  task : ∀ t, s.berryProcessIteractiveHandle = some t → s.tasks.Live t
  vm_once : s.vms.Sound
  buff_once : s.messageBuffs.Sound
  task_once : s.tasks.Sound
  state_true : berryLangInteractiveGetState s = true → ∃ v b t,
    s.berryVmInteractiveHandle = some v ∧ s.vms.Live v ∧
    s.berryMessageBuff = some b ∧ s.messageBuffs.Live b ∧
    s.berryProcessIteractiveHandle = some t ∧ s.tasks.Live t

/-- Where `DeleteAll` may run: the task handle is NULL, so its last branch, which
deletes the task and leaves the handle, is not taken. -/
def TaskHandleNull (s : BerryState) : Prop := s.berryProcessIteractiveHandle = none

/-- The event runs no `DeleteAll` on a task handle: a `berry -d` or the end of a
task finds it NULL, and a task just created does not end at once. -/
def DeletesNoTask (s : BerryState) : BerryEvent → Prop
  | .command .vmCreate e =>
    berryLangInteractiveGetState s = false → e.xTaskCreate = true → e.repl ≠ .exit
  | .command .vmDelete _ => TaskHandleNull s
  | .repl _ .exit => TaskHandleNull s
  | _ => True

namespace BerryLifecycleLemmas

variable {s s' : BerryState} {e : CreateResults} {ev : BerryEvent}

/-- The three handles and pools decide `NoDangling`. -/
theorem noDangling_of_names (hv : s.vms.Names s.berryVmInteractiveHandle)
    (hb : s.messageBuffs.Names s.berryMessageBuff)
    (ht : s.tasks.Names s.berryProcessIteractiveHandle) (hvs : s.vms.Sound)
    (hbs : s.messageBuffs.Sound) (hts : s.tasks.Sound) : NoDangling s := by
  refine ⟨hv, hb, ht, hvs, hbs, hts, fun hg => ?_⟩
  simp only [berryLangInteractiveGetState, Bool.and_eq_true, Option.isSome_iff_exists] at hg
  obtain ⟨⟨⟨v, hve⟩, ⟨b, hbe⟩⟩, ⟨t, hte⟩⟩ := hg
  exact ⟨v, b, t, hve, hv v hve, hbe, hb b hbe, hte, ht t hte⟩

theorem noDangling_createObjects (h : NoDangling s) : NoDangling (createObjects s e) := by
  refine noDangling_of_names (names_create_result h.vm_once.after_create)
    (names_create_result h.buff_once.after_create) ?_ (sound_create h.vm_once)
    (sound_create h.buff_once) (sound_create h.task_once)
  cases ht : e.xTaskCreate with
  | false => simpa [ht] using (show s.tasks.Names _ from h.task)
  | true =>
    have hn : (s.tasks.create true).2.Names (s.tasks.create true).1 :=
      names_create_result h.task_once.after_create
    simpa [ht] using hn

theorem noDangling_deleteAll (h : NoDangling s) (hn : TaskHandleNull s) :
    NoDangling (berryLangInteractiveDeleteAll s) := by
  refine noDangling_of_names names_none names_none ?_ (sound_deleteIf h.vm_once h.vm)
    (sound_deleteIf h.buff_once h.buff) (sound_deleteIf h.task_once h.task)
  rw [deleteAll_taskHandle, hn]
  exact names_none

theorem noDangling_keeps : Keeps NoDangling DeletesNoTask TaskHandleNull where
  logs _ _ _ _ h := noDangling_of_names h.vm h.buff h.task h.vm_once h.buff_once h.task_once
  create _ _ h _ _ := noDangling_createObjects h
  delete _ h hn := noDangling_deleteAll h hn
  vmDelete _ _ h := h
  exit _ _ h := h
  create_exit _ _ h hg ht hm := absurd hm (h hg ht)

theorem noDangling_init : NoDangling BerryState.init :=
  noDangling_of_names names_none names_none names_none sound_empty sound_empty sound_empty

/-- `DeleteAll` on a task handle leaves it dangling. -/
theorem deleteAll_dangles (h : NoDangling s')
    (hh : s'.berryProcessIteractiveHandle = s.berryProcessIteractiveHandle)
    (ht : s'.tasks = s.tasks.deleteIf s.berryProcessIteractiveHandle) : TaskHandleNull s := by
  cases hs : s.berryProcessIteractiveHandle with
  | none => exact hs
  | some t =>
    rw [hs] at hh ht
    rw [deleteIf_some] at ht
    exact absurd (h.task t hh) (ht ▸ not_live_delete_self)

theorem deletesNoTask_of_noDangling (hs : berryStep s ev = some s') (h : NoDangling s') :
    DeletesNoTask s ev := by
  rcases berryStep_cases hs with ⟨hf, _, rfl⟩ | ⟨e, rfl, hg, rfl⟩ | ⟨e, rfl, rfl⟩ |
    ⟨t, m, rfl, _, _, rfl⟩
  · cases ev with
    | command opt e =>
      cases opt with
      | vmCreate => exact fun hg => absurd (hg.symm.trans hf) (by decide)
      | vmDelete => exact absurd hf id
      | _ => trivial
    | line => trivial
    | repl t m => exact absurd hf id
  · intro _ ht hm
    rw [createAll_of_task ht, vTaskBerryLangInteractiveProcess, hm] at h
    obtain ⟨idling, hi⟩ := replMove_exit (s := (createObjects s e).use s.tasks.created .beRepl)
      (t := s.tasks.created)
    rw [hi] at h
    have hn := deleteAll_dangles (s := createObjects s e) h rfl rfl
    simp [TaskHandleNull, ht] at hn
  · exact deleteAll_dangles h rfl rfl
  · cases m with
    | getLine => trivial
    | exit =>
      obtain ⟨idling, he⟩ := replMove_exit (s := s) (t := t)
      rw [he] at h
      exact deleteAll_dangles (s := s) h rfl rfl

end BerryLifecycleLemmas

/-- A run is free of dangling handles in every state exactly when none of its
events runs `DeleteAll` with a task handle in place. -/
theorem berry_handles_live_iff (events : List BerryEvent) :
    Always (Steps berryStep) NoDangling BerryState.init events ↔
      Meets (Steps berryStep) DeletesNoTask BerryState.init events :=
  always_iff_meets (I := NoDangling) (fun _ _ _ h hc hs => noDangling_keeps.step h hc hs)
    (fun _ h => h) (fun _ _ _ _ hs h => deletesNoTask_of_noDangling hs h) noDangling_init events

/-- A `berry -c` in which everything succeeds, and the task waits for a line. -/
def createOk : BerryEvent := .command .vmCreate ⟨true, true, true, .getLine⟩

/-- A `berry -d`. -/
def deleteCommand : BerryEvent := .command .vmDelete ⟨true, true, true, .getLine⟩

/-- After `berry -c` and `berry -d` the task handle names a deleted task. -/
theorem delete_leaves_task_handle :
    ¬ Always (Steps berryStep) NoDangling BerryState.init [createOk, deleteCommand] := by
  refine not_always_of_exec rfl fun h => ?_
  exact absurd (h.task 0 rfl) (by decide)

/-! ## 3. The resources of the task -/

/-- Every call the tasks have made found both globals leading to live objects. -/
def UsesLive (s : BerryState) : Prop := ∀ u ∈ s.uses, u.vm = .live ∧ u.buff = .live

/-- A `berry -c` that starts a task has also got a virtual machine and a message
buffer. -/
def CreatesComplete (s : BerryState) : BerryEvent → Prop
  | .command .vmCreate e => berryLangInteractiveGetState s = false → e.xTaskCreate = true →
      e.beVmNew = true ∧ e.xMessageBufferCreate = true
  | _ => True

/-- What carries `UsesLive` along a run: a task that may still make calls is the
one named by its handle, and the other two handles are set. -/
structure ReplReady (s : BerryState) : Prop where
  sound : BerrySound s
  uses : UsesLive s
  idling_created : ∀ t ∈ s.idling, t < s.tasks.created
  ready : ∀ t, s.tasks.Live t → t ∉ s.idling → s.berryProcessIteractiveHandle = some t ∧
    s.berryVmInteractiveHandle.isSome ∧ s.berryMessageBuff.isSome

namespace BerryLifecycleLemmas

variable {s s' : BerryState} {e : CreateResults} {ev : BerryEvent} {t : Nat}

theorem follow_of_names {p : Pool} {h : Option Nat} (hn : p.Names h) (hs : h.isSome) :
    follow p h = .live := by
  obtain ⟨id, rfl⟩ := Option.isSome_iff_exists.mp hs
  exact if_pos (hn id rfl)

theorem create_isSome_of_follow {p : Pool} {ok : Bool}
    (h : follow (p.create ok).2 (p.create ok).1 = .live) : ok = true := by
  cases ok with
  | true => rfl
  | false => cases h

theorem usesLive_use (hs : BerrySound s) (hu : UsesLive s)
    (hv : s.berryVmInteractiveHandle.isSome) (hb : s.berryMessageBuff.isSome) (t : Nat)
    (call : ReplCall) : UsesLive (s.use t call) := by
  intro u hm
  rcases List.mem_append.mp hm with hm | hm
  · exact hu u hm
  · rw [List.mem_singleton.mp hm]
    exact ⟨follow_of_names hs.vm hv, follow_of_names hs.buff hb⟩

theorem ready_use (h : ReplReady s) (hv : s.berryVmInteractiveHandle.isSome)
    (hb : s.berryMessageBuff.isSome) (t : Nat) (call : ReplCall) : ReplReady (s.use t call) where
  sound := sound_keeps.logs s _ s.idling s.sends h.sound
  uses := usesLive_use h.sound h.uses hv hb t call
  idling_created := h.idling_created
  ready := h.ready

theorem ready_deleteAll (h : ReplReady s) : ReplReady (berryLangInteractiveDeleteAll s) where
  sound := sound_deleteAll h.sound
  uses := h.uses
  idling_created := by
    intro t ht
    have hlt := h.idling_created t ht
    cases hh : s.berryProcessIteractiveHandle with
    | none => simpa [hh] using hlt
    | some x => simpa [hh, Pool.delete] using hlt
  ready := by
    intro t hl hi
    cases hh : s.berryProcessIteractiveHandle with
    | none =>
      rw [deleteAll_tasks, hh, deleteIf_none] at hl
      exact absurd (hh.symm.trans (h.ready t hl hi).1) (by simp)
    | some x =>
      rw [deleteAll_tasks, hh, deleteIf_some] at hl
      obtain ⟨hl, hne⟩ := live_delete.mp hl
      exact absurd (Option.some.inj (hh.symm.trans (h.ready t hl hi).1)).symm hne

theorem ready_replMove (h : ReplReady s) (hl : s.tasks.Live t) (hi : t ∉ s.idling)
    (m : ReplMove) : ReplReady (replMove s t m) := by
  obtain ⟨hh, hv, hb⟩ := h.ready t hl hi
  cases m with
  | getLine => exact ready_use h hv hb t .receive
  | exit =>
    rw [replMove_exit_of_handle hh]
    exact ready_deleteAll h

/-- When the state is not ready, no task is left that may still make calls. -/
theorem idling_of_getState (h : ReplReady s) (hg : berryLangInteractiveGetState s = false)
    (hl : s.tasks.Live t) : t ∈ s.idling := by
  by_cases hi : t ∈ s.idling
  · exact hi
  · obtain ⟨hh, hv, hb⟩ := h.ready t hl hi
    simp [berryLangInteractiveGetState, hh, hv, hb] at hg

theorem ready_createObjects (h : ReplReady s) (hg : berryLangInteractiveGetState s = false)
    (hc : e.xTaskCreate = true → e.beVmNew = true ∧ e.xMessageBufferCreate = true) :
    ReplReady (createObjects s e) where
  sound := sound_createObjects h.sound
  uses := h.uses
  idling_created := by
    intro t ht
    have hlt := h.idling_created t ht
    cases hk : e.xTaskCreate with
    | false => simpa [hk] using hlt
    | true => simpa [hk] using Nat.lt_succ_of_lt hlt
  ready := by
    intro t hl hi
    rcases live_create hl with hl | hr
    · exact absurd (idling_of_getState h hg hl) hi
    · cases hk : e.xTaskCreate with
      | false => simp [hk] at hr
      | true =>
        obtain ⟨hv, hb⟩ := hc hk
        simp only [hk, create_true, Option.some.injEq] at hr
        simp [hk, hv, hb, hr]

theorem ready_createAll (h : ReplReady s) (hg : berryLangInteractiveGetState s = false)
    (hc : e.xTaskCreate = true → e.beVmNew = true ∧ e.xMessageBufferCreate = true) :
    ReplReady (createAll s e) := by
  have ho := ready_createObjects h hg hc
  cases hk : e.xTaskCreate with
  | false =>
    rw [createAll_of_no_task hk]
    exact ho
  | true =>
    obtain ⟨hv, hb⟩ := hc hk
    have hl : (createObjects s e).tasks.Live s.tasks.created := by
      rw [createObjects_tasks, hk]
      exact names_create_result h.sound.task_deletes _ rfl
    have hi : s.tasks.created ∉ (createObjects s e).idling := fun hm =>
      Nat.lt_irrefl _ (h.idling_created _ hm)
    rw [createAll_of_task hk, vTaskBerryLangInteractiveProcess]
    exact ready_replMove (ready_use ho (by simp [hv]) (by simp [hb]) _ .beRepl) hl hi e.repl

theorem ready_step (h : ReplReady s) (hc : CreatesComplete s ev)
    (hs : berryStep s ev = some s') : ReplReady s' := by
  rcases berryStep_cases hs with ⟨_, sends, rfl⟩ | ⟨e, rfl, hg, rfl⟩ | ⟨e, rfl, rfl⟩ |
    ⟨t, m, rfl, hl, hi, rfl⟩
  · exact ⟨sound_keeps.logs s s.uses s.idling sends h.sound, h.uses, h.idling_created, h.ready⟩
  · exact ready_createAll h hg (hc hg)
  · exact ready_deleteAll h
  · exact ready_replMove h hl hi m

theorem ready_init : ReplReady BerryState.init where
  sound := sound_init
  uses := by simp [UsesLive, BerryState.init]
  idling_created := by simp [BerryState.init]
  ready := fun _ hl => absurd hl.1 (Nat.not_lt_zero _)

theorem uses_replMove (m : ReplMove) {u : ReplUse} (hu : u ∈ s.uses) :
    u ∈ (replMove s t m).uses := by
  cases m with
  | getLine => exact List.mem_append_left _ hu
  | exit =>
    obtain ⟨idling, he⟩ := replMove_exit (s := s) (t := t)
    rw [he]
    exact hu

/-- The first call of a new task shows what `berry -c` gave it. -/
theorem createsComplete_of_usesLive (hs : berryStep s ev = some s') (h : UsesLive s') :
    CreatesComplete s ev := by
  rcases berryStep_cases hs with ⟨hf, _, rfl⟩ | ⟨e, rfl, hg, rfl⟩ | ⟨e, rfl, rfl⟩ |
    ⟨t, m, rfl, _, _, rfl⟩
  · cases ev with
    | command opt e =>
      cases opt with
      | vmCreate => exact fun hg => absurd (hg.symm.trans hf) (by decide)
      | _ => trivial
    | _ => trivial
  · intro _ ht
    rw [createAll_of_task ht, vTaskBerryLangInteractiveProcess] at h
    have hu := h _ (uses_replMove e.repl (List.mem_append_right _ (List.mem_singleton_self _)))
    exact ⟨create_isSome_of_follow hu.1, create_isSome_of_follow hu.2⟩
  · trivial
  · trivial

end BerryLifecycleLemmas

/-- Every call the tasks make in a run is on live objects exactly when each
`berry -c` that starts a task has got the two other objects as well. -/
theorem repl_uses_live_iff (events : List BerryEvent) :
    Always (Steps berryStep) UsesLive BerryState.init events ↔
      Meets (Steps berryStep) CreatesComplete BerryState.init events :=
  always_iff_meets (I := ReplReady) (fun _ _ _ h hc hs => ready_step h hc hs)
    (fun _ h => h.uses) (fun _ _ _ _ hs h => createsComplete_of_usesLive hs h) ready_init events

/-- A `berry -c` in which `be_vm_new` fails and the task is created all the same:
the task calls `be_repl` on NULL. -/
theorem task_runs_without_vm : ¬ Always (Steps berryStep) UsesLive BerryState.init
    [.command .vmCreate ⟨false, true, true, .getLine⟩] := by
  refine not_always_of_exec rfl fun h => ?_
  have hu := (h ⟨0, .beRepl, .null, .live⟩ (by decide)).1
  cases hu

/-! ## 4. Leaks -/

/-- Every live object is the one its handle names, so at most one of each kind is
alive, and a `berry -d` would leave none. -/
structure NoLeak (s : BerryState) : Prop where
  vm : s.vms.Owns s.berryVmInteractiveHandle
  buff : s.messageBuffs.Owns s.berryMessageBuff
  task : s.tasks.Owns s.berryProcessIteractiveHandle
  one_vm : ∀ v w, s.vms.Live v → s.vms.Live w → v = w
  one_buff : ∀ b c, s.messageBuffs.Live b → s.messageBuffs.Live c → b = c
  one_task : ∀ t u, s.tasks.Live t → s.tasks.Live u → t = u
  delete_leaves_none : ∀ id, ¬ (berryLangInteractiveDeleteAll s).vms.Live id ∧
    ¬ (berryLangInteractiveDeleteAll s).messageBuffs.Live id ∧
    ¬ (berryLangInteractiveDeleteAll s).tasks.Live id

/-- A `berry -c` that is not refused stores no handle over that of a live object:
the first two handles are NULL, and if `xTaskCreate` succeeds then the task its
handle names no longer exists. -/
def OverwritesNothing (s : BerryState) : BerryEvent → Prop
  | .command .vmCreate e => berryLangInteractiveGetState s = false →
      s.berryVmInteractiveHandle = none ∧ s.berryMessageBuff = none ∧
      (e.xTaskCreate = true → ∀ t, s.berryProcessIteractiveHandle = some t → ¬ s.tasks.Live t)
  | _ => True

namespace BerryLifecycleLemmas

variable {s s' : BerryState} {e : CreateResults} {ev : BerryEvent}

theorem noLeak_of_owns (hv : s.vms.Owns s.berryVmInteractiveHandle)
    (hb : s.messageBuffs.Owns s.berryMessageBuff)
    (ht : s.tasks.Owns s.berryProcessIteractiveHandle) : NoLeak s where
  vm := hv
  buff := hb
  task := ht
  one_vm _ _ h h' := hv.eq h h'
  one_buff _ _ h h' := hb.eq h h'
  one_task _ _ h h' := ht.eq h h'
  delete_leaves_none _ := ⟨not_live_deleteIf hv, not_live_deleteIf hb, not_live_deleteIf ht⟩

theorem noLeak_createObjects (h : NoLeak s) (hv : s.berryVmInteractiveHandle = none)
    (hb : s.berryMessageBuff = none) (ht : e.xTaskCreate = true →
      ∀ t, s.berryProcessIteractiveHandle = some t → ¬ s.tasks.Live t) :
    NoLeak (createObjects s e) := by
  refine noLeak_of_owns (owns_create fun v hl => ?_) (owns_create fun b hl => ?_) ?_
  · exact absurd (hv.symm.trans (h.vm v hl)) (by simp)
  · exact absurd (hb.symm.trans (h.buff b hl)) (by simp)
  · cases hk : e.xTaskCreate with
    | false => simpa [hk] using h.task
    | true =>
      have hnone : ∀ t, ¬ s.tasks.Live t := fun t hl => ht hk t (h.task t hl) hl
      have ho : (s.tasks.create true).2.Owns (s.tasks.create true).1 := owns_create hnone
      simpa [hk] using ho

theorem noLeak_keeps : Keeps NoLeak OverwritesNothing (fun _ => True) where
  logs _ _ _ _ h := noLeak_of_owns h.vm h.buff h.task
  create _ _ h hc hg := noLeak_createObjects h (hc hg).1 (hc hg).2.1 (hc hg).2.2
  delete _ h _ := noLeak_of_owns (owns_deleteIf h.vm) (owns_deleteIf h.buff) (owns_deleteIf h.task)
  vmDelete _ _ _ := trivial
  exit _ _ _ := trivial
  create_exit _ _ _ _ _ _ := trivial

theorem noLeak_init : NoLeak BerryState.init := noLeak_of_owns owns_empty owns_empty owns_empty

theorem overwritesNothing_of_noLeak (hi : BerrySound s) (hs : berryStep s ev = some s')
    (h : NoLeak s') : OverwritesNothing s ev := by
  rcases berryStep_cases hs with ⟨hf, _, rfl⟩ | ⟨e, rfl, hg, rfl⟩ | ⟨e, rfl, rfl⟩ |
    ⟨t, m, rfl, _, _, rfl⟩
  · cases ev with
    | command opt e =>
      cases opt with
      | vmCreate => exact fun hg => absurd (hg.symm.trans hf) (by decide)
      | _ => trivial
    | _ => trivial
  · intro _
    rcases createAll_cases (s := s) (e := e) with ⟨uses, he⟩ | ⟨_, _, uses, idling, he⟩
    · rw [he] at h
      refine ⟨?_, ?_, fun hk t _ hl => ?_⟩
      · exact Option.eq_none_iff_forall_ne_some.mpr fun v hv => not_owns_create (hi.vm v hv) h.vm
      · exact Option.eq_none_iff_forall_ne_some.mpr fun b hb =>
          not_owns_create (hi.buff b hb) h.buff
      · refine not_owns_create hl (?_ : (s.tasks.create e.xTaskCreate).2.Owns _)
        simpa [hk] using h.task
    · -- the task has already run `DeleteAll`, which spares what the old handles named
      rw [he] at h
      refine ⟨?_, ?_, fun hk t _ hl => ?_⟩
      · exact Option.eq_none_iff_forall_ne_some.mpr fun v hv =>
          not_owns_create_delete (hi.vm v hv) (.inl rfl) h.vm
      · exact Option.eq_none_iff_forall_ne_some.mpr fun b hb =>
          not_owns_create_delete (hi.buff b hb) (.inl rfl) h.buff
      · refine not_owns_create_delete hl (.inr rfl)
          (?_ : ((s.tasks.create e.xTaskCreate).2.deleteIf _).Owns _)
        simpa [hk] using h.task
  · trivial
  · trivial

end BerryLifecycleLemmas

/-- A run leaks no virtual machine, message buffer or task in any state exactly
when no `berry -c` in it overwrites the handle of a live one. -/
theorem berry_no_leak_iff (events : List BerryEvent) :
    Always (Steps berryStep) NoLeak BerryState.init events ↔
      Meets (Steps berryStep) OverwritesNothing BerryState.init events := by
  refine always_iff_meets (I := fun s => BerrySound s ∧ NoLeak s) ?_ (fun _ h => h.2) ?_
    ⟨sound_init, noLeak_init⟩ events
  · intro s ev s' h hc hs
    exact ⟨sound_step h.1 hs, noLeak_keeps.step h.2 hc hs⟩
  · intro s ev s' h hs hP
    exact overwritesNothing_of_noLeak h.1 hs hP

/-- Two creates without a task between them: the second overwrites the handles
of the first virtual machine and message buffer. -/
theorem second_create_leaks : ¬ Always (Steps berryStep) NoLeak BerryState.init
    [.command .vmCreate ⟨true, true, false, .getLine⟩,
      .command .vmCreate ⟨true, true, false, .getLine⟩] := by
  refine not_always_of_exec rfl fun h => ?_
  exact absurd (h.one_vm 0 1 (by decide) (by decide)) (by decide)

end BlackPill
