import BlackPill.Objects
import BlackPill.Runs
import BlackPill.ShellApi

/-!
# The life cycle of the Berry virtual machine

`berry_lang.c` keeps three global handles: the virtual machine, the message
buffer that feeds it, and the task that runs its read-eval-print loop. `berry -c`
creates the three objects, `berry -d` deletes them, and the task deletes them
itself when `be_repl` returns.

The outcomes of `be_vm_new`, `xMessageBufferCreate` and `xTaskCreate` are part
of the event. A new task outranks the shell task, so it runs before
`xTaskCreate` returns to the shell.

Results: what each function does to each handle and each pool, as simp lemmas,
and `berryStep_cases`, everything that one event can do.
-/

namespace BlackPill

open Objects Runs

/-! ## Definitions -/

/-- The two calls the task makes on the globals. -/
inductive ReplCall
  | beRepl
  | receive
deriving DecidableEq, Repr

/-- What a pointer leads to. -/
inductive Target
  | null
  | deleted
  | live
deriving DecidableEq, Repr

/-- A call of the task, with what the two globals led to at that moment. -/
structure ReplUse where
  task : Nat
  call : ReplCall
  vm : Target
  buff : Target
deriving DecidableEq, Repr

/-- The globals of `berry_lang.c`, the objects they may name, the tasks that
idle in the last loop of `vTask_BerryLangInteractiveProcess`, the calls the
tasks have made, and what the lines were sent to. -/
structure BerryState where
  berryVmInteractiveHandle : Option Nat
  berryMessageBuff : Option Nat
  berryProcessIteractiveHandle : Option Nat
  vms : Pool
  messageBuffs : Pool
  tasks : Pool
  idling : List Nat
  uses : List ReplUse
  sends : List Target
deriving DecidableEq, Repr

/-- What following a handle leads to. -/
def follow (p : Pool) : Option Nat → Target
  | none => .null
  | some id => if p.Live id then .live else .deleted

/-- `BerryLangInteractive_GetState`. -/
def berryLangInteractiveGetState (s : BerryState) : Bool :=
  s.berryVmInteractiveHandle.isSome && s.berryMessageBuff.isSome &&
    s.berryProcessIteractiveHandle.isSome

/-- `BerryLangInteractive_DeleteAll`. The first two handles are set to NULL
after the deletion, the third is not. -/
def berryLangInteractiveDeleteAll (s : BerryState) : BerryState :=
  { s with
    messageBuffs := s.messageBuffs.deleteIf s.berryMessageBuff
    berryMessageBuff := none
    vms := s.vms.deleteIf s.berryVmInteractiveHandle
    berryVmInteractiveHandle := none
    tasks := s.tasks.deleteIf s.berryProcessIteractiveHandle }

/-- A call of task `t` on the two globals. -/
def BerryState.use (s : BerryState) (t : Nat) (call : ReplCall) : BerryState :=
  { s with uses := s.uses ++
      [⟨t, call, follow s.vms s.berryVmInteractiveHandle,
        follow s.messageBuffs s.berryMessageBuff⟩] }

/-- What `be_repl` does next: call `BerryLangInteractive_GetLine`, or return. -/
inductive ReplMove
  | getLine
  | exit
deriving DecidableEq, Repr

/-- The rest of `vTask_BerryLangInteractiveProcess` after one move of `be_repl`:
`GetLine` blocks in `xMessageBufferReceive`; a return runs `DeleteAll`, and the
task goes on to its last loop unless it has just deleted itself. -/
def replMove (s : BerryState) (t : Nat) : ReplMove → BerryState
  | .getLine => s.use t .receive
  | .exit =>
    let s' := berryLangInteractiveDeleteAll s
    if s'.tasks.Live t then { s' with idling := s'.idling ++ [t] } else s'

/-- `vTask_BerryLangInteractiveProcess` from its start to where it first blocks. -/
def vTaskBerryLangInteractiveProcess (s : BerryState) (t : Nat) (m : ReplMove) : BerryState :=
  replMove (s.use t .beRepl) t m

/-- The outcomes of the three creations of one `berry -c`, and what the new
task does before it blocks. -/
structure CreateResults where
  beVmNew : Bool
  xMessageBufferCreate : Bool
  xTaskCreate : Bool
  repl : ReplMove
deriving DecidableEq, Repr

/-- The three creations of `berry -c` and the handles they store. A failing
`xTaskCreate` leaves its handle variable as it was. -/
def createObjects (s : BerryState) (e : CreateResults) : BerryState :=
  let vm := s.vms.create e.beVmNew
  let buff := s.messageBuffs.create e.xMessageBufferCreate
  let task := s.tasks.create e.xTaskCreate
  { s with
    berryVmInteractiveHandle := vm.1
    vms := vm.2
    berryMessageBuff := buff.1
    messageBuffs := buff.2
    berryProcessIteractiveHandle := task.1.or s.berryProcessIteractiveHandle
    tasks := task.2 }

/-- The same with the run of the new task, which starts inside `xTaskCreate`,
after the handle is stored. -/
def createAll (s : BerryState) (e : CreateResults) : BerryState :=
  let s' := createObjects s e
  if e.xTaskCreate then vTaskBerryLangInteractiveProcess s' s.tasks.created e.repl else s'

/-- The options of the `berry` command (`BERRY_OPT_t`). -/
inductive BerryOpt
  | help
  | vmCreate
  | vmState
  | interact
  | vmDelete
  | endOpt
deriving DecidableEq, Repr

/-- The `switch` of `ShellCmdBerry`. -/
def berryCase (s : BerryState) (e : CreateResults) : BerryOpt → BerryState × CaseEnd
  | .help => (s, .next)
  | .vmCreate =>
    if berryLangInteractiveGetState s then (s, .next)
    else
      let s' := createAll s e
      (s', if berryLangInteractiveGetState s' then .next else .ret .error)
  | .vmState => (s, .next)
  | .interact => (s, if berryLangInteractiveGetState s then .next else .ret .error)
  | .vmDelete => (berryLangInteractiveDeleteAll s, .next)
  -- unlike in the other handlers, the loop goes on
  | .endOpt => (s, .fail)

/-- `ShellCmdBerryInteractive`: the line goes to the message buffer if there is
one, else an error is printed. -/
def shellCmdBerryInteractive (s : BerryState) : BerryState :=
  match s.berryMessageBuff with
  | some _ => { s with sends := s.sends ++ [follow s.messageBuffs s.berryMessageBuff] }
  | none => s

/-- One event: a `berry` command with one option, an interactive line, or a move
of a task that is alive and still in `be_repl`. -/
inductive BerryEvent
  | command (opt : BerryOpt) (e : CreateResults)
  | line
  | repl (t : Nat) (m : ReplMove)
deriving DecidableEq, Repr

def berryStep (s : BerryState) : BerryEvent → Option BerryState
  | .command opt e => some (berryCase s e opt).1
  | .line => some (shellCmdBerryInteractive s)
  | .repl t m => if s.tasks.Live t ∧ t ∉ s.idling then some (replMove s t m) else none

/-- Reset: no handle, no object. -/
def BerryState.init : BerryState :=
  { berryVmInteractiveHandle := none, berryMessageBuff := none
    berryProcessIteractiveHandle := none
    vms := .empty, messageBuffs := .empty, tasks := .empty, idling := [], uses := [], sends := [] }

/-! ## What each function touches -/

section Frames

variable {s : BerryState} {t : Nat} {e : CreateResults}

@[simp] theorem deleteAll_tasks : (berryLangInteractiveDeleteAll s).tasks =
    s.tasks.deleteIf s.berryProcessIteractiveHandle := rfl
@[simp] theorem deleteAll_taskHandle :
    (berryLangInteractiveDeleteAll s).berryProcessIteractiveHandle =
      s.berryProcessIteractiveHandle := rfl

@[simp] theorem createObjects_vmHandle :
    (createObjects s e).berryVmInteractiveHandle = (s.vms.create e.beVmNew).1 := rfl
@[simp] theorem createObjects_buffHandle :
    (createObjects s e).berryMessageBuff = (s.messageBuffs.create e.xMessageBufferCreate).1 := rfl
@[simp] theorem createObjects_tasks :
    (createObjects s e).tasks = (s.tasks.create e.xTaskCreate).2 := rfl
@[simp] theorem createObjects_taskHandle : (createObjects s e).berryProcessIteractiveHandle =
    (s.tasks.create e.xTaskCreate).1.or s.berryProcessIteractiveHandle := rfl

/-- The end of a task's run: `DeleteAll`, and at most one more idling task. -/
theorem replMove_exit : ∃ idling,
    replMove s t .exit = { berryLangInteractiveDeleteAll s with idling := idling } := by
  simp only [replMove]
  split
  · exact ⟨_, rfl⟩
  · exact ⟨_, rfl⟩

/-- A task named by the handle deletes itself at the end. -/
theorem replMove_exit_of_handle (hh : s.berryProcessIteractiveHandle = some t) :
    replMove s t .exit = berryLangInteractiveDeleteAll s := by
  have hl : ¬ (berryLangInteractiveDeleteAll s).tasks.Live t := by
    rw [deleteAll_tasks, hh, Pool.deleteIf_some]
    exact Pool.not_live_delete_self
  exact if_neg hl

theorem createAll_of_task (ht : e.xTaskCreate = true) :
    createAll s e = vTaskBerryLangInteractiveProcess (createObjects s e) s.tasks.created e.repl :=
  if_pos ht

theorem createAll_of_no_task (ht : e.xTaskCreate = false) :
    createAll s e = createObjects s e := by
  simp only [createAll, ht]
  rfl

/-- A create that is not refused either leaves the new objects in place, or the
new task has already run `DeleteAll` on them. -/
theorem createAll_cases :
    (∃ uses, createAll s e = { createObjects s e with uses := uses }) ∨
    (e.xTaskCreate = true ∧ e.repl = .exit ∧ ∃ uses idling,
      createAll s e = { berryLangInteractiveDeleteAll (createObjects s e) with
        uses := uses, idling := idling }) := by
  cases ht : e.xTaskCreate with
  | false => exact .inl ⟨s.uses, createAll_of_no_task ht⟩
  | true =>
    rw [createAll_of_task ht, vTaskBerryLangInteractiveProcess]
    cases hm : e.repl with
    | getLine => exact .inl ⟨_, rfl⟩
    | exit =>
      obtain ⟨idling, hi⟩ := replMove_exit (s := (createObjects s e).use s.tasks.created .beRepl)
        (t := s.tasks.created)
      exact .inr ⟨rfl, rfl, _, idling, hi⟩

end Frames

/-- The events that leave the handles and the pools alone. -/
def Harmless (s : BerryState) : BerryEvent → Prop
  | .command .vmCreate _ => berryLangInteractiveGetState s = true
  | .command .vmDelete _ => False
  | .command _ _ => True
  | .line => True
  | .repl _ _ => False

/-- Everything one event can do. -/
theorem berryStep_cases {s s' : BerryState} {ev : BerryEvent} (h : berryStep s ev = some s') :
    (Harmless s ev ∧ ∃ sends, s' = { s with sends := sends }) ∨
    (∃ e, ev = .command .vmCreate e ∧ berryLangInteractiveGetState s = false ∧
      s' = createAll s e) ∨
    (∃ e, ev = .command .vmDelete e ∧ s' = berryLangInteractiveDeleteAll s) ∨
    (∃ t m, ev = .repl t m ∧ s.tasks.Live t ∧ t ∉ s.idling ∧ s' = replMove s t m) := by
  cases ev with
  | command opt e =>
    obtain rfl := Option.some.inj h
    cases opt with
    | vmCreate =>
      simp only [berryCase]
      cases hg : berryLangInteractiveGetState s with
      | true => exact .inl ⟨hg, s.sends, rfl⟩
      | false => exact .inr (.inl ⟨e, rfl, rfl, rfl⟩)
    | vmDelete => exact .inr (.inr (.inl ⟨e, rfl, rfl⟩))
    | help | vmState | interact | endOpt => exact .inl ⟨trivial, s.sends, rfl⟩
  | line =>
    obtain rfl := Option.some.inj h
    refine .inl ⟨trivial, ?_⟩
    simp only [shellCmdBerryInteractive]
    split
    · exact ⟨_, rfl⟩
    · exact ⟨s.sends, rfl⟩
  | repl t m =>
    simp only [berryStep] at h
    split at h
    · next ht =>
      obtain rfl := Option.some.inj h
      exact .inr (.inr (.inr ⟨t, m, rfl, ht.1, ht.2, rfl⟩))
    · cases h

end BlackPill
