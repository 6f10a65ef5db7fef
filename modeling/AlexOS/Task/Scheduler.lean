import AlexOS.Lib.Run
import Mathlib.Algebra.GroupWithZero.Nat
import Mathlib.Logic.Function.Basic

/-!
# The scheduler on one hart

`kernel/src/task/scheduler.rs`. A step is one section that runs with interrupts
masked: a critical section of a spin lock, the switch to the idle context, one
leg of the idle loop. Between two steps of a task, or of boot code, or while
the idle loop waits, an interrupt may be taken; its handler runs masked, so
nobody else steps until it returns. `wake` is two critical sections, so a task
that calls it can be preempted between them.
-/

namespace AlexOS

inductive TaskState where
  | ready
  | running
  | blocked
  | zombie
deriving DecidableEq, Repr

def priorityLevels : Nat := 3

def quantaPerLevel : Nat := 4

structure TaskInner where
  state : TaskState
  level : Nat
  ticks : Nat
  needsResched : Bool
  wakeupPending : Bool
deriving DecidableEq, Repr

namespace TaskInner

/-- The scheduling fields of a task as every constructor sets them. -/
def new : TaskInner := ⟨.ready, 0, 0, false, false⟩

/-- `wake` of a blocked task. -/
@[simps]
def woken (i : TaskInner) : TaskInner :=
  { i with state := .ready, level := i.level - 1, ticks := 0 }

/-- `wake` of any other. -/
@[simps]
def noted (i : TaskInner) : TaskInner := { i with wakeupPending := true }

/-- What `run` sets in the task it picks. -/
@[simps]
def started (i : TaskInner) : TaskInner := { i with state := .running, needsResched := false }

/-- `on_timer_tick` of the running task. -/
def tick (i : TaskInner) : TaskInner :=
  if quantaPerLevel ≤ i.ticks + 1 then
    { i with level := min (i.level + 1) (priorityLevels - 1), ticks := 0, needsResched := true }
  else { i with ticks := i.ticks + 1, needsResched := true }

theorem tick_state (i : TaskInner) : i.tick.state = i.state := by
  unfold tick
  split <;> rfl

theorem tick_pending (i : TaskInner) : i.tick.wakeupPending = i.wakeupPending := by
  unfold tick
  split <;> rfl

theorem tick_level {i : TaskInner} (h : i.level < priorityLevels) :
    i.tick.level < priorityLevels := by
  unfold tick
  split
  · exact Nat.lt_of_le_of_lt (Nat.min_le_right _ _) (by decide)
  · exact h

theorem tick_ticks (i : TaskInner) : i.tick.ticks < quantaPerLevel := by
  unfold tick
  split
  · exact (by decide : 0 < quantaPerLevel)
  · rename_i h
    exact Nat.lt_of_not_le h

/-- What `switch_to_idle` leaves in the task. -/
def settle (state : TaskState) (i : TaskInner) : TaskInner :=
  if state = .blocked ∧ i.wakeupPending = true then
    { i with wakeupPending := false, state := .ready }
  else { i with state := state }

theorem settle_state (st : TaskState) (i : TaskInner) :
    (settle st i).state = if st = .blocked ∧ i.wakeupPending = true then .ready else st := by
  unfold settle
  split <;> rfl

theorem settle_level (st : TaskState) (i : TaskInner) : (settle st i).level = i.level := by
  unfold settle
  split <;> rfl

theorem settle_ticks (st : TaskState) (i : TaskInner) : (settle st i).ticks = i.ticks := by
  unfold settle
  split <;> rfl

end TaskInner

/-! ## The run queue -/

structure RunQueue where
  levels : Nat → List Nat

namespace RunQueue

def empty : RunQueue := ⟨fun _ => []⟩

def push (q : RunQueue) (task level : Nat) : RunQueue :=
  let l := min level (priorityLevels - 1)
  ⟨Function.update q.levels l (q.levels l ++ [task])⟩

/-- `levels.iter_mut().find_map(|q| q.pop_front())`. -/
def popFrom (q : RunQueue) : List Nat → Option (Nat × RunQueue)
  | [] => none
  | l :: ls =>
    match q.levels l with
    | [] => q.popFrom ls
    | t :: ts => some (t, ⟨Function.update q.levels l ts⟩)

def pop (q : RunQueue) : Option (Nat × RunQueue) := q.popFrom (List.range priorityLevels)

/-- How often a task is queued. -/
def count (q : RunQueue) (t : Nat) : Nat :=
  ((List.range priorityLevels).map fun l => (q.levels l).count t).sum

end RunQueue

/-- Where the hart is: in `kmain`, in a task, or in a leg of `run`. -/
inductive Phase where
  | boot
  | task
  | idleTop
  | idlePick
  | idleWait
  | panicked
deriving DecidableEq, Repr

/-- Who runs kernel code: a task, or the interrupt handler. -/
abbrev Ctx := Option Nat

/-- `wakes c` is the wake that `c` has taken out of `Blocked` and not yet put on
the run queue. -/
structure Sched where
  inner : Nat → TaskInner
  allTasks : List Nat
  queue : RunQueue
  current : Option Nat
  previous : Option Nat
  wakes : Ctx → Option (Nat × Nat)
  phase : Phase
  irq : Bool

namespace Sched

def boot : Sched :=
  ⟨fun _ => .new, [], .empty, none, none, fun _ => none, .boot, false⟩

def modify (s : Sched) (t : Nat) (f : TaskInner → TaskInner) : Sched :=
  { s with inner := Function.update s.inner t (f (s.inner t)) }

/-- Only `ps` reads `ALL_TASKS`, so a task counts as admitted once it is queued. -/
def admitTask (s : Sched) (t : Nat) : Sched :=
  { s with
    inner := Function.update s.inner t .new
    allTasks := s.allTasks ++ [t]
    queue := s.queue.push t 0 }

/-- `wake` under the target's lock. -/
def wake (s : Sched) (c : Ctx) (t : Nat) : Sched :=
  if (s.inner t).state = .blocked then
    { s.modify t .woken with
      wakes := Function.update s.wakes c (some (t, (s.inner t).woken.level)) }
  else s.modify t .noted

/-- `wake` under the run queue's lock. -/
def finishWake (s : Sched) (c : Ctx) (t level : Nat) : Sched :=
  { s with queue := s.queue.push t level, wakes := Function.update s.wakes c none }

def switchToIdle (s : Sched) (state : TaskState) : Sched :=
  match s.current with
  | none => { s with phase := .panicked }
  | some t =>
    { s.modify t (.settle state) with
      current := none
      previous := some t
      phase := .idleTop
      irq := false }

def onTimerTick (s : Sched) : Sched :=
  match s.current with
  | none => s
  | some t => s.modify t .tick

def reschedIfNeeded (s : Sched) : Sched :=
  match s.current with
  | none => s
  | some t =>
    if (s.inner t).needsResched then
      (s.modify t fun i => { i with needsResched := false }).switchToIdle .ready
    else s

/-- `run` deals with whoever just switched away. -/
def runPrevious (s : Sched) : Sched :=
  match s.previous with
  | none => { s with phase := .idlePick }
  | some t =>
    let s := { s with previous := none, phase := .idlePick }
    match (s.inner t).state with
    | .ready => { s with queue := s.queue.push t (s.inner t).level }
    | .blocked | .zombie => s
    | .running => { s with phase := .panicked }

/-- `run` picks the next task. A zombie would return from its last switch into
the `unreachable!` of `exit_current`. -/
def runNext (s : Sched) : Sched :=
  match s.queue.pop with
  | none => { s with phase := .idleWait }
  | some (t, queue) =>
    { s.modify t .started with
      queue := queue
      current := some t
      phase := if (s.inner t).state = .zombie then .panicked else .task }

/-! ## Steps -/

inductive Op where
  | admitTask (t : Nat)
  | wake (t : Nat)
  | push
  | yieldNow
  | blockCurrent
  | exitCurrent
  | resched
  | interrupt
  | tick
  | iret
  | idle

/-- Who can take a step of its own. -/
def actor (s : Sched) : Option Ctx :=
  if s.irq then some none
  else if s.phase = .task then s.current.map some
  else none

/-- The running task, outside the handler and outside `wake`. -/
def Runs (s : Sched) (t : Nat) : Prop :=
  s.irq = false ∧ s.phase = .task ∧ s.current = some t ∧ s.wakes (some t) = none

inductive Step : Sched → Op → Sched → Prop where
  | bootAdmit {s : Sched} {t : Nat} : s.phase = .boot → s.irq = false → t ∉ s.allTasks →
      Step s (.admitTask t) (s.admitTask t)
  | admitTask {s : Sched} {me t : Nat} : s.Runs me → t ∉ s.allTasks →
      Step s (.admitTask t) (s.admitTask t)
  | wake {s : Sched} {c : Ctx} {t : Nat} : s.actor = some c → s.wakes c = none →
      t ∈ s.allTasks → Step s (.wake t) (s.wake c t)
  | push {s : Sched} {c : Ctx} {t level : Nat} : s.actor = some c →
      s.wakes c = some (t, level) → Step s .push (s.finishWake c t level)
  | yieldNow {s : Sched} {me : Nat} : s.Runs me → Step s .yieldNow (s.switchToIdle .ready)
  | blockCurrent {s : Sched} {me : Nat} : s.Runs me →
      Step s .blockCurrent (s.switchToIdle .blocked)
  | exitCurrent {s : Sched} {me : Nat} : s.Runs me →
      Step s .exitCurrent (s.switchToIdle .zombie)
  | resched {s : Sched} {me : Nat} : s.Runs me → Step s .resched s.reschedIfNeeded
  | interrupt {s : Sched} : s.irq = false →
      s.phase = .boot ∨ s.phase = .task ∨ s.phase = .idleWait →
      Step s .interrupt { s with irq := true }
  | tick {s : Sched} : s.irq = true → Step s .tick s.onTimerTick
  | iret {s : Sched} : s.irq = true → s.wakes none = none →
      Step s .iret ({ s with irq := false }).reschedIfNeeded
  | enter {s : Sched} : s.phase = .boot → s.irq = false →
      Step s .idle { s with phase := .idleTop }
  | previous {s : Sched} : s.phase = .idleTop → Step s .idle s.runPrevious
  | next {s : Sched} : s.phase = .idlePick → Step s .idle s.runNext
  | rescan {s : Sched} : s.phase = .idleWait → s.irq = false →
      Step s .idle { s with phase := .idleTop }

def system : System Sched Op := ⟨(· = boot), Step⟩

end Sched

end AlexOS
