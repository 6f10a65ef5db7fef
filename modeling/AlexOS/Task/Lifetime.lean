import AlexOS.Task.Scheduler
import AlexOS.Trap.Hart

/-!
# Tasks, their references, spaces and trap frames

The tasks of one hart with everything that holds an `Arc<Task>` (the run queue,
`cpu.current`, `cpu.previous`, the variable that carries a task between them, wait queues,
children, and the locals on each kernel stack), the address spaces and boxed trap frames
they own, and `satp`, `sscratch` and `stvec`, through `task/scheduler.rs`,
`task/process.rs`, `user_trap_handler` and the system calls. A step is a section that runs
with interrupts masked; between two of them the task can be preempted. `run` is taken with
interrupts masked, and no interrupt is taken between `set_user_vector` and user mode. A
task is freed when nothing holds it, before anything else happens. `fork` is one step: until
`admit` only the parent can reach the child.
-/

namespace AlexOS.Lifetime

/-- Of a heap block: it is allocated once and dropped once. -/
inductive Status where
  | absent
  | live
  | dropped
deriving DecidableEq

/-- Where a task is in its kernel code, with the trap frame its `user_trap_handler` was given
and the address spaces its locals own. -/
inductive Stage where
  /-- Before `task_entry`. -/
  | fresh
  /-- In `user_entry`. -/
  | entry
  | user
  /-- In `user_trap_handler`, masked. -/
  | trapped (f : Nat)
  /-- In `syscall::dispatch`, or in the code of a kernel task. -/
  | body (f : Option Nat)
  /-- `exec_current`: the new space is built; it is installed; the old one is dropped. -/
  | prepared (f space : Nat)
  | swapped (f old : Nat)
  | replaced (f : Nat)
  /-- `user_trap_handler` before and after `resched_if_needed`, masked. -/
  | handled
  | leave
  /-- `exit_current`: the space is to be taken, is taken, is no longer installed, is dropped.
  Its own reference is gone before it switches. -/
  | exiting
  | taken (space : Nat)
  | detached (space : Nat)
  | notify
  | exited
  | dead
deriving DecidableEq

namespace Stage

/-- The spaces that locals own. -/
def spaces : Stage → List Nat
  | .prepared _ sp | .swapped _ sp | .taken sp | .detached sp => [sp]
  | _ => []

/-- Interrupts are on, or `resched_if_needed` is called. -/
def preemptible : Stage → Bool
  | .entry | .body _ | .prepared _ _ | .swapped _ _ | .replaced _ | .handled | .exiting | .taken _
  | .detached _ | .notify | .exited => true
  | .fresh | .user | .trapped _ | .leave | .dead => false

/-- Where a preempted task goes on. -/
def resumed : Stage → Stage
  | .handled => .leave
  | g => g

/-- Code that clones and drops references as it likes: system calls and `on_exit`. -/
def free : Stage → Bool
  | .body _ | .replaced _ | .notify => true
  | _ => false

end Stage

structure Task where
  state : TaskState
  wakeupPending : Bool
  isUser : Bool
  space : Option Nat
  frame : Option Nat
  children : List Nat
  /-- What locals on its kernel stack refer to. -/
  locals : List Nat
  /-- It is in `resched_if_needed`, which has a reference to it. -/
  resched : Bool
  /-- It is in `kill_current`, which has a reference to it. -/
  killed : Bool
  /-- The task that it is waking and has still to push on the run queue. -/
  waking : Option Nat
  stage : Stage

namespace Task

def new (isUser : Bool) (space frame : Option Nat) : Task :=
  ⟨.ready, false, isUser, space, frame, [], [], false, false, none, .fresh⟩

def spaces (t : Task) : List Nat := t.space.toList ++ t.stage.spaces

/-- What is left of a task whose `TaskInner` is dropped. -/
def gone (t : Task) : Task := { t with space := none, frame := none, children := [] }

end Task

inductive Phase where
  /-- `kmain`. -/
  | boot
  /-- `run`: at the top, with `previous` taken, before the queue is popped, with a task
  popped, with its space installed, with `current` published, in `wfi`. -/
  | top
  | took
  | pick
  | picked
  | activated
  | published
  | wait
  /-- In a task; in `switch_to_idle`, with the task in a local, then in `previous`. -/
  | task
  | leaving
  | handed
deriving DecidableEq

/-- What is in `sscratch`: what was there at boot, the address of a frame, or the user's `sp`,
which `user_trap_entry` exchanges for it. -/
inductive Scratch where
  | boot
  | frame (f : Nat)
  | userSp
deriving DecidableEq

structure World where
  tasks : Nat → Task
  status : Nat → Status
  spaces : Nat → Status
  frames : Nat → Status
  /-- The task at the top of whose kernel stack `kernel_sp` of a frame is. -/
  kernelSp : Nat → Nat
  queue : List Nat
  /-- The entries of all wait queues. -/
  waiting : List Nat
  current : Option Nat
  previous : Option Nat
  /-- The local that has the task which is neither `current` nor `previous` nor queued. -/
  hand : Option Nat
  phase : Phase
  /-- Whose kernel stack the hart is on; `none` is the boot stack. -/
  on : Option Nat
  /-- The installed space; `none` is the kernel's. -/
  satp : Option Nat
  sscratch : Scratch
  stvec : TrapVector

namespace World

def boot : World :=
  ⟨fun _ => .new false none none, fun _ => .absent, fun _ => .absent, fun _ => .absent, fun _ => 0,
    [], [], none, none, none, .boot, none, none, .boot, .kernel⟩

/-- Some strong reference to `t` exists. -/
def Held (s : World) (t : Nat) : Prop :=
  t ∈ s.queue ∨ t ∈ s.waiting ∨ s.current = some t ∨ s.previous = some t ∨ s.hand = some t ∨
    (s.tasks t).resched = true ∨ (s.tasks t).killed = true ∨
    ∃ p, t ∈ (s.tasks p).locals ∨ t ∈ (s.tasks p).children

def put (s : World) (t : Nat) (r : Task) : World :=
  { s with tasks := Function.update s.tasks t r }

/-- `Arc::new` of a task, and `admit`. -/
def admitTask (s : World) (t : Nat) (r : Task) : World :=
  { s.put t r with status := Function.update s.status t .live, queue := s.queue ++ [t] }

/-- A space and a frame for the task `t`. -/
def furnish (s : World) (t sp fr : Nat) : World :=
  { s with
    spaces := Function.update s.spaces sp .live
    frames := Function.update s.frames fr .live
    kernelSp := Function.update s.kernelSp fr t }

/-- `wake` by an interrupt handler, with the entry of the wait queue. -/
def wakeNow (s : World) (t : Nat) : World :=
  if (s.tasks t).state = .blocked then
    { s.put t { s.tasks t with state := .ready } with
      queue := s.queue ++ [t], waiting := s.waiting.erase t }
  else
    { s.put t { s.tasks t with wakeupPending := true } with waiting := s.waiting.erase t }

def dropped (m : Nat → Status) : Option Nat → Nat → Status
  | none => m
  | some x => Function.update m x .dropped

/-- The last reference to `t` is dropped. -/
def collect (s : World) (t : Nat) : World :=
  { s.put t (s.tasks t).gone with
    status := Function.update s.status t .dropped
    spaces := dropped s.spaces (s.tasks t).space
    frames := dropped s.frames (s.tasks t).frame }

/-- The hart is in `t`. -/
structure Executes (s : World) (t : Nat) : Prop where
  phase : s.phase = .task
  stack : s.on = some t
  current : s.current = some t

/-- `t` runs, and is neither in `resched_if_needed` nor in `wake`. -/
structure Runs (s : World) (t : Nat) : Prop extends Executes s t where
  resched : (s.tasks t).resched = false
  waking : (s.tasks t).waking = none

/-- What `t`'s own code does to its record alone. -/
inductive Turn (s : World) (t : Nat) : Task → Task → Prop where
  | entry {r : Task} : r.stage = .fresh → r.isUser = true → Turn s t r { r with stage := .entry }
  | code {r : Task} : r.stage = .fresh → r.isUser = false →
      Turn s t r { r with stage := .body none }
  | ecall {r : Task} {f : Nat} : r.stage = .trapped f →
      Turn s t r { r with stage := .body (some f) }
  | irq {r : Task} {f : Nat} : r.stage = .trapped f → Turn s t r { r with stage := .handled }
  | fault {r : Task} {f : Nat} : r.stage = .trapped f →
      Turn s t r { r with stage := .exiting, killed := true }
  /-- The call `frame.set_return(ret)` is through `f`. -/
  | sysReturn {r : Task} {f : Nat} : r.stage = .body (some f) → r.locals = [] →
      Turn s t r { r with stage := .handled }
  | execReturn {r : Task} {f : Nat} : r.stage = .replaced f → r.locals = [] →
      Turn s t r { r with stage := .handled }
  | noResched {r : Task} : r.stage = .handled → Turn s t r { r with stage := .leave }
  | exit {r : Task} {f : Option Nat} : r.stage = .body f → r.locals = [] →
      Turn s t r { r with stage := .exiting }
  | takeNone {r : Task} : r.stage = .exiting → r.space = none →
      Turn s t r { r with stage := .notify }
  | take {r : Task} {sp : Nat} : r.stage = .exiting → r.space = some sp →
      Turn s t r { r with space := none, stage := .taken sp }
  | notified {r : Task} : r.stage = .notify → r.locals = [] → Turn s t r { r with stage := .exited }
  | clone {r : Task} {u : Nat} : r.stage.free = true → s.status u = .live →
      Turn s t r { r with locals := r.locals ++ [u] }
  | drop {r : Task} {u : Nat} : r.stage.free = true → u ∈ r.locals →
      Turn s t r { r with locals := r.locals.erase u }
  /-- A zombie is taken out of the children. -/
  | reap {r : Task} {u : Nat} : r.stage.free = true → u ∈ r.children →
      (s.tasks u).state = .zombie →
      Turn s t r { r with children := r.children.erase u, locals := r.locals ++ [u] }

/-- What `yield_now`, `block_current` and `exit_current` make of the record of `t`. -/
inductive Leaves (t : Nat) : Task → Task → Prop where
  | yieldNow {r : Task} {f : Option Nat} : r.stage = .body f → Leaves t r { r with state := .ready }
  /-- While it waits, `WaitQueue::wait` has a reference to its caller. -/
  | block {r : Task} {f : Option Nat} : r.stage = .body f → t ∈ r.locals →
      r.wakeupPending = false → Leaves t r { r with state := .blocked }
  | woken {r : Task} {f : Option Nat} : r.stage = .body f → t ∈ r.locals →
      r.wakeupPending = true → Leaves t r { r with state := .ready, wakeupPending := false }
  | exit {r : Task} : r.stage = .exited → Leaves t r { r with state := .zombie, stage := .dead }

inductive Act : World → World → Prop where
  | boot {s : World} {t sp fr : Nat} : s.phase = .boot → s.status t = .absent →
      s.spaces sp = .absent → s.frames fr = .absent →
      Act s ((s.furnish t sp fr).admitTask t (.new true (some sp) (some fr)))
  | bootKernel {s : World} {t : Nat} : s.phase = .boot → s.status t = .absent →
      Act s (s.admitTask t (.new false none none))
  | start {s : World} : s.phase = .boot → Act s { s with phase := .top }
  | take {s : World} {t : Nat} : s.phase = .top → s.previous = some t →
      Act s { s with phase := .took, previous := none, hand := some t }
  | noPrevious {s : World} : s.phase = .top → s.previous = none → Act s { s with phase := .pick }
  | requeue {s : World} {t : Nat} : s.phase = .took → s.hand = some t →
      (s.tasks t).state = .ready →
      Act s { s with phase := .pick, hand := none, queue := s.queue ++ [t] }
  | release {s : World} {t : Nat} : s.phase = .took → s.hand = some t →
      (s.tasks t).state = .blocked ∨ (s.tasks t).state = .zombie →
      Act s { s with phase := .pick, hand := none }
  | pick {s : World} {t : Nat} : s.phase = .pick → t ∈ s.queue →
      Act s { s with phase := .picked, hand := some t, queue := s.queue.erase t }
  | sleep {s : World} : s.phase = .pick → s.queue = [] → Act s { s with phase := .wait }
  | rouse {s : World} : s.phase = .wait → Act s { s with phase := .top }
  | activate {s : World} {t : Nat} : s.phase = .picked → s.hand = some t →
      Act s { s with phase := .activated, satp := (s.tasks t).space }
  | publish {s : World} {t : Nat} : s.phase = .activated → s.hand = some t →
      Act s { s.put t { s.tasks t with state := .running } with
        phase := .published, hand := none, current := some t }
  | switchIn {s : World} {t : Nat} : s.phase = .published → s.current = some t →
      Act s { s with phase := .task, on := some t }
  | leave {s : World} {t : Nat} {r : Task} : s.Runs t → Leaves t (s.tasks t) r →
      Act s { s.put t r with phase := .leaving, current := none, hand := some t }
  | preempt {s : World} {t : Nat} : s.Executes t → (s.tasks t).resched = false →
      (s.tasks t).stage.preemptible = true →
      Act s { s.put t { s.tasks t with
                state := .ready, resched := true, stage := (s.tasks t).stage.resumed } with
        phase := .leaving, current := none, hand := some t }
  | hand {s : World} {t : Nat} : s.phase = .leaving → s.hand = some t →
      Act s { s with phase := .handed, hand := none, previous := some t }
  | switchOut {s : World} : s.phase = .handed → Act s { s with phase := .top, on := none }
  | resume {s : World} {t : Nat} : s.Executes t → (s.tasks t).resched = true →
      Act s (s.put t { s.tasks t with resched := false })
  | turn {s : World} {t : Nat} {r : Task} : s.Runs t → Turn s t (s.tasks t) r → Act s (s.put t r)
  | enterUser {s : World} {t fr : Nat} : s.Runs t →
      (s.tasks t).stage = .entry ∨ (s.tasks t).stage = .leave → (s.tasks t).frame = some fr →
      Act s { s.put t { s.tasks t with stage := .user } with
        sscratch := .frame fr, stvec := .user }
  | userTrap {s : World} {t f : Nat} : s.Runs t → (s.tasks t).stage = .user →
      s.sscratch = .frame f →
      Act s { s.put t { s.tasks t with stage := .trapped f } with
        sscratch := .userSp, stvec := .kernel }
  | spawn {s : World} {t u : Nat} : s.Runs t → (s.tasks t).stage = .body none →
      s.status u = .absent →
      Act s ((s.put t { s.tasks t with locals := (s.tasks t).locals ++ [u] }).admitTask u
        (.new false none none))
  | fork {s : World} {t u sp fr f : Nat} : s.Runs t → (s.tasks t).stage = .body (some f) →
      s.status u = .absent → s.spaces sp = .absent → s.frames fr = .absent →
      Act s (((s.furnish u sp fr).put t
        { s.tasks t with children := (s.tasks t).children ++ [u] }).admitTask u
          (.new true (some sp) (some fr)))
  | enqueue {s : World} {t : Nat} : s.Runs t → (s.tasks t).stage.free = true →
      t ∈ (s.tasks t).locals → Act s { s with waiting := s.waiting ++ [t] }
  | dequeue {s : World} {t u : Nat} : s.Runs t → (s.tasks t).stage.free = true → u ∈ s.waiting →
      Act s { s.put t { s.tasks t with locals := (s.tasks t).locals ++ [u] } with
        waiting := s.waiting.erase u }
  /-- The two critical sections of `wake` are two steps. -/
  | wake {s : World} {t u : Nat} : s.Runs t → (s.tasks t).stage.free = true →
      u ∈ (s.tasks t).locals → (s.tasks u).state = .blocked →
      Act s ((s.put t { s.tasks t with waking := some u }).put u { s.tasks u with state := .ready })
  | push {s : World} {t u : Nat} : s.Executes t → (s.tasks t).resched = false →
      (s.tasks t).waking = some u →
      Act s { s.put t { s.tasks t with waking := none } with queue := s.queue ++ [u] }
  | note {s : World} {t u : Nat} : s.Runs t → (s.tasks t).stage.free = true →
      u ∈ (s.tasks t).locals → (s.tasks u).state ≠ .blocked →
      Act s (s.put u { s.tasks u with wakeupPending := true })
  | device {s : World} {u : Nat} : s.phase = .task ∨ s.phase = .wait → u ∈ s.waiting →
      Act s (s.wakeNow u)
  | prepare {s : World} {t f sp : Nat} : s.Runs t → (s.tasks t).stage = .body (some f) →
      s.spaces sp = .absent →
      Act s { s.put t { s.tasks t with stage := .prepared f sp } with
        spaces := Function.update s.spaces sp .live }
  | abort {s : World} {t f sp : Nat} : s.Runs t → (s.tasks t).stage = .prepared f sp →
      Act s { s.put t { s.tasks t with stage := .body (some f) } with
        spaces := Function.update s.spaces sp .dropped }
  /-- The new space is activated, then `inner.frame` and `inner.space` are assigned. -/
  | swap {s : World} {t f sp old fr : Nat} : s.Runs t → (s.tasks t).stage = .prepared f sp →
      (s.tasks t).space = some old → s.frames fr = .absent →
      Act s { s.put t { s.tasks t with
                space := some sp, frame := some fr, stage := .swapped f old } with
        satp := some sp
        frames := Function.update (dropped s.frames (s.tasks t).frame) fr .live
        kernelSp := Function.update s.kernelSp fr t }
  | dropOld {s : World} {t f old : Nat} : s.Runs t → (s.tasks t).stage = .swapped f old →
      Act s { s.put t { s.tasks t with stage := .replaced f } with
        spaces := Function.update s.spaces old .dropped }
  | detach {s : World} {t sp : Nat} : s.Runs t → (s.tasks t).stage = .taken sp →
      Act s { s.put t { s.tasks t with stage := .detached sp } with satp := none }
  | dropSpace {s : World} {t sp : Nat} : s.Runs t → (s.tasks t).stage = .detached sp →
      Act s { s.put t { s.tasks t with stage := .notify } with
        spaces := Function.update s.spaces sp .dropped }

inductive Op where
  | act
  | collect (t : Nat)

/-- No task is waiting to be freed. -/
def Settled (s : World) : Prop := ∀ t, s.status t = .live → s.Held t

inductive Step : World → Op → World → Prop where
  | act {s s' : World} : s.Settled → Act s s' → Step s .act s'
  | collect {s : World} {t : Nat} : s.status t = .live → ¬ s.Held t →
      Step s (.collect t) (s.collect t)

def system : System World Op := ⟨(· = boot), Step⟩

end World

end AlexOS.Lifetime
