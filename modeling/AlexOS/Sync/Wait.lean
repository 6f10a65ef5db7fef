import AlexOS.Syscall.Machine
import AlexOS.Task.Placement

/-!
# Wait queues, `waitpid` and exit

`kernel/src/sync/wait.rs` over the scheduler, with the two users of a task's own
queue: `sys_waitpid` in `kernel/src/syscall/mod.rs` and `exit_current` with
`on_exit`. Each task, and the interrupt handler, has a program point in this
code; a step is one critical section, as in the scheduler.
-/

namespace AlexOS

/-- A queue that kernel code names, or the `child_exit` of a task. -/
inductive Queue where
  | named (n : Nat)
  | childExit (t : Nat)
deriving DecidableEq, Repr

/-- Who called `wait`: the loop it returns to. -/
inductive Caller where
  | wait
  | waitUntil
  | waitpid (want : Int)
deriving DecidableEq, Repr

/-- Who called `wake_one` or `wake_all`. -/
inductive After where
  | run
  | exit
deriving DecidableEq, Repr

inductive Pc where
  | run
  /-- At the top of the loop of `wait_until`. -/
  | untilTop (n : Nat)
  /-- At the top of the loop of `sys_waitpid`. -/
  | waitpidTop (want : Int)
  /-- In `wait`, before the push. -/
  | wait (q : Queue) (k : Caller)
  /-- In `wait`, after the push and before `block_current`. -/
  | enqueued (q : Queue) (k : Caller)
  /-- In `wait`, from `block_current` on. -/
  | parked (q : Queue) (k : Caller)
  /-- Made the condition of the queue true; `wake_one` or `wake_all` comes next. -/
  | signalled (n : Nat)
  /-- Took these tasks off the queue and has yet to wake them. -/
  | waking (q : Queue) (us : List Nat) (a : After)
  /-- In `exit_current`, before `on_exit` reaches the parent's queue. -/
  | exiting
  /-- In `exit_current`, after `on_exit`. -/
  | leaving
deriving DecidableEq, Repr

def Caller.next : Caller → Queue → Pc
  | .waitUntil, .named n => .untilTop n
  | .waitpid want, _ => .waitpidTop want
  | _, _ => .run

def After.next : After → Pc
  | .run => .run
  | .exit => .leaving

/-- `cond n` is the condition that `wait_until` checks on the named queue `n`. -/
structure Kernel where
  sched : Sched
  queues : Queue → List Nat
  pc : Ctx → Pc
  cond : Nat → Bool
  parent : Nat → Option Nat
  children : Nat → List Nat

namespace Kernel

def boot : Kernel :=
  ⟨.boot, fun _ => [], fun _ => .run, fun _ => false, fun _ => none, fun _ => []⟩

def goto (k : Kernel) (c : Ctx) (p : Pc) : Kernel := { k with pc := Function.update k.pc c p }

def setQueue (k : Kernel) (q : Queue) (ts : List Nat) : Kernel :=
  { k with queues := Function.update k.queues q ts }

def setCond (k : Kernel) (n : Nat) (b : Bool) : Kernel :=
  { k with cond := Function.update k.cond n b }

/-! ## `WaitQueue` -/

def check (k : Kernel) (me n : Nat) : Kernel :=
  k.goto (some me) (if k.cond n then .run else .wait (.named n) .waitUntil)

def enqueue (k : Kernel) (me : Nat) (q : Queue) (a : Caller) : Kernel :=
  (k.setQueue q (k.queues q ++ [me])).goto (some me) (.enqueued q a)

def block (k : Kernel) (me : Nat) (q : Queue) (a : Caller) : Kernel :=
  { k.goto (some me) (.parked q a) with sched := k.sched.switchToIdle .blocked }

/-- `wait` is back from `block_current`: it drops its entry if a wakeup left it. -/
def unpark (k : Kernel) (me : Nat) (q : Queue) (a : Caller) : Kernel :=
  (k.setQueue q ((k.queues q).erase me)).goto (some me) (a.next q)

/-- The first `n` waiters leave the queue and are this context's to wake. -/
def take (k : Kernel) (c : Ctx) (q : Queue) (n : Nat) (a : After) : Kernel :=
  (k.setQueue q ((k.queues q).drop n)).goto c (.waking q ((k.queues q).take n) a)

def wakeOne (k : Kernel) (c : Ctx) (q : Queue) : Kernel := k.take c q 1 .run

def wakeAll (k : Kernel) (c : Ctx) (q : Queue) (a : After) : Kernel :=
  k.take c q (k.queues q).length a

/-- `scheduler::wake` under the lock of the next task to wake. -/
def wakeNext (k : Kernel) (c : Ctx) (q : Queue) (u : Nat) (us : List Nat) (a : After) : Kernel :=
  { k.goto c (.waking q us a) with sched := k.sched.wake c u }

/-! ## `fork`, `waitpid`, `exit` -/

def isZombie (k : Kernel) (c : Nat) : Bool := (k.sched.inner c).state == .zombie

/-- Only the parent reads its children, so the push and `admit` are one step. -/
def fork (k : Kernel) (me t : Nat) : Kernel :=
  { k with
    sched := k.sched.admitTask t
    parent := Function.update k.parent t (some me)
    children := Function.update k.children me (k.children me ++ [t]) }

def scan (k : Kernel) (me : Nat) (want : Int) : Kernel :=
  let found := fun c => isMatch want c && k.isZombie c
  if (k.children me).any found then
    { k.goto (some me) .run with
      children := Function.update k.children me ((k.children me).eraseP found) }
  else if anyChildren want (k.children me) then
    k.goto (some me) (.wait (.childExit me) (.waitpid want))
  else k.goto (some me) .run

/-- `switch_to_idle(Zombie)`. -/
def zombie (k : Kernel) : Kernel := { k with sched := k.sched.switchToIdle .zombie }

/-! ## Steps -/

inductive Op where
  | sched (op : Sched.Op)
  | wait (n : Nat)
  | waitUntil (n : Nat)
  | check
  | enqueue
  | block
  | unpark
  | signal (n : Nat)
  | reset (n : Nat)
  | wakeOne (n : Nat)
  | wakeAll (n : Nat)
  | wakeNext
  | wakeDone
  | fork (t : Nat)
  | waitpid (want : Int)
  | scan
  | exit
  | drain
  | orphan
  | zombie

/-- It is the turn of `c`, outside the second half of a `scheduler::wake`, and it
is at this point. -/
def Acts (k : Kernel) (c : Ctx) (p : Pc) : Prop :=
  k.sched.actor = some c ∧ k.sched.wakes c = none ∧ k.pc c = p

/-- What the scheduler may do by itself. Tasks block, wake and exit only through
the code of this file. -/
def Allows (k : Kernel) : Sched.Op → Prop
  | .push | .interrupt | .tick | .idle => True
  | .iret => k.pc none = .run
  | .admitTask _ | .yieldNow | .resched => ∀ me, k.sched.current = some me → k.pc (some me) = .run
  | .wake _ | .blockCurrent | .exitCurrent => False

/-- The parent of an exiting task cannot be upgraded: there is none, or it has
itself exited. -/
def Orphaned (k : Kernel) (me : Nat) : Prop :=
  ∀ p, k.parent me = some p → k.isZombie p = true

inductive Step : Kernel → Op → Kernel → Prop where
  | sched {k : Kernel} {op : Sched.Op} {s : Sched} : Sched.Step k.sched op s → k.Allows op →
      Step k (.sched op) { k with sched := s }
  | wait {k : Kernel} {me n : Nat} : k.Acts (some me) .run →
      Step k (.wait n) (k.goto (some me) (.wait (.named n) .wait))
  | waitUntil {k : Kernel} {me n : Nat} : k.Acts (some me) .run →
      Step k (.waitUntil n) (k.goto (some me) (.untilTop n))
  | check {k : Kernel} {me n : Nat} : k.Acts (some me) (.untilTop n) →
      Step k .check (k.check me n)
  | enqueue {k : Kernel} {me : Nat} {q : Queue} {a : Caller} : k.Acts (some me) (.wait q a) →
      Step k .enqueue (k.enqueue me q a)
  | block {k : Kernel} {me : Nat} {q : Queue} {a : Caller} : k.Acts (some me) (.enqueued q a) →
      Step k .block (k.block me q a)
  | unpark {k : Kernel} {me : Nat} {q : Queue} {a : Caller} : k.Acts (some me) (.parked q a) →
      Step k .unpark (k.unpark me q a)
  | signal {k : Kernel} {c : Ctx} {n : Nat} : k.Acts c .run →
      Step k (.signal n) ((k.setCond n true).goto c (.signalled n))
  | reset {k : Kernel} {c : Ctx} {n : Nat} : k.Acts c .run → Step k (.reset n) (k.setCond n false)
  | wakeOne {k : Kernel} {c : Ctx} {n : Nat} : k.Acts c .run ∨ k.Acts c (.signalled n) →
      Step k (.wakeOne n) (k.wakeOne c (.named n))
  | wakeAll {k : Kernel} {c : Ctx} {n : Nat} : k.Acts c .run ∨ k.Acts c (.signalled n) →
      Step k (.wakeAll n) (k.wakeAll c (.named n) .run)
  | wakeNext {k : Kernel} {c : Ctx} {q : Queue} {u : Nat} {us : List Nat} {a : After} :
      k.Acts c (.waking q (u :: us) a) → Step k .wakeNext (k.wakeNext c q u us a)
  | wakeDone {k : Kernel} {c : Ctx} {q : Queue} {a : After} : k.Acts c (.waking q [] a) →
      Step k .wakeDone (k.goto c a.next)
  | fork {k : Kernel} {me t : Nat} : k.Acts (some me) .run → t ∉ k.sched.allTasks →
      Step k (.fork t) (k.fork me t)
  | waitpid {k : Kernel} {me : Nat} {want : Int} : k.Acts (some me) .run →
      Step k (.waitpid want) (k.goto (some me) (.waitpidTop want))
  | scan {k : Kernel} {me : Nat} {want : Int} : k.Acts (some me) (.waitpidTop want) →
      Step k .scan (k.scan me want)
  | exit {k : Kernel} {me : Nat} : k.Acts (some me) .run →
      Step k .exit (k.goto (some me) .exiting)
  | drain {k : Kernel} {me p : Nat} : k.Acts (some me) .exiting → k.parent me = some p →
      Step k .drain (k.wakeAll (some me) (.childExit p) .exit)
  | orphan {k : Kernel} {me : Nat} : k.Acts (some me) .exiting → k.Orphaned me →
      Step k .orphan (k.goto (some me) .leaving)
  | zombie {k : Kernel} {me : Nat} : k.Acts (some me) .leaving → Step k .zombie k.zombie

def system : System Kernel Op := ⟨(· = boot), Step⟩

end Kernel

end AlexOS
