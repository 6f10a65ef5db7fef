import AlexOS.Lib.Run
import Mathlib.Logic.Function.Basic

/-!
# One hart: traps, vectors and context switches

The privilege mode, `sstatus`, `stvec` and `sscratch` of the boot hart, the stack
and program point it is at, and the saved contexts, through `kmain`,
`scheduler::run`, `switch_to_idle`, `task_entry`, `user_entry` and the two trap
paths. `switch_context` is one step: an interrupt inside it is one before it or
after it, by the stack it finds. Spin locks only mask interrupts for longer, and
which admitted task the run queue yields is left open.
-/

namespace AlexOS

inductive Mode where
  | user
  | supervisor
deriving DecidableEq, Repr

/-- What `stvec` points at: `kernel_trap_entry` or `user_trap_entry`. -/
inductive TrapVector where
  | kernel
  | user
deriving DecidableEq, Repr

/-- The bits of `sstatus` that traps use. -/
structure Sstatus where
  sie : Bool
  spie : Bool
  spp : Mode
deriving DecidableEq, Repr

inductive Cause where
  | timer
  | device
  | software
  | ecall
  | fault
deriving DecidableEq, Repr

def Cause.isInterrupt : Cause → Bool
  | .timer | .device | .software => true
  | .ecall | .fault => false

inductive Stack where
  | boot
  | task (t : Nat)
deriving DecidableEq, Repr

inductive Point where
  /-- `kmain` before and after `enable_interrupts`. -/
  | kmainInit
  | kmain
  /-- `run`: the top of the loop, after `previous`, with a task popped, with
  `current` published, and in `wfi`. -/
  | runTop
  | runPick
  | runPicked (t : Nat)
  | runPublished (t : Nat)
  | runWait
  | taskEntry
  /-- The code of a kernel task. -/
  | code
  | userEntry
  /-- `stvec` is the user vector; `user_trap_return` comes next. -/
  | userVector
  /-- In `user_trap_return`, after `sstatus` is loaded. -/
  | userReturn
  /-- User code. -/
  | user
  /-- `user_trap_handler` before and after `set_kernel_vector`. -/
  | userTrap (c : Cause)
  | userCause (c : Cause)
  /-- In `syscall::dispatch`. -/
  | syscall
  /-- `user_trap_handler` before and after `resched_if_needed`. -/
  | userResched
  | userLeave
  | kernelTrap (c : Cause)
  | kernelResched
  | kernelExit
  /-- In `switch_to_idle`, about to switch; then back from the switch. -/
  | leaving (t : Nat) (wasEnabled : Bool) (resume : Point)
  | switched (wasEnabled : Bool) (resume : Point)
  /-- Past the last switch of an exited task. -/
  | dead
  /-- Nothing is known of what the hart runs. -/
  | wild
deriving DecidableEq, Repr

/-- Code that can create tasks, yield or block, and exit. -/
def Point.isBody : Point → Bool
  | .code | .syscall => true
  | _ => false

/-- A trap frame that `kernel_trap_entry` pushed. -/
structure KernelFrame where
  sstatus : Sstatus
  point : Point
deriving DecidableEq, Repr

/-- What a thread needs to go on: its stack, where it is, and the frames of the
traps it has not returned from. -/
structure Context where
  stack : Stack
  point : Point
  frames : List KernelFrame
deriving DecidableEq, Repr

/-- `cpu.idle`. -/
inductive Idle where
  | zeroed
  | saved (c : Context)
  | loaded (c : Context)
deriving DecidableEq, Repr

structure Hart where
  mode : Mode
  sstatus : Sstatus
  stvec : TrapVector
  /-- Whose `TrapFrame` is in `sscratch`. -/
  sscratch : Option Nat
  run : Context
  current : Option Nat
  previous : Option Nat
  idle : Idle
  tasks : List Nat
  exited : Nat → Bool
  isUser : Nat → Bool
  ctx : Nat → Context
  /-- `sstatus` in each user task's `TrapFrame`. -/
  frame : Nat → Sstatus
  needsResched : Nat → Bool

namespace Hart

/-- `TrapFrame::new_user`. -/
def newUser : Sstatus := ⟨false, true, .user⟩

def boot : Hart :=
  ⟨.supervisor, ⟨false, false, .supervisor⟩, .kernel, none, ⟨.boot, .kmainInit, []⟩, none, none,
    .zeroed, [], fun _ => false, fun _ => false, fun t => ⟨.task t, .taskEntry, []⟩,
    fun _ => newUser, fun _ => false⟩

def goto (h : Hart) (p : Point) : Hart := { h with run := { h.run with point := p } }

def setSie (h : Hart) (b : Bool) : Hart := { h with sstatus := { h.sstatus with sie := b } }

/-- A hart that runs on registers or a stack that are not what its code expects. -/
def crash (h : Hart) : Hart := (h.setSie false).goto .wild

/-! ## The hardware and the trap entries -/

def trapIn (h : Hart) : Hart :=
  { h with mode := .supervisor, sstatus := ⟨false, h.sstatus.sie, h.mode⟩ }

def sret (h : Hart) : Hart :=
  { h with mode := h.sstatus.spp, sstatus := ⟨h.sstatus.spie, true, .user⟩ }

def kernelTrapEntry (h : Hart) (c : Cause) : Hart :=
  { h with run := ⟨h.run.stack, .kernelTrap c, ⟨h.sstatus, h.run.point⟩ :: h.run.frames⟩ }

/-- Swaps `sp` with `sscratch`, saves `sstatus` in the frame found there and moves to
the kernel stack that frame names. -/
def userTrapEntry (h : Hart) (c : Cause) : Hart :=
  match h.sscratch with
  | some t =>
    { h with
      sscratch := none
      frame := Function.update h.frame t h.sstatus
      run := ⟨.task t, .userTrap c, []⟩ }
  | none => h.crash

/-- The kernel entry pushes its frame on the stack in use, so it needs a kernel
stack; the user entry needs the frame of the interrupted user code. -/
def trap (h : Hart) (c : Cause) : Hart :=
  match h.mode, h.stvec with
  | .supervisor, .kernel => h.trapIn.kernelTrapEntry c
  | .user, .user => h.trapIn.userTrapEntry c
  | _, _ => h.trapIn.crash

/-- `kernel_trap_exit`. -/
def kernelTrapExit (h : Hart) : Hart :=
  match h.run.frames with
  | [] => h.crash
  | f :: fs => ({ h with sstatus := f.sstatus, run := ⟨h.run.stack, f.point, fs⟩ }).sret

/-- `user_trap_return` up to the load of `sstatus`. -/
def userTrapReturn (h : Hart) (t : Nat) : Hart :=
  ({ h with sscratch := some t, sstatus := h.frame t }).goto .userReturn

/-! ## The scheduler -/

def admitTask (h : Hart) (t : Nat) (isUser : Bool) (frame : Sstatus) : Hart :=
  { h with
    tasks := h.tasks ++ [t]
    isUser := Function.update h.isUser t isUser
    ctx := Function.update h.ctx t ⟨.task t, .taskEntry, []⟩
    frame := Function.update h.frame t frame
    exited := Function.update h.exited t false
    needsResched := Function.update h.needsResched t false }

def onTimerTick (h : Hart) : Hart :=
  match h.current with
  | none => h
  | some t => { h with needsResched := Function.update h.needsResched t true }

/-- `switch_to_idle` up to its `switch_context`. -/
def switchToIdle (h : Hart) (resume : Point) : Hart :=
  match h.current with
  | none => h.crash
  | some t =>
    ({ h.setSie false with current := none, previous := some t }).goto
      (.leaving t h.sstatus.sie resume)

def reschedIfNeeded (h : Hart) (resume : Point) : Hart :=
  match h.current with
  | none => h.goto resume
  | some t =>
    if h.needsResched t then
      ({ h with needsResched := Function.update h.needsResched t false }).switchToIdle resume
    else h.goto resume

/-- `switch_context(ctx_of_t, cpu.idle)`. -/
def switchOut (h : Hart) (t : Nat) (wasEnabled : Bool) (resume : Point) : Hart :=
  let h := { h with
    ctx := Function.update h.ctx t { h.run with point := .switched wasEnabled resume } }
  match h.idle with
  | .saved c => { h with idle := .loaded c, run := c }
  | .zeroed | .loaded _ => h.crash

/-- `switch_context(cpu.idle, ctx_of_t)`. -/
def switchIn (h : Hart) (t : Nat) : Hart :=
  { h with idle := .saved { h.run with point := .runTop }, run := h.ctx t }

def exitCurrent (h : Hart) (t : Nat) : Hart :=
  ({ h with exited := Function.update h.exited t true }).switchToIdle .dead

/-! ## Steps -/

inductive Op where
  | enableInterrupts
  | admitTask (t : Nat)
  | run
  | previous
  | pick (t : Nat)
  | pickNone
  | wake
  | publish
  | switchIn
  | taskEntry
  | setUserVector
  | userTrapReturn
  | sret
  | trap (c : Cause)
  | setKernelVector
  | handle
  | exec
  | sysReturn
  | resched
  | kernelTrapExit
  | yieldNow
  | exitCurrent
  | switchOut
  | restore

inductive Step : Hart → Op → Hart → Prop where
  | enableInterrupts {h : Hart} : h.run.point = .kmainInit →
      Step h .enableInterrupts ((h.setSie true).goto .kmain)
  | bootAdmit {h : Hart} {t : Nat} {u : Bool} : h.run.point = .kmain → t ∉ h.tasks →
      Step h (.admitTask t) (h.admitTask t u newUser)
  | run {h : Hart} : h.run.point = .kmain → Step h .run (h.goto .runTop)
  | previous {h : Hart} : h.run.point = .runTop →
      Step h .previous (({ h with previous := none }).goto .runPick)
  | pick {h : Hart} {t : Nat} : h.run.point = .runPick → t ∈ h.tasks → h.exited t = false →
      Step h (.pick t)
        (({ h with needsResched := Function.update h.needsResched t false }).goto (.runPicked t))
  | pickNone {h : Hart} : h.run.point = .runPick →
      Step h .pickNone ((h.setSie true).goto .runWait)
  | wake {h : Hart} : h.run.point = .runWait → Step h .wake ((h.setSie false).goto .runTop)
  | publish {h : Hart} {t : Nat} : h.run.point = .runPicked t →
      Step h .publish (({ h with current := some t }).goto (.runPublished t))
  | switchIn {h : Hart} {t : Nat} : h.run.point = .runPublished t →
      Step h .switchIn (h.switchIn t)
  | taskEntry {h : Hart} {t : Nat} : h.run.point = .taskEntry → h.current = some t →
      Step h .taskEntry ((h.setSie true).goto (if h.isUser t then .userEntry else .code))
  | setUserVector {h : Hart} : h.run.point = .userEntry ∨ h.run.point = .userLeave →
      Step h .setUserVector (({ h with stvec := .user }).goto .userVector)
  | userTrapReturn {h : Hart} {t : Nat} : h.run.point = .userVector → h.current = some t →
      Step h .userTrapReturn (h.userTrapReturn t)
  | sret {h : Hart} : h.run.point = .userReturn → Step h .sret (h.sret.goto .user)
  | userTrap {h : Hart} {c : Cause} : h.mode = .user → Step h (.trap c) (h.trap c)
  | kernelTrap {h : Hart} {c : Cause} : h.mode = .supervisor → h.sstatus.sie = true →
      c.isInterrupt = true → Step h (.trap c) (h.trap c)
  | setKernelVector {h : Hart} {c : Cause} : h.run.point = .userTrap c →
      Step h .setKernelVector (({ h with stvec := .kernel }).goto (.userCause c))
  | ecall {h : Hart} : h.run.point = .userCause .ecall →
      Step h .handle ((h.setSie true).goto .syscall)
  | userTick {h : Hart} : h.run.point = .userCause .timer →
      Step h .handle (h.onTimerTick.goto .userResched)
  | userIrq {h : Hart} {c : Cause} : h.run.point = .userCause c →
      c = .device ∨ c = .software → Step h .handle (h.goto .userResched)
  | kill {h : Hart} {t : Nat} : h.run.point = .userCause .fault → h.current = some t →
      Step h .exitCurrent (h.exitCurrent t)
  | spawn {h : Hart} {t : Nat} {u : Bool} : h.run.point.isBody = true → t ∉ h.tasks →
      Step h (.admitTask t) (h.admitTask t u newUser)
  | fork {h : Hart} {me t : Nat} : h.run.point = .syscall → h.current = some me →
      t ∉ h.tasks → Step h (.admitTask t) (h.admitTask t true (h.frame me))
  | exec {h : Hart} {me : Nat} : h.run.point = .syscall → h.current = some me →
      Step h .exec { h with frame := Function.update h.frame me newUser }
  | sysReturn {h : Hart} : h.run.point = .syscall →
      Step h .sysReturn ((h.setSie false).goto .userResched)
  | userResched {h : Hart} : h.run.point = .userResched →
      Step h .resched (h.reschedIfNeeded .userLeave)
  | kernelTick {h : Hart} : h.run.point = .kernelTrap .timer →
      Step h .handle (h.onTimerTick.goto .kernelResched)
  | kernelIrq {h : Hart} {c : Cause} : h.run.point = .kernelTrap c → c ≠ .timer →
      Step h .handle (h.goto .kernelResched)
  | kernelResched {h : Hart} : h.run.point = .kernelResched →
      Step h .resched (h.reschedIfNeeded .kernelExit)
  | kernelTrapExit {h : Hart} : h.run.point = .kernelExit →
      Step h .kernelTrapExit h.kernelTrapExit
  | yieldNow {h : Hart} : h.run.point.isBody = true →
      Step h .yieldNow (h.switchToIdle h.run.point)
  | exitCurrent {h : Hart} {t : Nat} : h.run.point.isBody = true → h.current = some t →
      Step h .exitCurrent (h.exitCurrent t)
  | switchOut {h : Hart} {t : Nat} {e : Bool} {p : Point} : h.run.point = .leaving t e p →
      Step h .switchOut (h.switchOut t e p)
  | restore {h : Hart} {e : Bool} {p : Point} : h.run.point = .switched e p →
      Step h .restore ((h.setSie (h.sstatus.sie || e)).goto p)

def system : System Hart Op := ⟨(· = boot), Step⟩

end Hart

end AlexOS
