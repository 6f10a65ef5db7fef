import AlexOS.Loader

/-!
# User processes

`kernel/src/task/process.rs`: building an image, `fork`, `exec` and the program
break, over the part of a task that a user process has. `none` is a panic.
-/

namespace AlexOS

open Bytes

def userStackTop : Nat := 0x3ffffff000

def userStackSize : Nat := 256 * 1024

def userHeapBase : Nat := 0x10000000

/-- `order_for(KERNEL_STACK_SIZE / PAGE_SIZE)`. -/
def kernelStackOrder : Nat := 3

def stackCanary : Nat := 0xC0DECAFEDEADBEEF

inductive ExecError where
  | badImage (e : Loader.LoadError)
  | outOfMemory
deriving DecidableEq, Repr

/-- What `exec` and `new_user` have built before they commit to it. -/
structure Prepared where
  space : AddressSpace
  entry : Nat
  brk : Nat
  sp : Nat
  argc : Nat
  argv : Nat

/-! ## The user stack -/

/-- `usize::to_le_bytes`. -/
def leBytes (v : Nat) : Nat → List UInt8
  | 0 => []
  | n + 1 => UInt8.ofNat v :: leBytes (v / 256) n

@[simp] theorem length_leBytes (v n : Nat) : (leBytes v n).length = n := by
  induction n generalizing v with
  | zero => rfl
  | succ n ih => rw [leBytes, List.length_cons, ih]

/-- The strings of `push_args`, each with its NUL and aligned to eight; returns
the stack pointer and where each one went. -/
def pushStrings (space : AddressSpace) :
    List (List UInt8) → Mem → Nat → List Nat → Option (Option (Nat × List Nat) × Mem)
  | [], mem, sp, pointers => some (some (sp, pointers), mem)
  | arg :: args, mem, sp, pointers =>
    if sp < arg.length + 1 then none
    else
      let sp := (sp - (arg.length + 1)) / 8 * 8
      match space.copyToUser mem sp arg with
      | (none, mem) => some (none, mem)
      | (some (), mem) =>
        match space.copyToUser mem (sp + arg.length) [0] with
        | (none, mem) => some (none, mem)
        | (some (), mem) => pushStrings space args mem sp (pointers ++ [sp])

/-- Words stored one after another: the pointers, then the NULL. -/
def pushWords (space : AddressSpace) : List Nat → Mem → Nat → Option Unit × Mem
  | [], mem, _ => (some (), mem)
  | w :: ws, mem, addr =>
    match space.copyToUser mem addr (leBytes w 8) with
    | (none, mem) => (none, mem)
    | (some (), mem) => pushWords space ws mem (addr + 8)

def pushArgs (space : AddressSpace) (mem : Mem) (sp : Nat) (args : List (List UInt8)) :
    Option (Option (Nat × Nat × Nat) × Mem) := do
  match ← pushStrings space args mem sp [] with
  | (none, mem) => some (none, mem)
  | (some (sp, pointers), mem) =>
    if sp < (pointers.length + 1) * 8 then none
    else
      let argv := (sp - (pointers.length + 1) * 8) / 16 * 16
      match pushWords space (pointers ++ [0]) mem argv with
      | (none, mem) => some (none, mem)
      | (some (), mem) => some (some (argv, pointers.length, argv), mem)

variable {σ : Type} (A : FrameAllocator σ)

def mapUserStack (s : Phys σ) (space : AddressSpace) :
    Option (Option Nat × Phys σ × AddressSpace) := do
  let r ← Region.new (userStackTop - userStackSize) userStackTop .framed
    (PteFlags.rw ||| PteFlags.user)
  match ← space.push A s r with
  | (.ok (), s, space) => some (some userStackTop, s, space)
  | (.error _, s, space) => some (none, s, space)

/-- The statements `exec_current` and `new_user` begin with: load, stack, arguments.
The space is dropped when one of them fails. -/
def prepare (s : Phys σ) (kernel : PageTable) (image : List UInt8) (args : List (List UInt8)) :
    Option (Except ExecError Prepared × Phys σ) := do
  match ← Loader.load A s kernel image with
  | (.error e, s) => some (.error (.badImage e), s)
  | (.ok loaded, s) =>
    match ← mapUserStack A s loaded.space with
    | (none, s, space) =>
      let s ← space.drop A s
      some (.error .outOfMemory, s)
    | (some top, s, space) =>
      match ← pushArgs space s.mem top args with
      | (none, mem) =>
        let s ← space.drop A { s with mem := mem }
        some (.error .outOfMemory, s)
      | (some (sp, argc, argv), mem) =>
        some (.ok ⟨space, loaded.entry, loaded.brk, sp, argc, argv⟩, { s with mem := mem })

/-- `KernelStack::new`, with the canary at its low end. -/
def kernelStackNew (s : Phys σ) : Option Frame × Phys σ :=
  match A.allocOrder s kernelStackOrder with
  | (none, s) => (none, s)
  | (some f, s) => (some f, { s with mem := write64 s.mem (baseAddr f.ppn) stackCanary })

/-! ## Processes -/

/-- Where a process is: in user mode with a frame in `sscratch`, in the handler
with a reference to a frame, about to store a return value through it, or done. -/
inductive Process.Point where
  | user (sscratch : Nat)
  | dispatch (frame : Nat)
  | setReturn (frame : Nat) (ret : Int)
  | zombie
deriving DecidableEq, Repr

/-- `frame` names the heap block of the boxed trap frame. -/
structure Process where
  pid : Nat
  point : Process.Point
  space : Option AddressSpace
  frame : Nat
  kstack : Frame
  brk : Nat
  heapTop : Nat
  exitCode : Int
  parent : Option Nat
  children : List Nat

/-- All a process holds: its kernel stack and its space's frames. -/
def Process.frames (p : Process) : Multiset Frame :=
  p.kstack ::ₘ p.space.elim 0 AddressSpace.frames

def newUser (s : Phys σ) (kernel : PageTable) (image : List UInt8) (args : List (List UInt8)) :
    Option (Option (Prepared × Frame) × Phys σ) := do
  match ← prepare A s kernel image args with
  | (.error _, s) => some (none, s)
  | (.ok image, s) =>
    match kernelStackNew A s with
    | (none, s) =>
      let s ← image.space.drop A s
      some (none, s)
    | (some kstack, s) => some (some (image, kstack), s)

/-- The space and the kernel stack of the child. -/
def forkFrom (s : Phys σ) (kernel : PageTable) (parent : Process) :
    Option (Option (AddressSpace × Frame) × Phys σ) :=
  match parent.space with
  | none => some (none, s)
  | some space => do
    match ← space.duplicate A s kernel with
    | (none, s) => some (none, s)
    | (some child, s) =>
      match kernelStackNew A s with
      | (none, s) =>
        let s ← child.drop A s
        some (none, s)
      | (some kstack, s) => some (some (child, kstack), s)

/-- The process with the new image, whose frame is the block `frame`. -/
def Process.install (p : Process) (image : Prepared) (frame : Nat) : Process :=
  { p with
    space := some image.space
    frame := frame
    brk := max image.brk userHeapBase
    heapTop := max image.brk userHeapBase }

/-- The old space is dropped once the new one is installed. -/
def execCurrent (s : Phys σ) (kernel : PageTable) (p : Process) (image : List UInt8)
    (args : List (List UInt8)) : Option (Except ExecError Prepared × Phys σ) := do
  match ← prepare A s kernel image args with
  | (.error e, s) => some (.error e, s)
  | (.ok image, s) =>
    match p.space with
    | none => some (.ok image, s)
    | some old =>
      let s ← old.drop A s
      some (.ok image, s)

/-- The break a call asks for, when it is one the heap can have. -/
def newBreak (p : Process) (delta : Int) : Option Nat :=
  let new := p.brk + delta
  if userHeapBase ≤ new ∧ new < userMaxAddr then some new.toNat else none

/-- The answer is the old break. -/
def adjustBrk (s : Phys σ) (p : Process) (delta : Int) :
    Option (Option Nat × Phys σ × Process) :=
  if delta = 0 then some (some p.brk, s, p)
  else
    match newBreak p delta with
    | none => some (none, s, p)
    | some new =>
      if p.heapTop < new then
        let top := nextMultipleOf new pageSize
        match p.space with
        | none => some (none, s, p)
        | some space => do
          let r ← Region.new p.heapTop top .framed (PteFlags.rw ||| PteFlags.user)
          match ← space.push A s r with
          | (.error _, s, space) => some (none, s, { p with space := some space })
          | (.ok (), s, space) =>
            some (some p.brk, s, { p with space := some space, heapTop := top, brk := new })
      else some (some p.brk, s, { p with brk := new })

/-- The last reference to a task goes: its kernel stack, then its space if it has one. -/
def Process.drop (s : Phys σ) (p : Process) : Option (Phys σ) := do
  let s ← A.free s p.kstack
  match p.space with
  | none => some s
  | some space => space.drop A s

/-- The space a process leaves behind in `exit_current`. -/
def exitCurrent (s : Phys σ) (p : Process) (code : Int) : Option (Phys σ × Process) :=
  let exited := { p with space := none, exitCode := code, point := .zombie }
  match p.space with
  | none => some (s, exited)
  | some space => do
    let s ← space.drop A s
    some (s, exited)

end AlexOS
