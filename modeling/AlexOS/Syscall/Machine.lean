import AlexOS.Lib.Run
import AlexOS.Task.Process
import Mathlib.Data.Multiset.MapFold

/-!
# Processes and their system calls

`kernel/src/syscall/mod.rs` with `user_trap_handler` of `kernel/src/trap/mod.rs`.
A process runs in user mode, traps with a reference to its frame, is dispatched,
stores the return value through that reference and goes back. The calls of
several processes interleave between these steps; the work of one call is one
step, for the space it builds is its own until it returns. Trap frames are boxed,
and a block whose box was dropped can be handed out again.
-/

namespace AlexOS

open Bytes

/-! ## The interface -/

namespace Nr

def exit : Nat := 0
def write : Nat := 1
def read : Nat := 2
def yield : Nat := 3
def getpid : Nat := 4
def getppid : Nat := 5
def fork : Nat := 6
def exec : Nat := 7
def waitpid : Nat := 8
def sbrk : Nat := 9
def uptime : Nat := 10
def ps : Nat := 11

def stdin : Nat := 0
def stdout : Nat := 1
def stderr : Nat := 2

def einval : Int := -1
def enoent : Int := -2
def ebadf : Int := -3
def enomem : Int := -4
def echild : Int := -5
def efault : Int := -6
def enosys : Int := -7

end Nr

def maxStr : Nat := 256

def maxIo : Nat := 64 * 1024

def maxArgs : Nat := 32

instance neZero_word : NeZero (2 ^ 64) := ⟨by decide⟩

/-- `v as isize`. -/
def toIsize (v : Usize) : Int := if v.val < 2 ^ 63 then v.val else (v.val : Int) - 2 ^ 64

/-- `v as i32`. -/
def toI32 (v : Usize) : Int :=
  if v.val % 2 ^ 32 < 2 ^ 31 then (v.val % 2 ^ 32 : Nat) else (v.val % 2 ^ 32 : Nat) - 2 ^ 32

/-- `v as usize`. -/
def ofIsize (v : Int) : Usize := Fin.ofNat (2 ^ 64) (v % 2 ^ 64).toNat

instance neZero_registers : NeZero 32 := ⟨by decide⟩

/-- The registers a modelled function reads or writes. -/
structure TrapFrame where
  x : Fin 32 → Usize
  sepc : Nat

namespace TrapFrame

def arg (f : TrapFrame) (n : Fin 6) : Usize := f.x (10 + n.castLE (by decide))

def syscallId (f : TrapFrame) : Nat := (f.x 17).val

def setReturn (f : TrapFrame) (ret : Int) : TrapFrame :=
  { f with x := Function.update f.x 10 (ofIsize ret) }

/-- `new_user`, with `main`'s arguments in `a0` and `a1`. -/
def newUser (image : Prepared) : TrapFrame where
  x := Function.update (Function.update (Function.update (fun _ => 0) 2
    (Fin.ofNat (2 ^ 64) image.sp))
    10 (Fin.ofNat (2 ^ 64) image.argc)) 11 (Fin.ofNat (2 ^ 64) image.argv)
  sepc := image.entry

end TrapFrame

/-- The kernel's page table and the programs embedded in its image. -/
structure Config where
  kernelTable : PageTable
  programs : List (List UInt8 × List UInt8)

/-- `programs::find`, with or without a leading slash. -/
def find (cfg : Config) (name : List UInt8) : Option (List UInt8) :=
  cfg.programs.lookup (if name.head? = some 0x2f then name.tail else name)

/-! ## The calls -/

def sysWrite (mem : Mem) (p : Process) (fd ptr len : Nat) : Int :=
  if fd ≠ Nr.stdout ∧ fd ≠ Nr.stderr then Nr.ebadf
  else if maxIo < len ∨ userMaxAddr < ptr + len then Nr.efault
  else
    match p.space.bind fun space => space.copyFromUser mem ptr len with
    | none => Nr.efault
    | some _ => len

/-- `input` is what the console has buffered by the time the reader gets to it. -/
def sysRead (mem : Mem) (p : Process) (fd ptr len : Nat) (input : List UInt8) : Int × Mem :=
  if fd ≠ Nr.stdin then (Nr.ebadf, mem)
  else if len = 0 then (0, mem)
  else if maxIo < len ∨ userMaxAddr < ptr + len then (Nr.efault, mem)
  else
    match p.space with
    | none => (Nr.efault, mem)
    | some space =>
      match space.copyToUser mem ptr (input.take len) with
      | (some (), mem) => ((input.take len).length, mem)
      | (none, mem) => (Nr.efault, mem)

def sysGetppid (procs : Multiset Process) (p : Process) : Int :=
  match p.parent with
  | none => 0
  | some parent => if parent ∈ procs.map Process.pid then parent else 0

/-- The loop over `argv`, from the slot at `ptr` on. -/
def readArgsFrom (space : AddressSpace) (mem : Mem) :
    Nat → Nat → List (List UInt8) → Option (List (List UInt8))
  | 0, _, args => some args
  | n + 1, ptr, args => do
    let slot ← space.copyFromUser mem ptr 8
    if Loader.leValue slot = 0 then some args
    else
      let arg ← space.readCstr mem (Loader.leValue slot) maxStr
      readArgsFrom space mem n (ptr + 8) (args ++ [arg])

def readArgs (space : AddressSpace) (mem : Mem) (argv : Nat) : Option (List (List UInt8)) :=
  if argv = 0 then some [] else readArgsFrom space mem maxArgs argv []

def execErrno : ExecError → Int
  | .outOfMemory => Nr.enomem
  | .badImage _ => Nr.einval

variable {σ : Type}

section
variable (A : FrameAllocator σ)

def sysExec (s : Phys σ) (cfg : Config) (p : Process) (path argv : Nat) :
    Option (Except Int Prepared × Phys σ) :=
  match p.space with
  | none => some (.error Nr.efault, s)
  | some space =>
    match space.readCstr s.mem path maxStr with
    | none => some (.error Nr.efault, s)
    | some name =>
      match readArgs space s.mem argv with
      | none => some (.error Nr.efault, s)
      | some args =>
        match find cfg name with
        | none => some (.error Nr.enoent, s)
        | some image =>
          (execCurrent A s cfg.kernelTable p image args).map fun (res, s) =>
            (res.mapError execErrno, s)

end

/-- Whether `waitpid(want)` asks for the child `c`. -/
def isMatch (want : Int) (c : Nat) : Bool := want < 0 || (c : Int) == want

/-- `any_children`. -/
def anyChildren (want : Int) (children : List Nat) : Bool :=
  if want < 0 then !children.isEmpty else children.any fun c => (c : Int) == want

/-- The scan's last look finds a child to wait for exactly when one is asked for. -/
theorem anyChildren_eq (want : Int) (cs : List Nat) :
    anyChildren want cs = false ↔ ∀ c ∈ cs, isMatch want c = false := by
  unfold anyChildren isMatch
  by_cases hw : want < 0
  · cases cs with
    | nil => simp
    | cons c cs =>
      refine iff_of_false (by simp [hw]) fun h => ?_
      simpa [hw] using h c List.mem_cons_self
  · simp [hw]

/-- The exit status a reaped child leaves at `ptr`, if it can be stored there. -/
def storeStatus (mem : Mem) (space : Option AddressSpace) (ptr : Nat) (code : Int) : Mem :=
  if ptr = 0 then mem
  else
    match space with
    | none => mem
    | some space => (space.copyToUser mem ptr (leBytes (code % 2 ^ 32).toNat 4)).2

/-! ## The machine -/

structure Machine (σ : Type) where
  phys : Phys σ
  kernel : Multiset Frame
  procs : Multiset Process
  boxes : Nat → Option TrapFrame
  nextPid : Nat

namespace Machine

/-- A store through a reference to a trap frame; nobody reads a dead block. -/
def writeBox (boxes : Nat → Option TrapFrame) (b : Nat) (g : TrapFrame → TrapFrame) :
    Nat → Option TrapFrame :=
  Function.update boxes b ((boxes b).map g)

/-- A process made by `new_user`. -/
def start (m : Machine σ) (image : Prepared) (kstack : Frame) (b : Nat) : Process where
  pid := m.nextPid
  point := .user b
  space := some image.space
  frame := b
  kstack := kstack
  brk := max image.brk userHeapBase
  heapTop := max image.brk userHeapBase
  exitCode := 0
  parent := none
  children := []

/-- A process made by `fork_from`. -/
def child (m : Machine σ) (p : Process) (space : AddressSpace) (kstack : Frame) (b : Nat) :
    Process where
  pid := m.nextPid
  point := .user b
  space := some space
  frame := b
  kstack := kstack
  brk := p.brk
  heapTop := p.heapTop
  exitCode := 0
  parent := some p.pid
  children := []

inductive Op where
  | sbrk (p : Process) (delta : Int)
  | exec (p : Process) (path argv : Nat)
  | other

/-- What a call that changes nothing returns. -/
inductive Answers (m : Machine σ) (p : Process) (f : TrapFrame) : Int → Prop where
  | write : f.syscallId = Nr.write →
      Answers m p f (sysWrite m.phys.mem p (f.arg 0) (f.arg 1) (f.arg 2))
  | yield : f.syscallId = Nr.yield → Answers m p f 0
  | getpid : f.syscallId = Nr.getpid → Answers m p f p.pid
  | getppid : f.syscallId = Nr.getppid → Answers m p f (sysGetppid m.procs p)
  | noChild : f.syscallId = Nr.waitpid →
      (∀ c ∈ p.children, isMatch (toIsize (f.arg 0)) c = false) →
      Answers m p f Nr.echild
  | uptime (ms : Nat) : f.syscallId = Nr.uptime → Answers m p f ms
  | ps : f.syscallId = Nr.ps → Answers m p f 0
  | unknown : Nr.ps < f.syscallId → Answers m p f Nr.enosys

/-- `p` was dispatched with the frame `f` in the block `b`. -/
structure Calls (m : Machine σ) (p : Process) (ps : Multiset Process) (b : Nat) (f : TrapFrame)
    (id : Nat) : Prop where
  here : m.procs = p ::ₘ ps
  point : p.point = .dispatch b
  box : m.boxes b = some f
  call : f.syscallId = id

section
variable (A : FrameAllocator σ) (cfg : Config)

inductive Step : Machine σ → Op → Machine σ → Prop where
  | newUser {m : Machine σ} {image : List UInt8} {args : List (List UInt8)} {i : Prepared}
      {k : Frame} {s : Phys σ} {b : Nat} :
      newUser A m.phys cfg.kernelTable image args = some (some (i, k), s) → m.boxes b = none →
      Step m .other { m with
        phys := s
        procs := m.start i k b ::ₘ m.procs
        boxes := Function.update m.boxes b (some (.newUser i))
        nextPid := m.nextPid + 1 }
  | noUser {m : Machine σ} {image : List UInt8} {args : List (List UInt8)} {s : Phys σ} :
      newUser A m.phys cfg.kernelTable image args = some (none, s) →
      Step m .other { m with phys := s }
  /-- The kernel allocates, frees and writes what it holds itself. -/
  | kernel {m : Machine σ} {kernel : Multiset Frame} {s : Phys σ} :
      A.Holds s (kernel + (m.procs.map Process.frames).sum) →
      Kept (m.procs.map Process.frames).sum m.phys.mem s.mem →
      Step m .other { m with phys := s, kernel := kernel }
  /-- User code stores a byte through an entry that lets it. -/
  | store {m : Machine σ} {p : Process} {ps : Multiset Process} {space : AddressSpace}
      {b va level pte : Nat} {byte : UInt8} :
      m.procs = p ::ₘ ps → p.point = .user b → p.space = some space → va < userMaxAddr →
      leafPte m.phys.mem (indices (pageNum va)) space.table.root = some (level, pte) →
      PteFlags.contains (Pte.flags pte) (PteFlags.write ||| PteFlags.user) = true →
      Step m .other { m with
        phys := { m.phys with mem := Function.update m.phys.mem (physAddr level pte va) byte } }
  /-- `user_trap_entry` saves the registers, and `sepc` is advanced past the `ecall`. -/
  | ecall {m : Machine σ} {p : Process} {ps : Multiset Process} {b sepc : Nat}
      {x : Fin 32 → Usize} : m.procs = p ::ₘ ps → p.point = .user b →
      Step m .other { m with
        procs := { p with point := .dispatch b } ::ₘ ps
        boxes := writeBox m.boxes b fun _ => ⟨x, sepc + 4⟩ }
  | fault {m : Machine σ} {p p' : Process} {ps : Multiset Process} {b : Nat} {s : Phys σ} :
      m.procs = p ::ₘ ps → p.point = .user b →
      exitCurrent A m.phys p (-11) = some (s, p') →
      Step m .other { m with phys := s, procs := p' ::ₘ ps }
  | exit {m : Machine σ} {p p' : Process} {ps : Multiset Process} {b : Nat} {f : TrapFrame}
      {s : Phys σ} : m.Calls p ps b f Nr.exit →
      exitCurrent A m.phys p (toI32 (f.arg 0)) = some (s, p') →
      Step m .other { m with phys := s, procs := p' ::ₘ ps }
  | answer {m : Machine σ} {p : Process} {ps : Multiset Process} {b : Nat} {f : TrapFrame}
      {ret : Int} : m.Calls p ps b f f.syscallId → m.Answers p f ret →
      Step m .other { m with procs := { p with point := .setReturn b ret } ::ₘ ps }
  | read {m : Machine σ} {p : Process} {ps : Multiset Process} {b : Nat} {f : TrapFrame}
      {input : List UInt8} {ret : Int} {mem : Mem} : m.Calls p ps b f Nr.read →
      sysRead m.phys.mem p (f.arg 0) (f.arg 1) (f.arg 2) input = (ret, mem) →
      Step m .other { m with
        phys := { m.phys with mem := mem }
        procs := { p with point := .setReturn b ret } ::ₘ ps }
  | fork {m : Machine σ} {p : Process} {ps : Multiset Process} {b c : Nat} {f : TrapFrame}
      {space : AddressSpace} {k : Frame} {s : Phys σ} : m.Calls p ps b f Nr.fork →
      forkFrom A m.phys cfg.kernelTable p = some (some (space, k), s) → m.boxes c = none →
      Step m .other { m with
        phys := s
        procs := m.child p space k c ::ₘ
          { p with
            children := p.children ++ [m.nextPid]
            point := .setReturn b m.nextPid } ::ₘ ps
        boxes := Function.update m.boxes c (some (f.setReturn 0))
        nextPid := m.nextPid + 1 }
  | noFork {m : Machine σ} {p : Process} {ps : Multiset Process} {b : Nat} {f : TrapFrame}
      {s : Phys σ} : m.Calls p ps b f Nr.fork →
      forkFrom A m.phys cfg.kernelTable p = some (none, s) →
      Step m .other { m with
        phys := s
        procs := { p with point := .setReturn b Nr.enomem } ::ₘ ps }
  /-- The new frame is boxed before the old one is dropped. -/
  | exec {m : Machine σ} {p : Process} {ps : Multiset Process} {b c : Nat} {f : TrapFrame}
      {i : Prepared} {s : Phys σ} : m.Calls p ps b f Nr.exec →
      sysExec A m.phys cfg p (f.arg 0) (f.arg 1) = some (.ok i, s) → m.boxes c = none →
      Step m (.exec p (f.arg 0) (f.arg 1)) { m with
        phys := s
        procs := { p.install i c with point := .setReturn b 0 } ::ₘ ps
        boxes := Function.update (Function.update m.boxes c (some (.newUser i))) p.frame none }
  | noExec {m : Machine σ} {p : Process} {ps : Multiset Process} {b : Nat} {f : TrapFrame}
      {errno : Int} {s : Phys σ} : m.Calls p ps b f Nr.exec →
      sysExec A m.phys cfg p (f.arg 0) (f.arg 1) = some (.error errno, s) →
      Step m (.exec p (f.arg 0) (f.arg 1)) { m with
        phys := s
        procs := { p with point := .setReturn b errno } ::ₘ ps }
  /-- A zombie among the children is reaped; its last reference goes on the way out. -/
  | waitpid {m : Machine σ} {p c : Process} {ps : Multiset Process} {b : Nat} {f : TrapFrame}
      {s : Phys σ} : m.Calls p (c ::ₘ ps) b f Nr.waitpid → c.pid ∈ p.children →
      c.point = .zombie → isMatch (toIsize (f.arg 0)) c.pid = true →
      c.drop A { m.phys with mem := storeStatus m.phys.mem p.space (f.arg 1) c.exitCode } = some s →
      Step m .other { m with
        phys := s
        procs := { p with
          children := p.children.erase c.pid
          point := .setReturn b c.pid } ::ₘ ps
        boxes := Function.update m.boxes c.frame none }
  | sbrk {m : Machine σ} {p p' : Process} {ps : Multiset Process} {b : Nat} {f : TrapFrame}
      {res : Option Nat} {s : Phys σ} : m.Calls p ps b f Nr.sbrk →
      adjustBrk A m.phys p (toIsize (f.arg 0)) = some (res, s, p') →
      Step m (.sbrk p (toIsize (f.arg 0))) { m with
        phys := s
        procs := { p' with point := .setReturn b (res.elim Nr.enomem Nat.cast) } ::ₘ ps }
  /-- `frame.set_return(ret)`, and the way out re-reads the task's frame. -/
  | setReturn {m : Machine σ} {p : Process} {ps : Multiset Process} {b : Nat} {ret : Int} :
      m.procs = p ::ₘ ps → p.point = .setReturn b ret →
      Step m .other { m with
        procs := { p with point := .user p.frame } ::ₘ ps
        boxes := writeBox m.boxes b fun f => f.setReturn ret }
  /-- A zombie nobody can wait for goes with its last reference. -/
  | orphan {m : Machine σ} {p : Process} {ps : Multiset Process} {s : Phys σ} :
      m.procs = p ::ₘ ps → p.point = .zombie →
      (∀ q ∈ ps, p.parent ≠ some q.pid) → p.drop A m.phys = some s →
      Step m .other { m with
        phys := s
        procs := ps
        boxes := Function.update m.boxes p.frame none }

def system : System (Machine σ) Op where
  init m := A.Holds m.phys m.kernel ∧ m.procs = 0 ∧ m.boxes = fun _ => none
  step := Step A cfg

end

end Machine

end AlexOS
