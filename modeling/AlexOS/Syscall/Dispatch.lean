import AlexOS.Mm.FrameChecked
import AlexOS.Syscall.BadPointer
import AlexOS.Syscall.Isolation
import AlexOS.Task.Checked
import AlexOS.Task.Placement

/-!
# Dispatch with overflow checks on

`dispatch` of `kernel/src/syscall/mod.rs` with all that the calls do: what they read
from user memory, the image and the spaces they build and drop, the tasks they wake
and the switch to the idle context. `none` is a panic. Whatever a program asks for,
there is none, and none follows when the scheduler goes on.
-/

namespace AlexOS.Dispatch

open Bytes Checked PageTable AddressSpace

/-! ## The kernel -/

/-- `strong` counts the references to a task. The wait queues are those of the console
and of each task's children. -/
structure Kernel (σ : Type) extends UserPointers.State σ where
  sched : Sched
  spawned : Nat
  nextPid : Nat
  time : Nat
  strong : Nat → Nat
  readers : List Nat
  childExit : Nat → List Nat

/-- What a call does when it is switched to again: return, look again, or it never is. -/
inductive Resume where
  | returns (ret : Int)
  | again
  | never

inductive Outcome (σ : Type) where
  | returns (ret : Int) (k : Kernel σ)
  | switched (resume : Resume) (k : Kernel σ)

def Outcome.kernel {σ : Type} : Outcome σ → Kernel σ
  | .returns _ k => k
  | .switched _ k => k

structure Programs where
  kernelTable : PageTable
  programs : List (List UInt8 × Slice)

def Programs.config (ps : Programs) : Config :=
  ⟨ps.kernelTable, ps.programs.map fun p => (p.1, p.2.bytes)⟩

def findChecked (ps : Programs) (name : List UInt8) : Option Slice :=
  ps.programs.lookup (if name.head? = some 0x2f then name.tail else name)

def timerFreq : Nat := 10000000

/-! ## Scheduling -/

/-- `wake`, both critical sections. -/
def wakeTask (c : Ctx) (s : Sched) (t : Nat) : Sched :=
  let s := s.wake c t
  match s.wakes c with
  | none => s
  | some (u, level) => s.finishWake c u level

def wakeAll (c : Ctx) (s : Sched) (waiters : List Nat) : Sched := waiters.foldl (wakeTask c) s

section
variable {σ : Type}

def currentTask (k : Kernel σ) : Option Process := k.sched.current.map fun _ => k.task

/-- The canary is looked at on the way. -/
def switchToIdle (k : Kernel σ) (state : TaskState) : Option (Kernel σ) := do
  let _ ← k.sched.current
  if read64 k.phys.mem (baseAddr k.task.kstack.ppn) = stackCanary then
    some { k with sched := k.sched.switchToIdle state }
  else none

/-- `WaitQueue::wait` up to the switch, on the queue that `enqueue` puts the task on. -/
def wait (k : Kernel σ) (enqueue : Process → Kernel σ → Kernel σ) : Option (Outcome σ) := do
  let task ← currentTask k
  let k := { k with strong := Function.update k.strong task.pid (k.strong task.pid + 1) }
  let k ← switchToIdle (enqueue task k) .blocked
  some (.switched .again k)

def onExit (k : Kernel σ) : Kernel σ :=
  match k.task.parent with
  | none => k
  | some parent =>
    if 0 < k.strong parent then
      { k with
        sched := wakeAll (some k.task.pid) k.sched (k.childExit parent)
        childExit := Function.update k.childExit parent [] }
    else k

/-! ## User memory -/

def readUserBuf (k : Kernel σ) (ptr len : Nat) : Option (Option (List UInt8)) :=
  if maxIo < len then some none
  else
    match add 64 ptr len with
    | none => some none
    | some last =>
      if userMaxAddr < last then some none
      else do
        let task ← currentTask k
        match task.space with
        | none => some none
        | some space => space.copyFromUserChecked k.phys.mem ptr len

/-- The loop over `argv`, at its `i`-th slot. -/
def readArgsFromChecked (space : AddressSpace) (mem : Mem) (argv : Nat) :
    Nat → Nat → List (List UInt8) → Option (Option (List (List UInt8)))
  | 0, _, args => some (some args)
  | n + 1, i, args => do
    let offset ← mul 64 i 8
    let addr ← add 64 argv offset
    match ← space.copyFromUserChecked mem addr 8 with
    | none => some none
    | some slot =>
      if Loader.leValue slot = 0 then some (some args)
      else
        match ← space.readCstrChecked mem (Loader.leValue slot) maxStr with
        | none => some none
        | some arg => readArgsFromChecked space mem argv n (i + 1) (args ++ [arg])

def readArgsChecked (space : AddressSpace) (mem : Mem) (argv : Nat) :
    Option (Option (List (List UInt8))) :=
  if argv = 0 then some (some []) else readArgsFromChecked space mem argv maxArgs 0 []

def storeStatusChecked (mem : Mem) (space : Option AddressSpace) (ptr : Nat) (code : Int) :
    Option Mem :=
  if ptr = 0 then some mem
  else
    match space with
    | none => some mem
    | some space =>
      (space.copyToUserChecked mem ptr (leBytes (code % 2 ^ 32).toNat 4)).map Prod.snd

/-! ## The calls -/

def sysWrite (k : Kernel σ) (fd ptr len : Nat) : Option (Outcome σ) :=
  if fd ≠ Nr.stdout ∧ fd ≠ Nr.stderr then some (.returns Nr.ebadf k)
  else do
    match ← readUserBuf k ptr len with
    | none => some (.returns Nr.efault k)
    | some buf => some (.returns len { k with output := k.output ++ UserPointers.crlf buf })

/-- What `sys_read` does with what was buffered. -/
def deliver (k : Kernel σ) (ptr : Nat) (buf : List UInt8) : Option (Outcome σ) := do
  let task ← currentTask k
  match task.space with
  | none => some (.returns Nr.efault k)
  | some space =>
    match ← space.copyToUserChecked k.phys.mem ptr buf with
    | (some (), mem) => some (.returns buf.length { k with phys := { k.phys with mem := mem } })
    | (none, mem) => some (.returns Nr.efault { k with phys := { k.phys with mem := mem } })

def sysRead (k : Kernel σ) (fd ptr len : Nat) : Option (Outcome σ) :=
  if fd ≠ Nr.stdin then some (.returns Nr.ebadf k)
  else if len = 0 then some (.returns 0 k)
  else if maxIo < len then some (.returns Nr.efault k)
  else
    match add 64 ptr len with
    | none => some (.returns Nr.efault k)
    | some last =>
      if userMaxAddr < last then some (.returns Nr.efault k)
      else if k.ring.isEmpty then
        wait k fun task k => { k with readers := k.readers ++ [task.pid] }
      else deliver { k with ring := (k.ring.drain len).2 } ptr (k.ring.drain len).1

def sysGetppid (k : Kernel σ) : Option (Outcome σ) := do
  let task ← currentTask k
  match task.parent with
  | none => some (.returns 0 k)
  | some parent => some (.returns (if 0 < k.strong parent then parent else 0) k)

def uptimeMs (k : Kernel σ) : Option Nat := (mul 64 k.time 1000).map (· / timerFreq)

variable (A : FrameAllocator σ) (ps : Programs)

/-- The `Arc`s to the tasks of a list are dropped, and with the last one the task: its
kernel stack, its space, and then the references to its children. -/
def release (s : Phys σ) (strong : Nat → Nat) (tasks : List Process) :
    List Nat → Option (Phys σ × (Nat → Nat) × List Process)
  | [] => some (s, strong, tasks)
  | pid :: pids =>
    let left := Function.update strong pid (strong pid - 1)
    if left pid ≠ 0 then release s left tasks pids
    else
      match _found : tasks.find? fun t => t.pid = pid with
      | none => release s left tasks pids
      | some t => do
        let s ← t.dropChecked A s
        release s left (tasks.eraseP fun t => t.pid = pid) (t.children ++ pids)
termination_by pids => (tasks.length, pids.length)
decreasing_by
  · exact Prod.Lex.right _ (Nat.lt_add_one _)
  · exact Prod.Lex.right _ (Nat.lt_add_one _)
  · refine Prod.Lex.left _ _ ?_
    have hmem := List.mem_of_find?_eq_some _found
    rw [List.length_eraseP_of_mem hmem (List.find?_some _found)]
    exact Nat.sub_one_lt (List.length_pos_of_mem hmem).ne'

def sysExit (k : Kernel σ) (code : Int) : Option (Outcome σ) := do
  let task ← currentTask k
  let (s, task) ← exitCurrentChecked A k.phys task code
  let k ← switchToIdle (onExit { k with phys := s, task := task }) .zombie
  some (.switched .never k)

def child (parent : Process) (pid : Nat) (space : AddressSpace) (kstack : Frame) (b : Nat) :
    Process :=
  { parent with
    pid := pid
    point := .user b
    space := some space
    frame := b
    kstack := kstack
    exitCode := 0
    parent := some parent.pid
    children := [] }

/-- The child is referred to by its parent and by the run queue. -/
def sysFork (k : Kernel σ) (b : Nat) : Option (Outcome σ) := do
  let parent ← currentTask k
  match ← forkFromChecked A k.phys ps.kernelTable parent with
  | (none, s) => some (.returns Nr.enomem { k with phys := s })
  | (some (space, kstack), s) =>
    let spawned ← add 64 k.spawned 1
    some (.returns k.nextPid { k with
      phys := s
      task := { parent with children := parent.children ++ [k.nextPid] }
      others := child parent k.nextPid space kstack b :: k.others
      sched := k.sched.admitTask k.nextPid
      spawned := spawned
      nextPid := (k.nextPid + 1) % 2 ^ 64
      strong := Function.update k.strong k.nextPid 2 })

def sysExecChecked (s : Phys σ) (p : Process) (path argv : Nat) :
    Option (Except Int Prepared × Phys σ) :=
  match p.space with
  | none => some (.error Nr.efault, s)
  | some space => do
    match ← space.readCstrChecked s.mem path maxStr with
    | none => some (.error Nr.efault, s)
    | some name =>
      match ← readArgsChecked space s.mem argv with
      | none => some (.error Nr.efault, s)
      | some args =>
        match findChecked ps name with
        | none => some (.error Nr.enoent, s)
        | some image =>
          (execCurrentChecked A s ps.kernelTable p image args).map fun (res, s) =>
            (res.mapError execErrno, s)

def sysExec (k : Kernel σ) (path argv b : Nat) : Option (Outcome σ) := do
  let task ← currentTask k
  match ← sysExecChecked A ps k.phys task path argv with
  | (.error e, s) => some (.returns e { k with phys := s })
  | (.ok image, s) => some (.returns 0 { k with phys := s, task := task.install image b })

def sysWaitpid (k : Kernel σ) (want : Int) (ptr : Nat) : Option (Outcome σ) := do
  let task ← currentTask k
  match UserPointers.scan k.toState want with
  | none =>
    if anyChildren want task.children then
      wait k fun task k => { k with
        childExit := Function.update k.childExit task.pid (k.childExit task.pid ++ [task.pid]) }
    else some (.returns Nr.echild k)
  | some c =>
    let child ← UserPointers.zombie k.toState c
    let mem ← storeStatusChecked k.phys.mem task.space ptr child.exitCode
    let (s, strong, others) ← release A { k.phys with mem := mem } k.strong k.others [c]
    some (.returns c { k with
      phys := s
      task := { task with children := task.children.erase c }
      others := others
      strong := strong })

def sysSbrk (k : Kernel σ) (delta : Int) : Option (Outcome σ) := do
  let task ← currentTask k
  let (res, s, task) ← adjustBrkChecked A k.phys task delta
  some (.returns (res.elim Nr.enomem Nat.cast) { k with phys := s, task := task })

/-- `b` is the block that a new trap frame is boxed in. -/
def dispatch (k : Kernel σ) (f : TrapFrame) (b : Nat) : Option (Outcome σ) :=
  let id := f.syscallId
  let a (i : Fin 3) := f.arg (i.castLE (by decide))
  if id = Nr.exit then sysExit A k (toI32 (a 0))
  else if id = Nr.write then sysWrite k (a 0) (a 1) (a 2)
  else if id = Nr.read then sysRead k (a 0) (a 1) (a 2)
  else if id = Nr.yield then (switchToIdle k .ready).map (.switched (.returns 0))
  else if id = Nr.getpid then (currentTask k).map fun task => .returns task.pid k
  else if id = Nr.getppid then sysGetppid k
  else if id = Nr.fork then sysFork A ps k b
  else if id = Nr.exec then sysExec A ps k (a 0) (a 1) b
  else if id = Nr.waitpid then sysWaitpid A k (toIsize (a 0)) (a 1)
  else if id = Nr.sbrk then sysSbrk A k (toIsize (a 0))
  else if id = Nr.uptime then (uptimeMs k).map fun ms : Nat => .returns ms k
  else if id = Nr.ps then some (.returns 0 k)
  else (currentTask k).map fun _ => .returns Nr.enosys k

end

/-! ## User memory -/

section
variable {m : Mem} {sp : AddressSpace}

theorem copyFromUser_low {va len : Nat} {bs : List UInt8} (hlen : 0 < len)
    (h : sp.copyFromUser m va len = some bs) : va < userMaxAddr := by
  obtain ⟨n, rfl⟩ := Nat.exists_eq_add_one.mpr hlen
  by_contra high
  rw [copyFromUser, copyFromUserFrom, if_neg (Nat.succ_ne_zero n),
    if_pos (Nat.not_lt.mp high)] at h
  cases h

/-- A slot is read only after the one before it, so its address fits. -/
theorem readArgsFromChecked_eq {argv n i : Nat} {args : List (List UInt8)} (h : Direct m sp)
    (hi : i + n ≤ maxArgs) (fits : argv + i * 8 < 2 ^ 64) :
    readArgsFromChecked sp m argv n i args = some (readArgsFrom sp m n (argv + i * 8) args) := by
  induction n generalizing i args with
  | zero => rfl
  | succ n ih =>
    simp only [maxArgs] at hi
    simp only [readArgsFromChecked, readArgsFrom, mul_some (show i * 8 < 2 ^ 64 by omega),
      add_some fits, copyFromUserChecked_eq h (show 8 < 2 ^ 64 by decide), Option.bind_eq_bind,
      Option.bind_some]
    rcases hslot : sp.copyFromUser m (argv + i * 8) 8 with _ | slot
    · rfl
    simp only [Option.bind_some]
    by_cases hnull : Loader.leValue slot = 0
    · rw [if_pos hnull, if_pos hnull]
    rw [if_neg hnull, if_neg hnull, readCstrChecked_eq h, Option.bind_some]
    rcases sp.readCstr m (Loader.leValue slot) maxStr with _ | arg
    · rfl
    have low := copyFromUser_low (by decide) hslot
    have hnext : argv + (i + 1) * 8 = argv + i * 8 + 8 := by omega
    rw [← hnext]
    refine ih (by simp only [maxArgs]; omega) ?_
    simp only [userMaxAddr] at low
    omega

theorem readArgsChecked_eq {argv : Nat} (h : Direct m sp) (word : argv < 2 ^ 64) :
    readArgsChecked sp m argv = some (readArgs sp m argv) := by
  rw [readArgsChecked, readArgs]
  split
  · rfl
  · exact readArgsFromChecked_eq h (Nat.le_refl _) word

theorem readArgsFrom_short {n argv : Nat} {done got : List (List UInt8)}
    (short : ∀ arg ∈ done, arg.length < maxStr) (h : readArgsFrom sp m n argv done = some got) :
    got.length ≤ done.length + n ∧ ∀ arg ∈ got, arg.length < maxStr := by
  induction n generalizing argv done with
  | zero =>
    cases h
    exact ⟨Nat.le_refl _, short⟩
  | succ n ih =>
    rw [readArgsFrom] at h
    obtain ⟨slot, -, h⟩ := Option.bind_eq_some_iff.mp h
    split at h
    · cases h
      exact ⟨by omega, short⟩
    obtain ⟨arg, harg, h⟩ := Option.bind_eq_some_iff.mp h
    obtain ⟨str, -, rfl, hlen, -⟩ := UserPointers.readCstrFrom_some harg
    obtain ⟨hcount, hshort⟩ := ih (fun a ha => by
      rcases List.mem_append.mp ha with ha | ha
      · exact short a ha
      · rw [List.mem_singleton.mp ha]
        exact hlen) h
    rw [List.length_append, List.length_singleton] at hcount
    exact ⟨by omega, hshort⟩

theorem readArgs_short {argv : Nat} {got : List (List UInt8)}
    (h : readArgs sp m argv = some got) :
    got.length ≤ maxArgs ∧ ∀ arg ∈ got, arg.length < maxStr := by
  rw [readArgs] at h
  split at h
  · cases h
    exact ⟨by decide, fun _ ha => absurd ha List.not_mem_nil⟩
  · have := readArgsFrom_short (fun _ ha => absurd ha List.not_mem_nil) h
    simpa using this

end

theorem find_config (ps : Programs) (name : List UInt8) :
    find ps.config name = (findChecked ps name).map Slice.bytes := by
  rw [find, findChecked, Programs.config]
  generalize (if name.head? = some 0x2f then name.tail else name) = key
  induction ps.programs with
  | nil => rfl
  | cons p l ih =>
    obtain ⟨name, image⟩ := p
    rcases hkey : key == name with _ | _
    · simpa only [List.map_cons, List.lookup_cons, hkey] using ih
    · simp only [List.map_cons, List.lookup_cons, hkey, Option.map_some]

/-! ## Waking -/

theorem wakeTask_placed {s : Sched} {me t : Nat} (placed : ∃ place, Sched.Inv s place)
    (runs : s.Runs me) (ht : t ∈ s.allTasks) :
    (∃ place, Sched.Inv (wakeTask (some me) s t) place) ∧ (wakeTask (some me) s t).Runs me ∧
      (wakeTask (some me) s t).allTasks = s.allTasks := by
  obtain ⟨place, inv⟩ := placed
  obtain ⟨hirq, hphase, hcurrent, hwakes⟩ := runs
  have hactor : s.actor = some (some me) := by simp [Sched.actor, hirq, hphase, hcurrent]
  obtain ⟨place', inv'⟩ := inv.wake hactor hwakes ht
  rw [wakeTask]
  by_cases blocked : (s.inner t).state = .blocked
  · have hslot : (s.wake (some me) t).wakes (some me) = some (t, (s.inner t).woken.level) := by
      simp [Sched.wake, blocked]
    simp only [hslot]
    refine ⟨⟨_, inv'.finishWake hslot⟩, ?_⟩
    simp [Sched.wake, blocked, Sched.finishWake, Sched.Runs, Sched.modify, hirq, hphase, hcurrent]
  · have hslot : (s.wake (some me) t).wakes (some me) = none := by
      simp [Sched.wake, blocked, Sched.modify, hwakes]
    simp only [hslot]
    refine ⟨⟨_, inv'⟩, ?_⟩
    simp [Sched.wake, blocked, Sched.Runs, Sched.modify, hirq, hphase, hcurrent, hwakes]

theorem wakeAll_placed {s : Sched} {me : Nat} {ts : List Nat} (placed : ∃ place, Sched.Inv s place)
    (runs : s.Runs me) (hts : ∀ t ∈ ts, t ∈ s.allTasks) :
    (∃ place, Sched.Inv (wakeAll (some me) s ts) place) ∧ (wakeAll (some me) s ts).Runs me := by
  induction ts generalizing s with
  | nil => exact ⟨placed, runs⟩
  | cons t ts ih =>
    obtain ⟨placed', runs', same⟩ := wakeTask_placed placed runs (hts t List.mem_cons_self)
    exact ih placed' runs' fun u hu => by
      rw [same]
      exact hts u (List.mem_cons_of_mem t hu)

/-! ## Releasing -/

section
variable {σ : Type} {A : CountedAllocator σ} {s : Phys σ} {rest : Multiset Frame}
  {tasks : List Process}

def framesOf (tasks : List Process) : Multiset Frame := (tasks.map Process.frames).sum

theorem framesOf_eraseP {t : Process} {p : Process → Bool} (h : tasks.find? p = some t) :
    framesOf tasks = t.frames + framesOf (tasks.eraseP p) := by
  have hcons := congrArg (fun ts => (Multiset.map Process.frames ts).sum)
    (UserPointers.find_cons_erase h)
  simpa [framesOf] using hcons

theorem release_built (strong : Nat → Nat) (pids : List Nat)
    (holds : A.Holds s (framesOf tasks + rest)) (exact : ∀ t ∈ tasks, t.Exact s.mem) :
    ∃ s' strong' tasks', release A.toFrameAllocator s strong tasks pids =
      some (s', strong', tasks') ∧ A.Holds s' (framesOf tasks' + rest) := by
  fun_induction release A.toFrameAllocator s strong tasks pids with
  | case1 => exact ⟨_, _, _, rfl, holds⟩
  | case2 _ _ _ _ _ _ _ ih => exact ih holds exact
  | case3 _ _ _ _ _ _ _ _ ih => exact ih holds exact
  | case4 s strong tasks pid pids left _ t found ih =>
    have hmem := List.mem_of_find?_eq_some found
    rw [framesOf_eraseP found, add_assoc] at holds
    obtain ⟨s₁, hdrop, holds₁, kept⟩ := Process.drop_built ⟨holds, exact t hmem⟩
    have hends : ∀ sp, t.space = some sp → sp.EndsFit := fun sp hsp =>
      (exact t hmem sp hsp).toFormed.endsFit
    rw [Process.dropChecked_eq hends, hdrop, Option.bind_eq_bind, Option.bind_some]
    refine ih s₁ holds₁ fun u hu => (exact u (List.mem_of_mem_eraseP hu)).kept (kept.mono ?_)
    exact (List.single_le_sum (by simp) _ (List.mem_map_of_mem hu)).trans
      (Multiset.le_add_right _ _)

end

/-! ## The invariants -/

section
variable {σ : Type} {A : CountedAllocator σ} {k : Kernel σ} {kernel : Multiset Frame}

/-- `kernel` is what the kernel itself holds. Every task was admitted under its own pid,
and the next one is new. -/
structure Ok (A : CountedAllocator σ) (kernel : Multiset Frame) (k : Kernel σ) : Prop where
  holds : A.Holds k.phys (k.task.frames + (framesOf k.others + kernel))
  exact : ∀ t ∈ k.task :: k.others, t.Exact k.phys.mem
  runs : k.sched.Runs k.task.pid
  placed : ∃ place, Sched.Inv k.sched place
  waiters : ∀ parent, ∀ t ∈ k.childExit parent, t ∈ k.sched.allTasks
  spawned : k.spawned = k.sched.allTasks.length
  pids : (k.nextPid :: k.sched.allTasks).Nodup
  words : ∀ pid ∈ k.nextPid :: k.sched.allTasks, 0 < pid ∧ pid < 2 ^ 64
  canary : read64 k.phys.mem (baseAddr k.task.kstack.ppn) = stackCanary
  time : k.time < 2 ^ 64 / 1000

/-- The call does not panic, and leaves the allocator and the scheduler in order. -/
def Safe (A : CountedAllocator σ) (x : Option (Outcome σ)) : Prop :=
  ∃ out, x = some out ∧ (∃ live, A.Holds out.kernel.phys live) ∧
    ∃ place, Sched.Inv out.kernel.sched place

theorem Ok.task (ok : Ok A kernel k) : k.task.Ok A k.phys (framesOf k.others + kernel) :=
  ⟨ok.holds, ok.exact k.task List.mem_cons_self⟩

theorem Ok.formed (ok : Ok A kernel k) :
    ∀ sp, k.task.space = some sp → sp.Formed k.phys.mem := fun sp hsp =>
  (ok.task.exact sp hsp).toFormed

theorem Ok.current (ok : Ok A kernel k) : currentTask k = some k.task := by
  rw [currentTask, ok.runs.2.2.1]
  rfl

theorem Ok.returns (ok : Ok A kernel k) (ret : Int) : Safe A (some (.returns ret k)) :=
  ⟨_, rfl, ⟨_, ok.holds⟩, ok.placed⟩

theorem Ok.spawned_lt (ok : Ok A kernel k) : k.spawned + 1 < 2 ^ 64 := by
  have hsub : (k.nextPid :: k.sched.allTasks).toFinset ⊆ Finset.Ioo 0 (2 ^ 64) := fun pid hpid =>
    Finset.mem_Ioo.mpr (ok.words pid (List.mem_toFinset.mp hpid))
  have hcard := Finset.card_le_card hsub
  rw [List.toFinset_card_of_nodup ok.pids, List.length_cons, Nat.card_Ioo, ← ok.spawned] at hcard
  omega

section
variable {sp : AddressSpace} (direct : A.Direct) (ok : Ok A kernel k) (hsp : k.task.space = some sp)
include direct ok hsp

theorem Ok.space_direct : Direct k.phys.mem sp :=
  (ok.task.exact sp hsp).direct (owned_low direct (ok.task.space hsp))

theorem Ok.copyToUser_eq {va : Nat} {src : List UInt8} (hlen : src.length < 2 ^ 64) :
    sp.copyToUserChecked k.phys.mem va src = some (sp.copyToUser k.phys.mem va src) :=
  copyToUserChecked_eq (ok.task.exact sp hsp) (apart_of_holds (ok.task.space hsp))
    (owned_low direct (ok.task.space hsp)) hlen

end

/-! ## Switching away -/

theorem switchToIdle_placed (state : TaskState) (runs : k.sched.Runs k.task.pid)
    (placed : ∃ place, Sched.Inv k.sched place)
    (canary : read64 k.phys.mem (baseAddr k.task.kstack.ppn) = stackCanary)
    (hstate : state ≠ .running) : ∃ k', switchToIdle k state = some k' ∧ k'.phys = k.phys ∧
      ∃ place, Sched.Inv k'.sched place := by
  obtain ⟨place, inv⟩ := placed
  refine ⟨{ k with sched := k.sched.switchToIdle state }, ?_, rfl, _,
    inv.switchToIdle runs.2.2.1 hstate⟩
  rw [switchToIdle, runs.2.2.1, Option.bind_eq_bind, Option.bind_some, if_pos canary]

theorem Ok.wait (ok : Ok A kernel k) {enqueue : Process → Kernel σ → Kernel σ}
    (same : ∀ k', (enqueue k.task k').phys = k'.phys ∧ (enqueue k.task k').task = k'.task ∧
      (enqueue k.task k').sched = k'.sched) : Safe A (wait k enqueue) := by
  rw [Dispatch.wait, ok.current, Option.bind_eq_bind, Option.bind_some]
  obtain ⟨hphys, htask, hsched⟩ :=
    same { k with strong := Function.update k.strong k.task.pid (k.strong k.task.pid + 1) }
  obtain ⟨k', heq, hphys', placed⟩ := switchToIdle_placed .blocked
    (by rw [hsched, htask]; exact ok.runs) (by rw [hsched]; exact ok.placed)
    (by rw [hphys, htask]; exact ok.canary) (by decide)
  have holds := ok.holds
  rw [← hphys'.trans hphys] at holds
  exact ⟨.switched .again k', by simp only [heq]; rfl, ⟨_, holds⟩, placed⟩

/-! ## The calls -/

theorem Ok.readUserBuf (direct : A.Direct) (ok : Ok A kernel k) (ptr len : Nat) :
    ∃ buf, readUserBuf k ptr len = some buf := by
  rw [Dispatch.readUserBuf]
  by_cases hlen : maxIo < len
  · exact ⟨none, if_pos hlen⟩
  rw [if_neg hlen]
  rcases add 64 ptr len with _ | last
  · exact ⟨none, rfl⟩
  by_cases hlast : userMaxAddr < last
  · exact ⟨none, if_pos hlast⟩
  simp only [if_neg hlast, ok.current, Option.bind_eq_bind, Option.bind_some]
  rcases hsp : k.task.space with _ | sp
  · exact ⟨none, rfl⟩
  · have hword : len < 2 ^ 64 := lt_of_le_of_lt (Nat.not_lt.mp hlen) (by decide)
    exact ⟨_, copyFromUserChecked_eq (ok.space_direct direct hsp) hword⟩

theorem Ok.sysWrite (direct : A.Direct) (ok : Ok A kernel k) (fd ptr len : Nat) :
    Safe A (sysWrite k fd ptr len) := by
  rw [Dispatch.sysWrite]
  split
  · exact ok.returns _
  obtain ⟨buf, hbuf⟩ := ok.readUserBuf direct ptr len
  rw [hbuf, Option.bind_eq_bind, Option.bind_some]
  rcases buf with _ | buf
  · exact ok.returns _
  · exact ⟨_, rfl, ⟨_, ok.holds⟩, ok.placed⟩

theorem Ok.deliver (direct : A.Direct) (ok : Ok A kernel k) (ring : RxRing) (ptr : Nat)
    {buf : List UInt8} (hlen : buf.length < 2 ^ 64) :
    Safe A (deliver { k with ring := ring } ptr buf) := by
  have hcurrent : currentTask { k with ring := ring } = some k.task := ok.current
  rw [Dispatch.deliver, hcurrent, Option.bind_eq_bind, Option.bind_some]
  rcases hsp : k.task.space with _ | sp
  · exact ⟨_, rfl, ⟨_, ok.holds⟩, ok.placed⟩
  obtain ⟨written, -⟩ := ok.task.copyToUser hsp ptr buf
  simp only [ok.copyToUser_eq direct hsp hlen]
  rcases hcopy : sp.copyToUser k.phys.mem ptr buf with ⟨_ | ⟨⟩, mem⟩
  all_goals
    rw [hcopy] at written
    exact ⟨_, rfl, ⟨_, written.holds⟩, ok.placed⟩

theorem Ok.sysRead (direct : A.Direct) (ok : Ok A kernel k) (fd ptr len : Nat) :
    Safe A (sysRead k fd ptr len) := by
  rw [Dispatch.sysRead]
  split
  · exact ok.returns _
  split
  · exact ok.returns _
  split
  · exact ok.returns _
  rename_i hlen
  split
  · exact ok.returns _
  split
  · exact ok.returns _
  split
  · exact ok.wait fun _ => ⟨rfl, rfl, rfl⟩
  · refine ok.deliver direct _ ptr ?_
    have hcount := (k.ring.drain_used len).1
    have : maxIo < 2 ^ 64 := by decide
    omega

theorem Ok.sysGetppid (ok : Ok A kernel k) : Safe A (sysGetppid k) := by
  rw [Dispatch.sysGetppid, ok.current, Option.bind_eq_bind, Option.bind_some]
  rcases k.task.parent with _ | parent
  · exact ok.returns _
  · exact ok.returns _

theorem Ok.uptimeMs (ok : Ok A kernel k) : ∃ ms, uptimeMs k = some ms := by
  have := ok.time
  exact ⟨_, by rw [Dispatch.uptimeMs, mul_some (by omega), Option.map_some]⟩

theorem canary_kept {m m' : Mem} {kstack : Frame} {rest : Multiset Frame}
    (kept : Kept (kstack ::ₘ rest) m m') :
    read64 m' (baseAddr kstack.ppn) = read64 m (baseAddr kstack.ppn) := by
  refine read64_congr fun x lo hi => kept x ?_
  have hpage : pageNum x = kstack.ppn := by
    simp only [baseAddr, pageNum, pageSize] at *
    omega
  rw [hpage]
  exact framesOver_of_mem (Multiset.mem_cons_self kstack rest) (Nat.le_refl _)
    (Nat.lt_add_of_pos_right (Nat.two_pow_pos _))

theorem onExit_phys (k : Kernel σ) : (onExit k).phys = k.phys ∧ (onExit k).task = k.task := by
  unfold onExit
  split
  · exact ⟨rfl, rfl⟩
  · split <;> exact ⟨rfl, rfl⟩

theorem onExit_placed (runs : k.sched.Runs k.task.pid) (placed : ∃ place, Sched.Inv k.sched place)
    (waiters : ∀ parent, ∀ t ∈ k.childExit parent, t ∈ k.sched.allTasks) :
    (∃ place, Sched.Inv (onExit k).sched place) ∧ (onExit k).sched.Runs k.task.pid := by
  unfold onExit
  split
  · exact ⟨placed, runs⟩
  · split
    · exact wakeAll_placed placed runs (waiters _)
    · exact ⟨placed, runs⟩

/-- The kernel stack is still held when its canary is looked at for the last time. -/
theorem Ok.sysExit (ok : Ok A kernel k) (code : Int) :
    Safe A (sysExit A.toFrameAllocator k code) := by
  obtain ⟨s, hexit, holds, kept⟩ := exitCurrent_built ok.task code
  rw [Dispatch.sysExit, ok.current, Option.bind_eq_bind, Option.bind_some,
    exitCurrentChecked_eq ok.formed, hexit, Option.bind_eq_bind, Option.bind_some]
  generalize hk : ({ k with
    phys := s
    task := { k.task with space := none, exitCode := code, point := .zombie } } : Kernel σ) = gone
  obtain ⟨hphys, htask⟩ := onExit_phys gone
  obtain ⟨placed, runs⟩ := onExit_placed (k := gone) (by rw [← hk]; exact ok.runs)
    (by rw [← hk]; exact ok.placed) (by rw [← hk]; exact ok.waiters)
  obtain ⟨k', heq, hphys', placed'⟩ := switchToIdle_placed (k := onExit gone) .zombie
    (by rw [htask]; exact runs) placed
    (by rw [hphys, htask, ← hk]; exact (canary_kept kept).trans ok.canary) (by decide)
  have hs : k'.phys = s := by rw [hphys', hphys, ← hk]
  rw [← hs] at holds
  refine ⟨.switched .never k', ?_, ⟨_, holds⟩, placed'⟩
  rw [← hk] at heq
  exact congrArg (fun x => x.bind fun k => some (Outcome.switched .never k)) heq

theorem Ok.sysFork (direct : A.Direct) (ok : Ok A kernel k) (ps : Programs) (b : Nat) :
    Safe A (sysFork A.toFrameAllocator ps k b) := by
  obtain ⟨res, s, hfork, born, -⟩ :=
    forkFrom_built ps.kernelTable ok.holds ok.task.exact.users
  rw [Dispatch.sysFork, ok.current, Option.bind_eq_bind, Option.bind_some,
    forkFromChecked_eq direct ok.holds ok.task.exact.users, hfork, Option.bind_eq_bind,
    Option.bind_some]
  rcases res with _ | ⟨space, kstack⟩
  · exact ⟨_, rfl, ⟨_, born⟩, ok.placed⟩
  · obtain ⟨place, inv⟩ := ok.placed
    have fresh := (List.nodup_cons.mp ok.pids).1
    simp only [add_some ok.spawned_lt]
    exact ⟨_, rfl, ⟨_, born.1⟩, _, inv.admitTask fresh⟩

theorem Ok.sysExecChecked_eq (direct : A.Direct) (ok : Ok A kernel k) (ps : Programs) (path : Nat)
    {argv : Nat} (word : argv < 2 ^ 64) :
    sysExecChecked A.toFrameAllocator ps k.phys k.task path argv =
      AlexOS.sysExec A.toFrameAllocator k.phys ps.config k.task path argv := by
  rw [sysExecChecked, AlexOS.sysExec]
  rcases hsp : k.task.space with _ | sp
  · rfl
  have hdirect := ok.space_direct direct hsp
  simp only [readCstrChecked_eq hdirect, readArgsChecked_eq hdirect word, Option.bind_eq_bind,
    Option.bind_some]
  rcases sp.readCstr k.phys.mem path maxStr with _ | name
  · rfl
  rcases readArgs sp k.phys.mem argv with _ | args
  · rfl
  simp only [find_config]
  rcases findChecked ps name with _ | image
  · rfl
  simp only [execCurrentChecked_eq direct ok.holds ok.formed]
  rfl

/-- At most 32 strings of at most 255 bytes fit on the stack. -/
theorem Ok.sysExec_some (ok : Ok A kernel k) (cfg : Config) (path argv : Nat) :
    ∃ res s, AlexOS.sysExec A.toFrameAllocator k.phys cfg k.task path argv = some (res, s) := by
  rcases hsp : k.task.space with _ | sp
  · exact ⟨_, _, by rw [AlexOS.sysExec, hsp]⟩
  simp only [AlexOS.sysExec, hsp]
  rcases sp.readCstr k.phys.mem path maxStr with _ | name
  · exact ⟨_, _, rfl⟩
  rcases hargs : readArgs sp k.phys.mem argv with _ | args
  · exact ⟨_, _, rfl⟩
  dsimp only
  rcases find cfg name with _ | image
  · exact ⟨_, _, rfl⟩
  obtain ⟨few, short⟩ := readArgs_short hargs
  obtain ⟨res, s, hexec, -⟩ := execCurrent_cases ⟨hsp, ok.holds, ok.formed sp hsp⟩ cfg.kernelTable
    image (fits_stack few short)
  exact ⟨_, s, congrArg (Option.map fun x => (x.1.mapError execErrno, x.2)) hexec⟩

theorem Ok.sysExec (direct : A.Direct) (ok : Ok A kernel k) (ps : Programs) (path : Nat)
    {argv : Nat} (word : argv < 2 ^ 64) (b : Nat) :
    Safe A (sysExec A.toFrameAllocator ps k path argv b) := by
  obtain ⟨res, s, hexec⟩ := ok.sysExec_some ps.config path argv
  obtain ⟨after, -⟩ := Machine.sysExec_ok ok.task hexec
  rw [Dispatch.sysExec, ok.current, Option.bind_eq_bind, Option.bind_some,
    ok.sysExecChecked_eq direct ps path word, hexec, Option.bind_eq_bind, Option.bind_some]
  rcases res with e | i
  · exact ⟨_, rfl, ⟨_, after.holds⟩, ok.placed⟩
  · exact ⟨_, rfl, ⟨_, (after b).holds⟩, ok.placed⟩

theorem Ok.storeStatus_eq (direct : A.Direct) (ok : Ok A kernel k) (ptr : Nat) (code : Int) :
    storeStatusChecked k.phys.mem k.task.space ptr code =
      some (storeStatus k.phys.mem k.task.space ptr code) := by
  unfold storeStatusChecked storeStatus
  split
  · rfl
  rcases hsp : k.task.space with _ | sp
  · rfl
  · have hlen : (leBytes (code % 2 ^ 32).toNat 4).length < 2 ^ 64 := by
      rw [length_leBytes]
      decide
    simp only [ok.copyToUser_eq direct hsp hlen, Option.map_some]

theorem Ok.sysWaitpid (direct : A.Direct) (ok : Ok A kernel k) (want : Int) (ptr : Nat) :
    Safe A (sysWaitpid A.toFrameAllocator k want ptr) := by
  rw [Dispatch.sysWaitpid, ok.current, Option.bind_eq_bind, Option.bind_some]
  rcases hscan : UserPointers.scan k.toState want with _ | c
  · simp only
    split
    · exact ok.wait fun _ => ⟨rfl, rfl, rfl⟩
    · exact ok.returns _
  have hzombie : (UserPointers.zombie k.toState c).isSome := by
    have := List.find?_some hscan
    exact (Bool.and_eq_true_iff.mp this).2
  obtain ⟨child, hchild⟩ := Option.isSome_iff_exists.mp hzombie
  obtain ⟨stored, kept⟩ := Machine.storeStatus_ok ok.task ptr child.exitCode
  have exact : ∀ t ∈ k.others,
      t.Exact (storeStatus k.phys.mem k.task.space ptr child.exitCode) := fun t ht =>
    (ok.exact t (List.mem_cons_of_mem _ ht)).kept (kept.mono
      ((List.single_le_sum (by simp) _ (List.mem_map_of_mem ht)).trans
        (Multiset.le_add_right _ _)))
  have holds := stored.holds
  rw [add_left_comm] at holds
  obtain ⟨s, strong, tasks, hrelease, holds'⟩ :=
    release_built k.strong [c] holds exact
  simp only [hchild, Option.bind_some, ok.storeStatus_eq direct, Option.bind_eq_bind, hrelease]
  exact ⟨_, rfl, ⟨_, holds'⟩, ok.placed⟩

theorem Ok.sysSbrk (ok : Ok A kernel k) (delta : Int) :
    Safe A (sysSbrk A.toFrameAllocator k delta) := by
  obtain ⟨res, s, p, heq⟩ := adjustBrk_some ok.task delta
  obtain ⟨holds, -⟩ := adjustBrk_spec ok.task heq
  rw [Dispatch.sysSbrk, ok.current, Option.bind_eq_bind, Option.bind_some, adjustBrkChecked_eq,
    heq]
  exact ⟨_, rfl, ⟨_, holds⟩, ok.placed⟩

theorem Ok.yieldNow (ok : Ok A kernel k) :
    Safe A ((switchToIdle k .ready).map (.switched (.returns 0))) := by
  obtain ⟨k', heq, hphys, placed⟩ := switchToIdle_placed .ready ok.runs ok.placed
    ok.canary (by decide)
  have holds := ok.holds
  rw [← hphys] at holds
  exact ⟨.switched (.returns 0) k', by rw [heq, Option.map_some], ⟨_, holds⟩, placed⟩

theorem Ok.answers (ok : Ok A kernel k) {α : Type} {x : Option α} (some : ∃ a, x = some a)
    (ret : α → Int) : Safe A (x.map fun a => .returns (ret a) k) := by
  obtain ⟨a, rfl⟩ := some
  exact ok.returns _

theorem Safe.ite {c : Prop} [Decidable c] {x y : Option (Outcome σ)} (hx : Safe A x)
    (hy : Safe A y) : Safe A (if c then x else y) := by
  split
  · exact hx
  · exact hy

theorem Ok.dispatch (direct : A.Direct) (ok : Ok A kernel k) (ps : Programs) (f : TrapFrame)
    (b : Nat) : Safe A (dispatch A.toFrameAllocator ps k f b) :=
  .ite (ok.sysExit _) <| .ite (ok.sysWrite direct _ _ _) <| .ite (ok.sysRead direct _ _ _) <|
    .ite ok.yieldNow <| .ite (ok.answers ⟨_, ok.current⟩ _) <| .ite ok.sysGetppid <|
    .ite (ok.sysFork direct ps b) <| .ite (ok.sysExec direct ps _ (Fin.isLt _) b) <|
    .ite (ok.sysWaitpid direct _ _) <| .ite (ok.sysSbrk _) <| .ite (ok.answers ok.uptimeMs _) <|
    .ite (ok.returns 0) (ok.answers ⟨_, ok.current⟩ _)

end

end AlexOS.Dispatch
