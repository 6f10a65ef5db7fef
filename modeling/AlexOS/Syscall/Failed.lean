import AlexOS.Mm.LastFrame
import AlexOS.Syscall.Isolation

/-!
# Calls that fail

`sys_fork` with `fork_from`, and `exec_current`, with all that they could change: the
machine, the names, the tasks admitted, `satp`. A call that fails changes none of
it and gives back every frame it took. What the caller sees of its memory is then the
same too, unless a page of its space maps a frame that nobody holds.
-/

namespace AlexOS.Failed

open Bytes PageTable AddressSpace

/-- `admitted` is what `ALL_TASKS` lists, and `satp` the root in use. -/
structure World (σ : Type) extends Machine σ where
  names : Nat → List UInt8
  admitted : List Nat
  satp : Nat

section
variable {σ : Type} (A : FrameAllocator σ) (kernel : PageTable)

/-- `b` is the block that the child's frame is boxed in. -/
def forkFrom (w : World σ) (parent : Process) (frame : TrapFrame) (b : Nat) :
    Option (Option Process × World σ) := do
  match ← AlexOS.forkFrom A w.phys kernel parent with
  | (none, s) => some (none, { w with phys := s })
  | (some (space, kstack), s) =>
    some (some (w.child parent space kstack b), { w with
      phys := s
      boxes := Function.update w.boxes b (some (frame.setReturn 0))
      names := Function.update w.names w.nextPid (w.names parent.pid)
      nextPid := w.nextPid + 1 })

def sysFork (w : World σ) (parent : Process) (ps : Multiset Process) (frame : TrapFrame)
    (b : Nat) : Option (Int × World σ) := do
  match ← forkFrom A kernel w parent frame b with
  | (none, w) => some (Nr.enomem, w)
  | (some child, w) =>
    some (child.pid, { w with
      procs := child ::ₘ { parent with children := parent.children ++ [child.pid] } ::ₘ ps
      admitted := w.admitted ++ [child.pid] })

/-- `b` is the block that the new frame is boxed in. -/
def execCurrent (w : World σ) (task : Process) (ps : Multiset Process) (name image : List UInt8)
    (args : List (List UInt8)) (b : Nat) : Option (Except ExecError Unit × World σ) := do
  match ← AlexOS.execCurrent A w.phys kernel task image args with
  | (.error e, s) => some (.error e, { w with phys := s })
  | (.ok i, s) =>
    some (.ok (), { w with
      phys := s
      procs := task.install i b ::ₘ ps
      boxes := Function.update (Function.update w.boxes b (some (.newUser i))) task.frame none
      names := Function.update w.names task.pid name
      satp := i.space.table.root })

inductive Fails (w : World σ) (p : Process) : World σ → Prop where
  | fork {ps : Multiset Process} {frame : TrapFrame} {b : Nat} {w' : World σ} :
      sysFork A kernel w p ps frame b = some (Nr.enomem, w') → Fails w p w'
  | exec {ps : Multiset Process} {name image : List UInt8} {args : List (List UInt8)} {b : Nat}
      {e : ExecError} {w' : World σ} :
      execCurrent A kernel w p ps name image args b = some (.error e, w') → Fails w p w'

end

section
variable {σ : Type} {A : CountedAllocator σ} {kernel : PageTable} {w w' : World σ} {p : Process}
  {rest : Multiset Frame}

theorem Fails.kept (failed : Fails A.toFrameAllocator kernel w p w')
    (h : A.Holds w.phys (p.frames + rest))
    (formed : ∀ sp, p.space = some sp → sp.Formed w.phys.mem) : w' = { w with phys := w'.phys } ∧
      A.Holds w'.phys (p.frames + rest) ∧ Kept (p.frames + rest) w.phys.mem w'.phys.mem := by
  cases failed with
  | fork heq =>
    rw [sysFork, forkFrom] at heq
    rcases hfork : AlexOS.forkFrom A.toFrameAllocator w.phys kernel p with
      _ | ⟨_ | ⟨space, kstack⟩, s⟩
    · simp [hfork] at heq
    · obtain ⟨born, kept⟩ := forkFrom_spec h (fun sp hsp => (formed sp hsp).regions) hfork
      simp only [hfork, Option.bind_eq_bind, Option.bind_some] at heq
      cases heq
      exact ⟨rfl, born, kept⟩
    · simp only [hfork, Option.bind_eq_bind, Option.bind_some] at heq
      have hret := congrArg Prod.fst (Option.some.inj heq)
      simp only [Machine.child, Nr.enomem] at hret
      omega
  | @exec _ _ image args _ e _ heq =>
    rw [execCurrent] at heq
    rcases hexec : AlexOS.execCurrent A.toFrameAllocator w.phys kernel p image args with
      _ | ⟨e | i, s⟩
    · simp [hexec] at heq
    · obtain ⟨holds, kept⟩ := execCurrent_error h hexec
      simp only [hexec, Option.bind_eq_bind, Option.bind_some] at heq
      cases heq
      exact ⟨rfl, holds, kept⟩
    · simp [hexec] at heq

end

section
variable {σ : Type} {A : FrameAllocator σ} {s s₁ s₂ : Phys σ} {f : Frame}

end

section
variable {σ : Type} {A : CountedAllocator σ} {s : Phys σ} {live : Multiset Frame}

end

section
variable {s : Buddy.State} {live : Multiset Frame} {base n q : Nat}

end

section
variable {σ : Type} {A : CountedAllocator σ} {cfg : Config} {m : Machine σ} {p : Process}

end

end AlexOS.Failed
