import AlexOS.Lib.Run
import AlexOS.Trap.Frames

/-!
# User tasks across traps

User tasks on one hart: user code, and traps that store the running task in its frame
through `user_trap_entry`, leave the frames to the kernel, and resume some task from its
frame through `user_trap_return`. What a task sees of its registers and its `pc` changes
only by its own code and by what the kernel writes in its frame.
-/

namespace AlexOS.Asm

open Bytes Rv64 Rv64.Cpu

namespace TrapFrame

theorem save_save (g : TrapFrame) (x x' : Reg → Word) (st st' pc pc' : Word) :
    (g.save x st pc).save x' st' pc' = g.save x' st' pc' := rfl

theorem save_congr (g : TrapFrame) {x x' : Reg → Word} (h : ∀ r, r ≠ 0 → x r = x' r)
    (st pc : Word) : g.save x st pc = g.save x' st pc := by
  refine TrapFrame.ext (funext fun r => ?_) rfl rfl rfl rfl rfl rfl
  show (if r = 0 then g.x 0 else x r) = if r = 0 then g.x 0 else x' r
  by_cases hr : r = 0
  · rw [if_pos hr, if_pos hr]
  · rw [if_neg hr, if_neg hr, h r hr]

theorem save_self (g : TrapFrame) {x : Reg → Word} (h : ∀ r, r ≠ 0 → x r = g.x r) :
    g.save x g.sstatus g.sepc = g := by
  rw [save_congr g h]
  refine TrapFrame.ext (funext fun r => ?_) rfl rfl rfl rfl rfl rfl
  show (if r = 0 then g.x 0 else g.x r) = g.x r
  by_cases hr : r = 0
  · rw [if_pos hr, hr]
  · rw [if_neg hr]

end TrapFrame

namespace UserTasks

variable {n : Nat}

/-- The hart in user mode, with the address of every task's frame. -/
structure World (n : Nat) where
  cpu : Cpu
  pc : Word
  frame : Fin n → Word
  running : Fin n

structure Placed (frame : Fin n → Word) : Prop where
  fits : ∀ t, (frame t).val + TrapFrame.size ≤ 2 ^ 64
  apart : ∀ t u, t ≠ u → (frame t).val + TrapFrame.size ≤ (frame u).val ∨
    (frame u).val + TrapFrame.size ≤ (frame t).val

inductive Op (n : Nat) where
  | user (x : Reg → Word) (pc : Word)
  | trap (sstatus : Word) (edit : Fin n → TrapFrame → TrapFrame) (next : Fin n)

/-- At the call of `user_trap_handler`. -/
def enter (w : World n) (sstatus : Word) : Cpu :=
  ((w.cpu.setCsr .sstatus sstatus).setCsr .sepc w.pc).run userTrapEntry

/-- From the return of `user_trap_handler` to user mode. -/
def resume (k : Cpu) (frame : Fin n → Word) (t : Fin n) : World n :=
  ⟨k.run userTrapReturn, (k.run userTrapReturn).csr .sepc, frame, t⟩

inductive Step : World n → Op n → World n → Prop where
  /-- User code reaches neither the frames nor the control registers. -/
  | user {w : World n} {c : Cpu} {x : Reg → Word} {pc : Word} :
      (∀ r, r ≠ 0 → c.get r = x r) → c.csr = w.cpu.csr →
      (∀ t b, (w.frame t).val ≤ b → b < (w.frame t).val + TrapFrame.size →
        c.mem b = w.cpu.mem b) →
      Step w (.user x pc) { w with cpu := c, pc := pc }
  /-- An `exec` puts a frame elsewhere; `frame_ptr` then names the new one. -/
  | trap {w : World n} {k : Cpu} {frame : Fin n → Word} {sstatus : Word}
      {edit : Fin n → TrapFrame → TrapFrame} {u : Fin n} :
      Placed frame → k.get a0 = frame u →
      (∀ t, TrapFrame.read k.mem (frame t).val =
        edit t (TrapFrame.read (enter w sstatus).mem (w.frame t).val)) →
      Step w (.trap sstatus edit u) (resume k frame u)

/-- It starts with a `user_trap_return` from `user_entry`. -/
def system (n : Nat) : System (World n) (Op n) :=
  ⟨fun w => ∃ k frame t, Placed frame ∧ k.get a0 = frame t ∧ w = resume k frame t, Step⟩

/-! ## What the tasks see -/

structure Tasks (n : Nat) where
  task : Fin n → TrapFrame
  running : Fin n

def act (s : Tasks n) : Op n → Tasks n
  | .user x pc =>
    ⟨Function.update s.task s.running ((s.task s.running).save x (s.task s.running).sstatus pc),
      s.running⟩
  | .trap sstatus edit u =>
    ⟨fun t => edit t (if t = s.running then { s.task t with sstatus := sstatus } else s.task t), u⟩

/-- The running task is in the registers, the others are in their frames. -/
def view (w : World n) : Tasks n :=
  ⟨fun t => if t = w.running then
      (TrapFrame.read w.cpu.mem (w.frame t).val).save w.cpu.get (w.cpu.csr .sstatus) w.pc
    else TrapFrame.read w.cpu.mem (w.frame t).val, w.running⟩

structure Inv (w : World n) : Prop where
  placed : Placed w.frame
  sscratch : w.cpu.csr .sscratch = w.frame w.running

/-- What the kernel finds in a trap: the frame, the stack and the hart of the running task in
`a0`, `sp` and `tp`, and every task in its frame. -/
structure Handed (w : World n) (sstatus : Word) : Prop where
  arg : (enter w sstatus).get a0 = w.frame w.running
  stack : (enter w sstatus).get sp = ((view w).task w.running).kernelSp
  hart : (enter w sstatus).get tp = ((view w).task w.running).kernelHartid
  frames : ∀ t, TrapFrame.read (enter w sstatus).mem (w.frame t).val =
    if t = w.running then { (view w).task t with sstatus := sstatus } else (view w).task t

section
variable {w w' : World n} {op : Op n}

theorem view_running (w : World n) : (view w).task w.running =
    (TrapFrame.read w.cpu.mem (w.frame w.running).val).save w.cpu.get (w.cpu.csr .sstatus) w.pc :=
  if_pos rfl

theorem view_parked (w : World n) {t : Fin n} (h : t ≠ w.running) :
    (view w).task t = TrapFrame.read w.cpu.mem (w.frame t).val := if_neg h

theorem Inv.handed (inv : Inv w) (st : Word) : Handed w st := by
  have hscratch : ((w.cpu.setCsr .sstatus st).setCsr .sepc w.pc).csr .sscratch =
      w.frame w.running := by
    rw [setCsr_csr, if_neg (by decide), setCsr_csr, if_neg (by decide)]
    exact inv.sscratch
  have hstatus : ((w.cpu.setCsr .sstatus st).setCsr .sepc w.pc).csr .sstatus = st := by
    rw [setCsr_csr, if_neg (by decide), setCsr_csr, if_pos rfl]
  have hepc : ((w.cpu.setCsr .sstatus st).setCsr .sepc w.pc).csr .sepc = w.pc := by
    rw [setCsr_csr, if_pos rfl]
  have entered : UserEntered ((w.cpu.setCsr .sstatus st).setCsr .sepc w.pc) (enter w st)
      (w.frame w.running).val := by
    rw [← hscratch]
    exact run_userTrapEntry (by rw [hscratch]; exact inv.placed.fits w.running)
  refine ⟨Fin.ext entered.arg, ?_, ?_, ?_⟩
  · rw [entered.stack, view_running]
    rfl
  · rw [entered.hart, view_running]
    rfl
  · intro t
    by_cases ht : t = w.running
    · rw [if_pos ht, ht, entered.frame, hstatus, hepc, view_running]
      rfl
    · rw [if_neg ht, view_parked w ht]
      refine TrapFrame.read_congr fun b lo hi => ?_
      have := inv.placed.apart t w.running ht
      exact entered.rest b (by omega)

theorem resume_inv {k : Cpu} {frame : Fin n → Word} {t : Fin n} (placed : Placed frame)
    (harg : k.get a0 = frame t) : Inv (resume k frame t) ∧
      (view (resume k frame t)).task = fun u => TrapFrame.read k.mem (frame u).val := by
  have returned : UserReturned k (k.run userTrapReturn) (frame t).val := by
    rw [← harg]
    exact run_userTrapReturn (by rw [harg]; exact placed.fits t)
  refine ⟨⟨placed, Fin.ext returned.sscratch⟩, funext fun u => ?_⟩
  by_cases hu : u = t
  · subst hu
    refine (view_running (resume k frame u)).trans ?_
    show (TrapFrame.read (k.run userTrapReturn).mem (frame u).val).save
      (k.run userTrapReturn).get ((k.run userTrapReturn).csr .sstatus)
      ((k.run userTrapReturn).csr .sepc) = _
    rw [returned.mem, returned.sstatus, returned.sepc]
    exact TrapFrame.save_self _ returned.regs
  · refine (view_parked (resume k frame t) hu).trans ?_
    show TrapFrame.read (k.run userTrapReturn).mem (frame u).val = _
    rw [returned.mem]

theorem Step.inv (hs : Step w op w') (inv : Inv w) : Inv w' ∧ view w' = act (view w) op := by
  cases hs with
  | @user c x pc regs csr kept =>
    have same : ∀ t, TrapFrame.read c.mem (w.frame t).val =
        TrapFrame.read w.cpu.mem (w.frame t).val := fun t =>
      TrapFrame.read_congr (kept t)
    refine ⟨⟨inv.placed, by rw [← inv.sscratch, ← csr]⟩, ?_⟩
    refine congrArg (Tasks.mk · w.running) (funext fun t => ?_)
    show (if t = w.running then (TrapFrame.read c.mem (w.frame t).val).save c.get
        (c.csr .sstatus) pc else TrapFrame.read c.mem (w.frame t).val) =
      Function.update (view w).task w.running _ t
    by_cases ht : t = w.running
    · subst ht
      rw [if_pos rfl, Function.update_self, same, csr, TrapFrame.save_congr _ regs]
      show _ = ((view w).task w.running).save x ((view w).task w.running).sstatus pc
      rw [view_running, TrapFrame.save_save]
      rfl
    · rw [if_neg ht, Function.update_of_ne ht, same, view_parked w ht]
  | @trap k frame st edit u placed harg edits =>
    obtain ⟨inv', hview⟩ := resume_inv placed harg
    refine ⟨inv', ?_⟩
    refine congrArg (Tasks.mk · u) (hview.trans (funext fun t => ?_))
    rw [edits t, (inv.handed st).frames t]
    rfl

end

/-- Any run does to the tasks what its steps say, and each trap hands the kernel every task as
the run has left it. -/
theorem reach_tasks {w₀ w : World n} {ops : List (Op n)}
    (hr : Reach ((system n).startAt w₀).traced (w, ops)) :
    view w = ops.foldl act (view w₀) ∧ ∀ sstatus, Handed w sstatus := by
  obtain ⟨inv, hview⟩ := Reach.computes Inv view act
    (fun w hw => by
      obtain ⟨k, frame, t, placed, harg, rfl⟩ := hw
      exact (resume_inv placed harg).1)
    (fun w op w' inv hs => Step.inv hs inv) hr
  exact ⟨hview, inv.handed⟩

/-- The kernel only picks the next task. -/
theorem Step.preempt {w : World n} (placed : Placed w.frame) (sstatus : Word) (u : Fin n) :
    Step w (.trap sstatus (fun _ g => g) u)
      (resume ((enter w sstatus).set a0 (w.frame u)) w.frame u) := by
  refine .trap placed ?_ fun t => ?_
  · rw [get_set, if_pos ⟨rfl, by decide⟩]
  · rw [set_mem]

theorem frame_lt (t : Fin 2) : 4096 * (t.val + 1) < 2 ^ 64 := by omega

def twoFrames (t : Fin 2) : Word := ⟨4096 * (t + 1), frame_lt t⟩

theorem twoFrames_placed : Placed twoFrames := by
  constructor
  · decide
  · decide

theorem preempted_and_resumed : ∃ (w₀ w : World 2) (x : Reg → Word) (pc st : Word),
    Reach ((system 2).startAt w₀).traced
      (w, [.user x pc, .trap st (fun _ g => g) 1, .trap st (fun _ g => g) 0]) ∧
    ((view w).task 0).sepc = pc ∧ ((view w).task 0).x t0 = x t0 ∧ x t0 = twoFrames 1 := by
  let k : Cpu := ⟨fun _ => twoFrames 0, fun _ => twoFrames 0, fun _ => 0⟩
  let w₀ : World 2 := resume k twoFrames 0
  let x : Reg → Word := fun _ => twoFrames 1
  let w₁ : World 2 := { w₀ with cpu := ⟨x, w₀.cpu.csr, w₀.cpu.mem⟩, pc := twoFrames 1 }
  have first : Step w₀ (.user x (twoFrames 1)) w₁ :=
    .user (fun r hr => if_neg hr) rfl fun _ _ _ _ => rfl
  have second := Step.preempt (w := w₁) twoFrames_placed (twoFrames 0) 1
  have third := Step.preempt (w := resume ((enter w₁ (twoFrames 0)).set a0 (w₁.frame 1)) w₁.frame 1)
    twoFrames_placed (twoFrames 0) 0
  have start : Reach ((system 2).startAt w₀).traced (w₀, []) :=
    .init ⟨⟨⟨k, twoFrames, 0, twoFrames_placed, rfl, rfl⟩, rfl⟩, rfl⟩
  have run := ((start.extend first).extend second).extend third
  obtain ⟨hview, _⟩ := reach_tasks run
  refine ⟨w₀, _, x, twoFrames 1, twoFrames 0, run, ?_, ?_, rfl⟩
  · rw [hview]
    rfl
  · rw [hview]
    rfl

end UserTasks

end AlexOS.Asm
