import AlexOS.Trap.Frames

/-!
# Interrupted kernel code

Kernel code with traps taken between any two of its instructions, through
`kernel_trap_entry`, a handler that keeps the frame and what the code owns, and
`kernel_trap_exit`. Code that does not mention `t0` computes what it computes undisturbed;
`t0` itself comes back as the interrupted `sp`.
-/

namespace AlexOS.Asm

open Bytes Rv64 Rv64.Cpu

/-- A trap at `pc` by way of a handler that leaves the frame, and the memory at `P`, alone. -/
structure Trapped (P : Nat → Prop) (c : Cpu) (sstatus pc : Word) (e k c' : Cpu) : Prop where
  entry : e = ((c.setCsr .sstatus sstatus).setCsr .sepc pc).run kernelTrapEntry
  stack : k.get sp = e.get sp
  frame : ∀ b, (c.get sp).val - TrapFrame.size ≤ b → b < (c.get sp).val → k.mem b = e.mem b
  owned : ∀ b, P b → k.mem b = e.mem b
  exit : c' = k.run kernelTrapExit

/-- There is room for a frame below `sp`, and nobody relies on what is there. -/
def Room (P : Nat → Prop) (c : Cpu) : Prop :=
  TrapFrame.size ≤ (c.get sp).val ∧
    ∀ b, (c.get sp).val - TrapFrame.size ≤ b → b < (c.get sp).val → ¬ P b

section
variable {P : Nat → Prop} {c d e k c' : Cpu} {st pc : Word}

/-- What interrupted code finds after a trap. -/
structure Restored (P : Nat → Prop) (c : Cpu) (st pc : Word) (c' : Cpu) : Prop where
  regs : ∀ r, r ≠ t0 → c'.get r = c.get r
  scratch : c'.get t0 = c.get sp
  sstatus : c'.csr .sstatus = st
  sepc : c'.csr .sepc = pc
  owned : ∀ b, P b → c'.mem b = c.mem b

theorem Trapped.restores (h : Trapped P c st pc e k c') (room : Room P c) :
    Restored P c st pc c' := by
  obtain ⟨hroom, free⟩ := room
  have hlt := (c.get sp).isLt
  have entered : KernelEntered ((c.setCsr .sstatus st).setCsr .sepc pc) e
      ((c.get sp).val - TrapFrame.size) := by
    rw [h.entry]
    exact run_kernelTrapEntry hroom
  have hsp : k.get sp = c.get sp + (-304) := h.stack.trans entered.stack
  have hval : (k.get sp).val = (c.get sp).val - TrapFrame.size := by rw [hsp, push_val hroom]
  have returned : KernelReturned k c' (k.get sp).val := by
    rw [h.exit]
    exact run_kernelTrapExit (by rw [hval]; omega)
  rw [hval] at returned
  have kept : TrapFrame.read k.mem ((c.get sp).val - TrapFrame.size) =
      TrapFrame.read e.mem ((c.get sp).val - TrapFrame.size) :=
    TrapFrame.read_congr fun b lo hi => h.frame b lo (by omega)
  rw [entered.frame] at kept
  refine ⟨?_, ?_, ?_, ?_, ?_⟩
  · intro r hr
    by_cases h0 : r = 0
    · rw [h0, get_zero, get_zero]
    · by_cases h2 : r = sp
      · rw [h2, returned.stack, hsp, push_pop]
      · rw [returned.regs r h0 h2, kept]
        show (if r = 0 then _ else Function.update c.get t0 (c.get sp) r) = c.get r
        rw [if_neg h0, Function.update_of_ne hr]
  · rw [returned.regs t0 (by decide) (by decide), kept]
    show Function.update c.get t0 (c.get sp) t0 = c.get sp
    rw [Function.update_self]
  · rw [returned.sstatus, kept]
    show ((c.setCsr .sstatus st).setCsr .sepc pc).csr .sstatus = st
    rw [setCsr_csr, setCsr_csr]
    rfl
  · rw [returned.sepc, kept]
    show ((c.setCsr .sstatus st).setCsr .sepc pc).csr .sepc = pc
    rw [setCsr_csr]
    rfl
  · intro b hb
    rw [returned.mem, h.owned b hb]
    refine entered.rest b ?_
    have := free b
    by_cases lo : (c.get sp).val - TrapFrame.size ≤ b
    · by_cases hi : b < (c.get sp).val
      · exact absurd hb (this lo hi)
      · exact Or.inr (by omega)
    · exact Or.inl (by omega)

/-! ## Traps at any point -/

/-- What the instruction at a `pc` does, and where it goes on. -/
abbrev Code := Word × Cpu → Word × Cpu

/-- `n` instructions of the code, with any traps on the way. `sret` goes to `sepc`. -/
inductive Interrupted (P : Nat → Prop) (code : Code) : Word × Cpu → Nat → Word × Cpu → Prop where
  | done {x : Word × Cpu} : Interrupted P code x 0 x
  | step {x y : Word × Cpu} {n : Nat} :
      Interrupted P code (code x) n y → Interrupted P code x (n + 1) y
  | trap {pc st : Word} {c e k c₁ : Cpu} {n : Nat} {y : Word × Cpu} :
      Trapped P c st pc e k c₁ → Interrupted P code (c₁.csr .sepc, c₁) n y →
      Interrupted P code (pc, c) n y

/-- The same to code that avoids `t0`. -/
def Agree (P : Nat → Prop) (c d : Cpu) : Prop :=
  (∀ r, r ≠ t0 → d.get r = c.get r) ∧ ∀ b, P b → d.mem b = c.mem b

/-- The instruction at `pc` depends on `pc`, the registers but `t0`, and memory at `P`. -/
def Unaware (P : Nat → Prop) (code : Code) (pc : Word) (c : Cpu) : Prop :=
  ∀ d, Agree P c d → (code (pc, d)).1 = (code (pc, c)).1 ∧
    Agree P (code (pc, c)).2 (code (pc, d)).2

/-- Undisturbed, the code stays away from `t0`, in its own memory, and off what is below `sp`. -/
structure Owns (P : Nat → Prop) (code : Code) (x : Word × Cpu) (n : Nat) : Prop where
  room : ∀ m ≤ n, Room P (code^[m] x).2
  unaware : ∀ m < n, Unaware P code (code^[m] x).1 (code^[m] x).2

theorem Owns.next {code : Code} {x : Word × Cpu} {n : Nat} (h : Owns P code x (n + 1)) :
    Owns P code (code x) n where
  room m hm := h.room (m + 1) (Nat.succ_le_succ hm)
  unaware m hm := h.unaware (m + 1) (Nat.succ_lt_succ hm)

theorem Agree.room (agree : Agree P c d) (room : Room P c) : Room P d := by
  unfold Room at *
  rw [agree.1 sp (by decide)]
  exact room

theorem Interrupted.agree {code : Code} {x y : Word × Cpu} {n : Nat}
    (h : Interrupted P code x n y) (agree : Agree P c x.2) (owns : Owns P code (x.1, c) n) :
    y.1 = (code^[n] (x.1, c)).1 ∧ Agree P (code^[n] (x.1, c)).2 y.2 := by
  induction h generalizing c with
  | done => exact ⟨rfl, agree⟩
  | @step x y n _ ih =>
    obtain ⟨hpc, agree'⟩ := owns.unaware 0 (Nat.succ_pos n) x.2 agree
    have next : (code x).1 = (code (x.1, c)).1 := hpc
    have reached := ih agree' (by rw [next]; exact owns.next)
    rw [next] at reached
    exact reached
  | trap trapped _ ih =>
    have restored := trapped.restores (agree.room (owns.room 0 (Nat.zero_le _)))
    rw [restored.sepc] at ih
    refine ih ⟨?_, ?_⟩ owns
    · intro r hr
      rw [restored.regs r hr, agree.1 r hr]
    · intro b hb
      rw [restored.owned b hb, agree.2 b hb]

/-! ## Instructions that do not notice -/

/-- The instruction is about general registers other than `q`, and memory. -/
def Avoids (q : Reg) : Instr → Prop
  | .sd src base _ => src ≠ q ∧ base ≠ q
  | .ld dst base _ => dst ≠ q ∧ base ≠ q
  | .addi dst src _ => dst ≠ q ∧ src ≠ q
  | .csrrw _ _ _ | .csrr _ _ | .csrw _ _ => False

def Within (P : Nat → Prop) (c : Cpu) : Instr → Prop
  | .sd _ base offset | .ld _ base offset =>
    ∀ b, c.addr base offset ≤ b → b < c.addr base offset + 8 → P b
  | .addi _ _ _ | .csrrw _ _ _ | .csrr _ _ | .csrw _ _ => True

theorem Agree.addr (agree : Agree P c d) {base : Reg} (h : base ≠ t0) (offset : Nat) :
    d.addr base offset = c.addr base offset := by
  unfold Cpu.addr
  rw [agree.1 base h]

theorem Agree.set (agree : Agree P c d) (dst : Reg) (v : Word) :
    Agree P (c.set dst v) (d.set dst v) := by
  constructor
  · intro r hr
    rw [get_set, get_set, agree.1 r hr]
  · intro b hb
    rw [set_mem, set_mem]
    exact agree.2 b hb

theorem write64_agree {m m' : Mem} {b : Nat} (h : m' b = m b) (a v : Nat) :
    write64 m' a v b = write64 m a v b := by
  unfold write64 writeLE
  split
  · rfl
  · exact h

theorem Agree.exec (agree : Agree P c d) {i : Instr} (avoids : Avoids t0 i)
    (within : Within P c i) : Agree P (c.exec i) (d.exec i) := by
  cases i with
  | sd src base offset =>
    constructor
    · intro r hr
      rw [exec_sd_get, exec_sd_get]
      exact agree.1 r hr
    · intro b hb
      rw [Cpu.exec, Cpu.exec, agree.addr avoids.2, agree.1 src avoids.1]
      exact write64_agree (agree.2 b hb) _ _
  | ld dst base offset =>
    have hword : wordAt d.mem (c.addr base offset) = wordAt c.mem (c.addr base offset) :=
      wordAt_congr fun b lo hi => agree.2 b (within b lo hi)
    rw [Cpu.exec, Cpu.exec, agree.addr avoids.2, hword]
    exact agree.set dst _
  | addi dst src imm =>
    rw [Cpu.exec, Cpu.exec, agree.1 src avoids.2]
    exact agree.set dst _
  | csrrw => exact absurd avoids id
  | csrr => exact absurd avoids id
  | csrw => exact absurd avoids id

end

/-- After a trap every register but `t0` is as before, and `t0` holds the interrupted `sp`. -/
theorem kernel_trap_restores {P : Nat → Prop} {c e k c' : Cpu} {st pc : Word}
    (h : Trapped P c st pc e k c') (room : Room P c) :
    Restored P c st pc c' ∧ ((∀ r, c'.get r = c.get r) ↔ c.get t0 = c.get sp) := by
  have restored := h.restores room
  refine ⟨restored, ?_, ?_⟩
  · intro same
    rw [← same t0, restored.scratch]
  · intro heq r
    by_cases hr : r = t0
    · rw [hr, restored.scratch, heq]
    · exact restored.regs r hr

theorem sample_lt (r : Reg) : 1024 * r.val < 2 ^ 64 := by omega

/-- A stack from 2048 up, and other values in the other registers. -/
def sample : Cpu := ⟨fun r => ⟨1024 * r, sample_lt r⟩, fun _ => ⟨0, sample_lt 0⟩, fun _ => 0⟩

theorem sample_sp : (sample.get sp).val = 2048 := by decide

theorem room_sample {c : Cpu} (h : (c.get sp).val = 2048) : Room (2048 ≤ ·) c := by
  unfold Room TrapFrame.size
  rw [h]
  constructor
  · decide
  · intro b _ hi
    omega

theorem trapped_here (P : Nat → Prop) (c : Cpu) (st pc : Word) :
    Trapped P c st pc (((c.setCsr .sstatus st).setCsr .sepc pc).run kernelTrapEntry)
      (((c.setCsr .sstatus st).setCsr .sepc pc).run kernelTrapEntry)
      ((((c.setCsr .sstatus st).setCsr .sepc pc).run kernelTrapEntry).run kernelTrapExit) :=
  ⟨rfl, rfl, fun _ _ _ => rfl, fun _ _ => rfl, rfl⟩

theorem scratch_register_lost : ∃ e k c',
    Trapped (2048 ≤ ·) sample (sample.get 1) (sample.get 3) e k c' ∧ (c'.get t0).val = 2048 ∧
      (sample.get t0).val = 5120 ∧ ¬ ∀ r, c'.get r = sample.get r := by
  have trapped := trapped_here (2048 ≤ ·) sample (sample.get 1) (sample.get 3)
  obtain ⟨restored, all⟩ := kernel_trap_restores trapped (room_sample sample_sp)
  refine ⟨_, _, _, trapped, ?_, by decide, ?_⟩
  · rw [restored.scratch, sample_sp]
  · rw [all]
    decide

/-- Code that avoids `t0` does not notice the traps taken while it runs. -/
theorem interrupted_unnoticed {P : Nat → Prop} {code : Code} {pc : Word} {c : Cpu} {n : Nat}
    {y : Word × Cpu} (h : Interrupted P code (pc, c) n y) (owns : Owns P code (pc, c) n) :
    y.1 = (code^[n] (pc, c)).1 ∧ (∀ r, r ≠ t0 → y.2.get r = (code^[n] (pc, c)).2.get r) ∧
      ∀ b, P b → y.2.mem b = (code^[n] (pc, c)).2.mem b :=
  h.agree ⟨fun _ _ => rfl, fun _ _ => rfl⟩ owns

/-- `loop: addi a0, a0, 1; sd a0, 0(sp); bne a0, a1, loop`, at 0. -/
def countUp : Code := fun x =>
  if x.1 = 0 then (4, x.2.exec (.addi a0 a0 1))
  else if x.1 = 4 then (8, x.2.exec (.sd a0 sp 0))
  else if x.2.get a0 = x.2.get a1 then (12, x.2)
  else (0, x.2)

theorem countUp_stack (x : Word × Cpu) : (countUp x).2.get sp = x.2.get sp := by
  unfold countUp
  split
  · rw [exec_addi_get x.2 a0 1 (by decide), if_neg (by decide)]
  · split
    · rw [exec_sd_get]
    · split <;> rfl

theorem countUp_unaware (pc : Word) {c : Cpu} (h : (c.get sp).val = 2048) :
    Unaware (2048 ≤ ·) countUp pc c := by
  intro d agree
  unfold countUp
  dsimp only
  split
  · exact ⟨rfl, agree.exec (i := .addi a0 a0 1) ⟨by decide, by decide⟩ trivial⟩
  · split
    · refine ⟨rfl, agree.exec (i := .sd a0 sp 0) ⟨by decide, by decide⟩ ?_⟩
      intro b lo _
      rw [Cpu.addr, h] at lo
      exact Nat.le_trans (by decide) lo
    · rw [agree.1 a0 (by decide), agree.1 a1 (by decide)]
      split
      · exact ⟨rfl, agree⟩
      · exact ⟨rfl, agree⟩

theorem countUp_owns {x : Word × Cpu} (h : (x.2.get sp).val = 2048) (n : Nat) :
    Owns (2048 ≤ ·) countUp x n := by
  have stack (m : Nat) : ((countUp^[m] x).2.get sp).val = 2048 := by
    induction m with
    | zero => exact h
    | succ m ih => rw [Function.iterate_succ_apply', countUp_stack, ih]
  exact ⟨fun m _ => room_sample (stack m), fun m _ => countUp_unaware _ (stack m)⟩

/-- A trap in the second round of the loop. -/
theorem loop_interrupted : ∃ y, Interrupted (2048 ≤ ·) countUp (0, sample) 5 y ∧
    y.1 = 8 ∧ (y.2.get a0).val = 10242 := by
  have run : Interrupted (2048 ≤ ·) countUp (0, sample) 5 _ :=
    .step (.step (.step (.step (.trap (trapped_here _ _ (sample.get 1) _) (.step .done)))))
  obtain ⟨hpc, hregs, _⟩ := interrupted_unnoticed run (countUp_owns sample_sp 5)
  refine ⟨_, run, ?_, ?_⟩
  · rw [hpc]
    decide
  · rw [hregs a0 (by decide)]
    decide

end AlexOS.Asm
