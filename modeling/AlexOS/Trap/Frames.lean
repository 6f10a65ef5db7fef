import AlexOS.Lib.Rv64

/-!
# Trap entry and exit

`kernel/src/trap/user.S` and `kernel/src/trap/trap.S` up to and after the calls of their
handlers, and the `TrapFrame` of `context.rs` at its address. The values that reach
`sstatus` were read from it, so a write of it is taken to keep every bit.

`kernel_trap_entry` computes the interrupted `sp` in `t0` before it has saved `t0`.
-/

namespace AlexOS.Asm

open Bytes Rv64 Rv64.Cpu

abbrev ra : Reg := 1
abbrev sp : Reg := 2
abbrev tp : Reg := 4
abbrev t0 : Reg := 5
abbrev t1 : Reg := 6
abbrev a0 : Reg := 10
abbrev a1 : Reg := 11

@[ext] structure TrapFrame where
  x : Reg → Word
  sstatus : Word
  sepc : Word
  kernelSp : Word
  kernelSatp : Word
  kernelTrap : Word
  kernelHartid : Word

namespace TrapFrame

def size : Nat := 304

def read (m : Mem) (f : Nat) : TrapFrame where
  x r := wordAt m (f + 8 * r)
  sstatus := wordAt m (f + 256)
  sepc := wordAt m (f + 264)
  kernelSp := wordAt m (f + 272)
  kernelSatp := wordAt m (f + 280)
  kernelTrap := wordAt m (f + 288)
  kernelHartid := wordAt m (f + 296)

/-- The frame once the registers, `sstatus` and `sepc` are stored in it. -/
def save (g : TrapFrame) (x : Reg → Word) (sstatus sepc : Word) : TrapFrame :=
  { g with x := fun r => if r = 0 then g.x 0 else x r, sstatus := sstatus, sepc := sepc }

theorem read_congr {m m' : Mem} {f : Nat} (h : ∀ b, f ≤ b → b < f + size → m' b = m b) :
    read m' f = read m f := by
  have word : ∀ i, i + 8 ≤ size → wordAt m' (f + i) = wordAt m (f + i) := by
    intro i hi
    exact wordAt_congr fun b lo hib => h b (by omega) (by omega)
  refine TrapFrame.ext (funext fun r => word (8 * r) ?_) (word 256 ?_) (word 264 ?_)
    (word 272 ?_) (word 280 ?_) (word 288 ?_) (word 296 ?_)
  all_goals unfold size; omega

theorem read_save {m m' : Mem} {f : Nat} {x : Reg → Word} {st pc : Word}
    (regs : ∀ r : Reg, r ≠ 0 → wordAt m' (f + 8 * r) = x r) (hst : wordAt m' (f + 256) = st)
    (hpc : wordAt m' (f + 264) = pc) (rest : ∀ b, b < f + 8 ∨ f + 272 ≤ b → m' b = m b) :
    read m' f = (read m f).save x st pc := by
  have kept : ∀ i, 272 ≤ i → wordAt m' (f + i) = wordAt m (f + i) := by
    intro i hi
    exact wordAt_congr fun b lo _ => rest b (by omega)
  refine TrapFrame.ext (funext fun r => ?_) hst hpc (kept 272 ?_) (kept 280 ?_) (kept 288 ?_)
    (kept 296 ?_)
  · by_cases hr : r = 0
    · subst hr
      exact wordAt_congr fun b _ hi => rest b (by simp at hi; omega)
    · show wordAt m' (f + 8 * r) = if r = 0 then wordAt m (f + 8 * (0 : Reg)) else x r
      rw [if_neg hr]
      exact regs r hr
  all_goals omega

end TrapFrame

/-- The slot of a general register. -/
def slot (r : Reg) : Reg × Nat := (r, 8 * r)

/-- `x3` to `x31`. -/
def upper : List Reg :=
  [3, 4, 5, 6, 7, 8, 9, 10, 11, 12, 13, 14, 15, 16, 17, 18, 19, 20, 21, 22, 23, 24, 25, 26, 27,
    28, 29, 30, 31]

/-- What `user_trap_return` loads before `x10`. -/
def resumed : List Reg :=
  [1, 2, 3, 4, 5, 6, 7, 8, 9, 11, 12, 13, 14, 15, 16, 17, 18, 19, 20, 21, 22, 23, 24, 25, 26, 27,
    28, 29, 30, 31]

/-- `user_trap_entry` until everything is in the frame. -/
def userTrapSave : List Instr :=
  [.csrrw sp .sscratch sp] ++
  stores sp ((1 :: upper).map slot) ++
  [.csrr t0 .sscratch, .sd t0 sp 16] ++
  [.csrr t0 .sstatus, .sd t0 sp 256] ++
  [.csrr t0 .sepc, .sd t0 sp 264]

def userTrapEntry : List Instr :=
  userTrapSave ++ [.addi a0 sp 0, .ld tp sp 296, .ld sp sp 272]

def userTrapReturn : List Instr :=
  [.csrw .sscratch a0] ++
  [.ld t0 a0 256, .csrw .sstatus t0] ++
  [.ld t0 a0 264, .csrw .sepc t0] ++
  loads a0 (resumed.map slot) ++
  [.ld a0 a0 80]

/-- `kernel_trap_entry` before `x3` is stored. -/
def kernelTrapPush : List Instr :=
  [.addi sp sp (-304), .sd ra sp 8, .addi t0 sp 304, .sd t0 sp 16]

def kernelTrapEntry : List Instr :=
  kernelTrapPush ++
  stores sp (upper.map slot) ++
  [.csrr t0 .sstatus, .sd t0 sp 256] ++
  [.csrr t1 .sepc, .sd t1 sp 264] ++
  [.addi a0 sp 0]

def kernelTrapExit : List Instr :=
  [.ld t0 sp 256, .csrw .sstatus t0] ++
  [.ld t1 sp 264, .csrw .sepc t1] ++
  loads sp ((1 :: upper).map slot) ++
  [.addi sp sp 304]

theorem fits_slots {f : Nat} {rs : List Reg} (h : f + 256 ≤ 2 ^ 64) : Fits f (rs.map slot) := by
  intro s hs
  obtain ⟨r, _, rfl⟩ := List.mem_map.mp hs
  show f + 8 * r + 8 ≤ 2 ^ 64
  omega

/-! ## Traps from user mode -/

theorem run_userTrapSave {c : Cpu} (fits : (c.csr .sscratch).val + TrapFrame.size ≤ 2 ^ 64) :
    TrapFrame.read (c.run userTrapSave).mem (c.csr .sscratch).val =
      (TrapFrame.read c.mem (c.csr .sscratch).val).save c.get (c.csr .sstatus) (c.csr .sepc) ∧
    Touches c.mem (c.run userTrapSave).mem (c.csr .sscratch).val
      (((1 :: upper).map slot).map Prod.snd ++ [16, 256, 264]) ∧
    (c.run userTrapSave).get sp = c.csr .sscratch := by
  generalize hf : (c.csr .sscratch).val = f at *
  unfold TrapFrame.size at fits
  rw [userTrapSave, run_append, run_append, run_append, run_append]
  have hsp₁ : (c.run [.csrrw sp .sscratch sp]).get sp = c.csr .sscratch := by simp [exec, sp]
  have hget₁ : ∀ r, r ≠ sp → (c.run [.csrrw sp .sscratch sp]).get r = c.get r := by
    intro r hr
    simp [exec, hr]
  have hcsr₁ : ∀ k, (c.run [.csrrw sp .sscratch sp]).csr k =
      if k = .sscratch then c.get sp else c.csr k := by
    intro k
    simp [exec]
  have hmem₁ : (c.run [.csrrw sp .sscratch sp]).mem = c.mem := by simp [exec]
  generalize c.run [.csrrw sp .sscratch sp] = c₁ at *
  have stored : Stored c₁ (c₁.run (stores sp ((1 :: upper).map slot))) (c₁.get sp).val
      ((1 :: upper).map slot) :=
    run_stores (fits_slots (by rw [hsp₁, hf]; omega)) (by decide)
  rw [hsp₁, hf] at stored
  generalize c₁.run (stores sp ((1 :: upper).map slot)) = c₂ at *
  have hsp₂ : c₂.get sp = c.csr .sscratch := by rw [stored.regs, hsp₁]
  have saved₃ : SavedCsr c₂ (c₂.run [.csrr t0 .sscratch, .sd t0 sp 16]) t0 .sscratch
      ((c₂.get sp).val + 16) :=
    run_saveCsr (by decide) (by decide) (by rw [hsp₂, hf]; omega)
  generalize c₂.run [.csrr t0 .sscratch, .sd t0 sp 16] = c₃ at *
  have hsp₃ : c₃.get sp = c.csr .sscratch := by rw [saved₃.regs sp (by decide), hsp₂]
  have saved₄ : SavedCsr c₃ (c₃.run [.csrr t0 .sstatus, .sd t0 sp 256]) t0 .sstatus
      ((c₃.get sp).val + 256) :=
    run_saveCsr (by decide) (by decide) (by rw [hsp₃, hf]; omega)
  generalize c₃.run [.csrr t0 .sstatus, .sd t0 sp 256] = c₄ at *
  have hsp₄ : c₄.get sp = c.csr .sscratch := by rw [saved₄.regs sp (by decide), hsp₃]
  have saved₅ : SavedCsr c₄ (c₄.run [.csrr t0 .sepc, .sd t0 sp 264]) t0 .sepc
      ((c₄.get sp).val + 264) :=
    run_saveCsr (by decide) (by decide) (by rw [hsp₄, hf]; omega)
  generalize c₄.run [.csrr t0 .sepc, .sd t0 sp 264] = c₅ at *
  have hsp₅ : c₅.get sp = c.csr .sscratch := by rw [saved₅.regs sp (by decide), hsp₄]
  rw [hsp₂, hf] at saved₃
  rw [hsp₃, hf] at saved₄
  rw [hsp₄, hf] at saved₅
  have later : Touches c₃.mem c₅.mem f [256, 264] := saved₄.touches.trans saved₅.touches
  have most : Touches c₂.mem c₅.mem f [16, 256, 264] := saved₃.touches.trans later
  have all : Touches c.mem c₅.mem f (((1 :: upper).map slot).map Prod.snd ++ [16, 256, 264]) := by
    rw [← hmem₁]
    exact stored.touches.trans most
  refine ⟨TrapFrame.read_save ?_ ?_ ?_ ?_, all, hsp₅⟩
  · intro r hr
    by_cases h2 : r = sp
    · subst h2
      refine (later.word (o := 16) (by decide)).trans ?_
      rw [saved₃.word, stored.csr, hcsr₁, if_pos rfl]
    · rw [most.word (by revert r; decide), ← hget₁ r h2]
      exact stored.slot (slot r) (by revert r; decide)
  · rw [saved₅.touches.word (by decide), saved₄.word, saved₃.csr, stored.csr, hcsr₁]
    rfl
  · rw [saved₅.word, saved₄.csr, saved₃.csr, stored.csr, hcsr₁]
    rfl
  · intro b hb
    refine all b fun o ho => ?_
    have : 8 ≤ o ∧ o ≤ 264 := by revert o; decide
    omega

/-- The state at the call of `user_trap_handler`. -/
structure UserEntered (c c' : Cpu) (f : Nat) : Prop where
  frame : TrapFrame.read c'.mem f =
    (TrapFrame.read c.mem f).save c.get (c.csr .sstatus) (c.csr .sepc)
  rest : ∀ b, b < f ∨ f + TrapFrame.size ≤ b → c'.mem b = c.mem b
  arg : (c'.get a0).val = f
  stack : c'.get sp = (TrapFrame.read c.mem f).kernelSp
  hart : c'.get tp = (TrapFrame.read c.mem f).kernelHartid

theorem run_userTrapEntry {c : Cpu} (fits : (c.csr .sscratch).val + TrapFrame.size ≤ 2 ^ 64) :
    UserEntered c (c.run userTrapEntry) (c.csr .sscratch).val := by
  obtain ⟨frame, touches, hsp⟩ := run_userTrapSave fits
  rw [userTrapEntry, run_append]
  generalize hf : (c.csr .sscratch).val = f at *
  unfold TrapFrame.size at fits
  generalize c.run userTrapSave = c' at *
  have hsp' : (c'.get sp).val = f := by rw [hsp, hf]
  have hmem : (c'.run [.addi a0 sp 0, .ld tp sp 296, .ld sp sp 272]).mem = c'.mem := by
    simp [exec]
  have haddr : ∀ o, o < 304 → c'.addr sp o = f + o := by
    intro o ho
    rw [addr_eq (by omega), hsp']
  refine ⟨by rw [hmem, frame], ?_, ?_, ?_, ?_⟩
  · intro b hb
    rw [hmem]
    refine touches b fun o ho => ?_
    have : o ≤ 264 := by revert o; decide
    unfold TrapFrame.size at hb
    omega
  · simp [exec, a0, sp, tp, hsp']
  · have : wordAt c'.mem (f + 272) = (TrapFrame.read c.mem f).kernelSp := touches.word (by decide)
    rw [← this, ← haddr 272 (by decide)]
    simp [exec, a0, sp, tp, addr]
  · have : wordAt c'.mem (f + 296) = (TrapFrame.read c.mem f).kernelHartid :=
      touches.word (by decide)
    rw [← this, ← haddr 296 (by decide)]
    simp [exec, a0, sp, tp, addr]

/-- The state at the `sret` of `user_trap_return`. -/
structure UserReturned (c c' : Cpu) (f : Nat) : Prop where
  regs : ∀ r, r ≠ 0 → c'.get r = (TrapFrame.read c.mem f).x r
  sstatus : c'.csr .sstatus = (TrapFrame.read c.mem f).sstatus
  sepc : c'.csr .sepc = (TrapFrame.read c.mem f).sepc
  sscratch : (c'.csr .sscratch).val = f
  mem : c'.mem = c.mem

theorem run_userTrapReturn {c : Cpu} (fits : (c.get a0).val + TrapFrame.size ≤ 2 ^ 64) :
    UserReturned c (c.run userTrapReturn) (c.get a0).val := by
  generalize hf : (c.get a0).val = f at *
  unfold TrapFrame.size at fits
  rw [userTrapReturn, run_append, run_append, run_append, run_append]
  have hget₁ : ∀ r, (c.run [.csrw .sscratch a0]).get r = c.get r := by
    intro r
    simp [exec]
  have hcsr₁ : ∀ k, (c.run [.csrw .sscratch a0]).csr k =
      if k = .sscratch then c.get a0 else c.csr k := by
    intro k
    simp [exec]
  have hmem₁ : (c.run [.csrw .sscratch a0]).mem = c.mem := by simp [exec]
  generalize c.run [.csrw .sscratch a0] = c₁ at *
  have loaded₂ : LoadedCsr c₁ (c₁.run [.ld t0 a0 256, .csrw .sstatus t0]) t0 .sstatus
      (wordAt c₁.mem ((c₁.get a0).val + 256)) :=
    run_loadCsr (by decide) (by rw [hget₁, hf]; omega)
  generalize c₁.run [.ld t0 a0 256, .csrw .sstatus t0] = c₂ at *
  have ha₂ : (c₂.get a0).val = f := by rw [loaded₂.regs a0 (by decide), hget₁, hf]
  have loaded₃ : LoadedCsr c₂ (c₂.run [.ld t0 a0 264, .csrw .sepc t0]) t0 .sepc
      (wordAt c₂.mem ((c₂.get a0).val + 264)) := run_loadCsr (by decide) (by omega)
  generalize c₂.run [.ld t0 a0 264, .csrw .sepc t0] = c₃ at *
  have ha₃ : (c₃.get a0).val = f := by rw [loaded₃.regs a0 (by decide), ha₂]
  have loaded₄ : Loaded c₃ (c₃.run (loads a0 (resumed.map slot))) (c₃.get a0).val
      (resumed.map slot) := run_loads (fits_slots (by omega)) (by decide) (by decide)
  generalize c₃.run (loads a0 (resumed.map slot)) = c₄ at *
  have ha₄ : (c₄.get a0).val = f := by rw [loaded₄.rest a0 (by decide), ha₃]
  rw [hget₁, hf, hmem₁] at loaded₂
  rw [ha₂, loaded₂.mem, hmem₁] at loaded₃
  rw [ha₃] at loaded₄
  have hmem₃ : c₃.mem = c.mem := by rw [loaded₃.mem, loaded₂.mem, hmem₁]
  have hmem₄ : c₄.mem = c.mem := by rw [loaded₄.mem, hmem₃]
  have hcsr₄ : ∀ k, (c₄.run [.ld a0 a0 80]).csr k = c₃.csr k := by
    intro k
    simp [exec, loaded₄.csr]
  refine ⟨?_, ?_, ?_, ?_, ?_⟩
  · intro r hr
    by_cases h10 : r = a0
    · subst h10
      have : c₄.addr a0 80 = f + 80 := by rw [addr_eq (by omega), ha₄]
      simp only [run_cons, run_nil, exec]
      rw [get_set, if_pos ⟨rfl, by decide⟩, this, hmem₄]
      rfl
    · have hmem : slot r ∈ resumed.map slot := by revert r; decide
      have : (c₄.run [.ld a0 a0 80]).get r = c₄.get r := by simp [exec, h10]
      rw [this]
      exact (loaded₄.slot (slot r) hmem hr).trans (by rw [hmem₃]; rfl)
  · rw [hcsr₄, loaded₃.csr, loaded₂.csr]
    rfl
  · rw [hcsr₄, loaded₃.csr]
    rfl
  · rw [hcsr₄, loaded₃.csr, loaded₂.csr, hcsr₁]
    exact hf
  · simp [exec, hmem₄]

/-! ## Traps from supervisor mode -/

theorem push_val {s : Word} (h : TrapFrame.size ≤ s.val) :
    (s + (-304)).val = s.val - TrapFrame.size := by
  have hneg : (-304 : Word).val = 2 ^ 64 - 304 := by decide
  unfold TrapFrame.size at h ⊢
  rw [Fin.val_add, hneg]
  omega

theorem push_pop (s : Word) : s + (-304) + 304 = s := by
  have hneg : (-304 : Word).val = 2 ^ 64 - 304 := by decide
  have hpos : (304 : Word).val = 304 := by decide
  apply Fin.ext
  rw [Fin.val_add, Fin.val_add, hneg, hpos]
  omega

/-- The interrupted `sp` is now in `t0`. -/
theorem run_kernelTrapPush {c : Cpu} (room : TrapFrame.size ≤ (c.get sp).val) :
    (∀ r, (c.run kernelTrapPush).get r =
      if r = sp then c.get sp + (-304) else if r = t0 then c.get sp else c.get r) ∧
    (c.run kernelTrapPush).csr = c.csr ∧
    (c.run kernelTrapPush).mem =
      write64 (write64 c.mem ((c.get sp).val - TrapFrame.size + 8) (c.get ra).val)
        ((c.get sp).val - TrapFrame.size + 16) (c.get sp).val := by
  have hpush := push_val room
  have hpop := push_pop (c.get sp)
  have hlt := (c.get sp).isLt
  unfold kernelTrapPush
  rw [run_cons, run_cons, run_cons, run_cons, run_nil]
  have hget₁ : ∀ r, (c.exec (.addi sp sp (-304))).get r =
      if r = sp then c.get sp + (-304) else c.get r := exec_addi_get c sp (-304) (by decide)
  have hcsr₁ := exec_addi_csr c sp sp (-304)
  have hmem₁ := exec_addi_mem c sp sp (-304)
  generalize c.exec (.addi sp sp (-304)) = c₁ at *
  generalize c.get sp + (-304) = b at *
  have hsp₁ : c₁.get sp = b := by rw [hget₁, if_pos rfl]
  have haddr : ∀ d : Cpu, ∀ o, o < TrapFrame.size → d.get sp = b →
      d.addr sp o = (c.get sp).val - TrapFrame.size + o := by
    intro d o ho hd
    rw [addr_eq (by rw [hd, hpush]; omega), hd, hpush]
  have hmem₂ : (c₁.exec (.sd ra sp 8)).mem =
      write64 c.mem ((c.get sp).val - TrapFrame.size + 8) (c.get ra).val := by
    rw [exec, haddr c₁ 8 (by decide) hsp₁, hmem₁, hget₁, if_neg (by decide)]
  have hget₂ : ∀ r, (c₁.exec (.sd ra sp 8)).get r = c₁.get r := exec_sd_get c₁ ra sp 8
  have hcsr₂ := exec_sd_csr c₁ ra sp 8
  generalize c₁.exec (.sd ra sp 8) = c₂ at *
  have hget₃ : ∀ r, (c₂.exec (.addi t0 sp 304)).get r =
      if r = t0 then c.get sp else c₁.get r := by
    intro r
    rw [exec_addi_get c₂ sp 304 (by decide), hget₂, hget₂, hsp₁, hpop]
  have hmem₃ := exec_addi_mem c₂ t0 sp 304
  have hcsr₃ := exec_addi_csr c₂ t0 sp 304
  generalize c₂.exec (.addi t0 sp 304) = c₃ at *
  refine ⟨?_, ?_, ?_⟩
  · intro r
    rw [exec_sd_get, hget₃, hget₁]
    by_cases h5 : r = t0
    · rw [if_pos h5, if_pos h5, if_neg (by rw [h5]; decide)]
    · rw [if_neg h5, if_neg h5]
  · rw [exec_sd_csr, hcsr₃, hcsr₂, hcsr₁]
  · have hsp₃ : c₃.get sp = b := by rw [hget₃, if_neg (by decide), hsp₁]
    rw [exec, haddr c₃ 16 (by decide) hsp₃, hmem₃, hmem₂, hget₃, if_pos rfl]

/-- The state at the call of `kernel_trap_handler`: the slot of `t0` holds the interrupted `sp`. -/
structure KernelEntered (c c' : Cpu) (f : Nat) : Prop where
  frame : TrapFrame.read c'.mem f =
    (TrapFrame.read c.mem f).save (Function.update c.get t0 (c.get sp)) (c.csr .sstatus)
      (c.csr .sepc)
  rest : ∀ b, b < f ∨ f + TrapFrame.size ≤ b → c'.mem b = c.mem b
  arg : (c'.get a0).val = f
  stack : c'.get sp = c.get sp + (-304)

theorem run_kernelTrapEntry {c : Cpu} (room : TrapFrame.size ≤ (c.get sp).val) :
    KernelEntered c (c.run kernelTrapEntry) ((c.get sp).val - TrapFrame.size) := by
  obtain ⟨hget₁, hcsr₁, hmem₁⟩ := run_kernelTrapPush room
  have hpush := push_val room
  have hlt := (c.get sp).isLt
  unfold TrapFrame.size at room
  have hsp₁ : (c.run kernelTrapPush).get sp = c.get sp + (-304) := by rw [hget₁, if_pos rfl]
  rw [kernelTrapEntry, run_append, run_append, run_append, run_append]
  generalize c.run kernelTrapPush = c₁ at *
  generalize hs : c.get sp + (-304) = s at *
  generalize hf : (c.get sp).val - TrapFrame.size = f at *
  have fits : f + 304 ≤ 2 ^ 64 := by unfold TrapFrame.size at hf; omega
  have stored : Stored c₁ (c₁.run (stores sp (upper.map slot))) (c₁.get sp).val
      (upper.map slot) := run_stores (fits_slots (by rw [hsp₁, hpush]; omega)) (by decide)
  rw [hsp₁, hpush] at stored
  generalize c₁.run (stores sp (upper.map slot)) = c₂ at *
  have hsp₂ : c₂.get sp = s := by rw [stored.regs, hsp₁]
  have saved₃ : SavedCsr c₂ (c₂.run [.csrr t0 .sstatus, .sd t0 sp 256]) t0 .sstatus
      ((c₂.get sp).val + 256) :=
    run_saveCsr (by decide) (by decide) (by rw [hsp₂, hpush]; omega)
  generalize c₂.run [.csrr t0 .sstatus, .sd t0 sp 256] = c₃ at *
  have hsp₃ : c₃.get sp = s := by rw [saved₃.regs sp (by decide), hsp₂]
  have saved₄ : SavedCsr c₃ (c₃.run [.csrr t1 .sepc, .sd t1 sp 264]) t1 .sepc
      ((c₃.get sp).val + 264) :=
    run_saveCsr (by decide) (by decide) (by rw [hsp₃, hpush]; omega)
  generalize c₃.run [.csrr t1 .sepc, .sd t1 sp 264] = c₄ at *
  have hsp₄ : c₄.get sp = s := by rw [saved₄.regs sp (by decide), hsp₃]
  rw [hsp₂, hpush] at saved₃
  rw [hsp₃, hpush] at saved₄
  have pushed : Touches c.mem c₁.mem f [8, 16] := by
    rw [hmem₁]
    exact (Touches.write c.mem f 8 _).trans (Touches.write _ f 16 _)
  have later : Touches c₂.mem c₄.mem f [256, 264] := saved₃.touches.trans saved₄.touches
  have most : Touches c₁.mem c₄.mem f ((upper.map slot).map Prod.snd ++ [256, 264]) :=
    stored.touches.trans later
  have all : Touches c.mem c₄.mem f ([8, 16] ++ ((upper.map slot).map Prod.snd ++ [256, 264])) :=
    pushed.trans most
  have hmem : (c₄.run [.addi a0 sp 0]).mem = c₄.mem := exec_addi_mem c₄ a0 sp 0
  have hregs : ∀ r, (c₄.run [.addi a0 sp 0]).get r =
      if r = a0 then c₄.get sp + 0 else c₄.get r := by
    intro r
    rw [run_cons, run_nil, exec_addi_get c₄ sp 0 (by decide)]
  have inside : ∀ o ∈ [8, 16] ++ ((upper.map slot).map Prod.snd ++ [256, 264]),
      8 ≤ o ∧ o ≤ 264 := by
    decide
  refine ⟨?_, ?_, ?_, ?_⟩
  · rw [hmem]
    refine TrapFrame.read_save ?_ ?_ ?_ ?_
    · intro r hr
      by_cases h1 : r = ra
      · subst h1
        refine (most.word (o := 8) (by decide)).trans ?_
        rw [hmem₁, wordAt_write_apart _ _ (by omega), wordAt_write_same]
        rfl
      · by_cases h2 : r = sp
        · subst h2
          refine (most.word (o := 16) (by decide)).trans ?_
          rw [hmem₁, wordAt_write_same]
          rfl
        · rw [later.word (by revert r; decide)]
          refine (stored.slot (slot r) (by revert r; decide)).trans ?_
          show c₁.get r = Function.update c.get t0 (c.get sp) r
          rw [hget₁, if_neg h2, Function.update_apply]
    · rw [saved₄.touches.word (by decide), saved₃.word, stored.csr, hcsr₁]
    · rw [saved₄.word, saved₃.csr, stored.csr, hcsr₁]
    · intro b hb
      refine all b fun o ho => ?_
      have := inside o ho
      omega
  · intro b hb
    rw [hmem]
    refine all b fun o ho => ?_
    have := inside o ho
    unfold TrapFrame.size at hb
    omega
  · rw [hregs, if_pos rfl, hsp₄, Fin.add_zero, hpush]
  · rw [hregs, if_neg (by decide), hsp₄, hs]

/-- The state at the `sret` of `kernel_trap_exit`. -/
structure KernelReturned (c c' : Cpu) (f : Nat) : Prop where
  regs : ∀ r, r ≠ 0 → r ≠ sp → c'.get r = (TrapFrame.read c.mem f).x r
  stack : c'.get sp = c.get sp + 304
  sstatus : c'.csr .sstatus = (TrapFrame.read c.mem f).sstatus
  sepc : c'.csr .sepc = (TrapFrame.read c.mem f).sepc
  mem : c'.mem = c.mem

theorem run_kernelTrapExit {c : Cpu} (fits : (c.get sp).val + TrapFrame.size ≤ 2 ^ 64) :
    KernelReturned c (c.run kernelTrapExit) (c.get sp).val := by
  generalize hf : (c.get sp).val = f at *
  unfold TrapFrame.size at fits
  rw [kernelTrapExit, run_append, run_append, run_append]
  have loaded₁ : LoadedCsr c (c.run [.ld t0 sp 256, .csrw .sstatus t0]) t0 .sstatus
      (wordAt c.mem ((c.get sp).val + 256)) := run_loadCsr (by decide) (by omega)
  generalize c.run [.ld t0 sp 256, .csrw .sstatus t0] = c₁ at *
  have hsp₁ : c₁.get sp = c.get sp := loaded₁.regs sp (by decide)
  have loaded₂ : LoadedCsr c₁ (c₁.run [.ld t1 sp 264, .csrw .sepc t1]) t1 .sepc
      (wordAt c₁.mem ((c₁.get sp).val + 264)) :=
    run_loadCsr (by decide) (by rw [hsp₁, hf]; omega)
  generalize c₁.run [.ld t1 sp 264, .csrw .sepc t1] = c₂ at *
  have hsp₂ : c₂.get sp = c.get sp := by rw [loaded₂.regs sp (by decide), hsp₁]
  have loaded₃ : Loaded c₂ (c₂.run (loads sp ((1 :: upper).map slot))) (c₂.get sp).val
      ((1 :: upper).map slot) :=
    run_loads (fits_slots (by rw [hsp₂, hf]; omega)) (by decide) (by decide)
  generalize c₂.run (loads sp ((1 :: upper).map slot)) = c₃ at *
  have hsp₃ : c₃.get sp = c.get sp := by rw [loaded₃.rest sp (by decide), hsp₂]
  rw [hf] at loaded₁
  rw [hsp₁, hf, loaded₁.mem] at loaded₂
  rw [hsp₂, hf] at loaded₃
  have hmem₂ : c₂.mem = c.mem := by rw [loaded₂.mem, loaded₁.mem]
  have hregs : ∀ r, (c₃.run [.addi sp sp 304]).get r =
      if r = sp then c₃.get sp + 304 else c₃.get r := by
    intro r
    rw [run_cons, run_nil, exec_addi_get c₃ sp 304 (by decide)]
  have hcsr : (c₃.run [.addi sp sp 304]).csr = c₂.csr := by
    rw [← loaded₃.csr]
    exact exec_addi_csr c₃ sp sp 304
  refine ⟨?_, ?_, ?_, ?_, ?_⟩
  · intro r hr h2
    have hin : slot r ∈ (1 :: upper).map slot := by revert r; decide
    rw [hregs, if_neg h2]
    exact (loaded₃.slot (slot r) hin hr).trans (by rw [hmem₂]; rfl)
  · rw [hregs, if_pos rfl, hsp₃]
  · rw [hcsr, loaded₂.csr, loaded₁.csr]
    rfl
  · rw [hcsr, loaded₂.csr]
    rfl
  · exact (exec_addi_mem c₃ sp sp 304).trans (by rw [loaded₃.mem, hmem₂])

end AlexOS.Asm
