import AlexOS.Lib.Bytes
import Mathlib.Logic.Function.Basic

/-!
# Straight-line RV64 code

Loads, stores, additions and moves between registers and control registers, one after
another. A block that stores registers into slots relative to a base register leaves them
there and touches nothing else, and a block of loads reads them back.
-/

namespace AlexOS.Rv64

open Bytes

abbrev Word := Fin (2 ^ 64)

abbrev Reg := Fin 32

scoped instance neZeroWord : NeZero (2 ^ 64) := ⟨Nat.pos_iff_ne_zero.mp (Nat.two_pow_pos 64)⟩

scoped instance neZeroReg : NeZero 32 := ⟨Nat.succ_ne_zero 31⟩

inductive Csr where
  | sstatus
  | sepc
  | sscratch
deriving DecidableEq

def wordAt (m : Mem) (a : Nat) : Word := ⟨read64 m a, read64_lt m a⟩

structure Cpu where
  x : Reg → Word
  csr : Csr → Word
  mem : Mem

theorem wordAt_congr {m m' : Mem} {a : Nat} (h : ∀ b, a ≤ b → b < a + 8 → m' b = m b) :
    wordAt m' a = wordAt m a := Fin.ext (read64_congr h)

theorem wordAt_write_same (m : Mem) (a : Nat) (v : Word) : wordAt (write64 m a v.val) a = v :=
  Fin.ext (read64_write64_same m v.isLt)

theorem wordAt_write_apart {a b : Nat} (m : Mem) (v : Nat) (h : a + 8 ≤ b ∨ b + 8 ≤ a) :
    wordAt (write64 m a v) b = wordAt m b := Fin.ext (read64_write64_apart m v h)

/-- Only the words at these offsets differ. -/
def Touches (m m' : Mem) (a : Nat) (offsets : List Nat) : Prop :=
  ∀ b, (∀ o ∈ offsets, b < a + o ∨ a + o + 8 ≤ b) → m' b = m b

namespace Touches

variable {m m' m'' : Mem} {a o : Nat} {os os' : List Nat}

theorem write (m : Mem) (a o v : Nat) : Touches m (write64 m (a + o) v) a [o] := by
  intro b hb
  exact write64_apart m v (hb o List.mem_cons_self)

theorem trans (h : Touches m m' a os) (h' : Touches m' m'' a os') :
    Touches m m'' a (os ++ os') := by
  intro b hb
  rw [h' b fun o ho => hb o (List.mem_append_right os ho)]
  exact h b fun o ho => hb o (List.mem_append_left os' ho)

theorem word (h : Touches m m' a os) (apart : ∀ p ∈ os, o + 8 ≤ p ∨ p + 8 ≤ o) :
    wordAt m' (a + o) = wordAt m (a + o) := by
  refine wordAt_congr fun b lo hi => h b fun p hp => ?_
  have := apart p hp
  omega

end Touches

inductive Instr where
  | sd (src base : Reg) (offset : Nat)
  | ld (dst base : Reg) (offset : Nat)
  | addi (dst src : Reg) (imm : Word)
  | csrrw (dst : Reg) (csr : Csr) (src : Reg)
  | csrr (dst : Reg) (csr : Csr)
  | csrw (csr : Csr) (src : Reg)

namespace Cpu

/-- `x0` reads as zero and is not written. -/
def get (c : Cpu) (r : Reg) : Word := if r = 0 then ⟨0, Nat.two_pow_pos 64⟩ else c.x r

def set (c : Cpu) (r : Reg) (v : Word) : Cpu :=
  if r = 0 then c else { c with x := Function.update c.x r v }

def setCsr (c : Cpu) (k : Csr) (v : Word) : Cpu := { c with csr := Function.update c.csr k v }

def addr (c : Cpu) (base : Reg) (offset : Nat) : Nat := ((c.get base).val + offset) % 2 ^ 64

def exec (c : Cpu) : Instr → Cpu
  | .sd src base offset => { c with mem := write64 c.mem (c.addr base offset) (c.get src).val }
  | .ld dst base offset => c.set dst (wordAt c.mem (c.addr base offset))
  | .addi dst src imm => c.set dst (c.get src + imm)
  | .csrrw dst k src => (c.setCsr k (c.get src)).set dst (c.csr k)
  | .csrr dst k => c.set dst (c.csr k)
  | .csrw k src => c.setCsr k (c.get src)

def run (c : Cpu) (code : List Instr) : Cpu := code.foldl exec c

@[simp] theorem run_nil (c : Cpu) : c.run [] = c := rfl

@[simp] theorem run_cons (c : Cpu) (i : Instr) (code : List Instr) :
    c.run (i :: code) = (c.exec i).run code := rfl

theorem run_append (c : Cpu) (code code' : List Instr) :
    c.run (code ++ code') = (c.run code).run code' := List.foldl_append

end Cpu

open Cpu

section
variable {c : Cpu} {r s : Reg} {v : Word} {k l : Csr}

@[simp] theorem get_zero (c : Cpu) : c.get 0 = ⟨0, Nat.two_pow_pos 64⟩ := rfl

@[simp] theorem get_mk (c : Cpu) (csr : Csr → Word) (m : Mem) (r : Reg) :
    (Cpu.mk c.x csr m).get r = c.get r := rfl

@[simp] theorem get_set (c : Cpu) (r s : Reg) (v : Word) :
    (c.set r v).get s = if s = r ∧ r ≠ 0 then v else c.get s := by
  unfold Cpu.set Cpu.get
  by_cases hr : r = 0
  · simp [hr]
  · by_cases hs : s = 0
    · subst hs
      simp [hr, Ne.symm hr]
    · by_cases hsr : s = r
      · simp [hsr, hr]
      · simp [hr, hs, hsr]

@[simp] theorem set_mem (c : Cpu) (r : Reg) (v : Word) : (c.set r v).mem = c.mem := by
  unfold Cpu.set
  split <;> rfl

@[simp] theorem set_csr (c : Cpu) (r : Reg) (v : Word) : (c.set r v).csr = c.csr := by
  unfold Cpu.set
  split <;> rfl

@[simp] theorem setCsr_get (c : Cpu) (k : Csr) (v : Word) (r : Reg) :
    (c.setCsr k v).get r = c.get r := rfl

@[simp] theorem setCsr_mem (c : Cpu) (k : Csr) (v : Word) : (c.setCsr k v).mem = c.mem := rfl

@[simp] theorem setCsr_csr (c : Cpu) (k l : Csr) (v : Word) :
    (c.setCsr k v).csr l = if l = k then v else c.csr l := by
  unfold Cpu.setCsr
  by_cases h : l = k
  · simp [h]
  · simp [h]

@[simp] theorem exec_sd_get (c : Cpu) (src base : Reg) (offset : Nat) (r : Reg) :
    (c.exec (.sd src base offset)).get r = c.get r := by
  rw [exec, get_mk]

@[simp] theorem exec_sd_csr (c : Cpu) (src base : Reg) (offset : Nat) :
    (c.exec (.sd src base offset)).csr = c.csr := by
  rw [exec]

theorem exec_addi_get (c : Cpu) {dst : Reg} (src : Reg) (imm : Word) (h : dst ≠ 0) (r : Reg) :
    (c.exec (.addi dst src imm)).get r = if r = dst then c.get src + imm else c.get r := by
  rw [exec, get_set]
  simp only [h, ne_eq, not_false_eq_true, and_true]

@[simp] theorem exec_addi_csr (c : Cpu) (dst src : Reg) (imm : Word) :
    (c.exec (.addi dst src imm)).csr = c.csr := by
  rw [exec, set_csr]

@[simp] theorem exec_addi_mem (c : Cpu) (dst src : Reg) (imm : Word) :
    (c.exec (.addi dst src imm)).mem = c.mem := by
  rw [exec, set_mem]

theorem addr_eq {base : Reg} {offset : Nat} (h : (c.get base).val + offset < 2 ^ 64) :
    c.addr base offset = (c.get base).val + offset := Nat.mod_eq_of_lt h

end

/-- A control register is saved through a scratch register. -/
structure SavedCsr (c c' : Cpu) (r : Reg) (k : Csr) (a : Nat) : Prop where
  regs : ∀ s, s ≠ r → c'.get s = c.get s
  csr : c'.csr = c.csr
  mem : c'.mem = write64 c.mem a (c.csr k).val

theorem SavedCsr.word {c c' : Cpu} {r : Reg} {k : Csr} {a : Nat} (h : SavedCsr c c' r k a) :
    wordAt c'.mem a = c.csr k := by
  rw [h.mem]
  exact wordAt_write_same c.mem a (c.csr k)

theorem SavedCsr.touches {c c' : Cpu} {r : Reg} {k : Csr} {a o : Nat}
    (h : SavedCsr c c' r k (a + o)) : Touches c.mem c'.mem a [o] := by
  rw [h.mem]
  exact Touches.write c.mem a o _

theorem run_saveCsr {c : Cpu} {r base : Reg} {k : Csr} {offset : Nat} (hr : r ≠ 0)
    (hbase : base ≠ r) (fits : (c.get base).val + offset < 2 ^ 64) :
    SavedCsr c (c.run [.csrr r k, .sd r base offset]) r k ((c.get base).val + offset) := by
  have hget : (c.set r (c.csr k)).get base = c.get base := by simp [hbase]
  refine ⟨?_, ?_, ?_⟩
  · intro s hs
    simp [exec, hs]
  · simp [exec]
  · simp only [run_cons, run_nil, exec]
    rw [addr_eq (by rw [hget]; exact fits), hget, get_set, if_pos ⟨rfl, hr⟩, set_mem]

structure LoadedCsr (c c' : Cpu) (r : Reg) (k : Csr) (v : Word) : Prop where
  regs : ∀ s, s ≠ r → c'.get s = c.get s
  csr : ∀ l, c'.csr l = if l = k then v else c.csr l
  mem : c'.mem = c.mem

theorem run_loadCsr {c : Cpu} {r base : Reg} {k : Csr} {offset : Nat} (hr : r ≠ 0)
    (fits : (c.get base).val + offset < 2 ^ 64) :
    LoadedCsr c (c.run [.ld r base offset, .csrw k r]) r k
      (wordAt c.mem ((c.get base).val + offset)) := by
  rw [← addr_eq fits]
  refine ⟨?_, ?_, ?_⟩
  · intro s hs
    simp [exec, hs]
  · intro l
    simp [exec, hr]
  · simp [exec]

/-! ## Blocks of stores and loads -/

/-- Registers and the offsets of their slots. -/
abbrev Slots := List (Reg × Nat)

def stores (base : Reg) (slots : Slots) : List Instr := slots.map fun s => .sd s.1 base s.2

def loads (base : Reg) (slots : Slots) : List Instr := slots.map fun s => .ld s.1 base s.2

/-- Every slot lies below the end of the address space. -/
def Fits (a : Nat) (slots : Slots) : Prop := ∀ s ∈ slots, a + s.2 + 8 ≤ 2 ^ 64

def Apart (slots : Slots) : Prop := slots.Pairwise fun s t => s.2 + 8 ≤ t.2 ∨ t.2 + 8 ≤ s.2

instance (a : Nat) (slots : Slots) : Decidable (Fits a slots) := by unfold Fits; infer_instance

instance (slots : Slots) : Decidable (Apart slots) := by unfold Apart; infer_instance

/-- What a block of stores leaves behind. -/
structure Stored (c c' : Cpu) (a : Nat) (slots : Slots) : Prop where
  regs : c'.get = c.get
  csr : c'.csr = c.csr
  slot : ∀ s ∈ slots, wordAt c'.mem (a + s.2) = c.get s.1
  touches : Touches c.mem c'.mem a (slots.map Prod.snd)

theorem run_stores {c : Cpu} {base : Reg} {slots : Slots} (fits : Fits (c.get base).val slots)
    (apart : Apart slots) : Stored c (c.run (stores base slots)) (c.get base).val slots := by
  induction slots generalizing c with
  | nil => exact ⟨rfl, rfl, by simp, fun _ _ => rfl⟩
  | cons s slots ih =>
    have hs := fits s List.mem_cons_self
    obtain ⟨hapart, hrest⟩ := List.pairwise_cons.mp apart
    have hget : (c.exec (.sd s.1 base s.2)).get = c.get := funext (exec_sd_get c s.1 base s.2)
    have hmem : (c.exec (.sd s.1 base s.2)).mem =
        write64 c.mem ((c.get base).val + s.2) (c.get s.1).val := by
      rw [exec, addr_eq (by omega)]
    have done := ih (c := c.exec (.sd s.1 base s.2))
      (by rw [hget]; exact fun t ht => fits t (List.mem_cons_of_mem s ht)) hrest
    rw [hget] at done
    refine ⟨done.regs, done.csr, ?_, ?_⟩
    · intro t ht
      rcases List.mem_cons.mp ht with rfl | ht
      · refine (done.touches.word fun p hp => ?_).trans ?_
        · obtain ⟨u, hu, rfl⟩ := List.mem_map.mp hp
          exact hapart u hu
        · rw [hmem]
          exact wordAt_write_same c.mem _ _
      · exact done.slot t ht
    · have first := Touches.write c.mem (c.get base).val s.2 (c.get s.1).val
      rw [← hmem] at first
      exact first.trans done.touches

structure Loaded (c c' : Cpu) (a : Nat) (slots : Slots) : Prop where
  mem : c'.mem = c.mem
  csr : c'.csr = c.csr
  slot : ∀ s ∈ slots, s.1 ≠ 0 → c'.get s.1 = wordAt c.mem (a + s.2)
  rest : ∀ r, (∀ s ∈ slots, s.1 ≠ r) → c'.get r = c.get r

theorem run_loads {c : Cpu} {base : Reg} {slots : Slots} (fits : Fits (c.get base).val slots)
    (hbase : ∀ s ∈ slots, s.1 ≠ base) (nodup : (slots.map Prod.fst).Nodup) :
    Loaded c (c.run (loads base slots)) (c.get base).val slots := by
  induction slots generalizing c with
  | nil => exact ⟨rfl, rfl, by simp, fun _ _ => rfl⟩
  | cons s slots ih =>
    have hs := fits s List.mem_cons_self
    rw [List.map_cons, List.nodup_cons] at nodup
    have hexec : c.exec (.ld s.1 base s.2) = c.set s.1 (wordAt c.mem ((c.get base).val + s.2)) := by
      rw [exec, addr_eq (by omega)]
    have hget : (c.exec (.ld s.1 base s.2)).get base = c.get base := by
      rw [hexec, get_set, if_neg fun h => hbase s List.mem_cons_self h.1.symm]
    have done := ih (c := c.exec (.ld s.1 base s.2))
      (by rw [hget]; exact fun t ht => fits t (List.mem_cons_of_mem s ht))
      (fun t ht => hbase t (List.mem_cons_of_mem s ht)) nodup.2
    rw [hget] at done
    have hmem : (c.exec (.ld s.1 base s.2)).mem = c.mem := by rw [hexec, set_mem]
    refine ⟨done.mem.trans hmem, done.csr.trans (by rw [hexec, set_csr]), ?_, ?_⟩
    · intro t ht hne
      rcases List.mem_cons.mp ht with rfl | ht
      · have := done.rest t.1 fun u hu heq => nodup.1 (heq ▸ List.mem_map_of_mem hu)
        rw [loads, List.map_cons, run_cons, ← loads, this, hexec, get_set, if_pos ⟨rfl, hne⟩]
      · have := done.slot t ht hne
        rw [hmem] at this
        exact this
    · intro r hr
      rw [loads, List.map_cons, run_cons, ← loads,
        done.rest r fun t ht => hr t (List.mem_cons_of_mem s ht), hexec, get_set,
        if_neg fun h => hr s List.mem_cons_self h.1.symm]

end AlexOS.Rv64
