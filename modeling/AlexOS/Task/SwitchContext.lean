import AlexOS.Lib.Run
import AlexOS.Lib.Rv64

/-!
# Contexts across switches

`kernel/src/task/switch.S`, and kernel code in several contexts that switch to one another
with it. Every context has the registers its own code left it with, whoever else ran in
between, and resumes at its `ra`.
-/

namespace AlexOS.Asm

open Bytes Rv64 Rv64.Cpu

@[ext] structure TaskContext where
  ra : Word
  sp : Word
  s : Fin 12 → Word

theorem s_lt (i : Fin 12) : 16 + i.val < 32 := by omega

/-- `s0` and `s1` are `x8` and `x9`; `s2` to `s11` are `x18` to `x27`. -/
def sReg (i : Fin 12) : Reg := if i.val = 0 then 8 else if i.val = 1 then 9 else ⟨16 + i, s_lt i⟩

namespace TaskContext

def size : Nat := 112

def new (entry stackTop : Word) : TaskContext := ⟨entry, stackTop, fun _ => 0⟩

def read (m : Mem) (a : Nat) : TaskContext :=
  ⟨wordAt m a, wordAt m (a + 8), fun i => wordAt m (a + (16 + 8 * i))⟩

/-- What the registers hold of the running context. -/
def live (x : Reg → Word) : TaskContext := ⟨x 1, x 2, fun i => x (sReg i)⟩

theorem read_congr {m m' : Mem} {a : Nat} (h : ∀ b, a ≤ b → b < a + size → m' b = m b) :
    read m' a = read m a := by
  unfold size at h
  refine TaskContext.ext ?_ ?_ (funext fun i => ?_)
  all_goals exact wordAt_congr fun b lo hi => h b (by omega) (by omega)

end TaskContext

/-- `ra`, `sp` and `s0` to `s11` with their offsets. -/
def contextSlots : Slots :=
  [(1, 0), (2, 8), (8, 16), (9, 24), (18, 32), (19, 40), (20, 48), (21, 56), (22, 64), (23, 72),
    (24, 80), (25, 88), (26, 96), (27, 104)]

/-- `switch_context(a0, a1)` up to its `ret`. -/
def switchContext : List Instr := stores 10 contextSlots ++ loads 11 contextSlots

theorem fits_context {a : Nat} (h : a + TaskContext.size ≤ 2 ^ 64) : Fits a contextSlots := by
  intro s hs
  have : s.2 + 8 ≤ TaskContext.size := by revert s; decide
  omega

theorem s_slot (i : Fin 12) : (sReg i, 16 + 8 * i.val) ∈ contextSlots := by
  revert i
  decide

/-- What a switch from the context at `a` to the one at `b` does. -/
structure Switched (c c' : Cpu) (a b : Nat) : Prop where
  saved : TaskContext.read c'.mem a = .live c.get
  loaded : TaskContext.live c'.get = .read c.mem b
  rest : ∀ x, x < a ∨ a + TaskContext.size ≤ x → c'.mem x = c.mem x
  csr : c'.csr = c.csr

theorem Switched.ra {c c' : Cpu} {a b : Nat} (h : Switched c c' a b) :
    c'.get 1 = (TaskContext.read c.mem b).ra := by
  rw [← h.loaded]
  rfl

theorem run_switchContext {c : Cpu} {a b : Nat} (ha : (c.get 10).val = a)
    (hb : (c.get 11).val = b) (fitsA : a + TaskContext.size ≤ 2 ^ 64)
    (fitsB : b + TaskContext.size ≤ 2 ^ 64)
    (apart : a + TaskContext.size ≤ b ∨ b + TaskContext.size ≤ a) :
    Switched c (c.run switchContext) a b := by
  rw [switchContext, run_append]
  have stored : Stored c (c.run (stores 10 contextSlots)) (c.get 10).val contextSlots :=
    run_stores (fits_context (by rw [ha]; exact fitsA)) (by decide)
  rw [ha] at stored
  generalize c.run (stores 10 contextSlots) = c₁ at *
  have hb₁ : (c₁.get 11).val = b := by rw [stored.regs, hb]
  have loaded : Loaded c₁ (c₁.run (loads 11 contextSlots)) (c₁.get 11).val contextSlots :=
    run_loads (fits_context (by rw [hb₁]; exact fitsB)) (by decide) (by decide)
  rw [hb₁] at loaded
  generalize c₁.run (loads 11 contextSlots) = c₂ at *
  have rest : ∀ x, x < a ∨ a + TaskContext.size ≤ x → c₁.mem x = c.mem x := by
    intro x hx
    refine stored.touches x fun o ho => ?_
    have : o + 8 ≤ TaskContext.size := by revert o; decide
    omega
  refine ⟨?_, ?_, ?_, ?_⟩
  · rw [loaded.mem]
    exact TaskContext.ext (stored.slot (1, 0) (by decide)) (stored.slot (2, 8) (by decide))
      (funext fun i => stored.slot _ (s_slot i))
  · have same : TaskContext.read c₁.mem b = .read c.mem b :=
      TaskContext.read_congr fun x lo hi => rest x (by omega)
    rw [← same]
    exact TaskContext.ext (loaded.slot (1, 0) (by decide) (by decide))
      (loaded.slot (2, 8) (by decide) (by decide))
      (funext fun i => loaded.slot _ (s_slot i) (by revert i; decide))
  · intro x hx
    rw [loaded.mem, rest x hx]
  · rw [loaded.csr, stored.csr]

/-! ## Many contexts -/

namespace Contexts

variable {n : Nat}

structure World (n : Nat) where
  cpu : Cpu
  pc : Word
  ctx : Fin n → Word
  running : Fin n

structure Placed (ctx : Fin n → Word) : Prop where
  fits : ∀ t, (ctx t).val + TaskContext.size ≤ 2 ^ 64
  apart : ∀ t u, t ≠ u → (ctx t).val + TaskContext.size ≤ (ctx u).val ∨
    (ctx u).val + TaskContext.size ≤ (ctx t).val

inductive Op (n : Nat) where
  | code (live : TaskContext)
  | new (t : Fin n) (entry stackTop : Word)
  | switch (t : Fin n)

inductive Step : World n → Op n → World n → Prop where
  /-- Kernel code of the running context, which leaves the saved ones alone. -/
  | code {w : World n} {c : Cpu} {pc : Word} :
      (∀ t, t ≠ w.running → ∀ b, (w.ctx t).val ≤ b → b < (w.ctx t).val + TaskContext.size →
        c.mem b = w.cpu.mem b) →
      Step w (.code (.live c.get)) { w with cpu := c, pc := pc }
  /-- It makes the context of a new task. -/
  | new {w : World n} {c : Cpu} {pc : Word} {t : Fin n} {entry stackTop : Word} :
      t ≠ w.running → TaskContext.read c.mem (w.ctx t).val = .new entry stackTop →
      (∀ u, u ≠ w.running → u ≠ t → ∀ b, (w.ctx u).val ≤ b →
        b < (w.ctx u).val + TaskContext.size → c.mem b = w.cpu.mem b) →
      TaskContext.live c.get = .live w.cpu.get →
      Step w (.new t entry stackTop) { w with cpu := c, pc := pc }
  /-- It calls `switch_context`, whose `ret` goes to the `ra` that was loaded. -/
  | switch {w : World n} {t : Fin n} : t ≠ w.running → w.cpu.get 10 = w.ctx w.running →
      w.cpu.get 11 = w.ctx t →
      Step w (.switch t)
        ⟨w.cpu.run switchContext, (w.cpu.run switchContext).get 1, w.ctx, t⟩

def system (n : Nat) : System (World n) (Op n) := ⟨fun w => Placed w.ctx, Step⟩

structure Saved (n : Nat) where
  context : Fin n → TaskContext
  running : Fin n

def act (s : Saved n) : Op n → Saved n
  | .code live => { s with context := Function.update s.context s.running live }
  | .new t entry stackTop => { s with context := Function.update s.context t (.new entry stackTop) }
  | .switch t => { s with running := t }

/-- The running context is in the registers, the others are in memory. -/
def view (w : World n) : Saved n :=
  ⟨fun t => if t = w.running then .live w.cpu.get else .read w.cpu.mem (w.ctx t).val, w.running⟩

section
variable {w w' : World n} {op : Op n}

theorem view_running (w : World n) : (view w).context w.running = .live w.cpu.get := if_pos rfl

theorem view_parked (w : World n) {t : Fin n} (h : t ≠ w.running) :
    (view w).context t = .read w.cpu.mem (w.ctx t).val := if_neg h

theorem switched_to (placed : Placed w.ctx) {t : Fin n} (ht : t ≠ w.running)
    (harg₀ : w.cpu.get 10 = w.ctx w.running) (harg₁ : w.cpu.get 11 = w.ctx t) :
    Switched w.cpu (w.cpu.run switchContext) (w.ctx w.running).val (w.ctx t).val :=
  run_switchContext (by rw [harg₀]) (by rw [harg₁]) (placed.fits _) (placed.fits _)
    (placed.apart _ _ ht.symm)

theorem Step.placed (hs : Step w op w') (placed : Placed w.ctx) :
    Placed w'.ctx ∧ view w' = act (view w) op := by
  cases hs with
  | @code c pc kept =>
    refine ⟨placed, congrArg (Saved.mk · w.running) (funext fun t => ?_)⟩
    show (if t = w.running then TaskContext.live c.get else .read c.mem (w.ctx t).val) =
      Function.update (view w).context w.running (.live c.get) t
    by_cases ht : t = w.running
    · rw [if_pos ht, ht, Function.update_self]
    · rw [if_neg ht, Function.update_of_ne ht, view_parked w ht]
      exact TaskContext.read_congr (kept t ht)
  | @new c pc t entry stackTop hne made kept hlive =>
    refine ⟨placed, congrArg (Saved.mk · w.running) (funext fun u => ?_)⟩
    show (if u = w.running then TaskContext.live c.get else .read c.mem (w.ctx u).val) =
      Function.update (view w).context t (.new entry stackTop) u
    by_cases hu : u = t
    · rw [hu, if_neg hne, Function.update_self, made]
    · rw [Function.update_of_ne hu]
      by_cases hr : u = w.running
      · rw [if_pos hr, hr, view_running, hlive]
      · rw [if_neg hr, view_parked w hr]
        exact TaskContext.read_congr (kept u hr hu)
  | @switch t ht harg₀ harg₁ =>
    have switched := switched_to placed ht harg₀ harg₁
    refine ⟨placed, congrArg (Saved.mk · t) (funext fun u => ?_)⟩
    show (if u = t then TaskContext.live (w.cpu.run switchContext).get
      else .read (w.cpu.run switchContext).mem (w.ctx u).val) = (view w).context u
    by_cases hu : u = t
    · rw [if_pos hu, hu, switched.loaded, view_parked w ht]
    · rw [if_neg hu]
      by_cases hr : u = w.running
      · rw [hr, switched.saved, view_running]
      · rw [view_parked w hr]
        refine TaskContext.read_congr fun b lo hi => switched.rest b ?_
        have := placed.apart u w.running hr
        omega

end

/-- In any run every context is what its own code made it, and a switch goes on where the
context it switches to was left. -/
theorem reach_contexts {w₀ w : World n} {ops : List (Op n)}
    (hr : Reach ((system n).startAt w₀).traced (w, ops)) :
    view w = ops.foldl act (view w₀) ∧ ∀ t w', Step w (.switch t) w' →
      w'.pc = ((view w).context t).ra ∧ .live w'.cpu.get = (view w).context t := by
  obtain ⟨placed, hview⟩ := Reach.computes (fun w : World n => Placed w.ctx) view act
    (fun _ h => h) (fun w op w' placed hs => Step.placed hs placed) hr
  refine ⟨hview, ?_⟩
  intro t w' hs
  cases hs with
  | switch ht harg₀ harg₁ =>
    have switched := switched_to placed ht harg₀ harg₁
    rw [view_parked w ht]
    constructor
    · dsimp only
      exact switched.ra
    · dsimp only
      exact switched.loaded

theorem ctx_lt (t : Fin 2) : 4096 * (t.val + 1) < 2 ^ 64 := by omega

def twoContexts (t : Fin 2) : Word := ⟨4096 * (t + 1), ctx_lt t⟩

/-- About to call `switch_context(p, q)`. -/
def calling (p q : Word) (m : Mem) : Cpu := ⟨fun r => if r = 11 then q else p, fun _ => p, m⟩

theorem Step.calls (w : World 2) (p q : Word) :
    Step w (.code (.live (calling p q w.cpu.mem).get))
      { w with cpu := calling p q w.cpu.mem, pc := p } :=
  .code fun _ _ _ _ _ => rfl

theorem parked_across_switches : ∃ (w₀ w : World 2) (live other : TaskContext),
    Reach ((system 2).startAt w₀).traced
      (w, [.code live, .switch 1, .code other, .switch 0]) ∧
    (view w).context 0 = live ∧ live.sp ≠ other.sp := by
  have placed : Placed twoContexts := by
    constructor
    · decide
    · decide
  let w₀ : World 2 :=
    ⟨calling (twoContexts 0) (twoContexts 1) fun _ => 0, twoContexts 0, twoContexts, 0⟩
  have start : Reach ((system 2).startAt w₀).traced (w₀, []) := .init ⟨⟨placed, rfl⟩, rfl⟩
  have first := start.extend (Step.calls _ (twoContexts 0) (twoContexts 1))
  have second := first.extend (.switch (t := 1) (by decide) rfl rfl)
  have third := second.extend (Step.calls _ (twoContexts 1) (twoContexts 0))
  have fourth := third.extend (.switch (t := 0) (by decide) rfl rfl)
  obtain ⟨hview, _⟩ := reach_contexts fourth
  refine ⟨w₀, _, _, _, fourth, ?_, by decide⟩
  rw [hview]
  rfl

end Contexts

end AlexOS.Asm
