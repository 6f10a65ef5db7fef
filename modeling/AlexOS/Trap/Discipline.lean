import AlexOS.Trap.Hart

/-!
# Where the hart can be

Every run keeps the hart in one of a few shapes: in `kmain` or the idle loop on
the boot stack, in a task on that task's stack, in a kernel trap taken from one
of these, or in `switch_to_idle`. The only ways out are a trap through the wrong
vector and a switch to an idle context that was never saved; the hart is then
`wild`.
-/

namespace AlexOS

/-- The vector that is installed at each point. -/
def Point.vector : Point → TrapVector
  | .userVector | .userReturn | .user | .userTrap _ => .user
  | _ => .kernel

/-- In the kernel trap handler. -/
def Point.TrapAt : Point → Prop
  | .kernelTrap _ | .kernelResched | .kernelExit => True
  | _ => False

/-- Where a task can be interrupted. -/
def Point.Open : Point → Prop
  | .taskEntry | .code | .userEntry | .syscall => True
  | _ => False

/-- What a task returns to from `switch_to_idle`, and whether it unmasks. -/
def Point.Resumes (e : Bool) : Point → Prop
  | .code | .syscall => True
  | .userLeave => e = false
  | _ => False

/-- A task outside kernel traps, with interrupts on or off. -/
def Point.TaskAt (sie : Bool) : Point → Prop
  | .taskEntry | .code | .userEntry | .userVector | .syscall | .user => True
  | .userReturn | .userTrap _ | .userCause _ | .userResched | .userLeave => sie = false
  | .switched e p => sie = false ∧ p.Resumes e
  | _ => False

/-- With interrupts on and the kernel vector installed. -/
theorem Point.TaskAt.isOpen {p : Point} (h : p.TaskAt true) (hv : p.vector = .kernel) : p.Open := by
  cases p <;> simp_all [Point.TaskAt, Point.Open, Point.vector]

def Point.isBoot : Point → Bool
  | .kmainInit | .kmain | .runTop | .runPick | .runPicked _ | .runPublished _ | .runWait => true
  | _ => false

def Point.isTask : Point → Bool
  | .taskEntry | .code | .userEntry | .userVector | .syscall | .user | .userReturn | .userTrap _
  | .userCause _ | .userResched | .userLeave => true
  | _ => false

/-- The frame a kernel trap pushes when it interrupts the kernel at `p`. -/
def interrupted (p : Point) : KernelFrame := ⟨⟨false, true, .supervisor⟩, p⟩

/-- What a task that is not running has in its context. -/
inductive Parked (t : Nat) : Context → Prop where
  | fresh : Parked t ⟨.task t, .taskEntry, []⟩
  | switched {e : Bool} {p : Point} : p.Resumes e → Parked t ⟨.task t, .switched e p, []⟩
  | trapped {p : Point} : p.Open →
      Parked t ⟨.task t, .switched false .kernelExit, [interrupted p]⟩

theorem Parked.kernel {t : Nat} {c : Context} (h : Parked t c) :
    c.point ≠ .user ∧ c.point ≠ .userReturn ∧ c.point.vector = .kernel := by
  cases h <;> simp [Point.vector]

namespace Hart

/-- `kmain` and the idle loop, with the task that is current there. -/
def BootAt (h : Hart) (cur : Option Nat) : Point → Prop
  | .kmainInit | .kmain => cur = none ∧ h.idle = .zeroed
  | .runTop | .runPick | .runWait => cur = none
  | .runPicked t => cur = none ∧ h.exited t = false
  | .runPublished t => cur = some t ∧ h.exited t = false
  | _ => False

theorem BootAt.congr {h h' : Hart} {cur : Option Nat} {p : Point} (hat : h.BootAt cur p)
    (hexited : h'.exited = h.exited) (hidle : h'.idle = h.idle) : h'.BootAt cur p := by
  cases p <;> simp_all [BootAt]

/-- Until the first switch the idle loop runs with interrupts on. -/
inductive Placed (h : Hart) : Prop where
  | boot : h.run.stack = .boot → h.run.frames = [] → h.BootAt h.current h.run.point →
      (h.sstatus.sie = true → h.idle = .zeroed ∨ h.run.point = .runWait) → Placed h
  | bootTrap {p : Point} : h.run.stack = .boot → h.run.frames = [interrupted p] →
      h.run.point.TrapAt → h.BootAt h.current p → h.sstatus.sie = false →
      (h.idle = .zeroed ∨ p = .runWait) → Placed h
  | bootLeaving {t : Nat} : h.run.point = .leaving t false .kernelExit → h.sstatus.sie = false →
      h.idle = .zeroed → h.run.stack = .boot → Placed h
  | task {t : Nat} : h.run.stack = .task t → h.run.frames = [] → h.current = some t →
      h.run.point.TaskAt h.sstatus.sie → h.idle = .saved ⟨.boot, .runTop, []⟩ → Placed h
  | taskTrap {t : Nat} {p : Point} : h.run.stack = .task t → h.run.frames = [interrupted p] →
      h.current = some t → h.run.point.TrapAt ∨ h.run.point = .switched false .kernelExit →
      p.Open → h.sstatus.sie = false → h.idle = .saved ⟨.boot, .runTop, []⟩ → Placed h
  | leaving {t : Nat} {e : Bool} {p : Point} : h.run.point = .leaving t e p →
      h.run.stack = .task t → h.current = none → h.sstatus.sie = false →
      h.idle = .saved ⟨.boot, .runTop, []⟩ →
      h.exited t = true ∨ Parked t ⟨h.run.stack, .switched e p, h.run.frames⟩ → Placed h

/-- A task whose context is loaded goes on where it was parked. -/
theorem Placed.of_parked {h : Hart} {t : Nat} (hparked : Parked t h.run) (hcur : h.current = some t)
    (hidle : h.idle = .saved ⟨.boot, .runTop, []⟩)
    (hsie : h.run.point = .taskEntry ∨ h.sstatus.sie = false) : Placed h := by
  obtain ⟨c, hrun⟩ : ∃ c, h.run = c := ⟨_, rfl⟩
  rw [hrun] at hparked hsie
  cases hparked with
  | fresh => exact .task (by rw [hrun]) (by rw [hrun]) hcur (by rw [hrun]; trivial) hidle
  | switched hresumes =>
    have hmask : h.sstatus.sie = false := by simpa using hsie
    exact .task (by rw [hrun]) (by rw [hrun]) hcur (by rw [hrun]; exact ⟨hmask, hresumes⟩) hidle
  | trapped hopen =>
    have hmask : h.sstatus.sie = false := by simpa using hsie
    exact .taskTrap (by rw [hrun]) (by rw [hrun]) hcur (by rw [hrun]; exact .inr rfl) hopen hmask
      hidle

structure Sound (h : Hart) : Prop where
  mode : h.mode = .user ↔ h.run.point = .user
  stvec : h.stvec = h.run.point.vector
  placed : Placed h
  ctx : ∀ t, h.exited t = false → Parked t (h.ctx t)
  fresh : h.idle = .zeroed → ∀ t, h.exited t = false → (h.ctx t).point = .taskEntry
  frame : ∀ t, (h.frame t).sie = false ∧ (h.frame t).spp = .user
  scratch : h.run.point = .userReturn ∨ h.run.point = .user → h.sscratch = h.current
  returns : h.run.point = .userReturn → h.sstatus.spp = .user

def Wild (h : Hart) : Prop :=
  h.run.point = .wild ∧ h.sstatus.sie = false ∧ h.mode = .supervisor

section
variable {h : Hart} {t : Nat} {p : Point}

theorem Sound.boot : Sound boot where
  mode := by simp [Hart.boot]
  stvec := rfl
  placed := .boot rfl rfl (by simp [Hart.boot, BootAt]) (by simp [Hart.boot])
  ctx t _ := .fresh
  fresh _ _ _ := rfl
  frame _ := ⟨rfl, rfl⟩
  scratch := by simp [Hart.boot]
  returns := by simp [Hart.boot]

theorem Sound.at_boot (hs : Sound h) (hp : h.run.point.isBoot = true) :
    h.run.stack = .boot ∧ h.run.frames = [] ∧ h.BootAt h.current h.run.point ∧
      (h.sstatus.sie = true → h.idle = .zeroed ∨ h.run.point = .runWait) := by
  cases hs.placed with
  | boot hstack hframes hat hsie => exact ⟨hstack, hframes, hat, hsie⟩
  | bootTrap _ _ htrap => cases hq : h.run.point <;> simp_all [Point.TrapAt, Point.isBoot]
  | bootLeaving hleaving => simp [hleaving, Point.isBoot] at hp
  | task _ _ _ hat => cases hq : h.run.point <;> simp_all [Point.TaskAt, Point.isBoot]
  | taskTrap _ _ _ htrap =>
    rcases htrap with htrap | hback
    · cases hq : h.run.point <;> simp_all [Point.TrapAt, Point.isBoot]
    · simp [hback, Point.isBoot] at hp
  | leaving hleaving => simp [hleaving, Point.isBoot] at hp

theorem Sound.at_task (hs : Sound h) (hp : h.run.point.isTask = true) :
    ∃ t, h.run.stack = .task t ∧ h.run.frames = [] ∧ h.current = some t ∧
      h.run.point.TaskAt h.sstatus.sie ∧ h.idle = .saved ⟨.boot, .runTop, []⟩ := by
  cases hs.placed with
  | boot _ _ hat => cases hq : h.run.point <;> simp_all [BootAt, Point.isTask]
  | bootTrap _ _ htrap => cases hq : h.run.point <;> simp_all [Point.TrapAt, Point.isTask]
  | bootLeaving hleaving => simp [hleaving, Point.isTask] at hp
  | task hstack hframes hcur hat hidle => exact ⟨_, hstack, hframes, hcur, hat, hidle⟩
  | taskTrap _ _ _ htrap =>
    rcases htrap with htrap | hback
    · cases hq : h.run.point <;> simp_all [Point.TrapAt, Point.isTask]
    · simp [hback, Point.isTask] at hp
  | leaving hleaving => simp [hleaving, Point.isTask] at hp

/-- A kernel trap interrupted the idle loop or a task. -/
theorem Sound.at_trap (hs : Sound h) (hp : h.run.point.TrapAt) : h.sstatus.sie = false ∧
    ∃ p, h.run.frames = [interrupted p] ∧
      (h.run.stack = .boot ∧ h.BootAt h.current p ∧ (h.idle = .zeroed ∨ p = .runWait) ∨
      ∃ t, h.run.stack = .task t ∧ h.current = some t ∧ p.Open ∧
        h.idle = .saved ⟨.boot, .runTop, []⟩) := by
  cases hs.placed with
  | boot _ _ hat => cases hq : h.run.point <;> simp_all [BootAt, Point.TrapAt]
  | bootTrap hstack hframes _ hat hsie hidle =>
    exact ⟨hsie, _, hframes, .inl ⟨hstack, hat, hidle⟩⟩
  | bootLeaving hleaving => simp [hleaving, Point.TrapAt] at hp
  | task _ _ _ hat => cases hq : h.run.point <;> simp_all [Point.TaskAt, Point.TrapAt]
  | taskTrap hstack hframes hcur _ hopen hsie hidle =>
    exact ⟨hsie, _, hframes, .inr ⟨_, hstack, hcur, hopen, hidle⟩⟩
  | leaving hleaving => simp [hleaving, Point.TrapAt] at hp

/-- What a step leaves of the saved contexts and frames. -/
theorem Sound.keep (hs : Sound h) {h' : Hart} (hctx : h'.ctx = h.ctx)
    (hexited : h'.exited = h.exited)
    (hidle : h'.idle = h.idle) (hframe : h'.frame = h.frame)
    (mode : h'.mode = .user ↔ h'.run.point = .user) (stvec : h'.stvec = h'.run.point.vector)
    (placed : Placed h')
    (scratch : h'.run.point = .userReturn ∨ h'.run.point = .user → h'.sscratch = h'.current)
    (returns : h'.run.point = .userReturn → h'.sstatus.spp = .user) : Sound h' :=
  ⟨mode, stvec, placed, by rw [hctx, hexited]; exact hs.ctx,
    by rw [hctx, hexited, hidle]; exact hs.fresh, by rw [hframe]; exact hs.frame, scratch, returns⟩

theorem Sound.supervisor (hs : Sound h) (hp : h.run.point ≠ .user) : h.mode = .supervisor := by
  cases hm : h.mode with
  | user => exact absurd (hs.mode.mp hm) hp
  | supervisor => rfl

/-! ## One step -/

/-- A step of `kmain` or the idle loop. -/
theorem Sound.boot_to (hs : Sound h) (hb : h.run.point.isBoot = true) {h' : Hart}
    (hctx : h'.ctx = h.ctx) (hexited : h'.exited = h.exited) (hidle : h'.idle = h.idle)
    (hframe : h'.frame = h.frame) (hmode : h'.mode = h.mode) (hstvec : h'.stvec = h.stvec)
    (hrun : h'.run = ⟨h.run.stack, p, h.run.frames⟩) (hp : p.isBoot = true)
    (hat : h'.BootAt h'.current p)
    (hsie : h'.sstatus.sie = true → h'.idle = .zeroed ∨ p = .runWait) : Sound h' := by
  obtain ⟨hstack, hframes, _, _⟩ := hs.at_boot hb
  have hkernel : ∀ {q : Point}, q.isBoot = true → q ≠ .user ∧ q ≠ .userReturn ∧
      q.vector = .kernel := by
    intro q hq
    cases q <;> simp_all [Point.isBoot, Point.vector]
  have hpoint : h'.run.point = p := by rw [hrun]
  refine hs.keep hctx hexited hidle hframe ?_ ?_ (.boot ?_ ?_ ?_ ?_) ?_ ?_
  · rw [hmode, hpoint, hs.mode]
    simp [(hkernel hp).1, (hkernel hb).1]
  · rw [hstvec, hs.stvec, hpoint, (hkernel hp).2.2, (hkernel hb).2.2]
  · rw [hrun]; exact hstack
  · rw [hrun]; exact hframes
  · rw [hpoint]; exact hat
  · rw [hpoint]; exact hsie
  · simp [hpoint, (hkernel hp).1, (hkernel hp).2.1]
  · simp [hpoint, (hkernel hp).2.1]

/-- A step of a task outside kernel traps. -/
theorem Sound.task_to (hs : Sound h) (ht : h.run.point.isTask = true) {h' : Hart}
    (hctx : h'.ctx = h.ctx) (hexited : h'.exited = h.exited) (hidle : h'.idle = h.idle)
    (hframe : h'.frame = h.frame) (hcur : h'.current = h.current)
    (hrun : h'.run = ⟨h.run.stack, p, h.run.frames⟩) (hat : p.TaskAt h'.sstatus.sie)
    (hmode : h'.mode = .user ↔ p = .user) (hstvec : h'.stvec = p.vector)
    (hscratch : p = .userReturn ∨ p = .user → h'.sscratch = h.current)
    (hreturns : p = .userReturn → h'.sstatus.spp = .user) : Sound h' := by
  obtain ⟨t, hstack, hframes, hcurrent, _, hidle'⟩ := hs.at_task ht
  have hpoint : h'.run.point = p := by rw [hrun]
  refine hs.keep hctx hexited hidle hframe ?_ ?_ (.task (t := t) ?_ ?_ ?_ ?_ ?_) ?_ ?_
  · rw [hpoint]; exact hmode
  · rw [hpoint]; exact hstvec
  · rw [hrun]; exact hstack
  · rw [hrun]; exact hframes
  · rw [hcur]; exact hcurrent
  · rw [hpoint]; exact hat
  · rw [hidle]; exact hidle'
  · rw [hpoint, hcur]; exact hscratch
  · rw [hpoint]; exact hreturns

/-- A step inside the kernel trap handler that does not leave it. -/
theorem Sound.trap_to (hs : Sound h) (ht : h.run.point.TrapAt) {h' : Hart}
    (hctx : h'.ctx = h.ctx) (hexited : h'.exited = h.exited) (hidle : h'.idle = h.idle)
    (hframe : h'.frame = h.frame) (hcur : h'.current = h.current) (hmode : h'.mode = h.mode)
    (hstvec : h'.stvec = h.stvec) (hsstatus : h'.sstatus = h.sstatus)
    (hrun : h'.run = ⟨h.run.stack, p, h.run.frames⟩) (hp : p.TrapAt) : Sound h' := by
  obtain ⟨hsie, q, hframes, hside⟩ := hs.at_trap ht
  have hkernel : ∀ {q : Point}, q.TrapAt → q ≠ .user ∧ q ≠ .userReturn ∧ q.vector = .kernel := by
    intro q hq
    cases q <;> simp_all [Point.TrapAt, Point.vector]
  have hpoint : h'.run.point = p := by rw [hrun]
  refine hs.keep hctx hexited hidle hframe ?_ ?_ ?_ ?_ ?_
  · rw [hmode, hpoint, hs.mode]
    simp [(hkernel hp).1, (hkernel ht).1]
  · rw [hstvec, hs.stvec, hpoint, (hkernel hp).2.2, (hkernel ht).2.2]
  · rcases hside with ⟨hstack, hat, hzero⟩ | ⟨t, hstack, hcurrent, hopen, hsaved⟩
    · refine .bootTrap (p := q) ?_ ?_ ?_ ?_ ?_ ?_
      · rw [hrun]; exact hstack
      · rw [hrun]; exact hframes
      · rw [hpoint]; exact hp
      · rw [hcur]; exact hat.congr hexited hidle
      · rw [hsstatus]; exact hsie
      · rw [hidle]; exact hzero
    · refine .taskTrap (t := t) (p := q) ?_ ?_ ?_ ?_ hopen ?_ ?_
      · rw [hrun]; exact hstack
      · rw [hrun]; exact hframes
      · rw [hcur]; exact hcurrent
      · rw [hpoint]; exact .inl hp
      · rw [hsstatus]; exact hsie
      · rw [hidle]; exact hsaved
  · simp [hpoint, (hkernel hp).1, (hkernel hp).2.1]
  · simp [hpoint, (hkernel hp).2.1]

/-- `switch_to_idle` in a task, which leaves a context to come back to or has exited. -/
theorem Sound.leave (hs : Sound h) {h' : Hart} {e : Bool} (hctx : h'.ctx = h.ctx)
    (hexited : ∀ u, h'.exited u = false → h.exited u = false) (hidle : h'.idle = h.idle)
    (hframe : h'.frame = h.frame) (hcur : h'.current = none) (hmode : h'.mode = .supervisor)
    (hstvec : h'.stvec = .kernel) (hsie : h'.sstatus.sie = false)
    (hrun : h'.run = ⟨h.run.stack, .leaving t e p, h.run.frames⟩) (hstack : h.run.stack = .task t)
    (hsaved : h.idle = .saved ⟨.boot, .runTop, []⟩)
    (hpark : h'.exited t = true ∨ Parked t ⟨h.run.stack, .switched e p, h.run.frames⟩) :
    Sound h' := by
  have hpoint : h'.run.point = .leaving t e p := by rw [hrun]
  refine ⟨?_, ?_, .leaving hpoint ?_ hcur hsie ?_ ?_, ?_, ?_, ?_, ?_, ?_⟩
  · simp [hmode, hpoint]
  · rw [hstvec, hpoint]; rfl
  · rw [hrun]; exact hstack
  · rw [hidle]; exact hsaved
  · rw [hrun]; exact hpark
  · rw [hctx]; exact fun u hu => hs.ctx u (hexited u hu)
  · rw [hctx, hidle]; exact fun hz u hu => hs.fresh hz u (hexited u hu)
  · rw [hframe]; exact hs.frame
  · simp [hpoint]
  · simp [hpoint]

/-- A new task has a fresh context and a user frame. -/
theorem Sound.admitTask (hs : Sound h) (hb : h.run.point = .kmain ∨ h.run.point.isBody = true)
    (u : Bool) {f : Sstatus} (hf : f.sie = false ∧ f.spp = .user) :
    Sound (h.admitTask t u f) := by
  refine ⟨hs.mode, hs.stvec, ?_, fun v hv => ?_, fun hz v hv => ?_, fun v => ?_, hs.scratch,
    hs.returns⟩
  · rcases hb with hb | hb
    · obtain ⟨hstack, hframes, hat, hsie⟩ := hs.at_boot (by simp [hb, Point.isBoot])
      refine .boot hstack hframes ?_ hsie
      simpa [hb, BootAt, Hart.admitTask] using hat
    · obtain ⟨t, hstack, hframes, hcur, hat, hidle⟩ := hs.at_task (by
        cases hq : h.run.point <;> simp_all [Point.isBody, Point.isTask])
      exact .task hstack hframes hcur hat hidle
  · by_cases hvt : v = t
    · subst hvt
      simpa [Hart.admitTask] using Parked.fresh
    · simpa [Hart.admitTask, hvt] using hs.ctx v (by simpa [Hart.admitTask, hvt] using hv)
  · by_cases hvt : v = t
    · subst hvt; simp [Hart.admitTask]
    · simpa [Hart.admitTask, hvt] using hs.fresh hz v (by simpa [Hart.admitTask, hvt] using hv)
  · by_cases hvt : v = t
    · subst hvt; simpa [Hart.admitTask] using hf
    · simpa [Hart.admitTask, hvt] using hs.frame v

theorem Sound.userTrap (hs : Sound h) (hm : h.mode = .user) (c : Cause) : Sound (h.trap c) := by
  have hp := hs.mode.mp hm
  obtain ⟨t, _, _, hcur, _, hidle⟩ := hs.at_task (by simp [hp, Point.isTask])
  have hstvec : h.stvec = .user := by rw [hs.stvec, hp]; rfl
  have hscratch : h.sscratch = some t := by rw [hs.scratch (.inr hp), hcur]
  have htrap : h.trap c = { h.trapIn with
      sscratch := none
      frame := Function.update h.frame t ⟨false, h.sstatus.sie, .user⟩
      run := ⟨.task t, .userTrap c, []⟩ } := by
    simp [Hart.trap, hm, hstvec, trapIn, userTrapEntry, hscratch]
  rw [htrap]
  refine ⟨by simp [trapIn], by simp [trapIn, hstvec, Point.vector],
    .task rfl rfl hcur (by simp [trapIn, Point.TaskAt]) hidle, hs.ctx, hs.fresh, fun u => ?_,
    by simp, by simp⟩
  by_cases hu : u = t
  · subst hu; simp
  · simpa [trapIn, hu] using hs.frame u

theorem Sound.kernelTrap (hs : Sound h) (hm : h.mode = .supervisor) (hsie : h.sstatus.sie = true)
    (c : Cause) : (h.stvec = .kernel ∧ Sound (h.trap c)) ∨ (h.stvec = .user ∧ Wild (h.trap c)) := by
  cases hstvec : h.stvec with
  | user => exact .inr ⟨rfl, by simp [Hart.trap, hm, hstvec, trapIn, crash, setSie, goto, Wild]⟩
  | kernel =>
    refine .inl ⟨rfl, ?_⟩
    have htrap : h.trap c = { h with
        sstatus := ⟨false, true, .supervisor⟩
        run := ⟨h.run.stack, .kernelTrap c, interrupted h.run.point :: h.run.frames⟩ } := by
      simp [Hart.trap, hm, hstvec, trapIn, kernelTrapEntry, hsie, interrupted]
    rw [htrap]
    refine hs.keep rfl rfl rfl rfl (by simp [hm]) (by simp [hstvec, Point.vector]) ?_
      (by simp) (by simp)
    cases hs.placed with
    | boot hstack hframes hat hzero =>
      exact .bootTrap (p := h.run.point) hstack (by simp [hframes]) trivial
        (hat.congr rfl rfl) rfl (hzero hsie)
    | bootTrap _ _ _ _ hmask => simp [hmask] at hsie
    | bootLeaving _ hmask => simp [hmask] at hsie
    | @task t hstack hframes hcur hat hidle =>
      refine .taskTrap (t := t) (p := h.run.point) hstack (by simp [hframes]) hcur (.inl trivial)
        ?_ rfl hidle
      rw [hsie] at hat
      exact hat.isOpen (hs.stvec.symm.trans hstvec)
    | taskTrap _ _ _ _ _ hmask => simp [hmask] at hsie
    | leaving _ _ _ hmask => simp [hmask] at hsie

/-- Back from the handler to where the trap was taken, with interrupts on. -/
theorem Sound.kernelTrapExit (hs : Sound h) (hp : h.run.point = .kernelExit) :
    Sound h.kernelTrapExit := by
  obtain ⟨_, q, hframes, hside⟩ := hs.at_trap (by simp [hp, Point.TrapAt])
  have hstvec : h.stvec = .kernel := by rw [hs.stvec, hp]; rfl
  have hexit : h.kernelTrapExit = { h with
      mode := .supervisor, sstatus := ⟨true, true, .user⟩, run := ⟨h.run.stack, q, []⟩ } := by
    simp [Hart.kernelTrapExit, hframes, interrupted, Hart.sret]
  rw [hexit]
  rcases hside with ⟨hstack, hat, hzero⟩ | ⟨t, hstack, hcur, hopen, hidle⟩
  · have hq : q ≠ .user ∧ q ≠ .userReturn ∧ q.vector = .kernel := by
      cases q <;> simp_all [BootAt, Point.vector]
    exact hs.keep rfl rfl rfl rfl (by simp [hq]) (by simp [hstvec, hq])
      (.boot hstack rfl (hat.congr rfl rfl) fun _ => hzero) (by simp [hq]) (by simp [hq])
  · have hq : q ≠ .user ∧ q ≠ .userReturn ∧ q.vector = .kernel ∧ q.TaskAt true := by
      cases q <;> simp_all [Point.Open, Point.vector, Point.TaskAt]
    exact hs.keep rfl rfl rfl rfl (by simp [hq]) (by simp [hstvec, hq])
      (.task hstack rfl hcur hq.2.2.2 hidle) (by simp [hq]) (by simp [hq])

theorem Sound.exitCurrent (hs : Sound h) (ht : h.run.point.isTask = true)
    (hstvec : h.stvec = .kernel) (hu : h.run.point ≠ .user) (hcur : h.current = some t) :
    Sound (h.exitCurrent t) := by
  obtain ⟨u, hstack, _, hcurrent, _, hidle⟩ := hs.at_task ht
  obtain rfl : t = u := by simpa [hcur] using hcurrent
  have hexit : h.exitCurrent t = ({ h.setSie false with
      exited := Function.update h.exited t true, current := none, previous := some t }).goto
        (.leaving t h.sstatus.sie .dead) := by
    simp [Hart.exitCurrent, Hart.switchToIdle, hcur, setSie, goto]
  rw [hexit]
  refine hs.leave rfl (fun v hv => ?_) rfl rfl rfl (hs.supervisor hu) hstvec rfl rfl hstack hidle
    (.inl (by simp [goto]))
  by_cases hvt : v = t
  · simp [goto, hvt] at hv
  · simpa [goto, setSie, hvt] using hv

theorem Sound.yieldNow (hs : Sound h) (hb : h.run.point.isBody = true) :
    Sound (h.switchToIdle h.run.point) := by
  have hbody : h.run.point.isTask = true ∧ h.run.point ≠ .user ∧ h.run.point.vector = .kernel ∧
      ∀ e, h.run.point.Resumes e := by
    cases hq : h.run.point <;> simp_all [Point.isBody, Point.isTask, Point.vector, Point.Resumes]
  obtain ⟨t, hstack, hframes, hcur, _, hidle⟩ := hs.at_task hbody.1
  simp only [Hart.switchToIdle, hcur]
  refine hs.leave rfl (fun _ => id) rfl rfl rfl (hs.supervisor hbody.2.1)
    (hs.stvec.trans hbody.2.2.1) rfl rfl hstack hidle (.inr ?_)
  rw [hstack, hframes]
  exact .switched (hbody.2.2.2 _)

theorem Sound.userResched (hs : Sound h) (hp : h.run.point = .userResched) :
    Sound (h.reschedIfNeeded .userLeave) := by
  obtain ⟨t, hstack, hframes, hcur, hat, hidle⟩ := hs.at_task (by simp [hp, Point.isTask])
  have hsie : h.sstatus.sie = false := by simpa [hp, Point.TaskAt] using hat
  have hstvec : h.stvec = .kernel := by rw [hs.stvec, hp]; rfl
  have hmode := hs.supervisor (by simp [hp])
  simp only [Hart.reschedIfNeeded, hcur]
  split
  · simp only [Hart.switchToIdle]
    refine hs.leave rfl (fun _ => id) rfl rfl rfl hmode hstvec rfl rfl hstack hidle (.inr ?_)
    rw [hstack, hframes]
    exact .switched hsie
  · exact hs.task_to (by simp [hp, Point.isTask]) rfl rfl rfl rfl rfl rfl hsie
      (by simp [goto, hmode])
      hstvec (by simp) (by simp)

theorem Sound.kernelResched (hs : Sound h) (hp : h.run.point = .kernelResched) :
    Sound (h.reschedIfNeeded .kernelExit) := by
  have htrap : h.run.point.TrapAt := by simp [hp, Point.TrapAt]
  obtain ⟨hsie, q, hframes, hside⟩ := hs.at_trap htrap
  have hstvec : h.stvec = .kernel := by rw [hs.stvec, hp]; rfl
  have hmode := hs.supervisor (by simp [hp])
  have stays : Sound (h.goto .kernelExit) :=
    hs.trap_to htrap rfl rfl rfl rfl rfl rfl rfl rfl rfl trivial
  rw [Hart.reschedIfNeeded]
  split
  · exact stays
  · rename_i t hcur
    split
    · simp only [Hart.switchToIdle, hcur]
      rcases hside with ⟨hstack, hat, hzero⟩ | ⟨u, hstack, hcurrent, hopen, hidle⟩
      · have hzeroed : h.idle = .zeroed := by
          rcases hzero with hzero | rfl
          · exact hzero
          · simp [BootAt, hcur] at hat
        exact hs.keep rfl rfl rfl rfl (by simp [goto, setSie, hmode])
          (by simp [goto, setSie, hstvec, Point.vector])
          (.bootLeaving (t := t) (by simp [goto, hsie]) rfl hzeroed hstack) (by simp [goto])
          (by simp [goto])
      · obtain rfl : t = u := by simpa [hcur] using hcurrent
        refine hs.leave rfl (fun _ => id) rfl rfl rfl hmode hstvec rfl rfl hstack hidle (.inr ?_)
        rw [hstack, hframes, hsie]
        exact .trapped hopen
    · exact stays

/-- The idle loop switches to a parked task. -/
theorem Sound.switchIn (hs : Sound h) (hp : h.run.point = .runPublished t) :
    Sound (h.switchIn t) := by
  obtain ⟨hstack, hframes, hat, hzero⟩ := hs.at_boot (by simp [hp, Point.isBoot])
  have hstvec : h.stvec = .kernel := by rw [hs.stvec, hp]; rfl
  have hmode := hs.supervisor (by simp [hp])
  obtain ⟨hcur, hlive⟩ : h.current = some t ∧ h.exited t = false := by
    simpa [hp, BootAt] using hat
  have hidle : (h.switchIn t).idle = .saved ⟨.boot, .runTop, []⟩ := by
    simp [Hart.switchIn, hstack, hframes]
  have hmasked : h.idle ≠ .zeroed → h.sstatus.sie = false := by
    intro hne
    by_contra hon
    rcases hzero (by simpa using hon) with hz | hw
    · exact hne hz
    · simp [hp] at hw
  have hparked : Parked t (h.switchIn t).run := hs.ctx t hlive
  obtain ⟨hu, hr, hvector⟩ := hparked.kernel
  have hmode' : (h.switchIn t).mode = .supervisor := hmode
  refine ⟨by simp [hu, hmode'], hstvec.trans hvector.symm,
    .of_parked hparked hcur hidle ?_, hs.ctx, by simp [hidle], hs.frame, by simp [hu, hr],
    by simp [hr]⟩
  by_cases hz : h.idle = .zeroed
  · exact .inl (hs.fresh hz t hlive)
  · exact .inr (hmasked hz)

/-- A task switches to the idle loop, or the boot stack switches to nowhere. -/
theorem Sound.switchOut (hs : Sound h) {e : Bool} (hp : h.run.point = .leaving t e p) :
    (Sound (h.switchOut t e p) ∧ (h.switchOut t e p).run = ⟨.boot, .runTop, []⟩) ∨
      (h.idle = .zeroed ∧ Wild (h.switchOut t e p)) := by
  have hstvec : h.stvec = .kernel := by rw [hs.stvec, hp]; rfl
  have hmode := hs.supervisor (by simp [hp])
  cases hs.placed with
  | boot _ _ hat => simp [hp, BootAt] at hat
  | bootTrap _ _ htrap => simp [hp, Point.TrapAt] at htrap
  | bootLeaving _ _ hzero _ =>
    exact .inr ⟨hzero, by simp [Hart.switchOut, hzero, crash, setSie, goto, Wild, hmode]⟩
  | task _ _ _ hat => simp [hp, Point.TaskAt] at hat
  | taskTrap _ _ _ htrap => simp [hp, Point.TrapAt] at htrap
  | @leaving u e' p' hleaving hstack hcur hsie hidle hpark =>
    obtain ⟨rfl, rfl, rfl⟩ : t = u ∧ e = e' ∧ p = p' := by simpa [hp] using hleaving
    left
    have hswitch : h.switchOut t e p = { h with
        ctx := Function.update h.ctx t ⟨h.run.stack, .switched e p, h.run.frames⟩
        idle := .loaded ⟨.boot, .runTop, []⟩
        run := ⟨.boot, .runTop, []⟩ } := by
      simp [Hart.switchOut, hidle]
    rw [hswitch]
    refine ⟨⟨by simp [hmode], by simp [hstvec, Point.vector],
      .boot rfl rfl hcur (by simp [hsie]), fun v hv => ?_, by simp, hs.frame,
      by simp, by simp⟩, rfl⟩
    by_cases hvt : v = t
    · subst hvt
      rcases hpark with hdead | hpark
      · simp [hdead] at hv
      · simpa using hpark
    · simpa [hvt] using hs.ctx v hv

theorem Sound.restore (hs : Sound h) {e : Bool} (hp : h.run.point = .switched e p) :
    Sound ((h.setSie (h.sstatus.sie || e)).goto p) := by
  have hstvec : h.stvec = .kernel := by rw [hs.stvec, hp]; rfl
  have hmode := hs.supervisor (by simp [hp])
  cases hs.placed with
  | boot _ _ hat => simp [hp, BootAt] at hat
  | bootTrap _ _ htrap => simp [hp, Point.TrapAt] at htrap
  | bootLeaving hleaving => simp [hp] at hleaving
  | @task t hstack hframes hcur hat hidle =>
    obtain ⟨hsie, hresumes⟩ : h.sstatus.sie = false ∧ p.Resumes e := by
      simpa [hp, Point.TaskAt] using hat
    have hq : p ≠ .user ∧ p ≠ .userReturn ∧ p.vector = .kernel ∧ p.TaskAt e := by
      cases p <;> simp_all [Point.Resumes, Point.vector, Point.TaskAt]
    exact hs.keep rfl rfl rfl rfl (by simp [goto, setSie, hmode, hq])
      (by simp [goto, setSie, hstvec, hq])
      (.task hstack hframes hcur (by simpa [goto, setSie, hsie] using hq.2.2.2) hidle)
      (by simp [goto, hq]) (by simp [goto, hq])
  | @taskTrap t q hstack hframes hcur htrap hopen hsie hidle =>
    obtain ⟨rfl, rfl⟩ : e = false ∧ p = .kernelExit := by
      simpa [hp, Point.TrapAt] using htrap
    exact hs.keep rfl rfl rfl rfl (by simp [goto, setSie, hmode])
      (by simp [goto, setSie, hstvec, Point.vector])
      (.taskTrap hstack hframes hcur (.inl trivial) hopen (by simp [goto, setSie, hsie]) hidle)
      (by simp [goto]) (by simp [goto])
  | leaving hleaving => simp [hp] at hleaving

/-- A step of a task between two points with the kernel vector. -/
theorem Sound.task_kernel (hs : Sound h) {q : Point} (hat : h.run.point = q) (hq : q.isTask = true)
    (hqu : q ≠ .user) (hqv : q.vector = .kernel) {h' : Hart} (hctx : h'.ctx = h.ctx)
    (hexited : h'.exited = h.exited) (hidle : h'.idle = h.idle) (hframe : h'.frame = h.frame)
    (hcur : h'.current = h.current) (hmode : h'.mode = h.mode) (hstvec : h'.stvec = h.stvec)
    (hrun : h'.run = ⟨h.run.stack, p, h.run.frames⟩) (hp : p.TaskAt h'.sstatus.sie)
    (hpu : p ≠ .user) (hpr : p ≠ .userReturn) (hpv : p.vector = .kernel) : Sound h' := by
  subst hat
  refine hs.task_to hq hctx hexited hidle hframe hcur hrun hp ?_ ?_ ?_ ?_
  · simp [hmode, hs.supervisor hqu, hpu]
  · rw [hstvec, hs.stvec, hqv, hpv]
  · simp [hpu, hpr]
  · simp [hpr]

theorem Sound.exec (hs : Sound h) (hp : h.run.point = .syscall) :
    Sound { h with frame := Function.update h.frame t newUser } := by
  obtain ⟨u, hstack, hframes, hcur, hat, hidle⟩ := hs.at_task (by rw [hp]; rfl)
  refine ⟨hs.mode, hs.stvec, .task hstack hframes hcur hat hidle, hs.ctx, hs.fresh, fun v => ?_,
    hs.scratch, hs.returns⟩
  by_cases hv : v = t
  · subst hv; simp [newUser]
  · simpa [hv] using hs.frame v

/-- Every step keeps the hart in shape, except a trap through the wrong vector and a
switch to the zeroed idle context. -/
theorem Step.sound {h' : Hart} {op : Op} (hs : Step h op h') (sound : Sound h) :
    Sound h' ∨ (Wild h' ∧ ((∃ c, op = .trap c ∧ h.stvec = .user ∧ h.mode = .supervisor) ∨
      (op = .switchOut ∧ h.idle = .zeroed))) := by
  have boot {p : Point} (hp : h.run.point = p) (hb : p.isBoot = true) :
      h.run.point.isBoot = true ∧ h.BootAt h.current p ∧
        (h.sstatus.sie = true → p ≠ .runWait → h.idle = .zeroed) := by
    subst hp
    obtain ⟨_, _, hat, hsie⟩ := sound.at_boot hb
    exact ⟨hb, hat, fun hon hw => (hsie hon).resolve_right hw⟩
  have ticked : ∀ {p}, (h.onTimerTick.goto p).ctx = h.ctx ∧
      (h.onTimerTick.goto p).exited = h.exited ∧
      (h.onTimerTick.goto p).idle = h.idle ∧ (h.onTimerTick.goto p).frame = h.frame ∧
      (h.onTimerTick.goto p).current = h.current ∧ (h.onTimerTick.goto p).mode = h.mode ∧
      (h.onTimerTick.goto p).stvec = h.stvec ∧ (h.onTimerTick.goto p).sstatus = h.sstatus ∧
      (h.onTimerTick.goto p).run = ⟨h.run.stack, p, h.run.frames⟩ := by
    intro p
    simp only [Hart.onTimerTick]
    split <;> exact ⟨rfl, rfl, rfl, rfl, rfl, rfl, rfl, rfl, rfl⟩
  cases hs with
  | enableInterrupts hp =>
    obtain ⟨hb, hat, _⟩ := boot hp rfl
    exact .inl (sound.boot_to (p := .kmain) hb rfl rfl rfl rfl rfl rfl rfl rfl hat
      fun _ => .inl hat.2)
  | bootAdmit hp _ => exact .inl (sound.admitTask (.inl hp) _ ⟨rfl, rfl⟩)
  | run hp =>
    obtain ⟨hb, hat, _⟩ := boot hp rfl
    exact .inl (sound.boot_to (p := .runTop) hb rfl rfl rfl rfl rfl rfl rfl rfl hat.1
      fun _ => .inl hat.2)
  | previous hp =>
    obtain ⟨hb, hat, hzero⟩ := boot hp rfl
    exact .inl (sound.boot_to (p := .runPick) hb rfl rfl rfl rfl rfl rfl rfl rfl hat
      fun hon => .inl (hzero hon (by simp)))
  | @pick t hp _ hlive =>
    obtain ⟨hb, hat, hzero⟩ := boot hp rfl
    exact .inl (sound.boot_to (p := .runPicked t) hb rfl rfl rfl rfl rfl rfl rfl rfl ⟨hat, hlive⟩
      fun hon => .inl (hzero hon (by simp)))
  | pickNone hp =>
    obtain ⟨hb, hat, _⟩ := boot hp rfl
    exact .inl (sound.boot_to (p := .runWait) hb rfl rfl rfl rfl rfl rfl rfl rfl hat
      fun _ => .inr rfl)
  | wake hp =>
    obtain ⟨hb, hat, _⟩ := boot hp rfl
    exact .inl (sound.boot_to (p := .runTop) hb rfl rfl rfl rfl rfl rfl rfl rfl hat
      fun hon => by simp [goto, setSie] at hon)
  | @publish t hp =>
    obtain ⟨hb, hat, hzero⟩ := boot hp rfl
    exact .inl (sound.boot_to (p := .runPublished t) hb rfl rfl rfl rfl rfl rfl rfl rfl ⟨rfl, hat.2⟩
      fun hon => .inl (hzero hon (by simp)))
  | switchIn hp => exact .inl (sound.switchIn hp)
  | @taskEntry t hp _ =>
    left
    cases h.isUser t <;>
      exact sound.task_kernel hp rfl (by simp) rfl rfl rfl rfl rfl rfl rfl rfl rfl
      trivial (by simp) (by simp) rfl
  | setUserVector hp =>
    have ht : h.run.point.isTask = true := by rcases hp with hp | hp <;> rw [hp] <;> rfl
    have hmode := sound.supervisor (by rcases hp with hp | hp <;> simp [hp])
    exact .inl (sound.task_to (p := .userVector) ht rfl rfl rfl rfl rfl rfl trivial
      (by simp [goto, hmode]) rfl (by simp) (by simp))
  | @userTrapReturn t hp hcur =>
    have hmode := sound.supervisor (by simp [hp])
    have hstvec : h.stvec = .user := by rw [sound.stvec, hp]; rfl
    exact .inl (sound.task_to (p := .userReturn) (by rw [hp]; rfl) rfl rfl rfl rfl rfl rfl
      (sound.frame t).1 (by simp [Hart.userTrapReturn, goto, hmode]) hstvec (fun _ => hcur.symm)
      fun _ => (sound.frame t).2)
  | sret hp =>
    have hstvec : h.stvec = .user := by rw [sound.stvec, hp]; rfl
    exact .inl (sound.task_to (p := .user) (by rw [hp]; rfl) rfl rfl rfl rfl rfl rfl trivial
      (by simp [goto, Hart.sret, sound.returns hp]) hstvec
      (fun _ => sound.scratch (.inl hp)) (by simp))
  | userTrap hm => exact .inl (sound.userTrap hm _)
  | kernelTrap hm hsie _ =>
    rcases sound.kernelTrap hm hsie _ with ⟨_, hsound⟩ | ⟨hstvec, hwild⟩
    · exact .inl hsound
    · exact .inr ⟨hwild, .inl ⟨_, rfl, hstvec, hm⟩⟩
  | @setKernelVector c hp =>
    have hmode := sound.supervisor (by simp [hp])
    obtain ⟨t, _, _, _, hat, _⟩ := sound.at_task (by rw [hp]; rfl)
    rw [hp] at hat
    exact .inl (sound.task_to (p := .userCause c) (by rw [hp]; rfl) rfl rfl rfl rfl rfl rfl hat
      (by simp [goto, hmode]) rfl (by simp) (by simp))
  | ecall hp =>
    exact .inl (sound.task_kernel hp rfl (by simp) rfl rfl rfl rfl rfl rfl rfl rfl rfl trivial
      (by simp) (by simp) rfl)
  | userTick hp =>
    obtain ⟨t, _, _, _, hat, _⟩ := sound.at_task (by rw [hp]; rfl)
    obtain ⟨hctx, hexited, hidle, hframe, hcur, hmode, hstvec, hsstatus, hrun⟩ := ticked
    rw [hp] at hat
    exact .inl (sound.task_kernel hp rfl (by simp) rfl hctx hexited hidle hframe hcur hmode hstvec
      hrun (by rw [hsstatus]; exact hat) (by simp) (by simp) rfl)
  | userIrq hp _ =>
    obtain ⟨t, _, _, _, hat, _⟩ := sound.at_task (by rw [hp]; rfl)
    rw [hp] at hat
    exact .inl (sound.task_kernel hp rfl (by simp) rfl rfl rfl rfl rfl rfl rfl rfl rfl hat
      (by simp) (by simp) rfl)
  | kill hp hcur =>
    exact .inl (sound.exitCurrent (by rw [hp]; rfl) (by rw [sound.stvec, hp]; rfl) (by simp [hp])
      hcur)
  | spawn hb _ => exact .inl (sound.admitTask (.inr hb) _ ⟨rfl, rfl⟩)
  | fork hp _ _ => exact .inl (sound.admitTask (.inr (by rw [hp]; rfl)) _ (sound.frame _))
  | exec hp _ => exact .inl (sound.exec hp)
  | sysReturn hp =>
    exact .inl (sound.task_kernel hp rfl (by simp) rfl rfl rfl rfl rfl rfl rfl rfl rfl rfl
      (by simp) (by simp) rfl)
  | userResched hp => exact .inl (sound.userResched hp)
  | kernelTick hp =>
    obtain ⟨hctx, hexited, hidle, hframe, hcur, hmode, hstvec, hsstatus, hrun⟩ := ticked
    exact .inl (sound.trap_to (p := .kernelResched) (by rw [hp]; trivial) hctx hexited hidle hframe
      hcur hmode hstvec hsstatus hrun trivial)
  | kernelIrq hp _ =>
    exact .inl (sound.trap_to (p := .kernelResched) (by rw [hp]; trivial) rfl rfl rfl rfl rfl rfl
      rfl rfl rfl trivial)
  | kernelResched hp => exact .inl (sound.kernelResched hp)
  | kernelTrapExit hp => exact .inl (sound.kernelTrapExit hp)
  | yieldNow hb => exact .inl (sound.yieldNow hb)
  | exitCurrent hb hcur =>
    have hbody : h.run.point = .code ∨ h.run.point = .syscall := by
      cases hq : h.run.point <;> simp_all [Point.isBody]
    left
    rcases hbody with hp | hp <;> exact sound.exitCurrent (by rw [hp]; rfl)
      (by rw [sound.stvec, hp]; rfl) (by simp [hp]) hcur
  | switchOut hp =>
    rcases sound.switchOut hp with ⟨hsound, _⟩ | ⟨hzero, hwild⟩
    · exact .inl hsound
    · exact .inr ⟨hwild, .inr ⟨rfl, hzero⟩⟩
  | restore hp => exact .inl (sound.restore hp)

/-- Nothing follows a wild hart. -/
theorem Step.not_wild {h' : Hart} {op : Op} (hs : Step h op h') (wild : Wild h) : False := by
  obtain ⟨hp, hsie, hmode⟩ := wild
  cases hs <;> simp_all [Point.isBody]

theorem Reach.sound (hr : Reach system h) : Sound h ∨ Wild h := by
  refine Reach.invariant (fun h => Sound h ∨ Wild h) ?_ ?_ hr
  · rintro h rfl
    exact .inl .boot
  · rintro h op h' (sound | wild) hs
    · exact (Step.sound hs sound).imp_right And.left
    · exact (Step.not_wild hs wild).elim

end

end Hart

end AlexOS
