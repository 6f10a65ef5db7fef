import AlexOS.Trap.Discipline

/-!
# The trap vector in supervisor mode

`user_trap_handler` masks interrupts before it installs the user vector. A new
user task does not: `task_entry` has just unmasked them when `user_entry` calls
`set_user_vector`, and they stay on until `user_trap_return` loads `sstatus`.
-/

namespace AlexOS

namespace Hart

/-- A supervisor-mode interrupt would enter `kernel_trap_entry`. -/
def Vectored (h : Hart) : Prop :=
  h.mode = .supervisor → h.sstatus.sie = true → h.stvec = .kernel

/-- `user_entry` installs the user vector only with interrupts off. -/
def MaskedEntry (h : Hart) : Op → Prop
  | .setUserVector => h.run.point = .userEntry → h.sstatus.sie = false
  | _ => True

section
variable {h h' : Hart} {op : Op}

theorem switchToIdle_point {p : Point} (hp : (h.switchToIdle p).run.point = .userVector) :
    False := by
  simp only [Hart.switchToIdle] at hp
  split at hp <;> simp [goto, crash] at hp

theorem reschedIfNeeded_point {p : Point} (hne : p ≠ .userVector)
    (hp : (h.reschedIfNeeded p).run.point = .userVector) : False := by
  simp only [Hart.reschedIfNeeded] at hp
  split at hp
  · exact hne hp
  · split at hp
    · exact switchToIdle_point hp
    · exact hne hp

theorem trap_point {c : Cause} (hp : (h.trap c).run.point = .userVector) : False := by
  simp only [Hart.trap] at hp
  split at hp
  · simp [kernelTrapEntry] at hp
  · simp only [userTrapEntry] at hp
    split at hp <;> simp [crash, goto] at hp
  · simp [crash, goto] at hp

theorem Sound.kernelTrapExit_point (sound : Sound h) (hat : h.run.point = .kernelExit)
    (hp : h.kernelTrapExit.run.point = .userVector) : False := by
  obtain ⟨_, q, hframes, hside⟩ := sound.at_trap (by rw [hat]; trivial)
  obtain rfl : q = .userVector := by
    simpa [Hart.kernelTrapExit, hframes, interrupted, Hart.sret] using hp
  rcases hside with ⟨_, hboot, _⟩ | ⟨t, _, _, hopen, _⟩
  · exact hboot
  · exact hopen

theorem Sound.switchIn_point {t : Nat} (sound : Sound h) (hat : h.run.point = .runPublished t)
    (hp : (h.switchIn t).run.point = .userVector) : False := by
  obtain ⟨_, _, hboot, _⟩ := sound.at_boot (by rw [hat]; rfl)
  rw [hat] at hboot
  have hparked : Parked t (h.switchIn t).run := sound.ctx t hboot.2
  have hvector := hparked.kernel.2.2
  rw [hp] at hvector
  exact TrapVector.noConfusion hvector

theorem Sound.restore_point {e : Bool} {p : Point} (sound : Sound h)
    (hat : h.run.point = .switched e p) (hp : p = .userVector) : False := by
  subst hp
  cases sound.placed with
  | boot _ _ hboot => simp [hat, BootAt] at hboot
  | bootTrap _ _ htrap => simp [hat, Point.TrapAt] at htrap
  | bootLeaving hleaving => simp [hat] at hleaving
  | task _ _ _ htask => simp [hat, Point.TaskAt, Point.Resumes] at htask
  | taskTrap _ _ _ htrap => simp [hat, Point.TrapAt] at htrap
  | leaving hleaving => simp [hat] at hleaving

/-- Only `set_user_vector` leads to the point after it. -/
theorem Step.to_userVector (hs : Step h op h') (sound : Sound h)
    (hp : h'.run.point = .userVector) : op = .setUserVector ∧ h'.sstatus = h.sstatus ∧
      (h.run.point = .userEntry ∨ h.run.point = .userLeave) := by
  cases hs with
  | setUserVector hat => exact ⟨rfl, rfl, hat⟩
  | bootAdmit hat _ => simp [Hart.admitTask, hat] at hp
  | spawn hb _ => simp [show h.run.point = .userVector from hp, Point.isBody] at hb
  | fork hat _ _ => simp [Hart.admitTask, hat] at hp
  | exec hat _ => simp [hat] at hp
  | switchIn hat => exact (sound.switchIn_point hat hp).elim
  | taskEntry hat _ =>
    simp only [goto] at hp
    split at hp <;> simp at hp
  | userTrap _ => exact (trap_point hp).elim
  | kernelTrap _ _ _ => exact (trap_point hp).elim
  | userResched _ => exact (reschedIfNeeded_point (by simp) hp).elim
  | kernelResched _ => exact (reschedIfNeeded_point (by simp) hp).elim
  | kernelTrapExit hat => exact (sound.kernelTrapExit_point hat hp).elim
  | kill _ _ => exact (switchToIdle_point hp).elim
  | yieldNow _ => exact (switchToIdle_point hp).elim
  | exitCurrent _ _ => exact (switchToIdle_point hp).elim
  | switchOut hat =>
    rcases sound.switchOut hat with ⟨_, hrun⟩ | ⟨_, hwild⟩
    · simp [hrun] at hp
    · simp [hwild.1] at hp
  | restore hat => exact (sound.restore_point hat hp).elim
  | _ => simp [goto, Hart.userTrapReturn] at hp

theorem Sound.vectored (sound : Sound h)
    (hmasked : h.run.point = .userVector → h.sstatus.sie = false) : Vectored h := by
  intro hmode hsie
  have hpoint : h.run.point ≠ .user := fun e => by simp [sound.mode.mpr e] at hmode
  cases hv : h.stvec with
  | kernel => rfl
  | user =>
    have htask : h.run.point.isTask = true := by
      rw [sound.stvec] at hv
      cases hp : h.run.point <;> simp_all [Point.vector, Point.isTask]
    obtain ⟨t, _, _, _, hat, _⟩ := sound.at_task htask
    rw [sound.stvec] at hv
    cases hp : h.run.point <;> simp_all [Point.vector, Point.TaskAt]

theorem Step.masked (hs : Step h op h') (sound : Sound h) (hop : MaskedEntry h op)
    (hp : h'.run.point = .userVector) : h'.sstatus.sie = false := by
  obtain ⟨rfl, hsstatus, hat⟩ := hs.to_userVector sound hp
  rw [hsstatus]
  rcases hat with hat | hat
  · exact hop hat
  · obtain ⟨t, _, _, _, htask, _⟩ := sound.at_task (by rw [hat]; rfl)
    rw [hat] at htask
    exact htask

theorem Wild.vectored (wild : Wild h) : Vectored h := by
  intro _ hsie
  simp [wild.2.1] at hsie

theorem Reach.masked (hr : Reach (system.guard MaskedEntry) h) :
    (Sound h ∧ (h.run.point = .userVector → h.sstatus.sie = false)) ∨ Wild h := by
  refine Reach.invariant
    (fun h => (Sound h ∧ (h.run.point = .userVector → h.sstatus.sie = false)) ∨ Wild h) ?_ ?_ hr
  · rintro h rfl
    exact .inl ⟨.boot, fun _ => rfl⟩
  · rintro h op h' (⟨sound, _⟩ | wild) ⟨hs, hop⟩
    · rcases hs.sound sound with hsound | ⟨hwild, _⟩
      · exact .inl ⟨hsound, hs.masked sound hop⟩
      · exact .inr hwild
    · exact (hs.not_wild wild).elim

/-- In every run the vector is wrong only at `user_entry`'s call of `user_trap_return`, with
interrupts on. -/
theorem Reach.vectored_iff (hr : Reach system h) :
    Vectored h ↔ (h.run.point = .userVector → h.sstatus.sie = false) := by
  rcases Reach.sound hr with sound | wild
  · refine ⟨fun hv hat => ?_, sound.vectored⟩
    have hmode := sound.supervisor (by simp [hat])
    have hstvec := sound.stvec
    rw [hat] at hstvec
    by_contra hon
    have hkernel := hv hmode (by simpa using hon)
    exact TrapVector.noConfusion (hkernel.symm.trans hstvec)
  · refine iff_of_true wild.vectored fun hat => ?_
    rw [wild.1] at hat
    cases hat

theorem Step.vectored_iff (hs : Step h op h') (sound : Sound h) :
    Vectored h' ↔ MaskedEntry h op := by
  constructor
  · intro hv
    cases hs with
    | setUserVector _ =>
      intro hat
      have hmode := sound.supervisor (by simp [hat])
      by_contra hon
      have hkernel := hv hmode (by simpa [goto] using hon)
      simp [goto] at hkernel
    | _ => trivial
  · intro hop
    rcases hs.sound sound with hsound | ⟨hwild, _⟩
    · exact hsound.vectored (hs.masked sound hop)
    · exact hwild.vectored

/-- In every run the vector is right outside `user_entry`'s window. In a run that has been masked
so far it is right, and the next step keeps it right exactly when it is masked too. -/
theorem reach_vectored (hr : Reach system h) :
    (Vectored h ↔ (h.run.point = .userVector → h.sstatus.sie = false)) ∧
      (Reach (system.guard MaskedEntry) h →
        Vectored h ∧ ∀ op h', Step h op h' → (Vectored h' ↔ MaskedEntry h op)) := by
  refine ⟨Reach.vectored_iff hr, ?_⟩
  intro guarded
  rcases Reach.masked guarded with ⟨sound, hmasked⟩ | wild
  · exact ⟨sound.vectored hmasked, fun op h' hs => hs.vectored_iff sound⟩
  · exact ⟨wild.vectored, fun op h' hs => (hs.not_wild wild).elim⟩

end

/-- The first task is a user task: it enters `user_entry` with interrupts on. -/
theorem user_task_entered : ∃ h, Reach system h ∧ h.run = ⟨.task 1, .userVector, []⟩ ∧
    h.mode = .supervisor ∧ h.sstatus.sie = true ∧ h.stvec = .user ∧ h.current = some 1 ∧
    h.frame 1 = newUser := by
  have step : ∀ {h op h'}, Reach system h → Step h op h' → Reach system h' :=
    fun hr hs => hr.step _ hs
  have booted := step (step (step (.init rfl) (.enableInterrupts rfl))
    (.bootAdmit (t := 1) (u := true) rfl (by decide))) (.run rfl)
  have picked := step (step booted (.previous rfl)) (.pick (t := 1) rfl (by decide) rfl)
  have entered := step (step (step picked (.publish rfl)) (.switchIn rfl)) (.taskEntry rfl rfl)
  have vector := step entered (.setUserVector (.inl rfl))
  exact ⟨_, vector, rfl, rfl, rfl, rfl, rfl, rfl⟩

theorem user_entry_unmasked : ∃ h, Reach system h ∧ h.mode = .supervisor ∧
    h.sstatus.sie = true ∧ h.stvec = .user := by
  obtain ⟨h, hr, -, hmode, hsie, hstvec, -⟩ := user_task_entered
  exact ⟨h, hr, hmode, hsie, hstvec⟩

/-- It gets to user mode and makes a system call. -/
theorem user_task_calls : ∃ h, Reach system h ∧ h.run.point = .syscall ∧ h.mode = .supervisor ∧
    h.sstatus.sie = true := by
  obtain ⟨h, hr, hrun, hmode, -, hstvec, hcur, hframe⟩ := user_task_entered
  have returned := hr.step _ (.userTrapReturn (t := 1) (by rw [hrun]) hcur)
  rw [userTrapReturn, hframe] at returned
  have user := returned.step _ (.sret rfl)
  have trapped := user.step _ (.userTrap (c := .ecall) rfl)
  simp only [trap, hstvec, goto, sret] at trapped
  have handled := (trapped.step _ (.setKernelVector (c := .ecall) rfl)).step _ (.ecall rfl)
  exact ⟨_, handled, rfl, rfl, rfl⟩

/-- The code of a kernel task with interrupts on, before and after the timer interrupts it, and a
user task in a system call. -/
theorem vectored_in_kernel_task : (∃ h h', Reach (system.guard MaskedEntry) h ∧
    h.run = ⟨.task 1, .code, []⟩ ∧ h.sstatus.sie = true ∧ h.stvec = .kernel ∧
    Step h (.trap .timer) h' ∧ h'.run = ⟨.task 1, .kernelTrap .timer, [interrupted .code]⟩ ∧
    Vectored h') ∧
    ∃ h, Reach system h ∧ h.run.point = .syscall ∧ h.sstatus.sie = true ∧ h.stvec = .kernel := by
  constructor
  · have step : ∀ {h op h'}, Reach (system.guard MaskedEntry) h → Step h op h' → MaskedEntry h op →
        Reach (system.guard MaskedEntry) h' := fun hr hs hop => hr.step _ ⟨hs, hop⟩
    have booted := step (step (step (.init rfl) (.enableInterrupts rfl) trivial)
      (.bootAdmit (t := 1) (u := false) rfl (by decide)) trivial) (.run rfl) trivial
    have picked := step (step booted (.previous rfl) trivial) (.pick (t := 1) rfl (by decide) rfl)
      trivial
    have entered := step (step (step picked (.publish rfl) trivial) (.switchIn rfl) trivial)
      (.taskEntry rfl rfl) trivial
    obtain ⟨vectored, next⟩ := (reach_vectored entered.of_guard).2 entered
    refine ⟨_, _, entered, rfl, rfl, vectored rfl rfl,
      .kernelTrap (c := .timer) rfl rfl rfl, rfl, ?_⟩
    exact (next _ _ (.kernelTrap (c := .timer) rfl rfl rfl)).mpr trivial
  · obtain ⟨h, hr, hat, hmode, hsie⟩ := user_task_calls
    refine ⟨h, hr, hat, hsie, (reach_vectored hr).1.mpr ?_ hmode hsie⟩
    rw [hat]
    exact Point.noConfusion

end Hart

end AlexOS
