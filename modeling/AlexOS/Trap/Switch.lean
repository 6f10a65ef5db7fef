import AlexOS.Trap.Vector

/-!
# Switching to the idle context

`kmain` enters `run` with interrupts on, and they stay on until the first switch
to a task. `run` publishes that task in `cpu.current` before it switches, so a
timer interrupt between the two finds a current task, and `switch_to_idle` runs
on the boot stack with an idle context that was never saved.
-/

namespace AlexOS

namespace Hart

/-- About to switch away from a task: on its own stack, to an idle context saved by
the last switch of `run` and not loaded since. No context holds another stack. -/
structure Disciplined (h : Hart) : Prop where
  own : ∀ t e p, h.run.point = .leaving t e p → h.run.stack = .task t
  idle : ∀ t e p, h.run.point = .leaving t e p → ∃ c, h.idle = .saved c
  ctx : ∀ t, (h.ctx t).stack = .task t

/-- The timer does not fire between the publication of a task and the switch to it,
and no supervisor-mode trap is taken through the user vector. -/
def Quiescent (h : Hart) : Op → Prop
  | .trap c => (c = .timer → h.current ≠ none → h.run.stack ≠ .boot) ∧
      (h.mode = .supervisor → h.stvec = .kernel)
  | _ => True

/-- The point a kernel trap will return to. -/
def base (h : Hart) : Point :=
  match h.run.frames with
  | [] => h.run.point
  | f :: _ => f.point

/-- What the idle loop relies on while a task is chosen. -/
structure Calm (h : Hart) : Prop where
  sound : Sound h
  chosen : h.run.stack = .boot → ∀ t, h.base = .runPicked t ∨ h.base = .runPublished t →
    h.needsResched t = false
  timer : h.run.stack = .boot → h.current ≠ none → h.run.point ≠ .kernelTrap .timer
  own : ∀ t e p, h.run.point = .leaving t e p → h.run.stack = .task t
  ctx : ∀ t, (h.ctx t).stack = .task t

section
variable {h h' : Hart} {op : Op}

theorem Calm.disciplined (calm : Calm h) : Disciplined h := by
  refine ⟨calm.own, fun t e p hp => ?_, calm.ctx⟩
  have hown := calm.own t e p hp
  cases calm.sound.placed with
  | boot _ _ hat => simp [hp, BootAt] at hat
  | bootTrap _ _ htrap => simp [hp, Point.TrapAt] at htrap
  | bootLeaving _ _ _ hboot => simp [hboot] at hown
  | task _ _ _ hat => simp [hp, Point.TaskAt] at hat
  | taskTrap _ _ _ htrap => simp [hp, Point.TrapAt] at htrap
  | leaving _ _ _ _ hidle _ => exact ⟨_, hidle⟩

/-- Nothing more is asked of a hart on a task's stack. -/
theorem Calm.of_task {t : Nat} (sound : Sound h) (hstack : h.run.stack = .task t)
    (hctx : ∀ u, (h.ctx u).stack = .task u) : Calm h := by
  refine ⟨sound, by simp [hstack], by simp [hstack], fun u e p hp => ?_, hctx⟩
  cases sound.placed with
  | boot _ _ hat => simp [hp, BootAt] at hat
  | bootTrap _ _ htrap => simp [hp, Point.TrapAt] at htrap
  | bootLeaving _ _ _ hboot => simp [hboot] at hstack
  | task _ _ _ hat => simp [hp, Point.TaskAt] at hat
  | taskTrap _ _ _ htrap => simp [hp, Point.TrapAt] at htrap
  | leaving hleaving hown _ _ _ _ =>
    obtain ⟨rfl, _, _⟩ : u = _ ∧ e = _ ∧ p = _ := by simpa [hp] using hleaving
    exact hown

theorem switchToIdle_stays (p : Point) : (h.switchToIdle p).run.stack = h.run.stack ∧
    (h.switchToIdle p).ctx = h.ctx := by
  rw [Hart.switchToIdle]
  split <;> exact ⟨rfl, rfl⟩

theorem reschedIfNeeded_stays (p : Point) : (h.reschedIfNeeded p).run.stack = h.run.stack ∧
    (h.reschedIfNeeded p).ctx = h.ctx := by
  rw [Hart.reschedIfNeeded]
  split
  · exact ⟨rfl, rfl⟩
  · split
    · exact switchToIdle_stays p
    · exact ⟨rfl, rfl⟩

theorem onTimerTick_some {t : Nat} (hcur : h.current = some t) :
    h.onTimerTick = { h with needsResched := Function.update h.needsResched t true } := by
  rw [Hart.onTimerTick]
  split
  · rename_i hnone
    simp [hnone] at hcur
  · rename_i u hu
    obtain rfl : u = t := by simpa [hu] using hcur
    rfl

/-- A step of a task that stays on its stack. -/
theorem Calm.stay {t : Nat} (calm : Calm h) (hsound : Sound h') (hstack : h.run.stack = .task t)
    (hstays : h'.run.stack = h.run.stack ∧ h'.ctx = h.ctx) : Calm h' :=
  .of_task hsound (hstays.1.trans hstack) (by rw [hstays.2]; exact calm.ctx)

theorem Calm.admitTask_ctx (calm : Calm h) (t : Nat) (u : Bool) (f : Sstatus) (v : Nat) :
    ((h.admitTask t u f).ctx v).stack = .task v := by
  by_cases hv : v = t
  · subst hv; simp [Hart.admitTask]
  · simpa [Hart.admitTask, hv] using calm.ctx v

theorem Sound.switched_stack (sound : Sound h) {e : Bool} {p : Point}
    (hp : h.run.point = .switched e p) : ∃ t, h.run.stack = .task t := by
  cases sound.placed with
  | boot _ _ hat => simp [hp, BootAt] at hat
  | bootTrap _ _ htrap => simp [hp, Point.TrapAt] at htrap
  | bootLeaving hleaving => simp [hp] at hleaving
  | task hstack => exact ⟨_, hstack⟩
  | taskTrap hstack => exact ⟨_, hstack⟩
  | leaving hleaving => simp [hp] at hleaving

theorem Calm.of_boot (sound : Sound h) (hframes : h.run.frames = [])
    (hb : h.run.point.isBoot = true)
    (hchosen : ∀ t, h.run.point = .runPicked t ∨ h.run.point = .runPublished t →
      h.needsResched t = false) (hctx : ∀ u, (h.ctx u).stack = .task u) : Calm h := by
  refine ⟨sound, fun _ t ht => hchosen t (by simpa [base, hframes] using ht), fun _ _ hp => ?_,
    fun u e p hp => ?_, hctx⟩
  · simp [hp, Point.isBoot] at hb
  · simp [hp, Point.isBoot] at hb

/-- In the handler of a trap taken on the boot stack. -/
theorem Calm.of_trap (sound : Sound h) {p : Point} (hframes : h.run.frames = [interrupted p])
    (htrap : h.run.point.TrapAt)
    (hchosen : ∀ t, p = .runPicked t ∨ p = .runPublished t → h.needsResched t = false)
    (htimer : h.current ≠ none → h.run.point ≠ .kernelTrap .timer)
    (hctx : ∀ u, (h.ctx u).stack = .task u) : Calm h := by
  refine ⟨sound, fun _ t ht => hchosen t (by simpa [base, hframes, interrupted] using ht),
    fun _ => htimer, fun u e p hp => ?_, hctx⟩
  simp [hp, Point.TrapAt] at htrap

theorem Calm.kernelTrap (calm : Calm h) (hm : h.mode = .supervisor) (hsie : h.sstatus.sie = true)
    {c : Cause} (hop : Quiescent h (.trap c)) : Calm (h.trap c) := by
  have hstvec := hop.2 hm
  have hsound : Sound (h.trap c) := by
    rcases calm.sound.kernelTrap hm hsie c with ⟨_, hs⟩ | ⟨huser, _⟩
    · exact hs
    · simp [hstvec] at huser
  have htrap : h.trap c = { h with
      sstatus := ⟨false, true, .supervisor⟩
      run := ⟨h.run.stack, .kernelTrap c, interrupted h.run.point :: h.run.frames⟩ } := by
    simp [Hart.trap, hm, hstvec, trapIn, kernelTrapEntry, hsie, interrupted]
  rw [htrap] at hsound ⊢
  cases calm.sound.placed with
  | boot hstack hframes hat hzero =>
    refine .of_trap (p := h.run.point) hsound (by simp [hframes]) trivial ?_ ?_ calm.ctx
    · exact fun t ht => calm.chosen hstack t (by simpa [base, hframes] using ht)
    · intro hcur hp
      obtain rfl : c = .timer := by simpa using hp
      exact hop.1 rfl hcur hstack
  | bootTrap _ _ _ _ hmask => simp [hmask] at hsie
  | bootLeaving _ hmask => simp [hmask] at hsie
  | task hstack => exact .of_task hsound hstack calm.ctx
  | taskTrap _ _ _ _ _ hmask => simp [hmask] at hsie
  | leaving _ _ _ hmask => simp [hmask] at hsie

theorem Calm.userTrap (calm : Calm h) (hm : h.mode = .user) (c : Cause) : Calm (h.trap c) := by
  have hp := calm.sound.mode.mp hm
  obtain ⟨t, _, _, hcur, _⟩ := calm.sound.at_task (by rw [hp]; rfl)
  have hstvec : h.stvec = .user := by rw [calm.sound.stvec, hp]; rfl
  have hscratch : h.sscratch = some t := by rw [calm.sound.scratch (.inr hp), hcur]
  have htrap : (h.trap c).run.stack = .task t ∧ (h.trap c).ctx = h.ctx := by
    simp [Hart.trap, hm, hstvec, trapIn, userTrapEntry, hscratch]
  exact .of_task (calm.sound.userTrap hm c) htrap.1 (by rw [htrap.2]; exact calm.ctx)

/-- The handler does its work: a tick on the boot stack finds no current task. -/
theorem Calm.handle (calm : Calm h) (htrap : h.run.point.TrapAt) {n : Nat → Bool}
    (hn : n = h.needsResched ∨ (h.run.point = .kernelTrap .timer ∧ h.current ≠ none))
    (hsound : Sound ({ h with needsResched := n }.goto .kernelResched)) :
    Calm ({ h with needsResched := n }.goto .kernelResched) := by
  obtain ⟨_, q, hframes, hside⟩ := calm.sound.at_trap htrap
  rcases hside with ⟨hstack, _, _⟩ | ⟨t, hstack, _⟩
  · refine .of_trap (p := q) hsound hframes trivial (fun t ht => ?_) (by simp [goto]) calm.ctx
    rcases hn with rfl | ⟨hp, hcur⟩
    · exact calm.chosen hstack t (by simpa [base, hframes, interrupted] using ht)
    · exact absurd hp (calm.timer hstack hcur)
  · exact .of_task hsound hstack calm.ctx

theorem Calm.kernelResched (calm : Calm h) (hp : h.run.point = .kernelResched) :
    Calm (h.reschedIfNeeded .kernelExit) := by
  have hsound := calm.sound.kernelResched hp
  obtain ⟨_, q, hframes, hside⟩ := calm.sound.at_trap (by rw [hp]; trivial)
  rcases hside with ⟨hstack, hat, _⟩ | ⟨t, hstack, _⟩
  · have hstays : h.reschedIfNeeded .kernelExit = h.goto .kernelExit := by
      rw [Hart.reschedIfNeeded]
      split
      · rfl
      · rename_i t hcur
        have hq : q = .runPublished t := by
          cases q <;> simp_all [BootAt]
        have hnot := calm.chosen hstack t (.inr (by simp [base, hframes, interrupted, hq]))
        simp [hnot]
    rw [hstays] at hsound ⊢
    exact .of_trap (p := q) hsound hframes trivial
      (fun t ht => calm.chosen hstack t (by simpa [base, hframes, interrupted] using ht))
      (by simp [goto]) calm.ctx
  · exact calm.stay hsound hstack (reschedIfNeeded_stays _)

theorem Calm.kernelTrapExit (calm : Calm h) (hp : h.run.point = .kernelExit) :
    Calm h.kernelTrapExit := by
  have hsound := calm.sound.kernelTrapExit hp
  obtain ⟨_, q, hframes, hside⟩ := calm.sound.at_trap (by rw [hp]; trivial)
  have hexit : h.kernelTrapExit = { h with
      mode := .supervisor, sstatus := ⟨true, true, .user⟩, run := ⟨h.run.stack, q, []⟩ } := by
    simp [Hart.kernelTrapExit, hframes, interrupted, Hart.sret]
  rw [hexit] at hsound ⊢
  rcases hside with ⟨hstack, hat, _⟩ | ⟨t, hstack, _⟩
  · have hq : q.isBoot = true := by cases q <;> simp_all [BootAt, Point.isBoot]
    exact .of_boot hsound rfl hq
      (fun t ht => calm.chosen hstack t (by simpa [base, hframes, interrupted] using ht)) calm.ctx
  · exact .of_task hsound hstack calm.ctx

theorem Calm.switchOut (calm : Calm h) {t : Nat} {e : Bool} {p : Point}
    (hp : h.run.point = .leaving t e p) : Calm (h.switchOut t e p) := by
  obtain ⟨c, hidle⟩ := calm.disciplined.idle t e p hp
  have hown := calm.own t e p hp
  rcases calm.sound.switchOut hp with ⟨hsound, hrun⟩ | ⟨hzero, _⟩
  · refine .of_boot hsound (by rw [hrun]) (by rw [hrun]; rfl) (by simp [hrun]) fun u => ?_
    by_cases hu : u = t
    · subst hu; simp [Hart.switchOut, hidle, hown]
    · simpa [Hart.switchOut, hidle, hu] using calm.ctx u
  · simp [hidle] at hzero

theorem Step.calm (hs : Step h op h') (hop : Quiescent h op) (calm : Calm h) : Calm h' := by
  have sound := calm.sound
  have hsound : Sound h' := by
    rcases hs.sound sound with hsound | ⟨_, ⟨c, rfl, hstvec, hmode⟩ | ⟨rfl, hzero⟩⟩
    · exact hsound
    · simp [hop.2 hmode] at hstvec
    · cases hs with
      | switchOut hp =>
        obtain ⟨c, hidle⟩ := calm.disciplined.idle _ _ _ hp
        simp [hidle] at hzero
  have boot {p : Point} (hp : h.run.point = p) (hb : p.isBoot = true) :=
    (sound.at_boot (hp ▸ hb)).2.1
  have task {p : Point} (hp : h.run.point = p) (ht : p.isTask = true)
      (hstays : h'.run.stack = h.run.stack ∧ h'.ctx = h.ctx) : Calm h' := by
    obtain ⟨t, hstack, _⟩ := sound.at_task (hp ▸ ht)
    exact calm.stay hsound hstack hstays
  have body (hb : h.run.point.isBody = true) : h.run.point.isTask = true := by
    cases hq : h.run.point <;> simp_all [Point.isBody, Point.isTask]
  cases hs with
  | enableInterrupts hp | run hp | previous hp | pick hp _ _ | pickNone hp | wake hp =>
    exact .of_boot hsound (boot hp rfl) rfl (by simp [goto]) calm.ctx
  | bootAdmit hp _ =>
    exact .of_boot hsound (boot hp rfl) (by simp [Hart.admitTask, hp, Point.isBoot])
      (by simp [Hart.admitTask, hp]) (calm.admitTask_ctx _ _ _)
  | @publish t hp =>
    have hstack := (sound.at_boot (by rw [hp]; rfl)).1
    have hchosen := calm.chosen hstack t (.inl (by simp [base, boot hp rfl, hp]))
    exact .of_boot hsound (boot hp rfl) rfl (by simp [goto, hchosen]) calm.ctx
  | switchIn hp => exact .of_task hsound (calm.ctx _) calm.ctx
  | taskEntry hp _ | userTrapReturn hp _ | sret hp | setKernelVector hp | ecall hp | userIrq hp _
  | exec hp _ | sysReturn hp =>
    exact task hp rfl ⟨rfl, rfl⟩
  | setUserVector hp => rcases hp with hp | hp <;> exact task hp rfl ⟨rfl, rfl⟩
  | userTrap hm => exact calm.userTrap hm _
  | kernelTrap hm hsie _ => exact calm.kernelTrap hm hsie hop
  | userTick hp =>
    refine task hp rfl ?_
    rw [Hart.onTimerTick]
    split <;> exact ⟨rfl, rfl⟩
  | kill hp _ => exact task hp rfl (switchToIdle_stays _)
  | spawn hb _ =>
    obtain ⟨t, hstack, _⟩ := sound.at_task (body hb)
    exact .of_task hsound hstack (calm.admitTask_ctx _ _ _)
  | fork hp _ _ =>
    obtain ⟨t, hstack, _⟩ := sound.at_task (by rw [hp]; rfl)
    exact .of_task hsound hstack (calm.admitTask_ctx _ _ _)
  | userResched hp => exact task hp rfl (reschedIfNeeded_stays _)
  | kernelTick hp =>
    have htrap : h.run.point.TrapAt := by rw [hp]; trivial
    cases hcur : h.current with
    | none =>
      rw [Hart.onTimerTick, hcur] at hsound ⊢
      exact calm.handle htrap (.inl rfl) hsound
    | some t =>
      rw [onTimerTick_some hcur] at hsound ⊢
      exact calm.handle htrap (.inr ⟨hp, by simp [hcur]⟩) hsound
  | kernelIrq hp _ => exact calm.handle (by rw [hp]; trivial) (.inl rfl) hsound
  | kernelResched hp => exact calm.kernelResched hp
  | kernelTrapExit hp => exact calm.kernelTrapExit hp
  | yieldNow hb => exact task rfl (body hb) (switchToIdle_stays _)
  | exitCurrent hb _ => exact task rfl (body hb) (switchToIdle_stays _)
  | switchOut hp => exact calm.switchOut hp
  | restore hp =>
    obtain ⟨t, hstack⟩ := sound.switched_stack hp
    exact calm.stay hsound hstack ⟨rfl, rfl⟩

end

theorem Reach.calm {h : Hart} (hr : Reach (system.guard Quiescent) h) : Calm h := by
  refine Reach.invariant Calm ?_ ?_ hr
  · rintro h rfl
    exact .of_boot .boot rfl rfl (by simp [boot]) fun _ => rfl
  · rintro h op h' calm ⟨hs, hop⟩
    exact hs.calm hop calm

/-- Without a timer interrupt on a published task, every switch to the idle context is
made on the leaving task's stack and finds a context that `run` saved. -/
theorem reach_disciplined {h : Hart} (hr : Reach (system.guard Quiescent) h) : Disciplined h :=
  (Reach.calm hr).disciplined

/-- The timer fires in the first pass of `run`, between the publication of task 1 and the
switch to it. -/
theorem first_pass_preempted : ∃ h, Reach system h ∧ h.run.point = .leaving 1 false .kernelExit ∧
    h.run.stack = .boot ∧ h.idle = .zeroed := by
  have step : ∀ {h op h'}, Reach system h → Step h op h' → Reach system h' :=
    fun hr hs => hr.step _ hs
  have booted := step (step (step (.init rfl) (.enableInterrupts rfl))
    (.bootAdmit (t := 1) (u := true) rfl (by decide))) (.run rfl)
  have picked := step (step booted (.previous rfl)) (.pick (t := 1) rfl (by decide) rfl)
  have trapped := step (step picked (.publish rfl)) (.kernelTrap (c := .timer) rfl rfl rfl)
  have leaving := step (step trapped (.kernelTick rfl)) (.kernelResched rfl)
  exact ⟨_, leaving, rfl, rfl, rfl⟩

/-- The same interrupt once the task is on its own stack. -/
theorem disciplined_preemption : ∃ h, Reach (system.guard Quiescent) h ∧
    h.run.point = .leaving 1 false .kernelExit ∧ Disciplined h := by
  have step : ∀ {h op h'}, Reach (system.guard Quiescent) h → Step h op h' → Quiescent h op →
      Reach (system.guard Quiescent) h' := fun hr hs hop => hr.step _ ⟨hs, hop⟩
  have booted := step (step (step (.init rfl) (.enableInterrupts rfl) trivial)
    (.bootAdmit (t := 1) (u := false) rfl (by decide)) trivial) (.run rfl) trivial
  have picked := step (step booted (.previous rfl) trivial) (.pick (t := 1) rfl (by decide) rfl)
    trivial
  have entered := step (step (step picked (.publish rfl) trivial) (.switchIn rfl) trivial)
    (.taskEntry rfl rfl) trivial
  have trapped := step entered (.kernelTrap (c := .timer) rfl rfl rfl)
    ⟨fun _ _ e => Stack.noConfusion (e : Stack.task 1 = .boot), fun _ => rfl⟩
  have leaving := step (step trapped (.kernelTick rfl) trivial) (.kernelResched rfl) trivial
  exact ⟨_, leaving, rfl, reach_disciplined leaving⟩

end Hart

end AlexOS
