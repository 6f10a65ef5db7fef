import AlexOS.Task.Placement

/-!
# What the scheduler leaves alone

Yielding, preemption, ticks, the idle loop and admission move tasks around, but
no task blocks, wakes, exits or is flagged by them.
-/

namespace AlexOS

namespace Sched

/-- No task blocks, wakes, exits or is flagged. -/
structure Quiet (s s' : Sched) : Prop where
  blocked : ∀ t, (s'.inner t).state = .blocked ↔ (s.inner t).state = .blocked
  zombie : ∀ t, (s'.inner t).state = .zombie ↔ (s.inner t).state = .zombie
  pending : ∀ t, (s'.inner t).wakeupPending = (s.inner t).wakeupPending
  tasks : ∀ t ∈ s.allTasks, t ∈ s'.allTasks

section
variable {s s' : Sched} {place : Nat → Place} {t : Nat}

@[simp]
theorem switchToIdle_tasks (st : TaskState) : (s.switchToIdle st).allTasks = s.allTasks := by
  rw [switchToIdle]; split <;> rfl

@[simp]
theorem reschedIfNeeded_tasks : s.reschedIfNeeded.allTasks = s.allTasks := by
  rw [reschedIfNeeded]
  split
  · rfl
  · split
    · exact switchToIdle_tasks _
    · rfl

@[simp]
theorem wake_tasks (c : Ctx) : (s.wake c t).allTasks = s.allTasks := by
  rw [wake]; split <;> rfl

theorem onTimerTick_tasks : s.onTimerTick.allTasks = s.allTasks := by
  rw [onTimerTick]; split <;> rfl

theorem runPrevious_tasks : s.runPrevious.allTasks = s.allTasks := by
  rw [runPrevious]
  split
  · rfl
  · dsimp only
    split <;> rfl

theorem runNext_tasks : s.runNext.allTasks = s.allTasks := by
  rw [runNext]; split <;> rfl

/-- Tasks stay admitted. -/
theorem Step.tasks {op : Op} (hs : Step s op s') (ht : t ∈ s.allTasks) : t ∈ s'.allTasks := by
  cases hs with
  | bootAdmit _ _ _ => simp [Sched.admitTask, ht]
  | admitTask _ _ => simp [Sched.admitTask, ht]
  | wake _ _ _ => simpa using ht
  | push _ _ => exact ht
  | yieldNow _ => simpa using ht
  | blockCurrent _ => simpa using ht
  | exitCurrent _ => simpa using ht
  | resched _ => simpa using ht
  | interrupt _ _ => exact ht
  | tick _ => rwa [onTimerTick_tasks]
  | iret _ _ => simpa using ht
  | enter _ _ => exact ht
  | previous _ => rwa [runPrevious_tasks]
  | next _ => rwa [runNext_tasks]
  | rescan _ _ => exact ht

theorem Quiet.of_inner (h : s'.inner = s.inner) (htasks : s'.allTasks = s.allTasks) :
    Quiet s s' := by
  refine ⟨?_, ?_, ?_, ?_⟩ <;> simp [h, htasks]

theorem Quiet.trans {s'' : Sched} (h : Quiet s s') (h' : Quiet s' s'') : Quiet s s'' :=
  ⟨fun u => (h'.blocked u).trans (h.blocked u), fun u => (h'.zombie u).trans (h.zombie u),
    fun u => (h'.pending u).trans (h.pending u), fun u hu => h'.tasks u (h.tasks u hu)⟩

/-- A change of one task's fields, from and to a state that is neither blocked nor zombie. -/
theorem Quiet.modify (s : Sched) {f : TaskInner → TaskInner}
    (hb : (f (s.inner t)).state = .blocked ↔ (s.inner t).state = .blocked)
    (hz : (f (s.inner t)).state = .zombie ↔ (s.inner t).state = .zombie)
    (hp : (f (s.inner t)).wakeupPending = (s.inner t).wakeupPending) : Quiet s (s.modify t f) := by
  refine ⟨fun u => ?_, fun u => ?_, fun u => ?_, fun _ hu => hu⟩ <;> by_cases hu : u = t
  · subst hu; simpa [Sched.modify] using hb
  · simp [Sched.modify, hu]
  · subst hu; simpa [Sched.modify] using hz
  · simp [Sched.modify, hu]
  · subst hu; simpa [Sched.modify] using hp
  · simp [Sched.modify, hu]

theorem Inv.state_running (h : Inv s place) (ht : s.current = some t) :
    (s.inner t).state = .running := by
  have hfits := h.fits t
  rw [(h.current t).mp ht] at hfits
  exact hfits

theorem Inv.current_mem (h : Inv s place) (ht : s.current = some t) : t ∈ s.allTasks := by
  by_contra hne
  have hp := (h.current t).mp ht
  simp [(h.known t).mpr hne] at hp

theorem actor_current (h : s.actor = some (some t)) :
    s.irq = false ∧ s.phase = .task ∧ s.current = some t := by
  simp only [actor] at h
  split at h
  · simp at h
  · rename_i hirq
    split at h
    · rename_i hphase
      exact ⟨by simpa using hirq, hphase, by simpa using h⟩
    · simp at h

theorem Inv.quiet_yield (h : Inv s place) : Quiet s (s.switchToIdle .ready) := by
  rw [Sched.switchToIdle]
  split
  · exact .of_inner rfl rfl
  · rename_i t ht
    have hst := h.state_running ht
    have hsettle : TaskInner.settle .ready (s.inner t) = { s.inner t with state := .ready } := by
      simp [TaskInner.settle]
    exact (Quiet.modify (t := t) (f := .settle .ready) s (by simp [hsettle, hst])
      (by simp [hsettle, hst]) (by simp [hsettle])).trans (.of_inner rfl rfl)

theorem Inv.quiet_resched (h : Inv s place) : Quiet s s.reschedIfNeeded := by
  rw [Sched.reschedIfNeeded]
  split
  · exact .of_inner rfl rfl
  · rename_i t ht
    split
    · have cleared := h.modify t (f := fun i => { i with needsResched := false }) rfl
        (h.level t) (h.ticks t)
      exact (Quiet.modify s Iff.rfl Iff.rfl rfl).trans cleared.quiet_yield
    · exact .of_inner rfl rfl

theorem Inv.quiet_next (h : Inv s place) : Quiet s s.runNext := by
  rw [Sched.runNext]
  split
  · exact .of_inner rfl rfl
  · rename_i t queue hpop
    have hcount := RunQueue.count_pop hpop t
    have hp : place t = .queued := by
      by_contra hne
      rw [h.queued t, if_neg hne] at hcount
      simp at hcount
    have hfits := h.fits t
    rw [hp] at hfits
    have hst : (s.inner t).state = .ready := hfits
    exact (Quiet.modify (t := t)
      (f := fun i => { i with state := .running, needsResched := false }) s
      (by simp [hst]) (by simp [hst]) rfl).trans (.of_inner rfl rfl)

theorem quiet_admitTask (hb : (s.inner t).state ≠ .blocked) (hz : (s.inner t).state ≠ .zombie)
    (hp : (s.inner t).wakeupPending = false) : Quiet s (s.admitTask t) := by
  have hmodify : Quiet s (s.modify t fun _ => .new) :=
    Quiet.modify s (by simp [TaskInner.new, hb]) (by simp [TaskInner.new, hz])
      (by simp [TaskInner.new, hp])
  refine ⟨hmodify.blocked, hmodify.zombie, hmodify.pending, fun u hu => ?_⟩
  simp [Sched.admitTask, hu]

/-- What the scheduler does by itself is quiet. -/
theorem Step.quiet {op : Op} (hs : Step s op s') (h : Inv s place)
    (hop : match op with | .wake _ | .blockCurrent | .exitCurrent => False | _ => True)
    (hnew : ∀ u, u ∉ s.allTasks → (s.inner u).state ≠ .blocked ∧ (s.inner u).state ≠ .zombie ∧
      (s.inner u).wakeupPending = false) : Quiet s s' := by
  cases hs with
  | bootAdmit _ _ ht => exact quiet_admitTask (hnew _ ht).1 (hnew _ ht).2.1 (hnew _ ht).2.2
  | admitTask _ ht => exact quiet_admitTask (hnew _ ht).1 (hnew _ ht).2.1 (hnew _ ht).2.2
  | wake _ _ _ => exact hop.elim
  | push _ _ => exact .of_inner rfl rfl
  | yieldNow _ => exact h.quiet_yield
  | blockCurrent _ => exact hop.elim
  | exitCurrent _ => exact hop.elim
  | resched _ => exact h.quiet_resched
  | interrupt _ _ => exact .of_inner rfl rfl
  | tick _ =>
    rw [Sched.onTimerTick]
    split
    · exact .of_inner rfl rfl
    · exact Quiet.modify s (by rw [TaskInner.tick_state]) (by rw [TaskInner.tick_state])
        (TaskInner.tick_pending _)
  | iret _ _ =>
    have unmasked : Quiet s { s with irq := false } := .of_inner rfl rfl
    exact unmasked.trans (h.setIrq false (by simp)).quiet_resched
  | enter _ _ => exact .of_inner rfl rfl
  | previous _ =>
    rw [Sched.runPrevious]
    split
    · exact .of_inner rfl rfl
    · dsimp only
      split <;> exact .of_inner rfl rfl
  | next _ => exact h.quiet_next
  | rescan _ _ => exact .of_inner rfl rfl

end

end Sched

end AlexOS
