import AlexOS.Task.Scheduler

/-!
# Where every task is

Each admitted task has one place, and each step moves at most one task from its
place to another. A task that `wake` has made ready and not yet queued is in
none of the scheduler's containers; that place belongs to the waker.
-/

namespace AlexOS

theorem RunQueue.count_eq (q : RunQueue) (t : Nat) :
    q.count t = (q.levels 0).count t + (q.levels 1).count t + (q.levels 2).count t := by
  simp [count, priorityLevels, List.range_succ, Nat.add_assoc]

theorem RunQueue.count_push (q : RunQueue) (t level u : Nat) :
    (q.push t level).count u = q.count u + if u = t then 1 else 0 := by
  have hone : [t].count u = if u = t then 1 else 0 := by
    by_cases h : u = t
    · simp [h]
    · simp [h, Ne.symm h]
  have hlevel : min level (priorityLevels - 1) = 0 ∨ min level (priorityLevels - 1) = 1 ∨
      min level (priorityLevels - 1) = 2 := by
    simp only [priorityLevels]
    omega
  simp only [count_eq, push]
  rcases hlevel with h | h | h <;> simp [h, List.count_append, hone] <;> omega

theorem RunQueue.count_popFrom {q q' : RunQueue} {t : Nat} (ls : List Nat)
    (hls : ∀ l ∈ ls, l < priorityLevels) (h : q.popFrom ls = some (t, q')) (u : Nat) :
    q.count u = q'.count u + if u = t then 1 else 0 := by
  induction ls with
  | nil => cases h
  | cons l ls ih =>
    rw [popFrom] at h
    cases hl : q.levels l with
    | nil =>
      rw [hl] at h
      exact ih (fun k hk => hls k (List.mem_cons_of_mem l hk)) h
    | cons x xs =>
      rw [hl] at h
      obtain ⟨rfl, rfl⟩ : x = t ∧ _ = q' := by simpa using h
      have hlt := hls l List.mem_cons_self
      have hone : (x :: xs).count u = xs.count u + if u = x then 1 else 0 := by
        by_cases hu : u = x <;> simp [hu, eq_comm]
      have hcases : l = 0 ∨ l = 1 ∨ l = 2 := by
        simp only [priorityLevels] at hlt
        omega
      simp only [count_eq]
      rcases hcases with rfl | rfl | rfl <;> simp [hl, hone] <;> omega

theorem RunQueue.count_pop {q q' : RunQueue} {t : Nat} (h : q.pop = some (t, q')) (u : Nat) :
    q.count u = q'.count u + if u = t then 1 else 0 :=
  count_popFrom _ (fun _ hl => List.mem_range.mp hl) h u

namespace Sched

inductive Place where
  | absent
  | queued
  | running
  | switched
  | parked
  | waking (c : Ctx)
deriving DecidableEq

/-- The states a task can have in a place. -/
def Place.Fits : Place → TaskState → Prop
  | .absent, _ => True
  | .queued, st => st = .ready
  | .running, st => st = .running
  | .switched, st => st ≠ .running
  | .parked, st => st = .blocked ∨ st = .zombie
  | .waking _, st => st = .ready

/-- `place` says where each task is, and the scheduler's containers agree. -/
structure Inv (s : Sched) (place : Nat → Place) : Prop where
  known : ∀ u, place u = .absent ↔ u ∉ s.allTasks
  queued : ∀ u, s.queue.count u = if place u = .queued then 1 else 0
  current : ∀ u, s.current = some u ↔ place u = .running
  previous : ∀ u, s.previous = some u ↔ place u = .switched
  wakes : ∀ c u, (∃ l, s.wakes c = some (u, l)) ↔ place u = .waking c
  fits : ∀ u, (place u).Fits (s.inner u).state
  level : ∀ u, (s.inner u).level < priorityLevels
  ticks : ∀ u, (s.inner u).ticks < quantaPerLevel
  task : s.phase = .task ↔ s.current ≠ none
  top : s.previous ≠ none → s.phase = .idleTop
  handler : s.irq = true → s.phase ≠ .idleTop
  alive : s.phase ≠ .panicked

section
variable {s : Sched} {place : Nat → Place} {t : Nat}

theorem Inv.boot : Inv boot fun _ => .absent := by
  constructor <;> simp [Sched.boot, RunQueue.count_eq, RunQueue.empty, Place.Fits, TaskInner.new,
    priorityLevels, quantaPerLevel]

/-- A change of a task's fields that keeps its place. -/
theorem Inv.modify (h : Inv s place) (t : Nat) {f : TaskInner → TaskInner}
    (hstate : (f (s.inner t)).state = (s.inner t).state)
    (hlevel : (f (s.inner t)).level < priorityLevels)
    (hticks : (f (s.inner t)).ticks < quantaPerLevel) : Inv (s.modify t f) place := by
  obtain ⟨known, queued, current, previous, wakes, fits, level, ticks, task, top, handler,
    alive⟩ := h
  refine ⟨known, queued, current, previous, wakes, ?_, ?_, ?_, task, top, handler, alive⟩ <;>
    intro u <;> by_cases hu : u = t
  · subst hu; simpa [Sched.modify, hstate] using fits u
  · simpa [Sched.modify, Function.update_of_ne hu] using fits u
  · subst hu; simpa [Sched.modify] using hlevel
  · simpa [Sched.modify, Function.update_of_ne hu] using level u
  · subst hu; simpa [Sched.modify] using hticks
  · simpa [Sched.modify, Function.update_of_ne hu] using ticks u

/-- One task goes to place `p`, the others stay where they are. -/
structure Moves (s s' : Sched) (t : Nat) (p : Place) : Prop where
  present : t ∈ s'.allTasks ∧ p ≠ .absent
  tasks : ∀ u, u ≠ t → (u ∈ s'.allTasks ↔ u ∈ s.allTasks)
  queued : ∀ u, s'.queue.count u =
    if u = t then if p = .queued then 1 else 0 else s.queue.count u
  current : ∀ u, s'.current = some u ↔ if u = t then p = .running else s.current = some u
  previous : ∀ u, s'.previous = some u ↔ if u = t then p = .switched else s.previous = some u
  wakes : ∀ c u, (∃ l, s'.wakes c = some (u, l)) ↔
    if u = t then p = .waking c else ∃ l, s.wakes c = some (u, l)
  inner : ∀ u, u ≠ t → s'.inner u = s.inner u
  fits : p.Fits (s'.inner t).state
  level : (s'.inner t).level < priorityLevels
  ticks : (s'.inner t).ticks < quantaPerLevel

theorem Inv.move {s' : Sched} {p : Place} (h : Inv s place) (m : Moves s s' t p)
    (task : s'.phase = .task ↔ s'.current ≠ none) (top : s'.previous ≠ none → s'.phase = .idleTop)
    (handler : s'.irq = true → s'.phase ≠ .idleTop) (alive : s'.phase ≠ .panicked) :
    Inv s' (Function.update place t p) := by
  refine ⟨fun u => ?_, fun u => ?_, fun u => ?_, fun u => ?_, fun c u =>
    ?_, fun u => ?_, fun u => ?_,
    fun u => ?_, task, top, handler, alive⟩
  · by_cases hu : u = t
    · rw [hu, Function.update_self]
      exact iff_of_false m.present.2 (not_not.mpr m.present.1)
    · rw [Function.update_of_ne hu, h.known, m.tasks u hu]
  · rw [m.queued, h.queued, Function.update_apply]
    split <;> rfl
  · rw [m.current, h.current, Function.update_apply]
    split <;> rfl
  · rw [m.previous, h.previous, Function.update_apply]
    split <;> rfl
  · rw [m.wakes, h.wakes, Function.update_apply]
    split <;> rfl
  all_goals by_cases hu : u = t
  · rw [hu, Function.update_self]
    exact m.fits
  · rw [Function.update_of_ne hu, m.inner u hu]
    exact h.fits u
  · exact hu ▸ m.level
  · rw [m.inner u hu]
    exact h.level u
  · exact hu ▸ m.ticks
  · rw [m.inner u hu]
    exact h.ticks u

/-- What the containers say about a task in a given place. -/
theorem Inv.count_eq (h : Inv s place) {p : Place} (ht : place t = p) :
    s.queue.count t = if p = .queued then 1 else 0 := by rw [h.queued, ht]

theorem Inv.current_ne (h : Inv s place) (ht : place t ≠ .running) : s.current ≠ some t :=
  fun e => ht ((h.current t).mp e)

theorem Inv.previous_ne (h : Inv s place) (ht : place t ≠ .switched) : s.previous ≠ some t :=
  fun e => ht ((h.previous t).mp e)

theorem Inv.wakes_ne (h : Inv s place) {c : Ctx} (ht : place t ≠ .waking c) (l : Nat) :
    s.wakes c ≠ some (t, l) := fun e => ht ((h.wakes c t).mp ⟨l, e⟩)

theorem Inv.current_none (h : Inv s place) (hphase : s.phase ≠ .task) : s.current = none := by
  by_contra hne
  exact hphase (h.task.mpr hne)

theorem Inv.previous_none (h : Inv s place) (hphase : s.phase ≠ .idleTop) : s.previous = none := by
  by_contra hne
  exact hphase (h.top hne)

/-! ## One step -/

theorem Inv.admitTask (h : Inv s place) (ht : t ∉ s.allTasks) :
    Inv (s.admitTask t) (Function.update place t .queued) := by
  have habsent := (h.known t).mpr ht
  have hcount := h.count_eq habsent
  have hcurrent := h.current_ne (t := t) (by simp [habsent])
  have hprevious := h.previous_ne (t := t) (by simp [habsent])
  have hwakes := fun c => h.wakes_ne (t := t) (c := c) (by simp [habsent])
  refine h.move ⟨?_, ?_, ?_, ?_, ?_, ?_, ?_, ?_, ?_, ?_⟩ h.task h.top h.handler h.alive
  · simp [Sched.admitTask]
  · intro u hu; simp [Sched.admitTask, hu]
  · intro u
    simp only [Sched.admitTask, RunQueue.count_push]
    by_cases hu : u = t <;> simp [hu, hcount]
  · intro u; by_cases hu : u = t <;> simp [Sched.admitTask, hu, hcurrent]
  · intro u; by_cases hu : u = t <;> simp [Sched.admitTask, hu, hprevious]
  · intro c u; by_cases hu : u = t <;> simp [Sched.admitTask, hu, hwakes]
  · intro u hu; simp [Sched.admitTask, hu]
  all_goals simp [Sched.admitTask, Place.Fits, TaskInner.new, priorityLevels, quantaPerLevel]

/-- Only a task in no container is blocked when it is woken: the switch that
blocks a task and the leg of the idle loop that follows it are masked. -/
theorem Inv.parked_of_blocked (h : Inv s place) (ht : t ∈ s.allTasks)
    (hst : (s.inner t).state = .blocked) (hprev : s.previous = none) : place t = .parked := by
  have hfits := h.fits t
  cases hp : place t with
  | absent => exact absurd ht ((h.known t).mp hp)
  | switched => exact absurd ((h.previous t).mpr hp) (by simp [hprev])
  | parked => rfl
  | _ => simp [hp, Place.Fits, hst] at hfits

theorem Inv.wake_blocked (h : Inv s place) {c : Ctx} (hc : s.wakes c = none)
    (hst : (s.inner t).state = .blocked) (hp : place t = .parked) :
    Inv (s.wake c t) (Function.update place t (.waking c)) := by
  have hcount := h.count_eq hp
  have hcurrent := h.current_ne (t := t) (by simp [hp])
  have hprevious := h.previous_ne (t := t) (by simp [hp])
  have hwakes := fun c => h.wakes_ne (t := t) (c := c) (by simp [hp])
  have hlevel := h.level t
  have htask : t ∈ s.allTasks := by
    by_contra hne
    simp [(h.known t).mpr hne] at hp
  simp only [Sched.wake, hst, if_true]
  refine h.move ⟨⟨htask, by simp⟩, fun _ _ => Iff.rfl, ?_, ?_, ?_, ?_, ?_, ?_, ?_, ?_⟩
    h.task h.top h.handler h.alive
  · intro u; by_cases hu : u = t <;> simp [Sched.modify, hu, hcount]
  · intro u; by_cases hu : u = t <;> simp [Sched.modify, hu, hcurrent]
  · intro u; by_cases hu : u = t <;> simp [Sched.modify, hu, hprevious]
  · intro d u
    by_cases hd : d = c
    · subst hd; by_cases hu : u = t <;> simp [hu, hc, eq_comm]
    · by_cases hu : u = t <;> simp [hd, Ne.symm hd, hu, hwakes]
  · intro u hu; simp [Sched.modify, hu]
  · simp [Sched.modify, Place.Fits]
  · simp only [Sched.modify, Function.update_self, TaskInner.woken_level]
    omega
  · simp [Sched.modify, quantaPerLevel]

theorem Inv.finishWake (h : Inv s place) {c : Ctx} {l : Nat} (hc : s.wakes c = some (t, l)) :
    Inv (s.finishWake c t l) (Function.update place t .queued) := by
  have hp := (h.wakes c t).mp ⟨l, hc⟩
  have hcount := h.count_eq hp
  have hcurrent := h.current_ne (t := t) (by simp [hp])
  have hprevious := h.previous_ne (t := t) (by simp [hp])
  have hwakes : ∀ d, d ≠ c → ∀ l, s.wakes d ≠ some (t, l) := fun d hd =>
    h.wakes_ne (by simp [hp, Ne.symm hd])
  have hfits := h.fits t
  have htask : t ∈ s.allTasks := by
    by_contra hne
    simp [(h.known t).mpr hne] at hp
  refine h.move ⟨⟨htask, by simp⟩, fun _ _ => Iff.rfl, ?_, ?_, ?_, ?_, fun _ _ => rfl, ?_,
    h.level t, h.ticks t⟩ h.task h.top h.handler h.alive
  · intro u
    simp only [Sched.finishWake, RunQueue.count_push]
    by_cases hu : u = t <;> simp [hu, hcount]
  · intro u; by_cases hu : u = t <;> simp [Sched.finishWake, hu, hcurrent]
  · intro u; by_cases hu : u = t <;> simp [Sched.finishWake, hu, hprevious]
  · intro d u
    by_cases hd : d = c
    · subst hd; by_cases hu : u = t <;> simp [Sched.finishWake, hu, hc, eq_comm (a := t)]
    · by_cases hu : u = t <;> simp [Sched.finishWake, hd, hu, hwakes d hd]
  · simpa [hp, Place.Fits, Sched.finishWake] using hfits

theorem Inv.switchToIdle (h : Inv s place) (ht : s.current = some t) {st : TaskState}
    (hst : st ≠ .running) : Inv (s.switchToIdle st) (Function.update place t .switched) := by
  have hp := (h.current t).mp ht
  have hcount := h.count_eq hp
  have hwakes := fun c => h.wakes_ne (t := t) (c := c) (by simp [hp])
  have hprev := h.previous_none (by simp [h.task.mpr (by simp [ht])])
  have htask : t ∈ s.allTasks := by
    by_contra hne
    simp [(h.known t).mpr hne] at hp
  simp only [Sched.switchToIdle, ht]
  refine h.move ⟨⟨htask, by simp⟩, fun _ _ => Iff.rfl, ?_, ?_, ?_, ?_, ?_, ?_, ?_, ?_⟩
    (by simp) (by simp) (by simp) (by simp)
  · intro u; by_cases hu : u = t <;> simp [Sched.modify, hu, hcount]
  · intro u; by_cases hu : u = t <;> simp [hu, ht, eq_comm (a := t)]
  · intro u; by_cases hu : u = t <;> simp [hu, hprev, eq_comm (a := t)]
  · intro c u; by_cases hu : u = t <;> simp [Sched.modify, hu, hwakes]
  · intro u hu; simp [Sched.modify, hu]
  · simp only [Sched.modify, Function.update_self, Place.Fits, TaskInner.settle_state]
    split
    · simp
    · exact hst
  · simpa [Sched.modify, TaskInner.settle_level] using h.level t
  · simpa [Sched.modify, TaskInner.settle_ticks] using h.ticks t

/-- The idle loop takes the task out of `previous`, into the queue or nowhere. -/
theorem Inv.takePrevious (h : Inv s place) (hcur : s.current = none) (hprev : s.previous = some t)
    {p : Place} (hp : p = .queued ∨ p = .parked) (hfit : p.Fits (s.inner t).state)
    {queue : RunQueue}
    (hq : ∀ u, queue.count u = s.queue.count u + if u = t ∧ p = .queued then 1 else 0) :
    Inv { s with previous := none, phase := .idlePick, queue := queue }
      (Function.update place t p) := by
  have hat := (h.previous t).mp hprev
  have hcount := h.count_eq hat
  have hwakes := fun c => h.wakes_ne (t := t) (c := c) (by simp [hat])
  have htask : t ∈ s.allTasks := by
    by_contra hne
    simp [(h.known t).mpr hne] at hat
  refine h.move ⟨⟨htask, ?_⟩, fun _ _ => Iff.rfl, ?_, ?_, ?_, ?_, fun _ _ => rfl, hfit,
    h.level t, h.ticks t⟩ (by simp [hcur]) (by simp) (by simp) (by simp)
  · rcases hp with rfl | rfl <;> simp
  · intro u
    simp only [hq]
    by_cases hu : u = t <;> simp [hu, hcount]
  · intro u
    rcases hp with rfl | rfl <;> by_cases hu : u = t <;> simp [hu, hcur]
  · intro u
    rcases hp with rfl | rfl <;> by_cases hu : u = t <;> simp [hu, hprev, eq_comm (a := t)]
  · intro c u
    rcases hp with rfl | rfl <;> by_cases hu : u = t <;> simp [hu, hwakes]

/-- Ready tasks are queued again; a blocked or finished one is in no container. -/
theorem Inv.runPrevious (h : Inv s place) (hphase : s.phase = .idleTop) :
    ∃ place', Inv s.runPrevious place' := by
  have hcur := h.current_none (by simp [hphase])
  rcases hprev : s.previous with _ | t
  · refine ⟨place, ?_⟩
    simp only [Sched.runPrevious, hprev]
    exact ⟨h.known, h.queued, h.current, by simpa [hprev] using h.previous, h.wakes, h.fits,
      h.level, h.ticks, by simp [hcur], by simp, by simp, by simp⟩
  have hfits := h.fits t
  rw [(h.previous t).mp hprev] at hfits
  cases hst : (s.inner t).state with
  | ready =>
    refine ⟨Function.update place t .queued, ?_⟩
    simp only [Sched.runPrevious, hprev, hst]
    exact h.takePrevious hcur hprev (.inl rfl) hst (by simp [RunQueue.count_push])
  | running => exact absurd hst hfits
  | blocked =>
    refine ⟨Function.update place t .parked, ?_⟩
    simp only [Sched.runPrevious, hprev, hst]
    exact h.takePrevious hcur hprev (.inr rfl) (.inl hst) (by simp)
  | zombie =>
    refine ⟨Function.update place t .parked, ?_⟩
    simp only [Sched.runPrevious, hprev, hst]
    exact h.takePrevious hcur hprev (.inr rfl) (.inr hst) (by simp)

theorem Inv.queued_of_pop (h : Inv s place) {queue : RunQueue}
    (hpop : s.queue.pop = some (t, queue)) : place t = .queued := by
  by_contra hne
  have := RunQueue.count_pop hpop t
  rw [h.queued t, if_neg hne, if_pos rfl] at this
  omega

theorem Inv.ready_of_pop (h : Inv s place) {queue : RunQueue}
    (hpop : s.queue.pop = some (t, queue)) : (s.inner t).state = .ready := by
  have hfits := h.fits t
  rwa [h.queued_of_pop hpop] at hfits

theorem Inv.runNext (h : Inv s place) (hphase : s.phase = .idlePick) :
    ∃ place', Inv s.runNext place' := by
  have hcur := h.current_none (by simp [hphase])
  have hprev := h.previous_none (by simp [hphase])
  rcases hpop : s.queue.pop with _ | ⟨t, queue⟩
  · refine ⟨place, ?_⟩
    simp only [Sched.runNext, hpop]
    exact ⟨h.known, h.queued, h.current, h.previous, h.wakes, h.fits, h.level, h.ticks,
      by simp [hcur], by simp [hprev], by simp, by simp⟩
  have hcount := RunQueue.count_pop hpop
  have hp := h.queued_of_pop hpop
  have hst := h.ready_of_pop hpop
  have hwakes := fun c => h.wakes_ne (t := t) (c := c) (by simp [hp])
  have htask : t ∈ s.allTasks := by
    by_contra hne
    simp [(h.known t).mpr hne] at hp
  refine ⟨Function.update place t .running, ?_⟩
  simp only [Sched.runNext, hpop, hst, reduceCtorEq, if_false]
  refine h.move ⟨⟨htask, by simp⟩, fun _ _ => Iff.rfl, ?_, ?_, ?_, ?_, ?_, ?_, ?_, ?_⟩
    (by simp) (by simp [Sched.modify, hprev]) (by simp) (by simp)
  · intro u
    have := hcount u
    by_cases hu : u = t
    · subst hu
      rw [h.queued u, hp] at this
      simp at this
      simp [this]
    · simp [hu] at this
      simp [hu, this]
  · intro u; by_cases hu : u = t <;> simp [hu, hcur, eq_comm (a := t)]
  · intro u; by_cases hu : u = t <;> simp [Sched.modify, hu, hprev]
  · intro c u; by_cases hu : u = t <;> simp [Sched.modify, hu, hwakes]
  · intro u hu; simp [Sched.modify, hu]
  · simp [Sched.modify, Place.Fits]
  · simpa [Sched.modify] using h.level t
  · simpa [Sched.modify] using h.ticks t

theorem Inv.onTimerTick (h : Inv s place) : Inv s.onTimerTick place := by
  rw [Sched.onTimerTick]
  split
  · exact h
  · rename_i t ht
    exact h.modify t (TaskInner.tick_state _) (TaskInner.tick_level (h.level t))
      (TaskInner.tick_ticks _)

theorem Inv.reschedIfNeeded (h : Inv s place) : ∃ place', Inv s.reschedIfNeeded place' := by
  rw [Sched.reschedIfNeeded]
  split
  · exact ⟨place, h⟩
  · rename_i t ht
    split
    · have cleared := h.modify t (f := fun i => { i with needsResched := false }) rfl
        (h.level t) (h.ticks t)
      exact ⟨_, cleared.switchToIdle ht (by simp)⟩
    · exact ⟨place, h⟩

theorem Inv.wake (h : Inv s place) {c : Ctx} (hactor : s.actor = some c) (hc : s.wakes c = none)
    (ht : t ∈ s.allTasks) : ∃ place', Inv (s.wake c t) place' := by
  by_cases hst : (s.inner t).state = .blocked
  · have hphase : s.phase ≠ .idleTop := by
      by_cases hirq : s.irq = true
      · exact h.handler hirq
      · intro hphase
        simp [actor, hirq, hphase] at hactor
    exact ⟨_, h.wake_blocked hc hst (h.parked_of_blocked ht hst (h.previous_none hphase))⟩
  · refine ⟨place, ?_⟩
    simp only [Sched.wake, hst, if_false]
    exact h.modify t rfl (h.level t) (h.ticks t)

/-- Leaving boot or the wait for an interrupt: nothing is current or previous. -/
theorem Inv.toTop (h : Inv s place) (hphase : s.phase = .boot ∨ s.phase = .idleWait)
    (hirq : s.irq = false) : Inv { s with phase := .idleTop } place := by
  have hcur := h.current_none (by rcases hphase with e | e <;> simp [e])
  exact ⟨h.known, h.queued, h.current, h.previous, h.wakes, h.fits, h.level, h.ticks,
    by simp [hcur], fun _ => rfl, by simp [hirq], by simp⟩

theorem Inv.setIrq (h : Inv s place) (b : Bool) (hphase : b = true → s.phase ≠ .idleTop) :
    Inv { s with irq := b } place :=
  ⟨h.known, h.queued, h.current, h.previous, h.wakes, h.fits, h.level, h.ticks, h.task, h.top,
    hphase, h.alive⟩

theorem Step.inv {s' : Sched} {op : Op} (hs : Step s op s') (h : Inv s place) :
    ∃ place', Inv s' place' := by
  cases hs with
  | bootAdmit _ _ ht => exact ⟨_, h.admitTask ht⟩
  | admitTask _ ht => exact ⟨_, h.admitTask ht⟩
  | wake hactor hc ht => exact h.wake hactor hc ht
  | push _ hc => exact ⟨_, h.finishWake hc⟩
  | yieldNow runs => exact ⟨_, h.switchToIdle runs.2.2.1 (by simp)⟩
  | blockCurrent runs => exact ⟨_, h.switchToIdle runs.2.2.1 (by simp)⟩
  | exitCurrent runs => exact ⟨_, h.switchToIdle runs.2.2.1 (by simp)⟩
  | resched _ => exact h.reschedIfNeeded
  | interrupt _ hphase =>
    exact ⟨place, h.setIrq true fun _ => by rcases hphase with e | e | e <;> simp [e]⟩
  | tick _ => exact ⟨place, h.onTimerTick⟩
  | iret _ _ => exact (h.setIrq false (by simp)).reschedIfNeeded
  | enter hphase hirq => exact ⟨place, h.toTop (.inl hphase) hirq⟩
  | previous hphase => exact h.runPrevious hphase
  | next hphase => exact h.runNext hphase
  | rescan hphase hirq => exact ⟨place, h.toTop (.inr hphase) hirq⟩

theorem Reach.inv (h : Reach system s) : ∃ place, Inv s place := by
  refine Reach.invariant (fun s => ∃ place, Inv s place) ?_ ?_ h
  · rintro _ rfl
    exact ⟨_, Inv.boot⟩
  · rintro s op s' ⟨place, inv⟩ hs
    exact Step.inv hs inv

/-! ## Zombies stay zombies -/

theorem modify_state {f : TaskInner → TaskInner} {u : Nat}
    (h : u = t → (f (s.inner t)).state = (s.inner t).state) :
    ((s.modify t f).inner u).state = (s.inner u).state := by
  by_cases hu : u = t
  · subst hu; simpa [Sched.modify] using h rfl
  · simp [Sched.modify, hu]

theorem Inv.zombie_switchToIdle (h : Inv s place) {u : Nat} {st : TaskState}
    (hz : (s.inner u).state = .zombie) : ((s.switchToIdle st).inner u).state = .zombie := by
  rw [Sched.switchToIdle]
  split
  · exact hz
  · rename_i t ht
    have hfits := h.fits t
    rw [(h.current t).mp ht] at hfits
    have hne : u ≠ t := by
      rintro rfl
      simp [Place.Fits, hz] at hfits
    simpa [Sched.modify, hne] using hz

theorem Inv.zombie_reschedIfNeeded (h : Inv s place) {u : Nat}
    (hz : (s.inner u).state = .zombie) : (s.reschedIfNeeded.inner u).state = .zombie := by
  rw [Sched.reschedIfNeeded]
  split
  · exact hz
  · rename_i t ht
    split
    · have cleared := h.modify t (f := fun i => { i with needsResched := false }) rfl
        (h.level t) (h.ticks t)
      exact cleared.zombie_switchToIdle ((modify_state fun _ => rfl).trans hz)
    · exact hz

theorem Step.zombie {s' : Sched} {op : Op} (hs : Step s op s') (h : Inv s place) {u : Nat}
    (hu : u ∈ s.allTasks) (hz : (s.inner u).state = .zombie) : (s'.inner u).state = .zombie := by
  have hkeeps : ∀ {t}, t ∉ s.allTasks → ((s.admitTask t).inner u).state = .zombie := by
    intro t ht
    have hne : u ≠ t := fun e => ht (e ▸ hu)
    simpa [Sched.admitTask, hne] using hz
  cases hs with
  | bootAdmit _ _ ht => exact hkeeps ht
  | admitTask _ ht => exact hkeeps ht
  | @wake c t _ _ _ =>
    rw [Sched.wake]
    split
    · rename_i hst
      have hne : u ≠ t := by
        rintro rfl
        simp [hz] at hst
      simpa [Sched.modify, hne] using hz
    · exact (modify_state fun _ => rfl).trans hz
  | push _ _ => exact hz
  | yieldNow _ => exact h.zombie_switchToIdle hz
  | blockCurrent _ => exact h.zombie_switchToIdle hz
  | exitCurrent _ => exact h.zombie_switchToIdle hz
  | resched _ => exact h.zombie_reschedIfNeeded hz
  | interrupt _ _ => exact hz
  | tick _ =>
    rw [Sched.onTimerTick]
    split
    · exact hz
    · exact (modify_state fun _ => TaskInner.tick_state _).trans hz
  | iret _ _ => exact (h.setIrq false (by simp)).zombie_reschedIfNeeded hz
  | enter _ _ => exact hz
  | previous _ =>
    rw [Sched.runPrevious]
    split
    · exact hz
    · dsimp only
      split <;> exact hz
  | next _ =>
    rw [Sched.runNext]
    split
    · exact hz
    · rename_i t queue hpop
      have hne : u ≠ t := by
        rintro rfl
        simp [h.ready_of_pop hpop] at hz
      simpa [Sched.modify, hne] using hz
  | rescan _ _ => exact hz

end

/-! ## Every run -/

/-- A task that has not exited is in this place. -/
def At (s : Sched) (u : Nat) : Place → Prop
  | .absent => False
  | .queued => s.queue.count u = 1 ∧ (s.inner u).state = .ready
  | .running => s.current = some u ∧ (s.inner u).state = .running
  | .switched => s.previous = some u ∧ ((s.inner u).state = .ready ∨ (s.inner u).state = .blocked)
  | .parked => s.queue.count u = 0 ∧ s.current ≠ some u ∧ s.previous ≠ some u ∧
      (s.inner u).state = .blocked
  | .waking c => s.queue.count u = 0 ∧ s.current ≠ some u ∧ s.previous ≠ some u ∧
      (∃ l, s.wakes c = some (u, l)) ∧ (s.inner u).state = .ready

structure Placed (s : Sched) : Prop where
  onePlace : ∀ u ∈ s.allTasks, (s.inner u).state ≠ .zombie → ∃! p, s.At u p
  once : ∀ u, s.queue.count u ≤ 1
  zombies : ∀ u, (s.inner u).state = .zombie → s.queue.count u = 0 ∧ s.current ≠ some u
  finished : ∀ u op s', u ∈ s.allTasks → (s.inner u).state = .zombie → Step s op s' →
    (s'.inner u).state = .zombie
  alive : s.phase ≠ .panicked
  level : ∀ u, (s.inner u).level < priorityLevels
  ticks : ∀ u, (s.inner u).ticks < quantaPerLevel

theorem Inv.at_place {s : Sched} {place : Nat → Place} (h : Inv s place) {u : Nat}
    (hu : u ∈ s.allTasks) (hz : (s.inner u).state ≠ .zombie) : s.At u (place u) := by
  have hcount := h.queued u
  have hcur := h.current u
  have hprev := h.previous u
  have hfits := h.fits u
  cases hp : place u with
  | absent => exact absurd hu ((h.known u).mp hp)
  | queued => simp_all [At, Place.Fits]
  | running => simp_all [At, Place.Fits]
  | switched => cases hst : (s.inner u).state <;> simp_all [At, Place.Fits]
  | parked => simp_all [At, Place.Fits]
  | waking c =>
    have hwakes := (h.wakes c u).mpr hp
    simp_all [At, Place.Fits]

theorem Inv.at_unique {s : Sched} {place : Nat → Place} (h : Inv s place) {u : Nat}
    (hu : u ∈ s.allTasks) {p : Place} (hp : s.At u p) : p = place u := by
  cases p with
  | absent => exact hp.elim
  | queued =>
    by_contra hne
    have hcount := h.queued u
    rw [if_neg (Ne.symm hne), hp.1] at hcount
    omega
  | running => exact ((h.current u).mp hp.1).symm
  | switched => exact ((h.previous u).mp hp.1).symm
  | parked =>
    obtain ⟨hcount, hcur, hprev, hst⟩ := hp
    have hfits := h.fits u
    have hq := h.queued u
    cases hplace : place u <;> simp_all [Place.Fits, ← h.previous, h.known]
  | waking c => exact ((h.wakes c u).mp hp.2.2.2.1).symm

/-- Every run keeps each task in one place. -/
theorem reach_placed {s : Sched} (h : Reach system s) : Placed s := by
  obtain ⟨place, inv⟩ := Reach.inv h
  refine ⟨fun u hu hz => ?_, fun u => ?_, fun u hz => ?_,
    fun u op s' hu hz hs => hs.zombie inv hu hz, inv.alive, inv.level, inv.ticks⟩
  · exact ⟨place u, inv.at_place hu hz, fun p hp => inv.at_unique hu hp⟩
  · rw [inv.queued u]; split <;> omega
  · have hfits := inv.fits u
    constructor
    · rw [inv.queued u, if_neg]
      intro hp
      simp [hp, Place.Fits, hz] at hfits
    · intro hc
      simp [(inv.current u).mp hc, Place.Fits, hz] at hfits

/-- Three tasks: the first blocks, the second is preempted halfway through waking
it, the third runs. -/
theorem woken_unplaced : ∃ s, Reach system s ∧ 1 ∈ s.allTasks ∧ (s.inner 1).state = .ready ∧
    s.phase = .task ∧ s.current = some 3 ∧
    ¬s.At 1 .queued ∧ ¬s.At 1 .running ∧ ¬s.At 1 .switched ∧ ¬s.At 1 .parked := by
  have booted : Reach system boot := .init rfl
  have one := booted.step _ (Step.bootAdmit (t := 1) rfl rfl (by decide))
  have two := one.step _ (Step.bootAdmit (t := 2) rfl rfl (by decide))
  have three := two.step _ (Step.bootAdmit (t := 3) rfl rfl (by decide))
  have first :=
    ((three.step _ (Step.enter rfl rfl)).step _ (Step.previous rfl)).step _ (Step.next rfl)
  have blocks := first.step _ (@Step.blockCurrent _ 1 ⟨rfl, rfl, rfl, rfl⟩)
  have second := (blocks.step _ (Step.previous rfl)).step _ (Step.next rfl)
  have wakes := second.step _ (Step.wake (c := some 2) (t := 1) rfl rfl (by decide))
  have preempted := ((wakes.step _ (Step.interrupt rfl (Or.inr (Or.inl rfl)))).step _
    (Step.tick rfl)).step _ (Step.iret rfl rfl)
  have third := (preempted.step _ (Step.previous rfl)).step _ (Step.next rfl)
  exact ⟨_, third, by decide, rfl, rfl, rfl, fun h => absurd h.1 (by decide),
    fun h => absurd h.1 (by decide), fun h => absurd h.1 (by decide),
    fun h => absurd h.2.2.2 (by decide)⟩

/-- The first task blocks, the second wakes it and yields, the third runs. -/
theorem placed_after_wake : ∃ s, Reach system s ∧ s.current = some 3 ∧ s.At 1 .queued ∧
    s.At 2 .queued ∧ Placed s := by
  have booted : Reach system boot := .init rfl
  have one := booted.step _ (Step.bootAdmit (t := 1) rfl rfl (by decide))
  have two := one.step _ (Step.bootAdmit (t := 2) rfl rfl (by decide))
  have three := two.step _ (Step.bootAdmit (t := 3) rfl rfl (by decide))
  have first :=
    ((three.step _ (Step.enter rfl rfl)).step _ (Step.previous rfl)).step _ (Step.next rfl)
  have blocks := first.step _ (@Step.blockCurrent _ 1 ⟨rfl, rfl, rfl, rfl⟩)
  have second := (blocks.step _ (Step.previous rfl)).step _ (Step.next rfl)
  have wakes := (second.step _ (Step.wake (c := some 2) (t := 1) rfl rfl (by decide))).step _
    (Step.push (c := some 2) rfl rfl)
  have yields := wakes.step _ (@Step.yieldNow _ 2 ⟨rfl, rfl, rfl, rfl⟩)
  have third := (yields.step _ (Step.previous rfl)).step _ (Step.next rfl)
  exact ⟨_, third, rfl, ⟨by decide, rfl⟩, ⟨by decide, rfl⟩, reach_placed third⟩

end Sched

end AlexOS
