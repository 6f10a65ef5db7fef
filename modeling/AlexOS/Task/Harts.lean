import AlexOS.Task.Placement

/-!
# The scheduler on several harts

`kernel/src/task/scheduler.rs` with one step for each section under a lock, any
number of harts in the idle loop or in a task, and wakes from any of them at any
time. `switch_to_idle` sets the state of the task first, hands it over through
`cpu.previous` and then saves its registers: a wake in between puts it on the run
queue. When none comes before the idle loop has looked at the task, a task is in
one place at a time.
-/

namespace AlexOS

namespace Harts

/-- Where a hart is. In the idle loop: about to take `cpu.previous`, to read the
state of what it took, to push it, to pop a task, to mark it running, to make it
current, or waiting. In a task, or in its `switch_to_idle`: about to set the state,
to fill `cpu.previous`, or to save the registers. -/
inductive Phase where
  | top (previous : Option Nat)
  | took (t : Nat)
  | requeue (t level : Nat)
  | pick
  | picked (t : Nat)
  | readied (t : Nat)
  | running (t : Nat)
  | leaving (t : Nat) (state : TaskState)
  | left (t : Nat)
  | handed (t : Nat)
  | waits
  | panicked
deriving DecidableEq, Repr

namespace Phase

/-- `cpu.current`. -/
def current : Phase → Option Nat
  | .running t => some t
  | _ => none

/-- The task a hart has its hands on. -/
def holds : Phase → Option Nat
  | .top previous => previous
  | .took t | .requeue t _ | .picked t | .readied t | .running t | .leaving t _ | .left t
  | .handed t => some t
  | .pick | .waits | .panicked => none

/-- From the step that sets the state until the registers are saved. -/
def Switches (t : Nat) : Phase → Prop
  | .left u | .handed u => u = t
  | _ => False

end Phase

structure State (n : Nat) where
  inner : Nat → TaskInner
  allTasks : List Nat
  queue : RunQueue
  /-- What `wake` and `admit` have still to push on the run queue, with its level. -/
  pushes : List (Nat × Nat)
  hart : Fin n → Phase

variable {n : Nat}

namespace State

def boot (n : Nat) : State n := ⟨fun _ => .new, [], .empty, [], fun _ => .top none⟩

def modify (s : State n) (t : Nat) (f : TaskInner → TaskInner) : State n :=
  { s with inner := Function.update s.inner t (f (s.inner t)) }

def goto (s : State n) (h : Fin n) (x : Phase) : State n :=
  { s with hart := Function.update s.hart h x }

/-- The section of `admit` under the lock of `ALL_TASKS`. -/
def admitTask (s : State n) (t : Nat) : State n :=
  { s with
    inner := Function.update s.inner t .new
    allTasks := s.allTasks ++ [t]
    pushes := (t, 0) :: s.pushes }

/-- The section of `wake` under the lock of the task. -/
def wake (s : State n) (t : Nat) : State n :=
  if (s.inner t).state = .blocked then
    { s.modify t .woken with pushes := (t, (s.inner t).woken.level) :: s.pushes }
  else s.modify t .noted

def push (s : State n) (t level : Nat) : State n :=
  { s with queue := s.queue.push t level, pushes := s.pushes.erase (t, level) }

def look (s : State n) (h : Fin n) (t : Nat) : State n :=
  match (s.inner t).state with
  | .ready => s.goto h (.requeue t (s.inner t).level)
  | .blocked | .zombie => s.goto h .pick
  | .running => s.goto h .panicked

def pick (s : State n) (h : Fin n) : State n :=
  match s.queue.pop with
  | none => s.goto h .waits
  | some (t, queue) => { s with queue := queue }.goto h (.picked t)

end State

inductive Op (n : Nat) where
  | admitTask (t : Nat)
  | wake (h : Fin n) (t : Nat)
  | push (t level : Nat)
  | tick (h : Fin n)
  | resched (h : Fin n)
  | leave (h : Fin n) (state : TaskState)
  | run (h : Fin n)

open State

inductive Step : State n → Op n → State n → Prop where
  | admitTask {s : State n} {t : Nat} : t ∉ s.allTasks → Step s (.admitTask t) (s.admitTask t)
  | wake {s : State n} {h : Fin n} {t : Nat} : t ∈ s.allTasks → Step s (.wake h t) (s.wake t)
  | push {s : State n} {t level : Nat} : (t, level) ∈ s.pushes →
      Step s (.push t level) (s.push t level)
  | tick {s : State n} {h : Fin n} {t : Nat} : (s.hart h).current = some t →
      Step s (.tick h) (s.modify t .tick)
  | resched {s : State n} {h : Fin n} {t : Nat} : (s.hart h).current = some t →
      Step s (.resched h) (s.modify t fun i => { i with needsResched := false })
  /-- The task is taken out of `cpu.current`. -/
  | leave {s : State n} {h : Fin n} {t : Nat} {state : TaskState} : s.hart h = .running t →
      state ≠ .running → Step s (.leave h state) (s.goto h (.leaving t state))
  | settle {s : State n} {h : Fin n} {t : Nat} {state : TaskState} : s.hart h = .leaving t state →
      Step s (.run h) ((s.modify t (.settle state)).goto h (.left t))
  | hand {s : State n} {h : Fin n} {t : Nat} : s.hart h = .left t →
      Step s (.run h) (s.goto h (.handed t))
  | save {s : State n} {h : Fin n} {t : Nat} : s.hart h = .handed t →
      Step s (.run h) (s.goto h (.top (some t)))
  | take {s : State n} {h : Fin n} {t : Nat} : s.hart h = .top (some t) →
      Step s (.run h) (s.goto h (.took t))
  | noPrevious {s : State n} {h : Fin n} : s.hart h = .top none → Step s (.run h) (s.goto h .pick)
  | look {s : State n} {h : Fin n} {t : Nat} : s.hart h = .took t → Step s (.run h) (s.look h t)
  | requeue {s : State n} {h : Fin n} {t level : Nat} : s.hart h = .requeue t level →
      Step s (.run h) ({ s with queue := s.queue.push t level }.goto h .pick)
  | pick {s : State n} {h : Fin n} : s.hart h = .pick → Step s (.run h) (s.pick h)
  | ready {s : State n} {h : Fin n} {t : Nat} : s.hart h = .picked t →
      Step s (.run h) ((s.modify t .started).goto h (.readied t))
  | enter {s : State n} {h : Fin n} {t : Nat} : s.hart h = .readied t →
      Step s (.run h) (s.goto h (.running t))
  | rescan {s : State n} {h : Fin n} : s.hart h = .waits → Step s (.run h) (s.goto h (.top none))

def system (n : Nat) : System (State n) (Op n) := ⟨(· = boot n), Step⟩

/-- A task that is switched away is on no run queue and on no other hart, and no task
is queued twice. -/
structure Safe (s : State n) : Prop where
  left : ∀ h t, (s.hart h).Switches t → s.queue.count t = 0
  alone : ∀ h t, (s.hart h).Switches t → ∀ h', h' ≠ h → (s.hart h').current ≠ some t
  once : ∀ t, s.queue.count t ≤ 1

/-- A wake finds a task blocked only when no hart has its hands on it any more. -/
def Parted (s : State n) : Op n → Prop
  | .wake _ t => (s.inner t).state = .blocked → ∀ h, (s.hart h).holds ≠ some t
  | _ => True

/-! ## One place at a time -/

inductive Place (n : Nat) where
  | absent
  | queued
  | pending
  | parked
  | on (h : Fin n)
deriving DecidableEq

/-- The states a task can be in while a hart has it. -/
def Phase.Fits : Phase → TaskState → Prop
  | .picked _, st | .requeue _ _, st => st = .ready
  | .readied _, st | .running _, st | .leaving _ _, st => st = .running
  | .top _, st | .took _, st | .left _, st | .handed _, st => st ≠ .running
  | .pick, _ | .waits, _ | .panicked, _ => True

def Stands (s : State n) (u : Nat) : Place n → Prop
  | .absent => True
  | .queued | .pending => (s.inner u).state = .ready
  | .parked => (s.inner u).state = .blocked ∨ (s.inner u).state = .zombie
  | .on h => (s.hart h).Fits (s.inner u).state

structure Inv (s : State n) (place : Nat → Place n) : Prop where
  known : ∀ u, place u = .absent ↔ u ∉ s.allTasks
  queued : ∀ u, s.queue.count u = if place u = .queued then 1 else 0
  pending : ∀ u, (s.pushes.map Prod.fst).count u = if place u = .pending then 1 else 0
  held : ∀ h u, (s.hart h).holds = some u ↔ place u = .on h
  stands : ∀ u, Stands s u (place u)
  leaving : ∀ h t, s.hart h ≠ .leaving t .running

/-- A step after which `t` is at `p` and every other task where it was. -/
structure Moves (s s' : State n) (t : Nat) (p : Place n) : Prop where
  present : t ∈ s'.allTasks ∧ p ≠ .absent
  tasks : ∀ u, u ≠ t → (u ∈ s'.allTasks ↔ u ∈ s.allTasks)
  queued : ∀ u, s'.queue.count u = if u = t then if p = .queued then 1 else 0 else s.queue.count u
  pending : ∀ u, (s'.pushes.map Prod.fst).count u =
    if u = t then if p = .pending then 1 else 0 else (s.pushes.map Prod.fst).count u
  held : ∀ h u, (s'.hart h).holds = some u ↔ if u = t then p = .on h else (s.hart h).holds = some u
  inner : ∀ u, u ≠ t → s'.inner u = s.inner u
  hart : ∀ h, s'.hart h = s.hart h ∨ ∀ u, u ≠ t → (s.hart h).holds ≠ some u
  stands : Stands s' t p
  leaving : ∀ h t, s'.hart h ≠ .leaving t .running

section
variable {s s' : State n} {place : Nat → Place n} {t : Nat} {p : Place n} {h : Fin n} {x y : Phase}

theorem Inv.move (inv : Inv s place) (m : Moves s s' t p) : Inv s' (Function.update place t p) := by
  refine ⟨fun u => ?_, fun u => ?_, fun u => ?_, fun h u => ?_, fun u => ?_, m.leaving⟩
  · by_cases hu : u = t
    · rw [hu, Function.update_self]
      exact iff_of_false m.present.2 (not_not.mpr m.present.1)
    · rw [Function.update_of_ne hu, inv.known, m.tasks u hu]
  · rw [m.queued, inv.queued, Function.update_apply]
    split <;> rfl
  · rw [m.pending, inv.pending, Function.update_apply]
    split <;> rfl
  · rw [m.held, inv.held, Function.update_apply]
    split <;> rfl
  by_cases hu : u = t
  · rw [hu, Function.update_self]
    exact m.stands
  rw [Function.update_of_ne hu]
  have old := inv.stands u
  rcases hp : place u with _ | _ | _ | _ | h
  all_goals rw [hp] at old
  · trivial
  · rwa [Stands, m.inner u hu]
  · rwa [Stands, m.inner u hu]
  · rwa [Stands, m.inner u hu]
  · have held := (inv.held h u).mpr hp
    rw [Stands, m.inner u hu]
    rcases m.hart h with same | none
    · rwa [same]
    · exact absurd held (none u hu)

theorem goto_hart (s : State n) (h h' : Fin n) (x : Phase) :
    (s.goto h x).hart h' = if h' = h then x else s.hart h' :=
  Function.update_apply _ _ _ _

theorem modify_inner (s : State n) (t u : Nat) (f : TaskInner → TaskInner) :
    (s.modify t f).inner u = if u = t then f (s.inner t) else s.inner u :=
  Function.update_apply _ _ _ _

/-- A task is held by one hart, and then nowhere else. -/
theorem Inv.place_on (inv : Inv s place) (hx : (s.hart h).holds = some t) : place t = .on h :=
  (inv.held h t).mp hx

theorem Inv.mem (inv : Inv s place) (ht : place t ≠ .absent) : t ∈ s.allTasks :=
  not_not.mp (mt (inv.known t).mpr ht)

/-- A change of a task that its state and its place do not notice. -/
theorem Inv.modify (inv : Inv s place) (t : Nat) {f : TaskInner → TaskInner}
    (hstate : (f (s.inner t)).state = (s.inner t).state) : Inv (s.modify t f) place := by
  refine ⟨inv.known, inv.queued, inv.pending, inv.held, fun u => ?_, inv.leaving⟩
  have state : ((s.modify t f).inner u).state = (s.inner u).state := by
    rw [modify_inner]
    split
    · rename_i hu
      rw [hu, hstate]
    · rfl
  have old := inv.stands u
  rcases hp : place u with _ | _ | _ | _ | h
  all_goals rw [hp] at old
  · trivial
  all_goals
    rw [Stands, state]
    exact old

/-- A hart goes on with the task it has, or with none. -/
theorem Inv.goto (inv : Inv s place) (hx : (s.hart h).holds = x.holds)
    (fits : ∀ u, x.holds = some u → x.Fits (s.inner u).state)
    (leaving : ∀ t, x ≠ .leaving t .running) : Inv (s.goto h x) place := by
  have held : ∀ h', ((s.goto h x).hart h').holds = (s.hart h').holds := by
    intro h'
    rw [goto_hart]
    split
    · rename_i hh
      rw [hh, hx]
    · rfl
  refine ⟨inv.known, inv.queued, inv.pending, fun h' u => ?_, fun u => ?_, fun h' t => ?_⟩
  · rw [held, inv.held]
  · have old := inv.stands u
    rcases hp : place u with _ | _ | _ | _ | h'
    all_goals rw [hp] at old
    · trivial
    · exact old
    · exact old
    · exact old
    · rw [Stands, goto_hart]
      split
      · rename_i hh
        subst hh
        exact fits u (hx ▸ (inv.held h' u).mpr hp)
      · exact old
  · rw [goto_hart]
    split
    · exact leaving t
    · exact inv.leaving h' t

/-- Who holds what after hart `h` took hold of `t`, or let go of it. -/
theorem Inv.held_goto (inv : Inv s place) (free : ∀ u, (s.hart h).holds = some u → u = t)
    (alone : ∀ h', h' ≠ h → place t ≠ .on h')
    (hx : x.holds = some t ∧ p = .on h ∨ x.holds = none ∧ ∀ h', p ≠ .on h') (h' : Fin n) (u : Nat) :
    (if h' = h then x else s.hart h').holds = some u ↔
      if u = t then p = .on h' else (s.hart h').holds = some u := by
  by_cases hh : h' = h
  · subst hh
    rw [if_pos rfl]
    by_cases hu : u = t
    · subst hu
      rw [if_pos rfl]
      rcases hx with ⟨hx, rfl⟩ | ⟨hx, hp⟩
      · exact iff_of_true hx rfl
      · exact iff_of_false (by rw [hx]; exact fun none => by cases none) (hp h')
    · rw [if_neg hu]
      refine iff_of_false ?_ fun hold => hu (free u hold)
      rcases hx with ⟨hx, -⟩ | ⟨hx, -⟩ <;> rw [hx]
      · exact fun same => hu (Option.some.inj same).symm
      · exact fun none => by cases none
  · rw [if_neg hh]
    by_cases hu : u = t
    · subst hu
      rw [if_pos rfl, inv.held]
      refine iff_of_false (alone h' hh) ?_
      rcases hx with ⟨-, rfl⟩ | ⟨-, hp⟩
      · exact fun same => hh (Place.on.inj same).symm
      · exact hp h'
    · rw [if_neg hu]

/-- Hart `h` changes the task it holds and goes on with it. -/
theorem Inv.act (inv : Inv s place) (hold : (s.hart h).holds = some t) (hx : x.holds = some t)
    {f : TaskInner → TaskInner} (fits : x.Fits (f (s.inner t)).state)
    (leaving : ∀ t, x ≠ .leaving t .running) : Inv ((s.modify t f).goto h x) place := by
  have hp := inv.place_on hold
  have moves : Moves s ((s.modify t f).goto h x) t (.on h) := by
    refine ⟨⟨inv.mem (by rw [hp]; exact nofun), nofun⟩, fun u hu => Iff.rfl, fun u => ?_,
      fun u => ?_, fun h' u => ?_, fun u hu => ?_, fun h' => ?_, ?_, fun h' t => ?_⟩
    · split
      · rename_i hu
        exact (inv.queued u).trans (by rw [hu, hp])
      · rfl
    · split
      · rename_i hu
        exact (inv.pending u).trans (by rw [hu, hp])
      · rfl
    · rw [goto_hart]
      exact inv.held_goto (fun u hu => Option.some.inj (hu.symm.trans hold))
        (fun h' hh same => hh (Place.on.inj (same.symm.trans hp))) (.inl ⟨hx, rfl⟩) h' u
    · exact (modify_inner s t u f).trans (if_neg hu)
    · rw [goto_hart]
      split
      · rename_i hh
        subst hh
        exact .inr fun u hu same => hu (Option.some.inj (same.symm.trans hold))
      · exact .inl rfl
    · rw [Stands, goto_hart, if_pos rfl]
      exact ((modify_inner s t t f).trans (if_pos rfl)) ▸ fits
    · rw [goto_hart]
      split
      · exact leaving t
      · exact inv.leaving h' t
  have := inv.move moves
  rwa [← hp, Function.update_eq_self] at this

theorem Inv.pending_cons (inv : Inv s place) (hp : place t ≠ .pending) (level u : Nat) :
    (((t, level) :: s.pushes).map Prod.fst).count u =
      if u = t then if (Place.pending : Place n) = .pending then 1 else 0
      else (s.pushes.map Prod.fst).count u := by
  rw [List.map_cons, List.count_cons]
  by_cases hu : u = t
  · subst hu
    rw [if_pos rfl, inv.pending, if_neg hp]
    simp
  · have hne : ¬ t = u := fun same => hu same.symm
    simp [hu, hne]

theorem Inv.admitTask (inv : Inv s place) (ht : t ∉ s.allTasks) :
    Inv (s.admitTask t) (Function.update place t .pending) := by
  have hp := (inv.known t).mpr ht
  refine inv.move ⟨⟨by simp [State.admitTask], nofun⟩, fun u hu => ?_, fun u => ?_,
    inv.pending_cons (by rw [hp]; exact nofun) 0, fun h u => ?_, fun u hu => ?_, fun h => .inl rfl,
    ?_, inv.leaving⟩
  · simp [State.admitTask, hu]
  · split
    · rename_i hu
      exact (inv.queued u).trans (by rw [hu, hp]; rfl)
    · rfl
  · split
    · rename_i hu
      refine iff_of_false (fun hold => ?_) nofun
      have := inv.place_on (show (s.hart h).holds = some u from hold)
      rw [hu, hp] at this
      cases this
    · exact Iff.rfl
  · exact Function.update_of_ne hu _ _
  · exact congrArg TaskInner.state (Function.update_self t TaskInner.new s.inner)

/-- A blocked task that no hart has is parked. -/
theorem Inv.parked (inv : Inv s place) (ht : t ∈ s.allTasks) (hst : (s.inner t).state = .blocked)
    (free : ∀ h, (s.hart h).holds ≠ some t) : place t = .parked := by
  have stands := inv.stands t
  rcases hp : place t with _ | _ | _ | _ | h
  all_goals rw [hp] at stands
  · exact absurd ht ((inv.known t).mp hp)
  · rw [Stands, hst] at stands
    cases stands
  · rw [Stands, hst] at stands
    cases stands
  · exact absurd ((inv.held h t).mpr hp) (free h)

theorem Inv.wake (inv : Inv s place) (ht : t ∈ s.allTasks)
    (parted : (s.inner t).state = .blocked → ∀ h, (s.hart h).holds ≠ some t) :
    ∃ place', Inv (s.wake t) place' := by
  rw [State.wake]
  by_cases hst : (s.inner t).state = .blocked
  case neg =>
    rw [if_neg hst]
    exact ⟨place, inv.modify t rfl⟩
  rw [if_pos hst]
  have hp := inv.parked ht hst (parted hst)
  refine ⟨_, inv.move (t := t) (p := .pending) ⟨⟨ht, nofun⟩, fun u hu => Iff.rfl, fun u => ?_,
    inv.pending_cons (by rw [hp]; exact nofun) _, fun h u => ?_, fun u hu => ?_, fun h => .inl rfl,
    ?_, inv.leaving⟩⟩
  · split
    · rename_i hu
      exact (inv.queued u).trans (by rw [hu, hp]; rfl)
    · rfl
  · split
    · rename_i hu
      subst hu
      exact iff_of_false (parted hst h) nofun
    · exact Iff.rfl
  · exact Function.update_of_ne hu _ _
  · exact congrArg TaskInner.state (Function.update_self t _ s.inner)

theorem Inv.push (inv : Inv s place) {level : Nat} (hw : (t, level) ∈ s.pushes) :
    Inv (s.push t level) (Function.update place t .queued) := by
  have hperm : ∀ u, (s.pushes.map Prod.fst).count u =
      ((s.pushes.erase (t, level)).map Prod.fst).count u + if t = u then 1 else 0 := by
    intro u
    rw [((List.perm_cons_erase hw).map Prod.fst).count_eq, List.map_cons, List.count_cons]
    simp
  have hp : place t = .pending := by
    by_contra hp
    have := hperm t
    rw [inv.pending, if_neg hp, if_pos rfl] at this
    omega
  refine inv.move ⟨⟨inv.mem (by rw [hp]; exact nofun), nofun⟩, fun u hu => Iff.rfl, fun u => ?_,
    fun u => ?_, fun h u => ?_, fun u hu => rfl, fun h => .inl rfl, ?_, inv.leaving⟩
  · simp only [State.push, RunQueue.count_push, if_true]
    split
    · rename_i hu
      rw [inv.queued, hu, hp]
      rfl
    · rfl
  · have := hperm u
    rw [inv.pending] at this
    simp only [State.push]
    split
    · rename_i hu
      subst hu
      rw [if_pos hp, if_pos rfl] at this
      simpa using this.symm
    · rename_i hu
      have hne : ¬ t = u := fun same => hu same.symm
      rw [if_neg hne, Nat.add_zero] at this
      rw [← this, inv.pending]
  · split
    · rename_i hu
      refine iff_of_false (fun hold => ?_) nofun
      have := inv.place_on (show (s.hart h).holds = some u from hold)
      rw [hu, hp] at this
      cases this
    · exact Iff.rfl
  · have := inv.stands t
    rw [hp] at this
    exact this

/-- Hart `h` lets go of `t`, which goes to `p`. -/
theorem Inv.release (inv : Inv s place) (hold : (s.hart h).holds = some t) {queue : RunQueue}
    (hp : p = .queued ∨ p = .parked) (stands : Stands s t p)
    (hq : ∀ u, queue.count u = s.queue.count u + if u = t ∧ p = .queued then 1 else 0) :
    Inv ({ s with queue := queue }.goto h .pick) (Function.update place t p) := by
  have ht := inv.place_on hold
  have off : ∀ h', p ≠ .on h' := by
    rcases hp with rfl | rfl <;> exact nofun
  refine inv.move ⟨⟨inv.mem (by rw [ht]; exact nofun),
    ?_⟩, fun u hu => Iff.rfl, fun u => ?_, fun u => ?_,
    fun h' u => ?_, fun u hu => rfl, fun h' => ?_, ?_, fun h' t => ?_⟩
  · rcases hp with rfl | rfl <;> exact nofun
  · refine (hq u).trans ?_
    by_cases hu : u = t
    · subst hu
      rw [if_pos rfl, inv.queued, ht]
      simp
    · simp [hu]
  · refine (inv.pending u).trans ?_
    by_cases hu : u = t
    · subst hu
      rw [ht, if_pos rfl]
      rcases hp with rfl | rfl <;> rfl
    · rw [if_neg hu, inv.pending]
  · rw [goto_hart]
    exact inv.held_goto (fun u hu => Option.some.inj (hu.symm.trans hold))
      (fun h' hh same => hh (Place.on.inj (same.symm.trans ht))) (.inr ⟨rfl, off⟩) h' u
  · rw [goto_hart]
    split
    · rename_i hh
      subst hh
      exact .inr fun u hu same => hu (Option.some.inj (same.symm.trans hold))
    · exact .inl rfl
  · rcases hp with rfl | rfl <;> exact stands
  · rw [goto_hart]
    split
    · exact nofun
    · exact inv.leaving h' t

theorem Inv.look (inv : Inv s place) (hx : s.hart h = .took t) :
    ∃ place', Inv (s.look h t) place' := by
  have hold : (s.hart h).holds = some t := by rw [hx]; rfl
  have fits := inv.stands t
  rw [inv.place_on hold, Stands, hx] at fits
  have parked : (s.inner t).state = .blocked ∨ (s.inner t).state = .zombie →
      ∃ place', Inv (s.goto h .pick) place' := by
    intro hst
    have same : ∀ u, s.queue.count u =
        s.queue.count u + if u = t ∧ (Place.parked : Place n) = .queued then 1 else 0 := by simp
    exact ⟨_, inv.release hold (.inr rfl) hst same⟩
  rw [State.look]
  rcases hst : (s.inner t).state
  · refine ⟨place, inv.goto (by rw [hold]; rfl) (fun u hu => ?_) nofun⟩
    obtain rfl := Option.some.inj hu
    exact hst
  · exact absurd hst fits
  · exact parked (.inl hst)
  · exact parked (.inr hst)

theorem Inv.pick (inv : Inv s place) (hx : s.hart h = .pick) : ∃ place', Inv (s.pick h) place' := by
  have hold : (s.hart h).holds = none := by rw [hx]; rfl
  rw [State.pick]
  rcases hpop : s.queue.pop with _ | ⟨t, queue⟩
  · exact ⟨place, inv.goto hold nofun nofun⟩
  have hcount := RunQueue.count_pop hpop
  have hp : place t = .queued := by
    by_contra hp
    have := hcount t
    rw [inv.queued, if_neg hp, if_pos rfl] at this
    omega
  have hst := inv.stands t
  rw [hp] at hst
  refine ⟨_, inv.move (t := t) (p := .on h) ⟨⟨inv.mem (by rw [hp]; exact nofun), nofun⟩,
    fun u hu => Iff.rfl, fun u => ?_, fun u => ?_, fun h' u => ?_, fun u hu => rfl, fun h' => ?_,
    ?_, fun h' t => ?_⟩⟩
  · have := hcount u
    rw [inv.queued] at this
    by_cases hu : u = t
    · subst hu
      rw [if_pos hp, if_pos rfl] at this
      rw [if_pos rfl]
      exact (Nat.succ.inj this).symm
    · rw [if_neg hu] at this ⊢
      exact (this.symm.trans (inv.queued u).symm)
  · refine (inv.pending u).trans ?_
    by_cases hu : u = t
    · subst hu
      rw [hp, if_pos rfl]
      rfl
    · rw [if_neg hu, inv.pending]
  · rw [goto_hart]
    exact inv.held_goto (fun u hu => by rw [hold] at hu; cases hu)
      (fun h' _ same => by rw [hp] at same; cases same) (.inl ⟨rfl, rfl⟩) h' u
  · rw [goto_hart]
    split
    · rename_i hh
      subst hh
      exact .inr fun u _ same => by rw [hold] at same; cases same
    · exact .inl rfl
  · rw [Stands, goto_hart, if_pos rfl]
    exact hst
  · rw [goto_hart]
    split
    · exact nofun
    · exact inv.leaving h' t

theorem Inv.requeue (inv : Inv s place) {level : Nat} (hx : s.hart h = .requeue t level) :
    Inv ({ s with queue := s.queue.push t level }.goto h .pick)
      (Function.update place t .queued) := by
  have hold : (s.hart h).holds = some t := by rw [hx]; rfl
  have fits := inv.stands t
  rw [inv.place_on hold, Stands, hx] at fits
  refine inv.release hold (.inl rfl) fits fun u => ?_
  rw [RunQueue.count_push]
  simp

/-! ## Every run -/

theorem Inv.boot : Inv (State.boot n) fun _ => .absent := by
  refine ⟨by simp [State.boot], fun u => rfl, fun u => rfl, fun h u => ?_, fun u => trivial, nofun⟩
  exact iff_of_false nofun nofun

/-- A hart goes to a phase that asks no more of its task. -/
theorem Inv.advance (inv : Inv s place) (hx : s.hart h = y) (hold : y.holds = x.holds)
    (fits : ∀ st, y.Fits st → x.Fits st) (leaving : ∀ t, x ≠ .leaving t .running) :
    Inv (s.goto h x) place := by
  subst hx
  refine inv.goto hold (fun u hu => fits _ ?_) leaving
  have stands := inv.stands u
  rwa [inv.place_on (hold.trans hu)] at stands

theorem Step.inv {op : Op n} (hs : Step s op s') (hok : Parted s op) (inv : Inv s place) :
    ∃ place', Inv s' place' := by
  cases hs with
  | admitTask ht => exact ⟨_, inv.admitTask ht⟩
  | wake ht => exact inv.wake ht hok
  | push hw => exact ⟨_, inv.push hw⟩
  | tick ht =>
    exact ⟨_, inv.modify _ (TaskInner.tick_state _)⟩
  | resched ht => exact ⟨_, inv.modify _ rfl⟩
  | leave hx hst =>
    exact ⟨_, inv.advance hx rfl (fun _ fits => fits) fun t same => hst (Phase.leaving.inj same).2⟩
  | settle hx =>
    rename_i h t state
    refine ⟨_, inv.act (by rw [hx]; rfl) rfl ?_ nofun⟩
    rw [Phase.Fits, TaskInner.settle_state]
    split
    · exact nofun
    · rintro rfl
      exact inv.leaving h t hx
  | hand hx | save hx | take hx | enter hx =>
    exact ⟨_, inv.advance hx rfl (fun _ fits => fits) nofun⟩
  | noPrevious hx => exact ⟨_, inv.goto (by rw [hx]; rfl) nofun nofun⟩
  | look hx => exact inv.look hx
  | requeue hx => exact ⟨_, inv.requeue hx⟩
  | pick hx => exact inv.pick hx
  | ready hx => exact ⟨_, inv.act (by rw [hx]; rfl) rfl rfl nofun⟩
  | rescan hx => exact ⟨_, inv.goto (by rw [hx]; rfl) nofun nofun⟩

theorem Reach.inv (hr : Reach ((system n).guard Parted) s) : ∃ place, Inv s place := by
  refine Reach.invariant (fun s => ∃ place, Inv s place) ?_ ?_ hr
  · rintro s rfl
    exact ⟨_, Inv.boot⟩
  · rintro s op s' ⟨place, inv⟩ ⟨hs, hok⟩
    exact Step.inv hs hok inv

theorem Inv.safe (inv : Inv s place) : Safe s := by
  have hold : ∀ h t, (s.hart h).Switches t → place t = .on h := by
    intro h t hsw
    refine inv.place_on ?_
    rcases hx : s.hart h <;> rw [hx] at hsw <;> first | exact hsw.elim | exact congrArg some hsw
  refine ⟨fun h t hsw => ?_, fun h t hsw h' hh hcur => ?_, fun t => ?_⟩
  · rw [inv.queued, hold h t hsw]
    rfl
  · have : (s.hart h').holds = some t := by
      rcases hx : s.hart h' <;> rw [hx] at hcur <;> first | exact hcur | cases hcur
    exact hh (Place.on.inj ((inv.place_on this).symm.trans (hold h t hsw)))
  · rw [inv.queued]
    split <;> decide

end

/-- With every wake of a blocked task after its hart has let go of it, a task is
runnable only after it has left its stack. -/
theorem reach_safe {s : State n} (hr : Reach ((system n).guard Parted) s) : Safe s := by
  obtain ⟨place, inv⟩ := Reach.inv hr
  exact inv.safe

/-- A task blocks on one hart, is woken from the other and runs there. -/
theorem safe_after_wake : ∃ s : State 2, Reach ((system 2).guard Parted) s ∧
    s.hart 0 = .pick ∧ s.hart 1 = .running 1 ∧ Safe s := by
  have booted : Reach ((system 2).guard Parted) (State.boot 2) := .init rfl
  have one := (booted.step _ ⟨Step.admitTask (t := 1) (by decide), trivial⟩).step _
    ⟨@Step.push _ _ 1 0 (by decide), trivial⟩
  have picked := (one.step _ ⟨Step.noPrevious (h := 0) rfl, trivial⟩).step _
    ⟨Step.pick (h := 0) rfl, trivial⟩
  have runs := (picked.step _ ⟨Step.ready (h := 0) (t := 1) rfl, trivial⟩).step _
    ⟨Step.enter (h := 0) (t := 1) rfl, trivial⟩
  have blocks := (runs.step _ ⟨@Step.leave _ _ 0 1 .blocked rfl nofun, trivial⟩).step _
    ⟨Step.settle (h := 0) (t := 1) rfl, trivial⟩
  have saved := (blocks.step _ ⟨Step.hand (h := 0) (t := 1) rfl, trivial⟩).step _
    ⟨Step.save (h := 0) (t := 1) rfl, trivial⟩
  have looked := (saved.step _ ⟨Step.take (h := 0) (t := 1) rfl, trivial⟩).step _
    ⟨Step.look (h := 0) (t := 1) rfl, trivial⟩
  have woken := (looked.step _ ⟨Step.wake (h := 1) (t := 1) (by decide), fun _ => by decide⟩).step _
    ⟨@Step.push _ _ 1 0 (by decide), trivial⟩
  have other := (woken.step _ ⟨Step.noPrevious (h := 1) rfl, trivial⟩).step _
    ⟨Step.pick (h := 1) rfl, trivial⟩
  have moved := (other.step _ ⟨Step.ready (h := 1) (t := 1) rfl, trivial⟩).step _
    ⟨Step.enter (h := 1) (t := 1) rfl, trivial⟩
  exact ⟨_, moved, rfl, rfl, reach_safe moved⟩

/-- One hart runs a task, the other waits. The task blocks, and an interrupt on the
other hart wakes it before its registers are saved. -/
theorem woken_on_its_stack : ∃ s : State 2, Reach (system 2) s ∧
    (s.hart 0).Switches 1 ∧ s.queue.count 1 = 1 := by
  have booted : Reach (system 2) (State.boot 2) := .init rfl
  have one := (booted.step _ (Step.admitTask (t := 1) (by decide))).step _
    (@Step.push _ _ 1 0 (by decide))
  have picked := (one.step _ (Step.noPrevious (h := 0) rfl)).step _ (Step.pick (h := 0) rfl)
  have runs := (picked.step _ (Step.ready (h := 0) (t := 1) rfl)).step _
    (Step.enter (h := 0) (t := 1) rfl)
  have other := (runs.step _ (Step.noPrevious (h := 1) rfl)).step _ (Step.pick (h := 1) rfl)
  have blocks := (other.step _ (@Step.leave _ _ 0 1 .blocked rfl nofun)).step _
    (Step.settle (h := 0) (t := 1) rfl)
  have wakes := (blocks.step _ (Step.wake (h := 1) (t := 1) (by decide))).step _
    (@Step.push _ _ 1 0 (by decide))
  exact ⟨_, wakes, rfl, by decide⟩

end Harts

end AlexOS
