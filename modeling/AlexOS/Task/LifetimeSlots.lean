import AlexOS.Task.Lifetime

/-!
# Where the scheduler has each task

A task that has not exited is in the run queue, in `current`, `previous` or the variable
between them, about to be pushed by the task that woke it, or blocked in a `wait` that refers
to it. So nothing but an exited task is ever freed.
-/

namespace AlexOS.Lifetime

/-! ## Records -/

namespace Stage

/-- It runs for a user program, and has a space and a frame. -/
def forUser : Stage → Bool
  | .entry | .user | .trapped _ | .body (some _) | .prepared _ _ | .swapped _ _ | .replaced _
  | .handled | .leave => true
  | _ => false

/-- No local refers to a task. -/
def bare : Stage → Bool
  | .fresh | .entry | .user | .trapped _ | .handled | .leave | .exiting | .taken _ | .detached _
  | .exited | .dead => true
  | _ => false

/-- In `exit_current`, or past it. -/
def ending : Stage → Bool
  | .exiting | .taken _ | .detached _ | .notify | .exited | .dead => true
  | _ => false

end Stage

structure Task.Ok (r : Task) : Prop where
  frame : r.isUser = true → r.stage ≠ .dead → r.frame ≠ none
  user : r.stage.forUser = true → r.isUser = true ∧ r.space ≠ none
  fresh : r.stage = .fresh → r.isUser = true → r.space ≠ none
  bare : r.stage.bare = true → r.locals = []
  spaceless : r.stage.ending = true → r.stage ≠ .exiting → r.space = none
  zombie : r.state = .zombie ↔ r.stage = .dead
  dead : r.stage = .dead → r.resched = false ∧ r.waking = none
  killed : r.killed = true → r.stage.ending = true
  waking : ∀ u, r.waking = some u → r.stage.free = true ∧ u ∈ r.locals

namespace Task.Ok

variable {r r' : Task} {s : World} {t : Nat}

theorem new_user (sp fr : Nat) : (Task.new true (some sp) (some fr)).Ok := by
  constructor <;> simp [Task.new, Stage.forUser, Stage.ending]

theorem new_kernel : (Task.new false none none).Ok := by
  constructor <;> simp [Task.new, Stage.forUser, Stage.ending]

/-- References come and go in code that is free to clone and drop them. -/
theorem hold (ok : r.Ok) (hfree : r.stage.free = true) (hw : r.waking = none) (ls cs : List Nat) :
    { r with locals := ls, children := cs }.Ok where
  frame := ok.frame
  user := ok.user
  fresh := ok.fresh
  bare h := by
    have : r.stage.bare = false := by
      revert hfree
      cases r.stage <;> simp [Stage.free, Stage.bare]
    rw [this] at h
    cases h
  spaceless := ok.spaceless
  zombie := ok.zombie
  dead := ok.dead
  killed := ok.killed
  waking u h := by
    rw [hw] at h
    cases h

theorem turn (ok : r.Ok) (hw : r.waking = none) (hstate : r.state = .running)
    (h : World.Turn s t r r') : r'.Ok := by
  cases h with
  | clone hfree _ => exact ok.hold hfree hw _ _
  | drop hfree _ => exact ok.hold hfree hw _ _
  | reap hfree _ _ => exact ok.hold hfree hw _ _
  | _ =>
    obtain ⟨frame, user, fresh, bare, spaceless, zombie, dead, killed, waking⟩ := ok
    constructor <;> simp_all [Stage.forUser, Stage.bare, Stage.ending]

theorem leaves (ok : r.Ok) (hw : r.waking = none) (hresched : r.resched = false)
    (h : World.Leaves t r r') : r'.Ok := by
  obtain ⟨frame, user, fresh, bare, spaceless, zombie, dead, killed, waking⟩ := ok
  cases h <;> constructor <;> simp_all [Stage.forUser, Stage.bare, Stage.ending]

theorem preempt (ok : r.Ok) (h : r.stage.preemptible = true) :
    { r with state := .ready, resched := true, stage := r.stage.resumed }.Ok := by
  obtain ⟨frame, user, fresh, bare, spaceless, zombie, dead, killed, waking⟩ := ok
  have hstage : r.stage = .handled ∨ r.stage.resumed = r.stage := by
    cases r.stage <;> simp [Stage.resumed]
  rcases hstage with hstage | hstage
  · constructor <;> simp_all [Stage.resumed, Stage.forUser, Stage.bare, Stage.ending, Stage.free]
  · rw [hstage]
    have hdead : r.stage ≠ .dead := by
      intro hd
      rw [hd] at h
      cases h
    exact ⟨frame, user, fresh, bare, spaceless, by simp [hdead], fun hd => absurd hd hdead, killed,
      waking⟩

/-- The state of a task that has not exited changes. -/
theorem setState (ok : r.Ok) (h : r.state ≠ .zombie) {st : TaskState} (hst : st ≠ .zombie) :
    { r with state := st }.Ok where
  frame := ok.frame
  user := ok.user
  fresh := ok.fresh
  bare := ok.bare
  spaceless := ok.spaceless
  zombie := ⟨fun hz => absurd hz hst, fun hd => absurd (ok.zombie.mpr hd) h⟩
  dead := ok.dead
  killed := ok.killed
  waking := ok.waking

end Task.Ok

/-! ## The hart's variables -/

/-- The phase with the one task it is about. -/
inductive Pos where
  | boot
  | top (previous : Option Nat)
  | took (t : Nat)
  | pick
  | picked (t : Nat)
  | activated (t : Nat)
  | published (t : Nat)
  | wait
  | task (t : Nat)
  | leaving (t : Nat)
  | handed (t : Nat)

namespace Pos

def phase : Pos → Phase
  | .boot => .boot
  | .top _ => .top
  | .took _ => .took
  | .pick => .pick
  | .picked _ => .picked
  | .activated _ => .activated
  | .published _ => .published
  | .wait => .wait
  | .task _ => .task
  | .leaving _ => .leaving
  | .handed _ => .handed

def current : Pos → Option Nat
  | .published t | .task t => some t
  | _ => none

def previous : Pos → Option Nat
  | .top previous => previous
  | .handed t => some t
  | _ => none

def hand : Pos → Option Nat
  | .took t | .picked t | .activated t | .leaving t => some t
  | _ => none

def on : Pos → Option Nat
  | .task t | .leaving t | .handed t => some t
  | _ => none

/-- The task in one of the three variables. -/
def seat : Pos → Option Nat
  | .top previous => previous
  | .took t | .picked t | .activated t | .published t | .task t | .leaving t | .handed t => some t
  | .boot | .pick | .wait => none

/-- What the state of that task can be. -/
def Fits : Pos → TaskState → Prop
  | .picked _, st | .activated _, st => st = .ready
  | .published _, st | .task _, st => st = .running
  | _, st => st ≠ .running

end Pos

structure At (s : World) (p : Pos) : Prop where
  phase : s.phase = p.phase
  current : s.current = p.current
  previous : s.previous = p.previous
  hand : s.hand = p.hand
  on : s.on = p.on

section
variable {s : World} {p : Pos} {t : Nat}

theorem At.seat_held (h : At s p) (ht : p.seat = some t) : s.Held t := by
  unfold World.Held
  rw [h.current, h.previous, h.hand]
  cases p <;> simp_all [Pos.seat, Pos.current, Pos.previous, Pos.hand]

theorem At.eq_boot (h : At s p) (hp : s.phase = .boot) : p = .boot := by
  have := h.phase
  cases p <;> simp_all [Pos.phase]

theorem At.eq_top (h : At s p) (hp : s.phase = .top) : p = .top s.previous := by
  have := h.phase
  have := h.previous
  cases p <;> simp_all [Pos.phase, Pos.previous]

theorem At.eq_took (h : At s p) (hp : s.phase = .took) (ht : s.hand = some t) : p = .took t := by
  have := h.phase
  have := h.hand
  cases p <;> simp_all [Pos.phase, Pos.hand]

theorem At.eq_pick (h : At s p) (hp : s.phase = .pick) : p = .pick := by
  have := h.phase
  cases p <;> simp_all [Pos.phase]

theorem At.eq_picked (h : At s p) (hp : s.phase = .picked) (ht : s.hand = some t) :
    p = .picked t := by
  have := h.phase
  have := h.hand
  cases p <;> simp_all [Pos.phase, Pos.hand]

theorem At.eq_activated (h : At s p) (hp : s.phase = .activated) (ht : s.hand = some t) :
    p = .activated t := by
  have := h.phase
  have := h.hand
  cases p <;> simp_all [Pos.phase, Pos.hand]

theorem At.eq_published (h : At s p) (hp : s.phase = .published) (ht : s.current = some t) :
    p = .published t := by
  have := h.phase
  have := h.current
  cases p <;> simp_all [Pos.phase, Pos.current]

theorem At.eq_wait (h : At s p) (hp : s.phase = .wait) : p = .wait := by
  have := h.phase
  cases p <;> simp_all [Pos.phase]

theorem At.eq_leaving (h : At s p) (hp : s.phase = .leaving) (ht : s.hand = some t) :
    p = .leaving t := by
  have := h.phase
  have := h.hand
  cases p <;> simp_all [Pos.phase, Pos.hand]

theorem At.eq_handed (h : At s p) (hp : s.phase = .handed) : ∃ t, p = .handed t := by
  have := h.phase
  cases p <;> simp_all [Pos.phase]

theorem At.task (h : At s p) (hx : s.Executes t) : p = .task t := by
  have hphase := h.phase
  have hcurrent := h.current
  rw [hx.phase] at hphase
  rw [hx.current] at hcurrent
  cases p <;> simp_all [Pos.phase, Pos.current]

end

/-! ## The invariant -/

/-- Where the scheduler has a task. -/
inductive Place where
  | nowhere
  | queued
  | seated
  /-- `v` has still to push it. -/
  | woken (v : Nat)
  | parked
deriving DecidableEq

/-- Everything a record refers to is there. -/
structure Task.Refers (s : World) (t : Nat) (r : Task) : Prop where
  locals : ∀ u ∈ r.locals, s.status u = .live
  children : ∀ u ∈ r.children, s.status u = .live
  self : r.resched = true ∨ r.killed = true → s.status t = .live
  /-- `WaitQueue::wait` refers to its caller. -/
  asleep : r.state = .blocked → t ∈ r.locals

structure Records (s : World) : Prop where
  ok : ∀ t, (s.tasks t).Ok
  refers : ∀ t, (s.tasks t).Refers s t
  waiting : ∀ t ∈ s.waiting, s.status t = .live
  absent : ∀ t, s.status t = .absent → s.tasks t = .new false none none

/-- The state of a task where it is. -/
def Stands (p : Pos) (r : Task) : Place → Prop
  | .nowhere => True
  | .queued | .woken _ => r.state = .ready
  | .seated => p.Fits r.state
  | .parked => r.state = .blocked ∨ r.state = .zombie

structure Slots (s : World) (p : Pos) (place : Nat → Place) : Prop where
  pos : At s p
  known : ∀ t, s.status t = .live ↔ place t ≠ .nowhere
  queue : ∀ t, s.queue.count t = if place t = .queued then 1 else 0
  seat : ∀ t, p.seat = some t ↔ place t = .seated
  waking : ∀ v t, (s.tasks v).waking = some t ↔ place t = .woken v
  stands : ∀ t, Stands p (s.tasks t) (place t)

section
variable {s s' : World} {p p' : Pos} {t u : Nat} {r : Task} {place : Nat → Place} {q : Place}

/-- One task goes to another place. -/
structure Moves (s s' : World) (p p' : Pos) (place : Nat → Place) (t : Nat) (q : Place) :
    Prop where
  pos : At s' p'
  known : ∀ u, s'.status u = .live ↔ if u = t then q ≠ .nowhere else s.status u = .live
  queue : ∀ u, s'.queue.count u = if u = t then if q = .queued then 1 else 0 else s.queue.count u
  seat : ∀ u, p'.seat = some u ↔ if u = t then q = .seated else p.seat = some u
  waking : ∀ v u, (s'.tasks v).waking = some u ↔
    if u = t then q = .woken v else (s.tasks v).waking = some u
  stands : Stands p' (s'.tasks t) q
  others : ∀ u, u ≠ t → Stands p (s.tasks u) (place u) → Stands p' (s'.tasks u) (place u)

theorem Slots.move (inv : Slots s p place) (m : Moves s s' p p' place t q) :
    Slots s' p' (Function.update place t q) := by
  have hplace : ∀ u, Function.update place t q u = if u = t then q else place u :=
    fun u => Function.update_apply place t q u
  refine ⟨m.pos, ?_, ?_, ?_, ?_, ?_⟩
  · intro u
    rw [m.known, hplace]
    split
    · rfl
    · exact inv.known u
  · intro u
    rw [m.queue, hplace]
    split
    · rfl
    · exact inv.queue u
  · intro u
    rw [m.seat, hplace]
    split
    · rfl
    · exact inv.seat u
  · intro v u
    rw [m.waking, hplace]
    split
    · rfl
    · exact inv.waking v u
  · intro u
    rw [hplace]
    split
    · rename_i hu
      rw [hu]
      exact m.stands
    · rename_i hu
      exact m.others u hu (inv.stands u)

/-- No task goes anywhere. -/
theorem Slots.stay (inv : Slots s p place) (pos : At s' p') (hstatus : s'.status = s.status)
    (hqueue : s'.queue = s.queue) (hseat : p'.seat = p.seat)
    (hwaking : ∀ v, (s'.tasks v).waking = (s.tasks v).waking)
    (stands : ∀ u, Stands p (s.tasks u) (place u) → Stands p' (s'.tasks u) (place u)) :
    Slots s' p' place where
  pos := pos
  known := by rw [hstatus]; exact inv.known
  queue := by rw [hqueue]; exact inv.queue
  seat := by rw [hseat]; exact inv.seat
  waking v := by rw [hwaking]; exact inv.waking v
  stands u := stands u (inv.stands u)

theorem Slots.mem_queue (inv : Slots s p place) : t ∈ s.queue ↔ place t = .queued := by
  rw [← List.count_pos_iff, inv.queue]
  by_cases h : place t = .queued
  · rw [if_pos h]
    exact ⟨fun _ => h, fun _ => Nat.one_pos⟩
  · rw [if_neg h]
    exact ⟨fun hn => absurd hn (Nat.lt_irrefl 0), fun hq => absurd hq h⟩

/-- What holds a task that has not exited. -/
theorem Slots.held_of_place (inv : Slots s p place) (rec : Records s) (hlive : s.status t = .live)
    (h : (s.tasks t).stage ≠ .dead) : s.Held t := by
  have hstands := inv.stands t
  cases hplace : place t with
  | nowhere => exact absurd hplace ((inv.known t).mp hlive)
  | queued => exact .inl (inv.mem_queue.mpr hplace)
  | seated => exact inv.pos.seat_held ((inv.seat t).mpr hplace)
  | woken v =>
    have := ((rec.ok v).waking t ((inv.waking v t).mpr hplace)).2
    exact .inr (.inr (.inr (.inr (.inr (.inr (.inr ⟨v, .inl this⟩))))))
  | parked =>
    rw [hplace] at hstands
    rcases hstands with hb | hz
    · have := (rec.refers t).asleep hb
      exact .inr (.inr (.inr (.inr (.inr (.inr (.inr ⟨t, .inl this⟩))))))
    · exact absurd ((rec.ok t).zombie.mp hz) h

theorem Slots.seat_live (inv : Slots s p place) (h : p.seat = some t) : s.status t = .live := by
  rw [inv.known, (inv.seat t).mp h]
  exact Place.noConfusion

/-- References lead to tasks that are there. -/
theorem Slots.held_live (inv : Slots s p place) (rec : Records s) (h : s.Held t) :
    s.status t = .live := by
  rcases h with h | h | h | h | h | h | h | ⟨v, h | h⟩
  · rw [inv.known, inv.mem_queue.mp h]
    exact Place.noConfusion
  · exact rec.waiting t h
  · rw [inv.pos.current] at h
    exact inv.seat_live (by cases p <;> simp_all [Pos.current, Pos.seat])
  · rw [inv.pos.previous] at h
    exact inv.seat_live (by cases p <;> simp_all [Pos.previous, Pos.seat])
  · rw [inv.pos.hand] at h
    exact inv.seat_live (by cases p <;> simp_all [Pos.hand, Pos.seat])
  · exact (rec.refers t).self (.inl h)
  · exact (rec.refers t).self (.inr h)
  · exact (rec.refers v).locals t h
  · exact (rec.refers v).children t h

theorem Slots.runs (inv : Slots s p place) (hx : s.Executes t) :
    p = .task t ∧ place t = .seated ∧ (s.tasks t).state = .running ∧ s.status t = .live := by
  have hp := inv.pos.task hx
  have hseat : p.seat = some t := by
    rw [hp]
    rfl
  have hplace := (inv.seat t).mp hseat
  have hstands := inv.stands t
  rw [hplace, hp] at hstands
  exact ⟨hp, hplace, hstands, inv.seat_live hseat⟩

theorem Records.boot : Records .boot where
  ok _ := Task.Ok.new_kernel
  refers _ := ⟨by simp [World.boot, Task.new], by simp [World.boot, Task.new],
    by simp [World.boot, Task.new], by simp [World.boot, Task.new]⟩
  waiting := by simp [World.boot]
  absent _ _ := rfl

theorem Slots.boot : Slots .boot .boot fun _ => .nowhere where
  pos := ⟨rfl, rfl, rfl, rfl, rfl⟩
  known _ := by simp [World.boot]
  queue _ := by simp [World.boot]
  seat _ := by simp [Pos.seat]
  waking _ _ := by simp [World.boot, Task.new]
  stands _ := trivial

/-- The record of one task changes. -/
theorem Records.put (rec : Records s) (hlive : s.status t = .live) (ok : r.Ok)
    (refers : r.Refers s t) (htasks : s'.tasks = Function.update s.tasks t r)
    (hstatus : s'.status = s.status)
    (hwaiting : ∀ u ∈ s'.waiting, u ∈ s.waiting ∨ s.status u = .live) : Records s' := by
  have kept : ∀ {v : Nat} {x : Task}, x.Refers s v → x.Refers s' v := by
    intro v x hx
    exact ⟨by rw [hstatus]; exact hx.locals, by rw [hstatus]; exact hx.children,
      by rw [hstatus]; exact hx.self, hx.asleep⟩
  refine ⟨?_, ?_, ?_, ?_⟩
  · intro u
    rw [htasks, Function.update_apply]
    split
    · exact ok
    · exact rec.ok u
  · intro u
    rw [htasks, Function.update_apply]
    split
    · rename_i hu
      rw [hu]
      exact kept refers
    · exact kept (rec.refers u)
  · intro u hu
    rw [hstatus]
    rcases hwaiting u hu with h | h
    · exact rec.waiting u h
    · exact h
  · intro u hu
    rw [hstatus] at hu
    have hne : u ≠ t := by
      intro heq
      rw [heq, hlive] at hu
      cases hu
    rw [htasks, Function.update_of_ne hne]
    exact rec.absent u hu

/-- A new task refers to nothing. -/
theorem Records.arrive (rec : Records s) {isUser : Bool} {space frame : Option Nat}
    (ok : (Task.new isUser space frame).Ok)
    (htasks : s'.tasks = Function.update s.tasks u (.new isUser space frame))
    (hstatus : s'.status = Function.update s.status u .live) (hwaiting : s'.waiting = s.waiting) :
    Records s' := by
  have mono : ∀ v, s.status v = .live → s'.status v = .live := by
    intro v hv
    rw [hstatus, Function.update_apply]
    split
    · rfl
    · exact hv
  refine ⟨?_, ?_, ?_, ?_⟩
  · intro v
    rw [htasks, Function.update_apply]
    split
    · exact ok
    · exact rec.ok v
  · intro v
    rw [htasks, Function.update_apply]
    split
    · exact ⟨by simp [Task.new], by simp [Task.new], by simp [Task.new], by simp [Task.new]⟩
    · have := rec.refers v
      exact ⟨fun w hw => mono w (this.locals w hw), fun w hw => mono w (this.children w hw),
        fun h => mono v (this.self h), this.asleep⟩
  · intro v hv
    rw [hwaiting] at hv
    exact mono v (rec.waiting v hv)
  · intro v hv
    have hne : v ≠ u := by
      intro heq
      rw [heq, hstatus, Function.update_self] at hv
      cases hv
    rw [hstatus, Function.update_of_ne hne] at hv
    rw [htasks, Function.update_of_ne hne]
    exact rec.absent v hv

/-! ## Steps -/

/-- A step of the idle loop or of a switch, within the three variables. -/
theorem Slots.pass (inv : Slots s p place) (pos : At s' p') (hstatus : s'.status = s.status)
    (hqueue : s'.queue = s.queue) (htasks : s'.tasks = s.tasks) (hseat : p'.seat = p.seat)
    (fits : ∀ st, p.Fits st → p'.Fits st) : Slots s' p' place := by
  refine inv.stay pos hstatus hqueue hseat (fun v => by rw [htasks]) ?_
  intro u hu
  rw [htasks]
  cases hplace : place u with
  | seated =>
    rw [hplace] at hu
    exact fits _ hu
  | nowhere => exact trivial
  | queued =>
    rw [hplace] at hu
    exact hu
  | woken v =>
    rw [hplace] at hu
    exact hu
  | parked =>
    rw [hplace] at hu
    exact hu

/-- Only the seated task's standing depends on the position. -/
theorem Stands.elsewhere {x : Place} (h : Stands p r x) (hx : x ≠ .seated) : Stands p' r x := by
  cases x with
  | seated => exact absurd rfl hx
  | nowhere => exact trivial
  | queued => exact h
  | woken v => exact h
  | parked => exact h

theorem Slots.unseated (inv : Slots s p place) (ht : place t = .seated) (h : u ≠ t) :
    place u ≠ .seated := by
  intro hu
  have hseat := (inv.seat t).mpr ht
  rw [(inv.seat u).mpr hu] at hseat
  exact h (Option.some.inj hseat)

/-- A record changes, but for its state and what it is waking. -/
theorem Slots.edit (inv : Slots s p place) (pos : At s' p) (hstatus : s'.status = s.status)
    (hqueue : s'.queue = s.queue) (htasks : s'.tasks = Function.update s.tasks t r)
    (hstate : r.state = (s.tasks t).state) (hwaking : r.waking = (s.tasks t).waking) :
    Slots s' p place := by
  refine inv.stay pos hstatus hqueue rfl ?_ ?_
  · intro v
    rw [htasks, Function.update_apply]
    split
    · rename_i hv
      rw [hwaking, hv]
    · rfl
  · intro u hu
    rw [htasks, Function.update_apply]
    split
    · rename_i heq
      unfold Stands at hu ⊢
      rw [hstate, ← heq]
      exact hu
    · exact hu

end

end AlexOS.Lifetime
