import AlexOS.Task.LifetimeSlots

/-!
# Every step keeps the scheduler's places

Each step moves one task from one place to the next, or only changes a record. The references
that code on a kernel stack gains are to tasks that are there.
-/

namespace AlexOS.Lifetime

open World

section
variable {s s' : World} {p p' : Pos} {t u : Nat} {r : Task} {place : Nat → Place} {q : Place}

/-! ## What a move leaves alone -/

theorem Slots.known_kept (inv : Slots s p place) (hstatus : s'.status = s.status)
    (hplace : place t ≠ .nowhere) (hq : q ≠ .nowhere) (u : Nat) :
    s'.status u = .live ↔ if u = t then q ≠ .nowhere else s.status u = .live := by
  rw [hstatus]
  split
  · rename_i hu
    simp [hu, hq, (inv.known t).mpr hplace]
  · rfl

theorem Slots.count_zero (inv : Slots s p place) (hplace : place t ≠ .queued) :
    s.queue.count t = 0 := by
  rw [inv.queue, if_neg hplace]

theorem Slots.queue_kept (inv : Slots s p place) (hqueue : s'.queue = s.queue)
    (hplace : place t ≠ .queued) (hq : q ≠ .queued) (u : Nat) :
    s'.queue.count u = if u = t then if q = .queued then 1 else 0 else s.queue.count u := by
  rw [hqueue]
  split
  · rename_i hu
    rw [hu, inv.count_zero hplace]
  · rfl

theorem Slots.queue_pushed {queue : List Nat} (inv : Slots s p place)
    (hqueue : queue = s.queue ++ [t]) (hplace : place t ≠ .queued) (u : Nat) : queue.count u =
      if u = t then if Place.queued = .queued then 1 else 0 else s.queue.count u := by
  rw [hqueue]
  split
  · rename_i hu
    simp [hu, inv.count_zero hplace]
  · rename_i hu
    simp [Ne.symm hu]

theorem Slots.seat_kept (inv : Slots s p place) (hplace : place t ≠ .seated) (hq : q ≠ .seated)
    (u : Nat) : p.seat = some u ↔ if u = t then q = .seated else p.seat = some u := by
  split
  · rename_i hu
    simp [hu, hq, inv.seat, hplace]
  · rfl

theorem Slots.waking_kept (inv : Slots s p place)
    (hwaking : ∀ v, (s'.tasks v).waking = (s.tasks v).waking) (hplace : ∀ v, place t ≠ .woken v)
    (hq : ∀ v, q ≠ .woken v) (v u : Nat) : (s'.tasks v).waking = some u ↔
      if u = t then q = .woken v else (s.tasks v).waking = some u := by
  rw [hwaking]
  split
  · rename_i hu
    simp [hu, hq, inv.waking, hplace]
  · rfl

theorem waking_update (htasks : s'.tasks = Function.update s.tasks t r)
    (h : r.waking = (s.tasks t).waking) (v : Nat) :
    (s'.tasks v).waking = (s.tasks v).waking := by
  rw [htasks, Function.update_apply]
  split
  · rename_i hv
    rw [h, hv]
  · rfl

theorem Slots.parked (inv : Slots s p place) (hlive : s.status u = .live)
    (hst : (s.tasks u).state = .blocked) (hplace : place u ≠ .seated) : place u = .parked := by
  have hstands := inv.stands u
  cases h : place u with
  | parked => rfl
  | nowhere => exact absurd h ((inv.known u).mp hlive)
  | seated => exact absurd h hplace
  | queued =>
    rw [h] at hstands
    exact absurd (hst.symm.trans hstands) (by decide)
  | woken v =>
    rw [h] at hstands
    exact absurd (hst.symm.trans hstands) (by decide)

/-! ## The moves -/

/-- The task taken from `cpu.previous` is let go. -/
theorem Slots.letGo {queue : List Nat} (inv : Slots s (.took t) place) (hq : q ≠ .nowhere)
    (hseated : q ≠ .seated) (hwoken : ∀ v, q ≠ .woken v) (hqueue : ∀ u, queue.count u =
      if u = t then if q = .queued then 1 else 0 else s.queue.count u)
    (hst : Stands .pick (s.tasks t) q) :
    Slots { s with phase := .pick, hand := none, queue := queue } .pick
      (Function.update place t q) := by
  have hplace : place t = .seated := (inv.seat t).mp rfl
  refine inv.move ⟨⟨rfl, inv.pos.current, inv.pos.previous, rfl, inv.pos.on⟩,
    inv.known_kept rfl (by simp [hplace]) hq, hqueue, ?_,
    inv.waking_kept (fun _ => rfl) (by simp [hplace]) hwoken, hst, ?_⟩
  · intro u
    by_cases hu : u = t
    · simp [hu, Pos.seat, hseated]
    · simp [hu, Pos.seat, Ne.symm hu]
  · intro u hu hstands
    exact hstands.elsewhere (inv.unseated hplace hu)

theorem Slots.requeue (inv : Slots s (.took t) place) (hst : (s.tasks t).state = .ready) :
    Slots { s with phase := .pick, hand := none, queue := s.queue ++ [t] } .pick
      (Function.update place t .queued) :=
  inv.letGo nofun nofun nofun (inv.queue_pushed rfl (by simp [(inv.seat t).mp rfl])) hst

theorem Slots.release (inv : Slots s (.took t) place)
    (hst : (s.tasks t).state = .blocked ∨ (s.tasks t).state = .zombie) :
    Slots { s with phase := .pick, hand := none } .pick (Function.update place t .parked) :=
  inv.letGo nofun nofun nofun (inv.queue_kept rfl (by simp [(inv.seat t).mp rfl]) nofun) hst

theorem Slots.pick (inv : Slots s .pick place) (ht : t ∈ s.queue) :
    Slots { s with phase := .picked, hand := some t, queue := s.queue.erase t } (.picked t)
      (Function.update place t .seated) := by
  have hplace : place t = .queued := inv.mem_queue.mp ht
  have hcount : s.queue.count t = 1 := by rw [inv.queue, if_pos hplace]
  have hstands := inv.stands t
  rw [hplace] at hstands
  refine inv.move ⟨⟨rfl, inv.pos.current, inv.pos.previous, rfl, inv.pos.on⟩,
    inv.known_kept rfl (by simp [hplace]) nofun, ?_, ?_,
    inv.waking_kept (fun _ => rfl) (by simp [hplace]) nofun, hstands, ?_⟩
  · intro u
    by_cases hu : u = t
    · simp [hu, List.count_erase_self, hcount]
    · simp [hu, List.count_erase_of_ne hu]
  · intro u
    by_cases hu : u = t
    · simp [hu, Pos.seat]
    · simp [hu, Pos.seat, Ne.symm hu]
  · intro u hu hstands
    refine hstands.elsewhere ?_
    intro hseat
    exact absurd ((inv.seat u).mpr hseat) (by simp [Pos.seat])

/-- The task in the three variables changes its state as the hart moves on. -/
theorem Slots.settle (inv : Slots s p place) (hp : p.seat = some t) (hp' : p'.seat = some t)
    (pos : At s' p') (hstatus : s'.status = s.status) (hqueue : s'.queue = s.queue)
    (htasks : s'.tasks = Function.update s.tasks t r) (hwaking : r.waking = (s.tasks t).waking)
    (fits : p'.Fits r.state) : Slots s' p' place := by
  have hplace := (inv.seat t).mp hp
  refine inv.stay pos hstatus hqueue (hp'.trans hp.symm) (waking_update htasks hwaking) ?_
  intro u hu
  rw [htasks, Function.update_apply]
  split
  · rename_i heq
    rw [heq, hplace]
    exact fits
  · rename_i hne
    exact hu.elsewhere (inv.unseated hplace hne)

/-- A task that nothing has yet goes on the run queue. -/
theorem Slots.arrive (inv : Slots s p place) (rec : Records s) (habsent : s.status u = .absent)
    {isUser : Bool} {space frame : Option Nat} (pos : At s' p)
    (htasks : s'.tasks = Function.update s.tasks u (.new isUser space frame))
    (hqueue : s'.queue = s.queue ++ [u])
    (hstatus : s'.status = Function.update s.status u .live) :
    Slots s' p (Function.update place u .queued) := by
  have hplace : place u = .nowhere := by
    by_contra h
    rw [← ne_eq, ← inv.known, habsent] at h
    cases h
  have hnew : (Task.new isUser space frame).waking = (s.tasks u).waking := by
    rw [rec.absent u habsent]
    rfl
  refine inv.move ⟨pos, ?_, inv.queue_pushed hqueue (by simp [hplace]),
    inv.seat_kept (by simp [hplace]) nofun,
    inv.waking_kept (waking_update htasks hnew) (by simp [hplace]) nofun, ?_, ?_⟩
  · intro v
    by_cases hv : v = u
    · simp [hv, hstatus]
    · simp [hv, hstatus]
  · rw [htasks, Function.update_self]
    exact rfl
  · intro v hv hstands
    rw [htasks, Function.update_of_ne hv]
    exact hstands

/-- A blocked task is woken by the running one. -/
theorem Slots.wake (inv : Slots s p place) (hx : s.Executes t) (hnone : (s.tasks t).waking = none)
    (hlive : s.status u = .live) (hst : (s.tasks u).state = .blocked) (pos : At s' p)
    (htasks : ∀ v, s'.tasks v = if v = u then { s.tasks u with state := .ready }
      else if v = t then { s.tasks t with waking := some u } else s.tasks v)
    (hstatus : s'.status = s.status) (hqueue : s'.queue = s.queue) :
    Slots s' p (Function.update place u (.woken t)) := by
  obtain ⟨hp, hseated, hrun, _⟩ := inv.runs hx
  have hne : u ≠ t := by
    intro heq
    rw [heq, hrun] at hst
    cases hst
  have hplace := inv.parked hlive hst (inv.unseated hseated hne)
  have hnotu : ∀ x, (s.tasks x).waking ≠ some u := by
    intro x h
    rw [inv.waking, hplace] at h
    cases h
  refine inv.move ⟨pos, inv.known_kept hstatus (by simp [hplace]) nofun,
    inv.queue_kept hqueue (by simp [hplace]) nofun, inv.seat_kept (by simp [hplace]) nofun,
    ?_, ?_, ?_⟩
  · intro v w
    rw [htasks]
    by_cases hv : v = u
    · subst hv
      simp only [↓reduceIte]
      by_cases hw : w = v
      · simp [hw, hnotu, Ne.symm hne]
      · simp [hw]
    · by_cases hvt : v = t
      · subst hvt
        simp only [hv, ↓reduceIte]
        by_cases hw : w = u
        · simp [hw]
        · simp [hw, hnone, Ne.symm hw]
      · simp only [hv, hvt, ↓reduceIte]
        by_cases hw : w = u
        · simp [hw, hnotu, Ne.symm hvt]
        · simp [hw]
  · rw [htasks, if_pos rfl]
    exact rfl
  · intro v hv hstands
    rw [htasks, if_neg hv]
    split
    · rename_i hvt
      rw [hvt, hseated] at hstands ⊢
      exact hstands
    · exact hstands

/-- The task that the running one has woken goes on the run queue. -/
theorem Slots.push (inv : Slots s p place) (hw : (s.tasks t).waking = some u) (pos : At s' p)
    (htasks : s'.tasks = Function.update s.tasks t { s.tasks t with waking := none })
    (hstatus : s'.status = s.status) (hqueue : s'.queue = s.queue ++ [u]) :
    Slots s' p (Function.update place u .queued) := by
  have hplace := (inv.waking t u).mp hw
  have hstands := inv.stands u
  rw [hplace] at hstands
  have state_eq : ∀ v, (s'.tasks v).state = (s.tasks v).state := by
    intro v
    rw [htasks, Function.update_apply]
    split
    · rename_i hv
      rw [hv]
    · rfl
  refine inv.move ⟨pos, inv.known_kept hstatus (by simp [hplace]) nofun,
    inv.queue_pushed hqueue (by simp [hplace]), inv.seat_kept (by simp [hplace]) nofun, ?_,
    (state_eq u).trans hstands, ?_⟩
  · intro v w
    rw [htasks, Function.update_apply]
    by_cases hwu : w = u
    · subst hwu
      by_cases hv : v = t
      · simp [hv]
      · simp only [hv, ↓reduceIte, inv.waking, hplace]
        simp [Ne.symm hv]
    · by_cases hv : v = t
      · simp [hv, hwu, hw, Ne.symm hwu]
      · simp [hv, hwu]
  · intro v hv hstands
    rw [htasks, Function.update_apply]
    split
    · rename_i heq
      rw [heq] at hstands ⊢
      exact hstands
    · exact hstands

/-- An interrupt handler wakes a blocked task. -/
theorem Slots.wakeNow (inv : Slots s p place) (hlive : s.status u = .live)
    (hst : (s.tasks u).state = .blocked) (hseat : p.seat ≠ some u) (pos : At s' p)
    (htasks : s'.tasks = Function.update s.tasks u { s.tasks u with state := .ready })
    (hstatus : s'.status = s.status) (hqueue : s'.queue = s.queue ++ [u]) :
    Slots s' p (Function.update place u .queued) := by
  have hplace := inv.parked hlive hst fun h => hseat ((inv.seat u).mpr h)
  refine inv.move ⟨pos, inv.known_kept hstatus (by simp [hplace]) nofun,
    inv.queue_pushed hqueue (by simp [hplace]), inv.seat_kept (by simp [hplace]) nofun,
    inv.waking_kept (waking_update htasks rfl) (by simp [hplace]) nofun, ?_, ?_⟩
  · rw [htasks, Function.update_self]
    exact rfl
  · intro v hv hstands
    rw [htasks, Function.update_of_ne hv]
    exact hstands

/-- An exited task is freed. -/
theorem Slots.collect (inv : Slots s p place) (rec : Records s) (hheld : ¬ s.Held t) :
    Slots (s.collect t) p (Function.update place t .nowhere) := by
  have hqueued : place t ≠ .queued := fun h => hheld (.inl (inv.mem_queue.mpr h))
  have hseated : place t ≠ .seated := fun h => hheld (inv.pos.seat_held ((inv.seat t).mpr h))
  have hwoken : ∀ v, place t ≠ .woken v := by
    intro v hv
    have := ((rec.ok v).waking t ((inv.waking v t).mpr hv)).2
    exact hheld (.inr (.inr (.inr (.inr (.inr (.inr (.inr ⟨v, .inl this⟩)))))))
  refine inv.move ⟨⟨inv.pos.phase, inv.pos.current, inv.pos.previous, inv.pos.hand, inv.pos.on⟩,
    ?_, inv.queue_kept rfl hqueued nofun, inv.seat_kept hseated nofun,
    inv.waking_kept (waking_update rfl rfl) hwoken nofun, trivial, ?_⟩
  · intro v
    show Function.update s.status t .dropped v = .live ↔ _
    by_cases hv : v = t
    · simp [hv]
    · simp [hv]
  · intro v hv hstands
    show Stands p (Function.update s.tasks t (s.tasks t).gone v) _
    rw [Function.update_of_ne hv]
    exact hstands

/-! ## All of them -/

theorem World.Turn.keeps {r r' : Task} (h : Turn s t r r') :
    r'.state = r.state ∧ r'.waking = r.waking := by
  cases h <;> exact ⟨rfl, rfl⟩

/-- A record that is not asleep may hold other references. -/
theorem Task.Refers.hold (old : r.Refers s t) (hstate : r.state = .running) {ls cs : List Nat}
    (hls : ∀ u ∈ ls, u ∈ r.locals ∨ s.status u = .live)
    (hcs : ∀ u ∈ cs, u ∈ r.children ∨ s.status u = .live) :
    { r with locals := ls, children := cs }.Refers s t where
  locals u hu := (hls u hu).elim (old.locals u) id
  children u hu := (hcs u hu).elim (old.children u) id
  self := old.self
  asleep hb := by
    have : r.state = .blocked := hb
    rw [hstate] at this
    cases this

theorem mem_append_live {ls : List Nat} (hu : s.status u = .live) :
    ∀ v ∈ ls ++ [u], v ∈ ls ∨ s.status v = .live := by
  intro v hv
  rcases List.mem_append.mp hv with hv | hv
  · exact .inl hv
  · rw [List.mem_singleton.mp hv]
    exact .inr hu

theorem World.Turn.refers {r r' : Task} (h : Turn s t r r') (old : r.Refers s t)
    (hlive : s.status t = .live) (hstate : r.state = .running) : r'.Refers s t := by
  cases h with
  | fault _ => exact ⟨old.locals, old.children, fun _ => hlive, old.asleep⟩
  | clone _ hu => exact old.hold hstate (mem_append_live hu) fun _ h => .inl h
  | drop _ hu => exact old.hold hstate (fun _ h => .inl (List.mem_of_mem_erase h)) fun _ h => .inl h
  | reap _ hu _ =>
    exact old.hold hstate (mem_append_live (old.children _ hu))
      fun _ h => .inl (List.mem_of_mem_erase h)
  | _ => exact ⟨old.locals, old.children, old.self, old.asleep⟩

theorem World.Leaves.keeps {r r' : Task} (h : Leaves t r r') :
    r'.waking = r.waking ∧ r'.state ≠ .running := by
  cases h <;> simp

theorem World.Leaves.refers {r r' : Task} (h : Leaves t r r') (old : r.Refers s t) :
    r'.Refers s t := by
  cases h with
  | block _ ht _ => exact ⟨old.locals, old.children, old.self, fun _ => ht⟩
  | _ => exact ⟨old.locals, old.children, old.self, fun hb => by cases hb⟩

theorem Records.same (rec : Records s) (htasks : s'.tasks = s.tasks)
    (hstatus : s'.status = s.status)
    (hwaiting : ∀ u ∈ s'.waiting, u ∈ s.waiting ∨ s.status u = .live) : Records s' := by
  refine ⟨by rw [htasks]; exact rec.ok, ?_, ?_, by rw [htasks, hstatus]; exact rec.absent⟩
  · intro u
    rw [htasks]
    have old := rec.refers u
    exact ⟨by rw [hstatus]; exact old.locals, by rw [hstatus]; exact old.children,
      by rw [hstatus]; exact old.self, old.asleep⟩
  · intro u hu
    rw [hstatus]
    exact (hwaiting u hu).elim (rec.waiting u) id

/-- The running task's record changes, but for its state. -/
theorem Records.edit (rec : Records s) (inv : Slots s p place) (hx : s.Executes t) (ok : r.Ok)
    (refers : r.Refers s t) (htasks : s'.tasks = Function.update s.tasks t r)
    (hstatus : s'.status = s.status) (hwaiting : s'.waiting = s.waiting) : Records s' :=
  rec.put (inv.runs hx).2.2.2 ok refers htasks hstatus fun _ hu => .inl (hwaiting ▸ hu)

theorem Records.wakeNow (rec : Records s) (hu : u ∈ s.waiting) : Records (s.wakeNow u) := by
  have hlive := rec.waiting u hu
  have old := rec.refers u
  unfold World.wakeNow
  split
  · rename_i hst
    refine rec.put hlive ((rec.ok u).setState (by rw [hst]; decide) (by decide)) ?_ rfl rfl
      fun v hv => .inl (List.mem_of_mem_erase hv)
    exact ⟨old.locals, old.children, old.self, fun hb => by cases hb⟩
  · refine rec.put hlive ?_ ?_ rfl rfl fun v hv => .inl (List.mem_of_mem_erase hv)
    · obtain ⟨frame, user, fresh, bare, spaceless, zombie, dead, killed, waking⟩ := rec.ok u
      exact ⟨frame, user, fresh, bare, spaceless, zombie, dead, killed, waking⟩
    · exact ⟨old.locals, old.children, old.self, old.asleep⟩

/-- What the steps that also touch spaces, frames or control registers do to a record. -/
inductive Advance : Task → Task → Prop where
  | enterUser {r : Task} : r.stage = .entry ∨ r.stage = .leave → Advance r { r with stage := .user }
  | userTrap {r : Task} {f : Nat} : r.stage = .user → Advance r { r with stage := .trapped f }
  | prepare {r : Task} {f sp : Nat} : r.stage = .body (some f) →
      Advance r { r with stage := .prepared f sp }
  | abort {r : Task} {f sp : Nat} : r.stage = .prepared f sp →
      Advance r { r with stage := .body (some f) }
  | swap {r : Task} {f sp old fr : Nat} : r.stage = .prepared f sp →
      Advance r { r with space := some sp, frame := some fr, stage := .swapped f old }
  | dropOld {r : Task} {f old : Nat} : r.stage = .swapped f old →
      Advance r { r with stage := .replaced f }
  | detach {r : Task} {sp : Nat} : r.stage = .taken sp → Advance r { r with stage := .detached sp }
  | dropSpace {r : Task} {sp : Nat} : r.stage = .detached sp →
      Advance r { r with stage := .notify }

theorem Advance.keeps {r r' : Task} (h : Advance r r') :
    r'.state = r.state ∧ r'.waking = r.waking := by
  cases h <;> exact ⟨rfl, rfl⟩

theorem Advance.refers {r r' : Task} (h : Advance r r') (old : r.Refers s t) : r'.Refers s t := by
  cases h <;> exact ⟨old.locals, old.children, old.self, old.asleep⟩

theorem Advance.ok {r r' : Task} (h : Advance r r') (ok : r.Ok) (hstate : r.state = .running)
    (hw : r.waking = none) : r'.Ok := by
  obtain ⟨frame, user, fresh, bare, spaceless, zombie, dead, killed, waking⟩ := ok
  cases h with
  | enterUser hstage =>
    rcases hstage with hstage | hstage <;> constructor <;>
      simp_all [Stage.forUser, Stage.bare, Stage.ending]
  | _ => constructor <;> simp_all [Stage.forUser, Stage.bare, Stage.ending]

theorem Records.advance (rec : Records s) (inv : Slots s p place) (hx : s.Runs t)
    (h : Advance (s.tasks t) r) (htasks : s'.tasks = Function.update s.tasks t r)
    (hstatus : s'.status = s.status) (hwaiting : s'.waiting = s.waiting) : Records s' :=
  rec.edit inv hx.toExecutes (h.ok (rec.ok t) (inv.runs hx.toExecutes).2.2.1 hx.waking)
    (h.refers (rec.refers t)) htasks hstatus hwaiting

theorem World.Act.records (h : Act s s') (rec : Records s) (inv : Slots s p place) :
    Records s' := by
  cases h with
  | boot _ habsent _ _ => exact rec.arrive (Task.Ok.new_user _ _) rfl rfl rfl
  | bootKernel _ habsent => exact rec.arrive Task.Ok.new_kernel rfl rfl rfl
  | start | take | noPrevious | requeue | release | pick | sleep | rouse | activate | switchIn
  | hand | switchOut => exact rec.same rfl rfl fun _ hu => .inl hu
  | @publish t hphase hhand =>
    have hseat : p.seat = some t := by
      have := inv.pos.phase
      have := inv.pos.hand
      cases p <;> simp_all [Pos.phase, Pos.hand, Pos.seat]
    have hstands := inv.stands t
    rw [(inv.seat t).mp hseat] at hstands
    have hready : (s.tasks t).state = .ready := by
      have := inv.pos.phase
      cases p <;> simp_all [Pos.phase, Stands, Pos.Fits]
    have old := rec.refers t
    exact rec.put (r := { s.tasks t with state := .running }) (inv.seat_live hseat)
      ((rec.ok t).setState (by rw [hready]; decide) (by decide))
      ⟨old.locals, old.children, old.self, fun hb => by cases hb⟩ rfl rfl fun _ hu => .inl hu
  | @leave t r hx hl =>
    exact rec.edit inv hx.toExecutes ((rec.ok t).leaves hx.waking hx.resched hl)
      (Leaves.refers hl (rec.refers t)) rfl rfl rfl
  | @preempt t hx hresched hstage =>
    have old := rec.refers t
    exact rec.edit inv hx ((rec.ok t).preempt hstage)
      ⟨old.locals, old.children, fun _ => (inv.runs hx).2.2.2, fun hb => by cases hb⟩ rfl rfl rfl
  | @resume t hx hresched =>
    have old := rec.refers t
    refine rec.edit (r := { s.tasks t with resched := false }) inv hx ?_
      ⟨old.locals, old.children, fun _ => (inv.runs hx).2.2.2, old.asleep⟩ rfl rfl rfl
    obtain ⟨frame, user, fresh, bare, spaceless, zombie, dead, killed, waking⟩ := rec.ok t
    exact ⟨frame, user, fresh, bare, spaceless, zombie, fun hd => ⟨rfl, (dead hd).2⟩, killed,
      waking⟩
  | @turn t r hx hturn =>
    have hrun := inv.runs hx.toExecutes
    exact rec.edit inv hx.toExecutes ((rec.ok t).turn hx.waking hrun.2.2.1 hturn)
      (hturn.refers (rec.refers t) hrun.2.2.2 hrun.2.2.1) rfl rfl rfl
  | @wake t u hx hfree hu hst =>
    have hrun := inv.runs hx.toExecutes
    have hlive := (rec.refers t).locals u hu
    have first : Records (s.put t { s.tasks t with waking := some u }) := by
      have old := rec.refers t
      refine rec.edit (r := { s.tasks t with waking := some u }) inv hx.toExecutes ?_
        ⟨old.locals, old.children, old.self, old.asleep⟩ rfl rfl rfl
      obtain ⟨frame, user, fresh, bare, spaceless, zombie, dead, killed, waking⟩ := rec.ok t
      refine ⟨frame, user, fresh, bare, spaceless, zombie, ?_, killed, ?_⟩
      · intro hd
        rw [zombie.mpr hd] at hrun
        exact absurd hrun.2.2.1 (by decide)
      · intro v hv
        cases hv
        exact ⟨hfree, hu⟩
    have old := rec.refers u
    exact first.put (r := { s.tasks u with state := .ready }) hlive
      ((rec.ok u).setState (by rw [hst]; decide) (by decide))
      ⟨old.locals, old.children, old.self, fun hb => by cases hb⟩ rfl rfl fun _ hv => .inl hv
  | @push t u hx _ hw =>
    have old := rec.refers t
    refine rec.edit (r := { s.tasks t with waking := none }) inv hx ?_
      ⟨old.locals, old.children, old.self, old.asleep⟩ rfl rfl rfl
    obtain ⟨frame, user, fresh, bare, spaceless, zombie, dead, killed, waking⟩ := rec.ok t
    exact ⟨frame, user, fresh, bare, spaceless, zombie, fun hd => ⟨(dead hd).1, rfl⟩, killed,
      fun v hv => by cases hv⟩
  | @note t u hx hfree hu hst =>
    have old := rec.refers u
    refine rec.put (r := { s.tasks u with wakeupPending := true }) ((rec.refers t).locals u hu) ?_
      ⟨old.locals, old.children, old.self, old.asleep⟩ rfl rfl fun _ hv => .inl hv
    obtain ⟨frame, user, fresh, bare, spaceless, zombie, dead, killed, waking⟩ := rec.ok u
    exact ⟨frame, user, fresh, bare, spaceless, zombie, dead, killed, waking⟩
  | @device u _ hu => exact rec.wakeNow hu
  | @enqueue t hx _ ht =>
    refine rec.same rfl rfl ?_
    exact mem_append_live (inv.runs hx.toExecutes).2.2.2
  | @dequeue t u hx hfree hu =>
    have hrun := inv.runs hx.toExecutes
    exact rec.put hrun.2.2.2 ((rec.ok t).hold hfree hx.waking _ _)
      ((rec.refers t).hold hrun.2.2.1 (mem_append_live (rec.waiting u hu)) fun _ h => .inl h) rfl
      rfl
      fun v hv => .inl (List.mem_of_mem_erase hv)
  | @spawn t u hx hstage habsent =>
    have hrun := inv.runs hx.toExecutes
    have hne : t ≠ u := by
      intro heq
      rw [heq, habsent] at hrun
      exact absurd hrun.2.2.2 (by decide)
    have first : Records (s.admitTask u (.new false none none)) :=
      rec.arrive Task.Ok.new_kernel rfl rfl rfl
    have hu : (s.admitTask u (.new false none none)).status u = .live := Function.update_self _ _ _
    have ht : (s.admitTask u (.new false none none)).status t = .live :=
      (Function.update_of_ne hne _ _).trans hrun.2.2.2
    have old := first.refers t
    rw [show (s.admitTask u (.new false none none)).tasks t = s.tasks t from
      Function.update_of_ne hne _ _] at old
    exact first.put ht ((rec.ok t).hold (by rw [hstage]; rfl) hx.waking _ _)
      (old.hold hrun.2.2.1 (mem_append_live hu) fun _ h => .inl h)
      (Function.update_comm hne _ _ _) rfl fun _ hv => .inl hv
  | @fork t u sp fr f hx hstage habsent hsp hfr =>
    have hrun := inv.runs hx.toExecutes
    have hne : t ≠ u := by
      intro heq
      rw [heq, habsent] at hrun
      exact absurd hrun.2.2.2 (by decide)
    have first : Records (s.admitTask u (.new true (some sp) (some fr))) :=
      rec.arrive (Task.Ok.new_user sp fr) rfl rfl rfl
    have hu : (s.admitTask u (.new true (some sp) (some fr))).status u = .live :=
      Function.update_self _ _ _
    have ht : (s.admitTask u (.new true (some sp) (some fr))).status t = .live :=
      (Function.update_of_ne hne _ _).trans hrun.2.2.2
    have old := first.refers t
    rw [show (s.admitTask u (.new true (some sp) (some fr))).tasks t = s.tasks t from
      Function.update_of_ne hne _ _] at old
    exact first.put ht ((rec.ok t).hold (by rw [hstage]; rfl) hx.waking _ _)
      (old.hold hrun.2.2.1 (fun _ h => .inl h) (mem_append_live hu))
      (Function.update_comm hne _ _ _) rfl fun _ hv => .inl hv
  | @enterUser t fr hx hstage hframe => exact rec.advance inv hx (.enterUser hstage) rfl rfl rfl
  | @userTrap t f hx hstage hscratch => exact rec.advance inv hx (.userTrap hstage) rfl rfl rfl
  | @prepare t f sp hx hstage hsp => exact rec.advance inv hx (.prepare hstage) rfl rfl rfl
  | @abort t f sp hx hstage => exact rec.advance inv hx (.abort hstage) rfl rfl rfl
  | @swap t f sp old fr hx hstage hspace hfr => exact rec.advance inv hx (.swap hstage) rfl rfl rfl
  | @dropOld t f old hx hstage => exact rec.advance inv hx (.dropOld hstage) rfl rfl rfl
  | @detach t sp hx hstage => exact rec.advance inv hx (.detach hstage) rfl rfl rfl
  | @dropSpace t sp hx hstage => exact rec.advance inv hx (.dropSpace hstage) rfl rfl rfl

theorem At.keep (pos : At s p) (hphase : s'.phase = s.phase) (hcurrent : s'.current = s.current)
    (hprevious : s'.previous = s.previous) (hhand : s'.hand = s.hand) (hon : s'.on = s.on) :
    At s' p :=
  ⟨hphase.trans pos.phase, hcurrent.trans pos.current, hprevious.trans pos.previous,
    hhand.trans pos.hand, hon.trans pos.on⟩

theorem Slots.advance (inv : Slots s p place) (h : Advance (s.tasks t) r) (pos : At s' p)
    (htasks : s'.tasks = Function.update s.tasks t r) (hstatus : s'.status = s.status)
    (hqueue : s'.queue = s.queue) : Slots s' p place :=
  inv.edit pos hstatus hqueue htasks h.keeps.1 h.keeps.2

theorem Slots.spawn (inv : Slots s p place) (rec : Records s) (hx : s.Executes t)
    (habsent : s.status u = .absent) {isUser : Bool} {space frame : Option Nat}
    (hstate : r.state = (s.tasks t).state)
    (hwaking : r.waking = (s.tasks t).waking) (pos : At s' p)
    (htasks : s'.tasks =
      Function.update (Function.update s.tasks t r) u (.new isUser space frame))
    (hqueue : s'.queue = s.queue ++ [u]) (hstatus : s'.status = Function.update s.status u .live) :
    Slots s' p (Function.update place u .queued) := by
  have hlive := (inv.runs hx).2.2.2
  have hne : t ≠ u := by
    intro heq
    rw [heq, habsent] at hlive
    cases hlive
  have first : Slots (s.admitTask u (.new isUser space frame)) p
      (Function.update place u .queued) :=
    inv.arrive rec habsent (inv.pos.keep rfl rfl rfl rfl rfl) rfl rfl rfl
  have hold : (s.admitTask u (.new isUser space frame)).tasks t = s.tasks t :=
    Function.update_of_ne hne _ _
  refine first.edit (r := r) (t := t) pos hstatus hqueue ?_ ?_ ?_
  · rw [htasks, Function.update_comm hne]
    rfl
  · rw [hold, hstate]
  · rw [hold, hwaking]

theorem World.Act.slots (h : Act s s') (rec : Records s) (inv : Slots s p place) :
    ∃ p' place', Slots s' p' place' := by
  have pos := inv.pos
  cases h with
  | @boot t sp fr h habsent _ _ =>
    exact ⟨_, _, inv.arrive rec habsent (pos.keep rfl rfl rfl rfl rfl) rfl rfl rfl⟩
  | bootKernel _ habsent =>
    exact ⟨_, _, inv.arrive rec habsent (pos.keep rfl rfl rfl rfl rfl) rfl rfl rfl⟩
  | start h =>
    obtain rfl := pos.eq_boot h
    exact ⟨.top none, place, inv.pass ⟨rfl, pos.current, pos.previous, pos.hand, pos.on⟩ rfl rfl rfl
      rfl fun _ hst => hst⟩
  | @take t h hprev =>
    obtain rfl := pos.eq_top h
    exact ⟨.took t, place, inv.pass ⟨rfl, pos.current, rfl, rfl, pos.on⟩ rfl rfl rfl
      hprev.symm fun _ hst => hst⟩
  | noPrevious h hprev =>
    obtain rfl := pos.eq_top h
    exact ⟨.pick, place, inv.pass ⟨rfl, pos.current, hprev, pos.hand, pos.on⟩ rfl rfl rfl
      hprev.symm fun _ hst => hst⟩
  | @requeue t h hhand hst =>
    obtain rfl := pos.eq_took h hhand
    exact ⟨_, _, inv.requeue hst⟩
  | @release t h hhand hst =>
    obtain rfl := pos.eq_took h hhand
    exact ⟨_, _, inv.release hst⟩
  | @pick t h ht =>
    obtain rfl := pos.eq_pick h
    exact ⟨_, _, inv.pick ht⟩
  | sleep h _ =>
    obtain rfl := pos.eq_pick h
    exact ⟨.wait, place, inv.pass ⟨rfl, pos.current, pos.previous, pos.hand, pos.on⟩ rfl rfl rfl
      rfl fun _ hst => hst⟩
  | rouse h =>
    obtain rfl := pos.eq_wait h
    exact ⟨.top none, place, inv.pass ⟨rfl, pos.current, pos.previous, pos.hand, pos.on⟩ rfl rfl rfl
      rfl fun _ hst => hst⟩
  | @activate t h hhand =>
    obtain rfl := pos.eq_picked h hhand
    exact ⟨.activated t, place, inv.pass ⟨rfl, pos.current, pos.previous, pos.hand, pos.on⟩ rfl rfl
      rfl rfl fun _ hst => hst⟩
  | @publish t h hhand =>
    obtain rfl := pos.eq_activated h hhand
    exact ⟨.published t, place, inv.settle (t := t) rfl rfl ⟨rfl, rfl, pos.previous, rfl, pos.on⟩
      rfl rfl rfl rfl rfl⟩
  | @switchIn t h hcur =>
    obtain rfl := pos.eq_published h hcur
    exact ⟨.task t, place, inv.pass ⟨rfl, pos.current, pos.previous, pos.hand, rfl⟩ rfl rfl rfl
      rfl fun _ hst => hst⟩
  | @leave t r hx hl =>
    obtain rfl := pos.task hx.toExecutes
    exact ⟨.leaving t, place, inv.settle (t := t) rfl rfl ⟨rfl, rfl, pos.previous, rfl, pos.on⟩
      rfl rfl rfl hl.keeps.1 hl.keeps.2⟩
  | @preempt t hx _ _ =>
    obtain rfl := pos.task hx
    exact ⟨.leaving t, place, inv.settle (t := t) rfl rfl ⟨rfl, rfl, pos.previous, rfl, pos.on⟩
      rfl rfl rfl rfl (by simp [Pos.Fits])⟩
  | @hand t h hhand =>
    obtain rfl := pos.eq_leaving h hhand
    exact ⟨.handed t, place, inv.pass ⟨rfl, pos.current, rfl, rfl, pos.on⟩ rfl rfl rfl
      rfl fun _ hst => hst⟩
  | switchOut h =>
    obtain ⟨t, rfl⟩ := pos.eq_handed h
    exact ⟨.top (some t), place, inv.pass ⟨rfl, pos.current, pos.previous, pos.hand, rfl⟩ rfl rfl
      rfl rfl fun _ hst => hst⟩
  | @resume t hx _ =>
    exact ⟨p, place, inv.edit (t := t) (pos.keep rfl rfl rfl rfl rfl) rfl rfl rfl rfl rfl⟩
  | @turn t r hx hturn =>
    exact ⟨p, place, inv.edit (t := t) (pos.keep rfl rfl rfl rfl rfl) rfl rfl rfl hturn.keeps.1
      hturn.keeps.2⟩
  | @spawn t u hx hstage habsent =>
    exact ⟨p, _, inv.spawn rec hx.toExecutes habsent
      (r := { s.tasks t with locals := (s.tasks t).locals ++ [u] }) rfl rfl
      (pos.keep rfl rfl rfl rfl rfl) rfl rfl rfl⟩
  | @fork t u sp fr f hx hstage habsent hsp hfr =>
    exact ⟨p, _, inv.spawn rec hx.toExecutes habsent
      (r := { s.tasks t with children := (s.tasks t).children ++ [u] }) rfl rfl
      (pos.keep rfl rfl rfl rfl rfl) rfl rfl rfl⟩
  | @enqueue t hx _ _ =>
    exact ⟨p, place, inv.stay (pos.keep rfl rfl rfl rfl rfl) rfl rfl rfl (fun _ => rfl)
      fun _ h => h⟩
  | @dequeue t u hx _ _ =>
    exact ⟨p, place, inv.edit (t := t) (pos.keep rfl rfl rfl rfl rfl) rfl rfl rfl rfl rfl⟩
  | @wake t u hx hfree hu hst =>
    exact ⟨p, _, inv.wake hx.toExecutes hx.waking ((rec.refers t).locals u hu) hst
      (pos.keep rfl rfl rfl rfl rfl) (fun v => by simp only [World.put, Function.update_apply]) rfl
      rfl⟩
  | @push t u hx _ hw =>
    exact ⟨p, _, inv.push hw (pos.keep rfl rfl rfl rfl rfl) rfl rfl rfl⟩
  | @note t u hx _ _ _ =>
    exact ⟨p, place, inv.edit (t := u) (pos.keep rfl rfl rfl rfl rfl) rfl rfl rfl rfl rfl⟩
  | @device u h hu =>
    unfold World.wakeNow
    split
    · rename_i hst
      refine ⟨p, _, inv.wakeNow (rec.waiting u hu) hst ?_ (pos.keep rfl rfl rfl rfl rfl) rfl rfl
        rfl⟩
      intro hseat
      have hstands := inv.stands u
      rw [(inv.seat u).mp hseat] at hstands
      rcases h with h | h
      · have := pos.phase
        cases p <;> simp_all [Pos.phase, Stands, Pos.Fits]
      · obtain rfl := pos.eq_wait h
        cases hseat
    · exact ⟨p, place, inv.edit (t := u) (pos.keep rfl rfl rfl rfl rfl) rfl rfl rfl rfl rfl⟩
  | enterUser _ hstage _ =>
    exact ⟨p, place, inv.advance (.enterUser hstage) (pos.keep rfl rfl rfl rfl rfl) rfl rfl rfl⟩
  | userTrap _ hstage _ =>
    exact ⟨p, place, inv.advance (.userTrap hstage) (pos.keep rfl rfl rfl rfl rfl) rfl rfl rfl⟩
  | prepare _ hstage _ =>
    exact ⟨p, place, inv.advance (.prepare hstage) (pos.keep rfl rfl rfl rfl rfl) rfl rfl rfl⟩
  | abort _ hstage =>
    exact ⟨p, place, inv.advance (.abort hstage) (pos.keep rfl rfl rfl rfl rfl) rfl rfl rfl⟩
  | swap _ hstage _ _ =>
    exact ⟨p, place, inv.advance (.swap hstage) (pos.keep rfl rfl rfl rfl rfl) rfl rfl rfl⟩
  | dropOld _ hstage =>
    exact ⟨p, place, inv.advance (.dropOld hstage) (pos.keep rfl rfl rfl rfl rfl) rfl rfl rfl⟩
  | detach _ hstage =>
    exact ⟨p, place, inv.advance (.detach hstage) (pos.keep rfl rfl rfl rfl rfl) rfl rfl rfl⟩
  | dropSpace _ hstage =>
    exact ⟨p, place, inv.advance (.dropSpace hstage) (pos.keep rfl rfl rfl rfl rfl) rfl rfl rfl⟩

end

end AlexOS.Lifetime
