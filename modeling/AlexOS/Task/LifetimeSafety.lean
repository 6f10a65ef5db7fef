import AlexOS.Task.LifetimeRuns

/-!
# Stacks, spaces and frames are there while they are used

For one hart and any interleaving of its tasks: what `sscratch` and `satp` have in user mode,
which references keep a task that has exited, on whose stack a task is freed, and which frame
`set_return` writes.
-/

namespace AlexOS.Lifetime

open World

/-- The hart is in the user program of `t`. -/
structure UserMode (s : World) (t : Nat) : Prop where
  current : s.current = some t
  stvec : s.stvec = .user
  space : ∃ sp, s.satp = some sp ∧ (s.tasks t).space = some sp ∧ s.spaces sp = .live
  /-- The next trap saves to the task's own frame, and finds the task's own stack in it. -/
  frame : ∃ fr, s.sscratch = .frame fr ∧ (s.tasks t).frame = some fr ∧ s.frames fr = .live ∧
    s.kernelSp fr = t

section
variable {s s' : World} {p : Pos} {t u : Nat} {place : Nat → Place}

theorem Sound.frame_of_forUser (inv : Sound s p place) (h : (s.tasks t).stage.forUser = true) :
    ∃ fr, (s.tasks t).frame = some fr ∧ s.frames fr = .live := by
  have hnotDead : (s.tasks t).stage ≠ .dead := by
    intro hd
    rw [hd] at h
    cases h
  obtain ⟨fr, hfr⟩ := Option.ne_none_iff_exists'.mp
    ((inv.records.ok t).frame ((inv.records.ok t).user h).1 hnotDead)
  exact ⟨fr, hfr, (inv.framed.frames t fr hfr).1⟩

theorem Sound.userMode (inv : Sound s p place) (h : (s.tasks t).stage = .user) : UserMode s t := by
  obtain ⟨hx, hvec, fr, hscratch, hfr⟩ := inv.framed.user t h
  obtain ⟨_, hspace⟩ := (inv.records.ok t).user (by rw [h]; rfl)
  obtain ⟨sp, hsp⟩ := Option.ne_none_iff_exists'.mp hspace
  obtain ⟨hlive, hown⟩ := inv.framed.frames t fr hfr
  have hsatp := inv.owned.satp_eq hx (by simp [h])
  refine ⟨hx.current, hvec, ⟨sp, by rw [hsatp, hsp], hsp, ?_⟩,
    ⟨fr, hscratch, hfr, hlive, hown⟩⟩
  exact inv.owned.satp sp (by rw [hsatp, hsp])

/-! ## A run -/

/-- A run in which the task 0 is the only one so far. -/
structure Solo (s : World) : Prop where
  reach : Reach World.system s
  only : ∀ u, s.status u = .live → u = 0

theorem Solo.act (h : Solo s) (a : Act s s') (hstatus : s'.status = s.status)
    (hd : (s.tasks 0).stage ≠ .dead ∨ s.Held 0) : Solo s' := by
  obtain ⟨p, place, inv⟩ := sound_of_reach h.reach
  refine ⟨.step .act h.reach (.act ?_ a), hstatus ▸ h.only⟩
  intro u hu
  obtain rfl := h.only u hu
  rcases hd with hd | hd
  · exact inv.slots.held_of_place inv.records hu hd
  · exact hd

theorem solo_boot :
    Solo ((World.boot.furnish 0 0 0).admitTask 0 (.new true (some 0) (some 0))) where
  reach := .step .act (.init rfl) (.act (fun _ h => by cases h) (.boot rfl rfl rfl rfl))
  only u hu := by
    by_contra hne
    have hst : Function.update World.boot.status 0 Status.live u = .live := hu
    rw [Function.update_of_ne hne] at hst
    cases hst

/-- The first process in user mode. -/
def firstUser : World where
  tasks := Function.update World.boot.tasks 0
    ⟨.running, false, true, some 0, some 0, [], [], false, false, none, .user⟩
  status := Function.update World.boot.status 0 .live
  spaces := Function.update World.boot.spaces 0 .live
  frames := Function.update World.boot.frames 0 .live
  kernelSp := Function.update World.boot.kernelSp 0 0
  queue := []
  waiting := []
  current := some 0
  previous := none
  hand := none
  phase := .task
  on := some 0
  satp := some 0
  sscratch := .frame 0
  stvec := .user

theorem solo_user : Solo firstUser := by
  have h := ((solo_boot.act (.start rfl) rfl (.inl Stage.noConfusion)).act (.noPrevious rfl rfl) rfl
    (.inl Stage.noConfusion)).act (@Act.pick _ 0 rfl (List.mem_singleton.mpr rfl)) rfl
    (.inl Stage.noConfusion)
  have h := ((h.act (.activate rfl rfl) rfl (.inl Stage.noConfusion)).act (.publish rfl rfl) rfl
    (.inl Stage.noConfusion)).act (.switchIn rfl rfl) rfl (.inl Stage.noConfusion)
  have h := h.act (.turn ⟨⟨rfl, rfl, rfl⟩, rfl, rfl⟩ (.entry rfl rfl)) rfl
    (.inl Stage.noConfusion)
  have h := h.act (.enterUser ⟨⟨rfl, rfl, rfl⟩, rfl, rfl⟩ (.inl rfl) rfl) rfl
    (.inl Stage.noConfusion)
  simp only [put, admitTask, furnish, Function.update_idem, Function.update_self] at h
  exact h

/-- It is in a system call. -/
theorem solo_syscall : ∃ s, Solo s ∧ s.Runs 0 ∧ (s.tasks 0).stage = .body (some 0) ∧
    s = { firstUser.put 0 { firstUser.tasks 0 with stage := .body (some 0) } with
      sscratch := .userSp, stvec := .kernel } := by
  have h := solo_user.act (.userTrap ⟨⟨rfl, rfl, rfl⟩, rfl, rfl⟩ rfl rfl) rfl
    (.inl Stage.noConfusion)
  have h := h.act (.turn ⟨⟨rfl, rfl, rfl⟩, rfl, rfl⟩ (.ecall rfl)) rfl (.inl Stage.noConfusion)
  simp only [put, Function.update_idem, Function.update_self] at h
  exact ⟨_, h, ⟨⟨rfl, rfl, rfl⟩, rfl, rfl⟩, rfl, rfl⟩

/-- It has called `exec`, which is about to return. -/
theorem solo_exec : ∃ s, Solo s ∧ s.Runs 0 ∧ (s.tasks 0).stage = .replaced 0 ∧
    (s.tasks 0).locals = [] ∧ (s.tasks 0).frame = some 1 ∧ s.frames 0 = .dropped := by
  obtain ⟨s, h, _, _, rfl⟩ := solo_syscall
  have h := h.act (@Act.prepare _ 0 0 1 ⟨⟨rfl, rfl, rfl⟩, rfl, rfl⟩ rfl rfl) rfl
    (.inl Stage.noConfusion)
  have h := h.act (@Act.swap _ 0 0 1 0 1 ⟨⟨rfl, rfl, rfl⟩, rfl, rfl⟩ rfl rfl rfl) rfl
    (.inl Stage.noConfusion)
  have h := h.act (.dropOld ⟨⟨rfl, rfl, rfl⟩, rfl, rfl⟩ rfl) rfl (.inl Stage.noConfusion)
  exact ⟨_, h, ⟨⟨rfl, rfl, rfl⟩, rfl, rfl⟩, rfl, rfl, rfl, rfl⟩

/-- It is back in user mode, in the new program. -/
theorem solo_new_program : ∃ s, Solo s ∧ (s.tasks 0).stage = .user ∧ s.sscratch = .frame 1 := by
  obtain ⟨s, h, hx, hstage, hlocals, hframe, _⟩ := solo_exec
  have h := h.act (.turn hx (.execReturn hstage hlocals)) rfl
    (.inl (by rw [hstage]; exact Stage.noConfusion))
  have h := h.act (.turn ⟨⟨hx.phase, hx.stack, hx.current⟩, hx.resched, hx.waking⟩
    (.noResched rfl)) rfl (.inl Stage.noConfusion)
  have h := h.act (.enterUser ⟨⟨hx.phase, hx.stack, hx.current⟩, hx.resched, hx.waking⟩ (.inr rfl)
    hframe) rfl (.inl Stage.noConfusion)
  exact ⟨_, h, rfl, rfl⟩

/-- The first process as `exit_current` has it, after `exit` or after a fatal trap. -/
def ending (killed : Bool) (state : TaskState) (stage : Stage) : Task :=
  ⟨state, false, true, none, some 0, [], [], false, killed, none, stage⟩

/-- Only `cpu` and the locals of the task 0 can refer to a task. -/
structure Lone (s : World) : Prop where
  queue : s.queue = []
  waiting : s.waiting = []
  bare : ∀ u, u ≠ 0 → (s.tasks u).locals = [] ∧ (s.tasks u).children = []

theorem Lone.of_others (h : Lone s) (hq : s'.queue = s.queue) (hw : s'.waiting = s.waiting)
    (ht : ∀ u, u ≠ 0 → s'.tasks u = s.tasks u) : Lone s' where
  queue := hq.trans h.queue
  waiting := hw.trans h.waiting
  bare u hu := by
    rw [ht u hu]
    exact h.bare u hu

theorem lone_user : Lone firstUser where
  queue := rfl
  waiting := rfl
  bare u hu := by
    show (Function.update World.boot.tasks 0 _ u).locals = [] ∧
      (Function.update World.boot.tasks 0 _ u).children = []
    rw [Function.update_of_ne hu]
    exact ⟨rfl, rfl⟩

/-- `exit_current` has its space in a local. -/
theorem solo_taken (killed : Bool) : ∃ s, Solo s ∧ s.Runs 0 ∧ s.satp = some 0 ∧ Lone s ∧
    s.tasks 0 = ending killed .running (.taken 0) := by
  have trapped := solo_user.act (.userTrap ⟨⟨rfl, rfl, rfl⟩, rfl, rfl⟩ rfl rfl) rfl
    (.inl Stage.noConfusion)
  cases killed with
  | true =>
    have h := trapped.act (.turn ⟨⟨rfl, rfl, rfl⟩, rfl, rfl⟩ (.fault rfl)) rfl
      (.inl Stage.noConfusion)
    have h := h.act (.turn ⟨⟨rfl, rfl, rfl⟩, rfl, rfl⟩ (.take rfl rfl)) rfl
      (.inl Stage.noConfusion)
    refine ⟨_, h, ⟨⟨rfl, rfl, rfl⟩, rfl, rfl⟩, rfl, lone_user.of_others rfl rfl ?_, rfl⟩
    intro u hu
    simp [put, Function.update_of_ne hu]
  | false =>
    have h := trapped.act (.turn ⟨⟨rfl, rfl, rfl⟩, rfl, rfl⟩ (.ecall rfl)) rfl
      (.inl Stage.noConfusion)
    have h := h.act (.turn ⟨⟨rfl, rfl, rfl⟩, rfl, rfl⟩ (.exit rfl rfl)) rfl
      (.inl Stage.noConfusion)
    have h := h.act (.turn ⟨⟨rfl, rfl, rfl⟩, rfl, rfl⟩ (.take rfl rfl)) rfl
      (.inl Stage.noConfusion)
    refine ⟨_, h, ⟨⟨rfl, rfl, rfl⟩, rfl, rfl⟩, rfl, lone_user.of_others rfl rfl ?_, rfl⟩
    intro u hu
    simp [put, Function.update_of_ne hu]

/-- It is a zombie, still on its own stack. -/
theorem solo_leaving (killed : Bool) : ∃ s, Solo s ∧ s.phase = .leaving ∧ s.on = some 0 ∧
    s.current = none ∧ s.hand = some 0 ∧ Lone s ∧ s.tasks 0 = ending killed .zombie .dead := by
  obtain ⟨s, h, hx, _, hl, ht⟩ := solo_taken killed
  have h := h.act (.detach hx (by rw [ht]; rfl)) rfl (.inl (by rw [ht]; exact Stage.noConfusion))
  rw [ht] at h
  have h := h.act (@Act.dropSpace _ 0 0 ⟨⟨hx.phase, hx.stack, hx.current⟩, rfl, rfl⟩ rfl) rfl
    (.inl Stage.noConfusion)
  have h := h.act (.turn ⟨⟨hx.phase, hx.stack, hx.current⟩, rfl, rfl⟩ (.notified rfl rfl)) rfl
    (.inl Stage.noConfusion)
  have h := h.act (.leave ⟨⟨hx.phase, hx.stack, hx.current⟩, rfl, rfl⟩ (.exit rfl)) rfl
    (.inl Stage.noConfusion)
  refine ⟨_, h, rfl, hx.stack, rfl, rfl, hl.of_others rfl rfl ?_, rfl⟩
  intro u hu
  simp [put, Function.update_of_ne hu]

/-- `run` has taken it from `previous`. -/
theorem solo_took (killed : Bool) : ∃ s, Solo s ∧ s.phase = .took ∧ s.current = none ∧
    s.previous = none ∧ s.hand = some 0 ∧ Lone s ∧ s.tasks 0 = ending killed .zombie .dead := by
  obtain ⟨s, h, hp, _, hc, hh, hl, ht⟩ := solo_leaving killed
  have previous {x : World} (hx : x.previous = some 0) : x.Held 0 :=
    .inr (.inr (.inr (.inl hx)))
  have h := h.act (.hand hp hh) rfl (.inr (.inr (.inr (.inr (.inr (.inl hh))))))
  have h := (h.act (.switchOut rfl) rfl (.inr (previous rfl))).act (.take rfl rfl) rfl
    (.inr (previous rfl))
  exact ⟨_, h, rfl, hc, rfl, rfl, hl.of_others rfl rfl fun _ _ => rfl, ht⟩

/-- `run` has dropped it. -/
theorem solo_released (killed : Bool) : ∃ s, Solo s ∧ s.status 0 = .live ∧ s.current = none ∧
    s.previous = none ∧ s.hand = none ∧ Lone s ∧ s.tasks 0 = ending killed .zombie .dead := by
  obtain ⟨s, h, hp, hc, hprev, hh, hl, ht⟩ := solo_took killed
  have held : s.Held 0 := .inr (.inr (.inr (.inr (.inl hh))))
  obtain ⟨_, _, inv⟩ := sound_of_reach h.reach
  have hlive := inv.slots.held_live inv.records held
  have h := h.act (.release hp hh (.inr (by rw [ht]; rfl))) rfl (.inr held)
  exact ⟨_, h, hlive, hc, hprev, rfl, hl.of_others rfl rfl fun _ _ => rfl, ht⟩

/-! ## User mode -/

/-- Only one task is in user mode, and then it is `current`, its own space is installed and a
trap enters through its own frame. Otherwise the hart takes traps in the kernel. -/
theorem reach_user_mode (h : Reach World.system s) :
    (∃ t, (s.tasks t).stage = .user ∧ UserMode s t ∧ ∀ u, (s.tasks u).stage = .user → u = t) ∨
      (∀ t, (s.tasks t).stage ≠ .user) ∧ s.stvec = .kernel := by
  obtain ⟨p, place, inv⟩ := sound_of_reach h
  by_cases hu : ∃ t, (s.tasks t).stage = .user
  · obtain ⟨t, ht⟩ := hu
    refine .inl ⟨t, ht, inv.userMode ht, ?_⟩
    intro u hu
    exact (inv.framed.user t ht).1.only (inv.framed.user u hu).1.mapped
  · have hnone : ∀ t, (s.tasks t).stage ≠ .user := fun t ht => hu ⟨t, ht⟩
    exact .inr ⟨hnone, inv.framed.kernel hnone⟩

theorem user_mode_after_exec : ∃ s, Reach World.system s ∧ s.sscratch = .frame 1 ∧
    UserMode s 0 := by
  obtain ⟨s, h, hstage, hscratch⟩ := solo_new_program
  refine ⟨s, h.reach, hscratch, ?_⟩
  rcases reach_user_mode h.reach with ⟨t, _, hmode, honly⟩ | ⟨hnone, _⟩
  · rw [honly 0 hstage]
    exact hmode
  · exact absurd hstage (hnone 0)

/-! ## Spaces -/

/-- The installed space is never a dropped one. While a task is in kernel code it is the task's,
or the one that its `exit_current` is about to leave. -/
theorem reach_satp_live (h : Reach World.system s) :
    (∀ sp, s.satp = some sp → s.spaces sp = .live) ∧
      (∀ t, s.Executes t → s.satp = (s.tasks t).space ∨
        ∃ sp, (s.tasks t).stage = .taken sp ∧ s.satp = some sp) ∧
      ∀ t u, ∀ sp ∈ (s.tasks t).spaces,
        s.spaces sp = .live ∧ (sp ∈ (s.tasks u).spaces → t = u) := by
  obtain ⟨p, place, inv⟩ := sound_of_reach h
  refine ⟨inv.owned.satp, fun t hx => inv.owned.installed t hx.mapped, ?_⟩
  intro t u sp hsp
  exact ⟨inv.owned.live t sp hsp, inv.owned.owner t u sp hsp⟩

theorem taken_space_live : ∃ s, Reach World.system s ∧ s.satp = some 0 ∧
    (s.tasks 0).space = none ∧ s.spaces 0 = .live := by
  obtain ⟨s, h, _, hsatp, _, ht⟩ := solo_taken false
  exact ⟨s, h.reach, hsatp, by rw [ht]; rfl, (reach_satp_live h.reach).1 0 hsatp⟩

/-! ## Stacks -/

/-- On a task's kernel stack the task is in `current`, `previous` or the variable between them;
no reference dangles, and a task that nothing holds has exited and left its stack. -/
theorem reach_stack_held (h : Reach World.system s) :
    (∀ t, s.on = some t → s.status t = .live ∧
      (s.current = some t ∨ s.previous = some t ∨ s.hand = some t)) ∧
      (∀ t, s.Held t → s.status t = .live) ∧
      ∀ t, s.status t = .live → ¬ s.Held t → (s.tasks t).stage = .dead ∧ s.on ≠ some t := by
  obtain ⟨p, place, inv⟩ := sound_of_reach h
  have held : ∀ t, s.on = some t →
      s.current = some t ∨ s.previous = some t ∨ s.hand = some t := by
    intro t ht
    rw [inv.slots.pos.on] at ht
    rw [inv.slots.pos.current, inv.slots.pos.previous, inv.slots.pos.hand]
    cases p <;> simp_all [Pos.on, Pos.current, Pos.previous, Pos.hand]
  have live : ∀ t, s.Held t → s.status t = .live :=
    fun t ht => inv.slots.held_live inv.records ht
  have up : ∀ t, s.current = some t ∨ s.previous = some t ∨ s.hand = some t → s.Held t := by
    rintro t (ht | ht | ht)
    · exact .inr (.inr (.inl ht))
    · exact .inr (.inr (.inr (.inl ht)))
    · exact .inr (.inr (.inr (.inr (.inl ht))))
  refine ⟨?_, live, ?_⟩
  · intro t ht
    exact ⟨live t (up t (held t ht)), held t ht⟩
  · intro t hlive hheld
    refine ⟨inv.dead_of_unheld hlive hheld, ?_⟩
    intro hon
    exact hheld (up t (held t hon))

theorem zombie_on_its_stack : ∃ s, Reach World.system s ∧ (s.tasks 0).stage = .dead ∧
    s.on = some 0 ∧ s.status 0 = .live := by
  obtain ⟨s, h, _, hon, _, _, _, ht⟩ := solo_leaving false
  exact ⟨s, h.reach, by rw [ht]; rfl, hon, ((reach_stack_held h.reach).1 0 hon).1⟩

/-! ## References of an exited task -/

theorem World.Step.killed {o : Op} (h : Step s o s') (inv : Sound s p place)
    (hk : (s.tasks t).killed = true) : (s'.tasks t).killed = true := by
  cases h with
  | act _ h => exact (h.passes inv.records t).killed hk
  | @collect u _ _ =>
    show (Function.update s.tasks u (s.tasks u).gone t).killed = true
    rw [Function.update_apply]
    split
    · rename_i ht
      rw [← ht]
      exact hk
    · exact hk

/-- A process that is ended by a fatal trap is never freed. -/
theorem killed_stays (h : Reach World.system s) (hk : (s.tasks t).killed = true)
    (hs' : Reach (World.system.after s) s') : s'.status t = .live := by
  have kept : (s'.tasks t).killed = true ∧ Reach World.system s' := by
    refine Reach.invariant (S := World.system.after s)
      (fun x => (x.tasks t).killed = true ∧ Reach World.system x) ?_ ?_ hs'
    · rintro x rfl
      exact ⟨hk, h⟩
    · intro x o y hx hy
      obtain ⟨_, _, inv'⟩ := sound_of_reach hx.2
      exact ⟨World.Step.killed hy inv' hx.1, .step o hx.2 hy⟩
  obtain ⟨_, _, inv'⟩ := sound_of_reach kept.2
  exact (inv'.records.refers t).self (.inr kept.1)

/-- A local on the kernel stack of `t` is a reference to `t`. -/
def KeepsItself (s : World) (t : Nat) : Prop :=
  t ∈ (s.tasks t).locals ∨ (s.tasks t).resched = true ∨ (s.tasks t).killed = true

/-- A reference to `t` is outside its kernel stack. -/
def HeldElsewhere (s : World) (t : Nat) : Prop :=
  s.previous = some t ∨ s.hand = some t ∨ t ∈ s.waiting ∨
    ∃ u, u ≠ t ∧ (t ∈ (s.tasks u).locals ∨ t ∈ (s.tasks u).children)

theorem Sound.keeps_itself_iff (inv : Sound s p place) (hdead : (s.tasks t).stage = .dead) :
    KeepsItself s t ↔ (s.tasks t).killed = true := by
  have ok := inv.records.ok t
  rw [KeepsItself, ok.bare (by rw [hdead]; rfl), (ok.dead hdead).1]
  simp

theorem Sound.held_elsewhere (inv : Sound s p place) (hdead : (s.tasks t).stage = .dead)
    (hkilled : (s.tasks t).killed = false) (hheld : s.Held t) : HeldElsewhere s t := by
  have ok := inv.records.ok t
  have hzombie := ok.zombie.mpr hdead
  have hstands := inv.slots.stands t
  have hkeeps : ¬ KeepsItself s t := by
    rw [inv.keeps_itself_iff hdead, hkilled]
    exact Bool.false_ne_true
  rcases hheld with hq | hw | hc | hp | hh | hr | hk | ⟨u, hu⟩
  · rw [inv.slots.mem_queue.mp hq, Stands, hzombie] at hstands
    cases hstands
  · exact .inr (.inr (.inl hw))
  · rw [inv.slots.pos.current] at hc
    have hseat : p.seat = some t := by cases p <;> simp_all [Pos.current, Pos.seat]
    rw [(inv.slots.seat t).mp hseat, Stands, hzombie] at hstands
    cases p <;> simp_all [Pos.current, Pos.Fits]
  · exact .inl hp
  · exact .inr (.inl hh)
  · exact absurd (.inr (.inl hr)) hkeeps
  · exact absurd (.inr (.inr hk)) hkeeps
  · refine .inr (.inr (.inr ⟨u, ?_, hu⟩))
    rintro rfl
    rcases hu with hu | hu
    · exact hkeeps (.inl hu)
    · exact inv.ends.child u hu

/-- A process that has called `exit` keeps no reference to itself, and is freed when nobody else
has one. One that a fatal trap has ended is never freed: the reference of `kill_current` stays on
its stack. -/
theorem exited_references (h : Reach World.system s) (t : Nat) :
    ((s.tasks t).stage = .dead →
      (KeepsItself s t ↔ (s.tasks t).killed = true) ∧
        ((s.tasks t).killed = false →
          (s.Held t → HeldElsewhere s t) ∧
            (s.status t = .live → ¬ HeldElsewhere s t →
              Step s (.collect t) (s.collect t) ∧ (s.collect t).status t = .dropped))) ∧
      ((s.tasks t).killed = true → ∀ s', Reach (World.system.after s) s' →
        s'.status t = .live) := by
  obtain ⟨p, place, inv⟩ := sound_of_reach h
  refine ⟨?_, fun hk s' hs' => killed_stays h hk hs'⟩
  intro hdead
  refine ⟨inv.keeps_itself_iff hdead, ?_⟩
  intro hkilled
  refine ⟨inv.held_elsewhere hdead hkilled, ?_⟩
  intro hlive hnot
  refine ⟨.collect hlive fun hheld => hnot (inv.held_elsewhere hdead hkilled hheld), ?_⟩
  exact Function.update_self ..

theorem Lone.not_held_elsewhere (h : Lone s) (hp : s.previous = none) (hh : s.hand = none) :
    ¬ HeldElsewhere s 0 := by
  rw [HeldElsewhere, hp, hh, h.waiting]
  rintro (hp | hh | hw | ⟨u, hu, hr⟩)
  · cases hp
  · cases hh
  · cases hw
  · rw [(h.bare u hu).1, (h.bare u hu).2] at hr
    rcases hr with hr | hr <;> cases hr

theorem freed_after_exit : ∃ s, Reach World.system s ∧ (s.tasks 0).stage = .dead ∧
    ¬ KeepsItself s 0 ∧ Reach World.system (s.collect 0) ∧
    (s.collect 0).status 0 = .dropped := by
  obtain ⟨s, h, hlive, _, hp, hh, hl, ht⟩ := solo_released false
  have hdead : (s.tasks 0).stage = .dead := by
    rw [ht]
    rfl
  have hkilled : (s.tasks 0).killed = false := by
    rw [ht]
    rfl
  obtain ⟨hself, hfree⟩ := (exited_references h.reach 0).1 hdead
  obtain ⟨hstep, hdropped⟩ := (hfree hkilled).2 hlive (hl.not_held_elsewhere hp hh)
  refine ⟨s, h.reach, hdead, ?_, .step _ h.reach hstep, hdropped⟩
  rw [hself, hkilled]
  exact Bool.false_ne_true

/-- After a fatal trap the zombie has left `cpu`, no other task refers to it, and it is not
freed: its own stack has a reference. -/
theorem killed_keeps_itself : ∃ s, Reach World.system s ∧ (s.tasks 0).stage = .dead ∧
    s.on ≠ some 0 ∧ s.current = none ∧ ¬ HeldElsewhere s 0 ∧ KeepsItself s 0 ∧
    ∀ s', Reach (World.system.after s) s' → s'.status 0 = .live := by
  obtain ⟨s, h, _, hc, hp, hh, hl, ht⟩ := solo_released true
  have hkilled : (s.tasks 0).killed = true := by
    rw [ht]
    rfl
  obtain ⟨p, _, inv⟩ := sound_of_reach h.reach
  have hon : s.on ≠ some 0 := by
    intro hon
    rw [inv.slots.pos.on] at hon
    rw [inv.slots.pos.current] at hc
    rw [inv.slots.pos.previous] at hp
    rw [inv.slots.pos.hand] at hh
    cases p <;> simp_all [Pos.on, Pos.current, Pos.previous, Pos.hand]
  exact ⟨s, h.reach, by rw [ht]; rfl, hon, hc, hl.not_held_elsewhere hp hh, .inr (.inr hkilled),
    fun _ hs' => killed_stays h.reach hkilled hs'⟩

/-! ## `set_return` -/

/-- The frame that `user_trap_handler` was given is its caller's while it is in a system call,
except after `exec_current` has replaced it: then the frame is freed, and `set_return` writes
to it all the same. -/
theorem reach_set_return (h : Reach World.system s) (t f : Nat) :
    ((s.tasks t).stage.given = some f →
      (s.tasks t).frame = some f ∧ s.frames f = .live ∧ s.kernelSp f = t) ∧
      ((s.tasks t).stage.stale = some f →
        s.frames f = .dropped ∧ ∃ g, (s.tasks t).frame = some g ∧ g ≠ f) := by
  obtain ⟨p, place, inv⟩ := sound_of_reach h
  refine ⟨?_, ?_⟩
  · intro hgiven
    have hframe := inv.framed.given t f hgiven
    exact ⟨hframe, inv.framed.frames t f hframe⟩
  · intro hstale
    have hdropped := inv.framed.stale t f hstale
    have huser : (s.tasks t).stage.forUser = true := by
      revert hstale
      cases (s.tasks t).stage <;> simp [Stage.stale, Stage.forUser]
    obtain ⟨g, hg, _⟩ := inv.frame_of_forUser huser
    refine ⟨hdropped, g, hg, ?_⟩
    rintro rfl
    rw [(inv.framed.frames t g hg).1] at hdropped
    cases hdropped

theorem syscall_returns_to_own_frame : ∃ s, Reach World.system s ∧ s.Runs 0 ∧
    (s.tasks 0).stage = .body (some 0) ∧ (s.tasks 0).frame = some 0 ∧ s.frames 0 = .live := by
  obtain ⟨s, h, hx, hstage, _⟩ := solo_syscall
  obtain ⟨hframe, hlive, _⟩ := (reach_set_return h.reach 0 0).1 (by rw [hstage]; rfl)
  exact ⟨s, h.reach, hx, hstage, hframe, hlive⟩

/-- `exec` returns: `set_return` is through the frame 0, which is dropped; the task's is 1. -/
theorem exec_returns_to_freed_frame : ∃ s, Reach World.system s ∧ s.Runs 0 ∧
    (s.tasks 0).stage = .replaced 0 ∧ s.frames 0 = .dropped ∧ (s.tasks 0).frame = some 1 ∧
    Turn s 0 (s.tasks 0) { s.tasks 0 with stage := .handled } := by
  obtain ⟨s, h, hx, hstage, hlocals, hframe, hdropped⟩ := solo_exec
  exact ⟨s, h.reach, hx, hstage, hdropped, hframe, .execReturn hstage hlocals⟩

/-! ## Panics -/

/-- `run` never finds a running task in `previous`, a task's code finds its task in `current`
and is not a zombie's, and the way to user mode finds a frame. -/
theorem reach_no_panic (h : Reach World.system s) :
    (s.phase = .took → ∃ t, s.hand = some t ∧ (s.tasks t).state ≠ .running) ∧
      (∀ t, s.phase = .task → s.on = some t →
        s.current = some t ∧ (s.tasks t).state = .running ∧ (s.tasks t).stage ≠ .dead) ∧
      ∀ t, (s.tasks t).stage = .entry ∨ (s.tasks t).stage = .leave →
        ∃ fr, (s.tasks t).frame = some fr ∧ s.frames fr = .live := by
  obtain ⟨p, place, inv⟩ := sound_of_reach h
  refine ⟨?_, ?_, ?_⟩
  · intro hp
    have hphase := inv.slots.pos.phase
    rw [hp] at hphase
    cases p with
    | took t =>
      have hstands := inv.slots.stands t
      rw [(inv.slots.seat t).mp rfl] at hstands
      exact ⟨t, inv.slots.pos.hand, hstands⟩
    | _ => cases hphase
  · intro t hp hon
    have hphase := inv.slots.pos.phase
    rw [hp] at hphase
    rw [inv.slots.pos.on] at hon
    cases p with
    | task u =>
      obtain rfl : u = t := Option.some.inj hon
      have hstands := inv.slots.stands u
      rw [(inv.slots.seat u).mp rfl] at hstands
      have hrunning : (s.tasks u).state = .running := hstands
      refine ⟨inv.slots.pos.current, hrunning, ?_⟩
      intro hdead
      rw [(inv.records.ok u).zombie.mpr hdead] at hrunning
      cases hrunning
    | _ => cases hphase
  · intro t hstage
    refine inv.frame_of_forUser ?_
    rcases hstage with hs | hs <;> rw [hs] <;> rfl

theorem zombie_taken : ∃ s, Reach World.system s ∧ s.phase = .took ∧
    ∃ t, s.hand = some t ∧ (s.tasks t).state ≠ .running := by
  obtain ⟨s, h, hp, _⟩ := solo_took true
  exact ⟨s, h.reach, hp, (reach_no_panic h.reach).1 hp⟩

end

end AlexOS.Lifetime
