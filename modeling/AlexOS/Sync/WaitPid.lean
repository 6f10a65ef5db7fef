import AlexOS.Sync.WaitUntil

/-!
# `waitpid` and `exit`

A parent scans its children, pushes itself on its `child_exit` queue and blocks.
An exiting child wakes that queue first and becomes a zombie later. A parent
that scans too early and queues itself too late sleeps beside its zombie.
-/

namespace AlexOS

/-- Past the wake call of `on_exit`. -/
def Pc.Gone : Pc → Prop
  | .waking _ _ .exit | .leaving => True
  | _ => False

/-- In `sys_waitpid`, after a scan that found no zombie. -/
def Pc.Waiting (p : Nat) (want : Int) : Pc → Prop
  | .wait q a | .enqueued q a | .parked q a => q = .childExit p ∧ a = .waitpid want
  | _ => False

namespace Kernel

/-- The parent sleeps in `waitpid` beside a zombie it waits for, and nothing is on
its way to wake it. -/
structure Stuck (k : Kernel) (p c : Nat) : Prop where
  child : c ∈ k.children p
  waits : ∃ want, isMatch want c = true ∧ k.pc (some p) = .parked (.childExit p) (.waitpid want)
  blocked : (k.sched.inner p).state = .blocked
  flag : (k.sched.inner p).wakeupPending = false
  zombie : k.isZombie c = true
  finished : ∀ q, p ∉ (k.pc (some c)).held q

/-- A child wakes its parent's queue only when the parent, if it waits for that child,
has queued itself and is in no other waker's hands; a parent scans its children only
when none it asks for is between that wake call and its end. -/
def Timely (k : Kernel) : Op → Prop
  | .drain => ∀ c p want, k.sched.current = some c → k.parent c = some p → c ∈ k.children p →
      isMatch want c = true → (k.pc (some p)).Waiting p want →
      (∀ a, k.pc (some p) ≠ .wait (.childExit p) a) ∧ ∀ d, p ∉ (k.pc d).held (.childExit p)
  | .scan => ∀ p want, k.sched.current = some p → k.pc (some p) = .waitpidTop want →
      ∀ c ∈ k.children p, isMatch want c = true → (k.pc (some c)).Gone → k.isZombie c = true
  | _ => True

/-- Children name their parent. -/
def Kin (k : Kernel) : Prop :=
  ∀ p c, c ∈ k.children p → k.parent c = some p ∧ c ∈ k.sched.allTasks

/-- A parent that waits for a child past its wake call has been reached by that call. -/
def Served (k : Kernel) (p c : Nat) : Prop :=
  ∀ want, c ∈ k.children p → isMatch want c = true → (k.pc (some p)).Waiting p want →
    (k.pc (some c)).Gone → (∀ a, k.pc (some p) ≠ .wait (.childExit p) a) ∧
      p ∉ k.queues (.childExit p) ∧ ∀ d, p ∈ (k.pc d).held (.childExit p) → d = some c

section
variable {k : Kernel} {p c me : Nat} {d : Ctx} {x y : Pc}

theorem Step.tasks {k' : Kernel} {op : Op} {tok : Nat → Token} (hs : Step k op k') (inv : Inv k tok)
    {t : Nat} (ht : t ∈ k.sched.allTasks) : t ∈ k'.sched.allTasks := by
  rcases hs.sched_step inv with same | ⟨o, hstep⟩
  · rwa [same]
  · exact hstep.tasks ht

theorem Kin.step {k' : Kernel} {op : Op} {tok : Nat → Token} (hs : Step k op k') (inv : Inv k tok)
    (h : Kin k) : Kin k' := by
  have hkept : ∀ p c, c ∈ k.children p → k.parent c = some p ∧ c ∈ k'.sched.allTasks :=
    fun p c hc => ⟨(h p c hc).1, hs.tasks inv (h p c hc).2⟩
  cases hs with
  | @fork me t ha ht =>
    intro p c hc
    by_cases hct : c = t
    · subst hct
      have hnew : ∀ q, c ∉ k.children q := fun q hq => ht (h q c hq).2
      by_cases hp : p = me
      · subst hp
        exact ⟨by simp [Kernel.fork], by simp [Kernel.fork, Sched.admitTask]⟩
      · exact absurd (by simpa [Kernel.fork, hp] using hc) (hnew p)
    · have hold : c ∈ k.children p := by
        by_cases hp : p = me
        · subst hp; simpa [Kernel.fork, hct] using hc
        · simpa [Kernel.fork, hp] using hc
      exact ⟨by simpa [Kernel.fork, hct] using (hkept p c hold).1, (hkept p c hold).2⟩
  | @scan me want ha =>
    rcases scan_cases k me want with ⟨cs, hcs, hscan⟩ | ⟨_, hscan⟩ <;> rw [hscan] at hkept ⊢
    · intro p c hc
      refine hkept p c ?_
      by_cases hp : p = me
      · subst hp; exact hcs c (by simpa using hc)
      · simpa [hp] using hc
    · exact hkept
  | _ => exact hkept

theorem Inv.zombie_leaving {tok : Nat → Token} (inv : Inv k tok) {t : Nat}
    (ht : k.isZombie t = true) : k.pc (some t) = .leaving := by
  have hst : (k.sched.inner t).state = .zombie := by simpa [isZombie] using ht
  have hfits := inv.fits t
  cases hpc : k.pc (some t) <;> simp [hpc, Token.Fits, hst] at hfits ⊢

theorem Served.goto (h : Served k p c) (hd : k.pc d = y) (hgone : d = some c → x.Gone → y.Gone)
    (hwait : d = some p → ∀ want, ¬x.Waiting p want)
    (hheld : ∀ q t, t ∈ x.held q → t ∈ y.held q) : Served (k.goto d x) p c := by
  intro want hc hm hwaits hg
  have hp : some p ≠ d := by
    rintro rfl
    exact hwait rfl want (by simpa [Kernel.goto] using hwaits)
  have hg : (k.pc (some c)).Gone := by
    by_cases hcd : some c = d
    · subst hcd
      exact hd ▸ hgone rfl (by simpa [Kernel.goto] using hg)
    · simpa [Kernel.goto, hcd] using hg
  obtain ⟨hpc, hqueue, hhands⟩ := h want hc hm (by simpa [Kernel.goto, hp] using hwaits) hg
  refine ⟨by simpa [Kernel.goto, hp] using hpc, hqueue, fun e he => hhands e ?_⟩
  by_cases hed : e = d
  · subst hed
    exact hd ▸ hheld _ _ (by simpa [Kernel.goto] using he)
  · simpa [Kernel.goto, hed] using he

theorem Served.setQueue (h : Served k p c) {q : Queue} {ts : List Nat}
    (hts : q = .childExit p → p ∈ ts → p ∈ k.queues q) : Served (k.setQueue q ts) p c := by
  intro want hc hm hwaits hg
  obtain ⟨hpc, hqueue, hhands⟩ := h want hc hm hwaits hg
  refine ⟨hpc, fun hin => hqueue ?_, hhands⟩
  by_cases hq : Queue.childExit p = q
  · subst hq
    exact hts rfl (by simpa [Kernel.setQueue] using hin)
  · simpa [Kernel.setQueue, hq] using hin

/-- A parent that is not on its queue is not taken off it. -/
theorem Served.take (h : Served k p c) {a : After} (hd : d = some c → a = .run) (q : Queue)
    (j : Nat) : Served (k.take d q j a) p c := by
  intro want hc hm hwaits hg
  have hp : some p ≠ d := by
    rintro rfl
    simp [Kernel.take, Kernel.goto, Pc.Waiting] at hwaits
  have hcd : some c ≠ d := by
    rintro rfl
    simp [Kernel.take, Kernel.goto, hd rfl, Pc.Gone] at hg
  obtain ⟨hpc, hqueue, hhands⟩ := h want hc hm
    (by simpa [Kernel.take, Kernel.setQueue, Kernel.goto, hp] using hwaits)
    (by simpa [Kernel.take, Kernel.setQueue, Kernel.goto, hcd] using hg)
  refine ⟨by simpa [Kernel.take, Kernel.setQueue, Kernel.goto, hp] using hpc, fun hin => hqueue ?_,
    fun e he => ?_⟩
  · by_cases hq : Queue.childExit p = q
    · subst hq
      exact List.mem_of_mem_drop (i := j) (by
        simpa [Kernel.take, Kernel.setQueue, Kernel.goto] using hin)
    · simpa [Kernel.take, Kernel.setQueue, Kernel.goto, hq] using hin
  · by_cases hed : e = d
    · subst hed
      exfalso
      by_cases hq : q = .childExit p
      · subst hq
        exact hqueue (List.mem_of_mem_take (i := j) (by
          simpa [Kernel.take, Kernel.goto, Pc.held] using he))
      · simp [Kernel.take, Kernel.goto, Pc.held, hq] at he
    · exact hhands e (by simpa [Kernel.take, Kernel.setQueue, Kernel.goto, hed] using he)

/-- The child's own wake call takes the parent off the queue. -/
theorem Served.drain (kin : Kin k) (ha : k.Acts (some c) .exiting) {q : Nat}
    (hparent : k.parent c = some q) (hop : Timely k .drain) :
    Served (k.wakeAll (some c) (.childExit q) .exit) p c := by
  intro want hc hm hwaits hg
  have hp : p ≠ c := by
    rintro rfl
    simp [Kernel.wakeAll, Kernel.take, Kernel.goto, Pc.Waiting] at hwaits
  obtain rfl : p = q := by
    have hkin := (kin p c hc).1
    rw [hparent] at hkin
    simpa using hkin.symm
  have hwaits : (k.pc (some p)).Waiting p want := by
    simpa [Kernel.wakeAll, Kernel.take, Kernel.setQueue, Kernel.goto, hp] using hwaits
  obtain ⟨hpc, hhands⟩ := hop c p want (Sched.actor_current ha.1).2.2 hparent hc hm hwaits
  refine ⟨?_, ?_, fun e he => ?_⟩
  · simpa [Kernel.wakeAll, Kernel.take, Kernel.setQueue, Kernel.goto, hp] using hpc
  · simp [Kernel.wakeAll, Kernel.take, Kernel.setQueue, Kernel.goto]
  · by_contra hne
    exact hhands e (by
      simpa [Kernel.wakeAll, Kernel.take, Kernel.setQueue, Kernel.goto, hne] using he)

/-- A scan that finds nothing sees no child past its wake call. -/
theorem Served.scan (h : Served k p c) {want : Int} (ha : k.Acts (some me) (.waitpidTop want))
    (hnone : ∀ c ∈ k.children me, isMatch want c = true → k.isZombie c = false)
    (hop : Timely k .scan) :
    Served (k.goto (some me) (.wait (.childExit me) (.waitpid want))) p c := by
  by_cases hme : me = p
  · subst hme
    intro want' hc hm hwaits hg
    exfalso
    obtain rfl : want = want' := by simpa [Kernel.goto, Pc.Waiting] using hwaits
    have hcp : c ≠ me := by
      rintro rfl
      simp [Kernel.goto, Pc.Gone] at hg
    have hzombie := hop me want (Sched.actor_current ha.1).2.2 ha.2.2 c hc hm
      (by simpa [Kernel.goto, hcp] using hg)
    rw [hnone c hc hm] at hzombie
    exact Bool.noConfusion hzombie
  · exact h.goto ha.2.2 (fun _ => False.elim) (fun e => absurd (by simpa using e) hme)
      (by simp [Pc.held])

theorem Served.enqueue (h : Served k p c) {q : Queue} {a : Caller}
    (ha : k.Acts (some me) (.wait q a)) : Served (k.enqueue me q a) p c := by
  by_cases hme : me = p
  · subst hme
    intro want hc hm hwaits hg
    obtain ⟨rfl, rfl⟩ : q = .childExit me ∧ a = .waitpid want := by
      simpa [Kernel.enqueue, Kernel.goto, Pc.Waiting] using hwaits
    have hcp : c ≠ me := by
      rintro rfl
      simp [Kernel.enqueue, Kernel.goto, Pc.Gone] at hg
    have hserved := h want hc hm (by simp [ha.2.2, Pc.Waiting])
      (by simpa [Kernel.enqueue, Kernel.setQueue, Kernel.goto, hcp] using hg)
    exact absurd ha.2.2 (hserved.1 _)
  · refine Served.goto (h.setQueue fun _ hin => ?_) ha.2.2 (fun _ => False.elim)
      (fun e => absurd (by simpa using e) hme) (by simp [Pc.held])
    simpa [Ne.symm hme] using hin

theorem Served.block (h : Served k p c) {q : Queue} {a : Caller}
    (ha : k.Acts (some me) (.enqueued q a)) : Served (k.goto (some me) (.parked q a)) p c := by
  by_cases hme : me = p
  · subst hme
    intro want hc hm hwaits hg
    have hcp : c ≠ me := by
      rintro rfl
      simp [Kernel.goto, Pc.Gone] at hg
    obtain ⟨_, hqueue, hhands⟩ := h want hc hm
      (by simpa [ha.2.2, Kernel.goto, Pc.Waiting] using hwaits)
      (by simpa [Kernel.goto, hcp] using hg)
    refine ⟨by simp [Kernel.goto], hqueue, fun e he => hhands e ?_⟩
    rwa [held_goto (by simp [ha.2.2, Pc.held]) (by simp [Pc.held])] at he
  · exact h.goto ha.2.2 (fun _ => False.elim) (fun e => absurd (by simpa using e) hme)
      (by simp [Pc.held])

theorem Served.orphan (h : Served k p c) {tok : Nat → Token} (inv : Inv k tok) (kin : Kin k)
    (ha : k.Acts (some me) .exiting) (horphan : k.Orphaned me) :
    Served (k.goto (some me) .leaving) p c := by
  by_cases hme : me = c
  · subst hme
    intro want hc hm hwaits _
    exfalso
    have hleaving := inv.zombie_leaving (horphan p (kin p me hc).1)
    by_cases hp : p = me
    · simp [Kernel.goto, hp, Pc.Waiting] at hwaits
    · simp [Kernel.goto, hp, hleaving, Pc.Waiting] at hwaits
  · exact h.goto ha.2.2 (fun e => absurd (by simpa using e) hme) (fun _ _ => id) (by simp [Pc.held])

theorem Served.fork (h : Served k p c) (ha : k.Acts (some me) .run) (t : Nat) :
    Served (k.fork me t) p c := by
  intro want hc hm hwaits hg
  have hme : p ≠ me := by
    rintro rfl
    simp [Kernel.fork, ha.2.2, Pc.Waiting] at hwaits
  exact h want (by simpa [Kernel.fork, hme] using hc) hm hwaits hg

theorem Served.step {k' : Kernel} {op : Op} {tok : Nat → Token} (hs : Step k op k')
    (hop : Timely k op) (inv : Inv k tok) (kin : Kin k) (h : Served k p c) : Served k' p c := by
  cases hs with
  | sched _ _ => exact h
  | wait ha => exact h.goto ha.2.2 (fun _ => id) (by simp [Pc.Waiting]) (by simp [Pc.held])
  | waitUntil ha | waitpid ha | exit ha =>
    exact h.goto ha.2.2 (fun _ => id) (fun _ _ => id) (by simp [Pc.held])
  | check ha =>
    refine h.goto ha.2.2 (fun _ => ?_) (fun _ want => ?_) fun q t => ?_ <;> split <;>
      simp [Pc.Gone, Pc.Waiting, Pc.held]
  | enqueue ha => exact h.enqueue ha
  | block ha => exact h.block ha
  | @unpark me q a ha =>
    refine Served.goto (h.setQueue fun _ hin => List.mem_of_mem_erase hin) ha.2.2 (fun _ => ?_)
      (fun _ want => ?_) fun r t => ?_ <;> cases a <;> cases q <;>
      simp [Caller.next, Pc.Gone, Pc.Waiting, Pc.held]
  | signal ha => exact Served.goto h ha.2.2 (fun _ => id) (fun _ _ => id) (by simp [Pc.held])
  | reset _ => exact h
  | wakeOne _ => exact h.take (fun _ => rfl) _ _
  | wakeAll _ => exact h.take (fun _ => rfl) _ _
  | @wakeNext d q u us a ha =>
    refine Served.goto h ha.2.2 (fun _ => ?_) (fun _ _ => id) fun r t => ?_
    · cases a <;> exact id
    · by_cases hr : q = r <;> simp +contextual [Pc.held, hr]
  | @wakeDone d q a ha =>
    refine h.goto ha.2.2 (fun _ => ?_) (fun _ want => ?_) fun r t => ?_ <;> cases a <;>
      simp [After.next, Pc.Gone, Pc.Waiting, Pc.held]
  | fork ha _ => exact h.fork ha _
  | @scan me want ha =>
    rcases scan_cases k me want with ⟨cs, hcs, hscan⟩ | ⟨hnone, hscan⟩ <;> rw [hscan]
    · have hrun : Served (k.goto (some me) .run) p c :=
        h.goto ha.2.2 (fun _ => id) (fun _ _ => id) (by simp [Pc.held])
      intro want hc
      refine hrun want ?_
      by_cases hp : p = me
      · subst hp; exact hcs c (by simpa using hc)
      · simpa [hp, Kernel.goto] using hc
    · exact h.scan ha hnone hop
  | @drain me q ha hparent =>
    by_cases hme : me = c
    · subst hme
      exact Served.drain kin ha hparent hop
    · exact h.take (fun e => absurd (by simpa using e) hme) _ _
  | orphan ha horphan => exact h.orphan inv kin ha horphan
  | zombie _ => exact h

end

theorem Reach.served {k : Kernel} (h : Reach (system.guard Timely) k) :
    Reach system k ∧ Kin k ∧ ∀ p c, Served k p c := by
  refine Reach.invariant (fun k => Reach system k ∧ Kin k ∧ ∀ p c, Served k p c) ?_ ?_ h
  · rintro k rfl
    exact ⟨.init rfl, fun p c hc => by simp [boot] at hc, fun p c want hc => by simp [boot] at hc⟩
  · rintro k op k' ⟨hreach, kin, served⟩ ⟨hs, hop⟩
    obtain ⟨_, tok, inv⟩ := Reach.inv hreach
    exact ⟨hreach.step op hs, kin.step hs inv, fun p c => (served p c).step hs hop inv kin⟩

/-- In a timely run no parent sleeps beside a zombie it waits for. -/
theorem reach_not_stuck {k : Kernel} (h : Reach (system.guard Timely) k) (p c : Nat) :
    ¬Stuck k p c := by
  obtain ⟨hreach, _, served⟩ := Reach.served h
  obtain ⟨_, tok, inv⟩ := Reach.inv hreach
  intro stuck
  obtain ⟨want, hm, hparked⟩ := stuck.waits
  obtain ⟨q, a, hpc, hin⟩ := inv.blocked_waits stuck.blocked
  obtain ⟨rfl, rfl⟩ : q = .childExit p ∧ a = .waitpid want := by simpa [hpc] using hparked
  have hleaving := inv.zombie_leaving stuck.zombie
  obtain ⟨_, hqueue, hhands⟩ := served p c want stuck.child hm (by simp [hpc, Pc.Waiting])
    (by simp [hleaving, Pc.Gone])
  rcases hin with hin | ⟨d, us, a, hd, hin⟩
  · exact hqueue hin
  · obtain rfl := hhands d (by simpa [hd, Pc.held] using hin)
    simp [hleaving] at hd

/-- Task 1 forks task 2 and scans; 2 then exits from its wake call to its end; 1
queues itself and blocks. -/
theorem early_scan_sticks : ∃ k, Reach system k ∧ Stuck k 1 2 := by
  have step : ∀ {k op k'}, Reach system k → Step k op k' → Reach system k' :=
    fun h hs => h.step _ hs
  have runs := reach_oneTask (S := system) rfl step
  have forked := step runs (@Step.fork _ 1 2 ⟨rfl, rfl, rfl⟩ (by decide))
  have scanned := step (step forked (@Step.waitpid _ 1 (-1) ⟨rfl, rfl, rfl⟩))
    (.scan ⟨rfl, rfl, rfl⟩)
  have preempted := step (step (step scanned (.sched (.interrupt rfl (.inr (.inl rfl))) trivial))
    (.sched (.tick rfl) trivial)) (.sched (.iret rfl rfl) rfl)
  have second := step (step preempted (.sched (.previous rfl) trivial))
    (.sched (.next rfl) trivial)
  have drained := step (step second (@Step.exit _ 2 ⟨rfl, rfl, rfl⟩))
    (.drain (p := 1) ⟨rfl, rfl, rfl⟩ rfl)
  have ended := step (step drained (.wakeDone ⟨rfl, rfl, rfl⟩)) (.zombie ⟨rfl, rfl, rfl⟩)
  have first := step (step ended (.sched (.previous rfl) trivial)) (.sched (.next rfl) trivial)
  have blocked := step (step first (.enqueue ⟨rfl, rfl, rfl⟩)) (.block ⟨rfl, rfl, rfl⟩)
  exact ⟨_, blocked, by decide, ⟨-1, by decide, rfl⟩, rfl, rfl, by decide,
    fun _ => List.not_mem_nil⟩

/-- The same two tasks, with the exit after the parent has queued itself. -/
theorem not_stuck_once_queued : ∃ k, Reach (system.guard Timely) k ∧ 2 ∈ k.children 1 ∧
    k.isZombie 2 = true ∧ (k.sched.inner 1).state = .ready ∧ ¬Stuck k 1 2 := by
  have step : ∀ {k op k'}, Reach (system.guard Timely) k → Step k op k' → Timely k op →
      Reach (system.guard Timely) k' := fun h hs ha => h.step _ ⟨hs, ha⟩
  have runs := reach_oneTask (S := system.guard Timely) rfl fun h hs => step h hs trivial
  have forked := step runs (@Step.fork _ 1 2 ⟨rfl, rfl, rfl⟩ (by decide)) trivial
  have scanned := step (step forked (@Step.waitpid _ 1 (-1) ⟨rfl, rfl, rfl⟩) trivial)
    (.scan ⟨rfl, rfl, rfl⟩) (by
      intro p want hcur _ c hc _ hg
      obtain rfl : 1 = p := Option.some.inj hcur
      obtain rfl : c = 2 := List.mem_singleton.mp hc
      exact hg.elim)
  have hscan : ((oneTask.fork 1 2).goto (some 1) (.waitpidTop (-1))).scan 1 (-1) =
      ((oneTask.fork 1 2).goto (some 1) (.waitpidTop (-1))).goto (some 1)
        (.wait (.childExit 1) (.waitpid (-1))) := rfl
  rw [hscan] at scanned
  have blocked := step (step scanned (.enqueue ⟨rfl, rfl, rfl⟩) trivial)
    (.block ⟨rfl, rfl, rfl⟩) trivial
  have second := step (step blocked (.sched (.previous rfl) trivial) trivial)
    (.sched (.next rfl) trivial) trivial
  have drained := step (step second (@Step.exit _ 2 ⟨rfl, rfl, rfl⟩) trivial)
    (.drain (p := 1) ⟨rfl, rfl, rfl⟩ rfl) (by
      intro c p want hcur hparent _ _ _
      obtain rfl : 2 = c := Option.some.inj hcur
      obtain rfl : 1 = p := Option.some.inj hparent
      refine ⟨fun a e => Pc.noConfusion (e : Pc.parked _ _ = .wait _ _), fun d => ?_⟩
      rcases d with _ | t
      · exact List.not_mem_nil
      · by_cases hone : t = 1 <;> by_cases htwo : t = 2 <;> simp [hone, htwo, Kernel.goto,
          Kernel.block, Kernel.enqueue, Kernel.setQueue, Kernel.fork, oneTask, boot, Pc.held])
  have woken := step (step drained (.wakeNext ⟨rfl, rfl, rfl⟩) trivial)
    (.sched (.push rfl rfl) trivial) trivial
  have ended := step (step woken (.wakeDone ⟨rfl, rfl, rfl⟩) trivial)
    (.zombie ⟨rfl, rfl, rfl⟩) trivial
  exact ⟨_, ended, by decide, by decide, rfl, reach_not_stuck ended 1 2⟩

end Kernel

end AlexOS
