import AlexOS.Sync.Wakeable

/-!
# `wait_until` and the wakeup it can lose

`wait_until` checks its condition, pushes the task on the queue and blocks. The
`wakeup_pending` flag covers a wake between the push and the block. Nothing
covers one between the check and the push: the waker finds the queue empty, and
the task then sleeps on a condition that is already true.
-/

namespace AlexOS

/-- Inside a wait on the named queue. -/
def Pc.On (n : Nat) : Pc → Prop
  | .untilTop m => m = n
  | .wait q _ | .enqueued q _ | .parked q _ => q = .named n
  | _ => False

namespace Kernel

/-- Only `w` waits on queue `n`, and only through `wait_until`. -/
def Alone (w n : Nat) (k : Kernel) : Op → Prop
  | .wait m => m ≠ n
  | .waitUntil m => m = n → k.sched.current = some w
  | _ => True

/-- No wake call takes the waiters of a queue whose condition is true while `w` is
between a check that came out false and its push. -/
def NoGap (w n : Nat) (k : Kernel) : Op → Prop
  | .wakeOne m | .wakeAll m => m = n → k.cond n = true → ∀ a, k.pc (some w) ≠ .wait (.named n) a
  | _ => True

/-- The condition holds, whoever made it true has finished its wake call, and the
task sleeps. -/
structure Lost (k : Kernel) (w n : Nat) : Prop where
  cond : k.cond n = true
  finished : ∀ c, k.pc c ≠ .signalled n ∧ ∀ us a, k.pc c ≠ .waking (.named n) us a
  parked : ∃ a, k.pc (some w) = .parked (.named n) a
  blocked : (k.sched.inner w).state = .blocked
  flag : (k.sched.inner w).wakeupPending = false

/-- While the condition is true and the task is about to queue itself, or queued,
somebody still owes the queue a wake call. -/
def Owed (w n : Nat) (k : Kernel) : Prop :=
  k.cond n = true → (∃ a, k.pc (some w) = .wait (.named n) a) ∨ w ∈ k.queues (.named n) →
    ∃ c, k.pc c = .signalled n

def OnlyOn (w n : Nat) (k : Kernel) : Prop := ∀ t, (k.pc (some t)).On n → t = w

section
variable {k : Kernel} {w n : Nat} {c : Ctx} {p r : Pc}

theorem OnlyOn.goto (h : OnlyOn w n k) (hp : k.pc c = p) (hr : r.On n → p.On n ∨ c = some w) :
    OnlyOn w n (k.goto c r) := by
  intro t ht
  by_cases hc : some t = c
  · subst hc
    simp only [Kernel.goto, Function.update_self] at ht
    rcases hr ht with hon | hw
    · exact h t (hp ▸ hon)
    · simpa using hw
  · exact h t (by simpa [Kernel.goto, hc] using ht)

theorem Owed.goto (h : Owed w n k) (hp : k.pc c = p) (hsig : p ≠ .signalled n)
    (hwait : ∀ a, r ≠ .wait (.named n) a) : Owed w n (k.goto c r) := by
  intro hcond hwaits
  have hbefore : (∃ a, k.pc (some w) = .wait (.named n) a) ∨ w ∈ k.queues (.named n) := by
    refine hwaits.imp_left ?_
    rintro ⟨a, ha⟩
    by_cases hc : some w = c
    · simp [Kernel.goto, hc, hwait] at ha
    · exact ⟨a, by simpa [Kernel.goto, hc] using ha⟩
  obtain ⟨d, hd⟩ := h hcond hbefore
  have hne : d ≠ c := by
    rintro rfl
    exact hsig (hp ▸ hd)
  exact ⟨d, by simpa [Kernel.goto, hne] using hd⟩

/-- A queue that loses waiters owes no more than before. -/
theorem Owed.setQueue (h : Owed w n k) {q : Queue} {ts : List Nat}
    (hts : ∀ t ∈ ts, t ∈ k.queues q) :
    Owed w n (k.setQueue q ts) := by
  intro hcond hwaits
  refine h hcond (hwaits.imp_right fun hw => ?_)
  by_cases hq : Queue.named n = q
  · subst hq
    exact hts w (by simpa [Kernel.setQueue] using hw)
  · simpa [Kernel.setQueue, hq] using hw

theorem Owed.take (h : Owed w n k) (hp : k.pc c = p) (hsig : p ≠ .signalled n) (q : Queue) (j : Nat)
    (a : After) : Owed w n (k.take c q j a) :=
  (h.setQueue fun _ ht => List.mem_of_mem_drop ht).goto hp hsig (by simp)

/-- A wake call on the queue finds its only waiter there. -/
theorem Owed.take_all (hpc : k.cond n = true → ∀ a, k.pc (some w) ≠ .wait (.named n) a) {j : Nat}
    (hdrop : (k.queues (.named n)).drop j = []) : Owed w n (k.take c (.named n) j .run) := by
  intro hcond hwaits
  exfalso
  rcases hwaits with ⟨a, ha⟩ | hw
  · by_cases hc : some w = c
    · simp [Kernel.take, Kernel.goto, hc] at ha
    · exact hpc hcond a (by simpa [Kernel.take, Kernel.setQueue, Kernel.goto, hc] using ha)
  · simp [Kernel.take, Kernel.setQueue, Kernel.goto, hdrop] at hw

theorem OnlyOn.step {k' : Kernel} {op : Op} (hs : Step k op k') (hop : Alone w n k op)
    (h : OnlyOn w n k) : OnlyOn w n k' := by
  cases hs with
  | sched _ _ => exact h
  | wait ha => exact h.goto ha.2.2 fun hon => absurd (by simpa [Pc.On] using hon) hop
  | @waitUntil me m ha =>
    refine h.goto ha.2.2 fun hon => .inr ?_
    have hcur := hop hon
    rw [(Sched.actor_current ha.1).2.2] at hcur
    exact hcur
  | check ha =>
    refine h.goto ha.2.2 fun hon => .inl ?_
    split at hon
    · exact hon.elim
    · simpa [Pc.On] using hon
  | enqueue ha => exact OnlyOn.goto h ha.2.2 .inl
  | block ha => exact OnlyOn.goto h ha.2.2 .inl
  | @unpark me q a ha =>
    refine OnlyOn.goto h ha.2.2 fun hon => .inl ?_
    cases a <;> cases q <;> simp_all [Caller.next, Pc.On]
  | signal ha => exact OnlyOn.goto h ha.2.2 False.elim
  | reset _ => exact h
  | wakeOne ha => rcases ha with ha | ha <;> exact OnlyOn.goto h ha.2.2 False.elim
  | wakeAll ha => rcases ha with ha | ha <;> exact OnlyOn.goto h ha.2.2 False.elim
  | wakeNext ha => exact OnlyOn.goto h ha.2.2 False.elim
  | @wakeDone _ _ a ha => exact h.goto ha.2.2 fun hon => by cases a <;> exact hon.elim
  | fork _ _ => exact h
  | waitpid ha => exact h.goto ha.2.2 False.elim
  | @scan me want ha =>
    rcases scan_cases k me want with ⟨cs, _, hscan⟩ | ⟨_, hscan⟩ <;> rw [hscan]
    · exact OnlyOn.goto h ha.2.2 False.elim
    · exact h.goto ha.2.2 fun hon => by simp [Pc.On] at hon
  | exit ha => exact h.goto ha.2.2 False.elim
  | drain ha _ => exact OnlyOn.goto h ha.2.2 False.elim
  | orphan ha _ => exact h.goto ha.2.2 False.elim
  | zombie _ => exact h

/-- The queue holds at most its one waiter. -/
theorem OnlyOn.queue_le (h : OnlyOn w n k) {tok : Nat → Token} (inv : Inv k tok) :
    (k.queues (.named n)).length ≤ 1 := by
  have hall : ∀ t ∈ k.queues (.named n), t = w := by
    intro t ht
    obtain ⟨a, hpc | hpc⟩ := inv.queue_waits ht
    · exact h t (by simp [hpc, Pc.On])
    · exact h t (by simp [hpc, Pc.On])
  rw [List.eq_replicate_of_mem hall, List.length_replicate]
  have hnodup := inv.nodup (.named n)
  rw [List.eq_replicate_of_mem hall] at hnodup
  exact List.nodup_replicate.mp hnodup

theorem Owed.wake {j : Nat} {m : Nat} (h : Owed w n k)
    (ha : k.Acts c .run ∨ k.Acts c (.signalled m))
    (hop : m = n → k.cond n = true → ∀ a, k.pc (some w) ≠ .wait (.named n) a)
    (hdrop : m = n → (k.queues (.named n)).drop j = []) :
    Owed w n (k.take c (.named m) j .run) := by
  by_cases hm : m = n
  · subst hm
    exact Owed.take_all (hop rfl) (hdrop rfl)
  · rcases ha with ha | ha
    · exact h.take ha.2.2 (by simp) _ _ _
    · exact h.take ha.2.2 (by simpa using hm) _ _ _

theorem Owed.enqueue (h : Owed w n k) {me : Nat} {q : Queue} {a : Caller}
    (ha : k.Acts (some me) (.wait q a)) : Owed w n (k.enqueue me q a) := by
  intro hcond hwaits
  have hbefore : (∃ a, k.pc (some w) = .wait (.named n) a) ∨ w ∈ k.queues (.named n) := by
    rcases hwaits with ⟨b, hb⟩ | hw
    · by_cases hme : w = me
      · simp [Kernel.enqueue, Kernel.goto, hme] at hb
      · exact .inl ⟨b, by simpa [Kernel.enqueue, Kernel.setQueue, Kernel.goto, hme] using hb⟩
    · by_cases hq : Queue.named n = q
      · subst hq
        have hin : w ∈ k.queues (.named n) ∨ w = me := by
          simpa [Kernel.enqueue, Kernel.setQueue, Kernel.goto] using hw
        rcases hin with hin | rfl
        · exact .inr hin
        · exact .inl ⟨a, ha.2.2⟩
      · exact .inr (by simpa [Kernel.enqueue, Kernel.setQueue, Kernel.goto, hq] using hw)
  obtain ⟨d, hd⟩ := h hcond hbefore
  have hne : d ≠ some me := by
    rintro rfl
    simp [ha.2.2] at hd
  exact ⟨d, by simpa [Kernel.enqueue, Kernel.setQueue, Kernel.goto, hne] using hd⟩

theorem Owed.step {k' : Kernel} {op : Op} {tok : Nat → Token} (hs : Step k op k')
    (halone : Alone w n k op) (hgap : NoGap w n k op) (inv : Inv k tok) (only : OnlyOn w n k)
    (h : Owed w n k) : Owed w n k' := by
  have hone := only.queue_le inv
  cases hs with
  | sched _ _ => exact h
  | wait ha =>
    refine h.goto ha.2.2 (by simp) fun a e => halone ?_
    simp only [Pc.wait.injEq, Queue.named.injEq] at e
    exact e.1
  | waitUntil ha | waitpid ha | exit ha | orphan ha _ =>
    exact h.goto ha.2.2 (by simp) (by simp)
  | @check me m ha =>
    by_cases hm : m = n
    · subst hm
      by_cases hcond : k.cond m = true
      · exact h.goto ha.2.2 (by simp) (by simp [hcond])
      · exact fun hc => absurd hc hcond
    · refine h.goto ha.2.2 (by simp) fun a => ?_
      split <;> simp [hm]
  | enqueue ha => exact h.enqueue ha
  | block ha => exact Owed.goto h ha.2.2 (by simp) (by simp)
  | @unpark me q a ha =>
    refine Owed.goto (h.setQueue fun t ht => List.mem_of_mem_erase ht) ha.2.2 (by simp) ?_
    cases a <;> cases q <;> simp [Caller.next]
  | @signal d m ha =>
    by_cases hm : m = n
    · subst hm
      exact fun _ _ => ⟨d, by simp [Kernel.goto]⟩
    · have hset : Owed w n (k.setCond m true) := fun hc => h (by
        simpa [Kernel.setCond, Ne.symm hm] using hc)
      exact hset.goto ha.2.2 (by simp) (by simp)
  | @reset d m ha =>
    intro hc hwaits
    by_cases hm : n = m
    · simp [Kernel.setCond, hm] at hc
    · exact h (by simpa [Kernel.setCond, hm] using hc) hwaits
  | wakeOne ha => exact h.wake ha hgap fun _ => List.drop_eq_nil_of_le hone
  | wakeAll ha =>
    exact h.wake ha hgap fun hm => List.drop_eq_nil_of_le (Nat.le_of_eq (by rw [hm]))
  | wakeNext ha => exact Owed.goto h ha.2.2 (by simp) (by simp)
  | @wakeDone _ _ a ha => exact h.goto ha.2.2 (by simp) (by cases a <;> simp [After.next])
  | fork _ _ => exact h
  | @scan me want ha =>
    rcases scan_cases k me want with ⟨cs, _, hscan⟩ | ⟨_, hscan⟩ <;> rw [hscan]
    · exact Owed.goto h ha.2.2 (by simp) (by simp)
    · exact h.goto ha.2.2 (by simp) (by simp)
  | drain ha _ => exact h.take ha.2.2 (by simp) _ _ _
  | zombie _ => exact h

end

theorem Reach.owed {k : Kernel} {w n : Nat}
    (h : Reach (system.guard fun k op => Alone w n k op ∧ NoGap w n k op) k) :
    Reach system k ∧ OnlyOn w n k ∧ Owed w n k := by
  refine Reach.invariant (fun k => Reach system k ∧ OnlyOn w n k ∧ Owed w n k) ?_ ?_ h
  · rintro k rfl
    exact ⟨.init rfl, fun t ht => ht.elim, by simp [Owed, boot]⟩
  · rintro k op k' ⟨hreach, only, owed⟩ ⟨hs, halone, hgap⟩
    obtain ⟨_, tok, inv⟩ := Reach.inv hreach
    exact ⟨hreach.step op hs, only.step hs halone, owed.step hs halone hgap inv only⟩

/-- Without a wake in the gap, `wait_until` loses none. -/
theorem reach_not_lost {k : Kernel} {w n : Nat}
    (h : Reach (system.guard fun k op => Alone w n k op ∧ NoGap w n k op) k) : ¬Lost k w n := by
  obtain ⟨hreach, _, owed⟩ := Reach.owed h
  obtain ⟨_, tok, inv⟩ := Reach.inv hreach
  intro lost
  obtain ⟨b, hparked⟩ := lost.parked
  obtain ⟨q, a, hpc, hin⟩ := inv.blocked_waits lost.blocked
  obtain ⟨rfl, rfl⟩ : q = .named n ∧ a = b := by simpa [hpc] using hparked
  rcases hin with hqueue | ⟨c, us, a, hc, _⟩
  · obtain ⟨c, hc⟩ := owed lost.cond (.inr hqueue)
    exact (lost.finished c).1 hc
  · exact (lost.finished c).2 us a hc

/-- The kernel once the idle loop has picked its only task. -/
def oneTask : Kernel :=
  { boot with sched := ({ Sched.boot.admitTask 1 with phase := .idleTop }).runPrevious.runNext }

theorem reach_oneTask {S : System Kernel Op} (h : S.init boot)
    (next : ∀ {k op k'}, Reach S k → Step k (.sched op) k' → Reach S k') : Reach S oneTask := by
  have admitted := next (.init h) (.sched (.bootAdmit (t := 1) rfl rfl (by decide))
    (by intro me; simp [boot, Sched.boot]))
  exact next (next (next admitted (.sched (.enter rfl rfl) trivial))
    (.sched (.previous rfl) trivial)) (.sched (.next rfl) trivial)

/-- An interrupt between the check and the push: the handler makes the condition
true and wakes an empty queue. -/
theorem gap_loses : ∃ k, Reach (system.guard (Alone 1 0)) k ∧ Lost k 1 0 := by
  have step : ∀ {k op k'}, Reach (system.guard (Alone 1 0)) k → Step k op k' → Alone 1 0 k op →
      Reach (system.guard (Alone 1 0)) k' := fun h hs ha => h.step _ ⟨hs, ha⟩
  have runs := reach_oneTask (S := system.guard (Alone 1 0)) rfl fun h hs => step h hs trivial
  have checked := step (step runs (@Step.waitUntil _ 1 0 ⟨rfl, rfl, rfl⟩) fun _ => rfl)
    (.check ⟨rfl, rfl, rfl⟩) trivial
  have handler := step checked (.sched (.interrupt rfl (.inr (.inl rfl))) trivial) trivial
  have signalled := step handler (.signal (c := none) (n := 0) ⟨rfl, rfl, rfl⟩) trivial
  have woken := step (step signalled (.wakeAll (n := 0) (.inr ⟨rfl, rfl, rfl⟩)) trivial)
    (.wakeDone ⟨rfl, rfl, rfl⟩) trivial
  have back := step woken (.sched (.iret rfl rfl) rfl) trivial
  have blocked := step (step back (.enqueue ⟨rfl, rfl, rfl⟩) trivial)
    (.block ⟨rfl, rfl, rfl⟩) trivial
  refine ⟨_, blocked, rfl, fun c => ?_, ⟨_, rfl⟩, rfl, rfl⟩
  rcases c with _ | t
  · exact ⟨by decide, fun us a e => (nomatch e)⟩
  · by_cases ht : t = 1 <;> simp [Kernel.block, Kernel.enqueue, Kernel.goto, Kernel.setQueue,
      Kernel.wakeAll, Kernel.take, Kernel.setCond, Kernel.check, oneTask, boot, ht]

/-- The same handler, once the task is on the queue. -/
theorem not_lost_once_queued : ∃ k,
    Reach (system.guard fun k op => Alone 1 0 k op ∧ NoGap 1 0 k op) k ∧ k.cond 0 = true ∧
    k.pc none = .waking (.named 0) [1] .run ∧ ¬Lost k 1 0 := by
  obtain ⟨S, hS⟩ : ∃ S, S = system.guard fun k op => Alone 1 0 k op ∧ NoGap 1 0 k op := ⟨_, rfl⟩
  have step : ∀ {k op k'}, Reach S k → Step k op k' → Alone 1 0 k op ∧ NoGap 1 0 k op →
      Reach S k' := fun h hs ha => h.step _ (by rw [hS]; exact ⟨hs, ha⟩)
  have runs := reach_oneTask (S := S) (by rw [hS]; rfl) fun h hs => step h hs ⟨trivial, trivial⟩
  have checked := step (step runs (@Step.waitUntil _ 1 0 ⟨rfl, rfl, rfl⟩)
    ⟨fun _ => rfl, trivial⟩) (.check ⟨rfl, rfl, rfl⟩) ⟨trivial, trivial⟩
  have queued := step checked (.enqueue ⟨rfl, rfl, rfl⟩) ⟨trivial, trivial⟩
  have handler := step queued (.sched (.interrupt rfl (.inr (.inl rfl))) trivial) ⟨trivial, trivial⟩
  have signalled := step handler (.signal (c := none) (n := 0) ⟨rfl, rfl, rfl⟩) ⟨trivial, trivial⟩
  have woken := step signalled (.wakeAll (n := 0) (.inr ⟨rfl, rfl, rfl⟩))
    ⟨trivial, fun _ _ a => by simp [Kernel.goto, Kernel.setCond, Kernel.enqueue]⟩
  rw [hS] at woken
  exact ⟨_, woken, rfl, rfl, reach_not_lost woken⟩

end Kernel

end AlexOS
