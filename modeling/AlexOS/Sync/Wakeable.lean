import AlexOS.Sync.Tokens

/-!
# Blocked tasks stay within reach

Every step of the kernel keeps the tokens in order, so in every run a blocked
task has an entry in its queue or is in the hands of a waker.
-/

namespace AlexOS

namespace Kernel

section
variable {k : Kernel} {tok : Nat → Token} {place : Nat → Sched.Place}

/-- `waitpid` returns, having reaped at most one child, or finds no zombie and waits. -/
theorem scan_cases (k : Kernel) (me : Nat) (want : Int) :
    (∃ cs, (∀ c ∈ cs, c ∈ k.children me) ∧ k.scan me want =
      { k.goto (some me) .run with children := Function.update k.children me cs }) ∨
    ((∀ c ∈ k.children me, isMatch want c = true → k.isZombie c = false) ∧
      k.scan me want = k.goto (some me) (.wait (.childExit me) (.waitpid want))) := by
  rw [Kernel.scan]
  by_cases hfound : ((k.children me).any fun c => isMatch want c && k.isZombie c) = true
  · left
    simp only [hfound, if_true]
    exact ⟨_, fun c hc => List.mem_of_mem_eraseP hc, rfl⟩
  · simp only [hfound]
    by_cases hany : anyChildren want (k.children me) = true
    · right
      simp only [hany, if_true]
      exact ⟨by simpa using hfound, rfl⟩
    · left
      simp only [hany]
      exact ⟨k.children me, fun _ hc => hc, by simp [Kernel.goto]⟩

/-- The scheduler under a step takes a step of its own, or none. -/
theorem Step.sched_step {k' : Kernel} {op : Op} (hs : Step k op k') (h : Inv k tok) :
    k'.sched = k.sched ∨ ∃ o, Sched.Step k.sched o k'.sched := by
  cases hs with
  | sched hstep _ => exact .inr ⟨_, hstep⟩
  | block ha => exact .inr ⟨_, .blockCurrent ha.runs⟩
  | @wakeNext c q u us a ha =>
    have hheld : tok u = .held q c := by
      rw [← h.mem_held, ha.2.2]
      simp [Pc.held]
    exact .inr ⟨_, .wake ha.1 ha.2.1 (h.known (by simp [hheld]))⟩
  | fork ha ht => exact .inr ⟨_, .admitTask ha.runs ht⟩
  | zombie ha => exact .inr ⟨_, .exitCurrent ha.runs⟩
  | @scan me want _ =>
    rcases scan_cases k me want with ⟨cs, _, hscan⟩ | ⟨_, hscan⟩ <;> exact .inl (by rw [hscan]; rfl)
  | _ => exact .inl rfl

theorem Step.inv {k' : Kernel} {op : Op} (hs : Step k op k') (hsched : Sched.Inv k.sched place)
    (h : Inv k tok) : ∃ tok', Inv k' tok' := by
  cases hs with
  | @sched op s hstep hallow =>
    have hquiet := hstep.quiet hsched (by cases op <;> trivial) fun u hu => h.new hu
    exact ⟨tok, h.quiet hquiet⟩
  | wait ha | waitUntil ha | waitpid ha | exit ha | orphan ha _ =>
    exact ⟨tok, h.goto hsched ha trivial trivial⟩
  | check ha =>
    refine ⟨tok, h.goto hsched ha trivial ?_⟩
    split <;> trivial
  | enqueue ha => exact ⟨_, h.enqueue hsched ha⟩
  | block ha => exact ⟨_, h.block hsched ha⟩
  | unpark ha => exact ⟨tok, h.unpark hsched ha⟩
  | @signal c n ha =>
    have hgoto : Inv (k.goto c (.signalled n)) tok := h.goto hsched ha trivial trivial
    exact ⟨tok, hgoto.queues, hgoto.held, hgoto.pending, hgoto.fits, hgoto.fresh⟩
  | reset ha => exact ⟨tok, h.queues, h.held, h.pending, h.fits, h.fresh⟩
  | wakeOne ha | wakeAll ha =>
    rcases ha with ha | ha
    · exact ⟨_, h.take hsched ha trivial _ _ _⟩
    · exact ⟨_, h.take hsched ha trivial _ _ _⟩
  | wakeNext ha => exact ⟨_, h.wakeNext ha⟩
  | wakeDone ha => exact ⟨tok, h.goto hsched ha rfl (After.next_plain _)⟩
  | fork _ ht => exact ⟨tok, h.fork ht⟩
  | @scan me want ha =>
    refine ⟨tok, ?_⟩
    rcases scan_cases k me want with ⟨cs, _, hscan⟩ | ⟨_, hscan⟩ <;> rw [hscan]
    · have hgoto : Inv (k.goto (some me) .run) tok := h.goto hsched ha trivial trivial
      exact ⟨hgoto.queues, hgoto.held, hgoto.pending, hgoto.fits, hgoto.fresh⟩
    · exact h.goto hsched ha trivial trivial
  | drain ha _ => exact ⟨_, h.take hsched ha trivial _ _ _⟩
  | zombie ha => exact ⟨tok, h.zombie hsched ha⟩

theorem Reach.inv (h : Reach system k) :
    (∃ place, Sched.Inv k.sched place) ∧ ∃ tok, Inv k tok := by
  refine Reach.invariant (fun k => (∃ place, Sched.Inv k.sched place) ∧ ∃ tok, Inv k tok)
    ?_ ?_ h
  · rintro k rfl
    exact ⟨⟨_, Sched.Inv.boot⟩, _, Inv.boot⟩
  · rintro k op k' ⟨⟨place, hsched⟩, tok, inv⟩ hs
    refine ⟨?_, hs.inv hsched inv⟩
    rcases hs.sched_step inv with same | ⟨o, hstep⟩
    · exact ⟨place, same ▸ hsched⟩
    · exact hstep.inv hsched

end

/-! ## Every run -/

/-- In `wait` on this queue, from the push on. -/
def Waits (k : Kernel) (t : Nat) (q : Queue) : Prop :=
  ∃ a, k.pc (some t) = .enqueued q a ∨ k.pc (some t) = .parked q a

/-- A waker has popped the task off the queue and has yet to wake it. -/
def Popped (k : Kernel) (t : Nat) (q : Queue) : Prop :=
  ∃ c us a, k.pc c = .waking q us a ∧ t ∈ us

structure Wakeable (k : Kernel) : Prop where
  once : ∀ t q, (k.queues q).count t ≤ 1
  oneQueue : ∀ t q q', t ∈ k.queues q → t ∈ k.queues q' → q = q'
  blocked : ∀ t, (k.sched.inner t).state = .blocked →
    ∃ q, k.Waits t q ∧ (t ∈ k.queues q ∨ k.Popped t q)
  enqueued : ∀ t q a, k.pc (some t) = .enqueued q a →
    t ∈ k.queues q ∨ k.Popped t q ∨ (k.sched.inner t).wakeupPending = true
  outside : ∀ t, (∀ q, ¬k.Waits t q) → ∀ q, t ∉ k.queues q
  returned : ∀ t q a, k.Acts (some t) (.parked q a) → ∀ q', t ∉ (k.unpark t q a).queues q'
  woken : ∀ c q t us a, k.Acts c (.waking q (t :: us) a) →
    if (k.sched.inner t).state = .blocked
    then ((k.wakeNext c q t us a).sched.inner t).state = .ready
    else ((k.wakeNext c q t us a).sched.inner t).wakeupPending = true
  honoured : ∀ t q a, k.Acts (some t) (.enqueued q a) →
    (k.sched.inner t).wakeupPending = true → ((k.block t q a).sched.inner t).state = .ready

section
variable {k : Kernel} {tok : Nat → Token} {place : Nat → Sched.Place} {t : Nat} {q : Queue}

theorem Inv.popped (h : Inv k tok) {c : Ctx} (ht : tok t = .held q c) : k.Popped t q := by
  rw [← h.mem_held] at ht
  cases hpc : k.pc c with
  | waking r us a =>
    by_cases hr : r = q
    · subst hr
      exact ⟨c, us, a, hpc, by simpa [hpc, Pc.held] using ht⟩
    · simp [hpc, Pc.held, hr] at ht
  | _ => simp [hpc, Pc.held] at ht

theorem Inv.blocked_waits (h : Inv k tok) (ht : (k.sched.inner t).state = .blocked) :
    ∃ q a, k.pc (some t) = .parked q a ∧ (t ∈ k.queues q ∨ k.Popped t q) := by
  have hfits := h.fits t
  cases hpc : k.pc (some t) with
  | parked q a =>
    rw [hpc, Token.Fits, if_pos ht] at hfits
    refine ⟨q, a, rfl, ?_⟩
    rcases hfits.1 with hin | ⟨c, hin⟩
    · exact .inl (h.mem_queue.mpr hin)
    · exact .inr (h.popped hin)
  | _ => simp [hpc, Token.Fits, ht] at hfits

theorem Inv.queue_waits (h : Inv k tok) (ht : t ∈ k.queues q) : k.Waits t q := by
  have hfits := h.fits t
  rw [h.mem_queue.mp ht] at hfits
  cases hpc : k.pc (some t) with
  | enqueued r a =>
    rw [hpc] at hfits
    obtain rfl : q = r := by simpa using hfits.1
    exact ⟨a, .inl hpc⟩
  | parked r a =>
    rw [hpc, Token.Fits] at hfits
    by_cases hst : (k.sched.inner t).state = .blocked
    · rw [if_pos hst] at hfits
      obtain rfl : q = r := by simpa using hfits.1
      exact ⟨a, .inr hpc⟩
    · simp [hst] at hfits
  | _ => simp [hpc, Token.Fits] at hfits

theorem Inv.wakeable (h : Inv k tok) (hs : Sched.Inv k.sched place) : Wakeable k where
  once t q := by rw [h.queues]; split <;> omega
  oneQueue t q q' hq hq' := by
    have hqueued := h.mem_queue.mp hq
    rw [h.mem_queue.mp hq'] at hqueued
    simpa using hqueued.symm
  blocked t ht := by
    obtain ⟨q, a, hpc, hin⟩ := h.blocked_waits ht
    exact ⟨q, ⟨a, .inr hpc⟩, hin⟩
  enqueued t q a hpc := by
    have hfits := h.fits t
    rw [hpc] at hfits
    rcases hfits.1 with hin | ⟨c, hin⟩ | hin
    · exact .inl (h.mem_queue.mpr hin)
    · exact .inr (.inl (h.popped hin))
    · exact .inr (.inr ((h.pending t).mpr hin))
  outside t ht q hq := ht q (h.queue_waits hq)
  returned t q a ha q' := by
    have hunpark := h.unpark hs ha
    rw [hunpark.mem_queue, h.unparked hs ha]
    simp
  woken c q t us a _ := by
    by_cases hst : (k.sched.inner t).state = .blocked <;>
      simp [hst, Kernel.wakeNext, Sched.wake, Sched.modify]
  honoured t q a ha hflag := by
    simp [Kernel.block, Sched.switchToIdle, (ha.running hs).1, Sched.modify, TaskInner.settle_state,
      hflag]

end

/-- In every run, whoever is blocked can be reached by a waker. -/
theorem reach_wakeable {k : Kernel} (h : Reach system k) : Wakeable k := by
  obtain ⟨⟨place, hsched⟩, tok, inv⟩ := Reach.inv h
  exact inv.wakeable hsched

theorem wakeable_when_blocked : ∃ k, Reach system k ∧ (k.sched.inner 1).state = .blocked ∧
    1 ∈ k.queues (.named 0) ∧ Wakeable k := by
  have booted : Reach system boot := .init rfl
  have admitted := booted.step _ (Step.sched (Sched.Step.bootAdmit (t := 1) rfl rfl (by decide))
    (by intro me; simp [boot, Sched.boot]))
  have runs := ((admitted.step _ (.sched (.enter rfl rfl) trivial)).step _
    (.sched (.previous rfl) trivial)).step _ (.sched (.next rfl) trivial)
  have waits := runs.step _ (@Step.wait _ 1 0 ⟨rfl, rfl, rfl⟩)
  have queued := waits.step _ (.enqueue ⟨rfl, rfl, rfl⟩)
  have blocked := queued.step _ (.block ⟨rfl, rfl, rfl⟩)
  exact ⟨_, blocked, rfl, by decide, reach_wakeable blocked⟩

end Kernel

end AlexOS
