import AlexOS.Sync.Wait
import AlexOS.Task.Quiet
import Mathlib.Data.List.Nodup

/-!
# One wakeup for every wait

A task that has queued itself on a wait queue holds one token until it is woken:
its entry in the queue, or its place in the list of a waker that popped it, or
its `wakeup_pending` flag. No other task has a token, and a blocked task's token
is never the flag.
-/

namespace AlexOS

/-- The tasks taken off queue `q` and not yet woken. -/
def Pc.held (q : Queue) : Pc → List Nat
  | .waking q' us _ => if q' = q then us else []
  | _ => []

/-- Outside `wait` from the push on, with nobody in hand. -/
def Pc.Plain : Pc → Prop
  | .enqueued _ _ | .parked _ _ => False
  | .waking _ us _ => us = []
  | _ => True

theorem Pc.Plain.held {p : Pc} (h : p.Plain) (q : Queue) : p.held q = [] := by
  cases p <;> simp_all [Pc.held, Pc.Plain]

theorem Caller.next_plain (a : Caller) (q : Queue) : (a.next q).Plain := by
  cases a <;> cases q <;> simp [Caller.next, Pc.Plain]

theorem After.next_plain (a : After) : a.next.Plain := by
  cases a <;> simp [After.next, Pc.Plain]

inductive Token where
  | none
  | queued (q : Queue)
  | held (q : Queue) (c : Ctx)
  | pending
deriving DecidableEq

/-- The token a task has at a program point, and the states it can be in. -/
def Token.Fits (tok : Token) (p : Pc) (st : TaskState) : Prop :=
  match p with
  | .enqueued q _ => (tok = .queued q ∨ (∃ c, tok = .held q c) ∨ tok = .pending) ∧
      st ≠ .blocked ∧ st ≠ .zombie
  | .parked q _ => (if st = .blocked then tok = .queued q ∨ ∃ c, tok = .held q c else tok = .none) ∧
      st ≠ .zombie
  | p => tok = .none ∧ st ≠ .blocked ∧ (st = .zombie → p = .leaving)

theorem Token.Fits.congr {tok : Token} {p : Pc} {st st' : TaskState} (h : tok.Fits p st)
    (hb : st' = .blocked ↔ st = .blocked) (hz : st' = .zombie ↔ st = .zombie) : tok.Fits p st' := by
  cases p <;> simpa only [Token.Fits, hb, hz, ne_eq] using h

theorem Token.fits_plain {tok : Token} {p : Pc} {st : TaskState} (h : p.Plain) :
    tok.Fits p st ↔ tok = .none ∧ st ≠ .blocked ∧ (st = .zombie → p = .leaving) := by
  cases p <;> simp_all [Token.Fits, Pc.Plain]

/-- A waker takes the entry of a task wherever that task is in `wait`. -/
theorem Token.Fits.taken {q : Queue} {p : Pc} {st : TaskState} {c : Ctx}
    (h : (Token.queued q).Fits p st) : (Token.held q c).Fits p st := by
  cases p with
  | enqueued r a =>
    obtain ⟨hin, hst⟩ := h
    obtain rfl : q = r := by simpa using hin
    exact ⟨.inr (.inl ⟨c, rfl⟩), hst⟩
  | parked r a =>
    by_cases hb : st = .blocked <;> simp_all [Token.Fits]
  | _ => simp [Token.Fits] at h

theorem Token.Fits.woken {q : Queue} {p : Pc} {st : TaskState} {c : Ctx}
    (h : (Token.held q c).Fits p st) (hst : st = .blocked) : Token.none.Fits p .ready := by
  cases p <;> simp_all [Token.Fits]

theorem Token.Fits.flagged {q : Queue} {p : Pc} {st : TaskState} {c : Ctx}
    (h : (Token.held q c).Fits p st) (hst : st ≠ .blocked) : Token.pending.Fits p st := by
  cases p <;> simp_all [Token.Fits]

namespace Kernel

structure Inv (k : Kernel) (tok : Nat → Token) : Prop where
  queues : ∀ q t, (k.queues q).count t = if tok t = .queued q then 1 else 0
  held : ∀ q c t, ((k.pc c).held q).count t = if tok t = .held q c then 1 else 0
  pending : ∀ t, (k.sched.inner t).wakeupPending = true ↔ tok t = .pending
  fits : ∀ t, (tok t).Fits (k.pc (some t)) (k.sched.inner t).state
  fresh : ∀ t, t ∉ k.sched.allTasks → k.pc (some t) = .run

section
variable {k : Kernel} {tok : Nat → Token} {place : Nat → Sched.Place}
  {me t : Nat} {c : Ctx} {p : Pc}

theorem Inv.boot : Inv boot fun _ => .none := by
  constructor <;> simp [Kernel.boot, Pc.held, Token.Fits, Sched.boot, TaskInner.new]

theorem Inv.mem_queue (h : Inv k tok) {q : Queue} : t ∈ k.queues q ↔ tok t = .queued q := by
  rw [← List.count_pos_iff, h.queues]
  split <;> simp_all

theorem Inv.mem_held (h : Inv k tok) {q : Queue} : t ∈ (k.pc c).held q ↔ tok t = .held q c := by
  rw [← List.count_pos_iff, h.held]
  split <;> simp_all

theorem Inv.new (h : Inv k tok) (ht : t ∉ k.sched.allTasks) :
    (k.sched.inner t).state ≠ .blocked ∧ (k.sched.inner t).state ≠ .zombie ∧
      (k.sched.inner t).wakeupPending = false := by
  have hfits := h.fits t
  rw [h.fresh t ht] at hfits
  obtain ⟨htok, hb, hz⟩ := hfits
  refine ⟨hb, fun e => by simpa using hz e, ?_⟩
  have hpending := h.pending t
  simpa [htok] using hpending

/-- A task with a token has been admitted. -/
theorem Inv.known (h : Inv k tok) (ht : tok t ≠ .none) : t ∈ k.sched.allTasks := by
  by_contra hne
  have hfits := h.fits t
  rw [h.fresh t hne] at hfits
  exact ht hfits.1

theorem Inv.quiet (h : Inv k tok) {s : Sched} (hs : Sched.Quiet k.sched s) :
    Inv { k with sched := s } tok := by
  refine ⟨h.queues, h.held, fun t => ?_, fun t => (h.fits t).congr (hs.blocked t) (hs.zombie t),
    fun t ht => h.fresh t fun hmem => ht (hs.tasks t hmem)⟩
  rw [hs.pending t]
  exact h.pending t

/-- The acting task runs. -/
theorem Acts.running (ha : k.Acts (some me) p) (hs : Sched.Inv k.sched place) :
    k.sched.current = some me ∧ me ∈ k.sched.allTasks ∧
      (k.sched.inner me).state = .running := by
  obtain ⟨_, _, hcur⟩ := Sched.actor_current ha.1
  exact ⟨hcur, hs.current_mem hcur, hs.state_running hcur⟩

theorem Acts.runs (ha : k.Acts (some me) p) : k.sched.Runs me := by
  obtain ⟨hirq, hphase, hcur⟩ := Sched.actor_current ha.1
  exact ⟨hirq, hphase, hcur, ha.2.1⟩

theorem Inv.goto (h : Inv k tok) (hs : Sched.Inv k.sched place) (ha : k.Acts c p) (hp : p.Plain)
    {p' : Pc} (hp' : p'.Plain) : Inv (k.goto c p') tok := by
  refine ⟨h.queues, fun q d t => ?_, h.pending, fun t => ?_, fun t ht => ?_⟩
  · by_cases hd : d = c
    · subst hd
      have hheld := h.held q d t
      rw [ha.2.2, hp.held q] at hheld
      simpa [Kernel.goto, hp'.held q] using hheld
    · simpa [Kernel.goto, hd] using h.held q d t
  · by_cases hd : some t = c
    · subst hd
      have hfits := h.fits t
      rw [ha.2.2, Token.fits_plain hp] at hfits
      simp only [Kernel.goto, Function.update_self, Token.fits_plain hp']
      exact ⟨hfits.1, hfits.2.1, by simp [(ha.running hs).2.2]⟩
    · simpa [Kernel.goto, hd] using h.fits t
  · by_cases hd : some t = c
    · subst hd
      exact absurd (ha.running hs).2.1 ht
    · simpa [Kernel.goto, hd] using h.fresh t ht

/-! ## One step -/

/-- Who is in hand does not change when a task moves between points without a list. -/
theorem held_goto {r : Pc} (hp : ∀ q, (k.pc c).held q = []) (hr : ∀ q, r.held q = []) (q : Queue)
    (d : Ctx) : ((k.goto c r).pc d).held q = (k.pc d).held q := by
  by_cases hd : d = c
  · subst hd; simp [Kernel.goto, hp, hr]
  · simp [Kernel.goto, hd]

/-- One task's token becomes `x`, the others keep theirs. -/
structure Moves (k k' : Kernel) (tok : Nat → Token) (t : Nat) (x : Token) : Prop where
  queues : ∀ q u, (k'.queues q).count u =
    if u = t then if x = .queued q then 1 else 0 else (k.queues q).count u
  held : ∀ q c u, ((k'.pc c).held q).count u =
    if u = t then if x = .held q c then 1 else 0 else ((k.pc c).held q).count u
  pending : (k'.sched.inner t).wakeupPending = true ↔ x = .pending
  others : ∀ u, u ≠ t → (k'.sched.inner u).wakeupPending = (k.sched.inner u).wakeupPending
  fits : x.Fits (k'.pc (some t)) (k'.sched.inner t).state
  fitsOthers : ∀ u, u ≠ t → (tok u).Fits (k'.pc (some u)) (k'.sched.inner u).state
  fresh : ∀ u, u ∉ k'.sched.allTasks → k'.pc (some u) = .run

theorem Inv.move {k' : Kernel} {x : Token} (h : Inv k tok) (m : Moves k k' tok t x) :
    Inv k' (Function.update tok t x) := by
  refine ⟨fun q u => ?_, fun q c u => ?_, fun u => ?_, fun u => ?_, m.fresh⟩ <;>
    by_cases hu : u = t
  · subst hu; simp [m.queues]
  · rw [m.queues, if_neg hu, Function.update_of_ne hu]; exact h.queues q u
  · subst hu; simp [m.held]
  · rw [m.held, if_neg hu, Function.update_of_ne hu]; exact h.held q c u
  · subst hu; simpa using m.pending
  · rw [m.others u hu, Function.update_of_ne hu]; exact h.pending u
  · subst hu; simpa using m.fits
  · rw [Function.update_of_ne hu]; exact m.fitsOthers u hu

theorem Inv.count_queue (h : Inv k tok) {x : Token} (ht : tok t = x) (q : Queue) :
    (k.queues q).count t = if x = .queued q then 1 else 0 := by rw [h.queues, ht]

theorem Inv.count_held (h : Inv k tok) {x : Token} (ht : tok t = x) (q : Queue) (c : Ctx) :
    ((k.pc c).held q).count t = if x = .held q c then 1 else 0 := by rw [h.held, ht]

theorem Inv.enqueue (h : Inv k tok) (hs : Sched.Inv k.sched place) {q : Queue} {a : Caller}
    (ha : k.Acts (some me) (.wait q a)) :
    Inv (k.enqueue me q a) (Function.update tok me (.queued q)) := by
  obtain ⟨_, hmem, hst⟩ := ha.running hs
  have hfits := h.fits me
  rw [ha.2.2] at hfits
  have hqueue := h.count_queue hfits.1
  have hheld := h.count_held hfits.1
  have hpending := h.pending me
  rw [hfits.1] at hpending
  have hsame := held_goto (k := k) (c := some me) (r := .enqueued q a) (by simp [ha.2.2, Pc.held])
    (by simp [Pc.held])
  refine h.move ⟨fun r u => ?_, fun r c u => ?_, ?_, fun _ _ => rfl, ?_, fun u hu => ?_,
    fun u hu => ?_⟩
  · by_cases hr : r = q
    · subst hr
      have hone : [me].count u = if u = me then 1 else 0 := by
        by_cases hu : u = me <;> simp [hu, Ne.symm]
      by_cases hu : u = me <;>
        simp_all [Kernel.enqueue, Kernel.setQueue, Kernel.goto, List.count_append]
    · by_cases hu : u = me <;>
        simp [Kernel.enqueue, Kernel.setQueue, Kernel.goto, hr, Ne.symm hr, hu, hqueue]
  · refine (congrArg (List.count u) (hsame r c)).trans ?_
    by_cases hu : u = me
    · subst hu; simpa using hheld r c
    · simp [hu]
  · simpa [Kernel.enqueue, Kernel.setQueue, Kernel.goto] using hpending
  · simp [Kernel.enqueue, Kernel.setQueue, Kernel.goto, Token.Fits, hst]
  · simpa [Kernel.enqueue, Kernel.setQueue, Kernel.goto, hu] using h.fits u
  · have hne : u ≠ me := fun e => hu (e ▸ hmem)
    simpa [Kernel.enqueue, Kernel.setQueue, Kernel.goto, hne] using h.fresh u hu

/-- A wakeup that came first is consumed; otherwise the task blocks with its token. -/
theorem Inv.block (h : Inv k tok) (hs : Sched.Inv k.sched place) {q : Queue} {a : Caller}
    (ha : k.Acts (some me) (.enqueued q a)) :
    Inv (k.block me q a)
      (Function.update tok me (if tok me = .pending then .none else tok me)) := by
  obtain ⟨hcur, hmem, hst⟩ := ha.running hs
  have hfits := h.fits me
  rw [ha.2.2] at hfits
  have hqueue := h.queues
  have hheld := h.held
  have hpending := h.pending me
  have hsame := held_goto (k := k) (c := some me) (r := .parked q a) (by simp [ha.2.2, Pc.held])
    (by simp [Pc.held])
  have hsched : (k.block me q a).sched.inner =
      Function.update k.sched.inner me (TaskInner.settle .blocked (k.sched.inner me)) := by
    simp [Kernel.block, Sched.switchToIdle, hcur, Sched.modify]
  have htasks : (k.block me q a).sched.allTasks = k.sched.allTasks := Sched.switchToIdle_tasks _
  refine h.move ⟨fun r u => ?_, fun r c u => ?_, ?_, fun u hu => ?_, ?_, fun u hu => ?_,
    fun u hu => ?_⟩
  · by_cases hu : u = me
    · subst hu
      by_cases hp : tok u = .pending <;> simp [Kernel.block, Kernel.goto, hqueue, hp]
    · simp [Kernel.block, Kernel.goto, hu]
  · refine (congrArg (List.count u) (hsame r c)).trans ?_
    by_cases hu : u = me
    · subst hu
      by_cases hp : tok u = .pending <;> simp [hheld, hp]
    · simp [hu]
  · rw [hsched, Function.update_self]
    by_cases hp : tok me = .pending
    · simp [TaskInner.settle, hpending.mpr hp, hp]
    · have hflag : (k.sched.inner me).wakeupPending = false := by
        simpa [hp] using hpending
      simp [TaskInner.settle, hflag, hp]
  · rw [hsched, Function.update_of_ne hu]
  · have hpc : (k.block me q a).pc (some me) = .parked q a := by simp [Kernel.block, Kernel.goto]
    rw [hpc, hsched, Function.update_self, Token.Fits, TaskInner.settle_state]
    by_cases hp : tok me = .pending
    · simp [hpending.mpr hp, hp]
    · have hflag : (k.sched.inner me).wakeupPending = false := by
        simpa [hp] using hpending
      rcases hfits.1 with hin | hin | hin
      · simp [hflag, hin]
      · simp [hflag, hp, hin]
      · exact absurd hin hp
  · rw [hsched, Function.update_of_ne hu]
    simpa [Kernel.block, Kernel.goto, hu] using h.fits u
  · rw [htasks] at hu
    have hne : u ≠ me := fun e => hu (e ▸ hmem)
    simpa [Kernel.block, Kernel.goto, hne] using h.fresh u hu

/-- A task that runs again has no token, so `wait` finds no entry to remove. -/
theorem Inv.unparked (h : Inv k tok) (hs : Sched.Inv k.sched place) {q : Queue} {a : Caller}
    (ha : k.Acts (some me) (.parked q a)) : tok me = .none := by
  have hfits := h.fits me
  rw [ha.2.2, Token.Fits, (ha.running hs).2.2] at hfits
  simpa using hfits.1

theorem Inv.unpark (h : Inv k tok) (hs : Sched.Inv k.sched place) {q : Queue} {a : Caller}
    (ha : k.Acts (some me) (.parked q a)) : Inv (k.unpark me q a) tok := by
  obtain ⟨_, hmem, hst⟩ := ha.running hs
  have hnone := h.unparked hs ha
  have hout : me ∉ k.queues q := by simp [h.mem_queue, hnone]
  have hplain := a.next_plain q
  have hsame := held_goto (k := k) (c := some me) (r := a.next q) (by simp [ha.2.2, Pc.held])
    hplain.held
  refine ⟨fun r t => ?_, fun r c t => ?_, h.pending, fun t => ?_, fun t ht => ?_⟩
  · by_cases hr : r = q
    · subst hr
      simpa [Kernel.unpark, Kernel.setQueue, Kernel.goto, List.erase_of_not_mem hout]
        using h.queues r t
    · simpa [Kernel.unpark, Kernel.setQueue, Kernel.goto, hr] using h.queues r t
  · exact (congrArg (List.count t) (hsame r c)).trans (h.held r c t)
  · by_cases ht : t = me
    · subst ht
      simp [Kernel.unpark, Kernel.setQueue, Kernel.goto, Token.fits_plain hplain, hnone, hst]
    · simpa [Kernel.unpark, Kernel.setQueue, Kernel.goto, ht] using h.fits t
  · have hne : t ≠ me := fun e => ht (e ▸ hmem)
    simpa [Kernel.unpark, Kernel.setQueue, Kernel.goto, hne] using h.fresh t ht

theorem Inv.nodup (h : Inv k tok) (q : Queue) : (k.queues q).Nodup :=
  List.nodup_iff_count_le_one.mpr fun t => by rw [h.queues]; split <;> omega

theorem Inv.count_take (h : Inv k tok) (q : Queue) (n t : Nat) :
    ((k.queues q).take n).count t = if t ∈ (k.queues q).take n then 1 else 0 :=
  ((h.nodup q).sublist (List.take_sublist n _)).count

theorem Inv.count_drop (h : Inv k tok) (q : Queue) (n t : Nat) :
    ((k.queues q).drop n).count t =
      if t ∈ (k.queues q).take n then 0 else if tok t = .queued q then 1 else 0 := by
  have hsplit : ((k.queues q).take n).count t + ((k.queues q).drop n).count t =
      (k.queues q).count t := by
    rw [← List.count_append, List.take_append_drop]
  rw [h.count_take] at hsplit
  by_cases ht : t ∈ (k.queues q).take n
  · have hone := (h.nodup q).count (a := t)
    rw [if_pos (List.mem_of_mem_take ht)] at hone
    rw [if_pos ht] at hsplit ⊢
    omega
  · rw [if_neg ht] at hsplit ⊢
    rw [← h.queues]
    omega

/-- Every task at the head of the queue passes its token to the one that took it. -/
theorem Inv.take (h : Inv k tok) (hs : Sched.Inv k.sched place) (ha : k.Acts c p) (hp : p.Plain)
    (q : Queue) (n : Nat) (a : After) :
    Inv (k.take c q n a) fun t => if t ∈ (k.queues q).take n then .held q c else tok t := by
  have htaken : ∀ t, t ∈ (k.queues q).take n → tok t = .queued q := fun t ht =>
    h.mem_queue.mp (List.mem_of_mem_take ht)
  have hempty : ∀ r t, tok t ≠ .held r c := by
    intro r t
    rw [Ne, ← h.mem_held, ha.2.2, hp.held]
    simp
  refine ⟨fun r t => ?_, fun r d t => ?_, fun t => ?_, fun t => ?_, fun t ht => ?_⟩
  · have hcount := h.queues r t
    have hdrop := h.count_drop q n t
    by_cases hr : r = q
    · subst hr
      by_cases ht : t ∈ (k.queues r).take n <;>
        simpa [Kernel.take, Kernel.setQueue, Kernel.goto, ht] using hdrop
    · by_cases ht : t ∈ (k.queues q).take n
      · rw [htaken t ht] at hcount
        simpa [Kernel.take, Kernel.setQueue, Kernel.goto, hr, Ne.symm hr, ht] using hcount
      · simpa [Kernel.take, Kernel.setQueue, Kernel.goto, hr, ht] using hcount
  · have hcount := h.held r d t
    by_cases hd : d = c
    · subst hd
      have htake := h.count_take q n t
      by_cases hr : q = r
      · subst hr
        by_cases ht : t ∈ (k.queues q).take n <;>
          simp [Kernel.take, Kernel.setQueue, Kernel.goto, Pc.held, ht, htake, hempty]
      · by_cases ht : t ∈ (k.queues q).take n <;>
          simp [Kernel.take, Kernel.setQueue, Kernel.goto, Pc.held, ht, hr, hempty]
    · by_cases ht : t ∈ (k.queues q).take n
      · rw [htaken t ht] at hcount
        simpa [Kernel.take, Kernel.setQueue, Kernel.goto, hd, Ne.symm hd, ht] using hcount
      · simpa [Kernel.take, Kernel.setQueue, Kernel.goto, hd, ht] using hcount
  · have hpending := h.pending t
    by_cases ht : t ∈ (k.queues q).take n
    · rw [htaken t ht] at hpending
      simpa [Kernel.take, Kernel.setQueue, Kernel.goto, ht] using hpending
    · simpa [Kernel.take, Kernel.setQueue, Kernel.goto, ht] using hpending
  · have hfits := h.fits t
    by_cases hd : some t = c
    · subst hd
      rw [ha.2.2, Token.fits_plain hp] at hfits
      have ht : t ∉ (k.queues q).take n := fun ht => by simp [htaken t ht] at hfits
      simp [Kernel.take, Kernel.setQueue, Kernel.goto, ht, Token.Fits, hfits.1,
        (ha.running hs).2.2]
    · by_cases ht : t ∈ (k.queues q).take n
      · rw [htaken t ht] at hfits
        simpa [Kernel.take, Kernel.setQueue, Kernel.goto, hd, ht] using hfits.taken
      · simpa [Kernel.take, Kernel.setQueue, Kernel.goto, hd, ht] using hfits
  · by_cases hd : some t = c
    · subst hd
      exact absurd (ha.running hs).2.1 ht
    · simpa [Kernel.take, Kernel.setQueue, Kernel.goto, hd] using h.fresh t ht

/-- The next task in hand is woken: its token is spent, or becomes its flag. -/
theorem Inv.wakeNext (h : Inv k tok) {q : Queue} {u : Nat} {us : List Nat} {a : After}
    (ha : k.Acts c (.waking q (u :: us) a)) :
    Inv (k.wakeNext c q u us a) (Function.update tok u
      (if (k.sched.inner u).state = .blocked then .none else .pending)) := by
  have hheld : tok u = .held q c := by
    rw [← h.mem_held, ha.2.2]
    simp [Pc.held]
  have hrest : ∀ r t, ((Pc.waking q us a).held r).count t =
      if t = u then 0 else ((k.pc c).held r).count t := by
    intro r t
    have hone := h.held q c u
    rw [ha.2.2, hheld] at hone
    rw [ha.2.2]
    by_cases hr : q = r <;> by_cases ht : t = u <;> simp_all [Pc.held, eq_comm]
  have hmem := h.known (t := u) (by simp [hheld])
  have hne : c ≠ some u := by
    rintro rfl
    have hfits := h.fits u
    rw [ha.2.2] at hfits
    simp [Token.Fits, hheld] at hfits
  have hpc : (k.wakeNext c q u us a).pc (some u) = k.pc (some u) := by
    simp [Kernel.wakeNext, Kernel.goto, Ne.symm hne]
  have hflag : (k.sched.inner u).wakeupPending = false := by
    have hpending := h.pending u
    simpa [hheld] using hpending
  have hothers : ∀ t, t ≠ u → (k.wakeNext c q u us a).sched.inner t = k.sched.inner t := by
    intro t ht
    by_cases hst : (k.sched.inner u).state = .blocked <;>
      simp [Kernel.wakeNext, Sched.wake, hst, Sched.modify, ht]
  have htasks : (k.wakeNext c q u us a).sched.allTasks = k.sched.allTasks := Sched.wake_tasks _
  obtain ⟨x, hx⟩ : ∃ x : Token,
      x = if (k.sched.inner u).state = .blocked then .none else .pending := ⟨_, rfl⟩
  have hnotQueued : ∀ r, x ≠ .queued r := by intro r; rw [hx]; split <;> simp
  have hnotHeld : ∀ r d, x ≠ .held r d := by intro r d; rw [hx]; split <;> simp
  rw [← hx]
  refine h.move ⟨fun r t => ?_, fun r d t => ?_, ?_, fun t ht => by rw [hothers t ht], ?_,
    fun t ht => ?_, fun t ht => ?_⟩
  · by_cases ht : t = u
    · subst ht
      simpa [Kernel.wakeNext, Kernel.goto, hnotQueued] using h.count_queue hheld r
    · simp [Kernel.wakeNext, Kernel.goto, ht]
  · by_cases hd : d = c
    · subst hd
      simpa [Kernel.wakeNext, Kernel.goto, hnotHeld] using hrest r t
    · by_cases ht : t = u
      · subst ht
        simpa [Kernel.wakeNext, Kernel.goto, hd, Ne.symm hd, hnotHeld] using h.count_held hheld r d
      · simp [Kernel.wakeNext, Kernel.goto, ht, hd]
  · by_cases hst : (k.sched.inner u).state = .blocked
    · simp [Kernel.wakeNext, Sched.wake, hst, Sched.modify, hflag, hx]
    · simp [Kernel.wakeNext, Sched.wake, hst, Sched.modify, hx]
  · have hfits := h.fits u
    rw [hpc]
    rw [hheld] at hfits
    by_cases hst : (k.sched.inner u).state = .blocked
    · simpa [Kernel.wakeNext, Sched.wake, hst, Sched.modify, hx] using hfits.woken hst
    · simpa [Kernel.wakeNext, Sched.wake, hst, Sched.modify, hx] using hfits.flagged hst
  · have hfits := h.fits t
    rw [hothers t ht]
    by_cases hc : some t = c
    · subst hc
      rw [ha.2.2] at hfits
      simpa [Kernel.wakeNext, Kernel.goto, Token.Fits] using hfits
    · simpa [Kernel.wakeNext, Kernel.goto, hc] using hfits
  · rw [htasks] at ht
    have hrun := h.fresh t ht
    have hc : some t ≠ c := by
      rintro rfl
      simp [ha.2.2] at hrun
    simpa [Kernel.wakeNext, Kernel.goto, hc] using hrun

theorem Inv.fork (h : Inv k tok) (ht : t ∉ k.sched.allTasks) : Inv (k.fork me t) tok := by
  obtain ⟨hb, hz, hp⟩ := h.new ht
  have hquiet := h.quiet (Sched.quiet_admitTask hb hz hp)
  exact ⟨hquiet.queues, hquiet.held, hquiet.pending, hquiet.fits, hquiet.fresh⟩

theorem Inv.zombie (h : Inv k tok) (hs : Sched.Inv k.sched place)
    (ha : k.Acts (some me) .leaving) : Inv k.zombie tok := by
  obtain ⟨hcur, _, _⟩ := ha.running hs
  have hfits := h.fits me
  rw [ha.2.2] at hfits
  have hsettle : ∀ i, TaskInner.settle .zombie i = { i with state := .zombie } := by
    simp [TaskInner.settle]
  have hinner : k.zombie.sched.inner =
      Function.update k.sched.inner me { k.sched.inner me with state := .zombie } := by
    simp [Kernel.zombie, Sched.switchToIdle, hcur, Sched.modify, hsettle]
  have htasks : k.zombie.sched.allTasks = k.sched.allTasks := Sched.switchToIdle_tasks _
  refine ⟨h.queues, h.held, fun t => ?_, fun t => ?_, fun t ht => h.fresh t (by rwa [← htasks])⟩
  · rw [hinner]
    by_cases ht : t = me
    · subst ht; simpa using h.pending t
    · simpa [ht] using h.pending t
  · rw [hinner]
    by_cases ht : t = me
    · subst ht; simp [Kernel.zombie, ha.2.2, Token.Fits, hfits.1]
    · simpa [ht, Kernel.zombie] using h.fits t

end

end Kernel

end AlexOS
