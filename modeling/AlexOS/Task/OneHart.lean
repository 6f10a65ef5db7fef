import AlexOS.Task.Harts
import Mathlib.Data.List.Basic

/-!
# One hart of several

The scheduler on one hart takes the steps of the scheduler on several, some of them
together because nobody can come in between. Whenever it wakes a blocked task the hart
has let go of it, so its runs are among those that are safe on any number of harts.
-/

namespace AlexOS

namespace Sched

/-- Where the hart is in the loop of `run`, or in a task. -/
def hartPhase (s : Sched) : Harts.Phase :=
  match s.phase, s.current with
  | .task, some t => .running t
  | .boot, _ => .top none
  | .idleTop, _ => .top s.previous
  | .idlePick, _ => .pick
  | .idleWait, _ => .waits
  | .task, none | .panicked, _ => .panicked

def spread (s : Sched) (pushes : List (Nat × Nat)) : Harts.State 1 :=
  ⟨s.inner, s.allTasks, s.queue, pushes, fun _ => s.hartPhase⟩

/-- The pushes that are due are those of the contexts in `wake`. -/
def Pends (s : Sched) (pushes : List (Nat × Nat)) : Prop :=
  ∃ cs : List Ctx, cs.Nodup ∧ (∀ c, c ∈ cs ↔ s.wakes c ≠ none) ∧ pushes.Perm (cs.filterMap s.wakes)

section
variable {s : Sched} {place : Nat → Place} {pushes : List (Nat × Nat)} {c : Ctx} {t level : Nat}

theorem filterMap_update {cs : List Ctx} (hc : c ∉ cs) (x : Option (Nat × Nat)) :
    cs.filterMap (Function.update s.wakes c x) = cs.filterMap s.wakes :=
  List.filterMap_congr fun _ hd => Function.update_of_ne (ne_of_mem_of_not_mem hd hc) _ _

theorem Pends.wake (h : Pends s pushes) (hc : s.wakes c = none) {s' : Sched}
    (hs : s'.wakes = Function.update s.wakes c (some (t, level))) :
    Pends s' ((t, level) :: pushes) := by
  obtain ⟨cs, nodup, mem, perm⟩ := h
  have hnew : c ∉ cs := fun hmem => (mem c).mp hmem hc
  refine ⟨c :: cs, List.nodup_cons.mpr ⟨hnew, nodup⟩, fun d => ?_, ?_⟩
  · rw [hs, List.mem_cons, mem, Function.update_apply]
    by_cases hd : d = c <;> simp [hd]
  · rw [hs, List.filterMap_cons_some (Function.update_self _ _ _), filterMap_update hnew]
    exact perm.cons _

theorem Pends.push (h : Pends s pushes) (hc : s.wakes c = some (t, level)) :
    (t, level) ∈ pushes ∧ Pends (s.finishWake c t level) (pushes.erase (t, level)) := by
  obtain ⟨cs, nodup, mem, perm⟩ := h
  have hold : c ∈ cs := (mem c).mpr (by rw [hc]; exact Option.some_ne_none _)
  have split : pushes.Perm ((t, level) :: (cs.erase c).filterMap s.wakes) := by
    have := (List.perm_cons_erase hold).filterMap s.wakes
    rw [List.filterMap_cons_some hc] at this
    exact perm.trans this
  refine ⟨split.mem_iff.mpr List.mem_cons_self, cs.erase c, nodup.erase c, fun d => ?_, ?_⟩
  · rw [nodup.mem_erase_iff, mem]
    by_cases hd : d = c <;> simp [finishWake, hd]
  · rw [finishWake, filterMap_update nodup.not_mem_erase]
    exact (split.erase _).trans (by rw [List.erase_cons_head])

theorem goto_one (h : Harts.State 1) (x : Harts.Phase) :
    h.goto 0 x = { h with hart := fun _ => x } := by
  rw [Harts.State.goto, Function.update_eq_const_of_subsingleton]
  rfl

/-- What the runs of `Harts` with one hart reach. -/
abbrev Spreads (s : Sched) (pushes : List (Nat × Nat)) : Prop :=
  Reach ((Harts.system 1).guard Harts.Parted) (s.spread pushes)

theorem Inv.hartPhase (h : Inv s place) (hcur : s.current = some t) : s.hartPhase = .running t := by
  rw [Sched.hartPhase, h.task.mpr (by rw [hcur]; exact Option.some_ne_none _), hcur]

/-! ## The steps taken together -/

theorem Spreads.admitTask (h : Spreads s pushes) (ht : t ∉ s.allTasks) :
    Spreads (s.admitTask t) pushes := by
  have both := (h.step _ ⟨.admitTask ht, trivial⟩).step _
    ⟨@Harts.Step.push _ _ t 0 List.mem_cons_self, trivial⟩
  rw [Harts.State.push, Harts.State.admitTask, List.erase_cons_head] at both
  exact both

theorem Spreads.switchToIdle (h : Spreads s pushes) (hphase : s.hartPhase = .running t)
    (hcur : s.current = some t) {st : TaskState} (hst : st ≠ .running) :
    Spreads (s.switchToIdle st) pushes := by
  have leaves := h.step _ ⟨@Harts.Step.leave _ _ 0 t st hphase hst, trivial⟩
  rw [goto_one] at leaves
  have settled := leaves.step _ ⟨@Harts.Step.settle _ _ 0 t st rfl, trivial⟩
  rw [goto_one] at settled
  have handed := settled.step _ ⟨@Harts.Step.hand _ _ 0 t rfl, trivial⟩
  rw [goto_one] at handed
  have saved := handed.step _ ⟨@Harts.Step.save _ _ 0 t rfl, trivial⟩
  rw [goto_one] at saved
  rw [Sched.switchToIdle, hcur]
  exact saved

theorem Spreads.reschedIfNeeded (h : Spreads s pushes) (inv : Inv s place) :
    Spreads s.reschedIfNeeded pushes := by
  rw [Sched.reschedIfNeeded]
  split
  · exact h
  · rename_i t hcur
    have hphase := inv.hartPhase hcur
    split
    · have cleared := h.step _ ⟨@Harts.Step.resched _ _ 0 t (by rw [spread, hphase]; rfl), trivial⟩
      exact Spreads.switchToIdle (s := s.modify t fun i => { i with needsResched := false })
        cleared hphase hcur (by decide)
    · exact h

theorem Spreads.runPrevious (h : Spreads s pushes) (inv : Inv s place)
    (hphase : s.phase = .idleTop) :
    Spreads s.runPrevious pushes := by
  have htop : s.hartPhase = .top s.previous := by rw [Sched.hartPhase, hphase]
  have hcur := inv.current_none (by rw [hphase]; decide)
  rw [Sched.runPrevious]
  rcases hprev : s.previous with _ | t
  · rw [hprev] at htop
    have next := h.step _ ⟨@Harts.Step.noPrevious _ _ 0 htop, trivial⟩
    rw [goto_one] at next
    exact next
  rw [hprev] at htop
  have took := h.step _ ⟨@Harts.Step.take _ _ 0 t htop, trivial⟩
  rw [goto_one] at took
  have looked := took.step _ ⟨@Harts.Step.look _ _ 0 t rfl, trivial⟩
  rw [Harts.State.look] at looked
  have hfits := inv.fits t
  rw [(inv.previous t).mp hprev] at hfits
  dsimp only [spread] at looked ⊢
  rcases hst : (s.inner t).state
  all_goals
    simp only [hst, goto_one] at looked ⊢
  · have queued := looked.step _ ⟨@Harts.Step.requeue _ _ 0 t _ rfl, trivial⟩
    rw [goto_one] at queued
    exact queued
  · exact absurd hst hfits
  · exact looked
  · exact looked

theorem Spreads.runNext (h : Spreads s pushes) (inv : Inv s place) (hphase : s.phase = .idlePick) :
    Spreads s.runNext pushes := by
  have hpick : s.hartPhase = .pick := by rw [Sched.hartPhase, hphase]
  have picked := h.step _ ⟨@Harts.Step.pick _ _ 0 hpick, trivial⟩
  rw [Harts.State.pick] at picked
  rw [Sched.runNext]
  dsimp only [spread] at picked ⊢
  rcases hpop : s.queue.pop with _ | ⟨t, queue⟩
  all_goals simp only [hpop, goto_one] at picked ⊢
  · exact picked
  have readied := picked.step _ ⟨@Harts.Step.ready _ _ 0 t rfl, trivial⟩
  rw [goto_one] at readied
  have runs := readied.step _ ⟨@Harts.Step.enter _ _ 0 t rfl, trivial⟩
  rw [goto_one] at runs
  rw [inv.ready_of_pop hpop, if_neg (by decide)]
  exact runs

/-- The hart is in a task, in the handler or in a leg of the idle loop that is not the first
when it wakes someone. -/
theorem Inv.parted (h : Inv s place) (hactor : s.actor = some c) (ht : t ∈ s.allTasks) :
    Harts.Parted (s.spread pushes) (.wake 0 t) := by
  intro hst i hold
  have hphase : s.phase ≠ .idleTop := by
    intro hphase
    by_cases hirq : s.irq = true
    · exact h.handler hirq hphase
    · simp [actor, hirq, hphase] at hactor
  have hp := h.parked_of_blocked ht hst (h.previous_none hphase)
  have hcur := h.current_ne (t := t) (by rw [hp]; decide)
  simp only [spread, Sched.hartPhase] at hold
  split at hold
  · rename_i hcur'
    exact hcur (hcur'.trans hold)
  · cases hold
  · exact hphase (by assumption)
  all_goals cases hold

/-! ## Every run -/

theorem Step.spreads {s' : Sched} {op : Op} (hs : Step s op s') (inv : Inv s place)
    (pends : Pends s pushes) (h : Spreads s pushes) :
    ∃ pushes, Pends s' pushes ∧ Spreads s' pushes := by
  have switched : ∀ {me : Nat} {st : TaskState}, s.Runs me → st ≠ .running →
      ∃ pushes, Pends (s.switchToIdle st) pushes ∧ Spreads (s.switchToIdle st) pushes := by
    intro me st runs hst
    have hcur := runs.2.2.1
    refine ⟨pushes, ?_, h.switchToIdle (inv.hartPhase hcur) hcur hst⟩
    rw [Sched.switchToIdle, hcur]
    exact pends
  have rescheds : ∀ {s : Sched}, Inv s place → Pends s pushes → Spreads s pushes →
      ∃ pushes, Pends s.reschedIfNeeded pushes ∧ Spreads s.reschedIfNeeded pushes := by
    intro s inv pends h
    refine ⟨pushes, ?_, h.reschedIfNeeded inv⟩
    rw [Sched.reschedIfNeeded]
    split
    · exact pends
    · rename_i hcur
      split
      · rw [Sched.switchToIdle, show (s.modify _ _).current = _ from hcur]
        exact pends
      · exact pends
  cases hs with
  | bootAdmit _ _ ht => exact ⟨pushes, pends, h.admitTask ht⟩
  | admitTask _ ht => exact ⟨pushes, pends, h.admitTask ht⟩
  | @wake c t hactor hc ht =>
    have woken := h.step _ ⟨@Harts.Step.wake _ _ 0 t ht, inv.parted hactor ht⟩
    by_cases hst : (s.inner t).state = .blocked
    · rw [Harts.State.wake, if_pos (show ((s.spread pushes).inner t).state = _ from hst)] at woken
      rw [Sched.wake, if_pos hst]
      exact ⟨_, pends.wake hc rfl, woken⟩
    · rw [Harts.State.wake, if_neg (show ((s.spread pushes).inner t).state ≠ _ from hst)] at woken
      rw [Sched.wake, if_neg hst]
      exact ⟨pushes, pends, woken⟩
  | push _ hc =>
    obtain ⟨due, rest⟩ := pends.push hc
    exact ⟨_, rest, h.step _ ⟨.push due, trivial⟩⟩
  | yieldNow runs => exact switched runs (by decide)
  | blockCurrent runs => exact switched runs (by decide)
  | exitCurrent runs => exact switched runs (by decide)
  | resched _ => exact rescheds inv pends h
  | interrupt _ _ => exact ⟨pushes, pends, h⟩
  | tick _ =>
    rw [Sched.onTimerTick]
    split
    · exact ⟨pushes, pends, h⟩
    · rename_i t hcur
      exact ⟨pushes, pends, h.step _
        ⟨@Harts.Step.tick _ _ 0 t (by rw [spread, inv.hartPhase hcur]; rfl), trivial⟩⟩
  | iret _ _ => exact rescheds (inv.setIrq false (by simp)) pends h
  | enter hphase _ =>
    have hprev := inv.previous_none (by rw [hphase]; decide)
    refine ⟨pushes, pends, ?_⟩
    rw [Spreads, spread, Sched.hartPhase, hphase] at h
    rw [Spreads, spread, Sched.hartPhase, hprev]
    exact h
  | previous hphase =>
    refine ⟨pushes, ?_, h.runPrevious inv hphase⟩
    rw [Sched.runPrevious]
    split
    · exact pends
    · dsimp only
      split <;> exact pends
  | next hphase =>
    refine ⟨pushes, ?_, h.runNext inv hphase⟩
    rw [Sched.runNext]
    split <;> exact pends
  | rescan hphase _ =>
    have hprev := inv.previous_none (by rw [hphase]; decide)
    have again := h.step _ ⟨@Harts.Step.rescan _ _ 0
      (by rw [spread, Sched.hartPhase, hphase]), trivial⟩
    rw [goto_one] at again
    refine ⟨pushes, pends, ?_⟩
    rw [Spreads, spread, Sched.hartPhase, hprev]
    exact again

/-- The scheduler on one hart refines the one on several, and no wake comes too early. -/
theorem reach_spreads (h : Reach system s) : ∃ pushes, Pends s pushes ∧ Spreads s pushes := by
  suffices all : (∃ place, Inv s place) ∧ ∃ pushes, Pends s pushes ∧ Spreads s pushes from all.2
  refine Reach.invariant
    (fun s => (∃ place, Inv s place) ∧ ∃ pushes, Pends s pushes ∧ Spreads s pushes)
    ?_ ?_ h
  · rintro _ rfl
    exact ⟨⟨_, Inv.boot⟩, [], ⟨[], List.nodup_nil, by simp [boot], .nil⟩, .init rfl⟩
  · rintro s op s' ⟨⟨place, inv⟩, pushes, pends, reached⟩ hs
    exact ⟨Step.inv hs inv, Step.spreads hs inv pends reached⟩

end

end Sched

end AlexOS
