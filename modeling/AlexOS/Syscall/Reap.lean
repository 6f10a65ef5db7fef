import AlexOS.Mm.View
import AlexOS.Sync.Wait
import AlexOS.Syscall.Machine
import AlexOS.Task.Fresh

/-!
# Who reaps a child

`sys_fork`, `exit_current` and `sys_waitpid` of any number of processes, one step for
each section under a lock: the scan looks at one child after another, and the removal,
the reading of the exit code and the store of the status come apart. What a run has
done is kept beside the state. A child is in its parent's list from the fork until
one `waitpid` of that parent takes it off, and its code is the one it exited with.
-/

namespace AlexOS

open Bytes PageTable

namespace Reap

/-- Where a task is. `forked`: in `sys_fork`, with the child built and not yet in the
list. `scan`: in the loop over the children, at the one with index `i`. `taken`,
`coded`, `stored`: with the child off the list, its exit code read, its status
stored. `exiting`: in `exit_current`, with the exit code set. -/
inductive Pc where
  | absent
  | user
  | forked (c : Nat)
  | scan (want : Int) (ptr i : Nat)
  | sleeps (want : Int) (ptr : Nat)
  | taken (want : Int) (ptr c : Nat)
  | coded (want : Int) (ptr c : Nat) (code : Int)
  | stored (want : Int) (c : Nat)
  | exiting
  | gone
  | freed
deriving DecidableEq, Repr

namespace Pc

/-- The child a `waitpid` holds, with what it was called with. -/
def holds : Pc → Option (Int × Nat)
  | .taken want _ c | .coded want _ c _ | .stored want c => some (want, c)
  | _ => none

/-- Its state is that of a zombie. -/
def Ended : Pc → Prop
  | .gone | .freed => True
  | _ => False

/-- It has called `exit_current`. -/
def Exits : Pc → Prop
  | .exiting | .gone | .freed => True
  | _ => False

/-- It runs, and has no child in hand. -/
def Calm : Pc → Prop
  | .user | .scan _ _ _ | .sleeps _ _ => True
  | _ => False

end Pc

structure State where
  /-- Pids are counted without the wrap of `NEXT_PID` at `2^64`, and `pid as isize` is the pid. -/
  nextPid : Nat
  pc : Nat → Pc
  state : Nat → TaskState
  exitCode : Nat → Int
  children : Nat → List Nat
  space : Nat → Option AddressSpace
  mem : Mem

/-- What is done and by whom, as far as it is told apart later. -/
inductive Op where
  | fork (p c : Nat)
  | take (p : Nat) (want : Int) (c : Nat)
  | store (p c ptr : Nat) (code : Int)
  | ret (p : Nat) (want r : Int)
  | exit (p : Nat) (code : Int)
  | free (p : Nat)
  | other
deriving DecidableEq

/-- The pid that a `waitpid` returns. -/
def Op.returned : Op → Option Int
  | .ret _ _ r => if 0 < r then some r else none
  | _ => none

namespace State

def boot (mem : Mem) : State :=
  ⟨1, fun _ => .absent, fun _ => .ready, fun _ => 0, fun _ => [], fun _ => none, mem⟩

def goto (s : State) (p : Nat) (x : Pc) : State := { s with pc := Function.update s.pc p x }

/-- A task built with the next pid. -/
def newTask (s : State) (space : Option AddressSpace) : State :=
  { s with
    nextPid := s.nextPid + 1
    state := Function.update s.state s.nextPid .ready
    exitCode := Function.update s.exitCode s.nextPid 0
    children := Function.update s.children s.nextPid []
    space := Function.update s.space s.nextPid space }

def setChildren (s : State) (p : Nat) (cs : List Nat) : State :=
  { s with children := Function.update s.children p cs }

end State

inductive Step : State → Op → State → Prop where
  | spawn {s : State} {space : Option AddressSpace} :
      Step s .other ((s.newTask space).goto s.nextPid .user)
  | forkFrom {s : State} {p : Nat} {space : Option AddressSpace} : s.pc p = .user →
      Step s .other ((s.newTask space).goto p (.forked s.nextPid))
  /-- Only the parent reads its children, so the push and `admit` are one step. -/
  | fork {s : State} {p c : Nat} : s.pc p = .forked c →
      Step s (.fork p c) (((s.setChildren p (s.children p ++ [c])).goto p .user).goto c .user)
  | waitpid {s : State} {p ptr : Nat} {want : Int} : s.pc p = .user →
      Step s .other (s.goto p (.scan want ptr 0))
  | look {s : State} {p ptr i c : Nat} {want : Int} : s.pc p = .scan want ptr i →
      (s.children p)[i]? = some c → ¬(isMatch want c = true ∧ s.state c = .zombie) →
      Step s .other (s.goto p (.scan want ptr (i + 1)))
  | take {s : State} {p ptr i c : Nat} {want : Int} : s.pc p = .scan want ptr i →
      (s.children p)[i]? = some c → isMatch want c = true → s.state c = .zombie →
      Step s (.take p want c)
        ((s.setChildren p ((s.children p).eraseIdx i)).goto p (.taken want ptr c))
  | noChild {s : State} {p ptr i : Nat} {want : Int} : s.pc p = .scan want ptr i →
      (s.children p).length ≤ i → anyChildren want (s.children p) = false →
      Step s (.ret p want Nr.echild) (s.goto p .user)
  | sleep {s : State} {p ptr i : Nat} {want : Int} : s.pc p = .scan want ptr i →
      (s.children p).length ≤ i → anyChildren want (s.children p) = true →
      Step s .other (s.goto p (.sleeps want ptr))
  | wake {s : State} {p ptr : Nat} {want : Int} : s.pc p = .sleeps want ptr →
      Step s .other (s.goto p (.scan want ptr 0))
  | exitCode {s : State} {p ptr c : Nat} {want : Int} : s.pc p = .taken want ptr c →
      Step s .other (s.goto p (.coded want ptr c (s.exitCode c)))
  | store {s : State} {p ptr c : Nat} {want code : Int} : s.pc p = .coded want ptr c code →
      Step s (.store p c ptr code)
        ({ s with mem := storeStatus s.mem (s.space p) ptr code }.goto p (.stored want c))
  | ret {s : State} {p c : Nat} {want : Int} : s.pc p = .stored want c →
      Step s (.ret p want c) (s.goto p .user)
  | exit {s : State} {p : Nat} {code : Int} : s.pc p = .user →
      Step s (.exit p code)
        ({ s with exitCode := Function.update s.exitCode p code }.goto p .exiting)
  | zombie {s : State} {p : Nat} : s.pc p = .exiting →
      Step s .other ({ s with state := Function.update s.state p .zombie }.goto p .gone)
  /-- With its last reference a task goes, and its list with it. -/
  | free {s : State} {p : Nat} : s.pc p = .gone → (∀ q, p ∉ s.children q) →
      (∀ q want, (s.pc q).holds ≠ some (want, p)) →
      Step s (.free p) ((s.setChildren p []).goto p .freed)
  | schedule {s : State} {t : Nat} {st : TaskState} : s.state t ≠ .zombie → st ≠ .zombie →
      Step s .other { s with state := Function.update s.state t st }
  /-- Memory and spaces are everyone's to change in between. -/
  | work {s : State} {mem : Mem} {space : Nat → Option AddressSpace} :
      Step s .other { s with mem := mem, space := space }

def system : System State Op := ⟨fun s => ∃ mem, s = .boot mem, Step⟩

/-! ## Where a child is -/

inductive Place where
  | absent
  | built (p : Nat)
  | listed (p : Nat)
  | taken (p : Nat)
  | loose
deriving DecidableEq

structure Inv (s : State) (place : Nat → Place) : Prop where
  fresh : ∀ c, place c = .absent ↔ s.nextPid ≤ c
  unborn : ∀ c, (place c = .absent ∨ ∃ p, place c = .built p) → s.pc c = .absent
  built : ∀ p c, s.pc p = .forked c ↔ place c = .built p
  listed : ∀ p c, (s.children p).count c = if place c = .listed p then 1 else 0
  taken : ∀ p c, (∃ want, (s.pc p).holds = some (want, c)) ↔ place c = .taken p
  zombie : ∀ c, s.state c = .zombie ↔ (s.pc c).Ended
  reaped : ∀ p c, place c = .taken p → (s.pc c).Ended
  parent : ∀ p c, place c = .listed p → s.pc p ≠ .absent

/-- Where the children are, by what was done with them. -/
structure Tale (place : Nat → Place) (as : List Op) : Prop where
  forked : ∀ p c, .fork p c ∈ as → place c ≠ .absent ∧ (∀ q, place c ≠ .built q) ∧
    ∀ q, .fork q c ∈ as → q = p
  home : ∀ p c, place c = .listed p ↔
    .fork p c ∈ as ∧ (∀ want, .take p want c ∉ as) ∧ .free p ∉ as
  takes : ∀ p want c, .take p want c ∈ as → place c = .loose ∨ ∃ q, place c = .taken q
  returned : ∀ p (want r : Int), .ret p want r ∈ as → 0 < r →
    ∃ c : Nat, r = c ∧ .take p want c ∈ as ∧ place c = .loose
  once : (as.filterMap Op.returned).Nodup

/-- Where the tasks are, by what they did. -/
structure Deeds (s : State) (as : List Op) : Prop where
  asked : ∀ p want c, (s.pc p).holds = some (want, c) → .take p want c ∈ as
  coded : ∀ p want ptr c code, s.pc p = .coded want ptr c code → .exit c code ∈ as
  stored : ∀ p c ptr code, .store p c ptr code ∈ as →
    .exit c code ∈ as ∧ ∃ want, .take p want c ∈ as
  exits : ∀ c code, .exit c code ∈ as ↔ s.exitCode c = code ∧ (s.pc c).Exits
  freed : ∀ p, .free p ∈ as ↔ s.pc p = .freed

section
variable {s s' : State} {place : Nat → Place} {as : List Op} {p c : Nat} {x : Pc}

theorem goto_pc (s : State) (p q : Nat) (x : Pc) :
    (s.goto p x).pc q = if q = p then x else s.pc q :=
  Function.update_apply _ _ _ _

theorem Inv.next (inv : Inv s place) :
    place s.nextPid = .absent ∧ s.pc s.nextPid = .absent := by
  have habsent := (inv.fresh s.nextPid).mpr (Nat.le_refl _)
  exact ⟨habsent, inv.unborn _ (.inl habsent)⟩

theorem Inv.child (inv : Inv s place) (hp : s.pc p = .forked c) :
    place c = .built p ∧ s.pc c = .absent := by
  have hbuilt := (inv.built p c).mp hp
  exact ⟨hbuilt, inv.unborn c (.inr ⟨p, hbuilt⟩)⟩

theorem Inv.mem_children (inv : Inv s place) : c ∈ s.children p ↔ place c = .listed p := by
  rw [← List.count_pos_iff, inv.listed]
  split <;> simp_all

theorem Inv.nodup (inv : Inv s place) (p : Nat) : (s.children p).Nodup := by
  rw [List.nodup_iff_count_le_one]
  intro c
  rw [inv.listed]
  split <;> decide

/-! ## The state -/

/-- A task that goes on with the child it has in hand. -/
structure Pc.Follows (x y : Pc) : Prop where
  holds : y.holds = x.holds
  ended : y.Ended ↔ x.Ended
  forked : ∀ c, y = .forked c ↔ x = .forked c
  absent : y = .absent ↔ x = .absent

theorem Pc.Calm.follows {y : Pc} (hx : x.Calm) (hy : y.Calm ∨ y = .exiting) : x.Follows y := by
  have facts : ∀ z : Pc, z.Calm ∨ z = .exiting →
      z.holds = none ∧ ¬z.Ended ∧ (∀ c, z ≠ .forked c) ∧ z ≠ .absent := by
    intro z hz
    cases z <;> simp_all [Pc.Calm, Pc.holds, Pc.Ended]
  obtain ⟨holdsx, endedx, forkedx, absentx⟩ := facts x (.inl hx)
  obtain ⟨holdsy, endedy, forkedy, absenty⟩ := facts y hy
  exact ⟨holdsy.trans holdsx.symm, iff_of_false endedy endedx,
    fun c => iff_of_false (forkedy c) (forkedx c), iff_of_false absenty absentx⟩

theorem Inv.frame (inv : Inv s place) (exitCode : Nat → Int)
    (space : Nat → Option AddressSpace) (mem : Mem) :
    Inv { s with exitCode := exitCode, space := space, mem := mem } place :=
  ⟨inv.fresh, inv.unborn, inv.built, inv.listed, inv.taken, inv.zombie, inv.reaped, inv.parent⟩

theorem Inv.goto (inv : Inv s place) (h : (s.pc p).Follows x) : Inv (s.goto p x) place := by
  refine ⟨inv.fresh, fun c hc => ?_, fun q c => ?_, inv.listed, fun q c => ?_, fun c => ?_,
    fun q c hc => ?_, fun q c hc => ?_⟩
  all_goals
    rw [goto_pc]
    split
  · rename_i hp
    exact h.absent.mpr (hp ▸ inv.unborn c hc)
  · exact inv.unborn c hc
  · rename_i hp
    rw [h.forked, ← hp, inv.built]
  · exact inv.built q c
  · rename_i hp
    rw [h.holds, ← hp, inv.taken]
  · exact inv.taken q c
  · rename_i hp
    rw [h.ended, ← hp]
    exact inv.zombie c
  · exact inv.zombie c
  · rename_i hp
    exact h.ended.mpr (hp ▸ inv.reaped q c hc)
  · exact inv.reaped q c hc
  · rename_i hp
    exact fun same => inv.parent q c hc (hp ▸ h.absent.mp same)
  · exact inv.parent q c hc

theorem Inv.spawn (inv : Inv s place) (space : Option AddressSpace) :
    Inv ((s.newTask space).goto s.nextPid .user) (Function.update place s.nextPid .loose) := by
  obtain ⟨habsent, hpc⟩ := inv.next
  obtain ⟨fresh, unborn, built, listed, taken, zombie, reaped, parent⟩ := inv
  refine ⟨?_, ?_, ?_, ?_, ?_, ?_, ?_, ?_⟩ <;>
    simp only [State.goto, State.newTask, Function.update_apply] <;>
    grind [Pc.holds, Pc.Ended]

theorem Inv.forkFrom (inv : Inv s place) (hp : s.pc p = .user) (space : Option AddressSpace) :
    Inv ((s.newTask space).goto p (.forked s.nextPid))
      (Function.update place s.nextPid (.built p)) := by
  obtain ⟨habsent, hpc⟩ := inv.next
  obtain ⟨fresh, unborn, built, listed, taken, zombie, reaped, parent⟩ := inv
  refine ⟨?_, ?_, ?_, ?_, ?_, ?_, ?_, ?_⟩ <;>
    simp only [State.goto, State.newTask, Function.update_apply] <;>
    grind [Pc.holds, Pc.Ended]

theorem Inv.fork (inv : Inv s place) (hp : s.pc p = .forked c) :
    Inv (((s.setChildren p (s.children p ++ [c])).goto p .user).goto c .user)
      (Function.update place c (.listed p)) := by
  obtain ⟨hbuilt, hpc⟩ := inv.child hp
  obtain ⟨fresh, unborn, built, listed, taken, zombie, reaped, parent⟩ := inv
  refine ⟨?_, ?_, ?_, ?_, ?_, ?_, ?_, ?_⟩ <;>
    simp only [State.goto, State.setChildren, Function.update_apply] <;>
    grind [Pc.holds, Pc.Ended]

theorem Inv.eraseIdx (inv : Inv s place) {i : Nat} (hc : (s.children p)[i]? = some c) :
    (s.children p).eraseIdx i = (s.children p).erase c := by
  obtain ⟨hi, rfl⟩ := List.getElem?_eq_some_iff.mp hc
  rw [List.erase_eq_eraseIdx_of_idxOf ((inv.nodup p).idxOf_getElem i hi)]

theorem Inv.take {want : Int} {ptr i : Nat} (inv : Inv s place) (hp : s.pc p = .scan want ptr i)
    (hc : (s.children p)[i]? = some c) (hz : s.state c = .zombie) :
    Inv ((s.setChildren p ((s.children p).eraseIdx i)).goto p (.taken want ptr c))
      (Function.update place c (.taken p)) := by
  have hlisted := inv.mem_children.mp (List.mem_of_getElem? hc)
  have hended := (inv.zombie c).mp hz
  have hself : ∃ w, (Pc.taken want ptr c).holds = some (w, c) := ⟨want, rfl⟩
  rw [inv.eraseIdx hc]
  obtain ⟨fresh, unborn, built, listed, taken, zombie, reaped, parent⟩ := inv
  refine ⟨?_, ?_, ?_, ?_, fun q d => ?_, ?_, ?_, ?_⟩ <;>
    simp only [State.goto, State.setChildren, Function.update_apply]
  case refine_5 =>
    have := taken q d
    by_cases hq : q = p <;> by_cases hd : d = c <;> grind [Pc.holds]
  all_goals grind [Pc.holds, Pc.Ended]

theorem Inv.ret {want : Int} (inv : Inv s place) (hp : s.pc p = .stored want c) :
    Inv (s.goto p .user) (Function.update place c .loose) := by
  have htaken := (inv.taken p c).mp ⟨want, by rw [hp]; rfl⟩
  obtain ⟨fresh, unborn, built, listed, taken, zombie, reaped, parent⟩ := inv
  refine ⟨?_, ?_, ?_, ?_, ?_, ?_, ?_, ?_⟩ <;>
    simp only [State.goto, Function.update_apply] <;>
    grind [Pc.holds, Pc.Ended]

theorem Inv.zombified (inv : Inv s place) (hp : s.pc p = .exiting) :
    Inv ({ s with state := Function.update s.state p .zombie }.goto p .gone) place := by
  obtain ⟨fresh, unborn, built, listed, taken, zombie, reaped, parent⟩ := inv
  refine ⟨?_, ?_, ?_, ?_, ?_, ?_, ?_, ?_⟩ <;>
    simp only [State.goto, Function.update_apply] <;>
    grind [Pc.holds, Pc.Ended]

/-- The children of a task that is freed are no one's. -/
def Place.freed (place : Nat → Place) (p c : Nat) : Place :=
  if place c = .listed p then .loose else place c

theorem Inv.free (inv : Inv s place) (hp : s.pc p = .gone) :
    Inv ((s.setChildren p []).goto p .freed) (Place.freed place p) := by
  obtain ⟨fresh, unborn, built, listed, taken, zombie, reaped, parent⟩ := inv
  refine ⟨?_, ?_, ?_, ?_, ?_, ?_, ?_, ?_⟩ <;>
    simp only [State.goto, State.setChildren, Place.freed, Function.update_apply] <;>
    grind [Pc.holds, Pc.Ended]

theorem Inv.schedule {st : TaskState} (inv : Inv s place) (hp : s.state p ≠ .zombie)
    (hst : st ≠ .zombie) : Inv { s with state := Function.update s.state p st } place := by
  refine ⟨inv.fresh, inv.unborn, inv.built, inv.listed, inv.taken, fun c => ?_, inv.reaped,
    inv.parent⟩
  by_cases hc : c = p
  · subst hc
    refine iff_of_false ?_ fun ended => hp ((inv.zombie c).mpr ended)
    simpa using hst
  · simpa [hc] using inv.zombie c

/-! ## What was done -/

theorem once_append {a : Op} (hret : a.returned = none) (once : (as.filterMap Op.returned).Nodup) :
    ((as ++ [a]).filterMap Op.returned).Nodup := by
  rw [List.filterMap_append, List.filterMap_cons_none hret, List.filterMap_nil, List.append_nil]
  exact once

/-- What is not about a child changes no child's tale. -/
theorem Tale.log (tale : Tale place as) {a : Op} (hfork : ∀ p c, a ≠ .fork p c)
    (htake : ∀ p want c, a ≠ .take p want c) (hfree : ∀ p, a ≠ .free p)
    (hret : a.returned = none) : Tale place (as ++ [a]) := by
  have hpos : ∀ p (want r : Int), 0 < r → a ≠ .ret p want r := by
    rintro p want r hr rfl
    simp [Op.returned, hr] at hret
  obtain ⟨forked, home, takes, returned, once⟩ := tale
  refine ⟨?_, ?_, ?_, ?_, once_append hret once⟩ <;>
    simp only [List.mem_append, List.mem_singleton] <;> grind

/-- A new task has no tale. -/
theorem Tale.fresh (tale : Tale place as) (hc : place c = .absent) {y : Place}
    (hy : ∀ p, y ≠ .listed p) : Tale (Function.update place c y) as := by
  obtain ⟨forked, home, takes, returned, once⟩ := tale
  refine ⟨?_, ?_, ?_, ?_, once⟩ <;> simp only [Function.update_apply] <;> grind

theorem Tale.fork (tale : Tale place as) (hc : place c = .built p) (hp : .free p ∉ as) :
    Tale (Function.update place c (.listed p)) (as ++ [.fork p c]) := by
  obtain ⟨forked, home, takes, returned, once⟩ := tale
  refine ⟨?_, ?_, ?_, ?_, once_append rfl once⟩ <;>
    simp only [Function.update_apply, List.mem_append, List.mem_singleton] <;> grind

theorem Tale.take (tale : Tale place as) (want : Int) (hc : place c = .listed p) :
    Tale (Function.update place c (.taken p)) (as ++ [.take p want c]) := by
  obtain ⟨forked, home, takes, returned, once⟩ := tale
  have hfork := ((home p c).mp hc).1
  refine ⟨?_, fun q d => ?_, ?_, ?_, once_append rfl once⟩ <;>
    simp only [Function.update_apply, List.mem_append, List.mem_singleton]
  case refine_2 =>
    by_cases hd : d = c
    · subst hd
      refine iff_of_false (by simp) ?_
      rintro ⟨hq | hq, ht, -⟩
      · obtain rfl := (forked p d hfork).2.2 q hq
        exact ht want (.inr rfl)
      · cases hq
    · grind
  all_goals grind

/-- A child in hand has not been returned. -/
theorem Tale.ret (tale : Tale place as) {want : Int} (hc : place c = .taken p)
    (htake : .take p want c ∈ as) :
    Tale (Function.update place c .loose) (as ++ [.ret p want c]) := by
  have hnew : (c : Int) ∉ as.filterMap Op.returned := by
    rw [List.mem_filterMap]
    rintro ⟨a, ha, hr⟩
    cases a <;> simp only [Op.returned, reduceCtorEq] at hr
    rename_i q w r
    obtain ⟨hpos, rfl⟩ : 0 < r ∧ r = c := by simpa using hr
    obtain ⟨d, hd, -, hloose⟩ := tale.returned q w c ha hpos
    obtain rfl : c = d := by exact_mod_cast hd
    rw [hc] at hloose
    cases hloose
  obtain ⟨forked, home, takes, returned, once⟩ := tale
  refine ⟨?_, ?_, ?_, ?_, ?_⟩
  case refine_5 =>
    rw [List.filterMap_append]
    refine List.Nodup.append once ?_ ?_
    · simp only [List.filterMap_cons, List.filterMap_nil]
      split <;> simp
    · intro r hr hr'
      simp [Op.returned] at hr'
      exact hnew (hr'.2 ▸ hr)
  all_goals
    simp only [Function.update_apply, List.mem_append, List.mem_singleton]
    grind

theorem Tale.free (tale : Tale place as) (p : Nat) :
    Tale (Place.freed place p) (as ++ [.free p]) := by
  obtain ⟨forked, home, takes, returned, once⟩ := tale
  refine ⟨?_, ?_, ?_, ?_, once_append rfl once⟩ <;>
    simp only [Place.freed, List.mem_append, List.mem_singleton] <;> grind

theorem Deeds.log (deeds : Deeds s as) {a : Op} (hexit : ∀ c code, a ≠ .exit c code)
    (hfree : ∀ p, a ≠ .free p) (hstore : ∀ p c ptr code, a = .store p c ptr code →
      .exit c code ∈ as ∧ ∃ want, .take p want c ∈ as) : Deeds s (as ++ [a]) := by
  obtain ⟨asked, coded, stored, exits, freed⟩ := deeds
  refine ⟨?_, ?_, ?_, ?_, ?_⟩ <;> simp only [List.mem_append, List.mem_singleton] <;> grind

theorem Deeds.goto (deeds : Deeds s as)
    (hasked : ∀ want c, x.holds = some (want, c) → .take p want c ∈ as)
    (hcoded : ∀ want ptr c code, x = .coded want ptr c code → .exit c code ∈ as)
    (hexits : x.Exits ↔ (s.pc p).Exits) (hfreed : x = .freed ↔ s.pc p = .freed) :
    Deeds (s.goto p x) as := by
  refine ⟨fun q want c => ?_, fun q want ptr c code => ?_, deeds.stored, fun c code => ?_,
    fun q => ?_⟩
  all_goals
    rw [goto_pc]
    split
  · rename_i hp
    exact hp ▸ hasked want c
  · exact deeds.asked q want c
  · exact hcoded want ptr c code
  · exact deeds.coded q want ptr c code
  · rename_i hp
    rw [hexits, ← hp]
    exact deeds.exits c code
  · exact deeds.exits c code
  · rename_i hp
    rw [hfreed, ← hp]
    exact deeds.freed q
  · exact deeds.freed q

/-- A task that has not exited goes on with no child in hand. -/
theorem Deeds.calm (deeds : Deeds s as) (hx : x.Calm) (hp : ¬(s.pc p).Exits) :
    Deeds (s.goto p x) as := by
  have facts : (∀ want c, x.holds ≠ some (want, c)) ∧
      (∀ want ptr c code, x ≠ .coded want ptr c code) ∧ ¬x.Exits ∧ x ≠ .freed := by
    cases x <;> simp_all [Pc.Calm, Pc.holds, Pc.Exits]
  obtain ⟨hholds, hcoded, hexits, hfreed⟩ := facts
  refine deeds.goto (fun want c h => absurd h (hholds want c))
    (fun want ptr c code h => absurd h (hcoded want ptr c code)) (iff_of_false hexits hp)
    (iff_of_false hfreed fun h => hp ?_)
  rw [h]
  trivial

theorem Deeds.newTask (deeds : Deeds s as) (hpc : s.pc s.nextPid = .absent)
    (space : Option AddressSpace) : Deeds (s.newTask space) as := by
  refine ⟨deeds.asked, deeds.coded, deeds.stored, fun c code => ?_, deeds.freed⟩
  rw [deeds.exits]
  by_cases hc : c = s.nextPid
  · subst hc
    have : ¬(s.pc s.nextPid).Exits := by rw [hpc]; exact id
    exact iff_of_false (fun h => this h.2) fun h => this h.2
  · simp [State.newTask, hc]

theorem Deeds.exit (deeds : Deeds s as) (hp : s.pc p = .user) (code : Int) :
    Deeds ({ s with exitCode := Function.update s.exitCode p code }.goto p .exiting)
      (as ++ [.exit p code]) := by
  obtain ⟨asked, coded, stored, exits, freed⟩ := deeds
  refine ⟨?_, ?_, ?_, ?_, ?_⟩ <;>
    simp only [State.goto, Function.update_apply, List.mem_append, List.mem_singleton] <;>
    grind [Pc.holds, Pc.Exits]

theorem Deeds.free (deeds : Deeds s as) (hp : s.pc p = .gone) :
    Deeds ((s.setChildren p []).goto p .freed) (as ++ [.free p]) := by
  obtain ⟨asked, coded, stored, exits, freed⟩ := deeds
  refine ⟨?_, ?_, ?_, ?_, ?_⟩ <;>
    simp only [State.goto, State.setChildren, Function.update_apply, List.mem_append,
      List.mem_singleton] <;>
    grind [Pc.holds, Pc.Exits]

theorem Deeds.frame (deeds : Deeds s as) (state : Nat → TaskState) (children : Nat → List Nat)
    (space : Nat → Option AddressSpace) (mem : Mem) :
    Deeds { s with state := state, children := children, space := space, mem := mem } as :=
  ⟨deeds.asked, deeds.coded, deeds.stored, deeds.exits, deeds.freed⟩

/-! ## Every run -/

def Good (s : State) (as : List Op) : Prop := ∃ place, Inv s place ∧ Tale place as ∧ Deeds s as

theorem Good.boot (mem : Mem) : Good (.boot mem) [] := by
  refine ⟨fun c => if c = 0 then .loose else .absent, ⟨?_, ?_, ?_, ?_, ?_, ?_, ?_, ?_⟩,
    ⟨?_, ?_, ?_, ?_, ?_⟩, ⟨?_, ?_, ?_, ?_, ?_⟩⟩
  all_goals grind [State.boot, Pc.holds, Pc.Ended, Pc.Exits]

/-- A step of no consequence for a task that stays calm. -/
theorem Good.calm (good : Good s as) (hp : (s.pc p).Calm) (hx : x.Calm) :
    Good (s.goto p x) (as ++ [.other]) := by
  obtain ⟨place, inv, tale, deeds⟩ := good
  refine ⟨place, inv.goto (hp.follows (.inl hx)), tale.log nofun nofun nofun rfl, ?_⟩
  refine (deeds.calm hx ?_).log nofun nofun nofun
  cases hpc : s.pc p <;> simp_all [Pc.Calm, Pc.Exits]

theorem Step.good {a : Op} (hs : Step s a s') (good : Good s as) : Good s' (as ++ [a]) := by
  have ⟨place, inv, tale, deeds⟩ := good
  have other {s' : State} {place' : Nat → Place} (inv' : Inv s' place') (tale' : Tale place' as)
      (deeds' : Deeds s' as) : Good s' (as ++ [.other]) :=
    ⟨place', inv', tale'.log nofun nofun nofun rfl, deeds'.log nofun nofun nofun⟩
  cases hs with
  | spawn =>
    obtain ⟨habsent, hpc⟩ := inv.next
    refine other (inv.spawn _) (tale.fresh habsent nofun) ((deeds.newTask hpc _).calm trivial ?_)
    simp [State.newTask, hpc, Pc.Exits]
  | forkFrom hp =>
    obtain ⟨habsent, hpc⟩ := inv.next
    refine other (inv.forkFrom hp _) (tale.fresh habsent nofun)
      ((deeds.newTask hpc _).goto nofun nofun ?_ ?_)
    · simp [State.newTask, hp, Pc.Exits]
    · simp [State.newTask, hp]
  | @fork p c hp =>
    obtain ⟨hbuilt, hpc⟩ := inv.child hp
    have hfree : .free p ∉ as := by
      rw [deeds.freed, hp]
      exact nofun
    have hne : c ≠ p := by
      rintro rfl
      rw [hp] at hpc
      cases hpc
    have logged : Deeds s (as ++ [.fork p c]) := deeds.log nofun nofun nofun
    have pushed : Deeds ((s.setChildren p (s.children p ++ [c])).goto p .user)
        (as ++ [.fork p c]) :=
      (logged.frame _ _ _ _).calm trivial (by simp [hp, Pc.Exits])
    refine ⟨_, inv.fork hp, tale.fork hbuilt hfree, pushed.calm trivial ?_⟩
    simp [goto_pc, hne, State.setChildren, hpc, Pc.Exits]
  | waitpid hp | look hp | sleep hp | wake hp =>
    exact good.calm (by rw [hp]; trivial) trivial
  | @take p ptr i c want hp hc hm hz =>
    have hlisted := inv.mem_children.mp (List.mem_of_getElem? hc)
    have logged : Deeds s (as ++ [.take p want c]) := deeds.log nofun nofun nofun
    refine ⟨_, inv.take hp hc hz, tale.take want hlisted,
      (logged.frame _ _ _ _).goto (fun w d h => ?_) nofun ?_ ?_⟩
    · obtain ⟨rfl, rfl⟩ : want = w ∧ c = d := by simpa [Pc.holds] using h
      simp
    · simp [hp, Pc.Exits]
    · simp [hp]
  | @noChild p ptr i want hp =>
    have logged : Deeds s (as ++ [.ret p want Nr.echild]) := deeds.log nofun nofun nofun
    refine ⟨place, inv.goto (Pc.Calm.follows (by rw [hp]; trivial) (.inl trivial)),
      tale.log nofun nofun nofun rfl, logged.calm trivial ?_⟩
    simp [hp, Pc.Exits]
  | @exitCode p ptr c want hp =>
    have hholds : (s.pc p).holds = some (want, c) := by rw [hp]; rfl
    have hended := inv.reaped p c ((inv.taken p c).mp ⟨want, hholds⟩)
    have hexit : .exit c (s.exitCode c) ∈ as := by
      refine (deeds.exits c _).mpr ⟨rfl, ?_⟩
      cases hc : s.pc c <;> simp_all [Pc.Ended, Pc.Exits]
    refine other (inv.goto ?_) tale (deeds.goto (fun w d h => ?_) (fun w q d code h => ?_) ?_ ?_)
    · rw [hp]
      constructor <;> simp [Pc.holds, Pc.Ended]
    · exact deeds.asked p w d (hholds.trans h)
    · obtain ⟨-, -, rfl, rfl⟩ := Pc.coded.inj h
      exact hexit
    · simp [hp, Pc.Exits]
    · simp [hp]
  | @store p ptr c want code hp =>
    have hholds : (s.pc p).holds = some (want, c) := by rw [hp]; rfl
    have logged : Deeds s (as ++ [.store p c ptr code]) := by
      refine deeds.log nofun nofun ?_
      rintro q d r e h
      obtain ⟨rfl, rfl, rfl, rfl⟩ := Op.store.inj h
      exact ⟨deeds.coded _ _ _ _ _ hp, want, deeds.asked p want c hholds⟩
    refine ⟨place, (inv.frame s.exitCode s.space _).goto ?_, tale.log nofun nofun nofun rfl,
      (logged.frame _ _ _ _).goto (fun w d h => ?_) nofun ?_ ?_⟩
    · show (s.pc p).Follows _
      rw [hp]
      constructor <;> simp [Pc.holds, Pc.Ended]
    · exact logged.asked p w d (hholds.trans h)
    · simp [hp, Pc.Exits]
    · simp [hp]
  | @ret p c want hp =>
    have hholds : (s.pc p).holds = some (want, c) := by rw [hp]; rfl
    have htaken := (inv.taken p c).mp ⟨want, hholds⟩
    have logged : Deeds s (as ++ [.ret p want c]) := deeds.log nofun nofun nofun
    refine ⟨_, inv.ret hp, tale.ret htaken (deeds.asked p want c hholds), logged.calm trivial ?_⟩
    simp [hp, Pc.Exits]
  | exit hp =>
    refine ⟨place, (inv.frame _ s.space s.mem).goto ?_,
      tale.log nofun nofun nofun rfl, deeds.exit hp _⟩
    show (s.pc _).Follows _
    exact Pc.Calm.follows (by rw [hp]; trivial) (.inr rfl)
  | zombie hp =>
    refine other (inv.zombified hp) tale ((deeds.frame _ _ _ _).goto nofun nofun ?_ ?_)
    · simp [hp, Pc.Exits]
    · simp [hp]
  | free hp => exact ⟨_, inv.free hp, tale.free _, deeds.free hp⟩
  | schedule hp hst => exact other (inv.schedule hp hst) tale (deeds.frame _ _ _ _)
  | work => exact other (inv.frame _ _ _) tale (deeds.frame _ _ _ _)

theorem Reach.good {x : State × List Op} (h : Reach system.traced x) : Good x.1 x.2 := by
  refine Reach.invariant (fun x => Good x.1 x.2) ?_ ?_ h
  · rintro ⟨s, as⟩ ⟨⟨mem, rfl⟩, rfl⟩
    exact Good.boot mem
  · rintro ⟨s, as⟩ a ⟨s', as'⟩ good ⟨hs, rfl⟩
    exact hs.good good

/-- What has become of the children. -/
structure Reaps (s : State) (as : List Op) : Prop where
  /-- A forked child is in its parent's list and no other, until one `waitpid` of the
  parent takes it off or the parent is freed. -/
  listed : ∀ p c, .fork p c ∈ as → ∀ q, c ∈ s.children q ↔
    q = p ∧ (∀ want, .take p want c ∉ as) ∧ .free p ∉ as
  nodup : ∀ p, (s.children p).Nodup
  returned : ∀ p (want r : Int), .ret p want r ∈ as → 0 < r →
    ∃ c : Nat, r = c ∧ .take p want c ∈ as
  status : ∀ p c ptr code, .store p c ptr code ∈ as →
    (∃ want, .take p want c ∈ as) ∧ ∀ code', .exit c code' ∈ as ↔ code' = code
  once : (as.filterMap Op.returned).Nodup

/-- What one step does: a child taken off the list is a zombie that was asked for and
the others keep their order; its code reaches a pointer the parent can write; and a
scan that is over answers `ECHILD` exactly when no unreaped child is asked for. -/
structure Serves (s : State) (as : List Op) (a : Op) (s' : State) : Prop where
  take : ∀ p want c, a = .take p want c → isMatch want c = true ∧ c ∈ s.children p ∧
    s.state c = .zombie ∧ s'.children = Function.update s.children p ((s.children p).erase c)
  store : ∀ p c ptr code, a = .store p c ptr code →
    s'.mem = storeStatus s.mem (s.space p) ptr code ∧
    ∀ sp, s.space p = some sp → ptr ≠ 0 → AddressSpace.Exact s.mem sp →
      (∀ f, framesOver sp.frames f ≤ 1) →
      (sp.view s.mem).Grants (PteFlags.write ||| PteFlags.user) ptr 4 →
      (sp.view s'.mem).Reads ptr (leBytes (code % 2 ^ 32).toNat 4)
  scanned : ∀ p want, a = .ret p want Nr.echild →
    ∃ ptr i, s.pc p = .scan want ptr i ∧ (s.children p).length ≤ i
  echild : ∀ p want ptr i, s.pc p = .scan want ptr i → (s.children p).length ≤ i →
    s'.pc p ≠ s.pc p → (a = .ret p want Nr.echild ↔
      ∀ c, .fork p c ∈ as → (∀ w, .take p w c ∉ as) → isMatch want c = false)

theorem Good.reaps (good : Good s as) : Reaps s as := by
  obtain ⟨place, inv, tale, deeds⟩ := good
  refine ⟨fun p c hfork q => ?_, inv.nodup, fun p want r hr hpos => ?_, fun p c ptr code hs => ?_,
    tale.once⟩
  · rw [inv.mem_children, tale.home]
    constructor
    · rintro ⟨hq, rest⟩
      obtain rfl := (tale.forked p c hfork).2.2 q hq
      exact ⟨rfl, rest⟩
    · rintro ⟨rfl, rest⟩
      exact ⟨hfork, rest⟩
  · obtain ⟨c, hc, htake, -⟩ := tale.returned p want r hr hpos
    exact ⟨c, hc, htake⟩
  · obtain ⟨hexit, htake⟩ := deeds.stored p c ptr code hs
    obtain ⟨hcode, hends⟩ := (deeds.exits c code).mp hexit
    refine ⟨htake, fun code' => ?_⟩
    rw [deeds.exits, hcode]
    exact ⟨fun h => h.1.symm, fun h => ⟨h.symm, hends⟩⟩

/-- The children that are not reaped are those in the list. -/
theorem Good.unreaped (good : Good s as) (hp : s.pc p ≠ .freed) :
    c ∈ s.children p ↔ .fork p c ∈ as ∧ ∀ want, .take p want c ∉ as := by
  obtain ⟨place, inv, tale, deeds⟩ := good
  rw [inv.mem_children, tale.home]
  refine ⟨fun h => ⟨h.1, h.2.1⟩, fun h => ⟨h.1, h.2, ?_⟩⟩
  rwa [deeds.freed]

theorem storeStatus_reads {mem : Mem} {sp : AddressSpace} {ptr : Nat} (code : Int) (hptr : ptr ≠ 0)
    (h : AddressSpace.Exact mem sp) (apart : ∀ f, framesOver sp.frames f ≤ 1)
    (granted : (sp.view mem).Grants (PteFlags.write ||| PteFlags.user) ptr 4) :
    (sp.view (storeStatus mem (some sp) ptr code)).Reads ptr (leBytes (code % 2 ^ 32).toNat 4) := by
  have hlen : (leBytes (code % 2 ^ 32).toNat 4).length = 4 := length_leBytes _ _
  obtain ⟨mem', heq, -, hview⟩ := AddressSpace.copyToUser_some h apart (hlen.symm ▸ granted)
  have hmem : storeStatus mem (some sp) ptr code = mem' := by
    rw [storeStatus, if_neg hptr]
    exact congrArg Prod.snd heq
  rw [hmem, hview]
  intro k hk
  obtain ⟨x, hx, -⟩ := granted (ptr + k) (by omega) (by omega)
  rw [UserView.overlay, if_pos ⟨by omega, by omega⟩, hx, Nat.add_sub_cancel_left]
  rfl

theorem Step.serves {a : Op} (hs : Step s a s') (good : Good s as) : Serves s as a s' := by
  have unreaped : ∀ p (want : Int), s.pc p ≠ .freed →
      ((∀ c, .fork p c ∈ as → (∀ w, .take p w c ∉ as) → isMatch want c = false) ↔
        anyChildren want (s.children p) = false) := by
    intro p want hp
    rw [anyChildren_eq]
    exact ⟨fun h c hc => h c (good.unreaped hp |>.mp hc).1 (good.unreaped hp |>.mp hc).2,
      fun h c hf ht => h c (good.unreaped hp |>.mpr ⟨hf, ht⟩)⟩
  obtain ⟨place, inv, tale, deeds⟩ := good
  refine ⟨?_, ?_, ?_, ?_⟩
  · rintro p want c rfl
    cases hs with
    | take hp hc hm hz =>
      exact ⟨hm, List.mem_of_getElem? hc, hz, by rw [← inv.eraseIdx hc]; rfl⟩
  · rintro p c ptr code rfl
    cases hs with
    | store hp =>
      refine ⟨rfl, fun sp hsp hptr exact apart granted => ?_⟩
      have := storeStatus_reads code hptr exact apart granted
      rwa [← hsp] at this
  · rintro p want ha
    generalize hr : Op.ret p want Nr.echild = b at ha
    subst ha
    cases hs with
    | noChild hp hlen =>
      obtain ⟨rfl, rfl, -⟩ := Op.ret.inj hr
      exact ⟨_, _, hp, hlen⟩
    | ret hp =>
      obtain ⟨-, -, h⟩ := Op.ret.inj hr
      simp [Nr.echild] at h
    | _ => cases hr
  · intro p want ptr i hp hlen hne
    rw [unreaped p want (by rw [hp]; exact nofun)]
    have away : ∀ {t : State} {q : Nat} {x : Pc}, t.pc = s.pc → s.pc q ≠ s.pc p →
        (t.goto q x).pc p = s.pc p := by
      intro t q x ht hq
      rw [goto_pc, if_neg (fun same => hq (by rw [same])), ht]
    cases hs with
    | @noChild q ptr' j want' hq _ hany =>
      by_cases hpq : p = q
      · subst hpq
        obtain ⟨rfl, -, -⟩ := Pc.scan.inj (hp.symm.trans hq)
        exact iff_of_true rfl hany
      · exact absurd (by rw [goto_pc, if_neg hpq]) hne
    | @sleep q ptr' j want' hq _ hany =>
      by_cases hpq : p = q
      · subst hpq
        obtain ⟨rfl, -, -⟩ := Pc.scan.inj (hp.symm.trans hq)
        exact iff_of_false nofun (by simp [hany])
      · exact absurd (by rw [goto_pc, if_neg hpq]) hne
    | @look q ptr' j c want' hq hc =>
      by_cases hpq : p = q
      · subst hpq
        obtain ⟨rfl, rfl, rfl⟩ := Pc.scan.inj (hp.symm.trans hq)
        rw [List.getElem?_eq_none hlen] at hc
        cases hc
      · exact absurd (by rw [goto_pc, if_neg hpq]) hne
    | @take q ptr' j c want' hq hc =>
      by_cases hpq : p = q
      · subst hpq
        obtain ⟨rfl, rfl, rfl⟩ := Pc.scan.inj (hp.symm.trans hq)
        rw [List.getElem?_eq_none hlen] at hc
        cases hc
      · exact absurd (by rw [goto_pc, if_neg hpq]; rfl) hne
    | @fork q c hq =>
      have hc := (inv.child hq).2
      have pushed : ((s.setChildren q (s.children q ++ [c])).goto q .user).pc p = s.pc p :=
        away rfl (by rw [hq, hp]; exact nofun)
      refine absurd ?_ hne
      rw [goto_pc, if_neg, pushed]
      rintro rfl
      rw [hp] at hc
      cases hc
    | spawn => exact absurd (away rfl (by rw [inv.next.2, hp]; exact nofun)) hne
    | schedule | work => exact absurd rfl hne
    | forkFrom hq | waitpid hq | wake hq | exitCode hq | store hq | ret hq | exit hq | zombie hq
    | free hq => exact absurd (away rfl (by rw [hq, hp]; exact nofun)) hne

end

/-- Each child is reaped once, by its parent and with its own code. -/
theorem reach_reaps {s : State} {as : List Op} (h : Reach system.traced (s, as)) :
    Reaps s as ∧ ∀ a s', Step s a s' → Serves s as a s' :=
  ⟨(Reach.good h).reaps, fun _ _ hs => hs.serves (Reach.good h)⟩

/-- A child exits with 7, and its parent waits for any child, with a pointer to the bottom
of its stack. -/
theorem reaped_after_exit : ∃ s as sp, Reach system.traced (s, as) ∧ Op.fork 1 2 ∈ as ∧
    Op.ret 1 (-1) 2 ∈ as ∧ s.space 1 = some sp ∧
    (sp.view s.mem).Reads (userStackTop - userStackSize) (leBytes 7 4) ∧
    (∀ code, Op.exit 2 code ∈ as ↔ code = 7) ∧ 2 ∉ s.children 1 := by
  obtain ⟨t, sp, other, holds, exact, -, grants⟩ := two_programs
  have booted : Reach system.traced (State.boot t.mem, []) := .init ⟨⟨_, rfl⟩, rfl⟩
  have built := (booted.extend (@Step.spawn _ (some sp))).extend
    (@Step.forkFrom _ 1 (some other) rfl)
  have forked := built.extend (@Step.fork _ 1 2 rfl)
  have exited := (forked.extend (@Step.exit _ 2 7 rfl)).extend (@Step.zombie _ 2 rfl)
  have waits := exited.extend (@Step.waitpid _ 1 (userStackTop - userStackSize) (-1) rfl)
  have taken := (waits.extend (@Step.take _ 1 _ 0 2 (-1) rfl rfl rfl rfl)).extend
    (@Step.exitCode _ 1 _ 2 (-1) rfl)
  have serves := (reach_reaps taken).2 _ _ (@Step.store _ 1 _ 2 (-1) 7 rfl)
  have apart : ∀ f, framesOver sp.frames f ≤ 1 := fun f =>
    (framesOver_mono (Multiset.le_add_right _ _) f).trans (Buddy.dram.apart holds f)
  have stored := (serves.store 1 2 _ 7 rfl).2 sp rfl (by decide) exact apart
    (grants.sub (Nat.le_refl _) (by decide))
  have returned := (taken.extend (@Step.store _ 1 _ 2 (-1) 7 rfl)).extend (@Step.ret _ 1 2 (-1) rfl)
  have reaps := (reach_reaps returned).1
  exact ⟨_, _, sp, returned, by simp, by simp, rfl, stored,
    (reaps.status 1 2 (userStackTop - userStackSize) 7 (by simp)).2, List.not_mem_nil⟩

end Reap

end AlexOS
