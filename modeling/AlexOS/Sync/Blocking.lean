import AlexOS.Sync.Wait
import Mathlib.Algebra.Ring.Int.Defs
import Mathlib.Data.List.Basic

/-!
# Mutexes and semaphores

`Mutex` and `Semaphore` of `kernel/src/sync/wait.rs`, for any number of tasks in any
interleaving. Both try, and when that fails wait until it looks as if it could
succeed and try again. All they need of `wait_until` is that it returns when its
condition holds; nothing here rests on who is woken or when.
-/

namespace AlexOS

/-! ## `wait_until` from outside -/

/-- Who is in `wait_until`, and whether its condition holds. -/
structure Until where
  waiting : Nat → Bool
  cond : Bool

namespace Until

inductive Op where
  | enter (me : Nat)
  | leave (me : Nat)
  | set (b : Bool)

inductive Step (u : Until) : Op → Until → Prop where
  | enter {me : Nat} :
      Step u (.enter me) { u with waiting := Function.update u.waiting me true }
  | leave {me : Nat} : u.waiting me = true → u.cond = true →
      Step u (.leave me) { u with waiting := Function.update u.waiting me false }
  | set {b : Bool} : Step u (.set b) { u with cond := b }

def system : System Until Op := ⟨(· = ⟨fun _ => false, false⟩), Step⟩

end Until

/-- In `wait_until` on the queue `n`. -/
def Pc.inUntil (n : Nat) : Pc → Bool
  | .untilTop m => m == n
  | .wait (.named m) .waitUntil | .enqueued (.named m) .waitUntil
  | .parked (.named m) .waitUntil => m == n
  | _ => false

namespace Kernel

def untilView (k : Kernel) (n : Nat) : Until := ⟨fun me => (k.pc (some me)).inUntil n, k.cond n⟩

variable {k k' : Kernel} {op : Op} {n : Nat}

/-- One actor goes on, and leaves `wait_until` only if the condition holds. -/
theorem untilView_goto {c : Ctx} {p : Pc} (hpc : k'.pc = Function.update k.pc c p)
    (hcond : k'.cond = k.cond)
    (hleave : (k.pc c).inUntil n = true → p.inUntil n = false → k.cond n = true) :
    k'.untilView n = k.untilView n ∨ ∃ a, Until.Step (k.untilView n) a (k'.untilView n) := by
  have hview : k'.untilView n =
      ⟨fun me => (Function.update k.pc c p (some me)).inUntil n, k.cond n⟩ := by
    rw [untilView, hpc, hcond]
  rcases c with _ | me
  · refine .inl (hview.trans ?_)
    rw [untilView]
    congr 1
  have hwaiting : (fun u => (Function.update k.pc (some me) p (some u)).inUntil n) =
      Function.update (k.untilView n).waiting me (p.inUntil n) := by
    funext u
    by_cases hu : u = me
    · rw [hu, Function.update_self, Function.update_self]
    · rw [Function.update_of_ne (by simpa using hu), Function.update_of_ne hu]
      rfl
  rw [hview, hwaiting]
  cases hp : p.inUntil n with
  | true => exact .inr ⟨_, .enter⟩
  | false =>
    cases hin : (k.pc (some me)).inUntil n with
    | true => exact .inr ⟨_, .leave hin (hleave hin hp)⟩
    | false =>
      refine .inl ?_
      rw [show false = (k.untilView n).waiting me from hin.symm, Function.update_eq_self]
      rfl

theorem untilView_run {c : Ctx} {p : Pc} (hpc : k'.pc = Function.update k.pc c p)
    (hold : (k.pc c).inUntil n = false) (hnew : p.inUntil n = false) :
    k'.untilView n = { k.untilView n with cond := k'.cond n } := by
  have hwaiting : (fun me => (k'.pc (some me)).inUntil n) = (k.untilView n).waiting := by
    funext me
    rw [hpc, Function.update_apply]
    split
    · rename_i hc
      rw [hnew, ← hold, ← hc]
      rfl
    · rfl
  rw [Kernel.untilView, hwaiting]

theorem Acts.pc {c : Ctx} {p : Pc} (h : k.Acts c p) : k.pc c = p := h.2.2

/-- All that a step of the kernel does to those in `wait_until`. -/
theorem Step.untilView (hs : Step k op k') :
    k'.untilView n = k.untilView n ∨ ∃ a, Until.Step (k.untilView n) a (k'.untilView n) := by
  cases hs with
  | sched => exact .inl rfl
  | wait h | waitUntil h | wakeNext h | wakeDone h | waitpid h | exit h | drain h _ | orphan h _ =>
    exact untilView_goto rfl rfl (by simp [h.pc, Pc.inUntil])
  | @check me m h =>
    refine untilView_goto rfl rfl ?_
    intro hin hout
    rw [h.pc] at hin
    obtain rfl : m = n := by simpa [Pc.inUntil] using hin
    by_contra hcond
    simp [hcond, Pc.inUntil] at hout
  | @enqueue _ q a h | @block _ q a h =>
    refine untilView_goto rfl rfl ?_
    rw [h.pc]
    cases q <;> cases a <;> simp_all [Pc.inUntil]
  | @unpark me q a h =>
    refine untilView_goto rfl rfl ?_
    rw [h.pc]
    cases q <;> cases a <;> simp_all [Pc.inUntil, Caller.next]
  | @signal c m h =>
    rw [untilView_run (k := k) rfl (by rw [h.pc]; rfl) rfl]
    exact .inr ⟨_, .set⟩
  | reset h => exact .inr ⟨_, .set⟩
  | wakeOne h =>
    rcases h with h | h <;> exact untilView_goto rfl rfl (by simp [h.pc, Pc.inUntil])
  | wakeAll h =>
    rcases h with h | h <;> exact untilView_goto rfl rfl (by simp [h.pc, Pc.inUntil])
  | fork h _ => exact .inl rfl
  | scan h =>
    rw [Kernel.scan]
    dsimp only
    split
    · exact untilView_goto rfl rfl (by simp [h.pc, Pc.inUntil])
    · split <;> exact untilView_goto rfl rfl (by simp [h.pc, Pc.inUntil])
  | zombie h => exact .inl rfl

/-- `wait_until` returns only when its condition holds. -/
theorem reach_until {k : Kernel} (h : Reach system k) (n : Nat) :
    Reach Until.system (k.untilView n) := by
  refine Reach.simulate (S := system) (T := Until.system) (fun k => k.untilView n) ?_
    (fun _ _ _ _ hs => Step.untilView hs) h
  rintro k rfl
  rfl

end Kernel

/-- Where a task is in `Mutex::lock`, `Semaphore::acquire` or the code that wakes. -/
inductive LockPoint where
  | run
  /-- At the top of the loop. -/
  | trying
  /-- In `wait_until`. -/
  | waiting
  /-- Released, before `wake_one`. -/
  | waking
deriving DecidableEq, Repr

/-! ## `Mutex` -/

structure Mutex where
  locked : Bool

namespace Mutex

def new : Mutex := ⟨false⟩

/-- The compare-and-exchange: whether there is a guard now. -/
def exchange (x : Mutex) : Bool × Mutex := if x.locked then (false, x) else (true, ⟨true⟩)

/-- The store in the drop of a guard. -/
def unlock (_ : Mutex) : Mutex := ⟨false⟩

/-- A mutex, the tasks that took the guards that live now, and where each task is. -/
structure World where
  mutex : Mutex
  guards : List Nat
  pc : Nat → LockPoint

namespace World

def goto (w : World) (me : Nat) (p : LockPoint) : World :=
  { w with pc := Function.update w.pc me p }

/-- `me` goes on at `won` with a guard, or at `lost`. -/
def exchange (w : World) (me : Nat) (won lost : LockPoint) : World :=
  let (got, mutex) := w.mutex.exchange
  { w.goto me (if got then won else lost) with
    mutex := mutex
    guards := if got then w.guards ++ [me] else w.guards }

def untilView (w : World) : Until := ⟨fun me => w.pc me == .waiting, !w.mutex.locked⟩

end World

inductive Op where
  | lock
  | turn
  | tryLock
  | drop (i : Nat)
  | wakeOne
  | wait
deriving DecidableEq, Repr

/-- A guard may be dropped by any task: it can be sent. -/
inductive Step (w : World) (me : Nat) : Op → World → Prop where
  | lock : w.pc me = .run → Step w me .lock (w.goto me .trying)
  | turn : w.pc me = .trying → Step w me .turn (w.exchange me .run .waiting)
  | tryLock : w.pc me = .run → Step w me .tryLock (w.exchange me .run .run)
  | drop {i : Nat} : w.pc me = .run → i < w.guards.length → Step w me (.drop i)
      { w.goto me .waking with mutex := w.mutex.unlock, guards := w.guards.eraseIdx i }
  | wakeOne : w.pc me = .waking → Step w me .wakeOne (w.goto me .run)
  | wait {u : Until} : Until.Step w.untilView (.leave me) u → Step w me .wait (w.goto me .trying)

def system : System World (Nat × Op) :=
  ⟨(· = ⟨new, [], fun _ => .run⟩), fun w a w' => Step w a.1 a.2 w'⟩

/-- The word says whether there is a guard, and there is no second one. -/
def Exclusive (w : World) : Prop := w.guards.length = if w.mutex.locked then 1 else 0

variable {w w' : World} {me : Nat} {op : Op}

theorem Exclusive.exchange (h : Exclusive w) (me : Nat) (won lost : LockPoint) :
    Exclusive (w.exchange me won lost) := by
  unfold Exclusive at h
  cases hlocked : w.mutex.locked with
  | true =>
    rw [hlocked] at h
    simpa [World.exchange, Mutex.exchange, hlocked, Exclusive] using h
  | false =>
    rw [hlocked] at h
    simpa [World.exchange, Mutex.exchange, hlocked, Exclusive] using h

theorem Step.exclusive (hs : Step w me op w') (h : Exclusive w) : Exclusive w' := by
  cases hs with
  | lock => exact h
  | turn => exact h.exchange me .run .waiting
  | tryLock => exact h.exchange me .run .run
  | @drop i _ hi =>
    have one : w.guards.length = 1 := by
      unfold Exclusive at h
      split at h <;> omega
    simp [Exclusive, unlock, List.length_eraseIdx_of_lt hi, one]
  | wakeOne => exact h
  | wait => exact h

theorem reach_exclusive (h : Reach system w) : Exclusive w := by
  refine Reach.invariant (S := system) Exclusive ?_ (fun _ _ _ ex hs => hs.exclusive ex) h
  rintro w rfl
  rfl

end Mutex

/-! ## `Semaphore` -/

structure Semaphore where
  count : Int

namespace Semaphore

def new (initial : Int) : Semaphore := ⟨initial⟩

/-- One turn of the loop of `acquire`, under the lock of the count: whether it has a permit. -/
def acquireTurn (x : Semaphore) : Bool × Semaphore :=
  if 0 < x.count then (true, ⟨x.count - 1⟩) else (false, x)

/-- `release` up to `wake_one`; the addition is checked. -/
def release (x : Semaphore) : Option Semaphore :=
  if x.count + 1 < 2 ^ 63 then some ⟨x.count + 1⟩ else none

def available (x : Semaphore) : Int := x.count

structure World where
  sem : Semaphore
  pc : Nat → LockPoint

def World.goto (w : World) (me : Nat) (p : LockPoint) : World :=
  { w with pc := Function.update w.pc me p }

def World.untilView (w : World) : Until :=
  ⟨fun me => w.pc me == .waiting, decide (0 < w.sem.count)⟩

inductive Op where
  | acquire
  | turn (got : Bool)
  | release
  | wakeOne
  | wait
deriving DecidableEq, Repr

inductive Step (w : World) (me : Nat) : Op → World → Prop where
  | acquire : w.pc me = .run → Step w me .acquire (w.goto me .trying)
  | turn {got : Bool} {sem : Semaphore} : w.pc me = .trying → w.sem.acquireTurn = (got, sem) →
      Step w me (.turn got) { w.goto me (if got then .run else .waiting) with sem := sem }
  | release {sem : Semaphore} : w.pc me = .run → w.sem.release = some sem →
      Step w me .release { w.goto me .waking with sem := sem }
  | wakeOne : w.pc me = .waking → Step w me .wakeOne (w.goto me .run)
  | wait {u : Until} : Until.Step w.untilView (.leave me) u → Step w me .wait (w.goto me .trying)

def system (initial : Int) : System World (Nat × Op) :=
  ⟨(· = ⟨new initial, fun _ => .run⟩), fun w a w' => Step w a.1 a.2 w'⟩

/-- The calls of `acquire` that have their permit. -/
def acquires (as : List (Nat × Op)) : Nat := as.countP fun a => a.2 = .turn true

/-- The calls of `release` that have returned theirs. -/
def releases (as : List (Nat × Op)) : Nat := as.countP fun a => a.2 = .release

/-- The permits there were, with those returned, less those taken. -/
def Conserved (initial : Int) (w : World) (as : List (Nat × Op)) : Prop :=
  w.sem.available = initial + releases as - acquires as ∧ 0 ≤ w.sem.available

variable {initial : Int} {w w' : World} {me : Nat} {op : Op} {as : List (Nat × Op)}

theorem Step.conserved (hs : Step w me op w') (h : Conserved initial w as) :
    Conserved initial w' (as ++ [(me, op)]) := by
  obtain ⟨sum, nonneg⟩ := h
  unfold Conserved acquires releases at *
  rw [List.countP_append, List.countP_append]
  unfold available at *
  cases hs with
  | acquire => simpa [World.goto] using ⟨sum, nonneg⟩
  | turn _ hturn =>
    unfold acquireTurn at hturn
    split at hturn
    · obtain ⟨rfl, rfl⟩ := Prod.mk.inj hturn
      simp
      omega
    · obtain ⟨rfl, rfl⟩ := Prod.mk.inj hturn
      simpa using ⟨sum, nonneg⟩
  | release _ hrelease =>
    unfold Semaphore.release at hrelease
    split at hrelease
    · obtain rfl := Option.some.inj hrelease
      simp
      omega
    · cases hrelease
  | wakeOne => simpa [World.goto] using ⟨sum, nonneg⟩
  | wait => simpa [World.goto] using ⟨sum, nonneg⟩

theorem reach_conserved (start : 0 ≤ initial) (h : Reach (system initial).traced (w, as)) :
    Conserved initial w as := by
  refine Reach.invariant (S := (system initial).traced) (fun x => Conserved initial x.1 x.2) ?_ ?_ h
  · rintro ⟨w, as⟩ ⟨rfl, rfl⟩
    simpa [Conserved, available, acquires, releases, new] using start
  · rintro ⟨w, as⟩ a ⟨w', as'⟩ conserved ⟨hs, rfl⟩
    exact hs.conserved conserved

end Semaphore

/-- A mutex has at most one guard, and its word is set exactly when there is one; the
count of a semaphore is the permits it began with, plus releases, less acquires. -/
theorem reach_exclusive_and_conserved :
    (∀ w, Reach Mutex.system w →
      w.guards.length ≤ 1 ∧ (w.mutex.locked = true ↔ w.guards.length = 1)) ∧
    (∀ initial w as, 0 ≤ initial → Reach (Semaphore.system initial).traced (w, as) →
      w.sem.count = initial + Semaphore.releases as - Semaphore.acquires as ∧ 0 ≤ w.sem.count) := by
  refine ⟨?_, fun initial w as start h => Semaphore.reach_conserved start h⟩
  intro w h
  have exclusive := Mutex.reach_exclusive h
  unfold Mutex.Exclusive at exclusive
  split at exclusive <;> simp_all

/-- Two tasks. The one that lost the race for the mutex waits, and has it after the other has
dropped its guard; the one that found no permit waits, and has one after the other has released. -/
theorem contended : (∃ w, Reach Mutex.system w ∧ w.guards = [1] ∧ w.pc 0 = .waking ∧
      w.mutex.locked = true) ∧
    ∃ w as, Reach (Semaphore.system 1).traced (w, as) ∧ Semaphore.acquires as = 2 ∧
      Semaphore.releases as = 1 ∧
      w.sem.count = 1 + Semaphore.releases as - Semaphore.acquires as := by
  constructor
  · have start : Reach Mutex.system _ := .init rfl
    have held := (start.step (0, _) (.lock rfl)).step (0, _) (.turn rfl)
    have lost := (held.step (1, _) (.lock rfl)).step (1, _) (.turn rfl)
    have dropped := lost.step (0, _) (.drop (i := 0) rfl (by decide))
    have passed := (dropped.step (1, _) (.wait (.leave rfl rfl))).step (1, _) (.turn rfl)
    exact ⟨_, passed, rfl, rfl, ((reach_exclusive_and_conserved.1 _ passed).2).mpr rfl⟩
  · have start : Reach (Semaphore.system 1).traced (_, []) := .init ⟨rfl, rfl⟩
    have taken := (start.extend (a := (0, _)) (.acquire rfl)).extend (a := (0, _)) (.turn rfl rfl)
    have lost := (taken.extend (a := (1, _)) (.acquire rfl)).extend (a := (1, _)) (.turn rfl rfl)
    have released := lost.extend (a := (0, _)) (.release rfl rfl)
    have passed := (released.extend (a := (1, _))
      (.wait (.leave rfl (by decide)))).extend (a := (1, _))
      (.turn rfl rfl)
    exact ⟨_, _, passed, by decide, by decide,
      (reach_exclusive_and_conserved.2 1 _ _ (by decide) passed).1⟩

end AlexOS
