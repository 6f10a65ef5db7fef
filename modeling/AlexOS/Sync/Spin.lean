import AlexOS.Lib.Run
import Mathlib.Data.List.Basic
import Mathlib.Logic.Function.Basic

/-!
# Spin locks and the interrupt flag

`SpinLock` and its guard (`kernel/src/sync/spin.rs`) on one hart, with any number of
locks and other harts that take and release them. Each guard remembers the interrupt
flag it found. Guards may be dropped in any order, so the one that found the flag on
can go first and turn interrupts on under the others.
-/

namespace AlexOS

structure SpinLockGuard (ι : Type) where
  lock : ι
  restoreIntr : Bool
deriving DecidableEq, Repr

/-- One hart: the flag `SIE`, the lock words, the live guards from the first taken to
the last, and the guard that a `lock` still spinning is going to return. -/
structure SpinHart (ι : Type) where
  sie : Bool
  locked : ι → Bool
  guards : List (SpinLockGuard ι)
  spinning : Option (SpinLockGuard ι)

namespace SpinHart

variable {ι : Type} [DecidableEq ι]

def setLocked (s : SpinHart ι) (l : ι) (b : Bool) : SpinHart ι :=
  { s with locked := Function.update s.locked l b }

/-- `lock` up to its loop: remember the flag and mask. -/
def lock (s : SpinHart ι) (l : ι) : SpinHart ι :=
  { s with sie := false, spinning := some ⟨l, s.sie⟩ }

/-- The exchange in the loop of `lock` succeeds. -/
def acquire (s : SpinHart ι) (g : SpinLockGuard ι) : SpinHart ι :=
  { s.setLocked g.lock true with guards := s.guards ++ [g], spinning := none }

def tryLock (s : SpinHart ι) (l : ι) : SpinHart ι :=
  let restoreIntr := s.sie
  let s := { s with sie := false }
  if s.locked l then if restoreIntr then { s with sie := true } else s
  else { s.setLocked l true with guards := s.guards ++ [⟨l, restoreIntr⟩] }

/-- The guard at place `i` goes out of scope. -/
def drop (s : SpinHart ι) (i : Nat) (g : SpinLockGuard ι) : SpinHart ι :=
  { s.setLocked g.lock false with
    guards := s.guards.eraseIdx i
    sie := if g.restoreIntr then true else s.sie }

inductive Op (ι : Type) where
  | lock (l : ι)
  /-- The exchange fails: the lock is held, or the weak exchange failed for no reason. -/
  | spin
  | acquire
  | tryLock (l : ι)
  | drop (i : Nat)
  /-- Another hart takes or releases a lock. -/
  | other (l : ι) (b : Bool)

inductive Step (s : SpinHart ι) : Op ι → SpinHart ι → Prop where
  | lock {l : ι} (hidle : s.spinning = none) : Step s (.lock l) (s.lock l)
  | spin {g : SpinLockGuard ι} (hg : s.spinning = some g) : Step s .spin s
  | acquire {g : SpinLockGuard ι} (hg : s.spinning = some g) (hfree : s.locked g.lock = false) :
      Step s .acquire (s.acquire g)
  | tryLock {l : ι} (hidle : s.spinning = none) : Step s (.tryLock l) (s.tryLock l)
  | drop {i : Nat} {g : SpinLockGuard ι} (hidle : s.spinning = none)
      (hg : s.guards[i]? = some g) : Step s (.drop i) (s.drop i g)
  | other {l : ι} {b : Bool} (hl : ∀ g ∈ s.guards, g.lock ≠ l) :
      Step s (.other l b) (s.setLocked l b)

/-- The hart holds no lock; the flag is on or off. -/
def system (sie₀ : Bool) : System (SpinHart ι) (Op ι) :=
  ⟨fun s => s.sie = sie₀ ∧ s.guards = [] ∧ s.spinning = none, Step⟩

/-- Masked while a guard lives; as at the start between calls when none does. -/
def Masked (sie₀ : Bool) (s : SpinHart ι) : Prop :=
  (s.guards ≠ [] → s.sie = false) ∧ (s.guards = [] → s.spinning = none → s.sie = sie₀)

/-- With interrupts on at the start, the oldest guard is dropped only when it is alone. -/
def OldestLast (sie₀ : Bool) (s : SpinHart ι) : Op ι → Prop
  | .drop i => sie₀ = true → i = 0 → s.guards.length = 1
  | _ => True

/-! ## What one step keeps -/

/-- The guards that the hart has or is spinning for, oldest first. -/
def pending (s : SpinHart ι) : List (SpinLockGuard ι) := s.guards ++ s.spinning.toList

/-- Only the oldest of them found the flag as it was at the start. -/
def Flags (sie₀ sie : Bool) : List (SpinLockGuard ι) → Prop
  | [] => sie = sie₀
  | g :: gs => g.restoreIntr = sie₀ ∧ (∀ x ∈ gs, x.restoreIntr = false) ∧ sie = false

def Nested (sie₀ : Bool) (s : SpinHart ι) : Prop := Flags sie₀ s.sie s.pending

variable {sie₀ : Bool} {s t : SpinHart ι} {a : Op ι}

omit [DecidableEq ι] in
theorem pending_idle (h : s.spinning = none) : s.pending = s.guards := by
  rw [pending, h, Option.toList_none, List.append_nil]

omit [DecidableEq ι] in
/-- Masking once more and remembering the flag. -/
theorem Flags.mask {sie : Bool} {gs : List (SpinLockGuard ι)} (h : Flags sie₀ sie gs) (l : ι) :
    Flags sie₀ false (gs ++ [⟨l, sie⟩]) := by
  cases gs with
  | nil => exact ⟨h, nofun, rfl⟩
  | cons g gs =>
    obtain ⟨first, rest, masked⟩ := h
    refine ⟨first, ?_, rfl⟩
    intro x hx
    rcases List.mem_append.mp hx with hx | hx
    · exact rest x hx
    · rw [List.mem_singleton.mp hx, masked]

omit [DecidableEq ι] in
theorem Nested.masked (h : s.Nested sie₀) : s.Masked sie₀ := by
  constructor
  · intro live
    obtain ⟨g, gs, hgs⟩ := List.exists_cons_of_ne_nil live
    rw [Nested, pending, hgs] at h
    exact h.2.2
  · intro none idle
    rw [Nested, pending_idle idle, none] at h
    exact h

theorem Nested.tryLock (h : s.Nested sie₀) (idle : s.spinning = none) (l : ι) :
    (s.tryLock l).Nested sie₀ := by
  rw [Nested, pending_idle idle] at h
  simp only [SpinHart.tryLock]
  by_cases hl : s.locked l = true
  · have same : (if s.sie then { s with sie := true } else { s with sie := false }) = s := by
      cases s with | mk sie => cases sie <;> rfl
    rw [if_pos hl, same, Nested, pending_idle idle]
    exact h
  · rw [if_neg hl, Nested, pending_idle (by exact idle)]
    exact h.mask l

/-- A drop keeps the flags in order exactly when it is not the oldest of several guards
that goes, or nothing was to be restored. -/
theorem Nested.drop_iff {i : Nat} {g : SpinLockGuard ι} (h : s.Nested sie₀)
    (idle : s.spinning = none) (hg : s.guards[i]? = some g) :
    ((s.drop i g).Nested sie₀ ↔ s.OldestLast sie₀ (.drop i)) ∧
      ((s.drop i g).Masked sie₀ ↔ s.OldestLast sie₀ (.drop i)) := by
  rw [Nested, pending_idle idle] at h
  have idle' : (s.drop i g).spinning = none := idle
  rw [Nested, pending_idle idle']
  simp only [SpinHart.drop, OldestLast, Masked, setLocked]
  rcases hgs : s.guards with _ | ⟨first, rest⟩
  · rw [hgs] at hg
    cases hg
  rw [hgs] at h hg
  obtain ⟨hfirst, hrest, hsie⟩ := h
  cases i with
  | zero =>
    obtain rfl : first = g := Option.some.inj hg
    cases rest with
    | nil => cases sie₀ <;> simp_all [Flags]
    | cons second rest => cases sie₀ <;> simp_all [Flags]
  | succ i =>
    have hin : g ∈ rest := List.mem_of_getElem? hg
    have hoff := hrest g hin
    have still : ∀ x ∈ rest.eraseIdx i, x.restoreIntr = false :=
      fun x hx => hrest x (List.mem_of_mem_eraseIdx hx)
    simp_all [Flags]

/-- One step from a state in order: it stays in order, and masked, exactly when the
step is not the drop that turns interrupts on too early. -/
theorem Step.nested_iff (hs : Step s a t) (h : s.Nested sie₀) :
    (t.Nested sie₀ ↔ s.OldestLast sie₀ a) ∧ (t.Masked sie₀ ↔ s.OldestLast sie₀ a) := by
  have always : t.Nested sie₀ → s.OldestLast sie₀ a →
      (t.Nested sie₀ ↔ s.OldestLast sie₀ a) ∧ (t.Masked sie₀ ↔ s.OldestLast sie₀ a) :=
    fun kept ok => ⟨iff_of_true kept ok, iff_of_true kept.masked ok⟩
  cases hs with
  | lock idle =>
    refine always ?_ trivial
    rw [Nested, pending_idle idle] at h
    exact h.mask _
  | spin hg => exact always h trivial
  | @acquire g hg hfree =>
    refine always ?_ trivial
    rw [Nested, pending, hg] at h
    rw [Nested, pending_idle (show (s.acquire g).spinning = none from rfl)]
    exact h
  | tryLock idle => exact always (h.tryLock idle _) trivial
  | drop idle hg => exact h.drop_iff idle hg
  | other hl => exact always h trivial

/-! ## Whole runs -/

theorem reach_nested (h : Reach ((system sie₀).guard (OldestLast sie₀)) s) : s.Nested sie₀ := by
  refine Reach.invariant (S := (system sie₀).guard (OldestLast sie₀)) (Nested sie₀) ?_ ?_ h
  · rintro s ⟨hsie, hguards, hidle⟩
    rw [Nested, pending_idle hidle, hguards]
    exact hsie
  · rintro s a t nested ⟨hs, ok⟩
    exact (hs.nested_iff nested).1.mpr ok

/-- As long as the oldest guard goes last, interrupts are masked while a guard lives and
are as at the start when none does; the first drop out of that order breaks this. -/
theorem reach_masked_iff (h : Reach ((system sie₀).guard (OldestLast sie₀)) s) :
    s.Masked sie₀ ∧
      ∀ a t, (system sie₀).step s a t → (t.Masked sie₀ ↔ s.OldestLast sie₀ a) :=
  ⟨(reach_nested h).masked, fun _ _ hs => (hs.nested_iff (reach_nested h)).2⟩

def twoLocks (sie : Bool) : SpinHart Bool := ⟨sie, fun _ => false, [], none⟩

/-- Two locks taken with interrupts on and the first released first: the second is held
with interrupts on. -/
theorem first_dropped_first : ∃ s : SpinHart Bool, Reach (system true) s ∧
    s.guards = [⟨true, false⟩] ∧ s.sie = true ∧ ¬ s.Masked true := by
  have start : Reach (system true) (twoLocks true) := .init ⟨rfl, rfl, rfl⟩
  have first := (start.step _ (.lock (l := false) rfl)).step _ (.acquire rfl rfl)
  have second := (first.step _ (.lock (l := true) rfl)).step _ (.acquire rfl rfl)
  refine ⟨_, second.step (.drop 0) (.drop rfl rfl), rfl, rfl, ?_⟩
  intro masked
  cases masked.1 (List.cons_ne_nil _ _)

/-- Two locks, one by `try_lock`, and the last taken released first. -/
theorem last_dropped_first : ∃ s : SpinHart Bool,
    Reach ((system true).guard (OldestLast true)) s ∧ s.guards = [⟨false, true⟩] ∧
      s.Masked true ∧ (s.drop 0 ⟨false, true⟩).Masked true := by
  have next : ∀ {s t : SpinHart Bool} {a}, Reach ((system true).guard (OldestLast true)) s →
      Step s a t → s.OldestLast true a → Reach ((system true).guard (OldestLast true)) t :=
    fun h hs ok => h.step _ ⟨hs, ok⟩
  have start : Reach ((system true).guard (OldestLast true)) (twoLocks true) :=
    .init ⟨rfl, rfl, rfl⟩
  have first := next (next start (.lock (l := false) rfl) trivial) (.acquire rfl rfl) trivial
  have second := next first (.tryLock (l := true) rfl) trivial
  have back := next second (.drop (i := 1) (g := ⟨true, false⟩) rfl rfl) fun _ => nofun
  exact ⟨_, back, rfl, (reach_masked_iff back).1,
    ((reach_masked_iff back).2 (.drop 0) _ (Step.drop rfl rfl)).mpr fun _ _ => rfl⟩

end SpinHart

end AlexOS
