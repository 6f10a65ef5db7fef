import Mathlib.Init

/-!
# Runs of a transition system

A system is an initial predicate and a labelled step relation. What one step
preserves holds along every run, and a run of one system is carried to another
by a map under which each step is a step or no change.
-/

namespace AlexOS

structure System (σ α : Type) where
  init : σ → Prop
  step : σ → α → σ → Prop

variable {σ τ α β : Type}

inductive Reach (S : System σ α) : σ → Prop where
  | init {s : σ} : S.init s → Reach S s
  | step {s t : σ} (a : α) : Reach S s → S.step s a t → Reach S t

theorem Reach.invariant {S : System σ α} (Inv : σ → Prop) (start : ∀ s, S.init s → Inv s)
    (next : ∀ s a t, Inv s → S.step s a t → Inv t) {s : σ} (h : Reach S s) : Inv s := by
  induction h with
  | init hs => exact start _ hs
  | step a _ hstep ih => exact next _ a _ ih hstep

/-- The runs whose every step meets a condition on the state it is taken from. -/
def System.guard (S : System σ α) (ok : σ → α → Prop) : System σ α :=
  ⟨S.init, fun s a t => S.step s a t ∧ ok s a⟩

theorem Reach.of_guard {S : System σ α} {ok : σ → α → Prop} {s : σ} (h : Reach (S.guard ok) s) :
    Reach S s := by
  induction h with
  | init hs => exact .init hs
  | step a _ hstep ih => exact .step a ih hstep.1

/-- The runs from one of the initial states. -/
def System.startAt (S : System σ α) (s₀ : σ) : System σ α :=
  ⟨fun s => S.init s ∧ s = s₀, S.step⟩

theorem Reach.of_startAt {S : System σ α} {s₀ s : σ} (h : Reach (S.startAt s₀) s) : Reach S s := by
  induction h with
  | init hs => exact .init hs.1
  | step a _ hstep ih => exact .step a ih hstep

/-- The runs that go on from a state. -/
def System.after (S : System σ α) (s₀ : σ) : System σ α := ⟨(· = s₀), S.step⟩

/-- The system together with the actions it has taken so far. -/
def System.traced (S : System σ α) : System (σ × List α) α :=
  ⟨fun x => S.init x.1 ∧ x.2 = [], fun x a y => S.step x.1 a y.1 ∧ y.2 = x.2 ++ [a]⟩

theorem Reach.extend {S : System σ α} {s t : σ} {as : List α} {a : α}
    (h : Reach S.traced (s, as)) (hs : S.step s a t) : Reach S.traced (t, as ++ [a]) :=
  h.step a ⟨hs, rfl⟩

/-- A run computes what its steps do to what is seen of the state. -/
theorem Reach.computes {S : System σ α} {s₀ : σ} (Inv : σ → Prop) (view : σ → τ)
    (act : τ → α → τ) (start : ∀ s, S.init s → Inv s)
    (next : ∀ s a t, Inv s → S.step s a t → Inv t ∧ view t = act (view s) a) {s : σ} {as : List α}
    (h : Reach (S.startAt s₀).traced (s, as)) : Inv s ∧ view s = as.foldl act (view s₀) := by
  refine Reach.invariant (S := (S.startAt s₀).traced)
    (fun x => Inv x.1 ∧ view x.1 = x.2.foldl act (view s₀)) ?_ ?_ h
  · intro x hx
    obtain ⟨⟨hinit, heq⟩, hnil⟩ := hx
    rw [hnil, heq]
    exact ⟨heq ▸ start x.1 hinit, rfl⟩
  · intro x a y hx hy
    obtain ⟨inv, hview⟩ := hx
    obtain ⟨hstep, htrace⟩ := hy
    obtain ⟨inv', hact⟩ := next x.1 a y.1 inv hstep
    rw [htrace, List.foldl_append, ← hview]
    exact ⟨inv', hact⟩

theorem Reach.simulate {S : System σ α} {T : System τ β} (f : σ → τ)
    (start : ∀ s, S.init s → T.init (f s))
    (next : ∀ s a t, Reach S s → S.step s a t → f t = f s ∨ ∃ b, T.step (f s) b (f t))
    {s : σ} (h : Reach S s) : Reach T (f s) := by
  induction h with
  | init hs => exact .init (start _ hs)
  | @step s t a hr hstep ih =>
    rcases next s a t hr hstep with same | ⟨b, hb⟩
    · rw [same]; exact ih
    · exact .step b ih hb

/-! ## Machines that answer -/

/-- The answers to a list of calls, and the state after them. -/
def answers (f : σ → α → β × σ) : σ → List α → List β × σ
  | s, [] => ([], s)
  | s, a :: as =>
    let (b, s) := f s a
    let (bs, s) := answers f s as
    (b :: bs, s)

/-- A machine that keeps a relation to another and answers as it does, call by call,
answers every list of calls as it does. -/
theorem answers_refines {f : σ → α → β × σ} {g : τ → α → β × τ} {R : σ → τ → Prop}
    (next : ∀ s t a, R s t → (f s a).1 = (g t a).1 ∧ R (f s a).2 (g t a).2) {s : σ} {t : τ}
    (h : R s t) (as : List α) :
    (answers f s as).1 = (answers g t as).1 ∧ R (answers f s as).2 (answers g t as).2 := by
  induction as generalizing s t with
  | nil => exact ⟨rfl, h⟩
  | cons a as ih =>
    obtain ⟨same, related⟩ := next s t a h
    obtain ⟨rest, last⟩ := ih related
    exact ⟨List.cons_eq_cons.mpr ⟨same, rest⟩, last⟩

end AlexOS
