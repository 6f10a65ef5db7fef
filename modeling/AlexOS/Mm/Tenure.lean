import AlexOS.Mm.Owned

/-!
# Many owners of one memory

Any number of owners hold frames next to each other and next to `rest`, part of
which all of them rely on. One owner at a time changes, is added or goes; what
the others need is that their own frames and that common part are left alone.
-/

namespace AlexOS

variable {σ ι : Type} {A : CountedAllocator σ}

/-- What an owner holds, what it relies on, and what is true of it next to `rest`
as long as both are left alone. -/
structure Tenure (A : CountedAllocator σ) (ι : Type) where
  frames : ι → Multiset Frame
  base : Multiset Frame
  Ok : Phys σ → ι → Multiset Frame → Prop
  holds : ∀ {s t rest}, Ok s t rest → A.Holds s (frames t + rest)
  stable : ∀ {s s' t rest rest'}, Ok s t rest → A.Holds s' (frames t + rest') →
    Kept (frames t + base) s.mem s'.mem → Ok s' t rest'

namespace Tenure

variable {T : Tenure A ι} {s s' : Phys σ} {ts us : Multiset ι} {t : ι}
  {rest rest' : Multiset Frame}

def total (T : Tenure A ι) (ts : Multiset ι) : Multiset Frame := (ts.map T.frames).sum

@[simp] theorem total_zero (T : Tenure A ι) : T.total 0 = 0 := rfl

@[simp] theorem total_cons (T : Tenure A ι) (t : ι) (ts : Multiset ι) :
    T.total (t ::ₘ ts) = T.frames t + T.total ts := by simp [total]

structure All (T : Tenure A ι) (s : Phys σ) (ts : Multiset ι) (rest : Multiset Frame) : Prop where
  holds : A.Holds s (T.total ts + rest)
  base : T.base ≤ rest
  each : ∀ t us, ts = t ::ₘ us → T.Ok s t (T.total us + rest)

theorem All.start (holds : A.Holds s rest) (base : T.base ≤ rest) : T.All s 0 rest :=
  ⟨by simpa using holds, base, fun _ _ h => absurd h.symm Multiset.cons_ne_zero⟩

theorem All.mem (h : T.All s ts rest) (ht : t ∈ ts) :
    ∃ us, ts = t ::ₘ us ∧ T.Ok s t (T.total us + rest) := by
  obtain ⟨us, rfl⟩ := Multiset.exists_cons_of_mem ht
  exact ⟨us, rfl, h.each t us rfl⟩

/-- The others stay as they are, and the new ones come in order. -/
theorem All.replace {old : Multiset ι} (h : T.All s (old + us) rest) (new : Multiset ι)
    (holds : A.Holds s' (T.total (new + us) + rest)) (kept : Kept (T.total us + rest) s.mem s'.mem)
    (each : ∀ t vs, new = t ::ₘ vs → T.Ok s' t (T.total (vs + us) + rest)) :
    T.All s' (new + us) rest := by
  refine ⟨holds, h.base, fun t vs e => ?_⟩
  have ht : t ∈ new + us := by rw [e]; exact Multiset.mem_cons_self t vs
  rcases Multiset.mem_add.mp ht with ht | ht
  · obtain ⟨ws, rfl⟩ := Multiset.exists_cons_of_mem ht
    rw [Multiset.cons_add, Multiset.cons_inj_right] at e
    rw [← e]
    exact each t ws rfl
  · obtain ⟨ws, rfl⟩ := Multiset.exists_cons_of_mem ht
    have ok := h.each t (old + ws) (Multiset.add_cons t old ws)
    rw [Multiset.add_cons, Multiset.cons_inj_right] at e
    rw [Multiset.add_cons, total_cons, add_assoc, e] at holds
    refine T.stable ok holds (kept.mono ?_)
    rw [total_cons]
    exact add_le_add (Multiset.le_add_right _ _) h.base

/-- One owner is new or changed. -/
theorem All.put (old : Multiset ι) (h : T.All s (old + us) rest)
    (ok : T.Ok s' t (T.total us + rest))
    (kept : Kept (T.total us + rest) s.mem s'.mem) : T.All s' (t ::ₘ us) rest := by
  rw [← Multiset.singleton_add]
  refine h.replace {t} ?_ kept fun u vs e => ?_
  · rw [Multiset.singleton_add, total_cons, add_assoc]
    exact T.holds ok
  · obtain ⟨rfl, rfl⟩ := (Multiset.singleton_eq_cons_iff vs).mp e
    rw [zero_add]
    exact ok

theorem All.add (h : T.All s ts rest) (ok : T.Ok s' t (T.total ts + rest))
    (kept : Kept (T.total ts + rest) s.mem s'.mem) : T.All s' (t ::ₘ ts) rest :=
  All.put 0 (by rwa [zero_add]) ok kept

theorem All.change {u : ι} (h : T.All s (u ::ₘ us) rest) (ok : T.Ok s' t (T.total us + rest))
    (kept : Kept (T.total us + rest) s.mem s'.mem) : T.All s' (t ::ₘ us) rest :=
  All.put {u} (by rwa [Multiset.singleton_add]) ok kept

/-- Some are gone. -/
theorem All.remove (old : Multiset ι) (h : T.All s (old + us) rest)
    (holds : A.Holds s' (T.total us + rest))
    (kept : Kept (T.total us + rest) s.mem s'.mem) : T.All s' us rest := by
  have all := h.replace 0 (by rwa [zero_add]) kept
    fun _ _ e => absurd e.symm Multiset.cons_ne_zero
  rwa [zero_add] at all

theorem All.same (h : T.All s ts rest) (holds : A.Holds s' (T.total ts + rest))
    (kept : Kept (T.total ts + rest) s.mem s'.mem) : T.All s' ts rest :=
  All.remove 0 (by rwa [zero_add]) holds kept

theorem All.drop (h : T.All s (t ::ₘ us) rest) (holds : A.Holds s' (T.total us + rest))
    (kept : Kept (T.total us + rest) s.mem s'.mem) : T.All s' us rest :=
  All.remove {t} (by rwa [Multiset.singleton_add]) holds kept

/-- Nobody among the owners changes. -/
theorem All.elsewhere (h : T.All s ts rest) (holds : A.Holds s' (T.total ts + rest'))
    (base : T.base ≤ rest') (kept : Kept (T.total ts + T.base) s.mem s'.mem) :
    T.All s' ts rest' := by
  refine ⟨holds, base, fun t us e => ?_⟩
  subst e
  rw [total_cons, add_assoc] at holds
  refine T.stable (h.each t us rfl) holds (kept.mono ?_)
  rw [total_cons, add_assoc]
  exact add_le_add_right (Multiset.le_add_left _ _) _

end Tenure

end AlexOS
