import AlexOS.Task.Process

/-!
# What a process holds

Building an image, forking, executing, growing the break and exiting each take
from the allocator and give back to it for one process alone: what the others
hold, and the memory they hold it in, stays as it was.
-/

namespace AlexOS

open Bytes Blocks AddressSpace

variable {σ : Type} {A : CountedAllocator σ} {s s' : Phys σ} {m m' : Mem} {rest : Multiset Frame}
  {sp : AddressSpace} {p : Process} {kernel : PageTable} {image : List UInt8}
  {args : List (List UInt8)}

def Process.Exact (m : Mem) (p : Process) : Prop := ∀ sp, p.space = some sp → sp.Exact m

/-- A process whose frames are held next to `rest`, with an exact space if any. -/
structure Process.Ok (A : CountedAllocator σ) (s : Phys σ) (p : Process) (rest : Multiset Frame) :
    Prop where
  holds : A.Holds s (p.frames + rest)
  exact : p.Exact s.mem

theorem Process.tables_le (hsp : p.space = some sp) :
    (sp.table.frames : Multiset Frame) ≤ p.frames := by
  rw [Process.frames, hsp, Option.elim_some]
  exact (Multiset.le_add_right _ _).trans (Multiset.le_cons_self _ _)

theorem Process.Exact.kept (h : p.Exact m) (kept : Kept p.frames m m') : p.Exact m' :=
  fun sp hsp => (h sp hsp).kept (kept.mono (Process.tables_le hsp))

theorem Process.Exact.users (h : p.Exact m) : ∀ sp, p.space = some sp → ∀ r ∈ sp.regions, r.User :=
  fun sp hsp => (h sp hsp).regions

theorem Process.Ok.space (h : p.Ok A s rest) (hsp : p.space = some sp) :
    A.Holds s (sp.frames + (p.kstack ::ₘ rest)) := by
  have holds := h.holds
  rw [Process.frames, hsp, Option.elim_some, Multiset.cons_add] at holds
  rw [Multiset.add_cons]
  exact holds

/-- A process, or the kernel for it, writes the process's own pages. -/
theorem Process.Ok.writes (h : p.Ok A s rest) (hsp : p.space = some sp)
    (w : WritesIn sp.owned s.mem m') :
    p.Ok A { s with mem := m' } rest ∧ Kept rest s.mem m' := by
  obtain ⟨holds, keptT, keptR, -⟩ := write_owned (h.space hsp) w
  refine ⟨⟨?_, fun sp' hsp' => ?_⟩, keptR.mono (Multiset.le_cons_self _ _)⟩
  · rw [Process.frames, hsp, Option.elim_some, Multiset.cons_add, ← Multiset.add_cons]
    exact holds
  · obtain rfl := Option.some.inj (hsp.symm.trans hsp')
    exact (h.exact sp hsp).kept keptT

theorem Process.Ok.copyToUser (h : p.Ok A s rest) (hsp : p.space = some sp) (va : Nat)
    (src : List UInt8) :
    p.Ok A { s with mem := (sp.copyToUser s.mem va src).2 } rest ∧
      Kept rest s.mem (sp.copyToUser s.mem va src).2 :=
  h.writes hsp (copyToUser_spec (h.exact sp hsp) (apart_of_holds (h.space hsp)) va src)

/-! ## Arguments -/

theorem pushStrings_spec {top : Nat} {pointers : List Nat} {res : Option (Nat × List Nat)}
    (h : sp.Exact m) (apart : ∀ p, framesOver sp.frames p ≤ 1)
    (heq : pushStrings sp args m top pointers = some (res, m')) : WritesIn sp.owned m m' := by
  induction args generalizing m top pointers with
  | nil =>
    simp only [pushStrings, Option.some.injEq, Prod.mk.injEq] at heq
    obtain ⟨-, rfl⟩ := heq
    exact .refl _ _
  | cons arg args ih =>
    rw [pushStrings] at heq
    split at heq
    · cases heq
    simp only at heq
    have hstr := copyToUser_spec h apart ((top - (arg.length + 1)) / 8 * 8) arg
    rcases hcopy : sp.copyToUser m ((top - (arg.length + 1)) / 8 * 8) arg with ⟨_ | _, m₁⟩
    · simp only [hcopy, Option.some.injEq, Prod.mk.injEq] at heq hstr
      exact heq.2 ▸ hstr
    rw [hcopy] at hstr
    have h₁ := h.writes apart hstr
    have hnul := copyToUser_spec h₁ apart ((top - (arg.length + 1)) / 8 * 8 + arg.length) [0]
    rcases hcopy' : sp.copyToUser m₁ ((top - (arg.length + 1)) / 8 * 8 + arg.length) [0] with
      ⟨_ | _, m₂⟩
    · simp only [hcopy, hcopy', Option.some.injEq, Prod.mk.injEq] at heq hnul
      exact heq.2 ▸ hstr.trans hnul
    rw [hcopy'] at hnul
    simp only [hcopy, hcopy'] at heq
    exact (hstr.trans hnul).trans (ih (h₁.writes apart hnul) heq)

theorem pushWords_spec (h : sp.Exact m) (apart : ∀ p, framesOver sp.frames p ≤ 1) (ws : List Nat)
    (addr : Nat) : WritesIn sp.owned m (pushWords sp ws m addr).2 := by
  induction ws generalizing m addr with
  | nil => exact .refl _ _
  | cons w ws ih =>
    have hword := copyToUser_spec h apart addr (leBytes w 8)
    rw [pushWords]
    rcases hcopy : sp.copyToUser m addr (leBytes w 8) with ⟨_ | _, m₁⟩
    · rwa [hcopy] at hword
    · rw [hcopy] at hword
      exact hword.trans (ih (h.writes apart hword) _)

theorem pushArgs_spec {top : Nat} {res : Option (Nat × Nat × Nat)} (h : sp.Exact m)
    (apart : ∀ p, framesOver sp.frames p ≤ 1) (heq : pushArgs sp m top args = some (res, m')) :
    WritesIn sp.owned m m' := by
  rcases hstr : pushStrings sp args m top [] with _ | ⟨_ | ⟨top', pointers⟩, m₁⟩
  · simp [pushArgs, hstr] at heq
  · simp only [pushArgs, hstr, Option.bind_eq_bind, Option.bind_some, Option.some.injEq,
      Prod.mk.injEq] at heq
    exact heq.2 ▸ pushStrings_spec h apart hstr
  have hin := pushStrings_spec h apart hstr
  simp only [pushArgs, hstr, Option.bind_eq_bind, Option.bind_some] at heq
  split at heq
  · cases heq
  have hwords := pushWords_spec (h.writes apart hin) apart (pointers ++ [0])
    ((top' - (pointers.length + 1) * 8) / 16 * 16)
  refine hin.trans ?_
  rcases hw : pushWords sp (pointers ++ [0]) m₁ ((top' - (pointers.length + 1) * 8) / 16 * 16)
    with ⟨_ | _, m₂⟩
  all_goals
    simp only [hw, Option.some.injEq, Prod.mk.injEq] at heq hwords
    exact heq.2 ▸ hwords

/-! ## Images -/

theorem userStack_region : ∃ r, Region.new (userStackTop - userStackSize) userStackTop .framed
      (PteFlags.rw ||| PteFlags.user) = some r ∧ r.User ∧ r.frames = [] ∧
    r.perm = PteFlags.rw ||| PteFlags.user ∧ r.start = userStackTop - userStackSize ∧
    r.end_ = userStackTop :=
  Region.new_user _ (by decide) (by decide)

theorem mapUserStack_spec {top : Option Nat} {sp' : AddressSpace}
    (holds : A.Holds s (sp.frames + rest)) (h : sp.Exact s.mem)
    (heq : mapUserStack A.toFrameAllocator s sp = some (top, s', sp')) :
    A.Holds s' (sp'.frames + rest) ∧ sp'.Formed s'.mem ∧ Kept rest s.mem s'.mem ∧
      (top ≠ none → sp'.Exact s'.mem) := by
  obtain ⟨r, hnew, u, empty, -⟩ := userStack_region
  obtain ⟨res, s₁, sp₁, hpush, holds₁, formed, -, kept, pushed⟩ :=
    push_spec holds h.toFormed u empty
  simp only [mapUserStack, hnew, hpush, Option.bind_eq_bind, Option.bind_some] at heq
  rcases res with e | ⟨⟩ <;>
    simp only [Option.some.injEq, Prod.mk.injEq] at heq <;>
    obtain ⟨rfl, rfl, rfl⟩ := heq
  · exact ⟨holds₁, formed, kept, by simp⟩
  · refine ⟨holds₁, formed, kept, fun _ => ?_⟩
    cases pushed with
    | mapped _ exact _ _ => exact exact h

theorem prepare_ok {A : FrameAllocator σ} {i : Prepared}
    (heq : prepare A s kernel image args = some (.ok i, s')) :
    ∃ l s₁ s₂ top space low argc argv mem, Loader.load A s kernel image = some (.ok l, s₁) ∧
      mapUserStack A s₁ l.space = some (some top, s₂, space) ∧
      pushArgs space s₂.mem top args = some (some (low, argc, argv), mem) ∧
      i = ⟨space, l.entry, l.brk, low, argc, argv⟩ ∧ s' = { s₂ with mem := mem } := by
  obtain ⟨⟨res, s₁⟩, hload, hout⟩ := Option.bind_eq_some_iff.mp heq
  rcases res with e | l
  · simp at hout
  obtain ⟨⟨top, s₂, space⟩, hstack, hout⟩ := Option.bind_eq_some_iff.mp hout
  rcases top with _ | top
  · obtain ⟨s₃, -, hout⟩ := Option.bind_eq_some_iff.mp hout
    simp at hout
  obtain ⟨⟨out, mem⟩, hargs, hout⟩ := Option.bind_eq_some_iff.mp hout
  rcases out with _ | ⟨low, argc, argv⟩
  · obtain ⟨s₃, -, hout⟩ := Option.bind_eq_some_iff.mp hout
    simp at hout
  obtain ⟨rfl, rfl⟩ := by simpa using hout
  exact ⟨l, s₁, s₂, top, space, low, argc, argv, mem, hload, hstack, hargs, rfl, rfl⟩

theorem prepare_spec {res : Except ExecError Prepared} (holds : A.Holds s rest)
    (heq : prepare A.toFrameAllocator s kernel image args = some (res, s')) :
    Loader.Outcome A rest Prepared.space s' res ∧ Kept rest s.mem s'.mem := by
  rcases hload : Loader.load A.toFrameAllocator s kernel image with _ | ⟨e | loaded, s₁⟩
  · simp [prepare, hload] at heq
  · obtain ⟨out, kept⟩ := Loader.load_spec holds hload
    simp only [prepare, hload, Option.bind_eq_bind, Option.bind_some, Option.some.injEq,
      Prod.mk.injEq] at heq
    obtain ⟨rfl, rfl⟩ := heq
    exact ⟨out, kept⟩
  obtain ⟨⟨holds₁, exact₁⟩, kept₁⟩ := Loader.load_spec holds hload
  rcases hstack : mapUserStack A.toFrameAllocator s₁ loaded.space with _ | ⟨_ | top, s₂, space⟩
  · simp [prepare, hload, hstack] at heq
  · obtain ⟨holds₂, formed, kept₂, -⟩ := mapUserStack_spec holds₁ exact₁ hstack
    obtain ⟨s₃, hdrop, holds₃, kept₃⟩ := drop_spec formed holds₂
    simp only [prepare, hload, hstack, hdrop, Option.bind_eq_bind, Option.bind_some,
      Option.some.injEq, Prod.mk.injEq] at heq
    obtain ⟨rfl, rfl⟩ := heq
    exact ⟨holds₃, (kept₁.trans kept₂).trans kept₃⟩
  obtain ⟨holds₂, -, kept₂, exact⟩ := mapUserStack_spec holds₁ exact₁ hstack
  have exact₂ := exact (by simp)
  rcases hargs : pushArgs space s₂.mem top args with _ | ⟨res', mem⟩
  · simp [prepare, hload, hstack, hargs] at heq
  have hin := pushArgs_spec exact₂ (apart_of_holds holds₂) hargs
  obtain ⟨holds₃, keptT, kept₃, -⟩ := write_owned holds₂ hin
  have exact₃ := exact₂.kept keptT
  rcases res' with _ | ⟨sp, argc, argv⟩
  · obtain ⟨s₄, hdrop, holds₄, kept₄⟩ := drop_spec (s := { s₂ with mem := mem })
      exact₃.toFormed holds₃
    simp only [prepare, hload, hstack, hargs, hdrop, Option.bind_eq_bind, Option.bind_some,
      Option.some.injEq, Prod.mk.injEq] at heq
    obtain ⟨rfl, rfl⟩ := heq
    exact ⟨holds₄, ((kept₁.trans kept₂).trans kept₃).trans kept₄⟩
  · simp only [prepare, hload, hstack, hargs, Option.bind_eq_bind, Option.bind_some,
      Option.some.injEq, Prod.mk.injEq] at heq
    obtain ⟨rfl, rfl⟩ := heq
    exact ⟨⟨holds₃, exact₃⟩, (kept₁.trans kept₂).trans kept₃⟩

/-- The canary goes into the new stack. -/
theorem kernelStackNew_spec {k : Option Frame} (holds : A.Holds s rest)
    (heq : kernelStackNew A.toFrameAllocator s = (k, s')) :
    A.Holds s' (k.elim rest (· ::ₘ rest)) ∧ Kept rest s.mem s'.mem := by
  rcases halloc : A.allocOrder s kernelStackOrder with ⟨_ | f, s₁⟩
  · simp only [kernelStackNew, halloc, Prod.mk.injEq] at heq
    obtain ⟨rfl, rfl⟩ := heq
    obtain rfl := A.alloc_none holds halloc
    exact ⟨holds, .refl _ _⟩
  obtain ⟨-, holds₁, kept, -⟩ := A.alloc_some holds halloc
  simp only [kernelStackNew, halloc, Prod.mk.injEq] at heq
  obtain ⟨rfl, rfl⟩ := heq
  have hin : WritesIn {f} s₁.mem (write64 s₁.mem (baseAddr f.ppn) stackCanary) := by
    intro a ha
    have hne : pageNum a ≠ f.ppn := fun e => by
      have := framesOver_of_mem (Multiset.mem_singleton_self f) (Nat.le_of_eq e.symm)
        (by have := Nat.two_pow_pos f.order; rw [Frame.count]; omega)
      omega
    have hkeep := write64_frame s₁.mem stackCanary 0 (by decide) hne
    rwa [Nat.add_zero] at hkeep
  refine ⟨A.write holds₁ (hin.mono (Multiset.singleton_le.mpr (Multiset.mem_cons_self f rest))),
    kept.trans (hin.kept ?_)⟩
  rw [Multiset.singleton_add]
  exact A.apart holds₁

/-- A space and a kernel stack for a new process, or nothing kept. -/
def Born (A : CountedAllocator σ) (rest : Multiset Frame) (s' : Phys σ) :
    Option (AddressSpace × Frame) → Prop
  | none => A.Holds s' rest
  | some (sp, k) => A.Holds s' (k ::ₘ sp.frames + rest) ∧ sp.Exact s'.mem

/-- The tail of `new_user` and `fork_from`: the stack, or the space is dropped. -/
theorem born_of_built (holds : A.Holds s (sp.frames + rest)) (h : sp.Exact s.mem) :
    (∃ s₁ s', kernelStackNew A.toFrameAllocator s = (none, s₁) ∧
      sp.drop A.toFrameAllocator s₁ = some s' ∧ A.Holds s' rest ∧ Kept rest s.mem s'.mem) ∨
    ∃ k s', kernelStackNew A.toFrameAllocator s = (some k, s') ∧ Born A rest s' (some (sp, k)) ∧
      Kept rest s.mem s'.mem := by
  rcases hstack : kernelStackNew A.toFrameAllocator s with ⟨_ | k, s₁⟩
  all_goals
    obtain ⟨holds₁, kept⟩ := kernelStackNew_spec holds hstack
    have keptT : Kept sp.table.frames s.mem s₁.mem :=
      kept.mono ((Multiset.le_add_right _ _).trans (Multiset.le_add_right _ _))
    have keptR : Kept rest s.mem s₁.mem := kept.mono (Multiset.le_add_left _ _)
  · obtain ⟨s', hdrop, holds', kept'⟩ := drop_spec (h.kept keptT).toFormed holds₁
    exact .inl ⟨s₁, s', rfl, hdrop, holds', keptR.trans kept'⟩
  · exact .inr ⟨k, s₁, rfl, ⟨by rw [Multiset.cons_add]; exact holds₁, h.kept keptT⟩, keptR⟩

theorem newUser_spec {res : Option (Prepared × Frame)} (holds : A.Holds s rest)
    (heq : newUser A.toFrameAllocator s kernel image args = some (res, s')) :
    Born A rest s' (res.map fun (i, k) => (i.space, k)) ∧ Kept rest s.mem s'.mem := by
  rcases hprep : prepare A.toFrameAllocator s kernel image args with _ | ⟨e | i, s₁⟩
  · simp [newUser, hprep] at heq
  · obtain ⟨out, kept⟩ := prepare_spec holds hprep
    simp only [newUser, hprep, Option.bind_eq_bind, Option.bind_some, Option.some.injEq,
      Prod.mk.injEq] at heq
    obtain ⟨rfl, rfl⟩ := heq
    exact ⟨out, kept⟩
  obtain ⟨⟨holds₁, exact⟩, kept⟩ := prepare_spec holds hprep
  rcases born_of_built holds₁ exact with
    ⟨s₂, s₃, hstack, hdrop, holds₃, kept'⟩ | ⟨k, s₂, hstack, born, kept'⟩
  · simp only [newUser, hprep, hstack, hdrop, Option.bind_eq_bind, Option.bind_some,
      Option.some.injEq, Prod.mk.injEq] at heq
    obtain ⟨rfl, rfl⟩ := heq
    exact ⟨holds₃, kept.trans kept'⟩
  · simp only [newUser, hprep, hstack, Option.bind_eq_bind, Option.bind_some, Option.some.injEq,
      Prod.mk.injEq] at heq
    obtain ⟨rfl, rfl⟩ := heq
    exact ⟨born, kept.trans kept'⟩

theorem forkFrom_built (kernel : PageTable) (holds : A.Holds s rest)
    (users : ∀ sp, p.space = some sp → ∀ r ∈ sp.regions, r.User) :
    ∃ res s', forkFrom A.toFrameAllocator s kernel p = some (res, s') ∧ Born A rest s' res ∧
      Kept rest s.mem s'.mem := by
  rcases hspace : p.space with _ | sp
  · exact ⟨none, s, by simp only [forkFrom, hspace], holds, .refl _ _⟩
  obtain ⟨res, s₁, hdup, copied, kept⟩ := duplicate_built kernel holds (users sp hspace)
  simp only [forkFrom, hspace, hdup, Option.bind_eq_bind, Option.bind_some]
  rcases res with _ | child
  · exact ⟨none, s₁, rfl, copied, kept⟩
  obtain ⟨holds₁, exact₁⟩ := copied
  rcases born_of_built holds₁ exact₁ with
    ⟨s₂, s₃, hstack, hdrop, holds₃, kept'⟩ | ⟨k, s₂, hstack, born, kept'⟩
  · simp only [hstack, hdrop, Option.bind_some]
    exact ⟨none, s₃, rfl, holds₃, kept.trans kept'⟩
  · simp only [hstack]
    exact ⟨_, s₂, rfl, born, kept.trans kept'⟩

theorem forkFrom_spec {res : Option (AddressSpace × Frame)} (holds : A.Holds s rest)
    (users : ∀ sp, p.space = some sp → ∀ r ∈ sp.regions, r.User)
    (heq : forkFrom A.toFrameAllocator s kernel p = some (res, s')) :
    Born A rest s' res ∧ Kept rest s.mem s'.mem := by
  obtain ⟨res', s'', heq', spec⟩ := forkFrom_built kernel holds users
  obtain ⟨rfl, rfl⟩ := Prod.mk.inj (Option.some.inj (heq'.symm.trans heq))
  exact spec

/-! ## Replacing and releasing an image -/

/-- What is left of a process when its space goes. -/
theorem Process.Ok.dropSpace (h : p.Ok A s rest) (hspace : p.space = some sp) :
    ∃ s', sp.drop A.toFrameAllocator s = some s' ∧ A.Holds s' (p.kstack ::ₘ rest) ∧
      Kept (p.kstack ::ₘ rest) s.mem s'.mem := by
  exact drop_spec (h.exact sp hspace).toFormed (h.space hspace)

theorem exitCurrent_built (h : p.Ok A s rest) (code : Int) :
    ∃ s', exitCurrent A.toFrameAllocator s p code =
        some (s', { p with space := none, exitCode := code, point := .zombie }) ∧
      A.Holds s' (p.kstack ::ₘ rest) ∧ Kept (p.kstack ::ₘ rest) s.mem s'.mem := by
  rcases hspace : p.space with _ | sp
  · have holds := h.holds
    rw [Process.frames, hspace, Option.elim_none, Multiset.cons_add, zero_add] at holds
    exact ⟨s, by simp only [exitCurrent, hspace], holds, .refl _ _⟩
  · obtain ⟨s₁, hdrop, holds, kept⟩ := h.dropSpace hspace
    exact ⟨s₁, by simp only [exitCurrent, hspace, hdrop, Option.bind_eq_bind, Option.bind_some],
      holds, kept⟩

theorem exitCurrent_spec {code : Int} {p' : Process} (h : p.Ok A s rest)
    (heq : exitCurrent A.toFrameAllocator s p code = some (s', p')) :
    p'.Ok A s' rest ∧ Kept rest s.mem s'.mem := by
  obtain ⟨s₁, heq', holds, kept⟩ := exitCurrent_built h code
  obtain ⟨rfl, rfl⟩ := Prod.mk.inj (Option.some.inj (heq'.symm.trans heq))
  refine ⟨⟨?_, by simp [Process.Exact]⟩, kept.mono (Multiset.le_cons_self _ _)⟩
  rw [Process.frames, Option.elim_none, Multiset.cons_add, zero_add]
  exact holds

theorem Process.drop_built (h : p.Ok A s rest) :
    ∃ s', p.drop A.toFrameAllocator s = some s' ∧ A.Holds s' rest ∧ Kept rest s.mem s'.mem := by
  have holds := h.holds
  rw [Process.frames, Multiset.cons_add] at holds
  obtain ⟨s₁, hfree, holds₁, kept⟩ := A.free_some holds
  simp only [Process.drop, hfree, Option.bind_eq_bind, Option.bind_some]
  rcases hspace : p.space with _ | sp
  · rw [hspace, Option.elim_none, zero_add] at holds₁ kept
    exact ⟨s₁, rfl, holds₁, kept⟩
  rw [hspace, Option.elim_some] at holds₁ kept
  have keptT : Kept sp.table.frames s.mem s₁.mem :=
    kept.mono ((Multiset.le_add_right _ _).trans (Multiset.le_add_right _ _))
  obtain ⟨s₂, hdrop, holds₂, kept₂⟩ :=
    AddressSpace.drop_spec ((h.exact sp hspace).kept keptT).toFormed holds₁
  exact ⟨s₂, hdrop, holds₂, (kept.mono (Multiset.le_add_left _ _)).trans kept₂⟩

theorem Process.drop_spec (h : p.Ok A s rest) (heq : p.drop A.toFrameAllocator s = some s') :
    A.Holds s' rest ∧ Kept rest s.mem s'.mem := by
  obtain ⟨s₁, heq', spec⟩ := Process.drop_built h
  obtain rfl := Option.some.inj (heq'.symm.trans heq)
  exact spec

/-- A failed `exec` leaves the process as it was; a completed one has only the new space. -/
def Process.AfterExec (A : CountedAllocator σ) (rest : Multiset Frame) (s' : Phys σ) (p : Process)
    {ε : Type} : Except ε Prepared → Prop
  | .error _ => p.Ok A s' rest
  | .ok i => ∀ b, (p.install i b).Ok A s' rest

/-- An image that is installed: the process holds its frames and the old ones are free. -/
theorem execCurrent_installs {i : Prepared} (holds : A.Holds s (p.frames + rest))
    (formed : ∀ sp, p.space = some sp → sp.Formed s.mem)
    (heq : execCurrent A.toFrameAllocator s kernel p image args = some (.ok i, s')) :
    (∃ s₁, prepare A.toFrameAllocator s kernel image args = some (.ok i, s₁)) ∧
      (∀ b, (p.install i b).Ok A s' rest) ∧ Kept rest s.mem s'.mem := by
  rcases hprep : prepare A.toFrameAllocator s kernel image args with _ | ⟨e | i₁, s₁⟩
  · simp [execCurrent, hprep] at heq
  · simp [execCurrent, hprep] at heq
  obtain ⟨⟨holds₁, exact⟩, kept⟩ := prepare_spec holds hprep
  have keptR : Kept rest s.mem s₁.mem := kept.mono (Multiset.le_add_left _ _)
  have installed : ∀ b s₂, A.Holds s₂ (i₁.space.frames + (p.kstack ::ₘ rest)) →
      i₁.space.Exact s₂.mem → (p.install i₁ b).Ok A s₂ rest := by
    intro b s₂ holds₂ exact₂
    refine ⟨?_, fun sp hspace => Option.some.inj hspace ▸ exact₂⟩
    rw [Multiset.add_cons, ← Multiset.cons_add] at holds₂
    exact holds₂
  rcases hspace : p.space with _ | old
  · simp only [execCurrent, hprep, hspace, Option.bind_eq_bind, Option.bind_some,
      Option.some.injEq, Prod.mk.injEq, Except.ok.injEq] at heq
    obtain ⟨rfl, rfl⟩ := heq
    rw [Process.frames, hspace, Option.elim_none, Multiset.cons_add, zero_add] at holds₁
    exact ⟨⟨_, rfl⟩, fun b => installed b s₁ holds₁ exact, keptR⟩
  have hformed : old.Formed s₁.mem :=
    (formed old hspace).kept (kept.mono ((Process.tables_le hspace).trans
      (Multiset.le_add_right _ _)))
  rw [Process.frames, hspace, Option.elim_some, Multiset.cons_add, ← Multiset.add_cons,
    add_left_comm] at holds₁
  obtain ⟨s₂, hdrop, holds₂, kept₂⟩ := AddressSpace.drop_spec hformed holds₁
  have keptT : Kept i₁.space.table.frames s₁.mem s₂.mem :=
    kept₂.mono ((Multiset.le_add_right _ _).trans (Multiset.le_add_right _ _))
  simp only [execCurrent, hprep, hspace, hdrop, Option.bind_eq_bind, Option.bind_some,
    Option.some.injEq, Prod.mk.injEq, Except.ok.injEq] at heq
  obtain ⟨rfl, rfl⟩ := heq
  refine ⟨⟨_, rfl⟩, fun b => installed b s₂ holds₂ (exact.kept keptT), keptR.trans (kept₂.mono ?_)⟩
  exact (Multiset.le_cons_self _ _).trans (Multiset.le_add_left _ _)

/-- Only building the new image can fail. -/
theorem execCurrent_error {e : ExecError} (holds : A.Holds s rest)
    (heq : execCurrent A.toFrameAllocator s kernel p image args = some (.error e, s')) :
    A.Holds s' rest ∧ Kept rest s.mem s'.mem := by
  rcases hprep : prepare A.toFrameAllocator s kernel image args with _ | ⟨e | i, s₁⟩
  · simp [execCurrent, hprep] at heq
  · simp only [execCurrent, hprep, Option.bind_eq_bind, Option.bind_some, Option.some.injEq,
      Prod.mk.injEq, Except.error.injEq] at heq
    obtain ⟨rfl, rfl⟩ := heq
    exact prepare_spec holds hprep
  · rcases hspace : p.space with _ | old
    · simp [execCurrent, hprep, hspace] at heq
    · rcases hdrop : old.drop A.toFrameAllocator s₁ with _ | s₂ <;>
        simp [execCurrent, hprep, hspace, hdrop] at heq

theorem execCurrent_spec {res : Except ExecError Prepared} (h : p.Ok A s rest)
    (heq : execCurrent A.toFrameAllocator s kernel p image args = some (res, s')) :
    p.AfterExec A rest s' res ∧ Kept rest s.mem s'.mem := by
  rcases res with e | i
  · obtain ⟨holds, kept⟩ := execCurrent_error h.holds heq
    exact ⟨⟨holds, h.exact.kept (kept.mono (Multiset.le_add_right _ _))⟩,
      kept.mono (Multiset.le_add_left _ _)⟩
  · obtain ⟨-, ok, kept⟩ :=
      execCurrent_installs h.holds (fun sp hsp => (h.exact sp hsp).toFormed) heq
    exact ⟨ok, kept⟩

/-! ## The program break -/

/-- A call that moves the break past the backed heap either gets every page it
needs or is refused at the first. -/
def Whole (A : CountedAllocator σ) (s : Phys σ) (p : Process) (delta : Int) : Prop :=
  ∀ sp new, p.space = some sp → delta ≠ 0 → newBreak p delta = some new → p.heapTop < new →
    Region.Fits A s sp.table (pageNum p.heapTop)
      (pageNum (nextMultipleOf new pageSize) - pageNum p.heapTop) ∨
    Region.Refused A s sp.table (pageNum p.heapTop)

/-- A user page maps a frame that nobody holds and no region lists. -/
def Process.Stale (s : Phys σ) (p : Process) (rest : Multiset Frame) : Prop :=
  ∃ sp v f, p.space = some sp ∧ sp.Formed s.mem ∧ v < pages 256 ∧ f < 2 ^ 44 ∧
    leaf s.mem sp.table.root v = Pte.new f (PteFlags.present (PteFlags.rw ||| PteFlags.user)) ∧
    framesOver (p.frames + rest) f = 0 ∧ ∀ r ∈ sp.regions, ∀ e ∈ r.frames, e.1 ≠ v

/-- A user page maps a frame that was held next to all that is held, and is not any more. -/
def Process.Dropped (A : CountedAllocator σ) (s : Phys σ) (p : Process) (rest : Multiset Frame) :
    Prop :=
  ∃ sp v f s₁ others, p.space = some sp ∧ sp.Formed s.mem ∧ v < pages 256 ∧
    leaf s.mem sp.table.root v = Pte.new f.ppn (PteFlags.present (PteFlags.rw ||| PteFlags.user)) ∧
    A.Holds s₁ (f ::ₘ (others + (p.frames + rest))) ∧ ∀ r ∈ sp.regions, ∀ e ∈ r.frames, e.1 ≠ v

theorem framesOver_dropped {f : Frame} {others live : Multiset Frame}
    (held : A.Holds s (f ::ₘ (others + live))) : framesOver live f.ppn = 0 := by
  have hone := A.apart held f.ppn
  rw [framesOver_cons, framesOver_add, cover_self] at hone
  omega

theorem Process.Dropped.stale (h : p.Dropped A s rest) : p.Stale s rest := by
  obtain ⟨sp, v, f, s₁, others, hsp, formed, hv, hword, held, unlisted⟩ := h
  exact ⟨sp, v, f.ppn, hsp, formed, hv, FrameAllocator.page_lt held (Multiset.mem_cons_self f _),
    hword, framesOver_dropped held, unlisted⟩

theorem newBreak_lt {delta : Int} {new : Nat} (h : newBreak p delta = some new) :
    nextMultipleOf new pageSize ≤ userMaxAddr := by
  rw [newBreak] at h
  split at h
  · obtain rfl := Option.some.inj h
    simp only [nextMultipleOf, divCeil, userMaxAddr, pageSize] at *
    omega
  · cases h

/-- The region `adjust_brk` pushes to move the break up to `new`. -/
structure HeapRegion (p : Process) (new : Nat) (r : Region) : Prop where
  user : r.User
  empty : r.frames = []
  perm : r.perm = PteFlags.rw ||| PteFlags.user
  start_aligned : r.start % pageSize = 0
  end_aligned : r.end_ % pageSize = 0
  first : pageNum r.start = pageNum p.heapTop
  count : r.pageCount = pageNum (nextMultipleOf new pageSize) - pageNum p.heapTop

theorem heapRegion_new {delta : Int} {new : Nat} (h : newBreak p delta = some new) :
    ∃ r, Region.new p.heapTop (nextMultipleOf new pageSize) .framed
      (PteFlags.rw ||| PteFlags.user) = some r ∧ HeapRegion p new r := by
  obtain ⟨r, hregion, u, empty, hperm, hstart, hend⟩ := Region.new_user p.heapTop (newBreak_lt h)
    (show PteFlags.rw ||| PteFlags.user < 2 ^ 10 by decide)
  have hfirst : pageNum r.start = pageNum p.heapTop := by
    simp only [hstart, alignDown, pageNum, pageSize]
    omega
  refine ⟨r, hregion, u, empty, hperm, ?_, ?_, hfirst, ?_⟩
  · rw [hstart]
    exact Nat.mul_mod_left _ _
  · rw [hend]
    exact Nat.mul_mod_left _ _
  · rw [Region.pageCount, hfirst, hend]
    simp only [nextMultipleOf, pageNum, pageSize]
    omega

/-- What a push says to the caller of `adjust_brk`. -/
def brkPushed (p : Process) (new : Nat) :
    Except MapError Unit × Phys σ × AddressSpace → Option Nat × Phys σ × Process
  | (.error _, s, space) => (none, s, { p with space := some space })
  | (.ok (), s, space) => (some p.brk, s,
      { p with space := some space, heapTop := nextMultipleOf new pageSize, brk := new })

/-- `adjust_brk` moves the break inside the backed heap or pushes one region. -/
theorem adjustBrk_cases (A : FrameAllocator σ) (s : Phys σ) (p : Process) (delta : Int) :
    (∃ res brk, adjustBrk A s p delta = some (res, s, { p with brk := brk }) ∧
      (res = none ∧ brk = p.brk ∧ (newBreak p delta = none ∨ p.space = none) ∨ res = some p.brk) ∧
      ∀ sp new, p.space = some sp → delta ≠ 0 → newBreak p delta = some new → ¬ p.heapTop < new) ∨
    ∃ sp new r, p.space = some sp ∧ delta ≠ 0 ∧ newBreak p delta = some new ∧ p.heapTop < new ∧
      HeapRegion p new r ∧ adjustBrk A s p delta = (sp.push A s r).map (brkPushed p new) := by
  unfold adjustBrk
  by_cases hzero : delta = 0
  · rw [if_pos hzero]
    exact .inl ⟨_, p.brk, rfl, .inr rfl, fun _ _ _ hne => absurd hzero hne⟩
  rw [if_neg hzero]
  rcases hnew : newBreak p delta with _ | new
  · exact .inl ⟨_, p.brk, rfl, .inl ⟨rfl, rfl, .inl rfl⟩, fun _ _ _ _ hsome => by cases hsome⟩
  by_cases htop : p.heapTop < new
  swap
  · refine .inl ⟨_, new, if_neg htop, .inr rfl, fun _ new' _ _ hsome => ?_⟩
    obtain rfl := Option.some.inj hsome
    exact htop
  rcases Option.eq_none_or_eq_some p.space with hspace | ⟨sp, hspace⟩
  · refine .inl ⟨none, p.brk, ?_, .inl ⟨rfl, rfl, .inr hspace⟩, fun sp' _ hsome => ?_⟩
    · show _ = some (none, s, p)
      simp only [if_pos htop, hspace]
    · rw [hspace] at hsome
      cases hsome
  obtain ⟨r, hregion, hr⟩ := heapRegion_new hnew
  refine .inr ⟨sp, new, r, hspace, hzero, rfl, htop, hr, (if_pos htop).trans ?_⟩
  simp only [hspace, hregion, Option.bind_eq_bind, Option.bind_some]
  rcases sp.push A s r with _ | ⟨_ | ⟨⟩, s', sp'⟩ <;> rfl

theorem adjustBrk_some (h : p.Ok A s rest) (delta : Int) :
    ∃ res s' p', adjustBrk A.toFrameAllocator s p delta = some (res, s', p') := by
  rcases adjustBrk_cases A.toFrameAllocator s p delta with ⟨res, brk, heq, -, -⟩ |
    ⟨sp, new, r, hspace, -, -, -, hr, heq⟩
  · exact ⟨res, s, _, heq⟩
  · obtain ⟨res, s₁, sp₁, hpush, -⟩ :=
      push_spec (h.space hspace) (h.exact sp hspace).toFormed hr.user hr.empty
    rw [hpush, Option.map_some] at heq
    exact ⟨_, _, _, heq⟩

/-- `sbrk` keeps the process in order exactly when it is whole. -/
theorem adjustBrk_spec {delta : Int} {res : Option Nat} {p' : Process} (h : p.Ok A s rest)
    (heq : adjustBrk A.toFrameAllocator s p delta = some (res, s', p')) :
    A.Holds s' (p'.frames + rest) ∧ Kept rest s.mem s'.mem ∧ p'.pid = p.pid ∧
      p'.frame = p.frame ∧ (Whole A s p delta → p'.Ok A s' rest) ∧
      (¬ Whole A s p delta → p'.Dropped A s' rest) := by
  rcases adjustBrk_cases A.toFrameAllocator s p delta with ⟨res₁, brk, heq₁, -, nogrow⟩ |
    ⟨sp, new, r, hspace, hzero, hnew, htop, hr, heq₁⟩
  · rw [heq₁] at heq
    obtain ⟨rfl, rfl, rfl⟩ := heq
    refine ⟨h.holds, .refl _ _, rfl, rfl, fun _ => ⟨h.holds, h.exact⟩, fun hw => absurd ?_ hw⟩
    exact fun sp new hsp hne hnew hlt => absurd hlt (nogrow sp new hsp hne hnew)
  have exact := h.exact sp hspace
  obtain ⟨res', s₁, sp₁, hpush, holds₁, formed, -, kept, pushed⟩ :=
    push_spec (h.space hspace) exact.toFormed hr.user hr.empty
  rw [Multiset.add_cons, ← Multiset.cons_add] at holds₁
  have keptR : Kept rest s.mem s₁.mem := kept.mono (Multiset.le_cons_self _ _)
  rw [heq₁, hpush] at heq
  have whole_iff : Whole A s p delta ↔
      Region.Fits A s sp.table (pageNum r.start) r.pageCount ∨
        Region.Refused A s sp.table (pageNum r.start) := by
    rw [hr.first, hr.count]
    constructor
    · exact fun hw => hw sp new hspace hzero hnew htop
    · intro hor sp' new' hsp' _ hnew' _
      obtain rfl := Option.some.inj (hspace.symm.trans hsp')
      obtain rfl := Option.some.inj (hnew.symm.trans hnew')
      exact hor
  cases pushed with
  | mapped fits exact' _ _ =>
    obtain ⟨rfl, rfl, rfl⟩ := heq
    refine ⟨holds₁, keptR, rfl, rfl, fun _ => ⟨holds₁, fun sp' hsp' => ?_⟩,
      fun hw => absurd (whole_iff.mpr (.inl fits)) hw⟩
    exact Option.some.inj hsp' ▸ exact' exact
  | refused refused exact' =>
    obtain ⟨rfl, rfl, rfl⟩ := heq
    refine ⟨holds₁, keptR, rfl, rfl, fun _ => ⟨holds₁, fun sp' hsp' => ?_⟩,
      fun hw => absurd (whole_iff.mpr (.inr refused)) hw⟩
    exact Option.some.inj hsp' ▸ exact' exact
  | stale nofit norefuse hlow hword held hfree =>
    obtain ⟨rfl, rfl, rfl⟩ := heq
    refine ⟨holds₁, keptR, rfl, rfl, fun hw => ?_, fun _ => ?_⟩
    · rcases whole_iff.mp hw with fits | refused
      · exact absurd fits nofit
      · exact absurd refused norefuse
    · rw [Multiset.add_cons, ← Multiset.cons_add p.kstack] at held
      refine ⟨_, pageNum r.start, _, _, _, rfl, formed, hlow, hr.perm ▸ hword, held, ?_⟩
      intro r' hr' e he hkey
      obtain ⟨-, -, hlt⟩ := (exact.regions r' hr').single e he
      rw [← hkey, exact.word r' hr' e he, Bool.eq_false_iff] at hfree
      exact hfree ((Pte.isValid_new hlt (PteFlags.present_lt (exact.regions r' hr').perm)).mpr
        (PteFlags.present_odd _))

end AlexOS
