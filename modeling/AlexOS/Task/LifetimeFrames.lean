import AlexOS.Task.LifetimeSpaces

/-!
# Who owns the trap frames

A boxed trap frame is one task's, and its `kernel_sp` is the top of that task's stack. While a
task is in user mode `sscratch` has its frame and `stvec` the user vector; in the kernel
`stvec` has the kernel vector, and `sscratch` the user's `sp` since the last trap.
-/

namespace AlexOS.Lifetime

open World

namespace Stage

/-- The frame that `user_trap_handler` was given, while it is its task's. -/
def given : Stage → Option Nat
  | .trapped f | .prepared f _ => some f
  | .body f => f
  | _ => none

/-- The same after `exec_current` has replaced it. -/
def stale : Stage → Option Nat
  | .swapped f _ | .replaced f => some f
  | _ => none

end Stage

structure Framed (s : World) : Prop where
  frames : ∀ t fr, (s.tasks t).frame = some fr → s.frames fr = .live ∧ s.kernelSp fr = t
  given : ∀ t f, (s.tasks t).stage.given = some f → (s.tasks t).frame = some f
  stale : ∀ t f, (s.tasks t).stage.stale = some f → s.frames f = .dropped
  user : ∀ t, (s.tasks t).stage = .user →
    s.Executes t ∧ s.stvec = .user ∧ ∃ f, s.sscratch = .frame f ∧ (s.tasks t).frame = some f
  kernel : (∀ t, (s.tasks t).stage ≠ .user) → s.stvec = .kernel

section
variable {s s' : World} {p : Pos} {t u f : Nat} {r : Task} {place : Nat → Place}

theorem Framed.boot : Framed .boot where
  frames _ _ h := by simp [World.boot, Task.new] at h
  given _ _ h := by simp [World.boot, Task.new, Stage.given] at h
  stale _ _ h := by simp [World.boot, Task.new, Stage.stale] at h
  user _ h := by simp [World.boot, Task.new] at h
  kernel _ := rfl

/-! ## Steps that leave the frames alone -/

structure Task.SameFrames (r r' : Task) : Prop where
  frame : r'.frame = r.frame
  given : ∀ f, r'.stage.given = some f → r.stage.given = some f
  stale : ∀ f, r'.stage.stale = some f → r.stage.stale = some f
  user : r'.stage = .user ↔ r.stage = .user

theorem Task.SameFrames.of_stage {r r' : Task} (hframe : r'.frame = r.frame)
    (hstage : r'.stage = r.stage) : r.SameFrames r' :=
  ⟨hframe, by simp [hstage], by simp [hstage], by rw [hstage]⟩

theorem Framed.keep (fra : Framed s) (tasks : ∀ t, (s.tasks t).SameFrames (s'.tasks t))
    (hframes : s'.frames = s.frames) (hsp : s'.kernelSp = s.kernelSp)
    (hscratch : s'.sscratch = s.sscratch) (hstvec : s'.stvec = s.stvec)
    (executes : ∀ t, s.Executes t → (s.tasks t).stage = .user → s'.Executes t) : Framed s' where
  frames t fr h := by
    rw [(tasks t).frame] at h
    rw [hframes, hsp]
    exact fra.frames t fr h
  given t f h := by
    rw [(tasks t).frame]
    exact fra.given t f ((tasks t).given f h)
  stale t f h := by
    rw [hframes]
    exact fra.stale t f ((tasks t).stale f h)
  user t h := by
    have hold := (tasks t).user.mp h
    obtain ⟨hx, hvec, hscr⟩ := fra.user t hold
    rw [hstvec, hscratch, (tasks t).frame]
    exact ⟨executes t hx hold, hvec, hscr⟩
  kernel h := by
    rw [hstvec]
    exact fra.kernel fun t ht => h t ((tasks t).user.mpr ht)

theorem Framed.edit (fra : Framed s) (htasks : s'.tasks = Function.update s.tasks t r)
    (same : (s.tasks t).SameFrames r) (hframes : s'.frames = s.frames)
    (hsp : s'.kernelSp = s.kernelSp) (hscratch : s'.sscratch = s.sscratch)
    (hstvec : s'.stvec = s.stvec)
    (executes : ∀ t, s.Executes t → (s.tasks t).stage = .user → s'.Executes t) : Framed s' := by
  refine fra.keep ?_ hframes hsp hscratch hstvec executes
  intro u
  rw [htasks, Function.update_apply]
  split
  · rename_i hu
    rw [hu]
    exact same
  · exact .of_stage rfl rfl

/-- A step of the idle loop or of a switch: no task is in user mode. -/
theorem Framed.pass (fra : Framed s) (htasks : s'.tasks = s.tasks) (hframes : s'.frames = s.frames)
    (hsp : s'.kernelSp = s.kernelSp) (hscratch : s'.sscratch = s.sscratch)
    (hstvec : s'.stvec = s.stvec) (hphase : s.phase ≠ .task) : Framed s' :=
  fra.keep (fun t => .of_stage (by rw [htasks]) (by rw [htasks])) hframes hsp hscratch hstvec
    fun _ hx => absurd hx.phase hphase

/-- The stage of the executing task changes within the kernel. -/
theorem Framed.stage (fra : Framed s) (hx : s.Executes t)
    (htasks : s'.tasks = Function.update s.tasks t r)
    (same : (s.tasks t).SameFrames r) (hframes : s'.frames = s.frames)
    (hsp : s'.kernelSp = s.kernelSp) (hscratch : s'.sscratch = s.sscratch)
    (hstvec : s'.stvec = s.stvec) (hnot : (s.tasks t).stage ≠ .user) : Framed s' := by
  refine fra.edit htasks same hframes hsp hscratch hstvec ?_
  intro u hu hstage
  rw [hx.only hu.mapped] at hstage
  exact absurd hstage hnot

theorem World.Turn.sameFrames {r r' : Task} (h : Turn s t r r') : r.SameFrames r' := by
  cases h with
  | clone => exact .of_stage rfl rfl
  | drop => exact .of_stage rfl rfl
  | reap => exact .of_stage rfl rfl
  | _ => constructor <;> simp_all [Stage.given, Stage.stale]

theorem World.Turn.not_user {r r' : Task} (h : Turn s t r r') : r.stage ≠ .user := by
  cases h <;> intro hu <;> simp_all [Stage.free]

theorem World.Leaves.sameFrames {r r' : Task} (h : Leaves t r r') : r.SameFrames r' := by
  cases h <;> constructor <;> simp_all [Stage.given, Stage.stale]

theorem World.Leaves.not_user {r r' : Task} (h : Leaves t r r') : r.stage ≠ .user := by
  cases h <;> intro hu <;> simp_all

/-! ## New frames and user mode -/

theorem Framed.ne_of_absent (fra : Framed s) {fr g : Nat} (h : s.frames fr = .absent)
    (hg : (s.tasks u).frame = some g ∨ (s.tasks u).stage.stale = some g) : g ≠ fr := by
  rintro rfl
  rcases hg with hg | hg
  · rw [(fra.frames u g hg).1] at h
    cases h
  · rw [fra.stale u g hg] at h
    cases h

theorem Framed.create (fra : Framed s) (hu : s.tasks u = .new false none none) {sp fr : Nat}
    (hfr : s.frames fr = .absent)
    (htasks : s'.tasks = Function.update s.tasks u (.new true (some sp) (some fr)))
    (hframes : s'.frames = Function.update s.frames fr .live)
    (hsp : s'.kernelSp = Function.update s.kernelSp fr u) (hscratch : s'.sscratch = s.sscratch)
    (hstvec : s'.stvec = s.stvec) (executes : ∀ t, s.Executes t → s'.Executes t) : Framed s' := by
  have self : s'.tasks u = .new true (some sp) (some fr) := by rw [htasks, Function.update_self]
  have other : ∀ t, t ≠ u → s'.tasks t = s.tasks t := by
    intro t ht
    rw [htasks, Function.update_of_ne ht]
  refine ⟨?_, ?_, ?_, ?_, ?_⟩
  · intro t g hg
    by_cases ht : t = u
    · rw [ht, self] at hg
      obtain rfl : fr = g := Option.some.inj hg
      rw [hframes, hsp, Function.update_self, Function.update_self, ht]
      exact ⟨rfl, rfl⟩
    · rw [other t ht] at hg
      have hne := fra.ne_of_absent hfr (.inl hg)
      rw [hframes, hsp, Function.update_of_ne hne, Function.update_of_ne hne]
      exact fra.frames t g hg
  · intro t f hf
    by_cases ht : t = u
    · rw [ht, self] at hf
      cases hf
    · rw [other t ht] at hf ⊢
      exact fra.given t f hf
  · intro t f hf
    by_cases ht : t = u
    · rw [ht, self] at hf
      cases hf
    · rw [other t ht] at hf
      rw [hframes, Function.update_of_ne (fra.ne_of_absent hfr (.inr hf))]
      exact fra.stale t f hf
  · intro t hstage
    by_cases ht : t = u
    · rw [ht, self] at hstage
      cases hstage
    · rw [other t ht] at hstage ⊢
      obtain ⟨hx, hvec, hscr⟩ := fra.user t hstage
      rw [hstvec, hscratch]
      exact ⟨executes t hx, hvec, hscr⟩
  · intro h
    rw [hstvec]
    refine fra.kernel fun t hstage => ?_
    by_cases ht : t = u
    · rw [ht, hu] at hstage
      cases hstage
    · exact h t (by rw [other t ht]; exact hstage)

theorem Framed.enterUser (fra : Framed s) (hx : s.Executes t) {fr : Nat}
    (hfr : (s.tasks t).frame = some fr) :
    Framed { s.put t { s.tasks t with stage := .user } with
      sscratch := .frame fr, stvec := .user } := by
  have other : ∀ u, u ≠ t →
      Function.update s.tasks t { s.tasks t with stage := .user } u = s.tasks u :=
    fun u hu => Function.update_of_ne hu _ _
  have self : Function.update s.tasks t { s.tasks t with stage := .user } t =
      { s.tasks t with stage := .user } := Function.update_self _ _ _
  refine ⟨?_, ?_, ?_, ?_, ?_⟩ <;> dsimp only [put]
  · intro u g hg
    by_cases hu : u = t
    · rw [hu, self] at hg
      rw [hu]
      exact fra.frames t g hg
    · rw [other u hu] at hg
      exact fra.frames u g hg
  · intro u f hf
    by_cases hu : u = t
    · rw [hu, self] at hf
      cases hf
    · rw [other u hu] at hf ⊢
      exact fra.given u f hf
  · intro u f hf
    by_cases hu : u = t
    · rw [hu, self] at hf
      cases hf
    · rw [other u hu] at hf
      exact fra.stale u f hf
  · intro u hu'
    by_cases hu : u = t
    · rw [hu, self]
      exact ⟨⟨hx.phase, hx.stack, hx.current⟩, rfl, fr, rfl, hfr⟩
    · rw [other u hu] at hu'
      exact absurd (hx.only (fra.user u hu').1.mapped) hu
  · intro h
    have := h t
    rw [self] at this
    exact absurd rfl this

theorem Framed.userTrap (fra : Framed s) (hstage : (s.tasks t).stage = .user)
    (hf : s.sscratch = .frame f) :
    Framed { s.put t { s.tasks t with stage := .trapped f } with
      sscratch := .userSp, stvec := .kernel } := by
  obtain ⟨hx, _, g, hscratch, hframe⟩ := fra.user t hstage
  obtain rfl : f = g := Scratch.frame.inj (hf.symm.trans hscratch)
  have other : ∀ u, u ≠ t →
      Function.update s.tasks t { s.tasks t with stage := .trapped f } u = s.tasks u :=
    fun u hu => Function.update_of_ne hu _ _
  have self : Function.update s.tasks t { s.tasks t with stage := .trapped f } t =
      { s.tasks t with stage := .trapped f } := Function.update_self _ _ _
  refine ⟨?_, ?_, ?_, ?_, ?_⟩ <;> dsimp only [put]
  · intro u g hg
    by_cases hu : u = t
    · rw [hu, self] at hg
      rw [hu]
      exact fra.frames t g hg
    · rw [other u hu] at hg
      exact fra.frames u g hg
  · intro u g hg
    by_cases hu : u = t
    · rw [hu, self] at hg ⊢
      rw [← hg]
      exact hframe
    · rw [other u hu] at hg ⊢
      exact fra.given u g hg
  · intro u g hg
    by_cases hu : u = t
    · rw [hu, self] at hg
      cases hg
    · rw [other u hu] at hg
      exact fra.stale u g hg
  · intro u hu'
    by_cases hu : u = t
    · rw [hu, self] at hu'
      cases hu'
    · rw [other u hu] at hu'
      exact absurd (hx.only (fra.user u hu').1.mapped) hu
  · intro _
    rfl

/-- `exec_current` replaces the frame: the one its caller was given is dropped. -/
theorem Framed.swap (fra : Framed s) (hx : s.Executes t) {sp old fr : Nat}
    (hstage : (s.tasks t).stage = .prepared f sp) (hfr : s.frames fr = .absent) :
    Framed { s.put t { s.tasks t with
                space := some sp, frame := some fr, stage := .swapped f old } with
        satp := some sp
        frames := Function.update (dropped s.frames (s.tasks t).frame) fr .live
        kernelSp := Function.update s.kernelSp fr t } := by
  have hframe : (s.tasks t).frame = some f := fra.given t f (by rw [hstage]; rfl)
  obtain ⟨hlive, hown⟩ := fra.frames t f hframe
  have hne : f ≠ fr := fra.ne_of_absent hfr (.inl hframe)
  rw [hframe]
  dsimp only [dropped]
  let r : Task := { s.tasks t with space := some sp, frame := some fr, stage := .swapped f old }
  have other : ∀ u, u ≠ t → Function.update s.tasks t r u = s.tasks u :=
    fun u hu => Function.update_of_ne hu _ _
  have self : Function.update s.tasks t r t = r := Function.update_self _ _ _
  refine ⟨?_, ?_, ?_, ?_, ?_⟩ <;> dsimp only [put]
  · intro u g hg
    by_cases hu : u = t
    · rw [hu, self] at hg
      obtain rfl : fr = g := Option.some.inj hg
      rw [Function.update_self, Function.update_self, hu]
      exact ⟨rfl, rfl⟩
    · rw [other u hu] at hg
      obtain ⟨hglive, hgown⟩ := fra.frames u g hg
      have hgr := fra.ne_of_absent hfr (.inl hg)
      have hgf : g ≠ f := by
        rintro rfl
        exact hu (hgown.symm.trans hown)
      rw [Function.update_of_ne hgr, Function.update_of_ne hgr, Function.update_of_ne hgf]
      exact ⟨hglive, hgown⟩
  · intro u g hg
    by_cases hu : u = t
    · rw [hu, self] at hg
      cases hg
    · rw [other u hu] at hg ⊢
      exact fra.given u g hg
  · intro u g hg
    by_cases hu : u = t
    · rw [hu, self] at hg
      obtain rfl : f = g := Option.some.inj hg
      rw [Function.update_of_ne hne, Function.update_self]
    · rw [other u hu] at hg
      have hgr := fra.ne_of_absent hfr (.inr hg)
      rw [Function.update_of_ne hgr, Function.update_apply]
      split
      · rfl
      · exact fra.stale u g hg
  · intro u hu'
    by_cases hu : u = t
    · rw [hu, self] at hu'
      cases hu'
    · rw [other u hu] at hu'
      exact absurd (hx.only (fra.user u hu').1.mapped) hu
  · intro _
    refine fra.kernel fun u hu' => ?_
    by_cases hu : u = t
    · rw [hu, hstage] at hu'
      cases hu'
    · exact hu (hx.only (fra.user u hu').1.mapped)

/-! ## Every step -/

theorem World.Act.framed (h : Act s s') (rec : Records s) (inv : Slots s p place)
    (fra : Framed s) : Framed s' := by
  cases h with
  | boot h habsent hsp hfr =>
    exact fra.create (rec.absent _ habsent) hfr rfl rfl rfl rfl rfl fun _ hx =>
      ⟨hx.phase, hx.stack, hx.current⟩
  | bootKernel h habsent =>
    refine fra.edit rfl ?_ rfl rfl rfl rfl fun _ h _ => ⟨h.phase, h.stack, h.current⟩
    rw [rec.absent _ habsent]
    exact .of_stage rfl rfl
  | start h | take h _ | noPrevious h _ | requeue h _ _ | release h _ _ | pick h _ | sleep h _
  | rouse h | hand h _ | switchOut h | activate h _ | switchIn h _ =>
    exact fra.pass rfl rfl rfl rfl rfl (by simp [h])
  | publish h hhand =>
    exact fra.edit rfl (.of_stage rfl rfl) rfl rfl rfl rfl fun _ hx => by simp [hx.phase] at h
  | leave hx hl =>
    exact fra.stage hx.toExecutes rfl hl.sameFrames rfl rfl rfl rfl hl.not_user
  | @preempt t hx _ hpre =>
    refine fra.stage hx (t := t) rfl ?_ rfl rfl rfl rfl ?_
    · revert hpre
      generalize s.tasks t = r
      intro hpre
      cases hstage : r.stage <;> constructor <;>
        simp_all [Stage.resumed, Stage.given, Stage.stale]
    · intro hu
      rw [hu] at hpre
      cases hpre
  | resume _ _ | dequeue _ _ _ | push _ _ _ | note _ _ _ _ =>
    exact fra.edit rfl (.of_stage rfl rfl) rfl rfl rfl rfl fun _ h _ =>
      ⟨h.phase, h.stack, h.current⟩
  | turn hx hturn =>
    exact fra.stage hx.toExecutes rfl hturn.sameFrames rfl rfl rfl rfl hturn.not_user
  | enterUser hx hstage hfr => exact fra.enterUser hx.toExecutes hfr
  | userTrap _ hstage hf => exact fra.userTrap hstage hf
  | @spawn t u hx hstage habsent =>
    have first : Framed (s.put t { s.tasks t with locals := (s.tasks t).locals ++ [u] }) :=
      fra.edit rfl (.of_stage rfl rfl) rfl rfl rfl rfl fun _ h _ => ⟨h.phase, h.stack, h.current⟩
    refine first.edit (t := u) rfl ?_ rfl rfl rfl rfl fun _ h _ => ⟨h.phase, h.stack, h.current⟩
    show Task.SameFrames (Function.update s.tasks t _ u) _
    rw [Function.update_of_ne (hx.ne_of_absent inv habsent), rec.absent u habsent]
    exact .of_stage rfl rfl
  | @fork t u sp fr f hx hstage habsent hsp hfr =>
    let r : Task := { s.tasks t with children := (s.tasks t).children ++ [u] }
    have first : Framed (s.put t r) :=
      fra.edit rfl (.of_stage rfl rfl) rfl rfl rfl rfl fun _ h _ => ⟨h.phase, h.stack, h.current⟩
    have hu : (s.put t r).tasks u = .new false none none := by
      show Function.update s.tasks t r u = _
      rw [Function.update_of_ne (hx.ne_of_absent inv habsent), rec.absent u habsent]
    exact first.create (u := u) hu hfr rfl rfl rfl rfl rfl fun _ h => ⟨h.phase, h.stack, h.current⟩
  | enqueue hx _ _ =>
    exact fra.keep (fun _ => .of_stage rfl rfl) rfl rfl rfl rfl fun _ h _ =>
      ⟨h.phase, h.stack, h.current⟩
  | @wake t u hx hfree hu hst =>
    refine fra.keep ?_ rfl rfl rfl rfl fun _ h _ => ⟨h.phase, h.stack, h.current⟩
    intro v
    simp only [put, Function.update_apply]
    split
    · rename_i hv
      rw [hv]
      exact .of_stage rfl rfl
    · split
      · rename_i hv
        rw [hv]
        exact .of_stage rfl rfl
      · exact .of_stage rfl rfl
  | device h hu =>
    unfold wakeNow
    split
    · exact fra.edit rfl (.of_stage rfl rfl) rfl rfl rfl rfl fun _ h _ =>
        ⟨h.phase, h.stack, h.current⟩
    · exact fra.edit rfl (.of_stage rfl rfl) rfl rfl rfl rfl fun _ h _ =>
        ⟨h.phase, h.stack, h.current⟩
  | prepare hx hstage _ | abort hx hstage | dropOld hx hstage | detach hx hstage
  | dropSpace hx hstage =>
    exact fra.stage hx.toExecutes rfl (by constructor <;> simp [hstage, Stage.given, Stage.stale])
      rfl rfl rfl rfl (by simp [hstage])
  | swap hx hstage _ hfr => exact fra.swap hx.toExecutes hstage hfr

end

end AlexOS.Lifetime
