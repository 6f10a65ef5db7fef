import AlexOS.Task.LifetimeSteps

/-!
# Who owns the address spaces

A space has one owner, a task or a local of its kernel code. A task in kernel code changes
what it owns itself, and what is installed is its own: so what it drops is not installed.
-/

namespace AlexOS.Lifetime

open World

/-- `run` has installed the space of `t`, and `t` has not left since. -/
def World.Mapped (s : World) (t : Nat) : Prop :=
  s.phase = .activated ∧ s.hand = some t ∨
    (s.phase = .published ∨ s.phase = .task) ∧ s.current = some t

/-- What is in `satp` while a task is mapped. -/
def Task.Installed (r : Task) (satp : Option Nat) : Prop :=
  satp = r.space ∨ ∃ sp, r.stage = .taken sp ∧ satp = some sp

structure Owned (s : World) : Prop where
  live : ∀ t, ∀ sp ∈ (s.tasks t).spaces, s.spaces sp = .live
  owner : ∀ t u, ∀ sp ∈ (s.tasks t).spaces, sp ∈ (s.tasks u).spaces → t = u
  nodup : ∀ t, (s.tasks t).spaces.Nodup
  satp : ∀ sp, s.satp = some sp → s.spaces sp = .live
  installed : ∀ t, s.Mapped t → (s.tasks t).Installed s.satp

section
variable {s s' : World} {p : Pos} {t u sp : Nat} {r : Task} {place : Nat → Place}

theorem World.Executes.mapped (hx : s.Executes t) : s.Mapped t := .inr ⟨.inr hx.phase, hx.current⟩

theorem World.Executes.only (hx : s.Executes t) (h : s.Mapped u) : u = t := by
  rcases h with ⟨h, _⟩ | ⟨_, h⟩
  · rw [hx.phase] at h
    cases h
  · exact Option.some.inj (h.symm.trans hx.current)

theorem World.Runs.ne_of_absent (hx : s.Runs t) (inv : Slots s p place)
    (habsent : s.status u = .absent) : u ≠ t := by
  intro heq
  rw [heq, (inv.runs hx.toExecutes).2.2.2] at habsent
  cases habsent

theorem Owned.boot : Owned .boot where
  live _ _ h := by simp [World.boot, Task.new, Task.spaces, Stage.spaces] at h
  owner _ _ _ h := by simp [World.boot, Task.new, Task.spaces, Stage.spaces] at h
  nodup _ := by simp [World.boot, Task.new, Task.spaces, Stage.spaces]
  satp _ h := by simp [World.boot] at h
  installed _ h := by simp [World.boot, Mapped] at h

/-! ## Steps that leave the spaces alone -/

structure Task.SameSpaces (r r' : Task) : Prop where
  space : r'.space = r.space
  held : r'.stage.spaces = r.stage.spaces
  taken : ∀ sp, r.stage = .taken sp → r'.stage = .taken sp

theorem Task.SameSpaces.spaces {r r' : Task} (h : r.SameSpaces r') : r'.spaces = r.spaces := by
  unfold Task.spaces
  rw [h.space, h.held]

theorem Task.SameSpaces.of_stage {r r' : Task} (hspace : r'.space = r.space)
    (hstage : r'.stage = r.stage) : r.SameSpaces r' :=
  ⟨hspace, by rw [hstage], fun _ h => hstage.trans h⟩

theorem Owned.keep (own : Owned s) (tasks : ∀ t, (s.tasks t).SameSpaces (s'.tasks t))
    (hspaces : s'.spaces = s.spaces) (hsatp : s'.satp = s.satp)
    (mapped : ∀ t, s'.Mapped t → s.Mapped t) : Owned s' where
  live t sp h := by
    rw [(tasks t).spaces] at h
    rw [hspaces]
    exact own.live t sp h
  owner t u sp ht hu := by
    rw [(tasks t).spaces] at ht
    rw [(tasks u).spaces] at hu
    exact own.owner t u sp ht hu
  nodup t := by
    rw [(tasks t).spaces]
    exact own.nodup t
  satp sp h := by
    rw [hsatp] at h
    rw [hspaces]
    exact own.satp sp h
  installed t h := by
    rw [hsatp]
    rcases own.installed t (mapped t h) with hi | ⟨sp, hstage, hi⟩
    · exact .inl (by rw [hi, (tasks t).space])
    · exact .inr ⟨sp, (tasks t).taken sp hstage, hi⟩

/-- One task's record changes, but not what it owns. -/
theorem Owned.edit (own : Owned s) (htasks : s'.tasks = Function.update s.tasks t r)
    (same : (s.tasks t).SameSpaces r) (hspaces : s'.spaces = s.spaces) (hsatp : s'.satp = s.satp)
    (mapped : ∀ t, s'.Mapped t → s.Mapped t) : Owned s' := by
  refine own.keep ?_ hspaces hsatp mapped
  intro u
  rw [htasks, Function.update_apply]
  split
  · rename_i hu
    rw [hu]
    exact same
  · exact .of_stage rfl rfl

/-- A step that changes no record, space or `satp`. -/
theorem Owned.pass (own : Owned s) (htasks : s'.tasks = s.tasks) (hspaces : s'.spaces = s.spaces)
    (hsatp : s'.satp = s.satp) (mapped : ∀ t, s'.Mapped t → s.Mapped t) : Owned s' :=
  own.keep (fun t => .of_stage (by rw [htasks]) (by rw [htasks])) hspaces hsatp mapped

/-- The task `t` gets and drops spaces of its own. -/
theorem Owned.change (own : Owned s) (htasks : s'.tasks = Function.update s.tasks t r)
    (nodup : r.spaces.Nodup)
    (mine : ∀ sp ∈ r.spaces, s'.spaces sp = .live ∧
      (sp ∈ (s.tasks t).spaces ∨ s.spaces sp = .absent))
    (kept : ∀ sp, s'.spaces sp = s.spaces sp ∨ sp ∈ (s.tasks t).spaces ∨ s.spaces sp = .absent)
    (satp : ∀ sp, s'.satp = some sp → s'.spaces sp = .live)
    (installed : ∀ t, s'.Mapped t → (s'.tasks t).Installed s'.satp) : Owned s' := by
  have self : s'.tasks t = r := by rw [htasks, Function.update_self]
  have other : ∀ u, u ≠ t → s'.tasks u = s.tasks u := by
    intro u hu
    rw [htasks, Function.update_of_ne hu]
  have apart : ∀ u, u ≠ t → ∀ sp ∈ (s.tasks u).spaces,
      sp ∉ (s.tasks t).spaces ∧ s.spaces sp ≠ .absent := by
    intro u hu sp hsp
    refine ⟨fun ht => hu (own.owner u t sp hsp ht), ?_⟩
    rw [own.live u sp hsp]
    exact Status.noConfusion
  refine ⟨?_, ?_, ?_, satp, installed⟩
  · intro u sp hsp
    by_cases hu : u = t
    · rw [hu, self] at hsp
      exact (mine sp hsp).1
    · rw [other u hu] at hsp
      rcases kept sp with h | h | h
      · rw [h]
        exact own.live u sp hsp
      · exact absurd h (apart u hu sp hsp).1
      · exact absurd h (apart u hu sp hsp).2
  · intro u v sp hsp hsp'
    by_cases hu : u = t
    · by_cases hv : v = t
      · rw [hu, hv]
      · rw [hu, self] at hsp
        rw [other v hv] at hsp'
        rcases (mine sp hsp).2 with h | h
        · exact absurd h (apart v hv sp hsp').1
        · exact absurd h (apart v hv sp hsp').2
    · rw [other u hu] at hsp
      by_cases hv : v = t
      · rw [hv, self] at hsp'
        rcases (mine sp hsp').2 with h | h
        · exact absurd h (apart u hu sp hsp).1
        · exact absurd h (apart u hu sp hsp).2
      · rw [other v hv] at hsp'
        exact own.owner u v sp hsp hsp'
  · intro u
    by_cases hu : u = t
    · rw [hu, self]
      exact nodup
    · rw [other u hu]
      exact own.nodup u

/-- A new space is `t`'s. -/
theorem Owned.acquire (own : Owned s) (htasks : s'.tasks = Function.update s.tasks t r)
    (hlist : r.spaces = (s.tasks t).spaces ++ [sp]) (habsent : s.spaces sp = .absent)
    (hspaces : s'.spaces = Function.update s.spaces sp .live) (hsatp : s'.satp = s.satp)
    (installed : ∀ t, s'.Mapped t → (s'.tasks t).Installed s'.satp) : Owned s' := by
  have fresh : sp ∉ (s.tasks t).spaces := by
    intro h
    have := own.live t sp h
    rw [habsent] at this
    cases this
  have old : ∀ x, s.spaces x = .live → s'.spaces x = .live := by
    intro x hx
    rw [hspaces, Function.update_apply]
    split
    · rfl
    · exact hx
  refine own.change htasks ?_ ?_ ?_ ?_ installed
  · rw [hlist, List.nodup_append]
    refine ⟨own.nodup t, by simp, ?_⟩
    intro a ha b hb hab
    rw [List.mem_singleton] at hb
    exact fresh (hb ▸ hab ▸ ha)
  · intro x hx
    rw [hlist, List.mem_append, List.mem_singleton] at hx
    rcases hx with hx | rfl
    · exact ⟨old x (own.live t x hx), .inl hx⟩
    · exact ⟨by rw [hspaces, Function.update_self], .inr habsent⟩
  · intro x
    by_cases hx : x = sp
    · exact .inr (.inr (hx ▸ habsent))
    · exact .inl (by rw [hspaces, Function.update_of_ne hx])
  · intro x hx
    rw [hsatp] at hx
    exact old x (own.satp x hx)

/-- A space goes from the task to a local or back. -/
theorem Owned.relabel (own : Owned s) (htasks : s'.tasks = Function.update s.tasks t r)
    (hlist : r.spaces.Perm (s.tasks t).spaces) (hspaces : s'.spaces = s.spaces)
    (satp : ∀ sp, s'.satp = some sp → s.satp = some sp ∨ sp ∈ (s.tasks t).spaces)
    (installed : ∀ t, s'.Mapped t → (s'.tasks t).Installed s'.satp) : Owned s' := by
  refine own.change htasks (hlist.nodup_iff.mpr (own.nodup t)) ?_ ?_ ?_ installed
  · intro x hx
    have hx' := hlist.mem_iff.mp hx
    exact ⟨by rw [hspaces]; exact own.live t x hx', .inl hx'⟩
  · intro x
    exact .inl (by rw [hspaces])
  · intro x hx
    rw [hspaces]
    rcases satp x hx with h | h
    · exact own.satp x h
    · exact own.live t x h

/-- `t` drops a space that is not installed. -/
theorem Owned.release (own : Owned s) (htasks : s'.tasks = Function.update s.tasks t r)
    (hlist : (s.tasks t).spaces = r.spaces ++ [sp])
    (hspaces : s'.spaces = Function.update s.spaces sp .dropped) (hsatp : s'.satp = s.satp)
    (hne : s.satp ≠ some sp) (installed : ∀ t, s'.Mapped t → (s'.tasks t).Installed s'.satp) :
    Owned s' := by
  have hmem : sp ∈ (s.tasks t).spaces := by
    rw [hlist]
    exact List.mem_append_right _ (List.mem_singleton.mpr rfl)
  have hnodup := own.nodup t
  rw [hlist, List.nodup_append] at hnodup
  have other : ∀ x, x ≠ sp → s'.spaces x = s.spaces x := by
    intro x hx
    rw [hspaces, Function.update_of_ne hx]
  refine own.change htasks hnodup.1 ?_ ?_ ?_ installed
  · intro x hx
    have hold : x ∈ (s.tasks t).spaces := by
      rw [hlist]
      exact List.mem_append_left _ hx
    refine ⟨?_, .inl hold⟩
    rw [other x (hnodup.2.2 x hx sp (List.mem_singleton.mpr rfl))]
    exact own.live t x hold
  · intro x
    by_cases hx : x = sp
    · exact .inr (.inl (hx ▸ hmem))
    · exact .inl (other x hx)
  · intro x hx
    rw [hsatp] at hx
    have hxs : x ≠ sp := by
      rintro rfl
      exact hne hx
    rw [other x hxs]
    exact own.satp x hx

/-- While `t` executes, only its own record says what is installed. -/
theorem World.Executes.installed (hx : s.Executes t)
    (htasks : s'.tasks = Function.update s.tasks t r)
    (mapped : ∀ t, s'.Mapped t → s.Mapped t) (h : r.Installed s'.satp) :
    ∀ t, s'.Mapped t → (s'.tasks t).Installed s'.satp := by
  intro u hu
  have := hx.only (mapped u hu)
  rw [this, htasks, Function.update_self]
  exact h

theorem Owned.satp_eq (own : Owned s) (hx : s.Executes t)
    (h : ∀ sp, (s.tasks t).stage ≠ .taken sp) : s.satp = (s.tasks t).space := by
  rcases own.installed t hx.mapped with hi | ⟨sp, hstage, _⟩
  · exact hi
  · exact absurd hstage (h sp)

theorem World.Turn.sameSpaces {r r' : Task} (h : Turn s t r r') (hr : r'.space = r.space) :
    r.SameSpaces r' := by
  cases h with
  | take h₁ h₂ =>
    rw [h₂] at hr
    cases hr
  | clone => exact .of_stage rfl rfl
  | drop => exact .of_stage rfl rfl
  | reap => exact .of_stage rfl rfl
  | _ => constructor <;> simp_all [Stage.spaces]

/-- `exit_current` takes the space out of the task. -/
theorem World.Turn.takes {r r' : Task} (h : Turn s t r r') (hr : r'.space ≠ r.space) :
    ∃ sp, r.stage = .exiting ∧ r.space = some sp ∧
      r' = { r with space := none, stage := .taken sp } := by
  cases h with
  | @take sp h₁ h₂ => exact ⟨sp, h₁, h₂, rfl⟩
  | _ => exact absurd rfl hr

theorem World.Leaves.sameSpaces {r r' : Task} (h : Leaves t r r') : r.SameSpaces r' := by
  cases h <;> constructor <;> simp_all [Stage.spaces]

theorem Owned.turn (own : Owned s) (hx : s.Executes t) (h : Turn s t (s.tasks t) r) :
    Owned (s.put t r) := by
  by_cases hr : r.space = (s.tasks t).space
  · exact own.edit rfl (h.sameSpaces hr) rfl rfl fun _ h => h
  · obtain ⟨sp, hstage, hspace, rfl⟩ := h.takes hr
    have hsatp : s.satp = some sp := by
      rw [own.satp_eq hx (by simp [hstage]), hspace]
    refine own.relabel rfl ?_ rfl (fun _ h => .inl h)
      (hx.installed rfl (fun _ h => h) (.inr ⟨sp, rfl, hsatp⟩))
    simp [Task.spaces, hstage, hspace, Stage.spaces]

/-- A local drops the space it owns. -/
theorem Owned.dropLocal (own : Owned s) (hx : s.Executes t)
    (hstage : (s.tasks t).stage.spaces = [sp]) (hnot : ∀ x, (s.tasks t).stage ≠ .taken x)
    {g : Stage} (hg : g.spaces = []) :
    Owned { s.put t { s.tasks t with stage := g } with
      spaces := Function.update s.spaces sp .dropped } := by
  have hsatp := own.satp_eq hx hnot
  have hnodup := own.nodup t
  unfold Task.spaces at hnodup
  rw [hstage, List.nodup_append] at hnodup
  refine own.release rfl ?_ rfl rfl ?_ (hx.installed rfl (fun _ h => h) (.inl hsatp))
  · simp [Task.spaces, hstage, hg]
  · intro h
    rw [hsatp] at h
    exact hnodup.2.2 sp (Option.mem_toList.mpr h) sp (List.mem_singleton.mpr rfl) rfl

theorem Owned.create (own : Owned s) (hu : s.tasks u = .new false none none)
    (hsp : s.spaces sp = .absent) {fr : Nat}
    (htasks : s'.tasks = Function.update s.tasks u (.new true (some sp) (some fr)))
    (hspaces : s'.spaces = Function.update s.spaces sp .live) (hsatp : s'.satp = s.satp)
    (mapped : ∀ t, s'.Mapped t → s.Mapped t ∧ t ≠ u) : Owned s' := by
  refine own.acquire htasks ?_ hsp hspaces hsatp ?_
  · rw [hu]
    rfl
  · intro t ht
    obtain ⟨hm, hne⟩ := mapped t ht
    rw [htasks, Function.update_of_ne hne, hsatp]
    exact own.installed t hm

theorem World.Act.owned (h : Act s s') (rec : Records s) (inv : Slots s p place) (own : Owned s) :
    Owned s' := by
  cases h with
  | boot h habsent hsp hfr =>
    exact own.create (rec.absent _ habsent) hsp rfl rfl rfl
      (by simp [Mapped, admitTask, put, furnish, h])
  | bootKernel h habsent =>
    refine own.edit rfl ?_ rfl rfl fun _ h => h
    rw [rec.absent _ habsent]
    exact .of_stage rfl rfl
  | start _ | take _ _ | noPrevious _ _ | requeue _ _ _ | release _ _ _ | pick _ _ | sleep _ _
  | rouse _ | hand _ _ | switchOut _ =>
    exact own.pass rfl rfl rfl (by simp [Mapped])
  | @activate t h hhand =>
    refine ⟨own.live, own.owner, own.nodup, ?_, ?_⟩
    · intro sp hsp
      exact own.live t sp (List.mem_append_left _ (Option.mem_toList.mpr hsp))
    · intro u hu
      have : u = t := by simp_all [Mapped]
      exact .inl (by rw [this])
  | publish h hhand => exact own.edit rfl (.of_stage rfl rfl) rfl rfl (by simp_all [Mapped])
  | switchIn h hcur => exact own.pass rfl rfl rfl (by simp_all [Mapped])
  | leave hx hl => exact own.edit rfl hl.sameSpaces rfl rfl (by simp [Mapped])
  | @preempt t hx _ _ =>
    refine own.edit (t := t) rfl ?_ rfl rfl (by simp [Mapped])
    generalize s.tasks t = r
    cases hstage : r.stage <;> constructor <;> simp_all [Stage.resumed, Stage.spaces]
  | resume _ _ | dequeue _ _ _ | push _ _ _ | note _ _ _ _ =>
    exact own.edit rfl (.of_stage rfl rfl) rfl rfl fun _ h => h
  | @turn t r hx hturn => exact own.turn hx.toExecutes hturn
  | enterUser hx hstage _ =>
    refine own.edit rfl ⟨rfl, ?_, ?_⟩ rfl rfl fun _ h => h
    · rcases hstage with h | h <;> rw [h] <;> rfl
    · intro sp h
      rcases hstage with h' | h' <;> rw [h'] at h <;> cases h
  | userTrap hx hstage _ =>
    refine own.edit rfl ⟨rfl, ?_, ?_⟩ rfl rfl fun _ h => h
    · rw [hstage]
      rfl
    · intro sp h
      rw [hstage] at h
      cases h
  | @spawn t u hx hstage habsent =>
    have first : Owned (s.put t { s.tasks t with locals := (s.tasks t).locals ++ [u] }) :=
      own.edit rfl (.of_stage rfl rfl) rfl rfl fun _ h => h
    refine first.edit (t := u) rfl ?_ rfl rfl fun _ h => h
    have hne := hx.ne_of_absent inv habsent
    show Task.SameSpaces (Function.update s.tasks t _ u) _
    rw [Function.update_of_ne hne, rec.absent u habsent]
    exact .of_stage rfl rfl
  | @fork t u sp fr f hx hstage habsent hsp hfr =>
    have hne := hx.ne_of_absent inv habsent
    let r : Task := { s.tasks t with children := (s.tasks t).children ++ [u] }
    have first : Owned (s.put t r) := own.edit rfl (.of_stage rfl rfl) rfl rfl fun _ h => h
    have hu : (s.put t r).tasks u = .new false none none := by
      show Function.update s.tasks t r u = _
      rw [Function.update_of_ne hne, rec.absent u habsent]
    refine first.create (u := u) hu hsp rfl rfl rfl ?_
    intro v hv
    refine ⟨hv, ?_⟩
    rw [hx.only hv]
    exact hne.symm
  | enqueue hx _ _ => exact own.pass rfl rfl rfl fun _ h => h
  | @wake t u hx hfree hu hst =>
    refine own.keep ?_ rfl rfl fun _ h => h
    intro v
    simp only [put, Function.update_apply]
    split
    · rename_i hv
      rw [hv]
      exact .of_stage rfl rfl
    · split
      · rename_i hv
        rw [hv]
        exact .of_stage rfl rfl
      · exact .of_stage rfl rfl
  | device h hu =>
    unfold wakeNow
    split
    · exact own.edit rfl (.of_stage rfl rfl) rfl rfl fun _ h => h
    · exact own.edit rfl (.of_stage rfl rfl) rfl rfl fun _ h => h
  | prepare hx hstage hsp =>
    have hsatp := own.satp_eq hx.toExecutes (by simp [hstage])
    refine own.acquire rfl ?_ hsp rfl rfl (hx.installed rfl (fun _ h => h) (.inl hsatp))
    simp [Task.spaces, hstage, Stage.spaces]
  | abort hx hstage | dropOld hx hstage | dropSpace hx hstage =>
    exact own.dropLocal hx.toExecutes (by rw [hstage]; rfl) (by simp [hstage]) rfl
  | @swap t f sp old fr hx hstage hspace _ =>
    refine own.relabel rfl ?_ rfl ?_ (hx.installed rfl (fun _ h => h) (.inl rfl))
    · simp only [Task.spaces, hstage, hspace, Stage.spaces]
      exact List.Perm.swap _ _ _
    · intro x hx
      refine .inr ?_
      have hsp : sp = x := Option.some.inj hx
      simp [Task.spaces, hstage, Stage.spaces, hsp]
  | @detach t sp hx hstage =>
    have hspace : (s.tasks t).space = none :=
      (rec.ok t).spaceless (by rw [hstage]; rfl) (by simp [hstage])
    refine own.relabel rfl ?_ rfl ?_ (hx.installed rfl (fun _ h => h) (.inl hspace.symm))
    · simp [Task.spaces, hstage, Stage.spaces]
    · intro x hx
      cases hx

end

end AlexOS.Lifetime
