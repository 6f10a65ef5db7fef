import AlexOS.Task.LifetimeFrames

/-!
# What holds along every run

All the invariants together, for every step and for the end of a task that nothing holds:
it has exited, so it owns no space, and its frame is no other task's.
-/

namespace AlexOS.Lifetime

open World

/-! ## Whose record a step changes -/

/-- What a step can make of the record of `v`. -/
structure Passes (s : World) (v : Nat) (r r' : Task) : Prop where
  stage : r'.stage = r.stage ∨ s.Executes v ∨ s.status v = .absent
  killed : r.killed = true → r'.killed = true
  children : ∀ u ∈ r'.children, u ∈ r.children ∨ s.Executes v ∧ s.status u = .absent

section
variable {s s' : World} {p : Pos} {t u v : Nat} {r r' : Task} {place : Nat → Place}

theorem Passes.same (hstage : r'.stage = r.stage) (hkilled : r'.killed = r.killed)
    (hchildren : r'.children = r.children) : Passes s v r r' :=
  ⟨.inl hstage, fun h => hkilled.trans h, fun _ hu => .inl (hchildren ▸ hu)⟩

theorem Passes.own (hx : s.Executes v) (hkilled : r.killed = true → r'.killed = true)
    (hchildren : ∀ u ∈ r'.children, u ∈ r.children) : Passes s v r r' :=
  ⟨.inr (.inl hx), hkilled, fun u hu => .inl (hchildren u hu)⟩

theorem Passes.update {m : Nat → Task} (hm : Passes s v (s.tasks v) (m v))
    (h : Passes s t (s.tasks t) r) : Passes s v (s.tasks v) (Function.update m t r v) := by
  rw [Function.update_apply]
  split
  · rename_i hv
    rw [hv]
    exact h
  · exact hm

theorem Passes.put (h : Passes s t (s.tasks t) r) :
    Passes s v (s.tasks v) (Function.update s.tasks t r v) :=
  .update (.same rfl rfl rfl) h

theorem Passes.arrive (hold : s.tasks u = .new false none none) (habsent : s.status u = .absent)
    {isUser : Bool} {space frame : Option Nat} :
    Passes s u (s.tasks u) (.new isUser space frame) := by
  rw [hold]
  refine ⟨.inr (.inr habsent), ?_, ?_⟩
  · intro h
    cases h
  · intro v h
    cases h

theorem World.Turn.passes (h : Turn s t (s.tasks t) r) (hx : s.Executes t) :
    Passes s t (s.tasks t) r := by
  refine .own hx ?_ ?_
  · intro hk
    cases h <;> first | exact hk | rfl
  · intro u hu
    cases h with
    | reap => exact List.mem_of_mem_erase hu
    | _ => exact hu

theorem World.Leaves.passes (h : Leaves t (s.tasks t) r) (hx : s.Executes t) :
    Passes s t (s.tasks t) r := by
  cases h <;> exact .own hx (fun hk => hk) fun _ hu => hu

theorem Advance.passes (h : Advance (s.tasks t) r) (hx : s.Executes t) :
    Passes s t (s.tasks t) r := by
  cases h <;> exact .own hx (fun hk => hk) fun _ hu => hu

theorem World.Act.passes (h : Act s s') (rec : Records s) (v : Nat) :
    Passes s v (s.tasks v) (s'.tasks v) := by
  cases h with
  | boot _ habsent _ _ => exact Passes.put (.arrive (rec.absent _ habsent) habsent)
  | bootKernel _ habsent => exact Passes.put (.arrive (rec.absent _ habsent) habsent)
  | publish _ _ | resume _ _ | dequeue _ _ _ | push _ _ _ | note _ _ _ _ =>
    exact Passes.put (.same rfl rfl rfl)
  | leave hx hl => exact Passes.put (hl.passes hx.toExecutes)
  | preempt hx _ _ => exact Passes.put (.own hx (fun hk => hk) fun _ hu => hu)
  | turn hx hturn => exact Passes.put (hturn.passes hx.toExecutes)
  | enterUser hx hstage _ => exact Passes.put (Advance.passes (.enterUser hstage) hx.toExecutes)
  | userTrap hx hstage _ => exact Passes.put (Advance.passes (.userTrap hstage) hx.toExecutes)
  | prepare hx hstage _ => exact Passes.put (Advance.passes (.prepare hstage) hx.toExecutes)
  | abort hx hstage => exact Passes.put (Advance.passes (.abort hstage) hx.toExecutes)
  | swap hx hstage _ _ => exact Passes.put (Advance.passes (.swap hstage) hx.toExecutes)
  | dropOld hx hstage => exact Passes.put (Advance.passes (.dropOld hstage) hx.toExecutes)
  | detach hx hstage => exact Passes.put (Advance.passes (.detach hstage) hx.toExecutes)
  | dropSpace hx hstage => exact Passes.put (Advance.passes (.dropSpace hstage) hx.toExecutes)
  | spawn _ _ habsent =>
    exact .update (.put (.same rfl rfl rfl)) (.arrive (rec.absent _ habsent) habsent)
  | @fork t u _ _ _ hx _ habsent _ _ =>
    refine .update (.put ⟨.inl rfl, fun hk => hk, ?_⟩) (.arrive (rec.absent _ habsent) habsent)
    intro w hw
    rcases List.mem_append.mp hw with h | h
    · exact .inl h
    · rw [List.mem_singleton.mp h]
      exact .inr ⟨hx.toExecutes, habsent⟩
  | wake _ _ _ _ => exact .update (.put (.same rfl rfl rfl)) (.same rfl rfl rfl)
  | device _ _ =>
    unfold wakeNow
    split <;> exact Passes.put (.same rfl rfl rfl)
  | _ => exact .same rfl rfl rfl

theorem World.Act.dropped_before (h : Act s s') (ht : s'.status t = .dropped) :
    s.status t = .dropped := by
  have admitted : ∀ u, Function.update s.status u .live t = .dropped → s.status t = .dropped := by
    intro u hu
    rw [Function.update_apply] at hu
    split at hu
    · cases hu
    · exact hu
  cases h with
  | boot => exact admitted _ ht
  | bootKernel => exact admitted _ ht
  | spawn => exact admitted _ ht
  | fork => exact admitted _ ht
  | device =>
    unfold wakeNow at ht
    split at ht <;> exact ht
  | _ => exact ht

/-! ## The invariant -/

/-- What is freed has exited, and no task is its own child. -/
structure Ends (s : World) : Prop where
  freed : ∀ t, s.status t = .dropped → (s.tasks t).stage = .dead
  child : ∀ t, t ∉ (s.tasks t).children

structure Sound (s : World) (p : Pos) (place : Nat → Place) : Prop where
  records : Records s
  slots : Slots s p place
  owned : Owned s
  framed : Framed s
  ends : Ends s

theorem Ends.boot : Ends .boot where
  freed _ h := by simp [World.boot] at h
  child _ := by simp [World.boot, Task.new]

theorem World.Act.ends (h : Act s s') (rec : Records s) (inv : Slots s p place) (ends : Ends s) :
    Ends s' := by
  refine ⟨?_, ?_⟩
  · intro t ht
    have hold := h.dropped_before ht
    rcases (h.passes rec t).stage with hst | hx | habsent
    · rw [hst]
      exact ends.freed t hold
    · rw [(inv.runs hx).2.2.2] at hold
      cases hold
    · rw [habsent] at hold
      cases hold
  · intro t ht
    rcases (h.passes rec t).children t ht with hold | ⟨hx, habsent⟩
    · exact ends.child t hold
    · rw [(inv.runs hx).2.2.2] at habsent
      cases habsent

theorem World.Act.sound (h : Act s s') (inv : Sound s p place) : ∃ p place, Sound s' p place := by
  obtain ⟨p', place', slots⟩ := h.slots inv.records inv.slots
  exact ⟨p', place', h.records inv.records inv.slots, slots,
    h.owned inv.records inv.slots inv.owned, h.framed inv.records inv.slots inv.framed,
    h.ends inv.records inv.slots inv.ends⟩

/-! ## The last reference -/

theorem Sound.dead_of_unheld (inv : Sound s p place) (hlive : s.status t = .live)
    (h : ¬ s.Held t) : (s.tasks t).stage = .dead := by
  by_contra hd
  exact h (inv.slots.held_of_place inv.records hlive hd)

theorem World.Held.none (h : ¬ s.Held t) :
    (∀ u, t ∉ (s.tasks u).locals ∧ t ∉ (s.tasks u).children) ∧ t ∉ s.waiting ∧
      (s.tasks t).resched = false ∧ (s.tasks t).killed = false := by
  simp only [Held, not_or, not_exists, Bool.not_eq_true] at h
  obtain ⟨_, hw, _, _, _, hr, hk, hp⟩ := h
  exact ⟨hp, hw, hr, hk⟩

theorem Sound.collect_records (inv : Sound s p place) (hlive : s.status t = .live)
    (h : ¬ s.Held t) : Records (s.collect t) := by
  have hdead := inv.dead_of_unheld hlive h
  obtain ⟨hrefs, hwait, hresched, hkilled⟩ := Held.none h
  have other : ∀ u, u ≠ t → (s.collect t).tasks u = s.tasks u :=
    fun u hu => Function.update_of_ne hu _ _
  have self : (s.collect t).tasks t = (s.tasks t).gone := Function.update_self _ _ _
  have status : ∀ u, u ≠ t → (s.collect t).status u = s.status u :=
    fun u hu => Function.update_of_ne hu _ _
  have ok := inv.records.ok t
  have hlocals := ok.bare (by rw [hdead]; rfl)
  have hzombie := ok.zombie.mpr hdead
  refine ⟨?_, ?_, ?_, ?_⟩
  · intro u
    by_cases hu : u = t
    · rw [hu, self]
      constructor <;> simp [Task.gone, hdead, hlocals, hzombie, Stage.forUser, Stage.ending,
        hresched, hkilled, (ok.dead hdead).2]
    · rw [other u hu]
      exact inv.records.ok u
  · intro u
    by_cases hu : u = t
    · rw [hu, self]
      constructor <;> simp [Task.gone, hlocals, hzombie, hresched, hkilled]
    · rw [other u hu]
      have hrefer := inv.records.refers u
      refine ⟨?_, ?_, ?_, hrefer.asleep⟩
      · intro w hw
        have hne : w ≠ t := by
          rintro rfl
          exact (hrefs u).1 hw
        rw [status w hne]
        exact hrefer.locals w hw
      · intro w hw
        have hne : w ≠ t := by
          rintro rfl
          exact (hrefs u).2 hw
        rw [status w hne]
        exact hrefer.children w hw
      · intro hs
        rw [status u hu]
        exact hrefer.self hs
  · intro u hu
    have hne : u ≠ t := by
      rintro rfl
      exact hwait hu
    rw [status u hne]
    exact inv.records.waiting u hu
  · intro u hu
    have hne : u ≠ t := by
      rintro rfl
      have : (s.collect u).status u = .dropped := Function.update_self _ _ _
      rw [this] at hu
      cases hu
    rw [status u hne] at hu
    rw [other u hne]
    exact inv.records.absent u hu

theorem Sound.collect_owned (inv : Sound s p place) (hlive : s.status t = .live)
    (h : ¬ s.Held t) : Owned (s.collect t) := by
  have hdead := inv.dead_of_unheld hlive h
  have hspace : (s.tasks t).space = none :=
    (inv.records.ok t).spaceless (by rw [hdead]; rfl) (by simp [hdead])
  refine inv.owned.edit rfl (.of_stage ?_ rfl) ?_ rfl fun _ h => h
  · exact hspace.symm
  · show dropped s.spaces (s.tasks t).space = _
    rw [hspace]
    rfl

theorem Sound.collect_framed (inv : Sound s p place) (hlive : s.status t = .live)
    (h : ¬ s.Held t) : Framed (s.collect t) := by
  have hdead := inv.dead_of_unheld hlive h
  have fra := inv.framed
  have other : ∀ u, u ≠ t → (s.collect t).tasks u = s.tasks u :=
    fun u hu => Function.update_of_ne hu _ _
  have self : (s.collect t).tasks t = (s.tasks t).gone := Function.update_self _ _ _
  have stage : ∀ u, ((s.collect t).tasks u).stage = (s.tasks u).stage := by
    intro u
    by_cases hu : u = t
    · rw [hu, self]
      rfl
    · rw [other u hu]
  have frames : ∀ g, (s.tasks t).frame ≠ some g → (s.collect t).frames g = s.frames g := by
    intro g hg
    show dropped s.frames (s.tasks t).frame g = _
    cases hf : (s.tasks t).frame with
    | none => rfl
    | some f =>
      have hne : g ≠ f := by
        rintro rfl
        exact hg hf
      exact Function.update_of_ne hne _ _
  refine ⟨?_, ?_, ?_, ?_, ?_⟩
  · intro u g hg
    by_cases hu : u = t
    · rw [hu, self] at hg
      cases hg
    · rw [other u hu] at hg
      obtain ⟨hglive, hgown⟩ := fra.frames u g hg
      rw [frames g fun ht => hu (hgown.symm.trans (fra.frames t g ht).2)]
      exact ⟨hglive, hgown⟩
  · intro u f hf
    rw [stage] at hf
    by_cases hu : u = t
    · rw [hu, hdead] at hf
      cases hf
    · rw [other u hu]
      exact fra.given u f hf
  · intro u f hf
    rw [stage] at hf
    have hold := fra.stale u f hf
    rw [frames f fun ht => by rw [(fra.frames t f ht).1] at hold; cases hold]
    exact hold
  · intro u hu'
    rw [stage] at hu'
    have hu : u ≠ t := by
      rintro rfl
      rw [hdead] at hu'
      cases hu'
    obtain ⟨hx, hvec, hscr⟩ := fra.user u hu'
    rw [other u hu]
    exact ⟨⟨hx.phase, hx.stack, hx.current⟩, hvec, hscr⟩
  · intro hnone
    exact fra.kernel fun u hu => hnone u (by rw [stage]; exact hu)

theorem Sound.collect_ends (inv : Sound s p place) (hlive : s.status t = .live)
    (h : ¬ s.Held t) : Ends (s.collect t) := by
  have hdead := inv.dead_of_unheld hlive h
  refine ⟨?_, ?_⟩
  · intro u hu
    show (Function.update s.tasks t (s.tasks t).gone u).stage = .dead
    have hst : Function.update s.status t .dropped u = .dropped := hu
    rw [Function.update_apply] at hst ⊢
    split
    · exact hdead
    · rename_i hne
      rw [if_neg hne] at hst
      exact inv.ends.freed u hst
  · intro u hu
    have hin : u ∈ (Function.update s.tasks t (s.tasks t).gone u).children := hu
    rw [Function.update_apply] at hin
    split at hin
    · cases hin
    · exact inv.ends.child u hin

theorem World.Step.sound {o : Op} (h : Step s o s') (inv : Sound s p place) :
    ∃ p place, Sound s' p place := by
  cases h with
  | act _ h => exact h.sound inv
  | collect hlive hheld =>
    exact ⟨p, _, inv.collect_records hlive hheld, inv.slots.collect inv.records hheld,
      inv.collect_owned hlive hheld, inv.collect_framed hlive hheld, inv.collect_ends hlive hheld⟩

theorem sound_of_reach (h : Reach World.system s) : ∃ p place, Sound s p place := by
  refine Reach.invariant (fun s => ∃ p place, Sound s p place) ?_ ?_ h
  · rintro s rfl
    exact ⟨_, _, .boot, .boot, .boot, .boot, .boot⟩
  · rintro s o s' ⟨p, place, inv⟩ hstep
    exact World.Step.sound hstep inv

end

end AlexOS.Lifetime
