import AlexOS.Mm.Footprint
import AlexOS.Mm.SpaceLife

/-!
# All a space has taken

Regions of either backing, mapped whole or in part, in a table with or without
the kernel's half. Whatever `push` and `duplicate` return, the frames handed out
are those of the space and of the others, and dropping the space gives back its
own.
-/

namespace AlexOS

open Bytes Blocks PageTable

variable {σ : Type} {A : CountedAllocator σ} {n : Nat} {big big₀ : List (List Nat)} {s s' : Phys σ}
  {t t' : PageTable} {rest : Multiset Frame} {r r' : Region} {v : Nat}

namespace Region

/-- Pages that `map_into` maps one by one, not as part of a 2 MiB leaf. -/
def Small (r : Region) (v : Nat) : Prop :=
  r.backing = .framed ∨ v / 512 * 512 < pageNum r.start ∨ pageNum r.end_ < v / 512 * 512 + 512

/-- Walks for the region's pages stay below the first `n` root entries and do not
go through a superpage; its own superpages are leaves to the hardware. -/
structure Clear (n : Nat) (big : List (List Nat)) (r : Region) : Prop where
  root : ∀ v, pageNum r.start ≤ v → v < pageNum r.end_ → rootIndex v < n
  small : ∀ v, pageNum r.start ≤ v → v < pageNum r.end_ → r.Small v → leafPath v ∉ big
  leaf : r.backing = .linear → PteFlags.intersects r.perm PteFlags.rwx = true

/-- What `Region::new` makes of machine words. -/
structure Words (r : Region) : Prop where
  end_lt : r.end_ < 2 ^ 64
  end_aligned : r.end_ % pageSize = 0
  perm_lt : r.perm < 2 ^ 64

theorem new_words {start end_ perm : Nat} {backing : Backing} (hperm : perm < 2 ^ 64)
    (heq : Region.new start end_ backing perm = some r) :
    r.Words ∧ r.frames = [] ∧ r.backing = backing ∧ r.perm = perm ∧
      r.start = alignDown start ∧ r.end_ = (end_ + pageSize - 1) / pageSize * pageSize := by
  rw [Region.new] at heq
  rcases hup : alignUp end_ with _ | up
  · simp [hup] at heq
  simp only [hup, Option.bind_eq_bind, Option.bind_some, Option.some.injEq] at heq
  obtain rfl := heq
  rw [alignUp] at hup
  split at hup
  · obtain rfl := Option.some.inj hup
    refine ⟨⟨?_, ?_, hperm⟩, rfl, rfl, rfl, rfl, rfl⟩
    · simp only [pageSize] at *
      omega
    · exact Nat.mul_mod_left _ _
  · cases hup

/-- The superpages of a linear region. -/
def Covers (r : Region) (p : List Nat) : Prop :=
  ∃ b, p = leafPath b ∧ b % 512 = 0 ∧ pageNum virtOffset ≤ b ∧ pageNum r.start ≤ b ∧
    b + 512 ≤ pageNum r.end_

theorem Clear.with_frames (c : r.Clear n big) (fs : List (Nat × Frame)) :
    Clear n big { r with frames := fs } :=
  ⟨c.root, c.small, c.leaf⟩

theorem Words.with_frames (w : r.Words) (fs : List (Nat × Frame)) :
    Words { r with frames := fs } :=
  ⟨w.end_lt, w.end_aligned, w.perm_lt⟩

/-- A page mapped by itself is under none of its region's superpages: the linear
window is too short for two pages that share their indices. -/
theorem Small.not_covered (w : r.Words) (linear : r.backing = .linear) (small : r.Small v)
    (hlt : v < pageNum r.end_) {p : List Nat} (covers : r.Covers p) (hle : pageNum virtOffset ≤ v) :
    leafPath v ≠ p := by
  obtain ⟨b, rfl, aligned, low, lo, hi⟩ := covers
  have hend := w.end_lt
  intro e
  simp only [leafPath, List.cons.injEq, and_true] at e
  simp only [Small, linear, reduceCtorEq, false_or] at small
  simp only [pageNum, pageSize, virtOffset] at *
  omega

/-! ## Mapping -/

/-- The region has gained `new`; its frames are held next to the table's. -/
structure Gained (A : CountedAllocator σ) (n : Nat) (big : List (List Nat)) (rest : Multiset Frame)
    (s : Phys σ) (t : PageTable) (r : Region) (s' : Phys σ) (t' : PageTable) (r' : Region)
    (new : List (Nat × Frame)) : Prop where
  region : r' = { r with frames := r.frames ++ new }
  order : ∀ e ∈ new, e.2.order = 0
  holding : Holding A.toFrameAllocator n big s' t' (new.map Prod.snd + rest)
  changed : Changed n rest s t s' t'

theorem Gained.refl (h : Holding A.toFrameAllocator n big s t rest) :
    Gained A n big rest s t r s t r [] :=
  ⟨by simp, by simp, by simpa using h, .refl _ _ _ _⟩

theorem Gained.trans {s₁ : Phys σ} {t₁ : PageTable} {r₁ : Region} {new new' : List (Nat × Frame)}
    {big' : List (List Nat)} (g : Gained A n big rest s t r s₁ t₁ r₁ new)
    (g' : Gained A n big' (new.map Prod.snd + rest) s₁ t₁ r₁ s' t' r' new') :
    Gained A n big' rest s t r s' t' r' (new ++ new') := by
  refine ⟨?_, fun e he => ?_, ?_, g.changed.trans (g'.changed.mono (Multiset.le_add_left _ _))⟩
  · rw [g'.region, g.region, List.append_assoc]
  · rcases List.mem_append.mp he with he | he
    · exact g.order e he
    · exact g'.order e he
  · have := g'.holding
    rwa [← add_assoc, add_comm (new'.map Prod.snd : Multiset Frame), Multiset.coe_add,
      ← List.map_append] at this

theorem mapPage_gained (h : Holding A.toFrameAllocator n big s t rest) (hroot : rootIndex v < n)
    (clear : leafPath v ∉ big) (w : r.Words) {res : Except MapError Nat}
    (heq : r.mapPage A.toFrameAllocator s t v = some (res, s', t', r')) :
    ∃ new, Gained A n big rest s t r s' t' r' new ∧ ∀ u, res = .ok u → u = v + 1 := by
  rw [mapPage] at heq
  rcases halloc : A.allocOrder s 0 with ⟨_ | f, s₁⟩
  · obtain rfl := A.alloc_none h.owns.holds halloc
    simp only [halloc, Option.some.injEq, Prod.mk.injEq] at heq
    obtain ⟨rfl, rfl, rfl, rfl⟩ := heq
    exact ⟨[], .refl h, by simp⟩
  obtain ⟨h₁, changed₁⟩ := h.alloc halloc
  obtain ⟨res', s₂, t₂, hmap, h₂, changed₂⟩ := h₁.map f.ppn hroot clear w.perm_lt
  have changed := changed₁.trans (changed₂.mono (Multiset.le_cons_self _ _))
  simp only [halloc, hmap] at heq
  rcases res' with e | ⟨⟩
  · obtain ⟨s₃, hfree, h₃, changed₃⟩ := h₂.free
    simp only [hfree, Option.map_some, Option.some.injEq, Prod.mk.injEq] at heq
    obtain ⟨rfl, rfl, rfl, rfl⟩ := heq
    exact ⟨[], ⟨by simp, by simp, by simpa using h₃, changed.trans changed₃⟩, by simp⟩
  · simp only [Option.some.injEq, Prod.mk.injEq] at heq
    obtain ⟨rfl, rfl, rfl, rfl⟩ := heq
    refine ⟨[(v, f)], ⟨rfl, ?_, by simpa using h₂, changed⟩, by simp⟩
    simpa using (A.alloc_some h.owns.holds halloc).1

/-- A 2 MiB leaf where one fits, a page otherwise. -/
theorem mapLinear_gained (h : Holding A.toFrameAllocator n big s t rest) (hroot : rootIndex v < n)
    (clear : pageNum virtOffset ≤ v → r.Small v → leafPath v ∉ big)
    (hsmall : v % 512 = 0 ∨ r.Small v) (w : r.Words)
    (leaf : PteFlags.intersects r.perm PteFlags.rwx = true) {res : Except MapError Nat}
    (heq : r.mapLinear A.toFrameAllocator s t v = some (res, s', t', r')) :
    ∃ big', Gained A n big' rest s t r s' t' r' [] ∧ pageNum virtOffset ≤ v ∧
      ((big' = big ∨ big' = leafPath v :: big) ∧ v % 512 = 0 ∧ v + 512 ≤ pageNum r.end_ ∧
          (∀ u, res = .ok u → u = v + 512) ∨
        big' = big ∧ r.Small v ∧ ∀ u, res = .ok u → u = v + 1) := by
  rw [mapLinear] at heq
  split at heq
  · cases heq
  rename_i hlow
  have hle := Nat.le_of_not_lt hlow
  have hpages : superpageSize / pageSize = 512 := rfl
  rw [hpages] at heq
  simp only at heq
  split at heq
  · rename_i hbig
    obtain ⟨res', s₁, t₁, hmap, changed, h₁⟩ :=
      h.mapSuperpage (v - pageNum virtOffset) hroot w.perm_lt leaf
    have hlevel : levelPages 1 = 512 := rfl
    rw [mapAtLevel, hlevel, if_pos ⟨by decide, hbig.1, hbig.2.1⟩, hmap] at heq
    simp only [Option.map_some, Option.some.injEq, Prod.mk.injEq] at heq
    obtain ⟨rfl, rfl, rfl, rfl⟩ := heq
    rcases res' with e | ⟨⟩
    · exact ⟨big, ⟨by simp, by simp, by simpa using h₁, changed⟩, hle,
        .inl ⟨.inl rfl, hbig.1, hbig.2.2, by simp [Except.map]⟩⟩
    · exact ⟨leafPath v :: big, ⟨by simp, by simp, by simpa using h₁, changed⟩, hle,
        .inl ⟨.inr rfl, hbig.1, hbig.2.2, by simp [Except.map]⟩⟩
  · rename_i hbig
    have small : r.Small v := by
      rcases hsmall with aligned | small
      · refine .inr (.inr ?_)
        simp only [pageNum, pageSize, virtOffset] at *
        omega
      · exact small
    obtain ⟨res', s₁, t₁, hmap, h₁, changed⟩ :=
      h.map (v - pageNum virtOffset) hroot (clear hle small) w.perm_lt
    simp only [hmap, Option.some.injEq, Prod.mk.injEq] at heq
    obtain ⟨rfl, rfl, rfl, rfl⟩ := heq
    refine ⟨big, ⟨by simp, by simp, by simpa using h₁, changed⟩, hle, .inr ⟨rfl, small, ?_⟩⟩
    rcases res' with e | ⟨⟩ <;> simp [Except.map]

/-- The rest of a block that is mapped page by page is mapped so too. -/
theorem Small.succ (small : r.Small v) : (v + 1) % 512 = 0 ∨ r.Small (v + 1) := by
  by_cases aligned : (v + 1) % 512 = 0
  · exact .inl aligned
  · have same : (v + 1) / 512 = v / 512 := by omega
    right
    rw [Small, same]
    exact small

/-- However far `map_into` gets, what it took is in the table or in the region. -/
theorem mapFrom_gained {turns : Nat} (h : Holding A.toFrameAllocator n big s t rest)
    (c : r.Clear n big₀) (w : r.Words)
    (hbig : ∀ p ∈ big, p ∈ big₀ ∨ r.backing = .linear ∧ r.Covers p) (hv : pageNum r.start ≤ v)
    (hsmall : v % 512 = 0 ∨ r.Small v) {res : Except MapError Unit}
    (heq : mapFrom A.toFrameAllocator turns s t r v = some (res, s', t', r')) :
    ∃ big' new, Gained A n big' rest s t r s' t' r' new ∧ (r.backing = .framed → big' = big) := by
  induction turns generalizing s t r v rest big with
  | zero =>
    simp only [mapFrom, Option.some.injEq, Prod.mk.injEq] at heq
    obtain ⟨-, rfl, rfl, rfl⟩ := heq
    exact ⟨big, [], .refl h, fun _ => rfl⟩
  | succ turns ih =>
    rw [mapFrom] at heq
    split at heq
    · simp only [Option.some.injEq, Prod.mk.injEq] at heq
      obtain ⟨-, rfl, rfl, rfl⟩ := heq
      exact ⟨big, [], .refl h, fun _ => rfl⟩
    rename_i hend
    have hlt : v < pageNum r.end_ := Nat.lt_of_not_le hend
    have hroot := c.root v hv hlt
    have next : ∀ (res₁ : Except MapError Nat) {s₁ : Phys σ} {t₁ : PageTable} {r₁ : Region}
        {big₁ : List (List Nat)} {new : List (Nat × Frame)},
          Gained A n big₁ rest s t r s₁ t₁ r₁ new →
        (∀ p ∈ big₁, p ∈ big₀ ∨ r.backing = .linear ∧ r.Covers p) →
        (∀ u, res₁ = .ok u → pageNum r.start ≤ u ∧ (u % 512 = 0 ∨ r.Small u)) →
        (r.backing = .framed → big₁ = big) →
        (∀ e, res₁ = .error e → s₁ = s' ∧ t₁ = t' ∧ r₁ = r') →
        (∀ u, res₁ = .ok u →
          mapFrom A.toFrameAllocator turns s₁ t₁ r₁ u = some (res, s', t', r')) →
        ∃ big' new, Gained A n big' rest s t r s' t' r' new ∧
          (r.backing = .framed → big' = big) := by
      intro res₁ s₁ t₁ r₁ big₁ new g hbig₁ hnext hframed herror heq
      rcases res₁ with e | u
      · obtain ⟨rfl, rfl, rfl⟩ := herror e rfl
        exact ⟨big₁, new, g, hframed⟩
      · obtain ⟨hu, hsmall'⟩ := hnext u rfl
        obtain rfl := g.region
        obtain ⟨big', new', g', hframed'⟩ := ih g.holding (c.with_frames (r.frames ++ new))
          (w.with_frames _) hbig₁ hu hsmall' (heq u rfl)
        exact ⟨big', new ++ new', g.trans g', fun hf => (hframed' hf).trans (hframed hf)⟩
    have clear : pageNum virtOffset ≤ v → r.Small v → leafPath v ∉ big := by
      intro hle small hmem
      rcases hbig _ hmem with old | ⟨linear, covers⟩
      · exact c.small v hv hlt small old
      · exact small.not_covered w linear hlt covers hle rfl
    have backing : r.backing = .framed ∨ r.backing = .linear := by cases r.backing <;> simp
    rcases backing with hback | hback
    · have hmem : leafPath v ∉ big := fun hmem => by
        rcases hbig _ hmem with old | ⟨linear, -⟩
        · exact c.small v hv hlt (.inl hback) old
        · rw [hback] at linear
          cases linear
      simp only [hback] at heq
      rcases hpage : r.mapPage A.toFrameAllocator s t v with _ | ⟨res₁, s₁, t₁, r₁⟩
      · simp [hpage] at heq
      rw [hpage] at heq
      obtain ⟨new, g, hnext⟩ := mapPage_gained h hroot hmem w hpage
      refine next res₁ g hbig (fun u hu => ?_) (fun _ => rfl) (fun e he => ?_) (fun u hu => ?_)
      · rw [hnext u hu]
        exact ⟨by omega, .inr (.inl hback)⟩
      · subst he
        simp only [Option.some.injEq, Prod.mk.injEq] at heq
        exact heq.2
      · subst hu
        exact heq
    · simp only [hback] at heq
      rcases hpage : r.mapLinear A.toFrameAllocator s t v with _ | ⟨res₁, s₁, t₁, r₁⟩
      · simp [hpage] at heq
      rw [hpage] at heq
      obtain ⟨big₁, g, hle, out⟩ := mapLinear_gained h hroot clear hsmall w (c.leaf hback) hpage
      refine next res₁ g (fun p hp => ?_) (fun u hu => ?_) (fun hf => by rw [hback] at hf; cases hf)
        (fun e he => ?_) (fun u hu => ?_)
      · rcases out with ⟨rfl | rfl, aligned, hfit, -⟩ | ⟨rfl, -⟩
        · exact hbig p hp
        · rcases List.mem_cons.mp hp with rfl | hp
          · exact .inr ⟨hback, v, rfl, aligned, hle, hv, hfit⟩
          · exact hbig p hp
        · exact hbig p hp
      · rcases out with ⟨-, aligned, -, hnext⟩ | ⟨-, small, hnext⟩
        · rw [hnext u hu]
          exact ⟨by omega, .inl (by omega)⟩
        · rw [hnext u hu]
          exact ⟨by omega, small.succ⟩
      · subst he
        simp only [Option.some.injEq, Prod.mk.injEq] at heq
        exact heq.2
      · subst hu
        exact heq

theorem mapInto_gained (h : Holding A.toFrameAllocator n big s t rest) (c : r.Clear n big)
    (w : r.Words) {res : Except MapError Unit}
    (heq : r.mapInto A.toFrameAllocator s t = some (res, s', t', r')) :
    ∃ big' new, Gained A n big' rest s t r s' t' r' new ∧ (r.backing = .framed → big' = big) := by
  refine mapFrom_gained h c w (fun _ => .inl) (Nat.le_refl _) ?_ heq
  by_cases aligned : pageNum r.start % 512 = 0
  · exact .inl aligned
  · exact .inr (.inr (.inl (by omega)))

end Region

/-! ## Dropping -/

theorem dropFrames_holding {fs : List Frame}
    (h : Holding A.toFrameAllocator n big s t (fs + rest)) :
    ∃ s', dropFrames A.toFrameAllocator s fs = some s' ∧
      Holding A.toFrameAllocator n big s' t rest ∧ Changed n rest s t s' t := by
  induction fs generalizing s with
  | nil => exact ⟨s, rfl, by simpa using h, .refl _ _ _ _⟩
  | cons f fs ih =>
    rw [← Multiset.cons_coe, Multiset.cons_add] at h
    obtain ⟨s₁, hfree, h₁, changed₁⟩ := h.free
    obtain ⟨s', heq, h', changed'⟩ := ih h₁
    exact ⟨s', by simp [dropFrames, hfree, heq], h',
      (changed₁.mono (Multiset.le_add_left _ _)).trans changed'⟩

theorem unmapPages_holding {vs : List Nat} (h : Holding A.toFrameAllocator n big s t rest)
    (root : ∀ v ∈ vs, rootIndex v < n) :
    Holding A.toFrameAllocator n big (Region.unmapPages s t vs) t rest ∧
      Changed n rest s t (Region.unmapPages s t vs) t := by
  induction vs generalizing s with
  | nil => exact ⟨h, .refl _ _ _ _⟩
  | cons v vs ih =>
    obtain ⟨h₁, changed₁⟩ := h.unmap (root v List.mem_cons_self)
    obtain ⟨h₂, changed₂⟩ := ih h₁ fun w hw => root w (List.mem_cons_of_mem v hw)
    exact ⟨h₂, changed₁.trans changed₂⟩

namespace AddressSpace

variable {sp sp' child : AddressSpace} {kernel : PageTable}

/-- The space holds what its table and its regions list, next to `rest`. -/
structure Sound (A : CountedAllocator σ) (n : Nat) (big : List (List Nat)) (s : Phys σ)
    (sp : AddressSpace) (rest : Multiset Frame) : Prop where
  table : Holding A.toFrameAllocator n big s sp.table (sp.owned + rest)
  words : ∀ r ∈ sp.regions, r.Words
  root : ∀ r ∈ sp.regions, ∀ v, pageNum r.start ≤ v → v < pageNum r.end_ → rootIndex v < n
  order : ∀ r ∈ sp.regions, ∀ e ∈ r.frames, e.2.order = 0

theorem Sound.holds (h : Sound A n big s sp rest) : A.Holds s (sp.frames + rest) := by
  rw [frames, add_assoc]
  exact h.table.owns.holds

theorem Sound.kept {rest' : Multiset Frame} (h : Sound A n big s sp rest)
    (holds : A.Holds s' (sp.frames + rest')) (kept : Kept sp.table.frames s.mem s'.mem) :
    Sound A n big s' sp rest' := by
  rw [frames, add_assoc] at holds
  exact ⟨h.table.kept holds kept, h.words, h.root, h.order⟩

theorem dropRegions_holding {rs : List Region}
    (root : ∀ r ∈ rs, ∀ v, pageNum r.start ≤ v → v < pageNum r.end_ → rootIndex v < n)
    (h : Holding A.toFrameAllocator n big s t ((rs.flatMap Region.owned : List Frame) + rest)) :
    ∃ s', dropRegions A.toFrameAllocator s t rs = some s' ∧
      Holding A.toFrameAllocator n big s' t rest ∧ Changed n rest s t s' t := by
  induction rs generalizing s with
  | nil => exact ⟨s, rfl, by simpa using h, .refl _ _ _ _⟩
  | cons r rs ih =>
    have low : ∀ v ∈ List.range' (pageNum r.start) r.pageCount, rootIndex v < n := by
      intro v hv
      have hv := List.mem_range'_1.mp hv
      simp only [Region.pageCount] at hv
      exact root r List.mem_cons_self v hv.1 (by omega)
    obtain ⟨h₁, changed₁⟩ := unmapPages_holding h low
    rw [List.flatMap_cons, ← Multiset.coe_add, add_assoc] at h₁
    obtain ⟨s₂, heq, h₂, changed₂⟩ := dropFrames_holding h₁
    obtain ⟨s', heq', h', changed'⟩ := ih (fun r' hr' => root r' (List.mem_cons_of_mem r hr')) h₂
    refine ⟨s', by simp [dropRegions, Region.unmapFrom, heq, heq'], h', ?_⟩
    exact ((changed₁.mono (Multiset.le_add_left _ _)).trans
      (changed₂.mono (Multiset.le_add_left _ _))).trans changed'

/-- Dropping gives back all the space has, and touches nothing else. -/
theorem Sound.drop (h : Sound A n big s sp rest) :
    ∃ s', drop A.toFrameAllocator s sp = some s' ∧ A.Holds s' rest ∧ Kept rest s.mem s'.mem := by
  obtain ⟨s₁, heq, h₁, changed⟩ := dropRegions_holding h.root h.table
  obtain ⟨s', heq', holds', kept⟩ := dropFrames_spec h₁.owns.holds
  exact ⟨s', by simp [AddressSpace.drop, heq, heq'], holds', changed.kept.trans kept⟩

/-! ## Pushing -/

section
variable {new : List (Nat × Frame)} (c : r.Clear n big₀) (w : r.Words) (empty : r.frames = [])
  (h : Sound A n big₀ s sp rest)
  (g : Region.Gained A n big (sp.owned + rest) s sp.table r s' t' r' new)
include c w empty h g

theorem Sound.add : Sound A n big s' ⟨t', sp.regions ++ [r']⟩ rest := by
  obtain rfl := g.region
  rw [empty, List.nil_append] at *
  refine ⟨?_, fun r' hr' => ?_, fun r' hr' => ?_, fun r' hr' => ?_⟩
  · have e : ((⟨t', sp.regions ++ [{ r with frames := new }]⟩ : AddressSpace).owned :
      Multiset Frame) +
        rest = (new.map Prod.snd : List Frame) + (sp.owned + rest) := by
      rw [owned_append, ← Multiset.coe_add, ← owned,
        show Region.owned { r with frames := new } = new.map Prod.snd from rfl]
      abel
    rw [e]
    exact g.holding
  all_goals rcases List.mem_append.mp hr' with hr' | hr'
  · exact h.words r' hr'
  · rw [List.mem_singleton.mp hr']
    exact w.with_frames _
  · exact h.root r' hr'
  · rw [List.mem_singleton.mp hr']
    exact c.root
  · exact h.order r' hr'
  · rw [List.mem_singleton.mp hr']
    exact g.order

omit c w in
/-- A region that failed gives its frames back; the table keeps what was made for it. -/
theorem Sound.abandon : ∃ s'', dropFrames A.toFrameAllocator s' r'.owned = some s'' ∧
    Sound A n big s'' ⟨t', sp.regions⟩ rest ∧ Changed n rest s sp.table s'' t' := by
  obtain rfl := g.region
  obtain ⟨s'', heq, h', changed⟩ := dropFrames_holding g.holding
  refine ⟨s'', ?_, ⟨h', h.words, h.root, h.order⟩, ?_⟩
  · rw [empty, List.nil_append]
    exact heq
  · exact (g.changed.trans changed).mono (Multiset.le_add_left _ _)

end

theorem end_mem_append {r' : Region} (sp : AddressSpace) (hend : r'.end_ = r.end_) :
    ∀ q ∈ sp.regions ++ [r'], q ∈ sp.regions ∨ q.end_ = r.end_ := by
  intro q hq
  rcases List.mem_append.mp hq with hq | hq
  · exact .inl hq
  · rw [List.mem_singleton.mp hq]
    exact .inr hend

theorem push_sound (h : Sound A n big s sp rest) (c : r.Clear n big) (w : r.Words)
    (empty : r.frames = []) {res : Except MapError Unit}
    (heq : push A.toFrameAllocator s sp r = some (res, s', sp')) :
    ∃ big', Sound A n big' s' sp' rest ∧ Changed n rest s sp.table s' sp'.table ∧
      (r.backing = .framed → big' = big) ∧
      ∀ r' ∈ sp'.regions, r' ∈ sp.regions ∨ r'.end_ = r.end_ := by
  rcases hmap : r.mapInto A.toFrameAllocator s sp.table with _ | ⟨res₁, s₁, t₁, r₁⟩
  · simp [push, hmap] at heq
  obtain ⟨big', new, g, hframed⟩ := Region.mapInto_gained h.table c w hmap
  rcases res₁ with e | ⟨⟩
  · obtain ⟨s₂, hdrop, h₂, changed⟩ := h.abandon empty g
    simp only [push, hmap, Option.bind_eq_bind, Option.bind_some, hdrop, Option.some.injEq,
      Prod.mk.injEq] at heq
    obtain ⟨rfl, rfl, rfl⟩ := heq
    exact ⟨big', h₂, changed, hframed, fun r' hr' => .inl hr'⟩
  · simp only [push, hmap, Option.bind_eq_bind, Option.bind_some, Option.some.injEq,
      Prod.mk.injEq] at heq
    obtain ⟨rfl, rfl, rfl⟩ := heq
    exact ⟨big', h.add c w empty g, g.changed.mono (Multiset.le_add_left _ _), hframed, 
      end_mem_append sp (by rw [g.region])⟩

/-- The first superpage under a root entry takes one frame, for the table that holds it. -/
theorem superpage_pushed (h : Sound A n big s sp rest) {v : Nat} (linear : r.backing = .linear)
    (perm : r.perm < 2 ^ 64) (start : pageNum r.start = v) (last : pageNum r.end_ = v + 512)
    (window : pageNum virtOffset ≤ v) (aligned : v % 512 = 0)
    (aligned' : (v - pageNum virtOffset) % 512 = 0) (hroot : slotIndex v 0 < n)
    (empty : entry s.mem sp.table.root (slotIndex v 0) = 0) (room : 0 < A.avail s) :
    ∃ q s' t', push A.toFrameAllocator s sp r = some (.ok (), s', ⟨t', sp.regions ++ [r]⟩) ∧
      t'.root = sp.table.root ∧ node s'.mem sp.table.root [slotIndex v 0] = some q ∧
      entry s'.mem q (slotIndex v 1) = Pte.new (v - pageNum virtOffset) (PteFlags.present r.perm) ∧
      A.avail s' + 1 = A.avail s ∧
      ∃ f s₀, A.allocOrder s 0 = (some f, s₀) ∧ s'.pool = s₀.pool := by
  obtain ⟨q, -, s', t', -, hmap, hroot', hnode, hentry, havail, hpool⟩ :=
    h.table.owns.first_superpage (v - pageNum virtOffset) h.table.root_within
      (h.table.short (show Owned n [slotIndex v 0] from hroot) (by decide : 1 ≠ 2)) empty room perm
  have hpages : superpageSize / pageSize = 512 := by decide
  have hlin : r.mapLinear A.toFrameAllocator s sp.table v = some (.ok (v + 512), s', t', r) := by
    rw [Region.mapLinear, if_neg (Nat.not_lt.mpr window)]
    simp only [hpages]
    rw [if_pos ⟨aligned, aligned', Nat.le_of_eq last.symm⟩, PageTable.mapAtLevel,
      if_pos ⟨by decide, aligned, aligned'⟩, hmap]
    rfl
  have hinto : r.mapInto A.toFrameAllocator s sp.table = some (.ok (), s', t', r) := by
    have hcount : r.pageCount = 510 + 1 + 1 := by
      rw [Region.pageCount]
      omega
    rw [Region.mapInto, hcount, start, Region.mapFrom, if_neg (by omega)]
    simp only [linear, hlin]
    rw [Region.mapFrom, if_pos (Nat.le_of_eq last)]
  exact ⟨q, s', t', by simp [push, hinto], hroot', hnode, hentry, havail, hpool⟩

/-- Writes into the pages of the space's own regions. -/
theorem Sound.writes {m : Mem} (h : Sound A n big s sp rest) (w : WritesIn sp.owned s.mem m) :
    Sound A n big { s with mem := m } sp rest ∧
      Changed n rest s sp.table { s with mem := m } sp.table := by
  obtain ⟨holds, keptT, keptR, -⟩ := write_owned h.holds w
  exact ⟨h.kept holds keptT, rfl, keptR, fun _ _ hi =>
    h.table.owns.tables.entry_kept keptT h.table.root_within rfl hi⟩

theorem pushWithOffset_sound (h : Sound A n big s sp rest) (c : r.Clear n big) (w : r.Words)
    (empty : r.frames = []) {offset : Nat} {data : List UInt8} {res : Except MapError Unit}
    (heq : pushWithOffset A.toFrameAllocator s sp r offset data = some (res, s', sp')) :
    ∃ big', Sound A n big' s' sp' rest ∧ Changed n rest s sp.table s' sp'.table ∧
      (r.backing = .framed → big' = big) ∧
      ∀ r' ∈ sp'.regions, r' ∈ sp.regions ∨ r'.end_ = r.end_ := by
  rcases hmap : r.mapInto A.toFrameAllocator s sp.table with _ | ⟨res₁, s₁, t₁, r₁⟩
  · simp [pushWithOffset, hmap] at heq
  obtain ⟨big', new, g, hframed⟩ := Region.mapInto_gained h.table c w hmap
  rcases res₁ with e | ⟨⟩
  · obtain ⟨s₂, hdrop, h₂, changed⟩ := h.abandon empty g
    simp only [pushWithOffset, hmap, Option.bind_eq_bind, Option.bind_some,
      hdrop, Option.some.injEq,
      Prod.mk.injEq] at heq
    obtain ⟨rfl, rfl, rfl⟩ := heq
    exact ⟨big', h₂, changed, hframed, fun r' hr' => .inl hr'⟩
  rcases hwrite : r₁.writeData s₁.mem offset data with _ | mem
  · simp [pushWithOffset, hmap, hwrite] at heq
  simp only [pushWithOffset, hmap, Option.bind_eq_bind, Option.bind_some, hwrite, Option.some.injEq,
    Prod.mk.injEq] at heq
  obtain ⟨rfl, rfl, rfl⟩ := heq
  have h₁ := h.add c w empty g
  have hin : WritesIn (⟨t₁, sp.regions ++ [r₁]⟩ : AddressSpace).owned s₁.mem mem := by
    refine (writeFrom_spec (h₁.order r₁ (by simp)) hwrite).mono ?_
    rw [owned_append, ← Multiset.coe_add]
    exact Multiset.le_add_left _ _
  obtain ⟨h₂, changed⟩ := h₁.writes hin
  exact ⟨big', h₂, (g.changed.mono (Multiset.le_add_left _ _)).trans changed, hframed, 
      end_mem_append sp (by rw [g.region])⟩

/-! ## A fresh space -/

theorem entry_shareUpperHalf (m : Mem) (t kernel : PageTable) {i : Nat} (lo : 256 ≤ i)
    (hi : i < 512) : entry (shareUpperHalf m t kernel) t.root i = entry m kernel.root i := by
  refine readLE_moved 8 fun k hk => ?_
  have hin : slot t.root (ptePerTable / 2) ≤ slot t.root i + k ∧
      slot t.root i + k < slot t.root ptePerTable := by
    simp only [slot, ptePerTable]
    omega
  rw [shareUpperHalf, if_pos hin]
  congr 1
  simp only [slot]
  omega

theorem new_sound (holds : A.Holds s rest) (heq : new A.toFrameAllocator s = (some sp, s')) :
    Sound A 512 [] s' sp rest ∧ sp.regions = [] ∧ Kept rest s.mem s'.mem := by
  obtain ⟨t, hnew, rfl⟩ := new_table heq
  obtain ⟨ok, kept, -⟩ := PageTable.new_spec holds (Nat.le_refl 512) hnew
  refine ⟨⟨⟨Nat.le_refl _, ⟨by simpa [owned] using ok.holds, ?_⟩, by simp⟩, by simp, by simp,
    by simp⟩, rfl, kept⟩
  exact ok.tree.tables.mono (within_paths (Nat.le_refl _) (by simp)) fun p hp => hp.1

/-- With the kernel's half, only the lower half of the root is the space's own. -/
theorem new_sound_kernel (kernel : PageTable) (holds : A.Holds s rest)
    (heq : new A.toFrameAllocator s = (some sp, s')) :
    Sound A 256 [] (sp.mapKernelHalf s' kernel) sp rest ∧ sp.regions = [] ∧
      Kept rest s.mem (sp.mapKernelHalf s' kernel).mem := by
  obtain ⟨holds', exact, hregions, kept, -⟩ := new_spec kernel holds heq
  rw [frames, add_assoc] at holds'
  have paths : Paths (Within 256 []) := within_paths (by decide) (by simp)
  have tables := exact.tree.tables.mono paths fun p hp => hp.1
  refine ⟨⟨⟨by decide, ⟨holds', tables⟩, by simp⟩, ?_, ?_, ?_⟩, hregions, kept⟩
  all_goals simp [hregions]

/-! ## Duplicating -/

/-- The copy of a region of the lower half fits into a space without superpages. -/
theorem copy_clear {copy : Region} (w : r.Words)
    (root : ∀ v, pageNum r.start ≤ v → v < pageNum r.end_ → rootIndex v < n)
    (heq : Region.new r.start r.end_ .framed r.perm = some copy) :
    copy.Clear n [] ∧ copy.Words ∧ copy.frames = [] ∧ copy.backing = .framed ∧
      copy.end_ = r.end_ := by
  obtain ⟨w', empty, hback, -, hstart, hend⟩ := Region.new_words w.perm_lt heq
  have hend' : copy.end_ = r.end_ := by
    have := w.end_aligned
    rw [hend]
    simp only [pageSize] at *
    omega
  refine ⟨⟨fun v lo hi => root v ?_ (hend' ▸ hi), by simp, fun h => ?_⟩, w', empty, hback, hend'⟩
  · rw [hstart] at lo
    simp only [pageNum, alignDown, pageSize] at *
    omega
  · rw [hback] at h
    cases h

/-- What `duplicate` leaves: a space of its own, or all it took given back. -/
def Duplicated (A : CountedAllocator σ) (rest : Multiset Frame) (s' : Phys σ) :
    Option AddressSpace → Prop
  | none => A.Holds s' rest
  | some child => Sound A 256 [] s' child rest

theorem duplicateFrom_sound {rs : List Region} {res : Option AddressSpace}
    (h : Sound A 256 [] s child rest) (words : ∀ r ∈ rs, r.Words)
    (root : ∀ r ∈ rs, r.backing = .framed →
      ∀ v, pageNum r.start ≤ v → v < pageNum r.end_ → rootIndex v < 256)
    (heq : duplicateFrom A.toFrameAllocator s child rs = some (res, s')) :
    Duplicated A rest s' res ∧ Kept rest s.mem s'.mem ∧
      ∀ c, res = some c → Changed 256 rest s child.table s' c.table ∧
        ∀ r' ∈ c.regions, ∃ r ∈ child.regions ++ rs, r'.end_ = r.end_ := by
  induction rs generalizing s child with
  | nil =>
    simp only [duplicateFrom, Option.some.injEq, Prod.mk.injEq] at heq
    obtain ⟨rfl, rfl⟩ := heq
    refine ⟨h, .refl _ _, ?_⟩
    rintro c ⟨⟩
    exact ⟨.refl _ _ _ _, fun r hr => ⟨r, by simpa using hr, rfl⟩⟩
  | cons r rs ih =>
    have words' : ∀ r' ∈ rs, r'.Words := fun r' hr' => words r' (List.mem_cons_of_mem r hr')
    have root' : ∀ r' ∈ rs, r'.backing = .framed →
        ∀ v, pageNum r'.start ≤ v → v < pageNum r'.end_ → rootIndex v < 256 :=
      fun r' hr' => root r' (List.mem_cons_of_mem r hr')
    rw [duplicateFrom] at heq
    split at heq
    · obtain ⟨hdup, kept, hc⟩ := ih h words' root' heq
      refine ⟨hdup, kept, fun c hres => ⟨(hc c hres).1, fun r' hr' => ?_⟩⟩
      obtain ⟨r₀, hr₀, e⟩ := (hc c hres).2 r' hr'
      exact ⟨r₀, by rw [List.mem_append, List.mem_cons] at *; tauto, e⟩
    rename_i hback
    rcases hnew : Region.new r.start r.end_ .framed r.perm with _ | copy
    · simp [hnew] at heq
    obtain ⟨c, w, empty, hframed, hend⟩ := copy_clear (words r List.mem_cons_self)
      (root r List.mem_cons_self (by simpa using hback)) hnew
    rcases hmap : copy.mapInto A.toFrameAllocator s child.table with _ | ⟨res₁, s₁, t₁, copy₁⟩
    · simp [hnew, hmap] at heq
    obtain ⟨big', new, g, hbig⟩ := Region.mapInto_gained h.table c w hmap
    obtain rfl := hbig hframed
    obtain ⟨s₂, hdrop, h₂, changed₂⟩ := h.abandon empty g
    obtain ⟨s₃, hdrop', holds₃, kept₃⟩ := h₂.drop
    simp only [hnew, hmap, Option.bind_eq_bind, Option.bind_some] at heq
    rcases res₁ with e | ⟨⟩
    · simp only [hdrop, hdrop', Option.bind_some, Option.some.injEq, Prod.mk.injEq] at heq
      obtain ⟨rfl, rfl⟩ := heq
      exact ⟨holds₃, changed₂.kept.trans kept₃, by simp⟩
    rcases hcopy : copyFrames copy₁.frames s₁.mem r.frames with _ | mem
    · simp only [hcopy, hdrop, hdrop', Option.bind_some, Option.some.injEq, Prod.mk.injEq] at heq
      obtain ⟨rfl, rfl⟩ := heq
      exact ⟨holds₃, changed₂.kept.trans kept₃, by simp⟩
    have h₁ := h.add c w empty g
    have hin : WritesIn (⟨t₁, child.regions ++ [copy₁]⟩ : AddressSpace).owned s₁.mem mem := by
      refine (copyFrames_spec (h₁.order copy₁ (by simp)) hcopy).mono ?_
      rw [owned_append, ← Multiset.coe_add]
      exact Multiset.le_add_left _ _
    obtain ⟨h₄, changed₄⟩ := h₁.writes hin
    have changed := (g.changed.mono (Multiset.le_add_left rest _)).trans changed₄
    simp only [hcopy] at heq
    obtain ⟨hdup, kept, hc⟩ := ih h₄ words' root' heq
    refine ⟨hdup, changed.kept.trans kept, fun c hres =>
      ⟨changed.trans (hc c hres).1, fun r' hr' => ?_⟩⟩
    obtain ⟨r₀, hr₀, e⟩ := (hc c hres).2 r' hr'
    simp only [List.append_assoc, List.mem_append, List.mem_cons, List.not_mem_nil, or_false] at hr₀
    rcases hr₀ with hr₀ | rfl | hr₀
    · exact ⟨r₀, by simp [hr₀], e⟩
    · exact ⟨r, by simp, by rw [e, g.region]; exact hend⟩
    · exact ⟨r₀, by simp [hr₀], e⟩

theorem duplicate_sound {res : Option AddressSpace} (holds : A.Holds s rest)
    (words : ∀ r ∈ sp.regions, r.Words)
    (root : ∀ r ∈ sp.regions, r.backing = .framed →
      ∀ v, pageNum r.start ≤ v → v < pageNum r.end_ → rootIndex v < 256)
    (heq : duplicate A.toFrameAllocator s sp kernel = some (res, s')) :
    Duplicated A rest s' res ∧ Kept rest s.mem s'.mem := by
  rcases hnew : new A.toFrameAllocator s with ⟨_ | child, s₁⟩
  · simp only [duplicate, hnew, Option.some.injEq, Prod.mk.injEq] at heq
    obtain ⟨rfl, rfl⟩ := heq
    obtain rfl := new_none holds hnew
    exact ⟨holds, .refl _ _⟩
  · obtain ⟨h, -, kept⟩ := new_sound_kernel kernel holds hnew
    simp only [duplicate, hnew] at heq
    obtain ⟨hdup, kept', -⟩ := duplicateFrom_sound h words root heq
    exact ⟨hdup, kept.trans kept'⟩

end AddressSpace

end AlexOS
