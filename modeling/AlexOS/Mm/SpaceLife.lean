import AlexOS.Mm.SpaceOps

/-!
# Making, copying and dropping a space

A fresh space is exact, a dropped one gives back all it held, and writes into
the frames of a region disturb no table. `duplicate` returns an exact space or
nothing at all.
-/

namespace AlexOS

open Bytes Blocks PageTable

variable {σ : Type} {A : CountedAllocator σ} {s s' : Phys σ} {m m' : Mem} {t t' : PageTable}
  {sp : AddressSpace} {r : Region} {rest : Multiset Frame}

theorem mem_of_lookup {es : List (Nat × Frame)} {v : Nat} {f : Frame} (h : es.lookup v = some f) :
    (v, f) ∈ es := by
  induction es with
  | nil => cases h
  | cons e es ih =>
    obtain ⟨w, g⟩ := e
    rw [List.lookup_cons] at h
    split at h
    · obtain rfl := Option.some.inj h
      simp_all
    · exact List.mem_cons_of_mem _ (ih h)

namespace AddressSpace

/-! ## Dropping -/

theorem unmapPages_spec {vs : List Nat} (h : PageTable.Ok A.toFrameAllocator 256 s t rest)
    (low : ∀ v ∈ vs, v < pages 256) :
    PageTable.Ok A.toFrameAllocator 256 (Region.unmapPages s t vs) t rest ∧
      Kept rest s.mem (Region.unmapPages s t vs).mem := by
  induction vs generalizing s with
  | nil => exact ⟨h, .refl _ _⟩
  | cons v vs ih =>
    obtain ⟨_, s₁, heq, ok, kept, -⟩ := unmap_spec h (low v List.mem_cons_self)
    obtain ⟨ok', kept'⟩ := ih ok fun w hw => low w (List.mem_cons_of_mem v hw)
    rw [Region.unmapPages, heq]
    exact ⟨ok', kept.trans kept'⟩

theorem dropRegions_spec {rs : List Region} (users : ∀ r ∈ rs, r.User)
    (h : PageTable.Ok A.toFrameAllocator 256 s t ((rs.flatMap Region.owned : List Frame) + rest)) :
    ∃ s', dropRegions A.toFrameAllocator s t rs = some s' ∧
      PageTable.Ok A.toFrameAllocator 256 s' t rest ∧ Kept rest s.mem s'.mem := by
  induction rs generalizing s with
  | nil => exact ⟨s, rfl, by simpa using h, .refl _ _⟩
  | cons r rs ih =>
    have low : ∀ v ∈ List.range' (pageNum r.start) r.pageCount, v < pages 256 := by
      intro v hv
      have := (users r List.mem_cons_self).pages_le
      have := List.mem_range'_1.mp hv
      simp only [Region.pageCount] at this
      omega
    obtain ⟨ok, kept⟩ := unmapPages_spec h low
    have holds := ok.holds
    rw [List.flatMap_cons, ← Multiset.coe_add, add_assoc, add_left_comm] at holds
    obtain ⟨s₁, heq, holds₁, kept₁⟩ := dropFrames_spec holds
    have ok₁ : PageTable.Ok A.toFrameAllocator 256 s₁ t
        ((rs.flatMap Region.owned : List Frame) + rest) :=
      ⟨holds₁, ok.tree.kept (kept₁.mono (Multiset.le_add_right _ _))⟩
    obtain ⟨s', heq', ok', kept'⟩ := ih (fun r' hr' => users r' (List.mem_cons_of_mem r hr')) ok₁
    refine ⟨s', by simp [dropRegions, Region.unmapFrom, heq, heq'], ok', ?_⟩
    have keptR : Kept rest _ s₁.mem := kept₁.mono
      ((Multiset.le_add_left _ _).trans (Multiset.le_add_left _ _))
    exact ((kept.mono (Multiset.le_add_left _ _)).trans keptR).trans kept'

theorem drop_spec (h : Formed s.mem sp) (holds : A.Holds s (sp.frames + rest)) :
    ∃ s', drop A.toFrameAllocator s sp = some s' ∧ A.Holds s' rest ∧ Kept rest s.mem s'.mem := by
  obtain ⟨s₁, heq, ok, kept⟩ := dropRegions_spec h.regions (h.ok holds)
  obtain ⟨s', heq', holds', kept'⟩ := dropFrames_spec ok.holds
  exact ⟨s', by simp [drop, heq, heq'], holds', kept.trans kept'⟩

/-! ## A fresh space -/

theorem shareUpperHalf_apart {a : Nat} (mem : Mem) (t kernel : PageTable) (h : pageNum a ≠ t.root) :
    PageTable.shareUpperHalf mem t kernel a = mem a := by
  apply if_neg
  simp only [slot, baseAddr, pageNum, pageSize, ptePerTable] at *
  omega

theorem shareUpperHalf_lower {i : Nat} (mem : Mem) (t kernel : PageTable) (hi : i < 256) :
    entry (PageTable.shareUpperHalf mem t kernel) t.root i = entry mem t.root i := by
  refine read64_congr fun a lo hi' => if_neg ?_
  simp only [slot, ptePerTable] at *
  omega

theorem new_table {A : FrameAllocator σ} (heq : new A s = (some sp, s')) :
    ∃ t, PageTable.new A s = (some t, s') ∧ sp = ⟨t, []⟩ := by
  rcases hnew : PageTable.new A s with ⟨_ | t, s₁⟩
  · simp [new, hnew] at heq
  · simp only [new, hnew, Prod.mk.injEq, Option.some.injEq] at heq
    obtain ⟨rfl, rfl⟩ := heq
    exact ⟨t, rfl, rfl⟩

/-- A new space with the kernel's half: its lower half is empty. -/
theorem new_spec (kernel : PageTable) (holds : A.Holds s rest)
    (heq : new A.toFrameAllocator s = (some sp, s')) :
    A.Holds (sp.mapKernelHalf s' kernel) (sp.frames + rest) ∧
      Exact (sp.mapKernelHalf s' kernel).mem sp ∧ sp.regions = [] ∧
      Kept rest s.mem (sp.mapKernelHalf s' kernel).mem ∧
      (∀ v, v < pages 256 → leaf (sp.mapKernelHalf s' kernel).mem sp.table.root v = 0) ∧
      A.avail (sp.mapKernelHalf s' kernel) + 1 = A.avail s ∧
      ∀ i p, Owned 256 (i :: p) →
        node (sp.mapKernelHalf s' kernel).mem sp.table.root (i :: p) = none := by
  obtain ⟨t, hnew, rfl⟩ := new_table heq
  obtain ⟨f, halloc, rfl, order, holds', kept, empty⟩ := new_cases holds hnew
  have inRoot : WritesIn {f} s'.mem (PageTable.shareUpperHalf s'.mem ⟨f.ppn, [f]⟩ kernel) := by
    intro a ha
    refine shareUpperHalf_apart _ _ _ fun (e : pageNum a = f.ppn) => ?_
    have := framesOver_of_mem (Multiset.mem_singleton_self f) (Nat.le_of_eq e.symm)
      (by rw [Frame.count, order, e]; omega)
    omega
  have htree := tree_of_empty (n := 256) (m := PageTable.shareUpperHalf s'.mem ⟨f.ppn, [f]⟩ kernel)
    (by decide) order fun i hi => by
      rw [shareUpperHalf_lower s'.mem ⟨f.ppn, [f]⟩ kernel hi]
      exact empty i (by omega)
  obtain ⟨tree, hnode, hleaf⟩ := htree
  have outside : ∀ a, framesOver (f ::ₘ rest) (pageNum a) = 0 →
      PageTable.shareUpperHalf s'.mem ⟨f.ppn, [f]⟩ kernel a = s'.mem a :=
    inRoot.mono (Multiset.singleton_le.mpr (Multiset.mem_cons_self f rest))
  have hframes : (⟨⟨f.ppn, [f]⟩, []⟩ : AddressSpace).frames = {f} := by simp [frames, owned]
  refine ⟨?_, ⟨⟨by simpa [mapKernelHalf] using tree, by simp⟩, ?_, by simp⟩,
    rfl, ?_, hleaf, ?_, hnode⟩
  · rw [hframes, Multiset.singleton_add]
    exact A.write holds' outside
  · intro v hv hvalid
    rw [mapKernelHalf, hleaf v hv] at hvalid
    cases hvalid
  · have hapart : ∀ p, framesOver ({f} + rest) p ≤ 1 := by
      rw [Multiset.singleton_add]
      exact A.apart holds'
    exact kept.trans (inRoot.kept hapart)
  · have hcount := A.alloc_avail holds halloc
    rw [Frame.count, order, Nat.pow_zero] at hcount
    rw [mapKernelHalf, A.write_avail holds' outside]
    exact hcount

theorem new_none (holds : A.Holds s rest) (heq : new A.toFrameAllocator s = (none, s')) :
    s' = s := by
  rcases halloc : A.allocOrder s 0 with ⟨_ | f, s₁⟩
  · simp only [new, PageTable.new, halloc, Prod.mk.injEq, true_and] at heq
    rw [← heq]
    exact A.alloc_none holds halloc
  · simp [new, PageTable.new, halloc] at heq

/-! ## Writing into owned frames -/

/-- Writes into a space's own pages change no table and nothing of the others. -/
theorem write_owned (holds : A.Holds s (sp.frames + rest)) (h : WritesIn sp.owned s.mem m') :
    A.Holds { s with mem := m' } (sp.frames + rest) ∧ Kept sp.table.frames s.mem m' ∧
      Kept rest s.mem m' ∧ A.avail { s with mem := m' } = A.avail s := by
  have sub : (sp.owned : Multiset Frame) ≤ sp.frames + rest :=
    (Multiset.le_add_left _ _).trans (Multiset.le_add_right _ _)
  have split : sp.frames + rest = sp.owned + (sp.table.frames + rest) := by
    rw [frames]
    abel
  have kept : Kept (sp.table.frames + rest) s.mem m' := by
    apply h.kept
    rw [← split]
    exact A.apart holds
  exact ⟨A.write holds (h.mono sub), kept.mono (Multiset.le_add_right _ _),
    kept.mono (Multiset.le_add_left _ _), A.write_avail holds (h.mono sub)⟩

theorem writeFrom_spec {turns pos : Nat} {data : List UInt8}
    (single : ∀ e ∈ r.frames, e.2.order = 0) (heq : r.writeFrom turns m pos data = some m') :
    WritesIn r.owned m m' := by
  induction turns generalizing m pos data with
  | zero => obtain rfl := Option.some.inj heq; exact .refl _ _
  | succ turns ih =>
    rw [Region.writeFrom] at heq
    split at heq
    · obtain rfl := Option.some.inj heq
      exact .refl _ _
    rcases hlook : r.frames.lookup (pageNum (r.start + pos)) with _ | f
    · simp [hlook] at heq
    simp only [hlook, Option.bind_eq_bind, Option.bind_some] at heq
    have hmem := mem_of_lookup hlook
    have hheld : (⟨f.ppn, 0⟩ : Frame) ∈ (r.owned : Multiset Frame) := by
      rw [← single _ hmem]
      exact Multiset.mem_coe.mpr (List.mem_map_of_mem hmem)
    refine WritesIn.trans (WritesIn.bytes m hheld ?_) (ih heq)
    have := Nat.mod_lt pos (show 0 < pageSize by decide)
    rw [List.length_take]
    omega

theorem copyFrames_spec {dst src : List (Nat × Frame)} (single : ∀ e ∈ dst, e.2.order = 0)
    (heq : copyFrames dst m src = some m') : WritesIn (dst.map Prod.snd : List Frame) m m' := by
  induction src generalizing m with
  | nil => obtain rfl := Option.some.inj heq; exact .refl _ _
  | cons e src ih =>
    obtain ⟨v, f⟩ := e
    rw [copyFrames] at heq
    split at heq
    · cases heq
    rename_i copy hlook
    have hmem := mem_of_lookup hlook
    have hheld : (⟨copy.ppn, 0⟩ : Frame) ∈ ((dst.map Prod.snd : List Frame) : Multiset Frame) := by
      rw [← single _ hmem]
      exact Multiset.mem_coe.mpr (List.mem_map_of_mem hmem)
    have hcopy : WritesIn (dst.map Prod.snd : List Frame) m
        (writeBytes m (baseAddr copy.ppn + 0) (readBytes m (baseAddr f.ppn) pageSize)) :=
      .bytes m hheld (Nat.le_of_eq (by rw [length_readBytes, Nat.zero_add]))
    rw [Nat.add_zero] at hcopy
    exact hcopy.trans (ih heq)

theorem Exact.writes (h : Exact m sp) (apart : ∀ p, framesOver sp.frames p ≤ 1)
    (w : WritesIn sp.owned m m') : Exact m' sp := by
  apply h.kept
  apply w.kept
  rw [add_comm]
  exact apart

/-- The kernel writes user memory through entries the space owns. -/
theorem copyToUserFrom_spec {turns va : Nat} {src : List UInt8} (h : Exact m sp)
    (apart : ∀ p, framesOver sp.frames p ≤ 1) :
    WritesIn sp.owned m (copyToUserFrom sp.table turns m va src).2 := by
  induction turns generalizing m va src with
  | zero => exact .refl _ _
  | succ turns ih =>
    rw [copyToUserFrom]
    split
    · exact .refl _ _
    split
    · exact .refl _ _
    rename_i hva
    have hlow : pageNum va < pages 256 := pageNum_low (by omega)
    rw [translateAddr, translate_eq h.tree hlow]
    by_cases hvalid : Pte.isValid (leaf m sp.table.root (pageNum va)) = true
    · rw [if_pos hvalid]
      simp only [Option.map_some]
      split
      · exact .refl _ _
      obtain ⟨r, hr, hf⟩ := h.frame hlow hvalid
      have hheld := Multiset.mem_coe.mpr (mem_owned hr hf)
      have hwrite : WritesIn sp.owned m (writeBytes m
          (baseAddr (Pte.ppn (leaf m sp.table.root (pageNum va))) + pageOffset va)
          (src.take (min (pageSize - pageOffset va) src.length))) := by
        apply WritesIn.bytes m hheld
        have : pageOffset va < pageSize := Nat.mod_lt va (by decide)
        rw [List.length_take]
        omega
      exact hwrite.trans (ih (h.writes apart hwrite))
    · rw [if_neg hvalid]
      exact .refl _ _

theorem apart_of_holds (holds : A.Holds s (sp.frames + rest)) (p : Nat) :
    framesOver sp.frames p ≤ 1 := by
  have := A.apart holds p
  rw [framesOver_add] at this
  omega

theorem copyToUser_spec (h : Exact m sp) (apart : ∀ p, framesOver sp.frames p ≤ 1) (va : Nat)
    (src : List UInt8) : WritesIn sp.owned m (sp.copyToUser m va src).2 :=
  copyToUserFrom_spec h apart

/-! ## A region with contents -/

theorem pushWithOffset_spec {offset : Nat} {data : List UInt8} {res : Except MapError Unit}
    (holds : A.Holds s (sp.frames + rest)) (h : Exact s.mem sp) (u : r.User) (empty : r.frames = [])
    {sp' : AddressSpace}
    (heq : pushWithOffset A.toFrameAllocator s sp r offset data = some (res, s', sp')) :
    A.Holds s' (sp'.frames + rest) ∧ Formed s'.mem sp' ∧ Kept rest s.mem s'.mem ∧
      (res = .ok () → Exact s'.mem sp') := by
  obtain ⟨res', s₁, t', new, hmap, filled, -⟩ :=
    Region.mapInto_spec (h.toFormed.ok holds) u.framed u.perm u.pages_le empty
  rw [pushWithOffset, hmap] at heq
  rcases res' with e | ⟨⟩
  · obtain ⟨s₂, hdrop, holds', formed, kept, -⟩ := h.toFormed.dropPart filled
    have hdrop : dropFrames A.toFrameAllocator s₁
        (Region.owned { r with frames := new }) = some s₂ :=
      hdrop
    simp only [Option.bind_eq_bind, Option.bind_some, hdrop,
      Option.some.injEq, Prod.mk.injEq] at heq
    obtain ⟨rfl, rfl, rfl⟩ := heq
    exact ⟨holds', formed, kept.mono (Multiset.le_add_left _ _), by simp⟩
  · obtain ⟨holds', formed⟩ := h.toFormed.fill u filled
    have exact := h.fill u filled
    have kept : Kept rest s.mem s₁.mem := filled.kept.mono (Multiset.le_add_left _ _)
    rcases hwrite : Region.writeData { r with frames := new } s₁.mem offset data with _ | mem
    · simp [hwrite] at heq
    simp only [Option.bind_eq_bind, Option.bind_some, hwrite,
      Option.some.injEq, Prod.mk.injEq] at heq
    obtain ⟨rfl, rfl, rfl⟩ := heq
    have last := List.mem_append_right sp.regions (List.mem_singleton_self { r with frames := new })
    have hin : WritesIn _ s₁.mem mem :=
      writeFrom_spec (fun e he => ((formed.regions _ last).single e he).2.1) hwrite
    have hin : WritesIn (⟨t', sp.regions ++ [{ r with frames := new }]⟩ : AddressSpace).owned
        s₁.mem mem := by
      apply hin.mono
      rw [owned_append, ← Multiset.coe_add]
      exact Multiset.le_add_left _ _
    obtain ⟨holds₂, keptT, keptR, -⟩ := write_owned holds' hin
    exact ⟨holds₂, formed.kept keptT, kept.trans keptR, fun _ => exact.kept keptT⟩

/-! ## Duplicating -/

/-- Either an exact copy, or everything it had taken is given back. -/
def Copied (A : CountedAllocator σ) (rest : Multiset Frame) (s' : Phys σ) :
    Option AddressSpace → Prop
  | none => A.Holds s' rest
  | some child => A.Holds s' (child.frames + rest) ∧ Exact s'.mem child

theorem duplicateFrom_built {rs : List Region} {child : AddressSpace}
    (holds : A.Holds s (child.frames + rest)) (h : Exact s.mem child)
    (users : ∀ r ∈ rs, r.User) :
    ∃ res s', duplicateFrom A.toFrameAllocator s child rs = some (res, s') ∧ Copied A rest s' res ∧
      Kept rest s.mem s'.mem := by
  induction rs generalizing s child with
  | nil => exact ⟨some child, s, rfl, ⟨holds, h⟩, .refl _ _⟩
  | cons r rs ih =>
    have u := users r List.mem_cons_self
    have users' : ∀ r' ∈ rs, r'.User := fun r' hr' => users r' (List.mem_cons_of_mem r hr')
    obtain ⟨copy, hnew, uc, empty, -⟩ := Region.new_user r.start u.below u.perm
    obtain ⟨res', s₁, t', new, hmap, filled, -⟩ :=
      Region.mapInto_spec (h.toFormed.ok holds) uc.framed uc.perm uc.pages_le empty
    have kept : Kept rest s.mem s₁.mem := filled.kept.mono (Multiset.le_add_left _ _)
    obtain ⟨s₂, hdrop, holds₂, formed₂, kept₂, -⟩ := h.toFormed.dropPart filled
    have kept₂ : Kept rest s.mem s₂.mem := kept₂.mono (Multiset.le_add_left _ _)
    obtain ⟨s₃, hdrop', holds₃, kept₃⟩ := drop_spec formed₂ holds₂
    have hdrop : dropFrames A.toFrameAllocator s₁
        (Region.owned { copy with frames := new }) = some s₂ :=
      hdrop
    rw [duplicateFrom, if_neg (by simp [u.framed]), hnew]
    simp only [Option.bind_eq_bind, Option.bind_some, hmap]
    rcases res' with e | ⟨⟩
    · simp only [hdrop, hdrop', Option.bind_some]
      exact ⟨none, s₃, rfl, holds₃, kept₂.trans kept₃⟩
    rcases hcopy : copyFrames new s₁.mem r.frames with _ | mem
    · simp only [hcopy, hdrop, hdrop', Option.bind_some]
      exact ⟨none, s₃, rfl, holds₃, kept₂.trans kept₃⟩
    simp only [hcopy]
    obtain ⟨holds', formed⟩ := h.toFormed.fill uc filled
    have exact := h.fill uc filled
    have hin := copyFrames_spec (fun e he => (filled.single e he).2) hcopy
    have hin : WritesIn (⟨t', child.regions ++ [{ copy with frames := new }]⟩ : AddressSpace).owned
        s₁.mem mem := by
      apply hin.mono
      rw [owned_append, ← Multiset.coe_add]
      exact Multiset.le_add_left _ _
    obtain ⟨holds₄, keptT, keptR, -⟩ := write_owned holds' hin
    obtain ⟨res, s', heq, hcopied, kept₅⟩ := ih holds₄ (exact.kept keptT) users'
    exact ⟨res, s', heq, hcopied, (kept.trans keptR).trans kept₅⟩

theorem duplicate_built (kernel : PageTable) (holds : A.Holds s rest)
    (users : ∀ r ∈ sp.regions, r.User) :
    ∃ res s', duplicate A.toFrameAllocator s sp kernel = some (res, s') ∧ Copied A rest s' res ∧
      Kept rest s.mem s'.mem := by
  rcases hnew : new A.toFrameAllocator s with ⟨_ | child, s₁⟩
  · obtain rfl := new_none holds hnew
    exact ⟨none, s₁, by simp only [duplicate, hnew], holds, .refl _ _⟩
  · obtain ⟨holds', exact, -, kept, -⟩ := new_spec kernel holds hnew
    obtain ⟨res, s', heq, hcopied, kept'⟩ := duplicateFrom_built holds' exact users
    exact ⟨res, s', by simpa only [duplicate, hnew] using heq, hcopied, kept.trans kept'⟩

theorem duplicate_spec {kernel : PageTable} {res : Option AddressSpace} (holds : A.Holds s rest)
    (users : ∀ r ∈ sp.regions, r.User)
    (heq : duplicate A.toFrameAllocator s sp kernel = some (res, s')) :
    Copied A rest s' res ∧ Kept rest s.mem s'.mem := by
  obtain ⟨res', s'', heq', spec⟩ := duplicate_built kernel holds users
  obtain ⟨rfl, rfl⟩ := Prod.mk.inj (Option.some.inj (heq'.symm.trans heq))
  exact spec

end AddressSpace

end AlexOS
