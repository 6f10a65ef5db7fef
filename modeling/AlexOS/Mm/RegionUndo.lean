import AlexOS.Mm.RegionLoop

/-!
# `unmap_from` after `map_into`

Unmapping takes the words out of last tables again, and the walk is what it was before.
But `unmap` stops at a leaf above the last table and its error is ignored: a linear
region that was given a 2 MiB leaf stays mapped there.
-/

namespace AlexOS

open Bytes PageTable

/-! ## What a success of `map_into` means -/

namespace Part

variable {σ : Type} {B : CountedAllocator σ} {s s' : Phys σ} {t t' t₀ : PageTable}
  {tabs others rest : Multiset Frame} {place : List Nat → Nat} {r r₀ : Trie}
  {perm a e v v' turns : Nat} {linear big : Prop} {reg reg' : Region}

theorem alloc (h : Part B t₀ tabs others r₀ perm linear big a e v s t place r) {f : Frame}
    (heq : B.allocOrder s 0 = (some f, s')) :
    Part B t₀ tabs (f ::ₘ others) r₀ perm linear big a e v s' t place r := by
  obtain ⟨new, ht, shows⟩ := h.table
  exact ⟨⟨new, ht, shows.alloc heq⟩, h.laid, h.paths⟩

theorem mapPage_ok (h : Part B t₀ tabs (reg.owned + rest) r₀ reg.perm False False a e v s t place r)
    (free : Unmapped r₀.leaves a e) (hperm : reg.perm < 2 ^ 64) (hv : v < e)
    (heq : reg.mapPage B.toFrameAllocator s t v = some (.ok v', s', t', reg')) :
    v' = v + 1 ∧ (∃ frames, reg' = { reg with frames := frames }) ∧ ∃ place' r',
      Part B t₀ tabs (reg'.owned + rest) r₀ reg.perm False False a e v' s' t' place' r' := by
  rw [Region.mapPage] at heq
  rcases halloc : B.allocOrder s 0 with ⟨_ | f, s₁⟩
  · rw [halloc] at heq
    cases heq
  obtain ⟨res, s₂, t₂, place', r', hmap, hok, -⟩ := (h.alloc halloc).page f.ppn hv
    (fun no => no.elim) (fun no => no.elim) hperm
    (fun k hk => h.laid.above (fun no => no.elim) free (Nat.le_refl v) hv hk)
  simp only [halloc, hmap] at heq
  rcases res with err | ⟨⟩
  · rcases hfree : B.free s₂ f with _ | s₃
    · simp [hfree] at heq
    · simp [hfree] at heq
  · obtain ⟨hv', rfl, rfl, rfl⟩ : v + 1 = v' ∧ s₂ = s' ∧ t₂ = t' ∧
        { reg with frames := reg.frames ++ [(v, f)] } = reg' := by simpa using heq
    subst hv'
    refine ⟨rfl, ⟨_, rfl⟩, place', r', ?_⟩
    have howned : ((Region.owned { reg with frames := reg.frames ++ [(v, f)] } : List Frame) :
        Multiset Frame) + rest = f ::ₘ (reg.owned + rest) := by
      rw [Region.owned, List.map_append, ← Multiset.coe_add, add_right_comm]
      exact (add_comm _ _).trans (Multiset.singleton_add f _)
    rw [howned]
    exact hok rfl

/-- What a success of the loop means for a framed region. -/
theorem mapFrom_framed
    (h : Part B t₀ tabs (reg.owned + rest) r₀ reg.perm False False a e v s t place r)
    (framed : reg.backing = .framed) (hend : pageNum reg.end_ = e) (hv : v ≤ e)
    (enough : e ≤ v + turns) (free : Unmapped r₀.leaves a e) (hperm : reg.perm < 2 ^ 64)
    (heq : reg.mapFrom B.toFrameAllocator turns s t v = some (.ok (), s', t', reg')) :
    (∃ frames, reg' = { reg with frames := frames }) ∧ ∃ place' r',
      Part B t₀ tabs (reg'.owned + rest) r₀ reg.perm False False a e e s' t' place' r' := by
  induction turns generalizing s t v place r reg with
  | zero =>
    obtain rfl : v = e := by omega
    obtain ⟨rfl, rfl, rfl⟩ : s = s' ∧ t = t' ∧ reg = reg' := by simpa [Region.mapFrom] using heq
    exact ⟨⟨reg.frames, rfl⟩, place, r, h⟩
  | succ turns ih =>
    rw [Region.mapFrom, hend] at heq
    by_cases hdone : e ≤ v
    · obtain rfl : v = e := by omega
      obtain ⟨rfl, rfl, rfl⟩ : s = s' ∧ t = t' ∧ reg = reg' := by simpa using heq
      exact ⟨⟨reg.frames, rfl⟩, place, r, h⟩
    rw [if_neg hdone] at heq
    simp only [framed] at heq
    rcases hturn : reg.mapPage B.toFrameAllocator s t v with _ | ⟨err | v₁, s₁, t₁, reg₁⟩
    · rw [hturn] at heq
      cases heq
    · rw [hturn] at heq
      cases heq
    rw [hturn] at heq
    obtain ⟨rfl, ⟨frames, rfl⟩, place₁, r₁, h₁⟩ := h.mapPage_ok free hperm (by omega) hturn
    obtain ⟨⟨frames', rfl⟩, place', r', h'⟩ := ih h₁ framed hend (by omega) (by omega) hperm heq
    exact ⟨⟨frames', rfl⟩, place', r', h'⟩

/-- What a success of the loop means for a linear region. -/
theorem mapFrom_linear (h : Part B t₀ tabs others r₀ reg.perm True big a e v s t place r)
    (isLinear : reg.backing = .linear) (hend : pageNum reg.end_ = e) (hv : v ≤ e)
    (enough : e ≤ v + turns) (free : Unmapped r₀.leaves a e) (hperm : reg.perm < 2 ^ 64)
    (upper : big → mapBase ≤ a ∧ e ≤ 2 ^ 52)
    (hbig : ∀ u, a ≤ u → u % 512 = 0 → u + 512 ≤ e →
      big ∧ PteFlags.intersects reg.perm PteFlags.rwx = true)
    (heq : reg.mapFrom B.toFrameAllocator turns s t v = some (.ok (), s', t', reg')) :
    reg' = reg ∧ ∃ place' r', Part B t₀ tabs others r₀ reg.perm True big a e e s' t' place' r' := by
  induction turns generalizing s t v place r with
  | zero =>
    obtain rfl : v = e := by omega
    obtain ⟨rfl, rfl, rfl⟩ : s = s' ∧ t = t' ∧ reg = reg' := by simpa [Region.mapFrom] using heq
    exact ⟨rfl, place, r, h⟩
  | succ turns ih =>
    rw [Region.mapFrom, hend] at heq
    by_cases hdone : e ≤ v
    · obtain rfl : v = e := by omega
      obtain ⟨rfl, rfl, rfl⟩ : s = s' ∧ t = t' ∧ reg = reg' := by simpa using heq
      exact ⟨rfl, place, r, h⟩
    rw [if_neg hdone] at heq
    simp only [isLinear] at heq
    by_cases low : mapBase ≤ v
    · obtain ⟨res, s₁, t₁, place₁, r₁, hturn, hok, -⟩ := h.mapLinear hend (by omega) low upper free
        hperm hbig
      rw [hturn] at heq
      rcases res with err | v₁
      · cases heq
      · obtain ⟨hlt, hle, h₁⟩ := hok v₁ rfl
        exact ih h₁ hle (by omega) heq
    · have hpanic : reg.mapLinear B.toFrameAllocator s t v = none := if_pos (Nat.not_le.mp low)
      rw [hpanic] at heq
      cases heq

end Part

/-! ## Unmapping -/

/-- The region cannot be given a 2 MiB leaf: it is framed, or has no whole block. -/
def Region.Blockless (reg : Region) : Prop :=
  reg.backing = .framed ∨
    ∀ u, pageNum reg.start ≤ u → u % 512 = 0 → pageNum reg.end_ < u + 512

/-- `unmap_from` takes a region out again that `map_into` mapped into `t`. Its frames are
the allocator's; the tables that were made stay. -/
def Region.Undone {σ : Type} (B : CountedAllocator σ) (tabs rest : Multiset Frame) (s : Phys σ)
    (t : PageTable) (s' : Phys σ) (t' : PageTable) (reg' : Region) : Prop :=
  ∃ s'', reg'.unmapFrom B.toFrameAllocator s' t' = some s'' ∧
    (∀ va, reg'.start ≤ va → va < reg'.end_ → Sv39.walk s''.mem t'.root va = .fault) ∧
    (∀ va, va < reg'.start ∨ reg'.end_ ≤ va →
      Sv39.walk s''.mem t'.root va = Sv39.walk s.mem t.root va) ∧
    ∃ new : List Frame, t'.frames = t.frames ++ new ∧ B.Holds s'' (new + tabs + rest)

section
variable {σ : Type} {B : CountedAllocator σ} {s s' : Phys σ} {t t' : PageTable}
  {tabs rest : Multiset Frame} {place place' : List Nat → Nat} {r r' : Trie}
  {perm a e : Nat} {linear big : Prop} {reg reg' : Region}

/-- Without 2 MiB leaves all the words that were laid are in last tables. -/
theorem Laid.unmapped {old leaves leaves' : List Nat → Option Nat}
    (h : Laid perm linear False old a e e leaves) (free : Unmapped old a e)
    (same : ∀ x, leaves' x = leaves x ∨
      (∃ v ∈ List.range' a (e - a), x = slotTable v 3) ∧ leaves' x = none)
    (cleared : ∀ v ∈ List.range' a (e - a), (∀ k < 2, leaves (slotTable v (k + 1)) = none) →
      leaves' (slotTable v 3) = none) : leaves' = old := by
  have mem : ∀ v, v ∈ List.range' a (e - a) ↔ a ≤ v ∧ v < e := by
    intro v
    rw [List.mem_range'_1]
    omega
  have page : ∀ {x}, leaves x ≠ old x → ∃ u, a ≤ u ∧ u < e ∧ x = slotTable u 3 := fun hne =>
    (h.changed hne).elim id fun no => no.1.elim
  funext x
  rcases same x with hx | ⟨⟨v, hv, rfl⟩, hnone⟩
  · by_contra hne
    obtain ⟨u, lo, hi, rfl⟩ := page (hx ▸ hne)
    refine hne ?_
    rw [cleared u ((mem u).mpr ⟨lo, hi⟩), free u lo hi 2 (by decide)]
    intro k hk
    rw [← free u lo hi k (by omega)]
    by_contra hne'
    obtain ⟨w, -, -, hw⟩ := page hne'
    exact slotTable_ne (by omega) (by decide) (by omega) hw
  · obtain ⟨lo, hi⟩ := (mem v).mp hv
    rw [hnone, free v lo hi 2 (by decide)]

theorem Part.undone (h : Trie.Shows B.toFrameAllocator s t.root tabs (reg.owned + rest) place r)
    (part : Part B t tabs (reg'.owned + rest) r perm linear False a e e s' t' place' r')
    (free : Unmapped r.leaves a e)
    (pages : List.range' (pageNum reg'.start) reg'.pageCount = List.range' a (e - a))
    (inside : ∀ va, reg'.start ≤ va → va < reg'.end_ → a ≤ pageNum va ∧ pageNum va < e) :
    Region.Undone B tabs rest s t s' t' reg' := by
  obtain ⟨new, rfl, shows⟩ := part.table
  obtain ⟨r₁, shows₁, same, cleared⟩ := Trie.Shows.unmapPages
    (t := { t with frames := t.frames ++ new }) (List.range' a (e - a)) shows
  have hleaves := part.laid.unmapped free same cleared
  obtain ⟨s'', hdrop, shows''⟩ := shows₁.dropFrames reg'.owned
  have walk : ∀ va, Sv39.Canonical va →
      Sv39.walk s''.mem t.root va = Trie.find r.leaves (indices (pageNum va)) [] := by
    intro va hva
    rw [shows''.walk_eq hva, hleaves]
  have astray : ∀ (m : Mem) {va}, ¬ Sv39.Canonical va → Sv39.walk m t.root va = .fault :=
    fun m _ hva => if_neg hva
  refine ⟨s'', ?_, fun va lo hi => ?_, fun va _ => ?_, new, rfl, shows''.holds⟩
  · rw [Region.unmapFrom, pages]
    exact hdrop
  · by_cases hva : Sv39.Canonical va
    · obtain ⟨lo', hi'⟩ := inside va lo hi
      exact (walk va hva).trans (free.find lo' hi')
    · exact astray _ hva
  · by_cases hva : Sv39.Canonical va
    · exact (walk va hva).trans (h.walk_eq hva).symm
    · exact (astray _ hva).trans (astray _ hva).symm

/-- A block's leaf is still there after `unmap_from`. -/
theorem Part.left (part : Part B t tabs (reg'.owned + rest) r perm True True a e e s' t' place' r')
    (free : Unmapped r.leaves a e) (hbase : mapBase ≤ a) (htop : e ≤ 2 ^ 52)
    (legal : LegalFlags perm) {u : Nat} (lo : a ≤ u) (aligned : u % 512 = 0) (hi : u + 512 ≤ e)
    {s'' : Phys σ} (heq : reg'.unmapFrom B.toFrameAllocator s' t' = some s'') :
    Sv39.walk s''.mem t'.root (baseAddr u) ≠ .fault := by
  have hnum : mapBase = 2 ^ 52 - 2 ^ 26 := rfl
  obtain ⟨new, rfl, shows⟩ := part.table
  obtain ⟨r₁, shows₁, same, -⟩ := Trie.Shows.unmapPages
    (t := { t with frames := t.frames ++ new })
    (List.range' (pageNum reg'.start) reg'.pageCount) shows
  obtain ⟨s₂, hdrop, shows₂⟩ := shows₁.dropFrames reg'.owned
  obtain rfl : s₂ = s'' := Option.some.inj (hdrop.symm.trans heq)
  have kept : ∀ {k}, k < 3 → r₁.leaves (slotTable u k) = r'.leaves (slotTable u k) := by
    intro k hk
    rcases same (slotTable u k) with hx | ⟨⟨v, -, hx⟩, -⟩
    · exact hx
    · exact absurd hx (slotTable_ne (by omega) (by decide) (by omega))
  obtain ⟨w, ⟨ppn, rfl, hppn⟩, hleaf⟩ := part.laid.blocks trivial lo aligned hi (by omega)
  have hhigh : r'.leaves (slotTable u 1) = none := by
    rw [part.laid.high u]
    exact free u lo (by omega) 0 (by decide)
  have hva : Sv39.Canonical (baseAddr u) := by
    refine .inr ⟨?_, ?_⟩ <;> simp only [baseAddr, pageSize] <;> omega
  rw [shows₂.walk_eq hva, pageNum_baseAddr, Trie.find_indices, kept (by decide), hhigh,
    kept (by decide), hleaf, hppn trivial]
  simp only
  rw [Sv39.verdict_leaf (by omega) legal (by simp only [ptePerTable]; omega)]
  intro same
  cases same

/-- Below `VIRT_OFFSET` the subtraction panics. -/
theorem Region.mapInto_upper (isLinear : reg.backing = .linear)
    (nonempty : pageNum reg.start < pageNum reg.end_)
    {x : Except MapError Unit × Phys σ × PageTable × Region}
    (heq : reg.mapInto B.toFrameAllocator s t = some x) : mapBase ≤ pageNum reg.start := by
  by_contra hlow
  obtain ⟨n, hn⟩ : ∃ n, reg.pageCount = n + 1 :=
    Nat.exists_eq_succ_of_ne_zero (by rw [Region.pageCount]; omega)
  have hpanic : reg.mapLinear B.toFrameAllocator s t (pageNum reg.start) = none :=
    if_pos (Nat.not_le.mp hlow)
  rw [Region.mapInto, hn, Region.mapFrom, if_neg (Nat.not_le.mpr nonempty)] at heq
  simp only [isLinear, hpanic] at heq
  cases heq

theorem Region.undone_of_blockless
    (h : Trie.Shows B.toFrameAllocator s t.root tabs (reg.owned + rest) place r)
    (aligned : reg.start % pageSize = 0 ∧ reg.end_ % pageSize = 0) (hperm : reg.perm < 2 ^ 64)
    (free : Unmapped r.leaves (pageNum reg.start) (pageNum reg.end_))
    (heq : reg.mapInto B.toFrameAllocator s t = some (.ok (), s', t', reg'))
    (blockless : reg.Blockless) : Region.Undone B tabs rest s t s' t' reg' := by
  have inside : ∀ va, reg.start ≤ va → va < reg.end_ →
      pageNum reg.start ≤ pageNum va ∧ pageNum va < pageNum reg.end_ := by
    intro va lo hi
    simp only [pageNum, pageSize] at aligned ⊢
    omega
  by_cases ordered : pageNum reg.start ≤ pageNum reg.end_
  · have enough : pageNum reg.end_ ≤ pageNum reg.start + reg.pageCount := by
      rw [Region.pageCount]
      omega
    rcases hback : reg.backing with _ | _
    · have none := blockless.resolve_left (by rw [hback]; decide)
      obtain ⟨rfl, place', r', part⟩ := (Part.start h reg.perm True False _ _).mapFrom_linear hback
        rfl ordered enough free hperm (fun no => no.elim)
        (fun u lo hu hi => absurd hi (Nat.not_le.mpr (none u lo hu))) heq
      exact part.undone h free rfl inside
    · obtain ⟨⟨frames, rfl⟩, place', r', part⟩ :=
        (Part.start h reg.perm False False _ _).mapFrom_framed hback rfl
          ordered enough free hperm heq
      exact part.undone h free rfl inside
  · have hcount : reg.pageCount = 0 := by
      rw [Region.pageCount]
      omega
    rw [Region.mapInto, hcount, Region.mapFrom] at heq
    obtain ⟨rfl, rfl, rfl⟩ : s = s' ∧ t = t' ∧ reg = reg' := by simpa using heq
    refine (Part.start h reg.perm True False (pageNum reg.start) (pageNum reg.start)).undone h
      (fun u lo hi => absurd hi (Nat.not_lt.mpr lo)) ?_ (fun va lo hi => ?_)
    · rw [hcount, Nat.sub_self]
    · have := inside va lo hi
      omega

/-- `unmap_from` undoes `map_into` for a region without a whole 2 MiB block, and for no other
whose leaves the hardware takes. -/
theorem Region.unmapFrom_undoes_iff
    (h : Trie.Shows B.toFrameAllocator s t.root tabs (reg.owned + rest) place r)
    (aligned : reg.start % pageSize = 0 ∧ reg.end_ % pageSize = 0) (high : reg.end_ ≤ 2 ^ 64)
    (hperm : reg.perm < 2 ^ 64)
    (free : Unmapped r.leaves (pageNum reg.start) (pageNum reg.end_))
    (heq : reg.mapInto B.toFrameAllocator s t = some (.ok (), s', t', reg')) :
    (reg.Blockless → Region.Undone B tabs rest s t s' t' reg') ∧
      (LegalFlags reg.perm →
        (Region.Undone B tabs rest s t s' t' reg' ↔ reg.Blockless)) := by
  have back := Region.undone_of_blockless h aligned hperm free heq
  refine ⟨back, fun legal => ⟨fun undone => ?_, back⟩⟩
  by_contra hblock
  simp only [Region.Blockless, not_or, not_forall, Nat.not_lt] at hblock
  obtain ⟨hback, u, lo, hu, hi⟩ := hblock
  have isLinear : reg.backing = .linear := by
    rcases hlin : reg.backing with _ | _
    · rfl
    · exact absurd hlin hback
  have hbase := Region.mapInto_upper isLinear (by omega) heq
  have htop : pageNum reg.end_ ≤ 2 ^ 52 := by
    simp only [pageNum, pageSize]
    omega
  obtain ⟨rfl, place', r', part⟩ :=
    (Part.start h reg.perm True True _ _).mapFrom_linear isLinear rfl
    (by omega) (by rw [Region.pageCount]; omega) free hperm (fun _ => ⟨hbase, htop⟩)
    (fun _ _ _ _ => ⟨trivial, PteFlags.contains_rwx legal.leaf⟩) heq
  obtain ⟨s'', hunmap, faults, -⟩ := undone
  refine part.left free hbase htop legal lo hu hi hunmap (faults _ ?_ ?_)
  all_goals
    simp only [pageNum, baseAddr, pageSize] at aligned lo hi ⊢
    omega

/-- A region of one whole block stays mapped. -/
theorem block_left_mapped : ∃ (s s' : Phys Buddy.BuddyAllocator) (t t' : PageTable),
    Trie.Shows Buddy.merging.toFrameAllocator s t.root t.frames 0 (fun _ => t.root) Trie.bare ∧
      (spanningRegion PteFlags.rw).mapInto Buddy.merging.toFrameAllocator s t =
        some (.ok (), s', t', spanningRegion PteFlags.rw) ∧
      ∃ s'', (spanningRegion PteFlags.rw).unmapFrom
        Buddy.merging.toFrameAllocator s' t' = some s'' ∧
        Sv39.walk s''.mem t'.root (physToVirt (baseAddr 512)) ≠ .fault := by
  obtain ⟨s, t, shows, havail⟩ := boot_table
  have free : Unmapped Trie.bare.leaves (pageNum (spanningRegion PteFlags.rw).start)
      (pageNum (spanningRegion PteFlags.rw).end_) := fun _ _ _ _ _ => rfl
  have legal : LegalFlags (spanningRegion PteFlags.rw).perm := ⟨by decide, by decide, by decide⟩
  obtain ⟨s', t', place', r', heq, part⟩ := Part.mapInto shows rfl (by decide) (by decide)
    (by decide) (by decide) (by decide) free (spanning_clear PteFlags.rw)
    (spanning_room PteFlags.rw (show 1028 ≤ Buddy.merging.avail s by omega))
  have part' : Part Buddy.merging t t.frames ((spanningRegion PteFlags.rw).owned + 0) Trie.bare
      (spanningRegion PteFlags.rw).perm True True (pageNum (spanningRegion PteFlags.rw).start)
      (pageNum (spanningRegion PteFlags.rw).end_) (pageNum (spanningRegion PteFlags.rw).end_) s' t'
      place' r' := part
  have hunmap : (spanningRegion PteFlags.rw).unmapFrom Buddy.merging.toFrameAllocator s' t' =
      some (Region.unmapPages s' t' (List.range' (pageNum (spanningRegion PteFlags.rw).start)
        (spanningRegion PteFlags.rw).pageCount)) := rfl
  refine ⟨s, s', t, t', shows, heq, _, hunmap, ?_⟩
  rw [physToVirt_page]
  exact part'.left free (by decide) (by decide) legal (by decide) (by decide) (by decide) hunmap

/-- One page of the direct map. -/
def singlePage : Region :=
  ⟨physToVirt (baseAddr 511), physToVirt (baseAddr 512), .linear, PteFlags.rw, []⟩

theorem single_page_undone : ∃ (s s' : Phys Buddy.BuddyAllocator) (t t' : PageTable),
    singlePage.mapInto Buddy.merging.toFrameAllocator s t = some (.ok (), s', t', singlePage) ∧
      Region.Undone Buddy.merging t.frames 0 s t s' t' singlePage := by
  obtain ⟨s, t, shows, havail⟩ := boot_table
  have hcount : pageNum singlePage.end_ - pageNum singlePage.start = 1 := by decide
  have free : Unmapped Trie.bare.leaves (pageNum singlePage.start) (pageNum singlePage.end_) :=
    fun _ _ _ _ _ => rfl
  have none : ∀ u, pageNum singlePage.start ≤ u → u % 512 = 0 →
      pageNum singlePage.end_ < u + 512 := by
    have hstart : pageNum singlePage.start = mapBase + 511 := by decide
    have hbase : mapBase % 512 = 0 := by decide
    intro u lo hu
    omega
  have room := (linearTables_card (pageNum singlePage.start) (pageNum singlePage.end_)
    Trie.bare.tables).trans (show _ ≤ Buddy.merging.avail s by omega)
  obtain ⟨s', t', place', r', heq, -⟩ := Part.mapInto shows
    (show singlePage.backing = .linear from rfl) (by decide) (by decide) (by decide) (by decide)
    (by decide) free
    (fun u lo hu hi => absurd hi (Nat.not_le.mpr (none u lo hu))) room
  refine ⟨s, s', t, t', heq, ?_⟩
  have shows' : Trie.Shows Buddy.merging.toFrameAllocator s t.root t.frames
      (singlePage.owned + (0 : Multiset Frame)) (fun _ => t.root) Trie.bare := shows
  exact (Region.unmapFrom_undoes_iff shows' (by decide) (by decide) (by decide) free heq).1
    (.inr none)

end

end AlexOS
