import AlexOS.Mm.RegionWords

/-!
# `map_into` on the fast path

For a linear region in the upper half the 2 MiB leaves change nothing but the number of
tables: the translation is the one that mapping every page by itself gives.
-/

namespace AlexOS

open Bytes PageTable

/-- The tables that linear pages from `v` on may lack: above every page, and above the
last tables of pages outside whole blocks. -/
structure LinearNeeds (need : Finset (List Nat)) (v e : Nat) : Prop where
  one : ∀ w, v ≤ w → w < e → slotTable w 1 ∈ need
  two : ∀ w, v ≤ w → w < e → w / 512 * 512 < v ∨ e < w / 512 * 512 + 512 → slotTable w 2 ∈ need

namespace Part

variable {σ : Type} {B : CountedAllocator σ} {s s' : Phys σ} {t t' t₀ : PageTable}
  {tabs others rest : Multiset Frame} {place : List Nat → Nat} {r r₀ : Trie}
  {perm a e v : Nat} {linear big : Prop} {need : Finset (List Nat)} {reg reg' : Region}

/-- One turn of the loop for a linear region. -/
theorem mapLinear (h : Part B t₀ tabs others r₀ reg.perm linear big a e v s t place r)
    (hend : pageNum reg.end_ = e) (hv : v < e) (low : mapBase ≤ v)
    (upper : big → mapBase ≤ a ∧ e ≤ 2 ^ 52) (free : Unmapped r₀.leaves a e)
    (hperm : reg.perm < 2 ^ 64)
    (hbig : ∀ u, a ≤ u → u % 512 = 0 → u + 512 ≤ e →
      big ∧ PteFlags.intersects reg.perm PteFlags.rwx = true) :
    ∃ res s' t' place' r', reg.mapLinear B.toFrameAllocator s t v = some (res, s', t', reg) ∧
      (∀ v', res = .ok v' → v < v' ∧ v' ≤ e ∧
        Part B t₀ tabs others r₀ reg.perm linear big a e v' s' t' place' r') ∧
      ∀ need, Trie.Room B s r need → LinearNeeds need v e → r.leaves (slotTable v 3) = none →
        (v % 512 = 0 → v + 512 ≤ e → slotTable v 2 ∉ r.tables) →
        ∃ v', res = .ok v' ∧ Trie.Room B s' r' need ∧ LinearNeeds need v' e := by
  have hnum : mapBase = 2 ^ 52 - 2 ^ 26 := rfl
  have hle := h.laid.le
  have above : ∀ k < 2, r.leaves (slotTable v (k + 1)) = none := fun k hk =>
    h.laid.above upper free (Nat.le_refl v) hv hk
  have hpages : superpageSize / pageSize = 512 := by decide
  have hlow : ¬ v < pageNum virtOffset := Nat.not_lt.mpr low
  rw [Region.mapLinear, if_neg hlow, show pageNum virtOffset = mapBase from rfl]
  simp only [hpages, hend]
  by_cases whole : v % 512 = 0 ∧ (v - mapBase) % 512 = 0 ∧ v + 512 ≤ e
  · rw [if_pos whole]
    obtain ⟨aligned, aligned', fits⟩ := whole
    obtain ⟨hbig', hleaf⟩ := hbig v hle aligned fits
    obtain ⟨res, s', t', place', r', heq, hok, success⟩ := h.block fits hbig' aligned
      (fun _ => rfl) aligned' hperm hleaf (above 0 (by decide))
    rw [heq, Option.map_some]
    refine ⟨_, s', t', place', r', rfl, fun v' hv' => ?_, fun need room needs _ clear => ?_⟩
    · rcases res with _ | ⟨⟩
      · cases hv'
      · obtain rfl : v + 512 = v' := Except.ok.inj hv'
        exact ⟨by omega, fits, hok rfl⟩
    · obtain ⟨rfl, room'⟩ := success need room (needs.one v (Nat.le_refl v) hv) (clear aligned fits)
        (above 1 (by decide))
      refine ⟨v + 512, rfl, room', fun w lo hi => needs.one w (by omega) hi,
        fun w lo hi edge => needs.two w (by omega) hi ?_⟩
      omega
  · rw [if_neg whole]
    obtain ⟨res, s', t', place', r', heq, hok, success⟩ := h.page (v - mapBase) hv
      (fun _ aligned => by omega) (fun _ => rfl) hperm above
    rw [heq]
    refine ⟨_, s', t', place', r', rfl, fun v' hv' => ?_, fun need room needs empty _ => ?_⟩
    · rcases res with _ | ⟨⟩
      · cases hv'
      · obtain rfl : v + 1 = v' := Except.ok.inj hv'
        exact ⟨by omega, hv, hok rfl⟩
    · obtain ⟨rfl, room'⟩ := success need room (needs.one v (Nat.le_refl v) hv)
        (needs.two v (Nat.le_refl v) hv (by omega)) empty
      refine ⟨v + 1, rfl, room', fun w lo hi => needs.one w (by omega) hi,
        fun w lo hi edge => needs.two w (by omega) hi ?_⟩
      omega

section
variable (hbase : mapBase ≤ a) (htop : e ≤ 2 ^ 52) (free : Unmapped r₀.leaves a e)
include hbase htop

/-- The tables made on the way are not below a block yet to come. -/
theorem clear (h : Part B t₀ tabs others r₀ perm linear big a e v s t place r)
    (clear : slotTable v 2 ∉ r₀.tables) (aligned : v % 512 = 0) (hv : v < e) :
    slotTable v 2 ∉ r.tables := by
  have hle := h.laid.le
  intro hin
  rcases h.paths _ hin with hin | ⟨u, lo, hi, hu | hu⟩
  · exact clear hin
  · exact slotTable_ne (by decide) (by decide) (by decide) hu
  · have := slot_block_inj (.inr ⟨by omega, by omega⟩) (by omega) (by omega) hu
    omega

include free

/-- The loop maps a linear region to its end. -/
theorem mapFrom {turns : Nat} (h : Part B t₀ tabs others r₀ reg.perm True True a e v s t place r)
    (isLinear : reg.backing = .linear) (hend : pageNum reg.end_ = e) (hv : v ≤ e)
    (enough : e ≤ v + turns) (hperm : reg.perm < 2 ^ 64)
    (hleaf : PteFlags.intersects reg.perm PteFlags.rwx = true)
    (clear : ∀ u, a ≤ u → u % 512 = 0 → u + 512 ≤ e → slotTable u 2 ∉ r₀.tables)
    (room : Trie.Room B s r need) (needs : LinearNeeds need v e) :
    ∃ s' t' place' r', reg.mapFrom B.toFrameAllocator turns s t v = some (.ok (), s', t', reg) ∧
      Part B t₀ tabs others r₀ reg.perm True True a e e s' t' place' r' := by
  induction turns generalizing s t v place r with
  | zero =>
    obtain rfl : v = e := by omega
    exact ⟨s, t, place, r, rfl, h⟩
  | succ turns ih =>
    rw [Region.mapFrom, hend]
    by_cases hdone : e ≤ v
    · obtain rfl : v = e := by omega
      exact ⟨s, t, place, r, if_pos (Nat.le_refl v), h⟩
    have hle := h.laid.le
    obtain ⟨res, s₁, t₁, place₁, r₁, heq, hok, success⟩ := h.mapLinear hend (by omega) (by omega)
      (fun _ => ⟨hbase, htop⟩) free hperm (fun _ _ _ _ => ⟨trivial, hleaf⟩)
    obtain ⟨v', rfl, room₁, needs₁⟩ := success need room needs
      (h.laid.empty free hbase htop (Nat.le_refl v) (by omega))
      (fun aligned fits => h.clear hbase htop (clear v hle aligned fits) aligned (by omega))
    obtain ⟨hlt, hle', h₁⟩ := hok v' rfl
    obtain ⟨s', t', place', r', hrest, h'⟩ := ih h₁ hle' (by omega) room₁ needs₁
    refine ⟨s', t', place', r', ?_, h'⟩
    rw [if_neg hdone]
    simp only [isLinear, heq]
    exact hrest

end

end Part

/-! ## The fast path and the plain one -/

/-- The plain path: every page of the region by itself. -/
def Region.mapEach {σ : Type} (A : FrameAllocator σ) (perm : Nat) :
    Phys σ → PageTable → List Nat → Except MapError Unit × Phys σ × PageTable
  | s, t, [] => (.ok (), s, t)
  | s, t, vpn :: vpns =>
    match PageTable.map A s t vpn (vpn - pageNum virtOffset) perm with
    | (.ok (), s, t) => mapEach A perm s t vpns
    | (.error e, s, t) => (.error e, s, t)

/-- Where an address leads, and with which flags. -/
def Sv39.translate (m : Mem) (root va : Nat) : Option (Nat × Nat) :=
  match Sv39.walk m root va with
  | .leaf k pte => some (physAddr k pte va, Pte.flags pte)
  | .fault => none

/-- The tables above the pages from `a` to `e`, but for the last tables of whole blocks. -/
def linearTables (a e : Nat) : Finset (List Nat) :=
  (Finset.Ico a e).image (slotTable · 1) ∪
    ((Finset.Ico a e).filter fun w => w / 512 * 512 < a ∨ e < w / 512 * 512 + 512).image
      (slotTable · 2)

def pageTables (a e : Nat) : Finset (List Nat) :=
  (Finset.Ico a e).image (slotTable · 1) ∪ (Finset.Ico a e).image (slotTable · 2)

section
variable {σ : Type} {B : CountedAllocator σ} {s s' : Phys σ} {t t' t₀ : PageTable}
  {tabs others : Multiset Frame} {place : List Nat → Nat} {r r₀ : Trie} {perm a e v va : Nat}
  {linear big : Prop} {need tables : Finset (List Nat)} {reg : Region}

theorem Trie.Room.of_sdiff (room : (tables \ r.tables).card ≤ B.avail s) :
    Trie.Room B s r (tables ∪ r.tables) := by
  refine ⟨Finset.subset_union_right, ?_⟩
  rw [← Finset.card_sdiff_add_card]
  omega

theorem linearTables_card (a e : Nat) (tables : Finset (List Nat)) :
    (linearTables a e \ tables).card ≤ 2 * (e - a) := by
  refine (Finset.card_le_card Finset.sdiff_subset).trans ((Finset.card_union_le _ _).trans ?_)
  have hone := Finset.card_image_le (s := Finset.Ico a e) (f := (slotTable · 1))
  have htwo := (Finset.card_image_le (f := (slotTable · 2))).trans (Finset.card_filter_le
    (Finset.Ico a e) fun w => w / 512 * 512 < a ∨ e < w / 512 * 512 + 512)
  rw [Nat.card_Ico] at hone htwo
  omega

theorem linearNeeds (a e : Nat) (rest : Finset (List Nat)) :
    LinearNeeds (linearTables a e ∪ rest) a e := by
  refine ⟨fun w lo hi => ?_, fun w lo hi edge => ?_⟩
  · exact Finset.mem_union_left _ (Finset.mem_union_left _
      (Finset.mem_image_of_mem _ (Finset.mem_Ico.mpr ⟨lo, hi⟩)))
  · exact Finset.mem_union_left _ (Finset.mem_union_right _
      (Finset.mem_image_of_mem _ (Finset.mem_filter.mpr ⟨Finset.mem_Ico.mpr ⟨lo, hi⟩, edge⟩)))

theorem Part.start (h : Trie.Shows B.toFrameAllocator s t.root tabs others place r)
    (perm : Nat) (linear big : Prop) (a e : Nat) :
    Part B t tabs others r perm linear big a e a s t place r := by
  refine ⟨⟨[], ?_, ?_⟩, .start, fun x hx => .inl hx⟩
  · rw [List.append_nil]
  · rwa [Multiset.coe_nil, zero_add]

/-- The plain path maps a linear region to its end. -/
theorem Part.mapEach {n : Nat} (h : Part B t₀ tabs others r₀ perm True False a e v s t place r)
    (hbase : mapBase ≤ a) (htop : e ≤ 2 ^ 52) (free : Unmapped r₀.leaves a e) (hv : v + n = e)
    (hperm : perm < 2 ^ 64) (room : Trie.Room B s r need)
    (needs : ∀ w, v ≤ w → w < e → slotTable w 1 ∈ need ∧ slotTable w 2 ∈ need) :
    ∃ s' t' place' r', Region.mapEach B.toFrameAllocator perm s t (List.range' v n) =
        (.ok (), s', t') ∧
      Part B t₀ tabs others r₀ perm True False a e e s' t' place' r' := by
  induction n generalizing s t v place r with
  | zero =>
    obtain rfl : v = e := by omega
    exact ⟨s, t, place, r, rfl, h⟩
  | succ n ih =>
    obtain ⟨res, s₁, t₁, place₁, r₁, heq, hok, success⟩ := h.page (v - mapBase) (by omega)
      (fun no => no.elim) (fun _ => rfl) hperm
      (fun k hk => h.laid.above (fun no => no.elim) free (Nat.le_refl v) (by omega) hk)
    obtain ⟨hone, htwo⟩ := needs v (Nat.le_refl v) (by omega)
    obtain ⟨rfl, room₁⟩ := success need room hone htwo
      (h.laid.empty free hbase htop (Nat.le_refl v) (by omega))
    obtain ⟨s', t', place', r', hrest, h'⟩ := ih (hok rfl) (by omega) room₁
      (fun w lo hi => needs w (by omega) hi)
    refine ⟨s', t', place', r', ?_, h'⟩
    rw [List.range'_succ, Region.mapEach, show pageNum virtOffset = mapBase from rfl, heq]
    exact hrest

/-- What the loop of `map_into` makes of a linear region of the upper half. -/
theorem Part.mapInto (h : Trie.Shows B.toFrameAllocator s t.root tabs others place r)
    (isLinear : reg.backing = .linear) (hbase : mapBase ≤ pageNum reg.start)
    (ordered : pageNum reg.start ≤ pageNum reg.end_) (htop : pageNum reg.end_ ≤ 2 ^ 52)
    (hperm : reg.perm < 2 ^ 64) (hleaf : PteFlags.intersects reg.perm PteFlags.rwx = true)
    (free : Unmapped r.leaves (pageNum reg.start) (pageNum reg.end_))
    (clear : ∀ u, pageNum reg.start ≤ u → u % 512 = 0 → u + 512 ≤ pageNum reg.end_ →
      slotTable u 2 ∉ r.tables)
    (room : (linearTables (pageNum reg.start) (pageNum reg.end_) \ r.tables).card ≤ B.avail s) :
    ∃ s' t' place' r', reg.mapInto B.toFrameAllocator s t = some (.ok (), s', t', reg) ∧
      Part B t tabs others r reg.perm True True (pageNum reg.start) (pageNum reg.end_)
        (pageNum reg.end_) s' t' place' r' :=
  (Part.start h reg.perm True True _ _).mapFrom hbase htop free isLinear rfl ordered
    (by rw [Region.pageCount]; omega) hperm hleaf clear (Trie.Room.of_sdiff room)
    (linearNeeds _ _ _)

/-- Inside, the translation is the distance from `VIRT_OFFSET`. -/
theorem Part.translate_inside (h : Part B t₀ tabs others r₀ perm True big a e e s t place r)
    (free : Unmapped r₀.leaves a e) (hbase : mapBase ≤ a) (htop : e ≤ 2 ^ 52)
    (legal : LegalFlags perm) (lo : a ≤ pageNum va) (hi : pageNum va < e) :
    Sv39.translate s.mem t₀.root va = some (va - virtOffset, PteFlags.present perm) := by
  have hnum : mapBase = 2 ^ 52 - 2 ^ 26 := rfl
  have hoffset : virtOffset = 2 ^ 64 - 2 ^ 38 := by decide
  obtain ⟨new, -, shows⟩ := h.table
  have hva : Sv39.Canonical va := by
    refine .inr ⟨?_, ?_⟩ <;> simp only [pageNum, pageSize] at lo hi <;> omega
  obtain ⟨k, hk, hfind⟩ := h.laid.find_inside free hbase htop legal lo hi
  have hppn : (pageNum va - mapBase) / 512 ^ k * 512 ^ k < 2 ^ 44 :=
    Nat.lt_of_le_of_lt (Nat.div_mul_le_self _ _) (by omega)
  have hflags := PteFlags.present_lt legal.lt
  rw [Sv39.translate, shows.walk_eq hva, hfind]
  simp only [physAddr, Pte.ppn_new hppn hflags, Pte.flags_new _ hflags, Option.some.injEq,
    Prod.mk.injEq, and_true]
  obtain rfl | rfl : k = 0 ∨ k = 1 := by omega
  all_goals
    simp only [baseAddr, pageNum, hoffset, hnum, pageSize, ptePerTable] at lo ⊢
    omega

/-- Outside, the walk is as it was. -/
theorem Part.walk_outside {s₀ : Phys σ} {place₀ : List Nat → Nat}
    (h₀ : Trie.Shows B.toFrameAllocator s₀ t₀.root tabs others place₀ r₀)
    (h : Part B t₀ tabs others r₀ perm linear big a e e s t place r) (hbase : mapBase ≤ a)
    (htop : e ≤ 2 ^ 52) (out : pageNum va < a ∨ e ≤ pageNum va) :
    Sv39.walk s.mem t₀.root va = Sv39.walk s₀.mem t₀.root va := by
  by_cases hva : Sv39.Canonical va
  · obtain ⟨new, -, shows⟩ := h.table
    rw [shows.walk_eq hva, h₀.walk_eq hva]
    exact h.laid.find_outside hbase htop (canonical_page hva) out
  · rw [Sv39.walk, if_neg hva, Sv39.walk, if_neg hva]

/-- A linear region is mapped at its distance from `VIRT_OFFSET`, and nothing else changes: 2 MiB
leaves or not. -/
theorem Region.mapInto_linear (h : Trie.Shows B.toFrameAllocator s t.root tabs others place r)
    (isLinear : reg.backing = .linear)
    (aligned : reg.start % pageSize = 0 ∧ reg.end_ % pageSize = 0) (low : virtOffset ≤ reg.start)
    (ordered : reg.start ≤ reg.end_) (high : reg.end_ ≤ 2 ^ 64) (legal : LegalFlags reg.perm)
    (free : Unmapped r.leaves (pageNum reg.start) (pageNum reg.end_))
    (clear : ∀ u, pageNum reg.start ≤ u → u % 512 = 0 → u + 512 ≤ pageNum reg.end_ →
      slotTable u 2 ∉ r.tables)
    (room : (linearTables (pageNum reg.start) (pageNum reg.end_) \ r.tables).card ≤ B.avail s) :
    ∃ s' t', reg.mapInto B.toFrameAllocator s t = some (.ok (), s', t', reg) ∧ t'.root = t.root ∧
      (∀ va, reg.start ≤ va → va < reg.end_ → Sv39.translate s'.mem t'.root va =
        some (va - virtOffset, PteFlags.present reg.perm)) ∧
      (∀ va, va < reg.start ∨ reg.end_ ≤ va →
        Sv39.walk s'.mem t'.root va = Sv39.walk s.mem t.root va) ∧
      ((pageTables (pageNum reg.start) (pageNum reg.end_) \ r.tables).card ≤ B.avail s →
        ∃ s'' t'', Region.mapEach B.toFrameAllocator reg.perm s t
            (List.range' (pageNum reg.start) reg.pageCount) = (.ok (), s'', t'') ∧
          ∀ va, Sv39.translate s''.mem t''.root va = Sv39.translate s'.mem t'.root va) := by
  have hpage : ∀ va, (reg.start ≤ va ↔ pageNum reg.start ≤ pageNum va) ∧
      (va < reg.end_ ↔ pageNum va < pageNum reg.end_) := by
    intro va
    simp only [pageNum, pageSize] at aligned ⊢
    omega
  have hbase : mapBase ≤ pageNum reg.start := Nat.div_le_div_right low
  have htop : pageNum reg.end_ ≤ 2 ^ 52 := by
    simp only [pageNum, pageSize]
    omega
  have hperm : reg.perm < 2 ^ 64 := Nat.lt_trans legal.lt (by decide)
  have hordered : pageNum reg.start ≤ pageNum reg.end_ := Nat.div_le_div_right ordered
  obtain ⟨s', t', place', r', heq, part⟩ := Part.mapInto h isLinear hbase hordered htop hperm
    (PteFlags.contains_rwx legal.leaf) free clear room
  obtain ⟨new, ht', -⟩ := part.table
  have root : t'.root = t.root := by rw [ht']
  have inside : ∀ va, reg.start ≤ va → va < reg.end_ → Sv39.translate s'.mem t.root va =
      some (va - virtOffset, PteFlags.present reg.perm) := fun va lo hi =>
    part.translate_inside free hbase htop legal ((hpage va).1.mp lo) ((hpage va).2.mp hi)
  have out : ∀ va, va < reg.start ∨ reg.end_ ≤ va →
      pageNum va < pageNum reg.start ∨ pageNum reg.end_ ≤ pageNum va := by
    intro va hva
    have := hpage va
    omega
  have outside : ∀ va, va < reg.start ∨ reg.end_ ≤ va →
      Sv39.walk s'.mem t.root va = Sv39.walk s.mem t.root va := fun va hva =>
    part.walk_outside h hbase htop (out va hva)
  refine ⟨s', t', heq, root, ?_⟩
  rw [root]
  refine ⟨inside, outside, fun room' => ?_⟩
  obtain ⟨s'', t'', place'', r'', heq'', part''⟩ :=
    (Part.start h reg.perm True False (pageNum reg.start) (pageNum reg.end_)).mapEach
      (n := reg.pageCount) hbase htop free
      (by rw [Region.pageCount]; omega) hperm (Trie.Room.of_sdiff room') (fun w lo hi => by
        have hmem := Finset.mem_Ico.mpr ⟨lo, hi⟩
        exact ⟨Finset.mem_union_left _ (Finset.mem_union_left _ (Finset.mem_image_of_mem _ hmem)),
          Finset.mem_union_left _ (Finset.mem_union_right _ (Finset.mem_image_of_mem _ hmem))⟩)
  obtain ⟨new'', ht'', -⟩ := part''.table
  refine ⟨s'', t'', heq'', fun va => ?_⟩
  rw [show t''.root = t.root by rw [ht'']]
  by_cases hva : reg.start ≤ va ∧ va < reg.end_
  · rw [inside va hva.1 hva.2]
    exact part''.translate_inside free hbase htop legal ((hpage va).1.mp hva.1)
      ((hpage va).2.mp hva.2)
  · have hva' : va < reg.start ∨ reg.end_ ≤ va := by omega
    rw [Sv39.translate, part''.walk_outside h hbase htop (out va hva'), Sv39.translate,
      outside va hva']

end

/-- A fresh table has nothing in the way of a region, and needs at most the tables above it. -/
theorem boot_table : ∃ (s : Phys Buddy.BuddyAllocator) (t : PageTable),
    Trie.Shows Buddy.merging.toFrameAllocator s t.root t.frames 0 (fun _ => t.root) Trie.bare ∧
      0x77ff ≤ Buddy.merging.avail s := by
  obtain ⟨s₀, -, holds, havail⟩ := Buddy.merging_boot
  obtain ⟨f, s, halloc, hleft⟩ := Buddy.merging.alloc_one holds (by omega)
  refine ⟨s, ⟨f.ppn, [f]⟩, Trie.Shows.fresh holds ?_, by omega⟩
  rw [PageTable.new, halloc]

/-- The pages 511 to 1024 of the direct map: a whole block and a page on either side of it. -/
def spanningRegion (perm : Nat) : Region :=
  ⟨physToVirt (baseAddr 511), physToVirt (baseAddr 1025), .linear, perm, []⟩

theorem spanning_room (perm : Nat) {n : Nat} (hn : 1028 ≤ n) :
    (linearTables (pageNum (spanningRegion perm).start) (pageNum (spanningRegion perm).end_) \
      Trie.bare.tables).card ≤ n := by
  have hcount :
      pageNum (physToVirt (baseAddr 1025)) - pageNum (physToVirt (baseAddr 511)) = 514 := by decide
  refine (linearTables_card _ _ _).trans ?_
  show 2 * (pageNum (physToVirt (baseAddr 1025)) - pageNum (physToVirt (baseAddr 511))) ≤ n
  omega

theorem spanning_clear (perm u : Nat) (_ : pageNum (spanningRegion perm).start ≤ u)
    (_ : u % 512 = 0) (_ : u + 512 ≤ pageNum (spanningRegion perm).end_) :
    slotTable u 2 ∉ Trie.bare.tables := fun hin =>
  slotTable_ne (k := 0) (v := u) (by decide) (by decide) (by decide) (Finset.mem_singleton.mp hin)

theorem Sv39.verdict_write_only (k ppn : Nat) :
    Sv39.verdict k (Pte.new ppn (PteFlags.present PteFlags.write)) = .fault := by
  have hflags : Pte.flags (Pte.new ppn (PteFlags.present PteFlags.write)) =
      PteFlags.present PteFlags.write := Pte.flags_new ppn (by decide)
  rw [Sv39.verdict, if_pos]
  refine .inr (.inl ?_)
  rw [Sv39.has, Sv39.has, hflags]
  decide

/-- Permissions that are no legal leaf: `map_into` succeeds and the region faults. -/
theorem write_only_region_faults : ∃ (s : Phys Buddy.BuddyAllocator) (t : PageTable),
    Trie.Shows Buddy.merging.toFrameAllocator s t.root t.frames 0 (fun _ => t.root) Trie.bare ∧
      (linearTables (pageNum (spanningRegion PteFlags.write).start)
        (pageNum (spanningRegion PteFlags.write).end_) \ Trie.bare.tables).card ≤
          Buddy.merging.avail s ∧
      ∃ s' t', (spanningRegion PteFlags.write).mapInto Buddy.merging.toFrameAllocator s t =
          some (.ok (), s', t', spanningRegion PteFlags.write) ∧
        ∀ va, (spanningRegion PteFlags.write).start ≤ va →
          va < (spanningRegion PteFlags.write).end_ → Sv39.walk s'.mem t'.root va = .fault := by
  obtain ⟨s, t, shows, havail⟩ := boot_table
  have room := spanning_room PteFlags.write (show 1028 ≤ Buddy.merging.avail s by omega)
  have free : Unmapped Trie.bare.leaves (pageNum (spanningRegion PteFlags.write).start)
      (pageNum (spanningRegion PteFlags.write).end_) := fun _ _ _ _ _ => rfl
  obtain ⟨s', t', place', r', heq, part⟩ := Part.mapInto shows rfl (by decide) (by decide)
    (by decide) (by decide) (by decide) free (spanning_clear PteFlags.write) room
  obtain ⟨new, ht', shows'⟩ := part.table
  refine ⟨s, t, shows, room, s', t', heq, fun va lo hi => ?_⟩
  have lo' : pageNum (spanningRegion PteFlags.write).start ≤ pageNum va := Nat.div_le_div_right lo
  have hi' : pageNum va < pageNum (spanningRegion PteFlags.write).end_ := by
    have hend : (spanningRegion PteFlags.write).end_ = (mapBase + 1025) * 4096 := by decide
    rw [show pageNum (spanningRegion PteFlags.write).end_ = mapBase + 1025 by decide]
    simp only [pageNum, pageSize]
    omega
  obtain ⟨k, -, hfind⟩ := part.laid.find_word free lo' hi'
  have hva : Sv39.Canonical va := by
    have hstart : 2 ^ 64 - 2 ^ 38 ≤ (spanningRegion PteFlags.write).start := by decide
    have hend : (spanningRegion PteFlags.write).end_ ≤ 2 ^ 64 := by decide
    exact .inr ⟨by omega, by omega⟩
  rw [ht', shows'.walk_eq hva, hfind]
  exact Sv39.verdict_write_only _ _

/-- A whole block and a page on either side, in a fresh table. -/
theorem spanning_region_mapped : ∃ (s s' : Phys Buddy.BuddyAllocator) (t t' : PageTable),
    (spanningRegion PteFlags.rw).mapInto Buddy.merging.toFrameAllocator s t =
        some (.ok (), s', t', spanningRegion PteFlags.rw) ∧
      Sv39.translate s'.mem t'.root (physToVirt 0x234567) =
        some (0x234567, PteFlags.present PteFlags.rw) := by
  obtain ⟨s, t, shows, havail⟩ := boot_table
  obtain ⟨s', t', heq, -, inside, -⟩ := Region.mapInto_linear shows
    (show (spanningRegion PteFlags.rw).backing = .linear from rfl) (by decide) (by decide)
    (by decide) (by decide)
    ⟨by decide, by decide, by decide⟩ (fun _ _ _ _ _ => rfl) (spanning_clear PteFlags.rw)
    (spanning_room PteFlags.rw (by omega))
  exact ⟨s, s', t, t', heq, inside _ (by decide) (by decide)⟩

end AlexOS
