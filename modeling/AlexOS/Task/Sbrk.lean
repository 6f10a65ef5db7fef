import AlexOS.Mm.Coalesce
import AlexOS.Task.Ownership

/-!
# A break that could not be moved

`adjust_brk` answers `None` when the new break is out of range or when a page of
the heap could not be mapped. In the second case the region is dropped with the
pages it got, but their entries are not taken out of the table: the call is
without effect exactly when it fails before its first page.
-/

namespace AlexOS

open Bytes PageTable

variable {σ : Type} {A : CountedAllocator σ} {s s' : Phys σ} {rest : Multiset Frame}
  {sp : AddressSpace} {p p' : Process}

/-- A process with a space, which need not be exact: an earlier call may have
left entries behind. -/
structure Process.Formed (A : CountedAllocator σ) (s : Phys σ) (p : Process) (sp : AddressSpace)
    (rest : Multiset Frame) : Prop where
  space : p.space = some sp
  holds : A.Holds s (p.frames + rest)
  formed : sp.Formed s.mem

/-- What the table of a process says about a page. -/
def Process.translate (m : Mem) (p : Process) (v : Nat) : Option Nat :=
  p.space.bind fun sp => PageTable.translate m sp.table v

/-- Enough frames are free for the heap to reach `new`, tables included. -/
def Process.RoomFor (A : CountedAllocator σ) (s : Phys σ) (p : Process) (new : Nat) : Prop :=
  ∀ sp, p.space = some sp →
    let count := pageNum (nextMultipleOf new pageSize) - pageNum p.heapTop
    count + (missing s.mem sp.table.root (List.range' (pageNum p.heapTop) count)).card ≤ A.avail s

/-- The pages between the top of the heap and `new` have no mapping. -/
def Process.Unmapped (m : Mem) (p : Process) (new : Nat) : Prop :=
  ∀ v, pageNum p.heapTop ≤ v → v < pageNum (nextMultipleOf new pageSize) → p.translate m v = none

/-- A call that was refused and has left nothing behind. -/
structure Process.Untouched (A : CountedAllocator σ) (s : Phys σ) (p : Process) (s' : Phys σ)
    (p' : Process) (rest : Multiset Frame) : Prop where
  brk : p'.brk = p.brk
  heapTop : p'.heapTop = p.heapTop
  translate : ∀ v, v < pages 256 → p'.translate s'.mem v = p.translate s.mem v
  /-- Only page tables were added to what is handed out. -/
  frames : ∃ sp sp', p.space = some sp ∧ p'.space = some sp' ∧ sp'.owned = sp.owned ∧
    sp.table.frames <+: sp'.table.frames ∧ p'.kstack = p.kstack ∧ A.Holds s' (p'.frames + rest)
  /-- Any later request for pages that were unmapped is met if the frames suffice. -/
  later : ∀ delta new, newBreak p' delta = some new → p.Unmapped s.mem new →
    p'.RoomFor A s' new →
    ∃ s'' p'', adjustBrk A.toFrameAllocator s' p' delta = some (some p.brk, s'', p'')

theorem Process.Formed.space_holds (h : p.Formed A s sp rest) :
    A.Holds s (sp.frames + (p.kstack ::ₘ rest)) := by
  have := h.holds
  rw [Process.frames, h.space, Option.elim_some, Multiset.cons_add, ← Multiset.add_cons] at this
  exact this

/-- With its image prepared, `exec` goes through. -/
theorem Process.Formed.execCurrent_ok (h : p.Formed A s sp rest) {kernel : PageTable}
    {image : List UInt8} {args : List (List UInt8)} {i : Prepared}
    (hprep : prepare A.toFrameAllocator s kernel image args = some (.ok i, s')) :
    ∃ s'', execCurrent A.toFrameAllocator s kernel p image args = some (.ok i, s'') ∧
      Kept i.space.frames s'.mem s''.mem := by
  obtain ⟨⟨holds, -⟩, kept⟩ := prepare_spec h.space_holds hprep
  have keptT : Kept sp.table.frames s.mem s'.mem :=
    kept.mono ((Multiset.le_add_right _ _).trans (Multiset.le_add_right _ _))
  rw [add_left_comm] at holds
  obtain ⟨s'', hdrop, -, kept'⟩ := AddressSpace.drop_spec (h.formed.kept keptT) holds
  exact ⟨s'', by simp [execCurrent, hprep, h.space, hdrop], kept'.mono (Multiset.le_add_right _ _)⟩

theorem Process.Formed.translate_eq (h : p.Formed A s sp rest) {v : Nat} (hv : v < pages 256) :
    p.translate s.mem v =
      if Pte.isValid (leaf s.mem sp.table.root v) then some (leaf s.mem sp.table.root v)
      else none := by
  rw [Process.translate, h.space, Option.bind_some, PageTable.translate_eq h.formed.tree hv]

theorem newBreak_pages {delta : Int} {new : Nat} (h : newBreak p delta = some new) :
    pageNum (nextMultipleOf new pageSize) ≤ pages 256 := by
  have := newBreak_lt h
  simp only [userMaxAddr, pageNum, pageSize, pages] at *
  omega

/-- A request for unmapped pages is met when the frames suffice. -/
theorem Process.Formed.adjustBrk_some (h : p.Formed A s sp rest) {delta : Int} {new : Nat}
    (hnew : newBreak p delta = some new) (unmapped : p.Unmapped s.mem new)
    (room : p.RoomFor A s new) :
    ∃ s' p', adjustBrk A.toFrameAllocator s p delta = some (some p.brk, s', p') := by
  rcases adjustBrk_cases A.toFrameAllocator s p delta with ⟨res, brk, heq, out, -⟩ |
    ⟨sp', new', r, hspace, -, hnew', -, hr, heq⟩
  · rcases out with ⟨-, -, none | none⟩ | rfl
    · rw [hnew] at none
      cases none
    · rw [h.space] at none
      cases none
    · exact ⟨_, _, heq⟩
  obtain rfl := Option.some.inj (h.space.symm.trans hspace)
  obtain rfl := Option.some.inj (hnew.symm.trans hnew')
  obtain ⟨res, s', sp', _, hpush, -, -, -, -, -, -, -, out⟩ :=
    AddressSpace.push_leaves h.space_holds h.formed hr.user hr.empty
  rcases out with ⟨rfl, -⟩ | ⟨_, -, nofit, -⟩
  · rw [hpush] at heq
    exact ⟨_, _, heq⟩
  · refine absurd ⟨fun v lo hi => ?_, ?_⟩ nofit
    · rw [hr.first] at lo
      rw [hr.first, hr.count] at hi
      have hlast := newBreak_pages hnew
      have hnone := unmapped v lo (by omega)
      rw [h.translate_eq (by omega)] at hnone
      split at hnone
      · cases hnone
      · exact Bool.eq_false_iff.mpr ‹_›
    · rw [hr.first, hr.count]
      exact room sp h.space

/-- A process whose table reads the same as before is untouched. -/
theorem Process.Formed.untouched (h : p.Formed A s sp rest) {sp' : AddressSpace}
    (h' : Process.Formed A s' { p with space := some sp' } sp' rest)
    (regions : sp'.regions = sp.regions) (frames : sp.table.frames <+: sp'.table.frames)
    (same : ∀ v, v < pages 256 → leaf s'.mem sp'.table.root v = leaf s.mem sp.table.root v) :
    p.Untouched A s s' { p with space := some sp' } rest := by
  have translate : ∀ v, v < pages 256 →
      Process.translate s'.mem { p with space := some sp' } v = p.translate s.mem v := by
    intro v hv
    rw [h.translate_eq hv, h'.translate_eq hv, same v hv]
  refine ⟨rfl, rfl, translate, ⟨sp, sp', h.space, rfl, ?_, frames, rfl, h'.holds⟩, ?_⟩
  · rw [AddressSpace.owned, AddressSpace.owned, regions]
  · intro delta new hnew unmapped room
    refine h'.adjustBrk_some hnew (fun v lo hi => ?_) room
    rw [translate v (Nat.lt_of_lt_of_le hi (newBreak_pages hnew))]
    exact unmapped v lo hi

/-- A request that needs pages: it is met when they fit, and otherwise leaves the
entries of the pages it got. -/
theorem Process.Formed.grow_cases (h : p.Formed A s sp rest) {delta : Int} {new : Nat}
    (hzero : delta ≠ 0) (hnew : newBreak p delta = some new) (htop : p.heapTop < new) :
    (Whole A s p delta ↔
      Region.Fits A s sp.table (pageNum p.heapTop)
        (pageNum (nextMultipleOf new pageSize) - pageNum p.heapTop) ∨
      Region.Refused A s sp.table (pageNum p.heapTop)) ∧
    ((Region.Fits A s sp.table (pageNum p.heapTop)
        (pageNum (nextMultipleOf new pageSize) - pageNum p.heapTop) ∧
      ∃ s' p', adjustBrk A.toFrameAllocator s p delta = some (some p.brk, s', p')) ∨
    ¬ Region.Fits A s sp.table (pageNum p.heapTop)
        (pageNum (nextMultipleOf new pageSize) - pageNum p.heapTop) ∧
      ∃ s' sp' k, adjustBrk A.toFrameAllocator s p delta =
          some (none, s', { p with space := some sp' }) ∧
        Process.Formed A s' { p with space := some sp' } sp' rest ∧ sp'.regions = sp.regions ∧
        sp.table.frames <+: sp'.table.frames ∧ sp'.table.root = sp.table.root ∧
        (k = 0 ↔ Region.Refused A s sp.table (pageNum p.heapTop)) ∧
        (∀ v, pageNum p.heapTop ≤ v → v < pageNum p.heapTop + k → v < pages 256 ∧
          Pte.isValid (leaf s.mem sp.table.root v) = false ∧
          Pte.isValid (leaf s'.mem sp.table.root v) = true) ∧
        ∀ v, v < pages 256 → v < pageNum p.heapTop ∨ pageNum p.heapTop + k ≤ v →
          leaf s'.mem sp.table.root v = leaf s.mem sp.table.root v) := by
  rcases adjustBrk_cases A.toFrameAllocator s p delta with ⟨_, _, -, -, nogrow⟩ |
    ⟨sp₀, new₀, r, hspace, -, hnew₀, -, hr, heq⟩
  · exact absurd htop (nogrow sp new h.space hzero hnew)
  obtain rfl := Option.some.inj (h.space.symm.trans hspace)
  obtain rfl := Option.some.inj (hnew.symm.trans hnew₀)
  obtain ⟨res, s', sp', fresh, hpush, holds, formed, -, root, keys, entries, others, out⟩ :=
    AddressSpace.push_leaves h.space_holds h.formed hr.user hr.empty
  rw [hr.first, hr.count] at out
  rw [hpush] at heq
  rw [hr.first] at keys
  constructor
  · refine ⟨fun hw => hw sp new h.space hzero hnew htop, fun hor sp₁ new₁ hsp₁ _ hnew₁ _ => ?_⟩
    obtain rfl := Option.some.inj (h.space.symm.trans hsp₁)
    obtain rfl := Option.some.inj (hnew.symm.trans hnew₁)
    exact hor
  rcases out with ⟨rfl, fits, -⟩ | ⟨e, rfl, nofit, hrefused, regions⟩
  · exact .inl ⟨fits, _, _, heq⟩
  have mem_fresh : ∀ v, v ∈ fresh.map Prod.fst ↔
      pageNum p.heapTop ≤ v ∧ v < pageNum p.heapTop + fresh.length := by
    intro v
    rw [keys, List.mem_range'_1]
  refine .inr ⟨nofit, s', sp', fresh.length, heq, ⟨rfl, ?_, formed⟩, regions,
    AddressSpace.push_frames hpush, root, by rw [List.length_eq_zero_iff, hrefused],
    fun v lo hi => ?_, fun v hv out => others v hv (by rw [mem_fresh]; omega)⟩
  · rw [Process.frames, Option.elim_some, Multiset.cons_add, ← Multiset.add_cons]
    exact holds
  · obtain ⟨e, he, rfl⟩ := List.mem_map.mp ((mem_fresh v).mpr ⟨lo, hi⟩)
    obtain ⟨hlow, hfree, hword⟩ := entries e he
    exact ⟨hlow, hfree, by rw [hword]; exact Pte.isValid_present _ _⟩

theorem sbrk_untouched_iff (h : p.Formed A s sp rest) (delta : Int) :
    ∃ res s' p', adjustBrk A.toFrameAllocator s p delta = some (res, s', p') ∧
      ((res = none → p.Untouched A s s' p' rest) ↔ Whole A s p delta) := by
  rcases adjustBrk_cases A.toFrameAllocator s p delta with ⟨res, brk, heq, out, nogrow⟩ |
    ⟨sp₀, new, r, hspace, hzero, hnew, htop, -, -⟩
  · refine ⟨res, s, _, heq, fun _ sp' new hsp hne hnew hlt => ?_, fun _ hnone => ?_⟩
    · exact absurd hlt (nogrow sp' new hsp hne hnew)
    · rcases out with ⟨-, rfl, -⟩ | rfl
      · have same : { p with space := some sp } = p := by rw [← h.space]
        have h' : Process.Formed A s { p with space := some sp } sp rest := by rwa [same]
        have := h.untouched h' rfl List.prefix_rfl fun _ _ => rfl
        rw [same] at this
        exact this
      · cases hnone
  obtain ⟨whole_iff, ⟨fits, s', p', heq⟩ |
    ⟨nofit, s', sp', k, heq, h', regions, frames, root, hrefused, entries, others⟩⟩ :=
    h.grow_cases hzero hnew htop
  · exact ⟨_, _, _, heq, fun _ => whole_iff.mpr (.inl fits), fun _ hnone => by cases hnone⟩
  refine ⟨_, _, _, heq, fun hclean => whole_iff.mpr (.inr (hrefused.mp ?_)), fun hw _ => ?_⟩
  · by_contra hk
    obtain ⟨hlow, hfree, hvalid⟩ := entries (pageNum p.heapTop) (Nat.le_refl _) (by omega)
    have same := (hclean rfl).translate _ hlow
    rw [h.translate_eq hlow, h'.translate_eq hlow, root, hfree, if_pos hvalid] at same
    cases same
  · obtain rfl : k = 0 := hrefused.mpr ((whole_iff.mp hw).resolve_left nofit)
    refine h.untouched h' regions frames fun v hv => ?_
    rw [root]
    exact others v hv (by omega)

/-! ## A process without an image after boot -/

theorem fresh_managed : ∃ (s : Buddy.State) (p : Process) (sp : AddressSpace),
    p.Formed Buddy.dram s sp 0 ∧ p.brk = userHeapBase ∧ p.heapTop = userHeapBase ∧
      (∀ v, v < pages 256 → leaf s.mem sp.table.root v = 0) ∧
      Buddy.dram.avail s = 0x77f7 := by
  obtain ⟨s₀, -, holds₀, havail₀⟩ := Buddy.dram_boot
  obtain ⟨f, s₁, halloc, -⟩ := Buddy.dram.alloc_one holds₀ (by rw [havail₀]; decide)
  have hnew : AddressSpace.new Buddy.dram.toFrameAllocator s₀ = (some ⟨⟨f.ppn, [f]⟩, []⟩, s₁) := by
    simp only [AddressSpace.new, PageTable.new, halloc]
  obtain ⟨holds₁, exact, -, -, zero, havail₁, -⟩ := AddressSpace.new_spec ⟨0, []⟩ holds₀ hnew
  generalize AddressSpace.mapKernelHalf s₁ _ _ = s₂ at *
  rw [add_zero] at holds₁
  have order : f.order = 0 := (Buddy.dram.alloc_some holds₀ halloc).1
  have havail₂ : Buddy.merging.avail s₂ + 1 = 0x7800 := havail₁.trans havail₀
  obtain ⟨k, s₃, hstack⟩ := Buddy.merging_room (k := 3) holds₁.1 (by decide) (by
    simp only [AddressSpace.frames, AddressSpace.owned, List.flatMap_nil,
      Multiset.coe_nil, add_zero,
      Multiset.map_coe, List.map_cons, List.map_nil, Multiset.sum_coe, List.sum_cons, List.sum_nil,
      Frame.count, order]
    omega)
  obtain ⟨horder, holds₃, kept, -⟩ := Buddy.dram.alloc_some holds₁ hstack
  have havail₃ := Buddy.dram.alloc_avail holds₁ hstack
  rw [Frame.count, horder] at havail₃
  have keptT := kept.mono (Multiset.le_add_right _ _)
  refine ⟨s₃, ⟨1, .user 0, some ⟨⟨f.ppn, [f]⟩, []⟩, 0, k, userHeapBase, userHeapBase, 0, none, []⟩,
    _, ⟨rfl, ?_, exact.toFormed.kept keptT⟩, rfl, rfl, fun v hv => ?_, by omega⟩
  · rw [Process.frames, Option.elim_some, add_zero]
    exact holds₃
  · rw [exact.tree.leaf_kept keptT hv]
    exact zero v hv

theorem fresh_process : ∃ (s : Buddy.State) (p : Process) (sp : AddressSpace),
    p.Formed Buddy.merging s sp 0 ∧ p.brk = userHeapBase ∧ p.heapTop = userHeapBase ∧
      (∀ v, v < pages 256 → leaf s.mem sp.table.root v = 0) ∧
      Buddy.merging.avail s = 0x77f7 := by
  obtain ⟨s, p, sp, h, hbrk, htop, zero, havail⟩ := fresh_managed
  exact ⟨s, p, sp, ⟨h.space, h.holds.1, h.formed⟩, hbrk, htop, zero, havail⟩

theorem sbrk_one_page : ∃ (s : Buddy.State) (p : Process) (res : Option Nat) (s' : Buddy.State)
    (p' : Process), adjustBrk Buddy.merging.toFrameAllocator s p 0x1000 = some (res, s', p') ∧
      ((res = none → p.Untouched Buddy.merging s s' p' 0) ↔ Whole Buddy.merging s p 0x1000) := by
  obtain ⟨s, p, sp, h, -⟩ := fresh_process
  obtain ⟨res, s', p', heq, iff⟩ := sbrk_untouched_iff h 0x1000
  exact ⟨s, p, res, s', p', heq, iff⟩

theorem newBreak_base {delta : Nat} (hbrk : p.brk = userHeapBase) (h : delta ≤ 0x8000000) :
    newBreak p delta = some (userHeapBase + delta) := by
  rw [newBreak, hbrk, if_pos]
  · rfl
  · simp only [userHeapBase, userMaxAddr]
    omega

/-- A request for more than there is fails at some page, the first page of the
heap stays mapped, and no request for it is met any more. -/
theorem sbrk_leaves_page : ∃ (s s' s'' : Buddy.State) (p p' p'' : Process) (sp : AddressSpace),
    p.Formed Buddy.merging s sp 0 ∧
      adjustBrk Buddy.merging.toFrameAllocator s p 0x8000000 = some (none, s', p') ∧
      p.translate s.mem 0x10000 = none ∧ p'.translate s'.mem 0x10000 ≠ none ∧
      0x1000 ≤ Buddy.merging.avail s ∧
      adjustBrk Buddy.merging.toFrameAllocator s' p' 0x1000 = some (none, s'', p'') := by
  obtain ⟨s, p, sp, h, hbrk, htop, zero, havail⟩ := fresh_process
  have hnew := newBreak_base hbrk (Nat.le_refl 0x8000000)
  obtain ⟨-, ⟨fits, -⟩ | ⟨-, s', sp', k, heq, h', -, -, root, hrefused, entries, -⟩⟩ :=
    h.grow_cases (by decide) hnew (by rw [htop]; decide)
  · have := fits.2
    rw [htop, havail] at this
    exact absurd this (by
      simp only [pageNum, nextMultipleOf, divCeil, userHeapBase, pageSize]
      omega)
  rw [htop] at hrefused entries
  have hk : k ≠ 0 := by
    rw [Ne, hrefused]
    rintro (hvalid | hlow)
    · rw [zero _ (by decide)] at hvalid
      cases hvalid
    · rw [card_missing, havail, tableCost, tableCost] at hlow
      split at hlow <;> split at hlow <;> omega
  obtain ⟨hlow, hfree, hvalid⟩ := entries 0x10000 (by decide) (by
    simp only [pageNum, userHeapBase, pageSize]
    omega)
  obtain ⟨-, ⟨fits, -⟩ | ⟨-, s'', sp'', -, heq', -⟩⟩ :=
    h'.grow_cases (show (0x1000 : Int) ≠ 0 by decide)
      (newBreak_base hbrk (show 0x1000 ≤ 0x8000000 by decide)) (by rw [htop]; decide)
  · have := fits.1 0x10000 (by rw [htop]; decide) (by rw [htop]; decide)
    rw [root, hvalid] at this
    cases this
  refine ⟨s, s', s'', p, _, _, sp, h, heq, ?_, ?_, by rw [havail]; decide, heq'⟩
  · rw [h.translate_eq hlow, hfree]
    rfl
  · rw [h'.translate_eq hlow, root, if_pos hvalid]
    exact Option.some_ne_none _

end AlexOS
