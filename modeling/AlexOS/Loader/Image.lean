import AlexOS.Loader.Format
import AlexOS.Mm.Coalesce

/-!
# What `load` builds

`load` never panics. It succeeds exactly on the images of the format, as long as
there are frames for their pages and for the tables those need, and then the space
has the pages of the segments, with their flags, the bytes of the image and zeros
around them.
-/

namespace AlexOS.Loader

open Bytes PageTable

variable {σ : Type} {A : CountedAllocator σ} {s s' : Phys σ} {m m' : Mem} {rest : Multiset Frame}
  {image : List UInt8} {ph va : Nat} {r : Region}

/-! ## Segments in memory -/

/-- The region of a segment, with what its pages hold. -/
structure Holds (image : List UInt8) (m : Mem) (ph : Nat) (r : Region) : Prop where
  whole : r.Whole
  start : r.start = alignDown (pVaddr image ph)
  last : r.end_ = spanEnd image ph
  perm : r.perm = (segmentAt image ph).perm
  bytes : ∀ e ∈ r.frames, ∀ k < pageSize, pageByte m e.2 k = imageByte image ph (baseAddr e.1 + k)

theorem Holds.kept (h : Holds image m ph r) (kept : Kept r.owned m m') : Holds image m' ph r := by
  refine ⟨h.whole, h.start, h.last, h.perm, fun e he k hk => ?_⟩
  rw [pageByte_kept kept (Multiset.mem_coe.mpr (List.mem_map_of_mem he)) hk]
  exact h.bytes e he k hk

theorem Holds.mem_keys (h : Holds image m ph r) {v : Nat} :
    v ∈ r.frames.map Prod.fst ↔ v ∈ spanPages image ph := by
  rw [h.whole.mem_keys, spanPages, List.mem_range'_1, h.start, h.last]
  have hstart : pageNum (alignDown (pVaddr image ph)) = pageNum (pVaddr image ph) := by
    simp only [pageNum, alignDown, pageSize]
    omega
  rw [hstart]
  omega

def Loaded (image : List UInt8) (m : Mem) (phs : List Nat) (rs : List Region) : Prop :=
  List.Forall₂ (Holds image m) phs rs

theorem Loaded.kept {phs : List Nat} {rs : List Region} (h : Loaded image m phs rs)
    (kept : Kept (rs.flatMap Region.owned : List Frame) m m') : Loaded image m' phs rs := by
  induction h with
  | nil => exact .nil
  | @cons ph r phs rs h _ ih =>
    rw [List.flatMap_cons, ← Multiset.coe_add] at kept
    exact .cons (h.kept (kept.mono (Multiset.le_add_right _ _)))
      (ih (kept.mono (Multiset.le_add_left _ _)))

/-- The data of a segment, byte by byte. -/
theorem segment_data (h : Described image ph) (a : Nat) :
    (if pVaddr image ph ≤ a ∧ a < pVaddr image ph + (segmentAt image ph).data.length
      then (segmentAt image ph).data.getD (a - pVaddr image ph) 0 else 0) =
        imageByte image ph a := by
  have hlen : (segmentAt image ph).data.length = pFilesz image ph := by
    have := h.data
    simp only [segmentAt, List.length_take, List.length_drop]
    omega
  rw [hlen, imageByte]
  split
  · rename_i hin
    have : a - pVaddr image ph < pFilesz image ph := by omega
    simp [segmentAt, List.getD_eq_getElem?_getD, List.getElem?_drop, this]
  · rfl

/-! ## The loop -/

/-- One segment more: it is pushed exactly when there is room for its pages. -/
theorem push_segment {space : AddressSpace} {done : List Nat} (h : Described image ph)
    (holds : A.Holds s (space.frames + rest)) (exact : space.Exact s.mem)
    (loaded : Loaded image s.mem done space.regions) :
    ∃ region, Region.new (segmentAt image ph).vaddr (segmentAt image ph).end_ .framed
        (segmentAt image ph).perm = some region ∧
      ∃ res s' space', space.pushWithOffset A.toFrameAllocator s region
          ((segmentAt image ph).vaddr % pageSize) (segmentAt image ph).data =
            some (res, s', space') ∧
        A.Holds s' (space'.frames + rest) ∧ space'.Formed s'.mem ∧
        ((res = .ok () ∧ Region.Room A s space.table (spanPages image ph) ∧ space'.Exact s'.mem ∧
          Loaded image s'.mem (done ++ [ph]) space'.regions ∧
          ∀ vs, (∀ v ∈ vs, v < pages 256) →
            (Region.Room A s space.table (spanPages image ph ++ vs) ↔
              Region.Room A s' space'.table vs)) ∨
        (∃ e, res = .error e) ∧ ¬ Region.Room A s space.table (spanPages image ph)) := by
  obtain ⟨r, hnew, u, empty, hperm, hstart, hend⟩ :=
    Region.new_user (segmentAt image ph).vaddr h.high (segmentAt image ph).perm_lt
  have hstart : r.start = alignDown (pVaddr image ph) := hstart
  have hend : r.end_ = spanEnd image ph := hend
  have hdata : (segmentAt image ph).data.length ≤ pFilesz image ph := List.length_take_le _ _
  have hat : r.start + pVaddr image ph % pageSize = pVaddr image ph := by
    rw [hstart, alignDown]
    exact Nat.div_add_mod' _ _
  have hpages : List.range' (pageNum r.start) r.pageCount = spanPages image ph := by
    have : pageNum (alignDown (pVaddr image ph)) = pageNum (pVaddr image ph) := by
      simp only [pageNum, alignDown, pageSize]
      omega
    rw [spanPages, Region.pageCount, hstart, hend, this]
  have fits : r.start + pVaddr image ph % pageSize + (segmentAt image ph).data.length ≤ r.end_ := by
    have := h.filesz
    rw [hat, hend]
    simp only [spanEnd, nextMultipleOf, divCeil, pageSize]
    omega
  refine ⟨r, hnew, ?_⟩
  obtain ⟨res, s', space', hpush, holds', formed, out⟩ :=
    AddressSpace.pushWithOffset_room holds exact u empty
      (by rw [hstart]; exact Nat.mul_mod_left _ _) (by rw [hend]; exact Nat.mul_mod_left _ _) fits
  rw [hpages] at out
  refine ⟨res, s', space', hpush, holds', formed, ?_⟩
  rcases out with
    ⟨rfl, room, exact', kept, ⟨c, hregions, whole, cperm, cstart, cend, bytes⟩, hroom⟩ | failed
  · refine .inl ⟨rfl, room, exact', ?_, hroom⟩
    rw [hregions]
    refine List.rel_append (loaded.kept kept) (.cons ⟨whole, ?_, ?_, ?_, fun e he k hk => ?_⟩ .nil)
    · rw [cstart, hstart]
    · rw [cend, hend]
    · rw [cperm, hperm]
    · rw [bytes e he k hk, hat]
      exact segment_data h _
  · exact .inr failed

theorem spanPages_low (h : Described image ph) : ∀ v ∈ spanPages image ph, v < pages 256 := by
  intro v hv
  have := (List.mem_range'_1.mp hv).2
  have := h.high
  simp only [spanEnd, nextMultipleOf, divCeil, userMaxAddr, pageNum, pageSize, pages] at *
  omega

theorem loads_low {phs : List Nat} (readable : ∀ ph ∈ phs, Readable image ph) :
    ∀ v ∈ (phs.filter (isLoad image)).flatMap (spanPages image), v < pages 256 := by
  intro v hv
  obtain ⟨ph, hph, hv⟩ := List.mem_flatMap.mp hv
  obtain ⟨hph, hload⟩ := List.mem_filter.mp hph
  exact spanPages_low ((readable ph hph).described hload) v hv

/-- The loop takes all the headers, or gives back all it took. -/
theorem loadFrom_image {h : Header} {space : AddressSpace} {done phs is : List Nat} (brk : Nat)
    (hphs : is.map (fun i => h.phoff + i * h.phentsize) = phs)
    (holds : A.Holds s (space.frames + rest)) (exact : space.Exact s.mem)
    (loaded : Loaded image s.mem done space.regions) :
    ∃ res s', loadFrom A.toFrameAllocator image h s space brk is = some (res, s') ∧
      ((∃ space', res = .ok
          (space', ((phs.filter (isLoad image)).map (spanEnd image)).foldl max brk) ∧
        (∀ ph ∈ phs, Readable image ph) ∧
        Region.Room A s space.table ((phs.filter (isLoad image)).flatMap (spanPages image)) ∧
        A.Holds s' (space'.frames + rest) ∧ space'.Exact s'.mem ∧
        Loaded image s'.mem (done ++ phs.filter (isLoad image)) space'.regions ∧
        ∀ vs, (∀ v ∈ vs, v < pages 256) → (Region.Room A s space.table
            ((phs.filter (isLoad image)).flatMap (spanPages image) ++ vs) ↔
          Region.Room A s' space'.table vs)) ∨
      (∃ e, res = .error e) ∧ ¬ ((∀ ph ∈ phs, Readable image ph) ∧
        Region.Room A s space.table ((phs.filter (isLoad image)).flatMap (spanPages image)))) := by
  induction is generalizing s space done phs brk with
  | nil =>
    subst hphs
    refine ⟨_, s, rfl, .inl ⟨space, rfl, by simp, ⟨.nil, by simp, ?_⟩, holds, exact, ?_, ?_⟩⟩
    · simp
    · simpa using loaded
    · exact fun vs _ => Iff.rfl
  | cons i is ih =>
    subst hphs
    rw [List.map_cons, loadFrom]
    generalize h.phoff + i * h.phentsize = ph
    rcases readSegment_cases image ph with ⟨⟨e, hread⟩, bad⟩ | ⟨hread, hload, readable⟩ |
      ⟨hread, hload, readable⟩
    · obtain ⟨s', hdrop, -⟩ := AddressSpace.drop_spec exact.toFormed holds
      refine ⟨.error e, s', by simp [hread, hdrop], .inr ⟨⟨e, rfl⟩, fun hall => ?_⟩⟩
      exact bad (hall.1 ph List.mem_cons_self)
    · simp only [hread, List.filter_cons_of_neg (Bool.not_eq_true _ ▸ hload), List.forall_mem_cons,
        readable, true_and]
      exact ih brk rfl holds exact loaded
    simp only [hread, List.filter_cons_of_pos hload, List.forall_mem_cons, readable, true_and,
      List.map_cons, List.foldl_cons, List.flatMap_cons]
    obtain ⟨region, hnew, res, s₁, space₁, hpush, holds₁, formed, out⟩ :=
      push_segment (readable.described hload) holds exact loaded
    simp only [hnew, hpush, Option.bind_eq_bind, Option.bind_some]
    rcases out with ⟨rfl, room, exact₁, loaded₁, hroom⟩ | ⟨⟨e, rfl⟩, full⟩
    · obtain ⟨res, s', heq, out⟩ := ih (max brk (spanEnd image ph)) rfl holds₁ exact₁ loaded₁
      refine ⟨res, s', heq, ?_⟩
      rcases out with ⟨space', hres, hall, room', holds', exact', loaded', hroom'⟩ | ⟨failed, bad⟩
      · rw [List.append_assoc, List.singleton_append] at loaded'
        refine .inl ⟨space', hres, hall, (hroom _ (loads_low hall)).mpr room',
          holds', exact', loaded',
          fun vs low => ?_⟩
        rw [List.append_assoc, hroom _ (List.forall_mem_append.mpr ⟨loads_low hall, low⟩),
          hroom' vs low]
      · refine .inr ⟨failed, ?_⟩
        rintro ⟨hall, room'⟩
        exact bad ⟨hall, (hroom _ (loads_low hall)).mp room'⟩
    · obtain ⟨s', hdrop, -⟩ := AddressSpace.drop_spec formed holds₁
      exact ⟨.error .outOfMemory, s', by simp [hdrop], .inr ⟨⟨_, rfl⟩, fun all => full all.2.left⟩⟩

/-! ## The image -/

/-- The root, the pages, and the tables the pages need. -/
def pagesCost (vs : List Nat) : Nat := 1 + (vs.length + (vs.toFinset.biUnion tablesOf).card)

def framesFor (image : List UInt8) : Nat := pagesCost (imagePages image)

theorem pagesCost_append (vs ws : List Nat) : pagesCost vs ≤ pagesCost (vs ++ ws) := by
  have hcard : (vs.toFinset.biUnion tablesOf).card ≤
      ((vs ++ ws).toFinset.biUnion tablesOf).card := by
    apply Finset.card_le_card
    apply Finset.biUnion_subset_biUnion_of_subset_left
    rw [List.toFinset_append]
    exact Finset.subset_union_left
  rw [pagesCost, pagesCost, List.length_append]
  omega

/-- The pages of a 2 MiB block share their two tables. -/
theorem pagesCost_le_blocks {vs : List Nat} (bs : List Nat) (h : ∀ v ∈ vs, v / 512 ∈ bs) :
    pagesCost vs ≤ 1 + (vs.length + 2 * bs.length) := by
  have hsub : vs.toFinset.biUnion tablesOf ⊆ bs.toFinset.biUnion fun b =>
      {[b % 512, b / 512 % 512], [b / 512 % 512]} := by
    intro p hp
    obtain ⟨v, hv, hpv⟩ := Finset.mem_biUnion.mp hp
    have hb := List.mem_toFinset.mpr (h v (List.mem_toFinset.mp hv))
    refine Finset.mem_biUnion.mpr ⟨v / 512, hb, ?_⟩
    simpa [tablesOf, leafPath, Nat.div_div_eq_div_mul] using hpv
  have hcard := (Finset.card_le_card hsub).trans
    (Finset.card_biUnion_le_card_mul _ _ _ fun b _ => Finset.card_le_two)
  have := bs.toFinset_card_le
  rw [pagesCost]
  omega

theorem pagesCost_le (vs : List Nat) : pagesCost vs ≤ 1 + 3 * vs.length := by
  have := pagesCost_le_blocks (vs.map (· / 512)) fun v hv => List.mem_map_of_mem hv
  rw [List.length_map] at this
  omega

theorem foldl_max (xs : List Nat) (b : Nat) :
    b ≤ xs.foldl max b ∧ (∀ x ∈ xs, x ≤ xs.foldl max b) ∧
      (xs.foldl max b = b ∨ xs.foldl max b ∈ xs) := by
  induction xs generalizing b with
  | nil => simp
  | cons x xs ih =>
    obtain ⟨hb, hall, hmem⟩ := ih (max b x)
    rw [List.foldl_cons]
    refine ⟨by omega, fun y hy => ?_, ?_⟩
    · rcases List.mem_cons.mp hy with rfl | hy
      · omega
      · exact hall y hy
    · rcases hmem with e | hmem
      · rcases Nat.le_total x b with hle | hle
        · left
          rw [e, Nat.max_eq_left hle]
        · right
          rw [e, Nat.max_eq_right hle]
          exact List.mem_cons_self
      · exact .inr (List.mem_cons_of_mem x hmem)

/-- The break is past the first page exactly when there is a segment. -/
theorem brk_eq_zero (readable : ∀ ph ∈ headers image, Readable image ph) :
    ((loads image).map (spanEnd image)).foldl max 0 = 0 ↔ loads image = [] := by
  constructor
  · intro hzero
    rcases hloads : loads image with _ | ⟨ph, phs⟩
    · rfl
    have hph : ph ∈ loads image := by simp [hloads]
    obtain ⟨hmem, hload⟩ := List.mem_filter.mp hph
    have := ((readable ph hmem).described hload).low
    have := (foldl_max ((loads image).map (spanEnd image)) 0).2.1 _ (List.mem_map_of_mem hph)
    rw [hzero] at this
    simp only [spanEnd, nextMultipleOf, divCeil, pageSize] at *
    omega
  · intro hnil
    rw [hnil]
    rfl

/-- What pages of the lower half find in a new space. -/
theorem new_room_pages {space : AddressSpace} {kernel : PageTable} {vs : List Nat}
    (holds : A.Holds s rest) (hnew : AddressSpace.new A.toFrameAllocator s = (some space, s'))
    (low : ∀ v ∈ vs, v < pages 256) :
    Region.Room A (space.mapKernelHalf s' kernel) space.table vs ↔
      vs.Nodup ∧ pagesCost vs ≤ A.avail s := by
  obtain ⟨-, -, -, -, hleaf, havail, hnode⟩ := AddressSpace.new_spec kernel holds hnew
  have hmiss := missing_empty (show 256 ≤ 512 by decide) hnode low
  constructor
  · rintro ⟨nodup, -, frames⟩
    refine ⟨nodup, ?_⟩
    rw [hmiss] at frames
    rw [pagesCost]
    omega
  · rintro ⟨nodup, frames⟩
    refine ⟨nodup, fun v hv => ?_, ?_⟩
    · rw [hleaf v (low v hv)]
      rfl
    · rw [pagesCost] at frames
      rw [hmiss]
      omega

theorem new_room {space : AddressSpace} {kernel : PageTable} (holds : A.Holds s rest)
    (hnew : AddressSpace.new A.toFrameAllocator s = (some space, s'))
    (readable : ∀ ph ∈ headers image, Readable image ph) :
    Region.Room A (space.mapKernelHalf s' kernel) space.table (imagePages image) ↔
      (imagePages image).Nodup ∧ framesFor image ≤ A.avail s :=
  new_room_pages holds hnew (loads_low readable)

/-- `load` with what it leaves room for. -/
theorem load_built (kernel : PageTable) (image : List UInt8) (holds : A.Holds s rest) :
    ∃ res s', load A.toFrameAllocator s kernel image = some (res, s') ∧
      ((∃ l, res = .ok l ∧ Accepts image ∧ framesFor image ≤ A.avail s ∧
        A.Holds s' (l.space.frames + rest) ∧ l.space.Exact s'.mem ∧
        Loaded image s'.mem (loads image) l.space.regions ∧
        l.brk = ((loads image).map (spanEnd image)).foldl max 0 ∧
        ∀ vs, (∀ v ∈ vs, v < pages 256) → (Region.Room A s' l.space.table vs ↔
          (imagePages image ++ vs).Nodup ∧ pagesCost (imagePages image ++ vs) ≤ A.avail s)) ∨
      (∃ e, res = .error e) ∧ ¬ (Accepts image ∧ framesFor image ≤ A.avail s)) := by
  rw [accepts_iff]
  rcases readHeader_cases image with ⟨⟨e, hread⟩, bad⟩ | ⟨hread, identified⟩
  · exact ⟨.error e, s, by simp [load, hread], .inr ⟨⟨e, rfl⟩, fun ⟨ok, _⟩ => bad ok.1⟩⟩
  rcases hnew : AddressSpace.new A.toFrameAllocator s with ⟨_ | space, s₁⟩
  · refine ⟨.error .outOfMemory, s₁, by simp [load, hread, hnew],
      .inr ⟨⟨_, rfl⟩, fun ⟨_, room⟩ => ?_⟩⟩
    have : A.avail s = 0 := by
      rcases halloc : A.allocOrder s 0 with ⟨_ | f, s₂⟩
      · exact PageTable.avail_eq_zero holds halloc
      · simp [AddressSpace.new, PageTable.new, halloc] at hnew
    rw [framesFor, pagesCost] at room
    omega
  obtain ⟨holds₁, exact, hregions, -⟩ := AddressSpace.new_spec kernel holds hnew
  have hphs : (List.range (headerOf image).phnum).map (fun i =>
      (headerOf image).phoff + i * (headerOf image).phentsize) = headers image := rfl
  obtain ⟨res, s', heq, out⟩ := loadFrom_image 0 hphs holds₁ exact
    (show Loaded image _ [] _ by rw [hregions]; exact .nil)
  rcases out with ⟨space', rfl, readable, room, holds', exact', loaded, hroom⟩ | ⟨⟨e, rfl⟩, bad⟩
  · obtain ⟨nodup, hframes⟩ := (new_room holds hnew readable).mp room
    by_cases hloads : loads image = []
    · obtain ⟨s₂, hdrop, -⟩ := AddressSpace.drop_spec exact'.toFormed holds'
      have hbrk := (brk_eq_zero readable).mpr hloads
      rw [loads] at hbrk
      refine ⟨.error .badSegment, s₂, ?_, .inr ⟨⟨_, rfl⟩, fun ⟨ok, _⟩ => ok.2.2.1 hloads⟩⟩
      simp [load, hread, hnew, heq, hbrk, hdrop]
    · have hbrk := mt (brk_eq_zero readable).mp hloads
      rw [loads] at hbrk
      refine ⟨.ok ⟨space', (headerOf image).entry, _⟩, s', ?_, .inl ⟨_, rfl,
        ⟨identified, readable, hloads, nodup⟩, hframes, holds', exact',
          loaded, rfl, fun vs low => ?_⟩⟩
      swap
      · rw [← hroom vs low]
        exact new_room_pages holds hnew (List.forall_mem_append.mpr ⟨loads_low readable, low⟩)
      simp only [load, hread, hnew, heq, Option.bind_eq_bind, Option.bind_some]
      rw [if_neg hbrk]
      rfl
  · refine ⟨.error e, s', by simp [load, hread, hnew, heq], .inr ⟨⟨e, rfl⟩, ?_⟩⟩
    rintro ⟨⟨-, readable, -, nodup⟩, hframes⟩
    exact bad ⟨readable, (new_room holds hnew readable).mpr ⟨nodup, hframes⟩⟩

theorem load_cases (kernel : PageTable) (image : List UInt8) (holds : A.Holds s rest) :
    ∃ res s', load A.toFrameAllocator s kernel image = some (res, s') ∧
      ((∃ l, res = .ok l ∧ Accepts image ∧ framesFor image ≤ A.avail s ∧
        A.Holds s' (l.space.frames + rest) ∧ l.space.Exact s'.mem ∧
        Loaded image s'.mem (loads image) l.space.regions ∧
        l.brk = ((loads image).map (spanEnd image)).foldl max 0) ∨
      (∃ e, res = .error e) ∧ ¬ (Accepts image ∧ framesFor image ≤ A.avail s)) := by
  obtain ⟨res, s', heq, out⟩ := load_built kernel image holds
  refine ⟨res, s', heq, out.imp_left ?_⟩
  rintro ⟨l, hl, accepts, hframes, holds', exact, loaded, hbrk, -⟩
  exact ⟨l, hl, accepts, hframes, holds', exact, loaded, hbrk⟩

/-- A page for the user, with just the access that `p_flags` asks for. -/
structure Granted (flags pte : Nat) : Prop where
  user : PteFlags.contains (Pte.flags pte) PteFlags.user = true
  read : PteFlags.contains (Pte.flags pte) PteFlags.read = true ↔ flags &&& pfR ≠ 0
  write : PteFlags.contains (Pte.flags pte) PteFlags.write = true ↔ flags &&& pfW ≠ 0
  exec : PteFlags.contains (Pte.flags pte) PteFlags.exec = true ↔ flags &&& pfX ≠ 0

theorem granted (ppn : Nat) (g : Segment) :
    Granted g.flags (Pte.new ppn (PteFlags.present g.perm)) := by
  have hflags := Pte.flags_new ppn (PteFlags.present_lt g.perm_lt)
  rw [Segment.perm] at hflags
  refine ⟨?_, ?_, ?_, ?_⟩ <;> rw [Segment.perm, hflags]
  all_goals split <;> split <;> split <;> simp_all <;> decide

theorem Loaded.region {phs : List Nat} {rs : List Region} (h : Loaded image m phs rs)
    (hph : ph ∈ phs) (hva : InSpan image ph va) :
    ∃ r ∈ rs, Holds image m ph r ∧ ∃ f, (pageNum va, f) ∈ r.frames := by
  obtain ⟨r, hr, holds⟩ := forall₂_mem_left h hph
  obtain ⟨⟨_, f⟩, he, rfl⟩ := List.mem_map.mp (holds.mem_keys.mpr (inSpan_iff.mp hva))
  exact ⟨r, hr, holds, f, he⟩

/-- `load` returns for every image. It succeeds exactly on the images of the format
that there are frames for, and then maps the pages of their segments and no others. -/
theorem load_image (kernel : PageTable) (image : List UInt8) (holds : A.Holds s rest) :
    ∃ res s', load A.toFrameAllocator s kernel image = some (res, s') ∧
      ((∃ l, res = .ok l) ↔ Accepts image ∧ framesFor image ≤ A.avail s) ∧
      ∀ l, res = .ok l →
        (∀ va < userMaxAddr, (∀ ph ∈ loads image, ¬ InSpan image ph va) →
          translate s'.mem l.space.table (pageNum va) = none) ∧
        (∀ ph ∈ loads image, ∀ va, InSpan image ph va →
          (∃ e, translate s'.mem l.space.table (pageNum va) = some e ∧
            Granted (pFlags image ph) e) ∧
          l.space.byteAt s'.mem va = some (imageByte image ph va)) ∧
        translate s'.mem l.space.table 0 = none ∧
        (∃ ph ∈ loads image, l.brk = spanEnd image ph) ∧
        ∀ ph ∈ loads image, spanEnd image ph ≤ l.brk := by
  obtain ⟨res, s', heq, out⟩ := load_cases kernel image holds
  refine ⟨res, s', heq, ?_⟩
  rcases out with ⟨l, rfl, accepts, room, holds', exact, loaded, hbrk⟩ | ⟨⟨e, rfl⟩, bad⟩
  case inr => exact ⟨by simpa using bad, by simp⟩
  refine ⟨⟨fun _ => ⟨accepts, room⟩, fun _ => ⟨l, rfl⟩⟩, ?_⟩
  intro l' hl
  obtain rfl := Except.ok.inj hl
  have hnone : ∀ va < userMaxAddr, (∀ ph ∈ loads image, ¬ InSpan image ph va) →
      translate s'.mem l.space.table (pageNum va) = none := by
    intro va hva hout
    refine exact.translate_none (pageNum_low hva) fun r hr hkey => ?_
    obtain ⟨ph, hph, hold⟩ := forall₂_mem_right loaded hr
    exact hout ph hph (inSpan_iff.mpr (hold.mem_keys.mp hkey))
  refine ⟨hnone, fun ph hph va hva => ?_, ?_, ?_⟩
  · obtain ⟨r, hr, hold, f, he⟩ := loaded.region hph hva
    constructor
    · refine ⟨_, exact.translate_page hr he, ?_⟩
      rw [hold.perm]
      exact granted _ (segmentAt image ph)
    · have hbyte : pageByte s'.mem f (pageOffset va) =
          imageByte image ph (baseAddr (pageNum va) + pageOffset va) :=
        hold.bytes (pageNum va, f) he _ (Nat.mod_lt _ (by decide))
      rw [exact.byteAt_page hr he, hbyte, baseAddr, pageNum, pageOffset, Nat.div_add_mod']
  · refine hnone 0 (by decide) fun ph hph hin => ?_
    have := (accepts.described ph hph).low
    have := hin.1
    simp only [alignDown, pageSize] at *
    omega
  · obtain ⟨-, hle, hmem⟩ := foldl_max ((loads image).map (spanEnd image)) 0
    rw [← hbrk] at hle hmem
    refine ⟨?_, fun ph hph => hle _ (List.mem_map_of_mem hph)⟩
    rcases hmem with hzero | hmem
    · have hzero := hbrk.symm.trans hzero
      rw [brk_eq_zero (accepts_iff.mp accepts).2.1] at hzero
      exact absurd hzero accepts.segment
    · obtain ⟨ph, hph, he⟩ := List.mem_map.mp hmem
      exact ⟨ph, hph, he.symm⟩

/-- One `ecall` in a page of its own at `0x1000`. -/
def smallImage : List UInt8 :=
  [0x7f, 0x45, 0x4c, 0x46, 2, 1, 1, 0, 0, 0, 0, 0, 0, 0, 0, 0,
    2, 0, 243, 0, 1, 0, 0, 0, 0, 0x10, 0, 0, 0, 0, 0, 0,
    64, 0, 0, 0, 0, 0, 0, 0, 0, 0, 0, 0, 0, 0, 0, 0,
    0, 0, 0, 0, 64, 0, 56, 0, 1, 0, 0, 0, 0, 0, 0, 0,
    1, 0, 0, 0, 5, 0, 0, 0, 120, 0, 0, 0, 0, 0, 0, 0,
    0, 0x10, 0, 0, 0, 0, 0, 0, 0, 0x10, 0, 0, 0, 0, 0, 0,
    4, 0, 0, 0, 0, 0, 0, 0, 4, 0, 0, 0, 0, 0, 0, 0,
    0, 0x10, 0, 0, 0, 0, 0, 0, 0x73, 0, 0, 0]

theorem smallImage_length : smallImage.length = 124 := rfl

theorem smallImage_loads : loads smallImage = [64] := by decide

theorem accepts_one (identified : Identified image) (hheaders : headers image = [ph])
    (hload : isLoad image ph = true) (described : Described image ph) : Accepts image := by
  have hloads : loads image = [ph] := by
    rw [loads, hheaders, List.filter_singleton, hload, cond_true]
  have inside := described.inside
  refine ⟨identified, ?_, ?_, ?_, ?_⟩
  · rw [hheaders]
    simp only [List.mem_singleton, forall_eq]
    omega
  · rw [hloads]
    simp
  · rw [hloads]
    simpa using described
  · rw [hloads]
    exact List.pairwise_singleton _ _

theorem smallImage_accepts : Accepts smallImage :=
  accepts_one
    ⟨by rw [smallImage_length]; decide, by decide, by decide, by decide, by decide, by decide⟩
    (show headers smallImage = [64] by decide) (by decide)
    ⟨by rw [smallImage_length]; decide, by decide, by decide, by decide,
      by rw [smallImage_length]; decide⟩

theorem smallImage_frames : framesFor smallImage = 4 := by
  have hpages : imagePages smallImage = [1] := by decide
  rw [framesFor, hpages]
  decide

theorem smallImage_loaded : ∃ (s s' : Buddy.State) (l : LoadedImage),
    load Buddy.merging.toFrameAllocator s ⟨0, []⟩ smallImage = some (.ok l, s') ∧ l.brk = 0x2000 ∧
      l.space.byteAt s'.mem 0x1000 = some 0x73 ∧ l.space.byteAt s'.mem 0x1004 = some 0 := by
  obtain ⟨s, -, holds, havail⟩ := Buddy.merging_boot
  obtain ⟨res, s', heq, hok, hbuilt⟩ := load_image ⟨0, []⟩ smallImage holds
  obtain ⟨l, rfl⟩ := hok.mpr ⟨smallImage_accepts, by rw [smallImage_frames, havail]; decide⟩
  obtain ⟨-, hbytes, -, ⟨ph, hph, hbrk⟩, -⟩ := hbuilt l rfl
  rw [smallImage_loads] at hbytes hph
  obtain rfl := List.mem_singleton.mp hph
  have hin : ∀ va, 0x1000 ≤ va → va < 0x2000 → InSpan smallImage 64 va := fun va lo hi => ⟨lo, hi⟩
  refine ⟨s, s', l, heq, hbrk.trans (by decide), ?_, ?_⟩
  · exact (hbytes 64 (by simp) 0x1000 (hin _ (by decide) (by decide))).2.trans (by decide)
  · exact (hbytes 64 (by simp) 0x1004 (hin _ (by decide) (by decide))).2.trans (by decide)

end AlexOS.Loader
