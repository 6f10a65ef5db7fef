import AlexOS.Mm.KernelHeap

/-!
# The heap's books

Free blocks and live blocks together are the blocks of the frames the heap holds, each
once. Every operation moves blocks from one side to the other, or adds and removes them with
the frames they lie in; the two counters are the total lengths of the sides.
-/

namespace AlexOS.KernelHeap

open Bytes Checked Buddy Spans Thread Blocks

/-- What a caller holds. -/
structure Block where
  ptr : Nat
  layout : Layout

/-- The class size, or the bytes of the run. -/
def Layout.bytes (layout : Layout) : Nat :=
  match layout.classFor with
  | none => runBytes layout.order
  | some c => classSize c

def Block.span (b : Block) : Span := ⟨b.ptr, b.layout.bytes⟩

def Slab.frame (slab : Slab) : Frame := ⟨slab.ppn, 0⟩

def Slab.spans (slab : Slab) : Multiset Span :=
  pieces (asPtr slab.ppn) (classSize slab.cls) (pageSize / classSize slab.cls)

def runSpan (f : Frame) : Span := ⟨asPtr f.ppn, runBytes f.order⟩

/-- Frames held from the buddy allocator. -/
def Ledger.held (l : Ledger) : Multiset Frame := l.slabs.map Slab.frame + l.runs

def Ledger.spans (l : Ledger) : Multiset Span := l.slabs.bind Slab.spans + l.runs.map runSpan

def classSpans (c : Class) (xs : List Nat) : Multiset Span :=
  (xs.map fun p => ⟨p, classSize c⟩ : List Span)

def freeSpans (F : Class → List Nat) : Multiset Span := ∑ c, classSpans c (F c)

/-- `live` are the callers' blocks, `rest` the frames others hold, and `F` what each of the
nine lists visits. -/
structure Books (h : Heap) (live : Multiset Block) (rest : Multiset Frame)
    (F : Class → List Nat) : Prop where
  buddy : ∃ L, Inv h.phys (h.ledger.held + rest) L
  window : h.phys.pool.base + h.phys.pool.frames ≤ 2 ^ 26
  threaded : ∀ c, Threaded (link h.phys.mem) null (h.free c) (F c)
  tiled : freeSpans F + live.map Block.span = h.ledger.spans
  aligned : ∀ b ∈ live, b.layout.classFor = none → b.layout.align ≤ pageSize
  allocated : h.allocated = bytes (live.map Block.span)
  reserved : h.reserved = pageSize * (h.ledger.held.map Frame.count).sum

theorem Books.of {mem : Mem} {pool : BuddyAllocator} {free : Class → Nat} {allocated reserved : Nat}
    {ledger : Ledger} {live : Multiset Block} {rest : Multiset Frame} {F : Class → List Nat}
    (buddy : ∃ L, Inv ⟨mem, pool⟩ (ledger.held + rest) L)
    (window : pool.base + pool.frames ≤ 2 ^ 26)
    (threaded : ∀ c, Threaded (link mem) null (free c) (F c))
    (tiled : freeSpans F + live.map Block.span = ledger.spans)
    (aligned : ∀ b ∈ live, b.layout.classFor = none → b.layout.align ≤ pageSize)
    (hallocated : allocated = bytes (live.map Block.span))
    (hreserved : reserved = pageSize * (ledger.held.map Frame.count).sum) :
    Books ⟨⟨mem, pool⟩, free, allocated, reserved, ledger⟩ live rest F :=
  ⟨buddy, window, threaded, tiled, aligned, hallocated, hreserved⟩

/-! ## Spans -/

theorem freeSpans_append (F : Class → List Nat) (c : Class) (xs : List Nat) :
    freeSpans (Function.update F c (xs ++ F c)) = classSpans c xs + freeSpans F := by
  rw [freeSpans, freeSpans, ← Finset.add_sum_erase _ _ (Finset.mem_univ c),
    ← Finset.add_sum_erase Finset.univ (fun c => classSpans c (F c)) (Finset.mem_univ c),
    Function.update_self, ← add_assoc]
  congr 1
  · simp [classSpans]
  · refine Finset.sum_congr rfl fun d hd => ?_
    rw [Function.update_of_ne (Finset.ne_of_mem_erase hd)]

theorem freeSpans_cons {F : Class → List Nat} {c : Class} {p : Nat} {xs : List Nat}
    (h : F c = p :: xs) :
    freeSpans F = ⟨p, classSize c⟩ ::ₘ freeSpans (Function.update F c xs) := by
  have := freeSpans_append (Function.update F c xs) c [p]
  rw [Function.update_self, Function.update_idem] at this
  rw [show Function.update F c ([p] ++ xs) = F by simp [← h]] at this
  exact this

theorem mem_freeSpans {F : Class → List Nat} {s : Span} :
    s ∈ freeSpans F ↔ ∃ c, s.start ∈ F c ∧ s.len = classSize c := by
  obtain ⟨p, n⟩ := s
  simp [freeSpans, classSpans, Multiset.mem_sum, eq_comm]

theorem page_cut (c : Class) : pageSize / classSize c * classSize c = pageSize :=
  Nat.div_mul_cancel (classSize_dvd_page c)

theorem bytes_spans (l : Ledger) : bytes l.spans = pageSize * (l.held.map Frame.count).sum := by
  have hslab : ∀ sl : Slab, bytes sl.spans = pageSize := fun sl => by
    rw [Slab.spans, bytes_pieces, page_cut]
  rw [Ledger.spans, Ledger.held, bytes_add, bytes_bind, Multiset.map_add, Multiset.sum_add,
    Nat.mul_add, bytes]
  simp only [hslab, Multiset.map_map, ← Multiset.sum_map_mul_left]
  rfl

/-- A run seen through the direct map. -/
theorem covers_run {f : Frame} (h : f.ppn < 2 ^ 26) (a : Nat) :
    (runSpan f).covers (a + virtOffset) = cover f.order f.ppn (pageNum a) := by
  rw [runSpan, Span.covers, asPtr_eq h]
  refine if_congr ?_ rfl rfl
  simp only [runBytes, baseAddr, pageNum, pageSize]
  omega

theorem covers_run_low {f : Frame} (h : f.ppn < 2 ^ 26) {a : Nat} (ha : a < virtOffset) :
    (runSpan f).covers a = 0 := by
  rw [runSpan, Span.covers, asPtr_eq h]
  exact if_neg fun hin => by simp only at hin; omega

theorem depth_slab (slab : Slab) (a : Nat) :
    depth slab.spans a = (runSpan slab.frame).covers a := by
  rw [Slab.spans, depth_pieces, page_cut]
  rfl

theorem depth_runs (l : Ledger) (a : Nat) :
    depth l.spans a = (l.held.map fun f => (runSpan f).covers a).sum :=
  depth_cut l.slabs l.runs fun slab => depth_slab slab a

/-- The blocks over an address are the frames over its page. -/
theorem depth_spans {l : Ledger} (window : ∀ f ∈ l.held, f.ppn < 2 ^ 26) (a : Nat) :
    depth l.spans (a + virtOffset) = framesOver l.held (pageNum a) := by
  rw [depth_runs, Multiset.map_congr rfl fun f hf => covers_run (window f hf) a, framesOver]

theorem depth_spans_low {l : Ledger} (window : ∀ f ∈ l.held, f.ppn < 2 ^ 26) {a : Nat}
    (ha : a < virtOffset) : depth l.spans a = 0 := by
  rw [depth_runs, Multiset.map_congr rfl fun f hf => covers_run_low (window f hf) ha,
    Multiset.sum_map_zero]

section
variable {h : Heap} {live : Multiset Block} {rest : Multiset Frame} {F : Class → List Nat}

theorem Books.held_lt (k : Books h live rest F) {f : Frame} (hf : f ∈ h.ledger.held) :
    f.ppn + f.count ≤ 2 ^ 26 := by
  obtain ⟨L, inv⟩ := k.buddy
  exact inv.ppn_lt k.window (Multiset.mem_add.mpr (.inl hf))

theorem Books.ppn_lt (k : Books h live rest F) {f : Frame} (hf : f ∈ h.ledger.held) :
    f.ppn < 2 ^ 26 := by
  have := k.held_lt hf
  have : 0 < f.count := Nat.two_pow_pos _
  omega

/-- No two blocks meet, free or live. -/
theorem Books.depth_le_one (k : Books h live rest F) (a : Nat) :
    depth (freeSpans F + live.map Block.span) a ≤ 1 := by
  rw [k.tiled]
  by_cases ha : a < virtOffset
  · rw [depth_spans_low (fun f hf => k.ppn_lt hf) ha]
    exact Nat.zero_le 1
  · obtain ⟨x, rfl⟩ := Nat.exists_eq_add_of_le' (Nat.le_of_not_lt ha)
    obtain ⟨L, inv⟩ := k.buddy
    have := inv.live_le (pageNum x)
    rw [framesOver_add] at this
    rw [depth_spans fun f hf => k.ppn_lt hf]
    omega

/-- Every byte of a block lies in a frame of the heap. -/
theorem Books.inside (k : Books h live rest F) {s : Span} (hs : s ∈ h.ledger.spans) {a : Nat}
    (lo : s.start ≤ a + virtOffset) (hi : a + virtOffset < s.start + s.len) :
    0 < framesOver h.ledger.held (pageNum a) := by
  rw [← depth_spans fun f hf => k.ppn_lt hf]
  exact depth_of_mem hs lo hi

theorem Books.start_ge (k : Books h live rest F) {s : Span}
    (hs : s ∈ h.ledger.spans) (hlen : 0 < s.len) :
    virtOffset ≤ s.start := by
  by_contra low
  have := depth_of_mem (a := s.start) hs (Nat.le_refl _) (by omega)
  rw [depth_spans_low (fun f hf => k.ppn_lt hf) (by omega)] at this
  exact Nat.lt_irrefl 0 this

theorem mem_slab_spans {slab : Slab} {s : Span} (hs : s ∈ slab.spans) :
    s.len = classSize slab.cls ∧
      ∃ i < pageSize / classSize slab.cls, s.start = asPtr slab.ppn + i * classSize slab.cls := by
  simp only [Slab.spans, pieces, Multiset.mem_coe, List.mem_map, List.mem_range] at hs
  obtain ⟨i, hi, rfl⟩ := hs
  exact ⟨rfl, i, hi, rfl⟩

theorem runBytes_ge (k : Nat) : pageSize ≤ runBytes k :=
  Nat.le_mul_of_pos_right _ (Nat.two_pow_pos k)

theorem mem_spans {l : Ledger} {s : Span} (hs : s ∈ l.spans) :
    (∃ slab ∈ l.slabs, s ∈ slab.spans) ∨ ∃ f ∈ l.runs, s = runSpan f := by
  rcases Multiset.mem_add.mp hs with hs | hs
  · exact .inl (Multiset.mem_bind.mp hs)
  · obtain ⟨f, hf, rfl⟩ := Multiset.mem_map.mp hs
    exact .inr ⟨f, hf, rfl⟩

theorem Ledger.held_of_slab {l : Ledger} {slab : Slab} (hs : slab ∈ l.slabs) :
    slab.frame ∈ l.held :=
  Multiset.mem_add.mpr (.inl (Multiset.mem_map_of_mem _ hs))

theorem Ledger.held_of_run {l : Ledger} {f : Frame} (hf : f ∈ l.runs) : f ∈ l.held :=
  Multiset.mem_add.mpr (.inr hf)

/-- A block has room for a link and is not null. -/
theorem Books.span_bounds (k : Books h live rest F) {s : Span} (hs : s ∈ h.ledger.spans) :
    8 ≤ s.len ∧ virtOffset ≤ s.start ∧ s.start + s.len ≤ 2 ^ 64 := by
  have len : 8 ≤ s.len := by
    rcases mem_spans hs with ⟨slab, -, hslab⟩ | ⟨f, -, rfl⟩
    · rw [(mem_slab_spans hslab).1]
      exact (classSize_bounds _).1
    · exact Nat.le_trans (by decide) (runBytes_ge f.order)
  have start := k.start_ge hs (by omega)
  refine ⟨len, start, ?_⟩
  have last := k.inside hs (a := s.start + s.len - 1 - virtOffset) (by omega) (by omega)
  obtain ⟨f, hf, -, hlast⟩ := framesOver_pos last
  have := k.held_lt hf
  simp only [pageNum, pageSize, virtOffset] at *
  omega

theorem Books.free_mem (k : Books h live rest F) {c : Class} {p : Nat} (hp : p ∈ F c) :
    (⟨p, classSize c⟩ : Span) ∈ h.ledger.spans := by
  rw [← k.tiled]
  exact Multiset.mem_add.mpr (.inl (mem_freeSpans.mpr ⟨c, hp, rfl⟩))

theorem Books.live_mem (k : Books h live rest F) {b : Block} (hb : b ∈ live) :
    b.span ∈ h.ledger.spans := by
  rw [← k.tiled]
  exact Multiset.mem_add.mpr (.inr (Multiset.mem_map_of_mem _ hb))

theorem Books.head_lt (k : Books h live rest F) (c : Class) : h.free c < 2 ^ 64 := by
  rcases (k.threaded c).head_mem with hnull | hmem
  · rw [hnull]
    decide
  · have hb := k.span_bounds (k.free_mem hmem)
    simp only at hb
    omega

/-- A live block is clear of every free one and of every other live one. -/
theorem Books.live_apart {b : Block} (k : Books h (b ::ₘ live) rest F) {t : Span}
    (ht : t ∈ freeSpans F + live.map Block.span) : b.span.Apart t := by
  have hspans : freeSpans F + (b ::ₘ live).map Block.span =
      b.span ::ₘ (freeSpans F + live.map Block.span) := by
    rw [Multiset.map_cons, Multiset.add_cons]
  have one := k.depth_le_one
  rw [hspans] at one
  have hb := k.span_bounds (k.live_mem (Multiset.mem_cons_self b live))
  have htb : t ∈ h.ledger.spans := by
    rw [← k.tiled, hspans]
    exact Multiset.mem_cons_of_mem ht
  have := k.span_bounds htb
  exact apart_of_depth one ht (by omega) (by omega)

/-- What is on the lists is what the heap has claimed and not handed out. -/
theorem Books.balance (k : Books h live rest F) :
    bytes (freeSpans F) + h.allocated = h.reserved := by
  rw [k.allocated, k.reserved, ← bytes_spans, ← k.tiled, bytes_add]

theorem Books.reserved_le (k : Books h live rest F) : h.reserved ≤ 2 ^ 38 := by
  obtain ⟨L, inv⟩ := k.buddy
  have hcount := inv.count
  have hbal := inv.balance
  rw [Multiset.map_add, Multiset.sum_add] at hcount
  have := k.window
  rw [k.reserved]
  simp only [pageSize]
  omega

/-! ## Memory -/

/-- Whoever leaves the heap's frames alone leaves its lists alone. -/
theorem Books.kept (k : Books h live rest F) {phys : State} {rest' : Multiset Frame}
    (buddy : ∃ L, Inv phys (h.ledger.held + rest') L)
    (window : phys.pool.base + phys.pool.frames ≤ 2 ^ 26)
    (kept : Kept h.ledger.held h.phys.mem phys.mem) : Books { h with phys } live rest' F := by
  refine ⟨buddy, window, fun c => ?_, k.tiled, k.aligned, k.allocated, k.reserved⟩
  refine (k.threaded c).congr fun p hp => ?_
  have hmem := k.free_mem hp
  have hb := k.span_bounds hmem
  simp only at hb
  exact link_congr hb.2.1 fun a lo hi => kept a (k.inside hmem lo (by simp only; omega))

section
variable {b : Block} {mem : Mem}

/-- Writing inside a live block reaches no link. -/
theorem Books.write_threaded (k : Books h (b ::ₘ live) rest F)
    (outside : ∀ a, a + virtOffset < b.ptr ∨ b.ptr + b.layout.bytes ≤ a + virtOffset →
      mem a = h.phys.mem a) (c : Class) : Threaded (link mem) null (h.free c) (F c) := by
  refine (k.threaded c).congr fun p hp => ?_
  have hapart := k.live_apart (t := ⟨p, classSize c⟩)
    (Multiset.mem_add.mpr (.inl (mem_freeSpans.mpr ⟨c, hp, rfl⟩)))
  have hb := k.span_bounds (k.free_mem hp)
  have hbb := k.span_bounds (k.live_mem (Multiset.mem_cons_self b live))
  simp only [Span.Apart, Block.span] at hapart hb hbb
  exact link_congr hb.2.1 fun a lo hi => outside a (by omega)

/-- Nor does it reach the buddy allocator's lists. -/
theorem Books.write_buddy (k : Books h (b ::ₘ live) rest F)
    (outside : ∀ a, a + virtOffset < b.ptr ∨ b.ptr + b.layout.bytes ≤ a + virtOffset →
      mem a = h.phys.mem a) : ∃ L, Inv ⟨mem, h.phys.pool⟩ (h.ledger.held + rest) L := by
  obtain ⟨L, inv⟩ := k.buddy
  refine ⟨L, inv.write fun a ha => outside a ?_⟩
  by_contra hin
  have := k.inside (k.live_mem (Multiset.mem_cons_self b live)) (a := a)
    (by simp only [Block.span]; omega) (by simp only [Block.span]; omega)
  rw [framesOver_add] at ha
  omega

theorem Books.write (k : Books h (b ::ₘ live) rest F)
    (outside : ∀ a, a + virtOffset < b.ptr ∨ b.ptr + b.layout.bytes ≤ a + virtOffset →
      mem a = h.phys.mem a) :
    Books { h with phys := { h.phys with mem } } (b ::ₘ live) rest F :=
  ⟨k.write_buddy outside, k.window, k.write_threaded outside, k.tiled, k.aligned, k.allocated,
    k.reserved⟩

end

/-! ## Blocks of a class -/

theorem Books.push_threaded {b : Block} {c : Class} (k : Books h (b ::ₘ live) rest F)
    (outside : ∀ a, a + virtOffset < b.ptr ∨ b.ptr + b.layout.bytes ≤ a + virtOffset →
      setLink h.phys.mem b.ptr (h.free c) a = h.phys.mem a) (d : Class) :
    Threaded (link (setLink h.phys.mem b.ptr (h.free c))) null (Function.update h.free c b.ptr d)
      (Function.update F c (b.ptr :: F c) d) := by
  by_cases hd : d = c
  · subst hd
    have hbound := k.span_bounds (k.live_mem (Multiset.mem_cons_self b live))
    simp only [Function.update_self]
    refine ⟨rfl, ne_null hbound.2.1, ?_⟩
    rw [link_setLink _ (k.head_lt d)]
    exact k.write_threaded outside d
  · simp only [Function.update_of_ne hd]
    exact k.write_threaded outside d

/-- `dealloc` of a class block: the block moves from the live ones to its list. -/
theorem Books.push {b : Block} {c : Class} (k : Books h (b ::ₘ live) rest F)
    (hc : b.layout.classFor = some c) :
    ∃ h', h.dealloc b.ptr b.layout = some h' ∧
      Books h' live rest (Function.update F c (b.ptr :: F c)) := by
  have hbytes : b.layout.bytes = classSize c := by rw [Layout.bytes, hc]
  have hspan : b.span = ⟨b.ptr, classSize c⟩ := by rw [Block.span, hbytes]
  have hbound := k.span_bounds (k.live_mem (Multiset.mem_cons_self b live))
  have hlen := (classSize_bounds c).1
  have outside : ∀ a, a + virtOffset < b.ptr ∨ b.ptr + b.layout.bytes ≤ a + virtOffset →
      setLink h.phys.mem b.ptr (h.free c) a = h.phys.mem a :=
    fun a ha => setLink_apart _ _ hbound.2.1 (by omega)
  have halloc := k.allocated
  rw [Multiset.map_cons, bytes_cons, hspan] at halloc
  simp only at halloc
  refine ⟨⟨⟨setLink h.phys.mem b.ptr (h.free c), h.phys.pool⟩,
    Function.update h.free c b.ptr, h.allocated - classSize c, h.reserved, h.ledger⟩, ?_,
    .of (k.write_buddy outside) k.window (k.push_threaded outside) ?_
      (fun d hd => k.aligned d (Multiset.mem_cons_of_mem hd)) (by omega) k.reserved⟩
  · rw [Heap.dealloc, hc]
    simp only [sub_some (show classSize c ≤ h.allocated by omega)]
    rfl
  · rw [← List.singleton_append, freeSpans_append, ← k.tiled, Multiset.map_cons, hspan,
      Multiset.add_cons, ← Multiset.cons_add]
    rfl

/-- The end of `alloc`: the head of the list becomes a live block. -/
theorem Books.pop (k : Books h live rest F) {layout : Layout} {c : Class}
    (hc : layout.classFor = some c) (hne : h.free c ≠ null) :
    ∃ h' F', h.takeHead c = some (h.free c, h') ∧
      Books h' (⟨h.free c, layout⟩ ::ₘ live) rest F' := by
  obtain ⟨xs, hxs, hrest⟩ := (k.threaded c).pop hne
  have hfree := freeSpans_cons hxs
  have hbal := k.balance
  have hres := k.reserved_le
  rw [hfree, bytes_cons] at hbal
  simp only at hbal
  have hspan : (⟨h.free c, layout⟩ : Block).span = ⟨h.free c, classSize c⟩ := by
    simp only [Block.span, Layout.bytes, hc]
  refine ⟨⟨h.phys, Function.update h.free c (link h.phys.mem (h.free c)),
    h.allocated + classSize c, h.reserved, h.ledger⟩, Function.update F c xs, ?_,
    .of k.buddy k.window (fun d => ?_) ?_ (fun b hb hnone => ?_) ?_ k.reserved⟩
  · simp only [Heap.takeHead, add_some (show h.allocated + classSize c < 2 ^ 64 by omega)]
    rfl
  · by_cases hd : d = c
    · subst hd
      simp only [Function.update_self]
      exact hrest
    · simp only [Function.update_of_ne hd]
      exact k.threaded d
  · rw [Multiset.map_cons, hspan, Multiset.add_cons, ← Multiset.cons_add, ← hfree]
    exact k.tiled
  · rcases Multiset.mem_cons.mp hb with rfl | hb
    · rw [hc] at hnone
      cases hnone
    · exact k.aligned b hb hnone
  · rw [Multiset.map_cons, bytes_cons, hspan, k.allocated, Nat.add_comm]

/-! ## Frames -/

/-- `alloc_frames` for the heap: the lists stay, and the run is new. -/
theorem Books.claim (k : Books h live rest F) {order : Nat} {f : Frame} {phys : State}
    (heq : h.phys.allocOrder order = (some f, phys)) :
    f.order = order ∧ (∃ L, Inv phys (f ::ₘ (h.ledger.held + rest)) L) ∧
      phys.pool.base + phys.pool.frames ≤ 2 ^ 26 ∧ f.ppn + f.count ≤ 2 ^ 26 ∧
      Kept (h.ledger.held + rest) h.phys.mem phys.mem := by
  obtain ⟨L, inv⟩ := k.buddy
  obtain ⟨horder, ⟨L', inv'⟩, hbase, hframes, kept, -⟩ := inv.allocOrder heq
  have window : phys.pool.base + phys.pool.frames ≤ 2 ^ 26 := by
    rw [hbase, hframes]
    exact k.window
  exact ⟨horder, ⟨L', inv'⟩, window, inv'.ppn_lt window (Multiset.mem_cons_self f _), kept⟩

/-- A run that another part of the kernel takes. -/
theorem Books.take (k : Books h live rest F) {order : Nat} {f : Frame} {phys : State}
    (heq : h.phys.allocOrder order = (some f, phys)) :
    Books { h with phys } live (f ::ₘ rest) F := by
  obtain ⟨-, inv, window, -, kept⟩ := k.claim heq
  exact k.kept (by rwa [Multiset.add_cons]) window (kept.mono (Multiset.le_add_right _ _))

theorem Books.refused (k : Books h live rest F) {order : Nat} {phys : State}
    (heq : h.phys.allocOrder order = (none, phys)) : phys = h.phys := by
  obtain ⟨L, inv⟩ := k.buddy
  rcases inv.alloc order with none | ⟨_, _, _, some, -⟩
  · simp only [State.allocOrder, none, Prod.mk.injEq] at heq
    exact heq.2.symm
  · simp [State.allocOrder, some] at heq

/-- What was claimed so far, with a new run, still fits the direct map. -/
theorem Books.room (k : Books h live rest F) {f : Frame} {phys : State}
    (inv : ∃ L, Inv phys (f ::ₘ (h.ledger.held + rest)) L)
    (window : phys.pool.base + phys.pool.frames ≤ 2 ^ 26) :
    h.reserved + runBytes f.order ≤ 2 ^ 38 := by
  obtain ⟨L, inv⟩ := inv
  have hcount := inv.count
  have hbal := inv.balance
  rw [Multiset.map_cons, Multiset.sum_cons, Multiset.map_add, Multiset.sum_add] at hcount
  rw [k.reserved, runBytes]
  simp only [Frame.count, pageSize] at *
  omega

/-- A block on a list is clear of a run that is not yet the heap's. -/
theorem Books.clear (k : Books h live rest F) {f : Frame} {phys : State}
    (inv : ∃ L, Inv phys (f ::ₘ (h.ledger.held + rest)) L) (hppn : f.ppn < 2 ^ 26) {c : Class}
    {p : Nat} (hp : p ∈ F c) :
    p + 8 ≤ asPtr f.ppn ∨ asPtr f.ppn + runBytes f.order ≤ p := by
  obtain ⟨L, inv⟩ := inv
  have hmem := k.free_mem hp
  have hb := k.span_bounds hmem
  have hpow := Nat.two_pow_pos f.order
  simp only at hb
  obtain ⟨q, rfl⟩ := Nat.exists_eq_add_of_le' hb.2.1
  rw [asPtr_eq hppn, runBytes]
  by_contra hmeet
  simp only [not_or, Nat.not_le] at hmeet
  have later : f.ppn ≤ pageNum (max q (baseAddr f.ppn)) ∧
      pageNum (max q (baseAddr f.ppn)) < f.ppn + 2 ^ f.order := by
    simp only [pageNum, baseAddr, pageSize] at hmeet ⊢
    omega
  have hpos := k.inside hmem (a := max q (baseAddr f.ppn))
    (by simp only; omega) (by simp only; omega)
  have hone := inv.live_le (pageNum (max q (baseAddr f.ppn)))
  rw [framesOver_cons, framesOver_add, cover_eq_one later.1 later.2] at hone
  omega

theorem held_slab (l : Ledger) (slab : Slab) :
    Ledger.held { l with slabs := slab ::ₘ l.slabs } = slab.frame ::ₘ l.held := by
  simp [Ledger.held]

theorem held_run (l : Ledger) (f : Frame) :
    Ledger.held { l with runs := f ::ₘ l.runs } = f ::ₘ l.held := by
  simp [Ledger.held]

theorem spans_slab (l : Ledger) (slab : Slab) :
    Ledger.spans { l with slabs := slab ::ₘ l.slabs } = slab.spans + l.spans := by
  simp [Ledger.spans, add_assoc]

theorem spans_run (l : Ledger) (f : Frame) :
    Ledger.spans { l with runs := f ::ₘ l.runs } = runSpan f ::ₘ l.spans := by
  simp [Ledger.spans]

theorem slab_spans_eq (ppn : Nat) (c : Class) :
    classSpans c (blocks (asPtr ppn) (classSize c) (pageSize / classSize c)) =
      (⟨ppn, c⟩ : Slab).spans := by
  simp [classSpans, blocks, Slab.spans, pieces, Function.comp_def]

theorem Books.refill (k : Books h live rest F) (c : Class) :
    h.refill c = some (false, h) ∨
      ∃ h' xs, h.refill c = some (true, h') ∧ h'.free c ≠ null ∧
        Books h' live rest (Function.update F c (xs ++ F c)) := by
  rcases hf : h.phys.allocOrder 0 with ⟨_ | f, phys⟩
  · left
    obtain rfl := k.refused hf
    simp [Heap.refill, hf]
  right
  obtain ⟨horder, inv, window, hlt, -⟩ := k.claim hf
  have hcount : f.count = 1 := by rw [Frame.count, horder, Nat.pow_zero]
  have hppn : f.ppn < 2 ^ 26 := by omega
  have hframe : (⟨f.ppn, c⟩ : Slab).frame = f := by
    rw [Slab.frame, ← horder]
  have hroom := k.room inv window
  rw [horder, runBytes, Nat.pow_zero, Nat.mul_one] at hroom
  have k₁ := k.take hf
  have hcut := page_cut c
  have hptr := asPtr_eq hppn
  have clear : ∀ d, ∀ p ∈ F d, virtOffset ≤ p ∧ (p + 8 ≤ asPtr f.ppn ∨
      asPtr f.ppn + pageSize / classSize c * classSize c ≤ p) := by
    intro d p hp
    have := k.clear inv hppn hp
    rw [horder, runBytes, Nat.pow_zero, Nat.mul_one] at this
    rw [hcut]
    exact ⟨(k.span_bounds (k.free_mem hp)).2.1, this⟩
  have htop : asPtr f.ppn + pageSize / classSize c * classSize c ≤ 2 ^ 64 := by
    rw [hcut, hptr]
    simp only [baseAddr, pageSize, virtOffset]
    omega
  obtain ⟨thread, same⟩ := threadBlocks_spec (classSize_bounds c).1 (by omega) htop (k.head_lt c)
    (k₁.threaded c) (clear c)
  refine ⟨⟨⟨(Heap.threadBlocks (asPtr f.ppn) (classSize c) (pageSize / classSize c) phys.mem
      (h.free c)).1, phys.pool⟩, Function.update h.free c (Heap.threadBlocks (asPtr f.ppn)
      (classSize c) (pageSize / classSize c) phys.mem (h.free c)).2, h.allocated,
      h.reserved + pageSize, { h.ledger with slabs := ⟨f.ppn, c⟩ ::ₘ h.ledger.slabs }⟩,
    blocks (asPtr f.ppn) (classSize c) (pageSize / classSize c), ?_, ?_,
    .of ?_ window (fun d => ?_) ?_ k.aligned k.allocated ?_⟩
  · rw [Heap.refill, hf]
    simp only [add_some (show h.reserved + pageSize < 2 ^ 64 by omega)]
    rfl
  · simp only [Function.update_self]
    intro hnull
    rw [hnull] at thread
    have hempty := congrArg List.length thread.eq_empty
    simp only [blocks, List.length_append, List.length_map, List.length_range, List.length_nil]
      at hempty
    rw [(Nat.add_eq_zero_iff.mp hempty).1, Nat.zero_mul] at hcut
    exact absurd hcut (by decide)
  · obtain ⟨L, inv⟩ := inv
    rw [held_slab, hframe, Multiset.cons_add]
    refine ⟨L, inv.write fun a ha => same a ?_⟩
    rw [hcut, hptr]
    by_contra hin
    have hpage : pageNum a = f.ppn := by
      simp only [baseAddr, pageNum, pageSize] at hin ⊢
      omega
    have := framesOver_of_mem (p := pageNum a)
      (Multiset.mem_cons_self f (h.ledger.held + rest)) (by omega) (by omega)
    omega
  · by_cases hd : d = c
    · subst hd
      simp only [Function.update_self]
      exact thread
    · simp only [Function.update_of_ne hd]
      refine (k₁.threaded d).congr fun p hp => ?_
      have hclear := clear d p hp
      exact link_congr hclear.1 fun a lo hi => same a (by omega)
  · rw [freeSpans_append, slab_spans_eq, spans_slab, add_assoc, k.tiled]
  · rw [held_slab, hframe, Multiset.map_cons, Multiset.sum_cons, hcount, Nat.mul_add, Nat.mul_one,
      Nat.add_comm, k.reserved]

/-! ## Whole runs -/

theorem large_span {ppn : Nat} {layout : Layout} (hc : layout.classFor = none) {f : Frame}
    (horder : f.order = layout.order) (hppn : f.ppn = ppn) :
    (⟨asPtr ppn, layout⟩ : Block).span = runSpan f := by
  rw [Block.span, Layout.bytes, hc, runSpan, horder, hppn]

/-- A run changes hands: it becomes the heap's, with a live block over all of it. -/
theorem Books.acquire {f : Frame} {layout : Layout} (k : Books h live (f ::ₘ rest) F)
    (hc : layout.classFor = none) (halign : layout.align ≤ pageSize)
    (horder : f.order = layout.order) :
    Books ⟨h.phys, h.free, h.allocated + runBytes layout.order,
      h.reserved + runBytes layout.order, { h.ledger with runs := f ::ₘ h.ledger.runs }⟩
      (⟨asPtr f.ppn, layout⟩ ::ₘ live) rest F := by
  have hspan := large_span hc horder rfl
  refine .of ?_ k.window k.threaded ?_ (fun b hb hnone => ?_) ?_ ?_
  · have := k.buddy
    rwa [Multiset.add_cons, ← Multiset.cons_add, ← held_run] at this
  · rw [spans_run, Multiset.map_cons, Multiset.add_cons, k.tiled, hspan]
  · rcases Multiset.mem_cons.mp hb with rfl | hb
    · exact halign
    · exact k.aligned b hb hnone
  · rw [Multiset.map_cons, bytes_cons, hspan, k.allocated, runSpan, horder, Nat.add_comm]
  · rw [held_run, Multiset.map_cons, Multiset.sum_cons, Nat.mul_add, ← k.reserved, Frame.count,
      horder, runBytes, Nat.add_comm]

/-- And back: what is left of the ledger without the run. -/
theorem Books.release {f : Frame} {b : Block} {runs : Multiset Frame}
    (k : Books h (b ::ₘ live) rest F) (hruns : h.ledger.runs = f ::ₘ runs)
    (hspan : b.span = runSpan f) :
    Books ⟨h.phys, h.free, h.allocated - runBytes f.order, h.reserved - runBytes f.order,
      { h.ledger with runs := runs }⟩ live (f ::ₘ rest) F ∧
      runBytes f.order ≤ h.allocated ∧ runBytes f.order ≤ h.reserved := by
  have hledger : h.ledger = { { h.ledger with runs := runs } with runs := f ::ₘ runs } := by
    rw [← hruns]
  have hheld := held_run { h.ledger with runs := runs } f
  have hspans := spans_run { h.ledger with runs := runs } f
  rw [← hledger] at hheld hspans
  have halloc := k.allocated
  have hres := k.reserved
  rw [Multiset.map_cons, bytes_cons, hspan, runSpan] at halloc
  rw [hheld, Multiset.map_cons, Multiset.sum_cons, Nat.mul_add, Frame.count, ← runBytes] at hres
  simp only at halloc
  refine ⟨.of ?_ k.window k.threaded ?_ (fun d hd => k.aligned d (Multiset.mem_cons_of_mem hd))
    (by omega) (by omega), by omega, by omega⟩
  · have := k.buddy
    rwa [hheld, Multiset.cons_add, ← Multiset.add_cons] at this
  · have := k.tiled
    rw [hspans, Multiset.map_cons, Multiset.add_cons, hspan] at this
    exact (Multiset.cons_inj_right _).mp this

theorem runBytes_injective {j k : Nat} (h : runBytes j = runBytes k) : j = k :=
  Nat.pow_right_injective (Nat.le_refl 2) (Nat.eq_of_mul_eq_mul_left (by decide) h)

/-- The run behind a large block is the one `dealloc` computes from the pointer. -/
theorem Books.run_of (k : Books h live rest F) {b : Block} (hb : b ∈ live)
    (hc : b.layout.classFor = none) :
    ∃ f ∈ h.ledger.runs, b.span = runSpan f ∧ f.order = b.layout.order ∧
      b.ptr = baseAddr f.ppn + virtOffset := by
  have hbytes : b.layout.bytes = runBytes b.layout.order := by rw [Layout.bytes, hc]
  rcases mem_spans (k.live_mem hb) with ⟨slab, -, hslab⟩ | ⟨f, hf, hspan⟩
  · have hlen := (mem_slab_spans hslab).1
    have := (classSize_bounds slab.cls).2
    have := runBytes_ge b.layout.order
    rw [Block.span, hbytes] at hlen
    simp only [pageSize] at *
    omega
  · refine ⟨f, hf, hspan, ?_⟩
    simp only [Block.span, runSpan, Span.mk.injEq, hbytes,
      asPtr_eq (k.ppn_lt (Ledger.held_of_run hf))] at hspan
    exact ⟨(runBytes_injective hspan.2).symm, hspan.1⟩

theorem Books.allocLarge (k : Books h live rest F) {layout : Layout}
    (hc : layout.classFor = none) :
    h.allocLarge layout = some (null, h) ∨
      ∃ p h', h.allocLarge layout = some (p, h') ∧ p ≠ null ∧
        Books h' (⟨p, layout⟩ ::ₘ live) rest F := by
  by_cases halign : pageSize < layout.align
  · exact .inl (if_pos halign)
  rcases hf : h.phys.allocOrder layout.order with ⟨_ | f, phys⟩
  · left
    obtain rfl := k.refused hf
    simp [Heap.allocLarge, halign, hf]
  right
  obtain ⟨horder, inv, window, hlt, -⟩ := k.claim hf
  have hcount : 0 < f.count := Nat.two_pow_pos _
  have hroom := k.room inv window
  have hbal := k.balance
  rw [horder] at hroom
  have k₁ := k.take hf
  refine ⟨asPtr f.ppn, _, ?_, ?_, k₁.acquire hc (Nat.le_of_not_lt halign) horder⟩
  · rw [Heap.allocLarge, if_neg halign, hf]
    simp only [add_some (show h.allocated + runBytes layout.order < 2 ^ 64 by omega),
      add_some (show h.reserved + runBytes layout.order < 2 ^ 64 by omega)]
    rfl
  · rw [asPtr_eq (by omega)]
    exact ne_null (Nat.le_add_left _ _)

theorem Heap.dealloc_run {h : Heap} {layout : Layout} {f : Frame} {phys : State}
    (hc : layout.classFor = none) (hle : runBytes layout.order ≤ h.allocated)
    (hle' : runBytes layout.order ≤ h.reserved) (horder : f.order = layout.order)
    (hfree : h.phys.free f.ppn f.order = some phys) :
    h.dealloc (baseAddr f.ppn + virtOffset) layout =
      some ⟨phys, h.free, h.allocated - runBytes layout.order, h.reserved - runBytes layout.order,
        { h.ledger with runs := h.ledger.runs.erase f }⟩ := by
  have hphys := sub_some (Nat.le_add_left virtOffset (baseAddr f.ppn))
  have hf : (⟨f.ppn, layout.order⟩ : Frame) = f := by rw [← horder]
  rw [horder] at hfree
  rw [Heap.dealloc, hc]
  simp only [sub_some hle, sub_some hle', hphys, Nat.add_sub_cancel, pageNum_baseAddr, hfree, hf,
    Option.bind_eq_bind, Option.bind_some]

theorem Books.deallocLarge {b : Block} (k : Books h (b ::ₘ live) rest F)
    (hc : b.layout.classFor = none) :
    ∃ h', h.dealloc b.ptr b.layout = some h' ∧ Books h' live rest F := by
  obtain ⟨f, hf, hspan, horder, hptr⟩ := k.run_of (Multiset.mem_cons_self b live) hc
  obtain ⟨runs, hruns⟩ := Multiset.exists_cons_of_mem hf
  obtain ⟨k₁, hle, hle'⟩ := k.release hruns hspan
  obtain ⟨L, inv⟩ := k₁.buddy
  rw [Multiset.add_cons] at inv
  obtain ⟨phys, L', hfree, inv', hbase, hframes, kept⟩ := inv.free
  have k₂ := k₁.kept ⟨L', inv'⟩ (by rw [hbase, hframes]; exact k.window)
    (kept.mono (Multiset.le_add_right _ _))
  rw [horder] at hle hle' k₂
  rw [hptr]
  refine ⟨_, Heap.dealloc_run hc hle hle' horder hfree, ?_⟩
  rw [hruns, Multiset.erase_cons_head]
  exact k₂

/-! ## The two calls -/

/-- `alloc` returns; a null result leaves the heap as it was. -/
theorem Books.alloc (k : Books h live rest F) (layout : Layout) :
    h.alloc layout = some (null, h) ∨
      ∃ p h' F', h.alloc layout = some (p, h') ∧ p ≠ null ∧
        Books h' (⟨p, layout⟩ ::ₘ live) rest F' := by
  rcases hc : layout.classFor with _ | c
  · simp only [Heap.alloc, hc]
    rcases k.allocLarge hc with hnull | ⟨p, h', heq, hne, k'⟩
    · exact .inl hnull
    · exact .inr ⟨p, h', F, heq, hne, k'⟩
  simp only [Heap.alloc, hc]
  by_cases hdry : h.free c = null
  · rw [if_pos hdry]
    rcases k.refill c with hnull | ⟨h₁, xs, hfill, hne, k₁⟩
    · left
      rw [hnull]
      rfl
    · right
      obtain ⟨h', F', htake, k'⟩ := k₁.pop hc hne
      refine ⟨_, h', F', ?_, hne, k'⟩
      rw [hfill]
      exact htake
  · rw [if_neg hdry]
    right
    obtain ⟨h', F', htake, k'⟩ := k.pop hc hdry
    exact ⟨_, h', F', htake, hdry, k'⟩

/-- `dealloc` of a live block returns. -/
theorem Books.dealloc {b : Block} (k : Books h (b ::ₘ live) rest F) :
    ∃ h' F', h.dealloc b.ptr b.layout = some h' ∧ Books h' live rest F' := by
  rcases hc : b.layout.classFor with _ | c
  · obtain ⟨h', heq, k'⟩ := k.deallocLarge hc
    exact ⟨h', F, heq, k'⟩
  · obtain ⟨h', heq, k'⟩ := k.push hc
    exact ⟨h', _, heq, k'⟩

end

end AlexOS.KernelHeap
