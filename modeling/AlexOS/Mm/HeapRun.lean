import AlexOS.Mm.HeapBooks

/-!
# Every run of the kernel heap

Callers allocate, write into what they were given and free it with the layout they asked
for, while the rest of the kernel takes frames from the same buddy allocator, writes into
them and gives them back. In every state reached, what the heap has handed out is aligned,
large enough and disjoint from everything else, and its counters are exact.
-/

namespace AlexOS.KernelHeap

open Bytes Buddy Spans Thread Blocks

structure World where
  heap : Heap
  live : Multiset Block
  rest : Multiset Frame

inductive Op where
  | alloc (layout : Layout)
  | dealloc (block : Block)
  | write
  | others

inductive Step : World → Op → World → Prop where
  | granted {h h' : Heap} {live : Multiset Block} {rest : Multiset Frame} {layout : Layout}
      {p : Nat} :
      h.alloc layout = some (p, h') → p ≠ null →
      Step ⟨h, live, rest⟩ (.alloc layout) ⟨h', ⟨p, layout⟩ ::ₘ live, rest⟩
  | refused {h h' : Heap} {live : Multiset Block} {rest : Multiset Frame} {layout : Layout} :
      h.alloc layout = some (null, h') →
      Step ⟨h, live, rest⟩ (.alloc layout) ⟨h', live, rest⟩
  | dealloc {h h' : Heap} {live : Multiset Block} {rest : Multiset Frame} {b : Block} :
      h.dealloc b.ptr b.layout = some h' →
      Step ⟨h, b ::ₘ live, rest⟩ (.dealloc b) ⟨h', live, rest⟩
  | write {h : Heap} {live : Multiset Block} {rest : Multiset Frame} {b : Block} {a : Nat}
      {v : UInt8} :
      b ∈ live → b.ptr ≤ a → a < b.ptr + b.layout.size →
      Step ⟨h, live, rest⟩ .write ⟨{ h with
        phys := ⟨Function.update h.phys.mem (a - virtOffset) v, h.phys.pool⟩ }, live, rest⟩
  /-- Another holder of frames takes a run, gives one back, or writes into one. -/
  | take {h : Heap} {live : Multiset Block} {rest : Multiset Frame} {order : Nat} {f : Frame}
      {phys : State} :
      h.phys.allocOrder order = (some f, phys) →
      Step ⟨h, live, rest⟩ .others ⟨{ h with phys }, live, f ::ₘ rest⟩
  | give {h : Heap} {live : Multiset Block} {rest : Multiset Frame} {f : Frame} {phys : State} :
      h.phys.free f.ppn f.order = some phys →
      Step ⟨h, live, f ::ₘ rest⟩ .others ⟨{ h with phys }, live, rest⟩
  | scribble {h : Heap} {live : Multiset Block} {rest : Multiset Frame} {f : Frame} {a : Nat}
      {v : UInt8} :
      f ∈ rest → f.ppn ≤ pageNum a → pageNum a < f.ppn + f.count →
      Step ⟨h, live, rest⟩ .others ⟨{ h with
        phys := ⟨Function.update h.phys.mem a v, h.phys.pool⟩ }, live, rest⟩

/-- The heap is empty when the buddy allocator has been given the memory above the kernel;
the direct map reaches over all of it. -/
def system : System World Op where
  init w := ∃ mem start end_ s, State.init mem start end_ = some s ∧ end_.val ≤ 2 ^ 38 ∧
    w = ⟨.new s, 0, 0⟩
  step := Step

/-! ## What a run keeps -/

section
variable {h : Heap} {live : Multiset Block} {rest : Multiset Frame} {F : Class → List Nat}

theorem Books.start {mem : Mem} {start end_ : Usize} {s : State}
    (hinit : State.init mem start end_ = some s) (hend : end_.val ≤ 2 ^ 38) :
    Books (.new s) 0 0 fun _ => [] := by
  obtain ⟨L, inv⟩ := Inv.start hinit
  obtain ⟨up, hup⟩ := init_alignUp hinit
  obtain ⟨-, -, -, -, htop, -⟩ := init_spec hup hinit
  refine ⟨⟨L, inv⟩, ?_, fun _ => rfl, ?_, by simp, rfl, by simp [Heap.new, Ledger.held]⟩
  · show s.pool.base + s.pool.frames ≤ 2 ^ 26
    simp only [pageNum, alignDown, pageSize] at htop
    omega
  · simp [freeSpans, classSpans, Heap.new, Ledger.spans]

theorem Books.write_byte (k : Books h live rest F) {b : Block} (hb : b ∈ live) {a : Nat}
    (lo : b.ptr ≤ a) (hi : a < b.ptr + b.layout.bytes) (v : UInt8) :
    Books { h with phys := ⟨Function.update h.phys.mem (a - virtOffset) v, h.phys.pool⟩ } live rest
      F := by
  obtain ⟨live, rfl⟩ := Multiset.exists_cons_of_mem hb
  have hbound := k.span_bounds (k.live_mem hb)
  refine k.write fun x hx => Function.update_of_ne ?_ _ _
  simp only [Block.span] at hbound
  omega

theorem Books.give {f : Frame} (k : Books h live (f ::ₘ rest) F) {phys : State}
    (heq : h.phys.free f.ppn f.order = some phys) : Books { h with phys } live rest F := by
  obtain ⟨L, inv⟩ := k.buddy
  rw [Multiset.add_cons] at inv
  obtain ⟨phys', L', heq', inv', hbase, hframes, kept⟩ := inv.free
  obtain rfl : phys' = phys := Option.some.inj (heq'.symm.trans heq)
  exact k.kept ⟨L', inv'⟩ (by rw [hbase, hframes]; exact k.window)
    (kept.mono (Multiset.le_add_right _ _))

theorem Books.scribble (k : Books h live rest F) {f : Frame} (hf : f ∈ rest) {a : Nat}
    (lo : f.ppn ≤ pageNum a) (hi : pageNum a < f.ppn + f.count) (v : UInt8) :
    Books { h with phys := ⟨Function.update h.phys.mem a v, h.phys.pool⟩ } live rest F := by
  obtain ⟨L, inv⟩ := k.buddy
  have hrest := framesOver_of_mem hf lo hi
  have hone := inv.live_le (pageNum a)
  rw [framesOver_add] at hone
  refine k.kept ⟨L, inv.write fun x hx => Function.update_of_ne ?_ _ _⟩ k.window
    fun x hx => Function.update_of_ne ?_ _ _
  · rintro rfl
    rw [framesOver_add] at hx
    omega
  · rintro rfl
    omega

theorem Layout.size_le_bytes (layout : Layout) : layout.size ≤ layout.bytes := by
  rcases hc : layout.classFor with _ | c
  · simp only [Layout.bytes, hc]
    exact layout.size_le_run
  · simp only [Layout.bytes, hc]
    exact (Layout.classFor_some hc).1

end

theorem Step.books {w w' : World} {op : Op} (h : Step w op w') {F : Class → List Nat}
    (k : Books w.heap w.live w.rest F) : ∃ F', Books w'.heap w'.live w'.rest F' := by
  cases h with
  | @granted h h' live rest layout p heq hne =>
    rcases k.alloc layout with hnull | ⟨q, h₁, F', heq', -, k'⟩
    · rw [heq] at hnull
      cases hnull
      exact absurd rfl hne
    · rw [heq] at heq'
      cases heq'
      exact ⟨F', k'⟩
  | @refused h h' live rest layout heq =>
    rcases k.alloc layout with hnull | ⟨q, h₁, F', heq', hne, -⟩
    · rw [heq] at hnull
      cases hnull
      exact ⟨F, k⟩
    · rw [heq] at heq'
      cases heq'
      exact absurd rfl hne
  | dealloc heq =>
    obtain ⟨h₁, F', heq', k'⟩ := k.dealloc
    rw [heq] at heq'
    cases heq'
    exact ⟨F', k'⟩
  | @write h live rest b a v hb lo hi =>
    have := b.layout.size_le_bytes
    exact ⟨F, k.write_byte hb lo (by omega) v⟩
  | take heq => exact ⟨F, k.take heq⟩
  | give heq => exact ⟨F, k.give heq⟩
  | scribble hf lo hi => exact ⟨F, k.scribble hf lo hi _⟩

theorem Reach.books {w : World} (h : Reach system w) :
    ∃ F, Books w.heap w.live w.rest F := by
  refine Reach.invariant (S := system) (fun w => ∃ F, Books w.heap w.live w.rest F) ?_ ?_ h
  · rintro w ⟨mem, start, end_, s, hinit, hend, rfl⟩
    exact ⟨_, Books.start hinit hend⟩
  · rintro w op w' ⟨F, k⟩ step
    exact Step.books step k

/-! ## What the callers get -/

/-- What `class_for` and the buddy allocator promise of one block. -/
structure Served (l : Ledger) (b : Block) : Prop where
  nonnull : b.ptr ≠ null
  aligned : b.layout.align ∣ b.ptr
  fits : b.layout.size ≤ b.layout.bytes
  inside : ∀ a, b.ptr ≤ a → a < b.ptr + b.layout.bytes → virtOffset ≤ a ∧
    ∃ f ∈ l.held, f.ppn ≤ pageNum (a - virtOffset) ∧ pageNum (a - virtOffset) < f.ppn + f.count

/-- The nine lists visit `F`: no block twice, no two blocks that meet, and each a block of its
class in a frame that was cut for it. -/
structure Listed (h : Heap) (F : Class → List Nat) : Prop where
  threaded : ∀ c, Threaded (link h.phys.mem) null (h.free c) (F c)
  nodup : ∀ c, (F c).Nodup
  apart : ∀ c d p q, p ∈ F c → q ∈ F d → c ≠ d ∨ p ≠ q →
    (⟨p, classSize c⟩ : Span).Apart ⟨q, classSize d⟩
  aligned : ∀ c, ∀ p ∈ F c, classSize c ∣ p
  cut : ∀ c, ∀ p ∈ F c, ∃ slab ∈ h.ledger.slabs, slab.cls = c ∧
    p ∈ blocks (asPtr slab.ppn) (classSize c) (pageSize / classSize c)

structure Sound (w : World) : Prop where
  obtained : ∃ L, Inv w.heap.phys (w.heap.ledger.held + w.rest) L
  served : ∀ b ∈ w.live, Served w.heap.ledger b
  apart : ∀ b others, w.live = b ::ₘ others → ∀ d ∈ others, b.span.Apart d.span
  listed : ∃ F, Listed w.heap F ∧
    ∀ b ∈ w.live, ∀ c, ∀ p ∈ F c, b.span.Apart ⟨p, classSize c⟩
  returns : ∀ layout, ∃ p h, w.heap.alloc layout = some (p, h) ∧ (p = null → h = w.heap)
  accepts : ∀ b ∈ w.live, ∃ h, w.heap.dealloc b.ptr b.layout = some h
  exhausted : ∀ layout c h, layout.classFor = some c → w.heap.alloc layout = some (null, h) →
    w.heap.free c = null ∧ w.heap.phys.pool.frames ≤ w.heap.phys.pool.allocated

section
variable {h : Heap} {live : Multiset Block} {rest : Multiset Frame} {F : Class → List Nat}

theorem asPtr_dvd {d ppn : Nat} (hd : d ∣ pageSize) (h : ppn < 2 ^ 26) : d ∣ asPtr ppn := by
  rw [asPtr_eq h]
  exact Nat.dvd_add (Nat.dvd_trans hd (Nat.dvd_mul_left _ _))
    (Nat.dvd_trans hd (show pageSize ∣ virtOffset by decide))

theorem Books.spans_pos (k : Books h live rest F) {s : Span}
    (hs : s ∈ freeSpans F + live.map Block.span) : 0 < s.len := by
  rw [k.tiled] at hs
  have := k.span_bounds hs
  omega

/-- A span of a class's length was cut from a frame of the class. -/
theorem Books.cut_of (k : Books h live rest F) {c : Class} {p : Nat}
    (hs : (⟨p, classSize c⟩ : Span) ∈ h.ledger.spans) :
    classSize c ∣ p ∧ ∃ slab ∈ h.ledger.slabs, slab.cls = c ∧
      p ∈ blocks (asPtr slab.ppn) (classSize c) (pageSize / classSize c) := by
  rcases mem_spans hs with ⟨slab, hslab, hcut⟩ | ⟨f, -, hspan⟩
  · obtain ⟨hlen, i, hi, hstart⟩ := mem_slab_spans hcut
    obtain rfl := classSize_injective hlen
    simp only at hstart
    rw [hstart]
    refine ⟨Nat.dvd_add (asPtr_dvd (classSize_dvd_page _) ?_) (Nat.dvd_mul_left _ _), slab, hslab,
      rfl, List.mem_map.mpr ⟨i, List.mem_range.mpr hi, rfl⟩⟩
    exact k.ppn_lt (Ledger.held_of_slab hslab)
  · have hlen := congrArg Span.len hspan
    have := (classSize_bounds c).2
    have := runBytes_ge f.order
    simp only [runSpan, pageSize] at *
    omega

theorem Books.listed (k : Books h live rest F) : Listed h F := by
  have hle : freeSpans F ≤ freeSpans F + live.map Block.span := Multiset.le_add_right _ _
  have nodup : (freeSpans F).Nodup :=
    Multiset.nodup_of_le hle (nodup_of_depth k.depth_le_one fun _ => k.spans_pos)
  refine ⟨k.threaded, fun c => ?_, fun c d p q hp hq hne => ?_, fun c p hp => ?_,
    fun c p hp => (k.cut_of (k.free_mem hp)).2⟩
  · have hclass : classSpans c (F c) ≤ freeSpans F :=
      Finset.single_le_sum (fun _ _ => Multiset.zero_le _) (Finset.mem_univ c)
    exact List.Nodup.of_map _ (Multiset.coe_nodup.mp (Multiset.nodup_of_le hclass nodup))
  · refine apart_of_ne k.depth_le_one (fun _ => k.spans_pos)
      (Multiset.mem_of_le hle (mem_freeSpans.mpr ⟨c, hp, rfl⟩))
      (Multiset.mem_of_le hle (mem_freeSpans.mpr ⟨d, hq, rfl⟩)) fun heq => ?_
    rw [Span.mk.injEq] at heq
    exact hne.elim (fun hcd => hcd (classSize_injective heq.2)) fun hpq => hpq heq.1
  · exact (k.cut_of (k.free_mem hp)).1

theorem Books.align_dvd (k : Books h live rest F) {b : Block} (hb : b ∈ live) :
    b.layout.align ∣ b.ptr := by
  rcases hc : b.layout.classFor with _ | c
  · obtain ⟨f, hf, -, -, hptr⟩ := k.run_of hb hc
    rw [hptr, ← asPtr_eq (k.ppn_lt (Ledger.held_of_run hf))]
    refine asPtr_dvd ?_ (k.ppn_lt (Ledger.held_of_run hf))
    have halign := k.aligned b hb hc
    rw [Layout.align, show pageSize = 2 ^ 12 from rfl] at halign ⊢
    exact Nat.pow_dvd_pow 2 ((Nat.pow_le_pow_iff_right (by decide)).mp halign)
  · have hmem := k.live_mem hb
    rw [Block.span, Layout.bytes, hc] at hmem
    exact Nat.dvd_trans (Layout.classFor_some hc).2 (k.cut_of hmem).1

theorem Books.served (k : Books h live rest F) {b : Block} (hb : b ∈ live) :
    Served h.ledger b := by
  have hmem := k.live_mem hb
  have hbound := k.span_bounds hmem
  refine ⟨ne_null hbound.2.1, k.align_dvd hb, b.layout.size_le_bytes, fun a lo hi => ?_⟩
  have ha : virtOffset ≤ a := Nat.le_trans hbound.2.1 lo
  refine ⟨ha, framesOver_pos (k.inside hmem ?_ ?_)⟩
  · rw [Nat.sub_add_cancel ha]
    exact lo
  · rw [Nat.sub_add_cancel ha]
    exact hi

theorem Books.refill_none (k : Books h live rest F) {c : Class}
    (heq : h.refill c = some (false, h)) : h.phys.pool.frames ≤ h.phys.pool.allocated := by
  obtain ⟨L, inv⟩ := k.buddy
  by_contra room
  have hsome := inv.allocOrder_isSome (by omega)
  rcases hf : h.phys.allocOrder 0 with ⟨_ | f, phys⟩
  · rw [hf] at hsome
    cases hsome
  · rw [Heap.refill, hf] at heq
    obtain ⟨reserved, -, hret⟩ := Option.bind_eq_some_iff.mp heq
    cases hret

/-- A request of a class is refused only when its list is empty and no frame is left. -/
theorem Books.small_refused (k : Books h live rest F) {layout : Layout} {c : Class} {h' : Heap}
    (hc : layout.classFor = some c) (heq : h.alloc layout = some (null, h')) :
    h.free c = null ∧ h.phys.pool.frames ≤ h.phys.pool.allocated := by
  simp only [Heap.alloc, hc] at heq
  by_cases hdry : h.free c = null
  · refine ⟨hdry, ?_⟩
    rw [if_pos hdry] at heq
    rcases k.refill c with hnull | ⟨h₁, xs, hfill, hne, k₁⟩
    · exact k.refill_none hnull
    · obtain ⟨h₂, -, htake, -⟩ := k₁.pop hc hne
      rw [hfill] at heq
      have hptr := congrArg (Option.map Prod.fst) (htake.symm.trans heq)
      exact absurd (Option.some.inj hptr) hne
  · rw [if_neg hdry] at heq
    obtain ⟨h₂, -, htake, -⟩ := k.pop hc hdry
    have hptr := congrArg (Option.map Prod.fst) (htake.symm.trans heq)
    exact absurd (Option.some.inj hptr) hdry

end

/-- In every run, whatever the buddy allocator refuses. -/
theorem reach_contract {w : World} (h : Reach system w) : Sound w := by
  obtain ⟨F, k⟩ := Reach.books h
  refine ⟨k.buddy, fun b hb => k.served hb, fun b others hlive d hd => ?_,
    ⟨F, k.listed, fun b hb c p hp => ?_⟩, fun layout => ?_, fun b hb => ?_,
    fun layout c h' hc heq => k.small_refused hc heq⟩
  · rw [hlive] at k
    exact k.live_apart (Multiset.mem_add.mpr (.inr (Multiset.mem_map_of_mem _ hd)))
  · obtain ⟨others, hlive⟩ := Multiset.exists_cons_of_mem hb
    rw [hlive] at k
    exact k.live_apart (Multiset.mem_add.mpr (.inl (mem_freeSpans.mpr ⟨c, hp, rfl⟩)))
  · rcases k.alloc layout with hnull | ⟨p, h', F', heq, hne, -⟩
    · exact ⟨null, w.heap, hnull, fun _ => rfl⟩
    · exact ⟨p, h', heq, fun hnull => absurd hnull hne⟩
  · obtain ⟨others, hlive⟩ := Multiset.exists_cons_of_mem hb
    rw [hlive] at k
    obtain ⟨h', -, heq, -⟩ := k.dealloc
    exact ⟨h', heq⟩

/-- Three words, aligned to a word. -/
def threeWords : Layout := ⟨24, 3, by decide, by decide⟩

/-- The first allocation after boot. -/
theorem first_granted : ∃ w b, Reach system w ∧ w.live = {b} ∧ b.layout = threeWords := by
  obtain ⟨s, hinit, -, havail⟩ := Buddy.boot
  have start : Reach system ⟨.new s, 0, 0⟩ :=
    .init ⟨_, _, _, s, hinit, by decide, rfl⟩
  have k := Books.start hinit (by decide)
  rcases k.alloc threeWords with hnull | ⟨p, h', F', heq, hne, -⟩
  · have hfull := (k.small_refused (c := ⟨2, by decide⟩) rfl hnull).2
    simp only [Heap.new] at hfull
    have : s.pool.frames - s.pool.allocated = 0x7800 := havail
    omega
  · exact ⟨_, ⟨p, threeWords⟩, .step (.alloc threeWords) start (.granted heq hne), rfl, rfl⟩

theorem first_granted_sound : ∃ w b, w.live = {b} ∧ b.layout = threeWords ∧ Sound w := by
  obtain ⟨w, b, hreach, hlive, hlayout⟩ := first_granted
  exact ⟨w, b, hlive, hlayout, reach_contract hreach⟩

/-! ## Conservation -/

/-- Pointers of the live blocks of a class. -/
def World.liveIn (w : World) (c : Class) : Multiset Nat :=
  (w.live.filter fun b => b.layout.classFor = some c).map Block.ptr

/-- The blocks of every frame that `refill` has claimed for a class. -/
def World.cutIn (w : World) (c : Class) : Multiset Nat :=
  (w.heap.ledger.slabs.filter fun slab => slab.cls = c).bind fun slab =>
    blocks (asPtr slab.ppn) (classSize slab.cls) (pageSize / classSize slab.cls)

structure Balanced (w : World) : Prop where
  allocated : w.heap.stats.1 = (w.live.map fun b => b.layout.bytes).sum
  reserved : w.heap.stats.2 = pageSize * (w.heap.ledger.held.map Frame.count).sum
  obtained : ∃ L, Inv w.heap.phys (w.heap.ledger.held + w.rest) L
  conserved : ∃ F : Class → List Nat,
    (∀ c, Threaded (link w.heap.phys.mem) null (w.heap.free c) (F c)) ∧
    (∀ c, (F c : Multiset Nat) + w.liveIn c = w.cutIn c ∧ (w.cutIn c).Nodup) ∧
    w.heap.reserved = w.heap.allocated + ∑ c, (F c).length * classSize c
  covered : ∀ b ∈ w.live, ∃ h, w.heap.dealloc b.ptr b.layout = some h

theorem Layout.bytes_eq_iff (layout : Layout) (c : Class) :
    layout.bytes = classSize c ↔ layout.classFor = some c := by
  rcases hc : layout.classFor with _ | d
  · have := runBytes_ge layout.order
    have := (classSize_bounds c).2
    simp only [Layout.bytes, hc, pageSize, reduceCtorEq, iff_false] at *
    omega
  · simp only [Layout.bytes, hc, Option.some.injEq]
    exact ⟨classSize_injective, congrArg classSize⟩

theorem freeSpans_eq_bind (F : Class → List Nat) :
    freeSpans F = Finset.univ.val.bind fun c => classSpans c (F c) := rfl

theorem bytes_freeSpans (F : Class → List Nat) :
    bytes (freeSpans F) = ∑ c, (F c).length * classSize c := by
  rw [freeSpans_eq_bind, bytes_bind]
  refine Finset.sum_congr rfl fun c _ => ?_
  simp [bytes, classSpans, Function.comp_def]

section
variable {h : Heap} {live : Multiset Block} {rest : Multiset Frame} {F : Class → List Nat}

theorem freeSpans_filter (F : Class → List Nat) (c : Class) :
    (freeSpans F).filter (fun s => s.len = classSize c) = classSpans c (F c) := by
  have hlen : ∀ d, (classSpans d (F d)).filter (fun s => s.len = classSize c) =
      if d = c then classSpans d (F d) else 0 := by
    intro d
    rw [filter_len (n := classSize d) (by simp [classSpans])]
    exact if_congr ⟨classSize_injective, congrArg classSize⟩ rfl rfl
  rw [freeSpans_eq_bind, Multiset.filter_bind]
  simp only [hlen]
  rw [← Multiset.bind_filter, ← Finset.filter_val, Finset.filter_eq' Finset.univ c,
    if_pos (Finset.mem_univ c)]
  simp

theorem spans_filter (l : Ledger) (c : Class) :
    l.spans.filter (fun s => s.len = classSize c) =
      (l.slabs.filter fun slab => slab.cls = c).bind Slab.spans := by
  have hslab : ∀ slab : Slab, slab.spans.filter (fun s => s.len = classSize c) =
      if slab.cls = c then slab.spans else 0 := by
    intro slab
    rw [filter_len fun s hs => (mem_slab_spans hs).1]
    exact if_congr ⟨classSize_injective, congrArg classSize⟩ rfl rfl
  have hruns : (l.runs.map runSpan).filter (fun s => s.len = classSize c) = 0 := by
    refine Multiset.filter_eq_nil.mpr fun s hs hlen => ?_
    obtain ⟨f, -, rfl⟩ := Multiset.mem_map.mp hs
    have := runBytes_ge f.order
    have := (classSize_bounds c).2
    simp only [runSpan, pageSize] at *
    omega
  rw [Ledger.spans, Multiset.filter_add, hruns, add_zero, Multiset.filter_bind,
    Multiset.bind_filter]
  simp only [hslab]

/-- Per class: every block of its frames is on its list or live, and only once. -/
theorem Books.partition {w : World} (k : Books w.heap w.live w.rest F) (c : Class) :
    (F c : Multiset Nat) + w.liveIn c = w.cutIn c ∧ (w.cutIn c).Nodup := by
  have hclass : classSpans c (F c) +
      (w.live.filter fun b => b.layout.classFor = some c).map Block.span =
      (w.heap.ledger.slabs.filter fun slab => slab.cls = c).bind Slab.spans := by
    rw [← spans_filter, ← k.tiled, Multiset.filter_add, freeSpans_filter, Multiset.filter_map]
    congr 2
    exact Multiset.filter_congr fun b _ => (b.layout.bytes_eq_iff c).symm
  have hcut : ((w.heap.ledger.slabs.filter fun slab => slab.cls = c).bind Slab.spans).map
      Span.start = w.cutIn c := by
    rw [Multiset.map_bind]
    refine Multiset.bind_congr fun slab _ => ?_
    rw [Slab.spans, Multiset.map_coe, map_start_pieces]
    rfl
  constructor
  · have hstart := congrArg (Multiset.map Span.start) hclass
    rw [hcut, Multiset.map_add, Multiset.map_map] at hstart
    rw [← hstart]
    congr 1
    simp [classSpans, Function.comp_def]
  · rw [← hcut, ← spans_filter, ← k.tiled]
    refine Multiset.Nodup.map_on (fun s hs t ht heq => ?_)
      ((nodup_of_depth k.depth_le_one fun _ => k.spans_pos).filter _)
    have hlen := (Multiset.mem_filter.mp hs).2.trans (Multiset.mem_filter.mp ht).2.symm
    obtain ⟨p, n⟩ := s
    obtain ⟨q, n'⟩ := t
    simp only at heq hlen
    rw [heq, hlen]

end

theorem reach_balanced {w : World} (h : Reach system w) : Balanced w := by
  obtain ⟨F, k⟩ := Reach.books h
  refine ⟨?_, k.reserved, k.buddy, ⟨F, k.threaded, k.partition, ?_⟩, fun b hb => ?_⟩
  · rw [Heap.stats, k.allocated, bytes, Multiset.map_map]
    rfl
  · rw [← k.balance, bytes_freeSpans, Nat.add_comm]
  · obtain ⟨others, hlive⟩ := Multiset.exists_cons_of_mem hb
    rw [hlive] at k
    obtain ⟨h', -, heq, -⟩ := k.dealloc
    exact ⟨h', heq⟩

theorem first_granted_balanced : ∃ w b, w.live = {b} ∧ b.layout = threeWords ∧ Balanced w := by
  obtain ⟨w, b, hreach, hlive, hlayout⟩ := first_granted
  exact ⟨w, b, hlive, hlayout, reach_balanced hreach⟩

end AlexOS.KernelHeap
