import AlexOS.Mm.FrameOps
import AlexOS.Mm.Owned
import AlexOS.Lib.Run

/-!
# Every run of the buddy allocator

The callers' side is the multiset of runs they hold. Free family and held runs
tile the managed frames, and `alloc`, `free` and writes by the holders keep it
so from `init` on.
-/

namespace AlexOS

open Blocks Bytes

namespace Buddy

open State Chain

/-- Free blocks and held runs tile the managed frames. -/
structure Inv (s : State) (live : Multiset Frame) (L : Nat → List Nat) : Prop where
  rep : Rep s L
  held : ∀ f ∈ live, ∃ i, f.ppn = s.pool.base + i ∧ Block s.pool.frames f.order i
  tiled : ∀ i, freeOver L i + framesOver live (s.pool.base + i) =
    if i < s.pool.frames then 1 else 0
  count : s.pool.allocated = (live.map Frame.count).sum

section
variable {s : State} {live : Multiset Frame} {L : Nat → List Nat}

theorem Inv.start {mem : Mem} {start end_ : Usize} (h : init mem start end_ = some s) :
    ∃ L, Inv s 0 L := by
  obtain ⟨up, hup⟩ := init_alignUp h
  obtain ⟨L, rep, count, -, -, tiled⟩ := init_spec hup h
  exact ⟨L, rep, by simp, by simpa [framesOver] using tiled, by simpa using count⟩

/-- A held frame is a managed one, and not free. -/
theorem Inv.not_free (h : Inv s live L) {p : Nat} (hp : 0 < framesOver live p) :
    ∃ i, p = s.pool.base + i ∧ i < s.pool.frames ∧ freeOver L i = 0 := by
  obtain ⟨f, hf, lo, hi⟩ := framesOver_pos hp
  obtain ⟨i, hi', b⟩ := h.held f hf
  have hb := b.2.2
  simp only [Frame.count] at hi
  have htile := h.tiled (p - s.pool.base)
  have hsub : s.pool.base + (p - s.pool.base) = p := by omega
  rw [hsub, if_pos (by omega)] at htile
  exact ⟨p - s.pool.base, hsub.symm, by omega, by omega⟩

theorem Inv.live_le (h : Inv s live L) (p : Nat) : framesOver live p ≤ 1 := by
  by_contra hp
  obtain ⟨i, rfl, hi, hfree⟩ := h.not_free (p := p) (by omega)
  have := h.tiled i
  rw [if_pos hi] at this
  omega

theorem Inv.kept (h : Inv s live L) {t : State} {free : Nat → Nat} (ht : Untouched s t free)
    (sub : ∀ i, freeOver L i = 0 → 0 < framesOver live (s.pool.base + i) → free i = 0) :
    Kept live s.mem t.mem := by
  intro a ha
  obtain ⟨i, hi, -, hfree⟩ := h.not_free ha
  exact ht i a (sub i hfree (hi ▸ ha)) hi

/-- A free list visits a block over the frame `p`. -/
def IsFree (s : State) (p : Nat) : Prop :=
  ∃ k xs, k ≤ maxOrder ∧ Linked s.next s.prev nil nil (s.pool.freeLists k) xs ∧
    ∃ x ∈ xs, s.pool.base + x ≤ p ∧ p < s.pool.base + x + 2 ^ k

theorem Inv.isFree_apart (h : Inv s live L) {p : Nat} (hp : IsFree s p) :
    framesOver live p = 0 := by
  obtain ⟨k, xs, hk, hl, x, hx, lo, hi⟩ := hp
  obtain rfl : xs = L k := hl.unique (h.rep.linked k hk)
  obtain ⟨i, rfl⟩ := Nat.exists_eq_add_of_le (Nat.le_trans (Nat.le_add_right _ x) lo)
  have hcover := cover_le_coverage (f := i) (Nat.lt_add_one_of_le hk) hx
  rw [cover_eq_one (by omega) (by omega)] at hcover
  have htile := h.tiled i
  have hone : (if i < s.pool.frames then 1 else 0) ≤ 1 := by split <;> omega
  rw [freeOver] at htile
  omega

theorem Inv.alloc (h : Inv s live L) (order : Nat) :
    s.alloc order = (none, s) ∨
    ∃ ppn s' L', s.alloc order = (some ppn, s') ∧ Inv s' (⟨ppn, order⟩ ::ₘ live) L' ∧
      s'.pool.base = s.pool.base ∧ s'.pool.frames = s.pool.frames ∧ Kept live s.mem s'.mem := by
  rcases alloc_spec h.rep order with
    none | ⟨i, s', L', heq, rep, b, hbase, hframes, hcount, kept, total⟩
  · exact .inl none
  refine .inr ⟨_, s', L', heq, ⟨rep, ?_, ?_, ?_⟩, hbase, hframes, h.kept kept fun _ hf _ => hf⟩
  · intro f hf
    rw [hbase, hframes]
    rcases Multiset.mem_cons.mp hf with rfl | hf
    · exact ⟨i, rfl, b⟩
    · exact h.held f hf
  · intro j
    have htile := h.tiled j
    rw [hbase, hframes, framesOver_cons, ← htile, ← total j]
    simp only [cover_add]
    omega
  · rw [hcount, h.count, Multiset.map_cons, Multiset.sum_cons, Nat.add_comm]
    rfl

theorem Inv.free {f : Frame} (h : Inv s (f ::ₘ live) L) :
    ∃ s' L', s.free f.ppn f.order = some s' ∧ Inv s' live L' ∧ s'.pool.base = s.pool.base ∧
      s'.pool.frames = s.pool.frames ∧ Kept live s.mem s'.mem := by
  obtain ⟨i, hi, b⟩ := h.held f (Multiset.mem_cons_self f live)
  have hcount := h.count
  rw [Multiset.map_cons, Multiset.sum_cons, Frame.count] at hcount
  have htile : ∀ j, freeOver L j + (cover f.order i j + framesOver live (s.pool.base + j)) =
      if j < s.pool.frames then 1 else 0 := by
    intro j
    have := h.tiled j
    rwa [framesOver_cons, hi, cover_add] at this
  have hone : ∀ j, (if j < s.pool.frames then 1 else 0) ≤ 1 := by intro j; split <;> omega
  obtain ⟨s', L', heq, rep, hbase, hframes, hcount', kept, total⟩ :=
    free_spec h.rep b (fun j => by have := htile j; have := hone j; omega) (by omega)
  rw [hi]
  refine ⟨s', L', heq, ⟨rep, ?_, ?_, by omega⟩, hbase, hframes, ?_⟩
  · intro g hg
    rw [hbase, hframes]
    exact h.held g (Multiset.mem_cons_of_mem hg)
  · intro j
    rw [hbase, hframes, total, ← htile j]
    omega
  · intro a ha
    obtain ⟨j, hj, -, hfree⟩ := h.not_free (p := pageNum a) (by rw [framesOver_cons]; omega)
    have := htile j
    have := hone j
    rw [hj] at ha
    exact kept j a (show freeOver L j + cover f.order i j = 0 by omega) hj

theorem Inv.aligned (h : Inv s live L) {f : Frame} (hf : f ∈ live) : f.ppn % 2 ^ f.order = 0 := by
  obtain ⟨i, hi, hk, hdvd, -⟩ := h.held f hf
  have hbase := Nat.dvd_trans (Nat.pow_dvd_pow 2 hk) h.rep.geometry.baseAligned
  rw [hi]
  exact Nat.mod_eq_zero_of_dvd (Nat.dvd_add hbase hdvd)

/-- The allocator reads the bitmap and the two links of every free block, nothing else. -/
theorem Inv.rewrite (h : Inv s live L) {mem : Mem}
    (low : ∀ a, pageNum a < s.pool.base → mem a = s.mem a)
    (links : ∀ k, k ≤ maxOrder → ∀ x ∈ L k, ∀ a, pageNum a = s.pool.base + x →
      pageOffset a < 16 → mem a = s.mem a) : Inv { s with mem := mem } live L := by
  have r := h.rep
  refine ⟨⟨r.geometry, fun k hk => (r.linked k hk).congr ?_ ?_, ?_, r.blocks, r.apart⟩, h.held,
    h.tiled, h.count⟩
  · intro x hx
    refine read64_congr fun a lo hi => links k hk x hx a ?_ ?_ <;>
      simp only [State.node, baseAddr, pageNum, pageOffset, pageSize] at * <;> omega
  · intro x hx
    refine read64_congr fun a lo hi => links k hk x hx a ?_ ?_ <;>
      simp only [State.node, baseAddr, pageNum, pageOffset, pageSize] at * <;> omega
  · intro k i hbit
    have hword := word_below r.geometry hbit 0
    rw [← r.bits k i hbit]
    refine iff_of_eq (congrArg (· = true) (bitAt_congr fun a lo hi => low a ?_))
    simp only [State.node, State.bitIndex, baseAddr, pageNum, pageSize] at *
    omega

/-- The lists and the bitmap live outside every held frame. -/
theorem Inv.write (h : Inv s live L) {mem : Mem}
    (outside : ∀ a, framesOver live (pageNum a) = 0 → mem a = s.mem a) :
    Inv { s with mem := mem } live L := by
  refine h.rewrite (fun a ha => ?_) fun k hk x hx a ha _ => ?_
  · refine outside a (Nat.eq_zero_of_not_pos fun hp => ?_)
    obtain ⟨i, hi, -⟩ := h.not_free hp
    omega
  · refine outside a ?_
    have hfree := cover_le_coverage (f := x) (Nat.lt_add_one_of_le hk) hx
    have htile := h.tiled x
    rw [cover_self] at hfree
    rw [if_pos (h.rep.blocks k hk x hx).lt, freeOver] at htile
    rw [ha]
    omega

end

/-! ## Free frames -/

theorem sum_framesOver {base frames : Nat} {live : Multiset Frame}
    (held : ∀ f ∈ live, ∃ i, f.ppn = base + i ∧ Block frames f.order i) :
    ∑ i ∈ Finset.range frames, framesOver live (base + i) = (live.map Frame.count).sum := by
  induction live using Multiset.induction_on with
  | empty => simp [framesOver]
  | cons f live ih =>
    obtain ⟨j, hj, b⟩ := held f (Multiset.mem_cons_self f live)
    have rest := ih fun g hg => held g (Multiset.mem_cons_of_mem hg)
    simp only [framesOver_cons, Finset.sum_add_distrib, rest, hj, cover_add, sum_cover b.2.2]
    simp [Frame.count]

/-- What is neither free nor counted as allocated does not exist. -/
theorem Inv.balance {s : State} {live : Multiset Frame} {L : Nat → List Nat} (h : Inv s live L) :
    ∑ i ∈ Finset.range s.pool.frames, freeOver L i + s.pool.allocated = s.pool.frames := by
  rw [h.count, ← sum_framesOver h.held, ← Finset.sum_add_distrib]
  have : ∀ i ∈ Finset.range s.pool.frames,
      freeOver L i + framesOver live (s.pool.base + i) = 1 := fun i hi => by
    rw [h.tiled, if_pos (Finset.mem_range.mp hi)]
  rw [Finset.sum_congr rfl this]
  simp

theorem Inv.alloc_isSome {s : State} {live : Multiset Frame} {L : Nat → List Nat}
    (h : Inv s live L) (avail : s.pool.allocated < s.pool.frames) :
    ∃ ppn s', s.alloc 0 = (some ppn, s') := by
  have hbal := h.balance
  obtain ⟨i, -, hi⟩ := Finset.exists_ne_zero_of_sum_ne_zero
    (show ∑ i ∈ Finset.range s.pool.frames, freeOver L i ≠ 0 by omega)
  obtain ⟨k, hk, x, hx, -⟩ := exists_of_coverage_pos (Nat.pos_of_ne_zero hi)
  exact h.rep.alloc_of_listed (Nat.zero_le k) (Nat.le_of_lt_succ hk) hx

theorem Inv.allocOrder {s s' : State} {live : Multiset Frame} {L : Nat → List Nat} {k : Nat}
    {f : Frame} (h : Inv s live L) (heq : s.allocOrder k = (some f, s')) :
    f.order = k ∧ (∃ L', Inv s' (f ::ₘ live) L') ∧ s'.pool.base = s.pool.base ∧
      s'.pool.frames = s.pool.frames ∧ Kept live s.mem s'.mem ∧ Zeroed f s'.mem := by
  rcases h.alloc k with none | ⟨ppn, t, L', some, inv, hbase, hframes, kept⟩
  · simp [State.allocOrder, none] at heq
  simp only [State.allocOrder, some, Prod.mk.injEq, Option.some.injEq] at heq
  obtain ⟨rfl, rfl⟩ := heq
  have inside : ∀ a, (baseAddr ppn ≤ a ∧ a < baseAddr ppn + 2 ^ k * pageSize) ↔
      ppn ≤ pageNum a ∧ pageNum a < ppn + 2 ^ k := by
    intro a
    simp only [baseAddr, pageNum, pageSize]
    omega
  refine ⟨rfl, ⟨L', inv.write fun a ha => ?_⟩, hbase, hframes, fun a ha => ?_, fun a lo hi => ?_⟩
  · refine if_neg fun hin => ?_
    have := framesOver_of_mem (Multiset.mem_cons_self ⟨ppn, k⟩ live) ((inside a).mp hin).1
      ((inside a).mp hin).2
    omega
  · rw [← kept a ha]
    refine if_neg fun hin => ?_
    have hone := inv.live_le (pageNum a)
    rw [framesOver_cons, cover_eq_one ((inside a).mp hin).1 ((inside a).mp hin).2] at hone
    omega
  · exact if_pos ((inside a).mpr ⟨lo, hi⟩)

section
variable {s s' : State} {live : Multiset Frame} {L : Nat → List Nat} {f : Frame} {k n : Nat}

theorem Inv.ppn_lt (inv : Inv s live L) (htop : s.pool.base + s.pool.frames ≤ n) (hf : f ∈ live) :
    f.ppn + f.count ≤ n := by
  obtain ⟨i, hi, b⟩ := inv.held f hf
  have := b.2.2
  simp only [Frame.count]
  omega

theorem Inv.alloc_avail (inv : Inv s live L) (heq : s.allocOrder k = (some f, s')) :
    s'.pool.frames - s'.pool.allocated + f.count = s.pool.frames - s.pool.allocated := by
  obtain ⟨-, ⟨L', inv'⟩, -, hframes, -⟩ := inv.allocOrder heq
  have hcount := inv'.count
  have hbal := inv'.balance
  rw [Multiset.map_cons, Multiset.sum_cons, ← inv.count] at hcount
  omega

theorem Inv.allocOrder_isSome (inv : Inv s live L) (room : 0 < s.pool.frames - s.pool.allocated) :
    (s.allocOrder 0).1.isSome = true := by
  obtain ⟨ppn, s', heq⟩ := inv.alloc_isSome (by omega)
  simp [State.allocOrder, heq]

end

/-- The allocator as its callers see it, for frames inside the 56-bit physical
address space. -/
def allocator : CountedAllocator BuddyAllocator where
  allocOrder := State.allocOrder
  free s f := State.free s f.ppn f.order
  Holds s live := s.pool.base + s.pool.frames ≤ 2 ^ 44 ∧ ∃ L, Inv s live L
  Free := IsFree
  free_apart := by
    rintro s live p ⟨-, L, inv⟩ hp
    exact inv.isFree_apart hp
  avail s := s.pool.frames - s.pool.allocated
  ppn_lt := by
    rintro s live f ⟨htop, L, inv⟩ hf
    exact inv.ppn_lt htop hf
  apart := by
    rintro s live ⟨-, L, inv⟩ p
    exact inv.live_le p
  alloc_none := by
    rintro s s' live k ⟨-, L, inv⟩ heq
    rcases inv.alloc k with none | ⟨_, _, _, some, -⟩
    · simp only [State.allocOrder, none, Prod.mk.injEq] at heq
      exact heq.2.symm
    · simp [State.allocOrder, some] at heq
  alloc_some := by
    rintro s s' live k f ⟨htop, L, inv⟩ heq
    obtain ⟨horder, inv', hbase, hframes, kept, zeroed⟩ := inv.allocOrder heq
    exact ⟨horder, ⟨by rw [hbase, hframes]; exact htop, inv'⟩, kept, zeroed⟩
  free_some := by
    rintro s live f ⟨htop, L, inv⟩
    obtain ⟨s', L', heq, inv', hbase, hframes, kept⟩ := inv.free
    exact ⟨s', heq, ⟨by rw [hbase, hframes]; exact htop, L', inv'⟩, kept⟩
  write := by
    rintro s live mem ⟨htop, L, inv⟩ outside
    exact ⟨htop, L, inv.write outside⟩
  alloc_avail := by
    rintro s s' live k f ⟨-, L, inv⟩ heq
    exact inv.alloc_avail heq
  alloc_isSome := by
    rintro s live ⟨-, L, inv⟩ havail
    exact inv.allocOrder_isSome havail
  write_avail := fun _ _ => rfl

theorem allocator_start {mem : Mem} {start end_ : Usize} {s : State}
    (h : init mem start end_ = some s) (hend : end_.val ≤ 2 ^ 56) : allocator.Holds s 0 := by
  obtain ⟨up, hup⟩ := init_alignUp h
  obtain ⟨-, -, -, -, htop, -⟩ := init_spec hup h
  refine ⟨?_, Inv.start h⟩
  simp only [pageNum, alignDown, pageSize] at htop
  omega

/-- All of DRAM above a kernel image that ends at `0x80400000`, whatever it holds. -/
theorem boot_of (mem : Mem) : ∃ s, init mem 0x80400000 0x88000000 = some s ∧ allocator.Holds s 0 ∧
    allocator.avail s = 0x7800 := by
  have hup : alignUp (0x80400000 : Usize).val = some 0x80400000 := by decide
  obtain ⟨s, hs⟩ := init_isSome mem hup
    (show pageNum 0x80400000 < pageNum (alignDown (0x88000000 : Usize).val) by decide) (by decide)
  obtain ⟨-, -, hcount, hbase, htop, -⟩ := init_spec hup hs
  have hbase : s.pool.base = 0x80800 := hbase.trans (by decide)
  have htop : s.pool.base + s.pool.frames = 0x88000 := htop.trans (by decide)
  refine ⟨s, hs, allocator_start hs (by decide), ?_⟩
  simp only [allocator]
  omega

theorem boot : ∃ s, init (fun _ => 0) 0x80400000 0x88000000 = some s ∧ allocator.Holds s 0 ∧
    allocator.avail s = 0x7800 :=
  boot_of _

/-- The allocator and the runs its callers hold. -/
structure World where
  state : State
  live : List Frame

inductive Op where
  | alloc (order : Nat)
  | free (frame : Frame)
  | write (addr : Nat) (byte : UInt8)

/-- A caller allocates, frees a run it holds, or writes inside one. -/
inductive Step : World → Op → World → Prop where
  | alloc {s s' : State} {live : List Frame} {order ppn : Nat} :
      s.alloc order = (some ppn, s') → Step ⟨s, live⟩ (.alloc order) ⟨s', ⟨ppn, order⟩ :: live⟩
  | exhausted {s s' : State} {live : List Frame} {order : Nat} :
      s.alloc order = (none, s') → Step ⟨s, live⟩ (.alloc order) ⟨s', live⟩
  | free {s s' : State} {live : List Frame} {f : Frame} :
      f ∈ live → s.free f.ppn f.order = some s' → Step ⟨s, live⟩ (.free f) ⟨s', live.erase f⟩
  | write {s : State} {live : List Frame} {f : Frame} {a : Nat} {v : UInt8} :
      f ∈ live → f.ppn ≤ pageNum a → pageNum a < f.ppn + f.count →
      Step ⟨s, live⟩ (.write a v) ⟨{ s with mem := Function.update s.mem a v }, live⟩

def system : System World Op where
  init w := (∃ mem start end_, init mem start end_ = some w.state) ∧ w.live = []
  step := Step

theorem Step.inv {w w' : World} {op : Op} (h : Step w op w') {L : Nat → List Nat}
    (i : Inv w.state w.live L) : ∃ L', Inv w'.state w'.live L' := by
  cases h with
  | @alloc s s' live order ppn heq =>
    rcases i.alloc order with none | ⟨_, _, L', heq', inv, -⟩
    · exact absurd (none.symm.trans heq) (by simp)
    · obtain ⟨rfl, rfl⟩ : ppn = _ ∧ s' = _ := by simpa using heq.symm.trans heq'
      exact ⟨L', inv⟩
  | @exhausted s s' live order heq =>
    rcases i.alloc order with none | ⟨_, _, _, heq', -⟩
    · obtain rfl : s' = s := by simpa using heq.symm.trans none
      exact ⟨L, i⟩
    · exact absurd (heq'.symm.trans heq) (by simp)
  | @free s s' live f hf heq =>
    have i : Inv s live L := i
    rw [Multiset.coe_eq_coe.mpr (List.perm_cons_erase hf), ← Multiset.cons_coe] at i
    obtain ⟨_, L', heq', inv, -⟩ := i.free
    obtain rfl : s' = _ := by simpa using heq.symm.trans heq'
    exact ⟨L', inv⟩
  | @write s live f a v hf lo hi =>
    refine ⟨L, i.write fun b hb => Function.update_of_ne ?_ ..⟩
    rintro rfl
    exact absurd hb (framesOver_of_mem (Multiset.mem_coe.mpr hf) lo hi).ne'

theorem Reach.inv {w : World} (h : Reach system w) : ∃ L, Inv w.state w.live L := by
  refine Reach.invariant (fun w => ∃ L, Inv w.state w.live L) ?_ ?_ h
  · rintro w ⟨⟨mem, start, end_, hinit⟩, hlive⟩
    obtain ⟨L, inv⟩ := Inv.start hinit
    exact ⟨L, by rw [hlive]; exact inv⟩
  · rintro w op w' ⟨L, inv⟩ hstep
    exact Step.inv hstep inv

/-! ## What every run keeps -/

inductive Holder where
  | free
  | live
deriving DecidableEq

/-- A block is free when its order's list visits it, live when a caller holds it. -/
def World.HasBlock (w : World) : Holder → Nat → Nat → Prop
  | .free, k, x => k ≤ maxOrder ∧ ∃ xs,
      Linked w.state.next w.state.prev nil nil (w.state.pool.freeLists k) xs ∧ x ∈ xs
  | .live, k, x => (⟨w.state.pool.base + x, k⟩ : Frame) ∈ w.live

/-- The list of order `k` visits `xs`, and the links of each cell agree. -/
structure ListOk (s : State) (k : Nat) (xs : List Nat) : Prop where
  linked : Linked s.next s.prev nil nil (s.pool.freeLists k) xs
  nodup : xs.Nodup
  back : ∀ x ∈ xs, s.next x ≠ nil → s.prev (s.next x) = x
  forth : ∀ x ∈ xs, s.prev x ≠ nil → s.next (s.prev x) = x
  bits : ∀ x, x ∈ xs ↔
    ∃ i, i < divCeil s.pool.frames (2 ^ k) ∧ x = i * 2 ^ k ∧ s.isFree k x = true

structure Sound (w : World) : Prop where
  oneBlock : ∀ i, i < w.state.pool.frames →
    ∃! b : Holder × Nat × Nat, w.HasBlock b.1 b.2.1 b.2.2 ∧ b.2.2 ≤ i ∧ i < b.2.2 + 2 ^ b.2.1
  freeBlocks : ∀ k x, w.HasBlock .free k x → 2 ^ k ∣ x ∧ x + 2 ^ k ≤ w.state.pool.frames
  lists : ∀ k, k ≤ maxOrder → ∃ xs, ListOk w.state k xs
  counted : w.state.pool.allocated = (w.live.map Frame.count).sum
  apart : w.live.Pairwise fun f g => f.ppn + f.count ≤ g.ppn ∨ g.ppn + g.count ≤ f.ppn
  liveBlocks : ∀ f ∈ w.live, f.ppn % 2 ^ f.order = 0 ∧ w.state.pool.base ≤ f.ppn ∧
    f.ppn + f.count ≤ w.state.pool.base + w.state.pool.frames
  freeable : ∀ f ∈ w.live, f.count ≤ w.state.pool.allocated ∧
    (w.state.free f.ppn f.order).isSome = true

section
variable {w : World} {L : Nat → List Nat}

theorem Inv.hasBlock_free (h : Inv w.state w.live L) (k x : Nat) :
    w.HasBlock .free k x ↔ k ≤ maxOrder ∧ x ∈ L k := by
  constructor
  · rintro ⟨hk, xs, hl, hx⟩
    exact ⟨hk, hl.unique (h.rep.linked k hk) ▸ hx⟩
  · rintro ⟨hk, hx⟩
    exact ⟨hk, L k, h.rep.linked k hk, hx⟩

theorem Inv.oneBlock (h : Inv w.state w.live L) {i : Nat} (hi : i < w.state.pool.frames) :
    ∃! b : Holder × Nat × Nat,
      w.HasBlock b.1 b.2.1 b.2.2 ∧ b.2.2 ≤ i ∧ i < b.2.2 + 2 ^ b.2.1 := by
  have htile := h.tiled i
  rw [if_pos hi] at htile
  have hfree : ∀ {k x}, w.HasBlock .free k x → x ≤ i → i < x + 2 ^ k →
      0 < freeOver L i ∧ cover k x i = 1 := by
    intro k x hb lo hup
    obtain ⟨hk, hx⟩ := (h.hasBlock_free k x).mp hb
    have := cover_le_coverage (f := i) (Nat.lt_add_one_of_le hk) hx
    rw [cover_eq_one lo hup] at this
    exact ⟨this, cover_eq_one lo hup⟩
  have hlive : ∀ {k x}, w.HasBlock .live k x → x ≤ i → i < x + 2 ^ k →
      0 < framesOver w.live (w.state.pool.base + i) ∧
        cover k (w.state.pool.base + x) (w.state.pool.base + i) = 1 := by
    intro k x hb lo hup
    refine ⟨framesOver_of_mem (Multiset.mem_coe.mpr hb) ?_ ?_,
      by rw [cover_add, cover_eq_one lo hup]⟩
    · exact Nat.add_le_add_left lo _
    · simp only [Frame.count]; omega
  have some_block : ∃ b : Holder × Nat × Nat,
      w.HasBlock b.1 b.2.1 b.2.2 ∧ b.2.2 ≤ i ∧ i < b.2.2 + 2 ^ b.2.1 := by
    by_cases hz : 0 < freeOver L i
    · obtain ⟨k, hk, x, hx, range⟩ := exists_of_coverage_pos hz
      exact ⟨(.free, k, x), (h.hasBlock_free k x).mpr ⟨Nat.le_of_lt_succ hk, hx⟩, range⟩
    · obtain ⟨f, hf, lo, hup⟩ := framesOver_pos (p := w.state.pool.base + i)
        (show 0 < framesOver w.live _ by omega)
      obtain ⟨x, hx, -⟩ := h.held f hf
      simp only [Frame.count] at hup
      refine ⟨(.live, f.order, x), ?_, show x ≤ i by omega, show i < x + 2 ^ f.order by omega⟩
      simp only [World.HasBlock, ← hx]
      exact hf
  obtain ⟨b, hb, lo, hup⟩ := some_block
  refine ⟨b, ⟨hb, lo, hup⟩, ?_⟩
  obtain ⟨c, k, x⟩ := b
  rintro ⟨c', j, y⟩ ⟨hb', lo', hup'⟩
  cases c <;> cases c'
  · obtain ⟨hk, hx⟩ := (h.hasBlock_free k x).mp hb
    obtain ⟨hj, hy⟩ := (h.hasBlock_free j y).mp hb'
    obtain ⟨rfl, rfl⟩ := block_unique (h.rep.apart i) (Nat.lt_succ_of_le hj) (Nat.lt_succ_of_le hk)
      hy hx (hfree hb' lo' hup').2 (hfree hb lo hup).2
    rfl
  · have := (hfree hb lo hup).1
    have := (hlive hb' lo' hup').1
    omega
  · have := (hfree hb' lo' hup').1
    have := (hlive hb lo hup).1
    omega
  · have := frame_unique (h.live_le _) (Multiset.mem_coe.mpr hb') (Multiset.mem_coe.mpr hb)
      (hlive hb' lo' hup').2 (hlive hb lo hup).2
    obtain ⟨hxy, rfl⟩ : y = x ∧ j = k := by simpa using this
    rw [hxy]

theorem Inv.listOk (h : Inv w.state w.live L) {k : Nat} (hk : k ≤ maxOrder) :
    ListOk w.state k (L k) := by
  have hl := h.rep.linked k hk
  refine ⟨hl, h.rep.nodup hk, fun x => hl.prev_next, fun x => hl.next_prev, fun x => ⟨?_, ?_⟩⟩
  · intro hx
    obtain ⟨i, rfl, hbit⟩ := (h.rep.blocks k hk x hx).hasBit
    exact ⟨i, hbit.2, rfl, (h.rep.bits k i hbit).mpr hx⟩
  · rintro ⟨i, hi, rfl, hfree⟩
    exact (h.rep.bits k i ⟨hk, hi⟩).mp hfree

theorem Inv.liveBlock (h : Inv w.state w.live L) {f : Frame} (hf : f ∈ w.live) :
    f.ppn % 2 ^ f.order = 0 ∧ w.state.pool.base ≤ f.ppn ∧
      f.ppn + f.count ≤ w.state.pool.base + w.state.pool.frames := by
  obtain ⟨i, hi, -, -, hfit⟩ := h.held f (Multiset.mem_coe.mpr hf)
  refine ⟨h.aligned (Multiset.mem_coe.mpr hf), by omega, ?_⟩
  rw [hi, Frame.count]
  omega

theorem Inv.freeable (h : Inv w.state w.live L) {f : Frame} (hf : f ∈ w.live) :
    f.count ≤ w.state.pool.allocated ∧ (w.state.free f.ppn f.order).isSome = true := by
  rw [Multiset.coe_eq_coe.mpr (List.perm_cons_erase hf), ← Multiset.cons_coe] at h
  obtain ⟨s', -, heq, -⟩ := h.free
  have := h.count
  rw [Multiset.map_cons, Multiset.sum_cons] at this
  exact ⟨by omega, by rw [heq]; rfl⟩

end

theorem reach_sound {w : World} (h : Reach system w) : Sound w := by
  obtain ⟨L, inv⟩ := Reach.inv h
  refine ⟨fun _ => inv.oneBlock, fun k x hb => ?_, fun k hk => ⟨L k, inv.listOk hk⟩, ?_,
    frames_pairwise inv.live_le, fun _ => inv.liveBlock, fun _ => inv.freeable⟩
  · obtain ⟨hk, hx⟩ := (inv.hasBlock_free k x).mp hb
    exact (inv.rep.blocks k hk x hx).2
  · simpa using inv.count

theorem Inv.alloc_one {s : State} {live : Multiset Frame} {L : Nat → List Nat} (h : Inv s live L)
    (avail : s.pool.allocated < s.pool.frames) : ∃ ppn s' L', s.alloc 0 = (some ppn, s') ∧
      Inv s' (⟨ppn, 0⟩ ::ₘ live) L' ∧ s'.pool.frames = s.pool.frames := by
  obtain ⟨ppn, s', heq⟩ := h.alloc_isSome avail
  rcases h.alloc 0 with hnone | ⟨ppn', s'', L', heq', inv', -, frames, -⟩
  · cases heq.symm.trans hnone
  · exact ⟨ppn', s'', L', heq', inv', frames⟩

/-- From boot a frame is taken, then another, and the first is given back. -/
theorem taken_and_returned : ∃ s s₁ s₂ s₃ f g, init (fun _ => 0) 0x80400000 0x88000000 = some s ∧
    s.alloc 0 = (some f, s₁) ∧ s₁.alloc 0 = (some g, s₂) ∧ s₂.free f 0 = some s₃ ∧
    s₃.pool.frames = 0x7800 ∧ Reach (system.startAt ⟨s, []⟩) ⟨s₃, [⟨g, 0⟩]⟩ := by
  obtain ⟨s, hs, ⟨-, L, inv⟩, havail⟩ := boot
  have hcount : s.pool.allocated = 0 := inv.count
  have hframes : s.pool.frames - s.pool.allocated = 0x7800 := havail
  have start : Reach (system.startAt ⟨s, []⟩) ⟨s, []⟩ := .init ⟨⟨⟨_, _, _, hs⟩, rfl⟩, rfl⟩
  obtain ⟨f, s₁, L₁, hf, inv₁, frames₁⟩ := inv.alloc_one (by omega)
  have hcount₁ : s₁.pool.allocated = 1 := inv₁.count
  obtain ⟨g, s₂, L₂, hg, inv₂, frames₂⟩ := inv₁.alloc_one (by omega)
  rw [Multiset.cons_swap] at inv₂
  obtain ⟨s₃, L₃, hfree, -, -, frames₃, -⟩ := inv₂.free
  have taken := (start.step _ (Step.alloc hf)).step _ (Step.alloc hg)
  have returned := taken.step _ (Step.free (f := ⟨f, 0⟩) (by simp) hfree)
  have hlive : ([⟨g, 0⟩, ⟨f, 0⟩] : List Frame).erase ⟨f, 0⟩ = [⟨g, 0⟩] := by
    by_cases h : g = f
    · simp [h]
    · simp [h]
  rw [hlive] at returned
  exact ⟨s, s₁, s₂, s₃, f, g, hs, hf, hg, hfree, by omega, returned⟩

theorem sound_after_return : ∃ s g, s.pool.frames = 0x7800 ∧ Reach system ⟨s, [⟨g, 0⟩]⟩ ∧
    Sound ⟨s, [⟨g, 0⟩]⟩ := by
  obtain ⟨_, _, _, s, _, g, -, -, -, -, hframes, hreach⟩ := taken_and_returned
  exact ⟨s, g, hframes, hreach.of_startAt, reach_sound hreach.of_startAt⟩

end Buddy

end AlexOS
