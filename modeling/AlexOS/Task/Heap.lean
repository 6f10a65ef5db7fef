import AlexOS.Mm.Fork
import AlexOS.Task.Agreement
import AlexOS.Task.Fresh
import AlexOS.Task.Sbrk

/-!
# The heap of a process

`adjust_brk` moves two numbers: the break, and the top of what is backed. Shrinking
keeps the pages, growing maps those past the top. Every page below the top stays
mapped to a frame of the process, through failed calls and through `fork`. Nothing
keeps the break above the image, though: its floor is `USER_HEAP_BASE` wherever the
program was linked.
-/

namespace AlexOS

open Bytes PageTable AddressSpace

variable {σ : Type} {s s' : Phys σ} {m : Mem} {p p' : Process} {delta : Int} {res : Option Nat}

theorem le_nextMultipleOf (n : Nat) : n ≤ nextMultipleOf n pageSize := by
  simp only [nextMultipleOf, divCeil, pageSize]
  omega

theorem nextMultipleOf_mod (n : Nat) : nextMultipleOf n pageSize % pageSize = 0 :=
  Nat.mul_mod_left _ _

theorem nextMultipleOf_le {n k : Nat} (hk : k % pageSize = 0) :
    nextMultipleOf n pageSize ≤ k ↔ n ≤ k := by
  simp only [nextMultipleOf, divCeil, pageSize] at *
  omega

/-! ## The two numbers -/

theorem newBreak_eq {new : Nat} (h : newBreak p delta = some new) :
    (new : Int) = p.brk + delta ∧ userHeapBase ≤ new := by
  simp only [newBreak] at h
  split at h
  · obtain rfl := Option.some.inj h
    omega
  · cases h

/-- What a call does to the break and to the top of the heap. -/
inductive Process.Moves (p : Process) (delta : Int) : Option Nat → Process → Prop where
  | refused {p' : Process} : p'.brk = p.brk → p'.heapTop = p.heapTop → Moves p delta none p'
  | still {p' : Process} : delta = 0 → p'.brk = p.brk → p'.heapTop = p.heapTop →
      Moves p delta (some p.brk) p'
  | within {p' : Process} : (p'.brk : Int) = p.brk + delta → userHeapBase ≤ p'.brk →
      p'.brk ≤ p.heapTop → p'.heapTop = p.heapTop → Moves p delta (some p.brk) p'
  | grown {p' : Process} : (p'.brk : Int) = p.brk + delta → userHeapBase ≤ p'.brk →
      p.heapTop < p'.brk → p'.heapTop = nextMultipleOf p'.brk pageSize →
      Moves p delta (some p.brk) p'

theorem adjustBrk_moves {A : FrameAllocator σ}
    (heq : adjustBrk A s p delta = some (res, s', p')) : p.Moves delta res p' := by
  unfold adjustBrk at heq
  by_cases hzero : delta = 0
  · rw [if_pos hzero] at heq
    cases heq
    exact .still hzero rfl rfl
  rw [if_neg hzero] at heq
  rcases hnew : newBreak p delta with _ | new <;> simp only [hnew] at heq
  · cases heq
    exact .refused rfl rfl
  obtain ⟨heq', low⟩ := newBreak_eq hnew
  by_cases htop : p.heapTop < new
  swap
  · rw [if_neg htop] at heq
    cases heq
    exact .within heq' low (Nat.not_lt.mp htop) rfl
  rw [if_pos htop] at heq
  rcases hspace : p.space with _ | sp <;> simp only [hspace] at heq
  · cases heq
    exact .refused rfl rfl
  obtain ⟨r, -, heq⟩ := Option.bind_eq_some_iff.mp heq
  obtain ⟨⟨_ | ⟨⟩, s₁, sp₁⟩, -, hout⟩ := Option.bind_eq_some_iff.mp heq
  · cases hout
    exact .refused rfl rfl
  · cases hout
    exact .grown heq' low htop rfl

theorem Process.Moves.returns {old : Nat} (h : p.Moves delta (some old) p') :
    old = p.brk ∧ (p'.brk : Int) = p.brk + delta := by
  cases h with
  | still zero brk _ => exact ⟨rfl, by omega⟩
  | within brk => exact ⟨rfl, brk⟩
  | grown brk => exact ⟨rfl, brk⟩

theorem Process.Moves.top (h : p.Moves delta res p') (hbrk : p.brk ≤ p.heapTop)
    (aligned : p.heapTop % pageSize = 0) :
    p'.brk ≤ p'.heapTop ∧ p'.heapTop % pageSize = 0 ∧ p.heapTop ≤ p'.heapTop := by
  cases h with
  | refused brk top => exact ⟨by omega, by rw [top, aligned], by omega⟩
  | still _ brk top => exact ⟨by omega, by rw [top, aligned], by omega⟩
  | within _ _ hle top => exact ⟨by omega, by rw [top, aligned], by omega⟩
  | grown _ _ hlt top =>
    have := le_nextMultipleOf p'.brk
    exact ⟨by omega, by rw [top]; exact nextMultipleOf_mod _, by omega⟩

theorem Process.Moves.floor (h : p.Moves delta res p') (low : userHeapBase ≤ p.brk) :
    userHeapBase ≤ p'.brk := by
  cases h with
  | refused brk => omega
  | still _ brk => omega
  | within _ low => exact low
  | grown _ low => exact low

/-! ## The pages below the top -/

section
variable {A : CountedAllocator σ} {rest : Multiset Frame} {sp sp' : AddressSpace} {r : Region}
  {f : Frame} {base : Nat} {kernel : PageTable} {image : List UInt8} {args : List (List UInt8)}

theorem AddressSpace.Agrees.view_page (h : sp.Agrees m) (hr : r ∈ sp.regions) {va : Nat}
    (he : (pageNum va, f) ∈ r.frames) :
    sp.view m va = some (PteFlags.present r.perm, pageByte m f (pageOffset va)) := by
  obtain ⟨pte, htranslate, hppn, hflags⟩ := h.translate hr he
  have hlow : pageNum va < pages 256 := ((h.regions r hr).single _ he).1
  have hva : va < userMaxAddr := by
    simp only [userMaxAddr, pageNum, pageSize, pages] at *
    omega
  rw [view, if_pos hva, htranslate, Option.map_some, hflags, hppn]
  rfl

/-- A process with a heap from `base` up, whose regions agree with its page table. -/
structure Process.Backed (A : CountedAllocator σ) (s : Phys σ) (p : Process) (sp : AddressSpace)
    (rest : Multiset Frame) (base : Nat) : Prop where
  space : p.space = some sp
  holds : A.Holds s (p.frames + rest)
  agrees : sp.Agrees s.mem
  base_aligned : base % pageSize = 0
  aligned : p.heapTop % pageSize = 0
  base_le : base ≤ p.heapTop
  brk_le : p.brk ≤ p.heapTop
  pages : ∀ v, pageNum base ≤ v → v < pageNum p.heapTop →
    ∃ r ∈ sp.regions, r.perm = PteFlags.rw ||| PteFlags.user ∧ v ∈ r.frames.map Prod.fst

theorem Process.Backed.formed (h : p.Backed A s sp rest base) : p.Formed A s sp rest :=
  ⟨h.space, h.holds, h.agrees.toFormed⟩

theorem Process.Formed.users (h : p.Formed A s sp rest) :
    ∀ sp', p.space = some sp' → ∀ r ∈ sp'.regions, r.User := by
  intro sp' hsp'
  rw [Option.some.inj (hsp'.symm.trans h.space)]
  exact h.formed.regions

theorem Process.Backed.page (h : p.Backed A s sp rest base) {va : Nat} (lo : base ≤ va)
    (hi : va < p.heapTop) : ∃ r ∈ sp.regions, r.perm = PteFlags.rw ||| PteFlags.user ∧
      ∃ f, (pageNum va, f) ∈ r.frames := by
  have haligned := h.aligned
  obtain ⟨r, hr, hperm, hv⟩ := h.pages (pageNum va) (Nat.div_le_div_right lo) (by
    simp only [pageNum, pageSize] at *
    omega)
  obtain ⟨⟨v, f⟩, he, rfl⟩ := List.mem_map.mp hv
  exact ⟨r, hr, hperm, f, he⟩

/-- What a call leaves of a space: its regions and the bytes of their frames. -/
structure AddressSpace.Extends (m m' : Mem) (sp sp' : AddressSpace) : Prop where
  regions : ∀ r ∈ sp.regions, r ∈ sp'.regions
  kept : Kept sp.owned m m'

theorem AddressSpace.Extends.view {m' : Mem} (h : Extends m m' sp sp') (agrees : sp.Agrees m)
    (agrees' : sp'.Agrees m') (hr : r ∈ sp.regions) {va : Nat} (he : (pageNum va, f) ∈ r.frames) :
    sp'.view m' va = sp.view m va := by
  have hf : f ∈ sp.owned := mem_owned hr he
  have hbyte := pageByte_kept h.kept hf
    (show pageOffset va < pageSize from Nat.mod_lt _ (by decide))
  rw [agrees.view_page hr he, agrees'.view_page (h.regions r hr) he, hbyte]

/-- Any call, met or not, keeps the heap backed and what is in it. -/
theorem Process.Backed.adjustBrk (h : p.Backed A s sp rest base) (delta : Int) :
    ∃ res s' p' sp', adjustBrk A.toFrameAllocator s p delta = some (res, s', p') ∧
      p'.Backed A s' sp' rest base ∧ Extends s.mem s'.mem sp sp' := by
  rcases adjustBrk_cases A.toFrameAllocator s p delta with
    ⟨res, brk, heq, -⟩ | ⟨_, new, r, hspace, hzero, hnew, htop, hr, heq⟩
  · obtain ⟨hbrk, -, -⟩ := (adjustBrk_moves heq).top h.brk_le h.aligned
    exact ⟨res, s, _, sp, heq, { h with brk_le := hbrk }, fun _ hr => hr, .refl _ _⟩
  obtain rfl := Option.some.inj (hspace.symm.trans h.space)
  obtain ⟨res, s', sp', frames, hpush, holds', -, kept, -, keys, -, -, out⟩ :=
    push_leaves h.formed.space_holds h.agrees.toFormed hr.user hr.empty
  obtain ⟨-, agrees', -⟩ := h.agrees.push h.formed.space_holds hr.user hr.empty hr.start_aligned
    hr.end_aligned hpush
  rw [hpush, Option.map_some] at heq
  have kept' := kept.mono (Multiset.le_add_right _ _)
  have holdsP : A.Holds s' (p.kstack ::ₘ sp'.frames + rest) := by
    rwa [Multiset.add_cons, ← Multiset.cons_add] at holds'
  obtain ⟨hbrk, aligned, hle⟩ := (adjustBrk_moves heq).top h.brk_le h.aligned
  rcases out with ⟨rfl, -, hlen, hregions⟩ | ⟨e, rfl, -, -, hregions⟩
  · refine ⟨_, _, _, sp', heq, ⟨rfl, holdsP, agrees', h.base_aligned, aligned, h.base_le.trans hle,
      hbrk, fun v lo hi => ?_⟩, fun r' hr' => ?_, kept'⟩
    · rw [hregions]
      by_cases hv : v < pageNum p.heapTop
      · obtain ⟨r', hr', hperm, hmem⟩ := h.pages v lo hv
        exact ⟨r', List.mem_append_left _ hr', hperm, hmem⟩
      · refine ⟨_, List.mem_append_right _ (List.mem_singleton_self _), hr.perm, ?_⟩
        show v ∈ frames.map Prod.fst
        have hi : v < pageNum (nextMultipleOf new pageSize) := hi
        rw [keys, List.mem_range'_1, hlen, hr.count, hr.first]
        omega
    · rw [hregions]
      exact List.mem_append_left _ hr'
  · refine ⟨_, _, _, sp', heq, ⟨rfl, holdsP, agrees', h.base_aligned, aligned, h.base_le, hbrk,
      fun v lo hi => ?_⟩, fun r' hr' => ?_, kept'⟩
    · rw [hregions]
      exact h.pages v lo hi
    · rwa [hregions]

theorem Process.Formed.forkFrom_copies (h : p.Formed A s sp rest)
    (whole : ∀ r ∈ sp.regions, r.Whole) {child : AddressSpace} {k : Frame}
    (heq : forkFrom A.toFrameAllocator s kernel p = some (some (child, k), s')) :
    (∃ m, Copies m sp.regions child.regions) ∧ ∀ r ∈ child.regions, r.Whole := by
  simp only [forkFrom, h.space, Option.bind_eq_bind] at heq
  obtain ⟨⟨res, s₁⟩, hdup, hout⟩ := Option.bind_eq_some_iff.mp heq
  rcases res with _ | child₁
  · simp at hout
  obtain rfl : child₁ = child := by
    rcases hstack : kernelStackNew A.toFrameAllocator s₁ with ⟨_ | k₁, s₂⟩ <;>
      simp only [hstack] at hout
    · obtain ⟨s₃, -, hout⟩ := Option.bind_eq_some_iff.mp hout
      simp at hout
    · simp only [Option.some.injEq, Prod.mk.injEq] at hout
      exact hout.1.1
  have held : (sp.owned : Multiset Frame) ≤ p.frames + rest := by
    rw [Process.frames, h.space, Option.elim_some]
    exact (Multiset.le_add_left _ _).trans
      ((Multiset.le_cons_self _ _).trans (Multiset.le_add_right _ _))
  exact ⟨⟨_, duplicate_copies h.holds h.formed.regions whole held hdup⟩,
    duplicate_whole h.holds hdup⟩

/-- The child of `fork` has copies of the parent's regions and its two numbers. -/
theorem Process.Backed.fork (h : p.Backed A s sp rest base) {child : AddressSpace} {k : Frame}
    (heq : forkFrom A.toFrameAllocator s kernel p = some (some (child, k), s')) (mach : Machine σ)
    (b : Nat) : (mach.child p child k b).Backed A s' child (p.frames + rest) base := by
  obtain ⟨⟨holds', exact'⟩, -⟩ := forkFrom_spec h.holds h.formed.users heq
  obtain ⟨⟨m, copies⟩, whole⟩ := h.formed.forkFrom_copies h.agrees.whole heq
  refine ⟨rfl, holds', exact'.agrees whole, h.base_aligned, h.aligned,
    h.base_le, h.brk_le, fun v lo hi => ?_⟩
  obtain ⟨r, hr, hperm, hv⟩ := h.pages v lo hi
  obtain ⟨c, hc, copy⟩ := forall₂_mem_left copies hr
  obtain ⟨e, he, rfl⟩ := List.mem_map.mp hv
  obtain ⟨d, hd, hkey, -⟩ := forall₂_mem_left copy.pages he
  exact ⟨c, hc, copy.perm.trans hperm, List.mem_map.mpr ⟨d, hd, hkey⟩⟩

/-- A new space has a region for each segment, and the stack. -/
theorem prepare_regions {i : Prepared} (holds : A.Holds s rest)
    (heq : prepare A.toFrameAllocator s kernel image args = some (.ok i, s')) :
    ∃ m rs r, i.space.regions = rs ++ [r] ∧ Loader.Loaded image m (Loader.loads image) rs ∧
      r.Whole ∧ r.perm = PteFlags.rw ||| PteFlags.user := by
  obtain ⟨l, s₁, s₂, top, space, low, argc, argv, mem, hload, hstack, -, rfl, -⟩ := prepare_ok heq
  obtain ⟨_, _, hload', ⟨l', hl, -, -, -, -, loaded, -⟩ | ⟨⟨e, rfl⟩, -⟩⟩ :=
    Loader.load_cases kernel image holds <;> cases hload.symm.trans hload'
  obtain rfl := Except.ok.inj hl
  obtain ⟨r, hnew, -, -, hperm, -⟩ := userStack_region
  obtain ⟨start, last, framed, empty⟩ := Region.new_aligned hnew
  simp only [mapUserStack, hnew, push, Option.bind_eq_bind, Option.bind_some] at hstack
  obtain ⟨⟨res, s₃, sp₃⟩, hpush, hout⟩ := Option.bind_eq_some_iff.mp hstack
  obtain ⟨⟨_ | ⟨⟩, s₄, t₄, r₄⟩, hmap, hpush⟩ := Option.bind_eq_some_iff.mp hpush
  · obtain ⟨s₅, -, hpush⟩ := Option.bind_eq_some_iff.mp hpush
    cases hpush
    simp at hout
  cases hpush
  obtain ⟨-, -, rfl⟩ := by simpa using hout
  obtain ⟨new, hr₄⟩ := Region.mapFrom_ok framed le_rfl hmap
  exact ⟨_, l.space.regions, r₄, rfl, loaded, Region.mapInto_whole framed empty start last hmap,
    by rw [hr₄.1, hperm]⟩

theorem prepare_whole {i : Prepared} (holds : A.Holds s rest)
    (heq : prepare A.toFrameAllocator s kernel image args = some (.ok i, s')) :
    ∀ r ∈ i.space.regions, r.Whole := by
  obtain ⟨m, rs, r, hregions, loaded, whole, -⟩ := prepare_regions holds heq
  intro r' hr'
  rw [hregions, List.mem_append, List.mem_singleton] at hr'
  rcases hr' with hr' | rfl
  · obtain ⟨ph, -, h⟩ := forall₂_mem_right loaded hr'
    exact h.whole
  · exact whole

/-- The break of a new image: past its segments and past `USER_HEAP_BASE`. -/
theorem prepare_brk {i : Prepared} (holds : A.Holds s rest)
    (heq : prepare A.toFrameAllocator s kernel image args = some (.ok i, s')) :
    max i.brk userHeapBase =
      max (((Loader.loads image).map (Loader.spanEnd image)).foldl max 0) userHeapBase := by
  obtain ⟨-, -, seen⟩ := prepare_view holds heq
  exact (congrArg (fun v => v.heap.brk) seen).symm

theorem initialBreak_aligned (image : List UInt8) :
    max (((Loader.loads image).map (Loader.spanEnd image)).foldl max 0) userHeapBase %
      pageSize = 0 := by
  have hspans : ((Loader.loads image).map (Loader.spanEnd image)).foldl max 0 % pageSize = 0 := by
    rcases (Loader.foldl_max ((Loader.loads image).map (Loader.spanEnd image)) 0).2.2 with
      hzero | hmem
    · rw [hzero]
      rfl
    · obtain ⟨ph, -, hph⟩ := List.mem_map.mp hmem
      rw [← hph]
      exact nextMultipleOf_mod _
  rcases Nat.le_total (((Loader.loads image).map (Loader.spanEnd image)).foldl max 0)
    userHeapBase with
    hle | hle
  · rw [Nat.max_eq_right hle]
    rfl
  · rwa [Nat.max_eq_left hle]

end

/-! ## Runs -/

/-- A process, what else is handed out, and where its heap began. -/
structure Heap (σ : Type) where
  phys : Phys σ
  proc : Process
  rest : Multiset Frame
  base : Nat

namespace Heap

section
variable (A : CountedAllocator σ) (kernel : PageTable)

/-- A process that `new_user` has made of an image or `exec_current` has given it. -/
inductive Created (image : List UInt8) : Heap σ → Prop where
  | newUser {mach : Machine σ} {s s' : Phys σ} {rest : Multiset Frame} {args : List (List UInt8)}
      {i : Prepared} {k : Frame} {b : Nat} : A.Holds s rest →
      newUser A.toFrameAllocator s kernel image args = some (some (i, k), s') →
      Created image ⟨s', mach.start i k b, rest, max i.brk userHeapBase⟩
  | exec {s s' : Phys σ} {p : Process} {sp : AddressSpace} {rest : Multiset Frame}
      {args : List (List UInt8)} {i : Prepared} {b : Nat} : p.Formed A s sp rest →
      execCurrent A.toFrameAllocator s kernel p image args = some (.ok i, s') →
      Created image ⟨s', p.install i b, rest, max i.brk userHeapBase⟩

inductive Step : Heap σ → Unit → Heap σ → Prop where
  | sbrk {w : Heap σ} {delta : Int} {res : Option Nat} {s : Phys σ} {p : Process} :
      adjustBrk A.toFrameAllocator w.phys w.proc delta = some (res, s, p) →
      Step w () { w with phys := s, proc := p }
  /-- The run goes on with the child, next to the parent. -/
  | fork {w : Heap σ} {mach : Machine σ} {child : AddressSpace} {k : Frame} {s : Phys σ} {b : Nat} :
      forkFrom A.toFrameAllocator w.phys kernel w.proc = some (some (child, k), s) →
      Step w () ⟨s, mach.child w.proc child k b, w.proc.frames + w.rest, w.base⟩
  /-- The process and all others run: what is not a page table of the process may change. -/
  | other {w : Heap σ} {s : Phys σ} {rest : Multiset Frame} :
      A.Holds s (w.proc.frames + rest) →
      (∀ sp, w.proc.space = some sp → Kept sp.table.frames w.phys.mem s.mem) →
      Step w () { w with phys := s, rest := rest }

def system : System (Heap σ) Unit := ⟨fun w => ∃ image, Created A kernel image w, Step A kernel⟩

/-- Calls one after another, with others at work between them. -/
inductive Calls : Heap σ → List Int → Heap σ → Prop where
  | done {w : Heap σ} : Calls w [] w
  | sbrk {w w' : Heap σ} {delta : Int} {deltas : List Int} {res : Option Nat} {s : Phys σ}
      {p : Process} : adjustBrk A.toFrameAllocator w.phys w.proc delta = some (res, s, p) →
      Calls { w with phys := s, proc := p } deltas w' → Calls w (delta :: deltas) w'
  | others {w w' : Heap σ} {deltas : List Int} {s : Phys σ} {rest : Multiset Frame} :
      A.Holds s (w.proc.frames + rest) → Kept w.proc.frames w.phys.mem s.mem →
      Calls { w with phys := s, rest := rest } deltas w' → Calls w deltas w'

end

variable {A : CountedAllocator σ} {kernel : PageTable} {w w' : Heap σ} {sp : AddressSpace}
  {image : List UInt8}

/-- The invariant of the runs. -/
def Backed (A : CountedAllocator σ) (w : Heap σ) : Prop :=
  ∃ sp, w.proc.Backed A w.phys sp w.rest w.base

theorem Created.prepared (h : Created A kernel image w) : ∃ args i s s' live, A.Holds s live ∧
    prepare A.toFrameAllocator s kernel image args = some (.ok i, s') ∧
    w.proc.space = some i.space ∧ w.proc.Ok A w.phys w.rest ∧ w.base = max i.brk userHeapBase ∧
    w.proc.brk = w.base ∧ w.proc.heapTop = w.base := by
  cases h with
  | @newUser _ s _ rest args _ _ _ holds heq =>
    obtain ⟨⟨holds', exact'⟩, -⟩ := newUser_spec holds heq
    obtain ⟨⟨_ | i, s₁⟩, hprep, hout⟩ := Option.bind_eq_some_iff.mp heq
    · simp at hout
    rcases hstack : kernelStackNew A.toFrameAllocator s₁ with ⟨_ | k, s₂⟩ <;>
      simp only [hstack] at hout
    · obtain ⟨s₃, -, hout⟩ := Option.bind_eq_some_iff.mp hout
      simp at hout
    obtain ⟨⟨rfl, rfl⟩, rfl⟩ := by simpa using hout
    exact ⟨args, _, s, s₁, rest, holds, hprep, rfl,
      ⟨holds', fun sp hsp => Option.some.inj hsp ▸ exact'⟩, rfl, rfl, rfl⟩
  | @exec s _ p _ rest args _ _ formed heq =>
    obtain ⟨⟨s₁, hprep⟩, ok, -⟩ := execCurrent_installs formed.holds
      (fun sp hsp => Option.some.inj (hsp.symm.trans formed.space) ▸ formed.formed) heq
    exact ⟨args, _, s, s₁, p.frames + rest, formed.holds, hprep, rfl, ok _, rfl, rfl, rfl⟩

theorem Created.base_eq (h : Created A kernel image w) : w.base =
    max (((Loader.loads image).map (Loader.spanEnd image)).foldl max 0) userHeapBase := by
  obtain ⟨args, i, s, s', live, holds, hprep, -, -, hbase, -⟩ := h.prepared
  exact hbase.trans (prepare_brk holds hprep)

/-- The heap of a new image is empty. -/
theorem Created.backed (h : Created A kernel image w) : w.Backed A := by
  obtain ⟨args, i, s, s', live, holds, hprep, space, ok, -, hbrk, htop⟩ := h.prepared
  have aligned : w.base % pageSize = 0 := by
    rw [h.base_eq]
    exact initialBreak_aligned image
  refine ⟨i.space, space, ok.holds, (ok.exact i.space space).agrees (prepare_whole holds hprep),
    aligned, htop ▸ aligned, htop.ge, (hbrk.trans htop.symm).le, fun v lo hi => ?_⟩
  rw [htop] at hi
  exact absurd hi (Nat.not_lt.mpr lo)

theorem Step.backed (h : Step A kernel w () w') (backed : w.Backed A) : w'.Backed A := by
  obtain ⟨sp, backed⟩ := backed
  cases h with
  | @sbrk delta _ _ _ heq =>
    obtain ⟨_, _, _, sp', heq', backed', -⟩ := backed.adjustBrk delta
    obtain ⟨rfl, rfl, rfl⟩ := Option.some.inj (heq.symm.trans heq')
    exact ⟨sp', backed'⟩
  | fork heq => exact ⟨_, backed.fork heq _ _⟩
  | other holds kept =>
    exact ⟨sp, { backed with holds := holds, agrees := backed.agrees.kept (kept sp backed.space) }⟩

theorem Reach.backed (h : Reach (system A kernel) w) : w.Backed A := by
  refine h.invariant (Backed A) ?_ fun _ _ _ backed hstep => Step.backed hstep backed
  rintro w ⟨image, created⟩
  exact created.backed

/-- No call, and nobody else, touches a byte of the heap. -/
theorem Calls.view {deltas : List Int} (h : Calls A w deltas w')
    (backed : w.proc.Backed A w.phys sp w.rest w.base) :
    ∃ sp', w'.proc.space = some sp' ∧ w.proc.heapTop ≤ w'.proc.heapTop ∧
      ∀ va, w.base ≤ va → va < w.proc.heapTop → sp'.view w'.phys.mem va =
        sp.view w.phys.mem va := by
  induction h generalizing sp with
  | done => exact ⟨sp, backed.space, le_rfl, fun _ _ _ => rfl⟩
  | @sbrk w w' delta _ _ _ _ heq _ ih =>
    obtain ⟨_, _, _, sp', heq', backed', extends_⟩ := backed.adjustBrk delta
    obtain ⟨rfl, rfl, rfl⟩ := Option.some.inj (heq.symm.trans heq')
    obtain ⟨sp'', hspace, htop, same⟩ := ih backed'
    obtain ⟨-, -, hle⟩ := (adjustBrk_moves heq).top backed.brk_le backed.aligned
    refine ⟨sp'', hspace, hle.trans htop, fun va lo hi => ?_⟩
    obtain ⟨r, hr, -, f, he⟩ := backed.page lo hi
    rw [same va lo (hi.trans_le hle), extends_.view backed.agrees backed'.agrees hr he]
  | @others w w' _ s rest holds kept _ ih =>
    have hspace := backed.space
    have agrees' := backed.agrees.kept (kept.mono (Process.tables_le hspace))
    have backed' : w.proc.Backed A s sp rest w.base := { backed with holds, agrees := agrees' }
    obtain ⟨sp'', hspace', htop, same⟩ := ih backed'
    refine ⟨sp'', hspace', htop, fun va lo hi => ?_⟩
    obtain ⟨r, hr, -, f, he⟩ := backed.page lo hi
    have keeps : Extends w.phys.mem s.mem sp sp := ⟨fun _ hr => hr, kept.mono (by
      rw [Process.frames, hspace]
      exact (Multiset.le_add_left _ _).trans (Multiset.le_cons_self _ _))⟩
    exact (same va lo hi).trans (keeps.view backed.agrees agrees' hr he)

theorem reach_heap_backed (h : Reach (system A kernel) w) :
    ∃ sp, w.proc.space = some sp ∧ w.proc.heapTop % pageSize = 0 ∧ w.proc.brk ≤ w.proc.heapTop ∧
      (∀ va, w.base ≤ va → va < w.proc.heapTop →
        ∃ r ∈ sp.regions, ∃ f ∈ r.owned, ∃ pte, translate w.phys.mem sp.table
          (pageNum va) = some pte ∧
          Pte.ppn pte = f.ppn ∧ Pte.flags pte = PteFlags.present (PteFlags.rw ||| PteFlags.user)) ∧
      (∀ delta, ∃ res s p, adjustBrk A.toFrameAllocator w.phys w.proc delta = some (res, s, p) ∧
        w.proc.heapTop ≤ p.heapTop ∧ (res = none → p.brk = w.proc.brk) ∧
        ∀ old, res = some old → old = w.proc.brk ∧ (p.brk : Int) = w.proc.brk + delta) ∧
      ∀ deltas w', Calls A w deltas w' → ∃ sp', w'.proc.space = some sp' ∧
        w.proc.heapTop ≤ w'.proc.heapTop ∧
        ∀ va, w.base ≤ va → va < w.proc.heapTop →
          sp'.view w'.phys.mem va = sp.view w.phys.mem va := by
  obtain ⟨sp, backed⟩ := Reach.backed h
  refine ⟨sp, backed.space, backed.aligned, backed.brk_le, fun va lo hi => ?_, fun delta => ?_,
    fun deltas w' calls => calls.view backed⟩
  · obtain ⟨r, hr, hperm, f, he⟩ := backed.page lo hi
    obtain ⟨pte, htranslate, hppn, hflags⟩ := backed.agrees.translate hr he
    exact ⟨r, hr, f, List.mem_map.mpr ⟨_, he, rfl⟩, pte, htranslate, hppn, hperm ▸ hflags⟩
  · obtain ⟨res, s, p, -, heq, -⟩ := backed.adjustBrk delta
    have moves := adjustBrk_moves heq
    refine ⟨res, s, p, heq, (moves.top backed.brk_le backed.aligned).2.2, ?_, ?_⟩
    · rintro rfl
      cases moves with
      | refused brk => exact brk
    · rintro old rfl
      exact moves.returns

end Heap

/-- An image of one page and an empty argument list fit into a machine with little room. -/
theorem page_prepared {A : CountedAllocator σ} {rest : Multiset Frame}
    {image : List UInt8} {v : Nat}
    (kernel : PageTable) (holds : A.Holds s rest) (room : 196 ≤ A.avail s)
    (accepts : Loader.Accepts image) (pages : Loader.imagePages image = [v])
    (hv : v < pageNum (userStackTop - userStackSize)) :
    ∃ i s', prepare A.toFrameAllocator s kernel image [] = some (.ok i, s') := by
  obtain ⟨i, s', heq, -⟩ := prepare_room kernel holds accepts (by
      rw [pages, List.nodup_append]
      refine ⟨List.nodup_singleton _, List.nodup_range', ?_⟩
      simp only [stackPages, List.mem_singleton, List.mem_range'_1]
      omega)
    ((Loader.pagesCost_le _).trans (by
      rw [pages]
      simp only [stackPages, List.length_append, List.length_range', List.length_singleton, pageNum,
        userStackSize, pageSize]
      omega)) nil_fits
  exact ⟨i, s', heq⟩

theorem page_created {image : List UInt8} {v : Nat} (accepts : Loader.Accepts image)
    (pages : Loader.imagePages image = [v]) (hv : v < pageNum (userStackTop - userStackSize)) :
    ∃ w : Heap Buddy.BuddyAllocator, Heap.Created Buddy.merging ⟨0, []⟩ image w := by
  obtain ⟨s, p, sp, formed, -, -, -, havail⟩ := fresh_process
  obtain ⟨i, s₁, hprep⟩ :=
    page_prepared ⟨0, []⟩ formed.space_holds (by rw [havail]; decide) accepts pages hv
  obtain ⟨s₂, hexec, -⟩ := formed.execCurrent_ok hprep
  exact ⟨_, .exec (b := 0) formed hexec⟩

/-- A break that stays below the top of the heap only moves. -/
theorem adjustBrk_within (A : FrameAllocator σ) (s : Phys σ) {new : Nat} (hzero : delta ≠ 0)
    (hnew : newBreak p delta = some new) (htop : new ≤ p.heapTop) :
    adjustBrk A s p delta = some (some p.brk, s, { p with brk := new }) := by
  rw [adjustBrk, if_neg hzero, hnew]
  exact if_neg (Nat.not_lt.mpr htop)

/-- A process with the small image, and with room for two pages of heap. -/
theorem small_program : ∃ (w : Heap Buddy.BuddyAllocator) (sp : AddressSpace),
    Heap.Created Buddy.dram ⟨0, []⟩ Loader.smallImage w ∧ w.proc.space = some sp ∧
      w.proc.Ok Buddy.dram w.phys w.rest ∧ w.base = userHeapBase ∧ w.proc.brk = userHeapBase ∧
      w.proc.heapTop = userHeapBase ∧
      Region.Room Buddy.dram w.phys sp.table (List.range' (pageNum userHeapBase) 2) := by
  obtain ⟨s, p, sp, formed, -, -, -, havail⟩ := fresh_managed
  obtain ⟨nodup, frames⟩ := smallImage_stack
  obtain ⟨i, s₁, hprep, hroom⟩ := prepare_room ⟨0, []⟩ formed.space_holds Loader.smallImage_accepts
    nodup (frames.trans (by rw [havail]; decide)) nil_fits
  obtain ⟨nodup₂, frames₂⟩ := smallImage_room (c := 2) (by decide)
  have room := (hroom (List.range' (pageNum userHeapBase) 2) (by decide)).mpr
    ⟨nodup₂, frames₂.trans (by rw [havail]; decide)⟩
  obtain ⟨s₂, hexec, kept⟩ := formed.execCurrent_ok hprep
  have created : Heap.Created Buddy.dram ⟨0, []⟩ Loader.smallImage
      ⟨s₂, p.install i 0, 0, max i.brk userHeapBase⟩ := .exec formed hexec
  obtain ⟨_, _, _, _, _, -, -, -, ok, -, hbrk, htop⟩ := created.prepared
  have hbase : max i.brk userHeapBase = userHeapBase := by
    refine created.base_eq.trans ?_
    rw [Loader.smallImage_loads]
    decide
  obtain ⟨⟨holds₁, exact₁⟩, -⟩ := prepare_spec formed.space_holds hprep
  have havail₂ : Buddy.dram.avail s₁ ≤ Buddy.dram.avail s₂ := by
    have hsplit : i.space.frames + (sp.frames + (p.kstack ::ₘ 0)) =
        (p.install i 0).frames + 0 + sp.frames := by
      show _ = p.kstack ::ₘ i.space.frames + 0 + sp.frames
      simp only [← Multiset.singleton_add, add_zero]
      ac_rfl
    rw [hsplit] at holds₁
    exact Buddy.managing_avail_mono holds₁ ok.holds
  refine ⟨_, _, created, rfl, ok, hbase, hbase, hbase,
    room.kept exact₁.tree (kept.mono (Multiset.le_add_right _ _)) havail₂ (by decide)⟩

/-- The floor is always in reach. -/
theorem adjustBrk_floor (A : FrameAllocator σ) (s : Phys σ) (hbrk : userHeapBase < p.brk)
    (htop : userHeapBase ≤ p.heapTop) : adjustBrk A s p (userHeapBase - p.brk) =
      some (some p.brk, s, { p with brk := userHeapBase }) := by
  have hnew : newBreak p (userHeapBase - p.brk) = some userHeapBase := by
    have hmax : userHeapBase < userMaxAddr := by decide
    simp only [newBreak]
    rw [if_pos (by omega)]
    congr 1
    omega
  exact adjustBrk_within A s (by omega) hnew htop

/-- The heap grows by two pages, shrinks to nothing and grows by one page again. -/
theorem heap_after_exec : ∃ (w : Heap Buddy.BuddyAllocator) (sp : AddressSpace),
    Reach (Heap.system Buddy.dram ⟨0, []⟩) w ∧ w.base = userHeapBase ∧
      w.proc.brk = userHeapBase + 0x1000 ∧ w.proc.heapTop = userHeapBase + 0x2000 ∧
      w.proc.space = some sp ∧
      ∀ va, userHeapBase ≤ va → va < userHeapBase + 0x2000 →
        ∃ pte, translate w.phys.mem sp.table (pageNum va) = some pte := by
  obtain ⟨w, sp, created, hspace, ok, hbase, hbrk, htop, room⟩ := small_program
  have start : Reach (Heap.system Buddy.dram ⟨0, []⟩) w := .init ⟨_, created⟩
  have holds : Buddy.dram.Holds w.phys (sp.frames + (w.proc.kstack ::ₘ w.rest)) := by
    have h := ok.holds
    rw [Process.frames, hspace, Option.elim_some, Multiset.cons_add, ← Multiset.add_cons] at h
    exact h
  have up : newBreak w.proc (0x2000 : Nat) = some (userHeapBase + 0x2000) :=
    newBreak_base hbrk (by decide)
  obtain ⟨s₁, p₁, hgrow⟩ := adjustBrk_room hspace holds (ok.exact sp hspace) (by decide) up
    (by rw [htop]; decide) (by rw [htop]; exact room)
  have grown : p₁.brk = userHeapBase + 0x2000 ∧ p₁.heapTop = userHeapBase + 0x2000 := by
    cases adjustBrk_moves hgrow with
    | still hzero => cases hzero
    | within hnew _ hle _ => omega
    | grown hnew _ _ hround =>
      have hbrk₁ : p₁.brk = userHeapBase + 0x2000 := by omega
      rw [hround, hbrk₁]
      decide
  have hfloor := adjustBrk_floor Buddy.dram.toFrameAllocator s₁ (p := p₁)
    (by rw [grown.1]; decide) (by rw [grown.2]; decide)
  have again : newBreak { p₁ with brk := userHeapBase } (0x1000 : Nat) =
      some (userHeapBase + 0x1000) := newBreak_base rfl (by decide)
  have hagain := adjustBrk_within Buddy.dram.toFrameAllocator s₁ (by decide) again
    (show userHeapBase + 0x1000 ≤ p₁.heapTop by rw [grown.2]; decide)
  have run := ((start.step () (.sbrk hgrow)).step () (.sbrk hfloor)).step () (.sbrk hagain)
  obtain ⟨sp', hspace', -, -, pages, -⟩ := Heap.reach_heap_backed run
  refine ⟨_, sp', run, hbase, rfl, grown.2, hspace', fun va lo hi => ?_⟩
  obtain ⟨r, -, f, -, pte, hpte, -⟩ := pages va (by rw [← hbase] at lo; exact lo)
    (show va < p₁.heapTop by rw [grown.2]; exact hi)
  exact ⟨pte, hpte⟩

/-! ## The break and the image -/

/-- What `sbrk` calls make of a process, whatever happens to memory between them. -/
inductive Breaks (A : FrameAllocator σ) (p : Process) : Process → Prop where
  | start : Breaks A p p
  | sbrk {q q' : Process} {s s' : Phys σ} {delta : Int} {res : Option Nat} :
      Breaks A p q → adjustBrk A s q delta = some (res, s', q') → Breaks A p q'

theorem Breaks.floor {A : FrameAllocator σ} {q : Process} (h : Breaks A p q)
    (low : userHeapBase ≤ p.brk) : userHeapBase ≤ q.brk := by
  induction h with
  | start => exact low
  | sbrk _ heq ih => exact (adjustBrk_moves heq).floor ih

theorem break_above_image_iff {A : CountedAllocator σ} {kernel : PageTable} {image : List UInt8}
    {w : Heap σ} (created : Heap.Created A kernel image w) :
    (∀ q, Breaks A.toFrameAllocator w.proc q → w.base ≤ q.brk ∧
      ∀ ph ∈ Loader.loads image, Loader.pVaddr image ph + Loader.pMemsz image ph ≤ q.brk) ↔
    ∀ ph ∈ Loader.loads image, Loader.pVaddr image ph + Loader.pMemsz image ph ≤ userHeapBase := by
  obtain ⟨-, -, -, -, -, -, -, -, -, -, hbrk, htop⟩ := created.prepared
  have hbase := created.base_eq
  obtain ⟨-, hends, hlast⟩ := Loader.foldl_max ((Loader.loads image).map (Loader.spanEnd image)) 0
  constructor
  · intro above ph hph
    by_contra hhigh
    have hend := hends _ (List.mem_map.mpr ⟨ph, hph, rfl⟩)
    have hle : Loader.pVaddr image ph + Loader.pMemsz image ph ≤ Loader.spanEnd image ph :=
      le_nextMultipleOf _
    obtain ⟨-, ends⟩ := above _ (.sbrk .start (adjustBrk_floor A.toFrameAllocator w.phys
      (show userHeapBase < w.proc.brk by omega) (by omega)))
    exact hhigh (ends ph hph)
  · intro low q run
    have hspans : ((Loader.loads image).map (Loader.spanEnd image)).foldl max 0 ≤ userHeapBase := by
      rcases hlast with hzero | hmem
      · rw [hzero]
        exact Nat.zero_le _
      · obtain ⟨ph, hph, heq⟩ := List.mem_map.mp hmem
        rw [← heq]
        exact (nextMultipleOf_le (by decide)).mpr (low ph hph)
    have hfloor := run.floor (by omega)
    exact ⟨by omega, fun ph hph => (low ph hph).trans hfloor⟩

theorem small_image_break : ∃ (w : Heap Buddy.BuddyAllocator),
    (∀ q, Breaks Buddy.merging.toFrameAllocator w.proc q → w.base ≤ q.brk ∧
      ∀ ph ∈ Loader.loads Loader.smallImage,
        Loader.pVaddr Loader.smallImage ph + Loader.pMemsz Loader.smallImage ph ≤ q.brk) ↔
    ∀ ph ∈ Loader.loads Loader.smallImage,
      Loader.pVaddr Loader.smallImage ph + Loader.pMemsz Loader.smallImage ph ≤ userHeapBase := by
  obtain ⟨w, created⟩ := page_created Loader.smallImage_accepts smallImage_pages (by decide)
  exact ⟨w, break_above_image_iff created⟩

/-- The small image with its entry and its segment at `USER_HEAP_BASE`. -/
def highImage : List UInt8 :=
  (((Loader.smallImage.set 25 0).set 27 0x10).set 81 0).set 83 0x10

theorem highImage_accepts : Loader.Accepts highImage := by
  have hlength : highImage.length = 124 := by
    simp only [highImage, List.length_set, Loader.smallImage_length]
  exact Loader.accepts_one
    ⟨by rw [hlength]; decide, by decide, by decide, by decide, by decide, by decide⟩
    (show Loader.headers highImage = [64] by decide) (by decide)
    ⟨by rw [hlength]; decide, by decide, by decide, by decide, by rw [hlength]; decide⟩

/-- One negative `sbrk` takes the break of a program linked there into its segment. -/
theorem break_inside_image : ∃ (w : Heap Buddy.BuddyAllocator) (q : Process),
    Heap.Created Buddy.merging ⟨0, []⟩ highImage w ∧ w.base = 0x10001000 ∧ w.proc.brk = 0x10001000 ∧
      adjustBrk Buddy.merging.toFrameAllocator w.phys w.proc (-0x1000) =
        some (some 0x10001000, w.phys, q) ∧
      q.brk = 0x10000000 ∧ 64 ∈ Loader.loads highImage ∧
      Loader.pVaddr highImage 64 + Loader.pMemsz highImage 64 = 0x10000004 := by
  obtain ⟨w, created⟩ := page_created highImage_accepts
    (show Loader.imagePages highImage = [0x10000] by decide) (by decide)
  obtain ⟨-, -, -, -, -, -, -, -, -, -, hbrk, htop⟩ := created.prepared
  have hbase : w.base = 0x10001000 := created.base_eq.trans (by decide)
  rw [hbase] at hbrk htop
  have hcall := adjustBrk_floor Buddy.merging.toFrameAllocator w.phys
    (show userHeapBase < w.proc.brk by rw [hbrk]; decide) (by rw [htop]; decide)
  rw [hbrk] at hcall
  exact ⟨w, _, created, hbase, hbrk, hcall, rfl, by decide, by decide⟩

end AlexOS
