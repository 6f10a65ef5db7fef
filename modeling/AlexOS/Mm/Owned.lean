import AlexOS.Mm.Frame
import AlexOS.Lib.Blocks
import Mathlib.Algebra.BigOperators.Group.Multiset.Basic
import Mathlib.Algebra.Order.BigOperators.Group.Multiset

/-!
# Held frames

What the rest of the kernel relies on when it allocates: the runs its parts
hold are a multiset, no frame is held twice, a new run comes zeroed, and
neither allocation nor release disturbs what others hold. A client states its
own part of the multiset and leaves the rest as a variable.
-/

namespace AlexOS

open Blocks Bytes

/-- Held runs over the frame `p`. -/
def framesOver (live : Multiset Frame) (p : Nat) : Nat :=
  (live.map fun f => cover f.order f.ppn p).sum

@[simp] theorem framesOver_cons (f : Frame) (live : Multiset Frame) (p : Nat) :
    framesOver (f ::ₘ live) p = cover f.order f.ppn p + framesOver live p := by
  simp [framesOver]

@[simp] theorem framesOver_add (a b : Multiset Frame) (p : Nat) :
    framesOver (a + b) p = framesOver a p + framesOver b p := by
  simp [framesOver]

theorem framesOver_mono {a b : Multiset Frame} (h : a ≤ b) (p : Nat) :
    framesOver a p ≤ framesOver b p := by
  obtain ⟨rest, rfl⟩ := Multiset.le_iff_exists_add.mp h
  rw [framesOver_add]
  exact Nat.le_add_right _ _

theorem framesOver_pos {live : Multiset Frame} {p : Nat} (h : 0 < framesOver live p) :
    ∃ f ∈ live, f.ppn ≤ p ∧ p < f.ppn + f.count := by
  by_contra none
  have zero : framesOver live p = 0 := by
    apply Multiset.sum_eq_zero
    intro x hx
    obtain ⟨f, hf, rfl⟩ := Multiset.mem_map.mp hx
    by_contra hne
    exact none ⟨f, hf, cover_pos (Nat.pos_of_ne_zero hne)⟩
  omega

theorem framesOver_of_mem {live : Multiset Frame} {f : Frame} {p : Nat} (h : f ∈ live)
    (lo : f.ppn ≤ p) (hi : p < f.ppn + f.count) : 0 < framesOver live p := by
  obtain ⟨rest, rfl⟩ := Multiset.exists_cons_of_mem h
  rw [framesOver_cons, cover_eq_one lo hi]
  omega

theorem frame_unique {live : Multiset Frame} {f g : Frame} {p : Nat}
    (h : framesOver live p ≤ 1) (hf : f ∈ live) (hg : g ∈ live)
    (hfp : cover f.order f.ppn p = 1) (hgp : cover g.order g.ppn p = 1) : f = g := by
  obtain ⟨rest, rfl⟩ := Multiset.exists_cons_of_mem hf
  rw [framesOver_cons] at h
  rcases Multiset.mem_cons.mp hg with rfl | hg
  · rfl
  · obtain ⟨lo, hi⟩ := cover_pos (Nat.lt_of_lt_of_eq Nat.one_pos hgp.symm)
    have := framesOver_of_mem hg lo hi
    omega

theorem frames_pairwise {live : List Frame} (h : ∀ p, framesOver live p ≤ 1) :
    live.Pairwise fun f g => f.ppn + f.count ≤ g.ppn ∨ g.ppn + g.count ≤ f.ppn := by
  induction live with
  | nil => exact .nil
  | cons f live ih =>
    have hcons : ∀ p, cover f.order f.ppn p + framesOver live p ≤ 1 := fun p => by
      rw [← framesOver_cons]; exact h p
    refine .cons (fun g hg => ?_) (ih fun p => by have := hcons p; omega)
    by_contra overlap
    have hf : cover f.order f.ppn (max f.ppn g.ppn) = 1 :=
      cover_eq_one (by omega)
        (by have := Nat.two_pow_pos f.order; simp only [Frame.count] at overlap; omega)
    have hlive := framesOver_of_mem (p := max f.ppn g.ppn) (Multiset.mem_coe.mpr hg) (by omega)
      (by have := Nat.two_pow_pos g.order; simp only [Frame.count] at *; omega)
    have := hcons (max f.ppn g.ppn)
    omega

/-- Memory of every held frame is as it was. -/
def Kept (live : Multiset Frame) (m m' : Mem) : Prop :=
  ∀ a, 0 < framesOver live (pageNum a) → m' a = m a

theorem Kept.refl (live : Multiset Frame) (m : Mem) : Kept live m m := fun _ _ => rfl

theorem Kept.trans {live : Multiset Frame} {m m' m'' : Mem} (h : Kept live m m')
    (h' : Kept live m' m'') : Kept live m m'' := fun a ha => (h' a ha).trans (h a ha)

theorem Kept.mono {live live' : Multiset Frame} {m m' : Mem} (h : Kept live m m')
    (sub : live' ≤ live) : Kept live' m m' := by
  obtain ⟨rest, rfl⟩ := Multiset.le_iff_exists_add.mp sub
  exact fun a ha => h a (by rw [framesOver_add]; omega)

/-- Only held frames were written. -/
def WritesIn (live : Multiset Frame) (m m' : Mem) : Prop :=
  ∀ a, framesOver live (pageNum a) = 0 → m' a = m a

theorem WritesIn.refl (live : Multiset Frame) (m : Mem) : WritesIn live m m := fun _ _ => rfl

theorem WritesIn.trans {live : Multiset Frame} {m m' m'' : Mem} (h : WritesIn live m m')
    (h' : WritesIn live m' m'') : WritesIn live m m'' := fun a ha => (h' a ha).trans (h a ha)

theorem WritesIn.mono {live live' : Multiset Frame} {m m' : Mem} (h : WritesIn live m m')
    (sub : live ≤ live') : WritesIn live' m m' := by
  obtain ⟨rest, rfl⟩ := Multiset.le_iff_exists_add.mp sub
  exact fun a ha => h a (by rw [framesOver_add] at ha; omega)

/-- What is written and what is kept do not overlap. -/
theorem WritesIn.kept {live rest : Multiset Frame} {m m' : Mem} (h : WritesIn live m m')
    (apart : ∀ p, framesOver (live + rest) p ≤ 1) : Kept rest m m' := by
  intro a ha
  apply h a
  have := apart (pageNum a)
  rw [framesOver_add] at this
  omega

/-- Bytes stored inside one held frame. -/
theorem WritesIn.bytes {live : Multiset Frame} {q off : Nat} {bs : List UInt8} (m : Mem)
    (held : (⟨q, 0⟩ : Frame) ∈ live) (fits : off + bs.length ≤ pageSize) :
    WritesIn live m (writeBytes m (baseAddr q + off) bs) := by
  intro a ha
  apply writeBytes_apart
  by_contra inside
  have hq : pageNum a = q := by simp only [pageNum, baseAddr, pageSize] at *; omega
  have := framesOver_of_mem held (Nat.le_of_eq hq.symm) (by simp [Frame.count, hq])
  omega

def Zeroed (f : Frame) (m : Mem) : Prop :=
  ∀ a, f.ppn ≤ pageNum a → pageNum a < f.ppn + f.count → m a = 0

theorem Zeroed.kept {live : Multiset Frame} {f : Frame} {m m' : Mem} (h : Zeroed f m)
    (kept : Kept live m m') (hf : f ∈ live) : Zeroed f m' := fun a lo hi => by
  rw [kept a (framesOver_of_mem hf lo hi), h a lo hi]

/-- `Frame::alloc_order` and the `Drop` of `Frame`, with what their callers may
assume. `Holds s live` says that `live` is all that is handed out. -/
structure FrameAllocator (σ : Type) where
  allocOrder : Phys σ → Nat → Option Frame × Phys σ
  free : Phys σ → Frame → Option (Phys σ)
  Holds : Phys σ → Multiset Frame → Prop
  ppn_lt : ∀ {s live f}, Holds s live → f ∈ live → f.ppn + f.count ≤ 2 ^ 44
  apart : ∀ {s live}, Holds s live → ∀ p, framesOver live p ≤ 1
  alloc_none : ∀ {s s' live k}, Holds s live → allocOrder s k = (none, s') → s' = s
  alloc_some : ∀ {s s' live k f}, Holds s live → allocOrder s k = (some f, s') →
    f.order = k ∧ Holds s' (f ::ₘ live) ∧ Kept live s.mem s'.mem ∧ Zeroed f s'.mem
  free_some : ∀ {s live f}, Holds s (f ::ₘ live) →
    ∃ s', free s f = some s' ∧ Holds s' live ∧ Kept live s.mem s'.mem
  write : ∀ {s live mem}, Holds s live →
    (∀ a, framesOver live (pageNum a) = 0 → mem a = s.mem a) → Holds { s with mem := mem } live

theorem FrameAllocator.page_lt {σ : Type} {A : FrameAllocator σ} {s : Phys σ}
    {live : Multiset Frame} {f : Frame} (h : A.Holds s live) (hf : f ∈ live) : f.ppn < 2 ^ 44 := by
  have := A.ppn_lt h hf
  have : 0 < f.count := Nat.two_pow_pos _
  omega

/-- An allocator that says which frames are free, and how many are left. -/
structure CountedAllocator (σ : Type) extends FrameAllocator σ where
  Free : Phys σ → Nat → Prop
  free_apart : ∀ {s live p}, Holds s live → Free s p → framesOver live p = 0
  avail : Phys σ → Nat
  alloc_avail : ∀ {s s' live k f}, Holds s live → allocOrder s k = (some f, s') →
    avail s' + f.count = avail s
  alloc_isSome : ∀ {s live}, Holds s live → 0 < avail s → (allocOrder s 0).1.isSome = true
  write_avail : ∀ {s live mem}, Holds s live →
    (∀ a, framesOver live (pageNum a) = 0 → mem a = s.mem a) →
    avail { s with mem := mem } = avail s

/-- As long as a frame is left, one is handed out. -/
theorem CountedAllocator.alloc_one {σ : Type} {A : CountedAllocator σ} {s : Phys σ}
    {live : Multiset Frame} (h : A.Holds s live) (room : 0 < A.avail s) :
    ∃ f s', A.allocOrder s 0 = (some f, s') ∧ A.avail s' + 1 = A.avail s := by
  have hsome := A.alloc_isSome h room
  rcases halloc : A.allocOrder s 0 with ⟨_ | f, s'⟩
  · rw [halloc] at hsome
    cases hsome
  have hcount := A.alloc_avail h halloc
  rw [Frame.count, (A.alloc_some h halloc).1] at hcount
  exact ⟨f, s', rfl, hcount⟩

end AlexOS
