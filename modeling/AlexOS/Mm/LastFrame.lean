import AlexOS.Mm.Coalesce

/-!
# The last free frame

The allocator looks at the first sixteen bytes of a free block and at nothing else of
it. A store further on goes unnoticed, and stays until the frame is handed out, zeroed.
When one frame is left, that is the one handed out next.
-/

namespace AlexOS.Buddy

open Bytes Blocks State

section
variable {s : State} {live : Multiset Frame} {L : Nat → List Nat} {a k x : Nat}

/-! ## Past the links -/

theorem Inv.store (h : Inv s live L) (ha : s.pool.base ≤ pageNum a) (hoff : 16 ≤ pageOffset a)
    (byte : UInt8) : Inv { s with mem := Function.update s.mem a byte } live L := by
  refine h.rewrite (fun b hb => Function.update_of_ne ?_ _ _) fun _ _ _ _ b _ hb =>
    Function.update_of_ne ?_ _ _
  · rintro rfl
    omega
  · rintro rfl
    omega

theorem setNext_past (v : Nat) (hoff : 16 ≤ pageOffset a) : (s.setNext x v).mem a = s.mem a := by
  refine write64_apart _ _ ?_
  simp only [State.node, baseAddr, pageOffset, pageSize] at *
  omega

theorem setPrev_past (v : Nat) (hoff : 16 ≤ pageOffset a) : (s.setPrev x v).mem a = s.mem a := by
  refine write64_apart _ _ ?_
  simp only [State.node, baseAddr, pageOffset, pageSize] at *
  omega

theorem push_past (g : Geometry s.pool) (b : Block s.pool.frames k x)
    (ha : s.pool.base ≤ pageNum a) (hoff : 16 ≤ pageOffset a) :
    (s.push k x).mem a = s.mem a := by
  obtain ⟨i, rfl, hbit⟩ := b.hasBit
  have g' := g.setHead (linkFront_pool s k (i * 2 ^ k)) (i * 2 ^ k) (k := k)
  rw [State.push, setFree_mem g' (by simpa [State.setHead] using hbit) _
    (by simpa [State.setHead] using ha), setHead_mem, linkFront]
  split
  · rw [setPrev_past _ hoff, setNext_past _ hoff]
  · rw [setPrev_past _ hoff, setPrev_past _ hoff, setNext_past _ hoff]

end

/-! ## One frame left -/

section
variable {s : State} {live : Multiset Frame} {base n q : Nat}

theorem managing_range {f : Frame} (h : (managing base n).Holds s live) (hf : f ∈ live) :
    base ≤ f.ppn ∧ f.ppn < base + n := by
  obtain ⟨⟨-, L, inv, -⟩, rfl, rfl⟩ := h
  obtain ⟨i, hi, b⟩ := inv.held f hf
  have := b.lt
  omega

/-- While a frame is held by nobody there is one to hand out. -/
theorem managing_avail_pos {p : Nat} (h : (managing base n).Holds s live) (lo : base ≤ p)
    (hi : p < base + n) (free : framesOver live p = 0) : 0 < (managing base n).avail s := by
  obtain ⟨⟨-, L, inv, -⟩, rfl, rfl⟩ := h
  obtain ⟨i, rfl⟩ := Nat.exists_eq_add_of_le lo
  have htile := inv.tiled i
  rw [if_pos (by omega), free, Nat.add_zero] at htile
  have hsum := Finset.single_le_sum (f := fun i => freeOver L i) (fun _ _ => Nat.zero_le _)
    (Finset.mem_range.mpr (show i < s.pool.frames by omega))
  have hbal := inv.balance
  show 0 < s.pool.frames - s.pool.allocated
  omega

/-- Of the managed frames `q` alone is held by nobody. -/
structure LastFree (base n : Nat) (live : Multiset Frame) (q : Nat) : Prop where
  low : base ≤ q
  high : q < base + n
  free : framesOver live q = 0
  others : ∀ p, base ≤ p → p < base + n → p ≠ q → 0 < framesOver live p

theorem LastFree.alloc (last : LastFree base n live q) (h : (managing base n).Holds s live) :
    ∃ s', (managing base n).allocOrder s 0 = (some ⟨q, 0⟩, s') ∧
      (managing base n).Holds s' (⟨q, 0⟩ ::ₘ live) ∧ Kept live s.mem s'.mem ∧
      Zeroed ⟨q, 0⟩ s'.mem := by
  obtain ⟨f, s', heq, -⟩ :=
    CountedAllocator.alloc_one h (managing_avail_pos h last.low last.high last.free)
  obtain ⟨horder, holds, kept, zeroed⟩ := (managing base n).alloc_some h heq
  obtain ⟨lo, hi⟩ := managing_range holds (Multiset.mem_cons_self f live)
  obtain rfl : f.ppn = q := by
    by_contra hne
    have := last.others f.ppn lo hi hne
    have hone := (managing base n).apart holds f.ppn
    rw [framesOver_cons, cover_self] at hone
    omega
  obtain ⟨ppn, order⟩ := f
  obtain rfl : order = 0 := horder
  exact ⟨s', heq, holds, kept, zeroed⟩

/-- Given back, it keeps what was in it past the links. -/
theorem LastFree.free_some (last : LastFree base n live q)
    (h : (managing base n).Holds s (⟨q, 0⟩ ::ₘ live)) :
    ∃ s', (managing base n).free s ⟨q, 0⟩ = some s' ∧ (managing base n).Holds s' live ∧
      Kept live s.mem s'.mem ∧
      ∀ a, pageNum a = q → 16 ≤ pageOffset a → s'.mem a = s.mem a := by
  obtain ⟨s', heq, holds, kept⟩ := (managing base n).free_some h
  refine ⟨s', heq, holds, kept, fun a ha hoff => ?_⟩
  obtain ⟨⟨-, L, inv, -⟩, rfl, rfl⟩ := h
  obtain ⟨x, hx, b⟩ := inv.held ⟨q, 0⟩ (Multiset.mem_cons_self _ _)
  obtain rfl : q = s.pool.base + x := hx
  have busy : s.pool.frames < (x ^^^ 1) + 1 ∨ s.isFree 0 (x ^^^ 1) = false := by
    by_cases hlt : x ^^^ 1 < s.pool.frames
    · refine .inr (inv.busy ?_)
      have hne : x ^^^ 1 ≠ x := fun h =>
        absurd (Nat.xor_right_inj.mp (h.trans (Nat.xor_zero x).symm)) (by decide)
      have := last.others (s.pool.base + (x ^^^ 1)) (by omega) (by omega) (by omega)
      rw [framesOver_cons]
      omega
    · exact .inl (by omega)
  rw [free_alone busy heq]
  exact push_past (inv.rep.discount 0).geometry b (by rw [ha]; exact Nat.le_add_right _ _) hoff

/-- Frames are taken until none is left. -/
theorem drain {σ : Type} {A : CountedAllocator σ} {s : Phys σ} (h : A.Holds s live) :
    ∃ s' taken, A.Holds s' (taken + live) ∧ Kept live s.mem s'.mem ∧ A.avail s' = 0 ∧
      ∀ f ∈ taken, f.order = 0 := by
  generalize hn : A.avail s = n
  induction n generalizing s live with
  | zero => exact ⟨s, 0, by rwa [zero_add], .refl _ _, hn, fun _ hf => absurd hf (by simp)⟩
  | succ n ih =>
    obtain ⟨f, s₁, heq, hcount⟩ := CountedAllocator.alloc_one h (by omega)
    obtain ⟨horder, holds, kept, -⟩ := A.alloc_some h heq
    obtain ⟨s', taken, holds', kept', none, orders⟩ := ih holds (by omega)
    refine ⟨s', f ::ₘ taken, ?_, kept.trans (kept'.mono (Multiset.le_cons_self _ _)), none, ?_⟩
    · rwa [Multiset.cons_add, ← Multiset.add_cons]
    · intro g hg
      rcases Multiset.mem_cons.mp hg with rfl | hg
      · exact horder
      · exact orders g hg

end

end AlexOS.Buddy
