import AlexOS.Mm.Frame
import AlexOS.Lib.Chain
import AlexOS.Lib.Blocks

/-!
# Free lists and bitmap in step

`Rep s L` says that the memory and the record of `s` represent the family `L`
of free blocks: order `k`'s list visits `L k`, order `k`'s bits are set on
exactly `L k`, and no frame lies in two free blocks. `push` and `remove` are
then insertion and erasure on the family.
-/

namespace AlexOS.Buddy

open Bytes Chain Blocks

namespace State

@[simp] theorem setNext_pool (s : State) (i v : Nat) : (s.setNext i v).pool = s.pool := rfl

@[simp] theorem setPrev_pool (s : State) (i v : Nat) : (s.setPrev i v).pool = s.pool := rfl

@[simp] theorem setFree_pool (s : State) (k i : Nat) (b : Bool) :
    (s.setFree k i b).pool = s.pool := rfl

@[simp] theorem setHead_mem (s : State) (k v : Nat) : (s.setHead k v).mem = s.mem := rfl

@[simp] theorem setHead_next (s : State) (k v i : Nat) : (s.setHead k v).next i = s.next i := rfl

@[simp] theorem setHead_prev (s : State) (k v i : Nat) : (s.setHead k v).prev i = s.prev i := rfl

@[simp] theorem setHead_isFree (s : State) (k v j i : Nat) :
    (s.setHead k v).isFree j i = s.isFree j i := rfl

theorem next_setNext (s : State) {v : Nat} (hv : v < 2 ^ 64) (i j : Nat) :
    (s.setNext i v).next j = if j = i then v else s.next j := by
  by_cases h : j = i
  · subst h; simpa [next, setNext, node] using read64_write64_same s.mem hv
  · simp only [h, if_false]
    exact read64_write64_apart _ _ (by simp only [node, baseAddr, pageSize, setNext_pool]; omega)

theorem prev_setPrev (s : State) {v : Nat} (hv : v < 2 ^ 64) (i j : Nat) :
    (s.setPrev i v).prev j = if j = i then v else s.prev j := by
  by_cases h : j = i
  · subst h; simpa [prev, setPrev, node] using read64_write64_same s.mem hv
  · simp only [h, if_false]
    exact read64_write64_apart _ _ (by simp only [node, baseAddr, pageSize, setPrev_pool]; omega)

@[simp] theorem prev_setNext (s : State) (v i j : Nat) : (s.setNext i v).prev j = s.prev j :=
  read64_write64_apart _ _ (by simp only [node, baseAddr, pageSize, setNext_pool]; omega)

@[simp] theorem next_setPrev (s : State) (v i j : Nat) : (s.setPrev i v).next j = s.next j :=
  read64_write64_apart _ _ (by simp only [node, baseAddr, pageSize, setPrev_pool]; omega)

theorem bitsBelow_succ (frames k : Nat) :
    bitsBelow frames (k + 1) = bitsBelow frames k + divCeil frames (2 ^ k) := by
  simp [bitsBelow, List.range_succ]

theorem bitsBelow_mono (frames : Nat) {j k : Nat} (h : j ≤ k) :
    bitsBelow frames j ≤ bitsBelow frames k := by
  induction h with
  | refl => exact Nat.le_refl _
  | step _ ih => rw [bitsBelow_succ]; omega

end State

open State

/-- What `init` fixes and nothing changes: the bit offsets, a bitmap below the
managed frames, frames inside the word's range and a base aligned to the
largest block. -/
structure Geometry (a : BuddyAllocator) : Prop where
  bitBase : a.orderBitBase = bitsBelow a.frames
  bitmapBelow : a.bitmap + 8 * divCeil (bitsBelow a.frames (maxOrder + 1)) 64 ≤ baseAddr a.base
  top : baseAddr (a.base + a.frames) ≤ 2 ^ 64
  baseAligned : 2 ^ maxOrder ∣ a.base

/-- A block whose bit exists: its index counts in units of its size. -/
def HasBit (frames k i : Nat) : Prop := k ≤ maxOrder ∧ i < divCeil frames (2 ^ k)

theorem bit_lt {frames k i : Nat} (h : HasBit frames k i) :
    bitsBelow frames k + i < bitsBelow frames (maxOrder + 1) := by
  have := bitsBelow_mono frames (j := k + 1) (k := maxOrder + 1) (by have := h.1; omega)
  rw [bitsBelow_succ] at this
  have := h.2
  omega

/-- Distinct blocks have distinct bits. -/
theorem bit_injective {frames k i j l : Nat} (hk : HasBit frames k i) (hj : HasBit frames j l)
    (h : bitsBelow frames k + i = bitsBelow frames j + l) : k = j ∧ i = l := by
  have apart : ∀ {a b c d : Nat}, a < b → HasBit frames a c →
      bitsBelow frames a + c < bitsBelow frames b + d := by
    intro a b c d hab ha
    have := bitsBelow_mono frames (j := a + 1) (k := b) hab
    rw [bitsBelow_succ] at this
    have := ha.2
    omega
  rcases Nat.lt_trichotomy k j with lt | rfl | gt
  · have := apart (d := l) lt hk; omega
  · exact ⟨rfl, by omega⟩
  · have := apart (d := i) gt hj; omega

theorem bitIndex_eq {s : State} (g : Geometry s.pool) (k i : Nat) :
    s.bitIndex k (i * 2 ^ k) = bitsBelow s.pool.frames k + i := by
  rw [bitIndex, g.bitBase, Nat.mul_div_cancel _ (Nat.two_pow_pos k)]

/-- The word holding a block's bit lies below every list node. -/
theorem word_below {s : State} (g : Geometry s.pool) {k i : Nat} (h : HasBit s.pool.frames k i)
    (j : Nat) : s.pool.bitmap + 8 * (s.bitIndex k (i * 2 ^ k) / 64) + 8 ≤ s.node j := by
  have hbit := bit_lt h
  have hfit := g.bitmapBelow
  rw [bitIndex_eq g]
  simp only [divCeil, node, baseAddr, pageSize] at *
  omega

theorem isFree_setNext {s : State} (g : Geometry s.pool) {k i : Nat}
    (h : HasBit s.pool.frames k i) (x v : Nat) :
    (s.setNext x v).isFree k (i * 2 ^ k) = s.isFree k (i * 2 ^ k) := by
  have := word_below g h x
  exact bitAt_congr fun a lo hi => write64_apart _ _ (.inl (Nat.lt_of_lt_of_le hi this))

theorem isFree_setPrev {s : State} (g : Geometry s.pool) {k i : Nat}
    (h : HasBit s.pool.frames k i) (x v : Nat) :
    (s.setPrev x v).isFree k (i * 2 ^ k) = s.isFree k (i * 2 ^ k) := by
  have := word_below g h x
  exact bitAt_congr fun a lo hi =>
    write64_apart _ _ (.inl (Nat.lt_of_lt_of_le hi (Nat.le_add_right_of_le this)))

theorem isFree_setFree {s : State} (g : Geometry s.pool) {k i j l : Nat}
    (hk : HasBit s.pool.frames k i) (hj : HasBit s.pool.frames j l) (b : Bool) :
    (s.setFree k (i * 2 ^ k) b).isFree j (l * 2 ^ j) =
      if j = k ∧ l = i then b else s.isFree j (l * 2 ^ j) := by
  have hbit : s.bitIndex j (l * 2 ^ j) = s.bitIndex k (i * 2 ^ k) ↔ j = k ∧ l = i := by
    rw [bitIndex_eq g, bitIndex_eq g]
    exact ⟨bit_injective hj hk, fun ⟨hj, hl⟩ => hj ▸ hl ▸ rfl⟩
  simp only [← hbit]
  exact bitAt_setBit ..

theorem next_setFree {s : State} (g : Geometry s.pool) {k i : Nat}
    (h : HasBit s.pool.frames k i) (b : Bool) (j : Nat) :
    (s.setFree k (i * 2 ^ k) b).next j = s.next j :=
  read64_congr fun _ lo _ => setBit_apart _ _ (.inr (Nat.le_trans (word_below g h j) lo))

theorem prev_setFree {s : State} (g : Geometry s.pool) {k i : Nat}
    (h : HasBit s.pool.frames k i) (b : Bool) (j : Nat) :
    (s.setFree k (i * 2 ^ k) b).prev j = s.prev j :=
  read64_congr fun _ lo _ => setBit_apart _ _
    (.inr (Nat.le_trans (Nat.le_add_right_of_le (word_below g h j)) lo))

/-! ## What the writes leave alone -/

theorem setNext_mem (s : State) {i a : Nat} (v : Nat) (h : pageNum a ≠ s.pool.base + i) :
    (s.setNext i v).mem a = s.mem a := by
  have := write64_frame s.mem v 0 (by decide) h
  rwa [Nat.add_zero] at this

theorem setPrev_mem (s : State) {i a : Nat} (v : Nat) (h : pageNum a ≠ s.pool.base + i) :
    (s.setPrev i v).mem a = s.mem a := by
  exact write64_frame s.mem v 8 (by decide) h

theorem setFree_mem {s : State} (g : Geometry s.pool) {k i a : Nat}
    (h : HasBit s.pool.frames k i) (b : Bool) (ha : s.pool.base ≤ pageNum a) :
    (s.setFree k (i * 2 ^ k) b).mem a = s.mem a := by
  have hnode := word_below g h 0
  have hframe : s.node 0 ≤ a :=
    Nat.le_trans (Nat.mul_le_mul_right _ ha) (Nat.div_mul_le_self a pageSize)
  exact setBit_apart _ _ (.inr (Nat.le_trans hnode hframe))

/-- Every byte of a frame that `free` does not count is as it was. -/
def Untouched (s t : State) (free : Nat → Nat) : Prop :=
  ∀ f a, free f = 0 → pageNum a = s.pool.base + f → t.mem a = s.mem a

theorem Untouched.trans {s t u : State} {free free' : Nat → Nat} (h : Untouched s t free)
    (h' : Untouched t u free') (hbase : t.pool.base = s.pool.base)
    (sub : ∀ f, free f = 0 → free' f = 0) : Untouched s u free := by
  intro f a hf ha
  rw [h' f a (sub f hf) (by rw [hbase]; exact ha), h f a hf ha]

/-- A block of order `k` at relative index `x`, inside the managed frames. -/
def Block (frames k x : Nat) : Prop := k ≤ maxOrder ∧ 2 ^ k ∣ x ∧ x + 2 ^ k ≤ frames

theorem Block.hasBit {frames k x : Nat} (h : Block frames k x) :
    ∃ i, x = i * 2 ^ k ∧ HasBit frames k i := by
  obtain ⟨hk, ⟨i, rfl⟩, hfit⟩ := h
  rw [Nat.mul_comm] at hfit ⊢
  exact ⟨i, rfl, hk, lt_divCeil (Nat.two_pow_pos k) hfit⟩

theorem Block.lt {frames k x : Nat} (h : Block frames k x) : x < frames :=
  Nat.lt_of_lt_of_le (Nat.lt_add_of_pos_right (Nat.two_pow_pos k)) h.2.2

theorem Geometry.frames_lt {a : BuddyAllocator} (g : Geometry a) : a.frames < nil := by
  have := g.top
  simp only [baseAddr, pageSize] at this
  simp only [nil]
  omega

/-- Free blocks over the frame with relative index `f`. -/
def freeOver (L : Nat → List Nat) (f : Nat) : Nat := coverage (maxOrder + 1) L f

theorem freeOver_push {L : Nat → List Nat} {k : Nat} (hk : k ≤ maxOrder) (x f : Nat) :
    freeOver (Function.update L k (x :: L k)) f = freeOver L f + cover k x f :=
  coverage_push (Nat.lt_add_one_of_le hk) x f

theorem freeOver_erase {L : Nat → List Nat} {k x : Nat} (hk : k ≤ maxOrder) (hx : x ∈ L k)
    (f : Nat) :
    freeOver (Function.update L k ((L k).erase x)) f + cover k x f = freeOver L f :=
  coverage_erase (Nat.lt_add_one_of_le hk) hx f

structure Rep (s : State) (L : Nat → List Nat) : Prop where
  geometry : Geometry s.pool
  linked : ∀ k, k ≤ maxOrder → Linked s.next s.prev nil nil (s.pool.freeLists k) (L k)
  bits : ∀ k i, HasBit s.pool.frames k i → (s.isFree k (i * 2 ^ k) = true ↔ i * 2 ^ k ∈ L k)
  blocks : ∀ k, k ≤ maxOrder → ∀ x ∈ L k, Block s.pool.frames k x
  apart : ∀ f, freeOver L f ≤ 1

section
variable {s : State} {L : Nat → List Nat} {k x : Nat}

theorem Rep.head_lt (r : Rep s L) (hk : k ≤ maxOrder) : s.pool.freeLists k < 2 ^ 64 := by
  have hlt := r.geometry.frames_lt
  have hhead := (r.linked k hk).head_eq
  simp only [nil] at hlt
  cases hL : L k with
  | nil => rw [hL] at hhead; simp [hhead, nil]
  | cons y ys =>
    have := (r.blocks k hk y (by simp [hL])).lt
    rw [hL] at hhead
    simp only [List.headD_cons] at hhead
    omega

theorem Rep.head_mem (r : Rep s L) (hk : k ≤ maxOrder) (h : s.pool.freeLists k ≠ nil) :
    s.pool.freeLists k ∈ L k := by
  have hhead := (r.linked k hk).head_eq
  cases hL : L k with
  | nil => rw [hL] at hhead; exact absurd hhead h
  | cons y ys => simp [hhead, hL]

theorem Rep.order_eq (r : Rep s L) {j : Nat} (hj : j ≤ maxOrder) (hk : k ≤ maxOrder)
    (hxj : x ∈ L j) (hxk : x ∈ L k) : j = k :=
  (block_unique (r.apart x) (Nat.lt_succ_of_le hj) (Nat.lt_succ_of_le hk) hxj hxk
    (cover_self j x) (cover_self k x)).1

theorem Rep.nodup (r : Rep s L) (hk : k ≤ maxOrder) : (L k).Nodup :=
  nodup_of_coverage r.apart (Nat.lt_succ_of_le hk)

/-- A block that overlaps no free block is on no list. -/
theorem not_listed (fresh : ∀ f, freeOver L f + cover k x f ≤ 1) {j : Nat}
    (hj : j ≤ maxOrder) : x ∉ L j := by
  intro hx
  have hone := cover_le_coverage (f := x) (Nat.lt_add_one_of_le hj) hx
  have := fresh x
  simp only [cover_self, freeOver] at *
  omega

/-! ## Linking a block -/

@[simp] theorem linkFront_pool (s : State) (k x : Nat) : (s.linkFront k x).pool = s.pool := by
  simp only [linkFront]; split <;> rfl

@[simp] theorem push_pool (s : State) (k x : Nat) :
    (s.push k x).pool = { s.pool with freeLists := Function.update s.pool.freeLists k x } := by
  simp [State.push, setHead]

theorem Geometry.relink {a : BuddyAllocator} (g : Geometry a) (fl : Nat → Nat) :
    Geometry { a with freeLists := fl } :=
  ⟨g.bitBase, g.bitmapBelow, g.top, g.baseAligned⟩

/-- Only lists and memory differ, so the bitmap is laid out as before. -/
theorem Geometry.setHead {s t : State} (g : Geometry s.pool) (h : t.pool = s.pool) (v : Nat) :
    Geometry (t.setHead k v).pool := by
  simpa [State.setHead, h] using g.relink _

theorem push_next (r : Rep s L) (b : Block s.pool.frames k x) (y : Nat) :
    (s.push k x).next y = if y = x then s.pool.freeLists k else s.next y := by
  obtain ⟨i, rfl, hbit⟩ := b.hasBit
  have g := r.geometry.setHead (linkFront_pool s k (i * 2 ^ k)) (i * 2 ^ k) (k := k)
  rw [State.push, next_setFree g (by simpa [State.setHead] using hbit), setHead_next, linkFront]
  split <;> simp [next_setNext _ (r.head_lt b.1)]

theorem push_prev (r : Rep s L) (b : Block s.pool.frames k x) (y : Nat) :
    (s.push k x).prev y = if s.pool.freeLists k ≠ nil ∧ y = s.pool.freeLists k then x
      else if y = x then nil else s.prev y := by
  obtain ⟨i, rfl, hbit⟩ := b.hasBit
  have hnil : nil < 2 ^ 64 := by simp [nil]
  have hx : i * 2 ^ k < 2 ^ 64 := Nat.lt_trans b.lt (Nat.lt_trans r.geometry.frames_lt hnil)
  have g := r.geometry.setHead (linkFront_pool s k (i * 2 ^ k)) (i * 2 ^ k) (k := k)
  rw [State.push, prev_setFree g (by simpa [State.setHead] using hbit), setHead_prev, linkFront]
  split <;> rename_i hhead <;> simp [prev_setPrev _ hnil, prev_setPrev _ hx, hhead]

theorem linkFront_isFree (g : Geometry s.pool) {j l : Nat} (hj : HasBit s.pool.frames j l) :
    (s.linkFront k x).isFree j (l * 2 ^ j) = s.isFree j (l * 2 ^ j) := by
  have front : ((s.setNext x (s.pool.freeLists k)).setPrev x nil).isFree j (l * 2 ^ j) =
      s.isFree j (l * 2 ^ j) := by
    rw [isFree_setPrev (s := s.setNext x (s.pool.freeLists k)) g hj, isFree_setNext g hj]
  rw [linkFront]
  split
  · exact front
  · exact (isFree_setPrev (s := (s.setNext x _).setPrev x nil) g hj _ _).trans front

theorem push_isFree (r : Rep s L) {i j l : Nat} (hk : HasBit s.pool.frames k i)
    (hj : HasBit s.pool.frames j l) :
    (s.push k (i * 2 ^ k)).isFree j (l * 2 ^ j) =
      if j = k ∧ l = i then true else s.isFree j (l * 2 ^ j) := by
  have g := r.geometry.setHead (linkFront_pool s k (i * 2 ^ k)) (i * 2 ^ k) (k := k)
  rw [State.push, isFree_setFree g (by simpa [State.setHead] using hk)
    (by simpa [State.setHead] using hj), setHead_isFree, linkFront_isFree r.geometry hj]

theorem linkFront_mem (s : State) {a : Nat} (hx : pageNum a ≠ s.pool.base + x)
    (hhead : s.pool.freeLists k ≠ nil → pageNum a ≠ s.pool.base + s.pool.freeLists k) :
    (s.linkFront k x).mem a = s.mem a := by
  have front : ((s.setNext x (s.pool.freeLists k)).setPrev x nil).mem a = s.mem a :=
    (setPrev_mem (s.setNext x _) _ hx).trans (setNext_mem s _ hx)
  rw [linkFront]
  split
  · exact front
  · rename_i hne
    exact (setPrev_mem ((s.setNext x _).setPrev x nil) _ (hhead hne)).trans front

theorem push_untouched (r : Rep s L) (b : Block s.pool.frames k x) :
    Untouched s (s.push k x) fun f => freeOver L f + cover k x f := by
  intro f a hfree ha
  obtain ⟨i, rfl, hbit⟩ := b.hasBit
  have g := r.geometry.setHead (linkFront_pool s k (i * 2 ^ k)) (i * 2 ^ k) (k := k)
  have hx : f ≠ i * 2 ^ k := by
    rintro rfl
    simp at hfree
  have hhead : s.pool.freeLists k ≠ nil → f ≠ s.pool.freeLists k := by
    rintro hne rfl
    have := cover_le_coverage (f := s.pool.freeLists k) (Nat.lt_add_one_of_le b.1)
      (r.head_mem b.1 hne)
    simp only [cover_self, freeOver] at *
    omega
  refine (setFree_mem g (by simpa [State.setHead] using hbit) true (a := a)
    (by simp [State.setHead, ha])).trans (linkFront_mem s (by omega) ?_)
  intro hne
  have := hhead hne
  omega

theorem Rep.push (r : Rep s L) (b : Block s.pool.frames k x)
    (fresh : ∀ f, freeOver L f + cover k x f ≤ 1) :
    Rep (s.push k x) (Function.update L k (x :: L k)) := by
  have hk := b.1
  have absent : ∀ {j}, j ≤ maxOrder → ∀ y ∈ L j, y ≠ x := fun hj y hy e =>
    not_listed fresh hj (e ▸ hy)
  constructor
  · rw [push_pool]; exact r.geometry.relink _
  · intro j hj
    rw [push_pool]
    by_cases hjk : j = k
    · subst hjk
      simp only [Function.update_self]
      apply (r.linked j hj).push (not_listed fresh hj)
        (Nat.ne_of_lt (Nat.lt_trans b.lt r.geometry.frames_lt)) (r.nodup hj)
      · simp [push_next r b]
      · have : ¬ (s.pool.freeLists j ≠ nil ∧ x = s.pool.freeLists j) := fun ⟨hne, e⟩ =>
          absent hj _ (r.head_mem hj hne) e.symm
        simp [push_prev r b, this]
      · intro hne; simp [push_prev r b, hne]
      · intro y hy; simp [push_next r b, absent hj y hy]
      · intro y hy hne; simp [push_prev r b, absent hj y hy, hne]
    · simp only [Function.update_of_ne hjk]
      apply (r.linked j hj).congr
      · intro y hy; simp [push_next r b, absent hj y hy]
      · intro y hy
        have : ¬ (s.pool.freeLists k ≠ nil ∧ y = s.pool.freeLists k) := fun ⟨hne, e⟩ =>
          hjk (r.order_eq hj hk hy (e ▸ r.head_mem hk hne))
        simp [push_prev r b, absent hj y hy, this]
  · intro j l hj
    rw [push_pool] at hj
    obtain ⟨i, rfl, hbit⟩ := b.hasBit
    rw [push_isFree r hbit hj]
    by_cases hjk : j = k
    · subst hjk
      have := r.bits j l hj
      have hmul : l * 2 ^ j = i * 2 ^ j ↔ l = i := Nat.mul_left_inj (Nat.two_pow_pos j).ne'
      simp only [true_and, Function.update_self, List.mem_cons, hmul]
      by_cases hli : l = i <;> simp [hli, this]
    · simpa [hjk, Function.update_of_ne hjk] using r.bits j l hj
  · intro j hj y hy
    rw [push_pool]
    by_cases hjk : j = k
    · subst hjk
      rcases List.mem_cons.mp (by simpa using hy) with rfl | hy
      · exact b
      · exact r.blocks j hj y hy
    · exact r.blocks j hj y (by simpa [Function.update_of_ne hjk] using hy)
  · intro f
    rw [freeOver_push hk]
    exact fresh f

/-! ## Unlinking a block -/

theorem unlink_pool (s : State) (k x : Nat) :
    (s.unlink k x).pool = if s.prev x = nil then
      { s.pool with freeLists := Function.update s.pool.freeLists k (s.next x) } else s.pool := by
  by_cases hp : s.prev x = nil <;> by_cases hn : s.next x = nil <;>
    simp [unlink, hp, hn, setHead, setNext, setPrev]

theorem unlink_next (s : State) (k x y : Nat) :
    (s.unlink k x).next y = if s.prev x ≠ nil ∧ y = s.prev x then s.next x else s.next y := by
  have hnext : s.next x < 2 ^ 64 := read64_lt ..
  by_cases hp : s.prev x = nil <;> by_cases hn : s.next x = nil <;>
    simp only [unlink, hp, hn, if_true, if_false, ne_eq, not_true_eq_false, not_false_eq_true,
      false_and, true_and, setHead_next, next_setPrev, next_setNext _ hnext]
  rw [hn] at hnext
  rw [next_setNext _ hnext]

theorem unlink_prev (s : State) (k x y : Nat) :
    (s.unlink k x).prev y = if s.next x ≠ nil ∧ y = s.next x then s.prev x else s.prev y := by
  have hprev : s.prev x < 2 ^ 64 := read64_lt ..
  by_cases hp : s.prev x = nil <;> by_cases hn : s.next x = nil <;>
    simp only [unlink, hp, hn, if_true, if_false, ne_eq, not_true_eq_false, not_false_eq_true,
      false_and, true_and, setHead_prev, prev_setNext, prev_setPrev _ hprev]
  rw [hp] at hprev
  rw [prev_setPrev _ hprev, setHead_prev]

theorem unlink_heads (s : State) (k x : Nat) :
    (s.unlink k x).pool.freeLists = if s.prev x = nil then
      Function.update s.pool.freeLists k (s.next x) else s.pool.freeLists := by
  rw [unlink_pool]; split <;> rfl

theorem unlink_frames (s : State) (k x : Nat) : (s.unlink k x).pool.frames = s.pool.frames := by
  rw [unlink_pool]; split <;> rfl

theorem Geometry.unlink (g : Geometry s.pool) (k x : Nat) : Geometry (s.unlink k x).pool := by
  rw [unlink_pool]; split
  · exact g.relink _
  · exact g

theorem unlink_isFree (g : Geometry s.pool) {j l : Nat} (hj : HasBit s.pool.frames j l) :
    (s.unlink k x).isFree j (l * 2 ^ j) = s.isFree j (l * 2 ^ j) := by
  by_cases hp : s.prev x = nil <;> by_cases hn : s.next x = nil <;>
    simp only [State.unlink, hp, hn, if_true, if_false]
  · rfl
  · rw [isFree_setPrev (s := s.setHead k _) (g.relink _) hj, setHead_isFree]
  · exact isFree_setNext g hj _ _
  · rw [isFree_setPrev (s := s.setNext _ _) g hj, isFree_setNext g hj]

@[simp] theorem remove_pool (s : State) (k x : Nat) :
    (s.remove k x).pool = (s.unlink k x).pool := by
  rw [State.remove, setFree_pool]

theorem remove_next (g : Geometry s.pool) (b : Block s.pool.frames k x) (y : Nat) :
    (s.remove k x).next y = if s.prev x ≠ nil ∧ y = s.prev x then s.next x else s.next y := by
  obtain ⟨i, rfl, hbit⟩ := b.hasBit
  rw [State.remove, next_setFree (g.unlink _ _) (by rwa [unlink_frames]), unlink_next]

theorem remove_prev (g : Geometry s.pool) (b : Block s.pool.frames k x) (y : Nat) :
    (s.remove k x).prev y = if s.next x ≠ nil ∧ y = s.next x then s.prev x else s.prev y := by
  obtain ⟨i, rfl, hbit⟩ := b.hasBit
  rw [State.remove, prev_setFree (g.unlink _ _) (by rwa [unlink_frames]), unlink_prev]

theorem remove_isFree (g : Geometry s.pool) {i j l : Nat} (hk : HasBit s.pool.frames k i)
    (hj : HasBit s.pool.frames j l) :
    (s.remove k (i * 2 ^ k)).isFree j (l * 2 ^ j) =
      if j = k ∧ l = i then false else s.isFree j (l * 2 ^ j) := by
  rw [State.remove, isFree_setFree (g.unlink _ _) (by rwa [unlink_frames])
    (by rwa [unlink_frames]), unlink_isFree g hj]

/-- The neighbours of a listed block are the ends of the lists around it. -/
theorem Rep.neighbours (r : Rep s L) (hk : k ≤ maxOrder) {xs ys : List Nat}
    (h : L k = xs ++ x :: ys) : s.prev x = xs.getLastD nil ∧ s.next x = ys.headD nil ∧
      (s.prev x = nil ↔ xs = []) ∧ (s.next x = nil ↔ ys = []) := by
  have hne := (r.linked k hk).ne_nil
  have hl := r.linked k hk
  rw [h] at hl hne
  obtain ⟨hp, hn⟩ := hl.links
  refine ⟨hp, hn, ?_, ?_⟩
  · rw [hp]
    rcases List.eq_nil_or_concat xs with rfl | ⟨zs, z, rfl⟩
    · simp
    · simpa using hne z (by simp)
  · rw [hn]
    cases ys with
    | nil => simp
    | cons y ys => simpa using hne y (by simp)

/-- A neighbour that exists is on the same list. -/
theorem Rep.neighbour_mem (r : Rep s L) (hk : k ≤ maxOrder) (hx : x ∈ L k) :
    (s.prev x ≠ nil → s.prev x ∈ L k) ∧ (s.next x ≠ nil → s.next x ∈ L k) := by
  obtain ⟨xs, ys, hL⟩ := List.append_of_mem hx
  obtain ⟨hprev, hnext, hxs, hys⟩ := r.neighbours hk hL
  constructor
  · intro hne
    have : xs ≠ [] := fun h => hne (hxs.mpr h)
    rw [hL, hprev, List.getLastD_eq_getLast?, List.getLast?_eq_some_getLast this]
    exact List.mem_append_left _ (List.getLast_mem this)
  · intro hne
    rw [hL, hnext]
    cases ys with
    | nil => exact absurd (hys.mpr rfl) hne
    | cons y ys => simp

theorem unlink_mem (s : State) {a : Nat}
    (hp : s.prev x ≠ nil → pageNum a ≠ s.pool.base + s.prev x)
    (hn : s.next x ≠ nil → pageNum a ≠ s.pool.base + s.next x) :
    (s.unlink k x).mem a = s.mem a := by
  by_cases hprev : s.prev x = nil <;> by_cases hnext : s.next x = nil <;>
    simp only [State.unlink, hprev, hnext, if_true, if_false, setHead_mem]
  · exact setPrev_mem (s.setHead k (s.next x)) _ (hn hnext)
  · exact setNext_mem _ _ (hp hprev)
  · exact (setPrev_mem (s.setNext _ _) _ (hn hnext)).trans (setNext_mem s _ (hp hprev))

theorem remove_untouched (r : Rep s L) (hk : k ≤ maxOrder) (hx : x ∈ L k) :
    Untouched s (s.remove k x) (freeOver L) := by
  intro f a hfree ha
  obtain ⟨prev_mem, next_mem⟩ := r.neighbour_mem hk hx
  have listed : ∀ y ∈ L k, pageNum a ≠ s.pool.base + y := by
    intro y hy e
    obtain rfl : f = y := by omega
    have := cover_le_coverage (f := f) (Nat.lt_add_one_of_le hk) hy
    simp only [cover_self, freeOver] at *
    omega
  obtain ⟨i, rfl, hbit⟩ := (r.blocks k hk x hx).hasBit
  have region : (s.unlink k (i * 2 ^ k)).pool.base = s.pool.base := by
    rw [unlink_pool]; split <;> rfl
  exact (setFree_mem (r.geometry.unlink k _) (by rwa [unlink_frames]) false (a := a)
    (by rw [region]; omega)).trans
      (unlink_mem s (fun hne => listed _ (prev_mem hne)) fun hne => listed _ (next_mem hne))

theorem Rep.remove_own (r : Rep s L) (hk : k ≤ maxOrder) (hx : x ∈ L k) :
    Linked (s.remove k x).next (s.remove k x).prev nil nil ((s.remove k x).pool.freeLists k)
      ((L k).erase x) := by
  obtain ⟨xs, ys, hL⟩ := List.append_of_mem hx
  have nodup := r.nodup hk
  have hlinked := r.linked k hk
  rw [hL] at nodup hlinked
  have herase : (L k).erase x = xs ++ ys := by
    have : x ∉ xs := fun h => (List.nodup_append.mp nodup).2.2 x h x List.mem_cons_self rfl
    rw [hL, List.erase_append_right _ this, List.erase_cons_head]
  have b := r.blocks k hk x hx
  obtain ⟨hprev, hnext, hxs, hys⟩ := r.neighbours hk hL
  have chain : Linked (s.remove k x).next (s.remove k x).prev nil nil
      (if xs = [] then ys.headD nil else s.pool.freeLists k) (xs ++ ys) := hlinked.remove nodup
    (fun h => by
      rw [remove_next r.geometry b, ← hprev, ← hnext]
      exact if_pos ⟨fun e => h (hxs.mp e), rfl⟩)
    (fun y _ hor => by
      rw [remove_next r.geometry b, if_neg]
      intro h
      exact hor.elim (fun hz => h.1 (hxs.mpr hz)) fun hne => hne (h.2.trans hprev))
    (fun h => by
      rw [remove_prev r.geometry b, ← hprev, ← hnext]
      exact if_pos ⟨fun e => h (hys.mp e), rfl⟩)
    (fun y _ hne => by
      rw [remove_prev r.geometry b, if_neg]
      exact fun h => hne (h.2.trans hnext))
  rw [remove_pool, unlink_heads, herase]
  by_cases h : xs = []
  · rw [if_pos (hxs.mpr h), Function.update_self, hnext]
    rwa [if_pos h] at chain
  · rw [if_neg fun e => h (hxs.mp e)]
    rwa [if_neg h] at chain

theorem Rep.remove_other (r : Rep s L) (hk : k ≤ maxOrder) (hx : x ∈ L k) {j : Nat}
    (hj : j ≤ maxOrder) (hjk : j ≠ k) :
    Linked (s.remove k x).next (s.remove k x).prev nil nil ((s.remove k x).pool.freeLists j)
      (L j) := by
  obtain ⟨prev_mem, next_mem⟩ := r.neighbour_mem hk hx
  have b := r.blocks k hk x hx
  have heads : (s.remove k x).pool.freeLists j = s.pool.freeLists j := by
    rw [remove_pool, unlink_heads]; split <;> simp [Function.update_of_ne hjk]
  rw [heads]
  apply (r.linked j hj).congr
  · intro y hy
    rw [remove_next r.geometry b, if_neg]
    exact fun h => hjk (r.order_eq hj hk hy (h.2 ▸ prev_mem h.1))
  · intro y hy
    rw [remove_prev r.geometry b, if_neg]
    exact fun h => hjk (r.order_eq hj hk hy (h.2 ▸ next_mem h.1))

theorem Rep.remove (r : Rep s L) (hk : k ≤ maxOrder) (hx : x ∈ L k) :
    Rep (s.remove k x) (Function.update L k ((L k).erase x)) := by
  constructor
  · rw [remove_pool]; exact r.geometry.unlink k x
  · intro j hj
    by_cases hjk : j = k
    · subst hjk
      rw [Function.update_self]
      exact r.remove_own hj hx
    · rw [Function.update_of_ne hjk]
      exact r.remove_other hk hx hj hjk
  · intro j l hj
    rw [remove_pool, unlink_frames] at hj
    obtain ⟨i, rfl, hbit⟩ := (r.blocks k hk x hx).hasBit
    rw [remove_isFree r.geometry hbit hj]
    by_cases hjk : j = k
    · subst hjk
      have hmul : l * 2 ^ j = i * 2 ^ j ↔ l = i := Nat.mul_left_inj (Nat.two_pow_pos j).ne'
      have hbits := r.bits j l hj
      rw [Function.update_self, (r.nodup hk).mem_erase_iff, ← hbits, ne_eq, hmul]
      by_cases hli : l = i <;> simp [hli]
    · simpa [hjk, Function.update_of_ne hjk] using r.bits j l hj
  · intro j hj y hy
    rw [remove_pool, unlink_frames]
    by_cases hjk : j = k
    · subst hjk
      exact r.blocks j hj y (List.mem_of_mem_erase (by simpa using hy))
    · exact r.blocks j hj y (by simpa [Function.update_of_ne hjk] using hy)
  · intro f
    have := freeOver_erase hk hx f
    have := r.apart f
    omega

end

end AlexOS.Buddy
