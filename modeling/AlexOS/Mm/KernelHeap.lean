import AlexOS.Mm.Space
import AlexOS.Mm.FrameRun
import AlexOS.Lib.Checked
import AlexOS.Lib.Spans
import AlexOS.Lib.Thread

/-!
# The kernel heap

`kernel/src/mm/heap.rs`. Requests up to 2 KiB come from nine lists of free blocks whose
links lie in the blocks themselves; a list that has run dry takes one frame from the buddy
allocator and cuts it up. Larger requests are whole runs of frames. Pointers are direct-map
addresses, memory is physical, and `none` is a panic.
-/

namespace AlexOS.KernelHeap

open Bytes Checked Buddy

def classSizes : List Nat := [8, 16, 32, 64, 128, 256, 512, 1024, 2048]

abbrev Class := Fin classSizes.length

def classSize (c : Class) : Nat := classSizes.get c

def maxClassSize : Nat := classSizes.getLastD 0

def null : Nat := 0

/-- `Layout`: a size in bytes and a power of two, the size rounded up to it within `isize`. -/
structure Layout where
  size : Nat
  shift : Nat
  pos : 0 < size
  fits : nextMultipleOf size (2 ^ shift) < 2 ^ 63

def Layout.align (layout : Layout) : Nat := 2 ^ layout.shift

/-- `class_for`: the alignment folds into the size. -/
def Layout.classFor (layout : Layout) : Option Class :=
  let need := max layout.size layout.align
  if maxClassSize < need then none else classSizes.findFinIdx? fun s => decide (need ≤ s)

/-- `order_for`: the smallest order whose block holds `count` frames. -/
def orderFor (count : Nat) : Nat := if count ≤ 1 then 0 else (count - 1).log2 + 1

/-- The order of the run behind a large request. -/
def Layout.order (layout : Layout) : Nat := orderFor (divCeil layout.size pageSize)

/-- `PAGE_SIZE << order`. -/
def runBytes (order : Nat) : Nat := pageSize * 2 ^ order

def asPtr (ppn : Nat) : Nat := (baseAddr ppn + virtOffset) % 2 ^ 64

/-- The link in the first word of a block, read through the direct map. -/
def link (m : Mem) (p : Nat) : Nat := read64 m (p - virtOffset)

def setLink (m : Mem) (p next : Nat) : Mem := write64 m (p - virtOffset) next

/-- A frame that `refill` has cut into blocks of one class. -/
structure Slab where
  ppn : Nat
  cls : Class

/-- What `alloc_frames` has handed to each path and `free_frames` has not taken back. -/
structure Ledger where
  slabs : Multiset Slab
  runs : Multiset Frame

/-- `HeapInner` over the memory it manages. The code does not read the ledger. -/
structure Heap where
  phys : State
  free : Class → Nat
  allocated : Nat
  reserved : Nat
  ledger : Ledger

namespace Heap

def new (phys : State) : Heap := ⟨phys, fun _ => null, 0, 0, ⟨0, 0⟩⟩

/-- `for i in (0..count).rev()`: each block gets the head so far and becomes the head. -/
def threadBlocks (base size : Nat) : Nat → Mem → Nat → Mem × Nat
  | 0, m, head => (m, head)
  | i + 1, m, head =>
    let block := base + i * size
    threadBlocks base size i (setLink m block head) block

def refill (h : Heap) (c : Class) : Option (Bool × Heap) :=
  match h.phys.allocOrder 0 with
  | (none, phys) => some (false, { h with phys })
  | (some f, phys) => do
    let reserved ← add 64 h.reserved pageSize
    let (mem, head) := threadBlocks (asPtr f.ppn) (classSize c) (pageSize / classSize c) phys.mem
      (h.free c)
    some (true, { h with
      phys := { phys with mem }
      free := Function.update h.free c head
      reserved
      ledger := { h.ledger with slabs := ⟨f.ppn, c⟩ ::ₘ h.ledger.slabs } })

/-- The end of `alloc`: unlink the head of the class's list. -/
def takeHead (h : Heap) (c : Class) : Option (Nat × Heap) := do
  let block := h.free c
  let free := Function.update h.free c (link h.phys.mem block)
  let allocated ← add 64 h.allocated (classSize c)
  some (block, { h with free, allocated })

def allocLarge (h : Heap) (layout : Layout) : Option (Nat × Heap) :=
  if pageSize < layout.align then some (null, h)
  else
    match h.phys.allocOrder layout.order with
    | (none, phys) => some (null, { h with phys })
    | (some f, phys) => do
      let allocated ← add 64 h.allocated (runBytes layout.order)
      let reserved ← add 64 h.reserved (runBytes layout.order)
      let ledger := { h.ledger with runs := f ::ₘ h.ledger.runs }
      some (asPtr f.ppn, { h with phys, allocated, reserved, ledger })

def alloc (h : Heap) (layout : Layout) : Option (Nat × Heap) :=
  match layout.classFor with
  | none => h.allocLarge layout
  | some c =>
    if h.free c = null then do
      let (filled, h) ← h.refill c
      if filled then h.takeHead c else some (null, h)
    else h.takeHead c

def dealloc (h : Heap) (ptr : Nat) (layout : Layout) : Option Heap :=
  match layout.classFor with
  | none => do
    let allocated ← sub h.allocated (runBytes layout.order)
    let reserved ← sub h.reserved (runBytes layout.order)
    let ppn := pageNum (← sub ptr virtOffset)
    let phys ← h.phys.free ppn layout.order
    let ledger := { h.ledger with runs := h.ledger.runs.erase ⟨ppn, layout.order⟩ }
    some { h with phys, allocated, reserved, ledger }
  | some c => do
    let phys := { h.phys with mem := setLink h.phys.mem ptr (h.free c) }
    let allocated ← sub h.allocated (classSize c)
    some { h with phys, free := Function.update h.free c ptr, allocated }

def stats (h : Heap) : Nat × Nat := (h.allocated, h.reserved)

end Heap

/-! ## Classes and orders -/

theorem classSize_cases (c : Class) : ∃ k, 3 ≤ k ∧ k ≤ 11 ∧ classSize c = 2 ^ k := by
  refine ⟨c.val + 3, by omega, ?_, ?_⟩
  · have := c.isLt
    simp only [classSizes, List.length_cons, List.length_nil] at this
    omega
  · revert c
    decide

theorem classSize_injective {c d : Class} (h : classSize c = classSize d) : c = d := by
  revert c d
  decide

theorem classSize_dvd_page (c : Class) : classSize c ∣ pageSize := by
  obtain ⟨k, -, hk, h⟩ := classSize_cases c
  rw [h, show pageSize = 2 ^ 12 from rfl]
  exact Nat.pow_dvd_pow 2 (by omega)

theorem classSize_bounds (c : Class) : 8 ≤ classSize c ∧ classSize c ≤ 2048 := by
  obtain ⟨k, lo, hi, h⟩ := classSize_cases c
  rw [h]
  exact ⟨Nat.pow_le_pow_right (show 0 < 2 by decide) lo,
    Nat.pow_le_pow_right (show 0 < 2 by decide) hi⟩

/-- A block of the class is large enough, and aligned to its size it is aligned enough. -/
theorem Layout.classFor_some {layout : Layout} {c : Class} (h : layout.classFor = some c) :
    layout.size ≤ classSize c ∧ layout.align ∣ classSize c := by
  simp only [classFor] at h
  split at h
  · cases h
  have need : max layout.size layout.align ≤ classSize c := by
    have := (List.findFinIdx?_eq_some_iff.mp h).1
    simpa [classSize] using this
  obtain ⟨k, -, -, hk⟩ := classSize_cases c
  rw [hk] at need ⊢
  refine ⟨by omega, Nat.pow_dvd_pow 2 ?_⟩
  exact (Nat.pow_le_pow_iff_right (by decide)).mp (Nat.le_trans (Nat.le_max_right _ _) need)

theorem le_orderFor (count : Nat) : count ≤ 2 ^ orderFor count := by
  simp only [orderFor]
  split
  · omega
  · have := Nat.lt_log2_self (n := count - 1)
    omega

theorem Layout.size_le_run (layout : Layout) : layout.size ≤ runBytes layout.order := by
  have hpages := divCeil_mul_ge (a := layout.size) (b := pageSize) (by decide)
  have := Nat.mul_le_mul_right pageSize (le_orderFor (divCeil layout.size pageSize))
  rw [runBytes, Nat.mul_comm, order]
  omega

theorem asPtr_eq {ppn : Nat} (h : ppn < 2 ^ 26) : asPtr ppn = baseAddr ppn + virtOffset := by
  rw [asPtr, Nat.mod_eq_of_lt]
  simp only [baseAddr, pageSize, virtOffset]
  omega

/-! ## Links -/

section
variable {m m' : Mem} {p q v : Nat}

theorem ne_null (h : virtOffset ≤ p) : p ≠ null := by
  rintro rfl
  exact absurd h (by decide)

theorem link_congr (hp : virtOffset ≤ p)
    (h : ∀ a, p ≤ a + virtOffset → a + virtOffset < p + 8 → m' a = m a) : link m' p = link m p :=
  read64_congr fun a lo hi => h a (by omega) (by omega)

theorem link_setLink (m : Mem) (hv : v < 2 ^ 64) : link (setLink m p v) p = v :=
  read64_write64_same m hv

theorem setLink_apart (m : Mem) (v : Nat) {a : Nat} (hp : virtOffset ≤ p)
    (h : a + virtOffset < p ∨ p + 8 ≤ a + virtOffset) : setLink m p v a = m a :=
  write64_apart m v (by omega)

theorem link_setLink_apart (m : Mem) (v : Nat) (hp : virtOffset ≤ p) (hq : virtOffset ≤ q)
    (h : p + 8 ≤ q ∨ q + 8 ≤ p) : link (setLink m p v) q = link m q :=
  link_congr hq fun _ lo hi => setLink_apart m v hp (by omega)

end

/-- The blocks of a frame that is being cut up, lowest first. -/
def blocks (base size n : Nat) : List Nat := (List.range n).map fun i => base + i * size

theorem blocks_succ (base size n : Nat) :
    blocks base size (n + 1) = blocks base size n ++ [base + n * size] := by
  simp [blocks, List.range_succ]

open Thread in
/-- The loop of `refill` puts the blocks in front of the list, in ascending order, and writes
nothing outside them. -/
theorem threadBlocks_spec {base size n head : Nat} {m : Mem} {xs : List Nat} (hsize : 8 ≤ size)
    (hbase : virtOffset ≤ base) (htop : base + n * size ≤ 2 ^ 64) (hhead : head < 2 ^ 64)
    (thread : Threaded (link m) null head xs)
    (clear : ∀ y ∈ xs, virtOffset ≤ y ∧ (y + 8 ≤ base ∨ base + n * size ≤ y)) :
    Threaded (link (Heap.threadBlocks base size n m head).1) null
        (Heap.threadBlocks base size n m head).2 (blocks base size n ++ xs) ∧
      ∀ a, a + virtOffset < base ∨ base + n * size ≤ a + virtOffset →
        (Heap.threadBlocks base size n m head).1 a = m a := by
  induction n generalizing m head xs with
  | zero => exact ⟨thread, fun _ _ => rfl⟩
  | succ i ih =>
    rw [Nat.add_mul, Nat.one_mul] at htop clear ⊢
    have hblock : virtOffset ≤ base + i * size := by omega
    have pushed : Threaded (link (setLink m (base + i * size) head)) null (base + i * size)
        ((base + i * size) :: xs) := by
      refine thread.push (ne_null hblock) (link_setLink m hhead) fun y hy => ?_
      have := clear y hy
      exact link_setLink_apart m head hblock this.1 (by omega)
    obtain ⟨done, same⟩ := ih (by omega) (by omega) pushed (fun y hy => by
      rcases List.mem_cons.mp hy with rfl | hy
      · omega
      · have := clear y hy
        omega)
    refine ⟨?_, fun a ha => ?_⟩
    · rw [blocks_succ, List.append_assoc]
      exact done
    · refine (same a (by omega)).trans (setLink_apart m head hblock ?_)
      omega

end AlexOS.KernelHeap
