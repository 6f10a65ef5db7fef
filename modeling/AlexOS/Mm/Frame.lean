import AlexOS.Mm.Addr
import Mathlib.Logic.Function.Basic

/-!
# The buddy allocator

`kernel/src/mm/frame.rs`. The list nodes and the bitmap live in the memory the
allocator manages, so the state is the allocator's record together with
physical memory. `none` is a panic.
-/

namespace AlexOS

open Bytes

/-- Physical memory with the record of the allocator that hands it out. -/
structure Phys (σ : Type) where
  mem : Mem
  pool : σ

/-- An owned run of `2 ^ order` frames. -/
structure Frame where
  ppn : Nat
  order : Nat
deriving DecidableEq, Repr

def Frame.count (f : Frame) : Nat := 2 ^ f.order

namespace Buddy

def maxOrder : Nat := 10

/-- `usize::MAX`. -/
@[irreducible] def nil : Nat := 2 ^ 64 - 1

structure BuddyAllocator where
  base : Nat
  frames : Nat
  freeLists : Nat → Nat
  bitmap : Nat
  orderBitBase : Nat → Nat
  allocated : Nat
  peak : Nat

abbrev State := Phys BuddyAllocator

namespace State

/-! ## Bitmap -/

def bitIndex (s : State) (order idx : Nat) : Nat := s.pool.orderBitBase order + idx / 2 ^ order

def isFree (s : State) (order idx : Nat) : Bool :=
  bitAt s.mem s.pool.bitmap (s.bitIndex order idx)

def setFree (s : State) (order idx : Nat) (free : Bool) : State :=
  { s with mem := setBit s.mem s.pool.bitmap (s.bitIndex order idx) free }

/-! ## Intrusive lists -/

/-- Where the `FreeNode` of the block at `idx` lives. -/
def node (s : State) (idx : Nat) : Nat := baseAddr (s.pool.base + idx)

def next (s : State) (idx : Nat) : Nat := read64 s.mem (s.node idx)

def prev (s : State) (idx : Nat) : Nat := read64 s.mem (s.node idx + 8)

def setNext (s : State) (idx v : Nat) : State := { s with mem := write64 s.mem (s.node idx) v }

def setPrev (s : State) (idx v : Nat) : State := { s with mem := write64 s.mem (s.node idx + 8) v }

def setHead (s : State) (order v : Nat) : State :=
  { s with pool := { s.pool with freeLists := Function.update s.pool.freeLists order v } }

/-- The links `push` writes: the new node in front of the old head. -/
def linkFront (s : State) (order idx : Nat) : State :=
  let head := s.pool.freeLists order
  let s := (s.setNext idx head).setPrev idx nil
  if head = nil then s else s.setPrev head idx

def push (s : State) (order idx : Nat) : State :=
  ((s.linkFront order idx).setHead order idx).setFree order idx true

/-- The links `remove` writes: the two neighbours of the node joined. -/
def unlink (s : State) (order idx : Nat) : State :=
  let next := s.next idx
  let prev := s.prev idx
  let s := if prev = nil then s.setHead order next else s.setNext prev next
  if next = nil then s else s.setPrev next prev

def remove (s : State) (order idx : Nat) : State :=
  (s.unlink order idx).setFree order idx false

/-! ## Allocation -/

/-- `while donor <= MAX_ORDER && self.free_lists[donor] == NIL`. -/
def seekDonor (s : State) : Nat → Nat → Nat
  | 0, donor => donor
  | n + 1, donor =>
    if donor ≤ maxOrder ∧ s.pool.freeLists donor = nil then s.seekDonor n (donor + 1) else donor

/-- `while level > order`: keep the lower half, free the upper one. -/
def splitDown (s : State) (idx order : Nat) : Nat → State
  | 0 => s
  | level + 1 =>
    if order < level + 1 then (s.push level (idx + 2 ^ level)).splitDown idx order level else s

def account (s : State) (order : Nat) : State :=
  let allocated := s.pool.allocated + 2 ^ order
  { s with pool := { s.pool with allocated := allocated, peak := max s.pool.peak allocated } }

def alloc (s : State) (order : Nat) : Option Nat × State :=
  if maxOrder < order then (none, s)
  else
    let donor := s.seekDonor (maxOrder + 1) order
    if maxOrder < donor then (none, s)
    else
      let idx := s.pool.freeLists donor
      let s := (s.remove donor idx).splitDown idx order donor
      (some (s.pool.base + idx), s.account order)

/-- `while level < MAX_ORDER`: absorb the buddy while it is free at this order. -/
def mergeUp (s : State) : Nat → Nat → Nat → State × Nat × Nat
  | 0, idx, level => (s, idx, level)
  | n + 1, idx, level =>
    if level < maxOrder then
      let buddy := idx ^^^ 2 ^ level
      if s.pool.frames < buddy + 2 ^ level ∨ s.isFree level buddy = false then (s, idx, level)
      else (s.remove level buddy).mergeUp n (min idx buddy) (level + 1)
    else (s, idx, level)

def discount (s : State) (order : Nat) : State :=
  { s with pool := { s.pool with allocated := s.pool.allocated - 2 ^ order } }

/-- Each disjunct is one panic: an order past the tables, the two asserts, the
debug assert against a double free, the checked subtraction. -/
def free (s : State) (ppn order : Nat) : Option State :=
  if ppn < s.pool.base then none
  else
    let idx := ppn - s.pool.base
    if maxOrder < order ∨ s.pool.frames < idx + 2 ^ order ∨ idx &&& (2 ^ order - 1) ≠ 0 ∨
        s.isFree order idx = true ∨ s.pool.allocated < 2 ^ order then none
    else
      let (merged, idx, level) := (s.discount order).mergeUp maxOrder idx order
      some (State.push merged level idx)

/-- `Frame::alloc_order`: the run comes back zeroed. -/
def allocOrder (s : State) (order : Nat) : Option Frame × State :=
  match s.alloc order with
  | (none, s) => (none, s)
  | (some ppn, s) =>
    (some ⟨ppn, order⟩, { s with mem := fill s.mem (baseAddr ppn) (2 ^ order * pageSize) 0 })

/-! ## Initialisation -/

/-- The bits of all orders below `k`, one bit for each block of each order. -/
def bitsBelow (frames k : Nat) : Nat :=
  ((List.range k).map fun j => divCeil frames (2 ^ j)).sum

/-- `while order > 0 && ..`: the largest order that is aligned and fits. -/
def seedOrder (frames idx : Nat) : Nat → Nat
  | 0 => 0
  | order + 1 =>
    if idx &&& (2 ^ (order + 1) - 1) ≠ 0 ∨ frames < idx + 2 ^ (order + 1) then
      seedOrder frames idx order
    else order + 1

def seed (s : State) : Nat → Nat → State
  | 0, _ => s
  | n + 1, idx =>
    if idx < s.pool.frames then
      let order := seedOrder s.pool.frames idx maxOrder
      (s.push order idx).seed n (idx + 2 ^ order)
    else s

def bitmapFrames (total : Nat) : Nat :=
  divCeil (nextMultipleOf (divCeil (bitsBelow total (maxOrder + 1)) 8) 8) pageSize

/-- The allocator before seeding: bitmap cleared, every list empty. -/
def blank (mem : Mem) (first total aligned : Nat) : State :=
  let frames := total - (aligned - first)
  ⟨fill mem (baseAddr first) (bitmapFrames total * pageSize) 0, aligned, frames, fun _ => nil,
    baseAddr first, bitsBelow frames, 0, 0⟩

/-- `BuddyAllocator::init` over memory `mem`. The subtraction that gives
`frames` panics when the aligned base lies past the end of the range. -/
def init (mem : Mem) (start end_ : Usize) : Option State := do
  let first := pageNum (← alignUp start.val)
  let last := pageNum (alignDown end_.val)
  if last ≤ first then none
  else
    let total := last - first
    let aligned := nextMultipleOf (first + bitmapFrames total) (2 ^ maxOrder)
    if total < aligned - first then none
    else
      let s := blank mem first total aligned
      some (s.seed s.pool.frames 0)

end State

end Buddy

end AlexOS
