import AlexOS.Mm.FrameRun

/-!
# The bitmap of the buddy allocator

The bitmap is sized from the frames of the whole range, its orders are laid out for
the frames that are left, and the blocks that may have a bit are the aligned ones that
lie inside. Every such block has a bit of its own in the words that `init` cleared.
The operations are written once more with a check at each use of a block: with
`is_free`, `set_free`, `push` and `remove` refusing any other block, nothing changes.
-/

namespace AlexOS.Buddy

open Bytes State

instance (frames k x : Nat) : Decidable (Block frames k x) :=
  inferInstanceAs (Decidable (k ≤ maxOrder ∧ 2 ^ k ∣ x ∧ x + 2 ^ k ≤ frames))

namespace State

/-! ## The operations, refusing other blocks -/

def isFreeIn (s : State) (order idx : Nat) : Option Bool :=
  if Block s.pool.frames order idx then some (s.isFree order idx) else none

def setFreeIn (s : State) (order idx : Nat) (free : Bool) : Option State :=
  if Block s.pool.frames order idx then some (s.setFree order idx free) else none

def pushIn (s : State) (order idx : Nat) : Option State :=
  if Block s.pool.frames order idx then
    ((s.linkFront order idx).setHead order idx).setFreeIn order idx true
  else none

def removeIn (s : State) (order idx : Nat) : Option State :=
  if Block s.pool.frames order idx then (s.unlink order idx).setFreeIn order idx false else none

def splitDownIn (s : State) (idx order : Nat) : Nat → Option State
  | 0 => some s
  | level + 1 =>
    if order < level + 1 then do
      let s ← s.pushIn level (idx + 2 ^ level)
      s.splitDownIn idx order level
    else some s

def allocIn (s : State) (order : Nat) : Option (Option Nat × State) :=
  if maxOrder < order then some (none, s)
  else
    let donor := s.seekDonor (maxOrder + 1) order
    if maxOrder < donor then some (none, s)
    else do
      let idx := s.pool.freeLists donor
      let s ← s.removeIn donor idx
      let s ← s.splitDownIn idx order donor
      some (some (s.pool.base + idx), s.account order)

def mergeUpIn (s : State) : Nat → Nat → Nat → Option (State × Nat × Nat)
  | 0, idx, level => some (s, idx, level)
  | n + 1, idx, level =>
    if level < maxOrder then do
      let buddy := idx ^^^ 2 ^ level
      if s.pool.frames < buddy + 2 ^ level then some (s, idx, level)
      else
        let free ← s.isFreeIn level buddy
        if free = false then some (s, idx, level)
        else
          let s ← s.removeIn level buddy
          s.mergeUpIn n (min idx buddy) (level + 1)
    else some (s, idx, level)

/-- The inner `none` is a panic, as in `free`. -/
def freeIn (s : State) (ppn order : Nat) : Option (Option State) :=
  if ppn < s.pool.base then some none
  else
    let idx := ppn - s.pool.base
    if maxOrder < order ∨ s.pool.frames < idx + 2 ^ order ∨ idx &&& (2 ^ order - 1) ≠ 0 then
      some none
    else do
      let free ← s.isFreeIn order idx
      if free = true ∨ s.pool.allocated < 2 ^ order then some none
      else
        let (merged, idx, level) ← (s.discount order).mergeUpIn maxOrder idx order
        let s ← State.pushIn merged level idx
        some (some s)

def seedIn (s : State) : Nat → Nat → Option State
  | 0, _ => some s
  | n + 1, idx =>
    if idx < s.pool.frames then do
      let order := seedOrder s.pool.frames idx maxOrder
      let s ← s.pushIn order idx
      s.seedIn n (idx + 2 ^ order)
    else some s

def initIn (mem : Mem) (start end_ : Usize) : Option (Option State) :=
  match alignUp start.val with
  | none => some none
  | some up =>
    let first := pageNum up
    let last := pageNum (alignDown end_.val)
    if last ≤ first then some none
    else
      let total := last - first
      let aligned := nextMultipleOf (first + bitmapFrames total) (2 ^ maxOrder)
      if total < aligned - first then some none
      else do
        let s := blank mem first total aligned
        let s ← s.seedIn s.pool.frames 0
        some (some s)

end State

/-! ## No block is refused -/

section
variable {s : State} {k x : Nat}

theorem pushIn_eq (b : Block s.pool.frames k x) : s.pushIn k x = some (s.push k x) := by
  rw [pushIn, if_pos b, setFreeIn, if_pos (by simpa [State.setHead] using b)]
  rfl

theorem removeIn_eq (b : Block s.pool.frames k x) : s.removeIn k x = some (s.remove k x) := by
  rw [removeIn, if_pos b, setFreeIn, if_pos (by rwa [unlink_frames])]
  rfl

theorem Block.upper {frames level idx : Nat} (b : Block frames (level + 1) idx) :
    Block frames level idx ∧ Block frames level (idx + 2 ^ level) := by
  obtain ⟨hk, hdvd, hfit⟩ := b
  have half : 2 ^ level ∣ idx := Nat.dvd_trans ⟨2, Nat.pow_succ ..⟩ hdvd
  rw [Nat.pow_succ] at hfit
  exact ⟨⟨by omega, half, by omega⟩, by omega, Nat.dvd_add half (Nat.dvd_refl _), by omega⟩

theorem splitDownIn_eq {idx order : Nat} (level : Nat) (b : Block s.pool.frames level idx) :
    s.splitDownIn idx order level = some (s.splitDown idx order level) := by
  induction level generalizing s with
  | zero => rfl
  | succ level ih =>
    obtain ⟨lower, upper⟩ := b.upper
    rw [splitDownIn, splitDown]
    split
    · rw [pushIn_eq upper, Option.bind_eq_bind, Option.bind_some]
      apply ih
      rwa [(push_region s level _).frames]
    · rfl

/-- `alloc` takes the first block of a list, and what is listed is a block. -/
theorem allocIn_eq {L : Nat → List Nat} (r : Rep s L) (order : Nat) :
    s.allocIn order = some (s.alloc order) := by
  rw [allocIn, alloc]
  split
  · rfl
  obtain ⟨-, hne⟩ := seekDonor_spec s (maxOrder + 1) order (by omega)
  simp only
  split
  · rfl
  rename_i hdonor
  have hk : s.seekDonor (maxOrder + 1) order ≤ maxOrder := by omega
  have b := r.blocks _ hk _ (r.head_mem hk (hne hk))
  rw [removeIn_eq b, Option.bind_eq_bind, Option.bind_some, splitDownIn_eq _ (by
    rwa [(remove_region s _ _).frames]), Option.bind_some]

theorem mergeUpIn_eq (n : Nat) {idx level : Nat} (b : Block s.pool.frames level idx) :
    s.mergeUpIn n idx level = some (s.mergeUp n idx level) ∧
      Block s.pool.frames (s.mergeUp n idx level).2.2 (s.mergeUp n idx level).2.1 ∧
      (s.mergeUp n idx level).1.pool.frames = s.pool.frames := by
  induction n generalizing s idx level with
  | zero => exact ⟨rfl, b, rfl⟩
  | succ n ih =>
    rw [mergeUpIn, mergeUp]
    by_cases hlevel : level < maxOrder
    swap
    · rw [if_neg hlevel, if_neg hlevel]
      exact ⟨rfl, b, rfl⟩
    rw [if_pos hlevel, if_pos hlevel]
    simp only
    by_cases past : s.pool.frames < (idx ^^^ 2 ^ level) + 2 ^ level
    · rw [if_pos past, if_pos (.inl past)]
      exact ⟨rfl, b, rfl⟩
    obtain ⟨hdvd, hbuddy, hfit, -⟩ := Blocks.join b.2.1
    have bb : Block s.pool.frames level (idx ^^^ 2 ^ level) := ⟨b.1, hbuddy, by omega⟩
    rw [if_neg past, isFreeIn, if_pos bb, Option.bind_eq_bind, Option.bind_some]
    by_cases busy : s.isFree level (idx ^^^ 2 ^ level) = false
    · rw [if_pos busy, if_pos (.inr busy)]
      exact ⟨rfl, b, rfl⟩
    have region := (remove_region s level (idx ^^^ 2 ^ level)).frames
    have joined : Block (s.remove level (idx ^^^ 2 ^ level)).pool.frames (level + 1)
        (min idx (idx ^^^ 2 ^ level)) := by
      have := b.2.2
      refine ⟨hlevel, hdvd, ?_⟩
      rw [region]
      omega
    obtain ⟨same, block, frames⟩ := ih joined
    rw [if_neg busy, if_neg (not_or.mpr ⟨past, busy⟩), removeIn_eq bb,
      Option.bind_eq_bind, Option.bind_some]
    rw [region] at block frames
    exact ⟨same, block, frames⟩

/-- Whatever `free` is called with, it gets past its asserts only with a block. -/
theorem freeIn_eq (s : State) (ppn order : Nat) : s.freeIn ppn order = some (s.free ppn order) := by
  rw [freeIn, free]
  split
  · rfl
  simp only
  by_cases bad : maxOrder < order ∨ s.pool.frames < ppn - s.pool.base + 2 ^ order ∨
      (ppn - s.pool.base) &&& (2 ^ order - 1) ≠ 0
  · rw [if_pos bad, if_pos (by tauto)]
  obtain ⟨hk, hfit, hmask⟩ : order ≤ maxOrder ∧ ppn - s.pool.base + 2 ^ order ≤ s.pool.frames ∧
      (ppn - s.pool.base) &&& (2 ^ order - 1) = 0 := by
    simpa only [not_or, Nat.not_lt, ne_eq, not_not] using bad
  have b : Block s.pool.frames order (ppn - s.pool.base) := ⟨hk, dvd_of_and_mask hmask, hfit⟩
  rw [if_neg bad, isFreeIn, if_pos b, Option.bind_eq_bind, Option.bind_some]
  by_cases panics : s.isFree order (ppn - s.pool.base) = true ∨ s.pool.allocated < 2 ^ order
  · rw [if_pos panics, if_pos (by tauto)]
  obtain ⟨same, block, frames⟩ := mergeUpIn_eq (s := s.discount order) maxOrder b
  rw [if_neg panics, if_neg (by tauto), same, Option.bind_eq_bind, Option.bind_some]
  rw [← frames] at block
  rw [pushIn_eq block, Option.bind_eq_bind, Option.bind_some]

theorem seedIn_eq (n idx : Nat) : s.seedIn n idx = some (s.seed n idx) := by
  induction n generalizing s idx with
  | zero => rfl
  | succ n ih =>
    simp only [seedIn, seed]
    split
    · rename_i hidx
      have b : Block s.pool.frames (seedOrder s.pool.frames idx maxOrder) idx :=
        seedOrder_spec hidx maxOrder
      rewrite [pushIn_eq b, Option.bind_eq_bind, Option.bind_some]
      exact ih _
    · rfl

theorem initIn_eq (mem : Mem) {start : Usize} (end_ : Usize) {up : Nat}
    (hup : alignUp start.val = some up) :
    initIn mem start end_ = some (init mem start end_) := by
  unfold initIn init
  simp only [hup, Option.bind_eq_bind, Option.bind_some]
  generalize pageNum up = first
  generalize pageNum (alignDown end_.val) = last
  generalize nextMultipleOf (first + bitmapFrames (last - first)) (2 ^ maxOrder) = aligned
  by_cases hrange : last ≤ first
  · rw [if_pos hrange, if_pos hrange]
  by_cases hroom : last - first < aligned - first
  · rw [if_neg hrange, if_neg hrange, if_pos hroom, if_pos hroom]
  · rw [if_neg hrange, if_neg hrange, if_neg hroom, if_neg hroom, seedIn_eq, Option.bind_some]

end

/-! ## What no operation moves -/

/-- The region, its bitmap and the layout of the bits. -/
def Fixed (a b : BuddyAllocator) : Prop :=
  b.base = a.base ∧ b.frames = a.frames ∧ b.bitmap = a.bitmap ∧ b.orderBitBase = a.orderBitBase

theorem Fixed.trans {a b c : BuddyAllocator} (h : Fixed a b) (h' : Fixed b c) : Fixed a c :=
  ⟨h'.1.trans h.1, h'.2.1.trans h.2.1, h'.2.2.1.trans h.2.2.1, h'.2.2.2.trans h.2.2.2⟩

theorem SameRegion.fixed {a b : BuddyAllocator} (h : SameRegion a b) : Fixed a b := by
  rw [h]
  exact ⟨rfl, rfl, rfl, rfl⟩

theorem mergeUp_region (s : State) (n idx level : Nat) :
    SameRegion s.pool (s.mergeUp n idx level).1.pool := by
  induction n generalizing s idx level with
  | zero => rfl
  | succ n ih =>
    simp only [mergeUp]
    split
    · split
      · rfl
      · exact (remove_region s _ _).trans (ih _ _ _)
    · rfl

theorem alloc_fixed (s : State) (order : Nat) : Fixed s.pool (s.alloc order).2.pool := by
  simp only [alloc]
  split
  · exact ⟨rfl, rfl, rfl, rfl⟩
  split
  · exact ⟨rfl, rfl, rfl, rfl⟩
  · exact ((remove_region s _ _).trans (splitDown_region _ _ _ _)).fixed

theorem free_fixed {s s' : State} {ppn order : Nat} (h : s.free ppn order = some s') :
    Fixed s.pool s'.pool := by
  simp only [free] at h
  split at h
  · cases h
  split at h
  · cases h
  obtain rfl := Option.some.inj h
  exact ((mergeUp_region (s.discount order) _ _ _).trans (push_region _ _ _)).fixed

theorem Step.fixed {w w' : World} {op : Op} (hs : Step w op w') :
    Fixed w.state.pool w'.state.pool := by
  cases hs with
  | @alloc s _ _ order _ heq =>
    have := alloc_fixed s order
    rwa [heq] at this
  | @exhausted s _ _ order heq =>
    have := alloc_fixed s order
    rwa [heq] at this
  | free _ heq => exact free_fixed heq
  | write => exact ⟨rfl, rfl, rfl, rfl⟩

theorem reach_fixed {s₀ : State} {w : World} (h : Reach (system.startAt ⟨s₀, []⟩) w) :
    Fixed s₀.pool w.state.pool := by
  refine Reach.invariant (S := system.startAt ⟨s₀, []⟩) (fun w => Fixed s₀.pool w.state.pool) ?_
    (fun _ _ _ fixed hs => fixed.trans (Step.fixed hs)) h
  rintro w ⟨-, rfl⟩
  exact ⟨rfl, rfl, rfl, rfl⟩

/-! ## Every block has its bit -/

/-- Blocks of the same region have the same bit only if they are the same. -/
theorem bitIndex_injective {s : State} (g : Geometry s.pool) {j k x y : Nat}
    (bx : Block s.pool.frames k x) (hy : Block s.pool.frames j y)
    (h : s.bitIndex k x = s.bitIndex j y) : k = j ∧ x = y := by
  obtain ⟨i, rfl, hi⟩ := bx.hasBit
  obtain ⟨l, rfl, hl⟩ := hy.hasBit
  rw [bitIndex_eq g, bitIndex_eq g] at h
  obtain ⟨rfl, rfl⟩ := bit_injective hi hl h
  exact ⟨rfl, rfl⟩

/-- The word of a block's bit is one of those that a bitmap for `total` frames has. -/
theorem bitIndex_word {s : State} (g : Geometry s.pool) {k x total : Nat}
    (b : Block s.pool.frames k x) (hle : s.pool.frames ≤ total) :
    8 * (s.bitIndex k x / 64) + 8 ≤ bitmapFrames total * pageSize := by
  obtain ⟨i, rfl, hi⟩ := b.hasBit
  have hbit := bit_lt hi
  have hmore := bitsBelow_le hle (maxOrder + 1)
  have hfits := bitmap_fits total
  rw [divCeil] at hfits
  rw [bitIndex_eq g]
  omega

/-- After any calls, for every range that `init` accepts: the bits of the blocks are
distinct and in the words that `init` cleared, these lie below the managed frames, and
no call touches the bit of anything but a block. -/
theorem reach_bitmap {mem : Mem} {start end_ : Usize} {s₀ : State} {w : World}
    (hinit : init mem start end_ = some s₀) (h : Reach (system.startAt ⟨s₀, []⟩) w) :
    ∃ up, alignUp start.val = some up ∧
      w.state.pool.bitmap = baseAddr (pageNum up) ∧
      pageNum up + bitmapFrames (pageNum (alignDown end_.val) - pageNum up) ≤ w.state.pool.base ∧
      (∀ k x, Block w.state.pool.frames k x → 8 * (w.state.bitIndex k x / 64) + 8 ≤
        bitmapFrames (pageNum (alignDown end_.val) - pageNum up) * pageSize) ∧
      (∀ j k x y, Block w.state.pool.frames k x → Block w.state.pool.frames j y →
        w.state.bitIndex k x = w.state.bitIndex j y → k = j ∧ x = y) ∧
      initIn mem start end_ = some (some s₀) ∧
      (∀ order, w.state.allocIn order = some (w.state.alloc order)) ∧
      ∀ ppn order, w.state.freeIn ppn order = some (w.state.free ppn order) := by
  obtain ⟨up, hup⟩ := init_alignUp hinit
  obtain ⟨L₀, rep₀, -, hbase, hend, -⟩ := init_spec hup hinit
  obtain ⟨sameBase, sameFrames, sameBitmap, -⟩ := reach_fixed h
  have hreach : Reach system w := Reach.of_startAt h
  obtain ⟨L, inv⟩ := Reach.inv hreach
  have hfront : pageNum up + bitmapFrames (pageNum (alignDown end_.val) - pageNum up) ≤
      w.state.pool.base := by
    rw [sameBase, hbase]
    exact divCeil_mul_ge (by decide)
  refine ⟨up, hup, sameBitmap.trans (init_bitmap hup hinit), hfront, ?_, ?_, ?_, ?_, ?_⟩
  · intro k x b
    refine bitIndex_word inv.rep.geometry b ?_
    omega
  · intro j k x y bx hy heq
    exact bitIndex_injective inv.rep.geometry bx hy heq
  · rw [initIn_eq mem end_ hup, hinit]
  · exact allocIn_eq inv.rep
  · exact freeIn_eq w.state

/-- The region of the board, right after boot. -/
theorem bitmap_after_boot : ∃ s₀, init (fun _ => 0) 0x80400000 0x88000000 = some s₀ ∧
    (∀ order, s₀.allocIn order = some (s₀.alloc order)) ∧
      8 * (s₀.bitIndex 10 0 / 64) + 8 ≤ bitmapFrames 0x7c00 * pageSize := by
  obtain ⟨s₀, hinit, -, havail⟩ := boot
  have start : Reach (system.startAt ⟨s₀, []⟩) ⟨s₀, []⟩ := .init ⟨⟨⟨_, _, _, hinit⟩, rfl⟩, rfl⟩
  obtain ⟨up, hup, -, -, hword, -, -, halloc, -⟩ := reach_bitmap hinit start
  obtain rfl : 0x80400000 = up := Option.some.inj
    ((show alignUp _ = some 0x80400000 by decide).symm.trans hup)
  refine ⟨s₀, hinit, halloc, hword 10 0 ⟨by decide, Nat.dvd_zero _, ?_⟩⟩
  have hframes : 0x7800 ≤ s₀.pool.frames := havail ▸ Nat.sub_le ..
  exact Nat.le_trans (by decide) hframes

end AlexOS.Buddy
