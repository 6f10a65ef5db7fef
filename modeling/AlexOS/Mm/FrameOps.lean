import AlexOS.Mm.FrameLists

/-!
# The allocator's operations on a represented state

`alloc` takes one block out of the free family, `free` puts one back, whatever
splitting and merging happens on the way, and `init` represents a family that
tiles the managed frames.
-/

namespace AlexOS.Buddy

open Bytes Chain Blocks State

/-- `b` differs from `a` in its list heads only. -/
def SameRegion (a b : BuddyAllocator) : Prop := b = { a with freeLists := b.freeLists }

theorem SameRegion.trans {a b c : BuddyAllocator} (h : SameRegion a b) (h' : SameRegion b c) :
    SameRegion a c := by
  unfold SameRegion at *
  rw [h', h]

theorem push_region (s : State) (k x : Nat) : SameRegion s.pool (s.push k x).pool := by
  rw [SameRegion, push_pool]

theorem remove_region (s : State) (k x : Nat) : SameRegion s.pool (s.remove k x).pool := by
  rw [SameRegion, remove_pool, unlink_pool]; split <;> rfl

theorem SameRegion.frames {a b : BuddyAllocator} (h : SameRegion a b) : b.frames = a.frames := by
  rw [h]

theorem SameRegion.base {a b : BuddyAllocator} (h : SameRegion a b) : b.base = a.base := by
  rw [h]

theorem SameRegion.allocated {a b : BuddyAllocator} (h : SameRegion a b) :
    b.allocated = a.allocated := by rw [h]

theorem SameRegion.bitmap {a b : BuddyAllocator} (h : SameRegion a b) : b.bitmap = a.bitmap := by
  rw [h]

section
variable {s : State} {L : Nat → List Nat}

/-! ## Splitting and merging -/

/-- The upper half of a block goes to the free family, the lower half stays held. -/
theorem Rep.split {idx level : Nat} (r : Rep s L) (b : Block s.pool.frames (level + 1) idx)
    (held : ∀ f, freeOver L f + cover (level + 1) idx f ≤ 1) :
    Block s.pool.frames level (idx + 2 ^ level) ∧ Block s.pool.frames level idx ∧
      Rep (s.push level (idx + 2 ^ level))
        (Function.update L level ((idx + 2 ^ level) :: L level)) ∧
      ∀ f, freeOver (Function.update L level ((idx + 2 ^ level) :: L level)) f =
        freeOver L f + cover level (idx + 2 ^ level) f := by
  have hpow : 2 ^ (level + 1) = 2 ^ level + 2 ^ level := by rw [Nat.pow_succ]; omega
  obtain ⟨hk, hdvd, hfit⟩ := b
  have half : 2 ^ level ∣ idx := Nat.dvd_trans ⟨2, Nat.pow_succ ..⟩ hdvd
  have upper : Block s.pool.frames level (idx + 2 ^ level) :=
    ⟨by omega, Nat.dvd_add half (Nat.dvd_refl _), by omega⟩
  refine ⟨upper, ⟨by omega, half, by omega⟩, r.push upper fun f => ?_,
    fun f => freeOver_push (by omega) _ f⟩
  have := held f
  rw [cover_succ] at this
  omega

/-- A block held by nobody splits down to `order` with its upper halves freed:
what was covered stays covered. -/
theorem splitDown_spec {idx order : Nat} (level : Nat) (hle : order ≤ level) (r : Rep s L)
    (b : Block s.pool.frames level idx) (held : ∀ f, freeOver L f + cover level idx f ≤ 1) :
    ∃ L', Rep (s.splitDown idx order level) L' ∧
      SameRegion s.pool (s.splitDown idx order level).pool ∧
      Untouched s (s.splitDown idx order level) (fun f => freeOver L f + cover level idx f) ∧
      ∀ f, freeOver L' f + cover order idx f = freeOver L f + cover level idx f := by
  induction level generalizing s L with
  | zero =>
    obtain rfl : order = 0 := by omega
    exact ⟨L, r, rfl, fun _ _ _ _ => rfl, fun _ => rfl⟩
  | succ level ih =>
    by_cases hlt : order < level + 1
    · obtain ⟨upper, lower, r', after⟩ := r.split b held
      obtain ⟨L', rep, region, kept, total⟩ := ih (by omega) r'
        (by rw [(push_region s level _).frames]; exact lower)
        (fun f => by have := held f; rw [cover_succ] at this; rw [after]; omega)
      simp only [splitDown, hlt, if_true]
      refine ⟨L', rep, (push_region s level _).trans region, ?_, fun f => ?_⟩
      · intro f a hf ha
        simp only [cover_succ] at hf
        have hfree : freeOver L f + cover level (idx + 2 ^ level) f = 0 := by omega
        have hsame := push_untouched r upper f a hfree ha
        rw [kept f a (by simp only [after]; omega)
          (by rw [(push_region s level _).base]; exact ha), hsame]
      · rw [total, after, cover_succ]
        omega
    · obtain rfl : order = level + 1 := by omega
      simp only [splitDown, Nat.lt_irrefl, if_false]
      exact ⟨L, r, rfl, fun _ _ _ _ => rfl, fun _ => rfl⟩

/-- A held block and its free buddy are the block one order up, held. -/
theorem Rep.merge {idx level : Nat} (r : Rep s L) (b : Block s.pool.frames level idx)
    (hlevel : level < maxOrder) (inside : (idx ^^^ 2 ^ level) + 2 ^ level ≤ s.pool.frames)
    (hfree : s.isFree level (idx ^^^ 2 ^ level) = true) :
    (idx ^^^ 2 ^ level) ∈ L level ∧
      Block s.pool.frames (level + 1) (min idx (idx ^^^ 2 ^ level)) ∧
      ∀ f, freeOver (Function.update L level ((L level).erase (idx ^^^ 2 ^ level))) f +
        cover (level + 1) (min idx (idx ^^^ 2 ^ level)) f = freeOver L f + cover level idx f := by
  obtain ⟨hdvd, hbuddy, hfit, hjoin⟩ := join b.2.1
  have bb : Block s.pool.frames level (idx ^^^ 2 ^ level) := ⟨b.1, hbuddy, inside⟩
  have listed : (idx ^^^ 2 ^ level) ∈ L level := by
    obtain ⟨i, hi, hbit⟩ := bb.hasBit
    rw [hi] at hfree ⊢
    exact (r.bits level i hbit).mp hfree
  refine ⟨listed, ⟨hlevel, hdvd, ?_⟩, fun f => ?_⟩
  · have := b.2.2
    omega
  · have := freeOver_erase b.1 listed f
    rw [hjoin]
    omega

/-- Merging trades a held block for a larger one and unlists what it absorbs. -/
theorem mergeUp_spec (n : Nat) {idx level : Nat} (r : Rep s L) (b : Block s.pool.frames level idx)
    (held : ∀ f, freeOver L f + cover level idx f ≤ 1) :
    ∃ L', Rep (s.mergeUp n idx level).1 L' ∧ SameRegion s.pool (s.mergeUp n idx level).1.pool ∧
      Untouched s (s.mergeUp n idx level).1 (freeOver L) ∧
      Block s.pool.frames (s.mergeUp n idx level).2.2 (s.mergeUp n idx level).2.1 ∧
      ∀ f, freeOver L' f + cover (s.mergeUp n idx level).2.2 (s.mergeUp n idx level).2.1 f =
        freeOver L f + cover level idx f := by
  induction n generalizing s L idx level with
  | zero => exact ⟨L, r, rfl, fun _ _ _ _ => rfl, b, fun _ => rfl⟩
  | succ n ih =>
    simp only [mergeUp]
    by_cases hlevel : level < maxOrder
    · by_cases stop : s.pool.frames < (idx ^^^ 2 ^ level) + 2 ^ level ∨
          s.isFree level (idx ^^^ 2 ^ level) = false
      · simp only [hlevel, stop, if_true]
        exact ⟨L, r, rfl, fun _ _ _ _ => rfl, b, fun _ => rfl⟩
      · simp only [hlevel, stop, if_true, if_false]
        obtain ⟨hin, hfree⟩ := not_or.mp stop
        obtain ⟨listed, bm, joined⟩ := r.merge b hlevel (Nat.not_lt.mp hin) (by simpa using hfree)
        have taken := fun f => freeOver_erase b.1 listed f
        have region := remove_region s level (idx ^^^ 2 ^ level)
        obtain ⟨L', rep, region', kept, block, total⟩ := ih (r.remove b.1 listed)
          (by rw [region.frames]; exact bm) fun f => by rw [joined]; exact held f
        refine ⟨L', rep, region.trans region', ?_, ?_, fun f => ?_⟩
        · exact (remove_untouched r b.1 listed).trans kept region.base
            fun f hf => by have := taken f; omega
        · rwa [region.frames] at block
        · rw [total, joined]
    · simp only [hlevel, if_false]
      exact ⟨L, r, rfl, fun _ _ _ _ => rfl, b, fun _ => rfl⟩

/-! ## alloc and free -/

/-- The counters are no part of what is represented. -/
theorem Rep.account (r : Rep s L) (order : Nat) : Rep (s.account order) L :=
  ⟨⟨r.geometry.bitBase, r.geometry.bitmapBelow, r.geometry.top, r.geometry.baseAligned⟩,
    r.linked, r.bits, r.blocks, r.apart⟩

theorem Rep.discount (r : Rep s L) (order : Nat) : Rep (s.discount order) L :=
  ⟨⟨r.geometry.bitBase, r.geometry.bitmapBelow, r.geometry.top, r.geometry.baseAligned⟩,
    r.linked, r.bits, r.blocks, r.apart⟩

theorem seekDonor_spec (s : State) (n donor : Nat) (hn : maxOrder < donor + n) :
    donor ≤ s.seekDonor n donor ∧ (s.seekDonor n donor ≤ maxOrder →
      s.pool.freeLists (s.seekDonor n donor) ≠ nil) := by
  induction n generalizing donor with
  | zero => exact ⟨Nat.le_refl _, fun h => absurd h (by simp only [seekDonor]; omega)⟩
  | succ n ih =>
    simp only [seekDonor]
    split
    · obtain ⟨hle, hne⟩ := ih (donor + 1) (by omega)
      exact ⟨by omega, hne⟩
    · rename_i h
      exact ⟨Nat.le_refl _, fun hle e => h ⟨hle, e⟩⟩

/-- A donor is found no higher than the first list that has a block. -/
theorem seekDonor_le {k donor : Nat} (n : Nat)
    (hne : s.pool.freeLists k ≠ nil) (hle : donor ≤ k) : s.seekDonor n donor ≤ k := by
  induction n generalizing donor with
  | zero => exact hle
  | succ n ih =>
    simp only [seekDonor]
    split
    · rename_i h
      exact ih (Nat.lt_of_le_of_ne hle fun e => hne (e ▸ h.2))
    · exact hle

theorem Rep.alloc_of_listed (r : Rep s L) {order j x : Nat} (hle : order ≤ j) (hj : j ≤ maxOrder)
    (hx : x ∈ L j) : ∃ ppn s', s.alloc order = (some ppn, s') := by
  have hhead : s.pool.freeLists j ≠ nil := fun e =>
    List.ne_nil_of_mem hx ((r.linked j hj).eq_nil_iff.mp e)
  have hdonor := seekDonor_le (maxOrder + 1) hhead hle
  simp only [State.alloc, Nat.not_lt.mpr (Nat.le_trans hle hj), if_false,
    Nat.not_lt.mpr (Nat.le_trans hdonor hj)]
  exact ⟨_, _, rfl⟩

theorem alloc_spec (r : Rep s L) (order : Nat) :
    s.alloc order = (none, s) ∨
    ∃ idx s' L', s.alloc order = (some (s.pool.base + idx), s') ∧ Rep s' L' ∧
      Block s.pool.frames order idx ∧ s'.pool.base = s.pool.base ∧
      s'.pool.frames = s.pool.frames ∧ s'.pool.allocated = s.pool.allocated + 2 ^ order ∧
      Untouched s s' (freeOver L) ∧ ∀ f, freeOver L' f + cover order idx f = freeOver L f := by
  by_cases hbig : maxOrder < order
  · exact .inl (by simp [alloc, hbig])
  · obtain ⟨hle, hne⟩ := seekDonor_spec s (maxOrder + 1) order (by omega)
    by_cases hnone : maxOrder < s.seekDonor (maxOrder + 1) order
    · exact .inl (by simp [alloc, hbig, hnone])
    · right
      generalize hd : s.seekDonor (maxOrder + 1) order = donor at hle hne hnone
      have hk : donor ≤ maxOrder := by omega
      have listed := r.head_mem hk (hne hk)
      have taken := fun f => freeOver_erase hk listed f
      have b := r.blocks donor hk _ listed
      have region := remove_region s donor (s.pool.freeLists donor)
      obtain ⟨L', rep, region', kept, total⟩ := splitDown_spec donor hle (r.remove hk listed)
        (by rwa [region.frames]) (fun f => by have := taken f; have := r.apart f; omega)
      have same := region.trans region'
      have fit : 2 ^ order ∣ s.pool.freeLists donor ∧
          s.pool.freeLists donor + 2 ^ order ≤ s.pool.frames :=
        ⟨Nat.dvd_trans (Nat.pow_dvd_pow 2 hle) b.2.1,
          Nat.le_trans (Nat.add_le_add_left (Nat.pow_le_pow_right (by decide) hle) _) b.2.2⟩
      generalize hs : (s.remove donor (s.pool.freeLists donor)).splitDown
        (s.pool.freeLists donor) order donor = split at rep region' same kept
      refine ⟨s.pool.freeLists donor, split.account order, L', ?_, rep.account order,
        ⟨by omega, fit⟩, same.base, same.frames, congrArg (· + 2 ^ order) same.allocated,
        (remove_untouched r hk listed).trans (u := split) kept region.base ?_, fun f => ?_⟩
      · simp [alloc, hbig, hd, hnone, hs, same.base]
      · intro f hf; have := taken f; omega
      · rw [total]; exact taken f

theorem and_mask_eq_zero {k x : Nat} (h : 2 ^ k ∣ x) : x &&& (2 ^ k - 1) = 0 := by
  rw [Nat.and_two_pow_sub_one_eq_mod]
  exact Nat.mod_eq_zero_of_dvd h

theorem dvd_of_and_mask {k x : Nat} (h : x &&& (2 ^ k - 1) = 0) : 2 ^ k ∣ x := by
  rw [Nat.and_two_pow_sub_one_eq_mod] at h
  exact Nat.dvd_of_mod_eq_zero h

theorem free_spec (r : Rep s L) {idx order : Nat} (b : Block s.pool.frames order idx)
    (held : ∀ f, freeOver L f + cover order idx f ≤ 1) (count : 2 ^ order ≤ s.pool.allocated) :
    ∃ s' L', s.free (s.pool.base + idx) order = some s' ∧ Rep s' L' ∧
      s'.pool.base = s.pool.base ∧ s'.pool.frames = s.pool.frames ∧
      s'.pool.allocated = s.pool.allocated - 2 ^ order ∧
      Untouched s s' (fun f => freeOver L f + cover order idx f) ∧
      ∀ f, freeOver L' f = freeOver L f + cover order idx f := by
  have busy : s.isFree order idx = false := by
    obtain ⟨i, rfl, hbit⟩ := b.hasBit
    rw [Bool.eq_false_iff]
    exact fun h => not_listed held b.1 ((r.bits order i hbit).mp h)
  have rd := r.discount order
  obtain ⟨L', rep, region, kept, block, total⟩ := mergeUp_spec maxOrder rd b held
  generalize hm : (s.discount order).mergeUp maxOrder idx order = m at rep region kept block total
  have bm : Block m.1.pool.frames m.2.2 m.2.1 := by rw [region.frames]; exact block
  have fresh : ∀ f, freeOver L' f + cover m.2.2 m.2.1 f ≤ 1 := fun f => by rw [total]; exact held f
  have last := push_region m.1 m.2.2 m.2.1
  refine ⟨m.1.push m.2.2 m.2.1, _, ?_, rep.push bm fresh, ?_, ?_, ?_, ?_, fun f => ?_⟩
  · have hfit := b.2.2
    have hk := b.1
    have hrange : ¬ s.pool.base + idx < s.pool.base := by omega
    have hsub : s.pool.base + idx - s.pool.base = idx := by omega
    simp only [free, hrange, if_false, hsub, and_mask_eq_zero b.2.1, busy, hm]
    rw [if_neg (by simp; omega)]
  · rw [last.base, region.base]; rfl
  · rw [last.frames, region.frames]; rfl
  · rw [last.allocated, region.allocated]; rfl
  · intro f a hf ha
    have hkept := kept f a (Nat.eq_zero_of_add_eq_zero_right hf) ha
    rw [push_untouched rep bm f a ((total f).trans hf) (by rw [region.base]; exact ha), hkept]
    rfl
  · rw [freeOver_push bm.1]
    exact total f

/-! ## init -/

theorem seedOrder_spec {frames idx : Nat} (h : idx < frames) (n : Nat) :
    seedOrder frames idx n ≤ n ∧ 2 ^ seedOrder frames idx n ∣ idx ∧
      idx + 2 ^ seedOrder frames idx n ≤ frames := by
  induction n with
  | zero => exact ⟨Nat.le_refl _, Nat.one_dvd _, h⟩
  | succ n ih =>
    simp only [seedOrder]
    split
    · exact ⟨by omega, ih.2⟩
    · rename_i hfit
      obtain ⟨hmask, hle⟩ := not_or.mp hfit
      exact ⟨Nat.le_refl _, dvd_of_and_mask (not_not.mp hmask), by omega⟩

/-- Seeding has tiled everything below `idx` and nothing above it. -/
theorem seed_spec (n idx : Nat) (r : Rep s L) (hle : idx ≤ s.pool.frames)
    (hn : s.pool.frames ≤ idx + n) (tiled : ∀ f, freeOver L f = if f < idx then 1 else 0) :
    ∃ L', Rep (s.seed n idx) L' ∧ SameRegion s.pool (s.seed n idx).pool ∧
      ∀ f, freeOver L' f = if f < s.pool.frames then 1 else 0 := by
  induction n generalizing s L idx with
  | zero =>
    obtain rfl : idx = s.pool.frames := by omega
    exact ⟨L, r, rfl, tiled⟩
  | succ n ih =>
    by_cases hlt : idx < s.pool.frames
    · simp only [seed, hlt, if_true]
      obtain ⟨hk, hdvd, hfit⟩ := seedOrder_spec hlt maxOrder
      generalize seedOrder s.pool.frames idx maxOrder = k at hk hdvd hfit
      have hpos := Nat.two_pow_pos k
      have region := push_region s k idx
      have fresh : ∀ f, freeOver L f + cover k idx f ≤ 1 := by
        intro f
        rw [tiled, cover]
        split <;> split <;> omega
      obtain ⟨L', rep, region', total⟩ := ih (idx + 2 ^ k) (r.push ⟨hk, hdvd, hfit⟩ fresh)
        (by rw [region.frames]; exact hfit) (by rw [region.frames]; omega) (fun f => by
          rw [freeOver_push hk, tiled, cover]
          split <;> split <;> split <;> omega)
      refine ⟨L', rep, region.trans region', ?_⟩
      simpa only [region.frames] using total
    · obtain rfl : idx = s.pool.frames := by omega
      simp only [seed, Nat.lt_irrefl, if_false]
      exact ⟨L, r, rfl, tiled⟩

end

theorem bitsBelow_le {a b : Nat} (h : a ≤ b) (k : Nat) : bitsBelow a k ≤ bitsBelow b k := by
  induction k with
  | zero => exact Nat.le_refl _
  | succ k ih =>
    rw [bitsBelow_succ, bitsBelow_succ]
    exact Nat.add_le_add ih (divCeil_mono _ h)

/-- The zeroed frames hold every bit, sized before the base is aligned. -/
theorem bitmap_fits (total : Nat) :
    8 * divCeil (bitsBelow total (maxOrder + 1)) 64 ≤ bitmapFrames total * pageSize := by
  simp only [bitmapFrames, nextMultipleOf, divCeil, pageSize]
  omega

section
variable {first total aligned : Nat}

theorem blank_geometry (mem : Mem) (hbase : first + bitmapFrames total ≤ aligned)
    (hroom : aligned ≤ first + total) (htop : baseAddr (first + total) ≤ 2 ^ 64)
    (halign : 2 ^ maxOrder ∣ aligned) : Geometry (blank mem first total aligned).pool := by
  have hfits := bitmap_fits total
  have hbits := divCeil_mono 64 (bitsBelow_le (a := total - (aligned - first)) (b := total)
    (Nat.sub_le _ _) (maxOrder + 1))
  refine ⟨rfl, ?_, ?_, halign⟩
  · calc baseAddr first + 8 * divCeil (bitsBelow (total - (aligned - first)) (maxOrder + 1)) 64
        ≤ baseAddr first + bitmapFrames total * pageSize := by omega
      _ = baseAddr (first + bitmapFrames total) := (Nat.add_mul ..).symm
      _ ≤ baseAddr aligned := Nat.mul_le_mul_right _ hbase
  · have : aligned + (total - (aligned - first)) ≤ first + total := by omega
    exact Nat.le_trans (Nat.mul_le_mul_right _ this) htop

theorem blank_isFree (mem : Mem) (g : Geometry (blank mem first total aligned).pool) {k i : Nat}
    (h : HasBit (blank mem first total aligned).pool.frames k i) :
    (blank mem first total aligned).isFree k (i * 2 ^ k) = false := by
  have hfits := bitmap_fits total
  have hlt := Nat.lt_of_lt_of_le (bit_lt h) (bitsBelow_le (b := total) (Nat.sub_le _ _) _)
  rw [isFree, bitAt, bitIndex_eq g]
  generalize bitsBelow (blank mem first total aligned).pool.frames k + i = bit at hlt
  have hword : 8 * (bit / 64) + 8 ≤ bitmapFrames total * pageSize := by
    simp only [divCeil] at hfits
    omega
  have hzero : read64 (blank mem first total aligned).mem
      ((blank mem first total aligned).pool.bitmap + 8 * (bit / 64)) = 0 := by
    apply readLE_zero
    intro x lo hi
    simp only [blank, fill] at *
    exact if_pos ⟨by omega, by omega⟩
  rw [hzero, Nat.zero_testBit]

theorem blank_rep (mem : Mem) (g : Geometry (blank mem first total aligned).pool) :
    Rep (blank mem first total aligned) fun _ => [] :=
  ⟨g, fun _ _ => rfl, fun k i hbit => by simp [blank_isFree mem g hbit], by simp,
    by simp [freeOver, coverage, blocksOver]⟩

end

theorem init_alignUp {mem : Mem} {start end_ : Usize} {s : State}
    (h : init mem start end_ = some s) : ∃ up, alignUp start.val = some up := by
  simp only [init, Option.bind_eq_bind, Option.bind_eq_some_iff] at h
  exact ⟨_, h.choose_spec.1⟩

/-- `init` panics only on a range it cannot round, an empty one, or one whose
aligned base lies past the end. -/
theorem init_isSome (mem : Mem) {start end_ : Usize} {up : Nat}
    (hup : alignUp start.val = some up) (range : pageNum up < pageNum (alignDown end_.val))
    (room : nextMultipleOf (pageNum up + bitmapFrames (pageNum (alignDown end_.val) - pageNum up))
      (2 ^ maxOrder) ≤ pageNum (alignDown end_.val)) : ∃ s, init mem start end_ = some s := by
  simp only [init, hup, Option.bind_eq_bind, Option.bind_some]
  rw [if_neg (by omega), if_neg (by omega)]
  exact ⟨_, rfl⟩

/-- The pool `init` sets up before it frees the first block. -/
theorem init_seed {mem : Mem} {start end_ : Usize} {s : State} {up : Nat}
    (hup : alignUp start.val = some up) (h : init mem start end_ = some s) :
    ∃ b : State, s = b.seed b.pool.frames 0 ∧ Rep b (fun _ => []) ∧ b.pool.allocated = 0 ∧
      b.pool.base = nextMultipleOf (pageNum up +
        bitmapFrames (pageNum (alignDown end_.val) - pageNum up)) (2 ^ maxOrder) ∧
      b.pool.base + b.pool.frames = pageNum (alignDown end_.val) := by
  simp only [init, hup, Option.bind_eq_bind, Option.bind_some] at h
  generalize pageNum up = first at h
  have hend : baseAddr (pageNum (alignDown end_.val)) ≤ 2 ^ 64 := by
    have := end_.isLt
    simp only [baseAddr, pageNum, alignDown, pageSize]
    omega
  generalize pageNum (alignDown end_.val) = last at h hend
  split at h
  · cases h
  split at h
  · cases h
  rename_i hrange hroom
  obtain rfl := Option.some.inj h
  have hbase : first + bitmapFrames (last - first) ≤
      nextMultipleOf (first + bitmapFrames (last - first)) (2 ^ maxOrder) :=
    divCeil_mul_ge (by decide)
  generalize haligned : nextMultipleOf (first + bitmapFrames (last - first)) (2 ^ maxOrder) =
    aligned at h hroom hbase
  have g := blank_geometry mem hbase (by omega)
    (by rwa [show first + (last - first) = last by omega])
    ⟨_, by rw [← haligned, nextMultipleOf, Nat.mul_comm]⟩
  refine ⟨_, rfl, blank_rep mem g, rfl, rfl, ?_⟩
  simp only [blank]
  omega

theorem init_spec {mem : Mem} {start end_ : Usize} {s : State} {up : Nat}
    (hup : alignUp start.val = some up) (h : init mem start end_ = some s) :
    ∃ L, Rep s L ∧ s.pool.allocated = 0 ∧
      s.pool.base = nextMultipleOf (pageNum up +
        bitmapFrames (pageNum (alignDown end_.val) - pageNum up)) (2 ^ maxOrder) ∧
      s.pool.base + s.pool.frames = pageNum (alignDown end_.val) ∧
      ∀ f, freeOver L f = if f < s.pool.frames then 1 else 0 := by
  obtain ⟨b, rfl, rep₀, hcount, hbase, htop⟩ := init_seed hup h
  obtain ⟨L, rep, region, tiled⟩ := seed_spec _ 0 rep₀ (Nat.zero_le _)
    (Nat.le_add_left _ _) (by simp [freeOver, coverage, blocksOver])
  rw [region.base, region.frames, region.allocated]
  exact ⟨L, rep, hcount, hbase, htop, tiled⟩

/-! ## The bitmap stays where it is -/

theorem splitDown_region (s : State) (idx order level : Nat) :
    SameRegion s.pool (s.splitDown idx order level).pool := by
  induction level generalizing s with
  | zero => rfl
  | succ level ih =>
    rw [splitDown]
    split
    · exact (push_region s _ _).trans (ih _)
    · rfl

theorem seed_region (s : State) (n idx : Nat) : SameRegion s.pool (s.seed n idx).pool := by
  induction n generalizing s idx with
  | zero => rfl
  | succ n ih =>
    rw [seed]
    split
    · exact (push_region s _ _).trans (ih _ _)
    · rfl

theorem alloc_bitmap (s : State) (order : Nat) : (s.alloc order).2.pool.bitmap = s.pool.bitmap := by
  have region := fun donor => (remove_region s donor (s.pool.freeLists donor)).trans
    (splitDown_region _ (s.pool.freeLists donor) order donor)
  rw [alloc]
  split
  · rfl
  simp only
  split
  · rfl
  · exact (region _).bitmap

theorem allocOrder_bitmap {s s' : State} {order : Nat} {f : Option Frame}
    (h : s.allocOrder order = (f, s')) : s'.pool.bitmap = s.pool.bitmap := by
  have hbitmap := alloc_bitmap s order
  rw [allocOrder] at h
  rcases halloc : s.alloc order with ⟨_ | ppn, s₁⟩
  all_goals
    simp only [halloc, Prod.mk.injEq] at h hbitmap
    rw [← h.2, ← hbitmap]

theorem splitDown_head (s : State) (x : Nat) {level : Nat} (hlevel : 0 < level) :
    (s.splitDown x 0 level).pool.freeLists 0 = x + 1 := by
  induction level generalizing s with
  | zero => cases hlevel
  | succ level ih =>
    rw [splitDown, if_pos hlevel]
    rcases Nat.eq_zero_or_pos level with rfl | hpos
    · rw [splitDown, push_pool]
      simp
    · exact ih _ hpos

/-- A single frame is cut from the front of the smallest block listed first. -/
theorem alloc_from {s : State} {d x : Nat} (hd : d ≤ maxOrder)
    (below : ∀ j < d, s.pool.freeLists j = nil) (head : s.pool.freeLists d = x) (hx : x ≠ nil) :
    ∃ s', s.allocOrder 0 = (some ⟨s.pool.base + x, 0⟩, s') ∧ s'.pool.base = s.pool.base ∧
      (0 < d → s'.pool.freeLists 0 = x + 1) := by
  have hdonor : s.seekDonor (maxOrder + 1) 0 = d := by
    have hle := seekDonor_le (s := s) (maxOrder + 1) (by rwa [head]) (Nat.zero_le d)
    obtain ⟨-, hne⟩ := seekDonor_spec s (maxOrder + 1) 0 (by omega)
    by_contra hd'
    exact hne (by omega) (below _ (by omega))
  have region := (remove_region s d x).trans (splitDown_region (s.remove d x) x 0 d)
  simp only [allocOrder, alloc, hdonor, head, region.base, Nat.not_lt_zero,
    Nat.not_lt.mpr hd, if_false]
  exact ⟨_, rfl, region.base, fun hpos => splitDown_head _ x hpos⟩

/-- Next to a buddy that is held or missing nothing is merged. -/
theorem free_alone {s s' : State} {x : Nat}
    (busy : s.pool.frames < (x ^^^ 1) + 1 ∨ s.isFree 0 (x ^^^ 1) = false)
    (heq : s.free (s.pool.base + x) 0 = some s') : s' = State.push (s.discount 0) 0 x := by
  have hmerge : (s.discount 0).mergeUp maxOrder x 0 = (s.discount 0, x, 0) := by
    have : (s.discount 0).pool.frames < (x ^^^ 2 ^ 0) + 2 ^ 0 ∨
        (s.discount 0).isFree 0 (x ^^^ 2 ^ 0) = false := busy
    rw [maxOrder, mergeUp, if_pos (by decide), if_pos this]
  rw [free, if_neg (by omega), Nat.add_sub_cancel_left] at heq
  simp only [hmerge] at heq
  split at heq
  · cases heq
  · exact (Option.some.inj heq).symm

/-- A frame given back next to a held buddy is listed first. -/
theorem free_head {s s' : State} {x : Nat} (busy : s.isFree 0 (x ^^^ 1) = false)
    (heq : s.free (s.pool.base + x) 0 = some s') :
    s'.pool.freeLists 0 = x ∧ s'.pool.base = s.pool.base := by
  rw [free_alone (.inr busy) heq, push_pool]
  exact ⟨by simp, rfl⟩

theorem init_bitmap {mem : Mem} {start end_ : Usize} {s : State} {up : Nat}
    (hup : alignUp start.val = some up) (h : init mem start end_ = some s) :
    s.pool.bitmap = baseAddr (pageNum up) := by
  simp only [init, hup, Option.bind_eq_bind, Option.bind_some] at h
  split at h
  · cases h
  split at h
  · cases h
  obtain rfl := Option.some.inj h
  exact (seed_region _ _ _).bitmap

end AlexOS.Buddy
