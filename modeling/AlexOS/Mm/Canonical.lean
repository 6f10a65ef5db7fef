import AlexOS.Mm.Coalesce

/-!
# The free blocks are the largest ones

Splitting and merging leave no choice: in every state the free blocks are the
largest aligned blocks without an allocated frame. So the lists say no more
than which frames are allocated, and `alloc` fails only when no block of the
order is free.
-/

namespace AlexOS.Buddy

open Bytes Chain Blocks State

/-- The frame `i` of the region lies in a live block. -/
def World.Allocated (w : World) (i : Nat) : Prop :=
  ∃ f ∈ w.live, f.ppn ≤ w.state.pool.base + i ∧ w.state.pool.base + i < f.ppn + f.count

/-- An aligned block of the region with no allocated frame. -/
def World.Vacant (w : World) (k x : Nat) : Prop :=
  (k ≤ maxOrder ∧ 2 ^ k ∣ x ∧ x + 2 ^ k ≤ w.state.pool.frames) ∧
    ∀ i, x ≤ i → i < x + 2 ^ k → ¬ w.Allocated i

/-- One that lies in no other. -/
def World.Largest (w : World) (k x : Nat) : Prop :=
  w.Vacant k x ∧ ∀ j y, w.Vacant j y → y ≤ x → x + 2 ^ k ≤ y + 2 ^ j → j = k ∧ y = x

/-- `free` on one frame after another. -/
def State.freeAll (s : State) : List Frame → Option State
  | [] => some s
  | f :: fs => do
    let s ← s.free f.ppn f.order
    s.freeAll fs

structure Canonical (w₀ w : World) : Prop where
  largest : ∀ k x, w.HasBlock .free k x ↔ w.Largest k x
  /-- Another run that leaves the same frames allocated leaves the same blocks free. -/
  history : ∀ w', Reach system w' → w'.state.pool.frames = w.state.pool.frames →
    (∀ i, i < w.state.pool.frames → (w'.Allocated i ↔ w.Allocated i)) →
    ∀ k x, w'.HasBlock .free k x ↔ w.HasBlock .free k x
  restored : ∀ fs, fs.Perm w.live → ∃ s, w.state.freeAll fs = some s ∧
    ∀ k x, World.HasBlock ⟨s, []⟩ .free k x ↔ w₀.HasBlock .free k x

section
variable {s s' : State} {live : Multiset Frame} {w w' : World} {L : Nat → List Nat} {k x i p : Nat}

theorem Inv.allocated_iff (inv : Inv w.state w.live L) (hi : i < w.state.pool.frames) :
    w.Allocated i ↔ freeOver L i = 0 := by
  have htile := inv.tiled i
  rw [if_pos hi] at htile
  constructor
  · rintro ⟨f, hf, lo, hup⟩
    have := framesOver_of_mem (Multiset.mem_coe.mpr hf) lo hup
    omega
  · intro hfree
    exact framesOver_pos (show 0 < framesOver w.live (w.state.pool.base + i) by omega)

theorem Inv.vacant_iff (inv : Inv w.state w.live L) : w.Vacant k x ↔
    Block w.state.pool.frames k x ∧ ∀ i, x ≤ i → i < x + 2 ^ k → freeOver L i = 1 := by
  refine and_congr_right fun b => forall_congr' fun i => forall_congr' fun lo =>
    forall_congr' fun hi => ?_
  have := inv.rep.apart i
  have hfit := b.2.2
  rw [inv.allocated_iff (by omega)]
  omega

theorem Inv.listed_vacant (inv : Inv w.state w.live L) (hk : k ≤ maxOrder) (hx : x ∈ L k) :
    w.Vacant k x := by
  refine inv.vacant_iff.mpr ⟨inv.rep.blocks k hk x hx, fun i lo hi => ?_⟩
  have hcover := cover_le_coverage (f := i) (Nat.lt_add_one_of_le hk) hx
  rw [cover_eq_one lo hi] at hcover
  exact Nat.le_antisymm (inv.rep.apart i) hcover

/-- The lists hold the largest blocks, since a block that is all free lies in a listed one. -/
theorem Inv.free_iff_largest (inv : Inv w.state w.live L) (h : Merged L) :
    w.HasBlock .free k x ↔ w.Largest k x := by
  rw [inv.hasBlock_free]
  constructor
  · rintro ⟨hk, hx⟩
    refine ⟨inv.listed_vacant hk hx, fun j y vacant lo hi => ?_⟩
    obtain ⟨b, free⟩ := inv.vacant_iff.mp vacant
    obtain ⟨i, z, hji, hi', hz, zlo, zhi⟩ := h.within inv.rep b free
    have hpos := Nat.two_pow_pos k
    obtain ⟨rfl, rfl⟩ := block_unique (inv.rep.apart x) (Nat.lt_succ_of_le hi')
      (Nat.lt_succ_of_le hk) hz hx (cover_eq_one (by omega) (by omega)) (cover_self k x)
    have hle := (Nat.pow_le_pow_iff_right (by decide : 1 < 2)).mp (show 2 ^ i ≤ 2 ^ j by omega)
    exact ⟨by omega, by omega⟩
  · rintro ⟨vacant, most⟩
    obtain ⟨b, free⟩ := inv.vacant_iff.mp vacant
    obtain ⟨j, y, -, hj, hy, lo, hi⟩ := h.within inv.rep b free
    obtain ⟨rfl, rfl⟩ := most j y (inv.listed_vacant hj hy) lo hi
    exact ⟨hj, hy⟩

theorem World.Largest.congr (frames : w'.state.pool.frames = w.state.pool.frames)
    (same : ∀ i, i < w.state.pool.frames → (w'.Allocated i ↔ w.Allocated i)) :
    w'.Largest k x ↔ w.Largest k x := by
  have vacant : ∀ j y, w'.Vacant j y ↔ w.Vacant j y := by
    intro j y
    simp only [World.Vacant, frames]
    refine and_congr_right fun b => forall_congr' fun i => forall_congr' fun lo =>
      forall_congr' fun hi => not_congr (same i ?_)
    omega
  simp only [World.Largest, vacant]

theorem Step.merged {op : Op} (h : Step w op w') (inv : Inv w.state w.live L) (merged : Merged L) :
    (∃ L', Inv w'.state w'.live L' ∧ Merged L') ∧ w'.state.pool.frames = w.state.pool.frames := by
  cases h with
  | @alloc s s' live order ppn heq =>
    rcases inv.alloc order with none | ⟨_, _, L', heq', inv', -, frames, -⟩
    · exact absurd (none.symm.trans heq) (by simp)
    · obtain ⟨rfl, rfl⟩ : ppn = _ ∧ s' = _ := by simpa using heq.symm.trans heq'
      obtain ⟨L₂, rep, merged'⟩ := alloc_merged inv.rep merged heq
      exact ⟨⟨L', inv', merged'.congr rep inv'.rep⟩, frames⟩
  | @exhausted s s' live order heq =>
    rcases inv.alloc order with none | ⟨_, _, _, heq', -⟩
    · obtain rfl : s' = s := by simpa using heq.symm.trans none
      exact ⟨⟨L, inv, merged⟩, rfl⟩
    · exact absurd (heq'.symm.trans heq) (by simp)
  | @free s s' live f hf heq =>
    have inv : Inv s live L := inv
    rw [Multiset.coe_eq_coe.mpr (List.perm_cons_erase hf), ← Multiset.cons_coe] at inv
    obtain ⟨_, L', heq', inv', merged', -, frames, -⟩ := inv.free_merged merged
    obtain rfl : s' = _ := by simpa using heq.symm.trans heq'
    exact ⟨⟨L', inv', merged'⟩, frames⟩
  | @write s live f a v hf lo hi =>
    refine ⟨⟨L, inv.write fun b hb => Function.update_of_ne ?_ .., merged⟩, rfl⟩
    rintro rfl
    exact absurd hb (framesOver_of_mem (Multiset.mem_coe.mpr hf) lo hi).ne'

theorem Inv.of_init (h : system.init w) : ∃ L, Inv w.state w.live L ∧ Merged L := by
  obtain ⟨⟨mem, start, end_, hinit⟩, hlive⟩ := h
  obtain ⟨L, inv⟩ := Inv.start hinit
  exact ⟨L, by rw [hlive]; exact inv, init_merged hinit inv.rep⟩

theorem Reach.merged (h : Reach system w) : ∃ L, Inv w.state w.live L ∧ Merged L := by
  refine Reach.invariant (fun w => ∃ L, Inv w.state w.live L ∧ Merged L) (fun w => Inv.of_init) ?_ h
  rintro w op w' ⟨L, inv, merged⟩ hstep
  exact (Step.merged hstep inv merged).1

theorem Reach.frames {w₀ : World} (h : Reach (system.startAt w₀) w) :
    w.state.pool.frames = w₀.state.pool.frames := by
  induction h with
  | init hs => rw [hs.2]
  | step a hr hstep ih =>
    obtain ⟨L, inv, merged⟩ := Reach.merged hr.of_startAt
    exact (Step.merged hstep inv merged).2.trans ih

theorem Inv.freeAll {fs : List Frame} (inv : Inv s fs L) (merged : Merged L) :
    ∃ s' L', s.freeAll fs = some s' ∧ Inv s' 0 L' ∧ Merged L' ∧
      s'.pool.frames = s.pool.frames := by
  induction fs generalizing s L with
  | nil => exact ⟨s, L, rfl, inv, merged, rfl⟩
  | cons f fs ih =>
    rw [← Multiset.cons_coe] at inv
    obtain ⟨s₁, L₁, heq, inv₁, merged₁, -, frames₁, -⟩ := inv.free_merged merged
    obtain ⟨s', L', heq', inv', merged', frames'⟩ := ih inv₁ merged₁
    refine ⟨s', L', ?_, inv', merged', frames'.trans frames₁⟩
    rw [State.freeAll, heq]
    exact heq'

end

theorem reach_canonical {w₀ w : World} (h : Reach (system.startAt w₀) w) : Canonical w₀ w := by
  obtain ⟨L, inv, merged⟩ := Reach.merged h.of_startAt
  refine ⟨fun k x => inv.free_iff_largest merged, fun w' h' frames same k x =>
    ?_, fun fs perm => ?_⟩
  · obtain ⟨L', inv', merged'⟩ := Reach.merged h'
    rw [inv'.free_iff_largest merged', inv.free_iff_largest merged]
    exact World.Largest.congr frames same
  · rw [← Multiset.coe_eq_coe.mpr perm] at inv
    obtain ⟨s, L', heq, inv', merged', frames⟩ := inv.freeAll merged
    have start : system.init w₀ := by
      clear * - h
      induction h with
      | init hs => exact hs.2 ▸ hs.1
      | step a _ _ ih => exact ih
    obtain ⟨L₀, inv₀, merged₀⟩ := Inv.of_init start
    refine ⟨s, heq, fun k x => ?_⟩
    have inv'' : Inv (World.mk s []).state (World.mk s []).live L' := inv'
    rw [inv''.free_iff_largest merged', inv₀.free_iff_largest merged₀]
    refine World.Largest.congr (frames.trans (Reach.frames h)) fun i _ => ?_
    simp [World.Allocated, start.2]

/-- With nothing allocated in an even region no single frame is a largest block. -/
theorem World.not_largest_zero {w : World} {x : Nat} (hlive : w.live = [])
    (heven : 2 ∣ w.state.pool.frames) : ¬ w.Largest 0 x := by
  rintro ⟨⟨⟨-, -, hfit⟩, -⟩, most⟩
  have pair : w.Vacant 1 (x - x % 2) := by
    refine ⟨⟨by decide, by omega, by omega⟩, ?_⟩
    rintro i - - ⟨f, hf, -⟩
    rw [hlive] at hf
    cases hf
  have := most 1 (x - x % 2) pair (by omega) (by omega)
  omega

/-- With a single frame allocated its buddy is a largest block. -/
theorem World.largest_buddy {w : World} {i : Nat} (hlive : w.live = [⟨w.state.pool.base + i, 0⟩])
    (heven : 2 ∣ w.state.pool.frames) (hi : i < w.state.pool.frames) :
    w.Largest 0 (if i % 2 = 0 then i + 1 else i - 1) := by
  have allocated : ∀ j, w.Allocated j ↔ j = i := by
    intro j
    simp only [World.Allocated, hlive, List.mem_singleton, exists_eq_left, Frame.count]
    omega
  have vacant : w.Vacant 0 (if i % 2 = 0 then i + 1 else i - 1) := by
    refine ⟨⟨by decide, by simp, by split <;> omega⟩, ?_⟩
    intro j lo hi
    rw [allocated]
    split at lo <;> split at hi <;> omega
  refine ⟨vacant, ?_⟩
  rintro j y ⟨⟨-, hdvd, -⟩, clear⟩ lo hi
  rcases j with _ | j
  · exact ⟨rfl, by omega⟩
  · have hpair : 2 ∣ y := Nat.dvd_trans (Dvd.intro_left _ rfl) hdvd
    have hbig : 2 ∣ 2 ^ (j + 1) := Dvd.intro_left _ rfl
    refine absurd ((allocated i).mpr rfl) (clear i ?_ ?_)
    · split at lo <;> omega
    · split at hi <;> omega

/-- No single frame is free at boot; beside the one frame that is taken its buddy is; and they are
merged again when it is given back. -/
theorem canonical_after_return : ∃ s s' s'' g, init (fun _ => 0) 0x80400000 0x88000000 = some s ∧
    s'.pool.frames = 0x7800 ∧ Reach (system.startAt ⟨s, []⟩) ⟨s', [⟨g, 0⟩]⟩ ∧
    s'.free g 0 = some s'' ∧ (∀ x, ¬ World.HasBlock ⟨s, []⟩ .free 0 x) ∧
    (∃ x, World.HasBlock ⟨s', [⟨g, 0⟩]⟩ .free 0 x) ∧
    (∀ x, ¬ World.HasBlock ⟨s'', []⟩ .free 0 x) ∧ Canonical ⟨s, []⟩ ⟨s', [⟨g, 0⟩]⟩ := by
  obtain ⟨s, _, _, s', _, g, hs, -, -, -, hframes, hreach⟩ := taken_and_returned
  have canonical := reach_canonical hreach
  have start : Reach system ⟨s, []⟩ := .init ⟨⟨_, _, _, hs⟩, rfl⟩
  obtain ⟨L₀, inv₀, merged₀⟩ := Reach.merged start
  have hboot : s.pool.frames = 0x7800 := (Reach.frames hreach).symm.trans hframes
  have none : ∀ x, ¬ World.HasBlock ⟨s, []⟩ .free 0 x := by
    intro x hx
    exact World.not_largest_zero rfl (show 2 ∣ s.pool.frames by omega)
      ((inv₀.free_iff_largest merged₀).mp hx)
  obtain ⟨s'', hfree, same⟩ := canonical.restored [⟨g, 0⟩] (List.Perm.refl _)
  obtain ⟨s₁, hfree, heq⟩ := Option.bind_eq_some_iff.mp hfree
  cases heq
  obtain ⟨-, hbase, htop⟩ := (reach_sound hreach.of_startAt).liveBlocks ⟨g, 0⟩ (by simp)
  have hbase : s'.pool.base ≤ g := hbase
  have htop : g + 1 ≤ s'.pool.base + s'.pool.frames := htop
  obtain ⟨i, rfl⟩ := Nat.exists_eq_add_of_le hbase
  refine ⟨s, s', s'', _, hs, hframes, hreach, hfree, none, ⟨_, (canonical.largest 0 _).mpr
    (World.largest_buddy (i := i) rfl ?_ ?_)⟩, ?_, canonical⟩
  · exact (show 2 ∣ s'.pool.frames by omega)
  · exact (show i < s'.pool.frames by omega)
  · intro x hx
    exact none x ((same 0 x).mp hx)

/-! ## When `alloc` fails -/

section
variable {s s' : State} {w : World} {L : Nat → List Nat} {p : Nat}

theorem Rep.isFree_iff (r : Rep s L) :
    IsFree s p ↔ ∃ i, p = s.pool.base + i ∧ freeOver L i = 1 := by
  constructor
  · rintro ⟨k, xs, hk, hl, x, hx, lo, hi⟩
    obtain rfl : xs = L k := hl.unique (r.linked k hk)
    obtain ⟨i, rfl⟩ := Nat.exists_eq_add_of_le (Nat.le_trans (Nat.le_add_right _ x) lo)
    have hcover := cover_le_coverage (f := i) (Nat.lt_add_one_of_le hk) hx
    rw [cover_eq_one (by omega) (by omega)] at hcover
    exact ⟨i, rfl, Nat.le_antisymm (r.apart i) hcover⟩
  · rintro ⟨i, rfl, hi⟩
    obtain ⟨j, hj, y, hy, lo, hup, -⟩ := r.block_at hi
    exact ⟨j, L j, hj, r.linked j hj, y, hy, by omega, by omega⟩

/-- The frames of a block, by their numbers in the region. -/
theorem Rep.free_block_iff (r : Rep s L) {k x : Nat} :
    (∀ i, x ≤ i → i < x + 2 ^ k → IsFree s (s.pool.base + i)) ↔
      ∀ i, x ≤ i → i < x + 2 ^ k → freeOver L i = 1 := by
  refine forall_congr' fun i => forall_congr' fun lo => forall_congr' fun hi => ?_
  rw [r.isFree_iff]
  constructor
  · rintro ⟨j, hj, hfree⟩
    rwa [Nat.add_left_cancel hj]
  · exact fun hfree => ⟨i, rfl, hfree⟩

theorem Rep.taken {L' : Nat → List Nat} {k x : Nat} (r : Rep s L) (r' : Rep s' L')
    (base : s'.pool.base = s.pool.base)
    (total : ∀ i, freeOver L' i + cover k x i = freeOver L i) :
    (∀ p, s.pool.base + x ≤ p → p < s.pool.base + x + 2 ^ k → IsFree s p) ∧
    ∀ p, IsFree s' p ↔ IsFree s p ∧ ¬ (s.pool.base + x ≤ p ∧ p < s.pool.base + x + 2 ^ k) := by
  have inside : ∀ i, x ≤ i → i < x + 2 ^ k → freeOver L' i = 0 ∧ freeOver L i = 1 := by
    intro i lo hi
    have htotal := total i
    have := r.apart i
    rw [cover_eq_one lo hi] at htotal
    omega
  have outside : ∀ i, ¬ (x ≤ i ∧ i < x + 2 ^ k) → freeOver L' i = freeOver L i := by
    intro i out
    have htotal := total i
    rwa [cover, if_neg out, Nat.add_zero] at htotal
  constructor
  · intro p lo hi
    refine r.isFree_iff.mpr ⟨p - s.pool.base, by omega, (inside _ ?_ ?_).2⟩ <;> omega
  · intro p
    rw [r'.isFree_iff, r.isFree_iff, base]
    constructor
    · rintro ⟨i, rfl, hi⟩
      by_cases hin : x ≤ i ∧ i < x + 2 ^ k
      · exact absurd (inside i hin.1 hin.2).1 (by omega)
      · exact ⟨⟨i, rfl, outside i hin ▸ hi⟩, by omega⟩
    · rintro ⟨⟨i, rfl, hi⟩, out⟩
      exact ⟨i, rfl, (outside i (by omega)).trans hi⟩

end

/-- What `alloc` does to the set of free frames. -/
structure Allocates (s : State) (order : Nat) : Prop where
  fails : (s.alloc order).1 = none ↔ maxOrder < order ∨
    ¬ ∃ x, 2 ^ order ∣ x ∧ x + 2 ^ order ≤ s.pool.frames ∧
      ∀ i, x ≤ i → i < x + 2 ^ order → IsFree s (s.pool.base + i)
  unchanged : (s.alloc order).1 = none → (s.alloc order).2 = s
  taken : ∀ ppn s', s.alloc order = (some ppn, s') →
    (∀ p, ppn ≤ p → p < ppn + 2 ^ order → IsFree s p) ∧
    ∀ p, IsFree s' p ↔ IsFree s p ∧ ¬ (ppn ≤ p ∧ p < ppn + 2 ^ order)

theorem reach_allocates {w : World} (h : Reach system w) (order : Nat) :
    Allocates w.state order := by
  obtain ⟨L, inv, merged⟩ := Reach.merged h
  have rep := inv.rep
  rcases alloc_spec rep order with none | ⟨idx, s', L', some, rep', b, base, frames, -, -, total⟩
  · refine ⟨⟨fun _ => ?_, fun _ => by rw [none]⟩, fun _ => by rw [none], fun ppn s' heq => ?_⟩
    · by_cases horder : maxOrder < order
      · exact .inl horder
      · right
        rintro ⟨x, hdvd, hfit, free⟩
        obtain ⟨j, y, hle, hj, hy, -⟩ := merged.within rep ⟨by omega, hdvd, hfit⟩
          (rep.free_block_iff.mp free)
        obtain ⟨ppn, s', some⟩ := rep.alloc_of_listed hle hj hy
        exact nomatch none.symm.trans some
    · exact nomatch none.symm.trans heq
  · obtain ⟨free, shrinks⟩ := rep.taken rep' base total
    refine ⟨⟨fun hnone => ?_, ?_⟩, fun hnone => ?_, fun ppn s'' heq => ?_⟩
    · rw [some] at hnone
      exact nomatch hnone
    · rintro (horder | hnone)
      · exact absurd b.1 (Nat.not_le.mpr horder)
      · exact absurd ⟨idx, b.2.1, b.2.2, fun i lo hi => free _ (by omega) (by omega)⟩ hnone
    · rw [some] at hnone
      exact nomatch hnone
    · obtain ⟨rfl, rfl⟩ : ppn = _ ∧ s'' = s' := by simpa using heq.symm.trans some
      exact ⟨free, shrinks⟩

theorem allocates_after_return : ∃ s g, s.pool.frames = 0x7800 ∧ Reach system ⟨s, [⟨g, 0⟩]⟩ ∧
    Allocates s 0 ∧ Allocates s maxOrder := by
  obtain ⟨_, _, _, s, _, g, -, -, -, -, hframes, hreach⟩ := taken_and_returned
  exact ⟨s, g, hframes, hreach.of_startAt, reach_allocates hreach.of_startAt 0,
    reach_allocates hreach.of_startAt maxOrder⟩

end AlexOS.Buddy
