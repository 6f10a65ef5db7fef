import AlexOS.Mm.FrameRun

/-!
# Free buddies are always merged

No free block has its other half free at the same order: splitting keeps the
lower half, merging goes on while there is a free half, and seeding takes the
largest block that fits. So a block with no held frame in it lies inside one
free block, and a run of any order is found wherever there is room for it.
-/

namespace AlexOS.Buddy

open Bytes Chain Blocks State

def Merged (L : Nat → List Nat) : Prop :=
  ∀ k, k < maxOrder → ∀ x ∈ L k, x ^^^ 2 ^ k ∉ L k

section
variable {s : State} {L L' : Nat → List Nat} {k x : Nat}

theorem Rep.unique (r : Rep s L) (r' : Rep s L') (hk : k ≤ maxOrder) : L k = L' k :=
  (r.linked k hk).unique (r'.linked k hk)

theorem Merged.congr (h : Merged L) (r : Rep s L) (r' : Rep s L') : Merged L' := by
  intro k hk x hx
  rw [← r.unique r' (Nat.le_of_lt hk)] at hx ⊢
  exact h k hk x hx

theorem Merged.erase (h : Merged L) (k x : Nat) : Merged (Function.update L k ((L k).erase x)) := by
  intro j hj y hy hbuddy
  by_cases hjk : j = k
  · subst hjk
    rw [Function.update_self] at hy hbuddy
    exact h j hj y (List.mem_of_mem_erase hy) (List.mem_of_mem_erase hbuddy)
  · rw [Function.update_of_ne hjk] at hy hbuddy
    exact h j hj y hy hbuddy

/-- A block whose other half is not free can be freed. -/
theorem Merged.push (h : Merged L) (apart : k < maxOrder → x ^^^ 2 ^ k ∉ L k) :
    Merged (Function.update L k (x :: L k)) := by
  intro j hj y hy hbuddy
  by_cases hjk : j = k
  · subst hjk
    rw [Function.update_self] at hy hbuddy
    have back : ∀ z : Nat, z ^^^ 2 ^ j ^^^ 2 ^ j = z := fun z => by
      rw [Nat.xor_assoc, Nat.xor_self, Nat.xor_zero]
    have move : ∀ z : Nat, z ^^^ 2 ^ j ≠ z := by
      intro z e
      have := congrArg (z ^^^ ·) e
      simp at this
    rcases List.mem_cons.mp hy with rfl | hy
    · rcases List.mem_cons.mp hbuddy with e | hbuddy
      · exact move y e
      · exact apart hj hbuddy
    · rcases List.mem_cons.mp hbuddy with e | hbuddy
      · apply apart hj
        rw [← e, back]
        exact hy
      · exact h j hj y hy hbuddy
  · rw [Function.update_of_ne hjk] at hy hbuddy
    exact h j hj y hy hbuddy

/-! ## The operations -/

theorem splitDown_merged {idx order : Nat} (level : Nat) (hle : order ≤ level) (r : Rep s L)
    (b : Block s.pool.frames level idx) (held : ∀ f, freeOver L f + cover level idx f ≤ 1)
    (h : Merged L) : ∃ L', Rep (s.splitDown idx order level) L' ∧ Merged L' := by
  induction level generalizing s L with
  | zero =>
    obtain rfl : order = 0 := by omega
    exact ⟨L, r, h⟩
  | succ level ih =>
    by_cases hlt : order < level + 1
    · have hpow : 2 ^ (level + 1) = 2 ^ level + 2 ^ level := by rw [Nat.pow_succ]; omega
      obtain ⟨hk, hdvd, hfit⟩ := b
      have half : 2 ^ level ∣ idx := Nat.dvd_trans ⟨2, Nat.pow_succ ..⟩ hdvd
      have upper : Block s.pool.frames level (idx + 2 ^ level) :=
        ⟨by omega, Nat.dvd_add half (Nat.dvd_refl _), by omega⟩
      have r' := r.push upper fun f => by
        have := held f; rw [cover_succ] at this; omega
      have hbuddy : (idx + 2 ^ level) ^^^ 2 ^ level = idx := by
        have := xor_two_pow half
        rw [if_pos hdvd] at this
        rw [← this, Nat.xor_assoc, Nat.xor_self, Nat.xor_zero]
      have h' : Merged (Function.update L level ((idx + 2 ^ level) :: L level)) :=
        h.push fun _ => by
          rw [hbuddy]
          exact not_listed held (by omega)
      simp only [splitDown, hlt, if_true]
      refine ih (by omega) r' ⟨by omega, half, ?_⟩ (fun f => ?_) h'
      · rw [(push_region s level _).frames]; omega
      · have := held f
        rw [cover_succ] at this
        rw [freeOver_push (by omega)]
        omega
    · obtain rfl : order = level + 1 := by omega
      simp only [splitDown, Nat.lt_irrefl, if_false]
      exact ⟨L, r, h⟩

theorem alloc_merged (r : Rep s L) (h : Merged L) {order ppn : Nat} {s' : State}
    (heq : s.alloc order = (some ppn, s')) : ∃ L', Rep s' L' ∧ Merged L' := by
  rw [alloc] at heq
  split at heq
  · cases heq
  rename_i hbig
  obtain ⟨hle, hne⟩ := seekDonor_spec s (maxOrder + 1) order (by omega)
  simp only at heq
  generalize s.seekDonor (maxOrder + 1) order = donor at hle hne heq
  split at heq
  · cases heq
  rename_i hnone
  have hk : donor ≤ maxOrder := by omega
  have listed := r.head_mem hk (hne hk)
  have region := remove_region s donor (s.pool.freeLists donor)
  obtain ⟨L', rep, h'⟩ := splitDown_merged donor hle
    (r.remove hk listed) (by rw [region.frames]; exact r.blocks donor hk _ listed)
    (fun f => by
      have := freeOver_erase hk listed f
      have := r.apart f
      omega) (h.erase donor _)
  obtain ⟨-, rfl⟩ := Prod.mk.inj heq
  exact ⟨L', rep.account order, h'⟩

/-- Merging stops at the largest order or at a block whose other half is not free. -/
theorem mergeUp_merged (n : Nat) {idx level : Nat} (r : Rep s L) (b : Block s.pool.frames level idx)
    (h : Merged L) (fuel : maxOrder ≤ level + n) :
    ∃ L', Rep (s.mergeUp n idx level).1 L' ∧ Merged L' ∧
      ((s.mergeUp n idx level).2.2 < maxOrder →
        (s.mergeUp n idx level).2.1 ^^^ 2 ^ (s.mergeUp n idx level).2.2 ∉
          L' (s.mergeUp n idx level).2.2) := by
  induction n generalizing s L idx level with
  | zero => exact ⟨L, r, h, fun hlt => by simp only [mergeUp] at hlt; omega⟩
  | succ n ih =>
    simp only [mergeUp]
    by_cases hlevel : level < maxOrder
    · obtain ⟨hdvd, hbuddy, hfit, -⟩ := join b.2.1
      have blocked : ∀ {x}, x ∈ L level → Block s.pool.frames level x := r.blocks level b.1 _
      by_cases stop : s.pool.frames < (idx ^^^ 2 ^ level) + 2 ^ level ∨
          s.isFree level (idx ^^^ 2 ^ level) = false
      · simp only [hlevel, stop, if_true]
        refine ⟨L, r, h, fun _ listed => ?_⟩
        have bb := blocked listed
        rcases stop with past | busy
        · have := bb.2.2
          omega
        · obtain ⟨i, hi, hbit⟩ := bb.hasBit
          rw [hi] at listed busy
          rw [(r.bits level i hbit).mpr listed] at busy
          cases busy
      · simp only [hlevel, stop, if_true, if_false]
        obtain ⟨hin, hfree⟩ := not_or.mp stop
        have bb : Block s.pool.frames level (idx ^^^ 2 ^ level) := ⟨b.1, hbuddy, by omega⟩
        have listed : (idx ^^^ 2 ^ level) ∈ L level := by
          obtain ⟨i, hi, hbit⟩ := bb.hasBit
          rw [hi] at hfree ⊢
          exact (r.bits level i hbit).mp (by simpa using hfree)
        refine ih (r.remove b.1 listed) ⟨hlevel, hdvd, ?_⟩ (h.erase level _) (by omega)
        have := b.2.2
        rw [(remove_region s level _).frames]
        omega
    · simp only [hlevel, if_false]
      exact ⟨L, r, h, False.elim⟩

theorem free_merged (r : Rep s L) (h : Merged L) {idx order : Nat} {s' : State}
    (b : Block s.pool.frames order idx) (held : ∀ f, freeOver L f + cover order idx f ≤ 1)
    (heq : s.free (s.pool.base + idx) order = some s') : ∃ L', Rep s' L' ∧ Merged L' := by
  have hrange : ¬ s.pool.base + idx < s.pool.base := by omega
  have hsub : s.pool.base + idx - s.pool.base = idx := by omega
  simp only [free, hrange, if_false, hsub] at heq
  split at heq
  · cases heq
  obtain ⟨L', rep, h', stop⟩ := mergeUp_merged maxOrder (r.discount order) b h (Nat.le_add_left _ _)
  obtain ⟨L₂, rep₂, region, -, block, total⟩ := mergeUp_spec maxOrder (r.discount order) b held
  generalize (s.discount order).mergeUp maxOrder idx order = m at *
  obtain rfl := Option.some.inj heq
  have bm : Block m.1.pool.frames m.2.2 m.2.1 := by rw [region.frames]; exact block
  refine ⟨_, rep₂.push bm fun f => by rw [total]; exact held f,
    (h'.congr rep rep₂).push fun hlt => ?_⟩
  rw [← rep.unique rep₂ block.1]
  exact stop hlt

/-! ## Seeding -/

theorem le_seedOrder {frames idx j : Nat} (n : Nat) (hj : j ≤ n) (hdvd : 2 ^ j ∣ idx)
    (hfit : idx + 2 ^ j ≤ frames) : j ≤ seedOrder frames idx n := by
  induction n with
  | zero => exact Nat.le_trans hj (Nat.zero_le _)
  | succ n ih =>
    rcases Nat.lt_or_eq_of_le hj with hlt | rfl
    · simp only [seedOrder]
      split
      · exact ih (by omega)
      · omega
    · rw [seedOrder, if_neg]
      rintro (hmask | hpast)
      · exact hmask (and_mask_eq_zero hdvd)
      · omega

/-- Every listed block is the largest that could be seeded at its place. -/
theorem seed_merged (n idx : Nat) (r : Rep s L) (hle : idx ≤ s.pool.frames)
    (tiled : ∀ f, freeOver L f = if f < idx then 1 else 0) (h : Merged L)
    (largest : ∀ k, k ≤ maxOrder → ∀ x ∈ L k, k = seedOrder s.pool.frames x maxOrder) :
    ∃ L', Rep (s.seed n idx) L' ∧ Merged L' := by
  induction n generalizing s L idx with
  | zero => exact ⟨L, r, h⟩
  | succ n ih =>
    rw [seed]
    split
    · rename_i hlt
      obtain ⟨hk, hdvd, hfit⟩ := seedOrder_spec hlt maxOrder
      generalize hord : seedOrder s.pool.frames idx maxOrder = k at hk hdvd hfit
      have hpos := Nat.two_pow_pos k
      have hpow : 2 ^ (k + 1) = 2 ^ k + 2 ^ k := by rw [Nat.pow_succ]; omega
      have region := push_region s k idx
      have fresh : ∀ f, freeOver L f + cover k idx f ≤ 1 := by
        intro f
        rw [tiled, cover]
        split <;> split <;> omega
      have apart : k < maxOrder → idx ^^^ 2 ^ k ∉ L k := by
        intro hk' listed
        have hbelow : idx ^^^ 2 ^ k < idx := by
          by_contra hge
          have := cover_le_coverage (f := idx ^^^ 2 ^ k) (Nat.lt_add_one_of_le hk) listed
          have htile := tiled (idx ^^^ 2 ^ k)
          rw [if_neg hge, freeOver] at htile
          rw [cover_self] at this
          omega
        have hx := xor_two_pow hdvd
        by_cases even : 2 ^ (k + 1) ∣ idx
        · rw [if_pos even] at hx
          omega
        · obtain ⟨hhalf, hlow⟩ := half_of_not_dvd hdvd even
          rw [if_neg even] at hx
          have hsmall := largest k hk _ listed
          have := le_seedOrder maxOrder hk' (by rw [hx]; exact hlow)
            (show (idx ^^^ 2 ^ k) + 2 ^ (k + 1) ≤ s.pool.frames by omega)
          omega
      refine ih (idx + 2 ^ k) (r.push ⟨hk, hdvd, hfit⟩ fresh) (by rw [region.frames]; exact hfit)
        (fun f => ?_) (h.push apart) fun j hj y hy => ?_
      · rw [freeOver_push hk, tiled, cover]
        split <;> split <;> split <;> omega
      · rw [region.frames]
        by_cases hjk : j = k
        · subst hjk
          rw [Function.update_self] at hy
          rcases List.mem_cons.mp hy with rfl | hy
          · exact hord.symm
          · exact largest j hj y hy
        · rw [Function.update_of_ne hjk] at hy
          exact largest j hj y hy
    · exact ⟨L, r, h⟩

/-! ## Room for a run -/

theorem aligned_le {a b d : Nat} (ha : d ∣ a) (hb : d ∣ b) (h : a < b + d) : a ≤ b := by
  obtain ⟨p, rfl⟩ := ha
  obtain ⟨q, rfl⟩ := hb
  have : p < q + 1 := by
    by_contra hge
    have := Nat.mul_le_mul_left d (Nat.le_of_not_lt hge)
    rw [Nat.mul_add, Nat.mul_one] at this
    omega
  exact Nat.mul_le_mul_left d (by omega)

/-- The free block over a frame; it starts there if its order divides the frame. -/
theorem Rep.block_at (r : Rep s L) {f : Nat} (hf : freeOver L f = 1) :
    ∃ j, j ≤ maxOrder ∧ ∃ y ∈ L j, y ≤ f ∧ f < y + 2 ^ j ∧ (2 ^ j ∣ f → y = f) := by
  obtain ⟨j, hj, y, hy, lo, hi⟩ := exists_of_coverage_pos (show 0 < coverage _ L f by
    rw [← freeOver, hf]; exact Nat.one_pos)
  have hj : j ≤ maxOrder := Nat.le_of_lt_succ hj
  exact ⟨j, hj, y, hy, lo, hi, fun hdvd =>
    Nat.le_antisymm lo (aligned_le hdvd (r.blocks j hj y hy).2.1 hi)⟩

/-- A block all of whose frames are free lies in a free block. -/
theorem Merged.within (r : Rep s L) (h : Merged L) (b : Block s.pool.frames k x)
    (free : ∀ f, x ≤ f → f < x + 2 ^ k → freeOver L f = 1) :
    ∃ j y, k ≤ j ∧ j ≤ maxOrder ∧ y ∈ L j ∧ y ≤ x ∧ x + 2 ^ k ≤ y + 2 ^ j := by
  by_contra none
  have small : ∀ {j y f}, j ≤ maxOrder → y ∈ L j → x ≤ f → f < x + 2 ^ k → y ≤ f →
      f < y + 2 ^ j → j < k := fun {j y f} hj hy lo hi lo' hi' =>
    Nat.lt_of_not_le fun hle => by
      have hdvd : 2 ^ k ∣ y := Nat.dvd_trans (Nat.pow_dvd_pow 2 hle) (r.blocks j hj y hy).2.1
      have hend : 2 ^ k ∣ y + 2 ^ j := Nat.dvd_add hdvd (Nat.pow_dvd_pow 2 hle)
      exact none ⟨j, y, hle, hj, hy, aligned_le hdvd b.2.1 (by omega),
        aligned_le (Nat.dvd_add b.2.1 (Nat.dvd_refl _)) hend (by omega)⟩
  have some_order : ∃ j, j < k ∧ ∃ y ∈ L j, x ≤ y ∧ y < x + 2 ^ k := by
    have hx : x < x + 2 ^ k := Nat.lt_add_of_pos_right (Nat.two_pow_pos k)
    obtain ⟨j, hj, y, hy, lo, hi, start⟩ := r.block_at (free x (Nat.le_refl _) hx)
    have hlt := small hj hy (Nat.le_refl _) hx lo hi
    obtain rfl := start (Nat.dvd_trans (Nat.pow_dvd_pow 2 (Nat.le_of_lt hlt)) b.2.1)
    exact ⟨j, hlt, y, hy, Nat.le_refl _, hx⟩
  classical
  obtain ⟨hlt, y, hy, lo, hi⟩ := Nat.find_spec some_order
  have least := fun {i} (hi : i < Nat.find some_order) => Nat.find_min some_order hi
  generalize Nat.find some_order = j at hlt hy least
  have hk := b.1
  have hdvd := (r.blocks j (by omega) y hy).2.1
  obtain ⟨hlow, hbuddy, hjoin, -⟩ := join hdvd
  have hpow : 2 ^ (j + 1) = 2 ^ j + 2 ^ j := by rw [Nat.pow_succ]; omega
  have hpos := Nat.two_pow_pos j
  have hxdvd : 2 ^ (j + 1) ∣ x := Nat.dvd_trans (Nat.pow_dvd_pow 2 hlt) b.2.1
  have hend : 2 ^ (j + 1) ∣ x + 2 ^ k := Nat.dvd_add hxdvd (Nat.pow_dvd_pow 2 hlt)
  have lo' : x ≤ min y (y ^^^ 2 ^ j) := aligned_le hxdvd hlow (by omega)
  have hi' : min y (y ^^^ 2 ^ j) + 2 ^ (j + 1) ≤ x + 2 ^ k :=
    aligned_le (Nat.dvd_add hlow (Nat.dvd_refl _)) hend (by omega)
  obtain ⟨i, hi, z, hz, zlo, zhi, start⟩ :=
    r.block_at (free (y ^^^ 2 ^ j) (by omega) (by omega))
  have hik := small hi hz (by omega) (by omega) zlo zhi
  rcases Nat.lt_trichotomy i j with below | rfl | above
  · obtain rfl := start (Nat.dvd_trans (Nat.pow_dvd_pow 2 (Nat.le_of_lt below)) hbuddy)
    exact least below ⟨hik, _, hz, by omega, by omega⟩
  · obtain rfl := start hbuddy
    exact h i (by omega) y hy hz
  · have hz' := (r.blocks i hi z hz).2.1
    have hzdvd : 2 ^ (j + 1) ∣ z := Nat.dvd_trans (Nat.pow_dvd_pow 2 above) hz'
    have hzlo : z ≤ min y (y ^^^ 2 ^ j) := aligned_le hzdvd hlow (by omega)
    have hzhi : min y (y ^^^ 2 ^ j) + 2 ^ (j + 1) ≤ z + 2 ^ i :=
      aligned_le (Nat.dvd_add hlow (Nat.dvd_refl _))
        (Nat.dvd_add hzdvd (Nat.pow_dvd_pow 2 above)) (by omega)
    have := block_unique (r.apart y) (Nat.lt_succ_of_le hi) (show j < maxOrder + 1 by omega) hz hy
      (cover_eq_one (by omega) (by omega)) (cover_self j y)
    omega

/-- Fewer held frames than blocks of an order leave one of the blocks free. -/
theorem Inv.free_block {live : Multiset Frame} (inv : Inv s live L) (hk : k ≤ maxOrder)
    (room : s.pool.allocated < s.pool.frames / 2 ^ k) :
    ∃ x, Block s.pool.frames k x ∧ ∀ f, x ≤ f → f < x + 2 ^ k → freeOver L f = 1 := by
  let busy := (Finset.range s.pool.frames).filter fun i => 0 < framesOver live (s.pool.base + i)
  have hpos := Nat.two_pow_pos k
  have hbusy : busy.card ≤ s.pool.allocated := by
    rw [inv.count, ← sum_framesOver inv.held, Finset.card_filter]
    exact Finset.sum_le_sum fun i _ => by split <;> omega
  have hcard : (busy.image (· / 2 ^ k)).card < (Finset.range (s.pool.frames / 2 ^ k)).card := by
    rw [Finset.card_range]
    exact Nat.lt_of_le_of_lt (Nat.le_trans Finset.card_image_le hbusy) room
  obtain ⟨c, hc, hnot⟩ := Finset.exists_mem_notMem_of_card_lt_card hcard
  have hfit : c * 2 ^ k + 2 ^ k ≤ s.pool.frames := by
    have := Nat.mul_le_of_le_div (2 ^ k) (c + 1) s.pool.frames (Finset.mem_range.mp hc)
    rwa [Nat.add_mul, Nat.one_mul] at this
  refine ⟨c * 2 ^ k, ⟨hk, Nat.dvd_mul_left _ _, hfit⟩, fun f lo hi => ?_⟩
  have htile := inv.tiled f
  rw [if_pos (by omega)] at htile
  have hfree : ¬ 0 < framesOver live (s.pool.base + f) := by
    intro held
    refine hnot (Finset.mem_image.mpr ⟨f, ?_, ?_⟩)
    · exact Finset.mem_filter.mpr ⟨Finset.mem_range.mpr (by omega), held⟩
    · exact Nat.div_eq_of_lt_le lo (by rw [Nat.add_mul, Nat.one_mul]; exact hi)
  omega

theorem Inv.alloc_room {live : Multiset Frame} (inv : Inv s live L) (h : Merged L)
    (hk : k ≤ maxOrder) (room : s.pool.allocated < s.pool.frames / 2 ^ k) :
    ∃ ppn s', s.alloc k = (some ppn, s') := by
  obtain ⟨x, b, free⟩ := inv.free_block hk room
  obtain ⟨j, y, hkj, hj, hy, -⟩ := h.within inv.rep b free
  exact inv.rep.alloc_of_listed hkj hj hy

end

/-! ## As the rest of the kernel sees it -/

section
variable {s s' : State} {live : Multiset Frame} {L : Nat → List Nat}

theorem Inv.allocOrder_merged {k : Nat} {f : Frame} (inv : Inv s live L) (h : Merged L)
    (heq : s.allocOrder k = (some f, s')) : ∃ L', Inv s' (f ::ₘ live) L' ∧ Merged L' := by
  rcases inv.alloc k with none | ⟨ppn, u, L', some, inv', -⟩
  · simp [State.allocOrder, none] at heq
  obtain ⟨L₂, rep, h'⟩ := alloc_merged inv.rep h some
  simp only [State.allocOrder, some, Prod.mk.injEq, Option.some.injEq] at heq
  obtain ⟨rfl, rfl⟩ := heq
  refine ⟨L', inv'.write fun a ha => if_neg fun hin => ?_, h'.congr rep inv'.rep⟩
  have := framesOver_of_mem (p := pageNum a) (Multiset.mem_cons_self ⟨ppn, k⟩ live)
    (by simp only [baseAddr, pageNum, pageSize] at *; omega)
    (by simp only [Frame.count, baseAddr, pageNum, pageSize] at *; omega)
  omega

theorem Inv.free_merged {f : Frame} (inv : Inv s (f ::ₘ live) L) (h : Merged L) :
    ∃ s' L', s.free f.ppn f.order = some s' ∧ Inv s' live L' ∧ Merged L' ∧
      s'.pool.base = s.pool.base ∧ s'.pool.frames = s.pool.frames ∧ Kept live s.mem s'.mem := by
  obtain ⟨s', L', heq, inv', hbase, hframes, kept⟩ := inv.free
  obtain ⟨i, hi, b⟩ := inv.held f (Multiset.mem_cons_self f live)
  have heq' := heq
  rw [hi] at heq'
  obtain ⟨L₂, rep, h'⟩ := Buddy.free_merged inv.rep h b (fun j => by
    have htile := inv.tiled j
    have hone : (if j < s.pool.frames then 1 else 0) ≤ 1 := by split <;> omega
    rw [framesOver_cons, hi, cover_add] at htile
    omega) heq'
  exact ⟨s', L', heq, inv', h'.congr rep inv'.rep, hbase, hframes, kept⟩

end

/-- The allocator with its free blocks known to be merged. -/
def merging : CountedAllocator BuddyAllocator where
  allocOrder := State.allocOrder
  free s f := State.free s f.ppn f.order
  Holds s live := s.pool.base + s.pool.frames ≤ 2 ^ 44 ∧ ∃ L, Inv s live L ∧ Merged L
  Free := IsFree
  free_apart := fun ⟨htop, L, inv, _⟩ hp => allocator.free_apart ⟨htop, L, inv⟩ hp
  avail s := s.pool.frames - s.pool.allocated
  ppn_lt := fun ⟨htop, L, inv, _⟩ hf => allocator.ppn_lt ⟨htop, L, inv⟩ hf
  apart := fun ⟨htop, L, inv, _⟩ p => allocator.apart ⟨htop, L, inv⟩ p
  alloc_none := fun ⟨htop, L, inv, _⟩ heq => allocator.alloc_none ⟨htop, L, inv⟩ heq
  alloc_some := by
    rintro s s' live k f ⟨htop, L, inv, h⟩ heq
    obtain ⟨horder, -, hbase, hframes, kept, zeroed⟩ := inv.allocOrder heq
    exact ⟨horder, ⟨by rw [hbase, hframes]; exact htop, inv.allocOrder_merged h heq⟩, kept, zeroed⟩
  free_some := by
    rintro s live f ⟨htop, L, inv, h⟩
    obtain ⟨s', L', heq, inv', h', hbase, hframes, kept⟩ := inv.free_merged h
    exact ⟨s', heq, ⟨by rw [hbase, hframes]; exact htop, L', inv', h'⟩, kept⟩
  write := fun ⟨htop, L, inv, h⟩ outside => ⟨htop, L, inv.write outside, h⟩
  alloc_avail := fun ⟨htop, L, inv, _⟩ heq => allocator.alloc_avail ⟨htop, L, inv⟩ heq
  alloc_isSome := fun ⟨htop, L, inv, _⟩ havail => allocator.alloc_isSome ⟨htop, L, inv⟩ havail
  write_avail := fun _ _ => rfl

/-- A run is found as long as fewer frames are held than there are places for it. -/
theorem merging_room {s : State} {live : Multiset Frame} {k : Nat} (h : merging.Holds s live)
    (hk : k ≤ maxOrder)
    (room : (live.map Frame.count).sum < (merging.avail s + (live.map Frame.count).sum) / 2 ^ k) :
    ∃ f s', merging.allocOrder s k = (some f, s') := by
  obtain ⟨-, L, inv, merged⟩ := h
  have hcount := inv.count
  have hbal := inv.balance
  have hframes : merging.avail s + (live.map Frame.count).sum = s.pool.frames := by
    simp only [merging]
    omega
  rw [hframes, ← hcount] at room
  obtain ⟨ppn, s', heq⟩ := inv.alloc_room merged hk room
  simp only [merging, State.allocOrder, heq]
  exact ⟨_, _, rfl⟩

/-- A held frame is not marked free. -/
theorem Inv.busy {s : State} {live : Multiset Frame} {L : Nat → List Nat} {x : Nat}
    (h : Inv s live L) (held : 0 < framesOver live (s.pool.base + x)) : s.isFree 0 x = false := by
  obtain ⟨i, hi, hlt, hover⟩ := h.not_free held
  obtain rfl : x = i := Nat.add_left_cancel hi
  rw [Bool.eq_false_iff]
  intro hfree
  have hbit := h.rep.bits 0 x ⟨Nat.zero_le _, by simpa [divCeil] using hlt⟩
  rw [Nat.pow_zero, Nat.mul_one] at hbit
  have := Blocks.cover_le_coverage (f := x) (Nat.succ_pos maxOrder) (hbit.mp hfree)
  rw [← freeOver, hover] at this
  simp [Blocks.cover] at this

/-- A frame given back next to a held buddy is the next one handed out. -/
theorem merging_again {s : State} {live : Multiset Frame} {x : Nat}
    (holds : merging.Holds s (⟨s.pool.base + x, 0⟩ ::ₘ live))
    (buddy : (⟨s.pool.base + (x ^^^ 1), 0⟩ : Frame) ∈ live) :
    ∃ s' s'', merging.free s ⟨s.pool.base + x, 0⟩ = some s' ∧ merging.Holds s' live ∧
      Kept live s.mem s'.mem ∧ merging.avail s ≤ merging.avail s' ∧
      merging.allocOrder s' 0 = (some ⟨s.pool.base + x, 0⟩, s'') := by
  obtain ⟨htop, L, inv, merged⟩ := holds
  obtain ⟨s', L', heq, inv', merged', hbase, hframes, kept⟩ := inv.free_merged merged
  have busy := inv.busy
    (framesOver_of_mem (Multiset.mem_cons_of_mem buddy) (Nat.le_refl _) (Nat.lt_add_one _))
  obtain ⟨hhead, -⟩ := free_head busy heq
  have hx : x ≠ nil := by
    obtain ⟨i, hi, b⟩ := inv.held _ (Multiset.mem_cons_self _ _)
    obtain rfl : x = i := Nat.add_left_cancel hi
    have := b.lt
    have := inv.rep.geometry.frames_lt
    omega
  obtain ⟨s'', halloc, -⟩ := alloc_from (Nat.zero_le _) (by simp) hhead hx
  rw [hbase] at halloc
  refine ⟨s', s'', heq, ⟨by rw [hbase, hframes]; exact htop, L', inv', merged'⟩, kept, ?_, halloc⟩
  have hcount := inv.count
  have hcount' := inv'.count
  rw [Multiset.map_cons, Multiset.sum_cons] at hcount
  simp only [merging, hframes]
  omega

theorem init_merged {mem : Mem} {start end_ : Usize} {s : State} {L : Nat → List Nat}
    (h : init mem start end_ = some s) (r : Rep s L) : Merged L := by
  obtain ⟨up, hup⟩ := init_alignUp h
  obtain ⟨b, rfl, rep, -⟩ := init_seed hup h
  obtain ⟨L', r', h'⟩ := seed_merged _ 0 rep (Nat.zero_le _)
    (by simp [freeOver, coverage, blocksOver]) (by simp [Merged]) (by simp)
  exact h'.congr r' r

theorem merging_start {mem : Mem} {start end_ : Usize} {s : State}
    (h : init mem start end_ = some s) (hend : end_.val ≤ 2 ^ 56) : merging.Holds s 0 := by
  obtain ⟨htop, L, inv⟩ := allocator_start h hend
  exact ⟨htop, L, inv, init_merged h inv.rep⟩

/-- All of DRAM above a kernel image that ends at `0x80400000`, merged. -/
theorem merging_boot_of (mem : Mem) : ∃ s, init mem 0x80400000 0x88000000 = some s ∧
    merging.Holds s 0 ∧ merging.avail s = 0x7800 := by
  obtain ⟨s, hs, -, havail⟩ := boot_of mem
  exact ⟨s, hs, merging_start hs (by decide), havail⟩

theorem merging_boot : ∃ s, init (fun _ => 0) 0x80400000 0x88000000 = some s ∧
    merging.Holds s 0 ∧ merging.avail s = 0x7800 :=
  merging_boot_of _

/-! ## A fixed range -/

/-- The same over a range that stays what it is. -/
def managing (base n : Nat) : CountedAllocator BuddyAllocator where
  allocOrder := merging.allocOrder
  free := merging.free
  Holds s live := merging.Holds s live ∧ s.pool.base = base ∧ s.pool.frames = n
  Free := merging.Free
  free_apart := fun h hp => merging.free_apart h.1 hp
  avail := merging.avail
  ppn_lt := fun h hf => merging.ppn_lt h.1 hf
  apart := fun h p => merging.apart h.1 p
  alloc_none := fun h heq => merging.alloc_none h.1 heq
  alloc_some := by
    intro s s' live k f h heq
    obtain ⟨horder, holds, kept, zeroed⟩ := merging.alloc_some h.1 heq
    obtain ⟨⟨-, L, inv, -⟩, hb, hn⟩ := h
    obtain ⟨-, -, hbase, hframes, -⟩ := inv.allocOrder heq
    exact ⟨horder, ⟨holds, hbase.trans hb, hframes.trans hn⟩, kept, zeroed⟩
  free_some := by
    intro s live f h
    obtain ⟨s', heq, holds, kept⟩ := merging.free_some h.1
    obtain ⟨⟨-, L, inv, -⟩, hb, hn⟩ := h
    obtain ⟨t, -, heq', -, hbase, hframes, -⟩ := inv.free
    obtain rfl : t = s' := Option.some.inj (heq'.symm.trans heq)
    exact ⟨t, heq, ⟨holds, hbase.trans hb, hframes.trans hn⟩, kept⟩
  write := fun h outside => ⟨merging.write h.1 outside, h.2⟩
  alloc_avail := fun h heq => merging.alloc_avail h.1 heq
  alloc_isSome := fun h havail => merging.alloc_isSome h.1 havail
  write_avail := fun h outside => merging.write_avail h.1 outside

section
variable {s : State} {live : Multiset Frame} {base n p : Nat}

/-- Every frame is free or held. -/
theorem managing_total (h : (managing base n).Holds s live) :
    (managing base n).avail s + (live.map Frame.count).sum = n := by
  obtain ⟨⟨-, L, inv, -⟩, -, hn⟩ := h
  have hcount := inv.count
  have hbal := inv.balance
  show s.pool.frames - s.pool.allocated + _ = n
  omega

theorem managing_avail_mono {s' : State} {extra : Multiset Frame}
    (h : (managing base n).Holds s (live + extra)) (h' : (managing base n).Holds s' live) :
    (managing base n).avail s ≤ (managing base n).avail s' := by
  have htotal := managing_total h
  have htotal' := managing_total h'
  rw [Multiset.map_add, Multiset.sum_add] at htotal
  omega

/-- All of DRAM above a kernel image that ends at `0x80400000`. -/
abbrev dram : CountedAllocator BuddyAllocator := managing 0x80800 0x7800

theorem dram_boot : ∃ s, init (fun _ => 0) 0x80400000 0x88000000 = some s ∧ dram.Holds s 0 ∧
    dram.avail s = 0x7800 := by
  have hup : alignUp (0x80400000 : Usize).val = some 0x80400000 := by decide
  obtain ⟨s, hs, holds, havail⟩ := merging_boot
  obtain ⟨-, -, -, hbase, htop, -⟩ := init_spec hup hs
  have hbase : s.pool.base = 0x80800 := hbase.trans (by decide)
  have htop : s.pool.base + s.pool.frames = 0x88000 := htop.trans (by decide)
  exact ⟨s, hs, ⟨holds, hbase, by omega⟩, havail⟩

end

end AlexOS.Buddy
