import Mathlib.Algebra.BigOperators.Group.Finset.Basic
import Mathlib.Algebra.Order.BigOperators.Group.Finset
import Mathlib.Algebra.BigOperators.Ring.Finset
import Mathlib.Data.Nat.Bitwise
import Mathlib.Order.Interval.Finset.Nat

/-!
# Blocks of power-of-two size

A block of order `k` at `i` covers the `2 ^ k` points from `i`. A family of
blocks is one list of starts per order, and `coverage` counts the blocks over a
point; splitting and joining blocks leave it alone.
-/

namespace AlexOS.Blocks

def cover (k i f : Nat) : Nat := if i ≤ f ∧ f < i + 2 ^ k then 1 else 0

theorem cover_eq_one {k i f : Nat} (lo : i ≤ f) (hi : f < i + 2 ^ k) : cover k i f = 1 := by
  simp [cover, lo, hi]

@[simp] theorem cover_self (k i : Nat) : cover k i i = 1 :=
  cover_eq_one (Nat.le_refl _) (Nat.lt_add_of_pos_right (Nat.two_pow_pos k))

theorem cover_pos {k i f : Nat} (h : 0 < cover k i f) : i ≤ f ∧ f < i + 2 ^ k := by
  unfold cover at h; split at h
  · assumption
  · omega

@[simp] theorem cover_add (c k i f : Nat) : cover k (c + i) (c + f) = cover k i f := by
  unfold cover; split <;> split <;> omega

theorem sum_cover {k i n : Nat} (h : i + 2 ^ k ≤ n) :
    ∑ f ∈ Finset.range n, cover k i f = 2 ^ k := by
  have : (Finset.range n).filter (fun f => i ≤ f ∧ f < i + 2 ^ k) = Finset.Ico i (i + 2 ^ k) := by
    ext f
    simp only [Finset.mem_filter, Finset.mem_range, Finset.mem_Ico]
    omega
  simp [cover, Finset.sum_boole, this]

/-- A block is its two halves. -/
theorem cover_succ (k i f : Nat) : cover (k + 1) i f = cover k i f + cover k (i + 2 ^ k) f := by
  have hpow : 2 ^ (k + 1) = 2 ^ k + 2 ^ k := by rw [Nat.pow_succ]; omega
  unfold cover
  split <;> split <;> split <;> omega

/-! ## The other half of the block one order up -/

theorem xor_two_pow {k i : Nat} (h : 2 ^ k ∣ i) :
    i ^^^ 2 ^ k = if 2 ^ (k + 1) ∣ i then i + 2 ^ k else i - 2 ^ k := by
  obtain ⟨q, rfl⟩ := h
  have shift : 2 ^ k * q ^^^ 2 ^ k = 2 ^ k * (q ^^^ 1) := by
    have := Nat.shiftLeft_xor_distrib (a := q) (b := 1) (i := k)
    simp only [Nat.shiftLeft_eq, Nat.one_mul] at this
    rw [Nat.mul_comm, ← this, Nat.mul_comm]
  have hdvd : 2 ^ (k + 1) ∣ 2 ^ k * q ↔ 2 ∣ q := by
    rw [Nat.pow_succ]
    exact Nat.mul_dvd_mul_iff_left (Nat.two_pow_pos k)
  rw [shift]
  by_cases even : 2 ∣ q
  · rw [if_pos (hdvd.mpr even), Nat.xor_one_of_even (even_iff_two_dvd.mpr even), Nat.mul_add,
      Nat.mul_one]
  · rw [if_neg fun h => even (hdvd.mp h), Nat.xor_one_of_odd
      (Nat.not_even_iff_odd.mp fun h => even (even_iff_two_dvd.mp h)), Nat.mul_sub, Nat.mul_one]

theorem half_of_not_dvd {k i : Nat} (h : 2 ^ k ∣ i) (odd : ¬ 2 ^ (k + 1) ∣ i) :
    2 ^ k ≤ i ∧ 2 ^ (k + 1) ∣ i - 2 ^ k := by
  obtain ⟨q, rfl⟩ := h
  have hq : q % 2 = 1 := by
    rcases Nat.mod_two_eq_zero_or_one q with hz | ho
    · refine absurd ?_ odd
      rw [Nat.pow_succ]
      exact Nat.mul_dvd_mul_left _ (Nat.dvd_of_mod_eq_zero hz)
    · exact ho
  constructor
  · exact Nat.le_mul_of_pos_right _ (by omega)
  · refine ⟨q / 2, ?_⟩
    have : q = 2 * (q / 2) + 1 := by omega
    rw [Nat.pow_succ]
    conv_lhs => rw [this]
    rw [Nat.mul_add, Nat.mul_one, Nat.add_sub_cancel, Nat.mul_assoc]

/-- Joining a block with its other half gives the block one order up. -/
theorem join {k i : Nat} (h : 2 ^ k ∣ i) :
    2 ^ (k + 1) ∣ min i (i ^^^ 2 ^ k) ∧ 2 ^ k ∣ i ^^^ 2 ^ k ∧
    min i (i ^^^ 2 ^ k) + 2 ^ (k + 1) = max i (i ^^^ 2 ^ k) + 2 ^ k ∧
    ∀ f, cover (k + 1) (min i (i ^^^ 2 ^ k)) f = cover k i f + cover k (i ^^^ 2 ^ k) f := by
  have hpow : 2 ^ (k + 1) = 2 ^ k + 2 ^ k := by rw [Nat.pow_succ]; omega
  have hpos := Nat.two_pow_pos k
  rw [xor_two_pow h]
  by_cases even : 2 ^ (k + 1) ∣ i
  · simp only [even, if_true]
    rw [Nat.min_eq_left (by omega), Nat.max_eq_right (by omega)]
    exact ⟨even, Nat.dvd_add h (Nat.dvd_refl _), by omega, cover_succ k i⟩
  · obtain ⟨hle, hdvd⟩ := half_of_not_dvd h even
    simp only [even, if_false]
    rw [Nat.min_eq_right (by omega), Nat.max_eq_left (by omega)]
    refine ⟨hdvd, Nat.dvd_sub h (Nat.dvd_refl _), by omega, fun f => ?_⟩
    rw [cover_succ, Nat.sub_add_cancel hle, Nat.add_comm]

/-! ## Families of blocks -/

def blocksOver (k : Nat) (xs : List Nat) (f : Nat) : Nat := (xs.map fun i => cover k i f).sum

@[simp] theorem blocksOver_cons (k x : Nat) (xs : List Nat) (f : Nat) :
    blocksOver k (x :: xs) f = cover k x f + blocksOver k xs f := by simp [blocksOver]

theorem blocksOver_erase {k x : Nat} {xs : List Nat} (h : x ∈ xs) (f : Nat) :
    cover k x f + blocksOver k (xs.erase x) f = blocksOver k xs f := by
  have := ((List.perm_cons_erase h).map fun i => cover k i f).sum_eq
  simpa [blocksOver] using this.symm

theorem cover_le_blocksOver {k x : Nat} {xs : List Nat} (h : x ∈ xs) (f : Nat) :
    cover k x f ≤ blocksOver k xs f := by
  rw [← blocksOver_erase h f]; omega

theorem exists_of_blocksOver_pos {k : Nat} {xs : List Nat} {f : Nat} (h : 0 < blocksOver k xs f) :
    ∃ x ∈ xs, x ≤ f ∧ f < x + 2 ^ k := by
  induction xs with
  | nil => simp [blocksOver] at h
  | cons y ys ih =>
    rw [blocksOver_cons] at h
    by_cases hy : 0 < cover k y f
    · exact ⟨y, List.mem_cons_self, cover_pos hy⟩
    · obtain ⟨x, hx, range⟩ := ih (by omega)
      exact ⟨x, List.mem_cons_of_mem _ hx, range⟩

/-- How many blocks of the first `n` orders lie over the point `f`. -/
def coverage (n : Nat) (L : Nat → List Nat) (f : Nat) : Nat :=
  ∑ k ∈ Finset.range n, blocksOver k (L k) f

variable {n k j x f : Nat} {L : Nat → List Nat}

theorem coverage_split (hk : k < n) (ys : List Nat) (f : Nat) :
    coverage n (Function.update L k ys) f + blocksOver k (L k) f =
      coverage n L f + blocksOver k ys f := by
  have hmem : k ∈ Finset.range n := Finset.mem_range.mpr hk
  have same : ∑ j ∈ (Finset.range n).erase k, blocksOver j (Function.update L k ys j) f =
      ∑ j ∈ (Finset.range n).erase k, blocksOver j (L j) f := by
    apply Finset.sum_congr rfl
    intro j hj
    rw [Function.update_of_ne (Finset.ne_of_mem_erase hj)]
  unfold coverage
  rw [← Finset.add_sum_erase _ _ hmem, ← Finset.add_sum_erase (Finset.range n)
    (fun j => blocksOver j (L j) f) hmem, same, Function.update_self]
  omega

theorem coverage_push (hk : k < n) (x f : Nat) :
    coverage n (Function.update L k (x :: L k)) f = coverage n L f + cover k x f := by
  have := coverage_split (L := L) hk (x :: L k) f
  rw [blocksOver_cons] at this
  omega

theorem coverage_erase (hk : k < n) (hx : x ∈ L k) (f : Nat) :
    coverage n (Function.update L k ((L k).erase x)) f + cover k x f = coverage n L f := by
  have := coverage_split (L := L) hk ((L k).erase x) f
  have := blocksOver_erase (k := k) hx f
  omega

theorem blocksOver_le_coverage (hk : k < n) : blocksOver k (L k) f ≤ coverage n L f :=
  Finset.single_le_sum (f := fun j => blocksOver j (L j) f) (fun _ _ => Nat.zero_le _)
    (Finset.mem_range.mpr hk)

theorem cover_le_coverage (hk : k < n) (hx : x ∈ L k) : cover k x f ≤ coverage n L f :=
  Nat.le_trans (cover_le_blocksOver hx f) (blocksOver_le_coverage hk)

theorem blocksOver_add_le (hk : k < n) (hj : j < n) (ne : j ≠ k) :
    blocksOver j (L j) f + blocksOver k (L k) f ≤ coverage n L f := by
  have hmem : k ∈ (Finset.range n).erase j :=
    Finset.mem_erase.mpr ⟨ne.symm, Finset.mem_range.mpr hk⟩
  have rest := Finset.single_le_sum (f := fun i => blocksOver i (L i) f)
    (fun _ _ => Nat.zero_le _) hmem
  unfold coverage
  rw [← Finset.add_sum_erase _ _ (Finset.mem_range.mpr hj)]
  omega

theorem exists_of_coverage_pos (h : 0 < coverage n L f) :
    ∃ k, k < n ∧ ∃ x ∈ L k, x ≤ f ∧ f < x + 2 ^ k := by
  obtain ⟨k, hk, hpos⟩ := Finset.exists_ne_zero_of_sum_ne_zero (Nat.pos_iff_ne_zero.mp h)
  exact ⟨k, Finset.mem_range.mp hk, exists_of_blocksOver_pos (Nat.pos_iff_ne_zero.mpr hpos)⟩

/-- A point that is not covered twice lies in one block. -/
theorem block_unique {y : Nat} (h : coverage n L f ≤ 1) (hj : j < n) (hk : k < n) (hx : x ∈ L j)
    (hy : y ∈ L k) (hxf : cover j x f = 1) (hyf : cover k y f = 1) : j = k ∧ x = y := by
  have hcy := cover_le_blocksOver (k := k) hy f
  have hjk : j = k := by
    by_contra ne
    have hsum := blocksOver_add_le (L := L) (f := f) hk hj ne
    have hcx := cover_le_blocksOver (k := j) hx f
    omega
  subst hjk
  refine ⟨rfl, ?_⟩
  by_contra ne
  have htwo := blocksOver_erase (k := j) hx f
  have hrest := cover_le_blocksOver (k := j) ((List.mem_erase_of_ne (Ne.symm ne)).mpr hy) f
  have hall := blocksOver_le_coverage (L := L) (f := f) hj
  omega

theorem nodup_of_coverage (h : ∀ f, coverage n L f ≤ 1) (hk : k < n) : (L k).Nodup := by
  rw [List.nodup_iff_count_le_one]
  intro x
  by_contra hcount
  have hmem : x ∈ L k := List.count_pos_iff.mp (by omega)
  have hmem' : x ∈ (L k).erase x := List.count_pos_iff.mp (by rw [List.count_erase_self]; omega)
  have hone := cover_le_blocksOver (k := k) hmem' x
  have htwo := blocksOver_erase (k := k) hmem x
  have hall := Nat.le_trans (blocksOver_le_coverage (L := L) (f := x) hk) (h x)
  simp only [cover_self] at hone htwo
  omega

end AlexOS.Blocks
