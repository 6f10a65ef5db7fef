import AlexOS.Mm.KernelSpace
import AlexOS.Mm.Trie

/-!
# Mapping a region and taking it out again

`Region::map_into` lays words into entries that had none: one for each page, or one for
a whole 2 MiB block of a linear region. What a walk finds then depends on the region and
not on the sizes of its leaves. `Region::unmap_from` goes through the pages one by one
and clears words in last tables only.
-/

namespace AlexOS

open Bytes PageTable

theorem slotTable_ne {u v j k : Nat} (hj : j ≤ 3) (hk : k ≤ 3) (hne : j ≠ k) :
    slotTable u j ≠ slotTable v k := by
  intro same
  have hlen := congrArg List.length same
  rw [slotTable_length, slotTable_length] at hlen
  omega

/-- The page numbers of canonical addresses. -/
def CanonicalPage (v : Nat) : Prop := v < 2 ^ 26 ∨ mapBase ≤ v ∧ v < 2 ^ 52

theorem canonical_page {va : Nat} (h : Sv39.Canonical va) : CanonicalPage (pageNum va) := by
  have hbase : mapBase = 2 ^ 52 - 2 ^ 26 := rfl
  simp only [CanonicalPage, Sv39.Canonical, pageNum, pageSize] at h ⊢
  omega

theorem slot_page_inj {u v : Nat} (hu : CanonicalPage u) (hv : mapBase ≤ v) (hv' : v < 2 ^ 52)
    (same : slotTable u 3 = slotTable v 3) : u = v := by
  have hbase : mapBase = 2 ^ 52 - 2 ^ 26 := rfl
  have := (LeafRun.slotTable_eq_iff (show 2 < 3 by decide)).mp same
  simp only [levelPages, sv39Levels] at this
  simp only [CanonicalPage] at hu
  omega

theorem slot_block_inj {u v : Nat} (hu : CanonicalPage u) (hv : mapBase ≤ v) (hv' : v < 2 ^ 52)
    (same : slotTable u 2 = slotTable v 2) : u / 512 = v / 512 := by
  have hbase : mapBase = 2 ^ 52 - 2 ^ 26 := rfl
  have := (LeafRun.slotTable_eq_iff (show 1 < 3 by decide)).mp same
  simp only [levelPages, sv39Levels] at this
  simp only [CanonicalPage] at hu
  omega

/-! ## Words in empty entries -/

/-- A word `map_into` may write for page `v`. -/
def RegionWord (perm : Nat) (linear : Prop) (v w : Nat) : Prop :=
  ∃ ppn, w = Pte.new ppn (PteFlags.present perm) ∧ (linear → ppn = v - mapBase)

/-- The words there are when a region that ends at `e` is mapped from `a` up to `v`. -/
inductive Laid (perm : Nat) (linear big : Prop) (old : List Nat → Option Nat) (a e : Nat) :
    Nat → (List Nat → Option Nat) → Prop
  | start : Laid perm linear big old a e a old
  | page {v w : Nat} {leaves : List Nat → Option Nat} : Laid perm linear big old a e v leaves →
      v < e → (big → v % 512 = 0 → e < v + 512) → RegionWord perm linear v w →
      leaves (slotTable v 3) = none →
      Laid perm linear big old a e (v + 1) (Function.update leaves (slotTable v 3) (some w))
  | block {v w : Nat} {leaves : List Nat → Option Nat} : Laid perm linear big old a e v leaves →
      big → v % 512 = 0 → v + 512 ≤ e → RegionWord perm linear v w →
      leaves (slotTable v 2) = none →
      Laid perm linear big old a e (v + 512) (Function.update leaves (slotTable v 2) (some w))

/-- No word is in the way of a page between `a` and `e`. -/
def Unmapped (leaves : List Nat → Option Nat) (a e : Nat) : Prop :=
  ∀ u, a ≤ u → u < e → ∀ k < 3, leaves (slotTable u (k + 1)) = none

namespace Laid

variable {perm : Nat} {linear big : Prop} {old leaves : List Nat → Option Nat} {a e v : Nat}
  {x : List Nat}

theorem le (h : Laid perm linear big old a e v leaves) : a ≤ v := by
  induction h with
  | start => exact Nat.le_refl a
  | page _ _ _ _ _ ih => omega
  | block _ _ _ _ _ _ ih => omega

theorem changed (h : Laid perm linear big old a e v leaves) (hx : leaves x ≠ old x) :
    (∃ u, a ≤ u ∧ u < v ∧ x = slotTable u 3) ∨
      (big ∧ ∃ u, a ≤ u ∧ u % 512 = 0 ∧ u + 512 ≤ v ∧ u + 512 ≤ e ∧ x = slotTable u 2) := by
  induction h with
  | start => exact absurd rfl hx
  | @page v w leaves before hv _ _ _ ih =>
    by_cases hself : x = slotTable v 3
    · exact .inl ⟨v, before.le, by omega, hself⟩
    · rw [Function.update_of_ne hself] at hx
      rcases ih hx with ⟨u, lo, hi, hu⟩ | ⟨hbig, u, lo, hu, hi, hi', hx⟩
      · exact .inl ⟨u, lo, by omega, hu⟩
      · exact .inr ⟨hbig, u, lo, hu, by omega, hi', hx⟩
  | @block v w leaves before hbig aligned hv _ _ ih =>
    by_cases hself : x = slotTable v 2
    · exact .inr ⟨hbig, v, before.le, aligned, by omega, hv, hself⟩
    · rw [Function.update_of_ne hself] at hx
      rcases ih hx with ⟨u, lo, hi, hu⟩ | ⟨hbig, u, lo, hu, hi, hi', hx⟩
      · exact .inl ⟨u, lo, by omega, hu⟩
      · exact .inr ⟨hbig, u, lo, hu, by omega, hi', hx⟩

theorem high (h : Laid perm linear big old a e v leaves) (u : Nat) :
    leaves (slotTable u 1) = old (slotTable u 1) := by
  by_contra hne
  rcases h.changed hne with ⟨w, -, -, hw⟩ | ⟨-, w, -, -, -, -, hw⟩
  · exact slotTable_ne (by decide) (by decide) (by decide) hw
  · exact slotTable_ne (by decide) (by decide) (by decide) hw

/-- A word that was laid stays. -/
theorem covered (h : Laid perm linear big old a e v leaves) {u : Nat} (lo : a ≤ u) (hi : u < v) :
    (∃ w, RegionWord perm linear u w ∧ leaves (slotTable u 3) = some w) ∨
    (big ∧ ∃ w, RegionWord perm linear (u / 512 * 512) w ∧
      leaves (slotTable (u / 512 * 512) 2) = some w) := by
  induction h with
  | start => omega
  | @page v w leaves before hv _ hw empty ih =>
    by_cases hlast : u = v
    · subst hlast
      exact .inl ⟨w, hw, Function.update_self _ _ _⟩
    · rcases ih (by omega) with ⟨w', hw', hleaf⟩ | ⟨hbig, w', hw', hleaf⟩
      · refine .inl ⟨w', hw', ?_⟩
        rw [Function.update_of_ne, hleaf]
        intro same
        rw [same, empty] at hleaf
        cases hleaf
      · refine .inr ⟨hbig, w', hw', ?_⟩
        rw [Function.update_of_ne (slotTable_ne (by decide) (by decide) (by decide)), hleaf]
  | @block v w leaves before hbig aligned hv hw empty ih =>
    by_cases hin : v ≤ u
    · have hblock : u / 512 * 512 = v := by omega
      rw [hblock]
      exact .inr ⟨hbig, w, hw, Function.update_self _ _ _⟩
    · rcases ih (by omega) with ⟨w', hw', hleaf⟩ | ⟨-, w', hw', hleaf⟩
      · refine .inl ⟨w', hw', ?_⟩
        rw [Function.update_of_ne (slotTable_ne (by decide) (by decide) (by decide)), hleaf]
      · refine .inr ⟨hbig, w', hw', ?_⟩
        rw [Function.update_of_ne, hleaf]
        intro same
        rw [same, empty] at hleaf
        cases hleaf

/-- Every whole block has a leaf of its own. -/
theorem blocks (h : Laid perm linear big old a e v leaves) (hbig : big) {u : Nat} (lo : a ≤ u)
    (aligned : u % 512 = 0) (fits : u + 512 ≤ e) (hi : u < v) :
    ∃ w, RegionWord perm linear u w ∧ leaves (slotTable u 2) = some w := by
  induction h with
  | start => omega
  | @page v w leaves before hv small hw empty ih =>
    have := small hbig
    obtain ⟨w', hw', hleaf⟩ := ih (by omega)
    refine ⟨w', hw', ?_⟩
    rw [Function.update_of_ne (slotTable_ne (by decide) (by decide) (by decide)), hleaf]
  | @block v w leaves before _ aligned' hv hw empty ih =>
    by_cases hlast : u = v
    · subst hlast
      exact ⟨w, hw, Function.update_self _ _ _⟩
    · obtain ⟨w', hw', hleaf⟩ := ih (by omega)
      refine ⟨w', hw', ?_⟩
      rw [Function.update_of_ne, hleaf]
      intro same
      rw [same, empty] at hleaf
      cases hleaf

section
variable (upper : big → mapBase ≤ a ∧ e ≤ 2 ^ 52) (free : Unmapped old a e)
include upper free

/-- No leaf is above a page that is not mapped yet. -/
theorem above (h : Laid perm linear big old a e v leaves) {u k : Nat} (lo : v ≤ u) (hi : u < e)
    (hk : k < 2) : leaves (slotTable u (k + 1)) = none := by
  have hle := h.le
  rw [← free u (by omega) hi k (by omega)]
  by_contra hne
  rcases h.changed hne with ⟨w, -, -, hw⟩ | ⟨hbig, w, hw, aligned, hend, -, hsame⟩
  · exact slotTable_ne (by omega) (by decide) (by omega) hw
  · obtain ⟨hbase, htop⟩ := upper hbig
    obtain rfl : k = 1 := by
      by_contra hk'
      exact slotTable_ne (by omega) (by decide) (by omega) hsame
    have := slot_block_inj (.inr ⟨by omega, by omega⟩) (by omega) (by omega) hsame
    omega

end

/-- A page of the upper half that is not mapped yet has an empty entry. -/
theorem empty (h : Laid perm linear big old a e v leaves) (free : Unmapped old a e)
    (hbase : mapBase ≤ a) (htop : e ≤ 2 ^ 52) {u : Nat} (lo : v ≤ u) (hi : u < e) :
    leaves (slotTable u 3) = none := by
  have hle := h.le
  rw [← free u (by omega) hi 2 (by decide)]
  by_contra hne
  rcases h.changed hne with ⟨w, hw, hend, hsame⟩ | ⟨-, w, -, -, -, -, hsame⟩
  · have := slot_page_inj (.inr ⟨by omega, by omega⟩) (by omega) (by omega) hsame
    omega
  · exact slotTable_ne (by decide) (by decide) (by decide) hsame

end Laid

/-! ## What a walk finds -/

theorem Trie.find_indices (leaves : List Nat → Option Nat) (u : Nat) :
    Trie.find leaves (indices u) [] =
      match leaves (slotTable u 1) with
      | some w => Sv39.verdict 2 w
      | none =>
        match leaves (slotTable u 2) with
        | some w => Sv39.verdict 1 w
        | none =>
          match leaves (slotTable u 3) with
          | some w => Sv39.verdict 0 w
          | none => .fault := rfl

theorem Unmapped.find {leaves : List Nat → Option Nat} {a e u : Nat} (h : Unmapped leaves a e)
    (lo : a ≤ u) (hi : u < e) : Trie.find leaves (indices u) [] = .fault := by
  rw [Trie.find_indices, h u lo hi 0 (by decide), h u lo hi 1 (by decide), h u lo hi 2 (by decide)]

section
variable {r : Trie} {perm a e : Nat} {big : Prop} {old : List Nat → Option Nat}

/-- The word the walk comes to on a page of a linear region. -/
theorem Laid.find_word (h : Laid perm True big old a e e r.leaves) (free : Unmapped old a e)
    {u : Nat} (lo : a ≤ u) (hi : u < e) : ∃ k ≤ 1, Trie.find r.leaves (indices u) [] =
      Sv39.verdict k (Pte.new (u / 512 ^ k * 512 ^ k - mapBase) (PteFlags.present perm)) := by
  have hhigh : r.leaves (slotTable u 1) = none := by
    rw [h.high u]
    exact free u lo hi 0 (by decide)
  rcases h.covered lo hi with ⟨w, ⟨ppn, rfl, hppn⟩, hleaf⟩ | ⟨-, w, ⟨ppn, rfl, hppn⟩, hleaf⟩
  · have hmid : r.leaves (slotTable u 2) = none := r.not_leaf (r.under hleaf).2
    rw [hppn trivial] at hleaf
    refine ⟨0, by decide, ?_⟩
    rw [Trie.find_indices, hhigh, hmid, hleaf]
    simp only [Nat.pow_zero, Nat.div_one, Nat.mul_one]
  · rw [hppn trivial] at hleaf
    have hsame : slotTable (u / 512 * 512) 2 = slotTable u 2 := by
      refine (LeafRun.slotTable_eq_iff (show 1 < 3 by decide)).mpr ?_
      simp only [levelPages, sv39Levels]
      omega
    rw [hsame] at hleaf
    refine ⟨1, Nat.le_refl 1, ?_⟩
    rw [Trie.find_indices, hhigh, hleaf, Nat.pow_one]

/-- Every page of a linear region is found at its distance from `VIRT_OFFSET`. -/
theorem Laid.find_inside (h : Laid perm True big old a e e r.leaves) (free : Unmapped old a e)
    (hbase : mapBase ≤ a) (htop : e ≤ 2 ^ 52) (legal : LegalFlags perm) {u : Nat} (lo : a ≤ u)
    (hi : u < e) : ∃ k ≤ 1, Trie.find r.leaves (indices u) [] =
      .leaf k (Pte.new ((u - mapBase) / 512 ^ k * 512 ^ k) (PteFlags.present perm)) := by
  have hnum : mapBase = 2 ^ 52 - 2 ^ 26 := rfl
  obtain ⟨k, hk, hfind⟩ := h.find_word free lo hi
  have hppn : u / 512 ^ k * 512 ^ k - mapBase = (u - mapBase) / 512 ^ k * 512 ^ k := by
    obtain rfl | rfl : k = 0 ∨ k = 1 := by omega
    all_goals omega
  rw [hppn] at hfind
  refine ⟨k, hk, hfind.trans (Sv39.verdict_leaf ?_ legal (Nat.mul_mod_left _ _))⟩
  exact Nat.lt_of_le_of_lt (Nat.div_mul_le_self _ _) (by omega)

/-- Every other page is found as before. -/
theorem Laid.find_outside {linear : Prop} {leaves : List Nat → Option Nat}
    (h : Laid perm linear big old a e e leaves) (hbase : mapBase ≤ a) (htop : e ≤ 2 ^ 52) {u : Nat}
    (hu : CanonicalPage u) (out : u < a ∨ e ≤ u) :
    Trie.find leaves (indices u) [] = Trie.find old (indices u) [] := by
  have hpage : leaves (slotTable u 3) = old (slotTable u 3) := by
    by_contra hne
    rcases h.changed hne with ⟨w, lo, hi, hw⟩ | ⟨-, w, -, -, -, -, hw⟩
    · have := slot_page_inj hu (by omega) (by omega) hw
      omega
    · exact slotTable_ne (by decide) (by decide) (by decide) hw
  have hblock : leaves (slotTable u 2) = old (slotTable u 2) := by
    by_contra hne
    rcases h.changed hne with ⟨w, -, -, hw⟩ | ⟨-, w, lo, aligned, hi, -, hw⟩
    · exact slotTable_ne (by decide) (by decide) (by decide) hw
    · have := slot_block_inj hu (by omega) (by omega) hw
      omega
  rw [Trie.find_indices, Trie.find_indices, h.high, hblock, hpage]

end

/-! ## The loop of `map_into` -/

/-- Frames are left for all tables of `need`. -/
structure Trie.Room {σ : Type} (B : CountedAllocator σ) (s : Phys σ) (r : Trie)
    (need : Finset (List Nat)) : Prop where
  within : r.tables ⊆ need
  enough : need.card ≤ B.avail s + r.tables.card

/-- A region is mapped into `t₀` up to page `v`. -/
structure Part {σ : Type} (B : CountedAllocator σ) (t₀ : PageTable) (tabs others : Multiset Frame)
    (r₀ : Trie) (perm : Nat) (linear big : Prop) (a e v : Nat) (s : Phys σ) (t : PageTable)
    (place : List Nat → Nat) (r : Trie) : Prop where
  table : ∃ new : List Frame, t = { t₀ with frames := t₀.frames ++ new } ∧
    Trie.Shows B.toFrameAllocator s t₀.root (new + tabs) others place r
  laid : Laid perm linear big r₀.leaves a e v r.leaves
  paths : ∀ x ∈ r.tables, x ∈ r₀.tables ∨
    ∃ u, a ≤ u ∧ u < v ∧ (x = slotTable u 1 ∨ x = slotTable u 2)

section
variable {σ : Type} {B : CountedAllocator σ} {s s' : Phys σ} {t t' t₀ : PageTable}
  {tabs others rest : Multiset Frame} {place : List Nat → Nat} {r r' r₀ : Trie}
  {perm a e v ppn : Nat} {linear big : Prop} {need : Finset (List Nat)}

theorem Trie.Room.next (h : Trie.Room B s r need)
    (paths : ∀ x ∈ r'.tables, x ∈ r.tables ∨ x ∈ need)
    (count : B.avail s' + r'.tables.card = B.avail s + r.tables.card) : Trie.Room B s' r' need := by
  refine ⟨fun x hx => (paths x hx).elim (fun hx => h.within hx) id, ?_⟩
  rw [count]
  exact h.enough

theorem Trie.Room.has (h : Trie.Room B s r need) {x : List Nat} (hx : x ∈ need)
    (full : B.avail s = 0) : x ∈ r.tables := by
  have hle := h.enough
  rw [full, Nat.zero_add] at hle
  rwa [Finset.eq_of_subset_of_card_le h.within hle]

/-- One more page, unless something is in its place or there is no frame for a table. -/
theorem Part.page (h : Part B t₀ tabs others r₀ perm linear big a e v s t place r) (ppn : Nat)
    (hv : v < e) (hsmall : big → v % 512 = 0 → e < v + 512) (hppn : linear → ppn = v - mapBase)
    (hperm : perm < 2 ^ 64)
    (above : ∀ k < 2, r.leaves (slotTable v (k + 1)) = none) :
    ∃ res s' t' place' r', PageTable.map B.toFrameAllocator s t v ppn perm = (res, s', t') ∧
      (res = .ok () → Part B t₀ tabs others r₀ perm linear big a e (v + 1) s' t' place' r') ∧
      ∀ need, Trie.Room B s r need → slotTable v 1 ∈ need → slotTable v 2 ∈ need →
        r.leaves (slotTable v 3) = none → res = .ok () ∧ Trie.Room B s' r' need := by
  obtain ⟨new, rfl, shows⟩ := h.table
  obtain ⟨res, s', new', place', r', heq, shows', -, paths, count, out⟩ :=
    shows.mapAt (t := { t₀ with frames := t₀.frames ++ new }) v ppn (Nat.le_refl 2) hperm
      (fun hle => absurd hle (by decide)) above
  have hpaths : ∀ x ∈ r'.tables, x ∈ r.tables ∨ x = slotTable v 1 ∨ x = slotTable v 2 := by
    intro x hx
    refine (paths x hx).imp_right ?_
    rintro ⟨k, hk, rfl⟩
    obtain rfl | rfl : k = 0 ∨ k = 1 := by omega
    · exact .inl rfl
    · exact .inr rfl
  have next : ∀ need, Trie.Room B s r need → slotTable v 1 ∈ need → slotTable v 2 ∈ need →
      Trie.Room B s' r' need := by
    intro need room hone htwo
    refine room.next (fun x hx => (hpaths x hx).imp_right ?_) count
    rintro (rfl | rfl)
    · exact hone
    · exact htwo
  refine ⟨res, s', _, place', r', heq, fun hok => ⟨⟨new ++ new', ?_, ?_⟩, ?_, fun x hx => ?_⟩,
    fun need room hone htwo hempty => ⟨?_, next need room hone htwo⟩⟩
  · rw [← List.append_assoc]
  · rw [← Multiset.coe_add, add_comm (new : Multiset Frame), add_assoc]
    exact shows'
  · subst hok
    cases out with
    | ok _ empty leaves =>
      rw [leaves]
      exact h.laid.page hv hsmall ⟨ppn, rfl, hppn⟩ empty
  · rcases hpaths x hx with hx | hx
    · exact (h.paths x hx).imp_right fun ⟨u, lo, hi, hu⟩ => ⟨u, lo, by omega, hu⟩
    · exact .inr ⟨v, h.laid.le, by omega, hx⟩
  · cases out with
    | ok => rfl
    | taken taken =>
      rcases taken with hin | hne
      · have := r.depth hin
        rw [slotTable_length] at this
        omega
      · exact absurd hempty hne
    | @full k hk missing full =>
      refine absurd ((next need room hone htwo).has ?_ full) missing
      obtain rfl | rfl : k = 0 ∨ k = 1 := by omega
      · exact hone
      · exact htwo

/-- One more block. -/
theorem Part.block (h : Part B t₀ tabs others r₀ perm linear big a e v s t place r)
    (hv : v + 512 ≤ e) (hbig : big) (aligned : v % 512 = 0) (hppn : linear → ppn = v - mapBase)
    (aligned' : ppn % 512 = 0) (hperm : perm < 2 ^ 64)
    (hleaf : PteFlags.intersects perm PteFlags.rwx = true)
    (above : r.leaves (slotTable v 1) = none) :
    ∃ res s' t' place' r',
      PageTable.mapAtLevel B.toFrameAllocator s t v ppn perm 1 = some (res, s', t') ∧
      (res = .ok () → Part B t₀ tabs others r₀ perm linear big a e (v + 512) s' t' place' r') ∧
      ∀ need, Trie.Room B s r need → slotTable v 1 ∈ need → slotTable v 2 ∉ r.tables →
        r.leaves (slotTable v 2) = none → res = .ok () ∧ Trie.Room B s' r' need := by
  obtain ⟨new, rfl, shows⟩ := h.table
  obtain ⟨res, s', new', place', r', heq, shows', -, paths, count, out⟩ :=
    shows.mapAt (t := { t₀ with frames := t₀.frames ++ new }) v ppn (show 1 ≤ 2 by decide) hperm
      (fun _ => hleaf) (fun k hk => by obtain rfl : k = 0 := by omega
                                       exact above)
  have hpaths : ∀ x ∈ r'.tables, x ∈ r.tables ∨ x = slotTable v 1 := by
    intro x hx
    refine (paths x hx).imp_right ?_
    rintro ⟨k, hk, rfl⟩
    obtain rfl : k = 0 := by omega
    rfl
  have next : ∀ need, Trie.Room B s r need → slotTable v 1 ∈ need → Trie.Room B s' r' need := by
    intro need room hone
    refine room.next (fun x hx => (hpaths x hx).imp_right ?_) count
    rintro rfl
    exact hone
  have hlevel : mapAtLevel B.toFrameAllocator s
      { t₀ with frames := t₀.frames ++ new } v ppn perm 1 =
      some (PageTable.mapAt B.toFrameAllocator s _ v ppn perm 1) :=
    if_pos ⟨by decide, aligned, aligned'⟩
  rw [heq] at hlevel
  refine ⟨res, s', _, place', r', hlevel, fun hok => ⟨⟨new ++ new', ?_, ?_⟩, ?_, fun x hx => ?_⟩,
    fun need room hone hclear hempty => ⟨?_, next need room hone⟩⟩
  · rw [← List.append_assoc]
  · rw [← Multiset.coe_add, add_comm (new : Multiset Frame), add_assoc]
    exact shows'
  · subst hok
    cases out with
    | ok _ empty leaves =>
      rw [leaves]
      exact h.laid.block hbig aligned hv ⟨ppn, rfl, hppn⟩ empty
  · rcases hpaths x hx with hx | hx
    · exact (h.paths x hx).imp_right fun ⟨u, lo, hi, hu⟩ => ⟨u, lo, by omega, hu⟩
    · exact .inr ⟨v, h.laid.le, by omega, .inl hx⟩
  · cases out with
    | ok => rfl
    | taken taken =>
      rcases taken with hin | hne
      · exact absurd hin hclear
      · exact absurd hempty hne
    | @full k hk missing full =>
      obtain rfl : k = 0 := by omega
      exact absurd ((next need room hone).has hone full) missing

end

end AlexOS
