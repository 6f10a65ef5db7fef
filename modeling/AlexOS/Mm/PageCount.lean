import AlexOS.Mm.PageOps
import Mathlib.Data.Finset.Union

/-!
# What a mapping costs

The tables a page still needs, and that `map` succeeds on an unmapped page
exactly when the allocator has a frame left for each of them.
-/

namespace AlexOS

open Bytes

/-- The interior tables on the way to a page. -/
def tablesOf (v : Nat) : Finset (List Nat) := {leafPath v, (leafPath v).tail}

/-- The tables that mapping the pages `vs` has to make. -/
def missing (m : Mem) (root : Nat) (vs : List Nat) : Finset (List Nat) :=
  (vs.toFinset.biUnion tablesOf).filter fun p => node m root p = none

theorem mem_missing {m : Mem} {root : Nat} {vs : List Nat} {p : List Nat} :
    p ∈ missing m root vs ↔ (∃ v ∈ vs, p ∈ tablesOf v) ∧ node m root p = none := by
  simp [missing]

@[simp] theorem missing_nil (m : Mem) (root : Nat) : missing m root [] = ∅ := rfl

theorem missing_mono (m : Mem) (root : Nat) {vs ws : List Nat} (h : vs ⊆ ws) :
    missing m root vs ⊆ missing m root ws := by
  intro p hp
  obtain ⟨⟨v, hv, hpv⟩, hnone⟩ := mem_missing.mp hp
  exact mem_missing.mpr ⟨⟨v, h hv, hpv⟩, hnone⟩

theorem tablesOf_owned {n v : Nat} {p : List Nat} (hn : n ≤ 512) (hv : v < pages n)
    (hp : p ∈ tablesOf v) : Owned n p := by
  have hleaf := leafPath_owned hn hv
  rcases Finset.mem_insert.mp hp with rfl | hp
  · exact hleaf
  · rw [Finset.mem_singleton.mp hp]
    exact hleaf.tail

theorem Tree.missing_kept {m m' : Mem} {root n : Nat} {frames : Multiset Frame} {vs : List Nat}
    (t : Tree n m root frames) (kept : Kept frames m m') (hvs : ∀ v ∈ vs, v < pages n) :
    missing m' root vs = missing m root vs := by
  ext p
  simp only [mem_missing]
  refine and_congr_right fun ⟨v, hv, hp⟩ => ?_
  rw [t.node_kept kept (tablesOf_owned t.width (hvs v hv) hp)]

/-- With no table but the root, all of them are missing. -/
theorem missing_empty {m : Mem} {root n : Nat} {vs : List Nat} (hn : n ≤ 512)
    (empty : ∀ i p, Owned n (i :: p) → node m root (i :: p) = none) (hvs : ∀ v ∈ vs, v < pages n) :
    missing m root vs = vs.toFinset.biUnion tablesOf := by
  refine Finset.filter_true_of_mem fun p hp => ?_
  obtain ⟨v, hv, hp⟩ := Finset.mem_biUnion.mp hp
  have howned := tablesOf_owned hn (hvs v (List.mem_toFinset.mp hv)) hp
  rcases Finset.mem_insert.mp hp with rfl | hp
  · exact empty _ _ howned
  · obtain rfl := Finset.mem_singleton.mp hp
    exact empty _ _ howned

/-- Frames it takes to have a table at the end of a path. -/
def tableCost (m : Mem) (root : Nat) (p : List Nat) : Nat := if node m root p = none then 1 else 0

theorem card_missing (m : Mem) (root v : Nat) : (missing m root [v]).card =
    tableCost m root (leafPath v).tail + tableCost m root (leafPath v) := by
  have hne : leafPath v ≠ (leafPath v).tail := fun e => by
    simpa [leafPath] using congrArg List.length e
  have hset : missing m root [v] =
      ({leafPath v, (leafPath v).tail} : Finset (List Nat)).filter fun p =>
        node m root p = none := by
    simp [missing, tablesOf]
  rw [hset, Finset.filter_insert, Finset.filter_singleton, tableCost, tableCost]
  split <;> split <;> simp [hne]

theorem card_missing_le (m : Mem) (root v : Nat) : (missing m root [v]).card ≤ 2 := by
  rw [card_missing, tableCost, tableCost]
  split <;> split <;> omega

/-- Once the tables of some pages are made, the others need only theirs. -/
theorem card_missing_append {m m' : Mem} {root n : Nat} {us vs : List Nat} (hn : n ≤ 512)
    (hvs : ∀ w ∈ vs, w < pages n)
    (made : ∀ p, Owned n p →
      (node m' root p = none ↔ node m root p = none ∧ ∀ u ∈ us, p ∉ tablesOf u)) :
    (missing m root (us ++ vs)).card = (missing m root us).card + (missing m' root vs).card := by
  have split : missing m root (us ++ vs) = missing m root us ∪ missing m' root vs := by
    ext p
    simp only [Finset.mem_union, mem_missing, List.mem_append]
    constructor
    · rintro ⟨⟨w, hw | hw, hp⟩, hnone⟩
      · exact .inl ⟨⟨w, hw, hp⟩, hnone⟩
      · by_cases hu : ∃ u ∈ us, p ∈ tablesOf u
        · exact .inl ⟨hu, hnone⟩
        · refine .inr ⟨⟨w, hw, hp⟩, (made p (tablesOf_owned hn (hvs w hw) hp)).mpr ⟨hnone, ?_⟩⟩
          exact fun u hmem hpu => hu ⟨u, hmem, hpu⟩
    · rintro (⟨⟨u, hu, hp⟩, hnone⟩ | ⟨⟨w, hw, hp⟩, hnone⟩)
      · exact ⟨⟨u, .inl hu, hp⟩, hnone⟩
      · exact ⟨⟨w, .inr hw, hp⟩, ((made p (tablesOf_owned hn (hvs w hw) hp)).mp hnone).1⟩
  rw [split, Finset.card_union_of_disjoint]
  rw [Finset.disjoint_left]
  intro p hp hp'
  obtain ⟨⟨w, hw, hpw⟩, hnone⟩ := mem_missing.mp hp'
  obtain ⟨⟨u, hu, hpu⟩, -⟩ := mem_missing.mp hp
  exact ((made p (tablesOf_owned hn (hvs w hw) hpw)).mp hnone).2 u hu hpu

namespace PageTable

variable {σ : Type} {A : CountedAllocator σ} {n : Nat} {s s' : Phys σ} {t : PageTable}
  {rest : Multiset Frame}

theorem avail_eq_zero (h : A.Holds s rest) (heq : A.allocOrder s 0 = (none, s')) :
    A.avail s = 0 := by
  by_contra hne
  have := A.alloc_isSome h (Nat.pos_of_ne_zero hne)
  rw [heq] at this
  cases this

/-- A missing table costs one frame, and that is all it takes. -/
theorem descend_counted (h : Ok A.toFrameAllocator n s t rest) {p : List Nat} {q i : Nat}
    (hp : Owned n (i :: p)) (hq : node s.mem t.root p = some q) :
    (A.avail s < tableCost s.mem t.root (i :: p) ∧
      descend A.toFrameAllocator s t q i = (none, s, t)) ∨
    ∃ q' s' t', descend A.toFrameAllocator s t q i = (some q', s', t') ∧
      Extends A.toFrameAllocator n rest s t s' t' ∧ node s'.mem t.root (i :: p) = some q' ∧
      (∀ p', Owned n p' →
        (node s'.mem t.root p' = none ↔ node s.mem t.root p' = none ∧ p' ≠ i :: p)) ∧
      A.avail s' + tableCost s.mem t.root (i :: p) = A.avail s := by
  rcases descend_cases h hp hq with
    ⟨q', hq', heq⟩ | ⟨hnone, halloc, heq⟩ |
      ⟨hnone, f, s₁, s', t', halloc, rfl, holds, heq, ext, hnode⟩
  · refine .inr ⟨q', s, t, heq, .refl h, hq', fun p' _ => ?_, by simp [tableCost, hq']⟩
    refine ⟨fun hn => ⟨hn, ?_⟩, And.left⟩
    rintro rfl
    rw [hq'] at hn
    cases hn
  · refine .inl ⟨?_, heq⟩
    rw [avail_eq_zero h.holds halloc, tableCost, if_pos hnone]
    exact Nat.one_pos
  · refine .inr ⟨f.ppn, _, t', heq, ext, by rw [hnode _ hp, if_pos rfl], fun p' hp' => ?_, ?_⟩
    · rw [hnode p' hp']
      by_cases e : p' = i :: p
      · simp [e]
      · simp [e]
    · obtain ⟨order, -, -, -⟩ := A.alloc_some h.holds halloc
      have hcount := A.alloc_avail h.holds halloc
      have hsame : A.avail { s₁ with mem := linked s₁.mem q i f } = A.avail s₁ := by
        refine A.write_avail holds fun a ha => ?_
        refine write_slot_outside (hp.index_lt h.tree.width) fun e => ?_
        have := frame_held (h.tree.held p q hp.tail hq) e
        rw [framesOver_cons, framesOver_add] at ha
        omega
      rw [hsame, tableCost, if_pos hnone]
      simpa [Frame.count, order] using hcount

theorem walkCreateTo_counted (h : Ok A.toFrameAllocator n s t rest) {v : Nat} (hv : v < pages n) :
    (A.avail s < (missing s.mem t.root [v]).card ∧ ∃ s' t',
      walkCreateTo A.toFrameAllocator s t v (sv39Levels - 1) = (none, s', t')) ∨
    ∃ q s' t', walkCreateTo A.toFrameAllocator s t v (sv39Levels - 1) =
        (some (slot q (v % 512)), s', t') ∧ Extends A.toFrameAllocator n rest s t s' t' ∧
      node s'.mem t.root (leafPath v) = some q ∧
      (∀ p, Owned n p →
        (node s'.mem t.root p = none ↔ node s.mem t.root p = none ∧ p ∉ tablesOf v)) ∧
      A.avail s' + (missing s.mem t.root [v]).card = A.avail s := by
  have hp := leafPath_owned h.tree.width hv
  rw [walkCreateTo_leaf, card_missing]
  rcases descend_counted h (p := []) hp.tail rfl with
    ⟨low, heq⟩ | ⟨q₁, s₁, t₁, heq, ext₁, hq₁, made₁, cost₁⟩
  · exact .inl ⟨Nat.lt_of_lt_of_le low (Nat.le_add_right _ _), s, t, by rw [heq]⟩
  have same : tableCost s₁.mem t₁.root (leafPath v) = tableCost s.mem t.root (leafPath v) := by
    have hlast : leafPath v ≠ (leafPath v).tail := fun e => by
      simpa [leafPath] using congrArg List.length e
    simp only [tableCost, ext₁.root, made₁ _ hp]
    exact if_congr (and_iff_left hlast) rfl rfl
  have hroot := ext₁.root
  rw [← hroot] at hq₁
  rcases descend_counted ext₁.ok hp hq₁ with ⟨low, heq'⟩ |
    ⟨q₂, s₂, t₂, heq', ext₂, hq₂, made₂, cost₂⟩
  · refine .inl ⟨?_, s₁, t₁, by simp only [heq, heq']⟩
    have low : A.avail s₁ < tableCost s₁.mem t₁.root (leafPath v) := low
    have cost₁ : A.avail s₁ + tableCost s.mem t.root (leafPath v).tail = A.avail s := cost₁
    omega
  · refine .inr ⟨q₂, s₂, t₂, by simp only [heq, heq'], ext₁.trans ext₂, by rw [← hroot]; exact hq₂,
      fun p hp' => ?_, ?_⟩
    · rw [← hroot, made₂ p hp', hroot, made₁ p hp']
      simp only [tablesOf, leafPath, List.tail_cons, Finset.mem_insert,
        Finset.mem_singleton, not_or]
      tauto
    · have cost₁ : A.avail s₁ + tableCost s.mem t.root (leafPath v).tail = A.avail s := cost₁
      have cost₂ : A.avail s₂ + tableCost s₁.mem t₁.root (leafPath v) = A.avail s₁ := cost₂
      omega

/-- An unmapped page is mapped exactly when each missing table has its frame. -/
theorem map_counted (h : Ok A.toFrameAllocator n s t rest) {v p f : Nat} (hv : v < pages n)
    (hp : p < 2 ^ 44) (hf : f < 2 ^ 10) (unmapped : Pte.isValid (leaf s.mem t.root v) = false) :
    (A.avail s < (missing s.mem t.root [v]).card ∧ ∃ s' t',
      map A.toFrameAllocator s t v p f = (.error .outOfMemory, s', t')) ∨
    ∃ s' t', map A.toFrameAllocator s t v p f = (.ok (), s', t') ∧
      (∀ p, Owned n p →
        (node s'.mem t.root p = none ↔ node s.mem t.root p = none ∧ p ∉ tablesOf v)) ∧
      A.avail s' + (missing s.mem t.root [v]).card = A.avail s := by
  rcases walkCreateTo_counted h hv with ⟨low, s', t', heq⟩ | ⟨q, s', t', heq, ext, hq, made, cost⟩
  · exact .inl ⟨low, s', t', by rw [map, mapAt, heq]⟩
  have hi : v % 512 < 512 := Nat.mod_lt v (by decide)
  have hpath := leafPath_owned h.tree.width hv
  rw [← ext.root] at hq
  have hleaf : Pte.isValid (read64 s'.mem (slot q (v % 512))) = false := by
    rw [read_slot hq, ext.root, ext.leaf v hv]
    exact unmapped
  refine .inr
    ⟨{ s' with mem := write64 s'.mem (slot q (v % 512)) (Pte.new p (PteFlags.present f)) },
      t', ?_, ?_, ?_⟩
  · rw [map, mapAt, heq]
    simp only [hleaf, Bool.false_eq_true, if_false]
  · intro p' hp'
    have hx := Pte.new_lt hp (PteFlags.present_lt hf)
    rw [← ext.root, ext.ok.tree.node_write hpath rfl hq hi (by omega) hp', ext.root]
    exact made p' hp'
  · rw [A.write_avail ext.ok.holds, cost]
    intro a ha
    refine write_slot_outside hi fun e => ?_
    have := frame_held (ext.ok.tree.held _ q hpath hq) e
    rw [framesOver_add] at ha
    omega

end PageTable

end AlexOS
