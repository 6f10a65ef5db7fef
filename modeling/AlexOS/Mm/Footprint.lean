import AlexOS.Mm.PageOps

/-!
# Tables with superpages and a shared half

A table may hold 2 MiB leaves, and the upper entries of its root may be the
kernel's. It writes inside its own frames as long as every walk stays below the
root entries that are its own and never goes through a superpage.
-/

namespace AlexOS

open Bytes Blocks

/-- The first of `VirtPageNum::indices`. -/
def rootIndex (v : Nat) : Nat := v / 2 ^ 18 % 512

namespace PageTable

variable {σ : Type} {A : FrameAllocator σ} {n : Nat} {big : List (List Nat)} {s s' : Phys σ}
  {t t' : PageTable} {rest : Multiset Frame} {v ppn flags : Nat}

/-- Paths under the first `n` root entries that do not end at a superpage. -/
def Within (n : Nat) (big : List (List Nat)) (p : List Nat) : Prop := Owned n p ∧ p ∉ big

/-- The table's frames are held next to `rest`, among them every table that is
not under a superpage or under a root entry of somebody else. -/
structure Holding (A : FrameAllocator σ) (n : Nat) (big : List (List Nat)) (s : Phys σ)
    (t : PageTable) (rest : Multiset Frame) : Prop where
  width : n ≤ 512
  owns : Owns A (Within n big) s t rest
  superpage : ∀ p ∈ big, ∃ i j q, p = [i, j] ∧ Owned n [i, j] ∧ node s.mem t.root [j] = some q ∧
    Pte.isLeaf (entry s.mem q i) = true

/-- Nothing in `rest` changed, nor a root entry from `n` on. -/
structure Changed (n : Nat) (rest : Multiset Frame) (s : Phys σ) (t : PageTable) (s' : Phys σ)
    (t' : PageTable) : Prop where
  root : t'.root = t.root
  kept : Kept rest s.mem s'.mem
  upper : ∀ i, n ≤ i → i < 512 → entry s'.mem t.root i = entry s.mem t.root i

theorem Changed.refl (n : Nat) (rest : Multiset Frame) (s : Phys σ) (t : PageTable) :
    Changed n rest s t s t :=
  ⟨rfl, .refl _ _, fun _ _ _ => rfl⟩

theorem Changed.trans {s'' : Phys σ} {t'' : PageTable} (h : Changed n rest s t s' t')
    (h' : Changed n rest s' t' s'' t'') : Changed n rest s t s'' t'' :=
  ⟨h'.root.trans h.root, h.kept.trans h'.kept, fun i lo hi => by
    rw [← h.upper i lo hi, ← h.root, h'.upper i lo hi]⟩

theorem Changed.mono {rest' : Multiset Frame} (h : Changed n rest s t s' t') (sub : rest' ≤ rest) :
    Changed n rest' s t s' t' :=
  ⟨h.root, h.kept.mono sub, h.upper⟩

theorem within_paths (hn : n ≤ 512) (hbig : ∀ p ∈ big, p.length = 2) : Paths (Within n big) := by
  constructor
  · rintro i p ⟨hp, -⟩
    refine ⟨hp.tail, fun hmem => ?_⟩
    have hlen := hp.length_le
    have := hbig p hmem
    rw [List.length_cons] at hlen
    omega
  · rintro i p ⟨hp, -⟩
    exact hp.index_lt hn

theorem Holding.length (h : Holding A n big s t rest) : ∀ p ∈ big, p.length = 2 := by
  intro p hp
  obtain ⟨i, j, q, rfl, -⟩ := h.superpage p hp
  rfl

theorem Holding.short (h : Holding A n big s t rest) {p : List Nat} (hp : Owned n p)
    (hlen : p.length ≠ 2) : Within n big p :=
  ⟨hp, fun hmem => hlen (h.length p hmem)⟩

theorem Holding.root_within (h : Holding A n big s t rest) : Within n big [] :=
  h.short trivial (by decide)

theorem leafPath_within (hroot : rootIndex v < n) (clear : leafPath v ∉ big) :
    Within n big (leafPath v) :=
  ⟨⟨hroot, Nat.mod_lt _ (by decide)⟩, clear⟩

theorem slotTable_one (v : Nat) : slotTable v 1 = [rootIndex v] := by
  simp [slotTable, pathAfter, indices_eq, rootIndex]

theorem slotTable_two (v : Nat) : slotTable v 2 = leafPath v := by
  simp [slotTable, pathAfter, indices_eq, leafPath]

theorem slotIndex_one (v : Nat) : slotIndex v 1 :: slotTable v 1 = leafPath v := by
  rw [slotTable_one]
  simp [slotIndex, indices_eq, leafPath, rootIndex]

/-! ## One step -/

/-- What others do with their frames. -/
theorem Holding.kept (h : Holding A n big s t rest) {rest' : Multiset Frame}
    (holds : A.Holds s' (t.frames + rest')) (kept : Kept t.frames s.mem s'.mem) :
    Holding A n big s' t rest' := by
  refine ⟨h.width, ⟨holds, h.owns.tables.kept kept⟩, fun p hp => ?_⟩
  obtain ⟨i, j, q, rfl, owned, hq, hleaf⟩ := h.superpage p hp
  have hj := h.short owned.tail (by simp)
  refine ⟨i, j, q, rfl, owned, (h.owns.tables.node_kept kept hj).trans hq, ?_⟩
  rw [h.owns.tables.entry_kept kept hj hq (owned.index_lt h.width)]
  exact hleaf

theorem Holding.changed_kept (h : Holding A n big s t rest)
    (kept : Kept (t.frames + rest) s.mem s'.mem) :
    Changed n rest s t s' t :=
  ⟨rfl, kept.mono (Multiset.le_add_left _ _), fun _ _ hi =>
    h.owns.tables.entry_kept (kept.mono (Multiset.le_add_right _ _)) h.root_within rfl hi⟩

theorem Holding.alloc (h : Holding A n big s t rest) {k : Nat} {f : Frame}
    (heq : A.allocOrder s k = (some f, s')) :
    Holding A n big s' t (f ::ₘ rest) ∧ Changed n rest s t s' t := by
  obtain ⟨-, holds, kept, -⟩ := A.alloc_some h.owns.holds heq
  exact ⟨h.kept (by rw [Multiset.add_cons]; exact holds) (kept.mono (Multiset.le_add_right _ _)),
    h.changed_kept kept⟩

theorem Holding.free {f : Frame} (h : Holding A n big s t (f ::ₘ rest)) :
    ∃ s', A.free s f = some s' ∧ Holding A n big s' t rest ∧ Changed n rest s t s' t := by
  have holds := h.owns.holds
  rw [Multiset.add_cons] at holds
  obtain ⟨s', heq, holds', kept⟩ := A.free_some holds
  have keptT : Kept t.frames s.mem s'.mem := kept.mono (Multiset.le_add_right _ _)
  exact ⟨s', heq, h.kept holds' keptT, rfl, kept.mono (Multiset.le_add_left _ _), fun _ _ hi =>
    h.owns.tables.entry_kept keptT h.root_within rfl hi⟩

theorem Holding.grown (h : Holding A n big s t rest) (g : Grown A (Within n big) rest s t s' t') :
    Holding A n big s' t' rest ∧ Changed n rest s t s' t' := by
  refine ⟨⟨h.width, g.owns, fun p hp => ?_⟩, g.root, g.kept, fun i lo hi => ?_⟩
  · obtain ⟨i, j, q, rfl, owned, hq, hleaf⟩ := h.superpage p hp
    have hj := h.short owned.tail (by simp)
    refine ⟨i, j, q, rfl, owned, by rw [g.root]; exact g.nodes _ q hj hq, ?_⟩
    rw [g.entries _ q i hj hq (owned.index_lt h.width) fun w => w.2 hp]
    exact hleaf
  · exact g.entries [] t.root i h.root_within rfl hi fun w => Nat.not_lt.mpr lo w.1

/-- Writing a slot of a last table. -/
theorem Holding.write_leaf (h : Holding A n big s t rest) {p : List Nat} {q i x : Nat}
    (hp : Within n big p) (hlen : p.length = 2) (hq : node s.mem t.root p = some q) (hi : i < 512)
    (hx : x < 2 ^ 64) : Holding A n big { s with mem := write64 s.mem (slot q i) x } t rest ∧
      Changed n rest s t { s with mem := write64 s.mem (slot q i) x } t := by
  have tables := h.owns.tables
  have long : ∀ p', Within n big p' → ¬ (i :: p) <:+ p' := fun p' hp' hsuf => by
    have := hsuf.length_le
    have := hp'.1.length_le
    rw [List.length_cons] at *
    omega
  have apart : ∀ {p' : List Nat} {q' : Nat}, Within n big p' → p'.length ≠ 2 →
      node s.mem t.root p' = some q' → q' ≠ q := by
    rintro p' q' hp' hlen' hq' rfl
    rw [tables.inj p' p q' hp' hp hq' hq] at hlen'
    exact hlen' hlen
  obtain ⟨holds, kept⟩ := h.owns.write_slot (x := x) hp hq hi
  refine ⟨⟨h.width, ⟨holds, ?_⟩, fun p' hp' => ?_⟩, rfl, kept, fun j _ hj => ?_⟩
  · exact tables.write hp hq hi hx tables.paths fun p' hp' => ⟨hp', long p' hp'⟩
  · obtain ⟨i', j, q', rfl, owned, hq', hleaf⟩ := h.superpage p' hp'
    have hj := h.short owned.tail (by simp)
    refine ⟨i', j, q', rfl, owned, ?_, ?_⟩
    · exact (tables.node_write hp hq hi hx hj (long _ hj)).trans hq'
    · rw [entry_write hi (owned.index_lt h.width) hx,
        if_neg fun e => apart hj (by simp) hq' e.1]
      exact hleaf
  · rw [entry_write hi hj hx, if_neg fun e => apart h.root_within (by decide) rfl e.1]

/-! ## Mapping a page -/

theorem Holding.map (h : Holding A n big s t rest) (ppn : Nat) (hroot : rootIndex v < n)
    (clear : leafPath v ∉ big) (hflags : flags < 2 ^ 64) :
    ∃ res s' t', PageTable.map A s t v ppn flags = (res, s', t') ∧ Holding A n big s' t' rest ∧
      Changed n rest s t s' t' := by
  have hp := leafPath_within hroot clear
  have within : ∀ k, k ≤ sv39Levels - 1 → Within n big (slotTable v k) := by
    intro k hk
    obtain rfl | rfl | rfl : k = 0 ∨ k = 1 ∨ k = 2 := by
      simp only [sv39Levels] at hk
      omega
    · exact h.root_within
    · rw [slotTable_one]
      exact h.short hroot (by simp)
    · rw [slotTable_two]
      exact hp
  obtain ⟨r, s₁, t₁, -, grown, out⟩ := h.owns.mapAt ppn flags (by decide) within
  obtain ⟨h₁, changed₁⟩ := h.grown grown
  rcases out with ⟨-, -, heq⟩ | ⟨q, -, hq, -, ⟨-, heq⟩ | ⟨-, heq⟩⟩
  · exact ⟨_, s₁, t₁, heq, h₁, changed₁⟩
  · exact ⟨_, s₁, t₁, heq, h₁, changed₁⟩
  · rw [show slotTable v (sv39Levels - 1) = leafPath v from slotTable_two v, ← grown.root] at hq
    obtain ⟨h₂, changed₂⟩ := h₁.write_leaf hp rfl hq (slotIndex_lt v _)
      (Pte.new_lt_word ppn (PteFlags.present_lt_word hflags))
    exact ⟨_, _, t₁, heq, h₂, changed₁.trans changed₂⟩

theorem isLeaf_present (ppn : Nat) (hleaf : PteFlags.intersects flags PteFlags.rwx = true) :
    Pte.isLeaf (Pte.new ppn (PteFlags.present flags)) = true := by
  have mask : ∀ e, e &&& Pte.flagMask &&& PteFlags.rwx = e &&& PteFlags.rwx := fun e => by
    rw [Nat.land_assoc]
    rfl
  rw [Pte.isLeaf, Pte.isValid_present, Bool.true_and]
  simp only [PteFlags.intersects, bne_iff_ne, Pte.flags, mask, Pte.new, PteFlags.present,
    Nat.and_or_distrib_right, ne_eq, Nat.or_eq_zero_iff] at hleaf ⊢
  exact fun zero => hleaf zero.2.1.1.1

/-- A superpage either fails or is one more place where walks must not go. -/
theorem Holding.mapSuperpage (h : Holding A n big s t rest) (ppn : Nat) (hroot : rootIndex v < n)
    (hflags : flags < 2 ^ 64) (hleaf : PteFlags.intersects flags PteFlags.rwx = true) :
    ∃ res s' t', mapAt A s t v ppn flags 1 = (res, s', t') ∧ Changed n rest s t s' t' ∧
      Holding A n (match res with | .ok _ => leafPath v :: big | .error _ => big) s' t' rest := by
  have hp : Within n big [rootIndex v] := h.short hroot (by simp)
  have within : ∀ k, k ≤ 1 → Within n big (slotTable v k) := by
    intro k hk
    obtain rfl | rfl : k = 0 ∨ k = 1 := by omega
    · exact h.root_within
    · rw [slotTable_one]
      exact hp
  obtain ⟨r, s₁, t₁, -, grown, out⟩ := h.owns.mapAt ppn flags (by decide) within
  obtain ⟨h₁, changed₁⟩ := h.grown grown
  rcases out with ⟨-, -, heq⟩ | ⟨q, -, hq, -, ⟨-, heq⟩ | ⟨free, heq⟩⟩
  · exact ⟨_, s₁, t₁, heq, changed₁, h₁⟩
  · exact ⟨_, s₁, t₁, heq, changed₁, h₁⟩
  rw [slotTable_one, ← grown.root] at hq
  have tables := h₁.owns.tables
  have hi := slotIndex_lt v 1
  have hx := Pte.new_lt_word ppn (PteFlags.present_lt_word hflags)
  have hpath : slotIndex v 1 :: [rootIndex v] = leafPath v := by rw [← slotTable_one, slotIndex_one]
  obtain ⟨holds, kept⟩ := h₁.owns.write_slot (x := Pte.new ppn (PteFlags.present flags)) hp hq hi
  have long : ∀ p', p'.length ≤ 1 → ¬ (slotIndex v 1 :: [rootIndex v]) <:+ p' :=
      fun p' hlen hsuf => by
    have := hsuf.length_le
    simp only [List.length_cons, List.length_nil] at this
    omega
  have hsize : ∀ p ∈ leafPath v :: big, p.length = 2 := by
    rintro p (_ | ⟨_, hmem⟩)
    · rfl
    · exact h.length p hmem
  refine ⟨_, _, t₁, heq, changed₁.trans ⟨rfl, kept, fun i _ hi' => ?_⟩, h.width, ⟨holds, ?_⟩,
    fun p' hp' => ?_⟩
  · have hne : ¬ (t₁.root = q ∧ i = slotIndex v 1) := by
      rintro ⟨rfl, -⟩
      have := tables.inj [] _ _ h₁.root_within hp rfl hq
      cases this
    exact (entry_write hi hi' hx _).trans (if_neg hne)
  · refine tables.write hp hq hi hx (within_paths h.width hsize) ?_
    rintro p' ⟨owned, hnot⟩
    rw [List.mem_cons, not_or] at hnot
    refine ⟨⟨owned, hnot.2⟩, fun hsuf => hnot.1 ?_⟩
    rw [← hpath]
    exact (hsuf.eq_of_length_le owned.length_le).symm
  · have node_eq : ∀ j, j < n → node (leafAt s₁.mem q (slotIndex v 1) ppn flags) t₁.root [j] =
        node s₁.mem t₁.root [j] := fun j hj =>
      tables.node_write hp hq hi hx (h.short hj (by simp)) (long _ (Nat.le_refl 1))
    rcases List.mem_cons.mp hp' with rfl | hp'
    · refine ⟨slotIndex v 1, rootIndex v, q, hpath.symm, ⟨hroot, hi⟩,
        (node_eq _ hroot).trans hq, ?_⟩
      rw [leafAt, entry_write hi hi hx, if_pos ⟨rfl, rfl⟩]
      exact isLeaf_present ppn hleaf
    · obtain ⟨i, j, q', rfl, owned, hq', hleaf'⟩ := h₁.superpage p' hp'
      refine ⟨i, j, q', rfl, owned, (node_eq j owned.1).trans hq', ?_⟩
      have hne : ¬ (q' = q ∧ i = slotIndex v 1) := by
        rintro ⟨rfl, rfl⟩
        rw [Pte.isLeaf, free] at hleaf'
        cases hleaf'
      rw [leafAt, entry_write hi (owned.index_lt h.width) hx, if_neg hne]
      exact hleaf'

/-- `map` takes the frame a valid entry names for a table, whatever it is. -/
theorem map_through {q p : Nat} (ppn flags : Nat)
    (hq : node s.mem t.root [rootIndex v] = some q)
    (valid : Pte.isValid (entry s.mem q (v / 2 ^ 9 % 512)) = true)
    (hp : Pte.ppn (entry s.mem q (v / 2 ^ 9 % 512)) = p)
    (clear : Pte.isValid (entry s.mem p (v % 512)) = false) :
    PageTable.map A s t v ppn flags =
      (.ok (), { s with mem := leafAt s.mem p (v % 512) ppn flags }, t) := by
  obtain ⟨hroot, rfl⟩ : Pte.isValid (entry s.mem t.root (rootIndex v)) = true ∧
      Pte.ppn (entry s.mem t.root (rootIndex v)) = q := by
    simpa [node, tableBelow] using hq
  have hwalk : walkCreateTo A s t v (sv39Levels - 1) =
      (some (slot p (v % 512)), s, t) := by
    rw [walkCreateTo, indices_eq, ← rootIndex]
    generalize v / 2 ^ 9 % 512 = b at valid hp
    simp [walkFrom, descend, sv39Levels, hroot, valid, hp]
  have clear : Pte.isValid (read64 s.mem (slot p (v % 512))) = false := clear
  rw [PageTable.map, mapAt, hwalk]
  simp only [clear, Bool.false_eq_true, if_false]
  rfl

/-! ## Unmapping a page -/

/-- `walk_ptr` goes through tables only. -/
theorem walkPtrFrom_some {m : Mem} {root a b c x : Nat}
    (heq : walkPtrFrom m [a, b, c] 0 root = some x) :
    ∃ q₁ q, node m root [a] = some q₁ ∧ Pte.isLeaf (entry m q₁ b) = false ∧
      node m root [b, a] = some q ∧ x = slot q c := by
  obtain ⟨valid₁, -, valid₂, notLeaf, rfl⟩ : Pte.isValid (entry m root a) = true ∧
      Pte.isLeaf (entry m root a) = false ∧
      Pte.isValid (entry m (Pte.ppn (entry m root a)) b) = true ∧
      Pte.isLeaf (entry m (Pte.ppn (entry m root a)) b) = false ∧
      slot (Pte.ppn (entry m (Pte.ppn (entry m root a)) b)) c = x := by
    simpa [walkPtrFrom, sv39Levels] using heq
  exact ⟨_, _, by simp [node, tableBelow, valid₁], notLeaf,
    by simp [node, tableBelow, valid₁, valid₂], rfl⟩

/-- So it stops at every superpage. -/
theorem Holding.walkPtr (h : Holding A n big s t rest) {a : Nat}
    (heq : walkPtr s.mem t v = some a) :
    leafPath v ∉ big ∧ ∃ q, node s.mem t.root (leafPath v) = some q ∧ a = slot q (v % 512) := by
  rw [PageTable.walkPtr, indices_eq] at heq
  obtain ⟨q₁, q, hq₁, notLeaf, hq, rfl⟩ := walkPtrFrom_some heq
  refine ⟨fun hmem => ?_, q, hq, rfl⟩
  obtain ⟨i, j, q', hpath, -, hq', hleaf⟩ := h.superpage _ hmem
  obtain ⟨rfl, rfl⟩ : v / 2 ^ 9 % 512 = i ∧ v / 2 ^ 18 % 512 = j := by
    simpa only [leafPath, List.cons.injEq, and_true] using hpath
  obtain rfl : q₁ = q' := Option.some.inj (hq₁.symm.trans hq')
  rw [notLeaf] at hleaf
  cases hleaf

theorem Holding.unmap (h : Holding A n big s t rest) (hroot : rootIndex v < n) :
    Holding A n big (PageTable.unmap s t v).2 t rest ∧
      Changed n rest s t (PageTable.unmap s t v).2 t := by
  have same := And.intro h (Changed.refl n rest s t)
  rw [PageTable.unmap]
  split
  · exact same
  rename_i a heq
  obtain ⟨clear, q, hq, rfl⟩ := h.walkPtr heq
  split
  · exact h.write_leaf (leafPath_within hroot clear) rfl hq (Nat.mod_lt _ (by decide)) (by decide)
  · exact same

end PageTable

end AlexOS
