import AlexOS.Mm.PageTree
import AlexOS.Mm.Walk

/-!
# What the page table operations do to a page's slot

One specification for each operation, over a table whose frames are held next
to any `rest`: which slots change, and that nothing in `rest` does.
-/

namespace AlexOS

open Bytes Blocks

namespace PageTable

variable {σ : Type} {A : FrameAllocator σ} {n : Nat} {s s' : Phys σ} {t t' : PageTable}
  {rest : Multiset Frame}

/-- The table's frames are held next to `rest`, and form its tree. -/
structure Ok (A : FrameAllocator σ) (n : Nat) (s : Phys σ) (t : PageTable)
    (rest : Multiset Frame) : Prop where
  holds : A.Holds s (t.frames + rest)
  tree : Tree n s.mem t.root t.frames

/-- Tables were added, no page changed. -/
structure Extends (A : FrameAllocator σ) (n : Nat) (rest : Multiset Frame) (s : Phys σ)
    (t : PageTable) (s' : Phys σ) (t' : PageTable) : Prop where
  ok : Ok A n s' t' rest
  root : t'.root = t.root
  kept : Kept rest s.mem s'.mem
  leaf : ∀ v, v < pages n → leaf s'.mem t.root v = leaf s.mem t.root v

theorem Extends.refl (h : Ok A n s t rest) : Extends A n rest s t s t :=
  ⟨h, rfl, .refl _ _, fun _ _ => rfl⟩

theorem Extends.trans {s'' : Phys σ} {t'' : PageTable} (h : Extends A n rest s t s' t')
    (h' : Extends A n rest s' t' s'' t'') : Extends A n rest s t s'' t'' :=
  ⟨h'.ok, h'.root.trans h.root, h.kept.trans h'.kept, fun v hv => by
    rw [← h.leaf v hv, ← h.root, h'.leaf v hv]⟩

theorem Ok.owns (h : Ok A n s t rest) : Owns A (Owned n) s t rest := ⟨h.holds, h.tree.tables⟩

/-- Writing a slot of an owned table is within the table's own frames. -/
theorem Ok.write_slot (h : Ok A n s t rest) {p : List Nat} {q i x : Nat} (hp : Owned n p)
    (hq : node s.mem t.root p = some q) (hi : i < 512) :
    A.Holds { s with mem := write64 s.mem (slot q i) x } (t.frames + rest) ∧
      Kept rest s.mem (write64 s.mem (slot q i) x) :=
  h.owns.write_slot hp hq hi

/-! ## Descending one level -/

/-- The entry was there, or no frame was left, or a zeroed frame was linked. -/
theorem descend_cases (h : Ok A n s t rest) {p : List Nat} {q i : Nat} (hp : Owned n (i :: p))
    (hq : node s.mem t.root p = some q) :
    (∃ q', node s.mem t.root (i :: p) = some q' ∧ descend A s t q i = (some q', s, t)) ∨
    (node s.mem t.root (i :: p) = none ∧ A.allocOrder s 0 = (none, s) ∧
      descend A s t q i = (none, s, t)) ∨
    (node s.mem t.root (i :: p) = none ∧ ∃ f s₁ s' t', A.allocOrder s 0 = (some f, s₁) ∧
      s' = { s₁ with mem := linked s₁.mem q i f } ∧ A.Holds s₁ (f ::ₘ (t.frames + rest)) ∧
      descend A s t q i = (some f.ppn, s', t') ∧ Extends A n rest s t s' t' ∧
      ∀ p', Owned n p' → node s'.mem t.root p' =
        if p' = i :: p then some f.ppn else node s.mem t.root p') := by
  rcases h.owns.descend hp hq with present | refused |
    ⟨hnone, f, s₁, s', t', halloc, rfl, rfl, holds, kept, hf, heq, grown, hnode⟩
  · exact .inl present
  · exact .inr (.inl refused)
  have keptT : Kept t.frames s.mem s₁.mem := kept.mono (Multiset.le_add_right _ _)
  have tree₁ := h.tree.kept keptT
  have hq₁ : node s₁.mem t.root p = some q := by rw [h.tree.node_kept keptT hp.tail, hq]
  have hmiss : Pte.isValid (entry s₁.mem q i) = false := by
    rw [h.tree.entry_kept keptT hp.tail hq (hp.index_lt h.tree.width)]
    by_contra hv
    simp [node, hq, tableBelow, hv] at hnone
  have hframes : ((t.frames ++ [f] : List Frame) : Multiset Frame) = f ::ₘ t.frames := by
    rw [← Multiset.coe_add, Multiset.coe_singleton, add_comm, Multiset.singleton_add]
  refine .inr (.inr ⟨hnone, f, s₁, _, _, halloc, rfl, holds, heq,
    ⟨⟨grown.owns.holds, ?_⟩, rfl, grown.kept, fun v hv => ?_⟩, hnode⟩)
  · simpa only [hframes] using tree₁.linked hp hq₁ hmiss hf
  · rw [tree₁.leaf_linked hp hq₁ hmiss hf hv, h.tree.leaf_kept keptT hv]

/-! ## Walks -/

theorem walkCreateTo_leaf (A : FrameAllocator σ) (s : Phys σ) (t : PageTable) (v : Nat) :
    walkCreateTo A s t v (sv39Levels - 1) =
      match descend A s t t.root (v / 2 ^ 18 % 512) with
      | (none, s, t) => (none, s, t)
      | (some q, s, t) =>
        match descend A s t q (v / 2 ^ 9 % 512) with
        | (none, s, t) => (none, s, t)
        | (some q, s, t) => (some (slot q (v % 512)), s, t) := by
  simp only [walkCreateTo, indices_eq, walkFrom, sv39Levels]
  rfl

/-- The walk fails only where the leaf table is missing, and otherwise ends at
the page's slot; a table that was there is reached without any change. -/
theorem walkCreateTo_spec (h : Ok A n s t rest) {v : Nat} (hv : v < pages n) :
    ∃ r s' t', walkCreateTo A s t v (sv39Levels - 1) = (r, s', t') ∧ Extends A n rest s t s' t' ∧
      ((r = none ∧ node s.mem t.root (leafPath v) = none) ∨
        ∃ q, r = some (slot q (v % 512)) ∧ node s'.mem t.root (leafPath v) = some q ∧
          (node s.mem t.root (leafPath v) ≠ none → s' = s ∧ t' = t)) := by
  have hp := leafPath_owned h.tree.width hv
  rw [walkCreateTo_leaf]
  have mid : (∃ s₁ t₁ q₁, descend A s t t.root (v / 2 ^ 18 % 512) = (some q₁, s₁, t₁) ∧
        Extends A n rest s t s₁ t₁ ∧ node s₁.mem t₁.root [v / 2 ^ 18 % 512] = some q₁ ∧
        (node s.mem t.root (leafPath v) ≠ none → s₁ = s ∧ t₁ = t)) ∨
      (descend A s t t.root (v / 2 ^ 18 % 512) = (none, s, t) ∧
        node s.mem t.root (leafPath v) = none) := by
    have below : node s.mem t.root [v / 2 ^ 18 % 512] = none →
        node s.mem t.root (leafPath v) = none := fun e => by rw [leafPath, node, e]; rfl
    rcases descend_cases h (p := []) hp.tail rfl with
      ⟨q₁, hq₁, heq⟩ | ⟨hnone, -, heq⟩ | ⟨hnone, f, s₁, s', t', -, -, -, heq, ext, hnode⟩
    · exact .inl ⟨s, t, q₁, heq, .refl h, hq₁, fun _ => ⟨rfl, rfl⟩⟩
    · exact .inr ⟨heq, below hnone⟩
    · refine .inl ⟨s', t', f.ppn, heq, ext, ?_, fun hne => absurd (below hnone) hne⟩
      rw [ext.root, hnode _ hp.tail, if_pos rfl]
  rcases mid with ⟨s₁, t₁, q₁, heq₁, ext₁, hq₁, same₁⟩ | ⟨heq₁, hnone⟩
  · simp only [heq₁]
    rcases descend_cases ext₁.ok hp hq₁ with
      ⟨q₂, hq₂, heq⟩ | ⟨hnone, -, heq⟩ | ⟨hnone, f, -, s', t', -, -, -, heq, ext, hnode⟩
    · refine ⟨_, s₁, t₁, by rw [heq], ext₁, .inr ⟨q₂, rfl, ?_, same₁⟩⟩
      rw [← ext₁.root]; exact hq₂
    · refine ⟨none, s₁, t₁, by rw [heq], ext₁, .inl ⟨rfl, ?_⟩⟩
      by_contra hne
      obtain ⟨rfl, rfl⟩ := same₁ hne
      exact hne hnone
    · refine ⟨_, s', t', by rw [heq], ext₁.trans ext, .inr ⟨f.ppn, rfl, ?_, fun hne => ?_⟩⟩
      · rw [← ext₁.root, hnode _ hp]; exact if_pos rfl
      · obtain ⟨rfl, rfl⟩ := same₁ hne
        exact absurd hnone hne
  · simp only [heq₁]
    exact ⟨none, s, t, rfl, .refl h, .inl ⟨rfl, hnone⟩⟩

/-- No interior entry of the tree is a leaf. -/
theorem interior_not_leaf {m : Mem} {frames : Multiset Frame} {root : Nat}
    (h : Tree n m root frames)
    {p : List Nat} {q i : Nat} (hp : Owned n (i :: p)) (hq : node m root p = some q)
    (hvalid : Pte.isValid (entry m q i) = true) : Pte.isLeaf (entry m q i) = false := by
  rw [Pte.isLeaf, h.interior p q i hp hq hvalid, Bool.and_eq_false_iff]
  exact .inr rfl

/-- `walk_ptr` follows the tree. -/
theorem walkPtrFrom_eq {m : Mem} {frames : Multiset Frame} {root a b : Nat}
    (h : Tree n m root frames) (hp : Owned n [b, a]) (c : Nat) :
    walkPtrFrom m [a, b, c] 0 root = (node m root [b, a]).map (slot · c) := by
  simp only [walkPtrFrom, sv39Levels, node, Option.bind_some]
  by_cases h₁ : Pte.isValid (entry m root a) = true
  · have hq₁ : node m root [a] = some (Pte.ppn (entry m root a)) := by simp [node, tableBelow, h₁]
    by_cases h₂ : Pte.isValid (entry m (Pte.ppn (entry m root a)) b) = true
    · simp [tableBelow, h₁, h₂, interior_not_leaf h hp.tail rfl h₁, interior_not_leaf h hp hq₁ h₂]
    · simp [tableBelow, h₁, h₂, interior_not_leaf h hp.tail rfl h₁]
  · simp [tableBelow, h₁]

theorem walkPtr_eq {m : Mem} {frames : Multiset Frame} (h : Tree n m t.root frames) {v : Nat}
    (hv : v < pages n) :
    walkPtr m t v = (node m t.root (leafPath v)).map (slot · (v % 512)) := by
  rw [walkPtr, indices_eq, walkPtrFrom_eq h (leafPath_owned h.width hv), leafPath]

theorem translate_eq {m : Mem} {frames : Multiset Frame} (h : Tree n m t.root frames) {v : Nat}
    (hv : v < pages n) :
    translate m t v =
      if Pte.isValid (leaf m t.root v) then some (leaf m t.root v) else none := by
  rw [translate, walkPtr_eq h hv, leaf]
  cases node m t.root (leafPath v) with
  | none => simp [Pte.not_isValid_zero]
  | some q => exact Option.filter_some

theorem leafPte_path {m : Mem} {frames : Multiset Frame} {root a b : Nat}
    (h : Tree n m root frames) (hp : Owned n [b, a]) (c : Nat) :
    leafPte m [a, b, c] root = (node m root [b, a]).bind fun q =>
      if Pte.isValid (entry m q c) then some (0, entry m q c) else none := by
  simp only [leafPte, node, Option.bind_some]
  by_cases h₁ : Pte.isValid (entry m root a) = true
  · have hq₁ : node m root [a] = some (Pte.ppn (entry m root a)) := by simp [node, tableBelow, h₁]
    by_cases h₂ : Pte.isValid (entry m (Pte.ppn (entry m root a)) b) = true
    · by_cases h₃ : Pte.isValid (entry m (Pte.ppn (entry m (Pte.ppn (entry m root a)) b)) c) = true
      · simp [tableBelow, h₁, h₂, h₃, interior_not_leaf h hp.tail rfl h₁,
          interior_not_leaf h hp hq₁ h₂]
      · simp [tableBelow, h₁, h₂, h₃, interior_not_leaf h hp.tail rfl h₁,
          interior_not_leaf h hp hq₁ h₂]
    · simp [tableBelow, h₁, h₂, interior_not_leaf h hp.tail rfl h₁]
  · simp [tableBelow, h₁]

/-- The hardware finds the word of the page's slot, and no larger leaf above it. -/
theorem leafPte_eq {m : Mem} {frames : Multiset Frame} {root : Nat} (h : Tree n m root frames)
    {v : Nat} (hv : v < pages n) : leafPte m (indices v) root =
      if Pte.isValid (leaf m root v) then some (0, leaf m root v) else none := by
  rw [indices_eq, leafPte_path h (leafPath_owned h.width hv), leaf, leafPath]
  cases node m root [v / 2 ^ 9 % 512, v / 2 ^ 18 % 512] with
  | none => simp [Pte.not_isValid_zero]
  | some q => rfl

/-! ## Operations -/

theorem read_slot {m : Mem} {root v q : Nat} (hq : node m root (leafPath v) = some q) :
    read64 m (slot q (v % 512)) = leaf m root v := by
  rw [leaf, hq]; rfl

theorem leaf_missing {m : Mem} {root v : Nat} (h : node m root (leafPath v) = none) :
    leaf m root v = 0 := by
  rw [leaf, h]

/-- One page's slot is overwritten, every other page keeps its word. -/
theorem Ok.write_leaf (h : Ok A n s t rest) {v q x : Nat} (hv : v < pages n)
    (hq : node s.mem t.root (leafPath v) = some q) (hx : x < 2 ^ 54) :
    Ok A n { s with mem := write64 s.mem (slot q (v % 512)) x } t rest ∧
      Kept rest s.mem (write64 s.mem (slot q (v % 512)) x) ∧
      ∀ w, w < pages n → leaf (write64 s.mem (slot q (v % 512)) x) t.root w =
        if w = v then x else leaf s.mem t.root w := by
  have hp := leafPath_owned h.tree.width hv
  obtain ⟨holds, kept⟩ := h.write_slot (x := x) hp hq (Nat.mod_lt v (by decide : 0 < 512))
  exact ⟨⟨holds, h.tree.write_leaf hv hq hx⟩, kept, fun _ hw => h.tree.leaf_write hv hq hx hw⟩

theorem map_spec (h : Ok A n s t rest) {v p f : Nat} (hv : v < pages n) (hp : p < 2 ^ 44)
    (hf : f < 2 ^ 10) :
    ∃ r s' t', map A s t v p f = (r, s', t') ∧ Ok A n s' t' rest ∧ t'.root = t.root ∧
      Kept rest s.mem s'.mem ∧
      ((r = .error .alreadyMapped ∧ Pte.isValid (leaf s.mem t.root v) = true ∧ s' = s ∧ t' = t) ∨
       (r = .error .outOfMemory ∧ Pte.isValid (leaf s.mem t.root v) = false ∧
        ∀ w, w < pages n → leaf s'.mem t.root w = leaf s.mem t.root w) ∨
       (r = .ok () ∧ Pte.isValid (leaf s.mem t.root v) = false ∧
        ∀ w, w < pages n → leaf s'.mem t.root w =
          if w = v then Pte.new p (PteFlags.present f) else leaf s.mem t.root w)) := by
  obtain ⟨r, s₁, t₁, heq, ext, hr⟩ := walkCreateTo_spec h hv
  rw [map, mapAt, heq]
  rcases hr with ⟨rfl, hnone⟩ | ⟨q, rfl, hq, same⟩
  · refine ⟨_, s₁, t₁, rfl, ext.ok, ext.root, ext.kept, .inr (.inl ⟨rfl, ?_, ext.leaf⟩)⟩
    rw [leaf_missing hnone]; rfl
  · simp only [read_slot hq, ext.leaf v hv]
    by_cases hvalid : Pte.isValid (leaf s.mem t.root v) = true
    · have hne : node s.mem t.root (leafPath v) ≠ none := fun e => by
        rw [leaf_missing e] at hvalid; cases hvalid
      obtain ⟨rfl, rfl⟩ := same hne
      rw [if_pos hvalid]
      exact ⟨_, s₁, t₁, rfl, h, rfl, .refl _ _, .inl ⟨rfl, hvalid, rfl, rfl⟩⟩
    · have hq' : node s₁.mem t₁.root (leafPath v) = some q := by rw [ext.root]; exact hq
      obtain ⟨ok, kept, hleaf⟩ := ext.ok.write_leaf hv hq'
        (Pte.new_lt hp (PteFlags.present_lt hf))
      rw [if_neg hvalid]
      refine ⟨_, _, t₁, rfl, ok, ext.root, ext.kept.trans kept,
        .inr (.inr ⟨rfl, Bool.eq_false_iff.mpr hvalid, ?_⟩)⟩
      intro w hw
      rw [← ext.root, hleaf w hw, ext.root, ext.leaf w hw]

theorem unmap_spec (h : Ok A n s t rest) {v : Nat} (hv : v < pages n) :
    ∃ r s', unmap s t v = (r, s') ∧ Ok A n s' t rest ∧ Kept rest s.mem s'.mem ∧
      ((r = .error .notMapped ∧ Pte.isValid (leaf s.mem t.root v) = false ∧ s' = s) ∨
       (r = .ok (Pte.ppn (leaf s.mem t.root v)) ∧ Pte.isValid (leaf s.mem t.root v) = true ∧
        ∀ w, w < pages n → leaf s'.mem t.root w = if w = v then 0 else leaf s.mem t.root w)) := by
  rw [unmap, walkPtr_eq h.tree hv]
  cases hq : node s.mem t.root (leafPath v) with
  | none =>
    exact ⟨_, s, rfl, h, .refl _ _, .inl ⟨rfl, by rw [leaf_missing hq]; rfl, rfl⟩⟩
  | some q =>
    simp only [Option.map_some, read_slot hq]
    by_cases hvalid : Pte.isValid (leaf s.mem t.root v) = true
    · obtain ⟨ok, kept, hleaf⟩ := h.write_leaf (x := Pte.empty) hv hq (by decide)
      rw [if_pos hvalid]
      exact ⟨_, _, rfl, ok, kept, .inr ⟨rfl, hvalid, hleaf⟩⟩
    · rw [if_neg hvalid]
      exact ⟨_, s, rfl, h, .refl _ _, .inl ⟨rfl, Bool.eq_false_iff.mpr hvalid, rfl⟩⟩

theorem leaf_lt {m : Mem} {root : Nat} {frames : Multiset Frame} (h : Tree n m root frames)
    {v : Nat} (hv : v < pages n) : leaf m root v < 2 ^ 54 := by
  rw [leaf]
  split
  · decide
  · rename_i q hq
    exact h.leaf_lt _ q _ (leafPath_owned h.width hv) rfl hq (Nat.mod_lt _ (by decide))

theorem protect_spec (h : Ok A n s t rest) {v f : Nat} (hv : v < pages n) (hf : f < 2 ^ 10) :
    ∃ r s', protect s t v f = (r, s') ∧ Ok A n s' t rest ∧ Kept rest s.mem s'.mem ∧
      ((r = .error .notMapped ∧ Pte.isValid (leaf s.mem t.root v) = false ∧ s' = s) ∨
       (r = .ok () ∧ Pte.isValid (leaf s.mem t.root v) = true ∧
        ∀ w, w < pages n → leaf s'.mem t.root w =
          if w = v then Pte.new (Pte.ppn (leaf s.mem t.root v)) (PteFlags.present f)
          else leaf s.mem t.root w)) := by
  have hlt := leaf_lt h.tree hv
  rw [protect, walkPtr_eq h.tree hv]
  cases hq : node s.mem t.root (leafPath v) with
  | none =>
    exact ⟨_, s, rfl, h, .refl _ _, .inl ⟨rfl, by rw [leaf_missing hq]; rfl, rfl⟩⟩
  | some q =>
    simp only [Option.map_some, read_slot hq]
    by_cases hvalid : Pte.isValid (leaf s.mem t.root v) = true
    · have hppn : Pte.ppn (leaf s.mem t.root v) < 2 ^ 44 := by rw [Pte.ppn_eq]; omega
      have hflags : Pte.flags (leaf s.mem t.root v) < 2 ^ 10 := by rw [Pte.flags_eq]; omega
      have hset : Pte.setFlags (leaf s.mem t.root v) (PteFlags.present f) =
          Pte.new (Pte.ppn (leaf s.mem t.root v)) (PteFlags.present f) := by
        conv_lhs => rw [← Pte.new_ppn_flags hlt]
        exact Pte.setFlags_new hppn hflags (PteFlags.present_lt hf)
      obtain ⟨ok, kept, hleaf⟩ := h.write_leaf hv hq (Pte.new_lt hppn (PteFlags.present_lt hf))
      rw [if_pos hvalid, hset]
      exact ⟨_, _, rfl, ok, kept, .inr ⟨rfl, hvalid, hleaf⟩⟩
    · rw [if_neg hvalid]
      exact ⟨_, s, rfl, h, .refl _ _, .inl ⟨rfl, Bool.eq_false_iff.mpr hvalid, rfl⟩⟩

/-- A root whose first entries are empty has nothing below it. -/
theorem tree_of_empty {m : Mem} {f : Frame} (hn : n ≤ 512) (order : f.order = 0)
    (empty : ∀ i, i < n → entry m f.ppn i = 0) :
    Tree n m f.ppn {f} ∧ (∀ i p, Owned n (i :: p) → node m f.ppn (i :: p) = none) ∧
      ∀ v, v < pages n → leaf m f.ppn v = 0 := by
  have hself : f = ⟨f.ppn, 0⟩ := by rw [← order]
  have below : ∀ i p, Owned n (i :: p) → node m f.ppn (i :: p) = none := by
    intro i p hp
    rcases p with _ | ⟨a, _ | ⟨b, p⟩⟩
    · simp [node, tableBelow, empty i hp, Pte.not_isValid_zero]
    · simp [node, tableBelow, empty a hp.1, Pte.not_isValid_zero]
    · exact hp.elim
  refine ⟨⟨hn, ?_, ?_, ?_, ?_⟩, below, fun v hv => ?_⟩
  · intro p q hp hq
    cases p with
    | nil =>
      obtain rfl := Option.some.inj hq
      rw [← hself]
      exact Multiset.mem_singleton_self f
    | cons i p => rw [below i p hp] at hq; cases hq
  · intro p p' q hp hp' hq hq'
    cases p with
    | cons i p => rw [below i p hp] at hq; cases hq
    | nil =>
      cases p' with
      | nil => rfl
      | cons i p' => rw [below i p' hp'] at hq'; cases hq'
  · intro p q i hp hq hvalid
    cases p with
    | nil =>
      obtain rfl := Option.some.inj hq
      rw [empty i hp] at hvalid
      cases hvalid
    | cons j p => rw [below j p hp.tail] at hq; cases hq
  · intro p q c hp hlen hq hc
    rcases p with _ | ⟨b, p⟩
    · cases hlen
    · rw [below b p hp] at hq
      cases hq
  · exact leaf_missing (below _ _ (leafPath_owned hn hv))

/-- A new table is one zeroed frame. -/
theorem new_cases (h : A.Holds s rest) (heq : new A s = (some t, s')) :
    ∃ f, A.allocOrder s 0 = (some f, s') ∧ t = ⟨f.ppn, [f]⟩ ∧ f.order = 0 ∧
      A.Holds s' (f ::ₘ rest) ∧ Kept rest s.mem s'.mem ∧
      ∀ i, i < 512 → entry s'.mem f.ppn i = 0 := by
  rcases halloc : A.allocOrder s 0 with ⟨_ | f, s₁⟩
  · simp [new, halloc] at heq
  simp only [new, halloc, Prod.mk.injEq, Option.some.injEq] at heq
  obtain ⟨rfl, rfl⟩ := heq
  obtain ⟨horder, holds, kept, zeroed⟩ := A.alloc_some h halloc
  have hf : NewTable s₁.mem 0 f := by
    exact ⟨horder, FrameAllocator.page_lt holds (Multiset.mem_cons_self _ _),
      by simp [framesOver], zeroed⟩
  exact ⟨f, rfl, rfl, horder, holds, kept, fun i hi => hf.entry hi⟩

theorem new_spec (h : A.Holds s rest) (hn : n ≤ 512) (heq : new A s = (some t, s')) :
    Ok A n s' t rest ∧ Kept rest s.mem s'.mem ∧
      ∀ v, v < pages n → leaf s'.mem t.root v = 0 := by
  obtain ⟨f, -, rfl, horder, holds, kept, empty⟩ := new_cases h heq
  obtain ⟨tree, -, hleaf⟩ := tree_of_empty hn horder fun i hi =>
    empty i (Nat.lt_of_lt_of_le hi hn)
  exact ⟨⟨by simpa using holds, by simpa using tree⟩, kept, hleaf⟩

end PageTable

end AlexOS
