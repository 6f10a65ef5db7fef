import AlexOS.Mm.Tables

/-!
# Walks through owned tables

What `walk_create_to` and `map_at_level` do to a table whose walked paths lie in
a family `P` of paths it owns: missing tables are linked in, and no slot that
leads out of the family changes, but for the one that is mapped.
-/

namespace AlexOS

open Bytes Blocks

namespace PageTable

variable {σ : Type} {A : FrameAllocator σ} {P : List Nat → Prop} {s s' : Phys σ} {t t' : PageTable}
  {rest : Multiset Frame}

/-- The table's frames are held next to `rest`, among them the tables of all paths in `P`. -/
structure Owns (A : FrameAllocator σ) (P : List Nat → Prop) (s : Phys σ) (t : PageTable)
    (rest : Multiset Frame) : Prop where
  holds : A.Holds s (t.frames + rest)
  tables : Tables P s.mem t.root t.frames

/-- A frame of the table is not in `rest`. -/
theorem Owns.apart (h : Owns A P s t rest) {q a : Nat} (hq : (⟨q, 0⟩ : Frame) ∈ t.frames)
    (ha : 0 < framesOver rest (pageNum a)) : pageNum a ≠ q := by
  intro e
  have hone := A.apart h.holds (pageNum a)
  have hheld := frame_held (Multiset.mem_coe.mpr hq) e
  rw [framesOver_add] at hone
  omega

/-- Writing a slot of an owned table is within the table's own frames. -/
theorem Owns.write_slot (h : Owns A P s t rest) {p : List Nat} {q i x : Nat} (hp : P p)
    (hq : node s.mem t.root p = some q) (hi : i < 512) :
    A.Holds { s with mem := write64 s.mem (slot q i) x } (t.frames + rest) ∧
      Kept rest s.mem (write64 s.mem (slot q i) x) := by
  have hheld := h.tables.held p q hp hq
  constructor
  · refine A.write h.holds fun a ha => write_slot_outside hi fun e => ?_
    have := frame_held hheld e
    rw [framesOver_add] at ha
    omega
  · exact fun a ha => write_slot_outside hi (h.apart (Multiset.mem_coe.mp hheld) ha)

theorem Owns.write_avail {B : CountedAllocator σ} (h : Owns B.toFrameAllocator P s t rest)
    {p : List Nat} {q i x : Nat} (hp : P p) (hq : node s.mem t.root p = some q) (hi : i < 512) :
    B.avail { s with mem := write64 s.mem (slot q i) x } = B.avail s := by
  refine B.write_avail h.holds fun a ha => write_slot_outside hi fun e => ?_
  have := frame_held (h.tables.held p q hp hq) e
  rw [framesOver_add] at ha
  omega

/-- Tables were added; slots that lead out of `P` are as they were. -/
structure Grown (A : FrameAllocator σ) (P : List Nat → Prop) (rest : Multiset Frame) (s : Phys σ)
    (t : PageTable) (s' : Phys σ) (t' : PageTable) : Prop where
  owns : Owns A P s' t' rest
  root : t'.root = t.root
  kept : Kept rest s.mem s'.mem
  frames : t.frames ⊆ t'.frames
  nodes : ∀ p q, P p → node s.mem t.root p = some q → node s'.mem t.root p = some q
  entries : ∀ p q i, P p → node s.mem t.root p = some q → i < 512 → ¬ P (i :: p) →
    entry s'.mem q i = entry s.mem q i

theorem Grown.refl (h : Owns A P s t rest) : Grown A P rest s t s t :=
  ⟨h, rfl, .refl _ _, fun _ => id, fun _ _ _ => id, fun _ _ _ _ _ _ _ => rfl⟩

theorem Grown.trans {s'' : Phys σ} {t'' : PageTable} (h : Grown A P rest s t s' t')
    (h' : Grown A P rest s' t' s'' t'') : Grown A P rest s t s'' t'' := by
  refine ⟨h'.owns, h'.root.trans h.root, h.kept.trans h'.kept,
    fun _ hf => h'.frames (h.frames hf), ?_, ?_⟩
  · intro p q hp hq
    have := h'.nodes p q hp (by rw [h.root]; exact h.nodes p q hp hq)
    rwa [h.root] at this
  · intro p q i hp hq hi out
    rw [h'.entries p q i hp (by rw [h.root]; exact h.nodes p q hp hq) hi out,
      h.entries p q i hp hq hi out]

/-! ## Descending one level -/

/-- The entry was there, or no frame was left, or a zeroed frame was linked. -/
theorem Owns.descend (h : Owns A P s t rest) {p : List Nat} {q i : Nat} (hp : P (i :: p))
    (hq : node s.mem t.root p = some q) :
    (∃ q', node s.mem t.root (i :: p) = some q' ∧ descend A s t q i = (some q', s, t)) ∨
    (node s.mem t.root (i :: p) = none ∧ A.allocOrder s 0 = (none, s) ∧
      descend A s t q i = (none, s, t)) ∨
    (node s.mem t.root (i :: p) = none ∧ ∃ f s₁ s' t', A.allocOrder s 0 = (some f, s₁) ∧
      s' = { s₁ with mem := linked s₁.mem q i f } ∧ t' = { t with frames := t.frames ++ [f] } ∧
      A.Holds s₁ (f ::ₘ (t.frames + rest)) ∧ Kept (t.frames + rest) s.mem s₁.mem ∧
      NewTable s₁.mem t.frames f ∧ descend A s t q i = (some f.ppn, s', t') ∧
      Grown A P rest s t s' t' ∧
      ∀ p', P p' → node s'.mem t.root p' =
        if p' = i :: p then some f.ppn else node s.mem t.root p') := by
  have hi := h.tables.paths.index_lt hp
  have hp' := h.tables.paths.tail hp
  by_cases hv : Pte.isValid (entry s.mem q i) = true
  · exact .inl ⟨Pte.ppn (entry s.mem q i), by simp [node, hq, tableBelow, hv],
      by simp [PageTable.descend, hv]⟩
  have hv' : Pte.isValid (entry s.mem q i) = false := by simpa using hv
  have hnone : node s.mem t.root (i :: p) = none := by simp [node, hq, tableBelow, hv']
  right
  rcases halloc : A.allocOrder s 0 with ⟨_ | f, s₁⟩
  · obtain rfl := A.alloc_none h.holds halloc
    exact .inl ⟨hnone, rfl, by simp [PageTable.descend, hv', halloc]⟩
  obtain ⟨horder, holds, kept, zeroed⟩ := A.alloc_some h.holds halloc
  have keptT : Kept t.frames s.mem s₁.mem := kept.mono (Multiset.le_add_right _ _)
  have fresh : framesOver t.frames f.ppn = 0 := by
    have := A.apart holds f.ppn
    rw [framesOver_cons, framesOver_add, cover_self] at this
    omega
  have hf : NewTable s₁.mem t.frames f :=
    ⟨horder, FrameAllocator.page_lt holds (Multiset.mem_cons_self _ _), fresh, zeroed⟩
  have tables₁ := h.tables.kept keptT
  have hq₁ : node s₁.mem t.root p = some q := by rw [h.tables.node_kept keptT hp', hq]
  have hmiss : Pte.isValid (entry s₁.mem q i) = false := by
    rw [h.tables.entry_kept keptT hp' hq hi]; exact hv'
  have hframes : ((t.frames ++ [f] : List Frame) : Multiset Frame) = f ::ₘ t.frames := by
    rw [← Multiset.coe_add, Multiset.coe_singleton, add_comm, Multiset.singleton_add]
  have owns₁ : Owns A P s₁ t (f ::ₘ rest) := ⟨by rw [Multiset.add_cons]; exact holds, tables₁⟩
  obtain ⟨holds', kept'⟩ := owns₁.write_slot (x := Pte.new f.ppn PteFlags.valid) hp' hq₁ hi
  have hnode : ∀ p', P p' → node (linked s₁.mem q i f) t.root p' =
      if p' = i :: p then some f.ppn else node s.mem t.root p' := fun p' hp' => by
    rw [tables₁.node_linked hp hq₁ hf hmiss hp', h.tables.node_kept keptT hp']
  refine .inr ⟨hnone, f, s₁, _, _, rfl, rfl, rfl, holds, kept, hf, ?_,
    ⟨⟨?_, ?_⟩, rfl, ?_, ?_, ?_, ?_⟩,
    hnode⟩
  · have hppn : Pte.ppn (entry (linked s₁.mem q i f) q i) = f.ppn := by
      rw [hf.entry_linked hi hi, if_pos ⟨rfl, rfl⟩, Pte.ppn_new hf.ppn_lt (by decide)]
    simp only [PageTable.descend, hv', Bool.false_eq_true, if_false, halloc]
    exact congrArg (fun q' => (some q', _)) hppn
  · simp only [hframes]
    rw [Multiset.cons_add, ← Multiset.add_cons]
    exact holds'
  · simpa only [hframes] using tables₁.linked hp hq₁ hf hmiss
  · exact (kept.mono (Multiset.le_add_left _ _)).trans (kept'.mono (Multiset.le_cons_self _ _))
  · exact List.subset_append_left _ _
  · intro p' q' hp' hq'
    rw [hnode p' hp', if_neg, hq']
    rintro rfl
    rw [hnone] at hq'
    cases hq'
  · intro p₁ q₁ c h₁ hq₁' hc out
    have hne : ¬ (q₁ = q ∧ c = i) := by
      rintro ⟨rfl, rfl⟩
      rw [h.tables.inj p₁ p q₁ h₁ hp' hq₁' hq] at out
      exact out hp
    rw [hf.entry_linked hi hc, if_neg hne, h.tables.entry_kept keptT h₁ hq₁' hc]

/-! ## Walks -/

/-- The path after the first `k` indices of a walk that stands at `p`. -/
def pathAfter (is p : List Nat) (k : Nat) : List Nat := (is.take k).reverse ++ p

@[simp] theorem pathAfter_zero (is p : List Nat) : pathAfter is p 0 = p := rfl

@[simp] theorem pathAfter_succ (i : Nat) (is p : List Nat) (k : Nat) :
    pathAfter (i :: is) p (k + 1) = pathAfter is (i :: p) k := by
  simp [pathAfter]

/-- The walk fails only where the last table is missing, and otherwise ends at
its slot; a table that was there is reached without any change. -/
theorem Owns.walkFrom {stop : Nat} {is : List Nat} (h : Owns A P s t rest) {p : List Nat}
    {level q : Nat} (hstop : level ≤ stop) (hlen : stop < level + is.length)
    (hq : node s.mem t.root p = some q)
    (within : ∀ k, level + k ≤ stop → P (pathAfter is p k)) :
    ∃ r s' t', walkFrom A stop is level q s t = (r, s', t') ∧ Grown A P rest s t s' t' ∧
      ((r = none ∧ node s.mem t.root (pathAfter is p (stop - level)) = none) ∨
        ∃ q', r = some (slot q' (is.getD (stop - level) 0)) ∧
          node s'.mem t.root (pathAfter is p (stop - level)) = some q' ∧
          (node s.mem t.root (pathAfter is p (stop - level)) ≠ none → s' = s ∧ t' = t)) := by
  induction is generalizing s t p level q with
  | nil => simp only [List.length_nil] at hlen; omega
  | cons i is ih =>
    rw [PageTable.walkFrom]
    by_cases here : level = stop
    · subst here
      exact ⟨some (slot q i), s, t, if_pos rfl, .refl h,
        .inr ⟨q, by simp, by simpa using hq, fun _ => ⟨rfl, rfl⟩⟩⟩
    have hlt : level < stop := by omega
    obtain ⟨d, hd⟩ : ∃ d, stop - level = d + 1 := ⟨stop - level - 1, by omega⟩
    have hd' : stop - (level + 1) = d := by omega
    have hp : P (i :: p) := by simpa using within 1 (by omega)
    rw [if_neg here, hd]
    simp only [pathAfter_succ, List.getD_cons_succ]
    have next : ∀ {s₁ t₁ q₁}, Grown A P rest s t s₁ t₁ → node s₁.mem t.root (i :: p) = some q₁ →
        _ := fun {s₁ t₁ q₁} (grown : Grown A P rest s t s₁ t₁)
          (hq₁ : node s₁.mem t.root (i :: p) = some q₁) =>
      ih grown.owns (p := i :: p) (q := q₁) (show level + 1 ≤ stop by omega)
        (by simp only [List.length_cons] at hlen; omega) (by rw [grown.root]; exact hq₁)
        (fun k hk => by simpa using within (k + 1) (by omega))
    rw [hd'] at next
    rcases h.descend hp hq with ⟨q', hq', heq⟩ | ⟨hnone, -, heq⟩ |
      ⟨hnone, f, s₁, s', t', -, -, -, -, -, -, heq, grown, hnode⟩
    · rw [heq]
      exact next (.refl h) hq'
    · refine ⟨none, s, t, by rw [heq], .refl h, .inl ⟨rfl, ?_⟩⟩
      exact node_append_none _ hnone
    · rw [heq]
      obtain ⟨r, s₂, t₂, heq₂, grown₂, out⟩ := next grown (by rw [hnode _ hp, if_pos rfl])
      have missing : node s.mem t.root (pathAfter is (i :: p) d) = none :=
        node_append_none _ hnone
      refine ⟨r, s₂, t₂, heq₂, grown.trans grown₂, ?_⟩
      rcases out with ⟨rfl, -⟩ | ⟨q₂, rfl, hq₂, -⟩
      · exact .inl ⟨rfl, missing⟩
      · exact .inr ⟨q₂, rfl, by rw [← grown.root]; exact hq₂, fun hne => absurd missing hne⟩

/-! ## Mapping at a level -/

/-- The path to the table that holds a page's slot at `level`. -/
def slotTable (vpn level : Nat) : List Nat := pathAfter (indices vpn) [] level

/-- The page's index in that table. -/
def slotIndex (vpn level : Nat) : Nat := (indices vpn).getD level 0

theorem slotTable_length (v k : Nat) : (slotTable v k).length = min k 3 := by
  simp [slotTable, pathAfter, indices]

theorem slotIndex_lt (vpn level : Nat) : slotIndex vpn level < 512 := by
  have small : ∀ i ∈ indices vpn, i < 512 := by
    rw [indices_eq]
    simp only [List.mem_cons, List.not_mem_nil, or_false]
    omega
  rcases Nat.lt_or_ge level (indices vpn).length with h | h
  · rw [slotIndex, List.getD_eq_getElem _ _ h]
    exact small _ (List.getElem_mem h)
  · rw [slotIndex, List.getD_eq_default _ _ h]
    decide

/-- Memory once a slot holds the leaf. -/
def leafAt (m : Mem) (q i ppn flags : Nat) : Mem :=
  write64 m (slot q i) (Pte.new ppn (PteFlags.present flags))

/-- The walk runs out of frames, finds the slot taken, or ends at a free slot. -/
theorem Owns.mapAt (h : Owns A P s t rest) {vpn level : Nat} (ppn flags : Nat)
    (hlevel : level < sv39Levels) (within : ∀ k, k ≤ level → P (slotTable vpn k)) :
    ∃ r s₁ t₁, walkCreateTo A s t vpn level = (r, s₁, t₁) ∧ Grown A P rest s t s₁ t₁ ∧
      ((r = none ∧ node s.mem t.root (slotTable vpn level) = none ∧
        mapAt A s t vpn ppn flags level = (.error .outOfMemory, s₁, t₁)) ∨
      ∃ q, r = some (slot q (slotIndex vpn level)) ∧
        node s₁.mem t.root (slotTable vpn level) = some q ∧
        (node s.mem t.root (slotTable vpn level) ≠ none → s₁ = s ∧ t₁ = t) ∧
        ((Pte.isValid (entry s₁.mem q (slotIndex vpn level)) = true ∧
          mapAt A s t vpn ppn flags level = (.error .alreadyMapped, s₁, t₁)) ∨
        (Pte.isValid (entry s₁.mem q (slotIndex vpn level)) = false ∧
          mapAt A s t vpn ppn flags level =
            (.ok (),
              { s₁ with mem := leafAt s₁.mem q (slotIndex vpn level) ppn flags }, t₁)))) := by
  obtain ⟨r, s₁, t₁, heq, grown, out⟩ := h.walkFrom (p := []) (Nat.zero_le level)
    (show level < 0 + (indices vpn).length by rw [Nat.zero_add]; exact hlevel) rfl
    (fun k hk => within k (by omega))
  have heq : walkCreateTo A s t vpn level = (r, s₁, t₁) := heq
  refine ⟨r, s₁, t₁, heq, grown, ?_⟩
  rw [PageTable.mapAt, heq]
  rcases out with ⟨rfl, hnone⟩ | ⟨q, rfl, hq, same⟩
  · exact .inl ⟨rfl, hnone, rfl⟩
  refine .inr ⟨q, rfl, hq, same, ?_⟩
  have hread : read64 s₁.mem (slot q ((indices vpn).getD (level - 0) 0)) =
    entry s₁.mem q (slotIndex vpn level) := rfl
  simp only [hread]
  by_cases hvalid : Pte.isValid (entry s₁.mem q (slotIndex vpn level)) = true
  · exact .inl ⟨hvalid, if_pos hvalid⟩
  · exact .inr ⟨Bool.eq_false_iff.mpr hvalid, if_neg hvalid⟩

/-- A superpage under a root entry that has no table yet takes one frame. -/
theorem Owns.first_superpage {B : CountedAllocator σ} (h : Owns B.toFrameAllocator P s t rest)
    {vpn : Nat} (ppn : Nat) {flags : Nat} (root : P []) (hp : P [slotIndex vpn 0])
    (empty : entry s.mem t.root (slotIndex vpn 0) = 0) (room : 0 < B.avail s)
    (hflags : flags < 2 ^ 64) :
    ∃ q s₁ s' t', walkCreateTo B.toFrameAllocator s t vpn 1 =
        (some (slot q (slotIndex vpn 1)), s₁, t') ∧
      PageTable.mapAt B.toFrameAllocator s t vpn ppn flags 1 = (.ok (), s', t') ∧
      t'.root = t.root ∧ node s'.mem t.root [slotIndex vpn 0] = some q ∧
      entry s'.mem q (slotIndex vpn 1) = Pte.new ppn (PteFlags.present flags) ∧
      B.avail s' + 1 = B.avail s ∧
      ∃ f s₀, B.allocOrder s 0 = (some f, s₀) ∧ s'.pool = s₀.pool := by
  obtain ⟨_, _, halloc, -⟩ := CountedAllocator.alloc_one h.holds room
  rcases h.descend hp rfl with ⟨q, hq, -⟩ | ⟨-, hnone, -⟩ |
    ⟨-, q, s₁, s', t', halloc', rfl, rfl, holds, -, hq, hdesc, grown, hnode⟩
  · simp [node, tableBelow, empty, Pte.not_isValid_zero] at hq
  · rw [halloc] at hnone
    cases hnone
  have hi := slotIndex_lt vpn 0
  have hi' := slotIndex_lt vpn 1
  have hx := Pte.new_lt_word ppn (PteFlags.present_lt_word hflags)
  have hnode₀ : node (linked s₁.mem t.root (slotIndex vpn 0) q) t.root [slotIndex vpn 0] =
      some q.ppn := by rw [hnode _ hp, if_pos rfl]
  have hne : q.ppn ≠ t.root := fun e => by
    cases grown.owns.tables.inj _ [] q.ppn hp root hnode₀ (by rw [e]; rfl)
  have hfree : entry (linked s₁.mem t.root (slotIndex vpn 0) q) q.ppn (slotIndex vpn 1) = 0 := by
    rw [hq.entry_linked hi hi', if_neg fun e => hne e.1, hq.entry hi']
  have hwalk : walkCreateTo B.toFrameAllocator s t vpn 1 = (some (slot q.ppn (slotIndex vpn 1)),
      { s₁ with mem := linked s₁.mem t.root (slotIndex vpn 0) q },
      { t with frames := t.frames ++ [q] }) := by
    have e : indices vpn = [slotIndex vpn 0, slotIndex vpn 1, slotIndex vpn 2] := rfl
    rw [walkCreateTo, e, PageTable.walkFrom, if_neg (by decide), hdesc]
    rfl
  have hread : read64 (linked s₁.mem t.root (slotIndex vpn 0) q)
      (slot q.ppn (slotIndex vpn 1)) = 0 :=
    hfree
  refine ⟨q.ppn, _,
    { s₁ with
      mem := leafAt (linked s₁.mem t.root (slotIndex vpn 0) q) q.ppn (slotIndex vpn 1) ppn flags },
    _, hwalk, ?_, rfl, ?_, ?_, ?_, q, s₁, halloc', rfl⟩
  · rw [PageTable.mapAt, hwalk]
    simp only [hread, Pte.not_isValid_zero, Bool.false_eq_true, if_false]
    rfl
  · rw [leafAt, grown.owns.tables.node_write hp hnode₀ hi' hx hp, hnode₀]
    exact fun hsuf => absurd hsuf.length_le (by simp)
  · rw [leafAt, entry_write hi' hi' hx, if_pos ⟨rfl, rfl⟩]
  · have held := h.tables.held [] t.root root rfl
    have hlinked : B.avail { s₁ with mem := linked s₁.mem t.root (slotIndex vpn 0) q } =
        B.avail s₁ := B.write_avail holds fun a ha => write_slot_outside hi fun e => by
      have := frame_held held e
      rw [framesOver_cons, framesOver_add] at ha
      omega
    have hcount := B.alloc_avail h.holds halloc'
    rw [Frame.count, hq.order, Nat.pow_zero, ← hlinked] at hcount
    rw [leafAt, ← hcount]
    exact congrArg (· + 1) (grown.owns.write_avail hp hnode₀ hi')

/-! ## The list of table frames only grows -/

theorem descend_frames (A : FrameAllocator σ) (s : Phys σ) (t : PageTable) (q i : Nat) :
    t.frames <+: (descend A s t q i).2.2.frames := by
  unfold descend
  split
  · exact List.prefix_rfl
  · rcases A.allocOrder s 0 with ⟨_ | f, s'⟩
    · exact List.prefix_rfl
    · exact List.prefix_append _ _

theorem walkFrom_frames (A : FrameAllocator σ) (stop : Nat) (is : List Nat) (level q : Nat)
    (s : Phys σ) (t : PageTable) : t.frames <+: (walkFrom A stop is level q s t).2.2.frames := by
  induction is generalizing level q s t with
  | nil => exact List.prefix_rfl
  | cons i is ih =>
    unfold walkFrom
    split
    · exact List.prefix_rfl
    · have step := descend_frames A s t q i
      rcases hd : descend A s t q i with ⟨_ | q', s', t'⟩ <;> rw [hd] at step
      · exact step
      · exact step.trans (ih ..)

theorem mapAt_frames (A : FrameAllocator σ) (s : Phys σ) (t : PageTable)
    (vpn ppn flags level : Nat) :
    t.frames <+: (mapAt A s t vpn ppn flags level).2.2.frames := by
  have walk := walkFrom_frames A level (indices vpn) 0 t.root s t
  unfold mapAt walkCreateTo
  rcases hw : walkFrom A level (indices vpn) 0 t.root s t with ⟨_ | p, s', t'⟩ <;> rw [hw] at walk
  · exact walk
  · dsimp only
    split <;> exact walk

end PageTable

end AlexOS
