import AlexOS.Mm.PageOps
import AlexOS.Mm.Coalesce

/-!
# Leaves of three sizes in one table

Runs of `map` and `map_at_level` on a table made by `new`, next to whatever the
rest of the kernel does with the frames it holds. `walk_create_to` goes through
every valid entry on its way, a leaf as well as a table: calls stay apart as long
as none of them walks below a leaf that is already there.
-/

namespace AlexOS.LeafRun

open Bytes PageTable

/-- A mapping that was installed, with the address of its entry. -/
structure Leaf where
  vpn : Nat
  level : Nat
  slot : Nat

/-- A table, the memory it lives in, what everyone else holds, and the leaves
installed so far. -/
structure World (σ : Type) where
  phys : Phys σ
  table : PageTable
  rest : Multiset Frame
  leaves : List Leaf

inductive Op where
  | map (vpn ppn flags level : Nat) (res : Except MapError Unit)
  | other

variable {σ : Type}

section
variable (A : FrameAllocator σ)

/-- The entries `walk_create_to` goes on from, taking the frame each one names
for a table. -/
def throughFrom (stop : Nat) : List Nat → Nat → Nat → Phys σ → PageTable → List Nat
  | [], _, _, _, _ => []
  | index :: rest, level, ppn, s, t =>
    if level = stop then []
    else slot ppn index ::
      match descend A s t ppn index with
      | (none, _, _) => []
      | (some ppn, s, t) => throughFrom stop rest (level + 1) ppn s t

def through (s : Phys σ) (t : PageTable) (vpn level : Nat) : List Nat :=
  throughFrom A level (indices vpn) 0 t.root s t

/-- The leaves after a call: a successful one has written the slot its walk found. -/
def record (s : Phys σ) (t : PageTable) (vpn level : Nat) (leaves : List Leaf) :
    Except MapError Unit → List Leaf
  | .error _ => leaves
  | .ok () =>
    match (walkCreateTo A s t vpn level).1 with
    | none => leaves
    | some p => ⟨vpn, level, p⟩ :: leaves

/-- Calls with page and frame aligned for the level, and what others do with the
frames they hold. -/
inductive Step : World σ → Op → World σ → Prop where
  | map {s s' : Phys σ} {t t' : PageTable} {rest : Multiset Frame} {leaves : List Leaf}
      {vpn ppn flags level : Nat} {res : Except MapError Unit} : flags < 2 ^ 64 →
      mapAtLevel A s t vpn ppn flags level = some (res, s', t') →
      Step ⟨s, t, rest, leaves⟩ (.map vpn ppn flags level res)
        ⟨s', t', rest, record A s t vpn level leaves res⟩
  | other {s s' : Phys σ} {t : PageTable} {rest rest' : Multiset Frame} {leaves : List Leaf} :
      A.Holds s' (t.frames + rest') → Kept t.frames s.mem s'.mem →
      Step ⟨s, t, rest, leaves⟩ .other ⟨s', t, rest', leaves⟩

def system : System (World σ) Op where
  init w := (∃ s, A.Holds s w.rest ∧ PageTable.new A s = (some w.table, w.phys)) ∧ w.leaves = []
  step := Step A

end

/-- The two ranges share a page, as far as Sv39 can tell pages apart. -/
def Overlaps (l : Leaf) (vpn level : Nat) : Prop :=
  ∃ v w, l.vpn ≤ v ∧ v < l.vpn + levelPages l.level ∧ vpn ≤ w ∧ w < vpn + levelPages level ∧
    v % 2 ^ 27 = w % 2 ^ 27

/-- No larger leaf lies over the range. -/
def Clear (w : World σ) : Op → Prop
  | .map vpn _ _ level _ => ∀ l ∈ w.leaves, l.level < level → ¬ Overlaps l vpn level
  | .other => True

/-- The call and the leaves stay out of each other's way: an overlapping call is
rejected and changes nothing, no leaf is taken for a table, every entry the walk
reads or writes is in a frame of the table, and nobody else's memory is written. -/
def Apart (A : FrameAllocator σ) (w : World σ) (op : Op) (w' : World σ) : Prop :=
  match op with
  | .map vpn _ _ level res =>
    (∀ l ∈ w.leaves, Overlaps l vpn level → res = .error .alreadyMapped ∧ w' = w) ∧
    (∀ a ∈ through A w.phys w.table vpn level, ∀ l ∈ w.leaves, a ≠ l.slot) ∧
    (∀ a, a ∈ through A w.phys w.table vpn level ∨
        (walkCreateTo A w.phys w.table vpn level).1 = some a →
      ∃ q i, i < 512 ∧ a = slot q i ∧ (⟨q, 0⟩ : Frame) ∈ w'.table.frames) ∧
    Kept w.rest w.phys.mem w'.phys.mem
  | .other => True

/-! ## Ranges and paths -/

theorem slotTable_suffix (v : Nat) {j k : Nat} (h : j ≤ k) : slotTable v j <:+ slotTable v k := by
  simp only [slotTable, pathAfter, List.append_nil]
  exact List.reverse_suffix.mpr (List.take_prefix_take_left h)

theorem slotTable_succ (v : Nat) {k : Nat} (h : k < 3) :
    slotTable v (k + 1) = slotIndex v k :: slotTable v k := by
  obtain rfl | rfl | rfl : k = 0 ∨ k = 1 ∨ k = 2 := by omega
  all_goals rfl

/-- The tables above a page are those of its block. -/
theorem slotTable_eq_iff {v w k : Nat} (h : k < 3) : slotTable v (k + 1) = slotTable w (k + 1) ↔
    v % 2 ^ 27 / levelPages k = w % 2 ^ 27 / levelPages k := by
  obtain rfl | rfl | rfl : k = 0 ∨ k = 1 ∨ k = 2 := by omega
  all_goals
    simp only [slotTable, pathAfter, indices_eq, levelPages, sv39Levels, List.take_succ_cons,
      List.take_zero, List.reverse_cons, List.reverse_nil, List.nil_append, List.append_nil,
      List.cons_append, List.cons.injEq, and_true]
    omega

/-- All pages of a leaf are in its block, and in the blocks around it. -/
theorem page_block {b v j k : Nat} (hj : j < 3) (hk : k ≤ j) (aligned : b % levelPages j = 0)
    (lo : b ≤ v) (hi : v < b + levelPages j) :
    v % 2 ^ 27 / levelPages k = b % 2 ^ 27 / levelPages k := by
  obtain rfl | rfl | rfl : j = 0 ∨ j = 1 ∨ j = 2 := by omega
  · obtain rfl : k = 0 := by omega
    simp only [levelPages, sv39Levels] at *
    omega
  · obtain rfl | rfl : k = 0 ∨ k = 1 := by omega
    all_goals
      simp only [levelPages, sv39Levels] at *
      omega
  · obtain rfl | rfl | rfl : k = 0 ∨ k = 1 ∨ k = 2 := by omega
    all_goals
      simp only [levelPages, sv39Levels] at *
      omega

section
variable {l : Leaf} {vpn level : Nat} (hl : l.level < 3) (al : l.vpn % levelPages l.level = 0)
include hl al

theorem overlap_slots (hlevel : level < 3) (aligned : vpn % levelPages level = 0)
    (h : Overlaps l vpn level) {k : Nat} (hk : k ≤ l.level) (hk' : k ≤ level) :
    slotTable l.vpn (k + 1) = slotTable vpn (k + 1) := by
  obtain ⟨v, w, lo, hi, lo', hi', same⟩ := h
  rw [slotTable_eq_iff (by omega), ← page_block hl hk al lo hi,
    ← page_block hlevel hk' aligned lo' hi',
    same]

theorem overlap_of_slots (h : slotTable l.vpn (l.level + 1) = slotTable vpn (l.level + 1)) :
    Overlaps l vpn level := by
  rw [slotTable_eq_iff hl] at h
  refine ⟨l.vpn + vpn % levelPages l.level, vpn, Nat.le_add_right _ _, ?_, Nat.le_refl _, ?_, ?_⟩
  · exact Nat.add_lt_add_left (Nat.mod_lt _ (Nat.two_pow_pos _)) _
  · exact Nat.lt_add_of_pos_right (Nat.two_pow_pos _)
  · generalize l.vpn = b at *
    obtain e | e | e : l.level = 0 ∨ l.level = 1 ∨ l.level = 2 := by omega
    all_goals
      simp only [e, levelPages, sv39Levels] at *
      omega

end

/-! ## What a walk goes through -/

section
variable {A : FrameAllocator σ} {P : List Nat → Prop} {s : Phys σ} {t : PageTable}
  {rest : Multiset Frame} {stop : Nat} {is : List Nat}

/-- Each entry on the way is a slot of a table of the family. -/
theorem throughFrom_owned (h : Owns A P s t rest) {p : List Nat} {level q : Nat}
    (hstop : level ≤ stop) (hlen : stop < level + is.length) (hq : node s.mem t.root p = some q)
    (within : ∀ k, level + k ≤ stop → P (pathAfter is p k)) :
    ∀ a ∈ throughFrom A stop is level q s t, ∃ k q', level + k < stop ∧
      a = slot q' (is.getD k 0) ∧
      node (walkFrom A stop is level q s t).2.1.mem t.root (pathAfter is p k) = some q' := by
  induction is generalizing s t p level q with
  | nil => simp [throughFrom]
  | cons i is ih =>
    intro a ha
    obtain ⟨_, _, _, heq, grown, -⟩ := h.walkFrom hstop hlen hq within
    rw [throughFrom] at ha
    split at ha
    · cases ha
    rename_i below
    rcases List.mem_cons.mp ha with rfl | ha
    · refine ⟨0, q, by omega, rfl, ?_⟩
      rw [heq]
      exact grown.nodes p q (within 0 (by omega)) hq
    rw [walkFrom, if_neg below]
    have hp : P (i :: p) := by simpa using within 1 (by omega)
    have next : ∀ {s₁ : Phys σ} {t₁ : PageTable} {q₁ : Nat}, Grown A P rest s t s₁ t₁ →
        node s₁.mem t.root (i :: p) = some q₁ → a ∈ throughFrom A stop is (level + 1) q₁ s₁ t₁ →
        ∃ k q', level + k < stop ∧ a = slot q' ((i :: is).getD k 0) ∧
          node (walkFrom A stop is (level + 1) q₁ s₁ t₁).2.1.mem t.root (pathAfter (i :: is) p k) =
            some q' := by
      intro s₁ t₁ q₁ grown₁ hq₁ ha
      rw [← grown₁.root] at hq₁
      obtain ⟨k, q', hk, rfl, hnode⟩ := ih grown₁.owns (p := i :: p) (by omega)
        (by simp only [List.length_cons] at hlen; omega) hq₁
        (fun k hk => by simpa using within (k + 1) (by omega)) a ha
      exact ⟨k + 1, q', by omega, by simp, by rw [pathAfter_succ, ← grown₁.root]; exact hnode⟩
    rcases h.descend hp hq with ⟨q', hq', heq⟩ | ⟨-, -, heq⟩ |
      ⟨-, f, s₁, s', t', -, -, -, -, -, -, heq, grown₁, hnode⟩
    · rw [heq] at ha ⊢
      exact next (.refl h) hq' ha
    · rw [heq] at ha
      cases ha
    · rw [heq] at ha ⊢
      exact next grown₁ (by rw [hnode _ hp, if_pos rfl]) ha

/-- Tables that exist are gone through, whatever their entries are. -/
theorem mem_throughFrom {p : List Nat} {level q k q' : Nat} (hk : level + k < stop)
    (hlen : k < is.length) (hq : node s.mem t.root p = some q)
    (hnode : node s.mem t.root (pathAfter is p k) = some q') :
    slot q' (is.getD k 0) ∈ throughFrom A stop is level q s t := by
  induction is generalizing p level q k with
  | nil => simp at hlen
  | cons i is ih =>
    rw [throughFrom, if_neg (by omega)]
    cases k with
    | zero =>
      obtain rfl : q = q' := Option.some.inj (hq.symm.trans hnode)
      exact List.mem_cons_self
    | succ k =>
      rw [pathAfter_succ] at hnode
      obtain ⟨q₁, hq₁⟩ : ∃ q₁, node s.mem t.root (i :: p) = some q₁ := by
        apply Option.ne_none_iff_exists'.mp
        intro hnone
        rw [pathAfter, node_append_none _ hnone] at hnode
        cases hnode
      have hvalid : Pte.isValid (entry s.mem q i) = true ∧ Pte.ppn (entry s.mem q i) = q₁ := by
        simpa [node, hq, tableBelow] using hq₁
      have hdescend : descend A s t q i = (some q₁, s, t) := by
        rw [descend, if_pos hvalid.1, hvalid.2]
      rw [hdescend]
      exact List.mem_cons_of_mem _ (ih (by omega) (by simpa using hlen) hq₁ hnode)

end

/-! ## Tables that no leaf covers -/

/-- Paths to tables, none of which goes through the entry of a leaf. -/
def Open (leaves : List Leaf) (p : List Nat) : Prop :=
  p.length ≤ 2 ∧ (∀ i ∈ p, i < 512) ∧ ∀ l ∈ leaves, ¬ slotTable l.vpn (l.level + 1) <:+ p

theorem open_paths (leaves : List Leaf) : Paths (Open leaves) := by
  constructor
  · rintro i p ⟨short, small, uncovered⟩
    refine ⟨?_, fun j hj => small j (List.mem_cons_of_mem i hj), fun l hl covered => ?_⟩
    · exact Nat.le_of_succ_le short
    · exact uncovered l hl (covered.trans (List.suffix_cons i p))
  · rintro i p ⟨-, small, -⟩
    exact small i List.mem_cons_self

theorem slotTable_small (v k : Nat) : ∀ i ∈ slotTable v k, i < 512 := by
  intro i hi
  have hmem : i ∈ indices v := by
    simp only [slotTable, pathAfter, List.append_nil, List.mem_reverse] at hi
    exact List.mem_of_mem_take hi
  rw [indices_eq] at hmem
  simp only [List.mem_cons, List.not_mem_nil, or_false] at hmem
  omega

variable {A : FrameAllocator σ} {w w' : World σ} {op : Op}

structure Inv (A : FrameAllocator σ) (w : World σ) : Prop where
  owns : Owns A (Open w.leaves) w.phys w.table w.rest
  level : ∀ l ∈ w.leaves, l.level < 3 ∧ l.vpn % levelPages l.level = 0
  isOpen : ∀ l ∈ w.leaves, Open w.leaves (slotTable l.vpn l.level)
  valid : ∀ l ∈ w.leaves, ∃ q, node w.phys.mem w.table.root (slotTable l.vpn l.level) = some q ∧
    l.slot = slot q (slotIndex l.vpn l.level) ∧
    Pte.isValid (entry w.phys.mem q (slotIndex l.vpn l.level)) = true

/-- A leaf's own entry leads out of the open paths. -/
theorem not_open {leaves : List Leaf} {l : Leaf} (hl : l ∈ leaves) (hlevel : l.level < 3) :
    ¬ Open leaves (slotIndex l.vpn l.level :: slotTable l.vpn l.level) := by
  rintro ⟨-, -, uncovered⟩
  apply uncovered l hl
  rw [slotTable_succ _ hlevel]

/-- A call with no larger leaf over it walks open paths only. -/
theorem Inv.within (h : Inv A w) {vpn ppn flags level : Nat} {res : Except MapError Unit}
    (hlevel : level < 3) (clear : Clear w (.map vpn ppn flags level res)) {k : Nat}
    (hk : k ≤ level) : Open w.leaves (slotTable vpn k) := by
  refine ⟨?_, slotTable_small vpn k, fun l hl covered => ?_⟩
  · rw [slotTable_length]
    omega
  obtain ⟨hl3, al⟩ := h.level l hl
  have hlen := covered.length_le
  rw [slotTable_length, slotTable_length] at hlen
  have hlt : l.level < level := by omega
  refine clear l hl hlt (overlap_of_slots hl3 al ?_)
  have upper := slotTable_suffix vpn (show l.level + 1 ≤ k by omega)
  refine (List.suffix_of_suffix_length_le covered upper ?_).eq_of_length ?_
  · rw [slotTable_length, slotTable_length]
  · rw [slotTable_length, slotTable_length]

/-! ## Calls -/

section
variable {s s' : Phys σ} {t t' : PageTable} {rest : Multiset Frame} {leaves : List Leaf}
  {vpn ppn flags level : Nat} {res : Except MapError Unit}

theorem mapAtLevel_cases (h : mapAtLevel A s t vpn ppn flags level = some (res, s', t')) :
    level < 3 ∧ vpn % levelPages level = 0 ∧ mapAt A s t vpn ppn flags level = (res, s', t') := by
  rw [mapAtLevel] at h
  split at h
  · rename_i asserts
    exact ⟨asserts.1, asserts.2.1, Option.some.inj h⟩
  · cases h

/-- A larger leaf over the range is gone through. -/
theorem Inv.leaf_through (h : Inv A ⟨s, t, rest, leaves⟩) (hlevel : level < 3)
    (aligned : vpn % levelPages level = 0) {l : Leaf} (hl : l ∈ leaves) (hlt : l.level < level)
    (hover : Overlaps l vpn level) : l.slot ∈ through A s t vpn level := by
  obtain ⟨hl3, al⟩ := h.level l hl
  obtain ⟨q, hq, hslot, -⟩ := h.valid l hl
  have same := overlap_slots hl3 al hlevel aligned hover (Nat.le_refl _) (Nat.le_of_lt hlt)
  rw [slotTable_succ _ hl3, slotTable_succ _ hl3] at same
  obtain ⟨hindex, htable⟩ := List.cons.inj same
  rw [hslot, hindex]
  rw [htable] at hq
  exact mem_throughFrom (by omega) (by simpa [indices] using hl3) rfl hq

/-- A leaf at this level or below it means that the slot is taken. -/
theorem Inv.taken (h : Inv A ⟨s, t, rest, leaves⟩) (hlevel : level < 3)
    (aligned : vpn % levelPages level = 0) {l : Leaf} (hl : l ∈ leaves) (hle : level ≤ l.level)
    (hover : Overlaps l vpn level) : ∃ q, node s.mem t.root (slotTable vpn level) = some q ∧
      Pte.isValid (entry s.mem q (slotIndex vpn level)) = true := by
  obtain ⟨hl3, al⟩ := h.level l hl
  obtain ⟨q, hq, -, hvalid⟩ := h.valid l hl
  have same := overlap_slots hl3 al hlevel aligned hover hle (Nat.le_refl _)
  rcases Nat.lt_or_eq_of_le hle with hlt | rfl
  · obtain ⟨above, habove⟩ := slotTable_suffix l.vpn (show level + 1 ≤ l.level by omega)
    obtain ⟨q₁, hq₁⟩ : ∃ q₁, node s.mem t.root (slotTable vpn (level + 1)) = some q₁ := by
      apply Option.ne_none_iff_exists'.mp
      intro hnone
      rw [← habove, same, node_append_none _ hnone] at hq
      cases hq
    rw [slotTable_succ _ hlevel, node] at hq₁
    obtain ⟨q₂, hq₂, hbelow⟩ := Option.bind_eq_some_iff.mp hq₁
    refine ⟨q₂, hq₂, ?_⟩
    rw [tableBelow] at hbelow
    split at hbelow
    · assumption
    · cases hbelow
  · rw [slotTable_succ _ hl3, slotTable_succ _ hl3] at same
    obtain ⟨hindex, htable⟩ := List.cons.inj same
    rw [hindex] at hvalid
    rw [htable] at hq
    exact ⟨q, hq, hvalid⟩

/-- Adding tables keeps every leaf's entry. -/
theorem Inv.grown (h : Inv A ⟨s, t, rest, leaves⟩) (grown : Grown A (Open leaves) rest s t s' t') :
    Inv A ⟨s', t', rest, leaves⟩ := by
  refine ⟨grown.owns, h.level, h.isOpen, fun l hl => ?_⟩
  obtain ⟨q, hq, hslot, hvalid⟩ := h.valid l hl
  have hopen := h.isOpen l hl
  refine ⟨q, ?_, hslot, ?_⟩
  · rw [grown.root]
    exact grown.nodes _ q hopen hq
  · rw [grown.entries _ q _ hopen hq (slotIndex_lt _ _) (not_open hl (h.level l hl).1)]
    exact hvalid

/-- A leaf in a free slot: no leaf was in it or below it. -/
theorem Inv.install (h : Inv A ⟨s, t, rest, leaves⟩) {q : Nat} (hflags : flags < 2 ^ 64)
    (hlevel : level < 3) (aligned : vpn % levelPages level = 0)
    (hopen : Open leaves (slotTable vpn level))
    (hq : node s.mem t.root (slotTable vpn level) = some q)
    (free : Pte.isValid (entry s.mem q (slotIndex vpn level)) = false) :
    Inv A ⟨{ s with mem := leafAt s.mem q (slotIndex vpn level) ppn flags }, t, rest,
      ⟨vpn, level, slot q (slotIndex vpn level)⟩ :: leaves⟩ := by
  have hi := slotIndex_lt vpn level
  have hx : Pte.new ppn (PteFlags.present flags) < 2 ^ 64 :=
    Pte.new_lt_word ppn (PteFlags.present_lt_word hflags)
  have tables := h.owns.tables
  have nothing : ∀ p q', node s.mem t.root p = some q' → ¬ slotTable vpn (level + 1) <:+ p := by
    rintro p q' hp ⟨below, rfl⟩
    have hnone : node s.mem t.root (slotTable vpn (level + 1)) = none := by
      rw [slotTable_succ _ hlevel, node, hq, Option.bind_some, tableBelow, free]
      rfl
    rw [node_append_none _ hnone] at hp
    cases hp
  have sub : ∀ p, Open (⟨vpn, level, slot q (slotIndex vpn level)⟩ :: leaves) p →
      Open leaves p ∧ ¬ (slotIndex vpn level :: slotTable vpn level) <:+ p := by
    rintro p ⟨short, small, uncovered⟩
    refine ⟨⟨short, small, fun l hl => uncovered l (List.mem_cons_of_mem _ hl)⟩, ?_⟩
    rw [← slotTable_succ _ hlevel]
    exact uncovered ⟨vpn, level, slot q (slotIndex vpn level)⟩ List.mem_cons_self
  have stays : ∀ p q', Open leaves p → node s.mem t.root p = some q' →
      Open (⟨vpn, level, slot q (slotIndex vpn level)⟩ :: leaves) p ∧
      node (leafAt s.mem q (slotIndex vpn level) ppn flags) t.root p = some q' := by
    intro p q' hp hq'
    have apart := nothing p q' hq'
    refine ⟨⟨hp.1, hp.2.1, fun l hl => ?_⟩, ?_⟩
    · rcases List.mem_cons.mp hl with rfl | hl
      · exact apart
      · exact hp.2.2 l hl
    · rw [leafAt, tables.node_write hopen hq hi hx hp (by rwa [← slotTable_succ _ hlevel]), hq']
  refine ⟨⟨(h.owns.write_slot hopen hq hi).1, ?_⟩, fun l hl => ?_, fun l hl => ?_, fun l hl => ?_⟩
  · exact tables.write hopen hq hi hx (open_paths _) sub
  · rcases List.mem_cons.mp hl with rfl | hl
    · exact ⟨hlevel, aligned⟩
    · exact h.level l hl
  · rcases List.mem_cons.mp hl with rfl | hl
    · exact (stays _ q hopen hq).1
    · obtain ⟨q', hq', -⟩ := h.valid l hl
      exact (stays _ q' (h.isOpen l hl) hq').1
  · rcases List.mem_cons.mp hl with rfl | hl
    · refine ⟨q, (stays _ q hopen hq).2, rfl, ?_⟩
      simp only [leafAt, entry_write hi hi hx, and_self, if_true]
      exact Pte.isValid_present ppn flags
    · obtain ⟨q', hq', hslot, hvalid⟩ := h.valid l hl
      refine ⟨q', (stays _ q' (h.isOpen l hl) hq').2, hslot, ?_⟩
      have hne : ¬ (q' = q ∧ slotIndex l.vpn l.level = slotIndex vpn level) := by
        rintro ⟨rfl, hindex⟩
        rw [hindex, free] at hvalid
        cases hvalid
      simp only [leafAt, entry_write hi (slotIndex_lt _ _) hx, if_neg hne]
      exact hvalid

/-- A call that is clear of larger leaves keeps the invariant and stays apart. -/
theorem Inv.map (h : Inv A ⟨s, t, rest, leaves⟩) (hflags : flags < 2 ^ 64) (hlevel : level < 3)
    (aligned : vpn % levelPages level = 0)
    (clear : Clear (⟨s, t, rest, leaves⟩ : World σ) (.map vpn ppn flags level res))
    (heq : mapAt A s t vpn ppn flags level = (res, s', t')) :
    Inv A ⟨s', t', rest, record A s t vpn level leaves res⟩ ∧
      Apart A ⟨s, t, rest, leaves⟩ (.map vpn ppn flags level res)
        ⟨s', t', rest, record A s t vpn level leaves res⟩ := by
  have within := fun k (hk : k ≤ level) => h.within hlevel clear hk
  obtain ⟨r, s₁, t₁, hwalk, grown, out⟩ := h.owns.mapAt ppn flags hlevel within
  have inv₁ := h.grown grown
  have hnode : ∀ {p : List Nat} {q : Nat}, node s₁.mem t.root p = some q →
      node s₁.mem t₁.root p = some q := fun e => by rw [grown.root]; exact e
  have way : ∀ a ∈ through A s t vpn level, ∃ k q, k < level ∧ a = slot q (slotIndex vpn k) ∧
      node s₁.mem t₁.root (slotTable vpn k) = some q := by
    intro a ha
    obtain ⟨k, q, hk, rfl, hq⟩ := throughFrom_owned h.owns (Nat.zero_le level)
      (by rw [Nat.zero_add]; exact hlevel) rfl (fun k hk => within k (by omega)) a ha
    have hq : node (walkCreateTo A s t vpn level).2.1.mem t.root (slotTable vpn k) = some q := hq
    rw [hwalk] at hq
    exact ⟨k, q, by omega, rfl, hnode hq⟩
  have notLeaf : ∀ a ∈ through A s t vpn level, ∀ l ∈ leaves, a ≠ l.slot := by
    rintro a ha l hl rfl
    obtain ⟨k, q, hk, hslot, hq⟩ := way _ ha
    obtain ⟨q', hq', hslot', -⟩ := inv₁.valid l hl
    obtain ⟨rfl, hindex⟩ := slot_inj (slotIndex_lt _ _) (slotIndex_lt _ _) (hslot'.symm.trans hslot)
    have htable := grown.owns.tables.inj _ _ q' (h.isOpen l hl) (within k (by omega)) hq' hq
    have hopen := within (k + 1) (by omega)
    rw [slotTable_succ _ (by omega), ← hindex, ← htable] at hopen
    exact not_open hl (h.level l hl).1 hopen
  have inTable : ∀ a, a ∈ through A s t vpn level ∨ (walkCreateTo A s t vpn level).1 = some a →
      ∃ q i, i < 512 ∧ a = slot q i ∧ (⟨q, 0⟩ : Frame) ∈ t₁.frames := by
    have owned := fun k q hk hq => Multiset.mem_coe.mp
      (grown.owns.tables.held (slotTable vpn k) q (within k hk) hq)
    rintro a (ha | ha)
    · obtain ⟨k, q, hk, rfl, hq⟩ := way a ha
      exact ⟨q, _, slotIndex_lt vpn k, rfl, owned k q (by omega) hq⟩
    · rw [hwalk] at ha
      rcases out with ⟨rfl, -⟩ | ⟨q, rfl, hq, -⟩
      · cases ha
      · exact ⟨q, _, slotIndex_lt vpn level, (Option.some.inj ha).symm,
          owned level q (Nat.le_refl _) (hnode hq)⟩
  have rejected : ∀ l ∈ leaves, Overlaps l vpn level → mapAt A s t vpn ppn flags level =
      (.error .alreadyMapped, s, t) := by
    intro l hl hover
    have hle : level ≤ l.level := Nat.le_of_not_lt fun hlt => clear l hl hlt hover
    obtain ⟨q, hq, hvalid⟩ := h.taken hlevel aligned hl hle hover
    have present : node s.mem t.root (slotTable vpn level) ≠ none := by rw [hq]; simp
    rcases out with ⟨-, hnone, -⟩ | ⟨q', -, hq', same, ⟨-, heq'⟩ | ⟨free, -⟩⟩
    · exact absurd hnone present
    · obtain ⟨rfl, rfl⟩ := same present
      exact heq'
    · obtain ⟨rfl, rfl⟩ := same present
      obtain rfl : q = q' := Option.some.inj (hq.symm.trans hq')
      rw [hvalid] at free
      cases free
  have clause₁ : ∀ l ∈ leaves, Overlaps l vpn level → res = .error .alreadyMapped ∧
      (⟨s', t', rest, record A s t vpn level leaves res⟩ : World σ) = ⟨s, t, rest, leaves⟩ := by
    intro l hl hover
    obtain ⟨rfl, rfl, rfl⟩ : res = .error .alreadyMapped ∧ s' = s ∧ t' = t := by
      simpa using heq.symm.trans (rejected l hl hover)
    exact ⟨rfl, rfl⟩
  rcases out with ⟨-, -, heq'⟩ | ⟨q, rfl, hq, -, ⟨-, heq'⟩ | ⟨free, heq'⟩⟩
  · obtain ⟨rfl, rfl, rfl⟩ : res = .error .outOfMemory ∧ s' = s₁ ∧ t' = t₁ := by
      simpa using heq.symm.trans heq'
    exact ⟨inv₁, clause₁, notLeaf, inTable, grown.kept⟩
  · obtain ⟨rfl, rfl, rfl⟩ : res = .error .alreadyMapped ∧ s' = s₁ ∧ t' = t₁ := by
      simpa using heq.symm.trans heq'
    exact ⟨inv₁, clause₁, notLeaf, inTable, grown.kept⟩
  · obtain ⟨rfl, rfl, rfl⟩ : res = .ok () ∧
        s' = { s₁ with mem := leafAt s₁.mem q (slotIndex vpn level) ppn flags } ∧ t' = t₁ := by
      simpa using heq.symm.trans heq'
    have hopen := within level (Nat.le_refl _)
    have inv₂ : Inv A
        ⟨{ s₁ with mem := leafAt s₁.mem q (slotIndex vpn level) ppn flags }, _, _, _⟩ :=
      inv₁.install hflags hlevel aligned hopen (hnode hq) free
    have kept := (grown.owns.write_slot (x := Pte.new ppn (PteFlags.present flags)) hopen (hnode hq)
      (slotIndex_lt vpn level)).2
    refine ⟨?_, clause₁, notLeaf, inTable, grown.kept.trans kept⟩
    simp only [record, hwalk]
    exact inv₂

end

theorem Inv.start (h : (system A).init w) : Inv A w := by
  obtain ⟨⟨s, holds, heq⟩, empty⟩ := h
  obtain ⟨s', t, rest, leaves⟩ := w
  obtain rfl : leaves = [] := empty
  obtain ⟨ok, -⟩ := new_spec holds (Nat.le_refl 512) heq
  refine ⟨⟨ok.holds, ok.tree.tables.mono (open_paths []) ?_⟩, by simp, by simp, by simp⟩
  rintro p ⟨short, small, -⟩
  match p with
  | [] => trivial
  | [a] => exact small a (by simp)
  | [b, a] => exact ⟨small a (by simp), small b (by simp)⟩

theorem Inv.step (h : Inv A w) (hs : Step A w op w') (clear : Clear w op) :
    Inv A w' ∧ Apart A w op w' := by
  cases hs with
  | map hflags heq =>
    obtain ⟨hlevel, aligned, heq⟩ := mapAtLevel_cases heq
    exact h.map hflags hlevel aligned clear heq
  | @other s s' t rest rest' leaves holds kept =>
    refine ⟨⟨⟨holds, h.owns.tables.kept kept⟩, h.level, h.isOpen, fun l hl => ?_⟩, trivial⟩
    obtain ⟨q, hq, hslot, hvalid⟩ := h.valid l hl
    have hopen := h.isOpen l hl
    refine ⟨q, (h.owns.tables.node_kept kept hopen).trans hq, hslot, ?_⟩
    rw [h.owns.tables.entry_kept kept hopen hq (slotIndex_lt _ _)]
    exact hvalid

theorem Reach.inv (h : Reach ((system A).guard Clear) w) : Inv A w := by
  refine Reach.invariant (S := (system A).guard Clear) (Inv A) (fun _ => Inv.start) ?_ h
  rintro w op w' inv ⟨hs, clear⟩
  exact (inv.step hs clear).1

/-- A call stays apart exactly if no larger leaf lies over its range, in every run
in which the calls before it did. -/
theorem reach_apart (h : Reach ((system A).guard Clear) w) (hs : Step A w op w') :
    Apart A w op w' ↔ Clear w op := by
  have inv := Reach.inv h
  refine ⟨fun apart => ?_, fun clear => (inv.step hs clear).2⟩
  cases hs with
  | map _ heq =>
    obtain ⟨hlevel, aligned, -⟩ := mapAtLevel_cases heq
    intro l hl hlt hover
    exact apart.2.1 _ (inv.leaf_through hlevel aligned hl hlt hover) l hl rfl
  | other => trivial

/-! ## A page under a superpage -/

/-- A superpage mapped right after boot, over a run that its user holds. -/
theorem boot_superpage : ∃ (s s' : Phys Buddy.BuddyAllocator) (t t' : PageTable) (f : Frame)
    (q : Nat),
    Reach ((system Buddy.allocator.toFrameAllocator).guard Clear) ⟨s, t, {f}, []⟩ ∧
    Step Buddy.allocator.toFrameAllocator ⟨s, t, {f}, []⟩ (.map 0 f.ppn PteFlags.rw 1 (.ok ()))
      ⟨s', t', {f}, [⟨0, 1, slot q 0⟩]⟩ ∧
    node s'.mem t'.root [0] = some q ∧
    entry s'.mem q 0 = Pte.new f.ppn (PteFlags.present PteFlags.rw) ∧
    f.ppn < 2 ^ 44 ∧ Zeroed f s'.mem := by
  obtain ⟨s₀, -, holds₀, havail₀⟩ := Buddy.merging_boot
  obtain ⟨f, s₁, hrun⟩ := Buddy.merging_room (k := 9) holds₀ (by decide) (by simp [havail₀])
  obtain ⟨horder, ⟨htop, L, inv, -⟩, -, zeroed⟩ := Buddy.merging.alloc_some holds₀ hrun
  have holds₁ : Buddy.allocator.Holds s₁ {f} := ⟨htop, L, inv⟩
  have halign := inv.aligned (Multiset.mem_cons_self f 0)
  have hppn := Buddy.allocator.ppn_lt holds₁ (Multiset.mem_singleton_self f)
  have havail₁ := Buddy.merging.alloc_avail holds₀ hrun
  rw [Frame.count, horder] at havail₁ hppn
  rw [horder] at halign
  obtain ⟨g, s₂, hroot, havail₂⟩ :=
    CountedAllocator.alloc_one holds₁ (show 0 < Buddy.merging.avail s₁ by omega)
  have hnew : PageTable.new Buddy.allocator.toFrameAllocator s₁ = (some ⟨g.ppn, [g]⟩, s₂) := by
    simp [PageTable.new, hroot]
  have start : (system Buddy.allocator.toFrameAllocator).init ⟨s₂, ⟨g.ppn, [g]⟩, {f}, []⟩ :=
    ⟨⟨s₁, holds₁, hnew⟩, rfl⟩
  obtain ⟨g', -, e, -, -, kept, hempty⟩ := new_cases holds₁ hnew
  obtain ⟨hg, -⟩ := PageTable.mk.inj e
  have hempty : entry s₂.mem g.ppn 0 = 0 := by rw [hg]; exact hempty 0 (by decide)
  have hroom : 0 < Buddy.allocator.avail s₂ := by
    have : Buddy.merging.avail s₁ = Buddy.allocator.avail s₁ := rfl
    omega
  have inv₂ := Inv.start start
  obtain ⟨q, s₃, s', t', hwalk, hmap, hroot', hnode, hentry, -⟩ := inv₂.owns.first_superpage f.ppn
    ⟨by decide, by simp, by simp⟩
    (show Open [] [slotIndex 0 0] from ⟨by decide, by decide, by simp⟩)
    hempty hroom (show PteFlags.rw < 2 ^ 64 by decide)
  have step : Step Buddy.allocator.toFrameAllocator ⟨s₂, ⟨g.ppn, [g]⟩, {f}, []⟩
      (.map 0 f.ppn PteFlags.rw 1 (.ok ())) _ :=
    .map (by decide) (by rw [mapAtLevel, if_pos ⟨by decide, by decide, halign⟩, hmap])
  rw [record, hwalk] at step
  obtain ⟨-, -, -, kept'⟩ := (inv₂.step step (by simp [Clear])).2
  refine ⟨s₂, s', _, t', f, q, .init start, step, hroot' ▸ hnode,
    hentry, by omega, fun a lo hi => ?_⟩
  have held := framesOver_of_mem (Multiset.mem_singleton_self f) lo hi
  rw [kept' a held, kept a held, zeroed a lo hi]

theorem small_page_under_superpage : ∃ (w w' : World Buddy.BuddyAllocator) (f : Frame) (l : Leaf),
    Reach (system Buddy.allocator.toFrameAllocator) w ∧ f ∈ w.rest ∧ w.leaves = [l] ∧
    Overlaps l 1 2 ∧ Step Buddy.allocator.toFrameAllocator w (.map 1 0 PteFlags.rw 2 (.ok ())) w' ∧
    read64 w.phys.mem (slot f.ppn 1) = 0 ∧
    read64 w'.phys.mem (slot f.ppn 1) = Pte.new 0 (PteFlags.present PteFlags.rw) ∧
    ¬ Apart Buddy.allocator.toFrameAllocator w (.map 1 0 PteFlags.rw 2 (.ok ())) w' := by
  obtain ⟨s, s', t, t', f, q, hreach, step, hnode, hentry, hppn, zeroed⟩ := boot_superpage
  have hreach' := (Reach.of_guard hreach).step _ step
  have hover : Overlaps ⟨0, 1, slot q 0⟩ 1 2 :=
    ⟨1, 1, Nat.zero_le 1, show 1 < 0 + levelPages 1 by decide, by decide, by decide, rfl⟩
  have hvalid : Pte.isValid (entry s'.mem t'.root 0) = true ∧
      Pte.ppn (entry s'.mem t'.root 0) = q := by
    simpa [node, tableBelow] using hnode
  have hflags : PteFlags.present PteFlags.rw < 2 ^ 10 := by decide
  have hleaf : Pte.isValid (entry s'.mem q 0) = true ∧ Pte.ppn (entry s'.mem q 0) = f.ppn := by
    rw [hentry]
    exact ⟨Pte.isValid_present _ _, Pte.ppn_new hppn hflags⟩
  have hzero : read64 s'.mem (slot f.ppn 1) = 0 := by
    have hone : 1 ≤ f.count := Nat.two_pow_pos _
    refine readLE_zero fun a lo hi => zeroed a ?_ ?_
    all_goals
      simp only [slot, baseAddr, pageNum, pageSize] at *
      omega
  have hwalk : walkCreateTo Buddy.allocator.toFrameAllocator s' t' 1 2 =
      (some (slot f.ppn 1), s', t') := by
    rw [walkCreateTo, show indices 1 = [0, 0, 1] from rfl]
    simp [walkFrom, descend, hvalid, hleaf]
  have hmap : mapAtLevel Buddy.allocator.toFrameAllocator s' t' 1 0 PteFlags.rw 2 = some (.ok (),
      { s' with mem := leafAt s'.mem f.ppn 1 0 PteFlags.rw }, t') := by
    rw [mapAtLevel, if_pos ⟨by decide, by decide, by decide⟩, mapAt, hwalk]
    simp only [hzero, Pte.not_isValid_zero, Bool.false_eq_true, if_false]
    rfl
  refine ⟨_, _, f, _, hreach', Multiset.mem_singleton_self f, rfl, hover,
    Step.map (by decide) hmap, hzero, ?_, ?_⟩
  · exact (entry_write (by decide) (by decide) (by decide) f.ppn).trans (if_pos ⟨rfl, rfl⟩)
  · rintro ⟨rejected, -⟩
    obtain ⟨e, -⟩ := rejected _ List.mem_cons_self hover
    cases e

/-- A second superpage in the place of the first is rejected. -/
theorem superpage_twice : ∃ (w : World Buddy.BuddyAllocator) (l : Leaf),
    Reach ((system Buddy.allocator.toFrameAllocator).guard Clear) w ∧ w.leaves = [l] ∧
    Overlaps l 0 1 ∧
    Step Buddy.allocator.toFrameAllocator w (.map 0 0 PteFlags.rw 1 (.error .alreadyMapped)) w ∧
    Apart Buddy.allocator.toFrameAllocator w (.map 0 0 PteFlags.rw 1
      (.error .alreadyMapped)) w := by
  obtain ⟨s, s', t, t', f, q, hreach, step, -⟩ := boot_superpage
  have hreach' := hreach.step _ ⟨step, by simp [Clear]⟩
  have hover : Overlaps ⟨0, 1, slot q 0⟩ 0 1 :=
    ⟨0, 0, Nat.le_refl 0, show 0 < 0 + levelPages 1 by decide, Nat.le_refl 0, by decide, rfl⟩
  rcases hmap : mapAt Buddy.allocator.toFrameAllocator s' t' 0 0 PteFlags.rw 1 with ⟨res, s₁, t₁⟩
  have again : mapAtLevel Buddy.allocator.toFrameAllocator s' t' 0 0 PteFlags.rw 1 =
      some (res, s₁, t₁) := by
    rw [mapAtLevel, if_pos ⟨by decide, by decide, by decide⟩, hmap]
  have step' : Step _ ⟨s', t', {f}, [⟨0, 1, slot q 0⟩]⟩ _ _ := .map (by decide) again
  have apart := (reach_apart hreach' step').mpr (by simp [Clear])
  obtain ⟨rfl, same⟩ := apart.1 _ List.mem_cons_self hover
  rw [same] at step' apart
  exact ⟨_, _, hreach', rfl, hover, step', apart⟩

end AlexOS.LeafRun
