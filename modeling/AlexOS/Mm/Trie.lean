import AlexOS.Mm.Space
import AlexOS.Mm.Superpages
import AlexOS.Mm.Sv39
import AlexOS.Mm.Walk
import Mathlib.Data.Finset.Card

/-!
# A page table by its words

The tables reachable from a root and the valid words in their other entries, by path.
Nothing is asked of a word in a last table, and above that only that the software sees
a leaf there; the tables may be the frames of another page table. Which words there are
decides every walk of the hardware. Mapping and unmapping change one word, whatever
comes of the allocator.
-/

namespace AlexOS

open Bytes PageTable

/-- What the hardware makes of an entry it does not follow. -/
def Sv39.verdict (level pte : Nat) : Walk :=
  if has pte PteFlags.valid = false ∨
      (has pte PteFlags.read = false ∧ has pte PteFlags.write = true) ∨ 2 ^ 54 ≤ pte then .fault
  else if has pte PteFlags.read = true ∨ has pte PteFlags.exec = true then
    if Pte.ppn pte % ptePerTable ^ level = 0 then .leaf level pte else .fault
  else .fault

theorem PteFlags.contains_of_intersects_rwx {f : Nat} (h : intersects f rwx = true) :
    contains f read = true ∨ contains f write = true ∨ contains f exec = true := by
  have bit : ∀ k, f &&& 2 ^ k = 0 ∨ f &&& 2 ^ k = 2 ^ k := fun k => by
    rw [Nat.and_two_pow]
    rcases f.testBit k <;> simp
  simp only [contains, intersects, rwx, beq_iff_eq, bne_iff_ne, ne_eq, Nat.and_or_distrib_left,
    Nat.or_eq_zero_iff] at h ⊢
  rcases bit 1 with hr | hr
  · rcases bit 2 with hw | hw
    · rcases bit 3 with hx | hx
      · exact absurd ⟨⟨hr, hw⟩, hx⟩ h
      · exact .inr (.inr hx)
    · exact .inr (.inl hw)
  · exact .inl hr

/-- In a last table nothing is followed, and above it no leaf is. -/
theorem Sv39.walkFrom_end {m : Mem} {i q : Nat} {is : List Nat}
    (h : is = [] ∨ Pte.isLeaf (entry m q i) = true) :
    walkFrom m (i :: is) q = verdict is.length (entry m q i) := by
  rw [walkFrom, verdict]
  generalize entry m q i = e at h
  split
  · rfl
  · rename_i sound
    split
    · rfl
    · rename_i unreadable
      rcases h with rfl | hleaf
      · split <;> rfl
      · rw [Pte.isLeaf, Bool.and_eq_true] at hleaf
        rcases PteFlags.contains_of_intersects_rwx hleaf.2 with hr | hw | hx
        · exact absurd (.inl hr) unreadable
        · refine absurd (.inr (.inl ⟨?_, hw⟩)) sound
          exact Bool.eq_false_of_not_eq_true fun hr => unreadable (.inl hr)
        · exact absurd (.inr hx) unreadable

theorem Sv39.verdict_leaf {level p f : Nat} (hp : p < 2 ^ 44) (hf : LegalFlags f)
    (aligned : p % ptePerTable ^ level = 0) :
    verdict level (Pte.new p (PteFlags.present f)) =
      .leaf level (Pte.new p (PteFlags.present f)) := by
  have hpf := PteFlags.present_lt hf.lt
  have hlt := Pte.new_lt hp hpf
  rw [verdict]
  simp only [has, Pte.flags_new _ hpf, Pte.ppn_new hp hpf,
    PteFlags.contains_present (f := f) (g := PteFlags.read) (by decide),
    PteFlags.contains_present (f := f) (g := PteFlags.write) (by decide),
    PteFlags.contains_present (f := f) (g := PteFlags.exec) (by decide)]
  rw [if_neg, if_pos hf.leaf, if_pos aligned]
  rintro (hv | ⟨hr, hw⟩ | hbig)
  · have hvalid : PteFlags.contains (PteFlags.present f) PteFlags.valid = true := by
      rw [← Pte.flags_new p hpf]
      exact Pte.isValid_present p f
    rw [hvalid] at hv
    cases hv
  · rw [hf.write hw] at hr
    cases hr
  · omega

/-- Paths lead from an entry up to the root. -/
structure Trie where
  tables : Finset (List Nat)
  leaves : List Nat → Option Nat
  root : [] ∈ tables
  tail : ∀ {i : Nat} {p : List Nat}, i :: p ∈ tables → p ∈ tables
  depth : ∀ {x : List Nat}, x ∈ tables → x.length ≤ 2
  under : ∀ {x : List Nat} {w : Nat}, leaves x = some w → x ∉ tables ∧ x.tail ∈ tables
  stop : ∀ {x : List Nat} {w : Nat}, leaves x = some w →
    Pte.isValid w = true ∧ (x.length ≤ 2 → Pte.isLeaf w = true)

namespace Trie

variable {r : Trie} {i w : Nat} {p x : List Nat}

theorem not_leaf (h : x ∈ r.tables) : r.leaves x = none := by
  rcases hx : r.leaves x with _ | w
  · rfl
  · exact absurd h (r.under hx).1

/-- The first word on the way decides. -/
def find (leaves : List Nat → Option Nat) : List Nat → List Nat → Sv39.Walk
  | [], _ => .fault
  | i :: is, p =>
    match leaves (i :: p) with
    | some w => Sv39.verdict is.length w
    | none => find leaves is (i :: p)

theorem find_below (is : List Nat) (h : p ∉ r.tables) : find r.leaves is p = .fault := by
  induction is generalizing p with
  | nil => rfl
  | cons i is ih =>
    have hnone : r.leaves (i :: p) = none := by
      rcases hx : r.leaves (i :: p) with _ | w
      · rfl
      · exact absurd (r.under hx).2 h
    rw [find, hnone]
    exact ih fun hin => h (r.tail hin)

def grow (r : Trie) (i : Nat) (p : List Nat) (hp : p ∈ r.tables) (short : p.length ≤ 1)
    (free : r.leaves (i :: p) = none) : Trie where
  tables := insert (i :: p) r.tables
  leaves := r.leaves
  root := Finset.mem_insert_of_mem r.root
  tail := by
    intro j q hq
    rcases Finset.mem_insert.mp hq with heq | hq
    · obtain ⟨rfl, rfl⟩ := List.cons.inj heq
      exact Finset.mem_insert_of_mem hp
    · exact Finset.mem_insert_of_mem (r.tail hq)
  depth := by
    intro x hx
    rcases Finset.mem_insert.mp hx with rfl | hx
    · rw [List.length_cons]
      omega
    · exact r.depth hx
  under := by
    intro x w hx
    obtain ⟨hnot, htail⟩ := r.under hx
    refine ⟨fun h => ?_, Finset.mem_insert_of_mem htail⟩
    rcases Finset.mem_insert.mp h with rfl | h
    · rw [free] at hx
      cases hx
    · exact hnot h
  stop := r.stop

/-- Another word, or none, in an entry. -/
def set (r : Trie) (i : Nat) (p : List Nat) (o : Option Nat) (hp : p ∈ r.tables)
    (free : i :: p ∉ r.tables)
    (ends : ∀ w, o = some w → Pte.isValid w = true ∧ (p.length ≤ 1 → Pte.isLeaf w = true)) :
    Trie where
  tables := r.tables
  leaves := Function.update r.leaves (i :: p) o
  root := r.root
  tail := r.tail
  depth := r.depth
  under := by
    intro x w hx
    rw [Function.update_apply] at hx
    split at hx
    · rename_i h
      subst h
      exact ⟨free, hp⟩
    · exact r.under hx
  stop := by
    intro x w hx
    rw [Function.update_apply] at hx
    split at hx
    · rename_i h
      subst h
      obtain ⟨hvalid, hleaf⟩ := ends w hx
      refine ⟨hvalid, fun hlen => hleaf ?_⟩
      rw [List.length_cons] at hlen
      omega
    · exact r.stop hx

/-- What is in the entry at `x`. -/
structure Stored (r : Trie) (place : List Nat → Nat) (x : List Nat) (e : Nat) : Prop where
  table : x ∈ r.tables → e = Pte.new (place x) PteFlags.valid
  leaf : ∀ w, r.leaves x = some w → e = w
  none : x ∉ r.tables → r.leaves x = .none → Pte.isValid e = false

/-- The tables are among the frames `tabs`; `others` are the other frames that are held. -/
structure Shows {σ : Type} (A : FrameAllocator σ) (s : Phys σ) (root : Nat)
    (tabs others : Multiset Frame) (place : List Nat → Nat) (r : Trie) : Prop where
  holds : A.Holds s (tabs + others)
  top : place [] = root
  held : ∀ p ∈ r.tables, (⟨place p, 0⟩ : Frame) ∈ tabs
  inj : ∀ p ∈ r.tables, ∀ p' ∈ r.tables, place p = place p' → p = p'
  entry : ∀ p ∈ r.tables, ∀ i < 512, r.Stored place (i :: p) (entry s.mem (place p) i)

variable {σ : Type} {A : FrameAllocator σ} {s s' : Phys σ} {root : Nat}
  {tabs others : Multiset Frame} {place : List Nat → Nat}

theorem Shows.place_lt (h : Shows A s root tabs others place r) (hp : p ∈ r.tables) :
    place p < 2 ^ 44 :=
  FrameAllocator.page_lt h.holds (Multiset.mem_add.mpr (.inl (h.held p hp)))

theorem Shows.walkFrom_eq (h : Shows A s root tabs others place r) {is : List Nat}
    (hp : p ∈ r.tables) (small : ∀ i ∈ is, i < 512) (hlen : is.length + p.length = 3) :
    Sv39.walkFrom s.mem is (place p) = find r.leaves is p := by
  induction is generalizing p with
  | nil => rfl
  | cons i is ih =>
    have stored := h.entry p hp i (small i List.mem_cons_self)
    have hlen' : is.length + (i :: p).length = 3 := by
      rw [List.length_cons] at hlen ⊢
      omega
    rw [find]
    rcases hleaf : r.leaves (i :: p) with _ | w
    · by_cases htable : i :: p ∈ r.tables
      · rw [Sv39.walkFrom_table (h.place_lt htable) (stored.table htable)]
        exact ih htable (fun j hj => small j (List.mem_cons_of_mem _ hj)) hlen'
      · rw [Sv39.walkFrom_invalid (stored.none htable hleaf)]
        exact (find_below is htable).symm
    · have hentry := stored.leaf w hleaf
      rw [Sv39.walkFrom_end, hentry]
      rw [hentry]
      refine Classical.or_iff_not_imp_left.mpr fun hne => (r.stop hleaf).2 ?_
      have := List.length_pos_iff.mpr hne
      omega

/-- The words decide where the hardware ends. -/
theorem Shows.walk_eq (h : Shows A s root tabs others place r) {va : Nat}
    (hva : Sv39.Canonical va) :
    Sv39.walk s.mem root va = find r.leaves (indices (pageNum va)) [] := by
  rw [Sv39.walk_eq s.mem root hva, ← h.top]
  exact h.walkFrom_eq r.root (WalkRun.indices_small _) rfl

/-- The tree of a table that was just made. -/
def bare : Trie where
  tables := {[]}
  leaves := fun _ => none
  root := Finset.mem_singleton_self _
  tail := fun h => by cases Finset.mem_singleton.mp h
  depth := fun h => by
    rw [Finset.mem_singleton.mp h]
    exact Nat.zero_le 2
  under := fun h => by cases h
  stop := fun h => by cases h

theorem Shows.fresh {rest : Multiset Frame} {t : PageTable} (holds : A.Holds s rest)
    (heq : PageTable.new A s = (some t, s')) :
    Shows A s' t.root t.frames rest (fun _ => t.root) bare := by
  rw [PageTable.new] at heq
  rcases halloc : A.allocOrder s 0 with ⟨_ | f, s₁⟩
  · rw [halloc] at heq
    cases heq
  rw [halloc] at heq
  obtain ⟨rfl, rfl⟩ : (⟨f.ppn, [f]⟩ : PageTable) = t ∧ s₁ = s' := by simpa using heq
  obtain ⟨horder, holds', -, zeroed⟩ := A.alloc_some holds halloc
  refine ⟨?_, rfl, fun p hp => ?_, fun p hp p' hp' _ => ?_, fun p hp i hi => ?_⟩
  · rwa [Multiset.coe_singleton, Multiset.singleton_add]
  · rw [← horder]
    exact Multiset.mem_coe.mpr List.mem_cons_self
  · rw [Finset.mem_singleton.mp hp, Finset.mem_singleton.mp hp']
  · rw [zeroed.entry hi]
    refine ⟨fun hin => ?_, fun _ hleaf => ?_, fun _ _ => Pte.not_isValid_zero⟩
    · cases Finset.mem_singleton.mp hin
    · cases hleaf

/-! ## Other owners -/

theorem Shows.kept (h : Shows A s root tabs others place r) {others' : Multiset Frame}
    (holds : A.Holds s' (tabs + others')) (kept : Kept tabs s.mem s'.mem) :
    Shows A s' root tabs others' place r := by
  refine ⟨holds, h.top, h.held, h.inj, fun p hp i hi => ?_⟩
  rw [entry_held (h.held p hp) kept hi]
  exact h.entry p hp i hi

theorem Shows.alloc (h : Shows A s root tabs others place r) {f : Frame} {k : Nat}
    (heq : A.allocOrder s k = (some f, s')) :
    Shows A s' root tabs (f ::ₘ others) place r := by
  obtain ⟨-, holds, kept, -⟩ := A.alloc_some h.holds heq
  refine h.kept ?_ (kept.mono (Multiset.le_add_right _ _))
  rwa [Multiset.add_cons]

theorem Shows.dropFrames (fs : List Frame) (h : Shows A s root tabs (fs + others) place r) :
    ∃ s', AlexOS.dropFrames A s fs = some s' ∧ Shows A s' root tabs others place r := by
  induction fs generalizing s with
  | nil =>
    rw [Multiset.coe_nil, zero_add] at h
    exact ⟨s, rfl, h⟩
  | cons f fs ih =>
    have hsplit : tabs + (((f :: fs : List Frame) : Multiset Frame) + others) =
        f ::ₘ (tabs + (fs + others)) := by
      rw [← Multiset.cons_coe, Multiset.cons_add, Multiset.add_cons]
    have holds := h.holds
    rw [hsplit] at holds
    obtain ⟨s₁, heq, holds₁, kept⟩ := A.free_some holds
    obtain ⟨s', hdrop, shows'⟩ := ih (h.kept holds₁ (kept.mono (Multiset.le_add_right _ _)))
    refine ⟨s', ?_, shows'⟩
    rw [AlexOS.dropFrames, heq]
    exact hdrop

/-! ## Writing an entry -/

theorem Shows.outside (h : Shows A s root tabs others place r) (hp : p ∈ r.tables) (hi : i < 512)
    (w : Nat) {a : Nat} (ha : framesOver (tabs + others) (pageNum a) = 0) :
    write64 s.mem (slot (place p) i) w a = s.mem a := by
  refine write_slot_outside hi fun e => ?_
  have := frame_held (h.held p hp) e
  rw [framesOver_add] at ha
  omega

theorem Shows.entry_write (h : Shows A s root tabs others place r)
    (hp : p ∈ r.tables) (hi : i < 512)
    {w j : Nat} {q : List Nat} (hw : w < 2 ^ 64) (hq : q ∈ r.tables) (hj : j < 512) :
    AlexOS.entry (write64 s.mem (slot (place p) i) w) (place q) j =
      if j :: q = i :: p then w else AlexOS.entry s.mem (place q) j := by
  rw [AlexOS.entry_write hi hj hw]
  by_cases hsame : j :: q = i :: p
  · obtain ⟨rfl, rfl⟩ := List.cons.inj hsame
    rw [if_pos ⟨rfl, rfl⟩, if_pos rfl]
  · rw [if_neg hsame, if_neg]
    rintro ⟨hplace, rfl⟩
    exact hsame (by rw [h.inj q hq p hp hplace])

theorem Shows.set (h : Shows A s root tabs others place r) (hp : p ∈ r.tables) (hi : i < 512)
    {o : Option Nat} (free : i :: p ∉ r.tables)
    (ends : ∀ w, o = some w → Pte.isValid w = true ∧ (p.length ≤ 1 → Pte.isLeaf w = true))
    (hw : w < 2 ^ 64) (some : ∀ w', o = some w' → w' = w)
    (none : o = none → Pte.isValid w = false) :
    Shows A { s with mem := write64 s.mem (slot (place p) i) w } root tabs others place
      (r.set i p o hp free ends) := by
  refine ⟨A.write h.holds fun a ha => h.outside hp hi w ha, h.top, h.held, h.inj,
    fun q hq j hj => ?_⟩
  have stored := h.entry q hq j hj
  have self : (r.set i p o hp free ends).leaves (i :: p) = o := Function.update_self _ _ _
  rw [h.entry_write hp hi hw hq hj]
  by_cases hsame : j :: q = i :: p
  · rw [if_pos hsame, hsame]
    refine ⟨fun hin => absurd hin free, fun w' hw' => ?_, fun _ hnone => ?_⟩
    · exact (some w' (self.symm.trans hw')).symm
    · exact none (self.symm.trans hnone)
  · rw [if_neg hsame]
    have hleaf : (r.set i p o hp free ends).leaves (j :: q) = r.leaves (j :: q) :=
      Function.update_of_ne hsame _ _
    refine ⟨stored.table, fun w' hw' => stored.leaf w' (hleaf ▸ hw'),
      fun hnot hnone => stored.none hnot (hleaf ▸ hnone)⟩

theorem mem_grow {hp : p ∈ r.tables} {short : p.length ≤ 1} {free : r.leaves (i :: p) = none} :
    x ∈ (r.grow i p hp short free).tables ↔ x = i :: p ∨ x ∈ r.tables :=
  Finset.mem_insert

/-- An empty frame becomes the table at `i :: p`. -/
theorem Shows.link (h : Shows A s root tabs others place r) (hp : p ∈ r.tables) (hi : i < 512)
    (short : p.length ≤ 1) (free : r.leaves (i :: p) = none) (missing : i :: p ∉ r.tables)
    {f : Frame} (hf : (⟨f.ppn, 0⟩ : Frame) ∈ tabs) (hlt : f.ppn < 2 ^ 44)
    (fresh : ∀ q ∈ r.tables, place q ≠ f.ppn) (empty : ∀ j < 512, AlexOS.entry s.mem f.ppn j = 0) :
    Shows A { s with mem := linked s.mem (place p) i f } root tabs others
      (Function.update place (i :: p) f.ppn) (r.grow i p hp short free) := by
  have hw : Pte.new f.ppn PteFlags.valid < 2 ^ 64 :=
    Nat.lt_trans (Pte.new_lt hlt (by decide)) (by decide)
  have self : Function.update place (i :: p) f.ppn (i :: p) = f.ppn := Function.update_self _ _ _
  have old : ∀ q ∈ r.tables, Function.update place (i :: p) f.ppn q = place q := by
    intro q hq
    refine Function.update_of_ne (fun same => missing ?_) _ _
    rwa [← same]
  refine ⟨A.write h.holds fun a ha => h.outside hp hi _ ha, ?_, fun q hq => ?_,
    fun q hq q' hq' same => ?_, fun q hq j hj => ?_⟩
  · rw [old [] r.root, h.top]
  · rcases Finset.mem_insert.mp hq with rfl | hq
    · rwa [self]
    · rw [old q hq]
      exact h.held q hq
  · rcases Finset.mem_insert.mp hq with rfl | hq <;> rcases Finset.mem_insert.mp hq' with rfl | hq'
    · rfl
    · rw [self, old q' hq'] at same
      exact absurd same.symm (fresh q' hq')
    · rw [self, old q hq] at same
      exact absurd same (fresh q hq)
    · rw [old q hq, old q' hq'] at same
      exact h.inj q hq q' hq' same
  · rcases Finset.mem_insert.mp hq with rfl | hq
    · have hread : AlexOS.entry (linked s.mem (place p) i f) f.ppn j = 0 := by
        rw [linked, AlexOS.entry_write hi hj hw, if_neg, empty j hj]
        exact fun same => fresh p hp same.1.symm
      rw [self, hread]
      refine ⟨fun hin => ?_, fun w hleaf => ?_, fun _ _ => Pte.not_isValid_zero⟩
      · rcases mem_grow.mp hin with same | hin
        · exact absurd same (List.cons_ne_self j _)
        · exact absurd (r.tail hin) missing
      · exact absurd (r.under hleaf).2 missing
    · rw [old q hq]
      have stored := h.entry q hq j hj
      have hread : AlexOS.entry (linked s.mem (place p) i f) (place q) j = _ :=
        h.entry_write hp hi hw hq hj
      rw [hread]
      by_cases hsame : j :: q = i :: p
      · rw [if_pos hsame, hsame]
        refine ⟨fun _ => by rw [self], fun w hleaf => ?_, fun hnot => ?_⟩
        · cases free.symm.trans hleaf
        · exact absurd (mem_grow.mpr (.inl rfl)) hnot
      · rw [if_neg hsame]
        refine ⟨fun hin => ?_, stored.leaf, fun hnot => stored.none fun hin => hnot ?_⟩
        · have hin := (mem_grow.mp hin).resolve_left hsame
          rw [old _ hin]
          exact stored.table hin
        · exact mem_grow.mpr (.inr hin)

/-! ## The way down -/

variable {B : CountedAllocator σ} {t : PageTable}

/-- The tree has grown by some of the tables at `paths`, in the frames `new`. -/
structure Grows (B : CountedAllocator σ) (root : Nat) (tabs others : Multiset Frame)
    (paths : List Nat → Prop) (s : Phys σ) (r : Trie) (s' : Phys σ) (new : List Frame)
    (place' : List Nat → Nat) (r' : Trie) : Prop where
  shows : Shows B.toFrameAllocator s' root (new + tabs) others place' r'
  leaves : r'.leaves = r.leaves
  old : r.tables ⊆ r'.tables
  paths : ∀ x ∈ r'.tables, x ∈ r.tables ∨ paths x
  count : B.avail s' + r'.tables.card = B.avail s + r.tables.card

theorem Grows.refl {paths : List Nat → Prop}
    (h : Shows B.toFrameAllocator s root tabs others place r) :
    Grows B root tabs others paths s r s [] place r := by
  refine ⟨?_, rfl, fun _ hx => hx, fun _ hx => .inl hx, rfl⟩
  rwa [Multiset.coe_nil, zero_add]

theorem Grows.trans {paths paths' : List Nat → Prop} {s₁ : Phys σ} {new new' : List Frame}
    {place₁ place' : List Nat → Nat} {r₁ r' : Trie}
    (g : Grows B root tabs others paths s r s₁ new place₁ r₁)
    (g' : Grows B root (new + tabs) others paths' s₁ r₁ s' new' place' r')
    (sub : ∀ x, paths x → paths' x) :
    Grows B root tabs others paths' s r s' (new ++ new') place' r' := by
  refine ⟨?_, g'.leaves.trans g.leaves, fun x hx => g'.old (g.old hx), fun x hx => ?_,
    g'.count.trans g.count⟩
  · have hsum : ((new ++ new' : List Frame) : Multiset Frame) + tabs = new' + (new + tabs) := by
      rw [← Multiset.coe_add, add_assoc, add_left_comm]
    rw [hsum]
    exact g'.shows
  · rcases g'.paths x hx with hx | hx
    · exact (g.paths x hx).imp_right (sub x)
    · exact .inr hx

/-- The table below an entry is there, or is made, or there is no frame for it. -/
theorem Shows.descend (h : Shows B.toFrameAllocator s root tabs others place r) (hp : p ∈ r.tables)
    (hi : i < 512) (short : p.length ≤ 1) (free : r.leaves (i :: p) = none) (t : PageTable) :
    (B.avail s = 0 ∧ i :: p ∉ r.tables ∧
      PageTable.descend B.toFrameAllocator s t (place p) i = (none, s, t)) ∨
    ∃ s' new place' r', PageTable.descend B.toFrameAllocator s t (place p) i =
        (some (place' (i :: p)), s', { t with frames := t.frames ++ new }) ∧
      Grows B root tabs others (· = i :: p) s r s' new place' r' ∧ i :: p ∈ r'.tables := by
  have stored := h.entry p hp i hi
  by_cases htable : i :: p ∈ r.tables
  · refine .inr ⟨s, [], place, r, ?_, .refl h, htable⟩
    have hlt := h.place_lt htable
    rw [PageTable.descend, stored.table htable, if_pos (isValid_table hlt),
      Pte.ppn_new hlt (by decide), List.append_nil]
  have hinvalid := stored.none htable free
  rw [PageTable.descend, hinvalid, if_neg (by decide)]
  rcases halloc : B.allocOrder s 0 with ⟨_ | f, s₁⟩
  · obtain rfl := B.alloc_none h.holds halloc
    refine .inl ⟨?_, htable, rfl⟩
    by_contra hpos
    have := B.alloc_isSome h.holds (Nat.pos_of_ne_zero hpos)
    rw [halloc] at this
    cases this
  refine .inr ?_
  obtain ⟨horder, holds, kept, zeroed⟩ := B.alloc_some h.holds halloc
  have hlt : f.ppn < 2 ^ 44 := FrameAllocator.page_lt holds (Multiset.mem_cons_self _ _)
  have fresh : ∀ q ∈ r.tables, place q ≠ f.ppn := by
    intro q hq same
    have hone := B.apart holds f.ppn
    have hheld := frame_held (h.held q hq) (a := baseAddr f.ppn) (by rw [same, pageNum_baseAddr])
    rw [pageNum_baseAddr] at hheld
    rw [framesOver_cons, framesOver_add, Blocks.cover_self] at hone
    omega
  have hframe : (([f] : List Frame) : Multiset Frame) + tabs = f ::ₘ tabs := by
    rw [Multiset.coe_singleton, Multiset.singleton_add]
  have shows₁ : Shows B.toFrameAllocator s₁ root (f ::ₘ tabs) others place r := by
    refine ⟨?_, h.top, fun q hq => Multiset.mem_cons_of_mem (h.held q hq), h.inj,
      fun q hq j hj => ?_⟩
    · rw [Multiset.cons_add]
      exact holds
    · rw [entry_held (h.held q hq) (kept.mono (Multiset.le_add_right _ _)) hj]
      exact h.entry q hq j hj
  have hmem : (⟨f.ppn, 0⟩ : Frame) ∈ f ::ₘ tabs := by
    rw [← horder]
    exact Multiset.mem_cons_self _ _
  have shows₂ := shows₁.link hp hi short free htable hmem hlt fresh fun j hj => zeroed.entry hj
  rw [← hframe] at shows₂
  refine ⟨_, [f], _, _, ?_, ⟨shows₂, rfl, Finset.subset_insert _ _,
    fun x hx => (Finset.mem_insert.mp hx).symm, ?_⟩, Finset.mem_insert_self _ _⟩
  · have hread := (shows₂.entry p (mem_grow.mpr (.inr hp)) i hi).table (mem_grow.mpr (.inl rfl))
    rw [Function.update_self,
      Function.update_of_ne (fun same : p = i :: p => List.cons_ne_self i p same.symm)] at hread
    simp only [Function.update_self]
    refine congrArg (fun q => (some q, _)) ?_
    exact (congrArg Pte.ppn hread).trans (Pte.ppn_new hlt (by decide))
  · have hcard : (insert (i :: p) r.tables).card = r.tables.card + 1 :=
      Finset.card_insert_of_notMem htable
    have hsame : B.avail { s₁ with mem := linked s₁.mem (place p) i f } = B.avail s₁ :=
      B.write_avail shows₁.holds fun a ha => shows₁.outside hp hi _ ha
    have halloc' := B.alloc_avail h.holds halloc
    have hone : f.count = 1 := by
      rw [Frame.count, horder]
      rfl
    show B.avail { s₁ with mem := linked s₁.mem _ _ _ } + (insert (i :: p) r.tables).card = _
    omega

/-- The way down to a table `n` levels below `p`. -/
theorem Shows.walkFrom {n stop level : Nat} {is : List Nat} (t : PageTable)
    (h : Shows B.toFrameAllocator s root tabs others place r) (hp : p ∈ r.tables)
    (hstop : stop = level + n) (hlen : n < is.length) (short : p.length + n ≤ 2)
    (small : ∀ i ∈ is, i < 512) (free : ∀ k < n, r.leaves (pathAfter is p (k + 1)) = none) :
    ∃ o s' new place' r', PageTable.walkFrom B.toFrameAllocator stop is level (place p) s t =
        (o, s', { t with frames := t.frames ++ new }) ∧
      Grows B root tabs others (fun x => ∃ k < n, x = pathAfter is p (k + 1)) s r s' new place' r' ∧
      ((o = none ∧ B.avail s' = 0 ∧ ∃ k < n, pathAfter is p (k + 1) ∉ r'.tables) ∨
        (o = some (slot (place' (pathAfter is p n)) (is.getD n 0)) ∧
          pathAfter is p n ∈ r'.tables)) := by
  induction n generalizing is level p s t tabs place r with
  | zero =>
    obtain ⟨i, is, rfl⟩ := List.exists_cons_of_length_pos hlen
    refine ⟨_, s, [], place, r, ?_, .refl h, .inr ⟨rfl, hp⟩⟩
    rw [PageTable.walkFrom, if_pos (by omega), List.append_nil]
    rfl
  | succ n ih =>
    obtain ⟨i, is, rfl⟩ := List.exists_cons_of_length_pos (Nat.zero_lt_of_lt hlen)
    simp only [pathAfter_succ] at free ⊢
    have hnot : level ≠ stop := by omega
    rcases h.descend hp (small i List.mem_cons_self) (by omega) (free 0 (Nat.succ_pos n)) t with
      ⟨hfull, hmissing, hdescend⟩ | ⟨s₁, new₁, place₁, r₁, hdescend, g₁, hin⟩
    · refine ⟨none, s, [], place, r, ?_, .refl h, .inl ⟨rfl, hfull, 0, Nat.succ_pos n, hmissing⟩⟩
      rw [PageTable.walkFrom, if_neg hnot, hdescend, List.append_nil]
    · obtain ⟨o, s', new, place', r', hwalk, g, out⟩ := ih { t with frames := t.frames ++ new₁ }
        g₁.shows hin (show stop = level + 1 + n by omega) (by rw [List.length_cons] at hlen; omega)
        (by rw [List.length_cons]; omega) (fun j hj => small j (List.mem_cons_of_mem _ hj))
        (fun k hk => by rw [g₁.leaves]; exact free (k + 1) (by omega))
      have wider : Grows B root (new₁ + tabs) others
          (fun x => ∃ k < n + 1, x = pathAfter is (i :: p) k) s₁ r₁ s' new place' r' := by
        refine { g with paths := fun x hx => (g.paths x hx).imp_right ?_ }
        rintro ⟨k, hk, rfl⟩
        exact ⟨k + 1, by omega, rfl⟩
      refine ⟨o, s', new₁ ++ new, place', r', ?_, g₁.trans wider fun x hx => ⟨0, by omega, hx⟩,
        out.imp_left ?_⟩
      · rw [PageTable.walkFrom, if_neg hnot, hdescend, ← List.append_assoc]
        exact hwalk
      · rintro ⟨rfl, hfull, k, hk, hmissing⟩
        exact ⟨rfl, hfull, k + 1, by omega, hmissing⟩

/-- What came of `map_at_level`: the word is in its entry, or an entry was in the way, or a
table was missing and no frame was left for it. -/
inductive Mapped (B : CountedAllocator σ) (vpn level w : Nat) (r : Trie) (s' : Phys σ) (r' : Trie) :
    Except MapError Unit → Prop
  | ok : slotTable vpn (level + 1) ∉ r'.tables → r.leaves (slotTable vpn (level + 1)) = none →
      r'.leaves = Function.update r.leaves (slotTable vpn (level + 1)) (some w) →
      Mapped B vpn level w r s' r' (.ok ())
  | taken : slotTable vpn (level + 1) ∈ r.tables ∨ r.leaves (slotTable vpn (level + 1)) ≠ none →
      r'.leaves = r.leaves → Mapped B vpn level w r s' r' (.error .alreadyMapped)
  | full {k : Nat} : k < level → slotTable vpn (k + 1) ∉ r'.tables → B.avail s' = 0 →
      r'.leaves = r.leaves → Mapped B vpn level w r s' r' (.error .outOfMemory)

theorem Shows.mapAt (h : Shows B.toFrameAllocator s t.root tabs others place r) (vpn ppn : Nat)
    {flags level : Nat} (hlevel : level ≤ 2) (hflags : flags < 2 ^ 64)
    (hleaf : level ≤ 1 → PteFlags.intersects flags PteFlags.rwx = true)
    (above : ∀ k < level, r.leaves (slotTable vpn (k + 1)) = none) :
    ∃ res s' new place' r', PageTable.mapAt B.toFrameAllocator s t vpn ppn flags level =
        (res, s', { t with frames := t.frames ++ new }) ∧
      Shows B.toFrameAllocator s' t.root (new + tabs) others place' r' ∧
      r.tables ⊆ r'.tables ∧
      (∀ x ∈ r'.tables, x ∈ r.tables ∨ ∃ k < level, x = slotTable vpn (k + 1)) ∧
      B.avail s' + r'.tables.card = B.avail s + r.tables.card ∧
      Mapped B vpn level (Pte.new ppn (PteFlags.present flags)) r s' r' res := by
  obtain ⟨o, s₁, new, place₁, r₁, hwalk, g, out⟩ := h.walkFrom t r.root (Nat.zero_add level).symm
    (show level < (indices vpn).length by simp [indices]; omega) (by simpa using hlevel)
    (WalkRun.indices_small vpn) above
  have hcreate : walkCreateTo B.toFrameAllocator s t vpn level =
      (o, s₁, { t with frames := t.frames ++ new }) := by
    rw [← hwalk, h.top]
    rfl
  rw [PageTable.mapAt, hcreate]
  rcases out with ⟨rfl, hfull, k, hk, hmissing⟩ | ⟨rfl, hin⟩
  · exact ⟨_, s₁, new, place₁, r₁, rfl, g.shows, g.old, g.paths, g.count,
      .full hk hmissing hfull g.leaves⟩
  change slotTable vpn level ∈ r₁.tables at hin
  have hi := slotIndex_lt vpn level
  have hslot := LeafRun.slotTable_succ vpn (show level < 3 by omega)
  have stored := g.shows.entry _ hin _ hi
  rw [← hslot] at stored
  have hnew : slotTable vpn (level + 1) ∈ r₁.tables → slotTable vpn (level + 1) ∈ r.tables := by
    intro hx
    rcases g.paths _ hx with hx | ⟨k, hk, hx⟩
    · exact hx
    · have hlen := congrArg List.length hx
      rw [slotTable_length, show pathAfter (indices vpn) [] (k + 1) =
        slotTable vpn (k + 1) from rfl,
        slotTable_length] at hlen
      omega
  simp only
  change ∃ res s' new' place' r',
    (if Pte.isValid (AlexOS.entry s₁.mem (place₁ (slotTable vpn level))
    (slotIndex vpn level)) = true then _ else _) = _ ∧ _
  by_cases hfree : slotTable vpn (level + 1) ∈ r₁.tables ∨
      r₁.leaves (slotTable vpn (level + 1)) ≠ none
  · have hvalid : Pte.isValid (AlexOS.entry s₁.mem (place₁ (slotTable vpn level))
        (slotIndex vpn level)) = true := by
      rcases hfree with hx | hx
      · rw [stored.table hx]
        exact isValid_table (g.shows.place_lt hx)
      · obtain ⟨w, hw⟩ := Option.ne_none_iff_exists'.mp hx
        rw [stored.leaf w hw]
        exact (r₁.stop hw).1
    rw [if_pos hvalid]
    refine ⟨_, s₁, new, place₁, r₁, rfl, g.shows, g.old, g.paths, g.count,
      .taken (hfree.imp hnew fun hx => ?_) g.leaves⟩
    rwa [g.leaves] at hx
  · rw [not_or, not_not] at hfree
    rw [if_neg (by rw [stored.none hfree.1 hfree.2]; decide)]
    have hw : Pte.new ppn (PteFlags.present flags) < 2 ^ 64 :=
      Pte.new_lt_word ppn (PteFlags.present_lt_word hflags)
    have ends : ∀ w, some (Pte.new ppn (PteFlags.present flags)) = some w → Pte.isValid w = true ∧
        ((slotTable vpn level).length ≤ 1 → Pte.isLeaf w = true) := by
      intro w hsome
      obtain rfl := Option.some.inj hsome
      refine ⟨Pte.isValid_present ppn flags, fun hlen => isLeaf_present ppn (hleaf ?_)⟩
      rw [slotTable_length] at hlen
      omega
    have hnot : slotIndex vpn level :: slotTable vpn level ∉ r₁.tables := hslot ▸ hfree.1
    have shows := g.shows.set hin hi hnot ends hw (fun _ e => (Option.some.inj e).symm)
      (fun e => by cases e)
    refine ⟨_, _, new, place₁, _, rfl, shows, g.old, g.paths, ?_, .ok hfree.1 ?_ ?_⟩
    · rw [← g.count]
      exact congrArg (· + r₁.tables.card) (B.write_avail g.shows.holds fun a ha =>
        g.shows.outside hin hi _ ha)
    · rw [← g.leaves]
      exact hfree.2
    · rw [← g.leaves, hslot]
      rfl

/-! ## Unmapping -/

/-- The tables of `need` are all that is asked for, and frames for them are left. -/
structure Budget (B : CountedAllocator σ) (s : Phys σ) (r : Trie) (need : Finset (List Nat)) :
    Prop where
  within : r.tables ⊆ need
  enough : need.card ≤ B.avail s + r.tables.card

theorem Shows.mapAt_ok (h : Shows B.toFrameAllocator s t.root tabs others place r) (vpn ppn : Nat)
    {flags level : Nat} {need : Finset (List Nat)} (budget : Budget B s r need) (hlevel : level ≤ 2)
    (hflags : LegalFlags flags) (above : ∀ k < level, r.leaves (slotTable vpn (k + 1)) = none)
    (hneed : ∀ k < level, slotTable vpn (k + 1) ∈ need)
    (free : slotTable vpn (level + 1) ∉ r.tables)
    (empty : r.leaves (slotTable vpn (level + 1)) = none) :
    ∃ s' new place' r', PageTable.mapAt B.toFrameAllocator s t vpn ppn flags level =
        (.ok (), s', { t with frames := t.frames ++ new }) ∧
      Shows B.toFrameAllocator s' t.root (new + tabs) others place' r' ∧ Budget B s' r' need ∧
      (∀ x ∈ r'.tables, x ∈ r.tables ∨ ∃ k < level, x = slotTable vpn (k + 1)) ∧
      r'.leaves = Function.update r.leaves (slotTable vpn (level + 1))
        (some (Pte.new ppn (PteFlags.present flags))) := by
  obtain ⟨res, s', new, place', r', heq, shows, old, paths, count, out⟩ := h.mapAt vpn ppn hlevel
    (hflags.lt.trans (by decide)) (fun _ => PteFlags.contains_rwx hflags.leaf) above
  have within : r'.tables ⊆ need := fun x hx => by
    rcases paths x hx with hx | ⟨k, hk, rfl⟩
    · exact budget.within hx
    · exact hneed k hk
  have enough : need.card ≤ B.avail s' + r'.tables.card := by
    rw [count]
    exact budget.enough
  cases out with
  | ok _ _ leaves => exact ⟨s', new, place', r', heq, shows, ⟨within, enough⟩, paths, leaves⟩
  | taken hin _ =>
    rcases hin with hin | hin
    · exact absurd hin free
    · exact absurd empty hin
  | full hk missing hfull _ =>
    have hlt := Finset.card_lt_card (Finset.ssubset_iff_of_subset within |>.mpr
      ⟨_, hneed _ hk, missing⟩)
    omega

theorem leaf_below {is : List Nat} (h : p ∉ r.tables) (hne : is ≠ []) :
    r.leaves (pathAfter is p is.length) = none := by
  induction is generalizing p with
  | nil => exact absurd rfl hne
  | cons i is ih =>
    rw [List.length_cons, pathAfter_succ]
    rcases is with _ | ⟨j, is⟩
    · rcases hx : r.leaves (i :: p) with _ | w
      · exact hx
      · exact absurd (r.under hx).2 h
    · exact ih (fun hin => h (r.tail hin)) (List.cons_ne_nil j is)

/-- `unmap` finds a word in a last table, or nothing below a leaf. -/
theorem Shows.walkPtrFrom {is : List Nat} {level : Nat}
    (h : Shows A s root tabs others place r) (hp : p ∈ r.tables) (hlevel : level = p.length)
    (hlen : is.length + p.length = 3) (small : ∀ i ∈ is, i < 512) :
    (∃ p' i, p' ∈ r.tables ∧ i < 512 ∧ p'.length = 2 ∧ i :: p' = pathAfter is p is.length ∧
      PageTable.walkPtrFrom s.mem is level (place p) = some (slot (place p') i)) ∨
    (PageTable.walkPtrFrom s.mem is level (place p) = none ∧
      ((∃ k, k + 1 < is.length ∧ r.leaves (pathAfter is p (k + 1)) ≠ none) ∨
        r.leaves (pathAfter is p is.length) = none)) := by
  induction is generalizing p level with
  | nil =>
    have := r.depth hp
    rw [List.length_nil] at hlen
    omega
  | cons i is ih =>
    have hi := small i List.mem_cons_self
    have stored := h.entry p hp i hi
    rw [List.length_cons] at hlen
    rw [PageTable.walkPtrFrom]
    by_cases hlast : level = sv39Levels - 1
    · rw [if_pos hlast]
      simp only [sv39Levels] at hlast
      obtain rfl : is = [] := List.length_eq_zero_iff.mp (by omega)
      exact .inl ⟨p, i, hp, hi, by omega, rfl, rfl⟩
    rw [if_neg hlast]
    simp only [sv39Levels] at hlast
    have hpos : 0 < is.length := by omega
    simp only [List.length_cons, pathAfter_succ]
    rcases hleaf : r.leaves (i :: p) with _ | w
    · by_cases htable : i :: p ∈ r.tables
      · have hlt := h.place_lt htable
        rw [stored.table htable, if_neg (by rw [isValid_table hlt]; decide),
          if_neg (by rw [isLeaf_table]; decide), Pte.ppn_new hlt (by decide)]
        rcases ih htable (show level + 1 = (i :: p).length by rw [List.length_cons, hlevel])
          (by rw [List.length_cons]; omega) (fun j hj => small j (List.mem_cons_of_mem _ hj)) with
          found | ⟨hnone, hout⟩
        · exact .inl found
        · refine .inr ⟨hnone, hout.imp_left ?_⟩
          rintro ⟨k, hk, hne⟩
          exact ⟨k + 1, by omega, hne⟩
      · rw [if_pos (stored.none htable hleaf)]
        exact .inr ⟨rfl, .inr (leaf_below htable (List.ne_nil_of_length_pos hpos))⟩
    · rw [stored.leaf w hleaf, if_neg (by rw [(r.stop hleaf).1]; decide),
        if_pos ((r.stop hleaf).2 (by rw [List.length_cons]; omega))]
      refine .inr ⟨rfl, .inl ⟨0, by omega, ?_⟩⟩
      rw [pathAfter_zero, hleaf]
      exact Option.some_ne_none w

/-- `unmap` clears the page's entry in a last table, unless there is a leaf above it. -/
theorem Shows.unmap (h : Shows A s t.root tabs others place r) (vpn : Nat) :
    ∃ r', Shows A (PageTable.unmap s t vpn).2 t.root tabs others place r' ∧
      (∀ x, r'.leaves x = r.leaves x ∨ x = slotTable vpn 3 ∧ r'.leaves x = none) ∧
      ((∀ k < 2, r.leaves (slotTable vpn (k + 1)) = none) →
        r'.leaves (slotTable vpn 3) = none) := by
  have hptr := h.walkPtrFrom r.root (show 0 = ([] : List Nat).length from rfl)
    (show (indices vpn).length + 0 = 3 from rfl) (WalkRun.indices_small vpn)
  rw [h.top] at hptr
  rw [PageTable.unmap, walkPtr]
  rcases hptr with ⟨p', i, hp', hi, hlen, hpath, hptr⟩ | ⟨hptr, hout⟩
  · change i :: p' = slotTable vpn 3 at hpath
    have hnot : i :: p' ∉ r.tables := by
      intro hin
      have := r.depth hin
      rw [List.length_cons] at this
      omega
    have stored := h.entry p' hp' i hi
    change r.Stored place (i :: p') (read64 s.mem (slot (place p') i)) at stored
    simp only [hptr]
    split
    · have cleared : Function.update r.leaves (i :: p') none (slotTable vpn 3) = none := by
        rw [hpath]
        exact Function.update_self _ _ _
      refine ⟨_, h.set (o := none) hp' hi hnot (fun _ e => by cases e)
        (show Pte.empty < 2 ^ 64 by decide) (fun _ e => by cases e) (fun _ => Pte.not_isValid_zero),
        fun x => ?_, fun _ => cleared⟩
      by_cases hx : x = slotTable vpn 3
      · subst hx
        exact .inr ⟨rfl, cleared⟩
      · exact .inl (Function.update_of_ne (hpath ▸ hx) _ _)
    · rename_i hinvalid
      refine ⟨r, h, fun _ => .inl rfl, fun _ => ?_⟩
      rw [← hpath]
      rcases hx : r.leaves (i :: p') with _ | w
      · rfl
      · rw [stored.leaf w hx, (r.stop hx).1] at hinvalid
        exact absurd rfl hinvalid
  · simp only [hptr]
    refine ⟨r, h, fun _ => .inl rfl, fun above => ?_⟩
    rcases hout with ⟨k, hk, hne⟩ | hnone
    · exact absurd (above k (by simp [indices] at hk; omega)) hne
    · exact hnone

/-- The loop of `unmap_from`. -/
theorem Shows.unmapPages (vpns : List Nat) (h : Shows A s t.root tabs others place r) :
    ∃ r', Shows A (Region.unmapPages s t vpns) t.root tabs others place r' ∧
      (∀ x, r'.leaves x = r.leaves x ∨ (∃ v ∈ vpns, x = slotTable v 3) ∧ r'.leaves x = none) ∧
      ∀ v ∈ vpns, (∀ k < 2, r.leaves (slotTable v (k + 1)) = none) →
        r'.leaves (slotTable v 3) = none := by
  induction vpns generalizing s r with
  | nil => exact ⟨r, h, fun _ => .inl rfl, fun _ hv => absurd hv List.not_mem_nil⟩
  | cons vpn vpns ih =>
    obtain ⟨r₁, shows₁, same₁, cleared₁⟩ := h.unmap vpn
    obtain ⟨r', shows', same', cleared'⟩ := ih shows₁
    refine ⟨r', shows', fun x => ?_, fun v hv above => ?_⟩
    · rcases same' x with hx | ⟨⟨v, hv, hx⟩, hnone⟩
      · rw [hx]
        rcases same₁ x with hx₁ | ⟨hx₁, hnone⟩
        · exact .inl hx₁
        · exact .inr ⟨⟨vpn, List.mem_cons_self, hx₁⟩, hnone⟩
      · exact .inr ⟨⟨v, List.mem_cons_of_mem _ hv, hx⟩, hnone⟩
    · rcases List.mem_cons.mp hv with rfl | hv
      · rcases same' (slotTable v 3) with hx | ⟨-, hnone⟩
        · rw [hx]
          exact cleared₁ above
        · exact hnone
      · refine cleared' v hv fun k hk => ?_
        rcases same₁ (slotTable v (k + 1)) with hx | ⟨-, hnone⟩
        · rw [hx]
          exact above k hk
        · exact hnone

end Trie

end AlexOS
