import AlexOS.Mm.Tables

/-!
# The table tree

A table frame is reached from the root by the indices taken on the way, deepest
index first. `Tree` says that the tables under the first `n` root entries are
held frames, each reached by one path only, so a write through one path is seen
by no other. Missing tables read as zero: `leaf` is the word a page's slot holds.
-/

namespace AlexOS

open Bytes Blocks

/-- Paths to the tables under the first `n` root entries. -/
def Owned (n : Nat) : List Nat → Prop
  | [] => True
  | [a] => a < n
  | [b, a] => a < n ∧ b < 512
  | _ => False

theorem Owned.tail {n i : Nat} {p : List Nat} (h : Owned n (i :: p)) : Owned n p := by
  match p, h with
  | [], _ => trivial
  | [_], h => exact h.1

theorem Owned.index_lt {n i : Nat} {p : List Nat} (hn : n ≤ 512) (h : Owned n (i :: p)) :
    i < 512 := by
  match p, h with
  | [], h => exact Nat.lt_of_lt_of_le h hn
  | [_], h => exact h.2

theorem Owned.length_le {n : Nat} {p : List Nat} (h : Owned n p) : p.length ≤ 2 := by
  match p, h with
  | [], _ => exact Nat.zero_le 2
  | [_], _ => exact Nat.le_succ 1
  | [_, _], _ => exact Nat.le_refl 2

structure Tree (n : Nat) (m : Mem) (root : Nat) (frames : Multiset Frame) : Prop where
  width : n ≤ 512
  held : ∀ p q, Owned n p → node m root p = some q → (⟨q, 0⟩ : Frame) ∈ frames
  inj : ∀ p p' q, Owned n p → Owned n p' → node m root p = some q → node m root p' = some q → p = p'
  interior : ∀ p q i, Owned n (i :: p) → node m root p = some q →
    Pte.isValid (entry m q i) = true → Pte.flags (entry m q i) = PteFlags.valid
  leaf_lt : ∀ p q c, Owned n p → p.length = 2 → node m root p = some q → c < 512 →
    entry m q c < 2 ^ 54

/-- The path to the leaf table of a page. -/
def leafPath (v : Nat) : List Nat := [v / 2 ^ 9 % 512, v / 2 ^ 18 % 512]

/-- The word in a page's slot, zero when its leaf table is missing. -/
def leaf (m : Mem) (root v : Nat) : Nat :=
  match node m root (leafPath v) with
  | none => 0
  | some q => entry m q (v % 512)

/-- The pages under the first `n` root entries. -/
def pages (n : Nat) : Nat := n * 2 ^ 18

theorem leafPath_owned {n v : Nat} (hn : n ≤ 512) (hv : v < pages n) : Owned n (leafPath v) := by
  refine ⟨?_, Nat.mod_lt _ (by decide)⟩
  simp only [pages] at hv
  omega

theorem page_ext {n v w : Nat} (hn : n ≤ 512) (hv : v < pages n) (hw : w < pages n)
    (path : leafPath v = leafPath w) (low : v % 512 = w % 512) : v = w := by
  simp only [leafPath, List.cons.injEq, and_true] at path
  simp only [pages] at hv hw
  omega

section
variable {n root : Nat} {m m' : Mem} {frames : Multiset Frame}

theorem owned_paths (hn : n ≤ 512) : Paths (Owned n) :=
  ⟨Owned.tail, Owned.index_lt hn⟩

theorem Tree.tables (t : Tree n m root frames) : Tables (Owned n) m root frames :=
  ⟨owned_paths t.width, t.held, t.inj⟩

theorem Tree.entry_kept (t : Tree n m root frames) (kept : Kept frames m m') {p : List Nat}
    {q i : Nat} (hp : Owned n p) (hq : node m root p = some q) (hi : i < 512) :
    entry m' q i = entry m q i :=
  t.tables.entry_kept kept hp hq hi

theorem Tree.node_kept (t : Tree n m root frames) (kept : Kept frames m m') {p : List Nat}
    (hp : Owned n p) : node m' root p = node m root p :=
  t.tables.node_kept kept hp

theorem Tree.leaf_kept (t : Tree n m root frames) (kept : Kept frames m m') {v : Nat}
    (hv : v < pages n) : leaf m' root v = leaf m root v := by
  have hp := leafPath_owned t.width hv
  rw [leaf, leaf, t.node_kept kept hp]
  cases hq : node m root (leafPath v) with
  | none => rfl
  | some q => exact t.entry_kept kept hp hq (Nat.mod_lt _ (by decide))

theorem Tree.kept (t : Tree n m root frames) (kept : Kept frames m m') :
    Tree n m' root frames := by
  have same := fun p hp => t.node_kept kept (p := p) hp
  refine ⟨t.width, ?_, ?_, ?_, ?_⟩
  · intro p q hp hq
    exact t.held p q hp (same p hp ▸ hq)
  · intro p p' q hp hp' hq hq'
    exact t.inj p p' q hp hp' (same p hp ▸ hq) (same p' hp' ▸ hq')
  · intro p q i hp hq hv
    rw [same p hp.tail] at hq
    rw [t.entry_kept kept hp.tail hq (hp.index_lt t.width)] at hv ⊢
    exact t.interior p q i hp hq hv
  · intro p q c hp hlen hq hc
    rw [same p hp] at hq
    rw [t.entry_kept kept hp hq hc]
    exact t.leaf_lt p q c hp hlen hq hc

/-! ## Writing a leaf slot -/

/-- Interior tables are not leaf tables, so no path reads the slot. -/
theorem Tree.node_write (t : Tree n m root frames) {p : List Nat} {q i x : Nat} (hp : Owned n p)
    (hlen : p.length = 2) (hq : node m root p = some q) (hi : i < 512) (hx : x < 2 ^ 64)
    {p' : List Nat} (hp' : Owned n p') :
    node (write64 m (slot q i) x) root p' = node m root p' := by
  refine t.tables.node_write hp hq hi hx hp' fun long => ?_
  have := long.length_le
  have := hp'.length_le
  rw [List.length_cons] at *
  omega

theorem Tree.write_leaf (t : Tree n m root frames) {v q x : Nat} (hv : v < pages n)
    (hq : node m root (leafPath v) = some q) (hx : x < 2 ^ 54) :
    Tree n (write64 m (slot q (v % 512)) x) root frames := by
  have hp := leafPath_owned t.width hv
  have hi : v % 512 < 512 := Nat.mod_lt _ (by decide)
  have hx' : x < 2 ^ 64 := by omega
  have same := fun p' (hp' : Owned n p') => t.node_write (x := x) hp rfl hq hi hx' hp'
  refine ⟨t.width, ?_, ?_, ?_, ?_⟩
  · intro p q' hp' hq'
    exact t.held p q' hp' (same p hp' ▸ hq')
  · intro p p' q' hp' hp'' hq' hq''
    exact t.inj p p' q' hp' hp'' (same p hp' ▸ hq') (same p' hp'' ▸ hq'')
  · intro p q' j hp' hq' hvalid
    rw [same p hp'.tail] at hq'
    have hne : ¬ (q' = q ∧ j = v % 512) := by
      rintro ⟨rfl, -⟩
      have hshort := hp'.length_le
      rw [t.inj p _ q' hp'.tail hp hq' hq] at hshort
      simp [leafPath] at hshort
    rw [entry_write hi (hp'.index_lt t.width) hx', if_neg hne] at hvalid ⊢
    exact t.interior p q' j hp' hq' hvalid
  · intro p q' c hp' hlen hq' hc
    rw [same p hp'] at hq'
    rw [entry_write hi hc hx']
    split
    · exact hx
    · exact t.leaf_lt p q' c hp' hlen hq' hc

theorem Tree.leaf_write (t : Tree n m root frames) {v q x : Nat} (hv : v < pages n)
    (hq : node m root (leafPath v) = some q) (hx : x < 2 ^ 54) {w : Nat} (hw : w < pages n) :
    leaf (write64 m (slot q (v % 512)) x) root w = if w = v then x else leaf m root w := by
  have hp := leafPath_owned t.width hv
  have hpw := leafPath_owned t.width hw
  have hi : v % 512 < 512 := Nat.mod_lt _ (by decide)
  have hx' : x < 2 ^ 64 := by omega
  rw [leaf, leaf, t.node_write hp rfl hq hi hx' hpw]
  cases hqw : node m root (leafPath w) with
  | none =>
    rw [if_neg]
    rintro rfl
    rw [hq] at hqw
    cases hqw
  | some q' =>
    simp only [entry_write hi (Nat.mod_lt w (by decide)) hx']
    by_cases h : w = v
    · subst h
      rw [hq] at hqw
      simp [Option.some.inj hqw]
    · rw [if_neg h, if_neg]
      rintro ⟨rfl, hlow⟩
      exact h (page_ext t.width hw hv (t.inj _ _ q' hpw hp hqw hq) hlow)

/-! ## Linking a new table -/

section
variable {p : List Nat} {q i : Nat} {f : Frame}

variable (t : Tree n m root frames) (hp : Owned n (i :: p)) (hq : node m root p = some q)
  (hmiss : Pte.isValid (entry m q i) = false) (hf : NewTable m frames f)
include t hp hq hmiss hf

theorem Tree.node_linked {p' : List Nat} (hp' : Owned n p') :
    node (linked m q i f) root p' = if p' = i :: p then some f.ppn else node m root p' :=
  t.tables.node_linked hp hq hf hmiss hp'

theorem Tree.leaf_linked {v : Nat} (hv : v < pages n) :
    leaf (linked m q i f) root v = leaf m root v := by
  have hpv := leafPath_owned t.width hv
  have hi := hp.index_lt t.width
  have hc : v % 512 < 512 := Nat.mod_lt _ (by decide)
  have qf := t.tables.new_ne hp hq hf
  rw [leaf, leaf, t.node_linked hp hq hmiss hf hpv]
  by_cases hat : leafPath v = i :: p
  · simp [hat, hf.entry_linked hi hc, qf, hf.entry hc, node, hq, tableBelow, hmiss]
  · rw [if_neg hat]
    cases hq' : node m root (leafPath v) with
    | none => rfl
    | some q' =>
      have hne : ¬ (q' = q ∧ v % 512 = i) := by
        rintro ⟨rfl, -⟩
        have hshort := hp.length_le
        rw [← t.inj _ p q' hpv hp.tail hq' hq] at hshort
        simp [leafPath] at hshort
      simp only [hf.entry_linked hi hc, if_neg hne]

theorem Tree.linked : Tree n (linked m q i f) root (f ::ₘ frames) := by
  have hi := hp.index_lt t.width
  have hvalid : PteFlags.valid < 2 ^ 10 := by decide
  have qf := t.tables.new_ne hp hq hf
  have at_node := fun p' (hp' : Owned n p') => t.node_linked hp hq hmiss hf hp'
  have tables := t.tables.linked hp hq hf hmiss
  refine ⟨t.width, tables.held, tables.inj, ?_, ?_⟩
  · intro p' q' j hp' hq' hv
    have hj := hp'.index_lt t.width
    rw [at_node p' hp'.tail] at hq'
    rw [hf.entry_linked hi hj] at hv ⊢
    split at hq'
    · obtain rfl := Option.some.inj hq'
      rw [if_neg fun e => qf e.1, hf.entry hj] at hv
      cases hv
    · split
      · exact Pte.flags_new _ hvalid
      · rename_i hne
        rw [if_neg hne] at hv
        exact t.interior p' q' j hp' hq' hv
  · intro p' q' c hp' hlen hq' hc
    rw [at_node p' hp'] at hq'
    rw [hf.entry_linked hi hc]
    split
    · exact Pte.new_lt hf.ppn_lt hvalid
    · split at hq'
      · obtain rfl := Option.some.inj hq'
        rw [hf.entry hc]
        decide
      · exact t.leaf_lt p' q' c hp' hlen hq' hc

end

end

end AlexOS
