import AlexOS.Mm.PageOps
import AlexOS.Mm.FrameRun

/-!
# A page table is a finite map

Every run of `map`, `unmap` and `protect` on a table made by `new`, between
which the rest of the kernel allocates, frees and writes what it holds itself,
acts on the pages below `2 ^ 27` as the same run acts on a partial map from
page number to frame number and flags.
-/

namespace AlexOS.TableRun

open PageTable

abbrev PageMap := Nat → Option (Nat × Nat)

/-- A table, the memory it lives in and what everyone else holds. -/
structure World (σ : Type) where
  phys : Phys σ
  table : PageTable
  rest : Multiset Frame

inductive Op where
  | map (v p f : Nat) (r : Except MapError Unit)
  | unmap (v : Nat) (r : Except MapError Nat)
  | protect (v f : Nat) (r : Except MapError Unit)
  | other

variable {σ : Type} {A : FrameAllocator σ}

inductive Step (A : FrameAllocator σ) : World σ → Op → World σ → Prop where
  | map {s s' : Phys σ} {t t' : PageTable} {rest : Multiset Frame} {v p f : Nat}
      {r : Except MapError Unit} : v < 2 ^ 27 → p < 2 ^ 44 → f < 2 ^ 10 →
      PageTable.map A s t v p f = (r, s', t') → Step A ⟨s, t, rest⟩ (.map v p f r) ⟨s', t', rest⟩
  | unmap {s s' : Phys σ} {t : PageTable} {rest : Multiset Frame} {v : Nat}
      {r : Except MapError Nat} : v < 2 ^ 27 → PageTable.unmap s t v = (r, s') →
      Step A ⟨s, t, rest⟩ (.unmap v r) ⟨s', t, rest⟩
  | protect {s s' : Phys σ} {t : PageTable} {rest : Multiset Frame} {v f : Nat}
      {r : Except MapError Unit} : v < 2 ^ 27 → f < 2 ^ 10 →
      PageTable.protect s t v f = (r, s') → Step A ⟨s, t, rest⟩ (.protect v f r) ⟨s', t, rest⟩
  | other {s s' : Phys σ} {t : PageTable} {rest rest' : Multiset Frame} :
      A.Holds s' (t.frames + rest') → Kept t.frames s.mem s'.mem →
      Step A ⟨s, t, rest⟩ .other ⟨s', t, rest'⟩

def system (A : FrameAllocator σ) : System (World σ) Op where
  init w := ∃ s, A.Holds s w.rest ∧ PageTable.new A s = (some w.table, w.phys)
  step := Step A

/-- `translate` answers from `M`, whose entries fit the fields of an entry. -/
structure Represents (w : World σ) (M : PageMap) : Prop where
  translate : ∀ v, v < 2 ^ 27 →
    translate w.phys.mem w.table v = (M v).map fun e => Pte.new e.1 e.2
  range : ∀ v p f, M v = some (p, f) → v < 2 ^ 27 ∧ p < 2 ^ 44 ∧ f < 2 ^ 10

/-- What each call may answer and do to the map. -/
def MapStep (M : PageMap) : Op → PageMap → Prop
  | .map v p f r, M' =>
    (r = .error .alreadyMapped ∧ (M v).isSome = true ∧ M' = M) ∨
    (r = .error .outOfMemory ∧ M v = none ∧ M' = M) ∨
    (r = .ok () ∧ M v = none ∧ M' = Function.update M v (some (p, PteFlags.present f)))
  | .unmap v r, M' =>
    (r = .error .notMapped ∧ M v = none ∧ M' = M) ∨
    ∃ p f, r = .ok p ∧ M v = some (p, f) ∧ M' = Function.update M v none
  | .protect v f r, M' =>
    (r = .error .notMapped ∧ M v = none ∧ M' = M) ∨
    ∃ p g, r = .ok () ∧ M v = some (p, g) ∧
      M' = Function.update M v (some (p, PteFlags.present f))
  | .other, M' => M' = M

/-! ## The map a table represents -/

def decode (e : Nat) : Option (Nat × Nat) :=
  if Pte.isValid e then some (Pte.ppn e, Pte.flags e) else none

def view (w : World σ) : PageMap := fun v =>
  if v < 2 ^ 27 then decode (leaf w.phys.mem w.table.root v) else none

theorem decode_new {p f : Nat} (hp : p < 2 ^ 44) (hf : f < 2 ^ 10) (odd : f % 2 = 1) :
    decode (Pte.new p f) = some (p, f) := by
  simp only [decode, (Pte.isValid_new hp hf).mpr odd, if_true, Pte.ppn_new hp hf,
    Pte.flags_new _ hf]

theorem view_eq {w : World σ} {v : Nat} (hv : v < 2 ^ 27) :
    view w v = decode (leaf w.phys.mem w.table.root v) := if_pos hv

theorem view_outside {w : World σ} {v : Nat} (hv : ¬ v < 2 ^ 27) : view w v = none := if_neg hv

theorem represents_view {w : World σ} (h : Ok A 512 w.phys w.table w.rest) :
    Represents w (view w) := by
  constructor
  · intro v hv
    have hlt := leaf_lt h.tree (v := v) hv
    rw [translate_eq h.tree hv, view_eq hv, decode]
    split
    · simp [Pte.new_ppn_flags hlt]
    · rfl
  · intro v p f hM
    by_cases hv : v < 2 ^ 27
    · rw [view_eq hv, decode] at hM
      split at hM
      · obtain ⟨rfl, rfl⟩ : Pte.ppn _ = p ∧ Pte.flags _ = f := by simpa using hM
        refine ⟨hv, ?_, ?_⟩
        · rw [Pte.ppn_eq]; omega
        · rw [Pte.flags_eq]; omega
      · cases hM
    · rw [view_outside hv] at hM
      cases hM

/-- A change of slots is the same change of the map. -/
theorem view_update (w w' : World σ) {v x : Nat} (hv : v < 2 ^ 27)
    (root : w'.table.root = w.table.root)
    (h : ∀ u, u < pages 512 → leaf w'.phys.mem w.table.root u =
      if u = v then x else leaf w.phys.mem w.table.root u) :
    view w' = Function.update (view w) v (decode x) := by
  funext u
  by_cases hu : u < 2 ^ 27
  · rw [view_eq hu, root, h u hu]
    by_cases huv : u = v
    · subst huv; simp
    · rw [if_neg huv, Function.update_of_ne huv, view_eq hu]
  · have huv : u ≠ v := fun e => hu (e ▸ hv)
    rw [Function.update_of_ne huv, view_outside hu, view_outside hu]

theorem view_same (w w' : World σ) (root : w'.table.root = w.table.root)
    (h : ∀ u, u < pages 512 → leaf w'.phys.mem w.table.root u =
      leaf w.phys.mem w.table.root u) : view w' = view w := by
  funext u
  by_cases hu : u < 2 ^ 27
  · rw [view_eq hu, view_eq hu, root, h u hu]
  · rw [view_outside hu, view_outside hu]

/-! ## Runs -/

theorem decode_none {e : Nat} (h : Pte.isValid e = false) : decode e = none := by
  simp [decode, h]

theorem decode_some {e : Nat} (h : Pte.isValid e = true) :
    decode e = some (Pte.ppn e, Pte.flags e) := by simp [decode, h]

/-- Each call keeps the table's invariant and acts on the map as it should. -/
theorem Step.spec {w w' : World σ} {op : Op} (h : Ok A 512 w.phys w.table w.rest)
    (hs : Step A w op w') : Ok A 512 w'.phys w'.table w'.rest ∧ MapStep (view w) op (view w') ∧
      ∀ v p f, op = .map v p f (.error .alreadyMapped) → w' = w := by
  cases hs with
  | @map s s' t t' rest v p f r hv hp hf heq =>
    obtain ⟨r', s₁, t₁, heq', ok, root, -, cases⟩ := map_spec h hv hp hf
    obtain ⟨rfl, rfl, rfl⟩ : r' = r ∧ s₁ = s' ∧ t₁ = t' := by simpa using heq'.symm.trans heq
    have hview : view ⟨s, t, rest⟩ v = decode (leaf s.mem t.root v) := view_eq hv
    refine ⟨ok, ?_, ?_⟩
    · rcases cases with ⟨rfl, hvalid, rfl, rfl⟩ | ⟨rfl, hvalid, same⟩ | ⟨rfl, hvalid, hleaf⟩
      · exact .inl ⟨rfl, by rw [hview, decode_some hvalid, Option.isSome_some], rfl⟩
      · exact .inr (.inl ⟨rfl, hview.trans (decode_none hvalid),
          view_same ⟨s, t, rest⟩ ⟨s₁, t₁, rest⟩ root same⟩)
      · refine .inr (.inr ⟨rfl, hview.trans (decode_none hvalid), ?_⟩)
        rw [view_update ⟨s, t, rest⟩ ⟨s₁, t₁, rest⟩ hv root hleaf,
          decode_new hp (PteFlags.present_lt hf)
          (PteFlags.present_odd f)]
    · rintro v' p' f' e
      obtain ⟨-, -, -, rfl⟩ := Op.map.inj e
      rcases cases with ⟨-, -, rfl, rfl⟩ | ⟨e, -⟩ | ⟨e, -⟩
      · rfl
      · cases e
      · cases e
  | @unmap s s' t rest v r hv heq =>
    obtain ⟨r', s₁, heq', ok, -, cases⟩ := unmap_spec h hv
    obtain ⟨rfl, rfl⟩ : r' = r ∧ s₁ = s' := by simpa using heq'.symm.trans heq
    have hview : view ⟨s, t, rest⟩ v = decode (leaf s.mem t.root v) := view_eq hv
    refine ⟨ok, ?_, by simp⟩
    rcases cases with ⟨rfl, hvalid, rfl⟩ | ⟨rfl, hvalid, hleaf⟩
    · exact .inl ⟨rfl, hview.trans (decode_none hvalid), rfl⟩
    · refine .inr ⟨_, _, rfl, hview.trans (decode_some hvalid), ?_⟩
      rw [view_update ⟨s, t, rest⟩ ⟨s₁, t, rest⟩ hv rfl hleaf, decode_none Pte.not_isValid_zero]
  | @protect s s' t rest v f r hv hf heq =>
    obtain ⟨r', s₁, heq', ok, -, cases⟩ := protect_spec h hv hf
    obtain ⟨rfl, rfl⟩ : r' = r ∧ s₁ = s' := by simpa using heq'.symm.trans heq
    have hview : view ⟨s, t, rest⟩ v = decode (leaf s.mem t.root v) := view_eq hv
    refine ⟨ok, ?_, by simp⟩
    rcases cases with ⟨rfl, hvalid, rfl⟩ | ⟨rfl, hvalid, hleaf⟩
    · exact .inl ⟨rfl, hview.trans (decode_none hvalid), rfl⟩
    · refine .inr ⟨_, _, rfl, hview.trans (decode_some hvalid), ?_⟩
      rw [view_update ⟨s, t, rest⟩ ⟨s₁, t, rest⟩ hv rfl hleaf,
        decode_new (by rw [Pte.ppn_eq]; omega)
        (PteFlags.present_lt hf) (PteFlags.present_odd f)]
  | @other s s' t rest rest' holds kept =>
    refine ⟨⟨holds, h.tree.kept kept⟩, ?_, by simp⟩
    exact view_same ⟨s, t, rest⟩ ⟨s', t, rest'⟩ rfl fun u hu => h.tree.leaf_kept kept hu

theorem reach_ok {w : World σ} (h : Reach (system A) w) : Ok A 512 w.phys w.table w.rest := by
  refine Reach.invariant (fun w => Ok A 512 w.phys w.table w.rest) ?_ ?_ h
  · rintro w ⟨s, holds, heq⟩
    exact (new_spec holds (Nat.le_refl 512) heq).1
  · intro w op w' ok hstep
    exact (Step.spec ok hstep).1

/-- A reached table represents a map, and every call on it is a call on the map.
A rejected `map` of a mapped page changes nothing at all. -/
theorem reach_refines {w : World σ} (h : Reach (system A) w) :
    ∃ M, Represents w M ∧ ∀ op w', Step A w op w' →
      ∃ M', Represents w' M' ∧ MapStep M op M' ∧
        ∀ v p f, op = .map v p f (.error .alreadyMapped) → w' = w := by
  have ok := reach_ok h
  refine ⟨view w, represents_view ok, fun op w' hstep => ?_⟩
  obtain ⟨ok', hmap, same⟩ := Step.spec ok hstep
  exact ⟨view w', represents_view ok', hmap, same⟩

/-- The buddy allocator after boot has a frame for the root. -/
theorem refines_after_boot : ∃ w, Reach (system Buddy.allocator.toFrameAllocator) w ∧
    ∃ M, Represents w M ∧ ∀ op w', Step Buddy.allocator.toFrameAllocator w op w' →
      ∃ M', Represents w' M' ∧ MapStep M op M' ∧
        ∀ v p f, op = .map v p f (.error .alreadyMapped) → w' = w := by
  obtain ⟨s, -, holds, avail⟩ := Buddy.boot
  obtain ⟨f, s', halloc, -⟩ := CountedAllocator.alloc_one holds (by omega)
  have hnew : PageTable.new Buddy.allocator.toFrameAllocator s = (some ⟨f.ppn, [f]⟩, s') := by
    simp [PageTable.new, halloc]
  have hreach : Reach (system Buddy.allocator.toFrameAllocator) ⟨s', ⟨f.ppn, [f]⟩, 0⟩ :=
    .init ⟨s, holds, hnew⟩
  exact ⟨_, hreach, reach_refines hreach⟩

end AlexOS.TableRun
