import AlexOS.Mm.PageTable

/-!
# Tables along paths

A table frame is reached from the root by the indices taken on the way, deepest
index first. `Tables P` says that the tables at the ends of the paths in `P` are
held frames, each reached by one path only, so a write through one path is seen
by no other.
-/

namespace AlexOS

open Bytes Blocks

/-! ## Words of an entry -/

namespace Pte

theorem flags_eq (e : Nat) : flags e = e % 1024 := Nat.and_two_pow_sub_one_eq_mod e 10

theorem ppn_eq (e : Nat) : ppn e = e / 1024 % 2 ^ 44 := by
  rw [ppn, Nat.and_two_pow_sub_one_eq_mod, Nat.shiftRight_eq_div_pow]

theorem isValid_iff (e : Nat) : isValid e = true ↔ e % 2 = 1 := by
  have : flags e &&& 1 = e % 2 := by
    rw [flags_eq, show (1 : Nat) = 2 ^ 1 - 1 from rfl, Nat.and_two_pow_sub_one_eq_mod]
    omega
  simp [isValid, PteFlags.contains, PteFlags.valid, this]

theorem not_isValid_zero : isValid 0 = false := rfl

variable {p f g : Nat}

theorem new_eq (hp : p < 2 ^ 44) (hf : f < 2 ^ 10) : new p f = p * 1024 + f := by
  have hlt : p <<< 10 < 2 ^ 64 := by rw [Nat.shiftLeft_eq]; omega
  rw [new, Nat.mod_eq_of_lt hlt, ← Nat.shiftLeft_add_eq_or_of_lt hf, Nat.shiftLeft_eq]

theorem new_lt (hp : p < 2 ^ 44) (hf : f < 2 ^ 10) : new p f < 2 ^ 54 := by
  rw [new_eq hp hf]; omega

theorem ppn_new (hp : p < 2 ^ 44) (hf : f < 2 ^ 10) : ppn (new p f) = p := by
  rw [ppn_eq, new_eq hp hf]; omega

/-- The flags lie below the page number, however large that is. -/
theorem flags_new (p : Nat) (hf : f < 2 ^ 10) : flags (new p f) = f := by
  have hzero : (p <<< 10) % 2 ^ 64 % 2 ^ 10 = 0 := by
    rw [Nat.mod_mod_of_dvd _ (by decide : 2 ^ 10 ∣ 2 ^ 64), Nat.shiftLeft_eq, Nat.mul_mod_left]
  rw [flags_eq, new, show 1024 = 2 ^ 10 from rfl, Nat.or_mod_two_pow, hzero, Nat.mod_eq_of_lt hf,
    Nat.zero_or]

theorem isValid_new (hp : p < 2 ^ 44) (hf : f < 2 ^ 10) : isValid (new p f) = true ↔ f % 2 = 1 := by
  rw [isValid_iff, new_eq hp hf]; omega

theorem new_ppn_flags {e : Nat} (h : e < 2 ^ 54) : new (ppn e) (flags e) = e := by
  rw [new_eq (by rw [ppn_eq]; omega) (by rw [flags_eq]; omega), ppn_eq, flags_eq]
  omega

/-- Clearing the flag bits of a word keeps the rest. -/
theorem and_not_mask {e : Nat} (h : e < 2 ^ 64) :
    e &&& (2 ^ 64 - 1 - flagMask) = e / 1024 * 1024 := by
  have hmask : 2 ^ 64 - 1 - flagMask = (2 ^ 54 - 1) <<< 10 := by decide
  have hsplit : e / 1024 * 1024 = (e >>> 10) <<< 10 := by
    rw [Nat.shiftLeft_eq, Nat.shiftRight_eq_div_pow]
  rw [hmask, hsplit]
  apply Nat.eq_of_testBit_eq
  intro i
  simp only [Nat.testBit_and, Nat.testBit_shiftLeft, Nat.testBit_shiftRight,
    Nat.testBit_two_pow_sub_one]
  by_cases hi : i ≥ 10
  · by_cases hw : i - 10 < 54
    · simp [hi, hw]
    · have : e.testBit i = false :=
        Nat.testBit_lt_two_pow (Nat.lt_of_lt_of_le h (Nat.pow_le_pow_right (by decide) (by omega)))
      simp [hi, this]
  · simp [hi]

theorem setFlags_new (hp : p < 2 ^ 44) (hf : f < 2 ^ 10) (hg : g < 2 ^ 10) :
    setFlags (new p f) g = new p g := by
  have hlt := new_lt hp hf
  rw [setFlags, and_not_mask (by omega), new_eq hp hf,
    show (p * 1024 + f) / 1024 * 1024 = p <<< 10 by rw [Nat.shiftLeft_eq]; omega,
    ← Nat.shiftLeft_add_eq_or_of_lt hg, new_eq hp hg, Nat.shiftLeft_eq]

end Pte

theorem PteFlags.present_lt {f : Nat} (h : f < 2 ^ 10) : present f < 2 ^ 10 :=
  Nat.or_lt_two_pow (Nat.or_lt_two_pow (Nat.or_lt_two_pow h (by decide)) (by decide)) (by decide)

theorem PteFlags.present_odd (f : Nat) : present f % 2 = 1 := by
  have : (present f).testBit 0 = true := by simp [present, valid]
  simpa [Nat.testBit_zero] using this

theorem PteFlags.present_lt_word {f : Nat} (h : f < 2 ^ 64) : present f < 2 ^ 64 :=
  Nat.or_lt_two_pow (Nat.or_lt_two_pow (Nat.or_lt_two_pow h (by decide)) (by decide)) (by decide)

theorem Pte.new_lt_word (p : Nat) {f : Nat} (h : f < 2 ^ 64) : new p f < 2 ^ 64 :=
  Nat.or_lt_two_pow (Nat.mod_lt _ (by decide)) h

theorem Pte.isValid_present (p f : Nat) : isValid (new p (PteFlags.present f)) = true := by
  have bit : (new p (PteFlags.present f)).testBit 0 = true := by
    simp [new, PteFlags.present, PteFlags.valid]
  rw [isValid_iff]
  simpa [Nat.testBit_zero] using bit

theorem indices_eq (v : Nat) : indices v = [v / 2 ^ 18 % 512, v / 2 ^ 9 % 512, v % 512] := by
  have mask : ∀ x : Nat, x &&& 0x1ff = x % 512 := fun x => Nat.and_two_pow_sub_one_eq_mod x 9
  simp only [indices, mask, Nat.shiftRight_eq_div_pow]

theorem entry_write {m : Mem} {q i j x : Nat} (hi : i < 512) (hj : j < 512) (hx : x < 2 ^ 64)
    (p : Nat) :
    entry (write64 m (slot q i) x) p j = if p = q ∧ j = i then x else entry m p j := by
  by_cases h : p = q ∧ j = i
  · obtain ⟨rfl, rfl⟩ := h
    simp only [and_self, if_true]
    exact read64_write64_same m hx
  · rw [if_neg h]
    apply read64_write64_apart
    simp only [slot, baseAddr, pageSize]
    omega

theorem slot_inj {q q' i i' : Nat} (hi : i < 512) (hi' : i' < 512) (h : slot q i = slot q' i') :
    q = q' ∧ i = i' := by
  simp only [slot, baseAddr, pageSize] at h
  omega

theorem entry_congr {m m' : Mem} {p i : Nat} (hi : i < 512)
    (h : ∀ a, pageNum a = p → m' a = m a) : entry m' p i = entry m p i := by
  refine read64_congr fun a lo hi' => h a ?_
  simp only [slot, baseAddr, pageNum, pageSize] at *
  omega

theorem write_slot_outside {m : Mem} {q i a x : Nat} (hi : i < 512) (ha : pageNum a ≠ q) :
    write64 m (slot q i) x a = m a :=
  write64_frame m x (8 * i) (by simp only [pageSize]; omega) ha

/-! ## Paths -/

/-- The table below entry `i` of the table `p`. -/
def tableBelow (m : Mem) (p i : Nat) : Option Nat :=
  if Pte.isValid (entry m p i) then some (Pte.ppn (entry m p i)) else none

/-- The table at the end of a path, deepest index first. -/
def node (m : Mem) (root : Nat) : List Nat → Option Nat
  | [] => some root
  | i :: p => (node m root p).bind (tableBelow m · i)

theorem node_append_none {m : Mem} {root : Nat} {p : List Nat} (l : List Nat)
    (h : node m root p = none) : node m root (l ++ p) = none := by
  induction l with
  | nil => exact h
  | cons i l ih => rw [List.cons_append, node, ih, Option.bind_none]

/-- Paths of table indices, closed under leaving the deepest one out. -/
structure Paths (P : List Nat → Prop) : Prop where
  tail : ∀ {i : Nat} {p : List Nat}, P (i :: p) → P p
  index_lt : ∀ {i : Nat} {p : List Nat}, P (i :: p) → i < 512

structure Tables (P : List Nat → Prop) (m : Mem) (root : Nat) (frames : Multiset Frame) : Prop where
  paths : Paths P
  held : ∀ p q, P p → node m root p = some q → (⟨q, 0⟩ : Frame) ∈ frames
  inj : ∀ p p' q, P p → P p' → node m root p = some q → node m root p' = some q → p = p'

section
variable {P : List Nat → Prop} {root : Nat} {m m' : Mem} {frames : Multiset Frame}

theorem frame_held {q a : Nat} (h : (⟨q, 0⟩ : Frame) ∈ frames) (ha : pageNum a = q) :
    0 < framesOver frames (pageNum a) :=
  framesOver_of_mem h (Nat.le_of_eq ha.symm) (by simp [Frame.count, ha])

theorem entry_held {q i : Nat} (hq : (⟨q, 0⟩ : Frame) ∈ frames) (kept : Kept frames m m')
    (hi : i < 512) : entry m' q i = entry m q i :=
  entry_congr hi fun a ha => kept a (frame_held hq ha)

theorem Zeroed.entry {f : Frame} (h : Zeroed f m) {i : Nat} (hi : i < 512) :
    entry m f.ppn i = 0 := by
  refine readLE_zero fun a lo hi' => h a ?_ ?_
  · simp only [slot, baseAddr, pageNum, pageSize] at *
    omega
  · have : 0 < f.count := Nat.two_pow_pos _
    simp only [slot, baseAddr, pageNum, pageSize] at *
    omega

theorem Tables.entry_kept (t : Tables P m root frames) (kept : Kept frames m m') {p : List Nat}
    {q i : Nat} (hp : P p) (hq : node m root p = some q) (hi : i < 512) :
    entry m' q i = entry m q i :=
  entry_held (t.held p q hp hq) kept hi

theorem Tables.node_kept (t : Tables P m root frames) (kept : Kept frames m m') {p : List Nat}
    (hp : P p) : node m' root p = node m root p := by
  induction p with
  | nil => rfl
  | cons i p ih =>
    rw [node, node, ih (t.paths.tail hp)]
    cases hq : node m root p with
    | none => simp only [Option.bind_none]
    | some q =>
      simp only [Option.bind_some, tableBelow,
        t.entry_kept kept (t.paths.tail hp) hq (t.paths.index_lt hp)]

theorem Tables.kept (t : Tables P m root frames) (kept : Kept frames m m') :
    Tables P m' root frames := by
  have same := fun p hp => t.node_kept kept (p := p) hp
  refine ⟨t.paths, ?_, ?_⟩
  · intro p q hp hq
    exact t.held p q hp (same p hp ▸ hq)
  · intro p p' q hp hp' hq hq'
    exact t.inj p p' q hp hp' (same p hp ▸ hq) (same p' hp' ▸ hq')

/-! ## Writing a slot -/

theorem Tables.mono (t : Tables P m root frames) {P' : List Nat → Prop} (paths : Paths P')
    (sub : ∀ p, P' p → P p) : Tables P' m root frames :=
  ⟨paths, fun p q hp => t.held p q (sub p hp), fun p p' q hp hp' =>
    t.inj p p' q (sub p hp) (sub p' hp')⟩

/-- A path that does not go through a slot does not see it written. -/
theorem Tables.node_write (t : Tables P m root frames) {p : List Nat} {q i x : Nat} (hp : P p)
    (hq : node m root p = some q) (hi : i < 512) (hx : x < 2 ^ 64) {p' : List Nat} (hp' : P p')
    (apart : ¬ (i :: p) <:+ p') : node (write64 m (slot q i) x) root p' = node m root p' := by
  induction p' with
  | nil => rfl
  | cons j p' ih =>
    have above : ¬ (i :: p) <:+ p' := fun h => apart (h.trans (List.suffix_cons j p'))
    rw [node, node, ih (t.paths.tail hp') above]
    cases hq' : node m root p' with
    | none => simp only [Option.bind_none]
    | some q' =>
      have hne : ¬ (q' = q ∧ j = i) := by
        rintro ⟨rfl, rfl⟩
        rw [t.inj p' p q' (t.paths.tail hp') hp hq' hq] at apart
        exact apart (List.suffix_refl _)
      simp only [Option.bind_some, tableBelow, entry_write hi (t.paths.index_lt hp') hx, if_neg hne]

/-- Paths through the slot are given up, all others stay. -/
theorem Tables.write (t : Tables P m root frames) {p : List Nat} {q i x : Nat} (hp : P p)
    (hq : node m root p = some q) (hi : i < 512) (hx : x < 2 ^ 64) {P' : List Nat → Prop}
    (paths : Paths P') (sub : ∀ p', P' p' → P p' ∧ ¬ (i :: p) <:+ p') :
    Tables P' (write64 m (slot q i) x) root frames := by
  have same := fun p' (h : P' p') => t.node_write (x := x) hp hq hi hx (sub p' h).1 (sub p' h).2
  refine ⟨paths, ?_, ?_⟩
  · intro p' q' hp' hq'
    exact t.held p' q' (sub p' hp').1 (same p' hp' ▸ hq')
  · intro p₁ p₂ q' h₁ h₂ hq₁ hq₂
    exact t.inj p₁ p₂ q' (sub p₁ h₁).1 (sub p₂ h₂).1 (same p₁ h₁ ▸ hq₁) (same p₂ h₂ ▸ hq₂)

/-! ## Linking a new table -/

section
variable {p : List Nat} {q i : Nat} {f : Frame}

/-- What a freshly allocated table needs: one zeroed frame nobody else holds. -/
structure NewTable (m : Mem) (frames : Multiset Frame) (f : Frame) : Prop where
  order : f.order = 0
  ppn_lt : f.ppn < 2 ^ 44
  fresh : framesOver frames f.ppn = 0
  zeroed : Zeroed f m

theorem NewTable.entry (hf : NewTable m frames f) {c : Nat} (hc : c < 512) :
    entry m f.ppn c = 0 :=
  hf.zeroed.entry hc

theorem NewTable.not_held (hf : NewTable m frames f) : (⟨f.ppn, 0⟩ : Frame) ∉ frames := by
  intro h
  have := framesOver_of_mem h (Nat.le_refl f.ppn) (by simp [Frame.count])
  have := hf.fresh
  omega

/-- Memory after the parent's entry points at the new table. -/
def linked (m : Mem) (q i : Nat) (f : Frame) : Mem :=
  write64 m (slot q i) (Pte.new f.ppn PteFlags.valid)

theorem NewTable.entry_linked (hf : NewTable m frames f) (hi : i < 512) {c : Nat} (hc : c < 512)
    (q' : Nat) : AlexOS.entry (linked m q i f) q' c =
      if q' = q ∧ c = i then Pte.new f.ppn PteFlags.valid else AlexOS.entry m q' c := by
  have hlt := Pte.new_lt hf.ppn_lt (show PteFlags.valid < 2 ^ 10 by decide)
  exact entry_write hi hc (by omega) q'

variable (t : Tables P m root frames) (hp : P (i :: p)) (hq : node m root p = some q)
  (hf : NewTable m frames f)
include t hp hq hf

/-- The new table lies apart from the one it is linked from. -/
theorem Tables.new_ne : f.ppn ≠ q := fun e =>
  hf.not_held (e ▸ t.held p q (t.paths.tail hp) hq)

variable (hmiss : Pte.isValid (entry m q i) = false)
include hmiss

theorem Tables.node_linked {p' : List Nat} (hp' : P p') :
    node (linked m q i f) root p' = if p' = i :: p then some f.ppn else node m root p' := by
  have hi := t.paths.index_lt hp
  have hvalid : PteFlags.valid < 2 ^ 10 := by decide
  have qf := t.new_ne hp hq hf
  induction p' with
  | nil => simp [node]
  | cons j p' ih =>
    have hj := t.paths.index_lt hp'
    rw [node, ih (t.paths.tail hp')]
    by_cases hext : p' = i :: p
    · subst hext
      have hlong : j :: i :: p ≠ i :: p := fun e => by simpa using congrArg List.length e
      simp [hlong, tableBelow, hf.entry_linked hi hj, qf, hf.entry hj, Pte.not_isValid_zero, node,
        hq, hmiss]
    · rw [if_neg hext]
      cases hq' : node m root p' with
      | none =>
        have : ¬ (j :: p' = i :: p) := by
          intro e
          obtain ⟨-, rfl⟩ := List.cons.inj e
          rw [hq] at hq'
          cases hq'
        simp [this, node, hq']
      | some q' =>
        by_cases hat : j :: p' = i :: p
        · obtain ⟨rfl, rfl⟩ := List.cons.inj hat
          obtain rfl : q = q' := Option.some.inj (hq.symm.trans hq')
          simp [tableBelow, hf.entry_linked hi hj, (Pte.isValid_new hf.ppn_lt hvalid).mpr rfl,
            Pte.ppn_new hf.ppn_lt hvalid]
        · have hne : ¬ (q' = q ∧ j = i) := by
            rintro ⟨rfl, rfl⟩
            exact hat (by rw [t.inj p' p q' (t.paths.tail hp') (t.paths.tail hp) hq' hq])
          simp only [Option.bind_some, tableBelow, hf.entry_linked hi hj, if_neg hne, if_neg hat,
            node, hq']

theorem Tables.linked : Tables P (linked m q i f) root (f ::ₘ frames) := by
  have hself : f = ⟨f.ppn, 0⟩ := by rw [← hf.order]
  have at_node := fun p' (hp' : P p') => t.node_linked hp hq hf hmiss hp'
  refine ⟨t.paths, ?_, ?_⟩
  · intro p' q' hp' hq'
    rw [at_node p' hp'] at hq'
    split at hq'
    · obtain rfl := Option.some.inj hq'
      rw [← hself]
      exact Multiset.mem_cons_self f frames
    · exact Multiset.mem_cons_of_mem (t.held p' q' hp' hq')
  · intro p₁ p₂ q' h₁ h₂ hq₁ hq₂
    rw [at_node p₁ h₁] at hq₁
    rw [at_node p₂ h₂] at hq₂
    by_cases e₁ : p₁ = i :: p <;> by_cases e₂ : p₂ = i :: p
    · rw [e₁, e₂]
    · rw [if_pos e₁] at hq₁
      rw [if_neg e₂] at hq₂
      obtain rfl := Option.some.inj hq₁
      exact absurd (t.held p₂ _ h₂ hq₂) hf.not_held
    · rw [if_neg e₁] at hq₁
      rw [if_pos e₂] at hq₂
      obtain rfl := Option.some.inj hq₂
      exact absurd (t.held p₁ _ h₁ hq₁) hf.not_held
    · rw [if_neg e₁] at hq₁
      rw [if_neg e₂] at hq₂
      exact t.inj p₁ p₂ q' h₁ h₂ hq₁ hq₂

end

end

end AlexOS
