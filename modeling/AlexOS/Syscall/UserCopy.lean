import AlexOS.Task.Fresh

/-!
# Copies to and from user memory

`copy_to_user` goes a page at a time. Byte by byte it does this: it stores what it
is given where the user may write, up to the first byte where the user may not, and
nothing else in any address space changes.
-/

namespace AlexOS

open Bytes PageTable

namespace AddressSpace

/-- The byte lies in the user half, in a page with `WRITE` and `USER`. -/
def Writable (m : Mem) (sp : AddressSpace) (a : Nat) : Prop :=
  a < userMaxAddr ∧ ∃ pte, translate m sp.table (pageNum a) = some pte ∧
    PteFlags.contains (Pte.flags pte) (PteFlags.write ||| PteFlags.user) = true

/-- What a copy of `src` to `va` in `sp` does, when the spaces `others` exist as well. -/
structure CopiesExactly (m : Mem) (sp : AddressSpace) (others : Multiset AddressSpace) (va : Nat)
    (src : List UInt8) (res : Option Unit) (m' : Mem) : Prop where
  succeeds : res = some () ↔ ∀ a, va ≤ a → a < va + src.length → Writable m sp a
  copied : res = some () → sp.copyFromUser m' va src.length = some src ∧
    ∀ a, a < va ∨ va + src.length ≤ a → view m' sp a = view m sp a
  /-- Up to the first page that is not admissible, and no further. -/
  stopped : res = none → ∃ n < src.length, ¬ Writable m sp (va + n) ∧
    (∀ a, va ≤ a → a < va + n → Writable m sp a) ∧ (n = 0 ∨ (va + n) % pageSize = 0) ∧
    sp.copyFromUser m' va n = some (src.take n) ∧
    ∀ a, a < va ∨ va + n ≤ a → view m' sp a = view m sp a
  others : ∀ q ∈ others, view m' q = view m q

variable {m m' : Mem} {sp : AddressSpace} {va : Nat}

theorem writable_iff {a : Nat} : Writable m sp a ↔
    ∃ x, view m sp a = some x ∧
      PteFlags.contains x.1 (PteFlags.write ||| PteFlags.user) = true := by
  rw [Writable, view]
  by_cases ha : a < userMaxAddr
  · rw [if_pos ha]
    constructor
    · rintro ⟨-, pte, hpte, hc⟩
      exact ⟨_, by rw [hpte]; rfl, hc⟩
    · rintro ⟨x, hx, hc⟩
      obtain ⟨pte, hpte, rfl⟩ := Option.map_eq_some_iff.mp hx
      exact ⟨ha, pte, hpte, hc⟩
  · rw [if_neg ha]
    refine ⟨fun h => absurd h.1 ha, ?_⟩
    rintro ⟨x, hx, -⟩
    cases hx

theorem grants_iff {len : Nat} :
    (view m sp).Grants (PteFlags.write ||| PteFlags.user) va len ↔
      ∀ a, va ≤ a → a < va + len → Writable m sp a := by
  refine forall_congr' fun a => forall_congr' fun _ => forall_congr' fun _ => ?_
  rw [writable_iff]

/-- The bytes of a page are writable together. -/
theorem Writable.same_page {a b : Nat} (h : Writable m sp a) (same : pageNum b = pageNum a) :
    Writable m sp b := by
  refine ⟨?_, by rw [same]; exact h.2⟩
  have := h.1
  simp only [pageNum, pageSize, userMaxAddr] at *
  omega

theorem copied_back {src : List UInt8} {n : Nat} (hn : n ≤ src.length)
    (granted : (view m sp).Grants (PteFlags.write ||| PteFlags.user) va n)
    (shown : view m' sp = (view m sp).overlay va (src.take n)) :
    sp.copyFromUser m' va n = some (src.take n) ∧
      ∀ a, a < va ∨ va + n ≤ a → view m' sp a = view m sp a := by
  have hlen : (src.take n).length = n := by rw [List.length_take, Nat.min_eq_left hn]
  rw [← hlen] at granted
  refine ⟨copyFromUser_iff.mpr ⟨hlen, ?_⟩, fun a out => ?_⟩
  · rw [shown]
    exact UserView.overlay_reads granted
  · rw [shown]
    exact UserView.overlay_apart (by rw [hlen]; exact out)

theorem copyToUser_exact {others : Multiset AddressSpace}
    (exact : ∀ q ∈ sp ::ₘ others, q.Exact m)
    (apart : ∀ p, framesOver ((sp ::ₘ others).map frames).sum p ≤ 1) (va : Nat) (src : List UInt8) :
    CopiesExactly m sp others va src (sp.copyToUser m va src).1 (sp.copyToUser m va src).2 := by
  rw [Multiset.map_cons, Multiset.sum_cons] at apart
  have h := exact sp (Multiset.mem_cons_self sp others)
  have own : ∀ p, framesOver sp.frames p ≤ 1 := fun p =>
    Nat.le_trans (framesOver_mono (Multiset.le_add_right _ _) p) (apart p)
  have elsewhere : ∀ q ∈ others, view (sp.copyToUser m va src).2 q = view m q := by
    intro q hq
    have writes := copyToUser_spec h own va src
    have kept := (writes.mono (Multiset.le_add_left _ _)).kept apart
    have hle : q.frames ≤ (others.map frames).sum :=
      Multiset.single_le_sum (fun _ _ => Multiset.zero_le _) _ (Multiset.mem_map_of_mem frames hq)
    exact (exact q (Multiset.mem_cons_of_mem hq)).view_kept (kept.mono hle)
  rcases copyToUserFrom_view va h own (Nat.le_refl src.length) with ⟨granted, m', heq, -, shown⟩ |
    ⟨n, hn, granted, bad, m', heq, -, shown⟩
  · have hcopy : sp.copyToUser m va src = (some (), m') := heq
    rw [hcopy] at elsewhere ⊢
    refine ⟨⟨fun _ => grants_iff.mp granted, fun _ => rfl⟩, fun _ => ?_, nofun, elsewhere⟩
    rw [← List.take_length (l := src)] at shown
    have back := copied_back (Nat.le_refl _) granted shown
    rwa [List.take_length] at back
  · have hcopy : sp.copyToUser m va src = (none, m') := heq
    have hbad : ¬ Writable m sp (va + n) := fun hw => bad (grants_iff.mpr fun a lo hi => by
      rwa [Nat.le_antisymm (Nat.le_of_lt_succ hi) lo])
    have before := grants_iff.mp granted
    rw [hcopy] at elsewhere ⊢
    refine ⟨⟨nofun, fun all => absurd (all (va + n) (Nat.le_add_right _ _) (by omega)) hbad⟩, nofun,
      fun _ => ⟨n, hn, hbad, before, ?_, copied_back (Nat.le_of_lt hn) granted shown⟩, elsewhere⟩
    by_contra inside
    have hlast := before (va + n - 1) (by omega) (by omega)
    refine hbad (hlast.same_page ?_)
    simp only [pageNum, pageSize] at *
    omega

/-- Two bytes to the bottom of the stack of one of two programs. -/
theorem copy_to_new_stack : ∃ (m m' : Mem) (sp other : AddressSpace), sp.Exact m ∧ other.Exact m ∧
    sp.copyToUser m (userStackTop - userStackSize) [1, 2] = (some (), m') ∧
      sp.copyFromUser m' (userStackTop - userStackSize) 2 = some [1, 2] ∧
      other.view m' = other.view m := by
  obtain ⟨s, sp, other, holds, exact, exact', grants⟩ := two_programs
  have both : ∀ q ∈ sp ::ₘ {other}, q.Exact s.mem := by
    intro q hq
    rcases Multiset.mem_cons.mp hq with rfl | hq
    · exact exact
    · rwa [Multiset.mem_singleton.mp hq]
  have apart : ∀ p, framesOver ((sp ::ₘ {other}).map frames).sum p ≤ 1 := by
    rw [Multiset.map_cons, Multiset.sum_cons, Multiset.map_singleton, Multiset.sum_singleton]
    exact Buddy.dram.apart holds
  have copies := copyToUser_exact both apart (userStackTop - userStackSize) [1, 2]
  have done := copies.succeeds.mpr (grants_iff.mp (grants.sub (Nat.le_refl _) (by decide)))
  exact ⟨s.mem, _, sp, other, exact, exact', Prod.ext done rfl, (copies.copied done).1,
    copies.others other (Multiset.mem_singleton_self other)⟩

end AddressSpace

end AlexOS
