import AlexOS.Lib.Run
import AlexOS.Mm.FrameRun
import AlexOS.Mm.SpaceFrames

/-!
# The walk of the hardware

`Sv39.walk` is the translation process of the privileged architecture, up to the
leaf it ends at; it is written from the architecture and not from the kernel.
`translate` and `translate_addr` agree with it on every table that the kernel's
operations build, also where two tables share the subtables of the upper half.
-/

namespace AlexOS

open Bytes PageTable

namespace Sv39

inductive Walk where
  | fault
  | leaf (level pte : Nat)
deriving DecidableEq, Repr

/-- Bits 63 to 39 of the address are copies of bit 38. -/
def Canonical (va : Nat) : Prop := va < 2 ^ 38 ∨ 2 ^ 64 - 2 ^ 38 ≤ va ∧ va < 2 ^ 64

instance (va : Nat) : Decidable (Canonical va) := inferInstanceAs (Decidable (_ ∨ _))

def has (pte f : Nat) : Bool := PteFlags.contains (Pte.flags pte) f

/-- From a table, with the indices still to be used. An entry faults that is not valid, is
writable but not readable or has reserved bits set; so does a misaligned superpage, and a
pointer to the next table with `D`, `A` or `U`. -/
def walkFrom (mem : Mem) : List Nat → Nat → Walk
  | [], _ => .fault
  | i :: is, ppn =>
    let pte := entry mem ppn i
    if has pte PteFlags.valid = false ∨
        (has pte PteFlags.read = false ∧ has pte PteFlags.write = true) ∨ 2 ^ 54 ≤ pte then .fault
    else if has pte PteFlags.read = true ∨ has pte PteFlags.exec = true then
      if Pte.ppn pte % ptePerTable ^ is.length = 0 then .leaf is.length pte else .fault
    else if has pte PteFlags.dirty = true ∨ has pte PteFlags.accessed = true ∨
        has pte PteFlags.user = true then .fault
    else walkFrom mem is (Pte.ppn pte)

def walk (mem : Mem) (root va : Nat) : Walk :=
  if Canonical va then
    walkFrom mem [va / 2 ^ 30 % 512, va / 2 ^ 21 % 512, va / 2 ^ 12 % 512] root
  else .fault

theorem walk_eq (mem : Mem) (root : Nat) {va : Nat} (h : Canonical va) :
    walk mem root va = walkFrom mem (indices (pageNum va)) root := by
  rw [walk, if_pos h, indices_eq, pageNum, pageSize]
  simp only [Nat.div_div_eq_div_mul, Nat.reducePow, Nat.reduceMul]

end Sv39

/-- Readable or executable, and writable only if readable. -/
structure LegalFlags (f : Nat) : Prop where
  lt : f < 2 ^ 10
  leaf : PteFlags.contains f PteFlags.read = true ∨ PteFlags.contains f PteFlags.exec = true
  write : PteFlags.contains f PteFlags.write = true → PteFlags.contains f PteFlags.read = true

namespace PteFlags

variable {f g : Nat}

/-- `map` adds bits of its own and leaves the others alone. -/
theorem contains_present (h : (valid ||| accessed ||| dirty) &&& g = 0) :
    contains (present f) g = contains f g := by
  have split : present f &&& g = f &&& g ||| (valid ||| accessed ||| dirty) &&& g := by
    simp only [present, Nat.and_or_distrib_right, Nat.or_assoc]
  rw [contains, contains, split, h, Nat.or_zero]

theorem contains_rwx (h : contains f read = true ∨ contains f exec = true) :
    intersects f rwx = true := by
  simp only [contains, intersects, beq_iff_eq, bne_iff_ne, rwx, ne_eq, Nat.and_or_distrib_left,
    Nat.or_eq_zero_iff] at h ⊢
  rintro ⟨⟨hread, -⟩, hexec⟩
  rcases h with h | h
  · rw [hread] at h
    cases h
  · rw [hexec] at h
    cases h

end PteFlags

/-! ## Tables with a level

Each table frame has one level, 0 for roots. An entry that is in use names a
table one level down or is a legal leaf. This says nothing about who shares
what, so it also holds of tables that share subtables. -/

/-- What an entry of a table at level `l` may hold. -/
inductive Shape (lev : Nat → Option Nat) (l e : Nat) : Prop where
  | invalid : Pte.isValid e = false → Shape lev l e
  | table (q : Nat) : q < 2 ^ 44 → lev q = some (l + 1) → e = Pte.new q PteFlags.valid →
      Shape lev l e
  | leaf (p f : Nat) : p < 2 ^ 44 → LegalFlags f → p % ptePerTable ^ (2 - l) = 0 →
      e = Pte.new p (PteFlags.present f) → Shape lev l e

namespace Sv39

variable {m : Mem} {is : List Nat} {i q : Nat}

theorem walkFrom_invalid (h : Pte.isValid (entry m q i) = false) :
    walkFrom m (i :: is) q = .fault := by
  rw [walkFrom]
  exact if_pos (.inl h)

theorem walkFrom_table {q' : Nat} (hq : q' < 2 ^ 44) (h : entry m q i = Pte.new q' PteFlags.valid) :
    walkFrom m (i :: is) q = walkFrom m is q' := by
  have hvalid : PteFlags.valid < 2 ^ 10 := by decide
  have hflags : Pte.flags (entry m q i) = PteFlags.valid := h ▸ Pte.flags_new _ hvalid
  have hlt : entry m q i < 2 ^ 54 := h ▸ Pte.new_lt hq hvalid
  have hppn : Pte.ppn (entry m q i) = q' := h ▸ Pte.ppn_new hq hvalid
  rw [walkFrom]
  simp only [has, hflags, hppn]
  rw [if_neg, if_neg (by decide), if_neg (by decide)]
  rintro (h | h | h)
  · revert h
    decide
  · revert h
    decide
  · omega

theorem walkFrom_leaf {p f : Nat} (hp : p < 2 ^ 44) (hf : LegalFlags f)
    (aligned : p % ptePerTable ^ is.length = 0) (h : entry m q i = Pte.new p (PteFlags.present f)) :
    walkFrom m (i :: is) q = .leaf is.length (entry m q i) := by
  have hpf := PteFlags.present_lt hf.lt
  have hflags : Pte.flags (entry m q i) = PteFlags.present f := h ▸ Pte.flags_new _ hpf
  have hlt : entry m q i < 2 ^ 54 := h ▸ Pte.new_lt hp hpf
  have hppn : Pte.ppn (entry m q i) = p := h ▸ Pte.ppn_new hp hpf
  have hread := PteFlags.contains_present (f := f) (g := PteFlags.read) (by decide)
  have hwrite := PteFlags.contains_present (f := f) (g := PteFlags.write) (by decide)
  have hexec := PteFlags.contains_present (f := f) (g := PteFlags.exec) (by decide)
  have hvalid : has (entry m q i) PteFlags.valid = true := h ▸ Pte.isValid_present p f
  rw [walkFrom]
  simp only [has, hflags, hppn, hread, hwrite, hexec] at hvalid ⊢
  rw [if_neg, if_pos hf.leaf, if_pos aligned]
  rintro (hv | ⟨hr, hw⟩ | hbig)
  · rw [hvalid] at hv
    cases hv
  · rw [hf.write hw] at hr
    cases hr
  · omega

end Sv39

/-- Every table has a level, and its entries are what that level allows. -/
def Typed (m : Mem) (lev : Nat → Option Nat) : Prop :=
  ∀ q l, lev q = some l → ∀ i, i < 512 → Shape lev l (entry m q i)

section
variable {m : Mem} {lev : Nat → Option Nat}

theorem isLeaf_table (q : Nat) :
    Pte.isLeaf (Pte.new q PteFlags.valid) = false := by
  rw [Pte.isLeaf, Pte.flags_new _ (by decide), Bool.and_eq_false_iff]
  exact .inr rfl

theorem isValid_table {q : Nat} (hq : q < 2 ^ 44) :
    Pte.isValid (Pte.new q PteFlags.valid) = true :=
  (Pte.isValid_new hq (by decide)).mpr rfl

/-- The two walks stop at the same entry, unless that is no page of 4 KiB. -/
theorem Typed.walks (typed : Typed m lev) (bound : ∀ q l, lev q = some l → l ≤ 2) {is : List Nat}
    {l q : Nat} (hq : lev q = some l) (hlen : l + is.length = 3) (hi : ∀ i ∈ is, i < 512) :
    match Sv39.walkFrom m is q with
    | .leaf 0 e => ((walkPtrFrom m is l q).map (read64 m)).filter Pte.isValid = some e
    | _ => ((walkPtrFrom m is l q).map (read64 m)).filter Pte.isValid = none := by
  induction is generalizing l q with
  | nil =>
    have := bound q l hq
    simp only [List.length_nil] at hlen
    omega
  | cons i is ih =>
    have hlen' : l + 1 + is.length = 3 := by rw [List.length_cons] at hlen; omega
    have hlast : l = sv39Levels - 1 ↔ is = [] := by
      rw [← List.length_eq_zero_iff, sv39Levels]
      omega
    cases typed q l hq i (hi i List.mem_cons_self) with
    | invalid h =>
      rw [Sv39.walkFrom_invalid h, walkPtrFrom]
      have hread : Pte.isValid (read64 m (slot q i)) = false := h
      by_cases hl : l = sv39Levels - 1
      · simp only [if_pos hl, Option.map_some, Option.filter_some, hread,
          Bool.false_eq_true, if_false]
      · simp only [if_neg hl, if_pos h, Option.map_none, Option.filter_none]
    | table q' hlt hlev h =>
      have hne : l ≠ sv39Levels - 1 := by
        have := bound q' _ hlev
        rw [sv39Levels]
        omega
      rw [Sv39.walkFrom_table hlt h, walkPtrFrom]
      simp only [h, if_neg hne, isValid_table hlt, isLeaf_table, Bool.true_eq_false,
        Bool.false_eq_true, if_false, Pte.ppn_new hlt (show PteFlags.valid < 2 ^ 10 by decide)]
      exact ih hlev hlen' fun j hj => hi j (List.mem_cons_of_mem _ hj)
    | leaf p f hp hf aligned h =>
      have hlevel : 2 - l = is.length := by omega
      rw [hlevel] at aligned
      rw [Sv39.walkFrom_leaf hp hf aligned h, walkPtrFrom]
      cases is with
      | nil =>
        have hvalid : Pte.isValid (read64 m (slot q i)) = true := by
          rw [show read64 m (slot q i) = entry m q i from rfl, h]
          exact Pte.isValid_present p f
        simp only [List.length_nil, if_pos (hlast.mpr rfl), Option.map_some, Option.filter_some,
          if_pos hvalid]
        rfl
      | cons j is =>
        have hne : l ≠ sv39Levels - 1 := fun e => by cases hlast.mp e
        simp only [List.length_cons, if_neg hne, h, Pte.isValid_present, isLeaf_present p
          (PteFlags.contains_rwx hf.leaf), Bool.true_eq_false, if_false, if_true]
        rfl

end

/-! ## The operations keep the levels -/

namespace WalkRun

variable {σ : Type} {A : FrameAllocator σ} {s s' : Phys σ} {t t' : PageTable}
  {frames rest : Multiset Frame} {lev : Nat → Option Nat} {q l i : Nat}

/-- Tables with frames `frames` in all, each with its level. -/
structure Inv (A : FrameAllocator σ) (s : Phys σ) (frames rest : Multiset Frame)
    (lev : Nat → Option Nat) : Prop where
  holds : A.Holds s (frames + rest)
  bound : ∀ q l, lev q = some l → l ≤ 2
  held : ∀ q l, lev q = some l → (⟨q, 0⟩ : Frame) ∈ frames
  typed : Typed s.mem lev

theorem Inv.kept (h : Inv A s frames rest lev) {rest' : Multiset Frame}
    (holds : A.Holds s' (frames + rest')) (kept : Kept frames s.mem s'.mem) :
    Inv A s' frames rest' lev := by
  refine ⟨holds, h.bound, h.held, fun q l hq i hi => ?_⟩
  rw [entry_held (h.held q l hq) kept hi]
  exact h.typed q l hq i hi

theorem Inv.write (h : Inv A s frames rest lev) {x : Nat} (hq : lev q = some l) (hi : i < 512)
    (hx : x < 2 ^ 64) (shape : Shape lev l x) :
    Inv A { s with mem := write64 s.mem (slot q i) x } frames rest lev := by
  refine ⟨A.write h.holds fun a ha => write_slot_outside hi fun e => ?_, h.bound, h.held,
    fun q' l' hq' j hj => ?_⟩
  · have := frame_held (Multiset.mem_add.mpr (.inl (h.held q l hq)) : _ ∈ frames + rest) e
    omega
  · rw [entry_write hi hj hx]
    split
    · next same =>
      obtain ⟨rfl, rfl⟩ := same
      obtain rfl := Option.some.inj (hq.symm.trans hq')
      exact shape
    · exact h.typed q' l' hq' j hj

/-- A new frame becomes a table of any level. -/
theorem Inv.alloc (h : Inv A s frames rest lev) {f : Frame} {k : Nat} (hk : k ≤ 2)
    (heq : A.allocOrder s 0 = (some f, s')) :
    Inv A s' (f ::ₘ frames) rest (Function.update lev f.ppn (some k)) ∧ f.ppn < 2 ^ 44 ∧
      (∀ j, j < 512 → entry s'.mem f.ppn j = 0) ∧ Kept frames s.mem s'.mem ∧
      ∀ q l, lev q = some l → Function.update lev f.ppn (some k) q = some l := by
  obtain ⟨order, holds, kept, zeroed⟩ := A.alloc_some h.holds heq
  have zero : ∀ j, j < 512 → entry s'.mem f.ppn j = 0 := fun j hj => zeroed.entry hj
  have fresh : ∀ q l, lev q = some l → q ≠ f.ppn := by
    rintro _ l hq rfl
    have hone := A.apart holds f.ppn
    have := frame_held (Multiset.mem_add.mpr (.inl (h.held _ l hq)) : _ ∈ frames + rest)
      (pageNum_baseAddr f.ppn)
    rw [pageNum_baseAddr] at this
    rw [framesOver_cons, Blocks.cover_self] at hone
    omega
  have keep : ∀ q l, lev q = some l → Function.update lev f.ppn (some k) q = some l :=
    fun q l hq => (Function.update_of_ne (fresh q l hq) _ _).trans hq
  have keptF : Kept frames s.mem s'.mem := kept.mono (Multiset.le_add_right _ _)
  refine ⟨⟨by rw [Multiset.cons_add]; exact holds, ?_, ?_, ?_⟩,
    FrameAllocator.page_lt holds (Multiset.mem_cons_self _ _), zero, keptF, keep⟩
  · intro q l hq
    by_cases hf : q = f.ppn
    · subst hf
      rw [Function.update_self] at hq
      exact Option.some.inj hq ▸ hk
    · rw [Function.update_of_ne hf] at hq
      exact h.bound q l hq
  · intro q l hq
    by_cases hf : q = f.ppn
    · subst hf
      rw [← order]
      exact Multiset.mem_cons_self f frames
    · rw [Function.update_of_ne hf] at hq
      exact Multiset.mem_cons_of_mem (h.held q l hq)
  · intro q l hq j hj
    by_cases hf : q = f.ppn
    · subst hf
      rw [zero j hj]
      exact .invalid Pte.not_isValid_zero
    · rw [Function.update_of_ne hf] at hq
      rw [entry_held (h.held q l hq) keptF hj]
      cases h.typed q l hq j hj with
      | invalid e => exact .invalid e
      | table q' hlt hlev e => exact .table q' hlt (keep q' _ hlev) e
      | leaf p f hp hf aligned e => exact .leaf p f hp hf aligned e

/-- `t'` is `t` with the tables that a walk has made. -/
structure Grown (A : FrameAllocator σ) (frames rest : Multiset Frame) (lev : Nat → Option Nat)
    (t : PageTable) (s' : Phys σ) (t' : PageTable) (new : List Frame) (lev' : Nat → Option Nat) :
    Prop where
  inv : Inv A s' (new + frames) rest lev'
  table : t' = { t with frames := t.frames ++ new }
  keep : ∀ q l, lev q = some l → lev' q = some l

theorem Grown.refl (h : Inv A s frames rest lev) : Grown A frames rest lev t s t [] lev :=
  ⟨by rw [Multiset.coe_nil, zero_add]; exact h, by rw [List.append_nil], fun _ _ => id⟩

theorem Grown.trans {s₁ : Phys σ} {t₁ : PageTable} {new new' : List Frame}
    {lev₁ lev' : Nat → Option Nat} (g : Grown A frames rest lev t s₁ t₁ new lev₁)
    (g' : Grown A (new + frames) rest lev₁ t₁ s' t' new' lev') :
    Grown A frames rest lev t s' t' (new ++ new') lev' := by
  refine ⟨?_, ?_, fun q l hq => g'.keep q l (g.keep q l hq)⟩
  · rw [← Multiset.coe_add, add_right_comm, add_comm]
    exact g'.inv
  · rw [g'.table, g.table, List.append_assoc]

/-- One step down is to a table of the next level, and the hardware goes there too. -/
theorem Inv.descend (h : Inv A s frames rest lev) (hq : lev q = some l) (hl : l < 2) (hi : i < 512)
    {is : List Nat}
    (small : ∀ j ∈ is, j < 512)
    (clear : ∀ e, Sv39.walkFrom s.mem (i :: is) q ≠ .leaf is.length e) (hlen : l + is.length = 2) :
    ∃ r s' t' new lev', descend A s t q i = (r, s', t') ∧
      Grown A frames rest lev t s' t' new lev' ∧ ∀ q', r = some q' → lev' q' = some (l + 1) ∧
        Sv39.walkFrom s'.mem is q' = Sv39.walkFrom s.mem (i :: is) q := by
  unfold PageTable.descend
  cases h.typed q l hq i hi with
  | invalid hinv =>
    rw [if_neg (by rw [hinv]; exact Bool.false_ne_true)]
    rcases halloc : A.allocOrder s 0 with ⟨_ | f, s₁⟩
    · obtain rfl := A.alloc_none h.holds halloc
      exact ⟨none, _, t, [], lev, rfl, .refl h, fun _ hnone => by cases hnone⟩
    obtain ⟨inv, hlt, zero, kept, keep⟩ := h.alloc (k := l + 1) (by omega) halloc
    have hvalid : PteFlags.valid < 2 ^ 10 := by decide
    have hnew : Function.update lev f.ppn (some (l + 1)) f.ppn = some (l + 1) :=
      Function.update_self _ _ _
    have hword : Pte.new f.ppn PteFlags.valid < 2 ^ 64 := Pte.new_lt_word _ (by decide)
    have linked := inv.write (keep q l hq) hi hword (.table f.ppn hlt hnew rfl)
    have hne : f.ppn ≠ q := by
      rintro rfl
      have := (keep _ l hq).symm.trans hnew
      simp only [Option.some.injEq] at this
      omega
    refine ⟨_, _, _, [f], _, rfl, ⟨?_, rfl, keep⟩, fun q' hq' => ?_⟩
    · rw [Multiset.coe_singleton, Multiset.singleton_add]
      exact linked
    · have hentry : entry (write64 s₁.mem (slot q i) (Pte.new f.ppn PteFlags.valid)) q i =
          Pte.new f.ppn PteFlags.valid := by
        rw [entry_write hi hi hword, if_pos ⟨rfl, rfl⟩]
      obtain rfl : f.ppn = q' := by
        rw [← Option.some.inj hq', hentry, Pte.ppn_new hlt hvalid]
      refine ⟨hnew, ?_⟩
      rw [Sv39.walkFrom_invalid hinv]
      cases is with
      | nil => rfl
      | cons j is =>
        have hj := small j List.mem_cons_self
        refine Sv39.walkFrom_invalid ?_
        rw [entry_write hi hj hword, if_neg fun same => hne same.1, zero j hj]
        exact Pte.not_isValid_zero
  | table q' hlt hlev e =>
    rw [e, if_pos (isValid_table hlt), Pte.ppn_new hlt (by decide)]
    refine ⟨_, s, t, [], lev, rfl, .refl h, fun q'' hq'' => ?_⟩
    cases hq''
    exact ⟨hlev, (Sv39.walkFrom_table hlt e).symm⟩
  | leaf p f hp hf aligned e =>
    have hlevel : 2 - l = is.length := by omega
    exact absurd (Sv39.walkFrom_leaf hp hf (hlevel ▸ aligned) e) (clear _)

/-- Walking to the slot of a call under which no larger page lies. -/
theorem Inv.walkFrom {stop : Nat} {is : List Nat} (h : Inv A s frames rest lev)
    (hq : lev q = some l) (hlen : l + is.length = 3) (hl : l ≤ stop) (hstop : stop ≤ 2)
    (small : ∀ j ∈ is, j < 512)
    (clear : ∀ k e, Sv39.walkFrom s.mem is q = .leaf k e → k + stop ≤ 2) :
    ∃ r s' t' new lev', PageTable.walkFrom A stop is l q s t = (r, s', t') ∧
      Grown A frames rest lev t s' t' new lev' ∧
      ∀ a, r = some a → ∃ q' j, j < 512 ∧ a = slot q' j ∧ lev' q' = some stop := by
  induction is generalizing s t frames lev q l with
  | nil =>
    rw [List.length_nil] at hlen
    omega
  | cons i is ih =>
    rw [List.length_cons] at hlen
    have hi := small i List.mem_cons_self
    have small' : ∀ j ∈ is, j < 512 := fun j hj => small j (List.mem_cons_of_mem _ hj)
    rw [PageTable.walkFrom]
    by_cases hlast : l = stop
    · subst hlast
      refine ⟨_, s, t, [], lev, if_pos rfl, .refl h, fun a ha => ?_⟩
      exact ⟨q, i, hi, (Option.some.inj ha).symm, hq⟩
    rw [if_neg hlast]
    obtain ⟨r, s₁, t₁, new, lev₁, heq, grown, next⟩ := h.descend (t := t) hq (by omega) hi small'
      (fun e he => by have := clear _ e he; omega) (by omega)
    rw [heq]
    rcases r with _ | q'
    · exact ⟨none, s₁, t₁, new, lev₁, rfl, grown, fun _ hnone => by cases hnone⟩
    obtain ⟨hq', same⟩ := next q' rfl
    obtain ⟨r, s', t', new', lev', heq', grown', out⟩ := ih (t := t₁) grown.inv hq' (by omega)
      (by omega) small' fun k e he => clear k e (same ▸ he)
    exact ⟨r, s', t', new ++ new', lev', heq', grown.trans grown', out⟩

theorem indices_small (vpn : Nat) : ∀ j ∈ indices vpn, j < 512 := by
  intro j hj
  rw [indices_eq] at hj
  simp only [List.mem_cons, List.not_mem_nil, or_false] at hj
  omega

theorem Inv.mapAt (h : Inv A s frames rest lev) {vpn ppn flags level : Nat}
    {res : Except MapError Unit} (root : lev t.root = some 0) (hp : ppn < 2 ^ 44)
    (hf : LegalFlags flags) (hlevel : level ≤ 2) (aligned : ppn % ptePerTable ^ (2 - level) = 0)
    (clear : ∀ k e, Sv39.walkFrom s.mem (indices vpn) t.root = .leaf k e → k + level ≤ 2)
    (heq : mapAt A s t vpn ppn flags level = (res, s', t')) :
    ∃ new lev', Grown A frames rest lev t s' t' new lev' := by
  obtain ⟨r, s₁, t₁, new, lev', hwalk, grown, out⟩ :=
    h.walkFrom (t := t) root rfl (Nat.zero_le _) hlevel (indices_small vpn) clear
  rw [PageTable.mapAt, walkCreateTo, hwalk] at heq
  rcases r with _ | a
  · cases heq
    exact ⟨new, lev', grown⟩
  obtain ⟨q', j, hj, rfl, hq'⟩ := out a rfl
  dsimp only at heq
  split at heq <;> cases heq
  · exact ⟨new, lev', grown⟩
  · refine ⟨new, lev', grown.inv.write hq' hj (Pte.new_lt_word _ (PteFlags.present_lt_word ?_)) ?_,
      grown.table, grown.keep⟩
    · exact Nat.lt_trans hf.lt (by decide)
    · exact .leaf ppn flags hp hf aligned rfl

theorem Inv.walkPtrFrom (h : Inv A s frames rest lev) {is : List Nat}
    {a : Nat} (hq : lev q = some l)
    (small : ∀ j ∈ is, j < 512) (heq : walkPtrFrom s.mem is l q = some a) :
    ∃ q' j, j < 512 ∧ a = slot q' j ∧ lev q' = some 2 := by
  induction is generalizing q l with
  | nil => cases heq
  | cons i is ih =>
    have hi := small i List.mem_cons_self
    rw [PageTable.walkPtrFrom] at heq
    split at heq
    · next hlast =>
      subst hlast
      exact ⟨q, i, hi, (Option.some.inj heq).symm, hq⟩
    dsimp only at heq
    split at heq
    · cases heq
    split at heq
    · cases heq
    next hvalid hleaf =>
    cases h.typed q l hq i hi with
    | invalid e => exact absurd e hvalid
    | table q' hlt hlev e =>
      rw [e, Pte.ppn_new hlt (by decide)] at heq
      exact ih hlev (fun j hj => small j (List.mem_cons_of_mem _ hj)) heq
    | leaf p f hp hf aligned e =>
      rw [e, isLeaf_present p (PteFlags.contains_rwx hf.leaf)] at hleaf
      exact absurd rfl hleaf

theorem Inv.unmap (h : Inv A s frames rest lev) (root : lev t.root = some 0) (vpn : Nat) :
    Inv A (PageTable.unmap s t vpn).2 frames rest lev := by
  unfold PageTable.unmap
  rcases hwalk : walkPtr s.mem t vpn with _ | a
  · exact h
  obtain ⟨q', j, hj, rfl, hq'⟩ := h.walkPtrFrom root (indices_small vpn) hwalk
  dsimp only
  split
  · exact h.write hq' hj (by decide) (.invalid Pte.not_isValid_zero)
  · exact h

theorem Inv.share (h : Inv A s frames rest lev) {kernel : PageTable} (root : lev t.root = some 0)
    (root' : lev kernel.root = some 0) :
    Inv A { s with mem := shareUpperHalf s.mem t kernel } frames rest lev := by
  refine ⟨A.write h.holds fun a ha => AddressSpace.shareUpperHalf_apart _ _ _ fun e => ?_, h.bound,
    h.held, fun q l hq i hi => ?_⟩
  · have := frame_held (Multiset.mem_add.mpr (.inl (h.held _ _ root)) : _ ∈ frames + rest) e
    omega
  · by_cases hroot : q = t.root
    · subst hroot
      obtain rfl := Option.some.inj (root.symm.trans hq)
      rcases Nat.lt_or_ge i 256 with hlow | hhigh
      · rw [AddressSpace.shareUpperHalf_lower _ _ _ hlow]
        exact h.typed _ _ hq i hi
      · rw [AddressSpace.entry_shareUpperHalf _ _ _ hhigh hi]
        exact h.typed _ _ root' i hi
    · have same : entry (shareUpperHalf s.mem t kernel) q i = entry s.mem q i :=
        entry_congr hi fun a ha => AddressSpace.shareUpperHalf_apart _ _ _ (by rw [ha]; exact hroot)
      rw [same]
      exact h.typed q l hq i hi

/-! ## Runs -/

structure World (σ : Type) where
  phys : Phys σ
  tables : Multiset PageTable
  rest : Multiset Frame

inductive Op where
  | map (t : PageTable) (vpn level : Nat)
  | other

def framesOf (ts : Multiset PageTable) : Multiset Frame :=
  (ts.map fun t => (t.frames : Multiset Frame)).sum

section
variable (A : FrameAllocator σ)

/-- `map` is `map_at_level` at the last level. -/
inductive Step : World σ → Op → World σ → Prop where
  | new {w : World σ} {t : PageTable} {s : Phys σ} : PageTable.new A w.phys = (some t, s) →
      Step w .other { w with phys := s, tables := t ::ₘ w.tables }
  | map {w : World σ} {t t' : PageTable} {ts : Multiset PageTable} {s : Phys σ}
      {vpn ppn flags level : Nat} {res : Except MapError Unit} : w.tables = t ::ₘ ts →
      ppn < 2 ^ 44 → LegalFlags flags →
      mapAtLevel A w.phys t vpn ppn flags level = some (res, s, t') →
      Step w (.map t vpn level) { w with phys := s, tables := t' ::ₘ ts }
  | unmap {w : World σ} {t : PageTable} (vpn : Nat) : t ∈ w.tables →
      Step w .other { w with phys := (PageTable.unmap w.phys t vpn).2 }
  | share {w : World σ} {t kernel : PageTable} : t ∈ w.tables → kernel ∈ w.tables →
      Step w .other
        { w with phys := { w.phys with mem := shareUpperHalf w.phys.mem t kernel } }
  /-- Everyone else leaves the tables alone. -/
  | rest {w : World σ} {s : Phys σ} {rest : Multiset Frame} :
      A.Holds s (framesOf w.tables + rest) → Kept (framesOf w.tables) w.phys.mem s.mem →
      Step w .other { w with phys := s, rest := rest }

def system : System (World σ) Op where
  init w := A.Holds w.phys w.rest ∧ w.tables = 0
  step := Step A

end

/-- The call's page is in no page of a larger size. A call that overlaps nothing
meets this. -/
def Clear (w : World σ) : Op → Prop
  | .map t vpn level => ∀ k e,
      Sv39.walkFrom w.phys.mem (indices vpn) t.root = .leaf k e → k + level ≤ 2
  | .other => True

def Leveled (A : FrameAllocator σ) (w : World σ) : Prop :=
  ∃ lev, Inv A w.phys (framesOf w.tables) w.rest lev ∧ ∀ t ∈ w.tables, lev t.root = some 0

theorem Step.leveled {w w' : World σ} {op : Op} (hs : Step A w op w') (clear : Clear w op)
    (h : Leveled A w) : Leveled A w' := by
  obtain ⟨lev, inv, roots⟩ := h
  cases hs with
  | @new t s heq =>
    rw [PageTable.new] at heq
    rcases halloc : A.allocOrder w.phys 0 with ⟨_ | f, s₁⟩ <;> rw [halloc] at heq <;> cases heq
    obtain ⟨inv', -, -, -, keep⟩ := inv.alloc (k := 0) (by omega) halloc
    refine ⟨Function.update lev f.ppn (some 0), ?_, fun t ht => ?_⟩
    · rw [framesOf, Multiset.map_cons, Multiset.sum_cons, Multiset.coe_singleton,
        Multiset.singleton_add]
      exact inv'
    · rcases Multiset.mem_cons.mp ht with rfl | ht
      · exact Function.update_self _ _ _
      · exact keep _ _ (roots t ht)
  | @map t t' ts s vpn ppn flags level res hw hp hf heq =>
    rw [hw] at roots inv
    rw [mapAtLevel] at heq
    split at heq
    swap
    · cases heq
    next hguard =>
    obtain ⟨hlevel, -, aligned⟩ := hguard
    rw [sv39Levels] at hlevel
    have hpages : ptePerTable ^ (2 - level) = levelPages level := by
      rw [levelPages, Nat.pow_mul]
      rfl
    obtain ⟨new, lev', grown⟩ := inv.mapAt (roots t (Multiset.mem_cons_self _ _)) hp hf (by omega)
      (hpages ▸ aligned) clear (Option.some.inj heq)
    refine ⟨lev', ?_, fun u hu => ?_⟩
    · have hframes : framesOf (t' ::ₘ ts) = new + framesOf (t ::ₘ ts) := by
        simp only [framesOf, Multiset.map_cons, Multiset.sum_cons, grown.table, ← Multiset.coe_add]
        rw [add_comm (t.frames : Multiset Frame), add_assoc]
      rw [hframes]
      exact grown.inv
    · rcases Multiset.mem_cons.mp hu with rfl | hu
      · rw [grown.table]
        exact grown.keep _ _ (roots t (Multiset.mem_cons_self _ _))
      · exact grown.keep _ _ (roots u (Multiset.mem_cons_of_mem hu))
  | unmap vpn ht => exact ⟨lev, inv.unmap (roots _ ht) vpn, roots⟩
  | share ht hk => exact ⟨lev, inv.share (roots _ ht) (roots _ hk), roots⟩
  | rest holds kept => exact ⟨lev, inv.kept holds kept, roots⟩

theorem Reach.leveled {w : World σ} (h : Reach ((system A).guard Clear) w) : Leveled A w := by
  refine Reach.invariant (S := (system A).guard Clear) _ ?_
    (fun _ _ _ inv hs => hs.1.leveled hs.2 inv) h
  rintro w ⟨holds, htables⟩
  refine ⟨fun _ => none, ⟨?_, nofun, nofun, nofun⟩, ?_⟩
  · rw [htables, framesOf, Multiset.map_zero, Multiset.sum_zero, zero_add]
    exact holds
  · rw [htables]
    exact nofun

/-- The kernel's walk ends where the hardware's ends, and gives nothing where that
faults or finds a superpage. -/
theorem reach_walks_agree {w : World σ} (h : Reach ((system A).guard Clear) w) {t : PageTable}
    (ht : t ∈ w.tables) {va : Nat} (hva : Sv39.Canonical va) :
    (∀ e, Sv39.walk w.phys.mem t.root va = .leaf 0 e →
      translate w.phys.mem t (pageNum va) = some e ∧
      translateAddr w.phys.mem t va = some (baseAddr (Pte.ppn e) + pageOffset va)) ∧
    ((Sv39.walk w.phys.mem t.root va = .fault ∨
        ∃ k e, Sv39.walk w.phys.mem t.root va = .leaf (k + 1) e) →
      translate w.phys.mem t (pageNum va) = none ∧ translateAddr w.phys.mem t va = none) := by
  obtain ⟨lev, inv, roots⟩ := Reach.leveled h
  have walks := inv.typed.walks inv.bound (roots t ht) rfl (indices_small (pageNum va))
  rw [← Sv39.walk_eq _ _ hva] at walks
  rw [PageTable.translateAddr, PageTable.translate, PageTable.walkPtr]
  refine ⟨fun e he => ?_, fun hno => ?_⟩
  · rw [he] at walks
    rw [walks]
    exact ⟨rfl, rfl⟩
  · have hnone : ((walkPtrFrom w.phys.mem (indices (pageNum va)) 0 t.root).map
        (read64 w.phys.mem)).filter Pte.isValid = none := by
      rcases hno with hno | ⟨k, e, hno⟩ <;> rw [hno] at walks <;> exact walks
    rw [hnone]
    exact ⟨rfl, rfl⟩

/-- A page mapped in a new table after boot. -/
theorem walks_agree_after_map : ∃ (w : World Buddy.BuddyAllocator) (t : PageTable) (e : Nat),
    Reach ((system Buddy.allocator.toFrameAllocator).guard Clear) w ∧ t ∈ w.tables ∧
      Sv39.walk w.phys.mem t.root 0x1234 = .leaf 0 e ∧
      translate w.phys.mem t 1 = some e ∧
      translateAddr w.phys.mem t 0x1234 = some (baseAddr (Pte.ppn e) + 0x234) := by
  obtain ⟨s, -, holds, havail⟩ := Buddy.boot
  obtain ⟨f, s₁, halloc, cost⟩ := CountedAllocator.alloc_one holds (by omega)
  have hnew : PageTable.new Buddy.allocator.toFrameAllocator s = (some ⟨f.ppn, [f]⟩, s₁) := by
    simp [PageTable.new, halloc]
  obtain ⟨ok, -, zero⟩ := PageTable.new_spec holds (Nat.le_refl 512) hnew
  have hv : 1 < pages 512 := by decide
  have empty := zero 1 hv
  have unmapped : Pte.isValid (leaf s₁.mem f.ppn 1) = false := by
    rw [empty]
    exact Pte.not_isValid_zero
  have hflags : PteFlags.rw ||| PteFlags.user < 2 ^ 10 := by decide
  rcases map_counted (A := Buddy.allocator) ok hv (show 0x80000 < 2 ^ 44 by decide) hflags unmapped
    with ⟨low, -⟩ | ⟨s₂, t₂, hmap, -⟩
  · rw [card_missing, tableCost, tableCost] at low
    split at low <;> split at low <;> omega
  have start : Reach ((system Buddy.allocator.toFrameAllocator).guard Clear) ⟨s, 0, 0⟩ :=
    .init ⟨holds, rfl⟩
  have made : Step Buddy.allocator.toFrameAllocator ⟨s, 0, 0⟩ .other ⟨s₁, {⟨f.ppn, [f]⟩}, 0⟩ :=
    .new hnew
  have mapped : Step Buddy.allocator.toFrameAllocator ⟨s₁, {⟨f.ppn, [f]⟩}, 0⟩
      (.map ⟨f.ppn, [f]⟩ 1 2) ⟨s₂, {t₂}, 0⟩ :=
    .map rfl (by decide) ⟨hflags, .inl (by decide), fun _ => by decide⟩
      ((mapAtLevel_leaf ..).trans (congrArg some hmap))
  have clear : Clear (⟨s₁, {⟨f.ppn, [f]⟩}, 0⟩ : World Buddy.BuddyAllocator)
      (.map ⟨f.ppn, [f]⟩ 1 2) := by
    intro k e he
    obtain ⟨g, -, same, -, -, -, hzero⟩ := new_cases holds hnew
    obtain rfl : f = g := List.singleton_inj.mp (PageTable.mk.inj same).2
    have hroot : Pte.isValid (entry s₁.mem f.ppn 0) = false := by
      rw [hzero 0 (by decide)]
      exact Pte.not_isValid_zero
    cases (Sv39.walkFrom_invalid hroot).symm.trans he
  have reach := Reach.step _ (Reach.step _ start ⟨made, trivial⟩) ⟨mapped, clear⟩
  obtain ⟨found, lost⟩ := reach_walks_agree reach (Multiset.mem_singleton_self t₂)
    (show Sv39.Canonical 0x1234 from .inl (by decide))
  obtain ⟨_, _, _, hmap', ok', root, -, out⟩ :=
    map_spec ok hv (show 0x80000 < 2 ^ 44 by decide) hflags
  cases hmap'.symm.trans hmap
  obtain ⟨hbad, -⟩ | ⟨hbad, -⟩ | ⟨-, -, leaves⟩ := out
  · cases hbad
  · cases hbad
  have hleaf := leaves 1 hv
  rw [if_pos rfl, ← root] at hleaf
  have hsome : translate s₂.mem t₂ 1 = some (leaf s₂.mem t₂.root 1) := by
    rw [translate_eq ok'.tree hv, hleaf, if_pos (Pte.isValid_present _ _)]
  rcases hwalk : Sv39.walk s₂.mem t₂.root 0x1234 with _ | ⟨_ | k, e⟩
  · have := (lost (.inl hwalk)).1
    cases hsome.symm.trans this
  · obtain ⟨htranslate, haddr⟩ := found e hwalk
    exact ⟨_, t₂, e, reach, Multiset.mem_singleton_self _, hwalk, htranslate, haddr⟩
  · have := (lost (.inr ⟨k, e, hwalk⟩)).1
    cases hsome.symm.trans this

end WalkRun

end AlexOS
