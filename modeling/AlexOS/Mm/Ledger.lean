import AlexOS.Mm.SpaceFrames
import AlexOS.Mm.Tenure
import AlexOS.Mm.Coalesce

/-!
# Spaces that come and go

Runs of `new`, `push`, `push_with_offset`, `duplicate` and `drop` on any number
of address spaces, each with or without the kernel's half, while the rest of the
kernel uses the frames it holds itself. The frames handed out are those of the
living spaces and those of the rest, as long as no region is pushed into the
kernel's half of a space that shares it or below a superpage.
-/

namespace AlexOS.SpaceRun

open Bytes PageTable AddressSpace

/-- A living space; `shared` if it was given the kernel's half. -/
structure Tenant where
  space : AddressSpace
  shared : Bool

/-- The root entries that are the space's own. -/
def Tenant.bound (t : Tenant) : Nat := if t.shared then 256 else 512

structure World (σ : Type) where
  phys : Phys σ
  rest : Multiset Frame
  tenants : Multiset Tenant

inductive Op where
  | push (t : Tenant) (r : Region)
  | duplicate (t : Tenant)
  | other

variable {σ : Type}

section
variable (A : CountedAllocator σ) (kernel : PageTable)

def tenure : Tenure A Tenant where
  frames t := t.space.frames
  base := 0
  Ok s t rest := ∃ big, Sound A t.bound big s t.space rest
  holds := fun ⟨_, sound⟩ => sound.holds
  stable := fun ⟨big, sound⟩ holds kept => ⟨big, sound.kept holds
    (kept.mono ((Multiset.le_add_right _ _).trans (Multiset.le_add_right _ _)))⟩

inductive Step : World σ → Op → World σ → Prop where
  | new {w : World σ} {sp : AddressSpace} {s : Phys σ} (shared : Bool) :
      AddressSpace.new A.toFrameAllocator w.phys = (some sp, s) →
      Step w .other { w with
        phys := if shared then sp.mapKernelHalf s kernel else s
        tenants := ⟨sp, shared⟩ ::ₘ w.tenants }
  | noNew {w : World σ} {s : Phys σ} : AddressSpace.new A.toFrameAllocator w.phys = (none, s) →
      Step w .other { w with phys := s }
  | push {w : World σ} {t : Tenant} {ts : Multiset Tenant} {start end_ perm : Nat}
      {backing : Backing} {r : Region} {res : Except MapError Unit} {s : Phys σ}
      {sp : AddressSpace} : w.tenants = t ::ₘ ts → perm < 2 ^ 64 →
      Region.new start end_ backing perm = some r →
      t.space.push A.toFrameAllocator w.phys r = some (res, s, sp) →
      Step w (.push t r) { w with phys := s, tenants := ⟨sp, t.shared⟩ ::ₘ ts }
  | pushWithOffset {w : World σ} {t : Tenant} {ts : Multiset Tenant} {start end_ perm offset : Nat}
      {backing : Backing} {data : List UInt8} {r : Region} {res : Except MapError Unit}
      {s : Phys σ} {sp : AddressSpace} : w.tenants = t ::ₘ ts → perm < 2 ^ 64 →
      Region.new start end_ backing perm = some r →
      t.space.pushWithOffset A.toFrameAllocator w.phys r offset data = some (res, s, sp) →
      Step w (.push t r) { w with phys := s, tenants := ⟨sp, t.shared⟩ ::ₘ ts }
  | duplicate {w : World σ} {t : Tenant} {ts : Multiset Tenant} {child : AddressSpace}
      {s : Phys σ} : w.tenants = t ::ₘ ts →
      t.space.duplicate A.toFrameAllocator w.phys kernel = some (some child, s) →
      Step w (.duplicate t) { w with phys := s, tenants := ⟨child, true⟩ ::ₘ t ::ₘ ts }
  | noDuplicate {w : World σ} {t : Tenant} {ts : Multiset Tenant} {s : Phys σ} :
      w.tenants = t ::ₘ ts →
      t.space.duplicate A.toFrameAllocator w.phys kernel = some (none, s) →
      Step w (.duplicate t) { w with phys := s }
  | drop {w : World σ} {t : Tenant} {ts : Multiset Tenant} {s : Phys σ} :
      w.tenants = t ::ₘ ts → t.space.drop A.toFrameAllocator w.phys = some s →
      Step w .other { w with phys := s, tenants := ts }
  /-- The rest of the kernel allocates, frees and writes what it holds itself. -/
  | rest {w : World σ} {rest : Multiset Frame} {s : Phys σ} :
      A.Holds s ((tenure A).total w.tenants + rest) →
      Kept ((tenure A).total w.tenants) w.phys.mem s.mem →
      kernel.frames ≤ rest → Step w .other { w with phys := s, rest := rest }

def system : System (World σ) Op where
  init w := A.Holds w.phys w.rest ∧ kernel.frames ≤ w.rest ∧ w.tenants = 0
  step := Step A kernel

/-- The spaces dropped one after another. -/
def dropAll (s : Phys σ) : List Tenant → Option (Phys σ)
  | [] => some s
  | t :: ts => do
    let s ← t.space.drop A.toFrameAllocator s
    dropAll s ts

end

/-- A 2 MiB leaf lies over the page. -/
def UnderSuperpage (m : Mem) (root v : Nat) : Prop :=
  ∃ q, node m root [rootIndex v] = some q ∧ Pte.isLeaf (entry m q (v / 2 ^ 9 % 512)) = true

/-- A pushed region stays under root entries that are the space's own and clear of
superpages, and a linear one can be read, written or executed; what is duplicated
lies in the lower half. -/
def Careful (w : World σ) : Op → Prop
  | .push t r =>
    (∀ v, pageNum r.start ≤ v → v < pageNum r.end_ → rootIndex v < t.bound ∧
      (r.Small v → ¬ UnderSuperpage w.phys.mem t.space.table.root v)) ∧
    (r.backing = .linear → PteFlags.intersects r.perm PteFlags.rwx = true)
  | .duplicate t => ∀ r ∈ t.space.regions, r.backing = .framed →
    ∀ v, pageNum r.start ≤ v → v < pageNum r.end_ → rootIndex v < 256
  | .other => True

variable {A : CountedAllocator σ} {kernel : PageTable} {w w' : World σ} {op : Op}

structure Inv (A : CountedAllocator σ) (kernel : PageTable) (w : World σ) : Prop where
  all : (tenure A).All w.phys w.tenants w.rest
  kernel : kernel.frames ≤ w.rest

theorem Inv.start (h : (system A kernel).init w) : Inv A kernel w := by
  obtain ⟨holds, hkernel, htenants⟩ := h
  refine ⟨?_, hkernel⟩
  rw [htenants]
  exact .start holds (Multiset.zero_le _)

theorem Inv.new (i : Inv A kernel w) {sp : AddressSpace} {s : Phys σ} (shared : Bool)
    (h : AddressSpace.new A.toFrameAllocator w.phys = (some sp, s)) :
    Inv A kernel { w with
      phys := if shared then sp.mapKernelHalf s kernel else s
      tenants := ⟨sp, shared⟩ ::ₘ w.tenants } := by
  cases shared with
  | false =>
    obtain ⟨sound, -, kept⟩ := new_sound i.all.holds h
    exact ⟨i.all.add ⟨[], sound⟩ kept, i.kernel⟩
  | true =>
    obtain ⟨sound, -, kept⟩ := new_sound_kernel kernel i.all.holds h
    exact ⟨i.all.add ⟨[], sound⟩ kept, i.kernel⟩

theorem Careful.clear {t : Tenant} {r : Region} {big : List (List Nat)} {rest : Multiset Frame}
    (h : Careful w (.push t r)) (sound : Sound A t.bound big w.phys t.space rest) :
    r.Clear t.bound big := by
  refine ⟨fun v lo hi => (h.1 v lo hi).1, fun v lo hi small hmem => ?_, h.2⟩
  obtain ⟨i, j, q, hp, -, hq, hleaf⟩ := sound.table.superpage _ hmem
  simp only [leafPath, List.cons.injEq, and_true] at hp
  obtain ⟨rfl, rfl⟩ := hp
  exact (h.1 v lo hi).2 small ⟨q, hq, hleaf⟩

theorem Inv.step (i : Inv A kernel w) (h : Step A kernel w op w') (ok : Careful w op) :
    Inv A kernel w' := by
  cases h with
  | new shared h => exact i.new shared h
  | noNew h =>
    obtain rfl := new_none i.all.holds h
    exact i
  | push hw hperm hr h =>
    have all := hw ▸ i.all
    obtain ⟨big, sound⟩ := all.each _ _ rfl
    obtain ⟨words, empty, -⟩ := Region.new_words hperm hr
    obtain ⟨big', sound', changed, -⟩ := push_sound sound (ok.clear sound) words empty h
    exact ⟨all.change ⟨big', sound'⟩ changed.kept, i.kernel⟩
  | pushWithOffset hw hperm hr h =>
    have all := hw ▸ i.all
    obtain ⟨big, sound⟩ := all.each _ _ rfl
    obtain ⟨words, empty, -⟩ := Region.new_words hperm hr
    obtain ⟨big', sound', changed, -⟩ := pushWithOffset_sound sound (ok.clear sound) words empty h
    exact ⟨all.change ⟨big', sound'⟩ changed.kept, i.kernel⟩
  | duplicate hw h =>
    obtain ⟨big, sound⟩ := i.all.each _ _ hw
    obtain ⟨hdup, kept⟩ := duplicate_sound i.all.holds sound.words ok h
    rw [← hw]
    exact ⟨i.all.add ⟨[], hdup⟩ kept, i.kernel⟩
  | noDuplicate hw h =>
    obtain ⟨big, sound⟩ := i.all.each _ _ hw
    obtain ⟨holds, kept⟩ := duplicate_sound i.all.holds sound.words ok h
    exact ⟨i.all.same holds kept, i.kernel⟩
  | drop hw h =>
    have all := hw ▸ i.all
    obtain ⟨big, sound⟩ := all.each _ _ rfl
    obtain ⟨s', heq, holds, kept⟩ := sound.drop
    obtain rfl := Option.some.inj (heq.symm.trans h)
    exact ⟨all.drop holds kept, i.kernel⟩
  | rest holds kept hkernel =>
    refine ⟨i.all.elsewhere holds (Multiset.zero_le _) (kept.mono ?_), hkernel⟩
    exact le_of_eq (add_zero _)

theorem Reach.inv (h : Reach ((system A kernel).guard Careful) w) : Inv A kernel w := by
  refine Reach.invariant (S := (system A kernel).guard Careful) _ (fun _ => Inv.start) ?_ h
  rintro w op w' i ⟨hs, ok⟩
  exact i.step hs ok

/-- The spaces go one after another, each next to those that are left. -/
theorem dropAll_returned {s : Phys σ} {rest : Multiset Frame} {l : List Tenant}
    (h : (tenure A).All s (l : Multiset Tenant) rest) :
    ∃ s', dropAll A s l = some s' ∧ A.Holds s' rest ∧ Kept rest s.mem s'.mem := by
  induction l generalizing s with
  | nil => exact ⟨s, rfl, by simpa using h.holds, .refl _ _⟩
  | cons t l ih =>
    rw [← Multiset.cons_coe] at h
    obtain ⟨big, sound⟩ := h.each t l rfl
    obtain ⟨s₁, heq, holds, kept⟩ := sound.drop
    obtain ⟨s₂, heq₂, holds₂, kept₂⟩ := ih (h.drop holds kept)
    refine ⟨s₂, ?_, holds₂, (kept.mono (Multiset.le_add_left _ _)).trans kept₂⟩
    rw [dropAll, heq]
    exact heq₂

/-- What is handed out is what the living spaces and the rest of the kernel hold.
Dropping the spaces, in any order, succeeds and leaves what the rest holds, the
kernel's tables among it, unchanged. -/
theorem reach_returned (h : Reach ((system A kernel).guard Careful) w) :
    A.Holds w.phys ((tenure A).total w.tenants + w.rest) ∧ kernel.frames ≤ w.rest ∧
      ∀ l : List Tenant, (l : Multiset Tenant) = w.tenants →
        ∃ s, dropAll A w.phys l = some s ∧ A.Holds s w.rest ∧ Kept w.rest w.phys.mem s.mem := by
  have i := Reach.inv h
  exact ⟨i.all.holds, i.kernel, fun l hl => dropAll_returned (hl ▸ i.all)⟩

/-! ## A page below a superpage over the bitmap -/

/-- Four frames to hand out, and the bitmap 4 MiB below them. -/
structure Tiny (p : Buddy.BuddyAllocator) : Prop where
  base : p.base = 0x80800
  frames : p.frames = 4
  bitmap : p.bitmap = 0x80400000

theorem Tiny.alloc {s s' : Buddy.State} {live : Multiset Frame} {f : Frame} (t : Tiny s.pool)
    (holds : Buddy.merging.Holds s live) (heq : Buddy.merging.allocOrder s 0 = (some f, s')) :
    Tiny s'.pool := by
  obtain ⟨-, L, inv, -⟩ := holds
  obtain ⟨-, -, hbase, hframes, -⟩ := inv.allocOrder heq
  exact ⟨hbase.trans t.base, hframes.trans t.frames, (Buddy.allocOrder_bitmap heq).trans t.bitmap⟩

theorem tiny_boot : ∃ s, Buddy.State.init (fun _ => 0) 0x80400000 0x80804000 = some s ∧
    Buddy.merging.Holds s 0 ∧ Buddy.merging.avail s = 4 ∧ Tiny s.pool := by
  have hup : alignUp (0x80400000 : Usize).val = some 0x80400000 := by decide
  obtain ⟨s, hs⟩ := Buddy.init_isSome (fun _ => 0) hup
    (show pageNum 0x80400000 < pageNum (alignDown (0x80804000 : Usize).val) by decide) (by decide)
  obtain ⟨-, -, hcount, hbase, htop, -⟩ := Buddy.init_spec hup hs
  have hbase : s.pool.base = 0x80800 := hbase.trans (by decide)
  have htop : s.pool.base + s.pool.frames = 0x80804 := htop.trans (by decide)
  have hframes : s.pool.frames = 4 := by omega
  refine ⟨s, hs, Buddy.merging_start hs (by decide), ?_, hbase, hframes, Buddy.init_bitmap hup hs⟩
  simp [Buddy.merging, hframes, hcount]

/-- The 2 MiB from `0x80400000` on, in the linear window. -/
def window : Region :=
  ⟨virtOffset + 0x80400000, virtOffset + 0x80600000, .linear, PteFlags.rw, []⟩

def firstPage : Region :=
  ⟨virtOffset + 0x80400000, virtOffset + 0x80401000, .framed, PteFlags.rwx ||| PteFlags.user, []⟩

/-- The first page number of both. -/
def windowPage : Nat := 0xffffffc080400

def onPage (r : Region) (f : Frame) : Region :=
  ⟨r.start, r.end_, r.backing, r.perm, [(windowPage, f)]⟩

theorem window_small {v : Nat} (hv : window.Small v) (lo : pageNum window.start ≤ v)
    (hi : v < pageNum window.end_) : False := by
  have hs : pageNum window.start = 0xffffffc080400 := by decide
  have he : pageNum window.end_ = 0xffffffc080600 := by decide
  rw [Region.Small, hs, he] at hv
  rw [hs] at lo
  rw [he] at hi
  rcases hv with hv | hv
  · cases hv
  · omega

theorem window_pushed : ∃ (s : Buddy.State) (kernel : PageTable) (sp : AddressSpace) (q : Nat),
    Reach ((system Buddy.merging kernel).guard Careful) ⟨s, kernel.frames, {⟨sp, false⟩}⟩ ∧
    sp.regions = [window] ∧ Tiny s.pool ∧ Buddy.merging.avail s = 1 ∧
    node s.mem sp.table.root [258] = some q ∧
    entry s.mem q 2 = Pte.new 0x80400 (PteFlags.present PteFlags.rw) := by
  obtain ⟨s₀, -, holds₀, havail₀, tiny₀⟩ := tiny_boot
  obtain ⟨g, s₁, hg, havail₁⟩ := CountedAllocator.alloc_one holds₀ (by omega)
  have tiny₁ := tiny₀.alloc holds₀ hg
  obtain ⟨-, holds₁, -⟩ := Buddy.merging.alloc_some holds₀ hg
  obtain ⟨f, s₂, hf, havail₂⟩ := CountedAllocator.alloc_one holds₁ (by omega)
  have tiny₂ := tiny₁.alloc holds₁ hf
  have hnew : AddressSpace.new Buddy.merging.toFrameAllocator s₁ =
      (some ⟨⟨f.ppn, [f]⟩, []⟩, s₂) := by
    simp [AddressSpace.new, PageTable.new, hf]
  have hroot : PageTable.new Buddy.merging.toFrameAllocator s₁ = (some ⟨f.ppn, [f]⟩, s₂) := by
    simp [PageTable.new, hf]
  have start : Reach ((system Buddy.merging ⟨g.ppn, [g]⟩).guard Careful) ⟨s₁, {g}, 0⟩ :=
    .init ⟨holds₁, by simp, rfl⟩
  have made : Step Buddy.merging ⟨g.ppn, [g]⟩ ⟨s₁, {g}, 0⟩ .other
      ⟨s₂, {g}, {⟨⟨⟨f.ppn, [f]⟩, []⟩, false⟩}⟩ := .new false hnew
  obtain ⟨sound, -⟩ := new_sound holds₁ hnew
  obtain ⟨f', -, e, -, -, -, hempty⟩ := new_cases holds₁ hroot
  obtain ⟨hf', -⟩ := PageTable.mk.inj e
  have hempty : entry s₂.mem f.ppn 258 = 0 := by
    rw [hf']
    exact hempty 258 (by decide)
  obtain ⟨q, s₃, t', hpush, hroot', hnode, hentry, havail₃, f₃, s', hf₃, hpool⟩ :=
    superpage_pushed sound (r := window) (v := windowPage) rfl (by decide) (by decide) (by decide)
      (by decide) (by decide) (by decide) (by decide) hempty (by omega)
  have pushed : Step Buddy.merging ⟨g.ppn, [g]⟩ ⟨s₂, {g}, {⟨⟨⟨f.ppn, [f]⟩, []⟩, false⟩}⟩
      (.push ⟨⟨⟨f.ppn, [f]⟩, []⟩, false⟩ window) ⟨s₃, {g}, {⟨⟨t', [window]⟩, false⟩}⟩ :=
    .push (Multiset.cons_zero _).symm (show PteFlags.rw < 2 ^ 64 by decide)
      (show Region.new (virtOffset + 0x80400000) (virtOffset + 0x80600000) .linear PteFlags.rw =
        some window from rfl) hpush
  have ok : Careful (⟨s₂, {g}, {⟨⟨⟨f.ppn, [f]⟩, []⟩, false⟩}⟩ : World Buddy.BuddyAllocator)
      (.push ⟨⟨⟨f.ppn, [f]⟩, []⟩, false⟩ window) :=
    ⟨fun v lo hi => ⟨Nat.mod_lt _ (by decide), fun small => (window_small small lo hi).elim⟩,
      fun _ => by decide⟩
  refine ⟨s₃, ⟨g.ppn, [g]⟩, ⟨t', [window]⟩, q, ?_, rfl, ?_, by omega, ?_, hentry⟩
  · have made' : Reach ((system Buddy.merging ⟨g.ppn, [g]⟩).guard Careful)
        ⟨s₂, {g}, {⟨⟨⟨f.ppn, [f]⟩, []⟩, false⟩}⟩ := .step .other start ⟨made, trivial⟩
    exact .step (.push _ window) made' ⟨pushed, ok⟩
  · rw [hpool]
    exact tiny₂.alloc sound.holds hf₃
  · rw [hroot']
    exact hnode

/-- Nothing is unmapped below a superpage. -/
theorem unmapPages_under {s : Phys σ} {t : PageTable} {vs : List Nat}
    (h : ∀ v ∈ vs, UnderSuperpage s.mem t.root v) : Region.unmapPages s t vs = s := by
  induction vs with
  | nil => rfl
  | cons v vs ih =>
    obtain ⟨q, hq, hleaf⟩ := h v List.mem_cons_self
    have hwalk : walkPtr s.mem t v = none := by
      rw [Option.eq_none_iff_forall_ne_some]
      intro x hx
      rw [walkPtr, indices_eq] at hx
      obtain ⟨q', -, hq', notLeaf, -⟩ := walkPtrFrom_some hx
      obtain rfl := Option.some.inj (hq.symm.trans hq')
      rw [notLeaf] at hleaf
      cases hleaf
    have : unmap s t v = (.error .notMapped, s) := by rw [unmap, hwalk]
    rw [Region.unmapPages, this]
    exact ih fun v' hv' => h v' (List.mem_cons_of_mem v hv')

theorem isValid_eq (e : Nat) : Pte.isValid e = e.testBit 0 := by
  have h : e &&& Pte.flagMask &&& PteFlags.valid = e % 2 := by
    rw [Nat.land_assoc]
    exact Nat.and_one_is_mod e
  rw [Pte.isValid, PteFlags.contains, Pte.flags, h, Nat.testBit_zero]
  rfl

theorem Tiny.isFree {s : Buddy.State} (t : Tiny s.pool) (g : Buddy.Geometry s.pool) {i : Nat}
    (hi : i < 64) : s.isFree 0 i = (entry s.mem 0x80400 0).testBit i := by
  have hbit : s.bitIndex 0 i = i := by
    simp [Buddy.State.bitIndex, g.bitBase, Buddy.State.bitsBelow]
  rw [Buddy.State.isFree, hbit, t.bitmap, bitAt, Nat.div_eq_of_lt hi, Nat.mod_eq_of_lt hi]
  rfl

/-- With every frame held, the bit of each is clear. -/
theorem Tiny.held {s : Buddy.State} {live : Multiset Frame} (t : Tiny s.pool)
    (holds : Buddy.merging.Holds s live) (none : Buddy.merging.avail s = 0) :
    Pte.isValid (entry s.mem 0x80400 0) = false ∧
      ∀ f ∈ live, ∃ i, f.ppn = 0x80800 + i ∧ i < 4 := by
  obtain ⟨-, L, inv, -⟩ := holds
  constructor
  · have hbal := inv.balance
    have hsum : ∑ i ∈ Finset.range s.pool.frames, Buddy.freeOver L i = 0 := by
      simp only [Buddy.merging] at none
      omega
    have hzero := Finset.sum_eq_zero_iff.mp hsum 0 (Finset.mem_range.mpr (by simp [t.frames]))
    have hbit := inv.rep.bits 0 0 ⟨by decide, by rw [t.frames]; decide⟩
    have hclear : s.isFree 0 0 = false := by
      rw [Bool.eq_false_iff]
      intro h
      have := Blocks.cover_le_coverage (f := 0) (Nat.succ_pos Buddy.maxOrder) (hbit.mp h)
      rw [← Buddy.freeOver, hzero] at this
      simp [Blocks.cover] at this
    rw [isValid_eq, ← t.isFree inv.rep.geometry (by decide), hclear]
  · intro f hf
    obtain ⟨i, hi, b⟩ := inv.held f hf
    have := b.lt
    rw [t.base] at hi
    rw [t.frames] at this
    exact ⟨i, hi, this⟩

/-- The page is mapped in the bitmap's first word. -/
theorem page_pushed : ∃ (s : Buddy.State) (kernel t : PageTable) (f : Frame) (i : Nat),
    Reach (system Buddy.merging kernel) ⟨s, kernel.frames,
      {⟨⟨t, [window, onPage firstPage f]⟩, false⟩}⟩ ∧
    f.order = 0 ∧ f.ppn = 0x80800 + i ∧ i < 4 ∧ Tiny s.pool ∧ Buddy.Geometry s.pool ∧
    entry s.mem 0x80400 0 = Pte.new f.ppn (PteFlags.present firstPage.perm) ∧
    ∀ v, windowPage ≤ v → v < windowPage + 512 → UnderSuperpage s.mem t.root v := by
  obtain ⟨s, kernel, sp, q, hreach, hregions, tiny, havail, hnode, hentry⟩ := window_pushed
  obtain ⟨big, sound⟩ := (Reach.inv hreach).all.each ⟨sp, false⟩ 0 rfl
  generalize hrest : Tenure.total _ 0 + _ = rest at sound
  have sound : Sound Buddy.merging 512 big s sp rest := sound
  obtain ⟨f, s₁, hf, havail₁⟩ := CountedAllocator.alloc_one sound.holds (by omega)
  obtain ⟨horder, holds₁, kept, -⟩ := Buddy.merging.alloc_some sound.holds hf
  have tiny₁ := tiny.alloc sound.holds hf
  obtain ⟨hclear, hheld⟩ := tiny₁.held holds₁ (by omega)
  obtain ⟨i, hi, hlt⟩ := hheld f (Multiset.mem_cons_self f _)
  have sound₁ : Sound Buddy.merging 512 big s₁ sp (f ::ₘ rest) :=
    sound.kept (by rwa [Multiset.add_cons])
      (kept.mono ((Multiset.le_add_right _ _).trans (Multiset.le_add_right _ _)))
  have hp : Within 512 big [258] := sound.table.short (show 258 < 512 by decide) (by decide)
  have tables := sound.table.owns.tables
  have tables₁ := sound₁.table.owns.tables
  have keptT : Kept sp.table.frames s.mem s₁.mem :=
    kept.mono ((Multiset.le_add_right _ _).trans (Multiset.le_add_right _ _))
  have hnode₁ : node s₁.mem sp.table.root [258] = some q := (tables.node_kept keptT hp).trans hnode
  have hentry₁ : entry s₁.mem q 2 = Pte.new 0x80400 (PteFlags.present PteFlags.rw) :=
    (tables.entry_kept keptT hp hnode (by decide)).trans hentry
  have hword := Pte.new_lt_word f.ppn
    (PteFlags.present_lt_word (show firstPage.perm < 2 ^ 64 by decide))
  have hq : (⟨q, 0⟩ : Frame) ∈ sp.table.frames := tables.held [258] q hp hnode
  have hroot : (⟨sp.table.root, 0⟩ : Frame) ∈ sp.table.frames :=
    tables.held [] _ sound.table.root_within rfl
  have apart : ∀ p, (⟨p, 0⟩ : Frame) ∈ sp.table.frames → p ≠ 0x80400 := fun p hp => by
    obtain ⟨j, hj, -⟩ := hheld ⟨p, 0⟩ (Multiset.mem_cons_of_mem (Multiset.mem_add.mpr
      (.inl (Multiset.mem_add.mpr (.inl hp)))))
    have hj : p = 0x80800 + j := hj
    omega
  have same : ∀ p j, (⟨p, 0⟩ : Frame) ∈ sp.table.frames → j < 512 →
      entry (leafAt s₁.mem 0x80400 0 f.ppn firstPage.perm) p j =
        entry s₁.mem p j := fun p j hp hj => by
    rw [leafAt, entry_write (by decide) hj hword, if_neg fun e => apart p hp e.1]
  have hmap := map_through (A := Buddy.merging.toFrameAllocator) f.ppn firstPage.perm
    (show node s₁.mem sp.table.root [rootIndex windowPage] = some q from hnode₁)
      (by rw [show windowPage / 2 ^ 9 % 512 = 2 by decide, hentry₁]; decide)
    (by rw [show windowPage / 2 ^ 9 % 512 = 2 by decide, hentry₁]; decide) hclear
  have hinto : firstPage.mapInto Buddy.merging.toFrameAllocator s sp.table =
      some (.ok (), { s₁ with mem := leafAt s₁.mem 0x80400 0 f.ppn firstPage.perm }, sp.table,
        onPage firstPage f) := by
    rw [Region.mapInto, show firstPage.pageCount = 0 + 1 by decide,
      show pageNum firstPage.start = windowPage by decide, Region.mapFrom, if_neg (by decide)]
    simp only [show firstPage.backing = .framed from rfl, Region.mapPage, hf, hmap]
    rfl
  have hpush : push Buddy.merging.toFrameAllocator s sp firstPage =
      some (.ok (), { s₁ with mem := leafAt s₁.mem 0x80400 0 f.ppn firstPage.perm },
        ⟨sp.table, [window, onPage firstPage f]⟩) := by
    simp [push, hinto, hregions]
  have pushed : Step Buddy.merging kernel ⟨s, kernel.frames, {⟨sp, false⟩}⟩
      (.push ⟨sp, false⟩ firstPage) ⟨_, kernel.frames, {⟨⟨sp.table, _⟩, false⟩}⟩ :=
    .push (Multiset.cons_zero _).symm (show firstPage.perm < 2 ^ 64 by decide)
      (show Region.new (virtOffset + 0x80400000) (virtOffset + 0x80401000) .framed firstPage.perm =
        some firstPage from rfl) hpush
  refine ⟨_, kernel, sp.table, f, i, .step _ (Reach.of_guard hreach) pushed, horder, hi, hlt, tiny₁,
    ?_, ?_, ?_⟩
  · obtain ⟨-, L, inv, -⟩ := holds₁
    exact inv.rep.geometry
  · exact (entry_write (by decide) (by decide) hword 0x80400).trans (if_pos ⟨rfl, rfl⟩)
  · intro v lo hi
    have hv : rootIndex v = 258 ∧ v / 2 ^ 9 % 512 = 2 := by
      simp only [rootIndex, windowPage] at *
      omega
    refine ⟨q, ?_, ?_⟩
    · rw [hv.1, ← hnode₁]
      simp only [node, tableBelow, Option.bind_some]
      rw [same _ 258 hroot (by omega)]
    · rw [hv.2, same q 2 hq (by omega), hentry₁]
      exact isLeaf_present 0x80400 (by decide)

/-- The allocator takes the page's frame for a free one, and `drop` panics. -/
theorem page_below_superpage : ∃ (w : World Buddy.BuddyAllocator) (kernel : PageTable) (t : Tenant)
    (f : Frame), Reach (system Buddy.merging kernel) w ∧ w.tenants = {t} ∧
      t.space.regions = [window, onPage firstPage f] ∧
      t.space.drop Buddy.merging.toFrameAllocator w.phys = none := by
  obtain ⟨s, kernel, t, f, i, hreach, horder, hppn, hi, tiny, g, hword, under⟩ := page_pushed
  refine ⟨_, kernel, _, f, hreach, rfl, rfl, ?_⟩
  have hfree : Buddy.merging.free s f = none := by
    have hset : s.isFree 0 i = true := by
      rw [tiny.isFree g (by omega), hword, Pte.new, Nat.testBit_or]
      have hflags : ∀ j < 4, (PteFlags.present firstPage.perm).testBit j = true := by decide
      rw [hflags i hi, Bool.or_true]
    have e : Buddy.merging.free s f = s.free f.ppn f.order := rfl
    rw [e, Buddy.State.free, horder, hppn, tiny.base, if_neg (by omega),
      show 0x80800 + i - 0x80800 = i by omega]
    simp [hset]
  have hpages : ∀ r : Region, pageNum r.start = windowPage → r.pageCount ≤ 512 →
      Region.unmapPages s t (List.range' (pageNum r.start) r.pageCount) = s := fun r hs hc => by
    refine unmapPages_under fun v hv => ?_
    obtain ⟨lo, hi⟩ := List.mem_range'_1.mp hv
    exact under v (by omega) (by omega)
  simp only [AddressSpace.drop, dropRegions, Region.unmapFrom]
  rw [hpages window rfl (by decide)]
  simp only [show window.owned = [] from rfl, dropFrames, Option.bind_eq_bind, Option.bind_some]
  rw [hpages (onPage firstPage f) (show pageNum firstPage.start = windowPage by decide)
    (show firstPage.pageCount ≤ 512 by decide)]
  simp [show (onPage firstPage f).owned = [f] from rfl, dropFrames, hfree]

theorem window_returned : ∃ (w : World Buddy.BuddyAllocator) (kernel : PageTable) (t : Tenant),
    w.tenants = {t} ∧ t.space.regions = [window] ∧ ∃ s, dropAll Buddy.merging w.phys [t] = some s ∧
      Buddy.merging.Holds s kernel.frames ∧ Kept kernel.frames w.phys.mem s.mem := by
  obtain ⟨s, kernel, sp, -, hreach, hregions, -⟩ := window_pushed
  obtain ⟨-, -, hdrop⟩ := reach_returned hreach
  exact ⟨_, kernel, ⟨sp, false⟩, rfl, hregions, hdrop [⟨sp, false⟩] rfl⟩

end AlexOS.SpaceRun
