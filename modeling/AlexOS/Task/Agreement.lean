import AlexOS.Task.KernelHalf

/-!
# The region list and the page table

`fork` and `Drop` go by the region list, the hardware by the table. They agree
on every page of every region, also after a `push` that failed halfway: the
entries it leaves behind are of pages that no region has. What is assumed is
that page tables are written by the table's own operations only.
-/

namespace AlexOS

open Bytes PageTable

variable {σ : Type} {A : CountedAllocator σ} {s s' : Phys σ} {m m' : Mem} {r r' : Region}
  {sp sp' child : AddressSpace} {rest rest' : Multiset Frame} {t t' : PageTable}

/-! ## A region that was mapped has every page -/

theorem Region.mapFrom_ok {turns v : Nat} (framed : r.backing = .framed)
    (enough : pageNum r.end_ - v ≤ turns)
    (heq : mapFrom A.toFrameAllocator turns s t r v = some (.ok (), s', t', r')) :
    ∃ new, r' = { r with frames := r.frames ++ new } ∧
      new.map Prod.fst = List.range' v (pageNum r.end_ - v) := by
  induction turns generalizing s t r v with
  | zero =>
    cases heq
    exact ⟨[], by rw [List.append_nil], by rw [Nat.le_zero.mp enough]; rfl⟩
  | succ turns ih =>
    rcases Nat.lt_or_ge v (pageNum r.end_) with hlt | hge
    swap
    · rw [mapFrom, if_pos hge] at heq
      cases heq
      exact ⟨[], by rw [List.append_nil], by rw [Nat.sub_eq_zero_of_le hge]; rfl⟩
    rw [mapFrom_succ framed hlt] at heq
    rcases hpage : r.mapPage A.toFrameAllocator s t v with _ | ⟨_ | w, s₁, t₁, r₁⟩ <;>
      simp only [hpage] at heq
    · cases heq
    · cases heq
    obtain ⟨rfl, f, rfl⟩ := mapPage_ok hpage
    have left : pageNum r.end_ - (v + 1) ≤ turns := by omega
    obtain ⟨new, rfl, keys⟩ := ih (by exact framed) (by exact left) heq
    refine ⟨(v, f) :: new, by rw [List.append_assoc]; rfl, ?_⟩
    have hlen : pageNum r.end_ - v = pageNum r.end_ - (v + 1) + 1 := by omega
    rw [List.map_cons, hlen, List.range'_succ]
    exact congrArg (v :: ·) keys

theorem Region.new_aligned {start end_ perm : Nat} {backing : Backing}
    (heq : Region.new start end_ backing perm = some r) :
    r.start % pageSize = 0 ∧ r.end_ % pageSize = 0 ∧ r.backing = backing ∧ r.frames = [] := by
  rw [Region.new] at heq
  obtain ⟨last, hlast, hr⟩ := Option.bind_eq_some_iff.mp heq
  cases hr
  rw [alignUp] at hlast
  split at hlast
  · cases hlast
    exact ⟨Nat.mul_mod_left _ _, Nat.mul_mod_left _ _, rfl, rfl⟩
  · cases hlast

theorem Region.mapInto_whole (framed : r.backing = .framed) (empty : r.frames = [])
    (start : r.start % pageSize = 0) (last : r.end_ % pageSize = 0)
    (heq : r.mapInto A.toFrameAllocator s t = some (.ok (), s', t', r')) : r'.Whole := by
  obtain ⟨new, rfl, keys⟩ := mapFrom_ok framed (Nat.le_refl _) heq
  refine ⟨start, last, ?_⟩
  rw [empty, List.nil_append]
  exact keys

namespace AddressSpace

theorem duplicateFrom_whole {rs : List Region} (h : ∀ r ∈ sp.regions, r.Whole)
    (heq : duplicateFrom A.toFrameAllocator s sp rs = some (some child, s')) :
    ∀ r ∈ child.regions, r.Whole := by
  induction rs generalizing s sp with
  | nil =>
    cases heq
    exact h
  | cons r rs ih =>
    rw [duplicateFrom] at heq
    split at heq
    · exact ih h heq
    obtain ⟨copy, hnew, heq⟩ := Option.bind_eq_some_iff.mp heq
    obtain ⟨⟨res, s₁, t₁, copy'⟩, hmap, heq⟩ := Option.bind_eq_some_iff.mp heq
    obtain ⟨start, last, framed, empty⟩ := Region.new_aligned hnew
    rcases res with e | ⟨⟩
    · obtain ⟨_, -, heq⟩ := Option.bind_eq_some_iff.mp heq
      obtain ⟨_, -, heq⟩ := Option.bind_eq_some_iff.mp heq
      cases heq
    dsimp only at heq
    split at heq
    · obtain ⟨_, -, heq⟩ := Option.bind_eq_some_iff.mp heq
      obtain ⟨_, -, heq⟩ := Option.bind_eq_some_iff.mp heq
      cases heq
    refine ih (fun r' hr' => ?_) heq
    rcases List.mem_append.mp hr' with hr' | hr'
    · exact h r' hr'
    obtain rfl := List.mem_singleton.mp hr'
    exact Region.mapInto_whole framed empty start last hmap

theorem duplicate_whole {kernel : PageTable} (holds : A.Holds s rest)
    (heq : sp.duplicate A.toFrameAllocator s kernel = some (some child, s')) :
    ∀ r ∈ child.regions, r.Whole := by
  unfold duplicate at heq
  rcases hnew : new A.toFrameAllocator s with ⟨_ | fresh, s₁⟩ <;> simp only [hnew] at heq
  · cases heq
  · obtain ⟨-, -, empty, -⟩ := new_spec kernel holds hnew
    exact duplicateFrom_whole (by rw [empty]; exact fun r hr => by cases hr) heq

/-! ## Agreement -/

/-- Every region has a frame for each of its pages, and the table has that frame. -/
structure Agrees (m : Mem) (sp : AddressSpace) : Prop extends Formed m sp where
  whole : ∀ r ∈ sp.regions, r.Whole
  word : ∀ r ∈ sp.regions, ∀ e ∈ r.frames,
    leaf m sp.table.root e.1 = Pte.new e.2.ppn (PteFlags.present r.perm)

theorem Exact.agrees (h : Exact m sp) (whole : ∀ r ∈ sp.regions, r.Whole) : Agrees m sp :=
  ⟨h.toFormed, whole, h.word⟩

theorem Agrees.kept (h : Agrees m sp) (kept : Kept sp.table.frames m m') : Agrees m' sp :=
  ⟨h.toFormed.kept kept, h.whole, fun r hr e he => by
    rw [h.tree.leaf_kept kept ((h.regions r hr).single e he).1, h.word r hr e he]⟩

/-- A push keeps the agreement whether it succeeds or not. -/
theorem Agrees.push (h : Agrees s.mem sp) (holds : A.Holds s (sp.frames + rest)) (u : r.User)
    (empty : r.frames = []) (start : r.start % pageSize = 0) (last : r.end_ % pageSize = 0)
    {res : Except MapError Unit} (heq : push A.toFrameAllocator s sp r = some (res, s', sp')) :
    A.Holds s' (sp'.frames + rest) ∧ Agrees s'.mem sp' ∧ Kept rest s.mem s'.mem := by
  obtain ⟨res₁, s₁, sp₁, new, heq₁, holds', formed, kept, root, keys, entries, others, out⟩ :=
    push_leaves holds h.toFormed u empty
  obtain ⟨rfl, rfl, rfl⟩ := Option.some.inj (heq.symm.trans heq₁)
  have same : ∀ r' ∈ sp.regions, ∀ e ∈ r'.frames,
      leaf s'.mem sp'.table.root e.1 = Pte.new e.2.ppn (PteFlags.present r'.perm) := by
    intro r' hr' e he
    have hword := h.word r' hr' e he
    rw [root, others e.1 ((h.regions r' hr').single e he).1 fun hmem => ?_, hword]
    obtain ⟨e', he', hkey⟩ := List.mem_map.mp hmem
    obtain ⟨-, hfree, -⟩ := entries e' he'
    rw [hkey, hword, Pte.isValid_present] at hfree
    cases hfree
  refine ⟨holds', ?_, kept.mono (Multiset.le_add_left _ _)⟩
  rcases out with ⟨-, -, hlen, regions⟩ | ⟨_, -, -, -, regions⟩
  · refine ⟨formed, fun r' hr' => ?_, fun r' hr' e he => ?_⟩ <;>
      rcases List.mem_append.mp (regions ▸ hr') with hr' | hr'
    · exact h.whole r' hr'
    · obtain rfl := List.mem_singleton.mp hr'
      exact ⟨start, last, keys.trans (by rw [hlen]; rfl)⟩
    · exact same r' hr' e he
    · obtain rfl := List.mem_singleton.mp hr'
      rw [root]
      exact (entries e he).2.2
  · exact ⟨formed, fun r' hr' => h.whole r' (regions ▸ hr'),
      fun r' hr' => same r' (regions ▸ hr')⟩

theorem owned_nodup (holds : A.Holds s (sp.frames + rest)) : sp.owned.Nodup := by
  have apart : ∀ p, framesOver sp.owned p ≤ 1 := fun p =>
    (framesOver_mono (Multiset.le_add_left _ _) p).trans (apart_of_holds holds p)
  refine (frames_pairwise apart).imp fun {f g} hne => ?_
  rintro rfl
  have : 0 < f.count := Nat.two_pow_pos _
  omega

/-- A page in two regions would be one frame listed twice. -/
theorem Agrees.disjoint (h : Agrees m sp) (nodup : sp.owned.Nodup) :
    sp.regions.Pairwise fun r r' => ∀ v, pageNum r.start ≤ v → v < pageNum r.end_ →
      pageNum r'.start ≤ v → ¬ v < pageNum r'.end_ := by
  have hpair := (List.nodup_flatMap.mp nodup).2
  refine hpair.imp_of_mem fun {r r'} hr hr' hdisj v lo hi lo' hi' => ?_
  obtain ⟨e, he, hv⟩ := List.mem_map.mp ((h.whole r hr).mem_keys.mpr ⟨lo, hi⟩)
  obtain ⟨e', he', hv'⟩ := List.mem_map.mp ((h.whole r' hr').mem_keys.mpr ⟨lo', hi'⟩)
  obtain ⟨-, order, hlt⟩ := (h.regions r hr).single e he
  obtain ⟨-, order', hlt'⟩ := (h.regions r' hr').single e' he'
  have hword := h.word r hr e he
  rw [hv, ← hv', h.word r' hr' e' he'] at hword
  have hppn := congrArg Pte.ppn hword
  rw [Pte.ppn_new hlt' (PteFlags.present_lt (h.regions r' hr').perm),
    Pte.ppn_new hlt (PteFlags.present_lt (h.regions r hr).perm)] at hppn
  have same : e'.2 = e.2 := by
    rcases e with ⟨_, ⟨_, _⟩⟩
    rcases e' with ⟨_, ⟨_, _⟩⟩
    simp only at order order' hppn
    rw [order, order', hppn]
  exact hdisj (List.mem_map_of_mem he) (same ▸ List.mem_map_of_mem he')

theorem Agrees.translate (h : Agrees m sp) (hr : r ∈ sp.regions) {e : Nat × Frame}
    (he : e ∈ r.frames) : ∃ pte, PageTable.translate m sp.table e.1 = some pte ∧
      Pte.ppn pte = e.2.ppn ∧ Pte.flags pte = PteFlags.present r.perm := by
  obtain ⟨hlow, -, hlt⟩ := (h.regions r hr).single e he
  have hperm := PteFlags.present_lt (h.regions r hr).perm
  refine ⟨_, ?_, Pte.ppn_new hlt hperm, Pte.flags_new _ hperm⟩
  rw [translate_eq h.tree hlow, h.word r hr e he, if_pos (Pte.isValid_present _ _)]

end AddressSpace

/-! ## Runs -/

namespace Agreement

open AddressSpace

section
variable (A : CountedAllocator σ) (kernel : KernelTable)

def tables (sps : Multiset AddressSpace) : Multiset Frame :=
  (sps.map fun sp => (sp.table.frames : Multiset Frame)).sum

def tenure : Tenure A AddressSpace where
  frames := AddressSpace.frames
  base := 0
  Ok s sp rest := A.Holds s (sp.frames + rest) ∧ sp.Agrees s.mem
  holds h := h.1
  stable h holds kept := ⟨holds, h.2.kept (kept.mono
    ((Multiset.le_add_right _ _).trans (Multiset.le_add_right _ _)))⟩

inductive Step : UserSpaces σ → Unit → UserSpaces σ → Prop where
  | call {w w' : UserSpaces σ} : UserSpaces.Step A kernel w () w' → Step w () w'
  /-- Whatever is not a page table may be written, also through an entry that a
  failed push left behind. -/
  | write {w : UserSpaces σ} {rest : Multiset Frame} {s : Phys σ} :
      A.Holds s ((tenure A).total w.spaces + rest) → Kept (tables w.spaces) w.phys.mem s.mem →
      Step w () { w with phys := s, rest := rest }

def system : System (UserSpaces σ) Unit where
  init w := A.Holds w.phys w.rest ∧ w.spaces = 0
  step := Step A kernel

end

variable {kernel : KernelTable} {w w' : UserSpaces σ}

theorem load_agrees {image : List UInt8} {kernel : PageTable} {loaded : Loader.LoadedImage}
    (holds : A.Holds s rest)
    (heq : Loader.load A.toFrameAllocator s kernel image = some (.ok loaded, s')) :
    loaded.space.Agrees s'.mem := by
  obtain ⟨_, _, heq', ⟨l, rfl, -, -, -, exact, spans, -⟩ | ⟨⟨e, rfl⟩, -⟩⟩ :=
    Loader.load_cases kernel image holds <;> cases heq.symm.trans heq'
  refine exact.agrees fun r hr => ?_
  obtain ⟨ph, -, hph⟩ := forall₂_mem_right spans hr
  exact hph.whole

theorem Call.all (h : UserSpaces.Step A kernel w () w')
    (all : (tenure A).All w.phys w.spaces w.rest) :
    (tenure A).All w'.phys w'.spaces w'.rest := by
  cases h with
  | load h =>
    obtain ⟨⟨holds, -⟩, kept⟩ := Loader.load_spec all.holds h
    exact all.add ⟨holds, load_agrees all.holds h⟩ kept
  | noLoad h =>
    obtain ⟨holds, kept⟩ := Loader.load_spec all.holds h
    exact all.same holds kept
  | mapUserStack hw h =>
    rw [hw] at all
    obtain ⟨holds, agrees⟩ := all.each _ _ rfl
    obtain ⟨r, hnew, u, empty, -, hstart, hend⟩ := userStack_region
    simp only [AlexOS.mapUserStack, hnew, Option.bind_eq_bind, Option.bind_some] at h
    obtain ⟨⟨res, s₁, sp₁⟩, hpush, h⟩ := Option.bind_eq_some_iff.mp h
    obtain ⟨holds', agrees', kept⟩ := agrees.push holds u empty (by rw [hstart]; decide)
      (by rw [hend]; decide) hpush
    rcases res with e | ⟨⟩ <;> cases h <;> exact all.change ⟨holds', agrees'⟩ kept
  | @adjustBrk sp _ _ p p' delta res s hw hp hp' h =>
    rw [hw] at all
    obtain ⟨holds, agrees⟩ := all.each _ _ rfl
    rcases adjustBrk_cases A.toFrameAllocator w.phys p delta with ⟨_, brk, heq, -, -⟩ |
      ⟨sp₀, new, r, hspace, -, -, -, hr, heq⟩
    · cases heq.symm.trans h
      obtain rfl := Option.some.inj (hp.symm.trans hp')
      exact all
    obtain rfl := Option.some.inj (hp.symm.trans hspace)
    rw [heq] at h
    obtain ⟨⟨res, s₁, sp₁⟩, hpush, h⟩ := Option.map_eq_some_iff.mp h
    obtain ⟨holds', agrees', kept⟩ := agrees.push holds hr.user hr.empty hr.start_aligned
      hr.end_aligned hpush
    rcases res with e | ⟨⟩ <;> cases h <;> cases hp' <;> exact all.change ⟨holds', agrees'⟩ kept
  | duplicate hsp h =>
    obtain ⟨_, -, -, agrees⟩ := all.mem hsp
    obtain ⟨⟨holds, exact⟩, kept⟩ := duplicate_spec all.holds agrees.regions h
    exact all.add ⟨holds, exact.agrees (duplicate_whole all.holds h)⟩ kept
  | noDuplicate hsp h =>
    obtain ⟨_, -, -, agrees⟩ := all.mem hsp
    obtain ⟨holds, kept⟩ := duplicate_spec all.holds agrees.regions h
    exact all.same holds kept
  | drop hw h =>
    rw [hw] at all
    obtain ⟨holds, agrees⟩ := all.each _ _ rfl
    obtain ⟨s', heq, holds', kept⟩ := drop_spec agrees.toFormed holds
    obtain rfl := Option.some.inj (heq.symm.trans h)
    exact all.drop holds' kept
  | store hw h =>
    obtain ⟨holds, agrees⟩ := all.each _ _ hw
    obtain ⟨holds', keptT, kept, -⟩ := write_owned holds h
    rw [hw] at all ⊢
    exact all.change ⟨holds', agrees.kept keptT⟩ kept
  | rest holds hbase kept =>
    exact all.elsewhere holds (Multiset.zero_le _)
      (kept.mono (add_le_add_right (Multiset.zero_le _) _))

theorem Step.all (h : Step A kernel w () w') (all : (tenure A).All w.phys w.spaces w.rest) :
    (tenure A).All w'.phys w'.spaces w'.rest := by
  cases h with
  | call h => exact Call.all h all
  | write holds kept =>
    refine ⟨holds, Multiset.zero_le _, fun sp sps hw => ⟨?_, ?_⟩⟩
    · have hall := holds
      rw [show w.spaces = sp ::ₘ sps from hw, Tenure.total_cons, add_assoc] at hall
      exact hall
    · refine (all.each sp sps hw).2.kept (kept.mono ?_)
      rw [tables, hw, Multiset.map_cons, Multiset.sum_cons]
      exact Multiset.le_add_right _ _

theorem Reach.all (h : Reach (system A kernel) w) : (tenure A).All w.phys w.spaces w.rest := by
  refine Reach.invariant (S := system A kernel) _ ?_ (fun _ _ _ all hs => Step.all hs all) h
  rintro w ⟨holds, hspaces⟩
  rw [hspaces]
  exact .start holds (Multiset.zero_le _)

theorem reach_agrees (h : Reach (system A kernel) w) : ∀ sp ∈ w.spaces,
    (sp.regions.Pairwise fun r r' => ∀ v, pageNum r.start ≤ v → v < pageNum r.end_ →
      pageNum r'.start ≤ v → ¬ v < pageNum r'.end_) ∧
    sp.owned.Nodup ∧
    ∀ r ∈ sp.regions, r.backing = .framed ∧
      r.frames.map Prod.fst = List.range' (pageNum r.start) (pageNum r.end_ - pageNum r.start) ∧
      ∀ e ∈ r.frames, e.2.order = 0 ∧ ∃ pte, translate w.phys.mem sp.table e.1 = some pte ∧
        Pte.ppn pte = e.2.ppn ∧ Pte.flags pte = PteFlags.present r.perm := by
  intro sp hsp
  obtain ⟨_, -, holds, agrees⟩ := (Reach.all h).mem hsp
  have nodup := owned_nodup holds
  refine ⟨agrees.disjoint nodup, nodup, fun r hr => ⟨(agrees.regions r hr).framed,
    (agrees.whole r hr).keys, fun e he => ⟨((agrees.regions r hr).single e he).2.1, ?_⟩⟩⟩
  exact agrees.translate hr he

theorem agrees_after_load : ∃ (w : UserSpaces Buddy.BuddyAllocator)
    (sp : AddressSpace) (r : Region),
    w.spaces = {sp} ∧ r ∈ sp.regions ∧ sp.owned.Nodup ∧
      ∀ e ∈ r.frames, ∃ pte, translate w.phys.mem sp.table e.1 = some pte ∧
        Pte.ppn pte = e.2.ppn ∧ Pte.flags pte = PteFlags.present r.perm := by
  obtain ⟨kernel, w, s', sp, holds, -, hspaces, hne, step⟩ := UserSpaces.image_step
  obtain ⟨r, hr⟩ := List.exists_mem_of_ne_nil _ hne
  have start : Reach (system Buddy.merging kernel) w := .init ⟨holds, hspaces⟩
  obtain ⟨-, nodup, pages⟩ :=
    reach_agrees (.step () start (.call step)) sp (Multiset.mem_singleton_self _)
  exact ⟨_, sp, r, rfl, hr, nodup, fun e he => ((pages r hr).2.2 e he).2⟩

end Agreement

end AlexOS
