import AlexOS.Mm.RegionMap
import Mathlib.Tactic.Abel

/-!
# Spaces in step with their tables

A space is exact when its valid lower-half entries are the pages its regions
own. Building and dropping keep what everyone else holds; a region that is
refused part of the way leaves the space formed, fit to be dropped, but no longer
exact.
-/

namespace AlexOS

open Bytes Blocks PageTable

variable {σ : Type} {A : CountedAllocator σ} {s s' : Phys σ} {m m' : Mem} {t t' : PageTable}
  {sp sp' : AddressSpace} {r : Region} {rest : Multiset Frame} {new : List (Nat × Frame)}

/-- A region of the lower half. -/
structure Region.User (r : Region) : Prop where
  framed : r.backing = .framed
  perm : r.perm < 2 ^ 10
  below : r.end_ ≤ userMaxAddr
  single : ∀ e ∈ r.frames, e.1 < pages 256 ∧ e.2.order = 0 ∧ e.2.ppn < 2 ^ 44

theorem pageNum_low {va : Nat} (hva : va < userMaxAddr) : pageNum va < pages 256 := by
  simp only [userMaxAddr, pageNum, pageSize, pages] at *
  omega

theorem Region.User.pages_le (h : r.User) : pageNum r.end_ ≤ pages 256 := by
  have := h.below
  simp only [userMaxAddr, pageNum, pageSize, pages] at *
  omega

theorem Region.new_user {end_ perm : Nat} (start : Nat) (hend : end_ ≤ userMaxAddr)
    (hperm : perm < 2 ^ 10) :
    ∃ r, Region.new start end_ .framed perm = some r ∧ r.User ∧ r.frames = [] ∧ r.perm = perm ∧
      r.start = alignDown start ∧ r.end_ = (end_ + pageSize - 1) / pageSize * pageSize := by
  refine ⟨⟨alignDown start, (end_ + pageSize - 1) / pageSize * pageSize, .framed, perm, []⟩, ?_,
    ⟨rfl, hperm, ?_, by simp⟩, rfl, rfl, rfl, rfl⟩
  · have : end_ + pageSize < 2 ^ 64 := by simp only [userMaxAddr, pageSize] at *; omega
    rw [Region.new, alignUp, if_pos this]
    rfl
  · simp only [userMaxAddr, pageSize] at *
    omega

namespace AddressSpace

/-- Enough to be dropped: the table is a tree of its own frames. -/
structure Formed (m : Mem) (sp : AddressSpace) : Prop where
  tree : Tree 256 m sp.table.root sp.table.frames
  regions : ∀ r ∈ sp.regions, r.User

/-- The valid entries of the lower half are the pages the regions own. -/
structure Exact (m : Mem) (sp : AddressSpace) : Prop extends Formed m sp where
  owner : ∀ v, v < pages 256 → Pte.isValid (leaf m sp.table.root v) = true →
    ∃ r ∈ sp.regions, ∃ f, (v, f) ∈ r.frames
  word : ∀ r ∈ sp.regions, ∀ e ∈ r.frames,
    leaf m sp.table.root e.1 = Pte.new e.2.ppn (PteFlags.present r.perm)

theorem Formed.kept (h : Formed m sp) (kept : Kept sp.table.frames m m') : Formed m' sp :=
  ⟨h.tree.kept kept, h.regions⟩

theorem Exact.kept (h : Exact m sp) (kept : Kept sp.table.frames m m') : Exact m' sp := by
  have same := fun v (hv : v < pages 256) => h.tree.leaf_kept kept hv
  refine ⟨h.toFormed.kept kept, fun v hv hvalid => ?_, fun r hr e he => ?_⟩
  · rw [same v hv] at hvalid
    exact h.owner v hv hvalid
  · rw [same e.1 ((h.regions r hr).single e he).1]
    exact h.word r hr e he

theorem Formed.ok (h : Formed s.mem sp) (holds : A.Holds s (sp.frames + rest)) :
    PageTable.Ok A.toFrameAllocator 256 s sp.table (sp.owned + rest) :=
  ⟨by rw [← add_assoc]; exact holds, h.tree⟩

theorem owned_append (t : PageTable) (rs : List Region) (r : Region) :
    (⟨t, rs ++ [r]⟩ : AddressSpace).owned = rs.flatMap Region.owned ++ r.owned := by
  simp [owned]

theorem mem_owned {e : Nat × Frame} (hr : r ∈ sp.regions) (he : e ∈ r.frames) :
    e.2 ∈ sp.owned :=
  List.mem_flatMap.mpr ⟨r, hr, List.mem_map_of_mem he⟩

/-- The frame behind a valid entry. -/
theorem Exact.frame (h : Exact m sp) {v : Nat} (hv : v < pages 256)
    (hvalid : Pte.isValid (leaf m sp.table.root v) = true) :
    ∃ r ∈ sp.regions, (v, (⟨Pte.ppn (leaf m sp.table.root v), 0⟩ : Frame)) ∈ r.frames := by
  obtain ⟨r, hr, f, hf⟩ := h.owner v hv hvalid
  obtain ⟨-, order, hppn⟩ := (h.regions r hr).single _ hf
  refine ⟨r, hr, ?_⟩
  rw [h.word r hr _ hf, Pte.ppn_new hppn (PteFlags.present_lt (h.regions r hr).perm), ← order]
  exact hf

/-! ## A region that was mapped, whole or in part -/

section
variable (u : r.User)
  (filled : Region.Filled A (sp.owned + rest) r.perm (pageNum r.start) s sp.table s' t' new)
include u filled

theorem Formed.fill (h : Formed s.mem sp) :
    A.Holds s' ((⟨t', sp.regions ++ [{ r with frames := new }]⟩ : AddressSpace).frames + rest) ∧
      Formed s'.mem ⟨t', sp.regions ++ [{ r with frames := new }]⟩ := by
  have holds := filled.ok.holds
  constructor
  · rw [frames, owned_append, ← Multiset.coe_add]
    have e : (t'.frames : Multiset Frame) + (sp.owned + Region.owned { r with frames := new }) +
        rest = t'.frames + ((new.map Prod.snd : List Frame) + (sp.owned + rest)) := by
      rw [show Region.owned { r with frames := new } = new.map Prod.snd from rfl]
      abel
    rw [← owned, e]
    exact holds
  · refine ⟨filled.ok.tree, fun r' hr' => ?_⟩
    rcases List.mem_append.mp hr' with hr' | hr'
    · exact h.regions r' hr'
    · obtain rfl := List.mem_singleton.mp hr'
      refine ⟨u.framed, u.perm, u.below, fun e he => ?_⟩
      obtain ⟨hlow, order⟩ := filled.single e he
      have hmem : e.2 ∈ (t'.frames : Multiset Frame) + ((new.map Prod.snd : List Frame) +
          (sp.owned + rest)) :=
        Multiset.mem_add.mpr (.inr (Multiset.mem_add.mpr
          (.inl (Multiset.mem_coe.mpr (List.mem_map_of_mem he)))))
      exact ⟨hlow, order, FrameAllocator.page_lt holds hmem⟩

theorem Exact.fill (h : Exact s.mem sp) :
    Exact s'.mem ⟨t', sp.regions ++ [{ r with frames := new }]⟩ := by
  refine ⟨(h.toFormed.fill u filled).2, fun v hv hvalid => ?_, fun r' hr' e he => ?_⟩
  · simp only [filled.root] at hvalid
    by_cases hnew : v ∈ new.map Prod.fst
    · obtain ⟨⟨_, f⟩, he, rfl⟩ := List.mem_map.mp hnew
      exact ⟨_, List.mem_append_right _ (List.mem_singleton_self _), f, he⟩
    · rw [filled.others v hv hnew] at hvalid
      obtain ⟨r', hr', f, hf⟩ := h.owner v hv hvalid
      exact ⟨r', List.mem_append_left _ hr', f, hf⟩
  · simp only [filled.root]
    rcases List.mem_append.mp hr' with hr' | hr'
    · obtain ⟨hlow, -, hppn⟩ := (h.regions r' hr').single e he
      have hword := h.word r' hr' e he
      have hnew : e.1 ∉ new.map Prod.fst := by
        intro hmem
        obtain ⟨e', he', hkey⟩ := List.mem_map.mp hmem
        have hfree := filled.unmapped e' he'
        have hperm := (h.regions r' hr').perm
        rw [hkey, hword, Bool.eq_false_iff] at hfree
        exact hfree ((Pte.isValid_new hppn (PteFlags.present_lt hperm)).mpr
          (PteFlags.present_odd _))
      rw [filled.others e.1 hlow hnew]
      exact hword
    · obtain rfl := List.mem_singleton.mp hr'
      exact filled.word e he

end

/-- Dropping the part of a region that was mapped leaves the space formed. -/
theorem Formed.dropPart (h : Formed s.mem sp)
    (filled : Region.Filled A (sp.owned + rest) r.perm (pageNum r.start) s sp.table s' t' new) :
    ∃ s'', dropFrames A.toFrameAllocator s' (new.map Prod.snd) = some s'' ∧
      A.Holds s'' ((⟨t', sp.regions⟩ : AddressSpace).frames + rest) ∧
      Formed s''.mem ⟨t', sp.regions⟩ ∧ Kept (sp.owned + rest) s.mem s''.mem ∧
      ∀ v, v < pages 256 → leaf s''.mem sp.table.root v = leaf s'.mem sp.table.root v := by
  have holds := filled.ok.holds
  rw [add_left_comm] at holds
  obtain ⟨s'', heq, holds', kept⟩ := dropFrames_spec holds
  have keptT : Kept t'.frames s'.mem s''.mem := kept.mono (Multiset.le_add_right _ _)
  refine ⟨s'', heq, by rw [frames, add_assoc]; exact holds',
    ⟨filled.ok.tree.kept keptT, h.regions⟩, ?_, fun v hv => ?_⟩
  · have keptR : Kept (sp.owned + rest) s'.mem s''.mem := kept.mono (Multiset.le_add_left _ _)
    exact filled.kept.trans keptR
  · rw [← filled.root]
    exact filled.ok.tree.leaf_kept keptT hv

theorem Exact.dropPart (h : Exact s.mem sp)
    (filled : Region.Filled A (sp.owned + rest) r.perm (pageNum r.start) s sp.table s' t' []) :
    ∃ s'', dropFrames A.toFrameAllocator s' [] = some s'' ∧ Exact s''.mem ⟨t', sp.regions⟩ := by
  obtain ⟨s'', heq, -, formed, -, hleaf⟩ := h.toFormed.dropPart filled
  have same : ∀ v, v < pages 256 → leaf s''.mem t'.root v = leaf s.mem sp.table.root v :=
    fun v hv => by rw [filled.root, hleaf v hv, filled.others v hv List.not_mem_nil]
  refine ⟨s'', heq, formed, fun v hv hvalid => ?_, fun r' hr' e he => ?_⟩
  · simp only [same v hv] at hvalid
    exact h.owner v hv hvalid
  · simp only [same e.1 ((h.regions r' hr').single e he).1]
    exact h.word r' hr' e he

/-! ## Pushing -/

/-- What `push` says about the space it was given. -/
inductive Pushed (A : CountedAllocator σ) (rest : Multiset Frame) (s : Phys σ) (sp : AddressSpace)
    (r : Region) : Except MapError Unit → Phys σ → AddressSpace → Prop where
  | mapped {s' : Phys σ} {t' : PageTable} {new : List (Nat × Frame)} :
      Region.Fits A s sp.table (pageNum r.start) r.pageCount →
      (Exact s.mem sp → Exact s'.mem ⟨t', sp.regions ++ [{ r with frames := new }]⟩) →
      new.map Prod.fst = List.range' (pageNum r.start) r.pageCount →
      A.avail s' + (r.pageCount + (missing s.mem sp.table.root
        (List.range' (pageNum r.start) r.pageCount)).card) = A.avail s →
      Pushed A rest s sp r (.ok ()) s' ⟨t', sp.regions ++ [{ r with frames := new }]⟩
  | refused {e : MapError} {s' : Phys σ} {t' : PageTable} :
      Region.Refused A s sp.table (pageNum r.start) →
      (Exact s.mem sp → Exact s'.mem ⟨t', sp.regions⟩) →
      Pushed A rest s sp r (.error e) s' ⟨t', sp.regions⟩
  /-- The first page keeps its entry, but nobody holds its frame any more. -/
  | stale {e : MapError} {s₁ s' : Phys σ} {t' : PageTable} {f : Frame} {others : Multiset Frame} :
      ¬ Region.Fits A s sp.table (pageNum r.start) r.pageCount →
      ¬ Region.Refused A s sp.table (pageNum r.start) →
      pageNum r.start < pages 256 →
      leaf s'.mem t'.root (pageNum r.start) = Pte.new f.ppn (PteFlags.present r.perm) →
      A.Holds s₁ (f ::ₘ (others + ((⟨t', sp.regions⟩ : AddressSpace).frames + rest))) →
      Pte.isValid (leaf s.mem sp.table.root (pageNum r.start)) = false →
      Pushed A rest s sp r (.error e) s' ⟨t', sp.regions⟩

theorem push_spec (holds : A.Holds s (sp.frames + rest)) (h : Formed s.mem sp) (u : r.User)
    (empty : r.frames = []) :
    ∃ res s' sp', push A.toFrameAllocator s sp r = some (res, s', sp') ∧
      A.Holds s' (sp'.frames + rest) ∧ Formed s'.mem sp' ∧ sp'.table.root = sp.table.root ∧
      Kept rest s.mem s'.mem ∧ Pushed A rest s sp r res s' sp' := by
  obtain ⟨res, s', t', new, heq, filled, out⟩ :=
    Region.mapInto_spec (h.ok holds) u.framed u.perm u.pages_le empty
  have kept : Kept rest s.mem s'.mem := filled.kept.mono (Multiset.le_add_left _ _)
  rcases out with ⟨rfl, fits, hlen, cost, -⟩ | ⟨e, rfl, nofit, hrefused⟩
  · obtain ⟨holds', formed⟩ := h.fill u filled
    refine ⟨.ok (), s', _, ?_, holds', formed, filled.root, kept,
      .mapped fits (fun x => x.fill u filled) ?_ cost⟩
    · simp [push, heq]
    · rw [filled.keys, hlen]
  obtain ⟨s'', hdrop, holds', formed, kept', hleaf⟩ := h.dropPart filled
  refine ⟨.error e, s'', ⟨t', sp.regions⟩, ?_, holds', formed, filled.root,
    kept'.mono (Multiset.le_add_left _ _), ?_⟩
  · have : dropFrames A.toFrameAllocator s' (Region.owned { r with frames := new }) =
      some s'' := hdrop
    simp [push, heq, this]
  cases new with
  | nil =>
    refine .refused (hrefused.mp rfl) fun x => ?_
    obtain ⟨_, hdrop', exact⟩ := x.dropPart filled
    obtain rfl := Option.some.inj (hdrop.symm.trans hdrop')
    exact exact
  | cons e' new =>
    obtain ⟨v, f⟩ := e'
    obtain rfl : v = pageNum r.start := by
      simpa [List.range'_succ] using (List.cons.inj filled.keys).1
    have hmem : (pageNum r.start, f) ∈ (pageNum r.start, f) :: new := List.mem_cons_self
    have hheld : A.Holds s' (f ::ₘ ((new.map Prod.snd : List Frame) +
        ((t'.frames : Multiset Frame) + sp.owned + rest))) := by
      have e : f ::ₘ ((new.map Prod.snd : List Frame) +
        ((t'.frames : Multiset Frame) + sp.owned + rest))
          = t'.frames + ((f ::ₘ (new.map Prod.snd : List Frame)) + (sp.owned + rest)) := by
        simp only [← Multiset.singleton_add]
        abel
      rw [e]
      exact filled.ok.holds
    have hlow : pageNum r.start < pages 256 := (filled.single (pageNum r.start, f) hmem).1
    have hfree := filled.unmapped (pageNum r.start, f) hmem
    have hword : leaf s''.mem t'.root (pageNum r.start) =
        Pte.new f.ppn (PteFlags.present r.perm) := by
      rw [filled.root, hleaf _ hlow]
      exact filled.word (pageNum r.start, f) hmem
    exact .stale nofit (fun hr => by cases hrefused.mpr hr) hlow hword hheld hfree

/-- What `push` does to the entries of the lower half. When it fails, `new` is
the part that was mapped before, and its entries stay. -/
theorem push_leaves (holds : A.Holds s (sp.frames + rest)) (h : Formed s.mem sp) (u : r.User)
    (empty : r.frames = []) :
    ∃ res s' sp' new, push A.toFrameAllocator s sp r = some (res, s', sp') ∧
      A.Holds s' (sp'.frames + rest) ∧ Formed s'.mem sp' ∧ Kept (sp.owned + rest) s.mem s'.mem ∧
      sp'.table.root = sp.table.root ∧
      new.map Prod.fst = List.range' (pageNum r.start) new.length ∧
      (∀ e ∈ new, e.1 < pages 256 ∧ Pte.isValid (leaf s.mem sp.table.root e.1) = false ∧
        leaf s'.mem sp.table.root e.1 = Pte.new e.2.ppn (PteFlags.present r.perm)) ∧
      (∀ w, w < pages 256 → w ∉ new.map Prod.fst →
        leaf s'.mem sp.table.root w = leaf s.mem sp.table.root w) ∧
      ((res = .ok () ∧ Region.Fits A s sp.table (pageNum r.start) r.pageCount ∧
          new.length = r.pageCount ∧ sp'.regions = sp.regions ++ [{ r with frames := new }]) ∨
        ∃ e, res = .error e ∧ ¬ Region.Fits A s sp.table (pageNum r.start) r.pageCount ∧
          (new = [] ↔ Region.Refused A s sp.table (pageNum r.start)) ∧
            sp'.regions = sp.regions) := by
  obtain ⟨res, s', t', new, heq, filled, out⟩ :=
    Region.mapInto_spec (h.ok holds) u.framed u.perm u.pages_le empty
  have fresh := fun e he => And.intro (filled.single e he).1
    (And.intro (filled.unmapped e he) (filled.word e he))
  rcases out with ⟨rfl, fits, hlen, -, -⟩ | ⟨e, rfl, nofit, hrefused⟩
  · obtain ⟨holds', formed⟩ := h.fill u filled
    exact ⟨.ok (), s', _, new, by simp [push, heq], holds', formed, filled.kept, filled.root,
      filled.keys, fresh, filled.others, .inl ⟨rfl, fits, hlen, rfl⟩⟩
  obtain ⟨s'', hdrop, holds', formed, kept, hleaf⟩ := h.dropPart filled
  have hdrop' : dropFrames A.toFrameAllocator s'
      (Region.owned { r with frames := new }) = some s'' :=
    hdrop
  refine ⟨.error e, s'', ⟨t', sp.regions⟩, new, by simp [push, heq, hdrop'], holds', formed, kept,
    filled.root, filled.keys, fun e he => ?_, fun w hw hnot => ?_,
    .inr ⟨e, rfl, nofit, hrefused, rfl⟩⟩
  · obtain ⟨hlow, hfree, hword⟩ := fresh e he
    exact ⟨hlow, hfree, by rw [hleaf _ hlow, hword]⟩
  · rw [hleaf w hw, filled.others w hw hnot]

theorem push_frames {res : Except MapError Unit}
    (heq : push A.toFrameAllocator s sp r = some (res, s', sp')) :
    sp.table.frames <+: sp'.table.frames := by
  unfold push at heq
  obtain ⟨⟨res', s₁, t', r'⟩, hmap, heq⟩ := Option.bind_eq_some_iff.mp heq
  have step := Region.mapFrom_frames hmap
  rcases res' with e | u
  · obtain ⟨_, -, heq⟩ := Option.bind_eq_some_iff.mp heq
    cases heq
    exact step
  · cases heq
    exact step

end AddressSpace

end AlexOS
