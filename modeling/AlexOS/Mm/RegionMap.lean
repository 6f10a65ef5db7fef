import AlexOS.Mm.PageCount
import AlexOS.Mm.Space

/-!
# Mapping a region page by page

`map_into` on a framed region maps a first stretch of the pages it was given and
stops at the first page that is taken or that the allocator has no frames for.
-/

namespace AlexOS

open Bytes Blocks PageTable

variable {σ : Type} {A : CountedAllocator σ} {s s' : Phys σ} {t t' : PageTable}
  {rest live : Multiset Frame} {r : Region} {v n : Nat} {new : List (Nat × Frame)}

theorem dropFrames_spec {fs : List Frame} (h : A.Holds s (fs + live)) :
    ∃ s', dropFrames A.toFrameAllocator s fs = some s' ∧ A.Holds s' live ∧
      Kept live s.mem s'.mem := by
  induction fs generalizing s with
  | nil => exact ⟨s, rfl, by simpa using h, .refl _ _⟩
  | cons f fs ih =>
    rw [← Multiset.cons_coe, Multiset.cons_add] at h
    obtain ⟨s₁, hfree, holds, kept⟩ := A.free_some h
    obtain ⟨s', heq, holds', kept'⟩ := ih holds
    refine ⟨s', by simp [dropFrames, hfree, heq], holds', ?_⟩
    exact (kept.mono (Multiset.le_add_left _ _)).trans kept'

namespace Region

/-- The pages `new` were unmapped and now map the frames listed with them; no
other page of the lower half changed. -/
structure Filled (A : CountedAllocator σ) (rest : Multiset Frame) (perm v : Nat) (s : Phys σ)
    (t : PageTable) (s' : Phys σ) (t' : PageTable) (new : List (Nat × Frame)) : Prop where
  ok : PageTable.Ok A.toFrameAllocator 256 s' t' (new.map Prod.snd + rest)
  root : t'.root = t.root
  kept : Kept rest s.mem s'.mem
  keys : new.map Prod.fst = List.range' v new.length
  single : ∀ e ∈ new, e.1 < pages 256 ∧ e.2.order = 0
  unmapped : ∀ e ∈ new, Pte.isValid (leaf s.mem t.root e.1) = false
  word : ∀ e ∈ new, leaf s'.mem t.root e.1 = Pte.new e.2.ppn (PteFlags.present perm)
  others : ∀ w, w < pages 256 → w ∉ new.map Prod.fst →
    leaf s'.mem t.root w = leaf s.mem t.root w
  zeroed : ∀ e ∈ new, Zeroed e.2 s'.mem

theorem Filled.mem_keys {perm : Nat} (h : Filled A rest perm v s t s' t' new) {w : Nat} :
    w ∈ new.map Prod.fst ↔ v ≤ w ∧ w < v + new.length := by
  rw [h.keys, List.mem_range'_1]

theorem Filled.trans {s₁ : Phys σ} {t₁ : PageTable} {new' : List (Nat × Frame)} {perm : Nat}
    (h : Filled A rest perm v s t s₁ t₁ new)
    (h' : Filled A (new.map Prod.snd + rest) perm (v + new.length) s₁ t₁ s' t' new') :
    Filled A rest perm v s t s' t' (new ++ new') := by
  have old : ∀ w, v ≤ w → w < v + new.length → w ∉ new'.map Prod.fst := by
    intro w _ hi hw
    have := h'.mem_keys.mp hw
    omega
  have notOld : ∀ e ∈ new', e.1 ∉ new.map Prod.fst := by
    intro e he hw
    have := h.mem_keys.mp hw
    have := h'.mem_keys.mp (List.mem_map_of_mem he)
    omega
  refine ⟨?_, h'.root.trans h.root, ?_, ?_, ?_, ?_, ?_, ?_, ?_⟩
  · have := h'.ok
    rw [← add_assoc, add_comm (new'.map Prod.snd : Multiset Frame), Multiset.coe_add,
      ← List.map_append] at this
    exact this
  · exact h.kept.trans (h'.kept.mono (Multiset.le_add_left _ _))
  · rw [List.map_append, h.keys, h'.keys, List.length_append]
    exact List.range'_append_1
  · intro e he
    rcases List.mem_append.mp he with he | he
    · exact h.single e he
    · exact h'.single e he
  · intro e he
    rcases List.mem_append.mp he with he | he
    · exact h.unmapped e he
    · rw [← h.others e.1 (h'.single e he).1 (notOld e he), ← h.root]
      exact h'.unmapped e he
  · intro e he
    rw [← h.root]
    rcases List.mem_append.mp he with he | he
    · have hkey := h.mem_keys.mp (List.mem_map_of_mem he)
      rw [h'.others e.1 (h.single e he).1 (old e.1 hkey.1 hkey.2), h.root]
      exact h.word e he
    · exact h'.word e he
  · intro w hw hnot
    rw [List.map_append, List.mem_append, not_or] at hnot
    rw [← h.root, h'.others w hw hnot.2, h.root, h.others w hw hnot.1]
  · intro e he
    rcases List.mem_append.mp he with he | he
    · exact (h.zeroed e he).kept h'.kept (Multiset.mem_add.mpr
        (.inl (Multiset.mem_coe.mpr (List.mem_map_of_mem he))))
    · exact h'.zeroed e he

/-- One page is mapped exactly when it is free and its frame and tables fit. -/
theorem mapPage_spec (h : PageTable.Ok A.toFrameAllocator 256 s t rest) (hv : v < pages 256)
    (perm : r.perm < 2 ^ 10) :
    (∃ e s' t', r.mapPage A.toFrameAllocator s t v = some (.error e, s', t', r) ∧
      Filled A rest r.perm v s t s' t' [] ∧
      (Pte.isValid (leaf s.mem t.root v) = true ∨
        A.avail s < 1 + (missing s.mem t.root [v]).card)) ∨
    ∃ f s' t', r.mapPage A.toFrameAllocator s t v =
        some (.ok (v + 1), s', t', { r with frames := r.frames ++ [(v, f)] }) ∧
      Filled A rest r.perm v s t s' t' [(v, f)] ∧
      (∀ p, Owned 256 p →
        (node s'.mem t.root p = none ↔ node s.mem t.root p = none ∧ p ∉ tablesOf v)) ∧
      A.avail s' + (1 + (missing s.mem t.root [v]).card) = A.avail s := by
  rcases halloc : A.allocOrder s 0 with ⟨_ | f, s₁⟩
  · obtain rfl := A.alloc_none h.holds halloc
    refine .inl ⟨.outOfMemory, s₁, t, by simp only [mapPage, halloc],
      ⟨by simpa using h, rfl, .refl _ _, rfl, ?_,
      ?_, ?_, fun _ _ _ => rfl, by simp⟩, .inr ?_⟩
    · simp
    · simp
    · simp
    · rw [avail_eq_zero h.holds halloc]
      omega
  obtain ⟨order, holds, kept, zeroed⟩ := A.alloc_some h.holds halloc
  have hcount := A.alloc_avail h.holds halloc
  rw [Frame.count, order, Nat.pow_zero] at hcount
  have hppn := FrameAllocator.page_lt holds (Multiset.mem_cons_self _ _)
  have keptT : Kept t.frames s.mem s₁.mem := kept.mono (Multiset.le_add_right _ _)
  have keptR : Kept rest s.mem s₁.mem := kept.mono (Multiset.le_add_left _ _)
  have ok₁ : PageTable.Ok A.toFrameAllocator 256 s₁ t (f ::ₘ rest) :=
    ⟨by rw [Multiset.add_cons]; exact holds, h.tree.kept keptT⟩
  have hleaf : ∀ w, w < pages 256 → leaf s₁.mem t.root w = leaf s.mem t.root w :=
    fun w hw => h.tree.leaf_kept keptT hw
  have hnode : ∀ p, Owned 256 p → node s₁.mem t.root p = node s.mem t.root p :=
    fun p hp => h.tree.node_kept keptT hp
  have hmiss : missing s₁.mem t.root [v] = missing s.mem t.root [v] :=
    h.tree.missing_kept keptT (by simpa using hv)
  obtain ⟨res, s₂, t₂, heq, ok₂, root, kept₂, cases⟩ := map_spec ok₁ hv hppn perm
  have failed : ∀ e, res = .error e →
      (∀ w, w < pages 256 → leaf s₂.mem t.root w = leaf s₁.mem t.root w) →
      ∃ s', r.mapPage A.toFrameAllocator s t v = some (.error e, s', t₂, r) ∧
        Filled A rest r.perm v s t s' t₂ [] := by
    rintro e rfl same
    have holds₂ := ok₂.holds
    rw [Multiset.add_cons] at holds₂
    obtain ⟨s', hfree, holds', kept'⟩ := A.free_some holds₂
    have keptT' : Kept t₂.frames s₂.mem s'.mem := kept'.mono (Multiset.le_add_right _ _)
    refine ⟨s', by simp only [mapPage, halloc, heq, hfree, Option.map_some],
      ⟨by simpa using (⟨holds', ok₂.tree.kept keptT'⟩ : PageTable.Ok _ _ _ _ _), root, ?_, rfl,
        by simp, by simp, by simp, fun w hw _ => ?_, by simp⟩⟩
    · exact (keptR.trans (kept₂.mono (Multiset.le_cons_self _ _))).trans
        (kept'.mono (Multiset.le_add_left _ _))
    · rw [← root, ok₂.tree.leaf_kept keptT' hw, root, same w hw, hleaf w hw]
  rcases cases with ⟨rfl, hvalid, rfl, rfl⟩ | ⟨rfl, hvalid, same⟩ | ⟨rfl, hvalid, hnew⟩
  · obtain ⟨s', heq', filled⟩ := failed _ rfl fun _ _ => rfl
    exact .inl ⟨_, s', _, heq', filled, .inl (hleaf v hv ▸ hvalid)⟩
  · obtain ⟨s', heq', filled⟩ := failed _ rfl same
    refine .inl ⟨_, s', _, heq', filled, .inr ?_⟩
    rcases map_counted ok₁ hv hppn perm hvalid with ⟨low, -⟩ | ⟨_, _, hok, -⟩
    · rw [hmiss] at low
      omega
    · rw [heq] at hok
      cases hok
  · rcases map_counted ok₁ hv hppn perm hvalid with ⟨-, _, _, hbad⟩ | ⟨s₃, t₃, hok, made, cost⟩
    · rw [heq] at hbad
      cases hbad
    obtain ⟨rfl, rfl⟩ : s₂ = s₃ ∧ t₂ = t₃ := by simpa using heq.symm.trans hok
    refine .inr ⟨f, s₂, t₂, by simp only [mapPage, halloc, heq], ⟨by simpa using ok₂, root,
      keptR.trans (kept₂.mono (Multiset.le_cons_self _ _)), rfl, ?_, ?_, ?_, ?_, ?_⟩, ?_, ?_⟩
    · simpa using ⟨hv, order⟩
    · simpa using hleaf v hv ▸ hvalid
    · simpa using hnew v hv
    · intro w hw hnot
      have hne : w ≠ v := by simpa using hnot
      rw [hnew w hw, if_neg hne, hleaf w hw]
    · simpa using zeroed.kept kept₂ (Multiset.mem_cons_self f rest)
    · intro p hp
      rw [made p hp, hnode p hp]
    · rw [hmiss] at cost
      omega

/-- Anywhere in the tree, a free page is mapped to the next frame when three are left. -/
theorem mapPage_room {k : Nat} (h : PageTable.Ok A.toFrameAllocator k s t rest) (hv : v < pages k)
    (perm : r.perm < 2 ^ 10) (clear : Pte.isValid (leaf s.mem t.root v) = false)
    (room : 3 ≤ A.avail s) :
    ∃ f s₁ s' t', A.allocOrder s 0 = (some f, s₁) ∧
      r.mapPage A.toFrameAllocator s t v =
        some (.ok (v + 1), s', t', { r with frames := r.frames ++ [(v, f)] }) ∧
      PageTable.Ok A.toFrameAllocator k s' t' (f ::ₘ rest) ∧ t'.root = t.root ∧
      Kept rest s.mem s'.mem ∧ Zeroed f s'.mem ∧
      leaf s'.mem t.root v = Pte.new f.ppn (PteFlags.present r.perm) ∧
      A.avail s ≤ A.avail s' + 3 := by
  obtain ⟨f, s₁, halloc, hcount⟩ := CountedAllocator.alloc_one h.holds (by omega)
  obtain ⟨order, holds, kept, zeroed⟩ := A.alloc_some h.holds halloc
  have hppn := FrameAllocator.page_lt holds (Multiset.mem_cons_self _ _)
  have keptT : Kept t.frames s.mem s₁.mem := kept.mono (Multiset.le_add_right _ _)
  have ok₁ : PageTable.Ok A.toFrameAllocator k s₁ t (f ::ₘ rest) :=
    ⟨by rw [Multiset.add_cons]; exact holds, h.tree.kept keptT⟩
  have clear₁ : Pte.isValid (leaf s₁.mem t.root v) = false := by
    rw [h.tree.leaf_kept keptT hv]
    exact clear
  have hcost : (missing s₁.mem t.root [v]).card ≤ 2 := by
    rw [card_missing, tableCost, tableCost]
    split <;> split <;> decide
  rcases map_counted ok₁ hv hppn perm clear₁ with ⟨low, -⟩ | ⟨s₂, t₂, hmap, -, cost⟩
  · omega
  obtain ⟨_, _, _, heq, ok₂, root, kept₂, cases⟩ := map_spec ok₁ hv hppn perm
  obtain ⟨rfl, rfl, rfl⟩ : _ = _ ∧ _ = _ ∧ _ = _ := by simpa using heq.symm.trans hmap
  rcases cases with ⟨he, -⟩ | ⟨he, -⟩ | ⟨-, -, hnew⟩
  · cases he
  · cases he
  refine ⟨f, s₁, _, _, halloc, by simp only [mapPage, halloc, hmap], ok₂, root, ?_, ?_, ?_,
    by omega⟩
  · exact (kept.mono (Multiset.le_add_left _ _)).trans (kept₂.mono (Multiset.le_cons_self _ _))
  · exact zeroed.kept kept₂ (Multiset.mem_cons_self f rest)
  · rw [hnew v hv, if_pos rfl]

/-- All pages of the stretch are free, and there are frames for them and their tables. -/
def Fits (A : CountedAllocator σ) (s : Phys σ) (t : PageTable) (v n : Nat) : Prop :=
  (∀ w, v ≤ w → w < v + n → Pte.isValid (leaf s.mem t.root w) = false) ∧
    n + (missing s.mem t.root (List.range' v n)).card ≤ A.avail s

/-- Not even the first page can be mapped. -/
def Refused (A : CountedAllocator σ) (s : Phys σ) (t : PageTable) (v : Nat) : Prop :=
  Pte.isValid (leaf s.mem t.root v) = true ∨ A.avail s < 1 + (missing s.mem t.root [v]).card

theorem mapPage_ok {B : FrameAllocator σ} {w : Nat} {r' : Region}
    (heq : r.mapPage B s t v = some (.ok w, s', t', r')) :
    w = v + 1 ∧ ∃ f, r' = { r with frames := r.frames ++ [(v, f)] } := by
  unfold mapPage at heq
  rcases halloc : B.allocOrder s 0 with ⟨_ | f, s₁⟩ <;> simp only [halloc] at heq
  · cases heq
  · rcases hmap : PageTable.map B s₁ t v f.ppn r.perm with ⟨e | ⟨⟩, s₂, t₂⟩ <;>
      simp only [hmap] at heq
    · obtain ⟨_, -, heq⟩ := Option.map_eq_some_iff.mp heq
      cases heq
    · cases heq
      exact ⟨rfl, f, rfl⟩

theorem mapFrom_succ (framed : r.backing = .framed) (hlt : v < pageNum r.end_) :
    mapFrom A.toFrameAllocator (n + 1) s t r v =
      match r.mapPage A.toFrameAllocator s t v with
      | none => none
      | some (.error e, s, t, r) => some (.error e, s, t, r)
      | some (.ok vpn, s, t, r) => mapFrom A.toFrameAllocator n s t r vpn := by
  rw [mapFrom, if_neg (Nat.not_le.mpr hlt)]
  obtain ⟨start, last, backing, perm, frames⟩ := r
  obtain rfl : backing = .framed := framed
  rfl

/-- Of the tables there were not, those on the way to `vs` are there now. -/
def Made (m m' : Mem) (root : Nat) (vs : List Nat) : Prop :=
  ∀ p, Owned 256 p → (node m' root p = none ↔ node m root p = none ∧ ∀ v ∈ vs, p ∉ tablesOf v)

theorem mapInto_one {r' : Region} (framed : r.backing = .framed) (start : pageNum r.start = v)
    (last : pageNum r.end_ = v + 1)
    (hmap : r.mapPage A.toFrameAllocator s t v = some (.ok (v + 1), s', t', r')) :
    r.mapInto A.toFrameAllocator s t = some (.ok (), s', t', r') := by
  have hcount : r.pageCount = 0 + 1 := by
    rw [pageCount]
    omega
  rw [mapInto, hcount, start, mapFrom_succ framed (by omega), hmap]
  rfl

/-- `map_into` stops after `new`, either done or at a page it cannot map. -/
theorem mapFrom_spec (h : PageTable.Ok A.toFrameAllocator 256 s t rest)
    (framed : r.backing = .framed)
    (perm : r.perm < 2 ^ 10) (below : pageNum r.end_ ≤ pages 256) (hn : n = pageNum r.end_ - v) :
    ∃ res s' t' new, mapFrom A.toFrameAllocator n s t r v =
        some (res, s', t', { r with frames := r.frames ++ new }) ∧
      Filled A rest r.perm v s t s' t' new ∧
      new.length + (missing s.mem t.root (List.range' v new.length)).card ≤ A.avail s ∧
      ((res = .ok () ∧ new.length = n ∧
        A.avail s' + (n + (missing s.mem t.root (List.range' v n)).card) = A.avail s ∧
        Made s.mem s'.mem t.root (List.range' v n)) ∨
       ∃ e, res = .error e ∧ new.length < n ∧
        (Pte.isValid (leaf s.mem t.root (v + new.length)) = true ∨ A.avail s <
          new.length + 1 + (missing s.mem t.root (List.range' v (new.length + 1))).card)) := by
  induction n generalizing s t r v rest with
  | zero =>
    refine ⟨.ok (), s, t, [], by simp [mapFrom], ⟨by simpa using h, rfl, .refl _ _, rfl, by simp,
      by simp, by simp, fun _ _ _ => rfl, by simp⟩, by simp,
      .inl ⟨rfl, rfl, by simp, by simp [Made]⟩⟩
  | succ n ih =>
    have hv : v < pages 256 := by omega
    rcases mapPage_spec h hv perm with ⟨e, s', t', heq, filled, refused⟩ |
      ⟨f, s₁, t₁, heq, filled, made, cost⟩
    · refine ⟨.error e, s', t', [], ?_, filled, by simp, .inr ⟨e, rfl, Nat.succ_pos n, ?_⟩⟩
      · rw [mapFrom_succ framed (by omega), heq, List.append_nil]
      · simpa using refused
    obtain ⟨res, s', t', new, heq', filled', room, out⟩ :=
      ih (r := { r with frames := r.frames ++ [(v, f)] }) (v := v + 1) filled.ok framed perm below
        (show n = pageNum r.end_ - (v + 1) by omega)
    have hlen : new.length ≤ n := by
      rcases out with ⟨-, hlen, -⟩ | ⟨-, -, hlen, -⟩ <;> omega
    rw [filled.root] at room out
    have all := filled.trans filled'
    have split : ∀ k, k ≤ n → (missing s.mem t.root (List.range' v (k + 1))).card =
        (missing s.mem t.root [v]).card + (missing s₁.mem t.root (List.range' (v + 1) k)).card := by
      intro k hk
      rw [List.range'_succ, ← List.singleton_append]
      refine card_missing_append h.tree.width (fun w hw => ?_) (by simpa using made)
      have := List.mem_range'_1.mp hw
      omega
    refine ⟨res, s', t', (v, f) :: new, ?_, all, ?_, ?_⟩
    · rw [mapFrom_succ framed (by omega), heq]
      simpa only [List.append_assoc, List.singleton_append] using heq'
    · rw [List.length_cons, split _ hlen]
      omega
    · rcases out with ⟨rfl, hlen', cost', made'⟩ | ⟨e, rfl, hlt, stop⟩
      · refine .inl ⟨rfl, by rw [List.length_cons, hlen'], ?_, fun p hp => ?_⟩
        · rw [split n (Nat.le_refl n)]
          omega
        · rw [made' p hp, made p hp, List.range'_succ]
          simp [and_assoc]
      · refine .inr ⟨e, rfl, by rw [List.length_cons]; omega, ?_⟩
        rw [List.length_cons, split (new.length + 1) (by omega)]
        rcases stop with taken | low
        · left
          rw [show v + (new.length + 1) = v + 1 + new.length by omega]
          rwa [filled.others _ (by omega) (by simp; omega)] at taken
        · right
          omega

/-- A region is mapped exactly when it fits; one that does not fit leaves nothing
mapped exactly when its first page is refused. -/
theorem mapInto_spec (h : PageTable.Ok A.toFrameAllocator 256 s t rest)
    (framed : r.backing = .framed) (perm : r.perm < 2 ^ 10) (below : pageNum r.end_ ≤ pages 256)
    (empty : r.frames = []) :
    ∃ res s' t' new, r.mapInto A.toFrameAllocator s t =
      some (res, s', t', { r with frames := new }) ∧
      Filled A rest r.perm (pageNum r.start) s t s' t' new ∧
      ((res = .ok () ∧ Fits A s t (pageNum r.start) r.pageCount ∧ new.length = r.pageCount ∧
        A.avail s' + (r.pageCount +
          (missing s.mem t.root (List.range' (pageNum r.start) r.pageCount)).card) = A.avail s ∧
        Made s.mem s'.mem t.root (List.range' (pageNum r.start) r.pageCount)) ∨
       ∃ e, res = .error e ∧ ¬ Fits A s t (pageNum r.start) r.pageCount ∧
        (new = [] ↔ Refused A s t (pageNum r.start))) := by
  obtain ⟨res, s', t', new, heq, filled, room, out⟩ :=
    mapFrom_spec (n := r.pageCount) h framed perm below rfl
  rw [empty, List.nil_append] at heq
  refine ⟨res, s', t', new, heq, filled, ?_⟩
  have free : ∀ w, pageNum r.start ≤ w → w < pageNum r.start + new.length →
      Pte.isValid (leaf s.mem t.root w) = false := by
    intro w lo hi
    obtain ⟨e, he, rfl⟩ := List.mem_map.mp (filled.mem_keys.mpr ⟨lo, hi⟩)
    exact filled.unmapped e he
  rcases out with ⟨rfl, hlen, cost, made⟩ | ⟨e, rfl, hlt, stop⟩
  · refine .inl ⟨rfl, ⟨?_, by omega⟩, hlen, cost, made⟩
    rw [← hlen]
    exact free
  refine .inr ⟨e, rfl, ?_, ?_, ?_⟩
  · rintro ⟨unmapped, fits⟩
    rcases stop with taken | low
    · rw [unmapped _ (by omega) (by omega)] at taken
      cases taken
    · have := Finset.card_le_card (missing_mono s.mem t.root
        (List.range'_subset_right_1.mpr (show new.length + 1 ≤ r.pageCount by omega)
          : List.range' (pageNum r.start) (new.length + 1) ⊆ _))
      omega
  · rintro rfl
    simpa [Refused, Nat.add_comm] using stop
  · rintro (taken | low)
    · by_contra hne
      rw [free _ (Nat.le_refl _) (by have := List.length_pos_iff.mpr hne; omega)] at taken
      cases taken
    · by_contra hne
      have hpos := List.length_pos_iff.mpr hne
      have := Finset.card_le_card (missing_mono s.mem t.root
        (show [pageNum r.start] ⊆ List.range' (pageNum r.start) new.length by
          simp [List.mem_range'_1, hpos]))
      omega

/-- None of the pages is mapped, none comes twice, and there are frames for all of
them and for their tables. -/
structure Room (A : CountedAllocator σ) (s : Phys σ) (t : PageTable) (vs : List Nat) : Prop where
  nodup : vs.Nodup
  unmapped : ∀ v ∈ vs, Pte.isValid (leaf s.mem t.root v) = false
  frames : vs.length + (missing s.mem t.root vs).card ≤ A.avail s

theorem fits_iff : Fits A s t v n ↔ Room A s t (List.range' v n) := by
  constructor
  · rintro ⟨unmapped, frames⟩
    refine ⟨List.nodup_range', fun w hw => ?_, by rwa [List.length_range']⟩
    obtain ⟨lo, hi⟩ := List.mem_range'_1.mp hw
    exact unmapped w lo hi
  · rintro ⟨-, unmapped, frames⟩
    rw [List.length_range'] at frames
    exact ⟨fun w lo hi => unmapped w (List.mem_range'_1.mpr ⟨lo, hi⟩), frames⟩

theorem Room.avail {vs : List Nat} (h : Room A s t vs) : vs.length ≤ A.avail s :=
  (Nat.le_add_right _ _).trans h.frames

/-- A page that is not mapped needs three frames at most. -/
theorem Room.one (unmapped : Pte.isValid (leaf s.mem t.root v) = false) (frames : 3 ≤ A.avail s) :
    Room A s t [v] := by
  have := card_missing_le s.mem t.root v
  exact ⟨List.nodup_singleton v, by simpa using unmapped, by rw [List.length_singleton]; omega⟩

theorem Room.left {us vs : List Nat} (h : Room A s t (us ++ vs)) : Room A s t us := by
  refine ⟨h.nodup.of_append_left, fun v hv => h.unmapped v (List.mem_append_left vs hv), ?_⟩
  have := h.frames
  have := Finset.card_le_card (missing_mono s.mem t.root (List.subset_append_left us vs))
  rw [List.length_append] at *
  omega

theorem Room.kept {vs : List Nat} (h : Room A s t vs) (tree : Tree 256 s.mem t.root t.frames)
    (kept : Kept t.frames s.mem s'.mem) (havail : A.avail s ≤ A.avail s')
    (low : ∀ v ∈ vs, v < pages 256) : Room A s' t vs := by
  obtain ⟨nodup, unmapped, frames⟩ := h
  refine ⟨nodup, fun v hv => (tree.leaf_kept kept (low v hv)).symm ▸ unmapped v hv, ?_⟩
  rw [tree.missing_kept kept low]
  omega

theorem room_kept {vs : List Nat} (tree : Tree 256 s.mem t.root t.frames)
    (kept : Kept t.frames s.mem s'.mem) (havail : A.avail s' = A.avail s)
    (low : ∀ v ∈ vs, v < pages 256) : Room A s' t vs ↔ Room A s t vs := by
  have hmiss := tree.missing_kept kept low
  constructor
  · rintro ⟨nodup, unmapped, frames⟩
    exact ⟨nodup, fun v hv => tree.leaf_kept kept (low v hv) ▸ unmapped v hv,
      by rwa [← hmiss, ← havail]⟩
  · intro room
    exact room.kept tree kept havail.ge low

/-- What was mapped took just its share of the room. -/
theorem Filled.room {perm : Nat} {vs : List Nat} (h : Filled A rest perm v s t s' t' new)
    (hperm : perm < 2 ^ 10) (room : Room A s t (List.range' v new.length))
    (made : Made s.mem s'.mem t.root (List.range' v new.length))
    (cost : A.avail s' + (new.length + (missing s.mem t.root (List.range' v new.length)).card) =
      A.avail s) (low : ∀ w ∈ vs, w < pages 256) :
    Room A s t (List.range' v new.length ++ vs) ↔ Room A s' t' vs := by
  have hcard := card_missing_append (show 256 ≤ 512 by decide) low made
  have hkeys := h.keys
  constructor
  · rintro ⟨nodup, unmapped, frames⟩
    obtain ⟨-, nodup, apart⟩ := List.nodup_append.mp nodup
    refine ⟨nodup, fun w hw => ?_, ?_⟩
    · rw [h.root, h.others w (low w hw) (by rw [hkeys]; exact fun hk => apart w hk w hw rfl)]
      exact unmapped w (List.mem_append_right _ hw)
    · rw [List.length_append, List.length_range', hcard] at frames
      rw [h.root]
      omega
  · rintro ⟨nodup, unmapped, frames⟩
    have apart : ∀ w ∈ vs, w ∉ new.map Prod.fst := by
      intro w hw hk
      obtain ⟨e, he, rfl⟩ := List.mem_map.mp hk
      have hfree := unmapped e.1 hw
      have hppn := FrameAllocator.page_lt h.ok.holds (Multiset.mem_add.mpr (.inr
        (Multiset.mem_add.mpr (.inl (Multiset.mem_coe.mpr (List.mem_map_of_mem he))))))
      rw [h.root, h.word e he, (Pte.isValid_new hppn (PteFlags.present_lt hperm)).mpr
        (PteFlags.present_odd _)] at hfree
      cases hfree
    refine ⟨List.nodup_append.mpr ⟨room.nodup, nodup, fun w hk u hu e => ?_⟩, fun w hw => ?_, ?_⟩
    · rw [← hkeys] at hk
      exact apart u hu (e ▸ hk)
    · rcases List.mem_append.mp hw with hk | hw
      · exact room.unmapped w hk
      · rw [← h.others w (low w hw) (apart w hw), ← h.root]
        exact unmapped w hw
    · rw [List.length_append, List.length_range', hcard]
      rw [h.root] at frames
      omega

/-! ## The list of table frames only grows -/

section
variable {A : FrameAllocator σ} {r' : Region}

theorem mapPage_frames {res : Except MapError Nat}
    (heq : r.mapPage A s t v = some (res, s', t', r')) : t.frames <+: t'.frames := by
  unfold mapPage at heq
  rcases halloc : A.allocOrder s 0 with ⟨_ | f, s₁⟩ <;> simp only [halloc] at heq
  · cases heq
    exact List.prefix_rfl
  · have step : t.frames <+: (PageTable.map A s₁ t v f.ppn r.perm).2.2.frames :=
      PageTable.mapAt_frames ..
    rcases hmap : PageTable.map A s₁ t v f.ppn r.perm with ⟨e | u, s₂, t₂⟩ <;>
      rw [hmap] at step <;> simp only [hmap] at heq
    · obtain ⟨_, -, heq⟩ := Option.map_eq_some_iff.mp heq
      cases heq
      exact step
    · cases heq
      exact step

theorem mapLinear_frames {res : Except MapError Nat}
    (heq : r.mapLinear A s t v = some (res, s', t', r')) : t.frames <+: t'.frames := by
  unfold mapLinear at heq
  split at heq
  · cases heq
  dsimp only at heq
  split at heq
  · obtain ⟨_, hmap, heq⟩ := Option.map_eq_some_iff.mp heq
    cases heq
    unfold PageTable.mapAtLevel at hmap
    split at hmap
    · have step := PageTable.mapAt_frames A s t v (v - pageNum virtOffset) r.perm 1
      rw [Option.some.inj hmap] at step
      exact step
    · cases hmap
  · cases heq
    exact PageTable.mapAt_frames ..

theorem mapFrom_frames {turns : Nat} {res : Except MapError Unit}
    (heq : mapFrom A turns s t r v = some (res, s', t', r')) : t.frames <+: t'.frames := by
  induction turns generalizing s t r v with
  | zero =>
    cases heq
    exact List.prefix_rfl
  | succ turns ih =>
    unfold mapFrom at heq
    split at heq
    · cases heq
      exact List.prefix_rfl
    rcases hback : r.backing with _ | _
    · simp only [hback] at heq
      rcases h : mapLinear A s t r v with _ | ⟨e | u, s₁, t₁, r₁⟩
      all_goals rw [h] at heq
      · cases heq
      · cases heq
        exact mapLinear_frames h
      · exact (mapLinear_frames h).trans (ih heq)
    · simp only [hback] at heq
      rcases h : mapPage A s t r v with _ | ⟨e | u, s₁, t₁, r₁⟩
      all_goals rw [h] at heq
      · cases heq
      · cases heq
        exact mapPage_frames h
      · exact (mapPage_frames h).trans (ih heq)

end

end Region

end AlexOS
