import AlexOS.Mm.SpaceLife

/-!
# What user memory holds

The bytes behind the pages of a region and of an exact space: which of them
`write_data` and the copying of `duplicate` change, and to what.
-/

namespace AlexOS

open Bytes PageTable

variable {σ : Type} {A : CountedAllocator σ} {s s' : Phys σ} {m m' : Mem} {r : Region}
  {sp : AddressSpace} {rest live : Multiset Frame} {f : Frame} {es : List (Nat × Frame)}
  {e e' : Nat × Frame} {v k : Nat}

theorem forall₂_mem_left {α β : Type} {R : α → β → Prop} {as : List α} {bs : List β} {a : α}
    (h : List.Forall₂ R as bs) (ha : a ∈ as) : ∃ b ∈ bs, R a b := by
  induction h with
  | nil => cases ha
  | cons h _ ih =>
    rcases List.mem_cons.mp ha with rfl | ha
    · exact ⟨_, List.mem_cons_self, h⟩
    · obtain ⟨b, hb, hab⟩ := ih ha
      exact ⟨b, List.mem_cons_of_mem _ hb, hab⟩

theorem forall₂_mem_right {α β : Type} {R : α → β → Prop} {as : List α} {bs : List β} {b : β}
    (h : List.Forall₂ R as bs) (hb : b ∈ bs) : ∃ a ∈ as, R a b :=
  forall₂_mem_left h.flip hb

/-! ## Pages -/

def pageByte (m : Mem) (f : Frame) (k : Nat) : UInt8 := m (baseAddr f.ppn + k)

theorem pageNum_add (p : Nat) (hk : k < pageSize) : pageNum (baseAddr p + k) = p := by
  simp only [pageNum, baseAddr, pageSize] at *
  omega

theorem pageByte_kept (kept : Kept live m m') (hf : f ∈ live) (hk : k < pageSize) :
    pageByte m' f k = pageByte m f k := by
  have hp := pageNum_add f.ppn hk
  refine kept _ (framesOver_of_mem hf (Nat.le_of_eq hp.symm) ?_)
  rw [hp]
  exact Nat.lt_add_of_pos_right (Nat.two_pow_pos _)

theorem pageByte_zeroed (h : Zeroed f m) (hk : k < pageSize) : pageByte m f k = 0 := by
  have hp := pageNum_add f.ppn hk
  refine h _ (Nat.le_of_eq hp.symm) ?_
  rw [hp]
  exact Nat.lt_add_of_pos_right (Nat.two_pow_pos _)

theorem pageByte_write {q off : Nat} {bs : List UInt8} (fits : off + bs.length ≤ pageSize)
    (hk : k < pageSize) : pageByte (writeBytes m (baseAddr q + off) bs) f k =
      if f.ppn = q ∧ off ≤ k ∧ k < off + bs.length then bs.getD (k - off) 0
      else pageByte m f k := by
  simp only [pageByte, writeBytes]
  by_cases h : f.ppn = q ∧ off ≤ k ∧ k < off + bs.length
  · obtain ⟨rfl, lo, hi⟩ := h
    rw [if_pos (by omega), if_pos ⟨rfl, lo, hi⟩]
    congr 1
    omega
  · rw [if_neg h, if_neg]
    simp only [baseAddr, pageSize] at *
    omega

/-- Pages held once have frames of their own. -/
theorem page_unique (apart : ∀ p, framesOver (es.map Prod.snd : List Frame) p ≤ 1) (he : e ∈ es)
    (he' : e' ∈ es) (same : e.2.ppn = e'.2.ppn) : e = e' := by
  have hpair := List.pairwise_map.mp (frames_pairwise apart)
  by_contra hne
  have : Std.Symm fun a b : Nat × Frame =>
      a.2.ppn + a.2.count ≤ b.2.ppn ∨ b.2.ppn + b.2.count ≤ a.2.ppn := ⟨fun _ _ h => h.symm⟩
  have := hpair.forall he he' hne
  have : 0 < e.2.count := Nat.two_pow_pos _
  have : 0 < e'.2.count := Nat.two_pow_pos _
  omega

theorem lookup_of_mem (nodup : (es.map Prod.fst).Nodup) (he : (v, f) ∈ es) :
    es.lookup v = some f := by
  induction es with
  | nil => cases he
  | cons d es ih =>
    obtain ⟨w, g⟩ := d
    rw [List.map_cons, List.nodup_cons] at nodup
    rcases List.mem_cons.mp he with h | he
    · obtain ⟨rfl, rfl⟩ := Prod.mk.inj h
      exact List.lookup_cons_self
    · have hne : v ≠ w := fun h => nodup.1 (List.mem_map.mpr ⟨_, he, h⟩)
      rw [List.lookup_cons, beq_eq_false_iff_ne.mpr hne]
      exact ih nodup.2 he

theorem lookup_of_key (hv : v ∈ es.map Prod.fst) : ∃ f, es.lookup v = some f := by
  cases h : es.lookup v with
  | some f => exact ⟨f, rfl⟩
  | none =>
    obtain ⟨e, he, rfl⟩ := List.mem_map.mp hv
    have := List.lookup_eq_none_iff.mp h e he
    simp at this

/-! ## Regions -/

/-- Every page of the region has its frame. -/
structure Region.Whole (r : Region) : Prop where
  start_aligned : r.start % pageSize = 0
  end_aligned : r.end_ % pageSize = 0
  keys : r.frames.map Prod.fst = List.range' (pageNum r.start) r.pageCount

theorem Region.Whole.mem_keys (w : r.Whole) :
    v ∈ r.frames.map Prod.fst ↔ pageNum r.start ≤ v ∧ v < pageNum r.end_ := by
  rw [w.keys, List.mem_range'_1, Region.pageCount]
  omega

theorem Region.Whole.nodup (w : r.Whole) : (r.frames.map Prod.fst).Nodup := by
  rw [w.keys]
  exact List.nodup_range'

/-- `write_data` stores the bytes at their offset from the region's start, and
leaves every other byte of the region. -/
theorem writeFrom_bytes (w : r.Whole) (apart : ∀ p, framesOver r.owned p ≤ 1) {turns pos : Nat}
    {data : List UInt8} (fits : r.start + pos + data.length ≤ r.end_)
    (enough : data.length ≤ turns) :
    ∃ m', r.writeFrom turns m pos data = some m' ∧ ∀ e ∈ r.frames, ∀ k < pageSize,
      pageByte m' e.2 k =
        if r.start + pos ≤ baseAddr e.1 + k ∧ baseAddr e.1 + k < r.start + pos + data.length
        then data.getD (baseAddr e.1 + k - (r.start + pos)) 0 else pageByte m e.2 k := by
  induction turns generalizing m pos data with
  | zero =>
    obtain rfl := List.length_eq_zero_iff.mp (Nat.le_zero.mp enough)
    refine ⟨m, rfl, fun e _ k _ => ?_⟩
    rw [if_neg (by simp)]
  | succ turns ih =>
    rw [Region.writeFrom]
    by_cases hdata : data = []
    · subst hdata
      refine ⟨m, if_pos rfl, fun e _ k _ => ?_⟩
      rw [if_neg (by simp)]
    rw [if_neg hdata]
    have hpos := List.length_pos_iff.mpr hdata
    have hkey : pageNum (r.start + pos) ∈ r.frames.map Prod.fst := by
      have := w.end_aligned
      rw [w.mem_keys]
      simp only [pageNum, pageSize] at *
      omega
    obtain ⟨f, hf⟩ := lookup_of_key hkey
    have hmem := mem_of_lookup hf
    have hstart := w.start_aligned
    obtain ⟨n, hn⟩ : ∃ n, n = min (pageSize - pos % pageSize) data.length := ⟨_, rfl⟩
    have hoff : pos % pageSize < pageSize := Nat.mod_lt _ (by decide)
    have hlen : (data.take n).length = n := by rw [List.length_take]; omega
    obtain ⟨m', heq, hbytes⟩ := ih
      (m := writeBytes m (baseAddr f.ppn + pos % pageSize) (data.take n))
      (show r.start + (pos + n) + (data.drop n).length ≤ r.end_ by rw [List.length_drop]; omega)
      (by rw [List.length_drop]; omega)
    refine ⟨m', ?_, fun e he k hk => ?_⟩
    · simp only [hf, Option.bind_eq_bind, Option.bind_some, ← hn, heq]
    rw [hbytes e he k hk, pageByte_write (by rw [hlen]; omega) hk, hlen, List.length_drop]
    have same : e.2.ppn = f.ppn ↔ e.1 = pageNum (r.start + pos) := by
      constructor
      · intro h
        rw [page_unique apart he hmem h]
      · intro h
        have := lookup_of_mem w.nodup (show (pageNum (r.start + pos), e.2) ∈ r.frames from h ▸ he)
        rw [Option.some.inj (this.symm.trans hf)]
    have hpage : e.2.ppn = f.ppn ∧ pos % pageSize ≤ k ∧ k < pos % pageSize + n ↔
        r.start + pos ≤ baseAddr e.1 + k ∧ baseAddr e.1 + k < r.start + pos + n := by
      rw [same]
      simp only [pageNum, baseAddr, pageSize] at *
      omega
    by_cases h : r.start + pos ≤ baseAddr e.1 + k ∧ baseAddr e.1 + k < r.start + pos + n
    · have hk' := hpage.mpr h
      rw [if_neg (by omega), if_pos hk', if_pos (by omega)]
      have : k - pos % pageSize = baseAddr e.1 + k - (r.start + pos) := by
        have := same.mp hk'.1
        simp only [pageNum, baseAddr, pageSize] at *
        omega
      simp only [List.getD_eq_getElem?_getD, this]
      rw [List.getElem?_take_of_lt (by omega)]
    · rw [if_neg (hpage.not.mpr h)]
      by_cases h' : r.start + (pos + n) ≤ baseAddr e.1 + k ∧
          baseAddr e.1 + k < r.start + (pos + n) + (data.length - n)
      · rw [if_pos h', if_pos (by omega)]
        simp only [List.getD_eq_getElem?_getD, List.getElem?_drop]
        congr 2
        omega
      · rw [if_neg h', if_neg (by omega)]

/-! ## Copying pages -/

theorem readBytes_getD (m : Mem) (a : Nat) {n k : Nat} (hk : k < n) :
    (readBytes m a n).getD k 0 = m (a + k) := by
  simp [readBytes, List.getD_eq_getElem?_getD, hk]

/-- The pages `ds` have the numbers and the bytes of `es`. -/
def SamePages (m : Mem) (es ds : List (Nat × Frame)) : Prop :=
  List.Forall₂ (fun e d => d.1 = e.1 ∧ ∀ k < pageSize, pageByte m d.2 k = pageByte m e.2 k) es ds

theorem SamePages.kept {ds : List (Nat × Frame)} (h : SamePages m es ds)
    (kept : Kept ((es.map Prod.snd : List Frame) + (ds.map Prod.snd : List Frame)) m m') :
    SamePages m' es ds := by
  induction h with
  | nil => exact .nil
  | @cons e d es ds h _ ih =>
    have held : e.2 ∈ (((e :: es).map Prod.snd : List Frame) : Multiset Frame) +
        ((d :: ds).map Prod.snd : List Frame) := by simp
    have held' : d.2 ∈ (((e :: es).map Prod.snd : List Frame) : Multiset Frame) +
        ((d :: ds).map Prod.snd : List Frame) := by simp
    refine .cons ⟨h.1, fun k hk => ?_⟩ (ih (kept.mono ?_))
    · rw [pageByte_kept kept held hk, pageByte_kept kept held' hk, h.2 k hk]
    · exact add_le_add (Multiset.coe_le.mpr (List.sublist_cons_self _ _).subperm)
        (Multiset.coe_le.mpr (List.sublist_cons_self _ _).subperm)

/-- From some page on: the frames `done` are those already copied to. -/
theorem copyFrames_from (done : List (Nat × Frame)) {ds es : List (Nat × Frame)}
    (keys : ds.map Prod.fst = es.map Prod.fst)
    (nodup : ((done ++ ds).map Prod.fst).Nodup)
    (apart : ∀ p, framesOver ((ds.map Prod.snd : List Frame) +
      (es.map Prod.snd : List Frame)) p ≤ 1)
    (single : ∀ d ∈ ds, d.2.order = 0) :
    ∃ m', AddressSpace.copyFrames (done ++ ds) m es = some m' ∧ SamePages m' es ds ∧
      WritesIn (ds.map Prod.snd : List Frame) m m' := by
  induction es generalizing done ds m with
  | nil =>
    obtain rfl : ds = [] := by simpa using keys
    exact ⟨m, rfl, .nil, .refl _ _⟩
  | cons e es ih =>
    obtain ⟨v, f⟩ := e
    obtain _ | ⟨⟨w, g⟩, ds⟩ := ds
    · simp at keys
    obtain ⟨rfl, keys'⟩ : w = v ∧ ds.map Prod.fst = es.map Prod.fst := by simpa using keys
    have hlook : (done ++ (w, g) :: ds).lookup w = some g :=
      lookup_of_mem nodup (List.mem_append_right _ List.mem_cons_self)
    have hone : ∀ p, Blocks.cover g.order g.ppn p + framesOver (ds.map Prod.snd : List Frame) p +
        (Blocks.cover f.order f.ppn p + framesOver (es.map Prod.snd : List Frame) p) ≤ 1 := by
      intro p
      have := apart p
      simpa only [List.map_cons, ← Multiset.cons_coe, framesOver_add, framesOver_cons] using this
    have horder : g.order = 0 := single (w, g) List.mem_cons_self
    obtain ⟨m', heq, same, writes⟩ := ih (done ++ [(w, g)])
      (m := writeBytes m (baseAddr g.ppn) (readBytes m (baseAddr f.ppn) pageSize)) keys'
      (show ((done ++ [(w, g)] ++ ds).map Prod.fst).Nodup by simpa using nodup)
      (fun p => by have := hone p; rw [framesOver_add]; omega)
      (fun d hd => single d (List.mem_cons_of_mem _ hd))
    have kept : Kept (f ::ₘ {g}) (writeBytes m (baseAddr g.ppn)
        (readBytes m (baseAddr f.ppn) pageSize)) m' :=
      writes.kept fun p => by
        have := hone p
        have : framesOver {g} p = Blocks.cover g.order g.ppn p := by simp [framesOver]
        rw [framesOver_add, framesOver_cons]
        omega
    have copied : ∀ h : Frame, ∀ k < pageSize,
        pageByte (writeBytes m (baseAddr g.ppn) (readBytes m (baseAddr f.ppn) pageSize)) h k =
          if h.ppn = g.ppn then pageByte m f k else pageByte m h k := by
      intro h k hk
      have hwrite := pageByte_write (m := m) (f := h) (q := g.ppn)
        (show 0 + (readBytes m (baseAddr f.ppn) pageSize).length ≤ pageSize by simp) hk
      rw [Nat.add_zero] at hwrite
      rw [hwrite, length_readBytes, Nat.sub_zero, readBytes_getD m _ hk]
      simp [hk, pageByte]
    refine ⟨m', ?_, .cons ⟨rfl, fun k hk => ?_⟩ same, ?_⟩
    · rw [AddressSpace.copyFrames, hlook]
      simpa using heq
    · rw [pageByte_kept kept (by simp) hk, pageByte_kept kept (by simp) hk,
        copied g k hk, if_pos rfl,
        copied f k hk, if_neg]
      intro e
      have := hone g.ppn
      rw [Blocks.cover_self, ← e, Blocks.cover_self] at this
      omega
    · have held : (⟨g.ppn, 0⟩ : Frame) ∈ ((((w, g) :: ds).map Prod.snd : List Frame) :
          Multiset Frame) := by
        rw [← horder]
        exact List.mem_cons_self
      have first := WritesIn.bytes m held
        (show 0 + (readBytes m (baseAddr f.ppn) pageSize).length ≤ pageSize by simp)
      rw [Nat.add_zero] at first
      exact first.trans (writes.mono (Multiset.coe_le.mpr (List.sublist_cons_self _ _).subperm))

theorem copyFrames_pages {ds : List (Nat × Frame)} (keys : ds.map Prod.fst = es.map Prod.fst)
    (nodup : (ds.map Prod.fst).Nodup)
    (apart : ∀ p, framesOver ((ds.map Prod.snd : List Frame) +
      (es.map Prod.snd : List Frame)) p ≤ 1)
    (single : ∀ d ∈ ds, d.2.order = 0) :
    ∃ m', AddressSpace.copyFrames ds m es = some m' ∧ SamePages m' es ds := by
  obtain ⟨m', heq, same, -⟩ := copyFrames_from (m := m) [] keys nodup apart single
  exact ⟨m', heq, same⟩

/-! ## Spaces -/

namespace AddressSpace

/-- The byte a space has at an address. -/
def byteAt (m : Mem) (sp : AddressSpace) (va : Nat) : Option UInt8 :=
  (translateAddr m sp.table va).map m

theorem Exact.translate_page (h : Exact m sp) (hr : r ∈ sp.regions) (he : (v, f) ∈ r.frames) :
    translate m sp.table v = some (Pte.new f.ppn (PteFlags.present r.perm)) := by
  have u := h.regions r hr
  obtain ⟨hlow, -, hppn⟩ := u.single _ he
  have hword : leaf m sp.table.root v = Pte.new f.ppn (PteFlags.present r.perm) :=
    h.word r hr (v, f) he
  have hvalid : Pte.isValid (leaf m sp.table.root v) = true := by
    rw [hword]
    exact (Pte.isValid_new hppn (PteFlags.present_lt u.perm)).mpr (PteFlags.present_odd _)
  rw [translate_eq h.tree hlow, if_pos hvalid, hword]

theorem Exact.translate_none (h : Exact m sp) (hv : v < pages 256)
    (free : ∀ r ∈ sp.regions, v ∉ r.frames.map Prod.fst) : translate m sp.table v = none := by
  rw [translate_eq h.tree hv, if_neg]
  intro hvalid
  obtain ⟨r, hr, f, hf⟩ := h.owner v hv hvalid
  exact free r hr (List.mem_map_of_mem hf)

theorem Exact.byteAt_page (h : Exact m sp) (hr : r ∈ sp.regions) {va : Nat}
    (he : (pageNum va, f) ∈ r.frames) : byteAt m sp va = some (pageByte m f (pageOffset va)) := by
  have u := h.regions r hr
  obtain ⟨-, -, hppn⟩ := u.single _ he
  rw [byteAt, translateAddr, h.translate_page hr he, Option.map_some, Option.map_some,
    Pte.ppn_new hppn (PteFlags.present_lt u.perm)]
  rfl

theorem Exact.byteAt_none (h : Exact m sp) {va : Nat} (hva : va < userMaxAddr)
    (free : ∀ r ∈ sp.regions, pageNum va ∉ r.frames.map Prod.fst) : byteAt m sp va = none := by
  rw [byteAt, translateAddr, h.translate_none (pageNum_low hva) free]
  rfl

/-! ## A region with contents -/

/-- A region is pushed with its data exactly when there is room for its pages: the
data at the offset, zeros around it, and nothing else changed. -/
theorem pushWithOffset_room {offset : Nat} {data : List UInt8}
    (holds : A.Holds s (sp.frames + rest)) (h : Exact s.mem sp) (u : r.User) (empty : r.frames = [])
    (hstart : r.start % pageSize = 0) (hend : r.end_ % pageSize = 0)
    (fits : r.start + offset + data.length ≤ r.end_) :
    ∃ res s' sp', pushWithOffset A.toFrameAllocator s sp r offset data = some (res, s', sp') ∧
      A.Holds s' (sp'.frames + rest) ∧ Formed s'.mem sp' ∧
      ((res = .ok () ∧ Region.Room A s sp.table (List.range' (pageNum r.start) r.pageCount) ∧
        Exact s'.mem sp' ∧ Kept sp.owned s.mem s'.mem ∧
        (∃ c : Region, sp'.regions = sp.regions ++ [c] ∧ c.Whole ∧ c.perm = r.perm ∧
          c.start = r.start ∧ c.end_ = r.end_ ∧ ∀ e ∈ c.frames, ∀ k < pageSize,
            pageByte s'.mem e.2 k =
            if r.start + offset ≤ baseAddr e.1 + k ∧ baseAddr e.1 + k <
              r.start + offset + data.length
            then data.getD (baseAddr e.1 + k - (r.start + offset)) 0 else 0) ∧
        ∀ vs, (∀ v ∈ vs, v < pages 256) →
          (Region.Room A s sp.table (List.range' (pageNum r.start) r.pageCount ++ vs) ↔
            Region.Room A s' sp'.table vs)) ∨
       (∃ e, res = .error e) ∧
        ¬ Region.Room A s sp.table (List.range' (pageNum r.start) r.pageCount)) := by
  obtain ⟨res, s₁, t', new, hmap, filled, out⟩ :=
    Region.mapInto_spec (h.toFormed.ok holds) u.framed u.perm u.pages_le empty
  rcases out with ⟨rfl, hfits, hlen, cost, made⟩ | ⟨e, rfl, nofit, -⟩
  · have room := Region.fits_iff.mp hfits
    obtain ⟨holds₁, formed⟩ := h.toFormed.fill u filled
    have exact := h.fill u filled
    rw [← hlen] at room made cost
    generalize hc : ({ r with frames := new } : Region) = c at holds₁ formed exact hmap
    obtain ⟨cstart, cend, cperm, cframes⟩ : c.start = r.start ∧ c.end_ = r.end_ ∧ c.perm = r.perm ∧
        c.frames = new := by
      subst hc
      exact ⟨rfl, rfl, rfl, rfl⟩
    have whole : c.Whole := by
      refine ⟨by rwa [cstart], by rwa [cend], ?_⟩
      rw [cframes, filled.keys, hlen, Region.pageCount, Region.pageCount, cstart, cend]
    have hone : ∀ p, framesOver ((c.owned : Multiset Frame) + sp.owned) p ≤ 1 := fun p => by
      have := A.apart holds₁ p
      rw [frames, owned_append, ← Multiset.coe_add] at this
      simp only [framesOver_add] at this ⊢
      simp only [owned]
      omega
    obtain ⟨mem, hwrite, bytes⟩ := writeFrom_bytes (m := s₁.mem) whole (fun p => by
      have := hone p
      rw [framesOver_add] at this
      omega) (show c.start + offset + data.length ≤ c.end_ by rwa [cstart, cend]) (Nat.le_refl _)
    have hin : WritesIn c.owned s₁.mem mem :=
      writeFrom_spec (fun e he => (filled.single e (cframes ▸ he)).2) hwrite
    have hin' : WritesIn (⟨t', sp.regions ++ [c]⟩ : AddressSpace).owned s₁.mem mem := by
      apply hin.mono
      rw [owned_append, ← Multiset.coe_add]
      exact Multiset.le_add_left _ _
    obtain ⟨holds₂, keptT, -, havail⟩ := write_owned holds₁ hin'
    refine ⟨.ok (), { s₁ with mem := mem }, ⟨t', sp.regions ++ [c]⟩, ?_, holds₂, formed.kept keptT,
      .inl ⟨rfl, by rwa [← hlen], exact.kept keptT, ?_,
        ⟨c, rfl, whole, cperm, cstart, cend, ?_⟩, ?_⟩⟩
    · have hwrite : c.writeData s₁.mem offset data = some mem := hwrite
      simp [pushWithOffset, hmap, hwrite]
    · exact (filled.kept.mono (Multiset.le_add_right _ _)).trans (hin.kept hone)
    · intro e he k hk
      rw [bytes e he k hk, cstart, pageByte_zeroed (filled.zeroed e (cframes ▸ he)) hk]
    · intro vs low
      rw [← hlen, filled.room u.perm room made cost low]
      exact (Region.room_kept formed.tree keptT havail low).symm
  · obtain ⟨s₂, hdrop, holds₂, formed, -⟩ := h.toFormed.dropPart filled
    have hdrop : dropFrames A.toFrameAllocator s₁
        (Region.owned { r with frames := new }) = some s₂ :=
      hdrop
    exact ⟨.error e, s₂, ⟨t', sp.regions⟩, by simp [pushWithOffset, hmap, hdrop], holds₂, formed,
      .inr ⟨⟨e, rfl⟩, fun room => nofit (Region.fits_iff.mpr room)⟩⟩

end AddressSpace

end AlexOS
