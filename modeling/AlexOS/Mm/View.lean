import AlexOS.Mm.Contents

/-!
# What a user program can see

The view of a space gives every user address the flags of its page and its byte,
and says nothing about which frame is behind it. Each operation on a space acts
on the view by itself: `copy_to_user` lays its bytes over it, `push` adds zeroed
pages.
-/

namespace AlexOS

open Bytes PageTable

/-- The flags and the byte of every user address that is mapped. -/
abbrev UserView := Nat → Option (Nat × UInt8)

namespace UserView

/-- Bytes stored from `va` on; the flags stay, and what is not mapped is not mapped. -/
def overlay (w : UserView) (va : Nat) (src : List UInt8) : UserView := fun a =>
  if va ≤ a ∧ a < va + src.length then (w a).map fun x => (x.1, src.getD (a - va) 0) else w a

/-- New pages from `start` up to `last`. -/
def zeroed (w : UserView) (start last flags : Nat) : UserView := fun a =>
  if start ≤ a ∧ a < last then some (flags, 0) else w a

theorem overlay_nil (w : UserView) (va : Nat) : w.overlay va [] = w := by
  funext a
  rw [overlay, if_neg]
  simp only [List.length_nil, Nat.add_zero]
  omega

/-- Stored in two parts or at once. -/
theorem overlay_split (w : UserView) (va n : Nat) (src : List UInt8) (hn : n ≤ src.length) :
    (w.overlay va (src.take n)).overlay (va + n) (src.drop n) = w.overlay va src := by
  funext a
  simp only [overlay, List.length_take, List.length_drop, Nat.min_eq_left hn]
  by_cases first : va ≤ a ∧ a < va + n
  · rw [if_neg (by omega), if_pos first, if_pos (by omega)]
    congr 1
    funext x
    rw [List.getD_eq_getElem?_getD, List.getD_eq_getElem?_getD, List.getElem?_take_of_lt (by omega)]
  · rw [if_neg first]
    by_cases second : va + n ≤ a ∧ a < va + src.length
    · rw [if_pos (by omega), if_pos (by omega)]
      congr 1
      funext x
      rw [List.getD_eq_getElem?_getD, List.getD_eq_getElem?_getD, List.getElem?_drop,
        show n + (a - (va + n)) = a - va by omega]
    · rw [if_neg (by omega), if_neg (by omega)]

/-- Every address of the range is mapped, by a page that grants `access`. -/
def Grants (access : Nat) (w : UserView) (va len : Nat) : Prop :=
  ∀ a, va ≤ a → a < va + len →
    ∃ x, w a = some x ∧ PteFlags.contains x.1 access = true

theorem Grants.split {access n : Nat} {w : UserView} {va len : Nat} (hn : n ≤ len) :
    Grants access w va len ↔ Grants access w va n ∧ Grants access w (va + n) (len - n) := by
  constructor
  · exact fun h => ⟨fun a lo hi => h a lo (by omega), fun a lo hi => h a (by omega) (by omega)⟩
  · rintro ⟨first, second⟩ a lo hi
    by_cases hlt : a < va + n
    · exact first a lo hlt
    · exact second a (by omega) (by omega)

/-- The bytes found from `va` on. -/
def Reads (w : UserView) (va : Nat) (bs : List UInt8) : Prop :=
  ∀ k < bs.length, (w (va + k)).map Prod.snd = some (bs.getD k 0)

theorem Reads.nil (w : UserView) (va : Nat) : w.Reads va [] :=
  fun _ hk => absurd hk (Nat.not_lt_zero _)

theorem Reads.append {w : UserView} {va : Nat} {xs ys : List UInt8} (hx : w.Reads va xs)
    (hy : w.Reads (va + xs.length) ys) : w.Reads va (xs ++ ys) := by
  intro k hk
  rw [List.length_append] at hk
  by_cases hlt : k < xs.length
  · rw [List.getD_append _ _ _ _ hlt]
    exact hx k hlt
  · have := hy (k - xs.length) (by omega)
    rw [List.getD_append_right _ _ _ _ (Nat.not_lt.mp hlt), ← this]
    congr 2
    omega

theorem Reads.take {w : UserView} {va : Nat} {bs : List UInt8} (h : w.Reads va bs) (n : Nat) :
    w.Reads va (bs.take n) := by
  intro k hk
  rw [List.length_take] at hk
  rw [h k (by omega), List.getD_eq_getElem?_getD, List.getD_eq_getElem?_getD,
    List.getElem?_take_of_lt (by omega)]

theorem Reads.drop {w : UserView} {va : Nat} {bs : List UInt8} (h : w.Reads va bs) (n : Nat) :
    w.Reads (va + n) (bs.drop n) := by
  intro k hk
  rw [List.length_drop] at hk
  rw [Nat.add_assoc, h (n + k) (by omega), List.getD_eq_getElem?_getD, List.getD_eq_getElem?_getD,
    List.getElem?_drop]

/-- Nothing but the bytes that are there can be read. -/
theorem Reads.unique {w : UserView} {va : Nat} {xs ys : List UInt8} (hx : w.Reads va xs)
    (hy : w.Reads va ys) (hlen : xs.length = ys.length) : xs = ys := by
  refine List.ext_getElem hlen fun k h₁ h₂ => ?_
  have := Option.some.inj ((hx k h₁).symm.trans (hy k h₂))
  rwa [List.getD_eq_getElem _ _ h₁, List.getD_eq_getElem _ _ h₂] at this

theorem Grants.sub {access : Nat} {w : UserView} {va len va' len' : Nat}
    (h : Grants access w va len) (lo : va ≤ va') (hi : va' + len' ≤ va + len) :
    Grants access w va' len' :=
  fun a ha hb => h a (by omega) (by omega)

theorem Grants.congr {access : Nat} {w w' : UserView} {va len : Nat}
    (same : ∀ a, va ≤ a → a < va + len → w' a = w a) :
    Grants access w' va len ↔ Grants access w va len := by
  refine forall_congr' fun a => forall_congr' fun lo => forall_congr' fun hi => ?_
  rw [same a lo hi]

/-- A store takes no access away. -/
theorem Grants.overlay {access : Nat} {w : UserView} {va len : Nat} (h : Grants access w va len)
    (at_ : Nat) (src : List UInt8) : Grants access (w.overlay at_ src) va len := by
  intro a lo hi
  obtain ⟨x, hx, hc⟩ := h a lo hi
  rw [UserView.overlay]
  split
  · exact ⟨(x.1, src.getD (a - at_) 0), by rw [hx, Option.map_some], hc⟩
  · exact ⟨x, hx, hc⟩

/-- What was stored where it may be stored is there. -/
theorem overlay_reads {w : UserView} {access va : Nat} {src : List UInt8}
    (h : w.Grants access va src.length) :
    (w.overlay va src).Reads va src := by
  intro k hk
  obtain ⟨x, hx, -⟩ := h (va + k) (by omega) (by omega)
  rw [overlay, if_pos (by omega), hx, Option.map_some, Option.map_some, Nat.add_sub_cancel_left]

theorem overlay_apart {w : UserView} {va a : Nat} {src : List UInt8}
    (h : a < va ∨ va + src.length ≤ a) :
    w.overlay va src a = w a :=
  if_neg (by omega)

end UserView

namespace AddressSpace

variable {σ : Type} {A : CountedAllocator σ} {s s' : Phys σ} {rest : Multiset Frame}
  {m m' : Mem} {sp sp' : AddressSpace} {r : Region} {f : Frame}

def view (m : Mem) (sp : AddressSpace) : UserView := fun va =>
  if va < userMaxAddr then
    (translate m sp.table (pageNum va)).map fun pte =>
      (Pte.flags pte, m (baseAddr (Pte.ppn pte) + pageOffset va))
  else none

theorem byteAt_eq (m : Mem) (sp : AddressSpace) {va : Nat} (hva : va < userMaxAddr) :
    byteAt m sp va = (view m sp va).map Prod.snd := by
  rw [byteAt, translateAddr, view, if_pos hva, Option.map_map, Option.map_map]
  rfl

theorem view_high (m : Mem) (sp : AddressSpace) {va : Nat} (hva : userMaxAddr ≤ va) :
    view m sp va = none :=
  if_neg (Nat.not_lt.mpr hva)

theorem Exact.view_page (h : Exact m sp) (hr : r ∈ sp.regions) {va : Nat}
    (he : (pageNum va, f) ∈ r.frames) :
    view m sp va = some (PteFlags.present r.perm, pageByte m f (pageOffset va)) := by
  have u := h.regions r hr
  obtain ⟨hlow, -, hppn⟩ := u.single _ he
  have hlt := PteFlags.present_lt u.perm
  have hva : va < userMaxAddr := by
    simp only [userMaxAddr, pageNum, pageSize, pages] at *
    omega
  rw [view, if_pos hva, h.translate_page hr he, Option.map_some, Pte.ppn_new hppn hlt,
    Pte.flags_new _ hlt]
  rfl

theorem Exact.view_none (h : Exact m sp) {va : Nat}
    (free : ∀ r ∈ sp.regions, pageNum va ∉ r.frames.map Prod.fst) : view m sp va = none := by
  by_cases hva : va < userMaxAddr
  · rw [view, if_pos hva, h.translate_none (pageNum_low hva) free, Option.map_none]
  · exact view_high m sp (Nat.not_lt.mp hva)

/-- An address has a page of a region behind it or none. -/
theorem view_cases (sp : AddressSpace) (va : Nat) :
    (∃ r ∈ sp.regions, ∃ f, (pageNum va, f) ∈ r.frames) ∨
      ∀ r ∈ sp.regions, pageNum va ∉ r.frames.map Prod.fst := by
  by_cases h : ∃ r ∈ sp.regions, pageNum va ∈ r.frames.map Prod.fst
  · obtain ⟨r, hr, hv⟩ := h
    obtain ⟨⟨_, f⟩, he, rfl⟩ := List.mem_map.mp hv
    exact .inl ⟨r, hr, f, he⟩
  · exact .inr fun r hr hv => h ⟨r, hr, hv⟩

/-- Two entries of a space share a frame only when they are for one page, and have
one frame when they are. -/
theorem Exact.frame_iff (h : Exact m sp) (apart : ∀ p, framesOver sp.frames p ≤ 1) {r r' : Region}
    (hr : r ∈ sp.regions) (hr' : r' ∈ sp.regions) {e e' : Nat × Frame} (he : e ∈ r.frames)
    (he' : e' ∈ r'.frames) : e.2.ppn = e'.2.ppn ↔ e.1 = e'.1 := by
  constructor
  · intro same
    have hmap : (sp.regions.flatMap Region.frames).map Prod.snd = sp.owned := by
      rw [owned, List.map_flatMap]
      rfl
    have hone : ∀ p, framesOver ((sp.regions.flatMap Region.frames).map Prod.snd :
        List Frame) p ≤ 1 := by
      intro p
      have := apart p
      rw [frames, framesOver_add] at this
      rw [hmap]
      omega
    rw [page_unique hone (List.mem_flatMap.mpr ⟨r, hr, he⟩)
      (List.mem_flatMap.mpr ⟨r', hr', he'⟩) same]
  · intro same
    have hw := h.word r hr e he
    rw [same, h.word r' hr' e' he'] at hw
    rw [← Pte.ppn_new ((h.regions r hr).single e he).2.2
      (PteFlags.present_lt (h.regions r hr).perm),
      ← hw, Pte.ppn_new ((h.regions r' hr').single e' he').2.2
        (PteFlags.present_lt (h.regions r' hr').perm)]

theorem Exact.view_kept (h : Exact m sp) (kept : Kept sp.frames m m') :
    view m' sp = view m sp := by
  have keptT : Kept sp.table.frames m m' := kept.mono (Multiset.le_add_right _ _)
  have keptO : Kept sp.owned m m' := kept.mono (Multiset.le_add_left _ _)
  funext a
  have hk : pageOffset a < pageSize := Nat.mod_lt a (by decide)
  rcases view_cases sp a with ⟨r, hr, f, hf⟩ | free
  · rw [(h.kept keptT).view_page hr hf, h.view_page hr hf,
      pageByte_kept keptO (Multiset.mem_coe.mpr (mem_owned hr hf)) hk]
  · rw [(h.kept keptT).view_none free, h.view_none free]

/-- A store inside a page shows at the addresses of that page and nowhere else. -/
theorem Exact.view_write (h : Exact m sp) (apart : ∀ p, framesOver sp.frames p ≤ 1) {va pte : Nat}
    {bs : List UInt8} (hva : va < userMaxAddr)
    (hpte : translate m sp.table (pageNum va) = some pte)
    (fits : pageOffset va + bs.length ≤ pageSize) :
    Exact (writeBytes m (baseAddr (Pte.ppn pte) + pageOffset va) bs) sp ∧
      view (writeBytes m (baseAddr (Pte.ppn pte) + pageOffset va) bs) sp =
        (view m sp).overlay va bs := by
  rcases view_cases sp va with ⟨r, hr, g, hg⟩ | free
  swap
  · rw [h.translate_none (pageNum_low hva) free] at hpte
    cases hpte
  obtain ⟨-, order, hppn⟩ := (h.regions r hr).single _ hg
  have hq : Pte.ppn pte = g.ppn := by
    rw [h.translate_page hr hg] at hpte
    rw [← Option.some.inj hpte, Pte.ppn_new hppn (PteFlags.present_lt (h.regions r hr).perm)]
  rw [hq]
  have hheld : (⟨g.ppn, 0⟩ : Frame) ∈ (sp.owned : Multiset Frame) := by
    rw [← order]
    exact Multiset.mem_coe.mpr (mem_owned hr hg)
  have h' := h.writes apart (WritesIn.bytes m hheld fits)
  refine ⟨h', funext fun a => ?_⟩
  rcases view_cases sp a with ⟨r', hr', f, hf⟩ | free
  · have hk : pageOffset a < pageSize := Nat.mod_lt a (by decide)
    have same := h.frame_iff apart hr' hr hf hg
    rw [h'.view_page hr' hf, pageByte_write fits hk, UserView.overlay, h.view_page hr' hf]
    simp only at same
    have place : (f.ppn = g.ppn ∧ pageOffset va ≤ pageOffset a ∧
        pageOffset a < pageOffset va + bs.length) ↔ va ≤ a ∧ a < va + bs.length := by
      rw [same]
      simp only [pageNum, pageOffset, pageSize] at *
      omega
    by_cases hin : va ≤ a ∧ a < va + bs.length
    · have inside := place.mpr hin
      have hpage := same.mp inside.1
      rw [if_pos inside, if_pos hin, Option.map_some]
      congr 3
      simp only [pageNum, pageOffset, pageSize] at *
      omega
    · rw [if_neg (mt place.mp hin), if_neg hin]
  · rw [h'.view_none free, UserView.overlay, h.view_none free, Option.map_none, ite_self]

/-! ## Copies -/

/-- Addresses of one page have one entry. -/
theorem view_same_page {va a pte : Nat} (hva : va < userMaxAddr)
    (hpte : translate m sp.table (pageNum va) = some pte) (lo : va ≤ a)
    (hi : a < va + (pageSize - pageOffset va)) :
    view m sp a = some (Pte.flags pte, m (baseAddr (Pte.ppn pte) + pageOffset va + (a - va))) := by
  have hpage : pageNum a = pageNum va := by
    simp only [pageNum, pageOffset, pageSize] at *
    omega
  have hoff : pageOffset a = pageOffset va + (a - va) := by
    simp only [pageNum, pageOffset, pageSize] at *
    omega
  have ha : a < userMaxAddr := by
    simp only [userMaxAddr, pageOffset, pageSize] at *
    omega
  rw [view, if_pos ha, hpage, hpte, Option.map_some, hoff, Nat.add_assoc]

/-- The part of a range that lies in its first page. -/
theorem grants_page {access va n pte : Nat} (hva : va < userMaxAddr)
    (hpte : translate m sp.table (pageNum va) = some pte) (hpos : 0 < n)
    (hn : n ≤ pageSize - pageOffset va) :
    (view m sp).Grants access va n ↔ PteFlags.contains (Pte.flags pte) access = true := by
  constructor
  · intro h
    obtain ⟨x, hx, hc⟩ := h va (Nat.le_refl _) (by omega)
    rw [view_same_page hva hpte (Nat.le_refl _) (by omega)] at hx
    rwa [← Option.some.inj hx] at hc
  · intro h a lo hi
    exact ⟨_, view_same_page hva hpte lo (by omega), h⟩

theorem not_grants {access va len : Nat} (hpos : 0 < len)
    (h : userMaxAddr ≤ va ∨ translate m sp.table (pageNum va) = none) :
    ¬ (view m sp).Grants access va len := by
  intro hg
  obtain ⟨x, hx, -⟩ := hg va (Nat.le_refl _) (by omega)
  rcases h with high | hnone
  · rw [view_high m sp high] at hx
    cases hx
  · rw [view, hnone, Option.map_none, ite_self] at hx
    cases hx

/-- The loop writes what it is given, or stops at the first address that the user may
not write. -/
theorem copyToUserFrom_view {turns : Nat} {src : List UInt8} (va : Nat) (h : Exact m sp)
    (apart : ∀ p, framesOver sp.frames p ≤ 1) (enough : src.length ≤ turns) :
    ((view m sp).Grants (PteFlags.write ||| PteFlags.user) va src.length ∧
      ∃ m', copyToUserFrom sp.table turns m va src = (some (), m') ∧ Exact m' sp ∧
        view m' sp = (view m sp).overlay va src) ∨
    ∃ n < src.length, (view m sp).Grants (PteFlags.write ||| PteFlags.user) va n ∧
      ¬ (view m sp).Grants (PteFlags.write ||| PteFlags.user) (va + n) 1 ∧
      ∃ m', copyToUserFrom sp.table turns m va src = (none, m') ∧ Exact m' sp ∧
        view m' sp = (view m sp).overlay va (src.take n) := by
  have stop : ∀ {src : List UInt8}, 0 < src.length → ∀ {va : Nat} {m : Mem}, Exact m sp →
      ¬ (view m sp).Grants (PteFlags.write ||| PteFlags.user) va 1 →
      ∃ n < src.length, (view m sp).Grants (PteFlags.write ||| PteFlags.user) va n ∧
        ¬ (view m sp).Grants (PteFlags.write ||| PteFlags.user) (va + n) 1 ∧
        ∃ m', ((none : Option Unit), m) = (none, m') ∧ Exact m' sp ∧
          view m' sp = (view m sp).overlay va (src.take n) :=
    fun hpos _ m h bad => ⟨0, hpos, fun a lo hi => absurd hi (by omega), bad, m, rfl, h, by
      rw [List.take_zero, UserView.overlay_nil]⟩
  induction turns generalizing m va src with
  | zero =>
    obtain rfl := List.length_eq_zero_iff.mp (Nat.le_zero.mp enough)
    exact .inl ⟨fun a lo hi => absurd hi (by simp only [List.length_nil]; omega), m, rfl, h,
      by rw [UserView.overlay_nil]⟩
  | succ turns ih =>
    rw [copyToUserFrom]
    by_cases hnil : src = []
    · subst hnil
      exact .inl ⟨fun a lo hi => absurd hi (by simp only [List.length_nil]; omega), m, rfl, h,
        by rw [UserView.overlay_nil]⟩
    have hpos : 0 < src.length := List.length_pos_iff.mpr hnil
    rw [if_neg hnil]
    by_cases hva : userMaxAddr ≤ va
    · rw [if_pos hva]
      exact .inr (stop hpos h (not_grants Nat.one_pos (.inl hva)))
    rw [if_neg hva]
    have hva : va < userMaxAddr := Nat.lt_of_not_le hva
    rcases hpte : translate m sp.table (pageNum va) with _ | pte
    · exact .inr (stop hpos h (not_grants Nat.one_pos (.inr hpte)))
    have hoff : pageOffset va < pageSize := Nat.mod_lt va (by decide)
    have hn : min (pageSize - pageOffset va) src.length ≤ src.length := Nat.min_le_right _ _
    have hn' : min (pageSize - pageOffset va) src.length ≤ pageSize - pageOffset va :=
      Nat.min_le_left _ _
    have hn₀ : 0 < min (pageSize - pageOffset va) src.length := by omega
    have first : (view m sp).Grants (PteFlags.write ||| PteFlags.user) va
        (min (pageSize - pageOffset va) src.length) ↔ _ := grants_page hva hpte hn₀ hn'
    simp only [translateAddr, hpte, Option.map_some]
    generalize min (pageSize - pageOffset va) src.length = n at *
    by_cases hc : PteFlags.contains (Pte.flags pte) (PteFlags.write ||| PteFlags.user) = true
    swap
    · rw [if_pos (Bool.not_eq_true _ ▸ hc)]
      exact .inr (stop hpos h fun hg => hc ((grants_page hva hpte Nat.one_pos (by omega)).mp hg))
    rw [if_neg (by rw [hc]; exact Bool.noConfusion)]
    have hlen : (src.take n).length = n := by rw [List.length_take, Nat.min_eq_left hn]
    obtain ⟨h₁, shown⟩ := h.view_write apart hva hpte (show _ + (src.take n).length ≤ _ by omega)
    have later : ∀ {a len : Nat}, va + n ≤ a →
        ((view (writeBytes m (baseAddr (Pte.ppn pte) + pageOffset va) (src.take n)) sp).Grants
          (PteFlags.write ||| PteFlags.user) a len ↔
        (view m sp).Grants (PteFlags.write ||| PteFlags.user) a len) := by
      intro a len ha
      refine UserView.Grants.congr fun b lo _ => ?_
      rw [shown, UserView.overlay, if_neg (by omega)]
    have left : (src.drop n).length ≤ turns := by
      rw [List.length_drop]
      omega
    rcases ih (va + n) h₁ left with ⟨hg, m', heq, h', shown'⟩ |
      ⟨k, hk, hg, bad, m', heq, h', shown'⟩
    · rw [later (Nat.le_refl _), List.length_drop] at hg
      refine .inl ⟨(UserView.Grants.split hn).mpr ⟨first.mpr hc, hg⟩, m', heq, h', ?_⟩
      rw [shown', shown, UserView.overlay_split _ va n src hn]
    · rw [later (Nat.le_refl _)] at hg
      rw [later (Nat.le_add_right _ _)] at bad
      rw [List.length_drop] at hk
      have hsplit : n ≤ n + k := Nat.le_add_right n k
      refine .inr ⟨n + k, by omega, (UserView.Grants.split hsplit).mpr ⟨first.mpr hc, ?_⟩,
        by rwa [← Nat.add_assoc], m', heq, h', ?_⟩
      · rwa [Nat.add_sub_cancel_left]
      · have hwhole := UserView.overlay_split (view m sp) va n (src.take (n + k))
          (by rw [List.length_take]; omega)
        rw [List.take_take, Nat.min_eq_left hsplit, List.drop_take,
          Nat.add_sub_cancel_left] at hwhole
        rw [shown', shown, hwhole]

/-- The loop returns the bytes it finds, or meets an address that is not mapped. -/
theorem copyFromUserFrom_iff {turns va len : Nat} {bs : List UInt8} (enough : len ≤ turns) :
    copyFromUserFrom sp.table m turns va len = some bs ↔
      bs.length = len ∧ (view m sp).Reads va bs := by
  induction turns generalizing va len bs with
  | zero =>
    obtain rfl := Nat.le_zero.mp enough
    rw [copyFromUserFrom, Option.some_inj, List.length_eq_zero_iff]
    exact ⟨fun h => ⟨h.symm, h ▸ UserView.Reads.nil _ _⟩, fun h => h.1.symm⟩
  | succ turns ih =>
    rw [copyFromUserFrom]
    by_cases hzero : len = 0
    · subst hzero
      rw [if_pos rfl, Option.some_inj, List.length_eq_zero_iff]
      exact ⟨fun h => ⟨h.symm, h ▸ UserView.Reads.nil _ _⟩, fun h => h.1.symm⟩
    rw [if_neg hzero]
    by_cases hva : userMaxAddr ≤ va
    · rw [if_pos hva]
      refine ⟨fun none => (by cases none), ?_⟩
      rintro ⟨hlen, reads⟩
      have := reads 0 (by omega)
      rw [Nat.add_zero, view_high m sp hva] at this
      cases this
    rw [if_neg hva]
    have hva : va < userMaxAddr := Nat.lt_of_not_le hva
    rcases hpte : translate m sp.table (pageNum va) with _ | pte
    · rw [translateAddr, hpte]
      refine ⟨fun none => (by cases none), ?_⟩
      rintro ⟨hlen, reads⟩
      have := reads 0 (by omega)
      rw [Nat.add_zero, view, hpte, Option.map_none, ite_self] at this
      cases this
    simp only [translateAddr, hpte, Option.map_some, Option.bind_eq_bind, Option.bind_some]
    have hoff : pageOffset va < pageSize := Nat.mod_lt va (by decide)
    have hn : min (pageSize - pageOffset va) len ≤ len := Nat.min_le_right _ _
    have hn' : min (pageSize - pageOffset va) len ≤ pageSize - pageOffset va := Nat.min_le_left _ _
    have hn₀ : 0 < min (pageSize - pageOffset va) len := by omega
    generalize min (pageSize - pageOffset va) len = n at *
    have first : (view m sp).Reads va (readBytes m (baseAddr (Pte.ppn pte) + pageOffset va) n) := by
      intro k hk
      rw [length_readBytes] at hk
      rw [view_same_page hva hpte (by omega) (by omega), Option.map_some, Nat.add_sub_cancel_left,
        getD_readBytes hk]
    constructor
    · intro heq
      obtain ⟨tail, htail, heq⟩ := Option.bind_eq_some_iff.mp heq
      obtain rfl := Option.some.inj heq
      obtain ⟨hlen, reads⟩ := (ih (by omega)).mp htail
      refine ⟨by rw [List.length_append, length_readBytes, hlen]; omega, first.append ?_⟩
      rwa [length_readBytes]
    · rintro ⟨hlen, reads⟩
      have htake : bs.take n = readBytes m (baseAddr (Pte.ppn pte) + pageOffset va) n :=
        UserView.Reads.unique (reads.take n) first (by
          rw [List.length_take, length_readBytes, hlen, Nat.min_eq_left hn])
      have htail : copyFromUserFrom sp.table m turns (va + n) (len - n) = some (bs.drop n) :=
        (ih (by omega)).mpr ⟨by rw [List.length_drop, hlen], reads.drop n⟩
      rw [htail, Option.bind_some, ← htake, List.take_append_drop]

theorem copyFromUser_iff {va len : Nat} {bs : List UInt8} :
    sp.copyFromUser m va len = some bs ↔ bs.length = len ∧ (view m sp).Reads va bs :=
  copyFromUserFrom_iff (Nat.le_refl len)

theorem copyToUser_view {va : Nat} {src : List UInt8} (h : Exact m sp)
    (apart : ∀ p, framesOver sp.frames p ≤ 1) (heq : sp.copyToUser m va src = (some (), m')) :
    (view m sp).Grants (PteFlags.write ||| PteFlags.user) va src.length ∧ Exact m' sp ∧
      view m' sp = (view m sp).overlay va src := by
  rw [copyToUser] at heq
  rcases copyToUserFrom_view va h apart (Nat.le_refl src.length) with ⟨hg, m₁, heq₁, out⟩ |
    ⟨-, -, -, -, m₁, heq₁, -⟩
  · rw [heq₁] at heq
    obtain ⟨-, rfl⟩ := Prod.mk.inj heq
    exact ⟨hg, out⟩
  · rw [heq₁] at heq
    cases (Prod.mk.inj heq).1

theorem copyToUser_some {va : Nat} {src : List UInt8} (h : Exact m sp)
    (apart : ∀ p, framesOver sp.frames p ≤ 1)
    (granted : (view m sp).Grants (PteFlags.write ||| PteFlags.user) va src.length) :
    ∃ m', sp.copyToUser m va src = (some (), m') ∧ Exact m' sp ∧
      view m' sp = (view m sp).overlay va src := by
  rcases copyToUserFrom_view va h apart (Nat.le_refl src.length) with ⟨-, out⟩ | ⟨n, hn, -, bad, -⟩
  · exact out
  · exact absurd (granted.sub (Nat.le_add_right va n) (by omega)) bad

/-! ## A pushed region -/

/-- `push` is `push_with_offset` without data. -/
theorem push_eq (A : FrameAllocator σ) (s : Phys σ) (sp : AddressSpace) (r : Region) :
    push A s sp r = pushWithOffset A s sp r 0 [] := by
  rw [push, pushWithOffset]
  rcases r.mapInto A s sp.table with _ | ⟨_ | ⟨⟩, s', t', r'⟩
  · rfl
  · rfl
  · rfl

/-- There is room for the region, and then for what would have fitted next to it. -/
theorem push_room {s : Phys σ} (holds : A.Holds s (sp.frames + rest)) (h : Exact s.mem sp)
    (u : r.User) (empty : r.frames = []) (hstart : r.start % pageSize = 0)
    (hend : r.end_ % pageSize = 0) (hle : r.start ≤ r.end_)
    (room : Region.Room A s sp.table (List.range' (pageNum r.start) r.pageCount)) :
    ∃ s' sp', push A.toFrameAllocator s sp r = some (.ok (), s', sp') ∧
      ∀ vs, (∀ v ∈ vs, v < pages 256) →
        (Region.Room A s sp.table (List.range' (pageNum r.start) r.pageCount ++ vs) ↔
          Region.Room A s' sp'.table vs) := by
  obtain ⟨res, s', sp', heq, -, -, out⟩ := pushWithOffset_room holds h u empty hstart hend
    (show r.start + 0 + ([] : List UInt8).length ≤ r.end_ from hle)
  rw [push_eq]
  rcases out with ⟨rfl, -, -, -, -, hroom⟩ | ⟨-, full⟩
  · exact ⟨s', sp', heq, hroom⟩
  · exact absurd room full

/-- A pushed region adds its pages, zeroed, and changes nothing that was there. -/
theorem push_view {s s' : Phys σ} (holds : A.Holds s (sp.frames + rest)) (h : Exact s.mem sp)
    (u : r.User) (empty : r.frames = []) (hstart : r.start % pageSize = 0)
    (hend : r.end_ % pageSize = 0) (hle : r.start ≤ r.end_)
    (heq : push A.toFrameAllocator s sp r = some (.ok (), s', sp')) :
    A.Holds s' (sp'.frames + rest) ∧ Exact s'.mem sp' ∧
      view s'.mem sp' = (view s.mem sp).zeroed r.start r.end_ (PteFlags.present r.perm) := by
  obtain ⟨res, s₁, sp₁, heq₁, holds', -, out⟩ := pushWithOffset_room holds h u empty hstart hend
    (show r.start + 0 + ([] : List UInt8).length ≤ r.end_ from hle)
  rw [push_eq, heq₁] at heq
  obtain ⟨rfl, rfl, rfl⟩ := heq
  rcases out with ⟨-, -, exact', kept, ⟨c, hregions, whole, hperm, cstart, cend, bytes⟩, -⟩ |
    ⟨⟨e, he⟩, -⟩
  swap
  · cases he
  refine ⟨holds', exact', funext fun a => ?_⟩
  rw [UserView.zeroed]
  have hc : c ∈ sp'.regions := by rw [hregions]; exact List.mem_append_right _ List.mem_cons_self
  have hk : pageOffset a < pageSize := Nat.mod_lt a (by decide)
  have hkeys : pageNum a ∈ c.frames.map Prod.fst ↔ r.start ≤ a ∧ a < r.end_ := by
    rw [whole.mem_keys, cstart, cend]
    simp only [pageNum, pageSize] at *
    omega
  by_cases hin : r.start ≤ a ∧ a < r.end_
  · obtain ⟨⟨_, f⟩, he, rfl⟩ := List.mem_map.mp (hkeys.mpr hin)
    rw [if_pos hin, exact'.view_page hc he, bytes _ he _ hk, hperm, if_neg]
    simp only [List.length_nil]
    omega
  rw [if_neg hin]
  rcases view_cases sp a with ⟨r', hr', f, hf⟩ | free
  · have hr₁ : r' ∈ sp'.regions := by rw [hregions]; exact List.mem_append_left _ hr'
    rw [exact'.view_page hr₁ hf, h.view_page hr' hf,
      pageByte_kept kept (Multiset.mem_coe.mpr (mem_owned hr' hf)) hk]
  · rw [h.view_none free, exact'.view_none]
    intro r' hr'
    rw [hregions, List.mem_append, List.mem_singleton] at hr'
    rcases hr' with hr' | rfl
    · exact free r' hr'
    · exact mt hkeys.mp hin

end AddressSpace

end AlexOS
