import AlexOS.Mm.Coalesce
import AlexOS.Mm.Trie

/-!
# The kernel's address space

`init_kernel_space` of `kernel/src/mm/space.rs`: the four sections of the image, the
window to the rest of DRAM and the devices, each pushed as a linear region that takes
2 MiB leaves where it can. For every layout the link script can give, the pushes
succeed and the tables map these ranges and nothing else.
-/

namespace AlexOS

open Bytes PageTable

def dramBase : Nat := 0x80000000

def dramSize : Nat := 128 * 1024 * 1024

def clintBase : Nat := 0x2000000

def plicBase : Nat := 0xc000000

def uartBase : Nat := 0x10000000

def virtioMmioBase : Nat := 0x10001000

def virtioMmioStride : Nat := 0x1000

def virtioMmioSlots : Nat := 8

def testDeviceBase : Nat := 0x100000

def PteFlags.rx : Nat := read ||| exec

def physToVirt (paddr : Nat) : Nat := paddr + virtOffset

def virtToPhys (vaddr : Nat) : Nat := vaddr - virtOffset

/-- The symbols the link script exports. -/
structure Layout where
  textStart : Nat
  textEnd : Nat
  rodataStart : Nat
  rodataEnd : Nat
  dataStart : Nat
  dataEnd : Nat
  bssStart : Nat
  bssEnd : Nat
  kernelEnd : Nat

def mmioRegions : List (Nat × Nat) :=
  [(testDeviceBase, pageSize), (clintBase, 0x10000), (plicBase, 0x600000), (uartBase, pageSize),
    (virtioMmioBase, virtioMmioStride * virtioMmioSlots)]

namespace Layout

def sections (l : Layout) : List (Nat × Nat × Nat) :=
  [(l.textStart, l.textEnd, PteFlags.rx ||| PteFlags.global),
    (l.rodataStart, l.rodataEnd, PteFlags.read ||| PteFlags.global),
    (l.dataStart, l.dataEnd, PteFlags.rw ||| PteFlags.global),
    (l.bssStart, l.bssEnd, PteFlags.rw ||| PteFlags.global)]

def kernelEndPhys (l : Layout) : Nat := virtToPhys l.kernelEnd

end Layout

section
variable {σ : Type} (A : FrameAllocator σ)

/-- A push that is `expect`ed to succeed. -/
def pushLinear (s : Phys σ) (sp : AddressSpace) (start end_ perm : Nat) :
    Option (Phys σ × AddressSpace) := do
  let r ← Region.new start end_ .linear perm
  match ← sp.push A s r with
  | (.ok (), s, sp) => some (s, sp)
  | (.error _, _, _) => none

def pushSections (s : Phys σ) (sp : AddressSpace) :
    List (Nat × Nat × Nat) → Option (Phys σ × AddressSpace)
  | [] => some (s, sp)
  | (start, end_, perm) :: rest =>
    if start = end_ then pushSections s sp rest
    else do
      let (s, sp) ← pushLinear A s sp start end_ perm
      pushSections s sp rest

def pushMmio (s : Phys σ) (sp : AddressSpace) : List (Nat × Nat) → Option (Phys σ × AddressSpace)
  | [] => some (s, sp)
  | (base, size) :: rest => do
    let (s, sp) ← pushLinear A s sp (physToVirt base) (physToVirt (base + size))
      (PteFlags.rw ||| PteFlags.global)
    pushMmio s sp rest

def initKernelSpace (s : Phys σ) (l : Layout) : Option (Phys σ × AddressSpace) :=
  match AddressSpace.new A s with
  | (none, _) => none
  | (some sp, s) => do
    let (s, sp) ← pushSections A s sp l.sections
    let (s, sp) ← pushLinear A s sp (physToVirt l.kernelEndPhys) (physToVirt (dramBase + dramSize))
      (PteFlags.rw ||| PteFlags.global)
    pushMmio A s sp mmioRegions

end

namespace Layout

/-- What the link script sees to: the sections lie in DRAM, between page boundaries and
one after another. -/
structure Linked (l : Layout) : Prop where
  aligned : ∀ va ∈ [l.textStart, l.textEnd, l.rodataStart, l.rodataEnd, l.dataStart, l.dataEnd,
    l.bssStart, l.bssEnd, l.kernelEnd], va % pageSize = 0
  ordered : [physToVirt dramBase, l.textStart, l.textEnd, l.rodataStart, l.rodataEnd, l.dataStart,
    l.dataEnd, l.bssStart, l.bssEnd, l.kernelEnd, physToVirt (dramBase + dramSize)].Pairwise (· ≤ ·)

/-- What is to be mapped: the sections, the rest of DRAM, and the devices. -/
def windows (l : Layout) : List (Nat × Nat × Nat) :=
  l.sections ++
    (l.kernelEnd, physToVirt (dramBase + dramSize), PteFlags.rw ||| PteFlags.global) ::
      mmioRegions.map fun r =>
        (physToVirt r.1, physToVirt (r.1 + r.2), PteFlags.rw ||| PteFlags.global)

/-- The walk of the table maps the windows, each with its flags, and nothing else. -/
structure Mapped (l : Layout) (m : Mem) (root : Nat) : Prop where
  inside : ∀ w ∈ l.windows, ∀ va, w.1 ≤ va → va < w.2.1 → ∃ k pte,
    Sv39.walk m root va = .leaf k pte ∧
    physAddr k pte va = virtToPhys va ∧ Pte.flags pte = PteFlags.present w.2.2
  outside : ∀ va, (∀ w ∈ l.windows, ¬ (w.1 ≤ va ∧ va < w.2.1)) → Sv39.walk m root va = .fault
  user : ∀ va k pte, Sv39.walk m root va = .leaf k pte → Sv39.has pte PteFlags.user = false
  exec : ∀ va k pte, Sv39.walk m root va = .leaf k pte →
    (Sv39.has pte PteFlags.exec = true ↔ l.textStart ≤ va ∧ va < l.textEnd)
  writeXorExec : ∀ va k pte, Sv39.walk m root va = .leaf k pte →
    ¬ (Sv39.has pte PteFlags.write = true ∧ Sv39.has pte PteFlags.exec = true)
  firmware : ∀ va, physToVirt dramBase ≤ va → va < l.textStart → Sv39.walk m root va = .fault

end Layout

/-! ## Where pages are in the tree -/

/-- The page number at which the direct map starts. -/
def mapBase : Nat := pageNum virtOffset

theorem physToVirt_page (p : Nat) : physToVirt (baseAddr p) = baseAddr (mapBase + p) := by
  have hoffset : virtOffset = baseAddr mapBase := by decide
  rw [physToVirt, hoffset, baseAddr, baseAddr, baseAddr, ← Nat.add_mul, Nat.add_comm]

/-- A region between pages is what it is asked to be. -/
theorem Region.new_pages (a : Nat) {b : Nat} (hb : b + 1 < 2 ^ 52) (backing : Backing)
    (perm : Nat) : Region.new (baseAddr a) (baseAddr b) backing perm =
      some ⟨baseAddr a, baseAddr b, backing, perm, []⟩ := by
  have hup : alignUp (baseAddr b) = some (baseAddr b) := by
    rw [alignUp, if_pos (by simp only [baseAddr, pageSize]; omega)]
    simp only [baseAddr, pageSize]
    rw [show (b * 4096 + 4096 - 1) / 4096 = b by omega]
  have hdown : alignDown (baseAddr a) = baseAddr a := by
    rw [alignDown, baseAddr, Nat.mul_div_cancel a (by decide)]
  simp only [Region.new, hup, hdown, Option.bind_eq_bind, Option.bind_some]

namespace Linear

/-- The entries on the way to the physical page `v`. -/
def giga (v : Nat) : List Nat := [256 + v / 2 ^ 18]

def mega (v : Nat) : List Nat := [v / 512 % 512, 256 + v / 2 ^ 18]

def page (v : Nat) : List Nat := [v % 512, v / 512 % 512, 256 + v / 2 ^ 18]

theorem mega_inj {v w : Nat} : mega v = mega w ↔ v / 512 = w / 512 := by
  simp only [mega, List.cons.injEq, and_true]
  omega

theorem page_inj {v w : Nat} : page v = page w ↔ v = w := by
  simp only [page, List.cons.injEq, and_true]
  omega

theorem page_ne_mega (v w : Nat) : page v ≠ mega w := by simp [page, mega]

theorem indices_map {v : Nat} (hv : v < 2 ^ 26) :
    indices (mapBase + v) = [256 + v / 2 ^ 18, v / 512 % 512, v % 512] := by
  have hbase : mapBase = 2 ^ 52 - 2 ^ 26 := by decide
  rw [indices_eq, hbase]
  simp only [List.cons.injEq, and_true]
  omega

section
variable {v : Nat} (hv : v < 2 ^ 26)
include hv

theorem slotTable_one : slotTable (mapBase + v) 1 = giga v := by
  simp [slotTable, pathAfter, indices_map hv, giga]

theorem slotTable_two : slotTable (mapBase + v) 2 = mega v := by
  simp [slotTable, pathAfter, indices_map hv, mega]

theorem slotTable_three : slotTable (mapBase + v) 3 = page v := by
  simp [slotTable, pathAfter, indices_map hv, page]

end

/-- The word of a leaf for the page `v`. -/
def word (v f : Nat) : Nat := Pte.new v (PteFlags.present f)

/-- The tree maps the physical pages that `F` gives flags, each to itself, with a leaf
of its own or one for its 2 MiB. -/
structure Maps (F : Nat → Option Nat) (r : Trie) : Prop where
  high : ∀ i, r.leaves [i] = none
  low : ∀ i, [i] ∈ r.tables → 256 ≤ i
  empty : ∀ v, F v = none → r.leaves (page v) = none ∧ r.leaves (mega v) = none
  mapped : ∀ v f, F v = some f →
    r.leaves (page v) = some (word v f) ∨ r.leaves (mega v) = some (word (v / 512 * 512) f)
  legal : ∀ v f, F v = some f → LegalFlags f
  used : ∀ v, mega v ∈ r.tables → ∃ w, w / 512 = v / 512 ∧ F w ≠ none

/-- The pages from `a` to `b` get the flags `f`. -/
def fill (F : Nat → Option Nat) (a b f : Nat) : Nat → Option Nat := fun v =>
  if a ≤ v ∧ v < b then some f else F v

theorem fill_self (F : Nat → Option Nat) (a f : Nat) : fill F a a f = F := by
  funext v
  rw [fill, if_neg (by omega)]

theorem fill_fill (F : Nat → Option Nat) {a b c : Nat} (f : Nat) (hab : a ≤ b) (hbc : b ≤ c) :
    fill (fill F a b f) b c f = fill F a c f := by
  funext v
  simp only [fill]
  by_cases hlo : a ≤ v <;> by_cases hmid : v < b <;> by_cases hhi : v < c <;>
    simp [hlo, hmid, hhi] <;> omega

section
variable {F : Nat → Option Nat} {r r' : Trie} {v f : Nat}

theorem Maps.find_none (h : Maps F r) (hv : v < 2 ^ 26) (hF : F v = none) :
    Trie.find r.leaves (indices (mapBase + v)) [] = .fault := by
  obtain ⟨hpage, hmega⟩ := h.empty v hF
  rw [page] at hpage
  rw [mega] at hmega
  rw [indices_map hv]
  simp only [Trie.find, h.high, hmega, hpage]

theorem Maps.find_some (h : Maps F r) (hv : v < 2 ^ 26) (hF : F v = some f) :
    ∃ k ≤ 1, Trie.find r.leaves (indices (mapBase + v)) [] =
      .leaf k (word (v / 512 ^ k * 512 ^ k) f) := by
  have legal := h.legal v f hF
  rw [indices_map hv]
  rcases h.mapped v f hF with hleaf | hleaf
  · have hmega := r.not_leaf (r.under hleaf).2
    refine ⟨0, by omega, ?_⟩
    rw [page] at hleaf hmega
    rw [List.tail_cons] at hmega
    simp only [Trie.find, h.high, hmega, hleaf]
    rw [Nat.pow_zero, Nat.div_one, Nat.mul_one]
    exact Sv39.verdict_leaf (by omega) legal (Nat.mod_one v)
  · refine ⟨1, Nat.le_refl _, ?_⟩
    rw [mega] at hleaf
    simp only [Trie.find, h.high, hleaf]
    rw [Nat.pow_one]
    exact Sv39.verdict_leaf (by omega) legal (Nat.mul_mod_left _ _)

/-- A page of its own. -/
theorem Maps.small (h : Maps F r) (hf : LegalFlags f)
    (new : ∀ x ∈ r'.tables, x ∈ r.tables ∨ x = giga v ∨ x = mega v)
    (leaves : r'.leaves = Function.update r.leaves (page v) (some (word v f))) :
    Maps (fill F v (v + 1) f) r' := by
  have hfill : ∀ w, fill F v (v + 1) f w = if w = v then some f else F w := by
    intro w
    rw [fill]
    congr 1
    simp only [eq_iff_iff]
    omega
  have hpage : ∀ w, r'.leaves (page w) = if w = v then some (word v f) else r.leaves (page w) := by
    intro w
    rw [leaves, Function.update_apply]
    simp only [page_inj]
  have hmega : ∀ w, r'.leaves (mega w) = r.leaves (mega w) := by
    intro w
    rw [leaves, Function.update_of_ne (page_ne_mega v w).symm]
  refine ⟨fun i => ?_, fun i hi => ?_, fun w hw => ?_, fun w g hw => ?_, fun w g hw => ?_,
    fun w hw => ?_⟩
  · rw [leaves, Function.update_of_ne (by simp [page]), h.high]
  · rcases new _ hi with hi | hi | hi
    · exact h.low i hi
    · simp only [giga, List.cons.injEq, and_true] at hi
      omega
    · simp [mega] at hi
  · rw [hfill] at hw
    split at hw
    · cases hw
    · rename_i hne
      rw [hpage, if_neg hne, hmega]
      exact h.empty w hw
  · rw [hfill] at hw
    rw [hpage, hmega]
    split at hw
    · rename_i heq
      obtain rfl := Option.some.inj hw
      rw [if_pos heq, heq]
      exact .inl rfl
    · rename_i hne
      rw [if_neg hne]
      exact h.mapped w g hw
  · rw [hfill] at hw
    split at hw
    · exact Option.some.inj hw ▸ hf
    · exact h.legal w g hw
  · rcases new _ hw with hw | hw | hw
    · obtain ⟨u, hu, hmap⟩ := h.used w hw
      refine ⟨u, hu, ?_⟩
      rw [hfill]
      split
      · exact Option.some_ne_none f
      · exact hmap
    · simp [giga, mega] at hw
    · refine ⟨v, (mega_inj.mp hw).symm, ?_⟩
      rw [hfill, if_pos rfl]
      exact Option.some_ne_none f

/-- One leaf for 2 MiB. -/
theorem Maps.big (h : Maps F r) (hf : LegalFlags f) (aligned : v % 512 = 0)
    (new : ∀ x ∈ r'.tables, x ∈ r.tables ∨ x = giga v)
    (leaves : r'.leaves = Function.update r.leaves (mega v) (some (word v f))) :
    Maps (fill F v (v + 512) f) r' := by
  have hfill : ∀ w, fill F v (v + 512) f w = if w / 512 = v / 512 then some f else F w := by
    intro w
    rw [fill]
    congr 1
    simp only [eq_iff_iff]
    omega
  have hmega : ∀ w, r'.leaves (mega w) =
      if w / 512 = v / 512 then some (word v f) else r.leaves (mega w) := by
    intro w
    rw [leaves, Function.update_apply]
    simp only [mega_inj]
  have hpage : ∀ w, r'.leaves (page w) = r.leaves (page w) := by
    intro w
    rw [leaves, Function.update_of_ne (page_ne_mega w v)]
  refine ⟨fun i => ?_, fun i hi => ?_, fun w hw => ?_, fun w g hw => ?_, fun w g hw => ?_,
    fun w hw => ?_⟩
  · rw [leaves, Function.update_of_ne (by simp [mega]), h.high]
  · rcases new _ hi with hi | hi
    · exact h.low i hi
    · simp only [giga, List.cons.injEq, and_true] at hi
      omega
  · rw [hfill] at hw
    split at hw
    · cases hw
    · rename_i hne
      rw [hmega, if_neg hne, hpage]
      exact h.empty w hw
  · rw [hfill] at hw
    rw [hpage, hmega]
    split at hw
    · rename_i heq
      obtain rfl := Option.some.inj hw
      rw [if_pos heq, heq, Nat.div_mul_cancel (Nat.dvd_of_mod_eq_zero aligned)]
      exact .inr rfl
    · rename_i hne
      rw [if_neg hne]
      exact h.mapped w g hw
  · rw [hfill] at hw
    split at hw
    · exact Option.some.inj hw ▸ hf
    · exact h.legal w g hw
  · rcases new _ hw with hw | hw
    · obtain ⟨u, hu, hmap⟩ := h.used w hw
      refine ⟨u, hu, ?_⟩
      rw [hfill]
      split
      · exact Option.some_ne_none f
      · exact hmap
    · simp [giga, mega] at hw

end

/-! ## The loop -/

section
variable {σ : Type} {A : CountedAllocator σ} {s : Phys σ} {t : PageTable} {rest : Multiset Frame}
  {F : Nat → Option Nat} {need : Finset (List Nat)} {v a e f : Nat}

/-- The table shows `F`, and frames are left for the tables of `need`. -/
def Painted (A : CountedAllocator σ) (s : Phys σ) (t : PageTable) (rest : Multiset Frame)
    (F : Nat → Option Nat) (need : Finset (List Nat)) : Prop :=
  ∃ place r, Trie.Shows A.toFrameAllocator s t.root t.frames rest place r ∧ Maps F r ∧
    Trie.Budget A s r need

theorem frames_append {new : List Frame} {place : List Nat → Nat} {r : Trie}
    (h : Trie.Shows A.toFrameAllocator s t.root (new + t.frames) rest place r) :
    Trie.Shows A.toFrameAllocator s t.root ↑(t.frames ++ new) rest place r := by
  rwa [← Multiset.coe_add, add_comm]

theorem Painted.map (h : Painted A s t rest F need) (hv : v < 2 ^ 26) (hf : LegalFlags f)
    (hF : F v = none) (hgiga : giga v ∈ need) (hmega : mega v ∈ need) :
    ∃ s' t', PageTable.map A.toFrameAllocator s t (mapBase + v) v f = (.ok (), s', t') ∧
      t'.root = t.root ∧ Painted A s' t' rest (fill F v (v + 1) f) need := by
  obtain ⟨place, r, shows, maps, budget⟩ := h
  have paths : ∀ k < 2, slotTable (mapBase + v) (k + 1) = giga v ∨
      slotTable (mapBase + v) (k + 1) = mega v := by
    intro k hk
    obtain rfl | rfl : k = 0 ∨ k = 1 := by omega
    · exact .inl (slotTable_one hv)
    · exact .inr (slotTable_two hv)
  have hpage := slotTable_three hv
  obtain ⟨s', more, place', r', heq, shows', budget', new, leaves⟩ :=
    shows.mapAt_ok (mapBase + v) v budget (Nat.le_refl 2) hf
      (fun k hk => by
        rcases paths k hk with h | h <;> rw [h]
        · exact maps.high _
        · exact (maps.empty v hF).2)
      (fun k hk => by rcases paths k hk with h | h <;> rw [h] <;> assumption)
      (fun hin => by
        have := r.depth hin
        simp [hpage, page] at this)
      (by rw [hpage]; exact (maps.empty v hF).1)
  rw [hpage] at leaves
  refine ⟨s', _, heq, rfl, place', r', frames_append shows',
    maps.small hf (fun x hx => ?_) leaves, budget'⟩
  rcases new x hx with hx | ⟨k, hk, rfl⟩
  · exact .inl hx
  · exact .inr (paths k hk)

theorem Painted.mapBig (h : Painted A s t rest F need) (hv : v < 2 ^ 26) (hf : LegalFlags f)
    (aligned : v % 512 = 0) (hF : ∀ w, w / 512 = v / 512 → F w = none) (hgiga : giga v ∈ need) :
    ∃ s' t', PageTable.mapAtLevel A.toFrameAllocator s t (mapBase + v) v f 1 =
        some (.ok (), s', t') ∧
      t'.root = t.root ∧ Painted A s' t' rest (fill F v (v + 512) f) need := by
  obtain ⟨place, r, shows, maps, budget⟩ := h
  have path : ∀ k < 1, slotTable (mapBase + v) (k + 1) = giga v := by
    intro k hk
    obtain rfl : k = 0 := by omega
    exact slotTable_one hv
  have hmega := slotTable_two hv
  obtain ⟨s', more, place', r', heq, shows', budget', new, leaves⟩ :=
    shows.mapAt_ok (mapBase + v) v budget (show 1 ≤ 2 by decide) hf
      (fun k hk => by rw [path k hk]; exact maps.high _)
      (fun k hk => by rw [path k hk]; exact hgiga)
      (fun hin => by
        rw [hmega] at hin
        obtain ⟨w, hw, hmap⟩ := maps.used v hin
        exact hmap (hF w hw))
      (by rw [hmega]; exact (maps.empty v (hF v rfl)).2)
  rw [hmega] at leaves
  have hlevel : mapAtLevel A.toFrameAllocator s t (mapBase + v) v f 1 =
      some (mapAt A.toFrameAllocator s t (mapBase + v) v f 1) := by
    have hbase : mapBase % 512 = 0 := by decide
    have hpages : levelPages 1 = 512 := by decide
    rw [mapAtLevel, if_pos]
    rw [hpages]
    exact ⟨by decide, by omega, aligned⟩
  refine ⟨s', ⟨t.root, t.frames ++ more⟩, by rw [hlevel, heq], rfl, place', r',
    frames_append shows', maps.big hf aligned (fun x hx => ?_) leaves, budget'⟩
  rcases new x hx with hx | ⟨k, hk, rfl⟩
  · exact .inl hx
  · exact .inr (path k hk)

/-- The tables that the pages from `v` on take: one for each of their gibibytes, and one
for each 2 MiB that does not lie between `v` and `e`. -/
structure Needs (need : Finset (List Nat)) (v e : Nat) : Prop where
  giga : ∀ w, v ≤ w → w < e → giga w ∈ need
  mega : ∀ w, v ≤ w → w < e → w / 512 * 512 < v ∨ e < w / 512 * 512 + 512 → mega w ∈ need

theorem Painted.mapLinear {r : Region} (h : Painted A s t rest F need)
    (hv : v < e) (he : e ≤ 2 ^ 26)
    (hend : pageNum r.end_ = mapBase + e) (hf : LegalFlags r.perm)
    (hF : ∀ w, v ≤ w → w < e → F w = none) (needs : Needs need v e) :
    ∃ v' s' t', r.mapLinear A.toFrameAllocator s t (mapBase + v) =
        some (.ok (mapBase + v'), s', t', r) ∧ v < v' ∧ v' ≤ e ∧ t'.root = t.root ∧
      Painted A s' t' rest (fill F v v' r.perm) need ∧ Needs need v' e := by
  have hbase : mapBase % 512 = 0 := by decide
  have hpages : superpageSize / pageSize = 512 := by decide
  have hppn : mapBase + v - pageNum virtOffset = v := Nat.add_sub_cancel_left _ _
  have hlow : ¬ mapBase + v < pageNum virtOffset := Nat.not_lt.mpr (Nat.le_add_right _ _)
  rw [Region.mapLinear, if_neg hlow]
  simp only [hpages, hppn, hend]
  by_cases hbig : v % 512 = 0 ∧ v + 512 ≤ e
  · rw [if_pos ⟨by omega, hbig.1, by omega⟩]
    obtain ⟨s', t', heq, root, painted⟩ := h.mapBig (by omega) hf hbig.1
      (fun w hw => hF w (by omega) (by omega)) (needs.giga v (Nat.le_refl v) hv)
    refine ⟨v + 512, s', t', ?_, by omega, hbig.2, root, painted, ?_, ?_⟩
    · rw [heq]
      simp [Except.map, Nat.add_assoc]
    · exact fun w hlo hhi => needs.giga w (by omega) hhi
    · exact fun w hlo hhi hedge => needs.mega w (by omega) hhi (by omega)
  · rw [if_neg (by omega)]
    obtain ⟨s', t', heq, root, painted⟩ := h.map (by omega) hf (hF v (Nat.le_refl v) hv)
      (needs.giga v (Nat.le_refl v) hv) (needs.mega v (Nat.le_refl v) hv (by omega))
    refine ⟨v + 1, s', t', ?_, by omega, hv, root, painted, ?_, ?_⟩
    · rw [heq]
      simp [Except.map, Nat.add_assoc]
    · exact fun w hlo hhi => needs.giga w (by omega) hhi
    · exact fun w hlo hhi hedge => needs.mega w (by omega) hhi (by omega)

theorem Painted.mapFrom {r : Region} {turns : Nat} (h : Painted A s t rest F need) (hv : v ≤ e)
    (he : e ≤ 2 ^ 26) (enough : e ≤ v + turns) (linear : r.backing = .linear)
    (hend : pageNum r.end_ = mapBase + e) (hf : LegalFlags r.perm)
    (hF : ∀ w, v ≤ w → w < e → F w = none) (needs : Needs need v e) :
    ∃ s' t', r.mapFrom A.toFrameAllocator turns s t (mapBase + v) = some (.ok (), s', t', r) ∧
      t'.root = t.root ∧ Painted A s' t' rest (fill F v e r.perm) need := by
  induction turns generalizing s t v F with
  | zero =>
    obtain rfl : v = e := by omega
    exact ⟨s, t, rfl, rfl, by rwa [fill_self]⟩
  | succ turns ih =>
    by_cases hdone : v = e
    · subst hdone
      refine ⟨s, t, ?_, rfl, by rwa [fill_self]⟩
      rw [Region.mapFrom, if_pos (Nat.le_of_eq hend)]
    · obtain ⟨v', s₁, t₁, heq, hlt, hle, root₁, painted₁, needs₁⟩ :=
        h.mapLinear (by omega) he hend hf hF needs
      obtain ⟨s', t', heq', root', painted'⟩ := ih painted₁ hle (by omega)
        (fun w hlo hhi => by rw [fill, if_neg (by omega)]; exact hF w (by omega) hhi) needs₁
      refine ⟨s', t', ?_, root'.trans root₁, ?_⟩
      · rw [Region.mapFrom, if_neg (by omega), linear]
        simp only [heq]
        exact heq'
      · rwa [fill_fill F r.perm (Nat.le_of_lt hlt) hle] at painted'

/-- A linear region from the page `a` to the page `e` of physical memory. -/
theorem Painted.pushLinear {sp : AddressSpace} (h : Painted A s sp.table rest F need) (hae : a ≤ e)
    (he : e + 1 < 2 ^ 26) (hf : LegalFlags f) (hF : ∀ w, a ≤ w → w < e → F w = none)
    (needs : Needs need a e) :
    ∃ s' sp', AlexOS.pushLinear A.toFrameAllocator s sp (physToVirt (baseAddr a))
        (physToVirt (baseAddr e)) f = some (s', sp') ∧
      Painted A s' sp'.table rest (fill F a e f) need := by
  let r : Region := ⟨baseAddr (mapBase + a), baseAddr (mapBase + e), .linear, f, []⟩
  have hbase : mapBase = 2 ^ 52 - 2 ^ 26 := by decide
  obtain ⟨s', t', heq, -, painted⟩ := h.mapFrom (r := r) hae (by omega)
    (show e ≤ a + (e - a) by omega) rfl (pageNum_baseAddr _) hf hF needs
  have hinto : r.mapInto A.toFrameAllocator s sp.table = some (.ok (), s', t', r) := by
    rw [Region.mapInto, Region.pageCount]
    simp only [r, pageNum_baseAddr, Nat.add_sub_add_left]
    exact heq
  have hnew : Region.new (baseAddr (mapBase + a)) (baseAddr (mapBase + e)) .linear f = some r :=
    Region.new_pages _ (by omega) _ _
  refine ⟨s', ⟨t', sp.regions ++ [r]⟩, ?_, painted⟩
  simp only [AlexOS.pushLinear, physToVirt_page, hnew, AddressSpace.push, hinto,
    Option.bind_eq_bind, Option.bind_some]

/-! ## One window after another -/

/-- Windows of physical pages with their flags, for which there is room. -/
structure Fits (need : Finset (List Nat)) (F : Nat → Option Nat) (ws : List (Nat × Nat × Nat)) :
    Prop where
  each : ∀ w ∈ ws, w.1 ≤ w.2.1 ∧ w.2.1 + 1 < 2 ^ 26 ∧ LegalFlags w.2.2 ∧ Needs need w.1 w.2.1
  free : ∀ w ∈ ws, ∀ v, w.1 ≤ v → v < w.2.1 → F v = none
  apart : ws.Pairwise fun w w' => w.2.1 ≤ w'.1 ∨ w'.2.1 ≤ w.1

def paint (F : Nat → Option Nat) (ws : List (Nat × Nat × Nat)) : Nat → Option Nat :=
  ws.foldl (fun F w => fill F w.1 w.2.1 w.2.2) F

theorem paint_append (F : Nat → Option Nat) (us ws : List (Nat × Nat × Nat)) :
    paint F (us ++ ws) = paint (paint F us) ws :=
  List.foldl_append

theorem Fits.left {us ws : List (Nat × Nat × Nat)} (h : Fits need F (us ++ ws)) : Fits need F us :=
  ⟨fun w hw => h.each w (List.mem_append_left _ hw),
    fun w hw => h.free w (List.mem_append_left _ hw),
    (List.pairwise_append.mp h.apart).1⟩

theorem Fits.tail {w : Nat × Nat × Nat} {ws : List (Nat × Nat × Nat)} (h : Fits need F (w :: ws)) :
    Fits need (fill F w.1 w.2.1 w.2.2) ws := by
  obtain ⟨hw, apart⟩ := List.pairwise_cons.mp h.apart
  refine ⟨fun u hu => h.each u (List.mem_cons_of_mem _ hu), fun u hu v lo hi => ?_, apart⟩
  have := hw u hu
  rw [fill, if_neg (by omega)]
  exact h.free u (List.mem_cons_of_mem _ hu) v lo hi

theorem Fits.right {us ws : List (Nat × Nat × Nat)} (h : Fits need F (us ++ ws)) :
    Fits need (paint F us) ws := by
  induction us generalizing F with
  | nil => exact h
  | cons u us ih => exact ih h.tail

theorem Fits.paint_none {ws : List (Nat × Nat × Nat)} (hF : F v = none)
    (out : ∀ w ∈ ws, ¬ (w.1 ≤ v ∧ v < w.2.1)) : paint F ws v = none := by
  induction ws generalizing F with
  | nil => exact hF
  | cons w ws ih =>
    refine ih ?_ fun u hu => out u (List.mem_cons_of_mem _ hu)
    exact (if_neg (out w List.mem_cons_self)).trans hF

theorem Fits.paint_some {ws : List (Nat × Nat × Nat)} (h : Fits need F ws) {w : Nat × Nat × Nat}
    (hw : w ∈ ws) (lo : w.1 ≤ v) (hi : v < w.2.1) : paint F ws v = some w.2.2 := by
  obtain ⟨us, ws, rfl⟩ := List.append_of_mem hw
  rw [paint_append]
  have later := (List.pairwise_cons.mp h.right.apart).1
  have keep : ∀ (ws : List (Nat × Nat × Nat)) (F : Nat → Option Nat), F v = some w.2.2 →
      (∀ u ∈ ws, ¬ (u.1 ≤ v ∧ v < u.2.1)) → paint F ws v = some w.2.2 := by
    intro ws
    induction ws with
    | nil => exact fun F hF _ => hF
    | cons u ws ih =>
      intro F hF out
      refine ih _ ?_ fun u hu => out u (List.mem_cons_of_mem _ hu)
      exact (if_neg (out u List.mem_cons_self)).trans hF
  refine keep ws _ ?_ fun u hu => ?_
  · exact if_pos ⟨lo, hi⟩
  · have := later u hu
    omega

/-- A window in the addresses of the direct map. -/
def virtual (w : Nat × Nat × Nat) : Nat × Nat × Nat :=
  (physToVirt (baseAddr w.1), physToVirt (baseAddr w.2.1), w.2.2)

theorem Painted.pushWindow {sp : AddressSpace} {w : Nat × Nat × Nat} {ws : List (Nat × Nat × Nat)}
    (h : Painted A s sp.table rest F need) (fits : Fits need F (w :: ws)) :
    ∃ s' sp', AlexOS.pushLinear A.toFrameAllocator s sp (virtual w).1
      (virtual w).2.1 (virtual w).2.2 =
        some (s', sp') ∧ Painted A s' sp'.table rest (fill F w.1 w.2.1 w.2.2) need := by
  obtain ⟨hle, hlt, legal, needs⟩ := fits.each w List.mem_cons_self
  exact h.pushLinear hle hlt legal (fits.free w List.mem_cons_self) needs

theorem Painted.pushSections {sp : AddressSpace} {ws : List (Nat × Nat × Nat)}
    (h : Painted A s sp.table rest F need) (fits : Fits need F ws) :
    ∃ s' sp', AlexOS.pushSections A.toFrameAllocator s sp (ws.map virtual) = some (s', sp') ∧
      Painted A s' sp'.table rest (paint F ws) need := by
  induction ws generalizing s sp F with
  | nil => exact ⟨s, sp, rfl, h⟩
  | cons w ws ih =>
    rw [List.map_cons, virtual, AlexOS.pushSections]
    by_cases hempty : physToVirt (baseAddr w.1) = physToVirt (baseAddr w.2.1)
    · rw [if_pos hempty]
      have hsame : w.1 = w.2.1 := by
        simp only [physToVirt, baseAddr, pageSize] at hempty
        omega
      have painted : Painted A s sp.table rest (fill F w.1 w.2.1 w.2.2) need := by
        rw [hsame, fill_self]
        exact h
      exact ih painted fits.tail
    · rw [if_neg hempty]
      obtain ⟨s₁, sp₁, heq, painted⟩ := h.pushWindow fits
      obtain ⟨s', sp', heq', painted'⟩ := ih painted fits.tail
      refine ⟨s', sp', ?_, painted'⟩
      simp only [virtual] at heq
      rw [heq]
      exact heq'

theorem Painted.pushMmio {sp : AddressSpace} {regions : List (Nat × Nat)}
    {ws : List (Nat × Nat × Nat)} (h : Painted A s sp.table rest F need) (fits : Fits need F ws)
    (same : ws.map virtual = regions.map fun r =>
      (physToVirt r.1, physToVirt (r.1 + r.2), PteFlags.rw ||| PteFlags.global)) :
    ∃ s' sp', AlexOS.pushMmio A.toFrameAllocator s sp regions = some (s', sp') ∧
      Painted A s' sp'.table rest (paint F ws) need := by
  induction regions generalizing s sp F ws with
  | nil =>
    obtain rfl : ws = [] := List.map_eq_nil_iff.mp same
    exact ⟨s, sp, rfl, h⟩
  | cons r regions ih =>
    obtain ⟨w, ws, rfl, hw, hws⟩ := List.map_eq_cons_iff.mp same
    obtain ⟨s₁, sp₁, heq, painted⟩ := h.pushWindow fits
    obtain ⟨s', sp', heq', painted'⟩ := ih painted fits.tail hws
    refine ⟨s', sp', ?_, painted'⟩
    rw [hw] at heq
    rw [AlexOS.pushMmio]
    simp only at heq
    rw [heq]
    exact heq'

/-! ## The walk -/

theorem pageNum_physToVirt (pa : Nat) : pageNum (physToVirt pa) = mapBase + pageNum pa := by
  have hoffset : virtOffset = mapBase * 4096 := by decide
  simp only [pageNum, physToVirt, hoffset, pageSize]
  omega

theorem Painted.walk_eq (h : Painted A s t rest F need) {va : Nat} (canonical : Sv39.Canonical va) :
    ∃ r, Maps F r ∧ Sv39.walk s.mem t.root va = Trie.find r.leaves (indices (pageNum va)) [] := by
  obtain ⟨place, r, shows, maps, -⟩ := h
  exact ⟨r, maps, shows.walk_eq canonical⟩

section
variable {pa : Nat} (hpa : pa < 2 ^ 38)
include hpa

theorem canonical_high : Sv39.Canonical (physToVirt pa) := by
  have hoffset : virtOffset = 2 ^ 64 - 2 ^ 38 := by decide
  right
  simp only [physToVirt, hoffset]
  omega

theorem Painted.walk_page (h : Painted A s t rest F need) (hF : F (pageNum pa) = some f) :
    ∃ k pte, Sv39.walk s.mem t.root (physToVirt pa) = .leaf k pte ∧
      physAddr k pte (physToVirt pa) = pa ∧ Pte.flags pte = PteFlags.present f := by
  have hv : pageNum pa < 2 ^ 26 := by
    simp only [pageNum, pageSize]
    omega
  obtain ⟨r, maps, hwalk⟩ := h.walk_eq (canonical_high hpa)
  have legal := maps.legal _ f hF
  obtain ⟨k, hk, heq⟩ := maps.find_some hv hF
  rw [pageNum_physToVirt, heq] at hwalk
  have hppn : pageNum pa / 512 ^ k * 512 ^ k < 2 ^ 44 :=
    Nat.lt_of_le_of_lt (Nat.div_mul_le_self _ _) (by omega)
  have hflags := PteFlags.present_lt legal.lt
  refine ⟨k, _, hwalk, ?_, Pte.flags_new _ hflags⟩
  have hoffset : virtOffset = 2 ^ 64 - 2 ^ 38 := by decide
  rw [physAddr, word, Pte.ppn_new hppn hflags]
  obtain rfl | rfl : k = 0 ∨ k = 1 := by omega
  all_goals
    simp only [baseAddr, pageNum, physToVirt, hoffset, pageSize, ptePerTable]
    omega

theorem Painted.walk_gap (h : Painted A s t rest F need) (hF : F (pageNum pa) = none) :
    Sv39.walk s.mem t.root (physToVirt pa) = .fault := by
  have hv : pageNum pa < 2 ^ 26 := by
    simp only [pageNum, pageSize]
    omega
  obtain ⟨r, maps, hwalk⟩ := h.walk_eq (canonical_high hpa)
  rwa [pageNum_physToVirt, maps.find_none hv hF] at hwalk

end

/-- The lower half is empty. -/
theorem Painted.walk_low (h : Painted A s t rest F need) {va : Nat} (hva : va < 2 ^ 38) :
    Sv39.walk s.mem t.root va = .fault := by
  obtain ⟨r, maps, hwalk⟩ := h.walk_eq (.inl hva)
  have hindex : pageNum va / 2 ^ 18 % 512 < 256 := by
    simp only [pageNum, pageSize]
    omega
  have htable : [pageNum va / 2 ^ 18 % 512] ∉ r.tables := fun hin => by
    have := maps.low _ hin
    omega
  rw [indices_eq, Trie.find, maps.high] at hwalk
  simp only [Trie.find_below _ htable] at hwalk
  exact hwalk

/-! ## The start -/

theorem Painted.start (holds : A.Holds s rest) (hroot : [] ∈ need) (room : need.card ≤ A.avail s) :
    ∃ s' sp, AddressSpace.new A.toFrameAllocator s = (some sp, s') ∧
      Painted A s' sp.table rest (fun _ => none) need := by
  have hpos : 0 < A.avail s := Nat.lt_of_lt_of_le (Finset.card_pos.mpr ⟨_, hroot⟩) room
  obtain ⟨f, s', halloc, havail⟩ := A.alloc_one holds hpos
  have hnew : PageTable.new A.toFrameAllocator s = (some ⟨f.ppn, [f]⟩, s') := by
    rw [PageTable.new, halloc]
  refine ⟨s', ⟨⟨f.ppn, [f]⟩, []⟩, by rw [AddressSpace.new, hnew], _, .bare,
    Trie.Shows.fresh holds hnew, ⟨fun _ => rfl, ?_, fun _ _ => ⟨rfl, rfl⟩,
      fun _ _ none => (by cases none), fun _ _ none => (by cases none), ?_⟩, ?_, ?_⟩
  · simp [Trie.bare]
  · simp [Trie.bare, mega]
  · simpa [Trie.bare] using hroot
  · have : Trie.bare.tables.card = 1 := rfl
    omega

/-! ## The layout in pages -/

/-- The tables that windows take at most: the root, one for the devices' gibibyte and
one for DRAM's, and one at either end of a window. -/
def tablesFor (ws : List (Nat × Nat × Nat)) : Finset (List Nat) :=
  {[], giga 0, giga 0x80000} ∪ (ws.map fun w => mega w.1).toFinset ∪
    (ws.map fun w => mega (w.2.1 - 1)).toFinset

theorem card_tablesFor (ws : List (Nat × Nat × Nat)) :
    (tablesFor ws).card ≤ 3 + ws.length + ws.length := by
  have hthree : ({[], giga 0, giga 0x80000} : Finset (List Nat)).card ≤ 3 := Finset.card_le_three
  have hfst := List.toFinset_card_le (ws.map fun w => mega w.1)
  have hsnd := List.toFinset_card_le (ws.map fun w => mega (w.2.1 - 1))
  rw [List.length_map] at hfst hsnd
  have := Finset.card_union_le ({[], giga 0, giga 0x80000} ∪ (ws.map fun w => mega w.1).toFinset)
    (ws.map fun w => mega (w.2.1 - 1)).toFinset
  have := Finset.card_union_le {[], giga 0, giga 0x80000} (ws.map fun w => mega w.1).toFinset
  rw [tablesFor]
  omega

/-- In the gibibyte of the devices, or in DRAM. -/
def Within (w : Nat × Nat × Nat) : Prop :=
  w.1 ≤ w.2.1 ∧ (w.2.1 ≤ 2 ^ 18 ∨ 0x80000 ≤ w.1 ∧ w.2.1 ≤ 0x88000)

theorem needs_tablesFor {ws : List (Nat × Nat × Nat)} {w : Nat × Nat × Nat} (hw : w ∈ ws)
    (within : Within w) : Needs (tablesFor ws) w.1 w.2.1 := by
  constructor
  · intro v lo hi
    have hgiga : giga v = giga 0 ∨ giga v = giga 0x80000 := by
      simp only [giga, List.cons.injEq, and_true]
      have := within.2
      omega
    simp only [tablesFor, Finset.mem_union, Finset.mem_insert, Finset.mem_singleton]
    exact .inl (.inl (.inr hgiga))
  · intro v lo hi edge
    have hmega : mega v = mega w.1 ∨ mega v = mega (w.2.1 - 1) := by
      rw [mega_inj, mega_inj]
      omega
    simp only [tablesFor, Finset.mem_union, List.mem_toFinset, List.mem_map]
    rcases hmega with h | h
    · exact .inl (.inr ⟨w, hw, h.symm⟩)
    · exact .inr ⟨w, hw, h.symm⟩

theorem fits_tablesFor {ws : List (Nat × Nat × Nat)} (within : ∀ w ∈ ws, Within w)
    (legal : ∀ w ∈ ws, LegalFlags w.2.2)
    (apart : ws.Pairwise fun w w' => w.2.1 ≤ w'.1 ∨ w'.2.1 ≤ w.1) :
    Fits (tablesFor ws) (fun _ => none) ws := by
  refine ⟨fun w hw => ⟨(within w hw).1, ?_, legal w hw, needs_tablesFor hw (within w hw)⟩,
    fun _ _ _ _ _ => rfl, apart⟩
  have := (within w hw).2
  omega

end

end Linear

namespace Layout

open Linear

theorem exists_page {va : Nat} (aligned : va % pageSize = 0) (high : virtOffset ≤ va) :
    ∃ p, va = physToVirt (baseAddr p) := by
  refine ⟨(va - virtOffset) / pageSize, ?_⟩
  have hoffset : virtOffset % pageSize = 0 := by decide
  simp only [physToVirt, baseAddr, pageSize] at *
  omega

/-- The windows of a linked layout in physical pages. -/
theorem Linked.pages {l : Layout} (h : l.Linked) : ∃ us k vs,
    l.sections = us.map virtual ∧ l.kernelEnd = physToVirt (baseAddr k) ∧
    (mmioRegions.map fun r =>
      (physToVirt r.1, physToVirt (r.1 + r.2), PteFlags.rw ||| PteFlags.global)) = vs.map virtual ∧
    (us ++ (k, 0x88000, PteFlags.rw ||| PteFlags.global) :: vs).length = 10 ∧
    Fits (tablesFor (us ++ (k, 0x88000, PteFlags.rw ||| PteFlags.global) :: vs)) (fun _ => none)
      (us ++ (k, 0x88000, PteFlags.rw ||| PteFlags.global) :: vs) := by
  have hdram : physToVirt dramBase = physToVirt (baseAddr 0x80000) := rfl
  have hend : physToVirt (dramBase + dramSize) = physToVirt (baseAddr 0x88000) := rfl
  have high : ∀ va, physToVirt (baseAddr 0x80000) ≤ va → virtOffset ≤ va := fun va =>
    Nat.le_trans (Nat.le_add_left _ _)
  have hle : ∀ {p q : Nat}, physToVirt (baseAddr p) ≤ physToVirt (baseAddr q) → p ≤ q := by
    intro p q hpq
    simp only [physToVirt, baseAddr, pageSize] at hpq
    omega
  rcases l with ⟨ts, te, rs, re, ds, de, bs, be, ke⟩
  obtain ⟨aligned, ordered⟩ := h
  simp only [List.forall_mem_cons, List.not_mem_nil, false_implies, implies_true, and_true,
    List.pairwise_cons, List.Pairwise.nil, hdram, hend] at aligned ordered
  obtain ⟨ats, ate, ars, are, ads, ade, abs, abe, ake⟩ := aligned
  obtain ⟨⟨lts, lte, lrs, lre, lds, lde, lbs, lbe, lke, -⟩, ots, ote, ors, ore, ods, ode, obs, obe,
    oke⟩ := ordered
  obtain ⟨t₀, rfl⟩ := exists_page ats (high _ lts)
  obtain ⟨t₁, rfl⟩ := exists_page ate (high _ lte)
  obtain ⟨r₀, rfl⟩ := exists_page ars (high _ lrs)
  obtain ⟨r₁, rfl⟩ := exists_page are (high _ lre)
  obtain ⟨d₀, rfl⟩ := exists_page ads (high _ lds)
  obtain ⟨d₁, rfl⟩ := exists_page ade (high _ lde)
  obtain ⟨b₀, rfl⟩ := exists_page abs (high _ lbs)
  obtain ⟨b₁, rfl⟩ := exists_page abe (high _ lbe)
  obtain ⟨k, rfl⟩ := exists_page ake (high _ lke)
  have h₀ := hle lts
  have h₁ := hle ots.1
  have h₂ := hle ote.1
  have h₃ := hle ors.1
  have h₄ := hle ore.1
  have h₅ := hle ods.1
  have h₆ := hle ode.1
  have h₇ := hle obs.1
  have h₈ := hle obe.1
  have h₉ := hle oke
  refine ⟨[(t₀, t₁, PteFlags.rx ||| PteFlags.global), (r₀, r₁, PteFlags.read ||| PteFlags.global),
    (d₀, d₁, PteFlags.rw ||| PteFlags.global), (b₀, b₁, PteFlags.rw ||| PteFlags.global)], k,
    [(0x100, 0x101, PteFlags.rw ||| PteFlags.global),
      (0x2000, 0x2010, PteFlags.rw ||| PteFlags.global),
      (0xc000, 0xc600, PteFlags.rw ||| PteFlags.global),
      (0x10000, 0x10001, PteFlags.rw ||| PteFlags.global),
      (0x10001, 0x10009, PteFlags.rw ||| PteFlags.global)], rfl, rfl, rfl, rfl, ?_⟩
  have legalRx : LegalFlags (PteFlags.rx ||| PteFlags.global) := ⟨by decide, by decide, by decide⟩
  have legalR : LegalFlags (PteFlags.read ||| PteFlags.global) := ⟨by decide, by decide, by decide⟩
  have legalRw : LegalFlags (PteFlags.rw ||| PteFlags.global) := ⟨by decide, by decide, by decide⟩
  refine fits_tablesFor ?_ ?_ ?_
  · simp only [List.cons_append, List.nil_append, List.forall_mem_cons, List.not_mem_nil,
      false_implies, implies_true, and_true, Linear.Within]
    omega
  · simp only [List.cons_append, List.nil_append, List.forall_mem_cons, List.not_mem_nil,
      false_implies, implies_true, and_true, legalRx, legalR, legalRw]
  · simp only [List.cons_append, List.nil_append, List.pairwise_cons, List.forall_mem_cons,
      List.not_mem_nil, false_implies, implies_true, and_true, List.Pairwise.nil]
    omega

section
variable {l : Layout} {w : Nat × Nat × Nat}

/-- Only the text is executable, and it is not writable. -/
theorem mem_windows (hw : w ∈ l.windows) :
    w = (l.textStart, l.textEnd, PteFlags.rx ||| PteFlags.global) ∨
      w.2.2 = PteFlags.read ||| PteFlags.global ∨ w.2.2 = PteFlags.rw ||| PteFlags.global := by
  simp only [windows, sections, mmioRegions, List.cons_append, List.nil_append, List.map_cons,
    List.map_nil, List.mem_cons, List.not_mem_nil, or_false] at hw
  rcases hw with rfl | rfl | hw
  · exact .inl rfl
  · exact .inr (.inl rfl)
  · rcases hw with rfl | rfl | rfl | rfl | rfl | rfl | rfl | rfl <;> exact .inr (.inr rfl)

theorem windows_user (hw : w ∈ l.windows) :
    PteFlags.contains (PteFlags.present w.2.2) PteFlags.user = false := by
  obtain hf | hf | hf : w.2.2 = PteFlags.rx ||| PteFlags.global ∨ _ :=
    (mem_windows hw).imp_left fun h => by rw [h]
  all_goals
    rw [hf]
    rfl

theorem windows_exec (hw : w ∈ l.windows)
    (exec : PteFlags.contains (PteFlags.present w.2.2) PteFlags.exec = true) :
    w = (l.textStart, l.textEnd, PteFlags.rx ||| PteFlags.global) := by
  rcases mem_windows hw with hw | hw | hw
  · exact hw
  · rw [hw] at exec
    contradiction
  · rw [hw] at exec
    contradiction

/-- No window lies below the text in DRAM. -/
theorem Linked.firmware (h : l.Linked) (hw : w ∈ l.windows) :
    l.textStart ≤ w.1 ∨ w.2.1 ≤ physToVirt dramBase := by
  have ordered := h.ordered
  simp only [List.forall_mem_cons, List.not_mem_nil, false_implies, implies_true, and_true,
    List.pairwise_cons, List.Pairwise.nil] at ordered
  simp only [windows, sections, mmioRegions, List.cons_append, List.nil_append, List.map_cons,
    List.map_nil, List.mem_cons, List.not_mem_nil, or_false] at hw
  rcases hw with rfl | rfl | rfl | rfl | rfl | rfl | rfl | rfl | rfl | rfl
  iterate 5 exact .inl (by dsimp only; omega)
  all_goals exact .inr (by decide)

/-- What is mapped is in a window and has the flags of the window. -/
theorem Mapped.of_exact {m : Mem} {root : Nat} (h : l.Linked)
    (inside : ∀ w ∈ l.windows, ∀ va, w.1 ≤ va → va < w.2.1 → ∃ k pte,
      Sv39.walk m root va = .leaf k pte ∧ physAddr k pte va = virtToPhys va ∧
        Pte.flags pte = PteFlags.present w.2.2)
    (outside : ∀ va, (∀ w ∈ l.windows, ¬ (w.1 ≤ va ∧ va < w.2.1)) → Sv39.walk m root va = .fault) :
    l.Mapped m root := by
  have text : PteFlags.contains (PteFlags.present (PteFlags.rx ||| PteFlags.global)) PteFlags.exec =
      true ∧ PteFlags.contains (PteFlags.present (PteFlags.rx ||| PteFlags.global)) PteFlags.write =
      false := by decide
  have flags : ∀ va k pte, Sv39.walk m root va = .leaf k pte → ∃ w ∈ l.windows, w.1 ≤ va ∧
      va < w.2.1 ∧ Pte.flags pte = PteFlags.present w.2.2 := by
    intro va k pte hwalk
    by_contra hno
    have hout : ∀ w ∈ l.windows, ¬ (w.1 ≤ va ∧ va < w.2.1) := by
      rintro w hw ⟨lo, hi⟩
      obtain ⟨k', pte', hwalk', -, hflags⟩ := inside w hw va lo hi
      obtain ⟨-, rfl⟩ := Sv39.Walk.leaf.inj (hwalk.symm.trans hwalk')
      exact hno ⟨w, hw, lo, hi, hflags⟩
    exact nomatch hwalk.symm.trans (outside va hout)
  refine ⟨inside, outside, fun va k pte hwalk => ?_, fun va k pte hwalk => ?_,
    fun va k pte hwalk => ?_, fun va lo hi => outside va fun w hw hin => ?_⟩
  · obtain ⟨w, hw, -, -, hflags⟩ := flags va k pte hwalk
    rw [Sv39.has, hflags]
    exact windows_user hw
  · constructor
    · obtain ⟨w, hw, lo, hi, hflags⟩ := flags va k pte hwalk
      rw [Sv39.has, hflags]
      intro exec
      obtain rfl := windows_exec hw exec
      exact ⟨lo, hi⟩
    · rintro ⟨lo, hi⟩
      obtain ⟨k', pte', hwalk', -, hflags⟩ := inside _ List.mem_cons_self va lo hi
      obtain ⟨-, rfl⟩ := Sv39.Walk.leaf.inj (hwalk.symm.trans hwalk')
      rw [Sv39.has, hflags]
      exact text.1
  · obtain ⟨w, hw, -, -, hflags⟩ := flags va k pte hwalk
    rw [Sv39.has, Sv39.has, hflags]
    rintro ⟨write, exec⟩
    rw [windows_exec hw exec] at write
    exact Bool.false_ne_true (text.2.symm.trans write)
  · have := h.firmware hw
    omega

end

end Layout

/-- The walk of painted tables, in the addresses of the windows. -/
theorem Linear.Painted.mapped {σ : Type} {A : CountedAllocator σ} {s : Phys σ} {t : PageTable}
    {rest : Multiset Frame} {need : Finset (List Nat)} {ws : List (Nat × Nat × Nat)} {l : Layout}
    (h : Painted A s t rest (paint (fun _ => none) ws) need) (fits : Fits need (fun _ => none) ws)
    (same : l.windows = ws.map virtual) (hl : l.Linked) : l.Mapped s.mem t.root := by
  have hoffset : virtOffset = 2 ^ 64 - 2 ^ 38 := by decide
  have hin : ∀ pa, ∀ w : Nat × Nat × Nat, (virtual w).1 ≤ physToVirt pa ∧
      physToVirt pa < (virtual w).2.1 ↔ w.1 ≤ pageNum pa ∧ pageNum pa < w.2.1 := by
    intro pa w
    simp only [virtual, physToVirt, baseAddr, pageNum, pageSize]
    omega
  refine Layout.Mapped.of_exact hl (fun w hw va lo hi => ?_) fun va out => ?_
  · obtain ⟨u, hu, rfl⟩ := List.mem_map.mp (same ▸ hw)
    have hlt := (fits.each u hu).2.1
    have hva : va = physToVirt (virtToPhys va) := by
      simp only [virtual, physToVirt, virtToPhys] at lo ⊢
      omega
    have hpa : virtToPhys va < 2 ^ 38 := by
      simp only [virtual, physToVirt, virtToPhys, baseAddr, pageSize] at hi ⊢
      omega
    generalize virtToPhys va = pa at *
    subst hva
    obtain ⟨hlo, hhi⟩ := (hin pa u).mp ⟨lo, hi⟩
    have hF : paint (fun _ => none) ws (pageNum pa) = some u.2.2 := fits.paint_some hu hlo hhi
    exact h.walk_page hpa hF
  · by_cases canonical : Sv39.Canonical va
    · rcases canonical with low | ⟨lo, hi⟩
      · exact h.walk_low low
      · obtain ⟨pa, rfl⟩ : ∃ pa, va = physToVirt pa := ⟨va - virtOffset, by
          simp only [physToVirt]
          omega⟩
        have hpa : pa < 2 ^ 38 := by
          simp only [physToVirt] at hi
          omega
        refine h.walk_gap hpa (Fits.paint_none rfl fun w hw hw' => ?_)
        exact out (virtual w) (same ▸ List.mem_map_of_mem hw) ((hin pa w).mpr hw')
    · rw [Sv39.walk, if_neg canonical]

section
variable {σ : Type} {A : CountedAllocator σ} {s : Phys σ} {rest : Multiset Frame} {l : Layout}

theorem initKernelSpace_eq {A : FrameAllocator σ} {s₁ s₂ s₃ s' : Phys σ}
    {sp₁ sp₂ sp₃ sp : AddressSpace} (hnew : AddressSpace.new A s = (some sp₁, s₁))
    (hsections : pushSections A s₁ sp₁ l.sections = some (s₂, sp₂))
    (hwindow : pushLinear A s₂ sp₂ (physToVirt l.kernelEndPhys) (physToVirt (dramBase + dramSize))
      (PteFlags.rw ||| PteFlags.global) = some (s₃, sp₃))
    (hmmio : pushMmio A s₃ sp₃ mmioRegions = some (s', sp)) :
    initKernelSpace A s l = some (s', sp) := by
  rw [initKernelSpace, hnew]
  refine Option.bind_eq_some_iff.mpr ⟨(s₂, sp₂), hsections, ?_⟩
  exact Option.bind_eq_some_iff.mpr ⟨(s₃, sp₃), hwindow, hmmio⟩

/-- However the sections are placed, every push succeeds and the tables are exact:
twenty-three frames are enough. -/
theorem initKernelSpace_mapped (holds : A.Holds s rest) (hl : l.Linked) (room : 23 ≤ A.avail s) :
    ∃ s' sp, initKernelSpace A.toFrameAllocator s l = some (s', sp) ∧
      l.Mapped s'.mem sp.table.root := by
  obtain ⟨us, k, vs, hus, hk, hvs, length, fits⟩ := hl.pages
  have card := Linear.card_tablesFor (us ++ (k, 0x88000, PteFlags.rw ||| PteFlags.global) :: vs)
  obtain ⟨s₁, sp₁, hnew, painted₁⟩ := Linear.Painted.start holds
    (by simp [Linear.tablesFor]) (Nat.le_trans card (by omega))
  obtain ⟨s₂, sp₂, hsections, painted₂⟩ := painted₁.pushSections fits.left
  obtain ⟨s₃, sp₃, hwindow, painted₃⟩ := painted₂.pushWindow fits.right
  obtain ⟨s', sp, hmmio, painted⟩ := painted₃.pushMmio fits.right.tail hvs.symm
  have hdram : physToVirt (dramBase + dramSize) = physToVirt (baseAddr 0x88000) := by decide
  have hend : physToVirt l.kernelEndPhys = physToVirt (baseAddr k) := by
    simp only [Layout.kernelEndPhys, hk, virtToPhys, physToVirt, Nat.add_sub_cancel]
  refine ⟨s', sp, ?_, ?_⟩
  · rw [← hus] at hsections
    rw [Linear.virtual, ← hend, ← hdram] at hwindow
    exact initKernelSpace_eq hnew hsections hwindow hmmio
  · have same : l.windows =
        (us ++ (k, 0x88000, PteFlags.rw ||| PteFlags.global) :: vs).map Linear.virtual := by
      rw [Layout.windows, hus, hk, hvs, hdram, List.map_append, List.map_cons, Linear.virtual]
    have hpaint := Linear.paint_append (fun _ => none) us
      ((k, 0x88000, PteFlags.rw ||| PteFlags.global) :: vs)
    have all := hpaint.symm ▸ painted
    exact all.mapped fits same hl

end

/-- An image of 2 MiB at the start of what the firmware leaves, with no `.data`. -/
def smallLayout : Layout :=
  ⟨0xffffffc080200000, 0xffffffc080234000, 0xffffffc080234000, 0xffffffc080240000,
    0xffffffc080240000, 0xffffffc080240000, 0xffffffc080240000, 0xffffffc080400000,
    0xffffffc080400000⟩

theorem smallLayout_mapped : ∃ s : Phys Buddy.BuddyAllocator, ∃ s' sp,
    initKernelSpace Buddy.merging.toFrameAllocator s smallLayout = some (s', sp) ∧
      smallLayout.Mapped s'.mem sp.table.root := by
  obtain ⟨s, -, holds, havail⟩ := Buddy.merging_boot
  exact ⟨s, initKernelSpace_mapped holds ⟨by decide, by decide⟩ (by omega)⟩

end AlexOS
