import AlexOS.Loader
import AlexOS.Mm.Contents

/-!
# The images the loader takes

The format in its own words: the fields of the header and of the program headers
of kind `PT_LOAD`, the checks on them, and the pages they span. `read_header` and
`read_segment` pass exactly what meets the checks, and return the fields.
-/

namespace AlexOS.Loader

variable {image : List UInt8} {ph va : Nat}

/-- The little-endian number in `n` bytes at `off`. -/
def word (image : List UInt8) (n off : Nat) : Nat := leValue ((image.drop off).take n)

def headerAt (image : List UInt8) (i : Nat) : Nat := word image 8 32 + i * word image 2 54

def headers (image : List UInt8) : List Nat := (List.range (word image 2 56)).map (headerAt image)

/-! ## A program header -/

def pFlags (image : List UInt8) (ph : Nat) : Nat := word image 4 (ph + 4)
def pOffset (image : List UInt8) (ph : Nat) : Nat := word image 8 (ph + 8)
def pVaddr (image : List UInt8) (ph : Nat) : Nat := word image 8 (ph + 16)
def pFilesz (image : List UInt8) (ph : Nat) : Nat := word image 8 (ph + 32)
def pMemsz (image : List UInt8) (ph : Nat) : Nat := word image 8 (ph + 40)

def isLoad (image : List UInt8) (ph : Nat) : Bool := word image 4 ph == ptLoad

structure Described (image : List UInt8) (ph : Nat) : Prop where
  inside : ph + 48 ≤ image.length
  filesz : pFilesz image ph ≤ pMemsz image ph
  low : pageSize ≤ pVaddr image ph
  high : pVaddr image ph + pMemsz image ph ≤ userMaxAddr
  data : pOffset image ph + pFilesz image ph ≤ image.length

structure Readable (image : List UInt8) (ph : Nat) : Prop where
  kind : ph + 4 ≤ image.length
  described : isLoad image ph = true → Described image ph

def segmentAt (image : List UInt8) (ph : Nat) : Segment :=
  ⟨pFlags image ph, pVaddr image ph, pVaddr image ph + pMemsz image ph,
    (image.drop (pOffset image ph)).take (pFilesz image ph)⟩

/-- The first address past the pages of a segment. -/
def spanEnd (image : List UInt8) (ph : Nat) : Nat :=
  nextMultipleOf (pVaddr image ph + pMemsz image ph) pageSize

def InSpan (image : List UInt8) (ph va : Nat) : Prop :=
  alignDown (pVaddr image ph) ≤ va ∧ va < spanEnd image ph

def spanPages (image : List UInt8) (ph : Nat) : List Nat :=
  List.range' (pageNum (pVaddr image ph)) (pageNum (spanEnd image ph) - pageNum (pVaddr image ph))

theorem inSpan_iff : InSpan image ph va ↔ pageNum va ∈ spanPages image ph := by
  rw [spanPages, List.mem_range'_1, InSpan]
  simp only [spanEnd, alignDown, nextMultipleOf, pageNum, pageSize]
  omega

/-- The byte the image gives an address of a segment. -/
def imageByte (image : List UInt8) (ph va : Nat) : UInt8 :=
  if pVaddr image ph ≤ va ∧ va < pVaddr image ph + pFilesz image ph
  then image.getD (pOffset image ph + (va - pVaddr image ph)) 0 else 0

theorem readInt_inside (n off : Nat) (h : off + n ≤ image.length) :
    readInt image n off = .ok (word image n off) :=
  if_neg (Nat.not_lt.mpr h)

theorem readInt_outside (n off : Nat) (h : image.length < off + n) :
    readInt image n off = .error .truncated :=
  if_pos h

/-- With the fields inside the image, only the three checks are left. -/
theorem readSegment_fields (hload : isLoad image ph = true) (inside : ph + 48 ≤ image.length) :
    readSegment image ph =
      if pMemsz image ph < pFilesz image ph then .error .badSegment
      else if userMaxAddr < pVaddr image ph + pMemsz image ph ∨ pVaddr image ph < pageSize then
        .error .badAddress
      else if image.length < pOffset image ph + pFilesz image ph then .error .truncated
      else .ok (some (segmentAt image ph)) := by
  have hkind : word image 4 ph = ptLoad := by simpa [isLoad] using hload
  have h₀ : readInt image 4 ph = _ := readInt_inside _ _ (by omega)
  have h₁ : readInt image 4 (ph + 4) = _ := readInt_inside _ _ (by omega)
  have h₂ : readInt image 8 (ph + 8) = _ := readInt_inside _ _ (by omega)
  have h₃ : readInt image 8 (ph + 16) = _ := readInt_inside _ _ (by omega)
  have h₄ : readInt image 8 (ph + 32) = _ := readInt_inside _ _ (by omega)
  have h₅ : readInt image 8 (ph + 40) = _ := readInt_inside _ _ (by omega)
  simp only [readSegment, h₀, h₁, h₂, h₃, h₄, h₅, hkind, bind, Except.bind, pure, Except.pure,
    throw, throwThe, MonadExceptOf.throw, ne_eq, not_true_eq_false, if_false]
  rfl

theorem readSegment_cases (image : List UInt8) (ph : Nat) :
    ((∃ e, readSegment image ph = .error e) ∧ ¬ Readable image ph) ∨
    (readSegment image ph = .ok none ∧ isLoad image ph = false ∧ Readable image ph) ∨
    (readSegment image ph = .ok (some (segmentAt image ph)) ∧ isLoad image ph = true ∧
      Readable image ph) := by
  by_cases hkind : ph + 4 ≤ image.length
  case neg =>
    refine .inl ⟨⟨.truncated, ?_⟩, fun r => hkind r.kind⟩
    simp only [readSegment, readInt_outside 4 ph (show image.length < ph + 4 by omega),
      bind, Except.bind]
  cases hload : isLoad image ph with
  | false =>
    have hne : word image 4 ph ≠ ptLoad := by simpa [isLoad] using hload
    refine .inr (.inl ⟨?_, rfl, hkind, fun h => by rw [hload] at h; cases h⟩)
    simp only [readSegment, readInt_inside 4 ph hkind, bind, Except.bind, hne,
      ne_eq, not_false_eq_true,
      if_true]
    rfl
  | true =>
    by_cases hinside : ph + 48 ≤ image.length
    case neg =>
      refine .inl ⟨?_, fun r => hinside (r.described hload).inside⟩
      have hlast := readInt_outside 8 (ph + 40) (show image.length < ph + 40 + 8 by omega)
      have hkind' : word image 4 ph = ptLoad := by simpa [isLoad] using hload
      simp only [readSegment, readInt_inside 4 ph hkind, hlast, bind, Except.bind, hkind', ne_eq,
        not_true_eq_false, if_false, pure, Except.pure]
      rcases readInt image 4 (ph + 4) with _ | _
      · exact ⟨_, rfl⟩
      rcases readInt image 8 (ph + 8) with _ | _
      · exact ⟨_, rfl⟩
      rcases readInt image 8 (ph + 16) with _ | _
      · exact ⟨_, rfl⟩
      rcases readInt image 8 (ph + 32) with _ | _
      · exact ⟨_, rfl⟩
      · exact ⟨_, rfl⟩
    rw [readSegment_fields hload hinside]
    split
    · exact .inl ⟨⟨_, rfl⟩, fun r => by have := (r.described hload).filesz; omega⟩
    split
    · refine .inl ⟨⟨_, rfl⟩, fun r => ?_⟩
      have := (r.described hload).high
      have := (r.described hload).low
      omega
    split
    · exact .inl ⟨⟨_, rfl⟩, fun r => by have := (r.described hload).data; omega⟩
    · exact .inr (.inr ⟨rfl, rfl, hkind, fun _ =>
        ⟨hinside, by omega, by omega, by omega, by omega⟩⟩)

/-! ## The image -/

def loads (image : List UInt8) : List Nat := (headers image).filter (isLoad image)

/-- The fixed part of the header. -/
structure Identified (image : List UInt8) : Prop where
  length : 64 ≤ image.length
  magic : image.take 4 = [0x7f, 0x45, 0x4c, 0x46]
  elfClass : image.getD 4 0 = 2
  encoding : image.getD 5 0 = 1
  type : word image 2 16 = 2
  machine : word image 2 18 = 243

/-- An image that is well formed. -/
structure Accepts (image : List UInt8) : Prop extends Identified image where
  kinds : ∀ ph ∈ headers image, ph + 4 ≤ image.length
  segment : loads image ≠ []
  described : ∀ ph ∈ loads image, Described image ph
  disjoint : (loads image).Pairwise fun a b => ∀ va, ¬ (InSpan image a va ∧ InSpan image b va)

def headerOf (image : List UInt8) : Header :=
  ⟨word image 8 24, word image 8 32, word image 2 54, word image 2 56⟩

theorem readHeader_cases (image : List UInt8) :
    ((∃ e, readHeader image = .error e) ∧ ¬ Identified image) ∨
    (readHeader image = .ok (headerOf image) ∧ Identified image) := by
  by_cases hlen : 64 ≤ image.length
  case neg =>
    refine .inl ⟨⟨.truncated, ?_⟩, fun h => hlen h.length⟩
    simp [readHeader, show image.length < 64 by omega, throw, throwThe, MonadExceptOf.throw, bind,
      Except.bind]
  have h₁ : readInt image 2 16 = _ := readInt_inside _ _ (by omega)
  have h₂ : readInt image 2 18 = _ := readInt_inside _ _ (by omega)
  have h₃ : readInt image 8 24 = _ := readInt_inside _ _ (by omega)
  have h₄ : readInt image 8 32 = _ := readInt_inside _ _ (by omega)
  have h₅ : readInt image 2 54 = _ := readInt_inside _ _ (by omega)
  have h₆ : readInt image 2 56 = _ := readInt_inside _ _ (by omega)
  simp only [readHeader, h₁, h₂, h₃, h₄, h₅, h₆, Nat.not_lt.mpr hlen, if_false, throw, throwThe,
    MonadExceptOf.throw, bind, Except.bind, pure, Except.pure]
  by_cases hmagic : image.take 4 = elfMagic
  case neg => exact .inl ⟨⟨.badMagic, by rw [if_pos hmagic]⟩, fun h => hmagic h.magic⟩
  rw [if_neg (not_not.mpr hmagic)]
  by_cases hformat : image.getD 4 0 ≠ elfClass64 ∨ image.getD 5 0 ≠ elfData2Lsb
  case pos =>
    refine .inl ⟨⟨.wrongFormat, by rw [if_pos hformat]⟩, fun h => ?_⟩
    exact hformat.elim (fun hc => hc h.elfClass) fun hd => hd h.encoding
  rw [if_neg hformat]
  by_cases htype : word image 2 16 ≠ etExec ∨ word image 2 18 ≠ emRiscv
  case pos =>
    refine .inl ⟨⟨.wrongFormat, by rw [if_pos htype]⟩, fun h => ?_⟩
    exact htype.elim (fun ht => ht h.type) fun hm => hm h.machine
  rw [if_neg htype]
  obtain ⟨hclass, hdata⟩ := not_or.mp hformat
  obtain ⟨ht, hm⟩ := not_or.mp htype
  exact .inr ⟨rfl, hlen, hmagic, not_not.mp hclass, not_not.mp hdata, not_not.mp ht, not_not.mp hm⟩

/-- The pages of the segments, in the order of their headers. -/
def imagePages (image : List UInt8) : List Nat := (loads image).flatMap (spanPages image)

theorem disjoint_iff : (imagePages image).Nodup ↔
    (loads image).Pairwise fun a b => ∀ va, ¬ (InSpan image a va ∧ InSpan image b va) := by
  have one : ∀ ph ∈ loads image, (spanPages image ph).Nodup := fun ph _ => List.nodup_range'
  rw [imagePages, List.nodup_flatMap, and_iff_right one]
  refine List.Pairwise.iff fun a b => ?_
  simp only [Function.onFun, inSpan_iff]
  constructor
  · rintro apart va ⟨ha, hb⟩
    exact apart ha hb
  · intro apart v ha hb
    have hv : pageNum (baseAddr v) = v := Nat.mul_div_cancel v (by decide)
    exact apart (baseAddr v) ⟨by rwa [hv], by rwa [hv]⟩

/-- What the loader checks: the header, each program header, one of them loaded,
and no page asked for twice. -/
theorem accepts_iff : Accepts image ↔ Identified image ∧ (∀ ph ∈ headers image, Readable image ph) ∧
    loads image ≠ [] ∧ (imagePages image).Nodup := by
  rw [disjoint_iff]
  constructor
  · intro h
    refine ⟨h.toIdentified, fun ph hph => ⟨h.kinds ph hph, fun hload => ?_⟩, h.segment, h.disjoint⟩
    exact h.described ph (List.mem_filter.mpr ⟨hph, hload⟩)
  · rintro ⟨identified, readable, segment, disjoint⟩
    refine ⟨identified, fun ph hph => (readable ph hph).kind, segment, fun ph hph => ?_, disjoint⟩
    obtain ⟨hph, hload⟩ := List.mem_filter.mp hph
    exact (readable ph hph).described hload

/-! ## Offsets -/

theorem leValue_lt (bs : List UInt8) : leValue bs < 256 ^ bs.length := by
  induction bs with
  | nil => decide
  | cons b bs ih =>
    have := b.toNat_lt
    rw [leValue, List.length_cons, Nat.pow_succ]
    omega

theorem word_lt (image : List UInt8) (n off : Nat) : word image n off < 256 ^ n := by
  refine (leValue_lt _).trans_le (Nat.pow_le_pow_right (by decide) ?_)
  exact List.length_take_le _ _

end AlexOS.Loader
