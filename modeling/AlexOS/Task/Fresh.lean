import AlexOS.Loader.Image
import AlexOS.Mm.Coalesce
import AlexOS.Mm.View
import AlexOS.Syscall.Machine
import AlexOS.Task.Ownership

/-!
# What a new program sees

The view of a new image as a function of the image, the arguments and the changes
of the break, with no word about frames or about what memory held before. Loading,
the stack, the arguments and `adjust_brk` are each shown to compute it, so two
kernels with different free memory give their programs the same view.
-/

namespace AlexOS

open Bytes PageTable AddressSpace

/-! ## The view of an image -/

instance (image : List UInt8) (ph va : Nat) : Decidable (Loader.InSpan image ph va) :=
  inferInstanceAs (Decidable (_ ∧ _))

namespace UserView

/-- The segments and nothing else. -/
def ofImage (image : List UInt8) : UserView := fun a =>
  ((Loader.loads image).find? fun ph => Loader.InSpan image ph a).map fun ph =>
    (PteFlags.present (Loader.segmentAt image ph).perm, Loader.imageByte image ph a)

def pushStrings (w : UserView) : List (List UInt8) → Nat → List Nat → UserView × Nat × List Nat
  | [], sp, pointers => (w, sp, pointers)
  | arg :: args, sp, pointers =>
    let sp := (sp - (arg.length + 1)) / 8 * 8
    pushStrings ((w.overlay sp arg).overlay (sp + arg.length) [0]) args sp (pointers ++ [sp])

def pushWords (w : UserView) : List Nat → Nat → UserView
  | [], _ => w
  | word :: words, addr => pushWords (w.overlay addr (leBytes word 8)) words (addr + 8)

def pushArgs (w : UserView) (sp : Nat) (args : List (List UInt8)) : UserView × Nat × Nat × Nat :=
  let (w, sp, pointers) := w.pushStrings args sp []
  let argv := (sp - (pointers.length + 1) * 8) / 16 * 16
  (w.pushWords (pointers ++ [0]) argv, argv, pointers.length, argv)

def userStack (w : UserView) : UserView :=
  w.zeroed (userStackTop - userStackSize) userStackTop
    (PteFlags.present (PteFlags.rw ||| PteFlags.user))

end UserView

/-- A view with the bounds of its heap. -/
structure HeapView where
  view : UserView
  brk : Nat
  top : Nat

/-- A change of the break that is granted: new pages only above the old top. -/
def HeapView.adjust (h : HeapView) (delta : Int) : HeapView :=
  let new := (h.brk + delta).toNat
  if delta = 0 then h
  else if h.top < new then
    ⟨h.view.zeroed (alignDown h.top) (nextMultipleOf new pageSize)
      (PteFlags.present (PteFlags.rw ||| PteFlags.user)), new, nextMultipleOf new pageSize⟩
  else { h with brk := new }

variable {σ : Type} {A : CountedAllocator σ} {s s' : Phys σ} {rest : Multiset Frame}
  {m m' : Mem} {sp sp' : AddressSpace} {image : List UInt8} {args : List (List UInt8)}
  {kernel : PageTable}

/-! ## The code computes it -/

theorem Loader.load_entry {l : LoadedImage}
    (heq : load A.toFrameAllocator s kernel image = some (.ok l, s')) :
    l.entry = (headerOf image).entry := by
  rcases readHeader_cases image with ⟨⟨e, hread⟩, -⟩ | ⟨hread, -⟩
  · simp [load, hread] at heq
  rw [load, hread] at heq
  simp only at heq
  rcases hnew : AddressSpace.new A.toFrameAllocator s with ⟨_ | space, s₁⟩
  · simp [hnew] at heq
  simp only [hnew] at heq
  obtain ⟨⟨res, s₂⟩, -, hout⟩ := Option.bind_eq_some_iff.mp heq
  rcases res with e | ⟨space', brk⟩
  · simp at hout
  simp only at hout
  split at hout
  · obtain ⟨s₃, -, hs⟩ := Option.bind_eq_some_iff.mp hout
    simp at hs
  · obtain ⟨rfl, -⟩ := by simpa using hout
    rfl

theorem Loader.load_view {l : LoadedImage} (holds : A.Holds s rest)
    (heq : load A.toFrameAllocator s kernel image = some (.ok l, s')) :
    A.Holds s' (l.space.frames + rest) ∧ l.space.Exact s'.mem ∧
      l.space.view s'.mem = UserView.ofImage image ∧
      l.brk = ((loads image).map (spanEnd image)).foldl max 0 := by
  obtain ⟨res, s₁, heq₁, out⟩ := load_cases kernel image holds
  rw [heq₁] at heq
  obtain ⟨rfl, rfl⟩ := heq
  rcases out with ⟨l', hl, -, -, holds', exact, loaded, hbrk⟩ | ⟨⟨e, he⟩, -⟩
  swap
  · cases he
  obtain rfl := Except.ok.inj hl
  refine ⟨holds', exact, funext fun a => ?_, hbrk⟩
  have hk : pageOffset a < pageSize := Nat.mod_lt a (by decide)
  rw [UserView.ofImage]
  rcases hfind : (loads image).find? fun ph => InSpan image ph a with _ | ph
  · have outside := List.find?_eq_none.mp hfind
    rw [Option.map_none, exact.view_none]
    intro r hr hv
    obtain ⟨ph, hph, h⟩ := forall₂_mem_right loaded hr
    exact outside ph hph (decide_eq_true (inSpan_iff.mpr (h.mem_keys.mp hv)))
  · obtain ⟨r, hr, h, f, hf⟩ := loaded.region (List.mem_of_find?_eq_some hfind)
      (of_decide_eq_true (List.find?_some hfind :))
    rw [Option.map_some, exact.view_page hr hf, h.perm, h.bytes _ hf _ hk]
    congr 3
    simp only [baseAddr, pageNum, pageOffset, pageSize]
    omega

theorem mapUserStack_view {top : Nat} (holds : A.Holds s (sp.frames + rest)) (h : sp.Exact s.mem)
    (heq : mapUserStack A.toFrameAllocator s sp = some (some top, s', sp')) :
    top = userStackTop ∧ A.Holds s' (sp'.frames + rest) ∧ sp'.Exact s'.mem ∧
      sp'.view s'.mem = (sp.view s.mem).userStack := by
  obtain ⟨r, hnew, u, empty, hperm, hstart, hend⟩ := userStack_region
  simp only [mapUserStack, hnew, Option.bind_eq_bind, Option.bind_some] at heq
  obtain ⟨⟨res, s₁, sp₁⟩, hpush, hout⟩ := Option.bind_eq_some_iff.mp heq
  rcases res with e | ⟨⟩
  · simp at hout
  obtain ⟨rfl, rfl, rfl⟩ := by simpa using hout
  obtain ⟨holds', exact, hview⟩ := push_view holds h u empty (by rw [hstart]; decide)
    (by rw [hend]; decide) (by rw [hstart, hend]; decide) hpush
  refine ⟨rfl, holds', exact, ?_⟩
  rw [hview, hstart, hend, hperm]
  rfl

section
variable (apart : ∀ p, framesOver sp.frames p ≤ 1)
include apart

theorem pushStrings_view {top : Nat} {pointers : List Nat} {out : Nat × List Nat}
    (h : sp.Exact m) (heq : pushStrings sp args m top pointers = some (some out, m')) :
    sp.Exact m' ∧ (sp.view m', out) = (sp.view m).pushStrings args top pointers := by
  induction args generalizing m top pointers with
  | nil =>
    obtain ⟨rfl, rfl⟩ := by simpa [pushStrings] using heq
    exact ⟨h, rfl⟩
  | cons arg args ih =>
    rw [pushStrings] at heq
    split at heq
    · cases heq
    simp only at heq
    rcases hcopy : sp.copyToUser m ((top - (arg.length + 1)) / 8 * 8) arg with ⟨_ | _, m₁⟩
    · simp [hcopy] at heq
    rcases hcopy' : sp.copyToUser m₁ ((top - (arg.length + 1)) / 8 * 8 + arg.length) [0]
      with ⟨_ | _, m₂⟩
    · simp [hcopy, hcopy'] at heq
    simp only [hcopy, hcopy'] at heq
    obtain ⟨-, h₁, hview₁⟩ := copyToUser_view h apart hcopy
    obtain ⟨-, h₂, hview₂⟩ := copyToUser_view h₁ apart hcopy'
    obtain ⟨h', hview⟩ := ih h₂ heq
    refine ⟨h', ?_⟩
    rw [hview, hview₂, hview₁]
    rfl

theorem pushWords_view {words : List Nat} {addr : Nat} (h : sp.Exact m)
    (heq : pushWords sp words m addr = (some (), m')) :
    sp.Exact m' ∧ sp.view m' = (sp.view m).pushWords words addr := by
  induction words generalizing m addr with
  | nil =>
    obtain ⟨-, rfl⟩ := Prod.mk.inj heq
    exact ⟨h, rfl⟩
  | cons word words ih =>
    rw [pushWords] at heq
    rcases hcopy : sp.copyToUser m addr (leBytes word 8) with ⟨_ | _, m₁⟩
    · simp [hcopy] at heq
    simp only [hcopy] at heq
    obtain ⟨-, h₁, hview₁⟩ := copyToUser_view h apart hcopy
    obtain ⟨h', hview⟩ := ih h₁ heq
    refine ⟨h', ?_⟩
    rw [hview, hview₁]
    rfl

theorem pushArgs_view {top : Nat} {out : Nat × Nat × Nat} (h : sp.Exact m)
    (heq : pushArgs sp m top args = some (some out, m')) :
    sp.Exact m' ∧ (sp.view m', out) = (sp.view m).pushArgs top args := by
  obtain ⟨⟨res, m₁⟩, hstr, hout⟩ := Option.bind_eq_some_iff.mp heq
  rcases res with _ | ⟨low, pointers⟩
  · simp at hout
  obtain ⟨h₁, hview₁⟩ := pushStrings_view apart h hstr
  simp only at hout
  split at hout
  · cases hout
  rcases hw : pushWords sp (pointers ++ [0]) m₁ ((low - (pointers.length + 1) * 8) / 16 * 16)
    with ⟨_ | _, m₂⟩
  · simp [hw] at hout
  obtain ⟨rfl, rfl⟩ := by simpa [hw] using hout
  obtain ⟨h₂, hview₂⟩ := pushWords_view apart h₁ hw
  refine ⟨h₂, ?_⟩
  rw [UserView.pushArgs, ← hview₁, hview₂]

end

/-- The frame of a new program and its view, from the image and the arguments alone. -/
structure Visible where
  frame : TrapFrame
  heap : HeapView

def Visible.ofImage (image : List UInt8) (args : List (List UInt8)) : Visible :=
  let (view, sp, argc, argv) := (UserView.ofImage image).userStack.pushArgs userStackTop args
  let brk := max (((Loader.loads image).map (Loader.spanEnd image)).foldl max 0) userHeapBase
  { frame :=
      { x := Function.update (Function.update
        (Function.update (fun _ => 0) 2 (Fin.ofNat (2 ^ 64) sp))
          10 (Fin.ofNat (2 ^ 64) argc)) 11 (Fin.ofNat (2 ^ 64) argv)
        sepc := (Loader.headerOf image).entry }
    heap := ⟨view, brk, brk⟩ }

theorem prepare_view {i : Prepared} (holds : A.Holds s rest)
    (heq : prepare A.toFrameAllocator s kernel image args = some (.ok i, s')) :
    A.Holds s' (i.space.frames + rest) ∧ i.space.Exact s'.mem ∧
      Visible.ofImage image args = ⟨.newUser i, i.space.view s'.mem, max i.brk userHeapBase,
        max i.brk userHeapBase⟩ := by
  obtain ⟨⟨holds', exact'⟩, -⟩ := prepare_spec holds heq
  refine ⟨holds', exact', ?_⟩
  obtain ⟨l, s₁, s₂, top, space, low, argc, argv, mem, hload, hstack, hargs, rfl, rfl⟩ :=
    prepare_ok heq
  obtain ⟨holds₁, exact₁, hview₁, hbrk⟩ := Loader.load_view holds hload
  obtain ⟨rfl, holds₂, exact₂, hview₂⟩ := mapUserStack_view holds₁ exact₁ hstack
  obtain ⟨-, hview₃⟩ := pushArgs_view (apart_of_holds holds₂) exact₂ hargs
  rw [Visible.ofImage, ← hview₁, ← hview₂, ← hview₃, ← hbrk, ← Loader.load_entry hload]
  rfl

/-! ## When there is room -/

def stackPages : List Nat :=
  List.range' (pageNum (userStackTop - userStackSize)) (pageNum userStackSize)

theorem mapUserStack_room (holds : A.Holds s (sp.frames + rest)) (h : sp.Exact s.mem)
    (room : Region.Room A s sp.table stackPages) :
    ∃ s' sp', mapUserStack A.toFrameAllocator s sp = some (some userStackTop, s', sp') ∧
      ∀ vs, (∀ v ∈ vs, v < pages 256) →
        (Region.Room A s sp.table (stackPages ++ vs) ↔ Region.Room A s' sp'.table vs) := by
  obtain ⟨r, hnew, u, empty, hperm, hstart, hend⟩ := userStack_region
  have hpages : List.range' (pageNum r.start) r.pageCount = stackPages := by
    rw [Region.pageCount, hstart, hend]
    rfl
  rw [← hpages] at room ⊢
  obtain ⟨s', sp', hpush, hroom⟩ := push_room holds h u empty (by rw [hstart]; decide)
    (by rw [hend]; decide) (by rw [hstart, hend]; decide) room
  exact ⟨s', sp', by simp [mapUserStack, hnew, hpush], hroom⟩

/-- Stack that the strings take at most. -/
def stringsRoom (args : List (List UInt8)) : Nat := (args.map fun arg => arg.length + 8).sum

section
variable (apart : ∀ p, framesOver sp.frames p ≤ 1)
include apart

theorem pushStrings_some {base top : Nat} (pointers : List Nat) (h : sp.Exact m)
    (granted : (sp.view m).Grants (PteFlags.write ||| PteFlags.user) base (top - base))
    (room : base + stringsRoom args ≤ top) :
    ∃ low ps m', pushStrings sp args m top pointers = some (some (low, ps), m') ∧
      ps.length = pointers.length + args.length ∧ low ≤ top ∧ top ≤ low + stringsRoom args ∧
      sp.Exact m' ∧ (sp.view m').Grants (PteFlags.write ||| PteFlags.user) base (low - base) := by
  induction args generalizing m top pointers with
  | nil => exact ⟨top, pointers, m, rfl, rfl, Nat.le_refl _, Nat.le_refl _, h, granted⟩
  | cons arg args ih =>
    have hsum : stringsRoom (arg :: args) = arg.length + 8 + stringsRoom args := by
      simp [stringsRoom]
    rw [hsum] at room
    rw [pushStrings, if_neg (by omega)]
    simp only
    obtain ⟨at_, hat⟩ : ∃ at_, at_ = (top - (arg.length + 1)) / 8 * 8 := ⟨_, rfl⟩
    rw [← hat]
    have first : (sp.view m).Grants (PteFlags.write ||| PteFlags.user) at_ arg.length :=
      granted.sub (by omega) (by omega)
    obtain ⟨m₁, hcopy, h₁, hview₁⟩ := copyToUser_some h apart first
    have granted₁ := granted.overlay at_ arg
    rw [← hview₁] at granted₁
    have second : (sp.view m₁).Grants (PteFlags.write ||| PteFlags.user) (at_ + arg.length)
        ([0] : List UInt8).length :=
      granted₁.sub (by omega) (by rw [List.length_singleton]; omega)
    obtain ⟨m₂, hcopy', h₂, hview₂⟩ := copyToUser_some h₁ apart second
    have granted₂ := granted₁.overlay (at_ + arg.length) [0]
    rw [← hview₂] at granted₂
    have below : (sp.view m₂).Grants (PteFlags.write ||| PteFlags.user) base (at_ - base) :=
      granted₂.sub (Nat.le_refl _) (by omega)
    obtain ⟨low, ps, m', heq, hlen, hlow, htop, h', granted'⟩ :=
      ih (pointers ++ [at_]) h₂ below (by omega)
    simp only [hcopy, hcopy']
    refine ⟨low, ps, m', heq, ?_, by omega, by omega, h', granted'⟩
    simp only [hlen, List.length_append, List.length_cons, List.length_nil]
    omega

theorem pushWords_some {base top : Nat} (words : List Nat) (addr : Nat) (h : sp.Exact m)
    (granted : (sp.view m).Grants (PteFlags.write ||| PteFlags.user) base (top - base))
    (lo : base ≤ addr) (hi : addr + words.length * 8 ≤ top) :
    ∃ m', pushWords sp words m addr = (some (), m') ∧ sp.Exact m' := by
  induction words generalizing m addr with
  | nil => exact ⟨m, rfl, h⟩
  | cons word words ih =>
    rw [List.length_cons] at hi
    have first : (sp.view m).Grants (PteFlags.write ||| PteFlags.user) addr
        (leBytes word 8).length :=
      granted.sub lo (show addr + 8 ≤ _ by omega)
    obtain ⟨m₁, hcopy, h₁, hview₁⟩ := copyToUser_some h apart first
    have granted₁ := granted.overlay addr (leBytes word 8)
    rw [← hview₁] at granted₁
    rw [pushWords, hcopy]
    exact ih (addr + 8) h₁ granted₁ (by omega) (by omega)

/-- Arguments that fit into the stack are stored there. -/
theorem pushArgs_some {base top : Nat} (h : sp.Exact m)
    (granted : (sp.view m).Grants (PteFlags.write ||| PteFlags.user) base (top - base))
    (room : base + stringsRoom args + (args.length + 1) * 8 + 16 ≤ top) :
    ∃ out m', pushArgs sp m top args = some (some out, m') := by
  have strings : base + stringsRoom args ≤ top := by omega
  obtain ⟨low, ps, m₁, hstr, hlen, hlow, htop, h₁, granted₁⟩ :=
    pushStrings_some apart [] h granted strings
  rw [List.length_nil, Nat.zero_add] at hlen
  obtain ⟨m₂, hw, -⟩ := pushWords_some apart (ps ++ [0])
    ((low - (ps.length + 1) * 8) / 16 * 16) h₁ granted₁ (by omega)
    (by rw [List.length_append, List.length_singleton]; omega)
  have hlt : ¬ low < (ps.length + 1) * 8 := by omega
  exact ⟨_, m₂, by simp [pushArgs, hstr, hw, hlt]; rfl⟩

end

theorem stack_grants (w : UserView) :
    w.userStack.Grants (PteFlags.write ||| PteFlags.user) (userStackTop - userStackSize)
      (userStackTop - (userStackTop - userStackSize)) := by
  intro a lo hi
  refine ⟨_, if_pos ⟨lo, ?_⟩, by decide⟩
  simp only [userStackTop, userStackSize] at *
  omega

theorem nil_fits :
    stringsRoom [] + (([] : List (List UInt8)).length + 1) * 8 + 16 ≤ userStackSize := by
  decide

theorem stack_room (fit : stringsRoom args + (args.length + 1) * 8 + 16 ≤ userStackSize) :
    userStackTop - userStackSize + stringsRoom args + (args.length + 1) * 8 + 16 ≤
      userStackTop := by
  simp only [userStackTop, userStackSize] at *
  omega

theorem mapUserStack_some (holds : A.Holds s (sp.frames + rest)) (h : sp.Exact s.mem) :
    ∃ top s' sp', mapUserStack A.toFrameAllocator s sp = some (top, s', sp') := by
  obtain ⟨r, hnew, u, empty, -⟩ := userStack_region
  obtain ⟨res, s₁, sp₁, hpush, -⟩ := push_spec holds h.toFormed u empty
  rcases res with e | ⟨⟩
  · exact ⟨none, s₁, sp₁, by simp [mapUserStack, hnew, hpush]⟩
  · exact ⟨some userStackTop, s₁, sp₁, by simp [mapUserStack, hnew, hpush]⟩

/-- An image of the format whose pages and stack there are frames for is built, with
arguments that fit into the stack. -/
theorem prepare_room (kernel : PageTable) (holds : A.Holds s rest) (accepts : Loader.Accepts image)
    (nodup : (Loader.imagePages image ++ stackPages).Nodup)
    (frames : Loader.pagesCost (Loader.imagePages image ++ stackPages) ≤ A.avail s)
    (fit : stringsRoom args + (args.length + 1) * 8 + 16 ≤ userStackSize) :
    ∃ i s', prepare A.toFrameAllocator s kernel image args = some (.ok i, s') ∧
      ∀ vs, (∀ v ∈ vs, v < pages 256) → (Region.Room A s' i.space.table vs ↔
        (Loader.imagePages image ++ (stackPages ++ vs)).Nodup ∧
          Loader.pagesCost (Loader.imagePages image ++ (stackPages ++ vs)) ≤ A.avail s) := by
  have hcost : Loader.framesFor image ≤ A.avail s := (Loader.pagesCost_append _ _).trans frames
  have low : ∀ v ∈ stackPages, v < pages 256 := by decide
  obtain ⟨res, s₁, hload, out⟩ := Loader.load_built kernel image holds
  rcases out with ⟨l, rfl, -, -, holds₁, exact₁, -, -, hroom⟩ | ⟨-, bad⟩
  swap
  · exact absurd ⟨accepts, hcost⟩ bad
  obtain ⟨s₂, space, hstack, hroom₂⟩ :=
    mapUserStack_room holds₁ exact₁ ((hroom _ low).mpr ⟨nodup, frames⟩)
  obtain ⟨-, holds₂, exact₂, hview⟩ := mapUserStack_view holds₁ exact₁ hstack
  have granted := stack_grants (l.space.view s₁.mem)
  rw [← hview] at granted
  obtain ⟨⟨top, argc, argv⟩, mem, hargs⟩ :=
    pushArgs_some (apart_of_holds holds₂) exact₂ granted (stack_room fit)
  obtain ⟨-, keptT, -, havail⟩ := write_owned holds₂
    (pushArgs_spec exact₂ (apart_of_holds holds₂) hargs)
  refine ⟨⟨space, l.entry, l.brk, top, argc, argv⟩, { s₂ with mem := mem }, ?_, fun vs hvs => ?_⟩
  · simp [prepare, hload, hstack, hargs]
  · rw [Region.room_kept exact₂.tree keptT havail hvs, ← hroom₂ vs hvs,
      hroom _ (List.forall_mem_append.mpr ⟨low, hvs⟩)]

/-! ## The break -/

/-- A process whose program sees `h`. -/
def Process.Shows (A : CountedAllocator σ) (s : Phys σ) (p : Process) (rest : Multiset Frame)
    (h : HeapView) : Prop :=
  ∃ sp, p.space = some sp ∧ A.Holds s (sp.frames + rest) ∧ sp.Exact s.mem ∧
    h = ⟨sp.view s.mem, p.brk, p.heapTop⟩

theorem adjustBrk_brk {p p' : Process} {delta : Int} {old : Nat}
    (heq : adjustBrk A.toFrameAllocator s p delta = some (some old, s', p')) :
    delta ≠ 0 → newBreak p delta = some (p.brk + delta).toNat ∧ p'.brk = (p.brk + delta).toNat := by
  intro hzero
  rw [adjustBrk, if_neg hzero] at heq
  rcases hnew : newBreak p delta with _ | new
  · simp [hnew] at heq
  have hval : new = (p.brk + delta).toNat := by
    rw [newBreak] at hnew
    split at hnew
    · exact (Option.some.inj hnew).symm
    · cases hnew
  subst hval
  refine ⟨rfl, ?_⟩
  simp only [hnew] at heq
  split at heq
  · rcases hspace : p.space with _ | sp
    · simp [hspace] at heq
    simp only [hspace] at heq
    obtain ⟨r, -, heq⟩ := Option.bind_eq_some_iff.mp heq
    obtain ⟨⟨res, s₁, sp₁⟩, -, heq⟩ := Option.bind_eq_some_iff.mp heq
    rcases res with e | ⟨⟩
    · simp at heq
    · obtain ⟨-, -, rfl⟩ := by simpa using heq
      rfl
  · obtain ⟨-, -, rfl⟩ := by simpa using heq
    rfl

theorem HeapRegion.bounds {p : Process} {new : Nat} {r : Region} (h : HeapRegion p new r)
    (htop : p.heapTop < new) :
    r.start = alignDown p.heapTop ∧ r.end_ = nextMultipleOf new pageSize := by
  have h₁ := h.start_aligned
  have h₂ := h.end_aligned
  have h₃ := h.first
  have h₄ := h.count
  rw [Region.pageCount] at h₄
  simp only [alignDown, nextMultipleOf, divCeil, pageNum, pageSize] at *
  omega

theorem HeapRegion.start_le {p : Process} {new : Nat} {r : Region} (h : HeapRegion p new r)
    (htop : p.heapTop < new) : r.start ≤ r.end_ := by
  obtain ⟨hstart, hend⟩ := h.bounds htop
  rw [hstart, hend]
  simp only [alignDown, nextMultipleOf, divCeil, pageSize]
  omega

theorem adjustBrk_shows {p p' : Process} {delta : Int} {old : Nat} {h : HeapView}
    (shows_ : p.Shows A s rest h)
    (heq : adjustBrk A.toFrameAllocator s p delta = some (some old, s', p')) :
    p'.Shows A s' rest (h.adjust delta) := by
  obtain ⟨sp, hspace, holds, exact, rfl⟩ := shows_
  by_cases hzero : delta = 0
  · rw [adjustBrk, if_pos hzero] at heq
    obtain ⟨-, rfl, rfl⟩ := by simpa using heq
    exact ⟨sp, hspace, holds, exact, if_pos hzero⟩
  obtain ⟨hnew, hbrk⟩ := adjustBrk_brk heq hzero
  rcases adjustBrk_cases A.toFrameAllocator s p delta with ⟨res, brk, heq₁, -, nogrow⟩ |
    ⟨sp₀, new, r, hspace₀, -, hnew₀, htop, hr, heq₁⟩
  · rw [heq₁] at heq
    obtain ⟨rfl, rfl, rfl⟩ := heq
    refine ⟨sp, hspace, holds, exact, ?_⟩
    rw [HeapView.adjust, if_neg hzero, if_neg (nogrow sp _ hspace hzero hnew), hbrk]
  · obtain rfl := Option.some.inj (hspace.symm.trans hspace₀)
    obtain rfl := Option.some.inj (hnew.symm.trans hnew₀)
    rw [heq₁] at heq
    obtain ⟨⟨res, s₁, sp₁⟩, hpush, hout⟩ := Option.map_eq_some_iff.mp heq
    rcases res with e | ⟨⟩
    · simp [brkPushed] at hout
    obtain ⟨-, rfl, rfl⟩ := by simpa [brkPushed] using hout
    obtain ⟨hstart, hend⟩ := hr.bounds htop
    obtain ⟨holds', exact', hview⟩ :=
      push_view holds exact hr.user hr.empty hr.start_aligned hr.end_aligned
        (hr.start_le htop) hpush
    refine ⟨sp₁, rfl, holds', exact', ?_⟩
    rw [HeapView.adjust, if_neg hzero, if_pos htop, hview, hstart, hend, hr.perm]

/-- A higher break is granted when there is room for its pages. -/
theorem adjustBrk_room {p : Process} {delta : Int} {new : Nat} (hspace : p.space = some sp)
    (holds : A.Holds s (sp.frames + rest)) (h : sp.Exact s.mem) (hzero : delta ≠ 0)
    (hnew : newBreak p delta = some new) (htop : p.heapTop < new)
    (room : Region.Room A s sp.table (List.range' (pageNum p.heapTop)
      (pageNum (nextMultipleOf new pageSize) - pageNum p.heapTop))) :
    ∃ s' p', adjustBrk A.toFrameAllocator s p delta = some (some p.brk, s', p') := by
  rcases adjustBrk_cases A.toFrameAllocator s p delta with ⟨_, _, -, -, nogrow⟩ |
    ⟨sp₀, new₀, r, hspace₀, -, hnew₀, -, hr, heq⟩
  · exact absurd htop (nogrow sp new hspace hzero hnew)
  obtain rfl := Option.some.inj (hspace.symm.trans hspace₀)
  obtain rfl := Option.some.inj (hnew.symm.trans hnew₀)
  rw [← hr.count, ← hr.first] at room
  obtain ⟨s', sp', hpush, -⟩ := push_room holds h hr.user hr.empty hr.start_aligned hr.end_aligned
    (hr.start_le htop) room
  rw [hpush] at heq
  exact ⟨_, _, heq⟩

/-- Calls of `adjust_brk` that all succeed, with anything in between that leaves the
process its frames as they are. -/
inductive Sbrks (A : CountedAllocator σ) :
    Phys σ → Process → Multiset Frame → List Int → Phys σ → Process → Prop
  | done {s : Phys σ} {p : Process} {rest : Multiset Frame} : Sbrks A s p rest [] s p
  | elsewhere {s s' s'' : Phys σ} {p p' : Process} {rest rest' : Multiset Frame}
      {deltas : List Int} :
      (∀ sp, p.space = some sp → A.Holds s' (sp.frames + rest') ∧ Kept sp.frames s.mem s'.mem) →
      Sbrks A s' p rest' deltas s'' p' → Sbrks A s p rest deltas s'' p'
  | sbrk {s s' s'' : Phys σ} {p p' p'' : Process} {rest : Multiset Frame} {delta : Int}
      {deltas : List Int} {old : Nat} :
      adjustBrk A.toFrameAllocator s p delta = some (some old, s', p') →
      Sbrks A s' p' rest deltas s'' p'' → Sbrks A s p rest (delta :: deltas) s'' p''

theorem Sbrks.shows {p p' : Process} {deltas : List Int} {h : HeapView}
    (run : Sbrks A s p rest deltas s' p') (start : p.Shows A s rest h) :
    ∃ rest', p'.Shows A s' rest' (deltas.foldl HeapView.adjust h) := by
  induction run generalizing h with
  | done => exact ⟨_, start⟩
  | elsewhere kept _ ih =>
    obtain ⟨sp, hspace, -, exact, rfl⟩ := start
    obtain ⟨holds', kept⟩ := kept sp hspace
    refine ih ⟨sp, hspace, holds', exact.kept (kept.mono (Multiset.le_add_right _ _)), ?_⟩
    rw [exact.view_kept kept]
  | sbrk heq _ ih => exact ih (adjustBrk_shows start heq)

/-! ## Two runs -/

/-- Two kernels that differ in everything a program is not told start it with the same
registers and show it the same bytes, under the same flags, at the same addresses. -/
theorem fresh_memory_same {s₁ s₂ t₁ t₂ u₁ u₂ : Phys σ} {rest₁ rest₂ : Multiset Frame}
    {kernel₁ kernel₂ : PageTable} {i₁ i₂ : Prepared} {p₁ p₂ q₁ q₂ : Process} {b₁ b₂ : Nat}
    {deltas : List Int} (holds₁ : A.Holds s₁ rest₁) (holds₂ : A.Holds s₂ rest₂)
    (built₁ : prepare A.toFrameAllocator s₁ kernel₁ image args = some (.ok i₁, t₁))
    (built₂ : prepare A.toFrameAllocator s₂ kernel₂ image args = some (.ok i₂, t₂))
    (run₁ : Sbrks A t₁ (p₁.install i₁ b₁) rest₁ deltas u₁ q₁)
    (run₂ : Sbrks A t₂ (p₂.install i₂ b₂) rest₂ deltas u₂ q₂) :
    TrapFrame.newUser i₁ = TrapFrame.newUser i₂ ∧
      ∃ sp₁ sp₂, q₁.space = some sp₁ ∧ q₂.space = some sp₂ ∧
        sp₁.view u₁.mem = sp₂.view u₂.mem ∧
        ∀ va < userMaxAddr, sp₁.byteAt u₁.mem va = sp₂.byteAt u₂.mem va := by
  obtain ⟨holds₁, exact₁, seen₁⟩ := prepare_view holds₁ built₁
  obtain ⟨holds₂, exact₂, seen₂⟩ := prepare_view holds₂ built₂
  have same := seen₁.symm.trans seen₂
  obtain ⟨hframe, hheap⟩ := Visible.mk.inj same
  obtain ⟨-, sp₁, hspace₁, -, -, shown₁⟩ := run₁.shows ⟨_, rfl, holds₁, exact₁, rfl⟩
  obtain ⟨-, sp₂, hspace₂, -, -, shown₂⟩ := run₂.shows ⟨_, rfl, holds₂, exact₂, rfl⟩
  have hview : sp₁.view u₁.mem = sp₂.view u₂.mem := by
    have hstart : (⟨i₁.space.view t₁.mem, (p₁.install i₁ b₁).brk, (p₁.install i₁ b₁).heapTop⟩ :
        HeapView) = ⟨i₂.space.view t₂.mem, (p₂.install i₂ b₂).brk,
          (p₂.install i₂ b₂).heapTop⟩ := hheap
    rw [hstart, shown₂] at shown₁
    exact (HeapView.mk.inj shown₁).1.symm
  refine ⟨hframe, sp₁, sp₂, hspace₁, hspace₂, hview, fun va hva => ?_⟩
  rw [byteAt_eq _ _ hva, byteAt_eq _ _ hva, hview]

theorem smallImage_pages : Loader.imagePages Loader.smallImage = [1] := by decide

/-- The page of the small image, the stack and some heap. -/
theorem smallImage_room {c : Nat} (hc : c ≤ 0x7000) :
    (Loader.imagePages Loader.smallImage ++
        (stackPages ++ List.range' (pageNum userHeapBase) c)).Nodup ∧
      Loader.pagesCost (Loader.imagePages Loader.smallImage ++
        (stackPages ++ List.range' (pageNum userHeapBase) c)) ≤ 72 + c + c / 256 := by
  rw [smallImage_pages]
  constructor
  · rw [List.nodup_append, List.nodup_append]
    refine ⟨List.nodup_singleton _, ⟨List.nodup_range', List.nodup_range', ?_⟩, ?_⟩
    all_goals
      simp only [stackPages, List.mem_append, List.mem_range'_1, List.mem_singleton, pageNum,
        userHeapBase, userStackTop, userStackSize, pageSize]
      omega
  · refine (Loader.pagesCost_le_blocks ([0, 0x1ffff] ++ List.range' 0x80 (c / 512 + 1)) ?_).trans ?_
    · intro v hv
      simp only [stackPages, List.mem_append, List.mem_cons, List.not_mem_nil, or_false,
        List.mem_range'_1, pageNum, userHeapBase, userStackTop, userStackSize, pageSize] at hv ⊢
      omega
    · simp only [stackPages, List.length_append, List.length_range', List.length_cons,
        List.length_nil, pageNum, userStackSize, pageSize]
      omega

theorem smallImage_stack : (Loader.imagePages Loader.smallImage ++ stackPages).Nodup ∧
    Loader.pagesCost (Loader.imagePages Loader.smallImage ++ stackPages) ≤ 72 := by
  have := smallImage_room (Nat.zero_le 0x7000)
  rwa [List.range'_zero, List.append_nil] at this

/-- The small program with room for `c` pages left. -/
theorem small_built {c : Nat} (kernel : PageTable) (holds : A.Holds s rest)
    (fit : stringsRoom args + (args.length + 1) * 8 + 16 ≤ userStackSize) (hc : c ≤ 0x7000)
    (room : 72 + c + c / 256 ≤ A.avail s) : ∃ i s',
      prepare A.toFrameAllocator s kernel Loader.smallImage args = some (.ok i, s') ∧
      Region.Room A s' i.space.table (List.range' (pageNum userHeapBase) c) := by
  obtain ⟨nodup, cost⟩ := smallImage_stack
  obtain ⟨i, s', hbuilt, hroom⟩ :=
    prepare_room kernel holds Loader.smallImage_accepts nodup (by omega) fit
  have low : ∀ v ∈ List.range' (pageNum userHeapBase) c, v < pages 256 := by
    intro v hv
    have := (List.mem_range'_1.mp hv).2
    simp only [pageNum, userHeapBase, pageSize, pages] at *
    omega
  obtain ⟨nodup', cost'⟩ := smallImage_room hc
  exact ⟨i, s', hbuilt, (hroom _ low).mpr ⟨nodup', cost'.trans room⟩⟩

theorem small_brk {i : Prepared} (holds : A.Holds s rest)
    (built : prepare A.toFrameAllocator s kernel Loader.smallImage args = some (.ok i, s')) :
    max i.brk userHeapBase = userHeapBase := by
  obtain ⟨-, -, seen⟩ := prepare_view holds built
  have := congrArg (fun v => v.heap.brk) seen
  rw [Visible.ofImage] at this
  simp only [Loader.smallImage_loads] at this
  rw [← this]
  decide

theorem prepare_stack {kernel : PageTable} {i : Prepared} (holds : A.Holds s rest)
    (built : prepare A.toFrameAllocator s kernel image [] = some (.ok i, s')) :
    (i.space.view s'.mem).Grants (PteFlags.write ||| PteFlags.user)
      (userStackTop - userStackSize) userStackSize := by
  obtain ⟨-, -, seen⟩ := prepare_view holds built
  have hview : i.space.view s'.mem = (Visible.ofImage image []).heap.view := by rw [seen]
  rw [hview]
  exact (stack_grants _).overlay _ _

/-- Two programs next to each other. -/
theorem two_programs : ∃ (s : Buddy.State) (sp other : AddressSpace),
    Buddy.dram.Holds s (sp.frames + other.frames) ∧ sp.Exact s.mem ∧ other.Exact s.mem ∧
      (sp.view s.mem).Grants (PteFlags.write ||| PteFlags.user) (userStackTop - userStackSize)
        userStackSize := by
  obtain ⟨s, -, holds, havail⟩ := Buddy.dram_boot
  obtain ⟨i, s₁, built₁, room⟩ := small_built (c := 0x1000) ⟨0, []⟩ holds nil_fits (by decide)
    (by rw [havail]; decide)
  obtain ⟨⟨holds₁, exact₁⟩, -⟩ := prepare_spec holds built₁
  rw [add_zero] at holds₁
  obtain ⟨j, s₂, built₂, -⟩ := small_built (c := 0) ⟨0, []⟩ holds₁ nil_fits (Nat.zero_le _)
    (Nat.le_trans (by rw [List.length_range']; decide) room.avail)
  obtain ⟨⟨holds₂, exact₂⟩, kept⟩ := prepare_spec holds₁ built₂
  exact ⟨s₂, j.space, i.space, holds₂, exact₂,
    exact₁.kept (kept.mono (Multiset.le_add_right _ _)), prepare_stack holds₁ built₂⟩

/-- The small program as the first process, with nothing on the first page of its heap. -/
theorem small_newUser : ∃ (s s' : Buddy.State) (i : Prepared) (k : Frame), Buddy.dram.Holds s 0 ∧
    newUser Buddy.dram.toFrameAllocator s ⟨0, []⟩ Loader.smallImage [] = some (some (i, k), s') ∧
      max i.brk userHeapBase = userHeapBase ∧
      Pte.isValid (leaf s'.mem i.space.table.root (pageNum userHeapBase)) = false ∧
      0x6000 ≤ Buddy.dram.avail s' := by
  obtain ⟨s, -, holds, havail⟩ := Buddy.dram_boot
  obtain ⟨i, s₁, built, room⟩ := small_built (c := 0x7000) ⟨0, []⟩ holds nil_fits (Nat.le_refl _)
    (by rw [havail]; decide)
  obtain ⟨⟨holds₁, exact₁⟩, -⟩ := prepare_spec holds built
  have enough : (List.range' _ 0x7000).length ≤ Buddy.merging.avail s₁ := room.avail
  rw [List.length_range'] at enough
  have total : Buddy.merging.avail s₁ + _ = 0x7800 := Buddy.managing_total holds₁
  obtain ⟨k, s₂, hstack⟩ := Buddy.merging_room (k := 3) holds₁.1 (by decide) (by omega)
  have halloc : kernelStackNew Buddy.dram.toFrameAllocator s₁ = (some k,
      { s₂ with mem := write64 s₂.mem (baseAddr k.ppn) stackCanary }) := by
    have : Buddy.dram.allocOrder s₁ kernelStackOrder = (some k, s₂) := hstack
    simp only [kernelStackNew, this]
  obtain ⟨-, kept⟩ := kernelStackNew_spec holds₁ halloc
  obtain ⟨horder, holds₂, -⟩ := Buddy.dram.alloc_some holds₁ hstack
  have havail₂ : Buddy.merging.avail s₂ + k.count = Buddy.merging.avail s₁ :=
    Buddy.dram.alloc_avail holds₁ hstack
  rw [Frame.count, horder] at havail₂
  refine ⟨s, { s₂ with mem := write64 s₂.mem (baseAddr k.ppn) stackCanary }, i, k, holds, ?_,
    small_brk holds built, ?_, ?_⟩
  · simp only [newUser, built, halloc, Option.bind_eq_bind, Option.bind_some]
  · rw [exact₁.tree.leaf_kept (kept.mono ?_) (by decide)]
    · exact room.unmapped _ (List.mem_range'_1.mpr ⟨Nat.le_refl _, by decide⟩)
    · exact (Multiset.le_add_right _ _).trans (Multiset.le_add_right _ _)
  · show 0x6000 ≤ Buddy.merging.avail s₂
    omega

/-- The small image with one argument and a page of heap. -/
theorem smallImage_runs (mem : Mem) (p : Process) (b : Nat) : ∃ s t u i q,
    Buddy.State.init mem 0x80400000 0x88000000 = some s ∧ Buddy.merging.Holds s 0 ∧
    prepare Buddy.merging.toFrameAllocator s ⟨0, []⟩ Loader.smallImage [[0x61]] = some (.ok i, t) ∧
    Sbrks Buddy.merging t (p.install i b) 0 [1] u q := by
  obtain ⟨s, hs, holds, havail⟩ := Buddy.merging_boot_of mem
  have fit : stringsRoom [[0x61]] + (([[0x61]] : List (List UInt8)).length + 1) * 8 + 16 ≤
      userStackSize := by decide
  obtain ⟨i, t, hbuilt, heap⟩ := small_built (c := 1) ⟨0, []⟩ holds fit (by decide)
    (by rw [havail]; decide)
  obtain ⟨holds', exact', -⟩ := prepare_view holds hbuilt
  have hbrk := small_brk holds hbuilt
  have hnew : newBreak (p.install i b) 1 = some (userHeapBase + 1) := by
    simp only [newBreak, Process.install, hbrk]
    decide
  have htop : (p.install i b).heapTop = userHeapBase := hbrk
  obtain ⟨u, q, hgrow⟩ := adjustBrk_room rfl holds' exact' (by decide) hnew
    (by rw [htop]; decide) (by rw [htop]; exact heap)
  exact ⟨s, t, u, i, q, hs, holds, hbuilt, .sbrk hgrow .done⟩

/-- Memory full of zeros and memory full of ones. -/
theorem fresh_memory_zeros_ones : ∃ (s₁ s₂ t₁ t₂ u₁ u₂ : Buddy.State) (i₁ i₂ : Prepared)
    (p q₁ q₂ : Process) (sp₁ sp₂ : AddressSpace),
    Buddy.State.init (fun _ => 0) 0x80400000 0x88000000 = some s₁ ∧
    Buddy.State.init (fun _ => 0xff) 0x80400000 0x88000000 = some s₂ ∧
    prepare Buddy.merging.toFrameAllocator s₁ ⟨0, []⟩ Loader.smallImage [[0x61]] =
      some (.ok i₁, t₁) ∧
    prepare Buddy.merging.toFrameAllocator s₂ ⟨0, []⟩ Loader.smallImage [[0x61]] =
      some (.ok i₂, t₂) ∧
    Sbrks Buddy.merging t₁ (p.install i₁ 0) 0 [1] u₁ q₁ ∧
    Sbrks Buddy.merging t₂ (p.install i₂ 0) 0 [1] u₂ q₂ ∧ q₁.space = some sp₁ ∧
    q₂.space = some sp₂ ∧ TrapFrame.newUser i₁ = TrapFrame.newUser i₂ ∧
    sp₁.view u₁.mem = sp₂.view u₂.mem := by
  let p : Process := ⟨1, .user 0, none, 0, ⟨0, 0⟩, 0, 0, 0, none, []⟩
  obtain ⟨s₁, t₁, u₁, i₁, q₁, hs₁, holds₁, built₁, run₁⟩ := smallImage_runs (fun _ => 0) p 0
  obtain ⟨s₂, t₂, u₂, i₂, q₂, hs₂, holds₂, built₂, run₂⟩ := smallImage_runs (fun _ => 0xff) p 0
  obtain ⟨hframe, sp₁, sp₂, hsp₁, hsp₂, hview, -⟩ :=
    fresh_memory_same holds₁ holds₂ built₁ built₂ run₁ run₂
  exact ⟨s₁, s₂, t₁, t₂, u₁, u₂, i₁, i₂, p, q₁, q₂, sp₁, sp₂, hs₁, hs₂, built₁, built₂, run₁, run₂,
    hsp₁, hsp₂, hframe, hview⟩

end AlexOS
