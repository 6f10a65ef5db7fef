import AlexOS.Loader.Checked
import AlexOS.Task.Ownership

/-!
# Processes with overflow checks on

`process.rs` once more with the sums, products and differences of the source as the
checked ones. With the invariants of the allocator and of the tables none of them
fails, so each function is the one the rest of the development is about.
-/

namespace AlexOS

open Bytes Checked AddressSpace

/-! ## The arguments on the stack -/

def pushStringsChecked (space : AddressSpace) :
    List (List UInt8) → Mem → Nat → List Nat → Option (Option (Nat × List Nat) × Mem)
  | [], mem, sp, pointers => some (some (sp, pointers), mem)
  | arg :: args, mem, sp, pointers => do
    let len ← add 64 arg.length 1
    let sp ← sub sp len
    let sp := sp / 8 * 8
    match ← space.copyToUserChecked mem sp arg with
    | (none, mem) => some (none, mem)
    | (some (), mem) =>
      let last ← add 64 sp arg.length
      match ← space.copyToUserChecked mem last [0] with
      | (none, mem) => some (none, mem)
      | (some (), mem) => pushStringsChecked space args mem sp (pointers ++ [sp])

/-- The words from the `i`-th slot of `argv` on. -/
def pushWordsChecked (space : AddressSpace) (argv : Nat) :
    List Nat → Mem → Nat → Option (Option Unit × Mem)
  | [], mem, _ => some (some (), mem)
  | w :: ws, mem, i => do
    let offset ← mul 64 i 8
    let addr ← add 64 argv offset
    match ← space.copyToUserChecked mem addr (leBytes w 8) with
    | (none, mem) => some (none, mem)
    | (some (), mem) => pushWordsChecked space argv ws mem (i + 1)

def pushArgsChecked (space : AddressSpace) (mem : Mem) (sp : Nat) (args : List (List UInt8)) :
    Option (Option (Nat × Nat × Nat) × Mem) := do
  match ← pushStringsChecked space args mem sp [] with
  | (none, mem) => some (none, mem)
  | (some (sp, pointers), mem) =>
    let slots ← add 64 pointers.length 1
    let size ← mul 64 slots 8
    let sp ← sub sp size
    let argv := sp / 16 * 16
    match ← pushWordsChecked space argv (pointers ++ [0]) mem 0 with
    | (none, mem) => some (none, mem)
    | (some (), mem) => some (some (argv, pointers.length, argv), mem)

/-- The stack grows down. -/
theorem pushStrings_le {sp : AddressSpace} {args : List (List UInt8)} {m m' : Mem} {top last : Nat}
    {pointers pointers' : List Nat}
    (heq : pushStrings sp args m top pointers = some (some (last, pointers'), m')) :
    last ≤ top := by
  induction args generalizing m top pointers with
  | nil =>
    cases heq
    exact Nat.le_refl _
  | cons arg args ih =>
    simp only [pushStrings] at heq
    split at heq
    · cases heq
    split at heq
    · cases heq
    split at heq
    · cases heq
    have := ih heq
    omega

section
variable {m : Mem} {sp : AddressSpace} {top : Nat} {args : List (List UInt8)}
  (apart : ∀ p, framesOver sp.frames p ≤ 1) (low : ∀ f ∈ sp.owned, f.ppn < directPages)
include apart low

/-- An argument that does not fit into a word does not fit on the stack either. -/
theorem pushStringsChecked_eq {pointers : List Nat} (h : sp.Exact m) (htop : top < 2 ^ 64) :
    pushStringsChecked sp args m top pointers = pushStrings sp args m top pointers := by
  induction args generalizing m top pointers with
  | nil => rfl
  | cons arg args ih =>
    rw [pushStringsChecked, pushStrings]
    by_cases short : top < arg.length + 1
    · rw [if_pos short]
      by_cases fits : arg.length + 1 < 2 ^ 64
      · rw [add_some fits, Option.bind_eq_bind, Option.bind_some, sub,
          if_neg (Nat.not_le.mpr short)]
        rfl
      · rw [add_none (Nat.not_lt.mp fits)]
        rfl
    rw [if_neg short, add_some (by omega), Option.bind_eq_bind, Option.bind_some,
      sub_some (Nat.not_lt.mp short), Option.bind_eq_bind, Option.bind_some]
    have hlen : arg.length < 2 ^ 64 := by omega
    have hdown : (top - (arg.length + 1)) / 8 * 8 + arg.length < 2 ^ 64 := by omega
    have exact₁ := h.writes apart (copyToUser_spec h apart ((top - (arg.length + 1)) / 8 * 8) arg)
    simp only [copyToUserChecked_eq h apart low hlen, Option.bind_some]
    rcases hcopy : sp.copyToUser m ((top - (arg.length + 1)) / 8 * 8) arg with ⟨_ | ⟨⟩, m₁⟩
    · rfl
    rw [hcopy] at exact₁
    have exact₂ := exact₁.writes apart
      (copyToUser_spec exact₁ apart ((top - (arg.length + 1)) / 8 * 8 + arg.length) [0])
    simp only [add_some hdown, Option.bind_some,
      copyToUserChecked_eq exact₁ apart low (show [(0 : UInt8)].length < 2 ^ 64 by decide)]
    rcases hnul : sp.copyToUser m₁ ((top - (arg.length + 1)) / 8 * 8 + arg.length) [0] with
      ⟨_ | ⟨⟩, m₂⟩
    · rfl
    rw [hnul] at exact₂
    exact ih exact₂ (by omega)

theorem pushWordsChecked_eq {argv i : Nat} {ws : List Nat} (h : sp.Exact m)
    (fits : argv + (i + ws.length) * 8 < 2 ^ 64) :
    pushWordsChecked sp argv ws m i = some (pushWords sp ws m (argv + i * 8)) := by
  induction ws generalizing m i with
  | nil => rfl
  | cons w ws ih =>
    rw [List.length_cons] at fits
    have hlen : (leBytes w 8).length < 2 ^ 64 := by
      rw [length_leBytes]
      decide
    have exact₁ := h.writes apart (copyToUser_spec h apart (argv + i * 8) (leBytes w 8))
    rw [pushWordsChecked, pushWords, mul_some (by omega), Option.bind_eq_bind, Option.bind_some,
      add_some (by omega), Option.bind_eq_bind, Option.bind_some]
    simp only [copyToUserChecked_eq h apart low hlen, Option.bind_some]
    rcases hcopy : sp.copyToUser m (argv + i * 8) (leBytes w 8) with ⟨_ | ⟨⟩, m₁⟩
    · rfl
    rw [hcopy] at exact₁
    have hnext := ih exact₁ (i := i + 1) (by omega)
    rw [Nat.add_mul, ← Nat.add_assoc] at hnext
    exact hnext

theorem pushArgsChecked_eq (h : sp.Exact m) (htop : top < 2 ^ 64) :
    pushArgsChecked sp m top args = pushArgs sp m top args := by
  rw [pushArgsChecked, pushArgs, pushStringsChecked_eq apart low h htop]
  rcases hstrings : pushStrings sp args m top [] with _ | ⟨_ | ⟨low', pointers⟩, m₁⟩
  · rfl
  · rfl
  have exact₁ := h.writes apart (pushStrings_spec h apart hstrings)
  have hle := pushStrings_le hstrings
  simp only [Option.bind_eq_bind, Option.bind_some]
  by_cases short : low' < (pointers.length + 1) * 8
  · rw [if_pos short]
    by_cases fits : (pointers.length + 1) * 8 < 2 ^ 64
    · rw [add_some (by omega), Option.bind_some, mul_some fits, Option.bind_some, sub,
        if_neg (Nat.not_le.mpr short)]
      rfl
    · by_cases slots : pointers.length + 1 < 2 ^ 64
      · rw [add_some slots, Option.bind_some, mul, if_neg fits]
        rfl
      · rw [add_none (Nat.not_lt.mp slots)]
        rfl
  rw [if_neg short, add_some (by omega), Option.bind_some, mul_some (by omega), Option.bind_some,
    sub_some (Nat.not_lt.mp short), Option.bind_some,
    pushWordsChecked_eq apart low exact₁ (by rw [List.length_append, List.length_singleton]; omega)]
  rfl

end

/-! ## Images, `fork`, `exec` and the program break -/

/-- `PhysPageNum::as_ptr`. -/
def asPtr (ppn : Nat) : Nat := (baseAddr ppn + virtOffset) % 2 ^ 64

/-- `KernelStack::top`. -/
def kernelStackTop (kstack : Frame) : Option Nat := do
  let size ← mul 64 kstack.count pageSize
  add 64 (asPtr kstack.ppn) size

variable {σ : Type}

section
variable (A : FrameAllocator σ)

def mapUserStackChecked (s : Phys σ) (space : AddressSpace) :
    Option (Option Nat × Phys σ × AddressSpace) := do
  let bottom ← sub userStackTop userStackSize
  let r ← Region.new bottom userStackTop .framed (PteFlags.rw ||| PteFlags.user)
  match ← space.pushChecked A s r with
  | (.ok (), s, space) => some (some userStackTop, s, space)
  | (.error _, s, space) => some (none, s, space)

def prepareChecked (s : Phys σ) (kernel : PageTable) (image : Slice) (args : List (List UInt8)) :
    Option (Except ExecError Prepared × Phys σ) := do
  match ← Loader.loadChecked A s kernel image with
  | (.error e, s) => some (.error (.badImage e), s)
  | (.ok loaded, s) =>
    match ← mapUserStackChecked A s loaded.space with
    | (none, s, space) =>
      let s ← space.dropChecked A s
      some (.error .outOfMemory, s)
    | (some top, s, space) =>
      match ← pushArgsChecked space s.mem top args with
      | (none, mem) =>
        let s ← space.dropChecked A { s with mem := mem }
        some (.error .outOfMemory, s)
      | (some (sp, argc, argv), mem) =>
        some (.ok ⟨space, loaded.entry, loaded.brk, sp, argc, argv⟩, { s with mem := mem })

def forkFromChecked (s : Phys σ) (kernel : PageTable) (parent : Process) :
    Option (Option (AddressSpace × Frame) × Phys σ) :=
  match parent.space with
  | none => some (none, s)
  | some space => do
    match ← space.duplicateChecked A s kernel with
    | (none, s) => some (none, s)
    | (some child, s) =>
      match kernelStackNew A s with
      | (none, s) =>
        let s ← child.dropChecked A s
        some (none, s)
      | (some kstack, s) =>
        let _ ← kernelStackTop kstack
        some (some (child, kstack), s)

def execCurrentChecked (s : Phys σ) (kernel : PageTable) (p : Process) (image : Slice)
    (args : List (List UInt8)) : Option (Except ExecError Prepared × Phys σ) := do
  match ← prepareChecked A s kernel image args with
  | (.error e, s) => some (.error e, s)
  | (.ok image, s) =>
    let _ ← kernelStackTop p.kstack
    match p.space with
    | none => some (.ok image, s)
    | some old =>
      let s ← old.dropChecked A s
      some (.ok image, s)

def adjustBrkChecked (s : Phys σ) (p : Process) (delta : Int) :
    Option (Option Nat × Phys σ × Process) :=
  if delta = 0 then some (some p.brk, s, p)
  else
    match addSigned 64 p.brk delta with
    | none => some (none, s, p)
    | some new =>
      if new < userHeapBase ∨ userMaxAddr ≤ new then some (none, s, p)
      else if p.heapTop < new then do
        let top ← roundUp 64 new pageSize
        match p.space with
        | none => some (none, s, p)
        | some space =>
          let r ← Region.new p.heapTop top .framed (PteFlags.rw ||| PteFlags.user)
          match ← space.pushChecked A s r with
          | (.error _, s, space) => some (none, s, { p with space := some space })
          | (.ok (), s, space) =>
            some (some p.brk, s, { p with space := some space, heapTop := top, brk := new })
      else some (some p.brk, s, { p with brk := new })

def Process.dropChecked (s : Phys σ) (p : Process) : Option (Phys σ) := do
  let s ← A.free s p.kstack
  match p.space with
  | none => some s
  | some space => space.dropChecked A s

def exitCurrentChecked (s : Phys σ) (p : Process) (code : Int) : Option (Phys σ × Process) :=
  let exited := { p with space := none, exitCode := code, point := .zombie }
  match p.space with
  | none => some (s, exited)
  | some space => do
    let s ← space.dropChecked A s
    some (s, exited)

end

variable {A : CountedAllocator σ} {s : Phys σ} {rest : Multiset Frame} {sp : AddressSpace}
  {p : Process} {kernel : PageTable} {image : Slice} {args : List (List UInt8)}

/-- A run inside the direct map ends before the address space does. -/
theorem kernelStackTop_some (direct : A.Direct) {f : Frame} {live : Multiset Frame}
    (holds : A.Holds s live) (hf : f ∈ live) : ∃ top, kernelStackTop f = some top := by
  have hend : (f.ppn + f.count) * pageSize + virtOffset < 2 ^ 64 :=
    calc (f.ppn + f.count) * pageSize + virtOffset
        < directPages * pageSize + virtOffset :=
          Nat.add_lt_add_right (Nat.mul_lt_mul_of_pos_right
            (direct s live f holds hf) (by decide)) _
      _ = 2 ^ 64 := by decide
  have hptr : asPtr f.ppn = f.ppn * pageSize + virtOffset := by
    rw [asPtr, baseAddr]
    refine Nat.mod_eq_of_lt (Nat.lt_of_le_of_lt ?_ hend)
    exact Nat.add_le_add_right (Nat.mul_le_mul_right _ (Nat.le_add_right _ _)) _
  rw [Nat.add_mul] at hend
  refine ⟨f.ppn * pageSize + virtOffset + f.count * pageSize, ?_⟩
  rw [kernelStackTop, mul_some (by omega), Option.bind_eq_bind, Option.bind_some, hptr]
  exact add_some (by omega)

theorem mapUserStackChecked_eq (A : FrameAllocator σ) (s : Phys σ) (sp : AddressSpace) :
    mapUserStackChecked A s sp = mapUserStack A s sp := by
  rw [mapUserStackChecked, mapUserStack, sub_some (by decide),
    Option.bind_eq_bind, Option.bind_some]
  refine bind_eq rfl fun r hnew => bind_eq (pushChecked_eq (Region.new_end hnew)) fun out _ => ?_
  rcases out with ⟨_ | ⟨⟩, _, _⟩ <;> rfl

theorem mapUserStack_top {top : Nat} {s' : Phys σ} {sp' : AddressSpace} {A : FrameAllocator σ}
    (heq : mapUserStack A s sp = some (some top, s', sp')) : top = userStackTop := by
  rw [mapUserStack] at heq
  obtain ⟨r, -, heq⟩ := Option.bind_eq_some_iff.mp heq
  obtain ⟨⟨_ | ⟨⟩, _, _⟩, -, hout⟩ := Option.bind_eq_some_iff.mp heq <;> cases hout
  rfl

theorem prepareChecked_eq (direct : A.Direct) (holds : A.Holds s rest) :
    prepareChecked A.toFrameAllocator s kernel image args =
      prepare A.toFrameAllocator s kernel image.bytes args := by
  refine bind_eq (Loader.loadChecked_eq _ s kernel image) fun loaded hload => ?_
  rcases loaded with ⟨e | loaded, s₁⟩
  · rfl
  obtain ⟨⟨holds₁, exact₁⟩, -⟩ := Loader.load_spec holds hload
  refine bind_eq (mapUserStackChecked_eq _ s₁ loaded.space) fun stack hstack => ?_
  rcases stack with ⟨_ | top, s₂, space⟩
  · obtain ⟨-, formed, -⟩ := mapUserStack_spec holds₁ exact₁ hstack
    exact bind_eq (dropChecked_eq formed.endsFit) fun _ _ => rfl
  obtain ⟨holds₂, -, -, exact⟩ := mapUserStack_spec holds₁ exact₁ hstack
  have exact₂ := exact (by simp)
  have htop : top < 2 ^ 64 := by
    rw [mapUserStack_top hstack]
    decide
  refine bind_eq (pushArgsChecked_eq (apart_of_holds holds₂) (owned_low direct holds₂) exact₂ htop)
    fun args _ => ?_
  rcases args with ⟨_ | ⟨sp, argc, argv⟩, mem⟩
  · exact bind_eq (dropChecked_eq exact₂.endsFit) fun _ _ => rfl
  · rfl

/-- The old space is dropped as it was before, so its regions fit. -/
theorem execCurrentChecked_eq (direct : A.Direct) (holds : A.Holds s (p.frames + rest))
    (formed : ∀ sp, p.space = some sp → sp.Formed s.mem) :
    execCurrentChecked A.toFrameAllocator s kernel p image args =
      execCurrent A.toFrameAllocator s kernel p image.bytes args := by
  obtain ⟨top, htop⟩ := kernelStackTop_some direct holds
    (Multiset.mem_add.mpr (.inl (Multiset.mem_cons_self p.kstack _)))
  refine bind_eq (prepareChecked_eq direct holds) fun out _ => ?_
  rcases out with ⟨e | i, s₁⟩
  · rfl
  simp only [htop, Option.bind_eq_bind, Option.bind_some]
  rcases hsp : p.space with _ | old
  · rfl
  · exact bind_eq (dropChecked_eq (formed old hsp).endsFit) fun _ _ => rfl

theorem forkFromChecked_eq (direct : A.Direct) (holds : A.Holds s rest)
    (users : ∀ sp, p.space = some sp → ∀ r ∈ sp.regions, r.User) :
    forkFromChecked A.toFrameAllocator s kernel p = forkFrom A.toFrameAllocator s kernel p := by
  rw [forkFromChecked, forkFrom]
  rcases hsp : p.space with _ | sp
  · rfl
  refine bind_eq duplicateChecked_eq fun out hcopy => ?_
  rcases out with ⟨_ | child, s₁⟩
  · rfl
  obtain ⟨⟨holds₁, exact₁⟩, -⟩ := duplicate_spec holds (users sp hsp) hcopy
  rcases hstack : kernelStackNew A.toFrameAllocator s₁ with ⟨_ | k, s₂⟩
  · simp only [hstack]
    exact bind_eq (dropChecked_eq exact₁.endsFit) fun _ _ => rfl
  · obtain ⟨holds₂, -⟩ := kernelStackNew_spec holds₁ hstack
    obtain ⟨top, htop⟩ := kernelStackTop_some direct holds₂ (Multiset.mem_cons_self k _)
    simp only [hstack, htop]
    rfl

theorem exitCurrentChecked_eq (formed : ∀ sp, p.space = some sp → sp.Formed s.mem) (code : Int) :
    exitCurrentChecked A.toFrameAllocator s p code = exitCurrent A.toFrameAllocator s p code := by
  rw [exitCurrentChecked, exitCurrent]
  rcases hsp : p.space with _ | sp
  · rfl
  · exact bind_eq (dropChecked_eq (formed sp hsp).endsFit) fun _ _ => rfl

theorem Process.dropChecked_eq (formed : ∀ sp, p.space = some sp → sp.EndsFit) :
    p.dropChecked A.toFrameAllocator s = p.drop A.toFrameAllocator s := by
  refine bind_eq rfl fun s₁ _ => ?_
  rcases hsp : p.space with _ | sp
  · rfl
  · exact AddressSpace.dropChecked_eq (formed sp hsp)

/-- The break is checked before it is rounded, and a break that is in bounds is no
sum that overflows. -/
theorem adjustBrkChecked_eq (A : FrameAllocator σ) (s : Phys σ) (p : Process) (delta : Int) :
    adjustBrkChecked A s p delta = adjustBrk A s p delta := by
  rw [adjustBrkChecked, adjustBrk]
  by_cases hzero : delta = 0
  · rw [if_pos hzero, if_pos hzero]
  rw [if_neg hzero, if_neg hzero]
  rcases hnew : newBreak p delta with _ | new
  · have hout : ∀ new, addSigned 64 p.brk delta = some new →
        new < userHeapBase ∨ userMaxAddr ≤ new := by
      intro new hsum
      simp only [newBreak] at hnew
      rw [addSigned] at hsum
      split_ifs at hnew hsum with inside fits
      cases hsum
      omega
    rcases hsum : addSigned 64 p.brk delta with _ | new
    · rfl
    · simp only [if_pos (hout new hsum)]
  obtain ⟨hsum, low, high⟩ : addSigned 64 p.brk delta = some new ∧ userHeapBase ≤ new ∧
      new < userMaxAddr := by
    simp only [newBreak] at hnew
    split_ifs at hnew with inside
    cases hnew
    have hmax : (userMaxAddr : Int) < 2 ^ 64 := by decide
    refine ⟨if_pos ⟨by omega, by omega⟩, by omega, by omega⟩
  have hround : roundUp 64 new pageSize = some (nextMultipleOf new pageSize) :=
    roundUp_some (by decide) (by simp only [userMaxAddr, pageSize] at *; omega)
  rw [hsum]
  simp only [if_neg (not_or.mpr ⟨Nat.not_lt.mpr low, Nat.not_le.mpr high⟩), hround]
  by_cases grows : p.heapTop < new
  swap
  · simp only [if_neg grows]
  simp only [if_pos grows, Option.bind_eq_bind, Option.bind_some]
  rcases p.space with _ | space
  · rfl
  refine bind_eq rfl fun r hr => bind_eq (pushChecked_eq (Region.new_end hr)) fun out _ => ?_
  rcases out with ⟨_ | ⟨⟩, _, _⟩ <;> rfl

end AlexOS
