import AlexOS.Syscall.Argv

/-!
# The argument stack

`push_args` lays the strings downward from the top of the fresh user stack and the
pointers below them; `Args` in the user library follows the pointers upward. Every
list that `sys_exec` can pass on comes back as it was, and no two things on the stack
overlap.
-/

namespace AlexOS

open Bytes PageTable AddressSpace

/-- A piece of the stack: where it is and how long. -/
abbrev Piece := Nat × Nat

def Piece.Apart (x y : Piece) : Prop := x.1 + x.2 ≤ y.1 ∨ y.1 + y.2 ≤ x.1

/-- Each string and its NUL. -/
def stringPieces : List Nat → List (List UInt8) → List Piece
  | p :: ps, str :: strs => (p, str.length) :: (p + str.length, 1) :: stringPieces ps strs
  | _, _ => []

/-- What `push_args` stores: the pointers, the NULL and the strings. -/
def argPieces (argv : Nat) (ps : List Nat) (strs : List (List UInt8)) : List Piece :=
  (argv, ps.length * 8) :: (argv + ps.length * 8, 8) :: stringPieces ps strs

theorem stringPieces_bounds {top : Nat} {ps : List Nat} {strs : List (List UInt8)} {low : Nat}
    (h : UserView.Descends top ps strs) (hlow : ∀ p ∈ ps, low ≤ p) :
    ∀ x ∈ stringPieces ps strs, low ≤ x.1 ∧ x.1 + x.2 ≤ top := by
  induction ps generalizing top strs with
  | nil => exact nofun
  | cons p ps ih =>
    cases strs with
    | nil => exact nofun
    | cons str strs =>
      obtain ⟨hend, descends⟩ := h
      have hp := hlow p List.mem_cons_self
      intro x hx
      rcases List.mem_cons.mp hx with rfl | hx
      · exact ⟨hp, by simp only; omega⟩
      rcases List.mem_cons.mp hx with rfl | hx
      · exact ⟨by simp only; omega, by simp only; omega⟩
      · have := ih descends (fun q hq => hlow q (List.mem_cons_of_mem _ hq)) x hx
        exact ⟨this.1, by omega⟩

theorem stringPieces_apart {top : Nat} {ps : List Nat} {strs : List (List UInt8)}
    (h : UserView.Descends top ps strs) : (stringPieces ps strs).Pairwise Piece.Apart := by
  induction ps generalizing top strs with
  | nil => exact .nil
  | cons p ps ih =>
    cases strs with
    | nil => exact .nil
    | cons str strs =>
      obtain ⟨hend, descends⟩ := h
      have below := stringPieces_bounds descends fun q _ => Nat.zero_le q
      refine .cons ?_ (.cons ?_ (ih descends))
      · intro x hx
        rcases List.mem_cons.mp hx with rfl | hx
        · exact .inl (Nat.le_refl _)
        · exact .inr (below x hx).2
      · intro x hx
        have := (below x hx).2
        exact .inr (by simp only; omega)

theorem argPieces_apart {top argv : Nat} {ps : List Nat} {strs : List (List UInt8)}
    (h : UserView.Descends top ps strs) (low : ∀ p ∈ ps, argv + (ps.length + 1) * 8 ≤ p)
    (hend : argv + (ps.length + 1) * 8 ≤ top) :
    (argPieces argv ps strs).Pairwise Piece.Apart ∧
      ∀ x ∈ argPieces argv ps strs, argv ≤ x.1 ∧ x.1 + x.2 ≤ top := by
  have above := stringPieces_bounds h low
  constructor
  · refine .cons ?_ (.cons ?_ (stringPieces_apart h))
    · intro x hx
      rcases List.mem_cons.mp hx with rfl | hx
      · exact .inl (Nat.le_refl _)
      · have := (above x hx).1
        exact .inl (by simp only; omega)
    · intro x hx
      have := (above x hx).1
      exact .inl (by simp only; omega)
  · intro x hx
    rcases List.mem_cons.mp hx with rfl | hx
    · exact ⟨Nat.le_refl _, by simp only; omega⟩
    rcases List.mem_cons.mp hx with rfl | hx
    · exact ⟨by simp only; omega, by simp only; omega⟩
    · have := above x hx
      omega

/-- `get` finds every string of the vector, and none after them. -/
theorem Args.get_argv {m : Mem} {sp : AddressSpace} {argv : Nat} {ps : List Nat}
    {strs : List (List UInt8)} (h : (sp.view m).Vector argv ps strs) (n : Nat) :
    (Args.new strs.length argv).get (sp.view m) n = some strs[n]? := by
  have rest : ∀ (k : Nat) (ps : List Nat) (tail : List (List UInt8)),
      (sp.view m).Vector (argv + k * 8) ps tail → k + tail.length = strs.length →
      ∀ i, i < tail.length →
        (Args.new strs.length argv).get (sp.view m) (k + i) = some tail[i]? := by
    intro k ps tail
    induction tail generalizing k ps with
    | nil => exact fun _ _ i hi => absurd hi (Nat.not_lt_zero i)
    | cons str tail ih =>
      intro vector hlen i hi
      rw [List.length_cons] at hlen hi
      cases ps with
      | nil => cases vector.strings
      | cons p ps =>
        cases i with
        | zero => exact Args.get_vector 0 vector (by omega)
        | succ i =>
          have hnext := vector.tail
          rw [Nat.add_assoc, ← Nat.succ_mul] at hnext
          rw [List.getElem?_cons_succ, ← ih (k + 1) ps hnext (by omega) i (by omega)]
          congr 1
          omega
  rcases Nat.lt_or_ge n strs.length with hlt | hge
  · have := rest 0 ps strs (by rwa [Nat.zero_mul, Nat.add_zero]) (Nat.zero_add _) n hlt
    rwa [Nat.zero_add] at this
  · rw [List.getElem?_eq_none hge, get, if_pos (show (Args.new strs.length argv).argc ≤ n from hge)]

section
variable {σ : Type} {A : CountedAllocator σ} {s s' : Phys σ} {rest : Multiset Frame}
  {sp sp' : AddressSpace} {top : Nat} {args : List (List UInt8)}

/-- Any arguments that `sys_exec` can pass on, pushed on a fresh user stack, are what the
program finds there. -/
theorem pushArgs_round_trip (holds : A.Holds s (sp.frames + rest)) (h : sp.Exact s.mem)
    (hstack : mapUserStack A.toFrameAllocator s sp = some (some top, s', sp'))
    (few : args.length ≤ 32) (short : ∀ arg ∈ args, arg.length ≤ 255 ∧ 0 ∉ arg) :
    ∃ argv m', pushArgs sp' s'.mem top args = some (some (argv, args.length, argv), m') ∧
      16 ∣ argv ∧ userStackTop - userStackSize ≤ argv ∧ argv < userStackTop ∧
      (∀ n, (Args.new args.length argv).get (sp'.view m') n = some args[n]?) ∧
      (Args.new args.length argv).collect (sp'.view m') = some args ∧
      ∃ ps, (sp'.view m').Vector argv ps args ∧
        (argPieces argv ps args).Pairwise Piece.Apart ∧
        ∀ x ∈ argPieces argv ps args, argv ≤ x.1 ∧ x.1 + x.2 ≤ userStackTop := by
  obtain ⟨rfl, holds', exact, hview⟩ := mapUserStack_view holds h hstack
  have fit := stack_room (fits_stack few fun arg ha => Nat.lt_succ_of_le (short arg ha).1)
  have granted := stack_grants (sp.view s.mem)
  rw [← hview] at granted
  obtain ⟨out, m', hpush⟩ := pushArgs_some (apart_of_holds holds') exact granted fit
  obtain ⟨-, seen⟩ := pushArgs_view (apart_of_holds holds') exact hpush
  obtain ⟨w, argv, ps, heq, hbase, aligned, hps, hend, descends, vector⟩ :=
    UserView.pushArgs_layout granted (by decide) (by decide) fit fun arg ha => (short arg ha).2
  rw [heq] at seen
  obtain ⟨rfl, rfl⟩ := Prod.mk.inj seen
  refine ⟨argv, m', hpush, aligned, hbase, by omega, Args.get_argv vector,
    Args.collect_argv ⟨ps, vector⟩,
    ps, vector, argPieces_apart descends hps hend⟩

end

/-- A booted machine, the small program's space, and two arguments, one of them empty. -/
theorem two_arguments_round_trip : ∃ (s s' : Buddy.State) (sp sp' : AddressSpace) (argv : Nat)
    (m' : Mem), sp.Exact s.mem ∧
      mapUserStack Buddy.merging.toFrameAllocator s sp = some (some userStackTop, s', sp') ∧
      pushArgs sp' s'.mem userStackTop [[0x68, 0x69], []] = some (some (argv, 2, argv), m') ∧
      16 ∣ argv ∧
      (Args.new 2 argv).collect (sp'.view m') = some [[0x68, 0x69], []] := by
  obtain ⟨s₀, -, holds₀, havail₀⟩ := Buddy.merging_boot
  obtain ⟨nodup, cost⟩ := smallImage_stack
  have frames : Loader.pagesCost (Loader.imagePages Loader.smallImage ++ stackPages) ≤
      Buddy.merging.avail s₀ := by omega
  have hcost := (Loader.pagesCost_append _ _).trans frames
  obtain ⟨res, s₁, -, out⟩ := Loader.load_built ⟨0, []⟩ Loader.smallImage holds₀
  rcases out with ⟨l, -, -, -, holds₁, exact₁, -, -, hroom⟩ | ⟨-, bad⟩
  swap
  · exact absurd ⟨Loader.smallImage_accepts, hcost⟩ bad
  obtain ⟨s₂, sp', hstack, -⟩ := mapUserStack_room holds₁ exact₁
    ((hroom _ (by decide)).mpr ⟨nodup, frames⟩)
  obtain ⟨argv, m', hpush, aligned, -, -, -, collected, -⟩ :=
    @pushArgs_round_trip _ _ _ _ _ _ _ _ [[0x68, 0x69], []] holds₁ exact₁
      hstack (by decide) (by simp)
  exact ⟨s₁, s₂, l.space, sp', argv, m', exact₁, hstack, hpush, aligned, collected⟩

end AlexOS
