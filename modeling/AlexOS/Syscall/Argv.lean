import AlexOS.Task.Fresh
import AlexOS.Task.Sbrk

/-!
# Arguments across `exec`

The argument vector of the caller, as `sys_exec` reads it; the one `push_args`
leaves on the new stack; and `Args` of the user library, which reads that one.
A call that succeeds passes on the first `MAX_ARGS` strings, byte for byte.
-/

namespace AlexOS

open Bytes PageTable AddressSpace

/-! ## A vector in user memory -/

namespace UserView

variable {w w' : UserView} {va : Nat}

/-- A string and its NUL. -/
def Cstr (w : UserView) (va : Nat) (str : List UInt8) : Prop :=
  0 ∉ str ∧ w.Reads va (str ++ [0])

def words (ps : List Nat) : List UInt8 := ps.flatMap (leBytes · 8)

/-- Pointers to strings, and a NULL after the last one. -/
structure Vector (w : UserView) (argv : Nat) (ps : List Nat) (strs : List (List UInt8)) : Prop where
  pointers : w.Reads argv (words (ps ++ [0]))
  valid : ∀ p ∈ ps, 0 < p ∧ p < 2 ^ 64
  strings : List.Forall₂ w.Cstr ps strs

def Argv (w : UserView) (argv : Nat) (strs : List (List UInt8)) : Prop :=
  ∃ ps, w.Vector argv ps strs

theorem leValue_leBytes (v n : Nat) : Loader.leValue (leBytes v n) = v % 256 ^ n := by
  induction n generalizing v with
  | zero => simp [leBytes, Loader.leValue, Nat.mod_one]
  | succ n ih =>
    rw [leBytes, Loader.leValue, ih, Nat.pow_succ, Nat.mul_comm (256 ^ n) 256, Nat.mod_mul]
    simp

theorem leValue_word {v : Nat} (hv : v < 2 ^ 64) : Loader.leValue (leBytes v 8) = v := by
  rw [leValue_leBytes]
  exact Nat.mod_eq_of_lt hv

theorem Reads.left {xs ys : List UInt8} (h : w.Reads va (xs ++ ys)) : w.Reads va xs := by
  have := h.take xs.length
  rwa [List.take_left] at this

theorem Reads.right {xs ys : List UInt8} (h : w.Reads va (xs ++ ys)) :
    w.Reads (va + xs.length) ys := by
  have := h.drop xs.length
  rwa [List.drop_left] at this

/-- The vector without its first string. -/
theorem Vector.tail {argv p : Nat} {ps : List Nat} {str : List UInt8} {strs : List (List UInt8)}
    (h : w.Vector argv (p :: ps) (str :: strs)) : w.Vector (argv + 8) ps strs := by
  have hread : w.Reads argv (leBytes p 8 ++ words (ps ++ [0])) := h.pointers
  have := hread.right
  rw [length_leBytes] at this
  exact ⟨this, fun q hq => h.valid q (List.mem_cons_of_mem p hq),
    (List.forall₂_cons.mp h.strings).2⟩

/-! ## `Args` -/

/-- Loads; a fault is `none`. -/
def loadBytes (w : UserView) (a : Nat) : Nat → Option (List UInt8)
  | 0 => some []
  | n + 1 => do
    let (_, byte) ← w a
    let bytes ← loadBytes w (a + 1) n
    some (byte :: bytes)

def loadWord (w : UserView) (a : Nat) : Option Nat := (w.loadBytes a 8).map Loader.leValue

/-- The loop of `get` at `p.add(len)`. The addresses end before the turns do. -/
def strFrom (w : UserView) : Nat → Nat → List UInt8 → Option (List UInt8)
  | 0, _, _ => none
  | turns + 1, p, str =>
    match (w p).map Prod.snd with
    | none => none
    | some byte => if byte = 0 then some str else strFrom w turns (p + 1) (str ++ [byte])

end UserView

structure Args where
  argc : Nat
  argv : Nat
  index : Nat

namespace Args

def new (argc argv : Nat) : Args := ⟨argc, argv, 0⟩

/-- `none` is a fault; `some none` is past the end. -/
def get (w : UserView) (args : Args) (n : Nat) : Option (Option (List UInt8)) :=
  if args.argc ≤ n then some none
  else do
    let p ← w.loadWord (args.argv + n * 8)
    let str ← w.strFrom (userMaxAddr - p + 1) p []
    some (some str)

def next (w : UserView) (args : Args) : Option (Option (List UInt8) × Args) :=
  match args.get w args.index with
  | none => none
  | some none => some (none, args)
  | some (some str) => some (some str, { args with index := args.index + 1 })

/-- What the iterator yields until it ends; it ends after `argc` strings. -/
def collectFrom (w : UserView) : Nat → Args → Option (List (List UInt8))
  | 0, _ => some []
  | turns + 1, args =>
    match args.next w with
    | none => none
    | some (none, _) => some []
    | some (some str, args) => (collectFrom w turns args).map (str :: ·)

def collect (w : UserView) (args : Args) : Option (List (List UInt8)) :=
  collectFrom w (args.argc + 1) args

end Args

namespace UserView

variable {w w' : UserView} {va : Nat}

theorem Reads.cons {b : UInt8} {bs : List UInt8} :
    w.Reads va (b :: bs) ↔ (w va).map Prod.snd = some b ∧ w.Reads (va + 1) bs := by
  constructor
  · intro h
    have tail : w.Reads va ([b] ++ bs) := h
    exact ⟨h 0 (by simp), tail.right⟩
  · rintro ⟨first, rest⟩ k hk
    rcases k with _ | k
    · exact first
    · rw [← Nat.add_assoc, Nat.add_right_comm]
      exact rest k (Nat.lt_of_succ_lt_succ hk)

theorem loadBytes_reads {bs : List UInt8} (h : w.Reads va bs) :
    w.loadBytes va bs.length = some bs := by
  induction bs generalizing va with
  | nil => rfl
  | cons b bs ih =>
    obtain ⟨first, rest⟩ := Reads.cons.mp h
    obtain ⟨⟨flags, _⟩, hw, rfl⟩ := Option.map_eq_some_iff.mp first
    rw [List.length_cons, loadBytes, hw, Option.bind_eq_bind, Option.bind_some, ih rest]
    rfl

theorem loadWord_reads {v : Nat} (hv : v < 2 ^ 64) (h : w.Reads va (leBytes v 8)) :
    w.loadWord va = some v := by
  have := loadBytes_reads h
  rw [length_leBytes] at this
  rw [loadWord, this, Option.map_some, leValue_word hv]

/-- A string ends below the top of the user's addresses. -/
theorem Cstr.high {str : List UInt8} {m : Mem} {sp : AddressSpace} (h : (sp.view m).Cstr va str) :
    va + str.length < userMaxAddr := by
  by_contra hge
  have := h.2 str.length (by simp)
  rw [view_high m sp (Nat.not_lt.mp hge)] at this
  cases this

/-- The loop finds the string in as many turns as it has bytes. -/
theorem strFrom_cstr {str : List UInt8} (h : w.Cstr va str) (done : List UInt8) {turns : Nat}
    (enough : str.length < turns) : w.strFrom turns va done = some (done ++ str) := by
  induction str generalizing va done turns with
  | nil =>
    obtain ⟨turns, rfl⟩ : ∃ t, turns = t + 1 := ⟨turns - 1, by simp at enough; omega⟩
    obtain ⟨first, -⟩ := Reads.cons.mp h.2
    rw [strFrom, first]
    simp
  | cons b str ih =>
    obtain ⟨turns, rfl⟩ : ∃ t, turns = t + 1 := ⟨turns - 1, by simp at enough; omega⟩
    obtain ⟨first, rest⟩ := Reads.cons.mp h.2
    have hb : b ≠ 0 := fun hb => h.1 (hb ▸ List.mem_cons_self)
    rw [strFrom, first]
    simp only [if_neg hb]
    rw [ih ⟨fun hin => h.1 (List.mem_cons_of_mem b hin), rest⟩ (done ++ [b])
      (Nat.lt_of_succ_lt_succ enough), List.append_assoc, List.singleton_append]

end UserView

/-- `get` follows the pointer that is next in the vector. -/
theorem Args.get_vector {m : Mem} {sp : AddressSpace} {argc argv n p : Nat} {ps : List Nat}
    {str : List UInt8} {strs : List (List UInt8)} (index : Nat)
    (h : (sp.view m).Vector (argv + n * 8) (p :: ps) (str :: strs)) (hn : n < argc) :
    get (sp.view m) ⟨argc, argv, index⟩ n = some (some str) := by
  have hread : (sp.view m).Reads (argv + n * 8) (leBytes p 8 ++ UserView.words (ps ++ [0])) :=
    h.pointers
  have hword := UserView.loadWord_reads (h.valid p List.mem_cons_self).2 hread.left
  have hcstr := (List.forall₂_cons.mp h.strings).1
  have hhigh := hcstr.high
  have hstr : (sp.view m).strFrom (userMaxAddr - p + 1) p [] = some str :=
    UserView.strFrom_cstr hcstr [] (by omega)
  rw [get, if_neg (show ¬ argc ≤ n by omega), hword, Option.bind_eq_bind, Option.bind_some, hstr]
  rfl

/-- The iterator from the first string it has not yielded. -/
theorem Args.collectFrom_vector {m : Mem} {sp : AddressSpace} {argc argv index turns : Nat}
    {ps : List Nat} {strs : List (List UInt8)}
    (h : (sp.view m).Vector (argv + index * 8) ps strs) (hargc : argc = index + strs.length)
    (enough : strs.length < turns) :
    collectFrom (sp.view m) turns ⟨argc, argv, index⟩ = some strs := by
  induction strs generalizing ps index turns with
  | nil =>
    obtain ⟨turns, rfl⟩ : ∃ t, turns = t + 1 := ⟨turns - 1, by simp at enough; omega⟩
    have hend : argc ≤ index := Nat.le_of_eq hargc
    simp [collectFrom, next, get, hend]
  | cons str strs ih =>
    obtain ⟨turns, rfl⟩ : ∃ t, turns = t + 1 := ⟨turns - 1, by simp at enough; omega⟩
    rw [List.length_cons] at hargc enough
    rcases ps with _ | ⟨p, ps⟩
    · cases h.strings
    have htail := h.tail
    rw [Nat.add_assoc, ← Nat.succ_mul] at htail
    rw [collectFrom, next, get_vector index h (by omega)]
    simp only
    rw [ih htail (by omega) (by omega), Option.map_some]

/-- `Args` yields the strings of the vector it is given. -/
theorem Args.collect_argv {m : Mem} {sp : AddressSpace} {argv : Nat} {strs : List (List UInt8)}
    (h : (sp.view m).Argv argv strs) :
    (Args.new strs.length argv).collect (sp.view m) = some strs := by
  obtain ⟨ps, h⟩ := h
  have start : (sp.view m).Vector (argv + 0 * 8) ps strs := by rwa [Nat.zero_mul, Nat.add_zero]
  exact collectFrom_vector start (Nat.zero_add _).symm (Nat.lt_succ_self _)

/-! ## What `sys_exec` reads -/

section
variable {m : Mem} {sp : AddressSpace}

theorem readCstrFrom_cstr {va n : Nat} {str done : List UInt8} (h : (sp.view m).Cstr va str) :
    sp.readCstrFrom m n va done = if str.length < n then fromUtf8 (done ++ str) else none := by
  induction n generalizing va str done with
  | zero => rfl
  | succ n ih =>
    rw [readCstrFrom]
    rcases str with _ | ⟨b, str⟩
    · have hbyte : sp.copyFromUser m va 1 = some [0] := copyFromUser_iff.mpr ⟨rfl, h.2⟩
      simp [hbyte]
    · obtain ⟨first, rest⟩ := UserView.Reads.cons.mp h.2
      have hbyte : sp.copyFromUser m va 1 = some [b] :=
        copyFromUser_iff.mpr ⟨rfl, UserView.Reads.cons.mpr ⟨first, .nil _ _⟩⟩
      have hb : b ≠ 0 := fun hb => h.1 (hb ▸ List.mem_cons_self)
      have hrest : (sp.view m).Cstr (va + 1) str :=
        ⟨fun hin => h.1 (List.mem_cons_of_mem b hin), rest⟩
      simp only [hbyte, Option.bind_eq_bind, Option.bind_some, List.cons.injEq, hb, and_true,
        if_false, ih hrest, List.length_cons, Nat.add_lt_add_iff_right, List.append_assoc,
        List.singleton_append]

theorem fromUtf8_some {bs str : List UInt8} (h : fromUtf8 bs = some str) : str = bs := by
  rw [fromUtf8] at h
  split at h
  · exact (Option.some.inj h).symm
  · cases h

/-- What `read_cstr` takes: a short string in UTF-8. -/
def Short (str : List UInt8) : Prop := str.length < maxStr ∧ fromUtf8 str = some str

instance (str : List UInt8) : Decidable (Short str) := inferInstanceAs (Decidable (_ ∧ _))

theorem readCstr_iff {va : Nat} {str got : List UInt8} (h : (sp.view m).Cstr va str) :
    sp.readCstr m va maxStr = some got ↔ got = str ∧ Short str := by
  rw [readCstr, readCstrFrom_cstr h, List.nil_append]
  constructor
  · intro heq
    split at heq
    · obtain rfl := fromUtf8_some heq
      exact ⟨rfl, by assumption, heq⟩
    · cases heq
  · rintro ⟨rfl, hlen, hutf⟩
    rw [if_pos hlen, hutf]

/-- The loop reads at most `n` strings, and those it reads are the caller's. -/
theorem readArgsFrom_iff {n argv : Nat} {ps : List Nat} {strs done got : List (List UInt8)}
    (h : (sp.view m).Vector argv ps strs) :
    readArgsFrom sp m n argv done = some got ↔
      got = done ++ strs.take n ∧ ∀ str ∈ strs.take n, Short str := by
  induction n generalizing argv ps strs done with
  | zero => simp [readArgsFrom, eq_comm]
  | succ n ih =>
    rw [readArgsFrom]
    rcases ps with _ | ⟨p, ps⟩
    · obtain rfl := List.forall₂_nil_left_iff.mp h.strings
      have hslot : sp.copyFromUser m argv 8 = some (leBytes 0 8) :=
        copyFromUser_iff.mpr ⟨rfl, h.pointers⟩
      have hzero : Loader.leValue (leBytes 0 8) = 0 := rfl
      simp [hslot, hzero, eq_comm]
    · rcases strs with _ | ⟨str, strs⟩
      · cases h.strings
      have hread : (sp.view m).Reads argv (leBytes p 8 ++ UserView.words (ps ++ [0])) := h.pointers
      obtain ⟨hpos, hlt⟩ := h.valid p List.mem_cons_self
      have hslot : sp.copyFromUser m argv 8 = some (leBytes p 8) :=
        copyFromUser_iff.mpr ⟨length_leBytes p 8, hread.left⟩
      have hcstr := (List.forall₂_cons.mp h.strings).1
      simp only [hslot, Option.bind_eq_bind, Option.bind_some, UserView.leValue_word hlt,
        Nat.pos_iff_ne_zero.mp hpos, if_false, Option.bind_eq_some_iff, readCstr_iff hcstr,
        ih h.tail, List.take_succ_cons, List.forall_mem_cons]
      constructor
      · rintro ⟨_, ⟨rfl, hshort⟩, rfl, hall⟩
        exact ⟨by simp, hshort, hall⟩
      · rintro ⟨rfl, hshort, hall⟩
        exact ⟨str, ⟨rfl, hshort⟩, by simp, hall⟩

/-- The strings `sys_exec` passes on. -/
theorem readArgs_argv {argv : Nat} {strs got : List (List UInt8)} (h : (sp.view m).Argv argv strs)
    (heq : readArgs sp m argv = some got) :
    got = (if argv = 0 then [] else strs.take maxArgs) ∧
      ∀ str ∈ got, 0 ∉ str ∧ str.length < maxStr := by
  obtain ⟨ps, h⟩ := h
  rw [readArgs] at heq
  split at heq
  · rename_i hzero
    obtain rfl := Option.some.inj heq
    exact ⟨(if_pos hzero).symm, by simp⟩
  · rename_i hzero
    obtain ⟨rfl, hall⟩ := (readArgsFrom_iff h).mp heq
    rw [List.nil_append, if_neg hzero]
    refine ⟨rfl, fun str hstr => ⟨?_, (hall str hstr).1⟩⟩
    obtain ⟨p, -, hcstr⟩ := forall₂_mem_right h.strings (List.mem_of_mem_take hstr)
    exact hcstr.1

end

/-! ## What `push_args` leaves -/

namespace UserView

variable {w w' : UserView} {va : Nat}

theorem Reads.congr {bs : List UInt8} (h : w.Reads va bs)
    (same : ∀ a, va ≤ a → a < va + bs.length → w' a = w a) : w'.Reads va bs := by
  intro k hk
  rw [same (va + k) (by omega) (by omega)]
  exact h k hk

theorem Cstr.congr {str : List UInt8} (h : w.Cstr va str) (same : ∀ a, va ≤ a → w' a = w a) :
    w'.Cstr va str :=
  ⟨h.1, h.2.congr fun a lo _ => same a lo⟩

theorem overlay_cstr {access : Nat} {str : List UInt8} (hnul : 0 ∉ str)
    (h : w.Grants access va (str.length + 1)) :
    ((w.overlay va str).overlay (va + str.length) [0]).Cstr va str := by
  have first : w.Grants access va str.length := h.sub (Nat.le_refl _) (by omega)
  have last : (w.overlay va str).Grants access (va + str.length) ([0] : List UInt8).length :=
    (h.overlay va str).sub (by omega) (by rw [List.length_singleton]; omega)
  refine ⟨hnul, Reads.append ((overlay_reads first).congr fun a _ hi => ?_) (overlay_reads last)⟩
  exact overlay_apart (.inl hi)

theorem overlay_none {src : List UInt8} {a : Nat} (h : w a = none) : w.overlay va src a = none := by
  rw [overlay, h, Option.map_none, ite_self]

/-- `push_args` maps nothing. -/
theorem pushArgs_none {a : Nat} (top : Nat) (args : List (List UInt8)) (h : w a = none) :
    (w.pushArgs top args).1 a = none := by
  have strings : ∀ (w : UserView) (top : Nat) (ps : List Nat), w a = none →
      (w.pushStrings args top ps).1 a = none := by
    induction args with
    | nil => exact fun w top ps h => h
    | cons arg args ih => exact fun w top ps h => ih _ _ _ (overlay_none (overlay_none h))
  have words : ∀ (ws : List Nat) (w : UserView) (addr : Nat), w a = none →
      w.pushWords ws addr a = none := by
    intro ws
    induction ws with
    | nil => exact fun w addr h => h
    | cons v ws ih => exact fun w addr h => ih _ _ (overlay_none h)
  exact words _ _ _ (strings w top [] h)

/-- The strings lie below `top`, each with its NUL below the one before it. -/
def Descends : Nat → List Nat → List (List UInt8) → Prop
  | top, p :: ps, arg :: args => p + arg.length + 1 ≤ top ∧ Descends p ps args
  | _, _, _ => True

/-- The strings lie one below the other, and nothing above them is touched. -/
theorem pushStrings_cstrs {access base top : Nat} {args : List (List UInt8)} (pointers : List Nat)
    (granted : w.Grants access base (top - base)) (room : base + stringsRoom args ≤ top)
    (hnul : ∀ arg ∈ args, 0 ∉ arg) :
    ∃ w' low new, w.pushStrings args top pointers = (w', low, pointers ++ new) ∧ low ≤ top ∧
      top ≤ low + stringsRoom args ∧ (∀ p ∈ new, low ≤ p ∧ p ≤ top) ∧ Descends top new args ∧
      List.Forall₂ w'.Cstr new args ∧ w'.Grants access base (low - base) ∧
      ∀ a, top ≤ a → w' a = w a := by
  induction args generalizing w top pointers with
  | nil =>
    refine ⟨w, top, [], ?_, Nat.le_refl _, Nat.le_refl _, nofun, trivial, .nil, granted,
      fun _ _ => rfl⟩
    rw [List.append_nil]
    rfl
  | cons arg args ih =>
    have hsum : stringsRoom (arg :: args) = arg.length + 8 + stringsRoom args := by
      simp [stringsRoom]
    rw [hsum] at room
    obtain ⟨at_, hat⟩ : ∃ at_, at_ = (top - (arg.length + 1)) / 8 * 8 := ⟨_, rfl⟩
    have here : w.Grants access at_ (arg.length + 1) := granted.sub (by omega) (by omega)
    have cstr := overlay_cstr (hnul arg List.mem_cons_self) here
    have granted₁ := (granted.overlay at_ arg).overlay (at_ + arg.length) [0]
    have above : ∀ a, top ≤ a →
        (w.overlay at_ arg).overlay (at_ + arg.length) [0] a = w a := by
      intro a ha
      rw [overlay_apart (.inr (by rw [List.length_singleton]; omega)),
        overlay_apart (.inr (by omega))]
    generalize hw₁ : (w.overlay at_ arg).overlay (at_ + arg.length) [0] = w₁ at *
    have below : w₁.Grants access base (at_ - base) := granted₁.sub (Nat.le_refl _) (by omega)
    obtain ⟨w', low, new, heq, hlow, htop, hnew, descends, cstrs, granted', same⟩ :=
      ih (pointers ++ [at_]) below (by omega) fun a ha => hnul a (List.mem_cons_of_mem arg ha)
    refine ⟨w', low, at_ :: new, ?_, by omega, by omega, ?_, ⟨by omega, descends⟩,
      .cons (cstr.congr same) cstrs, granted', ?_⟩
    · simp only [pushStrings, ← hat, hw₁, heq, List.append_assoc, List.singleton_append]
    · rw [List.forall_mem_cons]
      exact ⟨by omega, fun p hp => by have := hnew p hp; omega⟩
    · exact fun a ha => (same a (by omega)).trans (above a ha)

theorem pushWords_reads {access base top addr : Nat} {ws : List Nat}
    (granted : w.Grants access base (top - base)) (lo : base ≤ addr)
    (hi : addr + ws.length * 8 ≤ top) :
    (w.pushWords ws addr).Reads addr (words ws) ∧
      ∀ a, a < addr ∨ addr + ws.length * 8 ≤ a → w.pushWords ws addr a = w a := by
  induction ws generalizing w addr with
  | nil => exact ⟨.nil _ _, fun _ _ => rfl⟩
  | cons v ws ih =>
    rw [List.length_cons] at hi ⊢
    have here : w.Grants access addr (leBytes v 8).length :=
      granted.sub lo (by rw [length_leBytes]; omega)
    obtain ⟨reads, same⟩ := ih (granted.overlay addr (leBytes v 8)) (show base ≤ addr + 8 by omega)
      (by omega)
    constructor
    · have first : (w.pushWords (v :: ws) addr).Reads addr (leBytes v 8) :=
        (overlay_reads here).congr fun a _ hb => same a (.inl (by rwa [length_leBytes] at hb))
      refine first.append ?_
      rwa [length_leBytes]
    · intro a ha
      exact (same a (by omega)).trans (overlay_apart (by rw [length_leBytes]; omega))

/-- The vector is below the strings, aligned for a call. -/
theorem pushArgs_layout {access base top : Nat} {args : List (List UInt8)}
    (granted : w.Grants access base (top - base)) (hbase : 0 < base) (htop : top < 2 ^ 64)
    (room : base + stringsRoom args + (args.length + 1) * 8 + 16 ≤ top)
    (hnul : ∀ arg ∈ args, 0 ∉ arg) :
    ∃ w' argv ps, w.pushArgs top args = (w', argv, args.length, argv) ∧ base ≤ argv ∧
      16 ∣ argv ∧ (∀ p ∈ ps, argv + (ps.length + 1) * 8 ≤ p) ∧ argv + (ps.length + 1) * 8 ≤ top ∧
      Descends top ps args ∧ w'.Vector argv ps args := by
  obtain ⟨w₁, low, ps, heq, hlow, hsum, hps, descends, cstrs, granted₁, -⟩ :=
    pushStrings_cstrs [] granted (by omega) hnul
  rw [List.nil_append] at heq
  have hlen : ps.length = args.length := cstrs.length_eq
  obtain ⟨argv, hargv⟩ : ∃ argv, argv = (low - (ps.length + 1) * 8) / 16 * 16 := ⟨_, rfl⟩
  have hend : argv + (ps ++ [0]).length * 8 ≤ low := by
    rw [List.length_append, List.length_singleton]
    omega
  obtain ⟨reads, same⟩ := pushWords_reads granted₁ (by omega) hend
  rw [List.length_append, List.length_singleton] at hend same
  refine ⟨w₁.pushWords (ps ++ [0]) argv, argv, ps, ?_, by omega,
    ⟨_, hargv.trans (Nat.mul_comm _ _)⟩,
    fun p hp => ?_, by omega, descends, reads, fun p hp => ?_, ?_⟩
  · simp only [pushArgs, heq, ← hargv]
    rw [hlen]
  · have := hps p hp
    omega
  · have := hps p hp
    omega
  · refine ((List.forall₂_and_left _ _).mpr ⟨hps, cstrs⟩).imp ?_
    rintro p str ⟨hp, hcstr⟩
    exact hcstr.congr fun a lo => same a (.inr (by omega))

/-- The vector on the new stack is the one `push_args` was given. -/
theorem pushArgs_argv {access base top : Nat} {args : List (List UInt8)}
    (granted : w.Grants access base (top - base)) (hbase : 0 < base) (htop : top < 2 ^ 64)
    (room : base + stringsRoom args + (args.length + 1) * 8 + 16 ≤ top)
    (hnul : ∀ arg ∈ args, 0 ∉ arg) :
    ∃ w' argv, w.pushArgs top args = (w', argv, args.length, argv) ∧ base ≤ argv ∧
      argv < 2 ^ 64 ∧ w'.Argv argv args := by
  obtain ⟨w', argv, ps, heq, hbase, -, -, hend, -, vector⟩ :=
    pushArgs_layout granted hbase htop room hnul
  exact ⟨w', argv, heq, hbase, by omega, ps, vector⟩

end UserView

/-! ## The call -/

variable {σ : Type} {A : CountedAllocator σ} {s s' : Phys σ}
  {rest : Multiset Frame} {sp : AddressSpace}
  {p : Process} {image : List UInt8} {args strs : List (List UInt8)} {kernel : PageTable}

/-- The new program finds `strs`, and as many as it is told, in `Args` of `a0` and `a1`. -/
def Delivered (m : Mem) (i : Prepared) (strs : List (List UInt8)) : Prop :=
  ((TrapFrame.newUser i).x 10).val = strs.length ∧
    (Args.new ((TrapFrame.newUser i).x 10).val ((TrapFrame.newUser i).x 11).val).collect
      (i.space.view m) = some strs

theorem fits_stack (few : args.length ≤ maxArgs) (short : ∀ arg ∈ args, arg.length < maxStr) :
    stringsRoom args + (args.length + 1) * 8 + 16 ≤ userStackSize := by
  have hsum : stringsRoom args ≤ args.length * 263 := by
    rw [stringsRoom]
    refine (List.sum_le_card_nsmul _ 263 fun n hn => ?_).trans (by simp)
    obtain ⟨arg, harg, rfl⟩ := List.mem_map.mp hn
    have := short arg harg
    simp only [maxStr] at this
    omega
  simp only [maxArgs, userStackSize] at *
  omega

/-- With arguments that fit into the stack nothing panics. -/
theorem prepare_some (kernel : PageTable) (image : List UInt8) (holds : A.Holds s rest)
    (fit : stringsRoom args + (args.length + 1) * 8 + 16 ≤ userStackSize) :
    ∃ res s', prepare A.toFrameAllocator s kernel image args = some (res, s') := by
  obtain ⟨res, s₁, hload, out⟩ := Loader.load_built kernel image holds
  rcases out with ⟨l, rfl, -, -, holds₁, exact₁, -⟩ | ⟨⟨e, rfl⟩, -⟩
  swap
  · exact ⟨.error (.badImage e), s₁, by simp [prepare, hload]⟩
  obtain ⟨top, s₂, space, hstack⟩ := mapUserStack_some holds₁ exact₁
  rcases top with _ | top
  · obtain ⟨holds₂, formed, -⟩ := mapUserStack_spec holds₁ exact₁ hstack
    obtain ⟨s₃, hdrop, -⟩ := AddressSpace.drop_spec formed holds₂
    exact ⟨.error .outOfMemory, s₃, by simp [prepare, hload, hstack, hdrop]⟩
  obtain ⟨rfl, holds₂, exact₂, hview⟩ := mapUserStack_view holds₁ exact₁ hstack
  have granted := stack_grants (l.space.view s₁.mem)
  rw [← hview] at granted
  obtain ⟨⟨sp, argc, argv⟩, mem, hargs⟩ :=
    pushArgs_some (apart_of_holds holds₂) exact₂ granted (stack_room fit)
  exact ⟨.ok ⟨space, l.entry, l.brk, sp, argc, argv⟩, { s₂ with mem := mem },
    by simp [prepare, hload, hstack, hargs]⟩

/-- A call that gets as far as the image returns; a completed one shows the new program
its image and its arguments. -/
theorem execCurrent_cases (h : p.Formed A s sp rest) (kernel : PageTable) (image : List UInt8)
    (fit : stringsRoom args + (args.length + 1) * 8 + 16 ≤ userStackSize) :
    ∃ res s', execCurrent A.toFrameAllocator s kernel p image args = some (res, s') ∧
      ∀ i, res = .ok i → Visible.ofImage image args =
        ⟨.newUser i, i.space.view s'.mem, max i.brk userHeapBase, max i.brk userHeapBase⟩ := by
  obtain ⟨res, s₁, hprep⟩ := prepare_some kernel image h.space_holds fit
  rcases res with e | i
  · exact ⟨.error e, s₁, by simp [execCurrent, hprep], nofun⟩
  obtain ⟨-, exact, seen⟩ := prepare_view h.space_holds hprep
  obtain ⟨s₂, hexec, kept⟩ := h.execCurrent_ok hprep
  refine ⟨.ok i, s₂, hexec, fun j hj => ?_⟩
  obtain rfl := Except.ok.inj hj
  rw [seen, exact.view_kept kept]

/-- A program gets the arguments it was prepared with. -/
theorem delivered_iff {m : Mem} {i : Prepared} {brk top : Nat} (few : args.length ≤ maxArgs)
    (short : ∀ arg ∈ args, 0 ∉ arg ∧ arg.length < maxStr)
    (seen : Visible.ofImage image args = ⟨.newUser i, i.space.view m, brk, top⟩) :
    Delivered m i strs ↔ args = strs := by
  have fit := stack_room (fits_stack few fun arg ha => (short arg ha).2)
  obtain ⟨w, argv, heq, -, hlt, hargv⟩ := UserView.pushArgs_argv (stack_grants (.ofImage image))
    (by decide) (by decide) fit fun arg ha => (short arg ha).1
  rw [Visible.ofImage, heq] at seen
  obtain ⟨hframe, hheap⟩ := Visible.mk.inj seen
  obtain ⟨rfl, -, -⟩ := HeapView.mk.inj hheap
  have h₁₀ : ((TrapFrame.newUser i).x 10).val = args.length := by
    rw [← hframe]
    exact Nat.mod_eq_of_lt (few.trans_lt (by decide))
  have h₁₁ : ((TrapFrame.newUser i).x 11).val = argv := by
    rw [← hframe]
    exact Nat.mod_eq_of_lt hlt
  rw [Delivered, h₁₀, h₁₁, Args.collect_argv hargv, Option.some_inj]
  exact ⟨And.right, fun same => ⟨congrArg List.length same, same⟩⟩

theorem execErrno_neg (e : ExecError) : execErrno e < 0 := by
  cases e with
  | badImage e => exact (by decide : Nr.einval < 0)
  | outOfMemory => exact (by decide : Nr.enomem < 0)

/-- `sys_exec` returns. It fails with a negative number, or the new program gets the
caller's strings; all of them if there are no more than it can take. -/
theorem sysExec_delivers_iff (h : p.Formed A s sp rest) {argv : Nat}
    (hargv : (sp.view s.mem).Argv argv strs) (cfg : Config) (path : Nat) :
    ∃ res s', sysExec A.toFrameAllocator s cfg p path argv = some (res, s') ∧
      (∀ e, res = .error e → e < 0) ∧
      ∀ i, res = .ok i →
        (Delivered s'.mem i strs ↔ strs.length ≤ maxArgs ∧ (argv = 0 → strs = [])) := by
  simp only [sysExec, h.space]
  rcases hpath : sp.readCstr s.mem path maxStr with _ | name
  · exact ⟨.error Nr.efault, s, rfl, fun e he => by cases he; decide, nofun⟩
  rcases hread : readArgs sp s.mem argv with _ | args
  · exact ⟨.error Nr.efault, s, rfl, fun e he => by cases he; decide, nofun⟩
  rcases hfind : find cfg name with _ | image
  · exact ⟨.error Nr.enoent, s, by simp only [hfind], fun e he => by cases he; decide, nofun⟩
  obtain ⟨hgot, short⟩ := readArgs_argv hargv hread
  have few : args.length ≤ maxArgs := by
    rw [hgot]
    split
    · exact Nat.zero_le _
    · exact List.length_take_le _ _
  obtain ⟨res, s', heq, hseen⟩ := execCurrent_cases h cfg.kernelTable image
    (fits_stack few fun arg ha => (short arg ha).2)
  simp only [hfind, heq, Option.map_some]
  refine ⟨_, s', rfl, fun e he => ?_, fun i hi => ?_⟩
  · rcases res with e' | i
    · cases he
      exact execErrno_neg e'
    · cases he
  · rcases res with e' | j
    · cases hi
    obtain rfl := Except.ok.inj hi
    rw [delivered_iff few short (hseen j rfl), hgot]
    by_cases hzero : argv = 0
    · simp only [hzero, true_implies]
      exact ⟨fun h => ⟨h ▸ Nat.zero_le _, h.symm⟩, fun h => h.2.symm⟩
    · simp only [hzero, false_implies, and_true]
      exact List.take_eq_self_iff _

/-! ## A caller with arguments -/

/-- A process after boot that was started with `args`, and frames for another. -/
theorem booted_caller {args : List (List UInt8)}
    (fit : stringsRoom args + (args.length + 1) * 8 + 16 ≤ userStackSize)
    (nul : ∀ arg ∈ args, 0 ∉ arg) : ∃ (s : Buddy.State) (p : Process)
    (sp : AddressSpace) (argv : Nat), p.Formed Buddy.merging s sp 0 ∧
      (sp.view s.mem).Argv argv args ∧ argv ≠ 0 ∧
      72 ≤ Buddy.merging.avail s ∧ sp.view s.mem 0 = none := by
  obtain ⟨s₀, -, holds₀, havail₀⟩ := Buddy.merging_boot
  obtain ⟨k, s₁, hstack⟩ := Buddy.merging_room (k := 3) holds₀ (by decide) (by
    rw [havail₀]
    decide)
  obtain ⟨horder, holds₁, -⟩ := Buddy.merging.alloc_some holds₀ hstack
  have havail₁ := Buddy.merging.alloc_avail holds₀ hstack
  rw [Frame.count, horder, havail₀] at havail₁
  obtain ⟨i, s₂, hbuilt, room⟩ :=
    small_built (c := 72) ⟨0, []⟩ holds₁ fit (by decide) (by omega)
  have enough := room.avail
  rw [List.length_range'] at enough
  obtain ⟨holds₂, exact₂, seen⟩ := prepare_view holds₁ hbuilt
  obtain ⟨w, argv, heq, hbase, -, hargv⟩ := UserView.pushArgs_argv
    (stack_grants (.ofImage Loader.smallImage)) (by decide) (by decide) (stack_room fit) nul
  rw [Visible.ofImage, heq] at seen
  obtain ⟨rfl, -, -⟩ := HeapView.mk.inj (Visible.mk.inj seen).2
  have hzero : i.space.view s₂.mem 0 = none := by
    have hnone : (UserView.ofImage Loader.smallImage).userStack 0 = none := by decide
    have := UserView.pushArgs_none userStackTop args hnone
    rwa [heq] at this
  refine ⟨s₂, ⟨1, .user 0, some i.space, 0, k, userHeapBase, userHeapBase, 0, none, []⟩, i.space,
    argv, ⟨rfl, ?_, exact₂.toFormed⟩, hargv, ?_, enough, hzero⟩
  · rw [Process.frames, Option.elim_some, add_zero, ← Multiset.singleton_add, add_comm]
    exact holds₂
  · exact Nat.pos_iff_ne_zero.mp (Nat.lt_of_lt_of_le (by decide) hbase)

/-- The caller becomes the program that one of its arguments names, with as many of them as
are passed on. -/
theorem booted_exec {name : List UInt8} {args : List (List UInt8)} (mem : name ∈ args)
    (plain : name.head? ≠ some 0x2f)
    (fit : stringsRoom args + (args.length + 1) * 8 + 16 ≤ userStackSize)
    (short : ∀ arg ∈ args, 0 ∉ arg ∧ Short arg) : ∃ (s s' : Buddy.State) (p : Process)
    (sp : AddressSpace) (cfg : Config) (path argv : Nat) (i : Prepared),
      p.Formed Buddy.merging s sp 0 ∧ (sp.view s.mem).Argv argv args ∧ argv ≠ 0 ∧
      sysExec Buddy.merging.toFrameAllocator s cfg p path argv = some (.ok i, s') ∧
      ∀ strs, Delivered s'.mem i strs ↔ args.take maxArgs = strs := by
  obtain ⟨s, p, sp, argv, h, hargv, hne, frames, -⟩ :=
    booted_caller fit fun arg ha => (short arg ha).1
  obtain ⟨ps, hvec⟩ := hargv
  obtain ⟨path, -, hpath⟩ := forall₂_mem_right hvec.strings mem
  have hname := (readCstr_iff hpath).mpr ⟨rfl, (short name mem).2⟩
  have hargs : readArgs sp s.mem argv = some (args.take maxArgs) := by
    rw [readArgs, if_neg hne, readArgsFrom_iff hvec, List.nil_append]
    exact ⟨rfl, fun str hstr => (short str (List.mem_of_mem_take hstr)).2⟩
  have few : (args.take maxArgs).length ≤ maxArgs := List.length_take_le _ _
  have passed : ∀ arg ∈ args.take maxArgs, 0 ∉ arg ∧ arg.length < maxStr := fun arg ha =>
    ⟨(short arg (List.mem_of_mem_take ha)).1, (short arg (List.mem_of_mem_take ha)).2.1⟩
  have fit' := fits_stack few fun arg ha => (passed arg ha).2
  obtain ⟨nodup, cost⟩ := smallImage_stack
  obtain ⟨i, s₁, hprep, -⟩ := prepare_room ⟨0, []⟩ h.space_holds Loader.smallImage_accepts nodup
    (cost.trans frames) fit'
  obtain ⟨res, s', heq, hseen⟩ := execCurrent_cases h ⟨0, []⟩ Loader.smallImage fit'
  obtain rfl : res = .ok i := by
    simp only [execCurrent, hprep, h.space, Option.bind_eq_bind, Option.bind_some] at heq
    obtain ⟨s₂, -, hout⟩ := Option.bind_eq_some_iff.mp heq
    exact (Prod.mk.inj (Option.some.inj hout)).1.symm
  refine ⟨s, s', p, sp, ⟨⟨0, []⟩, [(name, Loader.smallImage)]⟩, path, argv, i, h, ⟨ps, hvec⟩, hne,
    ?_, fun strs => delivered_iff few passed (hseen i rfl)⟩
  have hfind : find ⟨⟨0, []⟩, [(name, Loader.smallImage)]⟩ name = some Loader.smallImage := by
    simp [find, plain]
  simp only [sysExec, h.space, hname, hargs, hfind, heq, Option.map_some]
  rfl

/-- The program `cat` with the arguments `-n` and the empty string. -/
theorem exec_three_arguments : ∃ (s s' : Buddy.State) (p : Process) (sp : AddressSpace)
    (cfg : Config) (path argv : Nat) (i : Prepared), p.Formed Buddy.merging s sp 0 ∧
      (sp.view s.mem).Argv argv [[0x63, 0x61, 0x74], [0x2d, 0x6e], []] ∧
      sysExec Buddy.merging.toFrameAllocator s cfg p path argv = some (.ok i, s') ∧
      Delivered s'.mem i [[0x63, 0x61, 0x74], [0x2d, 0x6e], []] := by
  obtain ⟨s, s', p, sp, cfg, path, argv, i, h, hargv, hne, heq, -⟩ := booted_exec
    (List.mem_cons_self (a := [0x63, 0x61, 0x74]) (l := [[0x2d, 0x6e], []])) (by decide)
    (by decide) (by decide)
  obtain ⟨res, s₁, heq₁, -, hok⟩ := sysExec_delivers_iff h hargv cfg path
  obtain ⟨rfl, rfl⟩ := Prod.mk.inj (Option.some.inj (heq.symm.trans heq₁))
  exact ⟨s, s', p, sp, cfg, path, argv, i, h, hargv, heq,
    (hok i rfl).mpr ⟨by decide, fun hzero => absurd hzero hne⟩⟩

/-- Of 33 arguments the last one is lost, and the call still succeeds. -/
theorem exec_drops_argument : ∃ (s s' : Buddy.State) (p : Process) (sp : AddressSpace)
    (cfg : Config) (path argv : Nat) (i : Prepared), p.Formed Buddy.merging s sp 0 ∧
      (sp.view s.mem).Argv argv (List.replicate 33 [0x61]) ∧
      sysExec Buddy.merging.toFrameAllocator s cfg p path argv = some (.ok i, s') ∧
      Delivered s'.mem i (List.replicate 32 [0x61]) ∧
      ¬ Delivered s'.mem i (List.replicate 33 [0x61]) := by
  have short : ∀ arg ∈ List.replicate 33 ([0x61] : List UInt8), 0 ∉ arg ∧ Short arg := by
    intro arg harg
    rw [(List.mem_replicate.mp harg).2]
    exact ⟨by decide, by decide, by decide⟩
  obtain ⟨s, s', p, sp, cfg, path, argv, i, h, hargv, -, heq, hiff⟩ :=
    booted_exec (List.mem_replicate.mpr ⟨by decide, rfl⟩) (by decide) (by decide) short
  refine ⟨s, s', p, sp, cfg, path, argv, i, h, hargv, heq, (hiff _).mpr ?_, fun hall => ?_⟩
  · rw [List.take_replicate]
    rfl
  have := congrArg List.length ((hiff _).mp hall)
  rw [List.length_take, List.length_replicate] at this
  exact absurd this (by decide)

end AlexOS
