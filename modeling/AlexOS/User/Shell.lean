import AlexOS.Lib.Bytes
import Mathlib.Data.List.TakeWhile
import Mathlib.Logic.Function.Basic

/-!
# The shell's command line

`read_line` of the user library, and `split`, `cstr_at` and the dispatch of
`user/src/bin/sh.rs`. The line is split in place: separators become NULs, the
arguments point into the buffer, and the byte after the line is the last NUL when
there is one. A line that fills the buffer has none, and the path given to `exec` is
the start of the buffer, which is not always where the first argument is.
-/

namespace AlexOS.Shell

open Bytes

def lineMax : Nat := 256
def argsMax : Nat := 16

def space : UInt8 := 0x20

def isAsciiGraphic (b : UInt8) : Bool := 0x21 ≤ b && b ≤ 0x7e

def printable (b : UInt8) : Bool := isAsciiGraphic b || b == space

/-! ## `read_line` -/

/-- What a call has read and written: the length of the line, the memory, the input
that is left and what was echoed. -/
structure Typed where
  len : Nat
  mem : Mem
  rest : List UInt8
  echo : List UInt8

/-- The loop of `read_line` over the bytes that `read` delivers; `none` while the line
has no end. -/
def readLine (buf size : Nat) (m : Mem) (len : Nat) (echo : List UInt8) :
    List UInt8 → Option Typed
  | [] => none
  | byte :: input =>
    if byte = 0x0d ∨ byte = 0x0a then some ⟨len, m, input, echo ++ [0x0a]⟩
    else if byte = 0x7f ∨ byte = 0x08 then
      if 0 < len then readLine buf size m (len - 1) (echo ++ [0x08, 0x20, 0x08]) input
      else readLine buf size m len echo input
    else if printable byte ∧ len < size then
      readLine buf size (Function.update m (buf + len) byte) (len + 1) (echo ++ [byte]) input
    else readLine buf size m len echo input

/-! ## `split` -/

/-- The loop over separators, which become NULs. -/
def skipBlanks (m : Mem) (line len i : Nat) : Mem × Nat :=
  if i < len ∧ m (line + i) = space then
    skipBlanks (Function.update m (line + i) 0) line len (i + 1)
  else (m, i)
termination_by len - i

/-- The loop over the bytes of a field. -/
def skipField (m : Mem) (line len i : Nat) : Nat :=
  if i < len ∧ m (line + i) ≠ space then skipField m line len (i + 1) else i
termination_by len - i

theorem skipBlanks_le (m : Mem) (line len i : Nat) : i ≤ (skipBlanks m line len i).2 := by
  fun_induction skipBlanks with
  | case1 m i h ih => omega
  | case2 m i h => exact Nat.le_refl i

theorem skipBlanks_stop (m : Mem) (line len i : Nat) (h : (skipBlanks m line len i).2 < len) :
    (skipBlanks m line len i).1 (line + (skipBlanks m line len i).2) ≠ space := by
  fun_induction skipBlanks with
  | case1 m i hi ih => exact ih h
  | case2 m i hi => exact fun hspace => hi ⟨h, hspace⟩

theorem skipField_lt {m : Mem} {line len i : Nat} (hi : i < len) (h : m (line + i) ≠ space) :
    i < skipField m line len i := by
  have le : ∀ j, j ≤ skipField m line len j := by
    intro j
    fun_induction skipField with
    | case1 j h ih => omega
    | case2 j h => exact Nat.le_refl j
  rw [skipField, if_pos ⟨hi, h⟩]
  exact le (i + 1)

/-- What `split` leaves: its result, the memory and the pointers. -/
structure Split where
  argc : Option Nat
  mem : Mem
  argv : Nat → Nat

/-- The end of `split`: the NUL after the line, if the buffer has room for it, and the
NULL after the pointers. -/
def finish (m : Mem) (line len : Nat) (argv : Nat → Nat) (argc : Nat) : Split :=
  ⟨some argc, if 0 < argc ∧ len < lineMax then Function.update m (line + len) 0 else m,
    Function.update argv argc 0⟩

def splitFrom (m : Mem) (line len : Nat) (argv : Nat → Nat) (argc i : Nat) : Split :=
  if i < len then
    let blanks := skipBlanks m line len i
    if hi : len ≤ blanks.2 then finish blanks.1 line len argv argc
    else if argc = argsMax then ⟨none, blanks.1, argv⟩
    else
      splitFrom blanks.1 line len (Function.update argv argc (line + blanks.2)) (argc + 1)
        (skipField blanks.1 line len blanks.2)
  else finish m line len argv argc
termination_by len - i
decreasing_by
  have hlt : (skipBlanks m line len i).2 < len := Nat.lt_of_not_le hi
  have hle := skipBlanks_le m line len i
  have hfield := skipField_lt hlt (skipBlanks_stop m line len i hlt)
  exact Nat.sub_lt_sub_left (by omega) (Nat.lt_of_le_of_lt hle hfield)

def split (m : Mem) (line len : Nat) (argv : Nat → Nat) : Split := splitFrom m line len argv 0 0

/-! ## The dispatch -/

/-- The loop of `cstr_at`; `none` once the memory ends. -/
def cstrFrom (m : Mem) : Nat → Nat → Option (List UInt8)
  | 0, _ => none
  | turns + 1, p => if m p = 0 then some [] else (cstrFrom m turns (p + 1)).map (m p :: ·)

def cstrAt (m : Mem) (ptr : Nat) : Option (List UInt8) := cstrFrom m (2 ^ 64 - ptr) ptr

/-- The builtins' names: `exit`, `help`, `uptime`, `ps`. -/
def exitName : List UInt8 := [0x65, 0x78, 0x69, 0x74]
def helpName : List UInt8 := [0x68, 0x65, 0x6c, 0x70]
def uptimeName : List UInt8 := [0x75, 0x70, 0x74, 0x69, 0x6d, 0x65]
def psName : List UInt8 := [0x70, 0x73]

/-- What a turn of the loop of `main` does with the line. The child of `run_external`
gives `exec` the start of the line and the pointers. -/
inductive Action where
  | again
  | tooMany
  | fault
  | exit
  | help
  | uptime
  | ps
  | external (path : Nat) (argv : Nat → Nat)

def dispatch (name : List UInt8) (line : Nat) (argv : Nat → Nat) : Action :=
  if name = exitName then .exit
  else if name = helpName then .help
  else if name = uptimeName then .uptime
  else if name = psName then .ps
  else .external line argv

def command (m : Mem) (line len : Nat) : Action × Mem :=
  if len = 0 then (.again, m)
  else
    let s := split m line len fun _ => 0
    match s.argc with
    | none => (.tooMany, s.mem)
    | some 0 => (.again, s.mem)
    | some _ =>
      match cstrAt s.mem (s.argv 0) with
      | none => (.fault, s.mem)
      | some name => (dispatch name line s.argv, s.mem)

/-! ## The words of a line -/

/-- The maximal runs of bytes that are not spaces. -/
def words (text : List UInt8) : List (List UInt8) :=
  (text.splitOnP (· == space)).filter fun w => !w.isEmpty

theorem words_blanks {blanks : List UInt8} (h : ∀ b ∈ blanks, b = space) (rest : List UInt8) :
    words (blanks ++ rest) = words rest := by
  induction blanks with
  | nil => rfl
  | cons b blanks ih =>
    obtain rfl : b = space := h b List.mem_cons_self
    rw [← ih fun b hb => h b (List.mem_cons_of_mem _ hb), List.cons_append, words,
      List.splitOnP_cons_eq_if_modifyHead, if_pos (beq_self_eq_true _)]
    rfl

theorem words_field {word rest : List UInt8} (hword : ∀ b ∈ word, b ≠ space) (hne : word ≠ [])
    (hrest : ∀ b ∈ rest.head?, b = space) : words (word ++ rest) = word :: words rest := by
  have hnot : ∀ b ∈ word, (b == space) = false := fun b hb => beq_false_of_ne (hword b hb)
  have hkeep : (!word.isEmpty) = true := by simpa using hne
  cases rest with
  | nil =>
    rw [List.append_nil, words, List.splitOnP_eq_singleton hnot, List.filter_cons, if_pos hkeep]
    rfl
  | cons b rest =>
    obtain rfl : b = space := hrest b rfl
    have hsep : words (space :: rest) = words rest :=
      words_blanks (show ∀ b ∈ [space], b = space from fun b hb => List.mem_singleton.mp hb) rest
    rw [hsep, words, List.splitOnP_append_cons_of_forall_mem hnot _ (beq_self_eq_true _),
      List.filter_cons, if_pos hkeep]
    rfl

/-- The fields of a text with their places, counted from `off`. -/
inductive Fields : Nat → List UInt8 → List (Nat × List UInt8) → Prop where
  | blank {off : Nat} {rest : List UInt8} (h : ∀ b ∈ rest, b = space) : Fields off rest []
  | field {off : Nat} {blanks word rest : List UInt8} {fs : List (Nat × List UInt8)}
      (hblanks : ∀ b ∈ blanks, b = space) (hword : ∀ b ∈ word, b ≠ space) (hne : word ≠ [])
      (hrest : ∀ b ∈ rest.head?, b = space)
      (h : Fields (off + blanks.length + word.length) rest fs) :
      Fields off (blanks ++ (word ++ rest)) ((off + blanks.length, word) :: fs)

theorem exists_run (p : UInt8 → Bool) (text : List UInt8) : ∃ run rest, text = run ++ rest ∧
    (∀ b ∈ run, p b = true) ∧ ∀ b ∈ rest.head?, p b = false := by
  refine ⟨_, _, (List.takeWhile_append_dropWhile (p := p)).symm,
    fun b hb => List.mem_takeWhile_imp hb, ?_⟩
  intro b hb
  have := List.head?_dropWhile_not p text
  rw [Option.mem_def.mp hb] at this
  exact this

theorem exists_fields (off : Nat) (text : List UInt8) : ∃ fs, Fields off text fs := by
  induction hn : text.length using Nat.strong_induction_on generalizing off text with
  | _ n ih =>
    obtain ⟨blanks, tail, rfl, hblanks, htail⟩ := exists_run (· == space) text
    replace hblanks : ∀ b ∈ blanks, b = space := fun b hb => eq_of_beq (hblanks b hb)
    obtain ⟨word, rest, rfl, hword, hrest⟩ := exists_run (· != space) tail
    replace hword : ∀ b ∈ word, b ≠ space := fun b hb => by simpa using hword b hb
    replace hrest : ∀ b ∈ rest.head?, b = space := fun b hb => by simpa using hrest b hb
    cases word with
    | nil =>
      cases rest with
      | nil => exact ⟨[], .blank (by simpa using hblanks)⟩
      | cons b rest =>
        obtain rfl := hrest b rfl
        exact absurd (htail space rfl) (by decide)
    | cons b word =>
      obtain ⟨fs, hfs⟩ := ih rest.length (by simp [← hn]; omega)
        (off + blanks.length + (b :: word).length) rest rfl
      exact ⟨_, .field hblanks hword (List.cons_ne_nil _ _) hrest hfs⟩

section
variable {off : Nat} {text : List UInt8} {fs : List (Nat × List UInt8)}

theorem Fields.words (h : Fields off text fs) : Shell.words text = fs.map Prod.snd := by
  induction h with
  | @blank _ rest h =>
    rw [← List.append_nil rest, words_blanks h]
    rfl
  | field hblanks hword hne hrest _ ih =>
    rw [words_blanks hblanks, words_field hword hne hrest, ih, List.map_cons]

/-- Where a field is, and what comes after it. -/
theorem Fields.place (h : Fields off text fs) {f : Nat × List UInt8} (hf : f ∈ fs) :
    ∃ pre post, text = pre ++ (f.2 ++ post) ∧ f.1 = off + pre.length ∧ f.2 ≠ [] ∧
      (∀ b ∈ f.2, b ≠ space) ∧ ∀ b ∈ post.head?, b = space := by
  induction h with
  | blank => cases hf
  | @field off blanks word rest fs hblanks hword hne hrest _ ih =>
    rcases List.mem_cons.mp hf with rfl | hf
    · exact ⟨blanks, rest, rfl, rfl, hne, hword, hrest⟩
    · obtain ⟨pre, post, rfl, hplace, more⟩ := ih hf
      refine ⟨blanks ++ (word ++ pre), post, by simp, ?_, more⟩
      rw [hplace, List.length_append, List.length_append]
      omega

/-- A text that does not end in a space ends in its last field. -/
theorem Fields.last (h : Fields off text fs) {b : UInt8} (hb : text.getLast? = some b)
    (hne : b ≠ space) : ∃ f ∈ fs, f.1 + f.2.length = off + text.length := by
  induction h with
  | blank h => exact absurd (h b (List.mem_of_getLast? hb)) hne
  | @field off blanks word rest fs hblanks hword hnil hrest _ ih =>
    cases rest with
    | nil =>
      refine ⟨_, List.mem_cons_self, ?_⟩
      simp only [List.append_nil, List.length_append]
      omega
    | cons c rest =>
      obtain ⟨f, hf, hend⟩ := ih (by simpa [List.getLast?_append] using hb)
      refine ⟨f, List.mem_cons_of_mem _ hf, ?_⟩
      rw [hend, List.length_append, List.length_append]
      omega

/-- In a text that ends in a space no field is at the end. -/
theorem Fields.lt_of_last (h : Fields off text fs) (hlast : text.getLast? = some space)
    {f : Nat × List UInt8} (hf : f ∈ fs) : f.1 + f.2.length < off + text.length := by
  obtain ⟨pre, post, rfl, hplace, hne, hword, -⟩ := h.place hf
  have hpost : post ≠ [] := by
    rintro rfl
    obtain ⟨b, hb⟩ : ∃ b, f.2.getLast? = some b := ⟨_, List.getLast?_eq_some_getLast hne⟩
    rw [List.append_nil, List.getLast?_append, hb, Option.some_or] at hlast
    exact hword b (List.mem_of_getLast? hb) (Option.some.inj hlast)
  have := List.length_pos_iff.mpr hpost
  rw [hplace, List.length_append, List.length_append]
  omega

/-- The first field of a text that does not begin with a space is at its start. -/
theorem Fields.first (h : Fields off text fs) {f : Nat × List UInt8} (hf : fs.head? = some f) :
    f.1 = off ↔ text.head? ≠ some space := by
  cases h with
  | blank => cases hf
  | @field _ blanks word rest fs hblanks hword hne _ _ =>
    obtain rfl := Option.some.inj hf
    cases blanks with
    | nil =>
      obtain ⟨b, word, rfl⟩ := List.exists_cons_of_ne_nil hne
      simpa using hword b List.mem_cons_self
    | cons b blanks => simp [hblanks b List.mem_cons_self]

end

/-! ## The bytes in memory -/

/-- The bytes stand in memory from `a` on. -/
def Holds (m : Mem) : Nat → List UInt8 → Prop
  | _, [] => True
  | a, b :: bs => m a = b ∧ Holds m (a + 1) bs

/-- A C string: its bytes and the first NUL. -/
def Cstr (m : Mem) (p : Nat) (str : List UInt8) : Prop := 0 ∉ str ∧ Holds m p (str ++ [0])

theorem Holds.append {m : Mem} {a : Nat} {bs cs : List UInt8} :
    Holds m a (bs ++ cs) ↔ Holds m a bs ∧ Holds m (a + bs.length) cs := by
  induction bs generalizing a with
  | nil => simp [Holds]
  | cons b bs ih =>
    rw [List.cons_append, Holds, Holds, ih, List.length_cons, Nat.add_assoc, Nat.add_comm 1,
      and_assoc]

theorem Holds.congr {m m' : Mem} {a : Nat} {bs : List UInt8} (h : Holds m a bs)
    (same : ∀ x, a ≤ x → x < a + bs.length → m' x = m x) : Holds m' a bs := by
  induction bs generalizing a with
  | nil => trivial
  | cons b bs ih =>
    rw [List.length_cons] at same
    refine ⟨(same a (Nat.le_refl a) (by omega)).trans h.1, ih h.2 ?_⟩
    exact fun x lo hi => same x (by omega) (by omega)

theorem Holds.mem {m : Mem} {a x : Nat} {bs : List UInt8} (h : Holds m a bs) (lo : a ≤ x)
    (hi : x < a + bs.length) : m x ∈ bs := by
  induction bs generalizing a with
  | nil => simp at hi; omega
  | cons b bs ih =>
    rw [List.length_cons] at hi
    rcases Nat.eq_or_lt_of_le lo with rfl | lo
    · exact h.1 ▸ List.mem_cons_self
    · exact List.mem_cons_of_mem _ (ih h.2 lo (by omega))

theorem Cstr.unique {m : Mem} {p : Nat} {str str' : List UInt8} (h : Cstr m p str)
    (h' : Cstr m p str') : str = str' := by
  induction str generalizing p str' with
  | nil =>
    cases str' with
    | nil => rfl
    | cons b str' => exact absurd (h'.2.1.symm.trans h.2.1 ▸ List.mem_cons_self) h'.1
  | cons b str ih =>
    cases str' with
    | nil => exact absurd (h.2.1.symm.trans h'.2.1 ▸ List.mem_cons_self) h.1
    | cons c str' =>
      obtain rfl : b = c := h.2.1.symm.trans h'.2.1
      rw [ih ⟨fun hin => h.1 (List.mem_cons_of_mem _ hin), h.2.2⟩
        ⟨fun hin => h'.1 (List.mem_cons_of_mem _ hin), h'.2.2⟩]

/-- The memory once the spaces among the first `i` bytes of the line are NULs. -/
def blanked (m : Mem) (line i : Nat) : Mem := fun a =>
  if line ≤ a ∧ a < line + i ∧ m a = space then 0 else m a

section
variable {m : Mem} {line i : Nat} {rest : List UInt8}

theorem blanked_zero : blanked m line 0 = m := by
  funext a
  rw [blanked, if_neg (by omega)]

theorem blanked_ahead {a : Nat} (h : line + i ≤ a) : blanked m line i a = m a := by
  rw [blanked, if_neg (by omega)]

theorem blanked_space (h : m (line + i) = space) :
    Function.update (blanked m line i) (line + i) 0 = blanked m line (i + 1) := by
  funext a
  by_cases ha : a = line + i
  · rw [ha, Function.update_self, blanked, if_pos ⟨by omega, by omega, h⟩]
  · have hlt : a < line + i ↔ a < line + (i + 1) := by omega
    rw [Function.update_of_ne ha]
    simp only [blanked, hlt]

theorem blanked_byte (h : m (line + i) ≠ space) : blanked m line (i + 1) = blanked m line i := by
  funext a
  apply if_congr _ rfl rfl
  constructor
  · rintro ⟨lo, hi, hspace⟩
    refine ⟨lo, ?_, hspace⟩
    rcases Nat.lt_or_ge a (line + i) with hlt | hge
    · exact hlt
    · exact absurd (show m (line + i) = space by rwa [show line + i = a by omega]) h
  · exact fun ⟨lo, hi, hspace⟩ => ⟨lo, by omega, hspace⟩

theorem skipBlanks_eq {blanks : List UInt8} (hblanks : ∀ b ∈ blanks, b = space)
    (hrest : ∀ b ∈ rest.head?, b ≠ space) (h : Holds m (line + i) (blanks ++ rest)) :
    skipBlanks (blanked m line i) line (i + (blanks ++ rest).length) i =
      (blanked m line (i + blanks.length), i + blanks.length) := by
  induction blanks generalizing i with
  | nil =>
    rw [skipBlanks, if_neg]
    · rfl
    · rintro ⟨hlt, hspace⟩
      cases rest with
      | nil => simp at hlt
      | cons b rest =>
        rw [blanked_ahead (Nat.le_refl _), h.1] at hspace
        exact hrest b rfl hspace
  | cons b blanks ih =>
    obtain rfl : b = space := hblanks b List.mem_cons_self
    have hlen : i + (space :: blanks ++ rest).length = i + 1 + (blanks ++ rest).length := by
      simp only [List.cons_append, List.length_cons]
      omega
    rw [skipBlanks, if_pos ⟨by simp, (blanked_ahead (Nat.le_refl _)).trans h.1⟩, blanked_space h.1,
      hlen, ih (fun b hb => hblanks b (List.mem_cons_of_mem _ hb)) h.2, List.length_cons,
      Nat.add_assoc, Nat.add_comm 1]

theorem skipField_eq {word : List UInt8} (hword : ∀ b ∈ word, b ≠ space)
    (hrest : ∀ b ∈ rest.head?, b = space) (h : Holds m (line + i) (word ++ rest)) :
    skipField (blanked m line i) line (i + (word ++ rest).length) i = i + word.length ∧
      blanked m line (i + word.length) = blanked m line i := by
  induction word generalizing i with
  | nil =>
    refine ⟨?_, rfl⟩
    rw [skipField, if_neg]
    · rfl
    · rintro ⟨hlt, hnot⟩
      cases rest with
      | nil => simp at hlt
      | cons b rest =>
        rw [blanked_ahead (Nat.le_refl _), h.1] at hnot
        exact hnot (hrest b rfl)
  | cons b word ih =>
    have hb : m (line + i) ≠ space := h.1 ▸ hword b List.mem_cons_self
    have hlen : i + (b :: word ++ rest).length = i + 1 + (word ++ rest).length := by
      simp only [List.cons_append, List.length_cons]
      omega
    have hnext : i + (b :: word).length = i + 1 + word.length := by
      rw [List.length_cons]
      omega
    obtain ⟨hskip, hsame⟩ := ih (i := i + 1) (fun b hb => hword b (List.mem_cons_of_mem _ hb)) h.2
    rw [blanked_byte hb] at hskip hsame
    rw [skipField, if_pos ⟨by simp, by rwa [blanked_ahead (Nat.le_refl _)]⟩, hlen, hnext]
    exact ⟨hskip, hsame⟩

end

/-! ## What `split` finds -/

/-- The pointers stored from place `argc` on. -/
def store (argv : Nat → Nat) (argc : Nat) : List Nat → Nat → Nat
  | [] => argv
  | p :: ps => store (Function.update argv argc p) (argc + 1) ps

theorem store_below {argv : Nat → Nat} {argc k : Nat} (ps : List Nat) (h : k < argc) :
    store argv argc ps k = argv k := by
  induction ps generalizing argv argc with
  | nil => rfl
  | cons p ps ih => rw [store, ih (by omega), Function.update_of_ne (by omega)]

theorem store_at (argv : Nat → Nat) (argc : Nat) {k : Nat} {ps : List Nat} (h : k < ps.length) :
    store argv argc ps (argc + k) = ps[k] := by
  induction ps generalizing argv argc k with
  | nil => cases h
  | cons p ps ih =>
    cases k with
    | zero => exact (store_below ps (Nat.lt_succ_self argc)).trans (Function.update_self ..)
    | succ k =>
      rw [store, show argc + (k + 1) = argc + 1 + k by omega, ih _ _ (by simpa using h),
        List.getElem_cons_succ]

/-- The loop finds the fields of what is left of the line, as long as there is room. -/
theorem splitFrom_fields {m : Mem} {line i argc : Nat} {rest : List UInt8}
    {fs : List (Nat × List UInt8)} (argv : Nat → Nat) (h : Fields i rest fs)
    (held : Holds m (line + i) rest) (room : argc ≤ argsMax) :
    let s := splitFrom (blanked m line i) line (i + rest.length) argv argc i
    if argc + fs.length ≤ argsMax then
      s = finish (blanked m line (i + rest.length)) line (i + rest.length)
        (store argv argc (fs.map fun f => line + f.1)) (argc + fs.length)
    else s.argc = none := by
  induction h generalizing argc argv with
  | @blank i rest h =>
    have hskip := @skipBlanks_eq m line i [] rest h nofun (by rwa [List.append_nil])
    rw [List.append_nil] at hskip
    simp only [List.length_nil, Nat.add_zero, List.map_nil, store, if_pos room]
    rw [splitFrom]
    split
    · rw [hskip]
      simp
    · rename_i hdone
      have hnil : rest.length = 0 := by omega
      rw [hnil, Nat.add_zero]
  | @field i blanks word rest fs hblanks hword hne hrest _ ih =>
    have hhead : ∀ b ∈ (word ++ rest).head?, b ≠ space := by
      obtain ⟨b, word, rfl⟩ := List.exists_cons_of_ne_nil hne
      intro c hc
      obtain rfl : b = c := Option.some.inj hc
      exact hword b List.mem_cons_self
    have hskip := skipBlanks_eq hblanks hhead held
    obtain ⟨-, held⟩ := Holds.append.mp held
    rw [Nat.add_assoc] at held
    obtain ⟨hfield, hsame⟩ := skipField_eq hword hrest held
    have hpos := List.length_pos_iff.mpr hne
    obtain ⟨-, held⟩ := Holds.append.mp held
    have hlen : i + (blanks ++ (word ++ rest)).length =
        i + blanks.length + (word ++ rest).length := by
      rw [List.length_append]
      omega
    have hlen' : i + blanks.length + (word ++ rest).length =
        i + blanks.length + word.length + rest.length := by
      rw [List.length_append]
      omega
    rw [hlen] at hskip
    have hturn : splitFrom (blanked m line i) line
        (i + (blanks ++ (word ++ rest)).length) argv argc i =
        if argc = argsMax then ⟨none, blanked m line (i + blanks.length), argv⟩
        else splitFrom (blanked m line (i + blanks.length + word.length)) line
          (i + blanks.length + word.length + rest.length)
          (Function.update argv argc (line + (i + blanks.length))) (argc + 1)
          (i + blanks.length + word.length) := by
      rw [hlen, splitFrom, if_pos (by rw [hlen']; omega), hskip]
      simp only
      rw [dif_neg (by rw [hlen']; omega), hfield, hsame, hlen']
    simp only
    rw [hturn, hlen, hlen', List.length_cons]
    by_cases hfull : argc = argsMax
    · rw [if_neg (by omega), if_pos hfull]
    · have := @ih (argc + 1) (Function.update argv argc (line + (i + blanks.length)))
        (by rwa [Nat.add_assoc] at held) (by omega)
      rw [if_neg hfull, show argc + (fs.length + 1) = argc + 1 + fs.length by omega]
      exact this

/-! ## What `read_line` returns -/

/-- The bytes typed and not erased stand in the buffer; there are no more than fit. -/
theorem readLine_line {buf size len : Nat} {m : Mem} {echo input text : List UInt8} {t : Typed}
    (h : readLine buf size m len echo input = some t) (hlen : text.length = len)
    (hsize : len ≤ size) (hprint : ∀ b ∈ text, printable b = true) (held : Holds m buf text) :
    t.len ≤ size ∧ ∃ text : List UInt8, text.length = t.len ∧
      (∀ b ∈ text, printable b = true) ∧ Holds t.mem buf text := by
  induction input generalizing m len echo text with
  | nil => cases h
  | cons byte input ih =>
    rw [readLine] at h
    split at h
    · obtain rfl := Option.some.inj h
      exact ⟨hsize, text, hlen, hprint, held⟩
    · split at h
      · split at h
        · have hdrop : text = text.dropLast ++
              [text.getLast (by rintro rfl; simp at hlen; omega)] :=
            (List.dropLast_concat_getLast _).symm
          rw [hdrop] at held
          have hless : text.dropLast.length = len - 1 := by rw [List.length_dropLast, hlen]
          exact ih h hless (by omega) (fun b hb =>
            hprint b ((List.dropLast_sublist _).subset hb)) (Holds.append.mp held).1
        · exact ih h hlen hsize hprint held
      · split at h
        · rename_i hbyte
          have hmore : (text ++ [byte]).length = len + 1 := by simp [hlen]
          refine ih h hmore (by omega) ?_ ?_
          · intro b hb
            rcases List.mem_append.mp hb with hb | hb
            · exact hprint b hb
            · rw [List.mem_singleton.mp hb]
              exact hbyte.1
          · refine Holds.append.mpr ⟨held.congr ?_, ?_, trivial⟩
            · intro x _ hi
              exact Function.update_of_ne (by omega) ..
            · rw [hlen, Function.update_self]
        · exact ih h hlen hsize hprint held

/-- Every such line is returned: it is enough to type it. -/
theorem readLine_typed (buf : Nat) (m : Mem) (echo : List UInt8) {size len : Nat}
    {text : List UInt8} (hsize : len + text.length ≤ size)
    (hprint : ∀ b ∈ text, printable b = true) :
    ∃ t, readLine buf size m len echo (text ++ [0x0a]) = some t ∧ t.len = len + text.length ∧
      Holds t.mem (buf + len) text ∧ ∀ x, x < buf + len → t.mem x = m x := by
  induction text generalizing m len echo with
  | nil =>
    exact ⟨_, by rw [List.nil_append, readLine, if_pos (.inr rfl)], rfl, trivial, fun _ _ => rfl⟩
  | cons b text ih =>
    have hb := hprint b List.mem_cons_self
    have hkeys : ¬ (b = 0x0d ∨ b = 0x0a) ∧ ¬ (b = 0x7f ∨ b = 0x08) := by
      constructor <;> rintro (rfl | rfl) <;> exact absurd hb (by decide)
    rw [List.length_cons] at hsize
    obtain ⟨t, hread, hlen, held, same⟩ := ih (Function.update m (buf + len) b) (echo ++ [b])
      (show len + 1 + text.length ≤ size by omega) fun c hc => hprint c (List.mem_cons_of_mem _ hc)
    refine ⟨t, ?_, by rw [hlen, List.length_cons]; omega, ⟨?_, held⟩, ?_⟩
    · rw [List.cons_append, readLine, if_neg hkeys.1, if_neg hkeys.2, if_pos ⟨hb, by omega⟩, hread]
    · rw [same _ (by omega), Function.update_self]
    · intro x hx
      rw [same x (by omega), Function.update_of_ne (by omega)]

/-! ## Every line -/

/-- A line as `read_line` leaves it in the buffer. -/
structure Line (m : Mem) (line : Nat) (text : List UInt8) : Prop where
  pos : 1 ≤ text.length
  fits : text.length ≤ lineMax
  printable : ∀ b ∈ text, Shell.printable b = true
  held : Holds m line text

/-- `split` was right: it counted the words, it has a pointer to each, to a C string
inside the buffer, and a NULL after them. -/
def Splits (s : Split) (line : Nat) (text : List UInt8) : Prop :=
  (∀ n, s.argc = some n ↔ n = (words text).length ∧ n ≤ argsMax) ∧
  (s.argc = none ↔ argsMax < (words text).length) ∧
  ∀ n, s.argc = some n → s.argv n = 0 ∧ ∀ i w, (words text)[i]? = some w →
    Cstr s.mem (s.argv i) w ∧ line ≤ s.argv i ∧ s.argv i + w.length < line + lineMax

section
variable {m : Mem} {line : Nat} {text : List UInt8} {argv : Nat → Nat}
  {fs : List (Nat × List UInt8)} {f : Nat × List UInt8}

theorem split_fields (argv : Nat → Nat) (h : Line m line text) (hfs : Fields 0 text fs) :
    if fs.length ≤ argsMax then
      split m line text.length argv = finish (blanked m line text.length) line text.length
        (store argv 0 (fs.map fun f => line + f.1)) fs.length
    else (split m line text.length argv).argc = none := by
  have := splitFrom_fields argv hfs h.held (Nat.zero_le _)
  simpa only [Nat.zero_add, blanked_zero, split] using this

theorem finish_argv (argv : Nat → Nat) {i : Nat} (hfs : i < fs.length) (hi : fs[i]? = some f)
    (m : Mem) (len : Nat) :
    (finish m line len (store argv 0 (fs.map fun f => line + f.1)) fs.length).argv i =
      line + f.1 := by
  have hget := store_at argv 0 (show i < (fs.map fun f => line + f.1).length by simpa using hfs)
  simp only [finish]
  rw [Function.update_of_ne (by omega), ← Nat.zero_add i, hget, List.getElem_map]
  rw [List.getElem?_eq_getElem hfs] at hi
  rw [Option.some.inj hi]

/-- The bytes of a field are as they were typed. -/
theorem finish_field (argv : Nat → Nat) (h : Line m line text)
    (hfs : Fields 0 text fs) (hf : f ∈ fs) :
    f.1 + f.2.length ≤ text.length ∧ 0 ∉ f.2 ∧
      Holds (finish (blanked m line text.length) line text.length argv fs.length).mem
        (line + f.1) f.2 := by
  obtain ⟨pre, post, rfl, hplace, -, hword, -⟩ := hfs.place hf
  have hlen : f.1 + f.2.length ≤ (pre ++ (f.2 ++ post)).length := by
    rw [hplace, List.length_append, List.length_append]
    omega
  refine ⟨hlen, ?_, ?_⟩
  · intro hzero
    have := h.printable 0 (by simp [hzero])
    exact absurd this (by decide)
  · obtain ⟨-, held⟩ := Holds.append.mp h.held
    obtain ⟨held, -⟩ := Holds.append.mp held
    rw [Nat.zero_add] at hplace
    rw [← hplace] at held
    apply held.congr
    intro x lo hi
    have hx := hword _ (held.mem lo hi)
    have hblank : blanked m line (pre ++ (f.2 ++ post)).length x = m x := by
      rw [blanked, if_neg fun hb => hx hb.2.2]
    simp only [finish]
    split
    · rw [Function.update_of_ne (by omega), hblank]
    · exact hblank

/-- A field ends in a NUL if something follows it in the line or in the buffer. -/
theorem finish_end (argv : Nat → Nat) (h : Line m line text) (hfs : Fields 0 text fs) (hf : f ∈ fs)
    (ends : f.1 + f.2.length < text.length ∨ text.length < lineMax) :
    (finish (blanked m line text.length) line text.length argv fs.length).mem
      (line + f.1 + f.2.length) = 0 := by
  obtain ⟨pre, post, htext, hplace, -, -, hpost⟩ := hfs.place hf
  have hpos : 0 < fs.length := List.length_pos_of_mem hf
  have held := h.held
  rw [htext] at held
  obtain ⟨-, held⟩ := Holds.append.mp (Holds.append.mp held).2
  have hlen : text.length = f.1 + f.2.length + post.length := by
    rw [htext, hplace, List.length_append, List.length_append]
    omega
  simp only [finish]
  cases post with
  | nil =>
    have : text.length < lineMax := by simp at hlen; omega
    rw [if_pos ⟨hpos, this⟩, hlen, List.length_nil, Nat.add_zero, ← Nat.add_assoc,
      Function.update_self]
  | cons b post =>
    obtain rfl := hpost b rfl
    rw [List.length_cons] at hlen
    rw [Nat.zero_add] at hplace
    have hblank : blanked m line text.length (line + f.1 + f.2.length) = 0 := by
      rw [blanked, if_pos ⟨by omega, by omega, by rw [hplace]; exact held.1⟩]
    split
    · rw [Function.update_of_ne (by omega), hblank]
    · exact hblank

theorem length_words (hfs : Fields 0 text fs) : (words text).length = fs.length := by
  rw [hfs.words, List.length_map]

/-- A word of the line is the C string at its pointer. -/
theorem finish_cstr (argv : Nat → Nat) (h : Line m line text) (hfs : Fields 0 text fs) {i : Nat}
    (hi : fs[i]? = some f)
    (ends : f.1 + f.2.length < text.length ∨ text.length < lineMax) :
    let s := finish (blanked m line text.length) line text.length
      (store argv 0 (fs.map fun f => line + f.1)) fs.length
    Cstr s.mem (s.argv i) f.2 ∧ line ≤ s.argv i ∧ s.argv i + f.2.length < line + lineMax := by
  have hf : f ∈ fs := List.mem_of_getElem? hi
  obtain ⟨hle, hzero, held⟩ := finish_field (store argv 0 (fs.map fun f => line + f.1)) h hfs hf
  have hfits := h.fits
  simp only [finish_argv argv (List.getElem?_eq_some_iff.mp hi).1 hi]
  exact ⟨⟨hzero, Holds.append.mpr ⟨held, finish_end _ h hfs hf ends, trivial⟩⟩, by omega, by omega⟩

theorem splits_of_ends (h : Line m line text) (hfs : Fields 0 text fs) (few : fs.length ≤ argsMax)
    (ends : ∀ f ∈ fs, f.1 + f.2.length < text.length ∨ text.length < lineMax) :
    Splits (finish (blanked m line text.length) line text.length
      (store argv 0 (fs.map fun f => line + f.1)) fs.length) line text := by
  refine ⟨?_, ?_, ?_⟩
  · intro n
    simp only [finish, Option.some.injEq, length_words hfs]
    omega
  · rw [length_words hfs]
    exact iff_of_false nofun (by omega)
  · intro n hn
    obtain rfl : fs.length = n := Option.some.inj hn
    refine ⟨Function.update_self .., ?_⟩
    intro i w hw
    rw [hfs.words, List.getElem?_map] at hw
    obtain ⟨f, hsome, rfl⟩ := Option.map_eq_some_iff.mp hw
    exact finish_cstr argv h hfs hsome (ends f (List.mem_of_getElem? hsome))

/-- The last word of a line that fills the buffer ends where the buffer does. -/
theorem not_splits_of_full (h : Line m line text) (hfs : Fields 0 text fs)
    (full : lineMax ≤ text.length) (hlast : text.getLast? ≠ some space) :
    ¬ Splits (finish (blanked m line text.length) line text.length
      (store argv 0 (fs.map fun f => line + f.1)) fs.length) line text := by
  rintro ⟨-, -, hargs⟩
  obtain ⟨b, hb⟩ : ∃ b, text.getLast? = some b :=
    ⟨_, List.getLast?_eq_some_getLast (List.ne_nil_of_length_pos h.pos)⟩
  obtain ⟨f, hf, hend⟩ := hfs.last hb fun heq => hlast (heq ▸ hb)
  obtain ⟨i, hi, hget⟩ := List.getElem_of_mem hf
  have hsome : fs[i]? = some f := by rw [List.getElem?_eq_getElem hi, hget]
  have hword : (words text)[i]? = some f.2 := by
    rw [hfs.words, List.getElem?_map, hsome]
    rfl
  have hinside := ((hargs fs.length rfl).2 i f.2 hword).2.2
  rw [finish_argv argv hi hsome] at hinside
  omega

/-- `split` is right about a line exactly when the last word has a NUL to end in: the
line does not fill the buffer, or ends in a space, or has too many words anyway. -/
theorem splits_iff (h : Line m line text) (argv : Nat → Nat) :
    Splits (split m line text.length argv) line text ↔
      text.length < lineMax ∨ text.getLast? = some space ∨ argsMax < (words text).length := by
  obtain ⟨fs, hfs⟩ := exists_fields 0 text
  have hsplit := split_fields argv h hfs
  rw [length_words hfs]
  by_cases few : fs.length ≤ argsMax
  · rw [if_pos few] at hsplit
    rw [hsplit]
    constructor
    · intro splits
      by_contra! wrong
      exact not_splits_of_full h hfs wrong.1 wrong.2.1 splits
    · intro ends
      refine splits_of_ends h hfs few ?_
      intro f hf
      rcases ends with hlt | hlast | many
      · exact .inr hlt
      · have := hfs.lt_of_last hlast hf
        exact .inl (by omega)
      · omega
  · rw [if_neg few] at hsplit
    have many : argsMax < fs.length := by omega
    refine iff_of_true ⟨?_, ?_, ?_⟩ (.inr (.inr many))
    · intro n
      rw [hsplit, length_words hfs]
      exact iff_of_false (fun some => by cases some) (by omega)
    · rw [length_words hfs]
      exact iff_of_true hsplit many
    · intro n hn
      rw [hsplit] at hn
      cases hn

end

/-- 256 letters fill the buffer, and the only word has no NUL in it. -/
theorem full_line_unterminated : ∃ (m : Mem) (t : Typed) (text : List UInt8),
    readLine 4096 lineMax m 0 [] (text ++ [0x0a]) = some t ∧ t.len = text.length ∧
      Line t.mem 4096 text ∧ ¬ Splits (split t.mem 4096 text.length fun _ => 0) 4096 text := by
  set text : List UInt8 := List.replicate lineMax 0x61 with htext
  have hall : ∀ b ∈ text, b = 0x61 := fun b hb => List.eq_of_mem_replicate hb
  have hprint : ∀ b ∈ text, printable b = true := by
    intro b hb
    rw [hall b hb]
    decide
  have hlen : text.length = lineMax := List.length_replicate
  have hne : text ≠ [] := List.ne_nil_of_length_pos (by rw [hlen]; decide)
  have hword : ∀ b ∈ text, b ≠ space := by
    intro b hb
    rw [hall b hb]
    decide
  obtain ⟨t, hread, htyped, held, -⟩ := readLine_typed 4096 (fun _ => 0) []
    (show 0 + text.length ≤ lineMax by rw [Nat.zero_add, hlen]) hprint
  rw [Nat.zero_add] at htyped
  have hline : Line t.mem 4096 text := ⟨by rw [hlen]; decide, by rw [hlen], hprint, held⟩
  have hfs : Fields 0 text [(0, text)] := by
    have := @Fields.field 0 [] text [] [] nofun hword hne nofun (.blank nofun)
    rwa [List.append_nil] at this
  refine ⟨_, t, text, hread, htyped, hline, ?_⟩
  have hsplit := split_fields (fun _ => 0) hline hfs
  rw [if_pos (by decide)] at hsplit
  rw [hsplit]
  refine not_splits_of_full hline hfs (by rw [hlen]) ?_
  intro hlast
  exact hword space (List.mem_of_getLast? hlast) rfl

/-- Two words with spaces around them. -/
theorem spaced_line_splits : ∃ m : Mem, Line m 4096 [0x20, 0x6c, 0x73, 0x20, 0x20, 0x61, 0x20] ∧
    words [0x20, 0x6c, 0x73, 0x20, 0x20, 0x61, 0x20] = [[0x6c, 0x73], [0x61]] ∧
      Splits (split m 4096 7 fun _ => 0) 4096 [0x20, 0x6c, 0x73, 0x20, 0x20, 0x61, 0x20] := by
  have hline : Line (fun a => [0x20, 0x6c, 0x73, 0x20, 0x20, 0x61, 0x20].getD (a - 4096) 0) 4096
      [0x20, 0x6c, 0x73, 0x20, 0x20, 0x61, 0x20] :=
    ⟨by decide, by decide, List.all_eq_true.mp rfl, rfl, rfl, rfl, rfl, rfl, rfl, rfl, trivial⟩
  exact ⟨_, hline, by decide, (splits_iff hline _).mpr (.inl (by decide))⟩

end AlexOS.Shell
