import AlexOS.User.Shell

/-!
# The command that is run

The path of an external command is the start of the line, its name the first
argument. They are one string as long as the line does not begin with a space.
-/

namespace AlexOS.Shell

open Bytes

theorem cstrFrom_cstr {m : Mem} {p turns : Nat} {str : List UInt8} (h : Cstr m p str)
    (enough : str.length < turns) : cstrFrom m turns p = some str := by
  induction str generalizing p turns with
  | nil =>
    obtain ⟨turns, rfl⟩ : ∃ n, turns = n + 1 := ⟨turns - 1, by simp at enough; omega⟩
    rw [cstrFrom, if_pos h.2.1]
  | cons b str ih =>
    obtain ⟨turns, rfl⟩ : ∃ n, turns = n + 1 := ⟨turns - 1, by simp at enough; omega⟩
    have hb : m p ≠ 0 := fun hzero => h.1 (hzero ▸ h.2.1 ▸ List.mem_cons_self)
    rw [cstrFrom, if_neg hb, ih ⟨fun hin => h.1 (List.mem_cons_of_mem _ hin), h.2.2⟩
      (by simpa using enough), h.2.1]
    rfl

theorem cstrAt_cstr {m : Mem} {p : Nat} {str : List UInt8} (h : Cstr m p str)
    (room : p + str.length < 2 ^ 64) : cstrAt m p = some str :=
  cstrFrom_cstr h (by omega)

section
variable {m : Mem} {line : Nat} {text : List UInt8} {argv : Nat → Nat}
  {fs : List (Nat × List UInt8)} {f : Nat × List UInt8}

/-- A field is the C string at its place exactly when a NUL follows it. -/
theorem finish_cstr_iff (argv : Nat → Nat) (h : Line m line text)
    (hfs : Fields 0 text fs) (hf : f ∈ fs) :
    Cstr (finish (blanked m line text.length) line text.length argv fs.length).mem (line + f.1)
        f.2 ↔
      (finish (blanked m line text.length) line text.length argv fs.length).mem
        (line + f.1 + f.2.length) = 0 := by
  obtain ⟨-, hzero, held⟩ := finish_field argv h hfs hf
  rw [Cstr, Holds.append]
  exact ⟨fun hc => hc.2.2.1, fun hend => ⟨hzero, held, hend, trivial⟩⟩

/-- A line that begins with a space begins with a NUL after `split`. -/
theorem finish_leading (argv : Nat → Nat) (argc : Nat) (h : Line m line text)
    (hlead : text.head? = some space) :
    Cstr (finish (blanked m line text.length) line text.length argv argc).mem line [] := by
  have hpos := h.pos
  have hfirst : m line = space := by
    obtain ⟨b, rest, rfl⟩ := List.exists_cons_of_ne_nil (List.ne_nil_of_length_pos hpos)
    exact h.held.1.trans (Option.some.inj hlead)
  have hblank : blanked m line text.length line = 0 := if_pos ⟨Nat.le_refl _, by omega, hfirst⟩
  refine ⟨nofun, ?_, trivial⟩
  simp only [finish]
  split
  · rw [Function.update_of_ne (by omega), hblank]
  · exact hblank

/-- A word that ends with the line is followed by the byte after it. -/
theorem finish_after (hle : lineMax ≤ text.length) :
    (finish (blanked m line text.length) line text.length argv fs.length).mem
      (line + text.length) = m (line + text.length) := by
  simp only [finish]
  rw [if_neg (by omega), blanked_ahead (Nat.le_refl _)]

/-- What the dispatch sees of a line with a first word that ends in a NUL. -/
theorem command_eq (h : Line m line text) (hfs : Fields 0 text (f :: fs))
    (few : (f :: fs).length ≤ argsMax) (room : line + lineMax ≤ 2 ^ 64)
    (ends : f.1 + f.2.length < text.length ∨ text.length < lineMax) :
    let s := finish (blanked m line text.length) line text.length
      (store (fun _ => 0) 0 ((f :: fs).map fun f => line + f.1)) (f :: fs).length
    command m line text.length = (dispatch f.2 line s.argv, s.mem) := by
  have hpos := h.pos
  have hsplit := split_fields (fun _ => 0) h hfs
  rw [if_pos few] at hsplit
  obtain ⟨hcstr, lo, hi⟩ := finish_cstr (fun _ => 0) h hfs (i := 0) rfl ends
  have hname := cstrAt_cstr hcstr (by omega)
  rw [command, if_neg (by omega)]
  simp only
  rw [hsplit]
  simp only [finish, List.length_cons] at hname ⊢
  rw [hname]

/-- The split behind an external command. -/
theorem command_external {path : Nat} {m' : Mem} (h : Line m line text)
    (hcmd : command m line text.length = (.external path argv, m')) :
    path = line ∧ ∃ f fs, Fields 0 text (f :: fs) ∧ argv 0 = line + f.1 ∧
      m' = (finish (blanked m line text.length) line text.length argv (f :: fs).length).mem := by
  obtain ⟨fs, hfs⟩ := exists_fields 0 text
  have hsplit := split_fields (fun _ => 0) h hfs
  have hpos := h.pos
  rw [command, if_neg (by omega)] at hcmd
  simp only at hcmd
  by_cases few : fs.length ≤ argsMax
  swap
  · rw [if_neg few] at hsplit
    rw [hsplit] at hcmd
    cases hcmd
  rw [if_pos few] at hsplit
  rw [hsplit] at hcmd
  rcases fs with _ | ⟨f, fs⟩
  · cases hcmd
  simp only [List.length_cons, finish] at hcmd
  split at hcmd
  · cases hcmd
  rename_i name hname
  obtain ⟨hact, rfl⟩ := Prod.mk.inj hcmd
  rw [dispatch] at hact
  split_ifs at hact
  obtain ⟨rfl, rfl⟩ := Action.external.inj hact
  have hfirst := @finish_argv line (f :: fs) f (fun _ => 0) 0 (Nat.succ_pos _) rfl m text.length
  exact ⟨rfl, f, fs, hfs, hfirst, rfl⟩

/-- The path is the string of the first argument exactly when the line does not begin
with a space; it is the first word exactly when that word also ends in a NUL, its own
or one that happens to follow the buffer. -/
theorem external_path_iff {path : Nat} {m' : Mem} (h : Line m line text)
    (hcmd : command m line text.length = (.external path argv, m')) :
    ((∀ str, Cstr m' path str ↔ Cstr m' (argv 0) str) ↔ text.head? ≠ some space) ∧
    ((∃ w, (words text).head? = some w ∧ Cstr m' path w) ↔
      text.head? ≠ some space ∧
        (text.length < lineMax ∨ space ∈ text ∨ m (line + lineMax) = 0)) := by
  obtain ⟨rfl, f, fs, hfs, hargv, rfl⟩ := command_external h hcmd
  have hf : f ∈ f :: fs := List.mem_cons_self
  obtain ⟨hle, hzero, held⟩ := finish_field argv h hfs hf
  obtain ⟨pre, post, htext, hplace, hne, hword, hpost⟩ := hfs.place hf
  have hfirst := hfs.first (f := f) rfl
  have hcstr := finish_cstr_iff argv h hfs hf
  have hhead : (words text).head? = some f.2 := by rw [hfs.words]; rfl
  have hfits := h.fits
  have hlen : text.length = f.1 + f.2.length + post.length := by
    rw [htext, hplace, List.length_append, List.length_append]
    omega
  by_cases hlead : text.head? = some space
  · have hempty := finish_leading argv (f :: fs).length h hlead
    refine ⟨iff_of_false ?_ (fun hnot => hnot hlead), iff_of_false ?_ fun hnot => hnot.1 hlead⟩
    · intro same
      have := (same []).mp hempty
      obtain ⟨b, bs, hbs⟩ := List.exists_cons_of_ne_nil hne
      rw [hbs] at held hzero
      rw [hargv] at this
      exact hzero (held.1.symm.trans this.2.1 ▸ List.mem_cons_self)
    · rintro ⟨w, hw, hpath⟩
      rw [hhead] at hw
      exact hne ((Option.some.inj hw).trans (hpath.unique hempty))
  · have hat := hfirst.mpr hlead
    rw [hat, Nat.add_zero] at hargv hcstr
    refine ⟨iff_of_true (fun str => by rw [hargv]) hlead, ?_⟩
    have hwords : (∃ w, (words text).head? = some w ∧
        Cstr (finish (blanked m path text.length) path text.length argv (f :: fs).length).mem
          path w) ↔
        (finish (blanked m path text.length) path text.length argv (f :: fs).length).mem
          (path + f.2.length) = 0 := by
      simp only [hhead, Option.some.injEq, exists_eq_left', hcstr]
    rw [hwords]
    have hmem : space ∈ text ↔ f.2.length < text.length := by
      have hpre : pre = [] := List.eq_nil_of_length_eq_zero (by omega)
      rw [htext, hpre, List.nil_append, List.mem_append, List.length_append]
      cases post with
      | nil => simpa using fun hin => hword space hin rfl
      | cons b post => simp [hpost b rfl]
    rw [hmem]
    have hends := finish_end argv h hfs hf
    rw [hat, Nat.add_zero, Nat.zero_add] at hends
    constructor
    · intro hend
      refine ⟨hlead, ?_⟩
      by_contra! wrong
      obtain ⟨hfull, hall, hafter⟩ := wrong
      have hfield : f.2.length = text.length := by omega
      rw [hfield, finish_after hfull] at hend
      exact hafter (by rwa [show lineMax = text.length by omega])
    · rintro ⟨-, hlt | hin | hafter⟩
      · exact hends (.inr hlt)
      · exact hends (.inl hin)
      · rcases Nat.lt_or_ge text.length lineMax with hlt | hge
        · exact hends (.inr hlt)
        rcases Nat.lt_or_ge f.2.length text.length with hlt | hall
        · exact hends (.inl hlt)
        rw [show f.2.length = text.length by omega, finish_after hge,
          show text.length = lineMax by omega]
        exact hafter

end

/-- Memory with a text at an address and NULs elsewhere. -/
def typed (line : Nat) (text : List UInt8) : Mem := fun a =>
  if line ≤ a then text.getD (a - line) 0 else 0

/-- With a space before `ls` the path is empty. -/
theorem leading_space_path : ∃ argv m', Line (typed 4096 [0x20, 0x6c, 0x73]) 4096
      [0x20, 0x6c, 0x73] ∧
    command (typed 4096 [0x20, 0x6c, 0x73]) 4096 3 = (.external 4096 argv, m') ∧
      Cstr m' 4096 [] ∧ Cstr m' (argv 0) [0x6c, 0x73] := by
  have hline : Line (typed 4096 [0x20, 0x6c, 0x73]) 4096 [0x20, 0x6c, 0x73] :=
    ⟨by decide, by decide, List.all_eq_true.mp rfl, rfl, rfl, rfl, trivial⟩
  have hfs : Fields 0 [0x20, 0x6c, 0x73] [(1, [0x6c, 0x73])] :=
    @Fields.field 0 [0x20] [0x6c, 0x73] [] [] (by simp [space]) (by simp [space]) nofun nofun
      (.blank nofun)
  refine ⟨_, _, hline, command_eq hline hfs (by decide) (by decide) (.inr (by decide)), ?_, ?_⟩
  · exact finish_leading _ _ hline rfl
  · exact (finish_cstr _ hline hfs (i := 0) rfl (.inr (by decide))).1

/-- `ls` with a space after it. -/
theorem trailing_space_path : ∃ argv m', Line (typed 4096 [0x6c, 0x73, 0x20]) 4096
      [0x6c, 0x73, 0x20] ∧
    command (typed 4096 [0x6c, 0x73, 0x20]) 4096 3 = (.external 4096 argv, m') ∧
      (∀ str, Cstr m' 4096 str ↔ Cstr m' (argv 0) str) ∧ Cstr m' 4096 [0x6c, 0x73] := by
  have hline : Line (typed 4096 [0x6c, 0x73, 0x20]) 4096 [0x6c, 0x73, 0x20] :=
    ⟨by decide, by decide, List.all_eq_true.mp rfl, rfl, rfl, rfl, trivial⟩
  have hfs : Fields 0 [0x6c, 0x73, 0x20] [(0, [0x6c, 0x73])] :=
    @Fields.field 0 [] [0x6c, 0x73] [0x20] [] nofun (by simp [space]) nofun (by simp [space])
      (.blank (by simp [space]))
  have hcmd := command_eq hline hfs (by decide) (by decide) (.inr (by decide))
  have hiff := external_path_iff hline hcmd
  obtain ⟨w, hw, hpath⟩ := hiff.2.mpr ⟨by decide, .inl (by decide)⟩
  obtain rfl : [0x6c, 0x73] = w := Option.some.inj
    ((show (words _).head? = _ by decide).symm.trans hw)
  exact ⟨_, _, hline, hcmd, hiff.1.mpr (by decide), hpath⟩

end AlexOS.Shell
