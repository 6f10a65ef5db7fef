import AlexOS.Drivers.Uart
import AlexOS.Syscall.Argv

/-!
# Calls with bad pointers

`sys_write`, `sys_read`, `sys_exec` and `sys_waitpid` with the state they can
change: memory, the receive ring of the UART, its output, the caller and the other
tasks. A call with a bad pointer is to return `EFAULT` and change nothing. Which
calls do, and which have acted before they look at the pointer, is settled for
every state.
-/

namespace AlexOS

open Bytes PageTable AddressSpace

/-! ## The receive ring -/

namespace RxRing

/-- The loop of `sys_read`: at most `n` bytes, as long as there are any. -/
def drain : Nat → RxRing → List UInt8 × RxRing
  | 0, r => ([], r)
  | n + 1, r =>
    match r.pop with
    | none => ([], r)
    | some (byte, r) =>
      let (bytes, r) := drain n r
      (byte :: bytes, r)

theorem drain_used (n : Nat) (r : RxRing) :
    (r.drain n).1.length = min n r.used ∧ (r.drain n).2.used = r.used - min n r.used := by
  induction n generalizing r with
  | zero => simp [drain]
  | succ n ih =>
    rw [drain]
    rcases hpop : r.pop with _ | ⟨byte, r'⟩
    · have := pop_none.mp hpop
      simp [this]
    · have := pop_some hpop
      obtain ⟨hlen, hused⟩ := ih r'
      simp only [List.length_cons, hlen, hused]
      omega

end RxRing

/-! ## The calls -/

namespace UserPointers

variable {σ : Type}

structure State (σ : Type) where
  phys : Phys σ
  ring : RxRing
  output : List UInt8
  task : Process
  others : List Process

inductive Call where
  | write (fd ptr len : Nat)
  | read (fd ptr len : Nat)
  | exec (path argv frame : Nat)
  | waitpid (want : Int) (ptr : Nat)

/-- A call that has to wait takes its turn again from a later state. -/
inductive Outcome (σ : Type) where
  | waits
  | returns (ret : Int) (k : State σ)

/-- `write_bytes` sends a CR before each LF. -/
def crlf (bytes : List UInt8) : List UInt8 :=
  bytes.flatMap fun b => if b = 0x0a then [0x0d, b] else [b]

def write (k : State σ) (fd ptr len : Nat) : Outcome σ :=
  if fd ≠ Nr.stdout ∧ fd ≠ Nr.stderr then .returns Nr.ebadf k
  else if maxIo < len ∨ userMaxAddr < ptr + len then .returns Nr.efault k
  else
    match k.task.space.bind fun space => space.copyFromUser k.phys.mem ptr len with
    | none => .returns Nr.efault k
    | some buf => .returns len { k with output := k.output ++ crlf buf }

def read (k : State σ) (fd ptr len : Nat) : Outcome σ :=
  if fd ≠ Nr.stdin then .returns Nr.ebadf k
  else if len = 0 then .returns 0 k
  else if maxIo < len ∨ userMaxAddr < ptr + len then .returns Nr.efault k
  else if k.ring.used = 0 then .waits
  else
    let (buf, ring) := k.ring.drain len
    match k.task.space with
    | none => .returns Nr.efault { k with ring := ring }
    | some space =>
      match space.copyToUser k.phys.mem ptr buf with
      | (some (), mem) =>
        .returns buf.length { k with ring := ring, phys := { k.phys with mem := mem } }
      | (none, mem) =>
        .returns Nr.efault { k with ring := ring, phys := { k.phys with mem := mem } }

/-- The child `pid` as `waitpid` finds it: exited, or not. -/
def zombie (k : State σ) (pid : Nat) : Option Process :=
  k.others.find? fun c => c.pid = pid ∧ c.point = .zombie

/-- The first child the scan stops at. -/
def scan (k : State σ) (want : Int) : Option Nat :=
  k.task.children.find? fun c => isMatch want c && (zombie k c).isSome

variable (A : FrameAllocator σ)

/-- The child is taken off the list, its status stored, and then the child dropped. -/
def waitpid (k : State σ) (want : Int) (ptr : Nat) : Option (Outcome σ) :=
  match scan k want with
  | some c =>
    match zombie k c with
    | none => none
    | some child => do
      let mem := storeStatus k.phys.mem k.task.space ptr child.exitCode
      let phys ← child.drop A { k.phys with mem := mem }
      some (.returns c { k with
        phys := phys
        task := { k.task with children := k.task.children.erase c }
        others := k.others.eraseP fun o => o.pid = c ∧ o.point = .zombie })
  | none =>
    if anyChildren want k.task.children then some .waits else some (.returns Nr.echild k)

def run (cfg : Config) (k : State σ) : Call → Option (Outcome σ)
  | .write fd ptr len => some (write k fd ptr len)
  | .read fd ptr len => some (read k fd ptr len)
  | .exec path argv frame =>
    (sysExec A k.phys cfg k.task path argv).map fun
      | (.error e, s) => .returns e { k with phys := s }
      | (.ok image, s) => .returns 0 { k with phys := s, task := k.task.install image frame }
  | .waitpid want ptr => waitpid A k want ptr

/-! ## The step of the machine

What `run` returns is a step of `Machine`, which leaves out the console. -/

/-- The call that the registers of `f` ask for. -/
def Call.InFrame (f : TrapFrame) : Call → Prop
  | .write fd ptr len => f.syscallId = Nr.write ∧ f.arg 0 = fd ∧ f.arg 1 = ptr ∧ f.arg 2 = len
  | .read fd ptr len => f.syscallId = Nr.read ∧ f.arg 0 = fd ∧ f.arg 1 = ptr ∧ f.arg 2 = len
  | .exec path argv _ => f.syscallId = Nr.exec ∧ f.arg 0 = path ∧ f.arg 1 = argv
  | .waitpid want ptr => f.syscallId = Nr.waitpid ∧ toIsize (f.arg 0) = want ∧ f.arg 1 = ptr

structure Shows (k : State σ) (m : Machine σ) : Prop where
  phys : m.phys = k.phys
  procs : m.procs = k.task ::ₘ (k.others : Multiset Process)

section
variable {A : FrameAllocator σ} {cfg : Config} {k k' : State σ} {ret : Int}

theorem write_returns {fd ptr len : Nat} (h : write k fd ptr len = .returns ret k') :
    sysWrite k.phys.mem k.task fd ptr len = ret ∧ ∃ output, k' = { k with output := output } := by
  unfold write at h
  unfold sysWrite
  by_cases hfd : fd ≠ Nr.stdout ∧ fd ≠ Nr.stderr
  · rw [if_pos hfd] at h ⊢
    obtain ⟨rfl, rfl⟩ := Outcome.returns.inj h
    exact ⟨rfl, k.output, rfl⟩
  by_cases hrange : maxIo < len ∨ userMaxAddr < ptr + len
  · rw [if_neg hfd, if_pos hrange] at h ⊢
    obtain ⟨rfl, rfl⟩ := Outcome.returns.inj h
    exact ⟨rfl, k.output, rfl⟩
  rw [if_neg hfd, if_neg hrange] at h ⊢
  rcases hcopy : k.task.space.bind fun space => space.copyFromUser k.phys.mem ptr len with _ | buf
  all_goals
    simp only [hcopy] at h
    obtain ⟨rfl, rfl⟩ := Outcome.returns.inj h
    exact ⟨rfl, _, rfl⟩

theorem read_returns {fd ptr len : Nat} (h : read k fd ptr len = .returns ret k') :
    ∃ input mem ring, sysRead k.phys.mem k.task fd ptr len input = (ret, mem) ∧
      k' = { k with ring := ring, phys := { k.phys with mem := mem } } := by
  refine ⟨(k.ring.drain len).1, ?_⟩
  have taken : (k.ring.drain len).1.take len = (k.ring.drain len).1 :=
    List.take_of_length_le ((k.ring.drain_used len).1 ▸ Nat.min_le_left _ _)
  unfold read at h
  unfold sysRead
  rw [taken]
  by_cases hfd : fd ≠ Nr.stdin
  · rw [if_pos hfd] at h ⊢
    obtain ⟨rfl, rfl⟩ := Outcome.returns.inj h
    exact ⟨_, k.ring, rfl, rfl⟩
  by_cases hlen : len = 0
  · rw [if_neg hfd, if_pos hlen] at h ⊢
    obtain ⟨rfl, rfl⟩ := Outcome.returns.inj h
    exact ⟨_, k.ring, rfl, rfl⟩
  by_cases hrange : maxIo < len ∨ userMaxAddr < ptr + len
  · rw [if_neg hfd, if_neg hlen, if_pos hrange] at h ⊢
    obtain ⟨rfl, rfl⟩ := Outcome.returns.inj h
    exact ⟨_, k.ring, rfl, rfl⟩
  rw [if_neg hfd, if_neg hlen, if_neg hrange] at h ⊢
  split at h
  · cases h
  rcases hspace : k.task.space with _ | space
  · simp only [hspace] at h
    obtain ⟨rfl, rfl⟩ := Outcome.returns.inj h
    exact ⟨_, _, rfl, rfl⟩
  rcases hcopy : space.copyToUser k.phys.mem ptr (k.ring.drain len).1 with ⟨_ | _, mem⟩
  all_goals
    simp only [hspace, hcopy] at h ⊢
    obtain ⟨rfl, rfl⟩ := Outcome.returns.inj h
    exact ⟨mem, _, rfl, rfl⟩

theorem find_cons_erase {l : List Process} {p : Process → Bool} {c : Process}
    (h : l.find? p = some c) : (l : Multiset Process) = c ::ₘ (l.eraseP p : Multiset Process) := by
  induction l with
  | nil => cases h
  | cons d l ih =>
    by_cases hd : p d = true
    · rw [List.find?_cons_of_pos hd] at h
      obtain rfl := Option.some.inj h
      rw [List.eraseP_cons_of_pos hd]
      rfl
    · rw [List.find?_cons_of_neg hd] at h
      rw [List.eraseP_cons_of_neg hd, ← Multiset.cons_coe, ih h, ← Multiset.cons_coe,
        Multiset.cons_swap]

/-- Whatever a call returns, the machine returns it as well. -/
theorem run_step {m : Machine σ} {call : Call} {b : Nat} {f : TrapFrame} (shows : Shows k m)
    (point : k.task.point = .dispatch b) (box : m.boxes b = some f) (decoded : call.InFrame f)
    (fresh : ∀ path argv c, call = .exec path argv c → m.boxes c = none)
    (h : run A cfg k call = some (.returns ret k')) :
    ∃ op m', Machine.Step A cfg m op m' ∧
      Shows { k' with task := { k'.task with point := .setReturn b ret } } m' := by
  obtain ⟨hphys, hprocs⟩ := shows
  cases call with
  | write fd ptr len =>
    obtain ⟨hid, rfl, rfl, rfl⟩ := decoded
    obtain ⟨rfl, output, rfl⟩ := write_returns (Option.some.inj h)
    have answers := Machine.Answers.write (m := m) (p := k.task) hid
    rw [hphys] at answers
    exact ⟨_, _, .answer ⟨hprocs, point, box, rfl⟩ answers, hphys, rfl⟩
  | read fd ptr len =>
    obtain ⟨hid, rfl, rfl, rfl⟩ := decoded
    obtain ⟨input, mem, ring, heq, rfl⟩ := read_returns (Option.some.inj h)
    rw [← hphys] at heq
    exact ⟨_, _, .read ⟨hprocs, point, box, hid⟩ heq, by rw [hphys], rfl⟩
  | exec path argv c =>
    obtain ⟨hid, rfl, rfl⟩ := decoded
    rw [run] at h
    obtain ⟨⟨res, s⟩, heq, h⟩ := Option.map_eq_some_iff.mp h
    rw [← hphys] at heq
    rcases res with e | i
    all_goals obtain ⟨rfl, rfl⟩ := Outcome.returns.inj h
    · exact ⟨_, _, .noExec ⟨hprocs, point, box, hid⟩ heq, rfl, rfl⟩
    · exact ⟨_, _, .exec ⟨hprocs, point, box, hid⟩ heq (fresh _ _ c rfl), rfl, rfl⟩
  | waitpid want ptr =>
    obtain ⟨hid, rfl, rfl⟩ := decoded
    rw [run, waitpid] at h
    split at h
    · rename_i c hscan
      split at h
      · cases h
      rename_i child hchild
      obtain ⟨s, hdrop, h⟩ := Option.bind_eq_some_iff.mp h
      obtain ⟨rfl, rfl⟩ := Outcome.returns.inj (Option.some.inj h)
      have found := List.find?_some hscan
      rw [zombie] at hchild
      obtain ⟨rfl, hpoint⟩ : child.pid = c ∧ child.point = .zombie := by
        simpa using List.find?_some hchild
      rw [find_cons_erase hchild] at hprocs
      rw [← hphys] at hdrop
      exact ⟨_, _, .waitpid ⟨hprocs, point, box, hid⟩ (List.mem_of_find?_eq_some hscan) hpoint
        (Bool.and_eq_true_iff.mp found).1 hdrop, rfl, rfl⟩
    · split at h
      · cases h
      rename_i hany
      obtain ⟨rfl, rfl⟩ := Outcome.returns.inj (Option.some.inj h)
      have none := (anyChildren_eq _ _).mp (Bool.eq_false_iff.mpr hany)
      exact ⟨_, _, .answer ⟨hprocs, point, box, rfl⟩ (.noChild hid none), hphys, rfl⟩

end

/-! ## What a call needs -/

/-- What the caller's addresses show. -/
def State.view (k : State σ) : UserView :=
  match k.task.space with
  | none => fun _ => none
  | some space => space.view k.phys.mem

/-- The user can read, or write, the address itself. -/
def readable : Nat := PteFlags.read ||| PteFlags.user

def writable : Nat := PteFlags.write ||| PteFlags.user

/-- A string that `read_cstr` takes. -/
def Named (w : UserView) (va : Nat) : Prop := ∃ name, w.Cstr va name ∧ Short name

/-- The bytes of a string up to its NUL, or as many as `read_cstr` looks at. -/
def CstrNeeds (w : UserView) (va a : Nat) : Prop :=
  ∃ k < maxStr, a = va + k ∧ ∀ j < k, ∃ x, w (va + j) = some x ∧ x.2 ≠ 0

/-- Up to `n` slots of the array, each with its string, until one is NULL. -/
def ArgsNeed (w : UserView) : Nat → Nat → Nat → Prop
  | 0, _, _ => False
  | n + 1, argv, a => (argv ≤ a ∧ a < argv + 8) ∨
      ∃ p, p < 2 ^ 64 ∧ w.Reads argv (leBytes p 8) ∧ p ≠ 0 ∧
        (CstrNeeds w p a ∨ Named w p ∧ ArgsNeed w n (argv + 8) a)

/-- The slots can be read, and the strings are taken. -/
def ArgsGood (w : UserView) : Nat → Nat → Prop
  | 0, _ => True
  | n + 1, argv => ∃ p, p < 2 ^ 64 ∧ w.Reads argv (leBytes p 8) ∧
      (p = 0 ∨ Named w p ∧ ArgsGood w n (argv + 8))

/-- Some byte that the call must read or write is not accessible to the caller. A read
has at least one byte to store once it is not waiting. -/
def Inaccessible (k : State σ) : Call → Prop
  | .write fd ptr len =>
    (fd = Nr.stdout ∨ fd = Nr.stderr) ∧ ¬ k.view.Grants readable ptr len
  | .read fd ptr len =>
    fd = Nr.stdin ∧ len ≠ 0 ∧ ¬ k.view.Grants writable ptr (max 1 (min len k.ring.used))
  | .exec path argv _ =>
    ∃ a, (CstrNeeds k.view path a ∨ Named k.view path ∧ argv ≠ 0 ∧ ArgsNeed k.view maxArgs argv a) ∧
      ¬ k.view.Grants readable a 1
  | .waitpid want ptr =>
    (∃ c ∈ k.task.children, isMatch want c = true ∧ (zombie k c).isSome) ∧ ptr ≠ 0 ∧
      ¬ k.view.Grants writable ptr 4

/-- The call returns `EFAULT` and everything is as it was. -/
def FailsCleanly (cfg : Config) (k : State σ) (call : Call) : Prop :=
  run A cfg k call = some (.returns Nr.efault k)

/-- Bad pointers that are found out before anything is done: for `write` and `exec`
those that are not mapped, for `read` those that a look at the range tells. -/
def Caught (k : State σ) : Call → Prop
  | .write _ ptr len => maxIo < len ∨ ∃ a, ptr ≤ a ∧ a < ptr + len ∧ k.view a = none
  | .read _ ptr len => maxIo < len ∨ userMaxAddr < ptr + len
  | .exec path argv _ => ¬ Named k.view path ∨ argv ≠ 0 ∧ ¬ ArgsGood k.view maxArgs argv
  | .waitpid _ _ => False

/-! ## Reading -/

section
variable {m : Mem} {sp : AddressSpace}

theorem readCstrFrom_some {n va : Nat} {done got : List UInt8}
    (h : sp.readCstrFrom m n va done = some got) :
    ∃ str, (sp.view m).Cstr va str ∧ got = done ++ str ∧ str.length < n ∧
      fromUtf8 got = some got := by
  induction n generalizing va done with
  | zero => cases h
  | succ n ih =>
    rw [readCstrFrom] at h
    obtain ⟨byte, hbyte, h⟩ := Option.bind_eq_some_iff.mp h
    obtain ⟨hlen, reads⟩ := copyFromUser_iff.mp hbyte
    obtain ⟨b, rfl⟩ := List.length_eq_one_iff.mp hlen
    split at h
    · rename_i hzero
      obtain rfl := fromUtf8_some h
      exact ⟨[], ⟨by simp, hzero ▸ reads⟩, by simp, by simp, h⟩
    · rename_i hb
      obtain ⟨str, cstr, rfl, hlt, hutf⟩ := ih h
      refine ⟨b :: str, ⟨?_, ?_⟩, by simp, by simpa using hlt, by simpa using hutf⟩
      · rw [List.mem_cons, not_or]
        exact ⟨fun hz => hb (by rw [hz]), cstr.1⟩
      · exact UserView.Reads.cons.mpr ⟨(UserView.Reads.cons.mp reads).1, cstr.2⟩

theorem readCstr_named {va : Nat} :
    (∃ name, sp.readCstr m va maxStr = some name) ↔ Named (sp.view m) va := by
  constructor
  · rintro ⟨name, h⟩
    obtain ⟨str, cstr, hname, hlt, hutf⟩ := readCstrFrom_some h
    rw [List.nil_append] at hname
    subst hname
    exact ⟨name, cstr, hlt, hutf⟩
  · rintro ⟨name, cstr, short⟩
    exact ⟨name, (readCstr_iff cstr).mpr ⟨rfl, short⟩⟩

theorem leBytes_leValue (bs : List UInt8) : leBytes (Loader.leValue bs) bs.length = bs := by
  induction bs with
  | nil => rfl
  | cons b bs ih =>
    have hb := b.toNat_lt
    rw [List.length_cons, Loader.leValue, leBytes]
    have hlow : UInt8.ofNat (b.toNat + 256 * Loader.leValue bs) = b := by
      apply UInt8.toNat_inj.mp
      rw [UInt8.toNat_ofNat']
      omega
    have hhigh : (b.toNat + 256 * Loader.leValue bs) / 256 = Loader.leValue bs := by omega
    rw [hlow, hhigh, ih]

theorem leValue_lt (bs : List UInt8) : Loader.leValue bs < 256 ^ bs.length := by
  induction bs with
  | nil => decide
  | cons b bs ih =>
    have hb := b.toNat_lt
    rw [List.length_cons, Loader.leValue, Nat.pow_succ]
    omega

theorem readArgsFrom_good {n argv : Nat} {done : List (List UInt8)} :
    (∃ got, readArgsFrom sp m n argv done = some got) ↔ ArgsGood (sp.view m) n argv := by
  induction n generalizing argv done with
  | zero => exact ⟨fun _ => trivial, fun _ => ⟨done, rfl⟩⟩
  | succ n ih =>
    rw [ArgsGood]
    constructor
    · rintro ⟨got, h⟩
      rw [readArgsFrom] at h
      obtain ⟨slot, hslot, h⟩ := Option.bind_eq_some_iff.mp h
      obtain ⟨hlen, reads⟩ := copyFromUser_iff.mp hslot
      have hlt := leValue_lt slot
      have hword := leBytes_leValue slot
      rw [hlen] at hlt hword
      refine ⟨Loader.leValue slot, hlt, by rwa [hword], ?_⟩
      split at h
      · exact .inl (by assumption)
      · obtain ⟨arg, harg, h⟩ := Option.bind_eq_some_iff.mp h
        exact .inr ⟨readCstr_named.mp ⟨arg, harg⟩, ih.mp ⟨got, h⟩⟩
    · rintro ⟨p, hlt, reads, hp⟩
      have hslot : sp.copyFromUser m argv 8 = some (leBytes p 8) :=
        copyFromUser_iff.mpr ⟨length_leBytes p 8, reads⟩
      rw [readArgsFrom, hslot, Option.bind_eq_bind, Option.bind_some, UserView.leValue_word hlt]
      rcases hp with rfl | ⟨named, good⟩
      · exact ⟨done, rfl⟩
      by_cases hzero : p = 0
      · exact ⟨done, if_pos hzero⟩
      · obtain ⟨arg, harg⟩ := readCstr_named.mpr named
        rw [if_neg hzero, harg, Option.bind_some]
        exact ih.mpr good

theorem readArgs_good {argv : Nat} :
    (∃ got, readArgs sp m argv = some got) ↔ (argv ≠ 0 → ArgsGood (sp.view m) maxArgs argv) := by
  rw [readArgs]
  by_cases hzero : argv = 0
  · simp [hzero]
  · rw [if_neg hzero, readArgsFrom_good]
    simp [hzero]

end

/-! ## The calls, one by one -/

variable {A} {k : State σ} {cfg : Config}

/-- Every address of the range shows something, or one does not. -/
theorem mapped_iff {w : UserView} {ptr len : Nat} :
    (∃ bs : List UInt8, bs.length = len ∧ w.Reads ptr bs) ↔
      ¬ ∃ a, ptr ≤ a ∧ a < ptr + len ∧ w a = none := by
  constructor
  · rintro ⟨bs, rfl, reads⟩ ⟨a, lo, hi, hnone⟩
    have := reads (a - ptr) (by omega)
    rw [show ptr + (a - ptr) = a by omega, hnone] at this
    cases this
  · intro mapped
    refine ⟨(List.range len).map fun i => ((w (ptr + i)).map Prod.snd).getD 0,
      by simp, fun i hi => ?_⟩
    rw [List.length_map, List.length_range] at hi
    rcases hw : w (ptr + i) with _ | x
    · exact absurd ⟨ptr + i, by omega, by omega, hw⟩ mapped
    · rw [List.getD_eq_getElem _ _ (by simpa using hi)]
      simp [hw]

theorem copyFrom_none {ptr len : Nat} (hlen : len ≠ 0) :
    (k.task.space.bind fun space => space.copyFromUser k.phys.mem ptr len) = none ↔
      ∃ a, ptr ≤ a ∧ a < ptr + len ∧ k.view a = none := by
  rw [State.view]
  rcases hspace : k.task.space with _ | space
  · exact ⟨fun _ => ⟨ptr, by omega, by omega, rfl⟩, fun _ => rfl⟩
  · rw [Option.bind_some, ← not_iff_not, ← mapped_iff, Option.eq_none_iff_forall_ne_some]
    push Not
    exact exists_congr fun bs => copyFromUser_iff

theorem State.view_high {a : Nat} (ha : userMaxAddr ≤ a) : k.view a = none := by
  rw [State.view]
  rcases k.task.space with _ | space
  · rfl
  · exact AddressSpace.view_high _ _ ha

/-- A write looks at its bytes before it does anything, but not at what their pages grant. -/
theorem write_caught {fd ptr len : Nat} (h : Inaccessible k (.write fd ptr len)) :
    FailsCleanly A cfg k (.write fd ptr len) ↔ Caught k (.write fd ptr len) := by
  obtain ⟨hfd, bad⟩ := h
  have hlen : len ≠ 0 := by
    rintro rfl
    exact bad fun a lo hi => absurd hi (by omega)
  have hfd' : ¬ (fd ≠ Nr.stdout ∧ fd ≠ Nr.stderr) := by tauto
  rw [FailsCleanly, run, write, if_neg hfd', Caught, ← copyFrom_none hlen]
  by_cases hrange : maxIo < len ∨ userMaxAddr < ptr + len
  · rw [if_pos hrange]
    refine iff_of_true rfl (hrange.imp id fun high => (copyFrom_none hlen).mpr ?_)
    exact ⟨ptr + len - 1, by omega, by omega, State.view_high (by omega)⟩
  rw [if_neg hrange]
  rcases (k.task.space.bind fun space => space.copyFromUser k.phys.mem ptr len) with _ | buf
  · exact iff_of_true rfl (.inr rfl)
  · refine iff_of_false ?_ (by simpa using fun h => hrange (.inl h))
    intro heq
    injection heq with heq
    injection heq with hret
    have : (len : Int) = -6 := hret
    omega

/-- A read has taken its bytes out of the ring before it looks where they go. -/
theorem read_caught {fd ptr len : Nat} (h : Inaccessible k (.read fd ptr len)) :
    FailsCleanly A cfg k (.read fd ptr len) ↔ Caught k (.read fd ptr len) := by
  obtain ⟨hfd, hlen, -⟩ := h
  rw [FailsCleanly, run, read, if_neg (not_not.mpr hfd), if_neg hlen, Caught]
  by_cases hrange : maxIo < len ∨ userMaxAddr < ptr + len
  · rw [if_pos hrange]
    exact iff_of_true rfl hrange
  rw [if_neg hrange]
  refine iff_of_false (fun heq => ?_) hrange
  by_cases hempty : k.ring.used = 0
  · rw [if_pos hempty] at heq
    cases heq
  rw [if_neg hempty] at heq
  have hring : (k.ring.drain len).2 ≠ k.ring := by
    intro same
    have := (k.ring.drain_used len).2
    rw [same] at this
    omega
  simp only at heq
  split at heq
  · exact hring (congrArg State.ring (Outcome.returns.inj (Option.some.inj heq)).2)
  · split at heq <;> exact hring (congrArg State.ring (Outcome.returns.inj (Option.some.inj heq)).2)

/-- `exec` reads all its strings first, without a look at what their pages grant. -/
theorem exec_caught (path argv frame : Nat) :
    FailsCleanly A cfg k (.exec path argv frame) ↔ Caught k (.exec path argv frame) := by
  rw [FailsCleanly, run, sysExec, Caught, State.view]
  rcases hspace : k.task.space with _ | space
  · refine iff_of_true rfl (.inl ?_)
    rintro ⟨name, cstr, -⟩
    have := cstr.2 0 (by simp)
    cases this
  simp only
  rcases hname : space.readCstr k.phys.mem path maxStr with _ | name
  · refine iff_of_true rfl (.inl fun named => ?_)
    obtain ⟨name, h⟩ := readCstr_named.mpr named
    rw [hname] at h
    cases h
  have named := readCstr_named.mp ⟨name, hname⟩
  simp only
  rcases hargs : readArgs space k.phys.mem argv with _ | args
  · refine iff_of_true rfl (.inr ?_)
    by_contra good
    obtain ⟨got, h⟩ := readArgs_good.mpr (show argv ≠ 0 → _ from fun hne => by
      by_contra hbad
      exact good ⟨hne, hbad⟩)
    rw [hargs] at h
    cases h
  have good := readArgs_good.mp ⟨args, hargs⟩
  refine iff_of_false (fun heq => ?_) (by tauto)
  simp only at heq
  split at heq
  · cases heq
  · rename_i image _
    rcases hexec : execCurrent A k.phys cfg.kernelTable k.task image args with _ | ⟨e | i, s⟩
    all_goals simp only [hexec, Option.map_none, Option.map_some] at heq
    · cases heq
    · have hret : execErrno e = Nr.efault := (Outcome.returns.inj (Option.some.inj heq)).1
      cases e with
      | badImage e => exact absurd hret (show Nr.einval ≠ Nr.efault by decide)
      | outOfMemory => exact absurd hret (show Nr.enomem ≠ Nr.efault by decide)
    · have hret : (0 : Int) = Nr.efault := (Outcome.returns.inj (Option.some.inj heq)).1
      exact absurd hret (by decide)

/-- A child that has exited is reaped whatever the pointer is. -/
theorem waitpid_caught {want : Int} {ptr : Nat} (h : Inaccessible k (.waitpid want ptr)) :
    FailsCleanly A cfg k (.waitpid want ptr) ↔ Caught k (.waitpid want ptr) := by
  obtain ⟨⟨c, hc, hwant, hzombie⟩, -⟩ := h
  refine iff_of_false (fun heq => ?_) id
  have hscan : (scan k want).isSome := by
    rw [scan, List.find?_isSome]
    exact ⟨c, hc, Bool.and_eq_true_iff.mpr ⟨hwant, hzombie⟩⟩
  obtain ⟨d, hd⟩ := Option.isSome_iff_exists.mp hscan
  rw [FailsCleanly, run, waitpid, hd] at heq
  simp only at heq
  split at heq
  · cases heq
  · obtain ⟨s, -, heq⟩ := Option.bind_eq_some_iff.mp heq
    have hret : (d : Int) = -6 := (Outcome.returns.inj (Option.some.inj heq)).1
    omega

/-- A call with a bad pointer fails cleanly exactly when the pointer is caught. -/
theorem bad_pointer_iff (A : FrameAllocator σ) (cfg : Config) (k : State σ) (call : Call)
    (h : Inaccessible k call) : FailsCleanly A cfg k call ↔ Caught k call := by
  cases call with
  | write fd ptr len => exact write_caught h
  | read fd ptr len => exact read_caught h
  | exec path argv frame => exact exec_caught path argv frame
  | waitpid want ptr => exact waitpid_caught h

/-- The state of a booted process with a byte in the ring; its first page is not mapped. -/
theorem booted_reader : ∃ (k : State Buddy.BuddyAllocator) (sp : AddressSpace),
    k.task.Formed Buddy.merging k.phys sp 0 ∧ k.ring = (RxRing.new.push 0x61).2 ∧
      k.view 0 = none := by
  obtain ⟨s, p, sp, -, h, -, -, -, hzero⟩ := booted_caller nil_fits (by decide)
  refine ⟨⟨s, (RxRing.new.push 0x61).2, [], p, []⟩, sp, h, rfl, ?_⟩
  rw [State.view, h.space]
  exact hzero

theorem not_granted {w : UserView} {access len : Nat} (h : w 0 = none) (hlen : 0 < len) :
    ¬ w.Grants access 0 len := by
  intro granted
  obtain ⟨x, hx, -⟩ := granted 0 (Nat.le_refl 0) (by omega)
  rw [h] at hx
  cases hx

theorem write_null_caught : ∃ (k : State Buddy.BuddyAllocator) (sp : AddressSpace),
    k.task.Formed Buddy.merging k.phys sp 0 ∧ Inaccessible k (.write Nr.stdout 0 1) ∧
      (FailsCleanly Buddy.merging.toFrameAllocator ⟨⟨0, []⟩, []⟩ k (.write Nr.stdout 0 1) ↔
        Caught k (.write Nr.stdout 0 1)) := by
  obtain ⟨k, sp, h, -, hzero⟩ := booted_reader
  have bad : Inaccessible k (.write Nr.stdout 0 1) := ⟨.inl rfl, not_granted hzero (by decide)⟩
  exact ⟨k, sp, h, bad, bad_pointer_iff _ _ k _ bad⟩

/-- `read` into the first page returns `EFAULT`, and the byte is gone. -/
theorem read_loses_byte : ∃ (k k' : State Buddy.BuddyAllocator) (sp : AddressSpace),
    k.task.Formed Buddy.merging k.phys sp 0 ∧ Inaccessible k (.read Nr.stdin 0 1) ∧
      run Buddy.merging.toFrameAllocator ⟨⟨0, []⟩, []⟩ k (.read Nr.stdin 0 1) =
        some (.returns Nr.efault k') ∧ k.ring.used = 1 ∧ k'.ring.used = 0 := by
  obtain ⟨k, sp, h, hring, hzero⟩ := booted_reader
  have hused : k.ring.used = 1 := by rw [hring]; decide
  have bad : Inaccessible k (.read Nr.stdin 0 1) :=
    ⟨rfl, by decide, not_granted hzero (by omega)⟩
  have hnone : translate k.phys.mem sp.table (pageNum 0) = none := by
    rw [State.view, h.space] at hzero
    simpa [AddressSpace.view, userMaxAddr] using hzero
  have hdrain : k.ring.drain 1 = ([0x61], (k.ring.drain 1).2) := by rw [hring]; rfl
  refine ⟨k, { k with ring := (k.ring.drain 1).2 }, sp, h, bad, ?_, hused, ?_⟩
  · have hcopy : sp.copyToUser k.phys.mem 0 [0x61] = (none, k.phys.mem) := by
      rw [copyToUser, List.length_singleton, copyToUserFrom, if_neg (by decide), if_neg (by decide),
        hnone]
    rw [run, read, if_neg (by decide), if_neg (by decide), if_neg (by decide),
      if_neg (by omega), hdrain]
    simp only [h.space, hcopy]
  · have := (k.ring.drain_used 1).2
    simp only
    omega

end UserPointers

end AlexOS
