import AlexOS.Sync.WaitUntil
import AlexOS.Syscall.BadPointer
import AlexOS.Task.Heap

/-!
# Readers of the console

`sys_read` waits until the receive ring has input, pops bytes one by one and copies
them out. Several tasks do so at a time, and the interrupt handler fills the ring. A
reader that has seen input does not own it: another one may take the last byte
before it pops its first, and then it returns zero.
-/

namespace AlexOS

open AddressSpace

/-- Where a task in `sys_read` is: `stopped` once the loop is left. -/
structure Reading where
  len : Nat
  buf : List UInt8
  stopped : Bool

/-- A call that has returned: who made it, for how many bytes, with what result. -/
structure Returned where
  task : Nat
  len : Nat
  result : Int

structure Console where
  kernel : Kernel
  ring : RxRing
  reading : Nat → Option Reading
  returned : List Returned

namespace Console

/-- The queue `READERS`; its condition is `has_input`. -/
def readers : Nat := 0

def setRing (c : Console) (ring : RxRing) : Console :=
  { c with ring := ring, kernel := c.kernel.setCond readers (!ring.isEmpty) }

def setReading (c : Console) (me : Nat) (r : Option Reading) : Console :=
  { c with reading := Function.update c.reading me r }

/-- The end of `sys_read`: the result of copying the buffer out. -/
def copyOut (m : Bytes.Mem) (sp : AddressSpace) (ptr : Nat) (buf : List UInt8) : Int :=
  match (sp.copyToUser m ptr buf).1 with
  | some () => buf.length
  | none => Nr.efault

/-- Not a task inside `sys_read`. -/
def Outside (c : Console) : Prop :=
  ∀ me, c.kernel.sched.actor = some (some me) → c.reading me = none

/-- What else the kernel does: a task in `sys_read` only goes on with its wait, and
the ring decides the condition of the readers' queue. -/
def Allows (c : Console) : Kernel.Op → Prop
  | .wait n | .waitUntil n | .signal n | .reset n => n ≠ readers ∧ c.Outside
  | .wakeOne _ | .wakeAll _ | .fork _ | .waitpid _ | .exit => c.Outside
  | .sched (.admitTask _) | .sched .yieldNow | .sched .resched => c.Outside
  | _ => True

inductive Op where
  | kernel (op : Kernel.Op)
  | call (len : Nat)
  | pop
  | stop
  | ret
  | byte (b : UInt8)

inductive Step : Console → Op → Console → Prop where
  | kernel {c : Console} {op : Kernel.Op} {k : Kernel} : Kernel.Step c.kernel op k → c.Allows op →
      Step c (.kernel op) { c with kernel := k }
  | call {c : Console} {me len : Nat} : c.kernel.Acts (some me) .run → c.reading me = none →
      0 < len → len ≤ maxIo →
      Step c (.call len)
        ({ c with kernel := c.kernel.goto (some me) (.untilTop readers) }.setReading
        me (some ⟨len, [], false⟩))
  | pop {c : Console} {me : Nat} {r : Reading} {b : UInt8} {ring : RxRing} :
      c.kernel.Acts (some me) .run → c.reading me = some r → r.stopped = false →
      r.buf.length < r.len → c.ring.pop = some (b, ring) →
      Step c .pop ((c.setRing ring).setReading me (some { r with buf := r.buf ++ [b] }))
  | stop {c : Console} {me : Nat} {r : Reading} : c.kernel.Acts (some me) .run →
      c.reading me = some r → r.stopped = false → r.buf.length = r.len ∨ c.ring.pop = none →
      Step c .stop (c.setReading me (some { r with stopped := true }))
  /-- The caller's buffer is mapped writable from end to end. -/
  | ret {c : Console} {me ptr : Nat} {r : Reading} {m : Bytes.Mem} {sp : AddressSpace} :
      c.kernel.Acts (some me) .run → c.reading me = some r → r.stopped = true →
      sp.Exact m → (∀ p, framesOver sp.frames p ≤ 1) →
      (sp.view m).Grants (PteFlags.write ||| PteFlags.user) ptr r.len →
      Step c .ret { c.setReading me none with
        returned := ⟨me, r.len, copyOut m sp ptr r.buf⟩ :: c.returned }
  /-- `handle_interrupt` queues a byte it found; `notify_readers` is a kernel step. -/
  | byte {c : Console} {b : UInt8} : c.kernel.Acts none .run →
      Step c (.byte b) (c.setRing (c.ring.push b).2)

def boot : Console := ⟨.boot, .new, fun _ => none, []⟩

def system : System Console Op := ⟨(· = boot), Step⟩

/-- A reader that has found input and has not taken a byte yet. -/
def Due (c : Console) (t : Nat) : Prop :=
  ∃ r, c.reading t = some r ∧ c.kernel.pc (some t) = .run ∧ r.buf = [] ∧ r.stopped = false

/-- Nobody takes the last byte while another reader is due. -/
def Leaves (c : Console) : Op → Prop
  | .pop => ∀ me b ring, c.kernel.sched.actor = some (some me) → c.ring.pop = some (b, ring) →
      ring.isEmpty = true → ∀ t, t ≠ me → ¬ c.Due t
  | _ => True

/-! ## One step -/

/-- The places of `sys_read`, as the wait queue sees them. -/
def InRead : Pc → Prop
  | .run => True
  | .untilTop n => n = readers
  | .wait q a | .enqueued q a | .parked q a => q = .named readers ∧ a = .waitUntil
  | _ => False

/-- What the kernel does with a reader: it moves it along its wait, and past it only
when there is input. -/
structure Waits (k k' : Kernel) (t : Nat) : Prop where
  inRead : InRead (k'.pc (some t))
  passed : k'.pc (some t) = .run → k.pc (some t) = .run ∨ k.cond readers = true
  stays : k.pc (some t) = .run → k'.pc (some t) = .run

theorem Waits.same {k k' : Kernel} {t : Nat} (hin : InRead (k.pc (some t)))
    (same : k'.pc (some t) = k.pc (some t)) : Waits k k' t :=
  ⟨same ▸ hin, fun h => .inl (same ▸ h), fun h => same.trans h⟩

variable {c c' : Console} {op : Op}

theorem kernel_cond {k k' : Kernel} {op : Kernel.Op} (hs : Kernel.Step k op k')
    (hop : ∀ n, op = .signal n ∨ op = .reset n → n ≠ readers) :
    k'.cond readers = k.cond readers := by
  cases hs with
  | @signal _ n _ => exact Function.update_of_ne (Ne.symm (hop n (.inl rfl))) _ _
  | @reset _ n _ => exact Function.update_of_ne (Ne.symm (hop n (.inr rfl))) _ _
  | @scan me want _ =>
    rcases Kernel.scan_cases k me want with ⟨cs, _, hscan⟩ | ⟨_, hscan⟩ <;> rw [hscan] <;> rfl
  | _ => rfl

/-- A step moves the context that takes it and no other. -/
theorem Waits.goto {k k' : Kernel} {t : Nat} {d : Ctx} {q : Pc} (hin : InRead (k.pc (some t)))
    (hpc : k'.pc = Function.update k.pc d q) (hd : d ≠ some t) : Waits k k' t :=
  .same hin (by rw [hpc, Function.update_of_ne hd.symm])

theorem Waits.own {k k' : Kernel} {t : Nat} {q : Pc} (hpc : k'.pc = Function.update k.pc (some t) q)
    (hq : InRead q) (hcond : q = .run → k.cond readers = true) (hrun : k.pc (some t) ≠ .run) :
    Waits k k' t := by
  have hself : k'.pc (some t) = q := by rw [hpc, Function.update_self]
  exact ⟨hself ▸ hq, fun h => .inr (hcond (hself ▸ h)), fun h => absurd h hrun⟩

theorem kernel_waits {k' : Kernel} {op : Kernel.Op} {t : Nat} {r : Reading}
    (hs : Kernel.Step c.kernel op k') (allowed : c.Allows op) (hr : c.reading t = some r)
    (hin : InRead (c.kernel.pc (some t))) : Waits c.kernel k' t := by
  have away : ∀ {d : Ctx}, c.kernel.sched.actor = some d → c.Outside → d ≠ some t := by
    rintro d hact outside rfl
    exact nomatch (outside t hact).symm.trans hr
  have elsewhere : ∀ {d : Ctx} {p : Pc}, c.kernel.pc d = p → ¬ InRead p → d ≠ some t := by
    rintro d p hp hnot rfl
    exact hnot (hp ▸ hin)
  cases hs with
  | sched _ _ => exact .same hin rfl
  | wait ha => exact .goto hin rfl (away ha.1 allowed.2)
  | waitUntil ha => exact .goto hin rfl (away ha.1 allowed.2)
  | @check me n ha =>
    by_cases hme : me = t
    · subst hme
      obtain rfl : n = readers := by simpa [ha.2.2, InRead] using hin
      refine .own rfl ?_ ?_ (by simp [ha.2.2])
      · split <;> simp [InRead]
      · split <;> simp_all
    · exact .goto hin rfl (by simpa using hme)
  | @enqueue me q a ha | @block me q a ha =>
    by_cases hme : me = t
    · subst hme
      have hqa : q = .named readers ∧ a = .waitUntil := by simpa [ha.2.2, InRead] using hin
      exact .own rfl hqa (by simp) (by simp [ha.2.2])
    · exact .goto hin rfl (by simpa using hme)
  | @unpark me q a ha =>
    by_cases hme : me = t
    · subst hme
      obtain ⟨rfl, rfl⟩ : q = .named readers ∧ a = .waitUntil := by simpa [ha.2.2, InRead] using hin
      exact .own rfl rfl (by simp [Caller.next]) (by simp [ha.2.2])
    · exact .goto hin rfl (by simpa using hme)
  | signal ha => exact .goto hin rfl (away ha.1 allowed.2)
  | reset _ => exact .same hin rfl
  | wakeOne ha | wakeAll ha =>
    rcases ha with ha | ha
    · exact .goto hin rfl (away ha.1 allowed)
    · exact .goto hin rfl (elsewhere ha.2.2 id)
  | wakeNext ha | wakeDone ha | drain ha _ | orphan ha _ =>
    exact .goto hin rfl (elsewhere ha.2.2 id)
  | fork _ _ => exact .same hin rfl
  | waitpid ha => exact .goto hin rfl (away ha.1 allowed)
  | @scan me want ha =>
    have hd := elsewhere ha.2.2 id
    rcases Kernel.scan_cases c.kernel me want with ⟨cs, _, hscan⟩ | ⟨_, hscan⟩ <;> rw [hscan]
    · exact .goto hin rfl hd
    · exact .goto hin rfl hd
  | exit ha => exact .goto hin rfl (away ha.1 allowed)
  | zombie _ => exact .same hin rfl

/-- A reader at `pc`, when the ring is `empty` or not: with no byte taken, there is one. -/
structure Served (r : Reading) (pc : Pc) (empty : Bool) : Prop where
  inRead : InRead pc
  running : r.buf ≠ [] ∨ r.stopped = true → pc = .run
  length : 0 < r.len ∧ r.buf.length ≤ r.len
  due : pc = .run → r.buf = [] → r.stopped = false ∧ empty = false

/-- What holds of the console when nobody takes a byte that another reader is due. -/
structure Fed (c : Console) : Prop where
  cond : c.kernel.cond readers = !c.ring.isEmpty
  served : ∀ t r, c.reading t = some r → Served r (c.kernel.pc (some t)) c.ring.isEmpty
  returned : ∀ x ∈ c.returned, 1 ≤ x.result ∧ x.result ≤ x.len

theorem pop_isNone {r : RxRing} (h : r.pop = none) : r.isEmpty = true := by
  rw [RxRing.pop] at h
  split_ifs at h with hempty
  simpa [RxRing.isEmpty] using hempty

theorem push_isEmpty (r : RxRing) (b : UInt8) : (r.push b).2.isEmpty = false := by
  have hhead := r.head_lt
  have htail := r.tail_lt
  rw [RxRing.push]
  split_ifs with full
  · rw [RxRing.isEmpty, beq_eq_false_iff_ne]
    simp only [RxRing.cap] at full hhead htail ⊢
    omega
  · rw [RxRing.isEmpty, beq_eq_false_iff_ne]
    exact Ne.symm full

/-- A buffer that is writable from end to end takes all that was read. -/
theorem copyOut_eq {m : Bytes.Mem} {sp : AddressSpace} {ptr len : Nat} {buf : List UInt8}
    (exact : sp.Exact m) (apart : ∀ p, framesOver sp.frames p ≤ 1)
    (writable : (sp.view m).Grants (PteFlags.write ||| PteFlags.user) ptr len)
    (hlen : buf.length ≤ len) : copyOut m sp ptr buf = buf.length := by
  rcases copyToUserFrom_view ptr exact apart (Nat.le_refl buf.length) with
    ⟨-, m', heq, -⟩ | ⟨n, hn, -, bad, -⟩
  · rw [copyOut, copyToUser, heq]
  · exact absurd (writable.sub (Nat.le_add_right ptr n) (by omega)) bad

/-- The ring matters only to a reader without a byte. -/
theorem Served.ring {r : Reading} {pc : Pc} {e e' : Bool} (h : Served r pc e)
    (hring : pc = .run → r.buf = [] → r.stopped = false → e' = false) : Served r pc e' := by
  refine ⟨h.inRead, h.running, h.length, fun hpc hbuf => ?_⟩
  have hstop := (h.due hpc hbuf).1
  exact ⟨hstop, hring hpc hbuf hstop⟩

theorem Step.fed (hs : Step c op c') (leaves : c.Leaves op) (h : Fed c) : Fed c' := by
  cases hs with
  | @kernel kop k hstep allowed =>
    have hcond : k.cond readers = c.kernel.cond readers := kernel_cond hstep fun n hn => by
      rcases hn with rfl | rfl <;> exact allowed.1
    refine ⟨hcond.trans h.cond, fun t r hr => ?_, h.returned⟩
    have old := h.served t r hr
    have waits := kernel_waits hstep allowed hr old.inRead
    refine ⟨waits.inRead, fun hrun => waits.stays (old.running hrun),
      old.length, fun hrun hbuf => ?_⟩
    rcases waits.passed hrun with hpc | hinput
    · exact old.due hpc hbuf
    · refine ⟨?_, by simpa [h.cond] using hinput⟩
      by_contra hstop
      exact hstop (old.due (old.running (.inr (by simpa using hstop))) hbuf).1
  | @call me len ha hnone hpos hmax =>
    refine ⟨h.cond, fun t r hr => ?_, h.returned⟩
    by_cases ht : t = me
    · subst ht
      obtain rfl : ⟨len, [], false⟩ = r := by simpa [setReading] using hr
      refine ⟨?_, by simp, ⟨hpos, Nat.zero_le _⟩, ?_⟩ <;> simp [setReading, Kernel.goto, InRead]
    · have old := h.served t r (by simpa [setReading, ht] using hr)
      simpa [setReading, Kernel.goto, ht] using old
  | @pop me r b ring ha hr hstop hlen hpop =>
    refine ⟨by simp [setReading, setRing, Kernel.setCond], fun t r' hr' => ?_, h.returned⟩
    by_cases ht : t = me
    · subst ht
      obtain rfl : { r with buf := r.buf ++ [b] } = r' := by simpa [setReading] using hr'
      have old := h.served t r hr
      refine ⟨old.inRead, fun _ => ha.2.2, ⟨old.length.1, ?_⟩, fun _ hbuf => by simp at hbuf⟩
      simpa using Nat.succ_le_of_lt hlen
    · have hread : c.reading t = some r' := by simpa [setReading, setRing, ht] using hr'
      refine (h.served t r' hread).ring fun hpc hbuf hstop' => ?_
      by_contra hempty
      have hempty : ring.isEmpty = true := Bool.eq_true_of_not_eq_false hempty
      exact leaves me b ring ha.1 hpop hempty t ht ⟨r', hread, hpc, hbuf, hstop'⟩
  | @stop me r ha hr hstop hdone =>
    refine ⟨h.cond, fun t r' hr' => ?_, h.returned⟩
    by_cases ht : t = me
    · subst ht
      obtain rfl : { r with stopped := true } = r' := by simpa [setReading] using hr'
      have old := h.served t r hr
      refine ⟨old.inRead, fun _ => ha.2.2, old.length, fun _ (hbuf : r.buf = []) => ?_⟩
      exfalso
      rcases hdone with hfull | hpop
      · have := old.length.1
        rw [← hfull, hbuf] at this
        exact Nat.lt_irrefl _ this
      · cases (pop_isNone hpop).symm.trans (old.due ha.2.2 hbuf).2
    · exact h.served t r' (by simpa [setReading, ht] using hr')
  | @ret me ptr r m sp ha hr hstop exact apart writable =>
    have old := h.served me r hr
    refine ⟨h.cond, fun t r' hr' => ?_, fun x hx => ?_⟩
    · by_cases ht : t = me
      · simp [setReading, ht] at hr'
      · exact h.served t r' (by simpa [setReading, ht] using hr')
    · rcases List.mem_cons.mp hx with rfl | hx
      · have hbuf : r.buf ≠ [] := fun hbuf => by
          cases (old.due ha.2.2 hbuf).1.symm.trans hstop
        have hpos := List.length_pos_iff.mpr hbuf
        have hlen := old.length.2
        simp only [copyOut_eq exact apart writable hlen]
        omega
      · exact h.returned x hx
  | @byte b ha =>
    refine ⟨by simp [setRing, Kernel.setCond], fun t r hr => ?_, h.returned⟩
    exact (h.served t r hr).ring fun _ _ _ => push_isEmpty c.ring b

theorem Reach.fed (h : Reach (system.guard Leaves) c) : Fed c := by
  refine Reach.invariant (S := system.guard Leaves) Fed ?_ (fun _ _ _ fed hs => hs.1.fed hs.2 fed) h
  rintro c rfl
  exact ⟨rfl, nofun, nofun⟩

/-- A blocking read brings at least one byte and no more than were asked for. -/
theorem reach_reads_some (h : Reach (system.guard Leaves) c) :
    ∀ x ∈ c.returned, 1 ≤ x.result ∧ x.result ≤ x.len :=
  (Reach.fed h).returned

/-! ## Runs -/

/-- The stack of a new process takes a byte. -/
theorem exists_writable : ∃ (m : Bytes.Mem) (sp : AddressSpace) (ptr : Nat), sp.Exact m ∧
    (∀ p, framesOver sp.frames p ≤ 1) ∧
    (sp.view m).Grants (PteFlags.write ||| PteFlags.user) ptr 1 := by
  obtain ⟨s, -, holds, havail⟩ := Buddy.merging_boot
  obtain ⟨i, s', heq⟩ := page_prepared ⟨0, []⟩ holds (by omega) Loader.smallImage_accepts
    smallImage_pages (by decide)
  obtain ⟨holds', exact, seen⟩ := prepare_view holds heq
  rw [add_zero] at holds'
  refine ⟨s'.mem, i.space, userStackTop - userStackSize, exact, Buddy.merging.apart holds', ?_⟩
  have view : i.space.view s'.mem = (Visible.ofImage Loader.smallImage []).heap.view := by
    rw [seen]
  rw [view]
  exact ((stack_grants _).overlay _ _).sub (Nat.le_refl _) (by decide)

/-- Task 1 runs, and the handler has queued a byte that nobody waits for. -/
def oneByte : Console where
  kernel := ((Kernel.oneTask.setCond readers true).wakeAll none
    (.named readers) .run).goto none .run
  ring := (RxRing.new.push 0x61).2
  reading := fun _ => none
  returned := []

theorem reach_byte {S : System Console Op} (hinit : S.init boot)
    (step : ∀ {c op c'}, Reach S c → Step c op c' → op ≠ .pop → Reach S c') : Reach S oneByte := by
  have next : ∀ {c : Console} {op : Kernel.Op} {k : Kernel}, Reach S c → Kernel.Step c.kernel op k →
      c.Allows op → Reach S { c with kernel := k } := fun h hs ha =>
    step h (.kernel hs ha) fun same => by cases same
  have admitted := next (.init hinit) (.sched (.bootAdmit (t := 1) rfl rfl (by decide))
    (by intro me; simp [boot, Kernel.boot, Sched.boot])) fun _ _ => rfl
  have runs := next (next (next admitted (.sched (.enter rfl rfl) trivial) trivial)
    (.sched (.previous rfl) trivial) trivial) (.sched (.next rfl) trivial) trivial
  have handler := next runs (.sched (.interrupt rfl (.inr (.inl rfl))) trivial) trivial
  have queued := step handler (.byte (b := 0x61) ⟨rfl, rfl, rfl⟩) fun same => by cases same
  have notified := next (next queued (.wakeAll (c := none) (n := readers) (.inl ⟨rfl, rfl, rfl⟩))
    (fun _ _ => rfl)) (.wakeDone ⟨rfl, rfl, rfl⟩) trivial
  exact next notified (.sched (.iret rfl rfl) rfl) trivial

/-- Both tasks see the byte; task 1 is preempted before it pops, task 2 takes it. -/
theorem second_reader_gets_nothing : ∃ c, Reach system c ∧ ∃ x ∈ c.returned, x.result = 0 := by
  obtain ⟨m, sp, ptr, exact, apart, writable⟩ := exists_writable
  have step : ∀ {c op c'}, Reach system c → Step c op c' → Reach system c' :=
    fun h hs => h.step _ hs
  have next : ∀ {c : Console} {op : Kernel.Op} {k : Kernel}, Reach system c →
      Kernel.Step c.kernel op k → c.Allows op → Reach system { c with kernel := k } :=
    fun h hs ha => step h (.kernel hs ha)
  have forked := next (reach_byte (S := system) rfl fun h hs _ => step h hs)
    (@Kernel.Step.fork _ 1 2 ⟨rfl, rfl, rfl⟩ (by decide)) fun _ _ => rfl
  have called := step forked (@Step.call _ 1 1 ⟨rfl, rfl, rfl⟩ rfl (by decide) (by decide))
  have checked := next called (.check ⟨rfl, rfl, rfl⟩) trivial
  have preempted := next (next (next checked
    (.sched (.interrupt rfl (.inr (.inl rfl))) trivial) trivial)
    (.sched (.tick rfl) trivial) trivial) (.sched (.iret rfl rfl) rfl) trivial
  have second := next (next preempted (.sched (.previous rfl) trivial) trivial)
    (.sched (.next rfl) trivial) trivial
  have called' := step second (@Step.call _ 2 1 ⟨rfl, rfl, rfl⟩ rfl (by decide) (by decide))
  have checked' := next called' (.check ⟨rfl, rfl, rfl⟩) trivial
  have popped := step checked' (.pop ⟨rfl, rfl, rfl⟩ rfl rfl (by decide) rfl)
  have stopped := step popped (.stop ⟨rfl, rfl, rfl⟩ rfl rfl (.inl rfl))
  have returned := step stopped (.ret ⟨rfl, rfl, rfl⟩ rfl rfl exact apart writable)
  have preempted' := next (next (next returned
    (.sched (.interrupt rfl (.inr (.inl rfl))) trivial) trivial)
    (.sched (.tick rfl) trivial) trivial) (.sched (.iret rfl rfl) rfl) trivial
  have first := next (next preempted' (.sched (.previous rfl) trivial) trivial)
    (.sched (.next rfl) trivial) trivial
  have empty := step first (.stop ⟨rfl, rfl, rfl⟩ rfl rfl (.inr rfl))
  have ended := step empty (.ret ⟨rfl, rfl, rfl⟩ rfl rfl exact apart writable)
  exact ⟨_, ended, _, List.mem_cons_self, copyOut_eq exact apart writable
    (show ([] : List UInt8).length ≤ 1 by decide)⟩

/-- A reader that is alone takes the byte it has seen. -/
theorem lone_reader_gets_one : ∃ c, Reach (system.guard Leaves) c ∧
    c.returned.map Returned.len = [1] ∧ ∀ x ∈ c.returned, 1 ≤ x.result ∧ x.result ≤ x.len := by
  obtain ⟨m, sp, ptr, exact, apart, writable⟩ := exists_writable
  have step : ∀ {c op c'}, Reach (system.guard Leaves) c → Step c op c' → op ≠ .pop →
      Reach (system.guard Leaves) c' := by
    intro c op c' h hs hop
    refine h.step op ⟨hs, ?_⟩
    cases op <;> trivial
  have called := step (reach_byte (S := system.guard Leaves) rfl step)
    (@Step.call _ 1 1 ⟨rfl, rfl, rfl⟩ rfl (by decide) (by decide)) nofun
  have checked := step called (.kernel (.check ⟨rfl, rfl, rfl⟩) trivial) nofun
  have popped := checked.step _ ⟨.pop ⟨rfl, rfl, rfl⟩ rfl rfl (by decide) rfl, by
    rintro me b ring hme - - t ht ⟨r, hr, -⟩
    obtain rfl : 1 = me := Option.some.inj (Option.some.inj hme)
    simp [setReading, oneByte, ht] at hr⟩
  have stopped := step popped (.stop ⟨rfl, rfl, rfl⟩ rfl rfl (.inl rfl)) nofun
  have returned := step stopped (.ret ⟨rfl, rfl, rfl⟩ rfl rfl exact apart writable) nofun
  exact ⟨_, returned, rfl, reach_reads_some returned⟩

end Console

end AlexOS
