import HiveRK.Bees.Interrupt.Routing

/-!
# The way back from an interrupt

Behind the call of `isr_handler` `isr_common_stub` restores the registers from the stack, drops
the vector and the error code, and returns with `iret` to code of the same ring. The segment
registers `es`, `fs` and `gs` are not saved: they get what is restored to `ds`.
-/

namespace HiveRK.Interrupt

open Machine

def Stack.pop (s : Stack) : Nat × Stack := (s.words.headD 0, ⟨u32 (s.esp + 4), s.words.tail⟩)

/-- The interrupted code goes on with these registers, and these words at its stack pointer. -/
structure Resumed where
  cpu : Cpu
  es : Nat
  fs : Nat
  gs : Nat
  words : List Nat
deriving DecidableEq, Repr

/-- The words of `registers_t` that the stub pops. -/
def Registers.popped (r : Registers) : List Nat :=
  [r.ds, r.edi, r.esi, r.ebp, r.esp, r.ebx, r.edx, r.ecx, r.eax, r.int_no, r.err_code, r.eip,
    r.cs, r.eflags]

/-- The stack with these registers on it, as `isr_handler` leaves them. -/
def Stack.withRegisters (s : Stack) (r : Registers) : Stack :=
  ⟨s.esp, r.popped ++ s.words.drop 14⟩

/-- The instructions of `isr_common_stub` behind the call. `popa` skips the saved `esp`. -/
def isrCommonReturn (s : Stack) : Resumed :=
  let (ds, s) := s.pop
  let (edi, s) := s.pop
  let (esi, s) := s.pop
  let (ebp, s) := s.pop
  let (_, s) := s.pop
  let (ebx, s) := s.pop
  let (edx, s) := s.pop
  let (ecx, s) := s.pop
  let (eax, s) := s.pop
  let s := Stack.mk (u32 (s.esp + 8)) (s.words.drop 2)
  let (eip, s) := s.pop
  let (cs, s) := s.pop
  let (eflags, s) := s.pop
  let ds := ds % 2 ^ 16
  ⟨⟨eax, ecx, edx, ebx, s.esp, ebp, esi, edi, ds, eip, cs, eflags⟩, ds, ds, ds, s.words⟩

/-- The stack when the stub of an interrupt calls `isr_handler`. -/
def stubStack (stub : Stub) (cpu : Cpu) (above : List Nat) (error : Option Nat) : Stack :=
  isrCommonStub cpu ((entered cpu above error).pushes stub.pushes)

/-- An interrupt from its gate to its `iret`. -/
def interrupt (image : Nat → Option Stub) (code : Nat → Registers → Mem → Registers × Mem)
    (m : Mem) (global v : Nat) (cpu : Cpu) (above : List Nat) (error : Option Nat) :
    Option (Resumed × Mem × List Event) :=
  (image (gateOffset m (idt global v))).map fun stub =>
    let s := stubStack stub cpu above error
    let handled := isrHandler code m global (.ofStack s)
    (isrCommonReturn (s.withRegisters handled.1), handled.2)

/-- The registers fit into the hardware's. -/
structure Cpu.Valid (cpu : Cpu) : Prop where
  esp : cpu.esp < 2 ^ 32
  ds : cpu.ds < 2 ^ 16

/-- What a handler changes among the saved registers, the interrupted code finds changed. Its
stack pointer is not among them. -/
def Cpu.restored (cpu : Cpu) (r : Registers) : Cpu :=
  { eax := r.eax, ecx := r.ecx, edx := r.edx, ebx := r.ebx, esp := cpu.esp, ebp := r.ebp
    esi := r.esi, edi := r.edi, ds := r.ds % 2 ^ 16, eip := r.eip, cs := r.cs
    eflags := r.eflags }

section Return

variable {cpu : Cpu} {above : List Nat} {error : Option Nat} {stub : Stub} {r : Registers}

theorem pushes_words (s : Stack) (vs : List Nat) : (s.pushes vs).words = vs.reverse ++ s.words := by
  induction vs generalizing s with
  | nil => rfl
  | cons v vs ih =>
      rw [Stack.pushes, List.foldl_cons]
      show ((s.push v).pushes vs).words = _
      rw [ih, List.reverse_cons, List.append_assoc]
      rfl

theorem pushes_esp (s : Stack) (vs : List Nat) (k : Nat) :
    u32 ((s.pushes vs).esp + k) = u32 (s.esp + (vs.length * (2 ^ 32 - 4) + k)) := by
  induction vs generalizing s with
  | nil => rw [List.length_nil, Nat.zero_mul, Nat.zero_add]; rfl
  | cons v vs ih =>
      rw [Stack.pushes, List.foldl_cons]
      show u32 (((s.push v).pushes vs).esp + k) = _
      rw [ih, List.length_cons, Stack.push, u32, u32, u32, Nat.mod_add_mod]
      congr 1
      omega

/-- The words on the stack pointer that the interrupted code had, and the stack pointer itself,
are back, if the stub pushed as many words as it pops. -/
theorem stubStack_base (stub : Stub) (valid : cpu.Valid) (above : List Nat)
    (whole : stub.pushes.length + error.toList.length = 2) :
    (stubStack stub cpu above error).words.drop 14 = above ∧
      u32 ((stubStack stub cpu above error).esp + 56) = cpu.esp := by
  constructor
  · rw [stubStack, isrCommonStub, pushes_words, pushes_words, entered, pushes_words]
    simp only [← List.append_assoc]
    refine List.drop_left' ?_
    simp only [List.length_append, List.length_reverse, List.length_cons, List.length_nil]
    omega
  · rw [stubStack, isrCommonStub, pushes_esp, pushes_esp, entered, pushes_esp]
    simp only [List.length_append, List.length_cons, List.length_nil]
    have inside := valid.esp
    rw [u32]
    omega

theorem isrCommonReturn_eq (s : Stack) (cpu : Cpu) (r : Registers) :
    isrCommonReturn (s.withRegisters r) =
      ⟨{ cpu.restored r with esp := u32 (s.esp + 56) }, r.ds % 2 ^ 16, r.ds % 2 ^ 16,
        r.ds % 2 ^ 16, s.words.drop 14⟩ := by
  have esp : (isrCommonReturn (s.withRegisters r)).cpu.esp = u32 (s.esp + 56) := by
    simp only [isrCommonReturn, Stack.pop, Stack.withRegisters, u32, Nat.mod_add_mod,
      Nat.add_assoc]
  rw [← esp]
  rfl

theorem saved_ds (valid : cpu.Valid) : ((cpu.eax &&& 0xFFFF0000) ||| cpu.ds) % 2 ^ 16 = cpu.ds := by
  rw [Nat.or_mod_two_pow, Nat.and_mod_two_pow, show 0xFFFF0000 % 2 ^ 16 = 0 from rfl, Nat.and_zero,
    Nat.zero_or, Nat.mod_eq_of_lt valid.ds]

/-- What is restored is what was saved. -/
theorem Saved.restored {v : Nat} (saved : Saved r cpu v error) (valid : cpu.Valid)
    (pushed : error.isSome = true ↔ v ∈ errorVectors) : cpu.restored r = cpu := by
  obtain ⟨eax, ecx, edx, ebx, ebp, esi, edi⟩ := saved.general
  obtain ⟨-, eip, cs, eflags⟩ := saved.frame pushed
  rw [Cpu.restored, eax, ecx, edx, ebx, ebp, esi, edi, eip, cs, eflags, saved.ds, saved_ds valid]

theorem pushes_length (mem : stub ∈ stubs) :
    stub.pushes.length = if stub.vector ∈ errorVectors then 1 else 2 := by
  have errors := stubs_errors stub mem
  cases stub with
  | ISR_NOERR n =>
      rw [if_neg fun error => Stub.noConfusion (errors.mp error)]
      rfl
  | ISR_ERR n =>
      rw [if_pos (errors.mpr rfl)]
      rfl
  | IRQ n vector =>
      rw [if_neg fun error => Stub.noConfusion (errors.mp error)]
      rfl

/-- The stub balances the stack where the CPU pushes an error code just for its vectors. -/
theorem balanced_iff (mem : stub ∈ stubs) :
    stub.pushes.length + error.toList.length = 2 ↔
      (error.isSome = true ↔ stub.vector ∈ errorVectors) := by
  rw [pushes_length mem]
  cases error with
  | none =>
      by_cases vector : stub.vector ∈ errorVectors
      · simp [vector]
      · simp [vector]
  | some code =>
      by_cases vector : stub.vector ∈ errorVectors
      · simp [vector]
      · simp [vector]

theorem stubStack_length (stub : Stub) (cpu : Cpu) (above : List Nat) (error : Option Nat) :
    (stubStack stub cpu above error).words.length =
      12 + (stub.pushes.length + error.toList.length) + above.length := by
  rw [stubStack, isrCommonStub, pushes_words, pushes_words, entered, pushes_words]
  simp only [List.length_append, List.length_reverse, List.length_cons, List.length_nil]
  omega

end Return

section Interrupts

variable {symbol : Label → Nat} {base core global : Nat} {m m' : Mem} {ops : List Op} {v : Nat}
variable {image : Nat → Option Stub} {code : Nat → Registers → Mem → Registers × Mem}
variable {cpu : Cpu} {above : List Nat} {error : Option Nat} {stub : Stub}

/-- An interrupt with a registered handler, up to its return. -/
theorem Tables.interrupt (tables : Tables symbol base global (lastRegistration ops) m)
    (mem : stub ∈ stubs) (linked : image (u32 (base + symbol stub.label)) = some stub)
    (nonzero : (lastRegistration ops stub.vector).2 ≠ 0)
    (keeps : ∀ r : Registers, r.int_no = stub.vector →
      (code (lastRegistration ops stub.vector).2 r m).1.int_no = stub.vector)
    (cpu : Cpu) (above : List Nat) (error : Option Nat) :
    Interrupt.interrupt image code m global stub.vector cpu above error =
      some (isrCommonReturn ((stubStack stub cpu above error).withRegisters
          (code (lastRegistration ops stub.vector).2 (saved stub cpu above error) m).1),
        (code (lastRegistration ops stub.vector).2 (saved stub cpu above error) m).2,
        .call (lastRegistration ops stub.vector).2 (saved stub cpu above error) ::
          acknowledgements stub.vector) := by
  have number : (saved stub cpu above error).int_no = stub.vector :=
    (saved_spec mem cpu above error).int_no
  have handler : load32 m (handlerFunctions global (saved stub cpu above error).int_no) =
      (lastRegistration ops stub.vector).2 := by
    rw [number]
    exact tables.handler stub.vector (vector_lt mem)
  have handled := isrHandler_registered code handler nonzero
    ((keeps (saved stub cpu above error) number).trans number.symm)
  rw [number] at handled
  rw [Interrupt.interrupt, (tables.gate stub mem).decodes, linked, Option.map_some]
  exact congrArg (fun handled : Registers × Mem × List Event =>
    some (isrCommonReturn ((stubStack stub cpu above error).withRegisters handled.1), handled.2))
    handled

/-- If the stub balances the stack, the interrupted code finds in its registers what the handler
left in their places, and its own stack. -/
theorem resumed_eq (mem : stub ∈ stubs) (valid : cpu.Valid)
    (pushed : error.isSome = true ↔ stub.vector ∈ errorVectors) (r : Registers) :
    isrCommonReturn ((stubStack stub cpu above error).withRegisters r) =
      ⟨cpu.restored r, r.ds % 2 ^ 16, r.ds % 2 ^ 16, r.ds % 2 ^ 16, above⟩ := by
  obtain ⟨words, esp⟩ := stubStack_base stub valid above ((balanced_iff mem).mpr pushed)
  rw [isrCommonReturn_eq _ cpu, words, esp]
  rfl

/-- Whatever was registered before: an interrupt whose handler leaves the saved registers alone
returns to the interrupted code with all registers and the stack as they were, and with `ds` in
the other segment registers, if and only if the CPU pushes an error code for the vectors that
the stubs expect it for. -/
theorem interrupt_resumes_iff (fits : global + 3080 ≤ 2 ^ 32)
    (run : Runs (Step core global) (idtInit symbol base global m) ops m') (vector : v < 256)
    (linked : ∀ stub ∈ stubs, image (u32 (base + symbol stub.label)) = some stub)
    (nonzero : (lastRegistration ops v).2 ≠ 0)
    (keeps : ∀ r, (code (lastRegistration ops v).2 r m').1 = r) :
    (∀ cpu : Cpu, cpu.Valid → ∀ above, ∃ m'' events,
      interrupt image code m' global v cpu above error =
        some (⟨cpu, cpu.ds, cpu.ds, cpu.ds, above⟩, m'', events)) ↔
      (error.isSome = true ↔ v ∈ errorVectors) := by
  have tables := Tables.run fits run
  obtain ⟨stub, mem, rfl⟩ := exists_stub vector
  have handled := fun cpu above => tables.interrupt mem (linked stub mem) nonzero
    (fun r number => (keeps r).symm ▸ number) cpu above error
  constructor
  · intro resumes
    rw [← balanced_iff mem]
    have valid : sampleCpu.Valid := ⟨by decide, by decide⟩
    obtain ⟨_, _, resumed⟩ := resumes sampleCpu valid [0]
    rw [handled, keeps] at resumed
    have words := congrArg (fun done => done.1.words.length) (Option.some.inj resumed)
    simp only [isrCommonReturn_eq _ sampleCpu, List.length_drop, stubStack_length,
      List.length_singleton] at words
    omega
  · intro pushed cpu valid above
    have saved := saved_spec mem cpu above error
    have resumed := handled cpu above
    rw [keeps, resumed_eq mem valid pushed, saved.restored valid pushed, saved.ds, saved_ds valid]
      at resumed
    exact ⟨_, _, resumed⟩

end Interrupts

/-- One call of `registerInterrupt` behind `idt_init`. -/
theorem sample_registered : ∃ m', Step 0x5000 0x1000
    (idtInit sampleSymbol 0x8000 0x1000 sampleArgs) (.register 33 0x8E 0x9000) m' := by
  let start := idtInit sampleSymbol 0x8000 0x1000 sampleArgs
  have kept : ∀ a, 0x5000 ≤ a → a + 4 ≤ 2 ^ 32 → load32 start a = load32 sampleArgs a :=
    fun a high low => (idtInit_writes (by decide) sampleArgs).load low (.inr (by omega))
  have args : argsPtr start 0x5000 = 0x6100 := (kept 0x500C (by decide) (by decide)).trans rfl
  have id : load32 start (argsPtr start 0x5000) = 33 := by
    rw [args]
    exact (kept 0x6100 (by decide) (by decide)).trans rfl
  have flags : load32 start (argsPtr start 0x5000 + 4) = 0x8E := by
    rw [args]
    exact (kept 0x6104 (by decide) (by decide)).trans rfl
  have handler : load32 start (argsPtr start 0x5000 + 8) = 0x9000 := by
    rw [args]
    exact (kept 0x6108 (by decide) (by decide)).trans rfl
  exact ⟨_, by decide, id, flags, handler, rfl⟩

/-- A handler that leaves everything as it is. -/
def leave (_ : Nat) (r : Registers) (m : Mem) : Registers × Mem := (r, m)

/-- The keyboard's interrupt. With an error code it would not return to where it came from. -/
theorem interrupt_resumes_iff_keyboard : ∃ m' : Mem,
    (∀ cpu : Cpu, cpu.Valid → ∀ above, ∃ m'' events,
      interrupt sampleImage leave m' 0x1000 33 cpu above none =
        some (⟨cpu, cpu.ds, cpu.ds, cpu.ds, above⟩, m'', events)) ∧
    ¬ ∀ cpu : Cpu, cpu.Valid → ∀ above, ∃ m'' events,
      interrupt sampleImage leave m' 0x1000 33 cpu above (some 0) =
        some (⟨cpu, cpu.ds, cpu.ds, cpu.ds, above⟩, m'', events) := by
  obtain ⟨m', step⟩ := sample_registered
  have run := Runs.snoc .nil step
  have linked : ∀ stub ∈ stubs, sampleImage (u32 (0x8000 + sampleSymbol stub.label)) = some stub :=
    by decide +kernel
  have resumes (error : Option Nat) : _ ↔ (error.isSome = true ↔ 33 ∈ errorVectors) :=
    interrupt_resumes_iff (by decide) run (by decide) linked (by decide)
      (show ∀ r, (leave 0x9000 r m').1 = r from fun _ => rfl)
  exact ⟨m', (resumes none).mpr (by decide), mt (resumes (some 0)).mp (by decide)⟩

end HiveRK.Interrupt
