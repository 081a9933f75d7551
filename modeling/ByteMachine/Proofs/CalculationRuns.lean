import ByteMachine.Calculation
import ByteMachine.Proofs.InstructionText
import ByteMachine.Proofs.MachineRuns

/-! # Calculation runs: on every machine, the program of an operator stores its result and idles

The source is assembled to known instructions first. Then their run is followed: straight on for an operator with an
instruction of its own, and round by round for a product. -/
namespace ByteMachine

open Text Machine

theorem Operator.ofSymbol?_eq_some_iff {cs : List Char} {op : Operator} : ofSymbol? cs = some op ↔ cs = op.symbol := by
  constructor
  · intro h
    have hb := List.find?_some h
    exact (beq_iff_eq.mp hb).symm
  · rintro rfl
    rcases op with f | _
    · cases f <;> rfl
    · rfl

/-- An operator with an instruction of its own computes what the instruction computes. -/
theorem Operator.apply_alu (f : Alu) : (Operator.alu f).apply = f.apply := by
  cases f <;> rfl

namespace Calculation

/-- The instructions that leave the result in R0. -/
def computing (a b : UInt8) : Operator → List Instruction
  | .alu f => [.ldi .r0 a, .ldi .r1 b, .alu f .r0 .r1]
  | .mul =>
    [.ldi .r0 0, .ldi .r1 a, .ldi .r2 b, .ldi .r3 1, .alu .add .r0 .r1, .alu .sub .r2 .r3, .brz 16, .jmp 8]

/-- The address behind them, where the result is stored. -/
def storeAddress : Operator → UInt8
  | .alu _ => 6
  | .mul => 16

def instructions (a b : UInt8) (op : Operator) : List Instruction :=
  computing a b op ++ [.st .r0 resultAddress, .jmp (storeAddress op + 2)]

abbrev program (a b : UInt8) (op : Operator) : List UInt8 := encodeFrom 0 (instructions a b op)

section Assembling

theorem printable_load (rd : Register) (v : Int) : (loadStatement rd v).Printable := by
  have hd := denotes_decimal v
  have hid := isIdentifier_opcodeName .ldi
  apply Statement.printable_instruction
  simp only [List.forall_mem_cons]
  exact ⟨⟨.of_isIdentifier hid, getLast?_ne_of_isIdentifier hid⟩,
    ⟨isWord_operandText (.reg rd), getLast?_operandText (.reg rd)⟩, ⟨.of_denotes hd, hd.getLast?_ne⟩, nofun⟩

theorem printable_statements (a b : Int) (op : Operator) : ∀ s ∈ statements a b op, s.Printable := by
  have halu (f : Alu) (rd rs : Register) : (aluStatement f rd rs).Printable :=
    (Instruction.alu f rd rs).printable_statement
  have hgoto (op : Opcode) {name : Token} (h : isIdentifier name = true) :
      (Statement.instruction op.name [name]).Printable := by
    have hid := isIdentifier_opcodeName op
    apply Statement.printable_instruction
    simp only [List.forall_mem_cons]
    exact ⟨⟨.of_isIdentifier hid, getLast?_ne_of_isIdentifier hid⟩,
      ⟨.of_isIdentifier h, getLast?_ne_of_isIdentifier h⟩, nofun⟩
  have hstore := (Instruction.st .r0 resultAddress).printable_statement
  have hending : ∀ s ∈ ending, s.Printable := by
    simp only [ending, List.forall_mem_cons]
    exact ⟨hstore, rfl, hgoto .jmp rfl, nofun⟩
  simp only [statements, List.forall_mem_append]
  refine ⟨?_, hending⟩
  cases op with
  | alu f =>
    simp only [body, List.forall_mem_cons]
    exact ⟨printable_load _ _, printable_load _ _, halu _ _ _, nofun⟩
  | mul =>
    simp only [body, List.forall_mem_cons]
    exact ⟨printable_load _ _, printable_load _ _, printable_load _ _, printable_load _ _, rfl, halu _ _ _, halu _ _ _,
      hgoto .brz rfl, hgoto .jmp rfl, rfl, nofun⟩

theorem exists_resolve (a b : Int) (op : Operator) : ∃ labels, resolve (numbered (statements a b op)) = .ok labels := by
  apply exists_resolve_iff.mpr
  rw [values_numbered]
  cases op with
  | alu f =>
    change [idleLabel].Nodup
    decide
  | mul =>
    change [loopLabel, endLabel, idleLabel].Nodup
    decide

variable {a b : Int} {op : Operator} {labels : LabelTable}

theorem get?_of_denotes (h : resolve (numbered (statements a b op)) = .ok labels) (t : Token) (n : Int)
    (ht : Denotes t n) : labels.get? t = none := by
  apply get?_eq_none h
  rw [values_numbered]
  intro hm
  have hid : isIdentifier t = true := printable_statements a b op _ hm
  simp [ht.not_isIdentifier] at hid

theorem get?_label (h : resolve (numbered (statements a b op)) = .ok labels) (i : Nat) {name : Token}
    (hi : (statements a b op)[i]? = some (.label name)) {address : UInt8}
    (ha : UInt8.ofNat (addressAt (statements a b op) i) = address) : labels.get? name = some address := by
  rw [← values_numbered (statements a b op)] at hi ha
  rw [get?_of_getElem? h hi, ha]

theorem yields_instructions (h : resolve (numbered (statements a b op)) = .ok labels) :
    Yields labels (statements a b op) (instructions (UInt8.ofInt a) (UInt8.ofInt b) op) := by
  have hload (rd : Register) (v : Int) :
      readInstruction labels Opcode.ldi.name [rd.name, decimal v] = .ok (.ldi rd (UInt8.ofInt v)) := by
    have hd := denotes_decimal v
    exact (Reads.ldi (registerOf_name rd) (valueOf_of_denotes hd (get?_of_denotes h _ _ hd))).readInstruction_eq
  have hplain (i : Instruction) := i.readInstruction_statement (get?_of_denotes h)
  have hjmp {name : Token} {t : UInt8} (ht : labels.get? name = some t) :
      readInstruction labels Opcode.jmp.name [name] = .ok (.jmp t) :=
    (Reads.jmp (valueOf_of_get? ht)).readInstruction_eq
  have hbrz {name : Token} {t : UInt8} (ht : labels.get? name = some t) :
      readInstruction labels Opcode.brz.name [name] = .ok (.brz t) :=
    (Reads.brz (valueOf_of_get? ht)).readInstruction_eq
  have hstore := hplain (.st .r0 resultAddress)
  cases op with
  | alu f =>
    have hidle : labels.get? idleLabel = some 8 := get?_label h 4 rfl (by cases f <;> rfl)
    exact .instruction (hload .r0 a) (.instruction (hload .r1 b) (.instruction (hplain (.alu f .r0 .r1))
      (.instruction hstore (.label (.instruction (hjmp hidle) .nil)))))
  | mul =>
    have hloop : labels.get? loopLabel = some 8 := get?_label h 4 rfl rfl
    have hend : labels.get? endLabel = some 16 := get?_label h 9 rfl rfl
    have hidle : labels.get? idleLabel = some 18 := get?_label h 11 rfl rfl
    exact .instruction (hload .r0 0) (.instruction (hload .r1 a) (.instruction (hload .r2 b) (.instruction (hload .r3 1)
      (.label (.instruction (hplain (.alu .add .r0 .r1)) (.instruction (hplain (.alu .sub .r2 .r3))
      (.instruction (hbrz hend) (.instruction (hjmp hloop) (.label
      (.instruction hstore (.label (.instruction (hjmp hidle) .nil))))))))))))

end Assembling

section Running

theorem length_program (a b : UInt8) (op : Operator) : (program a b op).length ≤ 256 := by
  rw [length_encodeFrom]
  cases op with
  | alu f =>
    change 10 ≤ 256
    decide
  | mul =>
    change 20 ≤ 256
    decide

variable {a b : UInt8} {op : Operator} {m : Machine}

theorem current?_instructions (k : Nat) (i : Instruction) (hi : (instructions a b op)[k]? = some i) {pc : UInt8}
    (hpc : m.pc = pc) (hk : UInt8.ofNat (encodeFrom 0 ((instructions a b op).take k)).length = pc) :
    m.current? (program a b op) = some i :=
  current?_encodeFrom (length_program a b op) hi (hpc.trans hk.symm)

/-- One step of a calculation that has come to its instruction `k`. -/
theorem path_cons (k : Nat) (i : Instruction) (hi : (instructions a b op)[k]? = some i) {pc : UInt8} (hpc : m.pc = pc)
    (hk : UInt8.ofNat (encodeFrom 0 ((instructions a b op).take k)).length = pc) (hmoves : i ≠ .jmp pc)
    {addresses : List UInt8} {m' : Machine}
    (rest : Path (program a b op) (m.execute i) addresses m') :
    Path (program a b op) m (pc :: addresses) m' :=
  .step hpc (current?_instructions k i hi hpc hk) hmoves rest

theorem alu_path (f : Alu) (hpc : m.pc = 0) : ∃ m', Path (program a b (.alu f)) m [0, 2, 4] m' ∧
    m'.pc = 6 ∧ m'.memory = m.memory ∧ m'.registers .r0 = f.apply a b := by
  have h₁ : (m.execute (.ldi .r0 a)).pc = 2 := by simp [execute, hpc]
  have h₂ : ((m.execute (.ldi .r0 a)).execute (.ldi .r1 b)).pc = 4 := by simp [execute, hpc]
  refine ⟨_, path_cons 0 (.ldi .r0 a) rfl hpc rfl nofun (path_cons 1 (.ldi .r1 b) rfl h₁ rfl nofun
    (path_cons 2 (.alu f .r0 .r1) rfl h₂ rfl nofun (.nil _))), ?_, rfl, ?_⟩
  · simp [execute, hpc]
  · simp +decide [execute, compute, setRegister]

/-- A machine at the start of a round of the product, with `n` more rounds to go. -/
structure AtRound (a : UInt8) (n : Nat) (m : Machine) : Prop where
  pc_eq : m.pc = 8
  addend : m.registers .r1 = a
  counter : m.registers .r2 = UInt8.ofNat n
  decrement : m.registers .r3 = 1

theorem setup_path (hpc : m.pc = 0) {n : Nat} (hn : UInt8.ofNat n = b) :
    ∃ m', Path (program a b .mul) m [0, 2, 4, 6] m' ∧ AtRound a n m' ∧ m'.memory = m.memory ∧
      m'.registers .r0 = 0 := by
  have h₁ : (m.execute (.ldi .r0 0)).pc = 2 := by simp [execute, hpc]
  have h₂ : ((m.execute (.ldi .r0 0)).execute (.ldi .r1 a)).pc = 4 := by simp [execute, hpc]
  have h₃ : (((m.execute (.ldi .r0 0)).execute (.ldi .r1 a)).execute (.ldi .r2 b)).pc = 6 := by simp [execute, hpc]
  refine ⟨_, path_cons 0 (.ldi .r0 0) rfl hpc rfl nofun (path_cons 1 (.ldi .r1 a) rfl h₁ rfl nofun
    (path_cons 2 (.ldi .r2 b) rfl h₂ rfl nofun (path_cons 3 (.ldi .r3 1) rfl h₃ rfl nofun (.nil _)))), ?_, rfl, ?_⟩
  · constructor <;> simp +decide [execute, setRegister, hpc, hn]
  · simp +decide [execute, setRegister]

/-- A round adds once and counts down; the branch behind it leaves the loop when the counter is zero. -/
theorem round_path {n : Nat} (h : AtRound a (n + 1) m) :
    ∃ m', Path (program a b .mul) m [8, 10, 12] m' ∧
      m'.pc = (if UInt8.ofNat n = 0 then 16 else 14) ∧ m'.memory = m.memory ∧ m'.registers .r0 = m.registers .r0 + a ∧
      m'.registers .r1 = a ∧ m'.registers .r2 = UInt8.ofNat n ∧ m'.registers .r3 = 1 := by
  have h₁ : (m.execute (.alu .add .r0 .r1)).pc = 10 := by simp [execute, h.pc_eq]
  have h₂ : ((m.execute (.alu .add .r0 .r1)).execute (.alu .sub .r2 .r3)).pc = 12 := by simp [execute, h.pc_eq]
  refine ⟨_, path_cons 4 (.alu .add .r0 .r1) rfl h.pc_eq rfl nofun (path_cons 5 (.alu .sub .r2 .r3) rfl h₁ rfl nofun
    (path_cons 6 (.brz 16) rfl h₂ rfl nofun (.nil _))), ?_, rfl, ?_, ?_, ?_, ?_⟩
  · simp +decide [execute, compute, setRegister, h.pc_eq, h.counter, h.decrement, Alu.apply]
  · simp +decide [execute, compute, setRegister, h.addend, Alu.apply]
  · simp +decide [execute, compute, setRegister, h.addend]
  · simp +decide [execute, compute, setRegister, h.counter, h.decrement, Alu.apply]
  · simp +decide [execute, compute, setRegister, h.decrement]

theorem count_round {c : UInt8} (hc : c ∈ [8, 10, 12]) :
    [0, 2, 4, 6].count c = 0 ∧ [8, 10, 12, 14].count c = 1 ∧ [16].count c = 0 := by
  simp only [List.mem_cons, List.not_mem_nil, or_false] at hc
  rcases hc with rfl | rfl | rfl <;> decide

/-- With `n` rounds to go, each instruction of the round is carried out `n` times, and `n` times the addend is added. -/
theorem loop_path {n : Nat} (hpos : 0 < n) (hle : n ≤ 256) (h : AtRound a n m) :
    ∃ addresses m', Path (program a b .mul) m addresses m' ∧ m'.pc = 16 ∧ m'.memory = m.memory ∧
      m'.registers .r0 = m.registers .r0 + UInt8.ofNat n * a ∧ ∀ c ∈ [8, 10, 12], addresses.count c = n := by
  induction n generalizing m with
  | zero => cases hpos
  | succ n ih =>
    obtain ⟨m₁, hround, hpc, hmem, hsum, haddend, hcounter, hdecrement⟩ := round_path h
    by_cases hz : n = 0
    · subst hz
      refine ⟨_, m₁, hround, by simpa using hpc, hmem, by simpa using hsum, by simp⟩
    · have hne : UInt8.ofNat n ≠ 0 := by
        intro he
        have hmod := congrArg UInt8.toNat he
        simp only [UInt8.toNat_ofNat', UInt8.toNat_zero] at hmod
        omega
      rw [if_neg hne] at hpc
      have hnext : AtRound a n (m₁.execute (.jmp 8)) := ⟨rfl, haddend, hcounter, hdecrement⟩
      obtain ⟨addresses, m₂, hpath, hend, hmem₂, hsum₂, hcount⟩ := ih (Nat.pos_of_ne_zero hz) (by omega) hnext
      have hback := path_cons 7 (.jmp 8) rfl hpc rfl (by decide) hpath
      refine ⟨_, m₂, hround.append hback, hend, hmem₂.trans hmem, ?_, ?_⟩
      · have hstep : (m₁.execute (.jmp 8)).registers .r0 = m.registers .r0 + a := hsum
        rw [hsum₂, hstep, UInt8.ofNat_add]
        grind
      · intro c hc
        change ([8, 10, 12, 14] ++ addresses).count c = n + 1
        rw [List.count_append, (count_round hc).2.1, hcount c hc, Nat.add_comm]

/-- How often a counter that starts at `b` is lowered before it is zero. -/
def rounds (b : UInt8) : Nat := if b = 0 then 256 else b.toNat

theorem ofNat_rounds (b : UInt8) : UInt8.ofNat (rounds b) = b := by
  unfold rounds
  split
  · subst b
    rfl
  · simp

theorem rounds_pos (b : UInt8) : 0 < rounds b := by
  unfold rounds
  split
  · decide
  · exact UInt8.pos_iff_ne_zero.mpr ‹_›

theorem rounds_le (b : UInt8) : rounds b ≤ 256 := by
  unfold rounds
  split
  · exact Nat.le_refl 256
  · exact Nat.le_of_lt b.toNat_lt

/-- The first part of a calculation leaves the result in R0 and the memory as it was. -/
theorem computing_path (op : Operator) (hpc : m.pc = 0) :
    ∃ addresses m', Path (program a b op) m addresses m' ∧ m'.pc = storeAddress op ∧
      m'.memory = m.memory ∧ m'.registers .r0 = op.apply a b ∧
      (op = .mul → ∀ c ∈ [8, 10, 12], addresses.count c = rounds b) := by
  cases op with
  | alu f =>
    obtain ⟨m', hpath, hend, hmem, hresult⟩ := alu_path f hpc
    exact ⟨_, m', hpath, hend, hmem, hresult.trans (congrFun₂ (Operator.apply_alu f) a b).symm, nofun⟩
  | mul =>
    obtain ⟨m₁, hsetup, hround, hmem, hzero⟩ := setup_path hpc (ofNat_rounds b)
    obtain ⟨addresses, m₂, hloop, hend, hmem₂, hsum, hcount⟩ := loop_path (rounds_pos b) (rounds_le b) hround
    refine ⟨_, m₂, hsetup.append hloop, hend, hmem₂.trans hmem, ?_, ?_⟩
    · rw [hsum, hzero, ofNat_rounds, UInt8.zero_add, UInt8.mul_comm]
      rfl
    · intro _ c hc
      rw [List.count_append, (count_round hc).1, hcount c hc, Nat.zero_add]

theorem current?_store (hpc : m.pc = storeAddress op) :
    m.current? (program a b op) = some (.st .r0 resultAddress) := by
  cases op with
  | alu f => exact current?_instructions 3 _ rfl hpc rfl
  | mul => exact current?_instructions 8 _ rfl hpc rfl

theorem idle_of_pc (hpc : m.pc = storeAddress op + 2) : m.Idle (program a b op) := by
  rw [idle_iff, hpc]
  cases op with
  | alu f => exact current?_instructions 4 _ rfl hpc rfl
  | mul => exact current?_instructions 9 _ rfl hpc rfl

/-- A calculation stores its result, changes no other cell, and comes to a jump to itself. -/
theorem calculation_path (op : Operator) (hpc : m.pc = 0) :
    ∃ addresses m', Path (program a b op) m addresses m' ∧
      m'.Idle (program a b op) ∧ m'.memory resultAddress = op.apply a b ∧
      (∀ c, c ≠ resultAddress → m'.memory c = m.memory c) ∧
      (op = .mul → ∀ c ∈ [8, 10, 12], addresses.count c = rounds b) := by
  obtain ⟨addresses, m₁, hpath, hend, hmem, hresult, hcount⟩ := computing_path (a := a) (b := b) op hpc
  have hidle : (m₁.execute (.st .r0 resultAddress)).pc = storeAddress op + 2 := congrArg (· + 2) hend
  have hstore : Path (program a b op) m₁ [storeAddress op] (m₁.execute (.st .r0 resultAddress)) :=
    .step hend (current?_store hend) nofun (.nil _)
  refine ⟨_, _, hpath.append hstore, idle_of_pc hidle, ?_, ?_, ?_⟩
  · simpa [execute, setMemory] using hresult
  · intro c hc
    simp [execute, setMemory, hc, hmem]
  · intro hmul c hc
    rw [List.count_append, hcount hmul c hc]
    subst hmul
    exact congrArg (rounds b + ·) (count_round hc).2.2

end Running

/-- In `n` instructions the machine gets from `m` to `m'`, where it idles for the first time, with the result in its
cell and nothing else in memory changed. -/
structure Computes (program : List UInt8) (op : Operator) (a b : UInt8) (m : Machine) (n : Nat) (m' : Machine) :
    Prop where
  run_eq : m.run? program n = some m'
  idle : m'.Idle program
  not_idle : ∀ k < n, ∀ x, m.run? program k = some x → ¬ x.Idle program
  result : m'.memory resultAddress = op.apply a b
  unchanged : ∀ c, c ≠ resultAddress → m'.memory c = m.memory c

theorem resolveLabels_source (a b : Int) (op : Operator) :
    resolveLabels (source a b op) = resolve (numbered (statements a b op)) := by
  rw [resolveLabels, source, statements_sourceOf (printable_statements a b op)]
  rfl

/-- For the six operators, with blanks around them or not, there is a program that computes the operator on the two
numbers modulo 256 from any machine at address zero. A product carries out the three instructions behind its loop label
as often as the second number says, or 256 times if that is zero. Other symbols are refused by their trimmed text. -/
theorem calculation_computes_operator (a b : Int) (symbol : List Char) :
    (∀ op : Operator, trim symbol = op.symbol → ∃ source program labels,
      sourceFor a b symbol = .ok source ∧ assemble source = .ok program ∧ resolveLabels source = .ok labels ∧
      ∀ m : Machine, m.pc = 0 → ∃ n m', Computes program op (UInt8.ofInt a) (UInt8.ofInt b) m n m' ∧
        (op = .mul → ∃ start, labels.get? loopLabel = some start ∧
          ∀ c ∈ [start, start + 2, start + 4], (m.trace program n).count c = rounds (UInt8.ofInt b))) ∧
    ((∀ op : Operator, trim symbol ≠ op.symbol) → sourceFor a b symbol = .error (.unsupported (trim symbol))) := by
  constructor
  · intro op hop
    obtain ⟨labels, hl⟩ := exists_resolve a b op
    have hsource : sourceFor a b symbol = .ok (source a b op) := by
      rw [sourceFor, Operator.ofSymbol?_eq_some_iff.mpr hop]
    have hprogram := assemble_sourceOf (printable_statements a b op) hl (yields_instructions hl)
    refine ⟨source a b op, _, labels, hsource, hprogram, (resolveLabels_source a b op).trans hl, ?_⟩
    intro m hpc
    obtain ⟨addresses, m', hpath, hidle, hresult, hunchanged, hcount⟩ :=
      calculation_path (a := UInt8.ofInt a) (b := UInt8.ofInt b) op hpc
    refine ⟨addresses.length, m', ⟨hpath.run?_eq, hidle, fun _ hk _ => hpath.not_idle hk, hresult, hunchanged⟩, ?_⟩
    rintro rfl
    refine ⟨8, get?_label hl 4 rfl rfl, ?_⟩
    rw [hpath.trace_eq]
    exact hcount rfl
  · intro hne
    have hnone : Operator.ofSymbol? (trim symbol) = none := by
      apply Option.eq_none_iff_forall_ne_some.mpr
      intro op hop
      exact hne op (Operator.ofSymbol?_eq_some_iff.mp hop)
    rw [sourceFor, hnone]

theorem product_by_zero_takes_256_rounds : ∃ source program labels,
    sourceFor (-3) 0 " *\t".toList = .ok source ∧ assemble source = .ok program ∧ resolveLabels source = .ok labels ∧
      ∀ m : Machine, m.pc = 0 → ∃ n m', Computes program .mul 253 0 m n m' ∧
        ∃ start, labels.get? loopLabel = some start ∧ (m.trace program n).count start = 256 := by
  obtain ⟨source, program, labels, hs, hp, hl, hrun⟩ :=
    (calculation_computes_operator (-3) 0 " *\t".toList).1 .mul (by decide)
  refine ⟨source, program, labels, hs, hp, hl, ?_⟩
  intro m hpc
  obtain ⟨n, m', hc, hloop⟩ := hrun m hpc
  obtain ⟨start, hstart, hcount⟩ := hloop rfl
  exact ⟨n, m', hc, start, hstart, hcount start List.mem_cons_self⟩

end Calculation

end ByteMachine
