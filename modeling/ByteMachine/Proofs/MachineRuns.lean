import ByteMachine.Machine
import ByteMachine.Proofs.InstructionStreams

/-! # Machine runs: what a machine does with a stream of instructions, and where it passes until it idles

The machine takes bytes apart by tables of its own. They agree with those of the instructions: a step carries out the
instruction that stands under the program counter. -/
namespace ByteMachine

def Alu.apply : Alu → UInt8 → UInt8 → UInt8
  | .add, a, b => a + b
  | .sub, a, b => a - b
  | .and, a, b => a &&& b
  | .or, a, b => a ||| b
  | .xor, a, b => a ^^^ b

namespace Machine

/-- The instruction under the program counter, if the byte there starts one. -/
def current? (program : List UInt8) (m : Machine) : Option Instruction :=
  let b₀ := fetch program m.pc
  (Opcode.ofByte? b₀).map fun op => Instruction.decode m.pc.toNat op b₀ (fetch program (m.pc + 1))

def execute (m : Machine) : Instruction → Machine
  | .nop => { m with pc := m.pc + 1 }
  | .ldi rd v => { m.setRegister rd v with pc := m.pc + 2 }
  | .alu f rd rs => { m.compute f.apply rd rs with pc := m.pc + 2 }
  | .ld rd a => { m.setRegister rd (m.memory a) with pc := m.pc + 2 }
  | .st rd a => { m.setMemory a (m.registers rd) with pc := m.pc + 2 }
  | .brz t => { m with pc := if m.zero then t else m.pc + 2 }
  | .jmp t => { m with pc := t }

theorem branchTarget_toNat (pc offset : UInt8) : Address.branchTarget pc.toNat offset = pc + 2 + offset := by
  simp [Address.branchTarget, Address.wrap]

theorem exists_code (b : UInt8) : ∃ n < 16, b >>> 4 = UInt8.ofNat n := by
  have hb := b.toNat_lt
  refine ⟨(b >>> 4).toNat, ?_, UInt8.ofNat_toNat.symm⟩
  simp only [UInt8.toNat_shiftRight, UInt8.reduceToNat, Nat.reduceMod, Nat.shiftRight_eq_div_pow]
  omega

/-- The machine and the table of opcodes take the same bytes for the same instructions, and both stop at the same. -/
theorem step?_eq_map (program : List UInt8) (m : Machine) : m.step? program = (m.current? program).map m.execute := by
  have hbranch := branchTarget_toNat m.pc (fetch program (m.pc + 1))
  obtain ⟨n, hn, hcode⟩ := exists_code (fetch program m.pc)
  simp only [step?, current?, Opcode.ofByte?, Opcode.codeIn, hcode]
  interval_cases n
  case «9» =>
    change some _ = some (m.execute (.brz (Address.branchTarget m.pc.toNat (fetch program (m.pc + 1)))))
    rw [hbranch]
    rfl
  all_goals rfl

theorem idle_iff {program : List UInt8} {m : Machine} : m.Idle program ↔ m.current? program = some (.jmp m.pc) := by
  obtain ⟨n, hn, hcode⟩ := exists_code (fetch program m.pc)
  simp only [Idle, current?, Opcode.ofByte?, Opcode.codeIn, hcode]
  interval_cases n
  all_goals simp [Opcode.ofCode?, Opcode.all, Opcode.code, Instruction.decode]

/-- The addresses of the first `n` instructions. -/
def trace (program : List UInt8) : Nat → Machine → List UInt8
  | 0, _ => []
  | n + 1, m =>
    match m.step? program with
    | some next => m.pc :: trace program n next
    | none => []

/-- A run through these addresses that never idles on its way. -/
inductive Path (program : List UInt8) : Machine → List UInt8 → Machine → Prop
  | nil (m) : Path program m [] m
  | cons {m m' i addresses} (current : m.current? program = some i) (moves : i ≠ .jmp m.pc)
      (rest : Path program (m.execute i) addresses m') : Path program m (m.pc :: addresses) m'

variable {program : List UInt8} {m m' m'' : Machine} {addresses : List UInt8}

namespace Path

theorem step {pc : UInt8} (hpc : m.pc = pc) {i : Instruction} (current : m.current? program = some i)
    (moves : i ≠ .jmp pc) (rest : Path program (m.execute i) addresses m') : Path program m (pc :: addresses) m' := by
  subst hpc
  exact .cons current moves rest

theorem append {more : List UInt8} (h : Path program m addresses m') (h' : Path program m' more m'') :
    Path program m (addresses ++ more) m'' := by
  induction h with
  | nil m => exact h'
  | cons current moves rest ih => exact .cons current moves (ih h')

theorem run?_eq (h : Path program m addresses m') : m.run? program addresses.length = some m' := by
  induction h with
  | nil m => rfl
  | cons current moves rest ih => simpa [run?, step?_eq_map, current] using ih

theorem trace_eq (h : Path program m addresses m') : m.trace program addresses.length = addresses := by
  induction h with
  | nil m => rfl
  | cons current moves rest ih => simpa [trace, step?_eq_map, current] using ih

theorem not_idle (h : Path program m addresses m') {k : Nat} (hk : k < addresses.length) {x : Machine}
    (hx : m.run? program k = some x) : ¬ x.Idle program := by
  induction h generalizing k with
  | nil m => simp at hk
  | @cons m _ i _ current moves rest ih =>
    cases k with
    | zero =>
      obtain rfl : m = x := by simpa [run?] using hx
      intro hidle
      exact moves (Option.some.inj (current.symm.trans (idle_iff.mp hidle)))
    | succ k =>
      have hrest : (m.execute i).run? program k = some x := by simpa [run?, step?_eq_map, current] using hx
      exact ih (Nat.lt_of_succ_lt_succ hk) hrest

end Path

theorem fetch_append (before after : List UInt8) (b : UInt8) {a : UInt8} (ha : a.toNat = before.length) :
    fetch (before ++ b :: after) a = b := by
  simp [fetch, ha]

theorem current?_of_encode {before after : List UInt8} {i : Instruction}
    (hsize : before.length + (i.encode before.length).length ≤ 256) {m : Machine}
    (hpc : m.pc = UInt8.ofNat before.length) : m.current? (before ++ (i.encode before.length ++ after)) = some i := by
  have hpos : 0 < (i.encode before.length).length := by cases i <;> simp [Instruction.encode]
  have hn : m.pc.toNat = before.length := by
    rw [hpc, UInt8.toNat_ofNat']
    omega
  rcases i.encode_cases before.length with rfl | ⟨b₀, b₁, he, -, hop, hd⟩
  · have hb₀ : fetch (before ++ (Instruction.nop.encode before.length ++ after)) m.pc = Opcode.nop.header :=
      fetch_append before after Opcode.nop.header hn
    simp only [current?, hb₀, Opcode.ofByte?_header, Option.map_some, Instruction.decode]
  · rw [he] at hsize ⊢
    have hn' : (m.pc + 1).toNat = (before ++ [b₀]).length := by
      rw [UInt8.toNat_add, hn, List.length_append]
      simp only [List.length_cons, List.length_nil, UInt8.reduceToNat] at hsize ⊢
      omega
    have hb₀ := fetch_append before (b₁ :: after) b₀ hn
    have hb₁ : fetch (before ++ b₀ :: b₁ :: after) (m.pc + 1) = b₁ := by
      simpa using fetch_append (before ++ [b₀]) after b₁ hn'
    simp only [current?, List.cons_append, List.nil_append, hb₀, hb₁, hop, Option.map_some, hn, hd]

/-- A machine at the address of an instruction carries it out, if addresses of the program fit in a byte. -/
theorem current?_encodeFrom {is : List Instruction} (hsize : (encodeFrom 0 is).length ≤ 256) {k : Nat} {i : Instruction}
    (hi : is[k]? = some i) {m : Machine} (hpc : m.pc = UInt8.ofNat (encodeFrom 0 (is.take k)).length) :
    m.current? (encodeFrom 0 is) = some i := by
  obtain ⟨hk, rfl⟩ := List.getElem?_eq_some_iff.mp hi
  have hsplit : encodeFrom 0 is = encodeFrom 0 (is.take k) ++ (is[k].encode (encodeFrom 0 (is.take k)).length ++
      encodeFrom ((encodeFrom 0 (is.take k)).length + is[k].opcode.length) (is.drop (k + 1))) := by
    conv_lhs =>
      rw [← List.take_append_drop k is, List.drop_eq_getElem_cons hk, encodeFrom_append, Nat.zero_add, encodeFrom]
  rw [hsplit] at hsize ⊢
  apply current?_of_encode _ hpc
  simp only [List.length_append] at hsize
  omega

end Machine

end ByteMachine
