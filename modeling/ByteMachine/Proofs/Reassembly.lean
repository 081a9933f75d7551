import ByteMachine.Proofs.InstructionStreams
import ByteMachine.Proofs.InstructionText

/-! # Reassembly: the instructions of an assembled program, printed, assemble to the same program -/
namespace ByteMachine

open Text

theorem yields_statements {labels : LabelTable} (h : ∀ name, labels.get? name = none) (is : List Instruction) :
    Yields labels (is.map Instruction.statement) is := by
  induction is with
  | nil => exact .nil
  | cons i is ih => exact .instruction (i.readInstruction_statement fun t _ _ => h t) ih

theorem labelNames_statements (is : List Instruction) : labelNames (is.map Instruction.statement) = [] := by
  induction is with
  | nil => rfl
  | cons i is ih => exact ih

/-- Printed instructions assemble to the stream of their bytes. -/
theorem assemble_statements (is : List Instruction) :
    assemble (sourceOf (is.map Instruction.statement)) = .ok (encodeFrom 0 is) := by
  have hprintable : ∀ s ∈ is.map Instruction.statement, s.Printable :=
    List.forall_mem_map.mpr fun i _ => i.printable_statement
  have hnodup : (labelNames (values (numbered (is.map Instruction.statement)))).Nodup := by
    simp [labelNames_statements]
  obtain ⟨labels, hl⟩ := exists_resolve_iff.mpr hnodup
  have hnone (name : Token) : labels.get? name = none := by
    apply get?_eq_none hl
    simp [Instruction.statement]
  exact assemble_sourceOf hprintable hl (yields_statements hnone is)

theorem reassembly_eq_sourceOf (ds : List Decoded) :
    reassembly ds = sourceOf ((ds.map (·.instruction)).map Instruction.statement) := by
  rw [reassembly, sourceOf, List.map_map, List.map_map]
  congr 1
  exact List.map_congr_left fun d _ => d.instruction.text_statement.symm

theorem reassembly_decodedFrom (pc : Nat) (is : List Instruction) :
    reassembly (decodedFrom pc is) = sourceOf (is.map Instruction.statement) := by
  rw [reassembly_eq_sourceOf, map_instruction_decodedFrom]

/-- Whatever the assembler gives can be disassembled, and the instructions found, printed one on each line, assemble to
it again, byte for byte. -/
theorem assemble_reassembly {source : List Char} {program : List UInt8} (h : assemble source = .ok program) :
    ∃ ds, disassemble program = .ok ds ∧ assemble (reassembly ds) = .ok program := by
  obtain ⟨ss, labels, -, -, hg⟩ := assemble_eq_ok_iff.mp h
  obtain ⟨is, -, rfl⟩ := generate_eq_ok_iff_yields.mp hg
  refine ⟨decodedFrom 0 is, disassemble_encodeFrom is, ?_⟩
  rw [reassembly_decodedFrom, assemble_statements]

theorem assemble_reassembly_beyond_a_page :
    let source := "back:\n".toList ++ (List.replicate 130 "ldi r1 -1\n".toList).flatten ++
      "BRZ back\nJMP end ; forward\nend: \n LD R2,[back]".toList
    let program := (List.replicate 130 [0x12, 0xFF]).flatten ++ [0x90, 250, 0xA0, 8, 0x74, 0]
    assemble source = .ok program ∧ ∃ ds, disassemble program = .ok ds ∧ assemble (reassembly ds) = .ok program := by
  intro source program
  have h : assemble source = .ok program := by decide +kernel
  exact ⟨h, assemble_reassembly h⟩

end ByteMachine
