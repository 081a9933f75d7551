import ByteMachine.Proofs.InstructionStreams
import ByteMachine.Proofs.LabelPositions

/-! # Decoded operands: an instruction is decoded to what its words were read as, at any address -/
namespace ByteMachine

open Text

/-- What the words behind a mnemonic stand for, by the form of its operands. Both kinds of jump have the address that
they go to. -/
inductive OperandsMean (labels : LabelTable) : Form → List Token → List Operand → Prop
  | bare : OperandsMean labels .bare [] []
  | regImm {rd v r b} (register : Register.ofName? rd = some r) (value : valueOf labels v = .ok b) :
      OperandsMean labels .regImm [rd, v] [.reg r, .imm b]
  | regReg {rd rs r q} (first : Register.ofName? rd = some r) (second : Register.ofName? rs = some q) :
      OperandsMean labels .regReg [rd, rs] [.reg r, .reg q]
  | regMem {rd a inner r b} (register : Register.ofName? rd = some r) (inside : unbracket? a = some inner)
      (value : valueOf labels inner = .ok b) : OperandsMean labels .regMem [rd, a] [.reg r, .mem b]
  | absolute {t b} (value : valueOf labels t = .ok b) : OperandsMean labels .absolute [t] [.addr b]
  | relative {t b} (value : valueOf labels t = .ok b) : OperandsMean labels .relative [t] [.addr b]

theorem Reads.operandsMean {labels : LabelTable} {op : Opcode} {operands : List Token} {i : Instruction}
    (h : Reads labels op operands i) : OperandsMean labels op.form operands i.operands := by
  cases h with
  | nop => exact .bare
  | ldi register value => exact .regImm (registerOf_eq_ok_iff.mp register) value
  | alu first second => exact .regReg (registerOf_eq_ok_iff.mp first) (registerOf_eq_ok_iff.mp second)
  | ld register cell =>
    obtain ⟨inner, hinside, hvalue⟩ := cellOf_eq_ok_iff.mp cell
    exact .regMem (registerOf_eq_ok_iff.mp register) hinside hvalue
  | st register cell =>
    obtain ⟨inner, hinside, hvalue⟩ := cellOf_eq_ok_iff.mp cell
    exact .regMem (registerOf_eq_ok_iff.mp register) hinside hvalue
  | jmp target => exact .absolute target
  | brz target => exact .relative target

theorem Instruction.tokens_text (i : Instruction) : tokens i.text = i.opcode.name :: i.operands.map Operand.text := by
  rw [← i.text_statement]
  exact Statement.tokens_text_instruction i.printable_statement.1

theorem Instruction.encode_printed {source : List Char} {labels : LabelTable}
    (h : resolveLabels source = .ok labels) (pc : Nat) (i : Instruction) :
    ByteMachine.encode labels pc i.opcode.name (i.operands.map Operand.text) = .ok (i.encode pc) := by
  obtain ⟨ss, hs, hl⟩ := bind_eq_ok_iff.mp h
  have hnumeral : ∀ t n, Denotes t n → labels.get? t = none :=
    fun t n hd => get?_eq_none_of_numeral? hs hl (numeral?_of_denotes hd)
  rw [ByteMachine.encode, i.readInstruction_statement hnumeral]
  rfl

/-- What a mnemonic and its words are encoded as is decoded at the same address, whatever follows it, to the opcode of
that name and to the operands that the words stand for. The words of what was decoded, printed, are encoded there as the
same bytes with the labels of any source. -/
theorem decodeNext_undoes_encode {labels : LabelTable} {pc : Nat} {mnemonic : Token} {operands : List Token}
    {bytes : List UInt8} (h : encode labels pc mnemonic operands = .ok bytes) :
    ∃ i, Opcode.ofName? mnemonic = some i.opcode ∧ OperandsMean labels i.opcode.form operands i.operands ∧
      (∀ rest, decodeNext pc (bytes ++ rest) = (.ok (some ⟨pc, bytes, i⟩), rest)) ∧
      ∃ name words, tokens i.text = name :: words ∧
        ∀ source labels', resolveLabels source = .ok labels' → encode labels' pc name words = .ok bytes := by
  obtain ⟨op, i, hop, hi, rfl⟩ := encode_eq_ok_iff.mp h
  obtain rfl := hi.opcode_eq
  refine ⟨i, hop, hi.operandsMean, fun rest => decodeNext_encode pc i rest, _, _, i.tokens_text, ?_⟩
  intro source labels' hl
  exact i.encode_printed hl pc

/-- A branch at the last even address of a word, to a label close to the first one. -/
theorem branch_around_the_end_of_memory :
    let source := "nop\nloop:".toList
    let pc := 0xFFFFFFFFFFFFFFFE
    ∃ labels, resolveLabels source = .ok labels ∧ encode labels pc "bRz".toList ["loop".toList] = .ok [0x90, 0x01] ∧
      (∀ rest, decodeNext pc (0x90 :: 0x01 :: rest) = (.ok (some ⟨pc, [0x90, 0x01], .brz 0x01⟩), rest)) ∧
      encode labels pc "BRZ".toList ["0x01".toList] = .ok [0x90, 0x01] := by
  intro source pc
  have hrun : (resolveLabels source).toOption.map (fun labels => encode labels pc "bRz".toList ["loop".toList]) =
      some (.ok [0x90, 0x01]) := by decide +kernel
  obtain ⟨labels, hlabels, hencode⟩ := Option.map_eq_some_iff.mp hrun
  have hresolve : resolveLabels source = .ok labels := by
    cases hr : resolveLabels source with
    | ok t => simpa [hr, Except.toOption] using hlabels
    | error e => simp [hr, Except.toOption] at hlabels
  obtain ⟨i, -, -, hdecode, name, words, htokens, hback⟩ := decodeNext_undoes_encode hencode
  have hfound : decodeNext pc [0x90, 0x01] = (.ok (some ⟨pc, [0x90, 0x01], .brz 0x01⟩), []) := by decide +kernel
  obtain rfl : i = .brz 0x01 := by simpa using (hdecode []).symm.trans hfound
  rw [Instruction.tokens_text] at htokens
  obtain ⟨rfl, rfl⟩ := List.cons_eq_cons.mp htokens
  exact ⟨labels, hresolve, hencode, hdecode, hback source labels hresolve⟩

end ByteMachine
