import ByteMachine.Proofs.Partitions

/-! # Concatenation: a program behind another one has the instructions and the errors that it has alone, further on

Where an instruction ends depends on its bytes only. Where a branch goes depends on its address too, modulo 256. -/
namespace ByteMachine

/-- The same bytes `k` addresses further on: a branch goes as much further, and nothing else changes. -/
def Instruction.shift (k : UInt8) : Instruction → Instruction
  | brz target => brz (target + k)
  | i => i

/-- What is found in the same bytes when they stand `n` addresses further on. -/
def Decoded.shift (n : Nat) (d : Decoded) : Decoded where
  address := d.address + n
  raw := d.raw
  instruction := d.instruction.shift (Address.wrap n)

def DecodeError.shift (n : Nat) : DecodeError → DecodeError
  | invalidOpcode address byte => invalidOpcode (address + n) byte
  | truncated address => truncated (address + n)

theorem Address.branchTarget_add (pc n : Nat) (offset : UInt8) :
    branchTarget (pc + n) offset = branchTarget pc offset + wrap n := by
  simp only [branchTarget, wrap_add]
  grind

theorem Instruction.decode_add (pc n : Nat) (op : Opcode) (b₀ b₁ : UInt8) :
    decode (pc + n) op b₀ b₁ = (decode pc op b₀ b₁).shift (Address.wrap n) := by
  cases op with
  | brz => exact congrArg brz (Address.branchTarget_add pc n b₁)
  | nop | ldi | alu | ld | st | jmp => rfl

theorem decodeNext_add {pc : Nat} {bytes rest : List UInt8} {d : Decoded}
    (h : decodeNext pc bytes = (.ok (some d), rest)) (n : Nat) :
    decodeNext (pc + n) bytes = (.ok (some (d.shift n)), rest) := by
  obtain ⟨op, b₀, more, hop, hlength, hbytes, rfl⟩ := decodeNext_eq_some_iff.mp h
  refine decodeNext_eq_some_iff.mpr ⟨op, b₀, more, hop, hlength, hbytes, ?_⟩
  rw [Instruction.decode_add]
  rfl

theorem decodeNext_error_add {pc : Nat} {bytes rest : List UInt8} {e : DecodeError}
    (h : decodeNext pc bytes = (.error e, rest)) (n : Nat) :
    ∃ rest', decodeNext (pc + n) bytes = (.error (e.shift n), rest') := by
  obtain ⟨b, behind, hbytes, hfails⟩ := decodeNext_eq_error_iff.mp ⟨rest, h⟩
  refine decodeNext_eq_error_iff.mpr ⟨b, behind, hbytes, ?_⟩
  obtain ⟨hcode, rfl⟩ | ⟨hcode, hend, rfl⟩ := hfails
  · exact .inl ⟨hcode, rfl⟩
  · exact .inr ⟨hcode, hend, rfl⟩

theorem Decodes.shift {pc : Nat} {bytes : List UInt8} {ds : List Decoded} (h : Decodes pc bytes ds) (n : Nat) :
    Decodes (pc + n) bytes (ds.map (Decoded.shift n)) := by
  induction h with
  | nil pc => exact .nil (pc + n)
  | cons first more ih =>
    refine .cons (decodeNext_add first n) ?_
    rw [Nat.add_right_comm]
    exact ih

theorem disassembleFrom_error_add {found : Array Decoded} {pc : Nat} {bytes : List UInt8} {e : DecodeError}
    (h : disassembleFrom found pc bytes = .error e) (found' : Array Decoded) (n : Nat) :
    disassembleFrom found' (pc + n) bytes = .error (e.shift n) := by
  obtain ⟨front, back, ds, rest, hbytes, hds, hback⟩ := disassembleFrom_eq_error_iff.mp h
  obtain ⟨rest', hback'⟩ := decodeNext_error_add hback n
  rw [Nat.add_right_comm] at hback'
  exact disassembleFrom_eq_error_iff.mpr ⟨front, back, _, rest', hbytes, hds.shift n, hback'⟩

/-- Behind a program that can be disassembled, another one is disassembled as it is alone: its instructions have the same
bytes and names, stand further on by the length of the first program, and differ in the targets of branches only, which
are further on by that length modulo 256. If it cannot be disassembled alone, neither can both together, and the error is
the same at an address that is further on by that length. -/
theorem disassemble_append_shifts {front : List UInt8} {ds : List Decoded} (h : disassemble front = .ok ds)
    (program : List UInt8) :
    (∀ es, disassemble program = .ok es →
      disassemble (front ++ program) = .ok (ds ++ es.map (Decoded.shift front.length))) ∧
    ∀ e, disassemble program = .error e → disassemble (front ++ program) = .error (e.shift front.length) := by
  have hfront := disassemble_eq_ok_iff.mp h
  have hjoined : disassemble (front ++ program) = disassembleFrom (#[] ++ ds) (0 + front.length) program :=
    hfront.disassembleFrom_append #[] program
  constructor
  · intro es hes
    have hshifted := (disassemble_eq_ok_iff.mp hes).shift front.length
    rw [hjoined, hshifted.disassembleFrom_eq]
    simp
  · intro e he
    rw [hjoined, disassembleFrom_error_add he]

/-- Behind more than a page of code: a branch to before the start and a jump to a fixed address, a byte that starts no
instruction, and a branch without its second byte. -/
theorem programs_behind_a_page :
    let front := encodeFrom 0 (List.replicate 130 (.ldi 1 0xFF))
    let ds := decodedFrom 0 (List.replicate 130 (.ldi 1 0xFF))
    front.length = 260 ∧ disassemble front = .ok ds ∧
      disassemble (front ++ [0x0F, 0x9B, 0xFC, 0xA0, 0x05]) =
        .ok (ds ++ [⟨260, [0x0F], .nop⟩, ⟨261, [0x9B, 0xFC], .brz 0x03⟩, ⟨263, [0xA0, 0x05], .jmp 0x05⟩]) ∧
      disassemble (front ++ [0x00, 0xB5, 0xA0]) = .error (.invalidOpcode 261 0xB5) ∧
      disassemble (front ++ [0x00, 0x9B]) = .error (.truncated 261) := by
  intro front ds
  have hlength : front.length = 260 := by
    rw [length_encodeFrom, List.map_replicate, List.sum_replicate]
    rfl
  have hfront : disassemble front = .ok ds := disassemble_encodeFrom _
  have hwhole : disassemble [0x0F, 0x9B, 0xFC, 0xA0, 0x05] =
      .ok [⟨0, [0x0F], .nop⟩, ⟨1, [0x9B, 0xFC], .brz 0xFF⟩, ⟨3, [0xA0, 0x05], .jmp 0x05⟩] :=
    disassemble_eq_ok_iff.mpr (.cons rfl (.cons rfl (.cons rfl (.nil _))))
  have hstart : disassemble [0x00] = .ok [⟨0, [0x00], .nop⟩] := disassemble_eq_ok_iff.mpr (.cons rfl (.nil _))
  have hundefined : FailsAt [0x00, 0xB5, 0xA0] 1 (.invalidOpcode 1 0xB5) := .invalidOpcode hstart rfl (by decide)
  have hshort : FailsAt [0x00, 0x9B] 1 (.truncated 1) := .truncated hstart rfl (by decide) rfl
  have happend := (disassemble_append_shifts hfront _).1 _ hwhole
  have hfails := (disassemble_append_shifts hfront _).2 _ (disassemble_eq_error_iff.mpr ⟨1, hundefined⟩)
  have hfails' := (disassemble_append_shifts hfront _).2 _ (disassemble_eq_error_iff.mpr ⟨1, hshort⟩)
  rw [hlength] at happend hfails hfails'
  exact ⟨hlength, hfront, happend, hfails, hfails'⟩

end ByteMachine
