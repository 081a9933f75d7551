import ByteMachine.Proofs.CanonicalPrograms

/-! # Partitions: disassembly cuts a program into the bytes of its instructions, or stops at the byte where it cannot -/
namespace ByteMachine

namespace Opcode

theorem toNat_codeIn (b : UInt8) : (codeIn b).toNat = b.toNat / 16 := by
  rw [codeIn, UInt8.toNat_shiftRight, Nat.shiftRight_eq_div_pow]
  rfl

theorem ofByte?_eq_some_iff {b : UInt8} {op : Opcode} : ofByte? b = some op ↔ op.code.toNat = b.toNat / 16 := by
  rw [← toNat_codeIn, UInt8.toNat_inj]
  constructor
  · intro h
    have hcode := List.find?_some h
    exact beq_iff_eq.mp hcode
  · intro h
    rw [ofByte?, ← h, ofCode?_code]

theorem code_le (op : Opcode) : op.code.toNat ≤ 10 := by
  rcases op with _ | _ | f | _ | _ | _ | _ <;> first | decide | (cases f <;> decide)

theorem code_eq_zero_iff {op : Opcode} : op.code.toNat = 0 ↔ op = .nop := by
  rcases op with _ | _ | f | _ | _ | _ | _ <;> first | decide | (cases f <;> decide)

theorem ofByte?_eq_none_iff {b : UInt8} : ofByte? b = none ↔ 10 < b.toNat / 16 := by
  revert b
  decide +kernel

end Opcode

/-- All that a step can find: an opcode, as many bytes as it takes, and the rest behind them. -/
theorem decodeNext_eq_some_iff {pc : Nat} {bytes rest : List UInt8} {d : Decoded} :
    decodeNext pc bytes = (.ok (some d), rest) ↔ ∃ op b₀ more, Opcode.ofByte? b₀ = some op ∧
      (b₀ :: more).length = op.length ∧ bytes = b₀ :: more ++ rest ∧
      d = ⟨pc, b₀ :: more, .decode pc op b₀ (more.headD 0)⟩ := by
  constructor
  · intro h
    obtain ⟨b, rfl, hop, rfl⟩ | ⟨b₀, b₁, op, rfl, hop, hne, rfl⟩ := decodeNext_cases h
    · exact ⟨.nop, b, [], hop, rfl, rfl, rfl⟩
    · exact ⟨op, b₀, [b₁], hop, (length_of_ne_nop hne).symm, rfl, rfl⟩
  · rintro ⟨op, b₀, more, hop, hlength, rfl, rfl⟩
    by_cases hnop : op = .nop
    · subst hnop
      obtain rfl : more = [] := List.length_eq_zero_iff.mp (Nat.succ.inj hlength)
      simp [decodeNext, hop, Instruction.decode]
    · rw [length_of_ne_nop hnop] at hlength
      obtain ⟨b₁, rfl⟩ := List.length_eq_one_iff.mp (Nat.succ.inj hlength)
      simp [decodeNext, hop]

theorem decodeNext_eq_error_iff {pc : Nat} {bytes : List UInt8} {e : DecodeError} :
    (∃ rest, decodeNext pc bytes = (.error e, rest)) ↔ ∃ b rest, bytes = b :: rest ∧
      ((10 < b.toNat / 16 ∧ e = .invalidOpcode pc b) ∨
        ((1 ≤ b.toNat / 16 ∧ b.toNat / 16 ≤ 10) ∧ rest = [] ∧ e = .truncated pc)) := by
  constructor
  · rintro ⟨left, h⟩
    unfold decodeNext at h
    split at h
    · simp at h
    · split at h
      · rename_i hop
        cases h
        exact ⟨_, _, rfl, .inl ⟨Opcode.ofByte?_eq_none_iff.mp hop, rfl⟩⟩
      · simp at h
      · rename_i op hne hop
        cases h
        have hcode := Opcode.ofByte?_eq_some_iff.mp hop
        have hle := op.code_le
        have hpos : op.code.toNat ≠ 0 := fun hzero => hne (Opcode.code_eq_zero_iff.mp hzero)
        exact ⟨_, _, rfl, .inr ⟨by omega, rfl, rfl⟩⟩
      · simp at h
  · rintro ⟨b, rest, rfl, ⟨hcode, rfl⟩ | ⟨hcode, rfl, rfl⟩⟩
    · exact ⟨rest, by simp [decodeNext, Opcode.ofByte?_eq_none_iff.mpr hcode]⟩
    · cases hop : Opcode.ofByte? b with
      | none =>
        have hover := Opcode.ofByte?_eq_none_iff.mp hop
        omega
      | some op =>
        have hnop : op ≠ .nop := by
          rintro rfl
          have hzero := Opcode.ofByte?_eq_some_iff.mp hop
          rw [Opcode.code_eq_zero_iff.mpr rfl] at hzero
          omega
        exact ⟨[], by simp [decodeNext, hop]⟩

/-- A step looks at the bytes of the instruction that it finds and not behind them. -/
theorem decodeNext_raw_append {pc : Nat} {bytes rest : List UInt8} {d : Decoded}
    (h : decodeNext pc bytes = (.ok (some d), rest)) (behind : List UInt8) :
    decodeNext pc (d.raw ++ behind) = (.ok (some d), behind) := by
  obtain ⟨op, b₀, more, hop, hlength, -, rfl⟩ := decodeNext_eq_some_iff.mp h
  exact decodeNext_eq_some_iff.mpr ⟨op, b₀, more, hop, hlength, rfl, rfl⟩

theorem disassembleFrom_of_error {found : Array Decoded} {pc : Nat} {bytes rest : List UInt8} {e : DecodeError}
    (h : decodeNext pc bytes = (.error e, rest)) : disassembleFrom found pc bytes = .error e := by
  rw [disassembleFrom]
  split <;> simp_all

theorem Decodes.disassembleFrom_append {pc : Nat} {bytes : List UInt8} {ds : List Decoded} (h : Decodes pc bytes ds)
    (found : Array Decoded) (behind : List UInt8) :
    disassembleFrom found pc (bytes ++ behind) = disassembleFrom (found ++ ds) (pc + bytes.length) behind := by
  induction h generalizing found with
  | nil pc => simp
  | @cons pc bytes rest d ds first more ih =>
    obtain ⟨rfl, -, -⟩ := decodeNext_canonical first
    rw [List.append_assoc, disassembleFrom_of_some (decodeNext_raw_append first (rest ++ behind)), ih]
    simp [Nat.add_assoc]

/-- A run that stops has found instructions up to where a step stops. -/
theorem disassembleFrom_eq_error_iff {found : Array Decoded} {pc : Nat} {bytes : List UInt8} {e : DecodeError} :
    disassembleFrom found pc bytes = .error e ↔ ∃ front back ds rest, bytes = front ++ back ∧ Decodes pc front ds ∧
      decodeNext (pc + front.length) back = (.error e, rest) := by
  constructor
  · intro h
    fun_induction disassembleFrom found pc bytes with
    | case1 found pc bytes e' rest hd =>
      cases h
      exact ⟨[], bytes, [], rest, rfl, .nil pc, hd⟩
    | case2 => cases h
    | case3 found pc bytes d rest hd ih =>
      obtain ⟨front, back, ds, left, rfl, hds, hback⟩ := ih h
      obtain ⟨rfl, -, -⟩ := decodeNext_canonical hd
      have hds' := Decodes.cons (decodeNext_raw_append hd front) hds
      refine ⟨d.raw ++ front, back, d :: ds, left, (List.append_assoc ..).symm, hds', ?_⟩
      rwa [List.length_append, ← Nat.add_assoc]
  · rintro ⟨front, back, ds, rest, rfl, hds, hback⟩
    rw [hds.disassembleFrom_append, disassembleFrom_of_error hback]

/-- A program cut into instructions: each has the bytes that its form takes, stands behind those before it and starts
with its code. -/
structure Partition (program : List UInt8) (ds : List Decoded) : Prop where
  whole : (ds.map (·.raw)).flatten = program
  lengths : ∀ d ∈ ds, d.raw.length = d.instruction.opcode.form.length
  addresses : ∀ (i : Nat) (d : Decoded), ds[i]? = some d → d.address = ((ds.take i).map (·.raw.length)).sum
  codes : ∀ d ∈ ds, ∃ b, d.raw.head? = some b ∧ d.instruction.opcode.code.toNat = b.toNat / 16

/-- The byte at `a` is the first that no instruction can start with, or is the last of the program and starts an
instruction of two bytes. -/
inductive FailsAt (program : List UInt8) (a : Nat) : DecodeError → Prop
  | invalidOpcode {ds b} (before : disassemble (program.take a) = .ok ds) (byte : program[a]? = some b)
      (code : 10 < b.toNat / 16) : FailsAt program a (.invalidOpcode a b)
  | truncated {ds b} (before : disassemble (program.take a) = .ok ds) (byte : program[a]? = some b)
      (code : 1 ≤ b.toNat / 16 ∧ b.toNat / 16 ≤ 10) (last : a = program.length - 1) :
      FailsAt program a (.truncated a)

theorem Decodes.address_eq {pc : Nat} {bytes : List UInt8} {ds : List Decoded} (h : Decodes pc bytes ds) (i : Nat)
    (d : Decoded) (hd : ds[i]? = some d) : d.address = pc + ((ds.take i).map (·.raw.length)).sum := by
  induction h generalizing i with
  | nil pc => simp at hd
  | @cons pc bytes rest first ds step more ih =>
    cases i with
    | zero =>
      obtain ⟨op, b₀, more, -, -, -, rfl⟩ := decodeNext_eq_some_iff.mp step
      cases hd
      rfl
    | succ i =>
      rw [ih i hd, List.take_succ_cons, List.map_cons, List.sum_cons, Nat.add_assoc]

theorem Decodes.forall_mem {pc : Nat} {bytes : List UInt8} {ds : List Decoded} (h : Decodes pc bytes ds) :
    ∀ d ∈ ds, d.raw.length = d.instruction.opcode.form.length ∧
      ∃ b, d.raw.head? = some b ∧ d.instruction.opcode.code.toNat = b.toNat / 16 := by
  induction h with
  | nil pc => simp
  | cons step more ih =>
    obtain ⟨op, b₀, more, hop, hlength, -, rfl⟩ := decodeNext_eq_some_iff.mp step
    refine List.forall_mem_cons.mpr ⟨?_, ih⟩
    rw [Instruction.opcode_decode]
    exact ⟨hlength, b₀, rfl, Opcode.ofByte?_eq_some_iff.mp hop⟩

theorem partition_of_disassemble {program : List UInt8} {ds : List Decoded} (h : disassemble program = .ok ds) :
    Partition program ds := by
  have hd := disassemble_eq_ok_iff.mp h
  refine ⟨hd.flatten_raw.symm, fun d hmem => (hd.forall_mem d hmem).1, ?_, fun d hmem => (hd.forall_mem d hmem).2⟩
  intro i d hi
  rw [hd.address_eq i d hi, Nat.zero_add]

theorem disassemble_of_failing_step {program : List UInt8} {a : Nat} {ds : List Decoded} {b : UInt8} {e : DecodeError}
    (before : disassemble (program.take a) = .ok ds) (byte : program[a]? = some b)
    (h : ∃ rest, decodeNext a (b :: program.drop (a + 1)) = (.error e, rest)) : disassemble program = .error e := by
  obtain ⟨rest, hrest⟩ := h
  obtain ⟨hlt, rfl⟩ := List.getElem?_eq_some_iff.mp byte
  rw [← List.drop_eq_getElem_cons hlt] at hrest
  have hlength : (program.take a).length = a := List.length_take_of_le (Nat.le_of_lt hlt)
  refine disassembleFrom_eq_error_iff.mpr ⟨program.take a, program.drop a, ds, rest, ?_, ?_, ?_⟩
  · exact (List.take_append_drop a program).symm
  · exact disassemble_eq_ok_iff.mp before
  · rwa [hlength, Nat.zero_add]

/-- Disassembly fails if and only if some byte makes it fail, and with the error of that byte. -/
theorem disassemble_eq_error_iff {program : List UInt8} {e : DecodeError} :
    disassemble program = .error e ↔ ∃ a, FailsAt program a e := by
  constructor
  · intro h
    obtain ⟨front, back, ds, rest, rfl, hds, hback⟩ := disassembleFrom_eq_error_iff.mp h
    rw [Nat.zero_add] at hback
    obtain ⟨b, behind, rfl, hfails⟩ := decodeNext_eq_error_iff.mp ⟨rest, hback⟩
    have hbefore : disassemble ((front ++ b :: behind).take front.length) = .ok ds := by
      rw [List.take_left]
      exact disassemble_eq_ok_iff.mpr hds
    have hbyte : (front ++ b :: behind)[front.length]? = some b := by simp
    obtain ⟨hcode, rfl⟩ | ⟨hcode, rfl, rfl⟩ := hfails
    · exact ⟨front.length, .invalidOpcode hbefore hbyte hcode⟩
    · exact ⟨front.length, .truncated hbefore hbyte hcode (by simp)⟩
  · rintro ⟨a, h⟩
    cases h with
    | invalidOpcode before byte code =>
      apply disassemble_of_failing_step before byte
      exact decodeNext_eq_error_iff.mpr ⟨_, _, rfl, .inl ⟨code, rfl⟩⟩
    | truncated before byte code last =>
      have hend : program.drop (a + 1) = [] := List.drop_eq_nil_of_le (by omega)
      apply disassemble_of_failing_step before byte
      exact decodeNext_eq_error_iff.mpr ⟨_, _, rfl, .inr ⟨code, hend, rfl⟩⟩

theorem FailsAt.lt_length {program : List UInt8} {a : Nat} {e : DecodeError} (h : FailsAt program a e) :
    a < program.length := by
  cases h with
  | invalidOpcode before byte code => exact (List.getElem?_eq_some_iff.mp byte).1
  | truncated before byte code last => exact (List.getElem?_eq_some_iff.mp byte).1

theorem FailsAt.unique {program : List UInt8} {a a' : Nat} {e e' : DecodeError} (h : FailsAt program a e)
    (h' : FailsAt program a' e') : a = a' := by
  have he := disassemble_eq_error_iff.mpr ⟨a, h⟩
  have he' := disassemble_eq_error_iff.mpr ⟨a', h'⟩
  obtain rfl : e = e' := Except.error.inj (he.symm.trans he')
  cases h with
  | invalidOpcode => cases h'; rfl
  | truncated => cases h'; rfl

/-- The instructions of a program that can be disassembled are the program cut into pieces, each of the length of its
form and at the end of those before it. Otherwise the error names the one address up to which the program can be
disassembled and where no instruction starts, or where one starts that the end of the program cuts off. -/
theorem disassembly_cuts_or_names_failing_address (program : List UInt8) :
    (∀ ds, disassemble program = .ok ds → Partition program ds) ∧
    ∀ e, disassemble program = .error e → ∃ a, a < program.length ∧ FailsAt program a e ∧
      ∀ a' e', FailsAt program a' e' → a' = a := by
  refine ⟨fun ds => partition_of_disassemble, ?_⟩
  intro e he
  obtain ⟨a, ha⟩ := disassemble_eq_error_iff.mp he
  exact ⟨a, ha.lt_length, ha, fun a' e' ha' => ha'.unique ha⟩

/-- Three programs that start with the same two instructions: a jump behind them, a byte that starts no instruction, and
a branch without its second byte. -/
theorem one_program_cut_and_two_that_fail :
    let whole := [0x0F, 0x1E, 0xF0, 0xA0, 0x00]
    let undefined := [0x0F, 0x1E, 0xF0, 0xB5, 0xA0]
    let short := [0x0F, 0x1E, 0xF0, 0x9B]
    (∃ ds, disassemble whole = .ok ds ∧ Partition whole ds) ∧
    (disassemble undefined = .error (.invalidOpcode 3 0xB5) ∧ ∀ a e, FailsAt undefined a e → a = 3) ∧
    (disassemble short = .error (.truncated 3) ∧ ∀ a e, FailsAt short a e → a = 3) := by
  intro whole undefined short
  have hwhole : disassemble whole = .ok [⟨0, [0x0F], .nop⟩, ⟨1, [0x1E, 0xF0], .ldi 7 0xF0⟩, ⟨3, [0xA0, 0x00], .jmp 0⟩] :=
    disassemble_eq_ok_iff.mpr (.cons rfl (.cons rfl (.cons rfl (.nil _))))
  have hfront : disassemble [0x0F, 0x1E, 0xF0] = .ok [⟨0, [0x0F], .nop⟩, ⟨1, [0x1E, 0xF0], .ldi 7 0xF0⟩] :=
    disassemble_eq_ok_iff.mpr (.cons rfl (.cons rfl (.nil _)))
  have hundefined : FailsAt undefined 3 (.invalidOpcode 3 0xB5) := .invalidOpcode hfront rfl (by decide)
  have hshort : FailsAt short 3 (.truncated 3) := .truncated hfront rfl (by decide) rfl
  have hfails := disassemble_eq_error_iff.mpr ⟨3, hundefined⟩
  have hfails' := disassemble_eq_error_iff.mpr ⟨3, hshort⟩
  obtain ⟨a, -, -, ha⟩ := (disassembly_cuts_or_names_failing_address undefined).2 _ hfails
  obtain ⟨a', -, -, ha'⟩ := (disassembly_cuts_or_names_failing_address short).2 _ hfails'
  refine ⟨⟨_, hwhole, (disassembly_cuts_or_names_failing_address whole).1 _ hwhole⟩, ⟨hfails, ?_⟩, hfails', ?_⟩
  · intro k e hk
    exact (ha k e hk).trans (ha 3 _ hundefined).symm
  · intro k e hk
    exact (ha' k e hk).trans (ha' 3 _ hshort).symm

end ByteMachine
