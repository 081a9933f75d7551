import ByteMachine.Proofs.HexLines
import ByteMachine.Proofs.InstructionText
import ByteMachine.Proofs.LineEdits
import ByteMachine.Proofs.Partitions
import Mathlib

/-! # Listings: a program is read back from its listing

The instructions on the lines do not tell the unused bits of a program, and addresses grow wider with it. Its bytes stand
in a column of six characters behind the first colon of each line. -/
namespace ByteMachine

open Text

/-- The bytes in the column of a line, if there are such. -/
def bytesOn? (line : List Char) : Option (List UInt8) :=
  (words (· == ' ') (((line.dropWhile (· != ':')).drop 3).take 6)).mapM HexText.byte?

/-- The bytes on all lines of a listing. -/
def programIn? (text : List Char) : Option (List UInt8) := ((lines text).mapM bytesOn?).map List.flatten

theorem mapM_byte?_hexByte (bytes : List UInt8) : (bytes.map hexByte).mapM HexText.byte? = some bytes := by
  induction bytes with
  | nil => rfl
  | cons b bytes ih => simp [HexText.byte?_eq_some_iff.mpr rfl, ih]

theorem count_newline_unlines {ls : List (List Char)} (hne : ls ≠ []) (h : ∀ l ∈ ls, '\n' ∉ l) :
    (unlines ls).count '\n' + 1 = ls.length := by
  induction ls with
  | nil => exact absurd rfl hne
  | cons l ls ih =>
    obtain ⟨hl, hls⟩ := List.forall_mem_cons.mp h
    cases ls with
    | nil => simpa [unlines, List.intercalate, List.count_eq_zero] using hl
    | cons k ks =>
      have hcount := ih (by simp) hls
      rw [unlines_cons_cons, List.count_append, List.count_cons_self, List.count_eq_zero.mpr hl, List.length_cons]
      omega

namespace Decoded

variable {d : Decoded}

theorem not_isBlank_hexByte {b : UInt8} {c : Char} (hc : c ∈ hexByte b) : isBlank c = false :=
  ((HexText.hexPair_hexByte b).2 c hc).not_isBlank

theorem length_rawText (h : d.raw.length ≤ 2) : d.rawText.length ≤ 6 := by
  obtain ⟨address, raw, instruction⟩ := d
  rcases raw with _ | ⟨b, _ | ⟨b', _ | ⟨b'', rest⟩⟩⟩
  · simp [rawText, List.intercalate]
  · simp [rawText, List.intercalate, hexByte]
  · simp [rawText, List.intercalate, hexByte]
  · simp at h

theorem words_rawText (d : Decoded) : words (· == ' ') (d.rawText.rightpad 6 ' ') = d.raw.map hexByte := by
  have hraw : words (· == ' ') d.rawText = d.raw.map hexByte := by
    apply words_intercalate (by simp) (by simp)
    simp only [List.forall_mem_map]
    intro b _
    refine ⟨by simp [hexByte], ?_⟩
    intro c hc
    rw [beq_eq_false_iff_ne]
    rintro rfl
    exact absurd (not_isBlank_hexByte hc) (by decide)
  have hgap : ∀ c ∈ List.replicate (6 - d.rawText.length) ' ', (c == ' ') = true := by
    intro c hc
    rw [List.eq_of_mem_replicate hc, beq_self_eq_true]
  rw [List.rightpad, words_append_gap hgap, hraw]

/-- The column stands three characters from the colon behind the address. -/
theorem column_line (h : d.raw.length ≤ 2) :
    ((d.line.dropWhile (· != ':')).drop 3).take 6 = d.rawText.rightpad 6 ' ' := by
  have haddress : ∀ c ∈ hexNumber d.address, (c != ':') = true := by
    intro c hc
    rw [bne_iff_ne]
    exact ((denotes_hexNumber d.address).plain_of_mem hc).2.2.2
  have hlength : (d.rawText.rightpad 6 ' ').length = 6 := by
    rw [List.length_rightpad]
    exact max_eq_left (length_rawText h)
  rw [line, List.append_assoc, List.append_assoc, List.dropWhile_append_of_pos haddress]
  exact List.take_left' hlength

theorem bytesOn?_line (h : d.raw.length ≤ 2) : bytesOn? d.line = some d.raw := by
  rw [bytesOn?, column_line h, words_rawText, mapM_byte?_hexByte]

/-- The only blanks on a line are spaces. -/
theorem eq_space_of_mem_line {c : Char} (hc : c ∈ d.line) (hblank : isBlank c = true) : c = ' ' := by
  have hseparator := isSeparator_of_isBlank hblank
  have hcomma : c ≠ ',' := by
    rintro rfl
    exact absurd hblank (by decide)
  simp only [line, List.append_assoc, List.mem_append, List.mem_cons] at hc
  rcases hc with haddress | hcolon | hcolumn | hgap | htext
  · exact absurd hseparator (by simp [((denotes_hexNumber d.address).plain_of_mem haddress).1])
  · rcases (by simpa using hcolon : c = ':' ∨ c = ' ') with rfl | rfl
    · exact absurd hblank (by decide)
    · rfl
  · rcases List.mem_append.mp hcolumn with hbytes | hpad
    · rcases mem_intercalate hbytes with hspace | ⟨w, hw, hc⟩
      · exact List.mem_singleton.mp hspace
      · obtain ⟨b, -, rfl⟩ := List.mem_map.mp hw
        exact absurd hblank (by simp [not_isBlank_hexByte hc])
    · exact List.eq_of_mem_replicate hpad
  · exact hgap
  · rw [← Instruction.text_statement] at htext
    exact ((Statement.mem_text d.instruction.printable_statement htext).2 hseparator).resolve_right hcomma

theorem line_ne_nil (d : Decoded) : d.line ≠ [] := by simp [line, hexNumber]

theorem notMem_line {c : Char} (hblank : isBlank c = true) (hne : c ≠ ' ') : c ∉ d.line :=
  fun hc => hne (eq_space_of_mem_line hc hblank)

end Decoded

theorem lines_listing (ds : List Decoded) : lines (listing ds) = ds.map Decoded.line := by
  apply lines_unlines
  simp only [List.forall_mem_map]
  intro d _
  exact ⟨d.line_ne_nil, Decoded.notMem_line (by decide) (by decide),
    fun hr => Decoded.notMem_line (by decide) (by decide) (List.mem_of_getLast? hr)⟩

theorem length_raw_le {program : List UInt8} {ds : List Decoded} (h : disassemble program = .ok ds) :
    ∀ d ∈ ds, d.raw.length ≤ 2 := by
  intro d hd
  rw [(partition_of_disassemble h).lengths d hd]
  cases d.instruction.opcode.form <;> decide

theorem programIn?_listing {program : List UInt8} {ds : List Decoded} (h : disassemble program = .ok ds) :
    programIn? (listing ds) = some program := by
  have hbytes : (ds.map Decoded.line).mapM bytesOn? = some (ds.map (·.raw)) := by
    have hlengths := length_raw_le h
    clear h
    induction ds with
    | nil => rfl
    | cons d ds ih =>
      obtain ⟨hd, hds⟩ := List.forall_mem_cons.mp hlengths
      simp [Decoded.bytesOn?_line hd, ih hds]
  rw [programIn?, lines_listing, hbytes, Option.map_some, (partition_of_disassemble h).whole]

/-- Programs with one listing are one program, for its bytes are read back from it. There is a line for each instruction:
one line feed less than there are instructions, if there are any. -/
theorem listing_keeps_every_byte {p q : List UInt8} {ds es : List Decoded} (hp : disassemble p = .ok ds)
    (hq : disassemble q = .ok es) :
    (listing ds = listing es → p = q) ∧ programIn? (listing ds) = some p ∧
    (lines (listing ds)).length = ds.length ∧ (p ≠ [] → (listing ds).count '\n' + 1 = ds.length) := by
  refine ⟨?_, programIn?_listing hp, by rw [lines_listing, List.length_map], ?_⟩
  · intro h
    have hread : some p = some q := by rw [← programIn?_listing hp, h, programIn?_listing hq]
    exact Option.some.inj hread
  · intro hne
    have hds : ds ≠ [] := by
      rintro rfl
      exact hne (partition_of_disassemble hp).whole.symm
    have hcount : (listing ds).count '\n' + 1 = (ds.map Decoded.line).length := by
      apply count_newline_unlines (by simpa using hds)
      simp only [List.forall_mem_map]
      exact fun d _ => Decoded.notMem_line (by decide) (by decide)
    rw [hcount, List.length_map]

/-- Two programs that differ in unused bits only: their instructions are the same text, their listings are not. -/
theorem listings_of_unused_bits :
    let clear : List UInt8 := [0x00, 0x24, 0x01]
    let junk : List UInt8 := [0x0F, 0x25, 0xF9]
    ∃ ds es, disassemble clear = .ok ds ∧ disassemble junk = .ok es ∧ reassembly ds = reassembly es ∧
      listing ds ≠ listing es ∧ programIn? (listing es) = some junk ∧ (listing es).count '\n' + 1 = 2 := by
  intro clear junk
  have hclear : disassemble clear = .ok [⟨0, [0x00], .nop⟩, ⟨1, [0x24, 0x01], .alu .add 2 1⟩] :=
    disassemble_eq_ok_iff.mpr (.cons rfl (.cons rfl (.nil _)))
  have hjunk : disassemble junk = .ok [⟨0, [0x0F], .nop⟩, ⟨1, [0x25, 0xF9], .alu .add 2 1⟩] :=
    disassemble_eq_ok_iff.mpr (.cons rfl (.cons rfl (.nil _)))
  obtain ⟨hsame, -⟩ := listing_keeps_every_byte hclear hjunk
  obtain ⟨-, hread, -, hcount⟩ := listing_keeps_every_byte hjunk hclear
  have hdiffer : clear ≠ junk := by decide
  exact ⟨_, _, hclear, hjunk, rfl, fun h => hdiffer (hsame h), hread, hcount (by simp [junk])⟩

end ByteMachine
