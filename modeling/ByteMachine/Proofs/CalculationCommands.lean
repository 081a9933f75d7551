import ByteMachine.Proofs.CalculationRuns
import ByteMachine.Proofs.CommandEffects
import ByteMachine.Proofs.Presentation

/-! # Calculation commands: hex text at once, or a source first and its assembly after

The source of a calculation is written with a line feed at its end, and then read back from a file. Neither changes the
program that is assembled from it. -/
namespace ByteMachine

open Text

/-- A line feed at the end of a source changes nothing that is read from it. -/
theorem statements_append_newline (source : List Char) : statements (source ++ ['\n']) = statements source := by
  rw [statements, statements, numberedLines, numberedLines]
  obtain h | ⟨front, l, hsource, h⟩ := lines_append_newline_cases source
  · -- the line that is added is empty, so it is read as no statement
    have hempty (number : Nat) : readLine number [] = .ok none := rfl
    rw [h, List.zipIdx_append, List.mapM_append]
    cases ((lines source).zipIdx 1).mapM fun l => readLine l.2 l.1 <;>
      simp [hempty, bind, Except.bind, pure, Except.pure, Except.map]
  · have hlines : List.Forall₂ (fun l l' => ∀ number, readLine number l = readLine number l') (front ++ [dropReturn l])
        (front ++ [l]) :=
      List.rel_append (List.forall₂_same.mpr fun _ _ _ => rfl) (.cons (fun number => readLine_dropReturn number l) .nil)
    rw [h, hsource]
    congr 1
    exact mapM_readLine_congr hlines 1

theorem assemble_append_newline (source : List Char) : assemble (source ++ ['\n']) = assemble source := by
  rw [assemble_eq_bind, assemble_eq_bind, statements_append_newline]

namespace Calculation

variable {a b : Int} {symbol text : List Char}

theorem sourceFor_eq_ok_iff : sourceFor a b symbol = .ok text ↔
    ∃ op : Operator, trim symbol = op.symbol ∧ text = source a b op := by
  simp only [← Operator.ofSymbol?_eq_some_iff]
  unfold sourceFor
  cases Operator.ofSymbol? (trim symbol) <;> simp [eq_comm]

theorem sourceFor_eq_error_iff {e : Error} : sourceFor a b symbol = .error e ↔
    (∀ op : Operator, trim symbol ≠ op.symbol) ∧ e = .unsupported (trim symbol) := by
  simp only [ne_eq, ← Operator.ofSymbol?_eq_some_iff]
  unfold sourceFor
  cases Operator.ofSymbol? (trim symbol) <;> simp [eq_comm]

theorem exists_assemble_source (a b : Int) (op : Operator) : ∃ program, assemble (source a b op) = .ok program := by
  obtain ⟨labels, hlabels⟩ := exists_resolve a b op
  exact ⟨_, assemble_sourceOf (printable_statements a b op) hlabels (yields_instructions hlabels)⟩

end Calculation

namespace Command

variable {a b : Int} {symbol : String} {source : List Char}

theorem calculationText_of_error {e : Calculation.Error} (h : Calculation.sourceFor a b symbol.toList = .error e)
    (hex : Bool) : calculationText a symbol b hex = .error (.badCalculation e) := by
  rw [calculationText, h]
  rfl

theorem calculationText_source (h : Calculation.sourceFor a b symbol.toList = .ok source) :
    calculationText a symbol b false = .ok (source ++ ['\n']) := by
  rw [calculationText, h]
  rfl

theorem calculationText_hex {program : List UInt8} (h : Calculation.sourceFor a b symbol.toList = .ok source)
    (hprogram : ByteMachine.assemble source = .ok program) :
    calculationText a symbol b true = .ok (HexText.ofBytes program) := by
  rw [calculationText, bind_eq_ok_iff]
  refine ⟨source, mapError_eq_ok_iff.mpr h, ?_⟩
  exact bind_eq_ok_iff.mpr ⟨program, mapError_eq_ok_iff.mpr hprogram, rfl⟩

end Command

namespace World

/-- Whatever is written to the path becomes the content of a file. -/
def Writable (w : World) (path : String) : Prop :=
  ∀ content, ∃ place, w.files.sink w.home path content = .ok (.file place)

variable {w : World} {a b : Int} {symbol path : String}

theorem Writable.of_place? {place : Place} (hplace : w.place? path = some place) (hslash : Path.endsInSlash path = false)
    (hrefusal : ∀ content, w.files.refusal place (.write content) = none) : w.Writable path :=
  fun content => ⟨place, FileSystem.sink_eq_file_iff.mpr ⟨hplace, hslash, hrefusal content⟩⟩

theorem Writable.exists_write (h : w.Writable path) (content : ByteArray) :
    ∃ w', w.write path content = (.ok (), w') := by
  obtain ⟨place, hsink⟩ := h content
  exact ⟨_, write_eq_ok_iff.mpr (.inl ⟨place, hsink, rfl⟩)⟩

theorem run_calculate (w : World) (a : Int) (symbol : String) (b : Int) (output : Option String) (hex : Bool) :
    w.run (.calculate a symbol b output hex) = w.carryOut (Command.planCalculate a symbol b output hex) := rfl

theorem run_calculate_of_error {e : Calculation.Error} (h : Calculation.sourceFor a b symbol.toList = .error e)
    (output : Option String) (hex : Bool) :
    w.run (.calculate a symbol b output hex) = (.error (.badCalculation e), w) := by
  rw [run_calculate, Command.planCalculate, Command.calculationText_of_error h]
  rfl

theorem run_calculate_print {hex : Bool} {text : List Char} (h : Command.calculationText a symbol b hex = .ok text) :
    w.run (.calculate a symbol b none hex) = (.ok (), w.afterPrint text) := by
  rw [run_calculate, Command.planCalculate_none, h]
  rfl

theorem exists_run_calculate_write {hex : Bool} {text : List Char} (hpath : w.Writable path)
    (h : Command.calculationText a symbol b hex = .ok text) :
    ∃ w', w.run (.calculate a symbol b (some path) hex) = (.ok (), w') ∧
      w.files.Saved w.home path (String.ofList text).toUTF8 w'.files ∧
      (w.Readable path → w'.read path = .ok (String.ofList text).toUTF8) := by
  obtain ⟨after, hwrite⟩ := hpath.exists_write (String.ofList text).toUTF8
  have hperform : w.perform (.write path text) = (.ok (), after) := by
    rw [perform_write, hwrite]
    rfl
  have hsaved := saved_of_write hwrite
  have hread (hreadable : w.Readable path) := read_of_write hreadable hwrite
  rw [run_calculate, Command.planCalculate_some, h]
  exact ⟨_, performAll_cons_of_ok hperform _, hsaved, hread⟩

theorem run_assemble_print {input : String} {text : List Char} {program : List UInt8}
    (hread : w.read input = .ok (String.ofList text).toUTF8) (h : assemble text = .ok program) :
    w.run (.assemble input none true false) = (.ok (), w.afterPrint (HexText.ofBytes program)) := by
  have hprogram : programOf .source input (.ok (String.ofList text).toUTF8) = .ok program :=
    programOf_source_eq_ok_iff.mpr ⟨_, decodeText_toUTF8 _, by rwa [String.toList_ofList]⟩
  rw [run_assemble, Command.planAssemble_eq_map, hread, hprogram]
  exact w.performAll_print _

end World

/-- A calculation in hex text goes well if and only if its source can be written to a file, and then it prints what is
printed when that file is assembled. This is so for the six operators, blanks around them or not: their source is
assembled to the same program with the line feed that the file has at its end and without it. Any other operator is
refused alike by both, and nothing is printed or written. -/
theorem calculation_in_hex_is_its_source_assembled (w : World) (a b : Int) (symbol path : String)
    (hpath : w.Writable path) :
    let inHex := w.run (.calculate a symbol b none true)
    let inSource := w.run (.calculate a symbol b (some path) false)
    (inHex.1 = .ok () ↔ inSource.1 = .ok ()) ∧
    (∀ op : Operator, trim symbol.toList = op.symbol → ∃ source program w',
      Calculation.sourceFor a b symbol.toList = .ok source ∧ assemble source = .ok program ∧
      assemble (source ++ ['\n']) = .ok program ∧
      inHex = (.ok (), w.afterPrint (HexText.ofBytes program)) ∧
      inSource = (.ok (), w') ∧ w.files.Saved w.home path (String.ofList (source ++ ['\n'])).toUTF8 w'.files ∧
      (w.Readable path → w'.read path = .ok (String.ofList (source ++ ['\n'])).toUTF8 ∧
        w'.run (.assemble path none true false) = (.ok (), w'.afterPrint (HexText.ofBytes program)))) ∧
    ((∀ op : Operator, trim symbol.toList ≠ op.symbol) →
      inHex = (.error (.badCalculation (.unsupported (trim symbol.toList))), w) ∧
      inSource = (.error (.badCalculation (.unsupported (trim symbol.toList))), w)) := by
  intro inHex inSource
  refine ⟨?_, ?_, ?_⟩
  · cases hsource : Calculation.sourceFor a b symbol.toList with
    | error e => simp [inHex, inSource, World.run_calculate_of_error hsource]
    | ok source =>
      obtain ⟨op, -, rfl⟩ := Calculation.sourceFor_eq_ok_iff.mp hsource
      obtain ⟨program, hprogram⟩ := Calculation.exists_assemble_source a b op
      obtain ⟨w', hrun, -⟩ := World.exists_run_calculate_write hpath (Command.calculationText_source hsource)
      simp [inHex, inSource, World.run_calculate_print (Command.calculationText_hex hsource hprogram), hrun]
  · intro op hop
    have hsource : Calculation.sourceFor a b symbol.toList = .ok (Calculation.source a b op) :=
      Calculation.sourceFor_eq_ok_iff.mpr ⟨op, hop, rfl⟩
    obtain ⟨program, hprogram⟩ := Calculation.exists_assemble_source a b op
    have hnewline : assemble (Calculation.source a b op ++ ['\n']) = .ok program := by
      rw [assemble_append_newline, hprogram]
    obtain ⟨w', hrun, hsaved, hread⟩ := World.exists_run_calculate_write hpath (Command.calculationText_source hsource)
    refine ⟨_, program, w', hsource, hprogram, hnewline,
      World.run_calculate_print (Command.calculationText_hex hsource hprogram), hrun, hsaved, ?_⟩
    intro hreadable
    exact ⟨hread hreadable, World.run_assemble_print (hread hreadable) hnewline⟩
  · intro hop
    have hsource : Calculation.sourceFor a b symbol.toList = .error (.unsupported (trim symbol.toList)) :=
      Calculation.sourceFor_eq_error_iff.mpr ⟨hop, rfl⟩
    exact ⟨World.run_calculate_of_error hsource none true, World.run_calculate_of_error hsource (some path) false⟩

/-- The least operand by the greatest, with blanks around the operator, through a file outside of the working directory,
and an operator that is refused. -/
theorem least_by_greatest_in_hex_and_through_a_file :
    let w : World :=
      { files := .ofList [("/tmp", .directory), ("/home/me", .directory)], home := ["home", "me"]
        openPort := fun _ _ => .error "No such file or directory" }
    let least : Int := -9223372036854775808
    let greatest : Int := 9223372036854775807
    w.Writable "/tmp/f.s" ∧ w.Readable "/tmp/f.s" ∧
    (∃ program w', w.run (.calculate least " * " greatest none true) = (.ok (), w.afterPrint (HexText.ofBytes program)) ∧
      w.run (.calculate least " * " greatest (some "/tmp/f.s") false) = (.ok (), w') ∧
      w'.run (.assemble "/tmp/f.s" none true false) = (.ok (), w'.afterPrint (HexText.ofBytes program))) ∧
    w.run (.calculate least "%" greatest none true) = (.error (.badCalculation (.unsupported ['%'])), w) ∧
    w.run (.calculate least "%" greatest (some "/tmp/f.s") false) =
      (.error (.badCalculation (.unsupported ['%'])), w) := by
  intro w least greatest
  have hplace : w.place? "/tmp/f.s" = some ["tmp", "f.s"] := by decide +kernel
  have hpath : w.Writable "/tmp/f.s" := .of_place? hplace (by decide +kernel) fun _ => rfl
  have hreadable : w.Readable "/tmp/f.s" := ⟨_, hplace, rfl⟩
  obtain ⟨-, hknown, -⟩ := calculation_in_hex_is_its_source_assembled w least greatest " * " "/tmp/f.s" hpath
  obtain ⟨-, -, hunknown⟩ := calculation_in_hex_is_its_source_assembled w least greatest "%" "/tmp/f.s" hpath
  obtain ⟨_, program, w', -, -, -, hhex, hsource, -, hback⟩ := hknown .mul (by decide +kernel)
  obtain ⟨-, hassemble⟩ := hback hreadable
  have hother : ∀ op : Operator, trim "%".toList ≠ op.symbol := by
    have htrim : trim "%".toList = ['%'] := by decide +kernel
    intro op
    rw [htrim]
    rcases op with (_ | _ | _ | _ | _) | _ <;> simp [Operator.symbol]
  obtain ⟨hhex', hsource'⟩ := hunknown hother
  exact ⟨hpath, hreadable, ⟨program, w', hhex, hsource, hassemble⟩, hhex', hsource'⟩

end ByteMachine
