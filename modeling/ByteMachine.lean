import ByteMachine.Machine
import ByteMachine.Main
import ByteMachine.Proofs.Acceptance
import ByteMachine.Proofs.CalculationRuns
import ByteMachine.Proofs.CanonicalPrograms
import ByteMachine.Proofs.Extension
import ByteMachine.Proofs.FirstErrors
import ByteMachine.Proofs.HexLines
import ByteMachine.Proofs.LineByLine
import ByteMachine.Proofs.Presentation
import ByteMachine.Proofs.Relocation
import ByteMachine.Proofs.Renaming
import ByteMachine.Proofs.Deliveries
import ByteMachine.Proofs.DecodedOperands
import ByteMachine.Proofs.Partitions
import ByteMachine.Proofs.Concatenation
import ByteMachine.Proofs.Journals
import ByteMachine.Proofs.LabelIndependence
import ByteMachine.Proofs.CalculationCommands
import ByteMachine.Proofs.Listings
import ByteMachine.Proofs.PrintedStatements
import ByteMachine.Proofs.LabelMaps
import ByteMachine.Proofs.LabelNames
import ByteMachine.Proofs.NumeralValues
