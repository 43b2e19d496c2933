import LinearProgram.Main
import LinearProgram.Proofs.Replacement
import LinearProgram.Proofs.Extremum
import LinearProgram.Proofs.Freshness
import LinearProgram.Proofs.StatementEnds
import LinearProgram.Proofs.Repeats
import LinearProgram.Proofs.LpReading
import LinearProgram.Proofs.Unmentioned
import LinearProgram.Proofs.Concatenation
import LinearProgram.Proofs.TruthValues
import LinearProgram.Proofs.Epigraph
import LinearProgram.Proofs.Graph
import LinearProgram.Proofs.ConstantConditions
import LinearProgram.Proofs.WildcardSums
import LinearProgram.Proofs.FilterPlacement
import LinearProgram.Proofs.UnnamedRows
import LinearProgram.Proofs.CanonicalArithmetic
import LinearProgram.Proofs.LegalNames
import LinearProgram.Proofs.JsonForms
import LinearProgram.Proofs.Renaming
import LinearProgram.Proofs.Overrides
import LinearProgram.Proofs.ArrayParameters
