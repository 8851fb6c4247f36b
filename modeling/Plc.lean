import Plc.Command.Folder
import Plc.Java.Phrase
import Plc.Main
import Plc.Reading.Phrase
import Plc.Scope.Tree
import Plc.Typing.Phrase
import Plc.Proofs.Reading.Shape
import Plc.Proofs.Outcome
import Plc.Proofs.Reading.Bare
import Plc.Proofs.Scope
import Plc.Proofs.Typing.Places
import Plc.Proofs.Typing.Rules
import Plc.Proofs.Typing.Analysis
import Plc.Proofs.Typing.WellTyped
import Plc.Proofs.Machine.Trace
import Plc.Proofs.Machine.Agreement
import Plc.Proofs.Machine.Stack
import Plc.Proofs.Machine.Preservation
import Plc.Proofs.Names
import Plc.Proofs.Typing.Within
import Plc.Proofs.Conformance
import Plc.Proofs.UpToNil
import Plc.Proofs.Homogeneity
import Plc.Proofs.Safety
import Plc.Proofs.Token.Form
import Plc.Proofs.Token.Munch
import Plc.Proofs.Token.Cut
import Plc.Proofs.Reading.Composition
import Plc.Proofs.Reading.Derivation
import Plc.Proofs.Reading.Blocks
import Plc.Proofs.Reading.Sources
import Plc.Proofs.Reading.Steady
import Plc.Proofs.Reading.Steady.Expr
import Plc.Proofs.Reading.Steady.Stmt
import Plc.Proofs.Reading.Literal
import Plc.Proofs.Reading.Steady.Program
import Plc.Proofs.Reading.Viable
import Plc.Proofs.Java.Code
import Plc.Proofs.Java.Pieces
import Plc.Proofs.Java.Run
import Plc.Proofs.Reading.Tiers
import Plc.Proofs.Java.Nesting
import Plc.Proofs.Java.Truth
import Plc.Proofs.SourceText
import Plc.Proofs.Token.Characters
import Plc.Proofs.Token.Place
import Plc.Proofs.Diagnostic
import Plc.Proofs.Token.Spacing
import Plc.Proofs.Token.Junction
import Plc.Proofs.Token.Viable
import Plc.Proofs.Reading.Blind
import Plc.Proofs.Spacing
import Plc.Proofs.Typing.Erasure
import Plc.Proofs.Typing.Filled
import Plc.Proofs.Growth
import Plc.Proofs.Machine.Growth
import Plc.Proofs.Session
import Plc.Proofs.Scope.Tree
import Plc.Proofs.Scope.History
import Plc.Proofs.Token.Lossless
import Plc.Proofs.Scope.Image
import Plc.Proofs.Machine.Erasure
import Plc.Proofs.Typing.Order
import Plc.Proofs.Machine.Flat
import Plc.Proofs.Machine.Printing
import Plc.Proofs.Machine.Cost
import Plc.Proofs.Machine.Weight
import Plc.Proofs.Termination
import Plc.Proofs.Operation
import Plc.Proofs.Machine.Calls
import Plc.Proofs.Machine.Faults
import Plc.Proofs.Results
import Plc.Proofs.Comparison
import Plc.Proofs.Guards
import Plc.Proofs.Java.Scoping
import Plc.Proofs.Java.Marks
import Plc.Proofs.Reading.Identifiers
import Plc.Proofs.Java.Locals
import Plc.Proofs.Reading.Taken
import Plc.Proofs.Reading.Flattening
import Plc.Proofs.Reading.Bounds
import Plc.Proofs.Reading.Agreement
import Plc.Proofs.Java.Lines
import Plc.Proofs.Java.Stretches
import Plc.Proofs.Java.Returns
import Plc.Proofs.Java.Literals
import Plc.Proofs.Decimal.Rounding
import Plc.Proofs.Decimal.Division
import Plc.Proofs.Machine.Ending
import Plc.Proofs.Machine.Lockstep
import Plc.Proofs.Lexical
import Plc.Proofs.Truncation
import Plc.Proofs.Scope.Outline
import Plc.Proofs.Machine.Confinement
import Plc.Proofs.Frames
import Plc.Proofs.Registration
import Plc.Proofs.Effects
import Plc.Proofs.WholeLists
import Plc.Proofs.Java.Indentation
import Plc.Proofs.Java.Fallback
import Plc.Proofs.Typing.Cases
import Plc.Proofs.WellShaped
