import Lookahead.Code.Program
import Lookahead.Code.Quad
import Lookahead.Code.SourceMap
import Lookahead.CommandLine
import Lookahead.Compiler
import Lookahead.Derivation
import Lookahead.Dict
import Lookahead.Error
import Lookahead.FirstFollow.Basic
import Lookahead.FirstFollow.Document
import Lookahead.Grammar.Basic
import Lookahead.Grammar.Language
import Lookahead.Grammar.Text
import Lookahead.Json.Literal
import Lookahead.Json.Token
import Lookahead.Layout
import Lookahead.Lexeme
import Lookahead.Log
import Lookahead.Lowering.Expr
import Lookahead.Lowering.Shape
import Lookahead.Lowering.State
import Lookahead.Lowering.Stmt
import Lookahead.Main
import Lookahead.NodeKind
import Lookahead.Scanner
import Lookahead.Shell
import Lookahead.Symbol
import Lookahead.Table
import Lookahead.Terminal
import Lookahead.Text.Blank
import Lookahead.Text.ControlSequence
import Lookahead.Text.Lines
import Lookahead.Token
import Lookahead.Tree
import Lookahead.Proofs.Grammar.Sentence
import Lookahead.Proofs.Grammar.Declared
import Lookahead.Proofs.Table.History
import Lookahead.Proofs.Table.Lookup
import Lookahead.Proofs.Table.Contents
import Lookahead.Proofs.FirstFollow.Sequence
import Lookahead.Proofs.FirstFollow.First
import Lookahead.Proofs.FirstFollow.Follow
import Lookahead.Proofs.FirstFollow.Height
import Lookahead.Proofs.FirstFollow.ExactFirst
import Lookahead.Proofs.FirstFollow.ExactFollow
import Lookahead.Proofs.Derivation.Run
import Lookahead.Proofs.Derivation.Soundness
import Lookahead.Proofs.Derivation.Completeness
import Lookahead.Proofs.Derivation.Locality
import Lookahead.Proofs.Derivation.Pushdown
import Lookahead.Proofs.Derivation.Rejection
import Lookahead.Proofs.Derivation.Unambiguous
import Lookahead.Proofs.FirstFollow.Certificate
import Lookahead.Proofs.Language.Sets
import Lookahead.Proofs.Derivation.Termination
import Lookahead.Proofs.Text.Splitting
import Lookahead.Proofs.Layout.Scanning
import Lookahead.Proofs.Layout.Tokens
import Lookahead.Proofs.Layout.Faults
import Lookahead.Proofs.Layout.Lines
import Lookahead.Proofs.Layout.Blocks
import Lookahead.Proofs.Layout.Append
import Lookahead.Proofs.Layout.Balance
import Lookahead.Proofs.Layout.Queue
import Lookahead.Proofs.Language.Parse
import Lookahead.Proofs.Language.Shape
import Lookahead.Proofs.Language.Leaves
import Lookahead.Proofs.Source.Code
import Lookahead.Proofs.Source.Literals
import Lookahead.Proofs.Source.Headed
import Lookahead.Proofs.Source.Moved
import Lookahead.Proofs.Language.Moved
import Lookahead.Proofs.Lowering.Stacks
import Lookahead.Proofs.Lowering.Run
import Lookahead.Proofs.Lowering.Shape
import Lookahead.Proofs.Lowering.Expr
import Lookahead.Proofs.Lowering.Stmt
import Lookahead.Proofs.Lowering.Function
import Lookahead.Proofs.Language.Acceptance
import Lookahead.Proofs.Code.Machine
import Lookahead.Proofs.Code.Temporaries
import Lookahead.Proofs.Simulation.Expr
import Lookahead.Proofs.Simulation.Straight
import Lookahead.Proofs.Simulation.Control
import Lookahead.Proofs.Simulation.Reflection
import Lookahead.Proofs.Simulation.Labels
import Lookahead.Proofs.Simulation.Function
import Lookahead.Proofs.Lowering.Trace
import Lookahead.Proofs.Lowering.Operations
import Lookahead.Proofs.Code.Jumps
import Lookahead.Proofs.Code.Shift
import Lookahead.Proofs.Code.Provenance
import Lookahead.Proofs.Language.Meaning
import Lookahead.Proofs.Language.Program
import Lookahead.Proofs.Language.Functions
import Lookahead.Proofs.Language.Concatenation
import Lookahead.Proofs.Language.Causality
import Lookahead.Proofs.Language.OneLine
import Lookahead.Proofs.Language.Spelling
import Lookahead.Proofs.Language.Provenance
import Lookahead.Proofs.CommandLine
import Lookahead.Proofs.Tree.Numbering
import Lookahead.Proofs.Tree.Arena
import Lookahead.Proofs.Grammar.Respelling
import Lookahead.Proofs.Derivation.Respelling
import Lookahead.Proofs.Lowering.Demand
import Lookahead.Proofs.Lowering.ExprDemand
import Lookahead.Proofs.Lowering.StmtDemand
import Lookahead.Proofs.Language.Respelling
import Lookahead.Proofs.Lexeme.LongestMatch
import Lookahead.Proofs.Lexeme.Reading
import Lookahead.Proofs.Layout.Printing
import Lookahead.Proofs.Layout.Comments
import Lookahead.Proofs.Lowering.Chain
import Lookahead.Proofs.Code.Stretches
import Lookahead.Proofs.Code.Returns
import Lookahead.Proofs.Language.Returns
import Lookahead.Proofs.Code.Calls
import Lookahead.Proofs.Code.CallSites
import Lookahead.Proofs.Language.Calls
import Lookahead.Proofs.Grammar.RoundTrip
import Lookahead.Proofs.FirstFollow.RoundTrip
import Lookahead.Proofs.Code.SourceMap
import Lookahead.Proofs.Table.Failure
import Lookahead.Proofs.Code.Forms
import Lookahead.Proofs.Layout.Literals
import Lookahead.Proofs.Code.Listing
import Lookahead.Proofs.Language.Listing
