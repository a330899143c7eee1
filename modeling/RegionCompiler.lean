import RegionCompiler.Source
import RegionCompiler.Text.Blank
import RegionCompiler.Text.Quoted
import RegionCompiler.Text.Slice
import RegionCompiler.Text.Unprintable
import RegionCompiler.Number.Binary
import RegionCompiler.Number.Shortest
import RegionCompiler.Token
import RegionCompiler.Token.Lexer
import RegionCompiler.Ty
import RegionCompiler.Program.Expr
import RegionCompiler.Program.Stmt
import RegionCompiler.Program
import RegionCompiler.Parse.Cursor
import RegionCompiler.Parse.Expr
import RegionCompiler.Parse.Stmt
import RegionCompiler.Parse.Declaration
import RegionCompiler.Layout
import RegionCompiler.Scope
import RegionCompiler.Path
import RegionCompiler.Typing.Diagnostic
import RegionCompiler.Typing.Infer
import RegionCompiler.Typing.Check
import RegionCompiler.FileSystem
import RegionCompiler.Parse
import RegionCompiler.Platform
import RegionCompiler.Machine.Register
import RegionCompiler.Machine.Instr
import RegionCompiler.Machine.Assembly
import RegionCompiler.Frame
import RegionCompiler.Convention
import RegionCompiler.Collector
import RegionCompiler.Codegen.Gen
import RegionCompiler.Codegen.Move
import RegionCompiler.Codegen.Operator
import RegionCompiler.Codegen.Foreign
import RegionCompiler.Codegen.Expr
import RegionCompiler.Codegen.Stmt
import RegionCompiler.Codegen
import RegionCompiler.Compilation
import RegionCompiler.ExitStatus
import RegionCompiler.Statistics
import RegionCompiler.Toolchain
import RegionCompiler.Build
import RegionCompiler.CommandLine
import RegionCompiler.Report
import RegionCompiler.Cli
import RegionCompiler.Main
import RegionCompiler.Proofs.Tidy
import RegionCompiler.Proofs.Spelling
import RegionCompiler.Proofs.Parse.Tidy
import RegionCompiler.Proofs.Parse.Grammar
import RegionCompiler.Proofs.Parse.Sound.Expr
import RegionCompiler.Proofs.Parse.Sound.Program
import RegionCompiler.Proofs.Parse.Complete.Expr
import RegionCompiler.Proofs.Parse.Complete.Program
import RegionCompiler.Proofs.Parse.DanglingElse
import RegionCompiler.Proofs.Parse.Render
import RegionCompiler.Proofs.Parse.Recognition
import RegionCompiler.Proofs.Parse.Reading
import RegionCompiler.Proofs.Parse.Recovery
import RegionCompiler.Proofs.Layout.Known
import RegionCompiler.Proofs.Typing.Judgment
import RegionCompiler.Proofs.Typing.Arguments
import RegionCompiler.Proofs.Typing.Infer
import RegionCompiler.Proofs.Typing.Locals
import RegionCompiler.Proofs.Typing.Check
import RegionCompiler.Proofs.Typing.Analysis
import RegionCompiler.Proofs.Typing.Parts
import RegionCompiler.Proofs.Machine.Path
import RegionCompiler.Proofs.Machine.Flow
import RegionCompiler.Proofs.Frame
import RegionCompiler.Proofs.Codegen.Piece
import RegionCompiler.Proofs.Codegen.Gives
import RegionCompiler.Proofs.Codegen.Foreign
import RegionCompiler.Proofs.Codegen.Operator
import RegionCompiler.Proofs.Codegen.Expr
import RegionCompiler.Proofs.Codegen.Stmt
import RegionCompiler.Proofs.Codegen.Agreement
import RegionCompiler.Proofs.Codegen.Collector
import RegionCompiler.Proofs.Codegen.Program
import RegionCompiler.Proofs.Compilation
import RegionCompiler.Proofs.Codegen.Discipline
import RegionCompiler.Proofs.Codegen.Value
import RegionCompiler.Proofs.Typing.Annotation
import RegionCompiler.Proofs.Typing.Soundness
import RegionCompiler.Proofs.Scope.Body
import RegionCompiler.Proofs.Scope.Resolution
import RegionCompiler.Proofs.Typing.Located
import RegionCompiler.Proofs.Scope.Independence
import RegionCompiler.Proofs.Machine.Loading
import RegionCompiler.Proofs.Collector.Regions
import RegionCompiler.Proofs.Collector.Linkage
import RegionCompiler.Proofs.Collector.Push
import RegionCompiler.Proofs.Collector.Free
import RegionCompiler.Proofs.Collector.Refinement
import RegionCompiler.Proofs.Collector.Ledger
import RegionCompiler.Proofs.Collector.Session
import RegionCompiler.Proofs.Collector.Tending
import RegionCompiler.Proofs.Codegen.Marshal
import RegionCompiler.Proofs.Codegen.Passing
import RegionCompiler.Proofs.Layout.Growth
import RegionCompiler.Proofs.Codegen.Return
import RegionCompiler.Proofs.Codegen.Simulation
import RegionCompiler.Proofs.Machine.Mention
import RegionCompiler.Proofs.Codegen.AssembledProgram
import RegionCompiler.Proofs.Codegen.Closed
import RegionCompiler.Proofs.Codegen.Names
import RegionCompiler.Proofs.Codegen.ClosedProgram
import RegionCompiler.Proofs.Codegen.Counted
import RegionCompiler.Proofs.Typing.Session
import RegionCompiler.Proofs.Build
import RegionCompiler.Proofs.Machine.Arithmetic
import RegionCompiler.Proofs.Codegen.Operation
import RegionCompiler.Proofs.Convention
import RegionCompiler.Proofs.Layout.Placement
import RegionCompiler.Proofs.Layout.Eightbyte
import RegionCompiler.Proofs.Codegen.StackArea
import RegionCompiler.Proofs.Codegen.Evaluation
import RegionCompiler.Proofs.Codegen.Contents
import RegionCompiler.Proofs.Codegen.Activation
import RegionCompiler.Proofs.Codegen.Calling
import RegionCompiler.Proofs.Codegen.Assignment
import RegionCompiler.Proofs.Codegen.Execution
import RegionCompiler.Proofs.Codegen.Control
import RegionCompiler.Proofs.Codegen.Counting
import RegionCompiler.Proofs.Codegen.Place
import RegionCompiler.Proofs.Layout.Agreement
import RegionCompiler.Proofs.Layout.Worklist
import RegionCompiler.Proofs.Layout.Cycles
import RegionCompiler.Proofs.Typing.Marking
import RegionCompiler.Proofs.Typing.Reports
import RegionCompiler.Proofs.Location
import RegionCompiler.Proofs.Token.Tiling
import RegionCompiler.Proofs.Token.StringLiteral
import RegionCompiler.Proofs.Parse.Outline
import RegionCompiler.Proofs.Parse.Phrases
import RegionCompiler.Proofs.Parse.Exact.Expr
import RegionCompiler.Proofs.Parse.Exact.Program
import RegionCompiler.Proofs.Parse.Sites
import RegionCompiler.Proofs.Layout.Duplicates
import RegionCompiler.Proofs.Typing.Clashes.Silence
import RegionCompiler.Proofs.Typing.Clashes.Order
import RegionCompiler.Proofs.Typing.Clashes.Source
import RegionCompiler.Proofs.Collector.Markers
import RegionCompiler.Proofs.Codegen.Construct
import RegionCompiler.Proofs.Parse.TypeText
