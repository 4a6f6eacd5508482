import Owl.ToMathlib.Blocks
import Owl.ToMathlib.ByteMemory
import Owl.ToMathlib.Codecs
import Owl.ToMathlib.Except
import Owl.ToMathlib.Option
import Owl.ToMathlib.Parsing
import Owl.ToMathlib.Predictions
import Owl.ToMathlib.Reading
import Owl.ToMathlib.StateExcept
import Owl.ToMathlib.Worlds
import Owl.Model.Compiler.Ast
import Owl.Model.Compiler.Control
import Owl.Model.Compiler.FnGenerator
import Owl.Model.Compiler.Instruction
import Owl.Model.Compiler.Parser
import Owl.Model.Compiler.Trace
import Owl.Model.Compiler.Writer
import Owl.Model.Lists.Append
import Owl.Model.Lists.Concat
import Owl.Model.Lists.Edit
import Owl.Model.Lists.Heads
import Owl.Model.Lists.Interface
import Owl.Model.Lists.Node
import Owl.Model.Lists.Slice
import Owl.Model.Runtime.Collector
import Owl.Model.Runtime.Equality
import Owl.Model.Runtime.Heap
import Owl.Model.Runtime.Library
import Owl.Model.Runtime.ListMemory
import Owl.Model.Runtime.Loader
import Owl.Model.Runtime.Machine
import Owl.Model.Runtime.Opcodes
import Owl.Model.Runtime.Printing
import Owl.Model.Runtime.ReferenceHost
import Owl.Model.Runtime.Run
import Owl.Model.Runtime.Strings
import Owl.Model.Runtime.Term
import Owl.Model.Runtime.Value
import Owl.Model.Format.Layout
import Owl.Model.Format.Packet
import Owl.Model.Language.Semantics
import Owl.Proofs.Compiler.Accepted
import Owl.Proofs.Compiler.Captures
import Owl.Proofs.Compiler.Compounds
import Owl.Proofs.Compiler.Coverage
import Owl.Proofs.Compiler.Forms
import Owl.Proofs.Compiler.Generation
import Owl.Proofs.Compiler.Grammar
import Owl.Proofs.Compiler.Operations
import Owl.Proofs.Compiler.Reader
import Owl.Proofs.Compiler.Registers
import Owl.Proofs.Compiler.Variables
import Owl.Proofs.Compiler.Words
import Owl.Proofs.Lists.Appending
import Owl.Proofs.Lists.Cutting
import Owl.Proofs.Lists.Elements
import Owl.Proofs.Lists.Executing
import Owl.Proofs.Lists.Landing
import Owl.Proofs.Lists.LeftSlices
import Owl.Proofs.Lists.Lookup
import Owl.Proofs.Lists.Plan
import Owl.Proofs.Lists.PushDown
import Owl.Proofs.Lists.Replacing
import Owl.Proofs.Lists.Shape
import Owl.Proofs.Lists.Sizing
import Owl.Proofs.Lists.Stocked
import Owl.Proofs.Runtime.Advance
import Owl.Proofs.Runtime.Allocation
import Owl.Proofs.Runtime.Building
import Owl.Proofs.Runtime.Collecting
import Owl.Proofs.Runtime.Collection
import Owl.Proofs.Runtime.Control
import Owl.Proofs.Runtime.Copier
import Owl.Proofs.Runtime.Copying
import Owl.Proofs.Runtime.Denotation
import Owl.Proofs.Runtime.Evacuation
import Owl.Proofs.Runtime.Graph
import Owl.Proofs.Runtime.Growing
import Owl.Proofs.Runtime.Handlers
import Owl.Proofs.Runtime.Library
import Owl.Proofs.Runtime.Linking
import Owl.Proofs.Runtime.Loading
import Owl.Proofs.Runtime.Nesting
import Owl.Proofs.Runtime.Ordinary
import Owl.Proofs.Runtime.Reachable
import Owl.Proofs.Runtime.ReferenceLibrary
import Owl.Proofs.Runtime.Roots
import Owl.Proofs.Runtime.Settled
import Owl.Proofs.Runtime.Settling
import Owl.Proofs.Runtime.Steps
import Owl.Proofs.Runtime.Survival
import Owl.Proofs.Runtime.Trees
import Owl.Proofs.Format.Counts
import Owl.Proofs.Format.Decoding
import Owl.Proofs.Format.Encoding
import Owl.Proofs.Format.Loading
import Owl.Proofs.Language.Calling
import Owl.Proofs.Language.Control
import Owl.Proofs.Language.Evaluating
import Owl.Proofs.Language.Instructions
import Owl.Proofs.Language.Scopes
import Owl.Proofs.Language.Straight
import Owl.Soundness.Appends
import Owl.Soundness.Arithmetic
import Owl.Soundness.Bytecode
import Owl.Soundness.CallNames
import Owl.Soundness.CallTransparency
import Owl.Soundness.Chains
import Owl.Soundness.ClosureConversion
import Owl.Soundness.CollectorFrame
import Owl.Soundness.CollectorRoom
import Owl.Soundness.CollectorValues
import Owl.Soundness.Concatenation
import Owl.Soundness.ControlFlow
import Owl.Soundness.DefiniteWrites
import Owl.Soundness.Editing
import Owl.Soundness.EmittedFormat
import Owl.Soundness.EmptyLists
import Owl.Soundness.Evaluation
import Owl.Soundness.Identifiers
import Owl.Soundness.Indexing
import Owl.Soundness.InstructionWidths
import Owl.Soundness.Joining
import Owl.Soundness.LinkedCalls
import Owl.Soundness.LoadedCode
import Owl.Soundness.Lookups
import Owl.Soundness.NamedVariables
import Owl.Soundness.OperandWiring
import Owl.Soundness.Paths
import Owl.Soundness.Printing
import Owl.Soundness.Rebalancing
import Owl.Soundness.RegisterBounds
import Owl.Soundness.RoundTrip
import Owl.Soundness.RunningClosure
import Owl.Soundness.Sequences
import Owl.Soundness.Slices
import Owl.Soundness.StringLiterals
import Owl.Soundness.StringSlice
import Owl.Soundness.StructuralEquality
