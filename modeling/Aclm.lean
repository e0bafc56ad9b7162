import Aclm.Encoder.Effect
import Aclm.Encoder.Stream
import Aclm.Codegen.Tree
import Aclm.Codegen.Names
import Aclm.Codegen.Labels
import Aclm.Codegen.Targets
import Aclm.Core.Simulation
import Aclm.Codegen.Consistency
import Aclm.Codegen.Arguments
import Aclm.Codegen.Snapshot
import Aclm.Codegen.MemoryAccess
import Aclm.Codegen.Heap
import Aclm.Codegen.Context
import Aclm.Codegen.Policy
import Aclm.Codegen.Completion
import Aclm.Codegen.Ring
import Aclm.Codegen.RingRuns
import Aclm.Codegen.Spin
import Aclm.X64.Region
import Aclm.Image.Boot
import Aclm.Codegen.EnterUser
import Aclm.Codegen.Timer
import Aclm.Codegen.Frames
import Aclm.Macros.Passes
import Aclm.Parser.Raw
import Aclm.Parser.Notation
import Aclm.Codegen.Notation
import Aclm.Codegen.DataLayout
import Aclm.Codegen.Alignment
import Aclm.Codegen.Arithmetic
import Aclm.Codegen.Locals
import Aclm.Codegen.Deterministic
import Aclm.Strict
import Aclm.Strict.Aliases
import Aclm.Compiler
import Aclm.Strict.Shifts
import Aclm.Codegen.References
import Aclm.Codegen.Needs
import Aclm.Codegen.Closed
import Aclm.Codegen.Graceful
import Aclm.Codegen.Raises
import Aclm.Image.Limits
import Aclm.Codegen.Failures
import Aclm.Codegen.Conditional
import Aclm.Codegen.Gate
import Aclm.Codegen.Captured
import Aclm.Codegen.Blast
import Aclm.Codegen.Wire
import Aclm.Codegen.WireEmit
import Aclm.Codegen.Printk
import Aclm.Codegen.Immediates
import Aclm.Encoder.Constants
import Aclm.Encoder.Addressing
import Aclm.Codegen.Offsets
import Aclm.Codegen.Slots
import Aclm.Codegen.Lea
import Aclm.Parser.Spacing
import Aclm.Image.Lines
import Aclm.Codegen.Asserts
import Aclm.Lexer.Lines
import Aclm.Compiler.Includes
import Aclm.Macros.Substitution
import Aclm.Macros.Arity
import Aclm.Macros.Locals
import Aclm.Image.Leb128
import Aclm.Codegen.FnContext
import Aclm.Codegen.TeachMap
import Aclm.Compiler.Check
import Aclm.Codegen.RamfsRuns
import Aclm.Core.Pipeline
import Aclm.Codegen.Switching
import Aclm.Macros.Settled
import Aclm.Codegen.Dispatch
