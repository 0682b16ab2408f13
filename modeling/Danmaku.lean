import Danmaku.Catalog.Basic
import Danmaku.Catalog.Delegate
import Danmaku.Catalog.EntityTypes
import Danmaku.Catalog.Firing
import Danmaku.Code
import Danmaku.Compile.Build
import Danmaku.Compile.Decl
import Danmaku.Compile.Expr
import Danmaku.Compile.Fragment
import Danmaku.Compile.ScopeStack
import Danmaku.Compile.Stmt
import Danmaku.Entity
import Danmaku.Error.Category
import Danmaku.Error.Compile
import Danmaku.Error.Fault
import Danmaku.Error.Registration
import Danmaku.Instr
import Danmaku.Limits
import Danmaku.Machine.Run
import Danmaku.Machine.Step
import Danmaku.Machine.Thread
import Danmaku.Opcode
import Danmaku.Operator
import Danmaku.Position
import Danmaku.Proofs.Catalog.Calls
import Danmaku.Proofs.Catalog.Declared
import Danmaku.Proofs.Catalog.Dispatch
import Danmaku.Proofs.Catalog.Growth
import Danmaku.Proofs.Catalog.History
import Danmaku.Proofs.Catalog.Numbering
import Danmaku.Proofs.Catalog.Rebuild
import Danmaku.Proofs.Catalog.Symbols
import Danmaku.Proofs.Catalog.Table
import Danmaku.Proofs.Catalog.TableIndex
import Danmaku.Proofs.Catalog.TypeIndex
import Danmaku.Proofs.Code.Addresses
import Danmaku.Proofs.Code.Listing
import Danmaku.Proofs.Code.Patching
import Danmaku.Proofs.Code.Placed
import Danmaku.Proofs.Code.Relocation
import Danmaku.Proofs.Code.Writing
import Danmaku.Proofs.Compile.Acceptance
import Danmaku.Proofs.Compile.Accounts
import Danmaku.Proofs.Compile.Arity
import Danmaku.Proofs.Compile.Balance
import Danmaku.Proofs.Compile.Confinement
import Danmaku.Proofs.Compile.Draft
import Danmaku.Proofs.Compile.Drafting
import Danmaku.Proofs.Compile.Failure
import Danmaku.Proofs.Compile.Interface
import Danmaku.Proofs.Compile.Names
import Danmaku.Proofs.Compile.Order
import Danmaku.Proofs.Compile.Relocation
import Danmaku.Proofs.Compile.Script
import Danmaku.Proofs.Compile.Sound
import Danmaku.Proofs.Compile.Straight
import Danmaku.Proofs.Compile.Success
import Danmaku.Proofs.Compile.Sugar
import Danmaku.Proofs.Limits.Agreement
import Danmaku.Proofs.Limits.Larger
import Danmaku.Proofs.Limits.Roomier
import Danmaku.Proofs.Limits.Slices
import Danmaku.Proofs.Machine.Blind
import Danmaku.Proofs.Machine.Bodies
import Danmaku.Proofs.Machine.Budget
import Danmaku.Proofs.Machine.Control
import Danmaku.Proofs.Machine.Execute
import Danmaku.Proofs.Machine.Failure
import Danmaku.Proofs.Machine.Hosting
import Danmaku.Proofs.Machine.Inversion
import Danmaku.Proofs.Machine.Outcome
import Danmaku.Proofs.Machine.Recording
import Danmaku.Proofs.Machine.Reserving
import Danmaku.Proofs.Machine.Session
import Danmaku.Proofs.Machine.Termination
import Danmaku.Proofs.Machine.Ticks
import Danmaku.Proofs.Machine.Trace
import Danmaku.Proofs.Meaning.Basic
import Danmaku.Proofs.Refinement.Activation
import Danmaku.Proofs.Refinement.Body
import Danmaku.Proofs.Refinement.Call
import Danmaku.Proofs.Refinement.CallFree
import Danmaku.Proofs.Refinement.Evaluator
import Danmaku.Proofs.Refinement.Expr
import Danmaku.Proofs.Refinement.Script
import Danmaku.Proofs.Refinement.Stmt
import Danmaku.Proofs.Refinement.Suspension
import Danmaku.Proofs.Safety.Atomic
import Danmaku.Proofs.Safety.Depth
import Danmaku.Proofs.Safety.Ending
import Danmaku.Proofs.Safety.Flags
import Danmaku.Proofs.Safety.Isolation
import Danmaku.Proofs.Safety.Layout
import Danmaku.Proofs.Safety.Operands
import Danmaku.Proofs.Safety.Strict
import Danmaku.Proofs.Safety.Unbroken
import Danmaku.Proofs.Safety.WellFormed
import Danmaku.Proofs.Syntax.Demands
import Danmaku.Proofs.Syntax.Marks
import Danmaku.Proofs.Syntax.Needs
import Danmaku.Proofs.Word.Exact
import Danmaku.Proofs.Word.Value
import Danmaku.Proofs.Word.Whole
import Danmaku.Routine
import Danmaku.Stack
import Danmaku.Syntax
import Danmaku.Table
import Danmaku.Word.Basic
import Danmaku.Word.Decimal
import Danmaku.Word.Remainder
