import LogicAsm.Text.CharSet
import LogicAsm.Text.Blank
import LogicAsm.Text.Lines
import LogicAsm.Text.Unassigned
import LogicAsm.Text.Printable
import LogicAsm.Text.Quoted
import LogicAsm.Text.Token
import LogicAsm.Source.Operator
import LogicAsm.Source.Expr
import LogicAsm.Source.Stmt
import LogicAsm.Machine
import LogicAsm.Fault
import LogicAsm.Instr.Basic
import LogicAsm.Instr.Printer
import LogicAsm.Instr.Reader
import LogicAsm.Linking
import LogicAsm.Listing
import LogicAsm.Generator
import LogicAsm.Lowering.Operator
import LogicAsm.Lowering.Expr
import LogicAsm.Lowering.Stmt
import LogicAsm.Compile
import LogicAsm.Workspace
import LogicAsm.Proofs.Execution
import LogicAsm.Proofs.Outline
import LogicAsm.Proofs.OwnCode
import LogicAsm.Proofs.Semantics
import LogicAsm.Proofs.Computation
import LogicAsm.Proofs.ExprCode
import LogicAsm.Proofs.Structured
import LogicAsm.Proofs.Preservation
import LogicAsm.Proofs.Copies
import LogicAsm.Proofs.Tokens
import LogicAsm.Proofs.Provenance
import LogicAsm.Proofs.TextLinking
import LogicAsm.Proofs.LinkedForm
import LogicAsm.Proofs.Spelling
import LogicAsm.Proofs.LineGrammar
import LogicAsm.Proofs.RoundTrip
import LogicAsm.Proofs.Checking
import LogicAsm.Proofs.Expansion
import LogicAsm.Proofs.Dangling
import LogicAsm.Proofs.Replacement
import LogicAsm.Proofs.Numbers
import LogicAsm.Proofs.UniqueLabels
import LogicAsm.Proofs.Sessions
import LogicAsm.Proofs.Confinement
import LogicAsm.Proofs.Renumbering
import LogicAsm.Proofs.SpillStack
import LogicAsm.Proofs.Trimming
import LogicAsm.Proofs.Evaluation
import LogicAsm.Proofs.Folding
import LogicAsm.Proofs.AppendOnly
import LogicAsm.Proofs.Declarations
import LogicAsm.Proofs.Renaming
import LogicAsm.Proofs.Relocation
import LogicAsm.Proofs.ListingText
import LogicAsm.Proofs.UniqueSplit
