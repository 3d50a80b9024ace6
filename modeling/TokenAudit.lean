import TokenAudit.Main
import TokenAudit.Proofs.Audit.Refusal
import TokenAudit.Proofs.Check.Encoding
import TokenAudit.Proofs.Machine.Isolation
import TokenAudit.Proofs.Machine.KeptWrites
import TokenAudit.Proofs.Machine.Simulation
import TokenAudit.Proofs.Number.Literals
import TokenAudit.Proofs.Path.Dependencies
import TokenAudit.Proofs.Path.Histories
import TokenAudit.Proofs.Path.Naming
import TokenAudit.Proofs.Program.CallGraph
import TokenAudit.Proofs.Program.Construction
import TokenAudit.Proofs.Program.Encoding
import TokenAudit.Proofs.Solver.Declarations
import TokenAudit.Proofs.Solver.Models
import TokenAudit.Proofs.Solver.Texts
import TokenAudit.Proofs.Term.Collisions
import TokenAudit.Proofs.Verify.Budgets
import TokenAudit.Proofs.Verify.CallResults
import TokenAudit.Proofs.Verify.Coverage
import TokenAudit.Proofs.Verify.Infeasible
import TokenAudit.Proofs.Verify.Parameters
import TokenAudit.Proofs.Verify.Partitions
import TokenAudit.Proofs.Verify.Questions
import TokenAudit.Proofs.Verify.Repetition
import TokenAudit.Proofs.Verify.Terminal
import TokenAudit.Proofs.Verify.Timeouts
import TokenAudit.Proofs.Verify.Unavoidable
import TokenAudit.Proofs.Verify.Writes
import TokenAudit.Solver.Canned
import TokenAudit.Solver.Scripted
