import QuasiScript.Main
import QuasiScript.Proofs.Comments
import QuasiScript.Proofs.CompileFaults
import QuasiScript.Proofs.Continuation
import QuasiScript.Proofs.Descent
import QuasiScript.Proofs.Environments
import QuasiScript.Proofs.Growth
import QuasiScript.Proofs.Incremental
import QuasiScript.Proofs.Layout
import QuasiScript.Proofs.LexicalScope
import QuasiScript.Proofs.Negation
import QuasiScript.Proofs.Nesting
import QuasiScript.Proofs.NumeralGrammar
import QuasiScript.Proofs.NumericLiterals
import QuasiScript.Proofs.ObjectKeys
import QuasiScript.Proofs.Operators
import QuasiScript.Proofs.OutputFiles
import QuasiScript.Proofs.Positions
import QuasiScript.Proofs.PromptLines
import QuasiScript.Proofs.PromptUnits
import QuasiScript.Proofs.Quasiquotation
import QuasiScript.Proofs.ReadFaults
import QuasiScript.Proofs.Respelling
import QuasiScript.Proofs.Returns
import QuasiScript.Proofs.RoundTrip
import QuasiScript.Proofs.Routing
import QuasiScript.Proofs.Schedules
import QuasiScript.Proofs.ScopeNests
import QuasiScript.Proofs.SessionRuns
import QuasiScript.Proofs.Spelling
import QuasiScript.Proofs.StatementStarts
import QuasiScript.Proofs.StringLiterals
import QuasiScript.Proofs.ValuePositions
import QuasiScript.Proofs.Writing
