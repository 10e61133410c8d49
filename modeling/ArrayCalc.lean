import ArrayCalc.Main
import ArrayCalc.Proofs.Syntax.Unambiguous
import ArrayCalc.Proofs.Evaluation.Traced
import ArrayCalc.Proofs.Syntax.Value
import ArrayCalc.Proofs.Evaluation.TreeRuns
import ArrayCalc.Proofs.Evaluation.Acceptance
import ArrayCalc.Proofs.Evaluation.Names
import ArrayCalc.Proofs.Evaluation.Source
import ArrayCalc.Proofs.Token.Places
import ArrayCalc.Proofs.Evaluation.Pending
import ArrayCalc.Proofs.Evaluation.Faults
import ArrayCalc.Proofs.Evaluation.Accounts
import ArrayCalc.Proofs.Evaluation.Postorder
import ArrayCalc.Proofs.Load.Bounds
import ArrayCalc.Proofs.Session
import ArrayCalc.Proofs.Load.Reading
import ArrayCalc.Proofs.Load.Composition
import ArrayCalc.Proofs.Load.Records
import ArrayCalc.Proofs.Load.LastRecord
import ArrayCalc.Proofs.Table.History
import ArrayCalc.Proofs.Token.Spans
import ArrayCalc.Proofs.Token.Layout
import ArrayCalc.Proofs.Evaluation.Positions
import ArrayCalc.Proofs.Load.ArrayRecord
import ArrayCalc.Proofs.Evaluation.Exact
import ArrayCalc.Proofs.Table.Candidates
import ArrayCalc.Proofs.Evaluation.Unread
import ArrayCalc.Proofs.Evaluation.Agreement
import ArrayCalc.Proofs.Table.Listing
import ArrayCalc.Proofs.Load.Bytes
import ArrayCalc.Proofs.CommandLine.Report
import ArrayCalc.Proofs.Number.Slots
import ArrayCalc.Proofs.Evaluation.Groups
import ArrayCalc.Proofs.Evaluation.OpenSubscripts
