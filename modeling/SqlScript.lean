import SqlScript.Session
import SqlScript.Proofs.Agreement
import SqlScript.Proofs.Concatenation
import SqlScript.Proofs.Cursor
import SqlScript.Proofs.EventLog
import SqlScript.Proofs.FixedPoint
import SqlScript.Proofs.IntegerLiterals
import SqlScript.Proofs.Progress
import SqlScript.Proofs.Provenance
import SqlScript.Proofs.Respelling
import SqlScript.Proofs.RoundTrip
import SqlScript.Proofs.Tiling
import SqlScript.Proofs.Unambiguous
import SqlScript.Proofs.Viability
