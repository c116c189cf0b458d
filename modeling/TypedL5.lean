import TypedL5.Main
import TypedL5.Ty.Inspect
import TypedL5.Proofs.Termination
import TypedL5.Proofs.Soundness
import TypedL5.Proofs.Run
import TypedL5.Proofs.Exactness
import TypedL5.Proofs.Confinement
import TypedL5.Proofs.Draw
import TypedL5.Proofs.CheckReach
import TypedL5.Proofs.Parsed
import TypedL5.Proofs.FailedForm
import TypedL5.Proofs.Simulation
import TypedL5.Proofs.Mirror
import TypedL5.Proofs.Lockstep
import TypedL5.Proofs.MirrorRules
import TypedL5.Proofs.Independence
import TypedL5.Proofs.Scanned
import TypedL5.Proofs.ReadBack
import TypedL5.Proofs.WellFormed
import TypedL5.Proofs.Accepted
import TypedL5.Proofs.Reparse
import TypedL5.Proofs.RoundTrip
import TypedL5.Proofs.WrittenType
import TypedL5.Proofs.Sites
import TypedL5.Proofs.ExactReadBack
import TypedL5.Proofs.Lexical
import TypedL5.Proofs.Acceptance
import TypedL5.Proofs.Continuation
import TypedL5.Proofs.Halting
import TypedL5.Proofs.Dialogue
import TypedL5.Proofs.ProgramSession
import TypedL5.Proofs.Waiting
import TypedL5.Proofs.Juxtaposed
import TypedL5.Proofs.SessionReach
import TypedL5.Proofs.SessionMirror
import TypedL5.Proofs.SplitInput
import TypedL5.Proofs.Refusal
import TypedL5.Proofs.Symmetry
import TypedL5.Proofs.DigitLimit
import TypedL5.Proofs.Guarded
import TypedL5.Proofs.Faultless
import TypedL5.Proofs.Unseen
import TypedL5.Proofs.Tracing
import TypedL5.Proofs.Settled
import TypedL5.Proofs.Elaborated
import TypedL5.Proofs.PrintedType
import TypedL5.Proofs.Calls
import TypedL5.Proofs.Recorded
import TypedL5.Proofs.Declared
import TypedL5.Proofs.Origin
import TypedL5.Proofs.Explained
import TypedL5.Proofs.Hints
import TypedL5.Proofs.EditDistance
import TypedL5.Proofs.Visible
import TypedL5.Proofs.Search
