import PacedAudio.ByteQueue
import PacedAudio.Cell.Nesting
import PacedAudio.Ring.Contents
import PacedAudio.Ring.Lag
import PacedAudio.Proofs.Ring.Refinement
import PacedAudio.Proofs.Ring.Flushing
import PacedAudio.Proofs.Feed.Course
import PacedAudio.Proofs.Session.Course
import PacedAudio.Proofs.Session.Protocol
import PacedAudio.Proofs.Session.Playback
import PacedAudio.Proofs.RateTable.Entries
import PacedAudio.Proofs.Session.Refusals
import PacedAudio.Session.Switching
import PacedAudio.Proofs.Session.Change
import PacedAudio.Proofs.Session.Coherence
import PacedAudio.Proofs.Feed.Alike
import PacedAudio.Proofs.Session.Overruns
import PacedAudio.Proofs.Session.Renewal
import PacedAudio.Proofs.Feed.Quiet
import PacedAudio.Session.Round
import PacedAudio.Proofs.Session.Absorption
import PacedAudio.Proofs.Session.Echo
import PacedAudio.Proofs.Ring.Copies
import PacedAudio.Proofs.Cell.Borrowing
import PacedAudio.Proofs.Session.Accounts
import PacedAudio.Proofs.Divider.Search
import PacedAudio.Proofs.Divider.Multiples
import PacedAudio.Proofs.Divider.Supply
import PacedAudio.Proofs.RateTable.Accuracy
import PacedAudio.Session.Checked
import PacedAudio.Proofs.Session.Faults
import PacedAudio.Proofs.Feed.Sequence
import PacedAudio.Proofs.Divider.Terms
import PacedAudio.Proofs.Divider.Optimum
import PacedAudio.Proofs.Divider.Order
import PacedAudio.Proofs.RateTable.Support
import PacedAudio.Proofs.Session.Since
import PacedAudio.Proofs.Session.Pacing
import PacedAudio.Proofs.Feed.Silence
import PacedAudio.Proofs.Ring.Interleaving
import PacedAudio.Proofs.Speed.Hysteresis
