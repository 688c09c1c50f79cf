import V30Probe.Text.Lemmas
import V30Probe.Category.Reader
import V30Probe.Depth.Counters
import V30Probe.Bus.Recorder
import V30Probe.Host
import V30Probe.Proofs.Bus.Quiet
import V30Probe.Proofs.Branch.Encoding
import V30Probe.Proofs.Branch.RingLog
import V30Probe.Proofs.Branch.Rows
import V30Probe.Proofs.Branch.WellFormed
import V30Probe.Proofs.Session.Actions
import V30Probe.Proofs.Breakpoint.History
import V30Probe.Proofs.Session.History
import V30Probe.Proofs.Session.Tracks
import V30Probe.Proofs.Session.Callback
import V30Probe.Proofs.Session.Installs
import V30Probe.Proofs.Session.Late
import V30Probe.Proofs.Session.Alike
import V30Probe.Proofs.Session.Unwired
import V30Probe.Proofs.Session.Trace
import V30Probe.Proofs.Depth.Alive
import V30Probe.Proofs.Host.Depth
import V30Probe.Proofs.Host.Undisturbed
import V30Probe.Proofs.Listing.Marker
import V30Probe.Proofs.Host.Scopes
import V30Probe.Proofs.Register.Tables
import V30Probe.Proofs.Listing.Layout
import V30Probe.Proofs.Host.Peek
import V30Probe.Proofs.Host.Inspected
import V30Probe.Proofs.Category.Spelling
import V30Probe.Proofs.Breakpoint.Ranges
import V30Probe.Proofs.Listing.Cursor
import V30Probe.Proofs.Text.LogLine
import V30Probe.Proofs.Session.WiringLog
import V30Probe.Proofs.Session.Bounds
