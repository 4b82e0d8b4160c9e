import CallCommunities.Main
import CallCommunities.Proofs.Partition.Named
import CallCommunities.Proofs.Hierarchy.Ascent
import CallCommunities.Proofs.Hierarchy.Ceiling
import CallCommunities.Proofs.Hierarchy.Connectivity
import CallCommunities.Proofs.Hierarchy.ConnectedParts
import CallCommunities.Proofs.Hierarchy.Components
import CallCommunities.Proofs.Hierarchy.Resume
import CallCommunities.Proofs.Hierarchy.Quotients
import CallCommunities.Proofs.Hierarchy.Identifiers
import CallCommunities.Proofs.Hierarchy.Headroom
import CallCommunities.Proofs.Hierarchy.SweepLimit
import CallCommunities.Proofs.Hierarchy.Resemblance
import CallCommunities.Proofs.Hierarchy.Counterparts
import CallCommunities.Proofs.Hierarchy.Renaming
import CallCommunities.Proofs.Hierarchy.Enumeration
import CallCommunities.Proofs.Words.Exact
import CallCommunities.Proofs.Partition.Gains
import CallCommunities.Proofs.Partition.Restart
import CallCommunities.Proofs.Partition.Termination
import CallCommunities.Proofs.Partition.Optima
import CallCommunities.Proofs.Partition.Plain
import CallCommunities.Proofs.Partition.Listings
import CallCommunities.Proofs.Partition.Scratch
import CallCommunities.Proofs.Partition.Splitting
import CallCommunities.Proofs.Partition.Merging
import CallCommunities.Proofs.Partition.Occupied
import CallCommunities.Proofs.Partition.CanonicalForm
import CallCommunities.Proofs.Command.Asking
import CallCommunities.Proofs.Files.Writing
import CallCommunities.Proofs.Files.Discovery
import CallCommunities.Proofs.Command.Stages
import CallCommunities.Proofs.Command.Effects
import CallCommunities.Proofs.Json.Strings
import CallCommunities.Proofs.Json.Documents
import CallCommunities.Proofs.Command.Continue
import CallCommunities.Proofs.Graph.Interleaving
import CallCommunities.Proofs.Graph.Classes
import CallCommunities.Proofs.Graph.Making
import CallCommunities.Proofs.Partition.Acceptance
import CallCommunities.Proofs.Report.Candidates
import CallCommunities.Proofs.Report.OneClass
import CallCommunities.Proofs.Report.Headings
