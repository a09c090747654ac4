import CommittedChoice.Engine
import CommittedChoice.OnDemand.Heap
import CommittedChoice.Callback
import CommittedChoice.Deferred
import CommittedChoice.Config.Basic
import CommittedChoice.Proofs.Course
import CommittedChoice.Proofs.Meaning
import CommittedChoice.Proofs.OnDemand.Demand
import CommittedChoice.Proofs.Engines
import CommittedChoice.Proofs.Relocation
import CommittedChoice.Proofs.Stateless
import CommittedChoice.Proofs.Erasure
import CommittedChoice.Proofs.OnDemand.Nodes
import CommittedChoice.Proofs.OnDemand.Repetition
import CommittedChoice.Proofs.OnDemand.Algebra
import CommittedChoice.Proofs.Propagation
import CommittedChoice.Proofs.Streaming
import CommittedChoice.Proofs.Sources
import CommittedChoice.Proofs.Accounting
import CommittedChoice.Proofs.Walking
import CommittedChoice.Proofs.Stopping
import CommittedChoice.Proofs.Demands
import CommittedChoice.Proofs.Laws
import CommittedChoice.Proofs.Pulling
import CommittedChoice.Proofs.OnDemand.Wording
import CommittedChoice.Proofs.Configuration
import CommittedChoice.Proofs.Renaming
import CommittedChoice.Proofs.Interruption
import CommittedChoice.Proofs.OnDemand.Interruption
import CommittedChoice.Proofs.OnDemand.Attempts
import CommittedChoice.Proofs.Unfolding
import CommittedChoice.Proofs.Renamed
import CommittedChoice.Proofs.Matches
import CommittedChoice.Proofs.Readers
import CommittedChoice.Proofs.Given
import CommittedChoice.Proofs.Heap.Ranks
import CommittedChoice.Proofs.Heap.Guarded
import CommittedChoice.Proofs.OnDemand.Settling
import CommittedChoice.Proofs.Heap.Changes
import CommittedChoice.Proofs.Heap.Represented
import CommittedChoice.Proofs.Heap.Mirrors
import CommittedChoice.Proofs.Heap.Outcomes
import CommittedChoice.Proofs.Heap.Frames
import CommittedChoice.Proofs.Heap.Links
import CommittedChoice.Proofs.Heap.Adequacy
import CommittedChoice.Proofs.Reentrance
import CommittedChoice.Proofs.Tags
import CommittedChoice.Proofs.Until
import CommittedChoice.Proofs.Brackets
import CommittedChoice.Proofs.Bounded
import CommittedChoice.Proofs.Operators
import CommittedChoice.Proofs.OnDemand.Queries
import CommittedChoice.Proofs.OnDemand.Retelling
import CommittedChoice.Proofs.Resumption
import CommittedChoice.Proofs.Sequences
import CommittedChoice.Proofs.Literals
import CommittedChoice.Proofs.Printing
import CommittedChoice.Proofs.Choices
import CommittedChoice.Proofs.Restoring
import CommittedChoice.Proofs.Environment
import CommittedChoice.Proofs.Layers
import CommittedChoice.Proofs.WholeInput
import CommittedChoice.Proofs.Snapshots
import CommittedChoice.Proofs.Reports
import CommittedChoice.Proofs.Wrappers
import CommittedChoice.Proofs.Shelves
import CommittedChoice.Proofs.Files
