import Reparse.Main
import Reparse.Proofs.Losslessness
import Reparse.Proofs.Parsing
import Reparse.Proofs.Fields
import Reparse.Proofs.Budgets
import Reparse.Proofs.Replay
import Reparse.Proofs.Derivation
import Reparse.Proofs.Flattening
import Reparse.Proofs.Search
import Reparse.Proofs.Relexing
import Reparse.Proofs.Reuse
import Reparse.Proofs.Stack
import Reparse.Proofs.Lexing
import Reparse.Tree.Query
import Reparse.Proofs.Soundness
import Reparse.Proofs.Exactness
import Reparse.Proofs.Merging
import Reparse.Proofs.Patterns
import Reparse.Proofs.Runs
import Reparse.Proofs.Subsets
import Reparse.Proofs.MaximalMunch
import Reparse.Proofs.Locality
import Reparse.Proofs.Damage
import Reparse.Proofs.Resumption
import Reparse.Proofs.Reparsing
import Reparse.Proofs.Languages
import Reparse.Proofs.Rendering
import Reparse.Proofs.Preservation
import Reparse.Proofs.Paths
import Reparse.Proofs.Images
import Reparse.Proofs.Stripping
import Reparse.Proofs.Trivia
import Reparse.Proofs.Escapes
import Reparse.Proofs.Scanning
import Reparse.Proofs.Records
import Reparse.Proofs.Artifacts
import Reparse.Proofs.Renaming
import Reparse.Proofs.Coarsening
import Reparse.Proofs.Agreement
import Reparse.Proofs.Listing
import Reparse.Proofs.Dominance
import Reparse.Proofs.Conflicts
import Reparse.Proofs.Positions
import Reparse.Proofs.Places
import Reparse.Proofs.Nodes
import Reparse.Proofs.Naming
import Reparse.Proofs.Saturation
import Reparse.Proofs.Refusals
import Reparse.Proofs.Materialization
import Reparse.Proofs.FollowSets
import Reparse.Proofs.Sketches
import Reparse.Proofs.Acceptance
import Reparse.Proofs.Simulation
import Reparse.Proofs.Huff
import Reparse.Proofs.Comments
import Reparse.Proofs.ByteSets
import Reparse.Proofs.Bodies
import Reparse.Proofs.Incremental
