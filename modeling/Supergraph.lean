import Supergraph.Fusion.Config.Json
import Supergraph.Session
import Supergraph.Main
import Supergraph.Proofs.Elementwise
import Supergraph.Proofs.Table
import Supergraph.Proofs.Target
import Supergraph.Proofs.Vocabulary
import Supergraph.Proofs.Composition.Edits
import Supergraph.Proofs.Composition.Authored
import Supergraph.Proofs.Elision
import Supergraph.Proofs.Composition.Overlay
import Supergraph.Proofs.Composition.Success
import Supergraph.Proofs.Composition.Repetition
import Supergraph.Proofs.Recovery
import Supergraph.Proofs.Conformance
import Supergraph.Proofs.Composition.Configuration
import Supergraph.Proofs.Validity.Unapplied
import Supergraph.Proofs.Composition.Merging
import Supergraph.Proofs.Composition.Rereading
import Supergraph.Proofs.Composition.Wording
import Supergraph.Proofs.Composition.Outcome
import Supergraph.Proofs.Composition.Marks
import Supergraph.Proofs.Composition.Frame
import Supergraph.Proofs.Composition.BuiltIns
import Supergraph.Proofs.Validity.Alike
import Supergraph.Proofs.Validity.Carried
import Supergraph.Proofs.Validity.Chains
import Supergraph.Proofs.Composition.Validity
import Supergraph.Proofs.Validity.Specification
import Supergraph.Proofs.Validity.Soundness
import Supergraph.Proofs.Composition.Lawful
import Supergraph.Proofs.Schema.Grouping
import Supergraph.Proofs.Schema.Regrouping
import Supergraph.Proofs.Schema.Arrangement
import Supergraph.Proofs.Schema.ReadBack
import Supergraph.Proofs.Schema.Rewriting
import Supergraph.Proofs.Validity.ReadBack
import Supergraph.Proofs.CommandLine
import Supergraph.Proofs.Composition.Restoration
import Supergraph.Proofs.Composition.Closure
import Supergraph.Proofs.Elision.Pruned
import Supergraph.Proofs.Vocabulary.Apart
import Supergraph.Proofs.Recovery.Record
import Supergraph.Proofs.Document.Selections
import Supergraph.Proofs.Decoding
import Supergraph.Proofs.Template
import Supergraph.Proofs.Json
import Supergraph.Proofs.Config
