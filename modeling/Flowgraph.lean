import Flowgraph.Entity.Decoding
import Flowgraph.Json.Reader
import Flowgraph.Json.Writer
import Flowgraph.Syntax.Stack
import Flowgraph.Proofs.Scoping
import Flowgraph.Proofs.Lifting.Cloning
import Flowgraph.Proofs.Lifting.Tracing
import Flowgraph.Proofs.Scopes.Captures
import Flowgraph.Proofs.Scopes.Deferral
import Flowgraph.Proofs.KnownTests
import Flowgraph.Proofs.Locations.Programs
import Flowgraph.Proofs.Branches
import Flowgraph.Proofs.TupleSubscripts
import Flowgraph.Proofs.Iteration
import Flowgraph.Proofs.PrimitiveTypes
import Flowgraph.Proofs.Annotations
import Flowgraph.Proofs.Graph.Names
import Flowgraph.Proofs.Encodings
