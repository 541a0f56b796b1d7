import MiniScheme.Host.Node
import MiniScheme.Main
import MiniScheme.Proofs.Machine.References
import MiniScheme.Proofs.Session.Failure
import MiniScheme.Proofs.Session.Verification
import MiniScheme.Proofs.Session.TailCalls
import MiniScheme.Proofs.Session.Slicing
import MiniScheme.Proofs.Core.Correctness
import MiniScheme.Proofs.Core.Templates
import MiniScheme.Proofs.Heap.Identity
import MiniScheme.Proofs.Session.Ceiling
import MiniScheme.Proofs.Machine.Redirections
import MiniScheme.Proofs.Rule.Inverse
import MiniScheme.Proofs.Rule.Drivers
import MiniScheme.Proofs.Rule.NormalForms
import MiniScheme.Proofs.Compiler.Initializers
import MiniScheme.Proofs.Heap.Unfolding
import MiniScheme.Proofs.Reading.Integers
import MiniScheme.Proofs.Heap.Elision
import MiniScheme.Proofs.Session.Backtraces
import MiniScheme.Proofs.Stdlib.Frame
import MiniScheme.Proofs.Code.Decoding
import MiniScheme.Proofs.Stdlib.Integers
import MiniScheme.Proofs.Reading.Composition
