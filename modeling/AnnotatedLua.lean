import AnnotatedLua.Proofs.Binding
import AnnotatedLua.Proofs.Codec.Accepted
import AnnotatedLua.Proofs.Walk
import AnnotatedLua.Proofs.Shape.Greatest
import AnnotatedLua.Proofs.Shape.Inheritance
import AnnotatedLua.Proofs.Call.Position
import AnnotatedLua.Proofs.Termination.Layers
import AnnotatedLua.Proofs.World
import AnnotatedLua.Proofs.Member.Narrowest
import AnnotatedLua.Proofs.Call.Explained
import AnnotatedLua.Proofs.Query.Restored
import AnnotatedLua.Proofs.Result.Union
import AnnotatedLua.Proofs.Result.Pairing
import AnnotatedLua.Proofs.Union.Strings
