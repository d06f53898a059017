import PairScript.Eval.FrameText
import PairScript.Main
import PairScript.Proofs.Eval.Depth
import PairScript.Proofs.Eval.Frames
import PairScript.Proofs.Eval.Members
import PairScript.Proofs.Eval.Pairs
import PairScript.Proofs.Eval.Ranges
import PairScript.Proofs.Eval.Scoping
import PairScript.Proofs.Eval.Visits
import PairScript.Proofs.Parse.Breaks
import PairScript.Proofs.Parse.Continuation
import PairScript.Proofs.Parse.EndMark
import PairScript.Proofs.Parse.Retains
import PairScript.Proofs.Parse.RoundTrip
import PairScript.Proofs.Parse.Unread
import PairScript.Proofs.Primitive.Division
import PairScript.Proofs.Primitive.Input
import PairScript.Proofs.Primitive.Powers
import PairScript.Proofs.Program.Concat
import PairScript.Proofs.Program.Faults
import PairScript.Proofs.Program.Hygiene
import PairScript.Proofs.Program.Lines
import PairScript.Proofs.Program.Operators
import PairScript.Proofs.Program.ShortCircuit
import PairScript.Proofs.Syntax.Climbing
import PairScript.Proofs.Syntax.Sorting
import PairScript.Proofs.Token.Folding
import PairScript.Proofs.Token.Literals
import PairScript.Proofs.Value.Equality
