import VisualScript.Json.Canonical
import VisualScript.Main
import VisualScript.Proofs.Class.ArrayTexts
import VisualScript.Proofs.Class.Assembly
import VisualScript.Proofs.Class.Fingerprint
import VisualScript.Proofs.Class.Resolution
import VisualScript.Proofs.Code.Traces
import VisualScript.Proofs.Compile.Comments
import VisualScript.Proofs.Compile.Jumps
import VisualScript.Proofs.Compile.Origins
import VisualScript.Proofs.Compile.Slots
import VisualScript.Proofs.Compile.Storage
import VisualScript.Proofs.Compile.Variables
import VisualScript.Proofs.Event.Union
import VisualScript.Proofs.Expansion.Ceiling
import VisualScript.Proofs.Format.Units
import VisualScript.Proofs.Graph.Cycles
import VisualScript.Proofs.Graph.Relinking
import VisualScript.Proofs.Signature.Inheritance
import VisualScript.Proofs.Term.Freshness
import VisualScript.Proofs.Working.Linkage
import VisualScript.Proofs.Working.Pruning
import VisualScript.Proofs.Working.Sequences
import VisualScript.Proofs.Graph.LeastOrder
