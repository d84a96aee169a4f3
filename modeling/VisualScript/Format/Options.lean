import VisualScript.Json.Decoder
import VisualScript.Options

namespace VisualScript

namespace CompileMode

def toJson : CompileMode → Json
  | .skeleton => .str "SkeletonOnly"
  | .full => .str "Full"

def ofJson : Decoder CompileMode := Case.oneOf [("SkeletonOnly", .skeleton), ("Full", .full)]

end CompileMode

namespace CompileOptions

def toJson (o : CompileOptions) : Json :=
  .object
    [("mode", o.mode.toJson), ("debug_instrumentation", .bool o.debugInstrumentation),
      ("emit_node_comments", .bool o.emitNodeComments),
      ("save_intermediate_products", .bool o.saveIntermediateProducts),
      ("include_potential_roots", .bool o.includePotentialRoots),
      ("persistent_event_graph_frame", .bool o.persistentEventGraphFrame),
      ("max_expansion_depth", .nat o.maxExpansionDepth), ("max_expanded_nodes", .nat o.maxExpandedNodes)]

/-- Every field may be left out. -/
def ofJson : Decoder CompileOptions := fun d j => do
  let r ← Record.decode
    ["mode", "debug_instrumentation", "emit_node_comments", "save_intermediate_products",
      "include_potential_roots", "persistent_event_graph_frame", "max_expansion_depth",
      "max_expanded_nodes"] d j
  let o : CompileOptions := {}
  return {
    mode := ← r.getD "mode" o.mode CompileMode.ofJson
    debugInstrumentation := ← r.getD "debug_instrumentation" o.debugInstrumentation .bool
    emitNodeComments := ← r.getD "emit_node_comments" o.emitNodeComments .bool
    saveIntermediateProducts := ← r.getD "save_intermediate_products" o.saveIntermediateProducts .bool
    includePotentialRoots := ← r.getD "include_potential_roots" o.includePotentialRoots .bool
    persistentEventGraphFrame := ← r.getD "persistent_event_graph_frame" o.persistentEventGraphFrame .bool
    maxExpansionDepth := ← r.getD "max_expansion_depth" o.maxExpansionDepth .word32
    maxExpandedNodes := ← r.getD "max_expanded_nodes" o.maxExpandedNodes .word64 }

end CompileOptions

end VisualScript
