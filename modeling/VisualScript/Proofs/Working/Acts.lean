import Mathlib.Logic.Relation
import VisualScript.Proofs.Working.Handlers
import VisualScript.Working.Phases

namespace VisualScript

namespace Working

/-- All that a handler does to a function: change the terms, look at links, report on some nodes. -/
inductive Act (about : NodeId → Prop) : Working → Working → Prop
  | terms (w : Working) (terms : TermTable) : Act about w { w with terms }
  | inspect (w : Working) (p : PortRef) : Act about w (w.inspect p)
  | report (w : Working) (issue : Issue) (id : NodeId) (port : Option UInt16) (h : about id) :
      Act about w (w.report issue (some id) port)

abbrev Acts (about : NodeId → Prop) : Working → Working → Prop := Relation.ReflTransGen (Act about)

variable {about : NodeId → Prop} {w w' : Working}

theorem Acts.same (h : Acts about w w') :
    w'.graph = w.graph ∧ w'.provenance = w.provenance ∧ w'.function = w.function := by
  induction h with
  | refl => exact ⟨rfl, rfl, rfl⟩
  | tail _ h ih => cases h <;> exact ih

theorem Acts.graph (h : Acts about w w') : w'.graph = w.graph := h.same.1

theorem Acts.provenance (h : Acts about w w') : w'.provenance = w.provenance := h.same.2.1

end Working

namespace Build

open Working

variable {about : NodeId → Prop} {id : NodeId}

theorem report_acts (issue : Issue) (h : about id) (port : Option UInt16) :
    Respects (Acts about) (report issue (some id) port) :=
  fun w => .single (.report w issue id port h)

theorem onTerms_acts {α : Type} (f : TermTable → α × TermTable) : Respects (Acts about) (onTerms f) :=
  fun w => .single (.terms w (f w.terms).2)

theorem bind_acts (port : PortRef) (term : TermId) : Respects (Acts about) (bind port term) :=
  fun w => .single (.terms w (w.terms.bind port term))

theorem literal_acts (type : PinType) (value : String) :
    Respects (Acts about) (literal type value) := onTerms_acts _

theorem inputTerm_acts (port : PortRef) : Respects (Acts about) (inputTerm port) := by
  refine .bind (fun w => .single (.inspect w port)) fun _ => .bind .get fun w => ?_
  split
  · exact .pure _
  · split <;> exact literal_acts _ _

theorem classSlot_acts (h : about id) (kind : TermKind) (name : String) (type : PinType) :
    Respects (Acts about) (classSlot kind name type id) := by
  refine .bind .get fun w => ?_
  split
  · next terms _ => exact .bind (fun v => .single (.terms v terms)) fun _ => .pure _
  · exact .bind (report_acts _ h _) fun _ => onTerms_acts _

end Build

namespace Handler

open Build Working

variable {about : NodeId → Prop} {env : Env} {id : NodeId} {n : ScriptNode} {handler : Handler}

theorem register_acts (hh : Registry.standard.handler? n = some handler) (habout : about id) :
    Respects (Acts about) (handler.register env id n) := by
  have hadmits : AdmitsRegister (Acts about) id n :=
    { add _ _ _ _ := onTerms_acts _
      addLocal _ _ _ _ := onTerms_acts _
      literal _ := literal_acts
      slot _ _ := classSlot_acts habout _ _ _
      bind _ _ := bind_acts _ _
      report _ issue := report_acts issue habout none }
  exact hadmits.register hh

theorem emit_acts (hh : Registry.standard.handler? n = some handler)
    (habout : n.kind.isEntry = false → about id) :
    Respects (Acts about) (handler.emit env id n) := by
  have hadmits : AdmitsEmit (Acts about) id n :=
    ⟨literal_acts, inputTerm_acts, fun hk _ _ name type => classSlot_acts (habout hk) _ name type⟩
  exact hadmits.emit hh

end Handler

end VisualScript
