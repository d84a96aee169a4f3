import VisualScript.Proofs.Format.Graphs
import VisualScript.Proofs.Working.Tracing

namespace VisualScript

open Decoder

def Node.shell {κ : Type} (n : Node κ) : Node Unit := { n with kind := () }

/-- Graphs with the same links and, kinds apart, the same nodes at the same ids. They may differ in
which free id is taken next. -/
structure Graph.SameLayout {κ : Type} (g g' : Graph κ) : Prop where
  name : g'.name = g.name
  nextOrder : g'.nextOrder = g.nextOrder
  shells : ∀ id, (g'.node? id).map Node.shell = (g.node? id).map Node.shell
  link? : ∀ id, g'.link? id = g.link? id
  edges : ∀ p, g'.edges p = g.edges p

/-- Kinds that are the same down to the layout of the graphs in composites. -/
inductive NodeKind.Alike : NodeKind → NodeKind → Prop
  | same (k : NodeKind) : Alike k k
  | composite {body body' : Graph NodeKind} (hlayout : body.SameLayout body')
      (hkinds : ∀ {id n n'}, body.node? id = some n → body'.node? id = some n' → Alike n.kind n'.kind) :
      Alike (.composite body) (.composite body')

structure ScriptGraph.Alike (g g' : ScriptGraph) : Prop where
  layout : g.SameLayout g'
  kinds : ∀ {id n n'}, g.node? id = some n → g'.node? id = some n' → NodeKind.Alike n.kind n'.kind

theorem Graph.Sound.sameLayout_saved {κ : Type} {g : Graph κ} (h : g.Sound) (f : κ → κ) :
    g.SameLayout (g.saved f) where
  name := rfl
  nextOrder := rfl
  shells id := by
    rw [Graph.node?_saved, Option.map_map]
    rfl
  link? := h.tidy.link?_saved
  edges := h.edges_saved

theorem ScriptGraph.alike_saved {g : ScriptGraph} {f : NodeKind → NodeKind} (h : g.Sound)
    (hkind : ∀ {id n}, g.node? id = some n → NodeKind.Alike n.kind (f n.kind)) :
    ScriptGraph.Alike g (g.saved f) where
  layout := h.sameLayout_saved f
  kinds {id n n'} hn hn' := by
    rw [Graph.node?_saved, hn] at hn'
    cases hn'
    exact hkind hn

theorem ScriptNode.toJson_eq (n : ScriptNode) : ScriptNode.toJson n = n.formOf n.kind.toJson := by
  cases n
  rw [ScriptNode.toJson]

theorem slotsToJson_eq (slots : List (Option ScriptNode)) :
    slotsToJson slots = slots.reduceOption.map fun n => n.formOf n.kind.toJson := by
  induction slots with
  | nil => rw [slotsToJson]; rfl
  | cons s slots ih =>
      cases s with
      | none => rw [slotsToJson, slotToJson, List.nil_append, ih, List.reduceOption_cons_of_none]
      | some n =>
          rw [slotsToJson, slotToJson, ScriptNode.toJson_eq, ih, List.reduceOption_cons_of_some,
            List.map_cons, List.singleton_append]

theorem ScriptGraph.toJson_eq (g : ScriptGraph) :
    ScriptGraph.toJson g = g.formOf (g.slots.reduceOption.map fun n => n.formOf n.kind.toJson) := by
  cases g
  rw [ScriptGraph.toJson, slotsToJson_eq]

namespace NodeKind

/-- A kind as it is written and read, where composites nest at most `fuel` deep. -/
def savedWithin : Nat → NodeKind → NodeKind
  | fuel + 1, .composite body => .composite (body.saved (savedWithin fuel))
  | _, k => k

end NodeKind

def ScriptGraph.saved (g : ScriptGraph) : ScriptGraph := Graph.saved (NodeKind.savedWithin nesting) g

namespace CompilationUnit

variable {u : CompilationUnit}

theorem alike_savedWithin (hgraphs : ∀ g, u.Authors g → g.Sound) (fuel : Nat) {k : NodeKind}
    (hk : ∀ body, k = .composite body → u.Authors body) : k.Alike (k.savedWithin fuel) := by
  induction fuel generalizing k with
  | zero => cases k <;> exact .same _
  | succ fuel ih =>
      cases k with
      | composite body =>
          have hbody := hk body rfl
          obtain ⟨hlayout, hkinds⟩ := ScriptGraph.alike_saved (hgraphs body hbody) fun hn =>
            ih fun _ hc => .composite hbody hn hc
          exact .composite hlayout hkinds
      | _ => exact .same _

theorem restores_kind (hgraphs : ∀ g, u.Authors g → g.Sound ∧ g.Fits) (fuel : Nat) {k : NodeKind}
    (hk : ∀ body, k = .composite body → u.Authors body) :
    Restores fuel (NodeKind.ofJsonWithin fuel) k.toJson (k.savedWithin fuel) := by
  induction fuel generalizing k with
  | zero => exact fun d hd hdepth => by omega
  | succ fuel ih =>
      cases k with
      | functionEntry spec =>
          exact Case.restores_payload NodeKind.functionEntry (spec.restores _) fun _ _ => rfl
      | functionResult | branch | sequence | literal | makeArray | comment | persistentFrameAssign =>
          exact Case.restores_str fun _ => rfl
      | event spec => exact Case.restores_payload NodeKind.event (spec.restores _) fun _ _ => rfl
      | callFunction function =>
          exact Case.restores_payload NodeKind.callFunction
            (Record.restores_one "function" (.string function)) fun _ _ => rfl
      | variableGet name =>
          exact Case.restores_payload NodeKind.variableGet
            (Record.restores_one "variable" (.string name)) fun _ _ => rfl
      | variableSet name =>
          exact Case.restores_payload NodeKind.variableSet
            (Record.restores_one "variable" (.string name)) fun _ _ => rfl
      | enumLiteral enumName =>
          exact Case.restores_payload NodeKind.enumLiteral
            (Record.restores_one "enum_name" (.string enumName)) fun _ _ => rfl
      | macroInstance macroName resolved =>
          refine Case.restores_payload id (Record.restores ["macro_name", "resolved_type"] _ rfl
            (by decide) fun d hd hfields => ?_)
            fun _ _ => (bind_pure _).symm
          have hresolved : Restores (fuel - 1) (.option PinType.ofJson)
            (.option PinType.toJson resolved) resolved :=
            .option resolved fun t _ => ⟨t.restores _, by simp [PinType.toJson, Json.object]⟩
          simp [Record.get, Record.optional, Record.getD, Record.find?, hresolved d hd hfields.2]
          rfl
      | composite body =>
          -- The kinds in the body lie six levels deeper and are read with one less of fuel, so the
          -- fuel lasts.
          have hbody := hk body rfl
          have hgraph : Restores (fuel - 1) (Graph.ofJsonWith (NodeKind.ofJsonWithin fuel))
              (ScriptGraph.toJson body)
              (body.saved (NodeKind.savedWithin fuel)) := by
            rw [ScriptGraph.toJson_eq]
            exact (hgraphs body hbody).1.restores (hgraphs body hbody).2 fun hn =>
              (ih fun _ hc => .composite hbody hn hc).mono (by omega)
          exact Case.restores_payload NodeKind.composite (Record.restores_one "body" hgraph)
            fun _ _ => (bind_assoc ..).symm
      | tunnel side => exact Case.restores_payload NodeKind.tunnel (side.restores _) fun _ _ => rfl
      | tunnelBoundary site =>
          exact Case.restores_payload NodeKind.tunnelBoundary
            (Record.restores_one "site" (site.restores _)) fun _ _ => (bind_assoc ..).symm
      | callEventGraph event =>
          exact Case.restores_payload NodeKind.callEventGraph
            (Record.restores_one "event" (.string event)) fun _ _ => rfl
      | custom name properties =>
          refine Case.restores_payload id
            (Record.restores ["name", "properties"] _ rfl (by decide) fun d hd hfields => ?_)
            fun _ _ => (bind_pure _).symm
          have hproperties : Restores (fuel - 1) (.orderedMap key? .string)
              (.object (properties.entries.map fun p => (p.1, .str p.2))) (properties.mapValues id) :=
            .orderedMap properties fun p _ => .string p.2
          rw [OrderedMap.mapValues_id] at hproperties
          simp [Record.get, Record.getD, Record.find?, hproperties d hd hfields.2]
          rfl

theorem restores_graph (hgraphs : ∀ g, u.Authors g → g.Sound ∧ g.Fits) {g : ScriptGraph}
    (hg : u.Authors g) {limit : Nat} (hlimit : limit ≤ nesting) :
    Restores limit ScriptGraph.ofJson (ScriptGraph.toJson g) (ScriptGraph.saved g) := by
  rw [ScriptGraph.toJson_eq]
  exact (hgraphs g hg).1.restores (hgraphs g hg).2 fun hn =>
    (restores_kind hgraphs nesting fun _ hc => .composite hg hn hc).mono (by omega)

theorem alike_graph (hgraphs : ∀ g, u.Authors g → g.Sound) {g : ScriptGraph} (hg : u.Authors g) :
    ScriptGraph.Alike g (ScriptGraph.saved g) :=
  ScriptGraph.alike_saved (hgraphs g hg) fun hn => alike_savedWithin hgraphs nesting fun _ hc =>
    .composite hg hn hc

/-- Units that are the same down to the layout of their graphs. -/
structure Alike (u u' : CompilationUnit) : Prop where
  name : u'.name = u.name
  parent : u'.parent = u.parent
  interfaces : u'.interfaces = u.interfaces
  fields : u'.fields = u.fields
  components : u'.components = u.components
  functionGraphs : u.functionGraphs.Forall₂ ScriptGraph.Alike u'.functionGraphs
  eventGraphs : u.eventGraphs.Forall₂ ScriptGraph.Alike u'.eventGraphs
  macros : u.macros.entries.Forall₂ (fun m m' => m'.1 = m.1 ∧ ScriptGraph.Alike m.2 m'.2) u'.macros.entries

def saved (u : CompilationUnit) : CompilationUnit :=
  { u with
    functionGraphs := u.functionGraphs.map ScriptGraph.saved
    eventGraphs := u.eventGraphs.map ScriptGraph.saved
    macros := u.macros.mapValues ScriptGraph.saved }

theorem alike_saved (hgraphs : ∀ g, u.Authors g → g.Sound) : u.Alike u.saved where
  name := rfl
  parent := rfl
  interfaces := rfl
  fields := rfl
  components := rfl
  functionGraphs := by
    rw [saved, List.forall₂_map_right_iff, List.forall₂_same]
    exact fun g hg => alike_graph hgraphs (.function hg)
  eventGraphs := by
    rw [saved, List.forall₂_map_right_iff, List.forall₂_same]
    exact fun g hg => alike_graph hgraphs (.page hg)
  macros := by
    rw [saved, OrderedMap.mapValues, List.forall₂_map_right_iff, List.forall₂_same]
    exact fun m hm => ⟨rfl, alike_graph hgraphs (.macroBody (OrderedMap.get?_eq_some.mpr hm))⟩

theorem restores (hgraphs : ∀ g, u.Authors g → g.Sound ∧ g.Fits) :
    Restores nesting ofJson u.toJson u.saved := by
  have hgraph {g : ScriptGraph} (hg : u.Authors g) :
    Restores (nesting - 1 - 1) ScriptGraph.ofJson (ScriptGraph.toJson g) (ScriptGraph.saved g) :=
    restores_graph hgraphs hg (by omega)
  have hparent : Restores (nesting - 1) (.option ParentClass.ofJson)
    (.option ParentClass.toJson u.parent) u.parent :=
    .option u.parent fun p _ => ⟨p.restores _, by simp [ParentClass.toJson, Json.object]⟩
  have hinterfaces : Restores (nesting - 1) (.list InterfaceDecl.ofJson)
    (.list InterfaceDecl.toJson u.interfaces) u.interfaces :=
    .list_self fun i _ => i.restores _
  have hfields : Restores (nesting - 1) (.list VariableDecl.ofJson)
    (.list VariableDecl.toJson u.fields) u.fields :=
    .list_self fun v _ => v.restores _
  have hcomponents : Restores (nesting - 1) (.list ComponentDecl.ofJson)
    (.list ComponentDecl.toJson u.components) u.components :=
    .list_self fun c _ => c.restores _
  have hfunctions : Restores (nesting - 1) (.list ScriptGraph.ofJson)
    (.list ScriptGraph.toJson u.functionGraphs) u.saved.functionGraphs :=
    .list fun g hg => hgraph (.function hg)
  have hevents : Restores (nesting - 1) (.list ScriptGraph.ofJson)
    (.list ScriptGraph.toJson u.eventGraphs) u.saved.eventGraphs :=
    .list fun g hg => hgraph (.page hg)
  have hmacros : Restores (nesting - 1) MacroLibrary.ofJson (MacroLibrary.toJson u.macros)
    u.saved.macros :=
    .orderedMap u.macros fun m hm => hgraph (.macroBody (OrderedMap.get?_eq_some.mpr hm))
  refine Record.restores
    ["name", "parent", "interfaces", "variables", "components", "function_graphs", "event_graphs",
      "macros"] _ rfl (by decide)
    fun d hd hdepth => ?_
  obtain ⟨-, hpd, hid, hvd, hcd, hfd, hed, hmd⟩ := hdepth
  simp [Record.get, Record.optional, Record.getD, Record.find?, Record.settle, hparent d hd hpd,
    hinterfaces d hd hid,
    hfields d hd hvd, hcomponents d hd hcd, hfunctions d hd hfd, hevents d hd hed, hmacros d hd hmd]
  rfl

/-- A unit comes back from the text it is saved as, whatever characters, flags and vacant ids it has. -/
theorem ofText_toText (hgraphs : ∀ g, u.Authors g → g.Sound ∧ g.Fits) (hdepth : u.toJson.depth < nesting) :
    ∃ u', ofText u.toText = .ok u' ∧ u.Alike u' := by
  obtain ⟨hplain, hdecode⟩ := restores hgraphs nesting (Nat.le_refl _) hdepth
  refine ⟨u.saved, ?_, alike_saved fun g hg => (hgraphs g hg).1⟩
  rw [ofText, Decoder.text, toText, hplain.read?_pretty]
  exact hdecode

end CompilationUnit

theorem Graph.attempt_slots {κ : Type} (g : Graph κ) (a b : PortRef) :
    (g.attempt a b).slots = g.slots := by
  rcases g.attempt_cases a b with he | ⟨l, hc⟩
  · rw [he]
  · exact Graph.connect_slots hc

namespace CompilationUnit

/-- A composite and an entry beside a vacant id. Not all flags of the entry have names, and its own
name needs escapes. -/
def attic : ScriptGraph :=
  let entry : ScriptNode :=
    { ScriptNode.entry "say \"hi\"\n" with
      kind := .functionEntry { function := "say \"hi\"\n", flags := ⟨0x80000001⟩ } }
  let chest : ScriptNode := { ScriptNode.composite Graph.reopened with ports := [.execIn "exec"] }
  ((((Graph.addNode { name := "attic" } (ScriptNode.comment "old")).2.addNode entry).2.addNode
    chest).2.removeNode 0).attempt ⟨1, 0⟩ ⟨2, 0⟩

def house : CompilationUnit :=
  { name := "house", functionGraphs := [attic], macros := .ofList [("chest", Graph.reopened)] }

theorem house_restored : (∀ g, house.Authors g → g.Sound ∧ g.Fits) ∧ house.toJson.depth < nesting ∧
    ∃ u', ofText house.toText = .ok u' ∧ house.Alike u' := by
  have hattic : attic.Sound ∧ attic.Fits :=
    ⟨(((((Graph.Built.empty "attic").addNode _).addNode _).addNode _).removeNode 0).connect ⟨1, 0⟩
      ⟨2, 0⟩ |>.sound.1,
      by decide +kernel, by decide +kernel, by decide +kernel⟩
  have hreopened : Graph.reopened.Sound ∧ Graph.reopened.Fits :=
    ⟨(((((Graph.Built.empty "open").addNode _).addNode _).removeNode 0).addNode _).connect ⟨0, 0⟩
      ⟨1, 0⟩ |>.sound.1,
      by decide +kernel, by decide +kernel, by decide +kernel⟩
  have hauthors (g : ScriptGraph) (hg : house.Authors g) : g = attic ∨ g = Graph.reopened := by
    induction hg with
    | function hg => exact Or.inl (List.mem_singleton.mp hg)
    | page hg => cases hg
    | macroBody hg =>
        have hg : (_, _) ∈ [("chest", Graph.reopened)] := OrderedMap.get?_eq_some.mp hg
        exact Or.inr (congrArg Prod.snd (List.mem_singleton.mp hg))
    | @composite g body id n hg hn hk ih =>
        rcases ih with rfl | rfl
        · -- Linking two ports leaves the nodes alone.
          have hn := (Graph.node?_congr (Graph.attempt_slots _ _ _) id).symm.trans hn
          obtain _ | _ | _ | id := id
          · cases hn
          · cases hn
            cases hk
          · cases hn
            cases hk
            exact Or.inr rfl
          · cases hn
        · have htag : ∀ p ∈ Graph.reopened.stored, p.2.kind.tag ≠ .composite := by decide +kernel
          exact absurd (congrArg NodeKind.tag hk) (htag _ (Graph.mem_stored.mpr hn))
  have hgraphs (g : ScriptGraph) (hg : house.Authors g) : g.Sound ∧ g.Fits := by
    rcases hauthors g hg with rfl | rfl
    · exact hattic
    · exact hreopened
  have hdepth : house.toJson.depth < nesting := by decide +kernel
  exact ⟨hgraphs, hdepth, ofText_toText hgraphs hdepth⟩

end CompilationUnit

end VisualScript
