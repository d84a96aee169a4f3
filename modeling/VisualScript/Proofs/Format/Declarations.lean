import VisualScript.Format.Unit
import VisualScript.Proofs.Json.Decoding
import VisualScript.Proofs.Signature.Flags

namespace VisualScript

open Decoder

variable (limit : Nat)

theorem Container.restores (c : Container) : Restores limit Container.ofJson c.toJson c := by
  cases c <;> exact Case.restores_oneOf (by rfl)

theorem BaseType.restores (t : BaseType) : Restores limit BaseType.ofJson t.toJson t := by
  cases t
  case enum n => exact Case.restores_tagged fun _ _ _ => ⟨plain_str n, by rfl⟩
  case struct n => exact Case.restores_tagged fun _ _ _ => ⟨plain_str n, by rfl⟩
  case object n => exact Case.restores_tagged fun _ _ _ => ⟨plain_str n, by rfl⟩
  case interface n => exact Case.restores_tagged fun _ _ _ => ⟨plain_str n, by rfl⟩
  all_goals exact Case.restores_str fun _ => by rfl

theorem PinType.restores (t : PinType) : Restores limit PinType.ofJson t.toJson t := by
  refine Record.restores ["base", "container"] _ rfl (by decide) fun d hd hfields => ?_
  obtain ⟨hbase, hcontainer⟩ := hfields
  simp [Record.get, Record.getD, Record.find?, t.base.restores _ d hd hbase,
    t.container.restores _ d hd hcontainer]
  rfl

theorem Flags.restores (f : Flags) : Restores limit Flags.ofJson f.toJson f :=
  fun d _ _ => ⟨plain_str _, by simp [toJson, ofJson, ofText?_text, bind, Except.bind]⟩

theorem ParamDirection.restores (d : ParamDirection) :
    Restores limit ParamDirection.ofJson d.toJson d := by
  cases d <;> exact Case.restores_oneOf (by rfl)

theorem Param.restores (p : Param) : Restores limit Param.ofJson p.toJson p := by
  refine Record.restores ["name", "ty", "direction"] _ rfl (by decide) fun d hd hfields => ?_
  obtain ⟨-, htype, hdirection⟩ := hfields
  simp [Record.get, Record.find?, p.type.restores _ d hd htype, p.direction.restores _ d hd hdirection]
  rfl

theorem Signature.restores (s : Signature) : Restores limit Signature.ofJson s.toJson s := by
  have hlist (limit : Nat) : Restores limit (.list Param.ofJson) (.list Param.toJson s.params) s.params :=
    .list_self fun p _ => p.restores (limit - 1)
  refine Record.restores ["name", "params", "flags"] _ rfl (by decide) fun d hd hfields => ?_
  obtain ⟨-, hparams, hflags⟩ := hfields
  simp [Record.get, Record.getD, Record.find?, hlist _ d hd hparams, s.flags.restores _ d hd hflags]
  rfl

theorem Direction.restores (d : Direction) : Restores limit Direction.ofJson d.toJson d := by
  cases d <;> exact Case.restores_oneOf (by rfl)

theorem Role.restores (r : Role) : Restores limit Role.ofJson (.str r.name) r := by
  cases r <;> exact Case.restores_oneOf (by rfl)

theorem Port.restores (p : Port) : Restores limit Port.ofJson p.toJson p := by
  refine Record.restores ["name", "direction", "role", "ty", "default_value"] _ rfl (by decide)
    fun d hd hfields => ?_
  obtain ⟨-, hdirection, hrole, htype, hdefault⟩ := hfields
  simp [Record.get, Record.optional, Record.getD, Record.find?, p.direction.restores _ d hd hdirection,
    p.role.restores _ d hd hrole, p.type.restores _ d hd htype, restores_text _ p.default d hd hdefault]
  rfl

theorem LocalDecl.restores (l : LocalDecl) : Restores limit LocalDecl.ofJson l.toJson l := by
  refine Record.restores ["name", "ty", "default_value"] _ rfl (by decide) fun d hd hfields => ?_
  obtain ⟨-, htype, hdefault⟩ := hfields
  simp [Record.get, Record.optional, Record.getD, Record.find?, l.type.restores _ d hd htype,
    restores_text _ l.default d hd hdefault]
  rfl

theorem EntrySpec.restores (s : EntrySpec) : Restores limit EntrySpec.ofJson s.toJson s := by
  have hlist (limit : Nat) : Restores limit (.list LocalDecl.ofJson)
    (.list LocalDecl.toJson s.locals) s.locals :=
    .list_self fun l _ => l.restores (limit - 1)
  refine Record.restores ["function", "locals", "flags", "computed_dispatch"] _ rfl (by decide)
    fun d hd hfields => ?_
  obtain ⟨-, hlocals, hflags, -⟩ := hfields
  simp [Record.get, Record.getD, Record.find?, hlist _ d hd hlocals, s.flags.restores _ d hd hflags]
  rfl

theorem EventSpec.restores (s : EventSpec) : Restores limit EventSpec.ofJson s.toJson s := by
  refine Record.restores ["name", "is_override", "flags"] _ rfl (by decide) fun d hd hfields => ?_
  obtain ⟨-, -, hflags⟩ := hfields
  simp [Record.get, Record.getD, Record.find?, s.flags.restores _ d hd hflags]
  rfl

theorem TunnelSide.restores (s : TunnelSide) : Restores limit TunnelSide.ofJson s.toJson s := by
  cases s <;> exact Case.restores_oneOf (by rfl)

theorem BoundarySite.restores (s : BoundarySite) : Restores limit BoundarySite.ofJson s.toJson s := by
  cases s <;> exact Case.restores_oneOf (by rfl)

theorem Signature.restores_list (functions : List Signature) :
    Restores limit (.list Signature.ofJson) (.list Signature.toJson functions) functions :=
  .list_self fun s _ => s.restores (limit - 1)

theorem ParentClass.restores (p : ParentClass) : Restores limit ParentClass.ofJson p.toJson p := by
  refine Record.restores ["name", "functions"] _ rfl (by decide) fun d hd hfields => ?_
  obtain ⟨-, hfunctions⟩ := hfields
  simp [Record.get, Record.getD, Record.find?, Signature.restores_list _ p.functions d hd hfunctions]
  rfl

theorem InterfaceDecl.restores (i : InterfaceDecl) : Restores limit InterfaceDecl.ofJson i.toJson i := by
  refine Record.restores ["name", "functions"] _ rfl (by decide) fun d hd hfields => ?_
  obtain ⟨-, hfunctions⟩ := hfields
  simp [Record.get, Record.getD, Record.find?, Signature.restores_list _ i.functions d hd hfunctions]
  rfl

theorem VariableDecl.restores (v : VariableDecl) : Restores limit VariableDecl.ofJson v.toJson v := by
  refine Record.restores ["name", "ty", "default_value"] _ rfl (by decide) fun d hd hfields => ?_
  obtain ⟨-, htype, hdefault⟩ := hfields
  simp [Record.get, Record.optional, Record.getD, Record.find?, v.type.restores _ d hd htype,
    restores_text _ v.default d hd hdefault]
  rfl

theorem ComponentDecl.restores (c : ComponentDecl) : Restores limit ComponentDecl.ofJson c.toJson c := by
  refine Record.restores ["name", "class"] _ rfl (by decide) fun _ _ _ => ?_
  simp [Record.get, Record.find?]
  rfl

end VisualScript
