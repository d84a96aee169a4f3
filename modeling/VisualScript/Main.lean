import VisualScript.CommandLine

namespace VisualScript

def readText (path : String) : IO (Except String String) := do
  try
    return .ok (← IO.FS.readFile path)
  catch
    | .noFileOrDirectory .. => return .error "No such file or directory (os error 2)"
    | e => return .error (toString e)

def Command.paths : Command → List String
  | .compile unit options .. => unit :: options.toList
  | .check unit => [unit]

def usage : String := "usage: compile [flags] [--options FILE] UNIT, or check UNIT"

end VisualScript

open VisualScript

def main (args : List String) : IO UInt32 := do
  match Command.parse? args with
  | none =>
      IO.eprintln usage
      return 2
  | some command =>
      let texts ← command.paths.mapM fun path => do return (path, ← readText path)
      let o := command.run fun path => (texts.lookup path).getD (.error "not read")
      o.out.forM IO.println
      o.err.forM IO.eprintln
      return UInt32.ofNat o.code
