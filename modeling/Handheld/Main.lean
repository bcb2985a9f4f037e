import Handheld.Command

/-!
The program: reads its command line, carries the command out on the files of the system, and reports.
-/
namespace Handheld
namespace Command

def reason : IO.Error → String
  | .noFileOrDirectory .. => Disk.Error.missing.message
  | e => toString e

def perform (c : Command) : IO Reply := do
  match ← (IO.FS.readBinFile c.input).toBaseIO with
  | .error e => return failed (fileError c.input (reason e))
  | .ok contents =>
    match c.outcome contents.toList with
    | .failure message => return failed message
    | .print text => return { output := text }
    | .write path data =>
      match ← (IO.FS.writeBinFile path ⟨data.toArray⟩).toBaseIO with
      | .ok () => return {}
      | .error e => return failed (fileError path (reason e))

def usage : String :=
  "usage: (compile | assemble | build | disasm) INPUT [-o OUTPUT] [--mask N] [--width N] [--height N]"

end Command
end Handheld

def main (args : List String) : IO UInt32 := do
  match Handheld.Command.parse args with
  | none =>
    IO.eprintln Handheld.Command.usage
    return 2
  | some c =>
    let reply ← c.perform
    IO.print reply.output
    IO.eprint reply.errors
    return reply.exit
