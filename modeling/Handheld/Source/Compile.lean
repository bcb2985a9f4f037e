import Handheld.Asm.Assemble
import Handheld.Source.Emit
import Handheld.Source.Grammar
import Handheld.Source.Survey

/-!
The compiler: source text to code, to assembly text, and to an image.
-/
namespace Handheld.Source

open Asm

def startCode (g : Globals) : Code :=
  [.op .space [.int g.size]] ++
    (g.inits.map fun (addr, bytes) =>
      .op .init (.addr addr :: bytes.map fun b => .int b.toNat)) ++
    (g.strings.flatMap fun (addr, s) =>
      [.op (.access .handle .dword false) [.addr addr], pushStr s, .op .store, .op .pop])

def compileCode (source : String) : Except Error Code := do
  let c := Cursor.ofSource source
  let globals ← survey c
  let code ← emitFunctions globals 0 (functions globals.macros c)
  return startCode globals ++ [.op .jmp [.label (.named "main")]] ++ code

def compile (source : String) : Except Error String :=
  (compileCode source).map Code.render

inductive BuildError where
  | source (e : Error)
  | assembly (e : Asm.Error)

def build (source : String) (options : Options) : Except BuildError (Array UInt8) :=
  match compile source with
  | .error e => .error (.source e)
  | .ok text => (assemble text options).mapError .assembly

end Handheld.Source
