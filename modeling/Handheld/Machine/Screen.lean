import Handheld.Machine.Drawing

/-!
The screen as text: the rows of the console, then those of the visible raster.
-/
namespace Handheld.Machine

def screen (m : Machine) : String :=
  (m.console.lines m.memory).foldl (fun s line => s ++ line ++ "\n") "" ++ (m.plane 0x40).toAscii

end Handheld.Machine
