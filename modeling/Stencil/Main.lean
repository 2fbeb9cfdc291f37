import Stencil.Command.Run

namespace Stencil

def decode (bytes : ByteArray) : Option String :=
  String.fromUTF8? bytes

-- A file that cannot be read gives no text.
def readFile (path : String) : IO (Option String) :=
  try
    return decode (← IO.FS.readBinFile path)
  catch _ => return none

def readInput : IO (Option String) := do
  let stdin ← IO.getStdin
  return decode (← stdin.readBinToEnd)

end Stencil

def main (args : List String) : IO UInt32 := do
  let exit ← Stencil.runProgram ⟨Stencil.readFile, Stencil.readInput⟩ args
  (← IO.getStdout).putStr exit.stdout
  (← IO.getStderr).putStr exit.stderr
  return exit.code.toUInt32
