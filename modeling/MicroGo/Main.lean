import MicroGo.Command.Run

/-!
# The command line

The outer layer: it connects the command to the files and streams of the machine.
-/

namespace MicroGo
namespace Command

/-- The reason behind a failed operation on a file. -/
def FileError.ofError : IO.Error → FileError
  | .noFileOrDirectory .. => .missing
  | .inappropriateType _ code _ => if code = 21 then .isDirectory else .notDirectory
  | e => .other (toString e)

/-- The files of the machine. -/
def machineFiles : FileSystem IO where
  read path := do
    try
      return textOfBytes (← IO.FS.readBinFile path)
    catch e =>
      return .error (.ofError e)
  write path text := do
    try
      IO.FS.writeFile path text
      return .ok ()
    catch e =>
      return .error (.ofError e)

end Command
end MicroGo

open MicroGo.Command in
/-- Runs the command on the arguments of the process. -/
def main (args : List String) : IO UInt32 := do
  let threshold := (← IO.getEnv "RUST_LOG").bind MicroGo.Level.ofWord?
  let reply ← run machineFiles threshold args
  (← IO.getStderr).putStr reply.stderr
  (← IO.getStdout).putStr reply.stdout
  return reply.exit.toUInt32
