import QueryShorthand.CommandLine.Outcome

/-! The command. It opens no connections, so every request that is not a dry run fails. -/

namespace QueryShorthand
set_option autoImplicit false

partial def readBytes (stream : IO.FS.Stream) (done : ByteArray) : IO (List UInt8) := do
  let chunk ← stream.read 65536
  if chunk.isEmpty then return done.toList else readBytes stream (done ++ chunk)

/-- The standard input is read only when no fields are given, and never from a terminal. -/
def standardInput : Invocation → IO (List UInt8)
  | .run ⟨_, [], _⟩ => do
    let stdin ← IO.getStdin
    if ← stdin.isTty then return [] else readBytes stdin .empty
  | _ => return []

end QueryShorthand

open QueryShorthand in
def main (args : List String) : IO UInt32 := do
  let invocation := Invocation.ofArgs (args.map String.toList)
  let outcome := invocation.outcome .offline (← standardInput invocation) (.unreachable [])
  IO.print (String.ofList outcome.stdout)
  if let some message := outcome.stderr then IO.eprint (String.ofList message)
  return outcome.code.toUInt32
