import MethodMetadata.Program

/-! The program on the files and streams of the system. -/
namespace MethodMetadata

def numberedFault (kind : FaultKind) (code : UInt32) (details : String) : Fault :=
  .reported kind s!"{details} (os error {code})"

def systemFault : IO.Error → Fault
  | .noFileOrDirectory _ code details => numberedFault .notFound code details
  | .permissionDenied _ code details => numberedFault .permissionDenied code details
  | .inappropriateType _ code details =>
    numberedFault (if code = 21 then .isADirectory else .notADirectory) code details
  | .invalidArgument _ code details => numberedFault .invalidInput code details
  | .alreadyExists _ code details | .resourceExhausted _ code details
  | .noSuchThing _ code details | .interrupted _ code details
  | .otherError code details | .resourceBusy code details | .resourceVanished code details
  | .unsupportedOperation code details | .hardwareFault code details
  | .unsatisfiedConstraints code details | .illegalOperation code details
  | .protocolError code details | .timeExpired code details => numberedFault .other code details
  | .unexpectedEof => .endOfInput
  | .userError text => .reported .other text

def guarded {α : Type} (action : IO α) : IO (Except Fault α) := do
  try return .ok (← action)
  catch error => return .error (systemFault error)

def systemHost : Host IO where
  canOpen path := guarded (discard (IO.FS.Handle.mk path .read))
  read path := guarded (IO.FS.readBinFile path)
  write path bytes := guarded (IO.FS.writeBinFile path bytes)
  startLog path := guarded do
    let file ← IO.FS.Handle.mk path .write
    return fun line => discard <| guarded do
      file.putStrLn line
      file.flush
  print := IO.println
  complain := IO.eprintln

end MethodMetadata

open MethodMetadata in
def main (arguments : List String) : IO UInt32 := do
  Program.run systemHost arguments (← IO.getEnv "RUST_LOG")
