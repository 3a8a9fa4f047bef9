import MethodMetadata.Archive.Error
import MethodMetadata.ClassFile.Error
import MethodMetadata.Mapping.Line

/-! What can go wrong while the classes of an archive are given their metadata. -/
namespace MethodMetadata

/-- Why a class, or the whole job, fails. -/
inductive InjectionError
  | file (context : String) (fault : Fault)
  | archive (error : ArchiveError)
  | mapping (line : Nat) (reason : String)
  | argumentCount (expected found : Nat)
  | classFile (error : ClassFileError)
  | inMethod (signature : String) (inner : InjectionError)
  deriving DecidableEq

namespace InjectionError

def ofMapping (error : Mapping.Error) : InjectionError :=
  .mapping error.line error.fault.message

def message : InjectionError → String
  | .file context fault => context ++ ": " ++ fault.message
  | .archive error => "Bad archive: " ++ error.message
  | .mapping line reason => s!"Bad mapping on line {line}: {reason}"
  | .argumentCount expected found =>
    s!"Incorrect argument count (expected {expected}, found {found})"
  | .classFile error => error.message
  | .inMethod signature inner => inner.message ++ " in " ++ signature

/-- The messages of what lies behind an error, from the outside in. -/
def causes : InjectionError → List String
  | .file _ fault => [fault.message]
  | .archive error =>
    match error with
    | .fault f => [error.message, f.message]
    | _ => [error.message]
  | .mapping .. | .argumentCount .. => []
  | .classFile error =>
    match error with
    | .malformed fault => [error.message, fault.message]
    | _ => [error.message]
  | .inMethod _ inner => inner.message :: inner.causes

end InjectionError

end MethodMetadata
