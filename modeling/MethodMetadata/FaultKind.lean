/-! The kinds of failure that reading, writing and file access tell apart. -/
namespace MethodMetadata

/-- What sort of failure a fault is, whatever its text. -/
inductive FaultKind
  | invalidData
  | invalidInput
  | unexpectedEnd
  | notFound
  | permissionDenied
  | isADirectory
  | notADirectory
  | other
  deriving DecidableEq, Repr

end MethodMetadata
