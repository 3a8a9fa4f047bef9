import MethodMetadata.ClassFile.Error
import MethodMetadata.Descriptor

/-! Method signatures: what identifies a method across all classes, and the descriptor that a
method must have to be given parameter names. -/
namespace MethodMetadata

/-- Class, name and descriptor text of a method. -/
structure SignatureKey where
  owner : BinaryName
  name : UnqualifiedName
  descriptor : String
  deriving DecidableEq

/-- The key as one text, such as `net/minecraft/Foo.func_123_a(I)V`. -/
def SignatureKey.text (key : SignatureKey) : String :=
  key.owner.text ++ "." ++ key.name.text ++ key.descriptor

def MethodDescriptor.ofText (text : String) : Except ClassFileError MethodDescriptor :=
  (parse text).mapError fun e => .badDescriptor s!"'{text}': {e.message}"

end MethodMetadata
