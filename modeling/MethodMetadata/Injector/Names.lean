import MethodMetadata.Editable.Method
import MethodMetadata.Text.Number

/-! The arguments of methods and the names generated for them. A generated name is a stem, which
the method decides, and the slot of the argument. -/
namespace MethodMetadata

namespace Method

/-- The descriptors of all arguments: the receiver, unless the method is static, and the
parameters. -/
def argumentTypes (m : Method) (owner : BinaryName) (d : MethodDescriptor) : List String :=
  (if m.isStatic then [] else [(FieldType.object owner).render]) ++ d.parameters.map FieldType.render

def receiverCount (m : Method) : Nat :=
  if m.isStatic then 0 else 1

def argumentNames (m : Method) (parameters : List String) : List String :=
  (if m.isStatic then [] else [UnqualifiedName.this.text]) ++ parameters

/-- A local variable for each argument, live in the whole body. -/
def argumentTable (m : Method) (names types : List String) : List LocalVariable :=
  let start := (m.code.map Code.startLabel).getD 0
  let stop := (m.code.map Code.endLabel).getD 0
  ((names.zip types).zipIdx).map fun ((name, type), slot) =>
    ⟨name, type, start, stop, UInt16.ofNat slot⟩

/-- Puts other local variables in the place of all there are, if there is a body. -/
def replaceLocals (m : Method) (locals : List LocalVariable) : Method :=
  { m with code := m.code.map (·.replaceLocals locals) }

def locals (m : Method) : List LocalVariable :=
  (m.code.map (·.locals)).getD []

end Method

/-- What names generated for the parameters of a method have in common. -/
inductive NameStem
  | func (id : String)
  | constructor (index : UInt32)
  | plain
  deriving DecidableEq, Repr

namespace NameStem

def name (stem : NameStem) (slot : Nat) : String :=
  match stem with
  | .func id => s!"p_{id}_{slot}_"
  | .constructor index => s!"p_i{index}_{slot}_"
  | .plain => s!"par{slot}"

def names (stem : NameStem) (first count : Nat) : List String :=
  (List.range' first count).map stem.name

def funcMark : List Char := ['f', 'u', 'n', 'c', '_']

/-- The digits in a text of the form `func_<digits>_<rest>` with a rest that is not empty. -/
def funcId? (text : List Char) : Option (List Char) :=
  if funcMark.isPrefixOf text then
    let rest := text.drop funcMark.length
    let id := rest.takeWhile (· ≠ '_')
    let behind := rest.drop (id.length + 1)
    if id.isEmpty || behind.isEmpty || !id.all (fun c => (Number.digit? c).isSome) then none
    else some id
  else none

/-- The stem for a method. Only constructors of a managed class take the next index. -/
def choose (managed : Bool) (index : UInt32) (method : UnqualifiedName) : NameStem :=
  match funcId? method.text.toList with
  | some id => .func (String.ofList id)
  | none => if method = UnqualifiedName.constructor ∧ managed then .constructor index else .plain

/-- The index behind another one. The largest index is never left. -/
def succIndex (index : UInt32) : UInt32 :=
  UInt32.ofNat (min (UInt32.size - 1) (index.toNat + 1))

/-- The next index once a number of names have been made: only a constructor that needs names
uses its index up. -/
def nextIndex (stem : NameStem) (count : Nat) (index : UInt32) : UInt32 :=
  match stem with
  | .constructor _ => if count = 0 then index else succIndex index
  | _ => index

end NameStem

end MethodMetadata
