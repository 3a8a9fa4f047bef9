import MethodMetadata.Injector.Error
import MethodMetadata.Injector.Names
import MethodMetadata.Mapping.Table
import MethodMetadata.Outcome
import MethodMetadata.Signature

/-! The injector: it gives methods the exceptions and the argument names of a mapping table,
generates names where none are mapped, and collects what the methods end up with. -/
namespace MethodMetadata

/-- What a job is to do. Only classes in the managed namespace report parameter names, and only
their constructors use the index. With the initial index zero no names are generated. -/
structure Settings where
  managedNamespace : String := "net/minecraft/"
  initialIndex : UInt32 := 0
  deriving DecidableEq, Repr

/-- A job on classes one after the other. The index runs on across classes, so that no two
constructors get the same names. -/
structure Injector where
  settings : Settings
  mappings : MappingTable
  output : MappingTable
  index : UInt32

namespace Injector

def new (settings : Settings) (mappings : MappingTable) : Injector :=
  ⟨settings, mappings, MappingTable.empty, settings.initialIndex⟩

/-- Whether names are generated where none are mapped. -/
def generates (inj : Injector) : Bool :=
  0 < inj.settings.initialIndex

/-- Whether a class is in the managed namespace. -/
def manages (inj : Injector) (owner : BinaryName) : Bool :=
  owner.isWithin inj.settings.managedNamespace

/-- The comment in front of the output table, which lets a later job go on with the index. -/
def outputHeader (inj : Injector) : Option String :=
  if inj.generates then some (MappingTable.maxIndexHeader inj.index) else none

def renderOutput (inj : Injector) : String :=
  inj.output.render inj.outputHeader

/-- Declares the mapped exceptions in the place of those that a method declares. -/
def mapExceptions (m : Method) (mapped : String) : Except InjectionError Method :=
  match (CommaList.split mapped).mapM BinaryName.ofString with
  | .ok names => .ok { m with exceptions := names }
  | .error fault => .error (.classFile (.badName fault.message))

def declared (m : Method) : String :=
  CommaList.join (m.exceptions.map (·.text))

/-- Resolves the exceptions of a method to those mapped, or to those it declares, and tells
them. -/
def resolveExceptions (m : Method) (mapped : Option String) : Outcome Method InjectionError String :=
  match mapped with
  | none => ⟨.ok (declared m), m, []⟩
  | some text =>
    let log := [⟨.debug, .exceptions, "Adding Exceptions: " ++ text⟩]
    match mapExceptions m text with
    | .ok m => ⟨.ok (declared m), m, log⟩
    | .error e => ⟨.error e, m, log⟩

/-- The names that the parameters of a method are to get, if they are to get any, and the index
that is next then. -/
def parameterNames (inj : Injector) (owner : BinaryName) (m : Method) (count : Nat)
    (mapped : Option String) : Option (List String) × UInt32 :=
  match mapped with
  | some text => (some (CommaList.split text), inj.index)
  | none =>
    if inj.generates then
      let stem := NameStem.choose (inj.manages owner) inj.index m.name
      (some (stem.names m.receiverCount count), stem.nextIndex count inj.index)
    else (none, inj.index)

/-- The names of local variables other than the receiver, as a comma list. -/
def reported (locals : List LocalVariable) : String :=
  CommaList.join ((locals.map (·.name)).filter (· ≠ UnqualifiedName.this.text))

/-- What is told of local variables: nothing outside of the managed namespace. -/
def report (inj : Injector) (owner : BinaryName) (locals : List LocalVariable) : String :=
  if inj.manages owner then reported locals else ""

def namingRecord (argument : LocalVariable × Nat) : LogRecord :=
  ⟨.debug, .parameters,
    s!"Naming argument {argument.2} -> {argument.1.name} {argument.1.descriptor}"⟩

/-- Resolves the argument names of a method to those mapped or generated, or to those it has,
and tells those of the parameters. A method without a body has none to keep, but tells its new
ones. -/
def resolveParameters (inj : Injector) (owner : BinaryName) (m : Method) (mapped : Option String) :
    Outcome (Injector × Method) InjectionError String :=
  match MethodDescriptor.ofText m.descriptor with
  | .error e => ⟨.error (.classFile e), (inj, m), []⟩
  | .ok d =>
    match inj.parameterNames owner m d.parameters.length mapped with
    | (none, _) => ⟨.ok (inj.report owner m.locals), (inj, m), []⟩
    | (some parameters, index) =>
      let names := m.argumentNames parameters
      let types := m.argumentTypes owner d
      if names.length = types.length then
        let table := m.argumentTable names types
        ⟨.ok (inj.report owner table), ({ inj with index := index }, m.replaceLocals table),
          table.zipIdx.map namingRecord⟩
      else ⟨.error (.argumentCount types.length names.length), ({ inj with index := index }, m), []⟩

end Injector

end MethodMetadata
