import MethodMetadata.Editable.Class
import MethodMetadata.Injector.Basic

/-! Processing whole classes: every method is resolved in order, and what methods end up with
goes into the output table. -/
namespace MethodMetadata.Injector

/-- Takes the exceptions and parameter names of a method into the output table, unless there are
neither. -/
def collect (inj : Injector) (key exceptions parameters : String) : Injector :=
  if exceptions.isEmpty && parameters.isEmpty then inj
  else { inj with output := inj.output.insert key ⟨exceptions, some parameters⟩ }

def keyText (owner : BinaryName) (m : Method) : String :=
  (SignatureKey.mk owner m.name m.descriptor).text

/-- Resolves a method, its exceptions first. -/
def processMethod (owner : BinaryName) (inj : Injector) (m : Method) :
    Outcome Injector InjectionError Method :=
  let begun : LogRecord := ⟨.trace, .injector, s!"Name: {m.name.text} Desc: {m.descriptor}"⟩
  let key := keyText owner m
  let entry := inj.mappings.get? key
  let exceptions := resolveExceptions m (entry.map (·.exceptions))
  match exceptions.result with
  | .error e => ⟨.error (.inMethod key e), inj, begun :: exceptions.log⟩
  | .ok declared =>
    let parameters := inj.resolveParameters owner exceptions.state (entry.bind (·.parameters))
    let log := begun :: (exceptions.log ++ parameters.log)
    match parameters.result with
    | .error e => ⟨.error (.inMethod key e), parameters.state.1, log⟩
    | .ok names => ⟨.ok parameters.state.2, parameters.state.1.collect key declared names, log⟩

def classRecord (c : Class) : LogRecord :=
  let superName := (c.superName.map (·.text)).getD "<none>"
  ⟨.debug, .injector, s!"Class: {c.name.text} Extends: {superName}"⟩

def processMethods (inj : Injector) (c : Class) : Outcome Injector InjectionError Class :=
  let pass := Pass.run (processMethod c.name) inj c.methods
  ⟨pass.result.map fun methods => { c with methods := methods }, pass.state,
    classRecord c :: pass.log⟩

def processClass (inj : Injector) (bytes : List UInt8) :
    Outcome Injector InjectionError (List UInt8) :=
  match Class.parse bytes with
  | .error e => ⟨.error (.classFile e), inj, []⟩
  | .ok c =>
    let outcome := inj.processMethods c
    ⟨outcome.result.bind fun c => c.serialize.mapError .classFile, outcome.state, outcome.log⟩

/-- Processes the bytes of a class kept as an array. -/
def processArray (inj : Injector) (bytes : ByteArray) :
    Outcome Injector InjectionError ByteArray :=
  let outcome := inj.processClass bytes.data.toList
  ⟨outcome.result.map fun made => ⟨made.toArray⟩, outcome.state, outcome.log⟩

end MethodMetadata.Injector
