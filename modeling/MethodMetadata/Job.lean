import MethodMetadata.Archive.Processing
import MethodMetadata.Archive.Writing
import MethodMetadata.CommandLine
import MethodMetadata.Host.Basic
import MethodMetadata.Injector.Process
import MethodMetadata.Log.Filter

/-! A whole job: it reads a mapping file, processes the classes of an archive, and may write the
output table and a log. -/
namespace MethodMetadata.Job

variable {m : Type → Type} [Monad m]

/-- Work that may fail, whatever has been written till then. -/
abbrev Work (m : Type → Type) := ExceptT InjectionError m

def attempt {α : Type} (what path : String) (answer : m (Except Fault α)) : Work m α :=
  ExceptT.mk do return (← answer).mapError (.file (what ++ ": " ++ path))

def loadMappings (host : Host m) (emit : List LogRecord → m Unit) (path : String) :
    Work m MappingTable := do
  let bytes ← attempt "Could not open map file" path (host.read path)
  match String.fromUTF8? bytes with
  | none => throw (.file ("Could not open map file: " ++ path) .notUtf8)
  | some text =>
    match MappingTable.parse text with
    | .error e => throw (.ofMapping e)
    | .ok table =>
      emit [⟨.debug, .mappings, s!"Loaded {table.size} mappings from {path}"⟩]
      return table

/-- What is noted if the initial index does not keep clear of indices used before. -/
def indexRecords (options : JobOptions) (mappings : MappingTable) : List LogRecord :=
  let index := options.settings.initialIndex
  match mappings.maxIndex with
  | none => []
  | some most =>
    if 0 < index ∧ index < most then
      [⟨.warn, .job, s!"Starting index {index} is below the max index {most} recorded in " ++
        options.mapFile⟩]
    else []

/-- Processes the classes of an archive into another archive. After a failure the other archive
has what came before it, and it has no bytes at all if there was no archive to read. -/
def processArchive (host : Host m) (emit : List LogRecord → m Unit) (injector : Injector)
    (input output : String) : Work m Injector := do
  attempt "Could not open input file" input (host.canOpen input)
  attempt "Could not open output file" output (host.write output ByteArray.empty)
  match (← host.read input).mapError ArchiveError.fault >>= Archive.readFile with
  | .error e => throw (.archive e)
  | .ok entries =>
    let pass := Archive.process Injector.processArray injector entries
    emit pass.log
    attempt "Could not write output file" output (host.write output (Archive.write pass.done))
    match pass.failure with
    | some e => throw e
    | none => return pass.state

def saveOutput (host : Host m) (emit : List LogRecord → m Unit) (injector : Injector)
    (path : String) : Work m Unit := do
  attempt "Could not write map file" path (host.write path injector.renderOutput.toUTF8)
  emit [⟨.debug, .mappings, s!"Saved {injector.output.size} mappings to {path}"⟩]

def work (host : Host m) (emit : List LogRecord → m Unit) (options : JobOptions) : Work m Unit := do
  let mappings ← loadMappings host emit options.mapFile
  emit (indexRecords options mappings)
  let injector := Injector.new options.settings mappings
  let injector ← processArchive host emit injector options.input options.output
  match options.outputMap with
  | none => return ()
  | some path => saveOutput host emit injector path

/-- The filter text of a job: as given, or everything for a log file of its own. -/
def filterText (options : JobOptions) (given : Option String) : String :=
  match given with
  | some text => text
  | none => if options.log.isSome then LogLevel.trace.name else ""

/-- Runs a job once it is known where lines of its log go. Tells whether it succeeded. -/
def runLogged (host : Host m) (options : JobOptions) (filter : LogFilter)
    (writeLine : String → m Unit) : m Bool := do
  let emit (records : List LogRecord) := (filter.lines records).forM writeLine
  match ← (work host emit options).run with
  | .ok () =>
    host.print ("Processed " ++ options.input)
    return true
  | .error e =>
    emit [⟨.error, .job, e.message⟩]
    host.complain e.message
    return false

/-- Runs a job. The log file is made first, and then the log filter is read. Without a log file
the log goes among the complaints. -/
def run (host : Host m) (options : JobOptions) (filter : Option String) : m Bool := do
  let started ← match options.log with
    | none => pure (.ok host.complain)
    | some path => (attempt "Could not open log file" path (host.startLog path)).run
  match started with
  | .error e =>
    host.complain e.message
    return false
  | .ok writeLine =>
    let (filter, warnings) := LogFilter.read (filterText options filter)
    warnings.forM host.complain
    runLogged host options filter writeLine

end MethodMetadata.Job
