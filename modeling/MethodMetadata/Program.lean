import MethodMetadata.Job

/-! The program: it takes its arguments apart, runs the job, and tells by its exit status how that
went. -/
namespace MethodMetadata.Program

def versionText : String := "MCInjector 0.1.0"

def helpText : String :=
  "Inject exceptions and parameter names into the classes of a JAR

Usage: mcinjector [OPTIONS] <INPUT> <OUTPUT> <MAPFILE>

Arguments:
  <INPUT>    Input JAR
  <OUTPUT>   Output JAR (overwritten if it exists)
  <MAPFILE>  Mapping file with exceptions and parameter names

Options:
      --log <FILE>          Write a full log of the run to this file
      --outmap <FILE>       Write the exceptions and parameter names of every method to this file
      --index <N>           First constructor index for generated names (0 turns generation off) [default: 0]
      --namespace <PREFIX>  Class name prefix of the classes being named [default: net/minecraft/]
  -h, --help                Print help
  -V, --version             Print version"

/-- Runs the program. The exit status is zero after a success, one after a failed job, and two
after arguments that make no sense. -/
def run {m : Type → Type} [Monad m] (host : Host m) (arguments : List String)
    (filter : Option String) : m UInt32 := do
  match CommandLine.parse arguments with
  | .error e =>
    host.complain e.message
    return 2
  | .ok .help =>
    host.print helpText
    return 0
  | .ok .version =>
    host.print versionText
    return 0
  | .ok (.run options) =>
    let succeeded ← Job.run host options filter
    return if succeeded then 0 else 1

end MethodMetadata.Program
