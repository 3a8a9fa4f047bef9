/-! Log records: what a run notes while it goes on, and the lines that the records are written
as. Every record has a level, the part of the program that made it, and a message. -/
namespace MethodMetadata

/-- How much a record matters, the gravest first. -/
inductive LogLevel
  | error | warn | info | debug | trace
  deriving DecidableEq, Repr

namespace LogLevel

/-- The place of a level, the gravest having the least. -/
def rank : LogLevel → Nat
  | .error => 1
  | .warn => 2
  | .info => 3
  | .debug => 4
  | .trace => 5

def name : LogLevel → String
  | .error => "ERROR"
  | .warn => "WARN"
  | .info => "INFO"
  | .debug => "DEBUG"
  | .trace => "TRACE"

def column (level : LogLevel) : String :=
  String.ofList (level.name.toList.rightpad 5 ' ')

end LogLevel

/-- The part of the program that makes a record. -/
inductive LogSource
  | job | mappings | archive | injector | exceptions | parameters
  deriving DecidableEq, Repr

def LogSource.path : LogSource → String
  | .job => "mcinjector"
  | .mappings => "mcinjector::mappings::table"
  | .archive => "mcinjector::archive"
  | .injector => "mcinjector::inject"
  | .exceptions => "mcinjector::inject::exceptions"
  | .parameters => "mcinjector::inject::parameters"

/-- Something noted during a run. -/
structure LogRecord where
  level : LogLevel
  source : LogSource
  message : String
  deriving DecidableEq, Repr

namespace LogRecord

/-- A character of a message as it is written: what follows a line break is indented. -/
def messageChar (c : Char) : List Char :=
  if c = '\n' then ['\n', ' ', ' ', ' ', ' '] else [c]

def line (record : LogRecord) : String :=
  "[" ++ record.level.column ++ " " ++ record.source.path ++ "] " ++
    String.ofList (record.message.toList.flatMap messageChar)

end LogRecord

end MethodMetadata
