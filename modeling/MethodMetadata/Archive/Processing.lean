import MethodMetadata.Archive.Reading
import MethodMetadata.Outcome

/-! Processing the classes of an archive. A handler with a state is run on each class in order;
directories and all other files stay as they are. -/
namespace MethodMetadata.Archive

abbrev Handler (σ : Type) := σ → ByteArray → Outcome σ InjectionError ByteArray

variable {σ : Type}

def record (message : String) : LogRecord :=
  ⟨.info, .archive, message⟩

/-- Processes an entry if it is a class. A class comes out compressed. -/
def processEntry (handler : Handler σ) (state : σ) (entry : ArchiveEntry) :
    Outcome σ InjectionError ArchiveEntry :=
  match entry.content with
  | .directory => ⟨.ok entry, state, []⟩
  | .file bytes _ =>
    if ArchiveEntry.isClass entry.name then
      let outcome := handler state bytes
      let begun := record ("Processing " ++ entry.name)
      match outcome.result with
      | .error e => ⟨.error e, outcome.state, begun :: outcome.log⟩
      | .ok made =>
        ⟨.ok { entry with content := .file made false }, outcome.state,
          begun :: (outcome.log ++ [record s!"Processed {bytes.size} -> {made.size}"])⟩
    else ⟨.ok entry, state, [record ("Copying " ++ entry.name)]⟩

def processRead (handler : Handler σ) (state : σ) (read : Except InjectionError ArchiveEntry) :
    Outcome σ InjectionError ArchiveEntry :=
  match read with
  | .error e => ⟨.error e, state, []⟩
  | .ok entry => processEntry handler state entry

/-- Processes the entries of an archive up to the first failure. -/
def process (handler : Handler σ) (state : σ)
    (entries : List (Except InjectionError ArchiveEntry)) : Pass σ InjectionError ArchiveEntry :=
  Pass.run (processRead handler) state entries

end MethodMetadata.Archive
