import MethodMetadata.Fault

/-! What can go wrong with an archive as a whole. -/
namespace MethodMetadata

/-- Faults of the records that hold an archive together. -/
inductive ArchiveError
  | tooShort
  | missingEnd
  | missingWideEnd
  | noRoomForWideEnd
  | directoryMisplaced
  | directoryOutOfReach
  | badDirectoryHeader
  | badEntryHeader
  | offsetTooLarge
  | missingAesField
  | badAesVendor
  | badAesVendorVersion
  | badAesStrength
  | aesFieldLength
  | severalDisks
  | encrypted
  | unknownMethod
  | fault (fault : Fault)
  deriving DecidableEq

namespace ArchiveError

/-- Whether an archive is sound but needs something that is not on offer. -/
def isUnsupported : ArchiveError → Bool
  | .aesFieldLength | .severalDisks | .encrypted | .unknownMethod => true
  | _ => false

def detail : ArchiveError → String
  | .tooShort => "Invalid zip header"
  | .missingEnd => "Could not find central directory end"
  | .missingWideEnd => "Could not find ZIP64 central directory end"
  | .noRoomForWideEnd => "File cannot contain ZIP64 central directory end"
  | .directoryMisplaced => "Invalid central directory size or offset"
  | .directoryOutOfReach => "Could not seek to start of central directory"
  | .badDirectoryHeader => "Invalid Central Directory header"
  | .badEntryHeader => "Invalid local file header"
  | .offsetTooLarge => "Archive header is too large"
  | .missingAesField => "AES encryption without AES extra data field"
  | .badAesVendor => "Invalid AES vendor"
  | .badAesVendorVersion => "Invalid AES vendor version"
  | .badAesStrength => "Invalid AES encryption strength"
  | .aesFieldLength => "AES extra data field has an unsupported length"
  | .severalDisks => "Support for multi-disk files is not implemented"
  | .encrypted => "Password required to decrypt file"
  | .unknownMethod => "Compression method not supported"
  | .fault f => f.message

def message (error : ArchiveError) : String :=
  match error with
  | .fault f => f.message
  | _ =>
    if error.isUnsupported then "unsupported Zip archive: " ++ error.detail
    else "invalid Zip archive: " ++ error.detail

end ArchiveError

end MethodMetadata
