/-!
Why an operation on files fails.
-/
namespace PluginShading.Files

inductive IoError
  | notFound
  | notADirectory
  | isADirectory
  | alreadyExists
  | directoryNotEmpty
  | permissionDenied
  | resourceBusy
  | tooManyLinks
  | nameTooLong
  | invalidArgument
  /-- A path with a NUL in it. -/
  | nulInPath
  /-- Text was wanted and the bytes are not UTF-8. -/
  | notText
  /-- A file that the system cannot run. -/
  | notExecutable
  | other (message : String)
  /-- An error, and more about where it arose. -/
  | about (cause : IoError) (text : String)
  deriving DecidableEq, Repr

namespace IoError

/-- The broad class of the error. -/
def kind : IoError → String
  | notFound => "NotFound"
  | notADirectory => "NotADirectory"
  | isADirectory => "IsADirectory"
  | alreadyExists => "AlreadyExists"
  | directoryNotEmpty => "DirectoryNotEmpty"
  | permissionDenied => "PermissionDenied"
  | resourceBusy => "ResourceBusy"
  | tooManyLinks => "FilesystemLoop"
  | nameTooLong => "InvalidFilename"
  | invalidArgument => "InvalidInput"
  | nulInPath => "InvalidInput"
  | notText => "InvalidData"
  | notExecutable => "Uncategorized"
  | other _ => "Other"
  | about cause _ => cause.kind

def message : IoError → String
  | notFound => "No such file or directory (os error 2)"
  | notADirectory => "Not a directory (os error 20)"
  | isADirectory => "Is a directory (os error 21)"
  | alreadyExists => "File exists (os error 17)"
  | directoryNotEmpty => "Directory not empty (os error 39)"
  | permissionDenied => "Permission denied (os error 13)"
  | resourceBusy => "Device or resource busy (os error 16)"
  | tooManyLinks => "Too many levels of symbolic links (os error 40)"
  | nameTooLong => "File name too long (os error 36)"
  | invalidArgument => "Invalid argument (os error 22)"
  | nulInPath => "file name contained an unexpected NUL byte"
  | notText => "stream did not contain valid UTF-8"
  | notExecutable => "Exec format error (os error 8)"
  | other message => message
  | about cause text => cause.message ++ text

end IoError

end PluginShading.Files
