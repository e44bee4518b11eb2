/-!
# Failures of the file system
-/

namespace JsonCabinet.Files

inductive FileError
  | notFound
  | alreadyExists
  | notADirectory
  | isADirectory
  | busy
  | invalidArgument
  | notEmpty
  | nameTooLong
  | noSpace
  | nulInName
  | noAncestor
  /-- A failure that is told in the words of who met it. -/
  | told (text : String)
  deriving DecidableEq, Repr

def FileError.message : FileError → String
  | .notFound => "No such file or directory (os error 2)"
  | .alreadyExists => "File exists (os error 17)"
  | .notADirectory => "Not a directory (os error 20)"
  | .isADirectory => "Is a directory (os error 21)"
  | .busy => "Device or resource busy (os error 16)"
  | .invalidArgument => "Invalid argument (os error 22)"
  | .notEmpty => "Directory not empty (os error 39)"
  | .nameTooLong => "File name too long (os error 36)"
  | .noSpace => "No space left on device (os error 28)"
  | .nulInName => "file name contained an unexpected NUL byte"
  | .noAncestor => "failed to create whole tree"
  | .told text => text

end JsonCabinet.Files
