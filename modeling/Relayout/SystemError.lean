import Relayout.Path.Basic

/-!
# Failures of file system calls

A call fails with the error number of the system, or for a reason that a tree held in memory gives
itself. Each reason has a kind and a text.
-/

namespace Relayout

inductive ErrorKind
  | notFound
  | permissionDenied
  | alreadyExists
  | notADirectory
  | isADirectory
  | directoryNotEmpty
  | invalidInput
  | invalidData
  | invalidFilename
  | other
  | unclassified
  deriving DecidableEq

inductive SystemError
  | errno (code : Nat)
  | noSuchEntry (path : Path)
  | fileInTheWay (path : Path)
  | writeRejected (path : Path)
  | accessDenied
  | emptyPath
  | nulInPath
  | notUtf8
  deriving DecidableEq

/-- The texts of the error numbers of Linux that concern files. -/
def errnoText : Nat → String
  | 1 => "Operation not permitted"
  | 2 => "No such file or directory"
  | 3 => "No such process"
  | 4 => "Interrupted system call"
  | 5 => "Input/output error"
  | 6 => "No such device or address"
  | 7 => "Argument list too long"
  | 8 => "Exec format error"
  | 9 => "Bad file descriptor"
  | 10 => "No child processes"
  | 11 => "Resource temporarily unavailable"
  | 12 => "Cannot allocate memory"
  | 13 => "Permission denied"
  | 14 => "Bad address"
  | 15 => "Block device required"
  | 16 => "Device or resource busy"
  | 17 => "File exists"
  | 18 => "Invalid cross-device link"
  | 19 => "No such device"
  | 20 => "Not a directory"
  | 21 => "Is a directory"
  | 22 => "Invalid argument"
  | 23 => "Too many open files in system"
  | 24 => "Too many open files"
  | 25 => "Inappropriate ioctl for device"
  | 26 => "Text file busy"
  | 27 => "File too large"
  | 28 => "No space left on device"
  | 29 => "Illegal seek"
  | 30 => "Read-only file system"
  | 31 => "Too many links"
  | 32 => "Broken pipe"
  | 33 => "Numerical argument out of domain"
  | 34 => "Numerical result out of range"
  | 35 => "Resource deadlock avoided"
  | 36 => "File name too long"
  | 37 => "No locks available"
  | 38 => "Function not implemented"
  | 39 => "Directory not empty"
  | 40 => "Too many levels of symbolic links"
  | 75 => "Value too large for defined data type"
  | 95 => "Operation not supported"
  | 110 => "Connection timed out"
  | 116 => "Stale file handle"
  | 122 => "Disk quota exceeded"
  | code => "Unknown error " ++ toString code

def errnoKind : Nat → ErrorKind
  | 1 | 13 => .permissionDenied
  | 2 => .notFound
  | 17 => .alreadyExists
  | 20 => .notADirectory
  | 21 => .isADirectory
  | 22 => .invalidInput
  | 36 => .invalidFilename
  | 39 => .directoryNotEmpty
  | _ => .unclassified

namespace SystemError

abbrev enoent : SystemError := errno 2
abbrev eexist : SystemError := errno 17
abbrev enotdir : SystemError := errno 20
abbrev eisdir : SystemError := errno 21
abbrev enametoolong : SystemError := errno 36
abbrev eloop : SystemError := errno 40

def kind : SystemError → ErrorKind
  | errno code => errnoKind code
  | noSuchEntry _ => .notFound
  | fileInTheWay _ => .alreadyExists
  | writeRejected _ => .other
  | accessDenied => .permissionDenied
  | emptyPath | nulInPath => .invalidInput
  | notUtf8 => .invalidData

def message : SystemError → String
  | errno code => errnoText code ++ " (os error " ++ toString code ++ ")"
  | noSuchEntry p => "no such file or directory: " ++ p.toString
  | fileInTheWay p => "file exists: " ++ p.toString
  | writeRejected p => "write to " ++ p.toString ++ " failed"
  | accessDenied => "permission denied"
  | emptyPath => "cannot make an empty path absolute"
  | nulInPath => "file name contained an unexpected NUL byte"
  | notUtf8 => "stream did not contain valid UTF-8"

end SystemError

end Relayout
