/-!
# Errors of the file system

Why a file cannot be found, read, written or moved, with the text that the
system gives for it.
-/

set_option autoImplicit false

namespace SourceDelta

inductive IoError
  | noEntry
  | busy
  | alreadyExists
  | crossDevice
  | notDirectory
  | isDirectory
  | invalidArgument
  | nameTooLong
  | notEmpty
  /-- A text is read and the bytes are not UTF-8. -/
  | invalidText
  | nulInPath
  | nulInCommand
  | other (code : Nat) (text : String)
  deriving DecidableEq

namespace IoError

def numbered (text : String) (code : Nat) : String :=
  text ++ " (os error " ++ toString code ++ ")"

def message : IoError → String
  | noEntry => numbered "No such file or directory" 2
  | busy => numbered "Device or resource busy" 16
  | alreadyExists => numbered "File exists" 17
  | crossDevice => numbered "Invalid cross-device link" 18
  | notDirectory => numbered "Not a directory" 20
  | isDirectory => numbered "Is a directory" 21
  | invalidArgument => numbered "Invalid argument" 22
  | nameTooLong => numbered "File name too long" 36
  | notEmpty => numbered "Directory not empty" 39
  | invalidText => "stream did not contain valid UTF-8"
  | nulInPath => "file name contained an unexpected NUL byte"
  | nulInCommand => "nul byte found in provided data"
  | other code text => numbered text code

def ofCode (text : String) : Nat → IoError
  | 2 => noEntry
  | 16 => busy
  | 17 => alreadyExists
  | 18 => crossDevice
  | 20 => notDirectory
  | 21 => isDirectory
  | 22 => invalidArgument
  | 36 => nameTooLong
  | 39 => notEmpty
  | code => other code text

end IoError

end SourceDelta
