import MemberSplit.Text.Basic

/-!
# Errors of the file system

Why a file could not be read or written, with the text and the number that the operating system
gives to the reason.
-/

namespace MemberSplit

/-- Why an operation on files failed. -/
inductive OsError where
  | noSuchFile
  | busy
  | fileExists
  | notDirectory
  | isDirectory
  | invalidArgument
  | nameTooLong
  /-- A path holds the character that ends paths for the operating system. -/
  | nulInPath
  /-- A file that must be text is not UTF-8. -/
  | notText
  /-- Any other reason, in the words of the operating system. -/
  | other (text : Text)
  deriving DecidableEq, Repr

/-- The wording of the reason. -/
def OsError.message : OsError → Text
  | .noSuchFile => "No such file or directory (os error 2)"
  | .busy => "Device or resource busy (os error 16)"
  | .fileExists => "File exists (os error 17)"
  | .notDirectory => "Not a directory (os error 20)"
  | .isDirectory => "Is a directory (os error 21)"
  | .invalidArgument => "Invalid argument (os error 22)"
  | .nameTooLong => "File name too long (os error 36)"
  | .nulInPath => "file name contained an unexpected NUL byte"
  | .notText => "stream did not contain valid UTF-8"
  | .other text => text

end MemberSplit
