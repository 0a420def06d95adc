/-
# Errors of file operations

Key definitions: `Disk.Error`, `Disk.Error.message`.
-/
namespace ModelStubs
namespace Disk

/-- Why a file operation failed. -/
inductive Error
  | notFound
  | alreadyExists
  | notDirectory
  | isDirectory
  | nameTooLong
  | tooManyLinks
  | notText
  | nulInName
  /-- Any other cause, in the words of the system. -/
  | other (words : String)
deriving DecidableEq, Repr

/-- The wording of a failure. -/
def Error.message : Error → String
  | notFound => "No such file or directory (os error 2)"
  | alreadyExists => "File exists (os error 17)"
  | notDirectory => "Not a directory (os error 20)"
  | isDirectory => "Is a directory (os error 21)"
  | nameTooLong => "File name too long (os error 36)"
  | tooManyLinks => "Too many levels of symbolic links (os error 40)"
  | notText => "stream did not contain valid UTF-8"
  | nulInName => "file name contained an unexpected NUL byte"
  | other words => words

end Disk
end ModelStubs
