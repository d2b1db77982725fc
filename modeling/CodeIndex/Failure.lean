import CodeIndex.Text.Quoted

/-!
# Failures

What can keep an operation from doing its work. Failures of the file system carry the path that
was asked for; their message is what a reader of an index sees.
-/

namespace CodeIndex

inductive Errno where
  | notFound
  | denied
  | alreadyThere
  | notDirectory
  | isDirectory
  | nameTooLong
  | tooManyLinks
  | noDevice
deriving DecidableEq

namespace Errno

def number : Errno → Nat
  | notFound => 2
  | noDevice => 6
  | denied => 13
  | alreadyThere => 17
  | notDirectory => 20
  | isDirectory => 21
  | nameTooLong => 36
  | tooManyLinks => 40

def wording : Errno → Text
  | notFound => "No such file or directory".toList
  | denied => "Permission denied".toList
  | alreadyThere => "File exists".toList
  | notDirectory => "Not a directory".toList
  | isDirectory => "Is a directory".toList
  | nameTooLong => "File name too long".toList
  | tooManyLinks => "Too many levels of symbolic links".toList
  | noDevice => "No such device or address".toList

/-- Whether a path that is refused for this cause counts as one that leads nowhere. -/
def meansAbsent : Errno → Bool
  | notFound | notDirectory | tooManyLinks => true
  | _ => false

end Errno

inductive Failure where
  | refused (cause : Errno) (path : Text)
  | outside (path base : Text)
  | linkLoop (path : Text)
  /-- Links, or values, stand inside too many others to be followed. -/
  | tooNested
  | nullCharacter
  | noCurrentDirectory
  | undecodable
  | tooManyDigits (count : Nat)
  /-- A value inside more others than are read, with the word for its kind. -/
  | tooDeep (kind : Text)
  | noFields
  | unsupported
deriving DecidableEq

def Errno.message (cause : Errno) : Text :=
  "[Errno ".toList ++ Nat.toDigits 10 cause.number ++ "] ".toList ++ cause.wording

def Failure.message : Failure → Text
  | refused cause path => cause.message ++ ": ".toList ++ Text.quoted path
  | outside path base =>
    Text.quoted path ++ " is not in the subpath of ".toList ++ Text.quoted base ++
      " OR one path is relative and the other is absolute.".toList
  | linkLoop path => "Symlink loop from ".toList ++ Text.quoted path
  | tooNested => "maximum recursion depth exceeded".toList
  | nullCharacter => "embedded null byte".toList
  | noCurrentDirectory => Errno.notFound.message
  | undecodable => []
  | tooManyDigits count =>
    "Exceeds the limit (4300 digits) for integer string conversion: value has ".toList ++
      Nat.toDigits 10 count ++
      " digits; use sys.set_int_max_str_digits() to increase the limit".toList
  | tooDeep kind =>
    "maximum recursion depth exceeded while decoding a JSON ".toList ++ kind ++
      " from a unicode string".toList
  | noFields => []
  | unsupported => []

end CodeIndex
