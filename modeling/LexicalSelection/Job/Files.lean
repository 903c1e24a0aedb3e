import LexicalSelection.Text.Basic

/-!
# Files

Jobs read and write files through a few operations, so that the same job runs on the files of a
machine and on a store of files in memory.

* `Place` — what a job reads from or writes to.
* `FileFault` — the reasons why a file cannot be used, with their messages.
* `FileAccess` — the operations that a job needs.
-/

namespace LexicalSelection

/-- What a job reads from or writes to. -/
inductive Place where
  /-- The standard input or output. -/
  | standard
  /-- The file with a path. -/
  | file (path : Text)
  deriving DecidableEq, Repr

namespace Place

/-- The place that a word of a command line names. -/
def ofText (text : Text) : Place := if text = ['-'] then standard else file text

/-- The path of a place, or the word for it. -/
def text : Place → Text
  | standard => ['-']
  | file path => path

end Place

/-- The reasons why a file cannot be opened, created or read. -/
inductive FileFault where
  /-- There is no such file, or no such directory to create it in. -/
  | notFound
  /-- The path leads through a file. -/
  | notDirectory
  /-- The path is that of a directory. -/
  | isDirectory
  /-- The path or a name in it is too long. -/
  | nameTooLong
  /-- A character of the path is the one with code point zero. -/
  | nullInPath
  /-- Some other reason, in words. -/
  | other (text : String)
  deriving DecidableEq, Repr

/-- The message for a file that cannot be opened, created or read. -/
def FileFault.message : FileFault → String
  | notFound => "No such file or directory (os error 2)"
  | notDirectory => "Not a directory (os error 20)"
  | isDirectory => "Is a directory (os error 21)"
  | nameTooLong => "File name too long (os error 36)"
  | nullInPath => "file name contained an unexpected NUL byte"
  | other text => text

/-- What reading an open file gives: all of its bytes, or the reason why they cannot be read. -/
abbrev Contents := Except FileFault Bytes

/-- The operations on files that a job needs. -/
class FileAccess (m : Type → Type) where
  /-- Opens a place for reading. -/
  openToRead : Place → m (Except FileFault Contents)
  /-- Makes a file empty, and makes it first if there is none. -/
  create : Place → m (Except FileFault Unit)
  /-- Puts bytes behind those of a file that has been created. -/
  append : Place → Bytes → m Unit

end LexicalSelection
