import Bindery.Json.Read
import Bindery.Message.Wire

/-!
# Errors

Each error is a cause; `message` words it.
-/

namespace Bindery

/-- What the storage of files reports when a file cannot be read, written or listed. -/
inductive StorageFault where
  | invalidName
  | nameTooLong
  | notDirectory
  | isDirectory
  | checksum
  | corrupt
  | unexpectedEnd
  | endless
  deriving DecidableEq, Repr

def StorageFault.message : StorageFault → String
  | .invalidName => "file name contains a NUL byte"
  | .nameTooLong => "file name too long"
  | .notDirectory => "not a directory"
  | .isDirectory => "is a directory"
  | .checksum => "invalid checksum"
  | .corrupt => "corrupt deflate stream"
  | .unexpectedEnd => "unexpected end of file"
  | .endless => "directories nest without end"

/-- Why a container is not a readable archive. -/
inductive ArchiveFault where
  | noEnd
  | comment
  | directory
  | method
  | encrypted
  deriving DecidableEq, Repr

def ArchiveFault.message : ArchiveFault → String
  | .noEnd => "could not find the end of the central directory"
  | .comment => "the comment exceeds the end of the archive"
  | .directory => "invalid central directory"
  | .method => "compression method not supported"
  | .encrypted => "password required to decrypt file"

/-- Why a channel to a remote cannot be used. -/
inductive ChannelFault where
  | dropped
  | droppedBefore (tag : String)
  | outputClosed
  | brokenPipe
  | notStarted (program reason : String)
  | stated (text : String)
  deriving DecidableEq, Repr

def ChannelFault.message : ChannelFault → String
  | .dropped => "remote dropped"
  | .droppedBefore tag => "remote dropped before " ++ tag
  | .outputClosed => "worker closed its output"
  | .brokenPipe => "write failed: broken pipe"
  | .notStarted program reason => "failed to spawn worker '" ++ program ++ "': " ++ reason
  | .stated text => text

/-- A cycle of modules, or a module that requires itself. -/
inductive Cycle where
  | through (names : List String)
  | at (name : String)
  deriving DecidableEq, Repr

def Cycle.message : Cycle → String
  | .through names => " → ".intercalate (names ++ names.take 1)
  | .at name => "cycle at module '" ++ name ++ "'"

inductive Error where
  | notFound (path : String)
  /-- The volume cannot be written. -/
  | readOnly (path : String)
  /-- No registered directory holds the file. -/
  | unmapped (path : String)
  | storage (fault : StorageFault)
  | archive (fault : ArchiveFault)
  | json (fault : Json.Fault)
  | message (fault : MessageFault)
  /-- The remote answered a step with a failure. -/
  | failure (reply : Reply)
  | channel (fault : ChannelFault)
  | cycle (cause : Cycle)
  | roots (fault : Json.Fault)
  /-- A time that an archive cannot hold; its text. -/
  | timestamp (text : String)
  /-- A task that has not run has nothing to package. -/
  | noOutput
  /-- Without its extension the file name would end inside a character. -/
  | brokenName (name : String)
  deriving DecidableEq

namespace Error

def text : Error → String
  | .notFound path => "not found: " ++ path
  | .readOnly path => "unsupported operation 'write_file' on " ++ path
  | .unmapped path => "no search path entry covers " ++ path
  | .storage fault => "IO error: " ++ fault.message
  | .archive fault => "archive error: " ++ fault.message
  | .json fault => "JSON error: " ++ fault.message
  | .message fault => "malformed message: " ++ fault.message
  | .failure reply => "protocol failure: " ++ reply.describe
  | .channel fault => "channel closed: " ++ fault.message
  | .cycle c => "cyclic dependency detected: " ++ c.message
  | .roots fault => "configuration error: invalid declared roots: " ++ fault.message
  | .timestamp text => "configuration error: archive timestamp out of range: " ++ text
  | .noOutput => "configuration error: task has produced no output yet"
  | .brokenName name => "file name '" ++ name ++ "' would end inside a character"

/-- Whether the error says that a file does not exist. -/
def isNotFound : Error → Bool
  | .notFound _ => true
  | _ => false

end Error

end Bindery
