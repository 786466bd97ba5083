import Finchers.Cursor
import Finchers.Endpoint.Encoded
import Finchers.Output.Fs
import Finchers.Lib.UnixPath

/-!
# Files

`file(path)` opens a file; `dir(root)` takes what remains of the request path, percent-decodes it,
joins it to the root and opens the file there, or the file `index.html` in it if it is a directory.

* `FileSystem` — what the operating system answers;
* `OpenNamedFile.poll` — a file is opened, and then its metadata is read;
* `FileAction.action`, `DirAction.action` — the two endpoints.
-/

set_option autoImplicit false

namespace Finchers

open Resumable

/-- The state of `OpenNamedFile`. -/
inductive OpenState where
  | opening (path : Str)
  | metadata
  | done

structure OpenNamedFile where
  state : OpenState
  path : Option Str

/-- `NamedFile::open`. -/
def NamedFile.open (path : Str) : OpenNamedFile := ⟨.opening path, some path⟩

inductive DirState where
  | init
  | opening (f : OpenNamedFile)

structure DirAction where
  root : Str
  state : DirState

/-- `Endpoint for Dir`: a new action. -/
def DirAction.new (root : Str) : DirAction := ⟨root, .init⟩

/-- `DirAction::preflight`; `isDir` is what the file system answers to `is_dir`. -/
def DirAction.preflight {ε Io : Type} (isDir : Str → Bool) (cx : PreflightContext)
    (s : DirAction) :
    Except ActionPanic
      (Except (Error ε) (Preflight (HList [NamedFile Io])) × DirAction × CursorInner) := do
  let remaining ← Cursor.remainingPath cx.path cx.cursor
  let path := EncodedStr.percentDecode remaining
  let (_, cursor) ← Cursor.count cx.path cx.cursor
  match path with
  | .error err => return (.error (.badRequest (displayUtf8Error err)), s, cursor)
  | .ok path =>
    let path := UnixPath.join s.root path
    let path := if isDir path then UnixPath.join path "index.html".toList else path
    return (.ok .incomplete, { s with state := .opening (NamedFile.open path) }, cursor)

/-! ## Opening a file -/

/-- `io::ErrorKind`, as far as statuses tell kinds apart. -/
inductive IoErrorKind where
  | notFound
  | permissionDenied
  | other
  deriving DecidableEq, Repr

/-- `HttpError for io::Error`. -/
def IoErrorKind.statusCode : IoErrorKind → Nat
  | .notFound => 404
  | .permissionDenied => 403
  | .other => 500

/-- What the operating system answers when the opening of a file at a path is polled, and then the
reading of its metadata; and how its errors read. -/
structure FileSystem (Io Env : Type) where
  pollOpen : Str → Env → Poll Io Unit × Env
  pollMetadata : Str → Env → Poll Io (File Io × Metadata) × Env
  kind : Io → IoErrorKind
  display : Io → String

variable {ε Bd Env Io : Type}

/-- `From<io::Error> for Error`. -/
def FileSystem.error (fs : FileSystem Io Env) (e : Io) : Error ε :=
  .message (fs.display e) (fs.kind e).statusCode

namespace OpenNamedFile

/-- The iteration of `OpenNamedFile::poll` in the state `Metadata`; the metadata are those of the file
that was opened at `path`. -/
def pollMetadata (fs : FileSystem Io Env) (self : OpenNamedFile) (env : Env) :
    Except ActionPanic (Poll Io (NamedFile Io) × OpenNamedFile × Env) :=
  match fs.pollMetadata (self.path.getD []) env with
  | (.error e, env) => .ok (.error e, self, env)
  | (.ok .notReady, env) => .ok (.ok .notReady, self, env)
  | (.ok (.ready (file, metadata)), env) =>
    match self.path with
    | some path => .ok (.ok (.ready ⟨file, metadata, path⟩), ⟨.done, none⟩, env)
    | none => .error (.user "called `Option::unwrap()` on a `None` value")

/-- `OpenNamedFile::poll`. -/
def poll (fs : FileSystem Io Env) (self : OpenNamedFile) (env : Env) :
    Except ActionPanic (Poll Io (NamedFile Io) × OpenNamedFile × Env) :=
  match self.state with
  | .opening path =>
    match fs.pollOpen path env with
    | (.error e, env) => .ok (.error e, self, env)
    | (.ok .notReady, env) => .ok (.ok .notReady, self, env)
    | (.ok (.ready ()), env) => pollMetadata fs { self with state := .metadata } env
  | .metadata => pollMetadata fs self env
  | .done => .error (.user "The future cannot poll twice.")

/-- A poll of the future by an action: its file is made a tuple, its error an `Error`. -/
def pollAction (fs : FileSystem Io Env) (self : OpenNamedFile) (w : World Bd Env) :
    Except ActionPanic (Poll (Error ε) (HList [NamedFile Io]) × OpenNamedFile × World Bd Env) :=
  match self.poll fs w.thread.env with
  | .error p => .error p
  | .ok (r, self, env) =>
    let w := { w with thread := { w.thread with env := env } }
    match r with
    | .ok .notReady => .ok (.ok .notReady, self, w)
    | .ok (.ready file) => .ok (.ok (.ready (.single file)), self, w)
    | .error e => .ok (.error (fs.error e), self, w)

theorem pollAction_keeps {fs : FileSystem Io Env} {self self' : OpenNamedFile} {w w' : World Bd Env}
    {r : Poll (Error ε) (HList [NamedFile Io])} (h : self.pollAction fs w = .ok (r, self', w')) :
    w'.thread.slot = w.thread.slot ∧ w'.cx = w.cx := by
  unfold pollAction at h
  split at h
  · cases h
  · dsimp only at h
    split at h <;> cases h <;> exact ⟨rfl, rfl⟩

end OpenNamedFile

/-! ## The endpoints -/

/-- `FileAction`. -/
structure FileAction where
  path : Str
  opening : Option OpenNamedFile

/-- `Endpoint for File`: a new action. -/
def FileAction.new (path : Str) : FileAction := ⟨path, none⟩

/-- `EndpointAction for FileAction`: the file is opened in the first poll. -/
def FileAction.action (fs : FileSystem Io Env) : LeafAction ε Bd Env FileAction [NamedFile Io] where
  preflight cx s := .ok (.ok .incomplete, s, cx.cursor)
  pollAction s w :=
    match (s.opening.getD (NamedFile.open s.path)).pollAction fs w with
    | .error p => .error p
    | .ok (r, opening, w) => .ok (r, { s with opening := some opening }, w)
  keeps := by
    intro s w r s' w' h
    split at h
    · cases h
    · rename_i hpoll
      cases h
      obtain ⟨hslot, hcx⟩ := OpenNamedFile.pollAction_keeps hpoll
      exact ⟨hslot, by rw [hcx]⟩
  notPutBack := by
    intro s w r s' w' h
    split at h
    · cases h
    · rename_i hpoll
      cases h
      rw [(OpenNamedFile.pollAction_keeps hpoll).2]
      exact id

/-- `EndpointAction for DirAction`. -/
def DirAction.action (fs : FileSystem Io Env) (isDir : Str → Bool) :
    LeafAction ε Bd Env DirAction [NamedFile Io] where
  preflight := DirAction.preflight isDir
  pollAction s w :=
    match s.state with
    | .init => .error (.user "internal error: entered unreachable code")
    | .opening f =>
      match f.pollAction fs w with
      | .error p => .error p
      | .ok (r, f, w) => .ok (r, { s with state := .opening f }, w)
  keeps := by
    intro s w r s' w' h
    split at h
    · cases h
    · split at h
      · cases h
      · rename_i hpoll
        cases h
        obtain ⟨hslot, hcx⟩ := OpenNamedFile.pollAction_keeps hpoll
        exact ⟨hslot, by rw [hcx]⟩
  notPutBack := by
    intro s w r s' w' h
    split at h
    · cases h
    · split at h
      · cases h
      · rename_i hpoll
        cases h
        rw [(OpenNamedFile.pollAction_keeps hpoll).2]
        exact id

end Finchers
