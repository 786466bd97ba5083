import Finchers.Http
import Finchers.Lib.Machine

/-!
# Files as responses

`NamedFile` is an opened file with the metadata it had then; its response announces the length
of the metadata, and its body is a `FileStream`.

A file is what can still be read from it and how the coming reads are answered: not ready yet, an
error, or some bytes, of which the file gives as many as it has.  How much a single read asks for
(`optimal_buf_size`, the capacity of the buffer) only bounds these answers.
-/

set_option autoImplicit false

namespace Finchers

open Resumable

variable {Io : Type}

/-- The answer to one `read_buf`; `upTo k` gives up to `k + 1` bytes. -/
inductive Read (Io : Type) where
  | notReady
  | error (e : Io)
  | upTo (k : Nat)

structure File (Io : Type) where
  unread : List UInt8
  reads : List (Read Io)

/-- `AsyncRead::read_buf`: appends what it reads to the buffer; a read of 0 bytes is the end. -/
def File.readBuf (file : File Io) (buf : List UInt8) :
    Except Io (Async Nat) × File Io × List UInt8 :=
  match file.reads with
  | [] => (.ok .notReady, file, buf)
  | .notReady :: reads => (.ok .notReady, { file with reads := reads }, buf)
  | .error e :: reads => (.error e, { file with reads := reads }, buf)
  | .upTo k :: reads =>
    let bytes := file.unread.take (k + 1)
    (.ok (.ready bytes.length), ⟨file.unread.drop (k + 1), reads⟩, buf ++ bytes)

structure Metadata where
  len : Nat

structure FileStream (Io : Type) where
  file : File Io
  buf : List UInt8
  len : Nat

namespace FileStream

/-- `FileStream::new`. -/
def new (file : File Io) (metadata : Metadata) : FileStream Io := ⟨file, [], metadata.len⟩

/-- `FileStream::poll_buf`. -/
def pollBuf (s : FileStream Io) : Except Io (Async (Option (List UInt8))) × FileStream Io :=
  if s.len = 0 then (.ok (.ready none), s)
  else
    match s.file.readBuf s.buf with
    | (.error e, file, buf) => (.error e, { s with file := file, buf := buf })
    | (.ok .notReady, file, buf) => (.ok .notReady, { s with file := file, buf := buf })
    | (.ok (.ready n), file, buf) =>
      if n = 0 then (.ok (.ready none), { s with file := file, buf := buf })
      -- the buffer is taken as a chunk, and its length becomes the remaining length
      else if n > s.len then (.ok (.ready (some (buf.take s.len))), ⟨file, [], 0⟩)
      else (.ok (.ready (some buf)), ⟨file, [], n⟩)

/-- The chunks of a stream that is polled until it ends, at most `n` times. -/
def drain : Nat → FileStream Io → Option (Except Io (List (List UInt8)))
  | 0, _ => none
  | n + 1, s =>
    match s.pollBuf with
    | (.error e, _) => some (.error e)
    | (.ok .notReady, s) => drain n s
    | (.ok (.ready none), _) => some (.ok [])
    | (.ok (.ready (some chunk)), s) =>
      (drain n s).map (fun r => r.map (fun chunks => chunk :: chunks))

end FileStream

/-- `NamedFile`. -/
structure NamedFile (Io : Type) where
  file : File Io
  metadata : Metadata
  path : Str

/-- The decimal digits of a number. -/
def decimal (n : Nat) : HeaderValue := Utf8.bytes (Nat.toDigits 10 n)

/-- `IntoResponse for NamedFile`; the type of the content is guessed from the path. -/
def NamedFile.intoResponse (guessMimeType : Str → HeaderValue) (f : NamedFile Io) (_ : Request) :
    Response (FileStream Io) :=
  let headers := HeaderMap.append [] CONTENT_LENGTH (decimal f.metadata.len)
  ⟨200, headers.append CONTENT_TYPE (guessMimeType f.path), .new f.file f.metadata⟩

end Finchers
