import MiniKafka.BigEndian

/-!
A buffered writer over an append-only file.

Bytes are written to the buffer and reach the file when the buffer overflows
or is flushed.  What a reader of both would see is `contents`.
-/

namespace MiniKafka.BufferedWriter

open BigEndian

/-- A file and the bytes buffered in front of it. -/
structure Writer where
  file : Bytes
  buffer : Bytes
  deriving DecidableEq, Repr

def openAtEnd (file : Bytes) : Writer := ⟨file, []⟩

def Writer.contents (w : Writer) : Bytes := w.file ++ w.buffer

def Writer.flush (w : Writer) : Writer := ⟨w.contents, []⟩

/-- Write `p` through a buffer of `size` bytes.  When `p` does not fit, the
buffer is filled and flushed first; a remainder longer than the whole buffer
goes to the file directly. -/
def Writer.write (size : Nat) (w : Writer) (p : Bytes) : Writer :=
  let available := size - w.buffer.length
  if p.length ≤ available then ⟨w.file, w.buffer ++ p⟩
  else if w.buffer = [] then ⟨w.file ++ p, []⟩
  else
    let flushed := w.contents ++ p.take available
    let rest := p.drop available
    if rest.length ≤ size then ⟨flushed, rest⟩ else ⟨flushed ++ rest, []⟩

@[simp] theorem contents_openAtEnd (file : Bytes) : (openAtEnd file).contents = file := by
  simp [openAtEnd, Writer.contents]

@[simp] theorem contents_flush (w : Writer) : w.flush.contents = w.contents := by
  simp [Writer.flush, Writer.contents]

@[simp] theorem file_flush (w : Writer) : w.flush.file = w.contents := rfl

@[simp] theorem contents_write (size : Nat) (w : Writer) (p : Bytes) :
    (w.write size p).contents = w.contents ++ p := by
  simp only [Writer.write, Writer.contents]
  split
  · rw [List.append_assoc]
  · split
    · rename_i hempty
      simp [hempty]
    · split
      · simp only [List.append_assoc, List.take_append_drop]
      · simp only [List.append_assoc, List.take_append_drop, List.append_nil]

end MiniKafka.BufferedWriter
