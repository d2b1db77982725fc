import CodeIndex.Text.Utf8

/-!
# Line ends

Texts read from files end their lines with a line feed, whether the file has line feeds, carriage
returns or both together.

A file that is read line by line is decoded chunk by chunk. A character that a chunk cuts short waits
for its last bytes, and a carriage return at the end of a chunk waits for the line feed that may follow.
A faulty byte ends the reading with the lines that are complete before its chunk; where the last
character of the file is cut short, all complete lines before it are there.
-/

namespace CodeIndex

namespace Text

/-- Goes on by one character: the characters so far, last one first, and whether the last one was a
carriage return. -/
def unifyStep (s : Text × Bool) (c : Char) : Text × Bool :=
  if c = '\r' then ('\n' :: s.1, true)
  else if c = '\n' && s.2 then (s.1, false)
  else (c :: s.1, false)

def unifyLineEnds (t : Text) : Text := (t.foldl unifyStep ([], false)).1.reverse

def withoutFinalReturn (t : Text) : Text :=
  if t.getLast? = some '\r' then t.dropLast else t

end Text

structure LineReader where
  /-- Inside a character, if the end of a chunk has cut one short. -/
  decoder : Utf8.State
  held : Bool
  complete : List Text
  begun : Text

namespace LineReader

def start : LineReader := ⟨.between, false, [], []⟩

def append (r : LineReader) (t : Text) : LineReader :=
  let ls := Text.lines (r.begun ++ t)
  { r with complete := r.complete ++ ls.dropLast, begun := ls.getLast?.getD [] }

/-- Goes on by the characters of a chunk, behind a carriage return that was held back for them. -/
def takeText (r : LineReader) (t : Text) : LineReader :=
  if t.isEmpty then r
  else
    let t := if r.held then '\r' :: t else t
    { r.append (Text.unifyLineEnds (Text.withoutFinalReturn t)) with
      held := t.getLast? = some '\r' }

def takeChunk (r : LineReader) (chunk : Bytes) : Option LineReader :=
  (chunk.foldlM Utf8.feed (r.decoder, [])).map fun p =>
    { r.takeText p.2.reverse with decoder := p.1 }

/-- The lines at the end of the file, the last one included unless a character in it is cut short. -/
def finish (r : LineReader) : List Text :=
  if r.decoder = .between then
    let r := if r.held then r.append ['\n'] else r
    r.complete ++ [r.begun]
  else r.complete

def linesFrom (r : LineReader) : List Bytes → List Text
  | [] => r.finish
  | chunk :: chunks =>
    match r.takeChunk chunk with
    | some r => r.linesFrom chunks
    | none => r.complete

end LineReader

namespace Text

def chunkSize : Nat := 8192

def chunks (bs : Bytes) : List Bytes :=
  if bs.isEmpty then [] else bs.take chunkSize :: chunks (bs.drop chunkSize)
termination_by bs.length
decreasing_by
  have hpos : 0 < bs.length := by simp_all [List.length_pos_iff]
  simp only [List.length_drop, chunkSize]
  omega

def linesOfBytes (bs : Bytes) : List Text := LineReader.start.linesFrom (chunks bs)

end Text

end CodeIndex
