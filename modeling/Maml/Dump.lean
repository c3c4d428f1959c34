import Maml.Tree

/-! Dumps of trees.

A dump shows a tree with one line for each element: its label, its range and, for
leaves, the text in quotes, indented by its depth. In the quoted text every
character can be told from its neighbours: characters that are invisible or
combine with others are written by their codes. -/
namespace Maml

namespace Dump

/-- The ranges of codes of controls, separators, format characters and private characters, and
of the marks in the blocks of combining marks and variation selectors. -/
def invisible : List (Nat × Nat) :=
  [(0x0000, 0x001f), (0x007f, 0x00a0), (0x00ad, 0x00ad), (0x0300, 0x036f), (0x0483, 0x0489),
    (0x0600, 0x0605), (0x061c, 0x061c), (0x06dd, 0x06dd), (0x070f, 0x070f), (0x0890, 0x0891),
    (0x08e2, 0x08e2), (0x1680, 0x1680), (0x180e, 0x180e), (0x1ab0, 0x1ace), (0x1dc0, 0x1dff),
    (0x2000, 0x200f), (0x2028, 0x202f), (0x205f, 0x2064), (0x2066, 0x206f), (0x20d0, 0x20f0),
    (0x3000, 0x3000), (0xe000, 0xf8ff), (0xfe00, 0xfe0f), (0xfe20, 0xfe2f), (0xfeff, 0xfeff),
    (0xfff9, 0xfffb), (0x110bd, 0x110bd), (0x110cd, 0x110cd), (0x13430, 0x1343f),
    (0x1bca0, 0x1bca3), (0x1d173, 0x1d17a), (0xe0001, 0xe0001), (0xe0020, 0xe007f),
    (0xe0100, 0xe01ef), (0xf0000, 0xffffd), (0x100000, 0x10fffd)]

/-- Whether a character is written by its code. -/
def isInvisible (c : Char) : Bool :=
  invisible.any fun (first, last) => first ≤ c.toNat && c.toNat ≤ last

/-- The code of a character in lower-case hexadecimal digits, in braces. -/
def charCode (c : Char) : Text :=
  '\\' :: 'u' :: '\x7b' :: Nat.toDigits 16 c.toNat ++ ['\x7d']

def quoteChar (c : Char) : Text :=
  match c with
  | '\x00' => ['\\', '0']
  | '\t' => ['\\', 't']
  | '\r' => ['\\', 'r']
  | '\n' => ['\\', 'n']
  | '"' => ['\\', '"']
  | '\\' => ['\\', '\\']
  | c => if isInvisible c then charCode c else [c]

def quoteText (text : Text) : Text := '"' :: text.flatMap quoteChar ++ ['"']

/-- A label and a range, indented. -/
def heading (depth : Nat) (label : Label) (start stop : Nat) : Text :=
  let name := label.name
  List.replicate (2 * depth) ' ' ++ s!"{name}@{start}..{stop}".toList

mutual

/-- The lines of a tree that stands at an offset. -/
def lines (depth offset : Nat) : Tree → List Text
  | .leaf label text =>
    [heading depth label offset (offset + text.size) ++ ' ' :: quoteText text]
  | .node label children =>
    heading depth label offset (offset + Tree.size (.node label children)) ::
      linesOfRow (depth + 1) offset children

def linesOfRow (depth offset : Nat) : List Tree → List Text
  | [] => []
  | t :: ts => lines depth offset t ++ linesOfRow depth (offset + t.size) ts

end

end Dump

/-- The dump of a tree that stands at an offset. -/
def Tree.dump (offset : Nat) (t : Tree) : Text :=
  List.intercalate ['\n'] (Dump.lines 0 offset t)

end Maml
