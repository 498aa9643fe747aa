import Reckon.Program.Basic
import Reckon.Binary64.Text

/-!
# Listings

The text of a program: one line an instruction, with its number, its word and its operand.
-/

namespace Reckon

namespace Instruction

/-- The operand in a listing: a number as text, a variable by name or, where it has none, by
index. -/
def operandText (nameOf : Nat → Option String) : Instruction → Option String
  | const x => some (Binary64.text x)
  | load index => some ((nameOf index).getD ("#" ++ index.repr))
  | _ => none

/-- One line of a listing.  Numbers have at least four digits. -/
def line (nameOf : Nat → Option String) (number : Nat) (i : Instruction) : String :=
  String.ofList (Binary64.padLeft 4 number.repr.toList) ++ ": " ++ i.mnemonic ++
    ((i.operandText nameOf).elim "" fun operand => " " ++ operand) ++ "\n"

end Instruction

namespace Program

/-- The listing of a program, in which variables have these names. -/
def listing (nameOf : Nat → Option String) (p : Program) : String :=
  String.join (p.code.toList.mapIdx fun number i => i.line nameOf number)

end Program

end Reckon
