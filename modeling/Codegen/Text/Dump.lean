import Codegen.Instr
import Codegen.Text.Invisible

/-!
# Dump — the full text of operands and instructions

Every field is shown by name, an absent one as well, so that no two values share a text.  A text in
a field stands between double quotes: a quote, a backslash and the common controls are shown by a
backslash and one character, any other invisible character by its number, and the rest as it is.
-/

namespace Codegen
namespace Text

/-! ## Quoted text -/

/-- The number of a character in base sixteen, between braces. -/
def numbered (c : Char) : List Char :=
  ['\\', 'u', '\x7b'] ++ Nat.toDigits 16 c.toNat ++ ['\x7d']

def escape (c : Char) : List Char :=
  match c with
  | '"' => ['\\', '"']
  | '\\' => ['\\', '\\']
  | '\n' => ['\\', 'n']
  | '\t' => ['\\', 't']
  | '\r' => ['\\', 'r']
  | '\x00' => ['\\', '0']
  | c => if invisible c then numbered c else [c]

def quoted (s : String) : String :=
  String.ofList (['"'] ++ s.toList.flatMap escape ++ ['"'])

/-! ## Constructors -/

/-- A constructor with its fields by name. -/
def record (name : String) (fields : List (String × String)) : String :=
  let shown := fields.map fun (field, value) => field ++ ": " ++ value
  name ++ " \x7b " ++ ", ".intercalate shown ++ " \x7d"

/-- A constructor with one unnamed field. -/
def wrapped (name value : String) : String :=
  name ++ "(" ++ value ++ ")"

def orNone (value : Option String) : String :=
  match value with
  | none => "None"
  | some text => wrapped "Some" text

/-- A number in at least `width` columns, set to the right. -/
def column (width n : Nat) : String :=
  let digits := toString n
  String.ofList (List.replicate (width - digits.length) ' ') ++ digits

def physReg (p : Nat) : String :=
  wrapped "PhysReg" (toString p)

end Text

/-! ## Operands and instructions -/

open Text

def VirtualReg.dump (r : VirtualReg) : String :=
  record "VirtualReg" [("index", toString r.index), ("phys", orNone (r.phys.map physReg))]

def Base.dump : Base → String
  | .absolute => "Absolute"
  | .framePointer => "FramePointer"
  | .reg r => wrapped "Reg" r.dump

def Address.dump (a : Address) : String :=
  record "MemOperand" [("base", a.base.dump), ("disp", toString a.disp)]

def Operand.dump : Operand → String
  | .vreg r => wrapped "VReg" r.dump
  | .mem a => wrapped "Mem" a.dump
  | .imm value => wrapped "Imm" (toString value)
  | .fixed r => wrapped "Fixed" r.name
  | .symbol name => wrapped "Symbol" (quoted name)

def Instr.dump (i : Instr) : String :=
  record "Instruction"
    [("opcode", i.opcode.name), ("dst", orNone (i.dst.map Operand.dump)),
      ("src", orNone (i.src.map Operand.dump))]

end Codegen
