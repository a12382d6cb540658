/-!
Two-input gate functions. A function is its truth table packed into a four-bit code: bit `a + 2 * b`
of the code is the output for the inputs `a` and `b`, so the sixteen codes are exactly the sixteen
functions, and evaluating one is reading one bit.
-/

namespace GateNet

/-- A two-input boolean function, as the code of its truth table. -/
structure GateFunction where
  code : Fin 16
deriving DecidableEq

namespace GateFunction

/-- The function with this code; codes of more than four bits stand for none. -/
def ofCode? (code : Nat) : Option GateFunction :=
  if h : code < 16 then some ⟨⟨code, h⟩⟩ else none

def nor : GateFunction := ⟨0b0001⟩

/-- `a` and not `b`. -/
def nimp : GateFunction := ⟨0b0010⟩

/-- `b` and not `a`. -/
def ncimp : GateFunction := ⟨0b0100⟩

def xor : GateFunction := ⟨0b0110⟩

def nand : GateFunction := ⟨0b0111⟩

def and : GateFunction := ⟨0b1000⟩

def xnor : GateFunction := ⟨0b1001⟩

/-- `b` implies `a`. -/
def cimp : GateFunction := ⟨0b1011⟩

/-- `a` implies `b`. -/
def imp : GateFunction := ⟨0b1101⟩

def or : GateFunction := ⟨0b1110⟩

/-- The row of the truth table that holds the output for `a` and `b`. -/
def row (a b : Bool) : Nat := a.toNat + 2 * b.toNat

/-- The output for the inputs `a` and `b`. -/
def eval (f : GateFunction) (a b : Bool) : Bool := f.code.val.testBit (row a b)

/-- A function that ignores both of its inputs. -/
def isConstant (f : GateFunction) : Bool := f.code == 0 || f.code == 15

/-- The usual name of a function; the six that depend on one input or on none have no name. -/
def name? (f : GateFunction) : Option String :=
  match f.code with
  | 0b0001 => some "NOR"
  | 0b0010 => some "NIMP"
  | 0b0100 => some "NCIMP"
  | 0b0110 => some "XOR"
  | 0b0111 => some "NAND"
  | 0b1000 => some "AND"
  | 0b1001 => some "XNOR"
  | 0b1011 => some "CIMP"
  | 0b1101 => some "IMP"
  | 0b1110 => some "OR"
  | _ => none

/-- The truth table in binary, last row first. -/
def tableText (f : GateFunction) : String :=
  String.ofList ([3, 2, 1, 0].map fun i => if f.code.val.testBit i then '1' else '0')

/-- A function is written by its name, and without one by `F` and its truth table. -/
def text (f : GateFunction) : String :=
  match f.name? with
  | some name => name
  | none => "F" ++ f.tableText

/-- Functions are ordered by code. -/
instance : Ord GateFunction := ⟨fun f g => compare f.code g.code⟩

/-! ### The named functions compute what their names say -/

@[simp] theorem eval_nor (a b : Bool) : nor.eval a b = !(a || b) := by cases a <;> cases b <;> rfl
@[simp] theorem eval_nimp (a b : Bool) : nimp.eval a b = (a && !b) := by cases a <;> cases b <;> rfl
@[simp] theorem eval_ncimp (a b : Bool) : ncimp.eval a b = (!a && b) := by
  cases a <;> cases b <;> rfl
@[simp] theorem eval_xor (a b : Bool) : xor.eval a b = (a ^^ b) := by cases a <;> cases b <;> rfl
@[simp] theorem eval_nand (a b : Bool) : nand.eval a b = !(a && b) := by
  cases a <;> cases b <;> rfl
@[simp] theorem eval_and (a b : Bool) : and.eval a b = (a && b) := by cases a <;> cases b <;> rfl
@[simp] theorem eval_xnor (a b : Bool) : xnor.eval a b = !(a ^^ b) := by
  cases a <;> cases b <;> rfl
@[simp] theorem eval_cimp (a b : Bool) : cimp.eval a b = (a || !b) := by cases a <;> cases b <;> rfl
@[simp] theorem eval_imp (a b : Bool) : imp.eval a b = (!a || b) := by cases a <;> cases b <;> rfl
@[simp] theorem eval_or (a b : Bool) : or.eval a b = (a || b) := by cases a <;> cases b <;> rfl

end GateFunction

end GateNet
