import TensorDiagram.Machine.Basic

/-!
# Values of expressions

The value of an expression is labelled, if it has legs to be matched with those of other factors and
terms, or plain. Factors are multiplied from left to right; the terms of a sum are brought to the
order of legs of the first one.
-/

namespace TensorDiagram

/-- The value of an expression. -/
inductive Evaluated (R : Type) where
  /-- A value with a label for each leg. -/
  | labelled (value : Value R) (labels : List Index)
  /-- A value without labels. -/
  | plain (value : Value R)

namespace Evaluated

variable {R : Type} [Arithmetic R]

/-- The value without its labels. -/
def value : Evaluated R → Value R
  | labelled v _ => v
  | plain v => v

/-- An integer as a plain value. -/
def ofInt (n : Int) : Evaluated R :=
  .plain (.scalar (Arithmetic.literal (.integer n)))

/-- A labelled value times a plain one. -/
def scaled (v : Value R) (labels : List Index) (alpha : Value R) :
    Except Error (Evaluated R) := do
  let t ← v.toTensor
  let product ← t.scale (← alpha.toScalar)
  return .labelled (.tensor product) labels

/-- The product of two labelled values, contracted over the labels that both have. -/
def joined (a : Value R) (labels : List Index) (b : Value R) (others : List Index) :
    Except Error (Evaluated R) := do
  let left := labels.filter (· ∉ others)
  let right := others.filter (· ∉ labels)
  let s ← a.toOperand labels
  let t ← b.toOperand others
  return .labelled (.tensor (← Tensor.contractAll [s, t] left right)) (left ++ right)

/-- The product of two values. -/
def mul : Evaluated R → Evaluated R → Except Error (Evaluated R)
  | plain a, plain b => do
    return .plain (.scalar (← Arithmetic.mulScalars (← a.toScalar) (← b.toScalar)))
  | plain a, labelled b labels => scaled b labels a
  | labelled a labels, plain b => scaled a labels b
  | labelled a labels, labelled b others => joined a labels b others

/-- The value with a sign. -/
def signed (sign : Sign) (v : Evaluated R) : Except Error (Evaluated R) :=
  match sign with
  | .plus => .ok v
  | .minus => (ofInt (-1)).mul v

/-- The sum of two labelled values, with the legs in the order of the first. -/
def addLabelled (a : Value R) (labels : List Index) (sign : Sign) (b : Value R)
    (others : List Index) : Except Error (Evaluated R) := do
  let s ← a.toTensor
  let outputs := s.legs.codomain.length
  let operand ← b.toOperand others
  let t ← Tensor.contractAll [operand] (labels.take outputs) (labels.drop outputs)
  let t ← match sign with
    | .plus => pure t
    | .minus => t.scale (Arithmetic.literal (.integer (-1)))
  return .labelled (.tensor (← s.add t)) labels

/-- The sum of two values, the second with a sign. -/
def add (sign : Sign) : Evaluated R → Evaluated R → Except Error (Evaluated R)
  | plain a, plain b => do
    let factor : R := Arithmetic.literal (.integer sign.toInt)
    let y ← Arithmetic.mulScalars factor (← b.toScalar)
    return .plain (.scalar (← Arithmetic.addScalars (← a.toScalar) y))
  | labelled a labels, labelled b others => addLabelled a labels sign b others
  | _, _ => .error .scalarPlusTensor

/-- The conjugate of the value of `arg`, which must not be labelled. -/
def conj (arg : Diagram) : Evaluated R → Except Error (Evaluated R)
  | labelled _ _ => .error (.conjugateTensor (.conj arg))
  | plain (.scalar x) => .ok (.plain (.scalar (Arithmetic.conj x)))
  | plain (.tensor _) => .error .notTensor

end Evaluated

namespace Machine

variable {R : Type} [Arithmetic R]

/-- The value of a scalar. -/
def evaluateScalar (m : Machine R) : Scalar → Except Error (Evaluated R)
  | .name text => do return .plain (← m.namedScalar text)
  | .number x => .ok (.plain (.scalar (Arithmetic.literal x)))

/-- The value of the object of a reference, or of its adjoint. -/
def referent (m : Machine R) (object : ObjectRef) (isAdjoint : Bool) :
    Except Error (Value R) := do
  let value ← m.lookup object
  if isAdjoint then return .tensor (← value.toTensor).adjoint else return value

/-- The value of a reference. Labels that appear twice are traced over. -/
def evaluateRef (m : Machine R) (t : TensorRef) : Except Error (Evaluated R) := do
  let value ← m.referent t.object t.isAdjoint
  if (duplicates [] t.indices).isEmpty then return .labelled value t.indices
  else
    let left := t.left.filter fun i => t.indices.count i = 1
    let right := t.right.filter fun i => t.indices.count i = 1
    let traced ← Tensor.contractAll [← value.toOperand t.indices] left right
    return .labelled (.tensor traced) (left ++ right)

mutual
/-- The value of an expression. -/
def evaluate (m : Machine R) : Diagram → Except Error (Evaluated R)
  | .scalar s => m.evaluateScalar s
  | .ref t => m.evaluateRef t
  | .conj a => do (← m.evaluate a).conj a
  | .product a b rest => do
    let x ← m.evaluate a
    let y ← m.evaluate b
    m.evaluateFactors (← x.mul y) rest
  | .sum sign a rest => do
    let x ← m.evaluate a
    m.evaluateTerms (← x.signed sign) rest
  | d => .error (.unknownExpression d)
/-- The value so far times those of further factors. -/
def evaluateFactors (m : Machine R) (value : Evaluated R) :
    List Diagram → Except Error (Evaluated R)
  | [] => .ok value
  | d :: rest => do
    let next ← m.evaluate d
    m.evaluateFactors (← value.mul next) rest
/-- The value so far plus those of further terms. -/
def evaluateTerms (m : Machine R) (value : Evaluated R) :
    List (Sign × Diagram) → Except Error (Evaluated R)
  | [] => .ok value
  | (sign, d) :: rest => do
    let next ← m.evaluate d
    m.evaluateTerms (← value.add sign next) rest
end

end Machine

end TensorDiagram
